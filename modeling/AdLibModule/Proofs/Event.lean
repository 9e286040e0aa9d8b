import AdLibModule.Event
import Mathlib

/-! What decoded events look like, whatever bytes they were decoded from: the note is never the one
that is stored for none, both parameters have four bits, and the command is one that the tables of
the family or one of their rewritten effects can give. -/

namespace AdLibModule

theorem getD_mem_or_eq {α : Type} (values : Array α) (index : Nat) (default : α) :
    values.getD index default ∈ values ∨ values.getD index default = default := by
  rw [Array.getD_eq_getD_getElem?]
  cases hvalue : values[index]? with
  | none => exact Or.inr rfl
  | some value => exact Or.inl (Array.mem_of_getElem? hvalue)

namespace Effect

theorem highHalf_le (parameter : UInt8) : highHalf parameter ≤ 15 := by
  have hlt := parameter.toNat_lt
  rw [UInt8.le_iff_toNat_le, highHalf, UInt8.toNat_shiftRight]
  simp [Nat.shiftRight_eq_div_pow]
  omega

theorem lowHalf_le (parameter : UInt8) : lowHalf parameter ≤ 15 := by
  rw [UInt8.le_iff_toNat_le, lowHalf, UInt8.toNat_and]
  exact Nat.and_le_right

end Effect

/-- The commands that the effects of a family can become: the entries of its table, and those that
a few effects are rewritten to. -/
def Family.commands : Family → List UInt8
  | classic =>
    Effect.classicCommands.toList
      ++ [Command.keyOff.number, Command.setWaveform.number, Command.fineVolumeSlide.number]
  | opl3 | extended =>
    Effect.modernCommands.toList ++ [Command.extended.number, Command.patternDelay.number]

/-- The effect is one that the events of a family can have. -/
structure Effect.Canonical (family : Family) (effect : Effect) : Prop where
  command : effect.command = Effect.noCommand ∨ effect.command ∈ family.commands
  param1 : effect.param1 ≤ 15
  param2 : effect.param2 ≤ 15

namespace Effect

theorem canonical_ofClassicExtended {kind value : UInt8} (hkind : kind ≤ 15) (hvalue : value ≤ 15) :
    (ofClassicExtended kind value).Canonical .classic := by
  have hkeyOff : Command.keyOff.number ∈ Family.classic.commands := by decide
  have hwaveform : Command.setWaveform.number ∈ Family.classic.commands := by decide
  have hslide : Command.fineVolumeSlide.number ∈ Family.classic.commands := by decide
  have hextended : Command.extended.number ∈ Family.classic.commands := by decide
  have hzero : (0 : UInt8) ≤ 15 := by decide
  unfold ofClassicExtended
  split_ifs
  · exact ⟨Or.inr hkeyOff, hzero, hzero⟩
  · exact ⟨Or.inr hwaveform, hvalue, UInt8.le_refl 15⟩
  · exact ⟨Or.inr hslide, hvalue, hzero⟩
  · exact ⟨Or.inr hslide, hzero, hvalue⟩
  · exact ⟨Or.inr hextended, hkind, hvalue⟩

theorem canonical_ofClassic (number parameter : UInt8) :
    (ofClassic number parameter).Canonical .classic := by
  have hkind : classicExtended.getD (highHalf parameter).toNat 0 ≤ 15 := by
    rcases getD_mem_or_eq classicExtended (highHalf parameter).toNat 0 with hmem | hzero
    · have hsmall : ∀ kind ∈ classicExtended.toList, kind ≤ 15 := by simp [classicExtended]
      exact hsmall _ hmem.val
    · rw [hzero]
      decide
  unfold ofClassic
  dsimp only
  split_ifs
  · exact canonical_ofClassicExtended hkind (lowHalf_le parameter)
  · refine ⟨?_, highHalf_le parameter, lowHalf_le parameter⟩
    rcases getD_mem_or_eq classicCommands number.toNat noCommand with hmem | hnone
    · exact Or.inr (List.mem_append_left _ hmem.val)
    · exact Or.inl hnone

theorem canonical_ofModern {family : Family} (hfamily : family ≠ .classic) (number parameter : UInt8) :
    (ofModern number parameter).Canonical family := by
  have hcommands : family.commands = Family.commands .opl3 := by
    cases family with
    | classic => exact absurd rfl hfamily
    | _ => rfl
  have hextended : Command.extended.number ∈ family.commands := by
    rw [hcommands]
    decide
  have hdelay : Command.patternDelay.number ∈ family.commands := by
    rw [hcommands]
    decide
  have hhigh := highHalf_le parameter
  have hlow := lowHalf_le parameter
  have hzero : (0 : UInt8) ≤ 15 := by decide
  have height : (8 : UInt8) ≤ 15 := by decide
  unfold ofModern
  dsimp only
  split_ifs
  · exact ⟨Or.inr hextended, hhigh, hlow⟩
  · exact ⟨Or.inr hdelay, hzero, hlow⟩
  · exact ⟨Or.inr hextended, height, hlow⟩
  · refine ⟨?_, hhigh, hlow⟩
    rw [hcommands]
    rcases getD_mem_or_eq modernCommands number.toNat noCommand with hmem | hnone
    · exact Or.inr (List.mem_append_left _ hmem.val)
    · exact Or.inl hnone

end Effect

/-- The event is one that the patterns of a family can have. -/
structure Event.Canonical (family : Family) (event : Event) : Prop where
  note : event.note ≠ Event.storedNoNote
  effect : (Effect.mk event.command event.param1 event.param2).Canonical family
  secondary : family ≠ .extended → event.secondary = ⟨0, 0⟩

namespace Event

theorem canonical_empty (family : Family) : empty.Canonical family := by
  refine ⟨by decide, ⟨Or.inr ?_, by decide, by decide⟩, fun _ => rfl⟩
  cases family <;> decide

theorem canonical_ofBytes (family : Family) (stored : Array UInt8) :
    (ofBytes family stored).Canonical family := by
  refine ⟨?_, ?_, ?_⟩
  · unfold ofBytes
    dsimp only
    split_ifs with hnote
    · decide
    · exact hnote
  · cases family with
    | classic => exact Effect.canonical_ofClassic _ _
    | opl3 => exact Effect.canonical_ofModern (by decide) _ _
    | extended => exact Effect.canonical_ofModern (by decide) _ _
  · intro hfamily
    cases family with
    | extended => exact absurd rfl hfamily
    | _ => rfl

end Event
end AdLibModule
