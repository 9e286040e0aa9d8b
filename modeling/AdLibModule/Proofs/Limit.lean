import AdLibModule.Proofs.Aplib.Accepted
import AdLibModule.Proofs.Sixpack.Accepted

/-! The limit for the output of a packed stream only limits. What a stream says does not depend on the
limit, so an output is the same under every limit that it keeps, and any other limit is an error. -/

namespace AdLibModule

/-- The outputs that are accepted under a limit are those that keep it. -/
def OnlyLimits (decode : Nat → Except DecodeError (Array UInt8)) : Prop :=
  ∃ Says : Array UInt8 → Prop, ∀ (limit : Nat) (out : Array UInt8),
    decode limit = .ok out ↔ out.size ≤ limit ∧ Says out

namespace OnlyLimits

variable {decode : Nat → Except DecodeError (Array UInt8)} {limit other : Nat} {out : Array UInt8}

theorem size_le (h : OnlyLimits decode) (hdecode : decode limit = .ok out) : out.size ≤ limit := by
  obtain ⟨Says, hiff⟩ := h
  exact ((hiff limit out).mp hdecode).1

theorem eq_ok_of_size_le (h : OnlyLimits decode) (hdecode : decode limit = .ok out)
    (hroom : out.size ≤ other) : decode other = .ok out := by
  obtain ⟨Says, hiff⟩ := h
  exact (hiff other out).mpr ⟨hroom, ((hiff limit out).mp hdecode).2⟩

/-- A smaller output would have room under both limits, so that it would be the same one. -/
theorem exists_eq_error_of_lt (h : OnlyLimits decode) (hdecode : decode limit = .ok out)
    (hshort : other < out.size) : ∃ error, decode other = .error error := by
  cases hother : decode other with
  | error error => exact ⟨error, rfl⟩
  | ok smaller =>
      have hsmaller := h.size_le hother
      have hsize := h.size_le hdecode
      have hroom : smaller.size ≤ limit := by omega
      have hsame : smaller = out :=
        Except.ok.inj ((h.eq_ok_of_size_le hother hroom).symm.trans hdecode)
      rw [hsame] at hsmaller
      exact absurd hsmaller (Nat.not_le_of_gt hshort)

end OnlyLimits

theorem Sixpack.onlyLimits_decode (source : Array UInt8) : OnlyLimits (decode source) :=
  ⟨_, fun _ _ => decode_eq_ok_iff⟩

theorem Aplib.onlyLimits_decode (source : Array UInt8) : OnlyLimits (decode source) :=
  ⟨_, fun _ _ => decode_eq_ok_iff⟩

/-- In both packing schemes, an output that one limit has room for is the output under every limit that
has room for it, and under every limit that has not there is an error. -/
theorem decode_under_other_limit (source out : Array UInt8) (limit other : Nat) :
    (Sixpack.decode source limit = .ok out →
      (out.size ≤ other → Sixpack.decode source other = .ok out)
      ∧ (other < out.size → ∃ error, Sixpack.decode source other = .error error))
    ∧ (Aplib.decode source limit = .ok out →
      (out.size ≤ other → Aplib.decode source other = .ok out)
      ∧ (other < out.size → ∃ error, Aplib.decode source other = .error error)) := by
  have hsixpack := Sixpack.onlyLimits_decode source
  have haplib := Aplib.onlyLimits_decode source
  constructor
  · intro hdecode
    exact ⟨hsixpack.eq_ok_of_size_le hdecode, hsixpack.exists_eq_error_of_lt hdecode⟩
  · intro hdecode
    exact ⟨haplib.eq_ok_of_size_le hdecode, haplib.exists_eq_error_of_lt hdecode⟩

theorem decode_under_other_limit_of_repetition :
    (∃ error, Sixpack.decode #[35, 212, 112, 231, 125, 10, 81] 5 = .error error)
    ∧ Sixpack.decode #[35, 212, 112, 231, 125, 10, 81] 63759 = .ok #[97, 98, 99, 97, 98, 99]
    ∧ (∃ error, Aplib.decode #[65, 81, 66, 2, 194, 13, 1, 99] 8 = .error error)
    ∧ Aplib.decode #[65, 81, 66, 2, 194, 13, 1, 99] 70000
      = .ok #[65, 66, 65, 66, 65, 66, 0, 66, 0] := by
  have hsixpack := Sixpack.decode_abcabc (Nat.le_refl 6)
  have haplib := Aplib.decode_repetition (Nat.le_refl 9)
  refine ⟨?_, ?_, ?_, ?_⟩
  · exact ((decode_under_other_limit _ _ 6 5).1 hsixpack).2 (by decide)
  · exact ((decode_under_other_limit _ _ 6 63759).1 hsixpack).1 (by decide)
  · exact ((decode_under_other_limit _ _ 9 8).2 haplib).2 (by decide)
  · exact ((decode_under_other_limit _ _ 9 70000).2 haplib).1 (by decide)

end AdLibModule
