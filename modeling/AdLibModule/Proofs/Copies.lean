import AdLibModule.Proofs.Aplib.Machine
import AdLibModule.Proofs.Aplib.RoundTrip
import AdLibModule.Proofs.Sixpack.Machine

/-! Copies of earlier output. A copy reads output that grows while it reads. What it appends has a
closed form all the same: the stretch from where it begins up to the old end, over and over. A copy
that goes back no less than its length never comes to that end, and a sixpack stream has no others. -/

namespace AdLibModule

/-! ### What a copy appends -/

namespace Output

/-- `grown` is `out` with `length` bytes behind it: the last `distance` bytes of `out`, over and over. -/
structure RepeatsBack (out : Array UInt8) (distance length : Nat) (grown : Array UInt8) : Prop where
  size : grown.size = out.size + length
  kept : ∀ index, index < out.size → grown[index]? = out[index]?
  repeated : ∀ index, index < length →
    grown[out.size + index]? = out[out.size - distance + index % distance]?

/-- The last byte of a copy is appended behind all others. -/
theorem repeatBack_succ (out : Array UInt8) (distance count : Nat) :
    repeatBack out distance (count + 1) = (repeatBack out distance count).push
      ((repeatBack out distance count).getD (out.size + count - distance) 0) := by
  induction count generalizing out with
  | zero => rfl
  | succ count ih =>
      rw [repeatBack, ih, Array.size_push, Nat.add_right_comm, ← repeatBack, Nat.add_assoc]

variable {out : Array UInt8} {distance length : Nat}

/-- From the end of `out`, the place `distance` before it and all behind that one are in order. -/
theorem RepeatsBack.getD_eq {grown : Array UInt8} (h : RepeatsBack out distance length grown)
    (hpos : 1 ≤ distance) (hle : distance ≤ out.size) :
    some (grown.getD (out.size + length - distance) 0)
      = out[out.size - distance + length % distance]? := by
  have hplace : out.size + length - distance < grown.size := by
    rw [h.size]
    omega
  rw [Array.getD, dif_pos hplace]
  show some grown[out.size + length - distance] = _
  rw [← Array.getElem?_eq_getElem hplace]
  by_cases hnew : length < distance
  · rw [h.kept _ (by omega), Nat.mod_eq_of_lt hnew]
    congr 1
    omega
  · have hindex : out.size + length - distance = out.size + (length - distance) := by omega
    rw [hindex, h.repeated _ (by omega), ← Nat.mod_eq_sub_mod (Nat.le_of_not_lt hnew)]

theorem repeatsBack_repeatBack (hpos : 1 ≤ distance) (hle : distance ≤ out.size) (length : Nat) :
    RepeatsBack out distance length (repeatBack out distance length) := by
  induction length with
  | zero => exact ⟨rfl, fun _ _ => rfl, fun _ hlt => absurd hlt (Nat.not_lt_zero _)⟩
  | succ length ih =>
      have hbyte := ih.getD_eq hpos hle
      rw [repeatBack_succ]
      refine ⟨?_, ?_, ?_⟩
      · rw [Array.size_push, ih.size, Nat.add_assoc]
      · intro index hlt
        rw [Array.getElem?_push_lt (by rw [ih.size]; omega), ← ih.kept index hlt,
          Array.getElem?_eq_getElem]
      · intro index hlt
        rw [Array.getElem?_push, ih.size]
        rcases Nat.lt_succ_iff_lt_or_eq.mp hlt with hbefore | rfl
        · rw [if_neg (by omega)]
          exact ih.repeated index hbefore
        · rw [if_pos rfl]
          exact hbyte

/-- A copy that does not reach into its own output appends a block of the output before it. -/
theorem repeatBack_eq_append (hlength : length ≤ distance) (hle : distance ≤ out.size) :
    repeatBack out distance length
      = out ++ out.extract (out.size - distance) (out.size - distance + length) := by
  rcases Nat.eq_zero_or_pos length with rfl | hsome
  · rw [Nat.add_zero, Array.extract_eq_empty_of_le (Nat.min_le_left _ _), Array.append_empty]
    rfl
  have hcopy := repeatsBack_repeatBack (Nat.le_trans hsome hlength) hle length
  have hblock : (out.extract (out.size - distance) (out.size - distance + length)).size = length := by
    rw [Array.size_extract]
    omega
  apply Array.ext_getElem?
  intro index
  by_cases hold : index < out.size
  · rw [hcopy.kept index hold, Array.getElem?_append_left hold]
  · obtain ⟨place, rfl⟩ := Nat.exists_eq_add_of_le (Nat.le_of_not_lt hold)
    rw [Array.getElem?_append_right (Nat.le_add_right _ _), Nat.add_sub_cancel_left]
    by_cases hplace : place < length
    · rw [hcopy.repeated place hplace, Nat.mod_eq_of_lt (Nat.lt_of_lt_of_le hplace hlength),
        Array.getElem?_extract, if_pos (by omega)]
    · rw [Array.getElem?_eq_none (by rw [hcopy.size]; omega),
        Array.getElem?_eq_none (by rw [hblock]; omega)]

end Output

/-! ### A copy as it runs -/

namespace Unpacker

variable {μ : Type} {unpacker : Unpacker μ} {limit : Nat} {memory : μ} {tape : Tape}
  {out : Array UInt8} {distance length : Nat}

/-- Byte by byte, each from the place behind that of the one before, the whole copy is appended. -/
theorem reaches_of_copying (hpos : 1 ≤ distance) (hle : distance ≤ out.size) {copied left : Nat}
    (hlength : copied + left = length) :
    unpacker.Reaches limit
      ⟨memory, tape, Output.repeatBack out distance copied, .copying (out.size - distance) copied length⟩
      ⟨memory, tape, Output.repeatBack out distance length, .reading⟩ := by
  induction left generalizing copied with
  | zero =>
      obtain rfl : copied = length := hlength
      refine .single ?_
      rw [step, if_neg (Nat.lt_irrefl _)]
      rfl
  | succ left ih =>
      have hlater : copied + 1 + left = length := by omega
      refine .head ?_ (ih hlater)
      have hplace : out.size - distance + copied < (Output.repeatBack out distance copied).size := by
        rw [Output.size_repeatBack]
        omega
      have hindex : out.size + copied - distance = out.size - distance + copied :=
        Nat.sub_add_comm hle
      have hbyte : (Output.repeatBack out distance copied).getD (out.size - distance + copied) 0
          = (Output.repeatBack out distance copied)[out.size - distance + copied] := by
        rw [Array.getD, dif_pos hplace]
        rfl
      rw [step, if_pos (by omega), Array.getElem?_eq_getElem hplace, Output.repeatBack_succ, hindex,
        hbyte]
      rfl

end Unpacker

/-- Wherever a copy is under way, the bytes that it has appended are those of a block of the output
that was there when it began, and so are the bytes to come. -/
def Machine.CopiesApart {μ : Type} (machine : Machine μ) : Prop :=
  ∀ start copied length, machine.phase = .copying start copied length →
    ∃ before : Array UInt8, copied ≤ length ∧ start + length ≤ before.size
      ∧ machine.out = before ++ before.extract start (start + copied)

/-- The block that is to be copied ends before the copy begins. -/
def Directive.Apart : Directive → Prop
  | .copy distance length => length ≤ distance
  | .put _ | .stop => True

namespace Unpacker

variable {μ : Type} {unpacker : Unpacker μ} {limit : Nat} {machine after : Machine μ}

theorem copiesApart_of_reading {memory : μ} {tape : Tape} {out : Array UInt8} :
    (Machine.mk memory tape out .reading).CopiesApart := fun _ _ _ hphase => Phase.noConfusion hphase

/-- A copy that is begun goes back no further than the output, and ends before its end. -/
theorem copiesApart_of_carryOut {memory : μ} {tape : Tape} {out : Array UInt8} {directive : Directive}
    (happly : unpacker.carryOut limit memory tape out directive = some (.next after))
    (hapart : directive.Apart) : after.CopiesApart := by
  cases directive with
  | stop => cases happly
  | put byte =>
      rw [carryOut] at happly
      split at happly
      · cases happly
      · cases happly
        exact copiesApart_of_reading
  | copy distance length =>
      rw [carryOut] at happly
      split at happly
      · cases happly
      · split at happly
        · cases happly
        · obtain ⟨start, hstart, hnext⟩ := Option.bind_eq_some_iff.mp happly
          rw [sub?] at hstart
          split at hstart
          · rename_i hle
            cases hstart
            cases hnext
            rintro _ _ _ ⟨⟩
            have hlength : length ≤ distance := hapart
            refine ⟨out, Nat.zero_le _, by omega, ?_⟩
            rw [Nat.add_zero, Array.extract_eq_empty_of_le (Nat.min_le_left _ _), Array.append_empty]
          · cases hstart

/-- One more byte is copied, or the next directive is carried out. -/
theorem copiesApart_step (hread : ∀ memory tape directive later left,
      unpacker.read memory tape = some (.ok ((directive, later), left)) → directive.Apart)
    (h : machine.CopiesApart) (hstep : unpacker.step limit machine = some (.next after)) :
    after.CopiesApart := by
  obtain ⟨memory, tape, out, phase⟩ := machine
  cases phase with
  | reading =>
      obtain ⟨taken, htaken, hrest⟩ := Option.bind_eq_some_iff.mp hstep
      cases taken with
      | error fault => cases hrest
      | ok taken =>
          obtain ⟨⟨directive, later⟩, left⟩ := taken
          exact copiesApart_of_carryOut hrest (hread _ _ _ _ _ htaken)
  | copying start copied length =>
      obtain ⟨before, hcopied, hblock, hout⟩ := h start copied length rfl
      obtain rfl : out = _ := hout
      rw [step] at hstep
      split at hstep
      · rename_i hmore
        have hplace : start + copied < before.size := by omega
        rw [Array.getElem?_append_left hplace, Array.getElem?_eq_getElem hplace] at hstep
        cases hstep
        rintro _ _ _ ⟨⟩
        refine ⟨before, hmore, hblock, ?_⟩
        rw [Array.push_append, Array.push_extract_getElem, Nat.min_eq_left (Nat.le_add_right _ _)]
        rfl
      · cases hstep
        exact copiesApart_of_reading

theorem copiesApart_of_reaches (hread : ∀ memory tape directive later left,
      unpacker.read memory tape = some (.ok ((directive, later), left)) → directive.Apart)
    (h : machine.CopiesApart) (hreaches : unpacker.Reaches limit machine after) :
    after.CopiesApart := by
  induction hreaches with
  | refl => exact h
  | tail _ hstep ih => exact copiesApart_step hread ih hstep

end Unpacker

/-! ### Copies of the sixpack decoder -/

/-- All results of the computation satisfy the condition. -/
def Checked.Ensures {α : Type} (condition : α → Prop) (checked : Checked α) : Prop :=
  ∀ tape value left, checked tape = some (.ok (value, left)) → condition value

namespace Checked

variable {α β : Type} {condition : α → Prop} {further : β → Prop}

theorem ensures_true (checked : Checked α) : checked.Ensures fun _ => True :=
  fun _ _ _ _ => trivial

theorem ensures_pure {value : α} (h : condition value) : Ensures condition (pure value) := by
  rintro tape _ _ ⟨⟩
  exact h

theorem Ensures.bind {checked : Checked α} {next : α → Checked β} (h : checked.Ensures condition)
    (hnext : ∀ value, condition value → (next value).Ensures further) :
    (checked >>= next).Ensures further := by
  intro tape result left hresult
  obtain ⟨taken, htaken, hrest⟩ := Option.bind_eq_some_iff.mp hresult
  cases taken with
  | error fault => cases hrest
  | ok taken =>
      obtain ⟨value, between⟩ := taken
      exact hnext value (h tape value between htaken) between result left hrest

end Checked

namespace Sixpack

open Checked (ensures_true ensures_pure)

/-- The distance of a copy is made up of its length, its range and its place in the range. -/
theorem ensures_nextDirective (code : Nat) : (nextDirective code).Ensures Directive.Apart := by
  unfold nextDirective
  split_ifs with hstop hliteral
  · exact ensures_pure trivial
  · exact ensures_pure trivial
  · refine (ensures_true _).bind fun index _ => (ensures_true _).bind fun length _ =>
      (ensures_true _).bind fun width _ => (ensures_true _).bind fun place _ =>
      (ensures_true _).bind fun base _ => ensures_pure ?_
    show length ≤ place + length + base
    omega

theorem ensures_readDirective {κ : Type} [Counter κ] (table : NodeTable κ) :
    (readDirective table).Ensures fun taken => taken.1.Apart :=
  (ensures_true _).bind fun _ _ => (ensures_true _).bind fun code _ => (ensures_true _).bind
    fun _ _ => (ensures_nextDirective code).bind fun _ hdirective => ensures_pure hdirective

/-- The token is a copy that goes back no less than its length, so that it appends a block of the
output before it. -/
def Token.CopiesBlock (token : Token) : Prop :=
  ∃ length distance three_le, token = .copy length distance three_le ∧ length ≤ distance
    ∧ ∀ (limit : Nat) (out : Array UInt8), distance ≤ out.size → out.size + length ≤ limit →
      token.append limit out
        = .ok (out ++ out.extract (out.size - distance) (out.size - distance + length))

theorem Token.copiesBlock_ofCopy (range : Range) (lengthIndex : Fin lengthCount) (place : Nat) :
    (ofCopy range lengthIndex place).CopiesBlock := by
  have hlength : lengthIndex.val + 3 ≤ place + (lengthIndex.val + 3) + range.base := by omega
  refine ⟨_, _, _, rfl, hlength, fun limit out hdistance hroom => ?_⟩
  rw [ofCopy, append, if_neg (Nat.not_lt.mpr hdistance), if_neg (Nat.not_lt.mpr hroom),
    Output.repeatBack_eq_append hlength hdistance]

/-- The symbols behind the one that ends the stream are the copies. -/
theorem Symbol.exists_meaning_eq_copy {symbol : Symbol} (h : 256 < symbol.val) :
    ∃ range lengthIndex, symbol.meaning = .copy range lengthIndex := by
  rw [meaning, if_neg (Nat.not_lt.mpr (Nat.le_of_lt h)), if_neg (Nat.ne_of_gt h)]
  exact ⟨_, _, rfl⟩

end Sixpack

/-- Copies append what they are to append. One of an aPlib stream repeats the last `offset` bytes for as
long as it goes on, also beyond the end of the output that it began with. One of a sixpack stream goes
back no less than its length, whatever symbol and place it was read from; so it appends a block of the
output that it began with, and reads nothing that it has appended itself. -/
theorem copies_exactly :
    (∀ (limit : Nat) (out : Array UInt8) (offset length : Nat), 1 ≤ offset → offset ≤ out.size →
      out.size + length ≤ limit →
        ∃ grown, Aplib.copy limit out offset length = .ok grown
          ∧ Output.RepeatsBack out offset length grown
          ∧ ∀ memory tape, (Aplib.unpacker limit).Reaches limit
            ⟨memory, tape, out, .copying (out.size - offset) 0 length⟩
            ⟨memory, tape, grown, .reading⟩)
    ∧ (∀ symbol : Sixpack.Symbol, 256 < symbol.val →
      ∃ range lengthIndex, symbol.meaning = .copy range lengthIndex
        ∧ ∀ place, (Sixpack.Token.ofCopy range lengthIndex place).CopiesBlock)
    ∧ ∀ (source : Array UInt8) (limit : Nat) (machine : Machine (Sixpack.NodeTable UInt16)),
      Sixpack.unpacker.Reaches limit (Sixpack.machine source) machine → machine.CopiesApart := by
  refine ⟨?_, ?_, ?_⟩
  · intro limit out offset length hpos hle hroom
    have hsize : (Output.repeatBack out offset length).size ≤ limit := by
      rwa [Output.size_repeatBack]
    exact ⟨_, Aplib.State.copy_eq hpos hle hsize, Output.repeatsBack_repeatBack hpos hle length,
      fun memory tape => Unpacker.reaches_of_copying hpos hle (Nat.zero_add length)⟩
  · intro symbol hcopy
    obtain ⟨range, lengthIndex, hmeaning⟩ := Sixpack.Symbol.exists_meaning_eq_copy hcopy
    exact ⟨range, lengthIndex, hmeaning, Sixpack.Token.copiesBlock_ofCopy range lengthIndex⟩
  · intro source limit machine hreaches
    refine Unpacker.copiesApart_of_reaches ?_ Unpacker.copiesApart_of_reading hreaches
    intro table tape directive later left hread
    exact Sixpack.ensures_readDirective table tape _ left hread

/-- A copy of five bytes from two bytes back, and the longest and farthest copy of a sixpack stream. -/
theorem copies_exactly_beyond_end :
    (Aplib.copy 8 #[1, 2, 3] 2 5 = .ok #[1, 2, 3, 2, 3, 2, 3, 2]
      ∧ Output.RepeatsBack #[1, 2, 3] 2 5 #[1, 2, 3, 2, 3, 2, 3, 2])
    ∧ (Sixpack.Symbol.meaning 1774 = .copy 5 252
      ∧ (Sixpack.Token.ofCopy 5 252 16383).CopiesBlock)
    ∧ (Sixpack.machine #[]).CopiesApart := by
  obtain ⟨hrepeats, hblocks, hruns⟩ := copies_exactly
  obtain ⟨grown, hgrown, hrepeated, -⟩ :=
    hrepeats 8 #[1, 2, 3] 2 5 (by decide) (by decide) (by decide)
  obtain ⟨range, lengthIndex, hmeaning, hcopies⟩ := hblocks 1774 (by decide)
  have hcopy : Aplib.copy 8 #[1, 2, 3] 2 5 = .ok #[1, 2, 3, 2, 3, 2, 3, 2] := rfl
  have hlast : Sixpack.Symbol.meaning 1774 = .copy 5 252 := rfl
  rw [hlast] at hmeaning
  obtain ⟨rfl, rfl⟩ := Sixpack.Meaning.copy.inj hmeaning
  obtain rfl := Except.ok.inj (hcopy.symm.trans hgrown)
  exact ⟨⟨hcopy, hrepeated⟩, ⟨hlast, hcopies 16383⟩, hruns #[] 0 _ .refl⟩

end AdLibModule
