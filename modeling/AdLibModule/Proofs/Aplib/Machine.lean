import AdLibModule.Aplib.Decoder
import AdLibModule.Proofs.Machine

/-! The aPlib decoder as it runs on arrays. Its machine never gets stuck: a gamma number is two or
more, so that what is taken from it for the offset of a match is never more than it is. It answers
what the decoder on token lists answers. -/

namespace AdLibModule.Aplib

open Checked (Follows demand)

/-! ### Reading a directive -/

/-- What the decoder keeps in mind of the tokens before. -/
inductive Memory where
  /-- The first byte is still to come. -/
  | first
  | later (lastOffset : Nat) (afterMatch : Bool)

def nextByte : Checked UInt8 := Checked.nextByte .aplib

def nextBit : Checked Bool := Checked.nextBit (Checked.tagBits .aplib)

/-- What the digits of a gamma number spell that were read so far, the leading one included. -/
abbrev Digits := Nat

/-- The gamma number that begins with the digits. -/
def Digits.next (leading : Digits) (limit : Nat) : Checked Nat := do
  let digit ← nextBit
  let value : Digits := 2 * leading + digit.toNat
  if gammaLimit limit < value then
    throw .gammaTooLarge
  else if ← nextBit then
    value |>.next limit
  else
    return value
partial_fixpoint

def nextGamma (limit : Nat) : Checked Nat := Digits.next 1 limit

/-- The directive of a match whose offset is spelt in full, or taken up again. What the program would
report as an invalid offset, a difference below zero, has no result. -/
def nextMatch (limit lastOffset : Nat) (afterMatch : Bool) : Checked (Directive × Memory) := do
  let high ← nextGamma limit
  if !afterMatch && high == 2 then
    return (.copy lastOffset (← nextGamma limit), .later lastOffset true)
  else
    let high ← demand (sub? high (if afterMatch then 2 else 3))
    let offset := 256 * high + (← nextByte).toNat
    return (.copy offset ((← nextGamma limit) + lengthBonus offset), .later offset true)

/-- The directive of a match of two or three bytes, or the end of the stream. -/
def nextShort (lastOffset : Nat) (afterMatch : Bool) : Checked (Directive × Memory) := do
  let byte ← nextByte
  let offset := byte.toNat / 2
  if offset = 0 then
    return (.stop, .later lastOffset afterMatch)
  else
    return (.copy offset (2 + byte.toNat % 2), .later offset true)

/-- The directive of a single byte, or of a zero byte. -/
def nextSingle (lastOffset : Nat) : Checked (Directive × Memory) := do
  let eight ← nextBit
  let four ← nextBit
  let two ← nextBit
  let one ← nextBit
  let offset := 8 * eight.toNat + 4 * four.toNat + 2 * two.toNat + one.toNat
  return (if offset = 0 then .put 0 else .copy offset 1, .later lastOffset false)

def readDirective (limit : Nat) : Memory → Checked (Directive × Memory)
  | .first => return (.put (← nextByte), .later 0 false)
  | .later lastOffset afterMatch => do
    if !(← nextBit) then
      return (.put (← nextByte), .later lastOffset false)
    else if !(← nextBit) then
      nextMatch limit lastOffset afterMatch
    else if !(← nextBit) then
      nextShort lastOffset afterMatch
    else
      nextSingle lastOffset

def unpacker (limit : Nat) : Unpacker Memory where
  read := readDirective limit
  refuses offset written :=
    if offset = 0 ∨ written < offset then some (.offsetOutside offset written) else none

/-- Before the first byte of the source. -/
def machine (source : Array UInt8) : Machine Memory := ⟨.first, Tape.start source, #[], .reading⟩

/-! ### It is the directive that the decoder reads -/

theorem follows_nextByte : Follows Eq nextByte readByte := Checked.follows_nextByte .aplib

theorem follows_nextBit : Follows Eq nextBit readBit := Checked.follows_tagBit .aplib

theorem Digits.follows_next (limit : Nat) (leading : Digits) (hpos : 0 < leading) :
    Follows (fun n gamma => n = gamma.val) (leading.next limit) (readDigits limit leading hpos) := by
  induction leading, hpos using readDigits.induct limit with
  | case1 leading hpos ih =>
      rw [next, readDigits]
      apply follows_nextBit.bind
      rintro digit _ rfl
      dsimp only
      by_cases hlimit : gammaLimit limit < 2 * leading + digit.toNat
      · rw [if_pos hlimit, dif_pos hlimit]
        exact Checked.follows_throw _
      · rw [if_neg hlimit, dif_neg hlimit]
        apply follows_nextBit.bind
        rintro more _ rfl
        cases more with
        | false => exact Checked.follows_pure rfl
        | true => exact ih digit hlimit

theorem follows_nextGamma (limit : Nat) :
    Follows (fun n gamma => n = gamma.val) (nextGamma limit) (readGamma limit) :=
  Digits.follows_next limit 1 Nat.one_pos

/-- What a token asks for after a match at the last offset. -/
def Token.directive (lastOffset : Nat) : Token → Directive
  | literal value => .put value
  | zero => .put 0
  | single offset => .copy offset 1
  | short offset isThree => .copy offset (2 + isThree.toNat)
  | long offset length => .copy offset (length + lengthBonus offset)
  | again length => .copy lastOffset length

/-- What is to be kept in mind after a token. -/
def Token.memory (lastOffset : Nat) : Token → Memory
  | literal _ | zero | single _ => .later lastOffset false
  | short offset _ | long offset _ => .later offset true
  | again _ => .later lastOffset true

/-- The directive is that of the token, or to stop at the end of the stream. -/
def Directs (lastOffset : Nat) (got : Directive × Memory) : Option Token → Prop
  | none => got.1 = .stop
  | some token => got = (token.directive lastOffset, token.memory lastOffset)

/-- Since a gamma number is two or more, only the smallest is less than the bias, and only where the
last token was no match. -/
theorem again_iff (afterMatch : Bool) (high : Gamma) :
    (!afterMatch && high.val == 2) = true ↔ high.val < offsetBias afterMatch := by
  have hhigh := high.2
  rw [offsetBias, Bool.and_eq_true, Bool.not_eq_true', beq_iff_eq]
  cases afterMatch with
  | false =>
      rw [if_neg Bool.false_ne_true, eq_self, true_and]
      omega
  | true =>
      rw [if_pos rfl]
      exact iff_of_false (fun h => Bool.false_ne_true h.1.symm) (Nat.not_lt.mpr hhigh)

section Follows

variable (limit lastOffset : Nat) (afterMatch : Bool)

theorem follows_nextMatch :
    Follows (Directs lastOffset) (nextMatch limit lastOffset afterMatch)
      (readMatch limit afterMatch) := by
  rw [nextMatch, readMatch]
  apply (follows_nextGamma limit).bind
  rintro _ high rfl
  refine .ite (again_iff afterMatch high) (fun _ => ?_) (fun hlong => ?_)
  · apply (follows_nextGamma limit).bind
    rintro _ length rfl
    exact Checked.follows_pure rfl
  · have hbias : sub? high.val (if afterMatch then 2 else 3)
        = some (high.val - offsetBias afterMatch) := if_pos (Nat.le_of_not_lt hlong)
    rw [Checked.demand_bind hbias]
    apply follows_nextByte.bind
    rintro low _ rfl
    apply (follows_nextGamma limit).bind
    rintro _ length rfl
    exact Checked.follows_pure rfl

theorem follows_nextShort :
    Follows (Directs lastOffset) (nextShort lastOffset afterMatch) readShort := by
  rw [nextShort, readShort]
  apply follows_nextByte.bind
  rintro byte _ rfl
  have hlength : (byte.toNat % 2 == 1).toNat = byte.toNat % 2 := by
    rcases Nat.mod_two_eq_zero_or_one byte.toNat with h | h <;> rw [h] <;> rfl
  by_cases hstop : byte.toNat / 2 = 0
  · simp only [hstop, if_true]
    exact Checked.follows_pure rfl
  · simp only [hstop, if_false]
    refine Checked.follows_pure ?_
    rw [Directs, Token.directive, hlength, Token.memory]

theorem follows_nextSingle : Follows (Directs lastOffset) (nextSingle lastOffset) readSingle := by
  rw [nextSingle, readSingle]
  apply follows_nextBit.bind
  rintro eight _ rfl
  apply follows_nextBit.bind
  rintro four _ rfl
  apply follows_nextBit.bind
  rintro two _ rfl
  apply follows_nextBit.bind
  rintro one _ rfl
  refine Checked.follows_pure ?_
  by_cases hzero : 8 * eight.toNat + 4 * four.toNat + 2 * two.toNat + one.toNat = 0
  · rw [if_pos hzero, if_pos hzero]
    rfl
  · rw [if_neg hzero, if_neg hzero]
    rfl

theorem follows_readDirective :
    Follows (Directs lastOffset) (readDirective limit (.later lastOffset afterMatch))
      (readToken limit afterMatch) := by
  rw [readDirective, readToken]
  apply follows_nextBit.bind
  rintro bit _ rfl
  cases bit with
  | false =>
      apply follows_nextByte.bind
      rintro byte _ rfl
      exact Checked.follows_pure rfl
  | true =>
      apply follows_nextBit.bind
      rintro bit _ rfl
      cases bit with
      | false => exact follows_nextMatch limit lastOffset afterMatch
      | true =>
          apply follows_nextBit.bind
          rintro bit _ rfl
          cases bit with
          | false => exact follows_nextShort lastOffset afterMatch
          | true => exact follows_nextSingle lastOffset

end Follows

theorem exists_readDirective_eq {limit : Nat} {state : State} {tape : Tape} {told : Option Token}
    {left : BitStream} (hread : readToken limit state.afterMatch tape.stream = .ok (told, left)) :
    ∃ got behind, readDirective limit (.later state.lastOffset state.afterMatch) tape
        = some (.ok (got, behind))
      ∧ Directs state.lastOffset got told ∧ behind.stream = left := by
  have hends := follows_readDirective limit state.lastOffset state.afterMatch tape
  rw [hread] at hends
  exact hends.exists_of_ok

/-! ### The run -/

theorem perform_copy (limit : Nat) (out : Array UInt8) (offset length : Nat) :
    (unpacker limit).perform limit out (.copy offset length) = copy limit out offset length := by
  rw [Unpacker.perform, copy, unpacker]
  dsimp only
  by_cases hoffset : offset = 0 ∨ out.size < offset
  · rw [if_pos hoffset, if_pos hoffset]
  · rw [if_neg hoffset, if_neg hoffset]

/-- To carry out the directive of a token, and to keep in mind what follows from it, is to carry out
the token. -/
theorem append_eq_map_perform (limit : Nat) (state : State) (token : Token) :
    ∃ lastOffset afterMatch, token.memory state.lastOffset = .later lastOffset afterMatch
      ∧ state.append limit token
        = ((unpacker limit).perform limit state.out (token.directive state.lastOffset)).map
          (⟨·, lastOffset, afterMatch⟩) := by
  obtain ⟨out, lastOffset, afterMatch⟩ := state
  cases token <;>
    refine ⟨_, _, rfl, ?_⟩ <;> rw [Token.directive, State.append] <;>
    first | rw [perform_copy] | rfl

theorem bounds_of_refuses_eq_none {limit offset written : Nat}
    (h : (unpacker limit).refuses offset written = none) : 1 ≤ offset ∧ offset ≤ written := by
  by_cases hoffset : offset = 0 ∨ written < offset
  · cases (if_pos hoffset).symm.trans h
  · omega

theorem directive_ne_stop (lastOffset : Nat) (token : Token) :
    token.directive lastOffset ≠ .stop := by
  cases token <;> exact Directive.noConfusion

/-- Between two tokens, the machine runs to what the decoder answers. -/
theorem runsTo_decodeFrom {limit : Nat} {state : State} {stream : BitStream} :
    ∀ {tape : Tape}, tape.stream = stream → state.out.size ≤ limit →
      (unpacker limit).RunsTo limit ((decodeFrom limit state stream).map Prod.fst)
        ⟨.later state.lastOffset state.afterMatch, tape, state.out, .reading⟩ := by
  fun_induction decodeFrom limit state stream with
  | case1 state stream fault hread =>
      rintro tape rfl hroom
      have hends := follows_readDirective limit state.lastOffset state.afterMatch tape
      rw [hread] at hends
      exact Unpacker.runsTo_of_fault hroom hends.eq_of_error
  | case2 state stream left hread =>
      rintro tape rfl hroom
      obtain ⟨⟨directive, memory⟩, behind, hdirective, hstop, -⟩ := exists_readDirective_eq hread
      obtain rfl : directive = .stop := hstop
      exact Unpacker.runsTo_of_stop hroom hdirective
  | case3 state stream token left hread error happend =>
      rintro tape rfl hroom
      obtain ⟨-, behind, hdirective, rfl, -⟩ := exists_readDirective_eq hread
      obtain ⟨lastOffset, afterMatch, -, hperform⟩ := append_eq_map_perform limit state token
      rw [happend] at hperform
      exact Unpacker.runsTo_of_perform_eq_error hroom hdirective (map_eq_error_iff.mp hperform.symm)
  | case4 state stream token left hread next happend ih =>
      rintro tape rfl hroom
      obtain ⟨-, behind, hdirective, rfl, hleft⟩ := exists_readDirective_eq hread
      obtain ⟨lastOffset, afterMatch, hmemory, hperform⟩ := append_eq_map_perform limit state token
      have hgrown := (State.size_of_append happend).2
      rw [happend] at hperform
      obtain ⟨grown, hout, rfl⟩ := map_eq_ok_iff.mp hperform.symm
      rw [hmemory] at hdirective
      exact Unpacker.runsTo_of_perform hroom (directive_ne_stop _ _) hdirective hout
        (fun _ _ _ => bounds_of_refuses_eq_none) (ih hleft hgrown)

theorem runsTo_decode (source : Array UInt8) (limit : Nat) :
    (unpacker limit).RunsTo limit (decode source limit) (machine source) := by
  have hroom : (#[] : Array UInt8).size ≤ limit := Nat.zero_le limit
  have hends := follows_nextByte (Tape.start source)
  rw [Tape.stream_start] at hends
  rw [decode, decodeStream, machine]
  cases hread : readByte (BitStream.start source) with
  | error fault =>
      rw [hread] at hends
      exact Unpacker.runsTo_of_fault hroom (Checked.bind_eq_fault hends.eq_of_error _)
  | ok taken =>
      obtain ⟨first, stream⟩ := taken
      rw [hread] at hends
      obtain ⟨byte, tape, hbyte, rfl, htape⟩ := hends.exists_of_ok
      have hdirective : readDirective limit .first (Tape.start source)
          = some (.ok ((.put byte, .later 0 false), tape)) := Checked.bind_eq hbyte _
      dsimp only
      cases hput : put limit #[] byte with
      | error error => exact Unpacker.runsTo_of_perform_eq_error hroom hdirective hput
      | ok out =>
          exact Unpacker.runsTo_of_perform hroom Directive.noConfusion hdirective hput
            (fun _ _ hcopy => Directive.noConfusion hcopy)
            (@runsTo_decodeFrom limit ⟨out, 0, false⟩ _ tape htape (size_of_put hput).2)

end AdLibModule.Aplib
