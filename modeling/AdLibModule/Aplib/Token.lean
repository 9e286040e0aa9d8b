import AdLibModule.DecodeError
import AdLibModule.Output

/-!
What an aPlib stream says once its bits are read. The meaning of a token depends on those before it
in two ways: a repetition takes up the offset of the last match, and the offset of a long match is
written differently right after a match.
-/
namespace AdLibModule.Aplib

/-- The numbers that a gamma code can spell: all from two on. -/
abbrev Gamma := { n : Nat // 2 ≤ n }

inductive Token where
  | literal (value : UInt8)
  /-- A zero byte. -/
  | zero
  /-- The one byte that lies `offset` places before the end. -/
  | single (offset : Nat)
  /-- A match of two bytes, or of three. -/
  | short (offset : Nat) (isThree : Bool)
  /-- A match whose length is a gamma number and the bonus of its offset. -/
  | long (offset : Nat) (length : Gamma)
  /-- A match at the offset of the last short or long one. -/
  | again (length : Gamma)
  deriving DecidableEq

/-- What the length of a long match exceeds its gamma number by. -/
def lengthBonus (offset : Nat) : Nat :=
  (if 32000 ≤ offset then 1 else 0) + (if 1280 ≤ offset then 1 else 0) +
    (if offset < 128 then 2 else 0)

/-- Appends a byte to output that may not grow beyond `limit` bytes. -/
def put (limit : Nat) (out : Array UInt8) (byte : UInt8) : Except DecodeError (Array UInt8) :=
  if limit ≤ out.size then .error (.sizeMismatch limit (out.size + 1))
  else .ok (out.push byte)

/-- Appends the `length` bytes that begin `offset` places before the end. -/
def copy (limit : Nat) (out : Array UInt8) (offset length : Nat) :
    Except DecodeError (Array UInt8) :=
  if offset = 0 ∨ out.size < offset then .error (.corruptStream (.offsetOutside offset out.size))
  else if limit < out.size + length then .error (.sizeMismatch limit (out.size + length))
  else .ok (Output.repeatBack out offset length)

/-- The output so far, and what the next tokens refer to. -/
structure State where
  out : Array UInt8
  /-- The offset of the last short or long match, or 0 when there was none. -/
  lastOffset : Nat
  /-- Whether the last token was a match. -/
  afterMatch : Bool

/-- Carries out a token on output that may not grow beyond `limit` bytes. -/
def State.append (limit : Nat) : State → Token → Except DecodeError State
  | ⟨out, lastOffset, _⟩, .literal value => (put limit out value).map (⟨·, lastOffset, false⟩)
  | ⟨out, lastOffset, _⟩, .zero => (put limit out 0).map (⟨·, lastOffset, false⟩)
  | ⟨out, lastOffset, _⟩, .single offset => (copy limit out offset 1).map (⟨·, lastOffset, false⟩)
  | ⟨out, _, _⟩, .short offset isThree =>
    (copy limit out offset (2 + isThree.toNat)).map (⟨·, offset, true⟩)
  | ⟨out, _, _⟩, .long offset length =>
    (copy limit out offset (length + lengthBonus offset)).map (⟨·, offset, true⟩)
  | ⟨out, lastOffset, _⟩, .again length =>
    (copy limit out lastOffset length).map (⟨·, lastOffset, true⟩)

theorem size_of_put {limit : Nat} {out grown : Array UInt8} {byte : UInt8}
    (h : put limit out byte = .ok grown) : grown.size = out.size + 1 ∧ grown.size ≤ limit := by
  unfold put at h
  split at h
  · exact nomatch h
  · cases h
    rw [Array.size_push]
    omega

theorem size_of_copy {limit offset length : Nat} {out grown : Array UInt8}
    (h : copy limit out offset length = .ok grown) :
    grown.size = out.size + length ∧ grown.size ≤ limit := by
  unfold copy at h
  split at h
  · exact nomatch h
  · split at h
    · exact nomatch h
    · cases h
      rw [Output.size_repeatBack]
      omega

theorem State.size_of_append {limit : Nat} {state next : State} {token : Token}
    (h : state.append limit token = .ok next) :
    state.out.size < next.out.size ∧ next.out.size ≤ limit := by
  cases token <;> obtain ⟨grown, hgrown, rfl⟩ := map_eq_ok_iff.mp h
  case literal => have := size_of_put hgrown; dsimp only; omega
  case zero => have := size_of_put hgrown; dsimp only; omega
  case single => have := size_of_copy hgrown; dsimp only; omega
  case short => have := size_of_copy hgrown; dsimp only; omega
  case long length => have := size_of_copy hgrown; have := length.2; dsimp only; omega
  case again length => have := size_of_copy hgrown; have := length.2; dsimp only; omega

/-- What the tokens append to `out`, when the last match was at `lastOffset` and none of them
reaches back beyond the start. -/
def expand (out : Array UInt8) (lastOffset : Nat) : List Token → Array UInt8
  | [] => out
  | .literal value :: tokens => expand (out.push value) lastOffset tokens
  | .zero :: tokens => expand (out.push 0) lastOffset tokens
  | .single offset :: tokens => expand (Output.repeatBack out offset 1) lastOffset tokens
  | .short offset isThree :: tokens =>
    expand (Output.repeatBack out offset (2 + isThree.toNat)) offset tokens
  | .long offset length :: tokens =>
    expand (Output.repeatBack out offset (length + lengthBonus offset)) offset tokens
  | .again length :: tokens => expand (Output.repeatBack out lastOffset length) lastOffset tokens

end AdLibModule.Aplib
