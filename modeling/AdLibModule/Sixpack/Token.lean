import AdLibModule.DecodeError
import AdLibModule.Output
import AdLibModule.Sixpack.Symbol

/-!
What a sixpack stream says once its bits are read: bytes to append, and earlier stretches of the
output to append again.
-/
namespace AdLibModule.Sixpack

inductive Token where
  | literal (value : UInt8)
  /-- Append the `length` bytes that begin `distance` bytes before the end. No symbol stands for a
  copy of fewer than three bytes. -/
  | copy (length distance : Nat) (three_le : 3 ≤ length)
  deriving DecidableEq

/-- The copy with the given symbol and place within its range of distances. -/
def Token.ofCopy (range : Range) (lengthIndex : Fin lengthCount) (place : Nat) : Token :=
  let length := lengthIndex.val + 3
  .copy length (place + length + range.base) (Nat.le_add_left 3 _)

/-- Carries out a token on output that may not grow beyond `limit` bytes. -/
def Token.append (limit : Nat) (out : Array UInt8) : Token → Except DecodeError (Array UInt8)
  | literal value =>
    if limit ≤ out.size then .error (.sizeMismatch limit (out.size + 1))
    else .ok (out.push value)
  | copy length distance _ =>
    if out.size < distance then .error (.corruptStream (.distanceTooLarge distance out.size))
    else if limit < out.size + length then .error (.sizeMismatch limit (out.size + length))
    else .ok (Output.repeatBack out distance length)

theorem Token.size_of_append {limit : Nat} {out grown : Array UInt8} {token : Token}
    (h : token.append limit out = .ok grown) : out.size < grown.size ∧ grown.size ≤ limit := by
  cases token with
  | literal value =>
    simp only [append] at h
    split at h
    · exact nomatch h
    · cases h
      rw [Array.size_push]
      omega
  | copy length distance three_le =>
    simp only [append] at h
    split at h
    · exact nomatch h
    · split at h
      · exact nomatch h
      · cases h
        rw [Output.size_repeatBack]
        omega

/-- The output that the tokens describe, when they are carried out after `out` was written and none
of them reaches back beyond the start. -/
def expand (out : Array UInt8) : List Token → Array UInt8
  | [] => out
  | .literal value :: tokens => expand (out.push value) tokens
  | .copy length distance _ :: tokens => expand (Output.repeatBack out distance length) tokens

end AdLibModule.Sixpack
