import AdLibModule.BitList
import AdLibModule.DecodeError

/-!
Packed streams, read bit by bit. Both packing schemes hand out the bits of what they have taken from
the highest down; they differ in what they take when no bit is left: one byte, or a 16-bit word
stored low byte first. Whole bytes may be taken between bits, and come from where the next bits
would.
-/
namespace AdLibModule

/-- What is left of a packed stream. -/
structure BitStream where
  /-- The bytes not taken yet. -/
  rest : List UInt8
  /-- How many bytes were taken. -/
  position : Nat
  /-- The bits of taken bytes that were not handed out. -/
  pending : List Bool

/-- A computation on a packed stream. -/
abbrev BitRead := StateT BitStream (Except StreamFault)

namespace BitStream

def start (source : Array UInt8) : BitStream := ⟨source.toList, 0, []⟩

/-- Takes the next byte, past any pending bits. -/
def byte? : BitStream → Option (UInt8 × BitStream)
  | ⟨[], _, _⟩ => none
  | ⟨byte :: rest, position, pending⟩ => some (byte, ⟨rest, position + 1, pending⟩)

/-- Hands out a bit, taking a byte when none is pending. -/
def tagBit? : BitStream → Option (Bool × BitStream)
  | ⟨rest, position, bit :: pending⟩ => some (bit, ⟨rest, position, pending⟩)
  | ⟨[], _, []⟩ => none
  | ⟨tag :: rest, position, []⟩ =>
    some (tag.toNat.testBit 7, ⟨rest, position + 1, (byteBits tag).tail⟩)

/-- Hands out a bit, taking a word of two bytes when none is pending. -/
def wordBit? : BitStream → Option (Bool × BitStream)
  | ⟨rest, position, bit :: pending⟩ => some (bit, ⟨rest, position, pending⟩)
  | ⟨low :: high :: rest, position, []⟩ =>
    some (high.toNat.testBit 7, ⟨rest, position + 2, (byteBits high).tail ++ byteBits low⟩)
  | ⟨_, _, []⟩ => none

/-- The bits that are handed out when bits come from words. -/
def wordBits (stream : BitStream) : List Bool := stream.pending ++ bitsOfWords stream.rest

theorem wordBits_of_wordBit?_eq_some {stream rest : BitStream} {bit : Bool}
    (h : stream.wordBit? = some (bit, rest)) : stream.wordBits = bit :: rest.wordBits := by
  obtain ⟨bytes, position, pending⟩ := stream
  cases pending with
  | cons first pending =>
    cases h
    rfl
  | nil =>
    match bytes, h with
    | low :: high :: bytes, h =>
      cases h
      simp [wordBits, bitsOfWords, byteBits]

theorem wordBits_of_wordBit?_eq_none {stream : BitStream} (h : stream.wordBit? = none) :
    stream.wordBits = [] := by
  obtain ⟨bytes, position, pending⟩ := stream
  cases pending with
  | cons first pending => exact nomatch h
  | nil =>
    match bytes, h with
    | [], _ => rfl
    | [_], _ => rfl

end BitStream
end AdLibModule
