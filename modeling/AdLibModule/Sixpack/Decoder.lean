import AdLibModule.BitStream
import AdLibModule.Sixpack.Token
import AdLibModule.Sixpack.Tree

/-!
Reading a sixpack stream. A symbol is read by walking from the root of the adaptive code to a leaf,
one bit for each step, after which the code changes; the place of a copy within its range of
distances follows with the lowest bit first.
-/
namespace AdLibModule.Sixpack

variable {κ : Type} [Counter κ]

/-- The next bit of the stream. -/
def readBit : BitRead Bool := fun stream =>
  match stream.wordBit? with
  | some next => .ok next
  | none => .error (.exhausted .sixpack stream.position)

/-- Follows the bits from a node that hangs on `path` down to a leaf. -/
def Tree.descend : Tree κ → List (Frame κ) → BitRead (Location κ)
  | leaf symbol count, path => pure ⟨symbol, count, path⟩
  | fork count left right, path => do
    if ← readBit then
      right.descend (⟨true, count, left⟩ :: path)
    else
      left.descend (⟨false, count, right⟩ :: path)

/-- A number of `width` bits, lowest bit first. -/
def readNumber : Nat → BitRead Nat
  | 0 => pure 0
  | width + 1 => do
    let bit ← readBit
    let high ← readNumber width
    pure (bit.toNat + 2 * high)

/-- The next token, or `none` at the end of the stream, and the code that has observed its symbol.
-/
def readToken (tree : Tree κ) : BitRead (Option Token × Tree κ) := do
  let location ← tree.descend []
  let tree := location.observe
  match location.symbol.meaning with
  | .literal value => pure (some (.literal value), tree)
  | .stop => pure (none, tree)
  | .copy range lengthIndex =>
    let place ← readNumber range.width
    pure (some (.ofCopy range lengthIndex place), tree)

/-- Reads tokens up to the end of the stream and carries them out after `out`. Also tells what is
left of the stream. -/
def decodeFrom (limit : Nat) (tree : Tree κ) (out : Array UInt8) (stream : BitStream) :
    Except DecodeError (Array UInt8 × BitStream) :=
  match readToken tree stream with
  | .error fault => .error (.corruptStream fault)
  | .ok ((none, _), stream) => .ok (out, stream)
  | .ok ((some token, tree), stream) =>
    match _ : token.append limit out with
    | .error error => .error error
    | .ok grown => decodeFrom limit tree grown stream
termination_by limit - out.size
decreasing_by
  have := Token.size_of_append ‹token.append limit out = .ok grown›
  omega

/-- The output of a sixpack stream whose counters are of type `κ`. -/
def decodeWith (κ : Type) [Counter κ] (source : Array UInt8) (limit : Nat) :
    Except DecodeError (Array UInt8 × BitStream) :=
  decodeFrom limit (Tree.initial : Tree κ) #[] (BitStream.start source)

/-- Unpacks a sixpack stream into at most `limit` bytes. -/
def decode (source : Array UInt8) (limit : Nat) : Except DecodeError (Array UInt8) :=
  (decodeWith UInt16 source limit).map Prod.fst

end AdLibModule.Sixpack
