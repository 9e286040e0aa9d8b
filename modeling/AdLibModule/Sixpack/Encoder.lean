import AdLibModule.BitList
import AdLibModule.Sixpack.Token
import AdLibModule.Sixpack.Tree

/-!
Writing a sixpack stream. Each symbol is written as the way to its leaf in the code that the symbols
before it have left; the bits are gathered into 16-bit words, stored low byte first, of which the
last is filled up with zeros. `pack` is a simple packer: it finds runs of one byte and nothing else.
-/
namespace AdLibModule.Sixpack

variable {κ : Type} [Counter κ]

/-- The range that has room for a distance, where `extra` is what it exceeds the length by. -/
def Range.of (extra : Nat) : Range :=
  if extra < base 1 then 0
  else if extra < base 2 then 1
  else if extra < base 3 then 2
  else if extra < base 4 then 3
  else if extra < base 5 then 4
  else 5

/-- A number in `width` bits, lowest bit first. -/
def numberBits : Nat → Nat → List Bool
  | 0, _ => []
  | width + 1, n => (n % 2 == 1) :: numberBits width (n / 2)

/-- The way to the leaf of a symbol. -/
def Tree.code (tree : Tree κ) (symbol : Symbol) : List Bool :=
  match tree.locate symbol [] with
  | some location => location.code
  | none => []

namespace Token

/-- The symbol of a token. The length of a copy must be at most 255. -/
def symbol : Token → Symbol
  | literal value => (Meaning.literal value).symbol
  | copy length distance _ =>
    (Meaning.copy (.of (distance - length)) (Fin.ofNat lengthCount (length - 3))).symbol

/-- The bits that follow the symbol of a token. -/
def placeBits : Token → List Bool
  | literal _ => []
  | copy length distance _ =>
    let extra := distance - length
    numberBits (Range.of extra).width (extra - (Range.of extra).base)

end Token

/-- The bits of the tokens and of the end of the stream. -/
def bitsFrom (tree : Tree κ) : List Token → List Bool
  | [] => tree.code Meaning.stop.symbol
  | token :: tokens =>
    tree.code token.symbol ++ token.placeBits ++ bitsFrom (tree.observe token.symbol) tokens

/-- The bytes of 16-bit words that hold the bits. -/
def packWords : List Bool → List UInt8
  | [] => []
  | bit :: bits =>
    byteOfBits (bits.drop 7) :: byteOfBits (bit :: bits) :: packWords (bits.drop 15)
termination_by bits => bits.length

/-- The stream that says the tokens. -/
def encode (tokens : List Token) : Array UInt8 :=
  (packWords (bitsFrom (Tree.initial : Tree UInt16) tokens)).toArray

/-- Tokens for the data that follows `behind` bytes all equal to `last`. A copy may not reach into
its own output, so that a run grows by doubling. -/
def runTokens (last : UInt8) (behind : Nat) : List UInt8 → List Token
  | [] => []
  | byte :: rest =>
    let ahead := ((byte :: rest).takeWhile (· == last)).length
    let length := min (min behind ahead) 255
    if h : 3 ≤ length then
      .copy length length h :: runTokens last (behind + length) (rest.drop (length - 1))
    else
      .literal byte :: runTokens byte (if byte = last then behind + 1 else 1) rest
termination_by data => data.length
decreasing_by
  · simp only [List.length_drop, List.length_cons]
    omega
  · simp

/-- A sixpack stream for the data. -/
def pack (data : List UInt8) : Array UInt8 := encode (runTokens 0 0 data)

end AdLibModule.Sixpack
