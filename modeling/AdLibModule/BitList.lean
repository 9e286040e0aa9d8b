/-!
Lists of bits and the bytes they fill, highest bit first.
-/
namespace AdLibModule

/-- The bits of a byte, highest first. -/
def byteBits (byte : UInt8) : List Bool :=
  let n := byte.toNat
  [n.testBit 7, n.testBit 6, n.testBit 5, n.testBit 4, n.testBit 3, n.testBit 2, n.testBit 1,
    n.testBit 0]

/-- The bits of 16-bit words that are stored low byte first, each word from its highest bit down. A
byte left over at the end has no part in them. -/
def bitsOfWords : List UInt8 → List Bool
  | low :: high :: rest => byteBits high ++ byteBits low ++ bitsOfWords rest
  | _ => []

/-- The number that the bits spell, highest first. -/
def bitsToNat (bits : List Bool) : Nat := bits.foldl (fun n bit => 2 * n + bit.toNat) 0

/-- The byte that starts with the given bits; bits that are missing are zero, and those beyond the
eighth do not matter. -/
def byteOfBits (bits : List Bool) : UInt8 :=
  (bitsToNat ((bits ++ List.replicate 8 false).take 8)).toUInt8

end AdLibModule
