import AdLibModule.Aplib.Decoder
import AdLibModule.BitList

/-!
Writing an aPlib stream. Tokens become pieces, bits and bytes in the order in which they are read; a
tag byte is then put in where the first of its bits is needed, and holds that bit and the seven that
come next. `pack` is a simple packer: it finds runs of one byte and nothing else.
-/
namespace AdLibModule.Aplib

/-- What a stream consists of, apart from how bits are put into tag bytes. -/
inductive Piece where
  | bit (value : Bool)
  | byte (value : UInt8)
  deriving DecidableEq

/-- The first bits among the pieces, at most `count` of them. -/
def leadingBits : Nat → List Piece → List Bool
  | 0, _ => []
  | _, [] => []
  | count + 1, .bit value :: pieces => value :: leadingBits count pieces
  | count + 1, .byte _ :: pieces => leadingBits (count + 1) pieces

/-- The bytes of the pieces, when the last tag byte holds the next `held` of their bits. -/
def layOut : Nat → List Piece → List UInt8
  | _, [] => []
  | held, .byte value :: pieces => value :: layOut held pieces
  | held + 1, .bit _ :: pieces => layOut held pieces
  | 0, .bit value :: pieces => byteOfBits (value :: leadingBits 7 pieces) :: layOut 7 pieces

/-- A gamma number: its binary digits after the leading one, each followed by whether there are
more. -/
def gammaPieces (n : Nat) : List Piece :=
  (List.range n.log2).reverse.flatMap fun place => [.bit (n.testBit place), .bit (place != 0)]

namespace Token

/-- Whether the token is a match, after which long matches are written differently. -/
def isMatch : Token → Bool
  | literal _ | zero | single _ => false
  | short _ _ | long _ _ | again _ => true

/-- The pieces of a token. -/
def pieces (afterMatch : Bool) : Token → List Piece
  | literal value => [.bit false, .byte value]
  | zero => [.bit true, .bit true, .bit true, .bit false, .bit false, .bit false, .bit false]
  | single offset =>
    [.bit true, .bit true, .bit true, .bit (offset.testBit 3), .bit (offset.testBit 2),
      .bit (offset.testBit 1), .bit (offset.testBit 0)]
  | short offset isThree =>
    [.bit true, .bit true, .bit false, .byte (2 * offset + isThree.toNat).toUInt8]
  | long offset length =>
    [.bit true, .bit false] ++ gammaPieces (offset / 256 + offsetBias afterMatch)
      ++ [.byte (offset % 256).toUInt8] ++ gammaPieces length
  | again length => [.bit true, .bit false] ++ gammaPieces 2 ++ gammaPieces length

end Token

/-- The pieces of the tokens, without the end of the stream. -/
def piecesFrom (afterMatch : Bool) : List Token → List Piece
  | [] => []
  | token :: tokens => token.pieces afterMatch ++ piecesFrom token.isMatch tokens

/-- The end of the stream: a short match of offset 0. -/
def endPieces : List Piece := [.bit true, .bit true, .bit false, .byte 0]

/-- The stream of a first byte and tokens. -/
def encode (first : UInt8) (tokens : List Token) : Array UInt8 :=
  (first :: layOut 0 (piecesFrom false tokens ++ endPieces)).toArray

/-- Tokens for the data that follows a byte. -/
def runTokens (last : UInt8) : List UInt8 → List Token
  | [] => []
  | byte :: rest =>
    let run := ((byte :: rest).takeWhile (· == last)).length
    if h : 4 ≤ run then
      .long 1 ⟨run - 2, by omega⟩ :: runTokens last (rest.drop (run - 1))
    else
      .literal byte :: runTokens byte rest
termination_by data => data.length
decreasing_by
  · simp only [List.length_drop, List.length_cons]
    omega
  · simp

/-- An aPlib stream for the data. There is none for no data. -/
def pack : List UInt8 → Option (Array UInt8)
  | [] => none
  | first :: rest => some (encode first (runTokens first rest))

end AdLibModule.Aplib
