/-!
The alphabet of a sixpack stream. One adaptive code carries three kinds of symbol: the 256 bytes,
the end of the stream, and the copies. A copy symbol fixes the length of the copy and one of six
ranges for its distance; the place within the range follows as a plain number of a width that the
range fixes. A copy never reaches into its own output: its distance is its length or more.
-/
namespace AdLibModule.Sixpack

/-- The number of symbols: 256 bytes, the end, and six ranges of 253 copies. -/
abbrev symbolCount : Nat := 1775

/-- A symbol of the adaptive code. -/
abbrev Symbol := Fin symbolCount

/-- The symbol of a number, counted around after the last symbol. -/
def Symbol.ofNat (n : Nat) : Symbol := Fin.ofNat symbolCount n

/-- The range in which the distance of a copy lies, apart from its length. -/
abbrev Range := Fin 6

namespace Range

/-- How many bits give the place within the range. -/
def width : Range → Nat
  | 0 => 4
  | 1 => 6
  | 2 => 8
  | 3 => 10
  | 4 => 12
  | 5 => 14

/-- The first distance of the range: each range begins where the one before it ends. -/
def base : Range → Nat
  | 0 => 0
  | 1 => 16
  | 2 => 80
  | 3 => 336
  | 4 => 1360
  | 5 => 5456

end Range

/-- The number of copy lengths in each range: 3 to 255. -/
abbrev lengthCount : Nat := 253

/-- What a symbol stands for. -/
inductive Meaning where
  | literal (value : UInt8)
  | stop
  /-- A copy of `lengthIndex + 3` bytes. -/
  | copy (range : Range) (lengthIndex : Fin lengthCount)

def Symbol.meaning (symbol : Symbol) : Meaning :=
  if symbol.val < 256 then .literal symbol.val.toUInt8
  else if symbol.val = 256 then .stop
  else
    .copy
      ⟨(symbol.val - 257) / lengthCount, by
        have := symbol.isLt
        simp only [lengthCount, symbolCount] at *
        omega⟩
      ⟨(symbol.val - 257) % lengthCount, Nat.mod_lt _ (by decide)⟩

/-- The symbol with the given meaning. -/
def Meaning.symbol : Meaning → Symbol
  | literal value => ⟨value.toNat, Nat.lt_trans value.toNat_lt (by decide)⟩
  | stop => 256
  | copy range lengthIndex =>
    ⟨257 + range.val * lengthCount + lengthIndex.val, by
      have := range.isLt
      have := lengthIndex.isLt
      simp only [lengthCount, symbolCount] at *
      omega⟩

end AdLibModule.Sixpack
