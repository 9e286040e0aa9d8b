import AdLibModule.DecodeError
import AdLibModule.Text

/-!
A position in a buffer of bytes, and the reads that advance it. A read takes all the bytes it asks
for or none: a read that fails leaves the position where it was and names the place, the bytes
wanted and the bytes left.
-/
namespace AdLibModule

/-- A buffer and how far it has been read. -/
structure Cursor where
  bytes : Array UInt8
  position : Nat
  position_le : position ≤ bytes.size

/-- A computation that reads from a cursor. When it fails, the cursor stays where the failing read
found it. -/
abbrev Read := ExceptT DecodeError (StateM Cursor)

/-- The natural number whose base-256 digits are the bytes, lowest first. -/
def littleEndian (bytes : List UInt8) : Nat :=
  bytes.foldr (fun byte high => byte.toNat + 256 * high) 0

namespace Cursor

def start (bytes : Array UInt8) : Cursor := ⟨bytes, 0, Nat.zero_le _⟩

def remaining (cursor : Cursor) : Nat := cursor.bytes.size - cursor.position

def isEmpty (cursor : Cursor) : Bool := cursor.remaining == 0

/-- The failure of a read of `count` bytes at `offset`. -/
def shortage (cursor : Cursor) (offset count : Nat) : DecodeError :=
  .truncated offset count (cursor.bytes.size - offset)

/-- The `count` bytes at `offset`, wherever the cursor stands. -/
def peekAt (cursor : Cursor) (offset count : Nat) : Except DecodeError (Array UInt8) :=
  if offset + count ≤ cursor.bytes.size then
    .ok (cursor.bytes.extract offset (offset + count))
  else
    .error (cursor.shortage offset count)

/-- The unread bytes. -/
def rest (cursor : Cursor) : Array UInt8 :=
  cursor.bytes.extract cursor.position cursor.bytes.size

end Cursor

namespace Read

/-- The next `count` bytes. -/
def bytes (count : Nat) : Read (Array UInt8) := fun cursor =>
  if h : cursor.position + count ≤ cursor.bytes.size then
    (.ok (cursor.bytes.extract cursor.position (cursor.position + count)),
      ⟨cursor.bytes, cursor.position + count, h⟩)
  else
    (.error (cursor.shortage cursor.position count), cursor)

def skip (count : Nat) : Read Unit := discard (bytes count)

/-- The next `n` bytes, as a row of that length. -/
def vector (n : Nat) : Read (Vector UInt8 n) := fun cursor =>
  if h : cursor.position + n ≤ cursor.bytes.size then
    (.ok ⟨cursor.bytes.extract cursor.position (cursor.position + n), by simp; omega⟩,
      ⟨cursor.bytes, cursor.position + n, h⟩)
  else
    (.error (cursor.shortage cursor.position n), cursor)

/-- The number spelt by the next `count` bytes, lowest byte first. -/
def number (count : Nat) : Read Nat := return littleEndian (← bytes count).toList

def u8 : Read UInt8 := return (← number 1).toUInt8

def i8 : Read Int8 := return (← u8).toInt8

def u16 : Read UInt16 := return (← number 2).toUInt16

def i16 : Read Int16 := return (← u16).toInt16

def u32 : Read UInt32 := return (← number 4).toUInt32

/-- A Pascal text in a field of `capacity` bytes. -/
def pascal (capacity : Nat) : Read String := return Text.ofPascal (← bytes capacity).toList

/-- The results of `count` readings in a row. -/
def times {α : Type} (count : Nat) (reading : Read α) : Read (List α) :=
  match count with
  | 0 => return []
  | count + 1 => do
    let first ← reading
    return first :: (← times count reading)

/-- Reads a buffer from its start, and forgets what is left of it. -/
def onBytes {α : Type} (reading : Read α) (bytes : Array UInt8) : Except DecodeError α :=
  (reading (Cursor.start bytes)).1

/-- The value, or the failure, without reading. -/
def ofExcept {α : Type} (result : Except DecodeError α) : Read α := fun cursor => (result, cursor)

/-- Takes a region of `size` bytes, and reads from it as from a buffer of its own. -/
def within {α : Type} (size : Nat) (reading : Read α) : Read α := do
  let region ← bytes size
  ofExcept (reading.onBytes region)

end Read
end AdLibModule
