import AdLibModule.Cursor
import AdLibModule.Event

/-!
All patterns of a song. A track is what one channel plays in one pattern; the tracks lie one after
the other, those of a pattern together. Events are filled in by groups of patterns: a group is
decoded cell by cell in the order of the tracks, up to the first cell that its bytes do not hold.
-/
namespace AdLibModule

/-- The events from `start` on, cut into stretches of `length`; the last one may be shorter. -/
def stretches (cells : Array Event) (length start : Nat) : List (Array Event) :=
  if 0 < length ∧ start < cells.size then
    cells.extract start (start + length) :: stretches cells length (start + length)
  else []
termination_by cells.size - start

structure Grid where
  family : Family
  /-- The events, track by track and row by row. -/
  cells : Array Event
  size_cells : cells.size = family.patternSlots * family.patternCells

namespace Grid

/-- A grid in which nothing happens. -/
def empty (family : Family) : Grid :=
  ⟨family, Array.replicate (family.patternSlots * family.patternCells) Event.empty,
    Array.size_replicate⟩

def channels (grid : Grid) : Nat := grid.family.channels

def rows (grid : Grid) : Nat := grid.family.rows

def trackCount (grid : Grid) : Nat := grid.cells.size / grid.rows

def patternCount (grid : Grid) : Nat := grid.trackCount / grid.channels

/-- The events of a track, by row. -/
def track? (grid : Grid) (index : Nat) : Option (Array Event) :=
  if (index + 1) * grid.rows ≤ grid.cells.size then
    some (grid.cells.extract (index * grid.rows) ((index + 1) * grid.rows))
  else
    none

/-- All tracks, in order. -/
def tracks (grid : Grid) : List (Array Event) := stretches grid.cells grid.rows 0

/-- The event of a channel in a row of a pattern. -/
def event? (grid : Grid) (pattern channel row : Nat) : Option Event :=
  if channel < grid.channels ∧ row < grid.rows then
    grid.cells[(pattern * grid.channels + channel) * grid.rows + row]?
  else
    none

/-- Replaces an event; an index beyond the end changes nothing. -/
def set (grid : Grid) (index : Nat) (event : Event) : Grid :=
  ⟨grid.family, grid.cells.setIfInBounds index event, by
    rw [Array.size_setIfInBounds, grid.size_cells]⟩

end Grid

/-- Where the bytes of a cell begin in an unpacked group, for the cells in the order of tracks. -/
def Family.cellOffset (family : Family) (cell : Nat) : Nat :=
  family.eventOffset (cell / family.patternCells) (cell / family.rows % family.channels)
    (cell % family.rows)

namespace Grid

/-- Decodes the last `left` cells of a group. -/
def decodeCells (group : Nat) (block : Array UInt8) :
    Nat → Grid → Except DecodeError Unit × Grid
  | 0, grid => (.ok (), grid)
  | left + 1, grid =>
    let family := grid.family
    let cell := family.groupCells - (left + 1)
    match (Cursor.start block).peekAt (family.cellOffset cell) family.eventSize with
    | .ok stored =>
      decodeCells group block left
        (grid.set (group * family.groupCells + cell) (Event.ofBytes family stored))
    | .error error => (.error error, grid)

/-- Fills in the patterns of a group. When the block is too short, the cells before the first that
it does not hold are filled in all the same. -/
def decodeGroup (grid : Grid) (group : Nat) (block : Array UInt8) :
    Except DecodeError Unit × Grid :=
  decodeCells group block grid.family.groupCells grid

end Grid
end AdLibModule
