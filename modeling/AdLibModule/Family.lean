/-!
How patterns are stored. Versions fall into three families, each with its own number of channels and
rows and its own size of a stored event. A pattern group is a block of several patterns; within a
pattern, the events lie row by row in the oldest family and channel by channel in the others.
-/
namespace AdLibModule

/-- A way to store patterns. -/
inductive Family where
  | classic
  | opl3
  | extended
  deriving DecidableEq

namespace Family

/-- The family of the version with the given number. Numbers beyond the versions count with the
nearest one. -/
def ofNumber (number : UInt8) : Family :=
  if number < 5 then classic else if number < 9 then opl3 else extended

def name : Family → String
  | classic => "Classic"
  | opl3 => "Opl3"
  | extended => "Extended"

/-- The number of patterns in a group. -/
def patternsPerGroup : Family → Nat
  | classic => 16
  | opl3 | extended => 8

def channels : Family → Nat
  | classic => 9
  | opl3 => 18
  | extended => 20

def rows : Family → Nat
  | classic | opl3 => 64
  | extended => 256

/-- The number of bytes of a stored event. -/
def eventSize : Family → Nat
  | classic | opl3 => 4
  | extended => 6

/-- The number of groups in a module. -/
def groups : Family → Nat
  | classic => 4
  | opl3 => 8
  | extended => 16

/-- The number of cells in a pattern. -/
def patternCells (family : Family) : Nat := family.channels * family.rows

/-- The number of cells in a group. -/
def groupCells (family : Family) : Nat := family.patternsPerGroup * family.patternCells

/-- The number of bytes of an unpacked group. -/
def groupSize (family : Family) : Nat := family.groupCells * family.eventSize

/-- The number of patterns that a module has room for. -/
def patternSlots (family : Family) : Nat := family.patternsPerGroup * family.groups

/-- Where the bytes of a cell begin in an unpacked group. -/
def eventOffset (family : Family) (pattern channel row : Nat) : Nat :=
  family.eventSize *
    match family with
    | classic => (pattern * family.rows + row) * family.channels + channel
    | opl3 | extended => (pattern * family.channels + channel) * family.rows + row

end Family
end AdLibModule
