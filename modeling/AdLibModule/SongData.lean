import AdLibModule.Instrument
import AdLibModule.InstrumentMacro
import AdLibModule.Settings

/-!
The song data of a full module: all that is not a pattern, in one block. Later versions append to
the fields of earlier ones or widen them. The names of patterns and the disabled columns are stored
from version 10 on, but only version 11 reads them.
-/
namespace AdLibModule

/-- The number of bytes of the field for a title, an author or the name of a pattern. -/
def textSize : Nat := 43

/-- The number of patterns that have names. -/
def namedPatterns : Nat := 128

/-- The number of entries of an order list. -/
abbrev orderSize : Nat := 128

/-- An order list: the patterns in the order in which they sound. -/
abbrev Order := Vector UInt8 orderSize

structure SongData where
  title : String
  author : String
  instruments : List Instrument
  instrumentMacros : List InstrumentMacro
  macroTables : List MacroTable
  order : Order
  tempo : UInt8
  speed : UInt8
  settings : Settings
  patternNames : List String
  disabledColumns : List DisabledColumns
  deriving DecidableEq

namespace SongData

/-- The number of bytes of the block. -/
def storedSize (version : Version) : Nat :=
  2 * textSize + version.instrumentCount * version.nameSize
    + version.instrumentCount * version.recordSize + orderSize + 2
    + (if 5 ≤ version.number then 1 else 0)
    + (if 9 ≤ version.number then
        macroSlots * (InstrumentMacro.storedSize + MacroTable.storedSize) + 5
      else 0)
    + (if 10 ≤ version.number then
        1 + 20 + namedPatterns * textSize + macroSlots * DisabledColumns.storedSize
      else 0)

/-- Reads the instruments, the texts of which come before their records. -/
def readInstruments (version : Version) : Read (List Instrument) := do
  let names ← Read.times version.instrumentCount (Read.pascal version.nameSize)
  Read.within (version.instrumentCount * version.recordSize) (Instrument.readAll version names)

/-- Reads the register macros, in versions that have them. -/
def readMacros (version : Version) : Read (List InstrumentMacro) :=
  if version.hasMacros then
    Read.within (macroSlots * InstrumentMacro.storedSize) InstrumentMacro.readAll
  else
    return []

/-- Reads the arpeggio and vibrato tables, in versions that have them. -/
def readTables (version : Version) : Read (List MacroTable) :=
  if version.hasMacros then
    Read.within (macroSlots * MacroTable.storedSize) MacroTable.readAll
  else
    return []

/-- Reads the names of the patterns, in the version that uses them. -/
def readPatternNames (version : Version) : Read (List String) :=
  if version.number = 11 then Read.times namedPatterns (Read.pascal textSize) else return []

/-- Reads the disabled columns, in the version that uses them. -/
def readDisabledColumns (version : Version) : Read (List DisabledColumns) :=
  if version.number = 11 then
    Read.within (macroSlots * DisabledColumns.storedSize) DisabledColumns.readAll
  else
    return []

def read (version : Version) : Read SongData := do
  let title ← Read.pascal textSize
  let author ← Read.pascal textSize
  let instruments ← readInstruments version
  let instrumentMacros ← readMacros version
  let macroTables ← readTables version
  let order ← Read.vector orderSize
  let tempo ← Read.u8
  let speed ← Read.u8
  let settings ← Settings.read version
  let patternNames ← readPatternNames version
  let disabledColumns ← readDisabledColumns version
  return {
    title, author, instruments, instrumentMacros, macroTables, order, tempo, speed, settings
    patternNames, disabledColumns }

end SongData
end AdLibModule
