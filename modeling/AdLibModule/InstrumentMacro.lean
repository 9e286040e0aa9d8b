import AdLibModule.Cursor

/-!
What newer versions keep for each instrument besides its registers: a macro that changes the
registers step by step, tables for arpeggio and vibrato, and the registers that are switched off. A
stored macro or table has room for 255 entries, of which the first few are in use.
-/
namespace AdLibModule

/-- The number of instruments that have macros. -/
def macroSlots : Nat := 255

/-- The number of entries that a stored macro or table has room for. -/
def macroRoom : Nat := 255

/-- One step of a register macro. -/
structure RegisterStep where
  registers : Vector UInt8 11
  frequencySlide : Int16
  panning : UInt8
  duration : UInt8
  deriving DecidableEq

/-- A macro that changes the registers of an instrument while it sounds. -/
structure InstrumentMacro where
  /-- The number of steps in use. -/
  length : UInt8
  loopBegin : UInt8
  loopLength : UInt8
  keyOffPosition : UInt8
  arpeggioTable : UInt8
  vibratoTable : UInt8
  steps : List RegisterStep
  deriving DecidableEq

/-- Notes to be played in turn. -/
structure ArpeggioTable where
  /-- The number of entries in use. -/
  length : UInt8
  speed : UInt8
  loopBegin : UInt8
  loopLength : UInt8
  keyOffPosition : UInt8
  entries : List UInt8
  deriving DecidableEq

/-- Pitch changes to be made in turn. -/
structure VibratoTable where
  /-- The number of entries in use. -/
  length : UInt8
  speed : UInt8
  delay : UInt8
  loopBegin : UInt8
  loopLength : UInt8
  keyOffPosition : UInt8
  entries : List Int8
  deriving DecidableEq

/-- The two tables of an instrument. -/
structure MacroTable where
  arpeggio : ArpeggioTable
  vibrato : VibratoTable
  deriving DecidableEq

/-- For each register column of an instrument, whether it is switched off. -/
abbrev DisabledColumns := Vector Bool 28

def RegisterStep.read : Read RegisterStep := do
  let registers ← Read.vector 11
  let frequencySlide ← Read.i16
  let panning ← Read.u8
  let duration ← Read.u8
  return { registers, frequencySlide, panning, duration }

namespace InstrumentMacro

/-- The number of bytes of a stored macro. -/
def storedSize : Nat := 6 + macroRoom * 15

def read : Read InstrumentMacro := do
  let length ← Read.u8
  let loopBegin ← Read.u8
  let loopLength ← Read.u8
  let keyOffPosition ← Read.u8
  let arpeggioTable ← Read.u8
  let vibratoTable ← Read.u8
  let steps ← Read.times macroRoom RegisterStep.read
  return {
    length, loopBegin, loopLength, keyOffPosition, arpeggioTable, vibratoTable
    steps := steps.take length.toNat }

/-- Reads the macros of all instruments. -/
def readAll : Read (List InstrumentMacro) := Read.times macroSlots read

end InstrumentMacro

def ArpeggioTable.read : Read ArpeggioTable := do
  let length ← Read.u8
  let speed ← Read.u8
  let loopBegin ← Read.u8
  let loopLength ← Read.u8
  let keyOffPosition ← Read.u8
  let entries ← Read.bytes macroRoom
  return {
    length, speed, loopBegin, loopLength, keyOffPosition
    entries := entries.toList.take length.toNat }

def VibratoTable.read : Read VibratoTable := do
  let length ← Read.u8
  let speed ← Read.u8
  let delay ← Read.u8
  let loopBegin ← Read.u8
  let loopLength ← Read.u8
  let keyOffPosition ← Read.u8
  let entries ← Read.bytes macroRoom
  return {
    length, speed, delay, loopBegin, loopLength, keyOffPosition
    entries := (entries.toList.take length.toNat).map UInt8.toInt8 }

namespace MacroTable

/-- The number of bytes of the two stored tables. -/
def storedSize : Nat := (5 + macroRoom) + (6 + macroRoom)

def read : Read MacroTable := do
  let arpeggio ← ArpeggioTable.read
  let vibrato ← VibratoTable.read
  return { arpeggio, vibrato }

/-- Reads the tables of all instruments. -/
def readAll : Read (List MacroTable) := Read.times macroSlots read

end MacroTable

namespace DisabledColumns

/-- The number of bytes of the columns of an instrument. -/
def storedSize : Nat := 28

/-- Reads the columns of an instrument; every byte but zero switches its column off. -/
def read : Read DisabledColumns := return (← Read.vector 28).map (· != 0)

/-- Reads the columns of all instruments. -/
def readAll : Read (List DisabledColumns) := Read.times macroSlots read

end DisabledColumns
end AdLibModule
