import AdLibModule.Cursor
import AdLibModule.Version

/-!
Instruments. A stored record holds the eleven chip registers in an order of its own, followed by a
byte that old versions keep for other uses and newer ones for panning, a tuning byte, and from
version 9 on the type of the voice.
-/
namespace AdLibModule

structure Instrument where
  name : String
  /-- The chip registers, feedback and connection first. -/
  registers : Vector UInt8 11
  /-- The byte in the place of panning, in versions that have none. -/
  misc : UInt8
  /-- Fine tuning. -/
  slide : UInt8
  voiceType : UInt8
  deriving DecidableEq

namespace Instrument

/-- The bits of the first register that switch the two speakers on. -/
def bothSpeakers : UInt8 := 0x30

/-- The place in a stored record from which each register is taken. -/
def registerOrder : Vector Nat 11 := #v[10, 0, 1, 4, 5, 6, 7, 8, 9, 2, 3]

/-- The speaker bits for a panning byte, where zero stands for the middle. -/
def speakerBits (panning : UInt8) : UInt8 :=
  if panning = 0 then bothSpeakers else (panning &&& 3) <<< 4

/-- Whether no register is set; which speakers are on does not count. -/
def isEmpty (instrument : Instrument) : Bool :=
  instrument.registers[0] &&& ~~~bothSpeakers == 0 &&
    (instrument.registers.toList.drop 1).all (· == 0)

/-- The instrument in a stored record. A record without a type byte is of type zero. -/
def ofRecord (version : Version) (record : Array UInt8) (name : String) : Instrument :=
  let stored := registerOrder.map (record.getD · 0)
  let eleventh := record.getD 11 0
  { name
    registers :=
      if version.hasPanning then stored.set 0 (stored[0] ||| speakerBits eleventh) else stored
    misc := if version.hasPanning then 0 else eleventh
    slide := record.getD 12 0
    voiceType := if version.hasVoiceType then record.getD 13 0 else 0 }

/-- Reads the records of all instruments of a module. The names go with the first of them; an
instrument beyond the names has an empty one. -/
def readAll (version : Version) (names : List String) : Read (List Instrument) := do
  let records ← Read.times version.instrumentCount (Read.bytes version.recordSize)
  return records.zipIdx.map fun (record, index) => ofRecord version record (names.getD index "")

end Instrument
end AdLibModule
