import AdLibModule.Cursor
import AdLibModule.Version

/-!
The settings of a song, of which each version stores those that it knows, and the ways of playing
that they ask for.
-/
namespace AdLibModule

structure Settings where
  /-- Bits of several meanings; 3 and 4 ask for deep tremolo and deep vibrato. -/
  commonFlag : UInt8 := 0
  /-- Rows in a pattern. -/
  patternLength : UInt16 := 64
  /-- Tracks in use. -/
  trackCount : UInt8 := 18
  macroSpeedup : UInt16 := 1
  /-- The channels that join two voices. -/
  fourOpFlag : UInt8 := 0
  /-- What is locked in each channel. -/
  lockFlags : Vector UInt8 20 := Vector.replicate 20 0
  deriving DecidableEq

/-- The number of bytes that the settings take in a version. -/
def Settings.storedSize (version : Version) : Nat :=
  if version.number < 5 then 0
  else if version.number < 9 then 1
  else if version.number < 10 then 6
  else 27

/-- Reads the settings of a version; what the version does not know keeps its default. -/
def Settings.read (version : Version) : Read Settings := do
  if version.number < 5 then
    return {}
  let commonFlag ← Read.u8
  if version.number < 9 then
    return { commonFlag }
  let patternLength ← Read.u16
  let trackCount ← Read.u8
  let macroSpeedup ← Read.u16
  if version.number < 10 then
    return { commonFlag, patternLength, trackCount, macroSpeedup }
  let fourOpFlag ← Read.u8
  let lockFlags ← Read.vector 20
  return { commonFlag, patternLength, trackCount, macroSpeedup, fourOpFlag, lockFlags }

/-- What the player of a song needs. -/
structure PlaybackFlags where
  /-- The larger sound chip. -/
  opl3 : Bool
  /-- Deep tremolo. -/
  tremolo : Bool
  /-- Deep vibrato. -/
  vibrato : Bool
  deriving DecidableEq

namespace PlaybackFlags

/-- The flags of a song. Before version 5 there are none. -/
def ofCommonFlag (version commonFlag : UInt8) : PlaybackFlags :=
  let isNew : Bool := 5 ≤ version
  { opl3 := isNew
    tremolo := isNew && commonFlag &&& 0x08 != 0
    vibrato := isNew && commonFlag &&& 0x10 != 0 }

/-- The flags as a number: one bit for each. -/
def bits (flags : PlaybackFlags) : Nat :=
  flags.opl3.toNat + 2 * flags.tremolo.toNat + 4 * flags.vibrato.toNat

end PlaybackFlags
end AdLibModule
