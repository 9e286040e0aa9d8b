import AdLibModule.Grid
import AdLibModule.Header

/-!
Songs: what a module says once it is decoded, and what follows from it for playing.
-/
namespace AdLibModule

structure Song where
  container : Container
  version : Version
  checksum : UInt32
  /-- The number of patterns that the header declares. -/
  patternCount : UInt8
  tempo : UInt8
  speed : UInt8
  order : Order
  title : String
  author : String
  settings : Settings
  instruments : List Instrument
  instrumentMacros : List InstrumentMacro
  macroTables : List MacroTable
  disabledColumns : List DisabledColumns
  patternNames : List String
  grid : Grid

namespace Song

/-- The version whose rules the song follows, found by its number. A number of no version would
count as the newest. -/
def profile (song : Song) : Version :=
  match Version.ofNumber song.version.number with
  | .ok version => version
  | .error _ => .v11

/-- The order entry that stands for no pattern. -/
def unusedOrder : UInt8 := 128

/-- The patterns in the order in which they sound. -/
def usedOrder (song : Song) : List UInt8 := song.order.toList.filter (· != unusedOrder)

def flags (song : Song) : PlaybackFlags :=
  .ofCommonFlag song.version.number song.settings.commonFlag

/-- How often the player is called in ten seconds. A tempo of 18 stands for the 18.2 calls a second
of the timer that it was first played by. -/
def refreshTenths (song : Song) : Nat := if song.tempo = 18 then 182 else 10 * song.tempo.toNat

/-- The refresh rate a second, with one decimal. -/
def refreshText (song : Song) : String :=
  s!"{song.refreshTenths / 10}.{song.refreshTenths % 10}"

/-- The name of the instrument in a slot. -/
def instrumentName? (song : Song) (index : Nat) : Option String :=
  song.instruments[index]?.map (·.name)

end Song
end AdLibModule
