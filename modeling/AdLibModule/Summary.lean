import AdLibModule.JsonValue
import AdLibModule.Song

/-!
The summary of a song: what a catalogue of modules would list.
-/
namespace AdLibModule

structure Summary where
  format : String
  container : Container
  version : Version
  title : String
  author : String
  tempo : UInt8
  speed : UInt8
  /-- The refresh rate a second, with one decimal. -/
  refreshRate : String
  patternCount : UInt8
  order : List UInt8
  channels : Nat
  rows : Nat
  instrumentCount : Nat
  /-- The number of instruments that sound. -/
  usedInstruments : Nat
  flags : PlaybackFlags

/-- The name of the format. -/
def formatName : String := "AdLib Tracker 2"

namespace Summary

def ofSong (song : Song) : Summary where
  format := formatName
  container := song.container
  version := song.version
  title := song.title
  author := song.author
  tempo := song.tempo
  speed := song.speed
  refreshRate := song.refreshText
  patternCount := song.patternCount
  order := song.usedOrder
  channels := song.grid.channels
  rows := song.grid.rows
  instrumentCount := song.instruments.length
  usedInstruments := song.instruments.countP (!·.isEmpty)
  flags := song.flags

/-- The summary as a JSON object. -/
def toJson (summary : Summary) : JsonValue :=
  let number (n : Nat) : JsonValue := .number (toString n)
  .object [
    ("format", .text summary.format),
    ("container", .text summary.container.name),
    ("version", number summary.version.number.toNat),
    ("title", .text summary.title),
    ("author", .text summary.author),
    ("tempo", number summary.tempo.toNat),
    ("speed", number summary.speed.toNat),
    ("refresh_rate", .number summary.refreshRate),
    ("pattern_count", number summary.patternCount.toNat),
    ("order", .array (summary.order.map (number ·.toNat))),
    ("channels", number summary.channels),
    ("rows", number summary.rows),
    ("instrument_count", number summary.instrumentCount),
    ("used_instruments", number summary.usedInstruments),
    ("opl3", .bool summary.flags.opl3),
    ("tremolo", .bool summary.flags.tremolo),
    ("vibrato", .bool summary.flags.vibrato)]

/-- The text of the summary, on one line or on several. -/
def text (summary : Summary) (isPretty : Bool) : String :=
  if isPretty then summary.toJson.pretty 0 else summary.toJson.compact

end Summary
end AdLibModule
