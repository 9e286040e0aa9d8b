import AdLibModule.Song

/-!
A song in lines of text for people to read: a summary, the list of its instruments, and the table of
a pattern, with a line for each row and a cell for each channel.
-/
namespace AdLibModule.Report

/-- A number in hexadecimal, in as many digits as it takes but at least `width`. -/
def hex (width n : Nat) : String :=
  let digits := Nat.toDigits 16 n |>.map Char.toUpper
  String.ofList (List.replicate (width - digits.length) '0' ++ digits)

/-- A text with spaces before it, up to the given width. -/
def alignRight (width : Nat) (text : String) : String :=
  String.ofList (List.replicate (width - text.length) ' ') ++ text

/-- A text with spaces after it, up to the given width. -/
def alignLeft (width : Nat) (text : String) : String :=
  text ++ String.ofList (List.replicate (width - text.length) ' ')

/-- The names of the flags that are set. -/
def flagNames (flags : PlaybackFlags) : List String :=
  (if flags.opl3 then ["OPL3"] else []) ++ (if flags.tremolo then ["TREMOLO"] else [])
    ++ (if flags.vibrato then ["VIBRATO"] else [])

def flagText (flags : PlaybackFlags) : String :=
  match flagNames flags with
  | [] => "PlaybackFlags(0x0)"
  | names => "PlaybackFlags(" ++ " | ".intercalate names ++ ")"

/-- The summary of the song in the file at `path`. -/
def summary (path : String) (song : Song) : List String :=
  let number := song.version.number
  let declared := song.patternCount
  let used := song.usedOrder.length
  let tracks := song.grid.trackCount
  [ path,
    s!"  Format:      {song.container.name} v{number}",
    s!"  Title:       {song.title}",
    s!"  Author:      {song.author}",
    s!"  Tempo/Speed: {song.tempo} / {song.speed} ({song.refreshText} Hz)",
    s!"  Patterns:    {declared} declared, {used} in order list",
    s!"  Grid:        {tracks} tracks, {song.grid.channels} channels x {song.grid.rows} rows",
    s!"  Flags:       {flagText song.flags}" ]

/-- The line of an instrument, the slots of which count from one. -/
def instrumentLine (slot : Nat) (instrument : Instrument) : String :=
  let registers := " ".intercalate (instrument.registers.toList.map (hex 2 ·.toNat))
  s!"  {alignRight 3 (toString slot)} {alignLeft 42 instrument.name} {registers}"

/-- The instruments that have a name or a register that is set. -/
def instruments (song : Song) : List String :=
  (song.instruments.zipIdx 1).filterMap fun (instrument, slot) =>
    if instrument.name.isEmpty && instrument.isEmpty then none
    else some (instrumentLine slot instrument)

/-- The cell of an event. -/
def cell (event : Event) : String :=
  if event.isEmpty then "... .. ..."
  else
    let note := alignRight 3 (toString event.note)
    let instrument := hex 2 event.instrument.toNat
    let command := hex 2 event.command.toNat
    s!"{note} {instrument} {command}{hex 1 event.param1.toNat}{hex 1 event.param2.toNat}"

/-- The line of a row. -/
def rowLine (grid : Grid) (pattern row : Nat) : String :=
  let cells := (List.range grid.channels).filterMap fun channel =>
    (grid.event? pattern channel row).map cell
  s!"  {hex 2 row} | " ++ " | ".intercalate cells

/-- The table of a pattern. -/
def pattern (grid : Grid) (index : Nat) : List String :=
  (List.range grid.rows).map (rowLine grid index)

end AdLibModule.Report
