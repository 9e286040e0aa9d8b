import AdLibModule.PackedBlock
import AdLibModule.Song

/-!
Decoding a module into a song. The header comes first and decides which blocks follow; each block is
unpacked to the size that the format declares for it and fills in its own part of the song. What
lies behind the last block is not looked at.
-/
namespace AdLibModule.Song

/-- The song before any block was decoded: what the header tells, and nothing else. -/
def ofHeader (header : Header) (version : Version) (settings : Settings) : Song where
  container := header.container
  version := version
  checksum := header.checksum
  patternCount := header.patternCount
  tempo := header.tempo
  speed := header.speed
  order := Vector.replicate orderSize 0
  title := ""
  author := ""
  settings := settings
  instruments := []
  instrumentMacros := []
  macroTables := []
  disabledColumns := []
  patternNames := []
  grid := Grid.empty version.family

/-- Fills in what the song data tells. -/
def withData (song : Song) (data : SongData) : Song :=
  { song with
    title := data.title
    author := data.author
    instruments := data.instruments
    instrumentMacros := data.instrumentMacros
    macroTables := data.macroTables
    order := data.order
    tempo := data.tempo
    speed := data.speed
    settings := data.settings
    patternNames := data.patternNames
    disabledColumns := data.disabledColumns }

/-- Fills in what an unpacked block tells. -/
def withBlock (song : Song) (kind : BlockKind) (block : Array UInt8) : Except DecodeError Song :=
  match kind with
  | .songData => (SongData.read song.version).onBytes block |>.map song.withData
  | .instruments =>
    (Instrument.readAll song.version []).onBytes block |>.map
      ({ song with instruments := · })
  | .instrumentMacros =>
    InstrumentMacro.readAll.onBytes block |>.map ({ song with instrumentMacros := · })
  | .macroTables => MacroTable.readAll.onBytes block |>.map ({ song with macroTables := · })
  | .disabledColumns =>
    DisabledColumns.readAll.onBytes block |>.map ({ song with disabledColumns := · })
  | .order => (Read.vector orderSize).onBytes block |>.map ({ song with order := · })
  | .patternGroup group =>
    match song.grid.decodeGroup group block with
    | (.ok (), grid) => .ok { song with grid := grid }
    | (.error error, _) => .error error

/-- Reads a block of `length` packed bytes. -/
def readBlock (song : Song) (kind : BlockKind) (length : Nat) : Read Song :=
  if length = 0 ∧ kind.mayBeAbsent then
    return song
  else do
    let packed ← Read.bytes length
    let block ← Read.ofExcept (song.version.compression.unpack packed (song.version.blockSize kind))
    Read.ofExcept (song.withBlock kind block)

/-- Reads the blocks of the given kinds and lengths. -/
def readBlocks (song : Song) : List (BlockKind × Nat) → Read Song
  | [] => return song
  | (kind, length) :: blocks => do
    let song ← song.readBlock kind length
    song.readBlocks blocks

/-- Reads what follows the fixed part of the header. -/
def readAfter (header : Header) : Read Song := do
  let version ← Read.ofExcept (Version.ofNumber header.versionNumber)
  Read.ofExcept version.requireSupported
  let table ← BlockTable.read version header.container
  (ofHeader header version table.settings).readBlocks
    ((version.layout header.container).zip table.lengths)

/-- Reads a module. -/
def read : Read Song := Header.read >>= readAfter

/-- Decodes the bytes of a module file. -/
def load (bytes : Array UInt8) : Except DecodeError Song := read.onBytes bytes

end AdLibModule.Song
