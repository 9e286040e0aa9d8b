import AdLibModule.Layout

/-!
The header of a module. Its fixed part starts with the signature and names the version; what follows
depends on the version: the settings of a tiny module, and the packed length of each block.
-/
namespace AdLibModule

/-- The fixed part of the header. -/
structure Header where
  container : Container
  /-- A checksum of the file, which is kept but not compared. -/
  checksum : UInt32
  /-- The number in the place of the version, which need not be that of a version. -/
  versionNumber : UInt8
  patternCount : UInt8
  tempo : UInt8
  speed : UInt8
  deriving DecidableEq

/-- Finds out the container, and reads past the signature. -/
def Container.read : Read Container := do
  let container ← Read.ofExcept (Container.detect (← get).rest)
  Read.skip container.magic.size
  return container

/-- Reads what follows the signature of the container. A full module keeps tempo and speed elsewhere. -/
def Header.readFields (container : Container) : Read Header := do
  let checksum ← Read.u32
  let versionNumber ← Read.u8
  let patternCount ← Read.u8
  match container with
  | .a2m => return { container, checksum, versionNumber, patternCount, tempo := 0, speed := 0 }
  | .a2t =>
    let tempo ← Read.u8
    let speed ← Read.u8
    return { container, checksum, versionNumber, patternCount, tempo, speed }

/-- Reads the fixed part. -/
def Header.read : Read Header := Container.read >>= readFields

/-- The part of the header that depends on the version. -/
structure BlockTable where
  /-- The settings of a tiny module; a full one keeps them elsewhere. -/
  settings : Settings
  /-- How many bytes each block takes in the file, in the order of the layout. -/
  lengths : List Nat
  deriving DecidableEq

def BlockTable.read (version : Version) (container : Container) : Read BlockTable := do
  let settings ←
    match container with
    | .a2m => pure {}
    | .a2t => Settings.read version
  let lengths ← Read.times (version.layout container).length (Read.number version.lengthSize)
  return { settings, lengths }

end AdLibModule
