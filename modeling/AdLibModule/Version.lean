import AdLibModule.Compression
import AdLibModule.DecodeError
import AdLibModule.Family

/-!
The eleven versions of the format. A version decides how blocks are packed, how patterns are stored,
how many instruments there are and what is known of each of them.
-/
namespace AdLibModule

inductive Version where
  | v1
  | v2
  | v3
  | v4
  | v5
  | v6
  | v7
  | v8
  | v9
  | v10
  | v11
  deriving DecidableEq

namespace Version

/-- The number by which a header names the version. -/
def number : Version → UInt8
  | v1 => 1
  | v2 => 2
  | v3 => 3
  | v4 => 4
  | v5 => 5
  | v6 => 6
  | v7 => 7
  | v8 => 8
  | v9 => 9
  | v10 => 10
  | v11 => 11

/-- All versions, oldest first. -/
def all : List Version := [v1, v2, v3, v4, v5, v6, v7, v8, v9, v10, v11]

/-- The version with the given number. -/
def ofNumber (number : UInt8) : Except DecodeError Version :=
  match all.find? (·.number == number) with
  | some version => .ok version
  | none => .error (.unsupportedVersion number)

def compression : Version → Compression
  | v1 | v5 => .sixpack
  | v2 | v6 => .lzw
  | v3 | v7 => .lzss
  | v4 | v8 => .raw
  | v9 | v10 | v11 => .aplib

def family (version : Version) : Family := .ofNumber version.number

/-- Refuses the versions whose blocks cannot be unpacked. -/
def requireSupported (version : Version) : Except DecodeError Unit :=
  if version.compression.isSupported then .ok () else .error (.unsupportedVersion version.number)

/-- Whether an instrument says on which side it sounds. -/
def hasPanning (version : Version) : Bool := 5 ≤ version.number

/-- Whether an instrument has a type. -/
def hasVoiceType (version : Version) : Bool := 9 ≤ version.number

/-- Whether instruments have register macros and tables. -/
def hasMacros (version : Version) : Bool := 9 ≤ version.number

/-- The number of instruments. -/
def instrumentCount (version : Version) : Nat := if version.number < 9 then 250 else 255

/-- The number of bytes of a stored instrument. -/
def recordSize (version : Version) : Nat := if version.number < 9 then 13 else 14

/-- The number of bytes of the field for the name of an instrument. -/
def nameSize (version : Version) : Nat := if version.number < 10 then 33 else 43

end Version
end AdLibModule
