import AdLibModule.Compression

/-!
The reasons for which a module cannot be decoded, and the sentence that reports each of them.
-/
namespace AdLibModule

/-- What makes a packed stream unreadable before it ends. -/
inductive StreamFault where
  /-- The stream ends inside a code; `offset` counts the bytes taken from it. -/
  | exhausted (scheme : Compression) (offset : Nat)
  /-- A sixpack copy reaches back further than the `written` bytes of output. -/
  | distanceTooLarge (distance written : Nat)
  /-- A gamma code spells a number that no copy into the output can need. -/
  | gammaTooLarge
  /-- An aPlib match starts at no byte of the `written` bytes of output. -/
  | offsetOutside (offset written : Nat)
  deriving DecidableEq

/-- Why decoding stopped. -/
inductive DecodeError where
  /-- `needed` bytes were asked for at `offset`, where only `available` are left. -/
  | truncated (offset needed available : Nat)
  /-- The data starts with neither signature. -/
  | badMagic
  | unsupportedVersion (version : UInt8)
  | unsupportedCompression (scheme : Compression)
  | corruptStream (fault : StreamFault)
  /-- A block has `actual` bytes where the format declares `expected`. -/
  | sizeMismatch (expected actual : Nat)
  /-- The file could not be read at all. What the system says of the reason is left out. -/
  | unreadable
  deriving DecidableEq

def StreamFault.message : StreamFault → String
  | exhausted scheme offset => s!"{scheme.name}: input exhausted at byte {offset}"
  | distanceTooLarge distance written =>
    s!"sixpack: copy distance {distance} exceeds {written} bytes of output"
  | gammaTooLarge => "gamma code exceeds output size"
  | offsetOutside offset written =>
    s!"back-reference {offset} before start of output ({written} bytes written)"

def DecodeError.message : DecodeError → String
  | truncated offset needed available =>
    s!"truncated data: needed {needed} bytes at offset {offset}, only {available} available"
  | badMagic => "not an AdLib Tracker 2 module (bad magic)"
  | unsupportedVersion version => s!"unsupported format version {version}"
  | unsupportedCompression scheme => s!"unsupported compression scheme: {scheme.name}"
  | corruptStream fault => s!"corrupt compressed stream: {fault.message}"
  | sizeMismatch expected actual => s!"size mismatch: expected {expected} bytes, got {actual}"
  | unreadable => "the file cannot be read"

section Result

variable {ε α β : Type} {result : Except ε α}

theorem map_eq_ok_iff {f : α → β} {value : β} :
    result.map f = .ok value ↔ ∃ inner, result = .ok inner ∧ f inner = value := by
  cases result <;> simp [Except.map]

theorem map_eq_error_iff {f : α → β} {error : ε} :
    result.map f = .error error ↔ result = .error error := by
  cases result <;> simp [Except.map]

theorem bind_eq_ok_iff {next : α → Except ε β} {value : β} :
    result.bind next = .ok value ↔ ∃ inner, result = .ok inner ∧ next inner = .ok value := by
  cases result <;> simp [Except.bind]

end Result
end AdLibModule
