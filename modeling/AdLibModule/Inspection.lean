import AdLibModule.Load
import AdLibModule.Options
import AdLibModule.Report
import AdLibModule.Summary

/-!
Showing modules: what a run over several files prints and how it ends. Files are shown in order. One
that cannot be decoded is counted and passed over; a pattern that a song has no room for ends the
run at that song. What is logged on the way, the reason why a file was passed over among it, is left
out.
-/
namespace AdLibModule

/-- What a run prints, and the status that it ends with. -/
structure RunResult where
  status : Nat
  output : String
  errors : String
  deriving DecidableEq

namespace Inspection

/-- What is shown of a song before its pattern. -/
def overview (options : Options) (path : String) (song : Song) : List String :=
  (if options.json then [(Summary.ofSong song).text options.pretty] else Report.summary path song)
    ++ (if options.instruments then Report.instruments song else [])

/-- The pattern asked for, if the grid of the song has no room for it. -/
def missingPattern? (options : Options) (song : Song) : Option Nat :=
  options.pattern.filter (song.grid.patternCount ≤ ·)

/-- What is shown of the pattern asked for. -/
def patternTable (options : Options) (song : Song) : List String :=
  match options.pattern with
  | none => []
  | some pattern => Report.pattern song.grid pattern

/-- The message that ends a run at a song without room for the pattern. -/
def missingPatternError (path : String) (pattern : Nat) (song : Song) : String :=
  s!"Error: {path}: pattern {pattern}\n\nCaused by:\n"
    ++ s!"    out of range (grid holds {song.grid.patternCount})\n"

/-- The message that ends a run in which files could not be decoded. -/
def failedError (failed total : Nat) : String :=
  s!"Error: {failed} of {total} file(s) could not be decoded\n"

/-- The lines as one text. -/
def unlines (lines : List String) : String := String.join (lines.map (· ++ "\n"))

/-- The rest of a run over `total` files, of which `failed` could not be decoded so far. -/
def showFrom (options : Options) (load : String → Except DecodeError Song) (total failed : Nat)
    (printed : String) : List String → RunResult
  | [] =>
    if failed = 0 then ⟨0, printed, ""⟩ else ⟨1, printed, failedError failed total⟩
  | path :: paths =>
    match load path with
    | .error _ => showFrom options load total (failed + 1) printed paths
    | .ok song =>
      let printed := printed ++ unlines (overview options path song)
      match missingPattern? options song with
      | some pattern => ⟨1, printed, missingPatternError path pattern song⟩
      | none =>
        showFrom options load total failed (printed ++ unlines (patternTable options song)) paths

/-- A run with the given options. -/
def run (options : Options) (load : String → Except DecodeError Song) : RunResult :=
  showFrom options load options.files.length 0 "" options.files

/-- A run with the given arguments, over files whose bytes are found by their path. Help and usage
are for the caller to print. -/
def runArguments (arguments : List String) (file? : String → Option (Array UInt8)) : RunResult :=
  match Options.ofArguments arguments with
  | .error .help => ⟨0, "", ""⟩
  | .error .usage => ⟨2, "", ""⟩
  | .ok options =>
    run options fun path =>
      match file? path with
      | some bytes => Song.load bytes
      | none => .error .unreadable

end Inspection
end AdLibModule
