import AdLibModule.Inspection
import AdLibModule.Proofs.GridViews
import AdLibModule.Proofs.ModuleFile
import AdLibModule.Proofs.Options

/-! What a run over several files prints and how it ends. Each file is shown by itself, in its turn, and
one that cannot be decoded only counts. The run ends early at the first song without room for the
pattern that was asked for, and its count of files is not reported then. -/

namespace AdLibModule.Inspection

/-- What is decoded of the file at a path. -/
def decoded (file? : String → Option (Array UInt8)) (path : String) : Except DecodeError Song :=
  ((file? path).map Song.load).getD (.error .unreadable)

/-- The grid of the song has the pattern that is asked for, if one is. -/
def HasRoom (options : Options) (song : Song) : Prop :=
  ∀ pattern, options.pattern = some pattern → pattern < song.grid.patternCount

/-- All that is shown of a song. -/
def shown (options : Options) (path : String) (song : Song) : String :=
  unlines (overview options path song ++ patternTable options song)

section Run

variable (options : Options) (load : String → Except DecodeError Song)

/-- The songs among the files, each with its path. -/
def songs (files : List String) : List (String × Song) :=
  files.filterMap fun path => (load path).toOption.map (path, ·)

/-- The number of files that cannot be decoded. -/
def failures (files : List String) : Nat := files.countP fun path => !(load path).isOk

/-- What is shown of all songs among the files, one after the other. -/
def allShown (files : List String) : String :=
  String.join ((songs load files).map fun entry => shown options entry.1 entry.2)

/-- No song among the files lacks the pattern that is asked for. -/
def AllHaveRoom (files : List String) : Prop :=
  ∀ path ∈ files, ∀ song, load path = .ok song → HasRoom options song

/-- The file at `path`, behind those `before`, is the first with a song that lacks the pattern. -/
structure StopsAt (before : List String) (path : String) (after : List String) (song : Song)
    (pattern : Nat) : Prop where
  files : options.files = before ++ path :: after
  room : AllHaveRoom options load before
  decodes : load path = .ok song
  asked : options.pattern = some pattern
  missing : song.grid.patternCount ≤ pattern

variable {options load} {song : Song} {path : String} {paths : List String}

theorem unlines_append (lines others : List String) :
    unlines (lines ++ others) = unlines lines ++ unlines others := by
  rw [unlines, List.map_append, String.join_append]
  rfl

theorem missingPattern?_eq_none_iff : missingPattern? options song = none ↔ HasRoom options song := by
  rw [missingPattern?, Option.filter_eq_none_iff]
  simp only [decide_eq_true_eq, Nat.not_le, HasRoom]

theorem missingPattern?_eq_some_iff {pattern : Nat} : missingPattern? options song = some pattern
    ↔ options.pattern = some pattern ∧ song.grid.patternCount ≤ pattern := by
  rw [missingPattern?, Option.filter_eq_some_iff, decide_eq_true_eq]

/-! ### One file -/

section Cons

variable {files : List String} {error : DecodeError}

theorem failures_cons_of_error (h : load path = .error error) :
    failures load (path :: files) = failures load files + 1 :=
  List.countP_cons_of_pos (by rw [h]; rfl)

theorem failures_cons_of_ok (h : load path = .ok song) :
    failures load (path :: files) = failures load files :=
  List.countP_cons_of_neg (by rw [h]; exact Bool.false_ne_true)

theorem allShown_nil : allShown options load [] = "" := by
  rw [allShown, songs, List.filterMap_nil, List.map_nil, String.join_nil]

theorem allShown_cons_of_error (h : load path = .error error) :
    allShown options load (path :: files) = allShown options load files := by
  rw [allShown, songs, List.filterMap_cons_none (by rw [h]; rfl)]
  rfl

theorem allShown_cons_of_ok (h : load path = .ok song) :
    allShown options load (path :: files)
      = shown options path song ++ allShown options load files := by
  rw [allShown, songs, List.filterMap_cons_some (by rw [h]; rfl), List.map_cons, String.join_cons]
  rfl

end Cons

variable (total failed : Nat) (printed : String)

theorem showFrom_of_error {error : DecodeError} (h : load path = .error error) :
    showFrom options load total failed printed (path :: paths)
      = showFrom options load total (failed + 1) printed paths := by
  rw [showFrom, h]

theorem showFrom_of_hasRoom (h : load path = .ok song) (hroom : HasRoom options song) :
    showFrom options load total failed printed (path :: paths)
      = showFrom options load total failed (printed ++ shown options path song) paths := by
  rw [showFrom, h]
  dsimp only
  rw [missingPattern?_eq_none_iff.mpr hroom, shown, unlines_append, String.append_assoc]

theorem showFrom_of_missing {pattern : Nat} (h : load path = .ok song)
    (hpattern : options.pattern = some pattern) (hmissing : song.grid.patternCount ≤ pattern) :
    showFrom options load total failed printed (path :: paths)
      = ⟨1, printed ++ unlines (overview options path song), missingPatternError path pattern song⟩ := by
  rw [showFrom, h]
  dsimp only
  rw [missingPattern?_eq_some_iff.mpr ⟨hpattern, hmissing⟩]

/-! ### All files -/

/-- What a run has counted and printed before it comes to the files that follow: a file that fails adds
to the count, and a song to the text. -/
theorem showFrom_append {files : List String} (hroom : AllHaveRoom options load files) :
    showFrom options load total failed printed (files ++ paths)
      = showFrom options load total (failed + failures load files)
        (printed ++ allShown options load files) paths := by
  induction files generalizing failed printed with
  | nil => rw [List.nil_append, failures, List.countP_nil, Nat.add_zero, allShown_nil,
      String.append_empty]
  | cons path files ih =>
      obtain ⟨hpath, hfiles⟩ := List.forall_mem_cons.mp hroom
      rw [List.cons_append]
      cases hload : load path with
      | error error =>
          rw [showFrom_of_error total failed printed hload, ih (failed + 1) printed hfiles,
            failures_cons_of_error hload, allShown_cons_of_error hload, Nat.add_right_comm, Nat.add_assoc]
      | ok song =>
          rw [showFrom_of_hasRoom total failed printed hload (hpath song hload), ih failed _ hfiles,
            failures_cons_of_ok hload, allShown_cons_of_ok hload, String.append_assoc]

theorem run_of_allHaveRoom (hroom : AllHaveRoom options load options.files) :
    run options load = if failures load options.files = 0 then
        ⟨0, allShown options load options.files, ""⟩
      else ⟨1, allShown options load options.files,
        failedError (failures load options.files) options.files.length⟩ := by
  have hall : showFrom options load options.files.length 0 "" (options.files ++ [])
      = showFrom options load options.files.length (0 + failures load options.files)
        ("" ++ allShown options load options.files) [] := showFrom_append _ _ _ hroom
  rw [List.append_nil, Nat.zero_add, String.empty_append] at hall
  rw [run, hall]
  rfl

theorem StopsAt.run_eq {before after : List String} {pattern : Nat}
    (h : StopsAt options load before path after song pattern) :
    run options load = ⟨1, allShown options load before ++ unlines (overview options path song),
      missingPatternError path pattern song⟩ := by
  rw [run, h.files, showFrom_append _ _ _ h.room, showFrom_of_missing _ _ _ h.decodes h.asked h.missing,
    String.empty_append]

/-- Of the files whose songs lack the pattern there is a first. -/
theorem exists_first_missing {files : List String} (h : ¬ AllHaveRoom options load files) :
    ∃ before path after song pattern, files = before ++ path :: after
      ∧ AllHaveRoom options load before ∧ load path = .ok song ∧ options.pattern = some pattern
      ∧ song.grid.patternCount ≤ pattern := by
  induction files with
  | nil => exact absurd (List.forall_mem_nil _) h
  | cons path files ih =>
      by_cases hpath : ∀ song, load path = .ok song → HasRoom options song
      · have hfiles : ¬ AllHaveRoom options load files :=
          fun hfiles => h (List.forall_mem_cons.mpr ⟨hpath, hfiles⟩)
        obtain ⟨before, first, after, song, pattern, rfl, hroom, hfirst⟩ := ih hfiles
        exact ⟨path :: before, first, after, song, pattern, rfl,
          List.forall_mem_cons.mpr ⟨hpath, hroom⟩, hfirst⟩
      · simp only [HasRoom, not_forall, Nat.not_lt] at hpath
        obtain ⟨song, hsong, pattern, hpattern, hmissing⟩ := hpath
        exact ⟨[], path, files, song, pattern, rfl, List.forall_mem_nil _, hsong, hpattern, hmissing⟩

end Run

theorem runArguments_eq {arguments : List String} {options : Options}
    (h : Options.ofArguments arguments = .ok options) (file? : String → Option (Array UInt8)) :
    runArguments arguments file? = run options (decoded file?) := by
  rw [runArguments, h]
  refine congrArg (run options) (funext fun path => ?_)
  rw [decoded]
  cases file? path <;> rfl

/-- A run over the files of a command line takes them in the order of the arguments. If every song has
room for the pattern, all songs are shown one after the other, each as a run over its file alone would
show it, and the run tells how many of the files could not be decoded. Else the run ends at the first
song without room: what comes before the pattern is still shown of it, nothing is shown of the files
behind it, and the run tells of this song and not of the files that could not be decoded. -/
theorem runArguments_outcome {arguments : List String} {options : Options}
    (h : Options.ofArguments arguments = .ok options) (file? : String → Option (Array UInt8)) :
    options.files ≠ [] ∧ options.files.Sublist arguments
    ∧ (∀ path song, decoded file? path = .ok song → HasRoom options song →
      (run { options with files := [path] } (decoded file?)).output = shown options path song)
    ∧ (AllHaveRoom options (decoded file?) options.files
      ∨ ∃ before path after song pattern,
        StopsAt options (decoded file?) before path after song pattern)
    ∧ (AllHaveRoom options (decoded file?) options.files →
      runArguments arguments file? =
        if failures (decoded file?) options.files = 0 then
          ⟨0, allShown options (decoded file?) options.files, ""⟩
        else ⟨1, allShown options (decoded file?) options.files,
          failedError (failures (decoded file?) options.files) options.files.length⟩)
    ∧ ∀ before path after song pattern,
      StopsAt options (decoded file?) before path after song pattern →
      runArguments arguments file? =
        ⟨1, allShown options (decoded file?) before ++ unlines (overview options path song),
          missingPatternError path pattern song⟩ := by
  obtain ⟨hfiles, horder⟩ := Options.files_of_ofArguments h
  rw [runArguments_eq h]
  refine ⟨hfiles, horder, ?_, ?_, run_of_allHaveRoom, fun _ _ _ _ _ hstops => hstops.run_eq⟩
  · intro path song hsong hroom
    have halone : showFrom { options with files := [path] } (decoded file?) 1 0 "" [path]
        = showFrom { options with files := [path] } (decoded file?) 1 0
          ("" ++ shown options path song) [] := showFrom_of_hasRoom 1 0 "" hsong hroom
    rw [String.empty_append] at halone
    exact congrArg RunResult.output halone
  · refine (em _).imp_right fun hmissing => ?_
    obtain ⟨before, path, after, song, pattern, hsplit, hroom, hsong, hpattern, hcount⟩ :=
      exists_first_missing hmissing
    exact ⟨before, path, after, song, pattern, hsplit, hroom, hsong, hpattern, hcount⟩

/-- Of the three files that the arguments name only the second is there: a module of version 4, which has
room for 64 patterns. -/
def oneFile (path : String) : Option (Array UInt8) :=
  if path = "blank" then some Song.blankFile.bytes.toArray else none

theorem decoded_oneFile_of_ne {path : String} (h : path ≠ "blank") :
    decoded oneFile path = .error .unreadable := by
  rw [decoded, oneFile, if_neg h]
  rfl

theorem eq_blank_of_decoded_oneFile {path : String} {song : Song}
    (h : decoded oneFile path = .ok song) : path = "blank" := by
  by_contra hne
  rw [decoded_oneFile_of_ne hne] at h
  cases h

theorem exists_decoded_oneFile :
    ∃ song, decoded oneFile "blank" = .ok song ∧ song.grid.patternCount = 64 := by
  obtain ⟨song, hload⟩ := Song.wellFormed_blankFile.exists_load
  obtain ⟨-, hdescribes⟩ :=
    Song.wellFormed_blankFile.toHasHeader.describes_of_load List.toList_toArray hload
  refine ⟨song, ?_, ?_⟩
  · rw [decoded, oneFile, if_pos rfl, Option.map_some, Option.getD_some, hload]
  · rw [Grid.patternCount_eq, hdescribes.family]
    rfl

/-- The last of its patterns can be shown, and no pattern behind it. -/
theorem runArguments_outcome_of_oneFile : ∃ song, decoded oneFile "blank" = .ok song
    ∧ (∃ options, Options.ofArguments ["gone", "-ip63", "blank", "more"] = .ok options
      ∧ runArguments ["gone", "-ip63", "blank", "more"] oneFile
        = ⟨1, shown options "blank" song, failedError 2 3⟩)
    ∧ ∃ options, Options.ofArguments ["gone", "-ip64", "blank", "more"] = .ok options
      ∧ runArguments ["gone", "-ip64", "blank", "more"] oneFile
        = ⟨1, unlines (overview options "blank" song), missingPatternError "blank" 64 song⟩ := by
  have hlast : Options.ofArguments ["gone", "-ip63", "blank", "more"]
      = .ok { files := ["gone", "blank", "more"], instruments := true, pattern := some 63 } := by
    cbv
  have hbeyond : Options.ofArguments ["gone", "-ip64", "blank", "more"]
      = .ok { files := ["gone", "blank", "more"], instruments := true, pattern := some 64 } := by
    cbv
  obtain ⟨song, hsong, hcount⟩ := exists_decoded_oneFile
  have hgone : decoded oneFile "gone" = .error .unreadable := decoded_oneFile_of_ne (by decide)
  have hmore : decoded oneFile "more" = .error .unreadable := decoded_oneFile_of_ne (by decide)
  refine ⟨song, hsong, ⟨_, hlast, ?_⟩, _, hbeyond, ?_⟩
  · obtain ⟨-, -, -, -, hall, -⟩ := runArguments_outcome hlast oneFile
    rw [hall ?_]
    · have hfailures : failures (decoded oneFile) ["gone", "blank", "more"] = 2 := by
        rw [failures_cons_of_error hgone, failures_cons_of_ok hsong, failures_cons_of_error hmore]
        rfl
      dsimp only
      rw [hfailures, allShown_cons_of_error hgone, allShown_cons_of_ok hsong,
        allShown_cons_of_error hmore, allShown_nil, String.append_empty]
      rfl
    · intro path hpath found hfound pattern hpattern
      obtain rfl := eq_blank_of_decoded_oneFile hfound
      cases hsong.symm.trans hfound
      cases hpattern
      rw [hcount]
      decide
  · obtain ⟨-, -, -, -, -, hstops⟩ := runArguments_outcome hbeyond oneFile
    rw [hstops ["gone"] "blank" ["more"] song 64 ⟨rfl, ?_, hsong, rfl, Nat.le_of_eq hcount⟩]
    · rw [allShown_cons_of_error hgone, allShown_nil, String.empty_append]
    · intro path hpath found hfound
      obtain rfl := eq_blank_of_decoded_oneFile hfound
      exact absurd hpath (by decide)

end AdLibModule.Inspection
