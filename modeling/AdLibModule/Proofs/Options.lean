import AdLibModule.DecodeError
import AdLibModule.Options
import Mathlib

/-! What a command line that is understood asks for. An argument sets an option, at most once, or names a
file, and the files stand in the order of the arguments. -/

namespace AdLibModule.Options

variable {options next : Options}

/-- The files that were named before are followed by some of the arguments, in their order. -/
def AddsFiles (options next : Options) (arguments : List String) : Prop :=
  ∃ named, next.files = options.files ++ named ∧ named.Sublist arguments

theorem addsFiles_of_files_eq (h : next.files = options.files) (arguments : List String) :
    AddsFiles options next arguments :=
  ⟨[], by rw [h, List.append_nil], List.nil_sublist _⟩

theorem AddsFiles.trans {between : Options} {first rest : List String}
    (h : AddsFiles options between first) (h' : AddsFiles between next rest) :
    AddsFiles options next (first ++ rest) := by
  obtain ⟨named, hfiles, hnamed⟩ := h
  obtain ⟨named', hfiles', hnamed'⟩ := h'
  refine ⟨named ++ named', ?_, hnamed.append hnamed'⟩
  rw [hfiles', hfiles, List.append_assoc]

/-! ### One argument -/

theorem files_of_addFile {file : String} (h : options.addFile file = .ok next) :
    next.files = options.files ++ [file] := by
  unfold addFile at h
  split_ifs at h
  cases h
  rfl

/-- An option that can be set once leaves the files as they are. -/
theorem files_of_setOnce {changed : Options} {isSet : Bool}
    (h : (if isSet then .error .usage else .ok changed : Except Refusal Options) = .ok next)
    (hchanged : changed.files = options.files) : next.files = options.files := by
  split_ifs at h
  cases h
  exact hchanged

theorem files_of_addPattern {value : List Char} (h : options.addPattern value = .ok next) :
    next.files = options.files := by
  unfold addPattern at h
  split at h
  · cases h
    rfl
  · cases h

/-- The options as far as they are known. -/
def Step.known : Step → Options
  | .done options | .needsPattern options => options

theorem files_of_long {name : List Char} {step : Step} (h : options.long name = .ok step) :
    step.known.files = options.files := by
  unfold long at h
  split_ifs at h
  · obtain ⟨_, hadd, rfl⟩ := map_eq_ok_iff.mp h
    exact files_of_setOnce hadd rfl
  · obtain ⟨_, hadd, rfl⟩ := map_eq_ok_iff.mp h
    exact files_of_setOnce hadd rfl
  · obtain ⟨_, hadd, rfl⟩ := map_eq_ok_iff.mp h
    exact files_of_setOnce hadd rfl
  · cases h
    rfl
  · obtain ⟨_, hadd, rfl⟩ := map_eq_ok_iff.mp h
    exact files_of_addPattern hadd

theorem files_of_short {letters : List Char} {step : Step} (h : options.short letters = .ok step) :
    step.known.files = options.files := by
  fun_induction short options letters with
  | case1 | case5 =>
      cases h
      rfl
  | case3 options rest after hadd ih => exact (ih h).trans (files_of_setOnce hadd rfl)
  | case6 options value | case7 options value =>
      obtain ⟨_, hadd, rfl⟩ := map_eq_ok_iff.mp h
      exact files_of_addPattern hadd
  | case2 | case4 | case8 => cases h

theorem addsFiles_of_take {argument : String} {step : Step} (h : options.take argument = .ok step) :
    AddsFiles options step.known [argument] := by
  unfold take at h
  split at h
  · exact addsFiles_of_files_eq (files_of_long h) _
  · exact addsFiles_of_files_eq (files_of_short h) _
  · obtain ⟨_, hadd, rfl⟩ := map_eq_ok_iff.mp h
    exact ⟨[argument], files_of_addFile hadd, List.Sublist.refl _⟩

/-! ### All arguments -/

theorem files_of_addFiles {files : List String} (h : options.addFiles files = .ok next) :
    next.files = options.files ++ files := by
  fun_induction addFiles options files with
  | case1 options =>
      cases h
      exact (List.append_nil _).symm
  | case2 options file files after hadd ih =>
      rw [ih h, files_of_addFile hadd, List.append_assoc]
      rfl
  | case3 => cases h

theorem addsFiles_of_scan {arguments : List String} (h : options.scan arguments = .ok next) :
    AddsFiles options next arguments := by
  fun_induction scan options arguments with
  | case1 options =>
      cases h
      exact addsFiles_of_files_eq rfl _
  | case2 options arguments =>
      exact ⟨arguments, files_of_addFiles h, List.sublist_cons_self _ _⟩
  | case4 options argument arguments hdashes after htake ih =>
      exact (addsFiles_of_take htake).trans (ih h)
  | case8 options argument hdashes between htake value arguments hvalue after hpattern ih =>
      have hafter : AddsFiles between after [value] :=
        addsFiles_of_files_eq (files_of_addPattern hpattern) _
      exact (addsFiles_of_take htake).trans (hafter.trans (ih h))
  | case3 | case5 | case6 | case7 => cases h

/-- The files of a command line, at least one, are some of its arguments in their order. -/
theorem files_of_ofArguments {arguments : List String} (h : ofArguments arguments = .ok options) :
    options.files ≠ [] ∧ options.files.Sublist arguments := by
  unfold ofArguments at h
  split at h
  · cases h
  · rename_i found hscan
    split_ifs at h with hrefused
    cases h
    obtain ⟨named, hfiles, hnamed⟩ := addsFiles_of_scan hscan
    rw [List.nil_append] at hfiles
    refine ⟨fun hempty => hrefused ?_, hfiles ▸ hnamed⟩
    rw [hempty]
    rfl

end AdLibModule.Options
