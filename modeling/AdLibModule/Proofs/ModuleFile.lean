import AdLibModule.Proofs.Load

/-! A module file is determined by its bytes: there is one way to take them apart, and a song that
is decoded from them is what this file says. -/

namespace AdLibModule

theorem flatten_inj_of_lengths {blocks blocks' : List (List UInt8)} {rest rest' : List UInt8}
    (hlengths : blocks.map List.length = blocks'.map List.length)
    (h : blocks.flatten ++ rest = blocks'.flatten ++ rest') : blocks = blocks' ∧ rest = rest' := by
  induction blocks generalizing blocks' with
  | nil =>
      rw [List.map_nil] at hlengths
      obtain rfl : blocks' = [] := List.map_eq_nil_iff.mp hlengths.symm
      exact ⟨rfl, h⟩
  | cons block blocks ih =>
      obtain ⟨block', others, rfl, hlength, hothers⟩ := List.map_eq_cons_iff.mp hlengths.symm
      simp only [List.flatten_cons, List.append_assoc] at h
      obtain ⟨rfl, hrest⟩ := List.append_inj h hlength.symm
      obtain ⟨rfl, rfl⟩ := ih hothers.symm hrest
      exact ⟨rfl, rfl⟩

theorem Version.number_injective : Function.Injective Version.number := by
  intro version other h
  have hfound : ofNumber version.number = .ok other := ofNumber_eq_ok_iff.mpr h
  have hself : ofNumber version.number = .ok version := ofNumber_eq_ok_iff.mpr rfl
  exact Except.ok.inj (hself.symm.trans hfound)

namespace ModuleFile

variable {file other : ModuleFile}

/-- There is one way to take the bytes of a module file apart. -/
theorem HasHeader.eq_of_bytes_eq (h : file.HasHeader) (h' : other.HasHeader)
    (hbytes : file.bytes = other.bytes) : file = other := by
  simp only [bytes, List.append_assoc] at hbytes
  obtain ⟨hheader, hbytes⟩ := Header.decodes_read.unique ⟨h.header, rfl⟩ ⟨h'.header, rfl⟩ hbytes
  have hversion : file.version = other.version := by
    apply Version.number_injective
    rw [← h.version, ← h'.version, hheader]
  have htable' := h'.table
  rw [← hversion, ← hheader] at hbytes htable'
  obtain ⟨htable, hbytes⟩ := (BlockTable.decodes_read file.version file.header.container).unique
    ⟨h.table, rfl⟩ ⟨htable', rfl⟩ hbytes
  obtain ⟨hsettings, hlengths⟩ := BlockTable.mk.inj htable
  obtain ⟨hblocks, hrest⟩ := flatten_inj_of_lengths hlengths hbytes
  obtain ⟨header, version, settings, blocks, rest⟩ := file
  obtain ⟨header', version', settings', blocks', rest'⟩ := other
  dsimp only [table] at hheader hversion hsettings hblocks hrest
  subst hheader hversion hsettings hblocks hrest
  rfl

/-- A song that is decoded from the bytes of a file is what the file says. -/
theorem HasHeader.describes_of_load {data : Array UInt8} {song : Song} (h : file.HasHeader)
    (hdata : data.toList = file.bytes) (hload : Song.load data = .ok song) :
    file.WellFormed ∧ file.Describes song := by
  obtain ⟨found, hfound, hbytes, hsong⟩ := Song.load_eq_ok_iff.mp hload
  obtain rfl : file = found := h.eq_of_bytes_eq hfound (hdata.symm.trans hbytes)
  have hfile : file.WellFormed := ⟨h, fun _ _ => Song.exists_unpack_of_withAllPacked hsong⟩
  obtain ⟨filled, hfilled, hdescribes⟩ := hfile.exists_filled
  obtain rfl : filled = song := Except.ok.inj (hfilled.symm.trans hsong)
  exact ⟨hfile, hdescribes.describes h⟩

end ModuleFile

theorem Song.exists_describes_of_load {data : Array UInt8} {song : Song}
    (h : Song.load data = .ok song) :
    ∃ file : ModuleFile, file.WellFormed ∧ data.toList = file.bytes ∧ file.Describes song := by
  obtain ⟨file, hfile, hdata, -⟩ := Song.load_eq_ok_iff.mp h
  obtain ⟨hwell, hdescribes⟩ := hfile.describes_of_load hdata h
  exact ⟨file, hwell, hdata, hdescribes⟩

theorem ModuleFile.WellFormed.exists_load {file : ModuleFile} (h : file.WellFormed) :
    ∃ song, Song.load file.bytes.toArray = .ok song := by
  obtain ⟨song, hsong, -⟩ := h.exists_filled
  exact ⟨song, Song.load_eq_ok_iff.mpr ⟨file, h.toHasHeader, rfl, hsong⟩⟩

namespace Song

/-- A tiny module of version 4 without any pattern. -/
def blankFile : ModuleFile where
  header := ⟨.a2t, 0, 4, 0, 18, 6⟩
  version := .v4
  settings := {}
  blocks := [List.replicate 3250 0, List.replicate 128 0, [], [], [], []]
  rest := []

theorem wellFormed_blankFile : blankFile.WellFormed := by
  have hlengths : blankFile.blocks.map List.length = [3250, 128, 0, 0, 0, 0] := by
    simp only [blankFile, List.map_cons, List.map_nil, List.length_replicate, List.length_nil]
  refine ModuleFile.wellFormed_of_lengths hlengths rfl ?_ rfl (by decide) ⟨rfl, rfl, by decide⟩
    (by decide)
  intro hfull
  cases hfull

end Song
end AdLibModule
