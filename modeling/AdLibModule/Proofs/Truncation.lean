import AdLibModule.Proofs.Failure
import AdLibModule.Proofs.WellFormed

/-! A module file that is cut short is found to be so, wherever it is cut, and what lies behind its
last block does not matter. An error of any other kind is final: what is true of a part of the data is
true of all of it, and so the whole file would not be decoded either. -/

namespace AdLibModule

namespace DecodeError

variable {part data : Array UInt8} {error : DecodeError}

/-- Data whose start is foreign is foreign. -/
theorem trueOf_badMagic_of_part (hpart : part.toList <+: data.toList) (h : badMagic.TrueOf part) :
    badMagic.TrueOf data := by
  intro container
  constructor
  · intro hstarts
    by_cases hshort : part.size < container.magic.size
    · refine (h container).2 ⟨?_, hshort⟩
      apply List.prefix_of_prefix_length_le hpart hstarts
      rw [Array.length_toList, Array.length_toList]
      exact Nat.le_of_lt hshort
    · apply (h container).1
      apply List.prefix_of_prefix_length_le hstarts hpart
      rw [Array.length_toList, Array.length_toList]
      exact Nat.not_lt.mp hshort
  · rintro ⟨hends, hsize⟩
    exact (h container).2 ⟨hpart.trans hends, Nat.lt_of_le_of_lt (size_le_of_isPrefix hpart) hsize⟩

theorem trueOf_unsupportedVersion_of_part {number : UInt8} (hpart : part.toList <+: data.toList)
    (h : (unsupportedVersion number).TrueOf part) : (unsupportedVersion number).TrueOf data := by
  obtain ⟨hforeign, container, hstarts, hsize, hnumber⟩ := h
  refine ⟨hforeign, container, hstarts.trans hpart, hsize.trans (size_le_of_isPrefix hpart), ?_⟩
  obtain ⟨more, hmore⟩ := hpart
  rw [← Array.getElem?_toList] at hnumber ⊢
  obtain ⟨hlt, -⟩ := List.getElem?_eq_some_iff.mp hnumber
  rw [← hmore, List.getElem?_append_left hlt, hnumber]

theorem IsBlockFaultIn.of_part (hpart : part.toList <+: data.toList) (h : error.IsBlockFaultIn part) :
    error.IsBlockFaultIn data := by
  obtain ⟨header, version, table, rest, hheader, place, hlies, hfails⟩ := h
  obtain ⟨more, hmore⟩ := hpart
  refine ⟨header, version, table, rest ++ more, ⟨hheader.isStored, hheader.number, hheader.supported,
    hheader.entries, ?_⟩, place, ⟨hlies.slots, ?_⟩, hfails⟩
  · rw [← hmore, hheader.bytes, List.append_assoc _ rest]
  · exact hlies.bytes.trans (List.prefix_append rest more)

/-- What an error says of a part of the data holds of all of it, unless it is a shortage. -/
theorem trueOf_of_part (hpart : part.toList <+: data.toList) (h : error.TrueOf part)
    (hfinal : error.IsFinal) : error.TrueOf data := by
  cases error with
  | truncated offset needed available => exact absurd rfl (hfinal offset needed available)
  | badMagic => exact trueOf_badMagic_of_part hpart h
  | unsupportedVersion number => exact trueOf_unsupportedVersion_of_part hpart h
  | corruptStream fault => exact IsBlockFaultIn.of_part hpart h
  | sizeMismatch expected actual => exact IsBlockFaultIn.of_part hpart h
  | unsupportedCompression scheme => exact h.elim
  | unreadable => exact h.elim

end DecodeError

namespace ModuleFile

/-- The bytes of the fixed header, of the part that depends on the version, and of all blocks. -/
def stored (file : ModuleFile) : List UInt8 :=
  file.header.bytes ++ file.table.bytes file.version file.header.container ++ file.blocks.flatten

/-- The number of these bytes. -/
def storedSize (file : ModuleFile) : Nat :=
  file.header.bytes.length + (file.table.bytes file.version file.header.container).length
    + (file.blocks.map List.length).sum

theorem length_stored (file : ModuleFile) : file.stored.length = file.storedSize := by
  rw [stored, storedSize, List.length_append, List.length_append, List.length_flatten]

/-- The file with other bytes behind its last block. -/
def withRest (file : ModuleFile) (rest : List UInt8) : ModuleFile := { file with rest := rest }

theorem bytes_withRest (file : ModuleFile) (rest : List UInt8) :
    (file.withRest rest).bytes = file.stored ++ rest := rfl

theorem HasHeader.withRest {file : ModuleFile} (h : file.HasHeader) (rest : List UInt8) :
    (file.withRest rest).HasHeader :=
  ⟨h.header, h.version, h.supported, h.table⟩

end ModuleFile

namespace Song

variable {file : ModuleFile} {data : Array UInt8} {song : Song}

/-- A part of a file that ends before its last block does is no module: it would be one with the
same blocks. -/
theorem load_extract_ne_ok (hfile : file.HasHeader) (hdata : data.toList = file.bytes)
    {size : Nat} (hsize : size < file.storedSize) (song : Song) :
    load (data.extract 0 size) ≠ .ok song := by
  intro h
  obtain ⟨part, hpart, hbytes, -⟩ := load_eq_ok_iff.mp h
  have hwhole : data.toList = (part.withRest (part.rest ++ data.toList.drop size)).bytes := by
    rw [part.bytes_withRest, ← List.append_assoc]
    show _ = part.bytes ++ _
    rw [← hbytes, toList_extract_zero, List.take_append_drop]
  obtain rfl : file = _ := hfile.eq_of_bytes_eq (hpart.withRest _) (hdata.symm.trans hwhole)
  have hshort : part.storedSize ≤ size := by
    have hlength := congrArg List.length hbytes
    rw [toList_extract_zero, List.length_take] at hlength
    have hstored : part.bytes.length = part.storedSize + part.rest.length := by
      rw [← part.length_stored, ← List.length_append]
      rfl
    omega
  exact absurd hsize (Nat.not_lt.mpr hshort)

/-- A part of a file of which a song is decoded can only be short of bytes: any other error would be
one of the whole file. -/
theorem exists_load_extract_eq_truncated (h : load data = .ok song) (hfile : file.HasHeader)
    (hdata : data.toList = file.bytes) {size : Nat} (hsize : size < file.storedSize) :
    ∃ offset needed available,
      load (data.extract 0 size) = .error (.truncated offset needed available) := by
  have hpart : (data.extract 0 size).toList <+: data.toList := by
    rw [toList_extract_zero]
    exact List.take_prefix size data.toList
  by_contra hnone
  cases hload : load (data.extract 0 size) with
  | ok other => exact load_extract_ne_ok hfile hdata hsize other hload
  | error error =>
      have hfinal : error.IsFinal := by
        rintro offset needed available rfl
        exact hnone ⟨offset, needed, available, hload⟩
      have hwhole := DecodeError.trueOf_of_part hpart (trueOf_of_load_eq_error hload) hfinal
      rw [load_of_trueOf hwhole hfinal] at h
      cases h

theorem load_stored_append (hfile : file.HasHeader) (hdata : data.toList = file.bytes)
    (hsong : (ofHeader file.header file.version file.settings).withAllPacked file.slots = .ok song)
    (rest : Array UInt8) : load (data.extract 0 file.storedSize ++ rest) = .ok song := by
  refine load_eq_ok_iff.mpr ⟨file.withRest rest.toList, hfile.withRest rest.toList, ?_, hsong⟩
  rw [file.bytes_withRest, Array.toList_append, toList_extract_zero, hdata]
  exact congrArg (· ++ rest.toList) (List.take_left' file.length_stored)

/-- A song that is decoded from a file is also decoded from it with anything else behind the last
block, and from no part of the file that ends before: such a part is found to be cut short. -/
theorem load_of_cut (h : load data = .ok song) :
    (∃ file : ModuleFile, file.HasHeader ∧ data.toList = file.bytes)
    ∧ ∀ file : ModuleFile, file.HasHeader → data.toList = file.bytes →
      (∀ size < file.storedSize, ∃ offset needed available,
        load (data.extract 0 size) = .error (.truncated offset needed available))
      ∧ ∀ rest : Array UInt8, load (data.extract 0 file.storedSize ++ rest) = .ok song := by
  obtain ⟨found, hfound, hbytes, hsong⟩ := load_eq_ok_iff.mp h
  refine ⟨⟨found, hfound, hbytes⟩, fun file hfile hdata => ?_⟩
  obtain rfl : file = found := hfile.eq_of_bytes_eq hfound (hdata.symm.trans hbytes)
  exact ⟨fun size => exists_load_extract_eq_truncated h hfile hdata, load_stored_append hfile hdata hsong⟩

theorem load_of_cut_brightFile : ∃ song, load brightFile.bytes.toArray = .ok song
    ∧ (∃ offset needed available, load (brightFile.bytes.toArray.extract 0 4)
      = .error (.truncated offset needed available))
    ∧ load (brightFile.bytes.toArray.extract 0 brightFile.storedSize ++ #[1, 2, 3]) = .ok song := by
  obtain ⟨song, hsong⟩ := wellFormed_brightFile.exists_load
  obtain ⟨-, hfile⟩ := load_of_cut hsong
  obtain ⟨hcut, hrest⟩ := hfile brightFile wellFormed_brightFile.toHasHeader rfl
  refine ⟨song, hsong, hcut 4 ?_, hrest #[1, 2, 3]⟩
  exact Nat.lt_of_lt_of_le (by decide : 4 < brightFile.header.bytes.length) (by
    rw [ModuleFile.storedSize, Nat.add_assoc]
    exact Nat.le_add_right _ _)

end Song
end AdLibModule
