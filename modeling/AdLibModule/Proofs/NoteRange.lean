import AdLibModule.Proofs.Fetch
import AdLibModule.Proofs.ModuleFile

/-! Which notes a song can have. The byte 255 stands for no note and becomes the note 127; every other
byte becomes the note of the same number. So the notes of a song lie in the range from 0 to 127 just
when no cell of its module stores a byte from 128 to 254. -/

namespace AdLibModule

/-- The note of an event whose first byte is `stored`. -/
def Event.noteOf (stored : UInt8) : UInt8 := if stored = storedNoNote then noNote else stored

theorem Event.noteOf_le_iff (stored : UInt8) : noteOf stored ≤ 127 ↔ stored ≤ 127 ∨ stored = 255 := by
  rw [noteOf]
  split_ifs with hnone
  · exact iff_of_true (by decide) (Or.inr hnone)
  · exact (or_iff_left hnone).symm

theorem Family.note_eventAt (family : Family) (block : Array UInt8) (offset : Nat) :
    (family.eventAt block offset).note = Event.noteOf (byteAt block offset) := by
  have hfirst : (block.extract offset (offset + family.eventSize)).getD 0 0 = byteAt block offset := by
    have hsize : 0 < family.eventSize := by cases family <;> decide
    rw [byteAt, Array.getD_eq_getD_getElem?, Array.getD_eq_getD_getElem?, Array.getElem?_extract,
      Nat.add_zero]
    split_ifs with hthere
    · rfl
    · rw [Array.getElem?_eq_none (by omega)]
  rw [← hfirst]
  rfl

theorem Grid.mem_cells_of_event? {grid : Grid} {pattern channel row : Nat} {event : Event}
    (h : grid.event? pattern channel row = some event) : event ∈ grid.cells := by
  rw [event?] at h
  split_ifs at h
  exact Array.mem_of_getElem? h

namespace ModuleFile

/-- The cells of the patterns that a module of the version has room for. -/
structure HasCell (file : ModuleFile) (pattern channel row : Nat) : Prop where
  pattern : pattern < file.version.family.patternSlots
  channel : channel < file.version.family.channels
  row : row < file.version.family.rows

/-- The block of the group of the pattern. -/
def groupOf (file : ModuleFile) (pattern : Nat) : BlockKind :=
  .patternGroup (pattern / file.version.family.patternsPerGroup)

/-- In the place of a note the file has this byte. -/
def StoresNote (file : ModuleFile) (pattern channel row : Nat) (stored : UInt8) : Prop :=
  ∃ block, file.Unpacks (file.groupOf pattern) block
    ∧ byteAt block (file.version.family.eventOffset
      (pattern % file.version.family.patternsPerGroup) channel row) = stored

/-- The note is the one that is stored, or 0 in a group that is absent. -/
def TellsNote (file : ModuleFile) (pattern channel row : Nat) (note : UInt8) : Prop :=
  (∃ stored, file.StoresNote pattern channel row stored ∧ note = Event.noteOf stored)
    ∨ file.Lacks (file.groupOf pattern) ∧ note = 0

variable {file : ModuleFile} {song : Song} {pattern channel row : Nat}

theorem Describes.exists_event (h : file.Describes song) (hcell : file.HasCell pattern channel row) :
    ∃ event, song.grid.event? pattern channel row = some event
      ∧ file.TellsNote pattern channel row event.note := by
  rcases h.events pattern channel row hcell.pattern hcell.channel hcell.row with
    ⟨block, hblock, hevent⟩ | ⟨hlacks, hevent⟩
  · exact ⟨_, hevent, Or.inl ⟨_, ⟨block, hblock, rfl⟩, Family.note_eventAt _ _ _⟩⟩
  · exact ⟨_, hevent, Or.inr ⟨hlacks, rfl⟩⟩

theorem Describes.exists_cell (h : file.Describes song) {event : Event}
    (hevent : event ∈ song.grid.cells) : ∃ pattern channel row, file.HasCell pattern channel row
      ∧ song.grid.event? pattern channel row = some event := by
  obtain ⟨pattern, channel, row, hpattern, hchannel, hrow, hsome⟩ := Grid.exists_event?_of_mem hevent
  rw [h.family] at hpattern hchannel hrow
  exact ⟨pattern, channel, row, ⟨hpattern, hchannel, hrow⟩, hsome⟩

theorem HasHeader.noteOf_of_storesNote (hfile : file.HasHeader) {stored note : UInt8}
    (hstores : file.StoresNote pattern channel row stored)
    (htells : file.TellsNote pattern channel row note) : note = Event.noteOf stored := by
  obtain ⟨block, hblock, rfl⟩ := hstores
  rcases htells with ⟨stored', ⟨block', hblock', rfl⟩, hnote⟩ | ⟨hlacks, -⟩
  · rw [hnote, hfile.eq_of_unpacks hblock' hblock]
  · exact absurd hlacks (hfile.not_lacks_of_unpacks hblock)

/-- The notes of the song keep the range just when the stored ones do. -/
theorem Describes.notes_le_iff (h : file.Describes song) (hfile : file.HasHeader) :
    (∀ event ∈ song.grid.cells, event.note ≤ 127) ↔
      ∀ pattern channel row stored, file.HasCell pattern channel row →
        file.StoresNote pattern channel row stored → stored ≤ 127 ∨ stored = 255 := by
  constructor
  · intro hall pattern channel row stored hcell hstores
    obtain ⟨event, hevent, htells⟩ := h.exists_event hcell
    rw [← Event.noteOf_le_iff, ← hfile.noteOf_of_storesNote hstores htells]
    exact hall event (Grid.mem_cells_of_event? hevent)
  · intro hall event hmem
    obtain ⟨pattern, channel, row, hcell, hevent⟩ := h.exists_cell hmem
    obtain ⟨found, hfound, htells⟩ := h.exists_event hcell
    obtain rfl : found = event := Option.some.inj (hfound.symm.trans hevent)
    rcases htells with ⟨stored, hstores, hnote⟩ | ⟨-, hnote⟩
    · rw [hnote, Event.noteOf_le_iff]
      exact hall pattern channel row stored hcell hstores
    · rw [hnote]
      decide

end ModuleFile

namespace Song

/-- Each note of a song is what its module stores for it, with 127 for 255. The notes keep the range
from 0 to 127 if the stored ones do, apart from 255, and only then. -/
theorem notes_of_load {data : Array UInt8} {song : Song} (h : load data = .ok song) :
    ∃ file : ModuleFile, file.WellFormed ∧ data.toList = file.bytes
      ∧ (∀ pattern channel row, file.HasCell pattern channel row →
        ∃ event, song.grid.event? pattern channel row = some event
          ∧ file.TellsNote pattern channel row event.note)
      ∧ ((∀ event ∈ song.grid.cells, event.note ≤ 127) ↔
        ∀ pattern channel row stored, file.HasCell pattern channel row →
          file.StoresNote pattern channel row stored → stored ≤ 127 ∨ stored = 255) := by
  obtain ⟨file, hfile, hdata, hdescribes⟩ := exists_describes_of_load h
  exact ⟨file, hfile, hdata, fun _ _ _ hcell => hdescribes.exists_event hcell,
    hdescribes.notes_le_iff hfile.toHasHeader⟩

/-- A tiny module of version 4 in which all bytes of the first group of patterns are 200. -/
def highFile : ModuleFile where
  header := ⟨.a2t, 0, 4, 1, 18, 6⟩
  version := .v4
  settings := {}
  blocks := [List.replicate 3250 0, List.replicate 128 0, List.replicate 36864 200, [], [], []]
  rest := []

theorem wellFormed_highFile : highFile.WellFormed := by
  have hlengths : highFile.blocks.map List.length = [3250, 128, 36864, 0, 0, 0] := by
    simp only [highFile, List.map_cons, List.map_nil, List.length_replicate, List.length_nil]
  refine ModuleFile.wellFormed_of_lengths hlengths rfl ?_ rfl (by decide) ⟨rfl, rfl, by decide⟩
    (by decide)
  intro hfull
  cases hfull

theorem storesNote_highFile : highFile.StoresNote 0 0 0 200 := by
  have hslot : (BlockKind.patternGroup 0, List.replicate 36864 200) ∈ highFile.slots :=
    List.mem_cons_of_mem _ (List.mem_cons_of_mem _ List.mem_cons_self)
  have hsize : 0 < (Array.replicate 36864 (200 : UInt8)).size := by
    rw [Array.size_replicate]
    decide
  refine ⟨_, ModuleFile.unpacks_of_raw rfl hslot List.length_replicate, ?_⟩
  rw [List.toArray_replicate]
  exact (byteAt_eq_getElem hsize).trans (Array.getElem_replicate _)

/-- The first note of this module is 200. -/
theorem notes_of_load_highFile : ∃ song, load highFile.bytes.toArray = .ok song
    ∧ (∃ event, song.grid.event? 0 0 0 = some event ∧ event.note = 200)
    ∧ ¬ ∀ event ∈ song.grid.cells, event.note ≤ 127 := by
  have hcell : highFile.HasCell 0 0 0 := ⟨by decide, by decide, by decide⟩
  obtain ⟨song, hload⟩ := wellFormed_highFile.exists_load
  obtain ⟨file, hfile, hdata, hevents, hrange⟩ := notes_of_load hload
  obtain rfl : highFile = file :=
    wellFormed_highFile.toHasHeader.eq_of_bytes_eq hfile.toHasHeader hdata
  obtain ⟨event, hevent, htells⟩ := hevents 0 0 0 hcell
  refine ⟨song, hload, ⟨event, hevent, ?_⟩, fun hall => ?_⟩
  · exact hfile.noteOf_of_storesNote storesNote_highFile htells
  · exact absurd (hrange.mp hall 0 0 0 200 hcell storesNote_highFile) (by decide)

/-- The notes of a song need not be in the range from 0 to 127. -/
theorem not_forall_note_le : ¬ ∀ (data : Array UInt8) (song : Song), load data = .ok song →
    ∀ event ∈ song.grid.cells, event.note ≤ 127 := by
  intro hall
  obtain ⟨song, hload⟩ := wellFormed_highFile.exists_load
  obtain ⟨hfile, hdescribes⟩ :=
    wellFormed_highFile.toHasHeader.describes_of_load List.toList_toArray hload
  have hrange := (hdescribes.notes_le_iff hfile.toHasHeader).mp (hall _ song hload) 0 0 0 200
    ⟨by decide, by decide, by decide⟩ storesNote_highFile
  exact absurd hrange (by decide)

end Song
end AdLibModule
