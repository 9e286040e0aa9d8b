import AdLibModule.Proofs.PatternGroup
import Mathlib

/-! Each byte of an unpacked group is one of the bytes of one cell. A group can therefore be put together
cell by cell, in any order and over whatever the buffer held before, and decoding gives each cell the
event of its own bytes. -/

namespace AdLibModule

/-- The buffer with bytes written over its own from an offset on, if it has room for them there. -/
def overwrite? (buffer : Array UInt8) (offset : Nat) (bytes : Array UInt8) : Option (Array UInt8) :=
  if offset + bytes.size ≤ buffer.size then
    some (buffer.extract 0 offset ++ bytes ++ buffer.extract (offset + bytes.size) buffer.size)
  else none

theorem exists_overwrite?_eq {buffer bytes : Array UInt8} {offset : Nat}
    (h : offset + bytes.size ≤ buffer.size) : ∃ written, overwrite? buffer offset bytes = some written
      ∧ written.size = buffer.size
      ∧ ∀ index : Nat, written[index]? = if offset ≤ index ∧ index < offset + bytes.size then
        bytes[index - offset]? else buffer[index]? := by
  refine ⟨_, if_pos h, ?_, fun index => ?_⟩
  · simp only [Array.size_append, Array.size_extract]
    omega
  · have hfront : (buffer.extract 0 offset).size = offset := by
      rw [Array.size_extract]
      omega
    rw [Array.getElem?_append, Array.getElem?_append, Array.size_append, hfront]
    rcases Nat.lt_or_ge index offset with hbefore | hbehind
    · rw [if_pos (by omega), if_pos hbefore, if_neg (by omega), Array.getElem?_extract,
        if_pos (by omega), Nat.zero_add]
    · by_cases hin : index < offset + bytes.size
      · rw [if_pos hin, if_neg (Nat.not_lt.mpr hbehind), if_pos ⟨hbehind, hin⟩]
      · rw [if_neg hin, if_neg fun hboth => hin hboth.2, Array.getElem?_extract, Nat.min_self,
          Nat.add_sub_cancel' (Nat.le_of_not_lt hin)]
        split_ifs with hend
        · rfl
        · rw [Array.getElem?_eq_none (by omega)]

namespace Cell

variable {family : Family}

/-! ### The bytes of a cell -/

/-- The place of the cell among those of a group in the order in which they are stored. -/
def storedIndex (family : Family) (cell : Cell) : Nat :=
  match family with
  | .classic => (cell.pattern * family.rows + cell.row) * family.channels + cell.channel
  | .opl3 | .extended => (cell.pattern * family.channels + cell.channel) * family.rows + cell.row

theorem offset_eq (family : Family) (cell : Cell) :
    cell.offset family = family.eventSize * cell.storedIndex family := by
  cases family <;> rfl

section InGroup

variable {cell other : Cell} {index : Nat}

theorem InGroup.eq_of_storedIndex_eq (h : cell.InGroup family) (hother : other.InGroup family)
    (heq : cell.storedIndex family = other.storedIndex family) : cell = other := by
  obtain ⟨pattern, channel, row⟩ := cell
  obtain ⟨pattern', channel', row'⟩ := other
  obtain ⟨hpattern, hchannel, hrow⟩ := h
  obtain ⟨hpattern', hchannel', hrow'⟩ := hother
  rw [mk.injEq]
  cases family <;> simp only [storedIndex, Family.channels, Family.rows] at * <;> omega

theorem exists_storedIndex_eq (h : index < family.groupCells) :
    ∃ cell : Cell, cell.InGroup family ∧ cell.storedIndex family = index := by
  cases family with
  | classic =>
      refine ⟨⟨index / (64 * 9), index % 9, index / 9 % 64⟩, ⟨?_, ?_, ?_⟩, ?_⟩ <;>
        simp only [storedIndex, Family.groupCells, Family.patternsPerGroup, Family.patternCells,
          Family.channels, Family.rows] at * <;> omega
  | opl3 => exact exists_index_eq h
  | extended => exact exists_index_eq h

/-- The byte at the index is one of the cell's. -/
def Owns (family : Family) (cell : Cell) (index : Nat) : Prop :=
  cell.offset family ≤ index ∧ index < cell.offset family + family.eventSize

instance (family : Family) (cell : Cell) (index : Nat) : Decidable (cell.Owns family index) :=
  inferInstanceAs (Decidable (_ ∧ _))

theorem owns_iff : cell.Owns family index ↔ cell.storedIndex family = index / family.eventSize := by
  rw [Owns, offset_eq]
  generalize cell.storedIndex family = place
  cases family <;> simp only [Family.eventSize] <;> omega

theorem InGroup.eq_of_owns (h : cell.InGroup family) (hother : other.InGroup family)
    (howns : cell.Owns family index) (howns' : other.Owns family index) : cell = other :=
  h.eq_of_storedIndex_eq hother ((owns_iff.mp howns).trans (owns_iff.mp howns').symm)

theorem exists_owns (h : index < family.groupSize) :
    ∃ cell : Cell, cell.InGroup family ∧ cell.Owns family index := by
  have hcell : index / family.eventSize < family.groupCells := by
    rw [Family.groupSize, Nat.mul_comm] at h
    exact Nat.div_lt_of_lt_mul h
  obtain ⟨cell, hcell, hplace⟩ := exists_storedIndex_eq hcell
  exact ⟨cell, hcell, owns_iff.mpr hplace⟩

theorem InGroup.offset_add_le (h : cell.InGroup family) :
    cell.offset family + family.eventSize ≤ family.groupSize := by
  rw [← h.cellOffset_index]
  exact family.cellOffset_add_le h.index_lt

end InGroup

/-- These are the cells of a group, each of them once. -/
structure Enumerates (family : Family) (cells : List Cell) : Prop where
  nodup : cells.Nodup
  mem_iff : ∀ cell : Cell, cell ∈ cells ↔ cell.InGroup family

/-- The cells of a group in the order in which they are decoded. -/
def all (family : Family) : List Cell :=
  (List.range family.groupCells).map fun index =>
    ⟨index / family.patternCells, index / family.rows % family.channels, index % family.rows⟩

theorem InGroup.eq_of_index_eq {cell other : Cell} (h : cell.InGroup family)
    (hother : other.InGroup family) (heq : cell.index family = other.index family) : cell = other := by
  by_contra hne
  rcases Before.total hne with hbefore | hbefore
  · exact absurd heq (Nat.ne_of_lt ((before_iff h hother).mp hbefore))
  · exact absurd heq.symm (Nat.ne_of_lt ((before_iff hother h).mp hbefore))

theorem map_index_all (family : Family) :
    (all family).map (index family) = List.range family.groupCells := by
  rw [all, List.map_map]
  refine List.map_id'' (fun place => ?_) _
  cases family <;>
    simp only [Function.comp_apply, index, Family.cellIndex, Family.patternCells, Family.channels,
      Family.rows] <;> omega

theorem enumerates_all (family : Family) : Enumerates family (all family) := by
  have hinGroup : ∀ cell ∈ all family, cell.InGroup family := by
    intro cell hcell
    obtain ⟨place, hplace, rfl⟩ := List.mem_map.mp hcell
    rw [List.mem_range] at hplace
    cases family <;> constructor <;>
      simp only [Family.groupCells, Family.patternsPerGroup, Family.patternCells, Family.channels,
        Family.rows] at * <;> omega
  refine ⟨List.Nodup.of_map (index family) ?_, fun cell => ⟨hinGroup cell, fun hcell => ?_⟩⟩
  · rw [map_index_all]
    exact List.nodup_range
  · have hplace : cell.index family ∈ (all family).map (index family) := by
      rw [map_index_all]
      exact List.mem_range.mpr hcell.index_lt
    obtain ⟨other, hother, heq⟩ := List.mem_map.mp hplace
    obtain rfl := (hinGroup other hother).eq_of_index_eq hcell heq
    exact hother

theorem Enumerates.of_perm {cells others : List Cell} (h : Enumerates family cells)
    (hperm : others.Perm cells) : Enumerates family others where
  nodup := hperm.nodup_iff.mpr h.nodup
  mem_iff cell := hperm.mem_iff.trans (h.mem_iff cell)

/-- Each byte of a group is written by one of the cells. -/
theorem Enumerates.countP_owns {cells : List Cell} (h : Enumerates family cells) {index : Nat}
    (hindex : index < family.groupSize) : cells.countP (fun cell => cell.Owns family index) = 1 := by
  obtain ⟨owner, howner, howns⟩ := exists_owns hindex
  have hsame : ∀ cell ∈ cells, decide (cell.Owns family index) = true ↔ (cell == owner) = true := by
    intro cell hcell
    rw [decide_eq_true_iff, beq_iff_eq]
    constructor
    · exact fun hcellOwns => ((h.mem_iff cell).mp hcell).eq_of_owns howner hcellOwns howns
    · rintro rfl
      exact howns
  rw [List.countP_congr hsame]
  exact List.count_eq_one_of_mem h.nodup ((h.mem_iff owner).mpr howner)

/-! ### Putting a group together -/

section Writing

variable (stored : Cell → Vector UInt8 family.eventSize)

/-- The buffer after the bytes of the cells were written into it, one cell after the other. -/
def overwriteAll? : List Cell → Array UInt8 → Option (Array UInt8)
  | [], buffer => some buffer
  | cell :: cells, buffer =>
    (overwrite? buffer (cell.offset family) (stored cell).toArray).bind (overwriteAll? cells)

/-- The buffer has the bytes of the cell in their place. -/
def StoredIn (buffer : Array UInt8) (cell : Cell) : Prop :=
  ∀ index, cell.Owns family index → buffer[index]? = (stored cell)[index - cell.offset family]?

variable {stored} {buffer : Array UInt8}

/-- A cell is written without touching the bytes of any other. -/
theorem InGroup.exists_overwrite?_eq {cell : Cell} (hcell : cell.InGroup family)
    (hbuffer : buffer.size = family.groupSize) :
    ∃ written, overwrite? buffer (cell.offset family) (stored cell).toArray = some written
      ∧ written.size = family.groupSize
      ∧ ∀ other : Cell, other.InGroup family → other = cell ∨ StoredIn stored buffer other →
        StoredIn stored written other := by
  have hfits : cell.offset family + (stored cell).toArray.size ≤ buffer.size := by
    rw [Vector.size_toArray, hbuffer]
    exact hcell.offset_add_le
  obtain ⟨written, hwritten, hsize, hbytes⟩ := AdLibModule.exists_overwrite?_eq hfits
  refine ⟨written, hwritten, hsize.trans hbuffer, fun other hother hstored index howns => ?_⟩
  rw [hbytes, Vector.size_toArray, Vector.getElem?_toArray]
  by_cases hcellOwns : cell.Owns family index
  · obtain rfl := hother.eq_of_owns hcell howns hcellOwns
    exact if_pos howns
  · rcases hstored with rfl | hstored
    · exact absurd howns hcellOwns
    · exact (if_neg hcellOwns).trans (hstored index howns)

/-- After all cells of a list were written, each of them is in its place. -/
theorem exists_overwriteAll?_eq {cells : List Cell} (hcells : ∀ cell ∈ cells, cell.InGroup family)
    (hbuffer : buffer.size = family.groupSize) :
    ∃ filled, overwriteAll? stored cells buffer = some filled ∧ filled.size = family.groupSize
      ∧ ∀ cell : Cell, cell.InGroup family → cell ∈ cells ∨ StoredIn stored buffer cell →
        StoredIn stored filled cell := by
  induction cells generalizing buffer with
  | nil => exact ⟨buffer, rfl, hbuffer, fun cell _ h => h.resolve_left List.not_mem_nil⟩
  | cons cell cells ih =>
      obtain ⟨written, hwritten, hsize, hcell⟩ :=
        @InGroup.exists_overwrite?_eq _ stored buffer cell (hcells cell List.mem_cons_self) hbuffer
      obtain ⟨filled, hfilled, hsize, hrest⟩ :=
        ih (fun other hother => hcells other (List.mem_cons_of_mem _ hother)) hsize
      refine ⟨filled, ?_, hsize, fun other hother hstored => hrest other hother ?_⟩
      · rw [overwriteAll?, hwritten]
        exact hfilled
      · rw [List.mem_cons, or_assoc] at hstored
        rcases hstored with rfl | hlater | hstored
        · exact Or.inr (hcell other hother (Or.inl rfl))
        · exact Or.inl hlater
        · exact Or.inr (hcell other hother (Or.inr hstored))

/-- The bytes of its cells are all of a group. -/
theorem eq_of_storedIn {buffer' : Array UInt8} (hsize : buffer.size = family.groupSize)
    (hsize' : buffer'.size = family.groupSize)
    (h : ∀ cell : Cell, cell.InGroup family → StoredIn stored buffer cell)
    (h' : ∀ cell : Cell, cell.InGroup family → StoredIn stored buffer' cell) : buffer = buffer' := by
  refine Array.ext_getElem? fun index => ?_
  rcases Nat.lt_or_ge index family.groupSize with hindex | hindex
  · obtain ⟨cell, hcell, howns⟩ := exists_owns hindex
    rw [h cell hcell index howns, h' cell hcell index howns]
  · rw [Array.getElem?_eq_none (hsize ▸ hindex), Array.getElem?_eq_none (hsize' ▸ hindex)]

theorem StoredIn.eventAt_eq {cell : Cell} (h : StoredIn stored buffer cell) (hcell : cell.InGroup family)
    (hsize : buffer.size = family.groupSize) :
    family.eventAt buffer (cell.offset family) = Event.ofBytes family (stored cell).toArray := by
  have hend := hcell.offset_add_le
  refine congrArg (Event.ofBytes family) (Array.ext_getElem? fun place => ?_)
  rw [Array.getElem?_extract, hsize, Nat.min_eq_left hend, Nat.add_sub_cancel_left,
    Vector.getElem?_toArray]
  split_ifs with hplace
  · rw [h _ ⟨Nat.le_add_right _ _, Nat.add_lt_add_left hplace _⟩, Nat.add_sub_cancel_left]
  · rw [Vector.getElem?_eq_none (Nat.le_of_not_lt hplace)]

end Writing

/-- A group is put together from the bytes of its cells. Each byte of the buffer is written once, so
that neither the order of the cells nor what the buffer held before matters, and decoding the group
gives each cell the event of its bytes. -/
theorem exists_group_of_cells (family : Family) (stored : Cell → Vector UInt8 family.eventSize) :
    (∀ cells, Enumerates family cells → ∀ index < family.groupSize,
      cells.countP (fun cell => cell.Owns family index) = 1)
    ∧ ∃ block : Array UInt8, block.size = family.groupSize
      ∧ (∀ cells, Enumerates family cells → ∀ buffer : Array UInt8, buffer.size = family.groupSize →
        overwriteAll? stored cells buffer = some block)
      ∧ ∀ (grid : Grid) (group : Nat), grid.family = family → group < family.groups →
        ∃ filled : Grid, grid.decodeGroup group block = (.ok (), filled)
          ∧ ∀ cell : Cell, cell.InGroup family →
            filled.event? (group * family.patternsPerGroup + cell.pattern) cell.channel cell.row
              = some (Event.ofBytes family (stored cell).toArray) := by
  have hwritten : ∀ cells, Enumerates family cells → ∀ buffer : Array UInt8,
      buffer.size = family.groupSize → ∃ filled, overwriteAll? stored cells buffer = some filled
        ∧ filled.size = family.groupSize
        ∧ ∀ cell : Cell, cell.InGroup family → StoredIn stored filled cell := by
    intro cells hcells buffer hbuffer
    obtain ⟨filled, hfilled, hsize, hstored⟩ := @exists_overwriteAll?_eq _ stored buffer cells
      (fun cell => (hcells.mem_iff cell).mp) hbuffer
    exact ⟨filled, hfilled, hsize, fun cell hcell =>
      hstored cell hcell (Or.inl ((hcells.mem_iff cell).mpr hcell))⟩
  obtain ⟨block, -, hsize, hstored⟩ := hwritten _ (enumerates_all family)
    (Array.replicate family.groupSize 0) Array.size_replicate
  refine ⟨fun cells hcells index => hcells.countP_owns, block, hsize, ?_, ?_⟩
  · intro cells hcells buffer hbuffer
    obtain ⟨filled, hfilled, hsize', hstored'⟩ := hwritten cells hcells buffer hbuffer
    rw [hfilled, eq_of_storedIn hsize' hsize hstored' hstored]
  · rintro grid group rfl hgroup
    obtain ⟨filled, hfilled, -, hevents, -⟩ :=
      Grid.exists_decodeGroup_eq (Nat.le_of_eq hsize.symm) hgroup
    refine ⟨filled, hfilled, fun cell hcell => ?_⟩
    have hpattern : (group * grid.family.patternsPerGroup + cell.pattern)
        / grid.family.patternsPerGroup = group := by
      rw [Nat.mul_comm, Nat.mul_add_div (Nat.zero_lt_of_lt hcell.pattern),
        Nat.div_eq_of_lt hcell.pattern, Nat.add_zero]
    rw [hevents _ _ _ hpattern hcell.channel hcell.row, Nat.mul_add_mod',
      Nat.mod_eq_of_lt hcell.pattern]
    exact congrArg some ((hstored cell hcell).eventAt_eq hcell hsize)

/-- Cells that ask for a key off, each with its channel as the note and its row as the instrument. -/
def keyOffs (cell : Cell) : Vector UInt8 Family.classic.eventSize :=
  #v[cell.channel.toUInt8, cell.row.toUInt8, 15, 0xf0]

theorem exists_group_of_keyOffs : ∃ block : Array UInt8,
    Enumerates .classic (all .classic) ∧ Enumerates .classic (all .classic).reverse
      ∧ overwriteAll? keyOffs (all .classic) (Array.replicate 36864 0) = some block
      ∧ overwriteAll? keyOffs (all .classic).reverse (Array.replicate 36864 255) = some block
      ∧ ∃ filled : Grid, (Grid.empty .classic).decodeGroup 1 block = (.ok (), filled)
        ∧ filled.event? 18 7 5 = some ⟨7, 5, 8, 0, 0, ⟨0, 0⟩⟩ := by
  have hforwards := enumerates_all .classic
  have hbackwards := hforwards.of_perm (all .classic).reverse_perm
  obtain ⟨-, block, -, hblock, hdecode⟩ := exists_group_of_cells .classic keyOffs
  obtain ⟨filled, hfilled, hevents⟩ := hdecode (Grid.empty .classic) 1 rfl (by decide)
  refine ⟨block, hforwards, hbackwards, hblock _ hforwards _ Array.size_replicate,
    hblock _ hbackwards _ Array.size_replicate, filled, hfilled, ?_⟩
  exact (hevents ⟨2, 7, 5⟩ ⟨by decide, by decide, by decide⟩).trans (by decide)

end Cell
end AdLibModule
