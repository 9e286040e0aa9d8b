import AdLibModule.Grid

/-! Decoding a group of patterns fills in the events of these patterns, each from its own bytes, and
leaves all others as they were. -/

namespace AdLibModule

namespace Family

/-- The place of an event among all events. -/
def cellIndex (family : Family) (pattern channel row : Nat) : Nat :=
  (pattern * family.channels + channel) * family.rows + row

theorem cellOffset_add_le (family : Family) {cell : Nat} (h : cell < family.groupCells) :
    family.cellOffset cell + family.eventSize ≤ family.groupSize := by
  cases family <;>
    simp only [groupCells, groupSize, patternsPerGroup, patternCells, channels, rows, eventSize,
      cellOffset, eventOffset] at h ⊢ <;> omega

theorem patternSlots_mul_patternCells (family : Family) :
    family.patternSlots * family.patternCells = family.groups * family.groupCells := by
  cases family <;> rfl

variable {family : Family} {pattern channel row : Nat}

/-- The cells of a group lie together, in the order in which they are decoded. -/
theorem cellIndex_eq_add {group : Nat} (hpattern : pattern / family.patternsPerGroup = group) :
    family.cellIndex pattern channel row = group * family.groupCells
      + family.cellIndex (pattern - group * family.patternsPerGroup) channel row := by
  cases family <;>
    simp only [groupCells, patternsPerGroup, patternCells, channels, rows, cellIndex] at * <;> omega

theorem cellIndex_in_group_iff (hchannel : channel < family.channels) (hrow : row < family.rows)
    (group : Nat) : (group * family.groupCells ≤ family.cellIndex pattern channel row
      ∧ family.cellIndex pattern channel row < group * family.groupCells + family.groupCells)
        ↔ pattern / family.patternsPerGroup = group := by
  cases family <;>
    simp only [groupCells, patternsPerGroup, patternCells, channels, rows, cellIndex] at * <;> omega

theorem cellIndex_lt (hpattern : pattern < family.patternsPerGroup)
    (hchannel : channel < family.channels) (hrow : row < family.rows) :
    family.cellIndex pattern channel row < family.groupCells := by
  cases family <;>
    simp only [groupCells, patternsPerGroup, patternCells, channels, rows, cellIndex] at * <;> omega

theorem cellOffset_cellIndex (hchannel : channel < family.channels) (hrow : row < family.rows) :
    family.cellOffset (family.cellIndex pattern channel row)
      = family.eventOffset pattern channel row := by
  cases family <;>
    simp only [patternCells, channels, rows, eventSize, cellIndex, cellOffset, eventOffset] at * <;>
    omega

theorem sub_lt_patternsPerGroup {group : Nat} (hpattern : pattern / family.patternsPerGroup = group) :
    pattern - group * family.patternsPerGroup < family.patternsPerGroup := by
  cases family <;> simp only [patternsPerGroup] at * <;> omega

/-- Every place among the events of some patterns is that of a channel and a row of one of them. -/
theorem exists_cellIndex_eq (family : Family) {patterns index : Nat}
    (h : index < patterns * family.patternCells) :
    ∃ pattern channel row, pattern < patterns ∧ channel < family.channels
      ∧ row < family.rows ∧ family.cellIndex pattern channel row = index := by
  refine ⟨index / family.patternCells, index / family.rows % family.channels, index % family.rows,
    ?_⟩
  cases family <;> simp only [patternCells, channels, rows, cellIndex] at * <;> omega

/-- The event whose bytes begin at an offset of a block. -/
def eventAt (family : Family) (block : Array UInt8) (offset : Nat) : Event :=
  Event.ofBytes family (block.extract offset (offset + family.eventSize))

/-- Blocks that begin alike hold the same events as far as they do. -/
theorem eventAt_congr (family : Family) {block block' : Array UInt8} {offset size : Nat}
    (hoffset : offset + family.eventSize ≤ size) (h : block.extract 0 size = block'.extract 0 size) :
    family.eventAt block offset = family.eventAt block' offset := by
  have hpart : ∀ bytes : Array UInt8, bytes.extract offset (offset + family.eventSize)
      = (bytes.extract 0 size).extract offset (offset + family.eventSize) := fun bytes => by
    rw [Array.extract_extract, Nat.zero_add, Nat.zero_add, Nat.min_eq_left hoffset]
  rw [eventAt, eventAt, hpart block, hpart block', h]

end Family

namespace Grid

/-- The grid with the first cells of a group, `count` of them, decoded from the block. -/
def fill (grid : Grid) (group : Nat) (block : Array UInt8) (count : Nat) : Grid where
  family := grid.family
  cells := grid.cells.mapIdx fun index event =>
    if group * grid.family.groupCells ≤ index ∧ index < group * grid.family.groupCells + count then
      grid.family.eventAt block
        (grid.family.cellOffset (index - group * grid.family.groupCells))
    else event
  size_cells := by rw [Array.size_mapIdx, grid.size_cells]

theorem getElem?_fill (grid : Grid) (group : Nat) (block : Array UInt8) (count index : Nat) :
    (grid.fill group block count).cells[index]? = grid.cells[index]?.map fun event =>
      if group * grid.family.groupCells ≤ index ∧ index < group * grid.family.groupCells + count then
        grid.family.eventAt block
          (grid.family.cellOffset (index - group * grid.family.groupCells))
      else event :=
  Array.getElem?_mapIdx

theorem eq_of_cells_eq {grid grid' : Grid} (hfamily : grid.family = grid'.family)
    (hcells : ∀ index : Nat, grid.cells[index]? = grid'.cells[index]?) : grid = grid' := by
  obtain ⟨family, cells, hsize⟩ := grid
  obtain ⟨family', cells', hsize'⟩ := grid'
  obtain rfl : family = family' := hfamily
  obtain rfl : cells = cells' := Array.ext_getElem? hcells
  rfl

theorem fill_zero (grid : Grid) (group : Nat) (block : Array UInt8) :
    grid.fill group block 0 = grid := by
  refine eq_of_cells_eq rfl fun index => ?_
  rw [getElem?_fill]
  have hnone : ¬ (group * grid.family.groupCells ≤ index
      ∧ index < group * grid.family.groupCells + 0) := by omega
  simp only [if_neg hnone, Option.map_id']

theorem set_fill (grid : Grid) (group : Nat) (block : Array UInt8) (count : Nat) :
    (grid.fill group block count).set (group * grid.family.groupCells + count)
        (grid.family.eventAt block (grid.family.cellOffset count))
      = grid.fill group block (count + 1) := by
  refine eq_of_cells_eq rfl fun index => ?_
  have hsize : (grid.fill group block count).cells.size = grid.cells.size := Array.size_mapIdx
  rw [set, Array.getElem?_setIfInBounds, getElem?_fill, getElem?_fill, hsize]
  by_cases hindex : group * grid.family.groupCells + count = index
  · subst hindex
    rw [if_pos rfl]
    split
    · rename_i hlt
      rw [Array.getElem?_eq_getElem hlt, Option.map_some, if_pos (by omega), Nat.add_sub_cancel_left]
    · rename_i hge
      rw [Array.getElem?_eq_none (Nat.le_of_not_lt hge), Option.map_none]
  · have hiff : (group * grid.family.groupCells ≤ index
        ∧ index < group * grid.family.groupCells + count)
          ↔ (group * grid.family.groupCells ≤ index
        ∧ index < group * grid.family.groupCells + (count + 1)) := by omega
    simp only [if_neg hindex, hiff]

section Fill

variable {grid : Grid} {group count : Nat} {block block' : Array UInt8}

/-- The block matters only as far as the bytes of a group reach. -/
theorem fill_congr (hcount : count ≤ grid.family.groupCells)
    (h : block.extract 0 grid.family.groupSize = block'.extract 0 grid.family.groupSize) :
    grid.fill group block count = grid.fill group block' count := by
  refine eq_of_cells_eq rfl fun index => ?_
  rw [getElem?_fill, getElem?_fill]
  refine congrArg (Option.map · grid.cells[index]?) (funext fun event => ?_)
  refine ite_congr rfl (fun hin => ?_) fun _ => rfl
  have hcell : index - group * grid.family.groupCells < grid.family.groupCells := by omega
  exact grid.family.eventAt_congr (grid.family.cellOffset_add_le hcell) h

/-- What is decoded later replaces what was decoded before. -/
theorem fill_fill (count : Nat) :
    (grid.fill group block count).fill group block' count = grid.fill group block' count := by
  refine eq_of_cells_eq rfl fun index => ?_
  rw [getElem?_fill, getElem?_fill, getElem?_fill, Option.map_map]
  refine congrArg (Option.map · grid.cells[index]?) (funext fun event => ?_)
  exact ite_congr rfl (fun _ => rfl) fun hout => if_neg hout

/-- The cells of different groups are different cells, so that in either order each comes from its own
block. -/
theorem fill_comm {other : Nat} (hother : group ≠ other) (block' : Array UInt8) :
    (grid.fill group block grid.family.groupCells).fill other block' grid.family.groupCells
      = (grid.fill other block' grid.family.groupCells).fill group block grid.family.groupCells := by
  refine eq_of_cells_eq rfl fun index => ?_
  rw [getElem?_fill, getElem?_fill, getElem?_fill, getElem?_fill, Option.map_map, Option.map_map]
  refine congrArg (Option.map · grid.cells[index]?) (funext fun event => ?_)
  by_cases hin : group * grid.family.groupCells ≤ index
      ∧ index < group * grid.family.groupCells + grid.family.groupCells
  · have hout : ¬ (other * grid.family.groupCells ≤ index
        ∧ index < other * grid.family.groupCells + grid.family.groupCells) := by
      rcases Nat.lt_or_gt_of_ne hother with hlt | hlt
      all_goals
        have hroom := Nat.mul_le_mul_right grid.family.groupCells (Nat.succ_le_of_lt hlt)
        rw [Nat.succ_mul] at hroom
        omega
    exact (if_neg hout).trans ((if_pos hin).trans (if_pos hin).symm)
  · exact (ite_congr rfl (fun _ => rfl) fun _ => if_neg hin).trans (if_neg hin).symm

end Fill

section Decode

variable {grid : Grid} {group : Nat} {block : Array UInt8}

/-- A cell that the block holds is decoded. -/
theorem decodeCells_of_held {left cell : Nat} (hcell : grid.family.groupCells - (left + 1) = cell)
    (hheld : grid.family.cellOffset cell + grid.family.eventSize ≤ block.size) :
    decodeCells group block (left + 1) grid = decodeCells group block left
      (grid.set (group * grid.family.groupCells + cell)
        (grid.family.eventAt block (grid.family.cellOffset cell))) := by
  have hpeek : (Cursor.start block).peekAt (grid.family.cellOffset cell) grid.family.eventSize
      = .ok (block.extract (grid.family.cellOffset cell)
        (grid.family.cellOffset cell + grid.family.eventSize)) := if_pos hheld
  rw [decodeCells]
  simp only [hcell, hpeek]
  rfl

/-- At a cell that the block does not hold, decoding ends. -/
theorem decodeCells_of_missing {left cell : Nat} (hcell : grid.family.groupCells - (left + 1) = cell)
    (hmissing : block.size < grid.family.cellOffset cell + grid.family.eventSize) :
    decodeCells group block (left + 1) grid
      = (.error (.truncated (grid.family.cellOffset cell) grid.family.eventSize
        (block.size - grid.family.cellOffset cell)), grid) := by
  have hpeek : (Cursor.start block).peekAt (grid.family.cellOffset cell) grid.family.eventSize
      = .error (.truncated (grid.family.cellOffset cell) grid.family.eventSize
        (block.size - grid.family.cellOffset cell)) := if_neg (Nat.not_le.mpr hmissing)
  rw [decodeCells]
  simp only [hcell, hpeek]

/-- As long as the block holds them, the cells of the group are decoded one after the other. -/
theorem decodeGroup_eq_decodeCells {count left : Nat}
    (hcount : count + left = grid.family.groupCells)
    (hheld : ∀ cell < count, grid.family.cellOffset cell + grid.family.eventSize ≤ block.size) :
    grid.decodeGroup group block = decodeCells group block left (grid.fill group block count) := by
  induction count generalizing left with
  | zero => rw [fill_zero, decodeGroup, ← hcount, Nat.zero_add]
  | succ count ih =>
      have hcell : grid.family.groupCells - (left + 1) = count := by omega
      have hstep : decodeCells group block (left + 1) (grid.fill group block count)
          = decodeCells group block left ((grid.fill group block count).set
            (group * grid.family.groupCells + count)
            (grid.family.eventAt block (grid.family.cellOffset count))) :=
        decodeCells_of_held hcell (hheld count (Nat.lt_succ_self count))
      rw [@ih (left + 1) (by omega) fun cell hcell => hheld cell (Nat.lt_succ_of_lt hcell), hstep,
        set_fill]

theorem decodeGroup_eq_fill (hblock : grid.family.groupSize ≤ block.size) :
    grid.decodeGroup group block = (.ok (), grid.fill group block grid.family.groupCells) := by
  refine decodeGroup_eq_decodeCells (Nat.add_zero _) fun cell hcell => ?_
  exact Nat.le_trans (grid.family.cellOffset_add_le hcell) hblock

/-- Of a block that is too short, the cells before the first one that it does not hold are decoded. -/
theorem decodeGroup_eq_error {count : Nat} (hcount : count < grid.family.groupCells)
    (hheld : ∀ cell < count, grid.family.cellOffset cell + grid.family.eventSize ≤ block.size)
    (hmissing : block.size < grid.family.cellOffset count + grid.family.eventSize) :
    grid.decodeGroup group block = (.error (.truncated (grid.family.cellOffset count)
      grid.family.eventSize (block.size - grid.family.cellOffset count)),
        grid.fill group block count) := by
  obtain ⟨left, hleft⟩ := Nat.exists_eq_add_of_lt hcount
  have hcell : (grid.fill group block count).family.groupCells - (left + 1) = count := by
    show grid.family.groupCells - (left + 1) = count
    omega
  rw [decodeGroup_eq_decodeCells (by omega : count + (left + 1) = _) hheld]
  exact decodeCells_of_missing hcell hmissing

end Decode

theorem event?_eq_getElem? {grid : Grid} {pattern channel row : Nat}
    (hchannel : channel < grid.channels) (hrow : row < grid.rows) :
    grid.event? pattern channel row = grid.cells[grid.family.cellIndex pattern channel row]? := by
  rw [event?, if_pos ⟨hchannel, hrow⟩]
  rfl

theorem exists_event?_of_mem {grid : Grid} {event : Event} (h : event ∈ grid.cells) :
    ∃ pattern channel row, pattern < grid.family.patternSlots ∧ channel < grid.family.channels
      ∧ row < grid.family.rows ∧ grid.event? pattern channel row = some event := by
  obtain ⟨index, hindex, rfl⟩ := Array.mem_iff_getElem.mp h
  obtain ⟨pattern, channel, row, hpattern, hchannel, hrow, rfl⟩ :=
    grid.family.exists_cellIndex_eq (grid.size_cells ▸ hindex)
  refine ⟨pattern, channel, row, hpattern, hchannel, hrow, ?_⟩
  rw [event?_eq_getElem? hchannel hrow, Array.getElem?_eq_getElem hindex]

theorem event?_eq_none {grid : Grid} {pattern channel row : Nat}
    (h : ¬ (channel < grid.channels ∧ row < grid.rows)) : grid.event? pattern channel row = none :=
  if_neg h

/-- Two grids in which the same happens are the same. -/
theorem eq_of_event?_eq {grid grid' : Grid} (hfamily : grid.family = grid'.family)
    (h : ∀ pattern channel row, pattern < grid.family.patternSlots →
      channel < grid.family.channels → row < grid.family.rows →
      grid.event? pattern channel row = grid'.event? pattern channel row) : grid = grid' := by
  refine eq_of_cells_eq hfamily fun index => ?_
  by_cases hindex : index < grid.family.patternSlots * grid.family.patternCells
  · obtain ⟨pattern, channel, row, hpattern, hchannel, hrow, rfl⟩ :=
      grid.family.exists_cellIndex_eq hindex
    have hevent := h pattern channel row hpattern hchannel hrow
    rw [event?_eq_getElem? hchannel hrow] at hevent
    rw [hfamily] at hchannel hrow
    rw [hevent, event?_eq_getElem? hchannel hrow, hfamily]
  · have hend : grid.cells.size ≤ index := grid.size_cells ▸ Nat.le_of_not_lt hindex
    have hend' : grid'.cells.size ≤ index := by
      rw [grid'.size_cells, ← hfamily]
      exact Nat.le_of_not_lt hindex
    rw [Array.getElem?_eq_none hend, Array.getElem?_eq_none hend']

/-- The events of the group come from the block as far as it was decoded, and all others stay. -/
theorem event?_fill {grid : Grid} {group count : Nat} {block : Array UInt8}
    (hgroup : group < grid.family.groups) (hcount : count ≤ grid.family.groupCells)
    (pattern channel row : Nat) :
    (grid.fill group block count).event? pattern channel row =
      if pattern / grid.family.patternsPerGroup = group ∧ channel < grid.family.channels
          ∧ row < grid.family.rows
          ∧ grid.family.cellIndex (pattern - group * grid.family.patternsPerGroup) channel row < count
      then some (grid.family.eventAt block
        (grid.family.eventOffset (pattern - group * grid.family.patternsPerGroup) channel row))
      else grid.event? pattern channel row := by
  by_cases hbounds : channel < grid.family.channels ∧ row < grid.family.rows
  case neg =>
    have hbefore : grid.event? pattern channel row = none := event?_eq_none hbounds
    rw [if_neg fun h => hbounds ⟨h.2.1, h.2.2.1⟩, hbefore]
    exact event?_eq_none hbounds
  obtain ⟨hchannel, hrow⟩ := hbounds
  have hfill : (grid.fill group block count).event? pattern channel row
      = (grid.fill group block count).cells[grid.family.cellIndex pattern channel row]? :=
    event?_eq_getElem? hchannel hrow
  rw [hfill, getElem?_fill, event?_eq_getElem? hchannel hrow]
  by_cases hpattern : pattern / grid.family.patternsPerGroup = group
  · have hindex := @grid.family.cellIndex_eq_add pattern channel row group hpattern
    have hsize : grid.family.cellIndex pattern channel row < grid.cells.size := by
      have hlt := grid.family.cellIndex_lt (grid.family.sub_lt_patternsPerGroup hpattern) hchannel hrow
      have hroom := Nat.mul_le_mul_right grid.family.groupCells (Nat.succ_le_of_lt hgroup)
      rw [grid.size_cells, Family.patternSlots_mul_patternCells, hindex]
      rw [Nat.succ_mul] at hroom
      omega
    rw [Array.getElem?_eq_getElem hsize, Option.map_some]
    simp only [hindex, Nat.le_add_right, true_and, Nat.add_lt_add_iff_left, Nat.add_sub_cancel_left,
      Family.cellOffset_cellIndex hchannel hrow, hpattern, hchannel, hrow]
    split <;> rfl
  · have hout : ¬ (group * grid.family.groupCells ≤ grid.family.cellIndex pattern channel row
        ∧ grid.family.cellIndex pattern channel row < group * grid.family.groupCells + count) :=
      fun h => hpattern ((grid.family.cellIndex_in_group_iff hchannel hrow group).mp
        ⟨h.1, Nat.lt_of_lt_of_le h.2 (Nat.add_le_add_left hcount _)⟩)
    rw [if_neg fun h => hpattern h.1]
    simp only [if_neg hout, Option.map_id']

/-- The events of the group come from the block, and all others stay. -/
theorem event?_fill_groupCells {grid : Grid} {group : Nat} {block : Array UInt8}
    (hgroup : group < grid.family.groups) (pattern channel row : Nat) :
    (grid.fill group block grid.family.groupCells).event? pattern channel row =
      if pattern / grid.family.patternsPerGroup = group ∧ channel < grid.family.channels
          ∧ row < grid.family.rows
      then some (grid.family.eventAt block
        (grid.family.eventOffset (pattern - group * grid.family.patternsPerGroup) channel row))
      else grid.event? pattern channel row := by
  rw [event?_fill hgroup (Nat.le_refl _)]
  refine ite_congr (propext ⟨fun h => ⟨h.1, h.2.1, h.2.2.1⟩, fun h => ⟨h.1, h.2.1, h.2.2, ?_⟩⟩)
    (fun _ => rfl) fun _ => rfl
  exact Family.cellIndex_lt (Family.sub_lt_patternsPerGroup h.1) h.2.1 h.2.2

theorem exists_decodeGroup_eq {group : Nat} {block : Array UInt8} {grid : Grid}
    (hblock : grid.family.groupSize ≤ block.size) (hgroup : group < grid.family.groups) :
    ∃ filled : Grid, grid.decodeGroup group block = (.ok (), filled)
      ∧ filled.family = grid.family
      ∧ (∀ pattern channel row, pattern / grid.family.patternsPerGroup = group →
        channel < grid.family.channels → row < grid.family.rows →
        filled.event? pattern channel row = some (grid.family.eventAt block
          (grid.family.eventOffset (pattern % grid.family.patternsPerGroup) channel row)))
      ∧ ∀ pattern channel row, pattern / grid.family.patternsPerGroup ≠ group →
        filled.event? pattern channel row = grid.event? pattern channel row := by
  refine ⟨_, decodeGroup_eq_fill hblock, rfl, ?_, ?_⟩
  · intro pattern channel row hpattern hchannel hrow
    have hwithin : pattern - group * grid.family.patternsPerGroup
        = pattern % grid.family.patternsPerGroup := by
      rw [← hpattern, Nat.mod_eq_sub_div_mul]
    rw [event?_fill_groupCells hgroup, if_pos ⟨hpattern, hchannel, hrow⟩, hwithin]
  · intro pattern channel row hpattern
    rw [event?_fill_groupCells hgroup, if_neg fun h => hpattern h.1]

theorem event?_empty {family : Family} {pattern channel row : Nat}
    (hpattern : pattern < family.patternSlots) (hchannel : channel < family.channels)
    (hrow : row < family.rows) : (empty family).event? pattern channel row = some Event.empty := by
  have hindex : family.cellIndex pattern channel row
      < family.patternSlots * family.patternCells := by
    cases family <;>
      simp only [Family.patternSlots, Family.groups, Family.patternsPerGroup, Family.patternCells,
        Family.channels, Family.rows, Family.cellIndex] at * <;> omega
  rw [event?_eq_getElem? hchannel hrow]
  show (Array.replicate _ Event.empty)[family.cellIndex pattern channel row]? = _
  rw [Array.getElem?_replicate, if_pos hindex]

end Grid
end AdLibModule
