import AdLibModule.Proofs.Fetch
import AdLibModule.Proofs.Grid

/-! What decoding a group of patterns does to the grid, for every block. The bytes of a block lie row
by row in the oldest family, and the cells are filled in channel by channel. A block that is too short
therefore ends the work at a cell in whose front other cells are missing from the grid although the
block has their bytes. -/

namespace AdLibModule

/-- A cell of a group of patterns. -/
structure Cell where
  pattern : Nat
  channel : Nat
  row : Nat
  deriving DecidableEq

namespace Cell

/-- The group has such a cell. -/
structure InGroup (family : Family) (cell : Cell) : Prop where
  pattern : cell.pattern < family.patternsPerGroup
  channel : cell.channel < family.channels
  row : cell.row < family.rows

/-- The order in which cells are filled in: by pattern, then by channel, then by row. -/
def Before (cell other : Cell) : Prop :=
  cell.pattern < other.pattern ∨ cell.pattern = other.pattern ∧
    (cell.channel < other.channel ∨ cell.channel = other.channel ∧ cell.row < other.row)

instance (cell other : Cell) : Decidable (cell.Before other) :=
  inferInstanceAs (Decidable (_ ∨ _ ∧ (_ ∨ _ ∧ _)))

/-- Where the bytes of the cell begin in a block. -/
def offset (family : Family) (cell : Cell) : Nat :=
  family.eventOffset cell.pattern cell.channel cell.row

/-- The block has all bytes of the cell. -/
def HeldBy (family : Family) (block : Array UInt8) (cell : Cell) : Prop :=
  cell.offset family + family.eventSize ≤ block.size

/-- The first cell of a group of which the block lacks bytes. -/
structure FirstMissing (family : Family) (block : Array UInt8) (cell : Cell) : Prop where
  inGroup : cell.InGroup family
  missing : ¬ cell.HeldBy family block
  held : ∀ earlier : Cell, earlier.InGroup family → earlier.Before cell → earlier.HeldBy family block

/-- The place of the cell among those of its group. -/
def index (family : Family) (cell : Cell) : Nat :=
  family.cellIndex cell.pattern cell.channel cell.row

variable {family : Family} {block : Array UInt8} {cell other : Cell}

theorem InGroup.index_lt (h : cell.InGroup family) : cell.index family < family.groupCells :=
  Family.cellIndex_lt h.pattern h.channel h.row

theorem InGroup.cellOffset_index (h : cell.InGroup family) :
    family.cellOffset (cell.index family) = cell.offset family :=
  Family.cellOffset_cellIndex h.channel h.row

theorem exists_index_eq {count : Nat} (h : count < family.groupCells) :
    ∃ cell : Cell, cell.InGroup family ∧ cell.index family = count := by
  obtain ⟨pattern, channel, row, hpattern, hchannel, hrow, hindex⟩ := family.exists_cellIndex_eq h
  exact ⟨⟨pattern, channel, row⟩, ⟨hpattern, hchannel, hrow⟩, hindex⟩

theorem before_iff (h : cell.InGroup family) (hother : other.InGroup family) :
    cell.Before other ↔ cell.index family < other.index family := by
  obtain ⟨hpattern, hchannel, hrow⟩ := h
  obtain ⟨hpattern', hchannel', hrow'⟩ := hother
  cases family <;>
    simp only [Family.patternsPerGroup, Family.channels, Family.rows, Before, index,
      Family.cellIndex] at * <;> omega

theorem Before.total (h : cell ≠ other) : cell.Before other ∨ other.Before cell := by
  obtain ⟨pattern, channel, row⟩ := cell
  obtain ⟨pattern', channel', row'⟩ := other
  simp only [ne_eq, mk.injEq] at h
  simp only [Before]
  omega

/-- There is only one such cell. -/
theorem FirstMissing.unique (h : cell.FirstMissing family block)
    (hother : other.FirstMissing family block) : cell = other := by
  by_contra hne
  rcases Before.total hne with hbefore | hbefore
  · exact h.missing (hother.held cell h.inGroup hbefore)
  · exact hother.missing (h.held other hother.inGroup hbefore)

/-- The last cell of a group ends where the group does. -/
theorem exists_offset_add_eq (family : Family) :
    ∃ cell : Cell, cell.InGroup family ∧ cell.offset family + family.eventSize = family.groupSize := by
  refine ⟨⟨family.patternsPerGroup - 1, family.channels - 1, family.rows - 1⟩, ?_, ?_⟩
  · cases family <;> constructor <;> decide
  · cases family <;> rfl

/-- The order of the cells is that of their places, among which there is a least. -/
theorem exists_firstMissing (hblock : block.size < family.groupSize) :
    ∃ cell : Cell, cell.FirstMissing family block := by
  have hmissing : ∃ count, ∃ cell : Cell, cell.InGroup family ∧ cell.index family = count
      ∧ ¬ cell.HeldBy family block := by
    obtain ⟨last, hlast, hend⟩ := exists_offset_add_eq family
    refine ⟨_, last, hlast, rfl, ?_⟩
    rw [HeldBy, hend]
    exact Nat.not_le.mpr hblock
  classical
  obtain ⟨cell, hcell, hindex, hnot⟩ := Nat.find_spec hmissing
  refine ⟨cell, hcell, hnot, fun earlier hearlier hbefore => ?_⟩
  by_contra hheld
  have hlt := (before_iff hearlier hcell).mp hbefore
  exact Nat.find_min hmissing (hindex ▸ hlt) ⟨earlier, hearlier, rfl, hheld⟩

end Cell

namespace Grid

variable {grid : Grid} {group : Nat} {block : Array UInt8}

/-- A block that is long enough fills in its own group and nothing else. Its further bytes do not
matter, a later block for the same group replaces what an earlier one left, and blocks for different
groups can be decoded in any order. -/
theorem decodeGroup_fills_own_group (hgroup : group < grid.family.groups)
    (hblock : grid.family.groupSize ≤ block.size) :
    ∃ filled : Grid, grid.decodeGroup group block = (.ok (), filled)
      ∧ filled.family = grid.family
      ∧ (∀ pattern channel row, filled.event? pattern channel row =
        if pattern / grid.family.patternsPerGroup = group ∧ channel < grid.family.channels
            ∧ row < grid.family.rows
        then some (grid.family.eventAt block
          (grid.family.eventOffset (pattern - group * grid.family.patternsPerGroup) channel row))
        else grid.event? pattern channel row)
      ∧ (∀ block' : Array UInt8,
        block'.extract 0 grid.family.groupSize = block.extract 0 grid.family.groupSize →
        grid.decodeGroup group block' = (.ok (), filled))
      ∧ (∀ later : Array UInt8, grid.family.groupSize ≤ later.size →
        filled.decodeGroup group later = grid.decodeGroup group later)
      ∧ ∀ other, other ≠ group → ∀ block' : Array UInt8, grid.family.groupSize ≤ block'.size →
        ∃ first both : Grid, grid.decodeGroup other block' = (.ok (), first)
          ∧ first.decodeGroup group block = (.ok (), both)
          ∧ filled.decodeGroup other block' = (.ok (), both) := by
  refine ⟨_, decodeGroup_eq_fill hblock, rfl, event?_fill_groupCells hgroup, ?_, ?_, ?_⟩
  · intro block' hsame
    have hblock' : grid.family.groupSize ≤ block'.size :=
      Nat.zero_add grid.family.groupSize ▸ (sameField_of_extract_eq hblock hsame).fits
    rw [decodeGroup_eq_fill hblock', fill_congr (Nat.le_refl _) hsame]
  · intro later hlater
    have hagain : (grid.fill group block grid.family.groupCells).decodeGroup group later
        = (.ok (), (grid.fill group block grid.family.groupCells).fill group later
          grid.family.groupCells) := decodeGroup_eq_fill hlater
    rw [hagain, fill_fill, decodeGroup_eq_fill hlater]
  · intro other hother block' hblock'
    have hboth : (grid.fill group block grid.family.groupCells).decodeGroup other block'
        = (.ok (), (grid.fill group block grid.family.groupCells).fill other block'
          grid.family.groupCells) := decodeGroup_eq_fill hblock'
    rw [fill_comm hother.symm] at hboth
    exact ⟨_, _, decodeGroup_eq_fill hblock', decodeGroup_eq_fill hblock, hboth⟩

theorem eventAt_replicate {family : Family} {size offset : Nat} (byte : UInt8)
    (h : offset + family.eventSize ≤ size) :
    family.eventAt (Array.replicate size byte) offset
      = Event.ofBytes family (Array.replicate family.eventSize byte) :=
  congrArg (Event.ofBytes family) (fieldAt_replicate byte h)

/-- The second of four groups begins with the sixteenth pattern. -/
theorem decodeGroup_fills_sixteenth_pattern :
    ∃ filled : Grid,
      (Grid.empty .classic).decodeGroup 1 (Array.replicate 36864 255) = (.ok (), filled)
        ∧ filled.event? 16 0 0 = some ⟨127, 255, 255, 15, 15, ⟨0, 0⟩⟩
        ∧ filled.event? 15 8 63 = some Event.empty := by
  have hgroup : 1 < (Grid.empty .classic).family.groups := by decide
  have hblock : (Grid.empty .classic).family.groupSize
      ≤ (Array.replicate 36864 (255 : UInt8)).size := by
    rw [Array.size_replicate]
    decide
  obtain ⟨filled, hdecode, -, hevents, -⟩ := decodeGroup_fills_own_group hgroup hblock
  refine ⟨filled, hdecode, ?_, ?_⟩
  · have hfirst : 16 / Family.classic.patternsPerGroup = 1 ∧ 0 < Family.classic.channels
        ∧ 0 < Family.classic.rows := by decide
    rw [hevents 16 0 0]
    refine (if_pos hfirst).trans (congrArg some ?_)
    rw [eventAt_replicate 255 (by decide)]
    decide
  · have hlast : ¬ (15 / Family.classic.patternsPerGroup = 1 ∧ 8 < Family.classic.channels
        ∧ 63 < Family.classic.rows) := by decide
    rw [hevents 15 8 63]
    exact (if_neg hlast).trans (event?_empty (by decide) (by decide) (by decide))

/-- A block that is too short fills in the cells before the first one that it does not hold, and
leaves all others as they were. -/
theorem decodeGroup_stops_at_first_missing (hgroup : group < grid.family.groups)
    (hblock : block.size < grid.family.groupSize) :
    ∃ (cell : Cell) (filled : Grid), cell.FirstMissing grid.family block
      ∧ grid.decodeGroup group block = (.error (.truncated (cell.offset grid.family)
        grid.family.eventSize (block.size - cell.offset grid.family)), filled)
      ∧ filled.family = grid.family
      ∧ ∀ pattern channel row, filled.event? pattern channel row =
        if pattern / grid.family.patternsPerGroup = group ∧ channel < grid.family.channels
            ∧ row < grid.family.rows
            ∧ Cell.Before ⟨pattern - group * grid.family.patternsPerGroup, channel, row⟩ cell
        then some (grid.family.eventAt block
          (grid.family.eventOffset (pattern - group * grid.family.patternsPerGroup) channel row))
        else grid.event? pattern channel row := by
  obtain ⟨cell, hfirst⟩ := Cell.exists_firstMissing hblock
  refine ⟨cell, grid.fill group block (cell.index grid.family), hfirst, ?_, rfl, ?_⟩
  · rw [← hfirst.inGroup.cellOffset_index]
    refine decodeGroup_eq_error hfirst.inGroup.index_lt (fun count hcount => ?_) ?_
    · obtain ⟨earlier, hearlier, rfl⟩ :=
        Cell.exists_index_eq (Nat.lt_trans hcount hfirst.inGroup.index_lt)
      rw [hearlier.cellOffset_index]
      exact hfirst.held earlier hearlier ((Cell.before_iff hearlier hfirst.inGroup).mpr hcount)
    · rw [hfirst.inGroup.cellOffset_index]
      exact Nat.not_le.mp hfirst.missing
  · intro pattern channel row
    rw [event?_fill hgroup (Nat.le_of_lt hfirst.inGroup.index_lt)]
    refine ite_congr (propext ?_) (fun _ => rfl) fun _ => rfl
    refine and_congr_right fun hpattern => and_congr_right fun hchannel =>
      and_congr_right fun hrow => ?_
    have hcell : Cell.InGroup grid.family
        ⟨pattern - group * grid.family.patternsPerGroup, channel, row⟩ :=
      ⟨Family.sub_lt_patternsPerGroup hpattern, hchannel, hrow⟩
    exact (Cell.before_iff hcell hfirst.inGroup).symm

/-- Forty bytes hold the first row and one cell of the second. The first channel ends with its third
row, and the second channel stays empty even in the first row. -/
theorem decodeGroup_stops_in_third_row :
    ∃ filled : Grid,
      (Grid.empty .classic).decodeGroup 0 (Array.replicate 40 255)
          = (.error (.truncated 72 4 0), filled)
        ∧ filled.event? 0 0 1 = some ⟨127, 255, 255, 15, 15, ⟨0, 0⟩⟩
        ∧ filled.event? 0 1 0 = some Event.empty := by
  have hgroup : 0 < (Grid.empty .classic).family.groups := by decide
  have hblock : (Array.replicate 40 (255 : UInt8)).size < (Grid.empty .classic).family.groupSize := by
    decide
  obtain ⟨cell, filled, hfirst, hdecode, -, hevents⟩ :=
    decodeGroup_stops_at_first_missing hgroup hblock
  have hthird : Cell.FirstMissing .classic (Array.replicate 40 255) ⟨0, 0, 2⟩ := by
    refine ⟨⟨by decide, by decide, by decide⟩, by unfold Cell.HeldBy; decide, ?_⟩
    rintro ⟨pattern, channel, row⟩ - hbefore
    simp only [Cell.Before, Cell.HeldBy, Cell.offset, Family.eventOffset, Family.eventSize,
      Family.rows, Family.channels, Array.size_replicate] at *
    omega
  obtain rfl := hfirst.unique hthird
  refine ⟨filled, hdecode, ?_, ?_⟩
  · have hbefore : 0 / Family.classic.patternsPerGroup = 0 ∧ 0 < Family.classic.channels
        ∧ 1 < Family.classic.rows ∧ Cell.Before ⟨0, 0, 1⟩ ⟨0, 0, 2⟩ := by decide
    rw [hevents 0 0 1]
    refine (if_pos hbefore).trans (congrArg some ?_)
    rw [eventAt_replicate 255 (by decide)]
    decide
  · have hafter : ¬ (0 / Family.classic.patternsPerGroup = 0 ∧ 1 < Family.classic.channels
        ∧ 0 < Family.classic.rows ∧ Cell.Before ⟨0, 1, 0⟩ ⟨0, 0, 2⟩) := by decide
    rw [hevents 0 1 0]
    exact (if_neg hafter).trans (event?_empty (by decide) (by decide) (by decide))

end Grid
end AdLibModule
