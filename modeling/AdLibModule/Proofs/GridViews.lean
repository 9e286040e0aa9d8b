import AdLibModule.Proofs.Grid
import Mathlib

/-! The ways to look at a grid agree. One cuts the events into tracks, one computes where a track lies,
and one computes where a single event lies; that they name the same events depends on the bounds which
each of them checks, since an index beyond its channel or row would otherwise be one of the next. -/

namespace AdLibModule

/-- An entry lies within the first `count` stretches just when its stretch is one of them. -/
theorem mul_add_lt_mul_iff {length entry : Nat} (h : entry < length) (stretch count : Nat) :
    stretch * length + entry < count * length ↔ stretch < count := by
  have hlength : 0 < length := Nat.zero_lt_of_lt h
  rw [← Nat.div_lt_iff_lt_mul hlength, Nat.mul_comm, Nat.mul_add_div hlength, Nat.div_eq_of_lt h,
    Nat.add_zero]

section Stretches

variable {cells : Array Event} {length : Nat}

/-- Nothing is lost and nothing is moved by cutting. -/
theorem flatten_stretches (hlength : 0 < length) (start : Nat) :
    ((stretches cells length start).map Array.toList).flatten = cells.toList.drop start := by
  fun_induction stretches cells length start with
  | case1 start hstart ih =>
      have hfirst : (cells.extract start (start + length)).toList
          = (cells.toList.drop start).take length := by
        rw [Array.toList_extract, List.extract_eq_take_drop, Nat.add_sub_cancel_left]
      rw [List.map_cons, List.flatten_cons, ih, hfirst, ← List.drop_drop,
        List.take_append_drop]
  | case2 start hend =>
      have hsize : cells.toList.length ≤ start := by
        rw [Array.length_toList]
        omega
      rw [List.drop_eq_nil_of_le hsize]
      rfl

/-- From the start of a stretch on, the stretches are those that are left. -/
theorem stretches_eq_map_range' {count : Nat} (hlength : 0 < length)
    (hsize : cells.size = count * length) {index left : Nat} (hleft : index + left = count) :
    stretches cells length (index * length) = (List.range' index left).map fun stretch =>
      cells.extract (stretch * length) ((stretch + 1) * length) := by
  induction left generalizing index with
  | zero =>
      have hend : ¬ (0 < length ∧ index * length < cells.size) := by
        rw [hsize, ← hleft, Nat.add_zero]
        exact fun h => Nat.lt_irrefl _ h.2
      rw [stretches, if_neg hend, List.range'_zero, List.map_nil]
  | succ left ih =>
      have hthere : 0 < length ∧ index * length < cells.size := by
        rw [hsize, Nat.mul_lt_mul_right hlength]
        exact ⟨hlength, by omega⟩
      rw [stretches, if_pos hthere, List.range'_succ, List.map_cons, ← Nat.succ_mul, ih (by omega)]

end Stretches

namespace Grid

variable {grid : Grid}

theorem rows_pos (grid : Grid) : 0 < grid.rows := by
  show 0 < grid.family.rows
  cases grid.family <;> decide

theorem channels_pos (grid : Grid) : 0 < grid.channels := by
  show 0 < grid.family.channels
  cases grid.family <;> decide

theorem trackCount_eq (grid : Grid) :
    grid.trackCount = grid.family.patternSlots * grid.family.channels := by
  rw [trackCount, grid.size_cells, Family.patternCells, ← Nat.mul_assoc]
  exact Nat.mul_div_cancel _ grid.rows_pos

theorem patternCount_eq (grid : Grid) : grid.patternCount = grid.family.patternSlots := by
  rw [patternCount, trackCount_eq]
  exact Nat.mul_div_cancel _ grid.channels_pos

theorem trackCount_eq_mul (grid : Grid) : grid.trackCount = grid.patternCount * grid.channels := by
  rw [trackCount_eq, patternCount_eq]
  rfl

theorem size_cells_eq (grid : Grid) : grid.cells.size = grid.trackCount * grid.rows := by
  rw [grid.size_cells, trackCount_eq, Family.patternCells, Nat.mul_assoc]
  rfl

/-- There is a track for each index below their number. -/
theorem track?_eq (grid : Grid) (index : Nat) :
    grid.track? index = if index < grid.trackCount then
      some (grid.cells.extract (index * grid.rows) ((index + 1) * grid.rows)) else none := by
  have hfits : (index + 1) * grid.rows ≤ grid.cells.size ↔ index < grid.trackCount := by
    rw [size_cells_eq, Nat.mul_le_mul_right_iff grid.rows_pos, Nat.succ_le_iff]
  rw [track?]
  simp only [hfits]

theorem eq_extract_of_track? {track : Array Event} {index : Nat}
    (htrack : grid.track? index = some track) :
    index * grid.rows + grid.rows ≤ grid.cells.size
      ∧ track = grid.cells.extract (index * grid.rows) (index * grid.rows + grid.rows) := by
  rw [track?, Nat.succ_mul] at htrack
  split_ifs at htrack with hend
  exact ⟨hend, (Option.some.inj htrack).symm⟩

theorem size_of_track? {track : Array Event} {index : Nat} (htrack : grid.track? index = some track) :
    track.size = grid.rows := by
  obtain ⟨hend, rfl⟩ := eq_extract_of_track? htrack
  rw [Array.size_extract, Nat.min_eq_left hend, Nat.add_sub_cancel_left]

/-- The rows of a track lie one after the other among the events. -/
theorem getElem?_of_track? {track : Array Event} {index row : Nat}
    (htrack : grid.track? index = some track) (hrow : row < grid.rows) :
    track[row]? = grid.cells[index * grid.rows + row]? := by
  obtain ⟨hend, rfl⟩ := eq_extract_of_track? htrack
  rw [Array.getElem?_extract, Nat.min_eq_left hend, Nat.add_sub_cancel_left, if_pos hrow]

theorem isSome_track?_iff (grid : Grid) (index : Nat) :
    (grid.track? index).isSome ↔ index < grid.trackCount := by
  rw [track?_eq]
  split_ifs with hindex
  · exact iff_of_true rfl hindex
  · exact iff_of_false Bool.false_ne_true hindex

theorem isSome_event?_iff (grid : Grid) (pattern channel row : Nat) :
    (grid.event? pattern channel row).isSome
      ↔ pattern < grid.patternCount ∧ channel < grid.channels ∧ row < grid.rows := by
  by_cases hbounds : channel < grid.channels ∧ row < grid.rows
  case neg =>
    rw [event?_eq_none hbounds]
    exact iff_of_false Bool.false_ne_true fun h => hbounds h.2
  obtain ⟨hchannel, hrow⟩ := hbounds
  have hindex : grid.family.cellIndex pattern channel row < grid.cells.size
      ↔ pattern < grid.patternCount := by
    rw [size_cells_eq, Family.cellIndex]
    refine (mul_add_lt_mul_iff hrow _ _).trans ?_
    rw [trackCount_eq_mul]
    exact mul_add_lt_mul_iff hchannel _ _
  rw [event?_eq_getElem? hchannel hrow, Option.isSome_iff_ne_none, ne_eq,
    Array.getElem?_eq_none_iff, Nat.not_le, hindex]
  exact (and_iff_left ⟨hchannel, hrow⟩).symm

/-- The event of a channel is found in the track of the channel. -/
theorem event?_eq_getElem?_track {track : Array Event} {pattern channel row : Nat}
    (hchannel : channel < grid.channels) (hrow : row < grid.rows)
    (htrack : grid.track? (pattern * grid.channels + channel) = some track) :
    grid.event? pattern channel row = track[row]? := by
  rw [event?_eq_getElem? hchannel hrow, getElem?_of_track? htrack hrow]
  rfl

theorem tracks_eq (grid : Grid) : grid.tracks = (List.range grid.trackCount).map fun index =>
    grid.cells.extract (index * grid.rows) ((index + 1) * grid.rows) := by
  have hfrom := stretches_eq_map_range' grid.rows_pos grid.size_cells_eq
    (Nat.zero_add grid.trackCount)
  rw [Nat.zero_mul] at hfrom
  rw [tracks, hfrom, List.range_eq_range']

theorem map_some_tracks (grid : Grid) :
    grid.tracks.map some = (List.range grid.trackCount).map grid.track? := by
  rw [tracks_eq, List.map_map]
  refine List.map_congr_left fun index hindex => ?_
  rw [track?_eq, if_pos (List.mem_range.mp hindex)]
  rfl

/-- The grid shows the same events in each of its views, in the numbers of the family. -/
structure ViewsAgree (family : Family) (grid : Grid) : Prop where
  channels : grid.channels = family.channels
  rows : grid.rows = family.rows
  patternCount : grid.patternCount = family.patternSlots
  trackCount : grid.trackCount = grid.patternCount * grid.channels
  size : grid.cells.size = grid.patternCount * grid.channels * grid.rows
  isSome_event : ∀ pattern channel row, (grid.event? pattern channel row).isSome
    ↔ pattern < grid.patternCount ∧ channel < grid.channels ∧ row < grid.rows
  event : ∀ pattern channel row,
    pattern < grid.patternCount → channel < grid.channels → row < grid.rows →
      ∃ track, grid.track? (pattern * grid.channels + channel) = some track
        ∧ grid.event? pattern channel row = track[row]?
  isSome_track : ∀ index, (grid.track? index).isSome ↔ index < grid.trackCount
  track : ∀ index track, grid.track? index = some track → track.size = grid.rows
    ∧ ∀ row, row < grid.rows → track[row]? = grid.cells[index * grid.rows + row]?
  tracks : grid.tracks.map some = (List.range grid.trackCount).map grid.track?
  flatten : (grid.tracks.map Array.toList).flatten = grid.cells.toList

theorem family_decodeCells (group : Nat) (block : Array UInt8) (left : Nat) (grid : Grid) :
    (decodeCells group block left grid).2.family = grid.family := by
  induction left generalizing grid with
  | zero => rfl
  | succ left ih =>
      rw [decodeCells]
      split
      · rw [ih]
        rfl
      · rfl

/-- The grids that come from an empty one by decoding blocks for groups of the family, whether a block
has all cells of its group or not. -/
inductive Reached (family : Family) : Grid → Prop
  | empty : Reached family (.empty family)
  | decode {grid : Grid} (group : Nat) (block : Array UInt8) : Reached family grid →
    group < family.groups → Reached family (grid.decodeGroup group block).2

theorem Reached.family_eq {family : Family} (h : Reached family grid) : grid.family = family := by
  induction h with
  | empty => rfl
  | decode group block _ _ ih => exact (family_decodeCells group block _ _).trans ih

/-- Whatever was decoded into a grid, all its views show the same. -/
theorem Reached.viewsAgree {family : Family} (h : Reached family grid) : grid.ViewsAgree family := by
  obtain rfl := h.family_eq
  refine ⟨rfl, rfl, grid.patternCount_eq, grid.trackCount_eq_mul, ?_, grid.isSome_event?_iff, ?_,
    grid.isSome_track?_iff, ?_, grid.map_some_tracks, flatten_stretches grid.rows_pos 0⟩
  · rw [size_cells_eq, trackCount_eq_mul]
  · intro pattern channel row hpattern hchannel hrow
    have hindex : pattern * grid.channels + channel < grid.trackCount := by
      rw [trackCount_eq_mul]
      exact (mul_add_lt_mul_iff hchannel _ _).mpr hpattern
    obtain ⟨track, htrack⟩ := Option.isSome_iff_exists.mp ((grid.isSome_track?_iff _).mpr hindex)
    exact ⟨track, htrack, event?_eq_getElem?_track hchannel hrow htrack⟩
  · exact fun index track htrack =>
      ⟨size_of_track? htrack, fun row hrow => getElem?_of_track? htrack hrow⟩

/-- A block of five bytes holds one cell of the last group. The grid still has 64 patterns of nine
channels, and no channel behind the ninth. -/
theorem Reached.viewsAgree_after_short_block :
    ∃ grid : Grid, ((Grid.empty .classic).decodeGroup 3 #[255, 1, 15, 240, 60]).2 = grid
      ∧ Reached .classic grid ∧ grid.ViewsAgree .classic
      ∧ (grid.event? 63 8 63).isSome ∧ (grid.event? 0 9 0).isSome = false := by
  have hreached : Reached .classic ((Grid.empty .classic).decodeGroup 3 #[255, 1, 15, 240, 60]).2 :=
    Reached.empty.decode 3 _ (by decide)
  have hagree := hreached.viewsAgree
  refine ⟨_, rfl, hreached, hagree, ?_, ?_⟩
  · rw [hagree.isSome_event, hagree.patternCount, hagree.channels, hagree.rows]
    decide
  · rw [Bool.eq_false_iff, ne_eq, hagree.isSome_event, hagree.channels]
    exact fun h => absurd h.2.1 (by decide)

end Grid
end AdLibModule
