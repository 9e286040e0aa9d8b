import AdLibModule.Inspection
import AdLibModule.Proofs.GridViews
import AdLibModule.Proofs.NoteRange
import AdLibModule.Proofs.WellFormed
import AdLibModule.Proofs.ZeroGroup

/-! The table of a pattern has a line for each row and in each line a cell for each channel. The cells of
events are of one width, but a cell in which nothing happens is a column narrower. So a channel begins at
the same column in all lines just when each channel before it is empty in all rows or in none. -/

namespace AdLibModule.Report

/-! ### Fields -/

theorem length_hex (width n : Nat) :
    (hex width n).length = max width (Nat.toDigits 16 n).length := by
  simp only [hex, String.length_ofList, List.length_append, List.length_replicate, List.length_map]
  omega

theorem length_hex_of_lt {width n : Nat} (hpos : 0 < width) (h : n < 16 ^ width) :
    (hex width n).length = width := by
  rw [length_hex]
  exact Nat.max_eq_left ((Nat.length_toDigits_le_iff (by decide) hpos).mpr h)

theorem length_hex_byte (byte : UInt8) : (hex 2 byte.toNat).length = 2 :=
  length_hex_of_lt Nat.two_pos byte.toNat_lt

theorem length_hex_nibble {nibble : UInt8} (h : nibble ≤ 15) : (hex 1 nibble.toNat).length = 1 :=
  length_hex_of_lt Nat.one_pos (Nat.lt_succ_of_le (UInt8.le_iff_toNat_le.mp h))

theorem length_alignRight (width : Nat) (text : String) :
    (alignRight width text).length = max width text.length := by
  simp only [alignRight, String.length_append, String.length_ofList, List.length_replicate]
  omega

theorem length_decimal_le (byte : UInt8) : (toString byte).length ≤ 3 := by
  have hlt : byte.toNat < 10 ^ 3 := Nat.lt_trans byte.toNat_lt (by decide)
  show (toString byte.toNat).length ≤ 3
  rw [Nat.toString_eq_ofList_toDigits, String.length_ofList]
  exact (Nat.length_toDigits_le_iff (by decide) (by decide)).mpr hlt

/-- The text has no bar and no line break, so that it can stand between bars in a line. -/
def Plain (text : String) : Prop := ∀ c ∈ text.toList, c ≠ '|' ∧ c ≠ '\n'

theorem Plain.append {text other : String} (h : Plain text) (hother : Plain other) :
    Plain (text ++ other) := by
  intro c hc
  rw [String.toList_append, List.mem_append] at hc
  exact hc.elim (h c) (hother c)

theorem exists_digitChar_of_mem_toDigits {base n : Nat} (hbase : 1 < base) {c : Char}
    (h : c ∈ Nat.toDigits base n) : ∃ digit, c = Nat.digitChar digit := by
  induction n using Nat.strong_induction_on with
  | _ n ih =>
      rw [Nat.toDigits_eq_if hbase] at h
      split_ifs at h with hlast
      · exact ⟨n, List.mem_singleton.mp h⟩
      · rcases List.mem_append.mp h with hfront | hend
        · exact ih (n / base) (Nat.div_lt_self (by omega) hbase) hfront
        · exact ⟨n % base, List.mem_singleton.mp hend⟩

theorem plain_decimal (byte : UInt8) : Plain (toString byte) := by
  intro c hc
  change c ∈ (toString byte.toNat).toList at hc
  rw [Nat.toString_eq_ofList_toDigits, String.toList_ofList] at hc
  obtain ⟨digit, rfl⟩ := exists_digitChar_of_mem_toDigits (by decide) hc
  exact ⟨Nat.digitChar_ne '|' (by decide), Nat.digitChar_ne '\n' (by decide)⟩

theorem toUpper_digitChar (digit : Nat) :
    (Nat.digitChar digit).toUpper ≠ '|' ∧ (Nat.digitChar digit).toUpper ≠ '\n' := by
  rcases Nat.lt_or_ge digit 16 with hdigit | hbeyond
  · interval_cases digit <;> decide
  · rw [Nat.digitChar_eq_star.mpr hbeyond]
    decide

theorem plain_hex (width n : Nat) : Plain (hex width n) := by
  intro c hc
  rw [hex, String.toList_ofList, List.mem_append] at hc
  rcases hc with hzero | hdigit
  · rw [(List.mem_replicate.mp hzero).2]
    decide
  · have hbase : 1 < 16 := by decide
    obtain ⟨_, hmem, rfl⟩ := List.mem_map.mp hdigit
    obtain ⟨digit, rfl⟩ := exists_digitChar_of_mem_toDigits hbase hmem
    exact toUpper_digitChar digit

theorem Plain.alignRight {text : String} (h : Plain text) (width : Nat) :
    Plain (alignRight width text) := by
  refine Plain.append (fun c hc => ?_) h
  rw [String.toList_ofList] at hc
  rw [(List.mem_replicate.mp hc).2]
  decide

/-! ### Cells -/

/-- The width of the cell of an event. -/
def cellWidth (event : Event) : Nat := if event.isEmpty then 10 else 11

theorem cellWidth_eq_iff (event other : Event) :
    cellWidth event = cellWidth other ↔ event.isEmpty = other.isEmpty := by
  rw [cellWidth, cellWidth]
  cases event.isEmpty <;> cases other.isEmpty <;> decide

theorem cell_of_isEmpty {event : Event} (h : event.isEmpty = true) : cell event = "... .. ..." := by
  rw [cell, if_pos h]

theorem cell_of_not_isEmpty {event : Event} (h : ¬ event.isEmpty = true) :
    cell event = alignRight 3 (toString event.note) ++ " " ++ hex 2 event.instrument.toNat ++ " "
      ++ hex 2 event.command.toNat ++ hex 1 event.param1.toNat ++ hex 1 event.param2.toNat := by
  rw [cell, if_neg h]
  rfl

theorem length_cell {family : Family} {event : Event} (h : event.Canonical family) :
    (cell event).length = cellWidth event := by
  by_cases hempty : event.isEmpty = true
  · rw [cell_of_isEmpty hempty, cellWidth, if_pos hempty]
    rfl
  · have hnote : (alignRight 3 (toString event.note)).length = 3 := by
      rw [length_alignRight]
      exact Nat.max_eq_left (length_decimal_le event.note)
    have hspace : " ".length = 1 := rfl
    rw [cell_of_not_isEmpty hempty, cellWidth, if_neg hempty]
    simp only [String.length_append, hnote, hspace, length_hex_byte,
      length_hex_nibble h.effect.param1, length_hex_nibble h.effect.param2]

theorem plain_cell (event : Event) : Plain (cell event) := by
  by_cases hempty : event.isEmpty = true
  · rw [cell_of_isEmpty hempty, Plain]
    simp
  · have hspace : Plain " " := by
      rw [Plain]
      simp
    rw [cell_of_not_isEmpty hempty]
    exact (((((plain_decimal _).alignRight 3).append hspace).append (plain_hex _ _)).append
      hspace).append (plain_hex _ _) |>.append (plain_hex _ _) |>.append (plain_hex _ _)

/-! ### Lines -/

/-- Texts that are joined, taken apart around one of them. -/
theorem exists_intercalate_eq (between : String) {texts : List String} {index : Nat} {text : String}
    (h : texts[index]? = some text) :
    ∃ before after, between.intercalate texts = before ++ text ++ after
      ∧ before.length = ((texts.take index).map (·.length + between.length)).sum := by
  induction texts generalizing index with
  | nil => cases h
  | cons first texts ih =>
      cases index with
      | zero =>
          obtain rfl : first = text := Option.some.inj h
          cases texts with
          | nil => exact ⟨"", "", by simp, rfl⟩
          | cons next texts =>
              refine ⟨"", between ++ between.intercalate (next :: texts), ?_, rfl⟩
              rw [String.intercalate_cons_cons, String.empty_append, String.append_assoc]
      | succ index =>
          have hrest : texts[index]? = some text := h
          have hsome : texts ≠ [] := by
            rintro rfl
            cases hrest
          obtain ⟨before, after, hjoined, hlength⟩ := ih hrest
          refine ⟨first ++ between ++ before, after, ?_, ?_⟩
          · rw [String.intercalate_cons_of_ne_nil hsome, hjoined]
            simp only [String.append_assoc]
          · rw [String.length_append, String.length_append, hlength, List.take_succ_cons,
              List.map_cons, List.sum_cons]

end AdLibModule.Report

namespace AdLibModule

/-- The event of a channel in a row of a pattern that is there. -/
def Grid.eventAt (grid : Grid) (pattern channel row : Nat) : Event :=
  (grid.event? pattern channel row).getD .empty

theorem Grid.rows_le (grid : Grid) : grid.rows ≤ 256 := by
  show grid.family.rows ≤ 256
  cases grid.family <;> decide

namespace Report

/-- The column at which the cell of a channel begins in the line of a row. Before the first cell stand
the number of the row, in two digits behind two spaces, and a bar between spaces, and before every other
one the cell before it and such a bar. -/
def column (grid : Grid) (pattern row : Nat) : Nat → Nat
  | 0 => 7
  | channel + 1 =>
    column grid pattern row channel + cellWidth (grid.eventAt pattern channel row) + 3

/-- The line of a row: its number, and for each channel the cell of its event, between bars. -/
structure RowShown (grid : Grid) (pattern row : Nat) (line : String) : Prop where
  label : (hex 2 row).length = 2
  eq : line = "  " ++ hex 2 row ++ " | " ++ " | ".intercalate
    ((List.range grid.channels).map fun channel => cell (grid.eventAt pattern channel row))
  event : ∀ channel, channel < grid.channels →
    grid.event? pattern channel row = some (grid.eventAt pattern channel row)
  width : ∀ channel, channel < grid.channels →
    (cell (grid.eventAt pattern channel row)).length = cellWidth (grid.eventAt pattern channel row)
  plain : ∀ channel, channel < grid.channels → Plain (cell (grid.eventAt pattern channel row))
  begins : ∀ channel, channel < grid.channels → ∃ before after,
    line = before ++ cell (grid.eventAt pattern channel row) ++ after
      ∧ before.length = column grid pattern row channel

/-- There is a line for each row of the pattern, in order, and no other. -/
structure Tabulates (grid : Grid) (pattern : Nat) (lines : List String) : Prop where
  length : lines.length = grid.rows
  rows : ∀ row, row < grid.rows → ∃ line, lines[row]? = some line ∧ RowShown grid pattern row line

/-- All cells of the pattern have the same width. -/
def SameWidth (grid : Grid) (pattern : Nat) : Prop :=
  ∀ row row' channel channel', row < grid.rows → row' < grid.rows → channel < grid.channels →
    channel' < grid.channels → (cell (grid.eventAt pattern channel row)).length
      = (cell (grid.eventAt pattern channel' row')).length

/-- Each channel begins at the same column in all lines. -/
def Aligned (grid : Grid) (pattern : Nat) : Prop :=
  ∀ row row' channel, row < grid.rows → row' < grid.rows → channel < grid.channels →
    column grid pattern row channel = column grid pattern row' channel

/-- No cell is left out. -/
theorem rowLine_eq {grid : Grid} {pattern row : Nat} (hevent : ∀ channel, channel < grid.channels →
      grid.event? pattern channel row = some (grid.eventAt pattern channel row)) :
    rowLine grid pattern row = "  " ++ hex 2 row ++ " | " ++ " | ".intercalate
      ((List.range grid.channels).map fun channel => cell (grid.eventAt pattern channel row)) := by
  have hcells : ((List.range grid.channels).filterMap fun channel =>
      (grid.event? pattern channel row).map cell)
        = (List.range grid.channels).map fun channel => cell (grid.eventAt pattern channel row) := by
    rw [← List.filterMap_eq_map]
    refine List.filterMap_congr fun channel hchannel => ?_
    rw [hevent channel (List.mem_range.mp hchannel)]
    rfl
  rw [rowLine, hcells]
  rfl

theorem sum_widths_eq {grid : Grid} {pattern row : Nat} (hwidth : ∀ channel, channel < grid.channels →
      (cell (grid.eventAt pattern channel row)).length
        = cellWidth (grid.eventAt pattern channel row)) {channel : Nat} (h : channel ≤ grid.channels) :
    7 + ((List.range channel).map fun channel =>
      (cell (grid.eventAt pattern channel row)).length + 3).sum = column grid pattern row channel := by
  induction channel with
  | zero => rfl
  | succ channel ih =>
      rw [List.range_succ, List.map_append, List.sum_append, ← Nat.add_assoc, ih (Nat.le_of_succ_le h),
        List.map_singleton, List.sum_singleton, hwidth channel h, column, Nat.add_assoc]

/-- In two lines the cells behind a channel begin at the same column if those of the channel do and are
of the same width. -/
theorem aligned_iff (grid : Grid) (pattern : Nat) : Aligned grid pattern ↔
    ∀ row row' channel, row < grid.rows → row' < grid.rows → channel + 1 < grid.channels →
      (grid.eventAt pattern channel row).isEmpty = (grid.eventAt pattern channel row').isEmpty := by
  constructor
  · intro h row row' channel hrow hrow' hchannel
    have hhere := h row row' channel hrow hrow' (Nat.lt_of_succ_lt hchannel)
    have hnext := h row row' (channel + 1) hrow hrow' hchannel
    rw [column, column, hhere] at hnext
    rw [← cellWidth_eq_iff]
    omega
  · intro h row row' channel hrow hrow' hchannel
    induction channel with
    | zero => rfl
    | succ channel ih =>
        have hwidth := (cellWidth_eq_iff _ _).mpr (h row row' channel hrow hrow' hchannel)
        rw [column, column, ih (Nat.lt_of_succ_lt hchannel), hwidth]

section Song

variable {grid : Grid} {pattern : Nat} (hpattern : pattern < grid.patternCount)

include hpattern

theorem event?_eq_some_eventAt {channel row : Nat} (hchannel : channel < grid.channels)
    (hrow : row < grid.rows) :
    grid.event? pattern channel row = some (grid.eventAt pattern channel row) := by
  have hthere := (grid.isSome_event?_iff pattern channel row).mpr ⟨hpattern, hchannel, hrow⟩
  obtain ⟨event, hevent⟩ := Option.isSome_iff_exists.mp hthere
  rw [Grid.eventAt, hevent, Option.getD_some]

variable (hcanonical : ∀ event ∈ grid.cells, event.Canonical grid.family)

include hcanonical

theorem length_cell_eventAt {channel row : Nat} (hchannel : channel < grid.channels)
    (hrow : row < grid.rows) :
    (cell (grid.eventAt pattern channel row)).length = cellWidth (grid.eventAt pattern channel row) :=
  length_cell (hcanonical _ (Grid.mem_cells_of_event? (event?_eq_some_eventAt hpattern hchannel hrow)))

theorem rowShown_rowLine {row : Nat} (hrow : row < grid.rows) :
    RowShown grid pattern row (rowLine grid pattern row) := by
  have hlabel : (hex 2 row).length = 2 :=
    length_hex_of_lt Nat.two_pos (Nat.lt_of_lt_of_le hrow grid.rows_le)
  have hevent := fun channel (hchannel : channel < grid.channels) =>
    event?_eq_some_eventAt hpattern hchannel hrow
  have hwidth := fun channel (hchannel : channel < grid.channels) =>
    length_cell_eventAt hpattern hcanonical hchannel hrow
  refine ⟨hlabel, rowLine_eq hevent, hevent, hwidth, fun _ _ => plain_cell _, ?_⟩
  intro channel hchannel
  have hcell : ((List.range grid.channels).map fun channel =>
      cell (grid.eventAt pattern channel row))[channel]?
        = some (cell (grid.eventAt pattern channel row)) := by
    rw [List.getElem?_map, List.getElem?_range hchannel, Option.map_some]
  obtain ⟨before, after, hjoined, hlength⟩ := exists_intercalate_eq " | " hcell
  rw [← List.map_take, List.take_range, Nat.min_eq_left (Nat.le_of_lt hchannel),
    List.map_map] at hlength
  refine ⟨"  " ++ hex 2 row ++ " | " ++ before, after, ?_, ?_⟩
  · rw [rowLine_eq hevent, hjoined]
    simp only [String.append_assoc]
  · rw [← sum_widths_eq hwidth (Nat.le_of_lt hchannel), String.length_append, String.length_append,
      String.length_append, hlabel, hlength]
    rfl

theorem tabulates_pattern : Tabulates grid pattern (Report.pattern grid pattern) := by
  refine ⟨by rw [Report.pattern, List.length_map, List.length_range], fun row hrow => ?_⟩
  refine ⟨_, ?_, rowShown_rowLine hpattern hcanonical hrow⟩
  rw [Report.pattern, List.getElem?_map, List.getElem?_range hrow, Option.map_some]

theorem sameWidth_iff : SameWidth grid pattern ↔ ∀ row row' channel channel', row < grid.rows →
    row' < grid.rows → channel < grid.channels → channel' < grid.channels →
      (grid.eventAt pattern channel row).isEmpty = (grid.eventAt pattern channel' row').isEmpty := by
  unfold SameWidth
  refine forall₄_congr fun row row' channel channel' =>
    forall₄_congr fun hrow hrow' hchannel hchannel' => ?_
  rw [length_cell_eventAt hpattern hcanonical hchannel hrow,
    length_cell_eventAt hpattern hcanonical hchannel' hrow', cellWidth_eq_iff]

end Song

end Report

namespace Inspection

open Report

/-- The pattern that is asked for is shown row by row, each row with a cell for each channel. All its
cells have the same width just when none of its events is empty or all are. And each channel begins at
the same column in all lines just when each channel but the last is empty in all rows or in none. -/
theorem patternTable_tabulates {data : Array UInt8} {song : Song} (h : Song.load data = .ok song)
    {options : Options} {pattern : Nat} (hasked : options.pattern = some pattern)
    (hroom : pattern < song.grid.patternCount) :
    Tabulates song.grid pattern (patternTable options song)
      ∧ (SameWidth song.grid pattern ↔ ∀ row row' channel channel', row < song.grid.rows →
        row' < song.grid.rows → channel < song.grid.channels → channel' < song.grid.channels →
          (song.grid.eventAt pattern channel row).isEmpty
            = (song.grid.eventAt pattern channel' row').isEmpty)
      ∧ (Aligned song.grid pattern ↔ ∀ row row' channel, row < song.grid.rows →
        row' < song.grid.rows → channel + 1 < song.grid.channels →
          (song.grid.eventAt pattern channel row).isEmpty
            = (song.grid.eventAt pattern channel row').isEmpty) := by
  obtain ⟨file, -, -, hdescribes⟩ := Song.exists_describes_of_load h
  have hcanonical : ∀ event ∈ song.grid.cells, event.Canonical song.grid.family :=
    fun event hevent => Song.canonical_of_describes hdescribes hevent
  have htable : patternTable options song = Report.pattern song.grid pattern := by
    rw [patternTable, hasked]
  rw [htable]
  exact ⟨tabulates_pattern hroom hcanonical, sameWidth_iff hroom hcanonical,
    aligned_iff song.grid pattern⟩

/-- A tiny module of version 4 in which nothing happens but a note in the first cell. -/
def loneFile : ModuleFile where
  header := ⟨.a2t, 0, 4, 1, 18, 6⟩
  version := .v4
  settings := {}
  blocks := [List.replicate 3250 0, List.replicate 128 0, 1 :: List.replicate 36863 0, [], [], []]
  rest := []

theorem wellFormed_loneFile : loneFile.WellFormed := by
  have hlengths : loneFile.blocks.map List.length = [3250, 128, 36864, 0, 0, 0] := by
    simp only [loneFile, List.map_cons, List.map_nil, List.length_cons, List.length_replicate,
      List.length_nil]
  refine ModuleFile.wellFormed_of_lengths hlengths rfl ?_ rfl (by decide) ⟨rfl, rfl, by decide⟩
    (by decide)
  intro hfull
  cases hfull

theorem eventAt_loneFile {song : Song} (h : loneFile.Describes song) {channel row : Nat}
    (hchannel : channel < 9) (hrow : row < 64) : song.grid.eventAt 0 channel row
      = Family.classic.eventAt (1 :: List.replicate 36863 (0 : UInt8)).toArray
        (4 * (row * 9 + channel)) := by
  have hslot : (BlockKind.patternGroup 0, 1 :: List.replicate 36863 (0 : UInt8)) ∈ loneFile.slots :=
    List.mem_cons_of_mem _ (List.mem_cons_of_mem _ List.mem_cons_self)
  have hsize : (1 :: List.replicate 36863 (0 : UInt8)).length = 36864 := by
    rw [List.length_cons, List.length_replicate]
  have hunpacks := ModuleFile.unpacks_of_raw rfl hslot hsize
  rcases h.events 0 channel row (by decide) hchannel hrow with ⟨block, hblock, hevent⟩ | ⟨hlacks, -⟩
  · obtain rfl := wellFormed_loneFile.toHasHeader.eq_of_unpacks hunpacks hblock
    rw [Grid.eventAt, hevent, Option.getD_some]
    show Family.eventAt _ _ (4 * ((0 * 64 + row) * 9 + channel)) = _
    rw [Nat.zero_mul, Nat.zero_add]
    rfl
  · exact absurd hlacks (wellFormed_loneFile.toHasHeader.not_lacks_of_unpacks hunpacks)

/-- All cells of the first pattern but the first are empty. -/
theorem isEmpty_eventAt_loneFile {song : Song} (h : loneFile.Describes song) {channel row : Nat}
    (hchannel : channel < 9) (hrow : row < 64) :
    (song.grid.eventAt 0 channel row).isEmpty = decide (0 < row * 9 + channel) := by
  rw [eventAt_loneFile h hchannel hrow]
  by_cases hlater : 0 < row * 9 + channel
  · have hzero : ∀ index, 4 * (row * 9 + channel) ≤ index →
        (1 :: List.replicate 36863 (0 : UInt8)).toArray.getD index 0 = 0 := by
      intro index hindex
      obtain ⟨place, rfl⟩ : ∃ place, index = place + 1 := ⟨index - 1, by omega⟩
      rw [Array.getD_eq_getD_getElem?, List.getElem?_toArray, List.getElem?_cons_succ,
        List.getElem?_replicate]
      split <;> rfl
    rw [Family.eventAt_eq_empty .classic hzero, decide_eq_true hlater]
    rfl
  · have hfirst : row * 9 + channel = 0 := by omega
    have hnote : (Family.classic.eventAt (1 :: List.replicate 36863 0).toArray 0).note = 1 := by
      rw [Family.note_eventAt, byteAt, Array.getD_eq_getD_getElem?, List.getElem?_toArray,
        List.getElem?_cons_zero]
      rfl
    rw [decide_eq_false hlater, hfirst, Event.isEmpty, beq_eq_false_iff_ne]
    intro hempty
    rw [hempty] at hnote
    exact absurd hnote (by decide)

/-- There is room for other cells behind the first one and below it, and the one below is empty. -/
theorem exists_load_loneFile : ∃ song, Song.load loneFile.bytes.toArray = .ok song
    ∧ 0 < song.grid.patternCount ∧ 1 < song.grid.channels ∧ 1 < song.grid.rows
    ∧ (song.grid.eventAt 0 0 0).isEmpty ≠ (song.grid.eventAt 0 0 1).isEmpty := by
  obtain ⟨song, hload⟩ := wellFormed_loneFile.exists_load
  obtain ⟨-, hdescribes⟩ :=
    wellFormed_loneFile.toHasHeader.describes_of_load List.toList_toArray hload
  have hfamily : song.grid.family = .classic := hdescribes.family
  have hcount : song.grid.patternCount = 64 := by
    rw [Grid.patternCount_eq, hfamily]
    rfl
  have hchannels : song.grid.channels = 9 := congrArg Family.channels hfamily
  have hrows : song.grid.rows = 64 := congrArg Family.rows hfamily
  refine ⟨song, hload, by omega, by omega, by omega, ?_⟩
  rw [isEmpty_eventAt_loneFile hdescribes (by decide) (by decide),
    isEmpty_eventAt_loneFile hdescribes (by decide) (by decide)]
  decide

/-- In the table of this module the first cell is wider than the one below it, and all behind it in its
line are out of place. -/
theorem patternTable_tabulates_loneFile : ∃ song, Song.load loneFile.bytes.toArray = .ok song
    ∧ Tabulates song.grid 0 (patternTable { pattern := some 0 } song)
    ∧ ¬ SameWidth song.grid 0 ∧ ¬ Aligned song.grid 0 := by
  obtain ⟨song, hload, hroom, hchannels, hrows, hdiffer⟩ := exists_load_loneFile
  have hasked : ({ pattern := some 0 } : Options).pattern = some 0 := rfl
  obtain ⟨htable, hsame, haligned⟩ := patternTable_tabulates hload hasked hroom
  refine ⟨song, hload, htable, fun h => hdiffer ?_, fun h => hdiffer ?_⟩
  · exact hsame.mp h 0 1 0 0 (by omega) hrows (by omega) (by omega)
  · exact haligned.mp h 0 1 0 (by omega) hrows hchannels

/-- The cells of a table need not have the same width, nor its channels begin at the same column in all
lines. -/
theorem not_forall_aligned : ¬ ∀ (data : Array UInt8) (song : Song) (options : Options) (pattern : Nat),
    Song.load data = .ok song → options.pattern = some pattern → pattern < song.grid.patternCount →
      Tabulates song.grid pattern (patternTable options song)
        ∧ SameWidth song.grid pattern ∧ Aligned song.grid pattern := by
  intro hall
  obtain ⟨song, hload, hroom, hchannels, hrows, hdiffer⟩ := exists_load_loneFile
  obtain ⟨-, -, haligned⟩ := hall _ song { pattern := some 0 } 0 hload rfl hroom
  exact hdiffer ((aligned_iff song.grid 0).mp haligned 0 1 0 (by omega) hrows hchannels)

end Inspection
end AdLibModule
