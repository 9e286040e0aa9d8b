import AdLibModule.Layout
import AdLibModule.Proofs.Decodes

/-! Where the parts of a song lie in its blocks, field by field, and that the readings of the blocks
yield just what is stored there: on every block that is large enough, whatever its bytes are. -/

namespace AdLibModule

open Read

/-! ### Records -/

theorem take_toList_fieldAt {bytes : Array UInt8} {offset size part : Nat} (h : part ≤ size) :
    (fieldAt bytes offset size).toList.take part = (fieldAt bytes offset part).toList := by
  rw [fieldAt, fieldAt, Array.toList_extract, Array.toList_extract, List.extract, List.extract,
    List.take_take, Nat.add_sub_cancel_left, Nat.add_sub_cancel_left, Nat.min_eq_left h]

theorem toNat_le_macroRoom (length : UInt8) : length.toNat ≤ macroRoom :=
  Nat.le_of_lt_succ length.toNat_lt

/-- The instruments in a table of records, with the names that go with them. -/
def Instrument.tableAt (version : Version) (names : List String) (bytes : Array UInt8) (offset : Nat) :
    List Instrument :=
  (List.range version.instrumentCount).map fun slot =>
    ofRecord version (fieldAt bytes (offset + slot * version.recordSize) version.recordSize)
      (names.getD slot "")

theorem zipIdx_map_range {α : Type} (f : Nat → α) (count : Nat) :
    ((List.range count).map f).zipIdx = (List.range count).map fun index => (f index, index) := by
  apply List.ext_getElem
  · simp
  · intro index _ _
    simp

theorem fetches_instruments (version : Version) (names : List String) :
    (Instrument.readAll version names).Fetches (version.instrumentCount * version.recordSize)
      (Instrument.tableAt version names) := by
  refine (((fetches_bytes version.recordSize).times version.instrumentCount).map _).congr ?_
  intro bytes offset _
  rw [zipIdx_map_range, List.map_map]
  rfl

def RegisterStep.storedAt (bytes : Array UInt8) (offset : Nat) : RegisterStep where
  registers := bytesAt 11 bytes offset
  frequencySlide := (wordAt bytes (offset + 11)).toInt16
  panning := byteAt bytes (offset + 13)
  duration := byteAt bytes (offset + 14)

theorem fetches_registerStep : RegisterStep.read.Fetches 15 RegisterStep.storedAt := by
  have hfetches := (fetches_vector 11).bind fun registers => fetches_i16.bind fun slide =>
    fetches_u8.bind fun panning => fetches_u8.map fun duration =>
      RegisterStep.mk registers slide panning duration
  exact hfetches

/-- The macro in a stored record, of which only the steps in use are kept. -/
def InstrumentMacro.storedAt (bytes : Array UInt8) (offset : Nat) : InstrumentMacro where
  length := byteAt bytes offset
  loopBegin := byteAt bytes (offset + 1)
  loopLength := byteAt bytes (offset + 2)
  keyOffPosition := byteAt bytes (offset + 3)
  arpeggioTable := byteAt bytes (offset + 4)
  vibratoTable := byteAt bytes (offset + 5)
  steps := (List.range (byteAt bytes offset).toNat).map fun step =>
    RegisterStep.storedAt bytes (offset + 6 + step * 15)

theorem fetches_instrumentMacro :
    InstrumentMacro.read.Fetches InstrumentMacro.storedSize InstrumentMacro.storedAt := by
  have hfetches := fetches_u8.bind fun length => fetches_u8.bind fun loopBegin =>
    fetches_u8.bind fun loopLength => fetches_u8.bind fun keyOffPosition =>
    fetches_u8.bind fun arpeggioTable => fetches_u8.bind fun vibratoTable =>
    (fetches_registerStep.times macroRoom).map fun steps =>
      InstrumentMacro.mk length loopBegin loopLength keyOffPosition arpeggioTable vibratoTable
        (steps.take length.toNat)
  refine hfetches.congr fun bytes offset _ => ?_
  rw [← List.map_take, List.take_range, Nat.min_eq_left (toNat_le_macroRoom _)]
  rfl

def ArpeggioTable.storedAt (bytes : Array UInt8) (offset : Nat) : ArpeggioTable where
  length := byteAt bytes offset
  speed := byteAt bytes (offset + 1)
  loopBegin := byteAt bytes (offset + 2)
  loopLength := byteAt bytes (offset + 3)
  keyOffPosition := byteAt bytes (offset + 4)
  entries := (fieldAt bytes (offset + 5) (byteAt bytes offset).toNat).toList

theorem fetches_arpeggioTable :
    ArpeggioTable.read.Fetches (5 + macroRoom) ArpeggioTable.storedAt := by
  have hfetches := fetches_u8.bind fun length => fetches_u8.bind fun speed =>
    fetches_u8.bind fun loopBegin => fetches_u8.bind fun loopLength =>
    fetches_u8.bind fun keyOffPosition => (fetches_bytes macroRoom).map fun entries =>
      ArpeggioTable.mk length speed loopBegin loopLength keyOffPosition
        (entries.toList.take length.toNat)
  refine hfetches.congr fun bytes offset _ => ?_
  rw [take_toList_fieldAt (toNat_le_macroRoom _)]
  rfl

def VibratoTable.storedAt (bytes : Array UInt8) (offset : Nat) : VibratoTable where
  length := byteAt bytes offset
  speed := byteAt bytes (offset + 1)
  delay := byteAt bytes (offset + 2)
  loopBegin := byteAt bytes (offset + 3)
  loopLength := byteAt bytes (offset + 4)
  keyOffPosition := byteAt bytes (offset + 5)
  entries := (fieldAt bytes (offset + 6) (byteAt bytes offset).toNat).toList.map UInt8.toInt8

theorem fetches_vibratoTable :
    VibratoTable.read.Fetches (6 + macroRoom) VibratoTable.storedAt := by
  have hfetches := fetches_u8.bind fun length => fetches_u8.bind fun speed =>
    fetches_u8.bind fun delay => fetches_u8.bind fun loopBegin => fetches_u8.bind fun loopLength =>
    fetches_u8.bind fun keyOffPosition => (fetches_bytes macroRoom).map fun entries =>
      VibratoTable.mk length speed delay loopBegin loopLength keyOffPosition
        ((entries.toList.take length.toNat).map UInt8.toInt8)
  refine hfetches.congr fun bytes offset _ => ?_
  rw [take_toList_fieldAt (toNat_le_macroRoom _)]
  rfl

/-- The vibrato table begins behind all that the arpeggio table has room for. -/
def MacroTable.storedAt (bytes : Array UInt8) (offset : Nat) : MacroTable where
  arpeggio := ArpeggioTable.storedAt bytes offset
  vibrato := VibratoTable.storedAt bytes (offset + 260)

theorem fetches_macroTable : MacroTable.read.Fetches MacroTable.storedSize MacroTable.storedAt := by
  have hfetches := fetches_arpeggioTable.bind fun arpeggio => fetches_vibratoTable.map fun vibrato =>
    MacroTable.mk arpeggio vibrato
  exact hfetches

def DisabledColumns.storedAt (bytes : Array UInt8) (offset : Nat) : DisabledColumns :=
  (bytesAt 28 bytes offset).map (· != 0)

theorem fetches_disabledColumns :
    DisabledColumns.read.Fetches DisabledColumns.storedSize DisabledColumns.storedAt :=
  (fetches_vector 28).map _

/-- A table with a record for each instrument that has macros. -/
def slotsAt {α : Type} (size : Nat) (stored : Array UInt8 → Nat → α) (bytes : Array UInt8)
    (offset : Nat) : List α :=
  (List.range macroSlots).map fun slot => stored bytes (offset + slot * size)

theorem fetches_instrumentMacros :
    InstrumentMacro.readAll.Fetches (macroSlots * InstrumentMacro.storedSize)
      (slotsAt InstrumentMacro.storedSize InstrumentMacro.storedAt) :=
  fetches_instrumentMacro.times macroSlots

theorem fetches_macroTables :
    MacroTable.readAll.Fetches (macroSlots * MacroTable.storedSize)
      (slotsAt MacroTable.storedSize MacroTable.storedAt) :=
  fetches_macroTable.times macroSlots

theorem fetches_allDisabledColumns :
    DisabledColumns.readAll.Fetches (macroSlots * DisabledColumns.storedSize)
      (slotsAt DisabledColumns.storedSize DisabledColumns.storedAt) :=
  fetches_disabledColumns.times macroSlots

/-! ### Settings -/

namespace Settings

/-- The settings that the version stores, all others with their defaults. -/
def storedAt (version : Version) (bytes : Array UInt8) (offset : Nat) : Settings where
  commonFlag := if version.number < 5 then 0 else byteAt bytes offset
  patternLength := if version.number < 9 then 64 else wordAt bytes (offset + 1)
  trackCount := if version.number < 9 then 18 else byteAt bytes (offset + 3)
  macroSpeedup := if version.number < 9 then 1 else wordAt bytes (offset + 4)
  fourOpFlag := if version.number < 10 then 0 else byteAt bytes (offset + 6)
  lockFlags := if version.number < 10 then Vector.replicate 20 0 else bytesAt 20 bytes (offset + 7)

end Settings

theorem fetches_settings (version : Version) :
    (Settings.read version).Fetches (Settings.storedSize version) (Settings.storedAt version) := by
  unfold Settings.read Settings.storedSize Settings.storedAt
  by_cases h5 : version.number < 5
  · have h9 : version.number < 9 := UInt8.lt_trans h5 (by decide)
    have h10 : version.number < 10 := UInt8.lt_trans h5 (by decide)
    simp only [if_pos h5, if_pos h9, if_pos h10]
    exact fetches_pure ({} : Settings)
  by_cases h9 : version.number < 9
  · have h10 : version.number < 10 := UInt8.lt_trans h9 (by decide)
    simp only [if_neg h5, if_pos h9, if_pos h10]
    exact fetches_u8.map fun commonFlag => ({ commonFlag } : Settings)
  by_cases h10 : version.number < 10
  · simp only [if_neg h5, if_neg h9, if_pos h10]
    have hfetches := fetches_u8.bind fun commonFlag => fetches_u16.bind fun patternLength =>
      fetches_u8.bind fun trackCount => fetches_u16.map fun macroSpeedup =>
        ({ commonFlag, patternLength, trackCount, macroSpeedup } : Settings)
    exact hfetches
  · simp only [if_neg h5, if_neg h9, if_neg h10]
    have hfetches := fetches_u8.bind fun commonFlag => fetches_u16.bind fun patternLength =>
      fetches_u8.bind fun trackCount => fetches_u16.bind fun macroSpeedup =>
      fetches_u8.bind fun fourOpFlag => (fetches_vector 20).map fun lockFlags =>
        Settings.mk commonFlag patternLength trackCount macroSpeedup fourOpFlag lockFlags
    exact hfetches

/-! ### The song data -/

namespace SongData

/-- The number of bytes that are read of the block: all that are stored, but for the names and columns
that version 10 stores and does not use. -/
def readSize (version : Version) : Nat :=
  storedSize version
    - if version.number = 10 then namedPatterns * textSize + macroSlots * DisabledColumns.storedSize
      else 0

section Offsets

variable (version : Version) (slot : Nat)

/-- Where the name of an instrument begins, behind the title and the author. -/
def nameOffset : Nat := 86 + slot * version.nameSize

def recordOffset : Nat :=
  nameOffset version version.instrumentCount + slot * version.recordSize

def macroOffset : Nat :=
  recordOffset version version.instrumentCount + slot * 3831

def tableOffset : Nat := macroOffset version 255 + slot * 521

/-- Where the order list begins. -/
def orderOffset : Nat :=
  recordOffset version version.instrumentCount + if version.hasMacros then 255 * (3831 + 521) else 0

/-- Where the name of a pattern begins, behind the tempo, the speed and 27 bytes of settings. -/
def patternNameOffset : Nat := orderOffset version + 157 + slot * 43

def columnsOffset : Nat := patternNameOffset version 128 + slot * 28

end Offsets

/-- What the block says, with every part in its place. Parts that the version does not use are empty,
and settings that it does not store have their defaults. -/
def ofBlock (version : Version) (block : Array UInt8) : SongData where
  title := textAt block 0 43
  author := textAt block 43 43
  instruments := (List.range version.instrumentCount).map fun slot =>
    Instrument.ofRecord version (fieldAt block (recordOffset version slot) version.recordSize)
      (textAt block (nameOffset version slot) version.nameSize)
  instrumentMacros :=
    if version.hasMacros then
      (List.range 255).map fun slot => InstrumentMacro.storedAt block (macroOffset version slot)
    else []
  macroTables :=
    if version.hasMacros then
      (List.range 255).map fun slot => MacroTable.storedAt block (tableOffset version slot)
    else []
  order := bytesAt orderSize block (orderOffset version)
  tempo := byteAt block (orderOffset version + 128)
  speed := byteAt block (orderOffset version + 129)
  settings := Settings.storedAt version block (orderOffset version + 130)
  patternNames :=
    if version.number = 11 then
      (List.range 128).map fun slot => textAt block (patternNameOffset version slot) 43
    else []
  disabledColumns :=
    if version.number = 11 then
      (List.range 255).map fun slot => DisabledColumns.storedAt block (columnsOffset version slot)
    else []

theorem fetches_readInstruments (version : Version) : (readInstruments version).Fetches
    (version.instrumentCount * version.nameSize + version.instrumentCount * version.recordSize)
    fun bytes offset => (List.range version.instrumentCount).map fun slot =>
      Instrument.ofRecord version
        (fieldAt bytes (offset + version.instrumentCount * version.nameSize + slot * version.recordSize)
          version.recordSize)
        (textAt bytes (offset + slot * version.nameSize) version.nameSize) := by
  refine (((fetches_pascal version.nameSize).times version.instrumentCount).bind fun names =>
    (fetches_instruments version names).within).congr fun bytes offset _ => ?_
  refine List.map_congr_left fun slot hslot => ?_
  rw [List.getD_eq_getElem?_getD, List.getElem?_map, List.getElem?_range (List.mem_range.mp hslot)]
  rfl

theorem fetches_readMacros (version : Version) : (readMacros version).Fetches
    (if version.hasMacros then macroSlots * InstrumentMacro.storedSize else 0) fun bytes offset =>
      if version.hasMacros then slotsAt InstrumentMacro.storedSize InstrumentMacro.storedAt bytes offset
      else [] :=
  fetches_instrumentMacros.within.orAbsent []

theorem fetches_readTables (version : Version) : (readTables version).Fetches
    (if version.hasMacros then macroSlots * MacroTable.storedSize else 0) fun bytes offset =>
      if version.hasMacros then slotsAt MacroTable.storedSize MacroTable.storedAt bytes offset
      else [] :=
  fetches_macroTables.within.orAbsent []

theorem fetches_readPatternNames (version : Version) : (readPatternNames version).Fetches
    (if version.number = 11 then namedPatterns * textSize else 0) fun bytes offset =>
      if version.number = 11 then
        (List.range namedPatterns).map fun slot => textAt bytes (offset + slot * textSize) textSize
      else [] :=
  ((fetches_pascal textSize).times namedPatterns).orAbsent []

theorem fetches_readDisabledColumns (version : Version) : (readDisabledColumns version).Fetches
    (if version.number = 11 then macroSlots * DisabledColumns.storedSize else 0) fun bytes offset =>
      if version.number = 11 then
        slotsAt DisabledColumns.storedSize DisabledColumns.storedAt bytes offset
      else [] :=
  fetches_allDisabledColumns.within.orAbsent []

/-! Each part begins where the one before it ends. -/

theorem recordOffset_eq (version : Version) :
    0 + textSize + textSize + (version.instrumentCount * version.nameSize
      + version.instrumentCount * version.recordSize)
        = recordOffset version version.instrumentCount := by
  simp only [recordOffset, nameOffset, textSize]
  omega

theorem orderOffset_eq (version : Version) :
    (recordOffset version version.instrumentCount
      + if version.hasMacros then macroSlots * InstrumentMacro.storedSize else 0)
      + (if version.hasMacros then macroSlots * MacroTable.storedSize else 0)
        = orderOffset version := by
  unfold orderOffset
  split
  · exact Nat.add_assoc _ _ _
  · rfl

theorem patternNameOffset_eq {version : Version} (h : version.number = 11) :
    orderOffset version + orderSize + 1 + 1 + Settings.storedSize version
      = patternNameOffset version 0 := by
  have hsettings : Settings.storedSize version = 27 := by
    simp only [Settings.storedSize, h]
    decide
  simp only [hsettings, patternNameOffset, orderSize]

theorem readSize_eq (version : Version) :
    textSize + (textSize + (version.instrumentCount * version.nameSize
      + version.instrumentCount * version.recordSize
      + ((if version.hasMacros then macroSlots * InstrumentMacro.storedSize else 0)
      + ((if version.hasMacros then macroSlots * MacroTable.storedSize else 0)
      + (orderSize + (1 + (1 + (Settings.storedSize version
      + ((if version.number = 11 then namedPatterns * textSize else 0)
      + (if version.number = 11 then macroSlots * DisabledColumns.storedSize else 0))))))))))
      = readSize version := by
  cases version <;> decide

/-- The layout counts each offset from the start, and what is fetched from the part before it. -/
theorem fetches_read (version : Version) : ∃ stored : Array UInt8 → Nat → SongData,
    (SongData.read version).Fetches (readSize version) stored
      ∧ ∀ block, stored block 0 = ofBlock version block := by
  have hfetches := (fetches_pascal textSize).bind fun title =>
    (fetches_pascal textSize).bind fun author =>
    (fetches_readInstruments version).bind fun instruments =>
    (fetches_readMacros version).bind fun macros => (fetches_readTables version).bind fun tables =>
    (fetches_vector orderSize).bind fun order => fetches_u8.bind fun tempo =>
    fetches_u8.bind fun speed => (fetches_settings version).bind fun settings =>
    (fetches_readPatternNames version).bind fun names =>
    (fetches_readDisabledColumns version).map fun columns =>
      SongData.mk title author instruments macros tables order tempo speed settings names columns
  rw [readSize_eq] at hfetches
  refine ⟨_, hfetches, fun block => ?_⟩
  rw [recordOffset_eq, orderOffset_eq, ofBlock, SongData.mk.injEq]
  refine ⟨rfl, rfl, rfl, rfl, ?tables, rfl, rfl, rfl, rfl, ?names, ?columns⟩
  case tables =>
    by_cases hhas : version.hasMacros
    · simp only [if_pos hhas]
      rfl
    · simp only [if_neg hhas]
  case names =>
    by_cases h11 : version.number = 11
    · simp only [if_pos h11, patternNameOffset_eq h11]
      rfl
    · simp only [if_neg h11]
  case columns =>
    by_cases h11 : version.number = 11
    · simp only [if_pos h11, patternNameOffset_eq h11]
      rfl
    · simp only [if_neg h11]

/-- A block is read when it has the bytes that the version reads of it, and is too short otherwise. Of
these bytes every part is read in its place, and no others matter. -/
theorem read_onBytes_eq_ofBlock (version : Version) (block : Array UInt8) :
    ((∃ data, (SongData.read version).onBytes block = .ok data) ↔ readSize version ≤ block.size)
    ∧ (block.size < readSize version →
      ∃ error, (SongData.read version).onBytes block = .error error ∧ error.IsShortageIn block)
    ∧ (readSize version ≤ block.size →
      (SongData.read version).onBytes block = .ok (ofBlock version block)
      ∧ ∀ block' : Array UInt8,
        block'.extract 0 (readSize version) = block.extract 0 (readSize version) →
        (SongData.read version).onBytes block' = .ok (ofBlock version block)) := by
  obtain ⟨stored, hfetches, hstored⟩ := fetches_read version
  refine ⟨⟨?_, fun hroom => ⟨_, hfetches.onBytes_eq_ok hroom⟩⟩, hfetches.exists_onBytes_eq_error,
    fun hroom => ⟨hstored block ▸ hfetches.onBytes_eq_ok hroom, fun block' hsame => ?_⟩⟩
  · rintro ⟨data, hdata⟩
    by_contra hshort
    obtain ⟨error, herror, -⟩ := hfetches.exists_onBytes_eq_error (Nat.lt_of_not_le hshort)
    rw [hdata] at herror
    cases herror
  · have hfield := sameField_of_extract_eq hroom hsame
    have hroom' : readSize version ≤ block'.size := Nat.zero_add (readSize version) ▸ hfield.fits
    rw [hfetches.onBytes_eq_ok hroom', hfetches.depends hfield, hstored]

example : readSize .v8 = 11717 ∧ readSize .v9 = 1121967 ∧ readSize .v10 = 1124538
    ∧ readSize .v11 = 1137182 := by decide

/-- Version 10 stores more than it reads, and every other version just what it reads. -/
theorem exists_onBytes_eq_ok {version : Version} {block : Array UInt8}
    (hblock : block.size = storedSize version) :
    ∃ data, (SongData.read version).onBytes block = .ok data := by
  obtain ⟨stored, hfetches, -⟩ := fetches_read version
  exact ⟨_, hfetches.onBytes_eq_ok (hblock ▸ Nat.sub_le _ _)⟩

theorem byteAt_replicate {size offset : Nat} (byte : UInt8) (h : offset < size) :
    byteAt (Array.replicate size byte) offset = byte := by
  rw [byteAt_eq_getElem (Array.size_replicate.symm ▸ h), Array.getElem_replicate]

theorem textAt_replicate {size offset capacity : Nat} (byte : UInt8) (h : offset + capacity ≤ size) :
    textAt (Array.replicate size byte) offset capacity
      = Text.ofPascal (List.replicate capacity byte) := by
  rw [textAt, fieldAt_replicate byte h, Array.toList_replicate]

/-- A block of version 4 in which every byte is an A, and the same block without its last byte. -/
theorem read_onBytes_of_repeated_byte :
    (∃ data, (SongData.read .v4).onBytes (Array.replicate 11716 65) = .ok data
      ∧ data.title = String.ofList (List.replicate 42 'A') ∧ data.speed = 65 ∧ data.settings = {}
      ∧ data.macroTables = [])
    ∧ ∃ error, (SongData.read .v4).onBytes (Array.replicate 11715 65) = .error error
      ∧ error.IsShortageIn (Array.replicate 11715 65) := by
  have hsize : readSize .v4 = 11716 := by decide
  have hroom : readSize .v4 ≤ (Array.replicate 11716 (65 : UInt8)).size := by
    rw [hsize, Array.size_replicate]
  have hshort : (Array.replicate 11715 (65 : UInt8)).size < readSize .v4 := by
    rw [hsize, Array.size_replicate]
    decide
  have htitle : textAt (Array.replicate 11716 65) 0 43 = String.ofList (List.replicate 42 'A') :=
    textAt_replicate 65 (by decide)
  have hspeed : byteAt (Array.replicate 11716 65) (orderOffset .v4 + 129) = 65 :=
    byteAt_replicate 65 (by decide)
  obtain ⟨-, -, hread⟩ := read_onBytes_eq_ofBlock .v4 (Array.replicate 11716 65)
  obtain ⟨-, hfails, -⟩ := read_onBytes_eq_ofBlock .v4 (Array.replicate 11715 65)
  refine ⟨⟨ofBlock .v4 (Array.replicate 11716 65), (hread hroom).1, ?_, ?_, ?_, ?_⟩, hfails hshort⟩
  · rw [ofBlock, htitle]
  · rw [ofBlock, hspeed]
  · rfl
  · rfl

end SongData
end AdLibModule
