import AdLibModule.Proofs.Event
import AdLibModule.Proofs.ModuleFile

/-! Only well-formed songs are decoded. What a block tells of a song is checked by no one while it is
read: each part has its number of entries, and each entry its bounds, because of how it is read. The
conditions on the parts are collected reading by reading, and the song has them since each of its
parts was read in one of these ways or was never filled in. -/

namespace AdLibModule

open Read

/-! ### Texts -/

/-- The text has at most so many characters, and each of them stands for one byte. -/
structure Text.Fits (limit : Nat) (text : String) : Prop where
  length_le : text.length ≤ limit
  chars : ∀ c ∈ text.toList, c.toNat < 256

theorem Text.fits_empty (limit : Nat) : Fits limit "" := ⟨Nat.zero_le limit, by simp⟩

theorem Text.fits_ofBytes (bytes : List UInt8) : Fits bytes.length (ofBytes bytes) := by
  constructor
  · simp [ofBytes]
  · intro c hc
    simp only [ofBytes, String.toList_ofList, List.mem_map] at hc
    obtain ⟨byte, -, rfl⟩ := hc
    have hlt := byte.toNat_lt
    have hvalid : byte.toNat.isValidChar := Or.inl (by omega)
    rw [Char.toNat_ofNat, if_pos hvalid]
    exact hlt

theorem Text.fits_ofPascal (field : List UInt8) : Fits (field.length - 1) (ofPascal field) := by
  cases field with
  | nil => exact fits_empty 0
  | cons length body =>
      obtain ⟨hlength, hchars⟩ := fits_ofBytes (body.take length.toNat)
      refine ⟨hlength.trans ?_, hchars⟩
      simp

theorem Read.ensures_pascal (capacity : Nat) :
    (pascal capacity).Ensures (Text.Fits (capacity - 1)) := by
  refine (decodes_bytes capacity).ensures.map fun field hfield => ?_
  obtain ⟨_, -, rfl⟩ := hfield
  rw [← Array.length_toList]
  exact Text.fits_ofPascal field.toList

/-! ### Instruments -/

/-- The instrument has a name that fits its field, and nothing in the place of what the version does
not know. -/
structure Instrument.WellFormed (version : Version) (instrument : Instrument) : Prop where
  name : Text.Fits (version.nameSize - 1) instrument.name
  misc : 5 ≤ version.number → instrument.misc = 0
  voiceType : version.number < 9 → instrument.voiceType = 0

theorem Instrument.wellFormed_ofRecord (version : Version) (record : Array UInt8) {name : String}
    (hname : Text.Fits (version.nameSize - 1) name) :
    (ofRecord version record name).WellFormed version := by
  refine ⟨hname, ?_, ?_⟩
  · intro hversion
    simp [ofRecord, Version.hasPanning, hversion]
  · intro hversion
    simp [ofRecord, Version.hasVoiceType, hversion]

theorem Instrument.ensures_readAll (version : Version) (names : List String) :
    (readAll version names).Ensures fun instruments =>
      instruments.length = version.instrumentCount
        ∧ ∀ instrument ∈ instruments, ∃ record index,
          instrument = ofRecord version record (names.getD index "") := by
  refine ((ensures_true _).times version.instrumentCount).map fun records hrecords => ?_
  constructor
  · simp [hrecords.1]
  · intro instrument hinstrument
    obtain ⟨⟨record, index⟩, -, rfl⟩ := List.mem_map.mp hinstrument
    exact ⟨record, index, rfl⟩

/-- There are as many instruments as the version has, each of them well-formed. -/
structure Instrument.ListWellFormed (version : Version) (instruments : List Instrument) : Prop where
  length : instruments.length = version.instrumentCount
  each : ∀ instrument ∈ instruments, instrument.WellFormed version

theorem Instrument.ensures_readAll_wellFormed {version : Version} {names : List String}
    (hnames : ∀ name ∈ names, Text.Fits (version.nameSize - 1) name) :
    (readAll version names).Ensures (ListWellFormed version) := by
  intro cursor left instruments hread
  obtain ⟨hlength, heach⟩ := ensures_readAll version names hread
  refine ⟨hlength, fun instrument hinstrument => ?_⟩
  obtain ⟨record, index, rfl⟩ := heach instrument hinstrument
  apply wellFormed_ofRecord
  rw [List.getD_eq_getElem?_getD]
  cases hname : names[index]? with
  | none => exact Text.fits_empty _
  | some name => exact hnames name (List.mem_of_getElem? hname)

/-! ### Macros, tables and columns -/

/-- As many entries are kept as are in use. -/
def InstrumentMacro.WellFormed (unit : InstrumentMacro) : Prop :=
  unit.steps.length = unit.length.toNat

structure MacroTable.WellFormed (table : MacroTable) : Prop where
  arpeggio : table.arpeggio.entries.length = table.arpeggio.length.toNat
  vibrato : table.vibrato.entries.length = table.vibrato.length.toNat

theorem length_take_macroRoom {α : Type} {entries : List α} (h : entries.length = macroRoom)
    (length : UInt8) : (entries.take length.toNat).length = length.toNat := by
  have hlt := length.toNat_lt
  rw [List.length_take, h, macroRoom]
  omega

theorem InstrumentMacro.ensures_read : read.Ensures WellFormed := by
  refine (ensures_true _).bind fun length _ => (ensures_true _).bind fun _ _ =>
    (ensures_true _).bind fun _ _ => (ensures_true _).bind fun _ _ => (ensures_true _).bind fun _ _ =>
    (ensures_true _).bind fun _ _ => ((ensures_true _).times macroRoom).map fun steps hsteps => ?_
  exact length_take_macroRoom hsteps.1 length

theorem ArpeggioTable.ensures_read :
    read.Ensures fun table => table.entries.length = table.length.toNat := by
  refine (ensures_true _).bind fun length _ => (ensures_true _).bind fun _ _ =>
    (ensures_true _).bind fun _ _ => (ensures_true _).bind fun _ _ => (ensures_true _).bind fun _ _ =>
    (decodes_bytes macroRoom).ensures.map fun entries hentries => ?_
  obtain ⟨_, -, hsize⟩ := hentries
  exact length_take_macroRoom (Array.length_toList.trans hsize) length

theorem VibratoTable.ensures_read :
    read.Ensures fun table => table.entries.length = table.length.toNat := by
  refine (ensures_true _).bind fun length _ => (ensures_true _).bind fun _ _ =>
    (ensures_true _).bind fun _ _ => (ensures_true _).bind fun _ _ => (ensures_true _).bind fun _ _ =>
    (ensures_true _).bind fun _ _ => (decodes_bytes macroRoom).ensures.map fun entries hentries => ?_
  obtain ⟨_, -, hsize⟩ := hentries
  exact (List.length_map _).trans (length_take_macroRoom (Array.length_toList.trans hsize) length)

theorem MacroTable.ensures_read : read.Ensures WellFormed :=
  ArpeggioTable.ensures_read.bind fun _ harpeggio =>
    VibratoTable.ensures_read.map fun _ hvibrato => ⟨harpeggio, hvibrato⟩

/-- The list has an entry for each instrument with macros if the version has such a list, and else
none; all entries satisfy the condition. -/
structure Slots {α : Type} (there : Prop) [Decidable there] (valid : α → Prop) (entries : List α) :
    Prop where
  length : entries.length = if there then macroSlots else 0
  each : ∀ entry ∈ entries, valid entry

theorem slots_nil {α : Type} {there : Prop} [Decidable there] (valid : α → Prop) (h : ¬ there) :
    Slots there valid [] :=
  ⟨(if_neg h).symm, fun _ hentry => nomatch hentry⟩

theorem Read.Ensures.slots {α : Type} {reading : Read α} {valid : α → Prop} {there : Prop}
    [Decidable there] (h : reading.Ensures valid) (hthere : there) :
    (Read.times macroSlots reading).Ensures (Slots there valid) := by
  intro cursor left entries hread
  obtain ⟨hlength, heach⟩ := h.times macroSlots hread
  exact ⟨hlength.trans (if_pos hthere).symm, heach⟩

/-! ### The song data -/

/-- What the song data tells is well-formed. -/
structure SongData.WellFormed (version : Version) (data : SongData) : Prop where
  title : Text.Fits 42 data.title
  author : Text.Fits 42 data.author
  instruments : Instrument.ListWellFormed version data.instruments
  instrumentMacros : Slots version.hasMacros InstrumentMacro.WellFormed data.instrumentMacros
  macroTables : Slots version.hasMacros MacroTable.WellFormed data.macroTables
  settings : data.settings.kept version = data.settings
  patternNames : data.patternNames.length = (if version.number = 11 then 128 else 0)
    ∧ ∀ name ∈ data.patternNames, Text.Fits 42 name
  disabledColumns : Slots (version.number = 11) (fun _ => True) data.disabledColumns

namespace SongData

theorem ensures_readInstruments (version : Version) :
    (readInstruments version).Ensures (Instrument.ListWellFormed version) := by
  refine ((ensures_pascal version.nameSize).times version.instrumentCount).bind fun names hnames => ?_
  exact (Instrument.ensures_readAll_wellFormed hnames.2).within _

theorem ensures_readMacros (version : Version) :
    (readMacros version).Ensures (Slots version.hasMacros InstrumentMacro.WellFormed) := by
  unfold readMacros
  split_ifs with hhas
  · exact (InstrumentMacro.ensures_read.slots hhas).within _
  · exact ensures_pure (slots_nil _ hhas)

theorem ensures_readTables (version : Version) :
    (readTables version).Ensures (Slots version.hasMacros MacroTable.WellFormed) := by
  unfold readTables
  split_ifs with hhas
  · exact (MacroTable.ensures_read.slots hhas).within _
  · exact ensures_pure (slots_nil _ hhas)

theorem ensures_readPatternNames (version : Version) :
    (readPatternNames version).Ensures fun names =>
      names.length = (if version.number = 11 then 128 else 0) ∧ ∀ name ∈ names, Text.Fits 42 name := by
  unfold readPatternNames
  split_ifs with hlast
  · exact (ensures_pascal textSize).times namedPatterns
  · exact ensures_pure ⟨rfl, fun _ hname => nomatch hname⟩

theorem ensures_readDisabledColumns (version : Version) :
    (readDisabledColumns version).Ensures (Slots (version.number = 11) fun _ => True) := by
  unfold readDisabledColumns
  split_ifs with hlast
  · exact ((ensures_true DisabledColumns.read).slots hlast).within _
  · exact ensures_pure (slots_nil _ hlast)

theorem ensures_read (version : Version) : (read version).Ensures (WellFormed version) := by
  refine (ensures_pascal textSize).bind fun title htitle => (ensures_pascal textSize).bind
    fun author hauthor => (ensures_readInstruments version).bind fun instruments hinstruments =>
    (ensures_readMacros version).bind fun macros hmacros => (ensures_readTables version).bind
    fun tables htables => (ensures_true _).bind fun _ _ => (ensures_true _).bind fun _ _ =>
    (ensures_true _).bind fun _ _ => (Settings.decodes_read version).ensures.bind
    fun settings hsettings => (ensures_readPatternNames version).bind fun names hnames =>
    (ensures_readDisabledColumns version).map fun columns hcolumns => ?_
  obtain ⟨_, hkept, -⟩ := hsettings
  exact ⟨htitle, hauthor, hinstruments, hmacros, htables, hkept, hnames, hcolumns⟩

end SongData

/-! ### The song -/

/-- What is true of every song that was decoded. -/
structure Song.WellFormed (song : Song) : Prop where
  version : song.version.number ∈ ([1, 4, 5, 8, 9, 10, 11] : List UInt8)
  profile : Version.ofNumber song.version.number = .ok song.profile ∧ song.profile = song.version
  instruments : song.instruments.length = if song.version.number ≤ 8 then 250 else 255
  instrumentMacros : song.instrumentMacros.length = if 9 ≤ song.version.number then 255 else 0
  macroTables : song.macroTables.length = if 9 ≤ song.version.number then 255 else 0
  disabledColumns : song.disabledColumns.length = if song.version.number = 11 then 255 else 0
  patternNames : song.patternNames.length =
    if song.version.number = 11 ∧ song.container = .a2m then 128 else 0
  family : song.grid.family = .ofNumber song.version.number
  cells : song.grid.cells.size =
    song.grid.family.patternSlots * song.grid.family.channels * song.grid.family.rows
  texts : Text.Fits 42 song.title ∧ Text.Fits 42 song.author
  instrumentNames : ∀ instrument ∈ song.instruments,
    Text.Fits (if song.version.number < 10 then 32 else 42) instrument.name
  patternTexts : ∀ name ∈ song.patternNames, Text.Fits 42 name
  tiny : song.container = .a2t → song.title = "" ∧ song.author = ""
    ∧ ∀ instrument ∈ song.instruments, instrument.name = ""
  macroSteps : ∀ unit ∈ song.instrumentMacros, unit.WellFormed
  tableEntries : ∀ table ∈ song.macroTables, table.WellFormed
  events : ∀ event ∈ song.grid.cells, event.Canonical song.grid.family
  secondary : ∀ event ∈ song.grid.cells, song.version.number ≤ 8 → event.secondary = ⟨0, 0⟩
  misc : ∀ instrument ∈ song.instruments, 5 ≤ song.version.number → instrument.misc = 0
  voiceType : ∀ instrument ∈ song.instruments, song.version.number ≤ 8 → instrument.voiceType = 0
  settings : song.settings.kept song.version = song.settings

namespace Song

theorem profile_eq (song : Song) : song.profile = song.version := by
  rw [profile, Version.ofNumber_eq_ok_iff.mpr rfl]

/-- The parts of a song that are told by its song data, or by blocks of their own. -/
structure PartsWellFormed (song : Song) : Prop where
  texts : Text.Fits 42 song.title ∧ Text.Fits 42 song.author
  instruments : Instrument.ListWellFormed song.version song.instruments
  instrumentMacros : Slots song.version.hasMacros InstrumentMacro.WellFormed song.instrumentMacros
  macroTables : Slots song.version.hasMacros MacroTable.WellFormed song.macroTables
  settings : song.settings.kept song.version = song.settings
  patternNames : song.patternNames.length =
      (if song.version.number = 11 ∧ song.container = .a2m then 128 else 0)
    ∧ ∀ name ∈ song.patternNames, Text.Fits 42 name
  disabledColumns : Slots (song.version.number = 11) (fun _ => True) song.disabledColumns

theorem partsWellFormed_withData {song : Song} {data : SongData} (hfull : song.container = .a2m)
    (hdata : data.WellFormed song.version) (hsong : song.withData data = song) :
    song.PartsWellFormed := by
  rw [← hsong]
  refine ⟨⟨hdata.title, hdata.author⟩, hdata.instruments, hdata.instrumentMacros, hdata.macroTables,
    hdata.settings, ?_, hdata.disabledColumns⟩
  have hnames := hdata.patternNames
  simp only [withData, hfull, and_true]
  exact hnames

/-- A list with a block of its own is read from it, and a list without one is empty. -/
theorem slots_of_block {α : Type} {there : Prop} [Decidable there] {reading : Read α}
    {valid : α → Prop} (h : reading.Ensures valid) {unpacks : Array UInt8 → Prop} {entries : List α}
    (hentries : if there then ∃ block, unpacks block
        ∧ (Read.times macroSlots reading).onBytes block = .ok entries
      else entries = []) : Slots there valid entries := by
  split_ifs at hentries with hthere
  · obtain ⟨block, -, hread⟩ := hentries
    exact (h.slots hthere).onBytes hread
  · rw [hentries]
    exact slots_nil valid hthere

theorem settings_of_hasHeader {file : ModuleFile} (h : file.HasHeader)
    (htiny : file.header.container = .a2t) : file.settings.kept file.version = file.settings := by
  have hsettings := h.table.settings
  rw [htiny] at hsettings
  exact hsettings.symm

theorem partsWellFormed_of_describesTiny {file : ModuleFile} {song : Song} (hfile : file.HasHeader)
    (htiny : file.header.container = .a2t) (h : file.Describes song) :
    song.PartsWellFormed ∧ ∀ instrument ∈ song.instruments, instrument.name = "" := by
  have htells := h.tiny htiny
  obtain ⟨htitle, hauthor, hnames⟩ := htells.texts
  obtain ⟨block, -, hinstruments⟩ := htells.instruments
  obtain ⟨-, hrecords⟩ := (Instrument.ensures_readAll file.version []).onBytes hinstruments
  have hlist : Instrument.ListWellFormed file.version song.instruments :=
    (Instrument.ensures_readAll_wellFormed (List.forall_mem_nil _)).onBytes hinstruments
  have hversion := h.version
  have hcontainer : song.container = .a2t := h.container.trans htiny
  constructor
  · refine ⟨?_, ?_, ?_, ?_, ?_, ?_, ?_⟩
    · rw [htitle, hauthor]
      exact ⟨Text.fits_empty 42, Text.fits_empty 42⟩
    · rwa [hversion]
    · rw [hversion]
      exact slots_of_block InstrumentMacro.ensures_read htells.instrumentMacros
    · rw [hversion]
      exact slots_of_block MacroTable.ensures_read htells.macroTables
    · rw [hversion, htells.settings]
      exact settings_of_hasHeader hfile htiny
    · simp [hnames, hcontainer]
    · rw [hversion]
      exact slots_of_block (ensures_true _) htells.disabledColumns
  · intro instrument hinstrument
    obtain ⟨record, index, rfl⟩ := hrecords instrument hinstrument
    rfl

theorem canonical_of_describes {file : ModuleFile} {song : Song} (h : file.Describes song)
    {event : Event} (hevent : event ∈ song.grid.cells) : event.Canonical song.grid.family := by
  obtain ⟨pattern, channel, row, hpattern, hchannel, hrow, hsome⟩ := Grid.exists_event?_of_mem hevent
  rw [h.family] at hpattern hchannel hrow ⊢
  rcases h.events pattern channel row hpattern hchannel hrow with ⟨block, -, hread⟩ | ⟨-, hempty⟩
  · rw [← Option.some.inj (hread.symm.trans hsome)]
    exact Event.canonical_ofBytes _ _
  · rw [← Option.some.inj (hempty.symm.trans hsome)]
    exact Event.canonical_empty _

theorem wellFormed_of_parts {song : Song}
    (hversion : song.version.number ∈ ([1, 4, 5, 8, 9, 10, 11] : List UInt8))
    (hparts : song.PartsWellFormed)
    (htiny : song.container = .a2t → song.title = "" ∧ song.author = ""
      ∧ ∀ instrument ∈ song.instruments, instrument.name = "")
    (hfamily : song.grid.family = song.version.family)
    (hevents : ∀ event ∈ song.grid.cells, event.Canonical song.grid.family) : song.WellFormed where
  version := hversion
  profile := ⟨Version.ofNumber_eq_ok_iff.mpr (by rw [profile_eq]), profile_eq song⟩
  instruments := by
    rw [hparts.instruments.length]
    cases song.version <;> rfl
  instrumentMacros := by
    rw [hparts.instrumentMacros.length]
    cases song.version <;> rfl
  macroTables := by
    rw [hparts.macroTables.length]
    cases song.version <;> rfl
  disabledColumns := hparts.disabledColumns.length
  patternNames := hparts.patternNames.1
  family := hfamily
  cells := by
    rw [song.grid.size_cells, Family.patternCells, Nat.mul_assoc]
  texts := hparts.texts
  instrumentNames := by
    intro instrument hinstrument
    have hname := (hparts.instruments.each instrument hinstrument).name
    rwa [Version.nameSize, apply_ite (· - 1)] at hname
  patternTexts := hparts.patternNames.2
  tiny := htiny
  macroSteps := hparts.instrumentMacros.each
  tableEntries := hparts.macroTables.each
  events := hevents
  secondary := by
    intro event hevent hold
    refine (hevents event hevent).secondary ?_
    rw [hfamily]
    revert hold
    cases song.version <;> decide
  misc := fun instrument hinstrument => (hparts.instruments.each instrument hinstrument).misc
  voiceType := by
    intro instrument hinstrument hold
    refine (hparts.instruments.each instrument hinstrument).voiceType ?_
    revert hold
    cases song.version <;> decide
  settings := hparts.settings

/-- Whatever the bytes are, a song that is decoded from them is well-formed. -/
theorem wellFormed_of_load {data : Array UInt8} {song : Song} (h : load data = .ok song) :
    song.WellFormed := by
  obtain ⟨file, hfile, -, hdescribes⟩ := exists_describes_of_load h
  have hversion : song.version.number ∈ ([1, 4, 5, 8, 9, 10, 11] : List UInt8) := by
    rw [hdescribes.version]
    exact hfile.supported
  have hfamily : song.grid.family = song.version.family := by
    rw [hdescribes.family, hdescribes.version]
  have hevents := fun event => @canonical_of_describes file song hdescribes event
  cases hcontainer : file.header.container with
  | a2m =>
      have hfull : song.container = .a2m := hdescribes.container.trans hcontainer
      obtain ⟨block, data, -, hread, hsong⟩ := hdescribes.full hcontainer
      rw [← hdescribes.version] at hread
      have hdata := (SongData.ensures_read song.version).onBytes hread
      refine wellFormed_of_parts hversion (partsWellFormed_withData hfull hdata hsong) ?_ hfamily hevents
      intro htiny
      rw [hfull] at htiny
      cases htiny
  | a2t =>
      obtain ⟨hparts, hnames⟩ :=
        partsWellFormed_of_describesTiny hfile.toHasHeader hcontainer hdescribes
      obtain ⟨htitle, hauthor, -⟩ := (hdescribes.tiny hcontainer).texts
      exact wellFormed_of_parts hversion hparts (fun _ => ⟨htitle, hauthor, hnames⟩) hfamily hevents

theorem wellFormed_load_brightFile :
    ∃ song, load brightFile.bytes.toArray = .ok song ∧ song.WellFormed := by
  obtain ⟨song, hsong⟩ := wellFormed_brightFile.exists_load
  exact ⟨song, hsong, wellFormed_of_load hsong⟩

end Song
end AdLibModule
