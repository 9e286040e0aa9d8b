import AdLibModule.Proofs.WellFormed

/-! The two kinds of module say the same of the same content. A full module keeps it in one block of
song data, in the midst of its texts; a tiny one spreads it over its header and a block for each part.
The content fixes all of a song but the container and the texts, and in either kind of module the song
is what the content says, so that two modules with one content can differ in nothing else. -/

namespace AdLibModule

open Read

/-! ### Songs without texts -/

/-- The instrument without its name. -/
def Instrument.withoutName (instrument : Instrument) : Instrument := { instrument with name := "" }

theorem Instrument.withoutName_ofRecord (version : Version) (record : Array UInt8) (name : String) :
    (ofRecord version record name).withoutName = ofRecord version record "" := rfl

/-- The song without what only a full module tells, as if it came from a tiny one. -/
def Song.withoutTexts (song : Song) : Song :=
  { song with
    container := .a2t
    title := ""
    author := ""
    instruments := song.instruments.map Instrument.withoutName
    patternNames := [] }

/-- The names do not matter for anything else that is read of the instruments. -/
theorem Instrument.onBytes_readAll_nil {version : Version} {names : List String} {block : Array UInt8}
    {instruments : List Instrument} (h : (readAll version names).onBytes block = .ok instruments) :
    (readAll version []).onBytes block = .ok (instruments.map withoutName) := by
  unfold onBytes readAll at h ⊢
  rw [bind_apply] at h ⊢
  rcases hread : Read.times version.instrumentCount (Read.bytes version.recordSize)
    (Cursor.start block) with ⟨error | records, left⟩
  · rw [hread] at h
    cases h
  · rw [hread] at h
    obtain rfl := Except.ok.inj h
    apply congrArg Except.ok
    rw [List.map_map]
    exact List.map_congr_left fun slot _ => (withoutName_ofRecord version slot.1 _).symm

namespace Settings

theorem kept_kept (version : Version) (settings : Settings) :
    (settings.kept version).kept version = settings.kept version := by
  unfold kept
  split_ifs <;> rfl

theorem bytes_kept (version : Version) (settings : Settings) :
    (settings.kept version).bytes version = settings.bytes version := by
  unfold bytes kept
  by_cases h5 : version.number < 5
  · have h9 : version.number < 9 := UInt8.lt_trans h5 (by decide)
    have h10 : version.number < 10 := UInt8.lt_trans h5 (by decide)
    simp only [if_pos h5, if_pos h9, if_pos h10]
  by_cases h9 : version.number < 9
  · have h10 : version.number < 10 := UInt8.lt_trans h9 (by decide)
    simp only [if_neg h5, if_pos h9, if_pos h10]
  by_cases h10 : version.number < 10
  · simp only [if_neg h5, if_neg h9, if_pos h10]
  · simp only [if_neg h5, if_neg h9, if_neg h10]

/-- Stored settings are read as the version keeps them. -/
theorem yields_read (version : Version) (settings : Settings) :
    (Settings.read version).Yields (settings.bytes version) (settings.kept version) :=
  (decodes_read version).yields ⟨kept_kept version settings, (bytes_kept version settings).symm⟩

end Settings

/-! ### Contents -/

/-- The list is read from the bytes if it is there, and else it is empty. -/
def Read.ListOf {α : Type} (there : Prop) [Decidable there] (reading : Read (List α))
    (bytes : Array UInt8) (list : List α) : Prop :=
  if there then reading.onBytes bytes = .ok list else list = []

theorem Read.ListOf.eq {α : Type} {there : Prop} [Decidable there] {reading : Read (List α)}
    {bytes : Array UInt8} {list list' : List α} (h : ListOf there reading bytes list)
    (h' : ListOf there reading bytes list') : list = list' := by
  unfold ListOf at h h'
  split_ifs at h h'
  · exact Except.ok.inj (h.symm.trans h')
  · rw [h, h']

/-- What a module of either kind can say: all of a song but its texts. Of macros, tables and columns
only versions that have them make use. -/
structure Content where
  version : Version
  checksum : UInt32
  patternCount : UInt8
  tempo : UInt8
  speed : UInt8
  settings : Settings
  /-- The stored records of the instruments. -/
  records : Vector UInt8 (version.blockSize .instruments)
  macros : Vector UInt8 (version.blockSize .instrumentMacros)
  tables : Vector UInt8 (version.blockSize .macroTables)
  columns : Vector UInt8 (version.blockSize .disabledColumns)
  order : Order
  /-- The bytes of each group of patterns that is there. -/
  groups : Nat → Option (Array UInt8)

namespace Content

/-- The event in a cell; a group that is absent has none. -/
def event (content : Content) (pattern channel row : Nat) : Event :=
  match content.groups (pattern / content.version.family.patternsPerGroup) with
  | none => Event.empty
  | some block => content.version.family.eventAt block
    (content.version.family.eventOffset (pattern % content.version.family.patternsPerGroup) channel row)

/-- The song is what the content says, apart from its header and its events. -/
structure PartsSaidBy (content : Content) (song : Song) : Prop where
  tempo : song.tempo = content.tempo
  speed : song.speed = content.speed
  settings : song.settings = content.settings.kept content.version
  order : song.order = content.order
  instruments : (Instrument.readAll content.version []).onBytes content.records.toArray
    = .ok (song.instruments.map Instrument.withoutName)
  instrumentMacros : ListOf content.version.hasMacros InstrumentMacro.readAll content.macros.toArray
    song.instrumentMacros
  macroTables : ListOf content.version.hasMacros MacroTable.readAll content.tables.toArray
    song.macroTables
  disabledColumns : ListOf (content.version.number = 11) DisabledColumns.readAll
    content.columns.toArray song.disabledColumns

/-- The song is what the content says. -/
structure SaidBy (content : Content) (song : Song) : Prop extends content.PartsSaidBy song where
  version : song.version = content.version
  checksum : song.checksum = content.checksum
  patternCount : song.patternCount = content.patternCount
  family : song.grid.family = content.version.family
  events : ∀ pattern channel row, pattern < content.version.family.patternSlots →
    channel < content.version.family.channels → row < content.version.family.rows →
      song.grid.event? pattern channel row = some (content.event pattern channel row)

/-- The content fixes the song but for what only a full module tells. -/
theorem SaidBy.withoutTexts_eq {content : Content} {song song' : Song} (h : content.SaidBy song)
    (h' : content.SaidBy song') : song.withoutTexts = song'.withoutTexts := by
  have hinstruments : song.instruments.map Instrument.withoutName
      = song'.instruments.map Instrument.withoutName :=
    Except.ok.inj (h.instruments.symm.trans h'.instruments)
  have hgrid : song.grid = song'.grid := by
    apply Grid.eq_of_event?_eq (h.family.trans h'.family.symm)
    rw [h.family]
    intro pattern channel row hpattern hchannel hrow
    rw [h.events pattern channel row hpattern hchannel hrow,
      h'.events pattern channel row hpattern hchannel hrow]
  unfold Song.withoutTexts
  rw [h.version.trans h'.version.symm, h.checksum.trans h'.checksum.symm,
    h.patternCount.trans h'.patternCount.symm, h.tempo.trans h'.tempo.symm,
    h.speed.trans h'.speed.symm, h.order.trans h'.order.symm, h.settings.trans h'.settings.symm,
    h.instrumentMacros.eq h'.instrumentMacros, h.macroTables.eq h'.macroTables,
    h.disabledColumns.eq h'.disabledColumns, hinstruments, hgrid]

end Content

/-! ### A full module -/

/-- What the song data of a full module holds besides the content. -/
structure SongTexts (version : Version) where
  title : Vector UInt8 textSize
  author : Vector UInt8 textSize
  names : Vector UInt8 (version.instrumentCount * version.nameSize)
  patternNames : Vector UInt8 (namedPatterns * textSize)
  /-- What version 10 stores in the place of columns, and does not read. -/
  spare : Vector UInt8 (version.blockSize .disabledColumns)

namespace Content

/-- The song data: the content with the texts around it. -/
def songData (content : Content) (texts : SongTexts content.version) : List UInt8 :=
  texts.title.toList ++ texts.author.toList ++ texts.names.toList ++ content.records.toList
    ++ (if content.version.hasMacros then content.macros.toList ++ content.tables.toList else [])
    ++ content.order.toList ++ [content.tempo, content.speed]
    ++ content.settings.bytes content.version
    ++ (if content.version.number < 10 then []
      else texts.patternNames.toList
        ++ if content.version.number = 11 then content.columns.toList else texts.spare.toList)

/-- The song data has the size that the format declares for it. -/
theorem length_songData (content : Content) (texts : SongTexts content.version) :
    (content.songData texts).length = content.version.blockSize .songData := by
  unfold songData
  simp only [List.length_append, Vector.length_toList, apply_ite List.length, List.length_nil,
    List.length_cons, Settings.length_bytes]
  cases content.version <;> decide

end Content

/-- A list that is there is read from its own bytes. -/
theorem Read.exists_yields_listOf {α : Type} (there : Prop) [Decidable there] {reading : Read (List α)}
    {size : Nat} {stored : Array UInt8 → Nat → List α} (hfetches : reading.Fetches size stored)
    {bytes : Array UInt8} (hsize : bytes.size = size) :
    ∃ list, (if there then Read.within size reading else pure []).Yields
      (if there then bytes.toList else []) list ∧ ListOf there reading bytes list := by
  unfold ListOf
  split_ifs with hthere
  · obtain ⟨list, hlist⟩ := hfetches.exists_onBytes_eq_ok (Nat.le_of_eq hsize.symm)
    exact ⟨list, Yields.within hsize hlist, hlist⟩
  · exact ⟨[], yields_pure [], rfl⟩

namespace SongData

theorem exists_yields_readInstruments {version : Version} {names : List UInt8} {records : Array UInt8}
    (hnames : names.length = version.instrumentCount * version.nameSize)
    (hrecords : records.size = version.instrumentCount * version.recordSize) :
    ∃ instruments, (readInstruments version).Yields (names ++ records.toList) instruments
      ∧ (Instrument.readAll version []).onBytes records
        = .ok (instruments.map Instrument.withoutName) := by
  obtain ⟨texts, htexts⟩ := ((fetches_pascal version.nameSize).times _).exists_yields hnames
  obtain ⟨instruments, hread⟩ :=
    (fetches_instruments version texts).exists_onBytes_eq_ok (Nat.le_of_eq hrecords.symm)
  exact ⟨instruments, htexts.bind (Yields.within hrecords hread), Instrument.onBytes_readAll_nil hread⟩

theorem exists_yields_readPatternNames {version : Version} {fields : List UInt8}
    (h : fields.length = namedPatterns * textSize) :
    ∃ names, (readPatternNames version).Yields (if version.number = 11 then fields else []) names := by
  unfold readPatternNames
  split_ifs
  · exact ((fetches_pascal textSize).times namedPatterns).exists_yields h
  · exact ⟨[], yields_pure []⟩

end SongData

namespace Content

/-- The parts of the song data, one after the other as they are read. Version 10 stores names and columns
behind them, and reads neither. -/
theorem exists_songData_eq (content : Content) (texts : SongTexts content.version) :
    ∃ rest, content.songData texts = texts.title.toList ++ (texts.author.toList
      ++ ((texts.names.toList ++ content.records.toList)
      ++ ((if content.version.hasMacros then content.macros.toList else [])
      ++ ((if content.version.hasMacros then content.tables.toList else [])
      ++ (content.order.toList ++ ([content.tempo] ++ ([content.speed]
      ++ (content.settings.bytes content.version
      ++ ((if content.version.number = 11 then texts.patternNames.toList else [])
      ++ if content.version.number = 11 then content.columns.toList else [])))))))))
      ++ rest := by
  have hmacros : (if content.version.hasMacros then content.macros.toList ++ content.tables.toList else [])
      = (if content.version.hasMacros then content.macros.toList else [])
        ++ if content.version.hasMacros then content.tables.toList else [] := by
    split_ifs <;> simp
  unfold songData
  rw [hmacros]
  by_cases h10 : content.version.number < 10
  · have h11 : content.version.number ≠ 11 := by
      intro h
      rw [h] at h10
      exact absurd h10 (by decide)
    exact ⟨[], by simp [h10, h11]⟩
  by_cases h11 : content.version.number = 11
  · exact ⟨[], by simp [h11]⟩
  · exact ⟨texts.patternNames.toList ++ texts.spare.toList, by simp [h10, h11]⟩

/-- The song data of a content is read as what the content says. -/
theorem exists_onBytes_songData (content : Content) (texts : SongTexts content.version) :
    ∃ data, (SongData.read content.version).onBytes (content.songData texts).toArray = .ok data
      ∧ ∀ song : Song, content.PartsSaidBy (song.withData data) := by
  obtain ⟨rest, hbytes⟩ := content.exists_songData_eq texts
  obtain ⟨title, htitle⟩ := (fetches_pascal textSize).exists_yields texts.title.length_toList
  obtain ⟨author, hauthor⟩ := (fetches_pascal textSize).exists_yields texts.author.length_toList
  obtain ⟨instruments, hinstruments, hrecords⟩ :=
    SongData.exists_yields_readInstruments texts.names.length_toList content.records.size_toArray
  obtain ⟨macros, hmacros, hmacroList⟩ :=
    exists_yields_listOf content.version.hasMacros fetches_instrumentMacros content.macros.size_toArray
  obtain ⟨tables, htables, htableList⟩ :=
    exists_yields_listOf content.version.hasMacros fetches_macroTables content.tables.size_toArray
  obtain ⟨names, hnames⟩ :=
    SongData.exists_yields_readPatternNames texts.patternNames.length_toList
  obtain ⟨columns, hcolumns, hcolumnList⟩ :=
    exists_yields_listOf (content.version.number = 11) fetches_allDisabledColumns content.columns.size_toArray
  have horder : (vector orderSize).Yields content.order.toList content.order :=
    (decodes_vector orderSize).yields rfl
  have htempo : u8.Yields [content.tempo] content.tempo := decodes_u8.yields rfl
  have hspeed : u8.Yields [content.speed] content.speed := decodes_u8.yields rfl
  have hsettings := Settings.yields_read content.version content.settings
  have hread : (SongData.read content.version).Yields _ _ :=
    htitle.bind <| hauthor.bind <| hinstruments.bind <| hmacros.bind <| htables.bind <|
      horder.bind <| htempo.bind <| hspeed.bind <| hsettings.bind <| hnames.bind <| hcolumns.map _
  refine ⟨_, hread.onBytes hbytes, fun song => ?_⟩
  exact ⟨rfl, rfl, rfl, rfl, hrecords, hmacroList, htableList, hcolumnList⟩

end Content

/-! ### Two modules with one content -/

namespace ModuleFile

/-- The header of the file and its groups of patterns are those of the content. -/
structure Carries (file : ModuleFile) (content : Content) : Prop extends file.HasHeader where
  sameVersion : file.version = content.version
  checksum : file.header.checksum = content.checksum
  patternCount : file.header.patternCount = content.patternCount
  groups : ∀ group < content.version.family.groups,
    match content.groups group with
    | none => file.Lacks (.patternGroup group)
    | some block => file.Unpacks (.patternGroup group) block

/-- A full module with the content, in the midst of these texts. -/
structure CarriesFull (file : ModuleFile) (content : Content) (texts : SongTexts content.version) :
    Prop extends file.Carries content where
  container : file.header.container = .a2m
  songData : file.Unpacks .songData (content.songData texts).toArray

/-- A tiny module with the content, in its header and a block for each part. -/
structure CarriesTiny (file : ModuleFile) (content : Content) : Prop
    extends file.Carries content where
  container : file.header.container = .a2t
  tempo : file.header.tempo = content.tempo
  speed : file.header.speed = content.speed
  settings : file.settings = content.settings.kept content.version
  instruments : file.Unpacks .instruments content.records.toArray
  instrumentMacros : content.version.hasMacros →
    file.Unpacks .instrumentMacros content.macros.toArray
  macroTables : content.version.hasMacros → file.Unpacks .macroTables content.tables.toArray
  disabledColumns : content.version.number = 11 →
    file.Unpacks .disabledColumns content.columns.toArray
  order : file.Unpacks .order content.order.toArray

variable {file : ModuleFile} {content : Content} {texts : SongTexts content.version} {song : Song}

theorem Carries.event?_eq (h : file.Carries content) (hsong : file.Describes song)
    {pattern channel row : Nat} (hpattern : pattern < content.version.family.patternSlots)
    (hchannel : channel < content.version.family.channels) (hrow : row < content.version.family.rows) :
    song.grid.event? pattern channel row = some (content.event pattern channel row) := by
  have hevent := hsong.events pattern channel row
  rw [h.sameVersion] at hevent
  replace hevent := hevent hpattern hchannel hrow
  have hgroup := h.groups (pattern / content.version.family.patternsPerGroup)
    (Nat.div_lt_of_lt_mul hpattern)
  unfold Content.event
  cases hcontent : content.groups (pattern / content.version.family.patternsPerGroup) with
  | none =>
      rw [hcontent] at hgroup
      rcases hevent with ⟨block, hblock, -⟩ | ⟨-, hempty⟩
      · exact absurd hgroup (h.not_lacks_of_unpacks hblock)
      · exact hempty
  | some stored =>
      rw [hcontent] at hgroup
      rcases hevent with ⟨block, hblock, hread⟩ | ⟨hlacks, -⟩
      · rw [h.eq_of_unpacks hgroup hblock]
        exact hread
      · exact absurd hlacks (h.not_lacks_of_unpacks hgroup)

theorem Carries.saidBy (h : file.Carries content) (hsong : file.Describes song)
    (hparts : content.PartsSaidBy song) : content.SaidBy song where
  toPartsSaidBy := hparts
  version := hsong.version.trans h.sameVersion
  checksum := hsong.checksum.trans h.checksum
  patternCount := hsong.patternCount.trans h.patternCount
  family := by rw [hsong.family, h.sameVersion]
  events := fun _ _ _ => h.event?_eq hsong

/-- A full module with the content says what the content says. -/
theorem CarriesFull.saidBy (h : file.CarriesFull content texts) (hsong : file.Describes song) :
    content.SaidBy song := by
  apply h.toCarries.saidBy hsong
  obtain ⟨block, data, hblock, hread, hwith⟩ := hsong.full h.container
  obtain ⟨data', hread', hsays⟩ := content.exists_onBytes_songData texts
  rw [← h.eq_of_unpacks h.songData hblock, h.sameVersion] at hread
  obtain rfl : data' = data := Except.ok.inj (hread'.symm.trans hread)
  rw [← hwith]
  exact hsays song

/-- A part that has a block of its own in a tiny module is read from it. -/
theorem listOf_of_unpacks {α : Type} {there : Prop} [Decidable there] {reading : Read (List α)}
    (hfile : file.HasHeader) {kind : BlockKind} {block : Array UInt8} {list : List α}
    (hblock : there → file.Unpacks kind block)
    (hlist : if there then ∃ stored, file.Unpacks kind stored ∧ reading.onBytes stored = .ok list
      else list = []) : ListOf there reading block list := by
  unfold ListOf
  split_ifs at hlist ⊢ with hthere
  · obtain ⟨stored, hstored, hread⟩ := hlist
    rwa [hfile.eq_of_unpacks (hblock hthere) hstored]
  · exact hlist

/-- A tiny module with the content says what the content says. -/
theorem CarriesTiny.saidBy (h : file.CarriesTiny content) (hsong : file.Describes song) :
    content.SaidBy song := by
  apply h.toCarries.saidBy hsong
  have htells := hsong.tiny h.container
  obtain ⟨block, hblock, hinstruments⟩ := htells.instruments
  have hmacros := htells.instrumentMacros
  have htables := htells.macroTables
  have hcolumns := htells.disabledColumns
  rw [h.sameVersion] at hmacros htables hcolumns hinstruments
  refine ⟨?_, ?_, ?_, ?_, ?_, ?_, ?_, ?_⟩
  · exact htells.tempo.trans h.tempo
  · exact htells.speed.trans h.speed
  · exact htells.settings.trans h.settings
  · exact Vector.toArray_inj.mp (h.eq_of_unpacks htells.order h.order)
  · rw [h.eq_of_unpacks h.instruments hblock]
    exact Instrument.onBytes_readAll_nil hinstruments
  · exact listOf_of_unpacks h.toHasHeader h.instrumentMacros hmacros
  · exact listOf_of_unpacks h.toHasHeader h.macroTables htables
  · exact listOf_of_unpacks h.toHasHeader h.disabledColumns hcolumns

end ModuleFile

namespace Song

/-- The two containers agree: a full module and a tiny one with the same content are decoded into
songs that differ in nothing but the container and the texts. -/
theorem withoutTexts_eq_of_carries {content : Content} {texts : SongTexts content.version}
    {full tiny : ModuleFile} {data data' : Array UInt8} {song song' : Song}
    (hfull : full.CarriesFull content texts) (htiny : tiny.CarriesTiny content)
    (hdata : data.toList = full.bytes) (hdata' : data'.toList = tiny.bytes)
    (hload : load data = .ok song) (hload' : load data' = .ok song') :
    song.withoutTexts = song'.withoutTexts ∧ song.flags = song'.flags := by
  obtain ⟨-, hsong⟩ := hfull.describes_of_load hdata hload
  obtain ⟨-, hsong'⟩ := htiny.describes_of_load hdata' hload'
  have hsame := (hfull.saidBy hsong).withoutTexts_eq (htiny.saidBy hsong')
  have hflags : song.withoutTexts.flags = song'.withoutTexts.flags := congrArg flags hsame
  exact ⟨hsame, hflags⟩

/-- What the bright module says. -/
def brightContent : Content where
  version := .v8
  checksum := 0
  patternCount := 1
  tempo := 18
  speed := 6
  settings := { commonFlag := 255 }
  records := Vector.replicate _ 255
  macros := Vector.replicate _ 0
  tables := Vector.replicate _ 0
  columns := Vector.replicate _ 0
  order := Vector.replicate _ 255
  groups := fun group => if group = 0 then some (Array.replicate 36864 255) else none

/-- Texts without characters. -/
def blankTexts : SongTexts brightContent.version :=
  ⟨Vector.replicate _ 0, Vector.replicate _ 0, Vector.replicate _ 0, Vector.replicate _ 0,
    Vector.replicate _ 0⟩

/-- A full module that says the same. -/
def brightFullFile : ModuleFile where
  header := ⟨.a2m, 0, 8, 1, 0, 0⟩
  version := .v8
  settings := {}
  blocks := [brightContent.songData blankTexts, List.replicate 36864 255, [], [], [], [], [], [], []]
  rest := []

theorem slots_brightFullFile : brightFullFile.slots = [(.songData, brightContent.songData blankTexts),
    (.patternGroup 0, List.replicate 36864 255), (.patternGroup 1, []), (.patternGroup 2, []),
    (.patternGroup 3, []), (.patternGroup 4, []), (.patternGroup 5, []), (.patternGroup 6, []),
    (.patternGroup 7, [])] := rfl

theorem length_brightSongData : (brightContent.songData blankTexts).length = 11717 := by
  rw [Content.length_songData]
  rfl

theorem wellFormed_brightFullFile : brightFullFile.WellFormed := by
  have hlengths : brightFullFile.blocks.map List.length = [11717, 36864, 0, 0, 0, 0, 0, 0, 0] := by
    simp only [brightFullFile, List.map_cons, List.map_nil, List.length_replicate, List.length_nil,
      length_brightSongData]
  exact ModuleFile.wellFormed_of_lengths hlengths rfl (fun _ => ⟨rfl, rfl⟩) rfl (by decide)
    ⟨rfl, rfl, by decide⟩ (by decide)

/-- Of the groups of a bright module only the first is there. -/
theorem carriesGroups_bright {file : ModuleFile} (hversion : file.version = .v8)
    (hfirst : (.patternGroup 0, List.replicate 36864 255) ∈ file.slots)
    (hothers : ∀ group < 8, group ≠ 0 → (.patternGroup group, []) ∈ file.slots) :
    ∀ group < 8, match brightContent.groups group with
      | none => file.Lacks (.patternGroup group)
      | some block => file.Unpacks (.patternGroup group) block := by
  intro group hgroup
  by_cases hzero : group = 0
  · subst hzero
    have hsize : (List.replicate 36864 (255 : UInt8)).length = file.version.blockSize (.patternGroup 0) := by
      rw [hversion, List.length_replicate]
      rfl
    have hraw : file.version.compression = .raw := by
      rw [hversion]
      rfl
    have hunpacks := ModuleFile.unpacks_of_raw hraw hfirst hsize
    rwa [List.toArray_replicate] at hunpacks
  · have hnone : brightContent.groups group = none := if_neg hzero
    rw [hnone]
    exact ⟨hothers group hgroup hzero, rfl⟩

theorem carriesFull_brightFullFile : brightFullFile.CarriesFull brightContent blankTexts where
  toHasHeader := wellFormed_brightFullFile.toHasHeader
  sameVersion := rfl
  checksum := rfl
  patternCount := rfl
  groups := by
    apply carriesGroups_bright rfl
    · exact List.mem_cons_of_mem _ List.mem_cons_self
    · intro group hgroup hzero
      rw [slots_brightFullFile]
      interval_cases group <;> simp only [List.mem_cons, true_or, or_true, ne_eq, not_true] at hzero ⊢
  container := rfl
  songData := by
    apply ModuleFile.unpacks_of_raw rfl
    · exact List.mem_cons_self
    · exact Content.length_songData _ _

theorem carriesTiny_brightFile : brightFile.CarriesTiny brightContent where
  toHasHeader := wellFormed_brightFile.toHasHeader
  sameVersion := rfl
  checksum := rfl
  patternCount := rfl
  groups := by
    apply carriesGroups_bright rfl
    · exact List.mem_cons_of_mem _ (List.mem_cons_of_mem _ List.mem_cons_self)
    · intro group hgroup hzero
      rw [slots_brightFile]
      interval_cases group <;> simp only [List.mem_cons, true_or, or_true, ne_eq, not_true] at hzero ⊢
  container := rfl
  tempo := rfl
  speed := rfl
  settings := rfl
  instruments := by
    have hslot : (.instruments, List.replicate 3250 255) ∈ brightFile.slots := List.mem_cons_self
    have hunpacks := ModuleFile.unpacks_of_raw rfl hslot List.length_replicate
    rwa [List.toArray_replicate] at hunpacks
  instrumentMacros := by
    intro hhas
    cases hhas
  macroTables := by
    intro hhas
    cases hhas
  disabledColumns := by
    intro hlast
    cases hlast
  order := by
    have hslot : (.order, List.replicate 128 255) ∈ brightFile.slots :=
      List.mem_cons_of_mem _ List.mem_cons_self
    have hunpacks := ModuleFile.unpacks_of_raw rfl hslot List.length_replicate
    rwa [List.toArray_replicate] at hunpacks

theorem withoutTexts_load_bright : ∃ song song',
    load brightFullFile.bytes.toArray = .ok song ∧ load brightFile.bytes.toArray = .ok song'
      ∧ song.withoutTexts = song'.withoutTexts := by
  obtain ⟨song, hload⟩ := wellFormed_brightFullFile.exists_load
  obtain ⟨song', hload'⟩ := wellFormed_brightFile.exists_load
  obtain ⟨hsame, -⟩ := withoutTexts_eq_of_carries carriesFull_brightFullFile carriesTiny_brightFile
    rfl rfl hload hload'
  exact ⟨song, song', hload, hload', hsame⟩

end Song
end AdLibModule
