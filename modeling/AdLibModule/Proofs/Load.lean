import AdLibModule.Proofs.Header
import AdLibModule.Proofs.Song

/-! What a module file must be for a song to be decoded from it, and what the song is then. -/

namespace AdLibModule

open Read

namespace Song

/-- Fills in what a packed block tells. A block that is absent tells nothing. -/
def withPacked (song : Song) (kind : BlockKind) (packed : List UInt8) : Except DecodeError Song :=
  if packed = [] ∧ kind.mayBeAbsent then .ok song
  else do
    let block ← song.version.compression.unpack packed.toArray (song.version.blockSize kind)
    song.withBlock kind block

/-- Fills in what the packed blocks tell, one after the other. -/
def withAllPacked (song : Song) : List (BlockKind × List UInt8) → Except DecodeError Song
  | [] => .ok song
  | (kind, packed) :: slots => do
    let next ← song.withPacked kind packed
    next.withAllPacked slots

theorem decodes_readBlock (song : Song) (kind : BlockKind) (length : Nat) :
    (song.readBlock kind length).Decodes fun next packed =>
      packed.length = length ∧ song.withPacked kind packed = .ok next := by
  unfold readBlock
  by_cases habsent : length = 0 ∧ kind.mayBeAbsent
  · rw [if_pos habsent]
    refine (decodes_pure song).congr fun next packed => ?_
    constructor
    · rintro ⟨rfl, rfl⟩
      exact ⟨habsent.1.symm, if_pos ⟨rfl, habsent.2⟩⟩
    · rintro ⟨hlength, hnext⟩
      have hempty : packed = [] := List.eq_nil_of_length_eq_zero (hlength.trans habsent.1)
      rw [withPacked, if_pos ⟨hempty, habsent.2⟩] at hnext
      exact ⟨(Except.ok.inj hnext).symm, hempty⟩
  · rw [if_neg habsent]
    refine ((decodes_bytes length).bind fun packed => (decodes_ofExcept _).bind fun block =>
      decodes_ofExcept _).congr fun next packed => ?_
    have hpacked : packed.length = length → song.withPacked kind packed
        = (song.version.compression.unpack packed.toArray (song.version.blockSize kind)).bind
          (song.withBlock kind) := by
      rintro rfl
      refine if_neg fun hempty => habsent ⟨?_, hempty.2⟩
      rw [hempty.1]
      rfl
    constructor
    · rintro ⟨_, _, _, ⟨rfl, hsize⟩, ⟨block, _, _, ⟨hblock, rfl⟩, ⟨hnext, rfl⟩, rfl⟩, rfl⟩
      rw [List.append_nil, List.append_nil] at *
      refine ⟨Array.length_toList.trans hsize, ?_⟩
      rw [hpacked (Array.length_toList.trans hsize), Array.toArray_toList, hblock]
      exact hnext
    · rintro ⟨hlength, hnext⟩
      rw [hpacked hlength] at hnext
      obtain ⟨block, hblock, hnext⟩ := bind_eq_ok_iff.mp hnext
      exact ⟨packed.toArray, packed, [], ⟨rfl, hlength⟩,
        ⟨block, [], [], ⟨hblock, rfl⟩, ⟨hnext, rfl⟩, rfl⟩, (List.append_nil _).symm⟩

theorem decodes_readBlocks (song : Song) (slots : List (BlockKind × Nat)) :
    (song.readBlocks slots).Decodes fun next bytes => ∃ blocks : List (List UInt8),
      blocks.map List.length = slots.map Prod.snd ∧ bytes = blocks.flatten
      ∧ song.withAllPacked ((slots.map Prod.fst).zip blocks) = .ok next := by
  induction slots generalizing song with
  | nil =>
      refine (decodes_pure song).congr fun next bytes => ?_
      constructor
      · rintro ⟨rfl, rfl⟩
        exact ⟨[], rfl, rfl, rfl⟩
      · rintro ⟨blocks, hlengths, rfl, hnext⟩
        rw [List.map_eq_nil_iff.mp hlengths]
        exact ⟨(Except.ok.inj hnext).symm, rfl⟩
  | cons slot slots ih =>
      obtain ⟨kind, length⟩ := slot
      refine ((decodes_readBlock song kind length).bind fun next => ih next).congr
        fun last bytes => ?_
      constructor
      · rintro ⟨next, packed, _, ⟨hlength, hnext⟩, ⟨blocks, hlengths, rfl, hlast⟩, rfl⟩
        refine ⟨packed :: blocks, ?_, rfl, ?_⟩
        · rw [List.map_cons, hlength, hlengths, List.map_cons]
        · rw [List.map_cons, List.zip_cons_cons, withAllPacked, hnext]
          exact hlast
      · rintro ⟨blocks, hlengths, rfl, hlast⟩
        obtain ⟨packed, others, rfl, hlength, hlengths⟩ := List.map_eq_cons_iff.mp hlengths
        rw [List.map_cons, List.zip_cons_cons, withAllPacked] at hlast
        obtain ⟨next, hnext, hlast⟩ := bind_eq_ok_iff.mp hlast
        exact ⟨next, packed, others.flatten, ⟨hlength, hnext⟩, ⟨others, hlengths, rfl, hlast⟩, rfl⟩

end Song

theorem Version.ofNumber_eq_ok_iff {number : UInt8} {version : Version} :
    ofNumber number = .ok version ↔ number = version.number := by
  constructor
  · intro h
    unfold ofNumber at h
    split at h
    · rename_i found hfind
      cases h
      have hnumber := List.find?_some hfind
      exact (eq_of_beq hnumber).symm
    · cases h
  · rintro rfl
    cases version <;> rfl

theorem Version.isSupported_iff (version : Version) :
    version.compression.isSupported = true
      ↔ version.number ∈ ([1, 4, 5, 8, 9, 10, 11] : List UInt8) := by
  cases version <;> decide

theorem Version.requireSupported_eq_ok_iff {version : Version} :
    version.requireSupported = .ok () ↔ version.number ∈ ([1, 4, 5, 8, 9, 10, 11] : List UInt8) := by
  rw [← version.isSupported_iff, requireSupported]
  split
  · rename_i h
    exact iff_of_true rfl h
  · rename_i h
    exact iff_of_false (fun h => nomatch h) h

/-- A module file taken apart. -/
structure ModuleFile where
  header : Header
  version : Version
  settings : Settings
  /-- The packed blocks, in the order of the layout. -/
  blocks : List (List UInt8)
  /-- What lies behind the last block. -/
  rest : List UInt8

namespace ModuleFile

/-- The part of the header that depends on the version. -/
def table (file : ModuleFile) : BlockTable := ⟨file.settings, file.blocks.map List.length⟩

def bytes (file : ModuleFile) : List UInt8 :=
  file.header.bytes ++ file.table.bytes file.version file.header.container ++ file.blocks.flatten
    ++ file.rest

/-- Each kind of block with the bytes that stand for it. -/
def slots (file : ModuleFile) : List (BlockKind × List UInt8) :=
  (file.version.layout file.header.container).zip file.blocks

/-- The header is one that is stored, of a version whose blocks can be unpacked, and tells the length
of each block. -/
structure HasHeader (file : ModuleFile) : Prop where
  header : file.header.IsStored
  version : file.header.versionNumber = file.version.number
  supported : file.version.number ∈ ([1, 4, 5, 8, 9, 10, 11] : List UInt8)
  table : file.table.IsStored file.version file.header.container

/-- The file is a module: behind the header, every block can be unpacked to the size of its kind, or
it is a pattern group without bytes. -/
structure WellFormed (file : ModuleFile) : Prop extends file.HasHeader where
  blocks : ∀ kind packed, (kind, packed) ∈ file.slots → (packed = [] ∧ kind.mayBeAbsent)
    ∨ ∃ block, file.version.compression.unpack packed.toArray (file.version.blockSize kind)
      = .ok block

end ModuleFile

namespace Song

theorem decodes_read : Song.read.Decodes fun song bytes => ∃ file : ModuleFile,
    file.rest = [] ∧ file.HasHeader ∧ bytes = file.bytes
      ∧ (ofHeader file.header file.version file.settings).withAllPacked file.slots = .ok song := by
  refine (Header.decodes_read.bind fun header => (decodes_ofExcept _).bind fun version =>
    (decodes_ofExcept _).bind fun _ => (BlockTable.decodes_read version header.container).bind
      fun table => decodes_readBlocks _ _).congr fun song bytes => ?_
  constructor
  · rintro ⟨header, _, _, ⟨hheader, rfl⟩, ⟨version, _, _, ⟨hversion, rfl⟩, ⟨_, _, _,
      ⟨hsupported, rfl⟩, ⟨table, _, _, ⟨htable, rfl⟩, ⟨blocks, hlengths, rfl, hsong⟩, rfl⟩, rfl⟩,
      rfl⟩, rfl⟩
    have hcount : table.lengths.length = (version.layout header.container).length := by
      rw [htable.entries, version.length_layout]
    rw [List.map_snd_zip (Nat.le_of_eq hcount)] at hlengths
    rw [List.map_fst_zip (Nat.le_of_eq hcount.symm)] at hsong
    obtain ⟨settings, lengths⟩ := table
    obtain rfl : blocks.map List.length = lengths := hlengths
    refine ⟨⟨header, version, settings, blocks, []⟩, rfl, ⟨hheader,
      Version.ofNumber_eq_ok_iff.mp hversion, Version.requireSupported_eq_ok_iff.mp hsupported,
      htable⟩, ?_, hsong⟩
    simp only [ModuleFile.bytes, ModuleFile.table, List.append_assoc, List.append_nil,
      List.nil_append]
  · rintro ⟨file, hrest, hfile, rfl, hsong⟩
    have hcount : (file.blocks.map List.length).length
        = (file.version.layout file.header.container).length := by
      rw [file.version.length_layout]
      exact hfile.table.entries
    refine ⟨file.header, _, _, ⟨hfile.header, rfl⟩, ⟨file.version, [], _,
      ⟨Version.ofNumber_eq_ok_iff.mpr hfile.version, rfl⟩, ⟨(), [], _,
      ⟨Version.requireSupported_eq_ok_iff.mpr hfile.supported, rfl⟩, ⟨file.table, _, _,
      ⟨hfile.table, rfl⟩, ⟨file.blocks, ?_, rfl, ?_⟩, rfl⟩, rfl⟩, rfl⟩, ?_⟩
    · exact (List.map_snd_zip (Nat.le_of_eq hcount)).symm
    · rw [ModuleFile.table, List.map_fst_zip (Nat.le_of_eq hcount.symm)]
      exact hsong
    · simp only [ModuleFile.bytes, hrest, List.append_assoc, List.append_nil, List.nil_append]

/-! ### The parts of a song -/

theorem withPacked_eq {song : Song} {kind : BlockKind} {packed : List UInt8} {block : Array UInt8}
    (hthere : ¬ (packed = [] ∧ kind.mayBeAbsent))
    (hblock : song.version.compression.unpack packed.toArray (song.version.blockSize kind) = .ok block) :
    song.withPacked kind packed = song.withBlock kind block := by
  rw [withPacked, if_neg hthere, hblock]
  rfl

/-- What the blocks of a file tell, one after the other: each that is there tells its own parts, and
a part that none of these tells stays. -/
theorem exists_withAllPacked_eq {song : Song} {version : Version}
    {slots : List (BlockKind × List UInt8)} (hversion : song.version = version)
    (hfamily : song.grid.family = version.family)
    (hblocks : ∀ kind packed, (kind, packed) ∈ slots → (packed = [] ∧ kind.mayBeAbsent)
      ∨ ∃ block, version.compression.unpack packed.toArray (version.blockSize kind) = .ok block)
    (hgroups : ∀ group packed, (.patternGroup group, packed) ∈ slots → group < version.family.groups)
    (hdisjoint : (slots.map Prod.fst).Pairwise
      fun kind other => ∀ part, ¬ (kind.Fills part ∧ other.Fills part)) :
    ∃ filled : Song, song.withAllPacked slots = .ok filled ∧ filled.SameHeader song
      ∧ (∀ kind packed, (kind, packed) ∈ slots → ¬ (packed = [] ∧ kind.mayBeAbsent) →
        ∃ block, version.compression.unpack packed.toArray (version.blockSize kind) = .ok block
          ∧ filled.Tells kind block)
      ∧ ∀ part : SongPart, (∀ kind packed, (kind, packed) ∈ slots → kind.Fills part →
        packed = [] ∧ kind.mayBeAbsent) → part.value filled = part.value song := by
  induction slots generalizing song with
  | nil =>
      exact ⟨song, rfl, ⟨rfl, rfl, rfl, rfl, rfl⟩, fun _ _ h => absurd h List.not_mem_nil,
        fun _ _ => rfl⟩
  | cons slot slots ih =>
      obtain ⟨kind, packed⟩ := slot
      rw [List.map_cons, List.pairwise_cons] at hdisjoint
      obtain ⟨hfirst, hdisjoint⟩ := hdisjoint
      have hblocks' := fun kind packed h => hblocks kind packed (List.mem_cons_of_mem _ h)
      have hgroups' := fun group packed h => hgroups group packed (List.mem_cons_of_mem _ h)
      by_cases habsent : packed = [] ∧ kind.mayBeAbsent
      · obtain ⟨filled, hfilled, hheader, htells, hparts⟩ :=
          ih hversion hfamily hblocks' hgroups' hdisjoint
        have hnext : song.withPacked kind packed = .ok song := if_pos habsent
        refine ⟨filled, ?_, hheader, ?_, ?_⟩
        · rw [withAllPacked, hnext]
          exact hfilled
        · intro other others hslot hthere
          rcases List.mem_cons.mp hslot with heq | hslot
          · obtain ⟨rfl, rfl⟩ := Prod.mk.inj heq
            exact absurd habsent hthere
          · exact htells other others hslot hthere
        · intro part hpart
          exact hparts part fun other others h => hpart other others (List.mem_cons_of_mem _ h)
      · obtain ⟨block, hblock⟩ :=
          (hblocks kind packed List.mem_cons_self).resolve_left habsent
        subst hversion
        obtain ⟨next, hnext, htellsNext, hheaderNext, hpartsNext⟩ := exists_withBlock_eq hfamily
          (Compression.size_of_unpack hblock) fun group hkind =>
            hgroups group packed (hkind ▸ List.mem_cons_self)
        obtain ⟨filled, hfilled, hheader, htells, hparts⟩ := ih hheaderNext.version
          (hheaderNext.family.trans hfamily) hblocks' hgroups' hdisjoint
        refine ⟨filled, ?_, hheader.trans hheaderNext, ?_, ?_⟩
        · rw [withAllPacked, withPacked_eq habsent hblock, hnext]
          exact hfilled
        · intro other others hslot hthere
          rcases List.mem_cons.mp hslot with heq | hslot
          · obtain ⟨rfl, rfl⟩ := Prod.mk.inj heq
            refine ⟨block, hblock, htellsNext.congr hheader fun part hpart => ?_⟩
            refine hparts part fun later _ hlater hpart' => ?_
            exact absurd ⟨hpart, hpart'⟩ (hfirst later (List.mem_map_of_mem hlater) part)
          · exact htells other others hslot hthere
        · intro part hpart
          rw [hparts part fun other others h => hpart other others (List.mem_cons_of_mem _ h)]
          exact hpartsNext part fun hfills => habsent (hpart kind packed List.mem_cons_self hfills)

theorem version_of_withBlock {song next : Song} {kind : BlockKind} {block : Array UInt8}
    (h : song.withBlock kind block = .ok next) : next.version = song.version := by
  unfold withBlock at h
  cases kind with
  | patternGroup group =>
      dsimp only at h
      split at h
      · cases h
        rfl
      · cases h
  | _ =>
      obtain ⟨_, -, rfl⟩ := map_eq_ok_iff.mp h
      rfl

theorem unpack_of_withPacked {song next : Song} {kind : BlockKind} {packed : List UInt8}
    (h : song.withPacked kind packed = .ok next) : (packed = [] ∧ kind.mayBeAbsent)
      ∨ ∃ block, song.version.compression.unpack packed.toArray (song.version.blockSize kind)
        = .ok block := by
  unfold withPacked at h
  split at h
  · exact Or.inl ‹_›
  · obtain ⟨block, hblock, -⟩ := bind_eq_ok_iff.mp h
    exact Or.inr ⟨block, hblock⟩

theorem version_of_withPacked {song next : Song} {kind : BlockKind} {packed : List UInt8}
    (h : song.withPacked kind packed = .ok next) : next.version = song.version := by
  unfold withPacked at h
  split at h
  · cases h
    rfl
  · obtain ⟨block, -, hwith⟩ := bind_eq_ok_iff.mp h
    exact version_of_withBlock hwith

/-- No block that is there fails to be unpacked in a song that is decoded. -/
theorem exists_unpack_of_withAllPacked {song filled : Song} {slots : List (BlockKind × List UInt8)}
    (h : song.withAllPacked slots = .ok filled) {kind : BlockKind} {packed : List UInt8}
    (hslot : (kind, packed) ∈ slots) : (packed = [] ∧ kind.mayBeAbsent)
      ∨ ∃ block, song.version.compression.unpack packed.toArray (song.version.blockSize kind)
        = .ok block := by
  induction slots generalizing song with
  | nil => exact absurd hslot List.not_mem_nil
  | cons slot slots ih =>
      obtain ⟨first, bytes⟩ := slot
      rw [withAllPacked] at h
      obtain ⟨next, hnext, hfilled⟩ := bind_eq_ok_iff.mp h
      rcases List.mem_cons.mp hslot with heq | hslot
      · obtain ⟨rfl, rfl⟩ := Prod.mk.inj heq
        exact unpack_of_withPacked hnext
      · rw [← version_of_withPacked hnext]
        exact ih hfilled hslot

end Song

theorem Version.blockSize_pos (version : Version) (kind : BlockKind) :
    0 < version.blockSize kind := by
  cases kind <;> dsimp only [blockSize] <;> cases version <;> decide

namespace ModuleFile

/-- The block is there, and this is what it is unpacked to. -/
def Unpacks (file : ModuleFile) (kind : BlockKind) (block : Array UInt8) : Prop :=
  ∃ packed, (kind, packed) ∈ file.slots ∧ ¬ (packed = [] ∧ kind.mayBeAbsent)
    ∧ file.version.compression.unpack packed.toArray (file.version.blockSize kind) = .ok block

/-- The block is a pattern group without bytes. -/
def Lacks (file : ModuleFile) (kind : BlockKind) : Prop :=
  (kind, []) ∈ file.slots ∧ kind.mayBeAbsent

/-- What the song of a tiny module is apart from its events. -/
structure DescribesTiny (file : ModuleFile) (song : Song) : Prop where
  texts : song.title = "" ∧ song.author = "" ∧ song.patternNames = []
  tempo : song.tempo = file.header.tempo
  speed : song.speed = file.header.speed
  settings : song.settings = file.settings
  order : file.Unpacks .order song.order.toArray
  instruments : ∃ block, file.Unpacks .instruments block
    ∧ (Instrument.readAll file.version []).onBytes block = .ok song.instruments
  instrumentMacros : if file.version.hasMacros then ∃ block, file.Unpacks .instrumentMacros block
      ∧ InstrumentMacro.readAll.onBytes block = .ok song.instrumentMacros
    else song.instrumentMacros = []
  macroTables : if file.version.hasMacros then ∃ block, file.Unpacks .macroTables block
      ∧ MacroTable.readAll.onBytes block = .ok song.macroTables
    else song.macroTables = []
  disabledColumns : if file.version.number = 11 then ∃ block, file.Unpacks .disabledColumns block
      ∧ DisabledColumns.readAll.onBytes block = .ok song.disabledColumns
    else song.disabledColumns = []

/-- The song is what the file says: each of its parts comes from the header or from the one block
that tells it, and each event from its own bytes of the block of its group. -/
structure Describes (file : ModuleFile) (song : Song) : Prop where
  container : song.container = file.header.container
  version : song.version = file.version
  checksum : song.checksum = file.header.checksum
  patternCount : song.patternCount = file.header.patternCount
  family : song.grid.family = file.version.family
  full : file.header.container = .a2m → ∃ block data, file.Unpacks .songData block
    ∧ (SongData.read file.version).onBytes block = .ok data ∧ song.withData data = song
  tiny : file.header.container = .a2t → file.DescribesTiny song
  events : ∀ pattern channel row, pattern < file.version.family.patternSlots →
    channel < file.version.family.channels → row < file.version.family.rows →
    let kind := BlockKind.patternGroup (pattern / file.version.family.patternsPerGroup)
    (∃ block, file.Unpacks kind block ∧ song.grid.event? pattern channel row =
      some (file.version.family.eventAt block (file.version.family.eventOffset
        (pattern % file.version.family.patternsPerGroup) channel row)))
    ∨ file.Lacks kind ∧ song.grid.event? pattern channel row = some Event.empty

variable {file : ModuleFile}

theorem HasHeader.map_fst_slots (h : file.HasHeader) :
    file.slots.map Prod.fst = file.version.layout file.header.container := by
  refine List.map_fst_zip (Nat.le_of_eq ?_)
  rw [file.version.length_layout, ← h.table.entries]
  exact List.length_map _

theorem HasHeader.exists_mem_slots (h : file.HasHeader) {kind : BlockKind}
    (hkind : kind ∈ file.version.layout file.header.container) :
    ∃ packed, (kind, packed) ∈ file.slots := by
  rw [← h.map_fst_slots] at hkind
  obtain ⟨⟨_, packed⟩, hslot, rfl⟩ := List.mem_map.mp hkind
  exact ⟨packed, hslot⟩

theorem mem_layout_of_mem_slots {kind : BlockKind} {packed : List UInt8}
    (h : (kind, packed) ∈ file.slots) : kind ∈ file.version.layout file.header.container :=
  (List.of_mem_zip h).1

/-- From the header on, each block of the file was filled in. -/
structure Filled (file : ModuleFile) (song : Song) : Prop where
  sameHeader : song.SameHeader (.ofHeader file.header file.version file.settings)
  tells : ∀ kind packed, (kind, packed) ∈ file.slots → ¬ (packed = [] ∧ kind.mayBeAbsent) →
    ∃ block, file.version.compression.unpack packed.toArray (file.version.blockSize kind) = .ok block
      ∧ song.Tells kind block
  parts : ∀ part : SongPart, (∀ kind packed, (kind, packed) ∈ file.slots → kind.Fills part →
      packed = [] ∧ kind.mayBeAbsent) →
    part.value song = part.value (.ofHeader file.header file.version file.settings)

theorem WellFormed.exists_filled (h : file.WellFormed) : ∃ song,
    (Song.ofHeader file.header file.version file.settings).withAllPacked file.slots = .ok song
      ∧ file.Filled song := by
  have hgroups : ∀ group packed, (.patternGroup group, packed) ∈ file.slots →
      group < file.version.family.groups :=
    fun group packed hslot => file.version.lt_groups_of_mem_zip hslot
  have hdisjoint := file.version.pairwise_layout file.header.container
  rw [← h.map_fst_slots] at hdisjoint
  obtain ⟨song, hsong, hheader, htells, hparts⟩ :=
    @Song.exists_withAllPacked_eq (.ofHeader file.header file.version file.settings) file.version
      file.slots rfl rfl h.blocks hgroups hdisjoint
  exact ⟨song, hsong, hheader, htells, hparts⟩

theorem Filled.exists_unpacks {song : Song} (h : file.Filled song) (hfile : file.HasHeader)
    {kind : BlockKind} (hkind : kind ∈ file.version.layout file.header.container)
    (hthere : kind.mayBeAbsent = false) : ∃ block, file.Unpacks kind block ∧ song.Tells kind block := by
  obtain ⟨packed, hslot⟩ := hfile.exists_mem_slots hkind
  have hpacked : ¬ (packed = [] ∧ kind.mayBeAbsent) := by
    rw [hthere]
    exact fun habsent => nomatch habsent.2
  obtain ⟨block, hblock, htells⟩ := h.tells kind packed hslot hpacked
  exact ⟨block, ⟨packed, hslot, hpacked, hblock⟩, htells⟩

/-- In a tiny module each part has a block of its own, if it has one at all. -/
theorem Filled.value_eq {song : Song} (h : file.Filled song) (htiny : file.header.container = .a2t)
    {part : SongPart} (hpart : part.ownKind ∉ file.version.layout .a2t) :
    part.value song = part.value (.ofHeader file.header file.version file.settings) := by
  refine h.parts part fun kind packed hslot hfills => ?_
  have hkind := mem_layout_of_mem_slots hslot
  rw [htiny] at hkind
  rcases hfills with rfl | ⟨rfl, -⟩
  · exact absurd hkind hpart
  · have hdata : .songData ∉ file.version.layout .a2t := by
      cases file.version <;> decide
    exact absurd hkind hdata

theorem Filled.describesTiny {song : Song} (h : file.Filled song) (hfile : file.HasHeader)
    (htiny : file.header.container = .a2t) : file.DescribesTiny song := by
  have hthere : ∀ kind ∈ file.version.layout .a2t, kind.mayBeAbsent = false →
      ∃ block, file.Unpacks kind block ∧ song.Tells kind block := by
    rw [← htiny]
    exact fun kind => h.exists_unpacks hfile
  have hinfo : ((song.title, song.author, song.patternNames), song.tempo, song.speed, song.settings)
      = (("", "", []), file.header.tempo, file.header.speed, file.settings) := by
    have hdata : SongPart.info.ownKind ∉ file.version.layout .a2t := by
      cases file.version <;> decide
    exact h.value_eq htiny hdata
  simp only [Prod.mk.injEq] at hinfo
  obtain ⟨htexts, htempo, hspeed, hsettings⟩ := hinfo
  have hmacros : (SongPart.instrumentMacros.ownKind ∈ file.version.layout .a2t
      ↔ file.version.hasMacros = true)
      ∧ (SongPart.macroTables.ownKind ∈ file.version.layout .a2t ↔ file.version.hasMacros = true)
      ∧ (SongPart.disabledColumns.ownKind ∈ file.version.layout .a2t ↔ file.version.number = 11) := by
    cases file.version <;> decide
  refine ⟨htexts, htempo, hspeed, hsettings, ?_, ?_, ?_, ?_, ?_⟩
  · obtain ⟨block, hblock, rfl⟩ := hthere .order (by simp [Version.layout, Version.songBlocks]) rfl
    exact hblock
  · obtain ⟨block, hblock, htells⟩ :=
      hthere .instruments (by simp [Version.layout, Version.songBlocks]) rfl
    rw [Song.Tells, h.sameHeader.version] at htells
    exact ⟨block, hblock, htells⟩
  · split
    · rename_i hhas
      exact hthere .instrumentMacros (hmacros.1.mpr hhas) rfl
    · rename_i hhas
      exact h.value_eq htiny (mt hmacros.1.mp hhas)
  · split
    · rename_i hhas
      exact hthere .macroTables (hmacros.2.1.mpr hhas) rfl
    · rename_i hhas
      exact h.value_eq htiny (mt hmacros.2.1.mp hhas)
  · split
    · rename_i hhas
      exact hthere .disabledColumns (hmacros.2.2.mpr hhas) rfl
    · rename_i hhas
      exact h.value_eq htiny (mt hmacros.2.2.mp hhas)

theorem Filled.describes {song : Song} (h : file.Filled song) (hfile : file.HasHeader) :
    file.Describes song := by
  have hversion : song.version = file.version := h.sameHeader.version
  have hfamily : song.grid.family = file.version.family := h.sameHeader.family
  refine ⟨h.sameHeader.container, hversion, h.sameHeader.checksum, h.sameHeader.patternCount,
    hfamily, ?_, h.describesTiny hfile, ?_⟩
  · intro hfull
    have hkind : .songData ∈ file.version.layout file.header.container := by
      rw [hfull]
      exact List.mem_cons_self
    obtain ⟨block, hblock, data, hdata, hsong⟩ := h.exists_unpacks hfile hkind rfl
    rw [hversion] at hdata
    exact ⟨block, data, hblock, hdata, hsong⟩
  · intro pattern channel row hpattern hchannel hrow
    dsimp only
    generalize hgroup : pattern / file.version.family.patternsPerGroup = group
    by_cases hthere : ∃ packed, (.patternGroup group, packed) ∈ file.slots
        ∧ ¬ (packed = [] ∧ (BlockKind.patternGroup group).mayBeAbsent)
    · obtain ⟨packed, hslot, hpacked⟩ := hthere
      obtain ⟨block, hblock, htells⟩ := h.tells _ packed hslot hpacked
      rw [Song.Tells] at htells
      simp only [hfamily] at htells
      exact Or.inl ⟨block, ⟨packed, hslot, hpacked, hblock⟩,
        htells pattern channel row hgroup hchannel hrow⟩
    · have hlacks : ∀ packed, (.patternGroup group, packed) ∈ file.slots →
          packed = [] ∧ (BlockKind.patternGroup group).mayBeAbsent := by
        intro packed hslot
        exact Classical.byContradiction fun hpacked => hthere ⟨packed, hslot, hpacked⟩
      have hlt : group < file.version.family.groups := by
        rw [← hgroup]
        exact Nat.div_lt_of_lt_mul hpattern
      obtain ⟨packed, hslot⟩ := hfile.exists_mem_slots
        ((file.version.patternGroup_mem_layout_iff file.header.container group).mpr hlt)
      obtain ⟨rfl, habsent⟩ := hlacks packed hslot
      have hevents := h.parts (.events group) (by
        rintro kind packed hslot (rfl | ⟨-, hother⟩)
        · exact hlacks packed hslot
        · exact absurd rfl (hother group))
      have hevent := congrFun (congrFun (congrFun hevents pattern) channel) row
      simp only [SongPart.value, hfamily] at hevent
      rw [if_pos hgroup] at hevent
      refine Or.inr ⟨⟨hslot, habsent⟩, hevent.trans ((if_pos hgroup).trans ?_)⟩
      exact Grid.event?_empty hpattern hchannel hrow

/-! ### Single blocks -/

/-- A file has one block of each kind. -/
theorem HasHeader.eq_of_mem_slots (h : file.HasHeader) {kind : BlockKind} {packed packed' : List UInt8}
    (hslot : (kind, packed) ∈ file.slots) (hslot' : (kind, packed') ∈ file.slots) :
    packed = packed' := by
  have hnodup : (file.slots.map Prod.fst).Nodup := by
    rw [h.map_fst_slots]
    cases file.version <;> cases file.header.container <;> decide
  exact congrArg Prod.snd (List.inj_on_of_nodup_map hnodup hslot hslot' rfl)

theorem HasHeader.eq_of_unpacks (h : file.HasHeader) {kind : BlockKind} {block block' : Array UInt8}
    (hblock : file.Unpacks kind block) (hblock' : file.Unpacks kind block') : block = block' := by
  obtain ⟨packed, hslot, -, hunpack⟩ := hblock
  obtain ⟨packed', hslot', -, hunpack'⟩ := hblock'
  rw [h.eq_of_mem_slots hslot hslot'] at hunpack
  exact Except.ok.inj (hunpack.symm.trans hunpack')

theorem HasHeader.not_lacks_of_unpacks (h : file.HasHeader) {kind : BlockKind} {block : Array UInt8}
    (hblock : file.Unpacks kind block) : ¬ file.Lacks kind := by
  obtain ⟨packed, hslot, hthere, -⟩ := hblock
  rintro ⟨hslot', hmay⟩
  exact hthere ⟨h.eq_of_mem_slots hslot hslot', hmay⟩

/-- Where blocks are stored as they are, a file is well-formed if the lengths of its blocks are the sizes
of their kinds. -/
theorem wellFormed_of_lengths {lengths : List Nat} (hlengths : file.blocks.map List.length = lengths)
    (hraw : file.version.compression = .raw) (hheader : file.header.IsStored)
    (hversion : file.header.versionNumber = file.version.number)
    (hsupported : file.version.number ∈ ([1, 4, 5, 8, 9, 10, 11] : List UInt8))
    (htable : (BlockTable.mk file.settings lengths).IsStored file.version file.header.container)
    (hsizes : ∀ slot ∈ (file.version.layout file.header.container).zip lengths,
      slot.2 = 0 ∧ slot.1.mayBeAbsent ∨ slot.2 = file.version.blockSize slot.1) :
    file.WellFormed := by
  subst hlengths
  refine ⟨⟨hheader, hversion, hsupported, htable⟩, fun kind packed hslot => ?_⟩
  have hlength : (kind, packed.length)
      ∈ (file.version.layout file.header.container).zip (file.blocks.map List.length) := by
    rw [List.zip_map_right]
    exact List.mem_map_of_mem hslot
  refine (hsizes _ hlength).imp (And.imp_left List.eq_nil_of_length_eq_zero) fun hsize => ?_
  refine ⟨packed.toArray, ?_⟩
  rw [hraw, Compression.unpack, List.size_toArray, if_pos hsize]

/-- Where blocks are stored as they are, a block of its size unpacks to itself. -/
theorem unpacks_of_raw (hraw : file.version.compression = .raw) {kind : BlockKind}
    {packed : List UInt8} (hslot : (kind, packed) ∈ file.slots)
    (hsize : packed.length = file.version.blockSize kind) : file.Unpacks kind packed.toArray := by
  refine ⟨packed, hslot, ?_, ?_⟩
  · rintro ⟨rfl, -⟩
    exact absurd hsize (Nat.ne_of_lt (file.version.blockSize_pos kind))
  · rw [hraw, Compression.unpack, List.size_toArray, if_pos hsize]

end ModuleFile

namespace Song

theorem load_eq_ok_iff {data : Array UInt8} {song : Song} :
    load data = .ok song ↔ ∃ file : ModuleFile, file.HasHeader ∧ data.toList = file.bytes
      ∧ (ofHeader file.header file.version file.settings).withAllPacked file.slots = .ok song := by
  refine decodes_read.onBytes_eq_ok_iff.trans ?_
  constructor
  · rintro ⟨_, rest, ⟨file, hrest, hfile, rfl, hsong⟩, hdata⟩
    refine ⟨{ file with rest := rest }, ⟨hfile.header, hfile.version, hfile.supported, hfile.table⟩,
      ?_, hsong⟩
    rw [hdata, ModuleFile.bytes, hrest, List.append_nil]
    rfl
  · rintro ⟨file, hfile, hdata, hsong⟩
    refine ⟨_, file.rest, ⟨{ file with rest := [] }, rfl,
      ⟨hfile.header, hfile.version, hfile.supported, hfile.table⟩, rfl, hsong⟩, ?_⟩
    rw [hdata, ModuleFile.bytes, ModuleFile.bytes, List.append_nil]
    rfl

/-- A song is decoded from a file just when it is a module, with anything behind its last block, and
then it is what the file says. -/
theorem load_isOk_iff (data : Array UInt8) :
    ((∃ song, load data = .ok song)
      ↔ ∃ file : ModuleFile, file.WellFormed ∧ data.toList = file.bytes)
    ∧ ∀ (song : Song) (file : ModuleFile), load data = .ok song → file.WellFormed →
      data.toList = file.bytes → file.Describes song := by
  refine ⟨⟨?_, ?_⟩, ?_⟩
  · rintro ⟨song, hsong⟩
    obtain ⟨file, hfile, hdata, hsong⟩ := load_eq_ok_iff.mp hsong
    exact ⟨file, ⟨hfile, fun kind packed => exists_unpack_of_withAllPacked hsong⟩, hdata⟩
  · rintro ⟨file, hfile, hdata⟩
    obtain ⟨song, hsong, -⟩ := hfile.exists_filled
    exact ⟨song, load_eq_ok_iff.mpr ⟨file, hfile.toHasHeader, hdata, hsong⟩⟩
  · intro song file hload hfile hdata
    obtain ⟨filled, hfilled, htells⟩ := hfile.exists_filled
    have hsong := load_eq_ok_iff.mpr ⟨file, hfile.toHasHeader, hdata, hfilled⟩
    obtain rfl : filled = song := Except.ok.inj (hsong.symm.trans hload)
    exact htells.describes hfile.toHasHeader

/-- A tiny module of version 8 in which all bits of the instruments, of the order and of the first
group of patterns are set. -/
def brightFile : ModuleFile where
  header := ⟨.a2t, 0, 8, 1, 18, 6⟩
  version := .v8
  settings := { commonFlag := 255 }
  blocks := [List.replicate 3250 255, List.replicate 128 255, List.replicate 36864 255,
    [], [], [], [], [], [], []]
  rest := []

theorem slots_brightFile : brightFile.slots = [(.instruments, List.replicate 3250 255),
    (.order, List.replicate 128 255), (.patternGroup 0, List.replicate 36864 255),
    (.patternGroup 1, []), (.patternGroup 2, []), (.patternGroup 3, []), (.patternGroup 4, []),
    (.patternGroup 5, []), (.patternGroup 6, []), (.patternGroup 7, [])] := rfl

theorem wellFormed_brightFile : brightFile.WellFormed := by
  have hlengths : brightFile.blocks.map List.length
      = [3250, 128, 36864, 0, 0, 0, 0, 0, 0, 0] := by
    simp only [brightFile, List.map_cons, List.map_nil, List.length_replicate, List.length_nil]
  refine ModuleFile.wellFormed_of_lengths hlengths rfl ?_ rfl (by decide) ⟨rfl, rfl, by decide⟩
    (by decide)
  intro hfull
  cases hfull

theorem load_brightFile : ∃ song, load brightFile.bytes.toArray = .ok song ∧ song.tempo = 18
    ∧ song.grid.event? 7 17 63 = some ⟨127, 255, 255, 15, 15, ⟨0, 0⟩⟩
    ∧ song.grid.event? 8 0 0 = some Event.empty := by
  have hfile := wellFormed_brightFile
  obtain ⟨hload, hdescribes⟩ := load_isOk_iff brightFile.bytes.toArray
  obtain ⟨song, hsong⟩ := hload.mpr ⟨brightFile, hfile, rfl⟩
  have htold := hdescribes song brightFile hsong hfile rfl
  have hfirst : brightFile.Unpacks (.patternGroup 0) (Array.replicate 36864 255) := by
    have hslot : (.patternGroup 0, List.replicate 36864 255) ∈ brightFile.slots := by
      rw [slots_brightFile]
      exact .tail _ (.tail _ (.head _))
    have hunpacks := ModuleFile.unpacks_of_raw rfl hslot List.length_replicate
    rwa [List.toArray_replicate] at hunpacks
  have hsecond : brightFile.Lacks (.patternGroup 1) := by
    refine ⟨?_, rfl⟩
    rw [slots_brightFile]
    exact .tail _ (.tail _ (.tail _ (.head _)))
  refine ⟨song, hsong, (htold.tiny rfl).tempo, ?_, ?_⟩
  · rcases htold.events 7 17 63 (by decide) (by decide) (by decide) with
      ⟨block, hblock, hevent⟩ | ⟨hlacks, -⟩
    · obtain rfl := hfile.eq_of_unpacks hfirst hblock
      have hbytes : (Array.replicate 36864 (255 : UInt8)).extract 36860 (36860 + 4)
          = Array.replicate 4 255 := fieldAt_replicate 255 (by decide)
      refine hevent.trans (congrArg some ((congrArg (Event.ofBytes .opl3) hbytes).trans ?_))
      decide
    · exact absurd hlacks (hfile.not_lacks_of_unpacks hfirst)
  · rcases htold.events 8 0 0 (by decide) (by decide) (by decide) with
      ⟨block, hblock, -⟩ | ⟨-, hevent⟩
    · exact absurd hsecond (hfile.not_lacks_of_unpacks hblock)
    · exact hevent

end Song
end AdLibModule
