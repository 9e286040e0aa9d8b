import AdLibModule.Proofs.Aplib.Accepted
import AdLibModule.Proofs.SameContent

/-! Groups without events. A group of patterns without bytes, a stream that ends early and a block of
zeros all stand for events in which nothing happens, so that a block of zeros can be stored for an
absent group, or left out, without a change to the song. -/

namespace AdLibModule

/-! ### Zero bytes -/

theorem Event.ofBytes_eq_empty (family : Family) {stored : Array UInt8}
    (h : ∀ index, stored.getD index 0 = 0) : ofBytes family stored = empty := by
  unfold ofBytes
  simp only [h]
  cases family <;> decide

theorem Family.eventAt_eq_empty (family : Family) {block : Array UInt8} {offset : Nat}
    (h : ∀ index, offset ≤ index → block.getD index 0 = 0) :
    family.eventAt block offset = Event.empty := by
  refine Event.ofBytes_eq_empty family fun index => ?_
  have hbyte := h (offset + index) (Nat.le_add_right _ _)
  rw [Array.getD_eq_getD_getElem?] at hbyte ⊢
  rw [Array.getElem?_extract]
  split
  · exact hbyte
  · rfl

theorem Output.getD_zeroFill {out : Array UInt8} {size index : Nat} (h : out.size ≤ index) :
    (zeroFill out size).getD index 0 = 0 := by
  rw [zeroFill, Array.getD_eq_getD_getElem?, Array.getElem?_append_right h, Array.getElem?_replicate]
  split <;> rfl

namespace Compression

/-- What the scheme itself makes of a packed block, before it is filled up. -/
def output (scheme : Compression) (source : Array UInt8) (size : Nat) :
    Except DecodeError (Array UInt8) :=
  match scheme with
  | .sixpack => Sixpack.decode source size
  | .aplib => Aplib.decode source size
  | .raw | .lzw | .lzss => scheme.unpack source size

theorem unpack_eq (scheme : Compression) (source : Array UInt8) (size : Nat) :
    scheme.unpack source size = (scheme.output source size).map (Output.zeroFill · size) := by
  cases scheme with
  | sixpack => rfl
  | aplib => rfl
  | raw =>
      rw [output, unpack]
      split
      · rename_i hsize
        have hfull : Output.zeroFill source size = source := by
          rw [Output.zeroFill, hsize, Nat.sub_self, Array.replicate_zero, Array.append_empty]
        rw [Except.map, hfull]
      · rfl
  | lzw => rfl
  | lzss => rfl

/-- Behind the output of the scheme a block holds nothing but zeros. -/
theorem getD_of_unpack {scheme : Compression} {source block : Array UInt8} {size offset : Nat}
    (h : scheme.unpack source size = .ok block)
    (hoffset : ∀ out, scheme.output source size = .ok out → out.size ≤ offset) :
    ∀ index, offset ≤ index → block.getD index 0 = 0 := by
  intro index hindex
  rw [unpack_eq] at h
  obtain ⟨out, hout, rfl⟩ := map_eq_ok_iff.mp h
  exact Output.getD_zeroFill ((hoffset out hout).trans hindex)

end Compression

/-! ### A file fixes its song -/

namespace ModuleFile

variable {file other : ModuleFile} {song song' : Song} {kind : BlockKind}

/-- If the part is there, it is read from the block of its kind. -/
theorem HasHeader.eq_of_reads {α : Type} {there : Prop} [Decidable there] {reading : Read (List α)}
    {list list' : List α} (h : file.HasHeader)
    (hlist : if there then ∃ block, file.Unpacks kind block ∧ reading.onBytes block = .ok list
      else list = [])
    (hlist' : if there then ∃ block, file.Unpacks kind block ∧ reading.onBytes block = .ok list'
      else list' = []) : list = list' := by
  split_ifs at hlist hlist'
  · obtain ⟨block, hblock, hread⟩ := hlist
    obtain ⟨block', hblock', hread'⟩ := hlist'
    rw [h.eq_of_unpacks hblock hblock'] at hread
    exact Except.ok.inj (hread.symm.trans hread')
  · rw [hlist, hlist']

theorem Describes.grid_eq (hfile : file.HasHeader) (h : file.Describes song)
    (h' : file.Describes song') : song.grid = song'.grid := by
  apply Grid.eq_of_event?_eq (h.family.trans h'.family.symm)
  rw [h.family]
  intro pattern channel row hpattern hchannel hrow
  rcases h.events pattern channel row hpattern hchannel hrow with
    ⟨block, hblock, hevent⟩ | ⟨hlacks, hevent⟩
  · rcases h'.events pattern channel row hpattern hchannel hrow with
      ⟨block', hblock', hevent'⟩ | ⟨hlacks', -⟩
    · rw [hevent, hevent', hfile.eq_of_unpacks hblock hblock']
    · exact absurd hlacks' (hfile.not_lacks_of_unpacks hblock)
  · rcases h'.events pattern channel row hpattern hchannel hrow with
      ⟨block', hblock', -⟩ | ⟨-, hevent'⟩
    · exact absurd hlacks (hfile.not_lacks_of_unpacks hblock')
    · rw [hevent, hevent']

theorem Describes.eq (hfile : file.HasHeader) (h : file.Describes song) (h' : file.Describes song') :
    song = song' := by
  have hgrid := h.grid_eq hfile h'
  have hcontainer := h.container.trans h'.container.symm
  have hversion := h.version.trans h'.version.symm
  have hchecksum := h.checksum.trans h'.checksum.symm
  have hcount := h.patternCount.trans h'.patternCount.symm
  cases hkind : file.header.container with
  | a2m =>
      obtain ⟨block, data, hblock, hread, hsong⟩ := h.full hkind
      obtain ⟨block', data', hblock', hread', hsong'⟩ := h'.full hkind
      rw [hfile.eq_of_unpacks hblock hblock'] at hread
      obtain rfl : data = data' := Except.ok.inj (hread.symm.trans hread')
      rw [← hsong, ← hsong', Song.withData, Song.withData, hgrid, hcontainer, hversion, hchecksum,
        hcount]
  | a2t =>
      have htiny := h.tiny hkind
      have htiny' := h'.tiny hkind
      obtain ⟨htitle, hauthor, hnames⟩ := htiny.texts
      obtain ⟨htitle', hauthor', hnames'⟩ := htiny'.texts
      obtain ⟨block, hblock, hinstruments⟩ := htiny.instruments
      obtain ⟨block', hblock', hinstruments'⟩ := htiny'.instruments
      rw [hfile.eq_of_unpacks hblock hblock', hinstruments'] at hinstruments
      have horder := Vector.toArray_inj.mp (hfile.eq_of_unpacks htiny.order htiny'.order)
      have hmacros := hfile.eq_of_reads htiny.instrumentMacros htiny'.instrumentMacros
      have htables := hfile.eq_of_reads htiny.macroTables htiny'.macroTables
      have hcolumns := hfile.eq_of_reads htiny.disabledColumns htiny'.disabledColumns
      obtain ⟨⟩ := song
      obtain ⟨⟩ := song'
      dsimp only at *
      simp only [Song.mk.injEq]
      exact ⟨hcontainer, hversion, hchecksum, hcount, htiny.tempo.trans htiny'.tempo.symm,
        htiny.speed.trans htiny'.speed.symm, horder, htitle.trans htitle'.symm,
        hauthor.trans hauthor'.symm, htiny.settings.trans htiny'.settings.symm,
        (Except.ok.inj hinstruments).symm, hmacros, htables, hcolumns, hnames.trans hnames'.symm, hgrid⟩

/-! ### Another block in the place of one -/

/-- Where the block of the kind stands among the blocks. -/
def place (file : ModuleFile) (kind : BlockKind) : Nat :=
  (file.version.layout file.header.container).idxOf kind

/-- The file with other bytes for a block. -/
def withBlock (file : ModuleFile) (kind : BlockKind) (packed : List UInt8) : ModuleFile :=
  { file with blocks := file.blocks.set (file.place kind) packed }

theorem HasHeader.length_blocks (h : file.HasHeader) :
    file.blocks.length = (file.version.layout file.header.container).length := by
  rw [file.version.length_layout, ← h.table.entries]
  exact (List.length_map _).symm

theorem mem_slots_iff {packed : List UInt8} : (kind, packed) ∈ file.slots ↔
    ∃ index : Nat, (file.version.layout file.header.container)[index]? = some kind
      ∧ file.blocks[index]? = some packed := by
  rw [slots, List.mem_iff_getElem?]
  simp only [List.getElem?_zip_eq_some]

/-- A kind has no other place in the layout. -/
theorem eq_place_of_getElem? {index : Nat}
    (h : (file.version.layout file.header.container)[index]? = some kind) :
    index = file.place kind := by
  have hnodup : (file.version.layout file.header.container).Nodup := by
    cases file.version <;> cases file.header.container <;> decide
  obtain ⟨hindex, rfl⟩ := List.getElem?_eq_some_iff.mp h
  exact (hnodup.idxOf_getElem index hindex).symm

theorem getElem?_place_of_mem_slots {packed : List UInt8} (h : (kind, packed) ∈ file.slots) :
    file.blocks[file.place kind]? = some packed := by
  obtain ⟨index, hkind, hpacked⟩ := mem_slots_iff.mp h
  rwa [← eq_place_of_getElem? hkind]

/-- A group to which the table gives no length is absent. -/
theorem HasHeader.lacks_of_length_eq_zero (h : file.HasHeader) {group : Nat}
    (hlength : file.table.lengths[file.place (.patternGroup group)]? = some 0) :
    file.Lacks (.patternGroup group) := by
  rw [ModuleFile.table, List.getElem?_map, Option.map_eq_some_iff] at hlength
  obtain ⟨packed, hpacked, hempty⟩ := hlength
  obtain rfl : packed = [] := List.eq_nil_of_length_eq_zero hempty
  obtain ⟨hplace, -⟩ := List.getElem?_eq_some_iff.mp hpacked
  rw [h.length_blocks] at hplace
  refine ⟨mem_slots_iff.mpr ⟨_, ?_, hpacked⟩, rfl⟩
  rw [List.getElem?_eq_getElem hplace]
  exact congrArg some (List.getElem_idxOf hplace)

theorem mem_slots_withBlock_of_ne {other : BlockKind} {packed bytes : List UInt8} (hne : other ≠ kind) :
    (other, bytes) ∈ (file.withBlock kind packed).slots ↔ (other, bytes) ∈ file.slots := by
  rw [mem_slots_iff, mem_slots_iff]
  refine exists_congr fun index => and_congr_right fun hother => ?_
  have hindex : file.place kind ≠ index := by
    rintro rfl
    obtain ⟨hplace, hkind⟩ := List.getElem?_eq_some_iff.mp hother
    exact hne (hkind.symm.trans (List.getElem_idxOf hplace))
  exact Eq.congr_left (List.getElem?_set_ne hindex)

theorem eq_of_mem_slots_withBlock {packed bytes : List UInt8}
    (h : (kind, bytes) ∈ (file.withBlock kind packed).slots) : bytes = packed := by
  have hbytes := getElem?_place_of_mem_slots h
  have hset : (file.blocks.set (file.place kind) packed)[file.place kind]? = some bytes := hbytes
  rw [List.getElem?_set_self'] at hset
  obtain ⟨_, -, hsame⟩ := Option.map_eq_some_iff.mp hset
  exact hsame.symm

theorem unpacks_withBlock_iff_of_ne {other : BlockKind} {packed : List UInt8} {block : Array UInt8}
    (hne : other ≠ kind) :
    (file.withBlock kind packed).Unpacks other block ↔ file.Unpacks other block :=
  exists_congr fun _ => and_congr_left' (mem_slots_withBlock_of_ne hne)

theorem HasHeader.withBlock {packed : List UInt8} (h : file.HasHeader)
    (hroom : packed.length < 256 ^ file.version.lengthSize) :
    (file.withBlock kind packed).HasHeader where
  header := h.header
  version := h.version
  supported := h.supported
  table := by
    refine ⟨h.table.settings, ?_, fun length hlength => ?_⟩
    · refine Eq.trans ?_ h.table.entries
      simp only [ModuleFile.table, ModuleFile.withBlock, List.length_map, List.length_set]
    · obtain ⟨bytes, hbytes, rfl⟩ := List.mem_map.mp hlength
      rcases List.mem_or_eq_of_mem_set hbytes with hold | rfl
      · exact h.table.room _ (List.mem_map_of_mem hold)
      · exact hroom

theorem WellFormed.withBlock {packed : List UInt8} {block : Array UInt8} (h : file.WellFormed)
    (hroom : packed.length < 256 ^ file.version.lengthSize)
    (hblock : file.version.compression.unpack packed.toArray (file.version.blockSize kind)
      = .ok block) :
    (file.withBlock kind packed).WellFormed := by
  refine ⟨h.toHasHeader.withBlock hroom, fun other bytes hslot => ?_⟩
  by_cases hother : other = kind
  · subst hother
    obtain rfl := eq_of_mem_slots_withBlock hslot
    exact Or.inr ⟨block, hblock⟩
  · exact h.blocks other bytes ((mem_slots_withBlock_of_ne hother).mp hslot)

/-- Storing a block for an absent one changes its length in the table and puts in its bytes. -/
theorem bytes_withBlock {packed : List UInt8} (h : file.blocks[file.place kind]? = some []) :
    (file.withBlock kind packed).bytes = file.header.bytes
      ++ BlockTable.bytes file.version file.header.container
        { file.table with lengths := file.table.lengths.set (file.place kind) packed.length }
      ++ (file.blocks.take (file.place kind)).flatten ++ packed
      ++ (file.blocks.drop (file.place kind)).flatten ++ file.rest := by
  obtain ⟨hplace, hempty⟩ := List.getElem?_eq_some_iff.mp h
  have hbehind : (file.blocks.drop (file.place kind)).flatten
      = (file.blocks.drop (file.place kind + 1)).flatten := by
    rw [List.drop_eq_getElem_cons hplace, hempty, List.flatten_cons, List.nil_append]
  have hblocks : (file.blocks.set (file.place kind) packed).flatten
      = (file.blocks.take (file.place kind)).flatten ++ packed
        ++ (file.blocks.drop (file.place kind)).flatten := by
    rw [List.set_eq_take_append_cons_drop, if_pos hplace, List.flatten_append, List.flatten_cons,
      hbehind, List.append_assoc]
  have htable : (file.withBlock kind packed).table
      = { file.table with lengths := file.table.lengths.set (file.place kind) packed.length } := by
    rw [table, ModuleFile.withBlock, table, List.map_set]
  rw [bytes, htable]
  simp only [ModuleFile.withBlock, hblocks, List.append_assoc]

/-! ### Zeros in the place of nothing -/

section Group

variable {group : Nat} {packed : List UInt8}

theorem unpacks_withBlock_group (kind : BlockKind) (hthere : kind.mayBeAbsent = false) :
    (file.withBlock (.patternGroup group) packed).Unpacks kind = file.Unpacks kind := by
  funext block
  refine propext (unpacks_withBlock_iff_of_ne ?_)
  rintro rfl
  cases hthere

theorem DescribesTiny.of_withBlock
    (h : (file.withBlock (.patternGroup group) packed).DescribesTiny song) :
    file.DescribesTiny song := by
  obtain ⟨htexts, htempo, hspeed, hsettings, horder, hinstruments, hmacros, htables, hcolumns⟩ := h
  rw [unpacks_withBlock_group _ rfl] at horder
  simp only [unpacks_withBlock_group .instruments rfl] at hinstruments
  simp only [unpacks_withBlock_group .instrumentMacros rfl] at hmacros
  simp only [unpacks_withBlock_group .macroTables rfl] at htables
  simp only [unpacks_withBlock_group .disabledColumns rfl] at hcolumns
  exact ⟨htexts, htempo, hspeed, hsettings, horder, hinstruments, hmacros, htables, hcolumns⟩

/-- What the stored zeros say of the events, the file itself says by having no block for them. -/
theorem Describes.of_withBlock (hlacks : file.Lacks (.patternGroup group))
    (hzero : file.version.compression.unpack packed.toArray file.version.family.groupSize
      = .ok (Array.replicate file.version.family.groupSize 0))
    (h : (file.withBlock (.patternGroup group) packed).Describes song) : file.Describes song where
  container := h.container
  version := h.version
  checksum := h.checksum
  patternCount := h.patternCount
  family := h.family
  full hkind := by
    have hdata := h.full hkind
    rwa [unpacks_withBlock_group _ rfl] at hdata
  tiny hkind := (h.tiny hkind).of_withBlock
  events pattern channel row hpattern hchannel hrow := by
    have hevent := h.events pattern channel row hpattern hchannel hrow
    dsimp only at hevent ⊢
    by_cases hgroup : pattern / file.version.family.patternsPerGroup = group
    · subst hgroup
      rcases hevent with ⟨block, ⟨stored, hslot, -, hunpack⟩, hevent⟩ | ⟨-, hevent⟩
      · obtain rfl := eq_of_mem_slots_withBlock hslot
        obtain rfl := Except.ok.inj (hunpack.symm.trans hzero)
        refine Or.inr ⟨hlacks, hevent.trans (congrArg some ?_)⟩
        refine Family.eventAt_eq_empty _ fun index _ => ?_
        rw [Array.getD_eq_getD_getElem?, Array.getElem?_replicate]
        split <;> rfl
      · exact Or.inr ⟨hlacks, hevent⟩
    · have hne : BlockKind.patternGroup (pattern / file.version.family.patternsPerGroup)
          ≠ .patternGroup group := fun hsame => hgroup (BlockKind.patternGroup.inj hsame)
      rcases hevent with ⟨block, hblock, hevent⟩ | ⟨⟨hslot, hmay⟩, hevent⟩
      · exact Or.inl ⟨block, (unpacks_withBlock_iff_of_ne hne).mp hblock, hevent⟩
      · exact Or.inr ⟨⟨(mem_slots_withBlock_of_ne hne).mp hslot, hmay⟩, hevent⟩

/-- A block that unpacks to zeros can be stored for an absent group. -/
theorem WellFormed.load_withBlock (hfile : file.WellFormed) (hsong : file.Describes song)
    (hlacks : file.Lacks (.patternGroup group)) (hroom : packed.length < 256 ^ file.version.lengthSize)
    (hzero : file.version.compression.unpack packed.toArray file.version.family.groupSize
      = .ok (Array.replicate file.version.family.groupSize 0)) :
    Song.load (file.withBlock (.patternGroup group) packed).bytes.toArray = .ok song := by
  have hwell : (file.withBlock (.patternGroup group) packed).WellFormed := hfile.withBlock hroom hzero
  obtain ⟨filled, hload⟩ := hwell.exists_load
  have hdescribes := (Song.load_isOk_iff _).2 filled _ hload hwell List.toList_toArray
  have hsame := (hdescribes.of_withBlock hlacks hzero).eq hfile.toHasHeader hsong
  rw [hsame] at hload
  exact hload

/-- What lies behind the output of the scheme is an event in which nothing happens. -/
theorem Describes.event?_eq_empty (hfile : file.HasHeader) (h : file.Describes song)
    {pattern channel row : Nat} (hpattern : pattern < file.version.family.patternSlots)
    (hchannel : channel < file.version.family.channels) (hrow : row < file.version.family.rows)
    (hslot : (.patternGroup (pattern / file.version.family.patternsPerGroup), packed) ∈ file.slots)
    (hbehind : ∀ out,
      file.version.compression.output packed.toArray file.version.family.groupSize = .ok out →
      out.size ≤ file.version.family.eventOffset (pattern % file.version.family.patternsPerGroup)
        channel row) :
    song.grid.event? pattern channel row = some Event.empty := by
  rcases h.events pattern channel row hpattern hchannel hrow with
    ⟨block, ⟨stored, hstored, -, hunpack⟩, hevent⟩ | ⟨-, hevent⟩
  · obtain rfl := hfile.eq_of_mem_slots hslot hstored
    rw [hevent, Family.eventAt_eq_empty _ (Compression.getD_of_unpack hunpack hbehind)]
  · exact hevent

end Group

end ModuleFile

namespace Song

/-- Absent, short and zero groups of patterns cannot be told apart. A block of zeros, packed in any way,
can be stored for a group to which the table gives no length: the song stays the same when the length of
the block is put in the table and its bytes are put in at its place. And every event whose bytes lie
behind the output of the scheme for its group is the one in which nothing happens; a group without bytes
has no output. -/
theorem load_zero_group {data : Array UInt8} {song : Song} (h : load data = .ok song) :
    ∃ file : ModuleFile, file.WellFormed ∧ data.toList = file.bytes
      ∧ (∀ (group : Nat) (packed : List UInt8),
        file.table.lengths[file.place (.patternGroup group)]? = some 0 →
        packed.length < 256 ^ file.version.lengthSize →
        file.version.compression.unpack packed.toArray file.version.family.groupSize
          = .ok (Array.replicate file.version.family.groupSize 0) →
        load (file.header.bytes ++ BlockTable.bytes file.version file.header.container
            { file.table with
              lengths := file.table.lengths.set (file.place (.patternGroup group)) packed.length }
          ++ (file.blocks.take (file.place (.patternGroup group))).flatten ++ packed
          ++ (file.blocks.drop (file.place (.patternGroup group))).flatten ++ file.rest).toArray
        = .ok song)
      ∧ ∀ (pattern channel row : Nat) (packed : List UInt8),
        pattern < file.version.family.patternSlots → channel < file.version.family.channels →
        row < file.version.family.rows →
        (.patternGroup (pattern / file.version.family.patternsPerGroup), packed) ∈ file.slots →
        (∀ out, file.version.compression.output packed.toArray file.version.family.groupSize = .ok out →
          out.size ≤ file.version.family.eventOffset (pattern % file.version.family.patternsPerGroup)
            channel row) →
        song.grid.event? pattern channel row = some Event.empty := by
  obtain ⟨file, hfile, hdata, hsong⟩ := exists_describes_of_load h
  refine ⟨file, hfile, hdata, ?_, ?_⟩
  · intro group packed hlength hroom hzero
    have hlacks := hfile.lacks_of_length_eq_zero hlength
    rw [← ModuleFile.bytes_withBlock (ModuleFile.getElem?_place_of_mem_slots hlacks.1)]
    exact hfile.load_withBlock hsong hlacks hroom hzero
  · intro pattern channel row packed hpattern hchannel hrow hslot hbehind
    exact hsong.event?_eq_empty hfile.toHasHeader hpattern hchannel hrow hslot hbehind

/-- A tiny module of version 9. Each of its blocks is a stream of a single zero byte, and only the first
group is there. -/
def briefFile : ModuleFile where
  header := ⟨.a2t, 0, 9, 0, 0, 0⟩
  version := .v9
  settings := {}
  blocks := List.replicate 5 [0, 192, 0] ++ List.replicate 15 []
  rest := []

theorem decode_brief {limit : Nat} (hlimit : 1 ≤ limit) :
    Aplib.decode #[0, 192, 0] limit = .ok #[0] := by
  have hsays : Aplib.SaysTokens [192, 0] [] :=
    ⟨0, Or.inl rfl, List.replicate 5 false, [], by decide, by decide⟩
  exact Aplib.decode_eq_ok_iff.mpr ⟨hlimit, 0, _, [], rfl, trivial, rfl, hsays⟩

theorem unpack_brief {size : Nat} (hsize : 1 ≤ size) :
    Compression.aplib.unpack #[0, 192, 0] size = .ok (Array.replicate size 0) := by
  have hfull : Output.zeroFill #[0] size = Array.replicate size 0 := by
    rw [Output.zeroFill, ← Array.replicate_one, Array.replicate_append_replicate, Array.size_replicate,
      Nat.add_sub_cancel' hsize]
  rw [Compression.unpack, decode_brief hsize, Except.map, hfull]

theorem wellFormed_briefFile : briefFile.WellFormed := by
  have hlengths : briefFile.table.lengths = List.replicate 5 3 ++ List.replicate 15 0 := rfl
  refine ⟨⟨(fun h => nomatch h), rfl, by decide, ⟨rfl, rfl, ?_⟩⟩, fun kind packed hslot => ?_⟩
  · rw [hlengths]
    decide
  · have hall : ∀ slot ∈ briefFile.slots, slot.2 = [] ∧ slot.1.mayBeAbsent ∨ slot.2 = [0, 192, 0] := by
      decide
    rcases hall _ hslot with habsent | hpacked
    · exact Or.inl habsent
    · obtain rfl : packed = [0, 192, 0] := hpacked
      exact Or.inr ⟨_, unpack_brief (briefFile.version.blockSize_pos kind)⟩

/-- A second group of zeros changes nothing, and after its first byte the group that is there holds no
event. -/
theorem load_zero_group_of_brief : ∃ song, load briefFile.bytes.toArray = .ok song
    ∧ load (briefFile.withBlock (.patternGroup 1) [0, 192, 0]).bytes.toArray = .ok song
    ∧ song.grid.event? 0 0 1 = some Event.empty := by
  obtain ⟨song, hsong⟩ := wellFormed_briefFile.exists_load
  obtain ⟨file, hfile, hdata, hzero, hbehind⟩ := load_zero_group hsong
  obtain rfl : briefFile = file :=
    wellFormed_briefFile.toHasHeader.eq_of_bytes_eq hfile.toHasHeader hdata
  refine ⟨song, hsong, ?_, ?_⟩
  · rw [ModuleFile.bytes_withBlock rfl]
    exact hzero 1 [0, 192, 0] rfl (by decide) (unpack_brief (by decide))
  · refine hbehind 0 0 1 [0, 192, 0] (by decide) (by decide) (by decide) (by decide) fun out hout => ?_
    obtain rfl := Except.ok.inj ((decode_brief (by decide)).symm.trans hout)
    decide

end Song
end AdLibModule
