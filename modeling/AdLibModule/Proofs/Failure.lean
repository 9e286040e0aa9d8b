import AdLibModule.Proofs.HeaderCodec
import AdLibModule.Proofs.ModuleFile
import AdLibModule.Proofs.StreamFailure

/-! Why a module is not decoded. Every error says something about the data, and what it says is true:
a foreign file has no signature, an unsupported version stands in a whole header, a shortage lies
within the file, and all that remains is one block that cannot be unpacked. All but shortages are found
whenever they are true. What a block says once it is unpacked cannot be wrong, since the sizes that
the format declares are those that its decoders take. -/

namespace AdLibModule

open Read

/-! ### The header -/

theorem Container.failsAs_read :
    Container.read.FailsAs fun cursor error => detect cursor.rest = .error error := by
  have hskip : ∀ container : Container, (do
      Read.skip container.magic.size
      return container : Read Container).FailsShort :=
    fun container => ((takes_skip container.magic.size).spans.map _).failsShort
  have hall := fun cursor : Cursor => (failsAs_ofExcept (detect cursor.rest)).bind
    (ensures_true _) fun container _ => hskip container
  constructor
  · intro cursor
    rw [read_eq]
    exact (hall cursor).keeps cursor
  · intro cursor left error h
    rw [read_eq] at h
    rcases (hall cursor).fails h with hshort | hdetect | ⟨-, -, -, hfault⟩
    · exact Or.inl hshort
    · exact Or.inr hdetect
    · exact hfault.elim

/-- Where in the file the number of the version is. -/
def Container.versionOffset : Container → Nat
  | a2m => 14
  | a2t => 19

namespace Header

theorem failsAs_read :
    Header.read.FailsAs fun cursor error => Container.detect cursor.rest = .error error := by
  rw [Header.read]
  refine (Container.failsAs_read.bind (ensures_true _) fun container _ =>
    (spans_readFields container).failsShort).mono ?_
  rintro cursor error (hdetect | ⟨-, -, -, hfault⟩)
  · exact hdetect
  · exact hfault.elim

/-- A header that is read is a whole one, with its version where the container has it. -/
theorem versionNumber_of_bytes {header : Header} {data : Array UInt8} {rest : List UInt8}
    (h : data.toList = header.bytes ++ rest) : header.container.StartsIn data
      ∧ header.container.headerSize ≤ data.size
      ∧ data[header.container.versionOffset]? = some header.versionNumber := by
  refine ⟨⟨header.fields ++ rest, ?_⟩, ?_, ?_⟩
  · rw [h, bytes, List.append_assoc]
  · rw [← Array.length_toList, h]
    obtain ⟨container, _, _, _, _, _⟩ := header
    cases container <;> simp [bytes, fields, Container.headerSize, Container.magic,
      length_littleEndianBytes] <;> omega
  · rw [← Array.getElem?_toList, h]
    obtain ⟨container, _, _, _, _, _⟩ := header
    cases container <;> simp [bytes, fields, Container.versionOffset, Container.magic,
      littleEndianBytes]

end Header

/-! ### The version -/

/-- No version of this number can be decoded. -/
def Version.IsForeign (number : UInt8) : Prop := number ∉ ([1, 4, 5, 8, 9, 10, 11] : List UInt8)

instance (number : UInt8) : Decidable (Version.IsForeign number) :=
  inferInstanceAs (Decidable (_ ∉ _))

theorem Version.of_ofNumber_eq_error {number : UInt8} {error : DecodeError}
    (h : ofNumber number = .error error) : error = .unsupportedVersion number ∧ IsForeign number := by
  constructor
  · unfold ofNumber at h
    split at h
    · cases h
    · cases h
      rfl
  · intro hmem
    have hfound : ∃ version : Version, version.number = number := by
      simp only [List.mem_cons, List.not_mem_nil, or_false] at hmem
      rcases hmem with rfl | rfl | rfl | rfl | rfl | rfl | rfl
      · exact ⟨v1, rfl⟩
      · exact ⟨v4, rfl⟩
      · exact ⟨v5, rfl⟩
      · exact ⟨v8, rfl⟩
      · exact ⟨v9, rfl⟩
      · exact ⟨v10, rfl⟩
      · exact ⟨v11, rfl⟩
    obtain ⟨version, rfl⟩ := hfound
    rw [ofNumber_eq_ok_iff.mpr rfl] at h
    cases h

theorem Version.of_requireSupported_eq_error {version : Version} {error : DecodeError}
    (h : version.requireSupported = .error error) :
    error = .unsupportedVersion version.number ∧ IsForeign version.number := by
  constructor
  · unfold requireSupported at h
    split at h
    · cases h
    · cases h
      rfl
  · intro hmem
    rw [requireSupported_eq_ok_iff.mpr hmem] at h
    cases h

/-! ### The blocks -/

/-- What the decoders of a kind of block make of the bytes: they succeed, whatever names the
instruments are given and whatever events there were before. -/
def BlockKind.IsDecoded (version : Version) (block : Array UInt8) : BlockKind → Prop
  | songData => ∃ data, (SongData.read version).onBytes block = .ok data
  | instruments => ∀ names, ∃ list, (Instrument.readAll version names).onBytes block = .ok list
  | instrumentMacros => ∃ list, InstrumentMacro.readAll.onBytes block = .ok list
  | macroTables => ∃ list, MacroTable.readAll.onBytes block = .ok list
  | disabledColumns => ∃ list, DisabledColumns.readAll.onBytes block = .ok list
  | order => ∃ order, (Read.vector orderSize).onBytes block = .ok order
  | patternGroup group => ∀ grid : Grid, grid.family = version.family →
    ∃ filled, grid.decodeGroup group block = (.ok (), filled)

/-- A block that was unpacked is decoded: its size is the one that its decoder takes. -/
theorem BlockKind.isDecoded_of_unpack {version : Version} {container : Container} {kind : BlockKind}
    {packed block : Array UInt8} (hkind : kind ∈ version.layout container)
    (h : version.compression.unpack packed (version.blockSize kind) = .ok block) :
    kind.IsDecoded version block := by
  have hsize : block.size = version.blockSize kind := Compression.size_of_unpack h
  have hroom := Nat.le_of_eq hsize.symm
  cases kind with
  | songData => exact SongData.exists_onBytes_eq_ok hsize
  | instruments => exact fun names => (fetches_instruments version names).exists_onBytes_eq_ok hroom
  | instrumentMacros => exact fetches_instrumentMacros.exists_onBytes_eq_ok hroom
  | macroTables => exact fetches_macroTables.exists_onBytes_eq_ok hroom
  | disabledColumns => exact fetches_allDisabledColumns.exists_onBytes_eq_ok hroom
  | order => exact ⟨_, Read.onBytes_vector hsize⟩
  | patternGroup group =>
      intro grid hfamily
      have hgroup := (version.patternGroup_mem_layout_iff container group).mp hkind
      have hgrid : block.size = grid.family.groupSize := by
        rw [hfamily]
        exact hsize
      rw [← hfamily] at hgroup
      obtain ⟨filled, hdecode, -⟩ :=
        Grid.exists_decodeGroup_eq (Nat.le_of_eq hgrid.symm) hgroup
      exact ⟨filled, hdecode⟩

/-- A block, and the blocks before it. -/
structure BlockPlace where
  before : List (BlockKind × List UInt8)
  kind : BlockKind
  packed : List UInt8

namespace BlockPlace

/-- The blocks lie at the front of the bytes, and have the kinds and lengths of the first slots. -/
structure LiesIn (place : BlockPlace) (slots : List (BlockKind × Nat)) (bytes : List UInt8) : Prop where
  slots : (place.before ++ [(place.kind, place.packed)]).map (fun slot => (slot.1, slot.2.length))
    <+: slots
  bytes : (place.before.map Prod.snd).flatten ++ place.packed <+: bytes

/-- The block is the first that cannot be unpacked, and this is what unpacking it leads to. -/
structure FailsFirst (place : BlockPlace) (version : Version) (error : DecodeError) : Prop where
  before : ∀ kind packed, (kind, packed) ∈ place.before → (packed = [] ∧ kind.mayBeAbsent)
    ∨ ∃ block, version.compression.unpack packed.toArray (version.blockSize kind) = .ok block
  there : ¬ (place.packed = [] ∧ place.kind.mayBeAbsent)
  unpack : version.compression.unpack place.packed.toArray (version.blockSize place.kind)
    = .error error

end BlockPlace

/-- The error is that of the first block that cannot be unpacked. -/
def Version.IsBlockFault (version : Version) (slots : List (BlockKind × Nat)) (bytes : List UInt8)
    (error : DecodeError) : Prop :=
  ∃ place : BlockPlace, place.LiesIn slots bytes ∧ place.FailsFirst version error

namespace Song

variable {song : Song} {kind : BlockKind}

/-- A block that is absent or that can be unpacked fills in its part of the song. -/
theorem exists_withPacked_eq {packed : List UInt8} (hfamily : song.grid.family = song.version.family)
    (hgroup : ∀ group, kind = .patternGroup group → group < song.version.family.groups)
    (h : (packed = [] ∧ kind.mayBeAbsent) ∨ ∃ block,
      song.version.compression.unpack packed.toArray (song.version.blockSize kind) = .ok block) :
    ∃ next, song.withPacked kind packed = .ok next ∧ next.SameHeader song := by
  by_cases habsent : packed = [] ∧ kind.mayBeAbsent
  · exact ⟨song, if_pos habsent, rfl, rfl, rfl, rfl, rfl⟩
  · obtain ⟨block, hblock⟩ := h.resolve_left habsent
    obtain ⟨next, hnext, -, hsame, -⟩ :=
      exists_withBlock_eq hfamily (Compression.size_of_unpack hblock) hgroup
    exact ⟨next, (withPacked_eq habsent hblock).trans hnext, hsame⟩

theorem sameHeader_of_withPacked {next : Song} {packed : List UInt8}
    (hfamily : song.grid.family = song.version.family)
    (hgroup : ∀ group, kind = .patternGroup group → group < song.version.family.groups)
    (h : song.withPacked kind packed = .ok next) : next.SameHeader song := by
  obtain ⟨filled, hfilled, hsame⟩ := exists_withPacked_eq hfamily hgroup (unpack_of_withPacked h)
  obtain rfl : filled = next := Except.ok.inj (hfilled.symm.trans h)
  exact hsame

/-- A block that is read fails for want of bytes, or because it cannot be unpacked. -/
theorem failsAs_readBlock (hfamily : song.grid.family = song.version.family)
    (hgroup : ∀ group, kind = .patternGroup group → group < song.version.family.groups)
    (length : Nat) : (song.readBlock kind length).FailsAs fun cursor error =>
      song.version.IsBlockFault [(kind, length)] cursor.unread error := by
  unfold readBlock
  by_cases habsent : length = 0 ∧ kind.mayBeAbsent
  · rw [if_pos habsent]
    exact (failsShort_pure song).mono fun _ _ hfault => hfault.elim
  · rw [if_neg habsent]
    refine (FailsAs.bind (takes_bytes length).spans.failsShort (decodes_bytes length).ensures fun packed _ =>
      (failsAs_ofExcept _).bind (decodes_ofExcept _).ensures fun block hblock =>
        failsAs_ofExcept _).mono fun cursor error hfault => ?_
    rcases hfault with hfault | ⟨packed, between, hread, hfault⟩
    · exact hfault.elim
    obtain ⟨_, ⟨rfl, hsize⟩, hunread⟩ := (decodes_bytes length).coded hread
    rcases hfault with hunpack | ⟨block, between', hblock, hwith⟩
    · refine ⟨⟨[], kind, packed.toList⟩, ⟨?_, ?_⟩, ⟨?_, ?_, ?_⟩⟩
      · simp [hsize]
      · exact ⟨between.unread, hunread.symm⟩
      · simp
      · rintro ⟨hempty, hmay⟩
        have hnone : packed.toList.length = 0 := List.length_eq_zero_iff.mpr hempty
        exact habsent ⟨by rw [← hsize, ← Array.length_toList, hnone], hmay⟩
      · exact hunpack
    · have hunpack := (Prod.mk.inj hblock).1
      obtain ⟨next, hnext, -⟩ :=
        exists_withBlock_eq hfamily (Compression.size_of_unpack hunpack) hgroup
      rw [hnext] at hwith
      cases hwith

theorem isBlockFault_cons {next : Song} {length : Nat} {slots : List (BlockKind × Nat)}
    {packed bytes : List UInt8} {error : DecodeError} (hlength : packed.length = length)
    (hpacked : song.withPacked kind packed = .ok next)
    (h : song.version.IsBlockFault slots bytes error) :
    song.version.IsBlockFault ((kind, length) :: slots) (packed ++ bytes) error := by
  obtain ⟨place, ⟨hslots, hbytes⟩, ⟨hbefore, hthere, hunpack⟩⟩ := h
  refine ⟨⟨(kind, packed) :: place.before, place.kind, place.packed⟩, ⟨?_, ?_⟩, ⟨?_, hthere, hunpack⟩⟩
  · simpa [hlength] using hslots
  · simpa using hbytes
  · intro other others hslot
    rcases List.mem_cons.mp hslot with heq | hslot
    · obtain ⟨rfl, rfl⟩ := Prod.mk.inj heq
      exact unpack_of_withPacked hpacked
    · exact hbefore other others hslot

/-- Reading blocks fails for want of bytes, or at the first block that cannot be unpacked. The
induction is on the blocks: each of them leaves the header as it is. -/
theorem failsAs_readBlocks {slots : List (BlockKind × Nat)}
    (hfamily : song.grid.family = song.version.family)
    (hgroups : ∀ group length, (.patternGroup group, length) ∈ slots →
      group < song.version.family.groups) :
    (song.readBlocks slots).FailsAs fun cursor error =>
      song.version.IsBlockFault slots cursor.unread error := by
  induction slots generalizing song with
  | nil => exact (failsShort_pure song).mono fun _ _ hfault => hfault.elim
  | cons slot slots ih =>
      obtain ⟨kind, length⟩ := slot
      have hgroup : ∀ group, kind = .patternGroup group → group < song.version.family.groups :=
        fun group hkind => hgroups group length (hkind ▸ List.mem_cons_self)
      have hsame : (song.readBlock kind length).Ensures fun next => next.SameHeader song := by
        intro cursor left next hread
        obtain ⟨packed, -, hpacked⟩ := (decodes_readBlock song kind length).ensures hread
        exact sameHeader_of_withPacked hfamily hgroup hpacked
      refine ((failsAs_readBlock hfamily hgroup length).bind hsame fun next hnext => ih
        (hnext.family.trans (hfamily.trans (by rw [hnext.version]))) ?_).mono ?_
      · rw [hnext.version]
        exact fun group others hslot => hgroups group others (List.mem_cons_of_mem _ hslot)
      · rintro cursor error (⟨place, hlies, hfails⟩ | ⟨next, between, hread, hfault⟩)
        · refine ⟨place, ⟨hlies.slots.trans ?_, hlies.bytes⟩, hfails⟩
          exact ⟨slots, rfl⟩
        · obtain ⟨packed, ⟨hlength, hpacked⟩, hunread⟩ :=
            (decodes_readBlock song kind length).coded hread
          rw [(sameHeader_of_withPacked hfamily hgroup hpacked).version] at hfault
          rw [hunread]
          exact isBlockFault_cons hlength hpacked hfault

/-- A block that cannot be unpacked is not passed over. The induction is on the blocks before it. -/
theorem readBlocks_of_isBlockFault {slots : List (BlockKind × Nat)} {cursor : Cursor}
    {error : DecodeError} (hfamily : song.grid.family = song.version.family)
    (hgroups : ∀ group length, (.patternGroup group, length) ∈ slots →
      group < song.version.family.groups)
    (h : song.version.IsBlockFault slots cursor.unread error) :
    (song.readBlocks slots cursor).1 = .error error := by
  obtain ⟨⟨before, kind, packed⟩, ⟨⟨behind, hslots⟩, ⟨rest, hbytes⟩⟩, hbefore, hthere, hunpack⟩ := h
  dsimp only at hslots hbytes hbefore hthere hunpack
  subst hslots
  induction before generalizing song cursor with
  | nil =>
      have habsent : ¬ (packed.length = 0 ∧ kind.mayBeAbsent) := fun habsent =>
        hthere ⟨List.length_eq_zero_iff.mp habsent.1, habsent.2⟩
      obtain ⟨left, hread, -⟩ := @Decodes.reads _ _ _ (decodes_bytes packed.length) packed.toArray _
        ⟨rfl, rfl⟩ cursor rest hbytes.symm
      show ((song.readBlock kind packed.length >>= _) cursor).1 = _
      unfold readBlock
      rw [if_neg habsent, bind_apply, bind_eq_of_eq_ok hread, bind_apply, hunpack]
      rfl
  | cons slot before ih =>
      obtain ⟨first, bytes⟩ := slot
      have hgroup : ∀ group, first = .patternGroup group → group < song.version.family.groups :=
        fun group hfirst => hgroups group bytes.length (hfirst ▸ List.mem_cons_self)
      obtain ⟨next, hnext, hsame⟩ :=
        exists_withPacked_eq hfamily hgroup (hbefore first bytes List.mem_cons_self)
      have hunread : cursor.unread
          = bytes ++ ((before.map Prod.snd).flatten ++ packed ++ rest) := by
        rw [← hbytes]
        simp
      obtain ⟨between, hread, hbetween⟩ :=
        (decodes_readBlock song first bytes.length).reads ⟨rfl, hnext⟩ hunread
      show ((song.readBlock first bytes.length >>= _) cursor).1 = _
      rw [bind_eq_of_eq_ok hread]
      apply ih
      · rw [hsame.family, hsame.version, hfamily]
      · exact hbetween.symm
      · rw [hsame.version]
        exact fun other others hslot => hbefore other others (List.mem_cons_of_mem _ hslot)
      · rwa [hsame.version]
      · rw [hsame.version]
        exact fun group length hslot => hgroups group length (List.mem_cons_of_mem _ hslot)

end Song

/-! ### The file -/

/-- The data starts with the header of a version that can be decoded and with the table of its block
lengths, and this is what follows. -/
structure HeaderAt (data : Array UInt8) (header : Header) (version : Version) (table : BlockTable)
    (rest : List UInt8) : Prop where
  isStored : header.IsStored
  number : header.versionNumber = version.number
  supported : version.number ∈ ([1, 4, 5, 8, 9, 10, 11] : List UInt8)
  entries : table.IsStored version header.container
  bytes : data.toList = header.bytes ++ table.bytes version header.container ++ rest

/-- Unpacking one of the blocks that the header announces leads to the error. -/
def DecodeError.IsBlockFaultIn (data : Array UInt8) (error : DecodeError) : Prop :=
  ∃ header version table rest, HeaderAt data header version table rest
    ∧ version.IsBlockFault ((version.layout header.container).zip table.lengths) rest error

/-- What the error says is true of the data. -/
def DecodeError.TrueOf (data : Array UInt8) : DecodeError → Prop
  | .truncated offset needed available =>
    offset ≤ data.size ∧ available = data.size - offset ∧ available < needed
  | .badMagic => ∀ container : Container, ¬ container.StartsIn data ∧ ¬ container.EndsIn data
  | .unsupportedVersion number => Version.IsForeign number ∧ ∃ container : Container,
    container.StartsIn data ∧ container.headerSize ≤ data.size
      ∧ data[container.versionOffset]? = some number
  | .corruptStream fault => (corruptStream fault).IsBlockFaultIn data
  | .sizeMismatch expected actual => (sizeMismatch expected actual).IsBlockFaultIn data
  | .unsupportedCompression _ | .unreadable => False

/-- The error is not a shortage: it tells what the data is, and not that there is too little of it. -/
def DecodeError.IsFinal (error : DecodeError) : Prop :=
  ∀ offset needed available, error ≠ .truncated offset needed available

namespace DecodeError

variable {data : Array UInt8} {error : DecodeError}

theorem IsShortageIn.trueOf (h : error.IsShortageIn data) : error.TrueOf data := by
  cases error with
  | truncated offset needed available => exact h
  | _ => exact h.elim

theorem IsBlockFaultIn.trueOf (h : error.IsBlockFaultIn data) : error.TrueOf data := by
  have hfault : error.IsPackFault := by
    obtain ⟨header, version, table, rest, hheader, place, -, hplace⟩ := h
    apply Compression.isPackFault_of_unpack _ hplace.unpack
    exact version.isSupported_iff.mpr hheader.supported
  cases error with
  | corruptStream fault => exact h
  | sizeMismatch expected actual => exact h
  | _ => exact hfault.elim

end DecodeError

namespace Song

variable {data : Array UInt8} {error : DecodeError}

/-- Every error is true: it comes from the first stage of the decoding that does not succeed, and
each of them fails in its own ways only. The stages are the signature, the number of the version, its
way of packing, and the blocks. -/
theorem trueOf_of_load_eq_error (h : load data = .error error) : error.TrueOf data := by
  have hread : read (.start data) = (.error error, (read (.start data)).2) := Prod.ext h rfl
  have hfails := Header.failsAs_read.bind (ensures_true _) fun header _ =>
    (failsAs_ofExcept (Version.ofNumber header.versionNumber)).bind (ensures_true _) fun version _ =>
    (failsAs_ofExcept version.requireSupported).bind (ensures_true _) fun _ _ =>
    FailsAs.bind (BlockTable.spans_read version header.container).failsShort (ensures_true _)
      fun table _ =>
    @failsAs_readBlocks (ofHeader header version table.settings)
      ((version.layout header.container).zip table.lengths) rfl
      fun group length hslot => version.lt_groups_of_mem_zip hslot
  rcases hfails.fails hread with hshort | hdetect | ⟨header, between, hheader, hfault⟩
  · exact hshort.trueOf
  · rw [Cursor.rest_start] at hdetect
    rcases Container.of_detect_eq_error hdetect with rfl | hshort
    · exact Container.detect_eq_badMagic_iff.mp hdetect
    · exact hshort.trueOf
  obtain ⟨_, ⟨hstored, rfl⟩, hunread⟩ := Header.decodes_read.coded hheader
  rw [Cursor.unread_start] at hunread
  have hforeign : ∀ number, header.versionNumber = number → Version.IsForeign number →
      (DecodeError.unsupportedVersion number).TrueOf data := by
    rintro _ rfl hforeign
    exact ⟨hforeign, header.container, Header.versionNumber_of_bytes hunread⟩
  rcases hfault with hunknown | ⟨version, between', hfound, hfault⟩
  · obtain ⟨rfl, hnone⟩ := Version.of_ofNumber_eq_error hunknown
    exact hforeign _ rfl hnone
  obtain ⟨hversion, rfl⟩ := Prod.mk.inj hfound
  have hnumber := Version.ofNumber_eq_ok_iff.mp hversion
  rcases hfault with hrefused | ⟨_, _, haccepted, hfault | ⟨table, left, htable, hblock⟩⟩
  · obtain ⟨rfl, hnone⟩ := Version.of_requireSupported_eq_error hrefused
    exact hforeign _ hnumber hnone
  · exact hfault.elim
  obtain ⟨hsupported, rfl⟩ := Prod.mk.inj haccepted
  obtain ⟨_, ⟨hentries, rfl⟩, hbetween⟩ :=
    (BlockTable.decodes_read version header.container).coded htable
  refine DecodeError.IsBlockFaultIn.trueOf ⟨header, version, table, left.unread, ⟨hstored, hnumber,
    Version.requireSupported_eq_ok_iff.mp hsupported, hentries, ?_⟩, hblock⟩
  rw [hunread, hbetween, List.append_assoc]

theorem load_of_detect_eq_error (h : Container.detect data = .error error) :
    load data = .error error := by
  rw [← Cursor.rest_start data] at h
  rw [load, onBytes, read, bind_apply, Header.read_of_detect_eq_error h]

/-- Behind the fixed part of its header, a module is read by what this part says. -/
theorem load_eq {header : Header} {left : Cursor}
    (h : Header.read (.start data) = (.ok header, left)) : load data = (readAfter header left).1 := by
  rw [load, onBytes, read, bind_eq_of_eq_ok h]

/-- A whole header of a version that cannot be decoded is refused, whatever follows. -/
theorem load_of_isForeign {container : Container} {number : UInt8} (hforeign : Version.IsForeign number)
    (hstarts : container.StartsIn data) (hsize : container.headerSize ≤ data.size)
    (hnumber : data[container.versionOffset]? = some number) :
    load data = .error (.unsupportedVersion number) := by
  obtain ⟨header, left, hheader, rfl⟩ := Header.exists_read_eq hstarts hsize
  obtain ⟨_, ⟨-, rfl⟩, hunread⟩ := Header.decodes_read.coded hheader
  obtain rfl : header.versionNumber = number := by
    obtain ⟨-, -, hfound⟩ := Header.versionNumber_of_bytes hunread
    exact Option.some.inj (hfound.symm.trans hnumber)
  rw [load_eq hheader, readAfter, bind_apply]
  cases hversion : Version.ofNumber header.versionNumber with
  | error error =>
      rw [(Version.of_ofNumber_eq_error hversion).1]
      rfl
  | ok version =>
      have hsame := Version.ofNumber_eq_ok_iff.mp hversion
      rw [hsame] at hforeign ⊢
      show ((ofExcept version.requireSupported >>= _) left).1 = _
      rw [bind_apply]
      cases hsupported : version.requireSupported with
      | error error =>
          rw [(Version.of_requireSupported_eq_error hsupported).1]
          rfl
      | ok _ => exact absurd (Version.requireSupported_eq_ok_iff.mp hsupported) hforeign

theorem load_of_isBlockFaultIn (h : error.IsBlockFaultIn data) : load data = .error error := by
  obtain ⟨header, version, table, rest, hheader, hfault⟩ := h
  have hdata : (Cursor.start data).unread
      = header.bytes ++ (table.bytes version header.container ++ rest) := by
    rw [Cursor.unread_start, hheader.bytes, List.append_assoc]
  obtain ⟨between, hread, hbetween⟩ := Header.decodes_read.reads ⟨hheader.isStored, rfl⟩ hdata
  obtain ⟨left, htable, hleft⟩ :=
    (BlockTable.decodes_read version header.container).reads ⟨hheader.entries, rfl⟩ hbetween
  have hversion : Read.ofExcept (Version.ofNumber header.versionNumber) between
      = (.ok version, between) := by
    rw [Version.ofNumber_eq_ok_iff.mpr hheader.number]
    rfl
  have hsupported : Read.ofExcept version.requireSupported between = (.ok (), between) := by
    rw [Version.requireSupported_eq_ok_iff.mpr hheader.supported]
    rfl
  rw [load_eq hread, readAfter, bind_eq_of_eq_ok hversion, bind_eq_of_eq_ok hsupported,
    bind_eq_of_eq_ok htable]
  rw [← hleft] at hfault
  exact @readBlocks_of_isBlockFault (ofHeader header version table.settings) _ _ _ rfl
    (fun group length hslot => version.lt_groups_of_mem_zip hslot) hfault

/-- An error that is true of the data is found, unless it is a shortage: the data can be short of
bytes in many places, and reading stops at the first. -/
theorem load_of_trueOf (h : error.TrueOf data) (hfinal : error.IsFinal) : load data = .error error := by
  cases error with
  | truncated offset needed available => exact absurd rfl (hfinal offset needed available)
  | badMagic => exact load_of_detect_eq_error (Container.detect_eq_badMagic_iff.mpr h)
  | unsupportedVersion number =>
      obtain ⟨hforeign, container, hstarts, hsize, hnumber⟩ := h
      exact load_of_isForeign hforeign hstarts hsize hnumber
  | corruptStream fault => exact load_of_isBlockFaultIn h
  | sizeMismatch expected actual => exact load_of_isBlockFaultIn h
  | unsupportedCompression scheme => exact h.elim
  | unreadable => exact h.elim

/-- Every error is true of the data, and all errors but shortages are found whenever they are true. A
missing signature agrees with the tests that look at the signature alone. Once a block is unpacked,
nothing fails on it. -/
theorem load_error_classification (data : Array UInt8) :
    (∀ error, load data = .error error → error.TrueOf data)
    ∧ (∀ error : DecodeError, error.IsFinal → (load data = .error error ↔ error.TrueOf data))
    ∧ (load data = .error .badMagic ↔ Container.detect data = .error .badMagic)
    ∧ (load data = .error .badMagic → Container.format? data = none ∧ Container.isModule data = false)
    ∧ (Container.format? data).isSome = Container.isModule data
    ∧ ∀ (version : Version) (container : Container) (kind : BlockKind) (packed block : Array UInt8),
      kind ∈ version.layout container →
        version.compression.unpack packed (version.blockSize kind) = .ok block →
          kind.IsDecoded version block := by
  have htrue := fun error => @trueOf_of_load_eq_error data error
  have hfound : ∀ error : DecodeError, error.IsFinal →
      (load data = .error error ↔ error.TrueOf data) :=
    fun error hfinal => ⟨htrue error, fun h => load_of_trueOf h hfinal⟩
  have hmagic : load data = .error .badMagic ↔ DecodeError.badMagic.TrueOf data :=
    hfound .badMagic (by simp [DecodeError.IsFinal])
  have hformat : (Container.format? data).isSome = Container.isModule data := by
    rw [Bool.eq_iff_iff, Option.isSome_iff_exists, Container.isModule_iff]
    simp only [Container.format?_eq_some_iff]
  refine ⟨htrue, hfound, ?_, ?_, hformat, ?_⟩
  · rw [hmagic]
    exact Container.detect_eq_badMagic_iff.symm
  · intro h
    have hnone : Container.isModule data = false := by
      rw [← Bool.not_eq_true, Container.isModule_iff]
      rintro ⟨container, hstarts⟩
      exact (hmagic.mp h container).1 hstarts
    rw [← Option.not_isSome_iff_eq_none, hformat, hnone]
    simp
  · exact fun version container kind packed block => BlockKind.isDecoded_of_unpack

theorem load_error_classification_of_foreign :
    load #[0x59, 0x4d, 0x36, 0x21] = .error .badMagic
    ∧ load (Container.a2m.magic ++ #[0, 0, 0, 0, 2, 0]) = .error (.unsupportedVersion 2) := by
  obtain ⟨-, hmagic, -⟩ := load_error_classification #[0x59, 0x4d, 0x36, 0x21]
  obtain ⟨-, hversion, -⟩ := load_error_classification (Container.a2m.magic ++ #[0, 0, 0, 0, 2, 0])
  constructor
  · refine (hmagic .badMagic (by simp [DecodeError.IsFinal])).mpr fun container => ?_
    cases container <;> decide
  · refine (hversion (.unsupportedVersion 2) (by simp [DecodeError.IsFinal])).mpr ?_
    exact ⟨by decide, .a2m, by decide, by decide, rfl⟩

end Song

end AdLibModule
