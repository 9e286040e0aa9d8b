import AdLibModule.Header
import AdLibModule.Proofs.SongData

/-! The header as it is stored. Reading a header accepts the stored bytes of headers and no others; a
signature is told from data that is foreign and from data that ends too early. -/

namespace AdLibModule

open Read

/-! ### The signature -/

theorem toList_extract_zero (data : Array UInt8) (size : Nat) :
    (data.extract 0 size).toList = data.toList.take size := by
  rw [Array.toList_extract, List.extract, Nat.sub_zero, List.drop_zero]

theorem Container.detect_eq_ok {container : Container} {data : Array UInt8}
    (h : detect data = .ok container) : container.marks data = true := by
  unfold detect at h
  split at h
  · rename_i hmarks
    cases h
    exact hmarks
  split at h
  · cases h
  split at h
  · rename_i hmarks
    cases h
    exact hmarks
  split at h
  · cases h
  · cases h

theorem Container.marks_iff {container : Container} {data : Array UInt8} :
    container.marks data = true ↔ container.magic.toList <+: data.toList := by
  rw [marks, beq_iff_eq, ← Array.toList_inj, toList_extract_zero, List.prefix_iff_eq_take,
    Array.length_toList]
  exact eq_comm

theorem Container.detect_of_marks {container : Container} {data : Array UInt8}
    (h : container.marks data = true) : detect data = .ok container := by
  cases container with
  | a2m => rw [detect, if_pos h]
  | a2t =>
      have hprefix := marks_iff.mp h
      have hlength : 15 ≤ data.size := hprefix.length_le
      have hother : ¬ a2m.marks data = true := by
        intro hmarks
        have hshort := List.prefix_of_prefix_length_le (marks_iff.mp hmarks) hprefix (by decide)
        exact absurd hshort (by decide)
      have hcut : ¬ a2m.isCutIn data = true := by
        rw [isCutIn, Bool.and_eq_true, decide_eq_true_eq]
        rintro ⟨hsize, -⟩
        have : data.size < 10 := hsize
        omega
      rw [detect, if_neg hother, if_neg hcut, if_pos h]

/-- The data starts with the signature. -/
def Container.StartsIn (container : Container) (data : Array UInt8) : Prop :=
  container.magic.toList <+: data.toList

/-- The data is a part of the signature, but not all of it. -/
def Container.EndsIn (container : Container) (data : Array UInt8) : Prop :=
  data.toList <+: container.magic.toList ∧ data.size < container.magic.size

instance (container : Container) (data : Array UInt8) : Decidable (container.StartsIn data) :=
  inferInstanceAs (Decidable (_ <+: _))

instance (container : Container) (data : Array UInt8) : Decidable (container.EndsIn data) :=
  inferInstanceAs (Decidable (_ ∧ _))

theorem Container.isCutIn_iff {container : Container} {data : Array UInt8} :
    container.isCutIn data = true ↔ container.EndsIn data := by
  rw [EndsIn, isCutIn, Bool.and_eq_true, decide_eq_true_eq, beq_iff_eq, ← Array.toList_inj,
    toList_extract_zero, List.prefix_iff_eq_take, Array.length_toList, and_comm, eq_comm]

theorem size_le_of_isPrefix {part data : Array UInt8} (h : part.toList <+: data.toList) :
    part.size ≤ data.size := by
  simpa using h.length_le

theorem Container.size_of_marks {container : Container} {data : Array UInt8}
    (h : container.marks data = true) : container.magic.size ≤ data.size :=
  size_le_of_isPrefix (marks_iff.mp h)

/-- Data that ends within a signature is told to be cut short. The two signatures begin alike, and the
shorter one is tried first. -/
theorem Container.exists_detect_eq_of_isCutIn {container : Container} {data : Array UInt8}
    (h : container.isCutIn data = true) :
    ∃ needed, detect data = .error (.truncated 0 needed data.size) ∧ data.size < needed := by
  obtain ⟨hstart, hsize⟩ := isCutIn_iff.mp h
  have hfull : a2m.marks data = false := by
    by_contra hmarks
    rw [Bool.not_eq_false] at hmarks
    have hle := size_of_marks hmarks
    cases container with
    | a2m => omega
    | a2t => exact absurd ((marks_iff.mp hmarks).trans hstart) (by decide)
  by_cases hcut : a2m.isCutIn data = true
  · refine ⟨a2m.magic.size, ?_, (isCutIn_iff.mp hcut).2⟩
    rw [detect, hfull, if_neg (by decide), if_pos hcut]
  · cases container with
    | a2m => exact absurd h hcut
    | a2t =>
        refine ⟨a2t.magic.size, ?_, hsize⟩
        have htiny : ¬ a2t.marks data = true := fun hmarks => by
          have := size_of_marks hmarks
          omega
        rw [detect, hfull, if_neg (by decide), if_neg hcut, if_neg htiny, if_pos h]

theorem Container.detect_eq_badMagic_iff {data : Array UInt8} :
    detect data = .error .badMagic
      ↔ ∀ container : Container, ¬ container.StartsIn data ∧ ¬ container.EndsIn data := by
  constructor
  · intro h container
    constructor
    · intro hstarts
      have hfound := detect_of_marks (marks_iff.mpr hstarts)
      rw [h] at hfound
      cases hfound
    · intro hends
      obtain ⟨needed, hcut, -⟩ := exists_detect_eq_of_isCutIn (isCutIn_iff.mpr hends)
      rw [h] at hcut
      cases hcut
  · intro h
    have hmarks : ∀ container : Container, ¬ container.marks data = true :=
      fun container => mt marks_iff.mp (h container).1
    have hcut : ∀ container : Container, ¬ container.isCutIn data = true :=
      fun container => mt isCutIn_iff.mp (h container).2
    rw [detect, if_neg (hmarks .a2m), if_neg (hcut .a2m), if_neg (hmarks .a2t), if_neg (hcut .a2t)]

/-- Data is foreign, or it is found to end within a signature. -/
theorem Container.of_detect_eq_error {data : Array UInt8} {error : DecodeError}
    (h : detect data = .error error) : error = .badMagic ∨ error.IsShortageIn data := by
  by_cases hcut : ∃ container : Container, container.isCutIn data = true
  · obtain ⟨container, hcut⟩ := hcut
    obtain ⟨needed, hdetect, hlt⟩ := exists_detect_eq_of_isCutIn hcut
    obtain rfl : _ = error := Except.error.inj (hdetect.symm.trans h)
    exact Or.inr ⟨Nat.zero_le _, rfl, hlt⟩
  · left
    have hforeign : detect data = .error .badMagic := by
      refine detect_eq_badMagic_iff.mpr fun container => ⟨fun hstarts => ?_, fun hends => ?_⟩
      · rw [detect_of_marks (marks_iff.mpr hstarts)] at h
        cases h
      · exact hcut ⟨container, isCutIn_iff.mpr hends⟩
    exact Except.error.inj (h.symm.trans hforeign)

theorem Container.isModule_iff {data : Array UInt8} :
    isModule data = true ↔ ∃ container : Container, container.StartsIn data := by
  rw [isModule, Bool.or_eq_true, marks_iff, marks_iff]
  constructor
  · rintro (h | h)
    · exact ⟨.a2m, h⟩
    · exact ⟨.a2t, h⟩
  · rintro ⟨_ | _, h⟩
    · exact Or.inl h
    · exact Or.inr h

theorem Container.format?_eq_some_iff {container : Container} {data : Array UInt8} :
    format? data = some container ↔ container.StartsIn data := by
  have hdetect : format? data = some container ↔ detect data = .ok container := by
    rw [format?]
    cases detect data <;> simp [Except.toOption]
  rw [hdetect]
  constructor
  · intro h
    exact marks_iff.mp (detect_eq_ok h)
  · intro h
    exact detect_of_marks (marks_iff.mpr h)

theorem Container.decodes_read : Container.read.Decodes fun container bytes =>
    bytes = container.magic.toList where
  reads := by
    rintro container _ rfl cursor rest h
    have hdetect : detect cursor.rest = .ok container := by
      refine detect_of_marks (marks_iff.mpr ⟨rest, ?_⟩)
      rw [cursor.toList_rest, h]
    have htell : (Read.ofExcept (detect cursor.rest)) cursor = (.ok container, cursor) := by
      rw [hdetect]
      rfl
    obtain ⟨left, hskip, hleft⟩ := @Decodes.reads Unit _ _ (decodes_skip container.magic.size) ()
      _ Array.length_toList cursor rest h
    refine ⟨left, ?_, hleft⟩
    show (Read.ofExcept (detect cursor.rest) >>= fun container => do
      Read.skip container.magic.size
      return container) cursor = _
    rw [bind_eq_of_eq_ok htell, bind_eq_of_eq_ok hskip]
    rfl
  coded := by
    intro cursor left container h
    have hread : (Read.ofExcept (detect cursor.rest) >>= fun container => do
      Read.skip container.magic.size
      return container) cursor = (.ok container, left) := h
    obtain ⟨found, between, htell, hrest⟩ := exists_of_bind_eq_ok hread
    obtain ⟨hdetect, rfl⟩ := Prod.mk.inj htell
    obtain ⟨_, after, hskip, hlast⟩ := exists_of_bind_eq_ok hrest
    cases hlast
    obtain ⟨bytes, hlength, hunread⟩ := (decodes_skip _).coded hskip
    refine ⟨bytes, ?_, hunread⟩
    obtain ⟨rest, hprefix⟩ := marks_iff.mp (detect_eq_ok hdetect)
    rw [cursor.toList_rest, hunread] at hprefix
    exact (List.append_inj_left hprefix.symm (hlength.trans Array.length_toList.symm))

/-! ### The fixed part -/

namespace Header

/-- The bytes that follow the signature. -/
def fields (header : Header) : List UInt8 :=
  littleEndianBytes 4 header.checksum.toNat ++ [header.versionNumber, header.patternCount]
    ++ match header.container with
      | .a2m => []
      | .a2t => [header.tempo, header.speed]

/-- The bytes of the fixed part. -/
def bytes (header : Header) : List UInt8 := header.container.magic.toList ++ header.fields

/-- A full module does not store tempo and speed in its header. -/
def IsStored (header : Header) : Prop :=
  header.container = .a2m → header.tempo = 0 ∧ header.speed = 0

theorem decodes_readFields (container : Container) :
    (readFields container).Decodes fun header bytes =>
      header.container = container ∧ header.IsStored ∧ bytes = header.fields := by
  cases container with
  | a2m =>
      refine (decodes_u32.store fun checksum => decodes_u8.store fun versionNumber =>
        decodes_u8.store fun patternCount => decodes_pure _).congr fun header bytes => ?_
      constructor
      · rintro ⟨_, _, ⟨_, _, ⟨_, _, ⟨rfl, rfl⟩, rfl⟩, rfl⟩, rfl⟩
        exact ⟨rfl, fun _ => ⟨rfl, rfl⟩, rfl⟩
      · obtain ⟨container, _, _, _, tempo, speed⟩ := header
        rintro ⟨rfl, hstored, rfl⟩
        obtain ⟨rfl, rfl⟩ := hstored rfl
        exact ⟨_, _, ⟨_, _, ⟨_, _, ⟨rfl, rfl⟩, rfl⟩, rfl⟩, rfl⟩
  | a2t =>
      refine (decodes_u32.store fun checksum => decodes_u8.store fun versionNumber =>
        decodes_u8.store fun patternCount => decodes_u8.store fun tempo => decodes_u8.store fun speed =>
        decodes_pure _).congr fun header bytes => ?_
      constructor
      · rintro ⟨_, _, ⟨_, _, ⟨_, _, ⟨_, _, ⟨_, _, ⟨rfl, rfl⟩, rfl⟩, rfl⟩, rfl⟩, rfl⟩, rfl⟩
        refine ⟨rfl, ?_, rfl⟩
        intro h
        cases h
      · obtain ⟨container, _, _, _, tempo, speed⟩ := header
        rintro ⟨rfl, -, rfl⟩
        exact ⟨_, _, ⟨_, _, ⟨_, _, ⟨_, _, ⟨_, _, ⟨rfl, rfl⟩, rfl⟩, rfl⟩, rfl⟩, rfl⟩, rfl⟩

theorem decodes_read : Header.read.Decodes fun header bytes =>
    header.IsStored ∧ bytes = header.bytes := by
  rw [Header.read]
  refine (Container.decodes_read.store decodes_readFields).congr fun header bytes => ?_
  constructor
  · rintro ⟨_, _, ⟨rfl, hstored, rfl⟩, rfl⟩
    exact ⟨hstored, rfl⟩
  · rintro ⟨hstored, rfl⟩
    exact ⟨_, _, ⟨rfl, hstored, rfl⟩, rfl⟩

end Header

/-! ### The part that depends on the version -/

namespace Settings

/-- The bytes in which a version stores the settings. -/
def bytes (version : Version) (settings : Settings) : List UInt8 :=
  (if version.number < 5 then [] else [settings.commonFlag])
    ++ (if version.number < 9 then []
      else littleEndianBytes 2 settings.patternLength.toNat ++ [settings.trackCount]
        ++ littleEndianBytes 2 settings.macroSpeedup.toNat)
    ++ (if version.number < 10 then [] else settings.fourOpFlag :: settings.lockFlags.toList)

/-- The settings that a version stores, all others with their defaults. -/
def kept (version : Version) (settings : Settings) : Settings :=
  if version.number < 5 then {}
  else if version.number < 9 then { commonFlag := settings.commonFlag }
  else if version.number < 10 then
    { commonFlag := settings.commonFlag
      patternLength := settings.patternLength
      trackCount := settings.trackCount
      macroSpeedup := settings.macroSpeedup }
  else settings

theorem length_bytes (version : Version) (settings : Settings) :
    (settings.bytes version).length = storedSize version := by
  unfold bytes
  cases version <;> simp [Version.number, storedSize, length_littleEndianBytes]

/-- The settings that were stored are found at their places. -/
theorem storedAt_bytes (version : Version) (settings : Settings) :
    storedAt version (settings.bytes version).toArray 0 = settings.kept version := by
  have hpattern := (@eq_toUInt16_littleEndian_iff settings.patternLength _).mpr rfl
  have hspeedup := (@eq_toUInt16_littleEndian_iff settings.macroSpeedup _).mpr rfl
  unfold storedAt bytes kept
  by_cases h5 : version.number < 5
  · have h9 : version.number < 9 := UInt8.lt_trans h5 (by decide)
    have h10 : version.number < 10 := UInt8.lt_trans h5 (by decide)
    simp only [if_pos h5, if_pos h9, if_pos h10]
  by_cases h9 : version.number < 9
  · have h10 : version.number < 10 := UInt8.lt_trans h9 (by decide)
    simp only [if_neg h5, if_pos h9, if_pos h10]
    rfl
  by_cases h10 : version.number < 10
  · simp only [if_neg h5, if_neg h9, if_pos h10]
    rw [Settings.mk.injEq]
    exact ⟨rfl, hpattern.2.symm, rfl, hspeedup.2.symm, rfl, rfl⟩
  · simp only [if_neg h5, if_neg h9, if_neg h10]
    obtain ⟨flag, pattern, tracks, speedup, voices, locks⟩ := settings
    have hfront : ([flag] ++ (littleEndianBytes 2 pattern.toNat ++ [tracks]
        ++ littleEndianBytes 2 speedup.toNat) ++ [voices]).length = 0 + 7 := rfl
    have hlocks := bytesAt_append hfront locks
    rw [List.append_assoc] at hlocks
    rw [Settings.mk.injEq]
    exact ⟨rfl, hpattern.2.symm, rfl, hspeedup.2.symm, rfl, hlocks⟩

/-- The bytes are those of the settings that are found at their places. -/
theorem bytes_storedAt {version : Version} {bytes : List UInt8}
    (hlength : bytes.length = storedSize version) :
    (storedAt version bytes.toArray 0).bytes version = bytes := by
  unfold storedSize at hlength
  unfold storedAt Settings.bytes
  by_cases h5 : version.number < 5
  · have h9 : version.number < 9 := UInt8.lt_trans h5 (by decide)
    have h10 : version.number < 10 := UInt8.lt_trans h5 (by decide)
    rw [if_pos h5] at hlength
    rw [List.eq_nil_of_length_eq_zero hlength]
    simp only [if_pos h5, if_pos h9, if_pos h10]
    rfl
  rw [if_neg h5] at hlength
  by_cases h9 : version.number < 9
  · have h10 : version.number < 10 := UInt8.lt_trans h9 (by decide)
    rw [if_pos h9] at hlength
    obtain ⟨flag, rfl⟩ := List.length_eq_one_iff.mp hlength
    simp only [if_neg h5, if_pos h9, if_pos h10]
    rfl
  rw [if_neg h9] at hlength
  by_cases h10 : version.number < 10
  · rw [if_pos h10] at hlength
    match bytes, hlength with
    | [flag, low, high, tracks, low', high'], _ =>
      have hpattern := (@eq_toUInt16_littleEndian_iff _ [low, high]).mp ⟨rfl, rfl⟩
      have hspeedup := (@eq_toUInt16_littleEndian_iff _ [low', high']).mp ⟨rfl, rfl⟩
      simp only [if_neg h5, if_neg h9, if_pos h10]
      show [flag] ++ (littleEndianBytes 2 (littleEndian [low, high]).toUInt16.toNat ++ [tracks]
        ++ littleEndianBytes 2 (littleEndian [low', high']).toUInt16.toNat) ++ [] = _
      rw [← hpattern, ← hspeedup]
      rfl
  · rw [if_neg h10] at hlength
    match bytes, hlength with
    | flag :: low :: high :: tracks :: low' :: high' :: voices :: locks, hlength =>
      have hpattern := (@eq_toUInt16_littleEndian_iff _ [low, high]).mp ⟨rfl, rfl⟩
      have hspeedup := (@eq_toUInt16_littleEndian_iff _ [low', high']).mp ⟨rfl, rfl⟩
      have hlocks : locks.toArray.size = 20 := by simpa using hlength
      have hfront : [flag, low, high, tracks, low', high', voices].length = 0 + 7 := rfl
      have hrow := bytesAt_append hfront ⟨locks.toArray, hlocks⟩
      simp only [if_neg h5, if_neg h9, if_neg h10]
      show [flag] ++ (littleEndianBytes 2 (littleEndian [low, high]).toUInt16.toNat ++ [tracks]
        ++ littleEndianBytes 2 (littleEndian [low', high']).toUInt16.toNat)
        ++ voices :: (bytesAt 20 _ _).toList = _
      rw [← hpattern, ← hspeedup]
      exact congrArg (fun row : Vector UInt8 20 =>
        flag :: low :: high :: tracks :: low' :: high' :: voices :: row.toList) hrow

theorem kept_storedAt (version : Version) (bytes : Array UInt8) (offset : Nat) :
    (storedAt version bytes offset).kept version = storedAt version bytes offset := by
  unfold storedAt kept
  by_cases h5 : version.number < 5
  · have h9 : version.number < 9 := UInt8.lt_trans h5 (by decide)
    have h10 : version.number < 10 := UInt8.lt_trans h5 (by decide)
    simp only [if_pos h5, if_pos h9, if_pos h10]
  by_cases h9 : version.number < 9
  · have h10 : version.number < 10 := UInt8.lt_trans h9 (by decide)
    simp only [if_neg h5, if_pos h9, if_pos h10]
  by_cases h10 : version.number < 10
  · simp only [if_neg h5, if_neg h9, if_pos h10]
  · simp only [if_neg h5, if_neg h9, if_neg h10]

theorem decodes_read (version : Version) : (Settings.read version).Decodes fun settings bytes =>
    settings.kept version = settings ∧ bytes = settings.bytes version := by
  refine (fetches_settings version).decodes.congr fun settings bytes => ?_
  constructor
  · rintro ⟨hlength, rfl⟩
    exact ⟨kept_storedAt version _ 0, (bytes_storedAt hlength).symm⟩
  · rintro ⟨hkept, rfl⟩
    exact ⟨length_bytes version settings, ((storedAt_bytes version settings).trans hkept).symm⟩

end Settings

/-- The number of entries in the table of block lengths. -/
def Version.tableEntries (version : Version) : Container → Nat
  | .a2m =>
    match version.family with
    | .classic => 5
    | .opl3 => 9
    | .extended => 17
  | .a2t =>
    match version.family with
    | .classic => 6
    | .opl3 => 10
    | .extended => if version.number < 11 then 20 else 21

/-- Every block has an entry in the table, and no entry is left over. -/
theorem Version.length_layout (version : Version) (container : Container) :
    (version.layout container).length = version.tableEntries container := by
  cases version <;> cases container <;> rfl

namespace BlockTable

/-- The bytes in which a version stores the table. -/
def bytes (version : Version) (container : Container) (table : BlockTable) : List UInt8 :=
  (match container with
    | .a2m => []
    | .a2t => table.settings.bytes version)
    ++ table.lengths.flatMap (littleEndianBytes version.lengthSize)

/-- The settings are those that are stored here, and each length has room in its entry. -/
structure IsStored (version : Version) (container : Container) (table : BlockTable) : Prop where
  settings : table.settings =
    match container with
    | .a2m => {}
    | .a2t => table.settings.kept version
  entries : table.lengths.length = version.tableEntries container
  room : ∀ length ∈ table.lengths, length < 256 ^ version.lengthSize

theorem decodes_read (version : Version) (container : Container) :
    (BlockTable.read version container).Decodes fun table bytes =>
      table.IsStored version container ∧ bytes = table.bytes version container := by
  have hlengths := (decodes_number version.lengthSize).times (version.tableEntries container)
  unfold BlockTable.read
  simp only [version.length_layout container]
  cases container with
  | a2m =>
      refine (hlengths.map (BlockTable.mk {})).congr fun table bytes => ?_
      constructor
      · rintro ⟨lengths, ⟨⟨hentries, hroom⟩, rfl⟩, rfl⟩
        exact ⟨⟨rfl, hentries, hroom⟩, rfl⟩
      · obtain ⟨settings, lengths⟩ := table
        rintro ⟨⟨hkept, hentries, hroom⟩, rfl⟩
        obtain rfl : settings = {} := hkept
        exact ⟨lengths, ⟨⟨hentries, hroom⟩, rfl⟩, rfl⟩
  | a2t =>
      refine ((Settings.decodes_read version).bind fun settings =>
        hlengths.map (BlockTable.mk settings)).congr fun table bytes => ?_
      constructor
      · rintro ⟨settings, _, _, ⟨hkept, rfl⟩, ⟨lengths, ⟨⟨hentries, hroom⟩, rfl⟩, rfl⟩, rfl⟩
        exact ⟨⟨hkept.symm, hentries, hroom⟩, rfl⟩
      · obtain ⟨settings, lengths⟩ := table
        rintro ⟨⟨hkept, hentries, hroom⟩, rfl⟩
        exact ⟨settings, _, _, ⟨hkept.symm, rfl⟩, ⟨lengths, ⟨⟨hentries, hroom⟩, rfl⟩, rfl⟩, rfl⟩

end BlockTable
end AdLibModule
