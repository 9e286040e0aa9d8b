import AdLibModule.Proofs.Header

/-! The two parts of the header as codes of their bytes, read from any place of a buffer. A part is read
exactly when the buffer goes on with a signature and with enough bytes; the reading then has moved on by
the size of the part, and the part written out again is what was passed. Where it fails for want of
bytes, it names a place ahead of it, unless the buffer ends within the signature: the signature is
looked for in what is left of the buffer, and its place is counted from there. -/

namespace AdLibModule

open Read

/-- The bytes of a value, in front of what is left unread, are those between the two places. -/
theorem Cursor.toList_extract_of_unread {cursor left : Cursor} {bytes : List UInt8}
    (hbytes : left.bytes = cursor.bytes) (hunread : cursor.unread = bytes ++ left.unread) :
    (cursor.bytes.extract cursor.position left.position).toList = bytes := by
  have hlength := congrArg List.length hunread
  have hbegin := cursor.position_le
  have hend := left.position_le
  rw [List.length_append, length_unread, length_unread, remaining, remaining, hbytes] at hlength
  rw [hbytes] at hend
  have hplace : left.position = cursor.position + bytes.length := by omega
  rw [hplace, cursor.toList_extract, hunread, List.take_left]

theorem Cursor.unread_start (data : Array UInt8) : (Cursor.start data).unread = data.toList := rfl

theorem Cursor.rest_start (data : Array UInt8) : (Cursor.start data).rest = data := by
  rw [← Array.toList_inj, toList_rest, unread_start]

theorem Cursor.size_rest (cursor : Cursor) : cursor.rest.size = cursor.remaining := by
  rw [← Array.length_toList, cursor.toList_rest, cursor.length_unread]

/-! ### The signature -/

/-- The number of bytes of the fixed part of the header. -/
def Container.headerSize : Container → Nat
  | a2m => 16
  | a2t => 23

namespace Container

variable {container : Container} {cursor : Cursor}

theorem read_eq (cursor : Cursor) : Container.read cursor
    = (Read.ofExcept (detect cursor.rest) >>= fun container => do
      Read.skip container.magic.size
      return container) cursor := rfl

theorem read_of_startsIn (h : container.StartsIn cursor.rest) :
    ∃ hroom : cursor.position + container.magic.size ≤ cursor.bytes.size,
      Container.read cursor
        = (.ok container, ⟨cursor.bytes, cursor.position + container.magic.size, hroom⟩) := by
  have hroom : cursor.position + container.magic.size ≤ cursor.bytes.size := by
    rw [cursor.add_le_size_iff, ← cursor.toList_rest, ← Array.length_toList]
    exact h.length_le
  have hskip := (takes_skip container.magic.size).takes cursor hroom
  refine ⟨hroom, ?_⟩
  rw [read_eq, detect_of_marks (marks_iff.mpr h)]
  show (Read.skip container.magic.size >>= fun _ => pure container) cursor = _
  rw [bind_eq_of_eq_ok hskip]
  rfl

theorem read_of_detect_eq_error {error : DecodeError} (h : detect cursor.rest = .error error) :
    Container.read cursor = (.error error, cursor) := by
  rw [read_eq, h]
  rfl

end Container

/-! ### The fixed part -/

namespace Header

theorem spans_readFields (container : Container) :
    (readFields container).Spans (container.headerSize - container.magic.size) := by
  cases container with
  | a2m =>
      exact takes_u32.spans.bind fun checksum => takes_u8.spans.bind fun versionNumber =>
        takes_u8.spans.map fun patternCount => Header.mk .a2m checksum versionNumber patternCount 0 0
  | a2t =>
      exact takes_u32.spans.bind fun checksum => takes_u8.spans.bind fun versionNumber =>
        takes_u8.spans.bind fun patternCount => takes_u8.spans.bind fun tempo =>
          takes_u8.spans.map fun speed =>
            Header.mk .a2t checksum versionNumber patternCount tempo speed

variable {container : Container} {cursor : Cursor}

/-- Behind its signature, a header is read when there are enough bytes for it. -/
theorem read_of_fits (h : container.StartsIn cursor.rest)
    (hsize : container.headerSize ≤ cursor.remaining) :
    ∃ header left, Header.read cursor = (.ok header, left) ∧ header.container = container
      ∧ left.bytes = cursor.bytes ∧ left.position = cursor.position + container.headerSize := by
  obtain ⟨hmagic, hread⟩ := Container.read_of_startsIn h
  have hfixed : container.magic.size ≤ container.headerSize := by cases container <;> decide
  have hbegin := cursor.position_le
  rw [Cursor.remaining] at hsize
  have hplace : cursor.position + container.magic.size
      + (container.headerSize - container.magic.size) = cursor.position + container.headerSize := by
    omega
  have hroom : cursor.position + container.magic.size
      + (container.headerSize - container.magic.size) ≤ cursor.bytes.size := by omega
  obtain ⟨header, hheader⟩ := (spans_readFields container).reaches ⟨_, _, hmagic⟩ hroom
  obtain ⟨_, ⟨hcontainer, -⟩, -⟩ := (decodes_readFields container).coded hheader
  refine ⟨header, ⟨cursor.bytes, _, hroom⟩, ?_, hcontainer, rfl, hplace⟩
  rw [Header.read, bind_eq_of_eq_ok hread]
  exact hheader

/-- A whole header is read from the front of a file. -/
theorem exists_read_eq {data : Array UInt8} (hstarts : container.StartsIn data)
    (hsize : container.headerSize ≤ data.size) :
    ∃ header left, Header.read (.start data) = (.ok header, left) ∧ header.container = container := by
  rw [← Cursor.rest_start data] at hstarts
  obtain ⟨header, left, hread, hcontainer, -⟩ := read_of_fits hstarts hsize
  exact ⟨header, left, hread, hcontainer⟩

theorem read_of_not_fits (h : container.StartsIn cursor.rest)
    (hsize : cursor.remaining < container.headerSize) :
    ∃ error left, Header.read cursor = (.error error, left) ∧ error.IsShortageAhead cursor := by
  obtain ⟨hmagic, hread⟩ := Container.read_of_startsIn h
  rw [Cursor.remaining] at hsize
  obtain ⟨error, left, hheader, hshort, -⟩ := (spans_readFields container).runsOut
    ⟨cursor.bytes, cursor.position + container.magic.size, hmagic⟩ (by dsimp only; omega)
  refine ⟨error, left, ?_, hshort.mono rfl (Nat.le_add_right _ _)⟩
  rw [Header.read, bind_eq_of_eq_ok hread]
  exact hheader

theorem read_of_detect_eq_error {error : DecodeError}
    (h : Container.detect cursor.rest = .error error) :
    Header.read cursor = (.error error, cursor) := by
  rw [Header.read, bind_apply, Container.read_of_detect_eq_error h]

end Header

/-! ### The part that depends on the version -/

/-- The number of bytes of the part of the header that depends on the version. -/
def Version.tableSize (version : Version) (container : Container) : Nat :=
  (match container with
    | .a2m => 0
    | .a2t => Settings.storedSize version)
    + version.tableEntries container * version.lengthSize

example : [Version.v4, .v8, .v9, .v10, .v11].map (·.tableSize .a2t) = [12, 21, 86, 107, 111] := rfl

theorem BlockTable.spans_read (version : Version) (container : Container) :
    (BlockTable.read version container).Spans (version.tableSize container) := by
  have hlengths := (takes_number version.lengthSize).spans.times (version.tableEntries container)
  unfold BlockTable.read Version.tableSize
  simp only [version.length_layout container]
  cases container with
  | a2m => exact (spans_pure _).bind fun settings => hlengths.map _
  | a2t => exact (fetches_settings version).toSpans.bind fun settings => hlengths.map _

/-! ### Both parts -/

/-- The header is the one in the bytes that the reading has passed. -/
structure Header.IsPassed (header : Header) (cursor left : Cursor) : Prop where
  bytes : left.bytes = cursor.bytes
  position : left.position = cursor.position + header.container.headerSize
  isStored : header.IsStored
  passed : (cursor.bytes.extract cursor.position left.position).toList = header.bytes

theorem Header.isPassed_of_read {header : Header} {cursor left : Cursor}
    (h : Header.read cursor = (.ok header, left)) : header.container.StartsIn cursor.rest
      ∧ header.container.headerSize ≤ cursor.remaining ∧ header.IsPassed cursor left := by
  obtain ⟨_, ⟨hstored, rfl⟩, hunread⟩ := decodes_read.coded h
  have hstarts : header.container.StartsIn cursor.rest := by
    refine ⟨header.fields ++ left.unread, ?_⟩
    rw [cursor.toList_rest, hunread, Header.bytes, List.append_assoc]
  by_cases hsize : header.container.headerSize ≤ cursor.remaining
  · obtain ⟨found, _, hfound, -, hbytes, hposition⟩ := read_of_fits hstarts hsize
    obtain ⟨-, rfl⟩ := Prod.mk.inj (hfound.symm.trans h)
    exact ⟨hstarts, hsize, hbytes, hposition, hstored,
      Cursor.toList_extract_of_unread hbytes hunread⟩
  · obtain ⟨error, _, herror, -⟩ := read_of_not_fits hstarts (Nat.lt_of_not_le hsize)
    rw [h] at herror
    cases herror

/-- The reading of a header fails, and leaves the cursor so. -/
inductive Header.Refused (cursor : Cursor) : DecodeError → Cursor → Prop
  /-- The buffer goes on with no signature, and not with the begin of one. -/
  | foreign (h : ∀ container : Container,
      ¬ container.StartsIn cursor.rest ∧ ¬ container.EndsIn cursor.rest) :
      Refused cursor .badMagic cursor
  /-- The buffer ends within a signature. Its place is counted from where the reading began. -/
  | cut (container : Container) (needed : Nat) (h : container.EndsIn cursor.rest)
      (hneeded : cursor.remaining < needed) :
      Refused cursor (.truncated 0 needed cursor.remaining) cursor
  /-- The buffer ends behind the signature, but within the header. -/
  | short (container : Container) {offset needed available : Nat} (left : Cursor)
      (h : container.StartsIn cursor.rest) (hsize : cursor.remaining < container.headerSize)
      (hahead : (DecodeError.truncated offset needed available).IsShortageAhead cursor) :
      Refused cursor (.truncated offset needed available) left

theorem Header.refused_of_read {error : DecodeError} {cursor left : Cursor}
    (h : Header.read cursor = (.error error, left)) : Header.Refused cursor error left := by
  by_cases hstarts : ∃ container : Container, container.StartsIn cursor.rest
  · obtain ⟨container, hstarts⟩ := hstarts
    by_cases hsize : container.headerSize ≤ cursor.remaining
    · obtain ⟨header, _, hheader, -⟩ := read_of_fits hstarts hsize
      rw [h] at hheader
      cases hheader
    · have hshort := Nat.lt_of_not_le hsize
      obtain ⟨found, _, hfound, hahead⟩ := read_of_not_fits hstarts hshort
      obtain ⟨hsame, rfl⟩ := Prod.mk.inj (hfound.symm.trans h)
      obtain rfl := Except.error.inj hsame
      obtain ⟨offset, needed, available, rfl⟩ := hahead.exists_eq_truncated
      exact .short container _ hstarts hshort hahead
  have hdetected : ∀ {found}, Container.detect cursor.rest = .error found →
      error = found ∧ left = cursor := by
    intro found hfound
    obtain ⟨hsame, hleft⟩ := Prod.mk.inj (h.symm.trans (read_of_detect_eq_error hfound))
    exact ⟨Except.error.inj hsame, hleft⟩
  by_cases hends : ∃ container : Container, container.EndsIn cursor.rest
  · obtain ⟨container, hcontainer⟩ := hends
    obtain ⟨needed, hdetect, hlt⟩ :=
      Container.exists_detect_eq_of_isCutIn (Container.isCutIn_iff.mpr hcontainer)
    rw [cursor.size_rest] at hdetect hlt
    obtain ⟨rfl, rfl⟩ := hdetected hdetect
    exact .cut container needed hcontainer hlt
  · have hforeign : ∀ container : Container,
        ¬ container.StartsIn cursor.rest ∧ ¬ container.EndsIn cursor.rest :=
      fun container => ⟨fun h => hstarts ⟨container, h⟩, fun h => hends ⟨container, h⟩⟩
    obtain ⟨rfl, rfl⟩ := hdetected (Container.detect_eq_badMagic_iff.mpr hforeign)
    exact .foreign hforeign

/-- The table is the one in the bytes that the reading has passed. -/
structure BlockTable.IsPassed (version : Version) (container : Container) (table : BlockTable)
    (cursor left : Cursor) : Prop where
  bytes : left.bytes = cursor.bytes
  position : left.position = cursor.position + version.tableSize container
  isStored : table.IsStored version container
  passed : (cursor.bytes.extract cursor.position left.position).toList = table.bytes version container

theorem BlockTable.isPassed_of_read {version : Version} {container : Container} {table : BlockTable}
    {cursor left : Cursor} (h : BlockTable.read version container cursor = (.ok table, left)) :
    table.IsPassed version container cursor left := by
  obtain ⟨-, hbytes, hposition⟩ := (BlockTable.spans_read version container).of_eq_ok h
  obtain ⟨_, ⟨hstored, rfl⟩, hunread⟩ := (decodes_read version container).coded h
  exact ⟨hbytes, hposition, hstored, Cursor.toList_extract_of_unread hbytes hunread⟩

/-- What the reading of the table does at a place of a buffer. -/
structure BlockTable.ReadAt (version : Version) (container : Container) (cursor : Cursor) : Prop where
  isOk_iff : (∃ table left, BlockTable.read version container cursor = (.ok table, left))
    ↔ version.tableSize container ≤ cursor.remaining
  passes : ∀ table left, BlockTable.read version container cursor = (.ok table, left) →
    table.IsPassed version container cursor left
  fails : ∀ error left, BlockTable.read version container cursor = (.error error, left) →
    ∃ offset needed available, error = .truncated offset needed available

theorem BlockTable.readAt (version : Version) (container : Container) (cursor : Cursor) :
    BlockTable.ReadAt version container cursor where
  isOk_iff := (BlockTable.spans_read version container).isOk_iff cursor
  passes _ _ h := isPassed_of_read h
  fails _ _ h := ((BlockTable.spans_read version container).of_eq_error h).1.exists_eq_truncated

theorem Version.exists_ofNumber_eq_ok {number : UInt8} (hfirst : 1 ≤ number) (hlast : number ≤ 11) :
    ∃ version, Version.ofNumber number = .ok version := by
  have hlow : 1 ≤ number.toNat := UInt8.le_iff_toNat_le.mp hfirst
  have hhigh : number.toNat ≤ 11 := UInt8.le_iff_toNat_le.mp hlast
  rw [← UInt8.ofNat_toNat (x := number)]
  generalize number.toNat = n at hlow hhigh
  interval_cases n <;> exact ⟨_, rfl⟩

/-- From every place of a buffer the header is read exactly when the buffer goes on with a signature
and a whole header, and then the table that belongs to its version exactly when a whole table follows.
Written out again, each is what was passed. -/
theorem Header.read_codec (cursor : Cursor) :
    ((∃ header left, Header.read cursor = (.ok header, left)) ↔ ∃ container : Container,
      container.StartsIn cursor.rest ∧ container.headerSize ≤ cursor.remaining)
    ∧ (∀ header left, Header.read cursor = (.ok header, left) → header.IsPassed cursor left
      ∧ (1 ≤ header.versionNumber → header.versionNumber ≤ 11 → ∃ version,
        Version.ofNumber header.versionNumber = .ok version
          ∧ BlockTable.ReadAt version header.container left))
    ∧ ∀ error left, Header.read cursor = (.error error, left) → Header.Refused cursor error left := by
  refine ⟨⟨?_, ?_⟩, ?_, ?_⟩
  · rintro ⟨header, left, hread⟩
    obtain ⟨hstarts, hsize, -⟩ := isPassed_of_read hread
    exact ⟨header.container, hstarts, hsize⟩
  · rintro ⟨container, hstarts, hsize⟩
    obtain ⟨header, left, hread, -⟩ := read_of_fits hstarts hsize
    exact ⟨header, left, hread⟩
  · intro header left hread
    refine ⟨(isPassed_of_read hread).2.2, fun hfirst hlast => ?_⟩
    obtain ⟨version, hversion⟩ := Version.exists_ofNumber_eq_ok hfirst hlast
    exact ⟨version, hversion, BlockTable.readAt version header.container left⟩
  · intro error left
    exact refused_of_read

/-- The header of a tiny module of version 8 behind two other bytes, with a byte behind it. -/
def Header.behindTwoBytes : Cursor where
  bytes := #[7, 7] ++ Container.a2t.magic ++ #[1, 2, 3, 4, 8, 3, 50, 6, 0x18,
    1, 0, 2, 0, 3, 0, 4, 0, 5, 0, 6, 0, 7, 0, 8, 0, 9, 0, 10, 1, 0xEE]
  position := 2
  position_le := by decide

theorem Header.read_codec_behind_two_bytes :
    ∃ header left table after, Header.read behindTwoBytes = (.ok header, left)
      ∧ header.IsPassed behindTwoBytes left
      ∧ BlockTable.read .v8 header.container left = (.ok table, after)
      ∧ table.IsPassed .v8 header.container left after := by
  obtain ⟨-, hpasses, -⟩ := Header.read_codec behindTwoBytes
  have hstored : (Header.mk .a2t 0x04030201 8 3 50 6).IsStored := by
    intro h
    cases h
  have hunread : behindTwoBytes.unread = (Header.mk .a2t 0x04030201 8 3 50 6).bytes
      ++ behindTwoBytes.unread.drop 23 := rfl
  obtain ⟨left, hread, hleft⟩ := decodes_read.reads ⟨hstored, rfl⟩ hunread
  obtain ⟨hheader, htable⟩ := hpasses _ left hread
  obtain ⟨version, hversion, hreads⟩ := htable (by decide) (by decide)
  obtain rfl : Version.v8 = version := Except.ok.inj hversion
  obtain ⟨table, after, hafter⟩ := hreads.isOk_iff.mpr (by
    rw [← Cursor.length_unread, hleft]
    decide)
  exact ⟨_, left, table, after, hread, hheader, hafter, hreads.passes table after hafter⟩

/-! ### Where the bytes run out -/

/-- A header that is not read because bytes are missing names a place ahead of it, if the reading began
at the front of the buffer or if the buffer does not end within a signature. In the remaining case the
place that it names is counted from where the reading began. The table behind a header always names a
place ahead of both. -/
theorem Header.shortage_places (cursor : Cursor) :
    (∀ error left, Header.read cursor = (.error error, left) → error ≠ .badMagic →
      ((cursor.position = 0 ∨ ∀ container : Container, ¬ container.EndsIn cursor.rest) →
        error.IsShortageAhead cursor)
      ∧ ∀ container : Container, container.EndsIn cursor.rest → ∃ needed,
        error = .truncated 0 needed cursor.remaining ∧ cursor.remaining < needed)
    ∧ ∀ header left, Header.read cursor = (.ok header, left) → ∀ version error after,
      BlockTable.read version header.container left = (.error error, after) →
        error.IsShortageAhead cursor := by
  constructor
  · intro error left hread hmagic
    cases refused_of_read hread with
    | foreign h => exact absurd rfl hmagic
    | cut container needed hends hneeded =>
        refine ⟨?_, fun _ _ => ⟨needed, rfl, hneeded⟩⟩
        rintro (hfront | hnone)
        · rw [Cursor.remaining, hfront] at hneeded ⊢
          exact ⟨Nat.le_of_eq hfront, Nat.zero_le _, rfl, hneeded⟩
        · exact absurd hends (hnone container)
    | short container left hstarts hsize hahead =>
        refine ⟨fun _ => hahead, fun other hends => ?_⟩
        obtain ⟨needed, hcut, -⟩ :=
          Container.exists_detect_eq_of_isCutIn (Container.isCutIn_iff.mpr hends)
        rw [Container.detect_of_marks (Container.marks_iff.mpr hstarts)] at hcut
        cases hcut
  · intro header left hheader version error after htable
    obtain ⟨-, -, hpassed⟩ := isPassed_of_read hheader
    have hahead := ((BlockTable.spans_read version header.container).of_eq_error htable).1
    refine hahead.mono hpassed.bytes ?_
    rw [hpassed.position]
    exact Nat.le_add_right _ _

theorem Header.not_forall_shortage_ahead : ¬ ∀ (cursor : Cursor) (error : DecodeError) (left : Cursor),
    Header.read cursor = (.error error, left) → error ≠ .badMagic → error.IsShortageAhead cursor := by
  intro h
  have hahead := h ⟨#[0, 0, 0x5f, 0x41, 0x32], 2, by decide⟩ (.truncated 0 10 3) _ rfl (by decide)
  exact absurd hahead.1 (by decide)

/-- A full module of version 1 that ends within its table, behind two other bytes. -/
def Header.cutBehindTwoBytes : Cursor where
  bytes := #[7, 7] ++ Container.a2m.magic ++ #[1, 2, 3, 4, 1, 0, 9]
  position := 2
  position_le := by decide

/-- Behind two other bytes: a header cut short, a table cut short and a signature cut short. -/
theorem Header.shortage_places_behind_two_bytes :
    (DecodeError.truncated 12 4 3).IsShortageAhead
        ⟨#[7, 7] ++ Container.a2m.magic ++ #[1, 2, 3], 2, by decide⟩
      ∧ (∃ header left error after, Header.read cutBehindTwoBytes = (.ok header, left)
        ∧ BlockTable.read .v1 header.container left = (.error error, after)
        ∧ error.IsShortageAhead cutBehindTwoBytes)
      ∧ ∃ needed, DecodeError.truncated 0 10 3 = .truncated 0 needed 3 ∧ 3 < needed := by
  obtain ⟨hheader, -⟩ :=
    Header.shortage_places ⟨#[7, 7] ++ Container.a2m.magic ++ #[1, 2, 3], 2, by decide⟩
  obtain ⟨-, htable⟩ := Header.shortage_places cutBehindTwoBytes
  obtain ⟨hcut, -⟩ := Header.shortage_places ⟨#[7, 7, 0x5f, 0x41, 0x32], 2, by decide⟩
  refine ⟨?_, ?_, ?_⟩
  · exact (hheader (.truncated 12 4 3) _ rfl (by decide)).1
      (Or.inr fun container => by cases container <;> decide)
  · have hunread : cutBehindTwoBytes.unread = (Header.mk .a2m 0x04030201 1 0 0 0).bytes ++ [9] := rfl
    obtain ⟨left, hread, hleft⟩ := decodes_read.reads ⟨fun _ => ⟨rfl, rfl⟩, rfl⟩ hunread
    rcases hrest : BlockTable.read .v1 .a2m left with ⟨error | table, after⟩
    · exact ⟨_, left, error, after, hread, hrest, htable _ left hread .v1 error after hrest⟩
    · have hroom := ((BlockTable.spans_read .v1 .a2m).isOk_iff left).mp ⟨table, after, hrest⟩
      rw [← Cursor.length_unread, hleft] at hroom
      exact absurd hroom (by decide)
  · exact (hcut (.truncated 0 10 3) _ rfl (by decide)).2 .a2m (by decide)

end AdLibModule
