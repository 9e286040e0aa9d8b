import AdLibModule.Cursor
import Mathlib

/-! Readers of a cursor. The primitive ones take the bytes that they ask for, all of them or none, and
their value is a function of these bytes: of each of them this is all that there is to know. A reader
that is built from such ones for a fixed number of bytes fails only ahead of the place where it stands,
and looks at nothing behind that place. -/

namespace AdLibModule

/-! ### Places -/

/-- The bytes that were not read yet. -/
def Cursor.unread (cursor : Cursor) : List UInt8 := cursor.bytes.toList.drop cursor.position

theorem Cursor.toList_rest (cursor : Cursor) : cursor.rest.toList = cursor.unread := by
  have hall : cursor.unread.length ≤ cursor.bytes.size - cursor.position := by
    simp [unread]
  rw [rest, Array.toList_extract]
  exact List.take_of_length_le hall

theorem Cursor.length_unread (cursor : Cursor) : cursor.unread.length = cursor.remaining := by
  rw [unread, List.length_drop, Array.length_toList, remaining]

theorem Cursor.toList_extract (cursor : Cursor) (count : Nat) :
    (cursor.bytes.extract cursor.position (cursor.position + count)).toList
      = cursor.unread.take count := by
  rw [Array.toList_extract, List.extract, Nat.add_sub_cancel_left, unread]

theorem Cursor.add_le_size_iff (cursor : Cursor) (count : Nat) :
    cursor.position + count ≤ cursor.bytes.size ↔ count ≤ cursor.unread.length := by
  have := cursor.position_le
  rw [length_unread, remaining]
  omega

/-- The cursors stand at the same place, and the same bytes lie ahead of them. -/
structure Cursor.SameAhead (cursor other : Cursor) : Prop where
  position : cursor.position = other.position
  unread : cursor.unread = other.unread

theorem Cursor.sameAhead_of_size_eq {cursor other : Cursor}
    (hsize : cursor.bytes.size = other.bytes.size) (hunread : cursor.unread = other.unread) :
    cursor.SameAhead other := by
  refine ⟨?_, hunread⟩
  have hlength := congrArg List.length hunread
  rw [cursor.length_unread, other.length_unread, remaining, remaining] at hlength
  have := cursor.position_le
  have := other.position_le
  omega

namespace Cursor.SameAhead

variable {cursor other : Cursor}

theorem fits_iff (h : cursor.SameAhead other) (count : Nat) :
    cursor.position + count ≤ cursor.bytes.size ↔ other.position + count ≤ other.bytes.size := by
  rw [cursor.add_le_size_iff, other.add_le_size_iff, h.unread]

theorem shortage_eq (h : cursor.SameAhead other) (count : Nat) :
    cursor.shortage cursor.position count = other.shortage other.position count := by
  have hremaining : cursor.remaining = other.remaining := by
    rw [← cursor.length_unread, ← other.length_unread, h.unread]
  rw [shortage, shortage, h.position]
  rw [remaining, remaining, h.position] at hremaining
  rw [hremaining]

theorem advance (h : cursor.SameAhead other) {count : Nat}
    (hfits : cursor.position + count ≤ cursor.bytes.size)
    (hfits' : other.position + count ≤ other.bytes.size) :
    SameAhead ⟨cursor.bytes, cursor.position + count, hfits⟩
      ⟨other.bytes, other.position + count, hfits'⟩ where
  position := congrArg (· + count) h.position
  unread := by
    have hdrop : (cursor.bytes.toList.drop cursor.position).drop count
        = (other.bytes.toList.drop other.position).drop count := congrArg (List.drop count) h.unread
    rwa [List.drop_drop, List.drop_drop] at hdrop

end Cursor.SameAhead

/-! ### Shortages -/

/-- More bytes were asked for at a place of the data than there are from there on. -/
def DecodeError.IsShortageIn (data : Array UInt8) : DecodeError → Prop
  | .truncated offset needed available =>
    offset ≤ data.size ∧ available = data.size - offset ∧ available < needed
  | _ => False

/-- More bytes were asked for than there are, at a place that is not before the cursor. -/
def DecodeError.IsShortageAhead (cursor : Cursor) : DecodeError → Prop
  | .truncated offset needed available =>
    cursor.position ≤ offset ∧ offset ≤ cursor.bytes.size
      ∧ available = cursor.bytes.size - offset ∧ available < needed
  | _ => False

theorem DecodeError.IsShortageAhead.mono {cursor later : Cursor} {error : DecodeError}
    (h : error.IsShortageAhead later) (hbytes : later.bytes = cursor.bytes)
    (hposition : cursor.position ≤ later.position) : error.IsShortageAhead cursor := by
  cases error with
  | truncated offset needed available =>
      obtain ⟨hplace, hrest⟩ := h
      rw [hbytes] at hrest
      exact ⟨hposition.trans hplace, hrest⟩
  | _ => exact h.elim

theorem DecodeError.IsShortageAhead.exists_eq_truncated {cursor : Cursor} {error : DecodeError}
    (h : error.IsShortageAhead cursor) :
    ∃ offset needed available, error = .truncated offset needed available := by
  cases error with
  | truncated offset needed available => exact ⟨offset, needed, available, rfl⟩
  | _ => exact h.elim

theorem DecodeError.IsShortageAhead.isShortageIn {cursor : Cursor} {error : DecodeError}
    (h : error.IsShortageAhead cursor) : error.IsShortageIn cursor.bytes := by
  cases error with
  | truncated offset needed available => exact h.2
  | _ => exact h.elim

namespace Read

variable {α β : Type}

/-! ### Readings in a row -/

theorem bind_apply (reading : Read α) (next : α → Read β) (cursor : Cursor) :
    (reading >>= next) cursor =
      match reading cursor with
      | (.ok value, between) => next value between
      | (.error error, between) => (.error error, between) := by
  show ExceptT.bindCont next (reading cursor).1 (reading cursor).2 = _
  rcases reading cursor with ⟨_ | _, between⟩ <;> rfl

theorem bind_eq_of_eq_ok {reading : Read α} {next : α → Read β} {cursor between : Cursor} {value : α}
    (h : reading cursor = (.ok value, between)) :
    (reading >>= next) cursor = next value between := by
  rw [bind_apply, h]

theorem exists_of_bind_eq_ok {reading : Read α} {next : α → Read β} {cursor left : Cursor}
    {result : β} (h : (reading >>= next) cursor = (.ok result, left)) :
    ∃ value between, reading cursor = (.ok value, between)
      ∧ next value between = (.ok result, left) := by
  rw [bind_apply] at h
  match hread : reading cursor, h with
  | (.ok value, between), h => exact ⟨value, between, rfl, h⟩

theorem eq_error_or_exists_of_bind_eq_error {reading : Read α} {next : α → Read β}
    {cursor left : Cursor} {error : DecodeError} (h : (reading >>= next) cursor = (.error error, left)) :
    reading cursor = (.error error, left) ∨ ∃ value between, reading cursor = (.ok value, between)
      ∧ next value between = (.error error, left) := by
  rw [bind_apply] at h
  match hread : reading cursor, h with
  | (.ok value, between), h => exact Or.inr ⟨value, between, rfl, h⟩
  | (.error _, _), h =>
      cases h
      exact Or.inl rfl

theorem skip_eq (count : Nat) : skip count = bytes count >>= fun _ => pure () := by
  unfold skip discard
  rw [map_const, Function.comp, map_eq_pure_bind]

theorem isShortageIn_of_lt {cursor : Cursor} {count : Nat}
    (h : ¬ cursor.position + count ≤ cursor.bytes.size) :
    (cursor.shortage cursor.position count).IsShortageIn cursor.bytes := by
  have hle := cursor.position_le
  refine ⟨hle, rfl, ?_⟩
  omega

/-! ### Reads that take all or nothing -/

/-- The reading takes just the next `count` bytes, and its value is told by them. When there are fewer
bytes, it takes none of them. -/
structure Takes (reading : Read α) (count : Nat) (value : List UInt8 → α) : Prop where
  takes : ∀ (cursor : Cursor) (h : cursor.position + count ≤ cursor.bytes.size),
    reading cursor
      = (.ok (value (cursor.unread.take count)), ⟨cursor.bytes, cursor.position + count, h⟩)
  lacks : ∀ cursor : Cursor, ¬ cursor.position + count ≤ cursor.bytes.size →
    reading cursor = (.error (cursor.shortage cursor.position count), cursor)

/-- The first `n` bytes, as a row of that length. -/
def rowOf (n : Nat) (range : List UInt8) : Vector UInt8 n :=
  Vector.ofFn fun index => range.getD index 0

theorem toList_rowOf {n : Nat} {range : List UInt8} (h : range.length = n) :
    (rowOf n range).toList = range := by
  subst h
  apply List.ext_getElem
  · simp
  · intro index _ hindex
    rw [Vector.getElem_toList]
    unfold rowOf
    rw [Vector.getElem_ofFn, List.getD_eq_getElem _ _ hindex]

theorem takes_bytes (count : Nat) : (bytes count).Takes count List.toArray where
  takes cursor h := by
    rw [bytes, dif_pos h, ← cursor.toList_extract]
  lacks _ h := dif_neg h

theorem takes_vector (n : Nat) : (vector n).Takes n (rowOf n) where
  takes cursor h := by
    rw [vector, dif_pos h]
    congr 2
    apply Vector.toList_inj.mp
    rw [toList_rowOf]
    · exact cursor.toList_extract n
    · rw [List.length_take, Nat.min_eq_left ((cursor.add_le_size_iff n).mp h)]
  lacks _ h := dif_neg h

theorem Takes.map {reading : Read α} {count : Nat} {value : List UInt8 → α}
    (h : reading.Takes count value) (f : α → β) :
    (reading >>= fun value => pure (f value)).Takes count fun range => f (value range) where
  takes cursor hroom := bind_eq_of_eq_ok (h.takes cursor hroom)
  lacks cursor hshort := by rw [bind_apply, h.lacks cursor hshort]

theorem takes_skip (count : Nat) : (skip count).Takes count fun _ => () := by
  rw [skip_eq]
  exact (takes_bytes count).map fun _ => ()

theorem takes_number (width : Nat) : (number width).Takes width littleEndian :=
  (takes_bytes width).map fun value => littleEndian value.toList

theorem takes_u8 : u8.Takes 1 fun range => (littleEndian range).toUInt8 :=
  (takes_number 1).map Nat.toUInt8

theorem takes_i8 : i8.Takes 1 fun range => (littleEndian range).toUInt8.toInt8 :=
  takes_u8.map UInt8.toInt8

theorem takes_u16 : u16.Takes 2 fun range => (littleEndian range).toUInt16 :=
  (takes_number 2).map Nat.toUInt16

theorem takes_i16 : i16.Takes 2 fun range => (littleEndian range).toUInt16.toInt16 :=
  takes_u16.map UInt16.toInt16

theorem takes_u32 : u32.Takes 4 fun range => (littleEndian range).toUInt32 :=
  (takes_number 4).map Nat.toUInt32

theorem takes_pascal (capacity : Nat) : (pascal capacity).Takes capacity Text.ofPascal :=
  (takes_bytes capacity).map fun value => Text.ofPascal value.toList

/-- Of readings in a row that take `size` bytes each, the first fails for which there are too few. -/
theorem Takes.times_lacks {reading : Read α} {size : Nat} {value : List UInt8 → α}
    (h : reading.Takes size value) (hsize : 0 < size) {count : Nat} {cursor : Cursor}
    (hshort : cursor.remaining < count * size) :
    ∃ left, times count reading cursor
      = (.error (cursor.shortage (cursor.position + cursor.remaining / size * size) size), left) := by
  induction count generalizing cursor with
  | zero =>
      rw [Nat.zero_mul] at hshort
      exact absurd hshort (Nat.not_lt_zero _)
  | succ count ih =>
      show ∃ left, (reading >>= fun first => times count reading >>= fun others =>
        pure (first :: others)) cursor = _
      by_cases hroom : cursor.position + size ≤ cursor.bytes.size
      · have hread := h.takes cursor hroom
        have hwhole : size ≤ cursor.remaining := Nat.le_sub_of_add_le' hroom
        have hnext : (Cursor.mk cursor.bytes (cursor.position + size) hroom).remaining
            = cursor.remaining - size := (Nat.sub_sub _ _ _).symm
        have hplace : cursor.position + cursor.remaining / size * size
            = cursor.position + size + (cursor.remaining - size) / size * size := by
          rw [Nat.div_eq_sub_div hsize hwhole, Nat.succ_mul, Nat.add_comm _ size, Nat.add_assoc]
        rw [Nat.succ_mul] at hshort
        obtain ⟨left, hothers⟩ := @ih ⟨cursor.bytes, cursor.position + size, hroom⟩
          (hnext ▸ Nat.sub_lt_right_of_lt_add hwhole hshort)
        rw [hnext] at hothers
        refine ⟨left, ?_⟩
        rw [bind_eq_of_eq_ok hread, bind_apply, hothers, hplace]
        rfl
      · have hnone : cursor.remaining / size = 0 := by
          apply Nat.div_eq_of_lt
          rw [Cursor.remaining]
          omega
        refine ⟨cursor, ?_⟩
        rw [bind_apply, h.lacks cursor hroom, hnone, Nat.zero_mul, Nat.add_zero]

/-! ### Readings that look ahead -/

/-- The reading looks at nothing but what lies ahead. -/
def LooksAhead (reading : Read α) : Prop :=
  ∀ cursor other : Cursor, cursor.SameAhead other →
    (reading cursor).1 = (reading other).1 ∧ (reading cursor).2.SameAhead (reading other).2

theorem looksAhead_pure (value : α) : (pure value : Read α).LooksAhead :=
  fun _ _ h => ⟨rfl, h⟩

theorem looksAhead_ofExcept (result : Except DecodeError α) : (ofExcept result).LooksAhead :=
  fun _ _ h => ⟨rfl, h⟩

theorem LooksAhead.bind {reading : Read α} {next : α → Read β} (hreading : reading.LooksAhead)
    (hnext : ∀ value, (next value).LooksAhead) : (reading >>= next).LooksAhead := by
  intro cursor other h
  obtain ⟨hresult, hleft⟩ := hreading cursor other h
  rw [bind_apply, bind_apply]
  rcases hread : reading cursor with ⟨result, left⟩
  rcases hread' : reading other with ⟨result', left'⟩
  rw [hread, hread'] at hresult hleft
  obtain rfl : result = result' := hresult
  cases result with
  | error error => exact ⟨rfl, hleft⟩
  | ok value => exact hnext value left left' hleft

theorem Takes.looksAhead {reading : Read α} {count : Nat} {value : List UInt8 → α}
    (h : reading.Takes count value) : reading.LooksAhead := by
  intro cursor other hsame
  by_cases hroom : cursor.position + count ≤ cursor.bytes.size
  · have hroom' := (hsame.fits_iff count).mp hroom
    rw [h.takes cursor hroom, h.takes other hroom', hsame.unread]
    exact ⟨rfl, hsame.advance hroom hroom'⟩
  · rw [h.lacks cursor hroom, h.lacks other (mt (hsame.fits_iff count).mpr hroom), hsame.shortage_eq]
    exact ⟨rfl, hsame⟩

/-! ### Readings of a fixed number of bytes -/

/-- The reading takes `size` bytes, read by read. When there are fewer bytes ahead, it fails at one of
its reads. -/
structure Spans (reading : Read α) (size : Nat) : Prop where
  reaches : ∀ (cursor : Cursor) (h : cursor.position + size ≤ cursor.bytes.size),
    ∃ value, reading cursor = (.ok value, ⟨cursor.bytes, cursor.position + size, h⟩)
  runsOut : ∀ cursor : Cursor, ¬ cursor.position + size ≤ cursor.bytes.size →
    ∃ error left, reading cursor = (.error error, left) ∧ error.IsShortageAhead cursor
      ∧ left.bytes = cursor.bytes
  looksAhead : reading.LooksAhead

theorem Takes.spans {reading : Read α} {count : Nat} {value : List UInt8 → α}
    (h : reading.Takes count value) : reading.Spans count where
  reaches cursor hroom := ⟨_, h.takes cursor hroom⟩
  runsOut cursor hshort :=
    ⟨_, cursor, h.lacks cursor hshort, ⟨Nat.le_refl _, isShortageIn_of_lt hshort⟩, rfl⟩
  looksAhead := h.looksAhead

theorem spans_pure (value : α) : (pure value : Read α).Spans 0 where
  reaches _ _ := ⟨value, rfl⟩
  runsOut cursor hshort := absurd cursor.position_le hshort
  looksAhead := looksAhead_pure value

/-- The bytes can run out for the second reading, or for the first one already. -/
theorem Spans.bind {reading : Read α} {next : α → Read β} {first second : Nat}
    (hreading : reading.Spans first) (hnext : ∀ value, (next value).Spans second) :
    (reading >>= next).Spans (first + second) where
  reaches cursor h := by
    rw [← Nat.add_assoc] at h
    obtain ⟨value, hread⟩ := hreading.reaches cursor (Nat.le_of_add_right_le h)
    obtain ⟨result, hresult⟩ := (hnext value).reaches ⟨_, _, Nat.le_of_add_right_le h⟩ h
    refine ⟨result, ?_⟩
    rw [bind_eq_of_eq_ok hread, hresult]
    simp only [Nat.add_assoc]
  runsOut cursor h := by
    by_cases hfirst : cursor.position + first ≤ cursor.bytes.size
    · obtain ⟨value, hread⟩ := hreading.reaches cursor hfirst
      rw [← Nat.add_assoc] at h
      obtain ⟨error, left, hresult, hshort, hleft⟩ := (hnext value).runsOut ⟨_, _, hfirst⟩ h
      exact ⟨error, left, (bind_eq_of_eq_ok hread).trans hresult,
        hshort.mono rfl (Nat.le_add_right _ _), hleft⟩
    · obtain ⟨error, left, hread, hshort, hleft⟩ := hreading.runsOut cursor hfirst
      exact ⟨error, left, by rw [bind_apply, hread], hshort, hleft⟩
  looksAhead := hreading.looksAhead.bind fun value => (hnext value).looksAhead

theorem Spans.map {reading : Read α} {size : Nat} (h : reading.Spans size) (f : α → β) :
    (reading >>= fun value => pure (f value)).Spans size :=
  h.bind fun value => spans_pure (f value)

theorem Spans.times {reading : Read α} {size : Nat} (h : reading.Spans size) (count : Nat) :
    (Read.times count reading).Spans (count * size) := by
  induction count with
  | zero =>
      rw [Nat.zero_mul]
      exact spans_pure []
  | succ count ih =>
      rw [Nat.succ_mul, Nat.add_comm (count * size)]
      exact h.bind fun first => ih.map (first :: ·)

theorem Spans.of_eq_ok {reading : Read α} {size : Nat} (h : reading.Spans size)
    {cursor left : Cursor} {value : α} (hread : reading cursor = (.ok value, left)) :
    size ≤ cursor.remaining ∧ left.bytes = cursor.bytes ∧ left.position = cursor.position + size := by
  by_cases hroom : cursor.position + size ≤ cursor.bytes.size
  · obtain ⟨found, hfound⟩ := h.reaches cursor hroom
    obtain ⟨-, rfl⟩ := Prod.mk.inj (hfound.symm.trans hread)
    exact ⟨Nat.le_sub_of_add_le' hroom, rfl, rfl⟩
  · obtain ⟨error, after, herror, -⟩ := h.runsOut cursor hroom
    rw [hread] at herror
    cases herror

theorem Spans.fits_of_eq_ok {reading : Read α} {size : Nat} (h : reading.Spans size)
    {cursor left : Cursor} {value : α} (hread : reading cursor = (.ok value, left)) :
    cursor.position + size ≤ cursor.bytes.size := by
  rw [cursor.add_le_size_iff, cursor.length_unread]
  exact (h.of_eq_ok hread).1

theorem Spans.unread_of_eq_ok {reading : Read α} {size : Nat} (h : reading.Spans size)
    {cursor left : Cursor} {value : α} (hread : reading cursor = (.ok value, left)) :
    left.unread = cursor.unread.drop size := by
  obtain ⟨-, hbytes, hposition⟩ := h.of_eq_ok hread
  rw [Cursor.unread, Cursor.unread, hbytes, hposition, List.drop_drop]

theorem Spans.of_eq_error {reading : Read α} {size : Nat} (h : reading.Spans size)
    {cursor left : Cursor} {error : DecodeError} (hread : reading cursor = (.error error, left)) :
    error.IsShortageAhead cursor ∧ left.bytes = cursor.bytes := by
  by_cases hroom : cursor.position + size ≤ cursor.bytes.size
  · obtain ⟨value, hvalue⟩ := h.reaches cursor hroom
    rw [hvalue] at hread
    cases hread
  · obtain ⟨found, after, hfound, hshort, hafter⟩ := h.runsOut cursor hroom
    obtain ⟨hsame, rfl⟩ := Prod.mk.inj (hfound.symm.trans hread)
    obtain rfl := Except.error.inj hsame
    exact ⟨hshort, hafter⟩

theorem Spans.isOk_iff {reading : Read α} {size : Nat} (h : reading.Spans size) (cursor : Cursor) :
    (∃ value left, reading cursor = (.ok value, left)) ↔ size ≤ cursor.remaining := by
  constructor
  · rintro ⟨value, left, hread⟩
    exact (h.of_eq_ok hread).1
  · intro hsize
    have hroom : cursor.position + size ≤ cursor.bytes.size := by
      rwa [cursor.add_le_size_iff, cursor.length_unread]
    obtain ⟨value, hread⟩ := h.reaches cursor hroom
    exact ⟨value, _, hread⟩

/-- A region of its own that holds just the bytes of the reading has room for it. -/
theorem Spans.within {reading : Read α} {size : Nat} (h : reading.Spans size) :
    (within size reading).Spans size where
  reaches cursor hroom := by
    have hregion := (takes_bytes size).takes cursor hroom
    have hlength : (cursor.unread.take size).length = size := by
      rw [List.length_take, Nat.min_eq_left ((cursor.add_le_size_iff size).mp hroom)]
    obtain ⟨value, hvalue⟩ := h.reaches (.start (cursor.unread.take size).toArray)
      (((Nat.zero_add size).trans hlength.symm).le)
    refine ⟨value, ?_⟩
    rw [Read.within, bind_eq_of_eq_ok hregion, ofExcept, onBytes, hvalue]
  runsOut cursor hshort := by
    obtain ⟨error, left, hregion, herror⟩ := (takes_bytes size).spans.runsOut cursor hshort
    exact ⟨error, left, by rw [Read.within, bind_apply, hregion], herror⟩
  looksAhead := (takes_bytes size).looksAhead.bind fun _ => looksAhead_ofExcept _

section Block

variable {reading : Read α} {size : Nat} {block : Array UInt8}

theorem Spans.exists_onBytes_eq_ok (h : reading.Spans size) (hsize : size ≤ block.size) :
    ∃ value, reading.onBytes block = .ok value := by
  obtain ⟨value, hread⟩ := h.reaches (.start block) ((Nat.zero_add size).symm ▸ hsize)
  exact ⟨value, congrArg Prod.fst hread⟩

theorem Spans.exists_onBytes_eq_error (h : reading.Spans size) (hsize : block.size < size) :
    ∃ error, reading.onBytes block = .error error ∧ error.IsShortageIn block := by
  obtain ⟨error, left, hread, hshort, -⟩ :=
    h.runsOut (.start block) ((Nat.zero_add size).symm ▸ Nat.not_le.mpr hsize)
  exact ⟨error, congrArg Prod.fst hread, hshort.isShortageIn⟩

end Block

/-! ### What every result satisfies -/

/-- Every value that the reading yields satisfies the condition, whatever the bytes are. -/
def Ensures (reading : Read α) (post : α → Prop) : Prop :=
  ∀ ⦃cursor left : Cursor⦄ ⦃value⦄, reading cursor = (.ok value, left) → post value

theorem ensures_true (reading : Read α) : reading.Ensures fun _ => True := fun _ _ _ _ => trivial

theorem ensures_pure {post : α → Prop} {value : α} (h : post value) :
    (pure value : Read α).Ensures post := by
  intro cursor left other hread
  cases hread
  exact h

theorem Ensures.bind {reading : Read α} {next : α → Read β} {post : α → Prop} {post' : β → Prop}
    (hreading : reading.Ensures post) (hnext : ∀ value, post value → (next value).Ensures post') :
    (reading >>= next).Ensures post' := by
  intro cursor left result hread
  obtain ⟨value, between, hvalue, hresult⟩ := exists_of_bind_eq_ok hread
  exact hnext value (hreading hvalue) hresult

theorem Ensures.map {reading : Read α} {post : α → Prop} {post' : β → Prop} {f : α → β}
    (h : reading.Ensures post) (hf : ∀ value, post value → post' (f value)) :
    (reading >>= fun value => pure (f value)).Ensures post' :=
  h.bind fun value hvalue => ensures_pure (hf value hvalue)

theorem Ensures.times {reading : Read α} {post : α → Prop} (h : reading.Ensures post) (count : Nat) :
    (times count reading).Ensures fun values =>
      values.length = count ∧ ∀ value ∈ values, post value := by
  induction count with
  | zero =>
      apply ensures_pure
      simp
  | succ count ih =>
      refine h.bind fun first hfirst => ih.map fun others hothers => ?_
      simp [hothers.1, hfirst]
      exact hothers.2

theorem Ensures.onBytes {reading : Read α} {post : α → Prop} (h : reading.Ensures post)
    {bytes : Array UInt8} {value : α} (hread : reading.onBytes bytes = .ok value) : post value :=
  h (Prod.ext hread rfl)

theorem Ensures.within {reading : Read α} {post : α → Prop} (h : reading.Ensures post) (size : Nat) :
    (within size reading).Ensures post := by
  refine (ensures_true (bytes size)).bind fun region _ => ?_
  intro cursor left value hread
  exact h.onBytes (congrArg Prod.fst hread)

/-! ### What a reading fails for -/

/-- The reading stays in its buffer, and fails beyond the end of the buffer or for a fault. -/
structure FailsAs (reading : Read α) (fault : Cursor → DecodeError → Prop) : Prop where
  keeps : ∀ cursor, (reading cursor).2.bytes = cursor.bytes
  fails : ∀ ⦃cursor left : Cursor⦄ ⦃error⦄, reading cursor = (.error error, left) →
    error.IsShortageIn cursor.bytes ∨ fault cursor error

/-- The reading fails for want of bytes only. -/
abbrev FailsShort (reading : Read α) : Prop := reading.FailsAs fun _ _ => False

theorem FailsAs.mono {reading : Read α} {fault fault' : Cursor → DecodeError → Prop}
    (h : reading.FailsAs fault) (hfault : ∀ cursor error, fault cursor error → fault' cursor error) :
    reading.FailsAs fault' :=
  ⟨h.keeps, fun cursor _ error hread => (h.fails hread).imp_right (hfault cursor error)⟩

theorem failsShort_pure (value : α) : (pure value : Read α).FailsShort := by
  refine ⟨fun cursor => rfl, ?_⟩
  intro cursor left error hread
  cases hread

theorem failsAs_ofExcept (result : Except DecodeError α) :
    (ofExcept result).FailsAs fun _ error => result = .error error := by
  refine ⟨fun cursor => rfl, ?_⟩
  intro cursor left error hread
  exact Or.inr (Prod.mk.inj hread).1

/-- A fault of the second reading is one behind what the first has read. -/
theorem FailsAs.bind {reading : Read α} {next : α → Read β} {post : α → Prop}
    {first : Cursor → DecodeError → Prop} {second : α → Cursor → DecodeError → Prop}
    (hreading : reading.FailsAs first) (hpost : reading.Ensures post)
    (hnext : ∀ value, post value → (next value).FailsAs (second value)) :
    (reading >>= next).FailsAs fun cursor error => first cursor error
      ∨ ∃ value between, reading cursor = (.ok value, between) ∧ second value between error := by
  constructor
  · intro cursor
    have hkeeps := hreading.keeps cursor
    rw [bind_apply]
    rcases hread : reading cursor with ⟨error | value, between⟩
    · rw [hread] at hkeeps
      exact hkeeps
    · rw [hread] at hkeeps
      exact ((hnext value (hpost hread)).keeps between).trans hkeeps
  · intro cursor left error h
    rcases eq_error_or_exists_of_bind_eq_error h with hread | ⟨value, between, hread, hrest⟩
    · exact (hreading.fails hread).imp_right Or.inl
    · have hkeeps := hreading.keeps cursor
      rw [hread] at hkeeps
      rcases (hnext value (hpost hread)).fails hrest with hshort | hfault
      · rw [hkeeps] at hshort
        exact Or.inl hshort
      · exact Or.inr (Or.inr ⟨value, between, hread, hfault⟩)

theorem Spans.failsShort {reading : Read α} {size : Nat} (h : reading.Spans size) :
    reading.FailsShort := by
  constructor
  · intro cursor
    rcases hread : reading cursor with ⟨error | value, left⟩
    · exact (h.of_eq_error hread).2
    · exact (h.of_eq_ok hread).2.1
  · intro cursor left error hread
    exact Or.inl (h.of_eq_error hread).1.isShortageIn

end Read
end AdLibModule
