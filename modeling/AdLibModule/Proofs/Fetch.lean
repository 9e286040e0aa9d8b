import AdLibModule.Proofs.Cursor

/-! Readers of fields and records of a fixed size. Such a reader fails exactly when there are too few
bytes, and what it yields depends on nothing but the bytes that it takes. It is described by a function
from a buffer and a place in it to the value stored there, so that the description of a record tells
the offset of each of its fields. -/

namespace AdLibModule

/-! ### What is stored at a place -/

/-- The bytes of a field. -/
def fieldAt (bytes : Array UInt8) (offset size : Nat) : Array UInt8 :=
  bytes.extract offset (offset + size)

def byteAt (bytes : Array UInt8) (offset : Nat) : UInt8 := bytes.getD offset 0

/-- The number in two bytes, the low one first. -/
def wordAt (bytes : Array UInt8) (offset : Nat) : UInt16 :=
  UInt16.ofNat ((byteAt bytes offset).toNat + 256 * (byteAt bytes (offset + 1)).toNat)

def bytesAt (n : Nat) (bytes : Array UInt8) (offset : Nat) : Vector UInt8 n :=
  Vector.ofFn fun index => byteAt bytes (offset + index)

/-- The Pascal text in a field. -/
def textAt (bytes : Array UInt8) (offset size : Nat) : String :=
  Text.ofPascal (fieldAt bytes offset size).toList

/-- The two places hold the same bytes. -/
structure SameField (bytes : Array UInt8) (offset : Nat) (bytes' : Array UInt8) (offset' size : Nat) :
    Prop where
  fits : offset + size ≤ bytes.size
  fits' : offset' + size ≤ bytes'.size
  field_eq : fieldAt bytes offset size = fieldAt bytes' offset' size

section Fields

variable {bytes bytes' : Array UInt8} {offset offset' size : Nat}

theorem fieldAt_fieldAt {start part : Nat} (h : start + part ≤ size) :
    fieldAt (fieldAt bytes offset size) start part = fieldAt bytes (offset + start) part := by
  rw [fieldAt, fieldAt, fieldAt, Array.extract_extract, ← Nat.add_assoc,
    Nat.min_eq_left (by omega)]

theorem size_fieldAt (h : offset + size ≤ bytes.size) : (fieldAt bytes offset size).size = size := by
  rw [fieldAt, Array.size_extract_of_le h, Nat.add_sub_cancel_left]

theorem SameField.part (h : SameField bytes offset bytes' offset' size) {start part : Nat}
    (hpart : start + part ≤ size) :
    SameField bytes (offset + start) bytes' (offset' + start) part where
  fits := by have := h.fits; omega
  fits' := by have := h.fits'; omega
  field_eq := by
    rw [← fieldAt_fieldAt hpart, ← fieldAt_fieldAt hpart, h.field_eq]

theorem SameField.front (h : SameField bytes offset bytes' offset' size) {part : Nat}
    (hpart : part ≤ size) : SameField bytes offset bytes' offset' part := by
  have hzero : 0 + part ≤ size := by omega
  exact h.part hzero

/-- Buffers that begin alike hold the same at their start. -/
theorem sameField_of_extract_eq (hsize : size ≤ bytes'.size)
    (h : bytes.extract 0 size = bytes'.extract 0 size) : SameField bytes 0 bytes' 0 size where
  fits := by
    have hsizes := congrArg Array.size h
    rw [Array.size_extract, Array.size_extract] at hsizes
    omega
  fits' := by rwa [Nat.zero_add]
  field_eq := by rwa [fieldAt, fieldAt, Nat.zero_add]

theorem toList_fieldAt_toArray (front : List UInt8) :
    (fieldAt front.toArray 0 front.length).toList = front := by
  rw [fieldAt, Array.toList_extract, List.extract, Nat.zero_add]
  exact List.take_length

theorem sameField_fieldAt (h : offset + size ≤ bytes.size) :
    SameField (fieldAt bytes offset size) 0 bytes offset size where
  fits := by rw [size_fieldAt h, Nat.zero_add]
  fits' := h
  field_eq := fieldAt_fieldAt (Nat.le_of_eq (Nat.zero_add size))

/-- The bytes that come next are the same in a buffer of their own. -/
theorem sameField_of_unread_eq {cursor : Cursor} {front rest : List UInt8}
    (h : cursor.unread = front ++ rest) :
    SameField cursor.bytes cursor.position front.toArray 0 front.length where
  fits := by
    rw [cursor.add_le_size_iff, h, List.length_append]
    exact Nat.le_add_right _ _
  fits' := Nat.le_of_eq (Nat.zero_add _)
  field_eq := by
    rw [← Array.toList_inj, toList_fieldAt_toArray, fieldAt, cursor.toList_extract, h,
      List.take_left' rfl]

theorem fieldAt_replicate {count : Nat} (byte : UInt8) (h : offset + size ≤ count) :
    fieldAt (Array.replicate count byte) offset size = Array.replicate size byte := by
  rw [fieldAt, Array.extract_replicate, Nat.min_eq_left h, Nat.add_sub_cancel_left]

theorem byteAt_eq_getElem (h : offset < bytes.size) : byteAt bytes offset = bytes[offset] := by
  rw [byteAt, Array.getD_eq_getD_getElem?, Array.getElem?_eq_getElem h, Option.getD_some]

theorem bytesAt_append {n offset : Nat} {front : List UInt8} (h : front.length = offset)
    (row : Vector UInt8 n) : bytesAt n (front ++ row.toList).toArray offset = row := by
  subst h
  apply Vector.ext
  intro index hindex
  have hroom : front.length + index < (front ++ row.toList).toArray.size := by
    rw [List.size_toArray, List.length_append, row.length_toList]
    exact Nat.add_lt_add_left hindex _
  rw [bytesAt, Vector.getElem_ofFn, byteAt_eq_getElem hroom, List.getElem_toArray,
    List.getElem_append_right (Nat.le_add_right _ _), Vector.getElem_toList]
  congr 1
  exact Nat.add_sub_cancel_left _ _

theorem toList_fieldAt_zero : (fieldAt bytes offset 0).toList = [] := by
  rw [fieldAt, Array.toList_extract, List.extract, Nat.add_zero, Nat.sub_self, List.take_zero]

theorem toList_fieldAt_succ (h : offset + (size + 1) ≤ bytes.size) :
    (fieldAt bytes offset (size + 1)).toList
      = byteAt bytes offset :: (fieldAt bytes (offset + 1) size).toList := by
  have hoffset : offset < bytes.toList.length := by
    rw [Array.length_toList]
    omega
  rw [fieldAt, fieldAt, Array.toList_extract, Array.toList_extract, List.extract, List.extract,
    Nat.add_sub_cancel_left, Nat.add_sub_cancel_left, List.drop_eq_getElem_cons hoffset,
    List.take_succ_cons, byteAt_eq_getElem (by omega), Array.getElem_toList]

end Fields

namespace Read

variable {α β : Type}

/-- The reading takes just `size` bytes and yields what is stored in them. -/
structure Fetches (reading : Read α) (size : Nat) (stored : Array UInt8 → Nat → α) : Prop
    extends Spans reading size where
  eq_stored : ∀ {cursor left : Cursor} {value : α}, reading cursor = (.ok value, left) →
    value = stored cursor.bytes cursor.position
  /-- No other bytes matter. -/
  depends : ∀ {bytes bytes' : Array UInt8} {offset offset' : Nat},
    SameField bytes offset bytes' offset' size → stored bytes offset = stored bytes' offset'

theorem Fetches.congr {reading : Read α} {size : Nat} {stored stored' : Array UInt8 → Nat → α}
    (h : reading.Fetches size stored)
    (hstored : ∀ bytes offset, offset + size ≤ bytes.size →
      stored bytes offset = stored' bytes offset) :
    reading.Fetches size stored' where
  toSpans := h.toSpans
  eq_stored hread := by
    rw [h.eq_stored hread, hstored _ _ (h.fits_of_eq_ok hread)]
  depends hsame := by
    rw [← hstored _ _ hsame.fits, ← hstored _ _ hsame.fits', h.depends hsame]

theorem fetches_pure (value : α) : (pure value : Read α).Fetches 0 fun _ _ => value where
  toSpans := spans_pure value
  eq_stored := by
    intro cursor left other hread
    cases hread
    rfl
  depends _ := rfl

/-- What is stored for the second reading begins where that of the first ends. -/
theorem Fetches.bind {reading : Read α} {next : α → Read β} {first second : Nat}
    {stored : Array UInt8 → Nat → α} {stored' : α → Array UInt8 → Nat → β}
    (hreading : reading.Fetches first stored)
    (hnext : ∀ value, (next value).Fetches second (stored' value)) :
    (reading >>= next).Fetches (first + second) fun bytes offset =>
      stored' (stored bytes offset) bytes (offset + first) where
  toSpans := hreading.toSpans.bind fun value => (hnext value).toSpans
  eq_stored hread := by
    obtain ⟨value, between, hvalue, hresult⟩ := exists_of_bind_eq_ok hread
    obtain ⟨-, hbytes, hposition⟩ := hreading.of_eq_ok hvalue
    rw [(hnext value).eq_stored hresult, hbytes, hposition, hreading.eq_stored hvalue]
  depends hsame := by
    rw [hreading.depends (hsame.front (Nat.le_add_right first second)),
      (hnext _).depends (hsame.part (Nat.le_refl _))]

theorem Fetches.map {reading : Read α} {size : Nat} {stored : Array UInt8 → Nat → α}
    (h : reading.Fetches size stored) (f : α → β) :
    (reading >>= fun value => pure (f value)).Fetches size
      fun bytes offset => f (stored bytes offset) :=
  h.bind fun value => fetches_pure (f value)

/-- A read that takes all or nothing fetches what its bytes tell. -/
theorem Takes.fetches {reading : Read α} {count : Nat} {value : List UInt8 → α}
    (h : reading.Takes count value) :
    reading.Fetches count fun bytes offset => value (fieldAt bytes offset count).toList where
  toSpans := h.spans
  eq_stored {cursor _ _} hread := by
    rw [h.takes cursor (h.spans.fits_of_eq_ok hread)] at hread
    rw [fieldAt, cursor.toList_extract]
    exact (Except.ok.inj (Prod.mk.inj hread).1).symm
  depends hsame := by rw [hsame.field_eq]

theorem fetches_bytes (count : Nat) :
    (Read.bytes count).Fetches count fun bytes offset => fieldAt bytes offset count :=
  (takes_bytes count).fetches

theorem fetches_vector (n : Nat) : (vector n).Fetches n (bytesAt n) := by
  refine (takes_vector n).fetches.congr fun bytes offset hroom => ?_
  apply Vector.ext
  intro index hindex
  have hfield : index < (fieldAt bytes offset n).toList.length := by
    rwa [Array.length_toList, size_fieldAt hroom]
  rw [rowOf, bytesAt, Vector.getElem_ofFn, Vector.getElem_ofFn, List.getD_eq_getElem _ _ hfield,
    Array.getElem_toList, byteAt_eq_getElem (by omega)]
  exact Array.getElem_extract _

theorem fetches_u8 : u8.Fetches 1 byteAt := by
  refine takes_u8.fetches.congr fun bytes offset hroom => ?_
  rw [toList_fieldAt_succ hroom, toList_fieldAt_zero]
  exact UInt8.ofNat_toNat

theorem fetches_u16 : u16.Fetches 2 wordAt := by
  refine takes_u16.fetches.congr fun bytes offset hroom => ?_
  rw [toList_fieldAt_succ hroom, toList_fieldAt_succ (Nat.add_assoc .. ▸ hroom), toList_fieldAt_zero]
  rfl

theorem fetches_i16 : i16.Fetches 2 fun bytes offset => (wordAt bytes offset).toInt16 :=
  fetches_u16.map UInt16.toInt16

theorem fetches_pascal (capacity : Nat) :
    (pascal capacity).Fetches capacity fun bytes offset => textAt bytes offset capacity :=
  (takes_pascal capacity).fetches

/-- Under a condition that does not hold, nothing is read. -/
theorem Fetches.orAbsent {reading : Read α} {size : Nat} {stored : Array UInt8 → Nat → α}
    {condition : Prop} [Decidable condition] (h : reading.Fetches size stored) (absent : α) :
    (if condition then reading else pure absent).Fetches (if condition then size else 0)
      fun bytes offset => if condition then stored bytes offset else absent := by
  by_cases hcondition : condition
  · simp only [if_pos hcondition]
    exact h
  · simp only [if_neg hcondition]
    exact fetches_pure absent

section Block

variable {reading : Read α} {size : Nat} {stored : Array UInt8 → Nat → α} {block : Array UInt8}

theorem Fetches.onBytes_eq_ok (h : reading.Fetches size stored) (hsize : size ≤ block.size) :
    reading.onBytes block = .ok (stored block 0) := by
  obtain ⟨value, hread⟩ := h.exists_onBytes_eq_ok hsize
  rw [hread, h.eq_stored (Prod.ext hread rfl)]
  rfl

theorem Fetches.onBytes_eq_ok_iff (h : reading.Fetches size stored) {value : α} :
    reading.onBytes block = .ok value ↔ size ≤ block.size ∧ stored block 0 = value := by
  by_cases hsize : size ≤ block.size
  · rw [h.onBytes_eq_ok hsize, Except.ok.injEq]
    exact (and_iff_right hsize).symm
  · obtain ⟨error, hread, -⟩ := h.exists_onBytes_eq_error (Nat.lt_of_not_le hsize)
    rw [hread]
    exact ⟨nofun, fun hvalue => absurd hvalue.1 hsize⟩

end Block

/-- Records of one size lie one after the other. -/
theorem Fetches.times {reading : Read α} {size : Nat} {stored : Array UInt8 → Nat → α}
    (h : reading.Fetches size stored) (count : Nat) :
    (times count reading).Fetches (count * size) fun bytes offset =>
      (List.range count).map fun slot => stored bytes (offset + slot * size) := by
  induction count with
  | zero =>
      rw [Nat.zero_mul]
      exact fetches_pure []
  | succ count ih =>
      rw [Nat.succ_mul, Nat.add_comm (count * size)]
      refine (h.bind fun first => ih.map (first :: ·)).congr fun bytes offset _ => ?_
      rw [List.range_succ_eq_map, List.map_cons, List.map_map, Nat.zero_mul]
      refine congrArg _ (List.map_congr_left fun slot _ => ?_)
      rw [Function.comp, Nat.succ_mul, Nat.add_comm (slot * size), Nat.add_assoc]

/-- A region of its own holds what it would hold in place. -/
theorem Fetches.within {reading : Read α} {size : Nat} {stored : Array UInt8 → Nat → α}
    (h : reading.Fetches size stored) : (within size reading).Fetches size stored where
  toSpans := h.toSpans.within
  eq_stored hread := by
    obtain ⟨region, between, hregion, hvalue⟩ := exists_of_bind_eq_ok hread
    have hroom := (fetches_bytes size).fits_of_eq_ok hregion
    obtain rfl := (fetches_bytes size).eq_stored hregion
    rw [← h.depends (sameField_fieldAt hroom)]
    exact (h.onBytes_eq_ok_iff.mp (Prod.mk.inj hvalue).1).2.symm
  depends := h.depends

end Read
end AdLibModule
