import AdLibModule.Proofs.Fetch

/-! Readers described by how their results are stored. A reader decodes a way to store values when
it takes from a cursor just the bytes that store a value, yields this value, and takes nothing else:
what it yields, and what it takes, can then be told from the bytes alone. -/

namespace AdLibModule

/-! ### Numbers -/

/-- The lowest `width` base-256 digits of a number, lowest first. -/
def littleEndianBytes : Nat → Nat → List UInt8
  | 0, _ => []
  | width + 1, n => (n % 256).toUInt8 :: littleEndianBytes width (n / 256)

theorem length_littleEndianBytes (width n : Nat) : (littleEndianBytes width n).length = width := by
  induction width generalizing n with
  | zero => rfl
  | succ width ih => rw [littleEndianBytes, List.length_cons, ih]

theorem littleEndian_littleEndianBytes {width n : Nat} (h : n < 256 ^ width) :
    littleEndian (littleEndianBytes width n) = n := by
  induction width generalizing n with
  | zero => exact (Nat.lt_one_iff.mp h).symm
  | succ width ih =>
      have hhigh : n / 256 < 256 ^ width := by
        rw [Nat.pow_succ] at h
        omega
      have hlow : (n % 256).toUInt8.toNat = n % 256 :=
        UInt8.toNat_ofNat_of_lt' (Nat.mod_lt _ (by decide))
      rw [littleEndianBytes]
      show _ + 256 * littleEndian _ = _
      rw [hlow, ih hhigh, Nat.mod_add_div]

theorem littleEndianBytes_littleEndian (bytes : List UInt8) :
    littleEndianBytes bytes.length (littleEndian bytes) = bytes := by
  induction bytes with
  | nil => rfl
  | cons byte bytes ih =>
      have hlt := byte.toNat_lt
      have hsum : littleEndian (byte :: bytes) = byte.toNat + 256 * littleEndian bytes := rfl
      have hlow : littleEndian (byte :: bytes) % 256 = byte.toNat := by omega
      have hhigh : littleEndian (byte :: bytes) / 256 = littleEndian bytes := by omega
      rw [List.length_cons, littleEndianBytes, hlow, hhigh, ih, Nat.toUInt8, UInt8.ofNat_toNat]

theorem littleEndian_lt (bytes : List UInt8) : littleEndian bytes < 256 ^ bytes.length := by
  induction bytes with
  | nil => decide
  | cons byte bytes ih =>
      have hlt := byte.toNat_lt
      have hsum : littleEndian (byte :: bytes) = byte.toNat + 256 * littleEndian bytes := rfl
      rw [List.length_cons, Nat.pow_succ, hsum]
      omega

theorem littleEndian_singleton (byte : UInt8) : littleEndian [byte] = byte.toNat := by
  show byte.toNat + 256 * 0 = byte.toNat
  rw [Nat.mul_zero, Nat.add_zero]

/-- The bytes of a width and the numbers that have room in it correspond. -/
theorem eq_littleEndian_iff {width n : Nat} {bytes : List UInt8} :
    bytes.length = width ∧ n = littleEndian bytes ↔ n < 256 ^ width ∧ bytes = littleEndianBytes width n := by
  constructor
  · rintro ⟨rfl, rfl⟩
    exact ⟨littleEndian_lt bytes, (littleEndianBytes_littleEndian bytes).symm⟩
  · rintro ⟨hn, rfl⟩
    exact ⟨length_littleEndianBytes width n, (littleEndian_littleEndianBytes hn).symm⟩

/-- Two bytes and the words correspond. -/
theorem eq_toUInt16_littleEndian_iff {word : UInt16} {bytes : List UInt8} :
    bytes.length = 2 ∧ word = (littleEndian bytes).toUInt16
      ↔ bytes = littleEndianBytes 2 word.toNat := by
  constructor
  · rintro ⟨hlength, rfl⟩
    have hroom := littleEndian_lt bytes
    rw [hlength] at hroom
    rw [Nat.toUInt16, UInt16.toNat_ofNat_of_lt' hroom, ← hlength, littleEndianBytes_littleEndian]
  · rintro rfl
    rw [littleEndian_littleEndianBytes word.toNat_lt]
    exact ⟨length_littleEndianBytes _ _, UInt16.ofNat_toNat.symm⟩

namespace Read

variable {α β : Type}

/-! ### Codes -/

/-- The bytes stored by `coding` are what the reading takes for a value. -/
structure Decodes {α : Type} (reading : Read α) (coding : α → List UInt8 → Prop) : Prop where
  /-- Stored bytes are taken, whatever follows them. -/
  reads : ∀ {value bytes}, coding value bytes → ∀ {cursor : Cursor} {rest : List UInt8},
    cursor.unread = bytes ++ rest → ∃ left, reading cursor = (.ok value, left) ∧ left.unread = rest
  /-- No other bytes are taken. -/
  coded : ∀ {cursor left : Cursor} {value}, reading cursor = (.ok value, left) →
    ∃ bytes, coding value bytes ∧ cursor.unread = bytes ++ left.unread

theorem Decodes.congr {reading : Read α} {coding coding' : α → List UInt8 → Prop}
    (h : reading.Decodes coding) (hcoding : ∀ value bytes, coding value bytes ↔ coding' value bytes) :
    reading.Decodes coding' := by
  have heq : coding = coding' := by
    funext value bytes
    exact propext (hcoding value bytes)
  rwa [← heq]

theorem decodes_pure (value : α) :
    (pure value : Read α).Decodes fun other bytes => other = value ∧ bytes = [] where
  reads := by
    rintro _ _ ⟨rfl, rfl⟩ cursor rest h
    exact ⟨cursor, rfl, h⟩
  coded := by
    intro cursor left other h
    cases h
    exact ⟨[], ⟨rfl, rfl⟩, rfl⟩

theorem decodes_ofExcept (result : Except DecodeError α) :
    (ofExcept result).Decodes fun value bytes => result = .ok value ∧ bytes = [] where
  reads := by
    rintro value _ ⟨rfl, rfl⟩ cursor rest h
    exact ⟨cursor, rfl, h⟩
  coded := by
    intro cursor left value h
    obtain ⟨hresult, rfl⟩ := Prod.mk.inj h
    exact ⟨[], ⟨hresult, rfl⟩, rfl⟩

/-- What is stored for the first reading comes before what is stored for the second. -/
theorem Decodes.bind {reading : Read α} {next : α → Read β} {first : α → List UInt8 → Prop}
    {second : α → β → List UInt8 → Prop} (hreading : reading.Decodes first)
    (hnext : ∀ value, (next value).Decodes (second value)) :
    (reading >>= next).Decodes fun result bytes => ∃ value before after,
      first value before ∧ second value result after ∧ bytes = before ++ after where
  reads := by
    rintro result _ ⟨value, before, after, hfirst, hsecond, rfl⟩ cursor rest h
    rw [List.append_assoc] at h
    obtain ⟨between, hread, hbetween⟩ := hreading.reads hfirst h
    obtain ⟨left, hresult, hleft⟩ := (hnext value).reads hsecond hbetween
    exact ⟨left, (bind_eq_of_eq_ok hread).trans hresult, hleft⟩
  coded := by
    intro cursor left result h
    obtain ⟨value, between, hread, hresult⟩ := exists_of_bind_eq_ok h
    obtain ⟨before, hfirst, hbefore⟩ := hreading.coded hread
    obtain ⟨after, hsecond, hafter⟩ := (hnext value).coded hresult
    refine ⟨before ++ after, ⟨value, before, after, hfirst, hsecond, rfl⟩, ?_⟩
    rw [hbefore, hafter, List.append_assoc]

/-- A value whose bytes are fixed by it is stored before all that follows. -/
theorem Decodes.store {reading : Read α} {next : α → Read β} {encode : α → List UInt8}
    {second : α → β → List UInt8 → Prop} (hreading : reading.Decodes fun value bytes => bytes = encode value)
    (hnext : ∀ value, (next value).Decodes (second value)) :
    (reading >>= next).Decodes fun result bytes =>
      ∃ value after, second value result after ∧ bytes = encode value ++ after := by
  refine (hreading.bind hnext).congr fun result bytes => ?_
  constructor
  · rintro ⟨value, _, after, rfl, hsecond, rfl⟩
    exact ⟨value, after, hsecond, rfl⟩
  · rintro ⟨value, after, hsecond, rfl⟩
    exact ⟨value, _, after, rfl, hsecond, rfl⟩

theorem Decodes.map {reading : Read α} {coding : α → List UInt8 → Prop} (f : α → β)
    (h : reading.Decodes coding) :
    (reading >>= fun value => pure (f value)).Decodes fun result bytes =>
      ∃ value, coding value bytes ∧ result = f value := by
  refine (h.bind fun value => decodes_pure (f value)).congr fun result bytes => ?_
  constructor
  · rintro ⟨value, before, _, hvalue, ⟨hresult, rfl⟩, rfl⟩
    rw [List.append_nil]
    exact ⟨value, hvalue, hresult⟩
  · rintro ⟨value, hvalue, hresult⟩
    exact ⟨value, bytes, [], hvalue, ⟨hresult, rfl⟩, (List.append_nil _).symm⟩

/-- From the start of a buffer a value is read when its bytes are there, with anything behind. -/
theorem Decodes.onBytes_eq_ok_iff {reading : Read α} {coding : α → List UInt8 → Prop}
    (h : reading.Decodes coding) {data : Array UInt8} {value : α} :
    reading.onBytes data = .ok value
      ↔ ∃ bytes rest, coding value bytes ∧ data.toList = bytes ++ rest := by
  constructor
  · intro hread
    obtain ⟨bytes, hvalue, hunread⟩ := @Decodes.coded _ _ _ h (.start data) (reading (.start data)).2
      value (Prod.ext hread rfl)
    exact ⟨bytes, _, hvalue, hunread⟩
  · rintro ⟨bytes, rest, hvalue, hdata⟩
    obtain ⟨left, hread, -⟩ := @Decodes.reads _ _ _ h value bytes hvalue (.start data) rest hdata
    exact congrArg Prod.fst hread

/-- What is read from the front of some bytes, and what is left of them, is determined by them. -/
theorem Decodes.unique {reading : Read α} {coding : α → List UInt8 → Prop} (h : reading.Decodes coding)
    {value value' : α} {bytes bytes' rest rest' : List UInt8} (hvalue : coding value bytes)
    (hvalue' : coding value' bytes') (heq : bytes ++ rest = bytes' ++ rest') :
    value = value' ∧ rest = rest' := by
  have hstart : (Cursor.start (bytes ++ rest).toArray).unread = bytes ++ rest := by
    simp [Cursor.unread, Cursor.start]
  obtain ⟨left, hread, hleft⟩ := h.reads hvalue hstart
  obtain ⟨left', hread', hleft'⟩ := h.reads hvalue' (hstart.trans heq)
  obtain ⟨hsame, rfl⟩ := Prod.mk.inj (hread.symm.trans hread')
  exact ⟨Except.ok.inj hsame, hleft.symm.trans hleft'⟩

/-- All descriptions of how the values of a reading are stored say the same. -/
theorem Decodes.recode {reading : Read α} {coding coding' : α → List UInt8 → Prop}
    (h : reading.Decodes coding) (h' : reading.Decodes coding') {value : α} {bytes : List UInt8}
    (hvalue : coding value bytes) : coding' value bytes := by
  have hstart : (Cursor.start bytes.toArray).unread = bytes ++ [] := (List.append_nil bytes).symm
  obtain ⟨left, hread, hleft⟩ := h.reads hvalue hstart
  obtain ⟨stored, hstored, hunread⟩ := h'.coded hread
  rw [hstart, hleft, List.append_nil, List.append_nil] at hunread
  rwa [hunread]

theorem Decodes.ensures {reading : Read α} {coding : α → List UInt8 → Prop}
    (h : reading.Decodes coding) : reading.Ensures fun value => ∃ bytes, coding value bytes := by
  intro cursor left value hread
  obtain ⟨bytes, hvalue, -⟩ := h.coded hread
  exact ⟨bytes, hvalue⟩

/-! ### Readings of a fixed number of bytes -/

/-- A reading of a fixed number of bytes decodes what is stored in just so many. -/
theorem Fetches.decodes {reading : Read α} {size : Nat} {stored : Array UInt8 → Nat → α}
    (h : reading.Fetches size stored) :
    reading.Decodes fun value bytes => bytes.length = size ∧ value = stored bytes.toArray 0 where
  reads := by
    rintro _ bytes ⟨rfl, rfl⟩ cursor rest hunread
    have hsame := sameField_of_unread_eq hunread
    obtain ⟨value, hread⟩ := h.reaches cursor hsame.fits
    refine ⟨_, by rw [hread, h.eq_stored hread, h.depends hsame], ?_⟩
    rw [h.unread_of_eq_ok hread, hunread, List.drop_left' rfl]
  coded := by
    intro cursor left value hread
    have hsplit : cursor.unread = cursor.unread.take size ++ left.unread := by
      rw [h.unread_of_eq_ok hread, List.take_append_drop]
    have hlength : (cursor.unread.take size).length = size := by
      rw [List.length_take, cursor.length_unread, Nat.min_eq_left (h.of_eq_ok hread).1]
    have hsame := sameField_of_unread_eq hsplit
    rw [hlength] at hsame
    exact ⟨_, ⟨hlength, (h.eq_stored hread).trans (h.depends hsame)⟩, hsplit⟩

theorem Fetches.exists_coding {reading : Read α} {size : Nat} {stored : Array UInt8 → Nat → α}
    {coding : α → List UInt8 → Prop} (h : reading.Fetches size stored) (hcoding : reading.Decodes coding)
    {bytes : List UInt8} (hlength : bytes.length = size) : ∃ value, coding value bytes :=
  ⟨_, h.decodes.recode hcoding ⟨hlength, rfl⟩⟩

theorem Fetches.length_coding {reading : Read α} {size : Nat} {stored : Array UInt8 → Nat → α}
    {coding : α → List UInt8 → Prop} (h : reading.Fetches size stored) (hcoding : reading.Decodes coding)
    {value : α} {bytes : List UInt8} (hvalue : coding value bytes) : bytes.length = size :=
  (hcoding.recode h.decodes hvalue).1

theorem Takes.decodes {reading : Read α} {count : Nat} {value : List UInt8 → α}
    (h : reading.Takes count value) :
    reading.Decodes fun result bytes => bytes.length = count ∧ result = value bytes := by
  refine h.fetches.decodes.congr fun result bytes => and_congr_right ?_
  rintro rfl
  rw [toList_fieldAt_toArray]

theorem decodes_bytes (count : Nat) :
    (bytes count).Decodes fun value bytes => bytes = value.toList ∧ value.size = count := by
  refine (takes_bytes count).decodes.congr fun value bytes => ?_
  constructor
  · rintro ⟨hlength, rfl⟩
    exact ⟨rfl, hlength⟩
  · rintro ⟨rfl, hsize⟩
    exact ⟨hsize, rfl⟩

theorem decodes_vector (n : Nat) : (vector n).Decodes fun value bytes => bytes = value.toList := by
  refine (takes_vector n).decodes.congr fun value bytes => ?_
  constructor
  · rintro ⟨hlength, rfl⟩
    exact (toList_rowOf hlength).symm
  · rintro rfl
    exact ⟨value.length_toList, Vector.toList_inj.mp (toList_rowOf value.length_toList).symm⟩

theorem decodes_skip (count : Nat) : (skip count).Decodes fun _ bytes => bytes.length = count :=
  (takes_skip count).decodes.congr fun _ _ => and_iff_left rfl

theorem decodes_number (width : Nat) :
    (number width).Decodes fun n bytes => n < 256 ^ width ∧ bytes = littleEndianBytes width n :=
  (takes_number width).decodes.congr fun _ _ => eq_littleEndian_iff

theorem decodes_u8 : u8.Decodes fun value bytes => bytes = [value] := by
  refine takes_u8.decodes.congr fun value bytes => ?_
  constructor
  · rintro ⟨hlength, rfl⟩
    obtain ⟨byte, rfl⟩ := List.length_eq_one_iff.mp hlength
    rw [littleEndian_singleton, Nat.toUInt8, UInt8.ofNat_toNat]
  · rintro rfl
    rw [littleEndian_singleton, Nat.toUInt8, UInt8.ofNat_toNat]
    exact ⟨rfl, rfl⟩

theorem decodes_u16 : u16.Decodes fun value bytes => bytes = littleEndianBytes 2 value.toNat :=
  takes_u16.decodes.congr fun _ _ => eq_toUInt16_littleEndian_iff

theorem decodes_i16 :
    i16.Decodes fun value bytes => bytes = littleEndianBytes 2 value.toUInt16.toNat := by
  refine (decodes_u16.map UInt16.toInt16).congr fun value bytes => ?_
  constructor
  · rintro ⟨word, rfl, rfl⟩
    rfl
  · rintro rfl
    exact ⟨value.toUInt16, rfl, rfl⟩

theorem decodes_u32 : u32.Decodes fun value bytes => bytes = littleEndianBytes 4 value.toNat := by
  refine takes_u32.decodes.congr fun value bytes => ?_
  constructor
  · rintro ⟨hlength, rfl⟩
    have hlt := littleEndian_lt bytes
    rw [hlength] at hlt
    rw [Nat.toUInt32, UInt32.toNat_ofNat_of_lt' hlt, ← hlength, littleEndianBytes_littleEndian]
  · rintro rfl
    rw [littleEndian_littleEndianBytes value.toNat_lt]
    exact ⟨length_littleEndianBytes _ _, UInt32.ofNat_toNat.symm⟩

theorem onBytes_vector {n : Nat} {data : Array UInt8} (h : data.size = n) :
    (vector n).onBytes data = .ok ⟨data, h⟩ :=
  (decodes_vector n).onBytes_eq_ok_iff.mpr ⟨_, [], rfl, (List.append_nil _).symm⟩

theorem Decodes.times {reading : Read α} {valid : α → Prop} {encode : α → List UInt8}
    (h : reading.Decodes fun value bytes => valid value ∧ bytes = encode value) (count : Nat) :
    (times count reading).Decodes fun values bytes =>
      (values.length = count ∧ ∀ value ∈ values, valid value) ∧ bytes = values.flatMap encode := by
  induction count with
  | zero =>
      refine (decodes_pure []).congr fun values bytes => ?_
      constructor
      · rintro ⟨rfl, rfl⟩
        exact ⟨⟨rfl, fun _ hvalue => nomatch hvalue⟩, rfl⟩
      · rintro ⟨⟨hlength, -⟩, rfl⟩
        rw [List.eq_nil_of_length_eq_zero hlength]
        exact ⟨rfl, rfl⟩
  | succ count ih =>
      refine (h.bind fun first => ih.map (first :: ·)).congr fun values bytes => ?_
      constructor
      · rintro ⟨first, _, _, ⟨hfirst, rfl⟩, ⟨others, ⟨⟨hlength, hothers⟩, rfl⟩, rfl⟩, rfl⟩
        exact ⟨⟨congrArg Nat.succ hlength, List.forall_mem_cons.mpr ⟨hfirst, hothers⟩⟩, rfl⟩
      · rintro ⟨⟨hlength, hvalid⟩, rfl⟩
        obtain ⟨first, others, rfl⟩ := List.exists_cons_of_length_eq_add_one hlength
        obtain ⟨hfirst, hothers⟩ := List.forall_mem_cons.mp hvalid
        exact ⟨first, _, _, ⟨hfirst, rfl⟩, ⟨others, ⟨⟨Nat.succ.inj hlength, hothers⟩, rfl⟩, rfl⟩, rfl⟩

/-! ### What given bytes lead to -/

/-- Where the bytes come next, the reading takes them and yields the value, whatever follows. -/
def Yields (reading : Read α) (bytes : List UInt8) (value : α) : Prop :=
  ∀ ⦃cursor : Cursor⦄ ⦃rest : List UInt8⦄, cursor.unread = bytes ++ rest →
    ∃ left, reading cursor = (.ok value, left) ∧ left.unread = rest

theorem Decodes.yields {reading : Read α} {coding : α → List UInt8 → Prop} (h : reading.Decodes coding)
    {value : α} {bytes : List UInt8} (hvalue : coding value bytes) : reading.Yields bytes value :=
  fun _ _ => h.reads hvalue

/-- Any bytes in the right number lead to some value. -/
theorem Fetches.exists_yields {reading : Read α} {size : Nat} {stored : Array UInt8 → Nat → α}
    (h : reading.Fetches size stored) {bytes : List UInt8} (hlength : bytes.length = size) :
    ∃ value, reading.Yields bytes value :=
  ⟨_, h.decodes.yields ⟨hlength, rfl⟩⟩

theorem yields_pure (value : α) : (pure value : Read α).Yields [] value :=
  (decodes_pure value).yields ⟨rfl, rfl⟩

theorem Yields.bind {reading : Read α} {next : α → Read β} {first second : List UInt8} {value : α}
    {result : β} (hreading : reading.Yields first value) (hnext : (next value).Yields second result) :
    (reading >>= next).Yields (first ++ second) result := by
  intro cursor rest h
  rw [List.append_assoc] at h
  obtain ⟨between, hread, hbetween⟩ := hreading h
  obtain ⟨left, hresult, hleft⟩ := hnext hbetween
  exact ⟨left, (bind_eq_of_eq_ok hread).trans hresult, hleft⟩

theorem Yields.map {reading : Read α} {bytes : List UInt8} {value : α} (h : reading.Yields bytes value)
    (f : α → β) : (reading >>= fun value => pure (f value)).Yields bytes (f value) := by
  have hbind : (reading >>= fun value => pure (f value)).Yields (bytes ++ []) (f value) :=
    h.bind (yields_pure (f value))
  rwa [List.append_nil] at hbind

theorem Yields.onBytes {reading : Read α} {bytes rest : List UInt8} {value : α}
    (h : reading.Yields bytes value) {data : Array UInt8} (hdata : data.toList = bytes ++ rest) :
    reading.onBytes data = .ok value := by
  have hunread : (Cursor.start data).unread = bytes ++ rest := hdata
  obtain ⟨left, hread, -⟩ := h hunread
  exact congrArg Prod.fst hread

theorem Yields.within {reading : Read α} {region : Array UInt8} {value : α} {size : Nat}
    (hsize : region.size = size) (h : reading.onBytes region = .ok value) :
    (within size reading).Yields region.toList value := by
  have hregion : (bytes size).Yields region.toList region := (decodes_bytes size).yields ⟨rfl, hsize⟩
  have hvalue : (ofExcept (reading.onBytes region)).Yields [] value :=
    (decodes_ofExcept _).yields ⟨h, rfl⟩
  have hbind : (Read.within size reading).Yields (region.toList ++ []) value := hregion.bind hvalue
  rwa [List.append_nil] at hbind

end Read
end AdLibModule
