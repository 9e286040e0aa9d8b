import AdLibModule.Proofs.CursorRuns
import AdLibModule.Proofs.SongData

/-! What is kept of the stored records of instruments. The ten bytes of the two operators go to registers
of their own and come back from there; the bytes behind them are kept in old versions, while in newer
ones the panning is merged into the speaker bits of the first register. In a table, each instrument is
made of its own record and its own name, and of nothing else. -/

namespace AdLibModule

open Read

namespace Instrument

/-! ### One record -/

/-- The registers in which the first eleven bytes of a record are kept. -/
def placeOrder : Vector (Fin 11) 11 := #v[1, 2, 9, 10, 3, 4, 5, 6, 7, 8, 0]

/-- The record in which an instrument would be stored, with its speakers left in the eleventh byte. -/
def record (version : Version) (instrument : Instrument) : List UInt8 :=
  placeOrder.toList.map instrument.registers.get ++ [instrument.misc, instrument.slide]
    ++ if version.hasVoiceType then [instrument.voiceType] else []

/-- What is left of a record without the speakers in its eleventh byte and the panning behind them. -/
def withoutSides (record : List UInt8) : List UInt8 :=
  (record.modify 10 (· &&& ~~~bothSpeakers)).set 11 0

/-- The instrument is the one in the record, and has the name. -/
structure UnpackedFrom (version : Version) (stored : Array UInt8) (name : String)
    (instrument : Instrument) : Prop where
  name_eq : instrument.name = name
  /-- Old versions keep all of the record. -/
  record_eq : version.number ≤ 4 → instrument.record version = stored.toList
  withoutSides_record : 5 ≤ version.number →
    withoutSides (instrument.record version) = withoutSides stored.toList
  first_eq : 5 ≤ version.number → instrument.registers.get 0 = stored.getD 10 0
    ||| if stored.getD 11 0 = 0 then (0x30 : UInt8) else (stored.getD 11 0 &&& 3) <<< 4
  isEmpty_iff : instrument.isEmpty = true
    ↔ (∀ byte ∈ stored.toList.take 10, byte = 0) ∧ stored.getD 10 0 &&& ~~~0x30 = 0

theorem recordSize_eq (version : Version) :
    version.recordSize = 13 + if version.hasVoiceType then 1 else 0 := by
  cases version <;> rfl

/-- Whatever the byte is, no bits but those of the two speakers come of it. -/
theorem speakerBits_and_not_bothSpeakers (panning : UInt8) :
    speakerBits panning &&& ~~~bothSpeakers = 0 := by
  unfold speakerBits bothSpeakers
  split
  · decide
  · apply UInt8.eq_of_toBitVec_eq
    simp only [UInt8.toBitVec_and, UInt8.toBitVec_shiftLeft, UInt8.toBitVec_not,
      UInt8.toBitVec_ofNat]
    generalize panning.toBitVec = bits
    revert bits
    decide +kernel

theorem or_speakerBits_and_not_bothSpeakers (feedback panning : UInt8) :
    (feedback ||| speakerBits panning) &&& ~~~bothSpeakers = feedback &&& ~~~bothSpeakers := by
  have hsides := congrArg UInt8.toBitVec (speakerBits_and_not_bothSpeakers panning)
  rw [UInt8.toBitVec_and] at hsides
  rw [← UInt8.toBitVec_inj, UInt8.toBitVec_and, UInt8.toBitVec_and, UInt8.toBitVec_or,
    BitVec.and_or_distrib_right, hsides]
  exact BitVec.or_zero

theorem withoutSides_modify_set (record : List UInt8) (panning : UInt8) :
    withoutSides ((record.modify 10 (· ||| speakerBits panning)).set 11 0) = withoutSides record := by
  apply List.ext_getElem?
  intro index
  simp only [withoutSides, List.getElem?_set, List.getElem?_modify, List.length_modify,
    List.length_set]
  by_cases htenth : 10 = index
  · subst htenth
    simp [or_speakerBits_and_not_bothSpeakers, Function.comp_def]
  · by_cases heleventh : 11 = index
    · simp [heleventh]
    · simp [htenth, heleventh]

/-- The record comes back as it was stored, but for the panning. -/
theorem record_ofRecord {version : Version} {stored : Array UInt8} (name : String)
    (hsize : stored.size = version.recordSize) :
    (ofRecord version stored name).record version
      = if version.hasPanning then
          (stored.toList.modify 10 (· ||| speakerBits (stored.getD 11 0))).set 11 0
        else stored.toList := by
  obtain ⟨bytes⟩ := stored
  rw [recordSize_eq, List.size_toArray] at hsize
  cases hvoice : version.hasVoiceType with
  | false =>
      rw [hvoice] at hsize
      match bytes, hsize with
      | [b0, b1, b2, b3, b4, b5, b6, b7, b8, b9, b10, b11, b12], _ =>
        cases hpanning : version.hasPanning <;>
          simp [record, ofRecord, hvoice, hpanning, placeOrder, registerOrder]
  | true =>
      rw [hvoice] at hsize
      match bytes, hsize with
      | [b0, b1, b2, b3, b4, b5, b6, b7, b8, b9, b10, b11, b12, b13], _ =>
        cases hpanning : version.hasPanning <;>
          simp [record, ofRecord, hvoice, hpanning, placeOrder, registerOrder]

theorem get_registers_zero_ofRecord (version : Version) (stored : Array UInt8) (name : String) :
    (ofRecord version stored name).registers.get 0 = stored.getD 10 0
      ||| if version.hasPanning then speakerBits (stored.getD 11 0) else 0 := by
  cases hpanning : version.hasPanning <;> simp [ofRecord, hpanning, registerOrder]

theorem drop_registers_ofRecord (version : Version) (stored : Array UInt8) (name : String) :
    (ofRecord version stored name).registers.toList.drop 1
      = (registerOrder.toList.drop 1).map (stored.getD · 0) := by
  cases hpanning : version.hasPanning <;> simp [ofRecord, hpanning, registerOrder]

theorem isEmpty_iff (instrument : Instrument) : instrument.isEmpty = true
    ↔ instrument.registers.get 0 &&& ~~~bothSpeakers = 0
      ∧ ∀ register ∈ instrument.registers.toList.drop 1, register = 0 := by
  rw [isEmpty, Bool.and_eq_true, beq_iff_eq, List.all_eq_true]
  simp only [beq_iff_eq]
  rfl

theorem isEmpty_ofRecord_iff {version : Version} {stored : Array UInt8} (name : String)
    (hsize : 10 ≤ stored.size) : (ofRecord version stored name).isEmpty = true
      ↔ (∀ byte ∈ stored.toList.take 10, byte = 0) ∧ stored.getD 10 0 &&& ~~~bothSpeakers = 0 := by
  have hfirst : (ofRecord version stored name).registers.get 0 &&& ~~~bothSpeakers
      = stored.getD 10 0 &&& ~~~bothSpeakers := by
    rw [get_registers_zero_ofRecord]
    cases version.hasPanning with
    | false => exact congrArg (· &&& ~~~bothSpeakers) UInt8.or_zero
    | true => exact or_speakerBits_and_not_bothSpeakers _ _
  have hplaces : (registerOrder.toList.drop 1).Perm (List.range 10) := by decide
  have hten : (List.range 10).map (stored.getD · 0) = stored.toList.take 10 := by
    apply List.ext_getElem
    · simp [hsize]
    · intro index hindex _
      rw [List.length_map, List.length_range] at hindex
      simp [Nat.lt_of_lt_of_le hindex hsize]
  have hothers := hten ▸ hplaces.map (stored.getD · 0)
  rw [isEmpty_iff, hfirst, drop_registers_ofRecord, and_comm]
  simp only [hothers.mem_iff]

theorem unpackedFrom_ofRecord {version : Version} {stored : Array UInt8} (name : String)
    (hsize : stored.size = version.recordSize) :
    UnpackedFrom version stored name (ofRecord version stored name) where
  name_eq := rfl
  record_eq hversion := by
    have hpanning : ¬ version.hasPanning = true := by
      rw [Version.hasPanning, decide_eq_true_eq, UInt8.not_le]
      exact UInt8.lt_of_le_of_lt hversion (by decide)
    rw [record_ofRecord name hsize, if_neg hpanning]
  withoutSides_record hversion := by
    have hpanning : version.hasPanning = true := decide_eq_true hversion
    rw [record_ofRecord name hsize, if_pos hpanning, withoutSides_modify_set]
  first_eq hversion := by
    have hpanning : version.hasPanning = true := decide_eq_true hversion
    rw [get_registers_zero_ofRecord, if_pos hpanning]
    rfl
  isEmpty_iff := by
    refine isEmpty_ofRecord_iff name ?_
    rw [hsize, recordSize_eq]
    exact Nat.le_add_right_of_le (by decide)

/-! ### The table -/

/-- Where the record of an instrument lies in a region that begins with the table. -/
def recordAt (version : Version) (region : Array UInt8) (slot : Nat) : Array UInt8 :=
  fieldAt region (slot * version.recordSize) version.recordSize

theorem getElem?_tableAt_zero (version : Version) (names : List String) (region : Array UInt8)
    {slot : Nat} (hslot : slot < version.instrumentCount) :
    (tableAt version names region 0)[slot]?
      = some (ofRecord version (recordAt version region slot) (names.getD slot "")) := by
  rw [tableAt, List.getElem?_map, List.getElem?_range hslot, Option.map_some, Nat.zero_add, recordAt]

theorem size_recordAt {version : Version} {region : Array UInt8} {slot : Nat}
    (hslot : slot < version.instrumentCount)
    (hregion : version.instrumentCount * version.recordSize ≤ region.size) :
    (recordAt version region slot).size = version.recordSize := by
  refine size_fieldAt (Nat.le_trans ?_ hregion)
  rw [← Nat.succ_mul]
  exact Nat.mul_le_mul_right _ hslot

theorem readAll_eq_error {version : Version} {region : Array UInt8} (names : List String)
    (hshort : region.size < version.instrumentCount * version.recordSize) :
    (readAll version names).onBytes region = .error (.truncated
      (region.size / version.recordSize * version.recordSize) version.recordSize
      (region.size % version.recordSize)) := by
  have hsize : 0 < version.recordSize := by
    rw [recordSize_eq]
    exact Nat.add_pos_left (by decide) _
  have hremaining : (Cursor.start region).remaining < version.instrumentCount * version.recordSize :=
    hshort
  obtain ⟨left, hrecords⟩ := (takes_bytes version.recordSize).times_lacks hsize hremaining
  have hread : (readAll version names).onBytes region = .error ((Cursor.start region).shortage
      (0 + region.size / version.recordSize * version.recordSize) version.recordSize) := by
    rw [onBytes, readAll, bind_apply, hrecords]
    rfl
  rw [hread, Nat.zero_add, Cursor.shortage, Nat.mod_eq_sub_div_mul]
  rfl

/-- The instruments of a region are there as soon as it holds all records, and each of them comes
from its own record and its own name. Otherwise the first record is missing that is not whole. -/
theorem readAll_unpacks (version : Version) (region : Array UInt8) (names : List String) :
    ((∃ instruments, (readAll version names).onBytes region = .ok instruments)
      ↔ version.instrumentCount * version.recordSize ≤ region.size)
    ∧ (∀ error, (readAll version names).onBytes region = .error error → error = .truncated
      (region.size / version.recordSize * version.recordSize) version.recordSize
      (region.size % version.recordSize))
    ∧ ∀ instruments, (readAll version names).onBytes region = .ok instruments →
      instruments.length = version.instrumentCount
      ∧ ∀ slot < version.instrumentCount, ∃ instrument, instruments[slot]? = some instrument
        ∧ UnpackedFrom version (recordAt version region slot) (names.getD slot "") instrument
        ∧ ∀ region' names' instruments',
          (readAll version names').onBytes region' = .ok instruments' →
          recordAt version region' slot = recordAt version region slot →
          names'.getD slot "" = names.getD slot "" → instruments'[slot]? = some instrument := by
  have hfetches := fetches_instruments version
  refine ⟨⟨?_, (hfetches names).exists_onBytes_eq_ok⟩, ?_, ?_⟩
  · rintro ⟨instruments, hread⟩
    exact ((hfetches names).onBytes_eq_ok_iff.mp hread).1
  · intro error hread
    rcases Nat.lt_or_ge region.size (version.instrumentCount * version.recordSize) with hshort | hroom
    · rw [readAll_eq_error names hshort] at hread
      exact (Except.error.inj hread).symm
    · rw [(hfetches names).onBytes_eq_ok hroom] at hread
      cases hread
  · intro instruments hread
    obtain ⟨hroom, rfl⟩ := (hfetches names).onBytes_eq_ok_iff.mp hread
    refine ⟨by rw [tableAt, List.length_map, List.length_range], fun slot hslot => ?_⟩
    refine ⟨_, getElem?_tableAt_zero version names region hslot,
      unpackedFrom_ofRecord _ (size_recordAt hslot hroom), ?_⟩
    intro region' names' instruments' hread' hrecord hname
    obtain ⟨-, rfl⟩ := (hfetches names').onBytes_eq_ok_iff.mp hread'
    rw [getElem?_tableAt_zero version names' region' hslot, hrecord, hname]

/-- In the last of 250 records of sixes, panning six puts one speaker into the first register. -/
theorem readAll_unpacks_sixes :
    ∃ instruments, (readAll .v5 ["lead"]).onBytes (Array.replicate 3250 6) = .ok instruments
      ∧ instruments.length = 250
      ∧ ∃ instrument, instruments[249]? = some instrument ∧ instrument.name = ""
        ∧ instrument.registers.get 0 = 0x26 ∧ instrument.isEmpty = false := by
  obtain ⟨hreads, -, hslots⟩ := readAll_unpacks .v5 (Array.replicate 3250 6) ["lead"]
  have hrecord : recordAt .v5 (Array.replicate 3250 6) 249 = Array.replicate 13 6 :=
    fieldAt_replicate 6 (by decide)
  obtain ⟨instruments, hread⟩ := hreads.mpr (by rw [Array.size_replicate]; decide)
  obtain ⟨hlength, hslot⟩ := hslots instruments hread
  obtain ⟨instrument, hfound, hunpacked, -⟩ := hslot 249 (by decide)
  rw [hrecord] at hunpacked
  refine ⟨instruments, hread, hlength, instrument, hfound, hunpacked.name_eq,
    hunpacked.first_eq (by decide), ?_⟩
  rw [Bool.eq_false_iff, Ne, hunpacked.isEmpty_iff]
  exact fun hempty => absurd hempty.2 (by decide)

end Instrument
end AdLibModule
