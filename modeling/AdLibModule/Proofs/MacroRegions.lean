import AdLibModule.Proofs.SongData

/-! The regions of macros, tables and columns, as they are laid out. A record has room for more steps
or entries than are in use, and what stands in the rest of the room does not matter; a column is
switched off by any byte but zero. Each of the three decoders reads just the values that are laid out
in its region, and lacks bytes just when not all records are there. -/

namespace AdLibModule

open Read

/-! ### Layouts -/

/-- The bytes of a step. The slide is stored as a word, which holds it in two's complement. -/
def RegisterStep.record (step : RegisterStep) : List UInt8 :=
  step.registers.toList ++ littleEndianBytes 2 step.frequencySlide.toUInt16.toNat
    ++ [step.panning, step.duration]

/-- The bytes of a macro, with `unused` in the room that its steps leave. -/
def InstrumentMacro.record (unit : InstrumentMacro) (unused : List UInt8) : List UInt8 :=
  [unit.length, unit.loopBegin, unit.loopLength, unit.keyOffPosition, unit.arpeggioTable,
    unit.vibratoTable] ++ (unit.steps.flatMap RegisterStep.record ++ unused)

/-- The record is one of the macro, whatever stands behind its steps. -/
def InstrumentMacro.LaidOut (unit : InstrumentMacro) (record : List UInt8) : Prop :=
  unit.steps.length = unit.length.toNat
    ∧ ∃ unused, unused.length = (macroRoom - unit.length.toNat) * 15 ∧ record = unit.record unused

def ArpeggioTable.record (table : ArpeggioTable) (unused : List UInt8) : List UInt8 :=
  [table.length, table.speed, table.loopBegin, table.loopLength, table.keyOffPosition]
    ++ (table.entries ++ unused)

def ArpeggioTable.LaidOut (table : ArpeggioTable) (record : List UInt8) : Prop :=
  table.entries.length = table.length.toNat
    ∧ ∃ unused, unused.length = macroRoom - table.length.toNat ∧ record = table.record unused

/-- The bytes of a vibrato table, whose entries are stored in two's complement. -/
def VibratoTable.record (table : VibratoTable) (unused : List UInt8) : List UInt8 :=
  [table.length, table.speed, table.delay, table.loopBegin, table.loopLength, table.keyOffPosition]
    ++ (table.entries.map Int8.toUInt8 ++ unused)

def VibratoTable.LaidOut (table : VibratoTable) (record : List UInt8) : Prop :=
  table.entries.length = table.length.toNat
    ∧ ∃ unused, unused.length = macroRoom - table.length.toNat ∧ record = table.record unused

/-- The arpeggio table with all its room, and behind it the vibrato table. -/
def MacroTable.LaidOut (table : MacroTable) (record : List UInt8) : Prop :=
  ∃ first second, table.arpeggio.LaidOut first ∧ table.vibrato.LaidOut second
    ∧ record = first ++ second

/-- A byte for each column; every byte but zero switches its column off. -/
def DisabledColumns.LaidOut (columns : DisabledColumns) (record : List UInt8) : Prop :=
  record.map (· != 0) = columns.toList

/-! ### Readers of laid out values -/

namespace Read

variable {α β : Type}

/-- Values that are read in a row are stored in a row. -/
theorem Decodes.each {reading : Read α} {coding : α → List UInt8 → Prop} (h : reading.Decodes coding)
    (count : Nat) : (Read.times count reading).Decodes fun values bytes =>
      values.length = count ∧ ∃ records, List.Forall₂ coding values records ∧ bytes = records.flatten := by
  induction count with
  | zero =>
      refine (decodes_pure []).congr fun values bytes => ?_
      constructor
      · rintro ⟨rfl, rfl⟩
        exact ⟨rfl, [], .nil, rfl⟩
      · rintro ⟨hlength, records, heach, rfl⟩
        obtain rfl := List.eq_nil_of_length_eq_zero hlength
        cases heach
        exact ⟨rfl, rfl⟩
  | succ count ih =>
      refine (h.bind fun first => ih.map (first :: ·)).congr fun values bytes => ?_
      constructor
      · rintro ⟨first, record, _, hfirst, ⟨others, ⟨hlength, records, hothers, rfl⟩, rfl⟩, rfl⟩
        exact ⟨congrArg Nat.succ hlength, record :: records, .cons hfirst hothers, rfl⟩
      · rintro ⟨hlength, _, heach, rfl⟩
        cases heach with
        | nil => cases hlength
        | cons hfirst hothers =>
            exact ⟨_, _, _, hfirst, ⟨_, ⟨Nat.succ.inj hlength, _, hothers, rfl⟩, rfl⟩, rfl⟩

end Read

theorem decodes_registerStep :
    RegisterStep.read.Decodes fun step bytes => bytes = step.record := by
  have hdecodes := (decodes_vector 11).store fun registers => decodes_i16.store fun slide =>
    decodes_u8.store fun panning => decodes_u8.map fun duration =>
      RegisterStep.mk registers slide panning duration
  refine Decodes.congr hdecodes fun step bytes => ?_
  constructor
  · rintro ⟨registers, _, ⟨slide, _, ⟨panning, _, ⟨duration, rfl, rfl⟩, rfl⟩, rfl⟩, rfl⟩
    simp only [RegisterStep.record, List.append_assoc, List.cons_append, List.nil_append]
  · rintro rfl
    refine ⟨_, _, ⟨_, _, ⟨_, _, ⟨_, rfl, rfl⟩, rfl⟩, rfl⟩, ?_⟩
    simp only [RegisterStep.record, List.append_assoc, List.cons_append, List.nil_append]

theorem RegisterStep.length_record (step : RegisterStep) : step.record.length = 15 :=
  fetches_registerStep.length_coding decodes_registerStep rfl

theorem length_flatMap_record (steps : List RegisterStep) :
    (steps.flatMap RegisterStep.record).length = steps.length * 15 := by
  induction steps with
  | nil => rfl
  | cons step steps ih =>
      rw [List.flatMap_cons, List.length_append, ih, step.length_record, List.length_cons]
      omega

/-- All the room for steps is read, and the steps in use are kept. -/
theorem decodes_steps {β : Type} (length : UInt8) (f : List RegisterStep → β) :
    (times macroRoom RegisterStep.read >>= fun steps => pure (f (steps.take length.toNat))).Decodes
      fun result bytes => ∃ steps, (steps.length = length.toNat ∧ ∃ unused : List UInt8,
        unused.length = (macroRoom - length.toNat) * 15
          ∧ bytes = steps.flatMap RegisterStep.record ++ unused) ∧ result = f steps := by
  have hroom := toNat_le_macroRoom length
  have hsteps : ∀ count, (times count RegisterStep.read).Decodes fun steps bytes =>
      (steps.length = count ∧ ∀ step ∈ steps, True) ∧ bytes = steps.flatMap RegisterStep.record :=
    fun count => (decodes_registerStep.congr fun step bytes => (true_and _).to_iff.symm).times count
  refine ((hsteps macroRoom).map fun steps => f (steps.take length.toNat)).congr fun result bytes => ?_
  constructor
  · rintro ⟨all, ⟨⟨hall, -⟩, rfl⟩, rfl⟩
    refine ⟨all.take length.toNat, ⟨?_, (all.drop length.toNat).flatMap RegisterStep.record, ?_, ?_⟩, rfl⟩
    · rw [List.length_take, hall, Nat.min_eq_left hroom]
    · rw [length_flatMap_record, List.length_drop, hall]
    · rw [← List.flatMap_append, List.take_append_drop]
  · rintro ⟨steps, ⟨hlength, unused, hunused, rfl⟩, rfl⟩
    obtain ⟨others, ⟨hothers, -⟩, rfl⟩ :=
      (fetches_registerStep.times _).exists_coding (hsteps (macroRoom - length.toNat)) hunused
    refine ⟨steps ++ others, ⟨⟨?_, fun _ _ => trivial⟩, ?_⟩, ?_⟩
    · rw [List.length_append, hlength, hothers]
      omega
    · rw [List.flatMap_append]
    · rw [← hlength, List.take_left]

/-- All the room for entries is read, and the entries in use are kept. -/
theorem decodes_entries {α β : Type} (decode : UInt8 → α) (encode : α → UInt8)
    (hdecode : ∀ entry, decode (encode entry) = entry) (hencode : ∀ byte, encode (decode byte) = byte)
    (length : UInt8) (f : List α → β) :
    (Read.bytes macroRoom >>= fun entries =>
        pure (f ((entries.toList.take length.toNat).map decode))).Decodes
      fun result bytes => ∃ entries, (entries.length = length.toNat ∧ ∃ unused : List UInt8,
        unused.length = macroRoom - length.toNat ∧ bytes = entries.map encode ++ unused)
          ∧ result = f entries := by
  have hroom := toNat_le_macroRoom length
  refine ((decodes_bytes macroRoom).map _).congr fun result bytes => ?_
  constructor
  · rintro ⟨all, ⟨rfl, hall⟩, rfl⟩
    have hsize : all.toList.length = macroRoom := Array.length_toList.trans hall
    have hback : (all.toList.take length.toNat).map (encode ∘ decode) = all.toList.take length.toNat :=
      (List.map_congr_left fun byte _ => hencode byte).trans (List.map_id _)
    refine ⟨_, ⟨?_, all.toList.drop length.toNat, ?_, ?_⟩, rfl⟩
    · rw [List.length_map, List.length_take, hsize, Nat.min_eq_left hroom]
    · rw [List.length_drop, hsize]
    · rw [List.map_map, hback, List.take_append_drop]
  · rintro ⟨entries, ⟨hlength, unused, hunused, rfl⟩, rfl⟩
    have hencoded : (entries.map encode).length = length.toNat := (List.length_map _).trans hlength
    have hback : entries.map (decode ∘ encode) = entries :=
      (List.map_congr_left fun entry _ => hdecode entry).trans (List.map_id _)
    refine ⟨(entries.map encode ++ unused).toArray, ⟨rfl, ?_⟩, ?_⟩
    · rw [List.size_toArray, List.length_append, hencoded, hunused]
      omega
    · rw [List.take_left' hencoded, List.map_map, hback]

theorem decodes_instrumentMacro : InstrumentMacro.read.Decodes InstrumentMacro.LaidOut := by
  have hdecodes := decodes_u8.store fun length => decodes_u8.store fun loopBegin =>
    decodes_u8.store fun loopLength => decodes_u8.store fun keyOffPosition =>
    decodes_u8.store fun arpeggioTable => decodes_u8.store fun vibratoTable =>
    decodes_steps length fun steps =>
      InstrumentMacro.mk length loopBegin loopLength keyOffPosition arpeggioTable vibratoTable steps
  refine Decodes.congr hdecodes fun unit bytes => ?_
  constructor
  · rintro ⟨length, _, ⟨loopBegin, _, ⟨loopLength, _, ⟨keyOffPosition, _, ⟨arpeggioTable, _,
      ⟨vibratoTable, _, ⟨steps, ⟨hlength, unused, hunused, rfl⟩, rfl⟩, rfl⟩, rfl⟩, rfl⟩, rfl⟩, rfl⟩, rfl⟩
    exact ⟨hlength, unused, hunused, rfl⟩
  · rintro ⟨hlength, unused, hunused, rfl⟩
    exact ⟨_, _, ⟨_, _, ⟨_, _, ⟨_, _, ⟨_, _, ⟨_, _, ⟨unit.steps, ⟨hlength, unused, hunused, rfl⟩, rfl⟩,
      rfl⟩, rfl⟩, rfl⟩, rfl⟩, rfl⟩, rfl⟩

theorem decodes_arpeggioTable : ArpeggioTable.read.Decodes ArpeggioTable.LaidOut := by
  have hdecodes := decodes_u8.store fun length => decodes_u8.store fun speed =>
    decodes_u8.store fun loopBegin => decodes_u8.store fun loopLength =>
    decodes_u8.store fun keyOffPosition =>
    decodes_entries id id (fun _ => rfl) (fun _ => rfl) length fun entries =>
      ArpeggioTable.mk length speed loopBegin loopLength keyOffPosition entries
  simp only [List.map_id] at hdecodes
  refine Decodes.congr hdecodes fun table bytes => ?_
  constructor
  · rintro ⟨length, _, ⟨speed, _, ⟨loopBegin, _, ⟨loopLength, _, ⟨keyOffPosition, _,
      ⟨entries, ⟨hlength, unused, hunused, rfl⟩, rfl⟩, rfl⟩, rfl⟩, rfl⟩, rfl⟩, rfl⟩
    exact ⟨hlength, unused, hunused, rfl⟩
  · rintro ⟨hlength, unused, hunused, rfl⟩
    exact ⟨_, _, ⟨_, _, ⟨_, _, ⟨_, _, ⟨_, _, ⟨table.entries, ⟨hlength, unused, hunused, rfl⟩, rfl⟩,
      rfl⟩, rfl⟩, rfl⟩, rfl⟩, rfl⟩

theorem decodes_vibratoTable : VibratoTable.read.Decodes VibratoTable.LaidOut := by
  have hdecodes := decodes_u8.store fun length => decodes_u8.store fun speed =>
    decodes_u8.store fun delay => decodes_u8.store fun loopBegin => decodes_u8.store fun loopLength =>
    decodes_u8.store fun keyOffPosition =>
    decodes_entries UInt8.toInt8 Int8.toUInt8 (fun _ => rfl) (fun _ => rfl)
      length fun entries =>
        VibratoTable.mk length speed delay loopBegin loopLength keyOffPosition entries
  refine Decodes.congr hdecodes fun table bytes => ?_
  constructor
  · rintro ⟨length, _, ⟨speed, _, ⟨delay, _, ⟨loopBegin, _, ⟨loopLength, _, ⟨keyOffPosition, _,
      ⟨entries, ⟨hlength, unused, hunused, rfl⟩, rfl⟩, rfl⟩, rfl⟩, rfl⟩, rfl⟩, rfl⟩, rfl⟩
    exact ⟨hlength, unused, hunused, rfl⟩
  · rintro ⟨hlength, unused, hunused, rfl⟩
    exact ⟨_, _, ⟨_, _, ⟨_, _, ⟨_, _, ⟨_, _, ⟨_, _, ⟨table.entries, ⟨hlength, unused, hunused, rfl⟩,
      rfl⟩, rfl⟩, rfl⟩, rfl⟩, rfl⟩, rfl⟩, rfl⟩

theorem decodes_macroTable : MacroTable.read.Decodes MacroTable.LaidOut := by
  have hdecodes := decodes_arpeggioTable.bind fun arpeggio => decodes_vibratoTable.map fun vibrato =>
    MacroTable.mk arpeggio vibrato
  refine Decodes.congr hdecodes fun table bytes => ?_
  constructor
  · rintro ⟨arpeggio, first, second, hfirst, ⟨vibrato, hsecond, rfl⟩, rfl⟩
    exact ⟨first, second, hfirst, hsecond, rfl⟩
  · rintro ⟨first, second, hfirst, hsecond, rfl⟩
    exact ⟨table.arpeggio, first, second, hfirst, ⟨table.vibrato, hsecond, rfl⟩, rfl⟩

theorem decodes_disabledColumns : DisabledColumns.read.Decodes DisabledColumns.LaidOut := by
  refine ((decodes_vector 28).map fun stored => stored.map (· != 0)).congr fun columns bytes => ?_
  constructor
  · rintro ⟨stored, rfl, rfl⟩
    exact (Vector.toList_map ..).symm
  · intro hlaid
    have hlength : bytes.toArray.size = 28 := by
      rw [List.size_toArray, ← List.length_map (f := (· != 0)), hlaid, Vector.length_toList]
    refine ⟨⟨bytes.toArray, hlength⟩, rfl, ?_⟩
    rw [← Vector.toList_inj, Vector.toList_map]
    exact hlaid.symm

/-! ### The regions -/

/-- The decoder of a region reads the values that are laid out in it, each in a record of `size` bytes,
and nothing behind them. It fails exactly when there are too few bytes for all records. -/
structure Read.InvertsLayout {α : Type} (reading : Read (List α)) (size : Nat)
    (laidOut : α → List UInt8 → Prop) : Prop where
  length_record : ∀ value record, laidOut value record → record.length = size
  onBytes_eq_ok_iff : ∀ (region : Array UInt8) (values : List α), reading.onBytes region = .ok values
    ↔ values.length = 255 ∧ ∃ records rest, List.Forall₂ laidOut values records
      ∧ region.toList = records.flatten ++ rest
  isOk_iff : ∀ region : Array UInt8,
    (∃ values, reading.onBytes region = .ok values) ↔ 255 * size ≤ region.size
  truncated : ∀ region : Array UInt8, region.size < 255 * size →
    ∃ offset needed available, reading.onBytes region = .error (.truncated offset needed available)
      ∧ offset ≤ region.size ∧ available = region.size - offset ∧ available < needed

/-- A decoder of fixed records reads the records of a region one by one. -/
theorem Read.invertsLayout_times {α : Type} {reading : Read α} {size : Nat}
    {stored : Array UInt8 → Nat → α} {laidOut : α → List UInt8 → Prop}
    (hfetches : reading.Fetches size stored) (hdecodes : reading.Decodes laidOut) :
    (Read.times macroSlots reading).InvertsLayout size laidOut := by
  have hregion := hfetches.times macroSlots
  refine ⟨?_, ?_, ?_, ?_⟩
  · exact fun value record => hfetches.length_coding hdecodes
  · intro region values
    rw [(hdecodes.each macroSlots).onBytes_eq_ok_iff]
    constructor
    · rintro ⟨_, rest, ⟨hlength, records, heach, rfl⟩, hbytes⟩
      exact ⟨hlength, records, rest, heach, hbytes⟩
    · rintro ⟨hlength, records, rest, heach, hbytes⟩
      exact ⟨_, rest, ⟨hlength, records, heach, rfl⟩, hbytes⟩
  · intro region
    refine ⟨?_, hregion.exists_onBytes_eq_ok⟩
    rintro ⟨values, hvalues⟩
    by_contra hshort
    obtain ⟨error, herror, -⟩ := hregion.exists_onBytes_eq_error (Nat.lt_of_not_le hshort)
    rw [hvalues] at herror
    cases herror
  · intro region hshort
    obtain ⟨error, herror, htrue⟩ := hregion.exists_onBytes_eq_error hshort
    cases error with
    | truncated offset needed available => exact ⟨offset, needed, available, herror, htrue⟩
    | _ => exact htrue.elim

/-- Macros, tables and columns are read from their regions just as they are laid out there, whatever
stands in the room that is not in use and behind the last record; and every region with room for 255
records is read. -/
theorem region_decoders_invert_layouts :
    InstrumentMacro.readAll.InvertsLayout 3831 InstrumentMacro.LaidOut
    ∧ MacroTable.readAll.InvertsLayout 521 MacroTable.LaidOut
    ∧ DisabledColumns.readAll.InvertsLayout 28 DisabledColumns.LaidOut :=
  ⟨invertsLayout_times fetches_instrumentMacro decodes_instrumentMacro,
    invertsLayout_times fetches_macroTable decodes_macroTable,
    invertsLayout_times fetches_disabledColumns decodes_disabledColumns⟩

end AdLibModule
