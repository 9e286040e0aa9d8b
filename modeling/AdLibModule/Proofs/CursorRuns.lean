import AdLibModule.Proofs.Decodes

/-! Any row of operations on one cursor. Every operation asks for a number of bytes at a place, and has
all of them or none: when they are not all there it says which bytes were wanted and leaves the cursor
alone. What the successful reads take, put together, is the data up to the place that is reached, and
the value of each read is the one that its own bytes spell. -/

namespace AdLibModule

open Read

/-! ### What bytes spell -/

/-- The number whose digits to the base 256 are the bytes, the lowest first. -/
def digitsValue (range : List UInt8) : Nat := Nat.ofDigits 256 (range.map UInt8.toNat)

theorem littleEndian_eq_digitsValue (range : List UInt8) : littleEndian range = digitsValue range := by
  induction range with
  | nil => rfl
  | cons byte range ih =>
      rw [digitsValue, List.map_cons, Nat.ofDigits_cons]
      show byte.toNat + 256 * littleEndian range = _
      rw [ih, digitsValue]

section Words

variable {range : List UInt8}

theorem toNat_toUInt8_littleEndian (h : range.length = 1) :
    (littleEndian range).toUInt8.toNat = digitsValue range := by
  have hroom := littleEndian_lt range
  rw [h] at hroom
  rw [Nat.toUInt8, UInt8.toNat_ofNat_of_lt' hroom, littleEndian_eq_digitsValue]

theorem toNat_toUInt16_littleEndian (h : range.length = 2) :
    (littleEndian range).toUInt16.toNat = digitsValue range := by
  have hroom := littleEndian_lt range
  rw [h] at hroom
  rw [Nat.toUInt16, UInt16.toNat_ofNat_of_lt' hroom, littleEndian_eq_digitsValue]

theorem toNat_toUInt32_littleEndian (h : range.length = 4) :
    (littleEndian range).toUInt32.toNat = digitsValue range := by
  have hroom := littleEndian_lt range
  rw [h] at hroom
  rw [Nat.toUInt32, UInt32.toNat_ofNat_of_lt' hroom, littleEndian_eq_digitsValue]

end Words

/-- The text of a field: the characters that its bytes number, as many as the first byte says or as
there is room for in a field of `capacity` bytes. -/
def IsTextOf (capacity : Nat) (range : List UInt8) (text : String) : Prop :=
  text.toList.map Char.toNat
    = ((range.drop 1).take (min (range.headD 0).toNat (capacity - 1))).map UInt8.toNat

theorem map_toNat_ofBytes (bytes : List UInt8) :
    (Text.ofBytes bytes).toList.map Char.toNat = bytes.map UInt8.toNat := by
  rw [Text.ofBytes, String.toList_ofList, List.map_map]
  refine List.map_congr_left fun byte _ => ?_
  have hlt := byte.toNat_lt
  have hvalid : byte.toNat.isValidChar := Or.inl (by omega)
  rw [Function.comp, Char.toNat_ofNat, if_pos hvalid]

theorem isTextOf_ofPascal (range : List UInt8) :
    IsTextOf range.length range (Text.ofPascal range) := by
  cases range with
  | nil => rfl
  | cons length body =>
      rw [IsTextOf, Text.ofPascal, map_toNat_ofBytes]
      show (body.take length.toNat).map UInt8.toNat
        = (body.take (min length.toNat body.length)).map UInt8.toNat
      rw [← List.take_take, List.take_length]

/-! ### Operations -/

namespace Cursor

/-- What can be done with a cursor: a read of each kind, or a look at a place. -/
inductive Operation where
  | bytes (count : Nat)
  | peekAt (offset count : Nat)
  | skip (count : Nat)
  | u8
  | i8
  | u16
  | i16
  | u32
  | vector (n : Nat)
  | pascal (capacity : Nat)

namespace Operation

/-- What the operation answers. -/
abbrev Answer : Operation → Type
  | bytes _ | peekAt _ _ => Array UInt8
  | skip _ => Unit
  | u8 => UInt8
  | i8 => Int8
  | u16 => UInt16
  | i16 => Int16
  | u32 => UInt32
  | vector n => Vector UInt8 n
  | pascal _ => String

def perform : (operation : Operation) → Read operation.Answer
  | bytes count => Read.bytes count
  | peekAt offset count => fun cursor => (cursor.peekAt offset count, cursor)
  | skip count => Read.skip count
  | u8 => Read.u8
  | i8 => Read.i8
  | u16 => Read.u16
  | i16 => Read.i16
  | u32 => Read.u32
  | vector n => Read.vector n
  | pascal capacity => Read.pascal capacity

/-- The number of bytes that the operation asks for. -/
def count : Operation → Nat
  | bytes count | peekAt _ count | skip count => count
  | u8 | i8 => 1
  | u16 | i16 => 2
  | u32 => 4
  | vector n => n
  | pascal capacity => capacity

/-- Whether the operation takes the bytes that it asks for. -/
def isRead : Operation → Bool
  | peekAt _ _ => false
  | _ => true

/-- Where the bytes are that the operation asks for. -/
def place (cursor : Cursor) : Operation → Nat
  | peekAt offset _ => offset
  | _ => cursor.position

/-- The answer is the one that the bytes spell. -/
def Spells : (operation : Operation) → List UInt8 → operation.Answer → Prop
  | bytes _, range, answer => answer.toList = range
  | peekAt _ _, range, answer => answer.toList = range
  | skip _, _, _ => True
  | u8, range, answer => answer.toNat = digitsValue range
  | i8, range, answer => answer.toInt = (digitsValue range : Int).bmod (2 ^ 8)
  | u16, range, answer => answer.toNat = digitsValue range
  | i16, range, answer => answer.toInt = (digitsValue range : Int).bmod (2 ^ 16)
  | u32, range, answer => answer.toNat = digitsValue range
  | vector _, range, answer => answer.toList = range
  | pascal capacity, range, answer => IsTextOf capacity range answer

/-- What the operation answers to the bytes that it asks for. -/
def value : (operation : Operation) → List UInt8 → operation.Answer
  | bytes _, range => range.toArray
  | peekAt _ _, range => range.toArray
  | skip _, _ => ()
  | u8, range => (littleEndian range).toUInt8
  | i8, range => (littleEndian range).toUInt8.toInt8
  | u16, range => (littleEndian range).toUInt16
  | i16, range => (littleEndian range).toUInt16.toInt16
  | u32, range => (littleEndian range).toUInt32
  | vector n, range => rowOf n range
  | pascal _, range => Text.ofPascal range

variable {operation : Operation}

theorem takes (h : operation.isRead = true) :
    operation.perform.Takes operation.count operation.value := by
  cases operation with
  | bytes count => exact takes_bytes count
  | peekAt offset count => cases h
  | skip count => exact takes_skip count
  | u8 => exact takes_u8
  | i8 => exact takes_i8
  | u16 => exact takes_u16
  | i16 => exact takes_i16
  | u32 => exact takes_u32
  | vector n => exact takes_vector n
  | pascal capacity => exact takes_pascal capacity

theorem spells_value {range : List UInt8} (h : range.length = operation.count) :
    operation.Spells range (operation.value range) := by
  cases operation with
  | bytes _ | peekAt _ _ => rfl
  | skip _ => trivial
  | u8 => exact toNat_toUInt8_littleEndian h
  | i8 =>
      show (littleEndian range).toUInt8.toInt8.toInt = (digitsValue range : Int).bmod (2 ^ 8)
      rw [← toNat_toUInt8_littleEndian h]
      exact BitVec.toInt_eq_toNat_bmod _
  | u16 => exact toNat_toUInt16_littleEndian h
  | i16 =>
      show (littleEndian range).toUInt16.toInt16.toInt = (digitsValue range : Int).bmod (2 ^ 16)
      rw [← toNat_toUInt16_littleEndian h]
      exact BitVec.toInt_eq_toNat_bmod _
  | u32 => exact toNat_toUInt32_littleEndian h
  | vector _ => exact toList_rowOf h
  | pascal capacity =>
      obtain rfl : range.length = capacity := h
      exact isTextOf_ofPascal range

theorem place_of_isRead (h : operation.isRead = true) (cursor : Cursor) :
    operation.place cursor = cursor.position := by
  cases operation with
  | peekAt offset count => cases h
  | _ => rfl

/-- The bytes that the operation asks for, as far as they are there. -/
def range (operation : Operation) (cursor : Cursor) : List UInt8 :=
  (cursor.bytes.extract (operation.place cursor) (operation.place cursor + operation.count)).toList

theorem range_of_isRead (h : operation.isRead = true) (cursor : Cursor) :
    operation.range cursor = cursor.unread.take operation.count := by
  rw [range, place_of_isRead h, cursor.toList_extract]

/-- All the bytes that the operation asks for are there. -/
def Fits (operation : Operation) (cursor : Cursor) : Prop :=
  operation.place cursor + operation.count ≤ cursor.bytes.size

theorem perform_of_fits {cursor : Cursor} (h : operation.Fits cursor) :
    ∃ answer left, operation.perform cursor = (.ok answer, left)
      ∧ operation.Spells (operation.range cursor) answer ∧ left.bytes = cursor.bytes
      ∧ left.position = cursor.position + if operation.isRead then operation.count else 0 := by
  cases hread : operation.isRead with
  | false =>
      cases operation with
      | peekAt offset count => exact ⟨_, cursor, Prod.ext (if_pos h) rfl, rfl, rfl, rfl⟩
      | _ => cases hread
  | true =>
      have hroom : cursor.position + operation.count ≤ cursor.bytes.size := by
        rwa [Fits, place_of_isRead hread] at h
      have hlength : (cursor.unread.take operation.count).length = operation.count := by
        rw [List.length_take, Nat.min_eq_left ((cursor.add_le_size_iff _).mp hroom)]
      rw [range_of_isRead hread]
      exact ⟨_, _, (takes hread).takes cursor hroom, spells_value hlength, rfl, rfl⟩

theorem perform_of_not_fits {cursor : Cursor} (h : ¬ operation.Fits cursor) :
    operation.perform cursor
      = (.error (cursor.shortage (operation.place cursor) operation.count), cursor) := by
  cases hread : operation.isRead with
  | false =>
      cases operation with
      | peekAt offset count => exact Prod.ext (if_neg h) rfl
      | _ => cases hread
  | true =>
      rw [Fits, place_of_isRead hread] at h
      rw [place_of_isRead hread]
      exact (takes hread).lacks cursor h

end Operation

/-! ### Steps -/

/-- The end of a field in words of 64 bits. There is none when the sum wraps round, or when the field
ends behind the data. -/
def endInWords? (size offset count : UInt64) : Option UInt64 :=
  if offset ≤ offset + count ∧ offset + count ≤ size then some (offset + count) else none

/-- The end is told in words just when the field ends within the data as numbers go. -/
theorem exists_endInWords?_iff {size offset count : UInt64} :
    (∃ stop, endInWords? size offset count = some stop ∧ stop.toNat = offset.toNat + count.toNat)
      ↔ offset.toNat + count.toNat ≤ size.toNat := by
  have := offset.toNat_lt
  have := count.toNat_lt
  have := size.toNat_lt
  have hwraps := UInt64.toNat_add offset count
  simp only [endInWords?, Option.ite_none_right_eq_some, Option.some_inj, UInt64.le_iff_toNat_le]
  constructor
  · rintro ⟨_, ⟨⟨-, hsize⟩, rfl⟩, hstop⟩
    rwa [← hstop]
  · intro hsum
    exact ⟨_, ⟨by omega, rfl⟩, by omega⟩

/-- An operation with what it met and what it left. -/
structure Step where
  operation : Operation
  before : Cursor
  result : Except DecodeError operation.Answer
  after : Cursor

def Operation.step (operation : Operation) (cursor : Cursor) : Step where
  operation := operation
  before := cursor
  result := (operation.perform cursor).1
  after := (operation.perform cursor).2

namespace Step

/-- Where the bytes are that are asked for. -/
def offset (step : Step) : Nat := step.operation.place step.before

/-- How many bytes are asked for. -/
def count (step : Step) : Nat := step.operation.count

def Succeeds (step : Step) : Prop := ∃ answer, step.result = .ok answer

/-- The bytes that the step takes from the data: those of a read that succeeds. -/
def consumed (step : Step) : List UInt8 :=
  match step.result with
  | .ok _ => if step.operation.isRead then step.operation.range step.before else []
  | .error _ => []

/-- The step is made on the data. It has all the bytes that it asks for or none, and answers what they
spell. -/
structure Exact (step : Step) (data : Array UInt8) : Prop where
  bytes_before : step.before.bytes = data
  bytes_after : step.after.bytes = data
  position_le : step.after.position ≤ data.size
  position_add_remaining : step.after.position + step.after.remaining = data.size
  succeeds_iff : step.Succeeds ↔ step.offset + step.count ≤ data.size
  /-- Words of 64 bits do, as long as a sum that wraps round is refused. -/
  succeeds_iff_inWords : ∀ size offset count : UInt64, size.toNat = data.size →
    offset.toNat = step.offset → count.toNat = step.count →
      (step.Succeeds ↔ ∃ stop, endInWords? size offset count = some stop
        ∧ stop.toNat = step.offset + step.count)
  spells : ∀ answer, step.result = .ok answer →
    step.operation.Spells (step.operation.range step.before) answer
  advances : step.Succeeds → step.operation.isRead = true →
    step.after.position = step.before.position + step.count
  looks : step.operation.isRead = false → step.after = step.before
  fails : ¬ step.Succeeds → step.after = step.before
    ∧ step.result = .error (.truncated step.offset step.count (data.size - step.offset))

variable (operation : Operation) (cursor : Cursor)

theorem succeeds_step_iff : (operation.step cursor).Succeeds ↔ operation.Fits cursor := by
  constructor
  · rintro ⟨answer, hanswer⟩
    by_contra hshort
    have hresult := congrArg Prod.fst (Operation.perform_of_not_fits hshort)
    rw [show (operation.perform cursor).1 = .ok answer from hanswer] at hresult
    cases hresult
  · intro hfits
    obtain ⟨answer, left, hperform, -⟩ := Operation.perform_of_fits hfits
    exact ⟨answer, congrArg Prod.fst hperform⟩

theorem bytes_after_step : (operation.step cursor).after.bytes = cursor.bytes := by
  by_cases hfits : operation.Fits cursor
  · obtain ⟨answer, left, hperform, -, hbytes, -⟩ := Operation.perform_of_fits hfits
    rw [← hbytes]
    exact congrArg (Cursor.bytes ·.2) hperform
  · exact congrArg (Cursor.bytes ·.2) (Operation.perform_of_not_fits hfits)

theorem exact_step : (operation.step cursor).Exact cursor.bytes := by
  have hiff := succeeds_step_iff operation cursor
  have hbytes := bytes_after_step operation cursor
  have hplace := (operation.step cursor).after.position_le
  rw [hbytes] at hplace
  refine ⟨rfl, hbytes, hplace, ?_, hiff, ?_, ?_, ?_, ?_, ?_⟩
  · rw [Cursor.remaining, hbytes]
    exact Nat.add_sub_of_le hplace
  · intro size offset count hsize hoffset hcount
    rw [← hoffset, ← hcount, exists_endInWords?_iff, hiff, hsize, hoffset, hcount]
    rfl
  · intro answer hanswer
    obtain ⟨spelt, left, hperform, hspells, -⟩ := Operation.perform_of_fits (hiff.mp ⟨answer, hanswer⟩)
    obtain rfl : answer = spelt := Except.ok.inj (hanswer.symm.trans (congrArg Prod.fst hperform))
    exact hspells
  · intro hsucceeds hread
    obtain ⟨answer, left, hperform, -, -, hposition⟩ := Operation.perform_of_fits (hiff.mp hsucceeds)
    rw [if_pos (show operation.isRead = true from hread)] at hposition
    exact (congrArg (Cursor.position ·.2) hperform).trans hposition
  · intro hlook
    cases operation with
    | peekAt offset count => rfl
    | _ => cases hlook
  · intro hfails
    have hperform := Operation.perform_of_not_fits (mt hiff.mpr hfails)
    exact ⟨congrArg Prod.snd hperform, congrArg Prod.fst hperform⟩

/-- What a step takes lies between what was unread before it and what is unread after it. -/
theorem consumed_append_unread :
    (operation.step cursor).consumed ++ (operation.step cursor).after.unread = cursor.unread := by
  by_cases hfits : operation.Fits cursor
  · obtain ⟨answer, left, hperform, -, hbytes, hposition⟩ := Operation.perform_of_fits hfits
    rw [consumed, Operation.step, hperform]
    cases hread : operation.isRead with
    | false =>
        rw [hread, if_neg Bool.false_ne_true, Nat.add_zero] at hposition
        rw [if_neg Bool.false_ne_true, List.nil_append, unread, unread, hbytes, hposition]
    | true =>
        rw [hread, if_pos rfl] at hposition
        rw [if_pos rfl, Operation.range_of_isRead hread, unread, unread, hbytes, hposition,
          ← List.drop_drop, List.take_append_drop]
  · rw [consumed, Operation.step, Operation.perform_of_not_fits hfits, List.nil_append]

end Step

/-! ### Runs -/

/-- The steps of the operations, each from where the one before has left the cursor. -/
def steps : List Operation → Cursor → List Step
  | [], _ => []
  | operation :: others, cursor =>
    operation.step cursor :: steps others (operation.step cursor).after

/-- Where the operations leave the cursor. -/
def run (operations : List Operation) (cursor : Cursor) : Cursor :=
  operations.foldl (fun cursor operation => (operation.perform cursor).2) cursor

/-- Every step of a run is made on the data, from where the run has come to. -/
theorem exact_of_mem_steps {operations : List Operation} {cursor : Cursor} {step : Step}
    (h : step ∈ steps operations cursor) : step.Exact cursor.bytes := by
  induction operations generalizing cursor with
  | nil => cases h
  | cons operation others ih =>
      rcases List.mem_cons.mp h with rfl | h
      · exact Step.exact_step operation cursor
      · rw [← Step.bytes_after_step operation cursor]
        exact ih h

theorem bytes_run (operations : List Operation) (cursor : Cursor) :
    (run operations cursor).bytes = cursor.bytes := by
  induction operations generalizing cursor with
  | nil => rfl
  | cons operation others ih =>
      exact (ih _).trans (Step.bytes_after_step operation cursor)

theorem map_operation_steps (operations : List Operation) (cursor : Cursor) :
    (steps operations cursor).map Step.operation = operations := by
  induction operations generalizing cursor with
  | nil => rfl
  | cons operation others ih => exact congrArg (operation :: ·) (ih _)

theorem flatMap_consumed_append_unread (operations : List Operation) (cursor : Cursor) :
    (steps operations cursor).flatMap Step.consumed ++ (run operations cursor).unread
      = cursor.unread := by
  induction operations generalizing cursor with
  | nil => rfl
  | cons operation others ih =>
      rw [← Step.consumed_append_unread operation cursor, ← ih (operation.step cursor).after,
        steps, List.flatMap_cons, List.append_assoc]
      rfl

/-- On a cursor that starts at the front of the data, any row of operations answers one by one, every
step is exact, and the successful reads have taken just the data before the place that is reached. -/
theorem runs_exactly (data : Array UInt8) (operations : List Operation) :
    (steps operations (.start data)).map Step.operation = operations
    ∧ (∀ step ∈ steps operations (.start data), step.Exact data)
    ∧ (run operations (.start data)).bytes = data
    ∧ (run operations (.start data)).position + (run operations (.start data)).remaining = data.size
    ∧ (steps operations (.start data)).flatMap Step.consumed
      = data.toList.take (run operations (.start data)).position := by
  have hbytes := bytes_run operations (.start data)
  have hplace := (run operations (.start data)).position_le
  refine ⟨map_operation_steps _ _, fun step => exact_of_mem_steps, hbytes, ?_, ?_⟩
  · rw [hbytes] at hplace
    rw [remaining, hbytes]
    exact Nat.add_sub_of_le hplace
  · have htaken := flatMap_consumed_append_unread operations (.start data)
    rw [unread, hbytes] at htaken
    have hsplit := data.toList.take_append_drop (run operations (.start data)).position
    exact List.append_cancel_right (htaken.trans hsplit.symm)

/-- Seven bytes, of which a read of 2^64 - 1 and a look at the end of the words take none. -/
theorem runs_exactly_past_the_words :
    let data : Array UInt8 := #[0xFF, 0x34, 0x12, 2, 0x68, 0x69, 0x58]
    let operations : List Operation :=
      [.i8, .bytes (2 ^ 64 - 1), .u16, .peekAt (2 ^ 64 - 1) 2, .vector 5, .pascal 4]
    let greedy : Step := (Operation.bytes (2 ^ 64 - 1)).step ⟨data, 1, by decide⟩
    greedy ∈ steps operations (.start data)
      ∧ greedy.result = .error (.truncated 1 (2 ^ 64 - 1) 6)
      ∧ (steps operations (.start data)).flatMap Step.consumed = data.toList := by
  intro data operations greedy
  obtain ⟨-, hexact, -, -, htaken⟩ := runs_exactly data operations
  have hmem : greedy ∈ steps operations (.start data) := .tail _ (.head _)
  have hfails : ¬ greedy.Succeeds := by
    rw [(hexact greedy hmem).succeeds_iff]
    decide
  exact ⟨hmem, ((hexact greedy hmem).fails hfails).2, htaken⟩

end Cursor
end AdLibModule
