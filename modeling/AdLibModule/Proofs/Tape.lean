import AdLibModule.BitStream
import AdLibModule.Cursor
import Mathlib

/-! Reading a packed stream with nothing taken for granted. The stream is an array with a position
in it; each access to an array and each difference is checked, and a loop has no bound other than
its own test. So a computation may come to no result at all, and that it comes to one says that no
access was out of range, that no difference was below zero and that every loop has ended. -/

namespace AdLibModule

/-- A difference that must not be below zero. -/
def sub? (a b : Nat) : Option Nat := if b ≤ a then some (a - b) else none

/-- The bytes from `start` up to `stop`, which must lie in the array. -/
def slice? (bytes : Array UInt8) (start stop : Nat) : Option (Array UInt8) :=
  if start ≤ stop ∧ stop ≤ bytes.size then some (bytes.extract start stop) else none

/-- A packed stream: the bytes, how far they were taken, and the bits of taken bytes that were not
handed out. -/
structure Tape where
  cursor : Cursor
  pending : List Bool

namespace Tape

def start (source : Array UInt8) : Tape := ⟨Cursor.start source, []⟩

/-- What is left of the stream. -/
def stream (tape : Tape) : BitStream where
  rest := tape.cursor.bytes.toList.drop tape.cursor.position
  position := tape.cursor.position
  pending := tape.pending

theorem stream_withPending {tape : Tape} {rest : List UInt8} {position : Nat} {pending : List Bool}
    (h : tape.stream = ⟨rest, position, pending⟩) (bits : List Bool) :
    { tape with pending := bits }.stream = ⟨rest, position, bits⟩ := by
  obtain ⟨hrest, hposition, -⟩ := BitStream.mk.inj h
  rw [stream, hrest, hposition]

theorem stream_start (source : Array UInt8) : (start source).stream = BitStream.start source := rfl

end Tape

/-- A computation on a tape. It finds a fault in the stream, or has a result, or has neither. -/
abbrev Checked := StateT Tape (ExceptT StreamFault Option)

namespace Checked

variable {α β γ δ : Type}

/-- A value that must be there. -/
def demand (value : Option α) : Checked α := fun tape => value.map fun value => .ok (value, tape)

/-- The next `count` bytes. -/
def take (scheme : Compression) (count : Nat) : Checked (Array UInt8) := fun ⟨cursor, pending⟩ =>
  if h : cursor.position + count ≤ cursor.bytes.size then
    (slice? cursor.bytes cursor.position (cursor.position + count)).map fun bytes =>
      .ok (bytes, ⟨⟨cursor.bytes, cursor.position + count, h⟩, pending⟩)
  else
    some (.error (.exhausted scheme cursor.position))

/-- The next byte, past any pending bits. -/
def nextByte (scheme : Compression) : Checked UInt8 := do demand (← take scheme 1)[0]?

/-- Hands out the first of the bits, of which there must be one, and keeps the others. -/
def handOut (bits : List Bool) : Checked Bool := fun tape =>
  bits.head?.map fun bit => .ok (bit, { tape with pending := bits.tail })

/-- The next bit. When none is pending, `refill` takes the bits of the next bytes. -/
def nextBit (refill : Checked (List Bool)) : Checked Bool := fun tape =>
  match tape.pending with
  | [] => (refill >>= handOut) tape
  | pending => handOut pending tape

/-- The bits of the next byte. -/
def tagBits (scheme : Compression) : Checked (List Bool) := return byteBits (← nextByte scheme)

/-- The bits of the next two bytes, which are a word stored low byte first. -/
def wordBits (scheme : Compression) : Checked (List Bool) := do
  let word ← take scheme 2
  let low ← demand word[0]?
  let high ← demand word[1]?
  return byteBits high ++ byteBits low

/-! ### What a reading does, done with checks -/

/-- A checked computation has ended as a reading of the stream has: with the same fault, or in front
of the same rest of the stream and with a result related to that of the reading. -/
inductive Agree (R : α → β → Prop) :
    Option (Except StreamFault (α × Tape)) → Except StreamFault (β × BitStream) → Prop
  | fault (fault : StreamFault) : Agree R (some (.error fault)) (.error fault)
  | value {got : α} {value : β} (h : R got value) (tape : Tape) :
      Agree R (some (.ok (got, tape))) (.ok (value, tape.stream))

theorem Agree.of_stream_eq {R : α → β → Prop} {got : α} {value : β} {tape : Tape} {left : BitStream}
    (h : R got value) (hleft : tape.stream = left) :
    Agree R (some (.ok (got, tape))) (.ok (value, left)) := by
  rw [← hleft]
  exact .value h tape

theorem Agree.eq_of_error {R : α → β → Prop} {ended : Option (Except StreamFault (α × Tape))}
    {fault : StreamFault} (h : Agree R ended (.error fault)) : ended = some (.error fault) := by
  cases h
  rfl

theorem Agree.exists_of_ok {R : α → β → Prop} {ended : Option (Except StreamFault (α × Tape))}
    {value : β} {left : BitStream} (h : Agree R ended (.ok (value, left))) :
    ∃ got tape, ended = some (.ok (got, tape)) ∧ R got value ∧ tape.stream = left := by
  cases h with
  | value h tape => exact ⟨_, tape, rfl, h, rfl⟩

/-- On every tape the checked computation comes to a result, and to that of the reading. -/
def Follows (R : α → β → Prop) (checked : Checked α) (reading : BitRead β) : Prop :=
  ∀ tape : Tape, Agree R (checked tape) (reading tape.stream)

variable {R : α → β → Prop} {S : γ → δ → Prop}

theorem follows_pure {got : α} {value : β} (h : R got value) : Follows R (pure got) (pure value) :=
  fun tape => .value h tape

theorem follows_throw (fault : StreamFault) : Follows R (throw fault) (throw fault) :=
  fun _ => .fault fault

theorem Follows.bind {checked : Checked α} {reading : BitRead β} {next : α → Checked γ}
    {further : β → BitRead δ} (h : Follows R checked reading)
    (hnext : ∀ got value, R got value → Follows S (next got) (further value)) :
    Follows S (checked >>= next) (reading >>= further) := by
  intro tape
  have hfirst := h tape
  show Agree S (Option.bind (checked tape) (ExceptT.bindCont fun taken => next taken.1 taken.2))
    ((reading tape.stream).bind fun taken => further taken.1 taken.2)
  generalize checked tape = ended, reading tape.stream = told at hfirst
  cases hfirst with
  | fault fault => exact .fault fault
  | value hrelated tape => exact hnext _ _ hrelated tape

theorem Follows.ite {p q : Prop} [Decidable p] [Decidable q] {yes no : Checked α}
    {readYes readNo : BitRead β} (hiff : p ↔ q) (hyes : q → Follows R yes readYes)
    (hno : ¬ q → Follows R no readNo) :
    Follows R (if p then yes else no) (if q then readYes else readNo) := by
  by_cases hq : q
  · rw [if_pos hq, if_pos (hiff.mpr hq)]
    exact hyes hq
  · rw [if_neg hq, if_neg (mt hiff.mp hq)]
    exact hno hq

/-- What is so of every value that the reading yields may be added to the relation. -/
theorem Follows.and {checked : Checked α} {reading : BitRead β} {P : β → Prop}
    (h : Follows R checked reading)
    (hvalue : ∀ stream value left, reading stream = .ok (value, left) → P value) :
    Follows (fun got value => R got value ∧ P value) checked reading := by
  intro tape
  have hends := h tape
  cases htold : reading tape.stream with
  | error fault =>
      rw [htold] at hends
      rw [hends.eq_of_error]
      exact .fault fault
  | ok told =>
      obtain ⟨value, left⟩ := told
      rw [htold] at hends
      obtain ⟨got, next, hgot, hrelated, rfl⟩ := hends.exists_of_ok
      rw [hgot]
      exact .value ⟨hrelated, hvalue _ _ _ htold⟩ next

theorem demand_bind {value : Option α} {found : α} (h : value = some found) (next : α → Checked γ) :
    demand value >>= next = next found := by
  rw [h]
  rfl

/-! ### Bytes and bits -/

section Bits

variable {scheme : Compression} {tape between : Tape} {rest : List UInt8} {position : Nat}
  {pending : List Bool}

theorem bind_eq {first : Checked α} {value : α} (h : first tape = some (.ok (value, between)))
    (next : α → Checked γ) : (first >>= next) tape = next value between := by
  show Option.bind (first tape) _ = _
  rw [h]
  rfl

theorem bind_eq_fault {first : Checked α} {fault : StreamFault}
    (h : first tape = some (.error fault)) (next : α → Checked γ) :
    (first >>= next) tape = some (.error fault) := by
  show Option.bind (first tape) _ = _
  rw [h]
  rfl

/-- The bytes at the front of the stream lie in the array. -/
theorem take_eq (scheme : Compression) (front : List UInt8)
    (h : tape.stream = ⟨front ++ rest, position, pending⟩) :
    ∃ next, take scheme front.length tape = some (.ok (front.toArray, next))
      ∧ next.stream = ⟨rest, position + front.length, pending⟩ := by
  obtain ⟨⟨bytes, place, hplace⟩, bits⟩ := tape
  obtain ⟨hrest, rfl, rfl⟩ := BitStream.mk.inj h
  dsimp only at hrest hplace
  have hlength := congrArg List.length hrest
  rw [List.length_drop, List.length_append, Array.length_toList] at hlength
  have hroom : place + front.length ≤ bytes.size := by omega
  have hbytes : bytes.extract place (place + front.length) = front.toArray := by
    apply Array.toList_inj.mp
    rw [Array.toList_extract, List.extract_eq_take_drop, Nat.add_sub_cancel_left, hrest,
      List.take_left]
  have hleft : bytes.toList.drop (place + front.length) = rest := by
    rw [← List.drop_drop, hrest, List.drop_left]
  refine ⟨⟨⟨bytes, place + front.length, hroom⟩, bits⟩, ?_, ?_⟩
  · rw [take, dif_pos hroom, slice?, if_pos ⟨Nat.le_add_right _ _, hroom⟩, Option.map_some, hbytes]
  · rw [Tape.stream, hleft]

theorem take_eq_fault {count : Nat} (h : tape.stream = ⟨rest, position, pending⟩)
    (hshort : rest.length < count) :
    take scheme count tape = some (.error (.exhausted scheme position)) := by
  obtain ⟨⟨bytes, place, hplace⟩, bits⟩ := tape
  obtain ⟨rfl, rfl, rfl⟩ := BitStream.mk.inj h
  rw [List.length_drop, Array.length_toList] at hshort
  dsimp only at hshort hplace
  rw [take, dif_neg (by dsimp only; omega)]

theorem nextByte_eq (scheme : Compression) {byte : UInt8}
    (h : tape.stream = ⟨byte :: rest, position, pending⟩) :
    ∃ next, nextByte scheme tape = some (.ok (byte, next))
      ∧ next.stream = ⟨rest, position + 1, pending⟩ := by
  obtain ⟨next, htake, hstream⟩ := take_eq scheme [byte] h
  exact ⟨next, bind_eq htake _, hstream⟩

theorem nextByte_eq_fault (h : tape.stream = ⟨[], position, pending⟩) :
    nextByte scheme tape = some (.error (.exhausted scheme position)) :=
  bind_eq_fault (take_eq_fault h Nat.one_pos) _

theorem follows_nextByte (scheme : Compression) :
    Follows Eq (nextByte scheme) fun stream =>
      match stream.byte? with
      | some next => .ok next
      | none => .error (.exhausted scheme stream.position) := by
  intro tape
  rcases hstream : tape.stream with ⟨- | ⟨byte, rest⟩, position, pending⟩
  · rw [nextByte_eq_fault hstream]
    exact .fault _
  · obtain ⟨next, hbyte, hnext⟩ := nextByte_eq scheme hstream
    rw [hbyte]
    exact .of_stream_eq rfl hnext

/-- Bits are handed out alike when those that a refill takes are told in the same way. -/
theorem follows_nextBit {refill : Checked (List Bool)} {reading : BitRead Bool}
    (hpending : ∀ bit rest position pending,
      reading ⟨rest, position, bit :: pending⟩ = .ok (bit, ⟨rest, position, pending⟩))
    (hrefill : ∀ tape rest position, tape.stream = ⟨rest, position, []⟩ →
      Agree Eq ((refill >>= handOut) tape) (reading tape.stream)) :
    Follows Eq (nextBit refill) reading := by
  intro tape
  cases hbits : tape.pending with
  | nil =>
      rw [nextBit, hbits]
      exact hrefill tape _ _ (congrArg (BitStream.mk _ _) hbits)
  | cons bit pending =>
      have hstream : tape.stream = ⟨_, _, bit :: pending⟩ := congrArg (BitStream.mk _ _) hbits
      rw [nextBit, hbits, hstream, hpending]
      exact .of_stream_eq rfl rfl

theorem follows_tagBit (scheme : Compression) :
    Follows Eq (nextBit (tagBits scheme)) fun stream =>
      match stream.tagBit? with
      | some next => .ok next
      | none => .error (.exhausted scheme stream.position) := by
  refine follows_nextBit (fun _ _ _ _ => rfl) ?_
  intro tape rest position hstream
  rw [hstream]
  cases rest with
  | nil =>
      have htag : tagBits scheme tape = some (.error (.exhausted scheme position)) :=
        bind_eq_fault (nextByte_eq_fault hstream) _
      rw [bind_eq_fault htag]
      exact .fault _
  | cons tag rest =>
      obtain ⟨next, hbyte, hnext⟩ := nextByte_eq scheme hstream
      have htag : tagBits scheme tape = some (.ok (byteBits tag, next)) := bind_eq hbyte _
      rw [bind_eq htag]
      exact .of_stream_eq rfl (Tape.stream_withPending hnext _)

theorem follows_wordBit (scheme : Compression) :
    Follows Eq (nextBit (wordBits scheme)) fun stream =>
      match stream.wordBit? with
      | some next => .ok next
      | none => .error (.exhausted scheme stream.position) := by
  refine follows_nextBit (fun _ _ _ _ => rfl) ?_
  intro tape rest position hstream
  have hshort : rest.length < 2 →
      wordBits scheme tape = some (.error (.exhausted scheme position)) := fun hlt =>
    bind_eq_fault (take_eq_fault hstream hlt) _
  rw [hstream]
  match rest with
  | [] =>
      rw [bind_eq_fault (hshort Nat.two_pos)]
      exact .fault _
  | [_] =>
      rw [bind_eq_fault (hshort Nat.one_lt_two)]
      exact .fault _
  | low :: high :: rest =>
      obtain ⟨next, htake, hnext⟩ := take_eq scheme [low, high] hstream
      have hword : wordBits scheme tape = some (.ok (byteBits high ++ byteBits low, next)) :=
        bind_eq htake _
      rw [bind_eq hword]
      exact .of_stream_eq rfl (Tape.stream_withPending hnext _)

end Bits

end Checked
end AdLibModule
