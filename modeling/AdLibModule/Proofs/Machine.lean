import AdLibModule.Output
import AdLibModule.Proofs.Tape

/-! Unpacking as a machine that is at every moment somewhere in its run. Between two directives it
reads the next one; a copy is carried out byte by byte, from the place in the output at which it
begins. Neither of the packing schemes does anything else with its output, and they differ in how a
directive is read and in which copies are refused. -/

namespace AdLibModule

/-- What is to be done with the output. -/
inductive Directive where
  | put (byte : UInt8)
  /-- Append the `length` bytes that begin `distance` bytes before the end. -/
  | copy (distance length : Nat)
  | stop

/-- How a packing scheme reads the next directive, by what it has kept in mind of the directives
before, and which copies it refuses when so many bytes are written. -/
structure Unpacker (μ : Type) where
  read : μ → Checked (Directive × μ)
  refuses : (distance written : Nat) → Option StreamFault

inductive Phase where
  | reading
  /-- So many of `length` bytes are copied from those at `start`. -/
  | copying (start copied length : Nat)

structure Machine (μ : Type) where
  memory : μ
  tape : Tape
  out : Array UInt8
  phase : Phase

/-- What a step leads to. -/
inductive Outcome (μ : Type) where
  | next (machine : Machine μ)
  | answer (result : Except DecodeError (Array UInt8))

variable {μ : Type}

namespace Unpacker

variable (unpacker : Unpacker μ) (limit : Nat)

/-- Begins with what a directive says, for output that may not grow beyond `limit` bytes. -/
def carryOut (memory : μ) (tape : Tape) (out : Array UInt8) : Directive → Option (Outcome μ)
  | .stop => some (.answer (.ok out))
  | .put byte =>
    if limit ≤ out.size then some (.answer (.error (.sizeMismatch limit (out.size + 1))))
    else some (.next ⟨memory, tape, out.push byte, .reading⟩)
  | .copy distance length =>
    match unpacker.refuses distance out.size with
    | some fault => some (.answer (.error (.corruptStream fault)))
    | none =>
      if limit < out.size + length then
        some (.answer (.error (.sizeMismatch limit (out.size + length))))
      else do
        let start ← sub? out.size distance
        return .next ⟨memory, tape, out, .copying start 0 length⟩

/-- A step of the machine. There is none where the program would read outside an array or subtract
too much. -/
def step : Machine μ → Option (Outcome μ)
  | ⟨memory, tape, out, .reading⟩ => do
    match ← unpacker.read memory tape with
    | .error fault => return .answer (.error (.corruptStream fault))
    | .ok ((directive, memory), tape) => unpacker.carryOut limit memory tape out directive
  | ⟨memory, tape, out, .copying start copied length⟩ =>
    if copied < length then do
      let byte ← out[start + copied]?
      return .next ⟨memory, tape, out.push byte, .copying start (copied + 1) length⟩
    else
      return .next ⟨memory, tape, out, .reading⟩

/-- One machine is reached from the other by steps. -/
def Reaches : Machine μ → Machine μ → Prop :=
  Relation.ReflTransGen fun before after => unpacker.step limit before = some (.next after)

/-- The run from the machine comes to an end with the result, and on its way the output is never
longer than the limit. -/
inductive RunsTo (result : Except DecodeError (Array UInt8)) : Machine μ → Prop
  | answer {machine : Machine μ} (hroom : machine.out.size ≤ limit)
      (hstep : unpacker.step limit machine = some (.answer result)) : RunsTo result machine
  | next {machine after : Machine μ} (hroom : machine.out.size ≤ limit)
      (hstep : unpacker.step limit machine = some (.next after)) (hrest : RunsTo result after) :
      RunsTo result machine

variable {unpacker limit} {result : Except DecodeError (Array UInt8)} {machine after : Machine μ}

/-! ### What a run goes through -/

namespace RunsTo

theorem size_le (h : unpacker.RunsTo limit result machine) : machine.out.size ≤ limit := by
  cases h with
  | answer hroom hstep => exact hroom
  | next hroom hstep hrest => exact hroom

theorem step_ne_none (h : unpacker.RunsTo limit result machine) :
    unpacker.step limit machine ≠ none := by
  cases h with
  | answer hroom hstep => rw [hstep]; exact Option.some_ne_none _
  | next hroom hstep hrest => rw [hstep]; exact Option.some_ne_none _

theorem of_step (h : unpacker.RunsTo limit result machine)
    (hstep : unpacker.step limit machine = some (.next after)) :
    unpacker.RunsTo limit result after := by
  cases h with
  | answer hroom hanswer =>
      rw [hanswer] at hstep
      cases hstep
  | next hroom hnext hrest =>
      rw [hnext] at hstep
      cases hstep
      exact hrest

theorem of_reaches (h : unpacker.RunsTo limit result machine)
    (hreaches : unpacker.Reaches limit machine after) : unpacker.RunsTo limit result after := by
  induction hreaches with
  | refl => exact h
  | tail _ hstep ih => exact ih.of_step hstep

theorem exists_answer (h : unpacker.RunsTo limit result machine) :
    ∃ last, unpacker.Reaches limit machine last
      ∧ unpacker.step limit last = some (.answer result) := by
  induction h with
  | answer hroom hstep => exact ⟨_, .refl, hstep⟩
  | next hroom hstep hrest ih =>
      obtain ⟨last, hreaches, hanswer⟩ := ih
      exact ⟨last, .head hstep hreaches, hanswer⟩

end RunsTo

/-- Every machine that the run comes through can go on and has not written more than the limit, and in
the end the run answers the result. -/
structure Completes (unpacker : Unpacker μ) (limit : Nat)
    (result : Except DecodeError (Array UInt8)) (machine : Machine μ) : Prop where
  step_ne_none : ∀ after, unpacker.Reaches limit machine after → unpacker.step limit after ≠ none
  size_le : ∀ after, unpacker.Reaches limit machine after → after.out.size ≤ limit
  exists_answer : ∃ last, unpacker.Reaches limit machine last
    ∧ unpacker.step limit last = some (.answer result)

theorem RunsTo.completes (h : unpacker.RunsTo limit result machine) :
    unpacker.Completes limit result machine where
  step_ne_none _ hreaches := (h.of_reaches hreaches).step_ne_none
  size_le _ hreaches := (h.of_reaches hreaches).size_le
  exists_answer := h.exists_answer

/-! ### The runs of a directive -/

/-- What a directive makes of the output as a whole. -/
def perform (unpacker : Unpacker μ) (limit : Nat) (out : Array UInt8) :
    Directive → Except DecodeError (Array UInt8)
  | .stop => .ok out
  | .put byte =>
    if limit ≤ out.size then .error (.sizeMismatch limit (out.size + 1)) else .ok (out.push byte)
  | .copy distance length =>
    match unpacker.refuses distance out.size with
    | some fault => .error (.corruptStream fault)
    | none =>
      if limit < out.size + length then .error (.sizeMismatch limit (out.size + length))
      else .ok (Output.repeatBack out distance length)

variable {memory later : μ} {tape left : Tape} {out grown : Array UInt8} {directive : Directive}

/-- A copy reads bytes that are there: those before it, and then those that it has appended itself. -/
theorem runsTo_of_copying {start copied count distance : Nat}
    (hsize : out.size = start + copied + distance) (hpos : 1 ≤ distance)
    (hroom : out.size + count ≤ limit)
    (hrest : unpacker.RunsTo limit result
      ⟨memory, tape, Output.repeatBack out distance count, .reading⟩) :
    unpacker.RunsTo limit result ⟨memory, tape, out, .copying start copied (copied + count)⟩ := by
  induction count generalizing out copied with
  | zero =>
      refine .next (Nat.le_of_add_right_le hroom) ?_ hrest
      rw [step, Nat.add_zero, if_neg (Nat.lt_irrefl _)]
      rfl
  | succ count ih =>
      have hplace : start + copied < out.size := by omega
      have hbyte : out.getD (out.size - distance) 0 = out[start + copied] := by
        rw [hsize, Nat.add_sub_cancel, Array.getD, dif_pos hplace]
        rfl
      have hpushed : (out.push out[start + copied]).size = start + (copied + 1) + distance := by
        rw [Array.size_push]
        omega
      have hroom' : (out.push out[start + copied]).size + count ≤ limit := by
        rw [Array.size_push]
        omega
      rw [Output.repeatBack, hbyte] at hrest
      refine .next (Nat.le_of_add_right_le hroom) ?_ (ih hpushed hroom' hrest)
      rw [step, if_pos (by omega), Array.getElem?_eq_getElem hplace, Nat.add_right_comm copied 1,
        Nat.add_assoc copied]
      rfl

/-- The directive is read where the machine stands. -/
theorem step_of_read (hread : unpacker.read memory tape = some (.ok ((directive, later), left))) :
    unpacker.step limit ⟨memory, tape, out, .reading⟩
      = unpacker.carryOut limit later left out directive := by
  rw [step, hread]
  rfl

theorem runsTo_of_fault {fault : StreamFault} (hroom : out.size ≤ limit)
    (hread : unpacker.read memory tape = some (.error fault)) :
    unpacker.RunsTo limit (.error (.corruptStream fault)) ⟨memory, tape, out, .reading⟩ := by
  refine .answer hroom ?_
  rw [step, hread]
  rfl

theorem runsTo_of_stop (hroom : out.size ≤ limit)
    (hread : unpacker.read memory tape = some (.ok ((.stop, later), left))) :
    unpacker.RunsTo limit (.ok out) ⟨memory, tape, out, .reading⟩ :=
  .answer hroom (step_of_read hread)

theorem runsTo_of_perform_eq_error {error : DecodeError} (hroom : out.size ≤ limit)
    (hread : unpacker.read memory tape = some (.ok ((directive, later), left)))
    (hperform : unpacker.perform limit out directive = .error error) :
    unpacker.RunsTo limit (.error error) ⟨memory, tape, out, .reading⟩ := by
  refine .answer hroom ((step_of_read hread).trans ?_)
  cases directive with
  | stop => cases hperform
  | put byte =>
      rw [perform] at hperform
      split at hperform
      · rename_i hfull
        cases hperform
        exact if_pos hfull
      · cases hperform
  | copy distance length =>
      rw [carryOut]
      rw [perform] at hperform
      cases hrefuses : unpacker.refuses distance out.size with
      | some fault =>
          rw [hrefuses] at hperform
          cases hperform
          rfl
      | none =>
          rw [hrefuses] at hperform
          dsimp only at hperform ⊢
          split at hperform
          · rename_i hfull
            cases hperform
            exact if_pos hfull
          · cases hperform

theorem runsTo_of_perform (hroom : out.size ≤ limit) (hstop : directive ≠ .stop)
    (hread : unpacker.read memory tape = some (.ok ((directive, later), left)))
    (hperform : unpacker.perform limit out directive = .ok grown)
    (hcopy : ∀ distance length, directive = .copy distance length →
      unpacker.refuses distance out.size = none → 1 ≤ distance ∧ distance ≤ out.size)
    (hrest : unpacker.RunsTo limit result ⟨later, left, grown, .reading⟩) :
    unpacker.RunsTo limit result ⟨memory, tape, out, .reading⟩ := by
  cases directive with
  | stop => exact absurd rfl hstop
  | put byte =>
      rw [perform] at hperform
      split at hperform
      · cases hperform
      · rename_i hfull
        cases hperform
        exact .next hroom ((step_of_read hread).trans (if_neg hfull)) hrest
  | copy distance length =>
      rw [perform] at hperform
      cases hrefuses : unpacker.refuses distance out.size with
      | some fault =>
          rw [hrefuses] at hperform
          cases hperform
      | none =>
          obtain ⟨hpos, hle⟩ := hcopy _ _ rfl hrefuses
          rw [hrefuses] at hperform
          dsimp only at hperform
          split at hperform
          · cases hperform
          · rename_i hfull
            cases hperform
            have hbegin : unpacker.carryOut limit later left out (.copy distance length)
                = some (.next ⟨later, left, out, .copying (out.size - distance) 0 length⟩) := by
              rw [carryOut, hrefuses]
              dsimp only
              rw [if_neg hfull, sub?, if_pos hle]
              rfl
            have hsize : out.size = out.size - distance + 0 + distance := by omega
            have hcopying := runsTo_of_copying hsize hpos (Nat.le_of_not_lt hfull) hrest
            rw [Nat.zero_add] at hcopying
            exact .next hroom ((step_of_read hread).trans hbegin) hcopying

end Unpacker
end AdLibModule
