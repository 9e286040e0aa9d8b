import AdLibModule.Proofs.Aplib.Machine
import AdLibModule.Proofs.Aplib.RoundTrip
import AdLibModule.Proofs.Sixpack.Machine
import AdLibModule.Proofs.StreamFailure

/-! What unpacking comes to. Both decoders run to an end without a step that cannot be taken, and fail in
a few ways only; their outputs never outgrow the size of the block at any moment of the run, byte by
byte, so that filling one up with zeros cannot shorten it. -/

namespace AdLibModule

/-! ### Failures -/

/-- Both decoders fail in these ways only, and never for want of bytes in a file. On
arrays they never read outside one, never subtract too much and never find a high offset below its
bias: every machine that the run comes through can go on, up to the answer. -/
theorem failures_of_decode (source : Array UInt8) (limit : Nat) :
    (∀ error, Sixpack.decode source limit = .error error →
      Sixpack.Failure source.size limit error error.message
      ∧ ∀ offset needed available, error ≠ .truncated offset needed available)
    ∧ (∀ error, Aplib.decode source limit = .error error →
      Aplib.Failure source.size limit error error.message
      ∧ ∀ offset needed available, error ≠ .truncated offset needed available)
    ∧ Sixpack.unpacker.Completes limit (Sixpack.decode source limit) (Sixpack.machine source)
    ∧ (Aplib.unpacker limit).Completes limit (Aplib.decode source limit) (Aplib.machine source) := by
  refine ⟨fun error herror => ?_, fun error herror => ?_, ?_, ?_⟩
  · have hfailure := Sixpack.failure_of_decode herror
    refine ⟨hfailure, ?_⟩
    rintro offset needed available rfl
    cases hfailure
  · have hfailure := Aplib.failure_of_decode herror
    refine ⟨hfailure, ?_⟩
    rintro offset needed available rfl
    cases hfailure
  · exact (Sixpack.runsTo_decode source limit).completes
  · exact (Aplib.runsTo_decode source limit).completes

/-- Half a word, and a byte that is taken up from before the start. -/
theorem failures_of_decode_half_word :
    (Sixpack.decode #[7] 64 = .error (.corruptStream (.exhausted .sixpack 0))
      ∧ Sixpack.Failure 1 64 (.corruptStream (.exhausted .sixpack 0))
        "corrupt compressed stream: sixpack: input exhausted at byte 0")
    ∧ Aplib.decode #[65, 228] 16 = .error (.corruptStream (.offsetOutside 2 1))
      ∧ Aplib.Failure 2 16 (.corruptStream (.offsetOutside 2 1))
        "corrupt compressed stream: back-reference 2 before start of output (1 bytes written)" := by
  have hsixpack : Sixpack.decode #[7] 64 = .error (.corruptStream (.exhausted .sixpack 0)) := by
    have hread : Sixpack.readToken (Sixpack.Tree.initial : Sixpack.Tree UInt16)
        (BitStream.start #[7]) = .error (.exhausted .sixpack 0) := rfl
    rw [Sixpack.decode, Sixpack.decodeWith, Sixpack.decodeFrom, hread]
    rfl
  have haplib : Aplib.decode #[65, 228] 16 = .error (.corruptStream (.offsetOutside 2 1)) := by
    have hread : Aplib.readToken 16 false ⟨[228], 1, []⟩ = .ok (some (.single 2), ⟨[], 2, [false]⟩) :=
      rfl
    have happend : (⟨#[65], 0, false⟩ : Aplib.State).append 16 (.single 2)
        = .error (.corruptStream (.offsetOutside 2 1)) := rfl
    exact map_eq_error_iff.mpr (Aplib.decodeFrom_eq_error_of_append hread happend)
  exact ⟨⟨hsixpack, ((failures_of_decode #[7] 64).1 _ hsixpack).1⟩, haplib,
    ((failures_of_decode #[65, 228] 16).2.1 _ haplib).1⟩

/-! ### Sizes -/

/-- What unpacking to a size makes of a decoder's result: the output with zeros behind it, or the same
error. -/
structure Fills (size : Nat) (decoded unpacked : Except DecodeError (Array UInt8)) : Prop where
  ok_iff : ∀ block, unpacked = .ok block ↔ ∃ out, decoded = .ok out ∧ out.size ≤ size
    ∧ block = out ++ Array.replicate (size - out.size) 0
  error_iff : ∀ error, unpacked = .error error ↔ decoded = .error error

theorem fills_map_zeroFill {size : Nat} {decoded : Except DecodeError (Array UInt8)}
    (h : ∀ out, decoded = .ok out → out.size ≤ size) :
    Fills size decoded (decoded.map (Output.zeroFill · size)) where
  ok_iff block := by
    rw [map_eq_ok_iff]
    constructor
    · rintro ⟨out, hout, rfl⟩
      exact ⟨out, hout, h out hout, rfl⟩
    · rintro ⟨out, hout, -, rfl⟩
      exact ⟨out, hout, rfl⟩
  error_iff _ := map_eq_error_iff

theorem Compression.unpack_raw_eq_ok_iff {source block : Array UInt8} {size : Nat} :
    raw.unpack source size = .ok block ↔ source.size = size ∧ block = source := by
  rw [unpack]
  by_cases hsize : source.size = size
  · rw [if_pos hsize, Except.ok.injEq, and_iff_right hsize, eq_comm]
  · rw [if_neg hsize]
    constructor
    · intro h
      cases h
    · intro h
      exact absurd h.1 hsize

/-- Whatever the scheme, a block that is unpacked has the size that was asked for. A packed one is the
output of the decoder, which at every moment of its run keeps within the size, and zeros behind it;
unpacking fails just where the decoder does, with the same error. A block that is stored as it is must
have the size from the outset. -/
theorem unpack_loses_nothing (source : Array UInt8) (size : Nat) :
    (∀ scheme block, Compression.unpack scheme source size = .ok block → block.size = size)
    ∧ Fills size (Sixpack.decode source size) (Compression.sixpack.unpack source size)
    ∧ Sixpack.unpacker.Completes size (Sixpack.decode source size) (Sixpack.machine source)
    ∧ Fills size (Aplib.decode source size) (Compression.aplib.unpack source size)
    ∧ (Aplib.unpacker size).Completes size (Aplib.decode source size) (Aplib.machine source)
    ∧ ∀ block, Compression.raw.unpack source size = .ok block
      ↔ source.size = size ∧ block = source := by
  refine ⟨?_, ?_, ?_, ?_, ?_, ?_⟩
  · exact fun scheme block => Compression.size_of_unpack
  · exact fills_map_zeroFill fun out => Sixpack.size_of_decode
  · exact (Sixpack.runsTo_decode source size).completes
  · exact fills_map_zeroFill fun out => Aplib.size_of_decode
  · exact (Aplib.runsTo_decode source size).completes
  · exact fun block => Compression.unpack_raw_eq_ok_iff

theorem unpack_loses_nothing_abcabc :
    Compression.sixpack.unpack #[35, 212, 112, 231, 125, 10, 81] 8
      = .ok #[97, 98, 99, 97, 98, 99, 0, 0] := by
  obtain ⟨-, hfills, -⟩ := unpack_loses_nothing #[35, 212, 112, 231, 125, 10, 81] 8
  exact (hfills.ok_iff _).mpr ⟨_, Sixpack.decode_abcabc (by decide), by decide, rfl⟩

end AdLibModule
