import AdLibModule.Proofs.Sixpack.Accepted

/-! The ways in which unpacking a stream can fail. A stream ends where no whole unit of input is
left, so that the place that is reported is a matter of its size alone; copies are of the lengths
and distances that symbols can say; and nothing is carried out beyond the limit of the output. -/

namespace AdLibModule

/-! ### Readings confined to a property of streams -/

/-- From every stream with the property, the reading yields such a value and leaves a stream with the
property, or it finds such a fault. -/
def BitRead.Confined {α : Type} (holds : BitStream → Prop) (faults : StreamFault → Prop)
    (values : α → Prop) (reading : BitRead α) : Prop :=
  ∀ stream, holds stream → match reading stream with
    | .ok (value, left) => values value ∧ holds left
    | .error fault => faults fault

namespace BitRead

variable {α β : Type} {holds : BitStream → Prop} {faults : StreamFault → Prop} {P : α → Prop}
  {Q : β → Prop}

theorem confined_pure {value : α} (h : P value) : Confined holds faults P (pure value) :=
  fun _ hstream => ⟨h, hstream⟩

theorem confined_throw {fault : StreamFault} (h : faults fault) :
    Confined holds faults P (throw fault) :=
  fun _ _ => h

theorem Confined.bind {reading : BitRead α} {next : α → BitRead β}
    (h : Confined holds faults P reading)
    (hnext : ∀ value, P value → Confined holds faults Q (next value)) :
    Confined holds faults Q (reading >>= next) := by
  intro stream hstream
  have hfirst := h stream hstream
  show match (reading stream).bind fun taken => next taken.1 taken.2 with
    | .ok (value, left) => Q value ∧ holds left
    | .error fault => faults fault
  cases hread : reading stream with
  | error fault =>
      rw [hread] at hfirst
      exact hfirst
  | ok taken =>
      rw [hread] at hfirst
      exact hnext taken.1 hfirst.1 taken.2 hfirst.2

theorem confined_ite {p : Prop} [Decidable p] {yes no : BitRead α}
    (hyes : Confined holds faults P yes) (hno : Confined holds faults P no) :
    Confined holds faults P (if p then yes else no) := by
  by_cases hp : p
  · rwa [if_pos hp]
  · rwa [if_neg hp]

theorem Confined.of_ok {reading : BitRead α} {stream left : BitStream} {value : α}
    (h : Confined holds faults P reading) (hstream : holds stream)
    (hread : reading stream = .ok (value, left)) : P value ∧ holds left := by
  have hresult := h stream hstream
  rwa [hread] at hresult

theorem Confined.of_error {reading : BitRead α} {stream : BitStream} {fault : StreamFault}
    (h : Confined holds faults P reading) (hstream : holds stream)
    (hread : reading stream = .error fault) : faults fault := by
  have hresult := h stream hstream
  rwa [hread] at hresult

end BitRead

theorem StreamFault.message_exhausted {scheme : Compression} {text : String}
    (h : scheme.name ++ ": input exhausted at byte " = text) (offset : Nat) :
    (exhausted scheme offset).message = text ++ toString offset :=
  congrArg (· ++ toString offset) h

/-! ### Sixpack -/

namespace Sixpack

/-- The ways in which a stream of `size` bytes can fail to give at most `limit` bytes of output, and
the sentences that report them. -/
inductive Failure (size limit : Nat) : DecodeError → String → Prop
  /-- The stream ends; a byte left over at its end is not taken. -/
  | exhausted : Failure size limit (.corruptStream (.exhausted .sixpack (2 * (size / 2))))
      ("corrupt compressed stream: " ++ s!"sixpack: input exhausted at byte {2 * (size / 2)}")
  | distance {distance written : Nat} (hfar : written < distance) (hmin : 3 ≤ distance)
      (hmax : distance ≤ 22094) (hwritten : written ≤ limit) :
      Failure size limit (.corruptStream (.distanceTooLarge distance written))
        ("corrupt compressed stream: "
          ++ s!"sixpack: copy distance {distance} exceeds {written} bytes of output")
  | overrun {actual : Nat} (hover : limit < actual) (hmax : actual ≤ limit + 255) :
      Failure size limit (.sizeMismatch limit actual)
        s!"size mismatch: expected {limit} bytes, got {actual}"

/-- Words were taken from a stream of `size` bytes. -/
def Within (size : Nat) (stream : BitStream) : Prop :=
  stream.position + stream.rest.length = size ∧ stream.position % 2 = 0

abbrev Exhausted (size : Nat) (fault : StreamFault) : Prop :=
  fault = .exhausted .sixpack (2 * (size / 2))

theorem Within.exhausted {size : Nat} {stream : BitStream} (h : Within size stream)
    (hshort : stream.rest.length < 2) :
    Exhausted size (.exhausted .sixpack stream.position) := by
  obtain ⟨hlength, heven⟩ := h
  rw [Exhausted, show stream.position = 2 * (size / 2) by omega]

theorem confined_readBit (size : Nat) :
    readBit.Confined (Within size) (Exhausted size) fun _ => True := by
  rintro ⟨rest, position, - | ⟨bit, pending⟩⟩ h
  · match rest, h with
    | [], h => exact h.exhausted Nat.two_pos
    | [_], h => exact h.exhausted Nat.one_lt_two
    | low :: high :: rest, ⟨hlength, heven⟩ =>
        refine ⟨trivial, ?_, ?_⟩
        · rw [← hlength]
          simp only [List.length_cons]
          omega
        · dsimp only at heven ⊢
          omega
  · exact ⟨trivial, h⟩

theorem confined_readNumber (size width : Nat) :
    (readNumber width).Confined (Within size) (Exhausted size) (· < 2 ^ width) := by
  induction width with
  | zero => exact BitRead.confined_pure Nat.one_pos
  | succ width ih =>
      rw [readNumber]
      apply (confined_readBit size).bind
      intro bit _
      apply ih.bind
      intro high hhigh
      apply BitRead.confined_pure
      have hbit := bit.toNat_lt
      rw [Nat.pow_succ]
      omega

variable {κ : Type}

theorem confined_descend (size : Nat) (tree : Tree κ) (path : List (Frame κ)) :
    (tree.descend path).Confined (Within size) (Exhausted size) fun _ => True := by
  induction tree generalizing path with
  | leaf symbol count => exact BitRead.confined_pure trivial
  | fork count left right ihl ihr =>
      rw [Tree.descend]
      apply (confined_readBit size).bind
      intro bit _
      cases bit with
      | false => exact ihl _
      | true => exact ihr _

/-- The lengths and distances of the copies that symbols say. -/
def Token.InRange : Token → Prop
  | literal _ => True
  | copy length distance _ => length ≤ 255 ∧ 3 ≤ distance ∧ distance ≤ 22094

theorem Token.inRange_ofCopy {range : Range} (lengthIndex : Fin lengthCount) {place : Nat}
    (h : place < 2 ^ range.width) : (ofCopy range lengthIndex place).InRange := by
  have hlength := lengthIndex.isLt
  have hplace := Range.add_base_le h
  rw [ofCopy, InRange]
  simp only [lengthCount] at hlength
  omega

variable [Counter κ]

theorem confined_readToken (size : Nat) (tree : Tree κ) :
    (readToken tree).Confined (Within size) (Exhausted size)
      fun told => ∀ token ∈ told.1, token.InRange := by
  rw [readToken]
  apply (confined_descend size tree []).bind
  intro location _
  cases location.symbol.meaning with
  | literal value => exact BitRead.confined_pure (by rintro _ ⟨⟩; trivial)
  | stop => exact BitRead.confined_pure (by rintro _ ⟨⟩)
  | copy range lengthIndex =>
      apply (confined_readNumber size range.width).bind
      intro place hplace
      apply BitRead.confined_pure
      rintro _ ⟨⟩
      exact Token.inRange_ofCopy lengthIndex hplace

theorem failure_of_exhausted {size limit : Nat} {fault : StreamFault} (h : Exhausted size fault) :
    Failure size limit (.corruptStream fault) (DecodeError.corruptStream fault).message := by
  cases h
  have htext : Compression.sixpack.name ++ ": input exhausted at byte "
      = "sixpack: input exhausted at byte " := by decide
  show Failure size limit _ ("corrupt compressed stream: " ++ (StreamFault.exhausted _ _).message)
  rw [StreamFault.message_exhausted htext]
  exact .exhausted

theorem failure_of_append {size limit : Nat} {out : Array UInt8} {token : Token}
    {error : DecodeError} (hrange : token.InRange) (hroom : out.size ≤ limit)
    (h : token.append limit out = .error error) : Failure size limit error error.message := by
  cases token with
  | literal value =>
      rw [Token.append] at h
      split at h
      · cases h
        exact .overrun (by omega) (by omega)
      · cases h
  | copy length distance three_le =>
      obtain ⟨hlength, hmin, hmax⟩ := hrange
      rw [Token.append] at h
      split at h
      · rename_i hfar
        cases h
        exact .distance hfar hmin hmax hroom
      · split at h
        · rename_i hfull
          cases h
          exact .overrun hfull (by omega)
        · cases h

theorem failure_of_decodeFrom {size limit : Nat} {tree : Tree κ} {out : Array UInt8}
    {stream : BitStream} {error : DecodeError} (hstream : Within size stream)
    (hroom : out.size ≤ limit) (h : decodeFrom limit tree out stream = .error error) :
    Failure size limit error error.message := by
  fun_induction decodeFrom limit tree out stream with
  | case1 tree out stream fault hread =>
      cases h
      exact failure_of_exhausted ((confined_readToken size tree).of_error hstream hread)
  | case2 tree out stream next left hread => cases h
  | case3 tree out stream token next left hread error happend =>
      cases h
      obtain ⟨hrange, -⟩ := (confined_readToken size tree).of_ok hstream hread
      exact failure_of_append (hrange token rfl) hroom happend
  | case4 tree out stream token next left hread grown happend ih =>
      obtain ⟨-, hleft⟩ := (confined_readToken size tree).of_ok hstream hread
      exact ih hleft (Token.size_of_append happend).2 h

theorem failure_of_decode {source : Array UInt8} {limit : Nat} {error : DecodeError}
    (h : decode source limit = .error error) : Failure source.size limit error error.message := by
  have hstart : Within source.size (BitStream.start source) := by
    refine ⟨?_, rfl⟩
    rw [BitStream.start, Array.length_toList, Nat.zero_add]
  have hempty : (#[] : Array UInt8).size ≤ limit := Nat.zero_le limit
  exact failure_of_decodeFrom hstart hempty (map_eq_error_iff.mp h)

end Sixpack

/-! ### aPlib -/

namespace Aplib

/-- The ways in which a stream of `size` bytes can fail to give at most `limit` bytes of output, and
the sentences that report them. -/
inductive Failure (size limit : Nat) : DecodeError → String → Prop
  /-- The stream ends, all its bytes taken. -/
  | exhausted : Failure size limit (.corruptStream (.exhausted .aplib size))
      ("corrupt compressed stream: " ++ s!"aplib: input exhausted at byte {size}")
  | gamma : Failure size limit (.corruptStream .gammaTooLarge)
      ("corrupt compressed stream: " ++ "gamma code exceeds output size")
  | offset {offset written : Nat} (houtside : offset = 0 ∨ written < offset) :
      Failure size limit (.corruptStream (.offsetOutside offset written))
        ("corrupt compressed stream: "
          ++ s!"back-reference {offset} before start of output ({written} bytes written)")
  | overrun {actual : Nat} (hover : limit < actual) :
      Failure size limit (.sizeMismatch limit actual)
        s!"size mismatch: expected {limit} bytes, got {actual}"

/-- Bytes were taken from a stream of `size` bytes. -/
def Within (size : Nat) (stream : BitStream) : Prop :=
  stream.position + stream.rest.length = size

theorem Within.step {size position : Nat} {byte : UInt8} {rest : List UInt8}
    {pending bits : List Bool} (h : Within size ⟨byte :: rest, position, pending⟩) :
    Within size ⟨rest, position + 1, bits⟩ := by
  rw [Within, List.length_cons] at h
  rw [Within]
  dsimp only at h ⊢
  omega

/-- The faults of a stream of `size` bytes, whatever is in the output. -/
def Faulty (size : Nat) (fault : StreamFault) : Prop :=
  fault = .exhausted .aplib size ∨ fault = .gammaTooLarge

theorem confined_readByte (size : Nat) :
    readByte.Confined (Within size) (Faulty size) fun _ => True := by
  rintro ⟨- | ⟨byte, rest⟩, position, pending⟩ h
  · exact Or.inl (congrArg _ h)
  · exact ⟨trivial, h.step⟩

theorem confined_readBit (size : Nat) :
    readBit.Confined (Within size) (Faulty size) fun _ => True := by
  rintro ⟨rest, position, - | ⟨bit, pending⟩⟩ h
  · rcases rest with - | ⟨tag, rest⟩
    · exact Or.inl (congrArg _ h)
    · exact ⟨trivial, h.step⟩
  · exact ⟨trivial, h⟩

theorem confined_readDigits (size limit leading : Nat) (hpos : 0 < leading) :
    (readDigits limit leading hpos).Confined (Within size) (Faulty size) fun _ => True := by
  induction leading, hpos using readDigits.induct limit with
  | case1 leading hpos ih =>
      rw [readDigits]
      apply (confined_readBit size).bind
      intro digit _
      dsimp only
      by_cases hlimit : gammaLimit limit < 2 * leading + digit.toNat
      · rw [dif_pos hlimit]
        exact BitRead.confined_throw (Or.inr rfl)
      · rw [dif_neg hlimit]
        apply (confined_readBit size).bind
        intro more _
        cases more with
        | false => exact BitRead.confined_pure trivial
        | true => exact ih digit hlimit

theorem confined_readGamma (size limit : Nat) :
    (readGamma limit).Confined (Within size) (Faulty size) fun _ => True :=
  confined_readDigits size limit 1 Nat.one_pos

theorem confined_readToken (size limit : Nat) (afterMatch : Bool) :
    (readToken limit afterMatch).Confined (Within size) (Faulty size) fun _ => True := by
  rw [readToken]
  apply (confined_readBit size).bind
  intro _ _
  apply BitRead.confined_ite
  · apply (confined_readByte size).bind
    intro _ _
    exact BitRead.confined_pure trivial
  apply (confined_readBit size).bind
  intro _ _
  apply BitRead.confined_ite
  · apply (confined_readGamma size limit).bind
    intro high _
    apply BitRead.confined_ite
    · apply (confined_readGamma size limit).bind
      intro _ _
      exact BitRead.confined_pure trivial
    · apply (confined_readByte size).bind
      intro _ _
      apply (confined_readGamma size limit).bind
      intro _ _
      exact BitRead.confined_pure trivial
  apply (confined_readBit size).bind
  intro _ _
  apply BitRead.confined_ite
  · apply (confined_readByte size).bind
    intro _ _
    exact BitRead.confined_pure trivial
  · iterate 4
      apply (confined_readBit size).bind
      intro _ _
    exact BitRead.confined_pure trivial

theorem failure_of_faulty {size limit : Nat} {fault : StreamFault} (h : Faulty size fault) :
    Failure size limit (.corruptStream fault) (DecodeError.corruptStream fault).message := by
  have htext : Compression.aplib.name ++ ": input exhausted at byte "
      = "aplib: input exhausted at byte " := by decide
  rcases h with rfl | rfl
  · show Failure size limit _ ("corrupt compressed stream: " ++ (StreamFault.exhausted _ _).message)
    rw [StreamFault.message_exhausted htext]
    exact .exhausted
  · exact .gamma

theorem failure_of_put {size limit : Nat} {out : Array UInt8} {byte : UInt8} {error : DecodeError}
    (h : put limit out byte = .error error) : Failure size limit error error.message := by
  rw [put] at h
  split at h
  · cases h
    exact .overrun (by omega)
  · cases h

theorem failure_of_copy {size limit offset length : Nat} {out : Array UInt8} {error : DecodeError}
    (h : copy limit out offset length = .error error) : Failure size limit error error.message := by
  rw [copy] at h
  split at h
  · rename_i houtside
    cases h
    exact .offset houtside
  · split at h
    · rename_i hfull
      cases h
      exact .overrun hfull
    · cases h

theorem failure_of_append {size limit : Nat} {state : State} {token : Token} {error : DecodeError}
    (h : state.append limit token = .error error) : Failure size limit error error.message := by
  cases token with
  | literal value => exact failure_of_put (map_eq_error_iff.mp h)
  | zero => exact failure_of_put (map_eq_error_iff.mp h)
  | single offset => exact failure_of_copy (map_eq_error_iff.mp h)
  | short offset isThree => exact failure_of_copy (map_eq_error_iff.mp h)
  | long offset length => exact failure_of_copy (map_eq_error_iff.mp h)
  | again length => exact failure_of_copy (map_eq_error_iff.mp h)

theorem failure_of_decodeFrom {size limit : Nat} {state : State} {stream : BitStream}
    {error : DecodeError} (hstream : Within size stream)
    (h : decodeFrom limit state stream = .error error) :
    Failure size limit error error.message := by
  fun_induction decodeFrom limit state stream with
  | case1 state stream fault hread =>
      cases h
      exact failure_of_faulty ((confined_readToken size limit _).of_error hstream hread)
  | case2 state stream left hread => cases h
  | case3 state stream token left hread error happend =>
      cases h
      exact failure_of_append happend
  | case4 state stream token left hread next happend ih =>
      exact ih ((confined_readToken size limit _).of_ok hstream hread).2 h

theorem failure_of_decode {source : Array UInt8} {limit : Nat} {error : DecodeError}
    (h : decode source limit = .error error) : Failure source.size limit error error.message := by
  have hstart : Within source.size (BitStream.start source) := by
    rw [Within, BitStream.start, Array.length_toList, Nat.zero_add]
  have hstream : decodeStream source limit = .error error := map_eq_error_iff.mp h
  rw [decodeStream] at hstream
  cases hread : readByte (BitStream.start source) with
  | error fault =>
      rw [hread] at hstream
      cases hstream
      exact failure_of_faulty ((confined_readByte source.size).of_error hstart hread)
  | ok taken =>
      obtain ⟨first, stream⟩ := taken
      rw [hread] at hstream
      dsimp only at hstream
      cases hput : put limit #[] first with
      | error error =>
          rw [hput] at hstream
          cases hstream
          exact failure_of_put hput
      | ok out =>
          rw [hput] at hstream
          exact failure_of_decodeFrom ((confined_readByte source.size).of_ok hstart hread).2 hstream

end Aplib
/-! ### Blocks -/

/-- The stream cannot be read, or its output does not have the size of the block. -/
def DecodeError.IsPackFault : DecodeError → Prop
  | .corruptStream _ | .sizeMismatch _ _ => True
  | _ => False

theorem Sixpack.Failure.isPackFault {size limit : Nat} {error : DecodeError} {message : String}
    (h : Failure size limit error message) : error.IsPackFault := by
  cases h <;> trivial

theorem Aplib.Failure.isPackFault {size limit : Nat} {error : DecodeError} {message : String}
    (h : Failure size limit error message) : error.IsPackFault := by
  cases h <;> trivial

/-- A scheme that is known by name only is refused as such, and never comes to its stream. -/
theorem Compression.isPackFault_of_unpack {scheme : Compression} {source : Array UInt8} {size : Nat}
    {error : DecodeError} (hscheme : scheme.isSupported)
    (h : scheme.unpack source size = .error error) : error.IsPackFault := by
  cases scheme with
  | sixpack => exact (Sixpack.failure_of_decode (map_eq_error_iff.mp h)).isPackFault
  | aplib => exact (Aplib.failure_of_decode (map_eq_error_iff.mp h)).isPackFault
  | raw =>
      rw [unpack] at h
      split at h
      · cases h
      · cases h
        trivial
  | lzw => cases hscheme
  | lzss => cases hscheme

end AdLibModule
