import AdLibModule.Aplib.Encoder
import AdLibModule.Proofs.BitList
import AdLibModule.Proofs.BitStream
import AdLibModule.Proofs.Output
import Mathlib

/-! Reading back what the encoder wrote. The pieces that are still to come are told apart in the
stream by how many bits the last tag byte holds of them: these bits lie ahead of the bytes among
which they belong. -/

namespace AdLibModule.Aplib

open BitRead (yields_pure)

/-! ### Pieces in a stream -/

theorem length_leadingBits_le (count : Nat) (pieces : List Piece) :
    (leadingBits count pieces).length ≤ count := by
  fun_induction leadingBits count pieces with
  | case1 => exact Nat.le_refl 0
  | case2 => exact Nat.zero_le _
  | case3 count value pieces ih =>
      rw [List.length_cons]
      exact Nat.succ_le_succ ih
  | case4 count value pieces ih => exact ih

theorem leadingBits_byte (count : Nat) (value : UInt8) (pieces : List Piece) :
    leadingBits count (.byte value :: pieces) = leadingBits count pieces := by
  cases count with
  | zero => rw [leadingBits, leadingBits]
  | succ count => rfl

/-- The stream goes on with the pieces, and `held` of their bits are taken from it already. -/
structure HoldsBehind (held : Nat) (stream : BitStream) (pieces : List Piece) : Prop where
  rest : stream.rest = layOut held pieces
  pending : stream.pending
    = leadingBits held pieces ++ List.replicate (held - (leadingBits held pieces).length) false

/-- The stream goes on with the pieces. -/
def Holds (stream : BitStream) (pieces : List Piece) : Prop := ∃ held, HoldsBehind held stream pieces

/-- Reading takes these pieces and yields the value. -/
abbrev Says {α : Type} (reading : BitRead α) (pieces : List Piece) (value : α) : Prop :=
  reading.Yields Holds pieces value

theorem says_readByte (value : UInt8) : Says readByte [.byte value] value := by
  rintro ⟨bytes, position, pending⟩ rest ⟨held, hrest, hpending⟩
  rw [List.singleton_append, leadingBits_byte] at hpending
  have hbytes : bytes = value :: layOut held rest := by
    cases held <;> exact hrest
  cases hbytes
  exact ⟨_, rfl, held, rfl, hpending⟩

/-- Where no bit is held the tag byte stands next, and its other bits come from among the pieces behind
it. -/
theorem says_readBit (value : Bool) : Says readBit [.bit value] value := by
  rintro ⟨bytes, position, pending⟩ rest ⟨held, hrest, hpending⟩
  cases held with
  | succ held =>
      have hpending : pending = value :: (leadingBits held rest
          ++ List.replicate (held - (leadingBits held rest).length) false) := by
        rw [show pending = _ from hpending, List.singleton_append, leadingBits, List.length_cons,
          Nat.add_sub_add_right, List.cons_append]
      cases hpending
      exact ⟨_, rfl, held, hrest, rfl⟩
  | zero =>
      have hbytes : bytes = byteOfBits (value :: leadingBits 7 rest) :: layOut 7 rest := hrest
      have hempty : pending = [] := hpending
      have hshort := length_leadingBits_le 7 rest
      have htag : byteBits (byteOfBits (value :: leadingBits 7 rest))
          = value :: (leadingBits 7 rest
            ++ List.replicate (7 - (leadingBits 7 rest).length) false) := by
        rw [byteBits_byteOfBits, List.length_cons, List.take_succ_cons,
          List.take_of_length_le hshort, Nat.succ_sub_succ, List.cons_append]
      cases hbytes
      cases hempty
      generalize byteOfBits (value :: leadingBits 7 rest) = tag at htag
      obtain ⟨hfirst, hothers⟩ := List.cons.inj htag
      refine ⟨⟨layOut 7 rest, position + 1, (byteBits tag).tail⟩, ?_, 7, rfl, hothers⟩
      rw [← hfirst]
      rfl

/-- What a stream goes on with is read off it bit by bit and byte by byte. -/
structure IsReadOff (holds : BitStream → List Piece → Prop) : Prop where
  bit : ∀ value, readBit.Yields holds [.bit value] value
  byte : ∀ value, readByte.Yields holds [.byte value] value

theorem isReadOff_holds : IsReadOff Holds := ⟨says_readBit, says_readByte⟩

/-! ### Gamma numbers -/

theorem le_gammaLimit {n limit : Nat} (h : n ≤ 2 * limit) : n ≤ gammaLimit limit := by
  rw [gammaLimit]
  omega

theorem two_mul_div_add_testBit (n place : Nat) :
    2 * (n / 2 ^ (place + 1)) + (n.testBit place).toNat = n / 2 ^ place := by
  rw [Nat.toNat_testBit, Nat.pow_succ, ← Nat.div_div_eq_div_mul]
  omega

/-- A gamma number has a digit after the leading one. -/
theorem exists_log2_eq (n : Gamma) :
    ∃ place, n.val.log2 = place + 1 ∧ 1 = n.val / 2 ^ (place + 1) := by
  obtain ⟨n, hn⟩ := n
  have hne : n ≠ 0 := by omega
  have hplaces : 1 ≤ n.log2 := (Nat.le_log2 hne).mpr hn
  have hlow := Nat.log2_self_le hne
  have hhigh : n < 2 ^ (n.log2 + 1) := Nat.lt_log2_self
  rw [Nat.pow_succ] at hhigh
  refine ⟨n.log2 - 1, (Nat.sub_add_cancel hplaces).symm, ?_⟩
  rw [Nat.sub_add_cancel hplaces]
  refine (Nat.div_eq_of_lt_le ?_ ?_).symm
  · rwa [Nat.one_mul]
  · rwa [Nat.mul_comm]

section Gamma

variable {holds : BitStream → List Piece → Prop} (hholds : IsReadOff holds)
include hholds

theorem says_readDigits_step {limit leading value : Nat} (hpos : 0 < leading) {digit more : Bool}
    {pieces : List Piece} {result : Gamma} (hvalue : 2 * leading + digit.toNat = value)
    (hlimit : value ≤ gammaLimit limit)
    (hnext : BitRead.Yields holds
      (if more then readDigits limit value (by omega) else pure ⟨value, by omega⟩) pieces result) :
    (readDigits limit leading hpos).Yields holds (.bit digit :: .bit more :: pieces) result := by
  subst hvalue
  rw [readDigits]
  refine (hholds.bit digit).bind ?_
  rw [dif_neg (Nat.not_lt.mpr hlimit)]
  refine (hholds.bit more).bind ?_
  cases more <;> exact hnext

/-- With the digits above the place known, the pieces of the digits from there down give the
number. -/
theorem says_readDigits {limit n : Nat} (hlimit : n ≤ gammaLimit limit) (hn : 2 ≤ n)
    (place leading : Nat) (hpos : 0 < leading) (hleading : leading = n / 2 ^ (place + 1)) :
    (readDigits limit leading hpos).Yields holds
      ((List.range (place + 1)).reverse.flatMap
        fun place => [.bit (n.testBit place), .bit (place != 0)]) ⟨n, hn⟩ := by
  have hsmall : ∀ place, n / 2 ^ place ≤ gammaLimit limit := fun place =>
    Nat.le_trans (Nat.div_le_self _ _) hlimit
  induction place generalizing leading with
  | zero =>
      subst hleading
      refine says_readDigits_step hholds hpos (two_mul_div_add_testBit n 0) (hsmall 0) ?_
      simp only [Nat.pow_zero, Nat.div_one]
      exact yields_pure _
  | succ place ih =>
      subst hleading
      rw [List.range_succ, List.reverse_append, List.reverse_singleton, List.singleton_append,
        List.flatMap_cons]
      exact says_readDigits_step hholds hpos (two_mul_div_add_testBit n (place + 1)) (hsmall (place + 1))
        (ih _ _ rfl)

theorem says_readGamma {limit : Nat} (n : Gamma) (hlimit : n.val ≤ gammaLimit limit) :
    (readGamma limit).Yields holds (gammaPieces n) n := by
  obtain ⟨place, hplace, hleading⟩ := exists_log2_eq n
  rw [gammaPieces, hplace]
  exact says_readDigits hholds hlimit n.2 place 1 (by decide) hleading

theorem refuses_readDigits_of_lt {limit leading : Nat} (hpos : 0 < leading) {digit : Bool}
    (hlimit : gammaLimit limit < 2 * leading + digit.toNat) (pieces : List Piece) :
    (readDigits limit leading hpos).Refuses holds (.bit digit :: pieces) .gammaTooLarge := by
  rw [readDigits]
  refine (hholds.bit digit).bind_refuses ?_
  rw [dif_pos hlimit]
  exact BitRead.refuses_throw _

/-- A number beyond the limit is refused at its last digit, if not before. -/
theorem refuses_readDigits {limit n : Nat} (hlimit : gammaLimit limit < n) (place leading : Nat)
    (hpos : 0 < leading) (hleading : leading = n / 2 ^ (place + 1)) :
    (readDigits limit leading hpos).Refuses holds
      ((List.range (place + 1)).reverse.flatMap
        fun place => [.bit (n.testBit place), .bit (place != 0)]) .gammaTooLarge := by
  induction place generalizing leading with
  | zero =>
      subst hleading
      refine refuses_readDigits_of_lt hholds hpos ?_ _
      rwa [two_mul_div_add_testBit, Nat.pow_zero, Nat.div_one]
  | succ place ih =>
      subst hleading
      rw [List.range_succ, List.reverse_append, List.reverse_singleton, List.singleton_append,
        List.flatMap_cons]
      by_cases hbeyond : gammaLimit limit
          < 2 * (n / 2 ^ (place + 1 + 1)) + (n.testBit (place + 1)).toNat
      · exact refuses_readDigits_of_lt hholds hpos hbeyond _
      · rw [readDigits]
        refine (hholds.bit _).bind_refuses ?_
        rw [dif_neg hbeyond]
        exact (hholds.bit true).bind_refuses (ih _ _ (two_mul_div_add_testBit n (place + 1)))

theorem refuses_readGamma {limit : Nat} (n : Gamma) (hlimit : gammaLimit limit < n.val) :
    (readGamma limit).Refuses holds (gammaPieces n) .gammaTooLarge := by
  obtain ⟨place, hplace, hleading⟩ := exists_log2_eq n
  rw [gammaPieces, hplace]
  exact refuses_readDigits hholds hlimit place 1 (by decide) hleading

end Gamma

/-! ### Tokens -/

theorem offsetBias_bounds {afterMatch : Bool} :
    2 ≤ offsetBias afterMatch ∧ offsetBias afterMatch ≤ 3 := by
  cases afterMatch <;> decide

namespace Token

/-- The offset has room where it is stored, and a repetition is not right after a match. -/
def IsStorable (afterMatch : Bool) : Token → Prop
  | .literal _ | .zero | .long _ _ => True
  | .single offset => 1 ≤ offset ∧ offset ≤ 15
  | .short offset _ => 1 ≤ offset ∧ offset ≤ 127
  | .again _ => afterMatch = false

/-- The gamma numbers among the pieces of a token. -/
def gammas (afterMatch : Bool) : Token → List Nat
  | .literal _ | .zero | .single _ | .short _ _ => []
  | .long offset length => [offset / 256 + offsetBias afterMatch, length]
  | .again length => [2, length]

end Token

namespace State

/-- A stream can say the token next: what it refers to is written, its offset has room where it is
stored, and an offset is only repeated when there is one and the token before was no match. -/
def Admits (state : State) : Token → Prop
  | .literal _ | .zero => True
  | .single offset => 1 ≤ offset ∧ offset ≤ 15 ∧ offset ≤ state.out.size
  | .short offset _ => 1 ≤ offset ∧ offset ≤ 127 ∧ offset ≤ state.out.size
  | .long offset _ => 1 ≤ offset ∧ offset ≤ state.out.size
  | .again _ => state.afterMatch = false ∧ 1 ≤ state.lastOffset ∧ state.lastOffset ≤ state.out.size

/-- The state after a token, whatever the output may grow to. -/
def next : State → Token → State
  | ⟨out, lastOffset, _⟩, .literal value => ⟨out.push value, lastOffset, false⟩
  | ⟨out, lastOffset, _⟩, .zero => ⟨out.push 0, lastOffset, false⟩
  | ⟨out, lastOffset, _⟩, .single offset => ⟨Output.repeatBack out offset 1, lastOffset, false⟩
  | ⟨out, _, _⟩, .short offset isThree =>
    ⟨Output.repeatBack out offset (2 + isThree.toNat), offset, true⟩
  | ⟨out, _, _⟩, .long offset length =>
    ⟨Output.repeatBack out offset (length + lengthBonus offset), offset, true⟩
  | ⟨out, lastOffset, _⟩, .again length => ⟨Output.repeatBack out lastOffset length, lastOffset, true⟩

/-- What the tokens append to the output of the state. -/
def expand (state : State) (tokens : List Token) : Array UInt8 :=
  Aplib.expand state.out state.lastOffset tokens

theorem expand_cons (state : State) (token : Token) (tokens : List Token) :
    state.expand (token :: tokens) = (state.next token).expand tokens := by
  cases token <;> rfl

theorem afterMatch_next (state : State) (token : Token) :
    (state.next token).afterMatch = token.isMatch := by
  cases token <;> rfl

theorem put_eq {limit : Nat} {out : Array UInt8} (value : UInt8) (h : (out.push value).size ≤ limit) :
    put limit out value = .ok (out.push value) := by
  rw [Array.size_push] at h
  rw [put, if_neg (by omega)]

theorem copy_eq {limit offset length : Nat} {out : Array UInt8} (hpos : 1 ≤ offset)
    (hoffset : offset ≤ out.size) (h : (Output.repeatBack out offset length).size ≤ limit) :
    copy limit out offset length = .ok (Output.repeatBack out offset length) := by
  rw [Output.size_repeatBack] at h
  rw [copy, if_neg (by omega), if_neg (by omega)]

theorem append_eq {limit : Nat} {state : State} {token : Token} (h : state.Admits token)
    (hlimit : (state.next token).out.size ≤ limit) :
    state.append limit token = .ok (state.next token) := by
  obtain ⟨out, lastOffset, afterMatch⟩ := state
  cases token with
  | literal value => rw [append, put_eq value hlimit, Except.map, next]
  | zero => rw [append, put_eq 0 hlimit, Except.map, next]
  | single offset => rw [append, copy_eq h.1 h.2.2 hlimit, Except.map, next]
  | short offset isThree => rw [append, copy_eq h.1 h.2.2 hlimit, Except.map, next]
  | long offset length => rw [append, copy_eq h.1 h.2 hlimit, Except.map, next]
  | again length => rw [append, copy_eq h.2.1 h.2.2 hlimit, Except.map, next]

theorem size_le_size_expand (state : State) (tokens : List Token) :
    state.out.size ≤ (state.expand tokens).size := by
  induction tokens generalizing state with
  | nil => exact Nat.le_refl _
  | cons token tokens ih =>
      rw [expand_cons]
      refine Nat.le_trans ?_ (ih (state.next token))
      cases token <;> simp only [next, Array.size_push, Output.size_repeatBack] <;> omega

/-- A stream can say the tokens one after the other. -/
def AdmitsAll (state : State) : List Token → Prop
  | [] => True
  | token :: tokens => state.Admits token ∧ (state.next token).AdmitsAll tokens

theorem isStorable_of_admits {state : State} {token : Token} (h : state.Admits token) :
    token.IsStorable state.afterMatch := by
  cases token with
  | single offset => exact ⟨h.1, h.2.1⟩
  | short offset isThree => exact ⟨h.1, h.2.1⟩
  | again length => exact h.1
  | _ => trivial

/-- No gamma number of an admitted token is refused: offset and length are bounded by the output. -/
theorem gammas_le {limit : Nat} {state : State} {token : Token} (h : state.Admits token)
    (hlimit : (state.next token).out.size ≤ limit) :
    ∀ n ∈ token.gammas state.afterMatch, n ≤ gammaLimit limit := by
  obtain ⟨out, lastOffset, afterMatch⟩ := state
  cases token with
  | long offset length =>
      have hbias := (@offsetBias_bounds afterMatch).2
      have hlength := length.2
      obtain ⟨hpos, hoffset⟩ : 1 ≤ offset ∧ offset ≤ out.size := h
      rw [next, Output.size_repeatBack] at hlimit
      have hhigh : offset / 256 + offsetBias afterMatch ≤ 2 * limit := by omega
      have hlow : length.val ≤ 2 * limit := by omega
      simpa [Token.gammas] using ⟨le_gammaLimit hhigh, le_gammaLimit hlow⟩
  | again length =>
      have hlength := length.2
      rw [next, Output.size_repeatBack] at hlimit
      have htwo : 2 ≤ 2 * limit := by omega
      have hlow : length.val ≤ 2 * limit := by omega
      simpa [Token.gammas] using ⟨le_gammaLimit htwo, le_gammaLimit hlow⟩
  | _ => exact List.forall_mem_nil _

end State

/-- The end of the stream, with either of the bytes that give a short match the offset 0. -/
def closingPieces (last : UInt8) : List Piece := [.bit true, .bit true, .bit false, .byte last]

section Read

variable {holds : BitStream → List Piece → Prop} (hholds : IsReadOff holds) {limit : Nat}
  {afterMatch : Bool}
include hholds

theorem says_literal (value : UInt8) :
    (readToken limit afterMatch).Yields holds [.bit false, .byte value] (some (.literal value)) := by
  refine (hholds.bit false).bind ?_
  exact (hholds.byte value).last rfl

theorem says_again (length : Gamma) (htwo : 2 ≤ gammaLimit limit)
    (hlength : length ≤ gammaLimit limit) :
    (readToken limit false).Yields holds ([.bit true, .bit false] ++ gammaPieces 2 ++ gammaPieces length)
      (some (.again length)) := by
  rw [List.append_assoc]
  refine (hholds.bit true).bind ?_
  refine (hholds.bit false).bind ?_
  refine (says_readGamma hholds ⟨2, Nat.le_refl 2⟩ htwo).bind ?_
  exact (says_readGamma hholds length hlength).last rfl

theorem says_long (offset : Nat) (length : Gamma)
    (hhigh : offset / 256 + offsetBias afterMatch ≤ gammaLimit limit)
    (hlength : length ≤ gammaLimit limit) :
    (readToken limit afterMatch).Yields holds (Token.pieces afterMatch (.long offset length))
      (some (.long offset length)) := by
  have hbias : 2 ≤ offset / 256 + offsetBias afterMatch :=
    Nat.le_trans offsetBias_bounds.1 (Nat.le_add_left _ _)
  have hoffset : 256 * (offset / 256 + offsetBias afterMatch - offsetBias afterMatch)
      + (offset % 256).toUInt8.toNat = offset := by
    rw [Nat.add_sub_cancel, Nat.toUInt8, UInt8.toNat_ofNat_of_lt' (Nat.mod_lt _ (by decide)),
      Nat.div_add_mod]
  rw [Token.pieces, List.append_assoc, List.append_assoc]
  refine (hholds.bit true).bind ?_
  refine (hholds.bit false).bind ?_
  refine (says_readGamma hholds ⟨_, hbias⟩ hhigh).bind ?_
  rw [if_neg (Nat.not_lt.mpr (Nat.le_add_left _ _))]
  refine (hholds.byte _).bind ?_
  refine (says_readGamma hholds length hlength).last ?_
  rw [hoffset]

theorem says_short (offset : Nat) (isThree : Bool) (hpos : 1 ≤ offset)
    (hoffset : offset ≤ 127) :
    (readToken limit afterMatch).Yields holds (Token.pieces afterMatch (.short offset isThree))
      (some (.short offset isThree)) := by
  have hbyte : (2 * offset + isThree.toNat).toUInt8.toNat = 2 * offset + isThree.toNat := by
    refine UInt8.toNat_ofNat_of_lt' ?_
    have := isThree.toNat_lt
    show _ < 256
    omega
  refine (hholds.bit true).bind ?_
  refine (hholds.bit true).bind ?_
  refine (hholds.bit false).bind ?_
  refine (hholds.byte _).last ?_
  rw [hbyte]
  have hhalf : (2 * offset + isThree.toNat) / 2 = offset := by
    have := isThree.toNat_lt
    omega
  have hodd : ((2 * offset + isThree.toNat) % 2 == 1) = isThree := by
    rw [Nat.mul_add_mod]
    cases isThree <;> rfl
  rw [hhalf, hodd]
  dsimp only
  rw [if_neg (Nat.ne_of_gt hpos)]

/-- Four bits make an offset of up to 15; the offset 0 is a zero byte. -/
theorem says_nibble (offset : Nat) (hoffset : offset ≤ 15) :
    (readToken limit afterMatch).Yields holds (Token.pieces afterMatch (.single offset))
      (some (if offset = 0 then .zero else .single offset)) := by
  have hbits : 8 * (offset.testBit 3).toNat + 4 * (offset.testBit 2).toNat
      + 2 * (offset.testBit 1).toNat + (offset.testBit 0).toNat = offset := by
    simp only [Nat.toNat_testBit]
    omega
  refine (hholds.bit true).bind ?_
  refine (hholds.bit true).bind ?_
  refine (hholds.bit true).bind ?_
  refine (hholds.bit _).bind ?_
  refine (hholds.bit _).bind ?_
  refine (hholds.bit _).bind ?_
  refine (hholds.bit _).last ?_
  rw [hbits]

theorem says_end {last : UInt8} (hlast : last = 0 ∨ last = 1) :
    (readToken limit afterMatch).Yields holds (closingPieces last) none := by
  refine (hholds.bit true).bind ?_
  refine (hholds.bit true).bind ?_
  refine (hholds.bit false).bind ?_
  rcases hlast with rfl | rfl
  · exact (hholds.byte 0).last rfl
  · exact (hholds.byte 1).last rfl

/-- A token is read when there is room for its gamma numbers, even if there is none for what it
appends. -/
theorem says_token_of_isStorable {token : Token} (hstorable : token.IsStorable afterMatch)
    (hgammas : ∀ n ∈ token.gammas afterMatch, n ≤ gammaLimit limit) :
    (readToken limit afterMatch).Yields holds (token.pieces afterMatch) (some token) := by
  cases token with
  | literal value => exact says_literal hholds value
  | zero => exact says_nibble hholds 0 (Nat.zero_le 15)
  | single offset =>
      have hnibble := @says_nibble _ hholds limit afterMatch offset hstorable.2
      rwa [if_neg (Nat.ne_of_gt hstorable.1)] at hnibble
  | short offset isThree => exact says_short hholds offset isThree hstorable.1 hstorable.2
  | long offset length =>
      obtain ⟨hhigh, hlength⟩ : offset / 256 + offsetBias afterMatch ≤ gammaLimit limit
          ∧ length.val ≤ gammaLimit limit := by simpa [Token.gammas] using hgammas
      exact says_long hholds offset length hhigh hlength
  | again length =>
      obtain rfl : afterMatch = false := hstorable
      obtain ⟨htwo, hlength⟩ : 2 ≤ gammaLimit limit ∧ length.val ≤ gammaLimit limit := by
        simpa [Token.gammas] using hgammas
      exact says_again hholds length htwo hlength

theorem says_token {state : State} {token : Token} (h : state.Admits token)
    (hlimit : (state.next token).out.size ≤ limit) :
    (readToken limit state.afterMatch).Yields holds (token.pieces state.afterMatch) (some token) :=
  says_token_of_isStorable hholds (State.isStorable_of_admits h) (State.gammas_le h hlimit)

end Read

section Step

variable {limit : Nat} {state next : State} {token : Token} {stream left : BitStream}

theorem decodeFrom_eq_of_append (hread : readToken limit state.afterMatch stream = .ok (some token, left))
    (happend : state.append limit token = .ok next) :
    decodeFrom limit state stream = decodeFrom limit next left := by
  rw [decodeFrom, hread]
  dsimp only
  rw [happend]

theorem decodeFrom_eq_error_of_append {error : DecodeError}
    (hread : readToken limit state.afterMatch stream = .ok (some token, left))
    (happend : state.append limit token = .error error) :
    decodeFrom limit state stream = .error error := by
  rw [decodeFrom, hread]
  dsimp only
  rw [happend]

end Step

/-- The tokens are read one after the other, whatever follows the end of the stream. -/
theorem decodeFrom_piecesFrom {holds : BitStream → List Piece → Prop} (hholds : IsReadOff holds)
    {limit : Nat} {state : State} {tokens : List Token} {stream : BitStream} {last : UInt8}
    {more : List Piece} (h : state.AdmitsAll tokens) (hlast : last = 0 ∨ last = 1)
    (hlimit : (state.expand tokens).size ≤ limit)
    (hstream : holds stream (piecesFrom state.afterMatch tokens ++ (closingPieces last ++ more))) :
    ∃ left, decodeFrom limit state stream = .ok (state.expand tokens, left) ∧ holds left more := by
  induction tokens generalizing state stream with
  | nil =>
      rw [piecesFrom, List.nil_append] at hstream
      obtain ⟨left, hread, hleft⟩ := says_end hholds hlast stream more hstream
      refine ⟨left, ?_, hleft⟩
      rw [decodeFrom, hread]
      rfl
  | cons token tokens ih =>
      rw [State.expand_cons] at hlimit ⊢
      have hsize := Nat.le_trans ((state.next token).size_le_size_expand tokens) hlimit
      rw [piecesFrom, List.append_assoc, ← state.afterMatch_next token] at hstream
      obtain ⟨between, hread, hbetween⟩ := says_token hholds h.1 hsize stream _ hstream
      obtain ⟨left, hresult, hleft⟩ := ih h.2 hlimit hbetween
      exact ⟨left, (decodeFrom_eq_of_append hread (State.append_eq h.1 hsize)).trans hresult, hleft⟩

/-- The state in which the tokens begin, after the first byte. -/
def State.start (first : UInt8) : State := ⟨#[first], 0, false⟩

/-- The stream of a first byte and tokens is accepted within every limit that has room for their
output. -/
theorem decode_of_holds {holds : BitStream → List Piece → Prop} (hholds : IsReadOff holds)
    {source : Array UInt8} {first last : UInt8} {rest : List UInt8} {tokens : List Token}
    {more : List Piece} {limit : Nat} (hsource : source.toList = first :: rest)
    (h : (State.start first).AdmitsAll tokens) (hlast : last = 0 ∨ last = 1)
    (hlimit : ((State.start first).expand tokens).size ≤ limit)
    (hstream : holds ⟨rest, 1, []⟩ (piecesFrom false tokens ++ (closingPieces last ++ more))) :
    decode source limit = .ok ((State.start first).expand tokens) := by
  obtain ⟨left, hresult, -⟩ := decodeFrom_piecesFrom hholds h hlast hlimit hstream
  have hput : put limit #[] first = .ok #[first] := by
    have hone := Nat.le_trans ((State.start first).size_le_size_expand tokens) hlimit
    exact State.put_eq first hone
  have hread : readByte (.start source) = .ok (first, ⟨rest, 1, []⟩) := by
    rw [readByte, BitStream.start, hsource]
    rfl
  rw [decode, decodeStream, hread]
  dsimp only
  rw [hput]
  dsimp only
  rw [show decodeFrom limit ⟨#[first], 0, false⟩ _ = _ from hresult]
  rfl

theorem decode_encode_of_admitsAll {first : UInt8} {tokens : List Token} {limit : Nat}
    (h : (State.start first).AdmitsAll tokens)
    (hlimit : ((State.start first).expand tokens).size ≤ limit) :
    decode (encode first tokens) limit = .ok ((State.start first).expand tokens) := by
  have hstart : Holds ⟨layOut 0 (piecesFrom false tokens ++ endPieces), 1, []⟩
      (piecesFrom false tokens ++ (closingPieces 0 ++ [])) := by
    refine ⟨0, rfl, ?_⟩
    rw [leadingBits]
    rfl
  exact decode_of_holds isReadOff_holds rfl h (Or.inl rfl) hlimit hstart

/-! ### Runs -/

theorem expand_runTokens {last : UInt8} {data : List UInt8} {state : State} {before : List UInt8}
    (hout : state.out.toList = before ++ List.replicate 1 last) :
    state.AdmitsAll (runTokens last data)
      ∧ (state.expand (runTokens last data)).toList = state.out.toList ++ data := by
  fun_induction runTokens last data generalizing state before with
  | case1 => exact ⟨trivial, (List.append_nil _).symm⟩
  | case2 last byte rest run =>
      rename_i hrun ih
      have hpos : 1 ≤ state.out.size := by
        rw [← Array.length_toList, hout, List.length_append, List.length_replicate]
        omega
      have hnext : (state.next (.long 1 ⟨run - 2, by omega⟩)).out.toList
          = before ++ List.replicate (1 + run) last := by
        show (Output.repeatBack state.out 1 (run - 2 + 2)).toList = _
        rw [Nat.sub_add_cancel (by omega)]
        exact Output.toList_repeatBack_run hout (Nat.le_refl 1) (Nat.le_refl 1) run
      have hlast := hnext
      rw [Nat.add_comm, ← List.replicate_append_replicate, ← List.append_assoc] at hlast
      obtain ⟨hadmits, hexpand⟩ := ih hlast
      refine ⟨⟨⟨Nat.le_refl 1, hpos⟩, hadmits⟩, ?_⟩
      have hdata : List.replicate run last ++ rest.drop (run - 1) = byte :: rest :=
        replicate_append_drop (by omega) (Nat.le_refl run)
      rw [State.expand_cons, hexpand, hnext, hout]
      calc before ++ List.replicate (1 + run) last ++ rest.drop (run - 1)
          = before ++ List.replicate 1 last ++ (List.replicate run last ++ rest.drop (run - 1)) := by
            simp only [← List.replicate_append_replicate, List.append_assoc]
        _ = before ++ List.replicate 1 last ++ byte :: rest := by rw [hdata]
  | case3 last byte rest run =>
      rename_i hrun ih
      have hnext : (state.next (.literal byte)).out.toList = state.out.toList ++ [byte] :=
        Array.toList_push
      obtain ⟨hadmits, hexpand⟩ := @ih (state.next (.literal byte)) _ hnext
      refine ⟨⟨trivial, hadmits⟩, ?_⟩
      rw [State.expand_cons, hexpand, hnext, List.append_assoc, List.singleton_append]

/-- Tokens that can be said after a first byte are read back from the stream that says them, and so
is all data, unless there is none, from the stream that packs it. -/
theorem decode_encode_eq_expand :
    (∀ (first : UInt8) (tokens : List Token) (limit : Nat), (State.start first).AdmitsAll tokens →
      (expand #[first] 0 tokens).size ≤ limit →
      decode (encode first tokens) limit = .ok (expand #[first] 0 tokens))
    ∧ ∀ data : List UInt8, data ≠ [] → ∃ stream, pack data = some stream
      ∧ decode stream data.length = .ok data.toArray := by
  refine ⟨fun first tokens limit => decode_encode_of_admitsAll, fun data hdata => ?_⟩
  obtain ⟨first, rest, rfl⟩ := List.exists_cons_of_ne_nil hdata
  have hfirst : (State.start first).out.toList = [] ++ List.replicate 1 first := rfl
  obtain ⟨hadmits, hexpand⟩ := @expand_runTokens first rest (State.start first) _ hfirst
  have hdata : (State.start first).expand (runTokens first rest) = (first :: rest).toArray :=
    Array.toList_inj.mp hexpand
  refine ⟨_, rfl, ?_⟩
  rw [← hdata]
  refine decode_encode_of_admitsAll hadmits (Nat.le_of_eq ?_)
  rw [hdata, List.size_toArray]

theorem decode_encode_overlapping_long :
    (State.start 7).AdmitsAll [.long 1 ⟨2, Nat.le_refl 2⟩, .literal 9, .again ⟨2, Nat.le_refl 2⟩]
    ∧ decode (encode 7 [.long 1 ⟨2, Nat.le_refl 2⟩, .literal 9, .again ⟨2, Nat.le_refl 2⟩]) 8
      = .ok #[7, 7, 7, 7, 7, 9, 9, 9] := by
  have hadmits : (State.start 7).AdmitsAll
      [.long 1 ⟨2, Nat.le_refl 2⟩, .literal 9, .again ⟨2, Nat.le_refl 2⟩] :=
    ⟨⟨by decide, by decide⟩, trivial, ⟨by decide, by decide, by decide⟩, trivial⟩
  exact ⟨hadmits, decode_encode_eq_expand.1 7 _ 8 hadmits (by decide)⟩

end AdLibModule.Aplib
