import AdLibModule.Proofs.Aplib.RoundTrip
import AdLibModule.Proofs.PackedBlock

/-! What an accepted stream says. Every reading that succeeds has taken the pieces that the encoder
makes of its result, and pieces that were taken one after the other stand in the stream as they are
laid out. So the stream is the encoding of the tokens that were read, except for what no piece decides:
the last bit of the closing byte, and the bits of the last tag byte that are left over. -/

namespace AdLibModule.Aplib

/-! ### Taking pieces -/

/-- The pieces are what is read first from the stream, and then `left` is left of it. -/
inductive Spells : BitStream → List Piece → BitStream → Prop
  | nil (stream : BitStream) : Spells stream [] stream
  | bit {stream next left : BitStream} {value : Bool} {pieces : List Piece}
      (hread : readBit stream = .ok (value, next)) (hnext : Spells next pieces left) :
      Spells stream (.bit value :: pieces) left
  | byte {stream next left : BitStream} {value : UInt8} {pieces : List Piece}
      (hread : readByte stream = .ok (value, next)) (hnext : Spells next pieces left) :
      Spells stream (.byte value :: pieces) left

theorem Spells.append {stream between left : BitStream} {first second : List Piece}
    (hfirst : Spells stream first between) (hsecond : Spells between second left) :
    Spells stream (first ++ second) left := by
  induction hfirst with
  | nil stream => exact hsecond
  | bit hread _ ih => exact .bit hread (ih hsecond)
  | byte hread _ ih => exact .byte hread (ih hsecond)

theorem spells_bit {stream left : BitStream} {value : Bool}
    (h : readBit stream = .ok (value, left)) : Spells stream [.bit value] left :=
  .bit h (.nil left)

theorem spells_byte {stream left : BitStream} {value : UInt8}
    (h : readByte stream = .ok (value, left)) : Spells stream [.byte value] left :=
  .byte h (.nil left)

theorem readBit_extend {stream left : BitStream} {value : Bool}
    (h : readBit stream = .ok (value, left)) (more : List UInt8) :
    readBit (stream.extend more) = .ok (value, left.extend more) := by
  obtain ⟨bytes, position, pending⟩ := stream
  cases pending with
  | cons bit pending =>
      cases h
      rfl
  | nil =>
      cases bytes with
      | nil => cases h
      | cons tag bytes =>
          cases h
          rfl

theorem readByte_extend {stream left : BitStream} {value : UInt8}
    (h : readByte stream = .ok (value, left)) (more : List UInt8) :
    readByte (stream.extend more) = .ok (value, left.extend more) := by
  obtain ⟨bytes, position, pending⟩ := stream
  cases bytes with
  | nil => cases h
  | cons byte bytes =>
      cases h
      rfl

/-! ### Gamma numbers -/

/-- The digits that were read are those of the number below the leading ones. -/
theorem spells_of_readDigits {limit leading : Nat} {hpos : 0 < leading} {stream left : BitStream}
    {n : Gamma} (h : readDigits limit leading hpos stream = .ok (n, left)) :
    ∃ place, n.val / 2 ^ (place + 1) = leading ∧ Spells stream
      ((List.range (place + 1)).reverse.flatMap
        fun place => [.bit (n.val.testBit place), .bit (place != 0)]) left := by
  induction leading, hpos using readDigits.induct limit generalizing stream with
  | case1 leading hpos ih =>
      rw [readDigits] at h
      obtain ⟨digit, after, hdigit, hrest⟩ := BitRead.bind_eq_ok_iff.mp h
      have hbound := digit.toNat_lt
      split at hrest
      · cases hrest
      · rename_i hlimit
        obtain ⟨more, next, hmore, hrest⟩ := BitRead.bind_eq_ok_iff.mp hrest
        cases more with
        | false =>
            obtain ⟨rfl, rfl⟩ := BitRead.pure_eq_ok_iff.mp hrest
            refine ⟨0, by dsimp only; omega, ?_⟩
            have hlow : (2 * leading + digit.toNat).testBit 0 = digit := by
              rw [Nat.testBit_zero, Nat.mul_add_mod]
              cases digit <;> rfl
            show Spells stream ([.bit ((2 * leading + digit.toNat).testBit 0)] ++ [.bit false]) next
            rw [hlow]
            exact (spells_bit hdigit).append (spells_bit hmore)
        | true =>
            obtain ⟨place, hleading, hspells⟩ := ih digit hlimit hrest
            have hdigit' : n.val.testBit (place + 1) = digit := by
              rw [Nat.testBit_eq_decide_div_mod_eq, hleading, Nat.mul_add_mod]
              cases digit <;> rfl
            refine ⟨place + 1, ?_, ?_⟩
            · rw [Nat.pow_succ, ← Nat.div_div_eq_div_mul, hleading]
              omega
            · rw [List.range_succ, List.reverse_append, List.reverse_singleton, List.singleton_append,
                List.flatMap_cons, hdigit']
              exact ((spells_bit hdigit).append (spells_bit hmore)).append hspells

theorem spells_of_readGamma {limit : Nat} {stream left : BitStream} {n : Gamma}
    (h : readGamma limit stream = .ok (n, left)) : Spells stream (gammaPieces n) left := by
  obtain ⟨place, hleading, hspells⟩ := spells_of_readDigits h
  have hplace := Nat.two_pow_pos (place + 1)
  have hlog : n.val.log2 = place + 1 := by
    have hn := n.2
    rw [Nat.div_eq_iff hplace] at hleading
    rw [Nat.log2_eq_iff (by omega), Nat.pow_succ 2 (place + 1)]
    omega
  rwa [gammaPieces, hlog]

/-! ### Tokens -/

/-- What was read is a token that can be stored, or the end of the stream, and its pieces were
taken. -/
inductive TokenSpelled (afterMatch : Bool) (stream left : BitStream) : Option Token → Prop
  | token (token : Token) (hstorable : token.IsStorable afterMatch)
      (hspells : Spells stream (token.pieces afterMatch) left) :
      TokenSpelled afterMatch stream left (some token)
  | closing (last : UInt8) (hlast : last = 0 ∨ last = 1)
      (hspells : Spells stream (closingPieces last) left) : TokenSpelled afterMatch stream left none

/-! ### Reading a token -/

section Read

variable {limit : Nat} {afterMatch : Bool} {stream left : BitStream} {result : Option Token}

/-- A gamma number at the start of a long match is that of a repetition or holds the high part of an
offset. -/
theorem tokenSpelled_of_readMatch {start : BitStream}
    (hstart : Spells start [.bit true, .bit false] stream)
    (h : readMatch limit afterMatch stream = .ok (result, left)) :
    TokenSpelled afterMatch start left result := by
  rw [readMatch] at h
  obtain ⟨high, afterHigh, hhigh, hrest⟩ := BitRead.bind_eq_ok_iff.mp h
  have hgamma := hstart.append (spells_of_readGamma hhigh)
  have htwo := high.2
  split at hrest
  · rename_i hagain
    obtain ⟨length, afterLength, hlength, hpure⟩ := BitRead.bind_eq_ok_iff.mp hrest
    obtain ⟨rfl, rfl⟩ := BitRead.pure_eq_ok_iff.mp hpure
    have hafter : afterMatch = false := by
      cases afterMatch with
      | false => rfl
      | true => exact absurd hagain (Nat.not_lt.mpr htwo)
    have hvalue : high.val = 2 := by
      rw [hafter] at hagain
      exact Nat.le_antisymm (Nat.le_of_lt_succ hagain) htwo
    rw [hvalue] at hgamma
    exact .token _ hafter (hgamma.append (spells_of_readGamma hlength))
  · rename_i hbias
    obtain ⟨low, afterLow, hlow, hrest⟩ := BitRead.bind_eq_ok_iff.mp hrest
    obtain ⟨length, afterLength, hlength, hpure⟩ := BitRead.bind_eq_ok_iff.mp hrest
    obtain ⟨rfl, rfl⟩ := BitRead.pure_eq_ok_iff.mp hpure
    have hbyte := low.toNat_lt
    have hdiv : (256 * (high.val - offsetBias afterMatch) + low.toNat) / 256
        + offsetBias afterMatch = high.val := by omega
    have hmod : ((256 * (high.val - offsetBias afterMatch) + low.toNat) % 256).toUInt8 = low := by
      rw [Nat.mul_add_mod, Nat.mod_eq_of_lt hbyte, Nat.toUInt8, UInt8.ofNat_toNat]
    refine .token _ trivial ?_
    rw [Token.pieces, hdiv, hmod]
    exact (hgamma.append (spells_byte hlow)).append (spells_of_readGamma hlength)

/-- The byte of a short match holds its offset and, in the lowest bit, its length. -/
theorem tokenSpelled_of_readShort {start : BitStream}
    (hstart : Spells start [.bit true, .bit true, .bit false] stream)
    (h : readShort stream = .ok (result, left)) :
    TokenSpelled afterMatch start left result := by
  rw [readShort] at h
  obtain ⟨byte, afterByte, hbyte, hpure⟩ := BitRead.bind_eq_ok_iff.mp h
  obtain ⟨rfl, rfl⟩ := BitRead.pure_eq_ok_iff.mp hpure
  have hspells := hstart.append (spells_byte hbyte)
  have hlt := byte.toNat_lt
  split
  · rename_i hzero
    refine .closing byte ?_ hspells
    rcases Nat.le_one_iff_eq_zero_or_eq_one.mp (by omega : byte.toNat ≤ 1) with heq | heq
    · exact Or.inl (UInt8.toNat_inj.mp heq)
    · exact Or.inr (UInt8.toNat_inj.mp heq)
  · rename_i hpos
    have hsum : 2 * (byte.toNat / 2) + (byte.toNat % 2 == 1).toNat = byte.toNat := by
      rcases Nat.mod_two_eq_zero_or_one byte.toNat with heq | heq <;> rw [heq]
      · show 2 * (byte.toNat / 2) + 0 = _
        omega
      · show 2 * (byte.toNat / 2) + 1 = _
        omega
    refine .token _ ⟨by omega, by omega⟩ ?_
    rwa [Token.pieces, hsum, Nat.toUInt8, UInt8.ofNat_toNat]

theorem testBit_nibble (eight four two one : Bool) {n : Nat}
    (h : 8 * eight.toNat + 4 * four.toNat + 2 * two.toNat + one.toNat = n) :
    n ≤ 15 ∧ n.testBit 3 = eight ∧ n.testBit 2 = four ∧ n.testBit 1 = two ∧ n.testBit 0 = one := by
  subst h
  revert eight four two one
  decide

/-- Four bits spell the offset of a single byte, and no offset for a zero byte. -/
theorem tokenSpelled_of_readSingle {start : BitStream}
    (hstart : Spells start [.bit true, .bit true, .bit true] stream)
    (h : readSingle stream = .ok (result, left)) :
    TokenSpelled afterMatch start left result := by
  rw [readSingle] at h
  obtain ⟨eight, afterEight, height, hrest⟩ := BitRead.bind_eq_ok_iff.mp h
  obtain ⟨four, afterFour, hfour, hrest⟩ := BitRead.bind_eq_ok_iff.mp hrest
  obtain ⟨two, afterTwo, htwo, hrest⟩ := BitRead.bind_eq_ok_iff.mp hrest
  obtain ⟨one, afterOne, hone, hpure⟩ := BitRead.bind_eq_ok_iff.mp hrest
  obtain ⟨rfl, rfl⟩ := BitRead.pure_eq_ok_iff.mp hpure
  have hspells : Spells start [.bit true, .bit true, .bit true, .bit eight, .bit four, .bit two,
      .bit one] afterOne :=
    hstart.append (.bit height (.bit hfour (.bit htwo (spells_bit hone))))
  generalize hoffset : 8 * eight.toNat + 4 * four.toNat + 2 * two.toNat + one.toNat = offset
  obtain ⟨hle, rfl, rfl, rfl, rfl⟩ := testBit_nibble eight four two one hoffset
  split
  · rename_i hzero
    rw [hzero] at hspells
    exact .token _ trivial hspells
  · rename_i hpos
    exact .token _ ⟨Nat.pos_of_ne_zero hpos, hle⟩ hspells

theorem tokenSpelled_of_readToken (h : readToken limit afterMatch stream = .ok (result, left)) :
    TokenSpelled afterMatch stream left result := by
  rw [readToken] at h
  obtain ⟨isLonger, first, hfirst, hrest⟩ := BitRead.bind_eq_ok_iff.mp h
  have hspells := spells_bit hfirst
  cases isLonger with
  | false =>
      obtain ⟨byte, next, hbyte, hpure⟩ := BitRead.bind_eq_ok_iff.mp hrest
      obtain ⟨rfl, rfl⟩ := BitRead.pure_eq_ok_iff.mp hpure
      exact .token _ trivial (hspells.append (spells_byte hbyte))
  | true =>
      obtain ⟨isShort, second, hsecond, hrest⟩ := BitRead.bind_eq_ok_iff.mp hrest
      have hspells := hspells.append (spells_bit hsecond)
      cases isShort with
      | false => exact tokenSpelled_of_readMatch hspells hrest
      | true =>
          obtain ⟨isSingle, third, hthird, hrest⟩ := BitRead.bind_eq_ok_iff.mp hrest
          have hspells := hspells.append (spells_bit hthird)
          cases isSingle with
          | false => exact tokenSpelled_of_readShort hspells hrest
          | true => exact tokenSpelled_of_readSingle hspells hrest

end Read

namespace State

theorem eq_push_of_put {limit : Nat} {out grown : Array UInt8} {value : UInt8}
    (h : put limit out value = .ok grown) : grown = out.push value := by
  rw [put] at h
  split at h
  · cases h
  · cases h
    rfl

theorem eq_repeatBack_of_copy {limit offset length : Nat} {out grown : Array UInt8}
    (h : copy limit out offset length = .ok grown) :
    (1 ≤ offset ∧ offset ≤ out.size) ∧ grown = Output.repeatBack out offset length := by
  rw [copy] at h
  split at h
  · cases h
  · split at h
    · cases h
    · cases h
      exact ⟨by omega, rfl⟩

theorem admits_of_append {limit : Nat} {state next : State} {token : Token}
    (hstorable : token.IsStorable state.afterMatch) (h : state.append limit token = .ok next) :
    state.Admits token ∧ next = state.next token := by
  obtain ⟨out, lastOffset, afterMatch⟩ := state
  cases token <;> obtain ⟨grown, hgrown, rfl⟩ := map_eq_ok_iff.mp h
  case literal value => exact ⟨trivial, by rw [eq_push_of_put hgrown, State.next]⟩
  case zero => exact ⟨trivial, by rw [eq_push_of_put hgrown, State.next]⟩
  case single offset =>
    obtain ⟨hbounds, rfl⟩ := eq_repeatBack_of_copy hgrown
    exact ⟨⟨hbounds.1, hstorable.2, hbounds.2⟩, rfl⟩
  case short offset isThree =>
    obtain ⟨hbounds, rfl⟩ := eq_repeatBack_of_copy hgrown
    exact ⟨⟨hbounds.1, hstorable.2, hbounds.2⟩, rfl⟩
  case long offset length =>
    obtain ⟨hbounds, rfl⟩ := eq_repeatBack_of_copy hgrown
    exact ⟨hbounds, rfl⟩
  case again length =>
    obtain ⟨hbounds, rfl⟩ := eq_repeatBack_of_copy hgrown
    exact ⟨⟨hstorable, hbounds⟩, rfl⟩

end State

/-- What was read is a list of tokens, each of which was admitted after those before it, and the end;
and their pieces were taken. -/
theorem exists_spells_of_decodeFrom {limit : Nat} {state : State} {result : Array UInt8}
    {stream left : BitStream} (h : decodeFrom limit state stream = .ok (result, left)) :
    ∃ tokens last, (last = 0 ∨ last = 1) ∧ state.AdmitsAll tokens ∧ state.expand tokens = result
      ∧ Spells stream (piecesFrom state.afterMatch tokens ++ closingPieces last) left := by
  fun_induction decodeFrom limit state stream with
  | case1 => cases h
  | case2 state stream between hread =>
      cases h
      cases tokenSpelled_of_readToken hread with
      | closing last hlast hspells => exact ⟨[], last, hlast, trivial, rfl, hspells⟩
  | case3 => cases h
  | case4 state stream token between hread next hnext ih =>
      cases tokenSpelled_of_readToken hread with
      | token _ hstorable hspells =>
          obtain ⟨hadmits, rfl⟩ := State.admits_of_append hstorable hnext
          obtain ⟨tokens, last, hlast, hall, hexpand, hrest⟩ := ih h
          rw [State.afterMatch_next] at hrest
          refine ⟨token :: tokens, last, hlast, ⟨hadmits, hall⟩, ?_, ?_⟩
          · rw [State.expand_cons, hexpand]
          · rw [piecesFrom, List.append_assoc]
            exact hspells.append hrest

/-! ### Layout -/

/-- The data begin with the pieces as they are laid out, but the bits of the last tag byte that no
piece fills may be any bits. -/
def BeginsWith (data : List UInt8) (pieces : List Piece) : Prop :=
  ∃ (unused : List Bool) (rest : List UInt8),
    data = layOut 0 (pieces ++ unused.map .bit) ++ rest
    ∧ (layOut 0 (pieces ++ unused.map .bit)).length = (layOut 0 pieces).length

theorem layOut_byte (held : Nat) (value : UInt8) (pieces : List Piece) :
    layOut held (.byte value :: pieces) = value :: layOut held pieces := by
  cases held <;> rfl

theorem layOut_pending (bits : List Bool) : layOut bits.length (bits.map .bit) = [] := by
  induction bits with
  | nil => rfl
  | cons bit bits ih => exact ih

theorem leadingBits_pending (bits : List Bool) : leadingBits bits.length (bits.map .bit) = bits := by
  induction bits with
  | nil => rfl
  | cons bit bits ih => exact congrArg (bit :: ·) ih

theorem layOut_nil (held : Nat) : layOut held [] = [] := by
  cases held <;> rfl

/-- The pieces lie in the stream as they are laid out, with the bits that are still pending in `left`
behind them. -/
structure LaidOut (stream : BitStream) (pieces : List Piece) (left : BitStream) : Prop where
  rest_eq : stream.rest
    = layOut stream.pending.length (pieces ++ left.pending.map .bit) ++ left.rest
  pending_eq : stream.pending
    = leadingBits stream.pending.length (pieces ++ left.pending.map .bit)
  length_eq : (layOut stream.pending.length (pieces ++ left.pending.map .bit)).length
    = (layOut stream.pending.length pieces).length

namespace LaidOut

theorem nil (stream : BitStream) : LaidOut stream [] stream where
  rest_eq := by rw [List.nil_append, layOut_pending, List.nil_append]
  pending_eq := (leadingBits_pending stream.pending).symm
  length_eq := by rw [List.nil_append, layOut_pending, layOut_nil]

variable {stream next left : BitStream} {pieces : List Piece}

theorem byte {value : UInt8} (hread : readByte stream = .ok (value, next))
    (h : LaidOut next pieces left) : LaidOut stream (.byte value :: pieces) left := by
  obtain ⟨bytes, position, pending⟩ := stream
  cases bytes with
  | nil => cases hread
  | cons first bytes =>
      cases hread
      constructor
      · rw [List.cons_append, layOut_byte, List.cons_append]
        exact congrArg (value :: ·) h.rest_eq
      · rw [List.cons_append, leadingBits_byte]
        exact h.pending_eq
      · rw [List.cons_append, layOut_byte, layOut_byte, List.length_cons, List.length_cons]
        exact congrArg (· + 1) h.length_eq

/-- Where a tag byte is taken, its other bits are those that come first among the pieces behind. -/
theorem bit {value : Bool} (hread : readBit stream = .ok (value, next))
    (h : LaidOut next pieces left) : LaidOut stream (.bit value :: pieces) left := by
  obtain ⟨bytes, position, pending⟩ := stream
  cases pending with
  | cons first pending =>
      cases hread
      exact ⟨h.rest_eq, congrArg (value :: ·) h.pending_eq, h.length_eq⟩
  | nil =>
      cases bytes with
      | nil => cases hread
      | cons tag bytes =>
          cases hread
          have hpending : (byteBits tag).tail = leadingBits 7 (pieces ++ left.pending.map .bit) :=
            h.pending_eq
          have htag : byteOfBits (tag.toNat.testBit 7 ::
              leadingBits 7 (pieces ++ left.pending.map .bit)) = tag := by
            rw [← hpending]
            exact byteOfBits_byteBits tag
          refine ⟨?_, rfl, congrArg (· + 1) h.length_eq⟩
          show tag :: bytes = byteOfBits (tag.toNat.testBit 7 ::
            leadingBits 7 (pieces ++ left.pending.map .bit))
              :: layOut 7 (pieces ++ left.pending.map .bit) ++ left.rest
          rw [htag]
          exact congrArg (tag :: ·) h.rest_eq

end LaidOut

theorem Spells.laidOut {stream left : BitStream} {pieces : List Piece}
    (h : Spells stream pieces left) : LaidOut stream pieces left := by
  induction h with
  | nil stream => exact .nil stream
  | bit hread _ ih => exact .bit hread ih
  | byte hread _ ih => exact .byte hread ih

/-- The stream goes on with the pieces, and behind them come the bytes `rest`. -/
def HoldsBefore (rest : List UInt8) (stream : BitStream) (pieces : List Piece) : Prop :=
  ∃ start, Holds start pieces ∧ stream = start.extend rest

theorem isReadOff_holdsBefore (rest : List UInt8) : IsReadOff (HoldsBefore rest) where
  bit value := by
    rintro _ pieces ⟨start, hstart, rfl⟩
    obtain ⟨left, hread, hleft⟩ := says_readBit value start pieces hstart
    exact ⟨left.extend rest, readBit_extend hread rest, left, hleft, rfl⟩
  byte value := by
    rintro _ pieces ⟨start, hstart, rfl⟩
    obtain ⟨left, hread, hleft⟩ := says_readByte value start pieces hstart
    exact ⟨left.extend rest, readByte_extend hread rest, left, hleft, rfl⟩

theorem BeginsWith.exists_holdsBefore {data : List UInt8} {pieces : List Piece}
    (h : BeginsWith data pieces) :
    ∃ rest more, HoldsBefore rest ⟨data, 1, []⟩ (pieces ++ more) := by
  obtain ⟨unused, rest, rfl, -⟩ := h
  refine ⟨rest, unused.map .bit, ⟨layOut 0 (pieces ++ unused.map .bit), 1, []⟩, ⟨0, rfl, ?_⟩, rfl⟩
  rw [leadingBits]
  rfl

/-! ### Accepted streams -/

/-- What follows the first byte of a stream says the tokens and the end, whose byte is 0 or 1. -/
def SaysTokens (data : List UInt8) (tokens : List Token) : Prop :=
  ∃ last, (last = 0 ∨ last = 1) ∧ BeginsWith data (piecesFrom false tokens ++ closingPieces last)

theorem SaysTokens.exists_holdsBefore {data : List UInt8} {tokens : List Token}
    (h : SaysTokens data tokens) : ∃ last rest more, (last = 0 ∨ last = 1)
      ∧ HoldsBefore rest ⟨data, 1, []⟩ (piecesFrom false tokens ++ (closingPieces last ++ more)) := by
  obtain ⟨last, hlast, hbegins⟩ := h
  obtain ⟨rest, more, hholds⟩ := hbegins.exists_holdsBefore
  rw [List.append_assoc] at hholds
  exact ⟨last, rest, more, hlast, hholds⟩

section Same

variable {holds others : BitStream → List Piece → Prop} {limit : Nat} {state : State}
  {stream : BitStream} {tokens tokens' : List Token} {last last' : UInt8} {more more' : List Piece}

/-- Where a stream goes on with tokens and the end, the first of them is read, or the end. -/
theorem exists_readToken_eq (hholds : IsReadOff holds) (hlast : last = 0 ∨ last = 1)
    (h : state.AdmitsAll tokens) (hlimit : (state.expand tokens).size ≤ limit)
    (hstream : holds stream (piecesFrom state.afterMatch tokens ++ (closingPieces last ++ more))) :
    ∃ left, readToken limit state.afterMatch stream = .ok (tokens.head?, left)
      ∧ ∀ token rest, tokens = token :: rest →
        holds left (piecesFrom (state.next token).afterMatch rest ++ (closingPieces last ++ more)) := by
  cases tokens with
  | nil =>
      rw [piecesFrom, List.nil_append] at hstream
      obtain ⟨left, hread, -⟩ := says_end hholds hlast stream more hstream
      exact ⟨left, hread, fun token rest hnil => absurd hnil (List.cons_ne_nil token rest).symm⟩
  | cons token tokens =>
      rw [State.expand_cons] at hlimit
      have hsize := Nat.le_trans ((state.next token).size_le_size_expand tokens) hlimit
      rw [piecesFrom, List.append_assoc, ← state.afterMatch_next token] at hstream
      obtain ⟨left, hread, hleft⟩ := says_token hholds h.1 hsize stream _ hstream
      refine ⟨left, hread, ?_⟩
      rintro _ _ ⟨⟩
      exact hleft

/-- Two lists of tokens that the same stream goes on with are the same. -/
theorem eq_of_holds (hholds : IsReadOff holds) (hothers : IsReadOff others)
    (hlast : last = 0 ∨ last = 1) (hlast' : last' = 0 ∨ last' = 1)
    (h : state.AdmitsAll tokens) (h' : state.AdmitsAll tokens')
    (hlimit : (state.expand tokens).size ≤ limit) (hlimit' : (state.expand tokens').size ≤ limit)
    (hstream : holds stream (piecesFrom state.afterMatch tokens ++ (closingPieces last ++ more)))
    (hstream' : others stream
      (piecesFrom state.afterMatch tokens' ++ (closingPieces last' ++ more'))) :
    tokens = tokens' := by
  induction tokens generalizing state stream tokens' with
  | nil =>
      obtain ⟨_, hread, -⟩ := exists_readToken_eq hholds hlast h hlimit hstream
      obtain ⟨_, hread', -⟩ := exists_readToken_eq hothers hlast' h' hlimit' hstream'
      have hsame := Except.ok.inj (hread.symm.trans hread')
      exact (List.head?_eq_none_iff.mp (Prod.mk.inj hsame).1.symm).symm
  | cons token tokens ih =>
      obtain ⟨_, hread, hleft⟩ := exists_readToken_eq hholds hlast h hlimit hstream
      obtain ⟨_, hread', hleft'⟩ := exists_readToken_eq hothers hlast' h' hlimit' hstream'
      have hsame := Except.ok.inj (hread.symm.trans hread')
      obtain ⟨hhead, rfl⟩ := Prod.mk.inj hsame
      obtain ⟨rest, rfl⟩ := List.head?_eq_some_iff.mp hhead.symm
      rw [State.expand_cons] at hlimit hlimit'
      rw [ih h.2 h'.2 hlimit hlimit' (hleft _ _ rfl) (hleft' _ _ rfl)]

end Same

/-- A stream is accepted just when it says tokens that are admitted one after the other, and the
limit has room for their output. -/
theorem decode_eq_ok_iff {source out : Array UInt8} {limit : Nat} :
    decode source limit = .ok out ↔ out.size ≤ limit ∧ ∃ first rest tokens,
      source.toList = first :: rest ∧ (State.start first).AdmitsAll tokens
      ∧ expand #[first] 0 tokens = out ∧ SaysTokens rest tokens := by
  constructor
  · intro h
    refine ⟨size_of_decode h, ?_⟩
    obtain ⟨⟨result, left⟩, hdecode, rfl⟩ := map_eq_ok_iff.mp h
    rw [decodeStream, BitStream.start] at hdecode
    cases hsource : source.toList with
    | nil =>
        rw [hsource] at hdecode
        cases hdecode
    | cons first rest =>
        rw [hsource, show readByte ⟨first :: rest, 0, []⟩ = .ok (first, ⟨rest, 1, []⟩) from rfl]
          at hdecode
        dsimp only at hdecode
        split at hdecode
        · cases hdecode
        · rename_i grown hput
          obtain rfl := State.eq_push_of_put hput
          obtain ⟨tokens, last, hlast, hall, hexpand, hspells⟩ :=
            exists_spells_of_decodeFrom hdecode
          have hlaid := hspells.laidOut
          exact ⟨first, rest, tokens, rfl, hall, hexpand, last, hlast, _, left.rest,
            hlaid.rest_eq, hlaid.length_eq⟩
  · rintro ⟨hsize, first, rest, tokens, hsource, hall, rfl, hsays⟩
    obtain ⟨last, behind, more, hlast, hholds⟩ := hsays.exists_holdsBefore
    exact decode_of_holds (isReadOff_holdsBefore behind) hsource hall hlast hsize hholds

/-- An accepted stream has one reading: its output, which is within the limit, is that of exactly one
list of admitted tokens which the bytes after the first one say. -/
theorem existsUnique_admitted_tokens {source out : Array UInt8} {limit : Nat}
    (h : decode source limit = .ok out) :
    out.size ≤ limit ∧ ∃ first rest, source.toList = first :: rest
      ∧ ∃! tokens, (State.start first).AdmitsAll tokens ∧ expand #[first] 0 tokens = out
        ∧ SaysTokens rest tokens := by
  obtain ⟨hsize, first, rest, tokens, hsource, hall, hexpand, hsays⟩ := decode_eq_ok_iff.mp h
  refine ⟨hsize, first, rest, hsource, tokens, ⟨hall, hexpand, hsays⟩, ?_⟩
  rintro others ⟨hothers, hout, hsaid⟩
  obtain ⟨last, behind, more, hlast, hholds⟩ := hsays.exists_holdsBefore
  obtain ⟨last', behind', more', hlast', hholds'⟩ := hsaid.exists_holdsBefore
  have hroom : ((State.start first).expand tokens).size ≤ limit := by
    rwa [← hexpand] at hsize
  have hroom' : ((State.start first).expand others).size ≤ limit := by
    rwa [← hout] at hsize
  exact eq_of_holds (isReadOff_holdsBefore behind') (isReadOff_holdsBefore behind) hlast' hlast
    hothers hall hroom' hroom hholds' hholds

/-- The last tag byte has one bit more than is read, the closing byte is 1, and a byte is left over
behind it. -/
theorem decode_repetition {limit : Nat} (hlimit : 9 ≤ limit) :
    decode #[65, 81, 66, 2, 194, 13, 1, 99] limit = .ok #[65, 66, 65, 66, 65, 66, 0, 66, 0] := by
  have hall : (State.start 65).AdmitsAll
      [.literal 66, .long 2 ⟨2, Nat.le_refl 2⟩, .zero, .again ⟨2, Nat.le_refl 2⟩] :=
    ⟨trivial, ⟨by decide, by decide⟩, trivial, ⟨by decide, by decide, by decide⟩, trivial⟩
  have hsays : SaysTokens [81, 66, 2, 194, 13, 1, 99]
      [.literal 66, .long 2 ⟨2, Nat.le_refl 2⟩, .zero, .again ⟨2, Nat.le_refl 2⟩] :=
    ⟨1, Or.inr rfl, [true], [99], by decide, by decide⟩
  exact decode_eq_ok_iff.mpr ⟨hlimit, 65, _, _, rfl, hall, by decide, hsays⟩

theorem existsUnique_admitted_tokens_of_repetition :
    decode #[65, 81, 66, 2, 194, 13, 1, 99] 9 = .ok #[65, 66, 65, 66, 65, 66, 0, 66, 0]
    ∧ ∃ first rest, (#[65, 81, 66, 2, 194, 13, 1, 99] : Array UInt8).toList = first :: rest
      ∧ ∃! tokens, (State.start first).AdmitsAll tokens
        ∧ expand #[first] 0 tokens = #[65, 66, 65, 66, 65, 66, 0, 66, 0] ∧ SaysTokens rest tokens := by
  have hdecode := decode_repetition (Nat.le_refl 9)
  exact ⟨hdecode, (existsUnique_admitted_tokens hdecode).2⟩

end AdLibModule.Aplib
