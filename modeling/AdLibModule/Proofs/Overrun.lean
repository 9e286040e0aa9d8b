import AdLibModule.Proofs.Limit

/-! What becomes of a stream when there is less room than its output needs. It is read up to the token
with which the output exceeds the room, and fails there for the size that the output would have. In an
aPlib stream, however, a gamma number of that token can be too large to be read at all, and then the
stream counts as corrupt. -/

namespace AdLibModule

/-! ### Sixpack -/

namespace Sixpack

theorem Token.append_eq_sizeMismatch {token : Token} {limit : Nat} {out : Array UInt8}
    (hfits : token.Fits out.size) (hbeyond : limit < out.size + token.size) :
    token.append limit out = .error (.sizeMismatch limit (out.size + token.size)) := by
  cases token with
  | literal value => exact if_pos (Nat.le_of_lt_succ hbeyond)
  | copy length distance three_le =>
      rw [append, if_neg (Nat.not_lt.mpr hfits.2.2.2)]
      exact if_pos hbeyond

theorem exists_decodeFrom_eq_sizeMismatch {κ : Type} [Counter κ] {tree : Tree κ} {limit : Nat}
    {tokens : List Token} {out : Array UInt8} {stream : BitStream} {rest : List Bool}
    (hall : ∀ symbol, symbol ∈ tree.symbols) (hfit : FitFrom out.size tokens)
    (hout : out.size ≤ limit) (hbeyond : limit < (expand out tokens).size)
    (hbits : stream.wordBits = bitsFrom tree tokens ++ rest) :
    ∃ actual, limit < actual
      ∧ decodeFrom limit tree out stream = .error (.sizeMismatch limit actual) := by
  induction tokens generalizing tree out stream with
  | nil => exact absurd hbeyond (Nat.not_lt.mpr hout)
  | cons token tokens ih =>
      rw [bitsFrom, List.append_assoc] at hbits
      obtain ⟨between, hread, hbetween⟩ := says_token hall hfit.1 stream _ hbits
      by_cases hroom : out.size + token.size ≤ limit
      · obtain ⟨grown, happend, hsize, hexpand⟩ := Token.exists_append_eq hfit.1 hroom
        rw [decodeFrom_eq_of_append hread happend]
        exact ih (fun symbol => (tree.symbols_observe token.symbol).mem_iff.mpr (hall symbol))
          (hsize ▸ hfit.2) (hsize ▸ hroom) (hexpand tokens ▸ hbeyond) hbetween
      · have hexceeds : limit < out.size + token.size := Nat.lt_of_not_le hroom
        have happend := Token.append_eq_sizeMismatch hfit.1 hexceeds
        exact ⟨_, hexceeds, decodeFrom_eq_error_of_append hread happend⟩

theorem exists_decode_eq_sizeMismatch {source out : Array UInt8} {limit size : Nat}
    (hdecode : decode source limit = .ok out) (hsize : size < out.size) :
    ∃ actual, size < actual ∧ decode source size = .error (.sizeMismatch size actual) := by
  obtain ⟨-, tokens, hfit, rfl, rest, hbits⟩ := decode_eq_ok_iff.mp hdecode
  have hempty : (#[] : Array UInt8).size ≤ size := Nat.zero_le size
  have hwritten : FitFrom (#[] : Array UInt8).size tokens := hfit
  have hstart : (BitStream.start source).wordBits
      = bitsFrom (Tree.initial : Tree UInt16) tokens ++ rest := hbits.symm
  obtain ⟨actual, hactual, herror⟩ :=
    exists_decodeFrom_eq_sizeMismatch Tree.mem_symbols_initial hwritten hempty hsize hstart
  exact ⟨actual, hactual, map_eq_error_iff.mpr herror⟩

end Sixpack

/-! ### aPlib -/

namespace Aplib

namespace State

/-- Before the first byte of a stream, which counts as a literal here. -/
def empty : State := ⟨#[], 0, false⟩

/-- The state after the tokens, whatever the output may grow to. -/
def after (state : State) (tokens : List Token) : State := tokens.foldl next state

theorem out_after (state : State) (tokens : List Token) :
    (state.after tokens).out = state.expand tokens := by
  induction tokens generalizing state with
  | nil => rfl
  | cons token tokens ih =>
      rw [expand_cons, ← ih]
      rfl

/-- Output that has room at first and none in the end exceeds it with one of the tokens. -/
theorem exists_exceeding {limit : Nat} {state : State} {tokens : List Token}
    (hroom : state.out.size ≤ limit) (hbeyond : limit < (state.after tokens).out.size) :
    ∃ seen token later, tokens = seen ++ token :: later ∧ (state.after seen).out.size ≤ limit
      ∧ limit < ((state.after seen).next token).out.size := by
  induction tokens generalizing state with
  | nil => exact absurd hbeyond (Nat.not_lt.mpr hroom)
  | cons token tokens ih =>
      by_cases hnext : (state.next token).out.size ≤ limit
      · obtain ⟨seen, exceeding, later, rfl, hseen, hexceeds⟩ := ih hnext hbeyond
        exact ⟨token :: seen, exceeding, later, rfl, hseen, hexceeds⟩
      · exact ⟨[], token, tokens, rfl, hroom, Nat.lt_of_not_le hnext⟩

/-- What the reading fails for at a token with which the output exceeds the limit: its gamma numbers
are looked at before its size. -/
def overrun (limit : Nat) (state : State) (token : Token) : DecodeError :=
  if ∀ n ∈ token.gammas state.afterMatch, n ≤ gammaLimit limit then
    .sizeMismatch limit (state.next token).out.size
  else
    .corruptStream .gammaTooLarge

theorem put_eq_sizeMismatch {limit : Nat} {out : Array UInt8} {value : UInt8}
    (h : limit < (out.push value).size) :
    put limit out value = .error (.sizeMismatch limit (out.push value).size) := by
  rw [Array.size_push] at h ⊢
  exact if_pos (Nat.le_of_lt_succ h)

theorem copy_eq_sizeMismatch {limit offset length : Nat} {out : Array UInt8} (hpos : 1 ≤ offset)
    (hoffset : offset ≤ out.size) (h : limit < (Output.repeatBack out offset length).size) :
    copy limit out offset length
      = .error (.sizeMismatch limit (Output.repeatBack out offset length).size) := by
  rw [Output.size_repeatBack] at h ⊢
  rw [copy, if_neg (by omega), if_pos h]

theorem append_eq_sizeMismatch {limit : Nat} {state : State} {token : Token} (h : state.Admits token)
    (hbeyond : limit < (state.next token).out.size) :
    state.append limit token = .error (.sizeMismatch limit (state.next token).out.size) := by
  obtain ⟨out, lastOffset, afterMatch⟩ := state
  cases token with
  | literal value => exact map_eq_error_iff.mpr (put_eq_sizeMismatch hbeyond)
  | zero => exact map_eq_error_iff.mpr (put_eq_sizeMismatch hbeyond)
  | single offset => exact map_eq_error_iff.mpr (copy_eq_sizeMismatch h.1 h.2.2 hbeyond)
  | short offset isThree => exact map_eq_error_iff.mpr (copy_eq_sizeMismatch h.1 h.2.2 hbeyond)
  | long offset length => exact map_eq_error_iff.mpr (copy_eq_sizeMismatch h.1 h.2 hbeyond)
  | again length => exact map_eq_error_iff.mpr (copy_eq_sizeMismatch h.2.1 h.2.2 hbeyond)

end State

section Read

variable {holds : BitStream → List Piece → Prop} (hholds : IsReadOff holds) {limit : Nat}
include hholds

/-- A long match is given up at the first of its gamma numbers that is too large. -/
theorem refuses_token {afterMatch : Bool} {token : Token} (hstorable : token.IsStorable afterMatch)
    (hgammas : ¬ ∀ n ∈ token.gammas afterMatch, n ≤ gammaLimit limit) :
    (readToken limit afterMatch).Refuses holds (token.pieces afterMatch) .gammaTooLarge := by
  cases token with
  | long offset length =>
      have hbias : 2 ≤ offset / 256 + offsetBias afterMatch :=
        Nat.le_trans offsetBias_bounds.1 (Nat.le_add_left _ _)
      rw [Token.pieces, List.append_assoc, List.append_assoc]
      refine (hholds.bit true).bind_refuses ?_
      refine (hholds.bit false).bind_refuses ?_
      by_cases hhigh : offset / 256 + offsetBias afterMatch ≤ gammaLimit limit
      · have hlength : gammaLimit limit < length.val := by
          simpa [Token.gammas, hhigh] using hgammas
        refine (says_readGamma hholds ⟨_, hbias⟩ hhigh).bind_refuses ?_
        rw [if_neg (Nat.not_lt.mpr (Nat.le_add_left _ _))]
        refine (hholds.byte _).bind_refuses ?_
        rw [← List.append_nil (gammaPieces length)]
        exact (refuses_readGamma hholds length hlength).bind _ _
      · exact (refuses_readGamma hholds ⟨_, hbias⟩ (Nat.lt_of_not_le hhigh)).bind _ _
  | again length =>
      obtain rfl : afterMatch = false := hstorable
      have htwo : 2 ≤ gammaLimit limit := by
        rw [gammaLimit]
        omega
      have hlength : gammaLimit limit < length.val := by
        simpa [Token.gammas, htwo] using hgammas
      rw [Token.pieces, List.append_assoc]
      refine (hholds.bit true).bind_refuses ?_
      refine (hholds.bit false).bind_refuses ?_
      refine (says_readGamma hholds ⟨2, Nat.le_refl 2⟩ htwo).bind_refuses ?_
      rw [← List.append_nil (gammaPieces length)]
      exact (refuses_readGamma hholds length hlength).bind _ _
  | _ => exact absurd (List.forall_mem_nil _) hgammas

/-- The tokens before it are carried out, and then the one with which the output exceeds the limit
fails. -/
theorem decodeFrom_eq_overrun {state : State} {seen later : List Token} {token : Token}
    {stream : BitStream} {more : List Piece} (h : state.AdmitsAll (seen ++ token :: later))
    (hroom : (state.after seen).out.size ≤ limit)
    (hbeyond : limit < ((state.after seen).next token).out.size)
    (hstream : holds stream (piecesFrom state.afterMatch (seen ++ token :: later) ++ more)) :
    decodeFrom limit state stream = .error ((state.after seen).overrun limit token) := by
  induction seen generalizing state stream with
  | nil =>
      obtain ⟨hadmits, -⟩ := h
      rw [List.nil_append, piecesFrom, List.append_assoc] at hstream
      have hstorable := State.isStorable_of_admits hadmits
      show _ = Except.error (state.overrun limit token)
      rw [State.overrun]
      split
      · rename_i hgammas
        obtain ⟨left, hread, -⟩ := says_token_of_isStorable hholds hstorable hgammas stream _ hstream
        exact decodeFrom_eq_error_of_append hread (State.append_eq_sizeMismatch hadmits hbeyond)
      · rename_i hgammas
        rw [decodeFrom, refuses_token hholds hstorable hgammas stream _ hstream]
  | cons first seen ih =>
      have hsize : (state.next first).out.size ≤ limit := by
        refine Nat.le_trans ((state.next first).size_le_size_expand seen) ?_
        rwa [← State.out_after]
      rw [List.cons_append, piecesFrom, List.append_assoc, ← state.afterMatch_next first] at hstream
      obtain ⟨between, hread, hbetween⟩ := says_token hholds h.1 hsize stream _ hstream
      rw [decodeFrom_eq_of_append hread (State.append_eq h.1 hsize)]
      exact ih h.2 hroom hbeyond hbetween

end Read

/-- With this token, right behind those that were seen, the output of the stream exceeds the limit. -/
def Exceeds (source : Array UInt8) (limit : Nat) (seen : List Token) (token : Token) : Prop :=
  ∃ first rest tokens later, source.toList = first :: rest ∧ (State.start first).AdmitsAll tokens
    ∧ SaysTokens rest tokens ∧ .literal first :: tokens = seen ++ token :: later
    ∧ (State.empty.after seen).out.size ≤ limit
    ∧ limit < ((State.empty.after seen).next token).out.size

theorem Exceeds.decode_eq {source : Array UInt8} {limit : Nat} {seen : List Token} {token : Token}
    (h : Exceeds source limit seen token) :
    decode source limit = .error ((State.empty.after seen).overrun limit token) := by
  obtain ⟨first, rest, tokens, later, hsource, hall, hsays, hsplit, hroom, hbeyond⟩ := h
  have hread : readByte (.start source) = .ok (first, ⟨rest, 1, []⟩) := by
    rw [readByte, BitStream.start, hsource]
    rfl
  rw [decode, map_eq_error_iff, decodeStream, hread]
  dsimp only
  cases seen with
  | nil =>
      obtain ⟨rfl, -⟩ := List.cons.inj hsplit
      rw [State.put_eq_sizeMismatch hbeyond]
      exact congrArg Except.error (if_pos (List.forall_mem_nil _)).symm
  | cons literal seen =>
      obtain ⟨rfl, rfl⟩ := List.cons.inj hsplit
      have hone : (#[first] : Array UInt8).size ≤ limit := by
        refine Nat.le_trans ((State.start first).size_le_size_expand seen) ?_
        rwa [← State.out_after]
      rw [State.put_eq first hone]
      dsimp only
      obtain ⟨last, behind, more, hlast, hholds⟩ := hsays.exists_holdsBefore
      exact @decodeFrom_eq_overrun _ (isReadOff_holdsBefore behind) limit (State.start first) seen later
        token _ _ hall hroom hbeyond hholds

theorem exists_exceeds {source out : Array UInt8} {limit size : Nat}
    (hdecode : decode source limit = .ok out) (hsize : size < out.size) :
    ∃ seen token, Exceeds source size seen token := by
  obtain ⟨-, first, rest, tokens, hsource, hall, rfl, hsays⟩ := decode_eq_ok_iff.mp hdecode
  have hbeyond : size < (State.empty.after (.literal first :: tokens)).out.size := by
    rwa [State.out_after]
  obtain ⟨seen, token, later, hsplit, hroom, hexceeds⟩ :=
    State.exists_exceeding (Nat.zero_le size) hbeyond
  exact ⟨seen, token, first, rest, tokens, later, hsource, hall, hsays, hsplit, hroom, hexceeds⟩

end Aplib

/-- A block that is smaller than the output of its stream. Where the stream is accepted with more room,
it is the size that is wrong: always so in a sixpack stream, and in an aPlib stream unless a gamma number
of the token with which the output exceeds the block is refused first. -/
theorem unpack_below_size {source out : Array UInt8} {limit size : Nat} (hsize : size < out.size) :
    (Sixpack.decode source limit = .ok out → ∃ actual, size < actual
      ∧ Compression.sixpack.unpack source size = .error (.sizeMismatch size actual))
    ∧ (Aplib.decode source limit = .ok out → ∃ seen token, Aplib.Exceeds source size seen token
      ∧ Compression.aplib.unpack source size
        = .error ((Aplib.State.empty.after seen).overrun size token)) := by
  constructor
  · intro hdecode
    obtain ⟨actual, hactual, herror⟩ := Sixpack.exists_decode_eq_sizeMismatch hdecode hsize
    exact ⟨actual, hactual, map_eq_error_iff.mpr herror⟩
  · intro hdecode
    obtain ⟨seen, token, hexceeds⟩ := Aplib.exists_exceeds hdecode hsize
    exact ⟨seen, token, hexceeds, map_eq_error_iff.mpr hexceeds.decode_eq⟩

theorem unpack_below_size_of_repetition :
    (Sixpack.decode #[35, 212, 112, 231, 125, 10, 81] 6 = .ok #[97, 98, 99, 97, 98, 99]
      ∧ ∃ actual, 4 < actual
        ∧ Compression.sixpack.unpack #[35, 212, 112, 231, 125, 10, 81] 4
          = .error (.sizeMismatch 4 actual))
    ∧ Aplib.decode #[65, 81, 66, 2, 194, 13, 1, 99] 9 = .ok #[65, 66, 65, 66, 65, 66, 0, 66, 0]
    ∧ ∃ seen token, Aplib.Exceeds #[65, 81, 66, 2, 194, 13, 1, 99] 8 seen token
      ∧ Compression.aplib.unpack #[65, 81, 66, 2, 194, 13, 1, 99] 8
        = .error ((Aplib.State.empty.after seen).overrun 8 token) := by
  have hsixpack := Sixpack.decode_abcabc (Nat.le_refl 6)
  have haplib := Aplib.decode_repetition (Nat.le_refl 9)
  exact ⟨⟨hsixpack, (unpack_below_size (by decide)).1 hsixpack⟩, haplib,
    (unpack_below_size (by decide)).2 haplib⟩

/-- The stream says a byte and a run of eight more of it. The length of the run is written as 6. -/
theorem Aplib.admitsAll_run : (State.start 90).AdmitsAll [.long 1 ⟨6, by decide⟩]
    ∧ SaysTokens [172, 1, 192, 0] [.long 1 ⟨6, by decide⟩] :=
  ⟨⟨⟨by decide, by decide⟩, trivial⟩,
    0, Or.inl rfl, [false, false, false, false, false], [], by decide, by decide⟩

/-- With room for two bytes, 6 is more than a gamma number may be. -/
theorem not_forall_unpack_eq_sizeMismatch : ¬ ∀ (source out : Array UInt8) (limit size : Nat),
    Aplib.decode source limit = .ok out → size < out.size →
      ∃ actual, size < actual
        ∧ Compression.aplib.unpack source size = .error (.sizeMismatch size actual) := by
  intro hall
  obtain ⟨hadmits, hsays⟩ := Aplib.admitsAll_run
  have hdecode : Aplib.decode #[90, 172, 1, 192, 0] 9
      = .ok #[90, 90, 90, 90, 90, 90, 90, 90, 90] :=
    Aplib.decode_eq_ok_iff.mpr ⟨Nat.le_refl 9, 90, _, _, rfl, hadmits, by decide, hsays⟩
  have hexceeds : Aplib.Exceeds #[90, 172, 1, 192, 0] 2 [.literal 90] (.long 1 ⟨6, by decide⟩) :=
    ⟨90, _, _, [], rfl, hadmits, hsays, rfl, by decide, by decide⟩
  have hoverrun : (Aplib.State.empty.after [.literal 90]).overrun 2 (.long 1 ⟨6, by decide⟩)
      = .corruptStream .gammaTooLarge := by decide
  obtain ⟨actual, -, herror⟩ := hall _ _ 9 2 hdecode (by decide)
  rw [Compression.unpack, map_eq_error_iff, hexceeds.decode_eq, hoverrun] at herror
  cases herror

end AdLibModule
