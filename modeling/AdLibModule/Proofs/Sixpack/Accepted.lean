import AdLibModule.Proofs.PackedBlock
import AdLibModule.Proofs.Sixpack.RoundTrip

/-! What an accepted stream says. The bits that the reader has walked down to a leaf are the code of
the symbol at it, because no other leaf has that symbol; so the stream begins with the bits that the
encoder writes for the tokens that were read. No other tokens have their bits at the same place, since
to read them is to follow the same bits through the same codes. -/

namespace AdLibModule.Sixpack

/-! ### Symbols and numbers -/

theorem wordBits_of_readBit {stream left : BitStream} {bit : Bool}
    (h : readBit stream = .ok (bit, left)) : stream.wordBits = bit :: left.wordBits := by
  rw [readBit] at h
  split at h
  · rename_i taken htaken
    cases h
    exact BitStream.wordBits_of_wordBit?_eq_some htaken
  · cases h

theorem wordBits_of_readNumber {width n : Nat} {stream left : BitStream}
    (h : readNumber width stream = .ok (n, left)) :
    n < 2 ^ width ∧ stream.wordBits = numberBits width n ++ left.wordBits := by
  induction width generalizing stream n with
  | zero =>
      obtain ⟨rfl, rfl⟩ := BitRead.pure_eq_ok_iff.mp h
      exact ⟨Nat.one_pos, rfl⟩
  | succ width ih =>
      rw [readNumber] at h
      obtain ⟨bit, between, hbit, hrest⟩ := BitRead.bind_eq_ok_iff.mp h
      obtain ⟨high, after, hhigh, hpure⟩ := BitRead.bind_eq_ok_iff.mp hrest
      obtain ⟨rfl, rfl⟩ := BitRead.pure_eq_ok_iff.mp hpure
      obtain ⟨hlt, hbits⟩ := ih hhigh
      have hbound := bit.toNat_lt
      have hlow : ((bit.toNat + 2 * high) % 2 == 1) = bit := by
        rw [Nat.add_mul_mod_self_left]
        cases bit <;> rfl
      have hhalf : (bit.toNat + 2 * high) / 2 = high := by omega
      refine ⟨by rw [Nat.pow_succ]; omega, ?_⟩
      rw [numberBits, hlow, hhalf, wordBits_of_readBit hbit, hbits, List.cons_append]

/-- The leaf to which the bits lead is the one that is found for its symbol, and the bits are the
rest of the way to it. -/
theorem locate_of_descend {κ : Type} {node : Tree κ} {path : List (Frame κ)}
    {stream left : BitStream} {location : Location κ} (hnodup : node.symbols.Nodup)
    (h : node.descend path stream = .ok (location, left)) :
    node.locate location.symbol path = some location
      ∧ ∃ bits, location.code = (path.map Frame.isRight).reverse ++ bits
        ∧ stream.wordBits = bits ++ left.wordBits := by
  induction node generalizing path stream with
  | leaf symbol count =>
      obtain ⟨rfl, rfl⟩ := BitRead.pure_eq_ok_iff.mp h
      exact ⟨if_pos rfl, [], (List.append_nil _).symm, rfl⟩
  | fork count first second ihl ihr =>
      rw [Tree.descend] at h
      obtain ⟨bit, between, hbit, hrest⟩ := BitRead.bind_eq_ok_iff.mp h
      rw [Tree.symbols, List.nodup_append'] at hnodup
      obtain ⟨hfirst, hsecond, hdisjoint⟩ := hnodup
      rw [Tree.locate, wordBits_of_readBit hbit]
      cases bit with
      | false =>
          obtain ⟨hlocate, bits, hcode, hbits⟩ := ihl hfirst hrest
          rw [List.map_cons, List.reverse_cons, List.append_assoc] at hcode
          exact ⟨by rw [hlocate, Option.some_or], false :: bits, hcode, by rw [hbits]; rfl⟩
      | true =>
          obtain ⟨hlocate, bits, hcode, hbits⟩ := ihr hsecond hrest
          rw [List.map_cons, List.reverse_cons, List.append_assoc] at hcode
          have hthere : location.symbol ∈ second.symbols :=
            Tree.isSome_locate_iff.mp (Option.isSome_of_eq_some hlocate)
          have hnone : first.locate location.symbol (⟨false, count, second⟩ :: path) = none :=
            Option.not_isSome_iff_eq_none.mp fun hsome =>
              hdisjoint (Tree.isSome_locate_iff.mp hsome) hthere
          exact ⟨by rw [hnone, Option.none_or, hlocate], true :: bits, hcode, by rw [hbits]; rfl⟩

theorem wordBits_of_descend {κ : Type} [Counter κ] {tree : Tree κ} {stream left : BitStream}
    {location : Location κ} (hnodup : tree.symbols.Nodup)
    (h : tree.descend [] stream = .ok (location, left)) :
    stream.wordBits = tree.code location.symbol ++ left.wordBits
      ∧ location.observe = tree.observe location.symbol := by
  obtain ⟨hlocate, bits, hcode, hbits⟩ := locate_of_descend hnodup h
  rw [Tree.code, Tree.observe, hlocate]
  refine ⟨?_, rfl⟩
  rw [hbits]
  exact congrArg (· ++ left.wordBits) hcode.symm

theorem Symbol.symbol_meaning (symbol : Symbol) : symbol.meaning.symbol = symbol := by
  have hlt := symbol.isLt
  apply Fin.ext
  unfold Symbol.meaning
  split
  · rename_i hliteral
    show symbol.val.toUInt8.toNat = symbol.val
    rw [Nat.toUInt8, UInt8.toNat_ofNat_of_lt' hliteral]
  · split
    · rename_i hstop
      exact hstop.symm
    · show 257 + (symbol.val - 257) / lengthCount * lengthCount + (symbol.val - 257) % lengthCount
        = symbol.val
      simp only [lengthCount, symbolCount] at hlt ⊢
      omega

/-! ### Tokens -/

theorem Range.eq_of_six (range : Range) :
    range = 0 ∨ range = 1 ∨ range = 2 ∨ range = 3 ∨ range = 4 ∨ range = 5 := by
  revert range
  decide

/-- Ranges do not overlap. -/
theorem Range.of_add_base {range : Range} {place : Nat} (h : place < 2 ^ range.width) :
    Range.of (place + range.base) = range := by
  unfold Range.of
  repeat' split
  all_goals
    rcases range.eq_of_six with rfl | rfl | rfl | rfl | rfl | rfl <;>
      simp only [base, width] at * <;> omega

theorem Range.add_base_le {range : Range} {place : Nat} (h : place < 2 ^ range.width) :
    place + range.base ≤ 21839 := by
  rcases range.eq_of_six with rfl | rfl | rfl | rfl | rfl | rfl
  all_goals
    simp only [base, width] at h ⊢
    omega

namespace Token

variable {range : Range} {lengthIndex : Fin lengthCount} {place : Nat}

/-- The copy that a symbol and a place give is written by that symbol and that place. -/
theorem symbol_ofCopy (h : place < 2 ^ range.width) :
    (ofCopy range lengthIndex place).symbol = (Meaning.copy range lengthIndex).symbol
      ∧ (ofCopy range lengthIndex place).placeBits = numberBits range.width place := by
  have hextra : place + (lengthIndex.val + 3) + range.base - (lengthIndex.val + 3)
      = place + range.base := by omega
  constructor
  · rw [ofCopy, symbol, hextra, Range.of_add_base h, Nat.add_sub_cancel, Fin.ofNat_val_eq_self]
  · rw [ofCopy, placeBits, hextra, Range.of_add_base h, Nat.add_sub_cancel]

theorem fits_ofCopy {limit : Nat} {out grown : Array UInt8} (h : place < 2 ^ range.width)
    (happend : (ofCopy range lengthIndex place).append limit out = .ok grown) :
    (ofCopy range lengthIndex place).Fits out.size := by
  have hlength := lengthIndex.isLt
  have hplace := Range.add_base_le h
  rw [ofCopy, append] at happend
  split at happend
  · cases happend
  · rw [ofCopy, Fits]
    simp only [lengthCount] at hlength
    omega

theorem expand_cons_of_append {token : Token} {limit : Nat} {out grown : Array UInt8}
    (h : token.append limit out = .ok grown) (tokens : List Token) :
    grown.size = out.size + token.size ∧ expand out (token :: tokens) = expand grown tokens := by
  cases token with
  | literal value =>
      rw [append] at h
      split at h
      · cases h
      · cases h
        exact ⟨Array.size_push _, rfl⟩
  | copy length distance three_le =>
      rw [append] at h
      split at h
      · cases h
      · split at h
        · cases h
        · cases h
          exact ⟨Output.size_repeatBack _ _ _, rfl⟩

end Token

/-! ### Streams -/

section Stream

variable {κ : Type} [Counter κ] {tree next : Tree κ} {stream left : BitStream}

theorem wordBits_of_readToken_eq_none (hnodup : tree.symbols.Nodup)
    (h : readToken tree stream = .ok ((none, next), left)) :
    stream.wordBits = tree.code Meaning.stop.symbol ++ left.wordBits := by
  obtain ⟨location, between, hdescend, hrest⟩ := BitRead.bind_eq_ok_iff.mp h
  obtain ⟨hbits, -⟩ := wordBits_of_descend hnodup hdescend
  rw [← Symbol.symbol_meaning location.symbol] at hbits
  cases hmeaning : location.symbol.meaning with
  | literal value =>
      rw [hmeaning] at hrest
      cases (BitRead.pure_eq_ok_iff.mp hrest).1
  | stop =>
      rw [hmeaning] at hrest hbits
      rw [hbits, (BitRead.pure_eq_ok_iff.mp hrest).2]
  | copy range lengthIndex =>
      rw [hmeaning] at hrest
      obtain ⟨place, after, -, hpure⟩ := BitRead.bind_eq_ok_iff.mp hrest
      cases (BitRead.pure_eq_ok_iff.mp hpure).1

theorem wordBits_of_readToken_eq_some {token : Token} (hnodup : tree.symbols.Nodup)
    (h : readToken tree stream = .ok ((some token, next), left)) :
    next = tree.observe token.symbol
      ∧ stream.wordBits = tree.code token.symbol ++ token.placeBits ++ left.wordBits
      ∧ ∀ (limit : Nat) (out grown : Array UInt8), token.append limit out = .ok grown →
        token.Fits out.size := by
  obtain ⟨location, between, hdescend, hrest⟩ := BitRead.bind_eq_ok_iff.mp h
  obtain ⟨hbits, hobserve⟩ := wordBits_of_descend hnodup hdescend
  rw [hobserve] at hrest
  rw [← Symbol.symbol_meaning location.symbol] at hbits
  have hsymbol := Symbol.symbol_meaning location.symbol
  cases hmeaning : location.symbol.meaning with
  | literal value =>
      rw [hmeaning] at hrest hbits hsymbol
      obtain ⟨hresult, rfl⟩ := BitRead.pure_eq_ok_iff.mp hrest
      cases hresult
      refine ⟨congrArg tree.observe hsymbol.symm, ?_, fun _ _ _ _ => trivial⟩
      rw [hbits, Token.placeBits, List.append_nil, Token.symbol]
  | stop =>
      rw [hmeaning] at hrest
      cases (BitRead.pure_eq_ok_iff.mp hrest).1
  | copy range lengthIndex =>
      rw [hmeaning] at hrest hbits hsymbol
      obtain ⟨place, after, hplace, hpure⟩ := BitRead.bind_eq_ok_iff.mp hrest
      obtain ⟨hresult, rfl⟩ := BitRead.pure_eq_ok_iff.mp hpure
      cases hresult
      obtain ⟨hlt, hnumber⟩ := wordBits_of_readNumber hplace
      obtain ⟨hcopy, hplaceBits⟩ := @Token.symbol_ofCopy range lengthIndex place hlt
      refine ⟨congrArg tree.observe (hsymbol.symm.trans hcopy.symm), ?_,
        fun limit out grown => Token.fits_ofCopy hlt⟩
      rw [hbits, hnumber, hcopy, hplaceBits, List.append_assoc]

/-- What was read is a list of tokens, each of which fitted what those before it had written, and the
stream begins with their bits. -/
theorem exists_bitsFrom_of_decodeFrom {limit : Nat} {out result : Array UInt8}
    (hnodup : tree.symbols.Nodup) (h : decodeFrom limit tree out stream = .ok (result, left)) :
    ∃ tokens, FitFrom out.size tokens ∧ expand out tokens = result
      ∧ stream.wordBits = bitsFrom tree tokens ++ left.wordBits := by
  fun_induction decodeFrom limit tree out stream with
  | case1 => cases h
  | case2 tree out stream _ between hread =>
      cases h
      exact ⟨[], trivial, rfl, wordBits_of_readToken_eq_none hnodup hread⟩
  | case3 => cases h
  | case4 tree out stream token next between hread grown hgrown ih =>
      obtain ⟨rfl, hbits, hfits⟩ := wordBits_of_readToken_eq_some hnodup hread
      obtain ⟨tokens, hfit, hexpand, hrest⟩ := ih
        ((tree.symbols_observe token.symbol).nodup_iff.mpr hnodup) h
      obtain ⟨hsize, hcons⟩ := Token.expand_cons_of_append hgrown tokens
      refine ⟨token :: tokens, ⟨hfits limit out grown hgrown, hsize ▸ hfit⟩, hcons.trans hexpand, ?_⟩
      rw [hbits, hrest, bitsFrom, List.append_assoc, List.append_assoc, List.append_assoc]

/-- Two lists of tokens whose bits both stand at the beginning are the same. -/
theorem eq_of_bitsFrom_append_eq (hall : ∀ symbol, symbol ∈ tree.symbols) {written : Nat}
    {tokens others : List Token} (hfit : FitFrom written tokens) (hothers : FitFrom written others)
    {rest more : List Bool} (hstream : stream.wordBits = bitsFrom tree tokens ++ rest)
    (hbits : stream.wordBits = bitsFrom tree others ++ more) : tokens = others := by
  induction tokens generalizing tree written others stream with
  | nil =>
      obtain ⟨_, hstop, -⟩ := says_stop hall stream rest hstream
      cases others with
      | nil => rfl
      | cons other others =>
          rw [bitsFrom, List.append_assoc] at hbits
          obtain ⟨_, hread, -⟩ := says_token hall hothers.1 stream _ hbits
          cases hstop.symm.trans hread
  | cons token tokens ih =>
      rw [bitsFrom, List.append_assoc] at hstream
      obtain ⟨between, htoken, hbetween⟩ := says_token hall hfit.1 stream _ hstream
      cases others with
      | nil =>
          obtain ⟨_, hstop, -⟩ := says_stop hall stream more hbits
          cases htoken.symm.trans hstop
      | cons other others =>
          rw [bitsFrom, List.append_assoc] at hbits
          obtain ⟨after, hother, hafter⟩ := says_token hall hothers.1 stream _ hbits
          have hsame := htoken.symm.trans hother
          injection hsame with hsame
          obtain ⟨hpair, rfl⟩ := Prod.mk.inj hsame
          obtain rfl : token = other := Option.some.inj (Prod.mk.inj hpair).1
          have hrest : tokens = others := ih
            (fun symbol => (tree.symbols_observe token.symbol).mem_iff.mpr (hall symbol))
            hfit.2 hothers.2 hbetween hafter
          rw [hrest]

end Stream

/-- A stream is accepted just when it begins with the bits of tokens that fit, and the limit has room
for their output. -/
theorem decode_eq_ok_iff {source out : Array UInt8} {limit : Nat} :
    decode source limit = .ok out ↔ out.size ≤ limit ∧ ∃ tokens, FitFrom 0 tokens
      ∧ expand #[] tokens = out
      ∧ bitsFrom (Tree.initial : Tree UInt16) tokens <+: bitsOfWords source.toList := by
  constructor
  · intro h
    refine ⟨size_of_decode h, ?_⟩
    obtain ⟨⟨result, left⟩, hdecode, rfl⟩ := map_eq_ok_iff.mp h
    obtain ⟨tokens, hfit, hexpand, hbits⟩ :=
      exists_bitsFrom_of_decodeFrom Tree.nodup_symbols_initial hdecode
    exact ⟨tokens, hfit, hexpand, left.wordBits, hbits.symm⟩
  · rintro ⟨hsize, tokens, hfit, rfl, rest, hbits⟩
    have hwritten : FitFrom (#[] : Array UInt8).size tokens := hfit
    have hstart : (BitStream.start source).wordBits = bitsFrom Tree.initial tokens ++ rest :=
      hbits.symm
    obtain ⟨left, hresult, -⟩ :=
      decodeFrom_bitsFrom Tree.mem_symbols_initial hwritten hsize hstart
    rw [decode, decodeWith, hresult]
    rfl

/-- An accepted stream has one reading: its output, which is within the limit, is that of exactly one
list of tokens that fit and whose bits, with those of the end, the words of the stream begin with. -/
theorem existsUnique_tokens_of_decode {source out : Array UInt8} {limit : Nat}
    (h : decode source limit = .ok out) :
    out.size ≤ limit ∧ ∃! tokens, FitFrom 0 tokens ∧ expand #[] tokens = out
      ∧ bitsFrom (Tree.initial : Tree UInt16) tokens <+: bitsOfWords source.toList := by
  obtain ⟨hsize, tokens, hfit, hexpand, hbits⟩ := decode_eq_ok_iff.mp h
  refine ⟨hsize, tokens, ⟨hfit, hexpand, hbits⟩, ?_⟩
  rintro others ⟨hothers, -, more, hmore⟩
  obtain ⟨rest, hrest⟩ := hbits
  have hstart : (BitStream.start source).wordBits = bitsFrom Tree.initial tokens ++ rest :=
    hrest.symm
  exact (eq_of_bitsFrom_append_eq Tree.mem_symbols_initial hfit hothers hstart hmore.symm).symm

/-- The last word has three bits more than are read, and a byte is left over behind it. -/
theorem decode_abcabc {limit : Nat} (hlimit : 6 ≤ limit) :
    decode #[35, 212, 112, 231, 125, 10, 81] limit = .ok #[97, 98, 99, 97, 98, 99] := by
  have hfit : FitFrom 0 [.literal 97, .literal 98, .literal 99, .copy 3 3 (Nat.le_refl 3)] :=
    ⟨trivial, trivial, trivial, ⟨by decide, by decide, by decide, by decide⟩, trivial⟩
  exact decode_eq_ok_iff.mpr ⟨hlimit, _, hfit, by decide, by decide +kernel⟩

theorem existsUnique_tokens_of_decode_abcabc :
    decode #[35, 212, 112, 231, 125, 10, 81] 6 = .ok #[97, 98, 99, 97, 98, 99]
    ∧ ∃! tokens, FitFrom 0 tokens ∧ expand #[] tokens = #[97, 98, 99, 97, 98, 99]
      ∧ bitsFrom (Tree.initial : Tree UInt16) tokens
        <+: bitsOfWords (#[35, 212, 112, 231, 125, 10, 81] : Array UInt8).toList := by
  have hdecode := decode_abcabc (Nat.le_refl 6)
  exact ⟨hdecode, (existsUnique_tokens_of_decode hdecode).2⟩

end AdLibModule.Sixpack
