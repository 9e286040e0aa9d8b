import AdLibModule.Proofs.BitList
import AdLibModule.Proofs.BitStream
import AdLibModule.Proofs.Output
import AdLibModule.Proofs.Sixpack.Initial
import AdLibModule.Sixpack.Decoder
import AdLibModule.Sixpack.Encoder

/-! Reading back what the encoder wrote. Reader and writer observe the same symbols one after the
other, so that before each token they hold the same code, and in that code the way that the writer
spells leads the reader to the leaf from which the writer climbed. -/

namespace AdLibModule.Sixpack

/-! ### What a piece of a stream says -/

/-- Reading takes these bits and yields the value. -/
abbrev Says {α : Type} (reading : BitRead α) (bits : List Bool) (value : α) : Prop :=
  reading.Yields (·.wordBits = ·) bits value

theorem says_readBit (bit : Bool) : Says readBit [bit] bit := by
  intro stream rest h
  rw [readBit]
  split
  · rename_i taken hbit
    rw [BitStream.wordBits_of_wordBit?_eq_some hbit, List.singleton_append, List.cons.injEq] at h
    exact ⟨taken.2, by rw [← h.1], h.2⟩
  · rename_i hbit
    rw [BitStream.wordBits_of_wordBit?_eq_none hbit] at h
    cases h

theorem says_readNumber {width n : Nat} (h : n < 2 ^ width) :
    Says (readNumber width) (numberBits width n) n := by
  induction width generalizing n with
  | zero =>
      rw [Nat.lt_one_iff.mp h]
      exact BitRead.yields_pure 0
  | succ width ih =>
      have hhigh : n / 2 < 2 ^ width := by
        rw [Nat.pow_succ] at h
        omega
      have hsum : (n % 2 == 1).toNat + 2 * (n / 2) = n := by
        rcases Nat.mod_two_eq_zero_or_one n with hbit | hbit
        · rw [hbit]
          show 0 + 2 * (n / 2) = n
          omega
        · rw [hbit]
          show 1 + 2 * (n / 2) = n
          omega
      rw [numberBits, readNumber, ← List.singleton_append]
      refine (says_readBit _).bind ((ih hhigh).last ?_)
      rw [hsum]

/-! ### Symbols -/

section Code

variable {κ : Type}

/-- Below a node, the rest of the way to a located leaf leads to it. -/
theorem exists_says_descend {symbol : Symbol} {node : Tree κ} {path : List (Frame κ)}
    {location : Location κ} (h : node.locate symbol path = some location) :
    ∃ bits, location.code = (path.map Frame.isRight).reverse ++ bits
      ∧ Says (node.descend path) bits location := by
  induction node generalizing path with
  | leaf other count =>
      rw [Tree.locate] at h
      split at h
      · cases h
        exact ⟨[], (List.append_nil _).symm, BitRead.yields_pure _⟩
      · cases h
  | fork count left right ihl ihr =>
      rw [Tree.locate, Option.or_eq_some_iff] at h
      rcases h with hleft | ⟨-, hright⟩
      · obtain ⟨bits, hcode, hsays⟩ := ihl hleft
        rw [List.map_cons, List.reverse_cons, List.append_assoc] at hcode
        exact ⟨false :: bits, hcode, (says_readBit false).bind hsays⟩
      · obtain ⟨bits, hcode, hsays⟩ := ihr hright
        rw [List.map_cons, List.reverse_cons, List.append_assoc] at hcode
        exact ⟨true :: bits, hcode, (says_readBit true).bind hsays⟩

/-- The code of a symbol leads to its leaf, from where the tree observes the symbol. -/
theorem exists_says_code [Counter κ] {tree : Tree κ} {symbol : Symbol} (h : symbol ∈ tree.symbols) :
    ∃ location, Says (tree.descend []) (tree.code symbol) location ∧ location.symbol = symbol
      ∧ location.observe = tree.observe symbol := by
  obtain ⟨location, hlocate⟩ := Option.isSome_iff_exists.mp (Tree.isSome_locate_iff.mpr h)
  obtain ⟨bits, hcode, hsays⟩ := exists_says_descend hlocate
  refine ⟨location, ?_, (Tree.plug_of_locate_eq_some hlocate).1, ?_⟩
  · rw [Tree.code, hlocate]
    show Says _ location.code location
    rwa [hcode]
  · rw [Tree.observe, hlocate]

end Code

theorem Meaning.meaning_symbol (meaning : Meaning) : meaning.symbol.meaning = meaning := by
  cases meaning with
  | literal value =>
      have hlt := value.toNat_lt
      rw [Meaning.symbol, Symbol.meaning, if_pos hlt]
      show literal value.toNat.toUInt8 = literal value
      rw [Nat.toUInt8, UInt8.ofNat_toNat]
  | stop => rfl
  | copy range lengthIndex =>
      have hindex := lengthIndex.isLt
      have hcopy : 257 ≤ 257 + range.val * lengthCount + lengthIndex.val := by omega
      have hdiv : (257 + range.val * lengthCount + lengthIndex.val - 257) / lengthCount = range.val := by
        simp only [lengthCount] at hindex ⊢
        omega
      have hmod : (257 + range.val * lengthCount + lengthIndex.val - 257) % lengthCount
          = lengthIndex.val := by
        simp only [lengthCount] at hindex ⊢
        omega
      rw [Meaning.symbol, Symbol.meaning, if_neg (by dsimp only; omega), if_neg (by dsimp only; omega)]
      simp only [hdiv, hmod]

/-! ### Tokens -/

/-- A distance that exceeds the length by less than 21840 lies in one of the ranges, and there its
place has the width of the range. -/
theorem Range.of_spec {extra : Nat} (h : extra ≤ 21839) :
    (Range.of extra).base ≤ extra ∧ extra - (Range.of extra).base < 2 ^ (Range.of extra).width := by
  unfold Range.of
  repeat' split
  all_goals
    simp only [base] at *
    simp only [width]
    omega

namespace Token

/-- How many bytes the token appends. -/
def size : Token → Nat
  | literal _ => 1
  | copy length _ _ => length

/-- A stream can say the token when so many bytes are written: a copy is of at most 255 bytes, does
not reach into its own output nor back beyond the start, and lies in one of the ranges. -/
def Fits (written : Nat) : Token → Prop
  | literal _ => True
  | copy length distance _ =>
    length ≤ 255 ∧ length ≤ distance ∧ distance ≤ length + 21839 ∧ distance ≤ written

theorem exists_append_eq {token : Token} {limit : Nat} {out : Array UInt8}
    (hfits : token.Fits out.size) (hlimit : out.size + token.size ≤ limit) :
    ∃ grown, token.append limit out = .ok grown ∧ grown.size = out.size + token.size
      ∧ ∀ tokens, expand out (token :: tokens) = expand grown tokens := by
  cases token with
  | literal value =>
      have hroom : ¬ limit ≤ out.size := by
        rw [size] at hlimit
        omega
      exact ⟨_, if_neg hroom, Array.size_push _, fun _ => rfl⟩
  | copy length distance three_le =>
      have hroom : ¬ limit < out.size + length := Nat.not_lt.mpr hlimit
      refine ⟨Output.repeatBack out distance length, ?_, Output.size_repeatBack _ _ _, fun _ => rfl⟩
      rw [append, if_neg (Nat.not_lt.mpr hfits.2.2.2), if_neg hroom]

end Token

/-- Every token fits what the tokens before it have written. -/
def FitFrom (written : Nat) : List Token → Prop
  | [] => True
  | token :: tokens => token.Fits written ∧ FitFrom (written + token.size) tokens

theorem size_expand (out : Array UInt8) (tokens : List Token) :
    (expand out tokens).size = out.size + (tokens.map Token.size).sum := by
  induction tokens generalizing out with
  | nil => rfl
  | cons token tokens ih =>
      rw [List.map_cons, List.sum_cons, ← Nat.add_assoc]
      cases token with
      | literal value => rw [expand, ih, Array.size_push, Token.size]
      | copy length distance three_le => rw [expand, ih, Output.size_repeatBack, Token.size]

section Stream

variable {κ : Type} [Counter κ] {tree : Tree κ}

theorem says_token (hall : ∀ symbol, symbol ∈ tree.symbols) {token : Token} {written : Nat}
    (hfits : token.Fits written) :
    Says (readToken tree) (tree.code token.symbol ++ token.placeBits)
      (some token, tree.observe token.symbol) := by
  obtain ⟨location, hcode, hsymbol, hobserve⟩ := exists_says_code (hall token.symbol)
  refine hcode.bind ?_
  rw [hobserve, hsymbol]
  cases token with
  | literal value =>
      rw [Token.symbol, Meaning.meaning_symbol]
      exact BitRead.yields_pure _
  | copy length distance three_le =>
      obtain ⟨hlength, hdistance, hextra, -⟩ := hfits
      have hrange : distance - length ≤ 21839 := by omega
      obtain ⟨hbase, hplace⟩ := Range.of_spec hrange
      rw [Token.symbol, Meaning.meaning_symbol, Token.placeBits]
      refine (says_readNumber hplace).last ?_
      have hindex : (Fin.ofNat lengthCount (length - 3)).val + 3 = length := by
        rw [Fin.val_ofNat]
        simp only [lengthCount]
        omega
      have htoken : Token.ofCopy (.of (distance - length)) (Fin.ofNat lengthCount (length - 3))
          (distance - length - (Range.of (distance - length)).base)
            = .copy length distance three_le := by
        simp only [Token.ofCopy, hindex, Token.copy.injEq, true_and]
        omega
      rw [htoken]

theorem says_stop (hall : ∀ symbol, symbol ∈ tree.symbols) :
    Says (readToken tree) (tree.code Meaning.stop.symbol)
      (none, tree.observe Meaning.stop.symbol) := by
  obtain ⟨location, hcode, hsymbol, hobserve⟩ := exists_says_code (hall Meaning.stop.symbol)
  refine hcode.last ?_
  rw [hobserve, hsymbol, Meaning.meaning_symbol]

section Step

variable {limit : Nat} {next : Tree κ} {out grown : Array UInt8} {stream left : BitStream}
  {token : Token}

theorem decodeFrom_eq_of_append (hread : readToken tree stream = .ok ((some token, next), left))
    (happend : token.append limit out = .ok grown) :
    decodeFrom limit tree out stream = decodeFrom limit next grown left := by
  rw [decodeFrom, hread]
  dsimp only
  rw [happend]

theorem decodeFrom_eq_error_of_append {error : DecodeError}
    (hread : readToken tree stream = .ok ((some token, next), left))
    (happend : token.append limit out = .error error) :
    decodeFrom limit tree out stream = .error error := by
  rw [decodeFrom, hread]
  dsimp only
  rw [happend]

end Step

/-- The tokens are read one after the other, each with the code that has observed the symbols of
those before it. -/
theorem decodeFrom_bitsFrom {limit : Nat} {tokens : List Token} {out : Array UInt8}
    {stream : BitStream} {rest : List Bool} (hall : ∀ symbol, symbol ∈ tree.symbols)
    (hfit : FitFrom out.size tokens) (hlimit : (expand out tokens).size ≤ limit)
    (hbits : stream.wordBits = bitsFrom tree tokens ++ rest) :
    ∃ left, decodeFrom limit tree out stream = .ok (expand out tokens, left)
      ∧ left.wordBits = rest := by
  induction tokens generalizing tree out stream with
  | nil =>
      obtain ⟨left, hread, hleft⟩ := says_stop hall stream rest hbits
      exact ⟨left, by rw [decodeFrom, hread, expand], hleft⟩
  | cons token tokens ih =>
      rw [bitsFrom, List.append_assoc] at hbits
      obtain ⟨between, hread, hbetween⟩ := says_token hall hfit.1 stream _ hbits
      have hroom : out.size + token.size ≤ limit := by
        rw [size_expand, List.map_cons, List.sum_cons] at hlimit
        omega
      obtain ⟨grown, happend, hsize, hexpand⟩ := Token.exists_append_eq hfit.1 hroom
      rw [hexpand] at hlimit ⊢
      obtain ⟨left, hresult, hleft⟩ := ih
        (fun symbol => (tree.symbols_observe token.symbol).mem_iff.mpr (hall symbol))
        (hsize ▸ hfit.2) hlimit hbetween
      exact ⟨left, (decodeFrom_eq_of_append hread happend).trans hresult, hleft⟩

end Stream

/-! ### The bytes of a stream -/

/-- Words give back the bits that they were filled with, and zeros. -/
theorem exists_bitsOfWords_packWords (bits : List Bool) :
    ∃ zeros, bitsOfWords (packWords bits) = bits ++ List.replicate zeros false := by
  fun_induction packWords bits with
  | case1 => exact ⟨0, rfl⟩
  | case2 bit bits ih =>
      obtain ⟨zeros, hzeros⟩ := ih
      refine ⟨8 - (bit :: bits).length + (8 - (bits.drop 7).length + zeros), ?_⟩
      rw [bitsOfWords, hzeros, ← byteBits_byteOfBits_append, ← List.drop_succ_cons,
        ← byteBits_byteOfBits_append, List.drop_drop, List.append_assoc]
      rfl

theorem decode_encode_of_fitFrom {tokens : List Token} {limit : Nat} (hfit : FitFrom 0 tokens)
    (hlimit : (expand #[] tokens).size ≤ limit) :
    decode (encode tokens) limit = .ok (expand #[] tokens) := by
  obtain ⟨zeros, hzeros⟩ := exists_bitsOfWords_packWords (bitsFrom (Tree.initial : Tree UInt16) tokens)
  have hstart : (BitStream.start (encode tokens)).wordBits
      = bitsFrom (Tree.initial : Tree UInt16) tokens ++ List.replicate zeros false := hzeros
  have hwritten : FitFrom (#[] : Array UInt8).size tokens := hfit
  obtain ⟨left, hresult, -⟩ := decodeFrom_bitsFrom Tree.mem_symbols_initial hwritten hlimit hstart
  rw [decode, decodeWith, hresult]
  rfl

/-! ### Runs -/

/-- A run of at least `behind` bytes comes before the data, so that a copy has it to copy from. -/
theorem expand_runTokens {last : UInt8} {behind : Nat} {data : List UInt8}
    {out : Array UInt8} {before : List UInt8}
    (hout : out.toList = before ++ List.replicate behind last) :
    FitFrom out.size (runTokens last behind data)
      ∧ (expand out (runTokens last behind data)).toList = out.toList ++ data := by
  fun_induction runTokens last behind data generalizing out before with
  | case1 => exact ⟨trivial, (List.append_nil _).symm⟩
  | case2 last behind byte rest ahead length =>
      rename_i hlength ih
      have hcopy : length ≤ behind ∧ length ≤ ahead ∧ length ≤ 255 := by omega
      have hbehind : length ≤ out.size := by
        rw [← Array.length_toList, hout, List.length_append, List.length_replicate]
        omega
      have hrun := Output.toList_repeatBack_run hout (by omega) hcopy.1 length
      obtain ⟨hfit, hexpand⟩ := ih hrun
      rw [Output.size_repeatBack] at hfit
      refine ⟨⟨⟨hcopy.2.2, Nat.le_refl _, Nat.le_add_right _ _, hbehind⟩, hfit⟩, ?_⟩
      have hdata : List.replicate length last ++ rest.drop (length - 1) = byte :: rest :=
        replicate_append_drop (by omega) hcopy.2.1
      rw [expand, hexpand, hrun, hout]
      calc before ++ List.replicate (behind + length) last ++ rest.drop (length - 1)
          = before ++ List.replicate behind last
            ++ (List.replicate length last ++ rest.drop (length - 1)) := by
            simp only [← List.replicate_append_replicate, List.append_assoc]
        _ = before ++ List.replicate behind last ++ byte :: rest := by rw [hdata]
  | case3 last behind byte rest ahead length =>
      rename_i hlength ih
      rw [dite_eq_ite] at ih
      have hrun : ∃ before', (out.push byte).toList
          = before' ++ List.replicate (if byte = last then behind + 1 else 1) byte := by
        rw [Array.toList_push]
        by_cases hlast : byte = last
        · refine ⟨before, ?_⟩
          rw [if_pos hlast, hout, hlast, List.replicate_succ', List.append_assoc]
        · exact ⟨out.toList, by rw [if_neg hlast, List.replicate_one]⟩
      obtain ⟨before', hbefore⟩ := hrun
      obtain ⟨hfit, hexpand⟩ := ih hbefore
      rw [Array.size_push] at hfit
      refine ⟨⟨trivial, hfit⟩, ?_⟩
      rw [expand, hexpand, Array.toList_push, List.append_assoc, List.singleton_append]

/-- Every list of tokens that fit is read back from the stream that says it, and so is all data from
the stream that packs it. -/
theorem decode_encode :
    (∀ (tokens : List Token) (limit : Nat), FitFrom 0 tokens → (expand #[] tokens).size ≤ limit →
      decode (encode tokens) limit = .ok (expand #[] tokens))
    ∧ ∀ data : List UInt8, decode (pack data) data.length = .ok data.toArray := by
  refine ⟨fun tokens limit hfit hlimit => decode_encode_of_fitFrom hfit hlimit, fun data => ?_⟩
  have hempty : (#[] : Array UInt8).toList = [] ++ List.replicate 0 0 := rfl
  obtain ⟨hfit, hexpand⟩ := @expand_runTokens 0 0 data _ _ hempty
  have hdata : expand #[] (runTokens 0 0 data) = data.toArray := Array.toList_inj.mp hexpand
  rw [pack, ← hdata]
  refine decode_encode_of_fitFrom hfit (Nat.le_of_eq ?_)
  rw [hdata, List.size_toArray]

theorem decode_encode_repeated_triple :
    FitFrom 0 [.literal 1, .literal 2, .literal 3, .copy 3 3 (Nat.le_refl 3)]
    ∧ decode (encode [.literal 1, .literal 2, .literal 3, .copy 3 3 (Nat.le_refl 3)]) 6
      = .ok #[1, 2, 3, 1, 2, 3] := by
  have hfit : FitFrom 0 [.literal 1, .literal 2, .literal 3, .copy 3 3 (Nat.le_refl 3)] :=
    ⟨trivial, trivial, trivial, ⟨by decide, by decide, by decide, by decide⟩, trivial⟩
  exact ⟨hfit, decode_encode.1 _ 6 hfit (by decide)⟩

end AdLibModule.Sixpack
