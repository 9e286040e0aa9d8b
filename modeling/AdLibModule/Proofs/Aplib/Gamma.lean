import AdLibModule.Proofs.Aplib.Accepted
import AdLibModule.Proofs.Aplib.Machine

/-! Gamma numbers bit by bit. A number is spelt by its binary digits below the leading one, each followed
by a bit that tells whether there are more. The number known so far at least doubles with each digit,
so that the largest one that is accepted bounds how many bits are read; and it never comes to fill a
word. Neither does the offset of a long match, whose high part is such a number. -/

namespace AdLibModule.Aplib

open Checked (Agree Follows demand)

/-! ### The bits of a gamma number -/

/-- The binary digits of a number after the leading one, each followed by whether there are more. -/
def gammaBits (n : Nat) : List Bool :=
  (List.range n.log2).reverse.flatMap fun place => [n.testBit place, place != 0]

/-- The binary digits of a number after the leading one, each followed by that there are more. -/
def openBits (n : Nat) : List Bool :=
  (List.range n.log2).reverse.flatMap fun place => [n.testBit place, true]

theorem length_flatMap_pair {α β : Type} (first second : α → β) (entries : List α) :
    (entries.flatMap fun entry => [first entry, second entry]).length = 2 * entries.length := by
  induction entries with
  | nil => rfl
  | cons entry entries ih =>
      rw [List.flatMap_cons, List.length_append, ih, List.length_cons, List.length_cons,
        List.length_cons, List.length_nil]
      omega

theorem length_gammaBits (n : Nat) : (gammaBits n).length = 2 * n.log2 := by
  rw [gammaBits, length_flatMap_pair, List.length_reverse, List.length_range]

theorem length_openBits (n : Nat) : (openBits n).length = 2 * n.log2 := by
  rw [openBits, length_flatMap_pair, List.length_reverse, List.length_range]

theorem log2_two_mul_add {n : Nat} (hpos : 0 < n) (digit : Bool) :
    (2 * n + digit.toNat).log2 = n.log2 + 1 := by
  have hdigit := digit.toNat_lt
  have hlow := Nat.log2_self_le (Nat.ne_of_gt hpos)
  have hhigh : n < 2 ^ (n.log2 + 1) := Nat.lt_log2_self
  rw [Nat.log2_eq_iff (by omega), Nat.pow_succ 2 (n.log2 + 1), Nat.pow_succ 2 n.log2]
  rw [Nat.pow_succ] at hhigh
  omega

theorem testBit_two_mul_add_succ (n : Nat) (digit : Bool) (place : Nat) :
    (2 * n + digit.toNat).testBit (place + 1) = n.testBit place := by
  have hdigit := digit.toNat_lt
  rw [Nat.testBit_succ]
  congr 1
  omega

theorem testBit_two_mul_add_zero (n : Nat) (digit : Bool) :
    (2 * n + digit.toNat).testBit 0 = digit := by
  rw [Nat.testBit_zero, Nat.mul_add_mod]
  cases digit <;> rfl

/-- The places of the digits, one digit more. -/
theorem reverse_range_succ (count : Nat) :
    (List.range (count + 1)).reverse = (List.range count).reverse.map (· + 1) ++ [0] := by
  rw [List.range_succ_eq_map, List.reverse_cons, List.map_reverse]

theorem openBits_two_mul_add {n : Nat} (hpos : 0 < n) (digit : Bool) :
    openBits (2 * n + digit.toNat) = openBits n ++ [digit, true] := by
  rw [openBits, log2_two_mul_add hpos, reverse_range_succ, List.flatMap_append, List.flatMap_map,
    List.flatMap_singleton, testBit_two_mul_add_zero]
  simp only [testBit_two_mul_add_succ]
  rfl

theorem gammaBits_two_mul_add {n : Nat} (hpos : 0 < n) (digit : Bool) :
    gammaBits (2 * n + digit.toNat) = openBits n ++ [digit, false] := by
  rw [gammaBits, log2_two_mul_add hpos, reverse_range_succ, List.flatMap_append, List.flatMap_map,
    List.flatMap_singleton, testBit_two_mul_add_zero]
  simp only [testBit_two_mul_add_succ]
  rfl

theorem gammaPieces_eq (n : Nat) : gammaPieces n = (gammaBits n).map .bit := by
  rw [gammaPieces, gammaBits, List.map_flatMap]
  rfl

/-- A number of two or more is one with a digit behind it. -/
theorem exists_two_mul_add_eq {n : Nat} (h : 2 ≤ n) :
    ∃ leading digit, 0 < leading ∧ n = 2 * leading + Bool.toNat digit := by
  refine ⟨n / 2, n % 2 == 1, by omega, ?_⟩
  rcases Nat.mod_two_eq_zero_or_one n with heven | hodd
  · rw [heven]
    show n = 2 * (n / 2) + 0
    omega
  · rw [hodd]
    show n = 2 * (n / 2) + 1
    omega

/-! ### A digit and the bit behind it -/

section Digit

variable {limit leading : Nat} {hpos : 0 < leading} {digit : Bool} {stream after left : BitStream}
  {fault : StreamFault}

theorem readDigits_of_no_digit (hdigit : readBit stream = .error fault) :
    readDigits limit leading hpos stream = .error fault := by
  rw [readDigits]
  show (readBit stream).bind _ = _
  rw [hdigit]
  rfl

theorem readDigits_of_tooLarge (hdigit : readBit stream = .ok (digit, after))
    (hlimit : gammaLimit limit < 2 * leading + digit.toNat) :
    readDigits limit leading hpos stream = .error .gammaTooLarge := by
  rw [readDigits]
  show (readBit stream).bind _ = _
  rw [hdigit]
  show (dite _ _ _ : BitRead Gamma) after = _
  rw [dif_pos hlimit]
  rfl

theorem two_le_two_mul_add (hpos : 0 < leading) (digit : Bool) : 2 ≤ 2 * leading + digit.toNat :=
  Nat.le_add_right_of_le (Nat.le_mul_of_pos_right 2 hpos)

theorem two_mul_add_pos (hpos : 0 < leading) (digit : Bool) : 0 < 2 * leading + digit.toNat :=
  Nat.lt_of_succ_lt (two_le_two_mul_add hpos digit)

theorem readDigits_of_digit (hdigit : readBit stream = .ok (digit, after))
    (hlimit : 2 * leading + digit.toNat ≤ gammaLimit limit) :
    readDigits limit leading hpos stream = (readBit after).bind fun taken =>
      (if taken.1 then readDigits limit (2 * leading + digit.toNat) (two_mul_add_pos hpos digit)
        else pure ⟨2 * leading + digit.toNat, two_le_two_mul_add hpos digit⟩) taken.2 := by
  rw [readDigits]
  show (readBit stream).bind _ = _
  rw [hdigit]
  show (dite _ _ _ : BitRead Gamma) after = _
  rw [dif_neg (Nat.not_lt.mpr hlimit)]
  rfl

theorem readDigits_of_no_more (hdigit : readBit stream = .ok (digit, after))
    (hlimit : 2 * leading + digit.toNat ≤ gammaLimit limit) (hmore : readBit after = .error fault) :
    readDigits limit leading hpos stream = .error fault := by
  rw [readDigits_of_digit hdigit hlimit, hmore]
  rfl

theorem readDigits_of_last (hdigit : readBit stream = .ok (digit, after))
    (hlimit : 2 * leading + digit.toNat ≤ gammaLimit limit) (hlast : readBit after = .ok (false, left)) :
    readDigits limit leading hpos stream
      = .ok (⟨2 * leading + digit.toNat, two_le_two_mul_add hpos digit⟩, left) := by
  rw [readDigits_of_digit hdigit hlimit, hlast]
  rfl

theorem readDigits_of_more (hdigit : readBit stream = .ok (digit, after))
    (hlimit : 2 * leading + digit.toNat ≤ gammaLimit limit) (hmore : readBit after = .ok (true, left)) :
    readDigits limit leading hpos stream
      = readDigits limit (2 * leading + digit.toNat) (two_mul_add_pos hpos digit) left := by
  rw [readDigits_of_digit hdigit hlimit, hmore]
  rfl

end Digit

/-- The bits are read one after the other, and then `left` is left of the stream. -/
def ReadsBits (stream : BitStream) (bits : List Bool) (left : BitStream) : Prop :=
  Spells stream (bits.map .bit) left

namespace ReadsBits

variable {stream after left : BitStream} {bits others : List Bool} {bit : Bool}

theorem concat (h : ReadsBits stream bits after) (hbit : readBit after = .ok (bit, left)) :
    ReadsBits stream (bits ++ [bit]) left := by
  rw [ReadsBits, List.map_append]
  exact h.append (spells_bit hbit)

theorem exists_of_append (h : ReadsBits stream (bits ++ others) left) :
    ∃ between, ReadsBits stream bits between ∧ ReadsBits between others left := by
  induction bits generalizing stream with
  | nil => exact ⟨stream, .nil stream, h⟩
  | cons bit bits ih =>
      cases h with
      | bit hread hnext =>
          obtain ⟨between, hbits, hothers⟩ := ih hnext
          exact ⟨between, .bit hread hbits, hothers⟩

theorem exists_of_cons (h : ReadsBits stream (bit :: bits) left) :
    ∃ next, readBit stream = .ok (bit, next) ∧ ReadsBits next bits left := by
  cases h with
  | bit hread hnext => exact ⟨_, hread, hnext⟩

theorem eq_of_nil (h : ReadsBits stream [] left) : stream = left := by
  cases h
  rfl

end ReadsBits

/-! ### How the reading ends -/

/-- How the reading of a gamma number ends, when `bits` are all that it has read and `left` is what they
leave of the stream. -/
inductive GammaEnds (limit : Nat) (bits : List Bool) (left : BitStream) :
    Except StreamFault (Gamma × BitStream) → Prop
  /-- The bits are those of a number within the limit. -/
  | number (n : Gamma) (hle : n.val ≤ gammaLimit limit) (hlength : bits.length = 2 * n.val.log2)
      (hbits : bits.map .bit = gammaPieces n) : GammaEnds limit bits left (.ok (n, left))
  /-- The last bit is the digit with which they spell a number beyond the limit. -/
  | tooLarge (leading : Nat) (digit : Bool) (hpos : 0 < leading) (hle : leading ≤ gammaLimit limit)
      (hlt : gammaLimit limit < 2 * leading + digit.toNat) (hbits : bits = openBits leading ++ [digit]) :
      GammaEnds limit bits left (.error .gammaTooLarge)
  /-- Where a digit is to be read, or the bit behind it, the stream has come to its end. -/
  | exhausted (leading : Nat) (hpos : 0 < leading) (hle : leading ≤ gammaLimit limit)
      (hbits : bits = openBits leading ∨ ∃ digit : Bool, 2 * leading + digit.toNat ≤ gammaLimit limit
        ∧ bits = openBits leading ++ [digit])
      (hrest : left.rest = []) (hpending : left.pending = []) :
      GammaEnds limit bits left (.error (.exhausted .aplib left.position))

theorem two_le_gammaLimit (limit : Nat) : 2 ≤ gammaLimit limit := by
  rw [gammaLimit]
  omega

theorem GammaEnds.length_le {limit : Nat} {bits : List Bool} {left : BitStream}
    {result : Except StreamFault (Gamma × BitStream)} (h : GammaEnds limit bits left result) :
    bits.length ≤ 2 * (gammaLimit limit).log2 + 1 := by
  have hlimit := two_le_gammaLimit limit
  have hlog : ∀ n, 0 < n → n ≤ gammaLimit limit → n.log2 ≤ (gammaLimit limit).log2 :=
    fun n hpos hle => (Nat.le_log2 (by omega)).mpr
      (Nat.le_trans (Nat.log2_self_le (Nat.ne_of_gt hpos)) hle)
  cases h with
  | number n hle hlength =>
      have := hlog _ (Nat.zero_lt_of_lt n.2) hle
      omega
  | tooLarge leading digit hpos hle hlt hbits =>
      have := hlog _ hpos hle
      rw [hbits, List.length_append, length_openBits, List.length_singleton]
      omega
  | exhausted leading hpos hle hbits =>
      have := hlog _ hpos hle
      rcases hbits with rfl | ⟨digit, -, rfl⟩
      · rw [length_openBits]
        omega
      · rw [List.length_append, length_openBits, List.length_singleton]
        omega

theorem readBit_eq_error {stream : BitStream} {fault : StreamFault}
    (h : readBit stream = .error fault) :
    fault = .exhausted .aplib stream.position ∧ stream.rest = [] ∧ stream.pending = [] := by
  obtain ⟨bytes, position, pending⟩ := stream
  cases pending with
  | cons bit pending => cases h
  | nil =>
      cases bytes with
      | cons tag bytes => cases h
      | nil =>
          cases h
          exact ⟨rfl, rfl, rfl⟩

/-- From the digits of `leading` on, each further digit either ends the reading or becomes the last of
a new `leading`. -/
theorem exists_gammaEnds_readDigits {limit leading : Nat} (hpos : 0 < leading) {start stream : BitStream}
    (hle : leading ≤ gammaLimit limit) (hread : ReadsBits start (openBits leading) stream) :
    ∃ bits left, ReadsBits start bits left
      ∧ GammaEnds limit bits left (readDigits limit leading hpos stream) := by
  induction leading, hpos using readDigits.induct limit generalizing stream with
  | case1 leading hpos ih =>
      cases hdigit : readBit stream with
      | error fault =>
          obtain ⟨rfl, hrest, hpending⟩ := readBit_eq_error hdigit
          rw [readDigits_of_no_digit hdigit]
          exact ⟨_, stream, hread, .exhausted leading hpos hle (Or.inl rfl) hrest hpending⟩
      | ok taken =>
          obtain ⟨digit, after⟩ := taken
          have hafter := hread.concat hdigit
          by_cases hlimit : gammaLimit limit < 2 * leading + digit.toNat
          · rw [readDigits_of_tooLarge hdigit hlimit]
            exact ⟨_, after, hafter, .tooLarge leading digit hpos hle hlimit rfl⟩
          have hvalue := Nat.le_of_not_lt hlimit
          cases hmore : readBit after with
          | error fault =>
              obtain ⟨rfl, hrest, hpending⟩ := readBit_eq_error hmore
              rw [readDigits_of_no_more hdigit hvalue hmore]
              exact ⟨_, after, hafter,
                .exhausted leading hpos hle (Or.inr ⟨digit, hvalue, rfl⟩) hrest hpending⟩
          | ok taken =>
              obtain ⟨more, left⟩ := taken
              have hleft := hafter.concat hmore
              rw [List.append_assoc, List.singleton_append] at hleft
              cases more with
              | false =>
                  rw [← gammaBits_two_mul_add hpos] at hleft
                  rw [readDigits_of_last hdigit hvalue hmore]
                  exact ⟨_, left, hleft,
                    .number _ hvalue (length_gammaBits _) (gammaPieces_eq _).symm⟩
              | true =>
                  rw [← openBits_two_mul_add hpos] at hleft
                  rw [readDigits_of_more hdigit hvalue hmore]
                  exact ih digit hlimit hvalue hleft

/-- Wherever they stand, behind the digits of `leading` the reading goes on from these. -/
theorem readGamma_of_readsBits {limit leading : Nat} (hpos : 0 < leading) {stream left : BitStream}
    (hle : leading ≤ gammaLimit limit) (hread : ReadsBits stream (openBits leading) left) :
    readGamma limit stream = readDigits limit leading hpos left := by
  induction leading using Nat.strong_induction_on generalizing left with
  | _ leading ih =>
      rcases Nat.lt_or_ge leading 2 with hone | htwo
      · obtain rfl : leading = 1 := by omega
        rw [ReadsBits.eq_of_nil hread]
        rfl
      · obtain ⟨front, digit, hfront, rfl⟩ := exists_two_mul_add_eq htwo
        rw [openBits_two_mul_add hfront] at hread
        obtain ⟨between, hdigits, hlast⟩ := hread.exists_of_append
        obtain ⟨after, hdigit, hbehind⟩ := hlast.exists_of_cons
        obtain ⟨_, hmore, hend⟩ := hbehind.exists_of_cons
        obtain rfl := hend.eq_of_nil
        rw [ih front (by omega) hfront (by omega) hdigits, readDigits_of_more hdigit hle hmore]

section Bits

variable {limit : Nat} {bits : List Bool} {stream left behind : BitStream}

/-- The bits of a number are read alike wherever they stand. -/
theorem readGamma_of_number {n : Gamma} (hle : n.val ≤ gammaLimit limit)
    (hread : ReadsBits stream (gammaBits n) behind) : readGamma limit stream = .ok (n, behind) := by
  obtain ⟨n, hn⟩ := n
  obtain ⟨leading, digit, hpos, rfl⟩ := exists_two_mul_add_eq hn
  rw [gammaBits_two_mul_add hpos] at hread
  obtain ⟨between, hdigits, hlast⟩ := hread.exists_of_append
  obtain ⟨after, hdigit, hbehind⟩ := hlast.exists_of_cons
  obtain ⟨_, hmore, hend⟩ := hbehind.exists_of_cons
  obtain rfl := hend.eq_of_nil
  dsimp only at hle
  rw [readGamma_of_readsBits hpos (by omega) hdigits, readDigits_of_last hdigit hle hmore]

/-- A digit too many is refused wherever it stands. -/
theorem readGamma_of_tooLarge {leading : Nat} {digit : Bool} (hpos : 0 < leading)
    (hle : leading ≤ gammaLimit limit) (hlt : gammaLimit limit < 2 * leading + digit.toNat)
    (hread : ReadsBits stream (openBits leading ++ [digit]) behind) :
    readGamma limit stream = .error .gammaTooLarge := by
  obtain ⟨between, hdigits, hlast⟩ := hread.exists_of_append
  obtain ⟨after, hdigit, -⟩ := hlast.exists_of_cons
  rw [readGamma_of_readsBits hpos hle hdigits, readDigits_of_tooLarge hdigit hlt]

end Bits

/-! ### In words of 64 bits -/

/-- Twice a word. There is none when its highest bit would be lost. -/
def twice? (word : UInt64) : Option UInt64 :=
  if word.toNat < 2 ^ 63 then some (word <<< 1) else none

theorem toNat_shiftLeft_of_lt {word count : UInt64} {places : Nat} (hcount : count.toNat = places)
    (hplaces : places < 64) (h : word.toNat * 2 ^ places < 2 ^ 64) :
    (word <<< count).toNat = word.toNat * 2 ^ places := by
  rw [UInt64.toNat_shiftLeft, hcount, Nat.mod_eq_of_lt hplaces, Nat.shiftLeft_eq,
    Nat.mod_eq_of_lt h]

theorem exists_twice?_eq {word : UInt64} (h : word.toNat < 2 ^ 63) :
    ∃ doubled, twice? word = some doubled ∧ doubled.toNat = 2 * word.toNat := by
  have hroom : word.toNat * 2 ^ 1 < 2 ^ 64 := by omega
  have hcount : (1 : UInt64).toNat = 1 := rfl
  refine ⟨word <<< 1, if_pos h, ?_⟩
  rw [toNat_shiftLeft_of_lt hcount (by decide) hroom, Nat.pow_one, Nat.mul_comm]

theorem toNat_or_digit {doubled : UInt64} {n : Nat} (h : doubled.toNat = 2 * n) (digit : Bool) :
    (doubled ||| digit.toUInt64).toNat = 2 * n + digit.toNat := by
  have hdigit : digit.toUInt64.toNat = digit.toNat := by
    cases digit <;> rfl
  have hor : 2 * n + digit.toNat = 2 * n ||| digit.toNat :=
    Nat.two_pow_add_eq_or_of_lt (i := 1) digit.toNat_lt n
  rw [UInt64.toNat_or, h, hdigit, hor]

/-- What the digits that were read so far spell, in a word. -/
abbrev DigitWord := UInt64

/-- The gamma number that begins with the digits. A shift that loses a bit has no result. -/
def DigitWord.next (leading : DigitWord) (limit : UInt64) : Checked UInt64 := do
  let doubled ← demand (twice? leading)
  let digit ← nextBit
  let value : DigitWord := doubled ||| digit.toUInt64
  let bound ← demand (twice? (max limit 1))
  if bound < value then
    throw .gammaTooLarge
  else if ← nextBit then
    value |>.next limit
  else
    return value
partial_fixpoint

theorem DigitWord.follows_next {limit : UInt64} (hlimit : limit.toNat < 2 ^ 62) {leading : Nat}
    (hpos : 0 < leading) (hle : leading ≤ gammaLimit limit.toNat) {word : DigitWord}
    (hword : word.toNat = leading) :
    Follows (fun word n => word.toNat = n.val) (word.next limit)
      (readDigits limit.toNat leading hpos) := by
  have hsmall : gammaLimit limit.toNat < 2 ^ 63 := by
    rw [gammaLimit]
    omega
  have hmax : (max limit 1).toNat = max limit.toNat 1 := UInt64.toNat_max limit 1
  have hroom : (max limit 1).toNat < 2 ^ 63 := by
    rw [hmax]
    omega
  obtain ⟨bound, hbound, htwice⟩ := exists_twice?_eq hroom
  have hbound' : bound.toNat = gammaLimit limit.toNat := by
    rw [htwice, hmax, gammaLimit]
  induction leading, hpos using readDigits.induct limit.toNat generalizing word with
  | case1 leading hpos ih =>
      have hword63 : word.toNat < 2 ^ 63 := by omega
      obtain ⟨doubled, hdoubled, hvalue⟩ := exists_twice?_eq hword63
      rw [hword] at hvalue
      rw [next, readDigits, Checked.demand_bind hdoubled]
      apply follows_nextBit.bind
      rintro digit _ rfl
      have hdigit := toNat_or_digit hvalue digit
      dsimp only
      rw [Checked.demand_bind hbound]
      by_cases hbeyond : gammaLimit limit.toNat < 2 * leading + digit.toNat
      · rw [dif_pos hbeyond, if_pos (by rw [UInt64.lt_iff_toNat_lt, hbound', hdigit]; exact hbeyond)]
        exact Checked.follows_throw _
      · rw [dif_neg hbeyond,
          if_neg (by rw [UInt64.lt_iff_toNat_lt, hbound', hdigit]; exact hbeyond)]
        apply follows_nextBit.bind
        rintro more _ rfl
        cases more with
        | false => exact Checked.follows_pure hdigit
        | true => exact ih digit hbeyond (Nat.le_of_not_lt hbeyond) hdigit

/-- The gamma number that comes next in the stream. -/
def nextGammaWord (limit : UInt64) : Checked UInt64 := DigitWord.next 1 limit

theorem follows_nextGammaWord {limit : UInt64} (hlimit : limit.toNat < 2 ^ 62) :
    Follows (fun word n => word.toNat = n.val) (nextGammaWord limit) (readGamma limit.toNat) :=
  have hone : 1 ≤ gammaLimit limit.toNat := Nat.le_of_succ_le (two_le_gammaLimit _)
  DigitWord.follows_next hlimit Nat.one_pos hone (show UInt64.toNat 1 = 1 from rfl)

theorem val_le_gammaLimit {limit : Nat} {stream left : BitStream} {n : Gamma}
    (h : readGamma limit stream = .ok (n, left)) : n.val ≤ gammaLimit limit := by
  have hone : 1 ≤ gammaLimit limit := Nat.le_of_succ_le (two_le_gammaLimit limit)
  obtain ⟨bits, behind, -, hends⟩ := exists_gammaEnds_readDigits Nat.one_pos hone (.nil stream)
  rw [← readGamma, h] at hends
  cases hends with
  | number _ hle hlength hbits => exact hle

/-! ### A long match in words -/

/-- A sum of words. There is none when it would not have room. -/
def sumWord? (a b : UInt64) : Option UInt64 :=
  if a.toNat + b.toNat < 2 ^ 64 then some (a + b) else none

/-- A difference of words. There is none when it would be below zero. -/
def subWord? (a b : UInt64) : Option UInt64 := if b ≤ a then some (a - b) else none

/-- A word with a byte behind it. There is none when one of its eight highest bits would be lost. -/
def joinByte? (high : UInt64) (low : UInt8) : Option UInt64 :=
  if high.toNat < 2 ^ 56 then sumWord? (high <<< 8) low.toUInt64 else none

theorem exists_sumWord?_eq {a b : UInt64} (h : a.toNat + b.toNat < 2 ^ 64) :
    ∃ sum, sumWord? a b = some sum ∧ sum.toNat = a.toNat + b.toNat :=
  ⟨a + b, if_pos h, by rw [UInt64.toNat_add, Nat.mod_eq_of_lt h]⟩

theorem exists_subWord?_eq {a b : UInt64} (h : b.toNat ≤ a.toNat) :
    ∃ difference, subWord? a b = some difference ∧ difference.toNat = a.toNat - b.toNat := by
  have hle : b ≤ a := UInt64.le_iff_toNat_le.mpr h
  exact ⟨a - b, if_pos hle, UInt64.toNat_sub_of_le a b hle⟩

theorem exists_joinByte?_eq {high : UInt64} (h : high.toNat < 2 ^ 56) (low : UInt8) :
    ∃ joined, joinByte? high low = some joined
      ∧ joined.toNat = 256 * high.toNat + low.toNat := by
  have hroom : high.toNat * 2 ^ 8 < 2 ^ 64 := by omega
  have hcount : (8 : UInt64).toNat = 8 := rfl
  have hshift : (high <<< 8).toNat = 256 * high.toNat := by
    rw [toNat_shiftLeft_of_lt hcount (by decide) hroom]
    omega
  have hlow := low.toNat_lt
  have hfits : (high <<< 8).toNat + low.toUInt64.toNat < 2 ^ 64 := by
    rw [hshift, UInt8.toNat_toUInt64]
    omega
  obtain ⟨joined, hjoined, hsum⟩ := exists_sumWord?_eq hfits
  refine ⟨joined, (if_pos h).trans hjoined, ?_⟩
  rw [hsum, hshift, UInt8.toNat_toUInt64]

/-- How far back a match begins and how long it is. -/
def nextMatchWord (limit lastOffset : UInt64) (afterMatch : Bool) : Checked (UInt64 × UInt64) := do
  let high ← nextGammaWord limit
  if !afterMatch && high == 2 then
    return (lastOffset, ← nextGammaWord limit)
  else
    let high ← demand (subWord? high (if afterMatch then 2 else 3))
    let offset ← demand (joinByte? high (← nextByte))
    let length ← demand (sumWord? (← nextGammaWord limit) (.ofNat (lengthBonus offset.toNat)))
    return (offset, length)

theorem lengthBonus_le (offset : Nat) : lengthBonus offset ≤ 2 := by
  rw [lengthBonus]
  split <;> split <;> split <;> omega

/-- The words are what the token of a match asks for. -/
def MatchWords (lastOffset : UInt64) (words : UInt64 × UInt64) (told : Option Token) : Prop :=
  ∃ token, told = some token
    ∧ token.directive lastOffset.toNat = .copy words.1.toNat words.2.toNat

/-- As long as the limit is below 2^55, no bit of an offset is lost: a match that is read in words is
the one that is read. -/
theorem follows_nextMatchWord {limit : UInt64} (hlimit : limit.toNat < 2 ^ 55)
    (lastOffset : UInt64) (afterMatch : Bool) :
    Follows (MatchWords lastOffset) (nextMatchWord limit lastOffset afterMatch)
      (readMatch limit.toNat afterMatch) := by
  have hroom : gammaLimit limit.toNat ≤ 2 ^ 56 := by
    rw [gammaLimit]
    omega
  have hgamma := (follows_nextGammaWord (Nat.lt_trans hlimit (by decide))).and
    fun _ _ _ => val_le_gammaLimit
  have hbias : (if afterMatch then 2 else 3 : UInt64).toNat = offsetBias afterMatch := by
    cases afterMatch <;> rfl
  rw [nextMatchWord, readMatch]
  apply hgamma.bind
  rintro word high ⟨hword, hhigh⟩
  have hagain : (!afterMatch && word == 2) = true ↔ high.val < offsetBias afterMatch := by
    rw [← again_iff, ← hword, Bool.and_eq_true, Bool.and_eq_true, beq_iff_eq, beq_iff_eq,
      ← UInt64.toNat_inj]
    rfl
  refine .ite hagain (fun _ => ?_) (fun hlong => ?_)
  · apply hgamma.bind
    rintro length _ ⟨hlength, -⟩
    refine Checked.follows_pure ⟨_, rfl, ?_⟩
    rw [Token.directive, hlength]
  · rw [← hbias, ← hword] at hlong
    obtain ⟨rest, hrest, hdifference⟩ := exists_subWord?_eq (Nat.le_of_not_lt hlong)
    rw [hword, hbias] at hdifference
    rw [Checked.demand_bind hrest]
    apply follows_nextByte.bind
    rintro low _ rfl
    have hsmall : rest.toNat < 2 ^ 56 := by
      have : 2 ≤ offsetBias afterMatch := by cases afterMatch <;> decide
      omega
    obtain ⟨offset, hoffset, hjoined⟩ := exists_joinByte?_eq hsmall low
    rw [Checked.demand_bind hoffset]
    apply hgamma.bind
    rintro word length ⟨hword, hlength⟩
    have hbonus : (UInt64.ofNat (lengthBonus offset.toNat)).toNat = lengthBonus offset.toNat :=
      UInt64.toNat_ofNat_of_lt' (Nat.lt_of_le_of_lt (lengthBonus_le _) (by decide))
    have hfits : word.toNat + (UInt64.ofNat (lengthBonus offset.toNat)).toNat < 2 ^ 64 := by
      have := lengthBonus_le offset.toNat
      omega
    obtain ⟨sum, hsum, htotal⟩ := exists_sumWord?_eq hfits
    rw [Checked.demand_bind hsum]
    refine Checked.follows_pure ⟨_, rfl, ?_⟩
    rw [Token.directive, htotal, hbonus, hword, hjoined, hdifference]

/-! ### The reading as a whole -/

/-- The reading of a gamma number takes these bits from the stream, no more than the limit allows, and
ends as they tell. What stands behind them decides nothing, unless the stream ends there. -/
structure ReadsGamma (limit : Nat) (stream : BitStream) (bits : List Bool) (left : BitStream) :
    Prop where
  reads : ReadsBits stream bits left
  length_le : bits.length ≤ 2 * (gammaLimit limit).log2 + 1
  ends : GammaEnds limit bits left (readGamma limit stream)
  number : ∀ n other behind, readGamma limit stream = .ok (n, left) → ReadsBits other bits behind →
    readGamma limit other = .ok (n, behind)
  tooLarge : ∀ other behind, readGamma limit stream = .error .gammaTooLarge →
    ReadsBits other bits behind → readGamma limit other = .error .gammaTooLarge

theorem exists_readsGamma (limit : Nat) (stream : BitStream) :
    ∃ bits left, ReadsGamma limit stream bits left := by
  have hone : 1 ≤ gammaLimit limit := Nat.le_of_succ_le (two_le_gammaLimit limit)
  have hstart : ReadsBits stream (openBits 1) stream := .nil stream
  obtain ⟨bits, left, hreads, hends⟩ := exists_gammaEnds_readDigits Nat.one_pos hone hstart
  refine ⟨bits, left, hreads, hends.length_le, hends, ?_, ?_⟩
  · intro n other behind hnumber hother
    rw [readGamma] at hnumber
    rw [hnumber] at hends
    cases hends with
    | number _ hle hlength hbits =>
        rw [ReadsBits, hbits, gammaPieces_eq] at hother
        exact readGamma_of_number hle hother
  · intro other behind hrefused hother
    rw [readGamma] at hrefused
    rw [hrefused] at hends
    cases hends with
    | tooLarge leading digit hpos hle hlt hbits =>
        rw [hbits] at hother
        exact readGamma_of_tooLarge hpos hle hlt hother

/-- Wherever a gamma number is read, the reading takes no more bits than the limit allows. They are the
digits of a number below the leading one with the bits behind them; or they spell a number beyond the
limit; or there are no more. All numbers on the way have room in a word of 64 bits. -/
theorem readGamma_exactly (limit : UInt64) (hlimit : limit.toNat < 2 ^ 62) (tape : Tape) :
    (∃ bits left, ReadsGamma limit.toNat tape.stream bits left)
      ∧ Agree (fun word n => word.toNat = n.val) (nextGammaWord limit tape)
        (readGamma limit.toNat tape.stream) := by
  exact ⟨exists_readsGamma limit.toNat tape.stream, follows_nextGammaWord hlimit tape⟩

/-- The bits of a six are the last one of a tag byte and the first three of the next. -/
theorem readGamma_exactly_across_tags : ∃ left,
    readGamma 3 ⟨[0x80], 1, [true]⟩ = .ok (⟨6, by decide⟩, left)
      ∧ ReadsGamma 3 ⟨[0x80], 1, [true]⟩ [true, true, false, false] left
      ∧ ∃ word behind,
        nextGammaWord 3 ⟨⟨#[0x01, 0x80], 1, by decide⟩, [true]⟩ = some (.ok (word, behind))
        ∧ word.toNat = 6 ∧ behind.stream = left := by
  obtain ⟨⟨bits, left, hreads⟩, hwords⟩ :=
    readGamma_exactly 3 (by decide) ⟨⟨#[0x01, 0x80], 1, by decide⟩, [true]⟩
  change ReadsGamma 3 ⟨[0x80], 1, [true]⟩ bits left at hreads
  have hsix : ReadsBits ⟨[0x80], 1, [true]⟩ (gammaBits 6) ⟨[], 2, List.replicate 5 false⟩ :=
    .bit rfl (.bit rfl (.bit rfl (.bit rfl (.nil _))))
  have hread : readGamma 3 ⟨[0x80], 1, [true]⟩
      = .ok (⟨6, by decide⟩, ⟨[], 2, List.replicate 5 false⟩) :=
    readGamma_of_number (by decide) hsix
  have hends := hreads.ends
  rw [hread] at hends
  cases hends with
  | number _ hle hlength hbits =>
      have hmap : bits.map Piece.bit = [true, true, false, false].map .bit := hbits
      obtain rfl := List.map_injective_iff.mpr (fun _ _ => Piece.bit.inj) hmap
      obtain ⟨word, behind, hword, hvalue, hbehind⟩ := Agree.exists_of_ok (hread ▸ hwords)
      exact ⟨_, hread, hreads, word, behind, hword, hvalue, hbehind⟩

end AdLibModule.Aplib
