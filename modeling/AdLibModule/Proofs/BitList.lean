import AdLibModule.BitList

/-! The byte that starts with given bits gives these bits back, followed by zeros; and a byte starts with
its own bits. -/

namespace AdLibModule

theorem byteBits_bitsToNat {bits : List Bool} (h : bits.length = 8) :
    byteBits (bitsToNat bits).toUInt8 = bits := by
  have hall : ∀ b₇ b₆ b₅ b₄ b₃ b₂ b₁ b₀ : Bool,
      byteBits (bitsToNat [b₇, b₆, b₅, b₄, b₃, b₂, b₁, b₀]).toUInt8
        = [b₇, b₆, b₅, b₄, b₃, b₂, b₁, b₀] := by
    decide +kernel
  match bits, h with
  | [b₇, b₆, b₅, b₄, b₃, b₂, b₁, b₀], _ => exact hall b₇ b₆ b₅ b₄ b₃ b₂ b₁ b₀

theorem byteBits_byteOfBits (bits : List Bool) :
    byteBits (byteOfBits bits) = bits.take 8 ++ List.replicate (8 - bits.length) false := by
  rw [byteOfBits, byteBits_bitsToNat, List.take_append, List.take_replicate]
  · rw [Nat.min_eq_left (Nat.sub_le _ _)]
  · rw [List.length_take, List.length_append, List.length_replicate]
    omega

/-- What the byte leaves out comes after it; at the end there are zeros. -/
theorem byteBits_byteOfBits_append (bits : List Bool) (zeros : Nat) :
    byteBits (byteOfBits bits) ++ (bits.drop 8 ++ List.replicate zeros false)
      = bits ++ List.replicate (8 - bits.length + zeros) false := by
  rw [byteBits_byteOfBits]
  by_cases hfull : 8 ≤ bits.length
  · rw [Nat.sub_eq_zero_of_le hfull, List.replicate_zero, List.append_nil, Nat.zero_add,
      ← List.append_assoc, List.take_append_drop]
  · have hshort : bits.length ≤ 8 := by omega
    rw [List.take_of_length_le hshort, List.drop_eq_nil_of_le hshort, List.nil_append,
      List.append_assoc, List.replicate_append_replicate]

theorem byteOfBits_byteBits (byte : UInt8) : byteOfBits (byteBits byte) = byte := by
  have hall : ∀ n : Fin 256, byteOfBits (byteBits (UInt8.ofNat n.val)) = UInt8.ofNat n.val := by
    decide +kernel
  have hbyte := hall ⟨byte.toNat, byte.toNat_lt⟩
  rwa [UInt8.ofNat_toNat] at hbyte

end AdLibModule
