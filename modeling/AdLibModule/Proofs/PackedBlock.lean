import AdLibModule.PackedBlock

/-! An unpacked block has the size that was asked for: no output is longer, and zeros stand behind one
that is shorter. -/

namespace AdLibModule

theorem Sixpack.size_of_decodeFrom {κ : Type} [Counter κ] {limit : Nat} {tree : Tree κ}
    {out result : Array UInt8} {stream left : BitStream} (hout : out.size ≤ limit)
    (h : decodeFrom limit tree out stream = .ok (result, left)) : result.size ≤ limit := by
  fun_induction decodeFrom limit tree out stream with
  | case1 => cases h
  | case2 =>
      cases h
      exact hout
  | case3 => cases h
  | case4 tree out stream token tree' stream' _ grown hgrown ih =>
      exact ih (Token.size_of_append hgrown).2 h

theorem Aplib.size_of_decodeFrom {limit : Nat} {state : State} {result : Array UInt8}
    {stream left : BitStream} (hout : state.out.size ≤ limit)
    (h : decodeFrom limit state stream = .ok (result, left)) : result.size ≤ limit := by
  fun_induction decodeFrom limit state stream with
  | case1 => cases h
  | case2 =>
      cases h
      exact hout
  | case3 => cases h
  | case4 state stream token stream' _ next hnext ih =>
      exact ih (State.size_of_append hnext).2 h

theorem Sixpack.size_of_decode {source out : Array UInt8} {limit : Nat}
    (h : decode source limit = .ok out) : out.size ≤ limit := by
  obtain ⟨⟨result, left⟩, hdecode, rfl⟩ := map_eq_ok_iff.mp h
  have hempty : (#[] : Array UInt8).size ≤ limit := Nat.zero_le limit
  exact size_of_decodeFrom hempty hdecode

theorem Aplib.size_of_decode {source out : Array UInt8} {limit : Nat}
    (h : decode source limit = .ok out) : out.size ≤ limit := by
  obtain ⟨⟨result, left⟩, hdecode, rfl⟩ := map_eq_ok_iff.mp h
  rw [decodeStream] at hdecode
  split at hdecode
  · cases hdecode
  · split at hdecode
    · cases hdecode
    · rename_i _ first hput
      exact size_of_decodeFrom (size_of_put hput).2 hdecode

theorem Output.size_zeroFill {out : Array UInt8} {size : Nat} (h : out.size ≤ size) :
    (zeroFill out size).size = size := by
  rw [zeroFill, Array.size_append, Array.size_replicate, Nat.add_sub_cancel' h]

theorem Compression.size_of_unpack {scheme : Compression} {source block : Array UInt8} {size : Nat}
    (h : scheme.unpack source size = .ok block) : block.size = size := by
  cases scheme with
  | sixpack =>
      obtain ⟨out, hdecode, rfl⟩ := map_eq_ok_iff.mp h
      exact Output.size_zeroFill (Sixpack.size_of_decode hdecode)
  | aplib =>
      obtain ⟨out, hdecode, rfl⟩ := map_eq_ok_iff.mp h
      exact Output.size_zeroFill (Aplib.size_of_decode hdecode)
  | raw =>
      rw [unpack] at h
      split at h
      · cases h
        assumption
      · cases h
  | lzw => cases h
  | lzss => cases h

end AdLibModule
