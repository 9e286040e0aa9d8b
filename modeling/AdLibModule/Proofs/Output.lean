import AdLibModule.Output

/-! Copies from within a run of one byte. Both packers find such runs and nothing else. -/

namespace AdLibModule

/-- A copy from within a run goes on with the run. -/
theorem Output.toList_repeatBack_run {out : Array UInt8} {before : List UInt8} {last : UInt8}
    {behind distance : Nat} (hout : out.toList = before ++ List.replicate behind last)
    (hpos : 1 ≤ distance) (hbehind : distance ≤ behind) (count : Nat) :
    (repeatBack out distance count).toList = before ++ List.replicate (behind + count) last := by
  induction count generalizing out behind with
  | zero => exact hout
  | succ count ih =>
      have hsize : out.size = before.length + behind := by
        rw [← Array.length_toList, hout, List.length_append, List.length_replicate]
      have hbyte : out.getD (out.size - distance) 0 = last := by
        rw [Array.getD_eq_getD_getElem?, ← Array.getElem?_toList, hout,
          List.getElem?_append_right (by omega), List.getElem?_replicate, if_pos (by omega)]
        rfl
      rw [repeatBack, hbyte, Nat.add_comm count, ← Nat.add_assoc]
      refine ih ?_ (by omega)
      rw [Array.toList_push, hout, List.replicate_succ', List.append_assoc]

theorem take_eq_replicate {last : UInt8} {data : List UInt8} {count : Nat}
    (h : count ≤ (data.takeWhile (· == last)).length) :
    data.take count = List.replicate count last := by
  have htake : data.take count = (data.takeWhile (· == last)).take count :=
    calc data.take count
        = (data.takeWhile (· == last) ++ data.dropWhile (· == last)).take count := by
          rw [List.takeWhile_append_dropWhile]
      _ = (data.takeWhile (· == last)).take count := List.take_append_of_le_length h
  rw [htake, List.eq_replicate_iff]
  refine ⟨List.length_take_of_le h, fun byte hbyte => ?_⟩
  exact eq_of_beq (List.all_eq_true.mp List.all_takeWhile byte (List.mem_of_mem_take hbyte))

/-- What a run leaves of the data goes on behind the run. -/
theorem replicate_append_drop {last byte : UInt8} {rest : List UInt8} {count : Nat}
    (hpos : 0 < count) (h : count ≤ ((byte :: rest).takeWhile (· == last)).length) :
    List.replicate count last ++ rest.drop (count - 1) = byte :: rest := by
  obtain ⟨left, rfl⟩ := Nat.exists_eq_add_one_of_ne_zero (Nat.ne_of_gt hpos)
  calc List.replicate (left + 1) last ++ rest.drop left
      = (byte :: rest).take (left + 1) ++ (byte :: rest).drop (left + 1) := by
        rw [take_eq_replicate h, List.drop_succ_cons]
    _ = byte :: rest := List.take_append_drop _ _

end AdLibModule
