import AdLibModule.Proofs.Sixpack.Climb

/-! The first code. Its nodes are numbered level by level from the root, so that halving a number
leads to the parent; the rows before any symbol was observed describe it. -/

namespace AdLibModule.Sixpack

/-- The tree below node `i`, every node with its number. -/
def Tree.numberedHeap : Nat → Nat → Tree Nat
  | 0, i => leaf (Symbol.ofNat (i - symbolCount)) i
  | depth + 1, i =>
    if i < symbolCount then fork i (numberedHeap depth (2 * i)) (numberedHeap depth (2 * i + 1))
    else leaf (Symbol.ofNat (i - symbolCount)) i

/-- The first code, every node with its number. -/
def Tree.initialShape : Tree Nat := numberedHeap 11 rootNumber

theorem Tree.count_numberedHeap (depth i : Nat) : (numberedHeap depth i).count = i := by
  cases depth with
  | zero => rfl
  | succ depth =>
      rw [numberedHeap]
      split <;> rfl

theorem leafNumber_ofNat {i : Nat} (hlow : symbolCount ≤ i) (hhigh : i < 2 * symbolCount) :
    leafNumber (Symbol.ofNat (i - symbolCount)) = i := by
  rw [leafNumber]
  show (i - symbolCount) % symbolCount + symbolCount = i
  rw [Nat.mod_eq_of_lt (by omega)]
  omega

/-- Nothing but a leaf leads to the leaf by halving. -/
theorem eq_leaf_iff {n i : Nat} (hlow : symbolCount ≤ i) (hi : i < 2 * symbolCount) :
    n = i ↔ n < 2 * symbolCount ∧ ∃ levels, n / 2 ^ levels = i := by
  constructor
  · rintro rfl
    exact ⟨hi, 0, by rw [Nat.pow_zero, Nat.div_one]⟩
  · rintro ⟨hn, levels, hlevels⟩
    cases levels with
    | zero => rwa [Nat.pow_zero, Nat.div_one] at hlevels
    | succ levels =>
        have hhalf : n / 2 ^ (levels + 1) ≤ n / 2 := by
          rw [Nat.pow_succ', ← Nat.div_div_eq_div_mul]
          exact Nat.div_le_self _ _
        omega

/-- The nodes below node `i` are those from which halving leads to `i`. -/
theorem Tree.mem_labels_numberedHeap {n : Nat} (depth i : Nat) (hdepth : symbolCount ≤ 2 ^ depth * i)
    (hi : i < 2 * symbolCount) :
    n ∈ (numberedHeap depth i).labels ↔ n < 2 * symbolCount ∧ ∃ levels, n / 2 ^ levels = i := by
  induction depth generalizing i with
  | zero =>
      rw [numberedHeap, labels, List.mem_singleton]
      exact eq_leaf_iff (by omega) hi
  | succ depth ih =>
      rw [numberedHeap]
      split
      · rename_i hinner
        rw [Nat.pow_succ, Nat.mul_assoc] at hdepth
        have hright : symbolCount ≤ 2 ^ depth * (2 * i + 1) :=
          Nat.le_trans hdepth (Nat.mul_le_mul_left _ (by omega))
        have hparent : ∀ levels, n / 2 ^ (levels + 1) = n / 2 ^ levels / 2 := fun levels => by
          rw [Nat.pow_succ, Nat.div_div_eq_div_mul]
        rw [labels, List.mem_cons, List.mem_append, ih _ hdepth (by omega), ih _ hright (by omega)]
        constructor
        · rintro (rfl | ⟨hn, levels, hlevels⟩ | ⟨hn, levels, hlevels⟩)
          · exact ⟨hi, 0, by rw [Nat.pow_zero, Nat.div_one]⟩
          · exact ⟨hn, levels + 1, by rw [hparent]; omega⟩
          · exact ⟨hn, levels + 1, by rw [hparent]; omega⟩
        · rintro ⟨hn, levels, hlevels⟩
          cases levels with
          | zero =>
              rw [Nat.pow_zero, Nat.div_one] at hlevels
              exact Or.inl hlevels
          | succ levels =>
              rw [hparent] at hlevels
              rcases Nat.mod_two_eq_zero_or_one (n / 2 ^ levels) with h | h
              · exact Or.inr (Or.inl ⟨hn, levels, by omega⟩)
              · exact Or.inr (Or.inr ⟨hn, levels, by omega⟩)
      · rename_i houter
        rw [labels, List.mem_singleton]
        exact eq_leaf_iff (by omega) hi

theorem Tree.nodup_labels_numberedHeap (depth i : Nat) (hdepth : symbolCount ≤ 2 ^ depth * i)
    (hi : i < 2 * symbolCount) : (numberedHeap depth i).labels.Nodup := by
  induction depth generalizing i with
  | zero => exact List.nodup_singleton i
  | succ depth ih =>
      rw [numberedHeap]
      split
      · rename_i hinner
        have hpos : 0 < i := Nat.pos_of_ne_zero fun h => by
          rw [h, Nat.mul_zero] at hdepth
          exact absurd hdepth (by decide)
        rw [Nat.pow_succ, Nat.mul_assoc] at hdepth
        have hright : symbolCount ≤ 2 ^ depth * (2 * i + 1) :=
          Nat.le_trans hdepth (Nat.mul_le_mul_left _ (by omega))
        have hhalves : ∀ {n low high : Nat}, low < high → n / 2 ^ high ≤ n / 2 ^ low / 2 := by
          intro n low high hlt
          rw [Nat.div_div_eq_div_mul, ← Nat.pow_succ]
          exact Nat.div_le_div_left (Nat.pow_le_pow_right (by decide) hlt) (Nat.two_pow_pos _)
        rw [labels, List.nodup_cons, List.nodup_append', List.mem_append,
          mem_labels_numberedHeap _ _ hdepth (by omega), mem_labels_numberedHeap _ _ hright (by omega)]
        refine ⟨?_, ih _ hdepth (by omega), ih _ hright (by omega), ?_⟩
        · rintro (⟨-, levels, hlevels⟩ | ⟨-, levels, hlevels⟩)
          · have := Nat.div_le_self i (2 ^ levels)
            omega
          · have := Nat.div_le_self i (2 ^ levels)
            omega
        · intro n hleft hright'
          rw [mem_labels_numberedHeap _ _ hdepth (by omega)] at hleft
          rw [mem_labels_numberedHeap _ _ hright (by omega)] at hright'
          obtain ⟨-, low, hlow⟩ := hleft
          obtain ⟨-, high, hhigh⟩ := hright'
          rcases Nat.lt_trichotomy low high with hlt | rfl | hlt
          · have := hhalves (n := n) hlt
            omega
          · omega
          · have := hhalves (n := n) hlt
            omega
      · exact List.nodup_singleton i

theorem Tree.numbersFit_numberedHeap (depth i : Nat) (hdepth : symbolCount ≤ 2 ^ depth * i)
    (hi : i < 2 * symbolCount) : (numberedHeap depth i).NumbersFit := by
  induction depth generalizing i with
  | zero => exact (leafNumber_ofNat (by omega) hi).symm
  | succ depth ih =>
      rw [numberedHeap]
      split
      · rename_i hinner
        rw [Nat.pow_succ, Nat.mul_assoc] at hdepth
        have hright : symbolCount ≤ 2 ^ depth * (2 * i + 1) :=
          Nat.le_trans hdepth (Nat.mul_le_mul_left _ (by omega))
        exact ⟨hinner, ih _ hdepth (by omega), ih _ hright (by omega)⟩
      · exact (leafNumber_ofNat (by omega) hi).symm

theorem Tree.numbered_initialShape : initialShape.Numbered := by
  have hdepth : symbolCount ≤ 2 ^ 11 * rootNumber := by decide
  refine ⟨rfl, numbersFit_numberedHeap _ _ hdepth (by decide),
    nodup_labels_numberedHeap _ _ hdepth (by decide), fun n => ?_⟩
  rw [initialShape, mem_labels_numberedHeap _ _ hdepth (by decide), and_comm]
  refine and_congr_left fun hn => ⟨?_, fun hpos => ?_⟩
  · rintro ⟨levels, hlevels⟩
    have := Nat.div_le_self n (2 ^ levels)
    omega
  · refine ⟨n.log2, Nat.div_eq_of_lt_le ?_ ?_⟩
    · rw [Nat.one_mul]
      exact Nat.log2_self_le (by omega)
    · rw [← Nat.pow_succ']
      exact Nat.lt_log2_self

namespace NodeTable

variable {κ : Type} [Counter κ]

theorem countIn_initial {n : Nat} (hn : n < 2 * symbolCount) :
    countIn (initial : NodeTable κ).count n = Counter.ofNat (if n < 2 then 0 else 1) := by
  unfold countIn initial
  dsimp only
  rw [Array.getElem?_ofFn, dif_pos hn, Option.getD_some]

theorem links_initial (depth i : Nat) (hpos : 1 ≤ i) :
    (initial : NodeTable κ).Links (Tree.numberedHeap depth i) := by
  induction depth generalizing i with
  | zero => trivial
  | succ depth ih =>
      rw [Tree.numberedHeap]
      split
      · rename_i hinner
        refine ⟨⟨?_, ?_⟩, ⟨?_, ?_⟩, ih _ (by omega), ih _ (by omega)⟩
        · rw [Tree.count_numberedHeap, initial, Array.getElem?_ofFn, dif_pos hinner]
        · rw [Tree.count_numberedHeap, initial, Array.getElem?_ofFn, dif_pos hinner,
            if_neg (Nat.ne_of_gt hpos)]
        · rw [Tree.count_numberedHeap, initial, Array.getElem?_ofFn, dif_pos (by omega)]
          exact congrArg some (by omega : 2 * i / 2 = i)
        · rw [Tree.count_numberedHeap, initial, Array.getElem?_ofFn, dif_pos (by omega)]
          exact congrArg some (by omega : (2 * i + 1) / 2 = i)
      · trivial

theorem complete_initial : (initial : NodeTable κ).Complete := by
  refine ⟨?_, ?_, ?_, ?_⟩ <;> rw [initial, Array.size_ofFn]

theorem describes_initial : (initial : NodeTable κ).Describes Tree.initialShape where
  complete := complete_initial
  numbered := Tree.numbered_initialShape
  links := links_initial 11 rootNumber (by decide)

theorem relabel_numberedHeap (depth i : Nat) (hlow : 2 ≤ i) (hhigh : i < 2 * symbolCount) :
    (Tree.numberedHeap depth i).relabel (countIn (initial : NodeTable κ).count)
      = Tree.heap depth i := by
  induction depth generalizing i with
  | zero => rw [Tree.numberedHeap, Tree.heap, Tree.relabel, countIn_initial hhigh, if_neg (by omega)]
  | succ depth ih =>
      rw [Tree.numberedHeap, Tree.heap]
      split
      · rw [Tree.relabel, ih _ (by omega) (by omega), ih _ (by omega) (by omega),
          countIn_initial hhigh, if_neg (by omega)]
      · rw [Tree.relabel, countIn_initial hhigh, if_neg (by omega)]

/-- The rows of the first code stand for the first tree. -/
theorem relabel_initialShape :
    Tree.initialShape.relabel (countIn (initial : NodeTable κ).count) = Tree.initial := by
  have hroot : countIn (initial : NodeTable κ).count rootNumber = Counter.ofNat 0 :=
    countIn_initial (by decide)
  rw [Tree.initialShape, Tree.numberedHeap, if_pos (by decide), Tree.relabel, hroot, Tree.initial,
    relabel_numberedHeap _ _ (by decide) (by decide),
    relabel_numberedHeap _ _ (by decide) (by decide), Nat.mul_one]

/-- To observe symbols in the rows is to observe them in the tree. -/
theorem exists_observeAll (symbols : List Symbol) :
    ∃ (observed : NodeTable κ) (shape : Tree Nat), initial.observeAll symbols = some observed
      ∧ observed.Describes shape
      ∧ shape.relabel (countIn observed.count) = symbols.foldl Tree.observe Tree.initial := by
  suffices hfrom : ∀ (table : NodeTable κ) (shape : Tree Nat), table.Describes shape →
      ∃ (observed : NodeTable κ) (shape' : Tree Nat), table.observeAll symbols = some observed
        ∧ observed.Describes shape'
        ∧ shape'.relabel (countIn observed.count)
          = symbols.foldl Tree.observe (shape.relabel (countIn table.count)) by
    rw [← relabel_initialShape]
    exact hfrom initial Tree.initialShape describes_initial
  induction symbols with
  | nil => exact fun table shape h => ⟨table, shape, rfl, h, rfl⟩
  | cons symbol symbols ih =>
      intro table shape h
      obtain ⟨next, shape', hnext, hdescribes, htree⟩ := h.observe symbol
      obtain ⟨observed, last, hobserved, hlast, htrees⟩ := ih next shape' hdescribes
      refine ⟨observed, last, ?_, hlast, ?_⟩
      · rw [observeAll, List.foldlM_cons, hnext]
        exact hobserved
      · rw [htrees, htree, List.foldl_cons]

end NodeTable

theorem Tree.mem_symbols_initial {κ : Type} [Counter κ] (symbol : Symbol) :
    symbol ∈ (initial : Tree κ).symbols := by
  rw [← NodeTable.relabel_initialShape, symbols_relabel]
  exact numbered_initialShape.mem_symbols symbol

theorem Tree.nodup_symbols_initial {κ : Type} [Counter κ] : (initial : Tree κ).symbols.Nodup := by
  rw [← NodeTable.relabel_initialShape, symbols_relabel]
  exact numbered_initialShape.nodup_symbols

theorem Tree.symbols_foldl_observe {κ : Type} [Counter κ] (symbols : List Symbol) :
    (symbols.foldl observe initial : Tree κ).symbols.Perm (initial : Tree κ).symbols := by
  induction symbols using List.reverseRecOn with
  | nil => exact List.Perm.refl _
  | append_singleton symbols symbol ih =>
      rw [List.foldl_append]
      exact (symbols_observe _ symbol).trans ih

theorem Tree.nodup_symbols_foldl_observe {κ : Type} [Counter κ] (symbols : List Symbol) :
    (symbols.foldl observe initial : Tree κ).symbols.Nodup :=
  (symbols_foldl_observe symbols).nodup_iff.mpr nodup_symbols_initial

end AdLibModule.Sixpack
