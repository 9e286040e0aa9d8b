import AdLibModule.Proofs.Sixpack.Initial

/-! What keeps the counts small. Give every symbol a weight, one more than how often it was observed.
Then no count exceeds the weight of the symbols below its node: a count is the sum of two counts that
do not, or one that was halved since, and where a node and its uncle change places, the parent is
recounted from its new children at once. So no sum that is formed exceeds the weight of all symbols. -/

namespace AdLibModule.Sixpack

/-! ### Sums -/

section Sums

variable {κ : Type} [Counter κ]

/-- The exact sums that a recount stands for, from `count` at the foot of the path up. -/
def recountSums (count : κ) : List (Frame κ) → List Nat
  | [] => []
  | frame :: path =>
    (Counter.toNat count + Counter.toNat frame.sibling.count)
      :: recountSums (Counter.add count frame.sibling.count) path

/-- The exact sums that a climb stands for: at each change of places the parent is recounted, and then
all above it. -/
def climbSums : Nat → Tree κ → List (Frame κ) → List Nat
  | steps + 1, node, frame :: above :: path =>
    let uncle := above.sibling
    if Counter.toNat uncle.count < Counter.toNat node.count then
      let sum := Counter.add uncle.count frame.sibling.count
      let swapped := { above with sibling := node } :: path
      let refreshed := refresh ({ frame with count := sum }.fill uncle) swapped
      (Counter.toNat uncle.count + Counter.toNat frame.sibling.count)
        :: (recountSums sum swapped ++ climbSums steps refreshed.1 refreshed.2)
    else
      climbSums steps (frame.fill node) (above :: path)
  | _, _, _ => []

/-- The exact sums for which counters are added when the symbol at the location is observed. -/
def Location.sums (location : Location κ) : List Nat :=
  let raised := Counter.add location.count (Counter.ofNat 1)
  (Counter.toNat location.count + 1) ::
    match location.path with
    | [] | [_] => []
    | path =>
      let refreshed := refresh (.leaf location.symbol raised) path
      recountSums raised path ++ climbSums path.length refreshed.1 refreshed.2

end Sums

/-! ### Weights -/

section Weight

variable {κ : Type} (weight : Symbol → Nat)

/-- The weight of all symbols of the tree. -/
def Tree.totalWeight (tree : Tree κ) : Nat := (tree.symbols.map weight).sum

/-- The weight of all symbols beside the way up. -/
def pathWeight (path : List (Frame κ)) : Nat :=
  ((path.flatMap (·.sibling.symbols)).map weight).sum

theorem Tree.totalWeight_leaf (symbol : Symbol) (count : κ) :
    (leaf symbol count).totalWeight weight = weight symbol := by
  rw [totalWeight, symbols, List.map_singleton, List.sum_singleton]

theorem Tree.totalWeight_fork (count : κ) (left right : Tree κ) :
    (fork count left right).totalWeight weight
      = left.totalWeight weight + right.totalWeight weight := by
  rw [totalWeight, symbols, List.map_append, List.sum_append, totalWeight, totalWeight]

theorem Frame.totalWeight_fill (frame : Frame κ) (child : Tree κ) :
    (frame.fill child).totalWeight weight
      = child.totalWeight weight + frame.sibling.totalWeight weight := by
  rw [Tree.totalWeight, ((frame.symbols_fill child).map weight).sum_nat, List.map_append,
    List.sum_append, Tree.totalWeight, Tree.totalWeight]

theorem pathWeight_cons (frame : Frame κ) (path : List (Frame κ)) :
    pathWeight weight (frame :: path) = frame.sibling.totalWeight weight + pathWeight weight path := by
  rw [pathWeight, List.flatMap_cons, List.map_append, List.sum_append, pathWeight, Tree.totalWeight]

theorem totalWeight_plug (node : Tree κ) (path : List (Frame κ)) :
    (plug node path).totalWeight weight = node.totalWeight weight + pathWeight weight path := by
  induction path generalizing node with
  | nil => rfl
  | cons frame path ih => rw [plug, ih, Frame.totalWeight_fill, pathWeight_cons, Nat.add_assoc]

variable [Counter κ]

/-- No count exceeds the weight of the symbols below it. -/
def Tree.Within : Tree κ → Prop
  | leaf symbol count => Counter.toNat count ≤ weight symbol
  | fork count left right =>
    Counter.toNat count ≤ left.totalWeight weight + right.totalWeight weight
      ∧ left.Within ∧ right.Within

/-- Neither on the way up nor beside it does a count exceed the weight of the symbols below it, when
those below the foot of the path weigh `below`. -/
def PathWithin (below : Nat) : List (Frame κ) → Prop
  | [] => True
  | frame :: path =>
    Counter.toNat frame.count ≤ below + frame.sibling.totalWeight weight
      ∧ frame.sibling.Within weight
      ∧ PathWithin (below + frame.sibling.totalWeight weight) path

variable {weight}

theorem Tree.Within.count_le {tree : Tree κ} (h : tree.Within weight) :
    Counter.toNat tree.count ≤ tree.totalWeight weight := by
  cases tree with
  | leaf symbol count =>
      rw [totalWeight_leaf]
      exact h
  | fork count left right =>
      rw [totalWeight_fork]
      exact h.1

theorem Frame.within_fill {frame : Frame κ} {child : Tree κ} :
    (frame.fill child).Within weight
      ↔ Counter.toNat frame.count ≤ child.totalWeight weight + frame.sibling.totalWeight weight
        ∧ child.Within weight ∧ frame.sibling.Within weight := by
  obtain ⟨isRight, count, sibling⟩ := frame
  cases isRight with
  | false => exact Iff.rfl
  | true =>
      rw [Nat.add_comm]
      exact and_congr_right fun _ => and_comm

theorem within_plug {node : Tree κ} {path : List (Frame κ)} :
    (plug node path).Within weight
      ↔ node.Within weight ∧ PathWithin weight (node.totalWeight weight) path := by
  induction path generalizing node with
  | nil => exact (and_iff_left trivial).symm
  | cons frame path ih =>
      rw [plug, ih, Frame.within_fill, Frame.totalWeight_fill, PathWithin]
      tauto

/-! ### Heavier symbols -/

section Mono

variable {heavier : Symbol → Nat} (hle : ∀ symbol, weight symbol ≤ heavier symbol)
include hle

omit [Counter κ] in
theorem Tree.totalWeight_mono (tree : Tree κ) : tree.totalWeight weight ≤ tree.totalWeight heavier :=
  List.sum_le_sum fun symbol _ => hle symbol

theorem Tree.Within.mono {tree : Tree κ} (h : tree.Within weight) : tree.Within heavier := by
  induction tree with
  | leaf symbol count => exact Nat.le_trans h (hle symbol)
  | fork count left right ihl ihr =>
      have hl := left.totalWeight_mono hle
      have hr := right.totalWeight_mono hle
      exact ⟨Nat.le_trans h.1 (Nat.add_le_add hl hr), ihl h.2.1, ihr h.2.2⟩

theorem PathWithin.mono {path : List (Frame κ)} {below above : Nat} (hbelow : below ≤ above)
    (h : PathWithin weight below path) : PathWithin heavier above path := by
  induction path generalizing below above with
  | nil => trivial
  | cons frame path ih =>
      have hsum := Nat.add_le_add hbelow (frame.sibling.totalWeight_mono hle)
      exact ⟨Nat.le_trans h.1 hsum, h.2.1.mono hle, ih hsum h.2.2⟩

end Mono

end Weight

/-! ### Counts of 16 bits -/

section Bounds

variable {weight : Symbol → Nat}

theorem toNat_add_le (a b : UInt16) :
    Counter.toNat (Counter.add a b) ≤ Counter.toNat a + Counter.toNat b := by
  show (a + b).toNat ≤ a.toNat + b.toNat
  rw [UInt16.toNat_add]
  exact Nat.mod_le _ _

theorem toNat_halved (count : UInt16) : Counter.toNat (halved count) = Counter.toNat count / 2 := by
  have hlt : Counter.toNat count < 65536 := count.toNat_lt
  exact UInt16.toNat_ofNat_of_lt' (by show _ < 65536; omega)

theorem toNat_halved_le (count : UInt16) : Counter.toNat (halved count) ≤ Counter.toNat count := by
  rw [toNat_halved]
  exact Nat.div_le_self _ _

theorem Tree.totalWeight_halve (tree : Tree UInt16) :
    tree.halve.totalWeight weight = tree.totalWeight weight := by
  rw [totalWeight, halve_eq_relabel, symbols_relabel, totalWeight]

theorem Tree.Within.halve {tree : Tree UInt16} (h : tree.Within weight) :
    tree.halve.Within weight := by
  induction tree with
  | leaf symbol count => exact Nat.le_trans (toNat_halved_le count) h
  | fork count left right ihl ihr =>
      refine ⟨?_, ihl h.2.1, ihr h.2.2⟩
      rw [totalWeight_halve, totalWeight_halve]
      exact Nat.le_trans (toNat_halved_le count) h.1

theorem PathWithin.halve {path : List (Frame UInt16)} {below : Nat}
    (h : PathWithin weight below path) : PathWithin weight below (path.map Frame.halve) := by
  induction path generalizing below with
  | nil => trivial
  | cons frame path ih =>
      have hsibling : frame.halve.sibling.totalWeight weight = frame.sibling.totalWeight weight :=
        frame.sibling.totalWeight_halve
      rw [List.map_cons, PathWithin, hsibling]
      exact ⟨Nat.le_trans (toNat_halved_le frame.count) h.1, h.2.1.halve, ih h.2.2⟩

/-- A recount forms no sum beyond the weight of all symbols, and none of the new counts exceeds the
weight of those below it. -/
theorem PathWithin.recount {path : List (Frame UInt16)} {below : Nat} {count : UInt16}
    (h : PathWithin weight below path) (hcount : Counter.toNat count ≤ below) :
    PathWithin weight below (recount count path)
      ∧ ∀ sum ∈ recountSums count path, sum ≤ below + pathWeight weight path := by
  induction path generalizing below count with
  | nil => exact ⟨trivial, fun sum hsum => absurd hsum List.not_mem_nil⟩
  | cons frame path ih =>
      have hsum := Nat.add_le_add hcount h.2.1.count_le
      have hadd := Nat.le_trans (toNat_add_le count frame.sibling.count) hsum
      obtain ⟨hpath, hsums⟩ := ih h.2.2 hadd
      refine ⟨⟨hadd, h.2.1, hpath⟩, ?_⟩
      rw [pathWeight_cons, ← Nat.add_assoc]
      intro sum hmem
      rcases List.mem_cons.mp hmem with rfl | hmem
      · exact Nat.le_trans hsum (Nat.le_add_right _ _)
      · exact hsums sum hmem

theorem weight_refresh (node : Tree UInt16) (path : List (Frame UInt16)) :
    (refresh node path).1.totalWeight weight = node.totalWeight weight
      ∧ pathWeight weight (refresh node path).2 = pathWeight weight path := by
  obtain ⟨hnode, hpath⟩ := symbols_refresh node path
  rw [Tree.totalWeight, hnode, pathWeight, hpath]
  exact ⟨rfl, rfl⟩

theorem within_refresh {node : Tree UInt16} {path : List (Frame UInt16)}
    (hnode : node.Within weight) (hpath : PathWithin weight (node.totalWeight weight) path) :
    (refresh node path).1.Within weight
      ∧ PathWithin weight ((refresh node path).1.totalWeight weight) (refresh node path).2 := by
  have hrecount := (hpath.recount hnode.count_le).1
  rw [(weight_refresh node path).1]
  unfold refresh
  dsimp only
  split
  · exact ⟨hnode.halve, hrecount.halve⟩
  · exact ⟨hnode, hrecount⟩

/-- When a node and its uncle have changed places and the parent is recounted, the counts still keep
within the weights, and the weight of all symbols is the same. -/
theorem within_exchange {node : Tree UInt16} {frame above : Frame UInt16}
    {path : List (Frame UInt16)} (hnode : node.Within weight)
    (hpath : PathWithin weight (node.totalWeight weight) (frame :: above :: path))
    {parent : Tree UInt16} {swapped : List (Frame UInt16)}
    (hparent : parent = { frame with
      count := Counter.add above.sibling.count frame.sibling.count }.fill above.sibling)
    (hswapped : swapped = { above with sibling := node } :: path) :
    parent.Within weight ∧ PathWithin weight (parent.totalWeight weight) swapped
      ∧ Counter.toNat above.sibling.count + Counter.toNat frame.sibling.count
        ≤ parent.totalWeight weight
      ∧ parent.totalWeight weight + pathWeight weight swapped
        = node.totalWeight weight + pathWeight weight (frame :: above :: path) := by
  subst hparent hswapped
  obtain ⟨-, hsibling, habove, huncle, hrest⟩ := hpath
  have hsum := Nat.add_le_add huncle.count_le hsibling.count_le
  have hbelow : above.sibling.totalWeight weight + frame.sibling.totalWeight weight
      + node.totalWeight weight = node.totalWeight weight
        + frame.sibling.totalWeight weight + above.sibling.totalWeight weight := by omega
  rw [Frame.totalWeight_fill, PathWithin, pathWeight_cons, pathWeight_cons, pathWeight_cons]
  dsimp only
  rw [hbelow]
  refine ⟨Frame.within_fill.mpr ⟨?_, huncle, hsibling⟩, ⟨habove, hnode, hrest⟩, hsum, by omega⟩
  exact Nat.le_trans (toNat_add_le _ _) hsum

theorem within_climb {steps : Nat} {node : Tree UInt16} {path : List (Frame UInt16)}
    (hnode : node.Within weight) (hpath : PathWithin weight (node.totalWeight weight) path) :
    (climb steps node path).Within weight
      ∧ ∀ sum ∈ climbSums steps node path,
        sum ≤ node.totalWeight weight + pathWeight weight path := by
  fun_induction climb steps node path with
  | case1 steps node frame above path uncle hlt sum refreshed ih =>
      obtain ⟨hparent, hswapped, hsum, htotal⟩ := within_exchange hnode hpath rfl rfl
      obtain ⟨hnode', hpath'⟩ := within_refresh hparent hswapped
      obtain ⟨hclimb, hsums⟩ := ih hnode' hpath'
      have hrecount := (hswapped.recount hparent.count_le).2
      rw [(weight_refresh _ _).1, (weight_refresh _ _).2] at hsums
      rw [Tree.count_fill] at hrecount
      refine ⟨hclimb, ?_⟩
      rw [climbSums, if_pos hlt, ← htotal]
      intro n hmem
      rcases List.mem_cons.mp hmem with rfl | hmem
      · exact Nat.le_trans hsum (Nat.le_add_right _ _)
      · rcases List.mem_append.mp hmem with hmem | hmem
        · exact hrecount n hmem
        · exact hsums n hmem
  | case2 steps node frame above path uncle hlt ih =>
      rw [climbSums, if_neg hlt]
      obtain ⟨hframe, hsibling, hrest⟩ := hpath
      rw [frame.totalWeight_fill weight node] at ih
      rw [pathWeight_cons, ← Nat.add_assoc]
      exact ih (Frame.within_fill.mpr ⟨hframe, hnode, hsibling⟩) hrest
  | case3 steps node path hshort =>
      refine ⟨within_plug.mpr ⟨hnode, hpath⟩, ?_⟩
      rw [climbSums]
      · exact fun sum hsum => absurd hsum List.not_mem_nil
      · exact hshort

/-- To observe a symbol forms no sum beyond the weight of all symbols, where the symbol weighs one more
than before, and the counts keep within the weights. -/
theorem Location.within_observe {location : Location UInt16} {heavier : Symbol → Nat}
    (hle : ∀ symbol, weight symbol ≤ heavier symbol)
    (hheavier : weight location.symbol < heavier location.symbol)
    (h : (plug (.leaf location.symbol location.count) location.path).Within weight) :
    location.observe.Within heavier
      ∧ ∀ sum ∈ location.sums,
        sum ≤ (plug (.leaf location.symbol location.count) location.path).totalWeight heavier := by
  obtain ⟨symbol, count, path⟩ := location
  dsimp only at hheavier h ⊢
  obtain ⟨hcount, hpath⟩ := within_plug.mp h
  have hraised : Counter.toNat count + 1 ≤ heavier symbol :=
    Nat.le_trans (Nat.succ_le_succ hcount) hheavier
  have hleaf : (Tree.leaf symbol (Counter.add count (Counter.ofNat 1))).Within heavier :=
    Nat.le_trans (toNat_add_le count _) hraised
  have hweight := Tree.totalWeight_leaf heavier symbol (Counter.add count (Counter.ofNat 1))
  have hpath' : PathWithin heavier (heavier symbol) path := by
    rw [Tree.totalWeight_leaf] at hpath
    exact hpath.mono hle (hle symbol)
  rw [totalWeight_plug, Tree.totalWeight_leaf]
  have hfirst : Counter.toNat count + 1 ≤ heavier symbol + pathWeight heavier path :=
    Nat.le_trans hraised (Nat.le_add_right _ _)
  rw [← hweight] at hpath'
  rcases path with - | ⟨frame, - | ⟨above, rest⟩⟩
  · exact ⟨hleaf, List.forall_mem_singleton.mpr hfirst⟩
  · exact ⟨Frame.within_fill.mpr ⟨hpath'.1, hleaf, hpath'.2.1⟩,
      List.forall_mem_singleton.mpr hfirst⟩
  · have hrecount := (hpath'.recount hleaf.count_le).2
    obtain ⟨hnode, hup⟩ := within_refresh hleaf hpath'
    obtain ⟨hclimb, hsums⟩ := @within_climb heavier (frame :: above :: rest).length _ _ hnode hup
    rw [(weight_refresh _ _).1, (weight_refresh _ _).2, hweight] at hsums
    rw [hweight] at hrecount
    refine ⟨hclimb, List.forall_mem_cons.mpr ⟨hfirst, List.forall_mem_append.mpr ⟨?_, ?_⟩⟩⟩
    · exact hrecount
    · exact hsums

end Bounds

/-! ### Weights after symbols were observed -/

/-- One more than how often the symbol is among those that were observed. -/
def weightAfter (symbols : List Symbol) (symbol : Symbol) : Nat := 1 + symbols.count symbol

theorem weightAfter_concat (symbols : List Symbol) (last symbol : Symbol) :
    weightAfter (symbols ++ [last]) symbol
      = weightAfter symbols symbol + if last = symbol then 1 else 0 := by
  rw [weightAfter, weightAfter, List.count_append, List.count_singleton, Nat.add_assoc]
  simp only [beq_iff_eq]

theorem totalWeight_weightAfter_le {κ : Type} {tree : Tree κ} (hnodup : tree.symbols.Nodup)
    (symbols : List Symbol) :
    tree.totalWeight (weightAfter symbols) ≤ symbolCount + symbols.length := by
  have hcount : ∑ symbol : Symbol, symbols.count symbol = symbols.length := by
    have hmem : ∀ symbol ∈ (symbols : Multiset Symbol), symbol ∈ Finset.univ := fun symbol _ =>
      Finset.mem_univ symbol
    rw [← Multiset.coe_card, ← Multiset.sum_count_eq_card hmem]
    simp only [Multiset.coe_count]
  calc tree.totalWeight (weightAfter symbols)
      = ∑ symbol ∈ tree.symbols.toFinset, weightAfter symbols symbol :=
        (List.sum_toFinset _ hnodup).symm
    _ ≤ ∑ symbol : Symbol, weightAfter symbols symbol :=
        Finset.sum_le_sum_of_subset (Finset.subset_univ _)
    _ = symbolCount + symbols.length := by
        simp only [weightAfter, Finset.sum_add_distrib, hcount, Finset.sum_const, Finset.card_univ,
          Fintype.card_fin, smul_eq_mul, Nat.mul_one]

theorem Tree.within_heap (depth i : Nat) :
    (heap depth i : Tree UInt16).Within (weightAfter [])
      ∧ 1 ≤ (heap depth i : Tree UInt16).totalWeight (weightAfter []) := by
  have hleaf : ∀ symbol, (leaf symbol (Counter.ofNat 1) : Tree UInt16).Within (weightAfter [])
      ∧ 1 ≤ (leaf symbol (Counter.ofNat 1) : Tree UInt16).totalWeight (weightAfter []) := by
    intro symbol
    rw [totalWeight_leaf]
    exact ⟨Nat.le_refl 1, Nat.le_refl 1⟩
  induction depth generalizing i with
  | zero => exact hleaf _
  | succ depth ih =>
      rw [heap]
      split
      · obtain ⟨hleft, hone⟩ := ih (2 * i)
        obtain ⟨hright, -⟩ := ih (2 * i + 1)
        rw [totalWeight_fork]
        exact ⟨⟨Nat.le_trans hone (Nat.le_add_right _ _), hleft, hright⟩,
          Nat.le_trans hone (Nat.le_add_right _ _)⟩
      · exact hleaf _

theorem Tree.within_initial : (initial : Tree UInt16).Within (weightAfter []) :=
  ⟨Nat.zero_le _, (within_heap 10 2).1, (within_heap 10 3).1⟩

/-- To observe a symbol that was found in the tree forms no sum beyond the weight of all symbols. -/
theorem Tree.Within.observe_locate {tree : Tree UInt16} {symbols : List Symbol} {symbol : Symbol}
    {location : Location UInt16} (h : tree.Within (weightAfter symbols))
    (hlocate : tree.locate symbol [] = some location) :
    location.observe.Within (weightAfter (symbols ++ [symbol]))
      ∧ ∀ sum ∈ location.sums, sum ≤ tree.totalWeight (weightAfter (symbols ++ [symbol])) := by
  obtain ⟨rfl, hplug⟩ := plug_of_locate_eq_some hlocate
  have hle : ∀ other, weightAfter symbols other
      ≤ weightAfter (symbols ++ [location.symbol]) other := by
    intro other
    rw [weightAfter_concat]
    exact Nat.le_add_right _ _
  have hlt : weightAfter symbols location.symbol
      < weightAfter (symbols ++ [location.symbol]) location.symbol := by
    rw [weightAfter_concat, if_pos rfl]
    exact Nat.lt_succ_self _
  have htree : plug (.leaf location.symbol location.count) location.path = tree := hplug
  rw [← htree] at h ⊢
  exact Location.within_observe hle hlt h

theorem Tree.Within.observe {tree : Tree UInt16} {symbols : List Symbol} {symbol : Symbol}
    (h : tree.Within (weightAfter symbols)) (hmem : symbol ∈ tree.symbols) :
    (tree.observe symbol).Within (weightAfter (symbols ++ [symbol])) := by
  obtain ⟨location, hlocate⟩ := Option.isSome_iff_exists.mp (isSome_locate_iff.mpr hmem)
  rw [Tree.observe, hlocate]
  exact (h.observe_locate hlocate).1

/-- No count exceeds the weight of the symbols below it, whatever symbols were observed. -/
theorem Tree.within_foldl_observe (symbols : List Symbol) :
    (symbols.foldl observe initial : Tree UInt16).Within (weightAfter symbols) := by
  induction symbols using List.reverseRecOn with
  | nil => exact within_initial
  | append_singleton symbols symbol ih =>
      rw [List.foldl_append]
      exact ih.observe ((symbols_foldl_observe symbols).mem_iff.mpr (mem_symbols_initial symbol))

end AdLibModule.Sixpack
