import AdLibModule.Proofs.Sixpack.Weight

/-! What the count of the root is made of. From a node up, the count of the node and those beside the way
add up to a sum, and so they do from each node above it. A recount makes all these sums the same, namely
the count that the root comes to, and neither halving nor an exchange lets one of them grow. So it is
known before a symbol climbs how far any count can go. -/

namespace AdLibModule.Sixpack

section Sums

variable {κ : Type} [Counter κ]

/-- The sum of the counts beside the way up. -/
def siblingSum (path : List (Frame κ)) : Nat :=
  (path.map fun frame => Counter.toNat frame.sibling.count).sum

/-- The sums at the levels of the way up, from a node with this count on. -/
def levelSums (count : κ) : List (Frame κ) → List Nat
  | [] => [Counter.toNat count]
  | frame :: path =>
    (Counter.toNat count + siblingSum (frame :: path)) :: levelSums frame.count path

theorem siblingSum_cons (frame : Frame κ) (path : List (Frame κ)) :
    siblingSum (frame :: path) = Counter.toNat frame.sibling.count + siblingSum path := by
  rw [siblingSum, List.map_cons, List.sum_cons, siblingSum]

theorem siblingSum_recount (count : κ) (path : List (Frame κ)) :
    siblingSum (recount count path) = siblingSum path := by
  induction path generalizing count with
  | nil => rfl
  | cons frame path ih => rw [recount, siblingSum_cons, siblingSum_cons, ih]

theorem count_add_siblingSum_mem_levelSums (count : κ) (path : List (Frame κ)) :
    Counter.toNat count + siblingSum path ∈ levelSums count path := by
  cases path with
  | nil => exact List.mem_singleton_self _
  | cons frame path => exact List.mem_cons_self

/-- The count of the root is the sum at the last level. -/
theorem count_plug_mem_levelSums (node : Tree κ) (path : List (Frame κ)) :
    Counter.toNat (plug node path).count ∈ levelSums node.count path := by
  induction path generalizing node with
  | nil => exact List.mem_singleton_self _
  | cons frame path ih =>
      have hlast := ih (frame.fill node)
      rw [Tree.count_fill] at hlast
      exact List.mem_cons_of_mem _ hlast

theorem countLimit_mem_levelSums {node : Tree κ} {path : List (Frame κ)}
    (h : path.getLast?.any (Counter.toNat ·.count == countLimit) = true) :
    countLimit ∈ levelSums node.count path := by
  obtain ⟨root, hlast, hroot⟩ := (Option.any_eq_true _ _).mp h
  have hcount := count_plug_mem_levelSums node path
  rw [count_plug, hlast] at hcount
  rwa [← eq_of_beq hroot]

end Sums

theorem siblingSum_halve_le (path : List (Frame UInt16)) :
    siblingSum (path.map Frame.halve) ≤ siblingSum path := by
  induction path with
  | nil => exact Nat.le_refl 0
  | cons frame path ih =>
      have hcount : frame.halve.sibling.count = halved frame.sibling.count := by
        rw [Frame.halve, Tree.halve_eq_relabel, Tree.count_relabel]
      rw [List.map_cons, siblingSum_cons, siblingSum_cons, hcount]
      exact Nat.add_le_add (toNat_halved_le _) ih

/-- No sum grows when all counts are halved. -/
theorem exists_le_of_mem_levelSums_halve {count : UInt16} {path : List (Frame UInt16)} {sum : Nat}
    (h : sum ∈ levelSums (halved count) (path.map Frame.halve)) :
    ∃ before ∈ levelSums count path, sum ≤ before := by
  induction path generalizing count with
  | nil =>
      obtain rfl := List.mem_singleton.mp h
      exact ⟨_, List.mem_singleton_self _, toNat_halved_le count⟩
  | cons frame path ih =>
      rcases List.mem_cons.mp h with rfl | h
      · exact ⟨_, List.mem_cons_self,
          Nat.add_le_add (toNat_halved_le count) (siblingSum_halve_le (frame :: path))⟩
      · obtain ⟨before, hbefore, hle⟩ := ih h
        exact ⟨before, List.mem_cons_of_mem _ hbefore, hle⟩

/-! ### Conditions on the sums -/

/-- The condition is kept when a sum wraps round, and when sums become smaller after one has come to the
limit. -/
structure KeptBySums (holds : Nat → Prop) : Prop where
  wrap : ∀ (a b : UInt16) (rest : Nat), holds (Counter.toNat a + Counter.toNat b + rest) →
    holds (Counter.toNat (Counter.add a b) + rest)
  halve : holds countLimit → ∀ sum less, less ≤ sum → holds sum → holds less

theorem keptBySums_le (bound : Nat) : KeptBySums (· ≤ bound) where
  wrap a b rest h := (Nat.add_le_add_right (toNat_add_le a b) rest).trans h
  halve _ _ _ hless hsum := hless.trans hsum

/-- A sum beyond the limit for which there is room in a word stays just the same. -/
theorem keptBySums_eq {total : Nat} (hbeyond : countLimit < total) (hroom : total < UInt16.size) :
    KeptBySums (· = total) where
  wrap a b rest h := by
    have hfits : Counter.toNat a + Counter.toNat b < UInt16.size := by omega
    have hexact : Counter.toNat (Counter.add a b) = Counter.toNat a + Counter.toNat b :=
      (UInt16.toNat_add a b).trans (Nat.mod_eq_of_lt hfits)
    rw [hexact, h]
  halve hlimit := absurd hlimit (Nat.ne_of_lt hbeyond)

section Steps

variable {holds : Nat → Prop} (hkept : KeptBySums holds)
include hkept

theorem KeptBySums.recount {count : UInt16} {path : List (Frame UInt16)}
    (h : holds (Counter.toNat count + siblingSum path)) :
    ∀ sum ∈ levelSums count (recount count path), holds sum := by
  induction path generalizing count with
  | nil => exact List.forall_mem_singleton.mpr h
  | cons frame path ih =>
      rw [siblingSum_cons, ← Nat.add_assoc] at h
      refine List.forall_mem_cons.mpr ⟨?_, ih (hkept.wrap _ _ _ h)⟩
      rw [siblingSum_cons, siblingSum_recount, ← Nat.add_assoc]
      exact h

theorem KeptBySums.refresh {node : Tree UInt16} {path : List (Frame UInt16)}
    (h : holds (Counter.toNat node.count + siblingSum path)) :
    ∀ sum ∈ levelSums (refresh node path).1.count (refresh node path).2, holds sum := by
  have hsums := hkept.recount h
  unfold Sixpack.refresh
  dsimp only
  split
  · rename_i hroot
    have hlimit : holds countLimit := hsums _ (countLimit_mem_levelSums hroot)
    intro sum hsum
    rw [Tree.halve_eq_relabel, Tree.count_relabel] at hsum
    obtain ⟨before, hbefore, hle⟩ := exists_le_of_mem_levelSums_halve hsum
    exact hkept.halve hlimit before sum hle (hsums before hbefore)
  · exact hsums

/-- What the root is recounted to stays the same when a node and its uncle change places. -/
theorem KeptBySums.exchange {node : Tree UInt16} {frame above : Frame UInt16}
    {path : List (Frame UInt16)}
    (h : ∀ sum ∈ levelSums node.count (frame :: above :: path), holds sum) :
    holds (Counter.toNat (Counter.add above.sibling.count frame.sibling.count)
      + siblingSum ({ above with sibling := node } :: path)) := by
  have hsum := h _ (count_add_siblingSum_mem_levelSums _ _)
  apply hkept.wrap
  rw [siblingSum_cons, siblingSum_cons] at hsum
  rw [siblingSum_cons]
  convert hsum using 1
  dsimp only
  omega

/-- The root comes to a sum for which the condition holds. -/
theorem KeptBySums.climb {steps : Nat} {node : Tree UInt16} {path : List (Frame UInt16)}
    (h : ∀ sum ∈ levelSums node.count path, holds sum) :
    holds (Counter.toNat (climb steps node path).count) := by
  fun_induction Sixpack.climb steps node path with
  | case1 steps node frame above path uncle hlt sum refreshed ih =>
      refine ih (hkept.refresh ?_)
      rw [Tree.count_fill]
      exact hkept.exchange h
  | case2 steps node frame above path uncle hlt ih =>
      refine ih ?_
      rw [Tree.count_fill]
      exact fun sum hsum => h sum (List.mem_cons_of_mem _ hsum)
  | case3 => exact h _ (count_plug_mem_levelSums _ _)

end Steps

/-! ### Counts under a bound -/

theorem Tree.forall_mem_labels_halve {bound : Nat} {tree : Tree UInt16}
    (h : ∀ count ∈ tree.labels, Counter.toNat count ≤ bound) :
    ∀ count ∈ tree.halve.labels, Counter.toNat count ≤ bound := by
  induction tree with
  | leaf symbol count =>
      rw [halve, labels, List.forall_mem_singleton]
      exact (toNat_halved_le count).trans (h count (List.mem_singleton_self _))
  | fork count left right ihl ihr =>
      rw [labels, List.forall_mem_cons, List.forall_mem_append] at h
      rw [halve, labels, List.forall_mem_cons, List.forall_mem_append]
      exact ⟨(toNat_halved_le count).trans h.1, ihl h.2.1, ihr h.2.2⟩

/-- No count of the node or beside the way up is beyond the bound. -/
structure LabelsUnder (bound : Nat) (node : Tree UInt16) (path : List (Frame UInt16)) : Prop where
  below : ∀ count ∈ node.labels, Counter.toNat count ≤ bound
  beside : ∀ frame ∈ path, ∀ count ∈ frame.sibling.labels, Counter.toNat count ≤ bound

variable {bound : Nat} {node : Tree UInt16} {frame : Frame UInt16} {path : List (Frame UInt16)}

theorem labelsUnder_cons_iff : LabelsUnder bound node (frame :: path)
    ↔ LabelsUnder bound node path ∧ ∀ count ∈ frame.sibling.labels, Counter.toNat count ≤ bound := by
  constructor
  · rintro ⟨hbelow, hbeside⟩
    rw [List.forall_mem_cons] at hbeside
    exact ⟨⟨hbelow, hbeside.2⟩, hbeside.1⟩
  · rintro ⟨⟨hbelow, hbeside⟩, hframe⟩
    exact ⟨hbelow, List.forall_mem_cons.mpr ⟨hframe, hbeside⟩⟩

theorem LabelsUnder.recount (h : LabelsUnder bound node path) (count : UInt16) :
    LabelsUnder bound node (recount count path) := by
  induction path generalizing count with
  | nil => exact h
  | cons frame path ih =>
      obtain ⟨hpath, hframe⟩ := labelsUnder_cons_iff.mp h
      exact labelsUnder_cons_iff.mpr ⟨ih hpath _, hframe⟩

theorem LabelsUnder.halve (h : LabelsUnder bound node path) :
    LabelsUnder bound node.halve (path.map Frame.halve) where
  below := Tree.forall_mem_labels_halve h.below
  beside := by
    rw [List.forall_mem_map]
    exact fun frame hframe => Tree.forall_mem_labels_halve (h.beside frame hframe)

theorem LabelsUnder.refresh (h : LabelsUnder bound node path) :
    LabelsUnder bound (refresh node path).1 (refresh node path).2 := by
  unfold Sixpack.refresh
  dsimp only
  split
  · exact (h.recount node.count).halve
  · exact h.recount node.count

theorem LabelsUnder.fill (h : LabelsUnder bound node (frame :: path))
    (hcount : Counter.toNat frame.count ≤ bound) : LabelsUnder bound (frame.fill node) path := by
  obtain ⟨hpath, hframe⟩ := labelsUnder_cons_iff.mp h
  refine ⟨fun count hmem => ?_, hpath.beside⟩
  rw [(frame.labels_fill node).mem_iff, List.mem_append] at hmem
  rcases hmem with hnode | hmem
  · exact h.below count hnode
  · rcases List.mem_cons.mp hmem with rfl | hsibling
    · exact hcount
    · exact hframe count hsibling

/-- The parent stands under the bound as its child does. -/
theorem LabelsUnder.up (h : LabelsUnder bound node (frame :: path))
    (hsums : ∀ sum ∈ levelSums node.count (frame :: path), sum ≤ bound) :
    LabelsUnder bound (frame.fill node) path
      ∧ ∀ sum ∈ levelSums (frame.fill node).count path, sum ≤ bound := by
  rw [Tree.count_fill]
  have hup := (List.forall_mem_cons.mp hsums).2
  have hparent := hup _ (count_add_siblingSum_mem_levelSums _ _)
  exact ⟨h.fill ((Nat.le_add_right _ _).trans hparent), hup⟩

theorem LabelsUnder.plug (h : LabelsUnder bound node path)
    (hsums : ∀ sum ∈ levelSums node.count path, sum ≤ bound) :
    ∀ count ∈ (plug node path).labels, Counter.toNat count ≤ bound := by
  induction path generalizing node with
  | nil => exact h.below
  | cons frame path ih =>
      obtain ⟨hparent, hup⟩ := h.up hsums
      exact ih hparent hup

/-- Where no sum is beyond the bound, no count comes to be. -/
theorem LabelsUnder.climb {steps : Nat} (h : LabelsUnder bound node path)
    (hsums : ∀ sum ∈ levelSums node.count path, sum ≤ bound) :
    ∀ count ∈ (climb steps node path).labels, Counter.toNat count ≤ bound := by
  fun_induction Sixpack.climb steps node path with
  | case1 steps node frame above path uncle hlt sum refreshed ih =>
      obtain ⟨habove, hsibling⟩ := labelsUnder_cons_iff.mp h
      obtain ⟨hpath, huncle⟩ := labelsUnder_cons_iff.mp habove
      have hroot := (keptBySums_le bound).exchange hsums
      have huncles : LabelsUnder bound uncle ({ frame with count := sum } :: path) :=
        labelsUnder_cons_iff.mpr ⟨⟨huncle, hpath.beside⟩, hsibling⟩
      have hswapped : LabelsUnder bound ({ frame with count := sum }.fill uncle)
          ({ above with sibling := node } :: path) :=
        labelsUnder_cons_iff.mpr ⟨huncles.fill ((Nat.le_add_right _ _).trans hroot), h.below⟩
      refine ih hswapped.refresh ((keptBySums_le bound).refresh ?_)
      rw [Tree.count_fill]
      exact hroot
  | case2 steps node frame above path uncle hlt ih =>
      obtain ⟨hparent, hup⟩ := h.up hsums
      exact ih hparent hup
  | case3 => exact h.plug hsums

/-! ### One observation -/

/-- What the counts on the way of a symbol come to when it is observed. A symbol that hangs on the root
has a way of its own: no count is changed but its own. -/
def Location.raisedSum (location : Location UInt16) : Nat :=
  match location.path with
  | [] | [_] => Counter.toNat location.count + 1
  | path => Counter.toNat location.count + 1 + siblingSum path

/-- There is room for one more observation. -/
def Location.HasRoom (location : Location UInt16) : Prop := location.raisedSum ≤ countLimit

variable {location : Location UInt16}

/-- To observe a symbol takes no count beyond a bound that the sum on its way does not reach. -/
theorem Location.labels_observe_le
    (h : ∀ count ∈ (Sixpack.plug (.leaf location.symbol location.count) location.path).labels,
      Counter.toNat count ≤ bound) (hsum : location.raisedSum ≤ bound) :
    ∀ count ∈ location.observe.labels, Counter.toNat count ≤ bound := by
  obtain ⟨symbol, count, path⟩ := location
  have hraised := toNat_add_le count (Counter.ofNat 1)
  have hbeside : ∀ frame ∈ path, ∀ count ∈ frame.sibling.labels, Counter.toNat count ≤ bound := by
    intro frame hframe other hother
    refine h other ((labels_plug _ _).mem_iff.mpr (List.mem_append_right _ ?_))
    exact List.mem_flatMap.mpr ⟨frame, hframe, List.mem_cons_of_mem _ hother⟩
  have hleaf : Counter.toNat (Counter.add count (Counter.ofNat 1)) ≤ bound →
      LabelsUnder bound (.leaf symbol (Counter.add count (Counter.ofNat 1))) path := by
    intro hcount
    exact ⟨List.forall_mem_singleton.mpr hcount, hbeside⟩
  rcases path with - | ⟨frame, - | ⟨above, rest⟩⟩
  · exact (hleaf (hraised.trans hsum)).below
  · refine ((hleaf (hraised.trans hsum)).fill (h _ ?_)).below
    exact (frame.labels_fill _).mem_iff.mpr (List.mem_append_right _ List.mem_cons_self)
  · have hroot : Counter.toNat (Counter.add count (Counter.ofNat 1))
        + siblingSum (frame :: above :: rest) ≤ bound := (Nat.add_le_add_right hraised _).trans hsum
    have hnode := hleaf ((Nat.le_add_right _ _).trans hroot)
    exact hnode.refresh.climb ((keptBySums_le bound).refresh hroot)

/-- A sum beyond the limit is found in the tree, as the count of the symbol or that of the root. -/
theorem Location.exists_mem_labels_observe (hbeyond : countLimit < location.raisedSum)
    (hroom : location.raisedSum < UInt16.size) :
    ∃ count ∈ location.observe.labels, Counter.toNat count = location.raisedSum := by
  obtain ⟨symbol, count, path⟩ := location
  have hraised : Counter.toNat count + 1 < UInt16.size →
      Counter.toNat (Counter.add count (Counter.ofNat 1)) = Counter.toNat count + 1 :=
    fun hfits => (UInt16.toNat_add count 1).trans (Nat.mod_eq_of_lt hfits)
  rcases path with - | ⟨frame, - | ⟨above, rest⟩⟩
  · exact ⟨_, List.mem_singleton_self _, hraised hroom⟩
  · refine ⟨_, (frame.labels_fill _).mem_iff.mpr (List.mem_append_left _ ?_), hraised hroom⟩
    exact List.mem_singleton_self _
  · have hroot : Counter.toNat (Counter.add count (Counter.ofNat 1))
        + siblingSum (frame :: above :: rest) = raisedSum ⟨symbol, count, frame :: above :: rest⟩ := by
      rw [hraised (Nat.lt_of_le_of_lt (Nat.le_add_right _ _) hroom)]
      rfl
    have hkept := keptBySums_eq hbeyond hroom
    exact ⟨_, Tree.count_mem_labels _, hkept.climb (hkept.refresh hroot)⟩

/-- The sum is no more than the symbols below the root weigh, and one. -/
theorem PathWithin.siblingSum_le {weight : Symbol → Nat} {below : Nat}
    (h : PathWithin weight below path) : siblingSum path ≤ pathWeight weight path := by
  induction path generalizing below with
  | nil => exact Nat.zero_le _
  | cons frame path ih =>
      rw [siblingSum_cons, pathWeight_cons]
      exact Nat.add_le_add h.2.1.count_le (ih h.2.2)

theorem Location.raisedSum_le {weight : Symbol → Nat}
    (h : (Sixpack.plug (.leaf location.symbol location.count) location.path).Within weight) :
    location.raisedSum
      ≤ (Sixpack.plug (.leaf location.symbol location.count) location.path).totalWeight weight + 1 := by
  obtain ⟨symbol, count, path⟩ := location
  obtain ⟨hcount, hpath⟩ := within_plug.mp h
  have hsum := hpath.siblingSum_le
  have hleaf : Counter.toNat count ≤ weight symbol := hcount
  rw [totalWeight_plug, Tree.totalWeight_leaf]
  dsimp only at hsum ⊢
  rcases path with - | ⟨frame, - | ⟨above, rest⟩⟩ <;> simp only [raisedSum] <;> omega

end AdLibModule.Sixpack
