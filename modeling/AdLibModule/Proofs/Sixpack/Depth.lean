import AdLibModule.Proofs.Sixpack.FullTree

/-! How far the leaf of an observed symbol lies from the root. A node that climbs is the leaf itself,
or has it below itself or below its sibling; so the uncle that an exchange pushes down never holds the
leaf, and no symbol gets a longer code by being observed. Counts play no part in this: it is so however
they compare, and whether or not they are halved on the way. -/

namespace AdLibModule.Sixpack

variable {κ : Type} {symbol : Symbol} {depth : Nat}

/-- A leaf with the symbol lies at most so many steps below the top of the tree. -/
def Tree.HasLeafWithin (symbol : Symbol) : Nat → Tree κ → Prop
  | _, leaf other _ => other = symbol
  | 0, fork _ _ _ => False
  | depth + 1, fork _ left right =>
    left.HasLeafWithin symbol depth ∨ right.HasLeafWithin symbol depth

theorem Tree.hasLeafWithin_leaf (count : κ) : (leaf symbol count).HasLeafWithin symbol depth := by
  rw [HasLeafWithin]

theorem Tree.HasLeafWithin.mono {tree : Tree κ} {deeper : Nat} (h : tree.HasLeafWithin symbol depth)
    (hle : depth ≤ deeper) : tree.HasLeafWithin symbol deeper := by
  induction tree generalizing depth deeper with
  | leaf other count =>
      rw [HasLeafWithin] at h ⊢
      exact h
  | fork count left right ihl ihr =>
      cases depth with
      | zero =>
          rw [HasLeafWithin] at h
          exact h.elim
      | succ depth =>
          obtain ⟨deeper, rfl⟩ := Nat.exists_eq_add_one.mpr (Nat.zero_lt_of_lt hle)
          have hbelow : depth ≤ deeper := Nat.le_of_succ_le_succ hle
          rw [HasLeafWithin] at h ⊢
          exact h.imp (ihl · hbelow) (ihr · hbelow)

/-- Where the leaf lies does not depend on the counts. -/
theorem Tree.hasLeafWithin_relabel {ℓ : Type} (f : κ → ℓ) (tree : Tree κ) :
    (tree.relabel f).HasLeafWithin symbol depth ↔ tree.HasLeafWithin symbol depth := by
  induction tree generalizing depth with
  | leaf other count => rw [relabel, HasLeafWithin, HasLeafWithin]
  | fork count left right ihl ihr =>
      cases depth with
      | zero => rw [relabel, HasLeafWithin, HasLeafWithin]
      | succ depth => rw [relabel, HasLeafWithin, HasLeafWithin, ihl, ihr]

theorem Frame.hasLeafWithin_fill {frame : Frame κ} {child : Tree κ}
    (h : child.HasLeafWithin symbol depth ∨ frame.sibling.HasLeafWithin symbol depth) :
    (frame.fill child).HasLeafWithin symbol (depth + 1) := by
  obtain ⟨isRight, count, sibling⟩ := frame
  cases isRight with
  | false => exact h
  | true => exact h.symm

theorem hasLeafWithin_plug {node : Tree κ} {path : List (Frame κ)}
    (h : node.HasLeafWithin symbol depth) :
    (plug node path).HasLeafWithin symbol (depth + path.length) := by
  induction path generalizing node depth with
  | nil => exact h
  | cons frame path ih =>
      rw [plug, List.length_cons, Nat.add_comm path.length, ← Nat.add_assoc]
      exact ih (frame.hasLeafWithin_fill (Or.inl h))

/-- The leaf lies below the node at the foot of the path, or below the sibling of that node. -/
def AtFoot (symbol : Symbol) (depth : Nat) (node : Tree κ) : List (Frame κ) → Prop
  | [] => node.HasLeafWithin symbol depth
  | frame :: _ => node.HasLeafWithin symbol depth ∨ frame.sibling.HasLeafWithin symbol depth

theorem AtFoot.plug {node : Tree κ} {path : List (Frame κ)} (h : AtFoot symbol depth node path) :
    (plug node path).HasLeafWithin symbol (depth + path.length) := by
  cases path with
  | nil => exact h
  | cons frame path =>
      rw [Sixpack.plug, List.length_cons, Nat.add_comm path.length, ← Nat.add_assoc]
      exact hasLeafWithin_plug (frame.hasLeafWithin_fill h)

section Climb

variable [Counter κ]

theorem length_recount (count : κ) (path : List (Frame κ)) :
    (recount count path).length = path.length := by
  induction path generalizing count with
  | nil => rfl
  | cons frame path ih => rw [recount, List.length_cons, List.length_cons, ih]

theorem atFoot_recount {node : Tree κ} {count : κ} {path : List (Frame κ)} :
    AtFoot symbol depth node (recount count path) ↔ AtFoot symbol depth node path := by
  cases path with
  | nil => rfl
  | cons frame path => rfl

theorem atFoot_halve {node : Tree κ} {path : List (Frame κ)} :
    AtFoot symbol depth node.halve (path.map Frame.halve) ↔ AtFoot symbol depth node path := by
  cases path with
  | nil =>
      rw [List.map_nil, AtFoot, AtFoot, Tree.halve_eq_relabel, Tree.hasLeafWithin_relabel]
  | cons frame path =>
      rw [List.map_cons, AtFoot, AtFoot, Frame.halve, Tree.halve_eq_relabel, Tree.halve_eq_relabel,
        Tree.hasLeafWithin_relabel, Tree.hasLeafWithin_relabel]

theorem length_refresh (node : Tree κ) (path : List (Frame κ)) :
    (refresh node path).2.length = path.length := by
  unfold refresh
  dsimp only
  split
  · rw [List.length_map, length_recount]
  · exact length_recount _ _

theorem AtFoot.refresh {node : Tree κ} {path : List (Frame κ)} (h : AtFoot symbol depth node path) :
    AtFoot symbol depth (refresh node path).1 (refresh node path).2 := by
  have hrecount : AtFoot symbol depth node (recount node.count path) := atFoot_recount.mpr h
  unfold Sixpack.refresh
  dsimp only
  split
  · exact atFoot_halve.mpr hrecount
  · exact hrecount

/-- A climb from the foot, or from beside it, does not move the leaf down: it goes up with the node and
comes to lie beside the parent that climbs on, or stays below that parent. -/
theorem hasLeafWithin_climb (steps : Nat) (node : Tree κ) (path : List (Frame κ)) :
    ∀ depth, AtFoot symbol depth node path →
      (climb steps node path).HasLeafWithin symbol (depth + path.length) := by
  fun_induction climb steps node path with
  | case1 steps node frame above path uncle hlt sum refreshed ih =>
      intro depth h
      have hlength : refreshed.2.length = path.length + 1 := length_refresh _ _
      rw [hlength] at ih
      rcases h with hnode | hsibling
      · have hfoot : AtFoot symbol depth (({ frame with count := sum } : Frame κ).fill uncle)
            ({ above with sibling := node } :: path) := Or.inr hnode
        apply (ih _ hfoot.refresh).mono
        simp only [List.length_cons]
        omega
      · have hfoot : AtFoot symbol (depth + 1) (({ frame with count := sum } : Frame κ).fill uncle)
            ({ above with sibling := node } :: path) :=
          Or.inl (Frame.hasLeafWithin_fill (Or.inr hsibling))
        apply (ih _ hfoot.refresh).mono
        simp only [List.length_cons]
        omega
  | case2 steps node frame above path uncle hlt ih =>
      intro depth h
      have hfoot : AtFoot symbol (depth + 1) (frame.fill node) (above :: path) :=
        Or.inl (frame.hasLeafWithin_fill h)
      apply (ih _ hfoot).mono
      simp only [List.length_cons]
      omega
  | case3 => exact fun _ => AtFoot.plug

/-- To observe a symbol does not move its leaf down. -/
theorem Location.hasLeafWithin_observe (location : Location κ) :
    location.observe.HasLeafWithin location.symbol location.path.length := by
  obtain ⟨symbol, count, path⟩ := location
  have hfoot : ∀ path : List (Frame κ), AtFoot symbol 0
      (.leaf symbol (Counter.add count (Counter.ofNat 1))) path := by
    intro path
    cases path with
    | nil => exact Tree.hasLeafWithin_leaf _
    | cons frame path => exact Or.inl (Tree.hasLeafWithin_leaf _)
  rcases path with - | ⟨frame, - | ⟨above, path⟩⟩
  · exact hfoot []
  · exact (hfoot [frame]).plug
  · have hclimb := hasLeafWithin_climb (path.length + 2) _ _ _ (hfoot (frame :: above :: path)).refresh
    rw [length_refresh, Nat.zero_add] at hclimb
    exact hclimb

end Climb

theorem Tree.HasLeafWithin.mem_symbols {tree : Tree κ} (h : tree.HasLeafWithin symbol depth) :
    symbol ∈ tree.symbols := by
  induction tree generalizing depth with
  | leaf other count =>
      rw [HasLeafWithin] at h
      rw [symbols, List.mem_singleton, h]
  | fork count left right ihl ihr =>
      cases depth with
      | zero =>
          rw [HasLeafWithin] at h
          exact h.elim
      | succ depth =>
          rw [HasLeafWithin] at h
          rw [symbols, List.mem_append]
          exact h.imp ihl ihr

/-- Where every symbol has one leaf, the leaf that is found is the one that lies within the depth. -/
theorem Tree.HasLeafWithin.length_path_le {tree : Tree κ} {path : List (Frame κ)}
    {location : Location κ} (h : tree.HasLeafWithin symbol depth) (hnodup : tree.symbols.Nodup)
    (hlocate : tree.locate symbol path = some location) :
    location.path.length ≤ depth + path.length := by
  induction tree generalizing depth path with
  | leaf other count =>
      rw [locate] at hlocate
      split at hlocate
      · cases hlocate
        exact Nat.le_add_left _ _
      · cases hlocate
  | fork count left right ihl ihr =>
      cases depth with
      | zero =>
          rw [HasLeafWithin] at h
          exact h.elim
      | succ depth =>
          rw [HasLeafWithin] at h
          rw [symbols, List.nodup_append'] at hnodup
          obtain ⟨hleft, hright, hdisjoint⟩ := hnodup
          rw [locate, Option.or_eq_some_iff] at hlocate
          have hstep : ∀ frame : Frame κ,
              depth + (frame :: path).length = depth + 1 + path.length := fun frame => by
            rw [List.length_cons]
            omega
          rcases hlocate with hfound | ⟨hnone, hfound⟩
          · have hthere := isSome_locate_iff.mp (Option.isSome_of_eq_some hfound)
            have hwithin := h.resolve_right fun hother => hdisjoint hthere hother.mem_symbols
            exact hstep ⟨false, count, right⟩ ▸ ihl hwithin hleft hfound
          · have hthere := isSome_locate_iff.mp (Option.isSome_of_eq_some hfound)
            have hwithin := h.resolve_left fun hother => hdisjoint hother.mem_symbols hthere
            exact hstep ⟨true, count, left⟩ ▸ ihr hwithin hright hfound

theorem Location.length_code (location : Location κ) :
    location.code.length = location.path.length := by
  rw [code, List.length_reverse, List.length_map]

theorem Tree.HasLeafWithin.length_code_le {tree : Tree κ} (h : tree.HasLeafWithin symbol depth)
    (hnodup : tree.symbols.Nodup) : (tree.code symbol).length ≤ depth := by
  obtain ⟨location, hlocate⟩ := Option.isSome_iff_exists.mp (isSome_locate_iff.mpr h.mem_symbols)
  have hle := h.length_path_le hnodup hlocate
  rw [code, hlocate]
  exact location.length_code.trans_le hle

section Code

variable [Counter κ]

/-- In a tree with one leaf for each symbol, no code gets longer when its symbol is observed. -/
theorem Tree.length_code_observe_le {tree : Tree κ} (hnodup : tree.symbols.Nodup) (symbol : Symbol) :
    ((tree.observe symbol).code symbol).length ≤ (tree.code symbol).length := by
  cases hlocate : tree.locate symbol [] with
  | none =>
      rw [observe, hlocate]
  | some location =>
      obtain ⟨hsymbol, -⟩ := plug_of_locate_eq_some hlocate
      have hnodup' : (tree.observe symbol).symbols.Nodup :=
        (tree.symbols_observe symbol).nodup_iff.mpr hnodup
      have hwithin := location.hasLeafWithin_observe
      rw [observe, hlocate] at hnodup' ⊢
      rw [hsymbol] at hwithin
      calc (location.observe.code symbol).length
          ≤ location.path.length := hwithin.length_code_le hnodup'
        _ = (tree.code symbol).length := by
          rw [code, hlocate]
          exact location.length_code.symm

/-- Whatever symbols were observed before, the leaf of a symbol is not further from the root once this
symbol has been observed too. The rows before and after have one way from the root to this leaf each,
the code of the symbol in the tree that they stand for. -/
theorem observe_keeps_code_short (symbols : List Symbol) (symbol : Symbol) :
    ∃ before after : NodeTable κ, NodeTable.initial.observeAll symbols = some before
      ∧ before.observe symbol = some after
      ∧ ∃ way way' : List Bool,
        (∀ bits, before.walk rootNumber bits = some (leafNumber symbol, []) ↔ bits = way)
        ∧ (∀ bits, after.walk rootNumber bits = some (leafNumber symbol, []) ↔ bits = way')
        ∧ way = (symbols.foldl Tree.observe (Tree.initial : Tree κ)).code symbol
        ∧ way' = ((symbols.foldl Tree.observe (Tree.initial : Tree κ)).observe symbol).code symbol
        ∧ way'.length ≤ way.length := by
  obtain ⟨before, shape, hbefore, hdescribes, htree⟩ := @NodeTable.exists_observeAll κ _ symbols
  obtain ⟨after, shape', hafter, hdescribes', htree'⟩ := hdescribes.observe symbol
  rw [htree] at htree'
  have hway := hdescribes.walk_eq_some_iff symbol
  have hway' := hdescribes'.walk_eq_some_iff symbol
  rw [htree] at hway
  rw [htree'] at hway'
  exact ⟨before, after, hbefore, hafter, _, _, hway, hway', rfl, rfl,
    Tree.length_code_observe_le (Tree.nodup_symbols_foldl_observe symbols) symbol⟩

end Code

end AdLibModule.Sixpack
