import AdLibModule.Sixpack.Tree
import Mathlib

/-! Trees taken apart at a node, and what is kept when their counts change. To observe a symbol
rearranges the tree, but the symbols at its leaves stay the same ones: the code of every symbol can
still be looked up, and the tree falls apart again at the leaf that was found. -/

namespace AdLibModule.Sixpack

section Relabel

variable {κ ℓ : Type}

/-- The tree with every count replaced. -/
def Tree.relabel (f : κ → ℓ) : Tree κ → Tree ℓ
  | leaf symbol count => leaf symbol (f count)
  | fork count left right => fork (f count) (left.relabel f) (right.relabel f)

def Frame.relabel (f : κ → ℓ) (frame : Frame κ) : Frame ℓ :=
  ⟨frame.isRight, f frame.count, frame.sibling.relabel f⟩

def Location.relabel (f : κ → ℓ) (location : Location κ) : Location ℓ :=
  ⟨location.symbol, f location.count, location.path.map (Frame.relabel f)⟩

/-- The counts of a tree, each node before the nodes below it. -/
def Tree.labels : Tree κ → List κ
  | leaf _ count => [count]
  | fork count left right => count :: (left.labels ++ right.labels)

/-- The counts that a step up brings along. -/
def Frame.labels (frame : Frame κ) : List κ := frame.count :: frame.sibling.labels

theorem Tree.count_mem_labels (tree : Tree κ) : tree.count ∈ tree.labels := by
  cases tree with
  | leaf symbol count => exact List.mem_singleton_self count
  | fork count left right => exact List.mem_cons_self

@[simp]
theorem Tree.count_relabel (f : κ → ℓ) (tree : Tree κ) : (tree.relabel f).count = f tree.count := by
  cases tree <;> rfl

theorem Tree.relabel_congr {f g : κ → ℓ} {tree : Tree κ} (h : ∀ n ∈ tree.labels, f n = g n) :
    tree.relabel f = tree.relabel g := by
  induction tree with
  | leaf symbol count =>
      rw [relabel, relabel, h count (List.mem_singleton_self count)]
  | fork count left right ihl ihr =>
      rw [relabel, relabel, h count List.mem_cons_self,
        ihl fun n hn => h n (List.mem_cons_of_mem _ (List.mem_append_left _ hn)),
        ihr fun n hn => h n (List.mem_cons_of_mem _ (List.mem_append_right _ hn))]

theorem Tree.relabel_relabel {μ : Type} (f : κ → ℓ) (g : ℓ → μ) (tree : Tree κ) :
    (tree.relabel f).relabel g = tree.relabel (g ∘ f) := by
  induction tree with
  | leaf symbol count => rfl
  | fork count left right ihl ihr => rw [relabel, relabel, relabel, ihl, ihr, Function.comp]

theorem Frame.relabel_relabel {μ : Type} (f : κ → ℓ) (g : ℓ → μ) (frame : Frame κ) :
    (frame.relabel f).relabel g = frame.relabel (g ∘ f) := by
  rw [relabel, relabel, relabel, Tree.relabel_relabel, Function.comp]

theorem Frame.relabel_congr {f g : κ → ℓ} {frame : Frame κ} (h : ∀ n ∈ frame.labels, f n = g n) :
    frame.relabel f = frame.relabel g := by
  rw [relabel, relabel, h _ List.mem_cons_self,
    Tree.relabel_congr fun n hn => h n (List.mem_cons_of_mem _ hn)]

/-- Only the count of the parent is replaced by another one. -/
theorem Frame.relabel_eq_of_sibling {f g : κ → ℓ} {frame : Frame κ}
    (h : ∀ n ∈ frame.sibling.labels, g n = f n) :
    frame.relabel g = { frame.relabel f with count := g frame.count } := by
  rw [relabel, relabel, Tree.relabel_congr h]

theorem map_relabel_congr {f g : κ → ℓ} {path : List (Frame κ)}
    (h : ∀ n ∈ path.flatMap Frame.labels, f n = g n) :
    path.map (Frame.relabel f) = path.map (Frame.relabel g) :=
  List.map_congr_left fun _ hframe =>
    Frame.relabel_congr fun n hn => h n (List.mem_flatMap.mpr ⟨_, hframe, hn⟩)

@[simp]
theorem Tree.symbols_relabel (f : κ → ℓ) (tree : Tree κ) :
    (tree.relabel f).symbols = tree.symbols := by
  induction tree with
  | leaf symbol count => rfl
  | fork count left right ihl ihr => rw [relabel, symbols, symbols, ihl, ihr]

theorem Frame.fill_relabel (f : κ → ℓ) (frame : Frame κ) (child : Tree κ) :
    (frame.relabel f).fill (child.relabel f) = (frame.fill child).relabel f := by
  obtain ⟨isRight, count, sibling⟩ := frame
  cases isRight <;> rfl

theorem plug_relabel (f : κ → ℓ) (node : Tree κ) (path : List (Frame κ)) :
    plug (node.relabel f) (path.map (Frame.relabel f)) = (plug node path).relabel f := by
  induction path generalizing node with
  | nil => rfl
  | cons frame path ih => rw [List.map_cons, plug, plug, Frame.fill_relabel, ih]

theorem Tree.locate_relabel (f : κ → ℓ) (symbol : Symbol) (tree : Tree κ) (path : List (Frame κ)) :
    (tree.relabel f).locate symbol (path.map (Frame.relabel f))
      = (tree.locate symbol path).map (Location.relabel f) := by
  induction tree generalizing path with
  | leaf other count =>
      rw [relabel, locate, locate]
      split <;> rfl
  | fork count left right ihl ihr =>
      rw [relabel, locate, locate, Option.map_or, ← ihl, ← ihr]
      rfl

theorem Location.code_relabel (f : κ → ℓ) (location : Location κ) :
    (location.relabel f).code = location.code := by
  rw [code, code, relabel, List.map_map]
  rfl

end Relabel

/-! ### The symbols of a tree -/

section Symbols

variable {κ : Type}

theorem Frame.symbols_fill (frame : Frame κ) (child : Tree κ) :
    (frame.fill child).symbols.Perm (child.symbols ++ frame.sibling.symbols) := by
  obtain ⟨isRight, count, sibling⟩ := frame
  cases isRight with
  | false => exact List.Perm.refl _
  | true => exact List.perm_append_comm

theorem Frame.labels_fill (frame : Frame κ) (child : Tree κ) :
    (frame.fill child).labels.Perm (child.labels ++ frame.labels) := by
  obtain ⟨isRight, count, sibling⟩ := frame
  cases isRight with
  | false => exact List.perm_middle.symm
  | true => exact (List.perm_append_comm.cons count).trans List.perm_middle.symm

theorem symbols_plug (node : Tree κ) (path : List (Frame κ)) :
    (plug node path).symbols.Perm (node.symbols ++ path.flatMap (·.sibling.symbols)) := by
  induction path generalizing node with
  | nil => rw [plug, List.flatMap_nil, List.append_nil]
  | cons frame path ih =>
      rw [plug, List.flatMap_cons, ← List.append_assoc]
      exact (ih _).trans ((frame.symbols_fill node).append_right _)

theorem labels_plug (node : Tree κ) (path : List (Frame κ)) :
    (plug node path).labels.Perm (node.labels ++ path.flatMap Frame.labels) := by
  induction path generalizing node with
  | nil => rw [plug, List.flatMap_nil, List.append_nil]
  | cons frame path ih =>
      rw [plug, List.flatMap_cons, ← List.append_assoc]
      exact (ih _).trans ((frame.labels_fill node).append_right _)

/-- A node of a tree is where the tree falls apart into the part below it and the way up. -/
theorem exists_plug_of_mem_labels {tree : Tree κ} {n : κ} (h : n ∈ tree.labels)
    (path : List (Frame κ)) : ∃ node rest, plug node rest = plug tree path ∧ node.count = n := by
  induction tree generalizing path with
  | leaf symbol count =>
      rw [Tree.labels, List.mem_singleton] at h
      exact ⟨_, path, rfl, h.symm⟩
  | fork count left right ihl ihr =>
      rw [Tree.labels, List.mem_cons, List.mem_append] at h
      rcases h with rfl | hleft | hright
      · exact ⟨_, path, rfl, rfl⟩
      · exact ihl hleft (⟨false, count, right⟩ :: path)
      · exact ihr hright (⟨true, count, left⟩ :: path)

theorem Tree.plug_of_locate_eq_some {symbol : Symbol} {tree : Tree κ} {path : List (Frame κ)}
    {location : Location κ} (h : tree.locate symbol path = some location) :
    location.symbol = symbol
      ∧ plug (leaf location.symbol location.count) location.path = plug tree path := by
  induction tree generalizing path with
  | leaf other count =>
      rw [locate] at h
      split at h
      · rename_i heq
        cases h
        exact ⟨heq, rfl⟩
      · cases h
  | fork count left right ihl ihr =>
      rw [locate, Option.or_eq_some_iff] at h
      rcases h with hleft | ⟨-, hright⟩
      · exact ihl hleft
      · exact ihr hright

theorem Tree.isSome_locate_iff {symbol : Symbol} {tree : Tree κ} {path : List (Frame κ)} :
    (tree.locate symbol path).isSome ↔ symbol ∈ tree.symbols := by
  induction tree generalizing path with
  | leaf other count =>
      rw [locate, symbols, List.mem_singleton]
      split
      · rename_i heq
        exact iff_of_true rfl heq.symm
      · rename_i hne
        exact iff_of_false Bool.false_ne_true (Ne.symm hne)
  | fork count left right ihl ihr =>
      rw [locate, symbols, List.mem_append, Option.isSome_or, Bool.or_eq_true, ihl, ihr]

end Symbols

/-! ### Observing keeps the symbols -/

section Observe

variable {κ : Type} [Counter κ]

theorem Tree.halve_eq_relabel (tree : Tree κ) : tree.halve = tree.relabel halved := by
  induction tree with
  | leaf symbol count => rfl
  | fork count left right ihl ihr => rw [halve, relabel, ihl, ihr]

theorem Frame.halve_eq_relabel (frame : Frame κ) : frame.halve = frame.relabel halved := by
  rw [halve, relabel, Tree.halve_eq_relabel]

theorem symbols_recount (count : κ) (path : List (Frame κ)) :
    (recount count path).flatMap (·.sibling.symbols) = path.flatMap (·.sibling.symbols) := by
  induction path generalizing count with
  | nil => rfl
  | cons frame path ih => rw [recount, List.flatMap_cons, List.flatMap_cons, ih]

theorem symbols_refresh (node : Tree κ) (path : List (Frame κ)) :
    (refresh node path).1.symbols = node.symbols
      ∧ (refresh node path).2.flatMap (·.sibling.symbols) = path.flatMap (·.sibling.symbols) := by
  unfold refresh
  dsimp only
  split
  · refine ⟨by rw [Tree.halve_eq_relabel, Tree.symbols_relabel], ?_⟩
    rw [List.flatMap_map, ← symbols_recount node.count path]
    simp only [Frame.halve, Tree.halve_eq_relabel, Tree.symbols_relabel]
  · exact ⟨rfl, symbols_recount _ _⟩

theorem symbols_climb (steps : Nat) (node : Tree κ) (path : List (Frame κ)) :
    (climb steps node path).symbols.Perm (node.symbols ++ path.flatMap (·.sibling.symbols)) := by
  fun_induction climb steps node path with
  | case1 steps node frame above path uncle hlt sum refreshed ih =>
      refine ih.trans ?_
      rw [(symbols_refresh _ _).1, (symbols_refresh _ _).2, List.flatMap_cons, List.flatMap_cons,
        List.flatMap_cons]
      refine ((Frame.symbols_fill _ _).append_right _).trans ?_
      simp only [List.perm_iff_count, List.count_append, uncle]
      intro symbol
      omega
  | case2 steps node frame above path uncle hlt ih =>
      refine ih.trans ?_
      rw [show (frame :: above :: path).flatMap (·.sibling.symbols)
        = frame.sibling.symbols ++ (above :: path).flatMap (·.sibling.symbols) from rfl,
        ← List.append_assoc]
      exact (Frame.symbols_fill _ _).append_right _
  | case3 => exact symbols_plug _ _

theorem Location.symbols_observe (location : Location κ) :
    location.observe.symbols.Perm
      (plug (.leaf location.symbol location.count) location.path).symbols := by
  refine List.Perm.trans ?_ (symbols_plug _ _).symm
  unfold observe
  dsimp only
  split
  · rename_i hpath
    rw [hpath]
    exact List.Perm.refl _
  · rename_i frame hpath
    rw [hpath, List.flatMap_cons, List.flatMap_nil, List.append_nil]
    exact Frame.symbols_fill _ _
  · refine (symbols_climb _ _ _).trans ?_
    rw [(symbols_refresh _ _).1, (symbols_refresh _ _).2]
    exact List.Perm.refl _

theorem Tree.symbols_observe (tree : Tree κ) (symbol : Symbol) :
    (tree.observe symbol).symbols.Perm tree.symbols := by
  unfold observe
  split
  · rename_i location hlocate
    refine location.symbols_observe.trans ?_
    rw [(plug_of_locate_eq_some hlocate).2, plug]
  · exact List.Perm.refl _

end Observe
end AdLibModule.Sixpack
