import AdLibModule.Proofs.Sixpack.Initial
import AdLibModule.Sixpack.Encoder

/-! The rows of the adaptive code are one full binary tree, whatever symbols were observed. The inner
nodes and the leaves keep their numbers, every node but the root is the child of one other, and from
every node the parents lead to the root. So the bits that lead to the leaf of a symbol are the code
that the encoder writes for it, and no others do. -/

namespace AdLibModule.Sixpack.NodeTable

variable {κ : Type}

/-- The rows form one full binary tree: the root is 1, the nodes before `symbolCount` are the inner
ones, and all others are leaves. -/
structure IsFullTree (table : NodeTable κ) : Prop where
  complete : table.Complete
  children : ∀ i, 1 ≤ i → i < symbolCount → ∃ left right, table.left[i]? = some left
    ∧ table.right[i]? = some right ∧ left ≠ right
    ∧ (2 ≤ left ∧ left < 2 * symbolCount) ∧ (2 ≤ right ∧ right < 2 * symbolCount)
    ∧ table.parent[left]? = some i ∧ table.parent[right]? = some i
  parent : ∀ n, 2 ≤ n → n < 2 * symbolCount → ∃! i, (1 ≤ i ∧ i < symbolCount)
    ∧ (table.left[i]? = some n ∨ table.right[i]? = some n)
  root : ∀ n, 1 ≤ n → n < 2 * symbolCount → ∃ steps, table.ancestor? n steps = some rootNumber

theorem Describes.exists_plug {table : NodeTable κ} {shape : Tree Nat} (h : table.Describes shape)
    {n : Nat} (hpos : 1 ≤ n) (hn : n < 2 * symbolCount) :
    ∃ node path, table.Describes (plug node path) ∧ node.count = n := by
  obtain ⟨node, path, hplug, hcount⟩ :=
    exists_plug_of_mem_labels ((h.numbered.mem_labels n).mpr ⟨hpos, hn⟩) []
  exact ⟨node, path, hplug ▸ h, hcount⟩

/-- A node with a parent is not the root. -/
theorem Describes.two_le_count {table : NodeTable κ} {node : Tree Nat} {frame : Frame Nat}
    {path : List (Frame Nat)} (h : table.Describes (plug node (frame :: path))) :
    2 ≤ node.count := by
  obtain ⟨-, -, hnodup, hrow, -⟩ := h.at_path
  have hmem := node.count_mem_labels
  have hpos := (hrow _ (List.mem_append_left _ hmem)).1
  obtain ⟨last, hlast, hroot⟩ := Option.map_eq_some_iff.mp h.getLast?_count
  have hne : node.count ≠ rootNumber := by
    intro heq
    refine (List.nodup_append'.mp hnodup).2.2 hmem (mem_labels_of_mem_counts ?_)
    rw [heq, ← hroot]
    exact List.mem_map_of_mem (List.mem_of_getLast? hlast)
  simp only [rootNumber] at hne
  omega

theorem LinksPath.ancestor? {table : NodeTable κ} {node : Tree Nat} {path : List (Frame Nat)}
    (h : table.LinksPath node.count path) :
    table.ancestor? node.count path.length = some (plug node path).count := by
  induction path generalizing node with
  | nil => rfl
  | cons frame path ih =>
      have hup : table.LinksPath (frame.fill node).count path := by
        rw [Tree.count_fill]
        exact h.2
      rw [List.length_cons, NodeTable.ancestor?, h.1.parent, plug, ← ih hup, Tree.count_fill]
      rfl

theorem Describes.exists_children {table : NodeTable κ} {shape : Tree Nat} (h : table.Describes shape)
    {i : Nat} (hpos : 1 ≤ i) (hi : i < symbolCount) :
    ∃ left right, table.left[i]? = some left ∧ table.right[i]? = some right ∧ left ≠ right
      ∧ (2 ≤ left ∧ left < 2 * symbolCount) ∧ (2 ≤ right ∧ right < 2 * symbolCount)
      ∧ table.parent[left]? = some i ∧ table.parent[right]? = some i := by
  obtain ⟨node, path, hnode, hcount⟩ := h.exists_plug hpos (by omega)
  have hfit := ((numbersFit_plug node path).mp hnode.numbered.fit).1
  obtain ⟨hlinks, -, hnodup, hrow, -⟩ := hnode.at_path
  cases node with
  | leaf symbol number =>
      have hleaf : number = symbol.val + symbolCount := hfit
      have : number = i := hcount
      omega
  | fork number left right =>
      obtain rfl : number = i := hcount
      obtain ⟨⟨hleft, hright⟩, ⟨hpleft, hpright⟩, -⟩ := hlinks
      rw [Tree.labels, List.cons_append, List.nodup_cons, List.nodup_append',
        List.nodup_append'] at hnodup
      have hlt : ∀ n ∈ left.labels ++ right.labels, n < 2 * symbolCount := fun n hn =>
        (hrow n (List.mem_append_left _ (List.mem_cons_of_mem _ hn))).2
      have hl := left.count_mem_labels
      have hr := right.count_mem_labels
      have hbelow : table.Describes (plug left (⟨false, number, right⟩ :: path)) := hnode
      have hbeside : table.Describes (plug right (⟨true, number, left⟩ :: path)) := hnode
      exact ⟨_, _, hleft, hright, fun heq => hnodup.2.1.2.2 hl (heq ▸ hr),
        ⟨hbelow.two_le_count, hlt _ (List.mem_append_left _ hl)⟩,
        ⟨hbeside.two_le_count, hlt _ (List.mem_append_right _ hr)⟩, hpleft, hpright⟩

theorem Describes.isFullTree {table : NodeTable κ} {shape : Tree Nat} (h : table.Describes shape) :
    table.IsFullTree := by
  refine ⟨h.complete, fun i => h.exists_children, ?_, ?_⟩
  · intro n hpos hn
    obtain ⟨node, path, hnode, rfl⟩ := h.exists_plug (Nat.le_of_succ_le hpos) hn
    obtain ⟨-, hlinks, -, hrow, hinner⟩ := hnode.at_path
    cases path with
    | nil =>
        have hroot : node.count = rootNumber := hnode.numbered.count_eq
        simp only [rootNumber] at hroot
        omega
    | cons frame path =>
        have hframe : 1 ≤ frame.count ∧ frame.count < symbolCount :=
          ⟨(hrow _ (by simp [Frame.labels])).1, hinner _ List.mem_cons_self⟩
        refine ⟨frame.count, ⟨hframe, ?_⟩, ?_⟩
        · rw [hlinks.1.left, hlinks.1.right]
          cases frame.isRight with
          | false => exact Or.inl rfl
          | true => exact Or.inr rfl
        · rintro i ⟨⟨hi, hlt⟩, hchild⟩
          obtain ⟨left, right, hleft, hright, -, -, -, hpleft, hpright⟩ := h.exists_children hi hlt
          rw [hleft, hright] at hchild
          have hup := hlinks.1.parent
          rcases hchild with hchild | hchild
          · rw [Option.some.inj hchild, hup] at hpleft
            exact (Option.some.inj hpleft).symm
          · rw [Option.some.inj hchild, hup] at hpright
            exact (Option.some.inj hpright).symm
  · intro n hpos hn
    obtain ⟨node, path, hnode, rfl⟩ := h.exists_plug hpos hn
    refine ⟨path.length, ?_⟩
    rw [hnode.at_path.2.1.ancestor?, hnode.numbered.count_eq]

/-! ### The ways to the leaves -/

theorem walk_of_le {table : NodeTable κ} {node : Nat} (h : symbolCount ≤ node) (bits : List Bool) :
    table.walk node bits = some (node, bits) := by
  rw [walk.eq_def, if_neg (Nat.not_lt.mpr h)]

theorem Links.walk_cons {table : NodeTable κ} {number : Nat} {left right : Tree Nat}
    (hlinks : table.Links (.fork number left right)) (hinner : number < symbolCount) (bit : Bool)
    (bits : List Bool) :
    table.walk number (bit :: bits)
      = table.walk (if bit then right.count else left.count) bits := by
  obtain ⟨⟨hleft, hright⟩, -⟩ := hlinks
  rw [walk.eq_def, if_pos hinner]
  cases bit with
  | false => simp only [Bool.false_eq_true, if_false, hleft, Option.bind_eq_bind, Option.bind_some]
  | true => simp only [if_true, hright, Option.bind_eq_bind, Option.bind_some]

/-- From every node all bits lead somewhere below it, and they are left over only at a leaf. -/
theorem Links.exists_walk {table : NodeTable κ} {node : Tree Nat} (hlinks : table.Links node)
    (hfit : node.NumbersFit) (bits : List Bool) :
    ∃ n rest, table.walk node.count bits = some (n, rest) ∧ n ∈ node.labels
      ∧ (n < symbolCount → rest = []) := by
  induction node generalizing bits with
  | leaf symbol number =>
      have hleaf : symbolCount ≤ number := by
        rw [show number = symbol.val + symbolCount from hfit]
        exact Nat.le_add_left _ _
      exact ⟨number, bits, walk_of_le hleaf bits, List.mem_singleton_self number,
        fun h => absurd h (Nat.not_lt.mpr hleaf)⟩
  | fork number left right ihl ihr =>
      obtain ⟨hinner, hfitl, hfitr⟩ := hfit
      rw [Tree.count, Tree.labels]
      rcases bits with - | ⟨(- | -), bits⟩
      · refine ⟨number, [], ?_, List.mem_cons_self, fun _ => rfl⟩
        rw [walk.eq_def, if_pos hinner]
      · obtain ⟨n, rest, hwalk, hmem, hrest⟩ := ihl hlinks.2.2.1 hfitl bits
        exact ⟨n, rest, (hlinks.walk_cons hinner false bits).trans hwalk,
          List.mem_cons_of_mem _ (List.mem_append_left _ hmem), hrest⟩
      · obtain ⟨n, rest, hwalk, hmem, hrest⟩ := ihr hlinks.2.2.2 hfitr bits
        exact ⟨n, rest, (hlinks.walk_cons hinner true bits).trans hwalk,
          List.mem_cons_of_mem _ (List.mem_append_right _ hmem), hrest⟩

/-- Only one sequence of bits leads from a node to a leaf below it. -/
theorem Links.walk_inj {table : NodeTable κ} {node : Tree Nat} (hlinks : table.Links node)
    (hfit : node.NumbersFit) (hnodup : node.labels.Nodup) {n : Nat} (hn : symbolCount ≤ n)
    {bits other : List Bool} (hbits : table.walk node.count bits = some (n, []))
    (hother : table.walk node.count other = some (n, [])) : bits = other := by
  induction node generalizing bits other with
  | leaf symbol number =>
      have hleaf : symbolCount ≤ number := by
        rw [show number = symbol.val + symbolCount from hfit]
        exact Nat.le_add_left _ _
      rw [Tree.count, walk_of_le hleaf, Option.some_inj, Prod.mk.injEq] at hbits hother
      exact hbits.2.trans hother.2.symm
  | fork number left right ihl ihr =>
      obtain ⟨hinner, hfitl, hfitr⟩ := hfit
      rw [Tree.labels, List.nodup_cons, List.nodup_append'] at hnodup
      obtain ⟨-, hnodupl, hnodupr, hdisjoint⟩ := hnodup
      have hempty : table.walk number [] ≠ some (n, []) := by
        rw [walk.eq_def, if_pos hinner]
        intro h
        rw [(Prod.mk.inj (Option.some.inj h)).1] at hinner
        omega
      have hside : ∀ {bit : Bool} {rest : List Bool}, table.walk number (bit :: rest) = some (n, []) →
          n ∈ (if bit then right.labels else left.labels) := by
        intro bit rest h
        rw [hlinks.walk_cons hinner] at h
        cases bit with
        | false =>
            obtain ⟨m, _, hwalk, hmem, -⟩ := hlinks.2.2.1.exists_walk hfitl rest
            rw [if_neg Bool.false_ne_true, hwalk] at h
            exact (Prod.mk.inj (Option.some.inj h)).1 ▸ hmem
        | true =>
            obtain ⟨m, _, hwalk, hmem, -⟩ := hlinks.2.2.2.exists_walk hfitr rest
            rw [if_pos rfl, hwalk] at h
            exact (Prod.mk.inj (Option.some.inj h)).1 ▸ hmem
      rw [Tree.count] at hbits hother
      rcases bits with - | ⟨(- | -), bits⟩
      · exact absurd hbits hempty
      · rcases other with - | ⟨(- | -), other⟩
        · exact absurd hother hempty
        · rw [hlinks.walk_cons hinner] at hbits hother
          rw [ihl hlinks.2.2.1 hfitl hnodupl hbits hother]
        · exact absurd (hside hother) (hdisjoint (hside hbits))
      · rcases other with - | ⟨(- | -), other⟩
        · exact absurd hother hempty
        · exact absurd (hside hbits) (hdisjoint (hside hother))
        · rw [hlinks.walk_cons hinner] at hbits hother
          rw [ihr hlinks.2.2.2 hfitr hnodupr hbits hother]

/-- The steps to the right and to the left on the way up, read backwards, lead down again. -/
theorem walk_plug {table : NodeTable κ} {node : Tree Nat} {path : List (Frame Nat)}
    (hlinks : table.Links (plug node path)) (hinner : ∀ frame ∈ path, frame.count < symbolCount)
    (bits : List Bool) :
    table.walk (plug node path).count ((path.map Frame.isRight).reverse ++ bits)
      = table.walk node.count bits := by
  induction path generalizing node bits with
  | nil => rfl
  | cons frame path ih =>
      have hup : table.Links (plug (frame.fill node) path) := hlinks
      have hfill := (links_plug.mp hup).1
      have hframe := hinner frame List.mem_cons_self
      rw [plug, List.map_cons, List.reverse_cons, List.append_assoc,
        ih hlinks fun step hstep => hinner step (List.mem_cons_of_mem _ hstep)]
      obtain ⟨isRight, number, sibling⟩ := frame
      cases isRight with
      | false => exact hfill.walk_cons hframe false bits
      | true => exact hfill.walk_cons hframe true bits

/-- The bits that lead from the root to the leaf of a symbol are the code of the symbol. -/
theorem Describes.walk_eq_some_iff [Counter κ] {table : NodeTable κ} {shape : Tree Nat}
    (h : table.Describes shape) (symbol : Symbol) (bits : List Bool) :
    table.walk rootNumber bits = some (leafNumber symbol, [])
      ↔ bits = (shape.relabel (countIn table.count)).code symbol := by
  obtain ⟨path, hlocate, hplug⟩ := exists_locate h.numbered symbol
  have hcode : (shape.relabel (countIn table.count)).code symbol
      = (path.map Frame.isRight).reverse := by
    have hrelabel := Tree.locate_relabel (countIn table.count) symbol shape []
    rw [hlocate, List.map_nil, Option.map_some] at hrelabel
    rw [Tree.code, hrelabel]
    exact Location.code_relabel _ _
  have hleaf : symbolCount ≤ leafNumber symbol := Nat.le_add_left _ _
  have hpath : table.walk rootNumber (path.map Frame.isRight).reverse
      = some (leafNumber symbol, []) := by
    have hdown := walk_plug (hplug ▸ h.links) (hplug ▸ h : table.Describes _).at_path.2.2.2.2 []
    rw [hplug, h.numbered.count_eq, List.append_nil] at hdown
    exact hdown.trans (walk_of_le hleaf [])
  rw [hcode]
  constructor
  · intro hbits
    rw [← h.numbered.count_eq] at hbits hpath
    exact h.links.walk_inj h.numbered.fit h.numbered.nodup hleaf hbits hpath
  · rintro rfl
    exact hpath

variable [Counter κ]

/-- The rows stand for the code: it has their counts where the tree that they describe has the
numbers of the nodes. -/
def StandsFor (table : NodeTable κ) (code : Tree κ) : Prop :=
  ∃ shape : Tree Nat, table.Describes shape ∧ shape.relabel (countIn table.count) = code

/-- Whatever symbols are observed one after the other, no access leaves the rows and no climb goes
on for ever: there are rows, which form one full binary tree and stand for the code of the decoder.
Bits lead from the root to a leaf or run out before, and for every symbol those that lead to its leaf
are its code alone. -/
theorem observeAll_isFullTree (symbols : List Symbol) :
    ∃ observed : NodeTable κ, initial.observeAll symbols = some observed ∧ observed.IsFullTree
      ∧ observed.StandsFor (symbols.foldl Tree.observe Tree.initial)
      ∧ (∀ bits, ∃ node rest, observed.walk rootNumber bits = some (node, rest)
        ∧ (1 ≤ node ∧ node < 2 * symbolCount) ∧ (node < symbolCount → rest = []))
      ∧ ∀ symbol bits, observed.walk rootNumber bits = some (leafNumber symbol, [])
        ↔ bits = (symbols.foldl Tree.observe (Tree.initial : Tree κ)).code symbol := by
  obtain ⟨observed, shape, hobserved, hdescribes, hcode⟩ := @exists_observeAll κ _ symbols
  refine ⟨observed, hobserved, hdescribes.isFullTree, ⟨shape, hdescribes, hcode⟩, ?_, ?_⟩
  · intro bits
    obtain ⟨node, rest, hwalk, hmem, hrest⟩ :=
      hdescribes.links.exists_walk hdescribes.numbered.fit bits
    rw [hdescribes.numbered.count_eq] at hwalk
    exact ⟨node, rest, hwalk, (hdescribes.numbered.mem_labels node).mp hmem, hrest⟩
  · intro symbol bits
    rw [hdescribes.walk_eq_some_iff, hcode]

end AdLibModule.Sixpack.NodeTable
