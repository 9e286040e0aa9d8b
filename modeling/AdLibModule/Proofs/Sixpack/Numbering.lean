import AdLibModule.Proofs.Sixpack.NodeTable
import AdLibModule.Proofs.Sixpack.Tree

/-! Rows that describe a tree. A tree whose counts are the numbers of its nodes says how the nodes
hang together. Rows describe such a tree when their pointers agree with it; the tree that they stand
for has their counts in the place of the numbers. Each operation on the rows is followed here by the
one on the tree, at a node and on its way up to the root. -/

namespace AdLibModule.Sixpack

/-- Each leaf bears the number of its symbol, and each inner node one that comes before those. -/
def Tree.NumbersFit : Tree Nat → Prop
  | leaf symbol number => number = leafNumber symbol
  | fork number left right => number < symbolCount ∧ left.NumbersFit ∧ right.NumbersFit

theorem Tree.NumbersFit.mem_symbols {tree : Tree Nat} (h : tree.NumbersFit) {symbol : Symbol}
    (hmem : leafNumber symbol ∈ tree.labels) : symbol ∈ tree.symbols := by
  induction tree with
  | leaf other number =>
      rw [labels, List.mem_singleton, (h : number = leafNumber other), leafNumber, leafNumber,
        Nat.add_right_cancel_iff] at hmem
      rw [symbols, List.mem_singleton]
      exact Fin.ext hmem
  | fork number left right ihl ihr =>
      obtain ⟨hnumber, hleft, hright⟩ := h
      rw [labels, List.mem_cons, List.mem_append] at hmem
      rw [symbols, List.mem_append]
      rcases hmem with rfl | hmem | hmem
      · exact absurd hnumber (Nat.not_lt.mpr (Nat.le_add_left _ _))
      · exact Or.inl (ihl hleft hmem)
      · exact Or.inr (ihr hright hmem)

theorem Tree.NumbersFit.sublist_labels {tree : Tree Nat} (h : tree.NumbersFit) :
    (tree.symbols.map leafNumber).Sublist tree.labels := by
  induction tree with
  | leaf symbol number =>
      rw [symbols, labels, List.map_singleton, (h : number = leafNumber symbol)]
  | fork number left right ihl ihr =>
      rw [symbols, labels, List.map_append]
      exact ((ihl h.2.1).append (ihr h.2.2)).cons number

/-- Every number belongs to one node. -/
structure Tree.Numbered (shape : Tree Nat) : Prop where
  count_eq : shape.count = rootNumber
  fit : shape.NumbersFit
  nodup : shape.labels.Nodup
  mem_labels : ∀ n, n ∈ shape.labels ↔ 1 ≤ n ∧ n < 2 * symbolCount

theorem Tree.Numbered.mem_symbols {shape : Tree Nat} (h : shape.Numbered) (symbol : Symbol) :
    symbol ∈ shape.symbols := by
  have hlt := symbol.isLt
  apply h.fit.mem_symbols
  rw [h.mem_labels, leafNumber]
  simp only [symbolCount] at hlt ⊢
  omega

theorem Tree.Numbered.nodup_symbols {shape : Tree Nat} (h : shape.Numbered) : shape.symbols.Nodup :=
  (h.nodup.sublist h.fit.sublist_labels).of_map leafNumber

namespace NodeTable

variable {κ : Type}

/-- The rows have an entry for each node. -/
structure Complete (table : NodeTable κ) : Prop where
  left_size : table.left.size = symbolCount
  right_size : table.right.size = symbolCount
  parent_size : table.parent.size = 2 * symbolCount
  count_size : table.count.size = 2 * symbolCount

/-- The pointers agree with the tree. -/
def Links (table : NodeTable κ) : Tree Nat → Prop
  | .leaf _ _ => True
  | .fork number left right =>
    (table.left[number]? = some left.count ∧ table.right[number]? = some right.count)
      ∧ (table.parent[left.count]? = some number ∧ table.parent[right.count]? = some number)
      ∧ table.Links left ∧ table.Links right

/-- The pointers agree with a step up from `node`. -/
structure LinksFrame (table : NodeTable κ) (node : Nat) (frame : Frame Nat) : Prop where
  parent : table.parent[node]? = some frame.count
  siblingParent : table.parent[frame.sibling.count]? = some frame.count
  left : table.left[frame.count]? = some (if frame.isRight then frame.sibling.count else node)
  right : table.right[frame.count]? = some (if frame.isRight then node else frame.sibling.count)
  sibling : table.Links frame.sibling

/-- The pointers agree with the way up from `node`. -/
def LinksPath (table : NodeTable κ) (node : Nat) : List (Frame Nat) → Prop
  | [] => True
  | frame :: path => table.LinksFrame node frame ∧ table.LinksPath frame.count path

/-- The rows describe the tree. -/
structure Describes (table : NodeTable κ) (shape : Tree Nat) : Prop where
  complete : table.Complete
  numbered : shape.Numbered
  links : table.Links shape

theorem links_fill {table : NodeTable κ} {frame : Frame Nat} {node : Tree Nat} :
    table.Links (frame.fill node) ↔ table.Links node ∧ table.LinksFrame node.count frame := by
  obtain ⟨isRight, number, sibling⟩ := frame
  cases isRight with
  | false =>
      constructor
      · rintro ⟨⟨hleft, hright⟩, ⟨hparent, hother⟩, hnode, hsibling⟩
        exact ⟨hnode, hparent, hother, hleft, hright, hsibling⟩
      · rintro ⟨hnode, hparent, hother, hleft, hright, hsibling⟩
        exact ⟨⟨hleft, hright⟩, ⟨hparent, hother⟩, hnode, hsibling⟩
  | true =>
      constructor
      · rintro ⟨⟨hleft, hright⟩, ⟨hother, hparent⟩, hsibling, hnode⟩
        exact ⟨hnode, hparent, hother, hleft, hright, hsibling⟩
      · rintro ⟨hnode, hparent, hother, hleft, hright, hsibling⟩
        exact ⟨⟨hleft, hright⟩, ⟨hother, hparent⟩, hsibling, hnode⟩

theorem links_plug {table : NodeTable κ} {node : Tree Nat} {path : List (Frame Nat)} :
    table.Links (plug node path) ↔ table.Links node ∧ table.LinksPath node.count path := by
  induction path generalizing node with
  | nil => exact (and_iff_left trivial).symm
  | cons frame path ih =>
      have hcount : (frame.fill node).count = frame.count := by
        obtain ⟨isRight, number, sibling⟩ := frame
        cases isRight <;> rfl
      rw [plug, ih, links_fill, hcount, LinksPath, and_assoc]

/-- The pointers of a part of the tree stand in the rows of its inner nodes, and in the parents of
all its nodes but the topmost. -/
theorem Links.congr {table other : NodeTable κ} {tree : Tree Nat} (hnodup : tree.labels.Nodup)
    (hchildren : ∀ n ∈ tree.labels, other.left[n]? = table.left[n]? ∧ other.right[n]? = table.right[n]?)
    (hparent : ∀ n ∈ tree.labels, n ≠ tree.count → other.parent[n]? = table.parent[n]?)
    (h : table.Links tree) : other.Links tree := by
  induction tree with
  | leaf symbol number => trivial
  | fork number left right ihl ihr =>
      rw [Tree.labels, List.nodup_cons, List.nodup_append'] at hnodup
      obtain ⟨hnumber, hleft, hright, hdisjoint⟩ := hnodup
      obtain ⟨⟨hl, hr⟩, ⟨hpl, hpr⟩, hlinksl, hlinksr⟩ := h
      have hinl : ∀ n ∈ left.labels, n ∈ (Tree.fork number left right).labels := fun n hn =>
        List.mem_cons_of_mem _ (List.mem_append_left _ hn)
      have hinr : ∀ n ∈ right.labels, n ∈ (Tree.fork number left right).labels := fun n hn =>
        List.mem_cons_of_mem _ (List.mem_append_right _ hn)
      have hnel : ∀ n ∈ left.labels, n ≠ number := fun n hn heq =>
        hnumber (List.mem_append_left _ (heq ▸ hn))
      have hner : ∀ n ∈ right.labels, n ≠ number := fun n hn heq =>
        hnumber (List.mem_append_right _ (heq ▸ hn))
      have hcl := left.count_mem_labels
      have hcr := right.count_mem_labels
      have hhere := hchildren number List.mem_cons_self
      refine ⟨⟨hhere.1.trans hl, hhere.2.trans hr⟩, ⟨?_, ?_⟩, ?_, ?_⟩
      · exact (hparent _ (hinl _ hcl) (hnel _ hcl)).trans hpl
      · exact (hparent _ (hinr _ hcr) (hner _ hcr)).trans hpr
      · exact ihl hleft (fun n hn => hchildren n (hinl n hn))
          (fun n hn _ => hparent n (hinl n hn) (hnel n hn)) hlinksl
      · exact ihr hright (fun n hn => hchildren n (hinr n hn))
          (fun n hn _ => hparent n (hinr n hn) (hner n hn)) hlinksr

theorem links_withCounts {table : NodeTable κ} {counts : Array κ} {tree : Tree Nat} :
    (table.withCounts counts).Links tree ↔ table.Links tree := by
  induction tree with
  | leaf symbol number => exact Iff.rfl
  | fork number left right ihl ihr =>
      rw [Links, Links, ihl, ihr]
      exact Iff.rfl

theorem linksFrame_withCounts {table : NodeTable κ} {counts : Array κ} {node : Nat}
    {frame : Frame Nat} :
    (table.withCounts counts).LinksFrame node frame ↔ table.LinksFrame node frame :=
  ⟨fun h => ⟨h.parent, h.siblingParent, h.left, h.right, links_withCounts.mp h.sibling⟩,
    fun h => ⟨h.parent, h.siblingParent, h.left, h.right, links_withCounts.mpr h.sibling⟩⟩

theorem linksPath_withCounts {table : NodeTable κ} {counts : Array κ} {node : Nat}
    {path : List (Frame Nat)} :
    (table.withCounts counts).LinksPath node path ↔ table.LinksPath node path := by
  induction path generalizing node with
  | nil => exact Iff.rfl
  | cons frame path ih => rw [LinksPath, LinksPath, linksFrame_withCounts, ih]

theorem LinksFrame.sibling?_eq {table : NodeTable κ} {node : Nat} {frame : Frame Nat}
    (h : table.LinksFrame node frame) (hne : node ≠ frame.sibling.count) :
    table.sibling? node = some frame.sibling.count := by
  obtain ⟨hparent, -, hleft, hright, -⟩ := h
  simp only [sibling?, hparent, hleft, hright, Option.bind_eq_bind, Option.bind_some]
  cases frame.isRight with
  | false => simp
  | true => simp [hne.symm]

/-! ### The counts on the way up -/

variable [Counter κ]

/-- The count of a node, in a row of counts. -/
def countIn (counts : Array κ) (node : Nat) : κ := (counts[node]?).getD (Counter.ofNat 0)

theorem getElem?_eq_countIn {counts : Array κ} {node : Nat} (h : node < counts.size) :
    counts[node]? = some (countIn counts node) := by
  rw [countIn, Array.getElem?_eq_getElem h, Option.getD_some]

theorem countIn_setIfInBounds {counts : Array κ} {place : Nat} (h : place < counts.size) (value : κ)
    (node : Nat) :
    countIn (counts.setIfInBounds place value) node
      = if node = place then value else countIn counts node := by
  unfold countIn
  rw [Array.getElem?_setIfInBounds]
  by_cases heq : node = place
  · rw [if_pos heq, heq, if_pos rfl, if_pos h, Option.getD_some]
  · rw [if_neg heq, if_neg (Ne.symm heq)]

theorem mem_labels_of_mem_counts {path : List (Frame Nat)} {n : Nat} (h : n ∈ path.map Frame.count) :
    n ∈ path.flatMap Frame.labels := by
  obtain ⟨frame, hframe, rfl⟩ := List.mem_map.mp h
  exact List.mem_flatMap.mpr ⟨frame, hframe, List.mem_cons_self⟩

/-- Only the last step up leads to the root. -/
theorem count_ne_rootNumber {frame above : Frame Nat} {path : List (Frame Nat)}
    (hlast : (frame :: above :: path).getLast?.map Frame.count = some rootNumber)
    (hnodup : ((frame :: above :: path).flatMap Frame.labels).Nodup) :
    frame.count ≠ rootNumber := by
  rw [List.getLast?_cons_cons] at hlast
  obtain ⟨last, hlast, hcount⟩ := Option.map_eq_some_iff.mp hlast
  intro hroot
  rw [List.flatMap_cons] at hnodup
  refine (List.nodup_append'.mp hnodup).2.2 List.mem_cons_self (mem_labels_of_mem_counts ?_)
  rw [hroot, ← hcount]
  exact List.mem_map_of_mem (List.mem_of_getLast? hlast)

/-- One step of a recount: the parent gets the sum of its children's counts. -/
theorem recountFrom_step {table : NodeTable κ} {node : Nat} {frame : Frame Nat}
    (hlinks : table.LinksFrame node frame) (hnode : node < table.count.size)
    (hsibling : frame.sibling.count < table.count.size) (hparent : frame.count < table.count.size) :
    let sum := Counter.add (countIn table.count node) (countIn table.count frame.sibling.count)
    let raised := table.withCounts (table.count.setIfInBounds frame.count sum)
    table.recountFrom node frame.sibling.count
      = if frame.count = rootNumber then some raised
        else (raised.sibling? frame.count).bind (raised.recountFrom frame.count) := by
  rw [recountFrom]
  simp only [hlinks.parent, getElem?_eq_countIn hnode, getElem?_eq_countIn hsibling, replace?,
    if_pos hparent, Option.bind_eq_bind, Option.bind_some, Option.pure_def]

/-- Recounting the rows is recounting the way up; nothing else changes. -/
theorem recountFrom_eq (table : NodeTable κ) {node : Nat} {frame : Frame Nat}
    {path : List (Frame Nat)} (hlinks : table.LinksPath node (frame :: path))
    (hlast : (frame :: path).getLast?.map Frame.count = some rootNumber)
    (hnodup : (node :: (frame :: path).flatMap Frame.labels).Nodup)
    (hrow : ∀ n ∈ node :: (frame :: path).flatMap Frame.labels, n < table.count.size) :
    ∃ counts, table.recountFrom node frame.sibling.count = some (table.withCounts counts)
      ∧ counts.size = table.count.size
      ∧ (∀ n, n ∉ (frame :: path).map Frame.count → countIn counts n = countIn table.count n)
      ∧ (frame :: path).map (Frame.relabel (countIn counts))
          = recount (countIn table.count node)
              ((frame :: path).map (Frame.relabel (countIn table.count))) := by
  induction path generalizing table node frame with
  | nil =>
      have hroot : frame.count = rootNumber := Option.some.inj hlast
      simp only [List.flatMap_cons, List.flatMap_nil, List.append_nil, Frame.labels,
        List.mem_cons, List.nodup_cons, not_or] at hnodup hrow
      have hsibling := frame.sibling.count_mem_labels
      have hparent := hrow frame.count (Or.inr (Or.inl rfl))
      rw [recountFrom_step hlinks.1 (hrow _ (Or.inl rfl)) (hrow _ (Or.inr (Or.inr hsibling))) hparent,
        if_pos hroot]
      refine ⟨_, rfl, Array.size_setIfInBounds, fun n hn => ?_, ?_⟩
      · rw [countIn_setIfInBounds hparent, if_neg (by simpa using hn)]
      · have hkept : ∀ n ∈ frame.sibling.labels, n ≠ frame.count := fun n hn heq =>
          hnodup.2.1 (heq ▸ hn)
        rw [List.map_singleton, List.map_singleton, recount, recount,
          Frame.relabel_eq_of_sibling fun n hn => by
            rw [countIn_setIfInBounds hparent, if_neg (hkept n hn)],
          countIn_setIfInBounds hparent, if_pos rfl]
        simp only [Frame.relabel, Tree.count_relabel]
  | cons above path ih =>
      rw [List.flatMap_cons, Frame.labels, List.cons_append] at hnodup hrow
      have htail := (List.nodup_cons.mp hnodup).2
      obtain ⟨hframe, hrest⟩ := List.nodup_cons.mp htail
      obtain ⟨-, hrest, hdisjoint⟩ := List.nodup_append'.mp hrest
      have hbelow : ∀ n ∈ frame.sibling.labels, n ≠ frame.count := fun n hn heq =>
        hframe (List.mem_append_left _ (heq ▸ hn))
      have habove : ∀ n ∈ (above :: path).flatMap Frame.labels, n ≠ frame.count := fun n hn heq =>
        hframe (List.mem_append_right _ (heq ▸ hn))
      have hsibling : frame.sibling.count < table.count.size := hrow _ (by
        simp [frame.sibling.count_mem_labels])
      have hparent : frame.count < table.count.size := hrow _ (by simp)
      have hne : above.sibling.count ≠ frame.count := habove _ (by
        simp [Frame.labels, above.sibling.count_mem_labels])
      rw [recountFrom_step hlinks.1 (hrow _ List.mem_cons_self) hsibling hparent,
        if_neg (count_ne_rootNumber hlast htail)]
      generalize hsum : Counter.add (countIn table.count node)
        (countIn table.count frame.sibling.count) = sum
      have hraised := countIn_setIfInBounds hparent sum
      have hsize : (table.count.setIfInBounds frame.count sum).size = table.count.size :=
        Array.size_setIfInBounds
      generalize table.count.setIfInBounds frame.count sum = raised at hraised hsize ⊢
      have hpath : (table.withCounts raised).LinksPath frame.count (above :: path) :=
        linksPath_withCounts.mpr hlinks.2
      rw [hpath.1.sibling?_eq hne.symm, Option.bind_some]
      obtain ⟨counts, hresult, hsize', hkept, hrecount⟩ := ih (table.withCounts raised) hpath
        (by rwa [List.getLast?_cons_cons] at hlast)
        (List.nodup_cons.mpr ⟨fun hn => habove _ hn rfl, hrest⟩)
        (fun n hn => by
          rw [withCounts, hsize]
          rcases List.mem_cons.mp hn with rfl | hn
          · exact hparent
          · exact hrow n (List.mem_cons_of_mem _ (List.mem_cons_of_mem _
              (List.mem_append_right _ hn))))
      rw [withCounts] at hsize' hkept hrecount
      refine ⟨counts, hresult, hsize'.trans hsize, fun n hn => ?_, ?_⟩
      · rw [List.map_cons, List.mem_cons, not_or] at hn
        rw [hkept n hn.2, hraised, if_neg hn.1]
      · have hcount : countIn counts frame.count = sum := by
          rw [hkept _ fun hn => habove _ (mem_labels_of_mem_counts hn) rfl, hraised, if_pos rfl]
        have hsame : ∀ n ∈ frame.sibling.labels, countIn counts n = countIn table.count n := by
          intro n hn
          rw [hkept n fun hcounts => hdisjoint hn (mem_labels_of_mem_counts hcounts), hraised,
            if_neg (hbelow n hn)]
        have hunraised : (above :: path).map (Frame.relabel (countIn raised))
            = (above :: path).map (Frame.relabel (countIn table.count)) :=
          map_relabel_congr fun n hn => by rw [hraised, if_neg (habove n hn)]
        rw [hraised, if_pos rfl, hunraised] at hrecount
        rw [List.map_cons, hrecount, Frame.relabel_eq_of_sibling hsame, hcount, ← hsum]
        simp only [List.map_cons, recount, Frame.relabel, Tree.count_relabel]

theorem countIn_halveCounts {table : NodeTable κ} {node : Nat} (hpos : 1 ≤ node)
    (hrow : node < table.count.size) :
    countIn table.halveCounts.count node = halved (countIn table.count node) := by
  unfold halveCounts withCounts countIn
  dsimp only
  rw [Array.getElem?_mapIdx, Array.getElem?_eq_getElem hrow, Option.map_some, Option.getD_some,
    Option.getD_some, if_neg (by omega)]

/-- To refresh the rows is to refresh the tree. -/
theorem refreshFrom_eq {table : NodeTable κ} {node : Tree Nat} {frame : Frame Nat}
    {path : List (Frame Nat)} (hlinks : table.LinksPath node.count (frame :: path))
    (hlast : (frame :: path).getLast?.map Frame.count = some rootNumber)
    (hnodup : (node.labels ++ (frame :: path).flatMap Frame.labels).Nodup)
    (hrow : ∀ n ∈ node.labels ++ (frame :: path).flatMap Frame.labels,
      1 ≤ n ∧ n < table.count.size) :
    ∃ counts, table.refreshFrom node.count frame.sibling.count = some (table.withCounts counts)
      ∧ counts.size = table.count.size
      ∧ refresh (node.relabel (countIn table.count))
          ((frame :: path).map (Frame.relabel (countIn table.count)))
        = (node.relabel (countIn counts), (frame :: path).map (Frame.relabel (countIn counts))) := by
  obtain ⟨-, hpath, hdisjoint⟩ := List.nodup_append'.mp hnodup
  have hmem : ∀ n ∈ node.count :: (frame :: path).flatMap Frame.labels,
      n ∈ node.labels ++ (frame :: path).flatMap Frame.labels := by
    intro n hn
    rcases List.mem_cons.mp hn with rfl | hn
    · exact List.mem_append_left _ node.count_mem_labels
    · exact List.mem_append_right _ hn
  obtain ⟨counts, hresult, hsize, hkept, hrecount⟩ := recountFrom_eq table hlinks hlast
    (List.nodup_cons.mpr ⟨fun hn => hdisjoint node.count_mem_labels hn, hpath⟩)
    (fun n hn => (hrow n (hmem n hn)).2)
  obtain ⟨last, hlast, hcount⟩ := Option.map_eq_some_iff.mp hlast
  have hroot : rootNumber < counts.size := by
    rw [hsize, ← hcount]
    exact (hrow _ (List.mem_append_right _ (mem_labels_of_mem_counts
      (List.mem_map_of_mem (List.mem_of_getLast? hlast))))).2
  have hnode : node.relabel (countIn table.count) = node.relabel (countIn counts) :=
    Tree.relabel_congr fun n hn =>
      (hkept n fun hcounts => hdisjoint hn (mem_labels_of_mem_counts hcounts)).symm
  have htop : ((frame :: path).map (Frame.relabel (countIn counts))).getLast?.any
      (Counter.toNat ·.count == countLimit)
        = (Counter.toNat (countIn counts rootNumber) == countLimit) := by
    rw [List.getLast?_map, hlast, Option.map_some, Option.any_some, Frame.relabel, hcount]
  have htotal : (table.withCounts counts).count[rootNumber]? = some (countIn counts rootNumber) :=
    getElem?_eq_countIn hroot
  simp only [refreshFrom, hresult, htotal, refresh, Tree.count_relabel, ← hrecount, htop,
    Option.bind_eq_bind, Option.bind_some, Option.pure_def]
  rw [hnode]
  by_cases hlimit : (Counter.toNat (countIn counts rootNumber) == countLimit) = true
  · rw [if_pos hlimit, if_pos hlimit]
    have hhalved : ∀ n ∈ node.labels ++ (frame :: path).flatMap Frame.labels,
        (halved ∘ countIn counts) n = countIn (table.withCounts counts).halveCounts.count n :=
      fun n hn => by
        have hn' : n < (table.withCounts counts).count.size := hsize ▸ (hrow n hn).2
        exact (countIn_halveCounts (hrow n hn).1 hn').symm
    refine ⟨(table.withCounts counts).halveCounts.count, rfl, Array.size_mapIdx.trans hsize, ?_⟩
    rw [Tree.halve_eq_relabel, Tree.relabel_relabel, List.map_map,
      Tree.relabel_congr fun n hn => hhalved n (List.mem_append_left _ hn)]
    congr 1
    rw [← map_relabel_congr fun n hn => hhalved n (List.mem_append_right _ hn)]
    apply List.map_congr_left
    intro step _
    rw [Function.comp, Frame.halve_eq_relabel]
    exact Frame.relabel_relabel _ _ step
  · rw [if_neg hlimit, if_neg hlimit]
    exact ⟨counts, rfl, hsize, rfl⟩

end NodeTable
end AdLibModule.Sixpack
