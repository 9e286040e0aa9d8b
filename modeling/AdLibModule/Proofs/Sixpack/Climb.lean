import AdLibModule.Proofs.Sixpack.Exchange

/-! The climb through the rows is the climb through the tree. At each step the rows describe the tree
as it then is, whether or not two nodes have changed places; the climb ends because the way up gets
shorter. -/

namespace AdLibModule.Sixpack

theorem Tree.count_fill {κ : Type} (frame : Frame κ) (node : Tree κ) :
    (frame.fill node).count = frame.count := by
  obtain ⟨isRight, count, sibling⟩ := frame
  cases isRight <;> rfl

theorem count_plug {κ : Type} (node : Tree κ) (path : List (Frame κ)) :
    (plug node path).count = (path.getLast?.map Frame.count).getD node.count := by
  induction path generalizing node with
  | nil => rfl
  | cons frame path ih =>
      rw [plug, ih, Tree.count_fill]
      cases path with
      | nil => rfl
      | cons above path =>
          rw [List.getLast?_cons_cons, List.getLast?_cons, Option.map_some, Option.getD_some,
            Option.getD_some]

theorem Tree.numbersFit_fill (frame : Frame Nat) (node : Tree Nat) :
    (frame.fill node).NumbersFit
      ↔ node.NumbersFit ∧ frame.count < symbolCount ∧ frame.sibling.NumbersFit := by
  obtain ⟨isRight, count, sibling⟩ := frame
  cases isRight with
  | false => exact and_left_comm
  | true => exact ⟨fun ⟨hc, hs, hn⟩ => ⟨hn, hc, hs⟩, fun ⟨hn, hc, hs⟩ => ⟨hc, hs, hn⟩⟩

theorem numbersFit_plug (node : Tree Nat) (path : List (Frame Nat)) :
    (plug node path).NumbersFit ↔ node.NumbersFit
      ∧ ∀ frame ∈ path, frame.count < symbolCount ∧ frame.sibling.NumbersFit := by
  induction path generalizing node with
  | nil => simp [plug]
  | cons frame path ih => rw [plug, ih, Tree.numbersFit_fill, List.forall_mem_cons, and_assoc]

/-- The numbering survives an exchange. -/
theorem Tree.Numbered.exchange {node : Tree Nat} {frame above : Frame Nat}
    {path : List (Frame Nat)} (h : (plug node (frame :: above :: path)).Numbered) :
    (plug above.sibling (frame :: { above with sibling := node } :: path)).Numbered := by
  have hperm : (plug above.sibling (frame :: { above with sibling := node } :: path)).labels.Perm
      (plug node (frame :: above :: path)).labels := by
    refine (labels_plug _ _).trans (List.Perm.trans ?_ (labels_plug _ _).symm)
    simp only [List.flatMap_cons, Frame.labels, List.perm_iff_count, List.count_append,
      List.count_cons]
    intro n
    omega
  obtain ⟨hcount, hfit, hnodup, hmem⟩ := h
  refine ⟨?_, ?_, hperm.nodup_iff.mpr hnodup, fun n => hperm.mem_iff.trans (hmem n)⟩
  · rw [count_plug] at hcount ⊢
    cases path with
    | nil => exact hcount
    | cons top path =>
        rw [List.getLast?_cons_cons, List.getLast?_cons_cons, List.getLast?_cons] at hcount ⊢
        exact hcount
  · rw [numbersFit_plug, List.forall_mem_cons, List.forall_mem_cons] at hfit ⊢
    obtain ⟨hnode, hframe, ⟨habove, huncle⟩, hpath⟩ := hfit
    exact ⟨huncle, hframe, ⟨habove, hnode⟩, hpath⟩

section Refresh

variable {κ : Type} [Counter κ]

theorem climb_singleton (steps : Nat) (node : Tree κ) (frame : Frame κ) :
    climb steps node [frame] = plug node [frame] := by
  cases steps <;> rfl

/-- It does not matter whether the parent is filled before or after the tree is refreshed. -/
theorem refresh_fill {node : Tree κ} {frame above : Frame κ} {path : List (Frame κ)}
    {node' : Tree κ} {frame' : Frame κ} {path' : List (Frame κ)}
    (h : refresh node (frame :: above :: path) = (node', frame' :: path')) :
    refresh ({ frame with count := Counter.add node.count frame.sibling.count }.fill node)
      (above :: path) = (frame'.fill node', path') := by
  unfold refresh at h ⊢
  rw [recount] at h
  dsimp only at h ⊢
  rw [Tree.count_fill]
  generalize hsum : Counter.add node.count frame.sibling.count = sum at h ⊢
  have hlast : ({ frame with count := sum } :: recount sum (above :: path)).getLast?
      = (recount sum (above :: path)).getLast? := by
    rw [recount, List.getLast?_cons_cons]
  rw [hlast] at h
  split at h
  · rename_i hlimit
    rw [if_pos hlimit]
    cases h
    congr 1
    rw [Tree.halve_eq_relabel, Tree.halve_eq_relabel, Frame.halve_eq_relabel, Frame.fill_relabel]
  · rename_i hlimit
    rw [if_neg hlimit]
    cases h
    rfl

end Refresh

namespace NodeTable

variable {κ : Type}

/-- What the rows say at a node and on its way up. -/
theorem Describes.at_path {table : NodeTable κ} {node : Tree Nat} {path : List (Frame Nat)}
    (h : table.Describes (plug node path)) :
    table.Links node ∧ table.LinksPath node.count path
      ∧ (node.labels ++ path.flatMap Frame.labels).Nodup
      ∧ (∀ n ∈ node.labels ++ path.flatMap Frame.labels, 1 ≤ n ∧ n < 2 * symbolCount)
      ∧ ∀ frame ∈ path, frame.count < symbolCount :=
  ⟨(links_plug.mp h.links).1, (links_plug.mp h.links).2,
    (labels_plug node path).nodup_iff.mp h.numbered.nodup,
    fun n hn => (h.numbered.mem_labels n).mp ((labels_plug node path).mem_iff.mpr hn),
    fun frame hframe => ((numbersFit_plug node path).mp h.numbered.fit).2 frame hframe |>.1⟩

theorem Describes.getLast?_count {table : NodeTable κ} {node : Tree Nat} {frame : Frame Nat}
    {path : List (Frame Nat)} (h : table.Describes (plug node (frame :: path))) :
    (frame :: path).getLast?.map Frame.count = some rootNumber := by
  have hroot := h.numbered.count_eq
  rw [count_plug, List.getLast?_cons] at hroot
  rw [List.getLast?_cons]
  exact congrArg some hroot

theorem Describes.withCounts {table : NodeTable κ} {shape : Tree Nat} {counts : Array κ}
    (h : table.Describes shape) (hsize : counts.size = table.count.size) :
    (table.withCounts counts).Describes shape :=
  ⟨⟨h.complete.left_size, h.complete.right_size, h.complete.parent_size,
    hsize.trans h.complete.count_size⟩, h.numbered, links_withCounts.mpr h.links⟩

variable [Counter κ]

/-- To refresh the rows at a node is to refresh the tree. -/
theorem Describes.refreshFrom {table : NodeTable κ} {node : Tree Nat} {frame : Frame Nat}
    {path : List (Frame Nat)} (h : table.Describes (plug node (frame :: path))) :
    ∃ counts, table.refreshFrom node.count frame.sibling.count = some (table.withCounts counts)
      ∧ (table.withCounts counts).Describes (plug node (frame :: path))
      ∧ refresh (node.relabel (countIn table.count))
          ((frame :: path).map (Frame.relabel (countIn table.count)))
        = (node.relabel (countIn counts), (frame :: path).map (Frame.relabel (countIn counts))) := by
  obtain ⟨-, hpath, hnodup, hrow, -⟩ := h.at_path
  obtain ⟨counts, hresult, hsize, hrefresh⟩ := refreshFrom_eq hpath h.getLast?_count hnodup
    (fun n hn => h.complete.count_size.symm ▸ hrow n hn)
  exact ⟨counts, hresult, h.withCounts hsize, hrefresh⟩

/-- To settle a node in the rows is one step of the climb through the tree. -/
theorem Describes.settle {table : NodeTable κ} {node : Tree Nat} {frame above : Frame Nat}
    {path : List (Frame Nat)} (h : table.Describes (plug node (frame :: above :: path)))
    (steps : Nat) :
    ∃ (settled : NodeTable κ) (child : Tree Nat) (top : Frame Nat),
      table.settle node.count frame.count = some (settled, child.count)
      ∧ settled.Describes (plug child (frame :: top :: path)) ∧ top.count = above.count
      ∧ climb (steps + 1) (node.relabel (countIn table.count))
          ((frame :: above :: path).map (Frame.relabel (countIn table.count)))
        = climb steps ((frame.fill child).relabel (countIn settled.count))
          ((top :: path).map (Frame.relabel (countIn settled.count))) := by
  obtain ⟨hlinks, hpath, hnodup, hrow, hinner⟩ := h.at_path
  obtain ⟨hframe, habove, -⟩ := id hpath
  have huncle := above.sibling.count_mem_labels
  have hne : frame.count ≠ above.sibling.count := by
    have hparts := hnodup
    simp only [List.flatMap_cons, Frame.labels, List.cons_append, List.nodup_append',
      List.nodup_cons, List.mem_append, List.mem_cons, not_or] at hparts
    exact fun heq => hparts.2.1.1.2.2.1 (heq ▸ huncle)
  have hweight : table.count[node.count]? = some (countIn table.count node.count) :=
    getElem?_eq_countIn (h.complete.count_size.symm ▸
      (hrow _ (List.mem_append_left _ node.count_mem_labels)).2)
  have hother : table.count[above.sibling.count]?
      = some (countIn table.count above.sibling.count) :=
    getElem?_eq_countIn (h.complete.count_size.symm ▸
      (hrow _ (by simp [Frame.labels, huncle])).2)
  rw [NodeTable.settle, List.map_cons, List.map_cons, climb]
  simp only [habove.parent, habove.sibling?_eq hne, hweight, hother, Option.bind_eq_bind,
    Option.bind_some, Option.pure_def]
  have hcounts : (above.relabel (countIn table.count)).sibling.count
      = countIn table.count above.sibling.count := Tree.count_relabel _ _
  rw [hcounts, Tree.count_relabel]
  by_cases hlt : Counter.toNat (countIn table.count above.sibling.count)
      < Counter.toNat (countIn table.count node.count)
  · rw [if_pos hlt, if_pos hlt]
    obtain ⟨swapped, hexchange, hcomplete, hcount, hlinks', hpath'⟩ := exchange_links h.complete
      hlinks hpath hnodup ⟨hinner _ List.mem_cons_self, hinner _ (by simp)⟩ (fun n hn => (hrow n hn).2)
    have hswapped : swapped.Describes
        (plug above.sibling (frame :: { above with sibling := node } :: path)) :=
      ⟨hcomplete, h.numbered.exchange, links_plug.mpr ⟨hlinks', hpath'⟩⟩
    obtain ⟨counts, hrefresh, hdescribes, htree⟩ := hswapped.refreshFrom
    refine ⟨swapped.withCounts counts, above.sibling, { above with sibling := node }, ?_, hdescribes,
      rfl, ?_⟩
    · rw [hexchange, Option.bind_some, hrefresh, Option.bind_some]
    · rw [hcount] at htree
      have hfill := refresh_fill htree
      rw [Tree.count_relabel, Frame.fill_relabel] at hfill
      exact congrArg (fun refreshed => climb steps refreshed.1 refreshed.2) hfill
  · rw [if_neg hlt, if_neg hlt]
    refine ⟨table, node, above, rfl, h, rfl, ?_⟩
    rw [Frame.fill_relabel]
    rfl

/-- The climb through the rows is the climb through the tree. -/
theorem Describes.climbFrom {table : NodeTable κ} {node : Tree Nat} {frame above : Frame Nat}
    {path : List (Frame Nat)} (h : table.Describes (plug node (frame :: above :: path)))
    {steps : Nat} (hsteps : path.length < steps) :
    ∃ (climbed : NodeTable κ) (shape : Tree Nat),
      table.climbFrom node.count frame.count = some climbed
      ∧ climbed.Describes shape
      ∧ shape.relabel (countIn climbed.count)
        = climb steps (node.relabel (countIn table.count))
            ((frame :: above :: path).map (Frame.relabel (countIn table.count))) := by
  induction path generalizing table node frame above steps with
  | nil =>
      obtain ⟨steps, rfl⟩ := Nat.exists_eq_add_one.mpr hsteps
      obtain ⟨settled, child, top, hsettle, hdescribes, htop, hclimb⟩ := h.settle steps
      obtain ⟨-, ⟨hchild, hparent, -⟩, -⟩ := hdescribes.at_path
      have hroot : top.count = rootNumber := Option.some.inj hdescribes.getLast?_count
      refine ⟨settled, _, ?_, hdescribes, ?_⟩
      · rw [NodeTable.climbFrom]
        simp only [hsettle, hchild.parent, hparent.parent, Option.bind_eq_bind, Option.bind_some,
          Option.pure_def, if_pos hroot]
      · rw [hclimb, List.map_singleton, climb_singleton, ← plug_relabel, ← Frame.fill_relabel]
        rfl
  | cons next path ih =>
      obtain ⟨steps, rfl⟩ := Nat.exists_eq_add_one.mpr (Nat.zero_lt_of_lt hsteps)
      obtain ⟨settled, child, top, hsettle, hdescribes, htop, hclimb⟩ := h.settle steps
      obtain ⟨-, ⟨hchild, hparent, -⟩, hnodup, -⟩ := hdescribes.at_path
      have hroot : top.count ≠ rootNumber := by
        have hlast : (top :: next :: path).getLast?.map Frame.count = some rootNumber :=
          hdescribes.getLast?_count
        exact count_ne_rootNumber hlast hnodup.of_append_right.of_append_right
      have hdescribes' : settled.Describes (plug (frame.fill child) (top :: next :: path)) :=
        hdescribes
      obtain ⟨climbed, shape, hresult, hclimbed, htree⟩ := ih hdescribes'
        (Nat.lt_of_succ_lt_succ hsteps)
      refine ⟨climbed, shape, ?_, hclimbed, htree.trans hclimb.symm⟩
      rw [NodeTable.climbFrom]
      rw [Tree.count_fill] at hresult
      simp only [hsettle, hchild.parent, hparent.parent, Option.bind_eq_bind, Option.bind_some,
        Option.pure_def, if_neg hroot, hresult]

/-- The leaf of a symbol, and the way up from it. -/
theorem exists_locate {shape : Tree Nat} (h : shape.Numbered) (symbol : Symbol) :
    ∃ path, shape.locate symbol [] = some ⟨symbol, leafNumber symbol, path⟩
      ∧ plug (.leaf symbol (leafNumber symbol)) path = shape := by
  have hsome : (shape.locate symbol []).isSome := Tree.isSome_locate_iff.mpr (h.mem_symbols symbol)
  obtain ⟨⟨found, number, path⟩, hlocate⟩ := Option.isSome_iff_exists.mp hsome
  obtain ⟨rfl, hplug⟩ := Tree.plug_of_locate_eq_some hlocate
  dsimp only [plug] at hplug hlocate ⊢
  have hfit := h.fit
  rw [← hplug, numbersFit_plug] at hfit
  obtain rfl : number = leafNumber found := hfit.1
  exact ⟨path, hlocate, hplug⟩

/-- When the count of a leaf is raised, nothing but this count changes. -/
theorem Describes.exists_raised {table : NodeTable κ} {symbol : Symbol} {path : List (Frame Nat)}
    (h : table.Describes (plug (.leaf symbol (leafNumber symbol)) path)) :
    ∃ counts, (table.withCounts counts).Describes (plug (.leaf symbol (leafNumber symbol)) path)
      ∧ replace? table.count (leafNumber symbol) (Counter.add
          (countIn table.count (leafNumber symbol)) (Counter.ofNat 1)) = some counts
      ∧ Tree.leaf symbol (Counter.add (countIn table.count (leafNumber symbol)) (Counter.ofNat 1))
          = (Tree.leaf symbol (leafNumber symbol)).relabel (countIn counts)
      ∧ path.map (Frame.relabel (countIn table.count))
          = path.map (Frame.relabel (countIn counts)) := by
  obtain ⟨-, -, hnodup, hrow, -⟩ := h.at_path
  have hleaf : leafNumber symbol < table.count.size :=
    h.complete.count_size.symm ▸ (hrow _ List.mem_cons_self).2
  refine ⟨_, h.withCounts Array.size_setIfInBounds, replace?_eq hleaf _, ?_, ?_⟩
  · rw [Tree.relabel, countIn_setIfInBounds hleaf, if_pos rfl]
  · apply map_relabel_congr
    intro n hn
    rw [countIn_setIfInBounds hleaf, if_neg]
    rintro rfl
    exact (List.nodup_cons.mp hnodup).1 hn

/-- To observe a symbol in the rows is to observe it in the tree. -/
theorem Describes.observe {table : NodeTable κ} {shape : Tree Nat} (h : table.Describes shape)
    (symbol : Symbol) :
    ∃ (observed : NodeTable κ) (shape' : Tree Nat), table.observe symbol = some observed
      ∧ observed.Describes shape'
      ∧ shape'.relabel (countIn observed.count)
        = (shape.relabel (countIn table.count)).observe symbol := by
  obtain ⟨path, hlocate, hplug⟩ := exists_locate h.numbered symbol
  have htree : (shape.relabel (countIn table.count)).locate symbol []
      = some (Location.relabel (countIn table.count) ⟨symbol, leafNumber symbol, path⟩) := by
    have hmap := Tree.locate_relabel (countIn table.count) symbol shape []
    rw [hlocate] at hmap
    exact hmap
  rw [Tree.observe, htree]
  dsimp only [Location.relabel]
  rw [← hplug] at h
  obtain ⟨-, -, hnodup, hrow, -⟩ := h.at_path
  have hweight : table.count[leafNumber symbol]? = some (countIn table.count (leafNumber symbol)) :=
    getElem?_eq_countIn (h.complete.count_size.symm ▸ (hrow _ List.mem_cons_self).2)
  obtain ⟨counts, hcounted, hraised, hleaf, hpath⟩ := h.exists_raised
  rw [NodeTable.observe]
  simp only [hweight, hraised, Option.bind_eq_bind, Option.bind_some, Option.pure_def]
  rw [Location.observe]
  dsimp only
  rw [hleaf, hpath]
  have hup : (table.withCounts counts).LinksPath (leafNumber symbol) path := hcounted.at_path.2.1
  rcases path with - | ⟨frame, - | ⟨above, rest⟩⟩
  · have hroot : symbol.val + symbolCount = rootNumber := h.numbered.count_eq
    simp only [symbolCount, rootNumber] at hroot
    omega
  · have hroot : frame.count = rootNumber := Option.some.inj h.getLast?_count
    refine ⟨table.withCounts counts, _, ?_, hcounted, ?_⟩
    · rw [hup.1.parent, Option.bind_some, if_pos hroot]
    · rw [← plug_relabel]
      rfl
  · have hroot : frame.count ≠ rootNumber :=
      count_ne_rootNumber h.getLast?_count (List.nodup_cons.mp hnodup).2
    have hne : leafNumber symbol ≠ frame.sibling.count := by
      intro heq
      refine (List.nodup_cons.mp hnodup).1 ?_
      rw [heq]
      simp [Frame.labels, frame.sibling.count_mem_labels]
    obtain ⟨counts', hrefresh, hrefreshed, hsame⟩ := hcounted.refreshFrom
    have hsteps : rest.length < rest.length + 2 := by omega
    obtain ⟨climbed, shape', hclimb, hdescribes, hclimbed⟩ := hrefreshed.climbFrom hsteps
    refine ⟨climbed, shape', ?_, hdescribes, hclimbed.trans ?_⟩
    · rw [hup.1.parent, Option.bind_some, if_neg hroot, hup.1.sibling?_eq hne, Option.bind_some]
      exact (congrArg (Option.bind · _) hrefresh).trans hclimb
    · show _ = climb ((frame :: above :: rest).map _).length (refresh _ _).1 (refresh _ _).2
      rw [List.length_map]
      exact congrArg (fun refreshed => climb (rest.length + 2) refreshed.1 refreshed.2) hsame.symm

end NodeTable

end AdLibModule.Sixpack
