import AdLibModule.Proofs.Sixpack.Numbering

/-! Two nodes of a numbered tree change places. The rows are written in six places, at the two nodes
and at their parents; all parts of the tree that hang on other nodes keep their pointers. -/

namespace AdLibModule.Sixpack.NodeTable

variable {κ : Type}

theorem LinksFrame.congr {table other : NodeTable κ} {node : Nat} {frame : Frame Nat}
    (hnodup : frame.sibling.labels.Nodup)
    (hnode : other.parent[node]? = table.parent[node]?)
    (hchildren : ∀ n ∈ frame.labels,
      other.left[n]? = table.left[n]? ∧ other.right[n]? = table.right[n]?)
    (hparent : ∀ n ∈ frame.sibling.labels, other.parent[n]? = table.parent[n]?)
    (h : table.LinksFrame node frame) : other.LinksFrame node frame := by
  have hhere := hchildren frame.count List.mem_cons_self
  exact ⟨hnode.trans h.parent, (hparent _ frame.sibling.count_mem_labels).trans h.siblingParent,
    hhere.1.trans h.left, hhere.2.trans h.right,
    h.sibling.congr hnodup (fun n hn => hchildren n (List.mem_cons_of_mem _ hn))
      (fun n hn _ => hparent n hn)⟩

theorem LinksPath.congr {table other : NodeTable κ} {node : Nat} {path : List (Frame Nat)}
    (hnodup : (path.flatMap Frame.labels).Nodup)
    (hnode : other.parent[node]? = table.parent[node]?)
    (hsame : ∀ n ∈ path.flatMap Frame.labels, (other.left[n]? = table.left[n]?
      ∧ other.right[n]? = table.right[n]?) ∧ other.parent[n]? = table.parent[n]?)
    (h : table.LinksPath node path) : other.LinksPath node path := by
  induction path generalizing node with
  | nil => trivial
  | cons frame path ih =>
      rw [List.flatMap_cons] at hnodup hsame
      obtain ⟨hframe, hpath, -⟩ := List.nodup_append'.mp hnodup
      have hhere : ∀ n ∈ frame.labels, _ := fun n hn => hsame n (List.mem_append_left _ hn)
      refine ⟨h.1.congr (List.nodup_cons.mp hframe).2 hnode (fun n hn => (hhere n hn).1)
        (fun n hn => (hhere n (List.mem_cons_of_mem _ hn)).2), ?_⟩
      exact ih hpath (hhere _ List.mem_cons_self).2
        (fun n hn => hsame n (List.mem_append_right _ hn)) h.2

theorem replace?_eq {α : Type} {row : Array α} {place : Nat} (h : place < row.size) (entry : α) :
    replace? row place entry = some (row.setIfInBounds place entry) :=
  if_pos h

theorem getElem?_setIfInBounds_eq {α : Type} {row : Array α} {place : Nat} (h : place < row.size)
    (entry : α) (n : Nat) :
    (row.setIfInBounds place entry)[n]? = if n = place then some entry else row[n]? := by
  rw [Array.getElem?_setIfInBounds]
  by_cases heq : n = place
  · rw [if_pos heq, heq, if_pos rfl, if_pos h]
  · rw [if_neg heq, if_neg (Ne.symm heq)]

theorem replaceBeside_eq {table : NodeTable κ} {child : Nat} {frame : Frame Nat}
    (hleft : table.left[frame.count]? = some (if frame.isRight then frame.sibling.count else child))
    (hsize : frame.count < table.left.size ∧ frame.count < table.right.size)
    (hne : child ≠ frame.sibling.count) (entry : Nat) :
    table.replaceBeside frame.count child entry = some { table with
      left := if frame.isRight then table.left.setIfInBounds frame.count entry else table.left
      right := if !frame.isRight then table.right.setIfInBounds frame.count entry
        else table.right } := by
  obtain ⟨isRight, number, sibling⟩ := frame
  cases isRight with
  | false => simp [replaceBeside, hleft, replace?_eq hsize.2]
  | true => simp [replaceBeside, hleft, hne.symm, replace?_eq hsize.1]

theorem replaceChild_eq {table : NodeTable κ} {child : Nat} {frame : Frame Nat}
    (hleft : table.left[frame.count]? = some (if frame.isRight then frame.sibling.count else child))
    (hright : table.right[frame.count]?
      = some (if frame.isRight then child else frame.sibling.count))
    (hsize : frame.count < table.left.size ∧ frame.count < table.right.size)
    (hne : child ≠ frame.sibling.count) (entry : Nat) :
    table.replaceChild frame.count child entry = some ({ table with
      left := if !frame.isRight then table.left.setIfInBounds frame.count entry else table.left
      right := if frame.isRight then table.right.setIfInBounds frame.count entry
        else table.right }, frame.sibling.count) := by
  obtain ⟨isRight, number, sibling⟩ := frame
  cases isRight with
  | false => simp [replaceChild, hleft, hright, replace?_eq hsize.1]
  | true => simp [replaceChild, hleft, hne.symm, replace?_eq hsize.2]

theorem size_ite_setIfInBounds (row : Array Nat) (place entry : Nat) (isSet : Bool) :
    (if isSet then row.setIfInBounds place entry else row).size = row.size := by
  cases isSet with
  | false => rfl
  | true => exact Array.size_setIfInBounds

theorem getElem?_ite_setIfInBounds {row : Array Nat} {place : Nat} (h : place < row.size)
    (entry : Nat) (isSet : Bool) (n : Nat) :
    (if isSet then row.setIfInBounds place entry else row)[n]?
      = if n = place ∧ isSet then some entry else row[n]? := by
  cases isSet with
  | false => simp
  | true => simp [getElem?_setIfInBounds_eq h]

/-- The table once a node and its uncle have changed places: `frame` is the step up from the node,
and `above` the step up from its parent. -/
structure Exchanged (table swapped : NodeTable κ) (node : Nat) (frame above : Frame Nat) : Prop where
  complete : swapped.Complete
  count : swapped.count = table.count
  left : ∀ n, swapped.left[n]? = if n = frame.count ∧ !frame.isRight then some above.sibling.count
    else if n = above.count ∧ above.isRight then some node
    else table.left[n]?
  right : ∀ n, swapped.right[n]? = if n = frame.count ∧ frame.isRight then some above.sibling.count
    else if n = above.count ∧ !above.isRight then some node
    else table.right[n]?
  parent : ∀ n, swapped.parent[n]? = if n = node then some above.count
    else if n = above.sibling.count then some frame.count
    else table.parent[n]?

theorem exists_exchange_eq {table : NodeTable κ} {node : Nat} {frame above : Frame Nat}
    (hcomplete : table.Complete) (hframe : table.LinksFrame node frame)
    (habove : table.LinksFrame frame.count above)
    (hsize : frame.count < symbolCount ∧ above.count < symbolCount
      ∧ node < 2 * symbolCount ∧ above.sibling.count < 2 * symbolCount)
    (hne : frame.count ≠ above.count ∧ node ≠ frame.sibling.count
      ∧ frame.count ≠ above.sibling.count) :
    ∃ swapped, table.exchange node frame.count above.sibling.count above.count
        = some (swapped, frame.sibling.count)
      ∧ Exchanged table swapped node frame above := by
  obtain ⟨hleft, hright, hparent, hcount⟩ := hcomplete
  obtain ⟨hp, hg, ha, hu⟩ := hsize
  obtain ⟨hpg, hao, hpu⟩ := hne
  have hgl : above.count < table.left.size := hleft ▸ hg
  have hgr : above.count < table.right.size := hright ▸ hg
  rw [exchange, replaceBeside_eq habove.left ⟨hgl, hgr⟩ hpu]
  have hleft1 := getElem?_ite_setIfInBounds hgl node above.isRight
  have hright1 := getElem?_ite_setIfInBounds hgr node (!above.isRight)
  have hsize1 := size_ite_setIfInBounds table.left above.count node above.isRight
  have hsize2 := size_ite_setIfInBounds table.right above.count node (!above.isRight)
  generalize (if above.isRight then table.left.setIfInBounds above.count node
    else table.left) = left1 at hleft1 hsize1 ⊢
  generalize (if !above.isRight then table.right.setIfInBounds above.count node
    else table.right) = right1 at hright1 hsize2 ⊢
  have hpl : frame.count < left1.size := by omega
  have hpr : frame.count < right1.size := by omega
  have hfl : left1[frame.count]? = _ := (hleft1 frame.count).trans (by
    rw [if_neg fun h => hpg h.1, hframe.left])
  have hfr : right1[frame.count]? = _ := (hright1 frame.count).trans (by
    rw [if_neg fun h => hpg h.1, hframe.right])
  rw [Option.bind_eq_bind, Option.bind_some, replaceChild_eq hfl hfr ⟨hpl, hpr⟩ hao]
  have hua : above.sibling.count < table.parent.size := hparent ▸ hu
  have hna : node < (table.parent.setIfInBounds above.sibling.count frame.count).size := by
    rw [Array.size_setIfInBounds]
    omega
  simp only [Option.bind_eq_bind, Option.bind_some, Option.pure_def, replace?_eq hua,
    replace?_eq hna]
  refine ⟨_, rfl, ⟨?_, ?_, ?_, hcount⟩, rfl, ?_, ?_, ?_⟩
  · exact (size_ite_setIfInBounds _ _ _ _).trans (hsize1.trans hleft)
  · exact (size_ite_setIfInBounds _ _ _ _).trans (hsize2.trans hright)
  · exact Array.size_setIfInBounds.trans (Array.size_setIfInBounds.trans hparent)
  · intro n
    rw [← hleft1]
    exact getElem?_ite_setIfInBounds hpl _ _ n
  · intro n
    rw [← hright1]
    exact getElem?_ite_setIfInBounds hpr _ _ n
  · intro n
    dsimp only
    rw [getElem?_setIfInBounds_eq hna, getElem?_setIfInBounds_eq hua]

namespace Exchanged

variable {table swapped : NodeTable κ} {node : Nat} {frame above : Frame Nat}

theorem children_eq (h : Exchanged table swapped node frame above) {n : Nat} (hn : n ≠ frame.count)
    (hn' : n ≠ above.count) :
    swapped.left[n]? = table.left[n]? ∧ swapped.right[n]? = table.right[n]? := by
  rw [h.left, h.right, if_neg fun heq => hn heq.1, if_neg fun heq => hn' heq.1,
    if_neg fun heq => hn heq.1, if_neg fun heq => hn' heq.1]
  exact ⟨rfl, rfl⟩

theorem parent_eq (h : Exchanged table swapped node frame above) {n : Nat} (hn : n ≠ node)
    (hn' : n ≠ above.sibling.count) : swapped.parent[n]? = table.parent[n]? := by
  rw [h.parent, if_neg hn, if_neg hn']

/-- The uncle has come to the place of the node. -/
theorem linksFrame (h : Exchanged table swapped node frame above)
    (hframe : table.LinksFrame node frame) (hcounts : frame.count ≠ above.count)
    (huncle : above.sibling.count ≠ node)
    (hsibling : frame.sibling.count ≠ node ∧ frame.sibling.count ≠ above.sibling.count)
    (hbelow : swapped.Links frame.sibling) : swapped.LinksFrame above.sibling.count frame := by
  refine ⟨?_, (h.parent_eq hsibling.1 hsibling.2).trans hframe.siblingParent, ?_, ?_, hbelow⟩
  · rw [h.parent, if_neg huncle, if_pos rfl]
  · rw [h.left, if_neg fun heq : frame.count = above.count ∧ _ => hcounts heq.1, hframe.left]
    cases frame.isRight <;> simp
  · rw [h.right, if_neg fun heq : frame.count = above.count ∧ _ => hcounts heq.1, hframe.right]
    cases frame.isRight <;> simp

/-- The node has come to the place of its uncle. -/
theorem linksFrame_above {node : Tree Nat} (h : Exchanged table swapped node.count frame above)
    (habove : table.LinksFrame frame.count above) (hcounts : above.count ≠ frame.count)
    (hparent : frame.count ≠ node.count ∧ frame.count ≠ above.sibling.count)
    (hbelow : swapped.Links node) :
    swapped.LinksFrame frame.count { above with sibling := node } := by
  refine ⟨(h.parent_eq hparent.1 hparent.2).trans habove.parent, ?_, ?_, ?_, hbelow⟩
  · rw [h.parent, if_pos rfl]
  · dsimp only
    rw [h.left, if_neg fun heq => hcounts heq.1, habove.left]
    cases above.isRight <;> simp
  · dsimp only
    rw [h.right, if_neg fun heq => hcounts heq.1, habove.right]
    cases above.isRight <;> simp

end Exchanged

/-- After an exchange the rows describe the tree in which the node and its uncle have changed places.
The node, its parent, their siblings and the grandparent are five different nodes. -/
theorem exchange_links {table : NodeTable κ} {node : Tree Nat} {frame above : Frame Nat}
    {path : List (Frame Nat)} (hcomplete : table.Complete) (hlinks : table.Links node)
    (hpath : table.LinksPath node.count (frame :: above :: path))
    (hnodup : (node.labels ++ (frame :: above :: path).flatMap Frame.labels).Nodup)
    (hinner : frame.count < symbolCount ∧ above.count < symbolCount)
    (hrow : ∀ n ∈ node.labels ++ (frame :: above :: path).flatMap Frame.labels,
      n < 2 * symbolCount) :
    ∃ swapped : NodeTable κ,
      table.exchange node.count frame.count above.sibling.count above.count
          = some (swapped, frame.sibling.count)
      ∧ swapped.Complete ∧ swapped.count = table.count
      ∧ swapped.Links above.sibling
      ∧ swapped.LinksPath above.sibling.count (frame :: { above with sibling := node } :: path) := by
  obtain ⟨hframe, habove, hrest⟩ := hpath
  simp only [List.flatMap_cons, Frame.labels, List.cons_append, List.nodup_append',
    List.nodup_cons, List.mem_append, List.mem_cons, not_or, List.Disjoint] at hnodup hrow
  have hx := node.count_mem_labels
  have hs := frame.sibling.count_mem_labels
  have hu := above.sibling.count_mem_labels
  obtain ⟨hxs, ⟨⟨hps, hpg, hpu, hpr⟩, hss, ⟨⟨hgu, hgr⟩, hus, hrs, hur⟩, hsd⟩, hxd⟩ := hnodup
  have hao : node.count ≠ frame.sibling.count := fun heq => hxd hx (Or.inr (Or.inl (heq ▸ hs)))
  have hpa : frame.count ≠ node.count := fun heq => hxd hx (Or.inl heq.symm)
  have hpu' : frame.count ≠ above.sibling.count := fun heq => hpu (heq ▸ hu)
  have hua : above.sibling.count ≠ node.count := fun heq =>
    hxd hx (Or.inr (Or.inr (Or.inr (Or.inl (heq ▸ hu)))))
  have hou : frame.sibling.count ≠ above.sibling.count := fun heq =>
    hsd hs (Or.inr (Or.inl (heq ▸ hu)))
  obtain ⟨swapped, hresult, hswapped⟩ := exists_exchange_eq hcomplete hframe habove
    ⟨hinner.1, hinner.2, hrow _ (Or.inl hx),
      hrow _ (Or.inr (Or.inr (Or.inr (Or.inr (Or.inl hu)))))⟩ ⟨hpg, hao, hpu'⟩
  have hnode : swapped.Links node := by
    refine hlinks.congr hxs (fun n hn => hswapped.children_eq ?_ ?_)
      (fun n hn hne => hswapped.parent_eq hne ?_)
    · exact fun heq => hxd hn (Or.inl heq)
    · exact fun heq => hxd hn (Or.inr (Or.inr (Or.inl heq)))
    · exact fun heq => hxd hn (Or.inr (Or.inr (Or.inr (Or.inl (heq ▸ hu)))))
  have hsibling : swapped.Links frame.sibling := by
    refine hframe.sibling.congr hss (fun n hn => hswapped.children_eq ?_ ?_)
      (fun n hn _ => hswapped.parent_eq ?_ ?_)
    · exact fun heq => hps (heq ▸ hn)
    · exact fun heq => hsd hn (Or.inl heq)
    · exact fun heq => hxd hx (Or.inr (Or.inl (heq ▸ hn)))
    · exact fun heq => hsd hn (Or.inr (Or.inl (heq ▸ hu)))
  have huncle : swapped.Links above.sibling := by
    refine habove.sibling.congr hus (fun n hn => hswapped.children_eq ?_ ?_)
      (fun n hn => hswapped.parent_eq ?_)
    · exact fun heq => hpu (heq ▸ hn)
    · exact fun heq => hgu (heq ▸ hn)
    · exact fun heq => hxd hx (Or.inr (Or.inr (Or.inr (Or.inl (heq ▸ hn)))))
  have htop : swapped.LinksPath above.count path := by
    refine hrest.congr hrs (hswapped.parent_eq ?_ ?_)
      (fun n hn => ⟨hswapped.children_eq ?_ ?_, hswapped.parent_eq ?_ ?_⟩)
    · exact fun heq => hxd hx (Or.inr (Or.inr (Or.inl heq.symm)))
    · exact fun heq => hgu (heq ▸ hu)
    · exact fun heq => hpr (heq ▸ hn)
    · exact fun heq => hgr (heq ▸ hn)
    · exact fun heq => hxd hx (Or.inr (Or.inr (Or.inr (Or.inr (heq ▸ hn)))))
    · exact fun heq => hur hu (heq ▸ hn)
  exact ⟨swapped, hresult, hswapped.complete, hswapped.count, huncle,
    hswapped.linksFrame hframe hpg hua ⟨hao.symm, hou⟩ hsibling,
    hswapped.linksFrame_above habove (Ne.symm hpg) ⟨hpa, hpu'⟩ hnode, htop⟩

end AdLibModule.Sixpack.NodeTable
