import AdLibModule.Proofs.Sixpack.Levels
import AdLibModule.Proofs.Sixpack.NodeTable

/-! How far the counts grow. Halving is tied to one count of the root, and a symbol that hangs on the
root is observed without a look at it, so that its own count grows by one each time and is never halved.
So the counts keep the limit as long as there is room on the way of every symbol that is observed: in its
own count if it hangs on the root, and else in what the root is recounted to. -/

namespace AdLibModule.Sixpack

variable {κ : Type} [Counter κ]

/-! ### Counts and observations -/

theorem Tree.Within.labels_le {weight : Symbol → Nat} {tree : Tree κ} (h : tree.Within weight) :
    ∀ count ∈ tree.labels, Counter.toNat count ≤ tree.totalWeight weight := by
  induction tree with
  | leaf symbol count =>
      intro other hother
      rw [List.mem_singleton.mp hother]
      exact h.count_le
  | fork count left right ihleft ihright =>
      obtain ⟨hcount, hleft, hright⟩ := h
      rw [totalWeight_fork]
      intro other hother
      rcases List.mem_cons.mp hother with rfl | hother
      · exact hcount
      · rcases List.mem_append.mp hother with hmem | hmem
        · exact (ihleft hleft other hmem).trans (Nat.le_add_right _ _)
        · exact (ihright hright other hmem).trans (Nat.le_add_left _ _)

/-- After each of the symbols, no count is beyond the limit at which counts are halved. -/
def KeepsLimit (symbols : List Symbol) : Prop :=
  ∀ seen, seen <+: symbols → ∀ count ∈ (seen.foldl Tree.observe Tree.initial : Tree UInt16).labels,
    Counter.toNat count ≤ countLimit

theorem toNat_le_of_mem_labels (symbols : List Symbol) :
    ∀ count ∈ (symbols.foldl Tree.observe Tree.initial : Tree UInt16).labels,
      Counter.toNat count ≤ symbolCount + symbols.length := by
  intro count hcount
  exact ((Tree.within_foldl_observe symbols).labels_le count hcount).trans
    (totalWeight_weightAfter_le (Tree.nodup_symbols_foldl_observe symbols) symbols)

theorem keepsLimit_of_length_le {symbols : List Symbol}
    (h : symbolCount + symbols.length ≤ countLimit) : KeepsLimit symbols := by
  intro seen hseen count hcount
  have hlength := hseen.length_le
  have hbound := toNat_le_of_mem_labels seen count hcount
  omega

/-! ### Room on the way -/

/-- Whenever one of the symbols is observed, there is room for it. -/
def AlwaysRoom (symbols : List Symbol) : Prop :=
  ∀ seen symbol location, seen ++ [symbol] <+: symbols →
    (seen.foldl Tree.observe Tree.initial : Tree UInt16).locate symbol [] = some location →
      location.HasRoom

theorem keepsLimit_of_alwaysRoom {symbols : List Symbol} (h : AlwaysRoom symbols) :
    KeepsLimit symbols := by
  intro seen hseen
  induction seen using List.reverseRecOn with
  | nil =>
      have hnone : KeepsLimit [] := keepsLimit_of_length_le (by decide)
      exact hnone [] (List.prefix_refl [])
  | append_singleton seen symbol ih =>
      have hmem : symbol ∈ (seen.foldl Tree.observe Tree.initial : Tree UInt16).symbols :=
        (Tree.symbols_foldl_observe seen).mem_iff.mpr (Tree.mem_symbols_initial symbol)
      obtain ⟨location, hlocate⟩ : ∃ location : Location UInt16,
          (seen.foldl Tree.observe Tree.initial).locate symbol [] = some location :=
        Option.isSome_iff_exists.mp (Tree.isSome_locate_iff.mpr hmem)
      have hplug : plug (.leaf location.symbol location.count) location.path
          = seen.foldl Tree.observe Tree.initial := (Tree.plug_of_locate_eq_some hlocate).2
      have hbefore := ih ((List.prefix_append seen [symbol]).trans hseen)
      rw [← hplug] at hbefore
      rw [List.foldl_append, List.foldl_cons, List.foldl_nil, Tree.observe, hlocate]
      exact Location.labels_observe_le hbefore (h seen symbol location hseen hlocate)

/-- While no sum can wrap round, the counts keep the limit in no other way. -/
theorem alwaysRoom_of_keepsLimit {symbols : List Symbol}
    (hlength : symbolCount + symbols.length < UInt16.size) (h : KeepsLimit symbols) :
    AlwaysRoom symbols := by
  intro seen symbol location hseen hlocate
  by_contra hfull
  have hplug : plug (.leaf location.symbol location.count) location.path
      = seen.foldl Tree.observe Tree.initial := (Tree.plug_of_locate_eq_some hlocate).2
  have hnodup : (seen.foldl Tree.observe Tree.initial : Tree UInt16).symbols.Nodup :=
    Tree.nodup_symbols_foldl_observe seen
  have hwithin := Tree.within_foldl_observe seen
  rw [← hplug] at hwithin hnodup
  have htotal := totalWeight_weightAfter_le hnodup seen
  have hshort := hseen.length_le
  rw [List.length_append, List.length_singleton] at hshort
  have hsum := Location.raisedSum_le hwithin
  obtain ⟨count, hcount, heq⟩ :=
    Location.exists_mem_labels_observe (Nat.lt_of_not_le hfull) (by omega)
  have hover := h (seen ++ [symbol]) hseen count (by
    rw [List.foldl_append, List.foldl_cons, List.foldl_nil, Tree.observe, hlocate]
    exact hcount)
  rw [heq] at hover
  exact hfull hover

/-! ### A symbol that hangs on the root -/

/-- Neither the root nor the other side takes notice of a symbol that hangs on the root. -/
theorem Frame.observe_fill {frame : Frame κ} {symbol : Symbol} {count : κ}
    (hother : symbol ∉ frame.sibling.symbols) :
    (frame.fill (.leaf symbol count)).observe symbol
      = frame.fill (.leaf symbol (Counter.add count (Counter.ofNat 1))) := by
  have hlocate : (frame.fill (.leaf symbol count)).locate symbol []
      = some ⟨symbol, count, [frame]⟩ := by
    obtain ⟨isRight, rootCount, sibling⟩ := frame
    cases isRight with
    | false =>
        rw [fill, if_neg Bool.false_ne_true, Tree.locate, Tree.locate, if_pos rfl]
        rfl
    | true =>
        have hnone : sibling.locate symbol [⟨false, rootCount, .leaf symbol count⟩] = none := by
          rw [← Option.not_isSome_iff_eq_none, Tree.isSome_locate_iff]
          exact hother
        rw [fill, if_pos rfl, Tree.locate, hnone, Tree.locate, if_pos rfl]
        rfl
  rw [Tree.observe, hlocate]
  rfl

theorem Frame.foldl_observe_fill {frame : Frame UInt16} {symbol : Symbol} {count : UInt16}
    (hother : symbol ∉ frame.sibling.symbols) (times : Nat) :
    (List.replicate times symbol).foldl Tree.observe (frame.fill (.leaf symbol count))
      = frame.fill (.leaf symbol (count + UInt16.ofNat times)) := by
  induction times generalizing count with
  | zero =>
      rw [show count + UInt16.ofNat 0 = count from UInt16.add_zero count]
      rfl
  | succ times ih =>
      have hsum : Counter.add count (Counter.ofNat 1) + UInt16.ofNat times
          = count + UInt16.ofNat (times + 1) := by
        rw [UInt16.ofNat_add, UInt16.add_comm (UInt16.ofNat times), ← UInt16.add_assoc]
        rfl
      rw [List.replicate_succ, List.foldl_cons, observe_fill hother, ih, hsum]

section Hanging

variable {symbols : List Symbol} {frame : Frame UInt16} {symbol : Symbol} {count : UInt16}

theorem toNat_add_ofNat {times : Nat} (h : Counter.toNat count + times ≤ countLimit + 1) :
    Counter.toNat (count + UInt16.ofNat times) = Counter.toNat count + times := by
  have hlimit : countLimit + 1 < UInt16.size := by decide
  have htimes : (UInt16.ofNat times).toNat = times := UInt16.toNat_ofNat_of_lt' (by omega)
  show (count + UInt16.ofNat times).toNat = count.toNat + times
  rw [UInt16.toNat_add, htimes]
  exact Nat.mod_eq_of_lt (Nat.lt_of_le_of_lt h hlimit)

theorem foldl_observe_append_replicate
    (htree : symbols.foldl Tree.observe Tree.initial = frame.fill (.leaf symbol count)) (times : Nat) :
    (symbols ++ List.replicate times symbol).foldl Tree.observe Tree.initial
      = frame.fill (.leaf symbol (count + UInt16.ofNat times)) := by
  have hother : symbol ∉ frame.sibling.symbols := by
    have hnodup : (symbols.foldl Tree.observe Tree.initial : Tree UInt16).symbols.Nodup :=
      Tree.nodup_symbols_foldl_observe symbols
    rw [htree, (frame.symbols_fill _).nodup_iff] at hnodup
    exact (List.nodup_cons.mp hnodup).1
  rw [List.foldl_append, htree, Frame.foldl_observe_fill hother]

/-- A symbol that hangs on the root keeps the limit only until its own count has come to it. -/
theorem keepsLimit_append_replicate_iff (hkeeps : KeepsLimit symbols)
    (htree : symbols.foldl Tree.observe Tree.initial = frame.fill (.leaf symbol count)) (times : Nat) :
    KeepsLimit (symbols ++ List.replicate times symbol) ↔ Counter.toNat count + times ≤ countLimit := by
  have hbefore : ∀ other ∈ (frame.fill (.leaf symbol count)).labels,
      Counter.toNat other ≤ countLimit := by
    rw [← htree]
    exact hkeeps symbols (List.prefix_refl symbols)
  have hcount : Counter.toNat count ≤ countLimit :=
    hbefore count ((frame.labels_fill _).mem_iff.mpr List.mem_cons_self)
  constructor
  · intro hall
    by_contra hbeyond
    obtain ⟨enough, henough⟩ := Nat.exists_eq_add_of_le (Nat.le_succ_of_le hcount)
    obtain ⟨more, rfl⟩ : ∃ more, times = enough + more := Nat.exists_eq_add_of_le (by omega)
    have hseen : symbols ++ List.replicate enough symbol
        <+: symbols ++ List.replicate (enough + more) symbol := by
      rw [List.replicate_add, ← List.append_assoc]
      exact List.prefix_append _ _
    have hmem : count + UInt16.ofNat enough ∈
        ((symbols ++ List.replicate enough symbol).foldl Tree.observe Tree.initial : Tree UInt16).labels := by
      rw [foldl_observe_append_replicate htree, (frame.labels_fill _).mem_iff]
      exact List.mem_cons_self
    have hover := hall _ hseen _ hmem
    rw [toNat_add_ofNat (Nat.le_of_eq henough.symm)] at hover
    omega
  · intro hfew seen hseen other hother
    by_cases hlong : symbols <+: seen
    · obtain ⟨repeated, rfl⟩ := hlong
      obtain ⟨hlength, hsame⟩ :=
        List.prefix_replicate_iff.mp ((List.prefix_append_right_inj symbols).mp hseen)
      rw [hsame, foldl_observe_append_replicate htree, (frame.labels_fill _).mem_iff] at hother
      rcases List.mem_append.mp hother with hown | hothers
      · rw [List.mem_singleton.mp hown, toNat_add_ofNat (by omega)]
        omega
      · exact hbefore other ((frame.labels_fill _).mem_iff.mpr (List.mem_append_right _ hothers))
    · have hwithin : seen <+: symbols :=
        (List.prefix_or_prefix_of_prefix hseen (List.prefix_append symbols _)).resolve_right hlong
      exact hkeeps seen hwithin other hother

end Hanging

/-- After six observations the first symbol hangs on the root. -/
theorem exists_foldl_observe_eq_fill : ∃ frame : Frame UInt16,
    (List.replicate 6 0).foldl Tree.observe Tree.initial = frame.fill (.leaf 0 7) := by
  have hsix : (((List.replicate 6 0).foldl Tree.observe Tree.initial : Tree UInt16).locate 0 []).map
      (fun location => (location.count, location.path.length)) = some (7, 1) := by decide +kernel
  obtain ⟨location, hlocate, hwhere⟩ := Option.map_eq_some_iff.mp hsix
  obtain ⟨hcount, hlength⟩ := Prod.mk.inj hwhere
  obtain ⟨frame, hpath⟩ := List.length_eq_one_iff.mp hlength
  obtain ⟨hsymbol, hplug⟩ := Tree.plug_of_locate_eq_some hlocate
  rw [hsymbol, hcount, hpath] at hplug
  exact ⟨frame, hplug.symm⟩

theorem keepsLimit_replicate_iff (times : Nat) :
    KeepsLimit (List.replicate 6 0 ++ List.replicate times 0) ↔ 7 + times ≤ countLimit := by
  obtain ⟨frame, htree⟩ := exists_foldl_observe_eq_fill
  have hkeeps : KeepsLimit (List.replicate 6 0) := keepsLimit_of_length_le (by decide)
  exact keepsLimit_append_replicate_iff hkeeps htree times

/-- When the counts keep the limit. They do while there are few symbols, and behind symbols of which
they do, a symbol that hangs on the root can be repeated just as long as its own count has room: the
root is not counted then, and nothing is halved. However often the counts are halved, they do as long as
each symbol that is observed finds room on its way; and as long as the sums of counts have room in their
words, they do not when a symbol finds none. -/
theorem keepsLimit_conditions (symbols : List Symbol) :
    (symbolCount + symbols.length ≤ countLimit → KeepsLimit symbols)
    ∧ (∀ (frame : Frame UInt16) (symbol : Symbol) (count : UInt16) (times : Nat), KeepsLimit symbols →
      symbols.foldl Tree.observe Tree.initial = frame.fill (.leaf symbol count) →
      (KeepsLimit (symbols ++ List.replicate times symbol)
        ↔ Counter.toNat count + times ≤ countLimit))
    ∧ (AlwaysRoom symbols → KeepsLimit symbols)
    ∧ (symbolCount + symbols.length < UInt16.size → KeepsLimit symbols → AlwaysRoom symbols) :=
  ⟨keepsLimit_of_length_le, fun _ _ _ times hkeeps htree =>
    keepsLimit_append_replicate_iff hkeeps htree times, keepsLimit_of_alwaysRoom,
    alwaysRoom_of_keepsLimit⟩

/-- Six observations of one symbol, each of which finds room, and what is to come of more. -/
theorem keepsLimit_six : KeepsLimit (List.replicate 6 0) ∧ AlwaysRoom (List.replicate 6 0)
    ∧ ¬ KeepsLimit (List.replicate 6 0 ++ List.replicate 1994 0) := by
  obtain ⟨hfew, hhanging, -, hroom⟩ := keepsLimit_conditions (List.replicate 6 0)
  obtain ⟨frame, htree⟩ := exists_foldl_observe_eq_fill
  have hkeeps := hfew (by decide)
  refine ⟨hkeeps, hroom (by decide) hkeeps, ?_⟩
  rw [hhanging frame 0 7 1994 hkeeps htree]
  decide

theorem not_forall_keepsLimit : ¬ ∀ symbols : List Symbol, KeepsLimit symbols := by
  intro hkeeps
  exact absurd ((keepsLimit_replicate_iff 1994).mp (hkeeps _)) (by decide)

end AdLibModule.Sixpack
