import AdLibModule.Layout
import AdLibModule.Proofs.Sixpack.Accepted
import AdLibModule.Proofs.Sixpack.Weight

/-! Why 16 bits are enough. Each symbol that is observed writes a byte or more, so that within a limit
for the output the symbols cannot weigh more than the limit and the size of the alphabet together. As
long as that is less than a counter holds, every sum is exact, and to count with 16 bits is to count
without a bound: the same exchanges are made, and the same bits say the same tokens. -/

namespace AdLibModule.Sixpack

/-! ### Exact sums -/

section Exact

theorem toNat_add {a b : UInt16} (h : Counter.toNat a + Counter.toNat b ≤ 65535) :
    Counter.toNat (Counter.add a b) = Counter.toNat a + Counter.toNat b := by
  have hlt : a.toNat + b.toNat < 65536 := Nat.lt_succ_of_le h
  show (a + b).toNat = a.toNat + b.toNat
  rw [UInt16.toNat_add, Nat.mod_eq_of_lt hlt]

theorem Frame.count_sibling_relabel {κ ℓ : Type} (f : κ → ℓ) (frame : Frame κ) :
    (frame.relabel f).sibling.count = f frame.sibling.count :=
  frame.sibling.count_relabel f

theorem Tree.halve_relabel_toNat (tree : Tree UInt16) :
    tree.halve.relabel Counter.toNat = (tree.relabel Counter.toNat).halve := by
  rw [halve_eq_relabel, halve_eq_relabel, relabel_relabel, relabel_relabel]
  exact relabel_congr fun count _ => toNat_halved count

theorem Frame.halve_relabel_toNat (frame : Frame UInt16) :
    frame.halve.relabel Counter.toNat = (frame.relabel Counter.toNat).halve := by
  rw [halve_eq_relabel, halve_eq_relabel, relabel_relabel, relabel_relabel]
  exact relabel_congr fun count _ => toNat_halved count

theorem recount_relabel_toNat {count : UInt16} {path : List (Frame UInt16)}
    (h : ∀ sum ∈ recountSums count path, sum ≤ 65535) :
    (recount count path).map (Frame.relabel Counter.toNat)
      = recount (Counter.toNat count) (path.map (Frame.relabel Counter.toNat)) := by
  induction path generalizing count with
  | nil => rfl
  | cons frame path ih =>
      obtain ⟨hsum, hrest⟩ := List.forall_mem_cons.mp h
      have hadd := toNat_add hsum
      rw [recount, List.map_cons, List.map_cons, recount, ih hrest, Frame.count_sibling_relabel, hadd]
      rw [Frame.relabel, hadd]
      rfl

theorem refresh_relabel_toNat {node : Tree UInt16} {path : List (Frame UInt16)}
    (h : ∀ sum ∈ recountSums node.count path, sum ≤ 65535) :
    refresh (node.relabel Counter.toNat) (path.map (Frame.relabel Counter.toNat))
      = ((refresh node path).1.relabel Counter.toNat,
        (refresh node path).2.map (Frame.relabel Counter.toNat)) := by
  have hroot : ((recount node.count path).map (Frame.relabel Counter.toNat)).getLast?.any
      (Counter.toNat ·.count == countLimit)
        = (recount node.count path).getLast?.any (Counter.toNat ·.count == countLimit) := by
    rw [List.getLast?_map, Option.any_map]
    rfl
  unfold refresh
  dsimp only
  rw [Tree.count_relabel, ← recount_relabel_toNat h, hroot]
  split
  · rw [Tree.halve_relabel_toNat, List.map_map, List.map_map]
    congr 1
    exact List.map_congr_left fun frame _ => frame.halve_relabel_toNat.symm
  · rfl

/-- Nodes that climb by exact counts make the same exchanges. -/
theorem climb_relabel_toNat {steps : Nat} {node : Tree UInt16} {path : List (Frame UInt16)}
    (h : ∀ sum ∈ climbSums steps node path, sum ≤ 65535) :
    (climb steps node path).relabel Counter.toNat
      = climb steps (node.relabel Counter.toNat) (path.map (Frame.relabel Counter.toNat)) := by
  fun_induction climb steps node path with
  | case1 steps node frame above path uncle hlt sum refreshed ih =>
      rw [climbSums, if_pos hlt] at h
      obtain ⟨hsum, hrest⟩ := List.forall_mem_cons.mp h
      obtain ⟨hrecount, hclimb⟩ := List.forall_mem_append.mp hrest
      have hadd : Counter.toNat sum
          = Counter.add (Counter.toNat uncle.count) (Counter.toNat frame.sibling.count) :=
        toNat_add hsum
      have hcount : (({ frame with count := sum } : Frame UInt16).fill uncle).count = sum :=
        Tree.count_fill _ _
      have hrefresh : refresh (Tree.relabel Counter.toNat _) (List.map (Frame.relabel Counter.toNat) _)
          = (refreshed.1.relabel Counter.toNat, refreshed.2.map (Frame.relabel Counter.toNat)) :=
        refresh_relabel_toNat (by rwa [hcount])
      rw [← Frame.fill_relabel, List.map_cons] at hrefresh
      have hlt' : Counter.toNat (Counter.toNat uncle.count)
          < Counter.toNat (Counter.toNat node.count) := hlt
      rw [List.map_cons, List.map_cons, climb, Frame.count_sibling_relabel,
        Frame.count_sibling_relabel, Tree.count_relabel, if_pos hlt', ← hadd, ih hclimb]
      exact congrArg (fun next => climb steps next.1 next.2) hrefresh.symm
  | case2 steps node frame above path uncle hlt ih =>
      rw [climbSums, if_neg hlt] at h
      have hlt' : ¬ Counter.toNat (Counter.toNat uncle.count)
          < Counter.toNat (Counter.toNat node.count) := hlt
      rw [List.map_cons, List.map_cons, climb, Frame.count_sibling_relabel, Tree.count_relabel,
        if_neg hlt', ih h, List.map_cons, Frame.fill_relabel]
  | case3 steps node path hshort =>
      rw [← plug_relabel]
      rcases path with - | ⟨frame, - | ⟨above, path⟩⟩
      · cases steps <;> rfl
      · cases steps <;> rfl
      · cases steps with
        | zero => rfl
        | succ steps => exact (hshort steps frame above path rfl rfl).elim

/-- To observe a symbol by exact sums is to observe it with unbounded counters. -/
theorem Location.observe_relabel_toNat {location : Location UInt16}
    (h : ∀ sum ∈ location.sums, sum ≤ 65535) :
    location.observe.relabel Counter.toNat = (location.relabel Counter.toNat).observe := by
  obtain ⟨symbol, count, path⟩ := location
  obtain ⟨hraise, hrest⟩ := List.forall_mem_cons.mp h
  have hraised : Counter.toNat (Counter.add count (Counter.ofNat 1))
      = Counter.add (Counter.toNat count) (Counter.ofNat 1) := toNat_add hraise
  have hleaf : (Tree.leaf symbol (Counter.add count (Counter.ofNat 1))).relabel Counter.toNat
      = Tree.leaf symbol (Counter.add (Counter.toNat count) (Counter.ofNat 1)) :=
    congrArg (Tree.leaf symbol) hraised
  rcases path with - | ⟨frame, - | ⟨above, rest⟩⟩
  · exact hleaf
  · rw [observe, observe, relabel, ← Frame.fill_relabel, hleaf]
    rfl
  · obtain ⟨hrecount, hclimb⟩ := List.forall_mem_append.mp hrest
    have hrefresh := @refresh_relabel_toNat (.leaf symbol (Counter.add count (Counter.ofNat 1)))
      (frame :: above :: rest) hrecount
    rw [hleaf] at hrefresh
    have hlength : ((frame :: above :: rest).map (Frame.relabel Counter.toNat)).length
      = (frame :: above :: rest).length := List.length_map _
    refine (climb_relabel_toNat hclimb).trans ?_
    show _ = climb ((frame :: above :: rest).map (Frame.relabel Counter.toNat)).length
      (refresh (.leaf symbol (Counter.add (Counter.toNat count) (Counter.ofNat 1)))
        ((frame :: above :: rest).map (Frame.relabel Counter.toNat))).1
      (refresh (.leaf symbol (Counter.add (Counter.toNat count) (Counter.ofNat 1)))
        ((frame :: above :: rest).map (Frame.relabel Counter.toNat))).2
    rw [hlength, hrefresh]

theorem Tree.heap_relabel_toNat (depth i : Nat) :
    (heap depth i : Tree UInt16).relabel Counter.toNat = heap depth i := by
  induction depth generalizing i with
  | zero => rfl
  | succ depth ih =>
      rw [heap, heap]
      split
      · rw [relabel, ih, ih]
        rfl
      · rfl

theorem Tree.initial_relabel_toNat : (initial : Tree UInt16).relabel Counter.toNat = initial := by
  rw [initial, relabel, heap_relabel_toNat, heap_relabel_toNat]
  rfl

end Exact

/-! ### Reading with other counters -/

theorem Tree.descend_relabel {κ ℓ : Type} (f : κ → ℓ) (tree : Tree κ) (path : List (Frame κ))
    (stream : BitStream) :
    (tree.relabel f).descend (path.map (Frame.relabel f)) stream
      = (tree.descend path stream).map (Prod.map (Location.relabel f) id) := by
  induction tree generalizing path stream with
  | leaf symbol count => rfl
  | fork count left right ihl ihr =>
      rw [relabel, descend, descend]
      simp only [bind, StateT.bind, Except.bind]
      cases readBit stream with
      | error fault => rfl
      | ok next =>
          obtain ⟨bit, between⟩ := next
          cases bit with
          | false => exact ihl (⟨false, count, right⟩ :: path) between
          | true => exact ihr (⟨true, count, left⟩ :: path) between

/-- Where the observed symbol forms no sum beyond a counter, the token is read alike. -/
theorem readToken_relabel_toNat {tree : Tree UInt16} {stream : BitStream}
    (h : ∀ location left, tree.descend [] stream = .ok (location, left) →
      ∀ sum ∈ location.sums, sum ≤ 65535) :
    readToken (tree.relabel Counter.toNat) stream
      = (readToken tree stream).map (Prod.map (Prod.map id (Tree.relabel Counter.toNat)) id) := by
  have hdescend := tree.descend_relabel Counter.toNat [] stream
  rw [List.map_nil] at hdescend
  rw [readToken, readToken]
  simp only [bind, StateT.bind, Except.bind, hdescend]
  cases hwalk : tree.descend [] stream with
  | error fault => rfl
  | ok next =>
      obtain ⟨location, left⟩ := next
      have hobserve := location.observe_relabel_toNat (h location left hwalk)
      simp only [Except.map, Prod.map, id]
      rw [← hobserve]
      have hsymbol : (location.relabel Counter.toNat).symbol = location.symbol := rfl
      rw [hsymbol]
      cases location.symbol.meaning with
      | literal value => rfl
      | stop => rfl
      | copy range lengthIndex =>
          simp only [StateT.bind, bind, Except.bind]
          cases readNumber range.width left with
          | error fault => rfl
          | ok next => rfl

/-! ### Runs -/

/-- Where the decoder is between two tokens. -/
structure Config (κ : Type) where
  tree : Tree κ
  out : Array UInt8
  stream : BitStream
  /-- The tokens that were read. -/
  tokens : List Token

namespace Config

/-- The symbols that were observed. -/
def symbols {κ : Type} (config : Config κ) : List Symbol := config.tokens.map Token.symbol

section Step

variable {κ : Type} [Counter κ]

/-- Before the first token of the source. -/
def start (source : Array UInt8) : Config κ := ⟨Tree.initial, #[], BitStream.start source, []⟩

/-- What the decoder returns from here. -/
def result (limit : Nat) (config : Config κ) : Except DecodeError (Array UInt8 × BitStream) :=
  decodeFrom limit config.tree config.out config.stream

/-- One token is read and carried out. -/
inductive Step (limit : Nat) : Config κ → Config κ → Prop
  | token {tree next : Tree κ} {out grown : Array UInt8} {stream left : BitStream}
      {tokens : List Token} {token : Token}
      (hread : readToken tree stream = .ok ((some token, next), left))
      (happend : token.append limit out = .ok grown) :
      Step limit ⟨tree, out, stream, tokens⟩ ⟨next, grown, left, tokens ++ [token]⟩

/-- The states between two tokens that a run comes through. -/
def Reachable (limit : Nat) (source : Array UInt8) (config : Config κ) : Prop :=
  Relation.ReflTransGen (Step limit) (start source) config

theorem Step.result_eq {limit : Nat} {before after : Config κ} (h : Step limit before after) :
    before.result limit = after.result limit := by
  cases h with
  | token hread happend => exact decodeFrom_eq_of_append hread happend

/-- A run returns what it returns from any state that it comes through. -/
theorem Reachable.result_eq {limit : Nat} {source : Array UInt8} {config : Config κ}
    (h : config.Reachable limit source) : decodeWith κ source limit = config.result limit := by
  induction h with
  | refl => rfl
  | tail _ hstep ih => exact ih.trans hstep.result_eq

end Step

/-- What is so between any two tokens. -/
structure Counted (limit : Nat) (config : Config UInt16) : Prop where
  tree_eq : config.tree = config.symbols.foldl Tree.observe Tree.initial
  length_le : config.tokens.length ≤ config.out.size
  size_le : config.out.size ≤ limit

theorem counted_start (limit : Nat) (source : Array UInt8) : Counted limit (start source) where
  tree_eq := rfl
  length_le := Nat.le_refl 0
  size_le := Nat.zero_le limit

namespace Counted

variable {limit : Nat} {config : Config UInt16}

theorem nodup_symbols (h : Counted limit config) : config.tree.symbols.Nodup := by
  rw [h.tree_eq]
  exact Tree.nodup_symbols_foldl_observe config.symbols

theorem step {before after : Config UInt16} (h : Counted limit before)
    (hstep : Step limit before after) : Counted limit after := by
  cases hstep with
  | token hread happend =>
      obtain ⟨hgrow, hroom⟩ := Token.size_of_append happend
      obtain ⟨hnext, -⟩ := wordBits_of_readToken_eq_some h.nodup_symbols hread
      refine ⟨?_, ?_, hroom⟩
      · dsimp only [symbols]
        rw [hnext, h.tree_eq, List.map_append, List.foldl_append]
        rfl
      · dsimp only
        rw [List.length_append]
        exact Nat.le_trans (Nat.succ_le_succ h.length_le) hgrow

theorem of_reachable {source : Array UInt8} (h : config.Reachable limit source) :
    Counted limit config := by
  induction h with
  | refl => exact counted_start limit source
  | tail _ hstep ih => exact ih.step hstep

theorem within (h : Counted limit config) : config.tree.Within (weightAfter config.symbols) := by
  rw [h.tree_eq]
  exact Tree.within_foldl_observe config.symbols

/-- The next symbol is observed within the weights, and without a sum that a counter cannot hold. -/
theorem within_observe (h : Counted limit config) (hlimit : limit ≤ 63759)
    {location : Location UInt16} {left : BitStream}
    (hdescend : config.tree.descend [] config.stream = .ok (location, left)) :
    location.observe.Within (weightAfter (config.symbols ++ [location.symbol]))
      ∧ ∀ sum ∈ location.sums, sum ≤ 65535 := by
  obtain ⟨hlocate, -⟩ := locate_of_descend h.nodup_symbols hdescend
  obtain ⟨hobserve, hsums⟩ := h.within.observe_locate hlocate
  refine ⟨hobserve, fun sum hsum => ?_⟩
  have hlength := h.length_le
  have hsize := h.size_le
  calc sum
      ≤ config.tree.totalWeight (weightAfter (config.symbols ++ [location.symbol])) := hsums sum hsum
    _ ≤ symbolCount + (config.symbols ++ [location.symbol]).length :=
        totalWeight_weightAfter_le h.nodup_symbols _
    _ ≤ 65535 := by
        rw [List.length_append, symbols, List.length_map, List.length_singleton]
        simp only [symbolCount]
        omega

/-- The next token is read alike with unbounded counters. -/
theorem readToken_relabel (h : Counted limit config) (hlimit : limit ≤ 63759)
    {result : Except StreamFault ((Option Token × Tree UInt16) × BitStream)}
    (hread : readToken config.tree config.stream = result) :
    readToken (config.tree.relabel Counter.toNat) config.stream
      = result.map (Prod.map (Prod.map id (Tree.relabel Counter.toNat)) id) := by
  rw [← hread]
  exact readToken_relabel_toNat fun _ _ hdescend => (h.within_observe hlimit hdescend).2

end Counted
end Config

/-- From here on, unbounded counters give the same result. -/
theorem decodeFrom_relabel_toNat {limit : Nat} (hlimit : limit ≤ 63759) {tree : Tree UInt16}
    {out : Array UInt8} {stream : BitStream} {tokens : List Token}
    (h : Config.Counted limit ⟨tree, out, stream, tokens⟩) :
    decodeFrom limit (tree.relabel Counter.toNat) out stream = decodeFrom limit tree out stream := by
  fun_induction decodeFrom limit tree out stream generalizing tokens with
  | case1 tree out stream fault hread =>
      rw [decodeFrom, h.readToken_relabel hlimit hread]
      rfl
  | case2 tree out stream next left hread =>
      rw [decodeFrom, h.readToken_relabel hlimit hread]
      rfl
  | case3 tree out stream token next left hread error happend =>
      rw [decodeFrom, h.readToken_relabel hlimit hread]
      dsimp only [Except.map, Prod.map, id]
      rw [happend]
  | case4 tree out stream token next left hread grown happend ih =>
      rw [decodeFrom_eq_of_append (h.readToken_relabel hlimit hread) happend]
      exact ih (h.step (.token hread happend))

theorem blockSize_le_of_sixpack {version : Version} {container : Container} {kind : BlockKind}
    (hpacking : version.compression = .sixpack) (hkind : kind ∈ version.layout container) :
    version.blockSize kind ≤ 36864 := by
  have hversion : version = .v1 ∨ version = .v5 := by
    cases version <;> first | decide | cases hpacking
  have hall : ∀ kind ∈ version.layout container, version.blockSize kind ≤ 36864 := by
    rcases hversion with rfl | rfl <;> cases container <;> decide
  exact hall kind hkind

/-- Within a limit of 63759 bytes, which all packed blocks keep, counters of 16 bits count exactly. In
every state that a run comes through, no count exceeds the weight of the symbols below it, and none of
the sums by which the next symbol is observed exceeds what a counter holds. So the result, be it an
output or an error, is that of unbounded counters. -/
theorem decode_counts_exactly {limit : Nat} (hlimit : limit ≤ 63759) (source : Array UInt8) :
    (∀ config : Config UInt16, config.Reachable limit source →
      decodeWith UInt16 source limit = config.result limit
      ∧ config.tree.Within (weightAfter config.symbols)
      ∧ ∀ (location : Location UInt16) (left : BitStream),
        config.tree.descend [] config.stream = .ok (location, left) →
        location.observe.Within (weightAfter (config.symbols ++ [location.symbol]))
        ∧ ∀ sum ∈ location.sums, sum ≤ 65535)
    ∧ decode source limit = (decodeWith Nat source limit).map Prod.fst
    ∧ ∀ (version : Version) (container : Container) (kind : BlockKind),
      version.compression = .sixpack → kind ∈ version.layout container →
      version.blockSize kind ≤ 36864 := by
  refine ⟨fun config hreachable => ?_, ?_, fun version container kind => blockSize_le_of_sixpack⟩
  · have hcounted := Config.Counted.of_reachable hreachable
    exact ⟨hreachable.result_eq, hcounted.within,
      fun location left hdescend => hcounted.within_observe hlimit hdescend⟩
  · have hexact := decodeFrom_relabel_toNat hlimit (Config.counted_start limit source)
    rw [Tree.initial_relabel_toNat] at hexact
    rw [decode, decodeWith, decodeWith, hexact]

theorem decode_counts_exactly_abcabc :
    decode #[35, 212, 112, 231, 125, 10, 81] 36864 = .ok #[97, 98, 99, 97, 98, 99]
    ∧ (decodeWith Nat #[35, 212, 112, 231, 125, 10, 81] 36864).map Prod.fst
      = .ok #[97, 98, 99, 97, 98, 99] := by
  have hdecode := decode_abcabc (by decide : 6 ≤ 36864)
  obtain ⟨-, hexact, -⟩ := decode_counts_exactly (by decide : 36864 ≤ 63759)
    #[35, 212, 112, 231, 125, 10, 81]
  exact ⟨hdecode, hexact.symm.trans hdecode⟩

end AdLibModule.Sixpack
