import AdLibModule.Proofs.Machine
import AdLibModule.Proofs.Sixpack.Accepted
import AdLibModule.Proofs.Sixpack.FullTree

/-! The sixpack decoder as it runs on arrays: the adaptive code is the rows of its nodes, the widths
and bases of the ranges are looked up in tables. The machine never gets stuck, and answers what the
decoder on trees answers. -/

namespace AdLibModule.Sixpack

open Checked (Follows demand)

variable {κ : Type} [Counter κ]

/-! ### Reading a directive -/

def nextBit : Checked Bool := Checked.nextBit (Checked.wordBits .sixpack)

namespace NodeTable

/-- Follows the bits from a node down to a leaf. -/
def walkDown (table : NodeTable κ) (node : Nat) : Checked Nat := do
  if node < symbolCount then
    if ← nextBit then
      table |>.walkDown (← demand table.right[node]?)
    else
      table |>.walkDown (← demand table.left[node]?)
  else
    return node
partial_fixpoint

/-- The rows once the symbol of a number has been observed; there must be one. -/
def observeNumber (table : NodeTable κ) (code : Nat) : Option (NodeTable κ) :=
  if h : code < symbolCount then table.observe ⟨code, h⟩ else none

end NodeTable

/-- A number of `width` bits, lowest bit first. -/
def nextNumber : Nat → Checked Nat
  | 0 => pure 0
  | width + 1 => do
    let bit ← nextBit
    let high ← nextNumber width
    pure (bit.toNat + 2 * high)

/-- The widths of the ranges of distances. -/
def widths : Array Nat := #[4, 6, 8, 10, 12, 14]

/-- The first distances of the ranges. -/
def bases : Array Nat := #[0, 16, 80, 336, 1360, 5456]

/-- What the symbol of a number asks for. -/
def nextDirective (code : Nat) : Checked Directive :=
  if code = 256 then
    return .stop
  else if code < 256 then
    return .put code.toUInt8
  else do
    let index ← demand (sub? code 257)
    let range := index / lengthCount
    let length ← demand (sub? (index + 3) (range * lengthCount))
    let place ← nextNumber (← demand widths[range]?)
    return .copy (place + length + (← demand bases[range]?)) length

def readDirective (table : NodeTable κ) : Checked (Directive × NodeTable κ) := do
  let code ← demand (sub? (← table.walkDown rootNumber) symbolCount)
  let table ← demand (table.observeNumber code)
  return (← nextDirective code, table)

def unpacker : Unpacker (NodeTable κ) where
  read := readDirective
  refuses distance written :=
    if written < distance then some (.distanceTooLarge distance written) else none

/-- Before the first symbol of the source. -/
def machine (source : Array UInt8) : Machine (NodeTable UInt16) :=
  ⟨NodeTable.initial, Tape.start source, #[], .reading⟩

/-! ### It is the directive that the decoder reads -/

theorem follows_nextBit : Follows Eq nextBit readBit := Checked.follows_wordBit .sixpack

theorem follows_nextNumber (width : Nat) : Follows Eq (nextNumber width) (readNumber width) := by
  induction width with
  | zero => exact Checked.follows_pure rfl
  | succ width ih =>
      rw [nextNumber, readNumber]
      apply follows_nextBit.bind
      rintro bit _ rfl
      apply ih.bind
      rintro high _ rfl
      exact Checked.follows_pure rfl

omit [Counter κ] in
/-- The walk through the rows is the walk through the tree that they describe. -/
theorem NodeTable.Links.follows_walkDown {table : NodeTable κ} {shape : Tree Nat} (f : Nat → κ)
    (hlinks : table.Links shape) (hfit : shape.NumbersFit) (path : List (Frame κ)) :
    Follows (fun node location => node = leafNumber location.symbol)
      (table.walkDown shape.count) ((shape.relabel f).descend path) := by
  induction shape generalizing path with
  | leaf symbol number =>
      obtain rfl : number = leafNumber symbol := hfit
      have hleaf : ¬ leafNumber symbol < symbolCount := Nat.not_lt.mpr (Nat.le_add_left _ _)
      rw [Tree.count, walkDown, if_neg hleaf]
      exact Checked.follows_pure rfl
  | fork number left right ihl ihr =>
      obtain ⟨hnumber, hfitl, hfitr⟩ := hfit
      obtain ⟨⟨hleft, hright⟩, -, hlinksl, hlinksr⟩ := hlinks
      rw [Tree.count, walkDown, if_pos hnumber, Tree.relabel, Tree.descend,
        Checked.demand_bind hleft, Checked.demand_bind hright]
      apply follows_nextBit.bind
      rintro bit _ rfl
      cases bit with
      | false => exact ihl hlinksl hfitl _
      | true => exact ihr hlinksr hfitr _

/-- What a token asks for. -/
def Token.directive : Option Token → Directive
  | none => .stop
  | some (.literal value) => .put value
  | some (.copy length distance _) => .copy distance length

theorem widths_eq (range : Range) : widths[range.val]? = some range.width := by
  revert range
  decide

theorem bases_eq (range : Range) : bases[range.val]? = some range.base := by
  revert range
  decide

/-- What a meaning asks for, with the place of a copy read behind it. -/
def Meaning.directive : Meaning → Checked Directive
  | literal value => pure (.put value)
  | stop => pure .stop
  | copy range lengthIndex => do
    let place ← nextNumber range.width
    pure (Token.directive (some (.ofCopy range lengthIndex place)))

/-- The tables and the arithmetic of symbols give what their meanings ask for. -/
theorem nextDirective_eq (symbol : Symbol) :
    nextDirective symbol.val = symbol.meaning.directive := by
  have hlt := symbol.isLt
  rw [nextDirective, Symbol.meaning]
  by_cases hliteral : symbol.val < 256
  · rw [if_neg (Nat.ne_of_lt hliteral), if_pos hliteral, if_pos hliteral, Meaning.directive]
  · by_cases hstop : symbol.val = 256
    · rw [if_pos hstop, if_neg hliteral, if_pos hstop, Meaning.directive]
    · have hrange : (symbol.val - 257) / lengthCount < 6 := by
        simp only [lengthCount, symbolCount] at hlt ⊢
        omega
      have hindex : sub? symbol.val 257 = some (symbol.val - 257) := if_pos (by omega)
      have hlength : sub? (symbol.val - 257 + 3) ((symbol.val - 257) / lengthCount * lengthCount)
          = some ((symbol.val - 257) % lengthCount + 3) := by
        simp only [sub?, lengthCount]
        rw [if_pos (by omega), Option.some_inj]
        omega
      rw [if_neg hstop, if_neg hliteral, if_neg hliteral, if_neg hstop, Meaning.directive,
        Checked.demand_bind hindex, Checked.demand_bind hlength,
        Checked.demand_bind (widths_eq ⟨_, hrange⟩)]
      congr 1
      funext place
      rw [Checked.demand_bind (bases_eq ⟨_, hrange⟩), Token.ofCopy, Token.directive]

theorem NodeTable.StandsFor.nodup_symbols {table : NodeTable κ} {tree : Tree κ}
    (h : table.StandsFor tree) : tree.symbols.Nodup := by
  obtain ⟨shape, hdescribes, rfl⟩ := h
  rw [Tree.symbols_relabel]
  exact hdescribes.numbered.nodup_symbols

theorem follows_readDirective {table : NodeTable κ} {tree : Tree κ} (h : table.StandsFor tree) :
    Follows (fun got told => got.1 = Token.directive told.1 ∧ got.2.StandsFor told.2)
      (readDirective table) (readToken tree) := by
  have hnodup := h.nodup_symbols
  obtain ⟨shape, hdescribes, rfl⟩ := h
  have hwalk := (hdescribes.links.follows_walkDown (NodeTable.countIn table.count)
    hdescribes.numbered.fit []).and fun _ _ _ hdescend => (wordBits_of_descend hnodup hdescend).2
  rw [hdescribes.numbered.count_eq] at hwalk
  apply hwalk.bind
  rintro node location ⟨rfl, hobserve⟩
  have hcode : sub? (leafNumber location.symbol) symbolCount = some location.symbol.val := by
    rw [sub?, leafNumber, if_pos (Nat.le_add_left _ _), Nat.add_sub_cancel]
  obtain ⟨observed, shape', hobserved, hdescribed, htree⟩ := hdescribes.observe location.symbol
  have hnumber : table.observeNumber location.symbol.val = some observed :=
    (dif_pos location.symbol.isLt).trans hobserved
  have hstands : observed.StandsFor location.observe :=
    ⟨shape', hdescribed, htree.trans hobserve.symm⟩
  rw [Checked.demand_bind hcode, Checked.demand_bind hnumber, nextDirective_eq]
  cases location.symbol.meaning with
  | literal value => exact Checked.follows_pure ⟨rfl, hstands⟩
  | stop => exact Checked.follows_pure ⟨rfl, hstands⟩
  | copy range lengthIndex =>
      rw [Meaning.directive, bind_assoc]
      apply (follows_nextNumber range.width).bind
      rintro place _ rfl
      exact Checked.follows_pure ⟨rfl, hstands⟩

theorem exists_readDirective_eq {table : NodeTable κ} {tree : Tree κ} {tape : Tape}
    {told : Option Token × Tree κ} {left : BitStream} (h : table.StandsFor tree)
    (hread : readToken tree tape.stream = .ok (told, left)) :
    ∃ observed behind, readDirective table tape
        = some (.ok ((Token.directive told.1, observed), behind))
      ∧ observed.StandsFor told.2 ∧ behind.stream = left := by
  have hends := follows_readDirective h tape
  rw [hread] at hends
  obtain ⟨⟨directive, observed⟩, behind, hdirective, ⟨rfl, hobserved⟩, hleft⟩ := hends.exists_of_ok
  exact ⟨observed, behind, hdirective, hobserved, hleft⟩

/-! ### The run -/

theorem perform_directive (limit : Nat) (out : Array UInt8) (token : Token) :
    (unpacker : Unpacker (NodeTable κ)).perform limit out (Token.directive (some token))
      = token.append limit out := by
  cases token with
  | literal value => rfl
  | copy length distance three_le =>
      rw [Token.directive, Unpacker.perform, Token.append, unpacker]
      dsimp only
      by_cases hfar : out.size < distance
      · rw [if_pos hfar, if_pos hfar]
      · rw [if_neg hfar, if_neg hfar]

/-- Where the rows stand for the code, the machine runs to what the decoder answers. -/
theorem runsTo_decodeFrom {limit : Nat} {tree : Tree κ} {out : Array UInt8} {stream : BitStream} :
    ∀ {table : NodeTable κ} {tape : Tape}, table.StandsFor tree → tape.stream = stream →
      out.size ≤ limit →
      unpacker.RunsTo limit ((decodeFrom limit tree out stream).map Prod.fst)
        ⟨table, tape, out, .reading⟩ := by
  fun_induction decodeFrom limit tree out stream with
  | case1 tree out stream fault hread =>
      rintro table tape hstands rfl hroom
      have hends := follows_readDirective hstands tape
      rw [hread] at hends
      exact Unpacker.runsTo_of_fault hroom hends.eq_of_error
  | case2 tree out stream next left hread =>
      rintro table tape hstands rfl hroom
      obtain ⟨observed, behind, hdirective, -⟩ := exists_readDirective_eq hstands hread
      exact Unpacker.runsTo_of_stop hroom hdirective
  | case3 tree out stream token next left hread error happend =>
      rintro table tape hstands rfl hroom
      obtain ⟨observed, behind, hdirective, -⟩ := exists_readDirective_eq hstands hread
      exact Unpacker.runsTo_of_perform_eq_error hroom hdirective
        ((perform_directive _ _ _).trans happend)
  | case4 tree out stream token next left hread grown happend ih =>
      rintro table tape hstands rfl hroom
      obtain ⟨observed, behind, hdirective, hobserved, hleft⟩ := exists_readDirective_eq hstands hread
      have hgrown := (Token.size_of_append happend).2
      refine Unpacker.runsTo_of_perform hroom ?_ hdirective
        ((perform_directive _ _ _).trans happend) ?_ (ih hobserved hleft hgrown)
      · cases token <;> exact Directive.noConfusion
      · intro distance length hdirective _
        have hfits := (wordBits_of_readToken_eq_some hstands.nodup_symbols hread).2.2 _ _ _ happend
        cases token with
        | literal value => cases hdirective
        | copy length distance three_le =>
            cases hdirective
            obtain ⟨-, hapart, -, hback⟩ := hfits
            exact ⟨by omega, hback⟩

theorem runsTo_decode (source : Array UInt8) (limit : Nat) :
    unpacker.RunsTo limit (decode source limit) (machine source) := by
  have hstands : (NodeTable.initial : NodeTable UInt16).StandsFor Tree.initial :=
    ⟨Tree.initialShape, NodeTable.describes_initial, NodeTable.relabel_initialShape⟩
  exact runsTo_decodeFrom hstands (Tape.stream_start source) (Nat.zero_le limit)

end AdLibModule.Sixpack
