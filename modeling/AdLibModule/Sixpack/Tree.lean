import AdLibModule.Sixpack.Symbol

/-!
The adaptive code of a sixpack stream: a binary tree whose leaves are the symbols, each node with a
count of how often the symbols below it were observed. To observe a symbol is to raise its count and
those above it, and then to climb from its leaf to the root: wherever a node outweighs the sibling
of its parent, the two change places. When the count of the root comes to `countLimit`, all counts
are halved.

Counts need not be the sums of the counts below them. The root starts at zero while all other nodes
start at one, halving rounds down, and a symbol that hangs on the root is observed without a change
of any count but its own.
-/
namespace AdLibModule.Sixpack

/-- Numbers that count. The stream is defined by counters of 16 bits; unbounded ones tell where the
width matters. -/
class Counter (κ : Type) where
  ofNat : Nat → κ
  toNat : κ → Nat
  add : κ → κ → κ

instance : Counter UInt16 := ⟨UInt16.ofNat, UInt16.toNat, (· + ·)⟩

instance : Counter Nat := ⟨id, id, (· + ·)⟩

/-- A code for symbols: the way from the root to a leaf spells the symbol at it. -/
inductive Tree (κ : Type) where
  | leaf (symbol : Symbol) (count : κ)
  | fork (count : κ) (left right : Tree κ)

/-- One step from a node up to its parent. -/
structure Frame (κ : Type) where
  /-- Whether the node is the right child. -/
  isRight : Bool
  /-- The count of the parent. -/
  count : κ
  /-- The other child. -/
  sibling : Tree κ

/-- A leaf, and the steps from it up to the root. -/
structure Location (κ : Type) where
  symbol : Symbol
  count : κ
  path : List (Frame κ)

/-- The count of the root at which all counts are halved. -/
def countLimit : Nat := 2000

variable {κ : Type} [Counter κ]

/-- Half the count, rounded down. -/
def halved (count : κ) : κ := Counter.ofNat (Counter.toNat count / 2)

namespace Tree

def count : Tree κ → κ
  | leaf _ count => count
  | fork count _ _ => count

/-- All counts halved. -/
def halve : Tree κ → Tree κ
  | leaf symbol count => leaf symbol (halved count)
  | fork count left right => fork (halved count) left.halve right.halve

/-- The symbols at the leaves, from left to right. -/
def symbols : Tree κ → List Symbol
  | leaf symbol _ => [symbol]
  | fork _ left right => left.symbols ++ right.symbols

end Tree

namespace Frame

/-- The parent, with `child` in the place of the node. -/
def fill (frame : Frame κ) (child : Tree κ) : Tree κ :=
  if frame.isRight then .fork frame.count frame.sibling child
  else .fork frame.count child frame.sibling

def halve (frame : Frame κ) : Frame κ :=
  { frame with count := halved frame.count, sibling := frame.sibling.halve }

end Frame

/-- The whole tree, with `node` at the foot of the path. -/
def plug (node : Tree κ) : List (Frame κ) → Tree κ
  | [] => node
  | frame :: path => plug (frame.fill node) path

/-- The path with every count set to the sum of the two counts below it, where `count` is that of
the node at its foot. -/
def recount (count : κ) : List (Frame κ) → List (Frame κ)
  | [] => []
  | frame :: path =>
    let sum := Counter.add count frame.sibling.count
    { frame with count := sum } :: recount sum path

/-- The path recounted, and everything halved when the root has come to the limit. -/
def refresh (node : Tree κ) (path : List (Frame κ)) : Tree κ × List (Frame κ) :=
  let path := recount node.count path
  if path.getLast?.any (Counter.toNat ·.count == countLimit) then
    (node.halve, path.map Frame.halve)
  else
    (node, path)

/-- The whole tree, after `node` and then each node above it, up to `steps` of them, has changed
places with its parent's sibling if it outweighs that one. A change of places is followed by a
recount of the parent and all above it. In either case it is the parent that climbs on. -/
def climb : Nat → Tree κ → List (Frame κ) → Tree κ
  | steps + 1, node, frame :: above :: path =>
    let uncle := above.sibling
    if Counter.toNat uncle.count < Counter.toNat node.count then
      let sum := Counter.add uncle.count frame.sibling.count
      let refreshed :=
        refresh ({ frame with count := sum }.fill uncle) ({ above with sibling := node } :: path)
      climb steps refreshed.1 refreshed.2
    else
      climb steps (frame.fill node) (above :: path)
  | _, node, path => plug node path

/-- The tree once the symbol has been observed. -/
def Location.observe (location : Location κ) : Tree κ :=
  let leaf := Tree.leaf location.symbol (Counter.add location.count (Counter.ofNat 1))
  match location.path with
  | [] => leaf
  | [frame] => frame.fill leaf
  | path =>
    let refreshed := refresh leaf path
    climb path.length refreshed.1 refreshed.2

/-- The way from the root to the leaf, `true` for each step to the right. -/
def Location.code (location : Location κ) : List Bool :=
  (location.path.map Frame.isRight).reverse

namespace Tree

/-- The first leaf with the given symbol, in a tree that hangs on `path`. -/
def locate (symbol : Symbol) : Tree κ → List (Frame κ) → Option (Location κ)
  | leaf other count, path => if other = symbol then some ⟨other, count, path⟩ else none
  | fork count left right, path =>
    (left.locate symbol (⟨false, count, right⟩ :: path)).or
      (right.locate symbol (⟨true, count, left⟩ :: path))

/-- The tree below node `i` of the initial tree, down to `depth` further levels. Nodes are numbered
from the root, 1, so that node `i` has the children `2 * i` and `2 * i + 1`; the nodes from
`symbolCount` on are the leaves, in the order of their symbols. -/
def heap : Nat → Nat → Tree κ
  | 0, i => leaf (Symbol.ofNat (i - symbolCount)) (Counter.ofNat 1)
  | depth + 1, i =>
    if i < symbolCount then fork (Counter.ofNat 1) (heap depth (2 * i)) (heap depth (2 * i + 1))
    else leaf (Symbol.ofNat (i - symbolCount)) (Counter.ofNat 1)

/-- The code before any symbol was observed: all counts are one, but for the root's. -/
def initial : Tree κ := fork (Counter.ofNat 0) (heap 10 2) (heap 10 3)

/-- The code once the symbol has been observed. -/
def observe (tree : Tree κ) (symbol : Symbol) : Tree κ :=
  match tree.locate symbol [] with
  | some location => location.observe
  | none => tree

end Tree
end AdLibModule.Sixpack
