import AdLibModule.Sixpack.Tree
import Mathlib

/-!
The adaptive code laid out in rows. Nodes are numbered: the root is 1, the inner nodes come before
`symbolCount`, and the leaf of a symbol lies `symbolCount` places behind the symbol. Four rows hold
the two children, the parent and the count of each node, and to observe a symbol is to write a few
entries of these rows.

Every access to a row is checked, and the climbs to the root are recursions without a bound. That an
operation has a result therefore says that no access left the rows and that every climb came to its
end.
-/
namespace AdLibModule.Sixpack

/-- The number of the root. -/
abbrev rootNumber : Nat := 1

/-- The number of the leaf of a symbol. -/
def leafNumber (symbol : Symbol) : Nat := symbol.val + symbolCount

/-- Replaces an entry of a row; there must be one at that place. -/
def replace? {α : Type} (row : Array α) (place : Nat) (entry : α) : Option (Array α) :=
  if place < row.size then some (row.setIfInBounds place entry) else none

/-- The rows of a code, by the numbers of its nodes. -/
structure NodeTable (κ : Type) where
  left : Array Nat
  right : Array Nat
  parent : Array Nat
  count : Array κ

namespace NodeTable

variable {κ : Type} [Counter κ]

/-- The rows before any symbol was observed. The entries at place 0 belong to no node. -/
def initial : NodeTable κ where
  left := Array.ofFn fun i : Fin symbolCount => 2 * i.val
  right := Array.ofFn fun i : Fin symbolCount => if i.val = 0 then 0 else 2 * i.val + 1
  parent := Array.ofFn fun i : Fin (2 * symbolCount) => i.val / 2
  count := Array.ofFn fun i : Fin (2 * symbolCount) => Counter.ofNat (if i.val < 2 then 0 else 1)

/-- The table with another row of counts. -/
def withCounts (table : NodeTable κ) (counts : Array κ) : NodeTable κ :=
  { table with count := counts }

/-- The other child of a node's parent. -/
def sibling? (table : NodeTable κ) (node : Nat) : Option Nat := do
  let parent ← table.parent[node]?
  let left ← table.left[parent]?
  if left = node then table.right[parent]? else return left

/-- Sets the count of the parent of `node` and `other`, and of every node above it, to the sum of
the counts of its children. -/
def recountFrom (table : NodeTable κ) (node other : Nat) : Option (NodeTable κ) := do
  let parent ← table.parent[node]?
  let sum := Counter.add (← table.count[node]?) (← table.count[other]?)
  let table := table.withCounts (← replace? table.count parent sum)
  if parent = rootNumber then
    return table
  else
    table |>.recountFrom parent (← table.sibling? parent)
partial_fixpoint

/-- All counts halved. -/
def halveCounts (table : NodeTable κ) : NodeTable κ :=
  table.withCounts (table.count.mapIdx fun i count => if i = 0 then count else halved count)

/-- Recounts from two siblings up, and halves all counts when that of the root has come to the
limit. -/
def refreshFrom (table : NodeTable κ) (node other : Nat) : Option (NodeTable κ) := do
  let table ← table.recountFrom node other
  let total ← table.count[rootNumber]?
  return if Counter.toNat total == countLimit then table.halveCounts else table

/-- Sets the child of `parent` that stands beside `child`. -/
def replaceBeside (table : NodeTable κ) (parent child entry : Nat) : Option (NodeTable κ) := do
  if (← table.left[parent]?) = child then
    return { table with right := ← replace? table.right parent entry }
  else
    return { table with left := ← replace? table.left parent entry }

/-- Sets another child in the place of `child`, and tells the one that stands beside it. -/
def replaceChild (table : NodeTable κ) (parent child entry : Nat) :
    Option (NodeTable κ × Nat) := do
  if (← table.left[parent]?) = child then
    let table := { table with left := ← replace? table.left parent entry }
    return (table, ← table.right[parent]?)
  else
    let table := { table with right := ← replace? table.right parent entry }
    return (table, ← table.left[parent]?)

/-- Puts `node` in the place of `uncle`, its parent's sibling, and `uncle` in the place of `node`.
Also tells the sibling that `uncle` has got. -/
def exchange (table : NodeTable κ) (node parent uncle grandparent : Nat) :
    Option (NodeTable κ × Nat) := do
  let table ← table.replaceBeside grandparent parent node
  let (table, other) ← table.replaceChild parent node uncle
  let table := { table with parent := ← replace? table.parent uncle parent }
  return ({ table with parent := ← replace? table.parent node grandparent }, other)

/-- Exchanges a node and its uncle if the node is the heavier one. Also tells which of the two is
then a child of `parent`. -/
def settle (table : NodeTable κ) (node parent : Nat) : Option (NodeTable κ × Nat) := do
  let grandparent ← table.parent[parent]?
  let uncle ← table.sibling? parent
  let weight ← table.count[node]?
  let uncleWeight ← table.count[uncle]?
  if Counter.toNat uncleWeight < Counter.toNat weight then
    let (table, other) ← table.exchange node parent uncle grandparent
    return (← table.refreshFrom uncle other, uncle)
  else
    return (table, node)

/-- Climbs from a node, whose parent is not the root, up to the root. -/
def climbFrom (table : NodeTable κ) (node parent : Nat) : Option (NodeTable κ) := do
  let (table, child) ← table.settle node parent
  let node ← table.parent[child]?
  let parent ← table.parent[node]?
  if parent = rootNumber then
    return table
  else
    table |>.climbFrom node parent
partial_fixpoint

/-- The rows once the symbol has been observed. -/
def observe (table : NodeTable κ) (symbol : Symbol) : Option (NodeTable κ) := do
  let node := leafNumber symbol
  let raised := Counter.add (← table.count[node]?) (Counter.ofNat 1)
  let table := table.withCounts (← replace? table.count node raised)
  let parent ← table.parent[node]?
  if parent = rootNumber then
    return table
  else
    let table ← table.refreshFrom node (← table.sibling? node)
    table.climbFrom node parent

/-- The rows once all the symbols have been observed, in their order. -/
def observeAll (table : NodeTable κ) (symbols : List Symbol) : Option (NodeTable κ) :=
  symbols.foldlM observe table

/-- Where the bits lead from a node: the first leaf on the way, or the inner node at which they
run out; and the bits that are left. -/
def walk (table : NodeTable κ) (node : Nat) (bits : List Bool) : Option (Nat × List Bool) :=
  if node < symbolCount then
    match bits with
    | [] => some (node, [])
    | bit :: bits => do
      let child ← if bit then table.right[node]? else table.left[node]?
      table.walk child bits
  else
    some (node, bits)

/-- The node so many steps above a node. -/
def ancestor? (table : NodeTable κ) (node : Nat) : Nat → Option Nat
  | 0 => some node
  | steps + 1 => do table.ancestor? (← table.parent[node]?) steps

end NodeTable
end AdLibModule.Sixpack
