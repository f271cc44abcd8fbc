import CountedBTree.Node.Basic

/-!
# Checking nodes

Two checks of a node. The shallow check looks at one node and trusts the counts
its children store; every insertion into a node ends with it. The full check
looks at the whole subtree and answers its depth.

Both go through their conditions in a fixed order and refuse for the first one
that fails, so a node with several faults always names the same one. The stored
count comes last, and what it is compared with must itself be a count.
-/

namespace CountedBTree

namespace Node

variable {κ ν : Type} [Ord κ]

/-- Whether keys never descend from one entry to the next. -/
def ascending : List (κ × ν) → Bool
  | [] => true
  | [_] => true
  | first :: second :: rest =>
      (compare first.1 second.1).isLE && ascending (second :: rest)

/-- Whether the number of children fits the number of entries. -/
def childrenFit : Node κ ν → Bool
  | leaf _ _ _ => true
  | branch _ _ entries children => children.length == entries.length + 1

/-- The entries of the node and the stored counts of its children, added up. -/
def countedTotal (node : Node κ ν) : Nat := node.size + totalOfAll node.children

/-- Check one node, trusting the counts its children store. -/
def checkShallow (node : Node κ ν) : Checked Unit := do
  unless node.size ≤ node.capacity do throw (.overfull node.size node.capacity)
  unless ascending node.entries do throw .unordered
  unless node.childrenFit do throw .childCountMismatch
  let counted ← checkedSum node.countedTotal
  unless node.total = counted do throw .totalMismatch

/-- Whether the node's first key is not less than the separator before it. A
missing separator or an empty node asks for nothing. -/
def notBelow (separator : Option κ) (node : Node κ ν) : Bool :=
  match separator, node.entries.head? with
  | some bound, some first => (compare first.1 bound).isGE
  | _, _ => true

/-- Whether the node's last key is not greater than the separator after it. -/
def notAbove (separator : Option κ) (node : Node κ ν) : Bool :=
  match separator, node.entries.getLast? with
  | some bound, some last => (compare last.1 bound).isLE
  | _, _ => true

mutual

/-- Check a whole subtree and answer its depth. A leaf has depth zero, and all
leaves must lie at the same depth. -/
def check : Node κ ν → Checked Nat
  | leaf capacity total entries => do
      checkShallow (leaf capacity total entries)
      pure 0
  | branch capacity total entries children => do
      checkShallow (branch capacity total entries children)
      if entries.isEmpty then throw .noSeparator
      let depth ← checkChildren none (entries.map Prod.fst) none children
      pure (depth.getD 0 + 1)

/-- Check the children between a separator already passed and the separators still
ahead. The depth is that of the children checked so far. -/
def checkChildren (passed : Option κ) (ahead : List κ) (depth : Option Nat) :
    List (Node κ ν) → Checked (Option Nat)
  | [] => pure depth
  | child :: rest => do
      if child.isEmpty then throw .emptyChild
      unless child.notBelow passed do throw .belowSeparator
      unless child.notAbove ahead.head? do throw .aboveSeparator
      let found ← child.check
      unless depth.getD found = found do throw .unevenLeaves
      checkChildren ahead.head? ahead.tail (some found) rest

end

end Node

end CountedBTree
