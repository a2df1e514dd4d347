import Hsm.Forest

/-!
# Tables of parents

A table gives every node up to its size a parent or none. Some of its chains of parents may go
round; the nodes whose chains end form a forest (`ParentTable.forest`), and for those the table
answers as the forest does. That a node is beneath another can be found on the way round too.
-/

namespace Hsm

/-- Entry `n` is the parent of node `n`. -/
structure ParentTable where
  entries : Array (Option Nat)

namespace ParentTable

variable (T : ParentTable)

def size : Nat :=
  T.entries.size

def parent (a : Nat) : Option Nat :=
  (T.entries[a]?).join

/-- The number of links above a node; one more than the size of the table if its chain goes
round. -/
def links (a : Nat) : Nat :=
  Forest.linksAbove T.parent (T.size + 1) a

/-- The chain of parents above a node ends. -/
def ends (a : Nat) : Bool :=
  T.links a ≤ T.size

theorem links_of_parent {a b : Nat} (ha : T.ends a) (h : T.parent a = some b) :
    T.links a = T.links b + 1 := by
  have ha : T.links a ≤ T.size := of_decide_eq_true ha
  have hl : T.links a = Forest.linksAbove T.parent T.size b + 1 := by
    simp [links, Forest.linksAbove, h]
  rw [hl, links, Forest.linksAbove_succ _ (by omega)]

/-- The nodes whose chains end; any other node stands alone. -/
def forest : Forest Nat where
  parent a := if T.ends a then T.parent a else none
  height := T.links
  height_lt := by
    intro a b h
    split at h
    · next ha => rw [T.links_of_parent ha h]; exact Nat.lt_succ_self _
    · cases h

/-- The ancestry of a node whose chain ends. -/
def ancestors? (a : Nat) : Option (List Nat) :=
  if T.ends a then some (T.forest.ancestors a) else none

/-- The depth of a node whose chain ends. -/
def depth? (a : Nat) : Option Nat :=
  if T.ends a then some (T.forest.depth a) else none

/-- The lowest common ancestor of two nodes whose chains end, if they have one. -/
def meet? (a b : Nat) : Option (Option Nat) :=
  if T.ends a && T.ends b then some (T.forest.meet a b) else none

/-- Whether `a` is beneath `top`; open if the chain of `a` goes round and does not meet `top`. -/
def isBelow? (a top : Nat) : Option Bool :=
  if T.ends a then some (T.forest.isBelow a top)
  else if Forest.isBelowWithin T.parent top T.size a then some true
  else none

end ParentTable

end Hsm
