import AndInverter.DepthView

/-!
# Marking with a stack

The critical paths found as by a search from the deepest outputs: a node that
comes off the stack is marked, and the fanins one level below it go onto the
stack unless they are marked already.  A node may wait there more than once
and counts the first time only.
-/

namespace AndInverter

namespace DepthView

variable {Store : Type} [Network Store]

def unmarkedBelow (network : Store) (levels : Array Nat) (marks : Array Bool) (id : Nat) :
    List Nat :=
  (Network.children network id).filter fun child =>
    !marks.getD child false && levels.getD child 0 + 1 == levels.getD id 0

private theorem count_false_mark_lt {marks : Array Bool} {id : Nat}
    (found : marks[id]? = some false) :
    (marks.setIfInBounds id true).toList.count false < marks.toList.count false := by
  obtain ⟨inside, unmarked⟩ := Array.getElem?_eq_some_iff.mp found
  have present : 0 < marks.toList.count false := by
    apply List.count_pos_iff.mpr
    rw [← unmarked]
    exact Array.mem_toList_iff.mpr (Array.getElem_mem inside)
  rw [Array.toList_setIfInBounds, List.count_set (Array.length_toList ▸ inside),
    Array.getElem_toList, unmarked]
  exact Nat.sub_lt present Nat.one_pos

/-- Marks the nodes of a stack and, before the rest of it, what lies on a
longest path below them, last fanin first.  Each step marks a node or takes
one off the stack. -/
def markStack (network : Store) (levels : Array Nat) (stack : List Nat) (marks : Array Bool) :
    Except Failure (Array Bool) :=
  match stack with
  | [] => .ok marks
  | id :: stack =>
    match _found : marks[id]? with
    | none => .error .assertion
    | some true => markStack network levels stack marks
    | some false =>
      if (Network.children network id).any (marks.size ≤ ·) then
        .error .assertion
      else
        let marked := marks.setIfInBounds id true
        markStack network levels ((unmarkedBelow network levels marked id).reverse ++ stack) marked
  termination_by (marks.toList.count false, stack.length)
  decreasing_by
    · exact Prod.Lex.right _ (Nat.lt_succ_self _)
    · exact Prod.Lex.left _ _ (count_false_mark_lt _found)

/-- The marks of a search from the deepest outputs over a table without
marks. -/
def searchCritical (network : Store) (levels : Array Nat) : Except Failure (Array Bool) :=
  let deepest := (Network.roots network).filter fun id =>
    levels.getD id 0 = depthOf network levels
  markStack network levels deepest.reverse (Array.replicate (Network.size network) false)

end DepthView

end AndInverter
