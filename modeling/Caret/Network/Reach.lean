import Caret.Network.Basic

/-!
# `Caret.Network.Reach`: depth-first search in a network

`Network.reach next roots` lists the states that can be reached from `roots` along `next`, each
once, in the order in which a depth-first search comes to them. Numbers without a state are passed
over.
-/

set_option autoImplicit false

namespace Caret

/-- Marking a position that was not marked leaves fewer unmarked positions. -/
theorem count_false_set_lt (seen : Array Bool) (i : Nat) (h : seen[i]? = some false) :
    (seen.setIfInBounds i true).count false < seen.count false := by
  obtain ⟨hi, hv⟩ := Array.getElem?_eq_some_iff.mp h
  have hpos : 0 < seen.count false := by
    rw [Array.count_pos_iff]
    exact hv ▸ Array.getElem_mem hi
  rw [Array.setIfInBounds_def, dif_pos hi, Array.count_set]
  simp only [hv, beq_self_eq_true, ite_true, Bool.true_beq, Bool.false_eq_true, ite_false]
  omega

/-- Depth-first search with a stack of pending numbers. `seen` marks what was visited. -/
def depthFirst (next : StateId → List StateId) (seen : Array Bool) (pending : List StateId) :
    List StateId :=
  match pending with
  | [] => []
  | id :: rest =>
      if seen[id]? = some false then
        -- What a number leads to comes before what was pending already.
        id :: depthFirst next (seen.setIfInBounds id true) (next id ++ rest)
      else depthFirst next seen rest
termination_by (seen.count false, pending.length)
decreasing_by
  · exact Prod.Lex.left _ _ (count_false_set_lt seen id ‹_›)
  · exact Prod.Lex.right _ (Nat.lt_succ_self _)

/-- The states that can be reached from `roots` when `next` lists where a state leads. -/
def Network.reach (n : Network) (next : State → List StateId) (roots : List StateId) :
    List StateId :=
  depthFirst (fun id => ((n.state? id).map next).getD [])
    (Array.replicate n.states.size false) roots

end Caret
