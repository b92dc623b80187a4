import Mathlib
import Caret.Network.Reach

/-!
# `Caret.Proofs.Reach`: depth-first search finds what can be reached

`mem_reach_iff` characterises the search by reachability. What a search finds was reached from a
pending number along `next` (`exists_of_mem_depthFirst`). The other way round, it leaves nothing
out: each pending number that was not seen is found, and with a number everything that it leads to
(`depthFirst_closed`). Which of the numbers is marked as seen changes during the search, and both
lemmas hold for every stage.

The search lists nothing twice (`nodup_depthFirst`), and what was not pending comes behind something
that leads to it (`mem_or_exists_of_depthFirst_eq`).
-/

set_option autoImplicit false

namespace Caret

/-- Where a relation comes to an end, nothing leads back to its start. -/
theorem not_transGen_self_of_acc {α : Type} {r : α → α → Prop} {a : α} (h : Acc r a) :
    ¬ Relation.TransGen r a a := by
  have hacc := h.transGen
  clear h
  induction hacc with
  | intro a _ ih =>
      intro hself
      exact ih a hself hself

section

variable {next : StateId → List StateId}

/-- Marking a number leaves the others as they are. -/
theorem getElem?_mark_of_ne (seen : Array Bool) {i j : Nat} (h : i ≠ j) :
    (seen.setIfInBounds i true)[j]? = seen[j]? := by
  rw [Array.getElem?_setIfInBounds, if_neg h]

/-- What a search finds has a place among the marks, and is reached from a pending number. -/
theorem exists_of_mem_depthFirst {seen : Array Bool} {pending : List StateId} {x : StateId}
    (h : x ∈ depthFirst next seen pending) :
    x < seen.size ∧ ∃ r ∈ pending, Relation.ReflTransGen (fun a b => b ∈ next a) r x := by
  fun_induction depthFirst next seen pending with
  | case1 => cases h
  | case2 seen id rest hnew ih =>
      rcases List.mem_cons.mp h with rfl | h
      · exact ⟨(Array.getElem?_eq_some_iff.mp hnew).1, x, List.mem_cons_self, .refl⟩
      · obtain ⟨hlt, r, hr, hreach⟩ := ih h
        rw [Array.size_setIfInBounds] at hlt
        -- It was reached from a number that this one leads to, or from one that was pending before.
        rcases List.mem_append.mp hr with hr | hr
        · exact ⟨hlt, id, List.mem_cons_self, .head hr hreach⟩
        · exact ⟨hlt, r, List.mem_cons_of_mem _ hr, hreach⟩
  | case3 seen id rest _ ih =>
      obtain ⟨hlt, r, hr, hreach⟩ := ih h
      exact ⟨hlt, r, List.mem_cons_of_mem _ hr, hreach⟩

/-- A search finds the pending numbers that were not seen before, and from each number it finds what
that number leads to and was not seen before. -/
theorem depthFirst_closed (seen : Array Bool) (pending : List StateId) :
    (∀ x ∈ pending, seen[x]? = some false → x ∈ depthFirst next seen pending) ∧
      ∀ x ∈ depthFirst next seen pending, ∀ y ∈ next x, seen[y]? = some false →
        y ∈ depthFirst next seen pending := by
  fun_induction depthFirst next seen pending with
  | case1 => exact ⟨by simp, by simp⟩
  | case2 seen id rest hnew ih =>
      obtain ⟨hpending, hclosed⟩ := ih
      -- A number other than this one is as new to the rest of the search as it was before.
      have hfound : ∀ y, seen[y]? = some false → y ≠ id →
          (seen.setIfInBounds id true)[y]? = some false := by
        intro y hy hne
        rw [getElem?_mark_of_ne seen (Ne.symm hne), hy]
      constructor
      · intro x hx hxnew
        by_cases hid : x = id
        · exact hid ▸ List.mem_cons_self
        · have hrest : x ∈ rest := (List.mem_cons.mp hx).resolve_left hid
          exact List.mem_cons_of_mem _
            (hpending x (List.mem_append_right _ hrest) (hfound x hxnew hid))
      · intro x hx y hy hynew
        by_cases hid : y = id
        · exact hid ▸ List.mem_cons_self
        · refine List.mem_cons_of_mem _ ?_
          rcases List.mem_cons.mp hx with rfl | hx
          · exact hpending y (List.mem_append_left _ hy) (hfound y hynew hid)
          · exact hclosed x hx y hy (hfound y hynew hid)
  | case3 seen id rest hseen ih =>
      obtain ⟨hpending, hclosed⟩ := ih
      refine ⟨fun x hx hxnew => ?_, hclosed⟩
      rcases List.mem_cons.mp hx with rfl | hx
      · exact absurd hxnew hseen
      · exact hpending x hx hxnew

/-! ### The order of the search -/

/-- What a search lists was not seen before. -/
theorem unseen_of_mem_depthFirst {seen : Array Bool} {pending : List StateId} {x : StateId}
    (h : x ∈ depthFirst next seen pending) : seen[x]? = some false := by
  fun_induction depthFirst next seen pending with
  | case1 => cases h
  | case2 seen id rest hnew ih =>
      by_cases hid : x = id
      · rw [hid, hnew]
      · rw [← getElem?_mark_of_ne seen (Ne.symm hid)]
        exact ih ((List.mem_cons.mp h).resolve_left hid)
  | case3 seen id rest _ ih => exact ih h

/-- A search lists nothing twice. -/
theorem nodup_depthFirst (seen : Array Bool) (pending : List StateId) :
    (depthFirst next seen pending).Nodup := by
  fun_induction depthFirst next seen pending with
  | case1 => exact List.nodup_nil
  | case2 seen id rest hnew ih =>
      refine List.nodup_cons.mpr ⟨fun hagain => ?_, ih⟩
      have hlt := (Array.getElem?_eq_some_iff.mp hnew).1
      -- The number is marked when it is listed, so it is not listed later.
      have hmark := unseen_of_mem_depthFirst hagain
      rw [Array.getElem?_setIfInBounds, if_pos rfl, if_pos hlt] at hmark
      cases hmark
  | case3 seen id rest _ ih => exact ih

/-- What a search lists was pending, or something that leads to it is listed before. -/
theorem mem_or_exists_of_depthFirst_eq {seen : Array Bool} {pending before after : List StateId}
    {x : StateId} (h : depthFirst next seen pending = before ++ x :: after) :
    x ∈ pending ∨ ∃ y ∈ before, x ∈ next y := by
  fun_induction depthFirst next seen pending generalizing before with
  | case1 => simp at h
  | case2 seen id rest hnew ih =>
      cases before with
      | nil =>
          cases h
          exact Or.inl List.mem_cons_self
      | cons y before =>
          obtain ⟨rfl, htail⟩ := List.cons.inj h
          rcases ih htail with hpending | ⟨z, hz, hx⟩
          · rcases List.mem_append.mp hpending with hx | hx
            · exact Or.inr ⟨id, List.mem_cons_self, hx⟩
            · exact Or.inl (List.mem_cons_of_mem id hx)
          · exact Or.inr ⟨z, List.mem_cons_of_mem id hz, hx⟩
  | case3 seen id rest _ ih => exact (ih h).imp_left (List.mem_cons_of_mem id)

end

namespace Network

/-- A state leads to another one along `next`. -/
def LeadsAlong (n : Network) (next : State → List StateId) (a b : StateId) : Prop :=
  ∃ s, n.state? a = some s ∧ b ∈ next s

/-- A search finds the states that can be reached from the roots. -/
theorem mem_reach_iff (n : Network) (next : State → List StateId) (roots : List StateId)
    (x : StateId) : x ∈ n.reach next roots ↔
      x < n.states.size ∧ ∃ r ∈ roots, Relation.ReflTransGen (n.LeadsAlong next) r x := by
  have hleads : ∀ a b, b ∈ ((n.state? a).map next).getD [] ↔ n.LeadsAlong next a b := by
    intro a b
    cases hs : n.state? a <;> simp [LeadsAlong, hs]
  have hunseen : ∀ y : StateId, y < n.states.size →
      (Array.replicate n.states.size false)[y]? = some false := by
    intro y hy
    rw [Array.getElem?_replicate, if_pos hy]
  constructor
  · intro h
    obtain ⟨hlt, r, hr, hreach⟩ := exists_of_mem_depthFirst h
    rw [Array.size_replicate] at hlt
    exact ⟨hlt, r, hr, Relation.ReflTransGen.mono (fun a b hab => (hleads a b).mp hab) _ _ hreach⟩
  · rintro ⟨hlt, r, hr, hreach⟩
    obtain ⟨hroots, hclosed⟩ := @depthFirst_closed (fun id => ((n.state? id).map next).getD [])
      (Array.replicate n.states.size false) roots
    -- Every state on the way but the last one has edges, so all of them exist.
    induction hreach with
    | refl => exact hroots r hr (hunseen r hlt)
    | @tail a b _ hab ih =>
        have ⟨s, hs, _⟩ := hab
        have ha := ih (Array.getElem?_eq_some_iff.mp hs).1
        exact hclosed a ha b ((hleads a b).mpr hab) (hunseen b hlt)

end Network

end Caret
