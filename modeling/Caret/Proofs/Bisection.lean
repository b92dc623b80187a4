import Mathlib
import Caret.Bisection

/-!
# `Caret.Proofs.Bisection`: what halving finds

If the elements of a list that satisfy a test come first, halving finds how many there are
(`partitionPoint_eq_countP`), and so the element in front of that place is the last of them.
-/

set_option autoImplicit false

namespace Caret

/-- Halving finds the number `k` of leading positions that satisfy the test, if the positions that
satisfy it come first. -/
theorem bisect_eq (p : Nat → Bool) (base size k : Nat) (hk : k ≤ size) (hpos : 0 < size)
    (hbefore : ∀ i, i < k → p (base + i) = true)
    (hafter : ∀ i, k ≤ i → i < size → p (base + i) = false) :
    bisect p base size = base + k := by
  induction size using Nat.strongRecOn generalizing base k with
  | ind size ih =>
      rw [bisect]
      by_cases hone : size ≤ 1
      · -- One position is left, and it decides between `0` and `1`.
        rw [if_pos hone]
        rcases Nat.eq_zero_or_pos k with hzero | hsome
        · have hp := hafter 0 (by omega) (by omega)
          rw [Nat.add_zero] at hp
          simp [hp, hzero]
        · have hp := hbefore 0 hsome
          rw [Nat.add_zero] at hp
          simp [hp]
          omega
      · rw [if_neg hone]
        by_cases hmid : size / 2 < k
        · -- The middle satisfies the test, so the boundary is in the upper half.
          rw [if_pos (hbefore _ hmid), ih (size - size / 2) (by omega) (base + size / 2)
            (k - size / 2) (by omega) (by omega)]
          · omega
          · intro i hi
            rw [Nat.add_assoc]
            exact hbefore _ (by omega)
          · intro i hki hi
            rw [Nat.add_assoc]
            exact hafter _ (by omega) (by omega)
        · have hp := hafter (size / 2) (by omega) (by omega)
          rw [hp, if_neg (by simp), ih (size - size / 2) (by omega) base k (by omega) (by omega)
            hbefore]
          intro i hki hi
          exact hafter i hki (by omega)

/-- If a list is made of elements that satisfy the test and then elements that do not, halving finds
the place where it is put together. -/
theorem partitionPoint_append {α : Type} (p : α → Bool) (before after : List α)
    (hbefore : ∀ x ∈ before, p x = true) (hafter : ∀ x ∈ after, p x = false) :
    partitionPoint p (before ++ after) = before.length := by
  unfold partitionPoint
  by_cases hempty : before ++ after = []
  · simp_all
  · have hlen : 0 < (before ++ after).length := List.length_pos_iff.mpr hempty
    rw [if_neg (by simpa using hempty),
      bisect_eq _ 0 _ before.length (by simp) hlen, Nat.zero_add]
    · intro i hi
      rw [Nat.zero_add, List.getElem?_append_left hi, List.getElem?_eq_getElem hi]
      exact hbefore _ (List.getElem_mem hi)
    · intro i hi hlt
      have hoff : i - before.length < after.length := by simp at hlt; omega
      rw [Nat.zero_add, List.getElem?_append_right hi, List.getElem?_eq_getElem hoff]
      exact hafter _ (List.getElem_mem hoff)

/-- A list splits where a test that only turns false stops holding. -/
theorem exists_split_of_pairwise {α : Type} (p : α → Bool) (xs : List α)
    (h : xs.Pairwise fun x y => p y = true → p x = true) :
    ∃ before after, xs = before ++ after ∧ (∀ x ∈ before, p x = true) ∧
      ∀ x ∈ after, p x = false := by
  induction xs with
  | nil => exact ⟨[], [], rfl, by simp, by simp⟩
  | cons x xs ih =>
      rw [List.pairwise_cons] at h
      obtain ⟨before, after, hsplit, hbefore, hafter⟩ := ih h.2
      cases hp : p x with
      | true =>
          refine ⟨x :: before, after, by rw [hsplit, List.cons_append], ?_, hafter⟩
          intro y hy
          rcases List.mem_cons.mp hy with rfl | hy
          · exact hp
          · exact hbefore y hy
      | false =>
          refine ⟨[], x :: xs, rfl, by simp, ?_⟩
          intro y hy
          rcases List.mem_cons.mp hy with rfl | hy
          · exact hp
          · cases hq : p y with
            | false => rfl
            | true => rw [h.1 y hy hq] at hp; cases hp

/-- Halving counts the elements that satisfy a test that only turns false. -/
theorem partitionPoint_eq_countP {α : Type} (p : α → Bool) (xs : List α)
    (h : xs.Pairwise fun x y => p y = true → p x = true) : partitionPoint p xs = xs.countP p := by
  obtain ⟨before, after, rfl, hbefore, hafter⟩ := exists_split_of_pairwise p xs h
  have hall : before.countP p = before.length := List.countP_eq_length.mpr hbefore
  have hnone : after.countP p = 0 :=
    List.countP_eq_zero.mpr fun x hx => by rw [hafter x hx]; exact Bool.false_ne_true
  rw [partitionPoint_append p before after hbefore hafter, List.countP_append, hall, hnone,
    Nat.add_zero]

end Caret
