import Mathlib

/-!
# `Caret.Proofs.FirstOccurrence`: elements in the order in which they first occur

`List.eraseDups` keeps the first occurrence of each element. Token types are numbered and candidates
are joined in this order. An element at the end counts only if it is new (`eraseDups_concat`), and
the other lemmas follow from that by induction from the end of the list: erasing can be done
before or after lists are put together (`eraseDups_append_left`, `eraseDups_append_right`), and
before or after a map that keeps elements apart (`eraseDups_map`).
-/

set_option autoImplicit false

namespace Caret

section

variable {α : Type} [BEq α] [LawfulBEq α]

/-- Leaving elements out keeps the order in which the others first occur. -/
theorem idxOf_filter_lt_iff (p : α → Bool) (xs : List α) {a b : α} (ha : p a = true)
    (hb : p b = true) :
    (xs.filter p).idxOf a < (xs.filter p).idxOf b ↔ xs.idxOf a < xs.idxOf b := by
  induction xs with
  | nil => simp
  | cons x xs ih =>
      by_cases hx : p x = true
      · rw [List.filter_cons_of_pos hx, List.idxOf_cons, List.idxOf_cons, List.idxOf_cons,
          List.idxOf_cons]
        cases x == a <;> cases x == b <;> simp [ih]
      · -- An element that is left out is neither of the two.
        have hxa : (x == a) = false := by
          rw [beq_eq_false_iff_ne]
          rintro rfl
          exact hx ha
        have hxb : (x == b) = false := by
          rw [beq_eq_false_iff_ne]
          rintro rfl
          exact hx hb
        rw [List.filter_cons_of_neg hx, ih, List.idxOf_cons, List.idxOf_cons, hxa, hxb]
        simp

/-- Without repetitions, elements stand in the order in which they first occur. -/
theorem idxOf_eraseDups_lt_iff (xs : List α) (a b : α) :
    xs.eraseDups.idxOf a < xs.eraseDups.idxOf b ↔ xs.idxOf a < xs.idxOf b := by
  induction hn : xs.length using Nat.strongRecOn generalizing xs with
  | ind n ih =>
      cases xs with
      | nil => simp
      | cons x xs =>
          rw [List.eraseDups_cons, List.idxOf_cons, List.idxOf_cons, List.idxOf_cons,
            List.idxOf_cons]
          -- Erasing goes on with a list from which the first element is filtered out, so the
          -- induction is on the length.
          have hlt : (xs.filter fun y => !y == x).length < n := by
            rw [← hn]
            exact Nat.lt_succ_of_le (List.length_filter_le _ _)
          cases hxa : x == a
          · cases hxb : x == b
            · have hkeep : ∀ y, (x == y) = false → (!y == x) = true := by
                intro y hy
                rw [Bool.not_eq_true', beq_eq_false_iff_ne]
                exact (beq_eq_false_iff_ne.mp hy).symm
              have hfilter := idxOf_filter_lt_iff (fun y => !y == x) xs (hkeep a hxa) (hkeep b hxb)
              simp [ih _ hlt _ rfl, hfilter]
            · simp
          · cases x == b <;> simp

/-! ### Adding at the end -/

/-- A last element counts if it is new. -/
theorem eraseDups_concat (xs : List α) (x : α) [Decidable (x ∈ xs)] :
    (xs ++ [x]).eraseDups = if x ∈ xs then xs.eraseDups else xs.eraseDups ++ [x] := by
  rw [List.eraseDups_append]
  split
  · rename_i hx
    simp [List.removeAll, hx]
  · rename_i hx
    simp [List.removeAll, hx, List.eraseDups_cons]

/-- The case of an element that is there before. -/
theorem eraseDups_concat_of_mem {xs : List α} {x : α} (h : x ∈ xs) :
    (xs ++ [x]).eraseDups = xs.eraseDups := by
  classical
  rw [eraseDups_concat, if_pos h]

/-- The case of a new element. -/
theorem eraseDups_concat_of_not_mem {xs : List α} {x : α} (h : x ∉ xs) :
    (xs ++ [x]).eraseDups = xs.eraseDups ++ [x] := by
  classical
  rw [eraseDups_concat, if_neg h]

/-- No element is left that occurs twice. -/
theorem nodup_eraseDups (xs : List α) : xs.eraseDups.Nodup := by
  induction xs using List.reverseRecOn with
  | nil => exact List.nodup_nil
  | append_singleton xs x ih =>
      by_cases hx : x ∈ xs
      · rwa [eraseDups_concat_of_mem hx]
      · rw [eraseDups_concat_of_not_mem hx, ← List.concat_eq_append, List.nodup_concat]
        exact ⟨mt List.mem_eraseDups.mp hx, ih⟩

/-- Where nothing occurs twice, nothing is erased. -/
theorem eraseDups_of_nodup {xs : List α} (h : xs.Nodup) : xs.eraseDups = xs := by
  induction xs using List.reverseRecOn with
  | nil => rfl
  | append_singleton xs x ih =>
      rw [List.nodup_append] at h
      rw [eraseDups_concat_of_not_mem fun hx => h.2.2 x hx x List.mem_cons_self rfl, ih h.1]

/-- It makes no difference if repetitions are erased from the first list before. -/
theorem eraseDups_append_left (xs ys : List α) :
    (xs.eraseDups ++ ys).eraseDups = (xs ++ ys).eraseDups := by
  induction ys using List.reverseRecOn with
  | nil => simp [eraseDups_of_nodup (nodup_eraseDups xs)]
  | append_singleton ys y ih =>
      have hmem : y ∈ xs.eraseDups ++ ys ↔ y ∈ xs ++ ys := by simp
      rw [← List.append_assoc, ← List.append_assoc]
      by_cases hy : y ∈ xs ++ ys
      · rw [eraseDups_concat_of_mem hy, eraseDups_concat_of_mem (hmem.mpr hy), ih]
      · rw [eraseDups_concat_of_not_mem hy, eraseDups_concat_of_not_mem (mt hmem.mp hy), ih]

/-- Nor if they are erased from the second one. -/
theorem eraseDups_append_right (xs ys : List α) :
    (xs ++ ys.eraseDups).eraseDups = (xs ++ ys).eraseDups := by
  induction ys using List.reverseRecOn with
  | nil => rfl
  | append_singleton ys y ih =>
      rw [← List.append_assoc]
      by_cases hy : y ∈ ys
      · rw [eraseDups_concat_of_mem hy, ih, eraseDups_concat_of_mem (List.mem_append_right xs hy)]
      · -- The element is new to the second list, but it may occur in the first one.
        have hmem : y ∈ xs ++ ys.eraseDups ↔ y ∈ xs ++ ys := by simp
        rw [eraseDups_concat_of_not_mem hy, ← List.append_assoc]
        by_cases hx : y ∈ xs ++ ys
        · rw [eraseDups_concat_of_mem hx, eraseDups_concat_of_mem (hmem.mpr hx), ih]
        · rw [eraseDups_concat_of_not_mem hx, eraseDups_concat_of_not_mem (mt hmem.mp hx), ih]

/-- Adding the elements that are new, one after the other. -/
theorem foldl_concat_new [DecidableEq α] (xs ys : List α) :
    ys.foldl (fun seen y => if y ∈ seen then seen else seen ++ [y]) xs.eraseDups =
      (xs ++ ys).eraseDups := by
  induction ys using List.reverseRecOn with
  | nil => simp
  | append_singleton ys y ih =>
      rw [List.foldl_append, ih, List.foldl_cons, List.foldl_nil, ← List.append_assoc,
        eraseDups_concat]
      simp only [List.mem_eraseDups]

/-- A map that keeps elements apart keeps their first occurrences. -/
theorem eraseDups_map {β : Type} [BEq β] [LawfulBEq β] {f : α → β} (hf : Function.Injective f)
    (xs : List α) : (xs.map f).eraseDups = xs.eraseDups.map f := by
  induction xs using List.reverseRecOn with
  | nil => rfl
  | append_singleton xs x ih =>
      have hmem : f x ∈ xs.map f ↔ x ∈ xs := List.mem_map_of_injective hf
      rw [List.map_append, List.map_singleton]
      by_cases hx : x ∈ xs
      · rw [eraseDups_concat_of_mem hx, eraseDups_concat_of_mem (hmem.mpr hx), ih]
      · rw [eraseDups_concat_of_not_mem hx, eraseDups_concat_of_not_mem (mt hmem.mp hx), ih,
          List.map_append, List.map_singleton]

end

end Caret
