import Mathlib
import Caret.Proofs.MergeLaws

/-!
# `Caret.Proofs.MergePositions`: joining candidates with a map of their positions

`merge` looks for the candidate of an id by going through those that it has joined so far. The same
can be done with a map that leads from each id to the position of its candidate, so that a candidate
is joined in one step. Such a step could go wrong: the map may name a position at which there is no
candidate, and then `Merging.add?` has no result.

It never does. `Merging.Indexed` says that the map leads to the candidates, and to nothing else. A
step keeps it and joins the candidate as `merge` does (`Merging.Indexed.add`). `mergeIndexed?_eq`
follows by induction over the candidates: the map leads nowhere else, and the result is `merge`.
-/

set_option autoImplicit false

namespace Caret

/-- Candidates that have been joined, and the position of each id among them. -/
structure Merging where
  merged : Array Candidate
  positions : Std.HashMap SuggestionId Nat

namespace Merging

/-- Nothing has been joined yet. -/
def empty : Merging := ⟨#[], ∅⟩

/-- Join a candidate with the one at the position of its id, or put it last and note its position.
There is no result if the position is not one of a candidate. -/
def add? (m : Merging) (c : Candidate) : Option Merging :=
  match m.positions[c.id]? with
  | some i => m.merged[i]?.map fun d =>
      { m with merged := m.merged.setIfInBounds i (d.absorb c) }
  | none => some ⟨m.merged.push c, m.positions.insert c.id m.merged.size⟩

/-- The map leads from an id to a position exactly if the candidate there has the id. So it leads to
candidates only, and no two candidates have one id. -/
def Indexed (m : Merging) : Prop :=
  ∀ id i, m.positions[id]? = some i ↔ m.merged[i]?.map Candidate.id = some id

end Merging

/-- Join candidates with a map of positions. -/
def mergeIndexed? (cs : List Candidate) : Option (List Candidate) :=
  (cs.foldlM Merging.add? .empty).map fun m => m.merged.toList

/-- A candidate is joined in place if its id belongs to one position only. Where `insert` stops is
that position, because no id in front of it is the same. -/
theorem Candidate.insert_eq_set {c d : Candidate} {m : List Candidate} {i : Nat}
    (hd : m[i]? = some d) (hid : d.id = c.id)
    (hunique : ∀ j, m[j]?.map Candidate.id = some c.id → j = i) :
    c.insert m = m.set i (d.absorb c) := by
  induction m generalizing i with
  | nil => cases hd
  | cons e m ih =>
      cases i with
      | zero =>
          cases hd
          exact if_pos hid
      | succ i =>
          have hne : e.id ≠ c.id := fun heq => nomatch hunique 0 (congrArg some heq)
          have htail : ∀ j, m[j]?.map Candidate.id = some c.id → j = i := fun j hj =>
            Nat.succ.inj (hunique (j + 1) hj)
          rw [insert, if_neg hne, ih hd htail, List.set_cons_succ]

namespace Merging

variable {m : Merging}

/-- At the start there are no positions and no candidates. -/
theorem indexed_empty : empty.Indexed := by
  intro id i
  simp [empty]

/-- An id has one position. -/
theorem Indexed.unique (h : m.Indexed) {id : SuggestionId} {i j : Nat}
    (hi : m.positions[id]? = some i) (hj : m.merged[j]?.map Candidate.id = some id) : j = i :=
  Option.some.inj (((h id j).mpr hj).symm.trans hi)

/-- A candidate that is joined with others keeps its id, so the positions stay right. -/
theorem Indexed.set (h : m.Indexed) {i : Nat} {d : Candidate} (hd : m.merged[i]? = some d)
    (c : Candidate) : Indexed { m with merged := m.merged.setIfInBounds i (d.absorb c) } := by
  intro id j
  have hids : (m.merged.setIfInBounds i (d.absorb c))[j]?.map Candidate.id =
      m.merged[j]?.map Candidate.id := by
    by_cases hij : i = j
    · subst hij
      have hlt : i < m.merged.size := (Array.getElem?_eq_some_iff.mp hd).1
      rw [Array.getElem?_setIfInBounds_self_of_lt hlt, hd]
      rfl
    · rw [Array.getElem?_setIfInBounds_ne hij]
  exact hids ▸ h id j

/-- A candidate with a new id comes last, at the position that is noted for it. -/
theorem Indexed.push (h : m.Indexed) {c : Candidate} (hnew : m.positions[c.id]? = none) :
    Indexed ⟨m.merged.push c, m.positions.insert c.id m.merged.size⟩ := by
  intro id j
  show (m.positions.insert c.id m.merged.size)[id]? = some j ↔
    (m.merged.push c)[j]?.map Candidate.id = some id
  rw [Std.HashMap.getElem?_insert, Array.getElem?_push]
  by_cases hid : c.id = id
  · -- Of all positions only the last one belongs to the new id.
    subst hid
    rw [if_pos (beq_self_eq_true _), Option.some.injEq]
    constructor
    · rintro rfl
      rw [if_pos rfl]
      rfl
    · intro hj
      split at hj
      · exact Eq.symm ‹_›
      · cases hnew.symm.trans ((h c.id j).mpr hj)
  · -- The last position does not belong to another id.
    rw [if_neg (by simpa using hid)]
    split
    · rename_i hlast
      subst hlast
      have hout : m.merged[m.merged.size]? = none := Array.getElem?_size
      have hnone := h id m.merged.size
      rw [hout] at hnone
      simpa [hid] using hnone
    · exact h id j

/-- A step finds a candidate at the position that it looks up. It joins the candidate as `insert`
does, and the positions are right again. -/
theorem Indexed.add (h : m.Indexed) (c : Candidate) :
    ∃ m', m.add? c = some m' ∧ m'.Indexed ∧ m'.merged.toList = c.insert m.merged.toList := by
  cases hposition : m.positions[c.id]? with
  | some i =>
      obtain ⟨d, hd, hid⟩ := Option.map_eq_some_iff.mp ((h c.id i).mp hposition)
      refine ⟨_, by rw [add?, hposition]; exact congrArg (Option.map _) hd, h.set hd c, ?_⟩
      rw [Array.toList_setIfInBounds]
      refine (Candidate.insert_eq_set ?_ hid fun j hj => h.unique hposition ?_).symm
      · rwa [Array.getElem?_toList]
      · rwa [Array.getElem?_toList] at hj
  | none =>
      refine ⟨_, by rw [add?, hposition], h.push hposition, ?_⟩
      have hnew : c.id ∉ m.merged.toList.map Candidate.id := by
        intro hmem
        obtain ⟨i, hi⟩ := List.mem_iff_getElem?.mp hmem
        rw [List.getElem?_map, Array.getElem?_toList] at hi
        cases hposition.symm.trans ((h c.id i).mpr hi)
      rw [Array.toList_push, Candidate.insert_of_not_mem hnew]

/-- Some steps in a row join the candidates one after the other. -/
theorem Indexed.foldlM (cs : List Candidate) {m : Merging} (h : m.Indexed) :
    ∃ m', cs.foldlM add? m = some m' ∧ m'.Indexed ∧
      m'.merged.toList = cs.foldl (fun merged c => c.insert merged) m.merged.toList := by
  induction cs generalizing m with
  | nil => exact ⟨m, rfl, h, rfl⟩
  | cons c cs ih =>
      obtain ⟨next, hnext, hindexed, hlist⟩ := h.add c
      obtain ⟨m', hm', hindexed', hlist'⟩ := ih hindexed
      refine ⟨m', ?_, hindexed', ?_⟩
      · rw [List.foldlM_cons, hnext]
        exact hm'
      · rw [hlist', hlist, List.foldl_cons]

end Merging

/-- With a map of positions candidates are joined without going wrong, and to the same result as
without it. -/
theorem mergeIndexed?_eq (cs : List Candidate) : mergeIndexed? cs = some (merge cs) := by
  obtain ⟨m, hm, -, hlist⟩ := Merging.indexed_empty.foldlM cs
  rw [mergeIndexed?, hm]
  exact congrArg some hlist

end Caret
