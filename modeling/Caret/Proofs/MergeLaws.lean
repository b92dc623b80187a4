import Caret.Candidate
import Caret.Proofs.FirstOccurrence

/-!
# `Caret.Proofs.MergeLaws`: joining candidates is grouping them by id

`merge` takes candidates one by one and puts each at the candidate of its id. What comes of it can
be said without that order of work: `groups` lists the ids in the order in which they first occur,
each with the chains of all its candidates in the order in which they first occur. `merge_eq_groups`
shows that `merge` computes this, if no candidate has a chain twice.

The laws of `merge` are laws of `groups`. There they follow from erasing repetitions being
compatible with putting lists together (`eraseDups_append_left`, `eraseDups_append_right`) and with
maps that keep elements apart (`eraseDups_map`).
-/

set_option autoImplicit false

namespace Caret

/-! ### Groups -/

/-- The chains of all candidates with an id. -/
def chainsOf (cs : List Candidate) (id : SuggestionId) : List Chain :=
  (cs.filter fun c => c.id = id).flatMap Candidate.contexts

/-- The candidates with one id as a single candidate, for each id in the order in which the ids
first occur. -/
def groups (cs : List Candidate) : List Candidate :=
  (cs.map Candidate.id).eraseDups.map fun id => ⟨id, (chainsOf cs id).eraseDups⟩

section

variable (xs ys cs : List Candidate) (c : Candidate) (id : SuggestionId)

/-- The chains of an id are collected in order. -/
theorem chainsOf_append : chainsOf (xs ++ ys) id = chainsOf xs id ++ chainsOf ys id := by
  simp [chainsOf]

/-- One candidate has chains for its own id only. -/
theorem chainsOf_singleton : chainsOf [c] id = if c.id = id then c.contexts else [] := by
  by_cases hid : c.id = id <;> simp [chainsOf, hid]

variable {cs id} in
/-- An id that does not occur has no chains. -/
theorem chainsOf_eq_nil (h : id ∉ cs.map Candidate.id) : chainsOf cs id = [] := by
  rw [chainsOf, List.filter_eq_nil_iff.mpr, List.flatMap_nil]
  intro c hc hid
  exact h (List.mem_map.mpr ⟨c, hc, of_decide_eq_true hid⟩)

/-- Groups have the ids in the order of their first occurrences. -/
theorem map_id_groups : (groups cs).map Candidate.id = (cs.map Candidate.id).eraseDups := by
  simp [groups, Function.comp_def]

/-- A group has the chains of its candidates, each once. -/
theorem chainsOf_groups : chainsOf (groups cs) id = (chainsOf cs id).eraseDups := by
  have hfilter : (groups cs).filter (fun c => c.id = id) =
      ((cs.map Candidate.id).eraseDups.filter (· = id)).map
        fun id => ⟨id, (chainsOf cs id).eraseDups⟩ := by
    rw [groups, List.filter_map]
    rfl
  rw [chainsOf, hfilter]
  by_cases hid : id ∈ cs.map Candidate.id
  · -- There is one group for an id.
    have hone : (cs.map Candidate.id).eraseDups.filter (· = id) = [id] := by
      have hcount := List.count_eq_one_of_mem (nodup_eraseDups (cs.map Candidate.id))
        (List.mem_eraseDups.mpr hid)
      rw [List.filter_eq, hcount]
      rfl
    rw [hone]
    simp
  · have hnone : (cs.map Candidate.id).eraseDups.filter (· = id) = [] := by
      rw [List.filter_eq_nil_iff]
      intro i hi heq
      rw [of_decide_eq_true heq, List.mem_eraseDups] at hi
      exact hid hi
    rw [hnone, chainsOf_eq_nil hid]
    rfl

/-- Groups are known from the ids and from the chains of each id. -/
theorem groups_congr {xs ys : List Candidate}
    (hids : (xs.map Candidate.id).eraseDups = (ys.map Candidate.id).eraseDups)
    (hchains : ∀ id, (chainsOf xs id).eraseDups = (chainsOf ys id).eraseDups) :
    groups xs = groups ys := by
  simp only [groups, hids, hchains]

/-- Candidates that are grouped already can be grouped with others just as well. -/
theorem groups_append_groups : groups (groups xs ++ groups ys) = groups (xs ++ ys) := by
  apply groups_congr
  · rw [List.map_append, List.map_append, map_id_groups, map_id_groups, eraseDups_append_left,
      eraseDups_append_right]
  · intro id
    rw [chainsOf_append, chainsOf_append, chainsOf_groups, chainsOf_groups, eraseDups_append_left,
      eraseDups_append_right]

/-- What is grouped is not grouped further. -/
theorem groups_groups : groups (groups cs) = groups cs := by
  have happend := groups_append_groups cs []
  rwa [List.append_nil, show groups [] = [] from rfl, List.append_nil] at happend

end

/-! ### Joining one candidate -/

namespace Candidate

variable {c d : Candidate} {m : List Candidate}

/-- A candidate with a new id comes last. -/
theorem insert_of_not_mem (h : c.id ∉ m.map Candidate.id) : c.insert m = m ++ [c] := by
  induction m with
  | nil => rfl
  | cons d m ih =>
      rw [List.map_cons, List.mem_cons, not_or] at h
      rw [insert, if_neg (Ne.symm h.1), ih h.2, List.cons_append]

/-- A candidate with a known id is joined with the candidate of this id, and the others stay as they
are. -/
theorem insert_of_mem (hnodup : (m.map Candidate.id).Nodup) (h : c.id ∈ m.map Candidate.id) :
    c.insert m = m.map fun d => if d.id = c.id then d.absorb c else d := by
  induction m with
  | nil => cases h
  | cons d m ih =>
      rw [List.map_cons, List.nodup_cons] at hnodup
      rw [insert, List.map_cons]
      by_cases hid : d.id = c.id
      · -- No later candidate has the id.
        have hrest : ∀ d' ∈ m, d'.id ≠ c.id := fun d' hd' heq =>
          hnodup.1 (hid ▸ heq ▸ List.mem_map_of_mem hd')
        rw [if_pos hid, if_pos hid, List.map_congr_left fun d' hd' => if_neg (hrest d' hd'),
          List.map_id']
      · rw [if_neg hid, if_neg hid, ih hnodup.2]
        exact (List.mem_cons.mp h).resolve_left (Ne.symm hid)

/-- Joining adds the chains that are new. -/
theorem absorb_eq {chains : List Chain} (h : d.contexts = chains.eraseDups) :
    d.absorb c = ⟨d.id, (chains ++ c.contexts).eraseDups⟩ := by
  rw [absorb, h, foldl_concat_new]

/-- A candidate is joined with groups by joining its id and its chains. -/
theorem insert_groups (hc : c.contexts.Nodup) (cs : List Candidate) :
    c.insert (groups cs) = groups (cs ++ [c]) := by
  have hids : (cs ++ [c]).map Candidate.id = cs.map Candidate.id ++ [c.id] := by simp
  have hmem : c.id ∈ (groups cs).map Candidate.id ↔ c.id ∈ cs.map Candidate.id := by
    rw [map_id_groups, List.mem_eraseDups]
  have hchains : ∀ id, chainsOf (cs ++ [c]) id =
      chainsOf cs id ++ if c.id = id then c.contexts else [] := fun id => by
    rw [chainsOf_append, chainsOf_singleton]
  -- A known id gets more chains at its place, and a new one comes last.
  by_cases hid : c.id ∈ cs.map Candidate.id
  · rw [insert_of_mem (map_id_groups cs ▸ nodup_eraseDups _) (hmem.mpr hid), groups, groups,
      hids, eraseDups_concat_of_mem hid, List.map_map]
    refine List.map_congr_left fun id _ => ?_
    simp only [Function.comp_apply, hchains, eq_comm (a := c.id)]
    by_cases heq : id = c.id
    · rw [if_pos heq, if_pos heq, absorb_eq rfl]
    · rw [if_neg heq, if_neg heq, List.append_nil]
  · rw [insert_of_not_mem (mt hmem.mp hid), groups, groups, hids, eraseDups_concat_of_not_mem hid,
      List.map_append, List.map_singleton, hchains c.id, if_pos rfl, chainsOf_eq_nil hid,
      List.nil_append, eraseDups_of_nodup hc]
    congr 1
    refine List.map_congr_left fun id hmem' => ?_
    -- The ids in front are not the new one.
    have hne : c.id ≠ id := by
      rintro rfl
      exact hid (List.mem_eraseDups.mp hmem')
    rw [hchains, if_neg hne, List.append_nil]

end Candidate

/-! ### The laws -/

/-- Joining candidates is grouping them. -/
theorem merge_eq_groups {cs : List Candidate} (h : ∀ c ∈ cs, c.contexts.Nodup) :
    merge cs = groups cs := by
  induction cs using List.reverseRecOn with
  | nil => rfl
  | append_singleton cs c ih =>
      rw [List.forall_mem_append, List.forall_mem_singleton] at h
      rw [← Candidate.insert_groups h.2, ← ih h.1]
      exact List.foldl_append

/-- In a group no chain occurs twice. -/
theorem nodup_contexts_groups (cs : List Candidate) : ∀ c ∈ groups cs, c.contexts.Nodup := by
  intro c hc
  obtain ⟨id, -, rfl⟩ := List.mem_map.mp hc
  exact nodup_eraseDups _

/-- The candidate with all its chains below a chain. -/
def Candidate.below (outer : Chain) (c : Candidate) : Candidate :=
  ⟨c.id, c.contexts.map (outer ++ ·)⟩

/-- Chains can be put below a chain before or after grouping, since that keeps them apart. -/
theorem groups_map_below (outer : Chain) (cs : List Candidate) :
    groups (cs.map (Candidate.below outer)) = (groups cs).map (Candidate.below outer) := by
  have hids : (cs.map (Candidate.below outer)).map Candidate.id = cs.map Candidate.id := by
    rw [List.map_map]
    rfl
  have hchains : ∀ id, chainsOf (cs.map (Candidate.below outer)) id =
      (chainsOf cs id).map (outer ++ ·) := by
    intro id
    rw [chainsOf, List.filter_map, List.flatMap_map, chainsOf, List.map_flatMap]
    rfl
  rw [groups, groups, hids, List.map_map]
  refine List.map_congr_left fun id _ => ?_
  rw [hchains, eraseDups_map (List.append_right_injective outer)]
  rfl

/-- Joined candidates have the ids in the order of their first occurrences, each with all its chains
in the order of their first occurrences. Joining twice is joining once, parts can be joined before
the whole, and chains can be put below a chain before or after. -/
theorem merge_laws (xs ys : List Candidate) (hxs : ∀ c ∈ xs, c.contexts.Nodup)
    (hys : ∀ c ∈ ys, c.contexts.Nodup) :
    (merge xs).map Candidate.id = (xs.map Candidate.id).eraseDups ∧
    (∀ c ∈ merge xs, c.contexts =
      ((xs.filter fun d => d.id = c.id).flatMap Candidate.contexts).eraseDups) ∧
    merge (merge xs) = merge xs ∧
    merge (xs ++ ys) = merge (merge xs ++ merge ys) ∧
    ∀ outer, merge (xs.map (Candidate.below outer)) = (merge xs).map (Candidate.below outer) := by
  have hboth : ∀ c ∈ xs ++ ys, c.contexts.Nodup := List.forall_mem_append.mpr ⟨hxs, hys⟩
  have hgroups : ∀ c ∈ groups xs ++ groups ys, c.contexts.Nodup :=
    List.forall_mem_append.mpr ⟨nodup_contexts_groups xs, nodup_contexts_groups ys⟩
  -- No chain occurs twice below a chain either, so all lists that are joined can be grouped
  -- instead.
  have hbelow : ∀ outer, ∀ c ∈ xs.map (Candidate.below outer), c.contexts.Nodup := by
    intro outer c hc
    obtain ⟨d, hd, rfl⟩ := List.mem_map.mp hc
    exact (hxs d hd).map (List.append_right_injective outer)
  rw [merge_eq_groups hxs, merge_eq_groups hys, merge_eq_groups hboth, merge_eq_groups hgroups,
    merge_eq_groups (nodup_contexts_groups xs)]
  refine ⟨map_id_groups xs, fun c hc => ?_, groups_groups xs, (groups_append_groups xs ys).symm,
    fun outer => ?_⟩
  · obtain ⟨id, -, rfl⟩ := List.mem_map.mp hc
    rfl
  · rw [merge_eq_groups (hbelow outer), groups_map_below]

/-- A token type in two chains with a rule of the same number in between. -/
def innerCandidates : List Candidate :=
  [⟨.token 2, [[0]]⟩, ⟨.rule 2, []⟩, ⟨.token 2, [[0, 1], [0]]⟩]

/-- The rule comes first, and the token type comes with a known chain and a new one. -/
def laterCandidates : List Candidate := [⟨.rule 2, [[3]]⟩, ⟨.token 2, [[0, 1], [4]]⟩]

/-- A known chain is not repeated, a new one comes last, and the rule keeps its place although it
comes first in the second part. -/
theorem candidates_merge_in_parts :
    merge innerCandidates = [⟨.token 2, [[0], [0, 1]]⟩, ⟨.rule 2, []⟩] ∧
    merge (merge innerCandidates ++ merge laterCandidates) =
      [⟨.token 2, [[0], [0, 1], [4]]⟩, ⟨.rule 2, [[3]]⟩] ∧
    merge (innerCandidates.map (Candidate.below [7])) =
      [⟨.token 2, [[7, 0], [7, 0, 1]]⟩, ⟨.rule 2, []⟩] := by
  obtain ⟨-, -, -, hparts, hbelow⟩ :=
    merge_laws innerCandidates laterCandidates (by decide) (by decide)
  refine ⟨by decide, ?_, ?_⟩
  · rw [← hparts]
    decide
  · rw [hbelow]
    decide

end Caret
