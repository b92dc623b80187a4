import Mathlib
import Caret.Candidate

/-!
# `Caret.Proofs.Merge`: joining candidates

A finding is an id with one chain, and candidates stand for a list of findings. Joining candidates
notes their findings one after the other, each at the candidate of its id.

* `mem_findings_merge`: joining neither adds nor loses a finding.
* `noteAll_findings`: what is joined already can be joined with other candidates just as well. The
  result is the one of joining the findings themselves, also in its order.
* `map_id_noteAll`: the ids come in the order in which they are first noted.
* `noteAll_map_under`: joining can be done before or after all chains are put below a rule.
-/

set_option autoImplicit false

namespace Caret

/-- Something that was found, with the rules that were open. -/
abbrev Finding := SuggestionId × Chain

/-- The candidate that stands for one finding. -/
def Finding.candidate (x : Finding) : Candidate := ⟨x.1, [x.2]⟩

/-- The findings that candidates stand for, in order. -/
def findings (cs : List Candidate) : List Finding :=
  cs.flatMap fun c => c.contexts.map fun chain => (c.id, chain)

/-- The candidate with one more chain, unless it is there already. -/
def Candidate.noted (d : Candidate) (chain : Chain) : Candidate :=
  d.absorb ⟨d.id, [chain]⟩

/-- The candidates after one more finding. -/
def note (m : List Candidate) (x : Finding) : List Candidate := x.candidate.insert m

/-- The candidates after some more findings. -/
def noteAll (m : List Candidate) (xs : List Finding) : List Candidate := xs.foldl note m

/-- To join findings is to note them one after the other. -/
theorem merge_map_candidate (xs : List Finding) :
    merge (xs.map Finding.candidate) = noteAll [] xs := by
  rw [merge, List.foldl_map]
  rfl

section

variable {m : List Candidate} {d : Candidate} {x y : Finding} {c chain : Chain}

/-- The findings of the first candidate come first. -/
theorem findings_cons (d : Candidate) (m : List Candidate) :
    findings (d :: m) = d.contexts.map (fun chain => (d.id, chain)) ++ findings m := by
  simp [findings]

/-- Noting a chain does not change the id. -/
@[simp] theorem Candidate.id_noted : (d.noted chain).id = d.id := rfl

/-- A known chain is not noted again. -/
theorem Candidate.noted_of_mem (h : chain ∈ d.contexts) : d.noted chain = d := by
  rw [noted, absorb, List.foldl_cons, List.foldl_nil, if_pos h]

/-- A new chain is noted behind the others. -/
theorem Candidate.noted_of_not_mem (h : chain ∉ d.contexts) :
    d.noted chain = ⟨d.id, d.contexts ++ [chain]⟩ := by
  rw [noted, absorb, List.foldl_cons, List.foldl_nil, if_neg h]

/-- After noting a chain it is there, and all others are still there. -/
@[simp] theorem Candidate.mem_noted :
    c ∈ (d.noted chain).contexts ↔ c = chain ∨ c ∈ d.contexts := by
  by_cases hmem : chain ∈ d.contexts
  · rw [noted_of_mem hmem]
    constructor
    · exact Or.inr
    · rintro (rfl | hc)
      · exact hmem
      · exact hc
  · simp [noted_of_not_mem hmem, or_comm]

/-- The first finding makes a candidate. -/
theorem note_nil (x : Finding) : note [] x = [x.candidate] := rfl

/-- A finding is noted at the candidate of its id. -/
theorem note_cons_of_eq (h : d.id = x.1) : note (d :: m) x = d.noted x.2 :: m := by
  have habsorb : d.absorb x.candidate = d.noted x.2 := rfl
  exact (if_pos h).trans (by rw [habsorb])

/-- Candidates of other ids are passed over. -/
theorem note_cons_of_ne (h : d.id ≠ x.1) : note (d :: m) x = d :: note m x := if_neg h

end

/-! ### Findings stay -/

section

variable {m : List Candidate} {x y : Finding} {xs : List Finding}

/-- Noting a finding adds this one and loses none. -/
theorem mem_findings_note : y ∈ findings (note m x) ↔ y = x ∨ y ∈ findings m := by
  induction m with
  | nil => simp [note_nil, findings, Finding.candidate]
  | cons d m ih =>
      by_cases hid : d.id = x.1
      · rw [note_cons_of_eq hid, findings_cons, findings_cons]
        simp only [List.mem_append, List.mem_map, Candidate.id_noted, Candidate.mem_noted]
        constructor
        · -- The finding is the new chain, one that the candidate had, or one of a later candidate.
          rintro (⟨c, rfl | hc, rfl⟩ | hy)
          · exact Or.inl (Prod.ext hid rfl)
          · exact Or.inr (Or.inl ⟨c, hc, rfl⟩)
          · exact Or.inr (Or.inr hy)
        · rintro (rfl | ⟨c, hc, rfl⟩ | hy)
          · exact Or.inl ⟨y.2, Or.inl rfl, Prod.ext hid rfl⟩
          · exact Or.inl ⟨c, Or.inr hc, rfl⟩
          · exact Or.inr hy
      · rw [note_cons_of_ne hid, findings_cons, findings_cons, List.mem_append, ih, List.mem_append]
        exact or_left_comm

/-- The same for findings one after the other. -/
theorem mem_findings_noteAll : y ∈ findings (noteAll m xs) ↔ y ∈ xs ∨ y ∈ findings m := by
  induction xs generalizing m with
  | nil => simp [noteAll]
  | cons x xs ih =>
      show y ∈ findings (noteAll (note m x) xs) ↔ _
      rw [ih, mem_findings_note, List.mem_cons, or_left_comm, or_assoc]

/-- Joining neither adds nor loses a finding. -/
theorem mem_findings_merge : y ∈ findings (merge (xs.map Finding.candidate)) ↔ y ∈ xs := by
  rw [merge_map_candidate, mem_findings_noteAll]
  simp [findings]

/-- What was just noted need not be noted again. -/
theorem note_note_self : note (note m x) x = note m x := by
  induction m with
  | nil =>
      rw [note_nil, note_cons_of_eq rfl, Candidate.noted_of_mem]
      exact List.mem_cons_self
  | cons d m ih =>
      by_cases hid : d.id = x.1
      · have hmem : x.2 ∈ (d.noted x.2).contexts := Candidate.mem_noted.mpr (Or.inl rfl)
        rw [note_cons_of_eq hid, note_cons_of_eq (d := d.noted x.2) hid,
          Candidate.noted_of_mem hmem]
      · rw [note_cons_of_ne hid, note_cons_of_ne hid, ih]

/-- What is noted stays noted. -/
theorem note_note_of_eq (h : note m x = m) : note (note m y) x = note m y := by
  induction m with
  | nil => cases h
  | cons d m ih =>
      by_cases hid : d.id = x.1
      · -- The chain is one of the candidate in front, and stays one of it.
        rw [note_cons_of_eq hid] at h
        have hmem : x.2 ∈ d.contexts := by
          rw [← (List.cons.inj h).1]
          exact Candidate.mem_noted.mpr (Or.inl rfl)
        by_cases hid' : d.id = y.1
        · have hmem' : x.2 ∈ (d.noted y.2).contexts := Candidate.mem_noted.mpr (Or.inr hmem)
          rw [note_cons_of_eq hid', note_cons_of_eq (d := d.noted y.2) hid,
            Candidate.noted_of_mem hmem']
        · rw [note_cons_of_ne hid', note_cons_of_eq hid, Candidate.noted_of_mem hmem]
      · rw [note_cons_of_ne hid] at h
        have hrest := (List.cons.inj h).2
        by_cases hid' : d.id = y.1
        · rw [note_cons_of_eq hid', note_cons_of_ne (d := d.noted y.2) hid, hrest]
        · rw [note_cons_of_ne hid', note_cons_of_ne hid, ih hrest]

/-- What is noted stays noted, whatever is noted later. -/
theorem note_noteAll_of_eq (h : note m x = m) : note (noteAll m xs) x = noteAll m xs := by
  induction xs generalizing m with
  | nil => exact h
  | cons y xs ih => exact ih (note_note_of_eq h)

/-- A finding that is among those noted need not be noted again. -/
theorem note_noteAll_of_mem (h : x ∈ xs) : note (noteAll m xs) x = noteAll m xs := by
  induction xs generalizing m with
  | nil => cases h
  | cons y xs ih =>
      show note (noteAll (note m y) xs) x = noteAll (note m y) xs
      rcases List.mem_cons.mp h with rfl | h
      · exact note_noteAll_of_eq note_note_self
      · exact ih h

end

/-! ### Ids in the order in which they come up -/

/-- The ids after one more, which stands behind the others if it is new. -/
def addId (seen : List SuggestionId) (id : SuggestionId) : List SuggestionId :=
  if id ∈ seen then seen else seen ++ [id]

/-- The ids after some more. -/
def addIds (seen is : List SuggestionId) : List SuggestionId := is.foldl addId seen

section

variable {seen is : List SuggestionId} {id : SuggestionId}

/-- Ids can be added in two parts. -/
theorem addIds_append (seen is js : List SuggestionId) :
    addIds seen (is ++ js) = addIds (addIds seen is) js := List.foldl_append

/-- After adding an id it is there. -/
theorem mem_addId {i : SuggestionId} : id ∈ addId seen i ↔ id ∈ seen ∨ id = i := by
  rw [addId]
  split
  · rename_i hi
    exact ⟨Or.inl, fun h => h.elim (fun h => h) fun h => h ▸ hi⟩
  · rw [List.mem_append, List.mem_singleton]

/-- After adding ids they are all there. -/
theorem mem_addIds : id ∈ addIds seen is ↔ id ∈ seen ∨ id ∈ is := by
  induction is generalizing seen with
  | nil => simp [addIds]
  | cons i is ih =>
      show id ∈ addIds (addId seen i) is ↔ _
      rw [ih, mem_addId, List.mem_cons, or_assoc]

/-- Ids that are there already change nothing. -/
theorem addIds_of_subset (h : ∀ id ∈ is, id ∈ seen) : addIds seen is = seen := by
  induction is with
  | nil => rfl
  | cons i is ih =>
      show addIds (addId seen i) is = seen
      rw [addId, if_pos (h i List.mem_cons_self)]
      exact ih fun id hid => h id (List.mem_cons_of_mem _ hid)

/-- Ids that came up before change nothing when they come up again. -/
theorem addIds_again (seen is js : List SuggestionId) :
    addIds seen (is ++ js ++ is) = addIds seen (is ++ js) := by
  rw [addIds_append seen (is ++ js)]
  refine addIds_of_subset fun id hid => ?_
  exact mem_addIds.mpr (Or.inr (List.mem_append_left js hid))

end

/-- Noting a finding adds its id. -/
theorem map_id_note (m : List Candidate) (x : Finding) :
    (note m x).map Candidate.id = addId (m.map Candidate.id) x.1 := by
  induction m with
  | nil => rfl
  | cons d m ih =>
      by_cases hid : d.id = x.1
      · rw [note_cons_of_eq hid, addId, List.map_cons, if_pos (by simp [hid])]
        rfl
      · -- The id in front is another one, so it does not matter whether the id is known.
        have hmem : x.1 ∈ d.id :: m.map Candidate.id ↔ x.1 ∈ m.map Candidate.id := by
          simp [Ne.symm hid]
        rw [note_cons_of_ne hid, List.map_cons, ih, List.map_cons, addId, addId]
        simp only [hmem]
        split
        · rfl
        · rfl

/-- Joined candidates have the ids of their findings, in the order in which they come up. -/
theorem map_id_noteAll (m : List Candidate) (xs : List Finding) :
    (noteAll m xs).map Candidate.id = addIds (m.map Candidate.id) (xs.map Prod.fst) := by
  induction xs generalizing m with
  | nil => rfl
  | cons x xs ih =>
      show (noteAll (note m x) xs).map Candidate.id = addIds (addId _ x.1) (xs.map Prod.fst)
      rw [ih, map_id_note]

/-! ### Findings of different ids -/

section

variable {m : List Candidate} {x y : Finding} {xs ys : List Finding}

/-- There is a candidate for the id of a finding once it is noted. -/
theorem mem_map_id_note {id : SuggestionId} :
    id ∈ (note m x).map Candidate.id ↔ id = x.1 ∨ id ∈ m.map Candidate.id := by
  rw [map_id_note, mem_addId, or_comm]

/-- The same for several findings. -/
theorem mem_map_id_noteAll {id : SuggestionId} :
    id ∈ (noteAll m xs).map Candidate.id ↔ id ∈ xs.map Prod.fst ∨ id ∈ m.map Candidate.id := by
  rw [map_id_noteAll, mem_addIds, or_comm]

/-- A finding has the id of its candidate. -/
theorem mem_map_id_of_mem_findings (h : x ∈ findings m) : x.1 ∈ m.map Candidate.id := by
  obtain ⟨c, hc, hx⟩ := List.mem_flatMap.mp h
  obtain ⟨chain, -, rfl⟩ := List.mem_map.mp hx
  exact List.mem_map_of_mem hc

/-- Once there is a candidate of an id, its findings and those of another id do not depend on each
other. -/
theorem note_comm (hx : x.1 ∈ m.map Candidate.id) (hne : x.1 ≠ y.1) :
    note (note m x) y = note (note m y) x := by
  induction m with
  | nil => cases hx
  | cons d m ih =>
      by_cases hid : d.id = x.1
      · have hid' : d.id ≠ y.1 := fun heq => hne (hid.symm.trans heq)
        rw [note_cons_of_eq hid, note_cons_of_ne (d := d.noted x.2) hid', note_cons_of_ne hid',
          note_cons_of_eq hid]
      · -- The candidate of the id is further on, so the induction applies.
        have hrest : x.1 ∈ m.map Candidate.id := by
          rcases List.mem_cons.mp hx with heq | hrest
          · exact absurd heq.symm hid
          · exact hrest
        by_cases hid' : d.id = y.1
        · rw [note_cons_of_ne hid, note_cons_of_eq hid', note_cons_of_eq hid',
            note_cons_of_ne (d := d.noted y.2) hid]
        · rw [note_cons_of_ne hid, note_cons_of_ne hid', note_cons_of_ne hid', note_cons_of_ne hid,
            ih hrest]

/-- A finding may as well be noted behind findings of other ids, once there is a candidate for its
id. -/
theorem noteAll_note_comm (hx : x.1 ∈ m.map Candidate.id) (hne : ∀ y ∈ ys, x.1 ≠ y.1) :
    noteAll (note m x) ys = note (noteAll m ys) x := by
  induction ys generalizing m with
  | nil => rfl
  | cons y ys ih =>
      show noteAll (note (note m x) y) ys = note (noteAll (note m y) ys) x
      rw [note_comm hx (hne y List.mem_cons_self)]
      exact ih (mem_map_id_note.mpr (Or.inr hx)) fun y' hy' => hne y' (List.mem_cons_of_mem _ hy')

/-- Candidates that come of joining: one for each id, and each with a chain. -/
structure Joined (m : List Candidate) : Prop where
  nodup : (m.map Candidate.id).Nodup
  contexts_ne_nil : ∀ c ∈ m, c.contexts ≠ []

/-- No candidates are joined. -/
theorem joined_nil : Joined [] := ⟨List.nodup_nil, by simp⟩

/-- Noting a finding keeps candidates joined. -/
theorem Joined.note (h : Joined m) (x : Finding) : Joined (note m x) := by
  induction m with
  | nil => exact ⟨List.nodup_singleton _, by simp [note_nil, Finding.candidate]⟩
  | cons d m ih =>
      obtain ⟨hnodup, hcontexts⟩ := h
      rw [List.map_cons, List.nodup_cons] at hnodup
      have hrest : ∀ c ∈ m, c.contexts ≠ [] := fun c hc => hcontexts c (List.mem_cons_of_mem _ hc)
      by_cases hid : d.id = x.1
      · rw [note_cons_of_eq hid]
        refine ⟨List.nodup_cons.mpr hnodup, fun c hc => ?_⟩
        rcases List.mem_cons.mp hc with rfl | hc
        · have hmem : x.2 ∈ (d.noted x.2).contexts := Candidate.mem_noted.mpr (Or.inl rfl)
          exact List.ne_nil_of_mem hmem
        · exact hrest c hc
      · rw [note_cons_of_ne hid]
        obtain ⟨hnodup', hcontexts'⟩ := ih ⟨hnodup.2, hrest⟩
        refine ⟨List.nodup_cons.mpr ⟨fun hmem => ?_, hnodup'⟩, fun c hc => ?_⟩
        · rcases mem_map_id_note.mp hmem with heq | hmem
          · exact hid heq
          · exact hnodup.1 hmem
        · rcases List.mem_cons.mp hc with rfl | hc
          · exact hcontexts c List.mem_cons_self
          · exact hcontexts' c hc

/-- So does noting several. -/
theorem Joined.noteAll (h : Joined m) (xs : List Finding) : Joined (noteAll m xs) := by
  induction xs generalizing m with
  | nil => exact h
  | cons x xs ih => exact ih (h.note x)

/-- What comes of joining is joined. -/
theorem joined_merge (xs : List Finding) : Joined (merge (xs.map Finding.candidate)) := by
  rw [merge_map_candidate]
  exact joined_nil.noteAll xs

/-- Findings can be noted in two parts. -/
theorem noteAll_append (m : List Candidate) (xs ys : List Finding) :
    noteAll m (xs ++ ys) = noteAll (noteAll m xs) ys := List.foldl_append

/-- Noting a finding with what is joined, and then all its findings elsewhere, is noting the finding
there last. -/
theorem noteAll_findings_note {joined : List Candidate} (h : Joined joined)
    (m : List Candidate) :
    noteAll m (findings (note joined x)) = note (noteAll m (findings joined)) x := by
  induction joined generalizing m with
  | nil => rfl
  | cons d joined ih =>
      obtain ⟨hnodup, hcontexts⟩ := h
      rw [List.map_cons, List.nodup_cons] at hnodup
      by_cases hid : d.id = x.1
      · have hx : (d.id, x.2) = x := Prod.ext hid rfl
        rw [note_cons_of_eq hid]
        by_cases hmem : x.2 ∈ d.contexts
        · -- The finding is there already.
          rw [Candidate.noted_of_mem hmem, note_noteAll_of_mem]
          rw [findings_cons, ← hx]
          exact List.mem_append_left _ (List.mem_map_of_mem hmem)
        · -- It is noted behind those of its candidate, and those that come later have other ids.
          rw [findings_cons, findings_cons, Candidate.noted_of_not_mem hmem, List.map_append,
            List.map_singleton, hx, noteAll_append, noteAll_append, noteAll_append]
          refine noteAll_note_comm ?_ ?_
          · obtain ⟨c, hc⟩ := List.exists_mem_of_ne_nil _ (hcontexts d List.mem_cons_self)
            refine mem_map_id_noteAll.mpr (Or.inl (List.mem_map.mpr ⟨(d.id, c), ?_, hid⟩))
            exact List.mem_map_of_mem hc
          · intro y hy heq
            refine hnodup.1 ?_
            rw [hid, heq]
            exact mem_map_id_of_mem_findings hy
      · have hjoined : Joined joined :=
          ⟨hnodup.2, fun c hc => hcontexts c (List.mem_cons_of_mem _ hc)⟩
        rw [note_cons_of_ne hid, findings_cons, findings_cons, noteAll_append, noteAll_append,
          ih hjoined]

/-- What is joined already can be joined with other candidates just as well. -/
theorem noteAll_findings (m : List Candidate) (xs : List Finding) :
    noteAll m (findings (noteAll [] xs)) = noteAll m xs := by
  -- From the end of the list: the last finding is noted last on both sides.
  induction xs using List.reverseRecOn with
  | nil => rfl
  | append_singleton xs x ih =>
      have hjoined : Joined (noteAll [] xs) := joined_nil.noteAll xs
      have hlast : noteAll [] (xs ++ [x]) = note (noteAll [] xs) x := noteAll_append [] xs [x]
      rw [hlast, noteAll_findings_note hjoined, ih, noteAll_append]
      rfl

end

/-! ### Putting chains below a rule -/

/-- The finding as it is seen from outside a rule. -/
def Finding.under (r : RuleIndex) (x : Finding) : Finding := (x.1, r :: x.2)

/-- The candidate as it is seen from outside a rule. -/
def Candidate.under (r : RuleIndex) (c : Candidate) : Candidate := ⟨c.id, c.contexts.map (r :: ·)⟩

section

variable (r : RuleIndex)

/-- Findings of candidates below a rule are findings below the rule. -/
theorem findings_map_under (m : List Candidate) :
    findings (m.map (Candidate.under r)) = (findings m).map (Finding.under r) := by
  induction m with
  | nil => rfl
  | cons d m ih =>
      rw [List.map_cons, findings_cons, findings_cons, ih, List.map_append]
      simp [Candidate.under, Finding.under]

/-- A chain is new below a rule just if it is new without it. -/
theorem Candidate.noted_under (d : Candidate) (chain : Chain) :
    (d.under r).noted (r :: chain) = (d.noted chain).under r := by
  have hmem : r :: chain ∈ d.contexts.map (r :: ·) ↔ chain ∈ d.contexts := by simp
  by_cases hchain : chain ∈ d.contexts
  · rw [noted_of_mem hchain, noted_of_mem (hmem.mpr hchain)]
  · have hnot : r :: chain ∉ (d.under r).contexts := fun h => hchain (hmem.mp h)
    rw [noted_of_not_mem hnot, noted_of_not_mem hchain]
    simp [under]

/-- A finding can be noted before or after candidates are put below a rule. -/
theorem note_map_under (m : List Candidate) (x : Finding) :
    note (m.map (Candidate.under r)) (x.under r) = (note m x).map (Candidate.under r) := by
  induction m with
  | nil => rfl
  | cons d m ih =>
      rw [List.map_cons]
      by_cases hid : d.id = x.1
      · rw [note_cons_of_eq hid, note_cons_of_eq (d := d.under r) (x := x.under r) hid,
          List.map_cons, ← Candidate.noted_under]
        rfl
      · rw [note_cons_of_ne hid, note_cons_of_ne (d := d.under r) (x := x.under r) hid,
          List.map_cons, ih]

/-- Findings can be joined before or after they are put below a rule. -/
theorem noteAll_map_under (m : List Candidate) (xs : List Finding) :
    noteAll (m.map (Candidate.under r)) (xs.map (Finding.under r)) =
      (noteAll m xs).map (Candidate.under r) := by
  induction xs generalizing m with
  | nil => rfl
  | cons x xs ih =>
      show noteAll (note (m.map (Candidate.under r)) (x.under r)) (xs.map (Finding.under r)) = _
      rw [note_map_under, ih]
      rfl

end

end Caret
