import Caret.Proofs.SetOperations

/-!
# `Caret.Proofs.CanonicalSets`: one set of integers, one list of intervals

Canonical intervals are a normal form. The first interval starts at the least member and stops at
the first number that is missing, and what is behind it are the members that are not in it. So
canonical interval sets with the same members are the same list of intervals (`Canonical.ext`).

After that a law of interval sets is a law of sets of integers. `Represents.unique` makes this step:
two interval sets that stand for one set of integers are equal, whatever operations made them.
`sets_are_canonical` collects what follows for sets made by operations. `edge_admits_its_symbols`
applies it to the labels of edges: an edge admits a symbol when it is read exactly if it lists the
symbol where it is suggested.
-/

set_option autoImplicit false

namespace Caret

namespace IntervalSet

/-! ### The first interval -/

section

variable {i : Interval} {is : List Interval} {v : Int}

/-- A number of the set is in the first interval or in a later one. -/
theorem mem_cons : v ∈ IntervalSet.mk (i :: is) ↔ v ∈ i ∨ v ∈ IntervalSet.mk is := by
  simp only [mem_def, List.mem_cons, exists_eq_or_imp]

namespace Canonical

variable (h : Canonical ⟨i :: is⟩)
include h

/-- What is left without the first interval is canonical too. This is what the induction in
`Canonical.ext` goes down to. -/
theorem tail : Canonical ⟨is⟩ where
  nonempty j hj := h.nonempty j (List.mem_cons_of_mem i hj)
  apart := (List.pairwise_cons.mp h.apart).2

/-- The first interval is not empty. -/
theorem start_lt_stop : i.start < i.stop := h.nonempty i List.mem_cons_self

/-- The number at which the first interval stops lies before all later intervals. -/
theorem stop_lt_of_mem_tail (hv : v ∈ IntervalSet.mk is) : i.stop < v := by
  obtain ⟨j, hj, hlow, -⟩ := hv
  have hapart := (List.pairwise_cons.mp h.apart).1 j hj
  omega

/-- So its start is in the set. -/
theorem start_mem : i.start ∈ IntervalSet.mk (i :: is) :=
  mem_cons.mpr (Or.inl ⟨Int.le_refl _, h.start_lt_stop⟩)

/-- It is the least number of the set. -/
theorem start_le_of_mem (hv : v ∈ IntervalSet.mk (i :: is)) : i.start ≤ v := by
  rcases mem_cons.mp hv with hv | hv
  · exact hv.1
  · have hlt := h.start_lt_stop
    have hbehind := h.stop_lt_of_mem_tail hv
    omega

/-- The first interval ends where the first number is missing. If an interval could touch the next
one, this would fail. -/
theorem stop_not_mem : i.stop ∉ IntervalSet.mk (i :: is) := by
  intro hv
  rcases mem_cons.mp hv with hv | hv
  · exact Int.lt_irrefl _ hv.2
  · exact Int.lt_irrefl _ (h.stop_lt_of_mem_tail hv)

/-- The later intervals hold what the first one does not. -/
theorem mem_tail_iff : v ∈ IntervalSet.mk is ↔ v ∈ IntervalSet.mk (i :: is) ∧ v ∉ i := by
  constructor
  · intro hv
    refine ⟨mem_cons.mpr (Or.inr hv), fun hi => ?_⟩
    have hbehind := h.stop_lt_of_mem_tail hv
    have hbefore := hi.2
    omega
  · rintro ⟨hv, hi⟩
    exact (mem_cons.mp hv).resolve_left hi

end Canonical

end

/-- Canonical interval sets with the same members have the same first interval. -/
theorem Canonical.head_eq {i j : Interval} {is js : List Interval} (hs : Canonical ⟨i :: is⟩)
    (ht : Canonical ⟨j :: js⟩)
    (h : ∀ v, v ∈ IntervalSet.mk (i :: is) ↔ v ∈ IntervalSet.mk (j :: js)) : i = j := by
  have hstart : i.start = j.start :=
    Int.le_antisymm (hs.start_le_of_mem ((h _).mpr ht.start_mem))
      (ht.start_le_of_mem ((h _).mp hs.start_mem))
  have hi := hs.start_lt_stop
  have hj := ht.start_lt_stop
  -- The interval that stops first would be missing a number that the other one holds.
  have hstop : i.stop = j.stop := by
    rcases Int.lt_trichotomy i.stop j.stop with hlt | heq | hgt
    · have hmem : i.stop ∈ IntervalSet.mk (j :: js) :=
        mem_cons.mpr (Or.inl ⟨by omega, hlt⟩)
      exact absurd ((h _).mpr hmem) hs.stop_not_mem
    · exact heq
    · have hmem : j.stop ∈ IntervalSet.mk (i :: is) :=
        mem_cons.mpr (Or.inl ⟨by omega, hgt⟩)
      exact absurd ((h _).mp hmem) ht.stop_not_mem
  cases i
  cases j
  simp_all

/-- Canonical interval sets with the same members are equal. -/
theorem Canonical.ext {s t : IntervalSet} (hs : s.Canonical) (ht : t.Canonical)
    (h : ∀ v, v ∈ s ↔ v ∈ t) : s = t := by
  obtain ⟨is⟩ := s
  obtain ⟨js⟩ := t
  induction is generalizing js with
  | nil =>
      cases js with
      | nil => rfl
      | cons j js => exact absurd ((h _).mpr ht.start_mem) (not_mem_empty _)
  | cons i is ih =>
      cases js with
      | nil => exact absurd ((h _).mp hs.start_mem) (not_mem_empty _)
      | cons j js =>
          obtain rfl := hs.head_eq ht h
          have htail : IntervalSet.mk is = ⟨js⟩ := ih hs.tail js ht.tail fun v => by
            rw [hs.mem_tail_iff, ht.mem_tail_iff, h]
          cases htail
          rfl

/-- A set of integers has one representation. -/
theorem Represents.unique {s t : IntervalSet} {A : Set Int} (hs : s.Represents A)
    (ht : t.Represents A) : s = t :=
  hs.canonical.ext ht.canonical fun v => (hs.mem_iff v).trans (ht.mem_iff v).symm

end IntervalSet

/-! ### Sets made by operations -/

open IntervalSet

namespace SetOperation

/-- Operations that mean the same set make the same intervals. -/
theorem run_eq_of_meaning_eq {ops ops' : List SetOperation} {s : IntervalSet}
    (h : run ops = .ok s) (hops : ∀ op ∈ ops', op.InRange) (hmeaning : meaning ops' = meaning ops) :
    run ops' = .ok s := by
  obtain ⟨t, ht, hrepresents⟩ := represents_empty.foldlM hops
  have heq : t = s := Represents.unique (hmeaning ▸ hrepresents) (represents_of_run h)
  exact heq ▸ ht

/-- The operation adds values to the set that is there. -/
def Adds : SetOperation → Prop
  | .add _ | .addValue _ => True
  | _ => False

/-- The values that an operation adds do not depend on the set that is there. -/
theorem Adds.members_eq {op : SetOperation} (h : op.Adds) (A : Set Int) :
    op.members A = A ∪ op.members ∅ := by
  cases op <;> simp_all [Adds, members]

/-- Two operations that add can change places. -/
theorem Adds.comm {op op' : SetOperation} (h : op.Adds) (h' : op'.Adds) (A : Set Int) :
    op'.members (op.members A) = op.members (op'.members A) := by
  rw [h'.members_eq (op.members A), h.members_eq A, h.members_eq (op'.members A), h'.members_eq A]
  exact Set.union_right_comm _ _ _

/-- Values can be added in any order. -/
theorem meaning_append_perm (ops : List SetOperation) {adds adds' : List SetOperation}
    (hadds : ∀ op ∈ adds, op.Adds) (hperm : adds.Perm adds') :
    meaning (ops ++ adds') = meaning (ops ++ adds) := by
  show (ops ++ adds').foldl members ∅ = (ops ++ adds).foldl members ∅
  rw [List.foldl_append, List.foldl_append]
  refine (hperm.foldl_eq' (fun op hop op' hop' A => ?_) _).symm
  exact (hadds op hop).comm (hadds op' hop') A

/-- The numbers that the operation is given. -/
def numbers : SetOperation → List Int
  | .empty => []
  | .ofValue v | .addValue v | .removeValue v => [v]
  | .closed first last => [first, last]
  | .ofList vs => vs
  | .add i | .remove i => [i.start, i.stop]
  | .complement low high => [low, high]

/-- All numbers of the operation are signed 32-bit numbers. -/
def Fits (op : SetOperation) : Prop := ∀ v ∈ op.numbers, int32Min ≤ v ∧ v ≤ int32Max

/-- An operation on signed 32-bit numbers has members of this kind. The greatest one is left out,
since an interval ends behind its last value. -/
theorem members_subset {op : SetOperation} (hfits : op.Fits) (hop : op.InRange) {A : Set Int}
    (hA : A ⊆ Set.Ico int32Min int32Max) : op.members A ⊆ Set.Ico int32Min int32Max := by
  intro v hv
  -- What is built from one number reaches from it to the next one, so the number itself must not be
  -- the last of its type.
  cases op with
  | empty => cases hv
  | ofValue u =>
      obtain rfl : v = u := hv
      exact ⟨(hfits v (by simp [numbers])).1, hop⟩
  | closed first last =>
      exact ⟨Int.le_trans (hfits first (by simp [numbers])).1 hv.1, Int.lt_of_le_of_lt hv.2 hop⟩
  | ofList vs => exact ⟨(hfits v hv).1, hop v hv⟩
  | add i =>
      rcases hv with hv | hv
      · exact hA hv
      · exact ⟨Int.le_trans (hfits i.start (by simp [numbers])).1 hv.1,
          Int.lt_of_lt_of_le hv.2 (hfits i.stop (by simp [numbers])).2⟩
  | addValue u =>
      rcases hv with hv | hv
      · exact hA hv
      · obtain rfl : v = u := hv
        exact ⟨(hfits v (by simp [numbers])).1, hop⟩
  | remove i => exact hA hv.1
  | removeValue u => exact hA hv.1
  | complement low high =>
      exact ⟨Int.le_trans (hfits low (by simp [numbers])).1 hv.1.1, Int.lt_of_le_of_lt hv.1.2 hop⟩

/-- A sequence of operations on signed 32-bit numbers means a set of such numbers, without the
greatest one. -/
theorem meaning_subset {ops : List SetOperation} (hfits : ∀ op ∈ ops, op.Fits)
    (hops : ∀ op ∈ ops, op.InRange) : meaning ops ⊆ Set.Ico int32Min int32Max := by
  -- The last operation is split off: it works on what the others have made.
  induction ops using List.reverseRecOn with
  | nil => exact Set.empty_subset _
  | append_singleton ops op ih =>
      have hlast : meaning (ops ++ [op]) = op.members (meaning ops) := List.foldl_append
      rw [List.forall_mem_append, List.forall_mem_singleton] at hfits hops
      rw [hlast]
      exact members_subset hfits.2 hops.2 (ih hfits.1 hops.1)

end SetOperation

namespace IntervalSet.Represents

variable {s : IntervalSet} {A : Set Int}

/-- Adding an interval adds its numbers. -/
theorem add (h : s.Represents A) (i : Interval) :
    (s.add i).Represents (A ∪ Set.Ico i.start i.stop) := by
  obtain ⟨t, ht, hrepresents⟩ := h.apply (show (SetOperation.add i).InRange from trivial)
  cases ht
  exact hrepresents

/-- Taking an interval away takes its numbers away. -/
theorem remove (h : s.Represents A) (i : Interval) :
    (s.remove i).Represents (A \ Set.Ico i.start i.stop) := by
  obtain ⟨t, ht, hrepresents⟩ := h.apply (show (SetOperation.remove i).InRange from trivial)
  cases ht
  exact hrepresents

/-- An interval that has nothing in common with the set is added and taken away again. -/
theorem remove_add (h : s.Represents A) {i : Interval}
    (hi : ∀ v ∈ A, v ∉ Set.Ico i.start i.stop) : (s.add i).remove i = s := by
  refine unique ((h.add i).remove i) ?_
  rwa [Set.union_sdiff_right, sdiff_eq_left.mpr (Set.disjoint_left.mpr hi)]

/-- Between two numbers, what is missing in what is missing is what was there. -/
theorem complement_complement (h : s.Represents A) (low : Int) {high : Int}
    (hhigh : high < int32Max) {bottom top : Int} (hA : A ⊆ Set.Ico bottom top) :
    (s.complement? low high).bind (·.complement? low high) =
      .ok ((s.remove ⟨bottom, low⟩).remove ⟨high + 1, top⟩) := by
  have hop : (SetOperation.complement low high).InRange := hhigh
  obtain ⟨t, ht, hmissing⟩ := h.apply hop
  obtain ⟨u, hu, hthere⟩ := hmissing.apply hop
  have hsame : Set.Icc low high \ (Set.Icc low high \ A) =
      (A \ Set.Ico bottom low) \ Set.Ico (high + 1) top := by
    -- For a number that was there the bounds decide, and one that was not there is missing on both
    -- sides.
    ext v
    simp only [Set.mem_sdiff, Set.mem_Icc, Set.mem_Ico]
    by_cases hv : v ∈ A
    · have hbounds := hA hv
      simp only [hv, not_true_eq_false, and_false, not_false_eq_true, and_true, true_and,
        Set.mem_Ico] at hbounds ⊢
      omega
    · simp [hv]
  have heq : u = (s.remove ⟨bottom, low⟩).remove ⟨high + 1, top⟩ := by
    refine unique (A := (A \ Set.Ico bottom low) \ Set.Ico (high + 1) top) ?_
      ((h.remove _).remove _)
    rw [← hsame]
    exact hthere
  rw [show s.complement? low high = .ok t from ht, ← heq]
  exact hu

end IntervalSet.Represents

/-- Interval sets that are made by operations are equal exactly if they contain the same numbers. So
the order in which values are added does not matter, an interval that is apart from the set is added
and taken away again, and the numbers from `low` to `high` that are missing among the missing ones
are what is left of the set without the numbers outside. -/
theorem sets_are_canonical {ops ops' : List SetOperation} {s t : IntervalSet}
    (hs : SetOperation.run ops = .ok s) (ht : SetOperation.run ops' = .ok t) :
    (s = t ↔ ∀ v, s.contains v = t.contains v) ∧
    (∀ adds adds' : List SetOperation, (∀ op ∈ adds, op.Adds) → adds.Perm adds' →
      ∀ u, SetOperation.run (ops ++ adds) = .ok u → SetOperation.run (ops ++ adds') = .ok u) ∧
    (∀ i : Interval, (∀ v, s.contains v = true → i.contains v = false) →
      (s.add i).remove i = s) ∧
    ((∀ op ∈ ops, op.Fits) → ∀ low high, high < int32Max →
      (s.complement? low high).bind (·.complement? low high) =
        .ok ((s.remove ⟨int32Min, low⟩).remove ⟨high + 1, int32Max⟩)) := by
  have hrepresents := SetOperation.represents_of_run hs
  have hrepresents' := SetOperation.represents_of_run ht
  refine ⟨⟨fun heq v => heq ▸ rfl, fun hsame => ?_⟩, fun adds adds' hadds hperm u hu => ?_,
    fun i hi => ?_, fun hfits low high hhigh => ?_⟩
  · -- Equal members make equal intervals.
    refine hrepresents.canonical.ext hrepresents'.canonical fun v => ?_
    rw [← contains_iff hrepresents.canonical, hsame, contains_iff hrepresents'.canonical]
  · refine SetOperation.run_eq_of_meaning_eq hu (fun op hop => ?_)
      (SetOperation.meaning_append_perm ops hadds hperm)
    exact SetOperation.inRange_of_foldlM hu op ((hperm.append_left ops).mem_iff.mpr hop)
  · refine hrepresents.remove_add fun v hv hmem => ?_
    have hapart := hi v ((hrepresents.contains_iff v).mpr hv)
    rw [(i.contains_iff v).mpr hmem] at hapart
    cases hapart
  · exact hrepresents.complement_complement low hhigh
      (SetOperation.meaning_subset hfits (SetOperation.inRange_of_foldlM hs))

/-- Other operations than `sampleOperations` for the same set. -/
def directOperations : List SetOperation :=
  [.ofList [9, 4, 7], .add ⟨3, 8⟩, .addValue 8, .removeValue 6, .removeValue 3]

/-- The interval from 6 to 7 joins the two of the set. Taking it away again separates them. -/
theorem sample_sets_are_canonical :
    SetOperation.run sampleOperations = SetOperation.run directOperations ∧
    SetOperation.run (sampleOperations ++ [.addValue 12, .add ⟨6, 7⟩]) =
      SetOperation.run (sampleOperations ++ [.add ⟨6, 7⟩, .addValue 12]) ∧
    ∃ s, SetOperation.run sampleOperations = .ok s ∧ (s.add ⟨6, 7⟩).remove ⟨6, 7⟩ = s ∧
      (s.complement? 5 8).bind (·.complement? 5 8) = .ok ⟨[⟨5, 6⟩, ⟨7, 9⟩]⟩ := by
  have hs : SetOperation.run sampleOperations = .ok ⟨[⟨4, 6⟩, ⟨7, 10⟩]⟩ := by cbv
  have ht : SetOperation.run directOperations = .ok ⟨[⟨4, 6⟩, ⟨7, 10⟩]⟩ := by cbv
  have hadds : SetOperation.run (sampleOperations ++ [.addValue 12, .add ⟨6, 7⟩]) =
      .ok ⟨[⟨4, 10⟩, ⟨12, 13⟩]⟩ := by cbv
  obtain ⟨-, hperm, hrestore, htwice⟩ := sets_are_canonical hs ht
  refine ⟨hs.trans ht.symm, ?_, _, hs, hrestore _ fun v hv => ?_, ?_⟩
  · rw [hadds, hperm _ _ (by simp [SetOperation.Adds]) (.swap _ _ []) _ hadds]
  · -- The interval holds the number 6 only, which is not in the set.
    rw [← Bool.not_eq_true, Interval.contains_iff]
    rintro ⟨hlow, hhigh⟩
    obtain rfl : v = 6 := by simp only at hlow hhigh; omega
    have hsix : contains ⟨[⟨4, 6⟩, ⟨7, 10⟩]⟩ 6 = false := by cbv
    rw [hsix] at hv
    cases hv
  · rw [htwice ?_ 5 8 (by decide)]
    · rfl
    · simp [sampleOperations, SetOperation.Fits, SetOperation.numbers, int32Min, int32Max]

/-! ### Labels -/

namespace Label

/-- The set that the label stores, if it stores one, was made by operations. -/
def Built : Label → Prop
  | .oneOf set | .noneOf set => ∃ ops, SetOperation.run ops = .ok set
  | .symbol _ | .any => True

/-- A label whose set was made by operations stores canonical intervals. -/
theorem Built.canonical {l : Label} (h : l.Built) : l.Canonical := by
  cases l with
  | symbol value => trivial
  | oneOf set =>
      obtain ⟨ops, hops⟩ := h
      exact (SetOperation.represents_of_run hops).canonical
  | noneOf set =>
      obtain ⟨ops, hops⟩ := h
      exact (SetOperation.represents_of_run hops).canonical
  | any => trivial

/-- Behind the last symbol that the label has to name there is another number. -/
def InRange (u : Universe) : Label → Prop
  | .symbol value => value < int32Max
  | .oneOf _ => True
  | .noneOf _ | .any => u.high < int32Max

variable {u : Universe} {l : Label} {set : IntervalSet}

/-- The symbols of a label in range are a canonical set. -/
theorem exists_symbols (hl : l.Canonical) (h : l.InRange u) :
    ∃ set, l.symbols u = .ok set ∧ set.Canonical := by
  cases l with
  | symbol value =>
      obtain ⟨set, hset, hcanonical, -⟩ := ofValue?_spec h
      exact ⟨set, hset, hcanonical⟩
  | oneOf set => exact ⟨set, rfl, hl⟩
  | noneOf set =>
      obtain ⟨left, hleft, hcanonical, -⟩ := complement?_spec set u.low h
      exact ⟨left, hleft, hcanonical⟩
  | any =>
      obtain ⟨all, hall, hcanonical, -⟩ := closed?_spec u.low h
      exact ⟨all, hall, hcanonical⟩

/-- Conversely, if the symbols can be listed then nothing was out of range. -/
theorem inRange_of_symbols (h : l.symbols u = .ok set) : l.InRange u := by
  cases l with
  | symbol value => exact lt_of_ofValue? h
  | oneOf set => trivial
  | noneOf set => exact lt_of_complement? h
  | any => exact lt_of_closed? h

end Label

/-- An edge admits the symbols that it lists, whatever numbers it ranges over. It lists none exactly
if it reads nothing, and the list is there unless the number behind its last symbol is out of
range. -/
theorem edge_admits_its_symbols (u : Universe) {e : Edge}
    (he : ∀ l, e.label? = some l → l.Built) :
    ((∃ r, e.symbols? u = .ok r) ↔ ∀ l, e.label? = some l → l.InRange u) ∧
    ∀ r, e.symbols? u = .ok r →
      (∀ v, (e.admits u v = true ↔ ∃ set, r = some set ∧ set.contains v = true) ∧
        (e.admits u v = true ↔ ∃ set, r = some set ∧ v ∈ set.toList)) ∧
      (r = none ↔ e.isEpsilon = true) ∧
      (e.isEpsilon = true ↔ ∀ target label, e ≠ .read target label) := by
  cases e with
  | read target l =>
      have hl : l.Canonical := (he l rfl).canonical
      -- The symbols of the edge are those of its label, and they are there if those are.
      have hsymbols : ∀ r, Edge.symbols? u (.read target l) = .ok r ↔
          ∃ set, l.symbols u = .ok set ∧ r = some set := by
        intro r
        rw [Edge.symbols?_read]
        cases l.symbols u <;> simp [Except.map, eq_comm]
      refine ⟨?_, fun r hr => ?_⟩
      · constructor
        · rintro ⟨r, hr⟩ l' hl'
          cases hl'
          obtain ⟨set, hset, -⟩ := (hsymbols r).mp hr
          exact Label.inRange_of_symbols hset
        · intro hrange
          obtain ⟨set, hset, -⟩ := Label.exists_symbols hl (hrange l rfl)
          exact ⟨some set, (hsymbols _).mpr ⟨set, hset, rfl⟩⟩
      · obtain ⟨set, hset, rfl⟩ := (hsymbols r).mp hr
        obtain ⟨set', hset', hcanonical⟩ :=
          Label.exists_symbols hl (Label.inRange_of_symbols hset)
        cases hset.symm.trans hset'
        have hlists : ∀ v, Edge.admits u (.read target l) v = true ↔ v ∈ set.toList := fun v =>
          (Label.mem_symbols_iff hl hset v).symm
        refine ⟨fun v => ⟨?_, ?_⟩, ?_, ?_⟩
        · simp [hlists, contains_iff hcanonical, mem_toList]
        · simp [hlists]
        · simp [Edge.isEpsilon, Edge.label?]
        · simp [Edge.isEpsilon, Edge.label?]
  | _ => simp [Edge.symbols?, Edge.label?, Edge.admits, Edge.isEpsilon]

/-- Some of the numbers that the label leaves out are not in its range, or cut it at the border. -/
theorem cut_edge_admits_its_symbols :
    (∀ r, Edge.symbols? ⟨3, 8⟩ (.read 7 (.noneOf ⟨[⟨-1, 4⟩, ⟨6, 7⟩, ⟨8, 12⟩]⟩)) = .ok r →
      r = some ⟨[⟨4, 6⟩, ⟨7, 8⟩]⟩) ∧
    ∀ v, Edge.admits ⟨3, 8⟩ (.read 7 (.noneOf ⟨[⟨-1, 4⟩, ⟨6, 7⟩, ⟨8, 12⟩]⟩)) v = true ↔
      v ∈ [4, 5, 7] := by
  have hset : SetOperation.run [.closed (-1) 3, .addValue 6, .add ⟨8, 12⟩] =
      .ok ⟨[⟨-1, 4⟩, ⟨6, 7⟩, ⟨8, 12⟩]⟩ := by cbv
  have hsymbols : Edge.symbols? ⟨3, 8⟩ (.read 7 (.noneOf ⟨[⟨-1, 4⟩, ⟨6, 7⟩, ⟨8, 12⟩]⟩)) =
      .ok (some ⟨[⟨4, 6⟩, ⟨7, 8⟩]⟩) := by cbv
  refine ⟨fun r hr => ?_, fun v => ?_⟩
  · cases hsymbols.symm.trans hr
    rfl
  · have hbuilt : ∀ l, Edge.label? (.read 7 (.noneOf ⟨[⟨-1, 4⟩, ⟨6, 7⟩, ⟨8, 12⟩]⟩)) = some l →
        l.Built := by
      rintro l ⟨⟩
      exact ⟨_, hset⟩
    have hlists := (((edge_admits_its_symbols ⟨3, 8⟩ hbuilt).2 _ hsymbols).1 v).2
    rw [hlists]
    simp only [Option.some.injEq, exists_eq_left']
    rfl

end Caret
