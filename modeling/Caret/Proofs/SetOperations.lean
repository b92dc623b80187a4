import Mathlib
import Caret.Proofs.IntervalSet

/-!
# `Caret.Proofs.SetOperations`: interval sets after any number of operations

An interval set is made by a sequence of operations. `SetOperation` lists them: some make a set
anew, the others change the set that is there. Next to what an operation does to the intervals
(`SetOperation.apply`) stands what it means for a set of integers (`SetOperation.members`).

`s.Represents A` says all that can be asked of the intervals in `s` when they stand for the set `A`.
One operation keeps this up (`Represents.apply`), and so `operations_represent` holds of all
sequences of operations. An operation fails only where the number behind one of its values is out of
range (`SetOperation.InRange`).
-/

set_option autoImplicit false

namespace Caret

/-! ### Operations -/

/-- An operation that makes an interval set, anew or out of the one before. -/
inductive SetOperation where
  | empty
  | ofValue (v : Int)
  | closed (first last : Int)
  | ofList (vs : List Int)
  | add (i : Interval)
  | addValue (v : Int)
  | remove (i : Interval)
  | removeValue (v : Int)
  | complement (low high : Int)

namespace SetOperation

/-- What the operation makes of an interval set. -/
def apply (s : IntervalSet) : SetOperation → Except Overflow IntervalSet
  | .empty => .ok .empty
  | .ofValue v => IntervalSet.ofValue? v
  | .closed first last => IntervalSet.closed? first last
  | .ofList vs => IntervalSet.ofList? vs
  | .add i => .ok (s.add i)
  | .addValue v => s.addValue? v
  | .remove i => .ok (s.remove i)
  | .removeValue v => s.removeValue? v
  | .complement low high => s.complement? low high

/-- What the operation makes of a set of integers. -/
def members (A : Set Int) : SetOperation → Set Int
  | .empty => ∅
  | .ofValue v => {v}
  | .closed first last => Set.Icc first last
  | .ofList vs => {v | v ∈ vs}
  | .add i => A ∪ Set.Ico i.start i.stop
  | .addValue v => A ∪ {v}
  | .remove i => A \ Set.Ico i.start i.stop
  | .removeValue v => A \ {v}
  | .complement low high => Set.Icc low high \ A

/-- Behind each value that the operation ends an interval with there is another number. -/
def InRange : SetOperation → Prop
  | .ofValue v => v < int32Max
  | .closed _ last => last < int32Max
  | .ofList vs => ∀ v ∈ vs, v < int32Max
  | .addValue v => v < int32Max
  | .removeValue v => v < int32Max
  | .complement _ high => high < int32Max
  | .empty | .add _ | .remove _ => True

/-- The interval set that operations make, one after the other. -/
def run (ops : List SetOperation) : Except Overflow IntervalSet :=
  ops.foldlM apply .empty

/-- The set of integers that operations make, one after the other. -/
def meaning (ops : List SetOperation) : Set Int := ops.foldl members ∅

end SetOperation

namespace IntervalSet

/-! ### Standing for a set of integers -/

/-- The intervals stand for the set of integers: they are canonical, a value is found by halving
exactly if it is in the set, and the values are listed in ascending order and counted. -/
structure Represents (s : IntervalSet) (A : Set Int) : Prop where
  canonical : s.Canonical
  contains_iff : ∀ v, s.contains v = true ↔ v ∈ A
  ascending : s.toList.Pairwise (· < ·)
  mem_toList : ∀ v, v ∈ s.toList ↔ v ∈ A
  size_eq : s.size = A.ncard

/-- There are as many values in the list as are counted. -/
theorem length_toList (s : IntervalSet) : s.toList.length = s.size := by
  obtain ⟨is⟩ := s
  induction is with
  | nil => rfl
  | cons i is ih =>
      simp only [toList, size, List.flatMap_cons, List.length_append, List.foldr_cons] at ih ⊢
      rw [ih]
      simp [Interval.toList]

/-- Canonical intervals stand for the set of their members. -/
theorem Canonical.represents {s : IntervalSet} {A : Set Int} (h : s.Canonical)
    (hmem : ∀ v, v ∈ s ↔ v ∈ A) : s.Represents A where
  canonical := h
  contains_iff v := (s.contains_iff h v).trans (hmem v)
  ascending := h.pairwise_toList
  mem_toList v := (s.mem_toList v).trans (hmem v)
  size_eq := by
    -- The list has no value twice, so that it has as many values as the set.
    have hnodup : s.toList.Nodup := h.pairwise_toList.imp fun hlt => Int.ne_of_lt hlt
    have hA : A = (s.toList.toFinset : Set Int) := by
      ext v
      rw [List.coe_toFinset, Set.mem_ofPred_eq, s.mem_toList v, hmem]
    rw [hA, Set.ncard_coe_finset, List.toFinset_card_of_nodup hnodup, length_toList]

/-- No intervals stand for the empty set. -/
theorem represents_empty : empty.Represents ∅ :=
  canonical_empty.represents fun v => by simp [not_mem_empty]

/-- The members are those of the set. -/
theorem Represents.mem_iff {s : IntervalSet} {A : Set Int} (h : s.Represents A) (v : Int) :
    v ∈ s ↔ v ∈ A :=
  (s.mem_toList v).symm.trans (h.mem_toList v)

/-! ### Numbers in range -/

/-- One value is an interval unless it is the greatest number. -/
theorem interval_ofValue? (v : Int) : Interval.ofValue? v =
    if v < int32Max then .ok (.ofValue v) else .error .addition := by
  unfold Interval.ofValue? int32Succ
  split <;> rfl

/-- A value is added unless it is the greatest number. -/
theorem addValue?_eq (s : IntervalSet) {v : Int} (hv : v < int32Max) :
    s.addValue? v = .ok (s.add (.ofValue v)) := by
  rw [addValue?, interval_ofValue?, if_pos hv]
  rfl

/-- A value that could be added is not the greatest number. -/
theorem lt_of_addValue? {s t : IntervalSet} {v : Int} (h : s.addValue? v = .ok t) :
    v < int32Max := by
  by_contra hv
  rw [addValue?, interval_ofValue?, if_neg hv] at h
  cases h

/-- A value is removed unless it is the greatest number. -/
theorem removeValue?_eq (s : IntervalSet) {v : Int} (hv : v < int32Max) :
    s.removeValue? v = .ok (s.remove (.ofValue v)) := by
  rw [removeValue?, interval_ofValue?, if_pos hv]
  rfl

/-- A value that could be removed is not the greatest number. -/
theorem lt_of_removeValue? {s t : IntervalSet} {v : Int} (h : s.removeValue? v = .ok t) :
    v < int32Max := by
  by_contra hv
  rw [removeValue?, interval_ofValue?, if_neg hv] at h
  cases h

/-- Where the rest could be taken, there is a number behind the last value. -/
theorem lt_of_complement? {s t : IntervalSet} {low high : Int}
    (h : s.complement? low high = .ok t) : high < int32Max := by
  cases hall : closed? low high with
  | error cause =>
      rw [complement?, hall] at h
      cases h
  | ok all => exact lt_of_closed? hall

/-- Values that are in range are added one after the other. -/
theorem foldlM_addValue? (vs : List Int) (s : IntervalSet) (hvs : ∀ v ∈ vs, v < int32Max) :
    vs.foldlM addValue? s = .ok (vs.foldl (fun s v => s.add (.ofValue v)) s) := by
  induction vs generalizing s with
  | nil => rfl
  | cons v vs ih =>
      rw [List.foldlM_cons, addValue?_eq s (hvs v List.mem_cons_self)]
      exact ih _ fun u hu => hvs u (List.mem_cons_of_mem _ hu)

/-- If values could be added one after the other, each of them is in range. -/
theorem lt_of_foldlM_addValue? {vs : List Int} {s t : IntervalSet}
    (h : vs.foldlM addValue? s = .ok t) : ∀ v ∈ vs, v < int32Max := by
  induction vs generalizing s with
  | nil => simp
  | cons v vs ih =>
      rw [List.foldlM_cons] at h
      cases hv : s.addValue? v with
      | error cause =>
          rw [hv] at h
          cases h
      | ok next =>
          rw [hv] at h
          exact List.forall_mem_cons.mpr ⟨lt_of_addValue? hv, ih h⟩

end IntervalSet

/-! ### One operation -/

open IntervalSet

/-- The values of an interval of one value. -/
theorem Interval.mem_ofValue {u v : Int} : u ∈ Interval.ofValue v ↔ u = v := by
  show v ≤ u ∧ u < v + 1 ↔ u = v
  omega

/-- An operation in range makes intervals that stand for the set that it means. -/
theorem IntervalSet.Represents.apply {s : IntervalSet} {A : Set Int} (h : s.Represents A)
    {op : SetOperation} (hop : op.InRange) :
    ∃ t, op.apply s = .ok t ∧ t.Represents (op.members A) := by
  -- One case for each operation. The specification of the operation says what its members are, and
  -- this is carried over to the set that the intervals stood for.
  cases op with
  | empty => exact ⟨_, rfl, represents_empty⟩
  | ofValue v =>
      obtain ⟨t, ht, hcanonical, hmem⟩ := ofValue?_spec hop
      exact ⟨t, ht, hcanonical.represents hmem⟩
  | closed first last =>
      obtain ⟨t, ht, hcanonical, hmem⟩ := closed?_spec first hop
      exact ⟨t, ht, hcanonical.represents hmem⟩
  | ofList vs =>
      obtain ⟨hcanonical, hmem⟩ := ofList_spec vs
      exact ⟨_, foldlM_addValue? vs _ hop, hcanonical.represents hmem⟩
  | add i =>
      obtain ⟨hcanonical, hmem⟩ := add_spec h.canonical i
      exact ⟨_, rfl, hcanonical.represents fun v => (hmem v).trans (or_congr_left (h.mem_iff v))⟩
  | addValue v =>
      obtain ⟨hcanonical, hmem⟩ := add_spec h.canonical (.ofValue v)
      exact ⟨_, addValue?_eq s hop, hcanonical.represents fun u =>
        (hmem u).trans (or_congr (h.mem_iff u) Interval.mem_ofValue)⟩
  | remove i =>
      obtain ⟨hcanonical, hmem⟩ := remove_spec h.canonical i
      exact ⟨_, rfl, hcanonical.represents fun v => (hmem v).trans (and_congr_left' (h.mem_iff v))⟩
  | removeValue v =>
      obtain ⟨hcanonical, hmem⟩ := remove_spec h.canonical (.ofValue v)
      exact ⟨_, removeValue?_eq s hop, hcanonical.represents fun u =>
        (hmem u).trans (and_congr (h.mem_iff u) (not_congr Interval.mem_ofValue))⟩
  | complement low high =>
      obtain ⟨t, ht, hcanonical, hmem⟩ := complement?_spec s low hop
      exact ⟨t, ht, hcanonical.represents fun v =>
        (hmem v).trans (and_congr_right' (not_congr (h.mem_iff v)))⟩

/-- An operation that succeeds is in range. -/
theorem SetOperation.inRange_of_apply {s t : IntervalSet} {op : SetOperation}
    (h : op.apply s = .ok t) : op.InRange := by
  cases op with
  | empty => trivial
  | ofValue v => exact lt_of_ofValue? h
  | closed first last => exact lt_of_closed? h
  | ofList vs => exact lt_of_foldlM_addValue? h
  | add i => trivial
  | addValue v => exact lt_of_addValue? h
  | remove i => trivial
  | removeValue v => exact lt_of_removeValue? h
  | complement low high => exact lt_of_complement? h

/-! ### Sequences of operations -/

/-- Operations in range make intervals that stand for the set that they mean. -/
theorem IntervalSet.Represents.foldlM {ops : List SetOperation} {s : IntervalSet} {A : Set Int}
    (h : s.Represents A) (hops : ∀ op ∈ ops, op.InRange) :
    ∃ t, ops.foldlM SetOperation.apply s = .ok t ∧
      t.Represents (ops.foldl SetOperation.members A) := by
  -- Both the intervals and the set change from one operation to the next.
  induction ops generalizing s A with
  | nil => exact ⟨s, rfl, h⟩
  | cons op ops ih =>
      obtain ⟨next, hnext, hrepresents⟩ := h.apply (hops op List.mem_cons_self)
      rw [List.foldlM_cons, hnext]
      exact ih hrepresents fun op' hop' => hops op' (List.mem_cons_of_mem _ hop')

/-- The operations of a sequence that succeeds are in range. -/
theorem SetOperation.inRange_of_foldlM {ops : List SetOperation} {s t : IntervalSet}
    (h : ops.foldlM SetOperation.apply s = .ok t) : ∀ op ∈ ops, op.InRange := by
  induction ops generalizing s with
  | nil => simp
  | cons op ops ih =>
      rw [List.foldlM_cons] at h
      cases hnext : op.apply s with
      | error cause =>
          rw [hnext] at h
          cases h
      | ok next =>
          rw [hnext] at h
          exact List.forall_mem_cons.mpr ⟨inRange_of_apply hnext, ih h⟩

/-- A sequence that succeeds makes intervals that stand for the set that it means: each of its
operations was in range. -/
theorem SetOperation.represents_of_run {ops : List SetOperation} {s : IntervalSet}
    (h : run ops = .ok s) : s.Represents (meaning ops) := by
  obtain ⟨t, ht, hrepresents⟩ := represents_empty.foldlM (inRange_of_foldlM h)
  cases h.symm.trans ht
  exact hrepresents

/-- A sequence of operations succeeds exactly if each of them is in range, and then its intervals
stand for the set of integers that the sequence means. -/
theorem operations_represent (ops : List SetOperation) :
    ((∃ s, SetOperation.run ops = .ok s) ↔ ∀ op ∈ ops, op.InRange) ∧
      ∀ s, SetOperation.run ops = .ok s → s.Represents (SetOperation.meaning ops) := by
  refine ⟨⟨fun ⟨s, hs⟩ => SetOperation.inRange_of_foldlM hs, fun hops => ?_⟩,
    fun s hs => SetOperation.represents_of_run hs⟩
  obtain ⟨s, hs, -⟩ := represents_empty.foldlM hops
  exact ⟨s, hs⟩

/-- Two ranges are joined by what lies between them, an inverted interval adds nothing, an interval
in the middle is taken away, and the rest is looked for from 3 to 9. -/
def sampleOperations : List SetOperation :=
  [.closed 1 2, .add ⟨5, 7⟩, .add ⟨3, 5⟩, .add ⟨9, 4⟩, .remove ⟨4, 6⟩, .addValue (-1),
    .complement 3 9]

/-- The sample ends with two intervals, which stand for what it means. -/
theorem sample_operations_represent :
    SetOperation.run sampleOperations = .ok ⟨[⟨4, 6⟩, ⟨7, 10⟩]⟩ ∧
      IntervalSet.Represents ⟨[⟨4, 6⟩, ⟨7, 10⟩]⟩ (SetOperation.meaning sampleOperations) := by
  have hrun : SetOperation.run sampleOperations = .ok ⟨[⟨4, 6⟩, ⟨7, 10⟩]⟩ := by cbv
  exact ⟨hrun, (operations_represent sampleOperations).2 _ hrun⟩

end Caret
