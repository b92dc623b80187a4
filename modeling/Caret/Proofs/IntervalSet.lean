import Mathlib
import Caret.Network.Edge
import Caret.Proofs.Bisection

/-!
# `Caret.Proofs.IntervalSet`: interval sets as sets of integers

An interval set is canonical when its intervals are non-empty, in ascending order, and apart from
each other. On canonical sets the operations are the operations on sets of integers:

* `contains_iff`: looking up a value by halving finds the members.
* `add_spec` and `remove_spec`: adding and removing an interval, which keep a set canonical.
* `ofList_spec` and `complement?_spec`: the sets that labels are made of.
* `toList_eq_of_mem_iff`: the values of a canonical set are listed in ascending order, so a set is
  known from its members.
* `Label.mem_symbols_iff`: a label lists the symbols that it admits.
-/

set_option autoImplicit false

namespace Caret

/-! ### Intervals -/

/-- A value lies in an interval if it is not below the start and below the stop. -/
instance : Membership Int Interval := ⟨fun i v => i.start ≤ v ∧ v < i.stop⟩

/-- Membership by the bounds. -/
theorem Interval.mem_def {i : Interval} {v : Int} : v ∈ i ↔ i.start ≤ v ∧ v < i.stop := Iff.rfl

/-- The test for a value decides membership. -/
theorem Interval.contains_iff (i : Interval) (v : Int) : i.contains v = true ↔ v ∈ i := by
  simp [Interval.contains, Interval.mem_def]

/-- The values of an interval are listed, and nothing else is. -/
theorem Interval.mem_toList (i : Interval) (v : Int) : v ∈ i.toList ↔ v ∈ i := by
  simp only [Interval.toList, Interval.size, List.mem_map, List.mem_range, Interval.mem_def]
  constructor
  · rintro ⟨k, hk, rfl⟩
    omega
  · rintro ⟨hstart, hstop⟩
    exact ⟨(v - i.start).toNat, by omega, by omega⟩

/-- The values of an interval are listed in ascending order. -/
theorem Interval.pairwise_toList (i : Interval) : i.toList.Pairwise (· < ·) := by
  unfold Interval.toList
  rw [List.pairwise_map]
  refine List.pairwise_lt_range.imp ?_
  intro a b hab
  omega

/-- What is left of an interval when another one is taken away. -/
theorem Interval.exists_mem_without (i other : Interval) (v : Int) :
    (∃ j ∈ i.without other, v ∈ j) ↔ v ∈ i ∧ v ∉ other := by
  simp only [Interval.mem_def]
  unfold Interval.without
  split
  · simp only [List.mem_singleton, exists_eq_left]
    omega
  · simp only [List.mem_filter, List.mem_cons, List.not_mem_nil, or_false, Interval.isEmpty,
      Bool.not_eq_true', decide_eq_false_iff_not]
    constructor
    · rintro ⟨j, ⟨rfl | rfl, -⟩, hv⟩ <;> simp only at hv <;> omega
    · rintro ⟨hv, hnot⟩
      -- A value outside the other interval is below it or above it.
      by_cases hlt : v < other.start
      · exact ⟨⟨i.start, other.start⟩, ⟨Or.inl rfl, by simp only; omega⟩, by simp only; omega⟩
      · exact ⟨⟨other.stop, i.stop⟩, ⟨Or.inr rfl, by simp only; omega⟩, by simp only; omega⟩

/-- The parts that are left are not empty, lie within the interval, and are apart. -/
theorem Interval.without_spec (i other : Interval) (hi : i.start < i.stop)
    (hother : other.start < other.stop) :
    (∀ j ∈ i.without other, j.start < j.stop ∧ i.start ≤ j.start ∧ j.stop ≤ i.stop) ∧
      (i.without other).Pairwise fun j k => j.stop < k.start := by
  unfold Interval.without
  split
  · simp [hi]
  · constructor
    · intro j hj
      simp only [List.mem_filter, List.mem_cons, List.not_mem_nil, or_false, Interval.isEmpty,
        Bool.not_eq_true', decide_eq_false_iff_not] at hj
      obtain ⟨rfl | rfl, hne⟩ := hj <;> simp only at hne ⊢ <;> omega
    · refine List.Pairwise.filter _ ?_
      simp [hother]

/-! ### Canonical sets -/

namespace IntervalSet

/-- A value is in a set if it lies in one of the intervals. -/
instance : Membership Int IntervalSet := ⟨fun s v => ∃ i ∈ s.intervals, v ∈ i⟩

/-- Membership by the intervals. -/
theorem mem_def {s : IntervalSet} {v : Int} : v ∈ s ↔ ∃ i ∈ s.intervals, v ∈ i := Iff.rfl

/-- The intervals are not empty, stand in ascending order, and do not touch. -/
structure Canonical (s : IntervalSet) : Prop where
  nonempty : ∀ i ∈ s.intervals, i.start < i.stop
  apart : s.intervals.Pairwise fun i j => i.stop < j.start

/-- The empty set is canonical. -/
theorem canonical_empty : empty.Canonical := ⟨by simp [empty], by simp [empty]⟩

/-- It has no members. -/
theorem not_mem_empty (v : Int) : v ∉ empty := by simp [mem_def, empty]

/-- In a canonical set the intervals that end before a bound come first. -/
theorem Canonical.exists_split {s : IntervalSet} (h : s.Canonical) (p : Int → Bool)
    (hp : ∀ a b, a ≤ b → p b = true → p a = true) :
    ∃ before after, s.intervals = before ++ after ∧ (∀ i ∈ before, p i.stop = true) ∧
      ∀ i ∈ after, p i.stop = false := by
  refine exists_split_of_pairwise (fun i => p i.stop) s.intervals ?_
  -- Intervals that are apart also end in ascending order.
  have hstops : s.intervals.Pairwise fun i j => i.stop ≤ j.stop :=
    h.apart.imp_of_mem fun {i j} _ hj hij => by
      have := h.nonempty j hj
      omega
  exact hstops.imp fun hij hq => hp _ _ hij hq

/-- A value is looked up by halving. In a canonical set this finds the members. -/
theorem contains_iff {s : IntervalSet} (h : s.Canonical) (v : Int) :
    s.contains v = true ↔ v ∈ s := by
  obtain ⟨before, after, hsplit, hbefore, hafter⟩ :=
    h.exists_split (fun stop => decide (stop ≤ v)) fun a b hab hb => by simp at hb ⊢; omega
  have hpoint : partitionPoint (fun j => decide (j.stop ≤ v)) s.intervals = before.length := by
    rw [hsplit]
    exact partitionPoint_append _ before after hbefore hafter
  have hapart := h.apart
  rw [hsplit, List.pairwise_append] at hapart
  unfold contains
  rw [hpoint, mem_def, hsplit, List.getElem?_append_right (Nat.le_refl _), Nat.sub_self]
  constructor
  · intro hfound
    cases after with
    | nil => simp at hfound
    | cons i rest => exact ⟨i, by simp, (i.contains_iff v).mp (by simpa using hfound)⟩
  · rintro ⟨i, hi, hv⟩
    rcases List.mem_append.mp hi with hi | hi
    · -- The intervals before the place that was found end too early.
      have hstop := hbefore i hi
      rw [Interval.mem_def] at hv
      simp only [decide_eq_true_eq] at hstop
      omega
    · cases after with
      | nil => simp at hi
      | cons j rest =>
          rcases List.mem_cons.mp hi with rfl | hrest
          · simpa using (i.contains_iff v).mpr hv
          · -- A later interval starts behind the end of `j`, which is above `v`.
            have hlater := (List.pairwise_cons.mp hapart.2.1).1 i hrest
            have hj := hafter j (by simp)
            simp only [decide_eq_false_iff_not] at hj
            rw [Interval.mem_def] at hv
            omega

/-- The members of a set are listed. -/
theorem mem_toList (s : IntervalSet) (v : Int) : v ∈ s.toList ↔ v ∈ s := by
  simp only [toList, List.mem_flatMap, Interval.mem_toList, mem_def]

/-- The members of a canonical set are listed in ascending order. -/
theorem Canonical.pairwise_toList {s : IntervalSet} (h : s.Canonical) :
    s.toList.Pairwise (· < ·) := by
  unfold toList
  rw [List.pairwise_flatMap]
  refine ⟨fun i _ => i.pairwise_toList, h.apart.imp ?_⟩
  intro i j hij v hv u hu
  rw [Interval.mem_toList, Interval.mem_def] at hv hu
  omega

/-- A canonical set lists its members in ascending order, so an ascending list with the same members
is the same list. -/
theorem toList_eq_of_mem_iff {s : IntervalSet} (h : s.Canonical) {vs : List Int}
    (hvs : vs.Pairwise (· < ·)) (hmem : ∀ v, v ∈ s ↔ v ∈ vs) : s.toList = vs := by
  have hperm : s.toList.Perm vs :=
    (List.perm_ext_iff_of_nodup (h.pairwise_toList.imp fun hlt => by omega)
      (hvs.imp fun hlt => by omega)).mpr fun v => by rw [mem_toList, hmem]
  exact hperm.eq_of_pairwise (fun a b _ _ hab hba => by omega) h.pairwise_toList hvs

/-! ### Adding -/

/-- An interval that is widened by those it reaches starts where the first of them starts. -/
theorem lt_start_of_mem_absorb {bound : Int} {i k : Interval} {js : List Interval}
    (hi : bound < i.start) (hjs : ∀ j ∈ js, bound < j.start) (hk : k ∈ absorb i js) :
    bound < k.start := by
  induction js generalizing i with
  | nil =>
      rw [absorb, List.mem_singleton] at hk
      exact hk ▸ hi
  | cons j js ih =>
      have hj := hjs j (by simp)
      have hrest : ∀ x ∈ js, bound < x.start := fun x hx => hjs x (by simp [hx])
      rw [absorb] at hk
      split at hk
      · -- The next interval is absorbed, and the widened one starts at the lower of two starts
        -- above the bound.
        exact ih (by simp only; omega) hrest hk
      · rcases List.mem_cons.mp hk with rfl | hk
        · exact hi
        · exact hjs k hk

/-- Widening an interval by those it reaches gives canonical intervals. -/
theorem canonical_absorb {i : Interval} {js : List Interval} (hi : i.start < i.stop)
    (hjs : Canonical ⟨js⟩) (hreach : ∀ j ∈ js, i.start ≤ j.stop) :
    Canonical ⟨absorb i js⟩ := by
  induction js generalizing i with
  | nil => exact ⟨by simp [absorb, hi], by simp [absorb]⟩
  | cons j js ih =>
      have hj : j.start < j.stop := hjs.nonempty j (by simp)
      have hapart := List.pairwise_cons.mp hjs.apart
      have htail : Canonical ⟨js⟩ := ⟨fun x hx => hjs.nonempty x (by simp_all), hapart.2⟩
      rw [absorb]
      split
      · refine ih (by simp only; omega) htail fun x hx => ?_
        have hx' := hreach x (by simp [hx])
        simp only
        omega
      · -- The next interval is beyond reach, and so are all that come behind it.
        rename_i hbeyond
        refine ⟨?_, List.pairwise_cons.mpr ⟨?_, hjs.apart⟩⟩
        · intro x hx
          rcases List.mem_cons.mp hx with rfl | hx
          · exact hi
          · exact hjs.nonempty x hx
        · intro x hx
          rcases List.mem_cons.mp hx with rfl | hx
          · omega
          · have := hapart.1 x hx
            omega

/-- Widening an interval by those it reaches loses no value and adds none. -/
theorem exists_mem_absorb {i : Interval} {js : List Interval} (hi : i.start < i.stop)
    (hjs : Canonical ⟨js⟩) (hreach : ∀ j ∈ js, i.start ≤ j.stop) (v : Int) :
    (∃ k ∈ absorb i js, v ∈ k) ↔ v ∈ i ∨ ∃ j ∈ js, v ∈ j := by
  induction js generalizing i with
  | nil => simp [absorb]
  | cons j js ih =>
      have hj : j.start < j.stop := hjs.nonempty j (by simp)
      have hapart := List.pairwise_cons.mp hjs.apart
      have htail : Canonical ⟨js⟩ := ⟨fun x hx => hjs.nonempty x (by simp_all), hapart.2⟩
      have hij := hreach j (by simp)
      rw [absorb]
      split
      · rw [ih (by simp only; omega) htail fun x hx => by
          have hx' := hreach x (by simp [hx])
          simp only
          omega]
        simp only [Interval.mem_def, List.mem_cons, exists_eq_or_imp]
        constructor
        · rintro (hv | hv)
          · omega
          · exact Or.inr (Or.inr hv)
        · rintro (hv | hv | hv)
          · exact Or.inl (by omega)
          · exact Or.inl (by omega)
          · exact Or.inr hv
      · simp

/-- Adding an interval keeps a set canonical, and its values become members. -/
theorem add_spec {s : IntervalSet} (h : s.Canonical) (i : Interval) :
    (s.add i).Canonical ∧ ∀ v, v ∈ s.add i ↔ v ∈ s ∨ v ∈ i := by
  unfold add
  by_cases hempty : i.isEmpty = true
  · rw [if_pos hempty]
    refine ⟨h, fun v => ⟨Or.inl, ?_⟩⟩
    rintro (hv | hv)
    · exact hv
    · simp only [Interval.isEmpty, decide_eq_true_eq] at hempty
      rw [Interval.mem_def] at hv
      omega
  · rw [if_neg hempty]
    have hi : i.start < i.stop := by simpa [Interval.isEmpty] using hempty
    -- The intervals that end below the new one stay. The others are reached by it or stand above
    -- it.
    obtain ⟨before, after, hsplit, hbefore, hafter⟩ :=
      h.exists_split (fun stop => decide (stop < i.start)) fun a b hab hb => by simp at hb ⊢; omega
    have hpoint : partitionPoint (fun j => decide (j.stop < i.start)) s.intervals
        = before.length := by
      rw [hsplit]
      exact partitionPoint_append _ before after hbefore hafter
    have hapart := h.apart
    rw [hsplit, List.pairwise_append] at hapart
    have htail : Canonical ⟨after⟩ :=
      ⟨fun j hj => h.nonempty j (by simp [hsplit, hj]), hapart.2.1⟩
    have hreach : ∀ j ∈ after, i.start ≤ j.stop := fun j hj => by simpa using hafter j hj
    have hgrown := canonical_absorb hi htail hreach
    simp only [hpoint]
    rw [hsplit, List.take_left, List.drop_left]
    refine ⟨⟨?_, List.pairwise_append.mpr ⟨hapart.1, hgrown.apart, ?_⟩⟩, fun v => ?_⟩
    · intro j hj
      rcases List.mem_append.mp hj with hj | hj
      · exact h.nonempty j (by simp [hsplit, hj])
      · exact hgrown.nonempty j hj
    · intro j hj k hk
      exact lt_start_of_mem_absorb (by simpa using hbefore j hj) (hapart.2.2 j hj) hk
    · have hmem := exists_mem_absorb hi htail hreach v
      simp only [mem_def, hsplit, List.mem_append, or_and_right, exists_or, hmem]
      rw [or_assoc]
      exact or_congr_right or_comm

/-- The set of listed values is canonical and holds them. -/
theorem ofList_spec (vs : List Int) :
    (ofList vs).Canonical ∧ ∀ v, v ∈ ofList vs ↔ v ∈ vs := by
  -- The values are added to a set that may have members, so that the induction goes through.
  suffices hfold : ∀ s : IntervalSet, s.Canonical →
      (vs.foldl (fun s v => s.add (.ofValue v)) s).Canonical ∧
        ∀ v, v ∈ vs.foldl (fun s v => s.add (.ofValue v)) s ↔ v ∈ s ∨ v ∈ vs by
    obtain ⟨hcanonical, hmem⟩ := hfold empty canonical_empty
    exact ⟨hcanonical, fun v => (hmem v).trans (by simp [not_mem_empty])⟩
  induction vs with
  | nil => exact fun s hs => ⟨hs, by simp⟩
  | cons u vs ih =>
      intro s hs
      obtain ⟨hadd, hmem⟩ := add_spec hs (.ofValue u)
      obtain ⟨hcanonical, hfold⟩ := ih _ hadd
      refine ⟨hcanonical, fun v => ?_⟩
      rw [List.foldl_cons, hfold, hmem, Interval.mem_def, List.mem_cons]
      have hone : (Interval.ofValue u).start ≤ v ∧ v < (Interval.ofValue u).stop ↔ v = u := by
        simp only [Interval.ofValue]
        omega
      rw [hone, or_assoc]

/-! ### Taking away -/

/-- Taking an interval away keeps a set canonical, and its values are no longer members. -/
theorem remove_spec {s : IntervalSet} (h : s.Canonical) (i : Interval) :
    (s.remove i).Canonical ∧ ∀ v, v ∈ s.remove i ↔ v ∈ s ∧ v ∉ i := by
  unfold remove
  by_cases hempty : i.isEmpty = true
  · rw [if_pos hempty]
    simp only [Interval.isEmpty, decide_eq_true_eq] at hempty
    refine ⟨h, fun v => ⟨fun hv => ⟨hv, fun hi => ?_⟩, And.left⟩⟩
    rw [Interval.mem_def] at hi
    omega
  · rw [if_neg hempty]
    have hi : i.start < i.stop := by simpa [Interval.isEmpty] using hempty
    refine ⟨⟨?_, List.pairwise_flatMap.mpr ⟨?_, ?_⟩⟩, fun v => ?_⟩
    · intro k hk
      obtain ⟨j, hj, hkj⟩ := List.mem_flatMap.mp hk
      exact ((j.without_spec i (h.nonempty j hj) hi).1 k hkj).1
    · exact fun j hj => (j.without_spec i (h.nonempty j hj) hi).2
    · -- Parts of intervals that are apart are apart.
      refine h.apart.imp_of_mem fun {j k} hj hk hjk x hx y hy => ?_
      have hxj := (j.without_spec i (h.nonempty j hj) hi).1 x hx
      have hyk := (k.without_spec i (h.nonempty k hk) hi).1 y hy
      omega
    · simp only [mem_def, List.mem_flatMap]
      constructor
      · rintro ⟨k, ⟨j, hj, hkj⟩, hv⟩
        obtain ⟨hvj, hvi⟩ := (j.exists_mem_without i v).mp ⟨k, hkj, hv⟩
        exact ⟨⟨j, hj, hvj⟩, hvi⟩
      · rintro ⟨⟨j, hj, hvj⟩, hvi⟩
        obtain ⟨k, hkj, hv⟩ := (j.exists_mem_without i v).mpr ⟨hvj, hvi⟩
        exact ⟨k, ⟨j, hj, hkj⟩, hv⟩

/-- Taking away the intervals of a set leaves what is in none of them. -/
theorem foldl_remove_spec (is : List Interval) {s : IntervalSet} (h : s.Canonical) :
    (is.foldl remove s).Canonical ∧ ∀ v, v ∈ is.foldl remove s ↔ v ∈ s ∧ ∀ i ∈ is, v ∉ i := by
  induction is generalizing s with
  | nil => exact ⟨h, by simp⟩
  | cons i is ih =>
      obtain ⟨hremove, hmem⟩ := remove_spec h i
      obtain ⟨hcanonical, hfold⟩ := ih hremove
      refine ⟨hcanonical, fun v => ?_⟩
      rw [List.foldl_cons, hfold, hmem, List.forall_mem_cons, and_assoc]

/-- The values between two bounds form a canonical set, if the upper bound is not the greatest
number. -/
theorem closed?_spec (low : Int) {high : Int} (hhigh : high < int32Max) :
    ∃ s, closed? low high = .ok s ∧ s.Canonical ∧ ∀ v, v ∈ s ↔ low ≤ v ∧ v ≤ high := by
  obtain ⟨hcanonical, hmem⟩ := add_spec canonical_empty ⟨low, high + 1⟩
  refine ⟨empty.add ⟨low, high + 1⟩, ?_, hcanonical, fun v => ?_⟩
  · simp [closed?, Interval.closed?, int32Succ, hhigh, Except.map]
  · rw [hmem, Interval.mem_def]
    simp only [not_mem_empty, false_or]
    omega

/-- A range of values is built only if its upper bound is not the greatest number. -/
theorem lt_of_closed? {low high : Int} {s : IntervalSet} (h : closed? low high = .ok s) :
    high < int32Max := by
  by_contra hhigh
  simp [closed?, Interval.closed?, int32Succ, hhigh, Except.map] at h

/-- The values between two bounds that are not in a set. -/
theorem complement?_spec (s : IntervalSet) (low : Int) {high : Int} (hhigh : high < int32Max) :
    ∃ t, s.complement? low high = .ok t ∧ t.Canonical ∧
      ∀ v, v ∈ t ↔ (low ≤ v ∧ v ≤ high) ∧ v ∉ s := by
  obtain ⟨all, hall, hcanonical, hmem⟩ := closed?_spec low hhigh
  obtain ⟨hfold, hleft⟩ := foldl_remove_spec s.intervals hcanonical
  refine ⟨s.intervals.foldl remove all, ?_, hfold, fun v => ?_⟩
  · rw [complement?, hall]
    rfl
  · rw [hleft, hmem, mem_def]
    simp

/-- The set of one value. -/
theorem ofValue?_spec {v : Int} (hv : v < int32Max) :
    ∃ s, ofValue? v = .ok s ∧ s.Canonical ∧ ∀ u, u ∈ s ↔ u = v := by
  obtain ⟨hcanonical, hmem⟩ := add_spec canonical_empty ⟨v, v + 1⟩
  refine ⟨empty.add ⟨v, v + 1⟩, ?_, hcanonical, fun u => ?_⟩
  · simp [ofValue?, addValue?, Interval.ofValue?, int32Succ, hv, Except.map]
  · rw [hmem, Interval.mem_def]
    simp only [not_mem_empty, false_or]
    omega

/-- The set of one value is built only if the value is not the greatest number. -/
theorem lt_of_ofValue? {v : Int} {s : IntervalSet} (h : ofValue? v = .ok s) : v < int32Max := by
  by_contra hv
  simp [ofValue?, addValue?, Interval.ofValue?, int32Succ, hv, Except.map] at h

end IntervalSet

/-! ### Labels -/

/-- Both bounds of a universe belong to it. -/
theorem Universe.contains_iff (u : Universe) (v : Int) :
    u.contains v = true ↔ u.low ≤ v ∧ v ≤ u.high := by
  rw [contains, Bool.and_eq_true, decide_eq_true_eq, decide_eq_true_eq]

namespace Label

/-- The sets that the label stores are canonical. -/
def Canonical : Label → Prop
  | .symbol _ => True
  | .oneOf set => set.Canonical
  | .noneOf set => set.Canonical
  | .any => True

/-- A label lists the symbols that it admits. -/
theorem mem_symbols_iff {u : Universe} {l : Label} {set : IntervalSet} (hl : l.Canonical)
    (h : l.symbols u = .ok set) (t : Int) : t ∈ set.toList ↔ l.admits u t = true := by
  rw [IntervalSet.mem_toList]
  cases l with
  | symbol value =>
      obtain ⟨set', hset', -, hmem⟩ := IntervalSet.ofValue?_spec (IntervalSet.lt_of_ofValue? h)
      cases hset'.symm.trans h
      rw [hmem, admits, decide_eq_true_eq, eq_comm]
  | oneOf set' =>
      cases h
      exact (IntervalSet.contains_iff hl t).symm
  | noneOf set' =>
      -- The complement was built, so the alphabet does not end at the greatest number.
      have hhigh : u.high < int32Max := by
        simp only [symbols, IntervalSet.complement?] at h
        cases hall : IntervalSet.closed? u.low u.high with
        | error cause => rw [hall] at h; cases h
        | ok all => exact IntervalSet.lt_of_closed? hall
      obtain ⟨left, hleft, -, hmem⟩ := IntervalSet.complement?_spec set' u.low hhigh
      cases hleft.symm.trans h
      rw [hmem, admits, Bool.and_eq_true, Universe.contains_iff, Bool.not_eq_true',
        ← Bool.not_eq_true, IntervalSet.contains_iff hl]
  | any =>
      obtain ⟨all, hall, -, hmem⟩ := IntervalSet.closed?_spec u.low (IntervalSet.lt_of_closed? h)
      cases hall.symm.trans h
      rw [hmem, admits, Universe.contains_iff]

end Label

end Caret
