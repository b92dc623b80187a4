import Mathlib
import Caret.Proofs.Bisection
import Caret.Text.Lines

/-!
# `Caret.Proofs.Lines`: the lines of a text

A line ends behind `\n`, and behind a `\r` that no `\n` follows (`EndsLine`). `lineEnds` lists the
byte positions behind the line ends of a text, and `LiesAt` says what it means that a byte position
lies in a line at a column. `Lines.startsFrom_eq` states that the scan, which looks for `\r\n` as a
pair, finds just these line ends, and `Lines.liesAt_position` that the place of an offset, found by
halving, is where it lies. Offsets are bounded, so both need a text that is shorter than the
greatest offset.

A place further on in a text lies in a later line, or further on in the same line (`LiesAt.lt`).
`positions_are_exact` puts this together for the lines, the places and their order.
-/

set_option autoImplicit false

namespace Caret

/-- Bytes add up. -/
theorem byteLength_append (u v : List Char) :
    byteLength (u ++ v) = byteLength u + byteLength v := by
  induction u with
  | nil => simp [byteLength]
  | cons c u ih => rw [List.cons_append, byteLength, byteLength, ih, Nat.add_assoc]

/-- A character has at least one byte. -/
theorem byteLength_pos {u : List Char} (h : u ≠ []) : 0 < byteLength u := by
  cases u with
  | nil => exact absurd rfl h
  | cons c u => exact Nat.add_pos_left c.utf8Size_pos _

/-- So there are no more characters than bytes. -/
theorem length_le_byteLength (cs : List Char) : cs.length ≤ byteLength cs := by
  induction cs with
  | nil => exact Nat.le_refl 0
  | cons c cs ih =>
      have hpos := c.utf8Size_pos
      rw [List.length_cons, byteLength]
      omega

/-- Offsets within the range are not cut off. -/
theorem textOffset_eq {i : Nat} (h : i ≤ nat32Max) : textOffset i = i := Nat.min_eq_left h

/-! ### Line ends -/

/-- A line ends behind the character with this number. -/
def EndsLine (cs : List Char) (k : Nat) : Prop :=
  cs[k]? = some '\n' ∨ (cs[k]? = some '\r' ∧ cs[k + 1]? ≠ some '\n')

instance (cs : List Char) (k : Nat) : Decidable (EndsLine cs k) :=
  inferInstanceAs (Decidable (_ ∨ _))

/-- The byte positions behind the line ends, in ascending order. -/
def lineEnds (cs : List Char) : List Nat :=
  ((List.range cs.length).filter fun k => EndsLine cs k).map fun k => byteLength (cs.take (k + 1))

/-- The line ends of a text by its first character. It may end a line, and later line ends are
further on by its bytes. -/
theorem lineEnds_cons (c : Char) (cs : List Char) : lineEnds (c :: cs) =
    (if EndsLine (c :: cs) 0 then [c.utf8Size] else []) ++ (lineEnds cs).map (c.utf8Size + ·) := by
  have hrest : (((List.range cs.length).map Nat.succ).filter fun k => EndsLine (c :: cs) k).map
      (fun k => byteLength ((c :: cs).take (k + 1))) = (lineEnds cs).map (c.utf8Size + ·) := by
    rw [List.filter_map, lineEnds, List.map_map, List.map_map]
    rfl
  rw [lineEnds, List.length_cons, List.range_succ_eq_map, List.filter_cons]
  by_cases hends : EndsLine (c :: cs) 0
  · rw [if_pos hends, if_pos (decide_eq_true hends), List.map_cons, hrest]
    simp [byteLength]
  · rw [if_neg hends, if_neg (by simpa using hends), hrest, List.nil_append]

/-- Line ends are listed in ascending order. -/
theorem lineEnds_pairwise (cs : List Char) : (lineEnds cs).Pairwise (· < ·) := by
  induction cs with
  | nil => simp [lineEnds]
  | cons c cs ih =>
      have hrest : ((lineEnds cs).map (c.utf8Size + ·)).Pairwise (· < ·) :=
        List.pairwise_map.mpr (ih.imp fun h => Nat.add_lt_add_left h _)
      rw [lineEnds_cons]
      split
      · rw [List.singleton_append, List.pairwise_cons]
        refine ⟨fun e he => ?_, hrest⟩
        obtain ⟨e', he', rfl⟩ := List.mem_map.mp he
        obtain ⟨k, hk, rfl⟩ := List.mem_map.mp he'
        have hlt := List.mem_range.mp (List.mem_filter.mp hk).1
        have hpos : 0 < byteLength (cs.take (k + 1)) :=
          byteLength_pos fun hnil => by simp [List.take_eq_nil_iff] at hnil; simp [hnil] at hlt
        omega
      · exact hrest

/-- There are no more line ends than characters. -/
theorem length_lineEnds_le (cs : List Char) : (lineEnds cs).length ≤ cs.length := by
  rw [lineEnds, List.length_map]
  exact (List.length_filter_le _ _).trans_eq List.length_range

namespace Lines

/-- The scan finds the line ends. -/
theorem startsFrom_eq (index : Nat) (cs : List Char) (h : index + byteLength cs ≤ nat32Max) :
    startsFrom index cs = (lineEnds cs).map (index + ·) := by
  have hcr : ('\r' : Char).utf8Size = 1 := by decide
  have hlf : ('\n' : Char).utf8Size = 1 := by decide
  -- Induction on the scan: the end, the pair, each of its characters alone, and any other
  -- character.
  fun_induction startsFrom index cs with
  | case1 index => rfl
  | case2 index cs ih =>
      -- The pair ends one line, behind its second character.
      have hpair : ¬ EndsLine ('\r' :: '\n' :: cs) 0 := by simp [EndsLine]
      have hends : EndsLine ('\n' :: cs) 0 := Or.inl rfl
      simp only [byteLength, hcr, hlf] at h
      rw [ih (by omega), textOffset_eq (by omega), lineEnds_cons, if_neg hpair, lineEnds_cons,
        if_pos hends]
      simp [hcr, hlf, Function.comp_def, Nat.add_assoc, ← Nat.add_assoc 1 1]
  | case3 index cs hnot ih =>
      have hends : EndsLine ('\r' :: cs) 0 := by
        -- A line feed behind it would have made a pair.
        refine Or.inr ⟨rfl, fun hnext => ?_⟩
        cases cs with
        | nil => cases hnext
        | cons d cs =>
            obtain rfl : d = '\n' := Option.some.inj hnext
            exact hnot cs rfl
      simp only [byteLength, hcr] at h
      rw [ih (by omega), textOffset_eq (by omega), lineEnds_cons, if_pos hends]
      simp [hcr, Function.comp_def, Nat.add_assoc]
  | case4 index cs ih =>
      have hends : EndsLine ('\n' :: cs) 0 := Or.inl rfl
      simp only [byteLength, hlf] at h
      rw [ih (by omega), textOffset_eq (by omega), lineEnds_cons, if_pos hends]
      simp [hlf, Function.comp_def, Nat.add_assoc]
  | case5 index c cs _ hcr' hlf' ih =>
      have hends : ¬ EndsLine (c :: cs) 0 := by
        rintro (hc | ⟨hc, -⟩)
        · exact hlf' (Option.some.inj hc)
        · exact hcr' (Option.some.inj hc)
      simp only [byteLength] at h
      rw [ih (by omega), lineEnds_cons, if_neg hends]
      simp [Function.comp_def, Nat.add_assoc]

/-- A text has a line at its start and one behind each line end. -/
theorem starts_ofText (text : String) (h : byteLength text.toList ≤ nat32Max) :
    (ofText text).starts = 0 :: lineEnds text.toList := by
  rw [ofText, startsFrom_eq 0 _ (by rwa [Nat.zero_add])]
  simp

/-- The length of a text is not cut off either. -/
theorem length_ofText (text : String) (h : byteLength text.toList ≤ nat32Max) :
    (ofText text).length = byteLength text.toList := textOffset_eq h

end Lines

/-! ### Places -/

/-- The byte position lies in this line, so many bytes behind the start of the line. Both count from
zero. -/
structure LiesAt (cs : List Char) (p : Nat) (place : LineColumn) : Prop where
  line_eq : place.line = (lineEnds cs).countP (· ≤ p)
  column_eq : ∃ start ∈ 0 :: lineEnds cs, start + place.column = p ∧
    ∀ e ∈ lineEnds cs, e ≤ p → e ≤ start

/-- Lines start in ascending order. -/
theorem starts_pairwise (cs : List Char) : (0 :: lineEnds cs).Pairwise (· ≤ ·) :=
  List.pairwise_cons.mpr
    ⟨fun e _ => Nat.zero_le e, (lineEnds_pairwise cs).imp Nat.le_of_lt⟩

/-- If a line starts at or before a position, so do the lines in front of it. -/
theorem reached_pairwise (cs : List Char) (p : Nat) : (0 :: lineEnds cs).Pairwise fun e f =>
    decide (f ≤ p) = true → decide (e ≤ p) = true :=
  (starts_pairwise cs).imp fun hle hf => decide_eq_true (hle.trans (of_decide_eq_true hf))

/-- The text starts at or before every position, so there is a last line that does. -/
theorem exists_last_start (cs : List Char) (p : Nat) :
    ∃ before last after, 0 :: lineEnds cs = before ++ [last] ++ after ∧
      (∀ e ∈ before ++ [last], decide (e ≤ p) = true) ∧ ∀ e ∈ after, decide (e ≤ p) = false := by
  obtain ⟨reached, after, hstarts, hreached, hafter⟩ :=
    exists_split_of_pairwise _ _ (reached_pairwise cs p)
  have hne : reached ≠ [] := by
    rintro rfl
    rw [List.nil_append] at hstarts
    have hzero : 0 ∈ after := by
      rw [← hstarts]
      exact List.mem_cons_self
    have hlater := hafter 0 hzero
    simp at hlater
  refine ⟨reached.dropLast, reached.getLast hne, after, ?_⟩
  rw [List.dropLast_append_getLast hne]
  exact ⟨hstarts, hreached, hafter⟩

/-- An offset is found where it lies. One past the end counts as the end. -/
theorem Lines.liesAt_position (text : String) (h : byteLength text.toList ≤ nat32Max) (o : Nat) :
    LiesAt text.toList (min o (byteLength text.toList)) ((Lines.ofText text).position o) := by
  obtain ⟨p, hp⟩ : ∃ p, p = min o (byteLength text.toList) := ⟨_, rfl⟩
  obtain ⟨before, last, after, hstarts, hreached, hafter⟩ := exists_last_start text.toList p
  have hpoint : partitionPoint (fun e => decide (e ≤ p)) (0 :: lineEnds text.toList) =
      before.length + 1 := by
    rw [hstarts, partitionPoint_append _ _ after hreached hafter, List.length_append,
      List.length_singleton]
  have hcount : (lineEnds text.toList).countP (· ≤ p) = before.length := by
    have hall := partitionPoint_eq_countP _ _ (reached_pairwise text.toList p)
    rw [hpoint, List.countP_cons_of_pos (by simp)] at hall
    exact (Nat.succ.inj hall).symm
  have hlast : (0 :: lineEnds text.toList)[before.length]? = some last := by
    rw [hstarts]
    simp
  have hposition : (Lines.ofText text).position o = ⟨before.length, p - last⟩ := by
    -- There are no more lines than bytes, so the number of the line is not cut off.
    have hlines := length_lineEnds_le text.toList
    have hbytes := length_le_byteLength text.toList
    have hle : before.length ≤ (lineEnds text.toList).length := hcount ▸ List.countP_le_length
    rw [position, length_ofText text h, ← hp, starts_ofText text h]
    simp only [hpoint, Nat.add_sub_cancel, hlast, Option.getD_some, LineColumn.mk.injEq, and_true]
    exact Nat.min_eq_left (by omega)
  have hmem : last ∈ before ++ [last] := List.mem_append_right before List.mem_cons_self
  rw [← hp, hposition]
  refine ⟨hcount.symm, last, ?_, ?_, fun e he hep => ?_⟩
  · rw [hstarts]
    exact List.mem_append_left after hmem
  · exact Nat.add_sub_of_le (of_decide_eq_true (hreached last hmem))
  · -- The starts are in ascending order, so the last one that is reached is the greatest.
    have hsorted := starts_pairwise text.toList
    have he' : e ∈ 0 :: lineEnds text.toList := List.mem_cons_of_mem _ he
    rw [hstarts] at hsorted he'
    rcases List.mem_append.mp he' with hfront | hback
    · have hle := (List.pairwise_append.mp hsorted).1.rel_getLast hfront
      rwa [List.getLast_append_singleton] at hle
    · have hlater := hafter e hback
      simp only [decide_eq_false_iff_not] at hlater
      exact absurd hep hlater

/-- A byte position of a text is found where it lies. -/
theorem Lines.position_liesAt (text : String) (h : byteLength text.toList ≤ nat32Max) {p : Nat}
    (hp : p ≤ byteLength text.toList) :
    LiesAt text.toList p ((Lines.ofText text).position p) := by
  have hplace := liesAt_position text h p
  rwa [Nat.min_eq_left hp] at hplace

/-! ### The order of places -/

/-- Lines come first in the order of places, and then columns. -/
def LineColumn.rank (place : LineColumn) : Nat ×ₗ Nat := toLex (place.line, place.column)

/-- A line end between two positions makes a difference in the number of line ends. -/
theorem countP_lt_of_mem {ends : List Nat} {p q e : Nat} (he : e ∈ ends) (hpe : p < e)
    (heq : e ≤ q) : ends.countP (· ≤ p) < ends.countP (· ≤ q) := by
  have hsub : (ends.filter fun e => decide (e ≤ p)).Sublist (ends.filter fun e => decide (e ≤ q)) :=
    List.monotone_filter_right ends fun e' he' => by
      simp only [decide_eq_true_eq] at he' ⊢
      omega
  rw [List.countP_eq_length_filter, List.countP_eq_length_filter]
  -- If the counts were the same, the line end in between would count for both positions.
  refine Nat.lt_of_le_of_ne hsub.length_le fun hlen => ?_
  have hmem : e ∈ ends.filter fun e => decide (e ≤ p) := by
    rw [hsub.eq_of_length hlen]
    exact List.mem_filter.mpr ⟨he, decide_eq_true heq⟩
  exact absurd (of_decide_eq_true (List.mem_filter.mp hmem).2) (Nat.not_le.mpr hpe)

/-- A later byte position lies in a later line, or in the same line at a later column. -/
theorem LiesAt.lt {cs : List Char} {p q : Nat} {a b : LineColumn} (ha : LiesAt cs p a)
    (hb : LiesAt cs q b) (hlt : p < q) : a.rank < b.rank := by
  obtain ⟨hline, start, hstart, hcolumn, hgreatest⟩ := ha
  obtain ⟨hline', start', hstart', hcolumn', hgreatest'⟩ := hb
  rw [LineColumn.rank, LineColumn.rank, Prod.Lex.toLex_lt_toLex]
  have hle : start ≤ start' := by
    rcases List.mem_cons.mp hstart with rfl | hmem
    · exact Nat.zero_le start'
    · exact hgreatest' start hmem (by omega)
  rcases Nat.lt_or_ge p start' with hbetween | hsame
  · -- The line of the later position starts behind the earlier one.
    left
    have hmem : start' ∈ lineEnds cs := by
      refine (List.mem_cons.mp hstart').resolve_left ?_
      omega
    rw [hline, hline']
    exact countP_lt_of_mem hmem hbetween (by omega)
  · right
    -- No line starts between the two positions, so they lie in the same line.
    have heq : start = start' := by
      refine Nat.le_antisymm hle ?_
      rcases List.mem_cons.mp hstart' with rfl | hmem
      · exact Nat.zero_le start
      · exact hgreatest start' hmem hsame
    refine ⟨?_, by simp only; omega⟩
    rw [hline, hline']
    refine List.countP_congr fun e he => ?_
    simp only [decide_eq_true_eq]
    exact ⟨fun hep => by omega, fun heq' => (hgreatest' e he heq').trans hsame⟩

/-- A text has one line more than line ends, every offset is found in the line and at the column
where it lies, with offsets past the end at the end, and places are in the order of the offsets. -/
theorem positions_are_exact (text : String) (hlen : byteLength text.toList < 2 ^ 32) :
    (Lines.ofText text).count = (lineEnds text.toList).length + 1 ∧
      (∀ o, LiesAt text.toList (min o (byteLength text.toList))
        ((Lines.ofText text).position o)) ∧
      StrictMonoOn (fun o => ((Lines.ofText text).position o).rank)
        (Set.Iic (byteLength text.toList)) := by
  have hmax : byteLength text.toList ≤ nat32Max := Nat.le_of_lt_succ hlen
  refine ⟨?_, Lines.liesAt_position text hmax, fun o ho o' ho' hlt => ?_⟩
  · rw [Lines.count, Lines.starts_ofText text hmax, List.length_cons]
  · exact (Lines.position_liesAt text hmax ho).lt (Lines.position_liesAt text hmax ho') hlt

/-- All kinds of line ends, next to each other and at the end of a text. -/
def mixedText : String := "é\r\r\n\n"

/-- The two bytes of the first character count, the pair ends one line, and an offset far behind the
end lies on the empty last line. -/
theorem mixed_lines_are_exact :
    byteLength mixedText.toList < 2 ^ 32 ∧ lineEnds mixedText.toList = [3, 5, 6] ∧
      (Lines.ofText mixedText).count = 4 ∧
      LiesAt mixedText.toList 4 ⟨1, 1⟩ ∧ LiesAt mixedText.toList 6 ⟨3, 0⟩ ∧
      (LineColumn.mk 1 1).rank < (LineColumn.mk 3 0).rank := by
  have hlen : byteLength mixedText.toList < 2 ^ 32 := by decide
  have hends : lineEnds mixedText.toList = [3, 5, 6] := by decide
  have hplaces : (Lines.ofText mixedText).position 4 = ⟨1, 1⟩ ∧
      (Lines.ofText mixedText).position 6 = ⟨3, 0⟩ ∧
      (Lines.ofText mixedText).position 99 = ⟨3, 0⟩ := by cbv
  obtain ⟨hinside, hend, hpast⟩ := hplaces
  obtain ⟨hcount, hposition, horder⟩ := positions_are_exact mixedText hlen
  rw [hends] at hcount
  have hinner := hposition 4
  have hlast := hposition 99
  rw [hinside] at hinner
  rw [hpast] at hlast
  have hlt := horder (show 4 ≤ byteLength mixedText.toList by decide)
    (show 6 ≤ byteLength mixedText.toList by decide) (by decide)
  simp only [hinside, hend] at hlt
  exact ⟨hlen, hends, hcount, hinner, hlast, hlt⟩

end Caret
