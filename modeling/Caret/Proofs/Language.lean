import Mathlib
import Caret.Lexer.Basic
import Caret.Proofs.IntervalSet

/-!
# `Caret.Proofs.Language`: the texts that patterns describe

`Pattern.language` says which texts a pattern stands for, without any network. A class stands for
one character, a sequence and a choice for the product and the sum of languages, and a repetition
for the powers within its bounds.

A repetition is compiled as required copies and a loop, or as required and optional copies.
`language_repeated_none` and `language_repeated_some` state that these describe the same texts. The
`admits` lemmas connect the labels of the network with the tests on characters.
-/

set_option autoImplicit false

open scoped Computability

namespace Caret

/-! ### Languages of patterns -/

/-- The texts of one character that satisfies a test. -/
def singleChars (test : Char → Bool) : Language Char := {w | ∃ c, test c = true ∧ w = [c]}

mutual

/-- The texts that a pattern describes. -/
def Pattern.language : Pattern → Language Char
  | .literal text => {text.toList}
  | .oneOf chars => singleChars chars.contains
  | .noneOf chars => singleChars fun c => !chars.contains c
  | .any => singleChars fun _ => true
  | .seq parts => Pattern.languageOfSeq parts
  | .alt alternatives => Pattern.languageOfAlt alternatives
  | .repeated body least most =>
      {w | ∃ k, least ≤ k ∧ (∀ m ∈ most, k ≤ max least m) ∧ w ∈ Pattern.language body ^ k}

/-- The texts of the parts one after the other. -/
def Pattern.languageOfSeq : List Pattern → Language Char
  | [] => 1
  | p :: ps => Pattern.language p * Pattern.languageOfSeq ps

/-- The texts of one of the alternatives. -/
def Pattern.languageOfAlt : List Pattern → Language Char
  | [] => 0
  | p :: ps => Pattern.language p + Pattern.languageOfAlt ps

end

/-! ### Choices and repetitions -/

section

variable {L : Language Char} {w : List Char}

/-- A text is in a sum of languages if it is in one of them. -/
theorem mem_sum_languages (Ls : List (Language Char)) : w ∈ Ls.sum ↔ ∃ L ∈ Ls, w ∈ L := by
  induction Ls with
  | nil => simp [Language.notMem_zero]
  | cons L Ls ih => rw [List.sum_cons, Language.mem_add, ih, List.exists_mem_cons_iff]

/-- Optional copies give as many copies as one likes, up to their number. -/
theorem mem_one_add_pow (m : Nat) : w ∈ (1 + L) ^ m ↔ ∃ k, k ≤ m ∧ w ∈ L ^ k := by
  induction m generalizing w with
  | zero => simp
  | succ m ih =>
      -- The last copy is left out or it is not.
      rw [pow_succ, mul_add, mul_one, Language.mem_add, ih]
      constructor
      · rintro (⟨k, hk, hw⟩ | hw)
        · exact ⟨k, Nat.le_succ_of_le hk, hw⟩
        · obtain ⟨u, hu, v, hv, rfl⟩ := Language.mem_mul.mp hw
          obtain ⟨k, hk, hu⟩ := ih.mp hu
          refine ⟨k + 1, Nat.succ_le_succ hk, ?_⟩
          rw [pow_succ]
          exact Language.append_mem_mul hu hv
      · rintro ⟨k, hk, hw⟩
        cases k with
        | zero => exact Or.inl ⟨0, Nat.zero_le m, hw⟩
        | succ k =>
            right
            rw [pow_succ] at hw
            obtain ⟨u, hu, v, hv, rfl⟩ := Language.mem_mul.mp hw
            exact Language.append_mem_mul (ih.mpr ⟨k, Nat.le_of_succ_le_succ hk, hu⟩) hv

/-- A loop gives any number of copies. -/
theorem mem_kstar_iff_exists_pow : w ∈ L∗ ↔ ∃ k, w ∈ L ^ k := by
  rw [Language.kstar_eq_iSup_pow, Language.mem_iSup]

/-- Required copies before further ones, however their number `k` is limited, are powers above the
required one. -/
theorem mem_pow_mul_iff {least : Nat} {M : Language Char} (allowed : Nat → Prop)
    (hM : ∀ v, v ∈ M ↔ ∃ k, allowed k ∧ v ∈ L ^ k) :
    w ∈ L ^ least * M ↔ ∃ k, allowed k ∧ w ∈ L ^ (least + k) := by
  rw [Language.mem_mul]
  constructor
  · rintro ⟨u, hu, v, hv, rfl⟩
    obtain ⟨k, hk, hv⟩ := (hM v).mp hv
    refine ⟨k, hk, ?_⟩
    rw [pow_add]
    exact Language.append_mem_mul hu hv
  · rintro ⟨k, hk, hw⟩
    rw [pow_add] at hw
    obtain ⟨u, hu, v, hv, rfl⟩ := Language.mem_mul.mp hw
    exact ⟨u, hu, v, (hM v).mpr ⟨k, hk, hv⟩, rfl⟩

end

namespace Pattern

/-- A choice describes the sum of the languages of its alternatives. -/
theorem languageOfAlt_eq_sum (ps : List Pattern) :
    languageOfAlt ps = (ps.map language).sum := by
  induction ps with
  | nil => rfl
  | cons p ps ih => rw [languageOfAlt, ih, List.map_cons, List.sum_cons]

/-- Without an upper bound: required copies, and then a loop. -/
theorem language_repeated_none (body : Pattern) (least : Nat) :
    (repeated body least none).language = body.language ^ least * body.language∗ := by
  ext w
  rw [mem_pow_mul_iff (fun _ => True) (by simp [mem_kstar_iff_exists_pow])]
  simp only [language]
  constructor
  · rintro ⟨k, hk, -, hw⟩
    refine ⟨k - least, trivial, ?_⟩
    rwa [Nat.add_sub_cancel' hk]
  · rintro ⟨k, -, hw⟩
    exact ⟨least + k, Nat.le_add_right _ _, by simp, hw⟩

/-- With an upper bound: required copies, and then as many optional ones as the bound leaves room
for. -/
theorem language_repeated_some (body : Pattern) (least most : Nat) :
    (repeated body least (some most)).language =
      body.language ^ least * (1 + body.language) ^ (most - least) := by
  ext w
  rw [mem_pow_mul_iff (· ≤ most - least) fun v => mem_one_add_pow (most - least)]
  simp only [language]
  constructor
  · rintro ⟨k, hk, hmost, hw⟩
    have hle := hmost most rfl
    refine ⟨k - least, by omega, ?_⟩
    rwa [Nat.add_sub_cancel' hk]
  · rintro ⟨k, hk, hw⟩
    refine ⟨least + k, Nat.le_add_right _ _, ?_, hw⟩
    intro m hm
    rw [Option.mem_some_iff] at hm
    omega

end Pattern

/-! ### Characters and labels -/

/-- The code points of a set of characters form a canonical set, which holds the characters of the
set. -/
theorem CharSet.codePoints_spec (s : CharSet) :
    s.codePoints.Canonical ∧ ∀ c : Char, (c.toNat : Int) ∈ s.codePoints ↔ s.contains c = true := by
  -- The ranges are added to a set that may have members, so that the induction goes through.
  suffices hfold : ∀ (ranges : List (Char × Char)) (set : IntervalSet), set.Canonical →
      (ranges.foldl (fun set r => set.add (.closed r.1.toNat r.2.toNat)) set).Canonical ∧
        ∀ c : Char,
          (c.toNat : Int) ∈ ranges.foldl (fun set r => set.add (.closed r.1.toNat r.2.toNat)) set ↔
            (c.toNat : Int) ∈ set ∨ ∃ r ∈ ranges, r.1 ≤ c ∧ c ≤ r.2 by
    obtain ⟨hcanonical, hmem⟩ := hfold s.ranges .empty IntervalSet.canonical_empty
    refine ⟨hcanonical, fun c => (hmem c).trans ?_⟩
    simp [IntervalSet.not_mem_empty, contains]
  intro ranges
  induction ranges with
  | nil => exact fun set hset => ⟨hset, by simp⟩
  | cons r ranges ih =>
      intro set hset
      obtain ⟨hadd, hmem⟩ := IntervalSet.add_spec hset (.closed r.1.toNat r.2.toNat)
      obtain ⟨hcanonical, hfold⟩ := ih _ hadd
      refine ⟨hcanonical, fun c => ?_⟩
      -- Characters are compared like their code points.
      have hrange : (c.toNat : Int) ∈ Interval.closed r.1.toNat r.2.toNat ↔ r.1 ≤ c ∧ c ≤ r.2 := by
        rw [Interval.mem_def, Interval.closed, Char.le_def, Char.le_def, UInt32.le_iff_toNat_le,
          UInt32.le_iff_toNat_le]
        simp only [Char.toNat]
        omega
      rw [List.foldl_cons, hfold, hmem, hrange]
      simp [or_assoc]

namespace Label

variable (c : Char)

/-- A symbol admits its own character. -/
theorem admits_symbol (d : Char) :
    (symbol d.toNat).admits Lexer.codePoints c.toNat = decide (c = d) := by
  rw [admits, decide_eq_decide]
  constructor
  · intro h
    exact (Char.toNat_inj.mp (Int.ofNat.inj h)).symm
  · rintro rfl
    rfl

/-- Every character is within the range of code points. -/
theorem admits_any : any.admits Lexer.codePoints c.toNat = true := by
  have hlt : c.toNat < 0x110000 := by
    have hvalid := c.valid
    simp only [UInt32.isValidChar, Nat.isValidChar] at hvalid
    show c.val.toNat < _
    omega
  rw [admits, Universe.contains_iff]
  show (0 : Int) ≤ c.toNat ∧ (c.toNat : Int) ≤ 0x10FFFF
  omega

/-- A set of characters admits its members. -/
theorem admits_oneOf (chars : CharSet) :
    (oneOf chars.codePoints).admits Lexer.codePoints c.toNat = chars.contains c := by
  obtain ⟨hcanonical, hmem⟩ := chars.codePoints_spec
  rw [admits, Bool.eq_iff_iff, IntervalSet.contains_iff hcanonical, hmem]

/-- Its complement admits all other characters. -/
theorem admits_noneOf (chars : CharSet) :
    (noneOf chars.codePoints).admits Lexer.codePoints c.toNat = !chars.contains c := by
  rw [← admits_oneOf, ← Bool.true_and (!_), ← admits_any c]
  rfl

end Label

end Caret
