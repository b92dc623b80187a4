import Mathlib
import Caret.Proofs.FirstOccurrence
import Caret.Proofs.LexerRules

/-!
# `Caret.Proofs.CommandSearch`: the search for commands in any network

`Network.commandsFrom` lists the states that a depth-first search comes to, collects the commands on
their edges, and drops what occurs twice. The same can be done in one loop, which keeps what it has
found, what it has taken up and what is pending (`CommandSearch`). Every edge makes one number
pending, and a state is taken up only once. So the loop ends, however the edges run: after at most
one turn more than there are edges, its result is that of `commandsFrom` (`exists_iterate_turn`).

`Network.Onward` says where an edge leads within a rule, without the lists that the search makes of
it. `Network.searchesFrom` states what the search does: it ends, it finds nothing twice, and it
finds the commands of the states that can be reached.
-/

set_option autoImplicit false

namespace Caret

namespace Network

/-- The numbers that the search goes on to from a number. -/
def onwardFrom (n : Network) (a : StateId) : List StateId := ((n.state? a).map State.inRule).getD []

/-- The commands that the search finds at a number. -/
def commandsAt (n : Network) (a : StateId) : List Nat :=
  ((n.state? a).map State.commandIndices).getD []

/-- The number of all edges. -/
def edgeCount (n : Network) : Nat := (n.states.toList.map fun s => s.edges.length).sum

end Network

/-! ### The search as a loop -/

/-- The search for commands at work: the commands found, the numbers taken up, and the numbers that
are pending. -/
structure CommandSearch where
  found : List Nat
  expanded : List StateId
  pending : List StateId

namespace CommandSearch

/-- Before the first turn. -/
def start (a : StateId) : CommandSearch := ⟨[], [], [a]⟩

/-- Add a command unless it is there. -/
def note (found : List Nat) (k : Nat) : List Nat := if k ∈ found then found else found ++ [k]

/-- One turn takes a number off the pending ones. Only now it is tested whether the number was taken
up before, so a number can be pending more than once. -/
def turn (n : Network) : CommandSearch → CommandSearch
  | ⟨found, expanded, []⟩ => ⟨found, expanded, []⟩
  | ⟨found, expanded, a :: rest⟩ =>
      if a ∈ expanded then ⟨found, expanded, rest⟩
      else
        match n.state? a with
        | none => ⟨found, a :: expanded, rest⟩
        | some s => ⟨s.commandIndices.foldl note found, a :: expanded, s.inRule ++ rest⟩

variable {n : Network} {found : List Nat} {a : StateId} {expanded rest : List StateId}

/-- A number that was taken up before is dropped. -/
theorem turn_of_mem (h : a ∈ expanded) :
    turn n ⟨found, expanded, a :: rest⟩ = ⟨found, expanded, rest⟩ := by
  rw [turn, if_pos h]

/-- A new number is taken up. For a number without a state both lists are empty, so there is one
equation for it and for numbers of states. -/
theorem turn_of_not_mem (h : a ∉ expanded) : turn n ⟨found, expanded, a :: rest⟩ =
    ⟨(n.commandsAt a).foldl note found, a :: expanded, n.onwardFrom a ++ rest⟩ := by
  rw [turn, if_neg h, Network.commandsAt, Network.onwardFrom]
  cases n.state? a <;> rfl

/-- The loop runs beside the depth-first search: one turn for each number that is pending, and one
for each number that becomes pending later. -/
theorem iterate_turn_of_depthFirst {seen : Array Bool} (found : List Nat)
    {expanded : List StateId} (pending : List StateId) (hsize : seen.size = n.states.size)
    (hseen : ∀ a : StateId, a < n.states.size → (seen[a]? = some false ↔ a ∉ expanded)) :
    ∃ done, (turn n)^[pending.length +
        ((depthFirst n.onwardFrom seen pending).flatMap n.onwardFrom).length]
        ⟨found.eraseDups, expanded, pending⟩ =
      ⟨(found ++ (depthFirst n.onwardFrom seen pending).flatMap n.commandsAt).eraseDups, done,
        []⟩ := by
  -- The invariant ties the marks of the one search to the numbers that the other one has taken up.
  fun_induction depthFirst n.onwardFrom seen pending generalizing found expanded with
  | case1 seen => exact ⟨expanded, by simp⟩
  | case2 seen a rest hnew ih =>
      have hlt : a < n.states.size := hsize ▸ (Array.getElem?_eq_some_iff.mp hnew).1
      have hfresh : a ∉ expanded := (hseen a hlt).mp hnew
      have hmark : ∀ b : StateId, b < n.states.size →
          ((seen.setIfInBounds a true)[b]? = some false ↔ b ∉ a :: expanded) := by
        intro b hb
        by_cases hab : a = b
        · simp [Array.getElem?_setIfInBounds, hab]
        · rw [getElem?_mark_of_ne seen hab, hseen b hb, List.mem_cons, not_or]
          exact ⟨fun h => ⟨Ne.symm hab, h⟩, And.right⟩
      obtain ⟨done, hdone⟩ := ih (found ++ n.commandsAt a) (by simpa using hsize) hmark
      refine ⟨done, ?_⟩
      -- One turn takes up the number, and all that it leads to becomes pending.
      have hturns : (a :: rest).length + ((a :: depthFirst n.onwardFrom (seen.setIfInBounds a true)
            (n.onwardFrom a ++ rest)).flatMap n.onwardFrom).length =
          (n.onwardFrom a ++ rest).length + ((depthFirst n.onwardFrom (seen.setIfInBounds a true)
            (n.onwardFrom a ++ rest)).flatMap n.onwardFrom).length + 1 := by
        simp only [List.flatMap_cons, List.length_append, List.length_cons]
        omega
      rw [hturns, Function.iterate_succ_apply, turn_of_not_mem hfresh, List.flatMap_cons,
        ← List.append_assoc, ← hdone, ← foldl_concat_new]
      rfl
  | case3 seen a rest hold ih =>
      rw [List.length_cons, Nat.add_right_comm, Function.iterate_succ_apply]
      by_cases ha : a ∈ expanded
      · rw [turn_of_mem ha]
        exact ih found hsize hseen
      · -- A number that was not taken up and is not new has no state.
        have hge : n.states.size ≤ a := by
          by_contra hlt
          exact hold ((hseen a (Nat.lt_of_not_le hlt)).mpr ha)
        have hnone : n.state? a = none := Array.getElem?_eq_none hge
        have hmark : ∀ b : StateId, b < n.states.size →
            (seen[b]? = some false ↔ b ∉ a :: expanded) := by
          intro b hb
          rw [hseen b hb, List.mem_cons, not_or]
          exact ⟨fun h => ⟨Nat.ne_of_lt (Nat.lt_of_lt_of_le hb hge), h⟩, And.right⟩
        obtain ⟨done, hdone⟩ := ih found hsize hmark
        refine ⟨done, ?_⟩
        rw [turn_of_not_mem ha, ← hdone, Network.commandsAt, Network.onwardFrom, hnone]
        rfl

end CommandSearch

namespace Network

/-- The search goes on along edges, so to no more numbers than a state has edges. -/
theorem length_onwardFrom_le (n : Network) (a : StateId) :
    (n.onwardFrom a).length ≤ ((n.state? a).map fun s => s.edges.length).getD 0 := by
  rw [onwardFrom]
  cases n.state? a with
  | none => exact Nat.le_refl 0
  | some s =>
      show s.inRule.length ≤ s.edges.length
      rw [State.inRule]
      split
      · exact Nat.zero_le _
      · rw [List.length_map]

/-- The edges counted state by state, by number. A number without a state counts nothing. -/
theorem edgeCount_eq (n : Network) : n.edgeCount = ((List.range n.states.size).map fun a =>
    ((n.state? a).map fun s => s.edges.length).getD 0).sum := by
  rw [edgeCount]
  congr 1
  refine List.ext_getElem (by simp) fun i hi _ => ?_
  have hlt : i < n.states.size := by simpa using hi
  simp [state?, hlt]

/-- From different states the search goes on to no more numbers than there are edges. -/
theorem length_flatMap_onwardFrom_le (n : Network) {as : List StateId} (hnodup : as.Nodup)
    (hlt : ∀ a ∈ as, a < n.states.size) : (as.flatMap n.onwardFrom).length ≤ n.edgeCount := by
  -- Different states can be put in the order of their numbers, and then they are some of all
  -- states.
  obtain ⟨bs, hperm, hbs⟩ : as.Subperm (List.range n.states.size) :=
    hnodup.subperm fun a ha => List.mem_range.mpr (hlt a ha)
  calc (as.flatMap n.onwardFrom).length
      = (as.map fun a => (n.onwardFrom a).length).sum := List.length_flatMap
    _ = (bs.map fun a => (n.onwardFrom a).length).sum := (hperm.map _).sum_eq.symm
    _ ≤ ((List.range n.states.size).map fun a => (n.onwardFrom a).length).sum :=
        (hbs.map _).sum_le_sum fun _ _ => Nat.zero_le _
    _ ≤ n.edgeCount := by
        rw [edgeCount_eq]
        exact List.sum_le_sum fun a _ => n.length_onwardFrom_le a

/-- The loop ends with what the search lists, after no more turns than one and one for each edge. -/
theorem exists_iterate_turn (n : Network) (a : StateId) : ∃ k ≤ n.edgeCount + 1, ∃ done,
    (CommandSearch.turn n)^[k] (.start a) = ⟨n.commandsFrom a, done, []⟩ := by
  have hunseen : ∀ b : StateId, b < n.states.size →
      ((Array.replicate n.states.size false)[b]? = some false ↔ b ∉ ([] : List StateId)) := by
    intro b hb
    simp [hb]
  obtain ⟨done, hdone⟩ :=
    CommandSearch.iterate_turn_of_depthFirst [] [a] (by simp) hunseen
  refine ⟨_, ?_, done, hdone⟩
  have hbound := n.length_flatMap_onwardFrom_le
    (@nodup_depthFirst n.onwardFrom (Array.replicate n.states.size false) [a])
    fun b hb => by simpa using (exists_of_mem_depthFirst hb).1
  rw [List.length_singleton, Nat.add_comm]
  exact Nat.succ_le_succ hbound

/-! ### What the search finds -/

/-- One edge further within a rule: a call leads to the state behind it, any other edge to its
target. A stop state leads nowhere. -/
inductive Onward (n : Network) : StateId → StateId → Prop where
  | call {a target follow : StateId} {s : State} {rule : RuleIndex} {level : Int} :
      n.state? a = some s → s.kind ≠ .ruleStop → .call target rule follow level ∈ s.edges →
        Onward n a follow
  | edge {a : StateId} {s : State} {e : Edge} : n.state? a = some s → s.kind ≠ .ruleStop →
      e ∈ s.edges → e.isCall = false → Onward n a e.target

variable {n : Network} {a b : StateId}

/-- `Onward` is what the search goes along, in words of edges. -/
theorem leadsAlong_inRule_iff : n.LeadsAlong State.inRule a b ↔ n.Onward a b := by
  constructor
  · rintro ⟨s, hs, hmem⟩
    rw [State.inRule] at hmem
    split at hmem
    · cases hmem
    · rename_i hkind
      obtain ⟨e, he, rfl⟩ := List.mem_map.mp hmem
      cases e with
      | call => exact .call hs hkind he
      | _ => exact .edge hs hkind he rfl
  · rintro (⟨hs, hkind, he⟩ | ⟨hs, hkind, he, hcall⟩)
    · refine ⟨_, hs, ?_⟩
      rw [State.inRule, if_neg hkind]
      exact List.mem_map.mpr ⟨_, he, rfl⟩
    · exact ⟨_, hs, State.target_mem_inRule hkind he hcall⟩

/-- The same for the list of numbers. -/
theorem mem_onwardFrom_iff : b ∈ n.onwardFrom a ↔ n.Onward a b := by
  rw [← leadsAlong_inRule_iff, onwardFrom]
  cases hs : n.state? a <;> simp [LeadsAlong, hs]

/-- The commands of a number are those on the edges of its state. A stop state has none. -/
theorem mem_commandsAt_iff {k : Nat} : k ∈ n.commandsAt a ↔
    ∃ s, n.state? a = some s ∧ s.kind ≠ .ruleStop ∧ ∃ b, .command b k ∈ s.edges := by
  rw [commandsAt]
  cases n.state? a with
  | none => simp
  | some s => simpa using s.mem_commandIndices_iff k

/-- What the search for commands does, whatever the network and wherever it starts. -/
structure SearchesFrom (n : Network) (a : StateId) : Prop where
  /-- The loop over the pending numbers ends with the list of the search. -/
  ends : ∃ k ≤ n.edgeCount + 1, ∃ done,
    (CommandSearch.turn n)^[k] (.start a) = ⟨n.commandsFrom a, done, []⟩
  nodup : (n.commandsFrom a).Nodup
  /-- The commands of the states that can be reached, stop states apart. -/
  mem_iff : ∀ k, k ∈ n.commandsFrom a ↔ ∃ x s b, Relation.ReflTransGen n.Onward a x ∧
    n.state? x = some s ∧ s.kind ≠ .ruleStop ∧ .command b k ∈ s.edges

/-- The search does so in every network and from every number. -/
theorem searchesFrom (n : Network) (a : StateId) : n.SearchesFrom a where
  ends := n.exists_iterate_turn a
  nodup := nodup_eraseDups _
  mem_iff k := by
    have honward : n.LeadsAlong State.inRule = n.Onward := by
      funext x y
      exact propext leadsAlong_inRule_iff
    rw [← honward]
    exact n.mem_commandsFrom_iff a k

end Network

end Caret
