import Mathlib.Data.Finset.Card
import Mathlib.Data.Finset.Union
import Mathlib.Logic.Relation

/-!
# Worklists over a finite graph

Two loops over a graph that is given by the successors of its nodes.  Both process a set of
nodes, go on with a set of successors, and stop when that is empty.

`walk` collects the nodes that can be reached; `mem_walk` says that it finds them all.
`raiseLevels` makes a level function increase along the edges again, after the level of one
node was raised; it gives up when it has gone more rounds than it has seen nodes.
`raiseLevels_spec` says that on a graph without cycles it does not give up.

Both take a bound on the rounds; the theorems say which bound is enough.

## Main definitions

* `walk` — the nodes reachable from a set.
* `raiseLevels` — levels, repaired from a node on.
-/

namespace Worklist

open Relation

universe u
variable {α : Type u} [DecidableEq α] (succ : α → Finset α)

/-- There is an edge from `x` to `y`. -/
def Edge (x y : α) : Prop := y ∈ succ x

/-! ## Reachable nodes -/

/-- The nodes seen so far and those reachable from the unprocessed ones. -/
def walk : ℕ → Finset α → Finset α → Finset α
  | 0, seen, _ => seen
  | n + 1, seen, unprocessed =>
    if unprocessed = ∅ then seen
    else
      let seen := seen ∪ unprocessed
      walk n seen (unprocessed.biUnion succ \ seen)

variable {succ} {U : Finset α}

/-- The walk finds only what was there already or can be reached. -/
theorem reaches_of_mem_walk {n : ℕ} {seen unprocessed : Finset α} {x : α}
    (h : x ∈ walk succ n seen unprocessed) :
    x ∈ seen ∨ ∃ u ∈ unprocessed, ReflTransGen (Edge succ) u x := by
  induction n generalizing seen unprocessed with
  | zero => exact Or.inl h
  | succ n ih =>
    rw [walk] at h
    split at h
    · exact Or.inl h
    · rcases ih h with hseen | hreach
      · rcases Finset.mem_union.mp hseen with hx | hx
        · exact Or.inl hx
        · exact Or.inr ⟨x, hx, ReflTransGen.refl⟩
      · rcases hreach with ⟨v, hv, hpath⟩
        rcases Finset.mem_biUnion.mp (Finset.mem_sdiff.mp hv).1 with ⟨u, hu, hedge⟩
        exact Or.inr ⟨u, hu, ReflTransGen.head hedge hpath⟩

/-- Each round sees a new node, so the walk ends with a set closed under successors. -/
theorem walk_closed (hU : ∀ x ∈ U, succ x ⊆ U) {n : ℕ} {seen unprocessed : Finset α}
    (hseen : seen ⊆ U) (hun : unprocessed ⊆ U) (hdisj : Disjoint unprocessed seen)
    (hclosed : ∀ x ∈ seen, succ x ⊆ seen ∪ unprocessed) (hfuel : U.card < n + seen.card) :
    seen ∪ unprocessed ⊆ walk succ n seen unprocessed ∧
      ∀ x ∈ walk succ n seen unprocessed, succ x ⊆ walk succ n seen unprocessed := by
  induction n generalizing seen unprocessed with
  | zero =>
    have hcard := Finset.card_le_card hseen
    omega
  | succ n ih =>
    rw [walk]
    split
    · next hempty =>
      rw [hempty, Finset.union_empty] at hclosed ⊢
      exact ⟨subset_rfl, hclosed⟩
    · next hempty =>
      have hpos : 0 < unprocessed.card :=
        Finset.card_pos.mpr (Finset.nonempty_iff_ne_empty.mpr hempty)
      have hcard : (seen ∪ unprocessed).card = seen.card + unprocessed.card :=
        Finset.card_union_of_disjoint hdisj.symm
      have hall : seen ∪ unprocessed ⊆ U := Finset.union_subset hseen hun
      have hnext : ∀ x ∈ seen ∪ unprocessed, succ x ⊆
          (seen ∪ unprocessed) ∪ (unprocessed.biUnion succ \ (seen ∪ unprocessed)) := by
        intro x hx
        rw [Finset.union_sdiff_self_eq_union]
        rcases Finset.mem_union.mp hx with hx | hx
        · exact (hclosed x hx).trans Finset.subset_union_left
        · exact (Finset.subset_biUnion_of_mem succ hx).trans Finset.subset_union_right
      have hun' : unprocessed.biUnion succ \ (seen ∪ unprocessed) ⊆ U :=
        Finset.sdiff_subset.trans (Finset.biUnion_subset.mpr fun x hx => hU x (hun hx))
      have hrest := ih hall hun' Finset.sdiff_disjoint hnext (by omega)
      exact ⟨Finset.subset_union_left.trans hrest.1, hrest.2⟩

/-- **A walk finds exactly the nodes that can be reached.** -/
theorem mem_walk (hU : ∀ x ∈ U, succ x ⊆ U) {n : ℕ} (hn : U.card < n) {start : Finset α}
    (hstart : start ⊆ U) {x : α} :
    x ∈ walk succ n ∅ start ↔ ∃ u ∈ start, ReflTransGen (Edge succ) u x := by
  constructor
  · intro h
    rcases reaches_of_mem_walk h with hx | hreach
    · exact absurd hx (Finset.notMem_empty x)
    · exact hreach
  · intro h
    rcases h with ⟨u, hu, hpath⟩
    have hclosed := walk_closed (n := n) hU (Finset.empty_subset U) hstart
      (Finset.disjoint_empty_right start) (by simp) (by simpa using hn)
    have hsub : start ⊆ walk succ n ∅ start := by simpa using hclosed.1
    induction hpath with
    | refl => exact hsub hu
    | tail _ hedge ih => exact hclosed.2 _ ih hedge

/-! ## Levels -/

variable (succ) in
/-- Raise the unprocessed nodes to the next level, and go on with the successors of those that
were below it. -/
def raiseLevels (start : ℕ) : ℕ → ℕ → Finset α → Finset α → (α → ℕ) → Option (α → ℕ)
  | 0, _, _, _, _ => none
  | n + 1, level, seen, unprocessed, levels =>
    if unprocessed = ∅ then some levels
    else
      let seen := seen ∪ unprocessed
      let level := level + 1
      let raised := unprocessed.filter fun x => levels x < level
      if seen.card < level - start then none
      else raiseLevels start n level seen (raised.biUnion succ) fun x =>
        if x ∈ raised then level else levels x

/-- Levels increase along every edge, but perhaps for the edges into unprocessed nodes. -/
def Rising (succ : α → Finset α) (level : ℕ) (unprocessed : Finset α) (levels : α → ℕ) : Prop :=
  ∀ x, ∀ y ∈ succ x, levels x < levels y ∨ y ∈ unprocessed ∧ levels x ≤ level

theorem Rising.raise {level : ℕ} {unprocessed : Finset α} {levels : α → ℕ}
    (h : Rising succ level unprocessed levels) :
    let raised := unprocessed.filter fun x => levels x < level + 1
    Rising succ (level + 1) (raised.biUnion succ) fun x =>
      if x ∈ raised then level + 1 else levels x := by
  intro raised x y hy
  by_cases hx : x ∈ raised
  · exact Or.inr ⟨Finset.mem_biUnion.mpr ⟨x, hx, hy⟩, by simp [hx]⟩
  · left
    simp only [hx, if_false]
    rcases h x y hy with hlt | ⟨hun, hle⟩
    · by_cases hyr : y ∈ raised
      · have hlow := (Finset.mem_filter.mp hyr).2
        simp only [hyr, if_true]
        omega
      · simpa [hyr] using hlt
    · by_cases hyr : y ∈ raised
      · simp only [hyr, if_true]
        omega
      · have hhigh : ¬ levels y < level + 1 := fun hlow =>
          hyr (Finset.mem_filter.mpr ⟨hun, hlow⟩)
        simp only [hyr, if_false]
        omega

/-- Every unprocessed node is preceded by as many nodes seen as there were rounds. -/
def Preceded (rank : α → ℕ) (rounds : ℕ) (seen unprocessed : Finset α) : Prop :=
  ∀ u ∈ unprocessed, ∃ F ⊆ seen, F.card = rounds ∧ ∀ x ∈ F, rank x < rank u

theorem Preceded.next {rank : α → ℕ} {rounds : ℕ} {seen unprocessed raised : Finset α}
    (h : Preceded rank rounds seen unprocessed) (hraised : raised ⊆ unprocessed)
    (hrank : ∀ x ∈ raised, ∀ y ∈ succ x, rank x < rank y) :
    Preceded rank (rounds + 1) (seen ∪ unprocessed) (raised.biUnion succ) := by
  intro v hv
  rcases Finset.mem_biUnion.mp hv with ⟨u, hu, hedge⟩
  rcases h u (hraised hu) with ⟨F, hF, hcard, hlt⟩
  have hnot : u ∉ F := fun hmem => lt_irrefl _ (hlt u hmem)
  have hlast := hrank u hu v hedge
  refine ⟨insert u F, ?_, by rw [Finset.card_insert_of_notMem hnot, hcard], ?_⟩
  · exact Finset.insert_subset (Finset.mem_union_right _ (hraised hu))
      (hF.trans Finset.subset_union_left)
  · intro x hx
    rcases Finset.mem_insert.mp hx with rfl | hx
    · exact hlast
    · exact (hlt x hx).trans hlast

theorem Preceded.lt_card {rank : α → ℕ} {rounds : ℕ} {seen unprocessed : Finset α}
    (h : Preceded rank rounds seen unprocessed) (hne : unprocessed ≠ ∅) :
    rounds < (seen ∪ unprocessed).card := by
  rcases Finset.nonempty_iff_ne_empty.mpr hne with ⟨u, hu⟩
  rcases h u hu with ⟨F, hF, hcard, hlt⟩
  have hnot : u ∉ F := fun hmem => lt_irrefl _ (hlt u hmem)
  have hsub : insert u F ⊆ seen ∪ unprocessed :=
    Finset.insert_subset (Finset.mem_union_right _ hu) (hF.trans Finset.subset_union_left)
  have hle := Finset.card_le_card hsub
  rw [Finset.card_insert_of_notMem hnot] at hle
  omega

/-- Levels that were repaired: they increase along every edge, and no more than that takes. -/
structure Repaired (succ : α → Finset α) (R : Finset α) (levels levels' : α → ℕ) : Prop where
  le : ∀ x, levels x ≤ levels' x
  lt_of_edge : ∀ x, ∀ y ∈ succ x, levels' x < levels' y
  eq_of_notMem : ∀ x ∉ R, levels' x = levels x
  tight : ∀ y, levels' y = levels y ∨ ∃ x, y ∈ succ x ∧ levels' y = levels' x + 1

/-- What holds before each round of the repair; `R` holds the nodes it may follow, and `rank`
increases along the edges between them. -/
structure Repairing (succ : α → Finset α) (R : Finset α) (rank levels : α → ℕ) (start rounds : ℕ)
    (seen unprocessed : Finset α) (current : α → ℕ) : Prop where
  seen_subset : seen ⊆ R
  unprocessed_subset : unprocessed ⊆ R
  rounds_le : rounds ≤ seen.card
  preceded : Preceded rank rounds seen unprocessed
  rising : Rising succ (start + rounds) unprocessed current
  /-- An unprocessed node is the successor of one that has reached the level. -/
  caused : ∀ y ∈ unprocessed, ∃ x, y ∈ succ x ∧ start + rounds ≤ current x
  le : ∀ x, levels x ≤ current x
  eq_of_notMem : ∀ x ∉ R, current x = levels x
  tight : ∀ y, current y = levels y ∨ ∃ x, y ∈ succ x ∧ current y ≤ current x + 1

variable {R : Finset α} {rank levels : α → ℕ} {start rounds : ℕ} {seen unprocessed : Finset α}
  {current : α → ℕ}

/-- One round. -/
theorem Repairing.next (h : Repairing succ R rank levels start rounds seen unprocessed current)
    (hR : ∀ x ∈ R, succ x ⊆ R) (hrank : ∀ x ∈ R, ∀ y ∈ succ x, rank x < rank y)
    (hne : unprocessed ≠ ∅) :
    let raised := unprocessed.filter fun x => current x < start + rounds + 1
    Repairing succ R rank levels start (rounds + 1) (seen ∪ unprocessed) (raised.biUnion succ)
      fun x => if x ∈ raised then start + rounds + 1 else current x := by
  intro raised
  have hraised : raised ⊆ unprocessed := Finset.filter_subset _ _
  have hgrow : ∀ x, current x ≤ if x ∈ raised then start + rounds + 1 else current x := by
    intro x
    split
    · next hx => exact (Finset.mem_filter.mp hx).2.le
    · exact le_rfl
  refine ⟨Finset.union_subset h.seen_subset h.unprocessed_subset, ?_, h.preceded.lt_card hne,
    h.preceded.next hraised fun x hx => hrank x (h.unprocessed_subset (hraised hx)),
    h.rising.raise, ?_, fun x => (h.le x).trans (hgrow x), ?_, ?_⟩
  · exact Finset.biUnion_subset.mpr fun x hx => hR x (h.unprocessed_subset (hraised hx))
  · intro y hy
    rcases Finset.mem_biUnion.mp hy with ⟨x, hx, hedge⟩
    exact ⟨x, hedge, by rw [if_pos hx]; omega⟩
  · intro x hx
    have hnot : x ∉ raised := fun hmem => hx (h.unprocessed_subset (hraised hmem))
    rw [if_neg hnot, h.eq_of_notMem x hx]
  · intro y
    by_cases hy : y ∈ raised
    · rcases h.caused y (hraised hy) with ⟨x, hedge, hx⟩
      have hx' := hgrow x
      exact Or.inr ⟨x, hedge, by rw [if_pos hy]; omega⟩
    · rw [if_neg hy]
      rcases h.tight y with heq | ⟨x, hedge, hx⟩
      · exact Or.inl heq
      · have hx' := hgrow x
        exact Or.inr ⟨x, hedge, by omega⟩

omit [DecidableEq α] in
theorem Repairing.repaired (h : Repairing succ R rank levels start rounds seen ∅ current) :
    Repaired succ R levels current := by
  have hup : ∀ x, ∀ y ∈ succ x, current x < current y := by
    intro x y hy
    rcases h.rising x y hy with hlt | ⟨hmem, _⟩
    · exact hlt
    · exact absurd hmem (Finset.notMem_empty y)
  refine ⟨h.le, hup, h.eq_of_notMem, ?_⟩
  intro y
  rcases h.tight y with heq | ⟨x, hedge, hle⟩
  · exact Or.inl heq
  · have hlt := hup x y hedge
    exact Or.inr ⟨x, hedge, by omega⟩

/-- **Where there are no cycles, the repair succeeds**: the loop ends before its own test stops
it, and before the bound does. -/
theorem raiseLevels_spec (hR : ∀ x ∈ R, succ x ⊆ R)
    (hrank : ∀ x ∈ R, ∀ y ∈ succ x, rank x < rank y) {n : ℕ}
    (h : Repairing succ R rank levels start rounds seen unprocessed current)
    (hfuel : R.card < n + rounds) :
    ∃ levels', raiseLevels succ start n (start + rounds) seen unprocessed current = some levels' ∧
      Repaired succ R levels levels' := by
  induction n generalizing rounds seen unprocessed current with
  | zero =>
    have hcard := Finset.card_le_card h.seen_subset
    have hrounds := h.rounds_le
    omega
  | succ n ih =>
    rw [raiseLevels]
    by_cases hempty : unprocessed = ∅
    · subst hempty
      exact ⟨current, rfl, h.repaired⟩
    · have hlt := h.preceded.lt_card hempty
      have hsmall : ¬ (seen ∪ unprocessed).card < start + rounds + 1 - start := by omega
      rw [if_neg hempty]
      simp only [hsmall, if_false]
      exact ih (h.next hR hrank hempty) (by omega)

end Worklist
