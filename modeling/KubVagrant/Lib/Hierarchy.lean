import Mathlib.Logic.Relation
import Mathlib.Order.Basic

/-!
# Hierarchies of groups with members

Groups have child groups and members of their own; a group contains the members of every
group below it.  `addChild` and `addMember` add an edge and a member; the lemmas say how the
groups that contain a member change, and which edge keeps a hierarchy free of cycles.

## Main definitions

* `Hierarchy`, `Below`, `Contains` — a hierarchy, the order, and the members of a group.
* `Hierarchy.Acyclic` — no group is below itself.
* `addChild`, `addMember`, `removeMember` — the operations.
-/

open Relation

universe u v w

/-- Child groups, and the members of a group itself. -/
structure Hierarchy (G : Type u) (H : Type v) where
  child : G → G → Prop
  direct : G → H → Prop

namespace Hierarchy
variable {G : Type u} {H : Type v} (t : Hierarchy G H)

/-- `d` is `g` or below it. -/
def Below (g d : G) : Prop := ReflTransGen t.child g d

/-- `h` is a member of `g` or of a group below it. -/
def Contains (g : G) (h : H) : Prop := ∃ d, t.Below g d ∧ t.direct d h

/-- No group is below itself. -/
def Acyclic : Prop := ∀ g, ¬ TransGen t.child g g

/-- Make `c` a child of `p`. -/
def addChild (p c : G) : Hierarchy G H where
  child x y := t.child x y ∨ x = p ∧ y = c
  direct := t.direct

/-- Make `h` a member of `g`. -/
def addMember (g : G) (h : H) : Hierarchy G H where
  child := t.child
  direct x y := t.direct x y ∨ x = g ∧ y = h

/-- Remove `h` from the members of `g` itself. -/
def removeMember (g : G) (h : H) : Hierarchy G H where
  child := t.child
  direct x y := t.direct x y ∧ ¬ (x = g ∧ y = h)

variable {t} {g p c x y : G} {h k : H}

theorem Below.contains (hb : t.Below x y) (hc : t.Contains y h) : t.Contains x h := by
  rcases hc with ⟨d, hd, hdirect⟩
  exact ⟨d, hb.trans hd, hdirect⟩

/-- A group without children contains its own members. -/
theorem contains_iff_of_no_child (hnone : ∀ c, ¬ t.child x c) :
    t.Contains x h ↔ t.direct x h := by
  refine ⟨fun hc => ?_, fun hdirect => ⟨x, ReflTransGen.refl, hdirect⟩⟩
  rcases hc with ⟨d, hpath, hdirect⟩
  rcases ReflTransGen.cases_head hpath with rfl | ⟨c, hchild, _⟩
  · exact hdirect
  · exact absurd hchild (hnone c)

/-! ## A new edge -/

theorem Below.addChild (hb : t.Below x y) (p c : G) : (t.addChild p c).Below x y :=
  ReflTransGen.mono (fun _ _ hedge => Or.inl hedge) _ _ hb

/-- A path over the new edge goes to its start, over it, and on from its end. -/
theorem below_addChild_iff :
    (t.addChild p c).Below x y ↔ t.Below x y ∨ t.Below x p ∧ t.Below c y := by
  constructor
  · intro hb
    induction hb with
    | refl => exact Or.inl ReflTransGen.refl
    | tail _ hedge ih =>
      rcases hedge with hold | ⟨rfl, rfl⟩
      · rcases ih with hxy | ⟨hxp, hcy⟩
        · exact Or.inl (hxy.tail hold)
        · exact Or.inr ⟨hxp, hcy.tail hold⟩
      · rcases ih with hxp | ⟨hxp, _⟩
        · exact Or.inr ⟨hxp, ReflTransGen.refl⟩
        · exact Or.inr ⟨hxp, ReflTransGen.refl⟩
  · intro hb
    rcases hb with hxy | ⟨hxp, hcy⟩
    · exact hxy.addChild p c
    · have hedge : (t.addChild p c).child p c := Or.inr ⟨rfl, rfl⟩
      exact (hxp.addChild p c).trans ((ReflTransGen.single hedge).trans (hcy.addChild p c))

theorem contains_addChild_iff :
    (t.addChild p c).Contains x h ↔ t.Contains x h ∨ t.Below x p ∧ t.Contains c h := by
  constructor
  · intro hc
    rcases hc with ⟨d, hd, hdirect⟩
    rcases below_addChild_iff.mp hd with hxd | ⟨hxp, hcd⟩
    · exact Or.inl ⟨d, hxd, hdirect⟩
    · exact Or.inr ⟨hxp, d, hcd, hdirect⟩
  · intro hc
    rcases hc with ⟨d, hd, hdirect⟩ | ⟨hxp, d, hcd, hdirect⟩
    · exact ⟨d, hd.addChild p c, hdirect⟩
    · exact ⟨d, below_addChild_iff.mpr (Or.inr ⟨hxp, hcd⟩), hdirect⟩

/-! ## A new member -/

theorem contains_addMember_iff :
    (t.addMember g k).Contains x h ↔ t.Contains x h ∨ t.Below x g ∧ h = k := by
  constructor
  · intro hc
    rcases hc with ⟨d, hd, hdirect | ⟨rfl, rfl⟩⟩
    · exact Or.inl ⟨d, hd, hdirect⟩
    · exact Or.inr ⟨hd, rfl⟩
  · intro hc
    rcases hc with ⟨d, hd, hdirect⟩ | ⟨hxg, rfl⟩
    · exact ⟨d, hd, Or.inl hdirect⟩
    · exact ⟨g, hxg, Or.inr ⟨rfl, rfl⟩⟩

/-! ## A member removed -/

theorem contains_of_removeMember (hc : (t.removeMember g k).Contains x h) : t.Contains x h := by
  rcases hc with ⟨d, hd, hdirect⟩
  exact ⟨d, hd, hdirect.1⟩

theorem contains_removeMember_of_ne (hne : h ≠ k) :
    (t.removeMember g k).Contains x h ↔ t.Contains x h := by
  refine ⟨contains_of_removeMember, ?_⟩
  intro hc
  rcases hc with ⟨d, hd, hdirect⟩
  exact ⟨d, hd, hdirect, fun heq => hne heq.2⟩

/-- A group that `g` is not below keeps its members. -/
theorem contains_removeMember_of_not_below (hnot : ¬ t.Below x g) :
    (t.removeMember g k).Contains x h ↔ t.Contains x h := by
  refine ⟨contains_of_removeMember, ?_⟩
  intro hc
  rcases hc with ⟨d, hd, hdirect⟩
  exact ⟨d, hd, hdirect, fun heq => hnot (heq.1 ▸ hd)⟩

/-! ## Cycles -/

variable {L : Type w} [Preorder L]

/-- Levels that increase along the edges rule out cycles. -/
theorem lt_of_transGen {level : G → L} (hlevel : ∀ x y, t.child x y → level x < level y)
    (hpath : TransGen t.child x y) : level x < level y := by
  induction hpath with
  | single hedge => exact hlevel _ _ hedge
  | tail _ hedge ih => exact ih.trans (hlevel _ _ hedge)

theorem acyclic_of_level {level : G → L} (hlevel : ∀ x y, t.child x y → level x < level y) :
    t.Acyclic := fun _ hpath => lt_irrefl _ (lt_of_transGen hlevel hpath)

end Hierarchy
