import Mathlib.Computability.Language

/-!
# Regular expressions over character classes

The patterns of grep, sed and awk are built from character classes, so the atoms here
are predicates on the alphabet rather than single letters.  The meaning of a pattern
is a Mathlib `Language`; membership is decided by Brzozowski derivatives, and
`mem_lang_deriv_iff` is the only fact about derivatives the matcher needs.

## Main definitions

* `Regex α`, `Regex.lang` — patterns and the language of a pattern.
* `Regex.deriv`, `Regex.nullable` — the executable side.
* `Regex.any`, `Regex.plus`, `Regex.classes`, `Regex.word` — the derived patterns the
  scripts are written with.
-/

open Computability

namespace Unix

universe u

/-- A pattern over the alphabet `α`. -/
inductive Regex (α : Type u) where
  | empty
  | eps
  | cls (p : α → Bool)
  | alt (r s : Regex α)
  | seq (r s : Regex α)
  | star (r : Regex α)

namespace Regex
variable {α : Type u}

/-- The texts a pattern matches. -/
def lang : Regex α → Language α
  | empty => 0
  | eps => 1
  | cls p => {x | ∃ a, p a = true ∧ x = [a]}
  | alt r s => r.lang + s.lang
  | seq r s => r.lang * s.lang
  | star r => r.lang∗

/-- The pattern matches the empty text. -/
def nullable : Regex α → Bool
  | empty => false
  | eps => true
  | cls _ => false
  | alt r s => r.nullable || s.nullable
  | seq r s => r.nullable && s.nullable
  | star _ => true

/-- The pattern for what may follow the letter `a`. -/
def deriv : Regex α → α → Regex α
  | empty, _ => empty
  | eps, _ => empty
  | cls p, a => if p a then eps else empty
  | alt r s, a => alt (r.deriv a) (s.deriv a)
  | seq r s, a => if r.nullable then alt (seq (r.deriv a) s) (s.deriv a) else seq (r.deriv a) s
  | star r, a => seq (r.deriv a) (star r)

@[simp] theorem notMem_lang_empty (x : List α) : x ∉ (empty : Regex α).lang := id
@[simp] theorem mem_lang_eps (x : List α) : x ∈ (eps : Regex α).lang ↔ x = [] := Iff.rfl
@[simp] theorem mem_lang_cls (p : α → Bool) (x : List α) :
    x ∈ (cls p).lang ↔ ∃ a, p a = true ∧ x = [a] := Iff.rfl
@[simp] theorem mem_lang_alt (r s : Regex α) (x : List α) :
    x ∈ (alt r s).lang ↔ x ∈ r.lang ∨ x ∈ s.lang := Iff.rfl
theorem mem_lang_seq (r s : Regex α) (x : List α) :
    x ∈ (seq r s).lang ↔ ∃ y ∈ r.lang, ∃ z ∈ s.lang, y ++ z = x := Language.mem_mul

theorem nullable_iff (r : Regex α) : r.nullable = true ↔ [] ∈ r.lang := by
  induction r with
  | empty => simp [nullable]
  | eps => simp [nullable]
  | cls p => simp [nullable]
  | alt r s ihr ihs => simp [nullable, ihr, ihs]
  | seq r s ihr ihs => simp [nullable, ihr, ihs, mem_lang_seq]
  | star r _ =>
    simp only [nullable, true_iff]
    exact Language.nil_mem_kstar r.lang

/-- A non-empty iteration starts with a non-empty round. -/
theorem cons_mem_lang_star_iff (r : Regex α) (a : α) (x : List α) :
    a :: x ∈ (star r).lang ↔ ∃ y z, a :: y ∈ r.lang ∧ z ∈ (star r).lang ∧ y ++ z = x := by
  constructor
  · intro h
    obtain ⟨L, hL, hmem⟩ := Language.mem_kstar_iff_exists_nonempty.mp h
    cases L with
    | nil => simp at hL
    | cons w L =>
      obtain ⟨hw, hne⟩ := hmem w (by simp)
      cases w with
      | nil => exact absurd rfl hne
      | cons b w =>
        rw [List.flatten_cons, List.cons_append, List.cons.injEq] at hL
        obtain ⟨rfl, rfl⟩ := hL
        refine ⟨w, L.flatten, hw, ?_, rfl⟩
        exact Language.join_mem_kstar fun y hy => (hmem y (by simp [hy])).1
  · intro hsplit
    rcases hsplit with ⟨y, z, hy, hz, rfl⟩
    obtain ⟨L, rfl, hL⟩ := Language.mem_kstar.mp hz
    have hmem : ∀ w ∈ (a :: y) :: L, w ∈ r.lang := by
      intro w hw
      rcases List.mem_cons.mp hw with rfl | hw
      · exact hy
      · exact hL w hw
    simpa using! Language.join_mem_kstar hmem

/-- What the derivative is for. -/
theorem mem_lang_deriv_iff (r : Regex α) (a : α) (x : List α) :
    x ∈ (r.deriv a).lang ↔ a :: x ∈ r.lang := by
  induction r generalizing x with
  | empty => simp [deriv]
  | eps => simp [deriv]
  | cls p =>
    cases hp : p a <;> simp [deriv, hp]
  | alt r s ihr ihs => simp [deriv, ihr, ihs]
  | seq r s ihr ihs =>
    have hcons : (∃ y, a :: y ∈ r.lang ∧ ∃ z ∈ s.lang, y ++ z = x) ↔
        x ∈ (seq (r.deriv a) s).lang := by simp [mem_lang_seq, ihr]
    have hsplit : a :: x ∈ (seq r s).lang ↔
        ([] ∈ r.lang ∧ a :: x ∈ s.lang) ∨ x ∈ (seq (r.deriv a) s).lang := by
      rw [mem_lang_seq, ← hcons]
      constructor
      · intro hsplit
        rcases hsplit with ⟨y, hy, z, hz, h⟩
        cases y with
        | nil => exact Or.inl ⟨hy, by simpa [← h] using hz⟩
        | cons b y =>
          rw [List.cons_append, List.cons.injEq] at h
          obtain ⟨rfl, rfl⟩ := h
          exact Or.inr ⟨y, hy, z, hz, rfl⟩
      · intro hcases
        rcases hcases with ⟨hr, hs⟩ | ⟨y, hy, z, hz, rfl⟩
        · exact ⟨[], hr, a :: x, hs, rfl⟩
        · exact ⟨a :: y, hy, z, hz, rfl⟩
    rw [hsplit, ← nullable_iff, deriv]
    cases r.nullable <;> simp [ihs, or_comm]
  | star r ih =>
    rw [deriv, mem_lang_seq, cons_mem_lang_star_iff]
    simp only [ih]
    constructor
    · rintro ⟨y, hy, z, hz, h⟩; exact ⟨y, z, hy, hz, h⟩
    · rintro ⟨y, z, hy, hz, h⟩; exact ⟨y, hy, z, hz, h⟩

/-! ## Derived patterns -/

/-- Any one character, the dot of the pattern syntax. -/
def any : Regex α := cls fun _ => true

/-- One or more rounds of a pattern. -/
def plus (r : Regex α) : Regex α := seq r (star r)

/-- One character of each class, in order. -/
def classes : List (α → Bool) → Regex α
  | [] => eps
  | p :: ps => seq (cls p) (classes ps)

/-- A literal text. -/
def word [DecidableEq α] (w : List α) : Regex α := classes (w.map fun a b => decide (b = a))

@[simp] theorem mem_lang_any (x : List α) : x ∈ (any : Regex α).lang ↔ ∃ a, x = [a] := by
  simp [any]

theorem mem_lang_plus_iff (r : Regex α) (x : List α) :
    x ∈ (plus r).lang ↔ ∃ y ∈ r.lang, ∃ z ∈ (star r).lang, y ++ z = x := mem_lang_seq _ _ x

theorem nil_mem_lang_star (r : Regex α) : [] ∈ (star r).lang := Language.nil_mem_kstar r.lang

/-- A class repeated matches the texts made of its characters. -/
theorem mem_lang_star_cls_iff (p : α → Bool) (x : List α) :
    x ∈ (star (cls p)).lang ↔ ∀ a ∈ x, p a = true := by
  induction x with
  | nil => simp [nil_mem_lang_star]
  | cons a x ih =>
    rw [cons_mem_lang_star_iff]
    constructor
    · intro hsplit
      rcases hsplit with ⟨y, z, ⟨b, hb, hab⟩, hz, rfl⟩
      rw [List.cons.injEq] at hab
      obtain ⟨rfl, rfl⟩ := hab
      simpa [hb] using ih.mp hz
    · intro h
      refine ⟨[], x, ⟨a, h a (by simp), rfl⟩, ih.mpr fun b hb => h b (by simp [hb]), rfl⟩

theorem mem_lang_plus_cls_iff (p : α → Bool) (x : List α) :
    x ∈ (plus (cls p)).lang ↔ x ≠ [] ∧ ∀ a ∈ x, p a = true := by
  rw [mem_lang_plus_iff]
  constructor
  · intro hyp
    rcases hyp with ⟨y, ⟨a, ha, rfl⟩, z, hz, rfl⟩
    simpa [ha] using (mem_lang_star_cls_iff p z).mp hz
  · intro hyp
    rcases hyp with ⟨hx, h⟩
    obtain ⟨a, x, rfl⟩ := List.exists_cons_of_ne_nil hx
    refine ⟨[a], ⟨a, h a (by simp), rfl⟩, x, ?_, rfl⟩
    exact (mem_lang_star_cls_iff p x).mpr fun b hb => h b (by simp [hb])

/-- The dot repeated matches every text but the empty one. -/
@[simp] theorem mem_lang_plus_any (x : List α) : x ∈ (plus (any : Regex α)).lang ↔ x ≠ [] := by
  simp [any, mem_lang_plus_cls_iff]

/-- Rounds written one after the other. -/
theorem mem_lang_plus_iff_flatten (r : Regex α) (x : List α) :
    x ∈ (plus r).lang ↔ ∃ ys : List (List α), ys ≠ [] ∧ x = ys.flatten ∧ ∀ y ∈ ys, y ∈ r.lang := by
  rw [mem_lang_plus_iff]
  constructor
  · intro h
    rcases h with ⟨y, hy, z, hz, rfl⟩
    obtain ⟨ys, rfl, hys⟩ := Language.mem_kstar.mp hz
    refine ⟨y :: ys, by simp, by simp, ?_⟩
    intro y' hy'
    rcases List.mem_cons.mp hy' with rfl | hy'
    · exact hy
    · exact hys y' hy'
  · intro h
    rcases h with ⟨ys, hne, rfl, hys⟩
    obtain ⟨y, ys, rfl⟩ := List.exists_cons_of_ne_nil hne
    refine ⟨y, hys y (by simp), ys.flatten, ?_, by simp⟩
    exact Language.join_mem_kstar fun y' hy' => hys y' (by simp [hy'])

/-- One more round. -/
theorem append_mem_lang_plus {r : Regex α} {x y : List α} (hx : x ∈ (plus r).lang)
    (hy : y ∈ r.lang) : x ++ y ∈ (plus r).lang := by
  obtain ⟨ys, -, rfl, hys⟩ := (mem_lang_plus_iff_flatten r x).mp hx
  refine (mem_lang_plus_iff_flatten r _).mpr ⟨ys ++ [y], by simp, by simp, ?_⟩
  intro y' hy'
  rcases List.mem_append.mp hy' with hy' | hy'
  · exact hys y' hy'
  · rw [List.mem_singleton.mp hy']; exact hy

theorem mem_lang_plus_self {r : Regex α} {x : List α} (hx : x ∈ r.lang) : x ∈ (plus r).lang :=
  (mem_lang_plus_iff r x).mpr ⟨x, hx, [], nil_mem_lang_star r, by simp⟩

theorem mem_lang_classes_iff (ps : List (α → Bool)) (x : List α) :
    x ∈ (classes ps).lang ↔ List.Forall₂ (fun p a => p a = true) ps x := by
  induction ps generalizing x with
  | nil => simp [classes]
  | cons p ps ih =>
    rw [classes, mem_lang_seq]
    constructor
    · intro h
      rcases h with ⟨y, ⟨a, ha, rfl⟩, z, hz, rfl⟩
      exact List.Forall₂.cons ha ((ih z).mp hz)
    · intro h
      rcases h with _ | ⟨ha, hx⟩
      exact ⟨[_], ⟨_, ha, rfl⟩, _, (ih _).mpr hx, rfl⟩

@[simp] theorem mem_lang_word [DecidableEq α] (w x : List α) : x ∈ (word w).lang ↔ x = w := by
  rw [word, mem_lang_classes_iff, List.forall₂_map_left_iff]
  simp only [decide_eq_true_eq]
  constructor
  · intro h
    have hflip : List.Forall₂ (fun a b => a = b) x w := h.flip
    rwa [List.forall₂_eq_eq_eq] at hflip
  · rintro rfl
    exact List.forall₂_same.mpr fun _ _ => rfl

end Regex
end Unix
