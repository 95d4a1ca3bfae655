import KubVagrant.Lib.Regex

/-!
# Leftmost-longest search

`search r l` is the match the POSIX tools report: of all places where `r` matches
inside `l` the leftmost, and there the longest.  `search_eq_some_iff` states exactly
that, so results about a concrete pattern never look at the matcher again.

## Main definitions

* `Match` — a text cut into what stands before, in and after a match.
* `LeftmostLongest r l m` — the specification.
* `search r l`, `occurs r l`, `replaceFirst r f l` — awk's `match`, grep's test of a
  line, and sed's `s///` without flags.
-/

namespace Unix

universe u

/-- A text cut in three by a match. -/
structure Match (α : Type u) where
  before : List α
  matched : List α
  after : List α
  deriving DecidableEq, Repr

namespace Match
variable {α : Type u}

/-- The text that was cut. -/
def whole (m : Match α) : List α := m.before ++ m.matched ++ m.after

/-- The match of a longer text, one letter further to the right. -/
def shift (a : α) (m : Match α) : Match α := { m with before := a :: m.before }

@[simp] theorem whole_mk (x y z : List α) : (⟨x, y, z⟩ : Match α).whole = x ++ y ++ z := rfl
@[simp] theorem whole_shift (a : α) (m : Match α) : (m.shift a).whole = a :: m.whole := rfl
@[simp] theorem before_shift (a : α) (m : Match α) : (m.shift a).before = a :: m.before := rfl
@[simp] theorem matched_shift (a : α) (m : Match α) : (m.shift a).matched = m.matched := rfl
@[simp] theorem after_shift (a : α) (m : Match α) : (m.shift a).after = m.after := rfl

/-- A cut is determined by the whole and the lengths of its first two parts. -/
theorem ext_of_length {m m' : Match α} (hw : m.whole = m'.whole)
    (hb : m.before.length = m'.before.length) (hm : m.matched.length = m'.matched.length) :
    m = m' := by
  obtain ⟨x, y, z⟩ := m
  obtain ⟨x', y', z'⟩ := m'
  simp only [whole_mk, List.append_assoc] at hw hb hm
  obtain ⟨hx, hyz⟩ := List.append_inj hw hb
  obtain ⟨hy, hz⟩ := List.append_inj hyz hm
  rw [hx, hy, hz]

end Match

namespace Regex
variable {α : Type u}

/-- The longest prefix of `l` that `r` matches, and the rest of `l`. -/
def longestPrefix : Regex α → List α → Option (List α × List α)
  | r, [] => if r.nullable then some ([], []) else none
  | r, a :: l =>
    match longestPrefix (r.deriv a) l with
    | some (x, y) => some (a :: x, y)
    | none => if r.nullable then some ([], a :: l) else none

/-- The leftmost-longest match of `r` in `l`. -/
def search (r : Regex α) : List α → Option (Match α)
  | [] => (r.longestPrefix []).map fun xy => ⟨[], xy.1, xy.2⟩
  | a :: l =>
    match r.longestPrefix (a :: l) with
    | some (x, y) => some ⟨[], x, y⟩
    | none => (search r l).map (Match.shift a)

/-- `m` cuts `l` around a text that `r` matches. -/
def IsMatch (r : Regex α) (l : List α) (m : Match α) : Prop :=
  m.whole = l ∧ m.matched ∈ r.lang

/-- `m` is the match of `r` in `l` that starts leftmost and, there, is longest. -/
structure LeftmostLongest (r : Regex α) (l : List α) (m : Match α) : Prop where
  isMatch : IsMatch r l m
  leftmost : ∀ m', IsMatch r l m' → m.before.length ≤ m'.before.length
  longest : ∀ m', IsMatch r l m' → m'.before.length = m.before.length →
    m'.matched.length ≤ m.matched.length

/-! ## The longest prefix -/

theorem longestPrefix_eq_none_iff (r : Regex α) (l : List α) :
    r.longestPrefix l = none ↔ ∀ x y, x ++ y = l → x ∉ r.lang := by
  induction l generalizing r with
  | nil =>
    simp only [longestPrefix, ite_eq_right_iff, reduceCtorEq, imp_false, nullable_iff,
      List.append_eq_nil_iff]
    constructor
    · rintro h x y ⟨rfl, rfl⟩; exact h
    · intro h; exact h [] [] ⟨rfl, rfl⟩
  | cons a l ih =>
    have hsplit : (∀ x y, x ++ y = a :: l → x ∉ r.lang) ↔
        [] ∉ r.lang ∧ ∀ x y, x ++ y = l → x ∉ (r.deriv a).lang := by
      simp only [mem_lang_deriv_iff]
      constructor
      · exact fun h => ⟨h [] _ rfl, fun x y hxy => h (a :: x) y (by simp [hxy])⟩
      · rintro ⟨hnil, h⟩ x y hxy
        cases x with
        | nil => exact hnil
        | cons b x =>
          rw [List.cons_append, List.cons.injEq] at hxy
          obtain ⟨rfl, hxy⟩ := hxy
          exact h x y hxy
    rw [hsplit, ← ih, ← nullable_iff, longestPrefix]
    cases hd : (r.deriv a).longestPrefix l with
    | none => simp
    | some xy => simp

theorem longestPrefix_sound {r : Regex α} {l x y : List α} (h : r.longestPrefix l = some (x, y)) :
    x ++ y = l ∧ x ∈ r.lang ∧ ∀ x' y', x' ++ y' = l → x' ∈ r.lang → x'.length ≤ x.length := by
  induction l generalizing r x y with
  | nil =>
    simp only [longestPrefix, Option.ite_none_right_eq_some, Option.some.injEq,
      Prod.mk.injEq] at h
    obtain ⟨hr, rfl, rfl⟩ := h
    refine ⟨rfl, (nullable_iff r).mp hr, fun x' y' h' _ => ?_⟩
    simp [(List.append_eq_nil_iff.mp h').1]
  | cons a l ih =>
    rw [longestPrefix] at h
    cases hd : (r.deriv a).longestPrefix l with
    | some xy =>
      obtain ⟨x₁, y₁⟩ := xy
      simp only [hd, Option.some.injEq, Prod.mk.injEq] at h
      obtain ⟨rfl, rfl⟩ := h
      obtain ⟨hl, hx, hmax⟩ := ih hd
      refine ⟨by rw [List.cons_append, hl], (mem_lang_deriv_iff r a x₁).mp hx, ?_⟩
      intro x' y' hl' hx'
      cases x' with
      | nil => simp
      | cons b x' =>
        rw [List.cons_append, List.cons.injEq] at hl'
        obtain ⟨rfl, hl'⟩ := hl'
        have := hmax x' y' hl' ((mem_lang_deriv_iff r b x').mpr hx')
        simpa using this
    | none =>
      simp only [hd, Option.ite_none_right_eq_some, Option.some.injEq, Prod.mk.injEq] at h
      obtain ⟨hr, rfl, rfl⟩ := h
      refine ⟨rfl, (nullable_iff r).mp hr, ?_⟩
      -- no derivative matches, so a match of `r` here is empty
      intro x' y' hl' hx'
      cases x' with
      | nil => simp
      | cons b x' =>
        rw [List.cons_append, List.cons.injEq] at hl'
        obtain ⟨rfl, hl'⟩ := hl'
        have := (longestPrefix_eq_none_iff _ _).mp hd x' y' hl'
        exact absurd ((mem_lang_deriv_iff r b x').mpr hx') this

/-! ## The search -/

/-- A longest prefix is a match that cannot be further left. -/
theorem leftmostLongest_of_longestPrefix {r : Regex α} {l x y : List α}
    (h : r.longestPrefix l = some (x, y)) : LeftmostLongest r l ⟨[], x, y⟩ := by
  obtain ⟨hl, hx, hmax⟩ := longestPrefix_sound h
  refine ⟨⟨by simpa using hl, hx⟩, fun _ _ => by simp, ?_⟩
  intro m' hm' hbefore
  have hnil : m'.before = [] := List.eq_nil_of_length_eq_zero hbefore
  refine hmax m'.matched m'.after ?_ hm'.2
  simpa [Match.whole, hnil] using hm'.1

theorem isMatch_shift {r : Regex α} {l : List α} {m : Match α} (a : α) (h : IsMatch r l m) :
    IsMatch r (a :: l) (m.shift a) := ⟨by rw [Match.whole_shift, h.1], h.2⟩

/-- When no prefix matches, every match starts behind the first letter. -/
theorem exists_shift_of_isMatch {r : Regex α} {a : α} {l : List α} {m : Match α}
    (hnone : r.longestPrefix (a :: l) = none) (h : IsMatch r (a :: l) m) :
    ∃ m', m = m'.shift a ∧ IsMatch r l m' := by
  obtain ⟨x, y, z⟩ := m
  obtain ⟨hw, hy⟩ := h
  cases x with
  | nil => exact absurd hy ((longestPrefix_eq_none_iff _ _).mp hnone y z (by simpa using hw))
  | cons b x =>
    simp only [Match.whole_mk, List.cons_append, List.cons.injEq] at hw
    obtain ⟨rfl, hw⟩ := hw
    exact ⟨⟨x, y, z⟩, rfl, by simpa using hw, hy⟩

theorem search_eq_none_iff (r : Regex α) (l : List α) :
    r.search l = none ↔ ∀ m, ¬ IsMatch r l m := by
  induction l with
  | nil =>
    rw [search, Option.map_eq_none_iff, longestPrefix_eq_none_iff]
    constructor
    · intro h m hm
      have hw := hm.1
      simp only [Match.whole, List.append_eq_nil_iff] at hw
      exact h m.matched [] (by simp [hw.1.2]) hm.2
    · intro h x y hxy hx
      exact h ⟨[], x, y⟩ ⟨by simpa using hxy, hx⟩
  | cons a l ih =>
    rw [search]
    cases hp : r.longestPrefix (a :: l) with
    | some xy =>
      have hm := (leftmostLongest_of_longestPrefix hp).isMatch
      simp only [reduceCtorEq, false_iff, not_forall, not_not]
      exact ⟨_, hm⟩
    | none =>
      rw [Option.map_eq_none_iff, ih]
      constructor
      · intro h m hm
        obtain ⟨m', -, hm'⟩ := exists_shift_of_isMatch hp hm
        exact h m' hm'
      · intro h m hm
        exact h (m.shift a) (isMatch_shift a hm)

theorem search_sound {r : Regex α} {l : List α} {m : Match α} (h : r.search l = some m) :
    LeftmostLongest r l m := by
  induction l generalizing m with
  | nil =>
    rw [search, Option.map_eq_some_iff] at h
    obtain ⟨xy, hp, rfl⟩ := h
    exact leftmostLongest_of_longestPrefix hp
  | cons a l ih =>
    rw [search] at h
    cases hp : r.longestPrefix (a :: l) with
    | some xy =>
      simp only [hp, Option.some.injEq] at h
      subst h
      exact leftmostLongest_of_longestPrefix hp
    | none =>
      simp only [hp, Option.map_eq_some_iff] at h
      obtain ⟨m, hm, rfl⟩ := h
      have hrest := ih hm
      refine ⟨isMatch_shift a hrest.isMatch, ?_, ?_⟩
      · intro m' hm'
        obtain ⟨m'', rfl, hm''⟩ := exists_shift_of_isMatch hp hm'
        simpa using hrest.leftmost m'' hm''
      · intro m' hm' hbefore
        obtain ⟨m'', rfl, hm''⟩ := exists_shift_of_isMatch hp hm'
        exact hrest.longest m'' hm'' (by simpa using hbefore)

theorem LeftmostLongest.unique {r : Regex α} {l : List α} {m m' : Match α}
    (h : LeftmostLongest r l m) (h' : LeftmostLongest r l m') : m = m' := by
  have hb : m.before.length = m'.before.length :=
    le_antisymm (h.leftmost m' h'.isMatch) (h'.leftmost m h.isMatch)
  have hm : m.matched.length = m'.matched.length :=
    le_antisymm (h'.longest m h.isMatch hb) (h.longest m' h'.isMatch hb.symm)
  exact Match.ext_of_length (h.isMatch.1.trans h'.isMatch.1.symm) hb hm

/-- No match starts further to the left. -/
theorem LeftmostLongest.exists_before {r : Regex α} {l : List α} {m : Match α}
    (h : LeftmostLongest r l m) {x y z : List α} (hcut : IsMatch r l ⟨x, y, z⟩) :
    ∃ e, x = m.before ++ e ∧ m.matched ++ m.after = e ++ (y ++ z) := by
  have hle : m.before.length ≤ x.length := h.leftmost _ hcut
  have hcuts : m.before ++ (m.matched ++ m.after) = x ++ (y ++ z) := by
    rw [← List.append_assoc, ← List.append_assoc]
    exact h.isMatch.1.trans hcut.1.symm
  rcases List.append_eq_append_iff.mp hcuts with ⟨e, hx, hrest⟩ | ⟨e, hb, hrest⟩
  · exact ⟨e, hx, hrest⟩
  · have hlen := congrArg List.length hb
    rw [List.length_append] at hlen
    have hnil : e = [] := List.eq_nil_of_length_eq_zero (by omega)
    subst hnil
    exact ⟨[], by simpa using hb.symm, by simpa using hrest.symm⟩

/-- A match that starts at the same place is no longer. -/
theorem LeftmostLongest.exists_extension {r : Regex α} {l : List α} {m : Match α}
    (h : LeftmostLongest r l m) {y z : List α} (hcut : IsMatch r l ⟨m.before, y, z⟩) :
    ∃ e, m.matched = y ++ e ∧ z = e ++ m.after := by
  have hle : y.length ≤ m.matched.length := h.longest _ hcut rfl
  have hcuts : m.before ++ (m.matched ++ m.after) = m.before ++ (y ++ z) := by
    rw [← List.append_assoc, ← List.append_assoc]
    exact h.isMatch.1.trans hcut.1.symm
  rcases List.append_eq_append_iff.mp (List.append_cancel_left hcuts) with
    ⟨e, hy, hrest⟩ | ⟨e, hm, hrest⟩
  · have hlen := congrArg List.length hy
    rw [List.length_append] at hlen
    have hnil : e = [] := List.eq_nil_of_length_eq_zero (by omega)
    subst hnil
    exact ⟨[], by simpa using hy.symm, by simpa using hrest.symm⟩
  · exact ⟨e, hm, hrest⟩

/-- **The search finds the leftmost-longest match and nothing else.** -/
theorem search_eq_some_iff (r : Regex α) (l : List α) (m : Match α) :
    r.search l = some m ↔ LeftmostLongest r l m := by
  refine ⟨search_sound, fun h => ?_⟩
  cases hs : r.search l with
  | none => exact absurd h.isMatch ((search_eq_none_iff r l).mp hs m)
  | some m' => rw [(search_sound hs).unique h]

/-! ## Testing and replacing -/

/-- The pattern matches somewhere in the text. -/
def occurs (r : Regex α) (l : List α) : Bool := (r.search l).isSome

theorem occurs_iff (r : Regex α) (l : List α) :
    r.occurs l = true ↔ ∃ x y z, x ++ y ++ z = l ∧ y ∈ r.lang := by
  rw [occurs, Option.isSome_iff_ne_none, ne_eq, search_eq_none_iff]
  simp only [not_forall, not_not]
  constructor
  · rintro ⟨⟨x, y, z⟩, hw, hy⟩; exact ⟨x, y, z, hw, hy⟩
  · rintro ⟨x, y, z, hw, hy⟩; exact ⟨⟨x, y, z⟩, hw, hy⟩

/-- Searching for a literal text is looking for a sublist. -/
theorem occurs_word_iff [DecidableEq α] (w l : List α) : (word w).occurs l = true ↔ w <:+: l := by
  rw [occurs_iff]
  constructor
  · intro hocc
    rcases hocc with ⟨x, y, z, h, hy⟩
    rw [mem_lang_word] at hy
    exact ⟨x, z, by rw [← hy, h]⟩
  · intro hocc
    rcases hocc with ⟨x, z, h⟩
    exact ⟨x, w, z, h, (mem_lang_word w w).mpr rfl⟩

/-- Replace the leftmost-longest match `x` by `f x`; leave other texts alone. -/
def replaceFirst (r : Regex α) (f : List α → List α) (l : List α) : List α :=
  match r.search l with
  | some m => m.before ++ f m.matched ++ m.after
  | none => l

/-- A pattern that matches the whole text replaces all of it. -/
theorem replaceFirst_of_mem {r : Regex α} {l : List α} (h : l ∈ r.lang) (f : List α → List α) :
    r.replaceFirst f l = f l := by
  have hs : r.search l = some ⟨[], l, []⟩ := by
    rw [search_eq_some_iff]
    refine ⟨⟨by simp, h⟩, fun _ _ => by simp, ?_⟩
    rintro m ⟨hw, -⟩ -
    rw [← hw, Match.whole]
    simp only [List.length_append]
    omega
  simp [replaceFirst, hs]

theorem replaceFirst_of_not_occurs {r : Regex α} {l : List α} (h : ¬ r.occurs l = true)
    (f : List α → List α) : r.replaceFirst f l = l := by
  have hs : r.search l = none := by simpa [occurs] using h
  simp [replaceFirst, hs]

end Regex
end Unix
