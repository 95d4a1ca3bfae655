import Mathlib.Data.List.Infix
import Mathlib.Data.List.DropRight
import Mathlib.Algebra.BigOperators.Group.List.Basic

/-!
# Splitting into words

`wordsBy sep l` is the field splitting of the shell and of awk: maximal runs of
elements that are not separators.  Its two laws are that a separator splits a text
into two independent parts, and that the words, written one after the other, are the
non-separators of the text.  The second gives `wordsBy_append_eq_iff`: words are
unchanged by what surrounds a text exactly when only separators surround it.

`stripBy` removes separators from both ends.
-/

namespace Unix

universe u
variable {α : Type u} {sep : α → Bool}

/-- The maximal runs of elements that do not satisfy `sep`. -/
def wordsBy (sep : α → Bool) (l : List α) : List (List α) :=
  (l.splitOnP sep).filter fun w => !w.isEmpty

/-- Remove separators from both ends. -/
def stripBy (sep : α → Bool) (l : List α) : List α := (l.dropWhile sep).rdropWhile sep

@[simp] theorem wordsBy_nil : wordsBy sep ([] : List α) = [] := by simp [wordsBy]

/-- A separator splits a text into two independent parts. -/
theorem wordsBy_append_cons (a b : List α) {s : α} (hs : sep s = true) :
    wordsBy sep (a ++ s :: b) = wordsBy sep a ++ wordsBy sep b := by
  simp [wordsBy, List.splitOnP_append_cons a b hs]

@[simp] theorem wordsBy_cons_sep (b : List α) {s : α} (hs : sep s = true) :
    wordsBy sep (s :: b) = wordsBy sep b := by
  simpa using wordsBy_append_cons [] b hs

/-- A non-empty text without separators is one word. -/
theorem wordsBy_eq_singleton {l : List α} (hne : l ≠ []) (h : ∀ c ∈ l, sep c = false) :
    wordsBy sep l = [l] := by
  simp [wordsBy, List.splitOnP_eq_singleton h, hne]

/-- The first word of a text that starts with non-separators. -/
theorem wordsBy_append_of_forall {w : List α} (hne : w ≠ []) (h : ∀ c ∈ w, sep c = false)
    {s : α} (hs : sep s = true) (b : List α) :
    wordsBy sep (w ++ s :: b) = w :: wordsBy sep b := by
  rw [wordsBy_append_cons w b hs, wordsBy_eq_singleton hne h, List.singleton_append]

/-- A leading run of separators makes no word. -/
theorem wordsBy_append_left {p : List α} (hp : ∀ c ∈ p, sep c = true) (l : List α) :
    wordsBy sep (p ++ l) = wordsBy sep l := by
  induction p with
  | nil => rfl
  | cons s p ih =>
    rw [List.cons_append, wordsBy_cons_sep _ (hp s (by simp)),
      ih (fun c hc => hp c (by simp [hc]))]

theorem wordsBy_eq_nil_of_forall {p : List α} (hp : ∀ c ∈ p, sep c = true) :
    wordsBy sep p = [] := by
  simpa using wordsBy_append_left hp []

/-- A trailing run of separators makes no word. -/
theorem wordsBy_append_right (l : List α) {q : List α} (hq : ∀ c ∈ q, sep c = true) :
    wordsBy sep (l ++ q) = wordsBy sep l := by
  cases q with
  | nil => simp
  | cons s q =>
    have hnil : wordsBy sep q = [] :=
      wordsBy_eq_nil_of_forall fun c hc => hq c (by simp [hc])
    rw [wordsBy_append_cons l q (hq s (by simp)), hnil, List.append_nil]

/-- The elements of the words, in order, are the non-separators of the text. -/
theorem flatten_wordsBy (l : List α) :
    (wordsBy sep l).flatten = l.filter fun c => !sep c := by
  induction hn : l.length using Nat.strong_induction_on generalizing l with
  | _ n ih =>
    by_cases h : ∃ c ∈ l, sep c = true
    · -- split at some separator and use both halves
      obtain ⟨s, hs, hsep⟩ := h
      obtain ⟨a, b, rfl⟩ := List.append_of_mem hs
      simp only [List.length_append, List.length_cons] at hn
      rw [wordsBy_append_cons a b hsep, List.flatten_append, ih a.length (by omega) a rfl,
        ih b.length (by omega) b rfl]
      simp [hsep]
    · simp only [not_exists, not_and, Bool.not_eq_true] at h
      have hfilter : (l.filter fun c => !sep c) = l :=
        List.filter_eq_self.mpr fun c hc => by simp [h c hc]
      rw [hfilter]
      by_cases hl : l = []
      · simp [hl]
      · simp [wordsBy_eq_singleton hl h]

/-- Words hold no separators. -/
theorem not_sep_of_mem_wordsBy {l w : List α} (hw : w ∈ wordsBy sep l) {c : α} (hc : c ∈ w) :
    sep c = false := by
  have hmem : c ∈ (wordsBy sep l).flatten := List.mem_flatten.mpr ⟨w, hw, hc⟩
  rw [flatten_wordsBy] at hmem
  simpa using (List.mem_filter.mp hmem).2

/-- How many elements the words of a text have together. -/
theorem length_flatten_wordsBy (l : List α) :
    (wordsBy sep l).flatten.length = l.countP fun c => !sep c := by
  rw [flatten_wordsBy, List.countP_eq_length_filter]

/-- Surroundings leave the words of a text unchanged if and only if they hold
separators only. -/
theorem wordsBy_append_eq_iff (p m q : List α) :
    wordsBy sep (p ++ m ++ q) = wordsBy sep m ↔
      (∀ c ∈ p, sep c = true) ∧ ∀ c ∈ q, sep c = true := by
  constructor
  · intro h
    have hlen := congrArg (fun ws => ws.flatten.length) h
    simp only [length_flatten_wordsBy, List.countP_append] at hlen
    have hp : p.countP (fun c => !sep c) = 0 := by omega
    have hq : q.countP (fun c => !sep c) = 0 := by omega
    rw [List.countP_eq_zero] at hp hq
    exact ⟨fun c hc => by simpa using hp c hc, fun c hc => by simpa using hq c hc⟩
  · intro hblank
    rcases hblank with ⟨hp, hq⟩
    rw [wordsBy_append_right _ hq, wordsBy_append_left hp]

/-- Every word occurs in the text. -/
theorem infix_of_mem_wordsBy {l w : List α} (hw : w ∈ wordsBy sep l) : w <:+: l := by
  induction hn : l.length using Nat.strong_induction_on generalizing l with
  | _ n ih =>
    by_cases h : ∃ c ∈ l, sep c = true
    · obtain ⟨s, hs, hsep⟩ := h
      obtain ⟨a, b, rfl⟩ := List.append_of_mem hs
      simp only [List.length_append, List.length_cons] at hn
      rw [wordsBy_append_cons a b hsep, List.mem_append] at hw
      rcases hw with hw | hw
      · exact List.infix_append_of_infix_left (ih a.length (by omega) hw rfl)
      · exact List.infix_append_of_infix_right (List.infix_cons (ih b.length (by omega) hw rfl))
    · simp only [not_exists, not_and, Bool.not_eq_true] at h
      by_cases hl : l = []
      · simp [hl] at hw
      · rw [wordsBy_eq_singleton hl h, List.mem_singleton] at hw
        rw [hw]

/-- What stands before a word ends with a separator, and what stands behind it starts with one. -/
structure WordAt (sep : α → Bool) (x w y : List α) : Prop where
  before : x = [] ∨ ∃ s, x.getLast? = some s ∧ sep s = true
  after : y = [] ∨ ∃ s, y.head? = some s ∧ sep s = true
  ne_nil : w ≠ []
  not_sep : ∀ c ∈ w, sep c = false

/-- A word splits a text into what stands before and behind it. -/
theorem WordAt.wordsBy_eq {x w y : List α} (h : WordAt sep x w y) :
    wordsBy sep (x ++ w ++ y) = wordsBy sep x ++ w :: wordsBy sep y := by
  have hright : wordsBy sep (w ++ y) = w :: wordsBy sep y := by
    rcases h.after with rfl | ⟨s, hs, hsep⟩
    · rw [List.append_nil, wordsBy_eq_singleton h.ne_nil h.not_sep, wordsBy_nil]
    · obtain ⟨y, rfl⟩ := List.head?_eq_some_iff.mp hs
      rw [wordsBy_append_of_forall h.ne_nil h.not_sep hsep, wordsBy_cons_sep y hsep]
  rcases h.before with rfl | ⟨s, hs, hsep⟩
  · rw [List.nil_append, hright, wordsBy_nil, List.nil_append]
  · obtain ⟨x, rfl⟩ := List.getLast?_eq_some_iff.mp hs
    have hx : wordsBy sep (x ++ [s]) = wordsBy sep x := by
      rw [wordsBy_append_cons x [] hsep, wordsBy_nil, List.append_nil]
    rw [List.append_assoc, List.append_assoc, List.singleton_append, wordsBy_append_cons x _ hsep,
      hright, hx]

/-- Where a word of a text stands. -/
theorem exists_wordAt {l w : List α} {ws ws' : List (List α)}
    (h : wordsBy sep l = ws ++ w :: ws') :
    ∃ x y, l = x ++ w ++ y ∧ WordAt sep x w y ∧ wordsBy sep x = ws ∧ wordsBy sep y = ws' := by
  induction hn : l.length using Nat.strong_induction_on generalizing l ws with
  | _ n ih =>
    cases l with
    | nil => simp at h
    | cons c l =>
      simp only [List.length_cons] at hn
      by_cases hc : sep c = true
      · rw [wordsBy_cons_sep l hc] at h
        obtain ⟨x, y, rfl, hat, hx, hy⟩ := ih l.length (by omega) h rfl
        refine ⟨c :: x, y, rfl, ⟨?_, hat.after, hat.ne_nil, hat.not_sep⟩, ?_, hy⟩
        · right
          rcases hat.before with rfl | ⟨s, hs, hsep⟩
          · exact ⟨c, rfl, hc⟩
          · exact ⟨s, by rw [List.getLast?_cons, hs]; rfl, hsep⟩
        · rw [wordsBy_cons_sep x hc, hx]
      · -- the first word, and what stands behind it
        rw [Bool.not_eq_true] at hc
        obtain ⟨v, rest, hv, hsplit, hrest⟩ : ∃ v rest, (∀ d ∈ c :: v, sep d = false) ∧
            l = v ++ rest ∧ (rest = [] ∨ ∃ s t, rest = s :: t ∧ sep s = true) := by
          refine ⟨l.takeWhile fun d => !sep d, l.dropWhile fun d => !sep d, ?_,
            List.takeWhile_append_dropWhile.symm, ?_⟩
          · intro d hd
            rcases List.mem_cons.mp hd with rfl | hd
            · exact hc
            · simpa using List.mem_takeWhile_imp hd
          · cases hd : l.dropWhile fun d => !sep d with
            | nil => exact Or.inl rfl
            | cons s t =>
              have hne : (l.dropWhile fun d => !sep d) ≠ [] := by simp [hd]
              have hs := List.head_dropWhile_not (fun d => !sep d) hne
              simp only [hd, List.head_cons, Bool.not_eq_false'] at hs
              exact Or.inr ⟨s, t, rfl, hs⟩
        subst hsplit
        have hafter : rest = [] ∨ ∃ s, rest.head? = some s ∧ sep s = true := by
          rcases hrest with rfl | ⟨s, t, rfl, hs⟩
          · exact Or.inl rfl
          · exact Or.inr ⟨s, rfl, hs⟩
        have hfirst : WordAt sep [] (c :: v) rest := ⟨Or.inl rfl, hafter, by simp, hv⟩
        have hwords := hfirst.wordsBy_eq
        rw [List.nil_append, List.cons_append, h, wordsBy_nil, List.nil_append] at hwords
        cases ws with
        | nil =>
          rw [List.nil_append, List.cons.injEq] at hwords
          obtain ⟨rfl, hws⟩ := hwords
          exact ⟨[], rest, rfl, hfirst, wordsBy_nil, hws.symm⟩
        | cons w₀ ws =>
          rw [List.cons_append, List.cons.injEq] at hwords
          obtain ⟨rfl, hws⟩ := hwords
          rw [List.length_append] at hn
          obtain ⟨x, y, rfl, hat, hx, hy⟩ := ih rest.length (by omega) hws.symm rfl
          have hxne : x ≠ [] := by
            rintro rfl
            obtain ⟨d, w, rfl⟩ := List.exists_cons_of_ne_nil hat.ne_nil
            rcases hafter with hnil | ⟨s, hs, hsep⟩
            · simp at hnil
            · simp only [List.nil_append, List.cons_append, List.head?_cons,
                Option.some.injEq] at hs
              rw [← hs, hat.not_sep d (by simp)] at hsep
              exact absurd hsep (by simp)
          have hbefore : ∃ s, x.getLast? = some s ∧ sep s = true := hat.before.resolve_left hxne
          obtain ⟨s, hs, hsep⟩ := hbefore
          refine ⟨c :: v ++ x, y, by simp, ⟨Or.inr ⟨s, ?_, hsep⟩, hat.after, hat.ne_nil,
            hat.not_sep⟩, ?_, hy⟩
          · rw [List.getLast?_append_of_ne_nil _ hxne, hs]
          · -- the first word stands alone in front of the others
            have halone : WordAt sep [] (c :: v) x := by
              refine ⟨Or.inl rfl, Or.inr ?_, by simp, hv⟩
              rcases hafter with hnil | ⟨s', hs', hsep'⟩
              · simp [hxne] at hnil
              · exact ⟨s', by simpa [List.head?_append, hxne] using hs', hsep'⟩
            have halone := halone.wordsBy_eq
            rw [List.nil_append, wordsBy_nil, List.nil_append] at halone
            rw [halone, hx]

/-- There is no word if and only if there is nothing but separators. -/
theorem wordsBy_eq_nil_iff (l : List α) : wordsBy sep l = [] ↔ ∀ c ∈ l, sep c = true := by
  simpa using wordsBy_append_eq_iff l [] []

/-! ## Stripping -/

/-- A separator at the end makes no difference. -/
theorem stripBy_concat (l : List α) {s : α} (hs : sep s = true) :
    stripBy sep (l ++ [s]) = stripBy sep l := by
  rw [stripBy, stripBy, List.dropWhile_append]
  split
  · rename_i hnil
    rw [List.isEmpty_iff] at hnil
    simp [hnil, hs]
  · rw [List.rdropWhile_concat_pos _ _ _ hs]

/-- Stripping keeps a first element that is not a separator. -/
theorem head?_stripBy {c : α} (hc : sep c = false) (l : List α) :
    (stripBy sep (c :: l)).head? = some c := by
  have hpre : stripBy sep (c :: l) <+: (c :: l).dropWhile sep := List.rdropWhile_prefix sep _
  rw [List.dropWhile_cons_of_neg (by simp [hc]), List.prefix_cons_iff] at hpre
  rcases hpre with hnil | ⟨m, hm, -⟩
  · rw [stripBy, List.dropWhile_cons_of_neg (by simp [hc]), List.rdropWhile_eq_nil_iff] at hnil
    simp [hnil c (by simp)] at hc
  · simp [hm]

/-- What is stripped once is stripped. -/
theorem stripBy_stripBy (l : List α) : stripBy sep (stripBy sep l) = stripBy sep l := by
  have hhead : (stripBy sep l).dropWhile sep = stripBy sep l := by
    cases hd : l.dropWhile sep with
    | nil => simp [stripBy, hd]
    | cons c m =>
      -- what is left starts with the first element that is not dropped
      have hne : l.dropWhile sep ≠ [] := by simp [hd]
      have hc : sep c = false := by simpa [hd] using List.head_dropWhile_not sep hne
      have hstrip : stripBy sep l = stripBy sep (c :: m) := by
        rw [stripBy, stripBy, hd, List.dropWhile_cons_of_neg (by simp [hc])]
      have hfirst := head?_stripBy hc m
      rw [hstrip]
      cases hs : stripBy sep (c :: m) with
      | nil => rfl
      | cons c' m' =>
        rw [hs, List.head?_cons, Option.some.injEq] at hfirst
        rw [hfirst, List.dropWhile_cons_of_neg (by simp [hc])]
  rw [stripBy, hhead]
  exact List.rdropWhile_idempotent sep (l.dropWhile sep)

end Unix
