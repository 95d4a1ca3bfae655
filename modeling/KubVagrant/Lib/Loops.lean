import Mathlib.Data.List.Basic

/-!
# Loops that may fail

A loop over a list whose rounds may raise is `List.foldlM` in `Except`.  Its rules speak of the
elements the loop is through with: an invariant that every round keeps holds at the end
(`foldlM_done`), what the rounds keep is still so where one of them raises (`foldlM_raises`), and if
each round succeeds exactly when its element is fit, the loop succeeds exactly when all elements are
(`foldlM_isOk_iff`).
-/

namespace Loops
variable {ε α β : Type}

/-- A sequence succeeds if both parts do. -/
theorem bind_eq_ok {x : Except ε α} {f : α → Except ε β} {b : β} (h : x >>= f = .ok b) :
    ∃ a, x = .ok a ∧ f a = .ok b := by
  cases x with
  | error e => cases h
  | ok a => exact ⟨a, rfl, h⟩

/-- A sequence fails where one of its parts does. -/
theorem bind_eq_error {x : Except ε α} {f : α → Except ε β} {e : ε} (h : x >>= f = .error e) :
    x = .error e ∨ ∃ a, x = .ok a ∧ f a = .error e := by
  cases x with
  | error e' =>
    cases h
    exact Or.inl rfl
  | ok a => exact Or.inr ⟨a, rfl, h⟩

variable {f : β → α → Except ε β} {l : List α} {b b' : β}

variable {I : List α → β → Prop}

/-- What a round does to the invariant, for the elements of the list only. -/
def Step (f : β → α → Except ε β) (l : List α) (I : List α → β → Prop) : Prop :=
  ∀ done a rest b b', l = done ++ a :: rest → I done b → f b a = .ok b' → I (done ++ [a]) b'

theorem foldlM_done_from {done rest : List α} (hstep : Step f l I) (hl : l = done ++ rest)
    (hb : I done b) (hok : rest.foldlM f b = .ok b') : I l b' := by
  induction rest generalizing done b with
  | nil =>
    cases hok
    rw [hl, List.append_nil]
    exact hb
  | cons a rest ih =>
    rw [List.foldlM_cons] at hok
    rcases bind_eq_ok hok with ⟨b₁, hround, hrest⟩
    have hl' : l = (done ++ [a]) ++ rest := by simpa using hl
    exact ih hl' (hstep done a rest b b₁ hl hb hround) hrest

/-- At the end, the loop is through with all elements. -/
theorem foldlM_done (hstep : Step f l I) (hb : I [] b) (hok : l.foldlM f b = .ok b') : I l b' :=
  foldlM_done_from hstep rfl hb hok

/-- What every round keeps, the loop keeps. -/
theorem foldlM_keeps {P : β → Prop} (hstep : ∀ b a b', P b → f b a = .ok b' → P b') (hb : P b)
    (hok : l.foldlM f b = .ok b') : P b' :=
  foldlM_done (I := fun _ b => P b) (fun _ a _ b b' _ => hstep b a b') hb hok

/-- A loop fails in one of its rounds, with what the rounds before it have kept. -/
theorem foldlM_raises {P : β → Prop} {Q : ε → Prop} {e : ε}
    (hstep : ∀ b a b', P b → f b a = .ok b' → P b') (hraise : ∀ b a e, P b → f b a = .error e → Q e)
    (hb : P b) (herror : l.foldlM f b = .error e) : Q e := by
  induction l generalizing b with
  | nil => cases herror
  | cons a l ih =>
    rw [List.foldlM_cons] at herror
    rcases bind_eq_error herror with hround | ⟨b₁, hround, hrest⟩
    · exact hraise b a e hb hround
    · exact ih (hstep b a b₁ hb hround) hrest

/-- A loop whose rounds do nothing does nothing. -/
theorem foldlM_fixed (h : ∀ a ∈ l, f b a = .ok b) : l.foldlM f b = .ok b := by
  induction l with
  | nil => rfl
  | cons a l ih =>
    rw [List.forall_mem_cons] at h
    rw [List.foldlM_cons, h.1]
    exact ih h.2

theorem foldlM_isOk_iff_from {C : α → Prop} {done rest : List α} (hstep : Step f l I)
    (hiff : ∀ done a rest b, l = done ++ a :: rest → I done b →
      ((∃ b', f b a = .ok b') ↔ C a))
    (hl : l = done ++ rest) (hb : I done b) :
    (∃ b', rest.foldlM f b = .ok b') ↔ ∀ a ∈ rest, C a := by
  induction rest generalizing done b with
  | nil => exact iff_of_true ⟨b, rfl⟩ fun a ha => absurd ha List.not_mem_nil
  | cons a rest ih =>
    have hl' : l = (done ++ [a]) ++ rest := by simpa using hl
    rw [List.forall_mem_cons, ← hiff done a rest b hl hb]
    constructor
    · intro hok
      rcases hok with ⟨b', hok⟩
      rw [List.foldlM_cons] at hok
      rcases bind_eq_ok hok with ⟨b₁, hround, hrest⟩
      exact ⟨⟨b₁, hround⟩, (ih hl' (hstep done a rest b b₁ hl hb hround)).mp ⟨b', hrest⟩⟩
    · intro hfit
      rcases hfit with ⟨⟨b₁, hround⟩, hrest⟩
      rcases (ih hl' (hstep done a rest b b₁ hl hb hround)).mpr hrest with ⟨b', hok⟩
      exact ⟨b', by rw [List.foldlM_cons, hround]; exact hok⟩

/-- If each round succeeds exactly when its element is fit, the loop succeeds exactly when all
elements are. -/
theorem foldlM_isOk_iff {C : α → Prop} (hstep : Step f l I)
    (hiff : ∀ done a rest b, l = done ++ a :: rest → I done b →
      ((∃ b', f b a = .ok b') ↔ C a))
    (hb : I [] b) : (∃ b', l.foldlM f b = .ok b') ↔ ∀ a ∈ l, C a :=
  foldlM_isOk_iff_from hstep hiff rfl hb

end Loops
