import KubVagrant.Lib.Lines

/-!
# Shell patterns

The patterns of the shell as Python's `fnmatch` reads them: `*` is any text, `?` any character, and
brackets hold a set of characters, or what is not in the set after `!`.  A bracket that is not
closed is a character, and so is every other one.

## Main definitions

* `tokens` — a pattern as a sequence of tokens; nothing if a range in it is empty.
* `isMatch` — the texts that a sequence of tokens matches.
* `compile` — both.
* `Matches`, `Denotes` — what tokens and patterns stand for.
-/

namespace Glob
open Unix

/-! ## Patterns -/

inductive Token where
  | literal (c : Char)
  | any
  | many
  | oneOf (negated : Bool) (ranges : List (Char × Char))
  deriving DecidableEq, Repr

/-- What the characters in brackets stand for; a range the wrong way round is an error. -/
def ranges : Text → Option (List (Char × Char))
  | [] => some []
  | [c] => some [(c, c)]
  | c :: '-' :: d :: rest => if c ≤ d then (ranges rest).map ((c, d) :: ·) else none
  | c :: rest => (ranges rest).map ((c, c) :: ·)

/-- What stands in brackets, behind the first of them; a bracket that comes first is in the set. -/
def bracketed (t : Text) : Option Text :=
  let bang := t.take (if t.head? = some '!' then 1 else 0)
  let t := t.drop bang.length
  let bracket := t.take (if t.head? = some ']' then 1 else 0)
  let t := t.drop bracket.length
  if ']' ∈ t then some (bang ++ bracket ++ t.takeWhile (· ≠ ']')) else none

def oneOf : Text → Option Token
  | '!' :: stuff => (ranges stuff).map (.oneOf true)
  | stuff => (ranges stuff).map (.oneOf false)

/-- The tokens of a pattern, after some characters that belong to a token already. -/
def tokens : ℕ → Text → Option (List Token)
  | _, [] => some []
  | k + 1, _ :: t => tokens k t
  | 0, c :: t =>
    if c = '*' then (tokens 0 t).map (.many :: ·)
    else if c = '?' then (tokens 0 t).map (.any :: ·)
    else if c = '[' then
      match bracketed t with
      | some stuff => (oneOf stuff).bind fun token => (tokens (stuff.length + 1) t).map (token :: ·)
      | none => (tokens 0 t).map (.literal '[' :: ·)
    else (tokens 0 t).map (.literal c :: ·)

/-- The token matches the character. -/
def Token.accepts (c : Char) : Token → Bool
  | literal c' => c = c'
  | any | many => true
  | oneOf negated ranges => xor negated (ranges.any fun r => r.1 ≤ c && c ≤ r.2)

/-- The tokens match the whole text. -/
def isMatch : List Token → Text → Bool
  | [], t => t.isEmpty
  | .many :: ts, t => t.tails.any fun s => isMatch ts s
  | _ :: _, [] => false
  | token :: ts, c :: t => token.accepts c && isMatch ts t

/-- The texts that a pattern matches. -/
def compile (pattern : Text) : Option (Text → Bool) := (tokens 0 pattern).map isMatch

/-! ## What patterns stand for -/

/-- The tokens stand for the text. -/
inductive Matches : List Token → Text → Prop
  | nil : Matches [] []
  | literal {ts : List Token} {t : Text} (c : Char) : Matches ts t →
    Matches (.literal c :: ts) (c :: t)
  | any {ts : List Token} {t : Text} (c : Char) : Matches ts t → Matches (.any :: ts) (c :: t)
  | many {ts : List Token} {s t u : Text} (hu : u = s ++ t) : Matches ts t →
    Matches (.many :: ts) u
  | oneOf {ts : List Token} {t : Text} {negated : Bool} {ranges : List (Char × Char)} {c : Char}
    (hc : (∃ r ∈ ranges, r.1 ≤ c ∧ c ≤ r.2) ↔ negated = false) : Matches ts t →
    Matches (.oneOf negated ranges :: ts) (c :: t)

/-- The pattern stands for the text. -/
def Denotes (pattern t : Text) : Prop := ∃ ts, tokens 0 pattern = some ts ∧ Matches ts t

theorem accepts_oneOf_iff {negated : Bool} {ranges : List (Char × Char)} {c : Char} :
    Token.accepts c (.oneOf negated ranges) = true ↔
      ((∃ r ∈ ranges, r.1 ≤ c ∧ c ≤ r.2) ↔ negated = false) := by
  have hany : (ranges.any fun r => r.1 ≤ c && c ≤ r.2) = true ↔
      ∃ r ∈ ranges, r.1 ≤ c ∧ c ≤ r.2 := by simp
  rw [← hany, Token.accepts]
  cases negated <;> simp

theorem isMatch_iff (ts : List Token) (t : Text) : isMatch ts t = true ↔ Matches ts t := by
  induction ts generalizing t with
  | nil =>
    rw [isMatch, List.isEmpty_iff]
    constructor
    · rintro rfl
      exact .nil
    · intro h
      cases h
      rfl
  | cons token ts ih =>
    cases token with
    | many =>
      simp only [isMatch, List.any_eq_true, List.mem_tails, ih]
      constructor
      · rintro ⟨u, ⟨s, hs⟩, hu⟩
        exact .many hs.symm hu
      · intro h
        cases h with
        | many hu h => exact ⟨_, ⟨_, hu.symm⟩, h⟩
    | literal c =>
      cases t with
      | nil => exact iff_of_false (by simp [isMatch]) (by rintro ⟨⟩)
      | cons c' t =>
        simp only [isMatch, Token.accepts, Bool.and_eq_true, decide_eq_true_eq, ih]
        constructor
        · rintro ⟨rfl, h⟩
          exact .literal c' h
        · intro h
          cases h with
          | literal _ h => exact ⟨rfl, h⟩
    | any =>
      cases t with
      | nil => exact iff_of_false (by simp [isMatch]) (by rintro ⟨⟩)
      | cons c' t =>
        simp only [isMatch, Token.accepts, Bool.true_and, ih]
        constructor
        · exact .any c'
        · intro h
          cases h with
          | any _ h => exact h
    | oneOf negated ranges =>
      cases t with
      | nil => exact iff_of_false (by simp [isMatch]) (by rintro ⟨⟩)
      | cons c' t =>
        rw [isMatch, Bool.and_eq_true, accepts_oneOf_iff, ih]
        · constructor
          · rintro ⟨hc, h⟩
            exact .oneOf hc h
          · intro h
            cases h with
            | oneOf hc h => exact ⟨hc, h⟩
        · simp

/-- What compiles matches what the pattern stands for. -/
theorem compile_iff {pattern : Text} {f : Text → Bool} (h : compile pattern = some f) (t : Text) :
    f t = true ↔ Denotes pattern t := by
  obtain ⟨ts, hts, rfl⟩ := Option.map_eq_some_iff.mp h
  rw [isMatch_iff]
  constructor
  · exact fun hmatch => ⟨ts, hts, hmatch⟩
  · rintro ⟨ts', hts', hmatch⟩
    rw [hts, Option.some.injEq] at hts'
    exact hts' ▸ hmatch

/-! ## Words -/

/-- Nothing in the text has a meaning of its own. -/
def Plain (w : Text) : Prop := ∀ c ∈ w, c ≠ '*' ∧ c ≠ '?' ∧ c ≠ '['

variable {w : Text}

theorem tokens_of_plain (h : Plain w) : tokens 0 w = some (w.map .literal) := by
  induction w with
  | nil => rfl
  | cons c w ih =>
    obtain ⟨hmany, hany, hbracket⟩ := h c List.mem_cons_self
    rw [tokens, if_neg hmany, if_neg hany, if_neg hbracket,
      ih fun x hx => h x (List.mem_cons_of_mem c hx)]
    rfl

theorem isMatch_literal (w t : Text) : isMatch (w.map .literal) t = decide (t = w) := by
  induction w generalizing t with
  | nil => cases t <;> rfl
  | cons c w ih =>
    cases t with
    | nil => rfl
    | cons c' t => simp [isMatch, Token.accepts, ih]

/-- A word matches itself only. -/
theorem compile_of_plain (h : Plain w) : compile w = some fun t => decide (t = w) := by
  rw [compile, tokens_of_plain h, Option.map_some]
  exact congrArg some (funext fun t => isMatch_literal w t)

example : (compile "web[!a-c]*".toList).map (fun m => [m "webd1".toList, m "webb1".toList]) =
    some [true, false] := by decide

end Glob
