import KubVagrant.Lib.Lines
import KubVagrant.Lib.Words
import KubVagrant.Lib.Search

/-!
# The text tools of the shell

The pieces the scripts are put together from: command substitution and unquoted
expansion, awk programs that print for some records, grep with a basic pattern, and
sed's substitution on every line.

`expand_awk` is the rule for the idiom ``for x in `... | awk '...'` ``: the loop runs
over the words of what awk prints, record by record.  `flatMap_eq_flatMap_iff` compares
two such loops: when one never produces less than the other, they produce the same if
and only if they do so for every record.
-/

namespace Unix

/-- The characters the shell and awk split words at. -/
def isBlank (c : Char) : Bool := c == ' ' || c == '\t' || c == '\n'

/-- `$(...)`: the output of a command without its trailing newlines. -/
def commandSubst (out : Text) : Text := out.rdropWhile (· == '\n')

/-- The unquoted expansion of a text: its words. -/
def expand (t : Text) : List Text := wordsBy isBlank t

/-- The fields of a record. -/
def fields (record : Text) : List Text := wordsBy isBlank record

/-- Field number `n` of a record, counted from 1; empty if there is none. -/
def field (n : ℕ) (record : Text) : Text := (fields record).getD (n - 1) []

/-- An awk program that prints one text for some of its records. -/
def awk (rule : Text → Option Text) (input : Text) : Text :=
  (lines '\n' input).flatMap fun record =>
    match rule record with
    | some out => out ++ ['\n']
    | none => []

/-- A basic regular expression without operators other than the dot, which stands for any
character; `grep` without options reads its argument so. -/
def basicPattern (pattern : Text) : Regex Char :=
  Regex.classes (pattern.map fun c => if c = '.' then fun _ => true else fun a => a == c)

/-- `grep -i`: letters match in either case. -/
def basicPatternIgnoreCase (pattern : Text) : Regex Char :=
  Regex.classes (pattern.map fun c =>
    if c = '.' then fun _ => true else fun a => a.toLower == c.toLower)

/-- The lines of the input in which the pattern occurs. -/
def grep (r : Regex Char) (input : Text) : List Text := (lines '\n' input).filter r.occurs

/-- `sed 's/r/f/'`: replace the first match on every line. -/
def sed (r : Regex Char) (f : Text → Text) (input : Text) : Text :=
  mapLines '\n' (r.replaceFirst f) input

/-! ## Loops over printed words -/

/-- Trailing newlines make no words. -/
theorem expand_commandSubst (out : Text) : expand (commandSubst out) = expand out := by
  have hsplit : commandSubst out ++ out.rtakeWhile (· == '\n') = out :=
    List.rdropWhile_append_rtakeWhile
  have hblank : ∀ c ∈ out.rtakeWhile (· == '\n'), isBlank c = true := by
    intro c hc
    have := List.mem_rtakeWhile_imp hc
    simp [isBlank, beq_iff_eq.mp this]
  conv_rhs => rw [← hsplit]
  exact (wordsBy_append_right _ hblank).symm

/-- **The loop idiom**: the words awk prints, record by record. -/
theorem expand_awk (rule : Text → Option Text) (input : Text) :
    expand (commandSubst (awk rule input)) =
      (lines '\n' input).flatMap fun record => ((rule record).map expand).getD [] := by
  rw [expand_commandSubst, awk]
  induction lines '\n' input with
  | nil => simp [expand]
  | cons record records ih =>
    rw [List.flatMap_cons, List.flatMap_cons, ← ih]
    cases rule record with
    | none => rfl
    | some out =>
      have hnl : isBlank '\n' = true := by decide
      simp only [expand, Option.map_some, Option.getD_some, List.append_assoc,
        List.singleton_append]
      exact wordsBy_append_cons _ _ hnl

/-- Two loops of which the first never produces less: they agree on the whole if and only
if they agree on every item.  `weight` measures what is produced. -/
theorem flatMap_eq_flatMap_iff {α β : Type} {f g : α → List β} {l : List α}
    (weight : List β → ℕ) (hadd : ∀ x y, weight (x ++ y) = weight x + weight y)
    (hle : ∀ a ∈ l, weight (g a) ≤ weight (f a))
    (heq : ∀ a ∈ l, weight (f a) = weight (g a) → f a = g a) :
    l.flatMap f = l.flatMap g ↔ ∀ a ∈ l, f a = g a := by
  have hmono : ∀ l' : List α, (∀ a ∈ l', a ∈ l) →
      weight (l'.flatMap g) ≤ weight (l'.flatMap f) := by
    intro l' hl'
    induction l' with
    | nil => exact le_refl _
    | cons a l' ih =>
      rw [List.flatMap_cons, List.flatMap_cons, hadd, hadd]
      exact Nat.add_le_add (hle a (hl' a (by simp))) (ih fun b hb => hl' b (by simp [hb]))
  constructor
  · intro h
    induction l with
    | nil => simp
    | cons a l ih =>
      have hw := congrArg weight h
      rw [List.flatMap_cons, List.flatMap_cons, hadd, hadd] at hw
      have hhead := hle a (by simp)
      have htail := hmono l fun b hb => by simp [hb]
      have hfa : f a = g a := heq a (by simp) (by omega)
      rw [List.flatMap_cons, List.flatMap_cons, hfa] at h
      intro b hb
      rcases List.mem_cons.mp hb with rfl | hb
      · exact hfa
      · refine ih (fun c hc => hle c (by simp [hc])) (fun c hc => heq c (by simp [hc])) ?_
          (List.append_cancel_left h) b hb
        intro l' hl'
        exact hmono l' fun c hc => by simp [hl' c hc]
  · intro h
    exact List.flatMap_congr h

/-! ## Words and patterns -/

theorem isBlank_of_isDigit {c : Char} (h : c.isDigit = true) : isBlank c = false := by
  rw [Bool.eq_false_iff]
  intro hb
  simp only [isBlank, Bool.or_eq_true, beq_iff_eq] at hb
  rcases hb with (rfl | rfl) | rfl <;> revert h <;> decide

/-- A digit in a text makes a word of it. -/
theorem expand_ne_nil_of_mem {t : Text} {c : Char} (hc : c ∈ t) (hb : isBlank c = false) :
    expand t ≠ [] := by
  intro h
  have := (wordsBy_eq_nil_iff t).mp h c hc
  simp [hb] at this

theorem toLower_of_not_upper {c : Char} (h : ¬ (c.val ≥ 'A'.val ∧ c.val ≤ 'Z'.val)) :
    c.toLower = c := dif_neg h

theorem val_toLower_of_upper {c : Char} (h : c.val ≥ 'A'.val ∧ c.val ≤ 'Z'.val) :
    c.toLower.val = c.val + ('a'.val - 'A'.val) :=
  congrArg Char.val (dif_pos h)

theorem toLower_of_isDigit {c : Char} (hc : c.isDigit = true) : c.toLower = c := by
  simp only [Char.isDigit, Bool.and_eq_true, decide_eq_true_eq, ge_iff_le,
    UInt32.le_iff_toNat_le] at hc
  refine toLower_of_not_upper fun ⟨h, _⟩ => ?_
  have hA : 'A'.val.toNat = 65 := rfl
  have h9 : '9'.val.toNat = 57 := rfl
  simp only [ge_iff_le, UInt32.le_iff_toNat_le] at h
  omega

theorem toLower_eq_iff_of_isDigit {a c : Char} (hc : c.isDigit = true) :
    a.toLower = c.toLower ↔ a = c := by
  rw [toLower_of_isDigit hc]
  constructor
  · intro h
    by_cases hup : a.val ≥ 'A'.val ∧ a.val ≤ 'Z'.val
    · -- an upper case letter becomes a lower case letter, not a digit
      have hval := congrArg UInt32.toNat (val_toLower_of_upper hup)
      rw [h] at hval
      simp only [ge_iff_le, UInt32.le_iff_toNat_le, Char.isDigit, Bool.and_eq_true,
        decide_eq_true_eq, UInt32.toNat_add] at hup hc hval
      have hA : 'A'.val.toNat = 65 := rfl
      have hZ : 'Z'.val.toNat = 90 := rfl
      have h9 : '9'.val.toNat = 57 := rfl
      have hshift : ('a'.val - 'A'.val).toNat = 32 := rfl
      omega
    · rwa [toLower_of_not_upper hup] at h
  · rintro rfl; exact toLower_of_isDigit hc

theorem mem_lang_basicPattern_iff (pattern x : Text) :
    x ∈ (basicPattern pattern).lang ↔ List.Forall₂ (fun c a => c = '.' ∨ a = c) pattern x := by
  rw [basicPattern, Regex.mem_lang_classes_iff, List.forall₂_map_left_iff]
  have hrel : (fun c a : Char => (if c = '.' then fun _ => true else fun a => a == c) a = true) =
      fun c a => c = '.' ∨ a = c := by
    funext c a
    by_cases h : c = '.' <;> simp [h]
  rw [hrel]

/-- A pattern without dots is found where it occurs as a text. -/
theorem occurs_basicPattern_iff {pattern : Text} (h : '.' ∉ pattern) (line : Text) :
    (basicPattern pattern).occurs line = true ↔ pattern <:+: line := by
  have hword : basicPattern pattern = Regex.word pattern := by
    rw [basicPattern, Regex.word]
    congr 1
    refine List.map_congr_left fun c hc => ?_
    have hdot : c ≠ '.' := fun heq => h (heq ▸ hc)
    rw [if_neg hdot]
    rfl
  rw [hword, Regex.occurs_word_iff]

/-- Case makes no difference to a pattern of digits and dots. -/
theorem mem_lang_basicPatternIgnoreCase_iff {pattern : Text}
    (h : ∀ c ∈ pattern, c = '.' ∨ c.isDigit = true) (x : Text) :
    x ∈ (basicPatternIgnoreCase pattern).lang ↔
      List.Forall₂ (fun c a => c = '.' ∨ a = c) pattern x := by
  have heq : basicPatternIgnoreCase pattern = basicPattern pattern := by
    rw [basicPatternIgnoreCase, basicPattern]
    congr 1
    refine List.map_congr_left fun c hc => ?_
    by_cases hdot : c = '.'
    · simp [hdot]
    · have hdigit := (h c hc).resolve_left hdot
      rw [if_neg hdot, if_neg hdot]
      funext a
      rw [Bool.eq_iff_iff, beq_iff_eq, beq_iff_eq, toLower_eq_iff_of_isDigit hdigit]
  rw [heq, mem_lang_basicPattern_iff]

end Unix
