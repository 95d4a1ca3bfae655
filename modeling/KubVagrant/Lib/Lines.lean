import Mathlib.Data.List.Infix

/-!
# Texts as sequences of delimited records

A text file is read by line-oriented tools as a sequence of records, each ended by
a delimiter; the last record may lack its delimiter and then counts all the same.
`records` keeps the delimiters, `lines` removes them, and `mapLines` rewrites every
line and puts back the delimiter exactly where the input had one.

Everything here is generic in the alphabet and the delimiter.  `line_induction` is
the induction the other results go through: an empty text, one undelimited line, or
a delimited line followed by a text.

## Main definitions

* `Text` — the texts over characters that the scripts work on.
* `records d t`, `lines d t` — the records of `t`, with and without delimiters.
* `mapLines d f t` — the line-by-line rewriting of `t` by `f`.
* `Terminated d t` — `t` is empty or ends with the delimiter.
-/

namespace Unix

/-- The contents of a text file, a line or a word. -/
abbrev Text := List Char

universe u
variable {α : Type u} [DecidableEq α]

/-- The records of a text, each with its delimiter if it has one. -/
def records (d : α) : List α → List (List α)
  | [] => []
  | c :: t =>
    if c = d then [d] :: records d t
    else match records d t with
      | [] => [[c]]
      | r :: rs => (c :: r) :: rs

/-- Remove one trailing delimiter. -/
def chomp (d : α) (r : List α) : List α :=
  if r.getLast? = some d then r.dropLast else r

/-- The lines of a text: its records without their delimiters. -/
def lines (d : α) (t : List α) : List (List α) := (records d t).map (chomp d)

/-- Rewrite every line by `f`; a missing final delimiter stays missing. -/
def mapLines (d : α) (f : List α → List α) (t : List α) : List α :=
  (records d t).flatMap fun r =>
    if r.getLast? = some d then f r.dropLast ++ [d] else f r

/-- The text is empty or its last line is delimited. -/
def Terminated (d : α) (t : List α) : Prop := t = [] ∨ t.getLast? = some d

instance (d : α) (t : List α) : Decidable (Terminated d t) :=
  inferInstanceAs (Decidable (_ ∨ _))

variable {d : α}

/-! ## The three shapes of a text -/

theorem line_induction {P : List α → Prop} (nil : P [])
    (last : ∀ l, l ≠ [] → d ∉ l → P l)
    (line : ∀ l t, d ∉ l → P t → P (l ++ d :: t)) (t : List α) : P t := by
  induction hn : t.length using Nat.strong_induction_on generalizing t with
  | _ n ih =>
    by_cases hd : d ∈ t
    · obtain ⟨l, rest, rfl, hl⟩ := List.eq_append_cons_of_mem hd
      have hlen : rest.length < n := by
        simp only [List.length_append, List.length_cons] at hn; omega
      exact line l rest hl (ih _ hlen rest rfl)
    · by_cases ht : t = []
      · subst ht; exact nil
      · exact last t ht hd

@[simp] theorem records_nil : records d [] = [] := rfl
@[simp] theorem records_delim (t : List α) : records d (d :: t) = [d] :: records d t := by
  simp [records]

theorem records_undelimited {l : List α} (hne : l ≠ []) (hl : d ∉ l) : records d l = [l] := by
  induction l with
  | nil => exact absurd rfl hne
  | cons c l ih =>
    simp only [List.mem_cons, not_or] at hl
    rw [records, if_neg (Ne.symm hl.1)]
    cases l with
    | nil => rfl
    | cons b l => rw [ih (List.cons_ne_nil b l) hl.2]

theorem records_line {l : List α} (hl : d ∉ l) (t : List α) :
    records d (l ++ d :: t) = (l ++ [d]) :: records d t := by
  induction l with
  | nil => simp
  | cons c l ih =>
    simp only [List.mem_cons, not_or] at hl
    rw [List.cons_append, records, if_neg (Ne.symm hl.1), ih hl.2]
    rfl

theorem chomp_undelimited {l : List α} (hl : d ∉ l) : chomp d l = l := by
  rw [chomp, if_neg]
  intro h
  exact hl (List.mem_of_getLast? h)

@[simp] theorem chomp_line (l : List α) : chomp d (l ++ [d]) = l := by simp [chomp]

@[simp] theorem lines_nil : lines d [] = [] := rfl

theorem lines_undelimited {l : List α} (hne : l ≠ []) (hl : d ∉ l) : lines d l = [l] := by
  simp [lines, records_undelimited hne hl, chomp_undelimited hl]

theorem lines_line {l : List α} (hl : d ∉ l) (t : List α) :
    lines d (l ++ d :: t) = l :: lines d t := by
  simp [lines, records_line hl]

/-- Lines hold no delimiter. -/
theorem notMem_of_mem_lines {t l : List α} (h : l ∈ lines d t) : d ∉ l := by
  induction t using line_induction (d := d) with
  | nil => simp at h
  | last m hne hm =>
    rw [lines_undelimited hne hm, List.mem_singleton] at h
    rwa [h]
  | line m t hm ih =>
    rw [lines_line hm, List.mem_cons] at h
    rcases h with rfl | h
    · exact hm
    · exact ih h

theorem mem_of_mem_lines {t l : List α} {x : α} (h : l ∈ lines d t) (hx : x ∈ l) : x ∈ t := by
  induction t using line_induction (d := d) with
  | nil => simp at h
  | last m hne hm =>
    rw [lines_undelimited hne hm, List.mem_singleton] at h
    rwa [← h]
  | line m t hm ih =>
    rw [lines_line hm, List.mem_cons] at h
    rcases h with rfl | h
    · simp [hx]
    · simp [ih h]

/-- Lines written out, each with its delimiter, are read back. -/
theorem lines_flatMap {ls : List (List α)} (h : ∀ l ∈ ls, d ∉ l) :
    lines d (ls.flatMap fun l => l ++ [d]) = ls := by
  induction ls with
  | nil => rfl
  | cons l ls ih =>
    have hcons : (l :: ls).flatMap (fun l => l ++ [d]) =
        l ++ d :: ls.flatMap fun l => l ++ [d] := by
      simp
    rw [hcons, lines_line (h l (by simp)), ih fun m hm => h m (by simp [hm])]

/-- Every text is delimited lines and one more line. -/
theorem exists_flatMap_append (t : List α) : ∃ (ls : List (List α)) (l : List α),
    (∀ m ∈ ls, d ∉ m) ∧ d ∉ l ∧ t = (ls.flatMap fun l => l ++ [d]) ++ l := by
  induction t using line_induction (d := d) with
  | nil => exact ⟨[], [], by simp, by simp, rfl⟩
  | last l hne hl => exact ⟨[], l, by simp, hl, rfl⟩
  | line l t hl ih =>
    rcases ih with ⟨ls, l', hls, hl', rfl⟩
    exact ⟨l :: ls, l', List.forall_mem_cons.mpr ⟨hl, hls⟩, hl', by simp⟩

/-- The records of delimited lines and one more line. -/
theorem records_flatMap_append {ls : List (List α)} (h : ∀ l ∈ ls, d ∉ l) {l : List α}
    (hl : d ∉ l) : records d ((ls.flatMap fun l => l ++ [d]) ++ l) =
      ls.map (fun l => l ++ [d]) ++ if l = [] then [] else [l] := by
  induction ls with
  | nil =>
    by_cases hne : l = []
    · rw [hne]
      rfl
    · simpa [hne] using records_undelimited hne hl
  | cons m ls ih =>
    have hcons : ((m :: ls).flatMap fun l => l ++ [d]) ++ l =
        m ++ d :: ((ls.flatMap fun l => l ++ [d]) ++ l) := by simp
    rw [hcons, records_line (h m (by simp)), ih fun x hx => h x (by simp [hx])]
    rfl

/-- The records of a text make up the text. -/
theorem flatten_records (t : List α) : (records d t).flatten = t := by
  induction t using line_induction (d := d) with
  | nil => rfl
  | last l hne hl => rw [records_undelimited hne hl, List.flatten_singleton]
  | line l t hl ih => rw [records_line hl, List.flatten_cons, ih, List.append_assoc]; rfl

/-- Another line in the place of a record leaves the other records as they are. -/
theorem records_replace {t cur l : List α} {a b : List (List α)} (hl : d ∉ l)
    (h : records d t = a ++ cur :: b) :
    records d (a ++ (l ++ [d]) :: b).flatten = a ++ (l ++ [d]) :: b := by
  induction t using line_induction (d := d) generalizing a with
  | nil => simp at h
  | last m hne hm =>
    rw [records_undelimited hne hm, eq_comm, List.append_eq_singleton_iff] at h
    rcases h with ⟨rfl, heq⟩ | ⟨_, heq⟩
    · rw [(List.cons_eq_cons.mp heq).2]
      simpa using records_line hl []
    · exact absurd heq (List.cons_ne_nil cur b)
  | line m t hm ih =>
    rw [records_line hm] at h
    cases a with
    | nil =>
      rw [List.nil_append, List.cons_eq_cons] at h
      rw [← h.2, List.nil_append, List.flatten_cons, flatten_records, List.append_assoc,
        List.singleton_append, records_line hl]
    | cons x a =>
      rw [List.cons_append, List.cons_eq_cons] at h
      rw [← h.1, List.cons_append, List.flatten_cons, List.append_assoc, List.singleton_append,
        records_line hm, ih h.2]

/-- Relabelling characters, delimiters apart, relabels the lines. -/
theorem lines_map {f : α → α} (hf : ∀ c, f c = d ↔ c = d) (t : List α) :
    lines d (t.map f) = (lines d t).map (List.map f) := by
  have hdelim : ∀ l : List α, d ∉ l → d ∉ l.map f := by
    intro l hl hmem
    obtain ⟨c, hc, heq⟩ := List.mem_map.mp hmem
    rw [hf] at heq
    exact hl (heq ▸ hc)
  induction t using line_induction (d := d) with
  | nil => rfl
  | last l hne hl =>
    rw [lines_undelimited (by simpa using hne) (hdelim l hl), lines_undelimited hne hl,
      List.map_singleton]
  | line l t hl ih =>
    have hfd : f d = d := (hf d).mpr rfl
    rw [List.map_append, List.map_cons, hfd, lines_line (hdelim l hl), lines_line hl, ih,
      List.map_cons]

/-! ## Concatenation -/

/-- A delimited text keeps its lines whatever is appended to it. -/
theorem lines_append {t : List α} (ht : Terminated d t) (t' : List α) :
    lines d (t ++ t') = lines d t ++ lines d t' := by
  induction t using line_induction (d := d) with
  | nil => simp
  | last l hne hl =>
    rcases ht with rfl | h
    · exact absurd rfl hne
    · exact absurd (List.mem_of_getLast? h) hl
  | line l t hl ih =>
    have ht' : Terminated d t := by
      rcases List.eq_nil_or_concat t with rfl | ⟨s, b, rfl⟩
      · exact Or.inl rfl
      · refine Or.inr ?_
        rcases ht with h | h
        · simp at h
        · simpa [List.getLast?_append, List.getLast?_cons] using h
    rw [List.append_assoc, List.cons_append, lines_line hl, lines_line hl, ih ht']
    rfl

/-- Text appended to an undelimited line continues that line. -/
theorem lines_append_undelimited {l : List α} (hl : d ∉ l) {m : List α} (hm : d ∉ m)
    (t : List α) : lines d (l ++ (m ++ d :: t)) = (l ++ m) :: lines d t := by
  rw [← List.append_assoc, lines_line (by simp [hl, hm])]

/-- Every text is a delimited part followed by one undelimited line. -/
theorem exists_terminated_append (t : List α) :
    ∃ s l, t = s ++ l ∧ Terminated d s ∧ d ∉ l := by
  induction t using line_induction (d := d) with
  | nil => exact ⟨[], [], rfl, Or.inl rfl, by simp⟩
  | last l hne hl => exact ⟨[], l, rfl, Or.inl rfl, hl⟩
  | line l t hl ih =>
    obtain ⟨s, l', rfl, hs, hl'⟩ := ih
    refine ⟨l ++ d :: s, l', by simp, Or.inr ?_, hl'⟩
    rcases hs with rfl | h
    · simp
    · simp [List.getLast?_append, List.getLast?_cons, h]

/-! ## Rewriting line by line -/

@[simp] theorem mapLines_nil (f : List α → List α) : mapLines d f [] = [] := rfl

theorem mapLines_undelimited (f : List α → List α) {l : List α} (hne : l ≠ []) (hl : d ∉ l) :
    mapLines d f l = f l := by
  have hlast : l.getLast? ≠ some d := fun h => hl (List.mem_of_getLast? h)
  simp [mapLines, records_undelimited hne hl, hlast]

theorem mapLines_line (f : List α → List α) {l : List α} (hl : d ∉ l) (t : List α) :
    mapLines d f (l ++ d :: t) = f l ++ d :: mapLines d f t := by
  simp [mapLines, records_line hl]

/-- A rewriting that makes no delimiters and no empty lines acts on the list of lines. -/
theorem lines_mapLines {f : List α → List α} (hd : ∀ l, d ∉ l → d ∉ f l)
    (hne : ∀ l, l ≠ [] → f l ≠ []) (t : List α) :
    lines d (mapLines d f t) = (lines d t).map f := by
  induction t using line_induction (d := d) with
  | nil => rfl
  | last l hl hdl =>
    rw [mapLines_undelimited f hl hdl, lines_undelimited (hne l hl) (hd l hdl),
      lines_undelimited hl hdl, List.map_singleton]
  | line l t hdl ih =>
    rw [mapLines_line f hdl, lines_line (hd l hdl), lines_line hdl, ih, List.map_cons]

/-- Two rewritings give the same text as soon as they agree on its lines. -/
theorem mapLines_congr {f g : List α → List α} {t : List α}
    (h : ∀ l ∈ lines d t, f l = g l) : mapLines d f t = mapLines d g t := by
  induction t using line_induction (d := d) with
  | nil => rfl
  | last l hl hdl =>
    rw [mapLines_undelimited f hl hdl, mapLines_undelimited g hl hdl]
    exact h l (by simp [lines_undelimited hl hdl])
  | line l t hdl ih =>
    rw [lines_line hdl] at h
    rw [mapLines_line f hdl, mapLines_line g hdl, h l (by simp),
      ih (fun m hm => h m (by simp [hm]))]

theorem mapLines_id (t : List α) : mapLines d (fun l => l) t = t := by
  induction t using line_induction (d := d) with
  | nil => rfl
  | last l hl hdl => rw [mapLines_undelimited _ hl hdl]
  | line l t hdl ih => rw [mapLines_line _ hdl, ih]

/-! ## Splitting at a delimiter -/

theorem notMem_of_mem_splitOn {t c : List α} (h : c ∈ t.splitOn d) : d ∉ c := by
  induction t using line_induction (d := d) with
  | nil => simp_all
  | last l hl hdl =>
    rw [List.splitOn_eq_singleton hdl, List.mem_singleton] at h
    rwa [h]
  | line l t hdl ih =>
    rw [List.splitOn_append_cons_self_of_not_mem hdl, List.mem_cons] at h
    rcases h with rfl | h
    · exact hdl
    · exact ih h

theorem mem_of_mem_splitOn {t c : List α} {x : α} (h : c ∈ t.splitOn d) (hx : x ∈ c) : x ∈ t := by
  induction t using line_induction (d := d) with
  | nil => simp_all
  | last l hl hdl =>
    rw [List.splitOn_eq_singleton hdl, List.mem_singleton] at h
    rwa [← h]
  | line l t hdl ih =>
    rw [List.splitOn_append_cons_self_of_not_mem hdl, List.mem_cons] at h
    rcases h with rfl | h
    · simp [hx]
    · simp [ih h]

/-- Every element but the delimiter ends up in some part. -/
theorem exists_mem_splitOn {t : List α} {x : α} (hx : x ∈ t) (hne : x ≠ d) :
    ∃ c ∈ t.splitOn d, x ∈ c := by
  induction t using line_induction (d := d) with
  | nil => simp at hx
  | last l hl hdl => exact ⟨l, by simp [List.splitOn_eq_singleton hdl], hx⟩
  | line l t hdl ih =>
    rw [List.splitOn_append_cons_self_of_not_mem hdl]
    rw [List.mem_append, List.mem_cons, or_iff_right hne] at hx
    rcases hx with hx | hx
    · exact ⟨l, by simp, hx⟩
    · obtain ⟨c, hc, hxc⟩ := ih hx
      exact ⟨c, by simp [hc], hxc⟩

/-! ## Searching for a delimiter-free word -/

omit [DecidableEq α] in
/-- A word without delimiters that occurs across a separator occurs on one side of it. -/
theorem infix_append_cons_iff {w a b : List α} {s : α} (hs : s ∉ w) :
    w <:+: a ++ s :: b ↔ w <:+: a ∨ w <:+: b := by
  constructor
  · intro hyp
    rcases hyp with ⟨x, y, h⟩
    rw [List.append_assoc] at h
    rcases List.append_eq_append_iff.mp h with ⟨a', ha, hb⟩ | ⟨c, hx, hc⟩
    · -- the occurrence starts inside `a`
      rcases List.append_eq_append_iff.mp hb with ⟨a'', ha', -⟩ | ⟨c, hw, hc⟩
      · exact Or.inl ⟨x, a'', by rw [ha, ha', List.append_assoc]⟩
      · cases c with
        | nil => exact Or.inl ⟨x, [], by simp [ha, hw]⟩
        | cons c cs =>
          rw [List.cons_append, List.cons.injEq] at hc
          exact absurd (by rw [hw, ← hc.1]; simp) hs
    · -- the occurrence starts at the separator or after it
      cases c with
      | nil =>
        cases w with
        | nil => exact Or.inl List.nil_infix
        | cons c w =>
          rw [List.nil_append, List.cons_append, List.cons.injEq] at hc
          exact absurd (by simp [hc.1]) hs
      | cons c cs =>
        rw [List.cons_append, List.cons.injEq] at hc
        exact Or.inr ⟨cs, y, by rw [List.append_assoc, hc.2]⟩
  · intro hyp
    rcases hyp with h | h
    · exact List.infix_append_of_infix_left h
    · exact List.infix_append_of_infix_right (List.infix_cons h)

/-- A non-empty word without delimiters occurs in a text if and only if it occurs in one
of its lines. -/
theorem infix_iff_exists_line {w : List α} (hw : w ≠ []) (hd : d ∉ w) (t : List α) :
    w <:+: t ↔ ∃ l ∈ lines d t, w <:+: l := by
  induction t using line_induction (d := d) with
  | nil => simp [hw]
  | last l hl hdl => simp [lines_undelimited hl hdl]
  | line l t hdl ih => simp [lines_line hdl, infix_append_cons_iff hd, ih]

end Unix
