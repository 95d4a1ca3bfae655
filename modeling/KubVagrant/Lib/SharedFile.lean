import Mathlib.Data.List.Infix
import Mathlib.Logic.Basic

/-!
# Reports written through one shared file

Several runs use one file: each run truncates it with a header line, appends chunks of
lines, and at last sends the whole file.  A trace is any sequence of such operations, each
atomic and labelled with its run; `Interleaves` says that every run has performed a prefix
of its own program.

To say which run a line came from, the same machine is run on marked lines (`mark`);
`exec_unmark` connects the two levels: forgetting the marks of a marked execution gives the
execution itself.  `isolated_iff` settles which traces keep reports apart, in terms of the
trace alone.

## Main definitions

* `FileOp`, `Shared`, `exec` — operations, the state, and executions.
* `program`, `Interleaves` — the program of one run, and interleavings of programs.
* `Isolated` — every report sent is the sender's own header and lines.
* `Undisturbed` — the condition on the trace.
-/

namespace Unix.SharedFile

universe u v w
variable {ι : Type u} {L : Type v} {M : Type w}

/-- One command on the shared file. -/
inductive FileOp (L : Type v) where
  /-- Replace the contents by one line. -/
  | truncate (l : L)
  /-- Append lines. -/
  | append (ls : List L)
  /-- Send the whole contents. -/
  | send
  deriving DecidableEq, Repr

namespace FileOp

/-- The lines an operation appends. -/
def appended : FileOp L → List L
  | append ls => ls
  | _ => []

/-- Relabel the lines of an operation. -/
def map (f : L → M) : FileOp L → FileOp M
  | truncate l => truncate (f l)
  | append ls => append (ls.map f)
  | send => send

@[simp] theorem appended_truncate (l : L) : (truncate l).appended = [] := rfl
@[simp] theorem appended_append (ls : List L) : (append ls).appended = ls := rfl
@[simp] theorem appended_send : (send : FileOp L).appended = [] := rfl
@[simp] theorem appended_map (f : L → M) (op : FileOp L) :
    (op.map f).appended = op.appended.map f := by cases op <;> rfl

end FileOp

/-- The file and the reports sent so far, each with the run that sent it. -/
structure Shared (ι : Type u) (L : Type v) where
  file : List L
  sent : List (ι × List L)
  deriving DecidableEq, Repr

/-- Perform one operation of one run. -/
def perform (s : Shared ι L) : ι × FileOp L → Shared ι L
  | (_, .truncate l) => { s with file := [l] }
  | (_, .append ls) => { s with file := s.file ++ ls }
  | (i, .send) => { s with sent := s.sent ++ [(i, s.file)] }

/-- Perform a trace. -/
def exec (s : Shared ι L) (tr : List (ι × FileOp L)) : Shared ι L := tr.foldl perform s

@[simp] theorem exec_nil (s : Shared ι L) : exec s [] = s := rfl
theorem exec_append (s : Shared ι L) (tr tr' : List (ι × FileOp L)) :
    exec s (tr ++ tr') = exec (exec s tr) tr' := List.foldl_append
theorem exec_concat (s : Shared ι L) (tr : List (ι × FileOp L)) (e : ι × FileOp L) :
    exec s (tr ++ [e]) = perform (exec s tr) e := by simp [exec]

/-! ## What the file holds -/

/-- The operation does not truncate. -/
def FileOp.Keeps : FileOp L → Prop
  | .truncate _ => False
  | _ => True

/-- The lines a trace appends. -/
def appendedLines (tr : List (ι × FileOp L)) : List L := tr.flatMap fun e => e.2.appended

@[simp] theorem appendedLines_nil : appendedLines ([] : List (ι × FileOp L)) = [] := rfl
@[simp] theorem appendedLines_cons (e : ι × FileOp L) (tr : List (ι × FileOp L)) :
    appendedLines (e :: tr) = e.2.appended ++ appendedLines tr := rfl
@[simp] theorem appendedLines_append (tr tr' : List (ι × FileOp L)) :
    appendedLines (tr ++ tr') = appendedLines tr ++ appendedLines tr' := List.flatMap_append

theorem appendedLines_eq_nil_iff (tr : List (ι × FileOp L)) :
    appendedLines tr = [] ↔ ∀ e ∈ tr, e.2.appended = [] := by
  simp [appendedLines, List.flatMap_eq_nil_iff]

theorem file_perform_of_keeps (s : Shared ι L) {e : ι × FileOp L} (h : e.2.Keeps) :
    (perform s e).file = s.file ++ e.2.appended := by
  obtain ⟨i, op⟩ := e
  cases op with
  | truncate l => exact absurd h id
  | append ls => rfl
  | send => simp [perform]

/-- Between truncations the file grows by what is appended. -/
theorem file_exec_of_keeps (s : Shared ι L) {tr : List (ι × FileOp L)}
    (h : ∀ e ∈ tr, e.2.Keeps) : (exec s tr).file = s.file ++ appendedLines tr := by
  induction tr generalizing s with
  | nil => simp
  | cons e tr ih =>
    have hstep := file_perform_of_keeps s (h e (by simp))
    have hrest := ih (perform s e) fun e' he' => h e' (by simp [he'])
    calc
      (exec s (e :: tr)).file = (perform s e).file ++ appendedLines tr := hrest
      _ = s.file ++ appendedLines (e :: tr) := by
        rw [hstep, appendedLines_cons, List.append_assoc]

/-- The file holds the last header and everything appended since. -/
theorem file_exec_of_truncate (s : Shared ι L) (a : List (ι × FileOp L)) (j : ι) (l : L)
    {b : List (ι × FileOp L)} (h : ∀ e ∈ b, e.2.Keeps) :
    (exec s (a ++ (j, .truncate l) :: b)).file = l :: appendedLines b := by
  rw [exec_append]
  change (exec (perform (exec s a) (j, .truncate l)) b).file = _
  rw [file_exec_of_keeps _ h]
  rfl

/-- A trace with a truncation splits at its last one. -/
theorem exists_last_truncate {tr : List (ι × FileOp L)} {j : ι} {l : L}
    (h : (j, .truncate l) ∈ tr) :
    ∃ a k m b, tr = a ++ (k, .truncate m) :: b ∧ ∀ e ∈ b, e.2.Keeps := by
  induction tr using List.reverseRecOn with
  | nil => simp at h
  | append_singleton tr e ih =>
    obtain ⟨k, op⟩ := e
    cases op with
    | truncate m => exact ⟨tr, k, m, [], rfl, by simp⟩
    | append ls =>
      obtain ⟨a, k', m, b, rfl, hb⟩ := ih (by simpa using h)
      refine ⟨a, k', m, b ++ [(k, .append ls)], by simp, ?_⟩
      intro e he
      rcases List.mem_append.mp he with he | he
      · exact hb e he
      · rw [List.mem_singleton.mp he]; exact trivial
    | send =>
      obtain ⟨a, k', m, b, rfl, hb⟩ := ih (by simpa using h)
      refine ⟨a, k', m, b ++ [(k, .send)], by simp, ?_⟩
      intro e he
      rcases List.mem_append.mp he with he | he
      · exact hb e he
      · rw [List.mem_singleton.mp he]; exact trivial

/-- A report is the contents of the file when it was sent. -/
theorem mem_sent_exec_iff (s : Shared ι L) (tr : List (ι × FileOp L)) (i : ι) (c : List L) :
    (i, c) ∈ (exec s tr).sent ↔ (i, c) ∈ s.sent ∨
      ∃ pre post, tr = pre ++ (i, .send) :: post ∧ c = (exec s pre).file := by
  induction tr using List.reverseRecOn with
  | nil => simp
  | append_singleton tr e ih =>
    -- a `send` strictly before the last operation is a `send` of `tr`
    have hsplit : (∃ pre post, tr ++ [e] = pre ++ (i, .send) :: post ∧ c = (exec s pre).file) ↔
        (∃ pre post, tr = pre ++ (i, .send) :: post ∧ c = (exec s pre).file) ∨
          (e = (i, .send) ∧ c = (exec s tr).file) := by
      constructor
      · intro hsend
        rcases hsend with ⟨pre, post, h, hc⟩
        rcases List.eq_nil_or_concat post with rfl | ⟨post, x, rfl⟩
        · obtain ⟨rfl, he⟩ := List.append_inj' h rfl
          exact Or.inr ⟨by simpa using he, hc⟩
        · rw [List.concat_eq_append, ← List.cons_append, ← List.append_assoc] at h
          obtain ⟨rfl, -⟩ := List.append_inj' h rfl
          exact Or.inl ⟨pre, post, rfl, hc⟩
      · intro hsend
        rcases hsend with ⟨pre, post, rfl, hc⟩ | ⟨rfl, hc⟩
        · exact ⟨pre, post ++ [e], by simp, hc⟩
        · exact ⟨tr, [], rfl, hc⟩
    have hsent : (i, c) ∈ (perform (exec s tr) e).sent ↔
        (i, c) ∈ (exec s tr).sent ∨ (e = (i, .send) ∧ c = (exec s tr).file) := by
      obtain ⟨k, op⟩ := e
      cases op with
      | truncate l => simp [perform]
      | append ls => simp [perform]
      | send => simp [perform, eq_comm]
    rw [exec_concat, hsent, ih, hsplit, or_assoc]

/-! ## Forgetting marks -/

namespace Shared

/-- Relabel every line of a state. -/
def map (f : L → M) (s : Shared ι L) : Shared ι M :=
  ⟨s.file.map f, s.sent.map fun r => (r.1, r.2.map f)⟩

@[simp] theorem file_map (f : L → M) (s : Shared ι L) : (s.map f).file = s.file.map f := rfl
@[simp] theorem sent_map (f : L → M) (s : Shared ι L) :
    (s.map f).sent = s.sent.map fun r => (r.1, r.2.map f) := rfl

end Shared

theorem perform_map (f : L → M) (s : Shared ι L) (e : ι × FileOp L) :
    perform (s.map f) (e.1, e.2.map f) = (perform s e).map f := by
  obtain ⟨i, op⟩ := e
  cases op <;> simp [perform, FileOp.map, Shared.map]

theorem exec_map (f : L → M) (s : Shared ι L) (tr : List (ι × FileOp L)) :
    exec (s.map f) (tr.map fun e => (e.1, e.2.map f)) = (exec s tr).map f := by
  induction tr generalizing s with
  | nil => rfl
  | cons e tr ih =>
    change exec (perform (s.map f) (e.1, e.2.map f)) _ = (exec (perform s e) tr).map f
    rw [perform_map, ih]

/-- Mark the lines of an operation with the run that performs it. -/
def mark (e : ι × FileOp L) : ι × FileOp (Option ι × L) := (e.1, e.2.map fun l => (some e.1, l))

/-- The state before all runs: what the file holds belongs to no run. -/
def start (file : List L) : Shared ι L := ⟨file, []⟩

/-- Marking is a refinement: the marks do not change what happens. -/
theorem exec_unmark (file : List L) (tr : List (ι × FileOp L)) :
    (exec (start (file.map fun l => ((none : Option ι), l))) (tr.map mark)).map Prod.snd =
      exec (start file) tr := by
  rw [← exec_map]
  congr 1
  · simp [start, Shared.map, Function.comp_def]
  · have hmark : ∀ e : ι × FileOp L, ((mark e).1, (mark e).2.map Prod.snd) = e := by
      intro h
      rcases h with ⟨i, op⟩
      cases op <;> simp [mark, FileOp.map, Function.comp_def]
    simp [List.map_map, Function.comp_def, hmark]

theorem appended_mark (e : ι × FileOp L) :
    (mark e).2.appended = e.2.appended.map fun l => (some e.1, l) := FileOp.appended_map _ _

theorem appendedLines_map_mark (tr : List (ι × FileOp L)) :
    appendedLines (tr.map mark) =
      tr.flatMap fun e => e.2.appended.map fun l => (some e.1, l) := by
  simp [appendedLines, List.flatMap_map, appended_mark]

theorem keeps_mark {e : ι × FileOp L} (h : e.2.Keeps) : (mark e).2.Keeps := by
  obtain ⟨i, op⟩ := e
  cases op <;> exact h

/-- The marked file holds the last header and the marked lines appended since. -/
theorem file_exec_mark (s : Shared ι (Option ι × L)) (a : List (ι × FileOp L)) (j : ι) (l : L)
    {b : List (ι × FileOp L)} (hb : ∀ e ∈ b, e.2.Keeps) :
    (exec s ((a ++ (j, .truncate l) :: b).map mark)).file =
      (some j, l) :: appendedLines (b.map mark) := by
  rw [List.map_append, List.map_cons]
  refine file_exec_of_truncate _ _ _ _ fun e he => ?_
  obtain ⟨e', he', rfl⟩ := List.mem_map.mp he
  exact keeps_mark (hb e' he')

/-- A marked report is the contents of the marked file at a `send` of the trace. -/
theorem mem_sent_mark_iff (file : List (Option ι × L)) (tr : List (ι × FileOp L)) (i : ι)
    (c : List (Option ι × L)) :
    (i, c) ∈ (exec (start file) (tr.map mark)).sent ↔
      ∃ pre post, tr = pre ++ (i, .send) :: post ∧ c = (exec (start file) (pre.map mark)).file := by
  rw [mem_sent_exec_iff]
  constructor
  · intro h
    rcases h with hstart | ⟨mpre, mpost, hm, rfl⟩
    · simp [start] at hstart
    · obtain ⟨pre, rest, rfl, rfl, hrest⟩ := List.map_eq_append_iff.mp hm
      obtain ⟨e, post, rfl, he, -⟩ := List.map_eq_cons_iff.mp hrest
      have hei : e = (i, .send) := by
        obtain ⟨k, op⟩ := e
        cases op <;> simp [mark, FileOp.map] at he ⊢
        exact he
      exact ⟨pre, post, by rw [hei], rfl⟩
  · intro h
    rcases h with ⟨pre, post, rfl, rfl⟩
    exact Or.inr ⟨pre.map mark, post.map mark, by simp [mark, FileOp.map], rfl⟩

/-! ## Interleaved runs -/

variable [DecidableEq ι] {header : L} {chunks : ι → List (List L)}

/-- The program of a run: write the header, append the chunks, send the file. -/
def program (header : L) (chunks : List (List L)) : List (FileOp L) :=
  .truncate header :: chunks.map .append ++ [.send]

/-- The operations of one run in a trace. -/
def proj (i : ι) (tr : List (ι × FileOp L)) : List (FileOp L) :=
  (tr.filter fun e => e.1 = i).map Prod.snd

/-- Every run has performed a prefix of its program. -/
def Interleaves (header : L) (chunks : ι → List (List L)) (tr : List (ι × FileOp L)) : Prop :=
  ∀ i, proj i tr <+: program header (chunks i)

@[simp] theorem proj_nil (i : ι) : proj i ([] : List (ι × FileOp L)) = [] := rfl
@[simp] theorem proj_append (i : ι) (tr tr' : List (ι × FileOp L)) :
    proj i (tr ++ tr') = proj i tr ++ proj i tr' := by simp [proj]
theorem proj_cons_self (i : ι) (op : FileOp L) (tr : List (ι × FileOp L)) :
    proj i ((i, op) :: tr) = op :: proj i tr := by simp [proj]

theorem mem_proj {i : ι} {op : FileOp L} {tr : List (ι × FileOp L)} :
    op ∈ proj i tr ↔ (i, op) ∈ tr := by
  simp [proj]

/-- The header is the only line a run truncates to. -/
theorem eq_header_of_mem {tr : List (ι × FileOp L)} (h : Interleaves header chunks tr) {j : ι}
    {l : L} (hmem : (j, .truncate l) ∈ tr) : l = header := by
  have : FileOp.truncate l ∈ program header (chunks j) := (h j).subset (mem_proj.mpr hmem)
  simpa [program] using this

/-- When a run sends, it has performed all of its program before. -/
theorem proj_before_send {pre post : List (ι × FileOp L)} {i : ι}
    (h : Interleaves header chunks (pre ++ (i, .send) :: post)) :
    proj i pre = .truncate header :: (chunks i).map .append := by
  have hpre := h i
  rw [proj_append, proj_cons_self, program] at hpre
  rcases List.prefix_concat_iff.mp (show proj i pre ++ [.send] <+: _ from
    (List.prefix_append_right_inj _).mpr ⟨proj i post, rfl⟩ |>.trans hpre) with heq | hlt
  · exact (List.append_inj' heq rfl).1
  · -- a program has no `send` before its last operation
    have hmem : FileOp.send ∈ FileOp.truncate header :: (chunks i).map FileOp.append :=
      hlt.subset (by simp)
    simp at hmem

/-! ## Reports kept apart -/

/-- Every report is the header of some run followed by exactly the sender's own lines, in
order, each appended by the sender. -/
def Isolated (header : L) (chunks : ι → List (List L)) (file : List L)
    (tr : List (ι × FileOp L)) : Prop :=
  ∀ i c, (i, c) ∈ (exec (start (file.map fun l => (none, l))) (tr.map mark)).sent →
    ∃ j, c = (some j, header) :: (chunks i).flatten.map fun l => (some i, l)

/-- Between the last header before a `send` and the `send`, nobody but the sender appends
lines, and the sender has appended none before that header. -/
def Undisturbed (tr : List (ι × FileOp L)) : Prop :=
  ∀ a j l b i post, tr = a ++ (j, .truncate l) :: b ++ (i, .send) :: post →
    (∀ e ∈ b, e.2.Keeps) →
    (∀ e ∈ b, e.2.appended ≠ [] → e.1 = i) ∧ ∀ e ∈ a, e.1 = i → e.2.appended = []

/-- The lines one run appends in a trace. -/
theorem appendedLines_filter (i : ι) (tr : List (ι × FileOp L)) :
    appendedLines (tr.filter fun e => e.1 = i) = (proj i tr).flatMap FileOp.appended := by
  simp [appendedLines, proj, List.flatMap_map]

/-- When only one run appends, marking its lines commutes with restricting to the run. -/
theorem appendedLines_mark_of_own {i : ι} {tr : List (ι × FileOp L)}
    (h : ∀ e ∈ tr, e.2.appended ≠ [] → e.1 = i) :
    appendedLines (tr.map mark) =
      (appendedLines (tr.filter fun e => e.1 = i)).map fun l => (some i, l) := by
  induction tr with
  | nil => rfl
  | cons e tr ih =>
    have htail := ih fun e' he' => h e' (by simp [he'])
    rw [List.map_cons, appendedLines_cons, htail, appended_mark]
    by_cases he : e.1 = i
    · simp [he]
    · have hnil : e.2.appended = [] := by
        by_contra hne
        exact he (h e (by simp) hne)
      simp [he, hnil]

/-- The marked lines of a trace are one run's lines if and only if the other runs append
nothing. -/
theorem appendedLines_mark_eq_iff (i : ι) (tr : List (ι × FileOp L)) (ls : List L) :
    appendedLines (tr.map mark) = ls.map (fun l => (some i, l)) ↔
      (∀ e ∈ tr, e.2.appended ≠ [] → e.1 = i) ∧
        appendedLines (tr.filter fun e => e.1 = i) = ls := by
  constructor
  · intro h
    have hall : ∀ e ∈ tr, e.2.appended ≠ [] → e.1 = i := by
      intro e he hne
      obtain ⟨l, ls', hl⟩ := List.exists_cons_of_ne_nil hne
      have hmem : (some e.1, l) ∈ ls.map fun l => (some i, l) := by
        rw [← h, appendedLines_map_mark, List.mem_flatMap]
        exact ⟨e, he, by simp [hl]⟩
      obtain ⟨l', -, heq⟩ := List.mem_map.mp hmem
      exact (Option.some.inj (Prod.mk.inj heq).1).symm
    refine ⟨hall, ?_⟩
    rw [appendedLines_mark_of_own hall] at h
    exact List.map_injective_iff.mpr (fun _ _ heq => (Prod.mk.inj heq).2) h
  · intro hown
    rw [appendedLines_mark_of_own hown.1, hown.2]

/-- What the sender appended before and after a header is all it appends. -/
theorem appendedLines_own {a b post : List (ι × FileOp L)} {i j : ι} {l : L}
    (hi : Interleaves header chunks (a ++ (j, .truncate l) :: b ++ (i, .send) :: post)) :
    appendedLines (a.filter fun e => e.1 = i) ++ appendedLines (b.filter fun e => e.1 = i) =
      (chunks i).flatten := by
  have hproj := congrArg (List.flatMap FileOp.appended) (proj_before_send hi)
  rw [← appendedLines_filter, List.filter_append, appendedLines_append, List.filter_cons] at hproj
  have hchunks : (FileOp.truncate header :: (chunks i).map FileOp.append).flatMap
      FileOp.appended = (chunks i).flatten := by
    simp [List.flatMap_map, List.flatMap_id']
  rw [hchunks] at hproj
  by_cases hj : j = i
  · simpa [hj] using hproj
  · simpa [hj] using hproj

/-- One report, exactly: what was sent is the sender's own if and only if, since the last
header, the others appended nothing and the sender appended everything. -/
theorem report_eq_iff (s : Shared ι (Option ι × L)) {a b : List (ι × FileOp L)} {j i : ι} {l : L}
    {post : List (ι × FileOp L)}
    (hi : Interleaves header chunks (a ++ (j, .truncate l) :: b ++ (i, .send) :: post))
    (hb : ∀ e ∈ b, e.2.Keeps) :
    (∃ k, (exec s ((a ++ (j, .truncate l) :: b).map mark)).file =
        (some k, header) :: (chunks i).flatten.map fun l => (some i, l)) ↔
      (∀ e ∈ b, e.2.appended ≠ [] → e.1 = i) ∧ ∀ e ∈ a, e.1 = i → e.2.appended = [] := by
  have hmem : (j, FileOp.truncate l) ∈ a ++ (j, .truncate l) :: b ++ (i, .send) :: post := by simp
  have hl : l = header := eq_header_of_mem hi hmem
  subst hl
  have hown := appendedLines_own hi
  have hbefore : (∀ e ∈ a, e.1 = i → e.2.appended = []) ↔
      appendedLines (a.filter fun e => e.1 = i) = [] := by
    rw [appendedLines_eq_nil_iff]
    simp [and_imp]
  rw [file_exec_mark s a j l hb, hbefore]
  constructor
  · intro hreport
    rcases hreport with ⟨k, hk⟩
    rw [List.cons.injEq, appendedLines_mark_eq_iff] at hk
    refine ⟨hk.2.1, ?_⟩
    have hlen := congrArg List.length hown
    rw [hk.2.2, List.length_append] at hlen
    exact List.eq_nil_of_length_eq_zero (by omega)
  · intro hquiet
    rcases hquiet with ⟨hall, hnil⟩
    rw [hnil, List.nil_append] at hown
    exact ⟨j, by rw [(appendedLines_mark_eq_iff i b _).mpr ⟨hall, hown⟩]⟩

/-- **Reports are kept apart by exactly the undisturbed traces.** -/
theorem isolated_iff (file : List L) {tr : List (ι × FileOp L)}
    (hi : Interleaves header chunks tr) :
    Isolated header chunks file tr ↔ Undisturbed tr := by
  constructor
  · intro h a j l b i post htr hb
    have hsent := (mem_sent_mark_iff (file.map fun l => ((none : Option ι), l)) tr i _).mpr
      ⟨_, post, htr, rfl⟩
    rw [htr] at hi
    exact (report_eq_iff _ hi hb).mp (h i _ hsent)
  · intro h i c hc
    obtain ⟨pre, post, htr, rfl⟩ := (mem_sent_mark_iff _ tr i c).mp hc
    -- the sender has truncated before it sends
    have hheader : (i, FileOp.truncate header) ∈ pre := by
      rw [htr] at hi
      rw [← mem_proj, proj_before_send hi]
      simp
    obtain ⟨a, j, l, b, rfl, hb⟩ := exists_last_truncate hheader
    rw [htr] at hi
    exact (report_eq_iff _ hi hb).mpr (h a j l b i post htr hb)

/-- What is sent in an undisturbed trace, without the marks. -/
theorem eq_of_mem_sent (file : List L) {tr : List (ι × FileOp L)}
    (hi : Interleaves header chunks tr) (h : Undisturbed tr) {i : ι} {c : List L}
    (hc : (i, c) ∈ (exec (start file) tr).sent) : c = header :: (chunks i).flatten := by
  rw [← exec_unmark file tr, Shared.sent_map, List.mem_map] at hc
  obtain ⟨marked, hmem, heq⟩ := hc
  rw [Prod.mk.injEq] at heq
  obtain ⟨rfl, rfl⟩ := heq
  obtain ⟨j, hj⟩ := (isolated_iff file hi).mpr h marked.1 marked.2 hmem
  rw [hj]
  simp [Function.comp_def]

end Unix.SharedFile
