import KubVagrant.Lib.SharedFile
import KubVagrant.Lib.Components

/-!
# Runs that do not overlap

Runs on one shared file that are performed one after the other, where any of them may be
stopped before its end.  `sent_serial` gives what they send: the own report of every run
that got to its end, and nothing of the others.  `undisturbed_serial` places these orders
among all interleavings.

The file can also be read as a component of a larger system (`Unix.Component`); `component`
is that reading and `run_component`, `output_component` connect it with `exec`.

## Main definitions

* `attempt` — one run, stopped after some operations.
* `serial` — runs one after the other.
* `component` — the shared file as a component.
-/

namespace Unix.SharedFile

universe u v
variable {ι : Type u} {L : Type v}

/-! ## One run -/

/-- The first `n` operations of a run. -/
def attempt (i : ι) (header : L) (chunks : List (List L)) (n : ℕ) : List (ι × FileOp L) :=
  ((program header chunks).take n).map fun op => (i, op)

/-- The run got to its end. -/
def Completes (chunks : List (List L)) (n : ℕ) : Prop := chunks.length + 2 ≤ n

instance (chunks : List (List L)) (n : ℕ) : Decidable (Completes chunks n) :=
  inferInstanceAs (Decidable (_ ≤ _))

theorem length_program (header : L) (chunks : List (List L)) :
    (program header chunks).length = chunks.length + 2 := by simp [program]

theorem attempt_of_completes (i : ι) (header : L) {chunks : List (List L)} {n : ℕ}
    (h : Completes chunks n) :
    attempt i header chunks n = (program header chunks).map fun op => (i, op) := by
  rw [attempt, List.take_of_length_le]
  rw [length_program]
  exact h

/-- A run that is stopped sends nothing. -/
theorem sent_exec_of_forall_ne (s : Shared ι L) {tr : List (ι × FileOp L)}
    (h : ∀ e ∈ tr, e.2 ≠ .send) : (exec s tr).sent = s.sent := by
  induction tr generalizing s with
  | nil => rfl
  | cons e tr ih =>
    have hrest := ih (perform s e) fun e' he' => h e' (by simp [he'])
    have hstep : (perform s e).sent = s.sent := by
      rcases e with ⟨i, op⟩
      cases op with
      | truncate l => rfl
      | append ls => rfl
      | send => exact absurd rfl (h (i, .send) (by simp))
    exact hrest.trans hstep

theorem notMem_send_of_stopped {header : L} {chunks : List (List L)} {n : ℕ}
    (h : ¬ Completes chunks n) : FileOp.send ∉ (program header chunks).take n := by
  intro hmem
  have hlen : (FileOp.truncate header :: chunks.map FileOp.append).length = chunks.length + 1 := by
    simp
  have hle : n ≤ (FileOp.truncate header :: chunks.map FileOp.append).length := by
    rw [hlen]
    unfold Completes at h
    omega
  rw [program, List.take_append_of_le_length hle] at hmem
  have hall := List.mem_of_mem_take hmem
  simp at hall

/-- One run after another state: it adds its own report, if it gets that far. -/
theorem sent_exec_attempt (s : Shared ι L) (i : ι) (header : L) (chunks : List (List L)) (n : ℕ) :
    (exec s (attempt i header chunks n)).sent =
      s.sent ++ if Completes chunks n then [(i, header :: chunks.flatten)] else [] := by
  by_cases h : Completes chunks n
  · rw [if_pos h, attempt_of_completes i header h]
    have hops : (program header chunks).map (fun op => (i, op)) =
        (i, FileOp.truncate header) :: (chunks.map fun ls => (i, FileOp.append ls)) ++
          [(i, .send)] := by
      simp [program, Function.comp_def]
    have hkeeps : ∀ e ∈ chunks.map fun ls => (i, FileOp.append ls), e.2.Keeps := by
      intro e he
      obtain ⟨ls, -, rfl⟩ := List.mem_map.mp he
      exact trivial
    have hfile : (exec s ((i, FileOp.truncate header) ::
        chunks.map fun ls => (i, FileOp.append ls))).file = header :: chunks.flatten := by
      have hlines : appendedLines (chunks.map fun ls => (i, FileOp.append ls)) =
          chunks.flatten := by
        simp [appendedLines, List.flatMap_map, List.flatMap_id']
      rw [← hlines]
      exact file_exec_of_truncate s [] i header hkeeps
    have hsent : (exec s ((i, FileOp.truncate header) ::
        chunks.map fun ls => (i, FileOp.append ls))).sent = s.sent := by
      refine sent_exec_of_forall_ne s fun e he => ?_
      rcases List.mem_cons.mp he with rfl | he
      · simp
      · obtain ⟨ls, -, rfl⟩ := List.mem_map.mp he
        simp
    rw [hops, exec_concat]
    simp only [perform, hfile, hsent]
  · rw [if_neg h, List.append_nil]
    refine sent_exec_of_forall_ne s fun e he => ?_
    obtain ⟨op, hop, rfl⟩ := List.mem_map.mp he
    intro hsend
    simp only at hsend
    rw [hsend] at hop
    exact notMem_send_of_stopped h hop

/-! ## Runs one after the other -/

variable {header : ι → L} {chunks : ι → List (List L)}

/-- Runs one after the other, each stopped after some operations. -/
def serial (header : ι → L) (chunks : ι → List (List L)) (attempts : List (ι × ℕ)) :
    List (ι × FileOp L) :=
  attempts.flatMap fun a => attempt a.1 (header a.1) (chunks a.1) a.2

/-- The runs that got to their end. -/
def completed (chunks : ι → List (List L)) (attempts : List (ι × ℕ)) : List ι :=
  (attempts.filter fun a => Completes (chunks a.1) a.2).map Prod.fst

theorem serial_cons (a : ι × ℕ) (attempts : List (ι × ℕ)) :
    serial header chunks (a :: attempts) =
      attempt a.1 (header a.1) (chunks a.1) a.2 ++ serial header chunks attempts := rfl

theorem completed_cons (a : ι × ℕ) (attempts : List (ι × ℕ)) :
    completed chunks (a :: attempts) =
      (if Completes (chunks a.1) a.2 then [a.1] else []) ++ completed chunks attempts := by
  by_cases h : Completes (chunks a.1) a.2 <;> simp [completed, h]

/-- **What runs send that do not overlap**: the reports of the runs that got to their end, in
order, and every report is the sender's own. -/
theorem sent_serial (s : Shared ι L) (attempts : List (ι × ℕ)) :
    (exec s (serial header chunks attempts)).sent =
      s.sent ++ (completed chunks attempts).map fun i => (i, header i :: (chunks i).flatten) := by
  induction attempts generalizing s with
  | nil => simp [serial, completed]
  | cons a attempts ih =>
    rw [serial_cons, exec_append, ih, sent_exec_attempt, completed_cons, List.map_append,
      List.append_assoc]
    by_cases h : Completes (chunks a.1) a.2 <;> simp [h]

/-- Marking a run marks its header and its lines. -/
theorem map_mark_attempt (i : ι) (h : L) (cs : List (List L)) (n : ℕ) :
    (attempt i h cs n).map mark =
      attempt i (some i, h) (cs.map fun ls => ls.map fun l => (some i, l)) n := by
  simp only [attempt, program, List.map_take, List.map_map, List.map_append, List.map_cons,
    List.map_nil]
  rfl

theorem map_mark_serial (attempts : List (ι × ℕ)) :
    (serial header chunks attempts).map mark =
      serial (fun i => (some i, header i)) (fun i => (chunks i).map fun ls => ls.map fun l =>
        (some i, l)) attempts := by
  simp only [serial, List.map_flatMap, map_mark_attempt]

section Interleavings
variable [DecidableEq ι]

theorem proj_attempt_self (i : ι) (h : L) (cs : List (List L)) (n : ℕ) :
    proj i (attempt i h cs n) = (program h cs).take n :=
  events_map_self i _

theorem proj_serial_of_notMem {i : ι} {attempts : List (ι × ℕ)} (hi : i ∉ attempts.map Prod.fst) :
    proj i (serial header chunks attempts) = [] := by
  change events i (attempts.flatMap fun a => attempt a.1 (header a.1) (chunks a.1) a.2) = []
  rw [events_flatMap, List.flatMap_eq_nil_iff]
  intro a ha
  have hne : a.1 ≠ i := fun heq => hi (List.mem_map.mpr ⟨a, ha, heq⟩)
  exact events_map_of_ne hne _

/-- Runs one after the other are an interleaving, if no run is started twice. -/
theorem interleaves_serial {h : L} {attempts : List (ι × ℕ)}
    (hnodup : (attempts.map Prod.fst).Nodup) :
    Interleaves h chunks (serial (fun _ => h) chunks attempts) := by
  intro i
  induction attempts with
  | nil => exact List.nil_prefix
  | cons a attempts ih =>
    rw [List.map_cons, List.nodup_cons] at hnodup
    rw [serial_cons, proj_append]
    by_cases ha : a.1 = i
    · subst ha
      rw [proj_attempt_self, proj_serial_of_notMem hnodup.1, List.append_nil]
      exact List.take_prefix _ _
    · have hnone : proj i (attempt a.1 h (chunks a.1) a.2) = [] := events_map_of_ne ha _
      rw [hnone, List.nil_append]
      exact ih hnodup.2

/-- **Runs that do not overlap disturb nobody**, wherever they are stopped. -/
theorem undisturbed_serial {h : L} {attempts : List (ι × ℕ)}
    (hnodup : (attempts.map Prod.fst).Nodup) :
    Undisturbed (serial (fun _ => h) chunks attempts) := by
  rw [← isolated_iff [] (interleaves_serial hnodup)]
  intro i c hc
  rw [map_mark_serial, sent_serial] at hc
  simp only [start, List.nil_append] at hc
  obtain ⟨j, -, hj⟩ := List.mem_map.mp hc
  rw [Prod.mk.injEq] at hj
  obtain ⟨rfl, rfl⟩ := hj
  refine ⟨j, ?_⟩
  rw [List.map_flatten]

end Interleavings

/-! ## The file as a component -/

/-- The shared file of a machine: its contents are the state, and what is sent is put out. -/
def component : Component (List L) (ι × FileOp L) (ι × List L) where
  next file e := (perform (start file) e).file
  emit file e := (perform (start file) e).sent

theorem file_perform (s : Shared ι L) (e : ι × FileOp L) :
    (perform s e).file = component.next s.file e := by
  rcases e with ⟨i, op⟩
  cases op <;> rfl

theorem sent_perform (s : Shared ι L) (e : ι × FileOp L) :
    (perform s e).sent = s.sent ++ component.emit s.file e := by
  rcases e with ⟨i, op⟩
  cases op <;> simp [perform, component, start]

theorem sent_exec (s : Shared ι L) (tr : List (ι × FileOp L)) :
    (exec s tr).sent = s.sent ++ component.output s.file tr := by
  induction tr generalizing s with
  | nil => simp
  | cons e tr ih =>
    change (exec (perform s e) tr).sent = _
    rw [ih, sent_perform, file_perform, Component.output_cons, List.append_assoc]

/-- What a component puts out is what is sent. -/
theorem output_component (file : List L) (tr : List (ι × FileOp L)) :
    component.output file tr = (exec (start file) tr).sent := by
  rw [sent_exec]
  rfl

end Unix.SharedFile
