import Mathlib.Data.List.Basic
import Mathlib.Data.Multiset.ZeroCons
import Mathlib.Logic.Function.Basic

/-!
# Tables on a server

A server of a relational store is not a program that can be read here, so it is a parameter: a
state, what a command does to the state, and what a client sees of a table.  The fields of
`Server` say what one may rely on: a command changes no table but the one it names, a table can
be created once, and a row is stored as the server stores it, or refused.

From that a table is a function of the commands that name it: `look_foldl_execute` says that
over any commands it goes through `react`.  `plainServer` is a server as simple as possible.

## Main definitions

* `ColumnType`, `Value`, `TooLong` — columns, values, and rows that do not fit.
* `Contents` — what one sees of a table.
* `Command`, `react` — commands, and what they do to the table they name.
* `Server` — what is known of servers.
-/

namespace Relational

universe u v w

/-- The type of a column. -/
inductive ColumnType where
  | int
  | varchar (size : ℕ)
  deriving DecidableEq, Repr

/-- A value of a row. -/
inductive Value where
  | int (k : ℕ)
  | text (t : List Char)
  deriving DecidableEq, Repr

/-- The value is a text that does not fit its column.  Spaces at the end do not count. -/
def Value.tooLong : ColumnType → Value → Bool
  | .varchar size, .text t => (t.drop size).any fun c => c ≠ ' '
  | _, _ => false

/-- Some text of the row is longer than its column. -/
def TooLong (columns : List ColumnType) (row : List Value) : Prop :=
  ∃ x ∈ columns.zip row, Value.tooLong x.1 x.2 = true

instance (columns : List ColumnType) (row : List Value) : Decidable (TooLong columns row) :=
  inferInstanceAs (Decidable (∃ x ∈ columns.zip row, Value.tooLong x.1 x.2 = true))

/-- What a client sees of a table: its columns, and its rows, in no order. -/
@[ext]
structure Contents (ρ : Type w) where
  columns : List ColumnType
  rows : Multiset ρ
  deriving DecidableEq

/-- A table without rows. -/
def Contents.empty {ρ : Type w} (columns : List ColumnType) : Contents ρ := ⟨columns, 0⟩

/-- A command, about a table or about none. -/
inductive Command (τ : Type u) where
  | create (p : τ) (columns : List ColumnType)
  | insert (p : τ) (row : List Value)
  | truncate (p : τ)
  /-- A query. -/
  | select

/-- The table a command names. -/
def Command.place {τ : Type u} : Command τ → Option τ
  | create p _ => some p
  | insert p _ => some p
  | truncate p => some p
  | select => none

section React
variable {τ : Type u} {ρ : Type w}

/-- What a command does to the table it names: `store` is what is stored for a row in a table with
some columns. -/
def react (store : List ColumnType → List Value → Option ρ) (t : Option (Contents ρ)) :
    Command τ → Option (Contents ρ)
  | .create _ columns => some (t.getD (.empty columns))
  | .insert _ row => t.map fun t =>
    match store t.columns row with
    | some r => ⟨t.columns, r ::ₘ t.rows⟩
    | none => t
  | .truncate _ => t.map fun t => .empty t.columns
  | .select => t

variable {store : List ColumnType → List Value → Option ρ}

theorem columns_react {t : Option (Contents ρ)} {cmd : Command τ}
    (h : t.isSome = true ∨ ∀ p columns, cmd ≠ .create p columns) :
    (react store t cmd).map Contents.columns = t.map Contents.columns := by
  cases t with
  | none =>
    cases cmd with
    | create p columns => simp at h
    | insert p row => rfl
    | truncate p => rfl
    | select => rfl
  | some t =>
    cases cmd with
    | create p columns => rfl
    | insert p row => cases hrow : store t.columns row <;> simp [react, hrow]
    | truncate p => rfl
    | select => rfl

/-- No command changes the columns of a table that exists. -/
theorem columns_foldl_react {t : Option (Contents ρ)} {cmds : List (Command τ)}
    (h : t.isSome = true ∨ ∀ cmd ∈ cmds, ∀ p columns, cmd ≠ .create p columns) :
    (cmds.foldl (react store) t).map Contents.columns = t.map Contents.columns := by
  induction cmds generalizing t with
  | nil => rfl
  | cons cmd cmds ih =>
    have hstep : (react store t cmd).map Contents.columns = t.map Contents.columns :=
      columns_react (h.imp_right fun hall => hall cmd (by simp))
    have hsome : (react store t cmd).isSome = t.isSome := by
      have hboth := congrArg Option.isSome hstep
      simpa using hboth
    rw [List.foldl_cons, ih, hstep]
    rw [hsome]
    exact h.imp_right fun hall cmd' hcmd' => hall cmd' (by simp [hcmd'])

/-- A table that is emptied keeps its columns and nothing else. -/
theorem foldl_truncate {cmds : List (Command τ)} (hne : cmds ≠ [])
    (hcmds : ∀ cmd ∈ cmds, ∃ p, cmd = .truncate p) (t : Option (Contents ρ)) :
    cmds.foldl (react store) t = (t.map Contents.columns).map Contents.empty := by
  have htruncate : ∀ (t : Option (Contents ρ)) (p : τ),
      react store t (.truncate p) = (t.map Contents.columns).map Contents.empty := by
    intro t p
    cases t <;> rfl
  induction cmds generalizing t with
  | nil => exact absurd rfl hne
  | cons cmd cmds ih =>
    obtain ⟨p, rfl⟩ := hcmds cmd (by simp)
    rw [List.foldl_cons, htruncate]
    by_cases hnil : cmds = []
    · rw [hnil]
      rfl
    · rw [ih hnil fun cmd' hcmd' => hcmds cmd' (by simp [hcmd'])]
      cases t <;> rfl

/-- Once a table is there, creating it changes nothing. -/
theorem foldl_create {cmds : List (Command τ)}
    (hcmds : ∀ cmd ∈ cmds, ∃ p columns, cmd = .create p columns) {t : Option (Contents ρ)}
    (h : t.isSome = true ∨ cmds = []) : cmds.foldl (react store) t = t := by
  induction cmds with
  | nil => rfl
  | cons cmd cmds ih =>
    have hsome : t.isSome = true := h.resolve_right (by simp)
    obtain ⟨p, columns, rfl⟩ := hcmds cmd (by simp)
    have hstep : react store t (.create p columns) = t := by
      cases t with
      | none => simp at hsome
      | some t => rfl
    rw [List.foldl_cons, hstep]
    exact ih (fun cmd' hcmd' => hcmds cmd' (by simp [hcmd'])) (Or.inl hsome)

theorem isSome_foldl_create {cmds : List (Command τ)} (hne : cmds ≠ [])
    (hcmds : ∀ cmd ∈ cmds, ∃ p columns, cmd = .create p columns) (t : Option (Contents ρ)) :
    (cmds.foldl (react store) t).isSome = true := by
  cases cmds with
  | nil => exact absurd rfl hne
  | cons cmd cmds =>
    obtain ⟨p, columns, rfl⟩ := hcmds cmd (by simp)
    have hrest : ∀ cmd ∈ cmds, ∃ p columns, cmd = .create p columns :=
      fun cmd hcmd => hcmds cmd (by simp [hcmd])
    rw [List.foldl_cons, foldl_create hrest (Or.inl rfl)]
    rfl

/-- Emptying undoes what was done to a table since it was created: where a command neither creates
nor is followed by emptying, there is none. -/
theorem foldl_create_truncate {creates between drops : List (Command τ)}
    (hcreates : ∀ cmd ∈ creates, ∃ p columns, cmd = .create p columns)
    (hdrops : ∀ cmd ∈ drops, ∃ p, cmd = .truncate p)
    (hbetween : ∀ cmd ∈ between, (∀ p columns, cmd ≠ .create p columns) ∧ drops ≠ [] ∨
      cmd ∈ creates) (t : Option (Contents ρ)) :
    drops.foldl (react store) (between.foldl (react store) (creates.foldl (react store) t)) =
      drops.foldl (react store) (creates.foldl (react store) t) := by
  have hsome : creates ≠ [] → (creates.foldl (react store) t).isSome = true :=
    fun hne => isSome_foldl_create hne hcreates t
  by_cases hnil : drops = []
  · -- nothing but creating happens in between
    have hmem : ∀ cmd ∈ between, cmd ∈ creates :=
      fun cmd hcmd => (hbetween cmd hcmd).resolve_left fun hleft => hleft.2 hnil
    rw [foldl_create fun cmd hcmd => hcreates cmd (hmem cmd hcmd)]
    by_cases hnone : between = []
    · exact Or.inr hnone
    · obtain ⟨cmd, hcmd⟩ := List.exists_mem_of_ne_nil _ hnone
      exact Or.inl (hsome (List.ne_nil_of_mem (hmem cmd hcmd)))
  · -- the columns are all that is left
    rw [foldl_truncate hnil hdrops, foldl_truncate hnil hdrops, columns_foldl_react]
    by_cases hne : creates = []
    · right
      intro cmd hcmd
      rcases hbetween cmd hcmd with hleft | hmem
      · exact hleft.1
      · rw [hne] at hmem
        simp at hmem
    · exact Or.inl (hsome hne)

end React

/-- Servers, as far as one client needs to know them: `τ` are the names of tables, with their
databases and hosts, `σ` the states in which no table has keys, constraints or triggers (no
command makes any), and `ρ` the rows as a client sees them. -/
structure Server (τ : Type u) (σ : Type v) (ρ : Type w) where
  execute : σ → Command τ → σ
  /-- The table, if there is one. -/
  look : σ → τ → Option (Contents ρ)
  /-- The client reaches the database of the table and has every privilege there.  Otherwise it
  has none. -/
  Open : σ → τ → Prop
  /-- What is stored for a row in a table with such columns, if it is not refused. -/
  store : τ → List ColumnType → List Value → Option ρ
  open_execute (c : σ) (cmd : Command τ) (p : τ) : Open (execute c cmd) p ↔ Open c p
  /-- A command changes the table it names only. -/
  look_of_ne {c : σ} {cmd : Command τ} {p : τ} (h : cmd.place ≠ some p) :
    look (execute c cmd) p = look c p
  look_of_not_open {c : σ} {cmd : Command τ} {p : τ} (h : ¬ Open c p) :
    look (execute c cmd) p = look c p
  look_create {c : σ} {p : τ} (columns : List ColumnType) (hopen : Open c p)
    (h : look c p = none) : look (execute c (.create p columns)) p = some (.empty columns)
  /-- It is an error to create a table that exists. -/
  look_create_again {c : σ} {p : τ} {t : Contents ρ} (columns : List ColumnType)
    (h : look c p = some t) : look (execute c (.create p columns)) p = some t
  /-- It is an error to fill or empty a table that does not. -/
  look_missing {c : σ} {p : τ} {cmd : Command τ} (hcmd : ∀ columns, cmd ≠ .create p columns)
    (h : look c p = none) : look (execute c cmd) p = none
  look_insert {c : σ} {p : τ} {t : Contents ρ} {row : List Value} {r : ρ} (hopen : Open c p)
    (h : look c p = some t) (hrow : store p t.columns row = some r) :
    look (execute c (.insert p row)) p = some ⟨t.columns, r ::ₘ t.rows⟩
  look_insert_refused {c : σ} {p : τ} {t : Contents ρ} {row : List Value}
    (h : look c p = some t) (hrow : store p t.columns row = none) :
    look (execute c (.insert p row)) p = some t
  look_truncate {c : σ} {p : τ} {t : Contents ρ} (hopen : Open c p) (h : look c p = some t) :
    look (execute c (.truncate p)) p = some (.empty t.columns)

namespace Server
variable {τ : Type u} {σ : Type v} {ρ : Type w} (S : Server τ σ ρ)

/-- The server behind a table is strict: it refuses rows that are too long. -/
def Strict (p : τ) : Prop := ∀ columns row, TooLong columns row → S.store p columns row = none

/-- The step lemma: an open table reacts to the command that names it. -/
theorem look_execute {c : σ} {cmd : Command τ} {p : τ} (hopen : S.Open c p)
    (hcmd : cmd.place = some p) :
    S.look (S.execute c cmd) p = react (S.store p) (S.look c p) cmd := by
  cases hlook : S.look c p with
  | none =>
    cases cmd with
    | create q columns =>
      obtain rfl : q = p := Option.some.inj hcmd
      exact S.look_create columns hopen hlook
    | insert q row => exact S.look_missing (by simp) hlook
    | truncate q => exact S.look_missing (by simp) hlook
    | select => exact S.look_missing (by simp) hlook
  | some t =>
    cases cmd with
    | create q columns =>
      obtain rfl : q = p := Option.some.inj hcmd
      exact S.look_create_again columns hlook
    | insert q row =>
      obtain rfl : q = p := Option.some.inj hcmd
      cases hrow : S.store q t.columns row with
      | none =>
        rw [S.look_insert_refused hlook hrow]
        simp [react, hrow]
      | some r =>
        rw [S.look_insert hopen hlook hrow]
        simp [react, hrow]
    | truncate q =>
      obtain rfl : q = p := Option.some.inj hcmd
      exact S.look_truncate hopen hlook
    | select => simp [Command.place] at hcmd

theorem look_foldl_of_not_open {c : σ} {p : τ} (h : ¬ S.Open c p) (cmds : List (Command τ)) :
    S.look (cmds.foldl S.execute c) p = S.look c p := by
  induction cmds generalizing c with
  | nil => rfl
  | cons cmd cmds ih =>
    have hnext : ¬ S.Open (S.execute c cmd) p := mt (S.open_execute c cmd p).mp h
    rw [List.foldl_cons, ih hnext, S.look_of_not_open h]

/-- The run lemma: an open table goes through the commands that name it. -/
theorem look_foldl_execute [DecidableEq τ] {c : σ} {p : τ} (hopen : S.Open c p)
    (cmds : List (Command τ)) :
    S.look (cmds.foldl S.execute c) p =
      (cmds.filter fun cmd => cmd.place = some p).foldl (react (S.store p)) (S.look c p) := by
  induction cmds generalizing c with
  | nil => rfl
  | cons cmd cmds ih =>
    rw [List.foldl_cons, ih ((S.open_execute c cmd p).mpr hopen)]
    by_cases h : cmd.place = some p
    · rw [List.filter_cons_of_pos (by simpa using h), List.foldl_cons, S.look_execute hopen h]
    · rw [List.filter_cons_of_neg (by simpa using h), S.look_of_ne h]

/-- A table that no command names is as it was, open or not. -/
theorem look_foldl_of_forall_ne {c : σ} {p : τ} {cmds : List (Command τ)}
    (h : ∀ cmd ∈ cmds, cmd.place ≠ some p) : S.look (cmds.foldl S.execute c) p = S.look c p := by
  induction cmds generalizing c with
  | nil => rfl
  | cons cmd cmds ih =>
    rw [List.foldl_cons, ih fun cmd' hcmd' => h cmd' (by simp [hcmd']),
      S.look_of_ne (h cmd (by simp))]

end Server

/-! ## A plain server -/

/-- The row with its texts cut to their columns. -/
def cut (columns : List ColumnType) (row : List Value) : List Value :=
  List.zipWith (fun column value =>
    match column, value with
    | .varchar size, .text t => .text (t.take size)
    | _, value => value) columns row

/-- A row that is too long is refused, or cut. -/
def cutOrRefuse (strict : Bool) (columns : List ColumnType) (row : List Value) :
    Option (List Value) :=
  if strict && decide (TooLong columns row) then none else some (cut columns row)

section Plain
variable {τ : Type u} [DecidableEq τ] {ρ : Type w}

/-- A command to a server that keeps its tables under their names. -/
def plainExecute (usable : τ → Bool) (store : τ → List ColumnType → List Value → Option ρ)
    (c : τ → Option (Contents ρ)) (cmd : Command τ) : τ → Option (Contents ρ) :=
  match cmd.place with
  | some p => if usable p then Function.update c p (react (store p) (c p) cmd) else c
  | none => c

theorem plainExecute_of_usable {usable : τ → Bool}
    {store : τ → List ColumnType → List Value → Option ρ} (c : τ → Option (Contents ρ))
    {cmd : Command τ} {p : τ} (hcmd : cmd.place = some p) (h : usable p = true) :
    plainExecute usable store c cmd p = react (store p) (c p) cmd := by
  simp [plainExecute, hcmd, h]

theorem plainExecute_of_not_usable {usable : τ → Bool}
    {store : τ → List ColumnType → List Value → Option ρ} (c : τ → Option (Contents ρ))
    (cmd : Command τ) {p : τ} (h : usable p = false) :
    plainExecute usable store c cmd p = c p := by
  rw [plainExecute]
  cases hplace : cmd.place with
  | none => rfl
  | some q =>
    by_cases hq : q = p
    · subst hq
      simp [h]
    · by_cases husable : usable q = true
      · simp [husable, Function.update_of_ne (Ne.symm hq)]
      · simp [husable]

theorem plainExecute_of_ne {usable : τ → Bool}
    {store : τ → List ColumnType → List Value → Option ρ} (c : τ → Option (Contents ρ))
    {cmd : Command τ} {p : τ} (h : cmd.place ≠ some p) :
    plainExecute usable store c cmd p = c p := by
  rw [plainExecute]
  cases hplace : cmd.place with
  | none => rfl
  | some q =>
    have hq : p ≠ q := fun heq => h (by rw [hplace, heq])
    by_cases husable : usable q = true
    · simp [husable, Function.update_of_ne hq]
    · simp [husable]

/-- The laws of a server can be met. -/
def plainServer (usable : τ → Bool) (store : τ → List ColumnType → List Value → Option ρ) :
    Server τ (τ → Option (Contents ρ)) ρ where
  execute := plainExecute usable store
  look c p := c p
  Open _ p := usable p = true
  store := store
  open_execute _ _ _ := Iff.rfl
  look_of_ne h := plainExecute_of_ne _ h
  look_of_not_open h := plainExecute_of_not_usable _ _ (by simpa using h)
  look_create columns hopen h := by
    rw [plainExecute_of_usable _ rfl hopen, h]
    rfl
  look_create_again {c p t} columns h := by
    cases husable : usable p with
    | false => rw [plainExecute_of_not_usable _ _ husable, h]
    | true =>
      rw [plainExecute_of_usable _ rfl husable, h]
      rfl
  look_missing {c p cmd} hcmd h := by
    by_cases hplace : cmd.place = some p
    · cases husable : usable p with
      | false => rw [plainExecute_of_not_usable _ _ husable, h]
      | true =>
        rw [plainExecute_of_usable _ hplace husable, h]
        cases cmd with
        | create q columns =>
          obtain rfl : q = p := Option.some.inj hplace
          exact absurd rfl (hcmd columns)
        | insert q row => rfl
        | truncate q => rfl
        | select => rfl
    · rw [plainExecute_of_ne _ hplace, h]
  look_insert hopen h hrow := by
    rw [plainExecute_of_usable _ rfl hopen, h]
    simp [react, hrow]
  look_insert_refused {c p t row} h hrow := by
    cases husable : usable p with
    | false => rw [plainExecute_of_not_usable _ _ husable, h]
    | true =>
      rw [plainExecute_of_usable _ rfl husable, h]
      simp [react, hrow]
  look_truncate hopen h := by
    rw [plainExecute_of_usable _ rfl hopen, h]
    rfl

end Plain

end Relational
