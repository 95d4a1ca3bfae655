import KubVagrant.Lib.Components
import KubVagrant.Lib.Relational
import KubVagrant.InsertData

/-!
# The tables behind the data scripts

`InsertData` is about which hosts the data scripts visit; this module is about what they leave
there, over any number of runs of any of them with any inventories.  The servers are not part of
the repository: they are a `Relational.Server`, of which nothing is known but its laws, and a
script is the commands it sends.

Each command names one table of one database of one host (`Place`), so what a script does to a
table is read off from the statements that name it.  `look_runAll` is the refinement of a table
by the list of the keys inserted into it since it was last emptied.

## Main definitions

* `Sql.command`, `runScript` — what the scripts ask of the servers.
* `DataRun`, `runAll` — runs of the scripts.
* `tableOf` — the table with given keys, as a server stores it.
* `DataRun.effect` — what a run does to the keys of a table.
-/

namespace KubVagrant
open Unix Relational

universe v w
variable {σ : Type v} {ρ : Type w}

/-! ## The statements -/

/-- `(champs1 int, champs2 varchar(255), ..., champs14 varchar(255))`. -/
def champs : List ColumnType := .int :: List.replicate 13 (.varchar 255)

/-- `champs2`. -/
def champs2 : Text := List.replicate 158 'd' ++ List.replicate 190 'r' ++ List.replicate 80 'e'

/-- `champs3`, with a tab in it. -/
def champs3 : Text :=
  "champs ashlehfhgflrnglrngfn,nfd;n;dffffdgflkdlgkfdlklmdkgmskdfmv,f,v,mkkkkkkkk".toList ++
    "lqlqlqmsmqmlsqlD,MSQ,DDSM,DSK,KN,KDN,NC,,,,,,\tKSLSMMSMSSMSÙQDQÙlsdhlsdkg".toList ++
      List.replicate 283 'f'

/-- `champs4` to `champs14`, with two spaces for the tab. -/
def champs4 : Text :=
  "champs ashlehfhgflrnglrngfn,nfd;n;dffffdgflkdlgkfdlklmdkgmskdfmv,f,v,mkkkkkkkk".toList ++
    "lqlqlqmsmqmlsqlD,MSQ,DDSM,DSK,KN,KDN,NC,,,,,,  KSLSMMSMSSMSÙQDQÙlsdhlsdkg".toList ++
      List.replicate 283 'f'

/-- `VALUES (${k}, ...)`. -/
def champsValues (k : ℕ) : List Value :=
  .int k :: .text champs2 :: .text champs3 :: List.replicate 11 (.text champs4)

/-- A table name of a database of a host. -/
abbrev Place := Text × Text × Text

/-- What a statement asks of the table it names. -/
def Sql.command (p : Place) : Sql → Command Place
  | createTable _ => .create p champs
  | insertInto _ k => .insert p (champsValues k)
  | truncate _ => .truncate p
  | showSize => .select

/-- The table a statement names. -/
def Sql.table : Sql → Option Text
  | .createTable table => some table
  | .insertInto table _ => some table
  | .truncate table => some table
  | .showSize => none

/-- `mysql -h host -u yata -e sql database`. -/
def Statement.command (s : Statement) : Command Place :=
  match s.database, s.sql.table with
  | some database, some table => s.sql.command (s.host, database, table)
  -- a query, or no database selected
  | _, _ => .select

/-- A script: its statements, one after the other. -/
def runScript (S : Server Place σ ρ) (c : σ) (script : List Iteration) : σ :=
  ((script.flatMap Iteration.statements).map Statement.command).foldl S.execute c

/-- A run of one of the data scripts on an inventory. -/
inductive DataRun where
  | create (inventory : Text)
  | insert (alea : ℕ → Text → ℕ → Fin 500) (inventory : Text)
  | drop (inventory : Text)
  | size (inventory : Text)

/-- What a run sends. -/
def DataRun.script : DataRun → List Iteration
  | create inventory => createTables inventory
  | insert alea inventory => insertDatas alea inventory
  | drop inventory => dropDatas inventory
  | size inventory => showSize inventory

/-- Runs, one after the other. -/
def runAll (S : Server Place σ ρ) (c : σ) (history : List DataRun) : σ :=
  history.foldl (fun c run => runScript S c run.script) c

/-! ## Statements by the table they name -/

/-- The place a statement is about, if there is one. -/
def Statement.labelled (s : Statement) : List (Place × Sql) :=
  match s.database, s.sql.table with
  | some database, some table => [((s.host, database, table), s.sql)]
  | _, _ => []

theorem Sql.place_command {sql : Sql} {table : Text} (h : sql.table = some table) (p : Place) :
    (sql.command p).place = some p := by
  cases sql with
  | createTable name => rfl
  | insertInto name k => rfl
  | truncate name => rfl
  | showSize => simp [Sql.table] at h

/-- The commands that name a place are those of the statements about it. -/
theorem filter_command (statements : List Statement) (p : Place) :
    ((statements.map Statement.command).filter fun cmd => cmd.place = some p) =
      (events p (statements.flatMap Statement.labelled)).map (Sql.command p) := by
  induction statements with
  | nil => rfl
  | cons s statements ih =>
    rw [List.map_cons, List.flatMap_cons, events_append, List.map_append, ← ih]
    rcases s with ⟨host, database, sql⟩
    cases database with
    | none => rfl
    | some database =>
      cases htable : sql.table with
      | none => simp [Statement.command, Statement.labelled, htable, Command.place]
      | some table =>
        have hplace := Sql.place_command htable (host, database, table)
        simp only [Statement.command, Statement.labelled, htable]
        by_cases hp : (host, database, table) = p
        · subst hp
          rw [List.filter_cons_of_pos (by simpa using hplace), events_cons_self]
          rfl
        · have hne : (sql.command (host, database, table)).place ≠ some p := by
            rw [hplace]
            exact fun heq => hp (Option.some.inj heq)
          rw [List.filter_cons_of_neg (by simpa using hne), events_cons_of_ne hp]
          rfl

/-! ## What the scripts send to a table -/

/-- The inner loops of a script: `ops database j` is sent for the table `j` of a database. -/
def loops (host : Text) (ops : Text → ℕ → List Sql) : List Statement :=
  databases.flatMap fun database => (seq 1 10).flatMap fun j =>
    (ops database j).map fun sql => ⟨host, some database, sql⟩

/-- The statements of a loop name the tables of the loop. -/
def NamesTables (ops : Text → ℕ → List Sql) : Prop :=
  ∀ database j, ∀ sql ∈ ops database j, sql.table = some (table j)

theorem nodup_databases : databases.Nodup := by
  rw [databases_eq]
  decide

theorem nodup_seq (a b : ℕ) : (seq a b).Nodup := List.nodup_range'

/-- Different numbers make different tables. -/
theorem table_inj {j j' : ℕ} (hj : j ∈ seq 1 10) (hj' : j' ∈ seq 1 10)
    (h : table j = table j') : j = j' := by
  have hall : ∀ j ∈ seq 1 10, ∀ j' ∈ seq 1 10, table j = table j' → j = j' := by decide
  exact hall j hj j' hj' h

theorem flatMap_labelled {ops : Text → ℕ → List Sql} (hops : NamesTables ops)
    (host database : Text) (j : ℕ) :
    ((ops database j).map fun sql => (⟨host, some database, sql⟩ : Statement)).flatMap
        Statement.labelled =
      (ops database j).map fun sql => ((host, database, table j), sql) := by
  rw [List.flatMap_map, List.map_eq_flatMap]
  refine List.flatMap_congr fun sql hsql => ?_
  simp only [Statement.labelled, hops database j sql hsql]

/-- The loops send to a table what they send for its number. -/
theorem events_loops {ops : Text → ℕ → List Sql} (hops : NamesTables ops) (host : Text)
    {h₀ d₀ : Text} {j₀ : ℕ} (hd : d₀ ∈ databases) (hj : j₀ ∈ seq 1 10) :
    events (h₀, d₀, table j₀) ((loops host ops).flatMap Statement.labelled) =
      if host = h₀ then ops d₀ j₀ else [] := by
  have hround : ∀ database j,
      events (h₀, d₀, table j₀) (((ops database j).map fun sql =>
        (⟨host, some database, sql⟩ : Statement)).flatMap Statement.labelled) =
          if (host, database, table j) = (h₀, d₀, table j₀) then ops database j else [] := by
    intro database j
    rw [flatMap_labelled hops]
    by_cases heq : (host, database, table j) = (h₀, d₀, table j₀)
    · rw [if_pos heq, heq, events_map_self]
    · rw [if_neg heq, events_map_of_ne heq]
  rw [loops, List.flatMap_assoc, events_flatMap,
    flatMap_eq_of_nodup nodup_databases (x := d₀), if_pos hd, List.flatMap_assoc, events_flatMap,
    flatMap_eq_of_nodup (nodup_seq 1 10) (x := j₀), if_pos hj, hround]
  · simp
  · intro j hjmem hne
    have hdiff : (host, d₀, table j) ≠ (h₀, d₀, table j₀) := by
      simp only [ne_eq, Prod.mk.injEq, not_and]
      exact fun _ _ htable => hne (table_inj hjmem hj htable)
    rw [hround, if_neg hdiff]
  · intro database _ hne
    rw [List.flatMap_assoc, events_flatMap, List.flatMap_eq_nil_iff]
    intro j _
    have hdiff : (host, database, table j) ≠ (h₀, d₀, table j₀) := by simp [hne]
    rw [hround, if_neg hdiff]

/-- The loops send nothing to any other place. -/
theorem events_loops_eq_nil {ops : Text → ℕ → List Sql} (hops : NamesTables ops) {host : Text}
    {p : Place} (hp : ¬ (p.1 = host ∧ p.2.1 ∈ databases ∧ ∃ j ∈ seq 1 10, p.2.2 = table j)) :
    events p ((loops host ops).flatMap Statement.labelled) = [] := by
  rw [loops, List.flatMap_assoc, events_flatMap, List.flatMap_eq_nil_iff]
  intro database hdatabase
  rw [List.flatMap_assoc, events_flatMap, List.flatMap_eq_nil_iff]
  intro j hj
  have hdiff : (host, database, table j) ≠ p := by
    rintro rfl
    exact hp ⟨rfl, hdatabase, j, hj, rfl⟩
  rw [flatMap_labelled hops, events_map_of_ne hdiff]

/-- A script as rounds of its outer loop. -/
def scriptOf {ρ : Type} (rounds : List ρ) (host : ρ → Text) (ops : ρ → Text → ℕ → List Sql) :
    List Iteration :=
  rounds.map fun r => ⟨host r, loops (host r) (ops r)⟩

section Rounds
variable {ρ : Type} {rounds : List ρ} {host : ρ → Text} {ops : ρ → Text → ℕ → List Sql}

theorem events_scriptOf (hops : ∀ r, NamesTables (ops r)) {h₀ d₀ : Text} {j₀ : ℕ}
    (hd : d₀ ∈ databases) (hj : j₀ ∈ seq 1 10) :
    events (h₀, d₀, table j₀)
        (((scriptOf rounds host ops).flatMap Iteration.statements).flatMap Statement.labelled) =
      rounds.flatMap fun r => if host r = h₀ then ops r d₀ j₀ else [] := by
  rw [scriptOf, List.flatMap_map, List.flatMap_assoc, events_flatMap]
  exact List.flatMap_congr fun r _ => events_loops (hops r) (host r) hd hj

theorem events_scriptOf_eq_nil (hops : ∀ r, NamesTables (ops r)) {p : Place}
    (hp : ¬ (p.1 ∈ rounds.map host ∧ p.2.1 ∈ databases ∧ ∃ j ∈ seq 1 10, p.2.2 = table j)) :
    events p
        (((scriptOf rounds host ops).flatMap Iteration.statements).flatMap Statement.labelled) =
      [] := by
  rw [scriptOf, List.flatMap_map, List.flatMap_assoc, events_flatMap, List.flatMap_eq_nil_iff]
  intro r hr
  refine events_loops_eq_nil (hops r) fun h => hp ⟨?_, h.2⟩
  rw [h.1]
  exact List.mem_map_of_mem hr

end Rounds

namespace DataRun

/-- The rounds of the outer loop of a run: the host, and the number of the round. -/
def rounds : DataRun → List (Text × ℕ)
  | create inventory => (createTablesHosts inventory).zipIdx
  | insert _ inventory => (insertDatasHosts inventory).zipIdx
  | drop inventory => (dropDatasHosts inventory).zipIdx
  | size inventory => (showSizeHosts inventory).zipIdx

/-- What a round of a run sends for a table, by its database and number. -/
def ops : DataRun → Text × ℕ → Text → ℕ → List Sql
  | create _, _ => fun _ j => [.createTable (table j)]
  | insert alea _, round => fun database j =>
    (seq 1 (alea round.2 database j + 1)).map (.insertInto (table j))
  | drop _, _ => fun _ j => [.truncate (table j)]
  | size _, _ => fun _ _ => []

theorem namesTables_ops (run : DataRun) (round : Text × ℕ) : NamesTables (run.ops round) := by
  intro database j sql hsql
  cases run with
  | create inventory =>
    rw [List.mem_singleton.mp hsql]
    rfl
  | insert alea inventory =>
    obtain ⟨k, -, rfl⟩ := List.mem_map.mp hsql
    rfl
  | drop inventory =>
    rw [List.mem_singleton.mp hsql]
    rfl
  | size inventory => simp [ops] at hsql

theorem map_zipIdx_fst {α β : Type} (l : List α) (f : α → β) :
    l.map f = l.zipIdx.map fun x => f x.1 := by
  have hfst : (fun x : α × ℕ => f x.1) = f ∘ Prod.fst := rfl
  rw [hfst, ← List.map_map, List.zipIdx_map_fst]

/-- The scripts that write are rounds of loops. -/
theorem script_eq {run : DataRun} (h : ∀ inventory, run ≠ size inventory) :
    run.script = scriptOf run.rounds Prod.fst run.ops := by
  cases run with
  | create inventory =>
    rw [script, createTables, map_zipIdx_fst, scriptOf, rounds]
    simp [loops, ops, List.map_eq_flatMap]
  | insert alea inventory =>
    rw [script, insertDatas, List.mapIdx_eq_zipIdx_map, scriptOf, rounds]
    simp [loops, ops, Function.comp_def]
  | drop inventory =>
    rw [script, dropDatas, map_zipIdx_fst, scriptOf, rounds]
    simp [loops, ops, List.map_eq_flatMap]
  | size inventory => exact absurd rfl (h inventory)

/-- `show_size.sh` is about no table. -/
theorem labelled_size (inventory : Text) :
    ((size inventory).script.flatMap Iteration.statements).flatMap Statement.labelled = [] := by
  rw [List.flatMap_assoc, List.flatMap_eq_nil_iff]
  intro round hround
  obtain ⟨host, -, rfl⟩ := List.mem_map.mp hround
  rfl

/-- What a run sends to a table. -/
theorem events_script (run : DataRun) {h₀ d₀ : Text} {j₀ : ℕ} (hd : d₀ ∈ databases)
    (hj : j₀ ∈ seq 1 10) :
    events (h₀, d₀, table j₀)
        ((run.script.flatMap Iteration.statements).flatMap Statement.labelled) =
      run.rounds.flatMap fun round => if round.1 = h₀ then run.ops round d₀ j₀ else [] := by
  by_cases h : ∀ inventory, run ≠ size inventory
  · rw [script_eq h, events_scriptOf run.namesTables_ops hd hj]
  · simp only [not_forall, not_not] at h
    rcases h with ⟨inventory, rfl⟩
    rw [labelled_size, events_nil, eq_comm, List.flatMap_eq_nil_iff]
    intro round _
    simp [ops]

/-- A run sends nothing about a place that none of its loops names. -/
theorem events_script_eq_nil (run : DataRun) {p : Place}
    (hp : ¬ (p.1 ∈ visited run.script ∧ p.2.1 ∈ databases ∧
      ∃ j ∈ seq 1 10, p.2.2 = table j)) :
    events p ((run.script.flatMap Iteration.statements).flatMap Statement.labelled) = [] := by
  by_cases h : ∀ inventory, run ≠ size inventory
  · have hvisited : visited run.script = run.rounds.map Prod.fst := by
      rw [script_eq h, visited, scriptOf, List.map_map]
      rfl
    rw [hvisited] at hp
    rw [script_eq h]
    exact events_scriptOf_eq_nil run.namesTables_ops hp
  · simp only [not_forall, not_not] at h
    rcases h with ⟨inventory, rfl⟩
    rw [labelled_size, events_nil]

end DataRun

/-! ## The keys of a table -/

/-- The table of the scripts with the rows of some keys, as far as the server stores them. -/
def tableOf (store : List ColumnType → List Value → Option ρ) (keys : List ℕ) : Contents ρ where
  columns := champs
  rows := ↑(keys.filterMap fun k => store champs (champsValues k))

/-- What a statement does to the keys of the table it names. -/
def keyEffect (keys : Option (List ℕ)) : Sql → Option (List ℕ)
  | .createTable _ => some (keys.getD [])
  | .insertInto _ k => keys.map fun ks => ks ++ [k]
  | .truncate _ => keys.map fun _ => []
  | .showSize => keys

theorem tableOf_append (store : List ColumnType → List Value → Option ρ) (ks : List ℕ) (k : ℕ) :
    tableOf store (ks ++ [k]) =
      match store champs (champsValues k) with
      | some r => ⟨champs, r ::ₘ (tableOf store ks).rows⟩
      | none => tableOf store ks := by
  cases hrow : store champs (champsValues k) with
  | none => simp [tableOf, hrow]
  | some r =>
    have hperm : List.Perm ((ks.filterMap fun k => store champs (champsValues k)) ++ [r])
        (r :: ks.filterMap fun k => store champs (champsValues k)) :=
      List.perm_append_singleton _ _
    simp only [tableOf, List.filterMap_append, List.filterMap_cons, hrow, List.filterMap_nil,
      Multiset.cons_coe, Multiset.coe_eq_coe.mpr hperm]

/-- One statement, on tables and on keys. -/
theorem react_map_tableOf (store : List ColumnType → List Value → Option ρ) (p : Place)
    (keys : Option (List ℕ)) (sql : Sql) :
    react store (keys.map (tableOf store)) (sql.command p) =
      (keyEffect keys sql).map (tableOf store) := by
  cases keys with
  | none => cases sql <;> rfl
  | some ks =>
    cases sql with
    | createTable table => rfl
    | insertInto table k =>
      rw [keyEffect, Option.map_some, Option.map_some, Option.map_some, tableOf_append]
      rfl
    | truncate table => rfl
    | showSize => rfl

theorem foldl_react (store : List ColumnType → List Value → Option ρ) (p : Place)
    (keys : Option (List ℕ)) (ops : List Sql) :
    (ops.map (Sql.command p)).foldl (react store) (keys.map (tableOf store)) =
      (ops.foldl keyEffect keys).map (tableOf store) := by
  induction ops generalizing keys with
  | nil => rfl
  | cons sql ops ih =>
    rw [List.map_cons, List.foldl_cons, react_map_tableOf, ih, List.foldl_cons]

/-! ## Whole histories -/

/-- The statements of a run about a place. -/
def DataRun.sentTo (p : Place) (run : DataRun) : List Sql :=
  events p ((run.script.flatMap Iteration.statements).flatMap Statement.labelled)

/-- The commands of a history. -/
theorem runAll_eq (S : Server Place σ ρ) (c : σ) (history : List DataRun) :
    runAll S c history = (history.flatMap fun run =>
      (run.script.flatMap Iteration.statements).map Statement.command).foldl S.execute c := by
  rw [List.foldl_flatMap]
  rfl

theorem filter_commands (history : List DataRun) (p : Place) :
    ((history.flatMap fun run =>
        (run.script.flatMap Iteration.statements).map Statement.command).filter
        fun cmd => cmd.place = some p) =
      (history.flatMap fun run => run.sentTo p).map (Sql.command p) := by
  induction history with
  | nil => rfl
  | cons run history ih =>
    rw [List.flatMap_cons, List.filter_append, filter_command, ih, List.flatMap_cons,
      List.map_append]
    rfl

/-- The run lemma: a table that the client may use goes through the statements of all runs
about it. -/
theorem look_runAll_eq (S : Server Place σ ρ) {c : σ} {p : Place} (hopen : S.Open c p)
    (history : List DataRun) :
    S.look (runAll S c history) p =
      ((history.flatMap fun run => run.sentTo p).map (Sql.command p)).foldl (react (S.store p))
        (S.look c p) := by
  rw [runAll_eq, S.look_foldl_execute hopen, filter_commands]

theorem look_runAll_of_not_open (S : Server Place σ ρ) {c : σ} {p : Place} (h : ¬ S.Open c p)
    (history : List DataRun) : S.look (runAll S c history) p = S.look c p := by
  rw [runAll_eq, S.look_foldl_of_not_open h]

/-- **The data scripts touch their own tables only**: what no run of a history loops over, a
database, a table name or a whole host, is as it was. -/
theorem look_runAll_of_untouched (S : Server Place σ ρ) (c : σ) {history : List DataRun}
    {p : Place} (hp : ∀ run ∈ history, ¬ (p.1 ∈ visited run.script ∧ p.2.1 ∈ databases ∧
      ∃ j ∈ seq 1 10, p.2.2 = table j)) :
    S.look (runAll S c history) p = S.look c p := by
  have hnone : (history.flatMap fun run => run.sentTo p) = [] := by
    rw [List.flatMap_eq_nil_iff]
    exact fun run hrun => run.events_script_eq_nil (hp run hrun)
  have hfilter := filter_commands history p
  rw [hnone, List.map_nil, List.filter_eq_nil_iff] at hfilter
  rw [runAll_eq]
  exact S.look_foldl_of_forall_ne fun cmd hcmd => by simpa using hfilter cmd hcmd

/-- The first host of the inventory. -/
def mariadbHost : Text := "192.168.236.130".toList

/-- The inventory with this host. -/
def oneHost : Text := "[mariadb]\n192.168.236.130\n".toList

/-- This host, with the databases of its role. -/
def mariadb (strict : Bool) : Server Place (Place → Option (Contents (List Value))) (List Value) :=
  plainServer (fun p => p.1 = mariadbHost ∧ p.2.1 ∈ "collect".toList :: databases)
    fun _ => cutOrRefuse strict

/-- No tables. -/
def noTables : Place → Option (Contents (List Value)) := fun _ => none

theorem open_mariadb (strict : Bool) {database : Text} (h : database ∈ databases) (name : Text) :
    (mariadb strict).Open noTables (mariadbHost, database, name) := by
  simp [mariadb, plainServer, h]

/-- The service's own database is not one of theirs. -/
theorem look_runAll_of_untouched_collect :
    (mariadb false).look (runAll (mariadb false) noTables
        [.create oneHost, .insert (fun _ _ _ => 0) oneHost])
      (mariadbHost, "collect".toList, table 1) =
    (mariadb false).look noTables (mariadbHost, "collect".toList, table 1) := by
  have hcollect : "collect".toList ∉ databases := by decide
  exact look_runAll_of_untouched _ _ fun _ _ h => hcollect h.2.1

/-- The keys that a run of `insert_datas.sh` inserts into a table: those of the rounds of its
host. -/
def insertedKeys (alea : ℕ → Text → ℕ → Fin 500) (hosts : List Text) (h₀ d₀ : Text) (j₀ : ℕ) :
    List ℕ :=
  (hosts.zipIdx.filter fun round => round.1 = h₀).flatMap fun round =>
    seq 1 (alea round.2 d₀ j₀ + 1)

/-- What a run does to the keys of a table. -/
def DataRun.effect (h₀ d₀ : Text) (j₀ : ℕ) (keys : Option (List ℕ)) :
    DataRun → Option (List ℕ)
  | create inventory => if h₀ ∈ createTablesHosts inventory then some (keys.getD []) else keys
  | insert alea inventory =>
    keys.map fun ks => ks ++ insertedKeys alea (insertDatasHosts inventory) h₀ d₀ j₀
  | drop inventory => if h₀ ∈ dropDatasHosts inventory then keys.map fun _ => [] else keys
  | size _ => keys

section Effects
variable {h₀ : Text}

/-- Rounds that send one statement each, when sending it again changes nothing. -/
theorem foldl_rounds {sql : Sql} (hsql : ∀ keys, keyEffect (keyEffect keys sql) sql =
      keyEffect keys sql) (rounds : List (Text × ℕ)) (keys : Option (List ℕ)) :
    (rounds.flatMap fun round => if round.1 = h₀ then [sql] else []).foldl
        keyEffect keys =
      if h₀ ∈ rounds.map Prod.fst then keyEffect keys sql else keys := by
  induction rounds generalizing keys with
  | nil => simp
  | cons round rounds ih =>
    rw [List.flatMap_cons, List.foldl_append, ih, List.map_cons]
    by_cases h : round.1 = h₀
    · subst h
      simp [hsql]
    · have hmem : h₀ ∈ round.1 :: rounds.map Prod.fst ↔ h₀ ∈ rounds.map Prod.fst := by
        rw [List.mem_cons, or_iff_right (Ne.symm h)]
      rw [if_neg h, List.foldl_nil, if_congr hmem rfl rfl]

theorem foldl_inserts (name : Text) (ks : List ℕ) (keys : Option (List ℕ)) :
    (ks.map (Sql.insertInto name)).foldl keyEffect keys =
      keys.map fun old => old ++ ks := by
  induction ks generalizing keys with
  | nil => cases keys <;> simp
  | cons k ks ih =>
    rw [List.map_cons, List.foldl_cons, ih]
    cases keys <;> simp [keyEffect]

theorem foldl_insertRounds (rounds : List (Text × ℕ)) (name : Text) (ks : ℕ → List ℕ)
    (keys : Option (List ℕ)) :
    (rounds.flatMap fun round =>
        if round.1 = h₀ then (ks round.2).map (Sql.insertInto name) else []).foldl
        keyEffect keys =
      keys.map fun old =>
        old ++ (rounds.filter fun round => round.1 = h₀).flatMap fun round => ks round.2 := by
  induction rounds generalizing keys with
  | nil => cases keys <;> simp
  | cons round rounds ih =>
    rw [List.flatMap_cons, List.foldl_append, ih]
    by_cases h : round.1 = h₀
    · rw [if_pos h, foldl_inserts]
      cases keys <;> simp [h]
    · simp [h]

end Effects

/-- One run, on the keys of a table. -/
theorem foldl_sentTo (run : DataRun) {h₀ d₀ : Text} {j₀ : ℕ} (hd : d₀ ∈ databases)
    (hj : j₀ ∈ seq 1 10) (keys : Option (List ℕ)) :
    (run.sentTo (h₀, d₀, table j₀)).foldl keyEffect keys =
      run.effect h₀ d₀ j₀ keys := by
  rw [DataRun.sentTo, run.events_script hd hj]
  cases run with
  | create inventory =>
    refine (foldl_rounds (fun _ => rfl) _ keys).trans ?_
    simp only [DataRun.rounds, List.zipIdx_map_fst]
    rfl
  | insert alea inventory => exact foldl_insertRounds _ _ (fun r => seq 1 (alea r d₀ j₀ + 1)) keys
  | drop inventory =>
    have htwice : ∀ keys : Option (List ℕ), keyEffect
        (keyEffect keys (.truncate (table j₀))) (.truncate (table j₀)) =
          keyEffect keys (.truncate (table j₀)) := by
      intro keys
      cases keys <;> rfl
    refine (foldl_rounds htwice _ keys).trans ?_
    simp only [DataRun.rounds, List.zipIdx_map_fst]
    rfl
  | size inventory =>
    have hnone : ((DataRun.size inventory).rounds.flatMap fun round =>
        if round.1 = h₀ then (DataRun.size inventory).ops round d₀ j₀ else []) = [] := by
      rw [List.flatMap_eq_nil_iff]
      intro round _
      simp [DataRun.ops]
    rw [hnone]
    rfl

/-- A history of runs, on the keys of a table. -/
theorem foldl_flatMap_sentTo (history : List DataRun) {h₀ d₀ : Text} {j₀ : ℕ}
    (hd : d₀ ∈ databases) (hj : j₀ ∈ seq 1 10) (keys : Option (List ℕ)) :
    (history.flatMap fun run => run.sentTo (h₀, d₀, table j₀)).foldl keyEffect keys =
      history.foldl (fun keys run => run.effect h₀ d₀ j₀ keys) keys := by
  induction history generalizing keys with
  | nil => rfl
  | cons run history ih =>
    rw [List.flatMap_cons, List.foldl_append, foldl_sentTo run hd hj, ih, List.foldl_cons]

/-- **Refinement of the data scripts**: over any history of runs, a table of the scripts is the
table of its keys, which the runs create, extend and empty. -/
theorem look_runAll (S : Server Place σ ρ) (history : List DataRun) {c : σ} {h₀ d₀ : Text}
    {j₀ : ℕ} (hopen : S.Open c (h₀, d₀, table j₀)) (hd : d₀ ∈ databases) (hj : j₀ ∈ seq 1 10)
    {keys : Option (List ℕ)}
    (hc : S.look c (h₀, d₀, table j₀) = keys.map (tableOf (S.store (h₀, d₀, table j₀)))) :
    S.look (runAll S c history) (h₀, d₀, table j₀) =
      (history.foldl (fun keys run => run.effect h₀ d₀ j₀ keys) keys).map
        (tableOf (S.store (h₀, d₀, table j₀))) := by
  rw [look_runAll_eq S hopen, hc, foldl_react, foldl_flatMap_sentTo history hd hj]

/-- Two runs of `insert_datas.sh` that draw 1 everywhere. -/
theorem look_runAll_mariadb :
    (mariadb false).look (runAll (mariadb false) noTables
        [.create oneHost, .insert (fun _ _ _ => 0) oneHost, .insert (fun _ _ _ => 0) oneHost])
      (mariadbHost, "yata1".toList, table 1) =
        some (tableOf (cutOrRefuse false) [1, 1]) := by
  have hd : "yata1".toList ∈ databases := by decide
  have hj : 1 ∈ seq 1 10 := by decide
  have hkeys : [DataRun.create oneHost, .insert (fun _ _ _ => 0) oneHost,
      .insert (fun _ _ _ => 0) oneHost].foldl (fun keys run =>
        run.effect mariadbHost "yata1".toList 1 keys) none = some [1, 1] := by
    have hhosts : createTablesHosts oneHost = [mariadbHost] ∧
        insertDatasHosts oneHost = [mariadbHost] := by decide
    simp [DataRun.effect, insertedKeys, hhosts, seq]
  have hstart : (mariadb false).look noTables (mariadbHost, "yata1".toList, table 1) =
      (none : Option (List ℕ)).map (tableOf (cutOrRefuse false)) := rfl
  have hrun := look_runAll (mariadb false) [.create oneHost, .insert (fun _ _ _ => 0) oneHost,
    .insert (fun _ _ _ => 0) oneHost] (open_mariadb false hd (table 1)) hd hj hstart
  rw [hrun, hkeys, Option.map_some]
  rfl

/-- The row of `insert_datas.sh` does not fit the columns of `create_tables.sh`. -/
theorem tooLong_champs (k : ℕ) : TooLong champs (champsValues k) := by
  refine ⟨(.varchar 255, .text champs2), by simp [champs, champsValues, List.replicate], ?_⟩
  decide

/-- **Strict servers keep no data**: the texts of `insert_datas.sh` are longer than the columns of
`create_tables.sh`, so on a server that refuses such rows a table stays empty over any history. -/
theorem look_runAll_of_strict (S : Server Place σ ρ) (history : List DataRun) {c : σ} {p : Place}
    (hs : S.Strict p) (hc : S.look c p = none ∨ S.look c p = some (.empty champs)) :
    S.look (runAll S c history) p = none ∨
      S.look (runAll S c history) p = some (.empty champs) := by
  by_cases hopen : S.Open c p
  · -- a table of refused rows has none
    have hempty : tableOf (S.store p) = fun _ => Contents.empty champs := by
      funext keys
      simp [tableOf, Contents.empty, hs _ _ (tooLong_champs _)]
    have hstart : ∃ keys : Option (List ℕ), S.look c p = keys.map (tableOf (S.store p)) := by
      rw [hempty]
      rcases hc with hc | hc
      · exact ⟨none, hc⟩
      · exact ⟨some [], hc⟩
    obtain ⟨keys, hkeys⟩ := hstart
    rw [look_runAll_eq S hopen, hkeys, foldl_react, hempty]
    generalize List.foldl keyEffect keys _ = keys'
    cases keys' with
    | none => exact Or.inl rfl
    | some ks => exact Or.inr rfl
  · rwa [look_runAll_of_not_open S hopen]

theorem strict_mariadb (p : Place) : (mariadb true).Strict p := by
  intro columns row h
  simp [mariadb, plainServer, cutOrRefuse, h]

theorem look_runAll_of_strict_mariadb :
    (mariadb true).look (runAll (mariadb true) noTables
        [.create oneHost, .insert (fun _ _ _ => 7) oneHost])
        (mariadbHost, "yata1".toList, table 1) = none ∨
      (mariadb true).look (runAll (mariadb true) noTables
        [.create oneHost, .insert (fun _ _ _ => 7) oneHost])
        (mariadbHost, "yata1".toList, table 1) = some (.empty champs) :=
  look_runAll_of_strict _ _ (strict_mariadb _) (Or.inl rfl)

/-! ## Emptying the tables again -/

/-- The inventory of a run. -/
def DataRun.inventory : DataRun → Text
  | create inventory => inventory
  | insert _ inventory => inventory
  | drop inventory => inventory
  | size inventory => inventory

/-- What a run sends about a place, statement by statement. -/
theorem DataRun.mem_sentTo {run : DataRun} {p : Place} {sql : Sql} :
    sql ∈ run.sentTo p ↔ ∃ round ∈ run.rounds, round.1 = p.1 ∧ p.2.1 ∈ databases ∧
      ∃ j ∈ seq 1 10, p.2.2 = table j ∧ sql ∈ run.ops round p.2.1 j := by
  by_cases hp : p.2.1 ∈ databases ∧ ∃ j ∈ seq 1 10, p.2.2 = table j
  · rcases p with ⟨h₀, d₀, t₀⟩
    obtain ⟨hd, j, hj, htable⟩ := hp
    simp only at hd htable
    subst htable
    rw [sentTo, run.events_script hd hj, List.mem_flatMap]
    constructor
    · intro h
      rcases h with ⟨round, hround, hsql⟩
      by_cases hhost : round.1 = h₀
      · rw [if_pos hhost] at hsql
        exact ⟨round, hround, hhost, hd, j, hj, rfl, hsql⟩
      · simp [hhost] at hsql
    · intro h
      rcases h with ⟨round, hround, hhost, -, j', hj', htable, hsql⟩
      rw [table_inj hj hj' htable]
      exact ⟨round, hround, by rwa [if_pos hhost]⟩
  · have hnil : run.sentTo p = [] := run.events_script_eq_nil fun h => hp h.2
    rw [hnil]
    constructor
    · intro h
      simp at h
    · intro h
      rcases h with ⟨round, -, -, hd, j, hj, htable, -⟩
      exact absurd ⟨hd, j, hj, htable⟩ hp

/-- Where `insert_datas.sh` inserts, `drop_datas.sh` empties. -/
theorem DataRun.sentTo_drop_ne_nil {alea : ℕ → Text → ℕ → Fin 500} {inventory : Text} {p : Place}
    {sql : Sql} (h : sql ∈ (insert alea inventory).sentTo p) : (drop inventory).sentTo p ≠ [] := by
  rw [mem_sentTo] at h
  obtain ⟨round, hround, hhost, hd, j, hj, htable, -⟩ := h
  have hdrop : Sql.truncate (table j) ∈ (drop inventory).sentTo p := by
    rw [mem_sentTo]
    exact ⟨round, hround, hhost, hd, j, hj, htable, by simp [ops]⟩
  exact List.ne_nil_of_mem hdrop

theorem DataRun.eq_create_of_mem {inventory : Text} {p : Place} {cmd : Command Place}
    (h : cmd ∈ ((create inventory).sentTo p).map (Sql.command p)) :
    ∃ q columns, cmd = .create q columns := by
  obtain ⟨sql, hsql, rfl⟩ := List.mem_map.mp h
  obtain ⟨round, -, -, -, j, -, -, hop⟩ := mem_sentTo.mp hsql
  rw [List.mem_singleton.mp hop]
  exact ⟨p, champs, rfl⟩

theorem DataRun.eq_truncate_of_mem {inventory : Text} {p : Place} {cmd : Command Place}
    (h : cmd ∈ ((drop inventory).sentTo p).map (Sql.command p)) : ∃ q, cmd = .truncate q := by
  obtain ⟨sql, hsql, rfl⟩ := List.mem_map.mp h
  obtain ⟨round, -, -, -, j, -, -, hop⟩ := mem_sentTo.mp hsql
  rw [List.mem_singleton.mp hop]
  exact ⟨p, rfl⟩

/-- On one inventory, a table is created only where `create_tables.sh` creates one, and every
other command reaches a table that `drop_datas.sh` empties. -/
theorem DataRun.mem_flatMap_sentTo {history : List DataRun} {inventory : Text} {p : Place}
    {cmd : Command Place} (hinv : ∀ run ∈ history, run.inventory = inventory)
    (h : cmd ∈ (history.flatMap fun run => run.sentTo p).map (Sql.command p)) :
    (∀ q columns, cmd ≠ .create q columns) ∧
        ((drop inventory).sentTo p).map (Sql.command p) ≠ [] ∨
      cmd ∈ ((create inventory).sentTo p).map (Sql.command p) := by
  obtain ⟨sql, hmem, rfl⟩ := List.mem_map.mp h
  obtain ⟨run, hrun, hsql⟩ := List.mem_flatMap.mp hmem
  have hsame := hinv run hrun
  cases run with
  | create inventory' =>
    obtain rfl : inventory' = inventory := hsame
    exact Or.inr (List.mem_map_of_mem hsql)
  | insert alea inventory' =>
    obtain rfl : inventory' = inventory := hsame
    have hdropped := sentTo_drop_ne_nil hsql
    refine Or.inl ⟨?_, by simpa using hdropped⟩
    obtain ⟨round, -, -, -, j, -, -, hop⟩ := mem_sentTo.mp hsql
    obtain ⟨k, -, rfl⟩ := List.mem_map.mp hop
    simp [Sql.command]
  | drop inventory' =>
    obtain rfl : inventory' = inventory := hsame
    have hcmd := List.mem_map_of_mem (f := Sql.command p) hsql
    refine Or.inl ⟨?_, List.ne_nil_of_mem hcmd⟩
    obtain ⟨q, hq⟩ := eq_truncate_of_mem hcmd
    simp [hq]
  | size inventory' =>
    obtain ⟨round, -, -, -, j, -, -, hop⟩ := mem_sentTo.mp hsql
    simp [ops] at hop

/-- **`drop_datas.sh` undoes everything but `create_tables.sh`**: whatever the scripts did in
between on an inventory, emptying leaves every table of every server as if nothing had happened
since the tables were created. -/
theorem look_runAll_drop (S : Server Place σ ρ) (c : σ) {history : List DataRun} {inventory : Text}
    (h : ∀ run ∈ history, run.inventory = inventory) (p : Place) :
    S.look (runAll S c (.create inventory :: history ++ [.drop inventory])) p =
      S.look (runAll S c [.create inventory, .drop inventory]) p := by
  by_cases hopen : S.Open c p
  · rw [look_runAll_eq S hopen, look_runAll_eq S hopen]
    simp only [List.cons_append, List.flatMap_cons, List.flatMap_append, List.flatMap_nil,
      List.append_nil, List.map_append, List.foldl_append]
    exact foldl_create_truncate (fun _ => DataRun.eq_create_of_mem)
      (fun _ => DataRun.eq_truncate_of_mem) (fun _ => DataRun.mem_flatMap_sentTo h) _
  · rw [look_runAll_of_not_open S hopen, look_runAll_of_not_open S hopen]

theorem look_runAll_drop_mariadb :
    (mariadb false).look (runAll (mariadb false) noTables (.create oneHost ::
        [.insert (fun _ _ _ => 3) oneHost, .size oneHost, .create oneHost] ++ [.drop oneHost]))
      (mariadbHost, "yata2".toList, table 10) =
    (mariadb false).look (runAll (mariadb false) noTables [.create oneHost, .drop oneHost])
      (mariadbHost, "yata2".toList, table 10) :=
  look_runAll_drop _ _ (by simp [DataRun.inventory]) _

end KubVagrant
