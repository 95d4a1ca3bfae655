import KubVagrant.Lib.Shell

/-!
# The data scripts

`create_tables.sh`, `insert_datas.sh`, `drop_datas.sh` and `show_size.sh` each pick hosts
out of the inventory with the awk pattern `/192(.[0-9]+)+/` and loop over them.  Three of
them print the matched text, `create_tables.sh` lets awk print the whole record; in every
case the shell splits what was printed into words.

A script is modelled by the iterations of its outer loop: the host, and the statements
sent there.  `sameHosts_iff` says for which inventories the four loops visit the same
hosts.

## Main definitions

* `hostPattern` — the awk pattern.
* `hostsBy` — the hosts a script loops over, given what awk prints for a match.
* `createTables`, `insertDatas`, `dropDatas`, `showSize` — the scripts.
* `visited`, `reached` — the hosts a script loops over, and those it sends statements of a kind to.
* `Bare` — a record with nothing but blanks beside the matched text.
-/

namespace KubVagrant
open Unix

/-! ## The pattern -/

/-- `[0-9]`. -/
def digit : Regex Char := .cls Char.isDigit

/-- `.[0-9]+`: any character, the dot not being escaped, and digits. -/
def group : Regex Char := .seq .any (.plus digit)

/-- `/192(.[0-9]+)+/`. -/
def hostPattern : Regex Char := .seq (.word "192".toList) (.plus group)

/-! ## The scripts -/

/-- What is sent with `mysql -h host -u yata -e sql database`. -/
inductive Sql where
  /-- `create table ... (champs1 int, ...)` with the fixed columns of the script. -/
  | createTable (table : Text)
  /-- `INSERT INTO ... VALUES (k, ...)` with the fixed other values of the script. -/
  | insertInto (table : Text) (k : ℕ)
  /-- `TRUNCATE ...`. -/
  | truncate (table : Text)
  /-- The query for the size of every schema. -/
  | showSize
  deriving DecidableEq, Repr

structure Statement where
  host : Text
  database : Option Text
  sql : Sql
  deriving DecidableEq, Repr

/-- One round of the outer loop of a script. -/
structure Iteration where
  host : Text
  statements : List Statement
  deriving DecidableEq, Repr

/-- `seq a b`. -/
def seq (a b : ℕ) : List ℕ := List.range' a (b + 1 - a)

/-- `databases="yata1 yata2 yata3"`, as the inner loops see it. -/
def databases : List Text := expand "yata1 yata2 yata3".toList

/-- `table${j}`. -/
def table (j : ℕ) : Text := "table".toList ++ Nat.toDigits 10 j

/-- ``hosts=`cat .../hosts | awk 'match($0,/192(.[0-9]+)+/) action'` `` and the words of
`$hosts`. -/
def hostsBy (action : Text → Match Char → Text) (inventory : Text) : List Text :=
  expand (commandSubst (awk (fun record => (hostPattern.search record).map (action record))
    inventory))

/-- The hosts of `create_tables.sh`: no action, so awk prints the record. -/
def createTablesHosts (inventory : Text) : List Text := hostsBy (fun record _ => record) inventory

/-- The hosts of `insert_datas.sh`: `{print substr($0,RSTART,RLENGTH)}`. -/
def insertDatasHosts (inventory : Text) : List Text := hostsBy (fun _ m => m.matched) inventory

/-- The hosts of `drop_datas.sh`: `{print substr($0,RSTART,RLENGTH)}`. -/
def dropDatasHosts (inventory : Text) : List Text := hostsBy (fun _ m => m.matched) inventory

/-- The hosts of `show_size.sh`: `{print substr($0,RSTART,RLENGTH)}`. -/
def showSizeHosts (inventory : Text) : List Text := hostsBy (fun _ m => m.matched) inventory

/-- `create_tables.sh`. -/
def createTables (inventory : Text) : List Iteration :=
  (createTablesHosts inventory).map fun host =>
    ⟨host, databases.flatMap fun database => (seq 1 10).map fun j =>
      ⟨host, some database, .createTable (table j)⟩⟩

/-- `insert_datas.sh`.  `alea` is the number `shuf -i1-500 -n1` gives for the table `j` of a
database in a round of the outer loop, less one. -/
def insertDatas (alea : ℕ → Text → ℕ → Fin 500) (inventory : Text) : List Iteration :=
  (insertDatasHosts inventory).mapIdx fun round host =>
    ⟨host, databases.flatMap fun database => (seq 1 10).flatMap fun j =>
      (seq 1 (alea round database j + 1)).map fun k =>
        ⟨host, some database, .insertInto (table j) k⟩⟩

/-- `drop_datas.sh`. -/
def dropDatas (inventory : Text) : List Iteration :=
  (dropDatasHosts inventory).map fun host =>
    ⟨host, databases.flatMap fun database => (seq 1 10).map fun j =>
      ⟨host, some database, .truncate (table j)⟩⟩

/-- `show_size.sh`. -/
def showSize (inventory : Text) : List Iteration :=
  (showSizeHosts inventory).map fun host => ⟨host, [⟨host, none, .showSize⟩]⟩

/-- The hosts a script visits. -/
def visited (script : List Iteration) : List Text := script.map Iteration.host

@[simp] theorem visited_createTables (inventory : Text) :
    visited (createTables inventory) = createTablesHosts inventory := by
  simp [visited, createTables, Function.comp_def]

@[simp] theorem visited_insertDatas (alea : ℕ → Text → ℕ → Fin 500) (inventory : Text) :
    visited (insertDatas alea inventory) = insertDatasHosts inventory := by
  rw [visited, insertDatas]
  exact List.ext_getElem (by simp) fun i h₁ h₂ => by simp

@[simp] theorem visited_dropDatas (inventory : Text) :
    visited (dropDatas inventory) = dropDatasHosts inventory := by
  simp [visited, dropDatas, Function.comp_def]

@[simp] theorem visited_showSize (inventory : Text) :
    visited (showSize inventory) = showSizeHosts inventory := by
  simp [visited, showSize, Function.comp_def]

/-- A `TRUNCATE`. -/
def Sql.isTruncate : Sql → Bool
  | truncate _ => true
  | _ => false

/-- An `INSERT`. -/
def Sql.isInsertInto : Sql → Bool
  | insertInto _ _ => true
  | _ => false

/-- The hosts to which the rounds of a script send statements of a kind, round by round. -/
def reached (kind : Sql → Bool) (script : List Iteration) : List Text :=
  script.flatMap fun round =>
    ((round.statements.filter fun s => kind s.sql).map Statement.host).dedup

/-- Every round sends statements of a kind, and all its statements go to its own host. -/
def Sends (kind : Sql → Bool) (script : List Iteration) : Prop :=
  ∀ round ∈ script, (∃ s ∈ round.statements, kind s.sql = true) ∧
    ∀ s ∈ round.statements, s.host = round.host

/-- Where the rounds send statements of a kind, they reach the hosts the script visits. -/
theorem reached_of_sends {kind : Sql → Bool} {script : List Iteration} (h : Sends kind script) :
    reached kind script = visited script := by
  have hround : ∀ round ∈ script,
      ((round.statements.filter fun s => kind s.sql).map Statement.host).dedup =
        [round.host] := by
    intro round hmem
    obtain ⟨⟨s, hs, hkind⟩, hall⟩ := h round hmem
    have hhosts : ((round.statements.filter fun s => kind s.sql).map Statement.host) =
        List.replicate (round.statements.filter fun s => kind s.sql).length round.host := by
      rw [List.eq_replicate_iff, List.length_map]
      refine ⟨rfl, fun host hhost => ?_⟩
      obtain ⟨s', hs', rfl⟩ := List.mem_map.mp hhost
      exact hall s' (List.mem_filter.mp hs').1
    have hne : (round.statements.filter fun s => kind s.sql).length ≠ 0 := by
      rw [Ne, List.length_eq_zero_iff]
      exact List.ne_nil_of_mem (List.mem_filter.mpr ⟨hs, hkind⟩)
    rw [hhosts, List.replicate_dedup hne]
  rw [reached, List.flatMap_congr hround, visited, List.map_eq_flatMap]

theorem databases_eq : databases = ["yata1".toList, "yata2".toList, "yata3".toList] := by decide

theorem sends_dropDatas (inventory : Text) : Sends Sql.isTruncate (dropDatas inventory) := by
  intro round hround
  obtain ⟨host, -, rfl⟩ := List.mem_map.mp hround
  constructor
  · refine ⟨⟨host, some "yata1".toList, .truncate (table 1)⟩, ?_, rfl⟩
    simp only [databases_eq, List.flatMap_cons, List.mem_append]
    exact Or.inl (List.mem_map.mpr ⟨1, by decide, rfl⟩)
  · intro s hs
    obtain ⟨database, -, hs⟩ := List.mem_flatMap.mp hs
    obtain ⟨j, -, rfl⟩ := List.mem_map.mp hs
    rfl

theorem sends_insertDatas (alea : ℕ → Text → ℕ → Fin 500) (inventory : Text) :
    Sends Sql.isInsertInto (insertDatas alea inventory) := by
  intro round hround
  obtain ⟨i, hi, rfl⟩ := List.mem_mapIdx.mp hround
  constructor
  · refine ⟨⟨(insertDatasHosts inventory)[i], some "yata1".toList, .insertInto (table 1) 1⟩, ?_,
      rfl⟩
    simp only [databases_eq, List.flatMap_cons, List.mem_append]
    -- `shuf` gives at least 1
    have hone : 1 ∈ seq 1 (alea i "yata1".toList 1 + 1) := by simp [seq]
    exact Or.inl (List.mem_flatMap.mpr ⟨1, by decide, List.mem_map.mpr ⟨1, hone, rfl⟩⟩)
  · intro s hs
    obtain ⟨database, -, hs⟩ := List.mem_flatMap.mp hs
    obtain ⟨j, -, hs⟩ := List.mem_flatMap.mp hs
    obtain ⟨k, -, rfl⟩ := List.mem_map.mp hs
    rfl

/-! ## The hosts, record by record -/

/-- The words one record contributes to a loop. -/
def recordHosts (action : Text → Match Char → Text) (record : Text) : List Text :=
  match hostPattern.search record with
  | some m => expand (action record m)
  | none => []

theorem hostsBy_eq (action : Text → Match Char → Text) (inventory : Text) :
    hostsBy action inventory = (lines '\n' inventory).flatMap (recordHosts action) := by
  rw [hostsBy, expand_awk]
  refine List.flatMap_congr fun record _ => ?_
  rw [recordHosts]
  cases hostPattern.search record <;> rfl

theorem recordHosts_of_some {action : Text → Match Char → Text} {record : Text} {m : Match Char}
    (h : hostPattern.search record = some m) :
    recordHosts action record = expand (action record m) := by rw [recordHosts, h]

theorem recordHosts_of_none {action : Text → Match Char → Text} {record : Text}
    (h : hostPattern.search record = none) : recordHosts action record = [] := by
  rw [recordHosts, h]

/-- A match starts with the digit 1. -/
theorem exists_cons_of_mem_hostPattern {x : Text} (h : x ∈ hostPattern.lang) :
    ∃ y, x = '1' :: y := by
  obtain ⟨p, hp, t, -, rfl⟩ := (Regex.mem_lang_seq _ _ _).mp h
  rw [Regex.mem_lang_word] at hp
  subst hp
  exact ⟨['9', '2'] ++ t, rfl⟩

/-! ## When the scripts agree -/

/-- The record is a text of the pattern with nothing but blanks around it. -/
def Bare (record : Text) : Prop :=
  ∃ p x q, record = p ++ x ++ q ∧ x ∈ hostPattern.lang ∧
    (∀ c ∈ p, isBlank c = true) ∧ ∀ c ∈ q, isBlank c = true

/-- Leading blanks are not part of the match. -/
theorem before_eq_of_blank {record p x q : Text} {m : Match Char}
    (hm : Regex.LeftmostLongest hostPattern record m)
    (hcut : Regex.IsMatch hostPattern record ⟨p, x, q⟩) (hp : ∀ c ∈ p, isBlank c = true) :
    m.before = p := by
  obtain ⟨e, hbefore, hrest⟩ := hm.exists_before hcut
  obtain ⟨y, hy⟩ := exists_cons_of_mem_hostPattern hm.isMatch.2
  cases e with
  | nil => rw [hbefore, List.append_nil]
  | cons c e =>
    rw [hy, List.cons_append, List.cons_append, List.cons.injEq] at hrest
    have hblank := hp '1' (by rw [hbefore, hrest.1]; simp)
    exact absurd hblank (by decide)

/-- What awk matches in a bare record has only blanks around it. -/
theorem bare_iff_of_search {record : Text} {m : Match Char}
    (h : hostPattern.search record = some m) :
    Bare record ↔ (∀ c ∈ m.before, isBlank c = true) ∧ ∀ c ∈ m.after, isBlank c = true := by
  have hm := Regex.search_sound h
  constructor
  · intro hbare
    rcases hbare with ⟨p, x, q, hrecord, hx, hp, hq⟩
    have hcut : Regex.IsMatch hostPattern record ⟨p, x, q⟩ := ⟨hrecord.symm, hx⟩
    have hbefore : m.before = p := before_eq_of_blank hm hcut hp
    rw [← hbefore] at hcut hp
    obtain ⟨e, -, rfl⟩ := hm.exists_extension hcut
    exact ⟨hp, fun c hc => hq c (by simp [hc])⟩
  · intro hblank
    exact ⟨m.before, m.matched, m.after, hm.isMatch.1.symm, hm.isMatch.2, hblank.1, hblank.2⟩

/-- A record contributes the same words either way if and only if it is bare. -/
theorem expand_record_eq_iff {record : Text} {m : Match Char}
    (h : hostPattern.search record = some m) :
    expand record = expand m.matched ↔ Bare record := by
  rw [bare_iff_of_search h]
  have hwhole := (Regex.search_sound h).isMatch.1
  rw [← wordsBy_append_eq_iff m.before m.matched m.after, ← Match.whole, hwhole]
  rfl

theorem weight_expand_le {record : Text} {m : Match Char}
    (h : hostPattern.search record = some m) :
    (expand m.matched).flatten.length ≤ (expand record).flatten.length := by
  have hwhole := (Regex.search_sound h).isMatch.1
  rw [← hwhole, Match.whole]
  simp only [expand, length_flatten_wordsBy, List.countP_append]
  omega

/-- The words of a record weigh more than those of the match unless the record is bare. -/
theorem bare_of_weight_eq {record : Text} {m : Match Char}
    (h : hostPattern.search record = some m)
    (hw : (expand record).flatten.length = (expand m.matched).flatten.length) : Bare record := by
  rw [bare_iff_of_search h]
  have hwhole := (Regex.search_sound h).isMatch.1
  rw [← hwhole, Match.whole] at hw
  simp only [expand, length_flatten_wordsBy, List.countP_append] at hw
  have hb : m.before.countP (fun c => !isBlank c) = 0 := by omega
  have ha : m.after.countP (fun c => !isBlank c) = 0 := by omega
  rw [List.countP_eq_zero] at hb ha
  exact ⟨fun c hc => by simpa using hb c hc, fun c hc => by simpa using ha c hc⟩

/-- The loops of `create_tables.sh` and of a script that prints the match visit the same
hosts if and only if every record the pattern finds is bare. -/
theorem hostsBy_record_eq_iff (inventory : Text) :
    hostsBy (fun record _ => record) inventory = hostsBy (fun _ m => m.matched) inventory ↔
      ∀ record ∈ lines '\n' inventory, hostPattern.occurs record = true → Bare record := by
  rw [hostsBy_eq, hostsBy_eq, flatMap_eq_flatMap_iff (fun ws => ws.flatten.length)]
  · refine forall₂_congr fun record _ => ?_
    cases h : hostPattern.search record with
    | none => simp [recordHosts_of_none h, Regex.occurs, h]
    | some m =>
      rw [recordHosts_of_some h, recordHosts_of_some h, expand_record_eq_iff h]
      simp [Regex.occurs, h]
  · intro x y
    rw [List.flatten_append, List.length_append]
  · intro record _
    cases h : hostPattern.search record with
    | none => simp [recordHosts_of_none h]
    | some m =>
      rw [recordHosts_of_some h, recordHosts_of_some h]
      exact weight_expand_le h
  · intro record _ hw
    cases h : hostPattern.search record with
    | none => simp [recordHosts_of_none h]
    | some m =>
      rw [recordHosts_of_some h, recordHosts_of_some h] at hw ⊢
      exact (expand_record_eq_iff h).mpr (bare_of_weight_eq h hw)

/-- The four scripts visit the same hosts in the same order. -/
def SameHosts (alea : ℕ → Text → ℕ → Fin 500) (inventory : Text) : Prop :=
  visited (createTables inventory) = visited (insertDatas alea inventory) ∧
    visited (createTables inventory) = visited (dropDatas inventory) ∧
      visited (createTables inventory) = visited (showSize inventory)

/-- **Agreement of the data scripts, exactly**: every record in which the pattern occurs is
bare. -/
theorem sameHosts_iff (alea : ℕ → Text → ℕ → Fin 500) (inventory : Text) :
    SameHosts alea inventory ↔
      ∀ record ∈ lines '\n' inventory, hostPattern.occurs record = true → Bare record := by
  rw [← hostsBy_record_eq_iff, SameHosts, visited_createTables, visited_insertDatas,
    visited_dropDatas, visited_showSize]
  exact ⟨And.left, fun h => ⟨h, h, h⟩⟩

/-- A host variable is a host of its own for `create_tables.sh`. -/
theorem sameHosts_fails :
    ¬ SameHosts (fun _ _ _ => 0) "[mariadb]\n192.168.236.130 ansible_user=bob\n".toList := by
  intro h
  have hcreate : visited (createTables "[mariadb]\n192.168.236.130 ansible_user=bob\n".toList) =
      ["192.168.236.130".toList, "ansible_user=bob".toList] := by
    rw [visited_createTables]; decide
  have hdrop : visited (dropDatas "[mariadb]\n192.168.236.130 ansible_user=bob\n".toList) =
      ["192.168.236.130".toList] := by
    rw [visited_dropDatas]; decide
  have heq := h.2.1
  rw [hcreate, hdrop] at heq
  exact absurd heq (by decide)

end KubVagrant
