import KubVagrant.Lib.Python
import Mathlib.Data.List.Find

/-!
# From properties to an inventory

`inv2prop.py` reads a file of `key=value` lines and prints an Ansible inventory with the
groups `all`, `mysql` and `apache`.  `inv2prop` is the script, up to the formatting of the
JSON: the loop that loads the properties, with the exception its unpacking may raise, and
the groups with their lists of hosts, which are objects that `+=` extends in place.

`expected` says what the inventory of a file should be, line by line and without a loop.
`translates_iff` says for which files the script prints it.

## Main definitions

* `loadProperties`, `translate`, `inv2prop` — the script.
* `Result` — the structure the script fills in, with its list objects.
* `property`, `expected` — the value of a key in a file, and the inventory of a file.
-/

namespace KubVagrant
open Unix Python

/-! ## The script -/

/-- One round of the loop that loads the properties. -/
def loadLine (properties : Dict) (line : Text) : Except ValueError Dict := do
  let (k, v) ← unpack2 (line.splitOn '=')
  return properties.set (strip k) (strip v)

def loadProperties (lines : List Text) : Except ValueError Dict := lines.foldlM loadLine Dict.empty

inductive GroupName where
  | all
  | apache
  | mysql
  deriving DecidableEq, Repr

/-- A group: a reference to its list of hosts, and its variables. -/
structure Group where
  hosts : ℕ
  vars : Dict

/-- `result`.  No two groups share their list of hosts. -/
structure Result where
  groups : GroupName → Group
  hostvars : Dict
  heap : Heap Text
  valid : ∀ g, heap.Valid (groups g).hosts
  distinct : Function.Injective fun g => (groups g).hosts

/-- What `json.dumps(result)` shows: the groups with the contents of their lists. -/
@[ext]
structure Inventory where
  hosts : GroupName → List Text
  vars : GroupName → Dict
  hostvars : Dict

namespace Result

def hosts (r : Result) (g : GroupName) : List Text := r.heap.get (r.groups g).hosts

def vars (r : Result) (g : GroupName) : Dict := (r.groups g).vars

def dump (r : Result) : Inventory := ⟨r.hosts, r.vars, r.hostvars⟩

/-- The default structure, with three empty lists. -/
def default : Result where
  groups
    | .all => ⟨0, Dict.empty⟩
    | .apache => ⟨1, Dict.empty⟩
    | .mysql => ⟨2, Dict.empty⟩
  hostvars := Dict.empty
  heap := ⟨[[], [], []]⟩
  valid g := by cases g <;> simp [Heap.Valid]
  distinct := by
    intro g g' h
    cases g <;> cases g' <;> simp at h ⊢

/-- `result[g]['hosts'] = [...]`. -/
def setHosts (r : Result) (g : GroupName) (xs : List Text) : Result where
  groups := Function.update r.groups g { r.groups g with hosts := (r.heap.new xs).1 }
  hostvars := r.hostvars
  heap := (r.heap.new xs).2
  valid g' := by
    by_cases h : g' = g
    · subst h
      simpa using r.heap.valid_new_self xs
    · simpa [h] using (r.valid g').new xs
  distinct := by
    intro g₁ g₂ h
    by_cases h₁ : g₁ = g <;> by_cases h₂ : g₂ = g
    · rw [h₁, h₂]
    · simp only [h₁, Function.update_self, Function.update_of_ne h₂] at h
      exact absurd h.symm ((r.valid g₂).ne_new xs)
    · simp only [h₂, Function.update_self, Function.update_of_ne h₁] at h
      exact absurd h ((r.valid g₁).ne_new xs)
    · simp only [Function.update_of_ne h₁, Function.update_of_ne h₂] at h
      exact r.distinct h

/-- `result['all']['hosts'] += result[g]['hosts']`. -/
def extendAll (r : Result) (g : GroupName) : Result where
  groups := r.groups
  hostvars := r.hostvars
  heap := r.heap.extend (r.groups .all).hosts (r.groups g).hosts
  valid g' := (r.valid g').extend _ _
  distinct := r.distinct

/-- `result[g]['vars'][name] = value`. -/
def setVar (r : Result) (g : GroupName) (name value : Text) : Result where
  groups := Function.update r.groups g { r.groups g with vars := (r.groups g).vars.set name value }
  hostvars := r.hostvars
  heap := r.heap
  valid g' := by
    by_cases h : g' = g
    · subst h
      simpa using r.valid g'
    · simpa [h] using r.valid g'
  distinct := by
    have hsame : ∀ g', (Function.update r.groups g
        { r.groups g with vars := (r.groups g).vars.set name value } g').hosts =
          (r.groups g').hosts := by
      intro g'
      by_cases h : g' = g
      · subst h; simp
      · simp [h]
    intro g₁ g₂ h
    simp only [hsame] at h
    exact r.distinct h

end Result

/-- `if properties.get(key):` and the two assignments under it. -/
def loadHosts (g : GroupName) (key : Text) (properties : Dict) (r : Result) : Result :=
  if properties.truthy key = [] then r
  else (r.setHosts g (((properties.truthy key).splitOn ',').map strip)).extendAll g

/-- `ansible_var_name`. -/
def ansibleVarName (var : Text) : Text := (strip var).map fun c => if c = '.' then '_' else c

/-- One round of the loop over the variables of mysql. -/
def loadVar (properties : Dict) (r : Result) (var : Text) : Result :=
  if properties.truthy var = [] then r
  else r.setVar .mysql (ansibleVarName var) (strip (properties.truthy var))

/-- The script after the properties are loaded. -/
def translate (properties : Dict) : Result :=
  let result := loadHosts .mysql "db.host".toList properties Result.default
  let result := loadHosts .apache "apache.hosts".toList properties result
  ["db.user".toList, "db.password".toList].foldl (loadVar properties) result

/-- `inv2prop.py` on the contents of the properties file. -/
def inv2prop (file : Text) : Except ValueError Inventory := do
  let properties ← loadProperties (records '\n' file)
  return (translate properties).dump

/-! ## What the inventory of a file should be -/

/-- The trimmed text before the first `=`. -/
def keyOf (line : Text) : Text := strip (line.takeWhile fun c => c ≠ '=')

/-- The trimmed text after the first `=`. -/
def valueOf (line : Text) : Text := strip ((line.dropWhile fun c => c ≠ '=').drop 1)

/-- A `key=value` line with a non-empty key that is not a comment. -/
def IsEntry (line : Text) : Prop :=
  '=' ∈ line ∧ line.head? ≠ some '=' ∧ line.head? ≠ some '#'

instance (line : Text) : Decidable (IsEntry line) := inferInstanceAs (Decidable (_ ∧ _ ∧ _))

/-- Blank lines, comments and entries. -/
def IsProperties (file : Text) : Prop :=
  ∀ line ∈ lines '\n' file,
    line.all isSpace = true ∨ line.head? = some '#' ∨ IsEntry line

instance (file : Text) : Decidable (IsProperties file) :=
  inferInstanceAs (Decidable (∀ line ∈ _, _))

/-- The value of the last entry for the key; empty if there is none. -/
def property (file key : Text) : Text :=
  ((((lines '\n' file).filter fun line => IsEntry line).reverse.find?
    fun line => keyOf line = key).map valueOf).getD []

/-- The trimmed non-empty elements of a comma-separated value. -/
def hostsOf (value : Text) : List Text := ((value.splitOn ',').map strip).filter fun x => x ≠ []

/-- The variables of mysql: those of `db.user` and `db.password` that have a value. -/
def expectedVars (file : Text) : Dict := fun name =>
  if name = "db_password".toList ∧ property file "db.password".toList ≠ [] then
    some (property file "db.password".toList)
  else if name = "db_user".toList ∧ property file "db.user".toList ≠ [] then
    some (property file "db.user".toList)
  else none

/-- The inventory of a properties file. -/
def expected (file : Text) : Inventory where
  hosts
    | .mysql => hostsOf (property file "db.host".toList)
    | .apache => hostsOf (property file "apache.hosts".toList)
    | .all =>
      hostsOf (property file "db.host".toList) ++ hostsOf (property file "apache.hosts".toList)
  vars
    | .mysql => expectedVars file
    | _ => Dict.empty
  hostvars := Dict.empty

/-- The script prints the inventory of the file. -/
def Translates (file : Text) : Prop := inv2prop file = .ok (expected file)

/-! ## Loading the properties -/

/-- A line with exactly one `=`, cut there. -/
theorem exists_cut {line : Text} (h : line.count '=' = 1) :
    ∃ k v, line = k ++ '=' :: v ∧ '=' ∉ k ∧ '=' ∉ v := by
  have hmem : '=' ∈ line := List.count_pos_iff.mp (by omega)
  obtain ⟨k, v, rfl, hk⟩ := List.eq_append_cons_of_mem hmem
  rw [List.count_append, List.count_cons_self, List.count_eq_zero.mpr hk] at h
  exact ⟨k, v, rfl, hk, List.count_eq_zero.mp (by omega)⟩

theorem keyOf_cut {k : Text} (hk : '=' ∉ k) (v : Text) : keyOf (k ++ '=' :: v) = strip k := by
  have hall : ∀ c ∈ k, decide (c ≠ '=') = true := by
    intro c hc
    simpa using fun heq : c = '=' => hk (heq ▸ hc)
  rw [keyOf, List.takeWhile_append_of_pos hall]
  simp

theorem valueOf_cut {k : Text} (hk : '=' ∉ k) (v : Text) : valueOf (k ++ '=' :: v) = strip v := by
  have hall : ∀ c ∈ k, decide (c ≠ '=') = true := by
    intro c hc
    simpa using fun heq : c = '=' => hk (heq ▸ hc)
  rw [valueOf, List.dropWhile_append_of_pos hall]
  simp

/-- A record is its line, with a newline or without. -/
theorem record_cases (r : Text) : r = chomp '\n' r ∨ r = chomp '\n' r ++ ['\n'] := by
  rw [chomp]
  split
  · rename_i hlast
    exact Or.inr (List.dropLast_append_getLast? _ hlast).symm
  · exact Or.inl rfl

theorem count_chomp (r : Text) : (chomp '\n' r).count '=' = r.count '=' := by
  rcases record_cases r with h | h
  · rw [← h]
  · conv_rhs => rw [h]
    simp

/-- The step of the loop on a line with exactly one `=`. -/
theorem loadLine_of_count {r : Text} (h : (chomp '\n' r).count '=' = 1) (d : Dict) :
    loadLine d r = .ok (d.set (keyOf (chomp '\n' r)) (valueOf (chomp '\n' r))) := by
  obtain ⟨k, v, hcut, hk, hv⟩ := exists_cut h
  rw [hcut, keyOf_cut hk, valueOf_cut hk]
  rcases record_cases r with hr | hr
  · rw [loadLine, hr, hcut, unpack2_splitOn hk hv]
    rfl
  · have hv' : '=' ∉ v ++ ['\n'] := by simp [hv]
    rw [loadLine, hr, hcut, List.append_assoc, List.cons_append, unpack2_splitOn hk hv',
      ← strip_newline v]
    rfl

/-- The step of the loop on any other line. -/
theorem loadLine_error {r : Text} (h : (chomp '\n' r).count '=' ≠ 1) (d : Dict) :
    ∃ e, loadLine d r = .error e := by
  rw [count_chomp] at h
  obtain ⟨e, he⟩ := unpack2_splitOn_error h
  exact ⟨e, by rw [loadLine, he]; rfl⟩

/-- The dictionary the lines of a file make. -/
def dictOf (lines : List Text) (d : Dict) : Dict :=
  lines.foldl (fun d line => d.set (keyOf line) (valueOf line)) d

theorem foldlM_loadLine {rs : List Text} (h : ∀ r ∈ rs, (chomp '\n' r).count '=' = 1) (d : Dict) :
    rs.foldlM loadLine d = .ok (dictOf (rs.map (chomp '\n')) d) := by
  induction rs generalizing d with
  | nil => rfl
  | cons r rs ih =>
    rw [List.foldlM_cons, loadLine_of_count (h r (by simp))]
    exact ih (fun r' hr' => h r' (by simp [hr'])) _

theorem foldlM_loadLine_error {rs : List Text} (h : ∃ r ∈ rs, (chomp '\n' r).count '=' ≠ 1)
    (d : Dict) : ∃ e, rs.foldlM loadLine d = .error e := by
  induction rs generalizing d with
  | nil => simp at h
  | cons r rs ih =>
    rw [List.foldlM_cons]
    by_cases hr : (chomp '\n' r).count '=' = 1
    · rw [loadLine_of_count hr]
      refine ih ?_ _
      obtain ⟨r', hr', hne⟩ := h
      rcases List.mem_cons.mp hr' with rfl | hr'
      · exact absurd hr hne
      · exact ⟨r', hr', hne⟩
    · obtain ⟨e, he⟩ := loadLine_error hr d
      exact ⟨e, by rw [he]; rfl⟩

/-- The loop succeeds on the files whose lines all have exactly one `=`. -/
theorem loadProperties_of_count {file : Text} (h : ∀ line ∈ lines '\n' file, line.count '=' = 1) :
    loadProperties (records '\n' file) = .ok (dictOf (lines '\n' file) Dict.empty) :=
  foldlM_loadLine (fun _ hr => h _ (List.mem_map_of_mem hr)) Dict.empty

/-- The last line with the key decides. -/
theorem dictOf_apply (ls : List Text) (d : Dict) (key : Text) :
    dictOf ls d key =
      ((ls.reverse.find? fun line => keyOf line = key).map valueOf).or (d key) := by
  induction ls using List.reverseRecOn with
  | nil => rfl
  | append_singleton ls line ih =>
    have hstep : dictOf (ls ++ [line]) d = (dictOf ls d).set (keyOf line) (valueOf line) := by
      simp [dictOf]
    rw [hstep, List.reverse_append, List.reverse_singleton, List.singleton_append]
    by_cases hkey : keyOf line = key
    · subst hkey
      simp
    · rw [Dict.set_of_ne _ (Ne.symm hkey), ih, List.find?_cons_of_neg (by simpa using hkey)]

/-- The key of a comment is no key the script asks for, and neither is an empty one. -/
theorem isEntry_of_keyOf {line key : Text} (hcount : line.count '=' = 1) (hne : key ≠ [])
    (hhash : key.head? ≠ some '#') (hkey : keyOf line = key) : IsEntry line := by
  have hmem : '=' ∈ line := List.count_pos_iff.mp (by omega)
  refine ⟨hmem, fun h => ?_, fun h => ?_⟩
  · obtain ⟨t, rfl⟩ := List.head?_eq_some_iff.mp h
    exact hne (by rw [← hkey]; rfl)
  · obtain ⟨t, rfl⟩ := List.head?_eq_some_iff.mp h
    have hkeep : ('#' :: t).takeWhile (fun c => c ≠ '=') = '#' :: t.takeWhile fun c => c ≠ '=' :=
      List.takeWhile_cons_of_pos (by decide)
    rw [keyOf, hkeep] at hkey
    exact hhash (by rw [← hkey]; exact head?_stripBy (by decide) _)

/-- What the script gets for a key is the value of the key in the file. -/
theorem truthy_dictOf {file : Text} (h : ∀ line ∈ lines '\n' file, line.count '=' = 1)
    {key : Text} (hne : key ≠ []) (hhash : key.head? ≠ some '#') :
    (dictOf (lines '\n' file) Dict.empty).truthy key = property file key := by
  have hfind : (((lines '\n' file).filter fun line => IsEntry line).reverse.find?
      fun line => keyOf line = key) =
        (lines '\n' file).reverse.find? fun line => keyOf line = key := by
    rw [← List.filter_reverse, List.find?_filter]
    refine List.find?_congr fun line hline => ?_
    have hentry := isEntry_of_keyOf (h line (List.mem_reverse.mp hline)) hne hhash
    by_cases hkey : keyOf line = key
    · simp [hkey, hentry hkey]
    · simp [hkey]
  rw [Dict.truthy, dictOf_apply, property, hfind, Dict.empty, Option.or_none]

theorem strip_property (file key : Text) : strip (property file key) = property file key := by
  rw [property]
  cases ((lines '\n' file).filter fun line => IsEntry line).reverse.find?
    fun line => keyOf line = key with
  | none => rfl
  | some line => exact strip_strip _

/-! ## The groups -/

namespace Result

@[simp] theorem hosts_setHosts_self (r : Result) (g : GroupName) (xs : List Text) :
    (r.setHosts g xs).hosts g = xs := by
  simp [hosts, setHosts]

theorem hosts_setHosts_of_ne (r : Result) {g g' : GroupName} (h : g' ≠ g) (xs : List Text) :
    (r.setHosts g xs).hosts g' = r.hosts g' := by
  simp only [hosts, setHosts, Function.update_of_ne h]
  exact Heap.get_new_of_valid (r.valid g') xs

@[simp] theorem vars_setHosts (r : Result) (g : GroupName) (xs : List Text) :
    (r.setHosts g xs).vars = r.vars := by
  funext g'
  by_cases h : g' = g
  · subst h; simp [vars, setHosts]
  · simp [vars, setHosts, h]

theorem hosts_extendAll_all (r : Result) (g : GroupName) :
    (r.extendAll g).hosts .all = r.hosts .all ++ r.hosts g :=
  Heap.get_extend_self (r.valid .all) _

/-- The extension in place reaches no other group: they have lists of their own. -/
theorem hosts_extendAll_of_ne (r : Result) {g' : GroupName} (h : g' ≠ .all) (g : GroupName) :
    (r.extendAll g).hosts g' = r.hosts g' :=
  Heap.get_extend_of_ne _ (r.distinct.ne h) _

@[simp] theorem vars_extendAll (r : Result) (g : GroupName) : (r.extendAll g).vars = r.vars := rfl

@[simp] theorem hosts_setVar (r : Result) (g : GroupName) (name value : Text) :
    (r.setVar g name value).hosts = r.hosts := by
  funext g'
  by_cases h : g' = g
  · subst h; simp [hosts, setVar]
  · simp [hosts, setVar, h]

theorem vars_setVar_self (r : Result) (g : GroupName) (name value : Text) :
    (r.setVar g name value).vars g = (r.vars g).set name value := by
  simp [vars, setVar]

theorem vars_setVar_of_ne (r : Result) {g g' : GroupName} (h : g' ≠ g) (name value : Text) :
    (r.setVar g name value).vars g' = r.vars g' := by
  simp [vars, setVar, h]

end Result

/-- The hosts the script makes of a value: an empty one counts as missing. -/
def elements (value : Text) : List Text :=
  if value = [] then [] else (value.splitOn ',').map strip

/-- The hosts are right if and only if no element is blank. -/
theorem elements_eq_hostsOf_iff (value : Text) :
    elements value = hostsOf value ↔
      (value ≠ [] → ∀ x ∈ value.splitOn ',', strip x ≠ []) := by
  by_cases h : value = []
  · subst h
    simpa using (by decide : elements [] = hostsOf [])
  · rw [elements, if_neg h, hostsOf, eq_comm, List.filter_eq_self]
    simp [h]

section
variable (properties : Dict) (r : Result) {g : GroupName} (key : Text)

theorem hosts_loadHosts_self (hg : g ≠ .all) (hempty : r.hosts g = []) :
    (loadHosts g key properties r).hosts g = elements (properties.truthy key) := by
  rw [loadHosts, elements]
  split
  · exact hempty
  · rw [Result.hosts_extendAll_of_ne _ hg, Result.hosts_setHosts_self]

theorem hosts_loadHosts_all (hg : g ≠ .all) :
    (loadHosts g key properties r).hosts .all =
      r.hosts .all ++ elements (properties.truthy key) := by
  rw [loadHosts, elements]
  split
  · rw [List.append_nil]
  · rw [Result.hosts_extendAll_all, Result.hosts_setHosts_self,
      Result.hosts_setHosts_of_ne _ hg.symm]

theorem hosts_loadHosts_of_ne {g' : GroupName} (hall : g' ≠ .all) (hg : g' ≠ g) :
    (loadHosts g key properties r).hosts g' = r.hosts g' := by
  rw [loadHosts]
  split
  · rfl
  · rw [Result.hosts_extendAll_of_ne _ hall, Result.hosts_setHosts_of_ne _ hg]

theorem vars_loadHosts : (loadHosts g key properties r).vars = r.vars := by
  rw [loadHosts]
  split
  · rfl
  · rw [Result.vars_extendAll, Result.vars_setHosts]

theorem hostvars_loadHosts : (loadHosts g key properties r).hostvars = r.hostvars := by
  rw [loadHosts]
  split <;> rfl

theorem hosts_loadVar : (loadVar properties r key).hosts = r.hosts := by
  rw [loadVar]
  split
  · rfl
  · rw [Result.hosts_setVar]

theorem vars_loadVar_of_ne (hg : g ≠ .mysql) : (loadVar properties r key).vars g = r.vars g := by
  rw [loadVar]
  split
  · rfl
  · rw [Result.vars_setVar_of_ne _ hg]

theorem vars_loadVar (name : Text) :
    (loadVar properties r key).vars .mysql name =
      if name = ansibleVarName key ∧ properties.truthy key ≠ [] then
        some (strip (properties.truthy key))
      else r.vars .mysql name := by
  rw [loadVar]
  split
  · rename_i h
    simp [h]
  · rename_i h
    rw [Result.vars_setVar_self]
    by_cases hname : name = ansibleVarName key
    · simp [hname, h]
    · rw [Dict.set_of_ne _ hname, if_neg (fun hboth => hname hboth.1)]

theorem hostvars_loadVar : (loadVar properties r key).hostvars = r.hostvars := by
  rw [loadVar]
  split <;> rfl

end

/-- The lists of hosts the script ends with. -/
theorem hosts_translate (properties : Dict) :
    (translate properties).hosts .mysql = elements (properties.truthy "db.host".toList) ∧
      (translate properties).hosts .apache = elements (properties.truthy "apache.hosts".toList) ∧
      (translate properties).hosts .all =
        elements (properties.truthy "db.host".toList) ++
          elements (properties.truthy "apache.hosts".toList) := by
  have hvars : (translate properties).hosts =
      (loadHosts .apache "apache.hosts".toList properties
        (loadHosts .mysql "db.host".toList properties Result.default)).hosts := by
    rw [translate, List.foldl_cons, List.foldl_cons, List.foldl_nil, hosts_loadVar, hosts_loadVar]
  have hmysql : (loadHosts .mysql "db.host".toList properties Result.default).hosts .apache = [] :=
    hosts_loadHosts_of_ne _ _ _ (by decide) (by decide)
  rw [hvars]
  refine ⟨?_, hosts_loadHosts_self _ _ _ (by decide) hmysql, ?_⟩
  · rw [hosts_loadHosts_of_ne _ _ _ (by decide) (by decide)]
    exact hosts_loadHosts_self _ _ _ (by decide) rfl
  · rw [hosts_loadHosts_all _ _ _ (by decide), hosts_loadHosts_all _ _ _ (by decide)]
    rfl

/-- Only the group `mysql` gets variables. -/
theorem vars_translate_of_ne (properties : Dict) {g : GroupName} (hg : g ≠ .mysql) :
    (translate properties).vars g = Dict.empty := by
  rw [translate, List.foldl_cons, List.foldl_cons, List.foldl_nil, vars_loadVar_of_ne _ _ _ hg,
    vars_loadVar_of_ne _ _ _ hg, vars_loadHosts, vars_loadHosts]
  cases g <;> rfl

/-- The variables of mysql the script ends with. -/
theorem vars_translate (properties : Dict) (name : Text) :
    (translate properties).vars .mysql name =
      if name = "db_password".toList ∧ properties.truthy "db.password".toList ≠ [] then
        some (strip (properties.truthy "db.password".toList))
      else if name = "db_user".toList ∧ properties.truthy "db.user".toList ≠ [] then
        some (strip (properties.truthy "db.user".toList))
      else none := by
  have huser : ansibleVarName "db.user".toList = "db_user".toList := by decide
  have hpassword : ansibleVarName "db.password".toList = "db_password".toList := by decide
  rw [translate, List.foldl_cons, List.foldl_cons, List.foldl_nil, vars_loadVar, vars_loadVar,
    huser, hpassword, vars_loadHosts, vars_loadHosts]
  rfl

theorem hostvars_translate (properties : Dict) :
    (translate properties).hostvars = Dict.empty := by
  rw [translate, List.foldl_cons, List.foldl_cons, List.foldl_nil, hostvars_loadVar,
    hostvars_loadVar, hostvars_loadHosts, hostvars_loadHosts]
  rfl

/-! ## The whole script -/

/-- When the properties load, the inventory is right if and only if both lists of hosts are. -/
theorem dump_eq_expected_iff {file : Text} {properties : Dict}
    (h : ∀ key : Text, key ≠ [] → key.head? ≠ some '#' →
      properties.truthy key = property file key) :
    (translate properties).dump = expected file ↔
      ∀ key ∈ ["db.host".toList, "apache.hosts".toList], property file key ≠ [] →
        ∀ x ∈ (property file key).splitOn ',', strip x ≠ [] := by
  have hhost := h "db.host".toList (by decide) (by decide)
  have happache := h "apache.hosts".toList (by decide) (by decide)
  have huser := h "db.user".toList (by decide) (by decide)
  have hpassword := h "db.password".toList (by decide) (by decide)
  obtain ⟨hmysql, hapache, hall⟩ := hosts_translate properties
  rw [hhost] at hmysql hall
  rw [happache] at hapache hall
  simp only [List.forall_mem_cons, List.not_mem_nil, false_imp_iff, implies_true, and_true,
    ← elements_eq_hostsOf_iff]
  constructor
  · intro heq
    have hhosts : (translate properties).hosts = (expected file).hosts :=
      congrArg Inventory.hosts heq
    constructor
    · rw [← hmysql, hhosts]; rfl
    · rw [← hapache, hhosts]; rfl
  · intro hlists
    rcases hlists with ⟨hm, ha⟩
    refine Inventory.ext (funext fun g => ?_) (funext fun g => ?_) (hostvars_translate properties)
    · cases g with
      | all => exact hall.trans (by rw [hm, ha]; rfl)
      | apache => exact hapache.trans ha
      | mysql => exact hmysql.trans hm
    · cases g with
      | all => exact vars_translate_of_ne properties (by decide)
      | apache => exact vars_translate_of_ne properties (by decide)
      | mysql =>
        funext name
        refine (vars_translate properties name).trans ?_
        rw [huser, hpassword, strip_property, strip_property]
        rfl

/-- **The translation is right, exactly**, for the files in which every line has one `=` and no
list of hosts has a blank element. -/
theorem translates_iff (file : Text) :
    Translates file ↔
      (∀ line ∈ lines '\n' file, line.count '=' = 1) ∧
        ∀ key ∈ ["db.host".toList, "apache.hosts".toList], property file key ≠ [] →
          ∀ x ∈ (property file key).splitOn ',', strip x ≠ [] := by
  by_cases hcount : ∀ line ∈ lines '\n' file, line.count '=' = 1
  · have hload := loadProperties_of_count hcount
    have hrun : inv2prop file =
        .ok (translate (dictOf (lines '\n' file) Dict.empty)).dump := by
      rw [inv2prop, hload]
      rfl
    rw [Translates, hrun, Except.ok.injEq,
      dump_eq_expected_iff fun key hne hhash => truthy_dictOf hcount hne hhash]
    exact (and_iff_right hcount).symm
  · -- some line raises
    have hbad : ∃ r ∈ records '\n' file, (chomp '\n' r).count '=' ≠ 1 := by
      simpa [lines] using hcount
    obtain ⟨e, he⟩ := foldlM_loadLine_error hbad Dict.empty
    have hrun : inv2prop file = .error e := by
      rw [inv2prop, loadProperties, he]
      rfl
    rw [Translates, hrun]
    simp [hcount]

/-- A password with a `=` in it: the script raises, whatever else the file holds. -/
theorem translates_fails :
    IsProperties "db.host=mysql1\ndb.password=a=b\n".toList ∧
      inv2prop "db.host=mysql1\ndb.password=a=b\n".toList = .error .tooMany ∧
      ¬ Translates "db.host=mysql1\ndb.password=a=b\n".toList := by
  have hrun : inv2prop "db.host=mysql1\ndb.password=a=b\n".toList = .error .tooMany := rfl
  refine ⟨by decide, hrun, ?_⟩
  rw [Translates, hrun]
  simp

end KubVagrant
