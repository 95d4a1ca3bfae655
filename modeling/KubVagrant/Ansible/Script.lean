import KubVagrant.Ansible.Variables

/-!
# Inventory scripts

The `script` plugin runs an executable, reads the JSON it prints, and carries it into the
inventory: `parseGroup` for one entry of the output, `parse` for all of it, with the variables of
the hosts at the end.  `reachable_of_parse` says that the plugin does nothing but what commands do,
so that everything that holds of runs of commands holds after it.

An entry that has a list of hosts and a dictionary of variables is accepted if its hosts have
names (`parseGroup_isOk_iff`), and has the effect that one expects (`parseGroup_plain`).

## Main definitions

* `ParserError` — why the plugin gives up.
* `Parser`, `parseGroup`, `parse` — the plugin.
* `PlainEntry`, `Filled` — an entry with hosts and variables, and its effect.
-/

namespace Ansible
open Relation Unix Loops

local instance lawfulKeys : LawfulBEq Text := inferInstance

namespace Json

/-- `d[key]`, of the entries of a dictionary. -/
def lookup (entries : List (Text × Json)) (key : Text) : Option Json :=
  (entries.find? fun e => e.1 = key).map Prod.snd

/-- The elements of an array, the characters of a string, or the keys of a dictionary. -/
def iterate : Json → Option (List Json)
  | arr elems => some elems
  | str t => some (t.map fun c => str [c])
  | obj entries => some (entries.map fun e => str e.1)
  | _ => none

end Json

/-- Why the plugin gives up; all of these become an `AnsibleParserError`. -/
inductive ParserError where
  | inventory (e : AnsibleError)
  /-- `failed to parse executable inventory script results from %s: needs to be a json dict` -/
  | notADict (data : Json)
  /-- `You defined a group '%s' with bad data for the host list:\n %s` -/
  | badHosts (group : Text) (data : Json)
  /-- `You defined a group '%s' with bad data for variables:\n %s` -/
  | badVars (group : Text) (data : Json)
  /-- `Improperly formatted host information for %s: %s` -/
  | badHostInfo (host : Text)
  /-- `Invalid data from file, expected dictionary and got:\n\n%s` -/
  | badVariables (data : Json)
  /-- A `TypeError` of Python. -/
  | typeError (data : Json)
  /-- Running the script again for one host failed. -/
  | hostVariables (host : Text)

namespace Script

/-- The inventory, and the hosts the plugin has come across. -/
structure Parser where
  inventory : InventoryData
  hosts : Finset Text

/-- Errors of the inventory end the plugin. -/
def lift {α : Type} : Except AnsibleError α → Except ParserError α
  | .ok a => .ok a
  | .error e => .error (.inventory e)

variable (py : Interpreter)

/-- One host of a group.  A list or a dictionary cannot go into a set. -/
def parseHost (group : Text) (p : Parser) (hostname : Json) : Except ParserError Parser :=
  match hostname with
  | .arr _ | .obj _ => .error (.typeError hostname)
  | .str name => do
    let inventory ← lift (p.inventory.addHost py (.str name) (some group) .null)
    return ⟨inventory, insert name p.hosts⟩
  | _ => do
    let inventory ← lift (p.inventory.addHost py hostname (some group) .null)
    return ⟨inventory, p.hosts⟩

/-- One variable of a group or of a host. -/
def parseVar (entity : Text) (p : Parser) (entry : Text × Json) : Except ParserError Parser := do
  let inventory ← lift (p.inventory.setVariable entity entry.1 entry.2)
  return { p with inventory := inventory }

/-- One child of a group. -/
def parseChild (group : Text) (p : Parser) (childName : Json) : Except ParserError Parser := do
  let (childName, inventory) ← lift (p.inventory.addGroup py childName)
  let inventory ← lift (inventory.addChild group childName)
  return { p with inventory := inventory }

/-- What stands for the data of a group: a bare value is its hosts, and a dictionary without any
of the three keys holds the variables of a host. -/
def groupEntries (group : Text) : Json → List (Text × Json)
  | .obj entries =>
    if ∃ e ∈ entries, e.1 ∈ ["hosts".toList, "vars".toList, "children".toList] then entries
    else [("hosts".toList, .arr [.str group]), ("vars".toList, .obj entries)]
  | data => [("hosts".toList, data)]

def parseHosts (group : Text) (p : Parser) : Option Json → Except ParserError Parser
  | none => .ok p
  | some (.arr elems) => elems.foldlM (parseHost py group) p
  | some data => .error (.badHosts group data)

def parseVars (group : Text) (p : Parser) : Option Json → Except ParserError Parser
  | none => .ok p
  | some (.obj entries) => entries.foldlM (parseVar group) p
  | some data => .error (.badVars group data)

def parseChildren (group : Text) (p : Parser) : Option Json → Except ParserError Parser
  | none => .ok p
  | some data =>
    match data.iterate with
    | some elems => elems.foldlM (parseChild py group) p
    | none => .error (.typeError data)

/-- `_parse_group(group, data)`. -/
def parseGroup (p : Parser) (group : Text) (data : Json) : Except ParserError Parser := do
  let (group, inventory) ← lift (p.inventory.addGroup py (.str group))
  let entries := groupEntries group data
  let p ← parseHosts py group { p with inventory := inventory }
    (Json.lookup entries "hosts".toList)
  let p ← parseVars group p (Json.lookup entries "vars".toList)
  if group = "_meta".toList then return p
  else parseChildren py group p (Json.lookup entries "children".toList)

/-- `gdata['hostvars']`, if `'hostvars' in gdata`. -/
def hostvarsOf : Json → Except ParserError (Option Json)
  | .obj entries => .ok (Json.lookup entries "hostvars".toList)
  | .arr elems =>
    if elems.any fun | .str t => t = "hostvars".toList | _ => false then
      .error (.typeError (.arr elems))
    else .ok none
  | .str t => if "hostvars".toList <:+: t then .error (.typeError (.str t)) else .ok none
  | data => .error (.typeError data)

/-- One entry of the output, with the variables of the hosts found so far. -/
def parseEntry (state : Parser × Option Json) (entry : Text × Json) :
    Except ParserError (Parser × Option Json) :=
  if entry.1 = "_meta".toList then do
    let found ← hostvarsOf entry.2
    return (state.1, found.or state.2)
  else do
    let p ← parseGroup py state.1 entry.1 entry.2
    return (p, state.2)

/-- The variables of a host: from `_meta` if it had any for hosts, and else from the script. -/
def hostInfo (hostVariables : Text → Except ParserError Json) (dataFromMeta : Option Json)
    (host : Text) : Except ParserError Json :=
  match dataFromMeta with
  | none | some .null => hostVariables host
  | some (.obj entries) => .ok ((Json.lookup entries host).getD (.obj []))
  | some _ => .error (.badHostInfo host)

/-- `_populate_host_vars([host], variables)`. -/
def populateHostVars (p : Parser) (host : Text) : Json → Except ParserError Parser
  | .obj entries => do
    let inventory ← lift (p.inventory.addHost py (.str host) none .null)
    entries.foldlM (parseVar host) { p with inventory := inventory }
  | data => .error (.badVariables data)

/-- `parse`, from the JSON the script has printed. -/
def parse (hostVariables : Text → Except ParserError Json) (s : InventoryData) (processed : Json) :
    Except ParserError InventoryData :=
  match processed with
  | .obj entries => do
    let (p, dataFromMeta) ← entries.foldlM (parseEntry py) (⟨s, ∅⟩, none)
    let p ← (py.order p.hosts).foldlM (fun p host => do
      let got ← hostInfo hostVariables dataFromMeta host
      populateHostVars py p host got) p
    return p.inventory
  | data => .error (.notADict data)

/-! ## The plugin only issues commands -/

open InventoryData

variable {py} {s s' : InventoryData} {p p' : Parser}

theorem lift_eq_ok {α : Type} {x : Except AnsibleError α} {a : α} (h : lift x = .ok a) :
    x = .ok a := by
  cases x with
  | error e => cases h
  | ok b =>
    cases h
    rfl

theorem reachable_addHost {host : Json} {group : Option Text} {port : Json}
    (hr : Reachable py PlainReconcile s) (hok : s.addHost py host group port = .ok s') :
    Reachable py PlainReconcile s' := by
  have happly : s.apply py (.addHost host group port) = .ok s' := hok
  exact hr.step (plainReconcile_of_ne (by simp)) happly

theorem reachable_addGroup {group : Json} {name : Text} (hr : Reachable py PlainReconcile s)
    (hok : s.addGroup py group = .ok (name, s')) : Reachable py PlainReconcile s' := by
  have happly : s.apply py (.addGroup group) = .ok s' := by
    simp only [InventoryData.apply, hok]
    rfl
  exact hr.step (plainReconcile_of_ne (by simp)) happly

theorem reachable_addChild {group child : Text} (hr : Reachable py PlainReconcile s)
    (hok : s.addChild group child = .ok s') : Reachable py PlainReconcile s' := by
  have happly : s.apply py (.addChild group child) = .ok s' := hok
  exact hr.step (plainReconcile_of_ne (by simp)) happly

theorem reachable_setVariable {entity varname : Text} {value : Json}
    (hr : Reachable py PlainReconcile s)
    (hok : s.setVariable entity varname value = .ok s') : Reachable py PlainReconcile s' := by
  have happly : s.apply py (.setVariable entity varname value) = .ok s' := hok
  exact hr.step (plainReconcile_of_ne (by simp)) happly

theorem reachable_parseVar {entity : Text} {entry : Text × Json}
    (hr : Reachable py PlainReconcile p.inventory)
    (hok : parseVar entity p entry = .ok p') : Reachable py PlainReconcile p'.inventory := by
  rcases bind_eq_ok hok with ⟨s₁, hset, hret⟩
  cases hret
  exact reachable_setVariable hr (lift_eq_ok hset)

theorem reachable_parseHost {group : Text} {hostname : Json}
    (hr : Reachable py PlainReconcile p.inventory)
    (hok : parseHost py group p hostname = .ok p') : Reachable py PlainReconcile p'.inventory := by
  unfold parseHost at hok
  split at hok
  · exact absurd hok (by simp)
  · exact absurd hok (by simp)
  all_goals
    rcases bind_eq_ok hok with ⟨s₁, hadd, hret⟩
    cases hret
    exact reachable_addHost hr (lift_eq_ok hadd)

theorem reachable_parseChild {group : Text} {childName : Json}
    (hr : Reachable py PlainReconcile p.inventory)
    (hok : parseChild py group p childName = .ok p') :
    Reachable py PlainReconcile p'.inventory := by
  rcases bind_eq_ok hok with ⟨⟨name, s₁⟩, hgroup, hrest⟩
  rcases bind_eq_ok hrest with ⟨s₂, hchild, hret⟩
  cases hret
  exact reachable_addChild (reachable_addGroup hr (lift_eq_ok hgroup)) (lift_eq_ok hchild)

theorem reachable_parseGroup {group : Text} {data : Json}
    (hr : Reachable py PlainReconcile p.inventory)
    (hok : parseGroup py p group data = .ok p') : Reachable py PlainReconcile p'.inventory := by
  rcases bind_eq_ok hok with ⟨⟨name, s₁⟩, hgroup, hrest⟩
  rcases bind_eq_ok hrest with ⟨p₁, hhosts, hrest₁⟩
  rcases bind_eq_ok hrest₁ with ⟨p₂, hvars, hchildren⟩
  have hr₁ : Reachable py PlainReconcile p₁.inventory := by
    unfold parseHosts at hhosts
    split at hhosts
    · cases hhosts
      exact reachable_addGroup hr (lift_eq_ok hgroup)
    · exact foldlM_keeps (P := fun p => Reachable py PlainReconcile p.inventory)
        (fun _ _ _ => reachable_parseHost) (reachable_addGroup hr (lift_eq_ok hgroup)) hhosts
    · exact absurd hhosts (by simp)
  have hr₂ : Reachable py PlainReconcile p₂.inventory := by
    unfold parseVars at hvars
    split at hvars
    · cases hvars
      exact hr₁
    · exact foldlM_keeps (P := fun p => Reachable py PlainReconcile p.inventory)
        (fun _ _ _ => reachable_parseVar) hr₁ hvars
    · exact absurd hvars (by simp)
  split at hchildren
  · cases hchildren
    exact hr₂
  · unfold parseChildren at hchildren
    split at hchildren
    · cases hchildren
      exact hr₂
    · split at hchildren
      · exact foldlM_keeps (P := fun p => Reachable py PlainReconcile p.inventory)
          (fun _ _ _ => reachable_parseChild) hr₂ hchildren
      · exact absurd hchildren (by simp)

/-- **Whatever a script prints, the plugin leaves an inventory that commands lead to.** -/
theorem reachable_of_parse {hostVariables : Text → Except ParserError Json} {processed : Json}
    (hr : Reachable py PlainReconcile s) (hok : parse py hostVariables s processed = .ok s') :
    Reachable py PlainReconcile s' := by
  unfold parse at hok
  split at hok
  · rcases bind_eq_ok hok with ⟨⟨p₁, dataFromMeta⟩, hentries, hrest⟩
    rcases bind_eq_ok hrest with ⟨p₂, hhosts, hret⟩
    cases hret
    have hr₁ : Reachable py PlainReconcile p₁.inventory := by
      refine foldlM_keeps (P := fun state => Reachable py PlainReconcile state.1.inventory) ?_ hr
        hentries
      intro state entry state' hstate hentry
      unfold parseEntry at hentry
      split at hentry
      · rcases bind_eq_ok hentry with ⟨found, _, hret⟩
        cases hret
        exact hstate
      · rcases bind_eq_ok hentry with ⟨p₃, hgroup, hret⟩
        cases hret
        exact reachable_parseGroup hstate hgroup
    refine foldlM_keeps (P := fun p => Reachable py PlainReconcile p.inventory) ?_ hr₁ hhosts
    intro p₃ host p₄ hp₃ hround
    rcases bind_eq_ok hround with ⟨got, _, hpopulate⟩
    unfold populateHostVars at hpopulate
    split at hpopulate
    · rcases bind_eq_ok hpopulate with ⟨s₁, hadd, hvars⟩
      exact foldlM_keeps (P := fun p => Reachable py PlainReconcile p.inventory)
        (fun _ _ _ => reachable_parseVar) (reachable_addHost hp₃ (lift_eq_ok hadd)) hvars
    · exact absurd hpopulate (by simp)
  · exact absurd hok (by simp)

/-- A group with one host, in the short form. -/
theorem reachable_of_parse_site : ∃ s', parse .python2 (fun _ => .ok (.obj [])) site
    (.obj [("db".toList, .arr [.str "b".toList])]) = .ok s' ∧
      Reachable .python2 PlainReconcile s' := by
  have hok : (parse .python2 (fun _ => .ok (.obj [])) site
    (.obj [("db".toList, .arr [.str "b".toList])])).isOk = true := by decide +kernel
  cases hrun : parse .python2 (fun _ => .ok (.obj [])) site
      (.obj [("db".toList, .arr [.str "b".toList])]) with
  | error e =>
    rw [hrun] at hok
    cases hok
  | ok s' => exact ⟨s', rfl, reachable_of_parse reachable_site hrun⟩

/-! ## The hosts of a group -/

variable {group : Text} {hosts : List Text} {vars : List (Text × Json)}

/-- The effect of meeting hosts in a group. -/
structure Joined (p : Parser) (group : Text) (hosts : List Text) (p' : Parser) : Prop where
  consistent : p'.inventory.Consistent
  dictCurrent : p'.inventory.DictCurrent
  sameGroups : p'.inventory.groupNames = p.inventory.groupNames
  hostNames_iff : ∀ h, h ∈ p'.inventory.hostNames ↔ h ∈ p.inventory.hostNames ∨ h ∈ hosts
  child : p'.inventory.hierarchy.child = p.inventory.hierarchy.child
  direct_iff : ∀ g h, p'.inventory.hierarchy.direct g h ↔
    p.inventory.hierarchy.direct g h ∨ g = group ∧ h ∈ hosts
  found : p'.hosts = p.hosts ∪ hosts.toFinset
  vars : ∀ g key, key ∉ sourceKeys → p'.inventory.groupVars g key = p.inventory.groupVars g key

theorem Joined.refl (hs : p.inventory.Consistent) (hd : p.inventory.DictCurrent) (group : Text) :
    Joined p group [] p where
  consistent := hs
  dictCurrent := hd
  sameGroups := rfl
  hostNames_iff _ := by simp
  child := rfl
  direct_iff _ _ := by simp
  found := by simp
  vars _ _ _ := rfl

theorem Joined.trans {hosts' : List Text} {p'' : Parser} (hj : Joined p group hosts p')
    (hj' : Joined p' group hosts' p'') : Joined p group (hosts ++ hosts') p'' where
  consistent := hj'.consistent
  dictCurrent := hj'.dictCurrent
  sameGroups := hj'.sameGroups.trans hj.sameGroups
  hostNames_iff h := by
    rw [hj'.hostNames_iff, hj.hostNames_iff, List.mem_append, or_assoc]
  child := hj'.child.trans hj.child
  direct_iff g h := by
    rw [hj'.direct_iff, hj.direct_iff, List.mem_append, or_assoc, and_or_left]
  found := by
    rw [hj'.found, hj.found, List.toFinset_append, Finset.union_assoc]
  vars g key hkey := (hj'.vars g key hkey).trans (hj.vars g key hkey)

theorem parseHost_isOk_iff {h : Text} (hg : group ∈ p.inventory.groupNames) (hne : group ≠ []) :
    (∃ p', parseHost py group p (.str h) = .ok p') ↔ h ≠ [] := by
  rw [← addHost_isOk_iff py h hg hne]
  constructor
  · intro hok
    rcases hok with ⟨p', hok⟩
    rcases bind_eq_ok hok with ⟨s₁, hadd, _⟩
    exact ⟨s₁, lift_eq_ok hadd⟩
  · intro hok
    rcases hok with ⟨s₁, hadd⟩
    exact ⟨⟨s₁, insert h p.hosts⟩, by simp only [parseHost, hadd]; rfl⟩

theorem parseHost_spec {h : Text} (hs : p.inventory.Consistent) (hd : p.inventory.DictCurrent)
    (hne : group ≠ []) (hok : parseHost py group p (.str h) = .ok p') :
    Joined p group [h] p' := by
  rcases bind_eq_ok hok with ⟨s₁, hadd, hret⟩
  cases hret
  have hadd := lift_eq_ok hadd
  rcases addHost_spec hs hd hadd with ⟨name, hname, _, hcons, hdict, hgroups, hhosts, hhier⟩
  cases hname
  have hgroup : (some group).filter (· ≠ []) = some group := by simpa using hne
  rw [hgroup, Option.elim_some] at hhier
  refine ⟨hcons, hdict, hgroups, ?_, ?_, ?_, ?_, fun g key hkey => groupVars_addHost hkey hadd⟩
  · intro y
    rw [hhosts, List.mem_singleton]
  · rw [hhier]
    rfl
  · intro g y
    rw [hhier, List.mem_singleton]
    rfl
  · ext y
    simp

/-- The loop over the hosts, with the hosts met so far. -/
theorem step_parseHost (hne : group ≠ []) :
    Step (fun p h => parseHost py group p (.str h)) hosts
      fun done p' => Joined p group done p' := by
  intro done h rest p₁ p₂ _ hj hok
  exact hj.trans (parseHost_spec hj.consistent hj.dictCurrent hne hok)

theorem parseHosts_isOk_iff (hs : p.inventory.Consistent) (hd : p.inventory.DictCurrent)
    (hg : group ∈ p.inventory.groupNames) (hne : group ≠ []) :
    (∃ p', parseHosts py group p (some (.arr (hosts.map .str))) = .ok p') ↔
      ∀ h ∈ hosts, h ≠ [] := by
  rw [parseHosts, List.foldlM_map]
  refine foldlM_isOk_iff (step_parseHost hne) ?_ (Joined.refl hs hd group)
  intro done h rest p₁ _ hj
  exact parseHost_isOk_iff (hj.sameGroups ▸ hg) hne

theorem parseHosts_spec (hs : p.inventory.Consistent) (hd : p.inventory.DictCurrent)
    (hne : group ≠ []) (hok : parseHosts py group p (some (.arr (hosts.map .str))) = .ok p') :
    Joined p group hosts p' := by
  rw [parseHosts, List.foldlM_map] at hok
  exact foldlM_done (step_parseHost hne) (Joined.refl hs hd group) hok

/-! ## The variables of a group -/

/-- The effect of setting variables of a group; the last value counts. -/
structure Varied (p : Parser) (group : Text) (vars : List (Text × Json)) (p' : Parser) : Prop where
  onlyVars : OnlyVars p'.inventory p.inventory
  found : p'.hosts = p.hosts
  vars_self : ∀ key, p'.inventory.groupVars group key =
    (Json.lookup vars.reverse key).or (p.inventory.groupVars group key)
  vars_of_ne : ∀ g, g ≠ group → p'.inventory.groupVars g = p.inventory.groupVars g

theorem Varied.refl (p : Parser) (group : Text) : Varied p group [] p where
  onlyVars := ⟨⟨List.Subset.refl _, List.Subset.refl _, fun _ => Alike.refl _, fun _ => rfl⟩,
    rfl, rfl, fun _ => rfl, rfl⟩
  found := rfl
  vars_self _ := rfl
  vars_of_ne _ _ := rfl

theorem lookup_cons (entry : Text × Json) (entries : List (Text × Json)) (key : Text) :
    Json.lookup (entry :: entries) key =
      if entry.1 = key then some entry.2 else Json.lookup entries key := by
  by_cases hkey : entry.1 = key
  · simp [Json.lookup, hkey]
  · simp [Json.lookup, hkey]

theorem Varied.parseVar {done : List (Text × Json)} {entry : Text × Json} {p'' : Parser}
    (hv : Varied p group done p') (hg : group ∈ p.inventory.groupNames)
    (hkey : entry.1 ≠ "ansible_group_priority".toList)
    (hok : parseVar group p' entry = .ok p'') : Varied p group (done ++ [entry]) p'' := by
  rcases bind_eq_ok hok with ⟨s₁, hset, hret⟩
  cases hret
  have hset := lift_eq_ok hset
  have hg' : group ∈ p'.inventory.groupNames := hv.onlyVars.sameGroups ▸ hg
  refine ⟨(onlyVars_setVariable hset).trans hv.onlyVars, hv.found, fun key => ?_, fun g hne => ?_⟩
  · rw [List.reverse_append, List.reverse_singleton, List.singleton_append, lookup_cons]
    split
    · next heq =>
      subst heq
      exact groupVars_setVariable_self hg' hkey hset
    · next hne =>
      rw [← hv.vars_self]
      exact groupVars_setVariable_of_ne (Or.inr (Ne.symm hne)) hset
  · funext key
    rw [groupVars_setVariable_of_ne (Or.inl hne) hset, hv.vars_of_ne g hne]

theorem step_parseVar (hg : group ∈ p.inventory.groupNames)
    (hkeys : ∀ entry ∈ vars, entry.1 ≠ "ansible_group_priority".toList) :
    Step (parseVar group) vars fun done p' => Varied p group done p' := by
  intro done entry rest p₁ p₂ hvars hv hok
  exact hv.parseVar hg (hkeys entry (by simp [hvars])) hok

theorem exists_parseVars (hg : group ∈ p.inventory.groupNames)
    (hkeys : ∀ entry ∈ vars, entry.1 ≠ "ansible_group_priority".toList) :
    ∃ p', parseVars group p (some (.obj vars)) = .ok p' := by
  refine (foldlM_isOk_iff (step_parseVar hg hkeys) ?_ (Varied.refl p group)).mpr hkeys
  intro done entry rest p₁ hvars hv
  have hkey := hkeys entry (by simp [hvars])
  have hg₁ : group ∈ p₁.inventory.groupNames := hv.onlyVars.sameGroups ▸ hg
  rcases exists_setVariable entry.2 (Or.inl hg₁) hkey with ⟨s₁, hset⟩
  refine iff_of_true ⟨{ p₁ with inventory := s₁ }, ?_⟩ hkey
  simp only [Script.parseVar, hset]
  rfl

theorem parseVars_spec (hg : group ∈ p.inventory.groupNames)
    (hkeys : ∀ entry ∈ vars, entry.1 ≠ "ansible_group_priority".toList)
    (hok : parseVars group p (some (.obj vars)) = .ok p') : Varied p group vars p' :=
  foldlM_done (step_parseVar hg hkeys) (Varied.refl p group) hok

/-! ## An entry with hosts and variables -/

/-- The entry lists its hosts and its variables, and has no children. -/
def PlainEntry (data : Json) (hosts : List Text) (vars : List (Text × Json)) : Prop :=
  ∃ entries, data = .obj entries ∧
    Json.lookup entries "hosts".toList = some (.arr (hosts.map .str)) ∧
      Json.lookup entries "vars".toList = some (.obj vars) ∧
        Json.lookup entries "children".toList = none

/-- The effect of such an entry. -/
structure Filled (p : Parser) (group : Text) (hosts : List Text) (vars : List (Text × Json))
    (p' : Parser) : Prop where
  consistent : p'.inventory.Consistent
  dictCurrent : p'.inventory.DictCurrent
  groupNames_iff : ∀ g, g ∈ p'.inventory.groupNames ↔ g ∈ p.inventory.groupNames ∨ g = group
  hostNames_iff : ∀ h, h ∈ p'.inventory.hostNames ↔ h ∈ p.inventory.hostNames ∨ h ∈ hosts
  child : p'.inventory.hierarchy.child = p.inventory.hierarchy.child
  direct_iff : ∀ g h, p'.inventory.hierarchy.direct g h ↔
    p.inventory.hierarchy.direct g h ∨ g = group ∧ h ∈ hosts
  found : p'.hosts = p.hosts ∪ hosts.toFinset
  /-- A new group starts without variables. -/
  vars_self : ∀ key, key ∉ sourceKeys → p'.inventory.groupVars group key =
    (Json.lookup vars.reverse key).or
      (if group ∈ p.inventory.groupNames then p.inventory.groupVars group key else none)
  vars_of_ne : ∀ g key, g ≠ group → key ∉ sourceKeys →
    p'.inventory.groupVars g key = p.inventory.groupVars g key

theorem mem_of_lookup {entries : List (Text × Json)} {key : Text} {data : Json}
    (h : Json.lookup entries key = some data) : (key, data) ∈ entries := by
  rw [Json.lookup, Option.map_eq_some_iff] at h
  rcases h with ⟨entry, hfind, rfl⟩
  have hkey : entry.1 = key := by simpa using List.find?_some hfind
  rw [← hkey]
  exact List.mem_of_find?_eq_some hfind

theorem groupEntries_of_hosts {entries : List (Text × Json)} {data : Json}
    (h : Json.lookup entries "hosts".toList = some data) :
    groupEntries group (.obj entries) = entries := by
  rw [groupEntries, if_pos ⟨_, mem_of_lookup h, by simp⟩]

theorem addGroup_self (hne : group ≠ []) (hsafe : py.toSafeGroupName group = group) :
    s.addGroup py (.str group) =
      .ok (group, if group ∈ s.groupNames then s else s.createGroup group) := by
  by_cases hknown : group ∈ s.groupNames
  · have htruthy : (Json.str group).truthy = true := by simpa [Json.truthy] using hne
    rw [addGroup, if_pos htruthy]
    simp only [hknown, if_true]
  · rw [if_neg hknown]
    exact addGroup_new hne hsafe hknown

/-- The plugin on such an entry, step by step. -/
theorem parseGroup_eq {data : Json} (hdata : PlainEntry data hosts vars) (hne : group ≠ [])
    (hsafe : py.toSafeGroupName group = group) :
    parseGroup py p group data = (do
      let p ← parseHosts py group { p with inventory :=
          if group ∈ p.inventory.groupNames then p.inventory else p.inventory.createGroup group }
        (some (.arr (hosts.map .str)))
      parseVars group p (some (.obj vars))) := by
  rcases hdata with ⟨entries, rfl, hhosts, hvars, hchildren⟩
  have hlift : lift (p.inventory.addGroup py (.str group)) = .ok (group,
      if group ∈ p.inventory.groupNames then p.inventory else p.inventory.createGroup group) := by
    rw [addGroup_self hne hsafe]
    rfl
  rw [parseGroup, hlift]
  simp only [bind, Except.bind, groupEntries_of_hosts hhosts, hhosts, hvars, hchildren,
    parseChildren]
  split
  · rfl
  · split
    · next hok => rw [hok]
    · next hok =>
      rw [hok]
      split <;> rfl

/-- The inventory once the group is there. -/
theorem ensureGroup_spec (group : Text) (hs : s.Consistent) (hd : s.DictCurrent) :
    let s' := if group ∈ s.groupNames then s else s.createGroup group
    s'.Consistent ∧ s'.DictCurrent ∧ s'.hierarchy = s.hierarchy ∧ s'.hostNames = s.hostNames ∧
      (∀ g, g ∈ s'.groupNames ↔ g ∈ s.groupNames ∨ g = group) ∧
      s'.groupVars group = (if group ∈ s.groupNames then s.groupVars group else fun _ => none) ∧
      ∀ g, g ≠ group → s'.groupVars g = s.groupVars g := by
  dsimp only
  by_cases hknown : group ∈ s.groupNames
  · rw [if_pos hknown, if_pos hknown]
    refine ⟨hs, hd, rfl, rfl, fun g => (or_iff_left_of_imp fun heq => ?_).symm, rfl, fun _ _ => rfl⟩
    exact heq ▸ hknown
  · rw [if_neg hknown, if_neg hknown]
    refine ⟨hs.createGroup hknown, Or.inl rfl, (hs.similar_createGroup hknown).hierarchy, rfl,
      fun g => ?_, ?_, fun g hne => ?_⟩
    · rw [createGroup, List.mem_append, List.mem_singleton]
    · rw [groupVars_createGroup, if_pos rfl]
    · rw [groupVars_createGroup, if_neg hne]

theorem parseGroup_plain {data : Json} (hdata : PlainEntry data hosts vars) (hne : group ≠ [])
    (hsafe : py.toSafeGroupName group = group)
    (hkeys : ∀ entry ∈ vars, entry.1 ≠ "ansible_group_priority".toList)
    (hs : p.inventory.Consistent) (hd : p.inventory.DictCurrent)
    (hok : parseGroup py p group data = .ok p') : Filled p group hosts vars p' := by
  rw [parseGroup_eq hdata hne hsafe] at hok
  rcases bind_eq_ok hok with ⟨p₁, hhosts, hvars⟩
  rcases ensureGroup_spec group hs hd with
    ⟨hcons, hdict, hhier, hsame, hgroups, hself, hother⟩
  have hj := parseHosts_spec hcons hdict hne hhosts
  have hg : group ∈ p₁.inventory.groupNames := by
    rw [hj.sameGroups, hgroups]
    exact Or.inr rfl
  have hv := parseVars_spec hg hkeys hvars
  refine ⟨hv.onlyVars.consistent hj.consistent, hj.dictCurrent.congr hv.onlyVars.hierarchy
    hv.onlyVars.sameGroups hv.onlyVars.groupsDictCache, ?_, ?_, ?_, ?_, ?_, ?_, ?_⟩
  · intro g
    rw [hv.onlyVars.sameGroups, hj.sameGroups, hgroups]
  · intro h
    rw [hv.onlyVars.sameHosts, hj.hostNames_iff, hsame]
  · rw [hv.onlyVars.hierarchy, hj.child, hhier]
  · intro g h
    rw [hv.onlyVars.hierarchy, hj.direct_iff, hhier]
  · rw [hv.found, hj.found]
  · intro key hkey
    rw [hv.vars_self, hj.vars _ _ hkey, hself]
    split <;> rfl
  · intro g key hne' hkey
    rw [hv.vars_of_ne g hne', hj.vars _ _ hkey, hother g hne']

/-- **Such an entry is accepted if and only if every host has a name.** -/
theorem parseGroup_isOk_iff {data : Json} (hdata : PlainEntry data hosts vars) (hne : group ≠ [])
    (hsafe : py.toSafeGroupName group = group)
    (hkeys : ∀ entry ∈ vars, entry.1 ≠ "ansible_group_priority".toList)
    (hs : p.inventory.Consistent) (hd : p.inventory.DictCurrent) :
    (∃ p', parseGroup py p group data = .ok p') ↔ ∀ h ∈ hosts, h ≠ [] := by
  rcases ensureGroup_spec group hs hd with ⟨hcons, hdict, _, _, hgroups, _⟩
  rw [parseGroup_eq hdata hne hsafe]
  set p₀ : Parser := { p with inventory :=
    if group ∈ p.inventory.groupNames then p.inventory else p.inventory.createGroup group }
  have hg : group ∈ p₀.inventory.groupNames := (hgroups group).mpr (Or.inr rfl)
  have hiff : (∃ p', parseHosts py group p₀ (some (.arr (hosts.map .str))) = .ok p') ↔
      ∀ h ∈ hosts, h ≠ [] := parseHosts_isOk_iff hcons hdict hg hne
  constructor
  · intro hok
    rcases hok with ⟨p', hok⟩
    rcases bind_eq_ok hok with ⟨p₁, hhosts, _⟩
    exact hiff.mp ⟨p₁, hhosts⟩
  · intro hnames
    rcases hiff.mpr hnames with ⟨p₁, hhosts⟩
    have hj := parseHosts_spec hcons hdict hne hhosts
    rcases exists_parseVars (hj.sameGroups ▸ hg) hkeys with ⟨p₂, hvars⟩
    exact ⟨p₂, by rw [hhosts]; exact hvars⟩

end Script
end Ansible
