import KubVagrant.Lib.Hierarchy
import KubVagrant.Lib.Lines
import KubVagrant.Lib.Python
import KubVagrant.Lib.Worklist
import Mathlib.Data.Char
import Mathlib.Data.Finset.Sort
import Mathlib.Data.List.Lex

/-!
# Ansible's inventory

`InventoryData` holds the groups and the hosts that an inventory source names.  Groups know
their children, their parents, their depth and their hosts, and may keep the hosts below them
in a cache; a host knows every group it is in, directly or not; a dictionary of all groups is
cached as well.  Each operation updates what the others derive from the same relations.

Groups and hosts are objects in the source and names here: a name belongs to one object, since
no group or host is ever deleted by the operations below.  Python goes through a set in an order
of its own, so what it keeps in such an order is a `Finset`; where the order could decide a
result, it is the interpreter's.

## Main definitions

* `Json` — what an inventory source says, after parsing.
* `Interpreter` — what the code takes from Python and from the configuration.
* `Group`, `Host`, `InventoryData` — the state.
* `addGroup`, `addHost`, `addChild`, `setVariable`, `getGroupsDict`, `reconcileInventory` — the
  operations, and `Command`, `apply` for any of them.
-/

namespace Ansible
open Unix Python

local instance lawfulNames : LawfulBEq Text := inferInstance

/-! ## Values -/

/-- A floating-point number; a finite one by its value. -/
inductive Double where
  | finite (x : Rat)
  | infinite (negative : Bool)
  | nan

/-- Parsed JSON. -/
inductive Json where
  | null
  | bool (b : Bool)
  | num (n : ℤ)
  | float (x : Double)
  | str (t : Text)
  | arr (elems : List Json)
  | obj (entries : List (Text × Json))

namespace Json

/-- The value as a condition. -/
def truthy : Json → Bool
  | null => false
  | bool b => b
  | num n => n != 0
  | float (.finite x) => x != 0
  | float _ => true
  | str t => !t.isEmpty
  | arr elems => !elems.isEmpty
  | obj entries => !entries.isEmpty

/-- The integer that digits, all of them decimal, denote. -/
def digitsValue (digits : Text) : Option ℤ :=
  if digits ≠ [] ∧ digits.all Char.isDigit then
    some (digits.foldl (fun n c => 10 * n + (c.toNat - '0'.toNat : ℕ)) 0)
  else none

/-- `int(value)`, and `none` where it raises. -/
def toInt : Json → Option ℤ
  | bool b => some (if b then 1 else 0)
  | num n => some n
  | float (.finite x) => some (x.num.tdiv x.den)
  | str t =>
    match strip t with
    | '-' :: digits => (digitsValue digits).map (- ·)
    | '+' :: digits => digitsValue digits
    | digits => digitsValue digits
  | _ => none

end Json

/-- Why an operation raises. -/
inductive AnsibleError where
  /-- `Invalid empty/false group name provided: %s` -/
  | emptyGroupName (group : Json)
  /-- `Invalid group name supplied, expected a string but got %s for %s` -/
  | groupNameType (group : Json)
  /-- `Invalid empty host name provided: %s` -/
  | emptyHostName (host : Json)
  /-- `Invalid host name supplied, expected a string but got %s for %s` -/
  | hostNameType (host : Json)
  /-- `Could not find group %s in inventory` -/
  | unknownGroup (group : Text)
  /-- `Could not identify group or host named %s` -/
  | unknownEntity (entity : Text)
  /-- `%s is not a known group` -/
  | notAGroup (group : Text)
  /-- `%s is not a known host nor group` -/
  | neitherHostNorGroup (child : Text)
  /-- `can't add group to itself` -/
  | selfChild
  /-- `Adding group '%s' as child to '%s' creates a recursive dependency loop.` -/
  | recursiveLoop (child group : Text)
  /-- `The group named '%s' has a recursive dependency loop.` -/
  | loopBelow (group : Text)
  /-- `int()` raises. -/
  | notAnInteger (value : Json)

/-- The setting `TRANSFORM_INVALID_GROUP_CHARS`. -/
inductive TransformInvalidGroupChars where
  | always
  | never
  | ignore
  | silently
  deriving DecidableEq, Repr

/-- What the code takes from Python and its surroundings. -/
structure Interpreter where
  /-- `\w` and `\d`, which differ between versions of Python outside ASCII. -/
  isWord : Char → Bool
  isDigit : Char → Bool
  isWord_of_isAlpha : ∀ c, c.isAlpha → isWord c
  isDigit_of_isAlpha : ∀ c, c.isAlpha → isDigit c = false
  transformInvalidGroupChars : TransformInvalidGroupChars
  /-- The directory of an inventory source. -/
  basedir : Text → Json
  /-- The order in which Python goes through a set of names. -/
  order : Finset Text → List Text
  mem_order : ∀ names x, x ∈ order names ↔ x ∈ names

namespace Interpreter
variable (py : Interpreter)

/-- `INVALID_VARIABLE_NAMES.sub("_", name)`: the pattern is `^[\d\W]|[^\w]`. -/
def replaceInvalid : Text → Text
  | [] => []
  | c :: rest =>
    (if py.isDigit c || !py.isWord c then '_' else c) ::
      rest.map fun c => if py.isWord c then c else '_'

/-- The name a group gets; only two settings replace characters. -/
def toSafeGroupName (name : Text) : Text :=
  match py.transformInvalidGroupChars with
  | .always | .silently => py.replaceInvalid name
  | .never | .ignore => name

theorem replaceInvalid_of_isAlpha {name : Text} (h : name.all Char.isAlpha) :
    py.replaceInvalid name = name := by
  cases name with
  | nil => rfl
  | cons c rest =>
    rw [List.all_cons, Bool.and_eq_true, List.all_eq_true] at h
    have hrest : rest.map (fun c => if py.isWord c then c else '_') = rest := by
      refine (List.map_congr_left fun c hc => ?_).trans (List.map_id rest)
      rw [if_pos (py.isWord_of_isAlpha c (h.2 c hc))]
      rfl
    rw [replaceInvalid, hrest, py.isDigit_of_isAlpha c h.1, py.isWord_of_isAlpha c h.1]
    rfl

theorem toSafeGroupName_of_isAlpha {name : Text} (h : name.all Char.isAlpha) :
    py.toSafeGroupName name = name := by
  unfold toSafeGroupName
  split
  · exact py.replaceInvalid_of_isAlpha h
  · exact py.replaceInvalid_of_isAlpha h
  · rfl
  · rfl

theorem isWord_of_isAlpha_ascii {c : Char} (h : c.isAlpha) : (c.isAlphanum || c == '_') = true := by
  have halnum : c.isAlphanum = true := (Bool.or_eq_true _ _).mpr (Or.inl h)
  rw [halnum, Bool.true_or]

theorem isDigit_eq_false_of_isAlpha {c : Char} (h : c.isAlpha) : c.isDigit = false := by
  refine Bool.eq_false_iff.mpr fun hd => ?_
  have hle := of_decide_eq_true ((Bool.and_eq_true _ _).mp hd).2
  rw [UInt32.le_iff_toNat_le] at hle
  have hcases : c.isUpper = true ∨ c.isLower = true := (Bool.or_eq_true _ _).mp h
  have hbounds : ('A'.val.toNat = 65 ∧ 'a'.val.toNat = 97) ∧ '9'.val.toNat = 57 := by decide
  rcases hcases with hupper | hlower
  · have hge := (of_decide_eq_true hupper).1
    rw [ge_iff_le, UInt32.le_iff_toNat_le] at hge
    omega
  · have hge := of_decide_eq_true ((Bool.and_eq_true _ _).mp hlower).1
    rw [ge_iff_le, UInt32.le_iff_toNat_le] at hge
    omega

/-- The names of a set, sorted. -/
def sorted (names : Finset Text) : List Text :=
  Quot.liftOn names.val (List.insertionSort (· ≤ ·)) fun l l' hperm =>
    List.Perm.eq_of_pairwise' (List.pairwise_insertionSort _ l) (List.pairwise_insertionSort _ l')
      (((List.perm_insertionSort _ l).trans hperm).trans (List.perm_insertionSort _ l').symm)

theorem mem_sorted (names : Finset Text) (x : Text) : x ∈ sorted names ↔ x ∈ names := by
  rcases names with ⟨⟨l⟩, _⟩
  exact (List.perm_insertionSort _ l).mem_iff

/-- Python 2 with the default configuration, as if it went through sets in order. -/
def python2 : Interpreter where
  isWord c := c.isAlphanum || c == '_'
  isDigit := Char.isDigit
  isWord_of_isAlpha _ h := isWord_of_isAlpha_ascii h
  isDigit_of_isAlpha _ h := isDigit_eq_false_of_isAlpha h
  transformInvalidGroupChars := .never
  basedir path := .str ((path.reverse.dropWhile (· ≠ '/')).drop 1).reverse
  order := sorted
  mem_order := mem_sorted

end Interpreter

/-! ## The state -/

/-- A group. -/
structure Group where
  depth : ℕ
  hosts : List Text
  /-- The names in `_hosts`.  A set that is still missing has none: it is made from the host
  objects, and those equal no name. -/
  hostNames : Finset Text
  vars : Text → Option Json
  childGroups : List Text
  parentGroups : List Text
  hostsCache : Option (Finset Text)
  priority : ℤ

def Group.new : Group where
  depth := 0
  hosts := []
  hostNames := ∅
  vars _ := none
  childGroups := []
  parentGroups := []
  hostsCache := none
  priority := 1

/-- A host that an inventory source names. -/
structure Host where
  vars : Text → Option Json
  groups : Finset Text

namespace Host

def setVariable (host : Host) (key : Text) (value : Json) : Host :=
  { host with vars := Function.update host.vars key (some value) }

/-- `Host(name, port)`. -/
def new (port : Json) : Except AnsibleError Host :=
  let blank : Host := ⟨fun _ => none, ∅⟩
  if port.truthy then
    match port.toInt with
    | some n => .ok (blank.setVariable "ansible_port".toList (.num n))
    | none => .error (.notAnInteger port)
  else .ok blank

end Host

/-- The groups and hosts, by name; other names stand for objects not made yet. -/
structure InventoryData where
  groupNames : List Text
  group : Text → Group
  hostNames : List Text
  host : Text → Host
  /-- `_groups_dict_cache`, empty where it is to be computed. -/
  groupsDictCache : List (Text × Finset Text)
  currentSource : Option Text

/-- The group of all hosts, and the group of those in no other. -/
def allGroup : Text := "all".toList
def ungroupedGroup : Text := "ungrouped".toList

theorem ungroupedGroup_ne : ungroupedGroup ≠ allGroup := by decide

namespace InventoryData

/-- The relations that everything else is derived from. -/
def hierarchy (s : InventoryData) : Hierarchy Text Text where
  child p c := c ∈ (s.group p).childGroups
  direct g h := h ∈ (s.group g).hosts

variable (py : Interpreter) (s : InventoryData)

def modifyGroup (g : Text) (f : Group → Group) : InventoryData :=
  { s with group := Function.update s.group g (f (s.group g)) }

def modifyHost (h : Text) (f : Host → Host) : InventoryData :=
  { s with host := Function.update s.host h (f (s.host h)) }

/-! ## Groups and hosts -/

def children (g : Text) : Finset Text := (s.group g).childGroups.toFinset
def parents (g : Text) : Finset Text := (s.group g).parentGroups.toFinset

/-- More rounds than any walk over the groups takes. -/
def rounds : ℕ := s.groupNames.length + 2

/-- `get_ancestors()`. -/
def getAncestors (g : Text) : Finset Text := Worklist.walk s.parents s.rounds ∅ (s.parents g)

/-- `get_descendants(include_self=True)`. -/
def getDescendants (g : Text) : Finset Text :=
  Worklist.walk s.children s.rounds ∅ (insert g (s.children g))

/-- `_get_hosts()`: the hosts of the group and of those below it. -/
def hostsBelow (g : Text) : Finset Text :=
  (s.getDescendants g).biUnion fun d => (s.group d).hosts.toFinset

/-- `get_hosts()`, through the cache. -/
def getHosts (g : Text) : Finset Text × InventoryData :=
  match (s.group g).hostsCache with
  | some hosts => (hosts, s)
  | none =>
    let hosts := s.hostsBelow g
    (hosts, s.modifyGroup g fun x => { x with hostsCache := some hosts })

/-- The caches that hold hosts of the group are its own and its ancestors'. -/
def clearHostsCache (g : Text) : InventoryData :=
  { s with group := fun x =>
      if x = g ∨ x ∈ s.getAncestors g then { s.group x with hostsCache := none } else s.group x }

/-- `_check_children_depth()`. -/
def checkChildrenDepth (g : Text) : Except AnsibleError InventoryData :=
  let depth := (s.group g).depth
  match Worklist.raiseLevels s.children depth s.rounds depth ∅ (s.children g)
      fun x => (s.group x).depth with
  | some levels => .ok { s with group := fun x => { s.group x with depth := levels x } }
  | none => .error (.loopBelow g)

/-- `populate_ancestors(additions)` for each host of a set. -/
def populateAncestors (hosts additions : Finset Text) : InventoryData :=
  { s with host := fun h =>
      if h ∈ hosts then { s.host h with groups := (s.host h).groups ∪ additions } else s.host h }

def appendChild (p c : Text) : InventoryData :=
  s.modifyGroup p fun x => { x with childGroups := x.childGroups ++ [c] }

def deepen (c : Text) (depth : ℕ) : InventoryData :=
  s.modifyGroup c fun x => { x with depth := max depth x.depth }

def appendParent (c p : Text) : InventoryData :=
  s.modifyGroup c fun x => { x with parentGroups := x.parentGroups ++ [p] }

/-- The last part of `add_child_group`: the child learns its parent, and the hosts below it learn
their new groups. -/
def linkParent (p c : Text) (newAncestors : Finset Text) : InventoryData :=
  if p ∈ (s.group c).parentGroups then s
  else
    let (hosts, s) := (s.appendParent c p).getHosts c
    s.populateAncestors hosts newAncestors

/-- `p.add_child_group(c)`. -/
def addChildGroup (p c : Text) : Except AnsibleError InventoryData :=
  if p = c then .error .selfChild
  else if c ∈ (s.group p).childGroups then .ok s
  else
    let startAncestors := s.getAncestors c
    let ancestors := s.getAncestors p
    if c ∈ ancestors then .error (.recursiveLoop c p)
    else do
      let newAncestors := insert p ancestors \ startAncestors
      let s ← ((s.appendChild p c).deepen c ((s.group p).depth + 1)).checkChildrenDepth c
      return (s.linkParent p c newAncestors).clearHostsCache p

/-- `host.add_group(group)`. -/
def hostAddGroup (h g : Text) : InventoryData :=
  s.modifyHost h fun x => { x with groups := insert g (x.groups ∪ s.getAncestors g) }

def appendHost (g h : Text) : InventoryData :=
  s.modifyGroup g fun x => { x with hosts := x.hosts ++ [h], hostNames := insert h x.hostNames }

/-- `group.add_host(host)`. -/
def groupAddHost (g h : Text) : InventoryData :=
  if h ∈ (s.group g).hostNames then s
  else ((s.appendHost g h).hostAddGroup h g).clearHostsCache g

/-- The groups of a host after `remove_group(g)`: ancestors that no other group of it has go
too, in some order, but not `all`.  Each call within a call has one group less, so as many
levels of calls as there are groups are enough. -/
def removeGroupFrom : ℕ → Finset Text → Text → Finset Text
  | 0, groups, _ => groups
  | n + 1, groups, g =>
    if g ∈ groups then
      (py.order (s.getAncestors g)).foldl (fun groups oldg =>
        if oldg = allGroup ∨ ∃ childg ∈ groups, oldg ∈ s.getAncestors childg then groups
        else removeGroupFrom n groups oldg) (groups.erase g)
    else groups

/-- `host.remove_group(group)`. -/
def hostRemoveGroup (h g : Text) : InventoryData :=
  s.modifyHost h fun x => { x with groups := s.removeGroupFrom py x.groups.card x.groups g }

def eraseHost (g h : Text) : InventoryData :=
  s.modifyGroup g fun x =>
    { x with hosts := x.hosts.erase h, hostNames := x.hostNames.erase h }

/-- `group.remove_host(host)`. -/
def groupRemoveHost (g h : Text) : InventoryData :=
  if h ∈ (s.group g).hostNames then ((s.eraseHost g h).hostRemoveGroup py h g).clearHostsCache g
  else s

/-- `group.set_variable(key, value)`: one key sets the priority instead. -/
def groupSetVariable (g key : Text) (value : Json) : Except AnsibleError InventoryData :=
  if key = "ansible_group_priority".toList then
    match value.toInt with
    | some n => .ok (s.modifyGroup g fun x => { x with priority := n })
    | none => .error (.notAnInteger value)
  else .ok (s.modifyGroup g fun x => { x with vars := Function.update x.vars key (some value) })

/-! ## The inventory -/

def createGroup (name : Text) : InventoryData :=
  { s with
    groupNames := s.groupNames ++ [name]
    group := Function.update s.group name Group.new
    groupsDictCache := [] }

/-- `add_group(group)`, with the name actually used. -/
def addGroup (group : Json) : Except AnsibleError (Text × InventoryData) :=
  if group.truthy then
    match group with
    | .str name =>
      if name ∈ s.groupNames then .ok (name, s)
      else
        let safe := py.toSafeGroupName name
        if safe ∈ s.groupNames then .ok (safe, s) else .ok (safe, s.createGroup safe)
    | _ => .error (.groupNameType group)
  else .error (.emptyGroupName group)

/-- `set_variable(entity, varname, value)`; a name may belong to a group and to a host. -/
def setVariable (entity varname : Text) (value : Json) : Except AnsibleError InventoryData :=
  if entity ∈ s.groupNames then s.groupSetVariable entity varname value
  else if entity ∈ s.hostNames then .ok (s.modifyHost entity (·.setVariable varname value))
  else .error (.unknownEntity entity)

def insertHost (name : Text) (h : Host) : InventoryData :=
  { s with hostNames := s.hostNames ++ [name], host := Function.update s.host name h }

/-- The variables that tell where a host was first met. -/
def recordSource (name : Text) : Except AnsibleError InventoryData :=
  match s.currentSource with
  | some (c :: rest) => do
    let s ← s.setVariable name "inventory_file".toList (.str (c :: rest))
    s.setVariable name "inventory_dir".toList (py.basedir (c :: rest))
  | _ => do
    let s ← s.setVariable name "inventory_file".toList .null
    s.setVariable name "inventory_dir".toList .null

/-- The part of `add_host` that makes a host. -/
def createHost (name : Text) (port : Json) : Except AnsibleError InventoryData := do
  let h ← Host.new port
  (s.insertHost name h).recordSource py name

/-- The object for a host, made if there is none. -/
def ensureHost (name : Text) (port : Json) : Except AnsibleError InventoryData :=
  if name ∈ s.hostNames then .ok s else s.createHost py name port

/-- `add_host(host, group, port)`; an empty name of a group counts as none. -/
def addHost (host : Json) (group : Option Text) (port : Json) :
    Except AnsibleError InventoryData :=
  if host.truthy then
    match host with
    | .str name =>
      match group.filter (· ≠ []) with
      | some g =>
        if g ∈ s.groupNames then do
          let s ← s.ensureHost py name port
          return { s.groupAddHost g name with groupsDictCache := [] }
        else .error (.unknownGroup g)
      | none => s.ensureHost py name port
    | _ => .error (.hostNameType host)
  else .error (.emptyHostName host)

/-- `add_child(group, child)`: a child that is a group is added as one, even if it is a host. -/
def addChild (group child : Text) : Except AnsibleError InventoryData :=
  if group ∈ s.groupNames then
    if child ∈ s.groupNames then do
      let s ← s.addChildGroup group child
      return { s with groupsDictCache := [] }
    else if child ∈ s.hostNames then
      .ok { s.groupAddHost group child with groupsDictCache := [] }
    else .error (.neitherHostNorGroup child)
  else .error (.notAGroup group)

/-- One round of the loop that fills the dictionary. -/
def cacheGroup (g : Text) : InventoryData :=
  let (hosts, s') := s.getHosts g
  { s' with groupsDictCache := s.groupsDictCache ++ [(g, hosts)] }

/-- `get_groups_dict()`, through both caches. -/
def getGroupsDict : List (Text × Finset Text) × InventoryData :=
  if s.groupsDictCache ≠ [] then (s.groupsDictCache, s)
  else
    let s := s.groupNames.foldl cacheGroup s
    (s.groupsDictCache, s)

/-- Every group inherits from `all`. -/
def reconcileGroup (g : Text) : Except AnsibleError InventoryData :=
  if g ≠ allGroup ∧ s.getAncestors g = ∅ then s.addChild allGroup g else .ok s

/-- A host is in `ungrouped` if it is in no other group but `all`. -/
def reconcileHost (h : Text) : Except AnsibleError InventoryData :=
  let mygroups := (s.host h).groups
  if ungroupedGroup ∈ mygroups then
    if mygroups \ {allGroup, ungroupedGroup} ≠ ∅ then
      .ok (s.groupRemoveHost py ungroupedGroup h)
    else .ok s
  else if mygroups.card = 0 ∨ mygroups.card = 1 ∧ allGroup ∈ mygroups then
    s.addChild ungroupedGroup h
  else .ok s

/-- `reconcile_inventory()`. -/
def reconcileInventory : Except AnsibleError InventoryData := do
  let s := { s with currentSource := none }
  let s ← s.groupNames.foldlM (·.reconcileGroup ·) s
  let s ← s.hostNames.foldlM (·.reconcileHost py ·) s
  return { s with groupsDictCache := [] }

/-- No groups and no hosts. -/
def blank : InventoryData := ⟨[], fun _ => Group.new, [], fun _ => ⟨fun _ => none, ∅⟩, [], none⟩

/-- `InventoryData()`. -/
def init : Except AnsibleError InventoryData := do
  let (_, s) ← blank.addGroup py (.str allGroup)
  let (_, s) ← s.addGroup py (.str ungroupedGroup)
  s.addChild allGroup ungroupedGroup

end InventoryData

/-- What the users of an inventory do with it. -/
inductive Command where
  | addGroup (group : Json)
  | addHost (host : Json) (group : Option Text) (port : Json)
  | addChild (group child : Text)
  | setVariable (entity varname : Text) (value : Json)
  | setSource (source : Option Text)
  | getHosts (group : Text)
  | getGroupsDict
  | reconcileInventory

/-- Carry out a command; one that raises changes nothing. -/
def InventoryData.apply (py : Interpreter) (s : InventoryData) :
    Command → Except AnsibleError InventoryData
  | .addGroup group => Prod.snd <$> s.addGroup py group
  | .addHost host group port => s.addHost py host group port
  | .addChild group child => s.addChild group child
  | .setVariable entity varname value => s.setVariable entity varname value
  | .setSource source => .ok { s with currentSource := source }
  | .getHosts group => .ok (s.getHosts group).2
  | .getGroupsDict => .ok s.getGroupsDict.2
  | .reconcileInventory => s.reconcileInventory py

end Ansible
