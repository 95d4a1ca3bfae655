import KubVagrant.Ansible.Script
import KubVagrant.Inv2Prop

/-!
# From the properties file to the inventory Ansible works with

`inv2prop.py` is an inventory script: Ansible runs it, carries its output into a new inventory and
reconciles that.  `load` is Ansible's part.  `load_spec` says for which files it succeeds, and what
Ansible works with then: the groups `mysql` and `apache` have the hosts that the properties list,
`all` has both, no host is in `ungrouped`, and the variables of `mysql` are those of the
properties.

## Main definitions

* `Dumped` — the output of the script, with its dictionaries in any order.
* `load` — from the output to the reconciled inventory.
* `Serves` — what Ansible answers from then on.
-/

namespace Ansible
open Relation Unix Python Loops KubVagrant InventoryData Script

/-! ## The output of the script -/

/-- The key of a group. -/
def groupText : GroupName → Text
  | .all => allGroup
  | .apache => "apache".toList
  | .mysql => "mysql".toList

def metaKey : Text := "_meta".toList

/-- The items of a dictionary of texts, in any order. -/
def ItemsOf (d : Dict) (items : List (Text × Json)) : Prop :=
  (items.map Prod.fst).Nodup ∧
    ∀ key data, (key, data) ∈ items ↔ ∃ t, d key = some t ∧ data = .str t

/-- What `json.dumps` makes of a group. -/
def DumpedGroup (inv : Inventory) (n : GroupName) (data : Json) : Prop :=
  ∃ entries items, data = .obj entries ∧ ItemsOf (inv.vars n) items ∧
    entries.Perm [("hosts".toList, .arr ((inv.hosts n).map .str)), ("vars".toList, .obj items)]

/-- What the script prints, with its dictionaries in any order. -/
def Dumped (inv : Inventory) (processed : Json) : Prop :=
  ∃ entries hostvars, ∃ data : GroupName → Json, processed = .obj entries ∧
    ItemsOf inv.hostvars hostvars ∧ (∀ n, DumpedGroup inv n (data n)) ∧
      entries.Perm [(groupText .all, data .all), (groupText .apache, data .apache),
        (groupText .mysql, data .mysql), (metaKey, .obj [("hostvars".toList, .obj hostvars)])]

/-! ## Dictionaries in any order -/

theorem lookup_eq_some_iff {entries : List (Text × Json)} {key : Text} {data : Json}
    (hnodup : (entries.map Prod.fst).Nodup) :
    Json.lookup entries key = some data ↔ (key, data) ∈ entries := by
  refine ⟨mem_of_lookup, fun hmem => ?_⟩
  induction entries with
  | nil => exact absurd hmem List.not_mem_nil
  | cons entry entries ih =>
    rw [List.map_cons, List.nodup_cons] at hnodup
    rw [lookup_cons]
    rcases List.mem_cons.mp hmem with rfl | hmem
    · exact if_pos rfl
    · have hne : entry.1 ≠ key := fun heq => hnodup.1 (heq ▸ List.mem_map_of_mem hmem)
      rw [if_neg hne]
      exact ih hnodup.2 hmem

theorem lookup_perm {entries entries' : List (Text × Json)} (hperm : entries.Perm entries')
    (hnodup : (entries'.map Prod.fst).Nodup) (key : Text) :
    Json.lookup entries key = Json.lookup entries' key := by
  have hnodup₁ : (entries.map Prod.fst).Nodup := (hperm.map Prod.fst).nodup_iff.mpr hnodup
  ext data
  rw [lookup_eq_some_iff hnodup₁, lookup_eq_some_iff hnodup, hperm.mem_iff]

theorem ItemsOf.lookup {d : Dict} {items : List (Text × Json)} (h : ItemsOf d items) (key : Text) :
    Json.lookup items.reverse key = (d key).map .str := by
  have hnodup : (items.reverse.map Prod.fst).Nodup := by
    rw [List.map_reverse, List.nodup_reverse]
    exact h.1
  ext data
  rw [lookup_eq_some_iff hnodup, List.mem_reverse, h.2, Option.map_eq_some_iff]
  exact exists_congr fun t => and_congr_right' eq_comm

theorem itemsOf_empty {items : List (Text × Json)} (h : ItemsOf Dict.empty items) : items = [] := by
  refine List.eq_nil_iff_forall_not_mem.mpr fun entry hmem => ?_
  rcases (h.2 entry.1 entry.2).mp hmem with ⟨t, ht, _⟩
  cases ht

theorem DumpedGroup.plainEntry {inv : Inventory} {n : GroupName} {data : Json}
    (h : DumpedGroup inv n data) :
    ∃ items, ItemsOf (inv.vars n) items ∧ PlainEntry data (inv.hosts n) items := by
  rcases h with ⟨entries, items, rfl, hitems, hperm⟩
  have hnodup : ([("hosts".toList, Json.arr ((inv.hosts n).map .str)),
      ("vars".toList, Json.obj items)].map Prod.fst).Nodup := by
    have hkeys : ["hosts".toList, "vars".toList].Nodup := by decide
    exact hkeys
  have hne : "hosts".toList ≠ "vars".toList ∧ "hosts".toList ≠ "children".toList ∧
      "vars".toList ≠ "children".toList := by decide
  refine ⟨items, hitems, entries, rfl, ?_, ?_, ?_⟩
  · rw [lookup_perm hperm hnodup, lookup_cons, if_pos rfl]
  · rw [lookup_perm hperm hnodup, lookup_cons, if_neg hne.1, lookup_cons, if_pos rfl]
  · rw [lookup_perm hperm hnodup, lookup_cons, if_neg hne.2.1, lookup_cons, if_neg hne.2.2]
    rfl

/-! ## The names of the groups -/

theorem groupText_injective : Function.Injective groupText := by
  intro n n' h
  cases n <;> cases n' <;> first | rfl | exact absurd h (by decide)

theorem groupText_ne (n : GroupName) :
    groupText n ≠ [] ∧ groupText n ≠ metaKey ∧ groupText n ≠ ungroupedGroup := by
  cases n <;> decide

theorem toSafeGroupName_groupText (py : Interpreter) (n : GroupName) :
    py.toSafeGroupName (groupText n) = groupText n := by
  refine py.toSafeGroupName_of_isAlpha ?_
  cases n <;> decide

/-! ## Reading the groups -/

/-- The keys an entry of the output has. -/
def keys (entries : List (Text × Json)) : List Text := entries.map Prod.fst

/-- The output, entry by entry. -/
structure Entries (inv : Inventory) (entries : List (Text × Json)) : Prop where
  nodup : (keys entries).Nodup
  /-- Every entry is a group or has the variables of hosts, of which there are none. -/
  entry : ∀ e ∈ entries, (∃ n, e.1 = groupText n ∧ DumpedGroup inv n e.2) ∨
    e = (metaKey, .obj [("hostvars".toList, .obj [])])
  group_mem : ∀ n, groupText n ∈ keys entries
  meta_mem : metaKey ∈ keys entries

theorem Dumped.entries {inv : Inventory} {processed : Json} (hdump : Dumped inv processed)
    (hvars : inv.hostvars = Dict.empty) :
    ∃ entries, processed = .obj entries ∧ Entries inv entries := by
  rcases hdump with ⟨entries, hostvars, data, rfl, hitems, hdata, hperm⟩
  rw [hvars] at hitems
  cases itemsOf_empty hitems
  have hkeys : (keys entries).Perm
      [groupText .all, groupText .apache, groupText .mysql, metaKey] := hperm.map Prod.fst
  refine ⟨entries, rfl, hkeys.nodup_iff.mpr (by decide), ?_, ?_, ?_⟩
  · intro e he
    rw [hperm.mem_iff] at he
    simp only [List.mem_cons, List.not_mem_nil, or_false] at he
    rcases he with rfl | rfl | rfl | rfl
    · exact Or.inl ⟨.all, rfl, hdata .all⟩
    · exact Or.inl ⟨.apache, rfl, hdata .apache⟩
    · exact Or.inl ⟨.mysql, rfl, hdata .mysql⟩
    · exact Or.inr rfl
  · intro n
    rw [hkeys.mem_iff]
    cases n <;> simp
  · rw [hkeys.mem_iff]
    simp

/-- What the plugin has carried over from the first entries. -/
structure Progress (inv : Inventory) (done : List (Text × Json)) (p : Parser) : Prop where
  consistent : p.inventory.Consistent
  dictCurrent : p.inventory.DictCurrent
  groupNames_iff : ∀ g, g ∈ p.inventory.groupNames ↔ g = allGroup ∨ g = ungroupedGroup ∨
    ∃ n, g = groupText n ∧ groupText n ∈ keys done
  hostNames_iff : ∀ h, h ∈ p.inventory.hostNames ↔ ∃ n, groupText n ∈ keys done ∧ h ∈ inv.hosts n
  child_iff : ∀ x y, p.inventory.hierarchy.child x y ↔ x = allGroup ∧ y = ungroupedGroup
  direct_iff : ∀ g h, p.inventory.hierarchy.direct g h ↔
    ∃ n, g = groupText n ∧ groupText n ∈ keys done ∧ h ∈ inv.hosts n
  found_iff : ∀ h, h ∈ p.hosts ↔ ∃ n, groupText n ∈ keys done ∧ h ∈ inv.hosts n
  vars : ∀ n key, key ∉ sourceKeys → p.inventory.groupVars (groupText n) key =
    if groupText n ∈ keys done then (inv.vars n key).map .str else none

/-- A group in the properties has no variable that is kept elsewhere. -/
def Unreserved (inv : Inventory) : Prop :=
  ∀ n, inv.vars n "ansible_group_priority".toList = none

theorem ItemsOf.unreserved {inv : Inventory} {n : GroupName} {items : List (Text × Json)}
    (hitems : ItemsOf (inv.vars n) items) (hinv : Unreserved inv) :
    ∀ entry ∈ items, entry.1 ≠ "ansible_group_priority".toList := by
  intro entry hmem heq
  rcases (hitems.2 entry.1 entry.2).mp hmem with ⟨t, ht, _⟩
  rw [heq, hinv n] at ht
  cases ht

theorem keys_concat (done : List (Text × Json)) (e : Text × Json) :
    keys (done ++ [e]) = keys done ++ [e.1] := List.map_append

/-- One more group. -/
theorem Progress.filled {inv : Inventory} {done : List (Text × Json)} {p p' : Parser}
    {n : GroupName} {e : Text × Json} {items : List (Text × Json)} (hp : Progress inv done p)
    (he : e.1 = groupText n) (hnew : groupText n ∉ keys done)
    (hitems : ItemsOf (inv.vars n) items)
    (hf : Filled p (groupText n) (inv.hosts n) items p') : Progress inv (done ++ [e]) p' := by
  have hmem : ∀ m, groupText m ∈ keys (done ++ [e]) ↔ groupText m ∈ keys done ∨ m = n := by
    intro m
    rw [keys_concat, List.mem_append, List.mem_singleton, he, groupText_injective.eq_iff]
  have hlisted : ∀ h, (∃ m, groupText m ∈ keys (done ++ [e]) ∧ h ∈ inv.hosts m) ↔
      (∃ m, groupText m ∈ keys done ∧ h ∈ inv.hosts m) ∨ h ∈ inv.hosts n := by
    intro h
    simp only [hmem, or_and_right, exists_or, exists_eq_left]
  refine ⟨hf.consistent, hf.dictCurrent, ?_, ?_, ?_, ?_, ?_, ?_⟩
  · intro g
    rw [hf.groupNames_iff, hp.groupNames_iff]
    simp only [hmem, and_or_left, exists_or, exists_eq_right, or_assoc]
  · intro h
    rw [hf.hostNames_iff, hp.hostNames_iff, hlisted]
  · intro x y
    rw [hf.child, hp.child_iff]
  · intro g h
    rw [hf.direct_iff, hp.direct_iff]
    simp only [hmem, and_or_left, or_and_right, exists_or, exists_eq_left, and_left_comm]
  · intro h
    rw [hf.found, Finset.mem_union, List.mem_toFinset, hp.found_iff, hlisted]
  · intro m key hkey
    simp only [hmem]
    by_cases hm : m = n
    · subst hm
      have hold : p.inventory.groupVars (groupText m) key = none := by
        rw [hp.vars m key hkey, if_neg hnew]
      rw [hf.vars_self key hkey, hitems.lookup, hold, ite_self, Option.or_none,
        if_pos (Or.inr rfl)]
    · rw [hf.vars_of_ne _ key (groupText_injective.ne hm) hkey, hp.vars m key hkey]
      simp only [hm, or_false]

/-- One more entry that is no group. -/
theorem Progress.skip {inv : Inventory} {done : List (Text × Json)} {p : Parser}
    {e : Text × Json} (hp : Progress inv done p) (he : e.1 = metaKey) :
    Progress inv (done ++ [e]) p := by
  have hmem : ∀ m, groupText m ∈ keys (done ++ [e]) ↔ groupText m ∈ keys done := by
    intro m
    rw [keys_concat, List.mem_append, List.mem_singleton, he]
    exact or_iff_left (groupText_ne m).2.1
  refine ⟨hp.consistent, hp.dictCurrent, ?_, ?_, hp.child_iff, ?_, ?_, ?_⟩
  · simpa only [hmem] using hp.groupNames_iff
  · simpa only [hmem] using hp.hostNames_iff
  · simpa only [hmem] using hp.direct_iff
  · simpa only [hmem] using hp.found_iff
  · simpa only [hmem] using hp.vars

/-- With the variables of hosts. -/
def ProgressWithMeta (inv : Inventory) (done : List (Text × Json))
    (state : Parser × Option Json) : Prop :=
  Progress inv done state.1 ∧ (metaKey ∈ keys done → state.2 = some (.obj []))

variable {py : Interpreter} {inv : Inventory} {entries done rest : List (Text × Json)}
  {e : Text × Json} {state state' : Parser × Option Json}

theorem Entries.notMem (hentries : Entries inv entries) (hsplit : entries = done ++ e :: rest) :
    e.1 ∉ keys done := by
  have hnodup := hentries.nodup
  rw [hsplit, keys, List.map_append, List.map_cons, List.nodup_append] at hnodup
  intro hmem
  exact hnodup.2.2 e.1 hmem e.1 List.mem_cons_self rfl

theorem parseEntry_group (h : e.1 ≠ metaKey) : parseEntry py state e = (do
    let p ← parseGroup py state.1 e.1 e.2
    return (p, state.2)) := if_neg h

theorem parseEntry_meta (py : Interpreter) (state : Parser × Option Json) :
    parseEntry py state (metaKey, .obj [("hostvars".toList, .obj [])]) =
      .ok (state.1, some (.obj [])) := rfl

theorem step_parseEntry (py : Interpreter) (hinv : Unreserved inv)
    (hentries : Entries inv entries) :
    Step (parseEntry py) entries (ProgressWithMeta inv) := by
  intro done e rest state state' hsplit hstate hok
  have hnew := hentries.notMem hsplit
  rcases hentries.entry e (by simp [hsplit]) with ⟨n, hn, hdata⟩ | rfl
  · have hmeta : e.1 ≠ metaKey := hn ▸ (groupText_ne n).2.1
    rw [parseEntry_group hmeta] at hok
    rcases bind_eq_ok hok with ⟨p', hgroup, hret⟩
    cases hret
    rcases hdata.plainEntry with ⟨items, hitems, hplain⟩
    rw [hn] at hgroup hnew
    have hf := parseGroup_plain hplain (groupText_ne n).1 (toSafeGroupName_groupText py n)
      (hitems.unreserved hinv) hstate.1.consistent hstate.1.dictCurrent hgroup
    refine ⟨hstate.1.filled hn hnew hitems hf, fun hmem => hstate.2 ?_⟩
    rw [keys_concat, List.mem_append, List.mem_singleton] at hmem
    exact hmem.resolve_right hmeta.symm
  · rw [parseEntry_meta] at hok
    cases hok
    exact ⟨hstate.1.skip rfl, fun _ => rfl⟩

/-- An entry is accepted if its hosts have names. -/
theorem parseEntry_isOk_iff (hinv : Unreserved inv) (hentries : Entries inv entries)
    (hmem : e ∈ entries) (hp : Progress inv done state.1) :
    (∃ state', parseEntry py state e = .ok state') ↔
      ∀ n, e.1 = groupText n → ∀ h ∈ inv.hosts n, h ≠ [] := by
  rcases hentries.entry e hmem with ⟨n, hn, hdata⟩ | rfl
  · have hmeta : e.1 ≠ metaKey := hn ▸ (groupText_ne n).2.1
    rcases hdata.plainEntry with ⟨items, hitems, hplain⟩
    have hiff := parseGroup_isOk_iff hplain (groupText_ne n).1
      (toSafeGroupName_groupText py n) (hitems.unreserved hinv) hp.consistent hp.dictCurrent
    simp only [hn, groupText_injective.eq_iff, forall_eq']
    rw [← hiff, parseEntry_group hmeta, hn]
    constructor
    · intro hok
      rcases hok with ⟨state', hok⟩
      rcases bind_eq_ok hok with ⟨p', hgroup, _⟩
      exact ⟨p', hgroup⟩
    · intro hok
      rcases hok with ⟨p', hgroup⟩
      exact ⟨(p', state.2), by rw [hgroup]; rfl⟩
  · refine iff_of_true ⟨_, parseEntry_meta py state⟩ fun n hn => ?_
    exact absurd hn.symm (groupText_ne n).2.1

/-! ## The variables of hosts -/

/-- There are none, and the hosts are known. -/
theorem populateHostVars_eq {p : Parser} {host : Text} (hne : host ≠ [])
    (hhost : host ∈ p.inventory.hostNames) : populateHostVars py p host (.obj []) = .ok p := by
  have htruthy : (Json.str host).truthy = true := by simpa [Json.truthy] using hne
  have hadd : p.inventory.addHost py (.str host) none .null = .ok p.inventory := by
    rw [InventoryData.addHost, if_pos htruthy]
    simp only [Option.filter_none, ensureHost, if_pos hhost]
  rw [populateHostVars, hadd]
  rfl

theorem foldlM_populateHostVars (py : Interpreter) {p : Parser} {names : List Text}
    (hnames : ∀ h ∈ names, h ≠ [] ∧ h ∈ p.inventory.hostNames)
    (hostVariables : Text → Except ParserError Json) :
    names.foldlM (fun p host => do
      let got ← hostInfo hostVariables (some (.obj [])) host
      populateHostVars py p host got) p = .ok p := by
  induction names with
  | nil => rfl
  | cons host names ih =>
    have hhost := hnames host List.mem_cons_self
    have hround : (do
        let got ← hostInfo hostVariables (some (.obj [])) host
        populateHostVars py p host got) = .ok p := populateHostVars_eq hhost.1 hhost.2
    rw [List.foldlM_cons, hround]
    exact ih fun h hh => hnames h (List.mem_cons_of_mem host hh)

/-! ## A new inventory -/

theorem groupVars_addGroup {s s' : InventoryData} {group : Json} {name : Text}
    (hvars : ∀ g, s.groupVars g = fun _ => none) (hok : s.addGroup py group = .ok (name, s')) :
    ∀ g, s'.groupVars g = fun _ => none := by
  rcases addGroup_cases hok with ⟨_, rfl⟩ | ⟨_, rfl⟩
  · exact hvars
  · intro g
    rw [groupVars_createGroup]
    split
    · rfl
    · exact hvars g

theorem groupVars_init {s : InventoryData} (hok : init py = .ok s) :
    ∀ g, s.groupVars g = fun _ => none := by
  rcases bind_eq_ok hok with ⟨⟨_, s₁⟩, hall, hrest⟩
  rcases bind_eq_ok hrest with ⟨⟨_, s₂⟩, hungrouped, hchild⟩
  rw [groupVars_addChild hchild]
  exact groupVars_addGroup (groupVars_addGroup (fun _ => rfl) hall) hungrouped

/-- At the start no entry has been read. -/
theorem progress_init (inv : Inventory) (source : Option Text) {s : InventoryData}
    (hok : init py = .ok s) : Progress inv [] ⟨{ s with currentSource := source }, ∅⟩ := by
  rcases init_spec py with ⟨s₁, hok₁, hcons, hdict, hgroups, hhosts, hhier⟩
  rw [hok₁] at hok
  cases hok
  have hchild : ∀ x y, s.hierarchy.child x y ↔ x = allGroup ∧ y = ungroupedGroup := by
    intro x y
    rw [hhier]
    exact or_iff_right List.not_mem_nil
  have hdirect : ∀ g h, ¬ s.hierarchy.direct g h := by
    intro g h
    rw [hhier]
    exact List.not_mem_nil
  refine ⟨hcons.setSource source, hdict.congr rfl rfl rfl, ?_, ?_, hchild, ?_, ?_, ?_⟩
  · intro g
    simp only [hgroups, keys, List.map_nil, List.not_mem_nil, and_false, exists_false, or_false,
      List.mem_cons]
  · intro h
    simp [hhosts, keys]
  · intro g h
    refine iff_of_false (hdirect g h) fun hsome => ?_
    rcases hsome with ⟨n, _, hmem, _⟩
    exact absurd hmem List.not_mem_nil
  · intro h
    simp [keys]
  · intro n key _
    have hnone : s.groupVars (groupText n) key = none :=
      congrFun (groupVars_init hok₁ (groupText n)) key
    exact hnone.trans (if_neg List.not_mem_nil).symm

/-! ## The plugin on the output -/

variable {hostVariables : Text → Except ParserError Json} {source : Text} {processed : Json}
  {s s' : InventoryData} {p : Parser}

/-- After the entries, nothing is left to do for the hosts. -/
theorem parse_eq (hstate : entries.foldlM (parseEntry py) (⟨s, ∅⟩, none) = .ok (p, some (.obj [])))
    (hhosts : ∀ h ∈ p.hosts, h ≠ [] ∧ h ∈ p.inventory.hostNames) :
    parse py hostVariables s (.obj entries) = .ok p.inventory := by
  have hnames : ∀ h ∈ py.order p.hosts, h ≠ [] ∧ h ∈ p.inventory.hostNames := fun h hh =>
    hhosts h ((py.mem_order _ h).mp hh)
  have hloop := foldlM_populateHostVars py hnames hostVariables
  rw [parse, hstate]
  exact congrArg (fun x : Except ParserError Parser => x >>= fun p => .ok p.inventory) hloop

/-- The plugin gets through if every host has a name, and only then, and has carried over every
entry. -/
theorem parse_spec (hostVariables : Text → Except ParserError Json) (hinv : Unreserved inv)
    (hentries : Entries inv entries) (hp : Progress inv [] ⟨s, ∅⟩) :
    ((∃ s', parse py hostVariables s (.obj entries) = .ok s') ↔ ∀ n, ∀ h ∈ inv.hosts n, h ≠ []) ∧
      ∀ s', parse py hostVariables s (.obj entries) = .ok s' →
        ∃ hosts, Progress inv entries ⟨s', hosts⟩ := by
  have hstep := step_parseEntry py hinv hentries
  have hstart : ProgressWithMeta inv [] (⟨s, ∅⟩, none) :=
    ⟨hp, fun hmem => absurd hmem List.not_mem_nil⟩
  have hloop : (∃ state, entries.foldlM (parseEntry py) (⟨s, ∅⟩, none) = .ok state) ↔
      ∀ e ∈ entries, ∀ n, e.1 = groupText n → ∀ h ∈ inv.hosts n, h ≠ [] := by
    refine foldlM_isOk_iff hstep ?_ hstart
    intro done e rest state hsplit hstate
    exact parseEntry_isOk_iff hinv hentries (by simp [hsplit]) hstate.1
  have hfit : (∀ e ∈ entries, ∀ n, e.1 = groupText n → ∀ h ∈ inv.hosts n, h ≠ []) ↔
      ∀ n, ∀ h ∈ inv.hosts n, h ≠ [] := by
    refine ⟨fun hall n => ?_, fun hall e _ n _ => hall n⟩
    rcases List.mem_map.mp (hentries.group_mem n) with ⟨e, he, hn⟩
    exact hall e he n hn
  -- what is left after the entries
  have hrest : ∀ state, entries.foldlM (parseEntry py) (⟨s, ∅⟩, none) = .ok state →
      Progress inv entries state.1 ∧
        parse py hostVariables s (.obj entries) = .ok state.1.inventory := by
    intro state hstate
    have hdone := foldlM_done hstep hstart hstate
    refine ⟨hdone.1, parse_eq (hdone.2 hentries.meta_mem ▸ hstate) fun h hh => ?_⟩
    rcases (hdone.1.found_iff h).mp hh with ⟨n, hn, hmem⟩
    exact ⟨hfit.mp (hloop.mp ⟨state, hstate⟩) n h hmem,
      (hdone.1.hostNames_iff h).mpr ⟨n, hn, hmem⟩⟩
  have hback : ∀ s', parse py hostVariables s (.obj entries) = .ok s' →
      ∃ state, entries.foldlM (parseEntry py) (⟨s, ∅⟩, none) = .ok state := by
    intro s' hok
    rcases bind_eq_ok hok with ⟨state, hstate, _⟩
    exact ⟨state, hstate⟩
  refine ⟨?_, fun s' hok => ?_⟩
  · rw [← hfit, ← hloop]
    constructor
    · intro hok
      rcases hok with ⟨s', hok⟩
      exact hback s' hok
    · intro hok
      rcases hok with ⟨state, hstate⟩
      exact ⟨_, (hrest state hstate).2⟩
  · rcases hback s' hok with ⟨state, hstate⟩
    rcases hrest state hstate with ⟨hprogress, hparse⟩
    rw [hparse] at hok
    cases hok
    exact ⟨state.1.hosts, hprogress⟩

/-! ## Reconciling -/

/-- The groups of the inventory that are not `all` have every host between them. -/
def Covered (inv : Inventory) : Prop := inv.hosts .all = inv.hosts .mysql ++ inv.hosts .apache

theorem Covered.exists_ne_all (hcov : Covered inv) {n : GroupName} {h : Text}
    (hmem : h ∈ inv.hosts n) : ∃ m, m ≠ .all ∧ h ∈ inv.hosts m := by
  cases n with
  | all =>
    rw [hcov, List.mem_append] at hmem
    rcases hmem with hmem | hmem
    · exact ⟨.mysql, by decide, hmem⟩
    · exact ⟨.apache, by decide, hmem⟩
  | apache => exact ⟨.apache, by decide, hmem⟩
  | mysql => exact ⟨.mysql, by decide, hmem⟩

theorem Covered.mem_all_iff (hcov : Covered inv) (h : Text) :
    h ∈ inv.hosts .all ↔ ∃ n, h ∈ inv.hosts n := by
  refine ⟨fun hmem => ⟨.all, hmem⟩, fun hsome => ?_⟩
  rcases hsome with ⟨n, hmem⟩
  rw [hcov, List.mem_append]
  cases n with
  | all => rwa [hcov, List.mem_append] at hmem
  | apache => exact Or.inr hmem
  | mysql => exact Or.inl hmem

/-- The whole output has been carried over. -/
structure Collected (inv : Inventory) (s : InventoryData) : Prop where
  consistent : s.Consistent
  groupNames_iff : ∀ g, g ∈ s.groupNames ↔ g = ungroupedGroup ∨ ∃ n, g = groupText n
  hostNames_iff : ∀ h, h ∈ s.hostNames ↔ ∃ n, h ∈ inv.hosts n
  child_iff : ∀ x y, s.hierarchy.child x y ↔ x = allGroup ∧ y = ungroupedGroup
  direct_iff : ∀ g h, s.hierarchy.direct g h ↔ ∃ n, g = groupText n ∧ h ∈ inv.hosts n
  vars : ∀ n key, key ∉ sourceKeys → s.groupVars (groupText n) key = (inv.vars n key).map .str

theorem Progress.collected {hosts : Finset Text} (hp : Progress inv entries ⟨s, hosts⟩)
    (hmem : ∀ n, groupText n ∈ keys entries) : Collected inv { s with currentSource := none } where
  consistent := hp.consistent.setSource none
  groupNames_iff g := by
    refine (hp.groupNames_iff g).trans ?_
    simp only [hmem, and_true]
    refine ⟨fun h => ?_, Or.inr⟩
    rcases h with rfl | h
    · exact Or.inr ⟨.all, rfl⟩
    · exact h
  hostNames_iff h := by
    refine (hp.hostNames_iff h).trans ?_
    simp only [hmem, true_and]
  child_iff := hp.child_iff
  direct_iff g h := by
    refine (hp.direct_iff g h).trans ?_
    simp only [hmem, true_and]
  vars n key hkey := (hp.vars n key hkey).trans (if_pos (hmem n))

theorem Collected.plain (hs : Collected inv s) (hcov : Covered inv) : s.Plain where
  parent_ungrouped p hchild := ((hs.child_iff p _).mp hchild).1
  no_child_ungrouped c hchild := ungroupedGroup_ne ((hs.child_iff _ c).mp hchild).1
  host_ne_group h hhost halone := by
    rcases (hs.hostNames_iff h).mp hhost with ⟨n, hmem⟩
    rcases hcov.exists_ne_all hmem with ⟨m, hm, hmem⟩
    have hdirect := (hs.direct_iff (groupText m) h).mpr ⟨m, rfl, hmem⟩
    have hne : groupText m ≠ groupText .all := groupText_injective.ne hm
    exact absurd ⟨_, ReflTransGen.refl, hdirect⟩ (halone _ hne (groupText_ne m).2.2)

/-- What the inventory answers: the hosts of every group, the groups of every host, and the
variables of the groups. -/
structure Serves (s : InventoryData) (inv : Inventory) : Prop where
  groupNames_iff : ∀ g, g ∈ s.groupNames ↔ g = ungroupedGroup ∨ ∃ n, g = groupText n
  hostNames_iff : ∀ h, h ∈ s.hostNames ↔ h ∈ inv.hosts .all
  hosts_iff : ∀ n h, h ∈ (s.getHosts (groupText n)).1 ↔ h ∈ inv.hosts n
  ungrouped : (s.getHosts ungroupedGroup).1 = ∅
  groups_iff : ∀ h g, g ∈ (s.host h).groups ↔ ∃ n, g = groupText n ∧ h ∈ inv.hosts n
  vars : ∀ n key, key ∉ sourceKeys → s.groupVars (groupText n) key = (inv.vars n key).map .str

theorem Collected.contains_iff (hs : Collected inv s) (hr : Reconciled s s') (hcov : Covered inv)
    (n : GroupName) (h : Text) : s'.hierarchy.Contains (groupText n) h ↔ h ∈ inv.hosts n := by
  by_cases hn : n = .all
  · subst hn
    rw [hcov.mem_all_iff, ← hs.hostNames_iff]
    refine ⟨fun hc => ?_, hr.contains_all h⟩
    exact hr.sameHosts ▸ (hr.consistent.known_of_contains hc).2
  · have hne : groupText n ≠ allGroup := groupText_injective.ne hn
    have hnone : ∀ c, ¬ s'.hierarchy.child (groupText n) c := by
      intro c hchild
      rcases hr.child_new _ c hchild with hold | ⟨heq, _⟩
      · exact hne ((hs.child_iff _ c).mp hold).1
      · exact hne heq
    rw [Hierarchy.contains_iff_of_no_child hnone, hr.direct_iff _ h (groupText_ne n).2.2,
      hs.direct_iff]
    simp only [groupText_injective.eq_iff, exists_eq_left']

theorem Collected.not_contains_ungrouped (hs : Collected inv s) (hr : Reconciled s s')
    (hcov : Covered inv) (h : Text) : ¬ s'.hierarchy.Contains ungroupedGroup h := by
  rw [Hierarchy.contains_iff_of_no_child hr.plain.no_child_ungrouped]
  intro hdirect
  have hhost : h ∈ s.hostNames := hr.sameHosts ▸ (hr.consistent.known_of_direct _ h hdirect).2
  rcases (hs.hostNames_iff h).mp hhost with ⟨n, hmem⟩
  rcases hcov.exists_ne_all hmem with ⟨m, hm, hmem⟩
  have hne : groupText m ≠ groupText .all := groupText_injective.ne hm
  exact (hr.ungrouped_iff h hhost).mp hdirect _ hne (groupText_ne m).2.2
    ((hs.contains_iff hr hcov m h).mpr hmem)

/-- Nothing was put above `all`, so the inventory can be reconciled. -/
theorem Collected.exists_reconcileInventory (py : Interpreter) (hs : Collected inv s)
    (hcov : Covered inv) : ∃ s', s.reconcileInventory py = .ok s' := by
  have hall : allGroup ∈ s.groupNames := (hs.groupNames_iff _).mpr (Or.inr ⟨.all, rfl⟩)
  have hun : ungroupedGroup ∈ s.groupNames := (hs.groupNames_iff _).mpr (Or.inl rfl)
  refine (reconcileInventory_isOk_iff hs.consistent (hs.plain hcov) hall hun).mpr ?_
  intro p hchild
  exact ungroupedGroup_ne ((hs.child_iff p _).mp hchild).2.symm

theorem Collected.serves (hs : Collected inv s) (hcov : Covered inv)
    (hok : s.reconcileInventory py = .ok s') : Serves s' inv := by
  have hun : ungroupedGroup ∈ s.groupNames := (hs.groupNames_iff _).mpr (Or.inl rfl)
  have hr := reconcileInventory_spec hs.consistent (hs.plain hcov) hun hok
  have hlinked := hr.consistent.toLinked
  have hhosts : ∀ g h, h ∈ (s'.getHosts g).1 ↔ s'.hierarchy.Contains g h := fun g h =>
    mem_getHosts hlinked (hr.consistent.cache_iff g)
  refine ⟨?_, ?_, ?_, ?_, ?_, ?_⟩
  · intro g
    rw [hr.sameGroups, hs.groupNames_iff]
  · intro h
    rw [hr.sameHosts, hs.hostNames_iff, hcov.mem_all_iff]
  · intro n h
    rw [hhosts, hs.contains_iff hr hcov]
  · refine Finset.eq_empty_of_forall_notMem fun h hmem => ?_
    exact hs.not_contains_ungrouped hr hcov h ((hhosts _ h).mp hmem)
  · intro h g
    rw [hr.consistent.groups_iff]
    constructor
    · intro hc
      have hknown : g ∈ s.groupNames := by
        rw [← hr.sameGroups]
        exact (hr.consistent.known_of_contains hc).1
      rcases (hs.groupNames_iff g).mp hknown with rfl | ⟨n, rfl⟩
      · exact absurd hc (hs.not_contains_ungrouped hr hcov h)
      · exact ⟨n, rfl, (hs.contains_iff hr hcov n h).mp hc⟩
    · intro hsome
      rcases hsome with ⟨n, rfl, hmem⟩
      exact (hs.contains_iff hr hcov n h).mpr hmem
  · intro n key hkey
    rw [groupVars_reconcileInventory hok]
    exact hs.vars n key hkey

/-! ## The whole way -/

/-- Ansible with the output of a script as its only source. -/
def load (py : Interpreter) (hostVariables : Text → Except ParserError Json) (source : Text)
    (processed : Json) : Except ParserError InventoryData := do
  let s ← lift (init py)
  let s ← parse py hostVariables { s with currentSource := some source } processed
  lift ({ s with currentSource := none }.reconcileInventory py)

/-- What the script prints comes from the properties of the file. -/
theorem inv2prop_eq_ok {file : Text} (hinv : inv2prop file = .ok inv) :
    ∃ properties : Dict, inv = (translate properties).dump ∧
      ∀ key : Text, key ≠ [] → key.head? ≠ some '#' →
        properties.truthy key = property file key := by
  by_cases hcount : ∀ line ∈ lines '\n' file, line.count '=' = 1
  · refine ⟨_, ?_, fun key hne hhash => truthy_dictOf hcount hne hhash⟩
    rw [inv2prop, loadProperties_of_count hcount] at hinv
    cases hinv
    rfl
  · have hbad : ∃ r ∈ records '\n' file, (chomp '\n' r).count '=' ≠ 1 := by
      simpa [lines] using hcount
    rcases foldlM_loadLine_error hbad Dict.empty with ⟨e, he⟩
    rw [inv2prop, loadProperties, he] at hinv
    exact absurd hinv (by simp [bind, Except.bind])

theorem covered_of_inv2prop {file : Text} (hinv : inv2prop file = .ok inv) : Covered inv := by
  rcases inv2prop_eq_ok hinv with ⟨properties, rfl, _⟩
  rcases hosts_translate properties with ⟨hmysql, hapache, hall⟩
  change (translate properties).hosts .all = (translate properties).hosts .mysql ++
    (translate properties).hosts .apache
  rw [hmysql, hapache, hall]

theorem unreserved_translate (properties : Dict) : Unreserved (translate properties).dump := by
  have hne : "ansible_group_priority".toList ≠ "db_password".toList ∧
      "ansible_group_priority".toList ≠ "db_user".toList := by decide
  intro n
  change (translate properties).vars n _ = none
  by_cases hn : n = .mysql
  · subst hn
    rw [vars_translate, if_neg (fun h => hne.1 h.1), if_neg fun h => hne.2 h.1]
  · rw [vars_translate_of_ne properties hn]
    rfl

/-- The translation is right if and only if every host has a name. -/
theorem translates_iff_names {file : Text} (hinv : inv2prop file = .ok inv) :
    Translates file ↔ ∀ n, ∀ h ∈ inv.hosts n, h ≠ [] := by
  have hright : Translates file ↔ inv = expected file := by
    rw [Translates, hinv, Except.ok.injEq]
  constructor
  · intro htrans n h hmem
    rw [hright.mp htrans] at hmem
    have hlisted : ∀ value, h ∈ hostsOf value → h ≠ [] := by
      intro value hh
      simpa using (List.mem_filter.mp hh).2
    cases n with
    | all => exact (List.mem_append.mp hmem).elim (hlisted _) (hlisted _)
    | apache => exact hlisted _ hmem
    | mysql => exact hlisted _ hmem
  · intro hnames
    rcases inv2prop_eq_ok hinv with ⟨properties, rfl, hprops⟩
    rw [hright, dump_eq_expected_iff hprops]
    rcases hosts_translate properties with ⟨hmysql, hapache, _⟩
    rw [hprops _ (by decide) (by decide)] at hmysql hapache
    have hmem : ∀ key x, property file key ≠ [] → x ∈ (property file key).splitOn ',' →
        strip x ∈ elements (property file key) := by
      intro key x hne hx
      rw [elements, if_neg hne]
      exact List.mem_map_of_mem hx
    intro key hkey hne x hx
    simp only [List.mem_cons, List.not_mem_nil, or_false] at hkey
    rcases hkey with rfl | rfl
    · exact hnames .mysql _ ((congrArg (strip x ∈ ·) hmysql).to_iff.mpr (hmem _ x hne hx))
    · exact hnames .apache _ ((congrArg (strip x ∈ ·) hapache).to_iff.mpr (hmem _ x hne hx))

/-- What carrying over the output gives, up to reconciling. -/
theorem parse_dumped (hostVariables : Text → Except ParserError Json) (source : Text) {file : Text}
    (hinv : inv2prop file = .ok inv) (hdump : Dumped inv processed)
    (hinit : init py = .ok s) :
    ((∃ s', parse py hostVariables { s with currentSource := some source } processed = .ok s') ↔
      Translates file) ∧
    ∀ s', parse py hostVariables { s with currentSource := some source } processed = .ok s' →
      Collected inv { s' with currentSource := none } := by
  rcases inv2prop_eq_ok hinv with ⟨properties, rfl, _⟩
  rcases hdump.entries (hostvars_translate properties) with ⟨entries, rfl, hentries⟩
  rcases parse_spec hostVariables (unreserved_translate properties) hentries
    (progress_init _ (some source) hinit) with ⟨hiff, hspec⟩
  rw [translates_iff_names hinv]
  refine ⟨hiff, fun s' hok => ?_⟩
  rcases hspec s' hok with ⟨hosts, hprogress⟩
  exact hprogress.collected hentries.group_mem

/-- A run that succeeds, in parts. -/
theorem load_parts {hostVariables : Text → Except ParserError Json} {source : Text}
    {s₀ : InventoryData} (hinit : init py = .ok s₀)
    (hok : load py hostVariables source processed = .ok s) :
    ∃ s₁, parse py hostVariables { s₀ with currentSource := some source } processed = .ok s₁ ∧
      { s₁ with currentSource := none }.reconcileInventory py = .ok s := by
  simp only [load, hinit, lift, bind, Except.bind] at hok
  rcases bind_eq_ok (x := parse _ _ _ _) hok with ⟨s₁, hparse, hrec⟩
  exact ⟨s₁, hparse, lift_eq_ok hrec⟩

/-- What is loaded is the inventory of the properties file. -/
theorem serves_of_load {hostVariables : Text → Except ParserError Json} {source file : Text}
    (hinv : inv2prop file = .ok inv) (hdump : Dumped inv processed)
    (hok : load py hostVariables source processed = .ok s) :
    Translates file ∧ Serves s (expected file) := by
  rcases init_spec py with ⟨s₀, hinit, _⟩
  rcases parse_dumped hostVariables source hinv hdump hinit with ⟨hiff, hspec⟩
  rcases load_parts hinit hok with ⟨s₁, hparse, hrec⟩
  have htrans := hiff.mp ⟨s₁, hparse⟩
  have hexpected := htrans
  rw [Translates, hinv, Except.ok.injEq] at hexpected
  rw [← hexpected]
  exact ⟨htrans, (hspec s₁ hparse).serves (covered_of_inv2prop hinv) hrec⟩

theorem exists_load (py : Interpreter) (hostVariables : Text → Except ParserError Json)
    (source : Text) {file : Text} (hinv : inv2prop file = .ok inv) (hdump : Dumped inv processed)
    (htrans : Translates file) : ∃ s, load py hostVariables source processed = .ok s := by
  rcases init_spec py with ⟨s₀, hinit, _⟩
  rcases parse_dumped hostVariables source hinv hdump hinit with ⟨hiff, hspec⟩
  rcases hiff.mpr htrans with ⟨s₁, hparse⟩
  rcases (hspec s₁ hparse).exists_reconcileInventory py (covered_of_inv2prop hinv) with ⟨s₂, hrec⟩
  refine ⟨s₂, ?_⟩
  simp only [load, hinit, lift, bind, Except.bind, hparse]
  rw [hrec]

/-- **Ansible takes the output if and only if it is the inventory of the properties file**, in
whatever order the dictionaries are printed, and then works with exactly that inventory.  It
refuses blank host names, and only those. -/
theorem load_spec (py : Interpreter) (hostVariables : Text → Except ParserError Json)
    (source : Text) {file : Text} (hinv : inv2prop file = .ok inv) (hdump : Dumped inv processed) :
    ((∃ s, load py hostVariables source processed = .ok s) ↔ Translates file) ∧
      ∀ s, load py hostVariables source processed = .ok s → Serves s (expected file) := by
  refine ⟨⟨fun hok => ?_, exists_load py hostVariables source hinv hdump⟩,
    fun s hok => (serves_of_load hinv hdump hok).2⟩
  rcases hok with ⟨s, hok⟩
  exact (serves_of_load hinv hdump hok).1

/-- A properties file. -/
def webFile : Text := "db.host=db1\napache.hosts=web1, web2\ndb.user=root\n".toList

/-- The properties in it. -/
def webProperties : Dict := dictOf (lines '\n' webFile) Dict.empty

def webHosts : GroupName → List Text
  | .all => ["db1".toList, "web1".toList, "web2".toList]
  | .apache => ["web1".toList, "web2".toList]
  | .mysql => ["db1".toList]

def webVars : GroupName → List (Text × Json)
  | .mysql => [("db_user".toList, .str "root".toList)]
  | _ => []

def webGroup (n : GroupName) : Json :=
  .obj [("hosts".toList, .arr ((webHosts n).map .str)), ("vars".toList, .obj (webVars n))]

/-- What the script prints for it, with sorted keys. -/
def webOutput : Json :=
  .obj [(metaKey, .obj [("hostvars".toList, .obj [])]), (groupText .all, webGroup .all),
    (groupText .apache, webGroup .apache), (groupText .mysql, webGroup .mysql)]

theorem inv2prop_webFile : inv2prop webFile = .ok (translate webProperties).dump := by
  rw [inv2prop, loadProperties_of_count (by decide)]
  rfl

theorem hosts_webFile (n : GroupName) : (translate webProperties).hosts n = webHosts n := by
  rcases hosts_translate webProperties with ⟨hmysql, hapache, hall⟩
  cases n with
  | all => exact hall.trans (by decide)
  | apache => exact hapache.trans (by decide)
  | mysql => exact hmysql.trans (by decide)

theorem vars_webFile (name : Text) : (translate webProperties).vars .mysql name =
    if name = "db_user".toList then some "root".toList else none := by
  have hpassword : webProperties.truthy "db.password".toList = [] := by decide
  have huser : webProperties.truthy "db.user".toList = "root".toList := by decide
  have hstrip : strip "root".toList = "root".toList := by decide
  have hne : "root".toList ≠ [] := by decide
  rw [vars_translate, hpassword, huser, hstrip, if_neg fun h => h.2 rfl]
  simp only [and_iff_left hne]

theorem itemsOf_nil : ItemsOf Dict.empty [] := by
  refine ⟨List.nodup_nil, fun key data => iff_of_false List.not_mem_nil fun h => ?_⟩
  rcases h with ⟨t, ht, _⟩
  cases ht

theorem itemsOf_webVars (n : GroupName) :
    ItemsOf ((translate webProperties).vars n) (webVars n) := by
  by_cases hn : n = .mysql
  · subst hn
    refine ⟨List.nodup_singleton _, fun key data => ?_⟩
    simp only [vars_webFile, webVars, List.mem_singleton, Prod.mk.injEq]
    by_cases hkey : key = "db_user".toList
    · simp only [hkey, true_and, if_true, Option.some.injEq, exists_eq_left']
    · simp only [hkey, false_and, if_false, reduceCtorEq, exists_false]
  · have hnil : webVars n = [] := by
      cases n with
      | mysql => exact absurd rfl hn
      | all => rfl
      | apache => rfl
    rw [vars_translate_of_ne _ hn, hnil]
    exact itemsOf_nil

theorem dumped_webOutput : Dumped (translate webProperties).dump webOutput := by
  refine ⟨_, [], webGroup, rfl, ?_, fun n => ⟨_, webVars n, rfl, itemsOf_webVars n, ?_⟩, ?_⟩
  · have hnone : (translate webProperties).dump.hostvars = Dict.empty := hostvars_translate _
    rw [hnone]
    exact itemsOf_nil
  · have hhosts : (translate webProperties).dump.hosts n = webHosts n := hosts_webFile n
    rw [hhosts]
  · exact (List.perm_append_singleton _ [_, _, _]).symm

theorem translates_webFile : Translates webFile := by
  have hnames : ∀ n, ∀ h ∈ webHosts n, h ≠ [] := by
    intro n
    cases n <;> decide
  refine (translates_iff_names inv2prop_webFile).mpr fun n h hmem => hnames n h ?_
  rw [← hosts_webFile n]
  exact hmem

theorem load_spec_webFile : ∃ s, load .python2 (fun _ => .ok (.obj [])) "inv2prop.py".toList
    webOutput = .ok s ∧ Serves s (expected webFile) := by
  rcases load_spec .python2 (fun _ => .ok (.obj [])) "inv2prop.py".toList inv2prop_webFile
    dumped_webOutput with ⟨hiff, hserves⟩
  rcases hiff.mpr translates_webFile with ⟨s, hok⟩
  exact ⟨s, hok, hserves s hok⟩

end Ansible
