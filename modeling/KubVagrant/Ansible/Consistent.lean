import KubVagrant.Ansible.InventoryData
import KubVagrant.Lib.Loops
import Mathlib.Data.Finset.Dedup

/-!
# What every operation on the inventory keeps

The groups of a host, the caches, the depths and the parents are all derived from two relations:
which group is a child of which, and which host is in which group itself.  `Consistent` says
that they agree with these relations; `consistent_of_reachable` says that they do in every state
that commands lead to, whichever the commands and their order.

## Main definitions

* `Linked`, `Consistent` — the invariant; the first part is what walks over the groups need.
* `ChildAdded` — what a new edge between two groups changes.
-/

namespace Ansible
open Relation Unix Loops

namespace InventoryData

/-! ## Walks -/

/-- Children are known groups, and parents are the converse of children. -/
structure Linked (s : InventoryData) : Prop where
  known_of_child : ∀ p c, s.hierarchy.child p c → p ∈ s.groupNames ∧ c ∈ s.groupNames
  parent_iff : ∀ p c, p ∈ (s.group c).parentGroups ↔ s.hierarchy.child p c

variable {s : InventoryData} {g p c x : Text} {h : Text}

theorem mem_children : c ∈ s.children p ↔ s.hierarchy.child p c := List.mem_toFinset

theorem mem_parents (hs : s.Linked) : p ∈ s.parents c ↔ s.hierarchy.child p c :=
  List.mem_toFinset.trans (hs.parent_iff p c)

theorem card_names_lt (s : InventoryData) (g : Text) :
    (insert g s.groupNames.toFinset).card < s.rounds := by
  have hinsert := Finset.card_insert_le g s.groupNames.toFinset
  have hle := s.groupNames.toFinset_card_le
  rw [rounds]
  omega

/-- The descendants of a group, itself included. -/
theorem mem_getDescendants (hs : s.Linked) : x ∈ s.getDescendants g ↔ s.hierarchy.Below g x := by
  have hU : ∀ y ∈ insert g s.groupNames.toFinset,
      s.children y ⊆ insert g s.groupNames.toFinset := by
    intro y _ z hz
    exact Finset.mem_insert_of_mem
      (List.mem_toFinset.mpr (hs.known_of_child y z (mem_children.mp hz)).2)
  have hedge : Worklist.Edge s.children = s.hierarchy.child := by
    ext y z
    exact mem_children
  have hstart : insert g (s.children g) ⊆ insert g s.groupNames.toFinset :=
    Finset.insert_subset (Finset.mem_insert_self _ _) (hU g (Finset.mem_insert_self _ _))
  rw [getDescendants, Worklist.mem_walk hU (s.card_names_lt g) hstart, hedge]
  constructor
  · intro h
    rcases h with ⟨u, hu, hpath⟩
    rcases Finset.mem_insert.mp hu with rfl | hu
    · exact hpath
    · exact ReflTransGen.head (mem_children.mp hu) hpath
  · intro hpath
    exact ⟨g, Finset.mem_insert_self _ _, hpath⟩

/-- The ancestors of a group, itself excluded. -/
theorem mem_getAncestors (hs : s.Linked) :
    x ∈ s.getAncestors g ↔ TransGen s.hierarchy.child x g := by
  have hU : ∀ y ∈ insert g s.groupNames.toFinset,
      s.parents y ⊆ insert g s.groupNames.toFinset := by
    intro y _ z hz
    exact Finset.mem_insert_of_mem
      (List.mem_toFinset.mpr (hs.known_of_child z y ((mem_parents hs).mp hz)).1)
  have hedge : Worklist.Edge s.parents = Function.swap s.hierarchy.child := by
    ext y z
    exact mem_parents hs
  rw [getAncestors, Worklist.mem_walk hU (s.card_names_lt g) (hU g (Finset.mem_insert_self _ _)),
    hedge, ← transGen_swap, TransGen.head'_iff]
  exact exists_congr fun u => and_congr_left' (mem_parents hs)

theorem mem_hostsBelow (hs : s.Linked) : h ∈ s.hostsBelow g ↔ s.hierarchy.Contains g h := by
  simp only [hostsBelow, Finset.mem_biUnion, mem_getDescendants hs, List.mem_toFinset]
  rfl

/-! ## The invariant -/

/-- Everything kept in groups and hosts agrees with the two relations. -/
structure Consistent (s : InventoryData) : Prop extends Linked s where
  known_of_direct : ∀ g h, s.hierarchy.direct g h → g ∈ s.groupNames ∧ h ∈ s.hostNames
  depth_lt : ∀ p c, s.hierarchy.child p c → (s.group p).depth < (s.group c).depth
  depth_tight : ∀ c, (s.group c).depth = 0 ∨
    ∃ p, s.hierarchy.child p c ∧ (s.group c).depth = (s.group p).depth + 1
  hostNames_eq : ∀ g, (s.group g).hostNames = (s.group g).hosts.toFinset
  nodup_hosts : ∀ g, (s.group g).hosts.Nodup
  groups_iff : ∀ g h, g ∈ (s.host h).groups ↔ s.hierarchy.Contains g h
  cache_iff : ∀ g hosts, (s.group g).hostsCache = some hosts →
    ∀ h, h ∈ hosts ↔ s.hierarchy.Contains g h

/-- A dictionary of all groups with their hosts. -/
def Describes (s : InventoryData) (dict : List (Text × Finset Text)) : Prop :=
  dict.map Prod.fst = s.groupNames ∧ ∀ e ∈ dict, ∀ h, h ∈ e.2 ↔ s.hierarchy.Contains e.1 h

/-- The cached dictionary is empty, or what would be computed. -/
def DictCurrent (s : InventoryData) : Prop :=
  s.groupsDictCache = [] ∨ s.Describes s.groupsDictCache

theorem Consistent.acyclic (hs : s.Consistent) : s.hierarchy.Acyclic :=
  Hierarchy.acyclic_of_level hs.depth_lt

theorem Consistent.hosts_eq_nil (hs : s.Consistent) (hg : g ∉ s.groupNames) :
    (s.group g).hosts = [] :=
  List.eq_nil_iff_forall_not_mem.mpr fun h hmem => hg (hs.known_of_direct g h hmem).1

theorem Linked.childGroups_eq_nil (hs : s.Linked) (hg : g ∉ s.groupNames) :
    (s.group g).childGroups = [] :=
  List.eq_nil_iff_forall_not_mem.mpr fun c hmem => hg (hs.known_of_child g c hmem).1

theorem Linked.parentGroups_eq_nil (hs : s.Linked) (hg : g ∉ s.groupNames) :
    (s.group g).parentGroups = [] :=
  List.eq_nil_iff_forall_not_mem.mpr fun p hmem =>
    hg (hs.known_of_child p g ((hs.parent_iff p g).mp hmem)).2

/-- Only known groups contain hosts, and only known ones. -/
theorem Consistent.known_of_contains (hs : s.Consistent) (hc : s.hierarchy.Contains g h) :
    g ∈ s.groupNames ∧ h ∈ s.hostNames := by
  rcases hc with ⟨d, hpath, hdirect⟩
  refine ⟨?_, (hs.known_of_direct d h hdirect).2⟩
  rcases ReflTransGen.cases_head hpath with rfl | ⟨c, hchild, _⟩
  · exact (hs.known_of_direct g h hdirect).1
  · exact (hs.known_of_child g c hchild).1

theorem Consistent.groups_eq_empty (hs : s.Consistent) (hh : h ∉ s.hostNames) :
    (s.host h).groups = ∅ := by
  refine Finset.eq_empty_of_forall_notMem fun g hmem => ?_
  exact hh (hs.known_of_contains ((hs.groups_iff g h).mp hmem)).2

/-! ## Operations that leave the relations alone -/

/-- The relations of two states are the same if the groups have the same children and hosts. -/
theorem hierarchy_congr {s' : InventoryData}
    (hchild : ∀ g, (s'.group g).childGroups = (s.group g).childGroups)
    (hhosts : ∀ g, (s'.group g).hosts = (s.group g).hosts) : s'.hierarchy = s.hierarchy := by
  refine congrArg₂ Hierarchy.mk ?_ ?_
  · funext p c
    rw [hchild p]
  · funext g h
    rw [hhosts g]

/-- Groups that differ in their variables, their priority and their cache at most. -/
structure Alike (x' x : Group) : Prop where
  depth : x'.depth = x.depth
  hosts : x'.hosts = x.hosts
  hostNames : x'.hostNames = x.hostNames
  childGroups : x'.childGroups = x.childGroups
  parentGroups : x'.parentGroups = x.parentGroups

theorem Alike.refl (x : Group) : Alike x x := ⟨rfl, rfl, rfl, rfl, rfl⟩

theorem Alike.trans {x y z : Group} (hxy : Alike x y) (hyz : Alike y z) : Alike x z :=
  ⟨hxy.depth.trans hyz.depth, hxy.hosts.trans hyz.hosts, hxy.hostNames.trans hyz.hostNames,
    hxy.childGroups.trans hyz.childGroups, hxy.parentGroups.trans hyz.parentGroups⟩

/-- States whose groups and hosts differ in variables and caches at most. -/
structure Similar (s' s : InventoryData) : Prop where
  groupNames : s.groupNames ⊆ s'.groupNames
  hostNames : s.hostNames ⊆ s'.hostNames
  group : ∀ g, Alike (s'.group g) (s.group g)
  groups : ∀ h, (s'.host h).groups = (s.host h).groups

variable {s' : InventoryData}

theorem Similar.hierarchy (hsim : Similar s' s) : s'.hierarchy = s.hierarchy :=
  hierarchy_congr (fun g => (hsim.group g).childGroups) fun g => (hsim.group g).hosts

/-- What a change of variables and caches has to leave intact. -/
theorem Consistent.similar (hs : s.Consistent) (hsim : Similar s' s)
    (hcache : ∀ g hosts, (s'.group g).hostsCache = some hosts →
      ∀ h, h ∈ hosts ↔ s.hierarchy.Contains g h) : s'.Consistent where
  known_of_child p c hpc := by
    rw [hsim.hierarchy] at hpc
    exact (hs.known_of_child p c hpc).imp (fun h => hsim.groupNames h) fun h => hsim.groupNames h
  parent_iff p c := by
    rw [(hsim.group c).parentGroups, hsim.hierarchy]
    exact hs.parent_iff p c
  known_of_direct g h hgh := by
    rw [hsim.hierarchy] at hgh
    exact (hs.known_of_direct g h hgh).imp (fun h => hsim.groupNames h) fun h => hsim.hostNames h
  depth_lt p c hpc := by
    rw [hsim.hierarchy] at hpc
    rw [(hsim.group p).depth, (hsim.group c).depth]
    exact hs.depth_lt p c hpc
  depth_tight c := by
    rw [(hsim.group c).depth, hsim.hierarchy]
    refine (hs.depth_tight c).imp_right fun htight => ?_
    rcases htight with ⟨p, hpc, hdepth⟩
    exact ⟨p, hpc, by rw [hdepth, (hsim.group p).depth]⟩
  hostNames_eq g := by
    rw [(hsim.group g).hostNames, (hsim.group g).hosts, hs.hostNames_eq]
  nodup_hosts g := by
    rw [(hsim.group g).hosts]
    exact hs.nodup_hosts g
  groups_iff g h := by
    rw [hsim.groups, hsim.hierarchy]
    exact hs.groups_iff g h
  cache_iff := by
    rw [hsim.hierarchy]
    exact hcache

/-- Caches may be dropped at any time. -/
theorem Consistent.similar_of_drop (hs : s.Consistent) (hsim : Similar s' s)
    (hdrop : ∀ g, (s'.group g).hostsCache = none ∨
      (s'.group g).hostsCache = (s.group g).hostsCache) : s'.Consistent := by
  refine hs.similar hsim fun g hosts hcache => ?_
  rcases hdrop g with hnone | hsame
  · rw [hnone] at hcache
    exact absurd hcache (by simp)
  · exact hs.cache_iff g hosts (hsame ▸ hcache)

theorem DictCurrent.congr (hd : s.DictCurrent) (hhier : s'.hierarchy = s.hierarchy)
    (hnames : s'.groupNames = s.groupNames) (hdict : s'.groupsDictCache = s.groupsDictCache) :
    s'.DictCurrent := by
  rw [DictCurrent, Describes, hhier, hnames, hdict]
  exact hd

theorem Similar.trans {s'' : InventoryData} (hsim' : Similar s'' s') (hsim : Similar s' s) :
    Similar s'' s where
  groupNames := List.Subset.trans hsim.groupNames hsim'.groupNames
  hostNames := List.Subset.trans hsim.hostNames hsim'.hostNames
  group g := (hsim'.group g).trans (hsim.group g)
  groups h := (hsim'.groups h).trans (hsim.groups h)

theorem similar_modifyGroup {f : Group → Group} (hf : Alike (f (s.group g)) (s.group g)) :
    Similar (s.modifyGroup g f) s where
  groupNames := List.Subset.refl _
  hostNames := List.Subset.refl _
  group x := by
    by_cases hx : x = g
    · subst hx
      simpa [modifyGroup] using hf
    · simpa [modifyGroup, hx] using Alike.refl (s.group x)
  groups _ := rfl

theorem similar_modifyHost {f : Host → Host} (hf : (f (s.host h)).groups = (s.host h).groups) :
    Similar (s.modifyHost h f) s where
  groupNames := List.Subset.refl _
  hostNames := List.Subset.refl _
  group x := Alike.refl (s.group x)
  groups x := by
    by_cases hx : x = h
    · subst hx
      simpa [modifyHost] using hf
    · simp [modifyHost, hx]

theorem similar_clearHostsCache : Similar (s.clearHostsCache g) s where
  groupNames := List.Subset.refl _
  hostNames := List.Subset.refl _
  group x := by
    simp only [clearHostsCache]
    split <;> exact ⟨rfl, rfl, rfl, rfl, rfl⟩
  groups _ := rfl

/-! ## Variables -/

/-- States that differ in variables and priorities at most. -/
structure OnlyVars (s' s : InventoryData) : Prop extends Similar s' s where
  sameGroups : s'.groupNames = s.groupNames
  sameHosts : s'.hostNames = s.hostNames
  hostsCache : ∀ g, (s'.group g).hostsCache = (s.group g).hostsCache
  groupsDictCache : s'.groupsDictCache = s.groupsDictCache

theorem OnlyVars.trans {s'' : InventoryData} (hv' : OnlyVars s'' s') (hv : OnlyVars s' s) :
    OnlyVars s'' s where
  toSimilar := hv'.toSimilar.trans hv.toSimilar
  sameGroups := hv'.sameGroups.trans hv.sameGroups
  sameHosts := hv'.sameHosts.trans hv.sameHosts
  hostsCache g := (hv'.hostsCache g).trans (hv.hostsCache g)
  groupsDictCache := hv'.groupsDictCache.trans hv.groupsDictCache

theorem OnlyVars.consistent (hv : OnlyVars s' s) (hs : s.Consistent) : s'.Consistent :=
  hs.similar_of_drop hv.toSimilar fun g => Or.inr (hv.hostsCache g)

theorem onlyVars_modifyGroup {f : Group → Group} (hf : Alike (f (s.group g)) (s.group g))
    (hcache : (f (s.group g)).hostsCache = (s.group g).hostsCache) :
    OnlyVars (s.modifyGroup g f) s where
  toSimilar := similar_modifyGroup hf
  sameGroups := rfl
  sameHosts := rfl
  hostsCache x := by
    by_cases hx : x = g
    · subst hx
      simpa [modifyGroup] using hcache
    · simp [modifyGroup, hx]
  groupsDictCache := rfl

/-- Setting a variable changes variables only, whichever object it is set for. -/
theorem onlyVars_setVariable {entity varname : Text} {value : Json}
    (hset : s.setVariable entity varname value = .ok s') : OnlyVars s' s := by
  unfold setVariable groupSetVariable at hset
  split at hset
  · split at hset
    · split at hset
      · cases hset
        exact onlyVars_modifyGroup ⟨rfl, rfl, rfl, rfl, rfl⟩ rfl
      · exact absurd hset (by simp)
    · cases hset
      exact onlyVars_modifyGroup ⟨rfl, rfl, rfl, rfl, rfl⟩ rfl
  · split at hset
    · cases hset
      exact ⟨similar_modifyHost rfl, rfl, rfl, fun _ => rfl, rfl⟩
    · exact absurd hset (by simp)

theorem onlyVars_recordSource {py : Interpreter} (hrec : s.recordSource py h = .ok s') :
    OnlyVars s' s := by
  unfold recordSource at hrec
  split at hrec <;>
  · rcases bind_eq_ok hrec with ⟨s₁, hfile, hdir⟩
    exact (onlyVars_setVariable hdir).trans (onlyVars_setVariable hfile)

/-! ## Caches -/

/-- Through the cache or not, `get_hosts()` returns the hosts of the group and of those below. -/
theorem mem_getHosts (hs : s.Linked) (hcache : ∀ hosts, (s.group g).hostsCache = some hosts →
    ∀ h, h ∈ hosts ↔ s.hierarchy.Contains g h) :
    h ∈ (s.getHosts g).1 ↔ s.hierarchy.Contains g h := by
  unfold InventoryData.getHosts
  split
  · next hosts heq => exact hcache hosts heq h
  · exact mem_hostsBelow hs

/-- Reading the hosts of a group can only fill its cache, with what is read. -/
theorem getHosts_state (s : InventoryData) (g : Text) :
    (s.getHosts g).2 = s ∨ (s.getHosts g).2 =
      s.modifyGroup g fun x => { x with hostsCache := some (s.getHosts g).1 } := by
  unfold InventoryData.getHosts
  split
  · exact Or.inl rfl
  · exact Or.inr rfl

theorem similar_getHosts : Similar (s.getHosts g).2 s := by
  rcases getHosts_state s g with hstate | hstate <;> rw [hstate]
  · exact ⟨List.Subset.refl _, List.Subset.refl _, fun x => Alike.refl _, fun _ => rfl⟩
  · exact similar_modifyGroup ⟨rfl, rfl, rfl, rfl, rfl⟩

theorem groupNames_getHosts : (s.getHosts g).2.groupNames = s.groupNames := by
  rcases getHosts_state s g with hstate | hstate <;> rw [hstate]
  rfl

theorem hostNames_getHosts : (s.getHosts g).2.hostNames = s.hostNames := by
  rcases getHosts_state s g with hstate | hstate <;> rw [hstate]
  rfl

theorem hostsCache_getHosts {hosts : Finset Text}
    (hcache : ((s.getHosts g).2.group x).hostsCache = some hosts) :
    (s.group x).hostsCache = some hosts ∨ x = g ∧ hosts = (s.getHosts g).1 := by
  rcases getHosts_state s g with hstate | hstate <;> rw [hstate] at hcache
  · exact Or.inl hcache
  · by_cases hx : x = g
    · subst hx
      refine Or.inr ⟨rfl, ?_⟩
      simpa [modifyGroup] using hcache.symm
    · exact Or.inl (by simpa [modifyGroup, hx] using hcache)

theorem Consistent.getHosts (hs : s.Consistent) : (s.getHosts g).2.Consistent := by
  refine hs.similar similar_getHosts fun x hosts hcache => ?_
  rcases hostsCache_getHosts hcache with hold | ⟨rfl, rfl⟩
  · exact hs.cache_iff x hosts hold
  · exact fun h => mem_getHosts hs.toLinked (hs.cache_iff x)

/-- What is left to read for the dictionary is read with the right hosts. -/
theorem foldl_cacheGroup (names : List Text) (hs : s.Consistent) :
    (names.foldl cacheGroup s).Consistent ∧ (names.foldl cacheGroup s).hierarchy = s.hierarchy ∧
      (names.foldl cacheGroup s).groupNames = s.groupNames ∧
      ∃ dict, (names.foldl cacheGroup s).groupsDictCache = s.groupsDictCache ++ dict ∧
        dict.map Prod.fst = names ∧ ∀ e ∈ dict, ∀ h, h ∈ e.2 ↔ s.hierarchy.Contains e.1 h := by
  induction names generalizing s with
  | nil => exact ⟨hs, rfl, rfl, [], by simp, rfl, by simp⟩
  | cons g names ih =>
    have hnext : (s.cacheGroup g).Consistent :=
      hs.getHosts.similar_of_drop ⟨List.Subset.refl _, List.Subset.refl _, fun _ => Alike.refl _,
        fun _ => rfl⟩ fun _ => Or.inr rfl
    have hsame : (s.cacheGroup g).hierarchy = s.hierarchy :=
      similar_getHosts.hierarchy
    rcases ih hnext with ⟨hcons, hhier, hnames, dict, hdict, hkeys, hvalues⟩
    refine ⟨hcons, hhier.trans hsame, hnames.trans groupNames_getHosts,
      (g, (s.getHosts g).1) :: dict, ?_, by rw [List.map_cons, hkeys], ?_⟩
    · rw [List.foldl_cons, hdict]
      simp [cacheGroup]
    · intro e he
      rcases List.mem_cons.mp he with rfl | he
      · exact fun h => mem_getHosts hs.toLinked (hs.cache_iff g)
      · exact hsame ▸ hvalues e he

/-- **`get_groups_dict()` is right whenever its caches are**, and leaves them right. -/
theorem getGroupsDict_spec (hs : s.Consistent) (hd : s.DictCurrent) :
    s.Describes s.getGroupsDict.1 ∧ s.getGroupsDict.2.Consistent ∧
      s.getGroupsDict.2.DictCurrent ∧ s.getGroupsDict.2.hierarchy = s.hierarchy := by
  unfold getGroupsDict
  by_cases hempty : s.groupsDictCache = []
  · rw [if_neg (not_not_intro hempty)]
    rcases foldl_cacheGroup s.groupNames hs with
      ⟨hcons, hhier, hnames, dict, hdict, hkeys, hvalues⟩
    rw [hempty, List.nil_append] at hdict
    have hdesc : s.Describes (s.groupNames.foldl cacheGroup s).groupsDictCache := by
      rw [hdict]
      exact ⟨hkeys, hvalues⟩
    refine ⟨hdesc, hcons, Or.inr ?_, hhier⟩
    rw [Describes, hhier, hnames]
    exact hdesc
  · rw [if_pos hempty]
    exact ⟨hd.resolve_left hempty, hs, hd, rfl⟩

/-! ## New groups and hosts -/

variable {py : Interpreter}

/-- A group that is not known has nothing yet. -/
theorem Consistent.alike_new (hs : s.Consistent) (hg : g ∉ s.groupNames) :
    Alike Group.new (s.group g) where
  depth := by
    rcases hs.depth_tight g with hzero | htight
    · exact hzero.symm
    · rcases htight with ⟨p, hpg, _⟩
      exact absurd (hs.known_of_child p g hpg).2 hg
  hosts := (hs.hosts_eq_nil hg).symm
  hostNames := by
    rw [hs.hostNames_eq, hs.hosts_eq_nil hg]
    rfl
  childGroups := (hs.childGroups_eq_nil hg).symm
  parentGroups := (hs.parentGroups_eq_nil hg).symm

theorem Consistent.similar_createGroup (hs : s.Consistent) (hg : g ∉ s.groupNames) :
    Similar (s.createGroup g) s where
  groupNames := List.subset_append_left _ _
  hostNames := List.Subset.refl _
  group x := by
    by_cases hx : x = g
    · subst hx
      simpa [createGroup] using hs.alike_new hg
    · simpa [createGroup, hx] using Alike.refl (s.group x)
  groups _ := rfl

theorem Consistent.createGroup (hs : s.Consistent) (hg : g ∉ s.groupNames) :
    (s.createGroup g).Consistent := by
  refine hs.similar_of_drop (hs.similar_createGroup hg) fun x => ?_
  by_cases hx : x = g
  · subst hx
    simp [InventoryData.createGroup, Group.new]
  · simp [InventoryData.createGroup, hx]

/-- What `add_group` can do. -/
theorem addGroup_cases {group : Json} {name : Text}
    (hadd : s.addGroup py group = .ok (name, s')) :
    name ∈ s.groupNames ∧ s' = s ∨ name ∉ s.groupNames ∧ s' = s.createGroup name := by
  unfold addGroup at hadd
  split at hadd
  · split at hadd
    · split at hadd
      · next hknown =>
        cases hadd
        exact Or.inl ⟨hknown, rfl⟩
      · dsimp only at hadd
        split at hadd
        · next hknown =>
          cases hadd
          exact Or.inl ⟨hknown, rfl⟩
        · next hnew =>
          cases hadd
          exact Or.inr ⟨hnew, rfl⟩
    · exact absurd hadd (by simp)
  · exact absurd hadd (by simp)

/-- A new host is in no group. -/
theorem Host.groups_new {port : Json} {x : Host} (hnew : Host.new port = .ok x) :
    x.groups = ∅ := by
  unfold Host.new at hnew
  dsimp only at hnew
  split at hnew
  · split at hnew
    · cases hnew
      rfl
    · exact absurd hnew (by simp)
  · cases hnew
    rfl

theorem Consistent.similar_insertHost (hs : s.Consistent) (hh : h ∉ s.hostNames) {x : Host}
    (hx : x.groups = ∅) : Similar (s.insertHost h x) s where
  groupNames := List.Subset.refl _
  hostNames := List.subset_append_left _ _
  group g := Alike.refl (s.group g)
  groups y := by
    by_cases hy : y = h
    · subst hy
      simp [insertHost, hx, hs.groups_eq_empty hh]
    · simp [insertHost, hy]

/-- A new host leaves the relations alone. -/
theorem Consistent.createHost {port : Json} (hs : s.Consistent) (hh : h ∉ s.hostNames)
    (hcreate : s.createHost py h port = .ok s') :
    Similar s' s ∧ s'.Consistent ∧ s'.groupNames = s.groupNames ∧
      s'.hostNames = s.hostNames ++ [h] ∧ s'.groupsDictCache = s.groupsDictCache := by
  rcases bind_eq_ok hcreate with ⟨x, hnew, hrec⟩
  have hins := hs.similar_insertHost hh (Host.groups_new hnew)
  have hvars := onlyVars_recordSource hrec
  have hcons : (s.insertHost h x).Consistent := hs.similar_of_drop hins fun _ => Or.inr rfl
  exact ⟨hvars.toSimilar.trans hins, hvars.consistent hcons, hvars.sameGroups, hvars.sameHosts,
    hvars.groupsDictCache⟩

/-! ## New members -/

/-- A group is below another, or the same. -/
theorem mem_insert_getAncestors (hs : s.Linked) :
    x ∈ insert g (s.getAncestors g) ↔ s.hierarchy.Below x g := by
  rw [Finset.mem_insert, mem_getAncestors hs, Hierarchy.Below, reflTransGen_iff_eq_or_transGen,
    eq_comm]

/-- The ancestors depend on the parents only. -/
theorem getAncestors_congr (hnames : s'.groupNames = s.groupNames)
    (hparent : ∀ x, (s'.group x).parentGroups = (s.group x).parentGroups) (g : Text) :
    s'.getAncestors g = s.getAncestors g := by
  have hparents : s'.parents = s.parents := by
    funext x
    rw [parents, parents, hparent]
  rw [getAncestors, getAncestors, hparents, rounds, rounds, hnames]

/-- What clearing leaves in the caches is none of a group above. -/
theorem hostsCache_clearHostsCache {s' : InventoryData} {hosts : Finset Text} (hs : s.Linked)
    (hanc : s'.getAncestors g = s.getAncestors g)
    (hcache : ((s'.clearHostsCache g).group x).hostsCache = some hosts) :
    (s'.group x).hostsCache = some hosts ∧ ¬ s.hierarchy.Below x g := by
  rw [← mem_insert_getAncestors hs, ← hanc]
  simp only [clearHostsCache] at hcache
  split at hcache
  · exact absurd hcache (by simp)
  · next hnot => exact ⟨hcache, fun hmem => hnot (Finset.mem_insert.mp hmem)⟩

/-- What making `h` a member of `g` changes. -/
structure MemberAdded (s : InventoryData) (g h : Text) (s' : InventoryData) : Prop where
  sameGroups : s'.groupNames = s.groupNames
  sameHosts : s'.hostNames = s.hostNames
  depth : ∀ x, (s'.group x).depth = (s.group x).depth
  childGroups : ∀ x, (s'.group x).childGroups = (s.group x).childGroups
  parentGroups : ∀ x, (s'.group x).parentGroups = (s.group x).parentGroups
  hosts : ∀ x, (s'.group x).hosts =
    if x = g then (s.group x).hosts ++ [h] else (s.group x).hosts
  hostNames : ∀ x, (s'.group x).hostNames =
    if x = g then insert h (s.group x).hostNames else (s.group x).hostNames
  groups_iff : ∀ x y, x ∈ (s'.host y).groups ↔
    x ∈ (s.host y).groups ∨ s.hierarchy.Below x g ∧ y = h
  hostsCache : ∀ x hosts, (s'.group x).hostsCache = some hosts →
    (s.group x).hostsCache = some hosts ∧ ¬ s.hierarchy.Below x g

theorem memberAdded (hs : s.Linked) :
    MemberAdded s g h (((s.appendHost g h).hostAddGroup h g).clearHostsCache g) := by
  have hfield : ∀ x, (s.appendHost g h).group x =
      if x = g then { s.group x with
        hosts := (s.group x).hosts ++ [h]
        hostNames := insert h (s.group x).hostNames }
      else s.group x := by
    intro x
    by_cases hx : x = g
    · subst hx
      simp [appendHost, modifyGroup]
    · simp [appendHost, modifyGroup, hx]
  have hsim := similar_clearHostsCache (s := (s.appendHost g h).hostAddGroup h g) (g := g)
  have hanc : (s.appendHost g h).getAncestors g = s.getAncestors g := by
    apply getAncestors_congr
    · rfl
    · intro x
      rw [hfield]
      split <;> rfl
  refine ⟨rfl, rfl, ?_, ?_, ?_, ?_, ?_, ?_, ?_⟩
  · intro x
    refine (hsim.group x).depth.trans ?_
    rw [hostAddGroup, modifyHost, hfield]
    split <;> rfl
  · intro x
    refine (hsim.group x).childGroups.trans ?_
    rw [hostAddGroup, modifyHost, hfield]
    split <;> rfl
  · intro x
    refine (hsim.group x).parentGroups.trans ?_
    rw [hostAddGroup, modifyHost, hfield]
    split <;> rfl
  · intro x
    refine (hsim.group x).hosts.trans ?_
    rw [hostAddGroup, modifyHost, hfield]
    split <;> rfl
  · intro x
    refine (hsim.group x).hostNames.trans ?_
    rw [hostAddGroup, modifyHost, hfield]
    split <;> rfl
  · intro x y
    rw [← mem_insert_getAncestors hs, ← hanc]
    by_cases hy : y = h
    · subst hy
      simp [clearHostsCache, hostAddGroup, modifyHost, appendHost, modifyGroup, or_left_comm]
    · simp [clearHostsCache, hostAddGroup, modifyHost, appendHost, modifyGroup, hy]
  · intro x hosts hcache
    have hsame : ((s.appendHost g h).group x).hostsCache = (s.group x).hostsCache := by
      rw [hfield]
      split <;> rfl
    rw [← hsame]
    exact hostsCache_clearHostsCache hs hanc hcache

theorem MemberAdded.hierarchy (hm : MemberAdded s g h s') :
    s'.hierarchy = s.hierarchy.addMember g h := by
  refine congrArg₂ Hierarchy.mk ?_ ?_
  · funext p c
    rw [hm.childGroups]
    rfl
  · funext x y
    rw [hm.hosts]
    by_cases hx : x = g <;> simp [InventoryData.hierarchy, hx]

theorem MemberAdded.consistent (hm : MemberAdded s g h s') (hs : s.Consistent)
    (hg : g ∈ s.groupNames) (hh : h ∈ s.hostNames) (hnew : h ∉ (s.group g).hosts) :
    s'.Consistent where
  known_of_child p c hpc := by
    rw [hm.hierarchy] at hpc
    rw [hm.sameGroups]
    exact hs.known_of_child p c hpc
  parent_iff p c := by
    rw [hm.parentGroups, hm.hierarchy]
    exact hs.parent_iff p c
  known_of_direct x y hxy := by
    rw [hm.hierarchy] at hxy
    rw [hm.sameGroups, hm.sameHosts]
    rcases hxy with hold | ⟨rfl, rfl⟩
    · exact hs.known_of_direct x y hold
    · exact ⟨hg, hh⟩
  depth_lt p c hpc := by
    rw [hm.hierarchy] at hpc
    rw [hm.depth, hm.depth]
    exact hs.depth_lt p c hpc
  depth_tight c := by
    simp only [hm.depth, hm.hierarchy]
    exact hs.depth_tight c
  hostNames_eq x := by
    rw [hm.hostNames, hm.hosts, hs.hostNames_eq]
    split
    · ext y
      simp
    · rfl
  nodup_hosts x := by
    rw [hm.hosts]
    split
    · next hx =>
      subst hx
      exact List.nodup_append.mpr ⟨hs.nodup_hosts x, List.nodup_singleton h,
        fun a ha b hb heq => hnew (List.mem_singleton.mp hb ▸ heq ▸ ha)⟩
    · exact hs.nodup_hosts x
  groups_iff x y := by
    rw [hm.groups_iff, hm.hierarchy, Hierarchy.contains_addMember_iff, hs.groups_iff]
  cache_iff x hosts hcache y := by
    rcases hm.hostsCache x hosts hcache with ⟨hold, hnot⟩
    rw [hm.hierarchy, Hierarchy.contains_addMember_iff, hs.cache_iff x hosts hold]
    exact (or_iff_left fun hadded => hnot hadded.1).symm

/-- **`group.add_host(host)`** makes the host a member of the group, if it was not one, and keeps
everything that is derived from that up to date. -/
theorem groupAddHost_spec (hs : s.Consistent) (hg : g ∈ s.groupNames) (hh : h ∈ s.hostNames) :
    (s.groupAddHost g h).Consistent ∧
      (s.groupAddHost g h).hierarchy = s.hierarchy.addMember g h ∧
      (s.groupAddHost g h).groupNames = s.groupNames ∧
      (s.groupAddHost g h).hostNames = s.hostNames := by
  unfold groupAddHost
  by_cases hmem : h ∈ (s.group g).hosts
  · have hin : h ∈ (s.group g).hostNames := by
      rw [hs.hostNames_eq]
      exact List.mem_toFinset.mpr hmem
    rw [if_pos hin]
    refine ⟨hs, ?_, rfl, rfl⟩
    refine congrArg (Hierarchy.mk s.hierarchy.child) ?_
    funext x y
    refine propext (or_iff_left_of_imp fun heq => ?_).symm
    rw [heq.1, heq.2]
    exact hmem
  · have hnot : h ∉ (s.group g).hostNames := by
      rw [hs.hostNames_eq]
      exact fun hin => hmem (List.mem_toFinset.mp hin)
    rw [if_neg hnot]
    have hadded := memberAdded (g := g) (h := h) hs.toLinked
    exact ⟨hadded.consistent hs hg hh hmem, hadded.hierarchy, hadded.sameGroups,
      hadded.sameHosts⟩

/-! ## New edges -/

/-- The groups after the first two steps of `add_child_group`. -/
theorem group_deepen (hpc : p ≠ c) (d : ℕ) (x : Text) :
    ((s.appendChild p c).deepen c d).group x =
      { s.group x with
        childGroups := if x = p then (s.group x).childGroups ++ [c] else (s.group x).childGroups
        depth := if x = c then max d (s.group x).depth else (s.group x).depth } := by
  by_cases hx : x = p
  · subst hx
    simp [appendChild, deepen, modifyGroup, hpc]
  · by_cases hxc : x = c
    · subst hxc
      simp [appendChild, deepen, modifyGroup, hx]
    · simp [appendChild, deepen, modifyGroup, hx, hxc]

theorem mem_children_deepen (hpc : p ≠ c) {d : ℕ} {y : Text} :
    y ∈ ((s.appendChild p c).deepen c d).children x ↔ s.hierarchy.child x y ∨ x = p ∧ y = c := by
  rw [mem_children]
  simp only [hierarchy, group_deepen hpc]
  by_cases hx : x = p <;> simp [hx]

/-- Without a cycle, the depths can be repaired. -/
theorem exists_levels (hs : s.Consistent) (hpc : p ≠ c) (hloop : ¬ s.hierarchy.Below c p) :
    let s₂ := (s.appendChild p c).deepen c ((s.group p).depth + 1)
    ∃ levels, s₂.checkChildrenDepth c =
        .ok { s₂ with group := fun x => { s₂.group x with depth := levels x } } ∧
      Worklist.Repaired s₂.children (s.getDescendants c) (fun x => (s₂.group x).depth) levels := by
  intro s₂
  have hchildren : ∀ x ∈ s.getDescendants c, ∀ y ∈ s₂.children x, s.hierarchy.child x y := by
    intro x hx y hy
    rcases (mem_children_deepen hpc).mp hy with hold | ⟨rfl, _⟩
    · exact hold
    · exact absurd ((mem_getDescendants hs.toLinked).mp hx) hloop
  have hR : ∀ x ∈ s.getDescendants c, s₂.children x ⊆ s.getDescendants c := by
    intro x hx y hy
    rw [mem_getDescendants hs.toLinked] at hx ⊢
    exact hx.tail (hchildren x ((mem_getDescendants hs.toLinked).mpr hx) y hy)
  have hself : c ∈ s.getDescendants c := (mem_getDescendants hs.toLinked).mpr ReflTransGen.refl
  have hcard : (s.getDescendants c).card < s₂.rounds + 0 := by
    refine (Finset.card_le_card fun x hx => ?_).trans_lt (s.card_names_lt c)
    rcases ReflTransGen.cases_tail ((mem_getDescendants hs.toLinked).mp hx) with heq | hlast
    · exact Finset.mem_insert.mpr (Or.inl heq)
    · rcases hlast with ⟨y, _, hyx⟩
      exact Finset.mem_insert_of_mem (List.mem_toFinset.mpr (hs.known_of_child y x hyx).2)
  have hdepth : ∀ x, (s.group x).depth ≤ (s₂.group x).depth := by
    intro x
    simp only [s₂, group_deepen hpc]
    split
    · exact le_max_right _ _
    · exact le_rfl
  have hdepth_c : (s.group p).depth + 1 ≤ (s₂.group c).depth := by
    simp only [s₂, group_deepen hpc]
    simp
  have hdepth_ne : ∀ x, x ≠ c → (s₂.group x).depth = (s.group x).depth := by
    intro x hx
    simp only [s₂, group_deepen hpc, hx, if_false]
  have hstart : Worklist.Repairing s₂.children (s.getDescendants c)
      (fun x => (s.group x).depth) (fun x => (s₂.group x).depth) (s₂.group c).depth 0 ∅
      (s₂.children c) fun x => (s₂.group x).depth := by
    refine ⟨Finset.empty_subset _, hR c hself, le_rfl, ?_, ?_, ?_, fun _ => le_rfl,
      fun _ _ => rfl, fun _ => Or.inl rfl⟩
    · intro u _
      exact ⟨∅, subset_rfl, rfl, fun x hx => absurd hx (Finset.notMem_empty x)⟩
    · intro x y hy
      by_cases hx : x = c
      · subst hx
        exact Or.inr ⟨hy, le_rfl⟩
      · left
        change (s₂.group x).depth < (s₂.group y).depth
        rw [hdepth_ne x hx]
        rcases (mem_children_deepen hpc).mp hy with hold | ⟨rfl, rfl⟩
        · exact (hs.depth_lt x y hold).trans_le (hdepth y)
        · exact hdepth_c
    · intro y hy
      exact ⟨c, hy, le_rfl⟩
  rcases Worklist.raiseLevels_spec hR
    (fun x hx y hy => hs.depth_lt x y (hchildren x hx y hy)) hstart hcard with
    ⟨levels, heq, hrepaired⟩
  refine ⟨levels, ?_, hrepaired⟩
  rw [Nat.add_zero] at heq
  simp only [checkChildrenDepth, heq]

/-- What making `c` a child of `p` changes. -/
structure ChildAdded (s : InventoryData) (p c : Text) (s' : InventoryData) : Prop where
  sameGroups : s'.groupNames = s.groupNames
  sameHosts : s'.hostNames = s.hostNames
  childGroups : ∀ x, (s'.group x).childGroups =
    if x = p then (s.group x).childGroups ++ [c] else (s.group x).childGroups
  parentGroups : ∀ x, (s'.group x).parentGroups =
    if x = c then (s.group x).parentGroups ++ [p] else (s.group x).parentGroups
  hosts : ∀ x, (s'.group x).hosts = (s.group x).hosts
  hostNames : ∀ x, (s'.group x).hostNames = (s.group x).hostNames
  depth_lt : ∀ x y, s'.hierarchy.child x y → (s'.group x).depth < (s'.group y).depth
  depth_le : ∀ x, (s.group x).depth ≤ (s'.group x).depth
  depth_tight : ∀ y, (s'.group y).depth = (s.group y).depth ∨
    ∃ x, s'.hierarchy.child x y ∧ (s'.group y).depth = (s'.group x).depth + 1
  groups_iff : ∀ x y, x ∈ (s'.host y).groups ↔
    x ∈ (s.host y).groups ∨ s.hierarchy.Below x p ∧ s.hierarchy.Contains c y
  cache_iff : ∀ x hosts, (s'.group x).hostsCache = some hosts →
    ¬ s.hierarchy.Below x p ∧ ∀ h, h ∈ hosts ↔ s.hierarchy.Contains x h

theorem ChildAdded.hierarchy (ha : ChildAdded s p c s') :
    s'.hierarchy = s.hierarchy.addChild p c := by
  refine congrArg₂ Hierarchy.mk ?_ ?_
  · funext x y
    rw [ha.childGroups]
    by_cases hx : x = p <;> simp [InventoryData.hierarchy, hx]
  · funext g h
    rw [ha.hosts]
    rfl

theorem ChildAdded.consistent (ha : ChildAdded s p c s') (hs : s.Consistent)
    (hp : p ∈ s.groupNames) (hc : c ∈ s.groupNames) : s'.Consistent where
  known_of_child x y hxy := by
    rw [ha.hierarchy] at hxy
    rw [ha.sameGroups]
    rcases hxy with hold | ⟨rfl, rfl⟩
    · exact hs.known_of_child x y hold
    · exact ⟨hp, hc⟩
  parent_iff x y := by
    rw [ha.parentGroups, ha.hierarchy]
    split
    · next hy =>
      subst hy
      rw [List.mem_append, hs.parent_iff, List.mem_singleton]
      exact or_congr_right (and_iff_left rfl).symm
    · next hy =>
      rw [hs.parent_iff]
      exact (or_iff_left fun heq => hy heq.2).symm
  known_of_direct g h hgh := by
    rw [ha.hierarchy] at hgh
    rw [ha.sameGroups, ha.sameHosts]
    exact hs.known_of_direct g h hgh
  depth_lt := ha.depth_lt
  depth_tight y := by
    rcases ha.depth_tight y with hsame | hnew
    · rcases hs.depth_tight y with hzero | htight
      · exact Or.inl (hsame.trans hzero)
      · -- the parent that gave the old depth has kept its own
        rcases htight with ⟨x, hxy, hdepth⟩
        have hedge : s'.hierarchy.child x y := by
          rw [ha.hierarchy]
          exact Or.inl hxy
        have hlt := ha.depth_lt x y hedge
        have hle := ha.depth_le x
        exact Or.inr ⟨x, hedge, by omega⟩
    · exact Or.inr hnew
  hostNames_eq x := by
    rw [ha.hostNames, ha.hosts]
    exact hs.hostNames_eq x
  nodup_hosts x := by
    rw [ha.hosts]
    exact hs.nodup_hosts x
  groups_iff x y := by
    rw [ha.groups_iff, ha.hierarchy, Hierarchy.contains_addChild_iff, hs.groups_iff]
  cache_iff x hosts hcache h := by
    rcases ha.cache_iff x hosts hcache with ⟨hnot, hiff⟩
    rw [ha.hierarchy, Hierarchy.contains_addChild_iff, hiff]
    exact (or_iff_left fun hnew => hnot hnew.1).symm

/-- Levels that were repaired after `c` went below `p` are what `add_child_group` promises. -/
theorem depth_tight_of_repaired (hs : s.Consistent) (hpc : p ≠ c)
    (hloop : ¬ s.hierarchy.Below c p) {levels : Text → ℕ}
    (hrep : Worklist.Repaired ((s.appendChild p c).deepen c ((s.group p).depth + 1)).children
      (s.getDescendants c)
      (fun x => (((s.appendChild p c).deepen c ((s.group p).depth + 1)).group x).depth) levels)
    (y : Text) : levels y = (s.group y).depth ∨
      ∃ x, (s.hierarchy.child x y ∨ x = p ∧ y = c) ∧ levels y = levels x + 1 := by
  have hlevel_p : levels p = (s.group p).depth := by
    have hnot : p ∉ s.getDescendants c := fun hmem =>
      hloop ((mem_getDescendants hs.toLinked).mp hmem)
    rw [hrep.eq_of_notMem p hnot, group_deepen hpc, if_neg hpc]
  rcases hrep.tight y with hsame | hnew
  · by_cases hy : y = c
    · subst hy
      simp only [group_deepen hpc, if_true] at hsame
      rcases max_choice ((s.group p).depth + 1) (s.group y).depth with hmax | hmax
      · exact Or.inr ⟨p, Or.inr ⟨rfl, rfl⟩, by omega⟩
      · exact Or.inl (hsame.trans hmax)
    · left
      rw [hsame, group_deepen hpc, if_neg hy]
  · rcases hnew with ⟨x, hxy, heq⟩
    exact Or.inr ⟨x, (mem_children_deepen hpc).mp hxy, heq⟩

/-- The state that `linkParent` leaves behind. -/
theorem linkParent_eq (hp : p ∉ (s.group c).parentGroups) (newAncestors : Finset Text) :
    s.linkParent p c newAncestors =
      ((s.appendParent c p).getHosts c).2.populateAncestors ((s.appendParent c p).getHosts c).1
        newAncestors := by
  rw [linkParent, if_neg hp]

theorem group_appendParent (x : Text) : (s.appendParent c p).group x =
    { s.group x with parentGroups :=
      if x = c then (s.group x).parentGroups ++ [p] else (s.group x).parentGroups } := by
  by_cases hx : x = c
  · subst hx
    simp [appendParent, modifyGroup]
  · simp [appendParent, modifyGroup, hx]

/-- The groups once the edge is there, with the levels repaired. -/
def Edged (s : InventoryData) (p c : Text) (levels : Text → ℕ) (s₄ : InventoryData) : Prop :=
  s₄.groupNames = s.groupNames ∧ s₄.hostNames = s.hostNames ∧ s₄.host = s.host ∧
    ∀ x, s₄.group x = { s.group x with
      childGroups := if x = p then (s.group x).childGroups ++ [c] else (s.group x).childGroups
      parentGroups := if x = c then (s.group x).parentGroups ++ [p] else (s.group x).parentGroups
      depth := levels x }

theorem Edged.hierarchy {levels : Text → ℕ} {s₄ : InventoryData} (he : Edged s p c levels s₄) :
    s₄.hierarchy = s.hierarchy.addChild p c := by
  refine congrArg₂ Hierarchy.mk ?_ ?_
  · funext x y
    rw [he.2.2.2]
    by_cases hx : x = p <;> simp [InventoryData.hierarchy, hx]
  · funext g h
    rw [he.2.2.2]
    rfl

theorem Edged.linked {levels : Text → ℕ} {s₄ : InventoryData} (he : Edged s p c levels s₄)
    (hs : s.Linked) (hp : p ∈ s.groupNames) (hc : c ∈ s.groupNames) : s₄.Linked where
  known_of_child x y hxy := by
    rw [he.hierarchy] at hxy
    rw [he.1]
    rcases hxy with hold | ⟨rfl, rfl⟩
    · exact hs.known_of_child x y hold
    · exact ⟨hp, hc⟩
  parent_iff x y := by
    rw [he.hierarchy, he.2.2.2]
    simp only
    split
    · next hy =>
      subst hy
      rw [List.mem_append, hs.parent_iff, List.mem_singleton]
      exact or_congr_right (and_iff_left rfl).symm
    · next hy =>
      rw [hs.parent_iff]
      exact (or_iff_left fun heq => hy heq.2).symm

/-- The hosts below the child are what they were. -/
theorem Edged.mem_getHosts_iff {levels : Text → ℕ} {s₄ : InventoryData}
    (he : Edged s p c levels s₄) (hs : s.Consistent) (hp : p ∈ s.groupNames)
    (hc : c ∈ s.groupNames) (hloop : ¬ s.hierarchy.Below c p) :
    h ∈ (s₄.getHosts c).1 ↔ s.hierarchy.Contains c h := by
  have hbelow : ∀ h, s₄.hierarchy.Contains c h ↔ s.hierarchy.Contains c h := by
    intro h
    rw [he.hierarchy, Hierarchy.contains_addChild_iff]
    exact or_iff_left fun hnew => hloop hnew.1
  have hcache : ∀ hosts, (s₄.group c).hostsCache = some hosts →
      ∀ h, h ∈ hosts ↔ s₄.hierarchy.Contains c h := by
    intro hosts hsome h
    rw [he.2.2.2] at hsome
    rw [hbelow]
    exact hs.cache_iff c hosts hsome h
  exact (mem_getHosts (he.linked hs.toLinked hp hc) hcache).trans (hbelow h)

/-- The hosts below the child get the ancestors that are new. -/
theorem Edged.groups_iff {levels : Text → ℕ} {s₄ : InventoryData} (he : Edged s p c levels s₄)
    (hs : s.Consistent) (hp : p ∈ s.groupNames) (hc : c ∈ s.groupNames)
    (hloop : ¬ s.hierarchy.Below c p) (x y : Text) :
    x ∈ (((s₄.getHosts c).2.populateAncestors (s₄.getHosts c).1
        (insert p (s.getAncestors p) \ s.getAncestors c)).host y).groups ↔
      x ∈ (s.host y).groups ∨ s.hierarchy.Below x p ∧ s.hierarchy.Contains c y := by
  set newAncestors := insert p (s.getAncestors p) \ s.getAncestors c with hnewAncestors
  have hgroups : (((s₄.getHosts c).2.populateAncestors (s₄.getHosts c).1
      newAncestors).host y).groups =
        if y ∈ (s₄.getHosts c).1 then (s.host y).groups ∪ newAncestors
        else (s.host y).groups := by
    have hsame := (similar_getHosts (s := s₄) (g := c)).groups y
    rw [he.2.2.1] at hsame
    simp only [populateAncestors]
    split
    · exact congrArg (· ∪ newAncestors) hsame
    · exact hsame
  have hnewmem : x ∈ newAncestors ↔ s.hierarchy.Below x p ∧ x ∉ s.getAncestors c := by
    rw [hnewAncestors, Finset.mem_sdiff, mem_insert_getAncestors hs.toLinked]
  have hhosts : y ∈ (s₄.getHosts c).1 ↔ s.hierarchy.Contains c y :=
    he.mem_getHosts_iff hs hp hc hloop
  rw [hgroups, ← hhosts]
  split
  · next hy =>
    rw [Finset.mem_union, hnewmem]
    refine or_congr_right' fun hold => ?_
    refine ⟨fun h => ⟨h.1, hy⟩, fun h => ⟨h.1, fun hmem => hold ?_⟩⟩
    -- an old ancestor of the child had its hosts already
    rw [hs.groups_iff]
    exact Hierarchy.Below.contains ((mem_getAncestors hs.toLinked).mp hmem).to_reflTransGen
      (hhosts.mp hy)
  · next hy => exact (or_iff_left fun h => hy h.2).symm

/-- A cached list of hosts that is left is none of a group above the new edge. -/
theorem Edged.cache_iff {levels : Text → ℕ} {s₄ : InventoryData} (he : Edged s p c levels s₄)
    (hs : s.Consistent) (hp : p ∈ s.groupNames) (hc : c ∈ s.groupNames)
    (hloop : ¬ s.hierarchy.Below c p) (newAncestors : Finset Text) {x : Text}
    {hosts : Finset Text}
    (hsome : ((((s₄.getHosts c).2.populateAncestors (s₄.getHosts c).1
      newAncestors).clearHostsCache p).group x).hostsCache = some hosts) :
    ¬ s.hierarchy.Below x p ∧ ∀ h, h ∈ hosts ↔ s.hierarchy.Contains x h := by
  set s₆ := (s₄.getHosts c).2.populateAncestors (s₄.getHosts c).1 newAncestors
  have hanc : s₆.getAncestors p = s₄.getAncestors p := by
    apply getAncestors_congr
    · exact groupNames_getHosts
    · exact fun y => ((similar_getHosts (s := s₄) (g := c)).group y).parentGroups
  obtain ⟨hleft, hnot⟩ := hostsCache_clearHostsCache (he.linked hs.toLinked hp hc) hanc hsome
  have hnotBelow : ¬ s.hierarchy.Below x p :=
    fun hmem => hnot (he.hierarchy ▸ hmem.addChild p c)
  refine ⟨hnotBelow, ?_⟩
  rcases hostsCache_getHosts hleft with hold | ⟨rfl, rfl⟩
  · rw [he.2.2.2] at hold
    exact hs.cache_iff x hosts hold
  · exact fun _ => he.mem_getHosts_iff hs hp hc hloop

/-- The last steps of `add_child_group`, from the edge on. -/
theorem Edged.childAdded {levels : Text → ℕ} {s₄ : InventoryData} (he : Edged s p c levels s₄)
    (hs : s.Consistent) (hp : p ∈ s.groupNames) (hc : c ∈ s.groupNames)
    (hloop : ¬ s.hierarchy.Below c p)
    (hle : ∀ x, (s.group x).depth ≤ levels x)
    (hlt : ∀ x y, s₄.hierarchy.child x y → levels x < levels y)
    (htight : ∀ y, levels y = (s.group y).depth ∨
      ∃ x, s₄.hierarchy.child x y ∧ levels y = levels x + 1) :
    ChildAdded s p c (((s₄.getHosts c).2.populateAncestors (s₄.getHosts c).1
      (insert p (s.getAncestors p) \ s.getAncestors c)).clearHostsCache p) := by
  set newAncestors := insert p (s.getAncestors p) \ s.getAncestors c with hnewAncestors
  set s₆ := (s₄.getHosts c).2.populateAncestors (s₄.getHosts c).1 newAncestors with hs₆
  have halike : ∀ x, Alike ((s₆.clearHostsCache p).group x) (s₄.group x) := fun x =>
    ((similar_clearHostsCache (s := s₆) (g := p)).group x).trans
      ((similar_getHosts (s := s₄) (g := c)).group x)
  have hhier : (s₆.clearHostsCache p).hierarchy = s₄.hierarchy :=
    hierarchy_congr (fun x => (halike x).childGroups) fun x => (halike x).hosts
  refine ⟨groupNames_getHosts.trans he.1, hostNames_getHosts.trans he.2.1, ?_, ?_, ?_, ?_, ?_, ?_,
    ?_, he.groups_iff hs hp hc hloop, fun _ _ => he.cache_iff hs hp hc hloop newAncestors⟩
  · intro x
    rw [(halike x).childGroups, he.2.2.2]
  · intro x
    rw [(halike x).parentGroups, he.2.2.2]
  · intro x
    rw [(halike x).hosts, he.2.2.2]
  · intro x
    rw [(halike x).hostNames, he.2.2.2]
  · intro x y hxy
    rw [(halike x).depth, (halike y).depth, he.2.2.2, he.2.2.2]
    exact hlt x y (hhier ▸ hxy)
  · intro x
    rw [(halike x).depth, he.2.2.2]
    exact hle x
  · intro y
    simp only [(halike _).depth, he.2.2.2, hhier]
    exact htight y

/-- A new edge that closes no cycle is added, and everything derived from the edges follows. -/
theorem exists_childAdded (hs : s.Consistent) (hp : p ∈ s.groupNames) (hc : c ∈ s.groupNames)
    (hpc : p ≠ c) (hnew : c ∉ (s.group p).childGroups) (hloop : ¬ s.hierarchy.Below c p) :
    ∃ s', s.addChildGroup p c = .ok s' ∧ ChildAdded s p c s' := by
  have hanc : c ∉ s.getAncestors p := fun hmem =>
    hloop ((mem_getAncestors hs.toLinked).mp hmem).to_reflTransGen
  rcases exists_levels hs hpc hloop with ⟨levels, hlevels, hrep⟩
  set s₂ := (s.appendChild p c).deepen c ((s.group p).depth + 1) with hs₂
  set s₃ : InventoryData := { s₂ with group := fun x => { s₂.group x with depth := levels x } }
    with hs₃
  have hparent : p ∉ (s₃.group c).parentGroups := by
    simp only [s₃, s₂, group_deepen hpc]
    exact fun hmem => hnew ((hs.parent_iff p c).mp hmem)
  have hedged : Edged s p c levels (s₃.appendParent c p) := by
    refine ⟨rfl, rfl, rfl, fun x => ?_⟩
    rw [group_appendParent]
    simp only [s₃, s₂, group_deepen hpc]
  have hchild : ∀ x y, (s₃.appendParent c p).hierarchy.child x y ↔
      s.hierarchy.child x y ∨ x = p ∧ y = c := by
    intro x y
    rw [hedged.hierarchy]
    rfl
  have hle : ∀ x, (s.group x).depth ≤ levels x := by
    intro x
    refine le_trans ?_ (hrep.le x)
    simp only [s₂, group_deepen hpc]
    split
    · exact le_max_right _ _
    · exact le_rfl
  have hlt : ∀ x y, (s₃.appendParent c p).hierarchy.child x y → levels x < levels y :=
    fun x y hxy => hrep.lt_of_edge x y ((mem_children_deepen hpc).mpr ((hchild x y).mp hxy))
  have htight : ∀ y, levels y = (s.group y).depth ∨
      ∃ x, (s₃.appendParent c p).hierarchy.child x y ∧ levels y = levels x + 1 := by
    intro y
    simp only [hchild]
    exact depth_tight_of_repaired hs hpc hloop hrep y
  have heq : s.addChildGroup p c = .ok ((s₃.linkParent p c
      (insert p (s.getAncestors p) \ s.getAncestors c)).clearHostsCache p) := by
    rw [addChildGroup, if_neg hpc, if_neg hnew, if_neg hanc, hlevels]
    rfl
  refine ⟨_, heq, ?_⟩
  rw [linkParent_eq hparent]
  exact hedged.childAdded hs hp hc hloop hle hlt htight

/-- An edge that is there already changes nothing. -/
theorem addChild_of_child (hchild : s.hierarchy.child p c) :
    s.hierarchy.addChild p c = s.hierarchy := by
  refine congrArg (Hierarchy.mk · s.hierarchy.direct) ?_
  funext x y
  refine propext (or_iff_left_of_imp fun heq => ?_)
  rw [heq.1, heq.2]
  exact hchild

/-- **`add_child_group` refuses an edge if and only if it would close a cycle**; the test that
follows the depths never stops it. -/
theorem addChildGroup_isOk_iff (hs : s.Consistent) (hp : p ∈ s.groupNames)
    (hc : c ∈ s.groupNames) :
    (∃ s', s.addChildGroup p c = .ok s') ↔ ¬ s.hierarchy.Below c p := by
  constructor
  · intro hok hloop
    rcases hok with ⟨s', hok⟩
    rw [addChildGroup] at hok
    by_cases hpc : p = c
    · rw [if_pos hpc] at hok
      exact absurd hok (by simp)
    · have hpath : TransGen s.hierarchy.child c p :=
        (reflTransGen_iff_eq_or_transGen.mp hloop).resolve_left hpc
      rw [if_neg hpc] at hok
      by_cases hchild : c ∈ (s.group p).childGroups
      · exact hs.acyclic p (TransGen.head hchild hpath)
      · rw [if_neg hchild, if_pos ((mem_getAncestors hs.toLinked).mpr hpath)] at hok
        exact absurd hok (by simp)
  · intro hloop
    have hpc : p ≠ c := fun heq => hloop (heq ▸ ReflTransGen.refl)
    by_cases hchild : c ∈ (s.group p).childGroups
    · exact ⟨s, by rw [addChildGroup, if_neg hpc, if_pos hchild]⟩
    · rcases exists_childAdded hs hp hc hpc hchild hloop with ⟨s', hok, _⟩
      exact ⟨s', hok⟩

theorem addChildGroup_spec (hs : s.Consistent) (hp : p ∈ s.groupNames) (hc : c ∈ s.groupNames)
    (hok : s.addChildGroup p c = .ok s') :
    s'.Consistent ∧ s'.hierarchy = s.hierarchy.addChild p c ∧ s'.groupNames = s.groupNames ∧
      s'.hostNames = s.hostNames := by
  have hloop := (addChildGroup_isOk_iff hs hp hc).mp ⟨s', hok⟩
  have hpc : p ≠ c := fun heq => hloop (heq ▸ ReflTransGen.refl)
  by_cases hchild : c ∈ (s.group p).childGroups
  · rw [addChildGroup, if_neg hpc, if_pos hchild] at hok
    cases hok
    exact ⟨hs, (addChild_of_child hchild).symm, rfl, rfl⟩
  · rcases exists_childAdded hs hp hc hpc hchild hloop with ⟨s₁, hok₁, hadded⟩
    rw [hok₁] at hok
    cases hok
    exact ⟨hadded.consistent hs hp hc, hadded.hierarchy, hadded.sameGroups, hadded.sameHosts⟩

/-! ## The commands that add -/

/-- The dictionary is not part of what the groups and hosts know. -/
theorem Consistent.dropDict (hs : s.Consistent) :
    Consistent { s with groupsDictCache := [] } :=
  hs.similar_of_drop ⟨List.Subset.refl _, List.Subset.refl _, fun _ => Alike.refl _, fun _ => rfl⟩
    fun _ => Or.inr rfl

/-- What `add_child` does: an edge if the child is a group, and else a member. -/
theorem addChild_spec (hs : s.Consistent) (hok : s.addChild p x = .ok s') :
    s'.Consistent ∧ s'.DictCurrent ∧ s'.groupNames = s.groupNames ∧
      s'.hostNames = s.hostNames ∧
      s'.hierarchy = if x ∈ s.groupNames then s.hierarchy.addChild p x
        else s.hierarchy.addMember p x := by
  unfold addChild at hok
  split at hok
  · next hp =>
    split at hok
    · next hx =>
      rcases bind_eq_ok hok with ⟨s₁, hadd, hret⟩
      cases hret
      rcases addChildGroup_spec hs hp hx hadd with ⟨hcons, hhier, hnames, hhosts⟩
      rw [if_pos hx]
      exact ⟨hcons.dropDict, Or.inl rfl, hnames, hhosts, hhier⟩
    · next hx =>
      split at hok
      · next hhost =>
        cases hok
        rcases groupAddHost_spec hs hp hhost with ⟨hcons, hhier, hnames, hhosts⟩
        rw [if_neg hx]
        exact ⟨hcons.dropDict, Or.inl rfl, hnames, hhosts, hhier⟩
      · exact absurd hok (by simp)
  · exact absurd hok (by simp)

/-- What `add_host` does first. -/
theorem ensureHost_spec {port : Json} (hs : s.Consistent) (hok : s.ensureHost py h port = .ok s') :
    s'.Consistent ∧ s'.hierarchy = s.hierarchy ∧ s'.groupNames = s.groupNames ∧
      h ∈ s'.hostNames ∧ (∀ y, y ∈ s'.hostNames ↔ y ∈ s.hostNames ∨ y = h) ∧
      s'.groupsDictCache = s.groupsDictCache := by
  unfold ensureHost at hok
  split at hok
  · next hknown =>
    cases hok
    refine ⟨hs, rfl, rfl, hknown, fun y => (or_iff_left_of_imp fun heq => ?_).symm, rfl⟩
    exact heq ▸ hknown
  · next hnew =>
    rcases hs.createHost hnew hok with ⟨hsim, hcons, hnames, hhosts, hdict⟩
    refine ⟨hcons, hsim.hierarchy, hnames, ?_, fun y => ?_, hdict⟩
    · rw [hhosts]
      simp
    · rw [hhosts, List.mem_append, List.mem_singleton]

/-- What `add_host` does: the host is known afterwards, and a member of the group if one was
given. -/
theorem addHost_spec {host : Json} {group : Option Text} {port : Json} (hs : s.Consistent)
    (hd : s.DictCurrent) (hok : s.addHost py host group port = .ok s') :
    ∃ name, host = .str name ∧ name ≠ [] ∧ s'.Consistent ∧ s'.DictCurrent ∧
      s'.groupNames = s.groupNames ∧ (∀ y, y ∈ s'.hostNames ↔ y ∈ s.hostNames ∨ y = name) ∧
      s'.hierarchy = ((group.filter (· ≠ [])).elim s.hierarchy
        fun g => s.hierarchy.addMember g name) := by
  unfold addHost at hok
  split at hok
  · next htruthy =>
    split at hok
    · next name =>
      have hname : name ≠ [] := by
        intro heq
        subst heq
        exact absurd htruthy (by simp [Json.truthy])
      refine ⟨name, rfl, hname, ?_⟩
      split at hok
      · next g hg =>
        split at hok
        · next hknown =>
          rcases bind_eq_ok hok with ⟨s₁, hens, hret⟩
          cases hret
          rcases ensureHost_spec hs hens with ⟨hcons, hhier, hnames, hmem, hhosts, _⟩
          rcases groupAddHost_spec hcons (hnames ▸ hknown) hmem with
            ⟨hcons', hhier', hnames', hhosts'⟩
          refine ⟨hcons'.dropDict, Or.inl rfl, hnames'.trans hnames, fun y => ?_, ?_⟩
          · exact (congrArg (y ∈ ·) hhosts').to_iff.trans (hhosts y)
          · rw [hg, Option.elim_some, ← hhier]
            exact hhier'
        · exact absurd hok (by simp)
      · next hg =>
        rcases ensureHost_spec hs hok with ⟨hcons, hhier, hnames, _, hhosts, hdict⟩
        rw [hg, Option.elim_none]
        exact ⟨hcons, hd.congr hhier hnames hdict, hnames, hhosts, hhier⟩
    · exact absurd hok (by simp)
  · exact absurd hok (by simp)

end InventoryData
end Ansible
