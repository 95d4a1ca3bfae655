import KubVagrant.Ansible.Consistent

/-!
# Reconciling the inventory, and whole runs

`reconcile_inventory()` runs once the sources are read, and again after a play has changed the
inventory.  It puts every group below `all`, and keeps in `ungrouped` the hosts that are in no
other group.  `reconcileInventory_spec` says what it achieves, for inventories in which
`ungrouped` is used for nothing else and no host that belongs there is called like a group.

`Reachable` are the states that commands lead to.  `Reachable.sound` is the invariant for all of
them in which only plain inventories were reconciled, and what follows from it there:
`answers_of_reachable`, `addChild_isOk_iff_of_reachable`, `reconcile_of_reachable` and
`reconcile_again`.  Without that condition the answers disagree (`answers_disagree`).

## Main definitions

* `Plain` — what reconciling relies on.
* `Reconciled` — what it achieves.
* `Reachable` — the states that commands lead to, where they are allowed.
* `PlainReconcile` — an inventory is reconciled only while it is plain.
-/

namespace Ansible
open Relation Unix Loops

namespace InventoryData

variable {py : Interpreter} {s s' : InventoryData} {g p c x h : Text}

/-! ## The start -/

theorem consistent_blank : blank.Consistent where
  known_of_child _ _ hpc := absurd hpc List.not_mem_nil
  parent_iff _ _ := iff_of_false List.not_mem_nil List.not_mem_nil
  known_of_direct _ _ hgh := absurd hgh List.not_mem_nil
  depth_lt _ _ hpc := absurd hpc List.not_mem_nil
  depth_tight _ := Or.inl rfl
  hostNames_eq _ := rfl
  nodup_hosts _ := List.nodup_nil
  groups_iff g h := by
    refine ⟨fun hmem => absurd hmem (Finset.notMem_empty g), fun hc => ?_⟩
    rcases hc with ⟨d, _, hdirect⟩
    exact absurd hdirect List.not_mem_nil
  cache_iff _ _ hcache := by cases hcache

theorem addGroup_spec {group : Json} {name : Text} (hs : s.Consistent) (hd : s.DictCurrent)
    (hok : s.addGroup py group = .ok (name, s')) :
    s'.Consistent ∧ s'.DictCurrent ∧ s'.hierarchy = s.hierarchy ∧
      (∀ y, y ∈ s'.groupNames ↔ y ∈ s.groupNames ∨ y = name) ∧ s'.hostNames = s.hostNames := by
  rcases addGroup_cases hok with ⟨hknown, rfl⟩ | ⟨hnew, rfl⟩
  · refine ⟨hs, hd, rfl, fun y => (or_iff_left_of_imp fun heq => ?_).symm, rfl⟩
    exact heq ▸ hknown
  · refine ⟨hs.createGroup hnew, Or.inl rfl, (hs.similar_createGroup hnew).hierarchy, ?_, rfl⟩
    intro y
    rw [createGroup, List.mem_append, List.mem_singleton]

/-- `all` and `ungrouped` keep their names, whatever the setting. -/
theorem toSafeGroupName_all (py : Interpreter) : py.toSafeGroupName allGroup = allGroup :=
  py.toSafeGroupName_of_isAlpha (by decide)

theorem toSafeGroupName_ungrouped (py : Interpreter) :
    py.toSafeGroupName ungroupedGroup = ungroupedGroup :=
  py.toSafeGroupName_of_isAlpha (by decide)

theorem addGroup_new {name : Text} (hne : name ≠ []) (hsafe : py.toSafeGroupName name = name)
    (hnew : name ∉ s.groupNames) :
    s.addGroup py (.str name) = .ok (name, s.createGroup name) := by
  have htruthy : (Json.str name).truthy = true := by simpa [Json.truthy] using hne
  rw [addGroup, if_pos htruthy]
  simp only [hnew, if_false, hsafe]

/-- A new inventory has the groups `all` and `ungrouped`, and nothing else. -/
theorem init_spec (py : Interpreter) : ∃ s, init py = .ok s ∧ s.Consistent ∧ s.DictCurrent ∧
    s.groupNames = [allGroup, ungroupedGroup] ∧ s.hostNames = [] ∧
      s.hierarchy = blank.hierarchy.addChild allGroup ungroupedGroup := by
  have hnew : ungroupedGroup ∉ (blank.createGroup allGroup).groupNames := by decide
  have hall := addGroup_new (s := blank) (by decide) (toSafeGroupName_all py) List.not_mem_nil
  have hungrouped := addGroup_new (s := blank.createGroup allGroup) (by decide)
    (toSafeGroupName_ungrouped py) hnew
  set s₁ := blank.createGroup allGroup with hs₁
  set s₂ := s₁.createGroup ungroupedGroup with hs₂
  have hcons₁ : s₁.Consistent := consistent_blank.createGroup List.not_mem_nil
  have hcons₂ : s₂.Consistent := hcons₁.createGroup hnew
  have hhier : s₂.hierarchy = blank.hierarchy :=
    ((hcons₁.similar_createGroup hnew).hierarchy).trans
      (consistent_blank.similar_createGroup List.not_mem_nil).hierarchy
  have hknown : allGroup ∈ s₂.groupNames ∧ ungroupedGroup ∈ s₂.groupNames := by decide
  have hloop : ¬ s₂.hierarchy.Below ungroupedGroup allGroup := by
    rw [hhier]
    intro hbelow
    rcases ReflTransGen.cases_head hbelow with heq | ⟨y, hedge, _⟩
    · exact ungroupedGroup_ne heq
    · exact absurd hedge List.not_mem_nil
  rcases (addChildGroup_isOk_iff hcons₂ hknown.1 hknown.2).mpr hloop with ⟨s₃, hok⟩
  have hadd : s₂.addChild allGroup ungroupedGroup = .ok { s₃ with groupsDictCache := [] } := by
    rw [addChild, if_pos hknown.1, if_pos hknown.2, hok]
    rfl
  rcases addChild_spec hcons₂ hadd with ⟨hcons, hdict, hnames, hhosts, hhier'⟩
  rw [if_pos hknown.2, hhier] at hhier'
  refine ⟨_, ?_, hcons, hdict, hnames, hhosts, hhier'⟩
  rw [init, hall]
  simp only [bind, Except.bind, hungrouped]
  exact hadd

/-! ## Groups below `all` -/

/-- The host is in no group but `all` and `ungrouped`. -/
def Alone (s : InventoryData) (h : Text) : Prop :=
  ∀ g, g ≠ allGroup → g ≠ ungroupedGroup → ¬ s.hierarchy.Contains g h

/-- `ungrouped` is used for nothing else, and no host that belongs there is called like a group. -/
structure Plain (s : InventoryData) : Prop where
  parent_ungrouped : ∀ p, s.hierarchy.child p ungroupedGroup → p = allGroup
  no_child_ungrouped : ∀ c, ¬ s.hierarchy.child ungroupedGroup c
  host_ne_group : ∀ h ∈ s.hostNames, s.Alone h → h ∉ s.groupNames

/-- Every group but `all` is below `all`. -/
def Rooted (s : InventoryData) : Prop :=
  ∀ g ∈ s.groupNames, g ≠ allGroup → TransGen s.hierarchy.child allGroup g

/-- If every group but `all` has a parent, it is below `all`. -/
theorem rooted_of_parent (hs : s.Consistent)
    (hparent : ∀ g ∈ s.groupNames, g ≠ allGroup → ∃ p, s.hierarchy.child p g) : s.Rooted := by
  intro g hg hne
  induction hdepth : (s.group g).depth using Nat.strong_induction_on generalizing g with
  | _ n ih =>
    rcases hparent g hg hne with ⟨p, hpg⟩
    by_cases hp : p = allGroup
    · exact TransGen.single (hp ▸ hpg)
    · have hlt := hs.depth_lt p g hpg
      have hknown := (hs.known_of_child p g hpg).1
      exact (ih _ (hdepth ▸ hlt) p hknown hp rfl).tail hpg

/-- No group is above `all` then. -/
theorem Rooted.not_child_all (hr : s.Rooted) (hs : s.Consistent) (p : Text) :
    ¬ s.hierarchy.child p allGroup := by
  intro hp
  by_cases heq : p = allGroup
  · subst heq
    exact hs.acyclic _ (TransGen.single hp)
  · exact hs.acyclic _ ((hr p (hs.known_of_child p _ hp).1 heq).tail hp)

/-- What the rounds for groups keep, and the only edges they add. -/
structure GroupsReconciled (s s' : InventoryData) : Prop where
  consistent : s'.Consistent
  sameGroups : s'.groupNames = s.groupNames
  sameHosts : s'.hostNames = s.hostNames
  direct : s'.hierarchy.direct = s.hierarchy.direct
  child_mono : ∀ p c, s.hierarchy.child p c → s'.hierarchy.child p c
  child_new : ∀ p c, s'.hierarchy.child p c →
    s.hierarchy.child p c ∨ p = allGroup ∧ ∀ q, ¬ s.hierarchy.child q c

theorem GroupsReconciled.refl (hs : s.Consistent) : GroupsReconciled s s :=
  ⟨hs, rfl, rfl, rfl, fun _ _ h => h, fun _ _ h => Or.inl h⟩

theorem GroupsReconciled.trans {s'' : InventoryData} (hr : GroupsReconciled s s')
    (hr' : GroupsReconciled s' s'') : GroupsReconciled s s'' where
  consistent := hr'.consistent
  sameGroups := hr'.sameGroups.trans hr.sameGroups
  sameHosts := hr'.sameHosts.trans hr.sameHosts
  direct := hr'.direct.trans hr.direct
  child_mono p c hpc := hr'.child_mono p c (hr.child_mono p c hpc)
  child_new p c hpc := by
    rcases hr'.child_new p c hpc with hold | ⟨hp, hnone⟩
    · exact hr.child_new p c hold
    · exact Or.inr ⟨hp, fun q hq => hnone q (hr.child_mono q c hq)⟩

/-- A round gives the group a parent, if it has none. -/
theorem reconcileGroup_spec (hs : s.Consistent) (hg : g ∈ s.groupNames)
    (hok : s.reconcileGroup g = .ok s') :
    GroupsReconciled s s' ∧ (g ≠ allGroup → ∃ p, s'.hierarchy.child p g) := by
  unfold reconcileGroup at hok
  split at hok
  · next hcond =>
    rcases addChild_spec hs hok with ⟨hcons, _, hnames, hhosts, hhier⟩
    rw [if_pos hg] at hhier
    have hnone : ∀ q, ¬ s.hierarchy.child q g := by
      intro q hq
      have hmem : q ∈ s.getAncestors g :=
        (mem_getAncestors hs.toLinked).mpr (TransGen.single hq)
      rw [hcond.2] at hmem
      exact absurd hmem (Finset.notMem_empty q)
    refine ⟨⟨hcons, hnames, hhosts, ?_, ?_, ?_⟩, fun _ => ⟨allGroup, ?_⟩⟩
    · rw [hhier]
      rfl
    · rw [hhier]
      exact fun _ _ h => Or.inl h
    · rw [hhier]
      intro p c hpc
      rcases hpc with hold | ⟨hp, rfl⟩
      · exact Or.inl hold
      · exact Or.inr ⟨hp, hnone⟩
    · rw [hhier]
      exact Or.inr ⟨rfl, rfl⟩
  · next hnot =>
    cases hok
    refine ⟨GroupsReconciled.refl hs, fun hne => ?_⟩
    have hsome : s.getAncestors g ≠ ∅ := fun hempty => hnot ⟨hne, hempty⟩
    rcases Finset.nonempty_iff_ne_empty.mpr hsome with ⟨x, hx⟩
    rcases TransGen.tail'_iff.mp ((mem_getAncestors hs.toLinked).mp hx) with ⟨p, _, hpg⟩
    exact ⟨p, hpg⟩

/-- All rounds for groups. -/
theorem foldlM_reconcileGroup {names : List Text} (hs : s.Consistent)
    (hnames : ∀ g ∈ names, g ∈ s.groupNames) (hok : names.foldlM reconcileGroup s = .ok s') :
    GroupsReconciled s s' ∧ ∀ g ∈ names, g ≠ allGroup → ∃ p, s'.hierarchy.child p g := by
  induction names generalizing s with
  | nil =>
    cases hok
    exact ⟨GroupsReconciled.refl hs, fun g hg => absurd hg List.not_mem_nil⟩
  | cons g names ih =>
    rw [List.foldlM_cons] at hok
    rcases bind_eq_ok hok with ⟨s₁, hround, hrest⟩
    rcases reconcileGroup_spec hs (hnames g List.mem_cons_self) hround with ⟨hrec, hparent⟩
    have hnames₁ : ∀ x ∈ names, x ∈ s₁.groupNames := fun x hx =>
      hrec.sameGroups ▸ hnames x (List.mem_cons_of_mem g hx)
    rcases ih hrec.consistent hnames₁ hrest with ⟨hrec', hparents⟩
    refine ⟨hrec.trans hrec', ?_⟩
    intro x hx hne
    rcases List.mem_cons.mp hx with rfl | hx
    · rcases hparent hne with ⟨p, hp⟩
      exact ⟨p, hrec'.child_mono p x hp⟩
    · exact hparents x hx hne

/-! ## Hosts in no other group -/

/-- Only `all` is above the group, so no other group of the host has to go with it. -/
theorem removeGroupFrom_eq (py : Interpreter)
    (hanc : ∀ x ∈ s.getAncestors g, x = allGroup) (groups : Finset Text) :
    s.removeGroupFrom py groups.card groups g = groups.erase g := by
  cases hn : groups.card with
  | zero =>
    rw [Finset.card_eq_zero.mp hn]
    rfl
  | succ n =>
    rw [removeGroupFrom]
    split
    · have hstay : ∀ (names : List Text) (groups : Finset Text), (∀ x ∈ names, x = allGroup) →
          names.foldl (fun groups oldg =>
            if oldg = allGroup ∨ ∃ childg ∈ groups, oldg ∈ s.getAncestors childg then groups
            else s.removeGroupFrom py n groups oldg) groups = groups := by
        intro names groups hnames
        induction names with
        | nil => rfl
        | cons x names ih =>
          rw [List.foldl_cons, if_pos (Or.inl (hnames x List.mem_cons_self))]
          exact ih fun y hy => hnames y (List.mem_cons_of_mem x hy)
      exact hstay _ _ fun x hx => hanc x ((py.mem_order _ x).mp hx)
    · next hnot => exact (Finset.erase_eq_of_notMem hnot).symm

/-- What removing `h` from `g` changes. -/
structure MemberRemoved (s : InventoryData) (g h : Text) (s' : InventoryData) : Prop where
  sameGroups : s'.groupNames = s.groupNames
  sameHosts : s'.hostNames = s.hostNames
  depth : ∀ x, (s'.group x).depth = (s.group x).depth
  childGroups : ∀ x, (s'.group x).childGroups = (s.group x).childGroups
  parentGroups : ∀ x, (s'.group x).parentGroups = (s.group x).parentGroups
  hosts : ∀ x, (s'.group x).hosts = if x = g then (s.group x).hosts.erase h else (s.group x).hosts
  hostNames : ∀ x, (s'.group x).hostNames =
    if x = g then (s.group x).hostNames.erase h else (s.group x).hostNames
  groups_iff : ∀ x y, x ∈ (s'.host y).groups ↔ x ∈ (s.host y).groups ∧ ¬ (x = g ∧ y = h)
  hostsCache : ∀ x hosts, (s'.group x).hostsCache = some hosts →
    (s.group x).hostsCache = some hosts ∧ ¬ s.hierarchy.Below x g

theorem memberRemoved (py : Interpreter) (hs : s.Linked)
    (hanc : ∀ x ∈ s.getAncestors g, x = allGroup) :
    MemberRemoved s g h (((s.eraseHost g h).hostRemoveGroup py h g).clearHostsCache g) := by
  have hfield : ∀ x, (s.eraseHost g h).group x =
      if x = g then { s.group x with
        hosts := (s.group x).hosts.erase h
        hostNames := (s.group x).hostNames.erase h }
      else s.group x := by
    intro x
    by_cases hx : x = g
    · subst hx
      simp [eraseHost, modifyGroup]
    · simp [eraseHost, modifyGroup, hx]
  have hsim := similar_clearHostsCache (s := (s.eraseHost g h).hostRemoveGroup py h g) (g := g)
  have hsame : (s.eraseHost g h).getAncestors g = s.getAncestors g := by
    apply getAncestors_congr
    · rfl
    · intro x
      rw [hfield]
      split <;> rfl
  refine ⟨rfl, rfl, ?_, ?_, ?_, ?_, ?_, ?_, ?_⟩
  · intro x
    refine (hsim.group x).depth.trans ?_
    rw [hostRemoveGroup, modifyHost, hfield]
    split <;> rfl
  · intro x
    refine (hsim.group x).childGroups.trans ?_
    rw [hostRemoveGroup, modifyHost, hfield]
    split <;> rfl
  · intro x
    refine (hsim.group x).parentGroups.trans ?_
    rw [hostRemoveGroup, modifyHost, hfield]
    split <;> rfl
  · intro x
    refine (hsim.group x).hosts.trans ?_
    rw [hostRemoveGroup, modifyHost, hfield]
    split <;> rfl
  · intro x
    refine (hsim.group x).hostNames.trans ?_
    rw [hostRemoveGroup, modifyHost, hfield]
    split <;> rfl
  · intro x y
    have hgone := removeGroupFrom_eq py (s := s.eraseHost g h) (g := g)
      (fun x hx => hanc x (hsame ▸ hx))
    by_cases hy : y = h
    · subst hy
      simp only [clearHostsCache, hostRemoveGroup, modifyHost, Function.update_self, hgone,
        Finset.mem_erase, and_true]
      exact and_comm
    · simp [clearHostsCache, hostRemoveGroup, modifyHost, eraseHost, modifyGroup, hy]
  · intro x hosts hcache
    have hold : ((s.eraseHost g h).group x).hostsCache = (s.group x).hostsCache := by
      rw [hfield]
      split <;> rfl
    rw [← hold]
    exact hostsCache_clearHostsCache hs hsame hcache

theorem MemberRemoved.hierarchy (hm : MemberRemoved s g h s') (hs : s.Consistent) :
    s'.hierarchy = s.hierarchy.removeMember g h := by
  refine congrArg₂ Hierarchy.mk ?_ ?_
  · funext p c
    rw [hm.childGroups]
    rfl
  · funext x y
    rw [hm.hosts]
    by_cases hx : x = g
    · rw [if_pos hx, (hs.nodup_hosts x).mem_erase_iff]
      refine propext ⟨fun hy => ⟨hy.2, fun heq => hy.1 heq.2⟩, fun hy => ⟨fun heq => ?_, hy.1⟩⟩
      exact hy.2 ⟨hx, heq⟩
    · rw [if_neg hx]
      exact propext ⟨fun hy => ⟨hy, fun heq => hx heq.1⟩, And.left⟩

theorem MemberRemoved.consistent (hm : MemberRemoved s g h s') (hs : s.Consistent)
    (hgone : ¬ s'.hierarchy.Contains g h)
    (hkeep : ∀ x, x ≠ g → s.hierarchy.Contains x h → s'.hierarchy.Contains x h) :
    s'.Consistent where
  known_of_child p c hpc := by
    rw [hm.hierarchy hs] at hpc
    rw [hm.sameGroups]
    exact hs.known_of_child p c hpc
  parent_iff p c := by
    rw [hm.parentGroups, hm.hierarchy hs]
    exact hs.parent_iff p c
  known_of_direct x y hxy := by
    rw [hm.hierarchy hs] at hxy
    rw [hm.sameGroups, hm.sameHosts]
    exact hs.known_of_direct x y hxy.1
  depth_lt p c hpc := by
    rw [hm.hierarchy hs] at hpc
    rw [hm.depth, hm.depth]
    exact hs.depth_lt p c hpc
  depth_tight c := by
    simp only [hm.depth, hm.hierarchy hs]
    exact hs.depth_tight c
  hostNames_eq x := by
    rw [hm.hostNames, hm.hosts, hs.hostNames_eq]
    split
    · ext y
      rw [Finset.mem_erase, List.mem_toFinset, List.mem_toFinset, (hs.nodup_hosts x).mem_erase_iff]
    · rfl
  nodup_hosts x := by
    rw [hm.hosts]
    split
    · exact (hs.nodup_hosts x).erase h
    · exact hs.nodup_hosts x
  groups_iff x y := by
    rw [hm.groups_iff, hs.groups_iff]
    by_cases hy : y = h
    · subst hy
      by_cases hx : x = g
      · subst hx
        exact iff_of_false (fun hc => hc.2 ⟨rfl, rfl⟩) hgone
      · rw [and_iff_left fun heq => hx heq.1]
        refine ⟨hkeep x hx, fun hc => ?_⟩
        rw [hm.hierarchy hs] at hc
        exact Hierarchy.contains_of_removeMember hc
    · rw [and_iff_left fun heq => hy heq.2, hm.hierarchy hs,
        Hierarchy.contains_removeMember_of_ne hy]
  cache_iff x hosts hcache y := by
    rcases hm.hostsCache x hosts hcache with ⟨hold, hnot⟩
    rw [hm.hierarchy hs, Hierarchy.contains_removeMember_of_not_below hnot]
    exact hs.cache_iff x hosts hold y

/-- What the rounds for hosts rely on, and keep. -/
structure Rounds (s : InventoryData) : Prop where
  consistent : s.Consistent
  plain : s.Plain
  rooted : s.Rooted
  ungrouped_known : ungroupedGroup ∈ s.groupNames

/-- Nothing but `all` is above `ungrouped`. -/
theorem Rounds.above_ungrouped (hr : s.Rounds) (hx : s.hierarchy.Below x ungroupedGroup) :
    x = ungroupedGroup ∨ x = allGroup := by
  rcases ReflTransGen.cases_tail hx with heq | ⟨p, hxp, hp⟩
  · exact Or.inl heq.symm
  · rw [hr.plain.parent_ungrouped p hp] at hxp
    rcases ReflTransGen.cases_tail hxp with heq | ⟨q, _, hq⟩
    · exact Or.inr heq.symm
    · exact absurd hq (hr.rooted.not_child_all hr.consistent q)

theorem Rounds.contains_ungrouped_iff (hr : s.Rounds) :
    s.hierarchy.Contains ungroupedGroup h ↔ s.hierarchy.direct ungroupedGroup h :=
  Hierarchy.contains_iff_of_no_child hr.plain.no_child_ungrouped

/-- `all` contains what any other group contains. -/
theorem Rounds.contains_all (hr : s.Rounds) (hne : g ≠ allGroup)
    (hc : s.hierarchy.Contains g h) : s.hierarchy.Contains allGroup h := by
  have hg : g ∈ s.groupNames := (hr.consistent.known_of_contains hc).1
  exact Hierarchy.Below.contains (hr.rooted g hg hne).to_reflTransGen hc

/-- What a round does to its host; the others keep their groups. -/
structure HostReconciled (s : InventoryData) (h : Text) (s' : InventoryData) : Prop where
  rounds : s'.Rounds
  sameGroups : s'.groupNames = s.groupNames
  sameHosts : s'.hostNames = s.hostNames
  child : s'.hierarchy.child = s.hierarchy.child
  direct_iff : ∀ g k, g ≠ ungroupedGroup ∨ k ≠ h →
    (s'.hierarchy.direct g k ↔ s.hierarchy.direct g k)
  contains_all : s'.hierarchy.Contains allGroup h
  ungrouped_iff : s'.hierarchy.direct ungroupedGroup h ↔ s'.Alone h

/-- The groups that contain a host depend on the edges and on where it is a member itself. -/
theorem contains_congr (hchild : s'.hierarchy.child = s.hierarchy.child)
    (hdirect : ∀ g, s'.hierarchy.direct g h ↔ s.hierarchy.direct g h) (g : Text) :
    s'.hierarchy.Contains g h ↔ s.hierarchy.Contains g h := by
  simp only [Hierarchy.Contains, Hierarchy.Below, hchild, hdirect]

/-- A round for one host leaves things as the other rounds need them. -/
theorem Rounds.transfer (hr : s.Rounds) (hcons : s'.Consistent)
    (hnames : s'.groupNames = s.groupNames) (hhosts : s'.hostNames = s.hostNames)
    (hchild : s'.hierarchy.child = s.hierarchy.child)
    (hothers : ∀ g k, k ≠ h → (s'.hierarchy.direct g k ↔ s.hierarchy.direct g k))
    (hname : s'.Alone h → h ∉ s.groupNames) : s'.Rounds where
  consistent := hcons
  plain := by
    refine ⟨?_, ?_, ?_⟩
    · rw [hchild]
      exact hr.plain.parent_ungrouped
    · rw [hchild]
      exact hr.plain.no_child_ungrouped
    · rw [hhosts, hnames]
      intro k hk halone
      by_cases hkh : k = h
      · exact hkh ▸ hname (hkh ▸ halone)
      · refine hr.plain.host_ne_group k hk fun g hall hun hc => halone g hall hun ?_
        exact (contains_congr hchild (fun x => hothers x k hkh) g).mpr hc
  rooted := by
    rw [Rooted, hchild, hnames]
    exact hr.rooted
  ungrouped_known := hnames ▸ hr.ungrouped_known

theorem HostReconciled.refl (hr : s.Rounds) (hall : s.hierarchy.Contains allGroup h)
    (hiff : s.hierarchy.direct ungroupedGroup h ↔ s.Alone h) : HostReconciled s h s :=
  ⟨hr, rfl, rfl, rfl, fun _ _ _ => Iff.rfl, hall, hiff⟩

/-- A host in `ungrouped` and in another group leaves `ungrouped`. -/
theorem Rounds.groupRemoveHost (hr : s.Rounds) (hmem : s.hierarchy.direct ungroupedGroup h)
    (hother : ¬ s.Alone h) : HostReconciled s h (s.groupRemoveHost py ungroupedGroup h) := by
  have hs := hr.consistent
  have hin : h ∈ (s.group ungroupedGroup).hostNames := by
    rw [hs.hostNames_eq]
    exact List.mem_toFinset.mpr hmem
  have hanc : ∀ x ∈ s.getAncestors ungroupedGroup, x = allGroup := by
    intro x hx
    have hpath := (mem_getAncestors hs.toLinked).mp hx
    rcases hr.above_ungrouped hpath.to_reflTransGen with rfl | heq
    · exact absurd hpath (hs.acyclic _)
    · exact heq
  rw [InventoryData.groupRemoveHost, if_pos hin]
  have hm := memberRemoved py (h := h) hs.toLinked hanc
  set s' := ((s.eraseHost ungroupedGroup h).hostRemoveGroup py h ungroupedGroup).clearHostsCache
    ungroupedGroup with hs'
  have hchild : s'.hierarchy.child = s.hierarchy.child := by
    rw [hm.hierarchy hs]
    rfl
  simp only [Alone, not_forall, not_not] at hother
  rcases hother with ⟨x, hxall, hxun, hx⟩
  have hxstay : s'.hierarchy.Contains x h := by
    have hnot : ¬ s.hierarchy.Below x ungroupedGroup := fun hbelow =>
      (hr.above_ungrouped hbelow).elim hxun hxall
    rw [hm.hierarchy hs]
    exact (Hierarchy.contains_removeMember_of_not_below hnot).mpr hx
  have hallstay : s'.hierarchy.Contains allGroup h := by
    have hxknown : x ∈ s.groupNames := (hs.known_of_contains hx).1
    refine Hierarchy.Below.contains ?_ hxstay
    rw [Hierarchy.Below, hchild]
    exact (hr.rooted x hxknown hxall).to_reflTransGen
  have hdirect : ∀ g k, s'.hierarchy.direct g k ↔
      s.hierarchy.direct g k ∧ ¬ (g = ungroupedGroup ∧ k = h) := by
    intro g k
    rw [hm.hierarchy hs]
    rfl
  have hgone : ¬ s'.hierarchy.Contains ungroupedGroup h := by
    rw [Hierarchy.contains_iff_of_no_child (hchild ▸ hr.plain.no_child_ungrouped), hdirect]
    exact fun hdir => hdir.2 ⟨rfl, rfl⟩
  have hcons : s'.Consistent := by
    refine hm.consistent hs hgone fun y hy hc => ?_
    by_cases hbelow : s.hierarchy.Below y ungroupedGroup
    · rw [(hr.above_ungrouped hbelow).resolve_left hy]
      exact hallstay
    · rw [hm.hierarchy hs]
      exact (Hierarchy.contains_removeMember_of_not_below hbelow).mpr hc
  have hothers : ∀ g k, g ≠ ungroupedGroup ∨ k ≠ h →
      (s'.hierarchy.direct g k ↔ s.hierarchy.direct g k) := by
    intro g k hgk
    rw [hdirect]
    refine and_iff_left fun heq => ?_
    exact hgk.elim (fun h => h heq.1) fun h => h heq.2
  have hnotAlone : ¬ s'.Alone h := fun halone => halone x hxall hxun hxstay
  have hrest : ∀ g k, k ≠ h → (s'.hierarchy.direct g k ↔ s.hierarchy.direct g k) :=
    fun g k hk => hothers g k (Or.inr hk)
  have hrounds : s'.Rounds := hr.transfer hcons hm.sameGroups hm.sameHosts hchild hrest
    fun halone => absurd halone hnotAlone
  refine ⟨hrounds, hm.sameGroups, hm.sameHosts, hchild, hothers, hallstay, ?_⟩
  exact iff_of_false (fun hdir => ((hdirect _ _).mp hdir).2 ⟨rfl, rfl⟩) hnotAlone

/-- A host in no other group joins `ungrouped`. -/
theorem Rounds.addUngrouped (hr : s.Rounds) (hh : h ∈ s.hostNames) (halone : s.Alone h)
    (hok : s.addChild ungroupedGroup h = .ok s') : HostReconciled s h s' := by
  rcases addChild_spec hr.consistent hok with ⟨hcons, _, hnames, hhosts, hhier⟩
  have hname := hr.plain.host_ne_group h hh halone
  rw [if_neg hname] at hhier
  have hchild : s'.hierarchy.child = s.hierarchy.child := by
    rw [hhier]
    rfl
  have hdirect : ∀ g k, s'.hierarchy.direct g k ↔
      s.hierarchy.direct g k ∨ g = ungroupedGroup ∧ k = h := by
    intro g k
    rw [hhier]
    rfl
  have hothers : ∀ g k, g ≠ ungroupedGroup ∨ k ≠ h →
      (s'.hierarchy.direct g k ↔ s.hierarchy.direct g k) := by
    intro g k hgk
    rw [hdirect]
    refine or_iff_left fun heq => ?_
    exact hgk.elim (fun h => h heq.1) fun h => h heq.2
  have hr' := hr.transfer hcons hnames hhosts hchild (fun g k hk => hothers g k (Or.inr hk))
    fun _ => hname
  have hin : s'.hierarchy.direct ungroupedGroup h := (hdirect _ _).mpr (Or.inr ⟨rfl, rfl⟩)
  refine ⟨hr', hnames, hhosts, hchild, hothers, ?_, ?_⟩
  · exact hr'.contains_all ungroupedGroup_ne (hr'.contains_ungrouped_iff.mpr hin)
  · refine iff_of_true hin fun g hall hun hc => ?_
    rw [hhier, Hierarchy.contains_addMember_iff] at hc
    rcases hc with hold | ⟨hbelow, _⟩
    · exact halone g hall hun hold
    · exact (hr.above_ungrouped hbelow).elim hun hall

/-- The number of groups tells that a host is in no other. -/
theorem Consistent.alone_of_card (hs : s.Consistent)
    (hcard : (s.host h).groups.card = 0 ∨
      (s.host h).groups.card = 1 ∧ allGroup ∈ (s.host h).groups) : s.Alone h := by
  intro g hall hne hc
  have hg := (hs.groups_iff g h).mpr hc
  rcases hcard with hzero | ⟨hone, hallmem⟩
  · rw [Finset.card_eq_zero.mp hzero] at hg
    exact absurd hg (Finset.notMem_empty g)
  · rcases Finset.card_eq_one.mp hone with ⟨x, hx⟩
    rw [hx, Finset.mem_singleton] at hallmem hg
    exact hall (hg.trans hallmem.symm)

/-- **One round for a host.** -/
theorem Rounds.reconcileHost (hr : s.Rounds) (hh : h ∈ s.hostNames)
    (hok : s.reconcileHost py h = .ok s') : HostReconciled s h s' := by
  have hs := hr.consistent
  have hgroups := hs.groups_iff
  unfold InventoryData.reconcileHost at hok
  dsimp only at hok
  by_cases hun : ungroupedGroup ∈ (s.host h).groups
  · rw [if_pos hun] at hok
    have hcontains := (hgroups _ h).mp hun
    have hdirect := hr.contains_ungrouped_iff.mp hcontains
    by_cases hother : (s.host h).groups \ {allGroup, ungroupedGroup} = ∅
    · rw [if_neg (not_not_intro hother)] at hok
      cases hok
      refine HostReconciled.refl hr (hr.contains_all ungroupedGroup_ne hcontains) ?_
      refine iff_of_true hdirect fun g hall hne hc => ?_
      have hmem : g ∈ (s.host h).groups \ {allGroup, ungroupedGroup} :=
        Finset.mem_sdiff.mpr ⟨(hgroups g h).mpr hc, by simp [hall, hne]⟩
      rw [hother] at hmem
      exact absurd hmem (Finset.notMem_empty g)
    · rw [if_pos hother] at hok
      cases hok
      refine hr.groupRemoveHost hdirect fun halone => ?_
      rcases Finset.nonempty_iff_ne_empty.mpr hother with ⟨x, hx⟩
      rw [Finset.mem_sdiff, Finset.mem_insert, Finset.mem_singleton, not_or] at hx
      exact halone x hx.2.1 hx.2.2 ((hgroups x h).mp hx.1)
  · rw [if_neg hun] at hok
    by_cases hcard : (s.host h).groups.card = 0 ∨
        (s.host h).groups.card = 1 ∧ allGroup ∈ (s.host h).groups
    · rw [if_pos hcard] at hok
      exact hr.addUngrouped hh (hs.alone_of_card hcard) hok
    · rw [if_neg hcard] at hok
      cases hok
      have hsome : ∃ x ∈ (s.host h).groups, x ≠ allGroup := by
        by_contra hnone
        simp only [not_exists, not_and, not_not] at hnone
        have hsub : (s.host h).groups ⊆ {allGroup} := fun x hx =>
          Finset.mem_singleton.mpr (hnone x hx)
        rcases Finset.subset_singleton_iff.mp hsub with hempty | hall
        · exact hcard (Or.inl (Finset.card_eq_zero.mpr hempty))
        · rw [hall] at hcard
          exact hcard (Or.inr ⟨Finset.card_singleton _, Finset.mem_singleton_self _⟩)
      rcases hsome with ⟨x, hx, hxall⟩
      have hxun : x ≠ ungroupedGroup := fun heq => hun (heq ▸ hx)
      have hcx := (hgroups x h).mp hx
      refine HostReconciled.refl hr (hr.contains_all hxall hcx) (iff_of_false ?_ ?_)
      · intro hdirect
        exact hun ((hgroups _ h).mpr ⟨_, ReflTransGen.refl, hdirect⟩)
      · exact fun halone => halone x hxall hxun hcx

/-! ## All rounds -/

/-- What the rounds for some hosts do. -/
structure HostsReconciled (s : InventoryData) (names : List Text) (s' : InventoryData) : Prop where
  rounds : s'.Rounds
  sameGroups : s'.groupNames = s.groupNames
  sameHosts : s'.hostNames = s.hostNames
  child : s'.hierarchy.child = s.hierarchy.child
  direct_iff : ∀ g k, g ≠ ungroupedGroup ∨ k ∉ names →
    (s'.hierarchy.direct g k ↔ s.hierarchy.direct g k)
  contains_all : ∀ h ∈ names, s'.hierarchy.Contains allGroup h
  ungrouped_iff : ∀ h ∈ names, s'.hierarchy.direct ungroupedGroup h ↔ s'.Alone h

theorem foldlM_reconcileHost {names : List Text} (hr : s.Rounds)
    (hnames : ∀ h ∈ names, h ∈ s.hostNames)
    (hok : names.foldlM (reconcileHost py · ·) s = .ok s') : HostsReconciled s names s' := by
  induction names generalizing s with
  | nil =>
    cases hok
    exact ⟨hr, rfl, rfl, rfl, fun _ _ _ => Iff.rfl, fun h hh => absurd hh List.not_mem_nil,
      fun h hh => absurd hh List.not_mem_nil⟩
  | cons h names ih =>
    rw [List.foldlM_cons] at hok
    rcases bind_eq_ok hok with ⟨s₁, hround, hrest⟩
    have hhost := hr.reconcileHost (hnames h List.mem_cons_self) hround
    have hnames₁ : ∀ k ∈ names, k ∈ s₁.hostNames := fun k hk =>
      hhost.sameHosts ▸ hnames k (List.mem_cons_of_mem h hk)
    have hrec := ih hhost.rounds hnames₁ hrest
    refine ⟨hrec.rounds, hrec.sameGroups.trans hhost.sameGroups,
      hrec.sameHosts.trans hhost.sameHosts, hrec.child.trans hhost.child, ?_, ?_, ?_⟩
    · intro g k hgk
      have hsplit : (g ≠ ungroupedGroup ∨ k ∉ names) ∧ (g ≠ ungroupedGroup ∨ k ≠ h) := by
        rw [List.mem_cons, not_or] at hgk
        exact ⟨hgk.imp_right And.right, hgk.imp_right And.left⟩
      exact (hrec.direct_iff g k hsplit.1).trans (hhost.direct_iff g k hsplit.2)
    all_goals
      intro k hk
      by_cases hlater : k ∈ names
      · first | exact hrec.contains_all k hlater | exact hrec.ungrouped_iff k hlater
      -- the last round for this host was the first of these
      have heq : k = h := (List.mem_cons.mp hk).resolve_right hlater
      subst heq
      have hsame := contains_congr hrec.child fun g => hrec.direct_iff g k (Or.inr hlater)
    · exact (hsame allGroup).mpr hhost.contains_all
    · rw [hrec.direct_iff _ _ (Or.inr hlater), hhost.ungrouped_iff]
      simp only [Alone, hsame]

/-- What reconciling achieves. -/
structure Reconciled (s s' : InventoryData) : Prop where
  consistent : s'.Consistent
  dictCurrent : s'.DictCurrent
  plain : s'.Plain
  sameGroups : s'.groupNames = s.groupNames
  sameHosts : s'.hostNames = s.hostNames
  /-- New edges start at `all`, and go to groups that had no parent. -/
  child_mono : ∀ p c, s.hierarchy.child p c → s'.hierarchy.child p c
  child_new : ∀ p c, s'.hierarchy.child p c →
    s.hierarchy.child p c ∨ p = allGroup ∧ ∀ q, ¬ s.hierarchy.child q c
  /-- Members change in `ungrouped` only. -/
  direct_iff : ∀ g h, g ≠ ungroupedGroup → (s'.hierarchy.direct g h ↔ s.hierarchy.direct g h)
  rooted : s'.Rooted
  contains_all : ∀ h ∈ s.hostNames, s'.hierarchy.Contains allGroup h
  ungrouped_iff : ∀ h ∈ s.hostNames, s'.hierarchy.direct ungroupedGroup h ↔ s'.Alone h

theorem Plain.groupsReconciled (hp : s.Plain) (hrec : GroupsReconciled s s') : s'.Plain where
  parent_ungrouped p hpc := (hrec.child_new p _ hpc).elim (hp.parent_ungrouped p) And.left
  no_child_ungrouped c hc := (hrec.child_new _ c hc).elim (hp.no_child_ungrouped c) fun hnew =>
    ungroupedGroup_ne hnew.1
  host_ne_group := by
    rw [hrec.sameHosts, hrec.sameGroups]
    intro h hh halone
    refine hp.host_ne_group h hh fun g hall hun hc => halone g hall hun ?_
    rcases hc with ⟨d, hd, hdirect⟩
    refine ⟨d, ReflTransGen.mono (fun x y hxy => hrec.child_mono x y hxy) _ _ hd, ?_⟩
    rw [hrec.direct]
    exact hdirect

theorem Consistent.setSource (hs : s.Consistent) (source : Option Text) :
    Consistent { s with currentSource := source } :=
  hs.similar_of_drop ⟨List.Subset.refl _, List.Subset.refl _, fun _ => Alike.refl _, fun _ => rfl⟩
    fun _ => Or.inr rfl

/-- **Reconciling** puts every group below `all`, and leaves in `ungrouped` exactly the hosts that
are in no other group. -/
theorem reconcileInventory_spec (hs : s.Consistent) (hp : s.Plain)
    (hun : ungroupedGroup ∈ s.groupNames) (hok : s.reconcileInventory py = .ok s') :
    Reconciled s s' := by
  rcases bind_eq_ok hok with ⟨s₁, hgroups, hok₁⟩
  rcases bind_eq_ok hok₁ with ⟨s₂, hhosts, hret⟩
  cases hret
  rcases foldlM_reconcileGroup (hs.setSource none) (fun g hg => hg) hgroups with ⟨hrec, hparents⟩
  have hplain : s₁.Plain := hp.groupsReconciled ⟨hrec.consistent, hrec.sameGroups, hrec.sameHosts,
    hrec.direct, hrec.child_mono, hrec.child_new⟩
  have hrooted : s₁.Rooted := rooted_of_parent hrec.consistent fun g hg hne =>
    hparents g (hrec.sameGroups ▸ hg) hne
  have hrounds : s₁.Rounds := ⟨hrec.consistent, hplain, hrooted, hrec.sameGroups ▸ hun⟩
  have hall := foldlM_reconcileHost hrounds (fun h hh => hh) hhosts
  have hnames : s₁.hostNames = s.hostNames := hrec.sameHosts
  have hplain₂ := hall.rounds.plain
  refine ⟨hall.rounds.consistent.dropDict, Or.inl rfl,
    ⟨hplain₂.parent_ungrouped, hplain₂.no_child_ungrouped, hplain₂.host_ne_group⟩,
    hall.sameGroups.trans hrec.sameGroups, hall.sameHosts.trans hnames, ?_, ?_, ?_,
    hall.rounds.rooted, ?_, ?_⟩
  · intro p c hpc
    exact hall.child ▸ hrec.child_mono p c hpc
  · intro p c hpc
    exact hrec.child_new p c (hall.child ▸ hpc)
  · intro g h hg
    refine (hall.direct_iff g h (Or.inl hg)).trans ?_
    rw [hrec.direct]
    rfl
  · exact fun h hh => hall.contains_all h (hnames ▸ hh)
  · exact fun h hh => hall.ungrouped_iff h (hnames ▸ hh)

/-- A round for a group is refused only if the group is above `all`. -/
theorem exists_reconcileGroup (hs : s.Consistent) (hall : allGroup ∈ s.groupNames)
    (hroot : ∀ p, ¬ s.hierarchy.child p allGroup) (hg : g ∈ s.groupNames) :
    ∃ s', s.reconcileGroup g = .ok s' ∧ ∀ p, ¬ s'.hierarchy.child p allGroup := by
  by_cases hcond : g ≠ allGroup ∧ s.getAncestors g = ∅
  · have hloop : ¬ s.hierarchy.Below g allGroup := by
      intro hbelow
      rcases ReflTransGen.cases_tail hbelow with heq | ⟨p, _, hp⟩
      · exact hcond.1 heq.symm
      · exact hroot p hp
    rcases (addChildGroup_isOk_iff hs hall hg).mpr hloop with ⟨s₁, hok⟩
    have hadd : s.addChild allGroup g = .ok { s₁ with groupsDictCache := [] } := by
      rw [addChild, if_pos hall, if_pos hg, hok]
      rfl
    refine ⟨_, by rw [reconcileGroup, if_pos hcond]; exact hadd, ?_⟩
    intro p hp
    have hhier := (addChildGroup_spec hs hall hg hok).2.1
    have hp' : (s.hierarchy.addChild allGroup g).child p allGroup := hhier ▸ hp
    rcases hp' with hold | ⟨_, heq⟩
    · exact hroot p hold
    · exact hcond.1 heq.symm
  · exact ⟨s, by rw [reconcileGroup, if_neg hcond], hroot⟩

theorem exists_foldlM_reconcileGroup {names : List Text} (hs : s.Consistent)
    (hall : allGroup ∈ s.groupNames) (hroot : ∀ p, ¬ s.hierarchy.child p allGroup)
    (hnames : ∀ g ∈ names, g ∈ s.groupNames) :
    ∃ s', names.foldlM reconcileGroup s = .ok s' := by
  induction names generalizing s with
  | nil => exact ⟨s, rfl⟩
  | cons g names ih =>
    have hg := hnames g List.mem_cons_self
    rcases exists_reconcileGroup hs hall hroot hg with ⟨s₁, hround, hroot₁⟩
    have hrec := (reconcileGroup_spec hs hg hround).1
    rcases ih hrec.consistent (hrec.sameGroups ▸ hall) hroot₁ (fun x hx =>
      hrec.sameGroups ▸ hnames x (List.mem_cons_of_mem g hx)) with ⟨s₂, hrest⟩
    exact ⟨s₂, by rw [List.foldlM_cons, hround]; exact hrest⟩

/-- A round for a host is never refused. -/
theorem Rounds.exists_reconcileHost (py : Interpreter) (hr : s.Rounds) (hh : h ∈ s.hostNames) :
    ∃ s', s.reconcileHost py h = .ok s' := by
  have hadd : s.Alone h → ∃ s', s.addChild ungroupedGroup h = .ok s' := by
    intro halone
    rw [addChild, if_pos hr.ungrouped_known, if_neg (hr.plain.host_ne_group h hh halone),
      if_pos hh]
    exact ⟨_, rfl⟩
  unfold InventoryData.reconcileHost
  dsimp only
  split
  · split
    · exact ⟨_, rfl⟩
    · exact ⟨_, rfl⟩
  · split
    · next hcard => exact hadd (hr.consistent.alone_of_card hcard)
    · exact ⟨_, rfl⟩

theorem exists_foldlM_reconcileHost (py : Interpreter) {names : List Text} (hr : s.Rounds)
    (hnames : ∀ h ∈ names, h ∈ s.hostNames) :
    ∃ s', names.foldlM (reconcileHost py · ·) s = .ok s' := by
  induction names generalizing s with
  | nil => exact ⟨s, rfl⟩
  | cons h names ih =>
    have hh := hnames h List.mem_cons_self
    rcases hr.exists_reconcileHost py hh with ⟨s₁, hround⟩
    have hrec := hr.reconcileHost hh hround
    rcases ih hrec.rounds (fun k hk =>
      hrec.sameHosts ▸ hnames k (List.mem_cons_of_mem h hk)) with ⟨s₂, hrest⟩
    exact ⟨s₂, by rw [List.foldlM_cons, hround]; exact hrest⟩

/-- **Reconciling fails if and only if some group was put above `all`.** -/
theorem reconcileInventory_isOk_iff (hs : s.Consistent) (hp : s.Plain)
    (hall : allGroup ∈ s.groupNames) (hun : ungroupedGroup ∈ s.groupNames) :
    (∃ s', s.reconcileInventory py = .ok s') ↔ ∀ p, ¬ s.hierarchy.child p allGroup := by
  constructor
  · intro hok p hp'
    rcases hok with ⟨s', hok⟩
    have hrec := reconcileInventory_spec hs hp hun hok
    exact hrec.rooted.not_child_all hrec.consistent p (hrec.child_mono p _ hp')
  · intro hroot
    set s₀ : InventoryData := { s with currentSource := none } with hs₀
    have hcons₀ : s₀.Consistent := hs.setSource none
    rcases exists_foldlM_reconcileGroup hcons₀ hall hroot (fun g hg => hg) with ⟨s₁, hgroups⟩
    rcases foldlM_reconcileGroup hcons₀ (fun g hg => hg) hgroups with ⟨hrec, hparents⟩
    have hplain₀ : s₀.Plain :=
      ⟨hp.parent_ungrouped, hp.no_child_ungrouped, hp.host_ne_group⟩
    have hrounds : s₁.Rounds := ⟨hrec.consistent, hplain₀.groupsReconciled hrec,
      rooted_of_parent hrec.consistent fun g hg hne => hparents g (hrec.sameGroups ▸ hg) hne,
      hrec.sameGroups ▸ hun⟩
    rcases exists_foldlM_reconcileHost py hrounds (fun h hh => hh) with ⟨s₂, hhosts⟩
    refine ⟨{ s₂ with groupsDictCache := [] }, ?_⟩
    change (s₀.groupNames.foldlM reconcileGroup s₀ >>= fun s => _) = _
    rw [hgroups]
    change (s₁.hostNames.foldlM (reconcileHost py · ·) s₁ >>= fun s => _) = _
    rw [hhosts]
    rfl

/-! ## Reconciling again -/

/-- The groups that contain a host do not depend on `ungrouped`, those above it apart. -/
theorem Rounds.contains_congr (hr : s.Rounds) (hchild : s'.hierarchy.child = s.hierarchy.child)
    (hdirect : ∀ g, g ≠ ungroupedGroup → (s'.hierarchy.direct g h ↔ s.hierarchy.direct g h))
    (hall : g ≠ allGroup) (hun : g ≠ ungroupedGroup) :
    s'.hierarchy.Contains g h ↔ s.hierarchy.Contains g h := by
  simp only [Hierarchy.Contains, Hierarchy.Below, hchild]
  refine exists_congr fun d => and_congr_right fun hbelow => hdirect d fun heq => ?_
  subst heq
  exact (hr.above_ungrouped hbelow).elim hun hall

/-- Nothing is left to do the second time. -/
theorem Reconciled.again {s'' : InventoryData} (hr : Reconciled s s') (hr' : Reconciled s' s'')
    (hun : ungroupedGroup ∈ s.groupNames) : s''.hierarchy = s'.hierarchy := by
  have hrounds : s'.Rounds := ⟨hr.consistent, hr.plain, hr.rooted, hr.sameGroups ▸ hun⟩
  have hchild : s''.hierarchy.child = s'.hierarchy.child := by
    funext p c
    refine propext ⟨fun hpc => ?_, hr'.child_mono p c⟩
    rcases hr'.child_new p c hpc with hold | ⟨rfl, hnone⟩
    · exact hold
    · -- every group but `all` had a parent already
      have hc : c ∈ s'.groupNames := hr'.sameGroups ▸ (hr'.consistent.known_of_child _ c hpc).2
      have hne : c ≠ allGroup := by
        rintro rfl
        exact hr'.rooted.not_child_all hr'.consistent _ hpc
      rcases TransGen.tail'_iff.mp (hr.rooted c hc hne) with ⟨q, _, hq⟩
      exact absurd hq (hnone q)
  have hdirect : s''.hierarchy.direct = s'.hierarchy.direct := by
    funext g h
    refine propext ?_
    by_cases hg : g = ungroupedGroup
    · subst hg
      by_cases hh : h ∈ s.hostNames
      · have hh' : h ∈ s'.hostNames := hr.sameHosts ▸ hh
        rw [hr'.ungrouped_iff h hh', hr.ungrouped_iff h hh]
        refine forall_congr' fun x => forall_congr' fun hall => forall_congr' fun hx => ?_
        exact not_congr (hrounds.contains_congr hchild (fun y hy => hr'.direct_iff y h hy) hall hx)
      · have hh' : h ∉ s''.hostNames := by
          rw [hr'.sameHosts, hr.sameHosts]
          exact hh
        refine iff_of_false (fun hd => hh' (hr'.consistent.known_of_direct _ h hd).2) fun hd => ?_
        exact hh (hr.sameHosts ▸ (hr.consistent.known_of_direct _ h hd).2)
    · exact hr'.direct_iff g h hg
  exact congrArg₂ Hierarchy.mk hchild hdirect

/-! ## Whole runs -/

/-- The states that commands lead to, each allowed where it is given. -/
inductive Reachable (py : Interpreter) (Allowed : InventoryData → Command → Prop) :
    InventoryData → Prop where
  | init {s : InventoryData} : init py = .ok s → Reachable py Allowed s
  | step {s s' : InventoryData} {command : Command} : Reachable py Allowed s →
      Allowed s command → s.apply py command = .ok s' → Reachable py Allowed s'

/-- An inventory is reconciled only while it is plain; any other command is given at any time. -/
def PlainReconcile (s : InventoryData) (command : Command) : Prop :=
  command = .reconcileInventory → s.Plain

theorem plainReconcile_of_ne {command : Command} (h : command ≠ .reconcileInventory) :
    PlainReconcile s command := fun heq => absurd heq h

/-- What every command keeps. -/
structure Sound (s : InventoryData) : Prop where
  consistent : s.Consistent
  dictCurrent : s.DictCurrent
  all_known : allGroup ∈ s.groupNames
  ungrouped_known : ungroupedGroup ∈ s.groupNames

/-- **Every command keeps the invariant.** -/
theorem Sound.apply (hs : s.Sound) {command : Command}
    (hplain : PlainReconcile s command) (hok : s.apply py command = .ok s') :
    s'.Sound := by
  have hknown : s'.Consistent → s'.DictCurrent → s'.groupNames = s.groupNames → s'.Sound :=
    fun hcons hdict hnames => ⟨hcons, hdict, hnames ▸ hs.all_known, hnames ▸ hs.ungrouped_known⟩
  cases command with
  | addGroup group =>
    simp only [InventoryData.apply, Functor.map, Except.map] at hok
    split at hok
    · exact absurd hok (by simp)
    · next res hadd =>
      cases hok
      rcases addGroup_spec hs.consistent hs.dictCurrent hadd with ⟨hcons, hdict, _, hnames, _⟩
      exact ⟨hcons, hdict, (hnames _).mpr (Or.inl hs.all_known),
        (hnames _).mpr (Or.inl hs.ungrouped_known)⟩
  | addHost host group port =>
    rcases addHost_spec hs.consistent hs.dictCurrent hok with
      ⟨_, _, _, hcons, hdict, hnames, _⟩
    exact hknown hcons hdict hnames
  | addChild group child =>
    rcases addChild_spec hs.consistent hok with ⟨hcons, hdict, hnames, _⟩
    exact hknown hcons hdict hnames
  | setVariable entity varname value =>
    have hvars := onlyVars_setVariable hok
    exact hknown (hvars.consistent hs.consistent) (hs.dictCurrent.congr hvars.hierarchy
      hvars.sameGroups hvars.groupsDictCache) hvars.sameGroups
  | setSource source =>
    cases hok
    exact hknown (hs.consistent.setSource source) hs.dictCurrent rfl
  | getHosts group =>
    cases hok
    have hdict : (s.getHosts group).2.groupsDictCache = s.groupsDictCache := by
      rcases getHosts_state s group with hstate | hstate <;> rw [hstate]
      rfl
    exact hknown hs.consistent.getHosts (hs.dictCurrent.congr similar_getHosts.hierarchy
      groupNames_getHosts hdict) groupNames_getHosts
  | getGroupsDict =>
    cases hok
    rcases getGroupsDict_spec hs.consistent hs.dictCurrent with ⟨_, hcons, hdict, _⟩
    have hnames : s.getGroupsDict.2.groupNames = s.groupNames := by
      unfold InventoryData.getGroupsDict
      split
      · rfl
      · exact (foldl_cacheGroup s.groupNames hs.consistent).2.2.1
    exact hknown hcons hdict hnames
  | reconcileInventory =>
    have hrec := reconcileInventory_spec hs.consistent (hplain rfl) hs.ungrouped_known hok
    exact hknown hrec.consistent hrec.dictCurrent hrec.sameGroups

theorem Reachable.sound (hr : Reachable py PlainReconcile s) : s.Sound := by
  induction hr with
  | init hinit =>
    rcases init_spec py with ⟨s₀, hok, hcons, hdict, hnames, _⟩
    rw [hok] at hinit
    cases hinit
    exact ⟨hcons, hdict, by simp [hnames], by simp [hnames]⟩
  | step _ hplain hok ih => exact ih.apply hplain hok

/-- Some commands in a row. -/
def applyAll (py : Interpreter) (s : InventoryData) (commands : List Command) :
    Except AnsibleError InventoryData :=
  commands.foldlM (apply py) s

theorem reachable_applyAll {Allowed : InventoryData → Command → Prop} {commands : List Command}
    (hr : Reachable py Allowed s) (hcommands : ∀ command ∈ commands, ∀ t, Allowed t command)
    (hok : s.applyAll py commands = .ok s') : Reachable py Allowed s' := by
  refine foldlM_done (I := fun _ t => Reachable py Allowed t) ?_ hr hok
  intro done command rest t t' hsplit ht hround
  exact ht.step (hcommands command (by simp [hsplit]) t) hround

/-- The inventory after commands that succeed on a new one. -/
def built (py : Interpreter) (commands : List Command) : InventoryData :=
  match init py >>= (·.applyAll py commands) with
  | .ok s => s
  | .error _ => blank

theorem reachable_built {Allowed : InventoryData → Command → Prop} {commands : List Command}
    (hcommands : ∀ command ∈ commands, ∀ t, Allowed t command)
    (hok : init py >>= (·.applyAll py commands) = .ok (built py commands)) :
    Reachable py Allowed (built py commands) := by
  rcases bind_eq_ok hok with ⟨s, hinit, happly⟩
  exact reachable_applyAll (Reachable.init hinit) hcommands happly

/-- A group `web` with a host `a`, and a group `site` above it. -/
def siteCommands : List Command :=
  [.addGroup (.str "web".toList), .addHost (.str "a".toList) (some "web".toList) .null,
    .addGroup (.str "site".toList), .addChild "site".toList "web".toList]

def site : InventoryData := built .python2 siteCommands

theorem reachable_site : Reachable .python2 PlainReconcile site := by
  have hcommands : ∀ command ∈ siteCommands, command ≠ .reconcileInventory := by
    simp [siteCommands]
  exact reachable_built (fun command hmem _ => plainReconcile_of_ne (hcommands command hmem)) rfl

theorem plain_site : site.Plain := by
  have hs := reachable_site.sound.consistent
  have hedges : ∀ p ∈ site.groupNames, ∀ c ∈ (site.group p).childGroups,
      (c = ungroupedGroup → p = allGroup) ∧ p ≠ ungroupedGroup := by decide +kernel
  have hhosts : ∀ h ∈ site.hostNames, h ∉ site.groupNames := by decide +kernel
  refine ⟨fun p hp => ?_, fun c hc => ?_, fun h hh _ => hhosts h hh⟩
  · exact (hedges p (hs.known_of_child p _ hp).1 _ hp).1 rfl
  · exact (hedges _ (hs.known_of_child _ c hc).1 c hc).2 rfl

/-- **The inventory answers from its caches what its relations say**, in every state that commands
lead to while only plain inventories are reconciled: the hosts of a group, the groups of a host,
the ancestors, and the dictionary of all groups; and no group is below itself. -/
theorem answers_of_reachable (hr : Reachable py PlainReconcile s) :
    (∀ g h, h ∈ (s.getHosts g).1 ↔ s.hierarchy.Contains g h) ∧
    (∀ g h, g ∈ (s.host h).groups ↔ s.hierarchy.Contains g h) ∧
    (∀ x g, x ∈ s.getAncestors g ↔ TransGen s.hierarchy.child x g) ∧
    s.Describes s.getGroupsDict.1 ∧ s.hierarchy.Acyclic :=
  have hs := hr.sound
  have hlinked := hs.consistent.toLinked
  ⟨fun g _ => mem_getHosts hlinked (hs.consistent.cache_iff g), hs.consistent.groups_iff,
    fun _ _ => mem_getAncestors hlinked,
    (getGroupsDict_spec hs.consistent hs.dictCurrent).1, hs.consistent.acyclic⟩

/-- Through the group below it, `site` has the host. -/
theorem answers_of_reachable_site : site.hierarchy.Contains "site".toList "a".toList :=
  ((answers_of_reachable reachable_site).1 _ _).mp (by decide +kernel)

/-- A group `site` above `ungrouped`, and a host that is in `ungrouped` only. -/
def strayCommands : List Command :=
  [.addGroup (.str "site".toList), .addChild "site".toList ungroupedGroup,
    .addHost (.str "a".toList) (some ungroupedGroup) .null, .reconcileInventory]

/-- Reconciling an inventory that is not plain can leave a host that calls itself one of `all` and
that `all` does not have. -/
theorem answers_disagree :
    ∃ s, Reachable .python2 (fun _ _ => True) s ∧ allGroup ∈ (s.host "a".toList).groups ∧
      "a".toList ∉ (s.getHosts allGroup).1 :=
  ⟨built .python2 strayCommands, reachable_built (fun _ _ _ => trivial) rfl, by decide +kernel,
    by decide +kernel⟩

/-- **`add_child` is accepted in every such state, if and only if** it names a known group, and
either a group that it is not below, or what is no group but a known host. -/
theorem addChild_isOk_iff_of_reachable (hr : Reachable py PlainReconcile s) (g x : Text) :
    (∃ s', s.addChild g x = .ok s') ↔ g ∈ s.groupNames ∧
      (x ∈ s.groupNames ∧ ¬ s.hierarchy.Below x g ∨ x ∉ s.groupNames ∧ x ∈ s.hostNames) := by
  have hs := hr.sound.consistent
  unfold addChild
  by_cases hg : g ∈ s.groupNames
  · rw [if_pos hg, and_iff_right hg]
    by_cases hx : x ∈ s.groupNames
    · rw [if_pos hx, ← addChildGroup_isOk_iff hs hg hx]
      constructor
      · intro hok
        rcases hok with ⟨s', hok⟩
        rcases bind_eq_ok hok with ⟨s₁, hadd, _⟩
        exact Or.inl ⟨hx, s₁, hadd⟩
      · intro hok
        rcases hok with ⟨_, s₁, hadd⟩ | ⟨hnot, _⟩
        · exact ⟨_, by rw [hadd]; rfl⟩
        · exact absurd hx hnot
    · rw [if_neg hx]
      by_cases hhost : x ∈ s.hostNames
      · rw [if_pos hhost]
        exact iff_of_true ⟨_, rfl⟩ (Or.inr ⟨hx, hhost⟩)
      · rw [if_neg hhost]
        refine iff_of_false (by simp) fun h => ?_
        exact h.elim (fun h => hx h.1) fun h => hhost h.2
  · rw [if_neg hg]
    exact iff_of_false (by simp) fun h => hg h.1

/-- The group above `web` cannot be put below it. -/
theorem addChild_isOk_iff_of_reachable_site :
    ¬ ∃ s', site.addChild "web".toList "site".toList = .ok s' := by
  have hedge : "web".toList ∈ (site.group "site".toList).childGroups := by decide +kernel
  have hknown : "site".toList ∈ site.groupNames := by decide +kernel
  rw [addChild_isOk_iff_of_reachable reachable_site]
  intro h
  rcases h.2 with ⟨_, hnot⟩ | ⟨hnot, _⟩
  · exact hnot (ReflTransGen.single hedge)
  · exact hnot hknown

/-- **Reconciling a reachable inventory** fails if and only if some group was put above `all`;
otherwise every group is below `all` afterwards, and in `ungrouped` are exactly the hosts that are
in no other group. -/
theorem reconcile_of_reachable (hr : Reachable py PlainReconcile s) (hp : s.Plain) :
    ((∃ s', s.reconcileInventory py = .ok s') ↔ ∀ p, ¬ s.hierarchy.child p allGroup) ∧
      ∀ s', s.reconcileInventory py = .ok s' → Reconciled s s' :=
  have hs := hr.sound
  ⟨reconcileInventory_isOk_iff hs.consistent hp hs.all_known hs.ungrouped_known,
    fun _ hok => reconcileInventory_spec hs.consistent hp hs.ungrouped_known hok⟩

theorem not_child_all_site (p : Text) : ¬ site.hierarchy.child p allGroup := by
  have hedges : ∀ p ∈ site.groupNames, ∀ c ∈ (site.group p).childGroups, c ≠ allGroup := by
    decide +kernel
  intro hp
  exact hedges p (reachable_site.sound.consistent.known_of_child p _ hp).1 _ hp rfl

/-- The groups are put below `all`, and so the host is. -/
theorem reconcile_of_reachable_site : ∃ s', site.reconcileInventory .python2 = .ok s' ∧
    s'.hierarchy.Contains allGroup "a".toList := by
  rcases reconcile_of_reachable reachable_site plain_site with ⟨hiff, hspec⟩
  rcases hiff.mpr not_child_all_site with ⟨s', hok⟩
  exact ⟨s', hok, (hspec s' hok).contains_all _ (by decide +kernel)⟩

/-- **Reconciling a plain inventory again** succeeds, and changes neither groups, nor hosts, nor
any membership. -/
theorem reconcile_again (hr : Reachable py PlainReconcile s) (hp : s.Plain)
    (hok : s.reconcileInventory py = .ok s') :
    ∃ s'', s'.reconcileInventory py = .ok s'' ∧ s''.groupNames = s'.groupNames ∧
      s''.hostNames = s'.hostNames ∧ s''.hierarchy = s'.hierarchy := by
  have hs := hr.sound
  have hrec := reconcileInventory_spec hs.consistent hp hs.ungrouped_known hok
  have hall : allGroup ∈ s'.groupNames := hrec.sameGroups ▸ hs.all_known
  have hun : ungroupedGroup ∈ s'.groupNames := hrec.sameGroups ▸ hs.ungrouped_known
  have hroot := hrec.rooted.not_child_all hrec.consistent
  rcases (reconcileInventory_isOk_iff hrec.consistent hrec.plain hall hun).mpr hroot with
    ⟨s'', hok'⟩
  have hrec' := reconcileInventory_spec hrec.consistent hrec.plain hun hok'
  exact ⟨s'', hok', hrec'.sameGroups, hrec'.sameHosts, hrec.again hrec' hs.ungrouped_known⟩

theorem reconcile_again_site : ∃ s' s'', site.reconcileInventory .python2 = .ok s' ∧
    s'.reconcileInventory .python2 = .ok s'' ∧ s''.hierarchy = s'.hierarchy := by
  have hs := reachable_site.sound
  rcases (reconcileInventory_isOk_iff hs.consistent plain_site hs.all_known
    hs.ungrouped_known).mpr not_child_all_site with ⟨s', hok⟩
  rcases reconcile_again reachable_site plain_site hok with ⟨s'', hok', _, _, hhier⟩
  exact ⟨s', s'', hok, hok', hhier⟩

end InventoryData
end Ansible
