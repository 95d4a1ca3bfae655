import KubVagrant.Ansible.Reconcile

/-!
# The variables of groups

Only `set_variable` is meant to change the variables of a group.  `add_host` uses it to tell
where a host was first met, and reaches a group instead if that is called like the host.  No
other variable of a group changes but by `set_variable`, and none in reconciling.

## Main definitions

* `groupVars` — the variables of every group.
* `sourceKeys` — the variables that tell where a host was first met.
-/

namespace Ansible
open Relation Unix Loops

namespace InventoryData
variable {py : Interpreter} {s s' : InventoryData} {g h p c : Text}

/-- The variables of every group. -/
def groupVars (s : InventoryData) (g : Text) : Text → Option Json := (s.group g).vars

theorem groupVars_modifyGroup {f : Group → Group} (hf : (f (s.group g)).vars = (s.group g).vars) :
    (s.modifyGroup g f).groupVars = s.groupVars := by
  funext x
  by_cases hx : x = g
  · subst hx
    simpa [groupVars, modifyGroup] using hf
  · simp [groupVars, modifyGroup, hx]

theorem groupVars_clearHostsCache : (s.clearHostsCache g).groupVars = s.groupVars := by
  funext x
  simp only [groupVars, clearHostsCache]
  split <;> rfl

theorem groupVars_getHosts : (s.getHosts g).2.groupVars = s.groupVars := by
  rcases getHosts_state s g with hstate | hstate <;> rw [hstate]
  exact groupVars_modifyGroup rfl

theorem groupVars_groupAddHost : (s.groupAddHost g h).groupVars = s.groupVars := by
  unfold groupAddHost
  split
  · rfl
  · have happend : (s.appendHost g h).groupVars = s.groupVars := groupVars_modifyGroup rfl
    exact groupVars_clearHostsCache.trans happend

theorem groupVars_groupRemoveHost : (s.groupRemoveHost py g h).groupVars = s.groupVars := by
  unfold groupRemoveHost
  split
  · have herase : (s.eraseHost g h).groupVars = s.groupVars := groupVars_modifyGroup rfl
    exact groupVars_clearHostsCache.trans herase
  · rfl

theorem groupVars_linkParent {newAncestors : Finset Text} :
    (s.linkParent p c newAncestors).groupVars = s.groupVars := by
  unfold linkParent
  split
  · rfl
  · exact groupVars_getHosts.trans (groupVars_modifyGroup rfl)

theorem groupVars_checkChildrenDepth (hok : s.checkChildrenDepth g = .ok s') :
    s'.groupVars = s.groupVars := by
  unfold checkChildrenDepth at hok
  dsimp only at hok
  split at hok
  · cases hok
    rfl
  · exact absurd hok (by simp)

theorem groupVars_addChildGroup (hok : s.addChildGroup p c = .ok s') :
    s'.groupVars = s.groupVars := by
  unfold addChildGroup at hok
  split at hok
  · exact absurd hok (by simp)
  · split at hok
    · cases hok
      rfl
    · dsimp only at hok
      split at hok
      · exact absurd hok (by simp)
      · rcases bind_eq_ok hok with ⟨s₁, hlevels, hret⟩
        cases hret
        calc ((s₁.linkParent p c _).clearHostsCache p).groupVars = s₁.groupVars :=
              groupVars_clearHostsCache.trans groupVars_linkParent
          _ = ((s.appendChild p c).deepen c ((s.group p).depth + 1)).groupVars :=
              groupVars_checkChildrenDepth hlevels
          _ = s.groupVars := (groupVars_modifyGroup rfl).trans (groupVars_modifyGroup rfl)

theorem groupVars_addChild (hok : s.addChild p c = .ok s') : s'.groupVars = s.groupVars := by
  unfold addChild at hok
  split at hok
  · split at hok
    · rcases bind_eq_ok hok with ⟨s₁, hadd, hret⟩
      cases hret
      have hsame := groupVars_addChildGroup hadd
      exact hsame
    · split at hok
      · cases hok
        exact groupVars_groupAddHost
      · exact absurd hok (by simp)
  · exact absurd hok (by simp)

/-- Reconciling leaves the variables of groups alone. -/
theorem groupVars_reconcileInventory (hok : s.reconcileInventory py = .ok s') :
    s'.groupVars = s.groupVars := by
  rcases bind_eq_ok hok with ⟨s₁, hgroups, hok₁⟩
  rcases bind_eq_ok hok₁ with ⟨s₂, hhosts, hret⟩
  cases hret
  have hgroups' : s₁.groupVars = s.groupVars := by
    refine foldlM_keeps (P := fun t => t.groupVars = s.groupVars) ?_ rfl hgroups
    intro t g t' ht hround
    unfold reconcileGroup at hround
    split at hround
    · exact (groupVars_addChild hround).trans ht
    · cases hround
      exact ht
  have hhosts' : s₂.groupVars = s.groupVars := by
    refine foldlM_keeps (P := fun t => t.groupVars = s.groupVars) ?_ hgroups' hhosts
    intro t h t' ht hround
    unfold reconcileHost at hround
    dsimp only at hround
    split at hround
    · split at hround
      · cases hround
        exact groupVars_groupRemoveHost.trans ht
      · cases hround
        exact ht
    · split at hround
      · exact (groupVars_addChild hround).trans ht
      · cases hround
        exact ht
  exact hhosts'

/-! ## What sets variables -/

theorem groupVars_createGroup (x : Text) :
    (s.createGroup g).groupVars x = if x = g then fun _ => none else s.groupVars x := by
  by_cases hx : x = g
  · subst hx
    simp [groupVars, createGroup, Group.new]
  · simp [groupVars, createGroup, hx]

/-- A variable of a group is set there, unless it is the priority. -/
theorem groupVars_setVariable_self {varname : Text} {value : Json} (hg : g ∈ s.groupNames)
    (hkey : varname ≠ "ansible_group_priority".toList)
    (hok : s.setVariable g varname value = .ok s') : s'.groupVars g varname = some value := by
  rw [setVariable, if_pos hg, groupSetVariable, if_neg hkey] at hok
  cases hok
  simp [groupVars, modifyGroup]

/-- Setting a variable changes no other variable, and no other group. -/
theorem groupVars_setVariable_of_ne {entity varname key : Text} {value : Json}
    (hne : g ≠ entity ∨ key ≠ varname) (hok : s.setVariable entity varname value = .ok s') :
    s'.groupVars g key = s.groupVars g key := by
  unfold setVariable groupSetVariable at hok
  split at hok
  · split at hok
    · split at hok
      · cases hok
        rw [groupVars_modifyGroup rfl]
      · exact absurd hok (by simp)
    · cases hok
      by_cases hg : g = entity
      · subst hg
        have hkey : key ≠ varname := hne.resolve_left fun h => h rfl
        simp [groupVars, modifyGroup, hkey]
      · simp [groupVars, modifyGroup, hg]
  · split at hok
    · cases hok
      rfl
    · exact absurd hok (by simp)

/-- Any variable but the priority can be set for what is known. -/
theorem exists_setVariable {entity varname : Text} (value : Json)
    (hknown : entity ∈ s.groupNames ∨ entity ∈ s.hostNames)
    (hkey : varname ≠ "ansible_group_priority".toList) :
    ∃ s', s.setVariable entity varname value = .ok s' := by
  unfold setVariable groupSetVariable
  by_cases hg : entity ∈ s.groupNames
  · rw [if_pos hg, if_neg hkey]
    exact ⟨_, rfl⟩
  · rw [if_neg hg, if_pos (hknown.resolve_left hg)]
    exact ⟨_, rfl⟩

/-! ## Hosts -/

/-- The variables that tell where a host was first met. -/
def sourceKeys : List Text := ["inventory_file".toList, "inventory_dir".toList]

theorem groupVars_recordSource {key : Text} (hkey : key ∉ sourceKeys)
    (hok : s.recordSource py h = .ok s') : s'.groupVars g key = s.groupVars g key := by
  rw [sourceKeys, List.mem_cons, List.mem_singleton, not_or] at hkey
  unfold recordSource at hok
  split at hok <;>
  · rcases bind_eq_ok hok with ⟨s₁, hfile, hdir⟩
    exact (groupVars_setVariable_of_ne (Or.inr hkey.2) hdir).trans
      (groupVars_setVariable_of_ne (Or.inr hkey.1) hfile)

theorem exists_recordSource (py : Interpreter) (hh : h ∈ s.hostNames) :
    ∃ s', s.recordSource py h = .ok s' := by
  have hset : ∀ file dir : Json, ∃ s', (do
      let s ← s.setVariable h "inventory_file".toList file
      s.setVariable h "inventory_dir".toList dir) = .ok s' := by
    intro file dir
    have hkeys : "inventory_file".toList ≠ "ansible_group_priority".toList ∧
        "inventory_dir".toList ≠ "ansible_group_priority".toList := by decide
    rcases exists_setVariable file (Or.inr hh) hkeys.1 with ⟨s₁, hfile⟩
    have hh₁ : h ∈ s₁.hostNames := (onlyVars_setVariable hfile).sameHosts ▸ hh
    rcases exists_setVariable dir (Or.inr hh₁) hkeys.2 with ⟨s₂, hdir⟩
    exact ⟨s₂, by rw [hfile]; exact hdir⟩
  unfold recordSource
  split
  · exact hset _ _
  · exact hset _ _

theorem groupVars_ensureHost {port : Json} {key : Text} (hkey : key ∉ sourceKeys)
    (hok : s.ensureHost py h port = .ok s') : s'.groupVars g key = s.groupVars g key := by
  unfold ensureHost at hok
  split at hok
  · cases hok
    rfl
  · rcases bind_eq_ok hok with ⟨x, _, hrec⟩
    have hinsert : (s.insertHost h x).groupVars = s.groupVars := rfl
    rw [groupVars_recordSource hkey hrec, hinsert]

theorem exists_ensureHost (py : Interpreter) (s : InventoryData) (h : Text) :
    ∃ s', s.ensureHost py h .null = .ok s' := by
  unfold ensureHost
  split
  · exact ⟨_, rfl⟩
  · have hmem : h ∈ (s.insertHost h ⟨fun _ => none, ∅⟩).hostNames := by simp [insertHost]
    rcases exists_recordSource py hmem with ⟨s', hrec⟩
    exact ⟨s', hrec⟩

theorem groupVars_addHost {host : Json} {group : Option Text} {port : Json} {key : Text}
    (hkey : key ∉ sourceKeys) (hok : s.addHost py host group port = .ok s') :
    s'.groupVars g key = s.groupVars g key := by
  unfold addHost at hok
  split at hok
  · split at hok
    · split at hok
      · split at hok
        · rcases bind_eq_ok hok with ⟨s₁, hens, hret⟩
          cases hret
          refine Eq.trans ?_ (groupVars_ensureHost hkey hens)
          exact congrFun (congrFun groupVars_groupAddHost g) key
        · exact absurd hok (by simp)
      · exact groupVars_ensureHost hkey hok
    · exact absurd hok (by simp)
  · exact absurd hok (by simp)

/-- A known group takes every host that has a name. -/
theorem addHost_isOk_iff (py : Interpreter) (h : Text) (hg : g ∈ s.groupNames) (hne : g ≠ []) :
    (∃ s', s.addHost py (.str h) (some g) .null = .ok s') ↔ h ≠ [] := by
  have hgroup : (some g).filter (· ≠ []) = some g := by simpa using hne
  constructor
  · intro hok heq
    rcases hok with ⟨s', hok⟩
    subst heq
    rw [addHost, if_neg (by simp [Json.truthy])] at hok
    exact absurd hok (by simp)
  · intro hname
    have htruthy : (Json.str h).truthy = true := by simpa [Json.truthy] using hname
    rcases exists_ensureHost py s h with ⟨s₁, hens⟩
    rw [addHost, if_pos htruthy]
    simp only [hgroup, if_pos hg, hens]
    exact ⟨_, rfl⟩

end InventoryData
end Ansible
