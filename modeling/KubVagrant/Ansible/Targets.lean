import KubVagrant.Ansible.FromProperties
import KubVagrant.Ansible.Manager
import Mathlib.Data.Bool.AllAny

/-!
# The hosts of a play on a properties file

The playbooks of the repository name groups.  With the inventory that comes from a properties file,
`targets_spec` says which hosts a list of groups, with modifiers, is: the properties' own.

## Main definitions

* `Lists` — what the manager reads is the inventory that was loaded.
* `Term` — a group with a modifier, and `Term.text`, its pattern.
* `Targeted` — the hosts that terms stand for.
-/

namespace Ansible.Targets
open Unix KubVagrant

local instance lawfulTerms : LawfulBEq Text := inferInstance

/-- What the manager reads of a loaded inventory, in whatever order. -/
structure Lists (v : Manager.Inventory) (s : InventoryData) : Prop where
  groups : ∀ g, g ∈ v.groups ↔ g ∈ s.groupNames
  hosts : ∀ h, h ∈ v.hosts ↔ h ∈ s.hostNames
  getHosts : ∀ g h, h ∈ v.getHosts g ↔ h ∈ (s.getHosts g).1

inductive Modifier where
  | regular
  | intersection
  | exclusion
  deriving DecidableEq, Repr

/-- A group in the patterns of a play. -/
structure Term where
  modifier : Modifier
  group : GroupName
  deriving DecidableEq

def Term.text (t : Term) : Text :=
  match t.modifier with
  | .regular => groupText t.group
  | .intersection => '&' :: groupText t.group
  | .exclusion => '!' :: groupText t.group

/-- The hosts that terms stand for, when `hosts` are those of the groups. -/
structure Targeted (hosts : GroupName → List Text) (terms : List Term) (h : Text) : Prop where
  regular : (∃ n, ⟨.regular, n⟩ ∈ terms) → ∃ n, ⟨.regular, n⟩ ∈ terms ∧ h ∈ hosts n
  all : h ∈ hosts .all
  intersection : ∀ n, ⟨.intersection, n⟩ ∈ terms → h ∈ hosts n
  exclusion : ∀ n, ⟨.exclusion, n⟩ ∈ terms → h ∉ hosts n

/-! ## Terms as patterns -/

theorem word_text (t : Term) : Manager.Word t.text := by
  obtain ⟨modifier, n⟩ := t
  cases modifier <;> cases n <;>
    exact ⟨by decide, List.all_iff_forall_prop.mp (by decide),
      List.all_iff_forall_prop.mp (by decide)⟩

theorem unmodified_text (t : Term) : Manager.unmodified t.text = groupText t.group := by
  obtain ⟨modifier, n⟩ := t
  cases modifier <;> cases n <;> decide

theorem excludes_text (t : Term) : Manager.Excludes t.text ↔ t.modifier = .exclusion := by
  obtain ⟨modifier, n⟩ := t
  cases modifier <;> cases n <;> decide

theorem intersects_text (t : Term) : Manager.Intersects t.text ↔ t.modifier = .intersection := by
  obtain ⟨modifier, n⟩ := t
  cases modifier <;> cases n <;> decide

theorem ordinary_groupText (n : GroupName) : Manager.Ordinary (groupText n) := by
  cases n <;> exact ⟨List.all_iff_forall_prop.mp (by decide), by decide, by decide, by decide⟩

variable {env : Manager.Environment} {v : Manager.Inventory} {s : InventoryData} {inv : Inventory}
  {localhost : Option Text} {h : Text} {terms : List Term}

/-- The pattern of a term is resolved to the hosts of its group. -/
theorem resolve_text (env : Manager.Environment) (hserves : Serves s inv) (hlists : Lists v s)
    (n : GroupName) (localhost : Option Text) :
    ∃ hosts, Manager.resolve env v localhost (groupText n) = .ok (hosts, localhost) ∧
      ∀ h, h ∈ hosts ↔ h ∈ inv.hosts n := by
  have hgroup : groupText n ∈ v.groups := by
    rw [hlists.groups, hserves.groupNames_iff]
    exact Or.inr ⟨n, rfl⟩
  obtain ⟨hosts, hresolve, hmem⟩ :=
    Manager.resolve_group env (ordinary_groupText n) hgroup localhost
  refine ⟨hosts, hresolve, fun h => ?_⟩
  rw [hmem, hlists.getHosts, hserves.hosts_iff]

/-- No host is called like a pattern. -/
def Free (inv : Inventory) : Prop := ∀ t : Term, t.text ∉ inv.hosts .all

theorem names_groupText (hserves : Serves s inv) (hlists : Lists v s) (n : GroupName) :
    Manager.Names env v localhost (groupText n) h ↔ h ∈ inv.hosts n := by
  obtain ⟨hosts, hresolve, hmem⟩ := resolve_text env hserves hlists n localhost
  rw [← Manager.names_of_resolve hresolve, hmem]

theorem picks_groupText (hserves : Serves s inv) (hlists : Lists v s) (hfree : Free inv)
    (n : GroupName) :
    Manager.Picks env v localhost (groupText n) h ↔ h ∈ inv.hosts n := by
  have hhost : groupText n ∉ v.hosts := by
    rw [hlists.hosts, hserves.hostNames_iff]
    exact hfree ⟨.regular, n⟩
  rw [Manager.Picks, if_neg hhost, names_groupText hserves hlists]

/-- The patterns of terms without a modifier. -/
theorem regular_text_iff (t : Term) : Manager.Regular t.text ↔ t.modifier = .regular := by
  rw [Manager.Regular, excludes_text, intersects_text,
    and_iff_right (word_text t).ne_nil]
  cases t.modifier <;> simp

theorem exists_regular_iff {P : Text → Prop} :
    (∃ p ∈ terms.map Term.text, Manager.Regular p ∧ P p) ↔
      ∃ n, ⟨.regular, n⟩ ∈ terms ∧ P (groupText n) := by
  constructor
  · rintro ⟨p, hp, hregular, hP⟩
    obtain ⟨⟨modifier, n⟩, ht, rfl⟩ := List.mem_map.mp hp
    obtain rfl : modifier = .regular := (regular_text_iff _).mp hregular
    exact ⟨n, ht, hP⟩
  · rintro ⟨n, ht, hP⟩
    exact ⟨_, List.mem_map_of_mem ht, (regular_text_iff ⟨.regular, n⟩).mpr rfl, hP⟩

theorem regular_exists_iff :
    (∃ p ∈ terms.map Term.text, Manager.Regular p) ↔ ∃ n, ⟨.regular, n⟩ ∈ terms := by
  simpa using exists_regular_iff (P := fun _ => True)

/-- Terms without a modifier add their hosts; if there are none, all hosts are meant. -/
theorem regular_iff (hserves : Serves s inv) (hlists : Lists v s) (hfree : Free inv)
    (hcov : Covered inv) :
    ((∃ p ∈ terms.map Term.text, Manager.Regular p ∧ Manager.Picks env v localhost p h) ∨
        (∀ p ∈ terms.map Term.text, ¬ Manager.Regular p) ∧
          Manager.Picks env v localhost "all".toList h) ↔
      ((∃ n, ⟨.regular, n⟩ ∈ terms) → ∃ n, ⟨.regular, n⟩ ∈ terms ∧ h ∈ inv.hosts n) ∧
        h ∈ inv.hosts .all := by
  have hpicks : ∀ n, Manager.Picks env v localhost (groupText n) h ↔ h ∈ inv.hosts n :=
    picks_groupText hserves hlists hfree
  have hall : Manager.Picks env v localhost "all".toList h ↔ h ∈ inv.hosts .all := hpicks .all
  have hnone : (∀ p ∈ terms.map Term.text, ¬ Manager.Regular p) ↔
      ¬ ∃ n, ⟨.regular, n⟩ ∈ terms := by
    rw [← regular_exists_iff]
    push Not
    rfl
  rw [exists_regular_iff, hnone, hall]
  simp only [hpicks]
  constructor
  · rintro (⟨n, hn, hmem⟩ | ⟨hnot, hmem⟩)
    · exact ⟨fun _ => ⟨n, hn, hmem⟩, (hcov.mem_all_iff h).mpr ⟨n, hmem⟩⟩
    · exact ⟨fun hsome => absurd hsome hnot, hmem⟩
  · rintro ⟨hsome, hmem⟩
    by_cases hregular : ∃ n, ⟨.regular, n⟩ ∈ terms
    · exact Or.inl (hsome hregular)
    · exact Or.inr ⟨hregular, hmem⟩

/-- Patterns of terms select the hosts that the terms stand for. -/
theorem selects_iff (hserves : Serves s inv) (hlists : Lists v s) (hfree : Free inv)
    (hcov : Covered inv) :
    Manager.Selects env v localhost (terms.map Term.text) h ↔ Targeted inv.hosts terms h := by
  have hnames : ∀ n, Manager.Names env v localhost (groupText n) h ↔ h ∈ inv.hosts n :=
    names_groupText hserves hlists
  constructor
  · intro hsel
    obtain ⟨hsome, hall⟩ := (regular_iff hserves hlists hfree hcov).mp hsel.regular
    refine ⟨hsome, hall, fun n hn => ?_, fun n hn => ?_⟩
    · exact (hnames n).mp (hsel.intersection _ (List.mem_map_of_mem hn))
    · exact fun hmem => hsel.exclude _ (List.mem_map_of_mem hn) ((hnames n).mpr hmem)
  · intro htarget
    refine ⟨(regular_iff hserves hlists hfree hcov).mpr ⟨htarget.regular, htarget.all⟩,
      fun p hp => ?_, fun p hp hname => ?_⟩
    · obtain ⟨⟨modifier, n⟩, ht, htext⟩ := List.mem_map.mp hp
      have hmodifier : modifier = .intersection := by
        rw [← intersects_text ⟨modifier, n⟩, htext]
        rfl
      subst hmodifier
      rw [← (List.cons.inj htext).2, hnames]
      exact htarget.intersection n ht
    · obtain ⟨⟨modifier, n⟩, ht, htext⟩ := List.mem_map.mp hp
      have hmodifier : modifier = .exclusion := by
        rw [← excludes_text ⟨modifier, n⟩, htext]
        rfl
      subst hmodifier
      rw [← (List.cons.inj htext).2, hnames] at hname
      exact htarget.exclusion n ht hname

/-! ## A play -/

theorem split_terms (env : Manager.Environment) (terms : List Term) :
    Manager.splitHostPattern env (.list (terms.map Term.text)) = terms.map Term.text := by
  refine Manager.splitHostPattern_of_words env fun w hw => ?_
  obtain ⟨t, _, rfl⟩ := List.mem_map.mp hw
  exact word_text t

/-- Every pattern of terms can be resolved. -/
theorem exists_resolve (hserves : Serves s inv) (hlists : Lists v s) {p : Text}
    (hp : p ∈ Manager.orderPatterns (terms.map Term.text)) (localhost : Option Text) :
    ∃ found, Manager.resolve env v localhost (Manager.unmodified p) = .ok found := by
  have hterm : ∃ t : Term, p = t.text := by
    rw [Manager.orderPatterns, List.mem_append, List.mem_append, List.mem_filter,
      List.mem_filter] at hp
    rcases hp with (hp | hp) | hp
    · have hregular : ∃ p' ∈ Manager.regularPatterns (terms.map Term.text), p' = p := ⟨p, hp, rfl⟩
      rw [Manager.exists_regularPatterns_iff, exists_regular_iff] at hregular
      rcases hregular with ⟨n, _, rfl⟩ | ⟨_, rfl⟩
      · exact ⟨⟨.regular, n⟩, rfl⟩
      · exact ⟨⟨.regular, .all⟩, rfl⟩
    · obtain ⟨t, _, rfl⟩ := List.mem_map.mp hp.1
      exact ⟨t, rfl⟩
    · obtain ⟨t, _, rfl⟩ := List.mem_map.mp hp.1
      exact ⟨t, rfl⟩
  obtain ⟨t, rfl⟩ := hterm
  obtain ⟨hosts, hresolve, _⟩ := resolve_text env hserves hlists t.group localhost
  rw [unmodified_text]
  exact ⟨_, hresolve⟩

variable {m : Manager.InventoryManager} {r : Manager.Request}

theorem base_ne_nil (hr : r.pattern = .list (terms.map Term.text)) (hne : terms ≠ []) :
    (m.question r).base ≠ [] := by
  have hbase : (m.question r).base = [':'].intercalate (terms.map Term.text) := by
    rw [Manager.Question.base, Manager.InventoryManager.question, hr]
  obtain ⟨t, ts, rfl⟩ := List.exists_cons_of_ne_nil hne
  have hword := (word_text t).ne_nil
  rw [hbase]
  cases ts with
  | nil => simpa using hword
  | cons t' ts => simp

/-- **The hosts of a play on the groups of a properties file** are those that the properties list
for the groups, kept by every `&` and by no `!`, at any time of a run and in whatever order the
patterns stand; a restriction leaves those of them that it names. -/
theorem targets_spec {py : Interpreter} {hostVariables : Text → Except ParserError Json}
    {source file : Text} {processed : Json} {asked : List Manager.Question}
    (hinv : inv2prop file = .ok inv) (hdump : Dumped inv processed)
    (hload : load py hostVariables source processed = .ok s) (hlists : Lists v s)
    (hfree : Free (expected file)) (hrun : Manager.Run env v m asked)
    (hclear : ∀ q ∈ asked, q.Clear env v)
    (hkey : ∀ q ∈ asked, q.key env = (m.question r).key env → q.Same env (m.question r))
    (hr : r.pattern = .list (terms.map Term.text)) (hne : terms ≠ [])
    (hsubset : (m.question r).subset = none) :
    ∃ hosts m', Manager.getHosts env v m r = .ok (hosts, m') ∧ hosts.Nodup ∧
      ∀ h, h ∈ hosts ↔ Targeted (expected file).hosts terms h ∧
        ∀ names, (m.question r).restriction = some names → h ∈ names := by
  obtain ⟨htrans, hserves⟩ := serves_of_load hinv hdump hload
  have hcov : Covered (expected file) := by
    rw [Translates, hinv, Except.ok.injEq] at htrans
    exact htrans ▸ covered_of_inv2prop hinv
  have hsplit : Manager.splitHostPattern env (m.question r).pattern = terms.map Term.text :=
    (congrArg (Manager.splitHostPattern env) hr).trans (split_terms env terms)
  have hasked : (m.question r).Clear env v := by
    refine ⟨fun p hp _ => ?_, fun patterns hsome => absurd (hsubset.symm.trans hsome) (by simp)⟩
    rw [hsplit] at hp
    obtain ⟨t, _, rfl⟩ := List.mem_map.mp hp
    rw [hlists.hosts, hserves.hostNames_iff]
    exact hfree t
  obtain ⟨hosts, m', hok⟩ := Manager.exists_getHosts hsubset fun p hp localhost =>
    exists_resolve hserves hlists (hsplit ▸ hp) localhost
  obtain ⟨hvalid, hanswers⟩ := Manager.valid_of_run hrun hclear
  obtain ⟨hnodup, hmem⟩ := Manager.answer_of_valid hvalid hanswers hasked hkey hok
  refine ⟨hosts, m', hok, hnodup, fun h => ?_⟩
  rw [hmem h, and_iff_right (base_ne_nil hr hne), ← selects_iff hserves hlists hfree hcov, ← hsplit]
  exact ⟨fun hsel => ⟨hsel.pattern, hsel.restriction⟩, fun hsel => ⟨hsel.1,
    fun patterns hsome => absurd (hsubset.symm.trans hsome) (by simp), hsel.2⟩⟩

/-- An inventory as an interpreter lists it. -/
def listing (py : Interpreter) (s : InventoryData) : Manager.Inventory where
  groups := s.groupNames
  hosts := s.hostNames
  getHosts g := py.order (s.getHosts g).1

theorem lists_listing (py : Interpreter) (s : InventoryData) : Lists (listing py s) s where
  groups _ := Iff.rfl
  hosts _ := Iff.rfl
  getHosts g h := py.mem_order (s.getHosts g).1 h

/-- All hosts but those of the database. -/
def butMysql : List Term := [⟨.regular, .all⟩, ⟨.exclusion, .mysql⟩]

theorem butMysql_ne_nil : butMysql ≠ [] := by decide

theorem free_webFile : Free (expected webFile) := by
  have htrans := translates_webFile
  rw [Translates, inv2prop_webFile, Except.ok.injEq] at htrans
  intro t hmem
  rw [← htrans] at hmem
  have hweb : t.text ∈ webHosts .all := hosts_webFile .all ▸ hmem
  revert hweb
  obtain ⟨modifier, n⟩ := t
  cases modifier <;> cases n <;> decide

/-- A manager restricted to one host. -/
def restricted : Manager.InventoryManager :=
  (Manager.InventoryManager.new none).restrictToHosts (some ["web1".toList])

theorem targets_spec_webFile : ∃ s, load .python2 (fun _ => .ok (.obj [])) "inv2prop.py".toList
    webOutput = .ok s ∧ ∃ hosts m', Manager.getHosts Manager.python3 (listing .python2 s)
      restricted ⟨.list (butMysql.map Term.text), false, false⟩ = .ok (hosts, m') ∧
        hosts.Nodup ∧ ∀ h, h ∈ hosts ↔ Targeted (expected webFile).hosts butMysql h ∧
          h = "web1".toList := by
  obtain ⟨s, hload⟩ := exists_load .python2 (fun _ => .ok (.obj [])) "inv2prop.py".toList
    inv2prop_webFile dumped_webOutput translates_webFile
  have hrun : Manager.Run Manager.python3 (listing .python2 s) restricted [] :=
    .restrictToHosts _ (.start none)
  obtain ⟨hosts, m', hok, hnodup, hmem⟩ := targets_spec inv2prop_webFile dumped_webOutput hload
    (lists_listing .python2 s) free_webFile hrun (fun q hq => absurd hq List.not_mem_nil)
    (fun q hq => absurd hq List.not_mem_nil)
    (r := ⟨.list (butMysql.map Term.text), false, false⟩) rfl butMysql_ne_nil rfl
  refine ⟨s, hload, hosts, m', hok, hnodup, fun h => ?_⟩
  rw [hmem h]
  refine and_congr_right fun _ => ?_
  constructor
  · exact fun hall => List.mem_singleton.mp (hall _ rfl)
  · intro hh names hnames
    cases hnames
    exact List.mem_singleton.mpr hh

end Ansible.Targets
