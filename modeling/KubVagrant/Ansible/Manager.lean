import KubVagrant.Ansible.Patterns

/-!
# The hosts of a play

`InventoryManager.get_hosts` evaluates the patterns of a play one after the other, and keeps what it
finds in two caches: one for single patterns, one for whole questions, by a key made of texts.  A
question that raises leaves what it has found in the first of them.

`Selects` says what patterns stand for: the hosts of some regular pattern, of every `&` pattern and
of no `!` pattern.  `answer_of_run` is that every answer is that, after any other questions, as long
as questions with one key are one question.

## Main definitions

* `InventoryManager`, `evaluatePatterns`, `getHosts`, `limit`, `restrictToHosts` — the manager.
* `Run` — the states that the manager comes to, with the questions it has answered.
* `Selects`, `Question.Selects` — what is asked for.
-/

namespace Ansible.Manager
open Unix

local instance lawfulQuestions : LawfulBEq Text := inferInstance

variable (env : Environment) (inv : Inventory)

/-! ## The manager -/

structure InventoryManager where
  localhost : Option Text
  restriction : Option (List Text)
  subset : Option (List Text)
  /-- `_hosts_patterns_cache` and `_pattern_cache`. -/
  hostsPatternsCache : Text → Option (List Text)
  patternCache : Text → Option (List Text)

/-- Hosts and the manager afterwards, or an error and the manager it leaves. -/
abbrev Result := Except (PatternError × InventoryManager) (List Text × InventoryManager)

/-- `_match_one_pattern`. -/
def matchOnePattern (m : InventoryManager) (pattern : Text) : Result :=
  let pattern := unmodified pattern
  match m.patternCache pattern with
  | some hosts => .ok (hosts, m)
  | none =>
    match resolve env inv m.localhost pattern with
    | .ok (hosts, localhost) => .ok (hosts, { m with
        localhost
        patternCache := Function.update m.patternCache pattern (some hosts) })
    | .error (e, localhost) => .error (e, { m with localhost })

/-- One round of the loop: the hosts so far, with the next pattern. -/
def evaluatePattern (state : List Text × InventoryManager) (p : Text) : Result :=
  let (hosts, m) := state
  -- the name of a host is not resolved, whatever group has it too
  if p ∈ inv.hosts then .ok (hosts ++ [p], m)
  else do
    let (that, m) ← matchOnePattern env inv m p
    if Excludes p then return (hosts.filter (· ∉ that), m)
    else if Intersects p then return (hosts.filter (· ∈ that), m)
    else return (hosts ++ that.filter (· ∉ hosts), m)

/-- `_evaluate_patterns`. -/
def evaluatePatterns (m : InventoryManager) (patterns : List Text) : Result :=
  (orderPatterns patterns).foldlM (evaluatePattern env inv) ([], m)

/-- The arguments of `get_hosts`, but for `order`, in which an answer is given that is cached
already. -/
structure Request where
  pattern : HostPattern
  ignoreLimits : Bool
  ignoreRestrictions : Bool

/-- What is asked: a pattern, with the subset and the restriction that count. -/
structure Question where
  pattern : HostPattern
  subset : Option (List Text)
  restriction : Option (List Text)

/-- An empty subset, and an empty restriction, count as none. -/
def InventoryManager.question (m : InventoryManager) (r : Request) : Question where
  pattern := r.pattern
  subset := if r.ignoreLimits then none else m.subset.filter fun s => !s.isEmpty
  restriction := if r.ignoreRestrictions then none else m.restriction.filter fun s => !s.isEmpty

namespace Question

/-- The pattern as one text. -/
def base (q : Question) : Text :=
  match q.pattern with
  | .text t => t
  | .list ts => [':'].intercalate ts

/-- `pattern_hash`. -/
def key (q : Question) : Text :=
  q.base ++ (q.subset.elim [] fun s => ':' :: env.str s) ++
    q.restriction.elim [] fun s => ':' :: env.str s

end Question

/-- The hosts that are in the subset as well. -/
def limitHosts (state : List Text × InventoryManager) : Option (List Text) → Result
  | some patterns => do
    let (subset, m) ← evaluatePatterns env inv state.2 patterns
    return (state.1.filter (· ∈ subset), m)
  | none => .ok state

def restrictHosts (hosts : List Text) : Option (List Text) → List Text
  | some names => hosts.filter (· ∈ names)
  | none => hosts

/-- `deduplicate_list`, with what was seen. -/
def deduplicate (seen : List Text) : List Text → List Text
  | [] => []
  | x :: xs => if x ∈ seen then deduplicate seen xs else x :: deduplicate (x :: seen) xs

/-- The answer to a question, before it is cached. -/
def answer (m : InventoryManager) (q : Question) : Result := do
  let state ← evaluatePatterns env inv m (splitHostPattern env q.pattern)
  let (hosts, m) ← limitHosts env inv state q.subset
  return (deduplicate [] (restrictHosts hosts q.restriction), m)

/-- `get_hosts`. -/
def getHosts (m : InventoryManager) (r : Request) : Result :=
  let q := m.question r
  if q.base.isEmpty then .ok ([], m)
  else
    match m.hostsPatternsCache (q.key env) with
    | some hosts => .ok (hosts, m)
    | none => do
      let (hosts, m) ← answer env inv m q
      return (hosts, { m with
        hostsPatternsCache := Function.update m.hostsPatternsCache (q.key env) (some hosts) })

/-- The patterns that an element of `--limit` stands for.  Where it raises, nothing is changed. -/
def subsetPatterns (x : Text) : Except PatternError (List Text) :=
  if x.head? = some '@' then
    match env.contents (x.drop 1) with
    | some t => .ok ((t.splitOn '\n').map (stripBy env.isSpace))
    | none => .error (.cannotOpen (x.drop 1))
  else .ok [x]

/-- `subset`. -/
def InventoryManager.limit (m : InventoryManager) :
    Option HostPattern → Except PatternError InventoryManager
  | none => .ok { m with subset := none }
  | some pattern => do
    let results ← (splitHostPattern env pattern).mapM (subsetPatterns env)
    return { m with subset := some results.flatten }

/-- `restrict_to_hosts`. -/
def InventoryManager.restrictToHosts (m : InventoryManager) : Option (List Text) → InventoryManager
  | none => m
  | some names => { m with restriction := some names }

/-- `remove_restriction`. -/
def InventoryManager.removeRestriction (m : InventoryManager) : InventoryManager :=
  { m with restriction := none }

/-- `clear_pattern_cache`. -/
def InventoryManager.clearPatternCache (m : InventoryManager) : InventoryManager :=
  { m with patternCache := fun _ => none }

/-- A manager that was asked nothing. -/
def InventoryManager.new (localhost : Option Text) : InventoryManager :=
  ⟨localhost, none, none, fun _ => none, fun _ => none⟩

/-- The states that the manager comes to, with the questions it has answered. -/
inductive Run : InventoryManager → List Question → Prop where
  | start (localhost : Option Text) : Run (.new localhost) []
  | ask {m m' : InventoryManager} {asked : List Question} {r : Request} {hosts : List Text} :
    Run m asked → getHosts env inv m r = .ok (hosts, m') → Run m' (m.question r :: asked)
  | raise {m m' : InventoryManager} {asked : List Question} {r : Request} {e : PatternError} :
    Run m asked → getHosts env inv m r = .error (e, m') → Run m' asked
  | limit {m m' : InventoryManager} {asked : List Question} {pattern : Option HostPattern} :
    Run m asked → m.limit env pattern = .ok m' → Run m' asked
  | restrictToHosts {m : InventoryManager} {asked : List Question} (names : Option (List Text)) :
    Run m asked → Run (m.restrictToHosts names) asked
  | removeRestriction {m : InventoryManager} {asked : List Question} :
    Run m asked → Run m.removeRestriction asked
  | clearPatternCache {m : InventoryManager} {asked : List Question} :
    Run m asked → Run m.clearPatternCache asked

section
variable {env : Environment} {inv : Inventory} {localhost localhost' : Option Text}
  {pattern h : Text} {hosts : List Text} {m m' : InventoryManager}

/-! ## The patterns of a list -/

/-- What is in the cache of patterns is right, and stays right. -/
def CacheValid (env : Environment) (inv : Inventory) (m : InventoryManager) : Prop :=
  ∀ pattern hosts, m.patternCache pattern = some hosts → Resolved env inv m.localhost pattern hosts

/-- Evaluating patterns changes the localhost and the cache of patterns only. -/
structure Advanced (env : Environment) (inv : Inventory) (m m' : InventoryManager) : Prop where
  valid : CacheValid env inv m'
  localhost : Extends m.localhost m'.localhost
  restriction : m'.restriction = m.restriction
  subset : m'.subset = m.subset
  hostsPatternsCache : m'.hostsPatternsCache = m.hostsPatternsCache

theorem Advanced.refl (h : CacheValid env inv m) : Advanced env inv m m :=
  ⟨h, .refl _, rfl, rfl, rfl⟩

theorem Advanced.trans {m'' : InventoryManager} (h : Advanced env inv m m')
    (h' : Advanced env inv m' m'') : Advanced env inv m m'' where
  valid := h'.valid
  localhost := h.localhost.trans h'.localhost
  restriction := h'.restriction.trans h.restriction
  subset := h'.subset.trans h.subset
  hostsPatternsCache := h'.hostsPatternsCache.trans h.hostsPatternsCache

theorem matchOnePattern_spec (hvalid : CacheValid env inv m)
    (hok : matchOnePattern env inv m pattern = .ok (hosts, m')) :
    Advanced env inv m m' ∧ Resolved env inv m'.localhost (unmodified pattern) hosts := by
  rw [matchOnePattern] at hok
  cases hcache : m.patternCache (unmodified pattern) with
  | some cached =>
    simp only [hcache] at hok
    cases hok
    exact ⟨.refl hvalid, hvalid _ _ hcache⟩
  | none =>
    simp only [hcache] at hok
    cases hresolve : resolve env inv m.localhost (unmodified pattern) with
    | error e => simp only [hresolve, reduceCtorEq] at hok
    | ok result =>
      obtain ⟨results, loc⟩ := result
      simp only [hresolve] at hok
      cases hok
      obtain ⟨hext, hresolved⟩ := resolve_stable hresolve
      refine ⟨⟨fun p l hp => ?_, hext, rfl, rfl, rfl⟩, hresolved⟩
      by_cases heq : p = unmodified pattern
      · subst heq
        dsimp only at hp
        rw [Function.update_self] at hp
        cases hp
        exact hresolved
      · dsimp only at hp
        rw [Function.update_of_ne heq] at hp
        exact (hvalid p l hp).extends hext

theorem matchOnePattern_error {e : PatternError} (hvalid : CacheValid env inv m)
    (herror : matchOnePattern env inv m pattern = .error (e, m')) : Advanced env inv m m' := by
  rw [matchOnePattern] at herror
  cases hcache : m.patternCache (unmodified pattern) with
  | some cached => simp only [hcache, reduceCtorEq] at herror
  | none =>
    simp only [hcache] at herror
    cases hresolve : resolve env inv m.localhost (unmodified pattern) with
    | ok result => simp only [hresolve, reduceCtorEq] at herror
    | error failure =>
      obtain ⟨e', loc⟩ := failure
      simp only [hresolve] at herror
      cases herror
      have hext := resolve_error hresolve
      exact ⟨fun p l hp => (hvalid p l hp).extends hext, hext, rfl, rfl, rfl⟩

/-- The host is the one that is called like the pattern, or one of those that it stands for. -/
def Picks (env : Environment) (inv : Inventory) (localhost : Option Text) (p h : Text) : Prop :=
  if p ∈ inv.hosts then h = p else Names env inv localhost p h

/-- A pattern without a modifier. -/
def Regular (pattern : Text) : Prop := pattern ≠ [] ∧ ¬ Excludes pattern ∧ ¬ Intersects pattern

/-- What patterns stand for together: without a regular one, `all` is meant. -/
structure Selects (env : Environment) (inv : Inventory) (localhost : Option Text)
    (patterns : List Text) (h : Text) : Prop where
  regular : (∃ p ∈ patterns, Regular p ∧ Picks env inv localhost p h) ∨
    (∀ p ∈ patterns, ¬ Regular p) ∧ Picks env inv localhost "all".toList h
  intersection : ∀ p, '&' :: p ∈ patterns → Names env inv localhost p h
  exclude : ∀ p, '!' :: p ∈ patterns → ¬ Names env inv localhost p h

/-- `Picks`, for a pattern that may have a modifier. -/
def Matched (env : Environment) (inv : Inventory) (localhost : Option Text) (p h : Text) : Prop :=
  if p ∈ inv.hosts then h = p else Names env inv localhost (unmodified p) h

/-- No host is called like a pattern with a modifier. -/
def Unmistakable (inv : Inventory) (patterns : List Text) : Prop :=
  ∀ p ∈ patterns, Excludes p ∨ Intersects p → p ∉ inv.hosts

/-- The hosts so far, with a pattern.  A host that is called like the pattern is added, whatever the
modifier. -/
def Combine (env : Environment) (inv : Inventory) (localhost : Option Text) (h : Text)
    (sofar : Prop) (p : Text) : Prop :=
  if p ∉ inv.hosts ∧ Excludes p then sofar ∧ ¬ Matched env inv localhost p h
  else if p ∉ inv.hosts ∧ Intersects p then sofar ∧ Matched env inv localhost p h
  else sofar ∨ Matched env inv localhost p h

/-- What the pattern stands for will not change. -/
def Known (env : Environment) (inv : Inventory) (localhost : Option Text) (p : Text) : Prop :=
  p ∉ inv.hosts → ∃ that, Resolved env inv localhost (unmodified p) that

theorem Known.extends {p : Text} (hknown : Known env inv localhost p)
    (hext : Extends localhost localhost') : Known env inv localhost' p := fun hp =>
  (hknown hp).imp fun _ h => h.extends hext

theorem Known.matched_iff {p : Text} (hknown : Known env inv localhost p)
    (hext : Extends localhost localhost') (h : Text) :
    Matched env inv localhost p h ↔ Matched env inv localhost' p h := by
  unfold Matched
  by_cases hp : p ∈ inv.hosts
  · rw [if_pos hp, if_pos hp]
  · obtain ⟨that, hresolved⟩ := hknown hp
    rw [if_neg hp, if_neg hp, ← names_of_resolve (hresolved _ (.refl _)),
      ← names_of_resolve (hresolved _ hext)]

/-- A round: the pattern is resolved for good, and its hosts are added, kept or taken out. -/
theorem evaluatePattern_spec {hosts' : List Text} (hvalid : CacheValid env inv m)
    (hok : evaluatePattern env inv (hosts, m) pattern = .ok (hosts', m')) :
    Advanced env inv m m' ∧ Known env inv m'.localhost pattern ∧
      ∀ h, h ∈ hosts' ↔ Combine env inv m'.localhost h (h ∈ hosts) pattern := by
  rw [evaluatePattern] at hok
  unfold Combine
  dsimp only at hok
  by_cases hhost : pattern ∈ inv.hosts
  · rw [if_pos hhost] at hok
    cases hok
    refine ⟨.refl hvalid, fun hnot => absurd hhost hnot, fun h => ?_⟩
    simp [Matched, hhost]
  · rw [if_neg hhost] at hok
    obtain ⟨⟨that, m₁⟩, hmatch, hrest⟩ := Loops.bind_eq_ok hok
    obtain ⟨hadv, hresolved⟩ := matchOnePattern_spec hvalid hmatch
    have hmatched : ∀ h, Matched env inv m₁.localhost pattern h ↔ h ∈ that := by
      intro h
      rw [Matched, if_neg hhost, names_of_resolve (hresolved _ (.refl _))]
    dsimp only at hrest
    split_ifs at hrest with hexcl hinter
    · cases hrest
      exact ⟨hadv, fun _ => ⟨that, hresolved⟩, fun h => by simp [hhost, hexcl, hmatched]⟩
    · cases hrest
      exact ⟨hadv, fun _ => ⟨that, hresolved⟩, fun h => by simp [hhost, hexcl, hinter, hmatched]⟩
    · cases hrest
      refine ⟨hadv, fun _ => ⟨that, hresolved⟩, fun h => ?_⟩
      by_cases hh : h ∈ hosts <;> simp [hhost, hexcl, hinter, hmatched, hh]

theorem evaluatePattern_error {e : PatternError} (hvalid : CacheValid env inv m)
    (herror : evaluatePattern env inv (hosts, m) pattern = .error (e, m')) :
    Advanced env inv m m' := by
  rw [evaluatePattern] at herror
  dsimp only at herror
  by_cases hhost : pattern ∈ inv.hosts
  · rw [if_pos hhost] at herror
    cases herror
  · rw [if_neg hhost] at herror
    rcases Loops.bind_eq_error herror with hmatch | ⟨⟨that, m₁⟩, -, hrest⟩
    · exact matchOnePattern_error hvalid hmatch
    · dsimp only at hrest
      split_ifs at hrest <;> cases hrest

/-- What patterns stand for, one after the other. -/
def Combined (env : Environment) (inv : Inventory) (localhost : Option Text) (patterns : List Text)
    (h : Text) : Prop :=
  patterns.foldl (Combine env inv localhost h) False

theorem combined_congr {patterns : List Text}
    (hknown : ∀ p ∈ patterns, Known env inv localhost p) (hext : Extends localhost localhost')
    (h : Text) :
    Combined env inv localhost patterns h ↔ Combined env inv localhost' patterns h := by
  induction patterns using List.reverseRecOn with
  | nil => exact Iff.rfl
  | append_singleton patterns p ih =>
    have hsofar := ih fun x hx => hknown x (List.mem_append_left _ hx)
    have hmatched := (hknown p (by simp)).matched_iff hext h
    unfold Combined at hsofar ⊢
    rw [List.foldl_append, List.foldl_append, List.foldl_cons, List.foldl_cons, List.foldl_nil,
      List.foldl_nil, Combine, Combine, hsofar, hmatched]

/-- The loop, for the patterns in any order. -/
theorem foldlM_evaluatePattern {patterns : List Text} (hvalid : CacheValid env inv m)
    (hok : patterns.foldlM (evaluatePattern env inv) ([], m) = .ok (hosts, m')) :
    Advanced env inv m m' ∧ (∀ p ∈ patterns, Known env inv m'.localhost p) ∧
      ∀ h, h ∈ hosts ↔ Combined env inv m'.localhost patterns h := by
  refine Loops.foldlM_done (I := fun done state => Advanced env inv m state.2 ∧
    (∀ p ∈ done, Known env inv state.2.localhost p) ∧
      ∀ h, h ∈ state.1 ↔ Combined env inv state.2.localhost done h) ?_ ?_ hok
  · intro done p rest state state' _ hsofar hround
    obtain ⟨hadv, hknown, hmem⟩ := hsofar
    obtain ⟨hadv', hknown', hmem'⟩ := evaluatePattern_spec hadv.valid hround
    refine ⟨hadv.trans hadv', fun x hx => ?_, fun h => ?_⟩
    · rw [List.mem_append, List.mem_singleton] at hx
      rcases hx with hx | rfl
      · exact (hknown x hx).extends hadv'.localhost
      · exact hknown'
    · rw [hmem' h, Combined, List.foldl_append, ← Combined,
        ← combined_congr hknown hadv'.localhost h, ← hmem h]
      rfl
  · exact ⟨.refl hvalid, fun p hp => absurd hp List.not_mem_nil,
      fun h => iff_of_false List.not_mem_nil id⟩

/-- Where the loop raises, the manager has advanced all the same. -/
theorem evaluatePatterns_error {patterns : List Text} {e : PatternError}
    (hvalid : CacheValid env inv m)
    (herror : evaluatePatterns env inv m patterns = .error (e, m')) : Advanced env inv m m' := by
  refine Loops.foldlM_raises (P := fun state => Advanced env inv m state.2)
    (Q := fun failure => Advanced env inv m failure.2) (fun state p state' hsofar hround => ?_)
    (fun state p failure hsofar hround => ?_) (.refl hvalid) herror
  · exact hsofar.trans (evaluatePattern_spec hsofar.valid hround).1
  · exact hsofar.trans (evaluatePattern_error hsofar.valid hround)

/-! ### The order of the patterns -/

theorem foldl_regular {patterns : List Text} {sofar : Prop}
    (hregular : ∀ p ∈ patterns, ¬ Excludes p ∧ ¬ Intersects p) :
    patterns.foldl (Combine env inv localhost h) sofar ↔
      sofar ∨ ∃ p ∈ patterns, Matched env inv localhost p h := by
  induction patterns generalizing sofar with
  | nil => simp
  | cons p patterns ih =>
    rw [List.forall_mem_cons] at hregular
    rw [List.foldl_cons, ih hregular.2, Combine, if_neg fun hp => hregular.1.1 hp.2,
      if_neg fun hp => hregular.1.2 hp.2, List.exists_mem_cons_iff, or_assoc]

theorem not_excludes_of_intersects (hinter : Intersects pattern) : ¬ Excludes pattern := by
  intro hexcl
  rw [Excludes, hinter] at hexcl
  exact absurd hexcl (by decide)

theorem foldl_intersects {patterns : List Text} {sofar : Prop}
    (hinter : ∀ p ∈ patterns, Intersects p ∧ p ∉ inv.hosts) :
    patterns.foldl (Combine env inv localhost h) sofar ↔
      sofar ∧ ∀ p ∈ patterns, Matched env inv localhost p h := by
  induction patterns generalizing sofar with
  | nil => simp
  | cons p patterns ih =>
    rw [List.forall_mem_cons] at hinter
    rw [List.foldl_cons, ih hinter.2, Combine,
      if_neg fun hp => not_excludes_of_intersects hinter.1.1 hp.2,
      if_pos ⟨hinter.1.2, hinter.1.1⟩, List.forall_mem_cons, and_assoc]

theorem foldl_excludes {patterns : List Text} {sofar : Prop}
    (hexcl : ∀ p ∈ patterns, Excludes p ∧ p ∉ inv.hosts) :
    patterns.foldl (Combine env inv localhost h) sofar ↔
      sofar ∧ ∀ p ∈ patterns, ¬ Matched env inv localhost p h := by
  induction patterns generalizing sofar with
  | nil => simp
  | cons p patterns ih =>
    rw [List.forall_mem_cons] at hexcl
    rw [List.foldl_cons, ih hexcl.2, Combine, if_pos ⟨hexcl.1.2, hexcl.1.1⟩, List.forall_mem_cons,
      and_assoc]

/-- The patterns to begin with: the regular ones, or `all`. -/
theorem exists_regularPatterns_iff {patterns : List Text} {P : Text → Prop} :
    (∃ p ∈ regularPatterns patterns, P p) ↔
      (∃ p ∈ patterns, Regular p ∧ P p) ∨ (∀ p ∈ patterns, ¬ Regular p) ∧ P "all".toList := by
  have hregular : ∀ p, (¬ Excludes p ∧ ¬ Intersects p ∧ p ≠ []) ↔ Regular p :=
    fun p => ⟨fun hp => ⟨hp.2.2, hp.1, hp.2.1⟩, fun hp => ⟨hp.2.1, hp.2.2, hp.1⟩⟩
  unfold regularPatterns
  dsimp only
  split_ifs with hempty
  · have hnone : ∀ p ∈ patterns, ¬ Regular p := by
      rw [List.isEmpty_iff, List.filter_eq_nil_iff] at hempty
      exact fun p hp hreg => hempty p hp (decide_eq_true ((hregular p).mpr hreg))
    constructor
    · rintro ⟨p, hp, hP⟩
      rw [List.mem_singleton] at hp
      subst hp
      exact Or.inr ⟨hnone, hP⟩
    · rintro (⟨p, hp, hreg, -⟩ | ⟨-, hP⟩)
      · exact absurd hreg (hnone p hp)
      · exact ⟨allPattern, List.mem_singleton.mpr rfl, hP⟩
  · constructor
    · rintro ⟨p, hp, hP⟩
      rw [List.mem_filter, decide_eq_true_eq, hregular] at hp
      exact Or.inl ⟨p, hp.1, hp.2, hP⟩
    · rintro (⟨p, hp, hreg, hP⟩ | ⟨hnone, -⟩)
      · refine ⟨p, ?_, hP⟩
        rw [List.mem_filter, decide_eq_true_eq, hregular]
        exact ⟨hp, hreg⟩
      · refine absurd ?_ hempty
        rw [List.isEmpty_iff, List.filter_eq_nil_iff]
        exact fun p hp hreg => hnone p hp ((hregular p).mp (of_decide_eq_true hreg))

theorem regular_of_mem {patterns : List Text} (hp : pattern ∈ regularPatterns patterns) :
    Regular pattern := by
  have hregular : ∃ p ∈ regularPatterns patterns, p = pattern := ⟨pattern, hp, rfl⟩
  rcases exists_regularPatterns_iff.mp hregular with ⟨p, -, hreg, rfl⟩ | ⟨-, rfl⟩
  · exact hreg
  · exact ⟨by decide, by decide, by decide⟩

theorem matched_iff_picks (hregular : Regular pattern) :
    Matched env inv localhost pattern h ↔ Picks env inv localhost pattern h := by
  have hunmodified : unmodified pattern = pattern := by
    rw [unmodified, if_neg]
    exact fun hmodifier => hmodifier.elim hregular.2.1 hregular.2.2
  rw [Matched, Picks, hunmodified]

/-- Behind a modifier stands a pattern of its own. -/
theorem matched_modified {c : Char} {p : Text} (hc : Excludes (c :: p) ∨ Intersects (c :: p))
    (hhost : c :: p ∉ inv.hosts) :
    Matched env inv localhost (c :: p) h ↔ Names env inv localhost p h := by
  rw [Matched, if_neg hhost, unmodified, if_pos hc, List.drop_one, List.tail_cons]

theorem exists_of_head? {c : Char} (hhead : pattern.head? = some c) : ∃ p, pattern = c :: p :=
  ⟨pattern.tail, (List.cons_head?_tail hhead).symm⟩

/-- In the order of `order_patterns`, the patterns stand for the hosts that they select. -/
theorem combined_orderPatterns {patterns : List Text} (hunm : Unmistakable inv patterns) :
    Combined env inv localhost (orderPatterns patterns) h ↔
      Selects env inv localhost patterns h := by
  have hinter : ∀ p ∈ patterns.filter (fun p => Intersects p), Intersects p ∧ p ∉ inv.hosts := by
    intro p hp
    rw [List.mem_filter, decide_eq_true_eq] at hp
    exact ⟨hp.2, hunm p hp.1 (Or.inr hp.2)⟩
  have hexcl : ∀ p ∈ patterns.filter (fun p => Excludes p), Excludes p ∧ p ∉ inv.hosts := by
    intro p hp
    rw [List.mem_filter, decide_eq_true_eq] at hp
    exact ⟨hp.2, hunm p hp.1 (Or.inl hp.2)⟩
  have hregular : (∃ p ∈ regularPatterns patterns, Matched env inv localhost p h) ↔
      ∃ p ∈ regularPatterns patterns, Picks env inv localhost p h :=
    exists_congr fun p => and_congr_right fun hp => matched_iff_picks (regular_of_mem hp)
  have hand : ∀ p, '&' :: p ∈ patterns →
      (Matched env inv localhost ('&' :: p) h ↔ Names env inv localhost p h) := fun p hp =>
    matched_modified (Or.inr rfl) (hunm _ hp (Or.inr rfl))
  have hnot : ∀ p, '!' :: p ∈ patterns →
      (Matched env inv localhost ('!' :: p) h ↔ Names env inv localhost p h) := fun p hp =>
    matched_modified (Or.inl rfl) (hunm _ hp (Or.inl rfl))
  rw [Combined, orderPatterns, List.foldl_append, List.foldl_append, foldl_excludes hexcl,
    foldl_intersects hinter, foldl_regular fun p hp => (regular_of_mem hp).2, false_or, hregular,
    exists_regularPatterns_iff]
  simp only [List.mem_filter, decide_eq_true_eq, and_imp]
  constructor
  · rintro ⟨⟨hreg, hall⟩, hnone⟩
    exact ⟨hreg, fun p hp => (hand p hp).mp (hall _ hp rfl),
      fun p hp hname => hnone _ hp rfl ((hnot p hp).mpr hname)⟩
  · rintro ⟨hreg, hall, hnone⟩
    refine ⟨⟨hreg, fun p hp hmodifier => ?_⟩, fun p hp hmodifier hmatched => ?_⟩
    · obtain ⟨rest, rfl⟩ := exists_of_head? hmodifier
      exact (hand rest hp).mpr (hall rest hp)
    · obtain ⟨rest, rfl⟩ := exists_of_head? hmodifier
      exact hnone rest hp ((hnot rest hp).mp hmatched)

/-- The hosts that patterns evaluate to are those that they select, now and later. -/
theorem evaluatePatterns_spec {patterns : List Text} (hvalid : CacheValid env inv m)
    (hunm : Unmistakable inv patterns)
    (hok : evaluatePatterns env inv m patterns = .ok (hosts, m')) :
    Advanced env inv m m' ∧ ∀ later, Extends m'.localhost later →
      ∀ h, h ∈ hosts ↔ Selects env inv later patterns h := by
  obtain ⟨hadv, hknown, hmem⟩ := foldlM_evaluatePattern hvalid hok
  refine ⟨hadv, fun later hlater h => ?_⟩
  rw [hmem h, combined_congr hknown hlater, combined_orderPatterns hunm]

/-! ## Questions -/

theorem mem_deduplicate {seen xs : List Text} :
    h ∈ deduplicate seen xs ↔ h ∈ xs ∧ h ∉ seen := by
  induction xs generalizing seen with
  | nil => simp [deduplicate]
  | cons x xs ih =>
    rw [deduplicate]
    by_cases hx : x ∈ seen
    · rw [if_pos hx, ih, List.mem_cons]
      exact ⟨fun hh => ⟨Or.inr hh.1, hh.2⟩,
        fun hh => ⟨hh.1.resolve_left fun heq => hh.2 (heq ▸ hx), hh.2⟩⟩
    · rw [if_neg hx, List.mem_cons, ih, List.mem_cons, List.mem_cons]
      by_cases heq : h = x
      · simp [heq, hx]
      · simp [heq]

theorem nodup_deduplicate (seen xs : List Text) : (deduplicate seen xs).Nodup := by
  induction xs generalizing seen with
  | nil => exact List.nodup_nil
  | cons x xs ih =>
    rw [deduplicate]
    split_ifs
    · exact ih seen
    · exact List.nodup_cons.mpr ⟨fun hx => (mem_deduplicate.mp hx).2 List.mem_cons_self, ih _⟩

namespace Question

/-- What a question asks for. -/
structure Selects (env : Environment) (inv : Inventory) (localhost : Option Text) (q : Question)
    (h : Text) : Prop where
  pattern : Manager.Selects env inv localhost (splitHostPattern env q.pattern) h
  subset : ∀ patterns, q.subset = some patterns → Manager.Selects env inv localhost patterns h
  restriction : ∀ names, q.restriction = some names → h ∈ names

/-- No host is called like a pattern in the question that has a modifier. -/
structure Clear (env : Environment) (inv : Inventory) (q : Question) : Prop where
  pattern : Unmistakable inv (splitHostPattern env q.pattern)
  subset : ∀ patterns, q.subset = some patterns → Unmistakable inv patterns

/-- The questions have one answer. -/
structure Same (env : Environment) (q q' : Question) : Prop where
  pattern : splitHostPattern env q.pattern = splitHostPattern env q'.pattern
  subset : q.subset = q'.subset
  restriction : q.restriction = q'.restriction

theorem Same.selects_iff {q q' : Question} (hsame : Same env q q') :
    q.Selects env inv localhost h ↔ q'.Selects env inv localhost h := by
  constructor
  · exact fun hsel => ⟨hsame.pattern ▸ hsel.pattern, hsame.subset ▸ hsel.subset,
      hsame.restriction ▸ hsel.restriction⟩
  · exact fun hsel => ⟨hsame.pattern ▸ hsel.pattern, hsame.subset ▸ hsel.subset,
      hsame.restriction ▸ hsel.restriction⟩

end Question

variable {q : Question}

theorem mem_restrictHosts {restriction : Option (List Text)} :
    h ∈ restrictHosts hosts restriction ↔
      h ∈ hosts ∧ ∀ names, restriction = some names → h ∈ names := by
  cases restriction with
  | none => simp [restrictHosts]
  | some names => simp [restrictHosts]

theorem limitHosts_spec {subset : Option (List Text)} (hvalid : CacheValid env inv m)
    (hunm : ∀ patterns, subset = some patterns → Unmistakable inv patterns) {hosts' : List Text}
    (hok : limitHosts env inv (hosts, m) subset = .ok (hosts', m')) :
    Advanced env inv m m' ∧ ∀ later, Extends m'.localhost later → ∀ h, h ∈ hosts' ↔
      h ∈ hosts ∧ ∀ patterns, subset = some patterns → Selects env inv later patterns h := by
  cases subset with
  | none =>
    cases hok
    exact ⟨.refl hvalid, fun later _ h => by simp⟩
  | some patterns =>
    obtain ⟨⟨found, m₁⟩, heval, hrest⟩ := Loops.bind_eq_ok hok
    cases hrest
    obtain ⟨hadv, hmem⟩ := evaluatePatterns_spec hvalid (hunm patterns rfl) heval
    exact ⟨hadv, fun later hlater h => by simp [hmem later hlater]⟩

theorem limitHosts_error {subset : Option (List Text)} {e : PatternError}
    (hvalid : CacheValid env inv m)
    (herror : limitHosts env inv (hosts, m) subset = .error (e, m')) : Advanced env inv m m' := by
  cases subset with
  | none => cases herror
  | some patterns =>
    rcases Loops.bind_eq_error herror with heval | ⟨state, -, hrest⟩
    · exact evaluatePatterns_error hvalid heval
    · cases hrest

theorem answer_error {e : PatternError} (hvalid : CacheValid env inv m)
    (herror : answer env inv m q = .error (e, m')) : Advanced env inv m m' := by
  rw [answer] at herror
  rcases Loops.bind_eq_error herror with heval | ⟨⟨found, m₁⟩, heval, hrest⟩
  · exact evaluatePatterns_error hvalid heval
  · have hadv : Advanced env inv m m₁ := (foldlM_evaluatePattern hvalid heval).1
    rcases Loops.bind_eq_error hrest with hlimit | ⟨state, -, hrest⟩
    · exact hadv.trans (limitHosts_error hadv.valid hlimit)
    · cases hrest

/-- The answer to a question is what it asks for, now and later. -/
theorem answer_spec (hvalid : CacheValid env inv m) (hclear : q.Clear env inv)
    (hok : answer env inv m q = .ok (hosts, m')) :
    Advanced env inv m m' ∧ hosts.Nodup ∧ ∀ later, Extends m'.localhost later →
      ∀ h, h ∈ hosts ↔ q.Selects env inv later h := by
  rw [answer] at hok
  obtain ⟨⟨found, m₁⟩, heval, hrest⟩ := Loops.bind_eq_ok hok
  obtain ⟨⟨found', m₂⟩, hlimit, hrest⟩ := Loops.bind_eq_ok hrest
  cases hrest
  obtain ⟨hadv, hmem⟩ := evaluatePatterns_spec hvalid hclear.pattern heval
  obtain ⟨hadv', hmem'⟩ := limitHosts_spec hadv.valid hclear.subset hlimit
  refine ⟨hadv.trans hadv', nodup_deduplicate _ _, fun later hlater h => ?_⟩
  rw [mem_deduplicate, mem_restrictHosts, hmem' later hlater,
    hmem later (hadv'.localhost.trans hlater)]
  constructor
  · rintro ⟨⟨⟨hpattern, hsubset⟩, hrestriction⟩, -⟩
    exact ⟨hpattern, hsubset, hrestriction⟩
  · intro hsel
    exact ⟨⟨⟨hsel.pattern, hsel.subset⟩, hsel.restriction⟩, List.not_mem_nil⟩

/-! ## Runs -/

/-- What is in the cache of answers is the answer to a question that was asked. -/
def AnswersValid (env : Environment) (inv : Inventory) (m : InventoryManager)
    (asked : List Question) : Prop :=
  ∀ key hosts, m.hostsPatternsCache key = some hosts → ∃ q ∈ asked, q.key env = key ∧
    hosts.Nodup ∧ ∀ later, Extends m.localhost later → ∀ h, h ∈ hosts ↔ q.Selects env inv later h

variable {asked : List Question} {r : Request}

theorem AnswersValid.advanced (hanswers : AnswersValid env inv m asked)
    (hadv : Advanced env inv m m') : AnswersValid env inv m' asked := by
  intro key hosts hkey
  rw [hadv.hostsPatternsCache] at hkey
  obtain ⟨q, hq, hqkey, hnodup, hmem⟩ := hanswers key hosts hkey
  exact ⟨q, hq, hqkey, hnodup, fun later hlater => hmem later (hadv.localhost.trans hlater)⟩

/-- One more question, whether its answer is in the cache or not. -/
theorem getHosts_spec (hvalid : CacheValid env inv m) (hanswers : AnswersValid env inv m asked)
    (hclear : (m.question r).Clear env inv) (hok : getHosts env inv m r = .ok (hosts, m')) :
    CacheValid env inv m' ∧ AnswersValid env inv m' (m.question r :: asked) ∧
      ((m.question r).base = [] → hosts = []) ∧ ((m.question r).base ≠ [] →
        m'.hostsPatternsCache ((m.question r).key env) = some hosts) := by
  have hmore : AnswersValid env inv m (m.question r :: asked) := fun key found hcache =>
    (hanswers key found hcache).imp fun q hq => ⟨List.mem_cons_of_mem _ hq.1, hq.2⟩
  rw [getHosts] at hok
  dsimp only at hok
  split_ifs at hok with hbase
  · cases hok
    exact ⟨hvalid, hmore, fun _ => rfl, fun hne => absurd (List.isEmpty_iff.mp hbase) hne⟩
  · cases hcache : m.hostsPatternsCache ((m.question r).key env) with
    | some cached =>
      simp only [hcache] at hok
      cases hok
      exact ⟨hvalid, hmore, fun hnil => absurd (List.isEmpty_iff.mpr hnil) hbase,
        fun _ => hcache⟩
    | none =>
      simp only [hcache] at hok
      obtain ⟨⟨found, m₁⟩, hanswer, hrest⟩ := Loops.bind_eq_ok hok
      cases hrest
      obtain ⟨hadv, hnodup, hmem⟩ := answer_spec hvalid hclear hanswer
      refine ⟨hadv.valid, fun key cached hkey => ?_,
        fun hnil => absurd (List.isEmpty_iff.mpr hnil) hbase,
        fun _ => Function.update_self ..⟩
      dsimp only at hkey ⊢
      by_cases heq : key = (m.question r).key env
      · subst heq
        rw [Function.update_self] at hkey
        cases hkey
        exact ⟨_, List.mem_cons_self, rfl, hnodup, hmem⟩
      · rw [Function.update_of_ne heq] at hkey
        exact hmore.advanced hadv key cached hkey

/-- A question that raises leaves no answer, and what it has found so far is right. -/
theorem getHosts_error {e : PatternError} (hvalid : CacheValid env inv m)
    (hanswers : AnswersValid env inv m asked)
    (herror : getHosts env inv m r = .error (e, m')) :
    CacheValid env inv m' ∧ AnswersValid env inv m' asked := by
  rw [getHosts] at herror
  dsimp only at herror
  split_ifs at herror with hbase
  cases hcache : m.hostsPatternsCache ((m.question r).key env) with
  | some cached => simp only [hcache, reduceCtorEq] at herror
  | none =>
    simp only [hcache] at herror
    rcases Loops.bind_eq_error herror with hanswer | ⟨state, -, hrest⟩
    · have hadv := answer_error hvalid hanswer
      exact ⟨hadv.valid, hanswers.advanced hadv⟩
    · cases hrest

/-- Both caches stay right over every run. -/
theorem valid_of_run (hrun : Run env inv m asked) (hclear : ∀ q ∈ asked, q.Clear env inv) :
    CacheValid env inv m ∧ AnswersValid env inv m asked := by
  induction hrun with
  | start localhost =>
    exact ⟨fun _ _ hcache => absurd hcache (by simp [InventoryManager.new]),
      fun _ _ hcache => absurd hcache (by simp [InventoryManager.new])⟩
  | ask hrun hok ih =>
    rw [List.forall_mem_cons] at hclear
    obtain ⟨hvalid, hanswers⟩ := ih hclear.2
    obtain ⟨hvalid', hanswers', -⟩ := getHosts_spec hvalid hanswers hclear.1 hok
    exact ⟨hvalid', hanswers'⟩
  | raise hrun herror ih =>
    obtain ⟨hvalid, hanswers⟩ := ih hclear
    exact getHosts_error hvalid hanswers herror
  | @limit m m' asked pattern hrun hok ih =>
    obtain ⟨hvalid, hanswers⟩ := ih hclear
    unfold InventoryManager.limit at hok
    cases pattern with
    | none =>
      cases hok
      exact ⟨hvalid, hanswers⟩
    | some pattern =>
      obtain ⟨results, _, hrest⟩ := Loops.bind_eq_ok hok
      cases hrest
      exact ⟨hvalid, hanswers⟩
  | restrictToHosts names hrun ih =>
    obtain ⟨hvalid, hanswers⟩ := ih hclear
    cases names with
    | none => exact ⟨hvalid, hanswers⟩
    | some names => exact ⟨hvalid, hanswers⟩
  | removeRestriction hrun ih => exact ih hclear
  | clearPatternCache hrun ih =>
    exact ⟨fun _ _ hcache => absurd hcache (by simp [InventoryManager.clearPatternCache]),
      (ih hclear).2⟩

theorem answer_of_valid (hvalid : CacheValid env inv m) (hanswers : AnswersValid env inv m asked)
    (hclear : (m.question r).Clear env inv)
    (hkey : ∀ q ∈ asked, q.key env = (m.question r).key env → q.Same env (m.question r))
    (hok : getHosts env inv m r = .ok (hosts, m')) :
    hosts.Nodup ∧ ∀ h, h ∈ hosts ↔
      (m.question r).base ≠ [] ∧ (m.question r).Selects env inv m'.localhost h := by
  obtain ⟨-, hanswers', hnil, hne⟩ := getHosts_spec hvalid hanswers hclear hok
  by_cases hbase : (m.question r).base = []
  · rw [hnil hbase]
    exact ⟨List.nodup_nil, fun h => by simp [hbase]⟩
  · obtain ⟨q, hq, hqkey, hnodup, hmem⟩ := hanswers' _ hosts (hne hbase)
    refine ⟨hnodup, fun h => ?_⟩
    rw [hmem _ (.refl _), and_iff_right hbase]
    rw [List.mem_cons] at hq
    cases hq with
    | inl heq => rw [heq]
    | inr hq => exact (hkey q hq hqkey).selects_iff

theorem isSpace_eq_false {c : Char} (hc : '!' ≤ c) : Python.isSpace c = false := by
  rw [Bool.eq_false_iff]
  intro hspace
  simp only [Python.isSpace, Bool.or_eq_true, beq_iff_eq] at hspace
  rcases hspace with ((((rfl | rfl) | rfl) | rfl) | rfl) | rfl
  all_goals exact absurd hc (by decide)

/-- Python 3 with the default configuration, as far as plain words go. -/
def python3 : Environment where
  compile _ := none
  isAddress t := !t.isEmpty && t.all Char.isAlphanum
  str ts := '[' :: ", ".toList.intercalate (ts.map fun t => '\'' :: t ++ ['\'']) ++ [']']
  contents _ := none
  isSpace := Python.isSpace
  isBreak := Python.isSpace
  isSpace_of_visible _ hc _ := isSpace_eq_false hc
  isBreak_of_visible _ hc _ := isSpace_eq_false hc
  hostPatternMismatch := .warning

/-- One key may stand for two questions: `h1:80` alone is an address with its port. -/
example : Question.key python3 ⟨.text "h1:80".toList, none, none⟩ =
    Question.key python3 ⟨.list ["h1".toList, "80".toList], none, none⟩ := rfl

/-! ## Words -/

/-- A text that is one pattern and no expression. -/
structure Word (w : Text) : Prop where
  ne_nil : w ≠ []
  visible : ∀ c ∈ w, '!' ≤ c ∧ c ≤ '~'
  plain : ∀ c ∈ w, c ≠ ',' ∧ c ≠ ':' ∧ c ≠ '[' ∧ c ≠ ']'

variable {w : Text}

theorem findall_of_word (env : Environment) (hvisible : ∀ c ∈ w, '!' ≤ c ∧ c ≤ '~')
    (hplain : ∀ c ∈ w, c ≠ ',' ∧ c ≠ ':' ∧ c ≠ '[' ∧ c ≠ ']') (sofar : Text) :
    findall env false sofar w = if (sofar ++ w).isEmpty then [] else [sofar ++ w] := by
  induction w generalizing sofar with
  | nil => rw [findall, List.append_nil]
  | cons c w ih =>
    rw [List.forall_mem_cons] at hvisible hplain
    obtain ⟨-, hcolon, hopen, hclose⟩ := hplain.1
    have hbreak := env.isBreak_of_visible c hvisible.1.1 hvisible.1.2
    rw [findall, if_neg fun hc => hopen hc.1, if_neg (by simp [hopen, hclose, hcolon, hbreak]),
      ih hvisible.2 hplain.2, List.append_assoc, List.singleton_append]

theorem stripBy_of_visible (env : Environment) (hvisible : ∀ c ∈ w, '!' ≤ c ∧ c ≤ '~') :
    stripBy env.isSpace w = w := by
  have hspace : ∀ c ∈ w, ¬ env.isSpace c = true := fun c hc => by
    simp [env.isSpace_of_visible c (hvisible c hc).1 (hvisible c hc).2]
  have hdrop : w.dropWhile env.isSpace = w :=
    List.dropWhile_eq_self_iff.mpr fun hl => hspace _ (List.getElem_mem hl)
  rw [stripBy, hdrop]
  exact List.rdropWhile_eq_self_iff.mpr fun hne => hspace _ (List.getLast_mem hne)

/-- A word is split into itself, whether it is an address or not. -/
theorem splitText_of_word (env : Environment) (hw : Word w) : splitText env w = [w] := by
  have hcomma : ',' ∉ w := fun hmem => (hw.plain _ hmem).1 rfl
  have hsplit : (if env.isAddress w then [w] else findall env false [] w) = [w] := by
    have hempty : ¬ w.isEmpty = true := fun hnil => hw.ne_nil (List.isEmpty_iff.mp hnil)
    rw [findall_of_word env hw.visible hw.plain, List.nil_append, if_neg hempty, ite_self]
  rw [splitText, if_neg hcomma, hsplit, List.map_singleton, stripBy_of_visible env hw.visible]

theorem splitHostPattern_of_words (env : Environment) {ws : List Text} (hws : ∀ w ∈ ws, Word w) :
    splitHostPattern env (.list ws) = ws := by
  rw [splitHostPattern, List.flatMap_congr fun w hw => splitText_of_word env (hws w hw)]
  exact List.flatMap_singleton' ws

/-- Not a subscript, an expression or a localhost. -/
structure Ordinary (w : Text) : Prop where
  glob : Glob.Plain w
  regular : special w = false
  whole : splitSubscript w = (w, none)
  notMem_localhosts : w ∉ localhosts

/-- The name of a group stands for the hosts of the group, whatever hosts are called. -/
theorem resolve_group (env : Environment) (hw : Ordinary w) (hgroup : w ∈ inv.groups)
    (localhost : Option Text) :
    ∃ hosts, resolve env inv localhost w = .ok (hosts, localhost) ∧
      ∀ h, h ∈ hosts ↔ h ∈ inv.getHosts w := by
  have htilde : w.head? ≠ some '~' := fun hhead => by
    have hregular := hw.regular
    simp [special, hhead] at hregular
  have hgroups : matchList env inv.groups w =
      .ok (inv.groups.filter fun g => decide (g = w)) := by
    rw [matchList, if_neg htilde, Glob.compile_of_plain hw.glob]
  have hmem : w ∈ inv.groups.filter fun g => decide (g = w) := by simp [hgroup]
  have hne : (inv.groups.filter fun g => decide (g = w)).isEmpty = false :=
    List.isEmpty_eq_false_iff.mpr (List.ne_nil_of_mem hmem)
  refine ⟨(inv.groups.filter fun g => decide (g = w)).flatMap inv.getHosts, ?_, fun h => ?_⟩
  · simp only [resolve, hw.whole, enumerateMatches, matchInventory, hgroups, bind, Except.bind, hne,
      hw.regular, Bool.false_eq_true, false_or, if_false, orLocalhost, hw.notMem_localhosts,
      and_false, false_and, applySubscript, pure, Except.pure]
  · simp only [List.mem_flatMap, List.mem_filter, decide_eq_true_eq]
    exact ⟨fun hh => by obtain ⟨g, ⟨-, rfl⟩, hh⟩ := hh; exact hh, fun hh => ⟨w, ⟨hgroup, rfl⟩, hh⟩⟩

/-- Patterns that can be resolved can be evaluated. -/
theorem exists_evaluatePatterns {patterns : List Text} (m : InventoryManager)
    (hresolve : ∀ p ∈ orderPatterns patterns, ∀ localhost,
      ∃ found, resolve env inv localhost (unmodified p) = .ok found) :
    ∃ state, evaluatePatterns env inv m patterns = .ok state := by
  have hround : ∀ p ∈ orderPatterns patterns, ∀ state,
      ∃ state', evaluatePattern env inv state p = .ok state' := by
    intro p hp state
    obtain ⟨hosts, m⟩ := state
    have hmatch : ∃ found, matchOnePattern env inv m p = .ok found := by
      unfold matchOnePattern
      cases hcache : m.patternCache (unmodified p) with
      | some cached => exact ⟨(cached, m), by simp only [hcache]⟩
      | none =>
        obtain ⟨found, hfound⟩ := hresolve p hp m.localhost
        simp only [hcache, hfound]
        exact ⟨_, rfl⟩
    obtain ⟨found, hfound⟩ := hmatch
    rw [evaluatePattern]
    simp only [hfound, bind, Except.bind]
    split_ifs
    all_goals exact ⟨_, rfl⟩
  refine (Loops.foldlM_isOk_iff (I := fun _ _ => True) (C := fun p => p ∈ orderPatterns patterns)
    (fun _ _ _ _ _ _ _ _ => trivial) (fun done p rest state heq _ => ?_) trivial).mpr fun p hp => hp
  have hp : p ∈ orderPatterns patterns := by simp [heq]
  exact iff_of_true (hround p hp state) hp

/-- Without a limit, a question whose patterns can be resolved has an answer. -/
theorem exists_getHosts (hsubset : (m.question r).subset = none)
    (hresolve : ∀ p ∈ orderPatterns (splitHostPattern env (m.question r).pattern), ∀ localhost,
      ∃ found, resolve env inv localhost (unmodified p) = .ok found) :
    ∃ hosts m', getHosts env inv m r = .ok (hosts, m') := by
  obtain ⟨state, heval⟩ := exists_evaluatePatterns m hresolve
  rw [getHosts]
  dsimp only
  split_ifs
  · exact ⟨_, _, rfl⟩
  · cases hcache : m.hostsPatternsCache ((m.question r).key env) with
    | some cached => exact ⟨_, _, rfl⟩
    | none =>
      simp only [answer, heval, hsubset, limitHosts, bind, Except.bind, pure, Except.pure]
      exact ⟨_, _, rfl⟩

end

end Ansible.Manager
