import KubVagrant.Lib.Glob
import KubVagrant.Lib.Loops
import KubVagrant.Lib.Words
import KubVagrant.Ansible.InventoryData

/-!
# Host patterns

A play names its hosts by patterns.  `InventoryManager` splits them, puts them in order, and
resolves each: it matches the pattern against the groups and the hosts, and takes subscripts.

`Names` says what a pattern stands for without saying how it is found out, and `names_of_resolve`
is that `resolve` finds just these hosts.

## Main definitions

* `Environment`, `Inventory` — what the manager takes from elsewhere.
* `splitHostPattern`, `orderPatterns` — patterns as texts.
* `enumerateMatches`, `splitSubscript`, `applySubscript`, `resolve` — one pattern.
* `Recognises`, `Subscripted`, `Names` — what a pattern stands for.
-/

namespace Ansible.Manager
open Unix

local instance lawfulPatterns : LawfulBEq Text := inferInstance

/-- The setting `HOST_PATTERN_MISMATCH`. -/
inductive HostPatternMismatch where
  | warning
  | error
  | ignore
  deriving DecidableEq, Repr

/-- What the manager takes from Python and its surroundings. -/
structure Environment where
  /-- `re.compile(pattern).match`, where the pattern compiles. -/
  compile : Text → Option (Text → Bool)
  /-- Whether `parse_address(pattern, allow_ranges=True)` finds an address. -/
  isAddress : Text → Bool
  /-- `str(patterns)`. -/
  str : List Text → Text
  /-- What is in a file. -/
  contents : Text → Option Text
  /-- The characters that `strip()` removes, and those of `\s`. -/
  isSpace : Char → Bool
  isBreak : Char → Bool
  isSpace_of_visible : ∀ c, '!' ≤ c → c ≤ '~' → isSpace c = false
  isBreak_of_visible : ∀ c, '!' ≤ c → c ≤ '~' → isBreak c = false
  hostPatternMismatch : HostPatternMismatch

/-- What the manager reads of an inventory: the keys of its dictionaries, in Python's order, and
the hosts of each group.  A host is its name. -/
structure Inventory where
  groups : List Text
  hosts : List Text
  getHosts : Text → List Text

/-- Why a pattern is refused. -/
inductive PatternError where
  /-- `Invalid host list pattern: %s` -/
  | invalid (pattern : Text)
  /-- `No hosts matched the subscripted pattern '%s'` -/
  | noHosts (pattern : Text)
  /-- `Could not match supplied host pattern, ignoring: %s` -/
  | mismatch (pattern : Text)
  /-- `open()` raises. -/
  | cannotOpen (path : Text)

def allPattern : Text := "all".toList

/-- `LOCALHOST`. -/
def localhosts : List Text := ["127.0.0.1".toList, "localhost".toList, "::1".toList]

/-! ## Patterns as texts -/

def Excludes (pattern : Text) : Prop := pattern.head? = some '!'
def Intersects (pattern : Text) : Prop := pattern.head? = some '&'

instance (pattern : Text) : Decidable (Excludes pattern) := inferInstanceAs (Decidable (_ = _))
instance (pattern : Text) : Decidable (Intersects pattern) := inferInstanceAs (Decidable (_ = _))

/-- The patterns without a modifier; without one of them, all hosts are meant. -/
def regularPatterns (patterns : List Text) : List Text :=
  let regular := patterns.filter fun p => ¬ Excludes p ∧ ¬ Intersects p ∧ p ≠ []
  if regular.isEmpty then [allPattern] else regular

/-- `order_patterns`. -/
def orderPatterns (patterns : List Text) : List Text :=
  regularPatterns patterns ++ patterns.filter (fun p => Intersects p) ++
    patterns.filter (fun p => Excludes p)

/-- A pattern as it is given. -/
inductive HostPattern where
  | text (t : Text)
  | list (ts : List Text)

variable (env : Environment) (inv : Inventory)

/-- `re.findall`, for words of characters other than spaces, colons and brackets, and of whole
expressions in brackets: with the word so far, and whether a bracket is open. -/
def findall : Bool → Text → Text → List Text
  | _, word, [] => if word.isEmpty then [] else [word]
  | true, word, c :: rest => findall (c ≠ ']') (word ++ [c]) rest
  | false, word, c :: rest =>
    if c = '[' ∧ ']' ∈ rest then findall true (word ++ [c]) rest
    else if c = '[' ∨ c = ']' ∨ c = ':' ∨ env.isBreak c then
      (if word.isEmpty then [] else [word]) ++ findall false [] rest
    else findall false (word ++ [c]) rest

def splitText (t : Text) : List Text :=
  (if ',' ∈ t then t.splitOn ','
    else if env.isAddress t then [t]
    else findall env false [] t).map (stripBy env.isSpace)

/-- `split_host_pattern`. -/
def splitHostPattern : HostPattern → List Text
  | .text t => splitText env t
  | .list ts => ts.flatMap (splitText env)

/-! ## One pattern -/

/-- `_match_list`. -/
def matchList (items : List Text) (pattern : Text) : Except PatternError (List Text) :=
  match if pattern.head? = some '~' then env.compile (pattern.drop 1) else Glob.compile pattern with
  | some isMatch => .ok (items.filter isMatch)
  | none => .error (.invalid pattern)

/-- `get_host`, with the localhost there is afterwards. -/
def getHost (localhost : Option Text) (hostname : Text) : Option Text × Option Text :=
  if hostname ∈ inv.hosts then (some hostname, localhost)
  else if hostname ∈ localhosts then
    match localhost with
    | some h => (some h, some h)
    | none => (some hostname, some hostname)
  else (none, localhost)

/-- Not a plain word. -/
def special (pattern : Text) : Bool :=
  pattern.head? = some '~' || pattern.any fun c => c == '.' || c == '?' || c == '*' || c == '['

/-- The groups that match, and the hosts found so. -/
def matchInventory (pattern : Text) : Except PatternError (List Text × List Text) := do
  let matchingGroups ← matchList env inv.groups pattern
  let results := matchingGroups.flatMap inv.getHosts
  if matchingGroups.isEmpty ∨ special pattern then
    let matchingHosts ← matchList env inv.hosts pattern
    return (matchingGroups, results ++ matchingHosts)
  else return (matchingGroups, results)

/-- Where nothing is found, the localhost may be meant. -/
def orLocalhost (localhost : Option Text) (pattern : Text) (results : List Text) :
    List Text × Option Text :=
  if results.isEmpty ∧ pattern ∈ localhosts then
    let found := getHost inv localhost pattern
    (found.1.toList, found.2)
  else (results, localhost)

/-- `_enumerate_matches`, with the localhost there is afterwards. -/
def enumerateMatches (localhost : Option Text) (pattern : Text) :
    Except PatternError (List Text × Option Text) := do
  let (matchingGroups, results) ← matchInventory env inv pattern
  let (results, localhost) := orLocalhost inv localhost pattern results
  if results.isEmpty ∧ matchingGroups.isEmpty ∧ pattern ≠ allPattern ∧
      env.hostPatternMismatch = .error then
    .error (.mismatch pattern)
  else return (results, localhost)

/-- A subscript: one host, or those from `start` to `stop`, or to the end. -/
inductive Subscript where
  | index (i : ℤ)
  | range (start : ℕ) (stop : Option ℕ)
  deriving DecidableEq, Repr

def isDigit (c : Char) : Bool := '0' ≤ c && c ≤ '9'

/-- `int(digits)`. -/
def natOf (digits : Text) : ℕ := digits.foldl (fun n c => 10 * n + (c.toNat - '0'.toNat)) 0

/-- What may stand in the brackets of a subscript. -/
def parseSubscript (t : Text) : Option Subscript :=
  let digits := t.takeWhile isDigit
  match t.dropWhile isDigit with
  | [] => if digits.isEmpty then none else some (.index (natOf digits))
  | c :: rest =>
    if ¬ rest.all isDigit then none
    else if digits.isEmpty then
      if c = '-' ∧ ¬ rest.isEmpty then some (.index (-natOf rest)) else none
    else if c = ':' ∨ c = '-' then
      some (.range (natOf digits) (if rest.isEmpty then none else some (natOf rest)))
    else none

/-- `_split_subscript`.  No subscript holds a bracket, so it is the last bracket that opens it. -/
def splitSubscript (pattern : Text) : Text × Option Subscript :=
  if pattern.head? = some '~' then (pattern, none)
  else
    match (chomp '\n' pattern).reverse with
    | ']' :: back =>
      let body := (back.takeWhile (· ≠ '[')).reverse
      let expr := ((back.dropWhile (· ≠ '[')).drop 1).reverse
      match parseSubscript body with
      | some subscript =>
        if expr.isEmpty ∨ '\n' ∈ expr ∨ '[' ∉ back then (pattern, none) else (expr, some subscript)
      | none => (pattern, none)
    | _ => (pattern, none)

/-- `hosts[i]`, and `none` where it raises. -/
def itemAt (hosts : List Text) (i : ℤ) : Option Text :=
  if 0 ≤ i then hosts[i.toNat]?
  else if 0 ≤ i + hosts.length then hosts[(i + hosts.length).toNat]? else none

/-- `_apply_subscript`, and `none` where it raises.  A range up to 0 counts as an index. -/
def applySubscript (hosts : List Text) : Option Subscript → Option (List Text)
  | none => some hosts
  | some subscript =>
    if hosts.isEmpty then some hosts
    else
      match subscript with
      | .index i => (itemAt hosts i).map fun h => [h]
      | .range start (some 0) => (itemAt hosts start).map fun h => [h]
      | .range start (some stop) => some ((hosts.take (stop + 1)).drop start)
      | .range start none => some (hosts.drop start)

/-- A pattern without its modifier. -/
def unmodified (pattern : Text) : Text :=
  if Excludes pattern ∨ Intersects pattern then pattern.drop 1 else pattern

/-- What `_match_one_pattern` does for a pattern it has not in its cache, with the localhost there
is afterwards, also where it raises. -/
def resolve (localhost : Option Text) (pattern : Text) :
    Except (PatternError × Option Text) (List Text × Option Text) :=
  let split := splitSubscript pattern
  match enumerateMatches env inv localhost split.1 with
  -- where nothing is found, no localhost was made
  | .error e => .error (e, localhost)
  | .ok (hosts, localhost) =>
    match applySubscript hosts split.2 with
    | some hosts => .ok (hosts, localhost)
    | none => .error (.noHosts pattern, localhost)

/-! ## What a pattern stands for -/

/-- The expression is not a plain word. -/
def IsExpression (expr : Text) : Prop :=
  expr.head? = some '~' ∨ '.' ∈ expr ∨ '?' ∈ expr ∨ '*' ∈ expr ∨ '[' ∈ expr

/-- The expression recognises the name: a regular expression stands behind `~`, everything else is
a pattern of the shell. -/
def Recognises (env : Environment) (expr name : Text) : Prop :=
  (∃ source f, expr = '~' :: source ∧ env.compile source = some f ∧ f name = true) ∨
    expr.head? ≠ some '~' ∧ Glob.Denotes expr name

open Classical in
/-- The hosts of the groups that are recognised, and, where there is none or the expression is not a
plain word, the hosts that are. -/
noncomputable def found (env : Environment) (inv : Inventory) (expr : Text) : List Text :=
  (inv.groups.filter fun g => decide (Recognises env expr g)).flatMap inv.getHosts ++
    if IsExpression expr ∨ ∀ g ∈ inv.groups, ¬ Recognises env expr g then
      inv.hosts.filter fun h => decide (Recognises env expr h)
    else []

open Classical in
/-- What an expression stands for: the localhost if nothing else. -/
noncomputable def standsFor (env : Environment) (inv : Inventory) (localhost : Option Text)
    (expr : Text) : List Text :=
  if found env inv expr = [] ∧ expr ∈ localhosts then
    [if expr ∈ inv.hosts then expr else localhost.getD expr]
  else found env inv expr

def Digits (t : Text) : Prop := t ≠ [] ∧ ∀ c ∈ t, isDigit c = true

/-- How a subscript is written. -/
inductive Written : Text → Subscript → Prop
  | index {a : Text} : Digits a → Written a (.index (natOf a))
  | back {a : Text} : Digits a → Written ('-' :: a) (.index (-natOf a))
  | between {a b : Text} {sep : Char} : Digits a → Digits b → (sep = ':' ∨ sep = '-') →
    Written (a ++ sep :: b) (.range (natOf a) (some (natOf b)))
  | behind {a : Text} {sep : Char} : Digits a → (sep = ':' ∨ sep = '-') →
    Written (a ++ [sep]) (.range (natOf a) none)

/-- The pattern is the expression with the subscript. -/
structure Subscripted (pattern expr : Text) (subscript : Subscript) : Prop where
  pattern_eq : ∃ body eol, pattern = expr ++ '[' :: body ++ ']' :: eol ∧
    Written body subscript ∧ (eol = [] ∨ eol = ['\n'])
  ne_nil : expr ≠ []
  newline_notMem : '\n' ∉ expr
  not_regex : expr.head? ≠ some '~'

/-- The subscript points to the host.  A range up to 0 is its first host. -/
def Subscript.Picks (hosts : List Text) (h : Text) : Subscript → Prop
  | index i => ∃ k : ℕ, hosts[k]? = some h ∧ (i = k ∨ i < 0 ∧ i + hosts.length = k)
  | range start (some 0) => hosts[start]? = some h
  | range start (some (stop + 1)) => ∃ k, start ≤ k ∧ k ≤ stop + 1 ∧ hosts[k]? = some h
  | range start none => ∃ k, start ≤ k ∧ hosts[k]? = some h

/-- What a pattern without a modifier stands for. -/
inductive Names (env : Environment) (inv : Inventory) (localhost : Option Text)
    (pattern h : Text) : Prop
  | whole (hwhole : ∀ expr subscript, ¬ Subscripted pattern expr subscript)
    (hmem : h ∈ standsFor env inv localhost pattern)
  | part {expr : Text} {subscript : Subscript} (hsub : Subscripted pattern expr subscript)
    (hpick : subscript.Picks (standsFor env inv localhost expr) h)

section
variable {env : Environment} {inv : Inventory} {localhost localhost' : Option Text}
  {pattern h : Text} {hosts : List Text}

/-! ## Resolving again -/

/-- The localhost is chosen once. -/
def Extends (localhost localhost' : Option Text) : Prop :=
  localhost = none ∨ localhost' = localhost

theorem Extends.refl (localhost : Option Text) : Extends localhost localhost := Or.inr rfl

theorem Extends.trans {localhost'' : Option Text} (h : Extends localhost localhost')
    (h' : Extends localhost' localhost'') : Extends localhost localhost'' := by
  cases h with
  | inl hnone => exact Or.inl hnone
  | inr heq => exact heq ▸ h'

theorem Extends.eq_some {x : Text} (h : Extends (some x) localhost) : localhost = some x :=
  h.resolve_left (by simp)

theorem getHost_stable {found : Option Text}
    (hget : getHost inv localhost pattern = (found, localhost')) :
    Extends localhost localhost' ∧
      ∀ later, Extends localhost' later → getHost inv later pattern = (found, later) := by
  unfold getHost at hget ⊢
  split_ifs at hget with hhost hlocal
  · cases hget
    exact ⟨.refl _, fun later _ => by rw [if_pos hhost]⟩
  · cases localhost with
    | some x =>
      cases hget
      exact ⟨.refl _, fun later h => by rw [if_neg hhost, if_pos hlocal, h.eq_some]⟩
    | none =>
      cases hget
      exact ⟨Or.inl rfl, fun later h => by rw [if_neg hhost, if_pos hlocal, h.eq_some]⟩
  · cases hget
    exact ⟨.refl _, fun later _ => by rw [if_neg hhost, if_neg hlocal]⟩

theorem orLocalhost_stable {results : List Text}
    (hor : orLocalhost inv localhost pattern results = (hosts, localhost')) :
    Extends localhost localhost' ∧ ∀ later, Extends localhost' later →
      orLocalhost inv later pattern results = (hosts, later) := by
  unfold orLocalhost at hor ⊢
  split_ifs at hor with hcase
  · obtain ⟨⟨found, loc⟩, hget⟩ : ∃ r, getHost inv localhost pattern = r := ⟨_, rfl⟩
    rw [hget] at hor
    cases hor
    obtain ⟨hext, hlater⟩ := getHost_stable hget
    refine ⟨hext, fun later h => ?_⟩
    rw [if_pos hcase, hlater later h]
  · cases hor
    exact ⟨.refl _, fun later _ => by rw [if_neg hcase]⟩

/-- What a pattern matches does not change any more. -/
theorem enumerateMatches_stable
    (hok : enumerateMatches env inv localhost pattern = .ok (hosts, localhost')) :
    Extends localhost localhost' ∧ ∀ later, Extends localhost' later →
      enumerateMatches env inv later pattern = .ok (hosts, later) := by
  unfold enumerateMatches at hok ⊢
  obtain ⟨⟨groups, results⟩, hmatch, hrest⟩ := Loops.bind_eq_ok hok
  obtain ⟨⟨hosts', loc⟩, hor⟩ : ∃ r, orLocalhost inv localhost pattern results = r := ⟨_, rfl⟩
  obtain ⟨hext, hlater⟩ := orLocalhost_stable hor
  simp only [hor] at hrest
  split_ifs at hrest with hmismatch
  cases hrest
  refine ⟨hext, fun later h => ?_⟩
  simp only [hmatch, bind, Except.bind, hlater later h, if_neg hmismatch]
  rfl

/-- The pattern stands for these hosts, from now on. -/
def Resolved (env : Environment) (inv : Inventory) (localhost : Option Text) (pattern : Text)
    (hosts : List Text) : Prop :=
  ∀ later, Extends localhost later → resolve env inv later pattern = .ok (hosts, later)

theorem Resolved.extends (h : Resolved env inv localhost pattern hosts)
    (hext : Extends localhost localhost') : Resolved env inv localhost' pattern hosts :=
  fun later hlater => h later (hext.trans hlater)

theorem resolve_stable (hok : resolve env inv localhost pattern = .ok (hosts, localhost')) :
    Extends localhost localhost' ∧ Resolved env inv localhost' pattern hosts := by
  rw [Resolved]
  unfold resolve at hok ⊢
  dsimp only at hok ⊢
  cases hmatches : enumerateMatches env inv localhost (splitSubscript pattern).1 with
  | error e => simp only [hmatches, reduceCtorEq] at hok
  | ok found =>
    obtain ⟨results, loc⟩ := found
    obtain ⟨hext, hlater⟩ := enumerateMatches_stable hmatches
    simp only [hmatches] at hok
    cases hsub : applySubscript results (splitSubscript pattern).2 with
    | none => simp only [hsub, reduceCtorEq] at hok
    | some results' =>
      simp only [hsub] at hok
      cases hok
      exact ⟨hext, fun later h => by simp only [hlater later h, hsub]⟩

/-- Where a pattern is refused, the localhost may have been chosen all the same. -/
theorem resolve_error {e : PatternError}
    (herror : resolve env inv localhost pattern = .error (e, localhost')) :
    Extends localhost localhost' := by
  unfold resolve at herror
  dsimp only at herror
  cases hmatches : enumerateMatches env inv localhost (splitSubscript pattern).1 with
  | error e =>
    simp only [hmatches] at herror
    cases herror
    exact .refl _
  | ok found =>
    obtain ⟨results, loc⟩ := found
    simp only [hmatches] at herror
    cases hsub : applySubscript results (splitSubscript pattern).2 with
    | none =>
      simp only [hsub] at herror
      cases herror
      exact (enumerateMatches_stable hmatches).1
    | some results' => simp only [hsub, reduceCtorEq] at herror

/-! ## Resolving finds what a pattern stands for -/

theorem special_iff {expr : Text} : special expr = true ↔ IsExpression expr := by
  simp only [special, IsExpression, Bool.or_eq_true, decide_eq_true_eq, List.any_eq_true,
    beq_iff_eq]
  refine or_congr Iff.rfl ?_
  constructor
  · rintro ⟨c, hc, ((rfl | rfl) | rfl) | rfl⟩
    · exact Or.inl hc
    · exact Or.inr (Or.inl hc)
    · exact Or.inr (Or.inr (Or.inl hc))
    · exact Or.inr (Or.inr (Or.inr hc))
  · rintro (hc | hc | hc | hc)
    all_goals exact ⟨_, hc, by simp⟩

/-- What an expression compiles to recognises the names that it should. -/
theorem recognises_iff {expr : Text} {f : Text → Bool}
    (hf : (if expr.head? = some '~' then env.compile (expr.drop 1) else Glob.compile expr) = some f)
    (name : Text) : f name = true ↔ Recognises env expr name := by
  rw [Recognises]
  by_cases htilde : expr.head? = some '~'
  · rw [if_pos htilde] at hf
    obtain ⟨source, rfl⟩ : ∃ source, expr = '~' :: source :=
      ⟨expr.tail, (List.cons_head?_tail htilde).symm⟩
    constructor
    · exact fun hname => Or.inl ⟨source, f, rfl, hf, hname⟩
    · rintro (⟨source', f', hsource, hf', hname⟩ | ⟨hnot, -⟩)
      · obtain rfl : source = source' := (List.cons.inj hsource).2
        rw [List.drop_one, List.tail_cons] at hf
        rw [hf, Option.some.injEq] at hf'
        exact hf' ▸ hname
      · exact absurd htilde hnot
  · rw [if_neg htilde] at hf
    rw [Glob.compile_iff hf]
    constructor
    · exact fun hname => Or.inr ⟨htilde, hname⟩
    · rintro (⟨source, f', rfl, -⟩ | ⟨-, hname⟩)
      · exact absurd rfl htilde
      · exact hname

open Classical in
theorem matchList_eq {items matched : List Text} {expr : Text}
    (hok : matchList env items expr = .ok matched) :
    matched = items.filter fun x => decide (Recognises env expr x) := by
  rw [matchList] at hok
  cases hf : (if expr.head? = some '~' then env.compile (expr.drop 1) else Glob.compile expr) with
  | none => simp only [hf, reduceCtorEq] at hok
  | some f =>
    simp only [hf] at hok
    cases hok
    refine List.filter_congr fun x _ => ?_
    rw [Bool.eq_iff_iff, recognises_iff hf, decide_eq_true_iff]

theorem matchInventory_eq {groups results : List Text} {expr : Text}
    (hok : matchInventory env inv expr = .ok (groups, results)) : results = found env inv expr := by
  classical
  rw [matchInventory] at hok
  obtain ⟨matched, hmatched, hrest⟩ := Loops.bind_eq_ok hok
  have hgroups := matchList_eq hmatched
  have hnone : matched.isEmpty = true ↔ ∀ g ∈ inv.groups, ¬ Recognises env expr g := by
    rw [List.isEmpty_iff, hgroups, List.filter_eq_nil_iff]
    simp
  rw [found]
  rw [← hgroups]
  dsimp only at hrest
  split_ifs at hrest with hcase
  · obtain ⟨hosts, hhosts, hrest⟩ := Loops.bind_eq_ok hrest
    rw [if_pos (hcase.symm.imp special_iff.mp hnone.mp), ← matchList_eq hhosts]
    cases hrest
    rfl
  · rw [if_neg fun h => hcase (h.symm.imp hnone.mpr special_iff.mpr), List.append_nil]
    cases hrest
    rfl

theorem enumerateMatches_eq {expr : Text}
    (hok : enumerateMatches env inv localhost expr = .ok (hosts, localhost')) :
    hosts = standsFor env inv localhost' expr := by
  classical
  rw [enumerateMatches] at hok
  obtain ⟨⟨groups, results⟩, hmatch, hrest⟩ := Loops.bind_eq_ok hok
  obtain ⟨⟨hosts', loc⟩, hor⟩ : ∃ r, orLocalhost inv localhost expr results = r := ⟨_, rfl⟩
  simp only [hor] at hrest
  split_ifs at hrest
  cases hrest
  rw [standsFor, ← matchInventory_eq hmatch]
  rw [orLocalhost] at hor
  by_cases hcase : results = [] ∧ expr ∈ localhosts
  · rw [if_pos ⟨List.isEmpty_iff.mpr hcase.1, hcase.2⟩] at hor
    rw [if_pos hcase]
    unfold getHost at hor
    by_cases hhost : expr ∈ inv.hosts
    · simp only [if_pos hhost] at hor ⊢
      cases hor
      rfl
    · simp only [if_neg hhost, if_pos hcase.2] at hor ⊢
      cases localhost with
      | none =>
        cases hor
        rfl
      | some x =>
        cases hor
        rfl
  · rw [if_neg fun h => hcase ⟨List.isEmpty_iff.mp h.1, h.2⟩] at hor
    rw [if_neg hcase]
    cases hor
    rfl

/-! ### Subscripts -/

theorem digits_takeWhile {a : Text} (ha : Digits a) {c : Char} (hc : isDigit c = false)
    (rest : Text) : (a ++ c :: rest).takeWhile isDigit = a ∧
      (a ++ c :: rest).dropWhile isDigit = c :: rest := by
  rw [List.takeWhile_append_of_pos ha.2, List.dropWhile_append_of_pos ha.2,
    List.takeWhile_cons_of_neg (by simp [hc]), List.dropWhile_cons_of_neg (by simp [hc]),
    List.append_nil]
  exact ⟨rfl, rfl⟩

theorem isDigit_separator {sep : Char} (h : sep = ':' ∨ sep = '-') : isDigit sep = false := by
  rcases h with rfl | rfl <;> decide

/-- What is written is read. -/
theorem parseSubscript_of_written {body : Text} {subscript : Subscript}
    (h : Written body subscript) : parseSubscript body = some subscript := by
  cases h with
  | @index a ha =>
    have hwhole : body.takeWhile isDigit = body ∧ body.dropWhile isDigit = [] :=
      ⟨List.takeWhile_eq_self_iff.mpr ha.2, List.dropWhile_eq_nil_iff.mpr ha.2⟩
    simp [parseSubscript, hwhole, ha.1]
  | @back a ha =>
    have hminus : isDigit '-' = false := by decide
    have hall : a.all isDigit = true := List.all_eq_true.mpr ha.2
    simp [parseSubscript, hminus, hall, ha.1]
  | @between a b sep ha hb hsep =>
    obtain ⟨htake, hdrop⟩ := digits_takeWhile ha (isDigit_separator hsep) b
    have hall : b.all isDigit = true := List.all_eq_true.mpr hb.2
    simp [parseSubscript, htake, hdrop, hall, ha.1, hb.1, hsep]
  | @behind a sep ha hsep =>
    obtain ⟨htake, hdrop⟩ := digits_takeWhile ha (isDigit_separator hsep) []
    simp [parseSubscript, htake, hdrop, ha.1, hsep]

/-- What is read is written. -/
theorem written_of_parseSubscript {body : Text} {subscript : Subscript}
    (h : parseSubscript body = some subscript) : Written body subscript := by
  have hsplit := List.takeWhile_append_dropWhile (p := isDigit) (l := body)
  have hdigits : ∀ c ∈ body.takeWhile isDigit, isDigit c = true :=
    fun c hc => List.mem_takeWhile_imp hc
  unfold parseSubscript at h
  dsimp only at h
  generalize body.takeWhile isDigit = a at h hsplit hdigits
  cases hdrop : body.dropWhile isDigit with
  | nil =>
    simp only [hdrop, List.append_nil] at h hsplit
    subst hsplit
    split_ifs at h with hempty
    cases h
    exact .index ⟨fun hnil => hempty (List.isEmpty_iff.mpr hnil), hdigits⟩
  | cons c rest =>
    simp only [hdrop] at h hsplit
    subst hsplit
    split_ifs at h with hall hempty hback hsep hrest
    · cases h
      obtain ⟨rfl, hne⟩ := hback
      rw [List.isEmpty_iff.mp hempty]
      rw [List.all_eq_true] at hall
      exact .back ⟨fun hnil => hne (List.isEmpty_iff.mpr hnil), hall⟩
    · cases h
      rw [List.isEmpty_iff.mp hrest]
      exact .behind ⟨fun hnil => hempty (List.isEmpty_iff.mpr hnil), hdigits⟩ hsep
    · cases h
      rw [List.all_eq_true] at hall
      exact .between ⟨fun hnil => hempty (List.isEmpty_iff.mpr hnil), hdigits⟩
        ⟨fun hnil => hrest (List.isEmpty_iff.mpr hnil), hall⟩ hsep

theorem bracket_notMem_of_written {body : Text} {subscript : Subscript}
    (h : Written body subscript) : '[' ∉ body := by
  have hdigits : ∀ a : Text, Digits a → '[' ∉ a := by
    intro a ha hmem
    exact absurd (ha.2 _ hmem) (by decide)
  cases h with
  | index ha => exact hdigits _ ha
  | back ha => simp [hdigits _ ha]
  | between ha hb hsep => rcases hsep with rfl | rfl <;> simp [hdigits _ ha, hdigits _ hb]
  | behind ha hsep => rcases hsep with rfl | rfl <;> simp [hdigits _ ha]

/-- A text in brackets at the end of the pattern, before the end of the line. -/
theorem chomp_bracket (t : Text) {eol : Text} (heol : eol = [] ∨ eol = ['\n']) :
    chomp '\n' (t ++ ']' :: eol) = t ++ [']'] := by
  rcases heol with rfl | rfl
  · simp [chomp]
  · have hline : t ++ ']' :: ['\n'] = (t ++ [']']) ++ ['\n'] := by simp
    rw [hline, chomp_line]

theorem splitSubscript_of_subscripted {expr : Text} {subscript : Subscript}
    (h : Subscripted pattern expr subscript) : splitSubscript pattern = (expr, some subscript) := by
  obtain ⟨⟨body, eol, rfl, hwritten, heol⟩, hne, hnewline, hregex⟩ := h
  have hbracket := bracket_notMem_of_written hwritten
  have hhead : (expr ++ '[' :: body ++ ']' :: eol).head? ≠ some '~' := by
    obtain ⟨c, rest, rfl⟩ := List.exists_cons_of_ne_nil hne
    exact hregex
  have hback : ∀ c ∈ body.reverse, decide (c ≠ '[') = true := by
    intro c hc
    rw [decide_eq_true_iff]
    rintro rfl
    exact hbracket (List.mem_reverse.mp hc)
  have hreverse : (expr ++ '[' :: body ++ [']']).reverse =
      ']' :: (body.reverse ++ '[' :: expr.reverse) := by simp
  rw [splitSubscript, if_neg hhead, chomp_bracket _ heol, hreverse]
  split
  · rename_i heq
    cases heq
    rw [List.takeWhile_append_of_pos hback, List.dropWhile_append_of_pos hback,
      List.takeWhile_cons_of_neg (by simp), List.dropWhile_cons_of_neg (by simp), List.append_nil,
      List.reverse_reverse, List.drop_one, List.tail_cons, List.reverse_reverse]
    simp [parseSubscript_of_written hwritten, hne, hnewline]
  · rename_i hno
    exact absurd rfl (hno _)

/-- The last bracket, in a text that is read from its end. -/
theorem eq_takeWhile_append_bracket {back : Text} (h : '[' ∈ back) :
    back = back.takeWhile (· ≠ '[') ++ '[' :: (back.dropWhile (· ≠ '[')).drop 1 := by
  induction back with
  | nil => simp at h
  | cons c back ih =>
    by_cases hc : c = '['
    · simp [hc]
    · have hmem : '[' ∈ back := (List.mem_cons.mp h).resolve_left (Ne.symm hc)
      rw [List.takeWhile_cons_of_pos (by simpa using hc),
        List.dropWhile_cons_of_pos (by simpa using hc), List.cons_append]
      exact congrArg (c :: ·) (ih hmem)

theorem subscripted_of_splitSubscript {expr : Text} {subscript : Subscript}
    (h : splitSubscript pattern = (expr, some subscript)) :
    Subscripted pattern expr subscript := by
  have hrecord : ∃ eol, pattern = chomp '\n' pattern ++ eol ∧ (eol = [] ∨ eol = ['\n']) := by
    by_cases hlast : pattern.getLast? = some '\n'
    · refine ⟨['\n'], ?_, Or.inr rfl⟩
      rw [chomp, if_pos hlast]
      exact (List.dropLast_append_getLast? _ hlast).symm
    · exact ⟨[], by rw [chomp, if_neg hlast, List.append_nil], Or.inl rfl⟩
  obtain ⟨eol, hpattern, heol⟩ := hrecord
  have hregex : pattern.head? ≠ some '~' := by
    intro htilde
    simp [splitSubscript, htilde] at h
  rw [splitSubscript, if_neg hregex] at h
  split at h
  · rename_i back hreverse
    have hchomp : chomp '\n' pattern = back.reverse ++ [']'] := by
      rw [← List.reverse_reverse (chomp '\n' pattern), hreverse, List.reverse_cons]
    dsimp only at h
    cases hparse : parseSubscript (back.takeWhile (· ≠ '[')).reverse with
    | none =>
      simp only [hparse] at h
      cases h
    | some sub =>
      simp only [hparse] at h
      by_cases hcase : ((back.dropWhile (· ≠ '[')).drop 1).reverse.isEmpty = true ∨
          '\n' ∈ ((back.dropWhile (· ≠ '[')).drop 1).reverse ∨ '[' ∉ back
      · rw [if_pos hcase] at h
        cases h
      rw [if_neg hcase] at h
      rw [not_or, not_or, not_not] at hcase
      obtain ⟨hne, hnewline, hbracket⟩ := hcase
      cases h
      have hback := congrArg List.reverse (eq_takeWhile_append_bracket hbracket)
      rw [List.reverse_append, List.reverse_cons, List.append_assoc, List.singleton_append] at hback
      have heq : pattern = ((back.dropWhile (· ≠ '[')).drop 1).reverse ++
          '[' :: (back.takeWhile (· ≠ '[')).reverse ++ ']' :: eol := by
        conv_lhs => rw [hpattern, hchomp, hback]
        simp
      have hnil : ((back.dropWhile (· ≠ '[')).drop 1).reverse ≠ [] :=
        fun hnil => hne (List.isEmpty_iff.mpr hnil)
      refine ⟨⟨_, eol, heq, written_of_parseSubscript hparse, heol⟩, hnil, hnewline, ?_⟩
      obtain ⟨c, rest, hcons⟩ := List.exists_cons_of_ne_nil hnil
      rw [heq, hcons] at hregex
      rw [hcons]
      exact hregex
  · simp at h

theorem fst_splitSubscript (hnone : (splitSubscript pattern).2 = none) :
    (splitSubscript pattern).1 = pattern := by
  rw [splitSubscript] at hnone ⊢
  by_cases htilde : pattern.head? = some '~'
  · rw [if_pos htilde]
  · rw [if_neg htilde] at hnone ⊢
    split
    · rename_i back hreverse
      simp only [hreverse] at hnone
      cases hparse : parseSubscript (back.takeWhile (· ≠ '[')).reverse with
      | none => simp only [hparse]
      | some sub =>
        simp only [hparse] at hnone ⊢
        split_ifs at hnone ⊢
        rfl
    · rfl

/-- The pattern is split where it has a subscript. -/
theorem splitSubscript_cases (pattern : Text) :
    (∃ expr subscript, splitSubscript pattern = (expr, some subscript) ∧
      Subscripted pattern expr subscript) ∨
    splitSubscript pattern = (pattern, none) ∧
      ∀ expr subscript, ¬ Subscripted pattern expr subscript := by
  obtain ⟨⟨expr, subscript⟩, hsplit⟩ : ∃ split, splitSubscript pattern = split := ⟨_, rfl⟩
  cases subscript with
  | some subscript =>
    exact Or.inl ⟨expr, subscript, hsplit, subscripted_of_splitSubscript hsplit⟩
  | none =>
    have hnone : (splitSubscript pattern).2 = none := by rw [hsplit]
    have hwhole : expr = pattern := by rw [← fst_splitSubscript hnone, hsplit]
    refine Or.inr ⟨hwhole ▸ hsplit, fun expr' subscript hsub => ?_⟩
    rw [splitSubscript_of_subscripted hsub] at hsplit
    simp at hsplit

theorem mem_itemAt_iff {i : ℤ} {hosts' : List Text}
    (hok : (itemAt hosts i).map (fun h => [h]) = some hosts') :
    h ∈ hosts' ↔ (Subscript.index i).Picks hosts h := by
  obtain ⟨x, hitem, rfl⟩ := Option.map_eq_some_iff.mp hok
  rw [List.mem_singleton]
  rw [itemAt] at hitem
  rw [Subscript.Picks]
  split_ifs at hitem with hpos hneg
  · constructor
    · rintro rfl
      exact ⟨i.toNat, hitem, Or.inl (by omega)⟩
    · rintro ⟨k, hk, hi⟩
      have hsame : k = i.toNat := by omega
      rw [← hsame, hk, Option.some.injEq] at hitem
      exact hitem
  · constructor
    · rintro rfl
      exact ⟨_, hitem, Or.inr (by omega)⟩
    · rintro ⟨k, hk, hi⟩
      have hsame : k = (i + hosts.length).toNat := by omega
      rw [← hsame, hk, Option.some.injEq] at hitem
      exact hitem

/-- The hosts that a subscript leaves are those it points to. -/
theorem mem_applySubscript_iff {subscript : Subscript} {hosts' : List Text}
    (hok : applySubscript hosts (some subscript) = some hosts') :
    h ∈ hosts' ↔ subscript.Picks hosts h := by
  unfold applySubscript at hok
  dsimp only at hok
  split_ifs at hok with hempty
  · cases hok
    rw [List.isEmpty_iff.mp hempty]
    refine iff_of_false List.not_mem_nil ?_
    rcases subscript with i | ⟨start, _ | _ | stop⟩
    all_goals simp [Subscript.Picks]
  · rcases subscript with i | ⟨start, _ | _ | stop⟩
    · exact mem_itemAt_iff hok
    · cases hok
      rw [List.mem_iff_getElem?]
      simp only [List.getElem?_drop, Subscript.Picks]
      constructor
      · rintro ⟨k, hk⟩
        exact ⟨start + k, by omega, hk⟩
      · rintro ⟨k, hle, hk⟩
        exact ⟨k - start, by rwa [Nat.add_sub_cancel' hle]⟩
    · rw [mem_itemAt_iff hok]
      simp only [Subscript.Picks]
      constructor
      · rintro ⟨k, hk, hi⟩
        obtain rfl : k = start := by omega
        exact hk
      · exact fun hk => ⟨start, hk, Or.inl rfl⟩
    · cases hok
      rw [List.mem_iff_getElem?]
      simp only [List.getElem?_drop, List.getElem?_take, Subscript.Picks]
      constructor
      · rintro ⟨k, hk⟩
        split_ifs at hk with hlt
        exact ⟨start + k, by omega, by omega, hk⟩
      · rintro ⟨k, hle, hlt, hk⟩
        refine ⟨k - start, ?_⟩
        rw [Nat.add_sub_cancel' hle, if_pos (by omega)]
        exact hk

/-- **Resolving a pattern finds the hosts that it stands for.** -/
theorem names_of_resolve (hok : resolve env inv localhost pattern = .ok (hosts, localhost')) :
    h ∈ hosts ↔ Names env inv localhost' pattern h := by
  unfold resolve at hok
  dsimp only at hok
  cases hmatches : enumerateMatches env inv localhost (splitSubscript pattern).1 with
  | error e => simp only [hmatches, reduceCtorEq] at hok
  | ok matched =>
    obtain ⟨results, loc⟩ := matched
    have hresults := enumerateMatches_eq hmatches
    simp only [hmatches] at hok
    rcases splitSubscript_cases pattern with ⟨expr, subscript, hsplit, hsub⟩ | ⟨hsplit, hwhole⟩
    · rw [hsplit] at hresults hok
      cases happly : applySubscript results (some subscript) with
      | none => simp only [happly, reduceCtorEq] at hok
      | some hosts' =>
        simp only [happly] at hok
        cases hok
        rw [mem_applySubscript_iff happly, hresults]
        constructor
        · exact .part hsub
        · intro hnames
          cases hnames with
          | whole hwhole => exact absurd hsub (hwhole _ _)
          | part hsub' hpick =>
            have hsame := (splitSubscript_of_subscripted hsub').symm.trans hsplit
            cases hsame
            exact hpick
    · rw [hsplit] at hresults hok
      cases hok
      rw [hresults]
      constructor
      · exact .whole hwhole
      · intro hnames
        cases hnames with
        | whole hwhole hmem => exact hmem
        | part hsub => exact absurd hsub (hwhole _ _)

end

end Ansible.Manager
