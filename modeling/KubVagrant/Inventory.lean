import KubVagrant.InsertData
import KubVagrant.Lib.IPv4

/-!
# Which hosts the destructive scripts reach

The inventory has blank lines, `[group]` headers, and host lines: an address, optionally
followed by a blank and host variables.  `drop_datas.sh` and `insert_datas.sh` are meant
for the hosts whose address begins with `192.`; the pattern they search with may also
begin inside another address or inside a variable, and may run past the address into a
variable that starts with a digit.  `reachesTargets_iff` says for which inventories
neither happens.

## Main definitions

* `InventoryLine`, `InventoryFile` — the grammar of the inventory.
* `InventoryLine.target` — the host a line stands for in the scripts.
* `InventoryLine.Clear` — the line does not mislead the pattern.
-/

namespace KubVagrant
open Unix

/-! ## What the pattern finds -/

theorem mem_lang_group_iff (x : Text) :
    x ∈ group.lang ↔ ∃ c ds, x = c :: ds ∧ ds ≠ [] ∧ ∀ d ∈ ds, d.isDigit = true := by
  rw [group, Regex.mem_lang_seq]
  simp only [Regex.mem_lang_any, digit, Regex.mem_lang_plus_cls_iff]
  constructor
  · intro h
    rcases h with ⟨_, ⟨c, rfl⟩, ds, ⟨hne, hds⟩, rfl⟩
    exact ⟨c, ds, rfl, hne, hds⟩
  · intro h
    rcases h with ⟨c, ds, rfl, hne, hds⟩
    exact ⟨[c], ⟨c, rfl⟩, ds, ⟨hne, hds⟩, rfl⟩

theorem mem_lang_hostPattern_iff (x : Text) :
    x ∈ hostPattern.lang ↔ ∃ t ∈ (Regex.plus group).lang, x = "192".toList ++ t := by
  rw [hostPattern, Regex.mem_lang_seq]
  simp only [Regex.mem_lang_word]
  constructor
  · rintro ⟨_, rfl, t, ht, rfl⟩; exact ⟨t, ht, rfl⟩
  · rintro ⟨t, ht, rfl⟩; exact ⟨_, rfl, t, ht, rfl⟩

/-- Groups start with any character and a digit. -/
theorem exists_digit_of_mem_groups {t : Text} (ht : t ∈ (Regex.plus group).lang) :
    ∃ c d t', t = c :: d :: t' ∧ d.isDigit = true := by
  obtain ⟨x, hx, y, -, rfl⟩ := (Regex.mem_lang_plus_iff _ _).mp ht
  obtain ⟨c, ds, rfl, hne, hds⟩ := (mem_lang_group_iff x).mp hx
  obtain ⟨d, ds, rfl⟩ := List.exists_cons_of_ne_nil hne
  exact ⟨c, d, ds ++ y, rfl, hds d (by simp)⟩

/-- Inside groups, a character that is no digit starts a group, so a digit follows. -/
theorem exists_digit_after {gs : List Text} (hgs : ∀ g ∈ gs, g ∈ group.lang) {x y : Text} {a : Char}
    (h : gs.flatten = x ++ a :: y) (hx : x ≠ []) (ha : a.isDigit = false) :
    ∃ d y', y = d :: y' ∧ d.isDigit = true := by
  induction gs generalizing x with
  | nil => simp at h
  | cons g gs ih =>
    have hgs' : ∀ g' ∈ gs, g' ∈ group.lang := fun g' hg' => hgs g' (by simp [hg'])
    obtain ⟨c, ds, rfl, -, hds⟩ := (mem_lang_group_iff g).mp (hgs g (by simp))
    -- the case that `a` stands right behind this group
    have hnext : gs.flatten = a :: y → ∃ d y', y = d :: y' ∧ d.isDigit = true := by
      intro hflat
      cases gs with
      | nil => simp at hflat
      | cons g' gs =>
        obtain ⟨c', ds', rfl, hne, hds'⟩ := (mem_lang_group_iff g').mp (hgs g' (by simp))
        obtain ⟨d, ds', rfl⟩ := List.exists_cons_of_ne_nil hne
        simp only [List.flatten_cons, List.cons_append, List.cons.injEq] at hflat
        exact ⟨d, _, hflat.2.symm, hds' d (by simp)⟩
    obtain ⟨b, x, rfl⟩ := List.exists_cons_of_ne_nil hx
    simp only [List.flatten_cons, List.cons_append, List.cons.injEq] at h
    rcases List.append_eq_append_iff.mp h.2 with ⟨x', hx', hrest⟩ | ⟨ds', hds', hrest⟩
    · cases x' with
      | nil => exact hnext hrest
      | cons b' x' => exact ih hgs' hrest (by simp)
    · cases ds' with
      | nil => exact hnext (by simpa using hrest.symm)
      | cons b' ds' =>
        rw [List.cons_append, List.cons.injEq] at hrest
        have hdigit := hds a (by rw [hds', hrest.1]; simp)
        rw [hdigit] at ha
        exact absurd ha (by simp)

/-- The pattern occurs in a record if and only if some `192` there has a character and a
digit behind it. -/
theorem occurs_hostPattern_iff (record : Text) :
    hostPattern.occurs record = true ↔
      ∃ x c d y, record = x ++ "192".toList ++ c :: d :: y ∧ d.isDigit = true := by
  rw [Regex.occurs_iff]
  constructor
  · intro hocc
    rcases hocc with ⟨x, m, z, rfl, hm⟩
    obtain ⟨t, ht, rfl⟩ := (mem_lang_hostPattern_iff m).mp hm
    obtain ⟨c, d, t, rfl, hd⟩ := exists_digit_of_mem_groups ht
    exact ⟨x, c, d, t ++ z, by simp, hd⟩
  · intro hocc
    rcases hocc with ⟨x, c, d, y, rfl, hd⟩
    refine ⟨x, "192".toList ++ [c, d], y, by simp, ?_⟩
    refine (mem_lang_hostPattern_iff _).mpr ⟨[c, d], Regex.mem_lang_plus_self ?_, rfl⟩
    exact (mem_lang_group_iff _).mpr ⟨c, [d], rfl, by simp, by simpa using hd⟩

/-! ## The inventory -/

/-- A line of the inventory. -/
inductive InventoryLine where
  | blank (text : Text) (h : ∀ c ∈ text, isBlank c = true)
  | group (name : Text) (h : ∀ c ∈ name, c.isAlpha = true)
  /-- An address, and what follows it: nothing, or a blank and host variables. -/
  | host (address : IPv4) (vars : Text)
      (h : vars = [] ∨ ∃ w t, vars = w :: t ∧ isBlank w = true)

namespace InventoryLine

/-- The line as it is written. -/
def text : InventoryLine → Text
  | blank t _ => t
  | group name _ => '[' :: name ++ [']']
  | host address vars _ => address.text ++ vars

/-- The leading address of a host line. -/
def address : InventoryLine → Option Text
  | host address _ _ => some address.text
  | _ => none

/-- The leading address of a host line that begins with `192.`. -/
def target : InventoryLine → Option Text
  | host address vars _ =>
    if "192.".toList <+: address.text ++ vars then some address.text else none
  | _ => none

/-- A host line that begins with `192.` has no digit right behind the blank that follows the
address; any other host line has no `192` with a character and a digit behind it. -/
def Clear : InventoryLine → Prop
  | host address vars _ =>
    if "192.".toList <+: address.text ++ vars then
      ¬ ∃ w d t, vars = w :: d :: t ∧ d.isDigit = true
    else ¬ ∃ x c d y, address.text ++ vars = x ++ "192".toList ++ c :: d :: y ∧ d.isDigit = true
  | _ => True

theorem address_of_target {line : InventoryLine} {t : Text} (h : line.target = some t) :
    line.address = some t := by
  cases line with
  | blank text hb => simp [target] at h
  | group name hg => simp [target] at h
  | host address vars hv =>
    simp only [target, Option.ite_none_right_eq_some] at h
    exact h.2

end InventoryLine

/-- The text of an inventory together with its lines. -/
structure InventoryFile where
  text : Text
  entries : List InventoryLine
  lines_eq : lines '\n' text = entries.map InventoryLine.text

/-! ## Line by line -/

/-- The words a line contributes to the loops of the destructive scripts. -/
abbrev matchedHosts (record : Text) : List Text := recordHosts (fun _ m => m.matched) record

theorem matchedHosts_eq_nil_iff (record : Text) :
    matchedHosts record = [] ↔ ¬ hostPattern.occurs record = true := by
  cases h : hostPattern.search record with
  | none => simp [matchedHosts, recordHosts_of_none h, Regex.occurs, h]
  | some m =>
    obtain ⟨y, hy⟩ := exists_cons_of_mem_hostPattern (Regex.search_sound h).isMatch.2
    have hone : isBlank '1' = false := by decide
    have hne : expand m.matched ≠ [] := expand_ne_nil_of_mem (by rw [hy]; simp) hone
    simp [matchedHosts, recordHosts_of_some h, Regex.occurs, h, hne]

/-- A line that is no host line contributes nothing. -/
theorem not_occurs_of_no_one {record : Text} (h : '1' ∉ record) :
    ¬ hostPattern.occurs record = true := by
  rw [occurs_hostPattern_iff]
  intro hocc
  rcases hocc with ⟨x, c, d, y, rfl, -⟩
  exact h (by simp)

theorem matchedHosts_blank {text : Text} (h : ∀ c ∈ text, isBlank c = true) :
    matchedHosts text = [] := by
  rw [matchedHosts_eq_nil_iff]
  refine not_occurs_of_no_one fun hone => ?_
  exact absurd (h '1' hone) (by decide)

theorem matchedHosts_group {name : Text} (h : ∀ c ∈ name, c.isAlpha = true) :
    matchedHosts ('[' :: name ++ [']']) = [] := by
  rw [matchedHosts_eq_nil_iff]
  refine not_occurs_of_no_one fun hone => ?_
  have hname : '1' ∉ name := fun hmem => absurd (h '1' hmem) (by decide)
  simp [hname] at hone

/-- The groups of an address that begins with `192.`. -/
def addressGroups (ip : IPv4) : Text :=
  '.' :: (ip.b.digits ++ '.' :: (ip.c.digits ++ '.' :: ip.d.digits))

theorem addressGroups_mem (ip : IPv4) : addressGroups ip ∈ (Regex.plus group).lang := by
  have hoctet : ∀ o : Octet, '.' :: o.digits ∈ group.lang := fun o =>
    (mem_lang_group_iff _).mpr ⟨'.', o.digits, rfl, o.ne_nil, o.isDigit⟩
  have h := Regex.append_mem_lang_plus
    (Regex.append_mem_lang_plus (Regex.mem_lang_plus_self (hoctet ip.b)) (hoctet ip.c))
    (hoctet ip.d)
  simpa [addressGroups] using! h

theorem text_eq_of_a {ip : IPv4} (h : ip.a.digits = "192".toList) :
    ip.text = "192".toList ++ addressGroups ip := by
  rw [IPv4.text, h, addressGroups]

theorem expand_address (ip : IPv4) : expand ip.text = [ip.text] := by
  refine wordsBy_eq_singleton ip.text_ne_nil fun c hc => ?_
  rcases IPv4.mem_text hc with rfl | h
  · decide
  · exact isBlank_of_isDigit h

/-- On a host line that begins with `192.` the match starts with the address. -/
theorem search_address {ip : IPv4} (ha : ip.a.digits = "192".toList) (vars : Text) :
    ∃ m e, hostPattern.search (ip.text ++ vars) = some m ∧ m.before = [] ∧
      m.matched = ip.text ++ e ∧ vars = e ++ m.after := by
  have hmem : ip.text ∈ hostPattern.lang :=
    (mem_lang_hostPattern_iff _).mpr ⟨_, addressGroups_mem ip, text_eq_of_a ha⟩
  have hcut : Regex.IsMatch hostPattern (ip.text ++ vars) ⟨[], ip.text, vars⟩ := ⟨rfl, hmem⟩
  cases hs : hostPattern.search (ip.text ++ vars) with
  | none => exact absurd hcut ((Regex.search_eq_none_iff _ _).mp hs _)
  | some m =>
    have hm := Regex.search_sound hs
    have hbefore : m.before = [] :=
      List.eq_nil_of_length_eq_zero (Nat.le_zero.mp (hm.leftmost _ hcut))
    rw [← hbefore] at hcut
    obtain ⟨e, hmatched, hvars⟩ := hm.exists_extension hcut
    exact ⟨m, e, rfl, hbefore, hmatched, hvars⟩

/-- Any character and a digit behind the address belong to the match. -/
theorem isMatch_of_digit {ip : IPv4} (ha : ip.a.digits = "192".toList) (w : Char) {d : Char}
    (hd : d.isDigit = true) (t : Text) :
    Regex.IsMatch hostPattern (ip.text ++ w :: d :: t) ⟨[], ip.text ++ [w, d], t⟩ := by
  have hgroup : [w, d] ∈ group.lang :=
    (mem_lang_group_iff _).mpr ⟨w, [d], rfl, by simp, by simpa using hd⟩
  refine ⟨by simp, (mem_lang_hostPattern_iff _).mpr ⟨addressGroups ip ++ [w, d], ?_, ?_⟩⟩
  · exact Regex.append_mem_lang_plus (addressGroups_mem ip) hgroup
  · simp [text_eq_of_a ha]

/-- A blank behind the address that belongs to the match has a digit behind it. -/
theorem exists_digit_of_extension {ip : IPv4} (ha : ip.a.digits = "192".toList) {w : Char}
    {e : Text} (hw : isBlank w = true) (hmem : ip.text ++ w :: e ∈ hostPattern.lang) :
    ∃ d e', e = d :: e' ∧ d.isDigit = true := by
  obtain ⟨t, ht, htext⟩ := (mem_lang_hostPattern_iff _).mp hmem
  obtain ⟨gs, -, rfl, hgs⟩ := (Regex.mem_lang_plus_iff_flatten _ _).mp ht
  rw [text_eq_of_a ha, List.append_assoc] at htext
  have hflat := (List.append_cancel_left htext).symm
  have hdigit : w.isDigit = false := by
    by_contra hd
    rw [Bool.not_eq_false] at hd
    rw [isBlank_of_isDigit hd] at hw
    exact absurd hw (by simp)
  exact exists_digit_after hgs hflat (by simp [addressGroups]) hdigit

/-- Such a line contributes its address first, and nothing else if and only if no digit
stands right behind the blank. -/
theorem matchedHosts_address {ip : IPv4} (ha : ip.a.digits = "192".toList) {vars : Text}
    (hv : vars = [] ∨ ∃ w t, vars = w :: t ∧ isBlank w = true) :
    ∃ more, matchedHosts (ip.text ++ vars) = ip.text :: more ∧
      (more = [] ↔ ¬ ∃ w d t, vars = w :: d :: t ∧ d.isDigit = true) := by
  obtain ⟨m, e, hs, hbefore, hmatched, hvars⟩ := search_address ha vars
  have hm := Regex.search_sound hs
  rw [matchedHosts, recordHosts_of_some hs, hmatched]
  cases e with
  | nil =>
    refine ⟨[], by rw [List.append_nil, expand_address], ?_⟩
    simp only [true_iff]
    intro hdigit
    rcases hdigit with ⟨w, d, t, rfl, hd⟩
    -- otherwise two more characters would belong to the match
    have hcut := isMatch_of_digit ha w hd t
    rw [← hbefore] at hcut
    obtain ⟨e, he, -⟩ := hm.exists_extension hcut
    simp [hmatched] at he
  | cons w e =>
    have hblank : isBlank w = true := by
      rcases hv with rfl | ⟨w', t, rfl, hw'⟩
      · simp at hvars
      · rw [List.cons_append, List.cons.injEq] at hvars
        rw [← hvars.1]; exact hw'
    have hmem := hm.isMatch.2
    rw [hmatched] at hmem
    obtain ⟨d, e', rfl, hd⟩ := exists_digit_of_extension ha hblank hmem
    refine ⟨expand (d :: e'), ?_, ?_⟩
    · rw [expand, wordsBy_append_cons _ _ hblank]
      change expand ip.text ++ _ = _
      rw [expand_address]
      rfl
    · have hne : expand (d :: e') ≠ [] :=
        expand_ne_nil_of_mem (by simp) (isBlank_of_isDigit hd)
      simp only [hne, false_iff, not_not]
      exact ⟨w, d, e' ++ m.after, by simpa using hvars, hd⟩

/-- What a line is meant to contribute, and when it does. -/
theorem matchedHosts_line (line : InventoryLine) :
    (line.target.toList.length ≤ (matchedHosts line.text).length) ∧
      ((matchedHosts line.text).length = line.target.toList.length →
        matchedHosts line.text = line.target.toList) ∧
      (matchedHosts line.text = line.target.toList ↔ line.Clear) := by
  cases line with
  | blank text h =>
    have hnil : matchedHosts (InventoryLine.blank text h).text = [] := matchedHosts_blank h
    simp [hnil, InventoryLine.target, InventoryLine.Clear]
  | group name h =>
    have hnil : matchedHosts (InventoryLine.group name h).text = [] := matchedHosts_group h
    simp [hnil, InventoryLine.target, InventoryLine.Clear]
  | host ip vars hv =>
    have hstart : "192.".toList <+: ip.text ++ vars ↔ ip.a.digits = "192".toList := by
      have hdot : '.' ∉ "192".toList := by decide
      exact ip.prefix_text_iff hdot vars
    by_cases ha : "192.".toList <+: ip.text ++ vars
    · obtain ⟨more, hmore, hclear⟩ := matchedHosts_address (hstart.mp ha) hv
      simp only [InventoryLine.target, InventoryLine.Clear, InventoryLine.text, if_pos ha, hmore,
        Option.toList_some, List.length_cons, List.length_nil, List.cons.injEq, true_and, hclear]
      refine ⟨by omega, fun hlen => ?_, trivial⟩
      rw [← hclear]
      exact List.eq_nil_of_length_eq_zero (by omega)
    · simp only [InventoryLine.target, InventoryLine.Clear, InventoryLine.text, if_neg ha,
        Option.toList_none, List.length_nil, List.length_eq_zero_iff]
      refine ⟨Nat.zero_le _, id, ?_⟩
      rw [matchedHosts_eq_nil_iff, occurs_hostPattern_iff]

/-! ## The scripts -/

/-- The leading addresses of the host lines that begin with `192.`, in file order. -/
def InventoryFile.targets (file : InventoryFile) : List Text :=
  file.entries.filterMap InventoryLine.target

theorem matchedHosts_file_iff (file : InventoryFile) :
    hostsBy (fun _ m => m.matched) file.text = file.targets ↔
      ∀ line ∈ file.entries, line.Clear := by
  have htargets : file.targets = file.entries.flatMap fun line => line.target.toList := by
    rw [InventoryFile.targets, List.filterMap_eq_flatMap_toList]
  have hhosts : hostsBy (fun _ m => m.matched) file.text =
      file.entries.flatMap fun line => matchedHosts line.text := by
    rw [hostsBy_eq, file.lines_eq, List.flatMap_map]
  rw [htargets, hhosts, flatMap_eq_flatMap_iff List.length (fun _ _ => List.length_append)]
  · exact forall₂_congr fun line _ => (matchedHosts_line line).2.2
  · exact fun line _ => (matchedHosts_line line).1
  · exact fun line _ => (matchedHosts_line line).2.1

/-- `drop_datas.sh` sends its `TRUNCATE` statements, and `insert_datas.sh` its `INSERT`
statements, to the leading addresses of the host lines that begin with `192.`, in file order, and
neither sends any statement to what is not the leading address of a line. -/
def ReachesTargets (alea : ℕ → Text → ℕ → Fin 500) (file : InventoryFile) : Prop :=
  reached Sql.isTruncate (dropDatas file.text) = file.targets ∧
    reached Sql.isInsertInto (insertDatas alea file.text) = file.targets ∧
      ∀ round ∈ dropDatas file.text ++ insertDatas alea file.text,
        ∀ s ∈ round.statements, ∃ line ∈ file.entries, line.address = some s.host

/-- **Soundness of the destructive scripts, exactly**: every line of the inventory is
clear. -/
theorem reachesTargets_iff (alea : ℕ → Text → ℕ → Fin 500) (file : InventoryFile) :
    ReachesTargets alea file ↔ ∀ line ∈ file.entries, line.Clear := by
  rw [← matchedHosts_file_iff, ReachesTargets, reached_of_sends (sends_dropDatas file.text),
    reached_of_sends (sends_insertDatas alea file.text), visited_dropDatas, visited_insertDatas]
  constructor
  · exact And.left
  · intro h
    refine ⟨h, h, ?_⟩
    intro round hround s hs
    have hvisited : round.host ∈ file.targets := by
      rcases List.mem_append.mp hround with hr | hr
      · rw [← h]
        change _ ∈ dropDatasHosts file.text
        rw [← visited_dropDatas]
        exact List.mem_map_of_mem hr
      · rw [← h]
        change _ ∈ insertDatasHosts file.text
        rw [← visited_insertDatas alea]
        exact List.mem_map_of_mem hr
    have hhost : s.host = round.host := by
      rcases List.mem_append.mp hround with hr | hr
      · exact (sends_dropDatas file.text round hr).2 s hs
      · exact (sends_insertDatas alea file.text round hr).2 s hs
    obtain ⟨line, hline, htarget⟩ := List.mem_filterMap.mp hvisited
    exact ⟨line, hline, by rw [hhost]; exact InventoryLine.address_of_target htarget⟩

/-- An inventory with the single host `172.17.0.5` and the address of its gateway. -/
def gatewayFile : InventoryFile where
  text := "[db]\n172.17.0.5 gateway=192.168.0.1\n".toList
  entries :=
    [.group "db".toList (List.all_iff_forall_prop.mp (by decide)),
      .host
        { a := ⟨"172".toList, by decide, List.all_iff_forall_prop.mp (by decide), by decide⟩
          b := ⟨"17".toList, by decide, List.all_iff_forall_prop.mp (by decide), by decide⟩
          c := ⟨"0".toList, by decide, List.all_iff_forall_prop.mp (by decide), by decide⟩
          d := ⟨"5".toList, by decide, List.all_iff_forall_prop.mp (by decide), by decide⟩ }
        " gateway=192.168.0.1".toList (Or.inr ⟨' ', "gateway=192.168.0.1".toList, rfl, rfl⟩)]
  lines_eq := by decide

/-- `drop_datas.sh` truncates the tables of the gateway, which is no host of the inventory. -/
theorem reachesTargets_fails :
    reached Sql.isTruncate (dropDatas gatewayFile.text) = ["192.168.0.1".toList] ∧
      ¬ ReachesTargets (fun _ _ _ => 0) gatewayFile := by
  have hreached : reached Sql.isTruncate (dropDatas gatewayFile.text) =
      ["192.168.0.1".toList] := by
    rw [reached_of_sends (sends_dropDatas gatewayFile.text), visited_dropDatas]
    decide
  refine ⟨hreached, fun h => ?_⟩
  have htargets : gatewayFile.targets = [] := by decide
  rw [ReachesTargets, hreached, htargets] at h
  exact absurd h.1 (by decide)

end KubVagrant
