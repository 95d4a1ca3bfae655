import KubVagrant.Lib.Loops
import KubVagrant.Ansible.LineInFile

/-!
# The configuration of the database servers

The roles `mariadb` and `central` change `/etc/mysql/my.cnf` by `lineinfile`, once for each of
three lines.  `changeMyCnf` is that task on the contents of the file.

`changeMyCnf_spec` says what it makes of the lines of any file: they stay, in their order, and the
lines that are missing follow.  A second run finds nothing to do, so it does not notify the handler
that restarts the server.  `OptionFile.bound_changeMyCnf_iff` says when the address to listen on
ends up where it counts.

## Main definitions

* `Role` — the two roles, with the lines of each.
* `changeMyCnf` — the task.
* `stripped` — the lines of a file as the task compares them.
* `OptionFile` — how the server reads the lines of its option files.
* `OptionFile.Bound` — the address stands in the section of the server.
-/

namespace KubVagrant
open Unix Ansible.LineInFile

/-! ## The task -/

/-- The options of the task for one line. -/
def itemParams (line : Text) : Params where
  state := .present
  line := some line
  regexp := none
  insertafter := none
  insertbefore := none
  backrefs := false
  create := false
  firstmatch := false
  checkMode := false

/-- One round of the loop; the task has changed the file if some round has. -/
def changeItem (state : Bool × Dest) (item : Text) : Except Failure (Bool × Dest) := do
  let outcome ← main (itemParams item) state.2
  return (state.1 || outcome.changed, outcome.dest)

/-- The task `change my.cnf`, with whether it has changed the file. -/
def changeMyCnf (items : List Text) (dest : Dest) : Except Failure (Bool × Dest) :=
  items.foldlM changeItem (false, dest)

inductive Role where
  | mariadb
  | central
  deriving DecidableEq, Repr

def mysqldHeader : Text := "[mysqld]".toList

namespace Role

def bindAddress : Role → Text
  | mariadb => "bind-address = 0.0.0.0".toList
  | central => "bind-address  = 0.0.0.0".toList

/-- `with_items`. -/
def items (role : Role) : List Text :=
  [mysqldHeader, role.bindAddress, "# skip-networking".toList]

end Role

/-! ## One line -/

/-- The lines of a file as the task compares them. -/
def stripped (t : Text) : List Text := (records '\n' t).map rstrip

/-- A line without newlines, and without a carriage return at its end. -/
def Clean (item : Text) : Prop := '\n' ∉ item ∧ rstrip item = item

instance (item : Text) : Decidable (Clean item) := inferInstanceAs (Decidable (_ ∧ _))

/-- The last record that counts as the line is the line. -/
def Settled (item : Text) (rs : List Text) : Prop :=
  rs.reverse.find? (fun cur => item = rstrip cur) = some (withNewline item)

/-- What a round does to the records of the file: the last one that counts as the line becomes
the line, or else the line follows. -/
inductive Changed (item : Text) : List Text → List Text → Prop where
  | replaced {a b : List Text} {cur : Text} : item = rstrip cur → (∀ x ∈ b, item ≠ rstrip x) →
      Changed item (a ++ cur :: b) (a ++ withNewline item :: b)
  | added {rs : List Text} : (∀ x ∈ rs, item ≠ rstrip x) →
      Changed item rs (rs ++ [withNewline item])
  | ended {a : List Text} {l : Text} : (∀ x ∈ a ++ [l], item ≠ rstrip x) → '\n' ∉ l →
      Changed item (a ++ [l]) (a ++ [withNewline l, withNewline item])

variable {item item' : Text} {rs rs' : List Text} {t t' : Text}

theorem rstrip_withNewline (l : Text) : rstrip (withNewline l) = rstrip l := by
  rw [rstrip, withNewline, List.rdropWhile_concat_pos _ _ _ (by decide)]
  rfl

theorem adds_itemParams (h : Clean item) : Adds (itemParams item) item where
  state := rfl
  line_eq := rfl
  newline_notMem := h.1
  own := by
    rw [Params.matchLine, itemParams, rstrip_withNewline, h.2]
    simp
  backrefs := rfl
  checkMode := rfl

theorem matchLine_eq_none_iff {cur : Text} :
    (withDefault (itemParams item)).matchLine item cur = none ↔ item ≠ rstrip cur := by
  rw [matchLine_withDefault, Params.matchLine, itemParams]
  simp

/-- The lines after a round, as the task compares them. -/
theorem Changed.map_rstrip (h : Changed item rs rs') (hitem : Clean item) :
    rs'.map rstrip = if item ∈ rs.map rstrip then rs.map rstrip else rs.map rstrip ++ [item] := by
  have hself : rstrip (withNewline item) = item := (rstrip_withNewline item).trans hitem.2
  have hnotMem : ∀ {xs : List Text}, (∀ x ∈ xs, item ≠ rstrip x) → item ∉ xs.map rstrip := by
    intro xs hxs hmem
    rcases List.mem_map.mp hmem with ⟨x, hx, heq⟩
    exact hxs x hx heq.symm
  cases h with
  | @replaced a b cur hcur hb =>
    have hmem : item ∈ (a ++ cur :: b).map rstrip := by
      rw [hcur]
      exact List.mem_map_of_mem (by simp)
    rw [if_pos hmem, List.map_append, List.map_append, List.map_cons, List.map_cons, hself, ← hcur]
  | added hnone => rw [if_neg (hnotMem hnone), List.map_append, List.map_singleton, hself]
  | @ended a l hnone hl =>
    rw [if_neg (hnotMem hnone), List.map_append, List.map_append, List.map_cons, List.map_singleton,
      List.map_singleton, rstrip_withNewline, hself, List.append_assoc]
    rfl

/-- The line is settled after its round. -/
theorem Changed.settled (h : Changed item rs rs') (hitem : Clean item) : Settled item rs' := by
  have hself : rstrip (withNewline item) = item := (rstrip_withNewline item).trans hitem.2
  rw [Settled]
  cases h with
  | @replaced a b cur hcur hb =>
    rw [List.find?_eq_some_iff_append]
    refine ⟨by simpa using hself.symm, b.reverse, a.reverse, by simp, fun x hx => ?_⟩
    simpa using hb x (List.mem_reverse.mp hx)
  | added hnone =>
    rw [List.reverse_append, List.reverse_singleton, List.singleton_append, List.find?_cons_of_pos]
    simpa using hself.symm
  | ended hnone hl =>
    rw [List.reverse_append, List.reverse_cons, List.reverse_singleton, List.singleton_append,
      List.cons_append, List.find?_cons_of_pos]
    simpa using hself.symm

/-- A round leaves other lines settled. -/
theorem Settled.changed (hs : Settled item' rs) (h : Changed item rs rs') (hitem : Clean item)
    (hne : item' ≠ item) : Settled item' rs' := by
  have hother : ¬ item' = rstrip item := by rwa [hitem.2]
  rw [Settled] at hs ⊢
  cases h with
  | @replaced a b cur hcur hb =>
    have hcur' : ¬ item' = rstrip cur := hcur ▸ hne
    simpa [List.find?_append, List.find?_cons, rstrip_withNewline, hcur', hother] using hs
  | added hnone => simpa [List.find?_append, List.find?_cons, rstrip_withNewline, hother] using hs
  | @ended a l hnone hl =>
    have hl' : ¬ item' = rstrip l := by
      intro heq
      have hfirst : l = withNewline item' := by
        simpa [List.find?_cons, ← heq] using hs
      exact hl (hfirst ▸ by simp [withNewline])
    simpa [List.find?_append, List.find?_cons, hother, rstrip_withNewline, hl'] using hs

/-! ## The task on a file -/

/-- The file does not end in the middle of a line break. -/
def Broken (t : Text) : Prop := t.getLast? = some '\r'

instance (t : Text) : Decidable (Broken t) := inferInstanceAs (Decidable (_ = _))

/-- The task goes straight to the edit, which adds at the end. -/
theorem main_itemParams (item t : Text) :
    main (itemParams item) (.file t) = present (withDefault (itemParams item)) item (.file t) := rfl

theorem present_of_edit {lines : List Text} {msg : Text}
    (hedit : edit (withDefault (itemParams item)) item (records '\n' t) = .ok (lines, msg))
    (hsame : msg = [] → lines = records '\n' t) :
    main (itemParams item) (.file t) = .ok ⟨msg ≠ [], msg, .file lines.flatten⟩ := by
  have hcheck : (withDefault (itemParams item)).checkMode = false := rfl
  simp only [main_itemParams, present, hedit, bind, Except.bind, pure, Except.pure, written, hcheck,
    and_true]
  split
  · rfl
  · next hmsg => rw [hsame (not_not.mp hmsg), flatten_records]

/-- With nothing to replace, the line goes to the end, after a line break if there is none. -/
theorem edit_at_end {ls : List Text} {l : Text} (hl : '\n' ∉ l)
    (hbroken : ¬ Broken l)
    (hnone : ∀ x ∈ ls.map withNewline ++ (if l = [] then [] else [l]), item ≠ rstrip x) :
    edit (withDefault (itemParams item)) item
        (ls.map withNewline ++ if l = [] then [] else [l]) =
      .ok (ls.map withNewline ++ (if l = [] then [] else [l, ['\n']]) ++ [withNewline item],
        "line added".toList) := by
  have hscan : (scan (withDefault (itemParams item)) item 0 ⟨none, none⟩
      (ls.map withNewline ++ if l = [] then [] else [l])).line = none :=
    line_scan_of_no_match fun x hx => matchLine_eq_none_iff.mpr (hnone x hx)
  have hback : (withDefault (itemParams item)).backrefs = false := rfl
  have hbof : ¬ ((withDefault (itemParams item)).insertbefore.any (fun a => a.text = bof) ∨
      (withDefault (itemParams item)).insertafter.any (fun a => a.text = bof)) := by
    simp [withDefault, itemParams, bof, eof]
  have heof : (withDefault (itemParams item)).insertafter.any (fun a => a.text = eof) = true := by
    simp [withDefault, itemParams]
  simp only [edit, hscan, hback, Bool.false_eq_true, if_false, if_neg hbof, if_pos heof]
  split_ifs with hnil
  · rw [List.append_nil]
    cases hlast : (ls.map withNewline).getLast? with
    | none => rfl
    | some cur =>
      rw [Option.bind_some, ended_map ls cur hlast]
      rfl
  · rw [List.getLast?_concat, Option.bind_some]
    cases hlast : l.getLast? with
    | none => exact absurd (List.getLast?_eq_none_iff.mp hlast) hnil
    | some c =>
      have hn : ¬ c = '\n' := fun hc => hl (hc ▸ List.mem_of_getLast? hlast)
      have hr : ¬ c = '\r' := fun hc => hbroken (hlast.trans (congrArg some hc))
      dsimp only
      rw [if_neg (not_or.mpr ⟨hn, hr⟩)]
      simp

/-- A line that is missing goes to the end. -/
theorem main_item_of_no_match (hitem : Clean item) (ht : ¬ Broken t)
    (hnone : ∀ x ∈ records '\n' t, item ≠ rstrip x) :
    ∃ t', main (itemParams item) (.file t) = .ok ⟨true, "line added".toList, .file t'⟩ ∧
      ¬ Broken t' ∧ Changed item (records '\n' t) (records '\n' t') := by
  rcases exists_flatMap_append (d := '\n') t with ⟨ls, l, hls, hl, rfl⟩
  have hrecords : records '\n' ((ls.flatMap fun l => l ++ ['\n']) ++ l) =
      ls.map withNewline ++ if l = [] then [] else [l] := records_flatMap_append hls hl
  have hbroken : ¬ Broken l := fun h => ht (by rw [Broken, List.getLast?_append, h]; rfl)
  rw [hrecords] at hnone
  have hedit := edit_at_end hl hbroken hnone
  have hmsg : "line added".toList ≠ [] := by decide
  generalize "line added".toList = msg at hedit hmsg ⊢
  have hmain := present_of_edit (hrecords ▸ hedit) fun h => absurd h hmsg
  rw [decide_eq_true hmsg] at hmain
  refine ⟨_, hmain, ?_, ?_⟩
  · rw [Broken, List.flatten_append, List.getLast?_append]
    simp [withNewline]
  · have hnext : ∀ m ∈ ls ++ (if l = [] then [] else [l]) ++ [item], '\n' ∉ m := by
      intro m hm
      rw [List.mem_append, List.mem_append, List.mem_singleton] at hm
      rcases hm with (hm | hm) | rfl
      · exact hls m hm
      · split_ifs at hm
        · exact absurd hm List.not_mem_nil
        · exact (List.mem_singleton.mp hm) ▸ hl
      · exact hitem.1
    have hflat : (ls.map withNewline ++ (if l = [] then [] else [l, ['\n']]) ++
        [withNewline item]).flatten = render (ls ++ (if l = [] then [] else [l]) ++ [item]) := by
      rw [← flatten_map_withNewline]
      split_ifs
      · simp
      · simp [withNewline]
    rw [hrecords, hflat, records_render hnext]
    split_ifs at hnone ⊢
    · rw [List.append_nil] at hnone
      simpa using Changed.added hnone
    · simpa using Changed.ended hnone hl

/-- A line that is there is made to be the line. -/
theorem main_item_of_match (hitem : Clean item) (ht : ¬ Broken t) {a b : List Text} {cur : Text}
    (hsplit : records '\n' t = a ++ cur :: b) (hcur : item = rstrip cur)
    (hb : ∀ x ∈ b, item ≠ rstrip x) :
    ∃ msg t', main (itemParams item) (.file t) = .ok ⟨msg ≠ [], msg, .file t'⟩ ∧
      (msg = [] ↔ cur = withNewline item) ∧ (msg = [] → t' = t) ∧
      ¬ Broken t' ∧ Changed item (records '\n' t) (records '\n' t') := by
  have hp := (adds_itemParams hitem).withDefault
  have hmatch : (withDefault (itemParams item)).matchLine item cur ≠ none := fun h =>
    matchLine_eq_none_iff.mp h hcur
  rcases Option.ne_none_iff_exists'.mp hmatch with ⟨m, hm⟩
  have hedit := edit_of_match (a := a) hp.backrefs rfl hitem.1 hm fun x hx =>
    matchLine_eq_none_iff.mpr (hb x hx)
  rw [← hsplit] at hedit
  have hmsg : "line replaced".toList ≠ [] := by decide
  generalize "line replaced".toList = msg at hedit hmsg
  have hiff : (if cur = withNewline item then [] else msg) = [] ↔ cur = withNewline item := by
    simp [hmsg]
  have hsame : (if cur = withNewline item then [] else msg) = [] →
      a ++ withNewline item :: b = records '\n' t := fun h => by rw [hsplit, hiff.mp h]
  have ht' : records '\n' (a ++ withNewline item :: b).flatten = a ++ withNewline item :: b :=
    records_replace hitem.1 hsplit
  refine ⟨_, _, present_of_edit hedit hsame, hiff, fun h => ?_, fun hlast => ?_, ?_⟩
  · rw [hsame h, flatten_records]
  · rw [Broken, List.flatten_append, List.flatten_cons, ← List.append_assoc,
      List.getLast?_append] at hlast
    cases hend : b.flatten.getLast? with
    | none =>
      rw [hend] at hlast
      simp [withNewline] at hlast
    | some c =>
      rw [hend] at hlast
      refine ht ?_
      rw [← flatten_records (d := '\n') t, hsplit, Broken, List.flatten_append, List.flatten_cons,
        ← List.append_assoc, List.getLast?_append, hend]
      exact hlast
  · rw [ht', hsplit]
    exact Changed.replaced hcur hb

/-- One round on a file. -/
theorem main_item (hitem : Clean item) (ht : ¬ Broken t) :
    ∃ msg t', main (itemParams item) (.file t) = .ok ⟨msg ≠ [], msg, .file t'⟩ ∧
      (msg = [] → t' = t) ∧ ¬ Broken t' ∧ Changed item (records '\n' t) (records '\n' t') := by
  rcases exists_last_match (withDefault (itemParams item)) item (records '\n' t) with
    hnone | ⟨a, cur, m, b, hsplit, hcur, hb⟩
  · have hnone' : ∀ x ∈ records '\n' t, item ≠ rstrip x := fun x hx =>
      matchLine_eq_none_iff.mp (hnone x hx)
    rcases main_item_of_no_match hitem ht hnone' with ⟨t', hmain, hbroken, hchanged⟩
    refine ⟨"line added".toList, t', ?_, fun hmsg => absurd hmsg (by decide), hbroken, hchanged⟩
    rw [hmain, decide_eq_true (by decide)]
  · have hcur' : item = rstrip cur := by
      by_contra hne
      rw [matchLine_eq_none_iff.mpr hne] at hcur
      exact absurd hcur (by simp)
    rcases main_item_of_match hitem ht hsplit hcur' fun x hx =>
      matchLine_eq_none_iff.mp (hb x hx) with ⟨msg, t', hmain, _, hrest⟩
    exact ⟨msg, t', hmain, hrest⟩

/-- A round with a settled line does nothing. -/
theorem main_settled (hitem : Clean item) (ht : ¬ Broken t)
    (hs : Settled item (records '\n' t)) :
    main (itemParams item) (.file t) = .ok ⟨false, [], .file t⟩ := by
  rcases List.find?_eq_some_iff_append.mp hs with ⟨hcur, b, a, hsplit, hb⟩
  have hsplit' : records '\n' t = a.reverse ++ withNewline item :: b.reverse := by
    rw [← List.reverse_reverse (records '\n' t), hsplit]
    simp
  rcases main_item_of_match hitem ht hsplit' (by simpa using hcur) fun x hx => by
    simpa using hb x (List.mem_reverse.mp hx) with ⟨msg, t', hmain, hiff, hsame, _⟩
  have hmsg := hiff.mpr rfl
  rw [hmain, hsame hmsg, hmsg]
  rfl

/-! ## The loop -/

/-- The file `t`, when the task is through with the lines `done`. -/
inductive Through (t : Text) (done : List Text) : Bool × Dest → Prop where
  | intro {changed : Bool} {t' : Text}
    (lines : stripped t' = stripped t ++ done.filter fun item => item ∉ stripped t)
    (same : changed = false → t' = t)
    (whole : ¬ Broken t')
    (settled : ∀ item ∈ done, Settled item (records '\n' t')) : Through t done (changed, .file t')

theorem changeItem_through {done : List Text} {state : Bool × Dest} (hitem : Clean item)
    (hnew : item ∉ done) (h : Through t done state) :
    ∃ state', changeItem state item = .ok state' ∧ Through t (done ++ [item]) state' := by
  cases h with
  | @intro changed t₁ hlines hsame hwhole hsettled =>
    obtain ⟨msg, t', hmain, hsame', hwhole', hchanged⟩ := main_item hitem hwhole
    have hround : changeItem (changed, .file t₁) item =
        .ok (changed || decide (msg ≠ []), .file t') := by
      rw [changeItem, hmain]
      rfl
    have hmem : item ∈ stripped t₁ ↔ item ∈ stripped t := by
      rw [hlines, List.mem_append, List.mem_filter]
      exact or_iff_left fun h => hnew h.1
    refine ⟨_, hround, .intro ?_ ?_ hwhole' ?_⟩
    · rw [stripped, hchanged.map_rstrip hitem, ← stripped, List.filter_append,
        List.filter_singleton, hlines]
      simp only [← hlines, hmem]
      split_ifs with hin
      · simp [hlines, hin]
      · simp [hlines, hin]
    · intro h
      rw [Bool.or_eq_false_iff, decide_eq_false_iff_not, not_not] at h
      rw [hsame' h.2, hsame h.1]
    · intro other hother
      rw [List.mem_append, List.mem_singleton] at hother
      rcases hother with hother | rfl
      · exact (hsettled other hother).changed hchanged hitem fun heq => hnew (heq ▸ hother)
      · exact hchanged.settled hitem

theorem changeMyCnf_through {items : List Text} (hclean : ∀ item ∈ items, Clean item)
    (hnodup : items.Nodup) (ht : ¬ Broken t) :
    ∃ state, changeMyCnf items (.file t) = .ok state ∧ Through t items state := by
  have hround : ∀ done item rest state, items = done ++ item :: rest → Through t done state →
      ∃ state', changeItem state item = .ok state' ∧ Through t (done ++ [item]) state' := by
    intro done item rest state heq hthrough
    have hitem : Clean item := hclean item (by simp [heq])
    refine changeItem_through hitem (fun hmem => ?_) hthrough
    rw [heq] at hnodup
    exact (List.nodup_append.mp hnodup).2.2 item hmem item List.mem_cons_self rfl
  have hstart : Through t [] (false, .file t) :=
    .intro (by simp) (fun _ => rfl) ht fun item hitem => absurd hitem List.not_mem_nil
  have hstep : Loops.Step changeItem items (Through t) := by
    intro done item rest state state' heq hthrough hok
    rcases hround done item rest state heq hthrough with ⟨state'', hok', hthrough'⟩
    rw [hok] at hok'
    cases hok'
    exact hthrough'
  have hsucceeds : ∃ state, items.foldlM changeItem (false, .file t) = .ok state :=
    (Loops.foldlM_isOk_iff hstep (C := fun _ => True) (fun done item rest state heq hthrough =>
      ⟨fun _ => trivial, fun _ => (hround done item rest state heq hthrough).imp fun _ h => h.1⟩)
      hstart).mpr fun _ _ => trivial
  rcases hsucceeds with ⟨state, hok⟩
  exact ⟨state, hok, Loops.foldlM_done hstep hstart hok⟩

/-- The task finds nothing to do when all its lines are settled. -/
theorem changeMyCnf_settled {items : List Text} (hclean : ∀ item ∈ items, Clean item)
    (ht : ¬ Broken t) (hsettled : ∀ item ∈ items, Settled item (records '\n' t)) :
    changeMyCnf items (.file t) = .ok (false, .file t) := by
  refine Loops.foldlM_fixed fun item hitem => ?_
  rw [changeItem, main_settled (hclean item hitem) ht (hsettled item hitem)]
  rfl

namespace Role

theorem clean (role : Role) : ∀ item ∈ role.items, Clean item := by
  cases role <;> decide

theorem nodup (role : Role) : role.items.Nodup := by
  cases role <;> decide

end Role

/-- **What the task makes of a file**: its lines stay, in their order, and the lines that are
missing follow.  It tells that it has changed the file exactly if it has, and the second time it
has not. -/
theorem changeMyCnf_spec (role : Role) (ht : ¬ Broken t) :
    ∃ changed t', changeMyCnf role.items (.file t) = .ok (changed, .file t') ∧
      stripped t' = stripped t ++ role.items.filter (fun item => item ∉ stripped t) ∧
      (changed = true ↔ t' ≠ t) ∧ changeMyCnf role.items (.file t') = .ok (false, .file t') := by
  obtain ⟨_, hok, @⟨changed, t', hlines, hsame, hwhole, hsettled⟩⟩ :=
    changeMyCnf_through role.clean role.nodup ht
  have hagain := changeMyCnf_settled role.clean hwhole hsettled
  refine ⟨changed, t', hok, hlines, ⟨fun hchanged heq => ?_, fun hne => ?_⟩, hagain⟩
  · rw [heq, hok, hchanged] at hagain
    exact absurd hagain (by simp)
  · by_contra hchanged
    exact hne (hsame (Bool.not_eq_true _ ▸ hchanged))

theorem changeMyCnf_spec_mysqld :
    ∃ changed t', changeMyCnf Role.mariadb.items (.file "[mysqld]\r\nport = 3306".toList) =
        .ok (changed, .file t') ∧
      stripped t' = stripped "[mysqld]\r\nport = 3306".toList ++ Role.mariadb.items.filter
        (fun item => item ∉ stripped "[mysqld]\r\nport = 3306".toList) ∧
      (changed = true ↔ t' ≠ "[mysqld]\r\nport = 3306".toList) ∧
      changeMyCnf Role.mariadb.items (.file t') = .ok (false, .file t') :=
  changeMyCnf_spec .mariadb (by decide)

/-! ## The section of the server -/

/-- How the server reads its option files: the section a line opens, if it opens one, whatever white
space ends the line.  Of the lines of the task the header does, and the others do not. -/
structure OptionFile where
  opens : Text → Option Text
  opens_mysqldHeader : opens mysqldHeader = some "mysqld".toList
  opens_bindAddress : ∀ role : Role, opens role.bindAddress = none
  opens_comment : opens "# skip-networking".toList = none

namespace OptionFile
variable (reader : OptionFile)

/-- Each line that opens no section, with the section it stands in. -/
def inSections : Option Text → List Text → List (Option Text × Text)
  | _, [] => []
  | current, l :: ls =>
    match reader.opens l with
    | some name => inSections (some name) ls
    | none => (current, l) :: inSections current ls

/-- The last section. -/
def lastSection : Option Text → List Text → Option Text
  | current, [] => current
  | current, l :: ls => lastSection ((reader.opens l).or current) ls

/-- The address to listen on stands in the section of the server. -/
def Bound (role : Role) (ls : List Text) : Prop :=
  (some "mysqld".toList, role.bindAddress) ∈ reader.inSections none ls

theorem inSections_append (current : Option Text) (ls ls' : List Text) :
    reader.inSections current (ls ++ ls') =
      reader.inSections current ls ++ reader.inSections (reader.lastSection current ls) ls' := by
  induction ls generalizing current with
  | nil => rfl
  | cons l ls ih =>
    rw [List.cons_append, inSections, inSections, lastSection]
    cases reader.opens l with
    | some name => exact ih (some name)
    | none => exact congrArg ((current, l) :: ·) (ih current)

/-- The lines the task adds behind a file that ends in the section `current`. -/
theorem inSections_filter_items (role : Role) (current : Option Text) (ls : List Text) :
    reader.inSections current (role.items.filter fun item => item ∉ ls) =
      (role.items.tail.filter fun item => item ∉ ls).map fun item =>
        (if mysqldHeader ∈ ls then current else some "mysqld".toList, item) := by
  have haddress := reader.opens_bindAddress role
  have hcomment := reader.opens_comment
  have htail : ∀ current, reader.inSections current
      ([role.bindAddress, "# skip-networking".toList].filter fun item => item ∉ ls) =
        ([role.bindAddress, "# skip-networking".toList].filter fun item => item ∉ ls).map
          fun item => (current, item) := by
    intro current
    generalize "# skip-networking".toList = skip at hcomment ⊢
    by_cases h : role.bindAddress ∈ ls <;> by_cases h' : skip ∈ ls <;>
      simp [h, h', inSections, haddress, hcomment]
  rw [Role.items, List.tail_cons, List.filter_cons]
  by_cases h : mysqldHeader ∈ ls
  · simp only [h, not_true, decide_false, Bool.false_eq_true, if_false, if_true]
    exact htail current
  · simp only [h, not_false_eq_true, decide_true, if_true, if_false, inSections,
      reader.opens_mysqldHeader]
    exact htail (some "mysqld".toList)

/-- Where a new address comes to stand. -/
theorem mem_inSections_filter_items (role : Role) (current : Option Text) (ls : List Text)
    (name : Option Text) :
    (name, role.bindAddress) ∈
        reader.inSections current (role.items.filter fun item => item ∉ ls) ↔
      role.bindAddress ∉ ls ∧
        name = if mysqldHeader ∈ ls then current else some "mysqld".toList := by
  have hmem : role.bindAddress ∈ role.items.tail := by simp [Role.items]
  simp only [inSections_filter_items, List.mem_map, List.mem_filter, decide_eq_true_eq,
    Prod.mk.injEq]
  constructor
  · intro h
    obtain ⟨item, ⟨-, hnew⟩, hname, rfl⟩ := h
    exact ⟨hnew, hname.symm⟩
  · intro h
    exact ⟨role.bindAddress, ⟨hmem, h.1⟩, h.2.symm, rfl⟩

/-- **The address counts** if it did before, or if it is new and the file ends in the section of the
server, if it has the header: the header is not added again.  A new address stands in the section
the file ends in, or in that of the server if the header is new as well. -/
theorem bound_changeMyCnf_iff (role : Role) (ht : ¬ Broken t) {changed : Bool} {t' : Text}
    (hok : changeMyCnf role.items (.file t) = .ok (changed, .file t')) :
    (reader.Bound role (stripped t') ↔ reader.Bound role (stripped t) ∨
        role.bindAddress ∉ stripped t ∧ (mysqldHeader ∈ stripped t →
          reader.lastSection none (stripped t) = some "mysqld".toList)) ∧
      (role.bindAddress ∉ stripped t →
        (if mysqldHeader ∈ stripped t then reader.lastSection none (stripped t)
          else some "mysqld".toList, role.bindAddress) ∈
            reader.inSections none (stripped t')) := by
  obtain ⟨_, hok', hthrough⟩ := changeMyCnf_through role.clean role.nodup ht
  rw [hok] at hok'
  cases hok'
  obtain ⟨hlines, -⟩ := hthrough
  rw [Bound, hlines, inSections_append, List.mem_append, mem_inSections_filter_items, Bound]
  constructor
  · refine or_congr_right (and_congr_right fun _ => ?_)
    by_cases h : mysqldHeader ∈ stripped t
    · simp only [h, if_true, true_imp_iff]
      exact eq_comm
    · simp [h]
  · intro hnew
    rw [List.mem_append, mem_inSections_filter_items]
    exact Or.inr ⟨hnew, rfl⟩

end OptionFile

/-- Headers are names in brackets; what stands behind the bracket is not read. -/
def brackets (l : Text) : Option Text :=
  match l with
  | '[' :: rest => if ']' ∈ rest then some (rest.takeWhile fun c => c ≠ ']') else none
  | _ => none

/-- A reader that goes by the brackets. -/
def bracketReader : OptionFile where
  opens := brackets
  opens_mysqldHeader := by decide
  opens_bindAddress role := by cases role <;> decide
  opens_comment := by decide

/-- A file in which the section of the client is the last one. -/
def clientLast : Text := "[mysqld]\nport = 3306\n[client] # x\n".toList

/-- The file after the task: the address stands in the section of the client. -/
def clientLastChanged : Text :=
  "[mysqld]\nport = 3306\n[client] # x\nbind-address  = 0.0.0.0\n# skip-networking\n".toList

theorem changeMyCnf_clientLast : changeMyCnf Role.central.items (.file clientLast) =
    .ok (true, .file clientLastChanged) := by
  decide +kernel

theorem bound_changeMyCnf_iff_clientLast :
    ¬ bracketReader.Bound .central (stripped clientLastChanged) ∧
      (some "client".toList, Role.bindAddress .central) ∈
        bracketReader.inSections none (stripped clientLastChanged) := by
  have hspec := bracketReader.bound_changeMyCnf_iff .central (by decide) changeMyCnf_clientLast
  have hsection : (if mysqldHeader ∈ stripped clientLast then
      bracketReader.lastSection none (stripped clientLast) else some "mysqld".toList) =
        some "client".toList := by decide
  have hbefore : (some "mysqld".toList, Role.bindAddress .central) ∉
      bracketReader.inSections none (stripped clientLast) := by decide
  have hlast : bracketReader.lastSection none (stripped clientLast) = some "client".toList := by
    decide
  have hnew : Role.bindAddress .central ∉ stripped clientLast := by decide
  refine ⟨?_, hsection ▸ hspec.2 hnew⟩
  rw [hspec.1, hlast]
  intro h
  rcases h with h | ⟨-, h⟩
  · exact hbefore h
  · exact absurd (h (by decide)) (by decide)

end KubVagrant
