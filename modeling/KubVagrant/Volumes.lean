import KubVagrant.Collect
import Mathlib.Data.Bool.AllAny

/-!
# Physical volumes of the schemas

The loop of `collect.sh` runs `sudo du -xksh /var/lib/mysql/* | grep ${database}` once for
every schema and labels what comes out with the schema.  The search is not anchored, so a
line is taken when the name occurs anywhere in it: in the size, in the fixed directory, or
inside a longer name.

`MysqlHost` is a machine with its schemas and its data directory; it carries what mysql
guarantees of them.  `attributesVolumes_iff` says on which machines every schema gets the
row of its own directory and no other.

## Main definitions

* `Schema`, `Entry`, `MysqlHost` — the machine.
* `MysqlHost.probe` — what a run of `collect.sh` reads there.
* `MysqlHost.ownRow`, `AttributesVolumes` — the rows as they should be.
* `TakenFor` — an entry whose line grep selects for a schema.
-/

namespace KubVagrant
open Unix

/-- The name of a schema, over letters, digits and `_`. -/
structure Schema where
  name : Text
  ne_nil : name ≠ []
  valid : ∀ c ∈ name, c.isAlphanum = true ∨ c = '_'

/-- An entry of the data directory, with the size `du` prints for it. -/
structure Entry where
  name : Text
  size : Text
  name_ne_nil : name ≠ []
  name_sep : '/' ∉ name
  size_ne_nil : size ≠ []
  size_blank : ∀ c ∈ size, isBlank c = false

/-- The data directory. -/
def dataDir : Text := "/var/lib/mysql/".toList

namespace Entry

def path (e : Entry) : Text := dataDir ++ e.name

/-- `*` leaves out the names that begin with a dot. -/
def visible (e : Entry) : Bool := e.name.head? ≠ some '.'

/-- What `du` prints for the entry, without the newline. -/
def duLine (e : Entry) : Text := e.size ++ '\t' :: e.path

end Entry

/-- `du -xksh /var/lib/mysql/*`. -/
def duOutput (dir : List Entry) : Text :=
  (dir.filter Entry.visible).flatMap fun e => e.duLine ++ ['\n']

/-- A machine whose data directory has an entry for every schema. -/
structure MysqlHost where
  schemas : List Schema
  dir : List Entry
  schemas_nodup : (schemas.map Schema.name).Nodup
  dir_nodup : (dir.map Entry.name).Nodup
  entry_of : ∀ s ∈ schemas, s.name ∈ dir.map Entry.name

namespace MysqlHost

/-- What a run reads when the schema query and `du` run on this machine. -/
def probe (h : MysqlHost) (p : Probe) : Probe :=
  { p with
    bases := h.schemas.flatMap fun s => s.name ++ ['\n']
    du := fun _ => duOutput h.dir }

/-- The size of `/var/lib/mysql/S`. -/
def sizeOf (h : MysqlHost) (s : Schema) : Text :=
  ((h.dir.find? fun e => e.name = s.name).map Entry.size).getD []

/-- The row of a schema as it should be: its name, and the size and the path of its directory. -/
def ownRow (h : MysqlHost) (p : Probe) (s : Schema) : Text :=
  p.print "db_vol_physique".toList
    (s.name ++ ';' :: (h.sizeOf s ++ ';' :: (dataDir ++ s.name)))

/-- The loop appends exactly one row per schema, in the order of the list, and it is the
schema's own. -/
def AttributesVolumes (h : MysqlHost) (p : Probe) : Prop :=
  ((h.probe p).volumeChunks grepBasic).flatten = h.schemas.map (h.ownRow p)

end MysqlHost

/-- The name of the schema occurs in the entry's size, in the path of the data directory, or
in the entry's name. -/
def TakenFor (s : Schema) (e : Entry) : Prop :=
  s.name <:+: e.size ∨ s.name <:+: "var".toList ∨ s.name <:+: "lib".toList ∨
    s.name <:+: "mysql".toList ∨ s.name <:+: e.name

instance (s : Schema) (e : Entry) : Decidable (TakenFor s e) :=
  inferInstanceAs (Decidable (_ ∨ _))

/-! ## What grep selects -/

namespace Schema

theorem notMem_name (s : Schema) {c : Char} (h : ¬ (c.isAlphanum = true ∨ c = '_')) :
    c ∉ s.name := fun hc => h (s.valid c hc)

theorem not_isBlank (s : Schema) : ∀ c ∈ s.name, isBlank c = false := by
  intro c hc
  rw [Bool.eq_false_iff]
  intro hb
  simp only [isBlank, Bool.or_eq_true, beq_iff_eq] at hb
  rcases hb with (rfl | rfl) | rfl <;> exact absurd hc (s.notMem_name (by decide))

/-- The selected lines of `du`, in terms of the name and the three directories above it. -/
theorem infix_duLine_iff (s : Schema) (e : Entry) : s.name <:+: e.duLine ↔ TakenFor s e := by
  have htab : '\t' ∉ s.name := s.notMem_name (by decide)
  have hsep : '/' ∉ s.name := s.notMem_name (by decide)
  have hnil : ¬ s.name <:+: [] := by simpa using s.ne_nil
  have hdir : dataDir = [] ++ '/' :: "var".toList ++ '/' :: "lib".toList ++
      '/' :: "mysql".toList ++ '/' :: [] := by decide
  unfold TakenFor
  simp only [Entry.duLine, Entry.path, infix_append_cons_iff htab, hdir, List.append_assoc,
    List.cons_append, infix_append_cons_iff hsep, hnil, false_or]
  rw [List.nil_append]

end Schema

/-- The lines `du` prints for one entry; a name may hold a newline. -/
def Entry.duLines (e : Entry) : List Text := lines '\n' (e.duLine ++ ['\n'])

theorem lines_duOutput (dir : List Entry) :
    lines '\n' (duOutput dir) = (dir.filter Entry.visible).flatMap Entry.duLines := by
  rw [duOutput]
  induction dir.filter Entry.visible with
  | nil => rfl
  | cons e es ih =>
    have hterm : Terminated '\n' (e.duLine ++ ['\n']) := Or.inr (by simp)
    rw [List.flatMap_cons, lines_append hterm, ih, List.flatMap_cons, Entry.duLines]

namespace Schema

/-! The line of the schema's own entry is one line with two fields. -/

theorem isBlank_path (s : Schema) {e : Entry} (he : e.name = s.name) :
    ∀ c ∈ e.path, isBlank c = false := by
  have hdir : ∀ c ∈ dataDir, isBlank c = false := List.all_iff_forall_prop.mp (by decide)
  intro c hc
  rw [Entry.path, he, List.mem_append] at hc
  rcases hc with hc | hc
  · exact hdir c hc
  · exact s.not_isBlank c hc

theorem duLines_own (s : Schema) {e : Entry} (he : e.name = s.name) : e.duLines = [e.duLine] := by
  have hblank : isBlank '\n' = true := by decide
  have hsize : '\n' ∉ e.size := fun hc => by simp [e.size_blank _ hc] at hblank
  have hpath : '\n' ∉ e.path := fun hc => by simp [s.isBlank_path he _ hc] at hblank
  have hnl : '\n' ∉ e.duLine := by simp [Entry.duLine, hsize, hpath]
  rw [Entry.duLines, lines_line hnl, lines_nil]

theorem fields_own (s : Schema) {e : Entry} (he : e.name = s.name) :
    fields e.duLine = [e.size, e.path] := by
  have htab : isBlank '\t' = true := by decide
  have hpath : e.path ≠ [] := by simp [Entry.path, he, s.ne_nil]
  rw [fields, Entry.duLine, wordsBy_append_of_forall e.size_ne_nil e.size_blank htab,
    wordsBy_eq_singleton hpath (s.isBlank_path he)]

end Schema

namespace Probe

/-- The rows the loop makes of one entry in the round of a schema. -/
def entryRows (p : Probe) (s : Schema) (e : Entry) : List Text :=
  (e.duLines.filter (grepBasic s.name)).map (p.volumeRow s.name)

theorem volumeRows_duOutput (p : Probe) (s : Schema) (dir : List Entry) :
    p.volumeRows grepBasic s.name (duOutput dir) =
      (dir.filter Entry.visible).flatMap (p.entryRows s) := by
  rw [volumeRows, lines_duOutput, List.filter_flatMap, List.map_flatMap]
  rfl

/-- An entry makes no rows if and only if it is not taken for the schema. -/
theorem entryRows_eq_nil_iff (p : Probe) (s : Schema) (e : Entry) :
    p.entryRows s e = [] ↔ ¬ TakenFor s e := by
  have hdot : '.' ∉ s.name := s.notMem_name (by decide)
  have hnl : '\n' ∉ s.name := s.notMem_name (by decide)
  have hline : s.name <:+: e.duLine ++ ['\n'] ↔ s.name <:+: e.duLine := by
    rw [infix_append_cons_iff hnl]
    simp [s.ne_nil]
  rw [entryRows, List.map_eq_nil_iff, List.filter_eq_nil_iff, ← s.infix_duLine_iff, ← hline,
    infix_iff_exists_line s.ne_nil hnl]
  simp only [grepBasic, occurs_basicPattern_iff hdot, Entry.duLines, not_exists, not_and]

/-- awk labels the rows with the name of the schema as it is. -/
theorem assign_name (p : Probe) (s : Schema) : p.assign s.name = s.name :=
  p.assign_of_notMem s.name (s.notMem_name (by decide))

/-- The entry of a schema makes exactly one row. -/
theorem entryRows_own (p : Probe) (s : Schema) {e : Entry} (he : e.name = s.name) :
    p.entryRows s e =
      [p.print "db_vol_physique".toList (s.name ++ ';' :: (e.size ++ ';' :: e.path))] := by
  have hdot : '.' ∉ s.name := s.notMem_name (by decide)
  have htaken : TakenFor s e := by simp [TakenFor, he]
  have hgrep : grepBasic s.name e.duLine = true := by
    rw [grepBasic, occurs_basicPattern_iff hdot, s.infix_duLine_iff]
    exact htaken
  rw [entryRows, s.duLines_own he, List.filter_cons_of_pos hgrep, List.filter_nil,
    List.map_singleton, volumeRow, field, field, s.fields_own he, p.assign_name s]
  rfl

end Probe

/-! ## The loop -/

theorem append_cons_eq_singleton_iff {β : Type} (a b : List β) (x : β) :
    a ++ x :: b = [x] ↔ a = [] ∧ b = [] := by
  constructor
  · intro h
    have hlen := congrArg List.length h
    simp only [List.length_append, List.length_cons, List.length_nil] at hlen
    exact ⟨List.eq_nil_of_length_eq_zero (by omega), List.eq_nil_of_length_eq_zero (by omega)⟩
  · intro h
    rw [h.1, h.2, List.nil_append]

/-- The words of the schema query are the names it printed. -/
theorem expand_names (schemas : List Schema) :
    expand (schemas.flatMap fun s => s.name ++ ['\n']) = schemas.map Schema.name := by
  induction schemas with
  | nil => rfl
  | cons s schemas ih =>
    have hnl : isBlank '\n' = true := by decide
    rw [List.flatMap_cons, List.append_assoc, List.singleton_append, expand,
      wordsBy_append_of_forall s.ne_nil s.not_isBlank hnl, List.map_cons]
    exact congrArg (s.name :: ·) ih

namespace MysqlHost

/-- The rounds of the loop, one per schema. -/
theorem volumeChunks_probe (h : MysqlHost) (p : Probe) :
    ((h.probe p).volumeChunks grepBasic).flatten =
      h.schemas.flatMap fun s => (h.probe p).volumeRows grepBasic s.name (duOutput h.dir) := by
  have hbases : expand (commandSubst (h.probe p).bases) = h.schemas.map Schema.name := by
    rw [expand_commandSubst]
    exact expand_names h.schemas
  have hrounds : (h.probe p).volumeChunks grepBasic =
      ((h.schemas.map Schema.name).zipIdx.map Prod.fst).map fun name =>
        (h.probe p).volumeRows grepBasic name (duOutput h.dir) := by
    rw [Probe.volumeChunks, hbases, List.map_map]
    rfl
  rw [hrounds, List.zipIdx_map_fst, List.map_map, ← List.flatMap_def]
  rfl

/-- The own entry of a schema, and the others that `*` lists. -/
theorem exists_own (h : MysqlHost) {s : Schema} (hs : s ∈ h.schemas) :
    ∃ a e b, h.dir = a ++ e :: b ∧ e.name = s.name ∧ e.visible = true ∧ h.sizeOf s = e.size ∧
      ∀ e' ∈ a ++ b, e'.name ≠ s.name := by
  obtain ⟨e, he, hname⟩ := List.mem_map.mp (h.entry_of s hs)
  obtain ⟨a, b, hdir⟩ := List.append_of_mem he
  have hnodup := h.dir_nodup
  rw [hdir, List.map_append, List.map_cons, List.nodup_middle, ← List.map_append,
    List.nodup_cons, hname] at hnodup
  have hothers : ∀ e' ∈ a ++ b, e'.name ≠ s.name :=
    fun e' he' heq => hnodup.1 (List.mem_map.mpr ⟨e', he', heq⟩)
  refine ⟨a, e, b, hdir, hname, ?_, ?_, hothers⟩
  · have hdot : '.' ∉ s.name := s.notMem_name (by decide)
    rw [Entry.visible, decide_eq_true_eq, hname]
    exact fun hhead => hdot (List.mem_of_head? hhead)
  · have hnone : a.find? (fun e => e.name = s.name) = none := by
      rw [List.find?_eq_none]
      intro e' he'
      simpa using hothers e' (by simp [he'])
    simp [sizeOf, hdir, List.find?_append, hnone, hname]

/-- A round of the loop: the own row, between the rows of the other entries. -/
theorem volumeRows_own (h : MysqlHost) (p : Probe) {s : Schema} (hs : s ∈ h.schemas) :
    ∃ a b : List Entry, (∀ e, e ∈ a ++ b ↔ e ∈ h.dir ∧ e.visible = true ∧ e.name ≠ s.name) ∧
      (h.probe p).volumeRows grepBasic s.name (duOutput h.dir) =
        a.flatMap ((h.probe p).entryRows s) ++
          h.ownRow p s :: b.flatMap ((h.probe p).entryRows s) := by
  obtain ⟨a, e, b, hdir, hname, hvisible, hsize, hothers⟩ := h.exists_own hs
  refine ⟨a.filter Entry.visible, b.filter Entry.visible, ?_, ?_⟩
  · intro e'
    rw [← List.filter_append, List.mem_filter, hdir]
    constructor
    · intro hother
      rcases hother with ⟨hmem, hvis⟩
      refine ⟨?_, hvis, hothers e' hmem⟩
      simp only [List.mem_append, List.mem_cons] at hmem ⊢
      exact hmem.imp_right Or.inr
    · intro hother
      rcases hother with ⟨hmem, hvis, hne⟩
      refine ⟨?_, hvis⟩
      simp only [List.mem_append, List.mem_cons] at hmem ⊢
      rcases hmem with hmem | rfl | hmem
      · exact Or.inl hmem
      · exact absurd hname hne
      · exact Or.inr hmem
  · have hown : (h.probe p).entryRows s e = [h.ownRow p s] := by
      rw [Probe.entryRows_own _ s hname, ownRow, hsize, Entry.path, hname]
      rfl
    rw [Probe.volumeRows_duOutput, hdir, List.filter_append, List.filter_cons_of_pos hvisible,
      List.flatMap_append, List.flatMap_cons, hown, List.singleton_append]

/-- One round is right if and only if no other entry is taken for the schema. -/
theorem volumeRows_eq_iff (h : MysqlHost) (p : Probe) {s : Schema} (hs : s ∈ h.schemas) :
    (h.probe p).volumeRows grepBasic s.name (duOutput h.dir) = [h.ownRow p s] ↔
      ∀ e ∈ h.dir, e.visible = true → e.name ≠ s.name → ¬ TakenFor s e := by
  obtain ⟨a, b, hmem, hrows⟩ := h.volumeRows_own p hs
  have hall : (∀ e ∈ h.dir, e.visible = true → e.name ≠ s.name → ¬ TakenFor s e) ↔
      ∀ e ∈ a ++ b, (h.probe p).entryRows s e = [] := by
    simp only [hmem, Probe.entryRows_eq_nil_iff, and_imp]
  rw [hrows, hall, append_cons_eq_singleton_iff, List.flatMap_eq_nil_iff, List.flatMap_eq_nil_iff,
    ← List.forall_mem_append]

/-- **Volumes are attributed, exactly**, on the machines where no entry that `*` lists is taken
for a schema it does not belong to. -/
theorem attributesVolumes_iff (h : MysqlHost) (p : Probe) :
    h.AttributesVolumes p ↔
      ∀ s ∈ h.schemas, ∀ e ∈ h.dir, e.visible = true → e.name ≠ s.name → ¬ TakenFor s e := by
  have hmap : h.schemas.map (h.ownRow p) = h.schemas.flatMap fun s => [h.ownRow p s] :=
    List.map_eq_flatMap
  have hmem : ∀ s ∈ h.schemas,
      h.ownRow p s ∈ (h.probe p).volumeRows grepBasic s.name (duOutput h.dir) := by
    intro s hs
    obtain ⟨a, b, -, hrows⟩ := h.volumeRows_own p hs
    rw [hrows]
    simp
  have hpos : ∀ s ∈ h.schemas, [h.ownRow p s].length ≤
      ((h.probe p).volumeRows grepBasic s.name (duOutput h.dir)).length :=
    fun s hs => List.length_pos_of_mem (hmem s hs)
  rw [AttributesVolumes, h.volumeChunks_probe p, hmap,
    flatMap_eq_flatMap_iff List.length (fun _ _ => List.length_append) hpos]
  · exact forall₂_congr fun s hs => h.volumeRows_eq_iff p hs
  · -- a round that makes one row makes the own row
    intro s hs hlen
    obtain ⟨row, hrow⟩ := List.length_eq_one_iff.mp hlen
    have hown := hmem s hs
    rw [hrow, List.mem_singleton] at hown
    rw [hrow, hown]

end MysqlHost

def schemaYata : Schema :=
  ⟨"yata".toList, by decide, List.all_iff_forall_prop.mp (by decide)⟩

def schemaYata2 : Schema :=
  ⟨"yata2".toList, by decide, List.all_iff_forall_prop.mp (by decide)⟩

/-- A machine with the schemas `yata` and `yata2`. -/
def yataHost : MysqlHost where
  schemas := [schemaYata, schemaYata2]
  dir :=
    [⟨"yata".toList, "64K".toList, by decide, by decide, by decide,
        List.all_iff_forall_prop.mp (by decide)⟩,
      ⟨"yata2".toList, "80K".toList, by decide, by decide, by decide,
        List.all_iff_forall_prop.mp (by decide)⟩]
  schemas_nodup := by decide
  dir_nodup := by decide
  entry_of := by decide

/-- The round of `yata` also prints the directory of `yata2`, under the label `yata`. -/
theorem attributesVolumes_fails :
    ((yataHost.probe cronProbe).volumeChunks grepBasic).flatten =
        [yataHost.ownRow cronProbe schemaYata,
          cronProbe.print "db_vol_physique".toList "yata;80K;/var/lib/mysql/yata2".toList,
          yataHost.ownRow cronProbe schemaYata2] ∧
      ¬ yataHost.AttributesVolumes cronProbe := by
  have hrows : ((yataHost.probe cronProbe).volumeChunks grepBasic).flatten =
      [yataHost.ownRow cronProbe schemaYata,
        cronProbe.print "db_vol_physique".toList "yata;80K;/var/lib/mysql/yata2".toList,
        yataHost.ownRow cronProbe schemaYata2] := by decide
  refine ⟨hrows, fun h => ?_⟩
  rw [MysqlHost.AttributesVolumes, hrows] at h
  exact absurd (congrArg List.length h) (by decide)

end KubVagrant
