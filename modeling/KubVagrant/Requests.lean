import KubVagrant.CentralStore

/-!
# Arbitrary requests to the central service

The service listens on `0.0.0.0` and checks nothing, so its requests need not come from
`collect.sh`.  This module is about every sequence of requests, with any arguments.  A system
refuses to open a path for more reasons than the tree shows, its length for one; `refuses` stands
for them.

`handleAll_spec` gives the tree after a sequence.  `overwritten_spec` says which files some
sequence changes: the files of any directory, not of `/var/central` only, whose name ends as the
handler makes it end.

## Main definitions

* `uploadUnless`, `handleAll` — a request, and a sequence of requests.
* `writes` — the files a sequence opens, and what it writes there.
* `LedTo` — a file to which a path of the handler can lead.
* `spelling` — such a path.
-/

namespace KubVagrant
open Unix

variable {refuses : Text → Bool} {fs : FileSystem Bytes}

/-- The system refuses the path of the request. -/
def refused (refuses : Text → Bool) (request : Request) : Bool :=
  match request.args.lookup "machine".toList, request.args.lookup "type".toList with
  | some machine, some type => refuses (fileName machine type)
  | _, _ => false

/-- `upload()` where `open` also raises on the paths the system refuses. -/
def uploadUnless (refuses : Text → Bool) (fs : FileSystem Bytes) (request : Request) :
    FileSystem Bytes × Response :=
  if refused refuses request then (fs, .serverError) else upload fs request

/-- The file a request opens then. -/
def opened (refuses : Text → Bool) (fs : FileSystem Bytes) (request : Request) :
    Option (List Name) :=
  if refused refuses request then none else target fs request

/-- Handle requests, first to last. -/
def handleAll (refuses : Text → Bool) (fs : FileSystem Bytes) (requests : List Request) :
    FileSystem Bytes :=
  requests.foldl (fun fs request => (uploadUnless refuses fs request).1) fs

theorem handleAll_cons (request : Request) (requests : List Request) :
    handleAll refuses fs (request :: requests) =
      handleAll refuses (uploadUnless refuses fs request).1 requests := rfl

/-- What the requests write, each into the file it opens.  Requests that open no file are left
out. -/
def writes (refuses : Text → Bool) (fs : FileSystem Bytes) (requests : List Request) :
    List (List Name × Bytes) :=
  requests.filterMap fun request => (opened refuses fs request).map fun q => (q, request.data)

/-! ## The tree after a sequence of requests -/

theorem uploadUnless_cases (refuses : Text → Bool) (fs : FileSystem Bytes) (request : Request) :
    (∃ p, opened refuses fs request = some p ∧
        (uploadUnless refuses fs request).1 = fs.write p request.data) ∨
      (opened refuses fs request = none ∧ (uploadUnless refuses fs request).1 = fs) := by
  rw [opened, uploadUnless]
  split
  · exact Or.inr ⟨rfl, rfl⟩
  · exact upload_cases fs request

theorem opened_congr {fs' : FileSystem Bytes} (h : fs.isDir = fs'.isDir) (request : Request) :
    opened refuses fs request = opened refuses fs' request := by
  simp only [opened, target, FileSystem.openWrite_congr h]

@[simp] theorem isDir_uploadUnless (fs : FileSystem Bytes) (request : Request) :
    (uploadUnless refuses fs request).1.isDir = fs.isDir := by
  rcases uploadUnless_cases refuses fs request with ⟨p, -, h⟩ | ⟨-, h⟩ <;> rw [h]
  rfl

@[simp] theorem isDir_handleAll (requests : List Request) :
    (handleAll refuses fs requests).isDir = fs.isDir := by
  induction requests generalizing fs with
  | nil => rfl
  | cons request requests ih => rw [handleAll_cons, ih, isDir_uploadUnless]

/-- The requests write into files; which ones is settled by the tree at the start. -/
theorem file_handleAll (requests : List Request) :
    (handleAll refuses fs requests).file =
      KeyedStore.run id fs.file (writes refuses fs requests) := by
  induction requests generalizing fs with
  | nil => rfl
  | cons request requests ih =>
    have hdir : (uploadUnless refuses fs request).1.isDir = fs.isDir :=
      isDir_uploadUnless fs request
    have hwrites : writes refuses (uploadUnless refuses fs request).1 requests =
        writes refuses fs requests := by
      simp only [writes, opened_congr hdir]
    rw [handleAll_cons, ih, hwrites]
    rcases uploadUnless_cases refuses fs request with ⟨q, hq, hfs⟩ | ⟨hq, hfs⟩
    · rw [hfs, FileSystem.file_write]
      simp only [writes, List.filterMap_cons, hq, Option.map_some]
      rfl
    · rw [hfs]
      simp only [writes, List.filterMap_cons, hq, Option.map_none]

/-- **The service, over every sequence of requests**: a file holds the data of the last request
that opened it, a file that none opened is as it was, and so is every directory. -/
theorem handleAll_spec (refuses : Text → Bool) (fs : FileSystem Bytes) (requests : List Request) :
    (∀ q, (handleAll refuses fs requests).file q =
        (KeyedStore.lastValue (writes refuses fs requests) q).or (fs.file q)) ∧
      (handleAll refuses fs requests).isDir = fs.isDir := by
  refine ⟨fun q => ?_, isDir_handleAll requests⟩
  rw [file_handleAll, KeyedStore.run_id_apply]

/-! ## What can be overwritten -/

/-- A path of the handler can lead to the file `name_file.csv` of `dir`: an underscore stands in
the name, or in the name of the directory `via` the path leads through. -/
structure LedTo (fs : FileSystem Bytes) (via dir : List Name) (name : Text) : Prop where
  via_isDir : fs.isDir via = true
  dir_isDir : fs.isDir dir = true
  not_isDir : fs.isDir (dir ++ [name ++ "_file.csv".toList]) = false
  name_sep : '/' ∉ name
  name_nul : '\x00' ∉ name
  underscore : via = [] ∧ '_' ∈ name ∨ ∃ d c, via = d ++ [c] ∧ '_' ∈ c

/-- What a request opens. -/
theorem ledTo_of_target (hroot : fs.isDir [] = true) {request : Request} {q : List Name}
    (h : target fs request = some q) :
    ∃ via dir name, q = dir ++ [name ++ "_file.csv".toList] ∧ LedTo fs via dir name := by
  rw [target] at h
  split at h
  · rename_i machine type _ _
    obtain ⟨hnul, dir, hwalk, -, hq, hfile⟩ := FileSystem.openWrite_eq_some_iff.mp h
    rw [splitOn_fileName, List.getLastD_concat] at hq
    rw [splitOn_fileName, List.dropLast_concat] at hwalk
    subst hq
    have hdir : fs.isDir dir = true := FileSystem.isDir_of_walk hwalk
    -- the components of the glued text, the last one apart
    have hne : (machine ++ "_".toList ++ type).splitOn '/' ≠ [] := List.splitOn_ne_nil _ _
    have hparts : directoryPart machine type ++
        [((machine ++ "_".toList ++ type).splitOn '/').getLastD []] =
          (machine ++ "_".toList ++ type).splitOn '/' := by
      rw [List.getLastD_eq_getLast?, List.getLast?_eq_some_getLast hne, Option.getD_some]
      exact List.dropLast_concat_getLast hne
    have hlast : ((machine ++ "_".toList ++ type).splitOn '/').getLastD [] ∈
        (machine ++ "_".toList ++ type).splitOn '/' := by
      rw [← hparts]
      simp
    have hsep := notMem_of_mem_splitOn hlast
    have hclean : '\x00' ∉ ((machine ++ "_".toList ++ type).splitOn '/').getLastD [] := by
      intro hmem
      have htext := mem_of_mem_splitOn hlast hmem
      refine hnul ?_
      unfold fileName
      rcases List.mem_append.mp htext with hglue | htype
      · rcases List.mem_append.mp hglue with hmachine | hunder
        · simp [hmachine]
        · exact absurd hunder (by decide)
      · simp [htype]
    have hunder : '_' ∈ machine ++ "_".toList ++ type := by simp
    obtain ⟨c, hc, hin⟩ := exists_mem_splitOn hunder (by decide : '_' ≠ '/')
    rw [← hparts, List.mem_append, List.mem_singleton] at hc
    rcases hc with hc | rfl
    · have hproper : Proper c := by
        refine ⟨?_, ?_, ?_⟩ <;> rintro rfl <;> revert hin <;> decide
      have hcs : c ∈ [] :: "var".toList :: "central".toList :: directoryPart machine type := by
        simp [hc]
      obtain ⟨d, hd⟩ := FileSystem.exists_isDir_of_mem_walk hwalk hcs hproper
      exact ⟨d ++ [c], dir, _, rfl, hd, hdir, hfile, hsep, hclean, Or.inr ⟨d, c, rfl, hin⟩⟩
    · exact ⟨[], dir, _, rfl, hroot, hdir, hfile, hsep, hclean, Or.inl ⟨rfl, hin⟩⟩
  · simp at h

/-- The directories on the way from `/var/central` up to the root, down to `via`, up again, and
down to `dir`. -/
def detour (via dir : List Name) : List Name :=
  List.replicate 2 dotdot ++ via ++ List.replicate via.length dotdot ++ dir

/-- The path with this detour. -/
def spelling (via dir : List Name) (name : Text) : Text :=
  "/var/central/".toList ++ dirText (detour via dir) ++ name ++ "_file.csv".toList

/-- Such a path is opened. -/
theorem openWrite_spelling (hfs : fs.Rooted) (hcentral : fs.isDir centralDir = true)
    {via dir : List Name} {name : Text} (h : LedTo fs via dir name) :
    fs.openWrite (spelling via dir name) = some (dir ++ [name ++ "_file.csv".toList]) := by
  have hvia := h.via_isDir
  have hdir := h.dir_isDir
  have hup : ∀ c ∈ detour via dir, '/' ∉ c ∧ '\x00' ∉ c := by
    intro c hc
    have hdotdot : '/' ∉ dotdot ∧ '\x00' ∉ dotdot := by decide
    simp only [detour, List.mem_append, List.mem_replicate] at hc
    rcases hc with ((⟨-, rfl⟩ | hc) | ⟨-, rfl⟩) | hc
    · exact hdotdot
    · exact (hfs.proper_of_mem hvia hc).2
    · exact hdotdot
    · exact (hfs.proper_of_mem hdir hc).2
  have hwalk : fs.walk [] ([] :: centralDir ++ detour via dir) = some dir := by
    have hroot : fs.walk [] ([] :: centralDir) = some centralDir := by
      rw [FileSystem.walk, if_pos hfs.root]
      exact hfs.walk_down hcentral
    have hclimb : fs.walk centralDir (List.replicate 2 dotdot) = some [] := hfs.walk_up hcentral
    have hthrough : fs.walk [] via = some via := hfs.walk_down hvia
    have hback : fs.walk via (List.replicate via.length dotdot) = some [] := hfs.walk_up hvia
    rw [FileSystem.walk_append hroot, detour, List.append_assoc, List.append_assoc,
      FileSystem.walk_append hclimb, FileSystem.walk_append hthrough,
      FileSystem.walk_append hback, hfs.walk_down hdir]
  have hpath : spelling via dir name =
      dirText ([] :: centralDir ++ detour via dir) ++ (name ++ "_file.csv".toList) := by
    have hpre : "/var/central/".toList = dirText ([] :: centralDir) := by decide
    unfold spelling
    rw [dirText_append, ← hpre]
    generalize "/var/central/".toList = pre
    generalize "_file.csv".toList = suffix
    simp only [List.append_assoc]
  have hdirs : ∀ c ∈ [] :: centralDir, '/' ∉ c ∧ '\x00' ∉ c := by decide
  rw [hpath]
  refine FileSystem.openWrite_dirText_append ?_ ?_ ?_ hwalk h.not_isDir
  · intro c hc
    rcases List.mem_append.mp hc with hc | hc
    · exact hdirs c hc
    · exact hup c hc
  · simp [h.name_sep, h.name_nul]
  · have hlen : 3 ≤ (name ++ "_file.csv".toList).length := by
      have : 9 = "_file.csv".toList.length := by decide
      rw [List.length_append]
      omega
    refine ⟨?_, ?_, ?_⟩ <;> intro h <;> rw [h] at hlen <;> revert hlen <;> decide

/-- The handler makes the path of some machine and type. -/
theorem exists_fileName_eq {via dir : List Name} {name : Text} (h : LedTo fs via dir name) :
    ∃ machine type, fileName machine type = spelling via dir name := by
  have hu : "_".toList = ['_'] := by decide
  rcases h.underscore with ⟨rfl, hin⟩ | ⟨d, c, rfl, hin⟩
  · -- the underscore of the name is the one between machine and type
    obtain ⟨a, b, rfl⟩ := List.append_of_mem hin
    refine ⟨dirText (detour [] dir) ++ a, b, ?_⟩
    unfold fileName spelling
    generalize "/var/central/".toList = pre
    generalize "_file.csv".toList = suffix
    simp [hu]
  · -- the path goes through a directory whose name holds the underscore
    obtain ⟨a, b, rfl⟩ := List.append_of_mem hin
    refine ⟨dirText (List.replicate 2 dotdot ++ d) ++ a,
      b ++ '/' :: (dirText (List.replicate (d ++ [a ++ '_' :: b]).length dotdot ++ dir) ++ name),
      ?_⟩
    unfold fileName spelling
    generalize "/var/central/".toList = pre
    generalize "_file.csv".toList = suffix
    simp [detour, hu, dirText]

/-- **What the service can be made to overwrite**: whatever the system refuses besides, a sequence
of requests changes files only to which a path of the handler can lead; and each of them is
changed by some sequence unless the system refuses the path spelled out for it. -/
theorem overwritten_spec (hfs : fs.Rooted) (hcentral : fs.isDir centralDir = true)
    (refuses : Text → Bool) (q : List Name) :
    ((∃ requests, (handleAll refuses fs requests).file q ≠ fs.file q) →
        ∃ via dir name, q = dir ++ [name ++ "_file.csv".toList] ∧ LedTo fs via dir name) ∧
      ∀ via dir name, q = dir ++ [name ++ "_file.csv".toList] → LedTo fs via dir name →
        refuses (spelling via dir name) = false →
          ∃ requests, (handleAll refuses fs requests).file q ≠ fs.file q := by
  constructor
  · intro hchanged
    rcases hchanged with ⟨requests, hne⟩
    rw [file_handleAll, KeyedStore.run_id_apply] at hne
    cases hlast : KeyedStore.lastValue (writes refuses fs requests) q with
    | none => simp [hlast] at hne
    | some body =>
      obtain ⟨request, -, hopen⟩ := List.mem_filterMap.mp (KeyedStore.mem_of_lastValue hlast)
      obtain ⟨p, hp, hpq⟩ := Option.map_eq_some_iff.mp hopen
      rw [Prod.mk.injEq] at hpq
      rw [hpq.1, opened] at hp
      split at hp
      · simp at hp
      · exact ledTo_of_target hfs.root hp
  · intro via dir name hq hled hallowed
    subst hq
    -- one request with data that is not there yet
    have hbody : ∃ data : Bytes, fs.file (dir ++ [name ++ "_file.csv".toList]) ≠ some data := by
      cases hf : fs.file (dir ++ [name ++ "_file.csv".toList]) with
      | none => exact ⟨[], by simp⟩
      | some old => exact ⟨0 :: old, by simp⟩
    obtain ⟨data, hdata⟩ := hbody
    obtain ⟨machine, type, hpath⟩ := exists_fileName_eq hled
    have hrefused : refused refuses (putRequest machine type data) = false := by
      rw [← hpath] at hallowed
      exact hallowed
    have hopen : opened refuses fs (putRequest machine type data) =
        some (dir ++ [name ++ "_file.csv".toList]) := by
      rw [opened, hrefused, target_putRequest, hpath, openWrite_spelling hfs hcentral hled]
      rfl
    refine ⟨[putRequest machine type data], ?_⟩
    rw [file_handleAll, KeyedStore.run_id_apply]
    simp only [writes, List.filterMap_cons, List.filterMap_nil, hopen, Option.map_some]
    simpa [KeyedStore.lastValue, putRequest] using Ne.symm hdata

theorem smallTree_rooted : smallTree.Rooted where
  root := by decide
  parent dir c h := by
    have hall : ∀ p ∈ [[], ["var".toList], centralDir, ["etc".toList],
        ["etc".toList, "cron.d".toList]], p ≠ [] → smallTree.isDir p.dropLast = true ∧
          Proper (p.getLastD []) ∧ '/' ∉ p.getLastD [] ∧ '\x00' ∉ p.getLastD [] := by decide
    have hdir := hall (dir ++ [c]) (by simpa [smallTree] using h) (by simp)
    rwa [List.dropLast_concat, List.getLastD_concat] at hdir

/-- Linux refuses names of more than 255 and paths of more than 4095 bytes. -/
def tooLong (path : Text) : Bool :=
  decide (4095 < (String.ofList path).utf8ByteSize) ||
    (path.splitOn '/').any fun name => decide (255 < (String.ofList name).utf8ByteSize)

/-- A file among the cron jobs can be changed, a file without the ending cannot. -/
theorem overwritten_spec_smallTree :
    (∃ requests, (handleAll tooLong smallTree requests).file ["etc".toList, "cron.d".toList,
        "job_x_file.csv".toList] ≠ none) ∧
      ¬ ∃ requests, (handleAll tooLong smallTree requests).file ["etc".toList, "cron.d".toList,
        "popularity-contest".toList] ≠ none := by
  have hled : LedTo smallTree [] ["etc".toList, "cron.d".toList] "job_x".toList :=
    ⟨by decide, by decide, by decide, by decide, by decide, Or.inl ⟨rfl, by decide⟩⟩
  constructor
  · exact (overwritten_spec smallTree_rooted (by decide) tooLong _).2 _ _ _ rfl hled (by decide)
  · intro hchanged
    obtain ⟨via, dir, name, hq, -⟩ :=
      (overwritten_spec smallTree_rooted (by decide) tooLong _).1 hchanged
    have hlast := congrArg (fun q => (q.getLastD []).getLast?) hq
    have hv : "_file.csv".toList.getLast? = some 'v' := by decide
    have hne : "_file.csv".toList ≠ [] := by decide
    rw [List.getLastD_concat, List.getLast?_append_of_ne_nil _ hne, hv] at hlast
    exact absurd hlast (by decide)

end KubVagrant
