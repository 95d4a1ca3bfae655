import KubVagrant.Central

/-!
# The store of the central service over sequences of requests

Requests whose arguments are names (no separator, no NUL) write entries of
`/var/central`.  On them the service is a keyed store in the sense of
`KubVagrant.Lib.KeyedStore`, with the pair (machine, type) as key and the file name as
its encoding (`file_serve`).  The encoding glues two free texts with `_`, so it is not
injective: `place_eq_iff` says which pairs share a file, and `lastWriterWins_iff` which
sequences of requests suffer from it.
-/

namespace KubVagrant
open Unix

/-- A machine and a type that are names. -/
structure Source where
  machine : Text
  type : Text
  machine_sep : '/' ∉ machine
  machine_nul : '\x00' ∉ machine
  type_sep : '/' ∉ type
  type_nul : '\x00' ∉ type
  deriving DecidableEq

namespace Source

/-- The request that uploads a body for a source. -/
def put (src : Source) (data : Bytes) : Request := putRequest src.machine src.type data

/-- The entry of `/var/central` that belongs to a source. -/
def entry (src : Source) : Name :=
  src.machine ++ "_".toList ++ src.type ++ "_file.csv".toList

/-- Where the reports of a source are stored. -/
def place (src : Source) : List Name := centralDir ++ [src.entry]

theorem proper_entry (src : Source) : Proper src.entry := by
  have hlen : 5 ≤ src.entry.length := by
    simp only [entry, List.length_append]
    have : 9 = "_file.csv".toList.length := by decide
    omega
  refine ⟨?_, ?_, ?_⟩ <;> intro h <;> rw [h] at hlen <;> revert hlen <;> decide

theorem splitOn_fileName (src : Source) :
    (fileName src.machine src.type).splitOn '/' =
      [[], "var".toList, "central".toList, src.entry] := by
  have hsep : '/' ∉ src.machine ++ "_".toList ++ src.type := by
    simp [src.machine_sep, src.type_sep]
  rw [KubVagrant.splitOn_fileName, directoryPart, List.splitOn_eq_singleton hsep]
  rfl

theorem nul_notMem_fileName (src : Source) : '\x00' ∉ fileName src.machine src.type := by
  have hdir : '\x00' ∉ "/var/central/".toList := by decide
  have hglue : '\x00' ∉ "_".toList := by decide
  have hsuffix : '\x00' ∉ "_file.csv".toList := by decide
  unfold fileName
  simp only [List.mem_append, not_or]
  exact ⟨⟨⟨⟨hdir, src.machine_nul⟩, hglue⟩, src.type_nul⟩, hsuffix⟩

end Source

/-- A tree in which the service can open its files: `/var/central` is there, and no entry
the service could use is a directory. -/
structure Central where
  fs : FileSystem Bytes
  root_isDir : fs.isDir [] = true
  var_isDir : fs.isDir ["var".toList] = true
  central_isDir : fs.isDir centralDir = true
  entry_notDir : ∀ name, fs.isDir (centralDir ++ [name ++ "_file.csv".toList]) = false

namespace Central

/-- The handler keeps the tree usable. -/
def upload (central : Central) (request : Request) : Central where
  fs := (KubVagrant.upload central.fs request).1
  root_isDir := by rw [isDir_upload]; exact central.root_isDir
  var_isDir := by rw [isDir_upload]; exact central.var_isDir
  central_isDir := by rw [isDir_upload]; exact central.central_isDir
  entry_notDir name := by rw [isDir_upload]; exact central.entry_notDir name

/-- A source's request opens the source's place. -/
theorem target_put (central : Central) (src : Source) (data : Bytes) :
    target central.fs (src.put data) = some src.place := by
  have hwalk : central.fs.walk [] [[], "var".toList, "central".toList] = some centralDir := by
    have hroot : enter [] [] = [] := by decide
    have hvar : enter [] "var".toList = ["var".toList] := by decide
    have hcentral : enter ["var".toList] "central".toList = centralDir := by decide
    simp only [FileSystem.walk, hroot, hvar, hcentral, central.root_isDir, central.var_isDir,
      central.central_isDir, if_true]
  rw [Source.put, target_putRequest, FileSystem.openWrite, if_neg src.nul_notMem_fileName,
    src.splitOn_fileName]
  simp only [List.dropLast, hwalk, List.getLastD_eq_getLast?, List.getLast?_cons,
    Option.getD_some]
  rw [if_pos ⟨src.proper_entry, central.entry_notDir _⟩]
  rfl

/-- It answers with the name of the machine. -/
theorem response_put (central : Central) (src : Source) (data : Bytes) :
    (KubVagrant.upload central.fs (src.put data)).2 = .ok src.machine :=
  congrArg Prod.snd (upload_of_target (central.target_put src data))

theorem file_upload (central : Central) (src : Source) (data : Bytes) :
    (central.upload (src.put data)).fs.file =
      KeyedStore.put Source.place central.fs.file (src, data) := by
  rcases upload_cases central.fs (src.put data) with ⟨p, hp, h⟩ | ⟨hnone, -⟩
  · rw [central.target_put, Option.some.injEq] at hp
    subst hp
    exact congrArg FileSystem.file h
  · rw [central.target_put] at hnone
    exact absurd hnone (by simp)

/-- Handle requests one after the other. -/
def handle (central : Central) (requests : List Request) : Central :=
  requests.foldl upload central

theorem handle_concat (central : Central) (requests : List Request) (request : Request) :
    central.handle (requests ++ [request]) = (central.handle requests).upload request := by
  simp [handle]

end Central

/-- Handle a sequence of uploads, one after the other. -/
def serve (fs : FileSystem Bytes) (puts : List (Source × Bytes)) : FileSystem Bytes :=
  puts.foldl (fun fs put => (upload fs (put.1.put put.2)).1) fs

/-- **The service is a keyed store**, with the file name as encoding of the source. -/
theorem file_serve (central : Central) (puts : List (Source × Bytes)) :
    (serve central.fs puts).file = KeyedStore.run Source.place central.fs.file puts := by
  induction puts generalizing central with
  | nil => rfl
  | cons put puts ih =>
    have hstep := central.file_upload put.1 put.2
    have hrest := ih (central.upload (put.1.put put.2))
    rw [hstep] at hrest
    exact hrest

/-! ## Sources that share a file -/

/-- One machine name continues the other with `_w`, and the types make up for it. -/
def Overlap (a b : Source) : Prop :=
  ∃ w, (b.machine = a.machine ++ "_".toList ++ w ∧ a.type = w ++ "_".toList ++ b.type) ∨
    (a.machine = b.machine ++ "_".toList ++ w ∧ b.type = w ++ "_".toList ++ a.type)

theorem Overlap.symm {a b : Source} : Overlap a b → Overlap b a := by
  intro hover
  rcases hover with ⟨w, h | h⟩
  · exact ⟨w, Or.inr h⟩
  · exact ⟨w, Or.inl h⟩

theorem Overlap.machine_ne {a b : Source} (h : Overlap a b) : a.machine ≠ b.machine := by
  intro heq
  have hlen := congrArg List.length heq
  obtain ⟨w, ⟨hm, -⟩ | ⟨hm, -⟩⟩ := h <;> rw [hm] at hlen <;>
    simp only [List.length_append, String.length_toList] at hlen <;>
    have : "_".length = 1 := by decide
  · omega
  · omega

/-- Cutting a text at two different underscores. -/
theorem append_underscore_eq_iff (m t m' t' : Text) :
    m ++ "_".toList ++ t = m' ++ "_".toList ++ t' ↔
      (m = m' ∧ t = t') ∨
        (∃ w, (m' = m ++ "_".toList ++ w ∧ t = w ++ "_".toList ++ t') ∨
          (m = m' ++ "_".toList ++ w ∧ t' = w ++ "_".toList ++ t)) := by
  have hu : "_".toList = ['_'] := by decide
  simp only [hu, List.append_assoc, List.singleton_append]
  constructor
  · intro h
    rcases List.append_eq_append_iff.mp h with ⟨x, hm, ht⟩ | ⟨x, hm, ht⟩
    · cases x with
      | nil => exact Or.inl ⟨by simpa using hm.symm, by simpa using ht⟩
      | cons c w =>
        rw [List.cons_append, List.cons.injEq] at ht
        obtain ⟨rfl, ht⟩ := ht
        exact Or.inr ⟨w, Or.inl ⟨hm, ht⟩⟩
    · cases x with
      | nil => exact Or.inl ⟨by simpa using hm, by simpa using ht.symm⟩
      | cons c w =>
        rw [List.cons_append, List.cons.injEq] at ht
        obtain ⟨rfl, ht⟩ := ht
        exact Or.inr ⟨w, Or.inr ⟨hm, ht⟩⟩
  · intro hcut
    rcases hcut with ⟨rfl, rfl⟩ | ⟨w, ⟨rfl, rfl⟩ | ⟨rfl, rfl⟩⟩
    · rfl
    · simp
    · simp

/-- Two sources share a file if and only if they are the same or overlap. -/
theorem place_eq_iff (a b : Source) : a.place = b.place ↔ a = b ∨ Overlap a b := by
  have hentry : a.place = b.place ↔
      a.machine ++ "_".toList ++ a.type = b.machine ++ "_".toList ++ b.type := by
    simp only [Source.place, Source.entry, List.append_cancel_left_eq, List.cons.injEq, and_true,
      List.append_left_inj]
  have hab : a = b ↔ a.machine = b.machine ∧ a.type = b.type := by
    cases a; cases b
    simp
  rw [hentry, append_underscore_eq_iff, hab, Overlap]

/-! ## Last writer wins -/

/-- After the uploads every pair that occurs has its own last body in its file, and no
upload changes what another pair stored before. -/
def LastWriterWins (fs : FileSystem Bytes) (puts : List (Source × Bytes)) : Prop :=
  (∀ src body, KeyedStore.lastValue puts src = some body →
    (serve fs puts).file src.place = some body) ∧
  ∀ pre put post, puts = pre ++ put :: post → ∀ src ∈ pre.map Prod.fst, src ≠ put.1 →
    (serve fs (pre ++ [put])).file src.place = (serve fs pre).file src.place

/-- **Last writer wins, exactly.** It holds of a sequence of uploads if and only if an
upload never comes after an overlapping source whose latest body is a different one. -/
theorem lastWriterWins_iff (central : Central) (puts : List (Source × Bytes)) :
    LastWriterWins central.fs puts ↔
      ∀ pre put post, puts = pre ++ put :: post → ∀ src body,
        KeyedStore.lastValue pre src = some body → Overlap src put.1 → body = put.2 := by
  have hstore : LastWriterWins central.fs puts ↔
      KeyedStore.ReadsLast Source.place central.fs.file puts ∧
        KeyedStore.NoInterference Source.place central.fs.file puts := by
    simp only [LastWriterWins, file_serve, KeyedStore.ReadsLast, KeyedStore.NoInterference]
  rw [hstore, KeyedStore.faithful_iff]
  constructor
  · intro h pre put post hsplit src body hbody hover
    have hne : src ≠ put.1 := by rintro rfl; exact hover.machine_ne rfl
    exact h pre put post hsplit src body hbody hne ((place_eq_iff _ _).mpr (Or.inr hover))
  · intro h pre put post hsplit src body hbody hne hplace
    rcases (place_eq_iff _ _).mp hplace with heq | hover
    · exact absurd heq hne
    · exact h pre put post hsplit src body hbody hover

/-- The tree of `smallTree`, ready for the service. -/
def smallCentral : Central where
  fs := smallTree
  root_isDir := by decide
  var_isDir := by decide
  central_isDir := by decide
  entry_notDir name := by simp [smallTree, centralDir]

/-- Machine `db` with type `1_mysql`. -/
def sourceDb : Source :=
  ⟨"db".toList, "1_mysql".toList, by decide, by decide, by decide, by decide⟩

/-- Machine `db_1` with type `mysql`. -/
def sourceDb1 : Source :=
  ⟨"db_1".toList, "mysql".toList, by decide, by decide, by decide, by decide⟩

/-- Two different sources with one file: the second upload replaces the first. -/
theorem lastWriterWins_fails :
    ¬ LastWriterWins smallCentral.fs [(sourceDb, [1]), (sourceDb1, [2])] := by
  intro h
  have hfirst := h.1 sourceDb [1] (by decide)
  have hfile : (serve smallCentral.fs [(sourceDb, [1]), (sourceDb1, [2])]).file
      sourceDb.place = some [2] := by decide
  rw [hfile] at hfirst
  exact absurd hfirst (by decide)

/-- Sources that differ in the machine only never share a file. -/
theorem not_overlap_of_type_eq {a b : Source} (h : a.type = b.type) : ¬ Overlap a b := by
  have hone : "_".length = 1 := by decide
  have hlen := congrArg List.length h
  rintro ⟨w, ⟨-, ht⟩ | ⟨-, ht⟩⟩ <;> rw [ht] at hlen <;>
    simp only [List.length_append, String.length_toList] at hlen <;> omega

/-- The uploads of `collect.sh` all have the type `mysql`: whatever names without separators the
machines have, every machine keeps its own last report. -/
theorem lastWriterWins_of_type_eq (central : Central) {puts : List (Source × Bytes)} {type : Text}
    (h : ∀ put ∈ puts, put.1.type = type) : LastWriterWins central.fs puts := by
  have hagrees : KeyedStore.Agrees Source.place puts := by
    rintro pre put post rfl src body hbody hne hplace
    have hsrc : src ∈ pre.map Prod.fst :=
      (KeyedStore.exists_lastValue_iff pre src).mp ⟨body, hbody⟩
    obtain ⟨put', hput', rfl⟩ := List.mem_map.mp hsrc
    have htype : put'.1.type = put.1.type := by
      rw [h put' (by simp [hput']), h put (by simp)]
    rcases (place_eq_iff _ _).mp hplace with heq | hover
    · exact absurd heq hne
    · exact absurd hover (not_overlap_of_type_eq htype)
  obtain ⟨hreads, hframe⟩ := (KeyedStore.faithful_iff (s := central.fs.file) puts).mpr hagrees
  constructor
  · intro src body hbody
    rw [file_serve]
    exact hreads src body hbody
  · intro pre put post hsplit src hsrc hne
    rw [file_serve, file_serve]
    exact hframe pre put post hsplit src hsrc hne

/-- Machine `db` with type `mysql`. -/
def sourceDbMysql : Source :=
  ⟨"db".toList, "mysql".toList, by decide, by decide, by decide, by decide⟩

theorem lastWriterWins_of_type_eq_two :
    LastWriterWins smallCentral.fs [(sourceDbMysql, [1]), (sourceDb1, [2])] := by
  have htype : ∀ put ∈ [(sourceDbMysql, ([1] : Bytes)), (sourceDb1, [2])],
      put.1.type = "mysql".toList := by decide
  exact lastWriterWins_of_type_eq smallCentral htype

end KubVagrant
