import KubVagrant.Lib.Shell
import KubVagrant.Lib.SharedFile
import KubVagrant.CentralStore

/-!
# The collection script `collect.sh`

A run of the script truncates `/var/log/datas.csv` with a header line, appends the rows it
makes from the output of mysql, du and the system commands, one redirected command after
the other, and uploads the file to the central service.  All runs on a machine use that one
file, and `cron_collect` starts two of them in the same minute.

`Probe.chunks` is the script on the outputs of its commands.  `Schedule` is any interleaving
of the commands of any number of runs; it carries the proof that every run performs its own
commands in order.  `ownReports_iff` says in which interleavings every upload is the report
of the run that sends it, and `exists_report_stored` what the service then holds.

## Main definitions

* `Probe` — what a run reads.
* `Probe.chunks`, `Probe.rows` — the rows of a run, by command and all together.
* `Schedule`, `Schedule.reports`, `Schedule.uploads` — interleavings and what they send.
* `OwnReport` — a report as it should be.
-/

namespace KubVagrant
open Unix SharedFile

/-- What one run reads: the date, `$HOSTNAME`, `$(hostname)`, and what its commands print. -/
structure Probe where
  date_jour : Text
  HOSTNAME : Text
  hostname : Text
  /-- The sizes of the schemas. -/
  taille : Text
  /-- The numbers of tables. -/
  tables : Text
  /-- The numbers of rows. -/
  lignes : Text
  /-- The schemas the loop runs over. -/
  bases : Text
  /-- `du -xksh /var/lib/mysql/*`, once for each round of the loop. -/
  du : ℕ → Text
  /-- What awk makes of a value given with `-v`: it reads backslash escapes in it. -/
  assign : Text → Text
  assign_of_notMem : ∀ value, '\\' ∉ value → assign value = value
  volume : Text
  system : Text
  memoire : Text

/-- The first line of every report. -/
def header : Text := "### data for cmdb ####".toList

/-- `tr a b`. -/
def tr (a b : Char) (t : Text) : Text := t.map fun c => if c = a then b else c

/-- grep's test of a line against a pattern without operators. -/
def grepBasic (pattern line : Text) : Bool := (basicPattern pattern).occurs line

/-! ## The rows of a run -/

namespace Probe

/-- What the awk programs print for a record. -/
def print (p : Probe) (label record : Text) : Text :=
  p.assign p.date_jour ++ ';' :: (p.assign p.HOSTNAME ++ ';' :: (label ++ ';' :: record))

/-- `mysql ... | tr "\t" ";" | awk ...`. -/
def queryRows (p : Probe) (label out : Text) : List Text :=
  (lines '\n' (tr '\t' ';' out)).map (p.print label)

/-- What awk prints for a line of du that grep selects. -/
def volumeRow (p : Probe) (database line : Text) : Text :=
  p.print "db_vol_physique".toList
    (p.assign database ++ ';' :: (field 1 line ++ ';' :: field 2 line))

/-- `echo "${volume};${system};${memoire}" | awk ...`. -/
def systemRows (p : Probe) : List Text :=
  (lines '\n' (p.volume ++ ';' :: (p.system ++ ';' :: (p.memoire ++ ['\n'])))).map
    (p.print "system".toList)

variable (grepTest : Text → Text → Bool)

/-- `sudo du ... | grep ${database} | awk ...`; `grepTest pattern line` says whether grep selects
a line. -/
def volumeRows (p : Probe) (database du : Text) : List Text :=
  ((lines '\n' du).filter (grepTest database)).map (p.volumeRow database)

/-- The rounds of the loop over the schemas. -/
def volumeChunks (p : Probe) : List (List Text) :=
  (expand (commandSubst p.bases)).zipIdx.map fun databaseAt =>
    p.volumeRows grepTest databaseAt.1 (p.du databaseAt.2)

/-- What each `>>` of the script appends, in order. -/
def chunks (p : Probe) : List (List Text) :=
  [p.queryRows "db_taille".toList p.taille, p.queryRows "db_tables".toList p.tables,
    p.queryRows "db_lines".toList p.lignes] ++ p.volumeChunks grepTest ++ [p.systemRows]

/-- All rows of a run. -/
def rows (p : Probe) : List Text := (p.chunks grepTest).flatten

variable {grepTest}

theorem header_ne_print (p : Probe) (label record : Text) : header ≠ p.print label record := by
  intro h
  have hmem : ';' ∈ header := by rw [h]; simp [print]
  exact absurd hmem (by decide)

/-- No row looks like the header: rows hold semicolons. -/
theorem header_notMem_rows (p : Probe) : header ∉ p.rows grepTest := by
  intro h
  obtain ⟨chunk, hchunk, hrow⟩ := List.mem_flatten.mp h
  have hmap : ∀ (label : Text) (records : List Text), header ∉ records.map (p.print label) := by
    intro label records hmem
    obtain ⟨record, -, hrecord⟩ := List.mem_map.mp hmem
    exact p.header_ne_print label record hrecord.symm
  simp only [chunks, List.mem_append, List.mem_cons, List.not_mem_nil, or_false] at hchunk
  rcases hchunk with ((rfl | rfl | rfl) | hloop) | rfl
  · exact hmap _ _ hrow
  · exact hmap _ _ hrow
  · exact hmap _ _ hrow
  · obtain ⟨databaseAt, -, rfl⟩ := List.mem_map.mp hloop
    obtain ⟨line, -, hline⟩ := List.mem_map.mp hrow
    exact p.header_ne_print _ _ hline.symm
  · exact hmap _ _ hrow

end Probe

/-! ## Runs on one machine -/

/-- An order in which the commands of several runs are performed, up to some moment. -/
structure Schedule {n : ℕ} (grepTest : Text → Text → Bool) (probes : Fin n → Probe) where
  trace : List (Fin n × FileOp Text)
  interleaves : Interleaves header (fun i => (probes i).chunks grepTest) trace

/-- The report is the header, once and at the top, and then the rows of run `i`, in the order of
the script and all written by that run. -/
structure OwnReport {n : ℕ} (grepTest : Text → Text → Bool) (probes : Fin n → Probe) (i : Fin n)
    (report : List (Option (Fin n) × Text)) : Prop where
  header_first : ∃ j, report.head? = some (some j, header)
  header_once : (report.map Prod.snd).count header = 1
  own_rows : report.tail = ((probes i).rows grepTest).map fun row => (some i, row)

/-- The body of the upload: the lines of the file, each with its newline. -/
def reportBody (report : List Text) : Bytes :=
  (String.ofList (report.flatMap (· ++ ['\n']))).toUTF8.toList

namespace Schedule

variable {n : ℕ} {grepTest : Text → Text → Bool} {probes : Fin n → Probe}

/-- What the runs upload, with the run that uploads and, for every line, the run that wrote it.
`file` is what `/var/log/datas.csv` holds at the start. -/
def reports (s : Schedule grepTest probes) (file : List Text) :
    List (Fin n × List (Option (Fin n) × Text)) :=
  (exec (start (file.map fun line => (none, line))) (s.trace.map mark)).sent

/-- `curl -X PUT 127.0.0.1:5000/datas?machine=$(hostname)\&type=mysql`, for every run that gets
so far. -/
def uploads (s : Schedule grepTest probes) (file : List Text) : List Request :=
  (exec (start file) s.trace).sent.map fun sent =>
    putRequest (probes sent.1).hostname "mysql".toList (reportBody sent.2)

/-- The uploads are the reports without the marks. -/
theorem uploads_eq (s : Schedule grepTest probes) (file : List Text) :
    s.uploads file = (s.reports file).map fun report =>
      putRequest (probes report.1).hostname "mysql".toList
        (reportBody (report.2.map Prod.snd)) := by
  rw [uploads, reports, ← exec_unmark file s.trace, Shared.sent_map, List.map_map]
  rfl

/-- A header of some run and the sender's own lines make a report as it should be. -/
theorem ownReport_iff (i : Fin n) (report : List (Option (Fin n) × Text)) :
    OwnReport grepTest probes i report ↔
      ∃ j, report = (some j, header) ::
        ((probes i).chunks grepTest).flatten.map fun row => (some i, row) := by
  constructor
  · intro h
    obtain ⟨j, hj⟩ := h.header_first
    refine ⟨j, ?_⟩
    rw [List.eq_cons_of_mem_head? hj, h.own_rows]
    rfl
  · intro hreport
    rcases hreport with ⟨j, rfl⟩
    have hnone : header ∉ (probes i).rows grepTest := (probes i).header_notMem_rows
    refine ⟨⟨j, rfl⟩, ?_, rfl⟩
    have hrows : (((probes i).chunks grepTest).flatten.map fun row => (some i, row)).map Prod.snd =
        (probes i).rows grepTest := by
      simp [Function.comp_def, Probe.rows]
    rw [List.map_cons, hrows, List.count_cons_self, List.count_eq_zero.mpr hnone]

/-- **Uploads are the sender's own report, exactly**: the requests sent are the reports without
their marks, and every report is its sender's own in the interleavings where, between the last
header before an upload and the upload, only the uploading run appends rows, and it has appended
none before that header. -/
theorem ownReports_iff (s : Schedule grepTest probes) (file : List Text) :
    (s.uploads file = (s.reports file).map fun report =>
        putRequest (probes report.1).hostname "mysql".toList
          (reportBody (report.2.map Prod.snd))) ∧
      ((∀ i report, (i, report) ∈ s.reports file → OwnReport grepTest probes i report) ↔
        Undisturbed s.trace) := by
  refine ⟨s.uploads_eq file, ?_⟩
  rw [← isolated_iff file s.interleaves, Isolated]
  exact forall₂_congr fun i report => imp_congr_right fun _ => ownReport_iff i report

/-! ## What arrives at the central service -/

/-- In an undisturbed order every request carries the header and the rows of the run that
sends it. -/
theorem exists_of_mem_uploads {s : Schedule grepTest probes} {file : List Text}
    (h : Undisturbed s.trace) {request : Request} (hmem : request ∈ s.uploads file) :
    ∃ i, request = putRequest (probes i).hostname "mysql".toList
      (reportBody (header :: (probes i).rows grepTest)) := by
  rw [uploads_eq, List.mem_map] at hmem
  obtain ⟨⟨i, report⟩, hreport, rfl⟩ := hmem
  obtain ⟨j, rfl⟩ := (isolated_iff file s.interleaves).mpr h i report hreport
  have hlines : ((some j, header) ::
      ((probes i).chunks grepTest).flatten.map fun row => (some i, row)).map Prod.snd =
        header :: (probes i).rows grepTest := by
    simp [Function.comp_def, Probe.rows]
  exact ⟨i, by rw [hlines]⟩

/-- **From the runs to the service**: in an undisturbed order of the runs on a machine, once one
of them has uploaded, the service holds the complete report of a single run. -/
theorem exists_report_stored {s : Schedule grepTest probes} {file : List Text}
    (h : Undisturbed s.trace) (hsent : s.uploads file ≠ []) (central : Central) {src : Source}
    (hmachine : ∀ i, (probes i).hostname = src.machine) (htype : src.type = "mysql".toList) :
    ∃ i, (central.handle (s.uploads file)).fs.file src.place =
      some (reportBody (header :: (probes i).rows grepTest)) := by
  have hlast := List.getLast_mem hsent
  obtain ⟨i, hi⟩ := exists_of_mem_uploads h hlast
  have hput : (s.uploads file).getLast hsent =
      src.put (reportBody (header :: (probes i).rows grepTest)) := by
    rw [hi, Source.put, hmachine i, htype]
  refine ⟨i, ?_⟩
  rw [← List.dropLast_append_getLast hsent, hput, Central.handle_concat, Central.file_upload]
  exact KeyedStore.put_self _

end Schedule

/-! The two runs that `cron_collect` starts in one minute, on a machine with one schema; the
second one starts before the first one has uploaded. -/

/-- What both runs read. -/
def cronProbe : Probe where
  date_jour := "2020-01-01-00-00".toList
  HOSTNAME := "db1".toList
  hostname := "db1".toList
  taille := "shop\t1.00\n".toList
  tables := "shop\t1\n".toList
  lignes := "shop\torders\t3\n".toList
  bases := "shop\n".toList
  du _ := "64K\t/var/lib/mysql/shop\n".toList
  assign value := value
  assign_of_notMem _ _ := rfl
  volume := "9".toList
  system := "Debian".toList
  memoire := "0.5".toList

/-- The header of both runs comes first; then the runs proceed one after the other. -/
def cronTrace : List (Fin 2 × FileOp Text) :=
  let appends := (cronProbe.chunks grepBasic).map FileOp.append
  [(0, .truncate header), (1, .truncate header)] ++ appends.map ((0, ·)) ++
    appends.map ((1, ·)) ++ [(0, .send), (1, .send)]

/-- The two runs, interleaved. -/
def cronSchedule : Schedule grepBasic (fun _ : Fin 2 => cronProbe) where
  trace := cronTrace
  interleaves := by unfold Interleaves; decide

/-- Both uploads hold the rows of both runs. -/
theorem ownReports_fails :
    ((exec (start []) cronSchedule.trace).sent.map Prod.snd =
      [header :: (cronProbe.rows grepBasic ++ cronProbe.rows grepBasic),
        header :: (cronProbe.rows grepBasic ++ cronProbe.rows grepBasic)]) ∧
      ¬ ∀ i report, (i, report) ∈ cronSchedule.reports [] →
        OwnReport grepBasic (fun _ : Fin 2 => cronProbe) i report := by
  refine ⟨by decide, fun h => ?_⟩
  have hlong : ∃ report ∈ cronSchedule.reports [], report.2.tail.length = 10 := by decide
  obtain ⟨report, hmem, hlength⟩ := hlong
  have hrows : (cronProbe.rows grepBasic).length = 5 := by decide
  have hown := congrArg List.length (h report.1 report.2 hmem).own_rows
  rw [List.length_map, hrows, hlength] at hown
  exact absurd hown (by decide)

end KubVagrant
