import KubVagrant.Lib.SerialRuns
import KubVagrant.Collect

/-!
# Many machines and the services they upload to

`Collect` is about the runs of `collect.sh` on one machine.  Here any number of machines run it
at the same time, and every upload goes to whatever answers at `127.0.0.1:5000` on its machine,
the central service itself or the end of a tunnel to it.  A trace is any order of the commands
of all runs on all machines.

The files of the machines and the trees of the services are two systems of independent
components (`Unix.System`), the second fed with what the first puts out.  If no other machine of
its service has its name, a machine's report there depends on what happened on that machine only
(`file_fleet`); if the machine's own runs do not disturb each other it is the complete report of
its last upload (`file_fleet_of_undisturbed`), and if they do not overlap it is that of its last
run that got to its end (`file_fleet_of_serial`).

## Main definitions

* `Fleet` — the machines, what their runs read, and where their uploads go.
* `Fleet.OwnName` — a machine with a name of its own at its service.
* `Fleet.State`, `Fleet.run` — the files and the services, and the traces.
* `Fleet.requests` — the uploads of a trace.
-/

namespace KubVagrant
open Unix SharedFile

/-- Machines that run `collect.sh`. -/
structure Fleet (κ ς : Type) (n : ℕ) where
  /-- The name of a machine, and the type of its reports. -/
  source : κ → Source
  /-- What the runs on a machine read. -/
  probes : κ → Fin n → Probe
  /-- The service at `127.0.0.1:5000` on a machine. -/
  endpoint : κ → ς
  hostname_eq : ∀ k i, (probes k i).hostname = (source k).machine
  type_eq : ∀ k, (source k).type = "mysql".toList

namespace Fleet
variable {κ ς : Type} {n : ℕ}

/-- No other machine has the same service and the same name. -/
def OwnName (fleet : Fleet κ ς n) (k : κ) : Prop :=
  ∀ k', fleet.endpoint k' = fleet.endpoint k →
    (fleet.source k').machine = (fleet.source k).machine → k' = k

/-- `/var/log/datas.csv` on every machine, and the services. -/
structure State (κ ς : Type) where
  file : κ → List Text
  central : ς → Central

/-- One command of some run on some machine. -/
abbrev Command (κ : Type) (n : ℕ) := κ × (Fin n × FileOp Text)

variable [DecidableEq κ] [DecidableEq ς] (fleet : Fleet κ ς n)

/-- Perform one command: an upload changes the service of the machine, any other command its
file. -/
def step (s : State κ ς) : Command κ n → State κ ς
  | (k, (i, .truncate l)) =>
    { s with file := Function.update s.file k (perform (start (s.file k)) (i, .truncate l)).file }
  | (k, (i, .append ls)) =>
    { s with file := Function.update s.file k (perform (start (s.file k)) (i, .append ls)).file }
  | (k, (i, .send)) =>
    { s with
      central := Function.update s.central (fleet.endpoint k)
        ((s.central (fleet.endpoint k)).upload
          (putRequest (fleet.probes k i).hostname "mysql".toList (reportBody (s.file k)))) }

/-- Perform a trace. -/
def run (s : State κ ς) (tr : List (Command κ n)) : State κ ς := tr.foldl fleet.step s

/-! ## Files and services as two systems -/

/-- The files of the machines. -/
def machines : κ → Component (List Text) (Fin n × FileOp Text) (Fin n × List Text) :=
  fun _ => SharedFile.component

/-- The services. -/
def services : ς → Component Central Request Response := fun _ =>
  { next := Central.upload
    emit := fun central request => [(KubVagrant.upload central.fs request).2] }

/-- What is uploaded, with the machine: the contents of its file. -/
def uploads (file : κ → List Text) (tr : List (Command κ n)) : List (κ × (Fin n × List Text)) :=
  System.output machines file tr

/-- The request of an upload, with the service it goes to. -/
def request (upload : κ × (Fin n × List Text)) : ς × Request :=
  (fleet.endpoint upload.1,
    putRequest (fleet.probes upload.1 upload.2.1).hostname "mysql".toList
      (reportBody upload.2.2))

/-- The requests of a trace. -/
def requests (file : κ → List Text) (tr : List (Command κ n)) : List (ς × Request) :=
  (uploads file tr).map fleet.request

/-- The step lemma: a command drives the files, and its uploads drive the services. -/
theorem step_eq (s : State κ ς) (e : Command κ n) :
    fleet.step s e =
      { file := System.step machines s.file e
        central := System.run services s.central
          (((SharedFile.component.emit (s.file e.1) e.2).map fun m => (e.1, m)).map
            fleet.request) } := by
  rcases e with ⟨k, i, op⟩
  cases op with
  | truncate l => rfl
  | append ls => rfl
  | send =>
    have hfile : System.step machines s.file (k, (i, FileOp.send)) = s.file :=
      Function.update_eq_self k s.file
    rw [hfile]
    rfl

/-- **The fleet is two systems of components**, the services fed with the uploads of the
machines. -/
theorem run_eq (s : State κ ς) (tr : List (Command κ n)) :
    fleet.run s tr =
      { file := System.run machines s.file tr
        central := System.run services s.central (fleet.requests s.file tr) } := by
  induction tr generalizing s with
  | nil => rfl
  | cons e tr ih =>
    change fleet.run (fleet.step s e) tr = _
    rw [ih, step_eq]
    simp only [requests, uploads, System.output, List.map_append, System.run_append]
    rfl

/-- On each machine the uploads are those of its own commands. -/
theorem events_uploads (file : κ → List Text) (tr : List (Command κ n)) (k : κ) :
    events k (uploads file tr) = (exec (start (file k)) (events k tr)).sent := by
  rw [uploads, System.output_run]
  exact output_component _ _

/-! ## The report of a machine -/

omit [DecidableEq κ] [DecidableEq ς] in
theorem request_eq (upload : κ × (Fin n × List Text)) :
    fleet.request upload =
      (fleet.endpoint upload.1, (fleet.source upload.1).put (reportBody upload.2.2)) := by
  rw [request, Source.put, fleet.hostname_eq, fleet.type_eq]

/-- What a service receives. -/
theorem events_requests (file : κ → List Text) (tr : List (Command κ n)) (z : ς) :
    events z (fleet.requests file tr) =
      ((uploads file tr).filter fun u => fleet.endpoint u.1 = z).map fun u =>
        (fleet.source u.1).put (reportBody u.2.2) := by
  rw [requests, events, List.filter_map, List.map_map]
  have hkey : ((fun e : ς × Request => decide (e.1 = z)) ∘ fleet.request) =
      fun u => decide (fleet.endpoint u.1 = z) := rfl
  rw [hkey]
  refine List.map_congr_left fun u _ => ?_
  rw [Function.comp_apply, request_eq]

end Fleet

/-- A service is a keyed store for the uploads of sources. -/
theorem Central.file_handle_put (central : Central) (puts : List (Source × Bytes)) :
    (central.handle (puts.map fun put => put.1.put put.2)).fs.file =
      KeyedStore.run Source.place central.fs.file puts := by
  induction puts generalizing central with
  | nil => rfl
  | cons put puts ih =>
    have hrest := ih (central.upload (put.1.put put.2))
    rw [central.file_upload] at hrest
    exact hrest

namespace Fleet
variable {κ ς : Type} {n : ℕ} [DecidableEq κ] [DecidableEq ς] (fleet : Fleet κ ς n)

omit [DecidableEq κ] [DecidableEq ς] in
/-- No other machine of its service shares the file of a machine with a name of its own. -/
theorem eq_of_place_eq {k k' : κ} (hown : fleet.OwnName k)
    (h : fleet.endpoint k' = fleet.endpoint k)
    (hplace : (fleet.source k').place = (fleet.source k).place) : k' = k := by
  have htype : (fleet.source k').type = (fleet.source k).type := by
    rw [fleet.type_eq, fleet.type_eq]
  rcases (place_eq_iff _ _).mp hplace with heq | hover
  · exact hown k' h (congrArg Source.machine heq)
  · exact absurd hover (not_overlap_of_type_eq htype)

/-- A service holds the last upload of each machine with a name of its own. -/
theorem file_run (s : State κ ς) (tr : List (Command κ n)) {k : κ} (hname : fleet.OwnName k) :
    ((fleet.run s tr).central (fleet.endpoint k)).fs.file (fleet.source k).place =
      ((events k (uploads s.file tr)).getLast?.map fun u => reportBody u.2).or
        ((s.central (fleet.endpoint k)).fs.file (fleet.source k).place) := by
  have hcentral : (fleet.run s tr).central (fleet.endpoint k) =
      (s.central (fleet.endpoint k)).handle
        (events (fleet.endpoint k) (fleet.requests s.file tr)) := by
    rw [run_eq]
    exact System.state_run s.central _ _
  -- the uploads to the service, as writes under the names of the machines
  let here := (uploads s.file tr).filter fun u => fleet.endpoint u.1 = fleet.endpoint k
  let puts := here.map fun u => (fleet.source u.1, reportBody u.2.2)
  have hputs : events (fleet.endpoint k) (fleet.requests s.file tr) =
      puts.map fun put => put.1.put put.2 := by
    rw [events_requests, List.map_map]
    rfl
  have hown : ∀ u ∈ here, (fleet.source u.1).place = (fleet.source k).place → u.1 = k := by
    intro u hu hplace
    have hend : fleet.endpoint u.1 = fleet.endpoint k := by
      simpa using (List.mem_filter.mp hu).2
    exact fleet.eq_of_place_eq hname hend hplace
  have hkeys : ∀ put ∈ puts, put.1.place = (fleet.source k).place → put.1 = fleet.source k := by
    intro put hput hplace
    obtain ⟨u, hu, rfl⟩ := List.mem_map.mp hput
    rw [hown u hu hplace]
  have hlast : KeyedStore.lastValue puts (fleet.source k) =
      (events k (uploads s.file tr)).getLast?.map fun u => reportBody u.2 := by
    have hfilter : puts.filter (fun put => put.1 = fleet.source k) =
        ((uploads s.file tr).filter fun u => u.1 = k).map fun u =>
          (fleet.source u.1, reportBody u.2.2) := by
      rw [List.filter_map, List.filter_filter]
      congr 1
      refine List.filter_congr fun u hu => ?_
      by_cases hk : u.1 = k
      · simp [hk]
      · have hne : ¬ (fleet.source u.1 = fleet.source k ∧
            fleet.endpoint u.1 = fleet.endpoint k) := by
          intro h
          exact hk (fleet.eq_of_place_eq hname h.2 (congrArg Source.place h.1))
        simpa [hk] using hne
    rw [KeyedStore.lastValue_eq_getLast?, hfilter, events, List.getLast?_map, List.getLast?_map,
      Option.map_map, Option.map_map]
    rfl
  rw [hcentral, hputs, Central.file_handle_put, KeyedStore.run_apply hkeys, hlast]

/-- **A machine's report at its service**, after any order of the commands of all runs on all
machines, if no other machine there has its name: the last upload of that machine, as it would be
if the machine were alone; and if it has uploaded nothing, what was there before. -/
theorem file_fleet (s : State κ ς) (tr : List (Command κ n)) {k : κ} (hname : fleet.OwnName k) :
    ((fleet.run s tr).central (fleet.endpoint k)).fs.file (fleet.source k).place =
      ((exec (start (s.file k)) (events k tr)).sent.getLast?.map fun sent =>
        reportBody sent.2).or
          ((s.central (fleet.endpoint k)).fs.file (fleet.source k).place) := by
  rw [fleet.file_run s tr hname, events_uploads]

variable {grepTest : Text → Text → Bool}

/-- **One disturbed machine harms no other of another name**: if the runs on a machine do not
disturb each other, its service ends up with the complete report of the machine's last upload,
whatever the runs on the other machines do. -/
theorem file_fleet_of_undisturbed (s : State κ ς) {tr : List (Command κ n)} {k : κ}
    (hname : fleet.OwnName k)
    (hi : Interleaves header (fun i => (fleet.probes k i).chunks grepTest) (events k tr))
    (hu : Undisturbed (events k tr)) {pre post : List (Fin n × FileOp Text)} {i : Fin n}
    (hsplit : events k tr = pre ++ (i, .send) :: post) (hlast : ∀ e ∈ post, e.2 ≠ .send) :
    ((fleet.run s tr).central (fleet.endpoint k)).fs.file (fleet.source k).place =
      some (reportBody (header :: (fleet.probes k i).rows grepTest)) := by
  have hsent : (exec (start (s.file k)) (events k tr)).sent =
      (exec (start (s.file k)) pre).sent ++ [(i, (exec (start (s.file k)) pre).file)] := by
    have hsend : pre ++ (i, FileOp.send) :: post = pre ++ [(i, .send)] ++ post := by simp
    rw [hsplit, hsend, exec_append, sent_exec_of_forall_ne _ hlast, exec_concat]
    rfl
  have hmem : (i, (exec (start (s.file k)) pre).file) ∈
      (exec (start (s.file k)) (events k tr)).sent := by
    rw [hsent]
    simp
  have hreport := eq_of_mem_sent (s.file k) hi hu hmem
  rw [fleet.file_run s tr hname, events_uploads, hsent, List.getLast?_concat, Option.map_some,
    Option.some_or, hreport]
  rfl

/-- **Runs under a lock**: if the runs on a machine do not overlap, its service ends up with the
complete report of the last run that got to its end, wherever the others were stopped. -/
theorem file_fleet_of_serial (s : State κ ς) {tr : List (Command κ n)} {k : κ}
    (hname : fleet.OwnName k) {attempts : List (Fin n × ℕ)}
    (h : events k tr =
      serial (fun _ => header) (fun i => (fleet.probes k i).chunks grepTest) attempts) :
    ((fleet.run s tr).central (fleet.endpoint k)).fs.file (fleet.source k).place =
      ((completed (fun i => (fleet.probes k i).chunks grepTest) attempts).getLast?.map fun i =>
        reportBody (header :: (fleet.probes k i).rows grepTest)).or
          ((s.central (fleet.endpoint k)).fs.file (fleet.source k).place) := by
  rw [fleet.file_run s tr hname, events_uploads, h, sent_serial]
  simp only [start, List.nil_append, List.getLast?_map, Option.map_map]
  rfl

end Fleet

/-! Two machines with one service.  On the second one the runs overlap as cron makes them; on the
first one they are stopped, or not, but never overlap. -/

/-- The names of two machines. -/
def machineName : Bool → Text
  | false => "db1".toList
  | true => "db2".toList

theorem notMem_machineName (k : Bool) : '/' ∉ machineName k ∧ '\x00' ∉ machineName k := by
  cases k <;> decide

theorem notMem_mysql : '/' ∉ "mysql".toList ∧ '\x00' ∉ "mysql".toList := by decide

theorem eq_of_machineName_eq {k k' : Bool} (h : machineName k = machineName k') : k = k' := by
  cases k <;> cases k' <;> first | rfl | exact absurd h (by decide)

/-- Both machines upload to the same service. -/
def twoMachines : Fleet Bool Unit 2 where
  source k := ⟨machineName k, "mysql".toList, (notMem_machineName k).1, (notMem_machineName k).2,
    notMem_mysql.1, notMem_mysql.2⟩
  probes k _ := { cronProbe with hostname := machineName k }
  endpoint _ := ()
  hostname_eq _ _ := rfl
  type_eq _ := rfl

theorem ownName_twoMachines (k : Bool) : twoMachines.OwnName k :=
  fun _ _ hmachine => eq_of_machineName_eq hmachine

/-- Run 0 is stopped after its header, and run 1 gets to its end. -/
def twoAttempts : List (Fin 2 × ℕ) := (List.finRange 2).zip [1, 7]

/-- The attempts on `db1`, between the overlapping runs of `db2`. -/
def twoTrace : List (Fleet.Command Bool 2) :=
  (cronTrace.take 5).map (fun e => (true, e)) ++
    (serial (fun _ => header) (fun i => (twoMachines.probes false i).chunks grepBasic)
      twoAttempts).map (fun e => (false, e)) ++
      (cronTrace.drop 5).map fun e => (true, e)

theorem events_twoTrace :
    events false twoTrace =
      serial (fun _ => header) (fun i => (twoMachines.probes false i).chunks grepBasic)
        twoAttempts := by
  have hne : true ≠ false := by decide
  rw [twoTrace, events_append, events_append, events_map_of_ne hne, events_map_self,
    events_map_of_ne hne, List.nil_append, List.append_nil]

/-- An empty service, and no reports on the machines. -/
def quiet : Fleet.State Bool Unit := ⟨fun _ => [], fun _ => smallCentral⟩

theorem file_fleet_twoTrace :
    ((twoMachines.run quiet twoTrace).central ()).fs.file (twoMachines.source false).place =
      ((exec (start []) (events false twoTrace)).sent.getLast?.map fun sent =>
        reportBody sent.2).or none :=
  twoMachines.file_fleet quiet twoTrace (ownName_twoMachines false)

theorem file_fleet_of_serial_twoTrace :
    ((twoMachines.run quiet twoTrace).central ()).fs.file (twoMachines.source false).place =
      some (reportBody (header :: (twoMachines.probes false 1).rows grepBasic)) := by
  have hcompleted : completed (fun i => (twoMachines.probes false i).chunks grepBasic)
      twoAttempts = [1] := by decide
  have hfile := twoMachines.file_fleet_of_serial quiet (ownName_twoMachines false) events_twoTrace
  rw [hcompleted] at hfile
  exact hfile

theorem file_fleet_of_undisturbed_twoTrace :
    ((twoMachines.run quiet twoTrace).central ()).fs.file (twoMachines.source false).place =
      some (reportBody (header :: (twoMachines.probes false 1).rows grepBasic)) := by
  have hi : Interleaves header (fun i => (twoMachines.probes false i).chunks grepBasic)
      (events false twoTrace) := by
    rw [events_twoTrace]
    exact interleaves_serial (by decide)
  have hu : Undisturbed (events false twoTrace) := by
    rw [events_twoTrace]
    exact undisturbed_serial (by decide)
  have hsplit : events false twoTrace = (events false twoTrace).dropLast ++ [(1, .send)] := by
    rw [events_twoTrace]
    decide
  exact twoMachines.file_fleet_of_undisturbed quiet (ownName_twoMachines false) hi hu hsplit
    (by simp)

end KubVagrant
