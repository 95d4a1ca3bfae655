import KubVagrant.Collect

/-!
# Reading a report back

What the service stores is the report of a run as bytes: the header and one row for every
record, whose columns are separated by `;`.  `columns` reads the rows under a label from such a
report, as anything that works on the stored files has to.

`readBack` is the round trip: from the bytes of a run's report one gets back every column that
mysql and the system commands printed, and of du the two that awk keeps of the lines grep selects,
for the runs whose columns hold no `;` and whose awk is given no backslash.

## Main definitions

* `readReport` — the lines of a stored report.
* `columns` — the columns of the rows under a label.
* `Probe.Plain` — no column holds the separator.
-/

namespace KubVagrant
open Unix

/-! ## The reader -/

/-- The text of a stored body, if it is UTF-8. -/
def decode (body : Bytes) : Option Text := (String.fromUTF8? ⟨body.toArray⟩).map String.toList

/-- The lines of a stored report. -/
def readReport (body : Bytes) : Option (List Text) := (decode body).map (lines '\n')

/-- The columns of a row under a label, behind the date, the host and the label. -/
def rowColumns (label row : Text) : Option (List Text) :=
  match row.splitOn ';' with
  | _ :: _ :: l :: cols => if l = label then some cols else none
  | _ => none

/-- The columns of the rows under a label. -/
def columns (label : Text) (report : List Text) : List (List Text) :=
  report.filterMap (rowColumns label)

theorem columns_append (label : Text) (report report' : List Text) :
    columns label (report ++ report') = columns label report ++ columns label report' :=
  List.filterMap_append

/-! ## From bytes to lines -/

/-- The loop of `ByteArray.toList`: what it has read, and then the rest. -/
theorem toList_loop (bytes : ByteArray) (i : ℕ) (read : Bytes) :
    ByteArray.toList.loop bytes i read = read.reverse ++ bytes.data.toList.drop i := by
  fun_induction ByteArray.toList.loop bytes i read with
  | case1 i read hlt ih =>
    have hi : i < bytes.data.toList.length := by simpa using hlt
    have hnext : bytes.get! i = bytes.data.toList[i] := by
      simp [ByteArray.get!, getElem!_pos bytes.data i hlt]
    calc
      ByteArray.toList.loop bytes (i + 1) (bytes.get! i :: read) =
          (bytes.get! i :: read).reverse ++ bytes.data.toList.drop (i + 1) := ih
      _ = read.reverse ++ (bytes.data.toList[i] :: bytes.data.toList.drop (i + 1)) := by
        rw [hnext, List.reverse_cons, List.append_assoc, List.singleton_append]
      _ = read.reverse ++ bytes.data.toList.drop i := by rw [← List.drop_eq_getElem_cons hi]
  | case2 i read hge =>
    have hend : bytes.data.toList.length ≤ i := by simpa using hge
    rw [List.drop_eq_nil_of_le hend, List.append_nil]

theorem toList_eq (bytes : ByteArray) : bytes.toList = bytes.data.toList :=
  toList_loop bytes 0 []

theorem decode_toUTF8 (t : Text) : decode (String.ofList t).toUTF8.toList = some t := by
  have hbytes : (⟨(String.ofList t).toUTF8.toList.toArray⟩ : ByteArray) =
      (String.ofList t).toUTF8 := by
    rw [toList_eq]
  have hvalid : (String.ofList t).toUTF8.IsValidUTF8 := (String.ofList t).isValidUTF8
  rw [decode, hbytes, String.fromUTF8?, dif_pos hvalid, Option.map_some]
  exact congrArg some String.toList_ofList

/-- A stored report is read back line by line. -/
theorem readReport_reportBody {report : List Text} (h : ∀ row ∈ report, '\n' ∉ row) :
    readReport (reportBody report) = some report := by
  rw [readReport, reportBody, decode_toUTF8, Option.map_some, lines_flatMap h]

/-! ## From rows to columns -/

/-- The output of `tr` is split where its input had the replaced character. -/
theorem splitOn_tr {a b : Char} {t : Text} (h : b ∉ t) : (tr a b t).splitOn b = t.splitOn a := by
  have hkeep : ∀ l : Text, a ∉ l → tr a b l = l := by
    intro l hl
    have hid : ∀ c ∈ l, (if c = a then b else c) = c := by
      intro c hc
      have hne : c ≠ a := fun heq => hl (heq ▸ hc)
      exact if_neg hne
    rw [tr, List.map_congr_left hid, List.map_id']
  induction t using line_induction (d := a) with
  | nil => rfl
  | last l hne hl => rw [hkeep l hl, List.splitOn_eq_singleton h, List.splitOn_eq_singleton hl]
  | line l t hl ih =>
    have hcut : tr a b (l ++ a :: t) = l ++ b :: tr a b t := by
      conv_rhs => rw [← hkeep l hl]
      simp [tr]
    simp only [List.mem_append, List.mem_cons, not_or] at h
    rw [hcut, List.splitOn_append_cons_self_of_not_mem h.1,
      List.splitOn_append_cons_self_of_not_mem hl, ih h.2.2]

/-- `tr` keeps the lines of its input apart. -/
theorem lines_tr {a b : Char} (ha : a ≠ '\n') (hb : b ≠ '\n') (t : Text) :
    lines '\n' (tr a b t) = (lines '\n' t).map (tr a b) := by
  refine lines_map (fun c => ?_) t
  by_cases hc : c = a
  · simp [hc, ha, hb]
  · simp [hc]

namespace Probe

/-- No column of the report holds its separator, no line ends within one, and awk reads nothing
into the values it is given. -/
structure Plain (p : Probe) : Prop where
  date_jour : ';' ∉ p.date_jour ∧ '\n' ∉ p.date_jour ∧ '\\' ∉ p.date_jour
  HOSTNAME : ';' ∉ p.HOSTNAME ∧ '\n' ∉ p.HOSTNAME ∧ '\\' ∉ p.HOSTNAME
  taille : ';' ∉ p.taille
  tables : ';' ∉ p.tables
  lignes : ';' ∉ p.lignes
  bases : ';' ∉ p.bases ∧ '\\' ∉ p.bases
  du : ∀ i, ';' ∉ p.du i
  volume : ';' ∉ p.volume ∧ '\n' ∉ p.volume
  system : ';' ∉ p.system ∧ '\n' ∉ p.system
  memoire : ';' ∉ p.memoire ∧ '\n' ∉ p.memoire

variable {p : Probe} {grepTest : Text → Text → Bool}

/-- A plain run's rows start with its date and its host as they are. -/
theorem print_eq (h : p.Plain) (label record : Text) :
    p.print label record =
      p.date_jour ++ ';' :: (p.HOSTNAME ++ ';' :: (label ++ ';' :: record)) := by
  rw [print, p.assign_of_notMem _ h.date_jour.2.2, p.assign_of_notMem _ h.HOSTNAME.2.2]

theorem rowColumns_print (h : p.Plain) {label : Text} (hlabel : ';' ∉ label)
    (label' record : Text) :
    rowColumns label' (p.print label record) =
      if label = label' then some (record.splitOn ';') else none := by
  rw [rowColumns, print_eq h, List.splitOn_append_cons_self_of_not_mem h.date_jour.1,
    List.splitOn_append_cons_self_of_not_mem h.HOSTNAME.1,
    List.splitOn_append_cons_self_of_not_mem hlabel]

/-- Rows are read under their label. -/
theorem columns_map_print (h : p.Plain) {label : Text} (hlabel : ';' ∉ label)
    (records : List Text) :
    columns label (records.map (p.print label)) =
      records.map fun record => record.splitOn ';' := by
  have hrow : ∀ record ∈ records, (rowColumns label ∘ p.print label) record =
      some (record.splitOn ';') := by
    intro record _
    rw [Function.comp_apply, rowColumns_print h hlabel, if_pos rfl]
  rw [columns, List.filterMap_map, List.filterMap_congr hrow, List.filterMap_eq_map']

/-- The rows stand under a label. -/
def PrintedUnder (p : Probe) (label : Text) (rows : List Text) : Prop :=
  ∀ row ∈ rows, ∃ record, row = p.print label record

/-- Rows are not read under another label. -/
theorem columns_eq_nil (h : p.Plain) {label label' : Text} (hlabel : ';' ∉ label)
    (hne : label ≠ label') {rows : List Text} (hrows : p.PrintedUnder label rows) :
    columns label' rows = [] := by
  rw [columns, List.filterMap_eq_nil_iff]
  intro row hrow
  obtain ⟨record, rfl⟩ := hrows row hrow
  rw [rowColumns_print h hlabel, if_neg hne]

theorem printedUnder_map (label : Text) (records : List Text) :
    p.PrintedUnder label (records.map (p.print label)) := by
  intro row hrow
  obtain ⟨record, -, rfl⟩ := List.mem_map.mp hrow
  exact ⟨record, rfl⟩

theorem printedUnder_volumeChunks :
    p.PrintedUnder "db_vol_physique".toList (p.volumeChunks grepTest).flatten := by
  intro row hrow
  obtain ⟨chunk, hchunk, hin⟩ := List.mem_flatten.mp hrow
  obtain ⟨databaseAt, -, rfl⟩ := List.mem_map.mp hchunk
  obtain ⟨line, -, rfl⟩ := List.mem_map.mp hin
  exact ⟨_, rfl⟩

/-- The rows of a query give back its records, column by column. -/
theorem columns_queryRows (h : p.Plain) {label out : Text} (hlabel : ';' ∉ label)
    (hout : ';' ∉ out) :
    columns label (p.queryRows label out) =
      (lines '\n' out).map fun record => record.splitOn '\t' := by
  rw [queryRows, columns_map_print h hlabel, lines_tr (by decide) (by decide), List.map_map]
  refine List.map_congr_left fun record hrecord => ?_
  exact splitOn_tr fun hmem => hout (mem_of_mem_lines hrecord hmem)

/-- What the loop over the schemas reads: a line of du that grep selects, with the schema. -/
def volumeColumns (grepTest : Text → Text → Bool) (p : Probe) : List (List Text) :=
  (expand (commandSubst p.bases)).zipIdx.flatMap fun databaseAt =>
    ((lines '\n' (p.du databaseAt.2)).filter (grepTest databaseAt.1)).map fun line =>
      [databaseAt.1, field 1 line, field 2 line]

theorem notMem_field {c : Char} {line : Text} (h : c ∉ line) (n : ℕ) : c ∉ field n line := by
  rw [field, List.getD_eq_getElem?_getD]
  cases hf : (fields line)[n - 1]? with
  | none => simp
  | some w => exact fun hmem => h ((infix_of_mem_wordsBy (List.mem_of_getElem? hf)).subset hmem)

theorem notMem_of_mem_expand {c : Char} {out w : Text} (h : c ∉ out)
    (hw : w ∈ expand (commandSubst out)) : c ∉ w := by
  intro hmem
  have hout : c ∈ commandSubst out := (infix_of_mem_wordsBy hw).subset hmem
  exact h ((List.rdropWhile_prefix (p := (· == '\n')) out).subset hout)

/-- The rows of one round of the loop. -/
theorem columns_volumeRows (h : p.Plain) {database du : Text}
    (hdatabase : ';' ∉ database ∧ '\\' ∉ database) (hdu : ';' ∉ du) :
    columns "db_vol_physique".toList (p.volumeRows grepTest database du) =
      ((lines '\n' du).filter (grepTest database)).map fun line =>
        [database, field 1 line, field 2 line] := by
  have hrows : p.volumeRows grepTest database du =
      (((lines '\n' du).filter (grepTest database)).map fun line =>
        database ++ ';' :: (field 1 line ++ ';' :: field 2 line)).map
          (p.print "db_vol_physique".toList) := by
    rw [volumeRows, List.map_map]
    refine List.map_congr_left fun line _ => ?_
    rw [volumeRow, p.assign_of_notMem _ hdatabase.2]
    rfl
  rw [hrows, columns_map_print h (by decide), List.map_map]
  refine List.map_congr_left fun line hline => ?_
  have hclean : ';' ∉ line := fun hmem => hdu (mem_of_mem_lines (List.mem_filter.mp hline).1 hmem)
  rw [Function.comp_apply, List.splitOn_append_cons_self_of_not_mem hdatabase.1,
    List.splitOn_append_cons_self_of_not_mem (notMem_field hclean 1),
    List.splitOn_eq_singleton (notMem_field hclean 2)]

theorem columns_volumeChunks (h : p.Plain) :
    columns "db_vol_physique".toList (p.volumeChunks grepTest).flatten =
      p.volumeColumns grepTest := by
  have hround : ∀ databaseAt ∈ (expand (commandSubst p.bases)).zipIdx,
      columns "db_vol_physique".toList
        (p.volumeRows grepTest databaseAt.1 (p.du databaseAt.2)) =
          ((lines '\n' (p.du databaseAt.2)).filter (grepTest databaseAt.1)).map fun line =>
            [databaseAt.1, field 1 line, field 2 line] := by
    intro databaseAt hat
    have hdatabase : databaseAt.1 ∈ expand (commandSubst p.bases) :=
      List.fst_mem_of_mem_zipIdx hat
    exact columns_volumeRows h ⟨notMem_of_mem_expand h.bases.1 hdatabase,
      notMem_of_mem_expand h.bases.2 hdatabase⟩ (h.du databaseAt.2)
  rw [volumeChunks, volumeColumns, ← List.flatMap_def]
  unfold columns at hround ⊢
  rw [List.filterMap_flatMap]
  exact List.flatMap_congr hround

/-- The last row gives back what the system commands printed. -/
theorem columns_systemRows (h : p.Plain) :
    columns "system".toList p.systemRows = [[p.volume, p.system, p.memoire]] := by
  have hline : '\n' ∉ p.volume ++ ';' :: (p.system ++ ';' :: p.memoire) := by
    simp [h.volume.2, h.system.2, h.memoire.2]
  have hlines : lines '\n' (p.volume ++ ';' :: (p.system ++ ';' :: (p.memoire ++ ['\n']))) =
      [p.volume ++ ';' :: (p.system ++ ';' :: p.memoire)] := by
    have hone := lines_line hline []
    simpa using hone
  rw [systemRows, hlines, columns_map_print h (by decide), List.map_singleton,
    List.splitOn_append_cons_self_of_not_mem h.volume.1,
    List.splitOn_append_cons_self_of_not_mem h.system.1, List.splitOn_eq_singleton h.memoire.1]

/-- Every row of a plain run is one line. -/
theorem newline_notMem_rows (h : p.Plain) {row : Text} (hrow : row ∈ p.rows grepTest) :
    '\n' ∉ row := by
  have hprint : ∀ {label record : Text}, '\n' ∉ label → '\n' ∉ record →
      '\n' ∉ p.print label record := by
    intro label record hlabel hrecord
    simp [print_eq h, h.date_jour.2.1, h.HOSTNAME.2.1, hlabel, hrecord]
  have hquery : ∀ {label out : Text}, '\n' ∉ label → ∀ row ∈ p.queryRows label out,
      '\n' ∉ row := by
    intro label out hlabel row hmem
    obtain ⟨record, hrecord, rfl⟩ := List.mem_map.mp hmem
    exact hprint hlabel (notMem_of_mem_lines hrecord)
  obtain ⟨chunk, hchunk, hin⟩ := List.mem_flatten.mp hrow
  simp only [chunks, List.mem_append, List.mem_cons, List.not_mem_nil, or_false] at hchunk
  rcases hchunk with ((rfl | rfl | rfl) | hloop) | rfl
  · exact hquery (by decide) row hin
  · exact hquery (by decide) row hin
  · exact hquery (by decide) row hin
  · obtain ⟨databaseAt, hat, rfl⟩ := List.mem_map.mp hloop
    obtain ⟨line, hline, rfl⟩ := List.mem_map.mp hin
    have hblank : isBlank '\n' = true := by decide
    have hdatabase : '\n' ∉ databaseAt.1 := by
      intro hmem
      have hword := not_sep_of_mem_wordsBy (List.fst_mem_of_mem_zipIdx hat) hmem
      rw [hblank] at hword
      exact absurd hword (by simp)
    have hclean := notMem_of_mem_lines (List.mem_filter.mp hline).1
    have hassign : p.assign databaseAt.1 = databaseAt.1 :=
      p.assign_of_notMem _ (notMem_of_mem_expand h.bases.2 (List.fst_mem_of_mem_zipIdx hat))
    refine hprint (by decide) ?_
    simp [hassign, hdatabase, notMem_field hclean]
  · obtain ⟨record, hrecord, rfl⟩ := List.mem_map.mp hin
    exact hprint (by decide) (notMem_of_mem_lines hrecord)

theorem columns_rows (label : Text) :
    columns label (header :: p.rows grepTest) =
      columns label (p.queryRows "db_taille".toList p.taille) ++
        (columns label (p.queryRows "db_tables".toList p.tables) ++
          (columns label (p.queryRows "db_lines".toList p.lignes) ++
            (columns label (p.volumeChunks grepTest).flatten ++ columns label p.systemRows))) := by
  have hheader : rowColumns label header = none := by
    have hsplit : header.splitOn ';' = [header] := by decide
    rw [rowColumns, hsplit]
  have hrows : p.rows grepTest = p.queryRows "db_taille".toList p.taille ++
      (p.queryRows "db_tables".toList p.tables ++ (p.queryRows "db_lines".toList p.lignes ++
        ((p.volumeChunks grepTest).flatten ++ p.systemRows))) := by
    simp [rows, chunks]
  have hskip : columns label (header :: p.rows grepTest) = columns label (p.rows grepTest) := by
    rw [columns, List.filterMap_cons, hheader, columns]
  rw [hskip, hrows, columns_append, columns_append, columns_append, columns_append]

/-- **Round trip of a report**: from the stored bytes of a run's report, the rows of the queries,
the selected lines of du and the figures of the system are read back, column by column. -/
theorem readBack (h : p.Plain) (grepTest : Text → Text → Bool) :
    ∃ report, readReport (reportBody (header :: p.rows grepTest)) = some report ∧
      columns "db_taille".toList report =
        (lines '\n' p.taille).map (fun record => record.splitOn '\t') ∧
      columns "db_tables".toList report =
        (lines '\n' p.tables).map (fun record => record.splitOn '\t') ∧
      columns "db_lines".toList report =
        (lines '\n' p.lignes).map (fun record => record.splitOn '\t') ∧
      columns "db_vol_physique".toList report = p.volumeColumns grepTest ∧
      columns "system".toList report = [[p.volume, p.system, p.memoire]] := by
  -- no rows of one kind are read as rows of another
  have hother : ∀ {label label' : Text} (out : Text), ';' ∉ label → label ≠ label' →
      columns label' (p.queryRows label out) = [] :=
    fun out hlabel hne => columns_eq_nil h hlabel hne (printedUnder_map _ _)
  have hvolumes : ∀ {label' : Text}, "db_vol_physique".toList ≠ label' →
      columns label' (p.volumeChunks grepTest).flatten = [] :=
    fun hne => columns_eq_nil h (by decide) hne printedUnder_volumeChunks
  have hsystem : ∀ {label' : Text}, "system".toList ≠ label' → columns label' p.systemRows = [] :=
    fun hne => columns_eq_nil h (by decide) hne (printedUnder_map _ _)
  refine ⟨header :: p.rows grepTest, readReport_reportBody ?_, ?_, ?_, ?_, ?_, ?_⟩
  · intro row hrow
    rcases List.mem_cons.mp hrow with rfl | hrow
    · decide
    · exact newline_notMem_rows h hrow
  · rw [columns_rows, columns_queryRows h (by decide) h.taille, hother _ (by decide) (by decide),
      hother _ (by decide) (by decide), hvolumes (by decide), hsystem (by decide)]
    simp only [List.append_nil]
  · rw [columns_rows, columns_queryRows h (by decide) h.tables, hother _ (by decide) (by decide),
      hother _ (by decide) (by decide), hvolumes (by decide), hsystem (by decide)]
    simp only [List.nil_append, List.append_nil]
  · rw [columns_rows, columns_queryRows h (by decide) h.lignes, hother _ (by decide) (by decide),
      hother _ (by decide) (by decide), hvolumes (by decide), hsystem (by decide)]
    simp only [List.nil_append, List.append_nil]
  · rw [columns_rows, columns_volumeChunks h, hother _ (by decide) (by decide),
      hother _ (by decide) (by decide), hother _ (by decide) (by decide), hsystem (by decide)]
    simp only [List.nil_append, List.append_nil]
  · rw [columns_rows, columns_systemRows h, hother _ (by decide) (by decide),
      hother _ (by decide) (by decide), hother _ (by decide) (by decide), hvolumes (by decide)]
    simp only [List.nil_append]

end Probe

/-- The machine of `cronProbe`. -/
theorem cronProbe_plain : cronProbe.Plain := by
  have hdu : ';' ∉ "64K\t/var/lib/mysql/shop\n".toList := by decide
  exact ⟨by decide, by decide, by decide, by decide, by decide, by decide, fun _ => hdu, by decide,
    by decide, by decide⟩

theorem readBack_cronProbe :
    ∃ report, readReport (reportBody (header :: cronProbe.rows grepBasic)) = some report ∧
      columns "db_taille".toList report = [["shop".toList, "1.00".toList]] ∧
      columns "db_tables".toList report = [["shop".toList, "1".toList]] ∧
      columns "db_lines".toList report = [["shop".toList, "orders".toList, "3".toList]] ∧
      columns "db_vol_physique".toList report =
        [["shop".toList, "64K".toList, "/var/lib/mysql/shop".toList]] ∧
      columns "system".toList report = [["9".toList, "Debian".toList, "0.5".toList]] :=
  Probe.readBack cronProbe_plain grepBasic

end KubVagrant
