import KubVagrant.Lib.Lines

/-!
# Path resolution without symbolic links

A directory is the list of its component names from the root.  `enter` follows one
component and `resolve` a list of them, as the kernel does on a tree without symbolic
links.  Relative paths have a normal form, an `Offset`: climb `up` levels, then come
`down` through some names.  `resolve_eq` says that resolving a path is climbing and
coming down, and `resolve_eq_self_iff` reads off when a path leads back to where it
started: it comes down through the very components it climbed out of.

## Main definitions

* `enter`, `resolve` — following path components from a directory.
* `Offset`, `offset` — the normal form of a relative path.
* `FileSystem`, `FileSystem.openWrite`, `FileSystem.write` — a tree of directories and
  files, `open(path, 'wb')`, and writing what was opened.
-/

namespace Unix

/-- A path component. -/
abbrev Name := Text

/-- The component that stays where it is. -/
def dot : Name := ['.']

/-- The component that climbs one level. -/
def dotdot : Name := ['.', '.']

/-- A component that names an entry of a directory. -/
def Proper (c : Name) : Prop := c ≠ [] ∧ c ≠ dot ∧ c ≠ dotdot

instance (c : Name) : Decidable (Proper c) := inferInstanceAs (Decidable (_ ∧ _ ∧ _))

/-- Follow one component; the root is its own parent. -/
def enter (dir : List Name) (c : Name) : List Name :=
  if c = [] ∨ c = dot then dir else if c = dotdot then dir.dropLast else dir ++ [c]

/-- Follow a list of components. -/
def resolve (dir cs : List Name) : List Name := cs.foldl enter dir

@[simp] theorem resolve_nil (dir : List Name) : resolve dir [] = dir := rfl
@[simp] theorem resolve_cons (dir : List Name) (c : Name) (cs : List Name) :
    resolve dir (c :: cs) = resolve (enter dir c) cs := rfl

/-! ## The normal form of a relative path -/

/-- Climb `up` levels, then come down through the names `down`. -/
structure Offset where
  up : ℕ
  down : List Name
  deriving DecidableEq, Repr

namespace Offset

/-- Follow one more component: `..` cancels the last name, if there is one. -/
def enter (o : Offset) (c : Name) : Offset :=
  if c = [] ∨ c = dot then o
  else if c = dotdot then
    if o.down = [] then ⟨o.up + 1, []⟩ else ⟨o.up, o.down.dropLast⟩
  else ⟨o.up, o.down ++ [c]⟩

/-- Where an offset leads from a directory. -/
def apply (o : Offset) (dir : List Name) : List Name := dir.take (dir.length - o.up) ++ o.down

theorem apply_enter (o : Offset) (c : Name) (dir : List Name) :
    (o.enter c).apply dir = Unix.enter (o.apply dir) c := by
  unfold enter Unix.enter
  by_cases hstay : c = [] ∨ c = dot
  · simp [hstay]
  · rw [if_neg hstay, if_neg hstay]
    by_cases hup : c = dotdot
    · rw [if_pos hup, if_pos hup]
      by_cases hdown : o.down = []
      · -- nothing to cancel: the climb gets one level longer
        rw [if_pos hdown]
        simp only [apply, hdown, List.append_nil, List.dropLast_eq_take, List.take_take,
          List.length_take]
        congr 1
        omega
      · rw [if_neg hdown, apply, apply, List.dropLast_append_of_ne_nil hdown]
    · simp [hup, apply]

end Offset

/-- The normal form of a list of components. -/
def offset (cs : List Name) : Offset := cs.foldl Offset.enter ⟨0, []⟩

theorem resolve_foldl_enter (o : Offset) (cs dir : List Name) :
    (cs.foldl Offset.enter o).apply dir = resolve (o.apply dir) cs := by
  induction cs generalizing o with
  | nil => rfl
  | cons c cs ih => rw [List.foldl_cons, ih, Offset.apply_enter, resolve_cons]

/-- **Resolving is climbing and coming down.** -/
theorem resolve_eq (dir cs : List Name) : resolve dir cs = (offset cs).apply dir := by
  have h := resolve_foldl_enter ⟨0, []⟩ cs dir
  simp only [Offset.apply, Nat.sub_zero, List.take_length, List.append_nil] at h
  exact h.symm

/-- A path leads back to its start if and only if it comes down through the components
it climbed out of. -/
theorem resolve_eq_self_iff (dir cs : List Name) :
    resolve dir cs = dir ↔ (offset cs).down = dir.drop (dir.length - (offset cs).up) := by
  rw [resolve_eq, Offset.apply]
  constructor
  · intro h
    exact List.append_cancel_left (h.trans (List.take_append_drop _ dir).symm)
  · intro h
    rw [h, List.take_append_drop]

/-! ## Files -/

/-- A tree without symbolic links: which paths are directories, and what the files hold. -/
structure FileSystem (β : Type) where
  isDir : List Name → Bool
  file : List Name → Option β

namespace FileSystem
variable {β : Type}

/-- Follow components through existing directories only. -/
def walk (fs : FileSystem β) : List Name → List Name → Option (List Name)
  | dir, [] => if fs.isDir dir then some dir else none
  | dir, c :: cs => if fs.isDir dir then fs.walk (enter dir c) cs else none

/-- The file that `open(path, 'wb')` creates or truncates, for an absolute path: `none` if
the path holds a NUL, an intermediate component is no directory, or the path is one.  Links,
permissions and limits on lengths are left out. -/
def openWrite (fs : FileSystem β) (path : Text) : Option (List Name) :=
  if '\x00' ∈ path then none
  else
    let cs := path.splitOn '/'
    let c := cs.getLastD []
    match fs.walk [] cs.dropLast with
    | none => none
    | some dir => if Proper c ∧ fs.isDir (dir ++ [c]) = false then some (dir ++ [c]) else none

/-- Replace the contents of an opened file. -/
def write (fs : FileSystem β) (p : List Name) (body : β) : FileSystem β :=
  { fs with file := Function.update fs.file p (some body) }

@[simp] theorem isDir_write (fs : FileSystem β) (p : List Name) (body : β) :
    (fs.write p body).isDir = fs.isDir := rfl
@[simp] theorem file_write (fs : FileSystem β) (p : List Name) (body : β) :
    (fs.write p body).file = Function.update fs.file p (some body) := rfl

/-- Where a walk ends does not depend on the tree. -/
theorem eq_resolve_of_walk {fs : FileSystem β} {dir cs p : List Name}
    (h : fs.walk dir cs = some p) : p = resolve dir cs := by
  induction cs generalizing dir with
  | nil =>
    simp only [walk, Option.ite_none_right_eq_some, Option.some.injEq] at h
    exact h.2.symm
  | cons c cs ih =>
    simp only [walk, Option.ite_none_right_eq_some] at h
    exact ih h.2

/-- What was opened is a proper name in the directory its path leads to. -/
theorem openWrite_eq_some {fs : FileSystem β} {path : Text} {p : List Name}
    (h : fs.openWrite path = some p) :
    p = resolve [] (path.splitOn '/').dropLast ++ [(path.splitOn '/').getLastD []] ∧
      Proper ((path.splitOn '/').getLastD []) := by
  rw [openWrite] at h
  split at h
  · simp at h
  · simp only at h
    split at h
    · simp at h
    · rename_i dir hwalk
      simp only [Option.ite_none_right_eq_some, Option.some.injEq] at h
      exact ⟨by rw [← h.2, eq_resolve_of_walk hwalk], h.1.1⟩

/-! ## Walking through a tree -/

/-- The root is a directory, and every other directory stands in a directory, under a name that
can be written in a path. -/
structure Rooted (fs : FileSystem β) : Prop where
  root : fs.isDir [] = true
  parent : ∀ dir c, fs.isDir (dir ++ [c]) = true →
    fs.isDir dir = true ∧ Proper c ∧ '/' ∉ c ∧ '\x00' ∉ c

theorem isDir_of_walk {fs : FileSystem β} {dir cs p : List Name} (h : fs.walk dir cs = some p) :
    fs.isDir p = true := by
  induction cs generalizing dir with
  | nil =>
    simp only [walk, Option.ite_none_right_eq_some, Option.some.injEq] at h
    rw [← h.2]
    exact h.1
  | cons c cs ih =>
    simp only [walk, Option.ite_none_right_eq_some] at h
    exact ih h.2

theorem walk_append {fs : FileSystem β} {dir cs p : List Name} (h : fs.walk dir cs = some p)
    (cs' : List Name) : fs.walk dir (cs ++ cs') = fs.walk p cs' := by
  induction cs generalizing dir with
  | nil =>
    simp only [walk, Option.ite_none_right_eq_some, Option.some.injEq] at h
    rw [List.nil_append, h.2]
  | cons c cs ih =>
    simp only [walk, Option.ite_none_right_eq_some] at h
    rw [List.cons_append, walk, if_pos h.1, ih h.2]

theorem enter_of_proper {c : Name} (h : Proper c) (dir : List Name) :
    enter dir c = dir ++ [c] := by
  rw [enter, if_neg (by simp [h.1, h.2.1]), if_neg h.2.2]

/-- A walk enters the directories it names. -/
theorem exists_isDir_of_mem_walk {fs : FileSystem β} {dir cs p : List Name}
    (h : fs.walk dir cs = some p) {c : Name} (hc : c ∈ cs) (hproper : Proper c) :
    ∃ d, fs.isDir (d ++ [c]) = true := by
  induction cs generalizing dir with
  | nil => simp at hc
  | cons c' cs ih =>
    simp only [walk, Option.ite_none_right_eq_some] at h
    rcases List.mem_cons.mp hc with rfl | hmem
    · refine ⟨dir, ?_⟩
      rw [← enter_of_proper hproper]
      cases cs with
      | nil =>
        simp only [walk, Option.ite_none_right_eq_some] at h
        exact h.2.1
      | cons c'' cs =>
        simp only [walk, Option.ite_none_right_eq_some] at h
        exact h.2.1
    · exact ih h.2 hmem

/-- Walking down the names of a directory leads there. -/
theorem Rooted.walk_down {fs : FileSystem β} (hfs : fs.Rooted) {dir : List Name}
    (h : fs.isDir dir = true) : fs.walk [] dir = some dir := by
  induction dir using List.reverseRecOn with
  | nil => simp [walk, hfs.root]
  | append_singleton dir c ih =>
    obtain ⟨hdir, hproper, -, -⟩ := hfs.parent dir c h
    rw [walk_append (ih hdir), walk, if_pos hdir, enter_of_proper hproper]
    simp [walk, h]

/-- Climbing as often as a directory is deep leads to the root. -/
theorem Rooted.walk_up {fs : FileSystem β} (hfs : fs.Rooted) {dir : List Name}
    (h : fs.isDir dir = true) :
    fs.walk dir (List.replicate dir.length dotdot) = some [] := by
  induction dir using List.reverseRecOn with
  | nil => simp [walk, hfs.root]
  | append_singleton dir c ih =>
    have hup : enter (dir ++ [c]) dotdot = dir := by
      rw [enter, if_neg (by decide), if_pos rfl, List.dropLast_concat]
    rw [List.length_append, List.length_singleton, List.replicate_succ, walk, if_pos h, hup]
    exact ih (hfs.parent dir c h).1

theorem Rooted.proper_of_mem {fs : FileSystem β} (hfs : fs.Rooted) {dir : List Name}
    (h : fs.isDir dir = true) {c : Name} (hc : c ∈ dir) :
    Proper c ∧ '/' ∉ c ∧ '\x00' ∉ c := by
  induction dir using List.reverseRecOn with
  | nil => simp at hc
  | append_singleton dir c' ih =>
    obtain ⟨hdir, hname⟩ := hfs.parent dir c' h
    rcases List.mem_append.mp hc with hc | hc
    · exact ih hdir hc
    · rw [List.mem_singleton.mp hc]
      exact hname

/-- Opening sees the directories of a tree only. -/
theorem walk_congr {fs fs' : FileSystem β} (h : fs.isDir = fs'.isDir) (dir cs : List Name) :
    fs.walk dir cs = fs'.walk dir cs := by
  induction cs generalizing dir with
  | nil => simp only [walk, h]
  | cons c cs ih => simp only [walk, h, ih]

theorem openWrite_congr {fs fs' : FileSystem β} (h : fs.isDir = fs'.isDir) (path : Text) :
    fs.openWrite path = fs'.openWrite path := by
  simp only [openWrite, walk_congr h, h]

/-- When a path can be opened: it holds no NUL, its directory part can be walked, and what it
names is no directory. -/
theorem openWrite_eq_some_iff {fs : FileSystem β} {path : Text} {p : List Name} :
    fs.openWrite path = some p ↔
      '\x00' ∉ path ∧ ∃ dir, fs.walk [] (path.splitOn '/').dropLast = some dir ∧
        Proper ((path.splitOn '/').getLastD []) ∧ p = dir ++ [(path.splitOn '/').getLastD []] ∧
        fs.isDir p = false := by
  rw [openWrite]
  by_cases hnul : '\x00' ∈ path
  · simp [hnul]
  · rw [if_neg hnul]
    cases hwalk : fs.walk [] (path.splitOn '/').dropLast with
    | none => simp [hwalk]
    | some dir =>
      simp only [hwalk, Option.ite_none_right_eq_some, Option.some.injEq, hnul, not_false_eq_true,
        true_and]
      constructor
      · intro h
        obtain ⟨⟨hproper, hdir⟩, rfl⟩ := h
        exact ⟨dir, rfl, hproper, rfl, hdir⟩
      · intro h
        obtain ⟨dir, rfl, hproper, rfl, hdir⟩ := h
        exact ⟨⟨hproper, hdir⟩, rfl⟩

end FileSystem

/-- Components written one after the other, each with its separator. -/
def dirText (cs : List Name) : Text := cs.flatMap fun c => c ++ ['/']

@[simp] theorem dirText_nil : dirText [] = [] := rfl

theorem dirText_append (cs cs' : List Name) : dirText (cs ++ cs') = dirText cs ++ dirText cs' :=
  List.flatMap_append

/-- Splitting gives the components back. -/
theorem splitOn_dirText_append {cs : List Name} (h : ∀ c ∈ cs, '/' ∉ c) (t : Text) :
    (dirText cs ++ t).splitOn '/' = cs ++ t.splitOn '/' := by
  induction cs with
  | nil => rfl
  | cons c cs ih =>
    have hc : c.splitOn '/' = [c] := List.splitOn_eq_singleton (h c (by simp))
    have hrest := ih fun c' hc' => h c' (by simp [hc'])
    have hcons : dirText (c :: cs) ++ t = c ++ '/' :: (dirText cs ++ t) := by simp [dirText]
    rw [hcons, List.splitOn_append_cons_self, hc, hrest]
    rfl

theorem notMem_dirText {x : Char} {cs : List Name} (hx : x ≠ '/') (h : ∀ c ∈ cs, x ∉ c) :
    x ∉ dirText cs := by
  simp only [dirText, List.mem_flatMap, List.mem_append, List.mem_singleton, hx, or_false]
  intro hmem
  obtain ⟨c, hc, hxc⟩ := hmem
  exact h c hc hxc

/-- Opening a path written component by component. -/
theorem FileSystem.openWrite_dirText_append {β : Type} {fs : FileSystem β} {cs dir : List Name}
    {leaf : Name} (hcs : ∀ c ∈ cs, '/' ∉ c ∧ '\x00' ∉ c) (hleaf : '/' ∉ leaf ∧ '\x00' ∉ leaf)
    (hproper : Proper leaf) (hwalk : fs.walk [] cs = some dir)
    (hfile : fs.isDir (dir ++ [leaf]) = false) :
    fs.openWrite (dirText cs ++ leaf) = some (dir ++ [leaf]) := by
  have hsplit : (dirText cs ++ leaf).splitOn '/' = cs ++ [leaf] := by
    rw [splitOn_dirText_append fun c hc => (hcs c hc).1, List.splitOn_eq_singleton hleaf.1]
  have hnul : '\x00' ∉ dirText cs := notMem_dirText (by decide) fun c hc => (hcs c hc).2
  rw [openWrite_eq_some_iff, hsplit, List.dropLast_concat, List.getLastD_concat]
  exact ⟨by simp [hnul, hleaf.2], dir, hwalk, hproper, rfl, hfile⟩

/-! ## Components of a glued path -/

/-- A suffix without separators only extends the last component. -/
theorem splitOn_append_of_notMem {α : Type} [DecidableEq α] {x : α} (a : List α) {b : List α}
    (hb : x ∉ b) :
    (a ++ b).splitOn x = (a.splitOn x).dropLast ++ [(a.splitOn x).getLastD [] ++ b] := by
  obtain ⟨s, l, rfl, hs, hl⟩ := exists_terminated_append (d := x) a
  rcases List.eq_nil_or_concat s with rfl | ⟨s, y, rfl⟩
  · rw [List.nil_append, List.splitOn_eq_singleton (by simp [hl, hb]), List.splitOn_eq_singleton hl]
    rfl
  · have hy : y = x := by
      rcases hs with h | h
      · simp at h
      · simpa using h
    subst hy
    have hlb : (l ++ b).splitOn y = [l ++ b] := List.splitOn_eq_singleton (by simp [hl, hb])
    simp [List.splitOn_append_cons_self, List.splitOn_eq_singleton hl, hlb]

end Unix
