import KubVagrant.Lib.Shell
import KubVagrant.Lib.IPv4

/-!
# The file edits of `install_common.sh`

Step [1] appends `IP HOSTNAME` to `/etc/hosts` unless `grep -i "$IP"` finds a line there,
and step [2] puts a `#` in front of what `sed` matches in `/etc/fstab`.  Both patterns are
unanchored: the dots of the address stand for any character, and `.+ swap .+` matches any
line with the word between spaces.

`commentsSwap_iff` compares step [2] with the field grammar of `/etc/fstab`, and
`converges_iff` says when running both steps again changes nothing and leaves the host
registered.

## Main definitions

* `addHost`, `commentSwap`, `provision` — the two steps.
* `ActiveSwap`, `SpacedSwap` — what step [2] is for, and what it matches.
* `Names`, `Resembles` — what step [1] is for, and what its guard matches.
-/

namespace KubVagrant
open Unix

/-! ## Step [2] -/

/-- The pattern of `sed -i.bak -r 's/(.+ swap .+)/#\1/'`. -/
def swapPattern : Regex Char := .seq (.plus .any) (.seq (.word " swap ".toList) (.plus .any))

/-- Step [2] on the contents of `/etc/fstab`. -/
def commentSwap (fstab : Text) : Text := sed swapPattern (fun m => '#' :: m) fstab

/-- The word `swap` between two spaces, with text before and after. -/
def SpacedSwap (line : Text) : Prop :=
  ∃ a b, a ≠ [] ∧ b ≠ [] ∧ line = a ++ " swap ".toList ++ b

/-- The fields of an entry of `/etc/fstab`, up to a comment. -/
def entryFields (line : Text) : List Text :=
  (fields line).takeWhile fun w => w.head? ≠ some '#'

/-- An active swap entry: the third of at least four fields, none of them in a comment, is
`swap`. -/
def ActiveSwap (line : Text) : Prop :=
  4 ≤ (entryFields line).length ∧ (entryFields line)[2]? = some "swap".toList

instance (line : Text) : Decidable (ActiveSwap line) := inferInstanceAs (Decidable (_ ∧ _))

theorem mem_lang_swapPattern_iff (x : Text) : x ∈ swapPattern.lang ↔ SpacedSwap x := by
  rw [swapPattern, Regex.mem_lang_seq]
  simp only [Regex.mem_lang_seq, Regex.mem_lang_word, Regex.mem_lang_plus_any]
  constructor
  · intro h
    rcases h with ⟨a, ha, _, ⟨_, rfl, b, hb, rfl⟩, rfl⟩
    exact ⟨a, b, ha, hb, by rw [List.append_assoc]⟩
  · intro h
    rcases h with ⟨a, b, ha, hb, rfl⟩
    exact ⟨a, ha, _, ⟨_, rfl, b, hb, rfl⟩, by rw [List.append_assoc]⟩

/-- The pattern occurs in a line only if it matches the whole line. -/
theorem occurs_swapPattern_iff (line : Text) :
    swapPattern.occurs line = true ↔ SpacedSwap line := by
  rw [Regex.occurs_iff]
  constructor
  · intro hocc
    rcases hocc with ⟨x, y, z, rfl, hy⟩
    obtain ⟨a, b, ha, hb, rfl⟩ := (mem_lang_swapPattern_iff y).mp hy
    exact ⟨x ++ a, b ++ z, by simp [ha], by simp [hb], by simp only [List.append_assoc]⟩
  · intro h
    exact ⟨[], line, [], by simp, (mem_lang_swapPattern_iff line).mpr h⟩

instance (line : Text) : Decidable (SpacedSwap line) :=
  decidable_of_iff _ (occurs_swapPattern_iff line)

/-- What `sed` does to one line. -/
def commentLine (line : Text) : Text := if SpacedSwap line then '#' :: line else line

theorem commentSwap_eq (fstab : Text) : commentSwap fstab = mapLines '\n' commentLine fstab := by
  refine mapLines_congr fun line _ => ?_
  by_cases h : SpacedSwap line
  · rw [Regex.replaceFirst_of_mem ((mem_lang_swapPattern_iff line).mpr h), commentLine, if_pos h]
  · rw [Regex.replaceFirst_of_not_occurs (by rwa [occurs_swapPattern_iff]), commentLine, if_neg h]

theorem newline_notMem_commentLine (line : Text) (h : '\n' ∉ line) : '\n' ∉ commentLine line := by
  unfold commentLine
  split
  · simp [h]
  · exact h

theorem commentLine_ne_nil (line : Text) (h : line ≠ []) : commentLine line ≠ [] := by
  unfold commentLine
  split
  · simp
  · exact h

/-- Step [2] line by line. -/
theorem lines_commentSwap (fstab : Text) :
    lines '\n' (commentSwap fstab) = (lines '\n' fstab).map commentLine := by
  rw [commentSwap_eq, lines_mapLines newline_notMem_commentLine commentLine_ne_nil]

/-- A line that `sed` comments stays one that it comments. -/
theorem spacedSwap_cons {line : Text} (h : SpacedSwap line) (c : Char) :
    SpacedSwap (c :: line) := by
  obtain ⟨a, b, -, hb, rfl⟩ := h
  exact ⟨c :: a, b, by simp, hb, by simp⟩

theorem commentLine_eq_iff (line : Text) :
    commentLine line = (if ActiveSwap line then '#' :: line else line) ↔
      (SpacedSwap line ↔ ActiveSwap line) := by
  have hne : '#' :: line ≠ line := List.cons_ne_self '#' line
  rw [commentLine]
  by_cases hs : SpacedSwap line <;> by_cases ha : ActiveSwap line <;> simp [hs, ha, hne, hne.symm]

/-- Step [2] comments the active swap entries and leaves every other line as it is. -/
def CommentsSwap (fstab : Text) : Prop :=
  lines '\n' (commentSwap fstab) =
    (lines '\n' fstab).map fun line => if ActiveSwap line then '#' :: line else line

/-- **Step [2], exactly**: the active swap entries must be the lines with the word between
spaces. -/
theorem commentsSwap_iff (fstab : Text) :
    CommentsSwap fstab ↔ ∀ line ∈ lines '\n' fstab, (SpacedSwap line ↔ ActiveSwap line) := by
  rw [CommentsSwap, lines_commentSwap, List.map_inj_left]
  exact forall₂_congr fun line _ => commentLine_eq_iff line

/-- A swap entry written with tabs survives, and a comment is commented again. -/
theorem commentsSwap_fails :
    lines '\n' (commentSwap "# was on swap before\n/dev/sda2\tnone\tswap\tsw\t0\t0\n".toList) =
        ["## was on swap before".toList, "/dev/sda2\tnone\tswap\tsw\t0\t0".toList] ∧
      ¬ CommentsSwap "# was on swap before\n/dev/sda2\tnone\tswap\tsw\t0\t0\n".toList := by
  have hlines : lines '\n'
      (commentSwap "# was on swap before\n/dev/sda2\tnone\tswap\tsw\t0\t0\n".toList) =
        ["## was on swap before".toList, "/dev/sda2\tnone\tswap\tsw\t0\t0".toList] := by
    decide
  refine ⟨hlines, fun h => ?_⟩
  rw [CommentsSwap, hlines] at h
  exact absurd h (by decide)

/-! ### By the shape of a line

`sed` looks for the word between two spaces, `/etc/fstab` is read by fields.  An active entry is
missed unless a space stands on both sides of its third field, or of the word elsewhere in the
line; and a line is hit without being an active entry if the word stands in a comment, in a line
of too few fields, or in another field than the third. -/

theorem swap_not_blank : ∀ c ∈ "swap".toList, isBlank c = false := by simp [isBlank]

/-- Active entries by their first four fields. -/
theorem activeSwap_iff_fields (line : Text) :
    ActiveSwap line ↔ 4 ≤ (fields line).length ∧ (fields line)[2]? = some "swap".toList ∧
      ∀ w ∈ (fields line).take 4, w.head? ≠ some '#' := by
  unfold ActiveSwap entryFields
  generalize fields line = ws
  generalize "swap".toList = swap
  have hcons : ∀ (w : Text) (ws : List Text), (w :: ws).takeWhile (fun w => w.head? ≠ some '#') =
      if w.head? ≠ some '#' then w :: ws.takeWhile (fun w => w.head? ≠ some '#') else [] := by
    intro w ws
    simp [List.takeWhile_cons]
  rcases ws with _ | ⟨a, _ | ⟨b, _ | ⟨c, _ | ⟨d, ws⟩⟩⟩⟩
  · simp
  · rw [hcons]
    split <;> simp
  · rw [hcons, hcons]
    split_ifs <;> simp
  · rw [hcons, hcons, hcons]
    split_ifs <;> simp
  · rw [hcons, hcons, hcons, hcons]
    split_ifs with ha hb hc hd <;> simp_all

/-- An active entry in three pieces: two fields, the word, and at least one more field, neither
in a comment. -/
structure SwapEntry (before after : Text) : Prop where
  wordAt : WordAt isBlank before "swap".toList after
  two : (fields before).length = 2
  before_comment : ∀ w ∈ fields before, w.head? ≠ some '#'
  after_comment : ∃ w, (fields after).head? = some w ∧ w.head? ≠ some '#'

theorem SwapEntry.fields_eq {before after : Text} (h : SwapEntry before after) :
    fields (before ++ "swap".toList ++ after) =
      fields before ++ "swap".toList :: fields after := h.wordAt.wordsBy_eq

theorem activeSwap_iff_exists (line : Text) :
    ActiveSwap line ↔
      ∃ before after, line = before ++ "swap".toList ++ after ∧ SwapEntry before after := by
  rw [activeSwap_iff_fields]
  constructor
  · intro h
    obtain ⟨hlen, hswap, hcomment⟩ := h
    have hfour : ∃ a b c d ws, fields line = a :: b :: c :: d :: ws := by
      rcases hws : fields line with _ | ⟨a, _ | ⟨b, _ | ⟨c, _ | ⟨d, ws⟩⟩⟩⟩
      · simp [hws] at hlen
      · simp [hws] at hlen
      · simp [hws] at hlen
      · simp [hws] at hlen
      · exact ⟨a, b, c, d, ws, rfl⟩
    obtain ⟨a, b, c, d, ws, hws⟩ := hfour
    rw [hws] at hswap hcomment
    simp only [List.getElem?_cons_succ, List.getElem?_cons_zero, Option.some.injEq] at hswap
    subst hswap
    have hsplit : wordsBy isBlank line = [a, b] ++ "swap".toList :: d :: ws := hws
    obtain ⟨x, y, rfl, hat, hx, hy⟩ := exists_wordAt hsplit
    refine ⟨x, y, rfl, hat, by rw [fields, hx]; rfl, fun w hw => ?_, d, by rw [fields, hy]; rfl,
      hcomment d (by simp)⟩
    rw [fields, hx] at hw
    have hmem : w = a ∨ w = b := by simpa using hw
    exact hcomment w (by rcases hmem with rfl | rfl <;> simp)
  · intro h
    obtain ⟨x, y, rfl, h⟩ := h
    obtain ⟨w, hw, hcomment⟩ := h.after_comment
    obtain ⟨a, b, hx⟩ := List.length_eq_two.mp h.two
    obtain ⟨ws, hy⟩ := List.head?_eq_some_iff.mp hw
    have hnone := h.before_comment
    rw [hx] at hnone
    have hhash : "swap".toList.head? ≠ some '#' := by decide
    rw [h.fields_eq, hx, hy]
    generalize "swap".toList = swap at hhash
    refine ⟨by simp, by simp, ?_⟩
    intro v hv
    simp only [List.cons_append, List.nil_append, List.take_succ_cons, List.take_zero,
      List.mem_cons, List.not_mem_nil, or_false] at hv
    rcases hv with rfl | rfl | rfl | rfl
    · exact hnone _ (by simp)
    · exact hnone _ (by simp)
    · exact hhash
    · exact hcomment

/-- **Which active entries are found**: those with a space on both sides of the third field, or of
the word in front of it or behind it. -/
theorem spacedSwap_iff {before after : Text} (h : SwapEntry before after) :
    SpacedSwap (before ++ "swap".toList ++ after) ↔
      (before.getLast? = some ' ' ∧ after.head? = some ' ') ∨
        (∃ a b, a ≠ [] ∧ before = a ++ " swap ".toList ++ b) ∨
          ∃ a b, b ≠ [] ∧ after = a ++ " swap ".toList ++ b := by
  have hword : "swap".toList = ['s', 'w', 'a', 'p'] := by decide
  have hspaced : " swap ".toList = [' ', 's', 'w', 'a', 'p', ' '] := by decide
  have hbefore : fields before ≠ [] := List.ne_nil_of_length_pos (by rw [h.two]; omega)
  have hafter : fields after ≠ [] := by
    obtain ⟨w, hw, -⟩ := h.after_comment
    exact List.ne_nil_of_mem (List.mem_of_head? hw)
  have hblank : isBlank ' ' = true := by decide
  rw [hword, hspaced]
  unfold SpacedSwap
  rw [hspaced]
  constructor
  · intro hsplit
    obtain ⟨a, b, ha, hb, heq⟩ := hsplit
    rw [List.append_assoc, List.append_assoc] at heq
    rcases List.append_eq_append_iff.mp heq with ⟨u, rfl, hu⟩ | ⟨u, rfl, hu⟩
    · -- the occurrence starts behind the first two fields, and it cannot cut the third
      rcases u with _ | ⟨c₁, _ | ⟨c₂, _ | ⟨c₃, _ | ⟨c₄, u⟩⟩⟩⟩ <;> simp at hu
      right; right
      exact ⟨u, b, hb, by simpa using hu.2.2.2.2⟩
    · rcases u with _ | ⟨c₁, _ | ⟨c₂, _ | ⟨c₃, _ | ⟨c₄, _ | ⟨c₅, _ | ⟨c₆, u⟩⟩⟩⟩⟩⟩ <;> simp at hu
      · left
        obtain ⟨rfl, rfl⟩ := hu
        exact ⟨by simp, rfl⟩
      · right; left
        obtain ⟨rfl, rfl, rfl, rfl, rfl, rfl, -⟩ := hu
        exact ⟨a, u, ha, by simp⟩
  · intro hfound
    rcases hfound with ⟨hx, hy⟩ | ⟨a, b, ha, rfl⟩ | ⟨a, b, hb, rfl⟩
    · obtain ⟨a, rfl⟩ := List.getLast?_eq_some_iff.mp hx
      obtain ⟨b, rfl⟩ := List.head?_eq_some_iff.mp hy
      refine ⟨a, b, ?_, ?_, by simp⟩
      · rintro rfl
        exact hbefore (wordsBy_cons_sep [] hblank)
      · rintro rfl
        exact hafter (wordsBy_cons_sep [] hblank)
    · exact ⟨a, b ++ ['s', 'w', 'a', 'p'] ++ after, ha, by simp, by simp⟩
    · exact ⟨before ++ ['s', 'w', 'a', 'p'] ++ a, b, by simp, hb, by simp⟩

/-- **Which other lines are hit**: those with the word between spaces where there are fewer than
four fields, or a comment among the first four, or something else is the third field. -/
theorem spacedSwap_and_not_activeSwap_iff (line : Text) :
    SpacedSwap line ∧ ¬ ActiveSwap line ↔
      ∃ a b, a ≠ [] ∧ b ≠ [] ∧ line = a ++ " swap ".toList ++ b ∧
        fields line = fields a ++ "swap".toList :: fields b ∧
          ((fields line).length < 4 ∨ (fields line)[2]? ≠ some "swap".toList ∨
            ∃ w ∈ (fields line).take 4, w.head? = some '#') := by
  have hfields : ∀ a b : Text, fields (a ++ " swap ".toList ++ b) =
      fields a ++ "swap".toList :: fields b := by
    intro a b
    have hblank : isBlank ' ' = true := by decide
    have hspaced : " swap ".toList = ' ' :: ("swap".toList ++ [' ']) := by decide
    have hne : "swap".toList ≠ [] := by decide
    rw [hspaced, List.append_assoc, List.cons_append, List.append_assoc, fields,
      wordsBy_append_cons a _ hblank]
    exact congrArg _ (wordsBy_append_of_forall hne swap_not_blank hblank b)
  rw [activeSwap_iff_fields, not_and_or, not_and_or, not_le]
  simp only [not_forall, not_not, exists_prop]
  constructor
  · intro h
    obtain ⟨⟨a, b, ha, hb, rfl⟩, hnot⟩ := h
    exact ⟨a, b, ha, hb, rfl, hfields a b, hnot⟩
  · intro h
    obtain ⟨a, b, ha, hb, rfl, -, hnot⟩ := h
    exact ⟨⟨a, b, ha, hb, rfl⟩, hnot⟩

/-! ## Step [1] -/

/-- A host name, over letters, digits, hyphens and dots. -/
structure HostName where
  name : Text
  ne_nil : name ≠ []
  valid : ∀ c ∈ name, c.isAlphanum = true ∨ c = '-' ∨ c = '.'

/-- What `echo "$IP $HOSTNAME "` prints, without the newline. -/
def hostEntry (ip : IPv4) (host : HostName) : Text :=
  ip.text ++ ' ' :: (host.name ++ [' '])

/-- Step [1] on the contents of `/etc/hosts`: `host_exist` counts the lines that
`grep -i "$IP"` prints. -/
def addHost (ip : IPv4) (host : HostName) (hosts : Text) : Text :=
  let host_exist := (grep (basicPatternIgnoreCase ip.text) hosts).length
  if host_exist = 0 then hosts ++ (hostEntry ip host ++ ['\n']) else hosts

/-- The address and the names of a line of `/etc/hosts`, up to a comment. -/
def hostFields (line : Text) : List Text := fields (line.takeWhile fun c => c ≠ '#')

/-- The line gives the address this host name. -/
def Names (ip : IPv4) (host : HostName) (line : Text) : Prop :=
  (hostFields line).head? = some ip.text ∧ host.name ∈ (hostFields line).tail

instance (ip : IPv4) (host : HostName) (line : Text) : Decidable (Names ip host line) :=
  inferInstanceAs (Decidable (_ ∧ _))

/-- Somewhere in the line stands the address, with any characters for its dots. -/
def Resembles (ip : IPv4) (line : Text) : Prop :=
  ∃ x y z, x ++ y ++ z = line ∧ List.Forall₂ (fun c a => c = '.' ∨ a = c) ip.text y

theorem occurs_ip_iff (ip : IPv4) (line : Text) :
    (basicPatternIgnoreCase ip.text).occurs line = true ↔ Resembles ip line := by
  rw [Regex.occurs_iff, Resembles]
  simp only [mem_lang_basicPatternIgnoreCase_iff fun c hc => IPv4.mem_text hc]

theorem host_exist_eq_zero_iff (ip : IPv4) (hosts : Text) :
    (grep (basicPatternIgnoreCase ip.text) hosts).length = 0 ↔
      ∀ line ∈ lines '\n' hosts, ¬ Resembles ip line := by
  rw [List.length_eq_zero_iff, grep, List.filter_eq_nil_iff]
  exact forall₂_congr fun line _ => by rw [← occurs_ip_iff]

theorem addHost_of_resembles {ip : IPv4} {hosts line : Text} (host : HostName)
    (hline : line ∈ lines '\n' hosts) (h : Resembles ip line) : addHost ip host hosts = hosts := by
  rw [addHost, if_neg]
  rw [host_exist_eq_zero_iff]
  exact fun hnone => hnone line hline h

theorem addHost_of_not_resembles {ip : IPv4} {hosts : Text} (host : HostName)
    (h : ∀ line ∈ lines '\n' hosts, ¬ Resembles ip line) :
    addHost ip host hosts = hosts ++ (hostEntry ip host ++ ['\n']) := by
  rw [addHost, if_pos ((host_exist_eq_zero_iff ip hosts).mpr h)]

/-! What is appended is one line, and it names the host. -/

theorem isBlank_of_valid {c : Char} (h : c.isAlphanum = true ∨ c = '-' ∨ c = '.') :
    isBlank c = false ∧ c ≠ '#' := by
  by_cases hb : isBlank c = true ∨ c = '#'
  · simp only [isBlank, Bool.or_eq_true, beq_iff_eq] at hb
    rcases hb with ((rfl | rfl) | rfl) | rfl <;> exact absurd h (by decide)
  · simpa [not_or] using hb

theorem valid_of_mem_text {ip : IPv4} {c : Char} (hc : c ∈ ip.text) :
    c.isAlphanum = true ∨ c = '-' ∨ c = '.' := by
  rcases IPv4.mem_text hc with h | h
  · exact Or.inr (Or.inr h)
  · exact Or.inl (by simp [Char.isAlphanum, h])

theorem newline_notMem_hostEntry (ip : IPv4) (host : HostName) : '\n' ∉ hostEntry ip host := by
  have hnl : ¬ ('\n'.isAlphanum = true ∨ '\n' = '-' ∨ '\n' = '.') := by decide
  have hip : '\n' ∉ ip.text := fun h => hnl (valid_of_mem_text h)
  have hhost : '\n' ∉ host.name := fun h => hnl (host.valid _ h)
  simp [hostEntry, hip, hhost]

theorem hostFields_hostEntry (ip : IPv4) (host : HostName) :
    hostFields (hostEntry ip host) = [ip.text, host.name] := by
  have hip : ∀ c ∈ ip.text, isBlank c = false :=
    fun c hc => (isBlank_of_valid (valid_of_mem_text hc)).1
  have hhost : ∀ c ∈ host.name, isBlank c = false :=
    fun c hc => (isBlank_of_valid (host.valid c hc)).1
  have hspace : isBlank ' ' = true := by decide
  have hcomment : (hostEntry ip host).takeWhile (fun c => c ≠ '#') = hostEntry ip host := by
    rw [List.takeWhile_eq_self_iff]
    intro c hc
    simp only [hostEntry, List.mem_append, List.mem_cons, List.not_mem_nil, or_false] at hc
    rcases hc with hc | rfl | hc | rfl
    · simpa using (isBlank_of_valid (valid_of_mem_text hc)).2
    · decide
    · simpa using (isBlank_of_valid (host.valid c hc)).2
    · decide
  rw [hostFields, hcomment, hostEntry, fields,
    wordsBy_append_of_forall (IPv4.text_ne_nil ip) hip hspace,
    wordsBy_append_of_forall host.ne_nil hhost hspace, wordsBy_nil]

theorem names_hostEntry (ip : IPv4) (host : HostName) : Names ip host (hostEntry ip host) := by
  rw [Names, hostFields_hostEntry]
  simp

/-- The address as it is written is one of the texts the guard takes for it. -/
theorem resembles_of_occurrence {ip : IPv4} {line : Text} (h : ip.text <:+: line) :
    Resembles ip line := by
  obtain ⟨x, z, rfl⟩ := h
  exact ⟨x, ip.text, z, rfl, List.forall₂_same.mpr fun _ _ => Or.inr rfl⟩

theorem resembles_of_names {ip : IPv4} {host : HostName} {line : Text} (h : Names ip host line) :
    Resembles ip line := by
  have hmem : ip.text ∈ hostFields line := List.mem_of_head? h.1
  have hword : ip.text <:+: line.takeWhile fun c => c ≠ '#' := infix_of_mem_wordsBy hmem
  exact resembles_of_occurrence (hword.trans (List.takeWhile_prefix _).isInfix)

/-- The lines of `/etc/hosts` after an append: the entry ends up behind the undelimited last
line, if there is one. -/
theorem lines_append_hostEntry (ip : IPv4) (host : HostName) {s l : Text}
    (hs : Terminated '\n' s) (hl : '\n' ∉ l) :
    lines '\n' (s ++ l ++ (hostEntry ip host ++ ['\n'])) =
      lines '\n' s ++ [l ++ hostEntry ip host] := by
  rw [List.append_assoc, lines_append hs,
    lines_append_undelimited hl (newline_notMem_hostEntry ip host), lines_nil]

/-- After step [1] the guard finds a line, so the step never appends twice. -/
theorem addHost_addHost (ip : IPv4) (host : HostName) (hosts : Text) :
    addHost ip host (addHost ip host hosts) = addHost ip host hosts := by
  by_cases h : ∀ line ∈ lines '\n' hosts, ¬ Resembles ip line
  · obtain ⟨s, l, rfl, hs, hl⟩ := exists_terminated_append (d := '\n') hosts
    have hline : l ++ hostEntry ip host ∈
        lines '\n' (s ++ l ++ (hostEntry ip host ++ ['\n'])) := by
      rw [lines_append_hostEntry ip host hs hl]
      simp
    have hip : ip.text <:+: l ++ hostEntry ip host :=
      List.infix_append_of_infix_right (List.infix_append [] ip.text _)
    rw [addHost_of_not_resembles host h]
    exact addHost_of_resembles host hline (resembles_of_occurrence hip)
  · simp only [not_forall, not_not] at h
    obtain ⟨line, hline, h⟩ := h
    rw [addHost_of_resembles host hline h, addHost_of_resembles host hline h]

/-! ## Both steps, again and again -/

/-- The files the two steps read and write. -/
structure Machine where
  hosts : Text
  fstab : Text
  fstabBak : Option Text
  deriving DecidableEq

/-- Steps [1] and [2].  `sed -i.bak` keeps the old `/etc/fstab`. -/
def provision (ip : IPv4) (host : HostName) (m : Machine) : Machine where
  hosts := addHost ip host m.hosts
  fstab := commentSwap m.fstab
  fstabBak := some m.fstab

/-- A step that changes nothing the second time changes nothing any later time. -/
theorem iterate_eq_apply_iff {σ : Type} (f : σ → σ) (s : σ) :
    (∀ n, 1 ≤ n → f^[n] s = f s) ↔ f (f s) = f s := by
  constructor
  · intro h
    exact h 2 (by omega)
  · intro h n hn
    obtain ⟨k, rfl⟩ := Nat.exists_eq_add_of_le' hn
    rw [Function.iterate_succ_apply]
    exact Function.iterate_fixed h k

theorem hosts_iterate (ip : IPv4) (host : HostName) (n : ℕ) (m : Machine) :
    ((provision ip host)^[n] m).hosts = (addHost ip host)^[n] m.hosts := by
  induction n generalizing m with
  | zero => rfl
  | succ n ih => rw [Function.iterate_succ_apply, ih, Function.iterate_succ_apply]; rfl

theorem fstab_iterate (ip : IPv4) (host : HostName) (n : ℕ) (m : Machine) :
    ((provision ip host)^[n] m).fstab = commentSwap^[n] m.fstab := by
  induction n generalizing m with
  | zero => rfl
  | succ n ih => rw [Function.iterate_succ_apply, ih, Function.iterate_succ_apply]; rfl

/-- Step [2] settles after one run if and only if it had nothing to comment. -/
theorem commentSwap_commentSwap_iff (fstab : Text) :
    commentSwap (commentSwap fstab) = commentSwap fstab ↔
      ∀ line ∈ lines '\n' fstab, ¬ SpacedSwap line := by
  constructor
  · intro h line hline hswap
    have hmap := congrArg (lines '\n') h
    rw [lines_commentSwap, lines_commentSwap, List.map_map, List.map_inj_left] at hmap
    have htwice := hmap line hline
    have hcommented : commentLine line = '#' :: line := if_pos hswap
    rw [Function.comp_apply, hcommented, commentLine, if_pos (spacedSwap_cons hswap '#')] at htwice
    exact List.cons_ne_self _ _ htwice
  · intro h
    have hid : commentSwap fstab = fstab := by
      rw [commentSwap_eq, mapLines_congr (g := fun line => line), mapLines_id]
      exact fun line hline => if_neg (h line hline)
    rw [hid, hid]

/-- Running the steps again changes neither file, no line of `/etc/hosts` is lost, and the
host is registered. -/
def Converges (ip : IPv4) (host : HostName) (m : Machine) : Prop :=
  (∀ n, 1 ≤ n → ((provision ip host)^[n] m).hosts = (provision ip host m).hosts ∧
      ((provision ip host)^[n] m).fstab = (provision ip host m).fstab) ∧
    (lines '\n' m.hosts).Sublist (lines '\n' (provision ip host m).hosts) ∧
    ∃ line ∈ lines '\n' (provision ip host m).hosts, Names ip host line

/-- Appending the entry registers the host, and it keeps every line of a file that ends with a
newline only. -/
theorem append_hostEntry_iff (ip : IPv4) (host : HostName) (hosts : Text) :
    ((lines '\n' hosts).Sublist (lines '\n' (hosts ++ (hostEntry ip host ++ ['\n']))) ∧
        ∃ line ∈ lines '\n' (hosts ++ (hostEntry ip host ++ ['\n'])), Names ip host line) ↔
      Terminated '\n' hosts := by
  obtain ⟨s, l, rfl, hs, hl⟩ := exists_terminated_append (d := '\n') hosts
  rw [lines_append_hostEntry ip host hs hl, lines_append hs]
  by_cases hnil : l = []
  · subst hnil
    constructor
    · intro _
      simpa using hs
    · intro _
      exact ⟨by simp, hostEntry ip host, by simp, names_hostEntry ip host⟩
  · -- the entry would continue the last line, and that line is lost
    rw [lines_undelimited hnil hl]
    constructor
    · intro h
      have heq := h.1.eq_of_length (by simp)
      simp [hostEntry] at heq
    · intro h
      have hlast : (s ++ l).getLast? = some '\n' := h.resolve_left (by simp [hnil])
      rw [List.getLast?_append_of_ne_nil _ hnil] at hlast
      exact absurd (List.mem_of_getLast? hlast) hl

/-- Step [1] registers the host and keeps every line: either the host is registered already, or
the guard finds nothing and the file ends with a newline. -/
theorem registers_iff (ip : IPv4) (host : HostName) (hosts : Text) :
    ((lines '\n' hosts).Sublist (lines '\n' (addHost ip host hosts)) ∧
        ∃ line ∈ lines '\n' (addHost ip host hosts), Names ip host line) ↔
      (∃ line ∈ lines '\n' hosts, Names ip host line) ∨
        (∀ line ∈ lines '\n' hosts, ¬ Resembles ip line) ∧ Terminated '\n' hosts := by
  by_cases hfound : ∀ line ∈ lines '\n' hosts, ¬ Resembles ip line
  · have hnames : ¬ ∃ line ∈ lines '\n' hosts, Names ip host line := by
      intro hnamed
      rcases hnamed with ⟨line, hline, h⟩
      exact hfound line hline (resembles_of_names h)
    rw [addHost_of_not_resembles host hfound, append_hostEntry_iff, or_iff_right hnames,
      and_iff_right hfound]
  · have hnone := hfound
    simp only [not_forall, not_not] at hfound
    obtain ⟨line, hline, h⟩ := hfound
    rw [addHost_of_resembles host hline h, and_iff_right (List.Sublist.refl _)]
    exact (or_iff_left fun hright => hnone hright.1).symm

/-- **Provisioning converges, exactly**: step [2] must find nothing to comment, and step [1]
must find the host registered, or nothing that looks like its address in a file that ends with
a newline. -/
theorem converges_iff (ip : IPv4) (host : HostName) (m : Machine) :
    Converges ip host m ↔
      (∀ line ∈ lines '\n' m.fstab, ¬ SpacedSwap line) ∧
        ((∃ line ∈ lines '\n' m.hosts, Names ip host line) ∨
          (∀ line ∈ lines '\n' m.hosts, ¬ Resembles ip line) ∧ Terminated '\n' m.hosts) := by
  have hhosts : ∀ n, 1 ≤ n →
      ((provision ip host)^[n] m).hosts = (provision ip host m).hosts := by
    intro n hn
    rw [hosts_iterate]
    exact (iterate_eq_apply_iff _ _).mpr (addHost_addHost ip host m.hosts) n hn
  have hfstab : (∀ n, 1 ≤ n →
      ((provision ip host)^[n] m).fstab = (provision ip host m).fstab) ↔
        ∀ line ∈ lines '\n' m.fstab, ¬ SpacedSwap line := by
    rw [← commentSwap_commentSwap_iff, ← iterate_eq_apply_iff]
    simp only [fstab_iterate]
    exact Iff.rfl
  rw [Converges, ← hfstab]
  refine and_congr ?_ (registers_iff ip host m.hosts)
  exact forall₂_congr fun n hn => and_iff_right (hhosts n hn)

/-- The address of `kmaster` in the Vagrantfile. -/
def kmasterIP : IPv4 where
  a := ⟨"192".toList, by decide, List.all_iff_forall_prop.mp (by decide), by decide⟩
  b := ⟨"168".toList, by decide, List.all_iff_forall_prop.mp (by decide), by decide⟩
  c := ⟨"236".toList, by decide, List.all_iff_forall_prop.mp (by decide), by decide⟩
  d := ⟨"10".toList, by decide, List.all_iff_forall_prop.mp (by decide), by decide⟩

/-- The host name of `kmaster` in the Vagrantfile. -/
def kmaster : HostName := ⟨"kmaster".toList, by decide, List.all_iff_forall_prop.mp (by decide)⟩

/-- A host whose address begins with that of `kmaster` is known, and there is a swap partition. -/
def freshBox : Machine where
  hosts := "192.168.236.100 registry\n".toList
  fstab := "/dev/sda2 none swap sw 0 0\n".toList
  fstabBak := none

/-- `kmaster` is never registered, and every run comments the swap entry once more. -/
theorem converges_fails :
    (provision kmasterIP kmaster freshBox).hosts = "192.168.236.100 registry\n".toList ∧
      (provision kmasterIP kmaster freshBox).fstab = "#/dev/sda2 none swap sw 0 0\n".toList ∧
      (provision kmasterIP kmaster (provision kmasterIP kmaster freshBox)).fstab =
        "##/dev/sda2 none swap sw 0 0\n".toList ∧
      ¬ Converges kmasterIP kmaster freshBox := by
  have hhosts : (provision kmasterIP kmaster freshBox).hosts =
      "192.168.236.100 registry\n".toList := by decide
  refine ⟨hhosts, by decide, by decide, fun h => ?_⟩
  obtain ⟨line, hline, hnames⟩ := h.2.2
  rw [hhosts] at hline
  have hall : ∀ line ∈ lines '\n' "192.168.236.100 registry\n".toList,
      ¬ Names kmasterIP kmaster line := by decide
  exact hall line hline hnames

end KubVagrant
