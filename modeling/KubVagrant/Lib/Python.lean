import KubVagrant.Lib.Lines
import KubVagrant.Lib.Words
import Mathlib.Logic.Function.Basic

/-!
# The pieces of Python that scripts use

Python 2 strings, dictionaries and list objects, as far as small scripts need them.  List
objects live in a heap and are named by references, so that extending one in place is
visible under every name it has, and under no other.

## Main definitions

* `strip`, `unpack2` — `str.strip()`, and the assignment `(a, b) = parts`.
* `Dict`, `Dict.truthy` — dictionaries, and the test `if d.get(k)`.
* `Heap`, `Heap.new`, `Heap.extend` — list objects, created and extended in place.
-/

namespace Python
open Unix

/-- The characters `str.strip()` removes. -/
def isSpace (c : Char) : Bool :=
  c == ' ' || c == '\t' || c == '\n' || c == '\r' || c == '\x0b' || c == '\x0c'

/-- `str.strip()`. -/
def strip (t : Text) : Text := stripBy isSpace t

theorem strip_strip (t : Text) : strip (strip t) = strip t := stripBy_stripBy t

/-- A newline at the end makes no difference. -/
theorem strip_newline (t : Text) : strip (t ++ ['\n']) = strip t :=
  stripBy_concat t (by decide)

/-! ## Unpacking -/

/-- Why `(a, b) = parts` fails. -/
inductive ValueError where
  /-- `need more than 1 value to unpack` -/
  | needMore
  /-- `too many values to unpack` -/
  | tooMany
  deriving DecidableEq, Repr

/-- `(a, b) = parts`. -/
def unpack2 : List Text → Except ValueError (Text × Text)
  | [a, b] => .ok (a, b)
  | [] => .error .needMore
  | [_] => .error .needMore
  | _ :: _ :: _ :: _ => .error .tooMany

theorem length_splitOn {α : Type} [DecidableEq α] (d : α) (l : List α) :
    (l.splitOn d).length = l.count d + 1 := by
  induction hn : l.length using Nat.strong_induction_on generalizing l with
  | _ n ih =>
    by_cases hd : d ∈ l
    · obtain ⟨a, b, rfl, ha⟩ := List.eq_append_cons_of_mem hd
      have hlen : b.length < n := by
        simp only [List.length_append, List.length_cons] at hn; omega
      rw [List.splitOn_append_cons_self_of_not_mem ha, List.length_cons, ih _ hlen b rfl,
        List.count_append, List.count_cons_self, List.count_eq_zero.mpr ha]
      omega
    · rw [List.splitOn_eq_singleton hd, List.count_eq_zero.mpr hd]
      rfl

theorem unpack2_splitOn {a b : Text} {d : Char} (ha : d ∉ a) (hb : d ∉ b) :
    unpack2 ((a ++ d :: b).splitOn d) = .ok (a, b) := by
  rw [List.splitOn_append_cons_self_of_not_mem ha, List.splitOn_eq_singleton hb]
  rfl

/-- Unpacking the parts of a text that does not have exactly one separator raises. -/
theorem unpack2_splitOn_error {t : Text} {d : Char} (h : t.count d ≠ 1) :
    ∃ e, unpack2 (t.splitOn d) = .error e := by
  have hlen := length_splitOn d t
  match hparts : t.splitOn d with
  | [] => exact ⟨_, rfl⟩
  | [_] => exact ⟨_, rfl⟩
  | _ :: _ :: _ :: _ => exact ⟨_, rfl⟩
  | [_, _] =>
    rw [hparts] at hlen
    simp only [List.length_cons, List.length_nil] at hlen
    omega

/-! ## Dictionaries -/

/-- A dictionary from texts to texts. -/
abbrev Dict := Text → Option Text

namespace Dict

def empty : Dict := fun _ => none

/-- `d[key] = value`. -/
def set (d : Dict) (key value : Text) : Dict := Function.update d key (some value)

/-- `d.get(key)` as a condition sees it: a missing value and an empty one are both false. -/
def truthy (d : Dict) (key : Text) : Text := (d key).getD []

@[simp] theorem set_self (d : Dict) (key value : Text) : d.set key value key = some value := by
  simp [set]

theorem set_of_ne (d : Dict) {key key' : Text} (h : key' ≠ key) (value : Text) :
    d.set key value key' = d key' := by
  simp [set, h]

end Dict

/-! ## List objects -/

/-- The list objects of a program; a reference is an index. -/
structure Heap (α : Type) where
  objects : List (List α)
  deriving DecidableEq, Repr

namespace Heap
variable {α : Type}

/-- A reference that has been handed out. -/
def Valid (h : Heap α) (r : ℕ) : Prop := r < h.objects.length

/-- The elements of a list object. -/
def get (h : Heap α) (r : ℕ) : List α := h.objects.getD r []

/-- Create a list object. -/
def new (h : Heap α) (xs : List α) : ℕ × Heap α := (h.objects.length, ⟨h.objects ++ [xs]⟩)

/-- `a += b`: extend the object `a` in place by the elements of `b`. -/
def extend (h : Heap α) (a b : ℕ) : Heap α := ⟨h.objects.set a (h.get a ++ h.get b)⟩

theorem valid_new_self (h : Heap α) (xs : List α) : (h.new xs).2.Valid (h.new xs).1 := by
  simp [Valid, new]

theorem Valid.new {h : Heap α} {r : ℕ} (hr : h.Valid r) (xs : List α) : (h.new xs).2.Valid r := by
  simp only [Valid, Heap.new, List.length_append, List.length_singleton] at hr ⊢
  omega

theorem Valid.extend {h : Heap α} {r : ℕ} (hr : h.Valid r) (a b : ℕ) : (h.extend a b).Valid r := by
  simpa [Valid, Heap.extend] using hr

/-- A new object has a reference of its own. -/
theorem Valid.ne_new {h : Heap α} {r : ℕ} (hr : h.Valid r) (xs : List α) : r ≠ (h.new xs).1 :=
  Nat.ne_of_lt hr

@[simp] theorem get_new_self (h : Heap α) (xs : List α) : (h.new xs).2.get (h.new xs).1 = xs := by
  simp [get, new]

theorem get_new_of_valid {h : Heap α} {r : ℕ} (hr : h.Valid r) (xs : List α) :
    (h.new xs).2.get r = h.get r := by
  rw [Valid] at hr
  simp [get, new, List.getElem?_append_left hr]

theorem get_extend_self {h : Heap α} {a : ℕ} (ha : h.Valid a) (b : ℕ) :
    (h.extend a b).get a = h.get a ++ h.get b := by
  rw [Valid] at ha
  simp [get, extend, ha]

theorem get_extend_of_ne {a r : ℕ} (h : Heap α) (hr : r ≠ a) (b : ℕ) :
    (h.extend a b).get r = h.get r := by
  simp [get, extend, List.getD_eq_getElem?_getD, List.getElem?_set_ne hr.symm]

end Heap
end Python
