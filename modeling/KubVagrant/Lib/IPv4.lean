import KubVagrant.Lib.Lines
import Mathlib.Data.Bool.AllAny

/-!
# IPv4 addresses as texts

An address is four octets written in decimal and joined by dots.  An `Octet` carries the
proof that its text is one, so that no result about addresses has to assume it.
-/

namespace Unix

/-- The number a text of digits stands for. -/
def decimal (digits : Text) : ℕ := digits.foldl (fun n c => 10 * n + (c.toNat - '0'.toNat)) 0

/-- A decimal number from 0 to 255, as written. -/
structure Octet where
  digits : Text
  ne_nil : digits ≠ []
  isDigit : ∀ c ∈ digits, c.isDigit = true
  le : decimal digits ≤ 255
  deriving DecidableEq

/-- An address in dotted notation. -/
structure IPv4 where
  a : Octet
  b : Octet
  c : Octet
  d : Octet
  deriving DecidableEq

namespace IPv4

/-- The address as a text. -/
def text (ip : IPv4) : Text :=
  ip.a.digits ++ '.' :: (ip.b.digits ++ '.' :: (ip.c.digits ++ '.' :: ip.d.digits))

theorem mem_text {ip : IPv4} {c : Char} (hc : c ∈ ip.text) : c = '.' ∨ c.isDigit = true := by
  simp only [text, List.mem_append, List.mem_cons] at hc
  rcases hc with h | h | h | h | h | h | h
  · exact Or.inr (ip.a.isDigit c h)
  · exact Or.inl h
  · exact Or.inr (ip.b.isDigit c h)
  · exact Or.inl h
  · exact Or.inr (ip.c.isDigit c h)
  · exact Or.inl h
  · exact Or.inr (ip.d.isDigit c h)

theorem text_ne_nil (ip : IPv4) : ip.text ≠ [] := by
  simp [text]

/-- The text before the first dot is the first octet. -/
theorem prefix_text_iff (ip : IPv4) {w : Text} (hw : '.' ∉ w) (t : Text) :
    w ++ ['.'] <+: ip.text ++ t ↔ ip.a.digits = w := by
  have hdot : '.' ∉ ip.a.digits := fun h => absurd (ip.a.isDigit '.' h) (by decide)
  rw [text, List.append_assoc, List.cons_append]
  constructor
  · intro hyp
    rcases hyp with ⟨s, hs⟩
    rw [List.append_assoc, List.singleton_append] at hs
    rcases List.append_eq_append_iff.mp hs with ⟨x, ha, hx⟩ | ⟨x, ha, hx⟩
    · cases x with
      | nil => simpa using ha
      | cons c x =>
        rw [List.cons_append, List.cons.injEq] at hx
        exact absurd (by rw [ha, ← hx.1]; simp) hdot
    · cases x with
      | nil => simpa using ha.symm
      | cons c x =>
        rw [List.cons_append, List.cons.injEq] at hx
        exact absurd (by rw [ha, ← hx.1]; simp) hw
  · intro h
    rw [h]
    exact ⟨_, by rw [List.append_assoc, List.singleton_append]⟩

end IPv4
end Unix
