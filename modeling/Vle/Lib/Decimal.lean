import Mathlib.Data.List.TakeWhile
import Mathlib.Tactic

/-!
# Decimal numbers in texts

A number at the start of a text, as `strtol` reads it in base ten: white space, a sign, and the digits up
to another character. What an integer is printed as is read again.
-/

namespace Vle.Lib

/-- The white space in front of a number. -/
def isSpace (c : Char) : Bool := c ∈ [' ', '\t', '\n', '\x0b', '\x0c', '\r']

/-- What is after the sign of a number, if it has one. -/
def afterSign : List Char → List Char
  | '-' :: l => l
  | '+' :: l => l
  | l => l

/-- The number that a text starts with, none without a digit. -/
def decimal (str : List Char) : Option ℤ :=
  let text := str.dropWhile isSpace
  let digits := (afterSign text).takeWhile Char.isDigit
  let n : ℤ := Nat.ofDigitChars 10 digits 0
  if digits = [] then none else some (if text.head? = some '-' then -n else n)

/-- The digits of a number, with a sign. -/
theorem toList_toString (n : ℤ) :
    (toString n).toList = (if n < 0 then ['-'] else []) ++ Nat.toDigits 10 n.natAbs := by
  cases n with
  | ofNat m =>
    rw [if_neg (by simp)]
    change (Nat.repr m).toList = _
    rw [Nat.toList_repr]
    rfl
  | negSucc m =>
    rw [if_pos (Int.negSucc_lt_zero m)]
    change ("-" ++ Nat.repr (m + 1)).toList = _
    rw [String.toList_append, Nat.toList_repr]
    rfl

theorem isDigit_of_mem {n : ℕ} {c : Char} (h : c ∈ Nat.toDigits 10 n) : c.isDigit = true :=
  Nat.isDigit_of_mem_toDigits (by decide) (by decide) h

theorem afterSign_digit {c : Char} (h : c.isDigit = true) (l : List Char) :
    afterSign (c :: l) = c :: l := by
  unfold afterSign
  split
  · next heq =>
    obtain ⟨rfl, -⟩ := List.cons.inj heq
    exact absurd h (by decide)
  · next heq =>
    obtain ⟨rfl, -⟩ := List.cons.inj heq
    exact absurd h (by decide)
  · rfl

theorem isSpace_digit {c : Char} (h : c.isDigit = true) : isSpace c = false := by
  by_contra hs
  have hmem : c ∈ [' ', '\t', '\n', '\x0b', '\x0c', '\r'] :=
    of_decide_eq_true ((Bool.not_eq_false _).mp hs)
  simp only [List.mem_cons, List.not_mem_nil, or_false] at hmem
  rcases hmem with rfl | rfl | rfl | rfl | rfl | rfl <;> exact absurd h (by decide)

/-- An integer is read from what it is printed as. -/
theorem decimal_toString (n : ℤ) : decimal (toString n).toList = some n := by
  obtain ⟨c, l, hcl⟩ := List.exists_cons_of_ne_nil (Nat.toDigits_ne_nil (b := 10) (n := n.natAbs))
  have hdigits : ∀ d ∈ c :: l, d.isDigit = true := fun d hd => isDigit_of_mem (hcl ▸ hd)
  have hc : c.isDigit = true := hdigits c List.mem_cons_self
  have hnumber : Nat.ofDigitChars 10 (c :: l) 0 = n.natAbs := by
    rw [← hcl, Nat.ofDigitChars_ten_toDigits]
  unfold decimal
  rw [toList_toString, hcl]
  by_cases hneg : n < 0
  · have htext : ((if n < 0 then ['-'] else []) ++ c :: l).dropWhile isSpace = '-' :: c :: l := by
      rw [if_pos hneg]
      rfl
    have habs : -(n.natAbs : ℤ) = n := by omega
    simp only [htext, afterSign, List.takeWhile_eq_self_iff.2 hdigits, hnumber, List.head?_cons,
      if_true, habs]
    rw [if_neg (List.cons_ne_nil _ _)]
  · have htext : ((if n < 0 then ['-'] else []) ++ c :: l).dropWhile isSpace = c :: l := by
      rw [if_neg hneg, List.nil_append, List.dropWhile_cons_of_neg (by simp [isSpace_digit hc])]
    have habs : (n.natAbs : ℤ) = n := by omega
    have hsign : (c :: l).head? ≠ some '-' := by
      rintro ⟨⟩
      exact absurd hc (by decide)
    simp only [htext, afterSign_digit hc, List.takeWhile_eq_self_iff.2 hdigits, hnumber,
      if_neg hsign, habs]
    rw [if_neg (List.cons_ne_nil _ _)]

end Vle.Lib
