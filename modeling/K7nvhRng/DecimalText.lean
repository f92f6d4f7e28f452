import Mathlib.Data.Nat.Notation

/-!
# Numbers in decimal notation

A number in a text ends at the first character that is not a digit, and can be read back.
-/

namespace K7nvhRng.DecimalText

theorem notMem_toDigits {c : Char} (hc : c.isDigit = false) (n : ℕ) : c ∉ Nat.toDigits 10 n := by
  intro hmem
  rw [Nat.isDigit_of_mem_toDigits (by decide) (by decide) hmem] at hc
  cases hc

theorem takeWhile_toDigits {c : Char} (hc : c.isDigit = false) (n : ℕ) (rest : List Char) :
    (Nat.toDigits 10 n ++ c :: rest).takeWhile (· ≠ c) = Nat.toDigits 10 n := by
  rw [List.takeWhile_append_of_pos, List.takeWhile_cons_of_neg, List.append_nil]
  · simp
  · intro d hd
    rw [decide_eq_true_iff]
    rintro rfl
    exact notMem_toDigits hc n hd

theorem toDigits_injective : Function.Injective (Nat.toDigits 10) := by
  intro m n h
  rw [← Nat.ofDigitChars_ten_toDigits (n := m), h, Nat.ofDigitChars_ten_toDigits]

/-- The first number of a text, and what follows it, can be read off. -/
theorem toDigits_append_inj {c : Char} (hc : c.isDigit = false) {m n : ℕ} {rest rest' : List Char}
    (h : Nat.toDigits 10 m ++ c :: rest = Nat.toDigits 10 n ++ c :: rest') :
    m = n ∧ rest = rest' := by
  have hfirst := congrArg (List.takeWhile (· ≠ c)) h
  rw [takeWhile_toDigits hc, takeWhile_toDigits hc] at hfirst
  rw [hfirst] at h
  exact ⟨toDigits_injective hfirst, (List.cons.inj (List.append_cancel_left h)).2⟩

end K7nvhRng.DecimalText
