/-
# Decimal numerals

`digits` writes a number in base ten without leading zeros, `value` reads a
run of digits back, and reading undoes writing (`value_digits`). `word` reads a
run of digits in words, where no step goes past the largest one; this is the
same as stopping there once, at the end (`word_eq`).

Key definitions: `Digits.digits`, `Digits.value`, `Digits.word`.
Key theorems: `Digits.value_digits`, `Digits.digits_isDigit`, `Digits.word_eq`.
-/

namespace SignalRegistry
namespace Digits

/-- The digit of a number below ten. -/
def digit (n : Nat) : Char := Char.ofNat (48 + n % 10)

/-- The decimal digits of `n`, most significant first; zero has one digit. -/
def digits (n : Nat) : List Char :=
  if n < 10 then [digit n] else digits (n / 10) ++ [digit n]

/-- The number a character stands for, if it is an ASCII digit. -/
def digitValue (c : Char) : Nat := c.toNat - 48

/-- The number a run of digits stands for. -/
def value (cs : List Char) : Nat := cs.foldl (fun n c => 10 * n + digitValue c) 0

/-- The word nearest to a number: the largest word for all numbers above it. -/
def nearestWord (n : Nat) : UInt32 := UInt32.ofNat (min n (UInt32.size - 1))

/-- A number with one more digit at its end. The product and the sum each stop
at the largest word. -/
def pushDigit (n : UInt32) (digit : Nat) : UInt32 :=
  nearestWord ((nearestWord (n.toNat * 10)).toNat + digit)

/-- The number a run of digits stands for, read digit by digit in words. -/
def word (cs : List Char) : UInt32 := cs.foldl (fun n c => pushDigit n (digitValue c)) 0

/-- The text of a natural number. -/
def ofNat (n : Nat) : String := String.ofList (digits n)

/-- The text of an integer: a minus sign before the digits of a negative one. -/
def ofInt : Int → String
  | .ofNat n => ofNat n
  | .negSucc n => "-" ++ ofNat (n + 1)

theorem digit_isDigit (n : Nat) : (digit n).isDigit = true := by
  have h : n % 10 < 10 := Nat.mod_lt _ (by decide)
  unfold digit
  generalize n % 10 = k at h
  revert k
  decide

theorem digitValue_digit (n : Nat) : digitValue (digit n) = n % 10 := by
  have h : n % 10 < 10 := Nat.mod_lt _ (by decide)
  unfold digit
  generalize n % 10 = k at h
  revert k
  decide

/-- Every character of a numeral is a digit. -/
theorem digits_isDigit (n : Nat) : ∀ c ∈ digits n, c.isDigit = true := by
  fun_induction digits n with
  | case1 n _ => simp [digit_isDigit]
  | case2 n _ ih =>
    intro c hc
    rcases List.mem_append.1 hc with h | h
    · exact ih c h
    · rw [List.mem_singleton.1 h]; exact digit_isDigit n

theorem digits_ne_nil (n : Nat) : digits n ≠ [] := by
  rw [digits]; split <;> simp

theorem value_append_singleton (cs : List Char) (c : Char) :
    value (cs ++ [c]) = 10 * value cs + digitValue c := by
  simp [value]

/-- Reading undoes writing. -/
theorem value_digits (n : Nat) : value (digits n) = n := by
  fun_induction digits n with
  | case1 n h => simp [value, digitValue_digit]; omega
  | case2 n _ ih => rw [value_append_singleton, ih, digitValue_digit]; omega

theorem toNat_nearestWord (n : Nat) : (nearestWord n).toNat = min n (UInt32.size - 1) := by
  have hpos : 0 < UInt32.size := by decide
  have hlt : min n (UInt32.size - 1) < UInt32.size := by omega
  exact UInt32.toNat_ofNat_of_lt' hlt

theorem nearestWord_of_le {n : Nat} (h : n ≤ UInt32.size - 1) : nearestWord n = UInt32.ofNat n := by
  unfold nearestWord
  rw [Nat.min_eq_left h]

/-- A number that has stopped at the largest word stays there with a digit more. -/
theorem pushDigit_nearestWord (n digit : Nat) :
    pushDigit (nearestWord n) digit = nearestWord (10 * n + digit) := by
  apply UInt32.toNat_inj.1
  unfold pushDigit
  simp only [toNat_nearestWord]
  omega

theorem foldl_pushDigit (cs : List Char) (n : Nat) :
    cs.foldl (fun n c => pushDigit n (digitValue c)) (nearestWord n) =
      nearestWord (cs.foldl (fun n c => 10 * n + digitValue c) n) := by
  induction cs generalizing n with
  | nil => rfl
  | cons c cs ih => rw [List.foldl_cons, List.foldl_cons, pushDigit_nearestWord, ih]

/-- Stopping at the largest word with every digit is stopping there once. -/
theorem word_eq (cs : List Char) : word cs = nearestWord (value cs) := foldl_pushDigit cs 0

end Digits
end SignalRegistry
