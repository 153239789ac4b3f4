import Mathlib

/-!
# Reading unsigned integers

`from_str` of the unsigned integer types: decimal digits, with an optional plus sign.  The
digits are read from the left, and the first thing that is wrong is the error.
-/

namespace Uv.Core

inductive ParseIntError where
  | empty
  | invalidDigit
  | posOverflow
  deriving DecidableEq

def ParseIntError.message : ParseIntError → String
  | .empty => "cannot parse integer from empty string"
  | .invalidDigit => "invalid digit found in string"
  | .posOverflow => "number too large to fit in target type"

/-- The digits after those that make up `result`. -/
def parseDigits (bits result : ℕ) : List Char → Except ParseIntError ℕ
  | [] => .ok result
  | c :: rest =>
      if c.isDigit then
        if result * 10 + (c.toNat - 48) < 2 ^ bits then
          parseDigits bits (result * 10 + (c.toNat - 48)) rest
        else .error .posOverflow
      else .error .invalidDigit

/-- `from_str` of an unsigned type of so many bits. -/
def parseUnsigned (bits : ℕ) : List Char → Except ParseIntError ℕ
  | [] => .error .empty
  | ['+'] => .error .invalidDigit
  | '+' :: digits => parseDigits bits 0 digits
  | digits => parseDigits bits 0 digits

/-! ## Reading what was written -/

theorem parseDigits_append (bits result : ℕ) (digits rest : List Char) :
    parseDigits bits result (digits ++ rest) =
      (parseDigits bits result digits).bind fun result => parseDigits bits result rest := by
  induction digits generalizing result with
  | nil => rfl
  | cons c digits ih =>
      rw [List.cons_append, parseDigits, parseDigits]
      split
      · split
        · exact ih _
        · rfl
      · rfl

theorem digitChar_facts {n : ℕ} (hn : n < 10) :
    (Nat.digitChar n).isDigit = true ∧ (Nat.digitChar n).toNat - 48 = n ∧
      (Nat.digitChar n).utf8Size = 1 := by
  have hall : ∀ n : Fin 10, (Nat.digitChar n).isDigit = true ∧
      (Nat.digitChar n).toNat - 48 = n ∧ (Nat.digitChar n).utf8Size = 1 := by
    decide
  exact hall ⟨n, hn⟩

theorem parseDigits_toDigits {bits n : ℕ} (hn : n < 2 ^ bits) :
    parseDigits bits 0 (Nat.toDigits 10 n) = .ok n := by
  induction n using Nat.strong_induction_on with
  | _ n ih =>
      have hlast : ∀ result, result * 10 + n % 10 < 2 ^ bits →
          parseDigits bits result [Nat.digitChar (n % 10)] = .ok (result * 10 + n % 10) := by
        intro result hlt
        obtain ⟨hdigit, hvalue, -⟩ := digitChar_facts (Nat.mod_lt n (by decide : 0 < 10))
        rw [parseDigits, if_pos hdigit, hvalue, if_pos hlt, parseDigits]
      by_cases hsmall : n < 10
      · have hmod := hlast 0 (by omega)
        rw [Nat.mod_eq_of_lt hsmall, Nat.zero_mul, Nat.zero_add] at hmod
        rw [Nat.toDigits_of_lt_base hsmall, hmod]
      · have hdiv : n / 10 * 10 + n % 10 = n := by omega
        rw [Nat.toDigits_of_base_le (by decide) (not_lt.mp hsmall), parseDigits_append,
          ih (n / 10) (by omega) (by omega)]
        exact (hlast (n / 10) (by omega)).trans (congrArg Except.ok hdiv)

/-- A number that is written is read again. -/
theorem parseUnsigned_toDigits {bits n : ℕ} (hn : n < 2 ^ bits) :
    parseUnsigned bits (Nat.toDigits 10 n) = .ok n := by
  have hdigits := parseDigits_toDigits hn
  have hdigit : ∀ c ∈ Nat.toDigits 10 n, c.isDigit = true :=
    fun c => Nat.isDigit_of_mem_toDigits (by decide) (by decide)
  have hne : Nat.toDigits 10 n ≠ [] := Nat.toDigits_ne_nil
  have hplus : ∀ rest, Nat.toDigits 10 n ≠ '+' :: rest := by
    intro rest heq
    exact absurd (hdigit '+' (heq ▸ List.mem_cons_self)) (by decide)
  unfold parseUnsigned
  split
  · rename_i heq
    exact absurd heq hne
  · rename_i heq
    exact absurd heq (hplus _)
  · rename_i heq
    exact absurd heq (hplus _)
  · exact hdigits

theorem parseDigits_lt {bits result n : ℕ} {digits : List Char}
    (hparse : parseDigits bits result digits = .ok n) (hresult : result < 2 ^ bits) :
    n < 2 ^ bits ∧ n < (result + 1) * 10 ^ digits.length := by
  induction digits generalizing result with
  | nil =>
      obtain rfl := Except.ok.inj hparse
      exact ⟨hresult, by simp⟩
  | cons c digits ih =>
      rw [parseDigits] at hparse
      split at hparse
      · rename_i hdigit
        split at hparse
        · rename_i hlt
          obtain ⟨hbits, hlength⟩ := ih hparse hlt
          refine ⟨hbits, hlength.trans_le ?_⟩
          have hc : c.toNat ≤ 57 := by
            simp only [Char.isDigit, ge_iff_le, Bool.and_eq_true, decide_eq_true_eq] at hdigit
            exact UInt32.le_iff_toNat_le.mp hdigit.2
          rw [List.length_cons, pow_succ', ← Nat.mul_assoc]
          exact Nat.mul_le_mul_right _ (by omega)
        · cases hparse
      · cases hparse

theorem parseUnsigned_lt {bits n : ℕ} {digits : List Char}
    (hparse : parseUnsigned bits digits = .ok n) : n < 2 ^ bits ∧ n < 10 ^ digits.length := by
  unfold parseUnsigned at hparse
  split at hparse
  · cases hparse
  · cases hparse
  · rename_i rest hrest
    obtain ⟨hbits, hlength⟩ := parseDigits_lt hparse (by positivity)
    refine ⟨hbits, hlength.trans_le ?_⟩
    rw [Nat.zero_add, Nat.one_mul, List.length_cons]
    exact Nat.pow_le_pow_right (by decide) (by omega)
  · obtain ⟨hbits, hlength⟩ := parseDigits_lt hparse (by positivity)
    exact ⟨hbits, by simpa using hlength⟩

end Uv.Core
