import Lading.Text.Basic
import Mathlib.Data.List.Basic
import Mathlib.Data.List.Induction
import Mathlib.Tactic.Common

namespace Lading.Text

theorem isDigit_decimal (n : Nat) : ∀ c ∈ decimal n, c.isDigit :=
  fun _ hc ↦ Nat.isDigit_of_mem_toDigits (by omega) (by omega) hc

theorem decimal_ne_nil (n : Nat) : decimal n ≠ [] := Nat.toDigits_ne_nil

theorem digitChar_of_isDigit {c : Char} (h : c.isDigit) :
    ∃ n < 10, c.toNat - '0'.toNat = n ∧ Nat.digitChar n = c := by
  simp only [Char.isDigit, Bool.and_eq_true, decide_eq_true_eq, ge_iff_le,
    UInt32.le_iff_toNat_le] at h
  change 48 ≤ c.toNat ∧ c.toNat ≤ 57 at h
  have hc : c.toNat - '0'.toNat = c.toNat - 48 := rfl
  refine ⟨c.toNat - 48, by omega, hc, Char.toNat_inj.1 ?_⟩
  rw [Nat.toNat_digitChar_of_lt_ten (by omega)]
  omega

theorem eq_zero_of_head_decimal {n : Nat} (h : (decimal n).head? = some '0') : n = 0 := by
  induction n using Nat.strongRecOn with
  | _ n ih =>
    rw [decimal, Nat.toDigits_eq_if (by omega)] at h
    split at h
    · rename_i hn
      have hdigit : Nat.digitChar n = '0' := by simpa using h
      have hvalue := congrArg Char.toNat hdigit
      rw [Nat.toNat_digitChar_of_lt_ten hn] at hvalue
      change 48 + n = 48 at hvalue
      omega
    · rename_i hn
      rw [List.head?_append_of_ne_nil _ Nat.toDigits_ne_nil] at h
      have hzero := ih (n / 10) (by omega) h
      omega

theorem ofDecimal_concat {digits : List Char} {c : Char} :
    ofDecimal (digits ++ [c]) = 10 * ofDecimal digits + (c.toNat - '0'.toNat) := by
  rw [ofDecimal, Nat.ofDigitChars_append, Nat.ofDigitChars_cons, Nat.ofDigitChars_nil]
  rfl

/-- Digits without a leading zero are the spelling of their number. -/
theorem decimal_ofDecimal {digits : List Char} (hne : digits ≠ [])
    (hdigits : ∀ c ∈ digits, c.isDigit) (hzero : digits.head? = some '0' → digits = ['0']) :
    decimal (ofDecimal digits) = digits := by
  induction digits using List.reverseRecOn with
  | nil => exact absurd rfl hne
  | append_singleton digits c ih =>
    obtain ⟨n, hn, hvalue, hchar⟩ := digitChar_of_isDigit (hdigits c (by simp))
    rw [ofDecimal_concat, hvalue]
    cases digits with
    | nil =>
      change decimal (10 * 0 + n) = [c]
      rw [Nat.mul_zero, Nat.zero_add, decimal, Nat.toDigits_of_lt_base hn, hchar]
    | cons d digits =>
      have hhead : (d :: digits).head? ≠ some '0' := by
        intro hd
        simpa using hzero hd
      have hfront := ih (by simp) (fun c hc ↦ hdigits c (List.mem_append_left _ hc))
        (fun hd ↦ absurd hd hhead)
      have hpos : 0 < ofDecimal (d :: digits) := by
        refine Nat.pos_of_ne_zero fun hnull ↦ hhead ?_
        rw [← hfront, hnull]
        rfl
      rw [decimal, ← Nat.toDigits_append_toDigits (by omega) hpos hn,
        Nat.toDigits_of_lt_base hn, hchar]
      exact congrArg (· ++ [c]) hfront

end Lading.Text
