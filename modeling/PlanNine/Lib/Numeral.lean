import Mathlib.Tactic

/-!
# Numerals

Numerals of a base up to 16 are scanned digit by digit, up to the first character that is no digit
of the base. What `Nat.toDigits` prints is scanned as the number.

## Main definitions

* `digit`, `scan`: the digits of a base, and the value of a numeral with what lies behind it.

## Main results

* `scan_toDigits`: a printed number is scanned.
* `head_toDigits`: it has no leading zero.
* `length_toDigits_le`: it is as long as the number is large.
-/

namespace PlanNine.Numeral

/-- The value of a digit in base 16. -/
def hexDigit (c : Char) : Option ℕ :=
  if '0' ≤ c ∧ c ≤ '9' then some (c.toNat - '0'.toNat)
  else if 'a' ≤ c ∧ c ≤ 'f' then some (c.toNat - 'a'.toNat + 10)
  else if 'A' ≤ c ∧ c ≤ 'F' then some (c.toNat - 'A'.toNat + 10)
  else none

/-- The value of a digit in base `b`. -/
def digit (b : ℕ) (c : Char) : Option ℕ := (hexDigit c).filter fun d => d < b

/-- The value of the digits `s` behind others of the value `v`, and what lies behind them. -/
def scan (b : ℕ) : ℕ → List Char → ℕ × List Char
  | v, [] => (v, [])
  | v, c :: s =>
    match digit b c with
    | some d => scan b (v * b + d) s
    | none => (v, c :: s)

/-- No digit of the base comes next. -/
def Ends (b : ℕ) (s : List Char) : Prop := ∀ c ∈ s.head?, digit b c = none

section

variable {b n d v k : ℕ} {s : List Char}

theorem digit_digitChar (hd : d < b) (hb : b ≤ 16) : digit b d.digitChar = some d := by
  have hhex : ∀ d < 16, hexDigit d.digitChar = some d := by decide
  rw [digit, hhex d (by omega), Option.filter_some, if_pos (decide_eq_true hd)]

theorem scan_of_ends (h : Ends b s) : scan b v s = (v, s) := by
  cases s with
  | nil => rfl
  | cons c s => rw [scan, h c rfl]

/-- A number that is printed is scanned. -/
theorem scan_toDigits_append (hb : 1 < b) (hb' : b ≤ 16) (n : ℕ) (s : List Char) :
    scan b 0 (Nat.toDigits b n ++ s) = scan b n s := by
  induction n using Nat.strong_induction_on generalizing s with
  | _ n ih =>
    by_cases hn : n < b
    · rw [Nat.toDigits_of_lt_base hn, List.singleton_append, scan, digit_digitChar hn hb']
      dsimp only
      rw [Nat.zero_mul, Nat.zero_add]
    · have hdiv : n / b < n := Nat.div_lt_self (by omega) hb
      have hmod : n % b < b := Nat.mod_lt n (by omega)
      rw [Nat.toDigits_of_base_le hb (by omega), List.append_assoc, ih _ hdiv,
        List.singleton_append, scan, digit_digitChar hmod hb']
      dsimp only
      rw [Nat.mul_comm, Nat.div_add_mod]

theorem scan_toDigits (hb : 1 < b) (hb' : b ≤ 16) (n : ℕ) (h : Ends b s) :
    scan b 0 (Nat.toDigits b n ++ s) = (n, s) := by
  rw [scan_toDigits_append hb hb', scan_of_ends h]

theorem toDigits_ne_nil (hb : 1 < b) (n : ℕ) : Nat.toDigits b n ≠ [] := by
  rw [Nat.toDigits_eq_if hb]
  split
  · exact List.cons_ne_nil _ _
  · exact List.append_ne_nil_of_right_ne_nil _ (List.cons_ne_nil _ _)

/-- The characters of a printed number are digits. -/
theorem mem_toDigits (hb : 1 < b) {c : Char} (h : c ∈ Nat.toDigits b n) :
    ∃ d < b, c = d.digitChar := by
  induction n using Nat.strong_induction_on with
  | _ n ih =>
    by_cases hn : n < b
    · rw [Nat.toDigits_of_lt_base hn, List.mem_singleton] at h
      exact ⟨n, hn, h⟩
    · rw [Nat.toDigits_of_base_le hb (by omega), List.mem_append, List.mem_singleton] at h
      obtain h | h := h
      · exact ih _ (Nat.div_lt_self (by omega) hb) h
      · exact ⟨n % b, Nat.mod_lt n (by omega), h⟩

/-- A number other than 0 is printed without a leading zero. -/
theorem head_toDigits (hb : 1 < b) (hb' : b ≤ 16) (hn : 0 < n) :
    ∃ c l, Nat.toDigits b n = c :: l ∧ c ≠ '0' := by
  induction n using Nat.strong_induction_on with
  | _ n ih =>
    by_cases hlt : n < b
    · have hne : ∀ d < 16, 0 < d → d.digitChar ≠ '0' := by decide
      exact ⟨n.digitChar, [], Nat.toDigits_of_lt_base hlt, hne n (by omega) hn⟩
    · obtain ⟨c, l, heq, hc⟩ := ih (n / b) (Nat.div_lt_self (by omega) hb)
        (Nat.div_pos (by omega) (by omega))
      exact ⟨c, l ++ [(n % b).digitChar],
        by rw [Nat.toDigits_of_base_le hb (by omega), heq, List.cons_append], hc⟩

theorem length_toDigits_le (hb : 1 < b) (hk : 0 < k) (hn : n < b ^ k) :
    (Nat.toDigits b n).length ≤ k := by
  induction k generalizing n with
  | zero => exact absurd hk (lt_irrefl 0)
  | succ k ih =>
    by_cases hlt : n < b
    · rw [Nat.toDigits_of_lt_base hlt, List.length_singleton]
      omega
    · have hpos : 0 < k := by
        rcases Nat.eq_zero_or_pos k with rfl | hpos
        · rw [Nat.zero_add, Nat.pow_one] at hn
          exact absurd hn hlt
        · exact hpos
      have hdiv : n / b < b ^ k := Nat.div_lt_of_lt_mul (by rwa [Nat.pow_succ, Nat.mul_comm] at hn)
      have hlen := ih hpos hdiv
      rw [Nat.toDigits_of_base_le hb (by omega), List.length_append, List.length_singleton]
      omega

end

end PlanNine.Numeral
