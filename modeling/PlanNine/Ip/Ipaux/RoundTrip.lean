import PlanNine.Ip.Ipaux.Text

/-!
# Reading the text of an address

The text that `eipfmt` prints of an address or a mask fits its buffer, and `parseip` and
`parseipmask` read the same bytes from it. A mask that begins as an address of version 4 does is
printed like one.

## Main definitions

* `joined`, `wordsFrom`: words with colons between them, and the words of an address.

## Main results

* `strtoul_hex`, `strtoul_decimal`: a number that is printed is read.
* `printWords_spec`: the text of an address.
* `parseLoop_joined`: reading words.
* `text_roundtrip`: the round trips.
-/

namespace PlanNine.Ipaux

open Numeral (digit Ends)

/-! ### Numbers -/

/-- A number ends here. -/
def Stops (s : Text) : Prop := ∀ c ∈ s.head?, c = ':' ∨ c = '.'

section

variable {b n : ℕ} {s : Text}

theorem Stops.ends (h : Stops s) (b : ℕ) : Ends b s := by
  intro c hc
  have hhex : Numeral.hexDigit ':' = none ∧ Numeral.hexDigit '.' = none := by decide
  obtain rfl | rfl := h c hc
  · rw [digit, hhex.1]
    rfl
  · rw [digit, hhex.2]
    rfl

theorem digitChar_ne {d : ℕ} (h : d < 16) : isspace d.digitChar = false ∧ d.digitChar ≠ '-' ∧
    d.digitChar ≠ '+' ∧ d.digitChar ≠ 'x' ∧ d.digitChar ≠ 'X' := by
  have hall : ∀ d < 16, isspace d.digitChar = false ∧ d.digitChar ≠ '-' ∧ d.digitChar ≠ '+' ∧
      d.digitChar ≠ 'x' ∧ d.digitChar ≠ 'X' := by decide
  exact hall d h

theorem basis_of_ne {base : ℕ} {c : Char} {r : Text} (h : c ≠ '0') :
    basis base (c :: r) = (if base = 0 then 10 else base, c :: r) := by
  unfold basis
  split
  · rename_i heq
    exact absurd (List.cons.inj heq).1 h
  · rename_i heq
    exact absurd (List.cons.inj heq).1 h
  · rfl

theorem basis_of_zero {base : ℕ} {r : Text} (h : ∀ c ∈ r.head?, c ≠ 'x' ∧ c ≠ 'X') :
    basis base ('0' :: r) = (if base = 0 then 8 else base, '0' :: r) := by
  cases r with
  | nil => rfl
  | cons c r =>
    obtain ⟨hx, hX⟩ := h c rfl
    rw [basis, if_neg]
    rintro ⟨hor, -⟩
    exact hor.elim hx hX

theorem sign_dropWhile {c : Char} {r : Text} (hc : isspace c = false) (hm : c ≠ '-')
    (hp : c ≠ '+') : sign ((c :: r).dropWhile isspace) = (false, c :: r) := by
  rw [List.dropWhile_cons, hc, if_neg Bool.false_ne_true]
  unfold sign
  split
  · rename_i heq
    exact absurd (List.cons.inj heq).1 hm
  · rename_i heq
    exact absurd (List.cons.inj heq).1 hp
  · rfl

/-- Reading a number without a sign whose base is known. -/
theorem strtoul_of_basis {base : ℕ} {c : Char} {r t : Text} (hc : isspace c = false) (hm : c ≠ '-')
    (hp : c ≠ '+') (hbasis : basis base (c :: r) = (b, c :: r)) (hdigit : (digit b c).isSome)
    (hscan : Numeral.scan b 0 (c :: r) = (n, t)) :
    strtoul (c :: r) base = (if 2 ^ 32 ≤ n then 2 ^ 32 - 1 else n, t) := by
  obtain ⟨d, hd⟩ := Option.isSome_iff_exists.mp hdigit
  unfold strtoul
  rw [sign_dropWhile hc hm hp]
  dsimp only
  rw [hbasis]
  dsimp only
  rw [List.head?_cons, Option.bind_some, hd, hscan, Option.isNone_some, if_neg Bool.false_ne_true]
  dsimp only
  split
  · rfl
  · rename_i hn
    rw [if_neg Bool.false_ne_true, Nat.mod_eq_of_lt (not_le.mp hn)]

theorem strtoul_eq {base : ℕ} {s t : Text}
    (h : strtoul s base = (if 2 ^ 32 ≤ n then 2 ^ 32 - 1 else n, t)) (hn : n < 2 ^ 32) :
    strtoul s base = (n, t) := by
  rwa [if_neg (not_le.mpr hn)] at h

/-- A number that is printed, and the first characters of its text. -/
theorem toDigits_cons (hb : 1 < b) (hb' : b ≤ 16) (n : ℕ) (h : Stops s) :
    ∃ d < b, ∃ r, Nat.toDigits b n ++ s = d.digitChar :: r ∧ ∀ c ∈ r.head?, c ≠ 'x' ∧ c ≠ 'X' := by
  rcases heq : Nat.toDigits b n with _ | ⟨c, l⟩
  · exact absurd heq (Numeral.toDigits_ne_nil hb n)
  obtain ⟨d, hd, rfl⟩ := Numeral.mem_toDigits hb (n := n) (heq ▸ List.mem_cons_self)
  refine ⟨d, hd, l ++ s, rfl, fun c hc => ?_⟩
  cases l with
  | nil =>
    have hstop := h c hc
    constructor
    · rintro rfl
      revert hstop
      decide
    · rintro rfl
      revert hstop
      decide
  | cons c' l =>
    obtain rfl := Option.some.inj hc
    obtain ⟨d', hd', rfl⟩ := Numeral.mem_toDigits hb (n := n)
      (heq ▸ List.mem_cons_of_mem _ List.mem_cons_self)
    exact (digitChar_ne (by omega)).2.2.2

/-- A word that is printed is read. -/
theorem strtoul_hex (hn : n < 2 ^ 32) (h : Stops s) : strtoul (hex n ++ s) 16 = (n, s) := by
  obtain ⟨d, hd, r, heq, hx⟩ := toDigits_cons (b := 16) (by decide) le_rfl n h
  obtain ⟨hspace, hminus, hplus, -⟩ := digitChar_ne hd
  have hscan := Numeral.scan_toDigits (b := 16) (by decide) le_rfl n (h.ends 16)
  rw [hex]
  rw [heq] at hscan ⊢
  have hbasis : basis 16 (d.digitChar :: r) = (16, d.digitChar :: r) := by
    by_cases hzero : d.digitChar = '0'
    · rw [hzero, basis_of_zero hx]
      rfl
    · rw [basis_of_ne hzero]
      rfl
  exact strtoul_eq (strtoul_of_basis hspace hminus hplus hbasis
    (by rw [Numeral.digit_digitChar hd le_rfl]; rfl) hscan) hn

/-- A byte that is printed is read. -/
theorem strtoul_decimal (hn : n < 2 ^ 32) (h : Stops s) : strtoul (decimal n ++ s) 0 = (n, s) := by
  obtain ⟨d, hd, r, heq, hx⟩ := toDigits_cons (b := 10) (by decide) (by decide) n h
  obtain ⟨hspace, hminus, hplus, -⟩ := digitChar_ne (show d < 16 by omega)
  have hscan := Numeral.scan_toDigits (b := 10) (by decide) (by decide) n (h.ends 10)
  rw [decimal]
  rcases Nat.eq_zero_or_pos n with rfl | hpos
  · -- the number 0 is read as one of base 8
    have hzero : Nat.toDigits 10 0 ++ s = '0' :: s := rfl
    rw [hzero] at heq ⊢
    obtain ⟨-, rfl⟩ := List.cons.inj heq
    exact strtoul_eq (strtoul_of_basis (b := 8) (by decide) (by decide) (by decide)
      (basis_of_zero hx) (by decide) (Numeral.scan_of_ends (h.ends 8))) hn
  · obtain ⟨c, l, hcons, hc⟩ := Numeral.head_toDigits (b := 10) (by decide) (by decide) hpos
    have hne : d.digitChar ≠ '0' := by
      rw [hcons, List.cons_append] at heq
      exact (List.cons.inj heq).1 ▸ hc
    rw [heq] at hscan ⊢
    exact strtoul_eq (strtoul_of_basis hspace hminus hplus (basis_of_ne hne)
      (by rw [if_pos rfl, Numeral.digit_digitChar hd (by decide)]; rfl) hscan) hn

/-- A byte that is printed in base 10 is passed over in base 16. -/
theorem strtoul_decimal_hex (n : ℕ) (h : Stops s) : ∃ x, strtoul (decimal n ++ s) 16 = (x, s) := by
  obtain ⟨d, hd, r, heq, hx⟩ := toDigits_cons (b := 10) (by decide) (by decide) n h
  obtain ⟨hspace, hminus, hplus, -⟩ := digitChar_ne (show d < 16 by omega)
  have hdigits : ∀ c ∈ Nat.toDigits 10 n, (digit 16 c).isSome := by
    intro c hc
    obtain ⟨d, hd, rfl⟩ := Numeral.mem_toDigits (by decide) hc
    rw [Numeral.digit_digitChar (by omega) le_rfl]
    rfl
  have hscan (l : Text) (v : ℕ) (hl : ∀ c ∈ l, (digit 16 c).isSome) :
      ∃ x, Numeral.scan 16 v (l ++ s) = (x, s) := by
    induction l generalizing v with
    | nil => exact ⟨v, Numeral.scan_of_ends (h.ends 16)⟩
    | cons c l ih =>
      obtain ⟨d, hd⟩ := Option.isSome_iff_exists.mp (hl c List.mem_cons_self)
      rw [List.cons_append, Numeral.scan, hd]
      exact ih _ fun c hc => hl c (List.mem_cons_of_mem _ hc)
  obtain ⟨x, hx'⟩ := hscan _ 0 hdigits
  rw [decimal]
  rw [heq] at hx' ⊢
  have hbasis : basis 16 (d.digitChar :: r) = (16, d.digitChar :: r) := by
    by_cases hzero : d.digitChar = '0'
    · rw [hzero, basis_of_zero hx]
      rfl
    · rw [basis_of_ne hzero]
      rfl
  exact ⟨_, strtoul_of_basis hspace hminus hplus hbasis
    (by rw [Numeral.digit_digitChar (by omega) le_rfl]; rfl) hx'⟩

end

/-! ### Words -/

/-- The `n` words from the byte `i` on. -/
def wordsFrom (p : Ipaddr) : ℕ → ℕ → List ℕ
  | _, 0 => []
  | i, n + 1 => word p i :: wordsFrom p (i + 2) n

/-- Words with a colon before each. -/
def colons (ws : List ℕ) : Text := ws.flatMap fun w => ':' :: hex w

/-- Words with colons between them. -/
def joined : List ℕ → Text
  | [] => []
  | w :: ws => hex w ++ colons ws

section

variable {p : Ipaddr} {i j n m : ℕ} {buf : Text} {eli eln : ℤ}

theorem word_lt (p : Ipaddr) (i : ℕ) : word p i < 65536 := by
  have hhigh := (byte p i).toNat_lt
  have hlow := (byte p (i + 1)).toNat_lt
  rw [word, Nat.shiftLeft_eq]
  omega

theorem length_hex_word (p : Ipaddr) (i : ℕ) : (hex (word p i)).length ≤ 4 :=
  Numeral.length_toDigits_le (by decide) (by decide) (word_lt p i)

theorem wordsFrom_lt {w : ℕ} (h : w ∈ wordsFrom p i n) : w < 65536 := by
  induction n generalizing i with
  | zero => cases h
  | succ n ih =>
    obtain rfl | h := List.mem_cons.mp h
    · exact word_lt p i
    · exact ih h

theorem length_wordsFrom (p : Ipaddr) (i n : ℕ) : (wordsFrom p i n).length = n := by
  induction n generalizing i with
  | zero => rfl
  | succ n ih => rw [wordsFrom, List.length_cons, ih]

theorem wordsFrom_add (p : Ipaddr) (i m n : ℕ) :
    wordsFrom p i (m + n) = wordsFrom p i m ++ wordsFrom p (i + 2 * m) n := by
  induction m generalizing i with
  | zero => rw [Nat.zero_add, Nat.mul_zero, Nat.add_zero, wordsFrom, List.nil_append]
  | succ m ih =>
    rw [Nat.succ_add, wordsFrom, wordsFrom, ih, List.cons_append,
      show i + 2 + 2 * m = i + 2 * (m + 1) by ring]

theorem colons_cons (w : ℕ) (ws : List ℕ) : colons (w :: ws) = ':' :: hex w ++ colons ws := rfl

theorem length_colons_le (p : Ipaddr) (i n : ℕ) : (colons (wordsFrom p i n)).length ≤ 5 * n := by
  induction n generalizing i with
  | zero => exact le_rfl
  | succ n ih =>
    have hword := length_hex_word p i
    have hrest := ih (i + 2)
    rw [wordsFrom, colons_cons, List.length_append, List.length_cons]
    omega

/-! ### Printing -/

theorem sprint_of_le {s : Text} (h : buf.length + s.length + 1 ≤ 40) :
    sprint buf s = some (buf ++ s) := if_pos h

/-- Words behind others, each behind a colon. -/
theorem printWords_colons (hi : 0 < i) (hne : ∀ k < n, ((i + 2 * k : ℕ) : ℤ) ≠ eli)
    (h16 : i + 2 * n ≤ 16) (hlen : buf.length + 1 ≤ 5 * (i / 2)) :
    printWords p eli eln (n + m) i buf =
      printWords p eli eln m (i + 2 * n) (buf ++ colons (wordsFrom p i n)) := by
  induction n generalizing i buf with
  | zero => rw [Nat.zero_add, Nat.mul_zero, Nat.add_zero, wordsFrom, colons, List.flatMap_nil,
      List.append_nil]
  | succ n ih =>
    have hword := length_hex_word p i
    have hfirst : (i : ℤ) ≠ eli := hne 0 (Nat.succ_pos n)
    have hstep : (i + 2) + 2 * n = i + 2 * (n + 1) := by ring
    have hne' : ∀ k < n, ((i + 2 + 2 * k : ℕ) : ℤ) ≠ eli := by
      intro k hk
      have hk' := hne (k + 1) (by omega)
      rwa [show i + 2 * (k + 1) = i + 2 + 2 * k by ring] at hk'
    have hlen' : (buf ++ [':'] ++ hex (word p i)).length + 1 ≤ 5 * ((i + 2) / 2) := by
      rw [List.length_append, List.length_append, List.length_singleton]
      omega
    have hcolon : buf.length + [':'].length + 1 ≤ 40 := by
      rw [List.length_singleton]
      omega
    have hsize : (buf ++ [':']).length + (hex (word p i)).length + 1 ≤ 40 := by
      rw [List.length_append, List.length_singleton]
      omega
    rw [Nat.succ_add, printWords, if_neg (by omega), if_neg hfirst, if_neg hi.ne',
      sprint_of_le hcolon, Option.bind_some, sprint_of_le hsize, Option.bind_some,
      ih (by omega) hne' (by omega) hlen', hstep, wordsFrom, colons_cons]
    simp only [List.append_assoc, List.cons_append, List.nil_append]

theorem printWords_end : printWords p eli eln n 16 buf = some buf := by
  cases n with
  | zero => rfl
  | succ n => rw [printWords, if_pos le_rfl]

/-- Words from the first one on. -/
theorem printWords_joined (hne : ∀ k < n, ((2 * k : ℕ) : ℤ) ≠ eli) (h16 : n ≤ 8) :
    printWords p eli eln (n + m) 0 [] =
      printWords p eli eln m (2 * n) (joined (wordsFrom p 0 n)) := by
  cases n with
  | zero => rw [Nat.zero_add, Nat.mul_zero, wordsFrom, joined]
  | succ n =>
    have hword := length_hex_word p 0
    have hfirst : ((0 : ℕ) : ℤ) ≠ eli := hne 0 (Nat.succ_pos n)
    have hne' : ∀ k < n, ((2 + 2 * k : ℕ) : ℤ) ≠ eli := by
      intro k hk
      have hk' := hne (k + 1) (by omega)
      rwa [show 2 * (k + 1) = 2 + 2 * k by ring] at hk'
    have hsize : ([] : Text).length + (hex (word p 0)).length + 1 ≤ 40 := by
      rw [List.length_nil]
      omega
    have hlen : ([] ++ hex (word p 0)).length + 1 ≤ 5 * (2 / 2) := by
      rw [List.nil_append]
      omega
    rw [Nat.succ_add, printWords, if_neg (by decide), if_neg hfirst, if_pos rfl, Option.bind_some,
      sprint_of_le hsize, Option.bind_some, printWords_colons (by decide) hne' (by omega) hlen,
      wordsFrom, joined, List.nil_append, show 2 + 2 * n = 2 * (n + 1) by ring]

theorem length_joined_lt (p : Ipaddr) (i n : ℕ) :
    (joined (wordsFrom p i n)).length ≤ 5 * n ∧
      (0 < n → (joined (wordsFrom p i n)).length < 5 * n) := by
  cases n with
  | zero => exact ⟨le_rfl, fun h => absurd h (lt_irrefl 0)⟩
  | succ n =>
    have hword := length_hex_word p i
    have hrest := length_colons_le p (i + 2) n
    rw [wordsFrom, joined, List.length_append]
    omega

/-- The text with the words from `i` up to `j` left out. -/
theorem printWords_elided (hpos : i < j) (hj : j ≤ 8) :
    printWords p ((2 * i : ℕ) : ℤ) ((2 * (j - i) : ℕ) : ℤ) 8 0 [] =
      some (joined (wordsFrom p 0 i) ++ [':', ':'] ++ joined (wordsFrom p (2 * j) (8 - j))) := by
  obtain ⟨hle, hlt⟩ := length_joined_lt p 0 i
  have hne : ∀ k < i, ((2 * k : ℕ) : ℤ) ≠ ((2 * i : ℕ) : ℤ) := by
    intro k hk heq
    omega
  have hplace : 2 * i + (((2 * (j - i) : ℕ) : ℤ)).toNat = 2 * j := by
    rw [Int.toNat_natCast]
    omega
  have htwo : (joined (wordsFrom p 0 i)).length + [':', ':'].length + 1 ≤ 40 := by
    rw [List.length_cons, List.length_singleton]
    omega
  obtain ⟨m, hm⟩ : ∃ m, 8 = i + (m + 1) := ⟨7 - i, by omega⟩
  conv_lhs => rw [hm]
  rw [printWords_joined hne (by omega), printWords, if_neg (by omega), if_pos rfl,
    sprint_of_le htwo, Option.bind_some]
  dsimp only
  rw [hplace]
  by_cases hend : j = 8
  · rw [if_pos (by omega), hend, Nat.sub_self, wordsFrom, joined, List.append_nil]
  · obtain ⟨n, hn⟩ : ∃ n, 8 - j = n + 1 := ⟨7 - j, by omega⟩
    obtain ⟨k, hk⟩ : ∃ k, m = n + k := ⟨m - n, by omega⟩
    have hword := length_hex_word p (2 * j)
    have hsize : (joined (wordsFrom p 0 i) ++ [':', ':']).length + (hex (word p (2 * j))).length +
        1 ≤ 40 := by
      rw [List.length_append, List.length_cons, List.length_singleton]
      omega
    have hlen : (joined (wordsFrom p 0 i) ++ [':', ':'] ++ hex (word p (2 * j))).length + 1 ≤
        5 * ((2 * j + 2) / 2) := by
      rw [List.length_append, List.length_append, List.length_cons, List.length_singleton]
      omega
    rw [if_neg (by omega), sprint_of_le hsize, Option.bind_some, hk,
      printWords_colons (by omega) (fun l hl heq => by omega) (by omega) hlen, hn,
      show 2 * j + 2 + 2 * n = 16 by omega, printWords_end, wordsFrom, joined]
    simp only [List.append_assoc]

/-- The zero words that `runEnd` passes. -/
theorem runEnd_spec (p : Ipaddr) (n j : ℕ) (hj : 2 ∣ j) : ∃ k, runEnd p n j = j + 2 * k ∧
    (j ≤ 16 → j + 2 * k ≤ 16) ∧ wordsFrom p j k = List.replicate k 0 := by
  induction n generalizing j with
  | zero => exact ⟨0, rfl, id, rfl⟩
  | succ n ih =>
    rw [runEnd]
    by_cases h16 : 16 ≤ j
    · rw [if_pos h16]
      exact ⟨0, rfl, id, rfl⟩
    rw [if_neg h16]
    by_cases hbytes : byte p j ≠ 0 ∨ byte p (j + 1) ≠ 0
    · rw [if_pos hbytes]
      exact ⟨0, rfl, id, rfl⟩
    · rw [if_neg hbytes]
      obtain ⟨hhigh, hlow⟩ := not_or.mp hbytes
      obtain ⟨k, heq, hle, hwords⟩ := ih (j + 2) (by omega)
      refine ⟨k + 1, by rw [heq]; ring, fun _ => by omega, ?_⟩
      rw [wordsFrom, hwords, List.replicate_succ, word, not_not.mp hhigh, not_not.mp hlow]
      rfl

/-- No elision, or one of zero words. -/
def Elides (p : Ipaddr) (e : ℤ × ℤ) : Prop :=
  e = (-1, -1) ∨ ∃ i j, i < j ∧ j ≤ 8 ∧ e = (((2 * i : ℕ) : ℤ), ((2 * (j - i) : ℕ) : ℤ)) ∧
    wordsFrom p (2 * i) (j - i) = List.replicate (j - i) 0

theorem elides_elision (p : Ipaddr) : Elides p (elision p) := by
  refine List.foldlRecOn _ (elide p) (show Elides p (-1, -1) from .inl rfl) fun e he b hb => ?_
  obtain ⟨i, hi, rfl⟩ := List.mem_map.mp hb
  have hi : i < 8 := List.mem_range.mp hi
  obtain ⟨k, heq, hle, hwords⟩ := runEnd_spec p 8 (2 * i) (dvd_mul_right 2 i)
  unfold elide
  rw [heq]
  dsimp only
  split
  · rename_i hlong
    have hlen : i + k - i = k := Nat.add_sub_cancel_left i k
    refine .inr ⟨i, i + k, by omega, by omega, ?_, by rw [hlen, hwords]⟩
    rw [hlen, Prod.mk.injEq]
    exact ⟨rfl, by push_cast; ring⟩
  · exact he

/-- The text of an address that is none of version 4. -/
theorem fmtaddr_spec (h : p.toList.take 12 ≠ v4prefix) :
    fmtaddr p = some (joined (wordsFrom p 0 8)) ∨ ∃ i j, i < j ∧ j ≤ 8 ∧
      wordsFrom p (2 * i) (j - i) = List.replicate (j - i) 0 ∧
        fmtaddr p = some
          (joined (wordsFrom p 0 i) ++ [':', ':'] ++ joined (wordsFrom p (2 * j) (8 - j))) := by
  rw [fmtaddr, if_neg h]
  obtain heq | ⟨i, j, hij, hj, heq, hwords⟩ := elides_elision p
  · left
    rw [heq, printWords_joined (n := 8) (m := 0) (fun k _ hk => by omega) le_rfl, printWords_end]
  · right
    refine ⟨i, j, hij, hj, hwords, ?_⟩
    rw [heq, printWords_elided hij hj]

end

/-! ### Parsing -/

/-- The bytes of words. -/
def bytesOf (ws : List ℕ) : List UInt8 := ws.flatMap fun w => [uchar (w >>> 8), uchar w]

/-- The bytes stored so far, and zeros. -/
def fill (l : List UInt8) : List UInt8 := l ++ List.replicate (16 - l.length) 0

/-- The state of the loop when the bytes `l` are stored and `t` lies behind the last word. -/
def stored (e : ℕ) (v4 : Bool) (l : List UInt8) (t : Text) : Parse := ⟨l.length, e, v4, fill l, t⟩

section

variable {l : List UInt8} {ws : List ℕ} {w n e b : ℕ} {v4 : Bool} {t : Text}

theorem length_bytesOf (ws : List ℕ) : (bytesOf ws).length = 2 * ws.length := by
  induction ws with
  | nil => rfl
  | cons w ws ih =>
    rw [bytesOf, List.flatMap_cons, List.length_append, ← bytesOf, ih, List.length_cons]
    simp only [List.length_cons, List.length_nil]
    ring

theorem bytesOf_append (ws ws' : List ℕ) : bytesOf (ws ++ ws') = bytesOf ws ++ bytesOf ws' :=
  List.flatMap_append

theorem bytesOf_replicate (k : ℕ) : bytesOf (List.replicate k 0) = List.replicate (2 * k) 0 := by
  induction k with
  | zero => rfl
  | succ k ih =>
    rw [List.replicate_succ, bytesOf, List.flatMap_cons, ← bytesOf, ih]
    rfl

theorem drop_toList (p : Ipaddr) {j : ℕ} (hj : j < 16) :
    p.toList.drop j = byte p j :: p.toList.drop (j + 1) := by
  have hj' : j < p.toList.length := by rwa [Vector.length_toList]
  rw [byte, List.getD_eq_getElem?_getD, List.getElem?_eq_getElem hj', Option.getD_some]
  exact List.drop_eq_getElem_cons hj'

/-- An address is the bytes of its words. -/
theorem bytesOf_wordsFrom (p : Ipaddr) : bytesOf (wordsFrom p 0 8) = p.toList := by
  have hword (i : ℕ) : [uchar (word p i >>> 8), uchar (word p i)] = [byte p i, byte p (i + 1)] := by
    have hhigh := (byte p i).toNat_lt
    have hlow := (byte p (i + 1)).toNat_lt
    have hsplit : word p i >>> 8 = (byte p i).toNat := by
      rw [word, Nat.shiftLeft_eq, Nat.shiftRight_eq_div_pow]
      omega
    have hrest : uchar (word p i) = byte p (i + 1) := by
      refine UInt8.toNat.inj ?_
      rw [toNat_uchar, word, Nat.shiftLeft_eq]
      omega
    rw [hsplit, hrest, uchar_toNat]
  have hall (n i : ℕ) (hi : i + 2 * n ≤ 16) :
      bytesOf (wordsFrom p i n) = (p.toList.drop i).take (2 * n) := by
    induction n generalizing i with
    | zero => rw [Nat.mul_zero, List.take_zero, wordsFrom, bytesOf, List.flatMap_nil]
    | succ n ih =>
      rw [wordsFrom, bytesOf, List.flatMap_cons, ← bytesOf, hword, ih (i + 2) (by omega),
        drop_toList p (show i < 16 by omega), drop_toList p (show i + 1 < 16 by omega),
        show 2 * (n + 1) = 2 * n + 1 + 1 by ring,
        List.take_succ_cons, List.take_succ_cons]
      rfl
  rw [hall 8 0 (by decide), List.drop_zero]
  exact List.take_of_length_le Vector.length_toList.le

theorem put_fill (h : l.length < 16) : put (fill l) l.length b = some (fill (l ++ [uchar b])) := by
  obtain ⟨k, hk⟩ : ∃ k, 16 - l.length = k + 1 := ⟨15 - l.length, by omega⟩
  have hlen : l.length < (fill l).length := by
    rw [fill, List.length_append, List.length_replicate]
    omega
  rw [put, if_pos hlen, fill, fill, List.length_append, List.length_singleton,
    show 16 - (l.length + 1) = k by omega, hk, List.replicate_succ,
    List.set_append_right _ _ le_rfl, Nat.sub_self, List.set_cons_zero, List.append_assoc]
  rfl

theorem colon_of_ne {s : Parse} (h : s.p.head? ≠ some ':') : s.colon = s := by
  unfold Parse.colon
  split
  · rename_i heq
    exact absurd (by rw [heq]; rfl) h
  · rename_i heq
    exact absurd (by rw [heq]; rfl) h
  · rfl

theorem colon_of_cons {s : Parse} (h : s.p = ':' :: t) (ht : t.head? ≠ some ':') :
    s.colon = { s with v4 := false, p := t } := by
  unfold Parse.colon
  split
  · rename_i heq
    rw [h] at heq
    obtain ⟨-, rfl⟩ := List.cons.inj heq
    exact absurd rfl ht
  · rename_i heq
    rw [h] at heq
    obtain ⟨-, rfl⟩ := List.cons.inj heq
    rfl
  · rename_i hnot
    exact absurd h (hnot t)

/-- A word is read and stored. -/
theorem parseLoop_word (hl : l.length + 2 ≤ 16) (hw : w < 65536) (hstop : Stops t)
    (hdot : t.head? ≠ some '.') (hend : t ≠ [] ∨ l ≠ []) :
    parseLoop (n + 1) (stored e v4 l (hex w ++ t)) =
      parseLoop n
        { (⟨l.length, e, v4, fill (l ++ [uchar (w >>> 8), uchar w]), t⟩ : Parse).colon with
          i := l.length + 2 } := by
  have hne : hex w ++ t ≠ [] :=
    List.append_ne_nil_of_left_ne_nil (Numeral.toDigits_ne_nil (by decide) w) t
  have hfirst := put_fill (l := l) (b := w >>> 8) (by omega)
  have hsecond := put_fill (l := l ++ [uchar (w >>> 8)]) (b := w)
    (by rw [List.length_append, List.length_singleton]; omega)
  rw [List.length_append, List.length_singleton, List.append_assoc] at hsecond
  have hlen : ¬(16 ≤ l.length ∨ hex w ++ t = []) := not_or.mpr ⟨by omega, hne⟩
  have hv4 : ¬(t.head? = some '.' ∨ t = [] ∧ l.length = 0) := by
    rintro (h | ⟨rfl, h⟩)
    · exact hdot h
    · exact hend.elim (fun h' => h' rfl) fun h' => h' (List.length_eq_zero_iff.mp h)
  have hi (s : Parse) : s.colon.i = s.i := by
    unfold Parse.colon
    split <;> rfl
  rw [stored, parseLoop]
  dsimp only
  rw [if_neg hlen, strtoul_hex (by omega) hstop]
  dsimp only
  rw [if_neg hv4, hfirst, Option.bind_some, hsecond, Option.bind_some, hi]
  rfl

/-- A word before another one. -/
theorem parseLoop_colon (hl : l.length + 2 ≤ 16) (hw : w < 65536) (ht : t.head? ≠ some ':') :
    parseLoop (n + 1) (stored e v4 l (hex w ++ ':' :: t)) =
      parseLoop n (stored e false (l ++ [uchar (w >>> 8), uchar w]) t) := by
  have hstop : Stops (':' :: t) := fun c hc => .inl (Option.some.inj hc).symm
  have hdot : (':' :: t).head? ≠ some '.' := fun h => absurd (Option.some.inj h) (by decide)
  rw [parseLoop_word hl hw hstop hdot (.inl (List.cons_ne_nil _ _)), colon_of_cons rfl ht, stored,
    List.length_append]
  rfl

theorem head_hex (w : ℕ) (t : Text) (h : Stops t) : (hex w ++ t).head? ≠ some ':' := by
  obtain ⟨d, hd, r, heq, -⟩ := toDigits_cons (b := 16) (by decide) le_rfl w h
  have hne : ∀ d < 16, d.digitChar ≠ ':' := by decide
  rw [hex, heq]
  exact fun h => hne d hd (Option.some.inj h)

theorem stops_nil : Stops [] := fun c hc => absurd hc (Option.not_mem_none c)

theorem stops_colons (ws : List ℕ) (h : Stops t) : Stops (colons ws ++ t) := by
  cases ws with
  | nil => exact h
  | cons w ws => exact fun c hc => .inl (Option.some.inj hc).symm

theorem joined_cons_append (w w' : ℕ) (ws : List ℕ) (t : Text) :
    joined (w :: w' :: ws) ++ t = hex w ++ ':' :: (joined (w' :: ws) ++ t) := by
  rw [joined, joined, colons_cons]
  simp only [List.append_assoc, List.cons_append]

theorem joined_singleton (w : ℕ) : joined [w] = hex w := by
  rw [joined, colons, List.flatMap_nil, List.append_nil]

/-- Words are read up to an elision. -/
theorem parseLoop_elided (hws : ∀ w ∈ ws, w < 65536) (hne : ws ≠ [])
    (hl : l.length + 2 * ws.length ≤ 16) :
    parseLoop (ws.length + n) (stored e v4 l (joined ws ++ ':' :: ':' :: t)) =
      parseLoop n (stored (l ++ bytesOf ws).length false (l ++ bytesOf ws) t) := by
  induction ws generalizing l e v4 with
  | nil => exact absurd rfl hne
  | cons w ws ih =>
    rw [List.length_cons] at hl
    have hw := hws w List.mem_cons_self
    have hstop : Stops (':' :: ':' :: t) := fun c hc => .inl (Option.some.inj hc).symm
    cases ws with
    | nil =>
      have hdot : (':' :: ':' :: t).head? ≠ some '.' :=
        fun h => absurd (Option.some.inj h) (by decide)
      rw [joined_singleton, List.length_singleton, Nat.add_comm 1 n,
        parseLoop_word (by omega) hw hstop hdot (.inl (List.cons_ne_nil _ _)), stored,
        List.length_append]
      rfl
    | cons w' ws =>
      rw [joined_cons_append, List.length_cons, Nat.succ_add, parseLoop_colon (by omega) hw, ih]
      · rw [List.append_assoc]
        rfl
      · exact fun w hw => hws w (List.mem_cons_of_mem _ hw)
      · exact List.cons_ne_nil _ _
      · rw [List.length_append, List.length_cons, List.length_singleton]
        omega
      · rw [joined, List.append_assoc]
        exact head_hex w' _ (stops_colons ws hstop)

/-- Words are read up to the end. -/
theorem parseLoop_joined (hws : ∀ w ∈ ws, w < 65536) (hl : l.length + 2 * ws.length ≤ 16)
    (hv4 : v4 = false ∧ l ≠ [] ∨ 2 ≤ ws.length) :
    parseLoop (ws.length + n) (stored e v4 l (joined ws)) =
      some (stored e false (l ++ bytesOf ws) []) := by
  have hend (n : ℕ) (v4 : Bool) (l : List UInt8) :
      parseLoop n (stored e v4 l []) = some (stored e v4 l []) := by
    cases n with
    | zero => rfl
    | succ n => rw [parseLoop, if_pos (.inr rfl)]
  induction ws generalizing l v4 with
  | nil =>
    obtain ⟨rfl, -⟩ := hv4.resolve_right (by rw [List.length_nil]; omega)
    rw [joined, hend, bytesOf, List.flatMap_nil, List.append_nil]
  | cons w ws ih =>
    rw [List.length_cons] at hl hv4
    have hw := hws w List.mem_cons_self
    cases ws with
    | nil =>
      obtain ⟨rfl, hne⟩ := hv4.resolve_right (by rw [List.length_nil]; omega)
      have hnone (c : Char) : ([] : Text).head? ≠ some c := nofun
      have hword := @parseLoop_word l w n e false [] (by omega) hw stops_nil (hnone _) (.inr hne)
      rw [List.append_nil, colon_of_ne (hnone _)] at hword
      have hstored :
          (⟨l.length + 2, e, false, fill (l ++ [uchar (w >>> 8), uchar w]), []⟩ : Parse) =
            stored e false (l ++ bytesOf [w]) [] := by
        rw [stored, List.length_append]
        rfl
      rw [joined_singleton, List.length_singleton, Nat.add_comm 1 n, hword]
      exact (congrArg (parseLoop n) hstored).trans (hend _ _ _)
    | cons w' ws =>
      have hjoined := joined_cons_append w w' ws []
      rw [List.append_nil, List.append_nil] at hjoined
      rw [hjoined, List.length_cons, Nat.succ_add, parseLoop_colon (by omega) hw, ih]
      · rw [List.append_assoc]
        rfl
      · exact fun w hw => hws w (List.mem_cons_of_mem _ hw)
      · rw [List.length_append, List.length_cons, List.length_singleton]
        omega
      · exact .inl ⟨rfl, List.append_ne_nil_of_right_ne_nil _ (List.cons_ne_nil _ _)⟩
      · rw [joined]
        have hstop := stops_colons ws stops_nil
        rw [List.append_nil] at hstop
        exact head_hex w' _ hstop

end

/-! ### Round trips -/

section

variable {p : Ipaddr} {l : List UInt8} {e i j : ℕ} {s : Text}

/-- The zeros that an elision stands for are put in. -/
theorem parseip_of_loop (h : parseLoop 8 (stored 0 true [] s) = some (stored e false l []))
    (he : e ≤ l.length) (hl : l.length ≤ 16) :
    parseip s = some (6, l.take e ++ List.replicate (16 - l.length) 0 ++ l.drop e) := by
  have hfill : (fill l).length = 16 := by
    rw [fill, List.length_append, List.length_replicate]
    omega
  have hstart : ({ dst := List.replicate 16 0, p := s } : Parse) = stored 0 true [] s := rfl
  rw [parseip, hstart, h, Option.map_some, stored]
  dsimp only
  rw [if_neg Bool.false_ne_true]
  by_cases hlt : l.length < 16
  · have hend : (fill l).drop (e + 16 - l.length + (l.length - e)) = [] :=
      List.drop_eq_nil_of_le (by omega)
    have hslice : ((fill l).drop e).take (l.length - e) = l.drop e := by
      rw [fill, List.drop_append_of_le_length he,
        List.take_append_of_le_length (by rw [List.length_drop])]
      exact List.take_of_length_le (by rw [List.length_drop])
    have htake : (fill l).take e = l.take e := List.take_append_of_le_length he
    have hlen : ((fill l).take (e + 16 - l.length)).length = e + 16 - l.length := by
      rw [List.length_take]
      omega
    rw [if_pos hlt, memset, memmove, hend, List.append_nil, hslice,
      List.take_append_of_le_length (by omega), List.take_take, min_eq_left (by omega), htake,
      show e + (16 - l.length) = ((fill l).take (e + 16 - l.length)).length by omega,
      List.drop_left]
  · rw [if_neg hlt, show 16 - l.length = 0 by omega, List.replicate_zero, List.append_nil,
      List.take_append_drop, fill, show 16 - l.length = 0 by omega, List.replicate_zero,
      List.append_nil]

/-- The bytes of an address with zero words. -/
theorem toList_of_zeros (hij : i < j) (hj : j ≤ 8)
    (hzero : wordsFrom p (2 * i) (j - i) = List.replicate (j - i) 0) :
    p.toList = bytesOf (wordsFrom p 0 i) ++ List.replicate (2 * (j - i)) 0 ++
      bytesOf (wordsFrom p (2 * j) (8 - j)) := by
  have hsplit : wordsFrom p 0 8 = wordsFrom p 0 i ++ (wordsFrom p (2 * i) (j - i) ++
      wordsFrom p (2 * j) (8 - j)) := by
    have hsum : 8 = i + ((j - i) + (8 - j)) := by omega
    conv_lhs => rw [hsum]
    rw [wordsFrom_add, wordsFrom_add, Nat.zero_add, show 2 * i + 2 * (j - i) = 2 * j by omega]
  rw [← bytesOf_wordsFrom, hsplit, hzero, bytesOf_append, bytesOf_append, bytesOf_replicate,
    List.append_assoc]

theorem parseip_joined : parseip (joined (wordsFrom p 0 8)) = some (6, p.toList) := by
  have hloop := @parseLoop_joined [] (wordsFrom p 0 8) 0 0 true
    (fun w hw => wordsFrom_lt hw) (by rw [length_wordsFrom]; decide)
    (.inr (by rw [length_wordsFrom]; decide))
  rw [length_wordsFrom, List.nil_append] at hloop
  have hlen : (bytesOf (wordsFrom p 0 8)).length = 16 := by rw [length_bytesOf, length_wordsFrom]
  rw [parseip_of_loop hloop (Nat.zero_le _) hlen.le, hlen, Nat.sub_self, List.replicate_zero,
    List.take_zero, List.drop_zero, List.append_nil, List.nil_append, bytesOf_wordsFrom]

/-- An elision at the start is read as a zero word and an elision. -/
theorem parseLoop_start (n : ℕ) (t : Text) :
    parseLoop (n + 1) (stored 0 true [] (':' :: ':' :: t)) =
      parseLoop n (stored 2 false (bytesOf [0]) t) := by
  have hnum : strtoul (':' :: ':' :: t) 16 = (0, ':' :: ':' :: t) := rfl
  have hlen : ¬(16 ≤ (stored 0 true [] (':' :: ':' :: t)).i ∨
      (stored 0 true [] (':' :: ':' :: t)).p = []) := 
    not_or.mpr ⟨show ¬16 ≤ 0 by decide, List.cons_ne_nil _ _⟩
  have hv4 : ¬((':' :: ':' :: t).head? = some '.' ∨ ':' :: ':' :: t = [] ∧
      (stored 0 true [] (':' :: ':' :: t)).i = 0) :=
    not_or.mpr ⟨fun h => absurd (Option.some.inj h) (by decide), fun h => List.cons_ne_nil _ _ h.1⟩
  have htext : (stored 0 true [] (':' :: ':' :: t)).p = ':' :: ':' :: t := rfl
  rw [parseLoop, if_neg hlen, htext, hnum]
  dsimp only
  rw [if_neg hv4]
  rfl

theorem parseip_elided (hij : i < j) (hj : j ≤ 8)
    (hzero : wordsFrom p (2 * i) (j - i) = List.replicate (j - i) 0) :
    parseip (joined (wordsFrom p 0 i) ++ [':', ':'] ++ joined (wordsFrom p (2 * j) (8 - j))) =
      some (6, p.toList) := by
  -- the words before the elision; an elision at the start stands for one word more
  obtain ⟨pre, hpre, hpos, hsum, hloop⟩ : ∃ pre : List ℕ, pre ≠ [] ∧ pre.length + (8 - j) ≤ 8 ∧
      bytesOf pre ++ List.replicate (16 - 2 * pre.length - 2 * (8 - j)) 0 =
        bytesOf (wordsFrom p 0 i) ++ List.replicate (2 * (j - i)) 0 ∧
      ∃ n, 8 - j ≤ n ∧ parseLoop 8 (stored 0 true []
        (joined (wordsFrom p 0 i) ++ [':', ':'] ++ joined (wordsFrom p (2 * j) (8 - j)))) =
          parseLoop n (stored (bytesOf pre).length false (bytesOf pre)
            (joined (wordsFrom p (2 * j) (8 - j)))) := by
    rcases Nat.eq_zero_or_pos i with rfl | hi
    · refine ⟨[0], List.cons_ne_nil _ _, ?_, ?_, 7, by omega, parseLoop_start 7 _⟩
      · rw [List.length_singleton]
        omega
      · have hword : bytesOf [0] = List.replicate 2 0 := rfl
        have hnone : bytesOf (wordsFrom p 0 0) = [] := rfl
        rw [hword, hnone, List.nil_append, List.replicate_append_replicate, List.length_singleton]
        congr 1
        omega
    · have hlen := length_wordsFrom p 0 i
      have hne : wordsFrom p 0 i ≠ [] := by
        intro h
        rw [h, List.length_nil] at hlen
        omega
      have helided := @parseLoop_elided [] (wordsFrom p 0 i) (8 - i) 0 true
        (joined (wordsFrom p (2 * j) (8 - j))) (fun w hw => wordsFrom_lt hw) hne
        (by rw [hlen, List.length_nil]; omega)
      rw [hlen, List.nil_append, show i + (8 - i) = 8 by omega] at helided
      refine ⟨wordsFrom p 0 i, hne, by omega, ?_, 8 - i, by omega, ?_⟩
      · rw [hlen]
        congr 2
        omega
      · rw [List.append_assoc]
        exact helided
  obtain ⟨n, hn, hloop⟩ := hloop
  obtain ⟨k, rfl⟩ := Nat.exists_eq_add_of_le hn
  have hlen : (bytesOf pre).length = 2 * pre.length := length_bytesOf pre
  have hpost : (bytesOf (wordsFrom p (2 * j) (8 - j))).length = 2 * (8 - j) := by
    rw [length_bytesOf, length_wordsFrom]
  have hne : bytesOf pre ≠ [] := by
    intro h
    rw [h, List.length_nil] at hlen
    exact hpre (List.length_eq_zero_iff.mp (by omega))
  have hrest := @parseLoop_joined (bytesOf pre) (wordsFrom p (2 * j) (8 - j)) k
    (bytesOf pre).length false (fun w hw => wordsFrom_lt hw)
    (by rw [hlen, length_wordsFrom]; omega) (.inl ⟨rfl, hne⟩)
  rw [length_wordsFrom] at hrest
  rw [hrest] at hloop
  have htotal : (bytesOf pre ++ bytesOf (wordsFrom p (2 * j) (8 - j))).length =
      2 * pre.length + 2 * (8 - j) := by rw [List.length_append, hlen, hpost]
  rw [parseip_of_loop hloop (by rw [htotal, hlen]; omega) (by rw [htotal]; omega), List.take_left,
    List.drop_left, htotal, ← Nat.sub_sub, hsum, toList_of_zeros hij hj hzero]

theorem length_decimal_le (b : UInt8) : (decimal b.toNat).length ≤ 3 :=
  Numeral.length_toDigits_le (by decide) (by decide) (by have := b.toNat_lt; omega)

theorem toNat_lt_ulong (b : UInt8) : b.toNat < 2 ^ 32 := by
  have := b.toNat_lt
  omega

/-- `ifmt` fits the buffer. -/
theorem snprint_ifmt (a b c d : UInt8) : snprint (ifmt a b c d) = ifmt a b c d := by
  have ha := length_decimal_le a
  have hb := length_decimal_le b
  have hc := length_decimal_le c
  have hd := length_decimal_le d
  refine List.take_of_length_le ?_
  simp only [ifmt, List.length_append, List.length_cons, bufsize]
  omega

theorem stops_dot (t : Text) : Stops ('.' :: t) := fun _ hc => .inr (Option.some.inj hc).symm

theorem decimal_append_ne_nil (n : ℕ) (t : Text) : decimal n ++ t ≠ [] :=
  List.append_ne_nil_of_left_ne_nil (Numeral.toDigits_ne_nil (by decide) n) t

/-- A byte before a dot. -/
theorem v4parseLoop_dot {k : ℕ} {dst : List UInt8} (b : UInt8) (t : Text) (hi : i < dst.length) :
    v4parseLoop 0 (k + 1) i dst (decimal b.toNat ++ '.' :: t) =
      v4parseLoop 0 k (i + 1) (dst.set i b) t := by
  rw [v4parseLoop, if_neg (decimal_append_ne_nil _ _),
    strtoul_decimal (toNat_lt_ulong b) (stops_dot t)]
  dsimp only
  rw [Nat.zero_add, put, if_pos hi, Option.bind_some, uchar_toNat, List.head?_cons, if_pos rfl,
    List.tail_cons]

theorem v4parseip_ifmt (a b c d : UInt8) : v4parseip 0 (List.replicate 16 0) (ifmt a b c d) =
    some ([a, b, c, d] ++ List.replicate 12 0, []) := by
  have hlast := strtoul_decimal (toNat_lt_ulong d) stops_nil
  have hne := decimal_append_ne_nil d.toNat []
  rw [List.append_nil] at hlast hne
  rw [v4parseip, ifmt, v4parseLoop_dot a _ (by decide), v4parseLoop_dot b _ (by simp),
    v4parseLoop_dot c _ (by simp), v4parseLoop, if_neg hne, hlast]
  dsimp only
  rw [put, if_pos (by simp), Option.bind_some, uchar_toNat, v4parseLoop, Option.bind_some]
  dsimp only
  -- four bytes are stored, whatever the class is
  split <;> rfl

/-- An address of version 4 that is printed is read. -/
theorem parseip_ifmt (h : p.toList.take 12 = v4prefix) :
    ∃ x, parseip (snprint (ifmt (byte p 12) (byte p 13) (byte p 14) (byte p 15))) =
      some (x, p.toList) := by
  have hbytes : p.toList = v4prefix ++ [byte p 12, byte p 13, byte p 14, byte p 15] := by
    rw [← h]
    conv_lhs => rw [← List.take_append_drop 12 p.toList]
    rw [drop_toList p (by decide : 12 < 16), drop_toList p (by decide : 13 < 16),
      drop_toList p (by decide : 14 < 16), drop_toList p (by decide : 15 < 16),
      List.drop_eq_nil_of_le Vector.length_toList.le]
  generalize byte p 12 = a, byte p 13 = b, byte p 14 = c, byte p 15 = d at hbytes
  obtain ⟨x, hx⟩ := strtoul_decimal_hex a.toNat (stops_dot (decimal b.toNat ++ '.' ::
    (decimal c.toNat ++ '.' :: decimal d.toNat)))
  have hne : ifmt a b c d ≠ [] := decimal_append_ne_nil _ _
  have hloop : parseLoop 8 { dst := List.replicate 16 0, p := ifmt a b c d } =
      some ⟨4, 0, true, [a, b, c, d] ++ List.replicate 12 0, []⟩ := by
    rw [parseLoop, if_neg (not_or.mpr ⟨show ¬16 ≤ 0 by decide, hne⟩)]
    dsimp only
    rw [show strtoul (ifmt a b c d) 16 = _ from hx]
    dsimp only
    rw [if_pos (.inl List.head?_cons), v4parseip_ifmt]
    rfl
  rw [snprint_ifmt, parseip, hloop, hbytes]
  exact ⟨_, rfl⟩

/-- The text of an address fits the buffer and is read; it does not begin as a mask does. -/
theorem fmtaddr_roundtrip (p : Ipaddr) : ∃ s x, fmtaddr p = some s ∧ s.length + 1 ≤ bufsize ∧
    parseip s = some (x, p.toList) ∧ (p.toList.take 12 ≠ v4prefix → s.head? ≠ some '/') := by
  by_cases h : p.toList.take 12 = v4prefix
  · obtain ⟨x, hx⟩ := parseip_ifmt h
    refine ⟨_, x, if_pos h, ?_, hx, fun hne => absurd h hne⟩
    rw [snprint, List.length_take]
    simp only [bufsize]
    omega
  · have hslash (i n : ℕ) (t : Text) (ht : Stops t) (hn : 0 < n) :
        (joined (wordsFrom p i n) ++ t).head? ≠ some '/' := by
      obtain ⟨n, rfl⟩ := Nat.exists_eq_succ_of_ne_zero hn.ne'
      obtain ⟨d, hd, r, heq, -⟩ := toDigits_cons (b := 16) (by decide) le_rfl (word p i)
        (stops_colons (wordsFrom p (i + 2) n) ht)
      have hne : ∀ d < 16, d.digitChar ≠ '/' := by decide
      rw [wordsFrom, joined, List.append_assoc, hex, heq]
      exact fun h => hne d hd (Option.some.inj h)
    obtain heq | ⟨i, j, hij, hj, hzero, heq⟩ := fmtaddr_spec h
    · obtain ⟨-, hlt⟩ := length_joined_lt p 0 8
      refine ⟨_, 6, heq, hlt (by decide), parseip_joined, fun _ => ?_⟩
      have := hslash 0 8 [] stops_nil (by decide)
      rwa [List.append_nil] at this
    · obtain ⟨hle, -⟩ := length_joined_lt p 0 i
      obtain ⟨hle', -⟩ := length_joined_lt p (2 * j) (8 - j)
      refine ⟨_, 6, heq, ?_, parseip_elided hij hj hzero, fun _ => ?_⟩
      · simp only [List.length_append, List.length_cons, List.length_nil, bufsize]
        omega
      · rcases Nat.eq_zero_or_pos i with rfl | hi
        · exact fun h => absurd (Option.some.inj h) (by decide)
        · rw [List.append_assoc]
          exact hslash 0 i _ (fun c hc => .inl (Option.some.inj hc).symm) hi

/-- The number of bits of a mask is read. -/
theorem atoi_decimal (n : ℕ) : atoi (decimal n) = n := by
  obtain ⟨d, hd, r, heq, hx⟩ := toDigits_cons (b := 10) (by decide) (by decide) n stops_nil
  obtain ⟨hspace, hminus, hplus, -⟩ := digitChar_ne (show d < 16 by omega)
  have hscan := Numeral.scan_toDigits (b := 10) (by decide) (by decide) n (stops_nil.ends 10)
  rw [List.append_nil] at heq hscan
  rw [decimal, atoi]
  rcases Nat.eq_zero_or_pos n with rfl | hpos
  · rfl
  · obtain ⟨c, l, hcons, hc⟩ := Numeral.head_toDigits (b := 10) (by decide) (by decide) hpos
    have hne : d.digitChar ≠ '0' := by
      rw [hcons] at heq
      exact (List.cons.inj heq).1 ▸ hc
    rw [heq] at hscan ⊢
    rw [sign_dropWhile hspace hminus hplus]
    dsimp only
    rw [basis_of_ne hne]
    dsimp only
    rw [if_pos rfl, hscan, if_neg Bool.false_ne_true]

/-- A mask that is printed is the one of its number of bits, or printed as an address. -/
theorem fmtmask_spec (p : Ipaddr) :
    (∃ n ≤ 128, fmtmask p = some (snprint ('/' :: decimal n)) ∧ prefixMask n = p.toList) ∨
      fmtmask p = fmtaddr p := by
  -- the bytes of a table, and those of the masks made from it
  have hvals : ∀ b < 256, prefixvals (UInt8.ofNat b) &&& Isprefix ≠ 0 → UInt8.ofNat b ≠ 0xff →
      prefixvals (UInt8.ofNat b) &&& (0xffff ^^^ Isprefix) < 8 ∧
        UInt8.ofNat b = uchar (0xff ^^^
          ((1 <<< (8 - (prefixvals (UInt8.ofNat b) &&& (0xffff ^^^ Isprefix)))) - 1)) := by
    decide +kernel
  have hmask : ∀ i < 16, ∀ v < 8, prefixMask (8 * i + v) =
      List.replicate i (0xff : UInt8) ++
      (uchar (0xff ^^^ ((1 <<< (8 - v)) - 1)) :: List.replicate (15 - i) 0) := by
    decide +kernel
  have hget (i : ℕ) (hi : i < 16) : p.toList[i]? = some (byte p i) := by
    have hlt : i < p.toList.length := by rwa [Vector.length_toList]
    rw [byte, List.getD_eq_getElem?_getD, List.getElem?_eq_getElem hlt, Option.getD_some]
  have hlen : p.toList.length = 16 := Vector.length_toList
  unfold fmtmask
  rcases hfind : (List.range 16).find? fun i => byte p i ≠ 0xff with _ | i
  · have hall := List.find?_eq_none.mp hfind
    refine .inl ⟨128, le_rfl, rfl, ?_⟩
    have hones : p.toList = List.replicate 16 0xff := by
      refine List.eq_replicate_iff.mpr ⟨hlen, fun b hb => ?_⟩
      obtain ⟨j, hj⟩ := List.mem_iff_getElem?.mp hb
      have hlt : j < 16 := hlen ▸ (List.getElem?_eq_some_iff.mp hj).1
      have hne := hall j (List.mem_range.mpr hlt)
      rw [hget j hlt] at hj
      obtain rfl := Option.some.inj hj
      exact not_not.mp fun h => hne (decide_eq_true h)
    rw [hones]
    decide
  · dsimp only
    by_cases hor : prefixvals (byte p i) &&& Isprefix = 0 ∨
        ∃ j ∈ List.range 16, i < j ∧ byte p j ≠ 0
    · rw [if_pos hor]
      exact .inr rfl
    · obtain ⟨hne, hi, hbefore⟩ := List.find?_range_eq_some.mp hfind
      have hi : i < 16 := List.mem_range.mp hi
      obtain ⟨htable, hzeros⟩ := not_or.mp hor
      have hofNat : UInt8.ofNat (byte p i).toNat = byte p i := UInt8.ofNat_toNat
      have hval := hvals (byte p i).toNat (byte p i).toNat_lt
      rw [hofNat] at hval
      obtain ⟨hv, hb⟩ := hval htable (of_decide_eq_true hne)
      have hones : p.toList.take i = List.replicate i 0xff := by
        refine List.eq_replicate_iff.mpr ⟨by rw [List.length_take, hlen]; omega, fun b hb => ?_⟩
        obtain ⟨j, hj⟩ := List.mem_iff_getElem?.mp hb
        rw [List.getElem?_take] at hj
        split at hj
        · rename_i hlt
          have hone := hbefore j hlt
          rw [hget j (by omega)] at hj
          obtain rfl := Option.some.inj hj
          rw [Bool.not_eq_true', decide_eq_false_iff_not] at hone
          exact not_not.mp hone
        · cases hj
      have hrest : p.toList.drop (i + 1) = List.replicate (15 - i) 0 := by
        refine List.eq_replicate_iff.mpr ⟨by rw [List.length_drop, hlen]; omega, fun b hb => ?_⟩
        obtain ⟨j, hj⟩ := List.mem_iff_getElem?.mp hb
        rw [List.getElem?_drop] at hj
        have hlt : i + 1 + j < 16 := hlen ▸ (List.getElem?_eq_some_iff.mp hj).1
        rw [hget _ hlt] at hj
        obtain rfl := Option.some.inj hj
        exact not_not.mp fun hne =>
          hzeros ⟨i + 1 + j, List.mem_range.mpr hlt, by omega, hne⟩
      rw [if_neg hor]
      refine .inl ⟨_, ?_, rfl, ?_⟩
      · omega
      · rw [hmask i hi _ hv, ← hb]
        conv_rhs => rw [← List.take_append_drop i p.toList, hones, drop_toList p hi, hrest]

/-- The text of an address or of a mask that is none of version 4 is read as what was printed, and
every text fits the buffer. -/
theorem text_roundtrip :
    (∀ p, ∃ s x, eipfmt (.I p) = some s ∧ parseip s = some (x, p.toList)) ∧
      (∀ p : Ipaddr, p.toList.take 12 ≠ v4prefix →
        ∃ s x, eipfmt (.M p) = some s ∧ parseipmask s = some (x, p.toList)) ∧
      ∀ f, ∃ s, eipfmt f = some s ∧ s.length + 1 ≤ bufsize := by
  have hsnprint (s : Text) : (snprint s).length + 1 ≤ bufsize := by
    rw [snprint, List.length_take]
    simp only [bufsize]
    omega
  refine ⟨fun p => ?_, fun p h => ?_, fun f => ?_⟩
  · obtain ⟨s, x, hs, -, hx, -⟩ := fmtaddr_roundtrip p
    exact ⟨s, x, hs, hx⟩
  · obtain ⟨n, hn, heq, hmask⟩ | heq := fmtmask_spec p
    · have hshort : snprint ('/' :: decimal n) = '/' :: decimal n := by
        have hdigits : (decimal n).length ≤ 3 :=
          Numeral.length_toDigits_le (by decide) (by decide) (by omega)
        refine List.take_of_length_le ?_
        rw [List.length_cons]
        simp only [bufsize]
        omega
      rw [hshort] at heq
      refine ⟨_, nhgetl (p.toList.drop 12), heq, ?_⟩
      rw [parseipmask, atoi_decimal, Int.toNat_natCast, min_eq_left hn, hmask]
    · obtain ⟨s, x, hs, -, hx, hslash⟩ := fmtaddr_roundtrip p
      refine ⟨s, x, heq.trans hs, ?_⟩
      unfold parseipmask
      split
      · exact absurd List.head?_cons (hslash h)
      · rw [hx, Option.map_some]
        dsimp only
        rw [if_neg h]
  · cases f with
    | E p => exact ⟨_, rfl, hsnprint _⟩
    | I p =>
      obtain ⟨s, x, hs, hlen, -⟩ := fmtaddr_roundtrip p
      exact ⟨s, hs, hlen⟩
    | i lp =>
      obtain ⟨s, x, hs, hlen, -⟩ := fmtaddr_roundtrip
        (.ofFn fun k : Fin 16 => (hnputl (lp.toList.getD (k / 4) 0).toNat).getD (k % 4) 0)
      exact ⟨s, hs, hlen⟩
    | V p => exact ⟨_, rfl, hsnprint _⟩
    | M p =>
      obtain ⟨n, -, heq, -⟩ | heq := fmtmask_spec p
      · exact ⟨_, heq, hsnprint _⟩
      · obtain ⟨s, x, hs, hlen, -⟩ := fmtaddr_roundtrip p
        exact ⟨s, heq.trans hs, hlen⟩
    | other r => exact ⟨_, rfl, by decide⟩

end

theorem text_roundtrip_mask : ∃ s x,
    eipfmt (.M (.ofFn fun i : Fin 16 => if i = 3 then 0xf8 else 0)) = some s ∧
      parseipmask s = some (x, [0, 0, 0, 0xf8, 0, 0, 0, 0, 0, 0, 0, 0, 0, 0, 0, 0]) :=
  text_roundtrip.2.1 (.ofFn fun i : Fin 16 => if i = 3 then 0xf8 else 0) (by decide)

end PlanNine.Ipaux
