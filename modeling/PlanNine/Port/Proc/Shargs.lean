import Mathlib.Data.List.TakeWhile
import PlanNine.Port.Proc.Sysexec

/-!
# The first line of a script

`shargs` of `sysproc.c`, which cuts the line behind `#!` into its words. The line is what could be
read of an `Exec` header, and is not terminated. The newline is looked for first and becomes a NUL,
and then blanks and tabs behind words become NULs as the words are found. The search tests its bound
behind each character, and does not test it when there are none.

## Main definitions

* `shargs`: the routine, on the bytes that were read. To look at another byte has no result.
* `strings`: the strings that pointers into a buffer stand for.
* `Parses`: what the routine should do with a line.

## Main results

* `two_mul_length_words`: how many words there can be.
* `parses_iff`: a line is parsed just when there is something behind `#!`.
-/

namespace PlanNine.Sysexec

def newline : UInt8 := 10

/-- The characters between words. -/
def blank (c : UInt8) : Bool := c = 32 || c = 9

/-- The room of `progarg` in `sysexec`. -/
def nprogarg : ℕ := sizeofExec / 2 + 1

/-- The loop that looks for the newline in the bytes from `s[i]` on, of which `n` were read. It
gives nothing up when it has looked at the last one. -/
def findNewline (n : ℤ) : List UInt8 → ℕ → Option (Option ℕ)
  | [], _ => none
  | c :: s, i =>
      if c = newline then some (some i)
      else if (i : ℤ) = n - 1 then some none
      else findNewline n s (i + 1)

/-- The loop that cuts off the words, in front of a word or inside of one. Its result are pointers
to the words, from here on, and what becomes of the bytes. -/
def cut : Bool → List UInt8 → Option (List ℕ × List UInt8)
  | _, [] => none
  | false, c :: s =>
      if blank c then (cut false s).map fun (ap, s) => (ap.map (· + 1), c :: s)
      else if c = 0 then some ([], c :: s)
      else (cut true s).map fun (ap, s) => (0 :: ap.map (· + 1), c :: s)
  | true, c :: s =>
      if c = 0 then some ([], c :: s)
      else if blank c then (cut false s).map fun (ap, s) => (ap.map (· + 1), 0 :: s)
      else (cut true s).map fun (ap, s) => (ap.map (· + 1), c :: s)

/-- The number of words, the pointers to them, and the buffer. The pointers that were not reached
are those that the caller had. -/
def shargs (line : List UInt8) : Option (ℕ × List ℕ × List UInt8) :=
  let s := line.drop 2
  let n : ℤ := line.length - 2
  (findNewline n s 0).bind fun
    | none => some (0, [], line)
    | some i =>
        (cut false (s.set i 0)).map fun (ap, s) =>
          (ap.length, ap.map (· + 2), line.take 2 ++ s)

/-- The strings that pointers stand for. -/
def strings (buf : List UInt8) (ap : List ℕ) : List (List UInt8) :=
  ap.map fun p => (buf.drop p).takeWhile (· ≠ 0)

/-- The maximal runs of other characters than blanks and tabs. -/
def words (t : List UInt8) : List (List UInt8) := (t.splitOnP blank).filter (· ≠ [])

/-- What is behind `#!` in the first line, or in the part of it in front of a NUL. -/
def command (line : List UInt8) : List UInt8 :=
  ((line.drop 2).takeWhile (· ≠ newline)).takeWhile (· ≠ 0)

/-- A line without an end has no words. The words of another one are counted and stored, and there
is room for them and for the two entries that `sysexec` puts behind them. -/
def Parses (line : List UInt8) : Prop :=
  if newline ∈ line.drop 2 then
    ∃ ap buf, shargs line = some ((words (command line)).length, ap, buf) ∧
      strings buf ap = words (command line) ∧ ap.length + 2 ≤ nprogarg
  else ∃ ap buf, shargs line = some (0, ap, buf)

/-! ### The newline -/

/-- The search stays within the bytes that were read, if there are any. -/
theorem findNewline_eq {n : ℤ} : ∀ {s : List UInt8} {i : ℕ}, (i + s.length : ℤ) = n → s ≠ [] →
    findNewline n s i = some (if newline ∈ s then some (i + s.idxOf newline) else none) := by
  intro s
  induction s with
  | nil => exact fun _ hne => absurd rfl hne
  | cons c s ih =>
    intro i hn _
    rw [List.length_cons] at hn
    rw [findNewline, List.idxOf_cons]
    by_cases hc : c = newline
    · subst hc
      simp
    · have hmem : newline ∈ c :: s ↔ newline ∈ s := by simp [Ne.symm hc]
      rw [if_neg hc]
      cases s with
      | nil =>
        have hlast : (i : ℤ) = n - 1 := by
          simp only [List.length_nil] at hn
          omega
        rw [if_pos hlast, if_neg fun hin => nomatch hmem.mp hin]
      | cons d s =>
        have hlast : ¬ (i : ℤ) = n - 1 := by
          simp only [List.length_cons] at hn
          omega
        have hnext := ih (i := i + 1) (by push_cast at hn ⊢; omega) (by simp)
        rw [if_neg hlast, hnext]
        by_cases hin : newline ∈ d :: s
        · rw [if_pos hin, if_pos (hmem.mpr hin)]
          have hbeq : (c == newline) = false := beq_false_of_ne hc
          simp only [hbeq, cond_false]
          congr 2
          omega
        · rw [if_neg hin, if_neg (mt hmem.mp hin)]

/-! ### The words -/

theorem strings_cons (c : UInt8) (buf : List UInt8) (ap : List ℕ) :
    strings (c :: buf) (ap.map (· + 1)) = strings buf ap := by
  unfold strings
  rw [List.map_map]
  rfl

/-- The words of what is left, in front of a word and inside of one. The first piece goes on with
the word that has begun. -/
theorem cut_spec (rest : List UInt8) : ∀ {t : List UInt8}, (0 : UInt8) ∉ t →
    (∃ ap buf, cut false (t ++ 0 :: rest) = some (ap, buf) ∧
      strings buf ap = (t.splitOnP blank).filter (· ≠ [])) ∧
    ∃ w ws ap buf, t.splitOnP blank = w :: ws ∧ cut true (t ++ 0 :: rest) = some (ap, buf) ∧
      buf.takeWhile (· ≠ 0) = w ∧ strings buf ap = ws.filter (· ≠ []) := by
  have hzero : blank 0 = false := rfl
  intro t
  induction t with
  | nil =>
    intro _
    refine ⟨⟨[], 0 :: rest, ?_, ?_⟩, [], [], [], 0 :: rest, ?_, ?_, ?_, ?_⟩
    · simp [cut, hzero]
    · simp [strings]
    · exact List.splitOnP_nil
    · simp [cut]
    · simp
    · simp [strings]
  | cons c t ih =>
    intro h0
    obtain ⟨hc0, ht0⟩ := not_or.mp (List.mem_cons.not.mp h0)
    have hc : ¬ c = 0 := fun heq => hc0 heq.symm
    obtain ⟨⟨ap, buf, hcut, hstr⟩, w, ws, ap', buf', hsplit, hcut', hw, hstr'⟩ := ih ht0
    rw [List.cons_append, List.splitOnP_cons_eq_if_modifyHead]
    cases hb : blank c with
    | true =>
      rw [if_pos rfl]
      refine ⟨⟨ap.map (· + 1), c :: buf, ?_, ?_⟩, [], _, ap.map (· + 1), 0 :: buf, rfl, ?_, ?_, ?_⟩
      · simp [cut, hb, hcut]
      · rw [strings_cons, hstr]
        simp
      · simp [cut, hb, hc, hcut]
      · simp
      · rw [strings_cons, hstr]
    | false =>
      rw [if_neg (by simp), hsplit, List.modifyHead_cons]
      refine ⟨⟨0 :: ap'.map (· + 1), c :: buf', ?_, ?_⟩, c :: w, ws, ap'.map (· + 1), c :: buf',
        rfl, ?_, ?_, ?_⟩
      · simp [cut, hb, hc, hcut']
      · have hhead : strings (c :: buf') (0 :: ap'.map (· + 1)) =
            (c :: buf').takeWhile (· ≠ 0) :: strings (c :: buf') (ap'.map (· + 1)) := rfl
        rw [hhead, strings_cons, hstr']
        simp only [List.takeWhile_cons, hc, ne_eq, not_false_eq_true, decide_true, if_true]
        rw [hw]
        simp
      · simp [cut, hb, hc, hcut']
      · simp only [List.takeWhile_cons, hc, ne_eq, not_false_eq_true, decide_true, if_true]
        rw [hw]
      · rw [strings_cons, hstr']

/-- Between two words there is a blank. -/
theorem two_mul_length_pieces : ∀ t : List UInt8, 2 * (words t).length ≤ t.length + 1 ∧
    ∀ w ws, t.splitOnP blank = w :: ws → 2 * (ws.filter (· ≠ [])).length ≤ t.length := by
  unfold words
  intro t
  induction t with
  | nil =>
    refine ⟨by simp [List.splitOnP_nil], fun w ws h => ?_⟩
    rw [List.splitOnP_nil] at h
    cases h
    exact Nat.zero_le _
  | cons c t ih =>
    obtain ⟨hall, htail⟩ := ih
    rw [List.splitOnP_cons_eq_if_modifyHead]
    cases hb : blank c with
    | true =>
      rw [if_pos rfl]
      refine ⟨?_, fun w ws h => ?_⟩
      · rw [List.filter_cons_of_neg (by simp), List.length_cons]
        omega
      · cases h
        exact hall
    | false =>
      obtain ⟨w, ws, hsplit⟩ := List.exists_cons_of_ne_nil (List.splitOnP_ne_nil blank t)
      have hle := htail w ws hsplit
      rw [if_neg (by simp), hsplit, List.modifyHead_cons]
      refine ⟨?_, fun w' ws' h => ?_⟩
      · rw [List.filter_cons_of_pos (by simp), List.length_cons, List.length_cons]
        omega
      · cases h
        exact hle.trans (Nat.le_succ _)

theorem two_mul_length_words (t : List UInt8) : 2 * (words t).length ≤ t.length + 1 :=
  (two_mul_length_pieces t).1

/-! ### The whole line -/

/-- The terminator is behind the command, whichever is first. -/
theorem set_newline : ∀ {s : List UInt8}, newline ∈ s → ∃ rest,
    s.set (s.idxOf newline) 0 =
      (s.takeWhile (· ≠ newline)).takeWhile (· ≠ 0) ++ 0 :: rest := by
  intro s
  induction s with
  | nil => exact nofun
  | cons c s ih =>
    intro hin
    by_cases hc : c = newline
    · subst hc
      exact ⟨s, by simp⟩
    · obtain ⟨rest, hrest⟩ := ih (by simpa [Ne.symm hc] using hin)
      have hbeq : (c == newline) = false := beq_false_of_ne hc
      have htake : (c :: s).takeWhile (· ≠ newline) = c :: s.takeWhile (· ≠ newline) := by
        simp [hc]
      rw [List.idxOf_cons, hbeq, cond_false, List.set_cons_succ, hrest, htake]
      by_cases h0 : c = 0
      · subst h0
        rw [List.takeWhile_cons_of_neg (by simp)]
        exact ⟨_, rfl⟩
      · exact ⟨rest, by simp [h0]⟩

theorem zero_notMem_command (line : List UInt8) : (0 : UInt8) ∉ command line := by
  intro hin
  have hne := List.mem_takeWhile_imp hin
  simp at hne

/-- The newline is not part of the command. -/
theorem length_command {line : List UInt8} (h : newline ∈ line.drop 2) :
    (command line).length < (line.drop 2).length := by
  have hle : (command line).length ≤ ((line.drop 2).takeWhile (· ≠ newline)).length :=
    (List.takeWhile_sublist _).length_le
  refine hle.trans_lt (lt_of_le_of_ne (List.takeWhile_sublist _).length_le fun heq => ?_)
  have hall := (List.takeWhile_sublist (· ≠ newline)).eq_of_length heq
  rw [← hall] at h
  have hne := List.mem_takeWhile_imp h
  simp at hne

/-- What is behind the first two characters. -/
theorem strings_append {pre buf : List UInt8} (h : pre.length = 2) (ap : List ℕ) :
    strings (pre ++ buf) (ap.map (· + 2)) = strings buf ap := by
  unfold strings
  rw [List.map_map]
  refine List.map_congr_left fun p _ => ?_
  have hdrop : (pre ++ buf).drop (p + 2) = buf.drop p := by
    rw [Nat.add_comm, ← h, List.drop_length_add_append]
  simp only [Function.comp_apply]
  rw [hdrop]

/-- Of what can be read of an `Exec` header, a line is parsed just when there is something behind
its first two characters. -/
theorem parses_iff {line : List UInt8} (h2 : 2 ≤ line.length) (hlen : line.length ≤ sizeofExec) :
    Parses line ↔ 3 ≤ line.length := by
  have hdrop : (line.drop 2).length = line.length - 2 := List.length_drop
  have hsize : sizeofExec = 32 := rfl
  constructor
  · intro hparses
    by_contra hshort
    have hnil : line.drop 2 = [] := List.eq_nil_of_length_eq_zero (by omega)
    have hnone : shargs line = none := by
      unfold shargs
      rw [hnil]
      rfl
    unfold Parses at hparses
    rw [hnil, if_neg nofun, hnone] at hparses
    obtain ⟨ap, buf, hsome⟩ := hparses
    cases hsome
  · intro h3
    have hne : line.drop 2 ≠ [] := fun hnil => by
      rw [hnil, List.length_nil] at hdrop
      omega
    have hfind := findNewline_eq (n := line.length - 2) (i := 0) (by rw [hdrop]; omega) hne
    unfold Parses
    split_ifs with hin
    · obtain ⟨rest, hset⟩ := set_newline hin
      obtain ⟨⟨ap, buf, hcut, hstr⟩, -⟩ := cut_spec rest (zero_notMem_command line)
      have hcount : ap.length = (words (command line)).length := by
        rw [words, ← hstr, strings, List.length_map]
      refine ⟨ap.map (· + 2), line.take 2 ++ buf, ?_, ?_, ?_⟩
      · unfold shargs
        dsimp only
        rw [hfind, if_pos hin, Option.bind_some, Nat.zero_add]
        dsimp only
        rw [hset, ← command, hcut, ← hcount]
        rfl
      · rw [strings_append (by rw [List.length_take]; omega), hstr]
        rfl
      · have hwords := two_mul_length_words (command line)
        have hcommand := length_command hin
        have hroom : nprogarg = 17 := rfl
        rw [List.length_map, hcount, hroom]
        omega
    · refine ⟨[], line, ?_⟩
      unfold shargs
      dsimp only
      rw [hfind, if_neg hin, Option.bind_some]

/-- `#!/bin/rc\n`. -/
theorem parses_rc : Parses [35, 33, 47, 98, 105, 110, 47, 114, 99, 10] :=
  (parses_iff (by decide) (by decide)).mpr (by decide)

/-- Of a file that ends behind `#!`, the byte behind it is looked at. -/
theorem not_parses_empty : ¬ Parses [35, 33] := by
  rintro ⟨ap, buf, hsome⟩
  cases hsome

end PlanNine.Sysexec
