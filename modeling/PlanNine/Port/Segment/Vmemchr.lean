import Mathlib.Data.Nat.Bitwise
import PlanNine.Port.Segment.Attach

/-!
# Scanning user memory

`vmemchr` of `fault.c` looks for a byte in memory of which only the first address is known to be
valid. It goes page by page and asks for the first byte of each further page first; a process whose
address is not valid exits. Whether more than one page is left it tells by rounding up, so that it
takes a range within a page, but at its beginning, for one of two pages, and a range that ends
with the first byte of a page for one of one page.

What is done is a list of actions: bytes that are read, and addresses that are found valid or not.
The actions of `memchr` end with the byte that is found.

## Main definitions

* `okaddr`: whether a process has segments with the addresses of a range. The scans take the
  addresses that are valid as a parameter.
* `memchr`, `vmemchr`: the scans, with what they do and what they return.
* `Allowed`: only bytes of a range are read, those of user pages once their page is valid.
* `Scans`: the scan is right.
* `Fits`: the scan stops in time, or the range ends where the pages do.

## Main results

* `scans_iff`: the scan is right just when the range fits.
-/

namespace PlanNine.Segments

def SG_RONLY : ℕ := 0o40

/-- The first segment that has an address. -/
def seg (p : Segs) (addr : ℕ) : Option Segment :=
  (List.finRange NSEG).findSome? fun i => (p i).filter fun n => n.base ≤ addr ∧ addr < n.top

theorem lt_top_of_seg {p : Segs} {addr : ℕ} {s : Segment} (h : seg p addr = some s) :
    addr < s.top := by
  obtain ⟨i, -, hi⟩ := List.exists_of_findSome?_eq_some h
  exact (of_decide_eq_true (Option.filter_eq_some_iff.mp hi).2).2

/-- Whether all of a range lies in segments, and may be written if it is to be. -/
def okrange (p : Segs) (addr len : ℕ) (write : Bool) : Bool :=
  match _h : seg p addr with
  | none => false
  | some s =>
      if write ∧ s.type &&& SG_RONLY ≠ 0 then false
      else if s.top < (addr + len) % 4294967296 then
        okrange p s.top (len - (s.top - addr)) write
      else true
termination_by len
decreasing_by
  have hlt := lt_top_of_seg ‹_›
  omega

def okaddr (p : Segs) (addr len : ℕ) (write : Bool) : Bool :=
  0 ≤ long len ∧ okrange p addr len write

/-- One byte is valid when some segment has it. -/
theorem okaddr_one (p : Segs) (addr : ℕ) : okaddr p addr 1 false = (seg p addr).isSome := by
  have hlong : 0 ≤ long 1 := by decide
  unfold okaddr
  rw [Bool.decide_and, decide_eq_true hlong, Bool.true_and, Bool.decide_eq_true, okrange]
  split
  · rename_i hs
    rw [hs]
    rfl
  · rename_i s hs
    have hlt := lt_top_of_seg hs
    have hmod := Nat.mod_le (addr + 1) 4294967296
    rw [if_neg (by simp), if_neg (by omega), hs]
    rfl

end PlanNine.Segments

namespace PlanNine.Vmemchr

open Segments

inductive Act
  | read (a : ℕ)
  | valid (a : ℕ)
  deriving DecidableEq, Repr

/-- Look for `c` in `n` bytes from `a` on; the bytes read, and the address found. -/
def memchr (mem : ℕ → UInt8) (c : UInt8) : ℕ → ℕ → List Act × Option ℕ
  | _, 0 => ([], none)
  | a, n + 1 =>
      if mem a = c then ([.read a], some a)
      else
        let (acts, r) := memchr mem c ((a + 1) % 4294967296) n
        (.read a :: acts, r)

/-- An address below the kernel's. -/
@[irreducible] def user (a : ℕ) : Bool := a &&& KZERO ≠ KZERO

/-- The bytes from an address to the end of its page. -/
def left (a : ℕ) : ℕ := BY2PG - a % BY2PG

/-- The page behind that of an address. -/
def next (a : ℕ) : ℕ := ulong (a + left a : ℕ)

/-- The address of the last byte, rounded up. -/
def bound (a : ℕ) (n : ℤ) : ℕ := PGROUND (ulong (a + n - 1))

/-- The range takes more than one page, as the comparison tells. -/
@[irreducible] def spans (a : ℕ) (n : ℤ) : Bool := PGROUND a ≠ bound a n

/-- How far the rounded addresses are from each other. -/
def gap (a : ℕ) (n : ℤ) : ℕ :=
  (bound a n + 4294967296 - PGROUND a) % 4294967296 * 2 + if a % BY2PG = 0 then 0 else 1

theorem gap_lt {a : ℕ} {n : ℤ} (h : spans a n = true) :
    gap (next a) (n - left a) < gap a n := by
  unfold spans at h
  have hne := of_decide_eq_true h
  have hbound : bound (next a) (n - left a) = bound a n := by
    unfold bound next left ulong
    congr 1
    omega
  have hlt : bound a n < 4294967296 := by
    unfold bound PGROUND BY2PG
    omega
  have hmod : bound a n % 4096 = 0 := Nat.mul_mod_left _ _
  unfold gap
  rw [hbound, next, left, ulong_natCast]
  unfold PGROUND BY2PG at *
  split_ifs <;> omega

/-- What is done behind some actions. -/
def behind {α : Type} (acts : List Act) (r : List Act × α) : List Act × α := (acts ++ r.1, r.2)

/-- What is done to find `c` in `n` bytes from `a` on, and the address returned; the process may
exit. `ok` tells which addresses are valid. -/
def vmemchr (ok : ℕ → Bool) (mem : ℕ → UInt8) (c : UInt8) (a : ℕ) (n : ℤ) :
    List Act × Option (Option ℕ) :=
  if _h : spans a n then
    match memchr mem c a (left a) with
    | (acts, some t) => (acts, some (some t))
    | (acts, none) =>
        if user (next a) then
          if ok (next a) then
            behind (acts ++ [.valid (next a)]) (vmemchr ok mem c (next a) (n - left a))
          else (acts ++ [.valid (next a)], none)
        else behind acts (vmemchr ok mem c (next a) (n - left a))
  else
    let (acts, r) := memchr mem c a (ulong n)
    (acts, some r)
termination_by gap a n
decreasing_by all_goals exact gap_lt ‹_›

/-! ### What the scan should do -/

/-- The page of an address. -/
def page (a : ℕ) : ℕ := a / BY2PG * BY2PG

/-- Only bytes from `s` up to `e` are read, those of user pages once their page was asked for. -/
def Allowed (s e : ℕ) : (ℕ → Prop) → List Act → Prop
  | _, [] => True
  | V, .read a :: acts => (s ≤ a ∧ a < e ∧ (user a → V (page a))) ∧ Allowed s e V acts
  | V, .valid a :: acts => Allowed s e (fun p => V p ∨ p = a) acts

/-- A user page behind the first one is not valid, and the byte is not found before. -/
def Invalid (ok : ℕ → Bool) (mem : ℕ → UInt8) (c : UInt8) (s e : ℕ) : Prop :=
  ∃ p, s < p ∧ p < e ∧ p % BY2PG = 0 ∧ user p ∧ ok p = false ∧ ∀ b, s ≤ b → b < p → mem b ≠ c

/-- What is read is allowed where the pages `V` are valid, the first address is returned that holds
the byte, and the process exits only where a page is not valid. -/
structure Scans (ok : ℕ → Bool) (mem : ℕ → UInt8) (c : UInt8) (s n : ℕ) (V : ℕ → Prop)
    (r : List Act × Option (Option ℕ)) : Prop where
  allowed : Allowed s (s + n) V r.1
  first : ∀ t, r.2 = some t → t = (List.range' s n).find? fun a => mem a = c
  exits : r.2 = none → Invalid ok mem c s (s + n)

/-- The first page boundary that is not below an address. -/
def boundary (s : ℕ) : ℕ := (s + (BY2PG - 1)) / BY2PG * BY2PG

/-- The scan has to stop before the end of the range: the byte is there, or a page is not valid. -/
def Stops (ok : ℕ → Bool) (mem : ℕ → UInt8) (c : UInt8) (s n : ℕ) : Prop :=
  (∃ a, s ≤ a ∧ a < s + n ∧ mem a = c) ∨
    ∃ p, s < p ∧ p < s + n ∧ p % BY2PG = 0 ∧ user p ∧ ok p = false

/-- A range that goes beyond the first byte of a second page, or begins with a page and has more
than a byte, ends with a page whose successor is valid or not asked for, or with the first byte of a
page, unless the scan has to stop before; and a range that ends with the first byte of the second
page is the kernel's there, or has the byte in the first page. -/
def Fits (ok : ℕ → Bool) (mem : ℕ → UInt8) (c : UInt8) (s n : ℕ) : Prop :=
  (boundary s + 1 < s + n → Stops ok mem c s n ∨ (s + n) % BY2PG = 1 ∨
    (s + n) % BY2PG = 0 ∧ (user (ulong (s + n : ℕ)) → ok (ulong (s + n : ℕ)) = true)) ∧
  (s % BY2PG ≠ 0 → boundary s + 1 = s + n → user (boundary s) →
    ∃ a, s ≤ a ∧ a < boundary s ∧ mem a = c)

variable {ok : ℕ → Bool} {mem : ℕ → UInt8} {c : UInt8} {s n e a m p b : ℕ} {V : ℕ → Prop}
  {acts acts' : List Act} {r : List Act × Option (Option ℕ)}

/-! ### Addresses -/

theorem user_eq (h : a < 4294967296) : user a = decide (a < KZERO) := by
  have hk : KZERO = 2 ^ 31 := rfl
  unfold user
  rw [hk, Nat.and_two_pow, decide_eq_decide]
  have hbit : a.testBit 31 = decide (a / 2 ^ 31 % 2 = 1) := Nat.testBit_eq_decide_div_mod_eq
  rw [hbit]
  simp
  omega

theorem page_eq (ha : a % BY2PG = 0) (hab : a ≤ b) (hb : b < a + BY2PG) : page b = a := by
  unfold page BY2PG at *
  omega

theorem boundary_of_aligned (ha : a % BY2PG = 0) : boundary a = a := by
  unfold boundary BY2PG at *
  omega

theorem boundary_eq (ha : a % BY2PG ≠ 0) : boundary a = a + left a := by
  unfold boundary left BY2PG at *
  omega

theorem left_of_aligned (ha : a % BY2PG = 0) : left a = BY2PG := by
  rw [left, ha, Nat.sub_zero]

theorem left_pos (a : ℕ) : 0 < left a := by
  unfold left BY2PG
  omega

theorem left_le (a : ℕ) : left a ≤ BY2PG := Nat.sub_le _ _

theorem left_aligned (a : ℕ) : (a + left a) % BY2PG = 0 := by
  unfold left BY2PG
  omega

/-- No page begins within one. -/
theorem not_aligned (h1 : a < p) (h2 : p < a + left a) : p % BY2PG ≠ 0 := by
  unfold left BY2PG at *
  omega

/-- The comparison tells whether the range goes beyond the first page boundary. -/
theorem spans_iff (hn : 1 ≤ n) (hint : n < 2147483648) (he : a + n ≤ 4294967296) :
    spans a n = true ↔ boundary a + 1 < a + n := by
  have hlast : ulong ((a : ℤ) + (n : ℤ) - 1) = a + n - 1 := by
    unfold ulong
    omega
  unfold spans bound
  rw [hlast, decide_eq_true_eq]
  unfold boundary PGROUND BY2PG
  omega

/-- Behind the range there is nothing left. -/
theorem not_spans_zero (ha : a % BY2PG = 0) : spans a 0 = false := by
  unfold spans bound ulong
  rw [decide_eq_false_iff_not, not_not]
  unfold PGROUND BY2PG at *
  omega

/-! ### Reading -/

theorem find?_memchr (he : a + n ≤ 4294967296) :
    (memchr mem c a n).2 = (List.range' a n).find? fun b => mem b = c := by
  induction n generalizing a with
  | zero => rfl
  | succ n ih =>
    rw [memchr, List.range'_succ, List.find?_cons]
    by_cases h : mem a = c
    · rw [if_pos h, decide_eq_true h]
    · rw [if_neg h, decide_eq_false h]
      cases n with
      | zero => rfl
      | succ n =>
        rw [Nat.mod_eq_of_lt (by omega)]
        exact ih (by omega)

/-- A byte is read when those before it are others. -/
theorem allowed_memchr (he : a + n ≤ 4294967296) : Allowed s e V (memchr mem c a n).1 ↔
    ∀ b, a ≤ b → b < a + n → (∀ b', a ≤ b' → b' < b → mem b' ≠ c) →
      s ≤ b ∧ b < e ∧ (user b → V (page b)) := by
  induction n generalizing a with
  | zero => exact iff_of_true trivial fun b hab hb => absurd hb (by omega)
  | succ n ih =>
    have htail : Allowed s e V (memchr mem c ((a + 1) % 4294967296) n).1 ↔
        ∀ b, a + 1 ≤ b → b < a + (n + 1) → (∀ b', a + 1 ≤ b' → b' < b → mem b' ≠ c) →
          s ≤ b ∧ b < e ∧ (user b → V (page b)) := by
      cases n with
      | zero => exact iff_of_true trivial fun b hab hb => absurd hb (by omega)
      | succ n =>
        rw [Nat.mod_eq_of_lt (by omega), ih (by omega)]
        simp only [Nat.add_assoc, Nat.add_comm 1]
    rw [memchr]
    by_cases h : mem a = c
    · rw [if_pos h]
      constructor
      · rintro ⟨hread, -⟩ b hab hb hbefore
        obtain rfl | hlt := hab.eq_or_lt
        · exact hread
        · exact absurd h (hbefore a le_rfl hlt)
      · exact fun hall => ⟨hall a le_rfl (by omega) fun b' h1 h2 => absurd h2 (by omega), trivial⟩
    · rw [if_neg h]
      have hsplit : Allowed s e V (.read a :: (memchr mem c ((a + 1) % 4294967296) n).1) ↔
          (s ≤ a ∧ a < e ∧ (user a → V (page a))) ∧
            Allowed s e V (memchr mem c ((a + 1) % 4294967296) n).1 := Iff.rfl
      rw [hsplit, htail]
      constructor
      · rintro ⟨hread, hall⟩ b hab hb hbefore
        obtain rfl | hlt := hab.eq_or_lt
        · exact hread
        · exact hall b hlt hb fun b' h1 h2 => hbefore b' (by omega) h2
      · refine fun hall => ⟨hall a le_rfl (by omega) fun b' h1 h2 => absurd h2 (by omega), ?_⟩
        intro b hab hb hbefore
        refine hall b (by omega) hb fun b' h1 h2 => ?_
        obtain rfl | hlt := h1.eq_or_lt
        · exact h
        · exact hbefore b' hlt h2

theorem read_of_mem_memchr {x : Act} (h : x ∈ (memchr mem c a n).1) : ∃ b, x = .read b := by
  induction n generalizing a with
  | zero => cases h
  | succ n ih =>
    rw [memchr] at h
    split_ifs at h
    · exact ⟨a, List.mem_singleton.mp h⟩
    · obtain rfl | h := List.mem_cons.mp h
      · exact ⟨a, rfl⟩
      · exact ih h

theorem allowed_of_append (h : Allowed s e V (acts ++ acts')) : Allowed s e V acts := by
  induction acts generalizing V with
  | nil => trivial
  | cons x acts ih =>
    cases x with
    | read a => exact ⟨h.1, ih h.2⟩
    | valid a => exact ih (V := fun p => V p ∨ p = a) h

/-- Reading makes no page valid. -/
theorem allowed_append (hreads : ∀ x ∈ acts, ∃ b, x = .read b) :
    Allowed s e V (acts ++ acts') ↔ Allowed s e V acts ∧ Allowed s e V acts' := by
  induction acts with
  | nil => exact (and_iff_right trivial).symm
  | cons x acts ih =>
    obtain ⟨a, rfl⟩ := hreads x List.mem_cons_self
    have hih := ih fun x hx => hreads x (List.mem_cons_of_mem _ hx)
    constructor
    · rintro ⟨hread, hrest⟩
      exact ⟨⟨hread, (hih.mp hrest).1⟩, (hih.mp hrest).2⟩
    · rintro ⟨⟨hread, hacts⟩, hrest⟩
      exact ⟨hread, hih.mpr ⟨hacts, hrest⟩⟩

/-! ### The loop -/

theorem vmemchr_of_not {k : ℤ} (h : spans a k = false) : vmemchr ok mem c a k =
    ((memchr mem c a (ulong k)).1, some (memchr mem c a (ulong k)).2) := by
  rw [vmemchr, dif_neg (by rw [h]; decide)]

theorem vmemchr_of_found {k : ℤ} {t : ℕ} (h : spans a k = true)
    (hfound : (memchr mem c a (left a)).2 = some t) :
    vmemchr ok mem c a k = ((memchr mem c a (left a)).1, some (some t)) := by
  obtain ⟨l, hl⟩ : ∃ l, memchr mem c a (left a) = (l, some t) := ⟨_, Prod.ext rfl hfound⟩
  rw [vmemchr, dif_pos h, hl]

theorem vmemchr_of_none {k : ℤ} (h : spans a k = true)
    (hnone : (memchr mem c a (left a)).2 = none) : vmemchr ok mem c a k =
    if user (next a) then
      if ok (next a) then
        behind ((memchr mem c a (left a)).1 ++ [.valid (next a)])
          (vmemchr ok mem c (next a) (k - left a))
      else ((memchr mem c a (left a)).1 ++ [.valid (next a)], none)
    else behind (memchr mem c a (left a)).1 (vmemchr ok mem c (next a) (k - left a)) := by
  obtain ⟨l, hl⟩ : ∃ l, memchr mem c a (left a) = (l, none) := ⟨_, Prod.ext rfl hnone⟩
  rw [vmemchr, dif_pos h, hl]

/-- What is read of the first page is read. -/
theorem allowed_head {k : ℤ} (h : spans a k = true)
    (hallowed : Allowed s e V (vmemchr ok mem c a k).1) :
    Allowed s e V (memchr mem c a (left a)).1 := by
  cases hr : (memchr mem c a (left a)).2 with
  | some t =>
    rw [vmemchr_of_found h hr] at hallowed
    exact hallowed
  | none =>
    rw [vmemchr_of_none h hr] at hallowed
    split_ifs at hallowed
    · exact allowed_of_append (allowed_of_append hallowed)
    · exact allowed_of_append hallowed
    · exact allowed_of_append hallowed

theorem scans_behind (hreads : ∀ x ∈ acts, ∃ b, x = .read b) (hacts : Allowed s (s + n) V acts) :
    Scans ok mem c s n V (behind acts r) ↔ Scans ok mem c s n V r := by
  have hiff : Allowed s (s + n) V (acts ++ r.1) ↔ Allowed s (s + n) V r.1 :=
    (allowed_append hreads).trans (and_iff_right hacts)
  exact ⟨fun h => ⟨hiff.mp h.allowed, h.first, h.exits⟩,
    fun h => ⟨hiff.mpr h.allowed, h.first, h.exits⟩⟩

theorem scans_behind_valid (hreads : ∀ x ∈ acts, ∃ b, x = .read b)
    (hacts : Allowed s (s + n) V acts) : Scans ok mem c s n V (behind (acts ++ [.valid p]) r) ↔
      Scans ok mem c s n (fun q => V q ∨ q = p) r := by
  have hiff : Allowed s (s + n) V (acts ++ [.valid p] ++ r.1) ↔
      Allowed s (s + n) (fun q => V q ∨ q = p) r.1 := by
    rw [List.append_assoc]
    exact (allowed_append hreads).trans (and_iff_right hacts)
  exact ⟨fun h => ⟨hiff.mp h.allowed, h.first, h.exits⟩,
    fun h => ⟨hiff.mpr h.allowed, h.first, h.exits⟩⟩

/-- Where the byte is not in front, the range behind is scanned. -/
theorem find?_range' {l k : ℕ} (hbefore : ∀ b, s ≤ b → b < s + l → mem b ≠ c) :
    (List.range' s (l + k)).find? (fun b => mem b = c) =
      (List.range' (s + l) k).find? fun b => mem b = c := by
  rw [← List.range'_append_1, List.find?_append, Option.or_eq_right_of_none]
  rw [List.find?_range'_eq_none]
  intro b h1 h2
  simpa using hbefore b h1 h2

/-- The pages that a scan has passed say nothing of whether it stops before the end. -/
theorem stops_step {l k : ℕ} (hl : 0 < l) (hbefore : ∀ b, s ≤ b → b < s + l → mem b ≠ c)
    (hpage : ∀ p, s < p → p < s + l → p % BY2PG ≠ 0)
    (hok : user (s + l) = true → ok (s + l) = true) :
    Stops ok mem c s (l + k) ↔ Stops ok mem c (s + l) k := by
  unfold Stops
  constructor
  · rintro (⟨b, h1, h2, hb⟩ | ⟨p, h1, h2, hp, huser, hbad⟩)
    · refine .inl ⟨b, ?_, by omega, hb⟩
      by_contra hlt
      exact hbefore b h1 (by omega) hb
    · refine .inr ⟨p, ?_, by omega, hp, huser, hbad⟩
      by_contra hle
      obtain hlt | rfl : p < s + l ∨ p = s + l := by omega
      · exact hpage p h1 hlt hp
      · cases (hok huser).symm.trans hbad
  · rintro (⟨b, h1, h2, hb⟩ | ⟨p, h1, h2, hp, huser, hbad⟩)
    · exact .inl ⟨b, by omega, by omega, hb⟩
    · exact .inr ⟨p, by omega, by omega, hp, huser, hbad⟩

/-- What is left to scan: the bytes before are others, the pages passed are valid, and what is left
of this page may be read. -/
structure Left (ok : ℕ → Bool) (mem : ℕ → UInt8) (c : UInt8) (s n : ℕ) (V : ℕ → Prop)
    (a m : ℕ) : Prop where
  le : s ≤ a
  pos : 1 ≤ m
  ends : a + m = s + n
  bound : s + n ≤ 4294967296
  int : n < 2147483648
  readable : ∀ b, a ≤ b → b < a + left a → user b = true → V (page b)
  before : ∀ b, s ≤ b → b < a → mem b ≠ c
  passed : ∀ p, s < p → p ≤ a → p % BY2PG = 0 → user p = true → ok p = true

/-- The bytes of a page are user's when its first one is. -/
theorem readable_of_aligned (ha : a % BY2PG = 0) (hlt : a < 4294967296)
    (h : user a = true → V a) (h1 : a ≤ b) (h2 : b < a + left a) (hb : user b = true) :
    V (page b) := by
  have hend := left_le a
  have hlast : a + BY2PG ≤ 4294967296 := by
    unfold BY2PG at *
    omega
  rw [page_eq ha h1 (h2.trans_le (Nat.add_le_add_left hend a))]
  rw [user_eq (by omega)] at hb
  refine h ?_
  rw [user_eq hlt]
  exact decide_eq_true (h1.trans_lt (of_decide_eq_true hb))

namespace Left

theorem lt (h : Left ok mem c s n V a m) : a < 4294967296 := by
  have hpos := h.pos
  have hends := h.ends
  have hbound := h.bound
  omega

theorem page_le (h : Left ok mem c s n V a m) : a + left a ≤ 4294967296 := by
  have hlt := h.lt
  unfold left BY2PG
  omega

theorem spans_iff (h : Left ok mem c s n V a m) : spans a m = true ↔ boundary a + 1 < a + m := by
  have hle := h.le
  have hends := h.ends
  have hbound := h.bound
  have hint := h.int
  exact Vmemchr.spans_iff h.pos (by omega) (by omega)

theorem find (h : Left ok mem c s n V a m) :
    (List.range' s n).find? (fun b => mem b = c) = (List.range' a m).find? fun b => mem b = c := by
  obtain ⟨l, rfl⟩ := Nat.exists_eq_add_of_le h.le
  have hn : n = l + m := by
    have hends := h.ends
    omega
  rw [hn, find?_range' h.before]

/-- What is left fits into this page. -/
theorem scans_last (h : Left ok mem c s n V a m) (hnot : spans a m = false)
    (hin : a + m ≤ a + left a ∨ user (a + left a) = false ∨ ∃ b, a ≤ b ∧ b < a + left a ∧ mem b = c)
    (hm : m ≤ left a + 1) : Scans ok mem c s n V (vmemchr ok mem c a m) := by
  have hle := h.le
  have hends := h.ends
  have hbound := h.bound
  have hint := h.int
  rw [vmemchr_of_not hnot, ulong_natCast_of_lt (by omega)]
  refine ⟨?_, fun t ht => ?_, nofun⟩
  · rw [allowed_memchr (by omega)]
    intro b h1 h2 hbefore
    refine ⟨by omega, by omega, fun hb => ?_⟩
    obtain hlt | heq : b < a + left a ∨ b = a + left a := by omega
    · exact h.readable b h1 hlt hb
    · subst heq
      obtain hin | hk | ⟨b', hb1, hb2, hb'⟩ := hin
      · omega
      · cases hk.symm.trans hb
      · exact absurd hb' (hbefore b' hb1 hb2)
  · rw [h.find, ← find?_memchr (by omega)]
    exact (Option.some.inj ht).symm

/-- The byte is in this page, before the end. -/
theorem scans_found (h : Left ok mem c s n V a m) (hyes : spans a m = true)
    (hin : ∃ b, a ≤ b ∧ b < a + m ∧ b < a + left a ∧ mem b = c) :
    Scans ok mem c s n V (vmemchr ok mem c a m) := by
  have hle := h.le
  have hends := h.ends
  obtain ⟨b₀, hb1, hb2, hb3, hb⟩ := hin
  obtain ⟨t, ht⟩ : ∃ t, (List.range' a (left a)).find? (fun b => mem b = c) = some t := by
    rw [← Option.isSome_iff_exists, List.find?_isSome]
    exact ⟨b₀, List.mem_range'_1.mpr ⟨hb1, hb3⟩, decide_eq_true hb⟩
  obtain ⟨htc, ⟨ht1, ht2⟩, hbefore⟩ : mem t = c ∧ (a ≤ t ∧ t < a + left a) ∧
      ∀ b, a ≤ b → b < t → mem b ≠ c := by
    obtain ⟨h1, h2, h3⟩ := List.find?_range'_eq_some.mp ht
    refine ⟨of_decide_eq_true h1, List.mem_range'_1.mp h2, fun b hb1 hb2 => ?_⟩
    simpa using h3 b hb1 hb2
  have htb : t ≤ b₀ := by
    by_contra hgt
    exact hbefore b₀ hb1 (by omega) hb
  have hfound : (memchr mem c a (left a)).2 = some t := by rw [find?_memchr h.page_le, ht]
  rw [vmemchr_of_found hyes hfound]
  refine ⟨?_, fun t' ht' => ?_, nofun⟩
  · rw [allowed_memchr h.page_le]
    intro b h1 h2 hbb
    have hbt : b ≤ t := by
      by_contra hgt
      exact hbb t ht1 (by omega) htc
    exact ⟨by omega, by omega, h.readable b h1 h2⟩
  · obtain rfl := Option.some.inj ht'
    symm
    rw [h.find, List.find?_range'_eq_some]
    refine ⟨decide_eq_true htc, List.mem_range'_1.mpr ⟨ht1, by omega⟩, fun b h1 h2 => ?_⟩
    simpa using hbefore b h1 h2

/-- The byte is not in this page, which is all in the range. -/
theorem scan_page (h : Left ok mem c s n V a m) (hm : left a ≤ m)
    (hnot : ∀ b, a ≤ b → b < a + left a → mem b ≠ c) :
    (memchr mem c a (left a)).2 = none ∧ Allowed s (s + n) V (memchr mem c a (left a)).1 := by
  have hle := h.le
  have hends := h.ends
  constructor
  · rw [find?_memchr h.page_le, List.find?_range'_eq_none]
    intro b h1 h2
    simpa using hnot b h1 h2
  · rw [allowed_memchr h.page_le]
    exact fun b h1 h2 _ => ⟨by omega, by omega, h.readable b h1 h2⟩

/-- What is left behind this page. -/
theorem behind (h : Left ok mem c s n V a m) (hm : left a < m)
    (hnot : ∀ b, a ≤ b → b < a + left a → mem b ≠ c) {V' : ℕ → Prop}
    (hv : user (a + left a) = true → V' (a + left a))
    (hok : user (a + left a) = true → ok (a + left a) = true) :
    Left ok mem c s n V' (a + left a) (m - left a) := by
  have hle := h.le
  have hends := h.ends
  have hbound := h.bound
  refine ⟨by omega, by omega, by omega, hbound, h.int, fun b h1 h2 => ?_, fun b h1 h2 => ?_,
    fun p h1 h2 hp hu => ?_⟩
  · exact readable_of_aligned (left_aligned a) (by omega) hv h1 h2
  · by_cases hba : b < a
    · exact h.before b h1 hba
    · exact hnot b (by omega) h2
  · by_cases hpa : p ≤ a
    · exact h.passed p h1 hpa hp hu
    · obtain rfl | hlt := h2.eq_or_lt
      · exact hok hu
      · exact absurd hp (not_aligned (by omega) hlt)

/-- There is another page: the process exits where it is not valid, and goes on where it is. -/
theorem scans_next (h : Left ok mem c s n V a m) (hyes : spans a m = true) (hm : left a < m)
    (hnot : ∀ b, a ≤ b → b < a + left a → mem b ≠ c) {P : Prop}
    (ih : (user (a + left a) = true → ok (a + left a) = true) → ∀ V',
      Left ok mem c s n V' (a + left a) (m - left a) →
      (Scans ok mem c s n V' (vmemchr ok mem c (a + left a) (m - left a : ℕ)) ↔ P)) :
    Scans ok mem c s n V (vmemchr ok mem c a m) ↔
      ((user (a + left a) = true → ok (a + left a) = true) → P) := by
  have hle := h.le
  have hends := h.ends
  have hbound := h.bound
  have hpos := left_pos a
  obtain ⟨hnone, hhead⟩ := h.scan_page hm.le hnot
  have hreads : ∀ x ∈ (memchr mem c a (left a)).1, ∃ b, x = .read b :=
    fun x hx => read_of_mem_memchr hx
  have hnext : next a = a + left a := by
    rw [next, ulong_natCast_of_lt (by omega)]
  have hk : ((m : ℕ) : ℤ) - (left a : ℕ) = (m - left a : ℕ) := by omega
  rw [vmemchr_of_none hyes hnone, hnext, hk]
  split_ifs with huser hvalid
  · have hok : user (a + left a) = true → ok (a + left a) = true := fun _ => hvalid
    rw [scans_behind_valid hreads hhead, ih hok _ (h.behind hm hnot (fun _ => .inr rfl) hok)]
    exact ⟨fun hp _ => hp, fun hp => hp hok⟩
  · refine iff_of_true ⟨?_, nofun, fun _ => ?_⟩ fun hok => absurd (hok huser) hvalid
    · exact (allowed_append hreads).mpr ⟨hhead, trivial⟩
    · refine ⟨a + left a, by omega, by omega, left_aligned a, huser, Bool.eq_false_iff.mpr hvalid,
        fun b h1 h2 => ?_⟩
      by_cases hba : b < a
      · exact h.before b h1 hba
      · exact hnot b (by omega) h2
  · have hok : user (a + left a) = true → ok (a + left a) = true := fun hu => absurd hu huser
    rw [scans_behind hreads hhead,
      ih hok _ (h.behind hm hnot (fun hu => absurd hu huser) hok)]
    exact ⟨fun hp _ => hp, fun hp => hp hok⟩

/-- The range ends with this page: the one behind is asked for. -/
theorem scans_end (h : Left ok mem c s n V a (left a)) (hyes : spans a (left a : ℕ) = true)
    (hnot : ∀ b, a ≤ b → b < a + left a → mem b ≠ c) :
    Scans ok mem c s n V (vmemchr ok mem c a (left a : ℕ)) ↔
      (user (next a) = true → ok (next a) = true) := by
  have hends := h.ends
  obtain ⟨hnone, hhead⟩ := h.scan_page le_rfl hnot
  have hreads : ∀ x ∈ (memchr mem c a (left a)).1, ∃ b, x = .read b :=
    fun x hx => read_of_mem_memchr hx
  have hzero : spans (next a) 0 = false := by
    refine not_spans_zero ?_
    have hal := left_aligned a
    rw [next, ulong_natCast]
    unfold BY2PG at *
    omega
  have hscans (V' : ℕ → Prop) : Scans ok mem c s n V' (vmemchr ok mem c (next a) 0) := by
    rw [vmemchr_of_not hzero]
    refine ⟨trivial, fun t ht => ?_, nofun⟩
    rw [h.find, ← find?_memchr h.page_le, hnone]
    exact (Option.some.inj ht).symm
  rw [vmemchr_of_none hyes hnone, sub_self]
  split_ifs with huser hvalid
  · exact iff_of_true ((scans_behind_valid hreads hhead).mpr (hscans _)) fun _ => hvalid
  · refine iff_of_false (fun hs => ?_) fun hok => hvalid (hok huser)
    obtain ⟨p, h1, h2, hp, hpu, hbad, -⟩ := hs.exits rfl
    by_cases hpa : p ≤ a
    · cases (h.passed p h1 hpa hp hpu).symm.trans hbad
    · exact not_aligned (a := a) (by omega) (by omega) hp
  · exact iff_of_true ((scans_behind hreads hhead).mpr (hscans _)) fun hu => absurd hu huser

/-- The range ends in this page, and the bytes behind are read. -/
theorem not_scans (h : Left ok mem c s n V a m) (hyes : spans a m = true) (hm : m < left a)
    (hnot : ∀ b, a ≤ b → b < a + m → mem b ≠ c) :
    ¬ Scans ok mem c s n V (vmemchr ok mem c a m) := by
  intro hs
  have hends := h.ends
  have hhead := allowed_head hyes hs.allowed
  rw [allowed_memchr h.page_le] at hhead
  have hover := hhead (a + m) (by omega) (by omega) hnot
  omega

end Left

/-! ### The condition -/

theorem fits_aligned (h : a % BY2PG = 0) : Fits ok mem c a m ↔
    (1 < m → Stops ok mem c a m ∨ (a + m) % BY2PG = 1 ∨
      (a + m) % BY2PG = 0 ∧ (user (ulong (a + m : ℕ)) = true → ok (ulong (a + m : ℕ)) = true)) := by
  unfold Fits
  rw [boundary_of_aligned h]
  refine ⟨fun hf hm => hf.1 (by omega), fun hf => ⟨fun hm => hf (by omega), fun hne => ?_⟩⟩
  exact absurd h hne

/-- Where another page follows, the condition is that for the rest. -/
theorem fits_next (hyes : boundary a + 1 < a + m) (hm : left a < m)
    (hnot : ∀ b, a ≤ b → b < a + left a → mem b ≠ c) : Fits ok mem c a m ↔
      ((user (a + left a) = true → ok (a + left a) = true) →
        Fits ok mem c (a + left a) (m - left a)) := by
  have hpos := left_pos a
  have hsum : a + left a + (m - left a) = a + m := by omega
  by_cases hok : user (a + left a) = true → ok (a + left a) = true
  · have hstops := stops_step (k := m - left a) hpos hnot (fun p h1 h2 => not_aligned h1 h2) hok
    rw [Nat.add_sub_cancel' hm.le] at hstops
    rw [fits_aligned (left_aligned a), hsum, ← hstops, imp_iff_right hok]
    unfold Fits
    constructor
    · exact fun hf _ => hf.1 hyes
    · refine fun hf => ⟨fun _ => ?_, fun _ heq => absurd heq hyes.ne⟩
      by_cases hm1 : 1 < m - left a
      · exact hf hm1
      · have hal := left_aligned a
        refine .inr (.inl ?_)
        unfold BY2PG at *
        omega
  · refine iff_of_true ⟨fun _ => .inl (.inr ?_), fun _ heq => absurd heq hyes.ne⟩
      fun hc => absurd hc hok
    rw [Classical.not_imp] at hok
    exact ⟨a + left a, by omega, by omega, left_aligned a, hok.1, Bool.eq_false_iff.mpr hok.2⟩

/-! ### The whole scan -/

theorem scans_loop (h : Left ok mem c s n V a m) (hal : a % BY2PG = 0) :
    Scans ok mem c s n V (vmemchr ok mem c a m) ↔ Fits ok mem c a m := by
  induction m using Nat.strong_induction_on generalizing a V with
  | _ m ih =>
  have hpos := h.pos
  have hspans := h.spans_iff
  rw [boundary_of_aligned hal] at hspans
  have hleft : left a = BY2PG := left_of_aligned hal
  by_cases hone : m = 1
  · have hnot : spans a m = false := Bool.eq_false_iff.mpr (mt hspans.mp (by omega))
    rw [fits_aligned hal]
    exact iff_of_true (h.scans_last hnot (.inl (by rw [hleft, BY2PG]; omega)) (by omega))
      fun hm => absurd hm (by omega)
  have hyes : spans a m = true := hspans.mpr (by omega)
  by_cases hin : ∃ b, a ≤ b ∧ b < a + m ∧ b < a + left a ∧ mem b = c
  · rw [fits_aligned hal]
    refine iff_of_true (h.scans_found hyes hin) fun _ => .inl (.inl ?_)
    obtain ⟨b, h1, h2, -, hb⟩ := hin
    exact ⟨b, h1, h2, hb⟩
  obtain hshort | hlong := lt_or_ge m (left a)
  · have hnot : ∀ b, a ≤ b → b < a + m → mem b ≠ c :=
      fun b h1 h2 hb => hin ⟨b, h1, h2, by omega, hb⟩
    rw [fits_aligned hal]
    refine iff_of_false (h.not_scans hyes hshort hnot) fun hf => ?_
    obtain (⟨b, h1, h2, hb⟩ | ⟨p, h1, h2, hp, -⟩) | hmod | ⟨hmod, -⟩ := hf (by omega)
    · exact hnot b h1 h2 hb
    · exact not_aligned h1 (by omega) hp
    · unfold BY2PG at *
      omega
    · unfold BY2PG at *
      omega
  have hnot : ∀ b, a ≤ b → b < a + left a → mem b ≠ c :=
    fun b h1 h2 hb => hin ⟨b, h1, by omega, h2, hb⟩
  obtain rfl | hgt := hlong.eq_or_lt
  · have hmod : (a + left a) % BY2PG = 0 := left_aligned a
    rw [h.scans_end hyes hnot, fits_aligned hal]
    refine ⟨fun hv _ => .inr (.inr ⟨hmod, hv⟩), fun hf => ?_⟩
    obtain (⟨b, h1, h2, hb⟩ | ⟨p, h1, h2, hp, -⟩) | hbyte | ⟨-, hv⟩ := hf (by omega)
    · exact absurd hb (hnot b h1 h2)
    · exact absurd hp (not_aligned h1 h2)
    · rw [hmod] at hbyte
      cases hbyte
    · exact hv
  · have hgap := left_pos a
    rw [fits_next (by rw [boundary_of_aligned hal]; omega) hgt hnot]
    exact h.scans_next hyes hgt hnot fun _ V' hl => ih _ (by omega) hl (left_aligned a)

/-- The scan is right just when it stops in time, or the range ends where the pages do. -/
theorem vmemchr_scans_iff (ok : ℕ → Bool) (mem : ℕ → UInt8) (c : UInt8) {s n : ℕ} (hn : 1 ≤ n)
    (hint : n < 2147483648) (he : s + n ≤ 4294967296) :
    Scans ok mem c s n (· = page s) (vmemchr ok mem c s n) ↔ Fits ok mem c s n := by
  have hleft : Left ok mem c s n (· = page s) s n := by
    refine ⟨le_rfl, hn, rfl, he, hint, fun b h1 h2 _ => ?_, fun b h1 h2 => absurd h2 (by omega),
      fun p h1 h2 => absurd h2 (by omega)⟩
    unfold page left BY2PG at *
    omega
  by_cases hal : s % BY2PG = 0
  · exact scans_loop hleft hal
  have hbound := boundary_eq hal
  have hspans := hleft.spans_iff
  by_cases hyes : spans s n = true
  · have hmore := hspans.mp hyes
    by_cases hin : ∃ b, s ≤ b ∧ b < s + left s ∧ mem b = c
    · obtain ⟨b, h1, h2, hb⟩ := hin
      refine iff_of_true (hleft.scans_found hyes ⟨b, h1, by omega, h2, hb⟩)
        ⟨fun _ => .inl (.inl ⟨b, h1, by omega, hb⟩), fun _ heq => absurd heq hmore.ne⟩
    · have hnot : ∀ b, s ≤ b → b < s + left s → mem b ≠ c := fun b h1 h2 hb => hin ⟨b, h1, h2, hb⟩
      rw [fits_next hmore (by omega) hnot]
      exact hleft.scans_next hyes (by omega) hnot fun _ V' hl => scans_loop hl (left_aligned s)
  · have hnomore : ¬ boundary s + 1 < s + n := mt hspans.mpr hyes
    have hno : spans s n = false := Bool.eq_false_iff.mpr hyes
    unfold Fits
    by_cases hlast : boundary s + 1 = s + n
    · constructor
      · intro hs
        refine ⟨fun hc => absurd hc hnomore, fun _ _ huser => ?_⟩
        by_contra hin
        have hall := hs.allowed
        rw [vmemchr_of_not hno, ulong_natCast_of_lt (by omega), allowed_memchr he] at hall
        have hpage := (hall (boundary s) (by omega) (by omega) fun b h1 h2 hb =>
          hin ⟨b, h1, h2, hb⟩).2.2 huser
        have hmul := left_aligned s
        rw [hbound] at hpage
        have hpos := left_pos s
        unfold page BY2PG at *
        omega
      · intro hf
        refine hleft.scans_last hno ?_ (by omega)
        rw [← hbound]
        by_cases huser : user (boundary s) = true
        · exact .inr (.inr (hf.2 hal hlast huser))
        · exact .inr (.inl (Bool.eq_false_iff.mpr huser))
    · exact iff_of_true (hleft.scans_last hno (.inl (by omega)) (by omega))
        ⟨fun hc => absurd hc hnomore, fun _ hc => absurd hc hlast⟩

/-- A range of two pages less a byte at the beginning of a page, with the byte in front of its
end. -/
theorem vmemchr_scans_pages : Scans (fun _ => true) (fun a => if a = 0x2001 then 1 else 0) 1
    0x1000 0x1002 (· = page 0x1000)
    (vmemchr (fun _ => true) (fun a => if a = 0x2001 then 1 else 0) 1 0x1000 (0x1002 : ℕ)) :=
  (vmemchr_scans_iff _ _ _ (by decide) (by decide) (by decide)).mpr
    ⟨fun _ => .inl (.inl ⟨0x2001, by decide, by decide, rfl⟩), fun h => absurd rfl h⟩

/-- Two bytes at the beginning of a page are scanned, and the third one is found. -/
theorem vmemchr_overruns : ¬ Scans (fun _ => true) (fun a => if a = 0x1002 then 1 else 0) 1
    0x1000 2 (· = page 0x1000)
    (vmemchr (fun _ => true) (fun a => if a = 0x1002 then 1 else 0) 1 0x1000 (2 : ℕ)) := by
  intro h
  have hspans : spans 0x1000 (2 : ℕ) = true := by
    unfold spans
    decide
  have hfound : (memchr (fun a => if a = 0x1002 then 1 else 0) 1 0x1000 (left 0x1000)).2 =
      some 0x1002 := by decide +kernel
  have hfirst := h.first (some 0x1002) (by rw [vmemchr_of_found hspans hfound])
  revert hfirst
  decide

end PlanNine.Vmemchr
