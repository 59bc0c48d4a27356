import PlanNine.Lib.Blit
import PlanNine.Lib.Ulong

/-!
# Transfers of a disc partition

`sdbio` of `devsd.c`, which reads and writes a part of a partition. The transfer is done in whole
sectors through a buffer. It is clipped by the largest transfer and by the end of the partition, and
what a write does not cover of its sectors is read first.

What each request of the unit transfers is an input, and so is the contents of a fresh buffer,
whether there is memory, and what a change of the medium makes of the unit. Offsets are numbers of
64 bits and sector numbers are words. Addresses of the medium are bytes. Locks and reference counts
are left out.

## Main definitions

* `SDpart`, `SDunit`, `Round`: a partition, its unit, and one time around.
* `transfer`, `attempt`, `sdbio`: the parts of the routine.
* `Contained`: the transfer stays inside the partition, and its result tells the truth about it.
* `Clear`: the requests that do.

## Main results

* `contained_iff`: the transfer stays inside just when it is clear.
-/

namespace PlanNine.Devsd

def SDmaxio : ℕ := 2048 * 1024

structure SDpart where
  start : ℕ
  /-- `end`, the first sector behind the partition. -/
  limit : ℕ
  vers : ℕ
  start_le : start ≤ limit
  limit_lt : limit < 2 ^ 32

structure SDunit where
  secsize : ℕ
  vers : ℕ
  /-- The unit is locked throughout, for its medium may be removed. -/
  removable : Bool
  secsize_pos : 0 < secsize

/-- What is found and what happens in one time around. A request of the unit is an error, or it
transfers some bytes. -/
structure Round where
  unit : SDunit
  part : SDpart
  /-- There is memory for the buffer. -/
  sdmalloc : Bool
  /-- What a request to read does. -/
  read : Option ℕ
  /-- What a request to write does. -/
  write : Option ℕ

/-- A request of the unit. -/
structure Request where
  part : SDpart
  bno : ℕ
  nb : ℕ

abbrev Bytes := ℕ → UInt8

/-- What becomes of a call. A copy outside the buffer has no further result. -/
inductive Outcome
  | error (why : String)
  | overrun
  | done (unit : SDunit) (part : SDpart) (len : ℕ) (a disk : Bytes)

def Eio : String := "i/o error"

def Enomem : String := "kernel allocate failed"

namespace Round

/-- The first sector. -/
def bno (i : Round) (off : ℕ) : ℕ := ulong (off / i.unit.secsize + i.part.start : ℕ)

/-- The number of sectors that have some of the bytes. -/
def wanted (i : Round) (len off : ℕ) : ℕ :=
  let last : ℤ := (Int.bmod (off + len + i.unit.secsize - 1) (2 ^ 64)).tdiv i.unit.secsize
  ulong (last + i.part.start - i.bno off)

/-- The number of sectors, clipped. -/
def nb (i : Round) (len off : ℕ) : ℕ :=
  let nb := min (i.wanted len off) (SDmaxio / i.unit.secsize)
  if i.part.limit < ulong (i.bno off + nb : ℕ) then ulong (i.part.limit - i.bno off : ℤ) else nb

/-- The length, clipped to the sectors. -/
def len (i : Round) (len off : ℕ) : ℕ :=
  let offset := off % i.unit.secsize
  if i.nb len off * i.unit.secsize < offset + len then i.nb len off * i.unit.secsize - offset
  else len

/-- What a request of some sectors transfers. -/
def bio (i : Round) (res : Option ℕ) (nb : ℕ) : Option ℕ := res.map (min (nb * i.unit.secsize))

/-- The end of a write: copy the data to the buffer `b`, and write `nb` sectors. -/
def put (i : Round) (off bno size nb : ℕ) (len : ℤ) (a b disk : Bytes) (reqs : List Request) :
    Outcome × List Request :=
  let offset := off % i.unit.secsize
  if len < 0 ∨ size < offset + len then (.overrun, reqs)
  else
    let b := blit b offset len.toNat a
    let reqs := reqs ++ [⟨i.part, bno, nb⟩]
    match i.bio i.write nb with
    | none => (.error Eio, reqs)
    | some l =>
        let len := if l < offset then 0 else min len.toNat (l - offset)
        (.done i.unit i.part len a (blit disk (bno * i.unit.secsize) l b), reqs)

/-- A write that does not cover its sectors reads them first. -/
def Partial (i : Round) (len off : ℕ) : Prop :=
  off % i.unit.secsize ≠ 0 ∨ i.len len off % i.unit.secsize ≠ 0

instance (i : Round) (len off : ℕ) : Decidable (i.Partial len off) := by
  unfold Partial
  infer_instance

/-- The transfer of sectors, with the buffer that was allocated. -/
def transfer (i : Round) (write : Bool) (len off : ℕ) (a junk disk : Bytes) :
    Outcome × List Request :=
  let bno := i.bno off
  let nb := i.nb len off
  let secsize := i.unit.secsize
  let offset := off % secsize
  if write then
    if i.Partial len off then
      match i.bio i.read nb with
      | none => (.error Eio, [⟨i.part, bno, nb⟩])
      | some l =>
          let b := blit junk 0 l fun x => disk (bno * secsize + x)
          if l < nb * secsize then
            let nb' := l / secsize
            let l : ℤ := nb' * secsize - offset
            i.put off bno (nb * secsize) nb' (if l < i.len len off then l else i.len len off) a b
              disk [⟨i.part, bno, nb⟩]
          else i.put off bno (nb * secsize) nb (i.len len off) a b disk [⟨i.part, bno, nb⟩]
    else i.put off bno (nb * secsize) nb (i.len len off) a junk disk []
  else
    match i.bio i.read nb with
    | none => (.error Eio, [⟨i.part, bno, nb⟩])
    | some l =>
        let b := blit junk 0 l fun x => disk (bno * secsize + x)
        let len := if l < offset then 0 else min (i.len len off) (l - offset)
        if nb * secsize < offset + len then (.overrun, [⟨i.part, bno, nb⟩])
        else (.done i.unit i.part len (blit a 0 len fun x => b (offset + x)) disk,
          [⟨i.part, bno, nb⟩])

/-- The partition is the one that was opened. -/
def Current (i : Round) (vers : ℕ) : Prop := ulong (i.unit.vers + i.part.vers : ℕ) = vers

instance (i : Round) (vers : ℕ) : Decidable (i.Current vers) := by
  unfold Current
  infer_instance

/-- One time around: the outcome, the requests, and whether an error is looked at. -/
def attempt (i : Round) (vers : ℕ) (write : Bool) (len off : ℕ) (a junk disk : Bytes) :
    (Outcome × List Request) × Bool :=
  if ¬ i.Current vers then ((.error Eio, []), true)
  else if i.part.limit ≤ i.bno off ∨ i.nb len off = 0 then
    if write then ((.error Eio, []), true)
    else ((.done i.unit i.part 0 a disk, []), true)
  else if i.sdmalloc = false then ((.error Enomem, []), i.unit.removable)
  else (i.transfer write len off a junk disk, i.unit.removable)

/-- The unit and the partition, when `sdinitpart` has looked at the medium after another time
around. -/
def renewed (i j : Round) : Round :=
  { j with
    unit := { j.unit with vers := ulong (i.unit.vers + 1 : ℕ) }
    part := { j.part with vers := ulong (i.part.vers + 1 : ℕ) } }

end Round

/-- Read or write `len` bytes at an offset. When the medium has changed, there is a second time
around. -/
def sdbio (i : Round) (change : Option Round) (vers : ℕ) (write : Bool) (len off : ℕ)
    (a junk disk : Bytes) : Outcome × List Request :=
  match i.attempt vers write len off a junk disk, change with
  | ((.error why, reqs), true), some j =>
      if why = Eio then
        let r := ((i.renewed j).attempt vers write len off a junk disk).1
        (r.1, reqs ++ r.2)
      else (.error why, reqs)
  | (r, _), _ => r

/-- The sectors of a request are in its partition. -/
def Request.Inside (r : Request) : Prop :=
  r.nb = 0 ∨ r.part.start ≤ r.bno ∧ r.bno + r.nb ≤ r.part.limit

/-- The result is an error, or tells what was transferred: a read has got the bytes of the partition
from the offset on, and a write has changed no others. -/
def Outcome.Truthful (write : Bool) (len off : ℕ) (disk : Bytes) : Outcome → Prop
  | .error _ => True
  | .overrun => False
  | .done unit part r a' disk' =>
      let base := part.start * unit.secsize + off
      r ≤ len ∧ (0 < r → base + r ≤ part.limit * unit.secsize) ∧
        if write then ∀ x, disk' x ≠ disk x → base ≤ x ∧ x < base + r
        else disk' = disk ∧ ∀ x < r, a' x = disk (base + x)

/-- For every contents of the medium and of the buffers, the result is true and all requests are
inside the partition. -/
def Contained (write : Bool) (len off : ℕ) (f : Bytes → Bytes → Bytes → Outcome × List Request) :
    Prop :=
  ∀ a junk disk, (f a junk disk).1.Truthful write len off disk ∧
    ∀ r ∈ (f a junk disk).2, r.Inside

namespace Round

/-- The unit is asked for sectors. -/
def Asks (i : Round) (vers len off : ℕ) : Prop :=
  i.Current vers ∧ i.bno off < i.part.limit ∧ i.nb len off ≠ 0 ∧ i.sdmalloc = true

/-- No bytes are transferred in the end. -/
def Idle (i : Round) (write : Bool) (len off : ℕ) : Prop :=
  let offset := off % i.unit.secsize
  if write then
    if i.Partial len off then
      len = 0 ∨ i.read = none ∨ i.write = none ∨ (∃ l, i.write = some l ∧ l ≤ offset) ∨
        ∃ l, i.read = some l ∧ l < i.unit.secsize
    else i.write = none ∨ i.write = some 0
  else len = 0 ∨ i.read = none ∨ ∃ l, i.read = some l ∧ l ≤ offset

/-- The transfer stays in the partition: its first sector is a word or nothing is transferred by a
request inside the partition, its last one is a word, and a write that begins inside a sector can
read that sector. -/
def Clear (i : Round) (write : Bool) (len off : ℕ) : Prop :=
  let offset := off % i.unit.secsize
  (off / i.unit.secsize + i.part.start < 2 ^ 32 ∨ i.part.start ≤ i.bno off ∧ i.Idle write len off) ∧
    i.bno off + i.nb len off < 2 ^ 32 ∧
    ¬ (write = true ∧ offset ≠ 0 ∧ ∃ l, i.read = some l ∧ l < i.unit.secsize)

end Round

namespace Round

variable {i j : Round} {vers len off size nb n l : ℕ} {write : Bool} {a b junk disk : Bytes}
  {reqs : List Request} {res : Option ℕ}

/-! ### Bounds -/

theorem mod_lt (i : Round) (off : ℕ) : off % i.unit.secsize < i.unit.secsize :=
  Nat.mod_lt _ i.unit.secsize_pos

/-- What is left of the partition, as a word. -/
theorem ulong_limit_sub (h : i.bno off < i.part.limit) :
    ulong (i.part.limit - i.bno off : ℤ) = i.part.limit - i.bno off := by
  have hlim := i.part.limit_lt
  rw [← Int.ofNat_sub h.le]
  exact ulong_natCast_of_lt (by omega)

theorem nb_le (h : i.bno off < i.part.limit) :
    i.nb len off ≤ min (i.wanted len off) (SDmaxio / i.unit.secsize) := by
  unfold Round.nb
  dsimp only
  split_ifs with hclip
  · rw [ulong_natCast] at hclip
    have hmod := Nat.mod_le
      (i.bno off + min (i.wanted len off) (SDmaxio / i.unit.secsize)) 4294967296
    rw [ulong_limit_sub h]
    omega
  · exact le_rfl

/-- The sectors end in the partition, or beyond the last word. -/
theorem add_nb_le (h : i.bno off < i.part.limit) (hlt : i.bno off + i.nb len off < 2 ^ 32) :
    i.bno off + i.nb len off ≤ i.part.limit := by
  unfold Round.nb at hlt ⊢
  dsimp only at hlt ⊢
  split_ifs at hlt ⊢ with hclip
  · rw [ulong_limit_sub h]
    omega
  · rw [ulong_natCast_of_lt hlt] at hclip
    exact not_lt.mp hclip

theorem mul_nb_pos (h : i.nb len off ≠ 0) : i.unit.secsize ≤ i.nb len off * i.unit.secsize :=
  Nat.le_mul_of_pos_left _ (Nat.pos_of_ne_zero h)

theorem len_le (i : Round) (len off : ℕ) : i.len len off ≤ len := by
  unfold Round.len
  dsimp only
  split_ifs <;> omega

theorem add_len_le {i : Round} (len off : ℕ) (h : i.nb len off ≠ 0) :
    off % i.unit.secsize + i.len len off ≤ i.nb len off * i.unit.secsize := by
  have hmod := i.mod_lt off
  have hpos := mul_nb_pos h
  unfold Round.len
  dsimp only
  split_ifs <;> omega

theorem len_pos (h : i.nb len off ≠ 0) (hlen : len ≠ 0) : 0 < i.len len off := by
  have hmod := i.mod_lt off
  have hpos := mul_nb_pos h
  unfold Round.len
  dsimp only
  split_ifs <;> omega

theorem bno_of_lt (h : off / i.unit.secsize + i.part.start < 2 ^ 32) :
    i.bno off = off / i.unit.secsize + i.part.start := ulong_natCast_of_lt h

/-- The address of the first byte. -/
theorem base_eq (h : off / i.unit.secsize + i.part.start < 2 ^ 32) :
    i.bno off * i.unit.secsize + off % i.unit.secsize = i.part.start * i.unit.secsize + off := by
  rw [bno_of_lt h, Nat.add_mul]
  have hdiv := Nat.div_add_mod' off i.unit.secsize
  omega

/-- Sectors whose number is no word are not in the partition. -/
theorem limit_lt_base (h : 2 ^ 32 ≤ off / i.unit.secsize + i.part.start) :
    i.part.limit * i.unit.secsize < i.part.start * i.unit.secsize + off := by
  have hdiv := Nat.div_add_mod' off i.unit.secsize
  have hlim := i.part.limit_lt
  have hmul : i.part.limit * i.unit.secsize <
      (off / i.unit.secsize + i.part.start) * i.unit.secsize :=
    Nat.mul_lt_mul_of_pos_right (hlim.trans_le h) i.unit.secsize_pos
  rw [Nat.add_mul] at hmul
  omega

theorem wanted_eq (h : off / i.unit.secsize + i.part.start < 2 ^ 32) (hlen : len < 2 ^ 31)
    (hsmall : i.unit.secsize ≤ SDmaxio) : i.wanted len off =
      (off % i.unit.secsize + len + i.unit.secsize - 1) / i.unit.secsize := by
  have hpos := i.unit.secsize_pos
  have hmod := i.mod_lt off
  have hdiv := Nat.div_add_mod' off i.unit.secsize
  have hmul : off / i.unit.secsize * i.unit.secsize < 2 ^ 32 * i.unit.secsize :=
    Nat.mul_lt_mul_of_pos_right (by omega) hpos
  have hss : i.unit.secsize ≤ 2097152 := hsmall
  set x := off % i.unit.secsize + len + i.unit.secsize - 1 with hx
  have hsum : (off + len + i.unit.secsize - 1 : ℤ).bmod (2 ^ 64) =
      ((x + off / i.unit.secsize * i.unit.secsize : ℕ) : ℤ) := by
    rw [Int.bmod_eq_of_le_mul_two] <;> omega
  have hlast : ((x + off / i.unit.secsize * i.unit.secsize : ℕ) : ℤ).tdiv i.unit.secsize =
      ((x / i.unit.secsize + off / i.unit.secsize : ℕ) : ℤ) := by
    rw [← Int.ofNat_tdiv, Nat.add_mul_div_right _ _ hpos]
  have hlt : x / i.unit.secsize < 4294967296 := (Nat.div_le_self _ _).trans_lt (by omega)
  unfold wanted
  dsimp only
  rw [hsum, hlast, bno_of_lt h]
  have hsub : ((x / i.unit.secsize + off / i.unit.secsize : ℕ) : ℤ) + i.part.start -
      ((off / i.unit.secsize + i.part.start : ℕ) : ℤ) = (x / i.unit.secsize : ℕ) := by
    push_cast
    ring
  rw [hsub, ulong_natCast_of_lt hlt]

/-- A write that covers its sectors has data for all of them. -/
theorem len_of_not_partial (h : off / i.unit.secsize + i.part.start < 2 ^ 32)
    (hb : i.bno off < i.part.limit) (hlen : len < 2 ^ 31) (hp : ¬ i.Partial len off) :
    i.nb len off * i.unit.secsize ≤ i.len len off := by
  have hpos := i.unit.secsize_pos
  obtain ⟨hoff, hfull⟩ := not_or.mp hp
  rw [not_not] at hoff hfull
  unfold Round.len at hfull ⊢
  dsimp only at hfull ⊢
  rw [hoff, Nat.zero_add, Nat.sub_zero] at hfull ⊢
  split_ifs at hfull ⊢ with hclip
  · exact le_rfl
  obtain ⟨k, hk⟩ := Nat.dvd_of_mod_eq_zero hfull
  have hnb : i.nb len off ≤ min (i.wanted len off) (SDmaxio / i.unit.secsize) := nb_le hb
  obtain hbig | hsmall := lt_or_ge SDmaxio i.unit.secsize
  · rw [Nat.div_eq_of_lt hbig] at hnb
    have hzero : i.nb len off = 0 := by omega
    rw [hzero]
    omega
  · have hwanted : i.wanted len off = k := by
      rw [wanted_eq h hlen hsmall, hoff, Nat.zero_add, hk, Nat.add_sub_assoc hpos,
        Nat.mul_add_div hpos, Nat.div_eq_of_lt (Nat.sub_lt hpos Nat.one_pos), Nat.add_zero]
    have hle : i.nb len off ≤ k := hwanted ▸ hnb.trans (min_le_left _ _)
    exact (Nat.mul_le_mul_right _ hle).trans_eq ((Nat.mul_comm _ _).trans hk.symm)

/-! ### The transfer -/

theorem put_eq {bno : ℕ} (h : off % i.unit.secsize + n ≤ size) :
    i.put off bno size nb n a b disk reqs =
      match i.bio i.write nb with
      | none => (.error Eio, reqs ++ [⟨i.part, bno, nb⟩])
      | some l => (.done i.unit i.part (min n (l - off % i.unit.secsize)) a
          (blit disk (bno * i.unit.secsize) l (blit b (off % i.unit.secsize) n a)),
          reqs ++ [⟨i.part, bno, nb⟩]) := by
  have hnot : ¬ ((n : ℤ) < 0 ∨ (size : ℤ) < (off % i.unit.secsize : ℕ) + n) := by omega
  unfold put
  rw [if_neg (mod_cast hnot), Int.toNat_natCast]
  cases i.bio i.write nb with
  | none => rfl
  | some l =>
    dsimp only
    congr 2
    split_ifs <;> omega

theorem transfer_read_eq (h : i.nb len off ≠ 0) :
    i.transfer false len off a junk disk =
      match i.bio i.read (i.nb len off) with
      | none => (.error Eio, [⟨i.part, i.bno off, i.nb len off⟩])
      | some l =>
          let r := min (i.len len off) (l - off % i.unit.secsize)
          (.done i.unit i.part r (blit a 0 r fun x =>
            blit junk 0 l (fun x => disk (i.bno off * i.unit.secsize + x))
              (off % i.unit.secsize + x)) disk, [⟨i.part, i.bno off, i.nb len off⟩]) := by
  have hadd := add_len_le len off h
  unfold transfer
  dsimp only
  rw [if_neg Bool.false_ne_true]
  cases i.bio i.read (i.nb len off) with
  | none => rfl
  | some l =>
    dsimp only
    have hr : (if l < off % i.unit.secsize then 0
        else min (i.len len off) (l - off % i.unit.secsize)) =
          min (i.len len off) (l - off % i.unit.secsize) := by
      split_ifs <;> omega
    rw [hr, if_neg (by omega)]

theorem bio_le (h : i.bio res nb = some l) : l ≤ nb * i.unit.secsize := by
  obtain ⟨l', -, rfl⟩ := Option.map_eq_some_iff.mp h
  exact min_le_left _ _

/-- The sectors that are written, and the number of bytes that are new, for a write that reads its
sectors first. -/
theorem transfer_partial_eq (a junk disk : Bytes) (h : i.nb len off ≠ 0) (hp : i.Partial len off)
    (hl : i.bio i.read (i.nb len off) = some l)
    (hshort : off % i.unit.secsize = 0 ∨ i.unit.secsize ≤ l) :
    ∃ nb' n, nb' ≤ i.nb len off ∧ nb' * i.unit.secsize ≤ l ∧
      off % i.unit.secsize + n ≤ nb' * i.unit.secsize ∧
      n = min (i.len len off) (nb' * i.unit.secsize - off % i.unit.secsize) ∧
      (nb' = 0 ↔ l < i.unit.secsize) ∧
      i.transfer true len off a junk disk =
        i.put off (i.bno off) (i.nb len off * i.unit.secsize) nb' n a
          (blit junk 0 l fun x => disk (i.bno off * i.unit.secsize + x)) disk
          [⟨i.part, i.bno off, i.nb len off⟩] := by
  have hpos := i.unit.secsize_pos
  have hmod := i.mod_lt off
  have hadd := add_len_le len off h
  have hfirst := mul_nb_pos h
  have hle := bio_le hl
  unfold transfer
  dsimp only
  rw [if_pos rfl, if_pos hp, hl]
  dsimp only
  by_cases hlt : l < i.nb len off * i.unit.secsize
  · rw [if_pos hlt]
    have hdiv : l / i.unit.secsize * i.unit.secsize ≤ l := Nat.div_mul_le_self _ _
    have hoff : off % i.unit.secsize ≤ l / i.unit.secsize * i.unit.secsize := by
      obtain hz | hss := hshort
      · exact hz ▸ Nat.zero_le _
      · exact hmod.le.trans (Nat.le_mul_of_pos_left _ (Nat.div_pos hss hpos))
    set n := min (i.len len off) (l / i.unit.secsize * i.unit.secsize - off % i.unit.secsize)
    have hn : (if ((l / i.unit.secsize : ℕ) * i.unit.secsize - (off % i.unit.secsize : ℕ) : ℤ) <
        i.len len off then
          ((l / i.unit.secsize : ℕ) * i.unit.secsize - (off % i.unit.secsize : ℕ) : ℤ)
        else i.len len off) = n := by
      have hcast : ((l / i.unit.secsize : ℕ) * i.unit.secsize - (off % i.unit.secsize : ℕ) : ℤ) =
          (l / i.unit.secsize * i.unit.secsize - off % i.unit.secsize : ℕ) := by
        push_cast [hoff]
        rfl
      rw [hcast]
      split_ifs <;> omega
    refine ⟨l / i.unit.secsize, n, ?_, hdiv, by omega, rfl, Nat.div_eq_zero_iff_lt hpos, ?_⟩
    · exact (Nat.div_le_div_right hle).trans (Nat.mul_div_cancel _ hpos).le
    · exact congrArg (fun n => i.put _ _ _ _ n _ _ _ _) hn
  · rw [if_neg hlt]
    have hl' : l = i.nb len off * i.unit.secsize := le_antisymm hle (not_lt.mp hlt)
    refine ⟨i.nb len off, i.len len off, le_rfl, hl'.ge, hadd, by omega, ?_, rfl⟩
    exact iff_of_false h (not_lt.mpr (hl' ▸ hfirst))

/-! ### What a transfer does -/

/-- Only the new bytes that are written change the medium. -/
theorem change_of_write {at' o : ℕ} {x : ℕ}
    (hb : ∀ y < l, y < o ∨ o + n ≤ y → b y = disk (at' + y))
    (hx : blit disk at' l (blit b o n a) x ≠ disk x) :
    at' + o ≤ x ∧ x < at' + o + min n (l - o) := by
  obtain ⟨y, hy, rfl⟩ := exists_of_blit_ne hx
  rw [blit_apply_add hy] at hx
  have hin : ¬ (y < o ∨ o + n ≤ y) := by
    intro hout
    rw [← hb y hy hout] at hx
    obtain hlt | hle := hout
    · exact hx (blit_of_lt hlt)
    · exact hx (blit_of_le hle)
  omega

theorem mem_put {bno : ℕ} {n : ℤ} {r : Request} (hr : r ∈ reqs) :
    r ∈ (i.put off bno size nb n a b disk reqs).2 := by
  unfold put
  dsimp only
  split_ifs
  · exact hr
  · cases i.bio i.write nb <;> exact List.mem_append_left _ hr

theorem transfer_full_eq (h : i.nb len off ≠ 0) (hp : ¬ i.Partial len off) :
    i.transfer true len off a junk disk =
      match i.bio i.write (i.nb len off) with
      | none => (.error Eio, [⟨i.part, i.bno off, i.nb len off⟩])
      | some l => (.done i.unit i.part (min (i.len len off) (l - off % i.unit.secsize)) a
          (blit disk (i.bno off * i.unit.secsize) l
            (blit junk (off % i.unit.secsize) (i.len len off) a)),
          [⟨i.part, i.bno off, i.nb len off⟩]) := by
  unfold transfer
  dsimp only
  rw [if_pos rfl, if_neg hp, put_eq (add_len_le len off h)]
  rfl

/-- The unit is asked for the sectors of the transfer. -/
theorem asks_transfer (h : i.nb len off ≠ 0)
    (hinside : ∀ r ∈ (i.transfer write len off a junk disk).2, r.Inside) :
    i.part.start ≤ i.bno off ∧ i.bno off + i.nb len off ≤ i.part.limit := by
  have hmem : ⟨i.part, i.bno off, i.nb len off⟩ ∈ (i.transfer write len off a junk disk).2 := by
    cases write with
    | false =>
      rw [transfer_read_eq h]
      cases i.bio i.read (i.nb len off) <;> exact List.mem_singleton_self _
    | true =>
      by_cases hp : i.Partial len off
      · unfold transfer
        dsimp only
        rw [if_pos rfl, if_pos hp]
        cases i.bio i.read (i.nb len off) with
        | none => exact List.mem_singleton_self _
        | some l =>
          dsimp only
          split_ifs <;> exact mem_put (List.mem_singleton_self _)
      · rw [transfer_full_eq h hp]
        cases i.bio i.write (i.nb len off) <;> exact List.mem_singleton_self _
  exact (hinside _ hmem).resolve_left h

/-- A read gets the bytes from the first sector on. -/
theorem truthful_read (hb : i.bno off < i.part.limit) (h : i.nb len off ≠ 0)
    (hlt : i.bno off + i.nb len off < 2 ^ 32)
    (hclear : off / i.unit.secsize + i.part.start < 2 ^ 32 ∨ i.Idle false len off) :
    (i.transfer false len off a junk disk).1.Truthful false len off disk := by
  have hadd := add_len_le len off h
  have hlen := i.len_le len off
  have hend := Nat.mul_le_mul_right i.unit.secsize (add_nb_le hb hlt)
  rw [Nat.add_mul] at hend
  rw [transfer_read_eq h]
  cases hl : i.bio i.read (i.nb len off) with
  | none => trivial
  | some l =>
    dsimp only
    set r := min (i.len len off) (l - off % i.unit.secsize) with hr
    refine ⟨by omega, ?_⟩
    obtain hword | hidle := hclear
    · have hbase := base_eq hword
      refine ⟨fun _ => by omega, rfl, fun x hx => ?_⟩
      have hcopy := blit_apply_add (f := a) (a := 0) (g := fun x =>
        blit junk 0 l (fun x => disk (i.bno off * i.unit.secsize + x))
          (off % i.unit.secsize + x)) hx
      have hbuf := blit_apply_add (f := junk) (a := 0)
        (g := fun x => disk (i.bno off * i.unit.secsize + x))
        (show off % i.unit.secsize + x < l by omega)
      rw [Nat.zero_add] at hcopy hbuf
      rw [hcopy, hbuf, ← hbase, Nat.add_assoc]
    · have hzero : r = 0 := by
        obtain hz | hnone | ⟨l', hl', hle⟩ := hidle
        · omega
        · rw [hnone] at hl
          cases hl
        · rw [hl'] at hl
          obtain rfl := Option.some.inj hl
          omega
      rw [hzero]
      exact ⟨nofun, rfl, nofun⟩

/-- The bytes that a write changes are those from the first sector on. -/
theorem truthful_done (hb : i.bno off < i.part.limit)
    (hlt : i.bno off + i.nb len off < 2 ^ 32) (hnb : nb ≤ i.nb len off) (hn : n ≤ len)
    (hadd : off % i.unit.secsize + n ≤ nb * i.unit.secsize)
    (hbuf : ∀ y < l, y < off % i.unit.secsize ∨ off % i.unit.secsize + n ≤ y →
      b y = disk (i.bno off * i.unit.secsize + y))
    (hclear : off / i.unit.secsize + i.part.start < 2 ^ 32 ∨
      min n (l - off % i.unit.secsize) = 0) :
    (Outcome.done i.unit i.part (min n (l - off % i.unit.secsize)) a
      (blit disk (i.bno off * i.unit.secsize) l
        (blit b (off % i.unit.secsize) n a))).Truthful true len off disk := by
  have hend := Nat.mul_le_mul_right i.unit.secsize (add_nb_le hb hlt)
  rw [Nat.add_mul] at hend
  have hle := Nat.mul_le_mul_right i.unit.secsize hnb
  refine ⟨by omega, ?_⟩
  obtain hword | hzero := hclear
  · have hbase := base_eq hword
    refine ⟨fun _ => by omega, fun x hx => ?_⟩
    rw [← hbase]
    exact change_of_write hbuf hx
  · refine ⟨fun hpos => absurd hpos (hzero ▸ Nat.lt_irrefl 0), fun x hx => ?_⟩
    have hchange := change_of_write hbuf hx
    omega

theorem bio_eq_some (h : i.bio res nb = some l) :
    ∃ l', res = some l' ∧ l = min (nb * i.unit.secsize) l' := by
  obtain ⟨l', hl', hmin⟩ := Option.map_eq_some_iff.mp h
  exact ⟨l', hl', hmin.symm⟩

theorem Clear.start_le (h : i.Clear write len off) : i.part.start ≤ i.bno off := by
  obtain hword | ⟨hstart, -⟩ := h.1
  · rw [bno_of_lt hword]
    exact Nat.le_add_left _ _
  · exact hstart

/-- A write that reads its sectors first. -/
theorem contained_partial (hb : i.bno off < i.part.limit) (h : i.nb len off ≠ 0)
    (hp : i.Partial len off) (hc : i.Clear true len off) :
    (i.transfer true len off a junk disk).1.Truthful true len off disk ∧
      ∀ r ∈ (i.transfer true len off a junk disk).2, r.Inside := by
  have hstart := hc.start_le
  obtain ⟨hword, hlt, hshort⟩ := hc
  have hend := add_nb_le hb hlt
  have hasked : ∀ nb', nb' ≤ i.nb len off → (⟨i.part, i.bno off, nb'⟩ : Request).Inside :=
    fun nb' hnb' => .inr ⟨hstart, (Nat.add_le_add_left hnb' _).trans hend⟩
  cases hl : i.bio i.read (i.nb len off) with
  | none =>
    have heq : i.transfer true len off a junk disk =
        (.error Eio, [⟨i.part, i.bno off, i.nb len off⟩]) := by
      unfold transfer
      dsimp only
      rw [if_pos rfl, if_pos hp, hl]
    rw [heq]
    exact ⟨trivial, fun r hr => List.mem_singleton.mp hr ▸ hasked _ le_rfl⟩
  | some l =>
    obtain ⟨l₀, hread, hmin⟩ := bio_eq_some hl
    have hfirst := mul_nb_pos h
    have hbegin : off % i.unit.secsize = 0 ∨ i.unit.secsize ≤ l := by
      by_cases hz : off % i.unit.secsize = 0
      · exact .inl hz
      · have hl₀ : i.unit.secsize ≤ l₀ := not_lt.mp fun hl₀ => hshort ⟨rfl, hz, l₀, hread, hl₀⟩
        exact .inr (hmin ▸ le_min hfirst hl₀)
    obtain ⟨nb', n, hnb', hread', hadd, hn, hzero, heq⟩ :=
      transfer_partial_eq a junk disk h hp hl hbegin
    have hlen := i.len_le len off
    have hsize := Nat.mul_le_mul_right i.unit.secsize hnb'
    rw [heq, put_eq (hadd.trans hsize)]
    have hreqs : ∀ r ∈ [⟨i.part, i.bno off, i.nb len off⟩] ++
        [(⟨i.part, i.bno off, nb'⟩ : Request)], r.Inside := by
      intro r hr
      obtain hr | hr := List.mem_append.mp hr
      · exact List.mem_singleton.mp hr ▸ hasked _ le_rfl
      · exact List.mem_singleton.mp hr ▸ hasked _ hnb'
    cases hw : i.bio i.write nb' with
    | none => exact ⟨trivial, hreqs⟩
    | some l₁ =>
      have hl₁ := bio_le hw
      refine ⟨truthful_done hb hlt hnb' (by omega) hadd (fun y hy _ => ?_) ?_, hreqs⟩
      · have hbuf := blit_apply_add (f := junk) (a := 0)
          (g := fun x => disk (i.bno off * i.unit.secsize + x)) (show y < l by omega)
        rwa [Nat.zero_add] at hbuf
      · refine hword.imp id fun hidle => ?_
        obtain ⟨l₁', hwrite, hmin₁⟩ := bio_eq_some hw
        have hidle := hidle.2
        unfold Idle at hidle
        dsimp only at hidle
        rw [if_pos rfl, if_pos hp] at hidle
        obtain hz | hnone | hnone | ⟨l', hl', hle⟩ | ⟨l', hl', hless⟩ := hidle
        · omega
        · cases hread.symm.trans hnone
        · cases hwrite.symm.trans hnone
        · obtain rfl := Option.some.inj (hwrite.symm.trans hl')
          omega
        · obtain rfl := Option.some.inj (hread.symm.trans hl')
          have hnone : nb' = 0 := hzero.mpr (by omega)
          rw [hnone, Nat.zero_mul] at hl₁
          omega

/-- A write that covers its sectors. -/
theorem contained_full (hb : i.bno off < i.part.limit) (h : i.nb len off ≠ 0)
    (hlen : len < 2 ^ 31) (hp : ¬ i.Partial len off) (hc : i.Clear true len off) :
    (i.transfer true len off a junk disk).1.Truthful true len off disk ∧
      ∀ r ∈ (i.transfer true len off a junk disk).2, r.Inside := by
  have hstart := hc.start_le
  obtain ⟨hword, hlt, -⟩ := hc
  have hreqs : ∀ r ∈ [(⟨i.part, i.bno off, i.nb len off⟩ : Request)], r.Inside := fun r hr =>
    List.mem_singleton.mp hr ▸ .inr ⟨hstart, add_nb_le hb hlt⟩
  have hoff : off % i.unit.secsize = 0 := not_not.mp (not_or.mp hp).1
  rw [transfer_full_eq h hp]
  cases hw : i.bio i.write (i.nb len off) with
  | none => exact ⟨trivial, hreqs⟩
  | some l =>
    have hl := bio_le hw
    have hle := i.len_le len off
    refine ⟨?_, hreqs⟩
    obtain hword | ⟨-, hidle⟩ := hword
    · refine truthful_done hb hlt le_rfl hle (add_len_le len off h) (fun y hy hout => ?_)
        (.inl hword)
      have hfull := len_of_not_partial hword hb hlen hp
      omega
    · obtain ⟨l', hwrite, hmin⟩ := bio_eq_some hw
      have hzero : l = 0 := by
        unfold Idle at hidle
        dsimp only at hidle
        rw [if_pos rfl, if_neg hp] at hidle
        obtain hnone | hz := hidle
        · cases hwrite.symm.trans hnone
        · obtain rfl := Option.some.inj (hwrite.symm.trans hz)
          omega
      subst hzero
      exact truthful_done hb hlt le_rfl hle (add_len_le len off h)
        (fun y hy _ => absurd hy (by omega)) (.inr (by omega))

/-- A clear transfer stays inside. -/
theorem contained_of_clear (hb : i.bno off < i.part.limit) (h : i.nb len off ≠ 0)
    (hlen : len < 2 ^ 31) (hc : i.Clear write len off) :
    Contained write len off (i.transfer write len off) := by
  intro a junk disk
  cases write with
  | true =>
    by_cases hp : i.Partial len off
    · exact contained_partial hb h hp hc
    · exact contained_full hb h hlen hp hc
  | false =>
    have hstart := hc.start_le
    obtain ⟨hword, hlt, -⟩ := hc
    refine ⟨truthful_read hb h hlt (hword.imp id And.right), fun r hr => ?_⟩
    rw [transfer_read_eq h] at hr
    have heq : r = ⟨i.part, i.bno off, i.nb len off⟩ := by
      cases hl : i.bio i.read (i.nb len off) with
      | none =>
        rw [hl] at hr
        exact List.mem_singleton.mp hr
      | some l =>
        rw [hl] at hr
        exact List.mem_singleton.mp hr
    exact heq ▸ .inr ⟨hstart, add_nb_le hb hlt⟩

theorem bio_some (i : Round) (l nb : ℕ) :
    i.bio (some l) nb = some (min (nb * i.unit.secsize) l) := rfl

/-- A transfer beyond the last word transfers nothing when its result is true. -/
theorem idle_of_truthful (hb : i.bno off < i.part.limit) (h : i.nb len off ≠ 0)
    (hword : 2 ^ 32 ≤ off / i.unit.secsize + i.part.start)
    (ht : (i.transfer write len off (fun _ => 1) (fun _ => 1) fun _ => 0).1.Truthful write len off
      fun _ => 0) : i.Idle write len off := by
  have hbase := limit_lt_base hword
  have hmod := i.mod_lt off
  have hfirst := mul_nb_pos h
  by_contra hnot
  unfold Idle at hnot
  dsimp only at hnot
  cases write with
  | false =>
    rw [if_neg Bool.false_ne_true, not_or, not_or] at hnot
    obtain ⟨hlen, hread, hle⟩ := hnot
    obtain ⟨l, hl⟩ := Option.ne_none_iff_exists'.mp hread
    have hl' : off % i.unit.secsize < l := not_le.mp fun hle' => hle ⟨l, hl, hle'⟩
    have hpos := len_pos h hlen
    rw [transfer_read_eq h, hl, bio_some] at ht
    have hout := ht.2.1 (by omega)
    omega
  | true =>
    rw [if_pos rfl] at hnot
    by_cases hp : i.Partial len off
    · rw [if_pos hp, not_or, not_or, not_or, not_or] at hnot
      obtain ⟨hlen, hread, hwrite, hle, hless⟩ := hnot
      obtain ⟨l, hl⟩ := Option.ne_none_iff_exists'.mp hread
      obtain ⟨l₁, hl₁⟩ := Option.ne_none_iff_exists'.mp hwrite
      have hle' : off % i.unit.secsize < l₁ := not_le.mp fun hle' => hle ⟨l₁, hl₁, hle'⟩
      have hless' : i.unit.secsize ≤ l := not_lt.mp fun hless' => hless ⟨l, hl, hless'⟩
      have hbio : i.bio i.read (i.nb len off) =
          some (min (i.nb len off * i.unit.secsize) l) := by rw [hl, bio_some]
      obtain ⟨nb', n, hnb', -, hadd, hn, hzero, heq⟩ := transfer_partial_eq (fun _ => 1)
        (fun _ => 1) (fun _ => 0) h hp hbio (.inr (le_min hfirst hless'))
      have hpos := len_pos h hlen
      have hnz : nb' ≠ 0 := fun hz => absurd (hzero.mp hz) (not_lt.mpr (le_min hfirst hless'))
      have hsec : i.unit.secsize ≤ nb' * i.unit.secsize :=
        Nat.le_mul_of_pos_left _ (Nat.pos_of_ne_zero hnz)
      have hsize := Nat.mul_le_mul_right i.unit.secsize hnb'
      rw [heq, put_eq (hadd.trans hsize), hl₁, bio_some] at ht
      have hout := ht.2.1 (by omega)
      omega
    · rw [if_neg hp, not_or] at hnot
      obtain ⟨hwrite, hnz⟩ := hnot
      obtain ⟨l, hl⟩ := Option.ne_none_iff_exists'.mp hwrite
      have hlpos : 0 < min (i.nb len off * i.unit.secsize) l := by
        have hz : l ≠ 0 := fun hz => hnz (hz ▸ hl)
        omega
      rw [transfer_full_eq h hp, hl, bio_some] at ht
      have hnew : blit (fun _ => (0 : UInt8)) (i.bno off * i.unit.secsize)
          (min (i.nb len off * i.unit.secsize) l) (blit (fun _ => 1) (off % i.unit.secsize)
            (i.len len off) fun _ => 1) (i.bno off * i.unit.secsize) ≠ 0 := by
        have happly := blit_apply_add (f := fun _ => (0 : UInt8))
          (a := i.bno off * i.unit.secsize) (g := blit (fun _ => (1 : UInt8))
            (off % i.unit.secsize) (i.len len off) fun _ => 1) hlpos
        rw [Nat.add_zero] at happly
        rw [happly]
        unfold blit
        split_ifs <;> exact (by decide : (1 : UInt8) ≠ 0)
      have hout := (ht.2.2 _ hnew).1
      have hmul := Nat.mul_lt_mul_of_pos_right hb i.unit.secsize_pos
      omega

/-- A write that begins inside a sector that cannot be read goes outside its buffer. -/
theorem transfer_overruns (h : i.nb len off ≠ 0) (hoff : off % i.unit.secsize ≠ 0)
    (hread : i.read = some l) (hless : l < i.unit.secsize) :
    (i.transfer true len off a junk disk).1 = .overrun := by
  have hfirst := mul_nb_pos h
  have hbio : i.bio i.read (i.nb len off) = some l := by
    rw [hread, bio_some, Nat.min_eq_right (by omega)]
  have hneg : ((l / i.unit.secsize : ℕ) : ℤ) * i.unit.secsize - (off % i.unit.secsize : ℕ) < 0 := by
    rw [Nat.div_eq_of_lt hless]
    omega
  have hlt : ((l / i.unit.secsize : ℕ) : ℤ) * i.unit.secsize - (off % i.unit.secsize : ℕ) <
      i.len len off := hneg.trans_le (Int.natCast_nonneg _)
  unfold transfer
  dsimp only
  rw [if_pos rfl, if_pos (.inl hoff), hbio]
  dsimp only
  rw [if_pos (by omega), if_pos hlt]
  unfold put
  dsimp only
  rw [if_pos (.inl hneg)]

/-- A transfer that stays inside is clear. -/
theorem clear_of_contained (hb : i.bno off < i.part.limit) (h : i.nb len off ≠ 0)
    (hc : Contained write len off (i.transfer write len off)) : i.Clear write len off := by
  have hlim := i.part.limit_lt
  obtain ⟨ht, hreqs⟩ := hc (fun _ => 1) (fun _ => 1) fun _ => 0
  obtain ⟨hstart, hend⟩ := asks_transfer h hreqs
  refine ⟨?_, by omega, ?_⟩
  · obtain hword | hword := lt_or_ge (off / i.unit.secsize + i.part.start) (2 ^ 32)
    · exact .inl hword
    · exact .inr ⟨hstart, idle_of_truthful hb h hword ht⟩
  · rintro ⟨rfl, hoff, l, hread, hless⟩
    rw [transfer_overruns h hoff hread hless] at ht
    exact ht

theorem attempt_contained_iff (hlen : len < 2 ^ 31) :
    Contained write len off (fun a junk disk => (i.attempt vers write len off a junk disk).1) ↔
      (i.Asks vers len off → i.Clear write len off) := by
  by_cases hasks : i.Asks vers len off
  · obtain ⟨hcur, hb, h, hmem⟩ := hasks
    have heq : (fun a junk disk => (i.attempt vers write len off a junk disk).1) =
        i.transfer write len off := by
      funext a junk disk
      unfold attempt
      rw [if_neg (not_not.mpr hcur), if_neg (not_or.mpr ⟨not_le.mpr hb, h⟩),
        if_neg (by simp [hmem])]
    rw [heq]
    exact ⟨fun hc _ => clear_of_contained hb h hc,
      fun hc => contained_of_clear hb h hlen (hc ⟨hcur, hb, h, hmem⟩)⟩
  · refine iff_of_true (fun a junk disk => ?_) fun h => absurd h hasks
    dsimp only
    unfold attempt
    by_cases hcur : i.Current vers
    · rw [if_neg (not_not.mpr hcur)]
      by_cases hnone : i.part.limit ≤ i.bno off ∨ i.nb len off = 0
      · rw [if_pos hnone]
        cases write with
        | true => exact ⟨trivial, nofun⟩
        | false => exact ⟨⟨Nat.zero_le _, nofun, rfl, nofun⟩, nofun⟩
      · obtain ⟨hb, h⟩ := not_or.mp hnone
        have hmem : i.sdmalloc = false := by
          by_contra hmem
          exact hasks ⟨hcur, not_le.mp hb, h, Bool.eq_true_of_not_eq_false hmem⟩
        rw [if_neg hnone, if_pos hmem]
        exact ⟨trivial, nofun⟩
    · rw [if_pos hcur]
      exact ⟨trivial, nofun⟩

/-- After a look at the medium the partition is another one. -/
theorem not_current_renewed (h : i.Current vers) (j : Round) : ¬ (i.renewed j).Current vers := by
  unfold Current renewed at *
  simp only [ulong_natCast] at *
  omega

end Round

open Round

variable {i : Round} {change : Option Round} {vers len off : ℕ} {write : Bool}

theorem attempt_of_not_current (h : ¬ i.Current vers) (a junk disk : Bytes) :
    i.attempt vers write len off a junk disk = ((.error Eio, []), true) := if_pos h

theorem sdbio_none : sdbio i none vers write len off =
    fun a junk disk => (i.attempt vers write len off a junk disk).1 := by
  funext a junk disk
  unfold sdbio
  generalize i.attempt vers write len off a junk disk = r
  obtain ⟨⟨o, reqs⟩, caught⟩ := r
  cases o <;> cases caught <;> rfl

/-- When the partition was the one that was opened, a second time around asks for nothing. -/
theorem sdbio_of_current (h : i.Current vers) (j : Round) (a junk disk : Bytes) :
    (sdbio i (some j) vers write len off a junk disk).2 =
        (i.attempt vers write len off a junk disk).1.2 ∧
      ((sdbio i (some j) vers write len off a junk disk).1.Truthful write len off disk ↔
        (i.attempt vers write len off a junk disk).1.1.Truthful write len off disk) := by
  unfold sdbio
  generalize i.attempt vers write len off a junk disk = r
  obtain ⟨⟨o, reqs⟩, caught⟩ := r
  cases o with
  | error why =>
    cases caught with
    | false => exact ⟨rfl, Iff.rfl⟩
    | true =>
      dsimp only
      rw [attempt_of_not_current (not_current_renewed h j)]
      split_ifs
      · exact ⟨List.append_nil reqs, Iff.rfl⟩
      · exact ⟨rfl, Iff.rfl⟩
  | overrun => cases caught <;> exact ⟨rfl, Iff.rfl⟩
  | done unit part r a' disk' => cases caught <;> exact ⟨rfl, Iff.rfl⟩

/-- A second time around asks for something only when the first one found another partition. -/
theorem sdbio_contained_iff :
    Contained write len off (sdbio i change vers write len off) ↔
      Contained write len off (fun a junk disk => (i.attempt vers write len off a junk disk).1) ∧
        ∀ j, change = some j → ¬ i.Current vers → Contained write len off fun a junk disk =>
          ((i.renewed j).attempt vers write len off a junk disk).1 := by
  cases change with
  | none =>
    rw [sdbio_none]
    exact (and_iff_left nofun).symm
  | some j =>
    by_cases hcur : i.Current vers
    · rw [and_iff_left fun _ _ hnot => absurd hcur hnot]
      refine forall_congr' fun a => forall_congr' fun junk => forall_congr' fun disk => ?_
      obtain ⟨hreqs, htrue⟩ := @sdbio_of_current i vers len off write hcur j a junk disk
      rw [hreqs, htrue]
    · have hfirst : Contained write len off
          fun a junk disk => (i.attempt vers write len off a junk disk).1 := by
        intro a junk disk
        dsimp only
        rw [attempt_of_not_current hcur]
        exact ⟨trivial, nofun⟩
      have hsecond : sdbio i (some j) vers write len off = fun a junk disk =>
          ((i.renewed j).attempt vers write len off a junk disk).1 := by
        funext a junk disk
        unfold sdbio
        rw [attempt_of_not_current hcur]
        rfl
      rw [hsecond, and_iff_right hfirst]
      constructor
      · rintro h j' hj -
        exact Option.some.inj hj ▸ h
      · exact fun h => h j rfl hcur

/-- A transfer stays inside its partition just when each time around that asks the unit for sectors
is clear. -/
theorem contained_iff (i : Round) (change : Option Round) (vers : ℕ) (write : Bool) (off : ℕ)
    (hlen : len < 2 ^ 31) : Contained write len off (sdbio i change vers write len off) ↔
      (i.Asks vers len off → i.Clear write len off) ∧
        ∀ j, change = some j → ¬ i.Current vers →
          (i.renewed j).Asks vers len off → (i.renewed j).Clear write len off := by
  rw [sdbio_contained_iff, attempt_contained_iff hlen]
  refine and_congr_right fun _ => forall_congr' fun j => ?_
  exact imp_congr_right fun _ => imp_congr_right fun _ => attempt_contained_iff hlen

/-- A partition of a thousand sectors of a unit that transfers a sector. -/
def disc : Round where
  unit := { secsize := 512, vers := 0, removable := false, secsize_pos := by decide }
  part := { start := 63, limit := 1063, vers := 0, start_le := by decide, limit_lt := by decide }
  sdmalloc := true
  read := some 512
  write := some 512

/-- The first sector is read. -/
theorem contained_of_first : (disc.bno 0, disc.nb 512 0) = (63, 1) ∧
    Contained false 512 0 (sdbio disc none 0 false 512 0) := by
  refine ⟨by decide +kernel, (contained_iff disc none 0 false 0 (by decide)).mpr
    ⟨fun _ => ⟨.inl (by decide), by decide +kernel, fun h => ?_⟩, nofun⟩⟩
  cases h.1

/-- A write at an offset of `2 ^ 32` sectors goes to the first sector of the partition. -/
theorem sdbio_wraps : ¬ Contained true 512 (2 ^ 41) (sdbio disc none 0 true 512 (2 ^ 41)) := by
  rw [sdbio_none, attempt_contained_iff (by decide)]
  intro h
  have hasks : disc.Asks 0 512 (2 ^ 41) :=
    ⟨by decide +kernel, by decide +kernel, by decide +kernel, rfl⟩
  obtain ⟨hword | ⟨-, hidle⟩, -⟩ := h hasks
  · exact absurd hword (by decide +kernel)
  · unfold Idle at hidle
    dsimp only at hidle
    have hfull : ¬ disc.Partial 512 (2 ^ 41) := by decide +kernel
    rw [if_pos rfl, if_neg hfull] at hidle
    obtain hnone | hzero := hidle
    · cases hnone
    · cases hzero

end PlanNine.Devsd
