import PlanNine.Port.Qio.Block

/-!
# Trimming a string of blocks

`trimblock` of `qio.c`, with the blocks that it frees, and `concatblock` and `packblock`.

`trimblock` compares the length of the string with the sum of the offset and the length as `int`s,
and the length of each block with the length that is left as `ulong`s. A length below zero is thus
taken for a small one first and for a large one then, and the loop runs off the end of the string:
a string of 4 GB aside, which would have the end in it.

## Main definitions

* `Trim.trimblock`: `none` where a block is read that is not there.
* `Trim.concatblock`, `Trim.packblock`.

## Main results

* `Trim.trimblock_spec`: a length that is not below zero gives the bytes asked for.
* `Trim.trimblock_neg`: a length below zero stops the machine, unless the string is too short.
-/

namespace PlanNine.Qio.Trim

/-! ### Cutting both ends -/

/-- The loop that skips `offset` bytes: the blocks freed, and the string left. -/
def trimFront : List Block → ℕ → Option (List Block × List Block)
  | [], _ => none
  | b :: bs, offset =>
    if b.BLEN < offset then (trimFront bs (offset - b.BLEN)).map fun (freed, bs) => (b :: freed, bs)
    else some ([], b.skip offset :: bs)

/-- The loop that keeps `len` bytes: the blocks kept, and those freed behind them. -/
def trimBack : List Block → ℤ → Option (List Block × List Block)
  | [], _ => none
  | b :: bs, len =>
    -- a length below zero is a large one as an `ulong`
    if len < 0 ∨ b.BLEN < len then
      (trimBack bs (len - b.BLEN)).map fun (kept, freed) => (b :: kept, freed)
    else some ([b.cut len.toNat], bs)

/-- The string left, which is empty for `nil`, and the blocks freed. -/
structure Trimmed where
  kept : List Block
  freed : List Block
  deriving DecidableEq, Repr

def trimblock (bp : List Block) (offset : ℕ) (len : ℤ) : Option Trimmed :=
  if (blocklen bp : ℤ) < offset + len then some ⟨[], bp⟩
  else do
    let (front, startb) ← trimFront bp offset
    let (kept, back) ← trimBack startb len
    return ⟨kept, front ++ back⟩

variable {bs : List Block} {offset : ℕ} {len : ℤ}

theorem trimFront_spec (hne : bs ≠ []) (hle : offset ≤ blocklen bs) :
    ∃ freed rest, trimFront bs offset = some (freed, rest) ∧ rest ≠ [] ∧
      bytes rest = (bytes bs).drop offset ∧
      (freed ++ rest).map Block.addr = bs.map Block.addr := by
  induction bs generalizing offset with
  | nil => exact absurd rfl hne
  | cons b bs ih =>
    rw [blocklen_cons] at hle
    rw [trimFront]
    split_ifs with hlt
    · have hbs : bs ≠ [] := by
        rintro rfl
        rw [blocklen_nil] at hle
        omega
      have hrestle : offset - b.BLEN ≤ blocklen bs := by omega
      obtain ⟨freed, rest, hrun, hrest, hbytes, haddr⟩ := ih hbs hrestle
      refine ⟨b :: freed, rest, by rw [hrun, Option.map_some], hrest, ?_, ?_⟩
      · have hnil : b.data.drop offset = [] := List.drop_eq_nil_of_le hlt.le
        rw [hbytes, bytes_cons, List.drop_append, hnil, List.nil_append, Block.BLEN]
      · rw [List.cons_append, List.map_cons, haddr, List.map_cons]
    · refine ⟨[], _, rfl, List.cons_ne_nil _ _, ?_, rfl⟩
      rw [bytes_cons, bytes_cons, Block.data_skip,
        List.drop_append_of_le_length (not_lt.mp hlt)]

theorem trimBack_spec (hne : bs ≠ []) (hlen : 0 ≤ len) (hle : len ≤ blocklen bs) :
    ∃ kept freed, trimBack bs len = some (kept, freed) ∧ kept ≠ [] ∧
      bytes kept = (bytes bs).take len.toNat ∧
      (kept ++ freed).map Block.addr = bs.map Block.addr := by
  induction bs generalizing len with
  | nil => exact absurd rfl hne
  | cons b bs ih =>
    rw [blocklen_cons, Nat.cast_add] at hle
    rw [trimBack]
    split_ifs with hlt
    · have hgt : (b.BLEN : ℤ) < len := hlt.resolve_left (not_lt.mpr hlen)
      have hbs : bs ≠ [] := by
        rintro rfl
        rw [blocklen_nil] at hle
        omega
      have hrestlen : 0 ≤ len - b.BLEN := by omega
      have hrestle : len - b.BLEN ≤ blocklen bs := by omega
      obtain ⟨kept, freed, hrun, -, hbytes, haddr⟩ := ih hbs hrestlen hrestle
      refine ⟨b :: kept, freed, by rw [hrun, Option.map_some], List.cons_ne_nil _ _, ?_, ?_⟩
      · have hnat : (len - b.BLEN).toNat = len.toNat - b.data.length := by
          rw [Block.BLEN]
          omega
        have hall : b.data.take len.toNat = b.data := by
          refine List.take_of_length_le ?_
          rw [Block.BLEN] at hgt
          omega
        rw [bytes_cons, hbytes, hnat, bytes_cons, List.take_append, hall]
      · rw [List.cons_append, List.map_cons, haddr, List.map_cons]
    · refine ⟨_, bs, rfl, List.cons_ne_nil _ _, ?_, rfl⟩
      have hshort : len.toNat ≤ b.data.length := by
        rw [not_or, Block.BLEN] at hlt
        omega
      rw [bytes_cons, bytes_nil, List.append_nil, Block.data_cut, bytes_cons,
        List.take_append_of_le_length hshort]

/-- No block is as long as a length below zero. -/
theorem trimBack_neg (hlen : len < 0) : trimBack bs len = none := by
  induction bs generalizing len with
  | nil => rfl
  | cons b bs ih =>
    rw [trimBack, if_pos (.inl hlen), ih (by omega)]
    rfl

/-- A string that is shorter than the bytes asked for is freed. -/
theorem trimblock_short (h : (blocklen bs : ℤ) < offset + len) :
    trimblock bs offset len = some ⟨[], bs⟩ :=
  if_pos h

/-- A string that is long enough keeps the bytes asked for, and each of its blocks is kept or
freed. -/
theorem trimblock_spec (hne : bs ≠ []) (hlen : 0 ≤ len) (hle : offset + len ≤ blocklen bs) :
    ∃ t, trimblock bs offset len = some t ∧ t.kept ≠ [] ∧
      bytes t.kept = ((bytes bs).drop offset).take len.toNat ∧
      ((t.kept ++ t.freed).map Block.addr).Perm (bs.map Block.addr) := by
  have hoffset : offset ≤ blocklen bs := by omega
  obtain ⟨front, rest, hfront, hrest, hdrop, haddr⟩ := trimFront_spec hne hoffset
  have hrestlen : blocklen rest = blocklen bs - offset := by
    rw [← length_bytes, hdrop, List.length_drop, length_bytes]
  have hlenle : len ≤ blocklen rest := by omega
  obtain ⟨kept, back, hback, hkept, htake, haddr'⟩ := trimBack_spec hrest hlen hlenle
  refine ⟨⟨kept, front ++ back⟩, ?_, hkept, by rw [htake, hdrop], ?_⟩
  · rw [trimblock, if_neg (not_lt.mpr hle), hfront]
    simp only [Option.bind_eq_bind, Option.bind_some, hback]
    rfl
  · rw [← haddr, List.map_append, List.map_append, List.map_append, ← haddr', List.map_append]
    exact List.perm_append_comm_assoc _ _ _

/-- A length below zero makes the loop run off the end of the string. -/
theorem trimblock_neg (hlen : len < 0) (hle : offset + len ≤ blocklen bs) :
    trimblock bs offset len = none := by
  rw [trimblock, if_neg (not_lt.mpr hle)]
  cases trimFront bs offset with
  | none => rfl
  | some r => simp [trimBack_neg hlen]

/-! ### Copies -/

/-- `concatblock(bp)`, for a string that is not `nil`. -/
def concatblock (m : Mem) (bp : List Block) : List Block :=
  if bp.tail = [] then bp else [(allocb m (blocklen bp)).put (bytes bp)]

/-- `packblock(bp)`: blocks that are mostly empty are copied into smaller ones. -/
def packblock (m : ℕ → Mem) : List Block → List Block
  | [] => []
  | b :: bs =>
    (if b.BLEN * 4 < b.BALLOC then (allocb (m 0) b.BLEN).put b.data else b) ::
      packblock (fun i => m (i + 1)) bs

theorem bytes_concatblock (m : Mem) : bytes (concatblock m bs) = bytes bs := by
  unfold concatblock
  split_ifs
  · rfl
  · rw [bytes_cons, bytes_nil, List.append_nil, Block.data_put, data_allocb, List.nil_append]

/-- A string that is not `nil` becomes one block. -/
theorem concatblock_eq (m : Mem) (hne : bs ≠ []) : ∃ b, concatblock m bs = [b] := by
  obtain ⟨b, bs, rfl⟩ := List.exists_cons_of_ne_nil hne
  unfold concatblock
  split_ifs with htail
  · exact ⟨b, by rw [List.tail_cons] at htail; rw [htail]⟩
  · exact ⟨_, rfl⟩

theorem bytes_packblock (m : ℕ → Mem) : bytes (packblock m bs) = bytes bs := by
  induction bs generalizing m with
  | nil => rfl
  | cons b bs ih =>
    rw [packblock, bytes_cons, ih, bytes_cons]
    split_ifs
    · rw [Block.data_put, data_allocb, List.nil_append]
    · rfl

end PlanNine.Qio.Trim
