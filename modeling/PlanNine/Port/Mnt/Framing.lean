import PlanNine.Lib.Run
import PlanNine.Port.Mnt.Read
import PlanNine.Port.Qio.Accounting

/-!
# Framing of the replies

Every call of `mntrpcread` takes one message off the stream, as its size field delimits it, or
fails, whatever blocks the stream comes in. A reply to `Tread` that is shorter than its own header
is the exception: the header is pulled up before the size is looked at, and when no other message
follows closely enough the queue is freed and its first block is looked at nevertheless. A size
with the sign bit set passes the check against the message size of the mount, too.

## Main definitions

* `Framed`: a call took the message off the stream, or failed.
* `Sized`: the condition on the message at the front of the stream.
* `Mount`, `Call`: the queue and the blocks not read yet, over the calls of a run.

## Main results

* `framed_mntrpcread_iff`: a call takes a message, or fails, if and only if the condition is met.
* `framed_of_run`: so it is in every call of every run.
-/

namespace PlanNine.Qio

/-- The bytes are counted in `dlen`, and `blast` points to the last block. The other counter may be
wrong: `pullupqueue` does not count the blocks that it adds and frees. -/
def Queue.Counted (q : Queue) : Prop := ∃ n : ℤ, Queue.Accounted { q with len := n }

variable {q q' : Queue} {b : Block} {bs : List Block}

theorem Queue.Accounted.counted (h : q'.Accounted) (hfirst : q.bfirst = q'.bfirst)
    (hlast : q.blast = q'.blast) (hdlen : q.dlen = q'.dlen) : q.Counted :=
  ⟨q'.len, h.congr hfirst hlast rfl hdlen⟩

theorem Queue.Counted.dlen (h : q.Counted) : q.dlen = blocklen q.bfirst := by
  obtain ⟨n, h⟩ := h
  exact h.dlen

theorem Queue.Counted.pop (h : q.Counted) (hq : q.bfirst = b :: bs) : (q.pop b bs).Counted := by
  obtain ⟨n, h⟩ := h
  exact (Queue.Accounted.pop h hq).counted rfl rfl rfl

theorem Queue.Counted.skip (h : q.Counted) (hq : q.bfirst = b :: bs) {n : ℕ} (hn : n ≤ b.BLEN) :
    Queue.Counted { q with bfirst := b.skip n :: bs, dlen := q.dlen - n } := by
  obtain ⟨k, h⟩ := h
  exact (Queue.Accounted.skip h hq hn).counted rfl rfl rfl

theorem Queue.Counted.putback (h : q.Counted) (b : Block) : (qputback q b).Counted := by
  obtain ⟨n, h⟩ := h
  exact (Queue.Accounted.putback h b).counted rfl rfl rfl

theorem Queue.Counted.append_bfirst (h : q.Counted) (hnd : q.addrs.Nodup) (b : Block)
    (bs : List Block) :
    (q.append b bs).bfirst = q.bfirst ++ b :: bs := by
  obtain ⟨n, h⟩ := h
  have heq : (q.append b bs).bfirst = (Queue.append { q with len := n } b bs).bfirst := by
    simp only [Queue.append, Queue.link]
    split <;> rfl
  rw [heq]
  exact PlanNine.Qio.append_bfirst h hnd

theorem Queue.Counted.append (h : q.Counted) (hnd : q.addrs.Nodup) : (q.append b bs).Counted := by
  have hfirst := h.append_bfirst hnd b bs
  obtain ⟨n, h⟩ := h
  have hacc : (Queue.append { q with len := n } b bs).Accounted := Queue.Accounted.append h hnd
  refine hacc.counted ?_ rfl rfl
  rw [hfirst]
  exact (PlanNine.Qio.append_bfirst h hnd).symm

/-- `pullupqueue` finds its bytes in the queue and puts them into the first block. -/
theorem Queue.Counted.pullupqueue (h : q.Counted) (hq : q.bfirst = b :: bs) (m : Mem) {n : ℕ}
    (hn : n ≤ blocklen q.bfirst) :
    ∃ q' c cs, pullupqueue q m n = some q' ∧ q'.bfirst = c :: cs ∧ c.BLEN = max b.BLEN n ∧
      bytes q'.bfirst = bytes q.bfirst ∧ q'.Counted := by
  rw [hq] at hn
  unfold PlanNine.Qio.pullupqueue
  rw [hq]
  dsimp only
  split_ifs with hle
  · exact ⟨q, b, bs, rfl, hq, by omega, by rw [hq], h⟩
  obtain ⟨c, cs, hc, hlen, hdata⟩ := pullupblock_cons m b bs n hn
  rw [hc]
  refine ⟨_, c, cs, rfl, rfl, hlen, hdata, blockalloclen (c :: cs), ?_, rfl, ?_⟩
  · rw [h.dlen, hq, ← length_bytes, ← length_bytes, hdata]
  · rintro d ds hd
    obtain ⟨rfl, rfl⟩ := List.cons.inj hd
    rfl

theorem counted_qdiscardLoop (len : ℕ) : ∀ (bs : List Block) (sofar : ℕ) (q : Queue),
    q.Counted → q.bfirst = bs → (qdiscardLoop len bs sofar q).2.Counted := by
  intro bs
  induction bs with
  | nil => intro sofar q h _; exact h
  | cons b bs ih =>
    intro sofar q h hq
    rw [qdiscardLoop]
    split_ifs with hlt hle
    · exact ih (sofar + b.BLEN) (q.pop b bs) (h.pop hq) rfl
    · exact h.skip hq (by omega)
    · exact h

end PlanNine.Qio

namespace PlanNine.Mnt

open Qio

variable {Fcall : Type} {C : ConvM2S Fcall} {msize : ℤ} {m m₀ m₁ m₂ : Mem} {chan : List Block}
  {q q' : Queue} {nb b : Block} {bs : List Block}

/-! ### What a call is to do -/

/-- The call took one message off the stream, as delimited by its size field: its header is
decoded, its data hang on the reply, and all later bytes are left, those read in the queue. Or it
failed. -/
def Framed (C : ConvM2S Fcall) (chan : List Block) (q : Queue)
    (r : Rpcread Fcall × Queue × List Block) : Prop :=
  let S := bytes q.bfirst ++ bytes chan
  match r.1 with
  | .fault => False
  | .fail => True
  | .done reply b => ∃ n : ℕ, GBIT32 S = n ∧ n ≤ S.length ∧ C.decode (S.take n) n = some reply ∧
      bytes b = (S.take n).drop (hdrlen (mtype S) n).toNat ∧
      ∃ rd, chan = rd ++ r.2.2 ∧ bytes r.2.1.bfirst ++ bytes r.2.2 = S.drop n

/-- The bytes held once there are `n`, when blocks of the channel are added to `k` bytes. -/
def held (n : ℤ) : List Block → ℕ → ℕ
  | [], k => k
  | b :: chan, k => if (k : ℤ) < n then held n chan (k + b.BLEN) else k

/-- The bytes in the first block of a string. -/
def firstLen (bs : List Block) : ℕ := (bs.head?.map Block.BLEN).getD 0

/-- The message at the front is one that a call can cope with: when all of it is there, and its
size is within the message size of the mount, then

* an `Rread` has a whole header, or there are as many bytes once the message is complete;
* when the size is negative the decoder rejects it without looking beyond the first block. -/
def Sized (C : ConvM2S Fcall) (msize : ℤ) (chan : List Block) (q : Queue) : Prop :=
  let S := bytes q.bfirst ++ bytes chan
  let len := GBIT32 S
  7 ≤ S.length → len ≤ msize → len ≤ S.length →
    (mtype S = Rread → RreadHdr ≤ len ∨ RreadHdr ≤ held (max 7 len) chan (blocklen q.bfirst)) ∧
    (len < 0 → C.decode S (ulong len) = none ∧
      C.extent S (ulong len) ≤
        max (firstLen (q.bfirst ++ chan)) (if mtype S = Rread then RreadHdr else 7))

/-! ### What a call meets -/

/-- The queue is counted right, and no block is in it twice. -/
structure Kept (q : Queue) : Prop where
  counted : q.Counted
  nodup : q.addrs.Nodup

/-- No block that `doread` reads is in the queue already. -/
def Apart (len : ℤ) : List Block → Queue → Prop
  | [], _ => True
  | b :: chan, q => q.dlen < len → b.addr ∉ q.addrs ∧ Apart len chan (qaddlist q b [])

/-- From the header of `len` bytes and of the type `t` on, the allocator gives out no block that is
in the queue. -/
@[mk_iff] structure FreshHeader (m₁ m₂ : Mem) (len : ℤ) (t : ℕ) (q : Queue) : Prop where
  header : m₁.addr ∉ q.addrs
  split : ∀ r ∈ pullup q m₁ (hdrlen t len), m₂.addr ∉ r.1.addrs

/-- From the block `nb` on, neither the channel nor the allocator gives out a block that is in the
queue. -/
@[mk_iff] structure FreshBody (m₁ m₂ : Mem) (chan : List Block) (q : Queue) (nb : Block) :
    Prop where
  apart : Apart (GBIT32 nb.data) chan q
  rest : FreshHeader m₁ m₂ (GBIT32 nb.data) (mtype nb.data) (doread (GBIT32 nb.data) chan q).2.1

/-- In a call, neither the channel nor the allocator gives out a block that is in the queue. -/
@[mk_iff] structure Fresh (m₀ m₁ m₂ : Mem) (chan : List Block) (q : Queue) : Prop where
  apart : Apart (BIT32SZ + BIT8SZ + BIT16SZ : ℕ) chan q
  first : m₀.addr ∉ (doread (BIT32SZ + BIT8SZ + BIT16SZ : ℕ) chan q).2.1.addrs
  rest : ∀ r ∈ pullup (doread (BIT32SZ + BIT8SZ + BIT16SZ : ℕ) chan q).2.1 m₀
      (BIT32SZ + BIT8SZ + BIT16SZ : ℕ),
    FreshBody m₁ m₂ (doread (BIT32SZ + BIT8SZ + BIT16SZ : ℕ) chan q).2.2 r.1 r.2

instance decidableApart (len : ℤ) : ∀ (chan : List Block) (q : Queue), Decidable (Apart len chan q)
  | [], _ => isTrue trivial
  | b :: chan, q =>
      haveI := decidableApart len chan (qaddlist q b [])
      inferInstanceAs (Decidable (q.dlen < len → b.addr ∉ q.addrs ∧ _))

instance {len : ℤ} {t : ℕ} : Decidable (FreshHeader m₁ m₂ len t q) :=
  decidable_of_iff' _ (freshHeader_iff ..)

instance : Decidable (FreshBody m₁ m₂ chan q nb) := decidable_of_iff' _ (freshBody_iff ..)

instance : Decidable (Fresh m₀ m₁ m₂ chan q) := decidable_of_iff' _ (fresh_iff ..)

/-! ### Collecting blocks -/

/-- What `doread` does: the blocks read are appended, as many as are needed. -/
structure Collects (len : ℤ) (chan : List Block) (q : Queue) (r : Bool × Queue × List Block) :
    Prop where
  kept : Kept r.2.1
  read : ∃ rd, chan = rd ++ r.2.2 ∧ r.2.1.bfirst = q.bfirst ++ rd
  enough : r.1 = true → len ≤ blocklen r.2.1.bfirst ∧
    ∀ n, len ≤ n → held n chan (blocklen q.bfirst) = held n r.2.2 (blocklen r.2.1.bfirst)
  short : r.1 = false → (blocklen q.bfirst + blocklen chan : ℕ) < len

theorem Kept.append (h : Kept q) (hb : b.addr ∉ q.addrs) : Kept (qaddlist q b []) := by
  refine ⟨h.counted.append h.nodup, ?_⟩
  unfold qaddlist
  rw [Queue.addrs, h.counted.append_bfirst h.nodup, List.map_append, List.map_singleton,
    List.nodup_append]
  refine ⟨h.nodup, List.nodup_singleton _, fun a ha c hc heq => hb ?_⟩
  rw [← List.mem_singleton.mp hc, ← heq]
  exact ha

theorem collects_doread (len : ℤ) : ∀ (chan : List Block) (q : Queue), Kept q →
    (∀ b ∈ chan, b.BLEN ≠ 0) → Apart len chan q → Collects len chan q (doread len chan q) := by
  intro chan
  induction chan with
  | nil =>
    intro q h _ _
    have hdlen := h.counted.dlen
    refine ⟨h, ⟨[], rfl, (List.append_nil _).symm⟩, fun ht => ⟨?_, fun _ _ => rfl⟩, fun hf => ?_⟩
    · simp only [doread, Bool.not_eq_true', decide_eq_false_iff_not] at ht
      simp only [doread]
      omega
    · simp only [doread, Bool.not_eq_false', decide_eq_true_eq] at hf
      simp only [blocklen_nil]
      omega
  | cons b chan ih =>
    intro q h hz ha
    have hdlen := h.counted.dlen
    rw [doread]
    split_ifs with hlt hb
    · exact absurd hb (hz b (List.mem_cons_self ..))
    · obtain ⟨hfresh, hrest⟩ := ha hlt
      have hfirst : (qaddlist q b []).bfirst = q.bfirst ++ [b] :=
        h.counted.append_bfirst h.nodup b []
      have hsum : blocklen (qaddlist q b []).bfirst = blocklen q.bfirst + b.BLEN := by
        rw [hfirst, blocklen_append, blocklen_cons, blocklen_nil, add_zero]
      obtain ⟨hkept, ⟨rd, hrd, hto⟩, henough, hshort⟩ :=
        ih _ (h.append hfresh) (fun c hc => hz c (List.mem_cons_of_mem _ hc)) hrest
      refine ⟨hkept, ⟨b :: rd, ?_, ?_⟩, fun ht => ?_, fun hf => ?_⟩
      · rw [List.cons_append, ← hrd]
      · rw [hto, hfirst, List.append_assoc]
        rfl
      · obtain ⟨hle, heq⟩ := henough ht
        refine ⟨hle, fun n hn => ?_⟩
        rw [held, if_pos (by omega), ← hsum]
        exact heq n hn
      · have := hshort hf
        rw [hsum] at this
        rw [blocklen_cons]
        omega
    · refine ⟨h, ⟨[], rfl, (List.append_nil _).symm⟩, fun _ => ⟨?_, fun _ _ => rfl⟩, fun hf => ?_⟩
      · simp only
        omega
      · exact absurd hf (by simp)

theorem held_of_le {n : ℤ} {k : ℕ} (h : n ≤ k) (chan : List Block) : held n chan k = k := by
  cases chan with
  | nil => rfl
  | cons b chan => rw [held, if_neg (by omega)]

theorem Collects.bytes_eq {len : ℤ} {r : Bool × Queue × List Block} (h : Collects len chan q r) :
    bytes r.2.1.bfirst ++ bytes r.2.2 = bytes q.bfirst ++ bytes chan := by
  obtain ⟨rd, hrd, hto⟩ := h.read
  rw [hto, bytes_append, List.append_assoc, ← bytes_append, ← hrd]

/-! ### Pulling up the header -/

/-- The header is pulled up when its bytes are there. -/
theorem pullup_spec (h : Kept q) (hm : m.addr ∉ q.addrs) {n : ℤ} (hpos : 0 < blocklen q.bfirst)
    (hn : n ≤ blocklen q.bfirst) :
    ∃ q' nb bs, pullup q m n = some (q', nb) ∧ q'.bfirst = nb :: bs ∧
      nb.BLEN = max (firstLen q.bfirst) n.toNat ∧ bytes q'.bfirst = bytes q.bfirst ∧ Kept q' := by
  rcases hq : q.bfirst with _ | ⟨b, bs⟩
  · rw [hq] at hpos
    exact absurd hpos (lt_irrefl _)
  have hle : n.toNat ≤ blocklen q.bfirst := by omega
  obtain ⟨q', c, cs, hp, hfirst, hlen, hdata, hcount⟩ := h.counted.pullupqueue hq m hle
  refine ⟨q', c, cs, ?_, hfirst, hlen, by rw [hdata, hq], hcount, ?_⟩
  · simp only [pullup, hp, hfirst, List.head?_cons, Option.map_some]
  · exact (List.nodup_cons.mpr ⟨hm, h.nodup⟩).sublist (addrs_pullupqueue hp)

/-- When they are not there the queue is freed, and there is no first block. -/
theorem pullup_eq_none {n : ℤ} (hn : (blocklen q.bfirst : ℤ) < n) : pullup q m n = none := by
  unfold pullup pullupqueue
  rcases hq : q.bfirst with _ | ⟨b, bs⟩
  · rfl
  have hlt : blocklen (b :: bs) < n.toNat := by
    rw [hq] at hn
    omega
  have hb : ¬ n.toNat ≤ b.BLEN := by
    rw [blocklen_cons] at hlt
    omega
  simp only [if_neg hb, pullupblock_eq_nil m b bs n.toNat hlt, List.head?_nil, Option.map_none]

/-! ### Hanging the data on the reply -/

/-- The loop hangs `len` bytes on the reply and leaves the others in the queue. -/
theorem hangLoop_spec (m : Mem) : ∀ (bs : List Block) (len : ℤ) (q : Queue), Kept q →
    m.addr ∉ q.addrs → q.bfirst = bs → bs ≠ [] → 0 ≤ len → len ≤ blocklen bs →
    ∃ b q', hangLoop m bs len q = some (b, q') ∧ bytes b = (bytes bs).take len.toNat ∧
      bytes q'.bfirst = (bytes bs).drop len.toNat ∧ Kept q' := by
  intro bs
  induction bs with
  | nil => intro len q _ _ _ hne; exact absurd rfl hne
  | cons b bs ih =>
    intro len q h hm hq _ hpos hle
    have hpop : Kept (q.pop b bs) := by
      refine ⟨h.counted.pop hq, ?_⟩
      have hnd := h.nodup
      rw [Queue.addrs, hq] at hnd
      exact (List.nodup_cons.mp hnd).2
    have hm' : m.addr ∉ (q.pop b bs).addrs := by
      rw [Queue.addrs, hq, List.map_cons, List.mem_cons, not_or] at hm
      exact hm.2
    rw [blocklen_cons] at hle
    rw [hangLoop, bytes_cons]
    dsimp only
    split_ifs with hfit hmore hneg
    · have hne : bs ≠ [] := by
        rintro rfl
        rw [blocklen_nil] at hle
        omega
      obtain ⟨c, q', heq, htake, hdrop, hkept⟩ :=
        ih (len - b.BLEN) (q.pop b bs) hpop hm' rfl hne (by omega) (by omega)
      have hlen : b.data.length ≤ len.toNat := by
        change b.BLEN ≤ len.toNat
        omega
      have hrest : (len - b.BLEN).toNat = len.toNat - b.data.length := by
        change _ = len.toNat - b.BLEN
        omega
      refine ⟨b :: c, q', by rw [heq]; rfl, ?_, ?_, hkept⟩
      · rw [bytes_cons, htake, List.take_append, List.take_of_length_le hlen, hrest]
      · rw [hdrop, List.drop_append, List.drop_of_length_le hlen, hrest, List.nil_append]
    · have hlen : len.toNat = b.data.length := by
        change _ = b.BLEN
        omega
      refine ⟨[b], q.pop b bs, rfl, ?_, ?_, hpop⟩
      · rw [hlen, List.take_left, bytes_cons, bytes_nil, List.append_nil]
      · rw [hlen, List.drop_left]
        rfl
    · omega
    · have hlen : len.toNat ≤ b.data.length := by
        change len.toNat ≤ b.BLEN
        omega
      refine ⟨_, _, rfl, ?_, ?_, hpop.counted.putback _, ?_⟩
      · rw [List.take_append_of_le_length hlen, bytes_cons, bytes_nil, List.append_nil]
        rfl
      · rw [List.drop_append_of_le_length hlen]
        rfl
      · exact List.nodup_cons.mpr ⟨hm', hpop.nodup⟩

/-- With the header in the first block, the data of the message are hung on the reply. -/
theorem hang_spec (h : Kept q) (hm : m.addr ∉ q.addrs) {hlen len : ℤ} (hq : q.bfirst = b :: bs)
    (hpos : 0 < hlen) (hb : hlen ≤ b.BLEN) (hle : hlen ≤ len) (hlen' : len ≤ blocklen q.bfirst) :
    ∃ c q', hang m hlen len q = some (c, q') ∧
      bytes c = ((bytes q.bfirst).take len.toNat).drop hlen.toNat ∧
      bytes q'.bfirst = (bytes q.bfirst).drop len.toNat ∧ Kept q' := by
  have hskip : hlen.toNat ≤ b.data.length := by
    change hlen.toNat ≤ b.BLEN
    omega
  have hBLEN := b.BLEN_skip (n := hlen.toNat)
  have hcount : b.BLEN - (b.skip hlen.toNat).BLEN = hlen.toNat := by omega
  have hkept : Kept { q with
      bfirst := b.skip hlen.toNat :: bs, dlen := q.dlen - hlen.toNat } := by
    refine ⟨h.counted.skip hq (by omega), ?_⟩
    have hnd := h.nodup
    rw [Queue.addrs, hq] at hnd
    exact hnd
  have hfresh : m.addr ∉ Queue.addrs { q with
      bfirst := b.skip hlen.toNat :: bs, dlen := q.dlen - hlen.toNat } := by
    rw [Queue.addrs, hq] at hm
    exact hm
  have hbytes : bytes (b.skip hlen.toNat :: bs) = (bytes q.bfirst).drop hlen.toNat := by
    rw [hq, bytes_cons, bytes_cons, List.drop_append_of_le_length hskip]
    rfl
  have htotal : len - hlen ≤ blocklen (b.skip hlen.toNat :: bs) := by
    rw [hq, blocklen_cons] at hlen'
    rw [blocklen_cons]
    omega
  obtain ⟨c, q', heq, htake, hdrop, hkept'⟩ := hangLoop_spec m (b.skip hlen.toNat :: bs)
    (len - hlen) _ hkept hfresh rfl (List.cons_ne_nil _ _) (by omega) htotal
  have hsub : (len - hlen).toNat = len.toNat - hlen.toNat := by omega
  refine ⟨c, q', ?_, ?_, ?_, hkept'⟩
  · unfold hang
    rw [hq]
    simp only [if_pos hpos, hcount]
    exact heq
  · rw [htake, hbytes, hsub, List.drop_take]
  · rw [hdrop, hbytes, hsub, List.drop_drop]
    congr 1
    omega

/-- Without a size nothing can be hung on the reply. -/
theorem hang_eq_none {len : ℤ} (hneg : len < 0) (t : ℕ) (q : Queue) :
    hang m (hdrlen t len) len q = none := by
  have hloop (bs : List Block) (n : ℤ) (hn : n < 0) (q : Queue) : hangLoop m bs n q = none := by
    cases bs with
    | nil => rfl
    | cons b bs => rw [hangLoop, if_neg (by omega), if_pos hn]
  unfold hang
  split
  · rfl
  · split_ifs with hpos
    · exact hloop _ _ (by omega) _
    · exact hloop _ _ hneg _

/-! ### A call -/

theorem GBIT32_append {p s : List UInt8} (h : 4 ≤ p.length) : GBIT32 (p ++ s) = GBIT32 p := by
  have hget (i : ℕ) (hi : i < 4) : (p ++ s).getD i 0 = p.getD i 0 :=
    List.getD_append _ _ _ _ (by omega)
  rw [GBIT32, hget 0 (by omega), hget 1 (by omega), hget 2 (by omega), hget 3 (by omega), GBIT32]

theorem mtype_append {p s : List UInt8} (h : 5 ≤ p.length) : mtype (p ++ s) = mtype p := by
  rw [mtype, mtype, BIT32SZ, List.getD_append _ _ _ _ (by omega)]

theorem GBIT32_lt (p : List UInt8) : GBIT32 p < 2147483648 := by
  unfold GBIT32 long
  split_ifs <;> omega

theorem firstLen_append (h : bs ≠ []) (cs : List Block) : firstLen (bs ++ cs) = firstLen bs := by
  cases bs with
  | nil => exact absurd rfl h
  | cons b bs => rfl

/-- The decoder looks at the first block only, and sees the stream. -/
theorem decode_first {S : List UInt8} {n : ℕ} {rest : List UInt8} (hS : S = nb.data ++ rest) :
    (nb.BLEN < C.extent nb.data n ↔ nb.BLEN < C.extent S n) ∧
      (C.extent nb.data n ≤ nb.BLEN → C.decode nb.data n = C.decode S n) := by
  have htake {e : ℕ} (he : e ≤ nb.BLEN) : nb.data.take e = S.take e := by
    rw [hS, List.take_append_of_le_length he]
  refine ⟨?_, fun hle => (C.agree _ _ _ (htake hle)).1.symm⟩
  rw [← not_le, ← not_le, not_iff_not]
  constructor
  · intro hle
    exact ((C.agree _ _ _ (htake hle)).2).le.trans hle
  · intro hle
    exact ((C.agree _ _ _ (htake hle).symm).2).le.trans hle

theorem Kept.qdiscard (h : Kept q) (len : ℕ) : Kept (qdiscard q len).2.1 := by
  obtain ⟨n, hcount⟩ := counted_qdiscardLoop len q.bfirst 0 q h.counted rfl
  exact ⟨hcount.counted rfl rfl rfl, h.nodup.sublist (addrs_qdiscardLoop len q.bfirst 0 q rfl)⟩

/-- How a call ends: with a message or a failure when the condition is met, else with a
fault. -/
structure Ends (C : ConvM2S Fcall) (msize : ℤ) (chan : List Block) (q : Queue)
    (r : Rpcread Fcall × Queue × List Block) : Prop where
  fault : ¬ Sized C msize chan q → r.1 = .fault
  framed : Sized C msize chan q → Framed C chan q r
  kept : r.1 ≠ .fault → Kept r.2.1
  unread : ∃ rd, chan = rd ++ r.2.2

theorem Ends.of_fail {chan' : List Block} (hs : Sized C msize chan q) (hk : Kept q')
    (hrd : ∃ rd, chan = rd ++ chan') : Ends C msize chan q (.fail, q', chan') where
  fault hn := absurd hs hn
  framed _ := trivial
  kept _ := hk
  unread := hrd

/-- The rest of a call, with the whole message in the queue and its header in the first block: the
message is taken, or the call fails. -/
theorem mntrpcDecode_spec (h : Kept q) (hm : m.addr ∉ q.addrs) (hq : q.bfirst = nb :: bs)
    {S rest : List UInt8} (hS : S = bytes q.bfirst ++ rest) {n : ℕ} (hn : n < 4294967296)
    (hle : n ≤ blocklen q.bfirst) (hhdr : hdrlen (mtype S) n ≤ nb.BLEN)
    (htype : mtype nb.data = mtype S) :
    let r := mntrpcDecode C m n (hdrlen (mtype S) n) q nb
    Kept r.2 ∧ (r.1 = .fail ∨ ∃ reply b, r.1 = .done reply b ∧
      C.decode (S.take n) n = some reply ∧
      bytes b = (S.take n).drop (hdrlen (mtype S) n).toNat ∧
      bytes r.2.bfirst ++ rest = S.drop n) := by
  intro r
  have hfirst : S = nb.data ++ (bytes bs ++ rest) := by
    rw [hS, hq, bytes_cons, List.append_assoc]
  have hin : C.extent nb.data n ≤ nb.BLEN := by
    rw [← htype] at hhdr
    by_cases ht : mtype nb.data = Rread
    · rw [hdrlen, if_pos ht] at hhdr
      exact (C.extent_Rread nb.data n ht).trans (by omega)
    · rw [hdrlen, if_neg ht] at hhdr
      exact (C.extent_le nb.data n).trans (by omega)
  have hsame : C.decode nb.data n = C.decode (S.take n) n := by
    rw [(decode_first hfirst).2 hin]
    refine ((C.agree S (S.take n) n ?_).1).symm
    rw [List.take_take, min_eq_left (C.extent_le S n)]
  have hr : r = mntrpcDecode C m n (hdrlen (mtype S) n) q nb := rfl
  rw [mntrpcDecode, ulong_natCast_of_lt hn, if_neg (by omega)] at hr
  rcases hdec : C.decode nb.data n with _ | reply
  · rw [hdec] at hr
    rw [hr]
    exact ⟨h.qdiscard _, .inl rfl⟩
  -- the decoder accepts no message that is shorter than its header
  have hpos : 0 < hdrlen (mtype S) n ∧ hdrlen (mtype S) n ≤ n := by
    have hshort : 7 ≤ n := by
      by_contra hlt
      rw [C.decode_short nb.data n (by simp only [BIT32SZ, BIT8SZ, BIT16SZ]; omega)] at hdec
      exact absurd hdec (by simp)
    by_cases ht : mtype S = Rread
    · have hread : RreadHdr ≤ n := by
        by_contra hlt
        rw [C.decode_Rread nb.data n (htype.trans ht) (by omega)] at hdec
        exact absurd hdec (by simp)
      rw [hdrlen, if_pos ht]
      exact ⟨by decide, by omega⟩
    · rw [hdrlen, if_neg ht]
      omega
  obtain ⟨c, q', heq, htake, hdrop, hkept⟩ :=
    hang_spec h hm hq hpos.1 hhdr hpos.2 (by omega : (n : ℤ) ≤ blocklen q.bfirst)
  rw [hdec] at hr
  dsimp only at hr
  rw [heq] at hr
  rw [hr]
  have hlen : n ≤ (bytes q.bfirst).length := by rwa [length_bytes]
  refine ⟨hkept, .inr ⟨reply, c, rfl, hsame.symm.trans hdec, ?_, ?_⟩⟩
  · rw [htake, hS, List.take_append_of_le_length (by simpa using hlen), Int.toNat_natCast]
  · rw [hdrop, hS, List.drop_append_of_le_length (by simpa using hlen), Int.toNat_natCast]

/-- A message with a negative size must be rejected, and without a look beyond the first block. -/
theorem mntrpcDecode_neg (h : Kept q) (hq : q.bfirst = nb :: bs) {S rest : List UInt8}
    (hS : S = bytes q.bfirst ++ rest) {len : ℤ} (hneg : len < 0) (t : ℕ) :
    let r := mntrpcDecode C m len (hdrlen t len) q nb
    Kept r.2 ∧
      if C.decode S (ulong len) = none ∧ C.extent S (ulong len) ≤ nb.BLEN then r.1 = .fail
      else r.1 = .fault := by
  have hfirst : S = nb.data ++ (bytes bs ++ rest) := by
    rw [hS, hq, bytes_cons, List.append_assoc]
  obtain ⟨hext, hsame⟩ := decode_first (C := C) (n := ulong len) hfirst
  unfold mntrpcDecode
  split_ifs with hout hok hok
  · exact absurd hok.2 (by have := hext.mp hout; omega)
  · exact ⟨h, rfl⟩
  · rw [hsame (by omega), hok.1]
    exact ⟨h.qdiscard _, rfl⟩
  · rw [hsame (by omega)]
    rcases hdec : C.decode S (ulong len) with _ | reply
    · exact absurd ⟨hdec, by have := mt hext.mpr; omega⟩ hok
    · simp only [hang_eq_none hneg]
      exact ⟨h, trivial⟩

/-- The stream and the condition are the same after blocks are collected. -/
theorem Ends.of_collected {chan' : List Block} {r : Rpcread Fcall × Queue × List Block}
    (hrd : ∃ rd, chan = rd ++ chan')
    (hS : bytes q'.bfirst ++ bytes chan' = bytes q.bfirst ++ bytes chan)
    (hheld : held (max 7 (GBIT32 (bytes q.bfirst ++ bytes chan))) chan (blocklen q.bfirst) =
      held (max 7 (GBIT32 (bytes q.bfirst ++ bytes chan))) chan' (blocklen q'.bfirst))
    (hfirst : max (firstLen (q'.bfirst ++ chan')) 7 = max (firstLen (q.bfirst ++ chan)) 7)
    (h : Ends C msize chan' q' r) : Ends C msize chan q r := by
  obtain ⟨rd, hrd⟩ := hrd
  have hmax {t : ℕ} : max (firstLen (q'.bfirst ++ chan')) (if t = Rread then RreadHdr else 7) =
      max (firstLen (q.bfirst ++ chan)) (if t = Rread then RreadHdr else 7) := by
    have : RreadHdr = 11 := rfl
    split_ifs <;> omega
  have hsized : Sized C msize chan q ↔ Sized C msize chan' q' := by
    rw [Sized, Sized, hS, hheld, hmax]
  refine ⟨fun hn => h.fault (mt hsized.mpr hn), fun hs => ?_, h.kept, ?_⟩
  · have hf := h.framed (hsized.mp hs)
    rcases r with ⟨_ | _ | ⟨reply, b⟩, q'', chan''⟩
    · exact hf
    · trivial
    · obtain ⟨n, hn, hle, hdec, hb, rd', hrd', hleft⟩ := hf
      rw [hS] at hn hle hdec hb hleft
      exact ⟨n, hn, hle, hdec, hb, rd ++ rd', by rw [hrd, hrd', List.append_assoc], hleft⟩
  · obtain ⟨rd', hrd'⟩ := h.unread
    exact ⟨rd ++ rd', by rw [hrd, hrd', List.append_assoc]⟩

/-- The part of a call that has the whole message in the queue. -/
theorem ends_mntrpcHeader (h : Kept q) {len : ℤ} {t : ℕ}
    (hlen : len = GBIT32 (bytes q.bfirst ++ bytes chan))
    (ht : t = mtype (bytes q.bfirst ++ bytes chan)) (hseven : 7 ≤ firstLen q.bfirst)
    (hall : len ≤ blocklen q.bfirst) (hmax : len ≤ msize) (hfresh : FreshHeader m₁ m₂ len t q) :
    Ends C msize chan q (mntrpcHeader C m₁ m₂ len t chan q) := by
  obtain ⟨b, bs, hq⟩ : ∃ b bs, q.bfirst = b :: bs := by
    rcases hq : q.bfirst with _ | ⟨b, bs⟩
    · rw [hq] at hseven
      exact absurd hseven (by decide)
    · exact ⟨b, bs, rfl⟩
  have hfirst : firstLen (q.bfirst ++ chan) = firstLen q.bfirst :=
    firstLen_append (by rw [hq]; exact List.cons_ne_nil _ _) _
  have hpos : firstLen q.bfirst ≤ blocklen q.bfirst := by
    rw [hq, blocklen_cons]
    exact Nat.le_add_right _ _
  have hsized : Sized C msize chan q ↔
      (t = Rread → RreadHdr ≤ len ∨ RreadHdr ≤ blocklen q.bfirst) ∧
      (len < 0 → C.decode (bytes q.bfirst ++ bytes chan) (ulong len) = none ∧
        C.extent (bytes q.bfirst ++ bytes chan) (ulong len) ≤
          max (firstLen q.bfirst) (if t = Rread then RreadHdr else 7)) := by
    have hlength : blocklen q.bfirst ≤ (bytes q.bfirst ++ bytes chan).length := by
      rw [List.length_append, length_bytes]
      exact Nat.le_add_right _ _
    rw [Sized, ← hlen, ← ht, hfirst, held_of_le (max_le (by omega) hall)]
    exact ⟨fun hs => hs (by omega) hmax (by omega), fun hs _ _ _ => hs⟩
  unfold mntrpcHeader
  by_cases hhdr : hdrlen t len ≤ blocklen q.bfirst
  · obtain ⟨q', nb, bs', hpull, hq', hnb, hbytes, hk⟩ :=
      pullup_spec h hfresh.header (by omega) hhdr
    have hfront : bytes q.bfirst ++ bytes chan = nb.data ++ (bytes bs' ++ bytes chan) := by
      rw [← hbytes, hq', bytes_cons, List.append_assoc]
    have hread : t = Rread → RreadHdr ≤ len ∨ RreadHdr ≤ blocklen q.bfirst := by
      intro hR
      rw [hdrlen, if_pos hR] at hhdr
      exact .inr (by omega)
    rw [hpull]
    dsimp only
    rcases lt_or_ge len 0 with hneg | hpos
    · obtain ⟨hk', hr⟩ := mntrpcDecode_neg (C := C) (m := m₂) hk hq'
        (by rw [hbytes] : bytes q.bfirst ++ bytes chan = bytes q'.bfirst ++ bytes chan) hneg t
      have hfirst' : nb.BLEN = max (firstLen q.bfirst) (if t = Rread then RreadHdr else 7) := by
        rw [hnb, hdrlen]
        have : RreadHdr = 11 := rfl
        split_ifs <;> omega
      rw [← hfirst'] at hsized
      split_ifs at hr with hok
      · refine ⟨fun hn => absurd (hsized.mpr ⟨hread, fun _ => hok⟩) hn, fun _ => ?_, fun _ => hk',
          [], rfl⟩
        unfold Framed
        rw [hr]
        trivial
      · exact ⟨fun _ => hr, fun hs => absurd ((hsized.mp hs).2 hneg) hok,
          fun hne => absurd hr hne, [], rfl⟩
    · obtain ⟨n, rfl⟩ := Int.eq_ofNat_of_zero_le hpos
      have hlt := GBIT32_lt (bytes q.bfirst ++ bytes chan)
      have htype : mtype nb.data = mtype (bytes q.bfirst ++ bytes chan) := by
        rw [hfront, mtype_append]
        change 5 ≤ nb.BLEN
        omega
      have hin : hdrlen (mtype (bytes q.bfirst ++ bytes chan)) n ≤ nb.BLEN := by
        rw [← ht]
        omega
      obtain ⟨hk', hr⟩ := mntrpcDecode_spec (C := C) (m := m₂) hk (hfresh.split _ hpull) hq'
        (by rw [hbytes] : bytes q.bfirst ++ bytes chan = bytes q'.bfirst ++ bytes chan)
        (by omega) (by rw [← length_bytes, hbytes, length_bytes]; omega) hin htype
      rw [← ht] at hr hk'
      have hs : Sized C msize chan q := hsized.mpr ⟨hread, fun hneg => absurd hneg (by omega)⟩
      refine ⟨fun hn => absurd hs hn, fun _ => ?_, fun _ => hk', [], rfl⟩
      unfold Framed
      rcases hr with hr | ⟨reply, c, hr, hdec, hc, hleft⟩
      · rw [hr]
        trivial
      · rw [hr]
        have hlength : n ≤ (bytes q.bfirst ++ bytes chan).length := by
          rw [List.length_append, length_bytes]
          omega
        exact ⟨n, hlen.symm, hlength, hdec, ht ▸ hc, [], rfl, hleft⟩
  · have hR : t = Rread := by
      by_contra hR
      rw [hdrlen, if_neg hR] at hhdr
      exact hhdr hall
    rw [hdrlen, if_pos hR] at hhdr ⊢
    rw [pullup_eq_none (by omega)]
    have hn : ¬ Sized C msize chan q := fun hs => by
      rcases (hsized.mp hs).1 hR with hle | hle <;> omega
    exact ⟨fun _ => rfl, fun hs => absurd hs hn, fun hne => absurd rfl hne, [], rfl⟩

/-- The part of a call that has the size in the first block. -/
theorem ends_mntrpcBody (h : Kept q) (hz : ∀ b ∈ chan, b.BLEN ≠ 0) (hq : q.bfirst = nb :: bs)
    (hseven : 7 ≤ nb.BLEN) (hfresh : FreshBody m₁ m₂ chan q nb) :
    Ends C msize chan q (mntrpcBody C msize m₁ m₂ chan q nb) := by
  have hfront : bytes q.bfirst ++ bytes chan = nb.data ++ (bytes bs ++ bytes chan) := by
    rw [hq, bytes_cons, List.append_assoc]
  have hsize : GBIT32 nb.data = GBIT32 (bytes q.bfirst ++ bytes chan) := by
    rw [hfront, GBIT32_append]
    change 4 ≤ nb.BLEN
    omega
  have htype : mtype nb.data = mtype (bytes q.bfirst ++ bytes chan) := by
    rw [hfront, mtype_append]
    change 5 ≤ nb.BLEN
    omega
  unfold mntrpcBody
  dsimp only
  split_ifs with hmax
  · exact .of_fail (fun _ hle => absurd hle (by omega)) (h.qdiscard _) ⟨[], rfl⟩
  have hc := collects_doread _ chan q h hz hfresh.apart
  have hrest := hfresh.rest
  rcases hr : doread (GBIT32 nb.data) chan q with ⟨ok, q', chan'⟩
  rw [hr] at hc hrest
  rcases ok with _ | _
  · refine .of_fail (fun _ _ hle => absurd hle ?_) hc.kept (hc.read.imp fun _ hrd => hrd.1)
    have := hc.short rfl
    rw [List.length_append, length_bytes, length_bytes, ← hsize]
    omega
  obtain ⟨hall, hheld⟩ := hc.enough rfl
  obtain ⟨rd, hrd, hto⟩ := hc.read
  have hS := hc.bytes_eq
  dsimp only at hall hheld hrd hto hS hrest ⊢
  have hfirst : firstLen q'.bfirst = nb.BLEN := by
    rw [hto, hq]
    rfl
  have hne {ds : List Block} : firstLen (q'.bfirst ++ ds) = nb.BLEN := by
    rw [firstLen_append, hfirst]
    rw [hto, hq]
    exact List.cons_ne_nil _ _
  refine .of_collected ⟨rd, hrd⟩ hS ?_ ?_ (ends_mntrpcHeader hc.kept ?_ ?_ ?_ hall (by omega) hrest)
  · exact hheld _ (hsize ▸ le_max_right _ _)
  · rw [hne, hq, List.cons_append]
    rfl
  · rw [hS, hsize]
  · rw [hS, htype]
  · rw [hfirst]
    exact hseven

/-- Every call ends with a message or a failure when the condition is met, else with a fault. -/
theorem ends_mntrpcread (C : ConvM2S Fcall) (msize : ℤ) (h : Kept q)
    (hz : ∀ b ∈ chan, b.BLEN ≠ 0) (hfresh : Fresh m₀ m₁ m₂ chan q) :
    Ends C msize chan q (mntrpcread C msize m₀ m₁ m₂ chan q) := by
  have hc := collects_doread _ chan q h hz hfresh.apart
  have hm₀ := hfresh.first
  have hrest := hfresh.rest
  unfold mntrpcread
  rcases hr : doread (BIT32SZ + BIT8SZ + BIT16SZ : ℕ) chan q with ⟨ok, q₁, chan₁⟩
  rw [hr] at hc hm₀ hrest
  rcases ok with _ | _
  · refine .of_fail (fun hseven => ?_) hc.kept (hc.read.imp fun _ hrd => hrd.1)
    have := hc.short rfl
    rw [List.length_append, length_bytes, length_bytes] at hseven
    simp only [BIT32SZ, BIT8SZ, BIT16SZ] at this
    omega
  obtain ⟨hall, hheld⟩ := hc.enough rfl
  obtain ⟨rd, hrd, hto⟩ := hc.read
  have hS := hc.bytes_eq
  dsimp only at hall hheld hrd hto hS hm₀ hrest ⊢
  have hseven : 7 ≤ blocklen q₁.bfirst := by
    simp only [BIT32SZ, BIT8SZ, BIT16SZ] at hall
    omega
  have hpos : 0 < blocklen q₁.bfirst := by omega
  obtain ⟨q₂, nb, bs, hpull, hq₂, hnb, hbytes, hk₂⟩ := pullup_spec hc.kept hm₀ hpos hall
  have hnb' : nb.BLEN = max (firstLen q₁.bfirst) 7 := hnb
  have hlen : blocklen q₂.bfirst = blocklen q₁.bfirst := by
    rw [← length_bytes, hbytes, length_bytes]
  have hfirst : firstLen q₁.bfirst = firstLen (q.bfirst ++ chan) := by
    rw [hrd, ← List.append_assoc, ← hto, firstLen_append]
    intro hnil
    rw [hnil] at hseven
    exact absurd hseven (by decide)
  rw [hpull]
  refine .of_collected ⟨rd, hrd⟩ (by rw [hbytes]; exact hS) ?_ ?_
    (ends_mntrpcBody hk₂ (fun b hb => hz b (hrd ▸ List.mem_append_right _ hb)) hq₂ (by omega)
      (hrest _ hpull))
  · rw [hlen]
    exact hheld _ (le_max_left _ _)
  · rw [hq₂, List.cons_append, ← hfirst]
    change max nb.BLEN 7 = _
    omega

/-- A call takes one message off the stream, or fails, if and only if the condition is met. -/
theorem framed_mntrpcread_iff (h : Kept q) (hz : ∀ b ∈ chan, b.BLEN ≠ 0)
    (hfresh : Fresh m₀ m₁ m₂ chan q) :
    Framed C chan q (mntrpcread C msize m₀ m₁ m₂ chan q) ↔ Sized C msize chan q := by
  have hends := ends_mntrpcread C msize h hz hfresh
  refine ⟨fun hf => ?_, hends.framed⟩
  by_contra hn
  unfold Framed at hf
  rw [hends.fault hn] at hf
  exact hf

/-! ### Runs -/

/-- The input queue of a mount, and the blocks that have come for it and are not read yet. -/
structure Mount where
  q : Queue
  chan : List Block := []

/-- A call of `mntrpcread`: the blocks that have come since the last one, and what the allocator
gives out. -/
structure Call where
  arrived : List Block
  m₀ : Mem
  m₁ : Mem
  m₂ : Mem

/-- What a call of `mntrpcread` returns. -/
def Mount.call (s : Mount) (C : ConvM2S Fcall) (msize : ℤ) (e : Call) :
    Rpcread Fcall × Queue × List Block :=
  mntrpcread C msize e.m₀ e.m₁ e.m₂ (s.chan ++ e.arrived) s.q

/-- No block that comes is empty, and none is given out that is in the queue. -/
structure Mount.Takes (s : Mount) (e : Call) : Prop where
  nonempty : ∀ b ∈ e.arrived, b.BLEN ≠ 0
  fresh : Fresh e.m₀ e.m₁ e.m₂ (s.chan ++ e.arrived) s.q

/-- A call that ends. -/
structure Step (C : ConvM2S Fcall) (msize : ℤ) (s : Mount) (e : Call) (s' : Mount) : Prop where
  takes : s.Takes e
  returns : (s.call C msize e).1 ≠ .fault
  eq : s' = { q := (s.call C msize e).2.1, chan := (s.call C msize e).2.2 }

/-- What holds between the calls. -/
structure Mount.Inv (s : Mount) : Prop where
  kept : Kept s.q
  nonempty : ∀ b ∈ s.chan, b.BLEN ≠ 0

variable {s s' : Mount} {e : Call}

theorem Mount.Takes.arrived (h : s.Inv) (ht : s.Takes e) : ∀ b ∈ s.chan ++ e.arrived, b.BLEN ≠ 0 :=
  fun b hb => (List.mem_append.mp hb).elim (h.nonempty b) (ht.nonempty b)

theorem inv_step (h : s.Inv) (hstep : Step C msize s e s') : s'.Inv := by
  have hz := hstep.takes.arrived h
  have hends := ends_mntrpcread C msize h.kept hz hstep.takes.fresh
  obtain ⟨rd, hrd⟩ := hends.unread
  rw [hstep.eq]
  refine ⟨hends.kept hstep.returns, fun b hb => hz b ?_⟩
  rw [hrd]
  exact List.mem_append_right _ hb

/-- In every run from an open queue, whatever blocks the stream comes in, a call takes one message
off the stream, or fails, if and only if the message at the front meets the condition. -/
theorem framed_of_run (C : ConvM2S Fcall) (msize : ℤ) {q : Queue} (h₀ : Opened q)
    (h : Run (Step C msize) (fun _ _ => True) { q := q } s) (ht : s.Takes e) :
    Framed C (s.chan ++ e.arrived) s.q (s.call C msize e) ↔
      Sized C msize (s.chan ++ e.arrived) s.q := by
  have hinv : s.Inv := by
    refine h.invariant ⟨⟨?_, ?_⟩, fun b hb => absurd hb List.not_mem_nil⟩
      fun _ _ _ hi _ hst => inv_step hi hst
    · exact (accounted_empty h₀.bfirst h₀.len h₀.dlen).counted rfl rfl rfl
    · rw [Queue.addrs, h₀.bfirst]
      exact List.nodup_nil
  exact framed_mntrpcread_iff hinv.kept (ht.arrived hinv) ht.fresh

/-! ### Examples -/

/-- The bytes that a decoder of `Rread` and `Rclunk` looks at. -/
def replyExtent (ap : List UInt8) (nap : ℕ) : ℕ := min nap (if mtype ap = Rread then 11 else 7)

/-- The type and tag of the reply with the header `p`. -/
def replyOf (p : List UInt8) (nap : ℕ) : Option (ℕ × ℕ) :=
  let tag := (p.getD 5 0).toNat ||| (p.getD 6 0).toNat <<< 8
  let size := ulong (GBIT32 p)
  let count := ulong (GBIT32 (p.drop 7))
  if nap < 7 then none
  else if mtype p = Rread then
    if 11 + count ≤ nap ∧ size = 11 + count then some (Rread, tag) else none
  else if mtype p = 121 ∧ size = 7 then some (121, tag)
  else none

theorem mtype_take {p : List UInt8} {e : ℕ} (h : BIT32SZ < e) : mtype (p.take e) = mtype p := by
  rw [mtype, mtype, List.getD_eq_getElem?_getD, List.getD_eq_getElem?_getD,
    List.getElem?_take_of_lt h]

theorem lt_replyExtent {ap : List UInt8} {nap : ℕ} (h : 7 ≤ nap) :
    BIT32SZ < replyExtent ap nap := by
  unfold replyExtent BIT32SZ
  split_ifs <;> omega

theorem replyExtent_agree (ap ap' : List UInt8) (nap : ℕ)
    (h : ap.take (replyExtent ap nap) = ap'.take (replyExtent ap nap)) :
    replyExtent ap' nap = replyExtent ap nap := by
  by_cases hshort : nap < 7
  · unfold replyExtent
    split_ifs <;> omega
  have hle : BIT32SZ < replyExtent ap nap := lt_replyExtent (by omega)
  have htype : mtype ap' = mtype ap := by rw [← mtype_take hle, ← h, mtype_take hle]
  rw [replyExtent, replyExtent, htype]

/-- A decoder of `Rread` and `Rclunk`. -/
def convReply : ConvM2S (ℕ × ℕ) where
  decode ap nap := replyOf (ap.take (replyExtent ap nap)) nap
  extent := replyExtent
  extent_le _ _ := min_le_left _ _
  extent_Rread ap nap h := by
    rw [replyExtent, if_pos h]
    exact min_le_right _ _
  agree ap ap' nap h := by
    have heq := replyExtent_agree ap ap' nap h
    exact ⟨by rw [heq, h], heq⟩
  decode_short _ _ h := if_pos h
  decode_Rread ap nap h hlt := by
    have hRread : RreadHdr = 11 := rfl
    by_cases hshort : nap < 7
    · exact if_pos hshort
    have hle : BIT32SZ < replyExtent ap nap := lt_replyExtent (by omega)
    have htype := (mtype_take hle).trans h
    rw [replyOf, if_neg hshort, if_pos htype, if_neg (by omega)]

/-- The queue of a mount. -/
def mntq : Queue := { limit := 10 * (24 + 8192) }

theorem opened_mntq : Opened mntq := ⟨rfl, rfl, rfl, rfl, rfl, rfl⟩

/-- A call that finds an `Rread` of two bytes and the `Rclunk` after it, in three blocks. -/
def twoReplies : Call where
  arrived := [{ addr := 1, data := [13, 0, 0] }, { addr := 2, data := [0, 117, 1, 0, 2, 0, 0] },
    { addr := 3, data := [0, 5, 6, 7, 0, 0, 0, 121, 2, 0] }]
  m₀ := { addr := 11 }
  m₁ := { addr := 12 }
  m₂ := { addr := 13 }

/-- The call after it. -/
def nextReply : Call where
  arrived := []
  m₀ := { addr := 21 }
  m₁ := { addr := 22 }
  m₂ := { addr := 23 }

/-- The mount between the two calls. -/
def afterFirst : Mount where
  q := (Mount.call { q := mntq } convReply 8192 twoReplies).2.1

theorem run_afterFirst :
    Run (Step convReply 8192) (fun _ _ => True) { q := mntq } afterFirst := by
  refine Run.nil.snoc (e := twoReplies) trivial ⟨⟨by decide, by decide⟩, fun h => ?_, rfl⟩
  cases h

theorem framed_of_run_nextReply :
    Framed convReply (afterFirst.chan ++ nextReply.arrived) afterFirst.q
      (afterFirst.call convReply 8192 nextReply) := by
  refine (framed_of_run convReply 8192 opened_mntq run_afterFirst ⟨by decide, by decide⟩).mpr ?_
  unfold Sized
  decide

/-- A call that finds an `Rread` with the size of its size, type, and tag, and nothing behind. -/
def shortRread : Call where
  arrived := [{ addr := 1, data := [7, 0, 0, 0, 117, 1, 0] }]
  m₀ := { addr := 11 }
  m₁ := { addr := 12 }
  m₂ := { addr := 13 }

/-- The queue is freed when the header of a short `Rread` is pulled up, and then its first block
is looked at. -/
theorem fault_of_short_Rread :
    Opened mntq ∧ Mount.Takes { q := mntq } shortRread ∧
      (Mount.call { q := mntq } convReply 8192 shortRread).1 = .fault ∧
      ¬ Framed convReply shortRread.arrived mntq
        (Mount.call { q := mntq } convReply 8192 shortRread) :=
  ⟨opened_mntq, ⟨by decide, by decide⟩, rfl, fun h => h⟩

end PlanNine.Mnt
