import PlanNine.Port.Qio.System
import Mathlib.Data.List.Nodup

/-!
# The counters of a queue

The two counters of a queue and its pointer to the last block are kept by hand in every operation.
All of them keep them right but `pullupqueue`, which does not count the blocks that it adds and
frees.

## Main definitions

* `Queue.Accounted`: the counters and `blast` agree with the string of blocks.
* `PullsEven`: `pullupqueue` finds its bytes, and frees as much room as it adds.

## Main results

* `accounted_pullupqueue_iff`: what `pullupqueue` does to the counters.
* `accounted_of_run`: the counters are right in every run whose calls of `pullupqueue` are even.
-/

namespace PlanNine.Qio

open Queue

/-! ### The last block -/

@[simp] theorem lastAddr_nil (b : Block) : lastAddr b [] = b.addr := rfl

@[simp] theorem lastAddr_cons (b c : Block) (bs : List Block) :
    lastAddr b (c :: bs) = lastAddr c bs := by
  simp [lastAddr]

theorem lastAddr_append (b c : Block) (bs cs : List Block) :
    lastAddr b (bs ++ c :: cs) = lastAddr c cs := by
  induction bs generalizing b with
  | nil => exact lastAddr_cons b c cs
  | cons d bs ih => rw [List.cons_append, lastAddr_cons, ih]

theorem lastAddr_mem (b : Block) (bs : List Block) : lastAddr b bs ∈ (b :: bs).map Block.addr :=
  List.mem_map_of_mem (List.getLast_mem _)

/-- A string is appended behind its last block. -/
theorem setNext_lastAddr (cs : List Block) : ∀ (b : Block) (bs : List Block),
    ((b :: bs).map Block.addr).Nodup → setNext (lastAddr b bs) cs (b :: bs) = b :: bs ++ cs := by
  intro b bs
  induction bs generalizing b with
  | nil => intro _; simp [setNext]
  | cons c bs ih =>
    intro hnd
    rw [List.map_cons, List.nodup_cons] at hnd
    have hne : b.addr ≠ lastAddr c bs := fun heq => hnd.1 (heq ▸ lastAddr_mem c bs)
    rw [lastAddr_cons, setNext, if_neg hne, ih c hnd.2]
    rfl

/-! ### Counters that agree -/

/-- The counters and the last pointer of a queue agree with its blocks. -/
structure Queue.Accounted (q : Queue) : Prop where
  dlen : q.dlen = blocklen q.bfirst
  len : q.len = blockalloclen q.bfirst
  blast : ∀ b bs, q.bfirst = b :: bs → q.blast = lastAddr b bs

/-- The addresses of the blocks in a queue. -/
def Queue.addrs (q : Queue) : List ℕ := q.bfirst.map Block.addr

variable {q q' : Queue} {b : Block} {bs cs : List Block}

theorem Queue.Accounted.congr (h : q.Accounted) (hfirst : q'.bfirst = q.bfirst)
    (hlast : q'.blast = q.blast) (hlen : q'.len = q.len) (hdlen : q'.dlen = q.dlen) :
    q'.Accounted where
  dlen := by rw [hdlen, hfirst, h.dlen]
  len := by rw [hlen, hfirst, h.len]
  blast b bs hb := by rw [hlast, h.blast b bs (hfirst ▸ hb)]

theorem accounted_restart {c : Bool} (h : q.Accounted) : (q.restart c).1.Accounted :=
  h.congr rfl rfl rfl rfl

theorem accounted_empty (hf : q.bfirst = []) (hl : q.len = 0) (hd : q.dlen = 0) : q.Accounted where
  dlen := by rw [hf, hd]; rfl
  len := by rw [hf, hl]; rfl
  blast b bs hb := by rw [hf] at hb; exact absurd hb (List.cons_ne_nil b bs).symm

theorem Queue.Accounted.pop (h : q.Accounted) (hq : q.bfirst = b :: bs) :
    (q.pop b bs).Accounted where
  dlen := by
    have := h.dlen
    rw [hq, blocklen_cons] at this
    simp only [Queue.pop]
    omega
  len := by
    have := h.len
    rw [hq, blockalloclen_cons] at this
    simp only [Queue.pop]
    omega
  blast c cs hc := by
    obtain rfl : bs = c :: cs := hc
    exact (h.blast b (c :: cs) hq).trans (lastAddr_cons b c cs)

theorem Queue.Accounted.skip (h : q.Accounted) (hq : q.bfirst = b :: bs) {n : ℕ}
    (hn : n ≤ b.BLEN) :
    Queue.Accounted { q with bfirst := b.skip n :: bs, dlen := q.dlen - n } where
  dlen := by
    have := h.dlen
    rw [hq, blocklen_cons] at this
    simp only [blocklen_cons, Block.BLEN_skip]
    omega
  len := by
    have := h.len
    rw [hq, blockalloclen_cons] at this
    simp only [blockalloclen_cons, Block.BALLOC_skip]
    exact this
  blast c cs hc := by
    have hlast := h.blast b bs hq
    obtain ⟨rfl, rfl⟩ := List.cons.inj hc
    cases bs with
    | nil => exact hlast
    | cons d bs => simpa only [lastAddr_cons] using hlast

theorem link_bfirst (h : q.Accounted) (hnd : q.addrs.Nodup) :
    (q.link cs).bfirst = q.bfirst ++ cs := by
  unfold Queue.link
  split
  · rename_i hq
    rw [hq, List.nil_append]
  · rename_i b bs hq
    rw [h.blast b bs hq, hq]
    refine setNext_lastAddr cs b bs ?_
    rwa [Queue.addrs, hq] at hnd

theorem append_bfirst (h : q.Accounted) (hnd : q.addrs.Nodup) :
    (q.append b bs).bfirst = q.bfirst ++ b :: bs := link_bfirst h hnd

theorem Queue.Accounted.append (h : q.Accounted) (hnd : q.addrs.Nodup) :
    (q.append b bs).Accounted where
  dlen := by
    rw [append_bfirst h hnd, blocklen_append]
    simp only [Queue.append, h.dlen]
    push_cast
    rfl
  len := by
    rw [append_bfirst h hnd, blockalloclen_append]
    simp only [Queue.append, h.len]
    push_cast
    rfl
  blast c cs hc := by
    rw [append_bfirst h hnd] at hc
    cases hq : q.bfirst with
    | nil =>
      rw [hq, List.nil_append] at hc
      obtain ⟨rfl, rfl⟩ := List.cons.inj hc
      rfl
    | cons d ds =>
      rw [hq, List.cons_append] at hc
      obtain ⟨rfl, rfl⟩ := List.cons.inj hc
      exact (lastAddr_append d b ds bs).symm

theorem Queue.Accounted.putback (h : q.Accounted) (b : Block) : (qputback q b).Accounted where
  dlen := by simp only [qputback, h.dlen, blocklen_cons]; push_cast; omega
  len := by simp only [qputback, h.len, blockalloclen_cons]; push_cast; omega
  blast c cs hc := by
    obtain ⟨rfl, rfl⟩ := List.cons.inj hc
    cases hq : q.bfirst with
    | nil => simp [qputback, hq]
    | cons d ds =>
      simp only [qputback, hq, reduceCtorEq, if_false, lastAddr_cons]
      exact h.blast d ds hq

/-! ### Operations that count right -/

theorem accounted_qremove (h : q.Accounted) :
    (qremove q).2.Accounted ∧ (qremove q).2.addrs.Sublist q.addrs := by
  unfold qremove
  split
  · exact ⟨h, .refl _⟩
  · rename_i b bs hq
    refine ⟨h.pop hq, ?_⟩
    simp only [Queue.addrs, Queue.pop, hq, List.map_cons]
    exact List.sublist_cons_self _ _

theorem accounted_qget (h : q.Accounted) :
    (qget q).2.1.Accounted ∧ (qget q).2.1.addrs.Sublist q.addrs := by
  unfold qget
  split
  · exact ⟨h.congr rfl rfl rfl rfl, .refl _⟩
  · rename_i b bs hq
    refine ⟨accounted_restart (h.pop hq), ?_⟩
    simp only [Queue.addrs, Queue.restart, Queue.pop, hq, List.map_cons]
    exact List.sublist_cons_self _ _

theorem addrs_qdiscardLoop (len : ℕ) : ∀ (bs : List Block) (sofar : ℕ) (q : Queue),
    q.bfirst = bs → (qdiscardLoop len bs sofar q).2.addrs.Sublist q.addrs := by
  intro bs
  induction bs with
  | nil => intro sofar q _; exact .refl _
  | cons b bs ih =>
    intro sofar q hq
    have haddrs : q.addrs = b.addr :: bs.map Block.addr := by rw [Queue.addrs, hq, List.map_cons]
    rw [qdiscardLoop]
    split_ifs
    · rw [haddrs]
      exact (ih (sofar + b.BLEN) (q.pop b bs) rfl).trans (List.sublist_cons_self _ _)
    · rw [haddrs]
      exact .refl _
    · exact .refl _

theorem accounted_qdiscardLoop (len : ℕ) : ∀ (bs : List Block) (sofar : ℕ) (q : Queue),
    q.Accounted → q.bfirst = bs → (qdiscardLoop len bs sofar q).2.Accounted := by
  intro bs
  induction bs with
  | nil => intro sofar q h _; exact h
  | cons b bs ih =>
    intro sofar q h hq
    rw [qdiscardLoop]
    split_ifs with hlt hle
    · exact ih (sofar + b.BLEN) (q.pop b bs) (h.pop hq) rfl
    · exact h.skip hq (by omega)
    · exact h

theorem accounted_qdiscard (h : q.Accounted) (len : ℕ) :
    (qdiscard q len).2.1.Accounted ∧ (qdiscard q len).2.1.addrs.Sublist q.addrs :=
  ⟨accounted_restart (accounted_qdiscardLoop len q.bfirst 0 q h rfl),
    addrs_qdiscardLoop len q.bfirst 0 q rfl⟩

theorem accounted_qconsumeFrom (h : q.Accounted) (hq : q.bfirst = b :: bs) (len : ℕ) :
    (qconsumeFrom q b bs len).2.1.Accounted ∧
      (qconsumeFrom q b bs len).2.1.addrs.Sublist q.addrs := by
  have hle : (if b.BLEN < len then b.BLEN else len) ≤ b.BLEN := by split <;> omega
  unfold qconsumeFrom
  dsimp only
  generalize (if b.BLEN < len then b.BLEN else len) = n at hle ⊢
  have hskip := h.skip hq hle
  have haddrs : q.addrs = b.addr :: bs.map Block.addr := by rw [Queue.addrs, hq, List.map_cons]
  rw [haddrs]
  split_ifs
  · exact ⟨accounted_restart (hskip.pop rfl), List.sublist_cons_self _ _⟩
  · exact ⟨accounted_restart hskip, .refl _⟩

theorem accounted_qconsumeLoop (len : ℕ) : ∀ (bs : List Block) (q : Queue),
    q.Accounted → q.bfirst = bs → (qconsumeLoop len bs q).2.1.Accounted ∧
      (qconsumeLoop len bs q).2.1.addrs.Sublist q.addrs := by
  intro bs
  induction bs with
  | nil => intro q h hq; exact ⟨h.congr rfl rfl rfl rfl, .refl _⟩
  | cons b bs ih =>
    intro q h hq
    rw [qconsumeLoop]
    split_ifs with hpos
    · exact accounted_qconsumeFrom h hq len
    · have hzero : b.BLEN = 0 := by omega
      have hpop : Queue.Accounted { q with bfirst := bs, len := q.len - b.BALLOC } :=
        (h.pop hq).congr rfl rfl rfl (by simp [Queue.pop, hzero])
      obtain ⟨hacc, hsub⟩ := ih _ hpop rfl
      refine ⟨hacc, hsub.trans ?_⟩
      simp only [Queue.addrs, hq, List.map_cons]
      exact List.sublist_cons_self _ _

theorem accounted_qpassnolim (b : Block) (bs : List Block) (h : q.Accounted) (hnd : q.addrs.Nodup) :
    (qpassnolim q b bs).2.1.Accounted ∧
      (qpassnolim q b bs).2.1.addrs.Sublist (q.addrs ++ (b :: bs).map Block.addr) := by
  unfold qpassnolim
  split
  · exact ⟨h, List.sublist_append_left _ _⟩
  · refine ⟨(h.append hnd).congr rfl rfl rfl rfl, ?_⟩
    have hfirst : ((q.append b bs).flowAt (q.limit / 2)).feed.1.bfirst = q.bfirst ++ b :: bs :=
      append_bfirst h hnd
    rw [Queue.addrs, hfirst, List.map_append]
    exact .refl _

theorem accounted_qpass (b : Block) (bs : List Block) (h : q.Accounted) (hnd : q.addrs.Nodup) :
    (qpass q b bs).2.1.Accounted ∧
      (qpass q b bs).2.1.addrs.Sublist (q.addrs ++ (b :: bs).map Block.addr) := by
  unfold qpass
  split
  · exact ⟨h, List.sublist_append_left _ _⟩
  · exact accounted_qpassnolim b bs h hnd

theorem accounted_append_one (h : q.Accounted) (hnd : q.addrs.Nodup) :
    (q.append b []).Accounted ∧ (q.append b []).addrs = q.addrs ++ [b.addr] := by
  refine ⟨h.append hnd, ?_⟩
  rw [Queue.addrs, append_bfirst h hnd, List.map_append]
  rfl

theorem accounted_qbwritePut (h : q.Accounted) (hnd : q.addrs.Nodup) :
    (qbwritePut q b).2.1.Accounted ∧
      (qbwritePut q b).2.1.addrs.Sublist (q.addrs ++ [b.addr]) := by
  obtain ⟨hacc, haddrs⟩ := accounted_append_one (b := b) h hnd
  unfold qbwritePut
  split_ifs
  · exact ⟨h, List.sublist_append_left _ _⟩
  · exact ⟨h, List.sublist_append_left _ _⟩
  · refine ⟨hacc.congr rfl rfl rfl rfl, ?_⟩
    rw [← haddrs]
    exact .refl _

theorem accounted_qproduce (h : q.Accounted) (hnd : q.addrs.Nodup) (m : Mem) (p : List UInt8) :
    (qproduce q (some m) p).2.1.Accounted ∧
      (qproduce q (some m) p).2.1.addrs.Sublist (q.addrs ++ [m.addr]) := by
  obtain ⟨hacc, haddrs⟩ := accounted_append_one (b := (allocb m p.length).put p) h hnd
  unfold qproduce
  split
  · exact ⟨h.congr rfl rfl rfl rfl, List.sublist_append_left _ _⟩
  · refine ⟨hacc.congr rfl rfl rfl rfl, ?_⟩
    simp only [Block.addr_put, addr_allocb] at haddrs
    rw [← haddrs]
    exact .refl _

/-! ### Reading -/

theorem accounted_qwait (h : q.Accounted) :
    (qwait q).2.Accounted ∧ (qwait q).2.bfirst = q.bfirst := by
  unfold qwait
  split
  · exact ⟨h, rfl⟩
  · dsimp only
    split_ifs <;> exact ⟨h.congr rfl rfl rfl rfl, rfl⟩

theorem accounted_qreadWait : ∀ (bs : List Block) (q : Queue), q.Accounted → q.bfirst = bs →
    (qreadWait bs q).2.Accounted ∧ (qreadWait bs q).2.addrs.Sublist q.addrs := by
  intro bs
  induction bs with
  | nil =>
    intro q h _
    obtain ⟨hacc, hfirst⟩ := accounted_qwait h
    exact ⟨hacc, by rw [qreadWait, Queue.addrs, hfirst]; exact .refl _⟩
  | cons b bs ih =>
    intro q h hq
    rw [qreadWait]
    split_ifs
    · obtain ⟨hacc, hsub⟩ := ih (q.pop b bs) (h.pop hq) rfl
      refine ⟨hacc, hsub.trans ?_⟩
      simp only [Queue.addrs, Queue.pop, hq, List.map_cons]
      exact List.sublist_cons_self _ _
    · exact ⟨h, .refl _⟩

theorem accounted_grab (len : ℕ) : ∀ (bs : List Block) (n : ℕ) (q : Queue), q.Accounted →
    q.bfirst = bs → (grab len bs n q).2.Accounted ∧
      (grab len bs n q).1 ++ (grab len bs n q).2.bfirst = q.bfirst := by
  intro bs
  induction bs with
  | nil => intro n q h hq; exact ⟨h, rfl⟩
  | cons b bs ih =>
    intro n q h hq
    rw [grab]
    split_ifs
    · exact ⟨h, rfl⟩
    · obtain ⟨hacc, heq⟩ := ih (n + b.BLEN) (q.pop b bs) (h.pop hq) rfl
      refine ⟨hacc, ?_⟩
      rw [hq, List.cons_append, heq]
      rfl

/-- The blocks taken by `qread` come off the front of the queue. -/
theorem accounted_qreadTake (h : q.Accounted) (hq : q.bfirst = b :: bs) (len : ℕ) :
    (qreadTake q b bs len).2.Accounted ∧
      (qreadTake q b bs len).1 ++ (qreadTake q b bs len).2.bfirst = q.bfirst := by
  unfold qreadTake
  dsimp only
  split_ifs
  · obtain ⟨hacc, heq⟩ := accounted_grab len bs b.BLEN (q.pop b bs) (h.pop hq) rfl
    refine ⟨hacc, ?_⟩
    rw [hq, List.cons_append, heq]
    rfl
  · exact ⟨h.pop hq, hq.symm⟩

theorem accounted_qreadDone (cs : List Block) (h : q.Accounted) :
    (qreadDone q cs).1.Accounted ∧
      (qreadDone q cs).1.addrs.Sublist (cs.map Block.addr ++ q.addrs) := by
  unfold qreadDone
  split
  · exact ⟨accounted_restart h, .refl _⟩
  · rename_i b bs
    refine ⟨accounted_restart ?_, ?_⟩
    · split_ifs
      · exact h
      · exact h.putback b
    · simp only [qwakeup, Queue.restart, Queue.addrs, List.map_cons, List.cons_append]
      split_ifs
      · exact (List.sublist_append_right _ _).cons _
      · exact (List.sublist_append_right _ _).cons_cons _

theorem accounted_qbreadTake (h : q.Accounted) (hq : q.bfirst = b :: bs) (m : Mem) (len : ℕ) :
    (qbreadTake q m b bs len).2.1.Accounted ∧
      (qbreadTake q m b bs len).2.1.addrs.Sublist (m.addr :: q.addrs) := by
  unfold qbreadTake
  dsimp only
  split_ifs
  · refine ⟨accounted_restart (h.pop hq), ?_⟩
    simp only [qwakeup, Queue.restart, Queue.addrs, Queue.pop, hq, List.map_cons]
    exact ((List.Sublist.refl _).cons _).cons _
  · refine ⟨accounted_restart ((h.pop hq).putback _), ?_⟩
    simp only [qwakeup, Queue.restart, Queue.addrs, Queue.pop, qputback, hq, List.map_cons]
    exact ((List.Sublist.refl _).cons _).cons_cons _
  · refine ⟨accounted_restart (h.pop hq), ?_⟩
    simp only [qwakeup, Queue.restart, Queue.addrs, Queue.pop, hq, List.map_cons]
    exact ((List.Sublist.refl _).cons _).cons _

/-! ### Pulling up -/

/-- The trailing blocks that `pullupblock` empties and frees when `n` bytes are missing. -/
def emptied : List Block → ℕ → List Block
  | [], _ => []
  | nbp :: next, n =>
      if n < nbp.BLEN then []
      else if n - nbp.BLEN = 0 then [nbp]
      else nbp :: emptied next (n - nbp.BLEN)

/-- `pullupqueue(q, n)` has its bytes in the first block; or it finds them in the queue and frees
as much room as it adds; or there is no room in the queue at all. -/
def PullsEven (q : Queue) (m : Mem) (n : ℕ) : Prop :=
  match q.bfirst with
  | [] => True
  | b :: bs =>
      n ≤ b.BLEN ∨ blockalloclen (b :: bs) = 0 ∨
        n ≤ blocklen (b :: bs) ∧
          if b.BLEN + b.room < n then (allocb m n).BALLOC = blockalloclen (emptied (b :: bs) n)
          else blockalloclen (emptied bs (n - b.BLEN)) = 0

theorem blocklen_le_blockalloclen (bs : List Block) : blocklen bs ≤ blockalloclen bs := by
  induction bs with
  | nil => exact le_refl _
  | cons b bs ih =>
    rw [blocklen_cons, blockalloclen_cons]
    have : b.BLEN ≤ b.BALLOC := by simp only [Block.BLEN, Block.BALLOC]; omega
    omega

/-- The room of the string that is pulled up and of the blocks freed is what there was. -/
theorem pullupLoop_alloc (bp : Block) : ∀ (next : List Block) (n : ℕ), n ≤ bp.room →
    n ≤ blocklen next → 0 < n →
    blockalloclen (pullupLoop bp next n) + blockalloclen (emptied next n) =
      bp.BALLOC + blockalloclen next := by
  intro next
  induction next generalizing bp with
  | nil => intro n _ hle hn; simp at hle; omega
  | cons nbp next ih =>
    intro n hroom hle hn
    rw [blocklen_cons] at hle
    rw [pullupLoop, emptied]
    split_ifs with hlt hz
    · have htake : (nbp.data.take n).length ≤ bp.room := by
        rw [List.length_take]
        omega
      simp only [blockalloclen_cons, Block.BALLOC_put htake, Block.BALLOC_skip,
        blockalloclen_nil]
      omega
    · have hput : nbp.data.length ≤ bp.room := by
        simp only [Block.BLEN] at hlt
        omega
      simp only [blockalloclen_cons, Block.BALLOC_put hput, blockalloclen_nil]
      omega
    · have hput : nbp.data.length ≤ bp.room := by
        simp only [Block.BLEN] at hlt
        omega
      have hroom' : n - nbp.BLEN ≤ (bp.put nbp.data).room := by
        simp only [Block.put, Block.BLEN]
        omega
      have := ih (bp.put nbp.data) (n - nbp.BLEN) hroom' (by omega) (by omega)
      rw [Block.BALLOC_put hput] at this
      simp only [blockalloclen_cons]
      omega

theorem pullupLoop_addrs (bp : Block) : ∀ (next : List Block) (n : ℕ),
    ((pullupLoop bp next n).map Block.addr).Sublist ((bp :: next).map Block.addr) := by
  intro next
  induction next generalizing bp with
  | nil => intro n; exact List.nil_sublist _
  | cons nbp next ih =>
    intro n
    rw [pullupLoop]
    split_ifs
    · exact .refl _
    · exact (List.sublist_cons_self nbp.addr _).cons_cons _
    · exact (ih (bp.put nbp.data) _).trans ((List.sublist_cons_self nbp.addr _).cons_cons _)

theorem addrs_pullupqueue {m : Mem} {n : ℕ} (hp : pullupqueue q m n = some q') :
    q'.addrs.Sublist (m.addr :: q.addrs) := by
  unfold pullupqueue at hp
  split at hp
  · simp at hp
  rename_i b bs hq
  have hpull : ((pullupblock m b bs n).map Block.addr).Sublist (m.addr :: q.addrs) := by
    rw [Queue.addrs, hq]
    unfold pullupblock
    split_ifs
    · exact List.sublist_cons_self _ _
    · exact pullupLoop_addrs (allocb m n) (b :: bs) n
    · exact (pullupLoop_addrs b bs _).trans (List.sublist_cons_self _ _)
  split_ifs at hp
  · obtain rfl := Option.some.inj hp
    exact List.sublist_cons_self _ _
  · split at hp
    · obtain rfl := Option.some.inj hp
      exact List.nil_sublist _
    · rename_i c cs hc
      obtain rfl := Option.some.inj hp
      rwa [hc] at hpull

/-- `pullupqueue` leaves the counters alone, which are right if and only if it is even. -/
theorem accounted_pullupqueue_iff (h : q.Accounted) {m : Mem} {n : ℕ}
    (hp : pullupqueue q m n = some q') : q'.Accounted ↔ PullsEven q m n := by
  obtain ⟨hdlen, hlen, -⟩ := id h
  unfold pullupqueue at hp
  unfold PullsEven
  generalize hq : q.bfirst = l at hp hdlen hlen ⊢
  rcases l with _ | ⟨b, bs⟩
  · simp at hp
  dsimp only at hp ⊢
  split_ifs at hp with hle
  · obtain rfl := Option.some.inj hp
    exact ⟨fun _ => .inl hle, fun _ => h⟩
  by_cases hbytes : n ≤ blocklen (b :: bs)
  · obtain ⟨c, cs, hc, -, hdata⟩ := pullupblock_data m b bs n hbytes
    have hsame : blocklen (c :: cs) = blocklen (b :: bs) := by
      rw [← length_bytes, ← length_bytes, hdata]
    rw [hc] at hp
    obtain rfl := Option.some.inj hp
    have hiff : Queue.Accounted { q with bfirst := c :: cs, blast := lastAddr c cs } ↔
        blockalloclen (c :: cs) = blockalloclen (b :: bs) := by
      constructor
      · intro hacc
        have := hacc.len
        simp only at this
        omega
      · intro heq
        refine ⟨?_, ?_, fun d ds hd => ?_⟩
        · rw [hdlen, ← hsame]
        · rw [hlen, ← heq]
        · obtain ⟨rfl, rfl⟩ := List.cons.inj hd
          rfl
    rw [hiff, ← hc]
    have hle' := blocklen_le_blockalloclen (b :: bs)
    rw [blocklen_cons] at hbytes hle'
    unfold pullupblock
    rw [if_neg hle]
    split_ifs with hroom
    · have hall := pullupLoop_alloc (allocb m n) (b :: bs) n (Nat.le_add_right n m.pad)
        (by rwa [blocklen_cons]) (by omega)
      rw [blocklen_cons]
      omega
    · have hall := pullupLoop_alloc b bs (n - b.BLEN) (by omega) (by omega) (by omega)
      rw [blocklen_cons]
      rw [blockalloclen_cons] at hle' ⊢
      omega
  · rw [pullupblock_eq_nil m b bs n (by omega)] at hp
    obtain rfl := Option.some.inj hp
    have hle' := blocklen_le_blockalloclen (b :: bs)
    constructor
    · intro hacc
      have := hacc.len
      simp only [blockalloclen_nil] at this
      exact .inr (.inl (by omega))
    · rintro (hfirst | hzero | ⟨hb, -⟩)
      · exact absurd hfirst hle
      · exact accounted_empty rfl (by simp only; omega) (by simp only; omega)
      · exact absurd hb hbytes

/-! ### Runs -/

/-- The event is no call of `pullupqueue`, or an even one. -/
def Even (s : Sys) : Event → Prop
  | .op (.pullupqueue m n) => PullsEven s.q m n
  | _ => True

/-- The counters are right, and no block is in two places. -/
structure Sys.Inv (s : Sys) : Prop where
  accounted : s.q.Accounted
  nodup : s.addrs.Nodup

theorem addrs_eq (s : Sys) : s.addrs = s.q.addrs ++ s.rd.held.map Block.addr := List.map_append

theorem nodup_of_subperm {l l' : List ℕ} (h : l.Subperm l') (hnd : l'.Nodup) : l.Nodup := by
  obtain ⟨k, hk, hsub⟩ := h
  exact hk.nodup_iff.mp (hnd.sublist hsub)

variable {s s' : Sys} {e : Event}

/-- A stretch on the queue that leaves the reader's blocks alone keeps the addresses apart. -/
theorem nodup_of_put (hnd : (e.addrs ++ s.addrs).Nodup)
    (hq : s'.q.addrs.Subperm (e.addrs ++ s.q.addrs)) (hrd : s'.rd.held = s.rd.held) :
    s'.addrs.Nodup := by
  rw [addrs_eq, ← List.append_assoc] at hnd
  rw [addrs_eq, hrd]
  exact nodup_of_subperm (List.subperm_append_right _ |>.mpr hq) hnd

theorem subperm_of_append {l l' new : List ℕ} (h : l.Sublist (l' ++ new)) :
    l.Subperm (new ++ l') := h.subperm.trans List.perm_append_comm.subperm

theorem subperm_of_sublist {l l' new : List ℕ} (h : l.Sublist l') : l.Subperm (new ++ l') :=
  (h.trans (List.sublist_append_right _ _)).subperm

theorem pass_q (s : Sys) (r : Pass × Queue × Bool) (bs : List Block) :
    (s.pass r bs).q = r.2.1 ∧ (s.pass r bs).rd = s.rd := by
  unfold Sys.pass
  split <;> exact ⟨rfl, rfl⟩

/-- The operations of one stretch, `pullupqueue` apart, keep the counters right. -/
theorem accounted_op {o : Op} (h : s.q.Accounted) (hnd : s.q.addrs.Nodup)
    (hop : s.op o = some s') :
    (s'.q.Accounted ↔ Even s (.op o)) ∧
      s'.q.addrs.Subperm ((Event.op o).addrs ++ s.q.addrs) ∧ s'.rd = s.rd := by
  have hkeep {q' : Queue} (hacc : q'.Accounted) : q'.Accounted ↔ True := iff_true_intro hacc
  cases o with
  | qiwrite m p =>
    obtain rfl := Option.some.inj hop
    obtain ⟨hacc, haddrs⟩ := accounted_append_one
      (b := (allocb m (p.take Maxatomic).length).put (p.take Maxatomic)) h hnd
    refine ⟨hkeep (hacc.congr rfl rfl rfl rfl), subperm_of_append ?_, rfl⟩
    exact haddrs ▸ .refl _
  | qproduce m p =>
    obtain rfl := Option.some.inj hop
    cases m with
    | none =>
      have hsame : (qproduce s.q none p).2.1.bfirst = s.q.bfirst ∧
          (qproduce s.q none p).2.1.Accounted := by
        unfold qproduce
        split <;> exact ⟨rfl, h.congr rfl rfl rfl rfl⟩
      have haddrs : (qproduce s.q none p).2.1.addrs = s.q.addrs :=
        congrArg (List.map Block.addr) hsame.1
      exact ⟨hkeep hsame.2, subperm_of_sublist (haddrs ▸ .refl _), rfl⟩
    | some m =>
      obtain ⟨hacc, hsub⟩ := accounted_qproduce h hnd m p
      exact ⟨hkeep hacc, subperm_of_append hsub, rfl⟩
  | qpass b bs =>
    obtain rfl := Option.some.inj hop
    obtain ⟨hacc, hsub⟩ := accounted_qpass b bs h hnd
    obtain ⟨hq, hrd⟩ := pass_q s (qpass s.q b bs) (b :: bs)
    exact ⟨hkeep (hq ▸ hacc), by rw [hq]; exact subperm_of_append hsub, hrd⟩
  | qpassnolim b bs =>
    obtain rfl := Option.some.inj hop
    obtain ⟨hacc, hsub⟩ := accounted_qpassnolim b bs h hnd
    obtain ⟨hq, hrd⟩ := pass_q s (qpassnolim s.q b bs) (b :: bs)
    exact ⟨hkeep (hq ▸ hacc), by rw [hq]; exact subperm_of_append hsub, hrd⟩
  | qaddlist b bs =>
    obtain rfl := Option.some.inj hop
    have haddrs : (s.q.append b bs).addrs = s.q.addrs ++ (b :: bs).map Block.addr := by
      rw [Queue.addrs, append_bfirst h hnd, List.map_append]
      rfl
    exact ⟨hkeep (h.append hnd), subperm_of_append (haddrs ▸ .refl _), rfl⟩
  | qget =>
    obtain rfl := Option.some.inj hop
    obtain ⟨hacc, hsub⟩ := accounted_qget h
    exact ⟨hkeep hacc, subperm_of_sublist hsub, rfl⟩
  | qremove =>
    obtain rfl := Option.some.inj hop
    obtain ⟨hacc, hsub⟩ := accounted_qremove h
    exact ⟨hkeep hacc, subperm_of_sublist hsub, rfl⟩
  | qputback b =>
    obtain rfl := Option.some.inj hop
    exact ⟨hkeep (h.putback b), (List.Sublist.refl _).subperm, rfl⟩
  | qdiscard len =>
    obtain rfl := Option.some.inj hop
    obtain ⟨hacc, hsub⟩ := accounted_qdiscard h len
    exact ⟨hkeep hacc, subperm_of_sublist hsub, rfl⟩
  | qconsume len =>
    obtain rfl := Option.some.inj hop
    obtain ⟨hacc, hsub⟩ := accounted_qconsumeLoop len s.q.bfirst s.q h rfl
    exact ⟨hkeep hacc, subperm_of_sublist hsub, rfl⟩
  | pullupqueue m n =>
    obtain ⟨q, hq, rfl⟩ := Option.map_eq_some_iff.mp hop
    exact ⟨accounted_pullupqueue_iff h hq, (addrs_pullupqueue hq).subperm, rfl⟩
  | qflush =>
    obtain rfl := Option.some.inj hop
    exact ⟨hkeep (accounted_empty rfl rfl rfl), subperm_of_sublist (List.nil_sublist _), rfl⟩
  | qclose =>
    obtain rfl := Option.some.inj hop
    exact ⟨hkeep (accounted_empty rfl rfl rfl), subperm_of_sublist (List.nil_sublist _), rfl⟩
  | qhangup msg =>
    obtain rfl := Option.some.inj hop
    exact ⟨hkeep (h.congr rfl rfl rfl rfl), subperm_of_sublist (.refl _), rfl⟩

theorem accounted_wait (h : q.Accounted) (c : Call) :
    (Sys.wait q c).2.Accounted ∧ (Sys.wait q c).2.addrs.Sublist q.addrs := by
  cases c with
  | qread len => exact accounted_qreadWait q.bfirst q h rfl
  | qbread len =>
    obtain ⟨hacc, hfirst⟩ := accounted_qwait h
    refine ⟨hacc, ?_⟩
    simp only [Sys.wait, Queue.addrs, hfirst, List.Sublist.refl]

/-- The blocks left by `bl2mem` are the last ones of the string. -/
theorem bl2mem_addrs : ∀ (bs : List Block) (n : ℕ),
    ((bl2mem bs n).2.map Block.addr).Sublist (bs.map Block.addr) := by
  intro bs
  induction bs with
  | nil => intro n; exact .refl _
  | cons b bs ih =>
    intro n
    rw [bl2mem]
    split_ifs
    · exact .refl _
    · exact (ih _).cons _

/-- A read keeps the counters right and takes its blocks off the queue. -/
theorem accounted_take (h : q.Accounted) (hq : q.bfirst = b :: bs) (m : Mem) (c : Call) :
    (s.take m q b bs c).q.Accounted ∧
      (s.take m q b bs c).addrs.Subperm (m.addr :: q.addrs) := by
  cases c with
  | qread len =>
    obtain ⟨hacc, heq⟩ := accounted_qreadTake h hq len
    refine ⟨hacc, ?_⟩
    have hperm : ((qreadTake q b bs len).2.bfirst ++ (qreadTake q b bs len).1).Perm q.bfirst :=
      List.perm_append_comm.trans (.of_eq heq)
    exact (hperm.map Block.addr).subperm.trans (List.sublist_cons_self _ _).subperm
  | qbread len =>
    obtain ⟨hacc, hsub⟩ := accounted_qbreadTake h hq m len
    refine ⟨hacc, ?_⟩
    rw [addrs_eq]
    simpa [Sys.take, Sys.put, Rd.held] using hsub.subperm

theorem inv_readStep {m : Mem} (h : s.Inv) (hnd : (m.addr :: s.addrs).Nodup)
    (hstep : s.readStep m = some s') : s'.Inv := by
  have hq : s.q.addrs.Sublist s.addrs := by
    rw [addrs_eq]
    exact List.sublist_append_left _ _
  unfold Sys.readStep at hstep
  split at hstep
  · simp at hstep
  · simp at hstep
  · rename_i c hrd
    obtain ⟨hacc, hsub⟩ := accounted_wait h.accounted c
    have hnd' : (m.addr :: (Sys.wait s.q c).2.addrs).Nodup :=
      hnd.sublist ((hsub.trans hq).cons_cons _)
    have hidle (rd : Rd) (hheld : rd.held = []) :
        Sys.Inv { s with q := (Sys.wait s.q c).2, rd := rd } := by
      refine ⟨hacc, ?_⟩
      simpa only [addrs_eq, hheld, List.map_nil, List.append_nil] using hnd'.of_cons
    generalize hw : Sys.wait s.q c = r at *
    obtain ⟨w, q⟩ := r
    cases w with
    | sleep => obtain rfl := Option.some.inj hstep; exact hidle _ rfl
    | eof => obtain rfl := Option.some.inj hstep; exact hidle _ rfl
    | err => obtain rfl := Option.some.inj hstep; exact hidle _ rfl
    | data =>
      dsimp only at hstep
      split at hstep
      · simp at hstep
      · rename_i b bs hb
        obtain rfl := Option.some.inj hstep
        obtain ⟨hacc', hsub'⟩ := accounted_take (s := s) hacc hb m c
        exact ⟨hacc', nodup_of_subperm hsub' hnd'⟩
  · rename_i c hrd
    obtain rfl := Option.some.inj hstep
    refine ⟨h.accounted, ?_⟩
    have hnd' := h.nodup
    rw [addrs_eq, hrd] at hnd'
    rw [addrs_eq]
    split <;> exact hnd'
  · rename_i len first hrd
    obtain rfl := Option.some.inj hstep
    obtain ⟨hacc, hsub⟩ := accounted_qreadDone (bl2mem first len).2 h.accounted
    have hperm : (qreadDone s.q (bl2mem first len).2).1.addrs.Subperm
        (s.q.addrs ++ first.map Block.addr) :=
      subperm_of_append (hsub.trans ((bl2mem_addrs first len).append_right _))
    refine ⟨hacc, nodup_of_subperm ?_ h.nodup⟩
    rw [addrs_eq, addrs_eq, hrd]
    simpa [Sys.put, Rd.held] using hperm

theorem inv_write (h : s.Inv) (hnd : (b.addr :: s.addrs).Nodup) (hstep : s.write b = some s') :
    s'.Inv := by
  have hndq : s.q.addrs.Nodup := by
    have := h.nodup
    rw [addrs_eq] at this
    exact this.of_append_left
  obtain ⟨hacc, hsub⟩ := accounted_qbwritePut (b := b) h.accounted hndq
  have hinv {s₁ : Sys} (hq₁ : s₁.q = (qbwritePut s.q b).2.1) (hrd₁ : s₁.rd = s.rd) : s₁.Inv := by
    refine ⟨hq₁ ▸ hacc, nodup_of_put (e := .write b) hnd ?_ (by rw [hrd₁])⟩
    rw [hq₁]
    exact subperm_of_append hsub
  unfold Sys.write at hstep
  split at hstep
  · split at hstep
    · rename_i hput
      obtain rfl := Option.some.inj hstep
      exact hinv (by rw [hput]; rfl) rfl
    · rename_i hput
      obtain rfl := Option.some.inj hstep
      exact hinv (by rw [hput]; rfl) rfl
  · simp at hstep

/-- A change of the flags and of where the processes are keeps the invariant. -/
theorem Sys.Inv.congr (h : s.Inv) (hfirst : s'.q.bfirst = s.q.bfirst)
    (hlast : s'.q.blast = s.q.blast) (hlen : s'.q.len = s.q.len) (hdlen : s'.q.dlen = s.q.dlen)
    (hrd : s'.rd.held = s.rd.held) : s'.Inv := by
  refine ⟨h.accounted.congr hfirst hlast hlen hdlen, ?_⟩
  have := h.nodup
  rwa [Sys.addrs, hfirst, hrd]

theorem inv_step (h : s.Inv) (hstep : Step s e s') : Even s e → s'.Inv := by
  obtain ⟨hnd, hstep⟩ := hstep
  intro heven
  cases e with
  | read c =>
    simp only [Sys.step] at hstep
    split_ifs at hstep with hrd
    obtain rfl := Option.some.inj hstep
    exact h.congr rfl rfl rfl rfl (by rw [hrd]; rfl)
  | readStep m => exact inv_readStep h hnd hstep
  | readIntr =>
    simp only [Sys.step] at hstep
    split at hstep
    · rename_i hrd
      obtain rfl := Option.some.inj hstep
      exact h.congr rfl rfl rfl rfl (by rw [hrd]; rfl)
    · rename_i hrd
      obtain rfl := Option.some.inj hstep
      exact h.congr rfl rfl rfl rfl (by rw [hrd]; rfl)
    · simp at hstep
  | write b => exact inv_write h hnd hstep
  | writeStep =>
    simp only [Sys.step, Sys.writeStep] at hstep
    split at hstep
    · simp at hstep
    · simp at hstep
    all_goals
      obtain rfl := Option.some.inj hstep
      exact h.congr rfl rfl rfl rfl rfl
  | writeIntr =>
    simp only [Sys.step] at hstep
    split at hstep
    · obtain rfl := Option.some.inj hstep
      exact h.congr rfl rfl rfl rfl rfl
    · obtain rfl := Option.some.inj hstep
      exact h.congr rfl rfl rfl rfl rfl
    · simp at hstep
  | wakeRr =>
    simp only [Sys.step] at hstep
    split_ifs at hstep
    obtain rfl := Option.some.inj hstep
    refine h.congr rfl rfl rfl rfl ?_
    cases hrd : s.rd <;> simp [Sys.wakeRr, hrd, Rd.held]
  | wakeWr =>
    simp only [Sys.step] at hstep
    split_ifs at hstep
    obtain rfl := Option.some.inj hstep
    exact h.congr rfl rfl rfl rfl rfl
  | op o =>
    have hndq : s.q.addrs.Nodup := by
      have := h.nodup
      rw [addrs_eq] at this
      exact this.of_append_left
    obtain ⟨hacc, hsub, hrd⟩ := accounted_op h.accounted hndq hstep
    exact ⟨hacc.mpr heven, nodup_of_put hnd hsub (by rw [hrd])⟩

theorem inv_opened {q : Queue} (h : Opened q) : Sys.Inv { q := q } := by
  refine ⟨accounted_empty h.bfirst h.len h.dlen, ?_⟩
  rw [Sys.addrs, h.bfirst]
  exact List.nodup_nil

theorem inv_of_run {q : Queue} (h₀ : Opened q) (h : Run Step Even { q := q } s) : s.Inv := by
  refine h.invariant (inv_opened h₀) fun s e s' hinv heven hstep => ?_
  exact inv_step hinv hstep heven

/-- In every run, in any interleaving, whose calls of `pullupqueue` are even, the counters of the
queue and its last pointer agree with its blocks. A step breaks this if and only if it is an uneven
call. -/
theorem accounted_of_run {q : Queue} (h₀ : Opened q) (h : Run Step Even { q := q } s) :
    s.q.Accounted ∧ ∀ e s', Step s e s' → (s'.q.Accounted ↔ Even s e) := by
  have hinv := inv_of_run h₀ h
  refine ⟨hinv.accounted, fun e s' hstep => ⟨fun hacc => ?_, fun heven => ?_⟩⟩
  · cases e with
    | op o =>
      have hndq : s.q.addrs.Nodup := by
        have := hinv.nodup
        rw [addrs_eq] at this
        exact this.of_append_left
      exact (accounted_op hinv.accounted hndq hstep.2).1.mp hacc
    | _ => trivial
  · exact (inv_step hinv hstep heven).accounted

/-- The queue of the examples. -/
def small : Queue := { limit := 100 }

theorem opened_small : Opened small := ⟨rfl, rfl, rfl, rfl, rfl, rfl⟩

theorem accounted_of_run_pass :
    let s : Sys := { q := small }
    let s' := s.pass (qpass small { addr := 1, data := [1, 2] } []) [{ addr := 1, data := [1, 2] }]
    s'.q.Accounted ∧ ∀ e s'', Step s' e s'' → (s''.q.Accounted ↔ Even s' e) :=
  accounted_of_run opened_small
    (.snoc .nil (e := .op (.qpass { addr := 1, data := [1, 2] } [])) trivial ⟨by decide, rfl⟩)

/-- Two blocks of four bytes are queued and seven bytes pulled up: a block is added and one freed,
and neither is counted. -/
theorem not_accounted_of_pullup :
    ∃ s, Run Step (fun _ _ => True) { q := small } s ∧ ¬ s.q.Accounted := by
  refine ⟨_, .snoc (.snoc (.snoc .nil
      (e := .op (.qpass { addr := 1, data := [1, 2, 3, 4] } [])) trivial ⟨by decide, rfl⟩)
      (e := .op (.qpass { addr := 2, data := [5, 6, 7, 8] } [])) trivial ⟨by decide, rfl⟩)
      (e := .op (.pullupqueue { addr := 3 } 7)) trivial ⟨by decide, rfl⟩, ?_⟩
  intro h
  exact absurd h.len (by decide)

end PlanNine.Qio
