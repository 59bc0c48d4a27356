import PlanNine.Port.Qio.Accounting

/-!
# The bytes that pass through a queue

Writers put blocks into a queue, by `qbwrite`, `qwrite` and `qpass`, and readers take their bytes
out, by `qread` and `qbread`. `Effect` says what a step does to the blocks in the queue, to those
that a reader copies, and to the two records. The bytes of a stream and the messages of a message
queue are then kept by every effect.

## Main definitions

* `Io`: the events of readers and writers.
* `Effect`: what an event does to the blocks and the records.
* `ReadOf`: what a read returns of the blocks that it takes.

## Main results

* `effect_of_step`: every event of a reader or a writer has such an effect.
* `fidelity_of_run`: what was returned, with what is queued, is what was written.
* `bytes_qwriteBlocks`: the blocks of `qwrite` hold its bytes.
-/

namespace PlanNine.Qio

open Queue

/-- The events of readers and writers. -/
def Io : Event → Prop
  | .op (.qpass _ _) => True
  | .op _ => False
  | _ => True

/-- The kind of a queue. -/
def Queue.kind (q : Queue) : Bool × Bool := (q.qmsg, q.qcoalesce)

/-- Blocks without data, which a coalescing read throws away. -/
def Empties (q : Queue) (zs : List Block) : Prop :=
  (∀ z ∈ zs, z.data = []) ∧ (zs ≠ [] → q.qcoalesce = true)

/-- A read that copies `first` takes one block, or several that fit. -/
def Fits (q : Queue) (len : ℕ) (first : List Block) : Prop :=
  (∃ b, first = [b]) ∨ q.qcoalesce = true ∧ blocklen first ≤ len

/-- The blocks that a reader copies. -/
def Sys.HeldFits (s : Sys) : Prop := ∀ len first, s.rd = .copying len first → Fits s.q len first

/-- The reader copies no blocks. -/
def Rd.Free (rd : Rd) : Prop := ∀ len first, rd ≠ .copying len first

/-- What an event does. -/
inductive Effect (s s' : Sys) : Prop
  | frame (hfirst : s'.q.bfirst = s.q.bfirst) (hrd : s'.rd = s.rd ∨ s.rd.Free ∧ s'.rd.Free)
      (hw : s'.written = s.written) (hr : s'.returned = s.returned)
  /-- empty blocks are thrown away -/
  | drop (zs : List Block) (hz : Empties s.q zs) (hfirst : s.q.bfirst = zs ++ s'.q.bfirst)
      (hrd : s.rd.Free) (hrd' : s'.rd.Free) (hw : s'.written = s.written)
      (hr : s'.returned = s.returned)
  /-- the blocks `bs` enter the queue -/
  | append (bs : List Block) (hfirst : s'.q.bfirst = s.q.bfirst ++ bs) (hrd : s'.rd = s.rd)
      (hw : s'.written = s.written ++ bs.map Block.data) (hr : s'.returned = s.returned)
  /-- empty blocks are thrown away and a reader takes the blocks `first` -/
  | take (zs first : List Block) (len : ℕ) (hz : Empties s.q zs)
      (hfirst : s.q.bfirst = zs ++ first ++ s'.q.bfirst) (hrd : s.rd.Free)
      (hrd' : s'.rd = .copying len first) (hfit : Fits s.q len first)
      (hw : s'.written = s.written) (hr : s'.returned = s.returned)
  /-- a reader returns `len` bytes of the blocks that it holds -/
  | done (len : ℕ) (first : List Block) (hrd : s.rd = .copying len first) (hrd' : s'.rd = .idle)
      (hfirst : s'.q.bfirst =
        (if s.q.qmsg then [] else (bl2mem first len).2) ++ s.q.bfirst)
      (hw : s'.written = s.written) (hr : s'.returned = s.returned ++ [(bytes first).take len])
  /-- a reader takes a block and returns `len` bytes of it -/
  | bread (len : ℕ) (b : Block) (bs rest : List Block) (hfirst : s.q.bfirst = b :: bs)
      (hfirst' : s'.q.bfirst = rest ++ bs) (hrd : s.rd.Free) (hrd' : s'.rd = .idle)
      (hrest : bytes rest = if s.q.qmsg then [] else b.data.drop len)
      (hmsg : s.q.qmsg = true → rest = []) (hw : s'.written = s.written)
      (hr : s'.returned = s.returned ++ [b.data.take len])

variable {q : Queue} {b : Block} {bs : List Block} {s s' : Sys} {e : Event}

/-! ### What the stretches take -/

theorem kind_append : (q.append b bs).kind = q.kind := by
  simp only [Queue.kind, Queue.append, Queue.link]
  split <;> rfl

theorem qwait_cases (q : Queue) :
    (qwait q).2.bfirst = q.bfirst ∧ (qwait q).2.kind = q.kind ∧
      ((qwait q).1 = .data ∧ q.bfirst ≠ [] ∨ (qwait q).1 ≠ .data ∧ q.bfirst = []) := by
  unfold qwait
  split
  · rename_i hq
    exact ⟨rfl, rfl, .inl ⟨rfl, by simp [hq]⟩⟩
  · rename_i hq
    dsimp only
    split_ifs
    all_goals exact ⟨rfl, rfl, .inr ⟨by simp, hq⟩⟩

/-- The wait of a read throws away empty blocks and leaves a block when it says so. -/
theorem qreadWait_cases : ∀ (bs : List Block) (q : Queue), q.bfirst = bs →
    ∃ zs, Empties q zs ∧ q.bfirst = zs ++ (qreadWait bs q).2.bfirst ∧
      (qreadWait bs q).2.kind = q.kind := by
  intro bs
  induction bs with
  | nil =>
    intro q _
    obtain ⟨hfirst, hkind, -⟩ := qwait_cases q
    exact ⟨[], ⟨by simp, by simp⟩, hfirst.symm, hkind⟩
  | cons b bs ih =>
    intro q hq
    rw [qreadWait]
    split_ifs with hc
    · obtain ⟨zs, ⟨hdata, -⟩, hfirst, hkind⟩ := ih (q.pop b bs) rfl
      refine ⟨b :: zs, ⟨fun z hz => ?_, fun _ => hc.1⟩, ?_, hkind⟩
      · rcases List.mem_cons.mp hz with rfl | hz
        · exact List.eq_nil_of_length_eq_zero hc.2
        · exact hdata z hz
      · rw [hq, List.cons_append, ← hfirst]
        rfl
    · exact ⟨[], ⟨by simp, by simp⟩, rfl, rfl⟩

theorem wait_cases (q : Queue) (c : Call) :
    ∃ zs, Empties q zs ∧ q.bfirst = zs ++ (Sys.wait q c).2.bfirst ∧
      (Sys.wait q c).2.kind = q.kind := by
  cases c with
  | qread len => exact qreadWait_cases q.bfirst q rfl
  | qbread len =>
    obtain ⟨hfirst, hkind, -⟩ := qwait_cases q
    exact ⟨[], ⟨by simp, by simp⟩, hfirst.symm, hkind⟩

theorem grab_cases (len : ℕ) : ∀ (bs : List Block) (n : ℕ) (q : Queue), q.bfirst = bs →
    ((grab len bs n q).1 = [] ∨ n + blocklen (grab len bs n q).1 ≤ len) ∧
      (grab len bs n q).2.kind = q.kind := by
  intro bs
  induction bs with
  | nil => intro n q _; exact ⟨.inl rfl, rfl⟩
  | cons b bs ih =>
    intro n q _
    rw [grab]
    split_ifs with hlt
    · exact ⟨.inl rfl, rfl⟩
    · obtain ⟨hfit, hkind⟩ := ih (n + b.BLEN) (q.pop b bs) rfl
      refine ⟨.inr ?_, hkind⟩
      rw [blocklen_cons]
      rcases hfit with hnil | hle
      · rw [hnil, blocklen_nil]
        omega
      · omega

/-- `qread` takes one block, or several that fit when it coalesces. -/
theorem qreadTake_fits (q : Queue) (b : Block) (bs : List Block) (len : ℕ) :
    Fits q len (qreadTake q b bs len).1 ∧ (qreadTake q b bs len).2.kind = q.kind := by
  unfold qreadTake
  dsimp only
  split_ifs with hc
  · obtain ⟨hfit, hkind⟩ := grab_cases len bs b.BLEN (q.pop b bs) rfl
    refine ⟨?_, hkind⟩
    rcases hfit with hnil | hle
    · exact .inl ⟨b, by rw [hnil]⟩
    · exact .inr ⟨hc, by rw [blocklen_cons]; exact hle⟩
  · exact ⟨.inl ⟨b, rfl⟩, rfl⟩

theorem bl2mem_of_le : ∀ (bs : List Block) (n : ℕ), blocklen bs ≤ n → (bl2mem bs n).2 = [] := by
  intro bs
  induction bs with
  | nil => intro n _; rfl
  | cons b bs ih =>
    intro n hle
    rw [blocklen_cons] at hle
    rw [bl2mem, if_neg (by omega)]
    exact ih _ (by omega)

/-- At most one block is left over from a read. -/
theorem Fits.rest {len : ℕ} {first : List Block} (h : Fits q len first) :
    (bl2mem first len).2 = [] ∨ ∃ c, (bl2mem first len).2 = [c] := by
  rcases h with ⟨b, rfl⟩ | ⟨-, hle⟩
  · rw [bl2mem]
    split_ifs
    · exact .inr ⟨_, rfl⟩
    · exact .inl rfl
  · exact .inl (bl2mem_of_le first len hle)

theorem qreadDone_bfirst {len : ℕ} {first : List Block} (h : Fits q len first) :
    (qreadDone q (bl2mem first len).2).1.bfirst =
        (if q.qmsg then [] else (bl2mem first len).2) ++ q.bfirst ∧
      (qreadDone q (bl2mem first len).2).1.kind = q.kind := by
  unfold qreadDone
  rcases h.rest with hnil | ⟨c, hc⟩
  · rw [hnil]
    exact ⟨by simp [qwakeup, Queue.restart], rfl⟩
  · rw [hc]
    dsimp only
    split_ifs
    · exact ⟨rfl, rfl⟩
    · exact ⟨rfl, rfl⟩

/-! ### The effect of a step -/

theorem effect_take {m : Mem} {c : Call} {r : Queue} {zs : List Block} (hrd : s.rd = .enter c)
    (hz : Empties s.q zs) (hzs : s.q.bfirst = zs ++ r.bfirst) (hkind : r.kind = s.q.kind)
    (hr : r.Accounted) (hb : r.bfirst = b :: bs) (hc : ∀ len, c = .qbread len → zs = []) :
    Effect s (s.take m r b bs c) ∧ (s.take m r b bs c).q.kind = s.q.kind := by
  have hheld : s.rd.Free := by simp [Rd.Free, hrd]
  have hmsg : r.qmsg = s.q.qmsg := congrArg Prod.fst hkind
  have hcoal : r.qcoalesce = s.q.qcoalesce := congrArg Prod.snd hkind
  cases c with
  | qread len =>
    obtain ⟨hfit, hkind'⟩ := qreadTake_fits r b bs len
    obtain ⟨-, hall⟩ := accounted_qreadTake hr hb len
    refine ⟨.take zs (qreadTake r b bs len).1 len hz ?_ hheld rfl ?_ rfl rfl, hkind'.trans hkind⟩
    · rw [hzs, ← hall, List.append_assoc]
      rfl
    · rwa [Fits, ← hcoal]
  | qbread len =>
    obtain rfl := hc len rfl
    rw [List.nil_append] at hzs
    have hdrop : b.data.drop len = [] ∨ len < b.BLEN := by
      by_cases hlt : len < b.BLEN
      · exact .inr hlt
      · exact .inl (List.drop_of_length_le (Nat.le_of_not_lt hlt))
    by_cases hlt : len < b.BLEN
    · cases hq : r.qmsg with
      | true =>
        refine ⟨.bread len b bs [] (hzs.trans hb) ?_ hheld rfl ?_ (fun _ => rfl) rfl ?_, ?_⟩
        · simp [Sys.take, Sys.put, qbreadTake, qwakeup, Queue.restart, Queue.pop, hlt, hq]
        · rw [← hmsg, hq]
          rfl
        · simp [Sys.take, Sys.put, qbreadTake, hlt]
        · rw [← hkind]
          simp [Sys.take, Sys.put, qbreadTake, qwakeup, Queue.restart, Queue.pop, hlt, hq,
            Queue.kind]
      | false =>
        refine ⟨.bread len b bs [(allocb m (b.BLEN - len)).put (b.data.drop len)]
          (hzs.trans hb) ?_ hheld rfl ?_ (fun ht => ?_) rfl ?_, ?_⟩
        · simp [Sys.take, Sys.put, qbreadTake, qwakeup, Queue.restart, Queue.pop, qputback, hlt,
            hq]
        · rw [← hmsg, hq]
          simp
        · rw [← hmsg, hq] at ht
          simp at ht
        · simp [Sys.take, Sys.put, qbreadTake, hlt]
        · rw [← hkind]
          simp [Sys.take, Sys.put, qbreadTake, qwakeup, Queue.restart, Queue.pop, qputback, hlt,
            hq, Queue.kind]
    · refine ⟨.bread len b bs [] (hzs.trans hb) ?_ hheld rfl ?_ (fun _ => rfl) rfl ?_, ?_⟩
      · simp [Sys.take, Sys.put, qbreadTake, qwakeup, Queue.restart, Queue.pop, hlt]
      · rw [hdrop.resolve_right hlt, bytes_nil, ite_self]
      · have htake : b.data.take len = b.data := List.take_of_length_le (Nat.le_of_not_lt hlt)
        simp [Sys.take, Sys.put, qbreadTake, hlt, htake]
      · rw [← hkind]
        simp [Sys.take, Sys.put, qbreadTake, qwakeup, Queue.restart, Queue.pop, hlt, Queue.kind]

theorem effect_readStep {m : Mem} (h : s.Inv) (hfit : s.HeldFits)
    (hstep : s.readStep m = some s') : Effect s s' ∧ s'.q.kind = s.q.kind := by
  unfold Sys.readStep at hstep
  split at hstep
  · simp at hstep
  · simp at hstep
  · rename_i c hrd
    have hfree : s.rd.Free := by simp [Rd.Free, hrd]
    obtain ⟨hacc, -⟩ := accounted_wait h.accounted c
    obtain ⟨zs, hz, hzs, hkind⟩ := wait_cases s.q c
    have hbread : ∀ len, c = .qbread len → (Sys.wait s.q c).2.bfirst = s.q.bfirst := by
      rintro len rfl
      exact (qwait_cases s.q).1
    generalize hw : Sys.wait s.q c = r at *
    obtain ⟨w, r⟩ := r
    have hdrop {rd : Rd} (hrd' : rd.Free) : Effect s { s with q := r, rd := rd } :=
      .drop zs hz hzs hfree hrd' rfl rfl
    cases w with
    | sleep =>
      obtain rfl := Option.some.inj hstep
      exact ⟨hdrop (by simp [Rd.Free]), hkind⟩
    | eof =>
      obtain rfl := Option.some.inj hstep
      exact ⟨hdrop (by simp [Rd.Free]), hkind⟩
    | err =>
      obtain rfl := Option.some.inj hstep
      exact ⟨hdrop (by simp [Rd.Free]), hkind⟩
    | data =>
      dsimp only at hstep
      split at hstep
      · simp at hstep
      · rename_i b bs hb
        obtain rfl := Option.some.inj hstep
        refine effect_take hrd hz hzs hkind hacc hb fun len hc => ?_
        have hlen := congrArg List.length hzs
        rw [List.length_append, hbread len hc] at hlen
        exact List.eq_nil_of_length_eq_zero (by omega)
  · rename_i c hrd
    obtain rfl := Option.some.inj hstep
    refine ⟨.frame rfl (.inr ⟨by simp [Rd.Free, hrd], ?_⟩) rfl rfl, rfl⟩
    dsimp only
    split <;> simp [Rd.Free]
  · rename_i len first hrd
    obtain rfl := Option.some.inj hstep
    obtain ⟨hfirst, hkind⟩ := qreadDone_bfirst (hfit len first hrd)
    refine ⟨.done len first hrd rfl hfirst rfl ?_, hkind⟩
    rw [← (bl2mem_data first len).1]

theorem effect_write (h : s.Inv) (hstep : s.write b = some s') :
    Effect s s' ∧ s'.q.kind = s.q.kind := by
  have hndq : s.q.addrs.Nodup := by
    have := h.nodup
    rw [addrs_eq] at this
    exact this.of_append_left
  unfold Sys.write at hstep
  split at hstep
  · unfold qbwritePut at hstep
    split_ifs at hstep
    · obtain rfl := Option.some.inj hstep
      exact ⟨.frame rfl (.inl rfl) rfl rfl, rfl⟩
    · obtain rfl := Option.some.inj hstep
      exact ⟨.frame rfl (.inl rfl) rfl rfl, rfl⟩
    · obtain rfl := Option.some.inj hstep
      exact ⟨.append [b] (append_bfirst h.accounted hndq) rfl rfl rfl, kind_append⟩
  · simp at hstep

theorem effect_qpass (h : s.Inv) (b : Block) (bs : List Block) :
    Effect s (s.pass (qpass s.q b bs) (b :: bs)) ∧
      (s.pass (qpass s.q b bs) (b :: bs)).q.kind = s.q.kind := by
  have hndq : s.q.addrs.Nodup := by
    have := h.nodup
    rw [addrs_eq] at this
    exact this.of_append_left
  unfold qpass
  split_ifs
  · exact ⟨.frame rfl (.inl rfl) rfl rfl, rfl⟩
  · unfold qpassnolim
    split_ifs
    · exact ⟨.frame rfl (.inl rfl) rfl rfl, rfl⟩
    · exact ⟨.append (b :: bs) (append_bfirst h.accounted hndq) rfl rfl rfl, kind_append⟩

/-- Every event of a reader or a writer has one of the effects. -/
theorem effect_of_step (h : s.Inv) (hfit : s.HeldFits) (hio : Io e) (hstep : Step s e s') :
    Effect s s' ∧ s'.q.kind = s.q.kind := by
  obtain ⟨-, hstep⟩ := hstep
  cases e with
  | read c =>
    simp only [Sys.step] at hstep
    split_ifs at hstep with hrd
    obtain rfl := Option.some.inj hstep
    exact ⟨.frame rfl (.inr ⟨by simp [Rd.Free, hrd], by simp [Rd.Free]⟩) rfl rfl, rfl⟩
  | readStep m => exact effect_readStep h hfit hstep
  | readIntr =>
    simp only [Sys.step] at hstep
    split at hstep
    · rename_i hrd
      obtain rfl := Option.some.inj hstep
      exact ⟨.frame rfl (.inr ⟨by simp [Rd.Free, hrd], by simp [Rd.Free]⟩) rfl rfl, rfl⟩
    · rename_i hrd
      obtain rfl := Option.some.inj hstep
      exact ⟨.frame rfl (.inr ⟨by simp [Rd.Free, hrd], by simp [Rd.Free]⟩) rfl rfl, rfl⟩
    · simp at hstep
  | write b => exact effect_write h hstep
  | writeStep =>
    simp only [Sys.step, Sys.writeStep] at hstep
    split at hstep
    · simp at hstep
    · simp at hstep
    all_goals
      obtain rfl := Option.some.inj hstep
      exact ⟨.frame rfl (.inl rfl) rfl rfl, rfl⟩
  | writeIntr =>
    simp only [Sys.step] at hstep
    split at hstep
    · obtain rfl := Option.some.inj hstep
      exact ⟨.frame rfl (.inl rfl) rfl rfl, rfl⟩
    · obtain rfl := Option.some.inj hstep
      exact ⟨.frame rfl (.inl rfl) rfl rfl, rfl⟩
    · simp at hstep
  | wakeRr =>
    simp only [Sys.step] at hstep
    split_ifs at hstep
    obtain rfl := Option.some.inj hstep
    refine ⟨.frame rfl ?_ rfl rfl, rfl⟩
    cases hrd : s.rd with
    | asleep c => exact .inr ⟨by simp [Rd.Free], by simp [Sys.wakeRr, hrd, Rd.Free]⟩
    | _ => exact .inl (by simp [Sys.wakeRr, hrd])
  | wakeWr =>
    simp only [Sys.step] at hstep
    split_ifs at hstep
    obtain rfl := Option.some.inj hstep
    exact ⟨.frame rfl (.inl rfl) rfl rfl, rfl⟩
  | op o =>
    cases o with
    | qpass b bs =>
      obtain rfl := Option.some.inj hstep
      exact effect_qpass h b bs
    | _ => exact hio.elim

theorem Rd.Free.held {rd : Rd} (h : rd.Free) : rd.held = [] := by
  cases rd with
  | copying len first => exact absurd rfl (h len first)
  | _ => rfl

theorem effect_heldFits (heff : Effect s s') (hkind : s'.q.kind = s.q.kind) (h : s.HeldFits) :
    s'.HeldFits := by
  have hcoal : s'.q.qcoalesce = s.q.qcoalesce := congrArg Prod.snd hkind
  have hsame (hrd : s'.rd = s.rd) : s'.HeldFits := by
    intro len first hcopy
    rw [Fits, hcoal]
    exact h len first (hrd ▸ hcopy)
  have hfree (hrd : s'.rd.Free) : s'.HeldFits := fun len first hcopy => absurd hcopy (hrd len first)
  have hidle (hrd : s'.rd = .idle) : s'.HeldFits := hfree (by simp [Rd.Free, hrd])
  cases heff with
  | frame hfirst hrd hw hr => exact hrd.elim hsame fun hrd => hfree hrd.2
  | drop zs hz hfirst hrd hrd' hw hr => exact hfree hrd'
  | append bs hfirst hrd hw hr => exact hsame hrd
  | take zs first len hz hfirst hrd hrd' hfit hw hr =>
    intro len' first' hcopy
    obtain ⟨rfl, rfl⟩ := Rd.copying.inj (hrd'.symm.trans hcopy)
    rwa [Fits, hcoal]
  | done len first hrd hrd' hfirst hw hr => exact hidle hrd'
  | bread len b bs rest hfirst hfirst' hrd hrd' hrest hmsg hw hr => exact hidle hrd'

/-! ### Streams -/

theorem bytes_empties {zs : List Block} (hz : Empties q zs) : bytes zs = [] :=
  List.flatMap_eq_nil_iff.mpr hz.1

theorem flatten_map_data (bs : List Block) : (bs.map Block.data).flatten = bytes bs := rfl

/-- The bytes returned, those with a reader and those in the queue are the bytes written. -/
def Sys.Streams (s : Sys) : Prop :=
  s.returned.flatten ++ bytes s.rd.held ++ bytes s.q.bfirst = s.written.flatten

theorem streams_effect (heff : Effect s s') (hmsg : s.q.qmsg = false) (h : s.Streams) :
    s'.Streams := by
  unfold Sys.Streams at h ⊢
  cases heff with
  | frame hfirst hrd hw hr =>
    have hheld : s'.rd.held = s.rd.held := by
      rcases hrd with hrd | ⟨hrd, hrd'⟩
      · rw [hrd]
      · rw [hrd.held, hrd'.held]
    rw [hfirst, hheld, hw, hr, h]
  | drop zs hz hfirst hrd hrd' hw hr =>
    rw [hfirst, hrd.held, bytes_append, bytes_empties hz] at h
    rw [hrd'.held, hw, hr]
    exact h
  | append bs hfirst hrd hw hr =>
    rw [hfirst, hrd, hw, hr, bytes_append, List.flatten_append, flatten_map_data, ← h]
    simp only [List.append_assoc]
  | take zs first len hz hfirst hrd hrd' hfit hw hr =>
    rw [hfirst, hrd.held, bytes_append, bytes_append, bytes_empties hz, bytes_nil,
      List.append_nil, List.nil_append] at h
    rw [hrd', hw, hr, ← h, List.append_assoc]
    rfl
  | done len first hrd hrd' hfirst hw hr =>
    rw [hrd] at h
    rw [hfirst, hmsg, hrd', hw, hr, ← h, bytes_append, List.flatten_append,
      if_neg Bool.false_ne_true, (bl2mem_data first len).2]
    simp only [Rd.held, bytes_nil, List.append_nil, List.flatten_cons, List.flatten_nil]
    rw [List.append_assoc, ← List.append_assoc ((bytes first).take len), List.take_append_drop,
      List.append_assoc]
  | bread len b bs rest hfirst hfirst' hrd hrd' hrest hmsg' hw hr =>
    rw [hfirst, hrd.held, bytes_nil, bytes_cons, List.append_nil] at h
    rw [hfirst', hrd', hw, hr, ← h, bytes_append, hrest, hmsg, List.flatten_append,
      if_neg Bool.false_ne_true]
    simp only [Rd.held, bytes_nil, List.append_nil, List.flatten_cons, List.flatten_nil]
    rw [List.append_assoc, ← List.append_assoc (b.data.take len), List.take_append_drop]

/-! ### Messages -/

/-- What a read returns of the messages that it takes: the bytes of all of them, or the first
bytes of the last one behind empty ones. -/
def ReadOf (p : List UInt8) (g : List (List UInt8)) : Prop :=
  p = g.flatten ∨ ∃ zs x, g = zs ++ [x] ∧ (∀ z ∈ zs, z = []) ∧ p <+: x

/-- The messages written are those of the reads, one group for each; empty ones thrown away since;
and those with a reader and in the queue. Without coalescing each group is one message. -/
structure Sys.Told (s : Sys) (groups : List (List (List UInt8))) (pending : List (List UInt8)) :
    Prop where
  written : s.written = groups.flatten ++ pending ++ (s.rd.held ++ s.q.bfirst).map Block.data
  empty : ∀ z ∈ pending, z = []
  reads : List.Forall₂ ReadOf s.returned groups
  single : s.q.qcoalesce = false → pending = [] ∧ ∀ g ∈ groups, ∃ x, g = [x]

theorem readOf_fits {len : ℕ} {first : List Block} {pending : List (List UInt8)}
    (hfit : Fits q len first) (hp : ∀ z ∈ pending, z = []) :
    ReadOf ((bytes first).take len) (pending ++ first.map Block.data) := by
  rcases hfit with ⟨b, rfl⟩ | ⟨-, hle⟩
  · refine .inr ⟨pending, b.data, rfl, hp, ?_⟩
    rw [bytes_cons, bytes_nil, List.append_nil]
    exact List.take_prefix _ _
  · refine .inl ?_
    rw [List.take_of_length_le ((length_bytes first).trans_le hle), List.flatten_append,
      List.flatten_eq_nil_iff.mpr hp, flatten_map_data, List.nil_append]

/-- A read that ends closes the group of its messages. -/
theorem told_read {groups : List (List (List UInt8))} {pending : List (List UInt8)}
    {first : List Block} {len : ℕ} (hfit : Fits s.q len first)
    (hcoal : s'.q.qcoalesce = s.q.qcoalesce) (hp : ∀ z ∈ pending, z = [])
    (hreads : List.Forall₂ ReadOf s.returned groups)
    (hsingle : s.q.qcoalesce = false → pending = [] ∧ ∀ g ∈ groups, ∃ x, g = [x])
    (hw : s'.written = groups.flatten ++ pending ++ first.map Block.data ++
      (s'.rd.held ++ s'.q.bfirst).map Block.data)
    (hr : s'.returned = s.returned ++ [(bytes first).take len]) :
    s'.Told (groups ++ [pending ++ first.map Block.data]) [] where
  written := by
    rw [hw, List.flatten_append]
    simp only [List.flatten_cons, List.flatten_nil, List.append_nil, List.append_assoc]
  empty := by simp
  reads := by
    rw [hr]
    exact List.rel_append hreads (.cons (readOf_fits hfit hp) .nil)
  single hc := by
    rw [hcoal] at hc
    obtain ⟨hnil, hgroups⟩ := hsingle hc
    refine ⟨rfl, fun g hg => ?_⟩
    rcases List.mem_append.mp hg with hg | hg
    · exact hgroups g hg
    · rcases hfit with ⟨b, rfl⟩ | ⟨hc', -⟩
      · exact ⟨b.data, by rw [List.mem_singleton.mp hg, hnil]; rfl⟩
      · rw [hc] at hc'
        exact absurd hc' Bool.false_ne_true

theorem told_effect {groups : List (List (List UInt8))} {pending : List (List UInt8)}
    (heff : Effect s s') (hkind : s'.q.kind = s.q.kind) (hmsg : s.q.qmsg = true)
    (hfit : s.HeldFits) (h : s.Told groups pending) :
      ∃ groups' pending', s'.Told groups' pending' := by
  have hcoal : s'.q.qcoalesce = s.q.qcoalesce := congrArg Prod.snd hkind
  obtain ⟨hwritten, hp, hreads, hsingle⟩ := h
  have hthrow {zs : List Block} (hz : Empties s.q zs) :
      (∀ z ∈ pending ++ zs.map Block.data, z = []) ∧
        (s'.q.qcoalesce = false →
          pending ++ zs.map Block.data = [] ∧ ∀ g ∈ groups, ∃ x, g = [x]) := by
    constructor
    · intro z hmem
      rcases List.mem_append.mp hmem with hmem | hmem
      · exact hp z hmem
      · obtain ⟨b, hb, rfl⟩ := List.mem_map.mp hmem
        exact hz.1 b hb
    · intro hc
      rw [hcoal] at hc
      obtain ⟨hnil, hgroups⟩ := hsingle hc
      have hzs : zs = [] := by
        by_contra hne
        rw [hz.2 hne] at hc
        exact absurd hc.symm Bool.false_ne_true
      exact ⟨by rw [hnil, hzs]; rfl, hgroups⟩
  cases heff with
  | frame hfirst hrd hw hr =>
    have hheld : s'.rd.held = s.rd.held := by
      rcases hrd with hrd | ⟨hrd, hrd'⟩
      · rw [hrd]
      · rw [hrd.held, hrd'.held]
    refine ⟨groups, pending, ?_, hp, hr ▸ hreads, hcoal ▸ hsingle⟩
    rw [hw, hheld, hfirst, hwritten]
  | drop zs hz hfirst hrd hrd' hw hr =>
    obtain ⟨hp', hsingle'⟩ := hthrow hz
    refine ⟨groups, pending ++ zs.map Block.data, ?_, hp', hr ▸ hreads, hsingle'⟩
    rw [hw, hwritten, hfirst, hrd.held, hrd'.held]
    simp only [List.nil_append, List.map_append, List.append_assoc]
  | append bs hfirst hrd hw hr =>
    refine ⟨groups, pending, ?_, hp, hr ▸ hreads, hcoal ▸ hsingle⟩
    rw [hw, hwritten, hfirst, hrd]
    simp only [List.map_append, List.append_assoc]
  | take zs first len hz hfirst hrd hrd' hfit' hw hr =>
    obtain ⟨hp', hsingle'⟩ := hthrow hz
    refine ⟨groups, pending ++ zs.map Block.data, ?_, hp', hr ▸ hreads, hsingle'⟩
    rw [hw, hwritten, hfirst, hrd.held, hrd']
    simp only [Rd.held, List.nil_append, List.map_append, List.append_assoc]
  | done len first hrd hrd' hfirst hw hr =>
    refine ⟨_, _, told_read (hfit len first hrd) hcoal hp hreads hsingle ?_ hr⟩
    rw [hw, hwritten, hfirst, hrd, hrd', hmsg, if_pos rfl]
    simp only [Rd.held, List.nil_append, List.map_append, List.append_assoc]
  | bread len b bs rest hfirst hfirst' hrd hrd' hrest hmsg' hw hr =>
    have hone : Fits s.q len [b] := .inl ⟨b, rfl⟩
    refine ⟨_, _, told_read hone hcoal hp hreads hsingle ?_ ?_⟩
    · rw [hw, hwritten, hfirst, hfirst', hrd.held, hrd', hmsg' hmsg]
      simp [Rd.held]
    · rw [hr, bytes_cons, bytes_nil, List.append_nil]

/-- Without coalescing each read returns the first bytes of one message, in order. -/
theorem Sys.Told.prefixes {groups : List (List (List UInt8))} {pending : List (List UInt8)}
    (h : s.Told groups pending) (hc : s.q.qcoalesce = false) :
    List.Forall₂ (· <+: ·) s.returned (s.written.take s.returned.length) ∧
      s.written.drop s.returned.length = (s.rd.held ++ s.q.bfirst).map Block.data := by
  obtain ⟨hnil, hgroups⟩ := h.single hc
  have hone {p : List UInt8} {x : List UInt8} (hread : ReadOf p [x]) : p <+: x := by
    rcases hread with rfl | ⟨zs, y, hy, -, hpre⟩
    · simp
    · have hlen := congrArg List.length hy
      rw [List.length_append, List.length_singleton, List.length_singleton] at hlen
      obtain rfl : zs = [] := List.eq_nil_of_length_eq_zero (by omega)
      rwa [List.singleton_inj.mp hy]
  have hflat : ∀ {ps : List (List UInt8)} {gs : List (List (List UInt8))},
      List.Forall₂ ReadOf ps gs → (∀ g ∈ gs, ∃ x, g = [x]) →
        List.Forall₂ (· <+: ·) ps gs.flatten := by
    intro ps gs hreads
    induction hreads with
    | nil => exact fun _ => .nil
    | cons hread _ ih =>
      intro hsingle
      obtain ⟨x, rfl⟩ := hsingle _ List.mem_cons_self
      exact .cons (hone hread) (ih fun g hg => hsingle g (List.mem_cons_of_mem _ hg))
  have hall := hflat h.reads hgroups
  have hw := h.written
  rw [hnil, List.append_nil] at hw
  rw [hw, hall.length_eq, List.take_left, List.drop_left]
  exact ⟨hall, rfl⟩

/-! ### Runs -/

/-- What readers and writers keep of a queue opened as `q`. -/
structure Sys.Kept (q : Queue) (s : Sys) : Prop where
  inv : s.Inv
  heldFits : s.HeldFits
  kind : s.q.kind = q.kind
  streams : q.qmsg = false → s.Streams
  told : q.qmsg = true → ∃ groups pending, s.Told groups pending

theorem kept_opened {q : Queue} (h₀ : Opened q) : Sys.Kept q { q := q } where
  inv := inv_opened h₀
  heldFits len first hcopy := absurd hcopy (by simp)
  kind := rfl
  streams _ := by simp [Sys.Streams, Rd.held, h₀.bfirst]
  told _ := ⟨[], [], by simp [Rd.held, h₀.bfirst], by simp, .nil, fun _ => ⟨rfl, by simp⟩⟩

theorem even_of_io (hio : Io e) : Even s e := by
  cases e with
  | op o =>
    cases o with
    | qpass b bs => trivial
    | _ => exact hio.elim
  | _ => trivial

theorem kept_step (h : s.Kept q) (hio : Io e) (hstep : Step s e s') : s'.Kept q := by
  obtain ⟨heff, hkind⟩ := effect_of_step h.inv h.heldFits hio hstep
  have hmsg : s.q.qmsg = q.qmsg := congrArg Prod.fst h.kind
  constructor
  · exact inv_step h.inv hstep (even_of_io hio)
  · exact effect_heldFits heff hkind h.heldFits
  · exact hkind.trans h.kind
  · intro hq
    exact streams_effect heff (hmsg.trans hq) (h.streams hq)
  · intro hq
    obtain ⟨groups, pending, ht⟩ := h.told hq
    exact told_effect heff hkind (hmsg.trans hq) h.heldFits ht

theorem kept_of_run {q : Queue} (h₀ : Opened q) (h : Run Step (fun _ e => Io e) { q := q } s) :
    s.Kept q := by
  refine h.invariant (kept_opened h₀) fun s e s' hkept hio hstep => ?_
  exact kept_step hkept hio hstep

/-- In every run of readers and writers, in any interleaving: on a stream, the bytes returned,
those that a reader copies and those in the queue are the bytes written. On a message queue each
read returns the first bytes of one message; if the queue coalesces, it returns those of one message
behind empty ones, or several whole messages. -/
theorem fidelity_of_run {q : Queue} (h₀ : Opened q)
    (h : Run Step (fun _ e => Io e) { q := q } s) :
    (q.qmsg = false →
      s.returned.flatten ++ bytes s.rd.held ++ bytes s.q.bfirst = s.written.flatten) ∧
    (q.qmsg = true → q.qcoalesce = false →
      List.Forall₂ (· <+: ·) s.returned (s.written.take s.returned.length) ∧
        s.written.drop s.returned.length = (s.rd.held ++ s.q.bfirst).map Block.data) ∧
    (q.qmsg = true → q.qcoalesce = true → ∃ groups pending,
      s.written = groups.flatten ++ pending ++ (s.rd.held ++ s.q.bfirst).map Block.data ∧
        (∀ z ∈ pending, z = []) ∧ List.Forall₂ ReadOf s.returned groups) := by
  obtain ⟨-, -, hkind, hstream, htold⟩ := kept_of_run h₀ h
  refine ⟨hstream, fun hq hc => ?_, fun hq hc => ?_⟩
  · obtain ⟨groups, pending, ht⟩ := htold hq
    exact ht.prefixes ((congrArg Prod.snd hkind).trans hc)
  · obtain ⟨groups, pending, ht⟩ := htold hq
    exact ⟨groups, pending, ht.written, ht.empty, ht.reads⟩

theorem fidelity_of_run_write :
    let s : Sys := { q := small }
    let b : Block := { addr := 1, data := [1, 2] }
    let s' : Sys :=
      { (s.put (qbwritePut small b).2.1 true false).enter [b] with wr := .test }
    (small.qmsg = false →
      s'.returned.flatten ++ bytes s'.rd.held ++ bytes s'.q.bfirst = s'.written.flatten) ∧
    (small.qmsg = true → small.qcoalesce = false →
      List.Forall₂ (· <+: ·) s'.returned (s'.written.take s'.returned.length) ∧
        s'.written.drop s'.returned.length = (s'.rd.held ++ s'.q.bfirst).map Block.data) ∧
    (small.qmsg = true → small.qcoalesce = true → ∃ groups pending,
      s'.written = groups.flatten ++ pending ++ (s'.rd.held ++ s'.q.bfirst).map Block.data ∧
        (∀ z ∈ pending, z = []) ∧ List.Forall₂ ReadOf s'.returned groups) :=
  fidelity_of_run opened_small
    (.snoc .nil (e := .write { addr := 1, data := [1, 2] }) trivial ⟨by decide, rfl⟩)

/-- Two messages of one byte each are returned by one read of a message queue that coalesces. -/
theorem two_messages_in_one_read :
    ¬ ∀ (q : Queue) (s : Sys), Opened q → Run Step (fun _ e => Io e) { q := q } s →
      q.qmsg = true → List.Forall₂ (· <+: ·) s.returned (s.written.take s.returned.length) := by
  intro h
  have hrun := h { limit := 100, qmsg := true, qcoalesce := true } _ ⟨rfl, rfl, rfl, rfl, rfl, rfl⟩
    (.snoc (.snoc (.snoc (.snoc (.snoc .nil
      (e := .op (.qpass { addr := 1, data := [1] } [])) trivial ⟨by decide, rfl⟩)
      (e := .op (.qpass { addr := 2, data := [2] } [])) trivial ⟨by decide, rfl⟩)
      (e := .read (.qread 10)) trivial ⟨by decide, rfl⟩)
      (e := .readStep { addr := 3 }) trivial ⟨by decide, rfl⟩)
      (e := .readStep { addr := 3 }) trivial ⟨by decide, rfl⟩) rfl
  rcases hrun with _ | ⟨hpre, -⟩
  exact absurd hpre (by decide)

/-! ### The blocks of `qwrite` -/

theorem bytes_mem2bl (ms : ℕ → Mem) (p : List UInt8) : bytes (mem2bl ms p) = p := by
  induction ms, p using mem2bl.induct with
  | case1 ms p hle =>
    rw [mem2bl, if_pos hle, bytes_cons, bytes_nil, List.append_nil]
    rfl
  | case2 ms p hle ih =>
    rw [mem2bl, if_neg hle, bytes_cons, ih]
    exact List.take_append_drop Maxatomic p

/-- A stream is written whole; a message only up to `Maxatomic` bytes. -/
theorem bytes_qwriteBlocks (qmsg : Bool) (ms : ℕ → Mem) (p : List UInt8) :
    bytes (qwriteBlocks qmsg ms p) = if qmsg then p.take Maxatomic else p := by
  cases qmsg with
  | false => exact bytes_mem2bl ms p
  | true =>
    rw [qwriteBlocks, if_pos rfl, if_pos rfl, mem2bl]
    split_ifs with hle
    · rw [List.take_of_length_le hle]
      simp
    · simp

end PlanNine.Qio
