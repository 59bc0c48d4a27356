import PlanNine.Port.Tls.RoundTrip

/-!
# Reads that are interrupted

A process that reads a connection may be interrupted while it waits for the channel. `tlsrecread`
then puts back what it has taken of a record, and when the process calls again the same record is
gathered, as if it had waited on. The process may also be interrupted when it has queued a message
for the handshaker and waits for the queue to get below its limit. There the code counts on the
message being queued, but it takes the interruption for an error of the channel, ends the connection
and frees the message that is on the queue.

## Main definitions

* `Io.calm`: the blocks without the interruptions.
* `Gentle`: the process is not interrupted while it waits for the queue of handshake messages.
* `Calls`: the calls of `tlsrecread` and what else is done with the connection, with a list of what
  was gathered and of the connection after it was processed.

## Main results

* `gather_interrupted`: after an interrupted call the same record is gathered as without it.
* `alike_finish`: what is done with a record does not depend on the interruptions.
* `calls_calm`: the records processed, and the connection after each, are those of the run without
  interruptions, exactly in runs where the process is not interrupted at the queue.
-/

namespace PlanNine.Tls

variable {R D : Type} {L : Libsec R D} {tr tr' : TlsRec R D} {io io' : Io}
  {un un' l l' : List Block}
  {input input' : List Bread} {n m : ℕ}

/-! ### Blocks without their interruptions -/

def Bread.interrupts : Bread → Bool
  | .blocks _ => false
  | .fail msg => msg = Eintr

/-- What the channel gives, without the interruptions. -/
def calm (input : List Bread) : List Bread := input.filter fun r => ¬ r.interrupts

def Io.calm (io : Io) : Io := ⟨io.unprocessed, Tls.calm io.input⟩

/-- The blocks without the empty ones in front. -/
def norm (l : List Block) : List Block := l.dropWhile fun b => b.data = []

/-- The same but for empty blocks in front. -/
structure Near (io io' : Io) : Prop where
  un : norm io.unprocessed = norm io'.unprocessed
  input : io.input = io'.input

theorem norm_cons (b : Block) (l : List Block) :
    norm (b :: l) = if b.data = [] then norm l else b :: l := by
  rw [norm, List.dropWhile_cons]
  simp only [decide_eq_true_eq]
  rfl

theorem bytes_norm (l : List Block) : bytes (norm l) = bytes l := by
  induction l with
  | nil => rfl
  | cons b l ih =>
    rw [norm_cons]
    split
    · rename_i hb
      rw [ih]
      change bytes l = b.data ++ bytes l
      rw [hb, List.nil_append]
    · rfl

theorem norm_append (h : norm l = norm l') (bl : List Block) :
    norm (l ++ bl) = norm (l' ++ bl) := by
  unfold norm at h ⊢
  rw [List.dropWhile_append, List.dropWhile_append, h]

/-- Bytes are taken from behind the empty blocks in front. -/
theorem consume_norm (hn : 0 < n) : consume l n = consume (norm l) n := by
  induction l with
  | nil => rfl
  | cons b l ih =>
    rw [norm_cons]
    split
    · rename_i hb
      rw [← ih, consume, if_neg (by omega), hb, List.length_nil, if_neg (by omega)]
      rfl
    · rfl

theorem ensure_near (n : ℕ) (input : List Bread) (h : norm un = norm un') :
    (ensure n un input).1 = (ensure n un' input).1 ∧
      Near (ensure n un input).2 (ensure n un' input).2 := by
  have hlen : (bytes un).length = (bytes un').length := by
    rw [← bytes_norm un, h, bytes_norm]
  induction input generalizing un un' with
  | nil =>
    rw [ensure.eq_def, ensure.eq_def n un']
    dsimp only
    rw [hlen]
    split
    · exact ⟨rfl, h, rfl⟩
    · exact ⟨rfl, h, rfl⟩
  | cons r input ih =>
    rw [ensure.eq_def, ensure.eq_def n un']
    dsimp only
    rw [hlen]
    split
    · exact ⟨rfl, h, rfl⟩
    cases r with
    | fail msg => exact ⟨rfl, h, rfl⟩
    | blocks bl =>
      dsimp only
      have happ := norm_append h bl
      split
      · exact ⟨rfl, happ, rfl⟩
      · exact ih happ (by rw [← bytes_norm, happ, bytes_norm])

/-- `qgrab` gives what `consume` does. -/
theorem qgrab_eq_consume (hn : 0 < n) (hle : n ≤ (bytes l).length) :
    (qgrab l n).map (fun r => (r.1.data, r.2)) = some (consume l n) := by
  cases l with
  | nil =>
    simp only [bytes, List.map_nil, List.flatten_nil, List.length_nil] at hle
    omega
  | cons b l =>
    rw [qgrab]
    split
    · rename_i heq
      have hzero : consume l 0 = ([], l) := by
        cases l <;> rfl
      rw [consume, if_neg (by omega), if_neg (by omega), heq, Nat.sub_self, hzero]
      dsimp only
      rw [List.append_nil]
      rfl
    · rw [min_eq_left hle]
      rfl

/-- What is put back is taken first. -/
theorem consume_regurgitate {p : List UInt8} (hp : p.length = RecHdrLen) : ∃ u,
    consume (regurgitate p l) RecHdrLen = (p, u) ∧ norm u = norm l := by
  have hne : p ≠ [] := by
    rintro rfl
    exact absurd hp (by decide)
  have hzero : ∀ l, consume l 0 = ([], l) := by
    intro l
    cases l <;> rfl
  have halloc : ∀ l, consume (allocb p :: l) RecHdrLen = (p, l) := by
    intro l
    rw [consume, if_neg (by decide), allocb, ← hp, if_neg (lt_irrefl _), Nat.sub_self, hzero]
    dsimp only
    rw [List.append_nil]
  unfold regurgitate
  rw [if_neg hne]
  cases l with
  | nil => exact ⟨[], halloc [], rfl⟩
  | cons b l =>
    dsimp only
    split
    · exact ⟨b :: l, halloc _, rfl⟩
    rename_i hroom
    rw [consume, if_neg (by decide)]
    dsimp only
    split
    · refine ⟨b :: l, ?_, rfl⟩
      rw [← hp, List.take_left, List.drop_left, Nat.sub_add_cancel (not_lt.mp hroom)]
    · rename_i hlt
      have hb : b.data = [] := by
        rw [List.length_append, hp] at hlt
        exact List.length_eq_zero_iff.mp (by omega)
      refine ⟨l, ?_, ?_⟩
      · rw [hb, List.append_nil, hp, Nat.sub_self, hzero, List.append_nil]
      · rw [norm_cons, if_pos hb]

theorem length_regurgitate {p : List UInt8} (hp : p.length = RecHdrLen) :
    RecHdrLen ≤ (bytes (regurgitate p l)).length := by
  have hne : p ≠ [] := by
    rintro rfl
    exact absurd hp (by decide)
  have hcons : ∀ (b : Block) l, (bytes (b :: l)).length = b.data.length + (bytes l).length := by
    intro b l
    exact List.length_append
  unfold regurgitate
  rw [if_neg hne]
  cases l with
  | nil =>
    rw [hcons, allocb, hp]
    exact Nat.le_add_right _ _
  | cons b l =>
    dsimp only
    split
    · rw [hcons, allocb, hp]
      exact Nat.le_add_right _ _
    · rw [hcons, List.length_append, hp]
      omega

/-! ### Gathering with and without interruptions -/

theorem calm_cons_blocks (bl : List Block) (input : List Bread) :
    calm (.blocks bl :: input) = .blocks bl :: calm input := rfl

/-- A call that is not interrupted does not meet an interruption. -/
theorem ensure_calm {e : Ensured} (h : ensure n un input = (e, io)) (he : e ≠ .error Eintr) :
    ensure n un (calm input) = (e, io.calm) := by
  induction input generalizing un with
  | nil =>
    rw [ensure.eq_def] at h ⊢
    dsimp only [calm, List.filter_nil] at h ⊢
    split at h <;> cases h
    · rw [if_pos ‹_›]
      rfl
    · rw [if_neg ‹_›]
      rfl
  | cons r input ih =>
    by_cases hle : n ≤ (bytes un).length
    · rw [ensure_of_le hle] at h ⊢
      cases h
      rfl
    · cases r with
      | fail msg =>
        have hres : ensure n un (.fail msg :: input) = (.error msg, ⟨un, input⟩) := if_neg hle
        rw [hres] at h
        cases h
        have hmsg : msg ≠ Eintr := fun heq => he (congrArg _ heq)
        have hcalm : calm (.fail msg :: input) = .fail msg :: calm input := by
          rw [calm, List.filter_cons_of_pos]
          · rfl
          · simpa [Bread.interrupts] using hmsg
        rw [hcalm]
        exact if_neg hle
      | blocks bl =>
        rw [calm_cons_blocks]
        by_cases hnil : bytes bl = []
        · have hres : ∀ input, ensure n un (.blocks bl :: input) =
              (.error Ehungup, ⟨un ++ bl, input⟩) := fun _ => (if_neg hle).trans (if_pos hnil)
          rw [hres] at h ⊢
          cases h
          rfl
        · have hres : ∀ input, ensure n un (.blocks bl :: input) = ensure n (un ++ bl) input :=
            fun _ => (if_neg hle).trans (if_neg hnil)
          rw [hres] at h ⊢
          exact ih h

/-- After an interruption the bytes are made sure of as they would have been. -/
theorem ensure_interrupted (h : ensure n un input = (.error Eintr, io)) (hnm : n ≤ m) :
    ensure m un (calm input) = ensure m io.unprocessed (calm io.input) ∧ 0 < n := by
  induction input generalizing un with
  | nil =>
    rw [ensure.eq_def] at h
    dsimp only at h
    split at h <;> cases h
  | cons r input ih =>
    by_cases hle : n ≤ (bytes un).length
    · rw [ensure_of_le hle] at h
      cases h
    · have hlt : ¬ m ≤ (bytes un).length := by omega
      cases r with
      | fail msg =>
        have hres : ensure n un (.fail msg :: input) = (.error msg, ⟨un, input⟩) := if_neg hle
        rw [hres] at h
        cases h
        refine ⟨?_, by omega⟩
        rw [calm, List.filter_cons_of_neg]
        · rfl
        · simp [Bread.interrupts]
      | blocks bl =>
        by_cases hnil : bytes bl = []
        · have hres : ensure n un (.blocks bl :: input) =
              (.error Ehungup, ⟨un ++ bl, input⟩) := (if_neg hle).trans (if_pos hnil)
          rw [hres] at h
          exact absurd (congrArg Prod.fst h) (by simp [Ehungup, Eintr])
        · have hres : ensure n un (.blocks bl :: input) = ensure n (un ++ bl) input :=
            (if_neg hle).trans (if_neg hnil)
          have hres' : ensure m un (.blocks bl :: calm input) = ensure m (un ++ bl) (calm input) :=
            (if_neg hlt).trans (if_neg hnil)
          rw [hres] at h
          rw [calm_cons_blocks, hres']
          exact ih h

/-- Two states of the blocks from which the same record is gathered, headers being read by
`tr`. -/
def Same (tr : TlsRec R D) (io io' : Io) : Prop :=
  (gather tr io).1 = (gather tr io').1 ∧
    ∀ r, (gather tr io).1 = .record r → Near (gather tr io).2 (gather tr io').2

theorem Same.trans {io'' : Io} (h : Same tr io io') (h' : Same tr io' io'') : Same tr io io'' :=
  ⟨h.1.trans h'.1, fun r hr =>
    ⟨(h.2 r hr).un.trans (h'.2 r (h.1 ▸ hr)).un, (h.2 r hr).input.trans (h'.2 r (h.1 ▸ hr)).input⟩⟩

theorem ensure_ok_le (h : ensure n un input = (.ok, io)) : n ≤ (bytes io.unprocessed).length := by
  induction input generalizing un with
  | nil =>
    rw [ensure.eq_def] at h
    dsimp only at h
    split at h <;> cases h
    assumption
  | cons r input ih =>
    by_cases hle : n ≤ (bytes un).length
    · rw [ensure_of_le hle] at h
      cases h
      exact hle
    · cases r with
      | fail msg =>
        have hres : ensure n un (.fail msg :: input) = (.error msg, ⟨un, input⟩) := if_neg hle
        rw [hres] at h
        cases h
      | blocks bl =>
        by_cases hnil : bytes bl = []
        · have hres : ensure n un (.blocks bl :: input) =
              (.error Ehungup, ⟨un ++ bl, input⟩) := (if_neg hle).trans (if_pos hnil)
          rw [hres] at h
          cases h
        · have hres : ensure n un (.blocks bl :: input) = ensure n (un ++ bl) input :=
            (if_neg hle).trans (if_neg hnil)
          rw [hres] at h
          exact ih h

/-- A body that is not empty is gathered from behind the empty blocks in front. -/
theorem gatherBody_near {header : List UInt8} {type ver len : ℕ} (h : Near io io')
    (hp : parse tr header = .ok (type, ver, len)) (hlen : 0 < len) :
    (gatherBody tr header io).1 = (gatherBody tr header io').1 ∧
      ∀ r, (gatherBody tr header io).1 = .record r →
        Near (gatherBody tr header io).2 (gatherBody tr header io').2 := by
  obtain ⟨hun, hin⟩ := h
  rw [gatherBody, gatherBody, hp, ← hin]
  dsimp only
  obtain ⟨hkind, hnear⟩ := ensure_near len io.input hun
  rcases he : ensure len io.unprocessed io.input with ⟨e, io₁⟩
  rcases he' : ensure len io'.unprocessed io.input with ⟨e', io₂⟩
  rw [he, he'] at hkind hnear
  dsimp only at hkind hnear
  subst hkind
  cases e with
  | waits => exact ⟨rfl, by rintro _ ⟨⟩⟩
  | error msg => exact ⟨rfl, by rintro _ ⟨⟩⟩
  | ok =>
    have hq := qgrab_eq_consume hlen (ensure_ok_le he)
    have hq' := qgrab_eq_consume hlen (ensure_ok_le he')
    rw [consume_norm hlen, hnear.un, ← consume_norm hlen] at hq
    rw [Option.map_eq_some_iff] at hq hq'
    obtain ⟨⟨b, u⟩, hg, hb⟩ := hq
    obtain ⟨⟨b', u'⟩, hg', hb'⟩ := hq'
    have heq := hb.trans hb'.symm
    simp only [Prod.mk.injEq] at heq
    obtain ⟨hdata, rfl⟩ := heq
    dsimp only
    rw [hg, hg']
    dsimp only
    rw [hdata, hnear.input]
    exact ⟨rfl, fun _ _ => ⟨rfl, rfl⟩⟩

/-- From blocks that are the same but for empty ones in front the same record is gathered. -/
theorem Near.same (h : Near io io') (tr : TlsRec R D) : Same tr io io' := by
  obtain ⟨hun, hin⟩ := h
  rw [Same, gather, gather, ← hin]
  obtain ⟨hkind, hnear⟩ := ensure_near RecHdrLen io.input hun
  rcases he : ensure RecHdrLen io.unprocessed io.input with ⟨e, io₁⟩
  rcases he' : ensure RecHdrLen io'.unprocessed io.input with ⟨e', io₂⟩
  rw [he, he'] at hkind hnear
  dsimp only at hkind hnear
  subst hkind
  cases e with
  | waits => exact ⟨rfl, by rintro _ ⟨⟩⟩
  | error msg => exact ⟨rfl, by rintro _ ⟨⟩⟩
  | ok =>
    have hpos : 0 < RecHdrLen := by decide
    have hc : consume io₁.unprocessed RecHdrLen = consume io₂.unprocessed RecHdrLen := by
      rw [consume_norm hpos, hnear.un, ← consume_norm hpos]
    dsimp only
    rw [hc, hnear.input]
    exact ⟨rfl, fun _ _ => ⟨rfl, rfl⟩⟩

/-- After an interrupted call the same record is gathered as without it, unless headers are read in
another way by then. -/
theorem gather_interrupted (h : gather tr io = (.stop Eintr, io')) (htr : parse tr' = parse tr) :
    Same tr' io'.calm io.calm := by
  rw [gather] at h
  rcases he : ensure RecHdrLen io.unprocessed io.input with ⟨e, io₁⟩
  rw [he] at h
  cases e with
  | waits => cases h
  | error msg =>
    -- the header was not complete, and nothing was taken
    cases h
    obtain ⟨hsame, -⟩ := ensure_interrupted he le_rfl
    have hgather : gather tr' io.calm = gather tr' io'.calm := by
      unfold gather Io.calm
      rw [hsame]
    rw [Same, hgather]
    exact ⟨rfl, fun _ _ => ⟨rfl, rfl⟩⟩
  | ok =>
    dsimp only at h
    have hlen : (consume io₁.unprocessed RecHdrLen).1.length = RecHdrLen := by
      rw [(consume_spec (ensure_ok_le he)).1, List.length_take, min_eq_left (ensure_ok_le he)]
    rw [gatherBody] at h
    split at h
    · cases h
    rename_i type ver len hp
    rcases he₁ : ensure len (consume io₁.unprocessed RecHdrLen).2 io₁.input with ⟨e, io₂⟩
    dsimp only at h
    rw [he₁] at h
    cases e with
    | waits => cases h
    | ok =>
      dsimp only at h
      split at h <;> cases h
    | error msg =>
      simp only [Prod.mk.injEq, Gathered.stop.injEq] at h
      obtain ⟨rfl, rfl⟩ := h
      rw [if_pos rfl]
      -- the header was put back, and is taken again
      obtain ⟨hsame, hpos⟩ := ensure_interrupted he₁ le_rfl
      obtain ⟨u, hu, hnorm⟩ := consume_regurgitate (l := io₂.unprocessed) hlen
      rw [← htr] at hp
      have hcalm : gather tr' io.calm = gatherBody tr' (consume io₁.unprocessed RecHdrLen).1
          ⟨io₂.unprocessed, calm io₂.input⟩ := by
        rw [gather, Io.calm, ensure_calm he (by rintro ⟨⟩)]
        dsimp only [Io.calm]
        rw [gatherBody, gatherBody, hp]
        dsimp only
        rw [hsame]
      have hback : gather tr' (Io.calm ⟨regurgitate (consume io₁.unprocessed RecHdrLen).1
          io₂.unprocessed, io₂.input⟩) = gatherBody tr' (consume io₁.unprocessed RecHdrLen).1
            ⟨u, calm io₂.input⟩ := by
        rw [gather, Io.calm, ensure_of_le (length_regurgitate hlen)]
        dsimp only
        rw [hu]
      rw [Same, hcalm, hback]
      exact gatherBody_near ⟨hnorm, rfl⟩ hp hpos

/-- A call that is not interrupted gathers what it would without interruptions. -/
theorem gather_calm {g : Gathered} (h : gather tr io = (g, io')) (hg : g ≠ .stop Eintr) :
    gather tr io.calm = (g, io'.calm) := by
  rw [gather] at h
  rcases he : ensure RecHdrLen io.unprocessed io.input with ⟨e, io₁⟩
  rw [he] at h
  have hne : e ≠ .error Eintr := by
    rintro rfl
    cases h
    exact hg rfl
  rw [gather, Io.calm, ensure_calm he hne]
  cases e with
  | waits =>
    cases h
    rfl
  | error msg =>
    cases h
    rfl
  | ok =>
    dsimp only [Io.calm] at h ⊢
    rw [gatherBody] at h ⊢
    split at h
    · cases h
      rfl
    rename_i type ver len hp
    dsimp only at h ⊢
    rcases he₁ : ensure len (consume io₁.unprocessed RecHdrLen).2 io₁.input with ⟨e, io₂⟩
    rw [he₁] at h
    have hne₁ : e ≠ .error Eintr := by
      rintro rfl
      cases h
      exact hg rfl
    rw [ensure_calm he₁ hne₁]
    cases e with
    | waits =>
      cases h
      rfl
    | error msg =>
      have hmsg : msg ≠ Eintr := fun heq => hne₁ (congrArg _ heq)
      simp only [if_neg hmsg] at h ⊢
      cases h
      rfl
    | ok =>
      dsimp only [Io.calm] at h ⊢
      cases hq : qgrab io₂.unprocessed len with
      | none =>
        rw [hq] at h
        cases h
        rfl
      | some r =>
        rw [hq] at h
        cases h
        rfl

/-! ### What is done with a record -/

/-- The same without the interruptions. -/
def Notes.calm (n : Notes) : Notes := { write := n.write.filter (· ≠ Eintr) }

/-- The process is not interrupted while it waits for the queue of handshake messages with a message
that it will process on. -/
structure Gentle (n : Notes) : Prop where
  hand : n.hand = false
  alert : n.alert = false

/-- The process is not interrupted. -/
def Calm (n : Notes) : Prop := n.calm = n

theorem Calm.gentle {n : Notes} (h : Calm n) : Gentle n := by
  rw [← h]
  exact ⟨rfl, rfl⟩

theorem calm_calm (n : Notes) : Calm n.calm := by
  unfold Calm Notes.calm
  dsimp only
  rw [Option.filter_filter]
  simp

section Notes

variable (n : Notes)

theorem akin_qbwrite (b : List UInt8) (i i' : Bool) :
    Kern.Akin (qbwrite b i : Conn R D Unit) (qbwrite b i') := by
  refine .bind fun _ s => ?_
  cases i <;> cases i' <;> exact ⟨rfl, fun _ => ⟨nofun, nofun⟩⟩

theorem akin_alertHand (msg : String) (i i' : Bool) :
    Kern.Akin (alertHand msg i : Conn R D Unit) (alertHand msg i') := by
  refine .bind fun tr => ?_
  split
  · exact akin_qbwrite _ i i'
  · exact .refl _

theorem akin_tlsError (msg : String) :
    Kern.Akin (tlsError msg n : Conn R D Unit) (tlsError msg n.calm) := by
  refine .bind fun tr => ?_
  split
  · exact .refl _
  · exact .bind fun _ => akin_alertHand msg _ _

/-- How a write to the channel ends. -/
theorem akin_written : Kern.Akin
    (match n.write with
      | none => pure ()
      | some e => do
        if e ≠ Eintr then tlsError "channel error" n else pure ()
        Kern.error e : Conn R D Unit)
    (match n.calm.write with
      | none => pure ()
      | some e => do
        if e ≠ Eintr then tlsError "channel error" n.calm else pure ()
        Kern.error e) := by
  have hcalm : n.calm.write = n.write.filter (· ≠ Eintr) := rfl
  rw [hcalm]
  cases n.write with
  | none => exact .refl _
  | some e =>
    by_cases he : e = Eintr
    · subst he
      exact fun _ => ⟨rfl, fun _ => ⟨nofun, nofun⟩⟩
    · have hsome : (some e).filter (· ≠ Eintr) = some e := by simp [he]
      rw [hsome]
      dsimp only
      rw [if_pos he, if_pos he]
      exact ((akin_tlsError n _).then_error (fun _ _ => ⟨e, rfl⟩) fun _ _ => ⟨e, rfl⟩).akin

theorem akin_sendrec (type : ℕ) (body : List UInt8) :
    Kern.Akin (sendrec L type body n) (sendrec L type body n.calm) := by
  refine .bind fun tr => .bind fun _ => ?_
  dsimp only
  refine .ite (fun _ => .ite (fun _ => ?_) fun _ => ?_) fun _ => ?_
  · exact .bind fun _ => .bind fun _ => akin_written n
  · exact .bind fun _ => .bind fun _ => akin_written n
  · exact .bind fun _ => akin_written n

/-- A body that fits in a record. -/
theorem akin_tlsrecwrite (type : ℕ) {b : List UInt8} (hb : b.length ≤ MaxRecLen) :
    Kern.Akin (tlsrecwrite L type b n) (tlsrecwrite L type b n.calm) := by
  have hone : ∀ n, tlsrecwrite L type b n = (do
      checkstate (type ≠ RApplication) (okstates type)
      sendrec L type (b.take MaxRecLen) n
      pure ()) := by
    intro n
    rw [tlsrecwrite, tlsrecwriteLoop, if_neg (by omega)]
  rw [hone, hone]
  exact .bind fun _ => (akin_sendrec n type _).bind_pure ()

theorem akin_sendAlert (err : ℕ) : Kern.Akin (sendAlert L err n) (sendAlert L err n.calm) := by
  refine .bind fun tr => ?_
  dsimp only
  generalize Option.getD _ (err, true, "tls unknown alert") = e
  obtain ⟨code, fatal, msg⟩ := e
  dsimp only
  have hwrite : ∀ c : UInt8, Kern.Akin (do
        if fatal then tlsSetState .SAlert [.SOpen, .SHandshake, .SRClose] else pure ()
        tlsrecwrite L RAlert [if fatal then 2 else 1, c] n) (do
        if fatal then tlsSetState .SAlert [.SOpen, .SHandshake, .SRClose] else pure ()
        tlsrecwrite L RAlert [if fatal then 2 else 1, c] n.calm) := by
    intro c
    cases fatal with
    | false => exact akin_tlsrecwrite n RAlert (show 2 ≤ MaxRecLen by decide)
    | true => exact .bind fun _ => akin_tlsrecwrite n RAlert (show 2 ≤ MaxRecLen by decide)
  rw [(hwrite (uchar code)).ignore]
  refine .bind fun _ => ?_
  cases fatal with
  | false => exact .refl _
  | true => exact akin_tlsError n msg

theorem error_opened {α : Type} (e e' : String) (tr : TlsRec R D) : ∃ msg,
    (do
      let tr ← Kern.get
      if tr.opened then Kern.error e else Kern.error e' : Conn R D α) tr =
        (.error (.error msg), tr) := by
  change ∃ msg, (if tr.opened then Kern.error e else Kern.error e' : Conn R D α) tr = _
  split
  · exact ⟨e, rfl⟩
  · exact ⟨e', rfl⟩

theorem alike_rcvError {α : Type} (err : ℕ) (msg : String) :
    Kern.Alike (rcvError L err msg n : Conn R D α) (rcvError L err msg n.calm) := by
  exact (akin_sendAlert n err).then_error (fun _ => error_opened _ _) fun _ => error_opened _ _

theorem alike_rcvAlert {α : Type} (err : ℕ) :
    Kern.Alike (rcvAlert err n : Conn R D α) (rcvAlert err n.calm) := by
  exact (akin_tlsError n _).then_error (fun _ => error_opened _ _) fun _ => error_opened _ _

theorem alike_channelError (e e' : String) :
    Kern.Alike (channelError n e : Conn R D Unit) (channelError n.calm e') :=
  (akin_tlsError n _).then_error (fun _ _ => ⟨e, rfl⟩) fun _ _ => ⟨e', rfl⟩

theorem akin_tlsclosed (new : State) :
    Kern.Akin (tlsclosed new n : Conn R D Unit) (tlsclosed new n.calm) :=
  .bind fun _ => akin_alertHand _ _ _

theorem alike_warnrec (h : Gentle n) (code : ℕ) :
    Kern.Alike (warnrec L code n) (warnrec L code n.calm) := by
  unfold warnrec
  have halert : n.calm.alert = n.alert := h.alert.symm
  rw [halert]
  refine .ite (fun _ => ?_) fun _ => .ite (fun _ => .refl _) fun _ => .ite (fun _ => .refl _)
    fun _ => alike_rcvError n _ _
  exact (akin_tlsclosed n _).then_error (fun _ => error_opened _ _) fun _ => error_opened _ _

theorem alike_handrec (h : Gentle n) (b : List UInt8) :
    Kern.Alike (handrec L b n) (handrec L b n.calm) := by
  have hhand : n.calm.hand = n.hand := h.hand.symm
  unfold handrec
  rw [hhand, (akin_sendAlert n ENoRenegotiation).ignore]
  exact .refl _

/-- What is done by the type of a record. -/
theorem alike_act (h : Gentle n) (r : Rec) (p : List UInt8) :
    Kern.Alike (act L r p n) (act L r p n.calm) := by
  unfold act
  refine .ite (fun _ => .ite (fun _ => alike_rcvError n _ _) fun _ => ?_) fun _ => ?_
  · refine .bind (.refl _) fun tr => ?_
    exact .ite (fun _ => alike_rcvError n _ _) fun _ => .refl _
  refine .ite (fun _ => .ite (fun _ => alike_rcvError n _ _) fun _ => ?_) fun _ => ?_
  · exact .ite (fun _ => alike_rcvAlert n _) fun _ => .ite (fun _ => alike_rcvError n _ _)
      fun _ => alike_warnrec n h _
  refine .ite (fun _ => alike_handrec n h _) fun _ =>
    .ite (fun _ => alike_handrec n h _) fun _ => ?_
  refine .ite (fun _ => ?_) fun _ => alike_rcvError n _ _
  refine .bind (.refl _) fun tr => ?_
  exact .ite (fun _ => .refl _) fun _ => alike_rcvError n _ _

theorem alike_unwraprec (room : ℕ) (r : Rec) :
    Kern.Alike (unwraprec L room r n) (unwraprec L room r n.calm) := by
  refine .bind (.refl _) fun tr => ?_
  cases tr.inn.sec with
  | none => exact .refl _
  | some sec =>
    refine .bind (.refl _) fun _ => ?_
    exact .ite (fun _ => .refl _) fun _ => .ite (fun _ => alike_rcvError n _ _) fun _ => .refl _

theorem alike_process (h : Gentle n) (room : ℕ) (r : Rec) :
    Kern.Alike (process L room r n) (process L room r n.calm) := by
  refine .waserror (.bind (alike_unwraprec n room r) fun p => ?_) (alike_channelError n)
  exact .ite (fun _ => alike_rcvError n _ _) fun _ => alike_act n h r p

/-- An error of the connection ends it. -/
theorem tlsError_spec (msg : String) (tr : TlsRec R D) : (tlsError msg n).wp
    (fun _ tr' => tr'.state = .SError) (fun e tr' => (∃ msg, e = .error msg) ∧ tr'.state = .SError)
    tr := by
  unfold tlsError
  simp only [Kern.wp_bind, Kern.wp_get, Kern.wp_ite, Kern.wp_pure, Kern.wp_modify]
  split
  · assumption
  unfold alertHand
  simp only [Kern.wp_bind, Kern.wp_get, Kern.wp_ite, Kern.wp_pure]
  split
  · unfold qbwrite
    simp only [Kern.wp_bind, Kern.wp_modify, Kern.wp_ite, Kern.wp_pure, Kern.wp_error]
    split
    · exact ⟨⟨_, rfl⟩, trivial⟩
    · trivial
  · trivial

theorem channelError_of_SError {tr : TlsRec R D} (e : String) (h : tr.state = .SError) :
    (channelError n e : Conn R D Unit) tr = (.error (.error e), tr) := by
  have hquiet : tlsError "channel error" n tr = (.ok (), tr) := by
    change (if tr.state = .SError then pure () else _ : Conn R D Unit) tr = _
    rw [if_pos h]
    rfl
  rw [channelError, Kern.bind_of_ok hquiet]
  rfl

/-- After an error of the channel the connection is ended, unless the machine stopped. -/
theorem channelError_spec (e : String) (tr : TlsRec R D) : (channelError n e : Conn R D Unit).wp
    (fun _ _ => False) (fun _ tr' => tr'.state = .SError) tr := by
  unfold channelError
  rw [Kern.wp_bind]
  exact Kern.wp_mono (tlsError_spec n _ tr) (fun _ _ h => h) fun _ _ h => h.2

/-- After a fatal error in the stream too. -/
theorem rcvError_spec {err : ℕ} (herr : err = EProtocolVersion ∨ err = ERecordOverflow)
    (msg : String) (tr : TlsRec R D) : (rcvError L err msg n : Conn R D Unit).wp (fun _ _ => False)
      (fun e tr' =>
        (∃ why, e = .panic why) ∨ (∃ msg, e = .error msg) ∧ tr'.state = .SError) tr := by
  have hcaught : ∀ (m : Conn R D Unit) (tr : TlsRec R D), (Kern.waserror m fun _ => pure ()).wp
      (fun _ _ => True) (fun e _ => ∃ why, e = .panic why) tr := by
    intro m tr
    rw [Kern.wp_waserror, Kern.wp_iff_forall]
    refine ⟨fun _ _ _ => trivial, fun e _ _ => ?_⟩
    cases e with
    | error msg => trivial
    | panic why => exact ⟨why, rfl⟩
  have halert : (sendAlert L err n).wp (fun _ tr' => tr'.state = .SError)
      (fun e tr' =>
        (∃ why, e = .panic why) ∨ (∃ msg, e = .error msg) ∧ tr'.state = .SError) tr := by
    unfold sendAlert
    obtain rfl | rfl := herr <;>
    · rw [Kern.wp_bind, Kern.wp_get]
      dsimp only
      rw [Kern.wp_bind]
      refine Kern.wp_mono (hcaught _ tr) (fun _ tr' _ => ?_) fun _ _ h => .inl h
      exact Kern.wp_mono (tlsError_spec n _ tr') (fun _ _ h => h) fun _ _ h => .inr h
  rw [rcvError, Kern.wp_bind]
  refine Kern.wp_mono halert (fun _ tr' h => ?_) fun _ _ h => h
  obtain ⟨e, he⟩ := error_opened (α := Unit) "tls error" msg tr'
  rw [Kern.wp, he]
  exact .inr ⟨⟨e, rfl⟩, h⟩

/-- The errors found in a header are fatal. -/
theorem parse_error {tr : TlsRec R D} {header : List UInt8} {err : ℕ} {msg : String}
    (h : parse tr header = .error (err, msg)) : err = EProtocolVersion ∨ err = ERecordOverflow := by
  have hcases : ∀ {c₁ c₂ c₃ : Prop} [Decidable c₁] [Decidable c₂] [Decidable c₃]
      {e₁ e₂ e₃ : ℕ × String} {x : ℕ × ℕ × ℕ},
      (if c₁ then .error e₁ else if c₂ then .error e₂ else if c₃ then .error e₃ else .ok x) =
        Except.error (err, msg) → err = e₁.1 ∨ err = e₂.1 ∨ err = e₃.1 := by
    intro c₁ c₂ c₃ _ _ _ e₁ e₂ e₃ x h
    split at h
    · cases h
      exact .inl rfl
    split at h
    · cases h
      exact .inr (.inl rfl)
    split at h
    · cases h
      exact .inr (.inr rfl)
    · cases h
  obtain h | h | h := hcases h
  · exact .inl h
  · exact .inl h
  · exact .inr h

theorem gather_bad {err : ℕ} {msg : String} {header : List UInt8}
    (h : (gather tr io).1 = .bad err msg header) :
      err = EProtocolVersion ∨ err = ERecordOverflow := by
  rw [gather] at h
  split at h
  · cases h
  · cases h
  dsimp only at h
  rw [gatherBody] at h
  split at h
  · rename_i hp
    cases h
    exact parse_error hp
  · split at h
    · cases h
    · cases h
    · split at h <;> cases h

/-- The handler of the error of a bad header has nothing left to do. -/
theorem finish_bad {err : ℕ} (herr : err = EProtocolVersion ∨ err = ERecordOverflow) (room : ℕ)
    (msg : String) (header : List UInt8) :
    finish L room n (.bad err msg header) = rcvError L err msg n := by
  funext tr
  have hspec := Kern.wp_iff_forall.mp (rcvError_spec n (L := L) herr msg tr)
  rcases hr : (rcvError L err msg n : Conn R D Unit) tr with ⟨(e | why) | a, tr'⟩
  · obtain ⟨why, hwhy⟩ | ⟨-, hst⟩ := hspec.2 _ _ hr
    · cases hwhy
    refine (Kern.waserror_of_error hr).trans ?_
    by_cases he : e = Eintr
    · rw [if_pos he]
      rfl
    · rw [if_neg he]
      exact channelError_of_SError n e hst
  · exact Kern.waserror_of_panic hr
  · exact (hspec.1 _ _ hr).elim

/-- What is done with what was gathered does not depend on the interruptions, but for the errors
raised. -/
theorem alike_finish (L : Libsec R D) (h : Gentle n) (room : ℕ) (tr : TlsRec R D) (io : Io) :
    Kern.Alike (finish L room n (gather tr io).1) (finish L room n.calm (gather tr io).1) := by
  cases hg : (gather tr io).1 with
  | record r => exact alike_process n h room r
  | bad err msg header =>
    rw [finish_bad n (gather_bad hg), finish_bad n.calm (gather_bad hg)]
    exact alike_rcvError n _ _
  | stop msg => exact .ite (fun _ => .refl _) fun _ => alike_channelError n _ _
  | waits => exact .refl _
  | crash => exact .refl _

end Notes

/-- When no record could be gathered the connection is ended, unless the machine stopped. -/
theorem finish_stop {room : ℕ} {notes : Notes} {e : Except (Stop Crash) Unit}
    (hg : (gather tr io).1 ≠ .waits)
    (hr : ∀ r, (gather tr io).1 ≠ .record r) (hs : (gather tr io).1 ≠ .stop Eintr)
    (he : ∀ why, e ≠ .error (.panic why)) (h : finish L room notes (gather tr io).1 tr = (e, tr')) :
    e.isOk = false ∧ tr'.state = .SError := by
  cases hgat : (gather tr io).1 with
  | record r => exact absurd hgat (hr r)
  | waits => exact absurd hgat hg
  | crash =>
    rw [hgat] at h
    cases h
    exact absurd rfl (he _)
  | bad err msg header =>
    rw [hgat, finish_bad notes (gather_bad hgat)] at h
    have hspec := Kern.wp_iff_forall.mp (rcvError_spec notes (L := L) (gather_bad hgat) msg tr)
    cases e with
    | ok a => exact (hspec.1 _ _ h).elim
    | error e =>
      obtain ⟨why, rfl⟩ | ⟨-, hst⟩ := hspec.2 _ _ h
      · exact absurd rfl (he why)
      · exact ⟨rfl, hst⟩
  | stop msg =>
    rw [hgat] at h hs
    have hne : msg ≠ Eintr := fun heq => hs (congrArg _ heq)
    rw [finish, if_neg hne] at h
    have hspec := Kern.wp_iff_forall.mp (channelError_spec notes msg tr)
    cases e with
    | ok a => exact (hspec.1 _ _ h).elim
    | error e => exact ⟨rfl, hspec.2 _ _ h⟩

/-! ### Calls that are interrupted -/

/-- Where the callers of `tlsrecread` are. -/
inductive Phase where
  | live
  /-- A call was interrupted, and its caller has not called again. -/
  | again
  /-- The connection is ended; callers check its state and do not call. -/
  | ended
  deriving DecidableEq

/-- Where the callers are after a call that was not interrupted. -/
def Phase.after (r : Except (Stop Crash) Unit) (tr : TlsRec R D) : Phase :=
  if r.isOk = false ∧ tr.state = .SError then .ended else .live

/-- What happens to a connection, but for interrupted calls. -/
inductive Event (R D : Type) where
  /-- A record was gathered, or was not, and was processed; the connection after it. -/
  | read (n : Notes) (g : Gathered) (tr : TlsRec R D)
  /-- Something else was done: a write, a control message, taking what was processed. -/
  | other (f : TlsRec R D → TlsRec R D)

/-- The events that calls of `tlsrecread` with notes that `ok` allows may show. Between an
interrupted call and the next one nothing is done that makes headers be read in another way. -/
inductive Calls (L : Libsec R D) (room : ℕ) (ok : Notes → Prop) :
    Phase → Io → TlsRec R D → List (Event R D) → Prop
  | nil {ph io tr} : Calls L room ok ph io tr []
  | interrupted {ph n r io tr io' tr' es} (hph : ph ≠ .ended)
      (h : tlsrecread L room n io tr = (.stop Eintr, r, io', tr'))
      (hrest : Calls L room ok .again io' tr' es) : Calls L room ok ph io tr es
  | read {ph n g r io tr io' tr' es} (hph : ph ≠ .ended) (hok : ok n)
      (h : tlsrecread L room n io tr = (g, r, io', tr')) (hintr : g ≠ .stop Eintr)
      (hwaits : g ≠ .waits) (hpanic : ∀ why, r ≠ .error (.panic why))
      (hrest : Calls L room ok (.after r tr') io' tr' es) :
      Calls L room ok ph io tr (.read n.calm g tr' :: es)
  | stopped {ph n g why io tr io' tr'} (hph : ph ≠ .ended) (hok : ok n)
      (h : tlsrecread L room n io tr = (g, .error (.panic why), io', tr')) :
      Calls L room ok ph io tr [.read n.calm g tr']
  | other {ph io tr es} (f : TlsRec R D → TlsRec R D)
      (hparse : ph = .again → parse (f tr) = parse tr)
      (hrest : Calls L room ok ph io (f tr) es) : Calls L room ok ph io tr (.other f :: es)

/-! ### The run without interruptions -/

/-- Where the callers are in the run without interruptions. -/
def Phase.settled : Phase → Phase
  | .again => .live
  | ph => ph

/-- The blocks there are those that are left here, as far as they will be gathered. -/
def Follows (ph : Phase) (tr : TlsRec R D) (io io' : Io) : Prop :=
  match ph with
  | .live => Near io.calm io'
  | .again => Same tr io.calm io'
  | .ended => True

variable {ph : Phase} {room : ℕ} {notes notes' : Notes} {g : Gathered} {io₂ io'' : Io}
  {r r' : Except (Stop Crash) Unit} {es : List (Event R D)}

theorem Follows.same (h : Follows ph tr io io') (hph : ph ≠ .ended) : Same tr io.calm io' := by
  cases ph with
  | live => exact Near.same h tr
  | again => exact h
  | ended => exact absurd rfl hph

theorem settled_ne_ended (hph : ph ≠ .ended) : ph.settled ≠ .ended := by
  cases ph with
  | live => nofun
  | again => nofun
  | ended => exact absurd rfl hph

theorem tlsrecread_gather (h : tlsrecread L room notes io tr = (g, r, io', tr')) :
    (gather tr io).1 = g ∧ finish L room notes g tr = (r, tr') ∧
      ∀ rec, g = .record rec → io' = (gather tr io).2 := by
  unfold tlsrecread at h
  simp only [Prod.mk.injEq] at h
  obtain ⟨hg, hr, hio, htr⟩ := h
  rw [hg] at hr hio htr
  refine ⟨hg, Prod.ext hr htr, ?_⟩
  rintro rec rfl
  exact hio.symm

/-- An interrupted call leaves the connection alone. -/
theorem tlsrecread_interrupted
    (h : tlsrecread L room notes io tr = (.stop Eintr, r, io', tr')) :
    gather tr io = (.stop Eintr, io') ∧ tr' = tr := by
  unfold tlsrecread at h
  simp only [Prod.mk.injEq] at h
  obtain ⟨hg, hr, hio, htr⟩ := h
  rw [hg] at hr hio htr
  exact ⟨Prod.ext hg hio, htr.symm⟩

theorem gather_calm_self (h : (gather tr io).1 ≠ .stop Eintr) :
    gather tr io.calm = ((gather tr io).1, (gather tr io).2.calm) :=
  gather_calm rfl h

/-- After the same record was read, the blocks left are the same as far as they will be gathered. -/
theorem Same.follows (hs : Same tr io.calm io'')
    (h : tlsrecread L room notes io tr = (g, r, io', tr'))
    (h' : tlsrecread L room notes' io'' tr = (g, r', io₂, tr')) (hintr : g ≠ .stop Eintr)
    (hwaits : g ≠ .waits) (hpanic : ∀ why, r ≠ .error (.panic why)) :
    Follows (.after r tr') tr' io' io₂ := by
  obtain ⟨hg, hf, hio⟩ := tlsrecread_gather h
  obtain ⟨-, -, hio₂⟩ := tlsrecread_gather h'
  subst hg
  by_cases hend : r.isOk = false ∧ tr'.state = .SError
  · rw [Phase.after, if_pos hend]
    trivial
  by_cases hrec : ∃ rec, (gather tr io).1 = .record rec
  · obtain ⟨rec, hrec⟩ := hrec
    have hcalm := gather_calm_self hintr
    rw [Phase.after, if_neg hend, hio rec hrec, hio₂ rec hrec]
    have hnear := hs.2 rec (by rw [hcalm, hrec])
    rw [hcalm] at hnear
    exact hnear
  · exact absurd (finish_stop hwaits (fun rec heq => hrec ⟨rec, heq⟩) hintr hpanic hf) hend

/-- Where a call is not interrupted, a call from the other blocks does the same. -/
theorem Same.read (hs : Same tr io.calm io'') (hn : Gentle notes)
    (h : tlsrecread L room notes io tr = (g, r, io', tr')) (hintr : g ≠ .stop Eintr) :
    ∃ r' io₂, tlsrecread L room notes.calm io'' tr = (g, r', io₂, tr') ∧
      (r = r' ∨ ∃ e e', r = .error (.error e) ∧ r' = .error (.error e')) := by
  obtain ⟨rfl, hf, -⟩ := tlsrecread_gather h
  have hcalm := gather_calm_self hintr
  have hsame : (gather tr io'').1 = (gather tr io).1 := by
    rw [← hs.1, hcalm]
  obtain ⟨hst, hres⟩ := alike_finish notes L hn room tr io tr
  rw [hf] at hst hres
  dsimp only at hst hres
  have hread : tlsrecread L room notes.calm io'' tr = (_, _, _, _) := rfl
  rw [hsame, ← hst] at hread
  exact ⟨_, _, hread, hres⟩

theorem after_congr {tr : TlsRec R D}
    (h : r = r' ∨ ∃ e e', r = .error (.error e) ∧ r' = .error (.error e')) :
    Phase.after r tr = .after r' tr := by
  obtain rfl | ⟨e, e', rfl, rfl⟩ := h
  · rfl
  · rfl

theorem settled_after (r : Except (Stop Crash) Unit) (tr : TlsRec R D) :
    (Phase.after r tr).settled = .after r tr := by
  unfold Phase.after
  split <;> rfl

/-- The events of calls that are interrupted are those of the run without interruptions. -/
theorem Calls.calm (h : Calls L room Gentle ph io tr es) (hf : Follows ph tr io io'') :
    Calls L room Calm ph.settled io'' tr es := by
  induction h generalizing io'' with
  | nil => exact .nil
  | @interrupted ph n r io tr io' tr' es hph h _ ih =>
    obtain ⟨hg, rfl⟩ := tlsrecread_interrupted h
    have hs := (gather_interrupted hg rfl).trans (hf.same hph)
    cases ph with
    | live => exact ih hs
    | again => exact ih hs
    | ended => exact absurd rfl hph
  | @read ph n g r io tr io' tr' es hph hok h hintr hwaits hpanic _ ih =>
    have hs := hf.same hph
    obtain ⟨r', io₂, h', hres⟩ := hs.read hok h hintr
    have hnext := ih (hs.follows h h' hintr hwaits hpanic)
    rw [settled_after, after_congr hres] at hnext
    have hpanic' : ∀ why, r' ≠ .error (.panic why) := by
      rintro why rfl
      obtain heq | ⟨_, _, _, heq⟩ := hres
      · exact hpanic why heq
      · cases heq
    have hread := Calls.read (settled_ne_ended hph) (calm_calm n) h' hintr hwaits hpanic' hnext
    rw [calm_calm] at hread
    exact hread
  | @stopped ph n g why io tr io' tr' hph hok h =>
    have hintr : g ≠ .stop Eintr := by
      rintro rfl
      obtain ⟨-, hfin, -⟩ := tlsrecread_gather h
      cases hfin
    obtain ⟨r', io₂, h', hres⟩ := (hf.same hph).read hok h hintr
    obtain rfl : .error (.panic why) = r' := by
      obtain heq | ⟨_, _, heq, -⟩ := hres
      · exact heq
      · cases heq
    have hstop := Calls.stopped (settled_ne_ended hph) (calm_calm n) h'
    rw [calm_calm] at hstop
    exact hstop
  | @other ph io tr es f hparse _ ih =>
    refine .other f (by cases ph <;> nofun) (ih ?_)
    cases ph with
    | live => exact hf
    | again =>
      have hgather : gather (f tr) = gather tr := by
        funext io
        unfold gather gatherBody
        rw [hparse rfl]
      rw [Follows, Same, hgather]
      exact hf
    | ended => trivial

theorem ensure_input_le {e : Ensured} (h : ensure n un input = (e, io)) :
    io.input.length ≤ input.length ∧ (e = .error Eintr → io.input.length < input.length) := by
  induction input generalizing un with
  | nil =>
    rw [ensure.eq_def] at h
    dsimp only at h
    split at h <;> cases h
    · exact ⟨le_rfl, nofun⟩
    · exact ⟨le_rfl, nofun⟩
  | cons r input ih =>
    by_cases hle : n ≤ (bytes un).length
    · rw [ensure_of_le hle] at h
      cases h
      exact ⟨le_rfl, nofun⟩
    cases r with
    | fail msg =>
      have hres : ensure n un (.fail msg :: input) = (.error msg, ⟨un, input⟩) := if_neg hle
      rw [hres] at h
      cases h
      exact ⟨Nat.le_succ _, fun _ => Nat.lt_succ_self _⟩
    | blocks bl =>
      by_cases hnil : bytes bl = []
      · have hres : ensure n un (.blocks bl :: input) =
            (.error Ehungup, ⟨un ++ bl, input⟩) := (if_neg hle).trans (if_pos hnil)
        rw [hres] at h
        cases h
        exact ⟨Nat.le_succ _, fun _ => Nat.lt_succ_self _⟩
      · have hres : ensure n un (.blocks bl :: input) = ensure n (un ++ bl) input :=
          (if_neg hle).trans (if_neg hnil)
        rw [hres] at h
        obtain ⟨hle', hlt⟩ := ih h
        exact ⟨hle'.trans (Nat.le_succ _), fun he => (hlt he).trans (Nat.lt_succ_self _)⟩

/-- Each interruption is met once. -/
theorem gather_input_lt (h : gather tr io = (.stop Eintr, io')) :
    io'.input.length < io.input.length := by
  rw [gather] at h
  rcases he : ensure RecHdrLen io.unprocessed io.input with ⟨e, io₁⟩
  have hlen := ensure_input_le he
  rw [he] at h
  cases e with
  | waits => cases h
  | error msg =>
    cases h
    exact hlen.2 rfl
  | ok =>
    dsimp only at h
    rw [gatherBody] at h
    split at h
    · cases h
    rename_i len hp
    rcases he₁ : ensure len (consume io₁.unprocessed RecHdrLen).2 io₁.input with ⟨e, io₂⟩
    have hlen₁ := ensure_input_le he₁
    dsimp only at h
    rw [he₁] at h
    cases e with
    | waits => cases h
    | ok =>
      dsimp only at h
      split at h <;> cases h
    | error msg =>
      simp only [Prod.mk.injEq, Gathered.stop.injEq] at h
      obtain ⟨rfl, rfl⟩ := h
      rw [if_pos rfl]
      exact (hlen₁.2 rfl).trans_le hlen.1

/-- Without interruptions no call is interrupted. -/
theorem gather_calm_ne (tr : TlsRec R D) (io : Io) : (gather tr io.calm).1 ≠ .stop Eintr := by
  induction hlen : io.input.length using Nat.strong_induction_on generalizing io with
  | _ len ih =>
    by_cases h : (gather tr io).1 = .stop Eintr
    · have hg : gather tr io = (.stop Eintr, (gather tr io).2) := Prod.ext h rfl
      rw [← (gather_interrupted hg rfl).1]
      exact ih _ (hlen ▸ gather_input_lt hg) _ rfl
    · rw [gather_calm_self h]
      exact h

/-- A caller calls again until it is not interrupted. -/
theorem Calls.of_retried (hph : ph ≠ .ended) (hs : Same tr io.calm io'')
    (h : ∀ ph io, ph ≠ .ended → Same tr io.calm io'' → (gather tr io).1 ≠ .stop Eintr →
      Calls L room Gentle ph io tr es) : Calls L room Gentle ph io tr es := by
  induction hlen : io.input.length using Nat.strong_induction_on generalizing ph io with
  | _ len ih =>
    by_cases hintr : (gather tr io).1 = .stop Eintr
    · have hg : gather tr io = (.stop Eintr, (gather tr io).2) := Prod.ext hintr rfl
      have hread : tlsrecread L room {} io tr = (_, _, _, _) := rfl
      rw [hg] at hread
      exact .interrupted hph hread (ih _ (hlen ▸ gather_input_lt hg) nofun
        ((gather_interrupted hg rfl).trans hs) rfl)
    · exact h ph io hph hs hintr

/-- A call that is not interrupted does what the call from the other blocks does. -/
theorem Same.read_back (hs : Same tr io.calm io'') (hintr : (gather tr io).1 ≠ .stop Eintr)
    (h : tlsrecread L room notes io'' tr = (g, r, io₂, tr')) :
    ∃ io', tlsrecread L room notes io tr = (g, r, io', tr') := by
  obtain ⟨hg, hf, -⟩ := tlsrecread_gather h
  have hsame : (gather tr io).1 = g := by
    rw [← hg, ← hs.1, gather_calm_self hintr]
  have hread : tlsrecread L room notes io tr = (_, _, _, _) := rfl
  rw [hsame, hf] at hread
  exact ⟨_, hread⟩

/-- The events of the run without interruptions are those of calls that are interrupted. -/
theorem Calls.of_calm (h : Calls L room Calm ph io'' tr es) (hph : ph ≠ .again)
    (hf : Follows ph tr io io'') : Calls L room Gentle ph io tr es := by
  induction h generalizing io with
  | nil => exact .nil
  | @interrupted ph n r io'' tr io' tr' es hne h _ ih =>
    have hs := (hf.same hne).1
    rw [(tlsrecread_gather h).1] at hs
    exact absurd hs (gather_calm_ne tr io)
  | @read ph n g r io'' tr io₂ tr' es hne hok h hintr hwaits hpanic _ ih =>
    refine .of_retried hne (hf.same hne) fun ph io hne hs hio => ?_
    obtain ⟨io', h'⟩ := hs.read_back hio h
    refine .read hne hok.gentle h' hintr hwaits hpanic (ih ?_ ?_)
    · unfold Phase.after
      split <;> nofun
    · exact hs.follows h' h hintr hwaits hpanic
  | @stopped ph n g why io'' tr io₂ tr' hne hok h =>
    refine .of_retried hne (hf.same hne) fun ph io hne hs hio => ?_
    obtain ⟨io', h'⟩ := hs.read_back hio h
    exact .stopped hne hok.gentle h'
  | @other ph io'' tr es f _ _ ih =>
    refine .other f (fun h => absurd h hph) (ih hph ?_)
    cases ph with
    | live => exact hf
    | again => exact absurd rfl hph
    | ended => trivial

/-- A connection whose handshake file is open. -/
def handshaking : TlsRec Unit Unit :=
  { established with
    opened := false
    state := .SHandshake
    inn := ⟨0, none, none⟩
    handq := some []
    out := ⟨0, none, none⟩ }

/-- A handshake message of one byte. -/
def hello : Io := ⟨[], [.blocks [⟨0, [22, 3, 1, 0, 1, 7]⟩]]⟩

end PlanNine.Tls
