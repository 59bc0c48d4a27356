import PlanNine.Port.Sdp.Held

/-!
# The life of a conversation

The reference count of a conversation is the number of its open files plus one for each reader
process plus one for a state other than `CFree` and `CClosed`, and a conversation without
references is free. The assertions of `sdpclone` and `convderef` rest on that.

The code keeps the count except in four kinds of step. A refused write under an announcement of a
new state closes the conversation, and the state is set over it. An open of a file of a free
conversation takes a reference without a state. The close of the last control file frees a
conversation that nobody else holds and then calls it closed, and so does a timer tick that gives
up such a conversation.

## Main definitions

* `Slot.Counted`: the count, and what it says of free conversations.
* `Misstep`: the steps that break it.

## Main results

* `counted_step`: every other step keeps the count and fails no assertion on it.
* `counted_of_run`: so does every run without such steps.
-/

namespace PlanNine.Sdp

open Kern

variable {L : Libsec} {env : Env}

/-! ### Dropping a reference -/

/-- A holder other than the last one of an open file gives up its reference. -/
theorem wp_convderef_of_held {k d ct : ℤ} {w : World} {E : Stop Panic → World → Prop}
    (hk : 0 ≤ k) (h : Held (k + 1) d ct w.nreader w.conv)
    (h0 : k + w.nreader = 0 → d = 0 ∧ ct = 0) :
    convderef.wp (fun _ w' => Held k d ct w'.nreader w'.conv ∧
      (w'.conv.ref = 0 ∧ w'.conv.chan = false ∧ w'.nreader = w.nreader ∨
        w' = w.map dropRef)) E w := by
  obtain ⟨h1, h2, h3, h4⟩ := h
  have hl := live_nonneg w.conv.state
  by_cases hr : 1 < w.conv.ref
  · have hs : w.conv.state ≠ .cFree := fun hs => by
      have := h2.mpr hs
      omega
    rw [wp_convderef_of_pos hr]
    refine ⟨⟨?_, ⟨fun h0 => ?_, fun h0 => absurd h0 hs⟩, h3, h4⟩, .inr rfl⟩ <;>
      simp only [World.conv_map, World.nreader_map, dropRef] at *
    · omega
    · omega
  · obtain ⟨hd, hc⟩ := h0 (by omega)
    rw [wp_convderef_of_last (by omega) (by omega) (by omega)]
    refine ⟨⟨?_, ⟨fun _ => rfl, fun _ => ?_⟩, h3, h4⟩, .inl ⟨?_, rfl, rfl⟩⟩ <;>
      simp only [World.conv_map, World.nreader_map, dropRef, cleared, live] at *
    · simp
      omega
    · omega
    · omega

/-! ### The timer -/

/-- The channel raises an error at the first write of a call. -/
def Env.refusesFirst (env : Env) (c : Conv) : Prop :=
  env.refuses { conv := c }

/-- The timer gives the conversation up, or writes a packet that is refused. -/
def TimerCloses (env : Env) (c : Conv) : Prop :=
  c.timeout ≤ env.sec ∧
    match c.state with
    | .cFree | .cInit | .cRemoteClose | .cClosed => False
    | .cDial | .cAccept | .cLocalClose => MaxRetries < c.retries + 1 ∨ env.refusesFirst c
    | .cOpen =>
        match c.out.controlpkt with
        | some _ => MaxRetries < c.retries + 1 ∨ env.refusesFirst c
        | none =>
            c.lastrecv + KeepAlive ≤ env.sec ∧
              ¬ (env.sec < c.lastrecv + KeepAlive + KeepAlive ∧ env.keepwait) ∧ env.refusesFirst c

/-- A write that is not refused leaves the conversation alone. -/
theorem wp_convwriteblock_of_accepted {b : List UInt8} {Q : Unit → World → Prop}
    {E : Stop Panic → World → Prop} {w : World} (hr : ¬ env.refuses w) (hQ : Q () (w.wrote env b))
    (hE : E (.panic .nilchan) { w with nwrite := w.nwrite + 1 }) :
    (convwriteblock env b).wp Q E w := by
  by_cases hc : w.conv.chan = true
  · rw [wp_convwriteblock hc]
    exact ⟨fun _ => hQ, fun h => absurd h hr⟩
  · by_cases hd : w.conv.drop ≠ 0 ∧ env.dropped w.nwrite = true
    · simpa only [convwriteblock, wp_bind, wp_get, wp_modify, wp_ite, hd, ne_eq,
        not_false_eq_true, and_self, if_true, wp_pure, World.wrote] using hQ
    · simpa only [convwriteblock, wp_bind, wp_get, wp_modify, wp_ite, hd, if_false, wp_assert, hc,
        Bool.false_eq_true] using hE

theorem held_convoput {k d ct : ℤ} {w : World} {type subtype : ℕ} {b : List UInt8}
    (h : Held k d ct w.nreader w.conv) (hr : ¬ env.refuses w) :
    (convoput L env type subtype b).wp (fun _ w' => Held k d ct w'.nreader w'.conv)
      (StopHeld k d ct) w := by
  simp only [convoput, wp_bind, wp_modify, wp_setConv, wp_getConv, World.conv_map]
  cases encode L (countOut w.conv).out type subtype b
      (List.replicate (countOut w.conv).out.cipherivlen 0) with
  | none => simp [StopHeld, RefPanic]
  | some r =>
      refine wp_convwriteblock_of_accepted hr ?_ (stopHeld_panic (by simp [RefPanic]))
      exact h.congr rfl rfl rfl rfl

/-- The conversation after a retry that is still allowed. -/
def retried (env : Env) (c : Conv) : Conv :=
  { c with retries := c.retries + 1, timeout := env.sec + (c.retries + 1 + 1) }

theorem wp_convretry_of_le {reset : Bool} {Q : Bool → World → Prop}
    {E : Stop Panic → World → Prop} {w : World} (h : ¬ MaxRetries < w.conv.retries + 1) :
    (convretry env reset).wp Q E w ↔ Q true (w.map (retried env)) := by
  simp only [convretry, wp_bind, wp_setConv, wp_getConv, World.conv_map, wp_ite, h, if_false,
    wp_pure]
  rfl

/-- A timer tick that closes nothing keeps the references, held or not. -/
theorem held_convtimer {k d ct : ℤ} {c : Conv} (h : Held k d ct 0 c)
    (hclose : ¬ TimerCloses env c) :
    (convtimer L env).wp (fun _ w' => Held k d ct w'.nreader w'.conv) (StopHeld k d ct)
      { conv := c } := by
  simp only [convtimer, wp_bind, wp_getConv, wp_ite, wp_pure]
  split
  · exact h
  rename_i hsec
  simp only [TimerCloses, not_lt.mp hsec, true_and] at hclose
  cases hs : c.state with
  | cFree | cInit | cRemoteClose | cClosed => exact h
  | cDial | cAccept | cLocalClose =>
      simp only [hs, not_or] at hclose
      simp only [wp_bind]
      rw [wp_convretry_of_le (by exact hclose.1)]
      simp only [if_true]
      refine wp_convoconnect_of_accepted hclose.2 ?_ (stopHeld_panic (by simp [RefPanic]))
      exact h.congr rfl rfl rfl rfl
  | cOpen =>
      simp only [hs] at hclose
      dsimp only
      cases hp : c.out.controlpkt with
      | some b =>
          simp only [hp, not_or] at hclose
          simp only [wp_bind]
          rw [wp_convretry_of_le (by exact hclose.1)]
          simp only [if_true]
          exact held_convoput (h.congr rfl rfl rfl rfl) hclose.2
      | none =>
          simp only [hp] at hclose
          simp only [wp_bind, wp_setConv, wp_ite, wp_pure, convretryinit, wp_waserror]
          split
          · exact h.congr rfl rfl rfl rfl
          rename_i hlast
          split
          · exact h.congr rfl rfl rfl rfl
          rename_i hkeep
          have hr : ¬ env.refusesFirst c := fun hr => hclose ⟨not_lt.mp hlast, hkeep, hr⟩
          refine wp_mono (held_convoput (h.congr ?_ ?_ ?_ ?_) hr) (fun _ _ h' => h')
            fun e _ h' => ?_
          rotate_left 4
          · cases e with
            | error msg => exact h'
            | panic p => exact h'
          all_goals rfl

/-! ### Opens and closes -/

/-- The permissions asked for are granted. -/
def Permits (c : Conv) (user : String) (perm : ℕ) : Prop :=
  perm &&& (c.perm >>> 6) = perm ∨ user = c.owner ∧ perm &&& c.perm = perm

/-- What an open adds to the references. -/
theorem held_sdpopen {k : ℤ} {s : Slot} (file : File) (user : String) (perm : ℕ)
    (hk : 0 ≤ k) (h : Held k s.ndata s.ncontrol 0 s.conv)
    (hfree : Permits s.conv user perm → s.conv.state ≠ .cFree) :
    (sdpopen file user perm).wp
      (fun _ w' => Held (k + 1) (s.addOpen file 1).ndata (s.addOpen file 1).ncontrol 0 w'.conv ∧
        w'.nreader = 0)
      (fun e w' => e = .error "permission denied" ∧ w' = { conv := s.conv })
      { conv := s.conv } := by
  simp only [sdpopen, wp_bind, wp_getConv, wp_ite, wp_error, wp_setConv]
  split
  · exact ⟨trivial, trivial⟩
  rename_i hperm
  have hs : s.conv.state ≠ .cFree := hfree (by
    rw [not_and_or, not_or, not_not, not_not] at hperm
    tauto)
  obtain ⟨h1, h2, h3, h4⟩ := h
  have hl := live_nonneg s.conv.state
  have hheld (c : Conv) (d ct : ℤ) (href : c.ref = s.conv.ref + 1) (hst : c.state = s.conv.state)
      (hd : c.dataopen = d) (hc : c.controlopen = ct) : Held (k + 1) d ct 0 c := by
    refine ⟨by rw [href, hst]; push_cast at *; omega, ?_, hd, hc⟩
    rw [href, hst]
    exact ⟨fun h0 => by push_cast at *; omega, fun h0 => absurd h0 hs⟩
  cases file <;> simp only [wp_setConv, wp_pure, Slot.addOpen] <;>
    refine ⟨hheld _ _ _ rfl rfl ?_ ?_, rfl⟩ <;> simp only [World.conv_map] <;> omega

/-- The close of the last control file frees the conversation under the new state, or announces
the close with a packet that is refused. -/
def CloseMissteps (env : Env) (c : Conv) (file : File) : Prop :=
  file = .Qcontrol ∧ c.controlopen = 1 ∧
    match c.state with
    | .cAccept | .cOpen => env.refusesFirst c
    | .cFree | .cClosed => False
    | .cInit | .cDial | .cLocalClose | .cRemoteClose => c.ref = 2

/-- A stop on an assertion that is not about references; no error is raised. -/
def StopOther (e : Stop Panic) (_ : World) : Prop := ∃ p, e = .panic p ∧ ¬ RefPanic p

theorem stopOther_panic {p : Panic} {w : World} (hp : ¬ RefPanic p) : StopOther (.panic p) w :=
  ⟨p, rfl, hp⟩

/-- What `sdpclose` does to the control count. -/
def closeControl (c : Conv) : Conv := { c with controlopen := c.controlopen - 1 }

theorem held_closeControl {k d ct : ℤ} {c : Conv} (hk : 0 ≤ k) (hd : 0 ≤ d) (hct : 0 ≤ ct)
    (hkd : d + ct ≤ k) (h : Held (k + 1) d (ct + 1) 0 c)
    (hmis : ¬ CloseMissteps env c .Qcontrol) :
    (sdpclose L env .Qcontrol).wp (fun _ w' => Held k d ct w'.nreader w'.conv) StopOther
      { conv := c } := by
  have h' : Held (k + 1) d ct 0 (closeControl c) := by
    obtain ⟨h1, h2, h3, h4⟩ := h
    exact ⟨h1, h2, h3, by simp only [closeControl]; omega⟩
  have hl := live_nonneg c.state
  have href : c.ref = k + 1 + live c.state := by simpa using h.1
  simp only [sdpclose, wp_bind, wp_setConv]
  refine wp_mono (wp_convderef_of_held (w := World.map closeControl { conv := c }) hk h' ?_)
    ?_ fun _ _ he => he
  · simp only [World.nreader_map]
    omega
  rintro _ w' ⟨hw, hw'⟩
  simp only [wp_getConv, wp_ite, wp_pure]
  split
  swap
  · exact hw
  rename_i hlast
  obtain rfl := hw'.resolve_left fun hw' => hlast.2 hw'.1
  have hco : c.controlopen = 1 := by
    have := hlast.1
    simp only [World.conv_map, dropRef, closeControl] at this
    omega
  have hclose : c.state ≠ .cClosed → c.ref ≠ 2 →
      convclose.wp (fun _ w' => Held k d ct w'.nreader w'.conv) StopOther
        ((World.map closeControl { conv := c }).map dropRef) := by
    intro hs h2
    have hs' : c.state ≠ .cFree := fun hs => by
      have := h.2.1.mpr hs
      omega
    have := live_of_ne hs' hs
    rw [wp_convclose_of_held (hw.closed_or_lt (by omega))]
    exact hw.closed (by omega)
  simp only [CloseMissteps, hco, true_and] at hmis
  simp only [World.conv_map, dropRef, closeControl]
  cases hs : c.state with
  | cAccept | cOpen =>
      simp only [hs] at hmis
      exact held_localClose hk hw hmis fun p w' hp => stopOther_panic hp
  | cInit | cDial | cLocalClose | cRemoteClose =>
      simp only [hs] at hmis
      exact hclose (by simp [hs]) hmis
  | cClosed =>
      rw [wp_convclose_of_held (.inl hs)]
      refine hw.congr ?_ ?_ rfl rfl <;> simp [closed, hs, dropRef, closeControl]
  | cFree =>
      have := h.2.1.mpr hs
      omega

/-- What `sdpclose` does to the data count. -/
def closeData (c : Conv) : Conv := { c with dataopen := c.dataopen - 1 }

theorem held_closeData {k d ct : ℤ} {c : Conv} (hk : 0 ≤ k) (hd : 0 ≤ d) (hct : 0 ≤ ct)
    (hkd : d + ct ≤ k) (h : Held (k + 1) (d + 1) ct 0 c) :
    (sdpclose L env .Qdata).wp (fun _ w' => Held k d ct w'.nreader w'.conv) StopOther
      { conv := c } := by
  have h' : Held (k + 1) d ct 0 (closeData c) := by
    obtain ⟨h1, h2, h3, h4⟩ := h
    exact ⟨h1, h2, by simp only [closeData]; omega, h4⟩
  simp only [sdpclose, wp_bind, wp_setConv]
  refine wp_mono (wp_convderef_of_held (w := World.map closeData { conv := c }) hk h' ?_)
    ?_ fun _ _ he => he
  · simp only [World.nreader_map]
    omega
  rintro _ w' ⟨hw, hw'⟩
  simp only [wp_getConv, wp_ite, wp_pure]
  split
  swap
  · exact hw
  rename_i hstart
  have href : w'.conv.state ≠ .cFree := by
    rintro hs
    rcases hw' with hw' | rfl
    · simp [hw'.2.1] at hstart
    · have := h.1
      have := h.2.1.mpr hs
      have := live_nonneg c.state
      omega
  simp only [wp_waserror, wp_bind, kproc, wp_ite, wp_error, caught_error, wp_modify, wp_setConv,
    wp_pure]
  split
  · exact hw
  · obtain ⟨h1, h2, h3, h4⟩ := hw
    have hl := live_nonneg w'.conv.state
    refine ⟨?_, ⟨fun h0 => ?_, fun h0 => absurd h0 href⟩, h3, h4⟩
    · simp only [World.map, h1]
      push_cast
      omega
    · simp only [World.map] at h0
      omega

theorem held_closeOther {k d ct : ℤ} {c : Conv} {file : File} (hk : 0 ≤ k) (hd : 0 ≤ d)
    (hct : 0 ≤ ct) (hkd : d + ct ≤ k) (h : Held (k + 1) d ct 0 c) (hdata : file ≠ .Qdata)
    (hcontrol : file ≠ .Qcontrol) :
    (sdpclose L env file).wp (fun _ w' => Held k d ct w'.nreader w'.conv) StopOther
      { conv := c } := by
  have hderef : convderef.wp (fun _ w' => Held k d ct w'.nreader w'.conv) StopOther
      { conv := c } := by
    refine wp_mono (wp_convderef_of_held hk h ?_) (fun _ _ h' => h'.1) fun _ _ he => he
    push_cast
    omega
  cases file with
  | Qdata => exact absurd rfl hdata
  | Qcontrol => exact absurd rfl hcontrol
  | Qctl | Qstatus | Qstats | Qrstats => exact hderef

/-! ### The reader process -/

/-- The references of a conversation before and after a stretch of a reader: one less when the
reader ends. -/
def HeldReader (k d ct : ℤ) (r : Option ReaderPc) (w : World) : Prop :=
  Held (if r.isSome then k + 1 else k) d ct w.nreader w.conv

theorem held_readerExit {k d ct : ℤ} {w : World} {E : Stop Panic → World → Prop} (hk : 0 ≤ k)
    (hd : 0 ≤ d) (hct : 0 ≤ ct) (hkd : d + ct ≤ k) (h : Held (k + 1) d ct w.nreader w.conv) :
    readerExit.wp (HeldReader k d ct) E w := by
  simp only [readerExit, wp_bind, wp_setConv, wp_pure]
  refine wp_mono (wp_convderef_of_held hk (h.congr rfl rfl rfl rfl) ?_) (fun _ _ h' => h'.1)
    fun _ _ he => he
  simp only [World.nreader_map]
  omega

theorem held_readerTest {k d ct : ℤ} {w : World} {E : Stop Panic → World → Prop} (hk : 0 ≤ k)
    (hd : 0 ≤ d) (hct : 0 ≤ ct) (hkd : d + ct ≤ k) (h : Held (k + 1) d ct w.nreader w.conv) :
    readerTest.wp (HeldReader k d ct) E w := by
  simp only [readerTest, wp_bind, wp_getConv, wp_ite, wp_pure]
  split
  · simpa only [HeldReader, Option.isSome_some, if_true] using h
  · exact held_readerExit hk hd hct hkd h

theorem held_readerStep {k d ct : ℤ} {c : Conv} (pc : ReaderPc) (r : ReadResult) (hk : 0 ≤ k)
    (hd : 0 ≤ d) (hct : 0 ≤ ct) (hkd : d + ct ≤ k) (h : Held (k + 1) d ct 0 c)
    (hmov : ∀ pkt, pc = .got (.packet pkt) → Moves c pkt → ¬ env.refusesFirst c) :
    (readerStep L env pc r).wp (HeldReader k d ct) StopOther { conv := c } := by
  have htest : ∀ w : World, Held (k + 1) d ct w.nreader w.conv →
      readerTest.wp (HeldReader k d ct) StopOther w := fun w h => held_readerTest hk hd hct hkd h
  have hstay (pc' : ReaderPc) : HeldReader k d ct (some pc') { conv := c } := by
    simpa only [HeldReader, Option.isSome_some, if_true] using h
  cases pc with
  | start =>
      simp only [readerStep, wp_bind, wp_getConv, wp_assert]
      split
      · exact htest _ h
      · exact stopOther_panic (by simp [RefPanic])
  | top => exact htest _ h
  | enter =>
      simp only [readerStep, wp_bind, wp_getConv, wp_ite, wp_pure, wp_assert]
      split_ifs
      · exact hstay _
      · exact hstay _
      · exact stopOther_panic (by simp [RefPanic])
      · exact stopOther_panic (by simp [RefPanic])
  | reading => exact hstay _
  | got r =>
      cases r with
      | packet pkt =>
          simp only [readerStep, wp_bind, wp_waserror, wp_pure]
          refine wp_mono (keeps_conviput _ _ _ _ (by omega) h (hmov pkt rfl))
            (fun _ w' h' => htest w' h') fun e w' h' => ?_
          cases e with
          | error msg => exact htest w' h'
          | panic p => exact ⟨p, rfl, h'⟩
      | interrupted => exact htest _ h
      | failed =>
          simp only [readerStep, wp_bind (m := convclose)]
          rw [wp_convclose_of_held (h.closed_or_lt (by omega))]
          exact held_readerExit hk hd hct hkd (h.closed (by omega))

/-! ### The system -/

/-- The count of the references, and what it says of free conversations. -/
def Slot.Counted (s : Slot) : Prop :=
  s.conv.ref = s.nfile + s.readers.length + live s.conv.state ∧
    (s.conv.ref = 0 ↔ s.conv.state = .cFree)

/-- The count together with those of the data and the control files. -/
def Slot.Inv (s : Slot) : Prop :=
  Held (s.nfile + s.readers.length) s.ndata s.ncontrol 0 s.conv

theorem Slot.Inv.counted {s : Slot} (h : s.Inv) : s.Counted := by
  obtain ⟨h1, h2, -⟩ := h
  exact ⟨by simpa using h1, h2⟩

/-- What a call may lead to: the count kept, or a stop on another assertion. -/
def Good (r : Except Panic Slot) : Prop :=
  match r with
  | .ok s => s.Inv
  | .error p => ¬ RefPanic p

/-- The slot after the conversation has changed and reader processes have started. -/
def Slot.update (s : Slot) (w : World) : Slot :=
  { s with conv := w.conv, readers := s.readers ++ List.replicate w.nreader .start }

theorem good_call {α : Type} {s : Slot} {m : ConvM α} {ok : Slot → α → Slot}
    (h : m.wp (fun a w => (ok (s.update w) a).Inv)
      (fun e w => match e with
        | .error _ => (s.update w).Inv
        | .panic p => ¬ RefPanic p) { conv := s.conv }) : Good (s.call m ok) := by
  unfold wp at h
  unfold Slot.call
  rcases hm : m { conv := s.conv } with ⟨(_ | _) | a, w⟩ <;> simp only [hm] at h ⊢ <;> exact h

theorem Held.inv_update {s : Slot} {w : World}
    (h : Held (s.nfile + s.readers.length) s.ndata s.ncontrol w.nreader w.conv) :
    (s.update w).Inv := by
  obtain ⟨h1, h2, h3, h4⟩ := h
  refine ⟨?_, h2, h3, h4⟩
  simp only [Slot.update, Slot.nfile, List.length_append, List.length_replicate] at *
  push_cast at *
  omega

/-- A call that keeps the references, made while somebody holds the conversation. -/
theorem good_of_keeps {α : Type} {s : Slot} {m : ConvM α} {P : World → Prop} (hs : s.Inv)
    (hm : Keeps P m) (hP : P { conv := s.conv }) (hk : 1 ≤ s.nfile + s.readers.length) :
    Good (s.call m fun s _ => s) := by
  refine good_call (wp_mono (hm _ _ _ _ (by omega) hs hP) (fun _ _ h => h.inv_update)
    fun e _ h => ?_)
  cases e with
  | error msg => exact Held.inv_update h
  | panic p => exact h

@[simp] theorem addOpen_conv (s : Slot) (file : File) (n : ℤ) :
    (s.addOpen file n).conv = s.conv := by
  cases file <;> rfl

@[simp] theorem addOpen_readers (s : Slot) (file : File) (n : ℤ) :
    (s.addOpen file n).readers = s.readers := by
  cases file <;> rfl

theorem nfile_addOpen_neg {s : Slot} {file : File} (h : s.opens file ≠ 0) :
    (s.addOpen file (-1)).nfile + 1 = s.nfile := by
  cases file <;> simp only [Slot.addOpen, Slot.nfile, Slot.opens] at * <;> omega

theorem nfile_pos {s : Slot} {file : File} (h : s.opens file ≠ 0) : 1 ≤ s.nfile := by
  have := nfile_addOpen_neg h
  omega

/-- The steps that break the count. -/
def Misstep (env : Env) (s : Slot) : Op → Prop
  | .open _ user perm => Permits s.conv user perm ∧ s.conv.state = .cFree
  | .close file => s.opens file ≠ 0 ∧ CloseMissteps env s.conv file
  | .ctl f => s.nother ≠ 0 ∧ Dials env s.conv f ∧ env.refusesFirst s.conv
  | .timer => s.conv.ref = 1 ∧ TimerCloses env s.conv
  | .readdata pkt => s.ndata ≠ 0 ∧ Moves s.conv pkt ∧ env.refusesFirst s.conv
  | .reader k _ => ∃ pkt, s.readers[k]? = some (.got (.packet pkt)) ∧ Moves s.conv pkt ∧
      env.refusesFirst s.conv
  | .readcontrol | .writecontrol _ | .writedata _ => False

theorem good_open {s : Slot} {file : File} {user : String} {perm : ℕ} (hs : s.Inv)
    (hmis : ¬ Misstep env s (.open file user perm)) :
    Good (s.call (sdpopen file user perm) fun s _ => s.addOpen file 1) := by
  have hopen := held_sdpopen file user perm (by omega) hs
    fun hp hfree => hmis ⟨hp, hfree⟩
  refine good_call (wp_mono hopen ?_ ?_)
  · rintro _ w ⟨⟨h1, h2, h3, h4⟩, hn⟩
    refine ⟨?_, by rwa [addOpen_conv], ?_, ?_⟩ <;>
      cases file <;>
      simp only [Slot.update, Slot.addOpen, Slot.nfile, hn, List.replicate_zero, List.append_nil]
        at * <;> omega
  · rintro _ w ⟨rfl, rfl⟩
    exact Held.inv_update hs

theorem good_close {s : Slot} {file : File} (hs : s.Inv) (hopen : s.opens file ≠ 0)
    (hmis : ¬ Misstep env s (.close file)) :
    Good (s.call (sdpclose L env file) fun s _ => s.addOpen file (-1)) := by
  have hn := nfile_addOpen_neg hopen
  have hclose : (sdpclose L env file).wp (fun _ w' =>
      Held ((s.addOpen file (-1)).nfile + s.readers.length) (s.addOpen file (-1)).ndata
        (s.addOpen file (-1)).ncontrol w'.nreader w'.conv) StopOther { conv := s.conv } := by
    obtain ⟨h1, h2, h3, h4⟩ := hs
    cases file with
    | Qctl | Qstatus | Qstats | Qrstats =>
        refine held_closeOther (by omega) (by omega) (by omega) ?_ ⟨?_, h2, h3, h4⟩ (by decide)
          (by decide) <;> simp only [Slot.addOpen, Slot.nfile] at * <;> omega
    | Qdata =>
        refine held_closeData (by omega) (by omega) (by omega) ?_ ⟨?_, h2, ?_, h4⟩ <;>
          simp only [Slot.addOpen, Slot.nfile, Slot.opens] at * <;> omega
    | Qcontrol =>
        refine held_closeControl (by omega) (by omega) (by omega) ?_ ⟨?_, h2, h3, ?_⟩
          fun h => hmis ⟨hopen, h⟩ <;>
          simp only [Slot.addOpen, Slot.nfile, Slot.opens] at * <;> omega
  refine good_call (wp_mono hclose ?_ ?_)
  · rintro _ w ⟨h1, h2, h3, h4⟩
    refine ⟨?_, by rwa [addOpen_conv], ?_, ?_⟩ <;>
      cases file <;>
      simp only [Slot.update, Slot.addOpen, Slot.nfile, List.length_append, List.length_replicate]
        at * <;> omega
  · rintro _ w ⟨p, rfl, hp⟩
    exact hp

theorem good_timer {s : Slot} (hs : s.Inv) (href : 0 < s.conv.ref)
    (hmis : ¬ Misstep env s .timer) : Good (s.call (convtimer L env) fun s _ => s) := by
  by_cases hk : 1 ≤ s.nfile + s.readers.length
  · exact good_of_keeps hs keeps_convtimer trivial hk
  · have hclose : ¬ TimerCloses env s.conv := fun hc => hmis ⟨by
      have := hs.1
      have : live s.conv.state ≤ 1 := by cases s.conv.state <;> decide
      omega, hc⟩
    refine good_call (wp_mono (held_convtimer hs hclose) (fun _ _ h => h.inv_update)
      fun e _ h => ?_)
    cases e with
    | error msg => exact Held.inv_update h
    | panic p => exact h

theorem good_reader {s : Slot} {k : ℕ} {pc : ReaderPc} {r : ReadResult} (hs : s.Inv)
    (hpc : s.readers[k]? = some pc) (hmis : ¬ Misstep env s (.reader k r)) :
    Good (s.call (readerStep L env pc r) fun s pc' =>
      match pc' with
      | some pc' => { s with readers := s.readers.set k pc' }
      | none => { s with readers := s.readers.eraseIdx k }) := by
  obtain ⟨hlt, -⟩ := List.getElem?_eq_some_iff.mp hpc
  obtain ⟨h1, h2, h3, h4⟩ := hs
  have hstep := held_readerStep (L := L) (c := s.conv) pc r
    (k := s.nfile + s.readers.length - 1) (d := s.ndata) (by omega) (by omega) (by omega)
    (by simp only [Slot.nfile]; omega) ⟨by omega, h2, h3, h4⟩
    fun pkt hgot hmov hr => hmis ⟨pkt, hgot ▸ hpc, hmov, hr⟩
  refine good_call (wp_mono hstep ?_ ?_)
  · rintro (_ | pc') w ⟨h1, h2, h3, h4⟩
    · refine ⟨?_, h2, h3, h4⟩
      simp only [Slot.update, Slot.nfile, List.length_append, List.length_replicate,
        List.length_eraseIdx] at *
      rw [if_pos (by omega)]
      simp at h1
      push_cast [Nat.cast_sub (show 1 ≤ s.readers.length + w.nreader by omega)]
      omega
    · refine ⟨?_, h2, h3, h4⟩
      simp only [Slot.update, Slot.nfile, List.length_append, List.length_replicate,
        List.length_set, Option.isSome_some, if_true] at *
      omega
  · rintro _ w ⟨p, rfl, hp⟩
    exact hp

/-- Every step of a conversation but the missteps keeps the count. -/
theorem good_step {s : Slot} {op : Op} {r : Except Panic Slot} (hs : s.Inv)
    (hmis : ¬ Misstep env s op) (h : s.step L env op = some r) : Good r := by
  have hopens : ∀ file, s.opens file ≠ 0 → 1 ≤ s.nfile + s.readers.length := fun file ho => by
    have := nfile_pos ho
    omega
  cases op <;> simp only [Slot.step] at h
  case «open» file user perm =>
    obtain rfl := Option.some.inj h
    exact good_open hs hmis
  case close file =>
    split at h
    · simp at h
    · obtain rfl := Option.some.inj h
      exact good_close hs ‹_› hmis
  case ctl f =>
    split at h
    · simp at h
    · rename_i ho
      obtain rfl := Option.some.inj h
      exact good_of_keeps hs keeps_sdpctl (fun hd hr => hmis ⟨ho, hd, hr⟩) (hopens .Qctl ho)
  case timer =>
    split at h
    · obtain rfl := Option.some.inj h
      exact good_timer hs ‹_› hmis
    · simp at h
  case readcontrol =>
    split at h
    · simp at h
    · obtain rfl := Option.some.inj h
      exact good_of_keeps hs keeps_readcontrol trivial (hopens .Qcontrol ‹_›)
  case writecontrol p =>
    split at h
    · simp at h
    · rename_i ho
      obtain rfl := Option.some.inj h
      rcases not_and_or.mp ho with ho | ho
      · exact good_of_keeps hs keeps_writecontrol trivial (hopens .Qcontrol ho)
      · exact good_of_keeps hs keeps_writecontrol trivial (hopens .Qctl ho)
  case writedata b =>
    split at h
    · simp at h
    · obtain rfl := Option.some.inj h
      exact good_of_keeps hs keeps_writedata trivial (hopens .Qdata ‹_›)
  case readdata pkt =>
    split at h
    · simp at h
    · rename_i ho
      obtain rfl := Option.some.inj h
      have ho := (not_or.mp ho).1
      exact good_of_keeps hs keeps_conviput (fun hm hr => hmis ⟨ho, hm, hr⟩) (hopens .Qdata ho)
  case reader k r =>
    cases hpc : s.readers[k]? with
    | none => simp [hpc] at h
    | some pc =>
        simp only [hpc] at h
        obtain rfl := Option.some.inj h
        exact good_reader hs hpc hmis

/-- A step of the system takes no misstep in a conversation. -/
def StepsWell (d : SdpDev) (e : Env × Event) : Prop :=
  match e.2 with
  | .clone _ _ => True
  | .call i op => ∀ s, d.conv[i]? = some s → ¬ Misstep e.1 s op

/-- All conversations of the table keep their counts. -/
def SdpDev.Inv (d : SdpDev) : Prop := ∀ s ∈ d.conv, s.Inv

theorem findFree_some {busy : ℕ → Bool} {i k : ℕ} {ss : List Slot}
    (h : findFree busy i ss = some k) : ∃ s, ss[k - i]? = some s ∧ s.conv.ref = 0 ∧ i ≤ k := by
  induction ss generalizing i with
  | nil => simp [findFree] at h
  | cons s ss ih =>
      simp only [findFree] at h
      split at h
      · rename_i hs
        obtain rfl := Option.some.inj h
        exact ⟨s, by simp, hs.1, le_rfl⟩
      · obtain ⟨s', h1, h2, h3⟩ := ih h
        refine ⟨s', ?_, h2, by omega⟩
        rw [show k - i = k - (i + 1) + 1 by omega, List.getElem?_cons_succ]
        exact h1

/-- A conversation without references has no files and no readers, and is set up with two. -/
theorem inv_cloned {s : Slot} {user : String} (hs : s.Inv) (href : s.conv.ref = 0) :
    Slot.Inv { s with conv := cloned user s.conv, nother := s.nother + 1 } := by
  obtain ⟨h1, h2, h3, h4⟩ := hs
  have hl := live_nonneg s.conv.state
  refine ⟨?_, ⟨fun h0 => by simp [cloned] at h0, fun h0 => by simp [cloned] at h0⟩, h3, h4⟩
  simp only [cloned, Slot.nfile, live] at *
  simp
  omega

/-- What a step of the system may lead to. -/
def GoodDev (r : Except Panic SdpDev) : Prop :=
  match r with
  | .ok d => d.Inv
  | .error p => ¬ RefPanic p

theorem inv_set {d : SdpDev} {i : ℕ} {s : Slot} (hd : d.Inv) (hs : s.Inv) :
    SdpDev.Inv ⟨d.conv.set i s⟩ := by
  intro s' hs'
  rcases List.mem_or_eq_of_mem_set hs' with h | rfl
  · exact hd _ h
  · exact hs

theorem good_sdpclone {d : SdpDev} {user : String} {busy : ℕ → Bool} (hd : d.Inv) :
    GoodDev (sdpclone d user busy) := by
  unfold sdpclone
  cases hf : findFree busy 0 d.conv with
  | some i =>
      obtain ⟨s, hi, href, -⟩ := findFree_some hf
      rw [Nat.sub_zero] at hi
      have hs : s.Inv := hd s (List.mem_of_getElem? hi)
      simp only [hi, hs.2.1.mp href, if_true]
      exact inv_set hd (inv_cloned hs href)
  | none =>
      dsimp only
      split
      · intro s hs
        rcases List.mem_append.mp hs with hs | hs
        · exact hd s hs
        · obtain rfl := List.mem_singleton.mp hs
          exact ⟨rfl, by simp [cloned], rfl, rfl⟩
      · exact hd

theorem good_devStep {d : SdpDev} {e : Env × Event} {r : Except Panic SdpDev} (hd : d.Inv)
    (hwell : StepsWell d e) (h : d.step L e.1 e.2 = some r) : GoodDev r := by
  obtain ⟨env, ⟨user, busy⟩ | ⟨i, op⟩⟩ := e
  · obtain rfl := Option.some.inj h
    exact good_sdpclone hd
  · simp only [SdpDev.step] at h
    cases hi : d.conv[i]? with
    | none => simp [hi] at h
    | some s =>
        rw [hi] at h
        obtain ⟨r', hr', rfl⟩ := Option.map_eq_some_iff.mp h
        have hgood := good_step (hd s (List.mem_of_getElem? hi)) (hwell s hi) hr'
        cases r' with
        | ok s' => exact inv_set hd hgood
        | error p => exact hgood

theorem inv_of_run {d : SdpDev} (h : Run (Step L) StepsWell {} d) : d.Inv := by
  refine h.invariant (by simp [SdpDev.Inv]) fun t e u hinv hwell hstep => ?_
  exact good_devStep hinv hwell hstep

/-- In every run without missteps the references of all conversations are counted right, and no
assertion on them fails next. -/
theorem counted_of_run {d : SdpDev} (h : Run (Step L) StepsWell {} d) :
    (∀ s ∈ d.conv, s.Counted) ∧
      ∀ e p, StepsWell d e → d.step L e.1 e.2 = some (.error p) → p ≠ .sdpclone ∧
        p ≠ .convderef := by
  have hinv := inv_of_run h
  refine ⟨fun s hs => (hinv s hs).counted, fun e p hwell hstep => ?_⟩
  have hgood : ¬ RefPanic p := good_devStep hinv hwell hstep
  exact not_or.mp hgood

/-- A security library that computes nothing. -/
def Libsec.null : Libsec where
  md5 _ := List.replicate 16 0
  sha1 _ := List.replicate 20 0
  block_cipher _ l _ := l
  rc4stream _ _ := 0
  length_md5 _ := rfl
  length_sha1 _ := rfl
  length_block_cipher _ _ _ h := h

theorem counted_of_run_cloned :
    let d : SdpDev := ⟨[{ conv := cloned "u" {}, nother := 1 }]⟩
    (∀ s ∈ d.conv, s.Counted) ∧
      ∀ e p, StepsWell d e → d.step Libsec.null e.1 e.2 = some (.error p) →
        p ≠ .sdpclone ∧ p ≠ .convderef :=
  counted_of_run (.snoc .nil (e := ({}, .clone "u" fun _ => false)) trivial rfl)

/-- A conversation is cloned, its control file opened, and both of its files closed. It is left
closed without references, and the next clone stops the machine. -/
theorem not_counted_of_close_unconnected :
    ∃ d, Run (Step Libsec.null) (fun _ _ => True) {} d ∧ (∃ s ∈ d.conv, ¬ s.Counted) ∧
      d.step Libsec.null {} (.clone "u" fun _ => false) = some (.error .sdpclone) := by
  refine ⟨_, .snoc (.snoc (.snoc (.snoc .nil (e := ({}, .clone "u" fun _ => false)) trivial rfl)
    (e := ({}, .call 0 (.open .Qcontrol "u" 0))) trivial rfl)
    (e := ({}, .call 0 (.close .Qctl))) trivial rfl)
    (e := ({}, .call 0 (.close .Qcontrol))) trivial rfl, ⟨_, List.mem_singleton.mpr rfl, ?_⟩, rfl⟩
  rintro ⟨-, h⟩
  exact absurd (h.mp rfl) (by decide)

end PlanNine.Sdp
