import PlanNine.Lib.Dlist
import PlanNine.Lib.Run

/-!
# The timers of TCP

The four timers of a conversation lie in its control block and are linked into one list of all
timers that run. The routines that touch the list are here, with the stores in the order of the
source; a panic is an error.

The functions that a timer calls when it has expired go through `tcpgo` and `tcphalt` like the rest
of TCP, so that they are calls of their own here. The counters for keepalives and round trips are
left out.

## Main definitions

* `TimerId`, `Tcptimer`, `Timers`: a timer of a conversation, its fields, and all of them.
* `timerstate`, `tcpgo`, `tcphalt`, `tcpackproc`: the routines on the list.
* `tcpstartka`, `localclose`, `tcpincoming`: what other routines do to timers.
* `Listed`: the list holds the timers that run.
* `Event`, `step`, `Sound`: the calls, and those that keep the list.

## Main results

* `listed_timerstate`: starting and stopping a timer.
* `listed_tickLoop`: a tick of `tcpackproc`.
* `listed_iff_sound`: which calls keep the list in order.
* `listed_of_run`: runs of such calls.
* `not_listed_of_keepalive`: a call that comes in on a listener with a keepalive timer.
-/

namespace PlanNine.TcpProto.Timer

def MSPTICK : ℕ := 50

inductive Which
  | timer
  | acktimer
  | rtt_timer
  | katimer
  deriving DecidableEq, Repr

/-- The address of a timer: one of those in the control block of a conversation. -/
structure TimerId where
  conv : ℕ
  which : Which
  deriving DecidableEq, Repr

inductive TimerState
  | off
  | on
  | done
  deriving DecidableEq, Repr

/-- A timer; `arg` is the conversation that its function is called for. -/
structure Tcptimer where
  next : Option TimerId := none
  prev : Option TimerId := none
  readynext : Option TimerId := none
  state : TimerState := .off
  start : ℤ := 0
  count : ℤ := 0
  arg : ℕ := 0
  deriving DecidableEq, Repr

/-- The list of active timers, and the timers of all conversations. -/
structure Timers where
  timers : Option TimerId := none
  timer : TimerId → Tcptimer := fun _ => {}

namespace Timers

variable (s : Timers) (t : TimerId)

/-- Store to fields of one timer. -/
def modify (f : Tcptimer → Tcptimer) : Timers :=
  { s with timer := Function.update s.timer t (f (s.timer t)) }

def setNext (v : Option TimerId) : Timers := s.modify t fun p => { p with next := v }

def setPrev (v : Option TimerId) : Timers := s.modify t fun p => { p with prev := v }

def setState (v : TimerState) : Timers := s.modify t fun p => { p with state := v }

/-- The pointers of the list. -/
def dlist : Dlist TimerId where
  head := s.timers
  next t := (s.timer t).next
  prev t := (s.timer t).prev

end Timers

/-! ### The list of active timers -/

/-- Link the neighbours of a timer to each other. -/
def unchain (s : Timers) (t : TimerId) : Timers :=
  let s := match (s.timer t).next with
    | some f => s.setPrev f (s.timer t).prev
    | none => s
  let s := match (s.timer t).prev with
    | some b => s.setNext b (s.timer t).next
    | none => s
  (s.setNext t none).setPrev t none

/-- Put a timer in front. -/
def chain (s : Timers) (t : TimerId) : Timers :=
  let s := (s.setPrev t none).setNext t s.timers
  let s := match (s.timer t).next with
    | some f => s.setPrev f (some t)
    | none => s
  { s with timers := some t }

def timerstate (s : Timers) (t : TimerId) (newstate : TimerState) : Except String Timers :=
  if newstate ≠ .on then
    if (s.timer t).state = .on then
      if s.timers = some t then
        if (s.timer t).prev ≠ none then .error "timerstate1"
        else .ok ((unchain { s with timers := (s.timer t).next } t).setState t newstate)
      else .ok ((unchain s t).setState t newstate)
    else .ok (s.setState t newstate)
  else
    if (s.timer t).state ≠ .on then
      if (s.timer t).prev ≠ none ∨ (s.timer t).next ≠ none then .error "timerstate2"
      else .ok ((chain s t).setState t newstate)
    else .ok (s.setState t newstate)

def tcpgo (s : Timers) (t : TimerId) : Except String Timers :=
  if (s.timer t).start = 0 then .ok s
  else timerstate (s.modify t fun p => { p with count := p.start }) t .on

def tcphalt (s : Timers) (t : TimerId) : Except String Timers := timerstate s t .off

/-- The walk of `tcpackproc` over the list, with the timers that have expired so far. -/
def tickLoop : ℕ → Timers → Option TimerId → Option TimerId →
    Except String (Timers × Option TimerId)
  | _, s, none, timeo => .ok (s, timeo)
  | 0, _, some _, _ => .error "tcpackproc1"
  | n + 1, s, some t, timeo =>
      let tp := (s.timer t).next
      if (s.timer t).state = .on then
        let s := s.modify t fun p => { p with count := p.count - 1 }
        if (s.timer t).count = 0 then
          match timerstate s t .done with
          | .error e => .error e
          | .ok s => tickLoop n (s.modify t fun p => { p with readynext := timeo }) tp (some t)
        else tickLoop n s tp timeo
      else tickLoop n s tp timeo

/-- One tick: the timers, and the list of those that have expired. -/
def tcpackproc (s : Timers) : Except String (Timers × Option TimerId) :=
  tickLoop 10001 s s.timers none

/-! ### Other routines -/

/-- The control message `keepalive`, with its argument in milliseconds. -/
def tcpstartka (s : Timers) (c : ℕ) (x : Option ℤ) : Except String Timers :=
  let s := match x with
    | some x =>
        if (MSPTICK : ℤ) ≤ x then
          s.modify ⟨c, .katimer⟩ fun p => { p with start := x / MSPTICK }
        else s
    | none => s
  tcpgo s ⟨c, .katimer⟩

/-- A conversation is closed: its timers are stopped. -/
def localclose (s : Timers) (c : ℕ) : Except String Timers :=
  tcphalt s ⟨c, .timer⟩ >>= fun s => tcphalt s ⟨c, .rtt_timer⟩ >>= fun s =>
    tcphalt s ⟨c, .acktimer⟩ >>= fun s => tcphalt s ⟨c, .katimer⟩

/-- The conversation `new` for a call that came in on `l`: its control block is a copy of that of
the listener. -/
def tcpincoming (s : Timers) (l new : ℕ) : Timers :=
  { s with
    timer := fun t =>
      if t.conv = new then { s.timer ⟨l, t.which⟩ with arg := new, state := .off } else s.timer t }

/-- The calls. -/
inductive Event
  | tcpgo (t : TimerId)
  | tcphalt (t : TimerId)
  | tick
  | keepalive (c : ℕ) (x : Option ℤ)
  | close (c : ℕ)
  | incoming (l new : ℕ)

def step (s : Timers) : Event → Except String Timers
  | .tcpgo t => tcpgo s t
  | .tcphalt t => tcphalt s t
  | .tick => (tcpackproc s).map Prod.fst
  | .keepalive c x => tcpstartka s c x
  | .close c => localclose s c
  | .incoming l new => .ok (tcpincoming s l new)

/-- No link is copied, and no running timer is overwritten. -/
def Sound (s : Timers) : Event → Prop
  | .incoming l new => ∀ w, (s.timer ⟨l, w⟩).next = none ∧ (s.timer ⟨l, w⟩).prev = none ∧
      (s.timer ⟨new, w⟩).state ≠ .on
  | _ => True

/-- The list `ts` holds each running timer once, and the others have nil links. -/
structure Listed (s : Timers) (ts : List TimerId) : Prop where
  linked : s.dlist.Linked ts
  mem_iff : ∀ t, t ∈ ts ↔ (s.timer t).state = .on

/-! ### Stores -/

section

variable {s : Timers} {t u : TimerId} {v : Option TimerId} {ts : List TimerId}

theorem timer_modify_self (f : Tcptimer → Tcptimer) :
    (s.modify t f).timer t = f (s.timer t) := Function.update_self _ _ _

theorem timer_modify_of_ne (h : u ≠ t) (f : Tcptimer → Tcptimer) :
    (s.modify t f).timer u = s.timer u := Function.update_of_ne h _ _

theorem dlist_modify (f : Tcptimer → Tcptimer) : (s.modify t f).dlist =
    ⟨s.timers, Function.update s.dlist.next t (f (s.timer t)).next,
      Function.update s.dlist.prev t (f (s.timer t)).prev⟩ := by
  have hnext := Function.comp_update Tcptimer.next s.timer t (f (s.timer t))
  have hprev := Function.comp_update Tcptimer.prev s.timer t (f (s.timer t))
  exact Dlist.ext rfl hnext hprev

theorem dlist_setNext : (s.setNext t v).dlist =
    { s.dlist with next := Function.update s.dlist.next t v } :=
  (dlist_modify _).trans (Dlist.ext rfl rfl (Function.update_eq_self t s.dlist.prev))

theorem dlist_setPrev : (s.setPrev t v).dlist =
    { s.dlist with prev := Function.update s.dlist.prev t v } :=
  (dlist_modify _).trans (Dlist.ext rfl (Function.update_eq_self t s.dlist.next) rfl)

/-- Other fields than the links do not matter to the list. -/
theorem dlist_modify_eq {f : Tcptimer → Tcptimer}
    (hnext : (f (s.timer t)).next = (s.timer t).next)
    (hprev : (f (s.timer t)).prev = (s.timer t).prev) : (s.modify t f).dlist = s.dlist := by
  rw [dlist_modify, hnext, hprev]
  exact Dlist.ext rfl (Function.update_eq_self t s.dlist.next)
    (Function.update_eq_self t s.dlist.prev)

theorem state_modify {f : Tcptimer → Tcptimer} (hstate : (f (s.timer t)).state = (s.timer t).state)
    (u : TimerId) : ((s.modify t f).timer u).state = (s.timer u).state := by
  by_cases hu : u = t
  · rw [hu, timer_modify_self, hstate]
  · rw [timer_modify_of_ne hu]

/-- A store to a field that is neither a link nor the state. -/
theorem Listed.modify (h : Listed s ts) {f : Tcptimer → Tcptimer}
    (hnext : (f (s.timer t)).next = (s.timer t).next)
    (hprev : (f (s.timer t)).prev = (s.timer t).prev)
    (hstate : (f (s.timer t)).state = (s.timer t).state) : Listed (s.modify t f) ts where
  linked := by
    rw [dlist_modify_eq hnext hprev]
    exact h.linked
  mem_iff u := by
    rw [state_modify hstate]
    exact h.mem_iff u

/-- The stores of `unchain` are those that take an element out of a list. -/
theorem dlist_unchain (hne : (s.timer t).next ≠ some t) :
    (unchain s t).dlist = { s.dlist.remove t with head := s.timers } := by
  unfold unchain Dlist.remove
  dsimp only
  rw [dlist_setPrev, dlist_setNext]
  have hn' : s.dlist.next t = (s.timer t).next := rfl
  have hp' : s.dlist.prev t = (s.timer t).prev := rfl
  rw [hn', hp']
  rcases hn : (s.timer t).next with _ | f
  · rcases hp : (s.timer t).prev with _ | b
    · simp only [hp]
      rfl
    · simp only [hp, hn, dlist_setNext]
      rfl
  · have hft : t ≠ f := fun heq => hne (hn.trans (congrArg some heq.symm))
    have hsame (v : Option TimerId) : (s.setPrev f v).timer t = s.timer t :=
      timer_modify_of_ne hft _
    rcases hp : (s.timer t).prev with _ | b
    · simp only [hsame, hp, dlist_setPrev]
      rfl
    · simp only [hsame, hp, hn, dlist_setNext, dlist_setPrev]
      rfl

/-- The stores of `chain` are those that put an element in front. -/
theorem dlist_chain : (chain s t).dlist = s.dlist.push t := by
  unfold chain Dlist.push
  have hself : (((s.setPrev t none).setNext t s.timers).timer t).next = s.timers :=
    congrArg Tcptimer.next (timer_modify_self _)
  have hhead : s.dlist.head = s.timers := rfl
  have hstores : ((s.setPrev t none).setNext t s.timers).dlist =
      ⟨s.timers, Function.update s.dlist.next t s.timers,
        Function.update s.dlist.prev t none⟩ := by
    rw [dlist_setNext, dlist_setPrev]
    rfl
  have hnext := congrArg Dlist.next hstores
  have hprev := congrArg Dlist.prev hstores
  dsimp only [Timers.dlist] at hnext hprev ⊢
  rw [hself]
  cases htm : s.timers with
  | none =>
    rw [htm] at hnext hprev
    exact Dlist.ext rfl hnext hprev
  | some f =>
    rw [htm] at hnext hprev
    have hf := dlist_setPrev (s := (s.setPrev t none).setNext t (some f)) (t := f) (v := some t)
    refine Dlist.ext rfl ((congrArg Dlist.next hf).trans hnext) ?_
    refine (congrArg Dlist.prev hf).trans ?_
    exact congrArg (fun g => Function.update g f (some t)) hprev

theorem state_unchain (u : TimerId) : ((unchain s t).timer u).state = (s.timer u).state := by
  have hset (s : Timers) (f : TimerId) (v : Option TimerId) :
      ((s.setPrev f v).timer u).state = (s.timer u).state ∧
        ((s.setNext f v).timer u).state = (s.timer u).state :=
    ⟨state_modify rfl u, state_modify rfl u⟩
  unfold unchain
  dsimp only
  rw [(hset _ _ _).1, (hset _ _ _).2]
  split
  · rw [(hset _ _ _).2]
    split
    · exact (hset _ _ _).1
    · rfl
  · split
    · exact (hset _ _ _).1
    · rfl

theorem state_chain (u : TimerId) : ((chain s t).timer u).state = (s.timer u).state := by
  have hset (s : Timers) (f : TimerId) (v : Option TimerId) :
      ((s.setPrev f v).timer u).state = (s.timer u).state ∧
        ((s.setNext f v).timer u).state = (s.timer u).state :=
    ⟨state_modify rfl u, state_modify rfl u⟩
  unfold chain
  dsimp only
  split
  · exact ((hset _ _ _).1.trans (hset _ _ _).2).trans (hset _ _ _).1
  · exact (hset _ _ _).2.trans (hset _ _ _).1

/-! ### Starting and stopping a timer -/

/-- The state of a timer is stored when the timer has been linked or unlinked. -/
theorem Listed.setState (h : Listed s ts) {s' : Timers} {ts' : List TimerId} {v : TimerState}
    (hlinked : s'.dlist.Linked ts') (hstate : ∀ u, (s'.timer u).state = (s.timer u).state)
    (hmem : ∀ u, u ≠ t → (u ∈ ts' ↔ u ∈ ts)) (hself : t ∈ ts' ↔ v = .on) :
    Listed (s'.setState t v) ts' where
  linked := by
    unfold Timers.setState
    rw [dlist_modify_eq]
    · exact hlinked
    · rfl
    · rfl
  mem_iff u := by
    unfold Timers.setState
    by_cases hu : u = t
    · rw [hu, timer_modify_self]
      exact hself
    · rw [timer_modify_of_ne hu, hmem u hu, hstate]
      exact h.mem_iff u

/-- A timer that is not running has nil links. -/
theorem Listed.off (h : Listed s ts) (ht : (s.timer t).state ≠ .on) :
    (s.timer t).next = none ∧ (s.timer t).prev = none := by
  have hmem : t ∉ ts := fun hmem => ht ((h.mem_iff t).mp hmem)
  exact ⟨(h.linked.next t).trans (Dlist.succ_of_not_mem hmem),
    (h.linked.prev t).trans (Dlist.pred_of_not_mem hmem)⟩

theorem Listed.next_eq {xs ys : List TimerId} (h : Listed s (xs ++ t :: ys)) :
    (s.timer t).next = ys.head? :=
  (h.linked.next t).trans (Dlist.succ_middle h.linked.nodup)

theorem Listed.start (h : Listed s ts) (ht : (s.timer t).state ≠ .on) :
    timerstate s t .on = .ok ((chain s t).setState t .on) ∧
      Listed ((chain s t).setState t .on) (t :: ts) := by
  have hmem : t ∉ ts := fun hmem => ht ((h.mem_iff t).mp hmem)
  obtain ⟨hnext, hprev⟩ := h.off ht
  refine ⟨?_, h.setState ?_ state_chain (fun u hu => ?_) (by simp)⟩
  · unfold timerstate
    rw [if_neg (not_not_intro rfl), if_pos ht, if_neg]
    exact fun hor => hor.elim (fun hne => hne hprev) (fun hne => hne hnext)
  · rw [dlist_chain]
    exact h.linked.push hmem
  · rw [List.mem_cons, or_iff_right hu]

theorem Listed.stop {xs ys : List TimerId} {v : TimerState} (h : Listed s (xs ++ t :: ys))
    (hv : v ≠ .on) :
    ∃ s', timerstate s t v = .ok s' ∧ Listed s' (xs ++ ys) := by
  have hon : (s.timer t).state = .on := (h.mem_iff t).mp (by simp)
  have hnodup := h.linked.nodup
  have hrest : t ∉ xs ++ ys := (List.nodup_cons.mp (List.nodup_middle.mp hnodup)).1
  have hne : (s.timer t).next ≠ some t := fun heq => by
    rw [h.next_eq] at heq
    exact hrest (List.mem_append_right _ (List.mem_of_mem_head? heq))
  have hprev : (s.timer t).prev = xs.getLast? := by
    refine (h.linked.prev t).trans ?_
    rw [Dlist.pred_middle hnodup, Option.or_none]
  have hmem (u : TimerId) (hu : u ≠ t) : u ∈ xs ++ ys ↔ u ∈ xs ++ t :: ys := by
    simp [hu]
  have hself : t ∈ xs ++ ys ↔ v = .on := ⟨fun ht => absurd ht hrest, fun heq => absurd heq hv⟩
  unfold timerstate
  rw [if_pos hv, if_pos hon]
  by_cases hhead : s.timers = some t
  · -- the head of the list has no element before it
    have hxs : xs = [] := by
      cases xs with
      | nil => rfl
      | cons x zs =>
        have hx : x = t := Option.some.inj (h.linked.head.symm.trans hhead)
        exact absurd (hx ▸ List.mem_cons_self) hrest
    subst hxs
    have hnil : (s.timer t).prev = none := hprev
    rw [if_pos hhead, if_neg (not_not_intro hnil)]
    refine ⟨_, rfl, h.setState ?_ state_unchain hmem hself⟩
    have heq : (unchain { s with timers := (s.timer t).next } t).dlist = s.dlist.remove t := by
      rw [dlist_unchain (s := { s with timers := (s.timer t).next }) hne]
      exact Dlist.ext (if_pos hhead).symm rfl rfl
    rw [heq]
    exact h.linked.remove
  · rw [if_neg hhead]
    refine ⟨_, rfl, h.setState ?_ state_unchain hmem hself⟩
    have heq : (unchain s t).dlist = s.dlist.remove t := by
      rw [dlist_unchain hne]
      exact Dlist.ext (if_neg hhead).symm rfl rfl
    rw [heq]
    exact h.linked.remove

/-- Where the state of a timer is stored and the timer neither starts nor stops, the list stays. -/
theorem Listed.same {v : TimerState} (h : Listed s ts) (hv : (s.timer t).state = .on ↔ v = .on) :
    timerstate s t v = .ok (s.setState t v) ∧ Listed (s.setState t v) ts := by
  refine ⟨?_, h.setState h.linked (fun u => rfl) (fun u _ => Iff.rfl)
    ((h.mem_iff t).trans hv)⟩
  unfold timerstate
  by_cases hon : v = .on
  · rw [if_neg (not_not_intro hon), if_neg (not_not_intro (hv.mpr hon)), hon]
  · rw [if_pos hon, if_neg fun h => hon (hv.mp h)]

/-- A timer starts or stops without a panic, and the list holds those that run. -/
theorem listed_timerstate (h : Listed s ts) (t : TimerId) (v : TimerState) :
    ∃ s' ts', timerstate s t v = .ok s' ∧ Listed s' ts' := by
  by_cases hon : (s.timer t).state = .on
  · by_cases hv : v = .on
    · obtain ⟨hok, hlisted⟩ := h.same (iff_of_true hon hv)
      exact ⟨_, _, hok, hlisted⟩
    · obtain ⟨xs, ys, hts⟩ := List.append_of_mem ((h.mem_iff t).mpr hon)
      obtain ⟨s', hok, hlisted⟩ := (hts ▸ h : Listed s (xs ++ t :: ys)).stop hv
      exact ⟨_, _, hok, hlisted⟩
  · by_cases hv : v = .on
    · obtain ⟨hok, hlisted⟩ := h.start hon
      exact ⟨_, _, hv ▸ hok, hlisted⟩
    · obtain ⟨hok, hlisted⟩ := h.same (iff_of_false hon hv)
      exact ⟨_, _, hok, hlisted⟩

theorem listed_tcpgo (h : Listed s ts) (t : TimerId) :
    ∃ s' ts', tcpgo s t = .ok s' ∧ Listed s' ts' := by
  unfold tcpgo
  split
  · exact ⟨s, ts, rfl, h⟩
  · exact listed_timerstate (h.modify rfl rfl rfl) t _

theorem listed_tcphalt (h : Listed s ts) (t : TimerId) :
    ∃ s' ts', tcphalt s t = .ok s' ∧ Listed s' ts' := listed_timerstate h t _

/-! ### Ticks -/

/-- The walk over what is left of the list: the timers that expire leave it. -/
theorem listed_tickLoop (n : ℕ) {xs ys : List TimerId} (h : Listed s (xs ++ ys))
    (timeo : Option TimerId) :
    tickLoop n s ys.head? timeo = .error "tcpackproc1" ∨
      ∃ s' timeo' ts', tickLoop n s ys.head? timeo = .ok (s', timeo') ∧ Listed s' ts' := by
  induction n generalizing s xs ys timeo with
  | zero =>
    cases ys with
    | nil => exact .inr ⟨s, timeo, _, rfl, h⟩
    | cons t zs => exact .inl rfl
  | succ n ih =>
    cases ys with
    | nil => exact .inr ⟨s, timeo, _, rfl, h⟩
    | cons t zs =>
      have hon : (s.timer t).state = .on := (h.mem_iff t).mp (by simp)
      have hcount : Listed (s.modify t fun p => { p with count := p.count - 1 })
          (xs ++ t :: zs) := h.modify rfl rfl rfl
      rw [List.head?_cons, tickLoop]
      dsimp only
      rw [if_pos hon, h.next_eq]
      split
      · obtain ⟨s', hok, hlisted⟩ := hcount.stop (v := .done) (by decide)
        rw [hok]
        exact ih (hlisted.modify rfl rfl rfl) _
      · exact ih (List.append_cons xs t zs ▸ hcount) _

/-- A tick keeps the list, unless there are more timers than `tcpackproc` stands. -/
theorem listed_tcpackproc (h : Listed s ts) :
    tcpackproc s = .error "tcpackproc1" ∨
      ∃ s' timeo ts', tcpackproc s = .ok (s', timeo) ∧ Listed s' ts' := by
  have hhead : s.timers = ts.head? := h.linked.head
  unfold tcpackproc
  rw [hhead]
  exact listed_tickLoop 10001 (List.nil_append ts ▸ h : Listed s ([] ++ ts)) none

/-! ### Other routines -/

theorem listed_tcpstartka (h : Listed s ts) (c : ℕ) (x : Option ℤ) :
    ∃ s' ts', tcpstartka s c x = .ok s' ∧ Listed s' ts' := by
  unfold tcpstartka
  split
  · split
    · exact listed_tcpgo (h.modify rfl rfl rfl) _
    · exact listed_tcpgo h _
  · exact listed_tcpgo h _

theorem listed_localclose (h : Listed s ts) (c : ℕ) :
    ∃ s' ts', localclose s c = .ok s' ∧ Listed s' ts' := by
  obtain ⟨s₁, ts₁, h₁, hlisted₁⟩ := listed_tcphalt h ⟨c, .timer⟩
  obtain ⟨s₂, ts₂, h₂, hlisted₂⟩ := listed_tcphalt hlisted₁ ⟨c, .rtt_timer⟩
  obtain ⟨s₃, ts₃, h₃, hlisted₃⟩ := listed_tcphalt hlisted₂ ⟨c, .acktimer⟩
  obtain ⟨s₄, ts₄, h₄, hlisted₄⟩ := listed_tcphalt hlisted₃ ⟨c, .katimer⟩
  refine ⟨s₄, ts₄, ?_, hlisted₄⟩
  unfold localclose
  rw [h₁]
  change (tcphalt s₁ _ >>= _) = _
  rw [h₂]
  change (tcphalt s₂ _ >>= _) = _
  rw [h₃]
  exact h₄

/-- Nothing is copied that is linked, and nothing linked is overwritten. -/
theorem listed_tcpincoming {l new : ℕ} (h : Listed s ts) (hsound : Sound s (.incoming l new)) :
    Listed (tcpincoming s l new) ts := by
  have hoff (u : TimerId) (hu : u.conv = new) : (s.timer u).state ≠ .on := by
    obtain ⟨c, w⟩ := u
    exact (show c = new from hu) ▸ (hsound w).2.2
  have htimer (u : TimerId) : (tcpincoming s l new).timer u =
      if u.conv = new then { s.timer ⟨l, u.which⟩ with arg := new, state := .off }
      else s.timer u := rfl
  have hnext (u : TimerId) : ((tcpincoming s l new).timer u).next = (s.timer u).next := by
    rw [htimer]
    split
    · rename_i hu
      exact (hsound u.which).1.trans (h.off (hoff u hu)).1.symm
    · rfl
  have hprev (u : TimerId) : ((tcpincoming s l new).timer u).prev = (s.timer u).prev := by
    rw [htimer]
    split
    · rename_i hu
      exact (hsound u.which).2.1.trans (h.off (hoff u hu)).2.symm
    · rfl
  refine ⟨?_, fun u => ?_⟩
  · have hdlist : (tcpincoming s l new).dlist = s.dlist :=
      Dlist.ext rfl (funext hnext) (funext hprev)
    rw [hdlist]
    exact h.linked
  · rw [h.mem_iff u, htimer]
    split
    · rename_i hu
      exact iff_of_false (hoff u hu) (by simp)
    · rfl

/-- An incoming call that leaves the list in order copies no link and overwrites no
running timer. -/
theorem sound_of_listed {l new : ℕ} (h : Listed s ts) {ts' : List TimerId}
    (h' : Listed (tcpincoming s l new) ts') : Sound s (.incoming l new) := by
  have hnew (u : TimerId) (hu : u.conv = new) : (tcpincoming s l new).timer u =
      { s.timer ⟨l, u.which⟩ with arg := new, state := .off } := if_pos hu
  have hold (u : TimerId) (hu : u.conv ≠ new) : (tcpincoming s l new).timer u = s.timer u :=
    if_neg hu
  have hnot (u : TimerId) (hu : u.conv = new) : u ∉ ts' := fun hmem => by
    have hon := (h'.mem_iff u).mp hmem
    rw [hnew u hu] at hon
    exact TimerState.noConfusion hon
  -- the first running timer of the new conversation would still be pointed to
  have hnone (u : TimerId) (hu : u.conv = new) : u ∉ ts := fun hmem => by
    obtain ⟨x, hx⟩ : ∃ x, ts.find? (fun u => u.conv = new) = some x :=
      Option.isSome_iff_exists.mp (List.find?_isSome.mpr ⟨u, hmem, decide_eq_true hu⟩)
    obtain ⟨hxnew, xs, ys, rfl, hxs⟩ := List.find?_eq_some_iff_append.mp hx
    refine hnot x (of_decide_eq_true hxnew) ?_
    have hpred := Dlist.pred_middle (p := none) h.linked.nodup
    rcases xs.eq_nil_or_concat with rfl | ⟨zs, b, rfl⟩
    · have hhead : ts'.head? = some x := h'.linked.head.symm.trans h.linked.head
      exact List.mem_of_mem_head? hhead
    · have hb : b.conv ≠ new := by
        have := hxs b (by simp)
        simpa using this
      rw [List.concat_eq_append, List.append_assoc] at h
      have hsucc : ((tcpincoming s l new).timer b).next = some x := by
        rw [hold b hb]
        exact h.next_eq
      exact Dlist.mem_of_succ ((h'.linked.next b).symm.trans hsucc)
  intro w
  have hlinks := h'.off (t := ⟨new, w⟩) (by rw [hnew _ rfl]; exact nofun)
  rw [hnew _ rfl] at hlinks
  exact ⟨hlinks.1, hlinks.2, fun hon => hnone ⟨new, w⟩ rfl ((h.mem_iff _).mpr hon)⟩

/-! ### Runs -/

/-- A call keeps the list, or is a tick over more timers than `tcpackproc` stands. -/
theorem listed_step {e : Event} (h : Listed s ts) (hsound : Sound s e) :
    step s e = .error "tcpackproc1" ∨ ∃ s' ts', step s e = .ok s' ∧ Listed s' ts' := by
  cases e with
  | tcpgo t => exact .inr (listed_tcpgo h t)
  | tcphalt t => exact .inr (listed_tcphalt h t)
  | tick =>
    unfold step
    dsimp only
    obtain herr | ⟨s', timeo, ts', hok, hlisted⟩ := listed_tcpackproc h
    · rw [herr]
      exact .inl rfl
    · rw [hok]
      exact .inr ⟨s', ts', rfl, hlisted⟩
  | keepalive c x => exact .inr (listed_tcpstartka h c x)
  | close c => exact .inr (listed_localclose h c)
  | incoming l new => exact .inr ⟨_, ts, rfl, listed_tcpincoming h hsound⟩

/-- The calls that leave the list in order are those of `Sound`. -/
theorem listed_iff_sound {e : Event} (h : Listed s ts) :
    (step s e = .error "tcpackproc1" ∨ ∃ s' ts', step s e = .ok s' ∧ Listed s' ts') ↔
      Sound s e := by
  refine ⟨fun hstep => ?_, listed_step h⟩
  cases e with
  | incoming l new =>
    obtain herr | ⟨s', ts', hok, hlisted⟩ := hstep
    · exact absurd herr (by simp [step])
    · cases hok
      exact sound_of_listed h hlisted
  | _ => trivial

/-- No call panics because of the list when the list is in order. -/
theorem ne_panic_of_listed (h : Listed s ts) (e : Event) :
    step s e ≠ .error "timerstate1" ∧ step s e ≠ .error "timerstate2" := by
  have hcases : step s e = .error "tcpackproc1" ∨ ∃ s', step s e = .ok s' := by
    by_cases hsound : Sound s e
    · exact (listed_step h hsound).imp_right fun ⟨s', _, hok, _⟩ => ⟨s', hok⟩
    · cases e with
      | incoming l new => exact .inr ⟨_, rfl⟩
      | _ => exact absurd trivial hsound
  obtain herr | ⟨s', hok⟩ := hcases
  · rw [herr]
    exact ⟨by simp, by simp⟩
  · rw [hok]
    exact ⟨nofun, nofun⟩

/-- In runs where calls come in on listeners with no timer on the list, the list stays in order:
it holds each timer once that runs, the others have nil links, and no call panics. -/
theorem listed_of_run {s₀ : Timers} (htimers : s₀.timers = none)
    (hoff : ∀ t, (s₀.timer t).next = none ∧ (s₀.timer t).prev = none ∧ (s₀.timer t).state ≠ .on)
    (hrun : Run (fun s e s' => step s e = .ok s') Sound s₀ s) :
    (∃ ts, Listed s ts) ∧
      (∀ t, (s.timer t).state ≠ .on → (s.timer t).next = none ∧ (s.timer t).prev = none) ∧
      ∀ e, step s e ≠ .error "timerstate1" ∧ step s e ≠ .error "timerstate2" := by
  have h₀ : ∃ ts, Listed s₀ ts :=
    ⟨[], ⟨List.nodup_nil, htimers, fun t => (hoff t).1, fun t => (hoff t).2.1⟩,
      fun t => iff_of_false List.not_mem_nil (hoff t).2.2⟩
  have hkept (s s' : Timers) (e : Event) (hinv : ∃ ts, Listed s ts) (hsound : Sound s e)
      (hstep : step s e = .ok s') : ∃ ts, Listed s' ts := by
    obtain ⟨ts, h⟩ := hinv
    obtain herr | ⟨s₁, ts₁, hok, hlisted⟩ := listed_step h hsound
    · exact absurd (hstep.symm.trans herr) nofun
    · exact ⟨ts₁, Except.ok.inj (hstep.symm.trans hok) ▸ hlisted⟩
  obtain ⟨ts, h⟩ := @Run.invariant _ _ _ _ _ _ (fun s => ∃ ts, Listed s ts) h₀
    (fun s e s' => hkept s s' e) hrun
  exact ⟨⟨ts, h⟩, fun t ht => h.off ht, ne_panic_of_listed h⟩

end

/-- A call comes in on a listener, and its keepalive timer is started and stopped. -/
theorem listed_call :
    ∃ s, (∃ ts, Listed s ts) ∧ (s.timer ⟨2, .katimer⟩).arg = 2 ∧
      ∀ e, step s e ≠ .error "timerstate1" ∧ step s e ≠ .error "timerstate2" := by
  have hrun : ∃ s, Run (fun s e s' => step s e = .ok s') Sound {} s ∧
      (s.timer ⟨2, .katimer⟩).arg = 2 :=
    ⟨_, ((Run.nil.snoc (e := .keepalive 1 (some 2000)) trivial rfl).snoc
      (e := .incoming 0 2) (fun w => by cases w <;> decide) rfl).snoc
      (e := .tcpgo ⟨2, .katimer⟩) trivial rfl, rfl⟩
  obtain ⟨s, hrun, harg⟩ := hrun
  obtain ⟨hlisted, -, hpanic⟩ := listed_of_run rfl (fun t => ⟨rfl, rfl, by simp⟩) hrun
  exact ⟨s, hlisted, harg, hpanic⟩

/-- The list breaks: the call that comes in on a listener with a keepalive timer on the list has a
timer that is off and yet linked, and starting this timer panics. -/
theorem not_listed_of_keepalive :
    ∃ s, Run (fun s e s' => step s e = .ok s') (fun _ _ => True) {} s ∧
      (s.timer ⟨2, .katimer⟩).state ≠ .on ∧ (s.timer ⟨2, .katimer⟩).prev ≠ none ∧
      step s (.tcpgo ⟨2, .katimer⟩) = .error "timerstate2" :=
  ⟨_, ((Run.nil.snoc (e := .keepalive 0 (some 2000)) trivial rfl).snoc
    (e := .keepalive 1 (some 2000)) trivial rfl).snoc (e := .incoming 0 2) trivial rfl,
    by decide, by decide, rfl⟩

end PlanNine.TcpProto.Timer
