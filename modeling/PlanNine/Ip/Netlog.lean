import PlanNine.Lib.Cyclic
import PlanNine.Lib.Run
import PlanNine.Lib.Ulong

/-!
# The network log

`netlogopen`, `netlogclose`, `netlogread` and `netlog` of `netlog.c`. Messages are copied to a
buffer in which they go round; a message for which there is no room takes that of the oldest bytes.
The buffer is allocated when the log is opened and freed when the last one closes it; how many bytes
are unread is left as it was.

Pointers into the buffer are offsets, and no buffer is the empty list. An access outside of the
buffer is a fault. A read of a log with nothing unread sleeps, it takes no step. What a command
leaves in `logmask` is an input.

## Main definitions

* `Netlog`, `netlogopen`, `netlogclose`, `netlogread`, `netlog`: the log.
* `Account`: what was logged since the log was opened, and what a reader should have got of it.
* `Sys`, `exec`: the log with its account.
* `Faithful`: the reads gave what they should, and the buffer holds what is unread.
* `Tidy`: the log is opened with nothing unread and closed by those who opened it.

## Main results

* `faithful_iff`: the log is faithful throughout just when all calls are tidy.
-/

namespace PlanNine.NetworkLog

def Nlog : ℕ := 4 * 1024

/-- The value of an `int`. -/
def int (x : ℤ) : ℤ := long (ulong x)

structure Netlog where
  opens : ℤ
  buf : List UInt8
  /-- The first unread byte. -/
  rptr : ℕ
  len : ℕ
  logmask : ℕ
  deriving DecidableEq, Repr

def netloginit : Netlog := ⟨0, [], 0, 0, 0⟩

/-- What `vseprint` leaves in a buffer of 128 bytes, of which the last one ends the text. -/
structure Text where
  bytes : List UInt8
  short : bytes.length < 128
  deriving DecidableEq, Repr

/-- Open the log; `mem` tells whether there is memory for a buffer. -/
def netlogopen (f : Netlog) (mem : Bool) : Netlog :=
  let f :=
    if f.opens = 0 then
      { f with
        buf := if f.buf = [] ∧ mem then List.replicate Nlog 0 else f.buf
        rptr := 0 }
    else f
  { f with opens := int (f.opens + 1) }

def netlogclose (f : Netlog) : Netlog :=
  let f := { f with opens := int (f.opens - 1) }
  if f.opens = 0 then { f with buf := [] } else f

/-- A pointer that may be behind the end of the buffer. -/
def wrap (p : ℕ) : ℕ := if Nlog ≤ p then p - Nlog else p

/-- The bytes read of a log that has unread ones. -/
def netlogread (f : Netlog) (n : ℤ) : Option (List UInt8 × Netlog) :=
  if n < 0 then none
  else
    let n := if f.len < n.toNat then f.len else n.toNat
    let d := if Nlog ≤ f.rptr + n then f.rptr + n - Nlog else 0
    let p := (f.buf.drop f.rptr).take (n - d) ++ f.buf.take d
    -- a part that is missing lies outside of the buffer
    if p.length = n then some (p, { f with rptr := wrap (f.rptr + n), len := f.len - n }) else none

/-- Copy bytes to the buffer from a place on. -/
def copy : ℕ → List UInt8 → List UInt8 → Option (List UInt8)
  | _, [], buf => some buf
  | t, c :: fp, buf =>
      if wrap t < buf.length then copy (wrap t + 1) fp (buf.set (wrap t) c) else none

/-- The message goes to the log. -/
def Netlog.logs (f : Netlog) (mask : ℕ) : Bool := f.logmask &&& mask ≠ 0 ∧ f.opens ≠ 0

def netlog (f : Netlog) (mask : ℕ) (text : Text) : Option Netlog :=
  if f.logs mask then
    let i := f.len + text.bytes.length - Nlog
    let f := if 0 < i then { f with len := f.len - i, rptr := wrap (f.rptr + i) } else f
    (copy (f.rptr + f.len) text.bytes f.buf).map fun buf =>
      { f with buf := buf, len := f.len + text.bytes.length }
  else some f

/-! ### What a reader should get -/

/-- The bytes logged, those of them that are gone, and those that were read: they are some of those
gone, in order. -/
structure Account where
  logged : List UInt8
  pos : ℕ
  read : List UInt8
  le : pos ≤ logged.length
  sublist : read.Sublist (logged.take pos)

namespace Account

def empty : Account := ⟨[], 0, [], le_rfl, .slnil⟩

/-- More bytes; the oldest unread ones go when there are more than `Nlog`. -/
def log (a : Account) (m : List UInt8) : Account where
  logged := a.logged ++ m
  pos := max a.pos (a.logged.length + m.length - Nlog)
  read := a.read
  le := by
    have := a.le
    rw [List.length_append]
    omega
  sublist := by
    refine a.sublist.trans ?_
    rw [← List.take_append_of_le_length a.le]
    exact List.take_sublist_take_left (le_max_left _ _)

/-- The next `n` bytes are read, or all that are left. -/
def take (a : Account) (n : ℕ) : Account where
  logged := a.logged
  pos := min (a.pos + n) a.logged.length
  read := a.read ++ (a.logged.drop a.pos).take n
  le := min_le_right _ _
  sublist := by
    have hsplit : a.logged.take (min (a.pos + n) a.logged.length) =
        a.logged.take a.pos ++ (a.logged.drop a.pos).take n := by
      rw [← List.take_eq_take_min, List.take_add]
    rw [hsplit]
    exact a.sublist.append (List.Sublist.refl _)

end Account

/-! ### Calls -/

/-- The log, what was logged since it was opened, the bytes that the reads gave since then, and
whether there was an access outside of the buffer. -/
structure Sys where
  log : Netlog
  account : Account
  returned : List UInt8
  fault : Bool

inductive Event
  | netlogopen (mem : Bool)
  | netlogclose
  | netlogctl (logmask : ℕ)
  | netlog (mask : ℕ) (text : Text)
  | netlogread (n : ℤ)
  deriving DecidableEq, Repr

namespace Sys

def start : Sys := ⟨netloginit, .empty, [], false⟩

def exec (s : Sys) : Event → Option Sys
  | .netlogopen mem =>
      if s.fault then none
      else if s.log.opens = 0 then some ⟨netlogopen s.log mem, .empty, [], false⟩
      else some { s with log := netlogopen s.log mem }
  | .netlogclose => if s.fault then none else some { s with log := netlogclose s.log }
  | .netlogctl logmask =>
      if s.fault then none else some { s with log := { s.log with logmask := logmask } }
  | .netlog mask text =>
      if s.fault then none
      else
        match NetworkLog.netlog s.log mask text with
        | none => some { s with fault := true }
        | some f =>
            let account := if s.log.logs mask then s.account.log text.bytes else s.account
            some { s with log := f, account := account }
  | .netlogread n =>
      -- with nothing unread the process sleeps
      if s.fault ∨ s.log.len = 0 then none
      else
        match NetworkLog.netlogread s.log n with
        | none => some { s with fault := true }
        | some (p, f) =>
            some { s with
              log := f
              account := s.account.take n.toNat
              returned := s.returned ++ p }

/-- The reads gave what they should have given, an open log has a buffer, and it holds what is
unread. -/
structure Faithful (s : Sys) : Prop where
  sound : s.fault = false
  returned : s.returned = s.account.read
  inside : s.log.opens ≠ 0 → s.log.buf ≠ []
  ring : s.log.buf ≠ [] → s.log.buf.length = Nlog ∧ s.log.rptr < Nlog ∧ s.log.len ≤ Nlog ∧
    cyclic s.log.buf s.log.rptr s.log.len = s.account.logged.drop s.account.pos

/-- The first one to open the log finds nothing unread, and memory for a buffer; it is closed and
read while it has a buffer, and counts are not negative. -/
def Tidy (s : Sys) : Event → Prop
  | .netlogopen mem => s.log.opens = 0 → s.log.len = 0 ∧ (s.log.buf = [] → mem = true)
  | .netlogclose => s.log.buf ≠ []
  | .netlogctl _ => True
  | .netlog _ _ => True
  | .netlogread n => 0 ≤ n ∧ (n = 0 ∨ s.log.buf ≠ [])

instance (s : Sys) : (e : Event) → Decidable (s.Tidy e)
  | .netlogopen mem =>
      inferInstanceAs (Decidable (s.log.opens = 0 → s.log.len = 0 ∧ (s.log.buf = [] → mem = true)))
  | .netlogclose => inferInstanceAs (Decidable (s.log.buf ≠ []))
  | .netlogctl _ => inferInstanceAs (Decidable True)
  | .netlog _ _ => inferInstanceAs (Decidable True)
  | .netlogread n => inferInstanceAs (Decidable (0 ≤ n ∧ (n = 0 ∨ s.log.buf ≠ [])))

end Sys

open Sys

variable {s t : Sys} {mem : Bool} {mask : ℕ} {text : Text} {n : ℤ} {buf fp : List UInt8} {r k p : ℕ}

/-! ### The buffer -/

theorem wrap_eq_mod (h : p < 2 * Nlog) : wrap p = p % Nlog := by
  unfold wrap
  split_ifs with hle
  · rw [Nat.mod_eq_sub_mod hle, Nat.mod_eq_of_lt (by omega)]
  · rw [Nat.mod_eq_of_lt (by omega)]

theorem cyclic_wrap (hlen : buf.length = Nlog) (h : p < 2 * Nlog) :
    cyclic buf (wrap p) k = cyclic buf p k := by
  rw [wrap_eq_mod h, ← hlen, cyclic_mod]

/-- The copied bytes come behind those that are there. -/
theorem copy_spec (hlen : buf.length = Nlog) (hp : p < 2 * Nlog) (hmod : p % Nlog = (r + k) % Nlog)
    (hroom : k + fp.length ≤ Nlog) : ∃ buf', copy p fp buf = some buf' ∧ buf'.length = Nlog ∧
      cyclic buf' r (k + fp.length) = cyclic buf r k ++ fp := by
  induction fp generalizing buf p k with
  | nil => exact ⟨buf, rfl, hlen, by rw [List.append_nil]; rfl⟩
  | cons c fp ih =>
    rw [List.length_cons] at hroom
    have hpos : 0 < Nlog := by decide
    have hwrap : wrap p = (r + k) % Nlog := (wrap_eq_mod hp).trans hmod
    have hlt : (r + k) % Nlog < Nlog := Nat.mod_lt _ hpos
    have hnext : (wrap p + 1) % Nlog = (r + (k + 1)) % Nlog := by
      rw [hwrap, Nat.mod_add_mod, Nat.add_assoc]
    have hle : wrap p + 1 < 2 * Nlog := by omega
    obtain ⟨buf', hcopy, hlen', hcyclic⟩ :=
      ih (List.length_set.trans hlen : (buf.set (wrap p) c).length = Nlog) hle hnext (by omega)
    refine ⟨buf', ?_, hlen', ?_⟩
    · rw [copy, if_pos (by omega), hcopy]
    · rw [List.length_cons, ← Nat.add_assoc, Nat.add_right_comm, hcyclic, hwrap, ← hlen,
        cyclic_set (by omega), List.append_assoc]
      rfl

/-! ### One call -/

theorem length_unread (h : s.Faithful) (hbuf : s.log.buf ≠ []) :
    s.account.logged.length - s.account.pos = s.log.len := by
  obtain ⟨hlen, -, hle, heq⟩ := h.ring hbuf
  rw [← List.length_drop, ← heq, length_cyclic (by omega)]

theorem faithful_start : start.Faithful :=
  ⟨rfl, rfl, fun h => absurd rfl h, fun h => absurd rfl h⟩

theorem faithful_netlogopen (h : s.Faithful) (hexec : s.exec (.netlogopen mem) = some t) :
    t.Faithful ↔ s.Tidy (.netlogopen mem) := by
  rw [exec, if_neg (by simp [h.sound])] at hexec
  by_cases hopens : s.log.opens = 0
  · rw [if_pos hopens] at hexec
    obtain rfl := Option.some.inj hexec
    unfold netlogopen Tidy
    rw [if_pos hopens]
    have hone : int (s.log.opens + 1) = 1 := by rw [hopens]; rfl
    constructor
    · intro ht _
      have hbuf := ht.inside (by dsimp only; rw [hone]; decide)
      obtain ⟨hlen, -, hle, heq⟩ := ht.ring hbuf
      dsimp only at hbuf hlen hle heq
      refine ⟨?_, fun hnil => ?_⟩
      · have hzero := congrArg List.length heq
        rw [length_cyclic (by omega)] at hzero
        exact hzero
      · by_contra hmem
        rw [if_neg (fun hc => hmem hc.2)] at hbuf
        exact hbuf hnil
    · intro htidy
      obtain ⟨hzero, hmem⟩ := htidy hopens
      have hbuf : ∀ b, b = (if s.log.buf = [] ∧ mem = true then List.replicate Nlog 0
          else s.log.buf) → b ≠ [] ∧ b.length = Nlog := by
        rintro b rfl
        by_cases hnil : s.log.buf = []
        · rw [if_pos ⟨hnil, hmem hnil⟩]
          exact ⟨by decide, List.length_replicate ..⟩
        · rw [if_neg (fun hc => hnil hc.1)]
          exact ⟨hnil, (h.ring hnil).1⟩
      refine ⟨rfl, rfl, fun _ => (hbuf _ rfl).1, fun _ => ⟨(hbuf _ rfl).2, ?_, ?_, ?_⟩⟩
      · exact (by decide : 0 < Nlog)
      · exact hzero.le.trans (Nat.zero_le _)
      · dsimp only
        rw [hzero, cyclic_zero]
        rfl
  · rw [if_neg hopens] at hexec
    obtain rfl := Option.some.inj hexec
    unfold netlogopen Tidy
    rw [if_neg hopens]
    exact iff_of_true ⟨h.sound, h.returned, fun _ => h.inside hopens, h.ring⟩
      fun hc => absurd hc hopens

theorem faithful_netlogclose (h : s.Faithful) (hexec : s.exec .netlogclose = some t) :
    t.Faithful ↔ s.Tidy .netlogclose := by
  rw [exec, if_neg (by simp [h.sound])] at hexec
  obtain rfl := Option.some.inj hexec
  unfold netlogclose Tidy
  dsimp only
  by_cases hbuf : s.log.buf = []
  · have hopens : s.log.opens = 0 := by
      by_contra hne
      exact h.inside hne hbuf
    have hminus : int (s.log.opens - 1) = -1 := by rw [hopens]; rfl
    rw [hminus, if_neg (by decide)]
    exact iff_of_false (fun ht => ht.inside (by simp) hbuf) (not_not.mpr hbuf)
  · refine iff_of_true ?_ hbuf
    split_ifs with hlast
    · exact ⟨h.sound, h.returned, fun hne => absurd hlast hne, fun hne => absurd rfl hne⟩
    · exact ⟨h.sound, h.returned, fun _ => hbuf, h.ring⟩

theorem faithful_netlogread (h : s.Faithful) (hexec : s.exec (.netlogread n) = some t) :
    t.Faithful ↔ s.Tidy (.netlogread n) := by
  rw [exec] at hexec
  split_ifs at hexec with hwait
  have hne : s.log.len ≠ 0 := fun hz => hwait (.inr hz)
  unfold netlogread at hexec
  unfold Tidy
  by_cases hneg : n < 0
  · rw [if_pos hneg] at hexec
    obtain rfl := Option.some.inj hexec
    exact iff_of_false (fun ht => by cases ht.sound) fun hc => absurd hc.1 (not_le.mpr hneg)
  rw [if_neg hneg] at hexec
  have hmin : (if s.log.len < n.toNat then s.log.len else n.toNat) = min n.toNat s.log.len := by
    split_ifs <;> omega
  rw [hmin] at hexec
  dsimp only at hexec
  by_cases hbuf : s.log.buf = []
  · rw [hbuf, List.drop_nil, List.take_nil, List.take_nil] at hexec
    by_cases hz : n = 0
    · subst hz
      have hzero : (([] : List UInt8) ++ []).length = min (0 : ℤ).toNat s.log.len := by simp
      rw [if_pos hzero] at hexec
      obtain rfl := Option.some.inj hexec
      refine iff_of_true ⟨h.sound, ?_, fun hopens => absurd hbuf (h.inside hopens),
        fun hc => absurd rfl hc⟩ ⟨le_rfl, .inl rfl⟩
      simp [Account.take, h.returned]
    · have hpos : ¬ (([] : List UInt8) ++ []).length = min n.toNat s.log.len := by
        simp only [List.append_nil, List.length_nil]
        omega
      rw [if_neg hpos] at hexec
      obtain rfl := Option.some.inj hexec
      exact iff_of_false (fun ht => by cases ht.sound)
        fun hc => hc.2.elim hz fun hc => hc hbuf
  · refine iff_of_true ?_ ⟨not_lt.mp hneg, .inr hbuf⟩
    obtain ⟨hlen, hptr, hle, heq⟩ := h.ring hbuf
    have hunread := length_unread h hbuf
    set m := min n.toNat s.log.len with hm
    -- what lies behind the end of the buffer is at its beginning
    have hd : (if Nlog ≤ s.log.rptr + m then s.log.rptr + m - Nlog else 0) =
        m - (s.log.buf.length - s.log.rptr) := by
      split_ifs <;> omega
    have hp : (s.log.buf.drop s.log.rptr).take (m - (m - (s.log.buf.length - s.log.rptr))) ++
        s.log.buf.take (m - (s.log.buf.length - s.log.rptr)) =
        (s.account.logged.drop s.account.pos).take n.toNat := by
      have htake : (s.log.buf.drop s.log.rptr).take (m - (m - (s.log.buf.length - s.log.rptr))) =
          (s.log.buf.drop s.log.rptr).take m := by
        rw [List.take_eq_take_iff, List.length_drop]
        omega
      rw [htake, ← cyclic_eq (by omega) (by omega), ← take_cyclic (min_le_right _ _), heq,
        List.take_eq_take_iff, List.length_drop, hunread]
      omega
    rw [hd, hp] at hexec
    have hcount : ((s.account.logged.drop s.account.pos).take n.toNat).length = m := by
      rw [List.length_take, List.length_drop, hunread]
    rw [if_pos hcount] at hexec
    obtain rfl := Option.some.inj hexec
    refine ⟨h.sound, ?_, h.inside, fun _ => ⟨hlen, ?_, ?_, ?_⟩⟩
    · exact congrArg (· ++ _) h.returned
    · dsimp only
      rw [wrap_eq_mod (by omega)]
      exact Nat.mod_lt _ (by decide)
    · exact (Nat.sub_le _ _).trans hle
    · have hpos : min (s.account.pos + n.toNat) s.account.logged.length = s.account.pos + m := by
        have hacc := s.account.le
        omega
      dsimp only [Account.take]
      rw [cyclic_wrap hlen (by omega), ← drop_cyclic (by omega), heq, List.drop_drop, hpos]

theorem faithful_netlog (h : s.Faithful) (hexec : s.exec (.netlog mask text) = some t) :
    t.Faithful := by
  rw [exec, if_neg (by simp [h.sound])] at hexec
  unfold NetworkLog.netlog at hexec
  by_cases hlogs : s.log.logs mask = true
  · have hshort := text.short
    have hopens : s.log.opens ≠ 0 := by
      unfold Netlog.logs at hlogs
      exact (of_decide_eq_true hlogs).2
    have hbuf := h.inside hopens
    obtain ⟨hlen, hptr, hle, heq⟩ := h.ring hbuf
    have hunread := length_unread h hbuf
    have hacc := s.account.le
    have hcap : Nlog = 4096 := rfl
    set i := s.log.len + text.bytes.length - Nlog with hi
    -- the oldest bytes go
    obtain ⟨f, hf, hfbuf, hfopens, hfmask, hfptr, hflen, hfcyclic⟩ : ∃ f : Netlog,
        f = (if 0 < i then { s.log with len := s.log.len - i, rptr := wrap (s.log.rptr + i) }
          else s.log) ∧ f.buf = s.log.buf ∧ f.opens = s.log.opens ∧ f.logmask = s.log.logmask ∧
        f.rptr < Nlog ∧ f.len = s.log.len - i ∧
        cyclic f.buf f.rptr f.len = s.account.logged.drop (s.account.pos + i) := by
      refine ⟨_, rfl, ?_⟩
      rw [← List.drop_drop, ← heq, drop_cyclic (by omega)]
      split_ifs with hpos
      · refine ⟨rfl, rfl, rfl, ?_, rfl, ?_⟩ <;> dsimp only
        · rw [wrap_eq_mod (by omega)]
          exact Nat.mod_lt _ (by decide)
        · rw [cyclic_wrap hlen (by omega)]
      · have hz : i = 0 := by omega
        rw [hz]
        exact ⟨rfl, rfl, rfl, hptr, rfl, rfl⟩
    rw [if_pos hlogs] at hexec
    dsimp only at hexec
    rw [← hf] at hexec
    have hflen' : f.buf.length = Nlog := hfbuf ▸ hlen
    have hptr' : f.rptr + f.len < 2 * Nlog := by omega
    have hroom : f.len + text.bytes.length ≤ Nlog := by omega
    obtain ⟨buf', hcopy, hlen', hcyclic⟩ := copy_spec hflen' hptr' rfl hroom
    rw [hcopy, if_pos hlogs] at hexec
    obtain rfl := Option.some.inj hexec
    refine ⟨h.sound, h.returned, fun _ hnil => ?_, fun _ => ⟨hlen', hfptr, ?_, ?_⟩⟩
    · have hlen'' : buf'.length = Nlog := hlen'
      have hnil' : buf' = [] := hnil
      rw [hnil', List.length_nil] at hlen''
      omega
    · dsimp only
      omega
    · have hpos : max s.account.pos (s.account.logged.length + text.bytes.length - Nlog) =
          s.account.pos + i := by omega
      dsimp only [Account.log]
      rw [hcyclic, hfcyclic, hpos, List.drop_append_of_le_length (by omega)]
  · rw [if_neg hlogs] at hexec
    dsimp only at hexec
    rw [if_neg hlogs] at hexec
    obtain rfl := Option.some.inj hexec
    exact ⟨h.sound, h.returned, h.inside, h.ring⟩

/-! ### Runs -/

/-- The log is faithful throughout just when the first one to open it finds nothing unread and gets
a buffer, and it is closed and read while there is one. -/
theorem faithful_iff (es : List Event) :
    (∀ t ∈ Run.states exec start es, t.Faithful) ↔ Run.Meets exec Tidy start es := by
  have hiff : ∀ (s : Sys) e t, s.Faithful → s.exec e = some t → (t.Faithful ↔ s.Tidy e) := by
    intro s e t hs hexec
    cases e with
    | netlogopen mem => exact faithful_netlogopen hs hexec
    | netlogclose => exact faithful_netlogclose hs hexec
    | netlogctl logmask =>
      rw [exec, if_neg (by simp [hs.sound])] at hexec
      obtain rfl := Option.some.inj hexec
      exact iff_of_true ⟨hs.sound, hs.returned, hs.inside, hs.ring⟩ trivial
    | netlog mask text => exact iff_of_true (faithful_netlog hs hexec) trivial
    | netlogread n => exact faithful_netlogread hs hexec
  exact Run.forall_states_iff (fun _ => True) trivial faithful_start (fun _ _ _ _ _ _ _ => trivial)
    (fun s e t _ hs hexec => hiff s e t hs hexec) es

/-- The log is closed with a byte unread and opened again: a byte is read that was not logged. -/
theorem stale_reopened : ¬ ∀ t ∈ Run.states exec start
    [.netlogctl 1, .netlogopen true, .netlog 1 ⟨[65], by decide⟩, .netlogclose, .netlogopen true,
      .netlogread 1], t.Faithful := by
  intro h
  have hany : (Run.states exec start
      [.netlogctl 1, .netlogopen true, .netlog 1 ⟨[65], by decide⟩, .netlogclose,
        .netlogopen true, .netlogread 1]).any
      (fun t => decide (t.returned ≠ t.account.read)) = true := by decide +kernel
  obtain ⟨t, ht, hne⟩ := List.any_eq_true.mp hany
  exact of_decide_eq_true hne (h t ht).returned

end PlanNine.NetworkLog
