import PlanNine.Lib.Kern
import Mathlib.Tactic

/-!
# The offset of a channel

The system calls of `sysfile.c` that read and write a plain file, at the offset of its channel or at
one of their own, and that seek. What the device does is part of a call: it moves some bytes, or
raises an error. The counter of references and the offsets share one spin lock; a process that wants
it while it is held spins for ever.

The calls agree with the position that the results of the calls before give, and the lock is free
after each of them, as long as a positioned read moves no bytes, a seek relative to the offset does
not come out negative, and the offset does not pass the largest number of its type.

## Main definitions

* `Chan`: a channel to a plain file.
* `fdtochan`, `read`, `write`, `sseek`: the routines behind the calls.
* `Call`, `Call.run`: the system calls.
* `Call.position`: the position that the result of a call gives.
* `Agrees`: after each call the channel is where the position says, and its lock is free.
* `Proper`: the calls that keep it so.

## Main results

* `read_spec`, `write_spec`, `sseek_spec`: how the routines end, and what they leave.
* `next_spec`: a proper call keeps the invariant, and any other leaves the channel unsound.
* `agrees_iff`: a sequence of calls agrees with the position just when each of them is proper.
-/

namespace PlanNine.Sysfile

/-- An integer reduced to 64 bits, with its sign. -/
def vlong (x : ℤ) : ℤ := (x + 9223372036854775808) % 18446744073709551616 - 9223372036854775808

inductive Mode where
  | OREAD | OWRITE | ORDWR
  deriving DecidableEq

/-- A channel to a plain file. -/
structure Chan where
  /-- The spin lock is held. -/
  locked : Bool := false
  ref : ℤ := 1
  offset : ℤ := 0
  devoffset : ℤ := 0
  mode : Mode := .ORDWR
  /-- A connection to a server is on it. -/
  CMSG : Bool := false
  /-- The character of its device. -/
  dc : Char := 'M'
  /-- The last offset that the device was asked for. -/
  asked : Option ℤ := none
  deriving DecidableEq

/-- A process spins for ever. -/
inductive Hang where
  | lockloop
  deriving DecidableEq

abbrev Sys (α : Type) : Type := Kern Hang Chan α

open Kern

def Ebadusefd : String := "inappropriate use of fd"

def Enegoff : String := "negative i/o offset"

def Ebadarg : String := "bad arg in system call"

def Eisstream : String := "seek on a stream"

def Suicide : String := "Suicide"

/-- Take the spin lock, change the channel, and let the lock go. -/
def lock : Sys Unit := do
  let c ← get
  if c.locked then panic .lockloop
  else modify fun c => { c with locked := true }

def unlock : Sys Unit := modify fun c => { c with locked := false }

def incref : Sys Unit := do
  lock
  modify fun c => { c with ref := c.ref + 1 }
  unlock

/-- The descriptor keeps a reference, so that the last one is never given up here. -/
def cclose : Sys Unit := do
  lock
  modify fun c => { c with ref := c.ref - 1 }
  unlock

/-- Find the channel of a descriptor, for a mode unless it is negative. -/
def fdtochan (mode : Option Mode) : Sys Unit := do
  incref
  let c ← get
  if c.CMSG then do
    cclose
    error Ebadusefd
  else if mode = none ∨ c.mode = .ORDWR then pure ()
  else if mode ≠ some c.mode then do
    cclose
    error Ebadusefd
  else pure ()

/-- A buffer that a call names: the bytes it asks for, and whether the addresses are its own. -/
structure Buffer where
  n : ℤ
  ok : Bool := true
  deriving DecidableEq

/-- The process ends when the addresses are not its own. -/
def validaddr (buf : Buffer) : Sys Unit :=
  if 0 ≤ buf.n ∧ buf.ok then pure () else error Suicide

/-- What the device does: move bytes, or raise an error. -/
inductive Io where
  | moved (m : ℤ)
  | fails (msg : String)
  deriving DecidableEq

/-- Ask the device to move bytes at an offset. -/
def device (io : Io) (off : ℤ) : Sys ℤ := do
  modify fun c => { c with asked := some off }
  match io with
  | .moved m => pure m
  | .fails msg => error msg

/-- Run a routine; whichever error it raises, go on with it behind some work. -/
def cleanup (m : Sys ℤ) (work : Sys Unit) : Sys ℤ :=
  waserror m fun msg => do
    work
    error msg

def read (buf : Buffer) (io : Io) (offp : Option ℤ) : Sys ℤ := do
  validaddr buf
  fdtochan (some .OREAD)
  let nn ← cleanup (do
    let c ← get
    let off := offp.getD c.offset
    if off < 0 then error Enegoff
    else do
      if off = 0 ∧ offp = none then modify fun c => { c with offset := 0, devoffset := 0 }
      else pure ()
      let nn ← device io off
      lock
      modify fun c => { c with
        devoffset := vlong (c.devoffset + nn)
        offset := vlong (c.offset + nn) }
      unlock
      pure nn) cclose
  cclose
  pure nn

/-- Move the offset of the channel. -/
def advance (n : ℤ) : Sys Unit := do
  lock
  modify fun c => { c with offset := vlong (c.offset + n) }
  unlock

def write (buf : Buffer) (io : Io) (offp : Option ℤ) : Sys ℤ := do
  validaddr buf
  fdtochan (some .OWRITE)
  let m ← cleanup (do
    let c ← get
    if offp = none then advance buf.n else pure ()
    let off := offp.getD c.offset
    if off < 0 then error Enegoff
    else do
      let m ← device io off
      if offp = none ∧ m < buf.n then advance (-(buf.n - m)) else pure ()
      pure m) (do
    if offp = none then advance (-buf.n) else pure ()
    cclose)
  cclose
  pure m

/-- What the device tells of a file: its length, nothing that can be read, or an error. -/
inductive Stat where
  | length (n : ℤ)
  | garbled
  | fails (msg : String)
  deriving DecidableEq

def sseek (v : ℤ) (type : ℕ) (stat : Stat) : Sys ℤ := do
  fdtochan none
  cleanup (do
    let c ← get
    if c.dc = '|' then error Eisstream
    else do
      let off ← match type with
        | 0 =>
          if v < 0 then error Enegoff
          else do
            modify fun c => { c with offset := v }
            pure v
        | 1 => do
          lock
          let c ← get
          let off := vlong (v + c.offset)
          if off < 0 then error Enegoff
          else do
            modify fun c => { c with offset := off }
            unlock
            pure off
        | 2 =>
          match stat with
          | .fails msg => error msg
          | .garbled => error "internal error: stat error in seek"
          | .length n =>
            let off := vlong (n + v)
            if off < 0 then error Enegoff
            else do
              modify fun c => { c with offset := off }
              pure off
        | _ => error Ebadarg
      cclose
      pure off) cclose

/-! ### Calls -/

/-- The offset of a positioned call; at `~0` it is the call without one. -/
def offp (v : ℤ) : Option ℤ := if v = -1 then none else some v

inductive Call where
  | read (buf : Buffer) (io : Io)
  | pread (buf : Buffer) (v : ℤ) (io : Io)
  | write (buf : Buffer) (io : Io)
  | pwrite (buf : Buffer) (v : ℤ) (io : Io)
  | seek (ok : Bool) (v : ℤ) (type : ℕ) (stat : Stat)

def Call.run : Call → Sys ℤ
  | .read buf io => Sysfile.read buf io none
  | .pread buf v io => Sysfile.read buf io (offp v)
  | .write buf io => Sysfile.write buf io none
  | .pwrite buf v io => Sysfile.write buf io (offp v)
  | .seek ok v type stat => if ok then sseek v type stat else error Suicide

/-- A call that uses and maintains the offset of the channel. -/
def Call.own : Call → Bool
  | .read .. | .write .. => true
  | .pread _ v _ | .pwrite _ v _ => v = -1
  | .seek .. => false

/-- The position after a call: calls that move bytes at the offset of the channel go on by as many,
and seeks set it. -/
def Call.position (call : Call) (r : Except (Stop Hang) ℤ) (pos : ℤ) : ℤ :=
  match call, r with
  | .seek .., .ok v => v
  | _, .ok m => if call.own then pos + m else pos
  | _, .error _ => pos

/-- A channel, and the position that the results of the calls so far give. -/
structure State where
  chan : Chan := {}
  pos : ℤ := 0

def State.next (t : State) (call : Call) : State :=
  { chan := (call.run t.chan).2, pos := call.position (call.run t.chan).1 t.pos }

/-- The state after some calls on a channel that was just opened. -/
def after (c : Chan) (calls : List Call) : State := calls.foldl State.next { chan := c }

/-- The channel is at the position, and its lock is free. -/
structure Sound (t : State) : Prop where
  offset : t.chan.offset = t.pos
  free : t.chan.locked = false

/-- After each call the channel is sound, and a call that moved bytes at the offset of the channel
has asked for them at the position. -/
structure Agrees (c : Chan) (calls : List Call) : Prop where
  sound : ∀ pre, pre <+: calls → Sound (after c pre)
  asked : ∀ pre call m, pre ++ [call] <+: calls → call.own →
    (call.run (after c pre).chan).1 = .ok m →
    (after c (pre ++ [call])).chan.asked = some (after c pre).pos

/-! ### Routines -/

variable {c : Chan} {buf : Buffer} {io : Io} {α : Type} {Q : Unit → Chan → Prop}
  {E : Stop Hang → Chan → Prop}

@[simp] theorem wp_lock : lock.wp Q E c ↔
    if c.locked then E (.panic .lockloop) c else Q () { c with locked := true } := by
  simp [lock]

@[simp] theorem wp_unlock : unlock.wp Q E c ↔ Q () { c with locked := false } := Iff.rfl

@[simp] theorem wp_incref : incref.wp Q E c ↔
    if c.locked then E (.panic .lockloop) c
    else Q () { c with ref := c.ref + 1, locked := false } := by
  simp [incref]

@[simp] theorem wp_cclose : cclose.wp Q E c ↔
    if c.locked then E (.panic .lockloop) c
    else Q () { c with ref := c.ref - 1, locked := false } := by
  simp [cclose]

@[simp] theorem wp_advance (n : ℤ) : (advance n).wp Q E c ↔
    if c.locked then E (.panic .lockloop) c
    else Q () { c with offset := vlong (c.offset + n), locked := false } := by
  simp [advance]

@[simp] theorem wp_validaddr : (validaddr buf).wp Q E c ↔
    if 0 ≤ buf.n ∧ buf.ok then Q () c else E (.error Suicide) c := by
  simp [validaddr]

@[simp] theorem wp_device {Q : ℤ → Chan → Prop} (off : ℤ) : (device io off).wp Q E c ↔
    match io with
    | .moved m => Q m { c with asked := some off }
    | .fails msg => E (.error msg) { c with asked := some off } := by
  cases io <;> simp [device]

/-- The channel is open for a mode. -/
def Chan.opens (c : Chan) (mode : Option Mode) : Prop :=
  c.CMSG = false ∧ (mode = none ∨ c.mode = .ORDWR ∨ mode = some c.mode)

instance (c : Chan) (mode : Option Mode) : Decidable (c.opens mode) :=
  inferInstanceAs (Decidable (_ ∧ _))

theorem wp_fdtochan (h : c.locked = false) (mode : Option Mode) : (fdtochan mode).wp Q E c ↔
    if c.opens mode then Q () { c with ref := c.ref + 1 } else E (.error Ebadusefd) c := by
  obtain ⟨locked, ref, offset, devoffset, cmode, CMSG, dc, asked⟩ := c
  obtain rfl : locked = false := h
  unfold fdtochan Chan.opens
  simp only [wp_bind, wp_incref, wp_get, wp_ite, wp_cclose, wp_error, wp_pure]
  cases CMSG with
  | true => simp
  | false =>
    cases mode with
    | none => simp
    | some mode => cases mode <;> cases cmode <;> simp

/-- A call comes to the device. -/
def Reaches (c : Chan) (mode : Mode) (buf : Buffer) (off : ℤ) : Prop :=
  (0 ≤ buf.n ∧ buf.ok = true) ∧ c.opens (some mode) ∧ 0 ≤ off

/-- A call at an offset has moved bytes, and the offset of the channel is `next`. -/
structure Moved (c : Chan) (mode : Mode) (buf : Buffer) (io : Io) (off : ℤ) (next : ℤ → ℤ) (m : ℤ)
    (c' : Chan) : Prop where
  free : c'.locked = false
  offset : c'.offset = next m
  asked : c'.asked = some off
  io : io = .moved m
  reaches : Reaches c mode buf off

/-- A call at an offset has moved none, and leaves the offset of the channel. -/
structure Failed (c : Chan) (mode : Mode) (buf : Buffer) (io : Io) (off : ℤ) (c' : Chan) :
    Prop where
  free : c'.locked = false
  offset : c'.offset = c.offset
  io : ∀ m, io = .moved m → ¬ Reaches c mode buf off

theorem read_spec (h : c.locked = false) (buf : Buffer) (io : Io) (offp : Option ℤ) :
    (read buf io offp).wp
      (Moved c .OREAD buf io (offp.getD c.offset) fun m => vlong (c.offset + m))
      (fun _ => Failed c .OREAD buf io (offp.getD c.offset)) c := by
  unfold read cleanup
  simp only [wp_bind, wp_validaddr, wp_fdtochan h, wp_waserror, wp_get, wp_ite, wp_error, wp_device,
    wp_lock, wp_modify, wp_unlock, wp_cclose, wp_pure, h, caught_error, Bool.false_eq_true,
    if_false]
  by_cases hvalid : 0 ≤ buf.n ∧ buf.ok = true
  swap
  · rw [if_neg hvalid]
    exact ⟨h, rfl, fun _ _ hr => hvalid hr.1⟩
  by_cases hopens : c.opens (some .OREAD)
  swap
  · rw [if_pos hvalid, if_neg hopens]
    exact ⟨h, rfl, fun _ _ hr => hopens hr.2.1⟩
  by_cases hneg : offp.getD c.offset < 0
  · rw [if_pos hvalid, if_pos hopens, if_pos hneg]
    exact ⟨rfl, rfl, fun _ _ hr => absurd hr.2.2 (not_le.mpr hneg)⟩
  rw [if_pos hvalid, if_pos hopens, if_neg hneg]
  have hreaches : Reaches c .OREAD buf (offp.getD c.offset) := ⟨hvalid, hopens, not_lt.mp hneg⟩
  split
  · rename_i hzero
    have hoff : c.offset = 0 := by
      obtain ⟨hoff, rfl⟩ := hzero
      exact hoff
    cases io with
    | moved m => exact ⟨rfl, by rw [hoff], rfl, rfl, hreaches⟩
    | fails msg => exact ⟨rfl, hoff.symm, by rintro _ ⟨⟩⟩
  · cases io with
    | moved m => exact ⟨rfl, rfl, rfl, rfl, hreaches⟩
    | fails msg => exact ⟨rfl, rfl, by rintro _ ⟨⟩⟩

/-- What a write adds to the offset before the transfer it takes away again. -/
theorem vlong_repair (x n m : ℤ) : vlong (vlong (x + n) + -(n - m)) = vlong (x + m) := by
  unfold vlong
  omega

theorem write_spec (h : c.locked = false) (buf : Buffer) (io : Io) (offp : Option ℤ)
    (hoff : vlong c.offset = c.offset)
    (hm : ∀ m, io = .moved m → m ≤ buf.n) :
    (write buf io offp).wp
      (Moved c .OWRITE buf io (offp.getD c.offset) fun m =>
        if offp = none then vlong (c.offset + m) else c.offset)
      (fun _ => Failed c .OWRITE buf io (offp.getD c.offset)) c := by
  unfold write cleanup
  simp only [wp_bind, wp_validaddr, wp_fdtochan h, wp_waserror, wp_get, wp_ite, wp_error, wp_device,
    wp_advance, wp_cclose, wp_pure, h, caught_error, Bool.false_eq_true, if_false]
  by_cases hvalid : 0 ≤ buf.n ∧ buf.ok = true
  swap
  · rw [if_neg hvalid]
    exact ⟨h, rfl, fun _ _ hr => hvalid hr.1⟩
  by_cases hopens : c.opens (some .OWRITE)
  swap
  · rw [if_pos hvalid, if_neg hopens]
    exact ⟨h, rfl, fun _ _ hr => hopens hr.2.1⟩
  rw [if_pos hvalid, if_pos hopens]
  have hundo : vlong (vlong (c.offset + buf.n) + -buf.n) = c.offset := by
    have hrepair := vlong_repair c.offset buf.n 0
    rwa [sub_zero, add_zero, hoff] at hrepair
  cases offp with
  | none =>
    simp only [if_true, Option.getD_none, true_and]
    by_cases hneg : c.offset < 0
    · rw [if_pos hneg]
      exact ⟨rfl, hundo, fun _ _ hr => absurd hr.2.2 (not_le.mpr hneg)⟩
    rw [if_neg hneg]
    have hreaches : Reaches c .OWRITE buf c.offset := ⟨hvalid, hopens, not_lt.mp hneg⟩
    cases io with
    | moved m =>
      dsimp only
      split
      · exact ⟨rfl, vlong_repair c.offset buf.n m, rfl, rfl, hreaches⟩
      · obtain rfl : m = buf.n := by
          have hle := hm m rfl
          omega
        exact ⟨rfl, rfl, rfl, rfl, hreaches⟩
    | fails msg => exact ⟨rfl, hundo, by rintro _ ⟨⟩⟩
  | some v =>
    simp only [reduceCtorEq, if_false, Option.getD_some, false_and]
    by_cases hneg : v < 0
    · rw [if_pos hneg]
      exact ⟨rfl, rfl, fun _ _ hr => absurd hr.2.2 (not_le.mpr hneg)⟩
    rw [if_neg hneg]
    have hreaches : Reaches c .OWRITE buf v := ⟨hvalid, hopens, not_lt.mp hneg⟩
    cases io with
    | moved m => exact ⟨rfl, rfl, rfl, rfl, hreaches⟩
    | fails msg => exact ⟨rfl, rfl, by rintro _ ⟨⟩⟩

/-- A relative seek comes out negative: the lock is never let go. -/
def Stuck (c : Chan) (v : ℤ) (type : ℕ) : Prop :=
  c.opens none ∧ c.dc ≠ '|' ∧ type = 1 ∧ vlong (v + c.offset) < 0

theorem vlong_lt (x : ℤ) : vlong x < 9223372036854775808 := by
  unfold vlong
  omega

theorem sseek_spec (h : c.locked = false) (v : ℤ) (type : ℕ) (stat : Stat)
    (hv : v < 9223372036854775808) (hstuck : ¬ Stuck c v type) :
    (sseek v type stat).wp
      (fun off c' => c'.locked = false ∧ c'.offset = off ∧ 0 ≤ off ∧ off < 9223372036854775808)
      (fun _ c' => c'.locked = false ∧ c'.offset = c.offset) c := by
  unfold sseek cleanup
  simp only [wp_bind, wp_fdtochan h, wp_waserror, wp_get, wp_ite, wp_error, caught_error, wp_cclose,
    h, Bool.false_eq_true, if_false]
  by_cases hopens : c.opens none
  swap
  · rw [if_neg hopens]
    exact ⟨trivial, trivial⟩
  rw [if_pos hopens]
  by_cases hdc : c.dc = '|'
  · rw [if_pos hdc]
    exact ⟨trivial, trivial⟩
  rw [if_neg hdc]
  obtain _ | _ | _ | _ := type
  · by_cases hneg : v < 0
    · simp [hneg]
    · simp [hneg, hv, not_lt.mp hneg]
  · have hpos : ¬ vlong (v + c.offset) < 0 := fun hneg => hstuck ⟨hopens, hdc, rfl, hneg⟩
    simp [hpos, vlong_lt, not_lt.mp hpos]
  · cases stat with
    | length n =>
      by_cases hneg : vlong (n + v) < 0
      · simp [hneg]
      · simp [hneg, vlong_lt, not_lt.mp hneg]
    | garbled => simp
    | fails msg => simp
  · simp

theorem sseek_stuck (h : c.locked = false) {v : ℤ} {type : ℕ} (stat : Stat)
    (hstuck : Stuck c v type) :
    (sseek v type stat).wp (fun _ _ => False) (fun _ c' => c'.locked = true) c := by
  obtain ⟨hopens, hdc, rfl, hneg⟩ := hstuck
  unfold sseek cleanup
  simp [wp_fdtochan h, h, hopens, hdc, hneg]

/-! ### Calls -/

/-- The device moves as many bytes as it is asked for at the most, a number of 32 bits. -/
def Io.Fits (io : Io) (buf : Buffer) : Prop :=
  buf.n < 2147483648 ∧ ∀ m, io = .moved m → 0 ≤ m ∧ m ≤ buf.n

/-- What a call can be: offsets have 64 bits. -/
def Call.Fits : Call → Prop
  | .read buf io | .write buf io => io.Fits buf
  | .pread buf v io | .pwrite buf v io => io.Fits buf ∧ vlong v = v
  | .seek _ v _ _ => vlong v = v

/-- The offset stays below the largest number of its type. -/
def Within (c : Chan) (mode : Mode) (buf : Buffer) (io : Io) : Prop :=
  Reaches c mode buf c.offset → ∀ m, io = .moved m → c.offset + m < 9223372036854775808

/-- What keeps a channel sound: a positioned read moves no bytes, a relative seek does not come out
negative, and the offset stays below the largest number of its type. -/
def Proper (c : Chan) : Call → Prop
  | .read buf io => Within c .OREAD buf io
  | .pread buf v io => if v = -1 then Within c .OREAD buf io
      else Reaches c .OREAD buf v → ∀ m, io = .moved m → m = 0
  | .write buf io => Within c .OWRITE buf io
  | .pwrite buf v io => v = -1 → Within c .OWRITE buf io
  | .seek ok v type _ => ok = true → ¬ Stuck c v type

/-- The channel is sound, at an offset that a seek could give. -/
structure Inv (t : State) : Prop extends Sound t where
  nonneg : 0 ≤ t.chan.offset
  lt : t.chan.offset < 9223372036854775808

variable {t : State}

theorem vlong_eq {x : ℤ} (h : 0 ≤ x) (h' : x < 9223372036854775808) : vlong x = x := by
  unfold vlong
  omega

/-- What a specification of a call says of the step. -/
theorem run_cases {call : Call} {Q : ℤ → Chan → Prop} {E : Stop Hang → Chan → Prop}
    (h : Kern.wp call.run Q E t.chan) :
    (∃ m c', call.run t.chan = (.ok m, c') ∧ Q m c') ∨
      ∃ e c', call.run t.chan = (.error e, c') ∧ E e c' := by
  unfold Kern.wp at h
  rcases hr : call.run t.chan with ⟨e | m, c'⟩
  · rw [hr] at h
    exact .inr ⟨e, c', rfl, h⟩
  · rw [hr] at h
    exact .inl ⟨m, c', rfl, h⟩

theorem next_of_ok {call : Call} {m : ℤ} {c' : Chan} (h : call.run t.chan = (.ok m, c')) :
    t.next call = { chan := c', pos := call.position (.ok m) t.pos } := by
  rw [State.next, h]

theorem next_of_error {call : Call} {e : Stop Hang} {c' : Chan}
    (h : call.run t.chan = (.error e, c')) : t.next call = { chan := c', pos := t.pos } := by
  rw [State.next, h]
  cases call <;> rfl

/-- A call that leaves the position and the offset keeps the invariant. -/
theorem inv_same (h : Inv t) {c' : Chan} (hfree : c'.locked = false)
    (hoff : c'.offset = t.chan.offset) : Inv { chan := c', pos := t.pos } :=
  ⟨⟨hoff.trans h.offset, hfree⟩, hoff ▸ h.nonneg, hoff ▸ h.lt⟩

variable {mode : Mode} {call : Call}

/-- A call at the offset of the channel: it keeps the invariant just when the offset stays in its
bounds, and asks the device at the position. -/
theorem own_next (h : Inv t) (hf : io.Fits buf) (hown : call.own = true)
    (hspec : Kern.wp call.run
      (Moved t.chan mode buf io t.chan.offset fun m => vlong (t.chan.offset + m))
      (fun _ => Failed t.chan mode buf io t.chan.offset) t.chan) :
    (Within t.chan mode buf io → Inv (t.next call)) ∧
      (Sound (t.next call) → Within t.chan mode buf io) ∧
      ∀ m, (call.run t.chan).1 = .ok m → (t.next call).chan.asked = some t.pos := by
  have hpos : ∀ m, call.position (.ok m) t.pos = t.pos + m := by
    intro m
    cases call <;> simp_all [Call.position, Call.own]
  obtain ⟨m, c', hrun, hmoved⟩ | ⟨e, c', hrun, hfailed⟩ := run_cases hspec
  · rw [next_of_ok hrun, hrun, hpos]
    obtain ⟨hm, -⟩ := hf.2 m hmoved.io
    have hnonneg := h.nonneg
    have hlt := h.lt
    have hoff := h.offset
    refine ⟨fun hw => ?_, fun hs => ?_, fun m' _ => by rw [hmoved.asked, hoff]⟩
    · have hlt' := hw hmoved.reaches m hmoved.io
      have heq : c'.offset = t.chan.offset + m :=
        hmoved.offset.trans (vlong_eq (by omega) hlt')
      exact ⟨⟨by rw [heq, hoff], hmoved.free⟩, by rw [heq]; omega, by rw [heq]; exact hlt'⟩
    · intro _ m' hm'
      obtain rfl : m = m' := Io.moved.inj (hmoved.io.symm.trans hm')
      have heq : vlong (t.chan.offset + m) = t.pos + m := hmoved.offset.symm.trans hs.offset
      have hvlong := vlong_lt (t.chan.offset + m)
      omega
  · rw [next_of_error hrun, hrun]
    refine ⟨fun _ => inv_same h hfailed.free hfailed.offset, fun _ hr m hm => ?_, nofun⟩
    exact absurd hr (hfailed.io m hm)

/-- A positioned read keeps the invariant just when it moves no bytes. -/
theorem pread_next (h : Inv t) {v : ℤ} (hf : io.Fits buf) (hv : v ≠ -1) :
    ((Reaches t.chan .OREAD buf v → ∀ m, io = .moved m → m = 0) → Inv (t.next (.pread buf v io))) ∧
      (Sound (t.next (.pread buf v io)) →
        Reaches t.chan .OREAD buf v → ∀ m, io = .moved m → m = 0) := by
  have hspec := read_spec h.free buf io (some v)
  have hrun : Call.run (.pread buf v io) = read buf io (some v) := by
    rw [Call.run, offp, if_neg hv]
  rw [← hrun] at hspec
  have hpos : ∀ m, Call.position (.pread buf v io) (.ok m) t.pos = t.pos := by
    intro m
    simp [Call.position, Call.own, hv]
  obtain ⟨m, c', hrun, hmoved⟩ | ⟨e, c', hrun, hfailed⟩ := run_cases hspec
  · rw [next_of_ok hrun, hpos]
    obtain ⟨hm, hle⟩ := hf.2 m hmoved.io
    have hn := hf.1
    have hoff := h.offset
    refine ⟨fun hzero => ?_, fun hs _ m' hm' => ?_⟩
    · obtain rfl := hzero hmoved.reaches m hmoved.io
      refine inv_same h hmoved.free (hmoved.offset.trans ?_)
      rw [add_zero]
      exact vlong_eq h.nonneg h.lt
    · obtain rfl : m = m' := Io.moved.inj (hmoved.io.symm.trans hm')
      have heq : vlong (t.chan.offset + m) = t.pos := hmoved.offset.symm.trans hs.offset
      unfold vlong at heq
      have hnonneg := h.nonneg
      have hlt := h.lt
      omega
  · rw [next_of_error hrun]
    refine ⟨fun _ => inv_same h hfailed.free hfailed.offset, fun _ hr m hm => ?_⟩
    exact absurd hr (hfailed.io m hm)

/-- A positioned write keeps the invariant. -/
theorem pwrite_next (h : Inv t) {v : ℤ} (hf : io.Fits buf) (hv : v ≠ -1) :
    Inv (t.next (.pwrite buf v io)) := by
  have hspec := write_spec h.free buf io (some v) (vlong_eq h.nonneg h.lt)
    fun m hm => (hf.2 m hm).2
  have hrun : Call.run (.pwrite buf v io) = write buf io (some v) := by
    rw [Call.run, offp, if_neg hv]
  rw [← hrun] at hspec
  obtain ⟨m, c', hrun, hmoved⟩ | ⟨e, c', hrun, hfailed⟩ := run_cases hspec
  · have hpos : Call.position (.pwrite buf v io) (.ok m) t.pos = t.pos := by
      simp [Call.position, Call.own, hv]
    rw [next_of_ok hrun, hpos]
    exact inv_same h hmoved.free hmoved.offset
  · rw [next_of_error hrun]
    exact inv_same h hfailed.free hfailed.offset

/-- A seek keeps the invariant just when it is not stuck. -/
theorem seek_next (h : Inv t) {v : ℤ} (hv : vlong v = v) (ok : Bool) (type : ℕ) (stat : Stat) :
    ((ok = true → ¬ Stuck t.chan v type) → Inv (t.next (.seek ok v type stat))) ∧
      (Sound (t.next (.seek ok v type stat)) → ok = true → ¬ Stuck t.chan v type) := by
  cases ok with
  | false => exact ⟨fun _ => inv_same h h.free rfl, fun _ => nofun⟩
  | true =>
    have hrun : Call.run (.seek true v type stat) = sseek v type stat := by
      rw [Call.run, if_pos rfl]
    refine ⟨fun hnot => ?_, fun hs _ hstuck => ?_⟩
    · have hspec := sseek_spec h.free v type stat (hv ▸ vlong_lt v) (hnot rfl)
      rw [← hrun] at hspec
      obtain ⟨off, c', hrun, hfree, hoff, hnonneg, hlt⟩ | ⟨e, c', hrun, hfree, hoff⟩ :=
        run_cases hspec
      · rw [next_of_ok hrun]
        exact ⟨⟨hoff, hfree⟩, hoff ▸ hnonneg, hoff ▸ hlt⟩
      · rw [next_of_error hrun]
        exact inv_same h hfree hoff
    · have hspec := sseek_stuck h.free stat hstuck
      rw [← hrun] at hspec
      obtain ⟨_, _, _, hfalse⟩ | ⟨e, c', hrun, hlocked⟩ := run_cases hspec
      · exact hfalse
      · rw [next_of_error hrun] at hs
        cases hlocked.symm.trans hs.free

/-- A proper call keeps the invariant, and any other leaves the channel unsound; a call that moved
bytes at the offset of the channel has asked for them at the position. -/
theorem next_spec (h : Inv t) (hf : call.Fits) : (Proper t.chan call → Inv (t.next call)) ∧
    (Sound (t.next call) → Proper t.chan call) ∧
    (call.own → ∀ m, (call.run t.chan).1 = .ok m → (t.next call).chan.asked = some t.pos) := by
  have hread := fun buf io => read_spec h.free buf io none
  have hwrite := fun buf io hm => write_spec h.free buf io none (vlong_eq h.nonneg h.lt) hm
  simp only [if_true, Option.getD_none] at hread hwrite
  cases call with
  | read buf io =>
    have hrun : Call.run (.read buf io) = read buf io none := rfl
    obtain ⟨hinv, hproper, hasked⟩ := own_next h hf rfl (hrun ▸ hread buf io)
    exact ⟨hinv, hproper, fun _ => hasked⟩
  | write buf io =>
    have hrun : Call.run (.write buf io) = write buf io none := rfl
    obtain ⟨hinv, hproper, hasked⟩ := own_next h hf rfl
      (hrun ▸ hwrite buf io fun m hm => (hf.2 m hm).2)
    exact ⟨hinv, hproper, fun _ => hasked⟩
  | pread buf v io =>
    by_cases hv : v = -1
    · subst hv
      have hrun : Call.run (.pread buf (-1) io) = read buf io none := by
        rw [Call.run, offp, if_pos rfl]
      obtain ⟨hinv, hproper, hasked⟩ := own_next h hf.1 rfl (hrun ▸ hread buf io)
      exact ⟨hinv, hproper, fun _ => hasked⟩
    · obtain ⟨hinv, hproper⟩ := pread_next h hf.1 hv
      refine ⟨fun hp => hinv ?_, fun hs => ?_, fun hown => absurd (of_decide_eq_true hown) hv⟩
      · rwa [Proper, if_neg hv] at hp
      · rw [Proper, if_neg hv]
        exact hproper hs
  | pwrite buf v io =>
    by_cases hv : v = -1
    · subst hv
      have hrun : Call.run (.pwrite buf (-1) io) = write buf io none := by
        rw [Call.run, offp, if_pos rfl]
      obtain ⟨hinv, hproper, hasked⟩ := own_next h hf.1 rfl
        (hrun ▸ hwrite buf io fun m hm => (hf.1.2 m hm).2)
      exact ⟨fun hp => hinv (hp rfl), fun hs _ => hproper hs, fun _ => hasked⟩
    · exact ⟨fun _ => pwrite_next h hf.1 hv, fun _ hv' => absurd hv' hv,
        fun hown => absurd (of_decide_eq_true hown) hv⟩
  | seek ok v type stat =>
    obtain ⟨hinv, hproper⟩ := seek_next h hf ok type stat
    exact ⟨hinv, hproper, nofun⟩

/-! ### Sequences of calls -/

/-- A channel to a plain file that was just opened. -/
def opened (mode : Mode) (CMSG : Bool) (dc : Char) : Chan :=
  { mode := mode, CMSG := CMSG, dc := dc }

variable {calls : List Call}

theorem after_append (c : Chan) (pre : List Call) (call : Call) :
    after c (pre ++ [call]) = (after c pre).next call := by
  rw [after, List.foldl_append]
  rfl

theorem inv_opened (mode : Mode) (CMSG : Bool) (dc : Char) :
    Inv (after (opened mode CMSG dc) []) :=
  ⟨⟨rfl, rfl⟩, le_rfl, (by decide : (0 : ℤ) < 9223372036854775808)⟩

/-- The invariant holds as long as calls were proper. -/
theorem inv_after (mode : Mode) (CMSG : Bool) (dc : Char) (hf : ∀ call ∈ calls, call.Fits)
    (hp : ∀ pre call, pre ++ [call] <+: calls → Inv (after (opened mode CMSG dc) pre) →
      Proper (after (opened mode CMSG dc) pre).chan call) :
    ∀ pre, pre <+: calls → Inv (after (opened mode CMSG dc) pre) := by
  intro pre
  induction pre using List.reverseRecOn with
  | nil => exact fun _ => inv_opened mode CMSG dc
  | append_singleton pre call ih =>
    intro hpre
    have hinv := ih ((List.prefix_append pre [call]).trans hpre)
    have hfits := hf call (hpre.subset (List.mem_append_right _ List.mem_cons_self))
    rw [after_append]
    exact (next_spec hinv hfits).1 (hp pre call hpre hinv)

/-- The calls agree with the position and let the lock go just when each of them is proper. -/
theorem agrees_iff (mode : Mode) (CMSG : Bool) (dc : Char) (calls : List Call)
    (hf : ∀ call ∈ calls, call.Fits) :
    Agrees (opened mode CMSG dc) calls ↔
      ∀ pre call, pre ++ [call] <+: calls → Proper (after (opened mode CMSG dc) pre).chan call := by
  have hfits : ∀ {pre call}, pre ++ [call] <+: calls → call.Fits := fun hpre =>
    hf _ (hpre.subset (List.mem_append_right _ List.mem_cons_self))
  constructor
  · intro h pre call hpre
    have hstep : ∀ pre call, pre ++ [call] <+: calls → Inv (after (opened mode CMSG dc) pre) →
        Proper (after (opened mode CMSG dc) pre).chan call := by
      intro pre call hpre hinv
      refine (next_spec hinv (hfits hpre)).2.1 ?_
      rw [← after_append]
      exact h.sound _ hpre
    exact hstep pre call hpre
      (inv_after mode CMSG dc hf hstep pre ((List.prefix_append pre [call]).trans hpre))
  · intro hp
    have hinv := inv_after mode CMSG dc hf fun pre call hpre _ => hp pre call hpre
    refine ⟨fun pre hpre => (hinv pre hpre).toSound, fun pre call m hpre hown hm => ?_⟩
    rw [after_append]
    exact (next_spec (hinv pre ((List.prefix_append pre [call]).trans hpre)) (hfits hpre)).2.2
      hown m hm

/-- A write of ten bytes that moves four, and a seek two bytes back. -/
def backtrack : List Call := [.write ⟨10, true⟩ (.moved 4), .seek true (-2) 1 .garbled]

theorem agrees_backtrack : Agrees (opened .ORDWR false 'M') backtrack := by
  refine (agrees_iff .ORDWR false 'M' backtrack ?_).mpr fun pre call hpre => ?_
  · rintro call hmem
    obtain rfl | hmem := List.mem_cons.mp hmem
    · refine ⟨by decide, fun m hm => ?_⟩
      obtain rfl := Io.moved.inj hm
      decide
    · obtain rfl := List.mem_singleton.mp hmem
      exact (by decide : vlong (-2) = -2)
  · match pre, hpre with
    | [], hpre =>
      obtain ⟨rfl, -⟩ := List.cons_prefix_cons.mp hpre
      intro _ m hm
      obtain rfl := Io.moved.inj hm
      decide
    | [first], hpre =>
      obtain ⟨rfl, hrest⟩ := List.cons_prefix_cons.mp hpre
      obtain ⟨rfl, -⟩ := List.cons_prefix_cons.mp hrest
      rintro - ⟨-, -, -, hneg⟩
      exact absurd hneg (by decide)
    | _ :: _ :: pre, hpre =>
      have hlen := hpre.length_le
      simp [backtrack] at hlen

/-- A positioned read moves the offset of the channel. -/
theorem not_agrees_pread : Call.Fits (.pread ⟨10, true⟩ 0 (.moved 10)) ∧
    ¬ Agrees (opened .ORDWR false 'M') [.pread ⟨10, true⟩ 0 (.moved 10)] := by
  refine ⟨⟨⟨by decide, fun m hm => ?_⟩, by decide⟩, fun h => ?_⟩
  · obtain rfl := Io.moved.inj hm
    decide
  · exact absurd (h.sound _ (List.prefix_refl _)).offset (by decide)

/-- A seek back beyond the start holds the lock for ever. -/
example : ((Call.seek true (-1) 1 .garbled).run (opened .ORDWR false 'M')).2.locked = true := by
  decide

end PlanNine.Sysfile
