import PlanNine.Lib.Chain
import PlanNine.Lib.Run

/-!
# Calls in limbo

A call that comes in on a listening conversation is put in limbo until the answer to the SYN ACK
comes: an entry of a small hash table of chains, with a counter of all entries. The routines of
`tcp.c` that handle the table are here as they handle its pointers; the memory of the entries is
numbered in the order of `malloc`, and what is freed is recorded.

What lies outside comes as parameters: whether `malloc` gives memory, the random number of the
initial sequence, what `sndsynack` computes and whether it fails, the time, and whether
`Fsnewcall` gives a conversation.

## Main definitions

* `Limbo`, `Tcppriv`: an entry, and the table.
* `limbo`, `limborexmit`, `limborst`, `tcpincoming`: the routines.
-/

namespace PlanNine.TcpProto

def Maxlimbo : ℕ := 1000

/-- The size of the hash table. -/
def NLHT : ℕ := 256

def SYNACK_RXTIMER : ℕ := 250

/-- `SYN` and `ACK` among the flags. -/
def SYN : ℕ := 0x02

def ACK : ℕ := 0x10

/-- An entry but for its `next`. -/
structure Limbo where
  laddr : List UInt8 := []
  raddr : List UInt8 := []
  lport : ℕ := 0
  rport : ℕ := 0
  irs : ℕ := 0
  iss : ℕ := 0
  mss : ℕ := 0
  rcvscale : ℕ := 0
  sndscale : ℕ := 0
  lastsend : ℕ := 0
  version : ℕ := 0
  rexmits : ℕ := 0
  deriving DecidableEq, Repr

/-- The fields of a segment that matter here. -/
structure Tcp where
  source : ℕ
  dest : ℕ
  seq : ℕ
  ack : ℕ
  flags : ℕ
  ws : ℕ
  mss : ℕ
  deriving DecidableEq, Repr

/-- The table: the counter, the roots of the chains with the `next` fields, and the entries.
`mallocs` is how many entries have been allocated, `frees` which of them have been freed. -/
structure Tcppriv where
  nlimbo : ℤ := 0
  lht : Links ℕ := ⟨fun _ => none, fun _ => none⟩
  entry : ℕ → Limbo := fun _ => {}
  mallocs : ℕ := 0
  frees : List ℕ := []

def hashipa (a : List UInt8) (p : ℕ) : ℕ := ((a.getD 14 0).toNat + (a.getD 15 0).toNat + p) % NLHT

/-- Whether an entry is the one of a call. -/
def Limbo.isCall (lp : Limbo) (seg : Tcp) (source dest : List UInt8) (version : ℕ) : Bool :=
  lp.lport = seg.dest ∧ lp.rport = seg.source ∧ lp.version = version ∧ lp.raddr = source ∧
    lp.laddr = dest

namespace Tcppriv

/-- The link to the entry of a call, or the last link of its chain. -/
def find (t : Tcppriv) (seg : Tcp) (source dest : List UInt8) (version : ℕ) : Option (Link ℕ) :=
  t.lht.walk (fun p => (t.entry p).isCall seg source dest version) (t.mallocs + 1)
    (.root (hashipa source seg.source))

/-- Take the entry that the link `l` leads to out of its chain. -/
def unchain (t : Tcppriv) (l : Link ℕ) (p : ℕ) : Tcppriv :=
  { t with
    lht := t.lht.set l (t.lht.next p)
    nlimbo := t.nlimbo - 1 }

/-- Memory for a new entry; it is zeroed. -/
def malloc (t : Tcppriv) : Tcppriv :=
  { t with
    lht := t.lht.set (.next t.mallocs) none
    entry := Function.update t.entry t.mallocs {}
    mallocs := t.mallocs + 1 }

def free (t : Tcppriv) (p : ℕ) : Tcppriv := { t with frees := p :: t.frees }

def setEntry (t : Tcppriv) (p : ℕ) (lp : Limbo) : Tcppriv :=
  { t with entry := Function.update t.entry p lp }

end Tcppriv

/-- What `sndsynack` computes: the scale, whether it fails, and the time. -/
structure Synack where
  scale : ℕ
  fails : Bool
  now : ℕ
  deriving DecidableEq, Repr

/-- (Re)send a SYN ACK. -/
def sndsynack (lp : Limbo) (r : Synack) : Limbo :=
  let lp := { lp with sndscale := if lp.rcvscale ≠ 0 then r.scale else 0 }
  if r.fails then lp else { lp with lastsend := r.now }

/-- Answer the entry `p`, that the link `l` leads to, or throw it out if that fails. -/
def answer (t : Tcppriv) (l : Link ℕ) (p : ℕ) (r : Synack) : Tcppriv :=
  let t := t.setEntry p (sndsynack (t.entry p) r)
  if r.fails then (t.unchain l p).free p else t

/-- The entry for a call that is not in limbo: the first of the chain `h` if the table is full, or a
new one. -/
def limboAlloc (t : Tcppriv) (h : ℕ) (malloc : Bool) : Option (ℕ × Tcppriv) :=
  let fresh : Option (ℕ × Tcppriv) :=
    if malloc then some (t.mallocs, { t.malloc with nlimbo := t.nlimbo + 1 }) else none
  match t.lht.root h with
  | some p =>
      if (Maxlimbo : ℤ) ≤ t.nlimbo then
        some (p, { t with lht := (t.lht.set (.root h) (t.lht.next p)).set (.next p) none })
      else fresh
  | none => fresh

/-- Put a call into limbo and respond with a SYN ACK. -/
def limbo (t : Tcppriv) (source dest : List UInt8) (seg : Tcp) (version : ℕ) (malloc : Bool)
    (iss : ℕ) (r : Synack) : Option Tcppriv :=
  (t.find seg source dest version).map fun l =>
    match t.lht.get l with
    | some p =>
        -- each new SYN restarts the retransmits
        answer (t.setEntry p { t.entry p with irs := seg.seq }) l p r
    | none =>
        match limboAlloc t (hashipa source seg.source) malloc with
        | none => t
        | some (p, t) =>
            let t := { t with lht := t.lht.set l (some p) }
            let t := t.setEntry p { t.entry p with
              version := version
              laddr := dest
              raddr := source
              lport := seg.dest
              rport := seg.source
              mss := seg.mss
              rcvscale := seg.ws
              irs := seg.seq
              iss := iss }
            answer t l p r

/-- The visits of `limborexmit` to one chain, from the link `l` on. The link stays where it is when
an entry is left alone. -/
def rexmitChain (now : ℕ) (snd : ℕ → Synack) : ℕ → Tcppriv → Link ℕ → ℕ → Tcppriv × ℕ
  | 0, t, _, seen => (t, seen)
  | fuel + 1, t, l, seen =>
      match t.lht.get l with
      | none => (t, seen)
      | some p =>
          if t.nlimbo ≤ seen then (t, seen)
          else
            let lp := t.entry p
            if (now + 4294967296 - lp.lastsend) % 4294967296 <
                (lp.rexmits + 1) * SYNACK_RXTIMER then
              rexmitChain now snd fuel t l (seen + 1)
            else
              -- time it out after 1 second
              let t := t.setEntry p { lp with rexmits := (lp.rexmits + 1) % 256 }
              if 5 < (lp.rexmits + 1) % 256 then
                rexmitChain now snd fuel ((t.unchain l p).free p) l (seen + 1)
              -- if we're being attacked, don't bother resending
              else if 100 < t.nlimbo then rexmitChain now snd fuel t l (seen + 1)
              else if (snd seen).fails then
                rexmitChain now snd fuel (answer t l p (snd seen)) l (seen + 1)
              else rexmitChain now snd fuel (answer t l p (snd seen)) (.next p) (seen + 1)

/-- Resend SYN ACK's; an entry is visited while fewer than `nlimbo` visits were made. -/
def limborexmit (t : Tcppriv) (now : ℕ) (snd : ℕ → Synack) : Tcppriv :=
  ((List.range NLHT).foldl (fun w h =>
    if w.1.nlimbo ≤ w.2 then w
    else rexmitChain now snd w.1.nlimbo.toNat w.1 (.root h) w.2) (t, 0)).1

/-- A RST for a call in limbo throws it out. -/
def limborst (t : Tcppriv) (segp : Tcp) (src dst : List UInt8) (version : ℕ) : Option Tcppriv :=
  (t.find segp src dst version).map fun l =>
    match t.lht.get l with
    | none => t
    | some p =>
        -- RST can only follow the SYN
        if segp.seq = ((t.entry p).irs + 1) % 4294967296 then (t.unchain l p).free p else t

/-- The ACK to our SYN ACK makes a conversation of a call in limbo. With the table comes the entry
from which the new conversation is filled in. -/
def tcpincoming (t : Tcppriv) (segp : Tcp) (src dst : List UInt8) (version : ℕ) (newcall : Bool) :
    Option (Tcppriv × Option Limbo) :=
  -- unless it's just an ack, it can't be someone coming out of limbo
  if segp.flags &&& SYN ≠ 0 ∨ segp.flags &&& ACK = 0 then some (t, none)
  else
    (t.find segp src dst version).map fun l =>
      match t.lht.get l with
      | none => (t, none)
      | some p =>
          let lp := t.entry p
          if segp.seq ≠ (lp.irs + 1) % 4294967296 ∨ segp.ack ≠ (lp.iss + 1) % 4294967296 then
            (t, none)
          else
            let t := t.unchain l p
            if newcall then (t.free p, some lp) else (t, none)

end PlanNine.TcpProto
