import PlanNine.Port.Sdp.Delivery

/-!
# Packets taken apart

`conviput` takes a packet apart in place. The header, the initial vector, the padding and the
acknowledgement of the compressor are peeled off by routines that each move a pointer of the block,
put another block in its place or free it. `Sdp.conviput` says what becomes of the conversation;
here the same routines also say which bytes of the packet they touch and who holds its block.

## Main definitions

* `Holding`, `InputM`: a conversation with the blocks that a call of `conviput` has to give up.
* `touch`, `freeb`, `keep`: what may be done to a block.
* `conviput` and the routines below it.
* `Skips`, `Carries`: a routine leaves the conversation alone, or does to it what another one does.

## Main results

* `carries_conviput`: unless it fails, `conviput` does to the conversation what `Sdp.conviput` does.
-/

namespace PlanNine.Sdp.Input

open Thw Kern

/-! ### Blocks in hand -/

/-- The packet, and the block that `thwackuncomp` decompresses it into. -/
inductive Id where
  | packet | fresh
  deriving DecidableEq, Repr

/-- The panics of the routines, and the ways to mishandle a packet. -/
inductive Fault where
  | routine (why : Panic)
  /-- a byte outside the packet is read or written -/
  | outside
  /-- a block is freed that is not in hand -/
  | freeb (i : Id)
  /-- the insertion of a decompressed block does not end -/
  | endless
  deriving DecidableEq, Repr

/-- A conversation, the blocks that have to be freed or passed on, and those left for
`readcontrol`. -/
structure Holding where
  world : World
  held : List Id := [.packet]
  kept : List Block := []

abbrev InputM (α : Type) : Type := Kern Fault Holding α

/-- The bytes of the buffer from `i` on, `n` of them, are read or written. -/
def touch (b : Block) (i n : ℕ) : InputM Unit := assert (i + n ≤ b.buf.length) .outside

def allocb : InputM Unit := modify fun s => { s with held := s.held ++ [.fresh] }

def freeb (i : Id) : InputM Unit := do
  let s ← get
  assert (i ∈ s.held) (.freeb i)
  modify fun s => { s with held := s.held.erase i }

/-- `c->in.controlpkt = b`. -/
def keep (b : Block) : InputM Unit :=
  modify fun s => { s with held := s.held.erase .packet, kept := s.kept ++ [b] }

/-- An early stop of a routine on the conversation. -/
def stopped : Stop Panic → Stop Fault
  | .error msg => .error msg
  | .panic why => .panic (.routine why)

/-- A routine on the conversation; it touches no block. -/
def under {α : Type} (m : ConvM α) : InputM α := fun s =>
  match m s.world with
  | (.ok a, w) => (.ok a, { s with world := w })
  | (.error e, w) => (.error (stopped e), { s with world := w })

section

variable {α : Type} {s : Holding} {E : Stop Fault → Holding → Prop}

@[simp] theorem wp_touch {b : Block} {i n : ℕ} {Q : Unit → Holding → Prop} :
    (touch b i n).wp Q E s ↔
      if i + n ≤ b.buf.length then Q () s else E (.panic .outside) s := by
  simp [touch]

@[simp] theorem wp_allocb {Q : Unit → Holding → Prop} :
    allocb.wp Q E s ↔ Q () { s with held := s.held ++ [.fresh] } := Iff.rfl

@[simp] theorem wp_freeb {i : Id} {Q : Unit → Holding → Prop} : (freeb i).wp Q E s ↔
    if i ∈ s.held then Q () { s with held := s.held.erase i } else E (.panic (.freeb i)) s := by
  by_cases h : i ∈ s.held <;> simp [freeb, h]

@[simp] theorem wp_keep {b : Block} {Q : Unit → Holding → Prop} : (keep b).wp Q E s ↔
    Q () { s with held := s.held.erase .packet, kept := s.kept ++ [b] } := Iff.rfl

theorem wp_under {m : ConvM α} {Q : α → Holding → Prop} : (under m).wp Q E s ↔
    m.wp (fun a w => Q a { s with world := w }) (fun e w => E (stopped e) { s with world := w })
      s.world := by
  unfold Kern.wp under
  rcases m s.world with ⟨_ | _, w⟩ <;> rfl

@[simp] theorem wp_under_getConv {Q : Conv → Holding → Prop} :
    (under getConv).wp Q E s ↔ Q s.world.conv s := by
  rw [wp_under, wp_getConv]

@[simp] theorem wp_under_setConv {f : Conv → Conv} {Q : Unit → Holding → Prop} :
    (under (setConv f)).wp Q E s ↔ Q () { s with world := s.world.map f } := by
  rw [wp_under, wp_setConv]

@[simp] theorem wp_under_count {f : Stats → Stats} {Q : Unit → Holding → Prop} :
    (under (count f)).wp Q E s ↔
      Q () { s with world := s.world.map fun c => { c with lstats := f c.lstats } } := by
  rw [count, wp_under_setConv]

end

/-! ### The routines -/

/-- The loop of `desencrypt` and `desdecrypt` from `p` up to `ep`; it reads and writes whole
blocks. -/
def desLoop (b : Block) (ep : ℕ) : ℕ → ℕ → InputM Unit
  | 0, _ => pure ()
  | fuel + 1, p => do
      if p < ep then
        touch b p 8
        desLoop b ep fuel (p + 8)

/-- The bytes that `desencrypt` and `desdecrypt` touch; the first eight are the initial vector. -/
def touchDes (b : Block) (n : ℤ) : InputM Unit := do
  if n < 8 ∨ n % 2 ≠ 0 then return
  touch b b.rp 8
  desLoop b (b.rp + n.toNat) n.toNat (b.rp + 8)

/-- The bytes that `rc4encrypt` and `rc4decrypt` touch; the first four are the byte count. -/
def touchRc4 (b : Block) (n : ℤ) : InputM Unit := do
  if n < 4 then return
  touch b b.rp 4
  touch b (b.rp + 4) (n - 4).toNat

def touchFn : CipherFn → Block → ℤ → InputM Unit
  | .desencrypt | .desdecrypt => touchDes
  | .rc4encrypt | .rc4decrypt => touchRc4

variable (L : Libsec) (env : Env)

/-- The bytes that `md5auth` touches, from the header on. -/
def touchAuth (ow : OneWay) (b : Block) : InputM Unit :=
  match ow.auth with
  | none => pure ()
  | some .md5auth => touch b (b.rp - 4) (b.blen + 4).toNat

/-- The bytes that the cipher touches, and the length of the padding when it succeeds. -/
def touchCipher (ow : OneWay) (b : Block) : InputM Unit :=
  match ow.cipher with
  | none => pure ()
  | some f => do
      touchFn f b b.blen
      if (f.run L ow b.data b.blen).map Prod.fst = some true ∧ 1 < ow.cipherblklen then
        touch b (b.wp - 1) 1

def conviconnect (subtype : ℕ) (b : Block) : InputM Unit := do
  if b.blen ≠ 8 then
    freeb .packet
    return
  touch b b.rp 8
  freeb .packet
  under (Sdp.conviconnect L env subtype b)

def convicontrol (subtype : ℕ) (b : Block) : InputM Unit := do
  -- the packets that are returned from below without `freeb` are lost
  if b.blen < 4 then return
  touch b b.rp 4
  let cseq := nhgetl b.data
  let c ← under getConv
  if subtype = ControlMesg then
    if cseq = c.inp.controlseq then
      freeb .packet
      if c.inp.controlpkt = none then under (convack L env)
    else if cseq ≠ incr c.inp.controlseq then return
    else
      under (setConv fun c => { c with inp := { c.inp with controlseq := cseq } })
      let b := { b with rp := b.rp + 4 }
      if b.blen = 0 then
        freeb .packet
        under (convack L env)
      else
        keep b
        under (handControl b.data)
  else if subtype = ControlAck then
    if cseq ≠ c.out.controlseq then return
    else if b.blen < AckPktSize then return
    else
      touch b b.rp AckPktSize
      under (setConv fun c => { c with
        rstats := ackStats c.rstats b.data
        out := { c.out with controlpkt := none }
        timeout := c.lastrecv + KeepAlive })
      freeb .packet

/-- `b` on success. The reads of `unthwack` stop at the end of the packet, and what it writes fits
the new block of `ThwMaxBlock` bytes. -/
def thwackuncomp (subtype seq : ℕ) (b : Block) : InputM (Option (Id × Block)) := do
  let c ← under getConv
  if subtype = ThwackU then
    touch b b.rp 4
    match c.out.compstate with
    | some (.thwack tw) =>
        let mseq := b.byte 1 <<< 16 ||| b.byte 2 <<< 8 ||| b.byte 3
        under (setConv fun _ => { c with
          out := { c.out with compstate := some (.thwack (thwackack tw mseq (b.byte 0))) } })
        return some (.packet, { b with rp := b.rp + 4 })
    | _ => panic (.routine .nilalg)
  else if subtype = ThwackC then
    allocb
    match c.inp.compstate, c.out.compstate with
    | some (.unthwack ut), some (.thwack tw) =>
        let (ut, r) := unthwack ut ThwMaxBlock b.data seq
        let c := { c with inp := { c.inp with compstate := some (.unthwack ut) } }
        match r with
        | .done l =>
            freeb .packet
            let b := Block.ofList l
            let mseq := b.byte 1 <<< 16 ||| b.byte 2 <<< 8 ||| b.byte 3
            under (setConv fun _ => { c with
              out := { c.out with compstate := some (.thwack (thwackack tw mseq (b.byte 0))) } })
            return some (.fresh, { b with rp := 4 })
        | .stuck => panic .endless
        | _ =>
            freeb .packet
            under (setConv fun _ => c)
            freeb .fresh
            return none
    | _, _ => panic (.routine .nilalg)
  else
    under (setConv fun _ => c)
    return none

def convicomp (subtype seq : ℕ) (b : Block) : InputM (Option (Id × Block)) := do
  let c ← under getConv
  match c.inp.comp with
  | none =>
      freeb .packet
      return none
  | some _ => thwackuncomp subtype seq b

/-- What becomes of a good packet: the block handed to the reader, if there is one. -/
def conviputGood (type subtype seq : ℕ) (control : Bool) (b : Block) :
    InputM (Option (Id × Block)) := do
  if type = TControl then
    convicontrol L env subtype b
    return none
  else if type = TData then
    under (count fun s => { s with
      inDataPackets := incr s.inDataPackets
      inDataBytes := ulong (s.inDataBytes + b.blen) })
    if control then
      under (count fun s => { s with inBadOther := incr s.inBadOther })
      freeb .packet
      return none
    return some (.packet, b)
  else if type = TCompData then
    under (count fun s => { s with
      inDataPackets := incr s.inDataPackets
      inCompDataBytes := ulong (s.inCompDataBytes + b.blen) })
    match ← convicomp subtype seq b with
    | none =>
        under (count fun s => { s with inBadComp := incr s.inBadComp })
        return none
    | some (i, b) =>
        under (count fun s => { s with inDataBytes := ulong (s.inDataBytes + b.blen) })
        if control then
          under (count fun s => { s with inBadOther := incr s.inBadOther })
          freeb i
          return none
        return some (i, b)
  else
    under (count fun s => { s with inBadOther := incr s.inBadOther })
    freeb .packet
    return none

/-- The checks of the authenticator and the cipher of a packet that the window lets through, the
move of the window, and the rest. -/
def conviputAuth (type subtype seq seqwrap : ℕ) (seqdiff : ℤ) (control : Bool) (b : Block) :
    InputM (Option (Id × Block)) := do
  let c ← under getConv
  touchAuth c.inp b
  match undoAuth L c.inp b with
  | none => panic (.routine .nilalg)
  | some (false, _) =>
      under (count fun s => { s with inBadAuth := incr s.inBadAuth })
      freeb .packet
      return none
  | some (true, b) =>
    touchCipher L c.inp b
    match undoCipher L c.inp b with
    | none => panic (.routine .nilalg)
    | some (false, ow, _) =>
        under (setConv fun c => { c with inp := ow })
        under (count fun s => { s with inBadOther := incr s.inBadOther })
        freeb .packet
        return none
    | some (true, ow, b) =>
        under (setConv fun c =>
          let (ow, missing) := accept ow c.lstats.inMissing seq seqwrap seqdiff
          { c with
            inp := ow, lstats := { c.lstats with inMissing := missing }, lastrecv := env.sec })
        conviputGood L env type subtype seq control b

/-- The check of the sequence number, and the rest. -/
def conviputSeq (type subtype : ℕ) (control : Bool) (b : Block) :
    InputM (Option (Id × Block)) := do
  touch b b.rp 3
  let seq := b.byte 0 <<< 16 + b.byte 1 <<< 8 + b.byte 2
  let b := { b with rp := b.rp + 3 }
  let c ← under getConv
  let (seqwrap, seqdiff) := guess c.inp seq
  match seqCheck c.inp seqdiff with
  | .old =>
      under (count fun s => { s with inBadSeq := incr s.inBadSeq })
      freeb .packet
      return none
  | .dup =>
      under (count fun s => { s with inDup := incr s.inDup })
      freeb .packet
      return none
  | .reorder =>
      under (count fun s => { s with inReorder := incr s.inReorder })
      conviputAuth L env type subtype seq seqwrap seqdiff control b
  | .new => conviputAuth L env type subtype seq seqwrap seqdiff control b

/-- The block that is passed on, if there is one. -/
def conviput (pkt : List UInt8) (control : Bool) : InputM (Option (Id × Block)) := do
  let b := Block.ofList pkt
  under (count fun s => { s with inPackets := incr s.inPackets })
  if b.blen < 4 then
    under (count fun s => { s with inBadOther := incr s.inBadOther })
    freeb .packet
    return none
  touch b b.rp 1
  let type := b.byte 0 >>> 4
  let subtype := b.byte 0 &&& 0xf
  let b := { b with rp := b.rp + 1 }
  if type = TConnect then
    conviconnect L env subtype b
    return none
  let c ← under getConv
  match c.state with
  | .cInit | .cDial =>
      under (count fun s => { s with inBadOther := incr s.inBadOther })
      under (conreset env c.dialid c.acceptid)
      conviputSeq L env type subtype control b
  | .cAccept | .cRemoteClose | .cLocalClose =>
      under (count fun s => { s with inBadOther := incr s.inBadOther })
      freeb .packet
      return none
  | .cOpen | .cClosed | .cFree => conviputSeq L env type subtype control b

/-! ### What becomes of the conversation -/

variable {L env}

/-- A routine leaves the conversation alone, and stops only to mishandle a packet. -/
def Skips {α : Type} (m : InputM α) : Prop :=
  ∀ s, m.wp (fun _ t => t.world = s.world) (fun e _ => ∀ e', e ≠ stopped e') s

/-- Unless it mishandles a packet, a routine does to the conversation what `n` does, and its result
is that of `n` by `f`. -/
def Carries {α β : Type} (m : InputM α) (f : α → β) (n : ConvM β) : Prop :=
  ∀ s, m.wp (fun a t => n s.world = (.ok (f a), t.world))
    (fun e t => ∀ e', e = stopped e' → n s.world = (.error e', t.world)) s

section

variable {α β γ : Type}

theorem stopped_injective : Function.Injective stopped := by
  intro e e' h
  cases e <;> cases e' <;> simp_all [stopped]

theorem skips_pure (a : α) : Skips (pure a : InputM α) := fun _ => rfl

theorem skips_touch {b : Block} {i n : ℕ} : Skips (touch b i n) := by
  intro s
  rw [wp_touch]
  split_ifs
  · rfl
  · intro e' h
    cases e' <;> cases h

theorem skips_allocb : Skips allocb := fun _ => rfl

theorem skips_freeb {i : Id} : Skips (freeb i) := by
  intro s
  rw [wp_freeb]
  split_ifs
  · rfl
  · intro e' h
    cases e' <;> cases h

theorem skips_keep {b : Block} : Skips (keep b) := fun _ => rfl

theorem Skips.bind {m : InputM α} {k : α → InputM β} (hm : Skips m) (hk : ∀ a, Skips (k a)) :
    Skips (m >>= k) := by
  intro s
  rw [wp_bind]
  refine wp_mono (hm s) (fun a t ht => ?_) fun _ _ he => he
  exact wp_mono (hk a t) (fun _ u hu => hu.trans ht) fun _ _ he => he

theorem Skips.ite {c : Prop} [Decidable c] {m m' : InputM α} (hm : Skips m) (hm' : Skips m') :
    Skips (if c then m else m') := by
  split_ifs
  · exact hm
  · exact hm'

theorem skips_desLoop {b : Block} {ep fuel p : ℕ} : Skips (desLoop b ep fuel p) := by
  induction fuel generalizing p with
  | zero => exact skips_pure ()
  | succ fuel ih => exact .ite (.bind skips_touch fun _ => ih) (skips_pure ())

theorem skips_touchCipher {ow : OneWay} {b : Block} : Skips (touchCipher L ow b) := by
  unfold touchCipher
  cases ow.cipher with
  | none => exact skips_pure ()
  | some f =>
    refine .bind ?_ fun _ => .ite skips_touch (skips_pure ())
    cases f with
    | desencrypt | desdecrypt =>
      exact .ite (skips_pure ()) (.bind skips_touch fun _ => skips_desLoop)
    | rc4encrypt | rc4decrypt =>
      exact .ite (skips_pure ()) (.bind skips_touch fun _ => skips_touch)

theorem skips_touchAuth {ow : OneWay} {b : Block} : Skips (touchAuth ow b) := by
  unfold touchAuth
  cases ow.auth with
  | none => exact skips_pure ()
  | some f => cases f; exact skips_touch

theorem carries_pure (a : α) (f : α → β) : Carries (pure a) f (pure (f a)) := fun _ => rfl

theorem carries_under (n : ConvM α) : Carries (under n) id n := by
  intro s
  rw [wp_under, wp_iff_forall]
  refine ⟨fun a w h => h, fun e w h e' heq => ?_⟩
  rw [← stopped_injective heq]
  exact h

theorem carries_panic {f : α → β} (why : Panic) :
    Carries (panic (.routine why)) f (panic why) := by
  intro s e' h
  rw [← stopped_injective (show stopped (.panic why) = stopped e' from h)]
  rfl

theorem carries_fault {f : α → β} {n : ConvM β} {why : Fault}
    (h : ∀ e', .panic why ≠ stopped e') : Carries (panic why) f n :=
  fun _ e' he => absurd he (h e')

theorem Carries.bind {m : InputM α} {f : α → β} {n : ConvM β} {δ : Type} {k : α → InputM γ}
    {g : γ → δ} {k' : β → ConvM δ} (hm : Carries m f n) (hk : ∀ a, Carries (k a) g (k' (f a))) :
    Carries (m >>= k) g (n >>= k') := by
  intro s
  rw [wp_bind]
  refine wp_mono (hm s) (fun a t ht => ?_) fun e t he e' heq => bind_of_error (he e' heq)
  refine wp_mono (hk a t) (fun c u hu => ?_) fun e u he e' heq => ?_
  · rw [bind_of_ok ht, hu]
  · rw [bind_of_ok ht, he e' heq]

/-- What leaves the conversation alone may stand before the rest. -/
theorem Carries.skip {m : InputM α} {k : InputM β} {f : β → γ} {n : ConvM γ} (hm : Skips m)
    (hk : Carries k f n) : Carries (m >>= fun _ => k) f n := by
  intro s
  rw [wp_bind]
  refine wp_mono (hm s) (fun a t ht => ?_) fun e t he e' heq => absurd heq (he e')
  rw [← ht]
  exact hk t

/-- What leaves the conversation alone may stand behind a routine without a result. -/
theorem Carries.then_skip {m k : InputM Unit} {n : ConvM Unit} (hm : Carries m id n)
    (hk : Skips k) : Carries (m >>= fun _ => k) id n := by
  intro s
  rw [wp_bind]
  refine wp_mono (hm s) (fun a t ht => ?_) fun e t he => he
  refine wp_mono (hk t) (fun c u hu => ?_) fun e u he e' heq => absurd heq (he e')
  rw [hu]
  exact ht

theorem Carries.ite {c : Prop} [Decidable c] {m m' : InputM α} {f : α → β} {n n' : ConvM β}
    (hm : c → Carries m f n) (hm' : ¬c → Carries m' f n') :
    Carries (if c then m else m') f (if c then n else n') := by
  split_ifs with h
  · exact hm h
  · exact hm' h

end


section

variable {subtype seq : ℕ} {b : Block} {control : Bool}

theorem carries_conviconnect :
    Carries (conviconnect L env subtype b) id (Sdp.conviconnect L env subtype b) := by
  unfold conviconnect
  split_ifs with h
  · refine .skip skips_freeb ?_
    rw [Sdp.conviconnect, if_pos h]
    exact carries_pure () id
  · exact .skip skips_touch (.skip skips_freeb (carries_under _))

theorem carries_convicontrol :
    Carries (convicontrol L env subtype b) id (Sdp.convicontrol L env subtype b) := by
  unfold convicontrol Sdp.convicontrol
  refine .ite (fun _ => carries_pure () id) fun _ => .skip skips_touch ?_
  refine .bind (carries_under _) fun c => .ite (fun _ => ?_) fun _ => .ite (fun _ => ?_) fun _ =>
    carries_pure () id
  · refine .ite (fun _ => .skip skips_freeb ?_) fun _ => .ite (fun _ => carries_pure () id)
      fun _ => .bind (carries_under _) fun _ => .ite (fun _ => ?_) fun _ => ?_
    · exact .ite (fun _ => carries_under _) fun _ => carries_pure () id
    · exact .skip skips_freeb (carries_under _)
    · exact .skip skips_keep (carries_under _)
  · exact .ite (fun _ => carries_pure () id) fun _ => .ite (fun _ => carries_pure () id) fun _ =>
      .skip skips_touch (.then_skip (carries_under _) skips_freeb)

/-- The pieces of `Sdp.thwackuncomp`, as `Sdp.convicomp` puts them together. -/
theorem carries_thwackuncomp : Carries (thwackuncomp subtype seq b) (Option.map Prod.snd) (do
    let c ← getConv
    match Sdp.thwackuncomp c subtype seq b with
    | none => panic .nilalg
    | some (c, b) => do
        setConv fun _ => c
        return b) := by
  unfold thwackuncomp
  refine .bind (carries_under _) fun c => ?_
  dsimp only [id]
  unfold Sdp.thwackuncomp
  split_ifs with hU hC
  · refine .skip skips_touch ?_
    rcases c.out.compstate with _ | tw | ut
    · exact carries_panic _
    · exact .bind (carries_under _) fun _ => carries_pure _ _
    · exact carries_panic _
  · refine .skip skips_allocb ?_
    rcases c.inp.compstate with _ | tw | ut
    · exact carries_panic _
    · exact carries_panic _
    · rcases c.out.compstate with _ | tw | ut'
      · exact carries_panic _
      · dsimp only
        rcases unthwack ut ThwMaxBlock b.data seq with ⟨ut', l | _ | _ | _⟩
        · exact .skip skips_freeb (.bind (carries_under _) fun _ => carries_pure _ _)
        · exact .skip skips_freeb (.bind (carries_under _) fun _ =>
            .skip skips_freeb (carries_pure none _))
        · exact .skip skips_freeb (.bind (carries_under _) fun _ =>
            .skip skips_freeb (carries_pure none _))
        · exact carries_fault fun e' h => by cases e' <;> cases h
      · exact carries_panic _
  · exact .bind (carries_under _) fun _ => carries_pure none _

theorem carries_convicomp :
    Carries (convicomp subtype seq b) (Option.map Prod.snd) (Sdp.convicomp subtype seq b) := by
  intro s
  change (match s.world.conv.inp.comp with
    | none => freeb .packet >>= fun _ => pure none
    | some _ => thwackuncomp subtype seq b : InputM (Option (Id × Block))).wp _ _ s
  cases hcomp : s.world.conv.inp.comp with
  | none =>
    have hrun : Sdp.convicomp subtype seq b s.world = (.ok none, s.world) := by
      rw [convicomp_apply, hcomp]
    rw [hrun]
    exact (Carries.skip skips_freeb (carries_pure none (Option.map Prod.snd))) s
  | some f =>
    have hrun : Sdp.convicomp subtype seq b s.world = (do
        let c ← getConv
        match Sdp.thwackuncomp c subtype seq b with
        | none => panic .nilalg
        | some (c, b) => do
            setConv fun _ => c
            return b : ConvM (Option Block)) s.world := by
      change (match s.world.conv.inp.comp with
        | none => _
        | some _ => _ : ConvM (Option Block)) s.world = _
      rw [hcomp]
      rfl
    rw [hrun]
    exact carries_thwackuncomp s

theorem carries_conviputGood {type : ℕ} :
    Carries (conviputGood L env type subtype seq control b) (Option.map Prod.snd)
      (Sdp.conviputGood L env type subtype seq control b) := by
  have hdrop {f : Stats → Stats} {i : Id} : Carries (do
      under (count f)
      freeb i
      return none : InputM (Option (Id × Block))) (Option.map Prod.snd)
      (do count f; return none) :=
    .bind (carries_under _) fun _ => .skip skips_freeb (carries_pure none _)
  unfold conviputGood Sdp.conviputGood
  refine .ite (fun _ => .bind carries_convicontrol fun _ => carries_pure none _) fun _ =>
    .ite (fun _ => ?_) fun _ => .ite (fun _ => ?_) fun _ => hdrop
  · exact .bind (carries_under _) fun _ => .ite (fun _ => hdrop) fun _ => carries_pure _ _
  · refine .bind (carries_under _) fun _ => .bind carries_convicomp fun r => ?_
    rcases r with _ | ⟨i, b⟩
    · exact .bind (carries_under _) fun _ => carries_pure none _
    · exact .bind (carries_under _) fun _ => .ite (fun _ => hdrop) fun _ => carries_pure _ _

theorem carries_conviputAuth {type seqwrap : ℕ} {seqdiff : ℤ} :
    Carries (conviputAuth L env type subtype seq seqwrap seqdiff control b)
      (Option.map Prod.snd)
      (Sdp.conviputAuth L env type subtype seq seqwrap seqdiff control b) := by
  unfold conviputAuth Sdp.conviputAuth
  refine .bind (carries_under _) fun c => .skip skips_touchAuth ?_
  dsimp only [id]
  cases undoAuth L c.inp b with
  | none => exact carries_panic _
  | some r =>
    obtain ⟨_ | _, b⟩ := r
    · exact .bind (carries_under _) fun _ => .skip skips_freeb (carries_pure none _)
    · dsimp only
      refine .skip skips_touchCipher ?_
      cases undoCipher L c.inp b with
      | none => exact carries_panic _
      | some r =>
        obtain ⟨_ | _, ow, b⟩ := r
        · exact .bind (carries_under _) fun _ => .bind (carries_under _) fun _ =>
            .skip skips_freeb (carries_pure none _)
        · exact .bind (carries_under _) fun _ => carries_conviputGood

theorem carries_conviputSeq {type : ℕ} :
    Carries (conviputSeq L env type subtype control b) (Option.map Prod.snd)
      (Sdp.conviputSeq L env type subtype control b) := by
  unfold conviputSeq Sdp.conviputSeq
  refine .skip skips_touch (.bind (carries_under _) fun c => ?_)
  dsimp only [id]
  cases seqCheck c.inp (guess c.inp (b.byte 0 <<< 16 + b.byte 1 <<< 8 + b.byte 2)).2 with
  | old | dup =>
    exact .bind (carries_under _) fun _ => .skip skips_freeb (carries_pure none _)
  | reorder => exact .bind (carries_under _) fun _ => carries_conviputAuth
  | new => exact carries_conviputAuth

/-- Unless it mishandles the packet, `conviput` does to the conversation what `Sdp.conviput` does,
and passes the same block on. -/
theorem carries_conviput {pkt : List UInt8} :
    Carries (conviput L env pkt control) (Option.map Prod.snd)
      (Sdp.conviput L env pkt control) := by
  have hdrop {f : Stats → Stats} : Carries (do
      under (count f)
      freeb .packet
      return none : InputM (Option (Id × Block))) (Option.map Prod.snd)
      (do count f; return none) :=
    .bind (carries_under _) fun _ => .skip skips_freeb (carries_pure none _)
  unfold conviput Sdp.conviput
  refine .bind (carries_under _) fun _ => .ite (fun _ => hdrop) fun _ => .skip skips_touch ?_
  refine .ite (fun _ => .bind carries_conviconnect fun _ => carries_pure none _) fun _ => ?_
  refine .bind (carries_under _) fun c => ?_
  dsimp only [id]
  cases c.state with
  | cInit | cDial =>
    exact .bind (carries_under _) fun _ => .bind (carries_under _) fun _ => carries_conviputSeq
  | cAccept | cRemoteClose | cLocalClose => exact hdrop
  | cOpen | cClosed | cFree => exact carries_conviputSeq

end

end PlanNine.Sdp.Input
