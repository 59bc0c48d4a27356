import PlanNine.Port.Sdp.Held
import PlanNine.Port.Sdp.Receive

/-!
# Switching algorithms

The requests `cipher`, `auth` and `comp` set up an algorithm for both directions, and new secrets
set up those in use again. Each set-up routine first frees what is there. The shared routines leave
the functions of the outbound direction alone, so that a null algorithm after a real one leaves a
function without its state.

## Main definitions

* `Conv.Consistent`: each function has its state and its lengths.
* `Conv.Callable`: no function can be called on a missing state.
* `Switch`, `Switches`: requests and packets, and the steps that they make.
* `Strands`: a null algorithm, or one that there is no memory for, takes the place of a real one.

## Main results

* `Conv.Consistent.callable`: a consistent conversation calls no function without its state.
* `switched_step`: an event breaks the consistency of the directions or keeps it.
* `consistent_of_run`: it is kept by every run in which no outbound function is stranded.
-/

namespace PlanNine.Sdp

open Kern

variable {L : Libsec} {env : Env}

/-! ### Consistent directions -/

/-- The state that a cipher works on. -/
def CipherFn.Fits : CipherFn → CipherState → Prop
  | .desencrypt, .des .. | .desdecrypt, .des .. => True
  | .rc4encrypt, .rc4 _ | .rc4decrypt, .rc4 _ => True
  | _, _ => False

/-- The block length of a cipher and the length of what it puts before a packet. -/
def CipherFn.lens : CipherFn → ℕ × ℕ
  | .desencrypt | .desdecrypt => (8, 8)
  | .rc4encrypt | .rc4decrypt => (1, 4)

/-- A cipher has its state and its lengths; without a cipher the lengths are zero. -/
def OneWay.CipherReady (ow : OneWay) : Prop :=
  match ow.cipher with
  | none => ow.cipherblklen = 0 ∧ ow.cipherivlen = 0
  | some f => (∃ st, ow.cipherstate = some st ∧ f.Fits st) ∧
      (ow.cipherblklen, ow.cipherivlen) = f.lens

/-- An authenticator has its state and its length; without one the length is zero. -/
def OneWay.AuthReady (ow : OneWay) : Prop :=
  match ow.auth with
  | none => ow.authlen = 0
  | some .md5auth => ow.authstate ≠ none ∧ ow.authlen = 12

/-- The states that the compressors of both directions work on. -/
def Conv.CompReady (c : Conv) : Prop :=
  (∃ ut, c.inp.compstate = some (.unthwack ut)) ∧ ∃ tw, c.out.compstate = some (.thwack tw)

/-- Each function of a conversation has its state and its lengths. -/
structure Conv.Consistent (c : Conv) : Prop where
  cipher : c.inp.CipherReady ∧ c.out.CipherReady
  auth : c.inp.AuthReady ∧ c.out.AuthReady
  comp : c.inp.comp ≠ none ∨ c.out.comp ≠ none → c.CompReady

/-- The conversation is consistent, and its outbound functions belong to the algorithms in use. -/
structure Conv.Switched (c : Conv) : Prop extends c.Consistent where
  nullCipher : c.cipher = none ∨ c.cipher = some .null → c.out.cipher = none
  nullAuth : c.auth ≠ some .hmac_md5_96 → c.out.auth = none

/-- No function of the conversation can be called on a missing state. -/
structure Conv.Callable (L : Libsec) (c : Conv) : Prop where
  encode : ∀ type subtype b iv, encode L c.out type subtype b iv ≠ none
  undoAuth : ∀ b, undoAuth L c.inp b ≠ none
  undoCipher : ∀ b, undoCipher L c.inp b ≠ none
  thwackcomp : c.out.comp ≠ none → ∀ seq b, thwackcomp c seq b ≠ none
  thwackuncomp : c.inp.comp ≠ none → c.CompReady

/-! ### Algorithms that cannot fail -/

/-- The direction with another state of its cipher. -/
def OneWay.putCipher (ow : OneWay) (st : Option CipherState) : OneWay :=
  { ow with cipherstate := st }

theorem OneWay.putCipher_self (ow : OneWay) : ow.putCipher ow.cipherstate = ow := rfl

/-- A cipher does not fail on the state that it works on, and leaves a state of the same kind. -/
theorem run_cipher_fits {f : CipherFn} {ow : OneWay} {st : CipherState}
    (h : ow.cipherstate = some st) (hf : f.Fits st) (p : List UInt8) (n : ℤ) :
    ∃ ok q st', f.run L ow p n = some (ok, ow.putCipher (some st'), q) ∧
      f.Fits st' := by
  have hself : ow = ow.putCipher (some st) := by rw [← h, OneWay.putCipher_self]
  have hstay : ∃ ok q st', some (false, ow, p) = some (ok, ow.putCipher (some st'), q) ∧
      f.Fits st' := ⟨false, p, st, by rw [← hself], hf⟩
  cases f with
  | desencrypt =>
    rcases st with ⟨key, ivec⟩ | cr
    · simp only [CipherFn.run, desencrypt, h]
      split_ifs
      · exact hstay
      · exact ⟨_, _, _, rfl, trivial⟩
    · exact hf.elim
  | desdecrypt =>
    rcases st with ⟨key, ivec⟩ | cr
    · simp only [CipherFn.run, desdecrypt, h]
      split_ifs
      · exact hstay
      · exact ⟨_, _, _, rfl, trivial⟩
    · exact hf.elim
  | rc4encrypt =>
    rcases st with ⟨key, ivec⟩ | cr
    · exact hf.elim
    · simp only [CipherFn.run, rc4encrypt, h]
      split_ifs
      · exact hstay
      · exact ⟨_, _, _, rfl, trivial⟩
  | rc4decrypt =>
    rcases st with ⟨key, ivec⟩ | cr
    · exact hf.elim
    · simp only [CipherFn.run, rc4decrypt, h]
      split_ifs
      all_goals first | exact hstay | exact ⟨_, _, _, rfl, trivial⟩

theorem OneWay.CipherReady.run {ow : OneWay} {f : CipherFn} (h : ow.CipherReady)
    (hf : ow.cipher = some f) (p : List UInt8) (n : ℤ) :
    ∃ ok q st, f.run L ow p n = some (ok, ow.putCipher st, q) ∧
      (ow.putCipher st).CipherReady := by
  have hready := h
  simp only [CipherReady, hf] at hready
  obtain ⟨⟨st, hst, hfits⟩, hlens⟩ := hready
  obtain ⟨ok, q, st', hrun, hfits'⟩ := run_cipher_fits (L := L) hst hfits p n
  refine ⟨ok, q, some st', hrun, ?_⟩
  simp only [CipherReady, putCipher, hf]
  exact ⟨⟨st', rfl, hfits'⟩, hlens⟩

theorem OneWay.CipherReady.encipher {ow : OneWay} (h : ow.CipherReady) (body : List UInt8) :
    ∃ st q, Sdp.encipher L ow body = some (ow.putCipher st, q) ∧
      (ow.putCipher st).CipherReady := by
  rcases hf : ow.cipher with _ | f
  · exact ⟨ow.cipherstate, body, by simp only [Sdp.encipher, hf, putCipher_self], h⟩
  · obtain ⟨ok, q, st, hrun, hready⟩ := h.run (L := L) hf body body.length
    exact ⟨st, q, by simp only [Sdp.encipher, hf, hrun, Option.map_some], hready⟩

theorem OneWay.AuthReady.run {ow : OneWay} {f : AuthFn} (h : ow.AuthReady) (hf : ow.auth = some f)
    (t : List UInt8) : ∃ ok q, f.run L ow t = some (ok, q) := by
  cases f
  simp only [AuthReady, hf] at h
  obtain ⟨key, hkey⟩ := Option.ne_none_iff_exists'.mp h.1
  simp only [AuthFn.run, md5auth, hkey]
  split
  · exact ⟨_, _, rfl⟩
  · exact ⟨_, _, rfl⟩

theorem nextSeq_ready {ow : OneWay} (h : ow.CipherReady ∧ ow.AuthReady) :
    ow.nextSeq.CipherReady ∧ ow.nextSeq.AuthReady := by
  unfold OneWay.nextSeq
  split
  · exact h
  · exact h

/-- A packet can be made from a direction that is ready, which it leaves ready. -/
theorem encode_ready {ow : OneWay} (h : ow.CipherReady ∧ ow.AuthReady) (type subtype : ℕ)
    (b iv : List UInt8) :
    ∃ st pkt, encode L ow type subtype b iv = some (ow.nextSeq.putCipher st, pkt) ∧
      (ow.nextSeq.putCipher st).CipherReady := by
  obtain ⟨st, body, hrun, hready⟩ :=
    (nextSeq_ready h).1.encipher (L := L) (iv ++ b ++ padding ow.nextSeq b.length)
  have hauth : (ow.nextSeq.putCipher st).AuthReady := (nextSeq_ready h).2
  simp only [encode, hrun, Option.bind_eq_bind, Option.bind_some]
  split
  · exact ⟨st, _, rfl, hready⟩
  · rename_i f hf
    obtain ⟨ok, q, hq⟩ := hauth.run (L := L) hf
      (uchar (type <<< 4 ||| subtype) :: seqBytes ow.nextSeq.seq ++ body ++
        List.replicate (ow.nextSeq.putCipher st).authlen 0)
    rw [hq]
    exact ⟨st, q, rfl, hready⟩

theorem undoAuth_ready {ow : OneWay} (h : ow.AuthReady) (b : Block) : undoAuth L ow b ≠ none := by
  rcases hf : ow.auth with _ | f
  · simp only [undoAuth, hf]
    exact Option.some_ne_none _
  · obtain ⟨ok, q, hq⟩ := h.run (L := L) hf (b.buf.take b.wp)
    simp only [undoAuth, hf, hq, Option.map_some]
    exact Option.some_ne_none _

/-- The cipher of a packet can be undone in a direction that is ready, which it leaves ready. -/
theorem undoCipher_ready {ow : OneWay} (h : ow.CipherReady) (b : Block) :
    ∃ ok st b', undoCipher L ow b = some (ok, ow.putCipher st, b') ∧
      (ow.putCipher st).CipherReady := by
  rcases hf : ow.cipher with _ | f
  · exact ⟨true, ow.cipherstate, b, by simp only [undoCipher, hf, OneWay.putCipher_self], h⟩
  · obtain ⟨ok, q, st, hrun, hready⟩ := h.run (L := L) hf b.data b.blen
    simp only [undoCipher, hf, hrun, Option.map_some]
    split_ifs
    all_goals exact ⟨_, st, _, rfl, hready⟩

/-- In a consistent conversation every function can be called. -/
theorem Conv.Consistent.callable {c : Conv} (h : c.Consistent) : c.Callable L where
  encode type subtype b iv := by
    obtain ⟨st, pkt, hrun, -⟩ := encode_ready (L := L) ⟨h.cipher.2, h.auth.2⟩ type subtype b iv
    rw [hrun]
    exact Option.some_ne_none _
  undoAuth b := undoAuth_ready h.auth.1 b
  undoCipher b := by
    obtain ⟨ok, st, b', hrun, -⟩ := undoCipher_ready (L := L) h.cipher.1 b
    rw [hrun]
    exact Option.some_ne_none _
  thwackcomp hcomp seq b := by
    obtain ⟨⟨ut, hut⟩, tw, htw⟩ := h.comp (.inr hcomp)
    simp only [Sdp.thwackcomp, hut, htw]
    split <;> exact Option.some_ne_none _
  thwackuncomp hcomp := h.comp (.inl hcomp)

/-! ### Routines that keep the directions consistent -/

/-- The fields of a direction that belong to its algorithms. -/
def OneWay.algs (ow : OneWay) :=
  (ow.cipher, ow.cipherblklen, ow.cipherivlen, ow.cipherstate, ow.auth, ow.authlen, ow.authstate,
    ow.comp, ow.compstate)

/-- The fields of a conversation that belong to its algorithms. -/
def Conv.algs (c : Conv) := (c.cipher, c.auth, c.inp.algs, c.out.algs)

theorem Conv.Switched.congr {c c' : Conv} (h : c.Switched) (hc : c'.algs = c.algs) :
    c'.Switched := by
  simp only [Conv.algs, OneWay.algs, Prod.mk.injEq] at hc
  obtain ⟨h1, h2, ⟨i1, i2, i3, i4, i5, i6, i7, i8, i9⟩, o1, o2, o3, o4, o5, o6, o7, o8, o9⟩ := hc
  obtain ⟨⟨hcipher, hauth, hcomp⟩, hnc, hna⟩ := h
  constructor
  · constructor
    · simpa only [OneWay.CipherReady, i1, i2, i3, i4, o1, o2, o3, o4] using hcipher
    · simpa only [OneWay.AuthReady, i5, i6, i7, o5, o6, o7] using hauth
    · simpa only [Conv.CompReady, i8, i9, o8, o9] using hcomp
  · simpa only [h1, o1] using hnc
  · simpa only [h2, o5] using hna

/-- A routine keeps the directions consistent. -/
abbrev KeepsAlgs {α : Type} (m : ConvM α) : Prop := Maintains (fun w => w.conv.Switched) m

theorem keepsAlgs_getConv : KeepsAlgs getConv := .bind .get fun _ => .pure _

theorem keepsAlgs_setConv {f : Conv → Conv} (hf : ∀ c, c.Switched → (f c).Switched) :
    KeepsAlgs (setConv f) := .modify fun w h => hf w.conv h

theorem keepsAlgs_setConv_of_algs {f : Conv → Conv} (hf : ∀ c, (f c).algs = c.algs) :
    KeepsAlgs (setConv f) := keepsAlgs_setConv fun c h => h.congr (hf c)

theorem keepsAlgs_count {f : Stats → Stats} : KeepsAlgs (count f) :=
  keepsAlgs_setConv_of_algs fun _ => rfl

theorem switched_cleared (c : Conv) : (cleared c).Switched where
  cipher := ⟨⟨rfl, rfl⟩, rfl, rfl⟩
  auth := ⟨rfl, rfl⟩
  comp h := by simp [cleared] at h
  nullCipher _ := rfl
  nullAuth _ := rfl

theorem keepsAlgs_convderef : KeepsAlgs convderef := by
  refine .bind (keepsAlgs_setConv_of_algs fun _ => rfl) fun _ =>
    .bind keepsAlgs_getConv fun c => .ite (fun _ => .pure _) fun _ => ?_
  refine .bind (.assert _ _) fun _ => .bind (.assert _ _) fun _ => .bind (.assert _ _) fun _ => ?_
  exact keepsAlgs_setConv fun c _ => switched_cleared c

theorem keepsAlgs_convclose : KeepsAlgs convclose := by
  refine .bind keepsAlgs_getConv fun c => .ite (fun _ => .bind keepsAlgs_convderef fun _ => ?_)
    fun _ => ?_
  all_goals exact keepsAlgs_setConv_of_algs fun _ => rfl

theorem keepsAlgs_convwriteblock {b : List UInt8} : KeepsAlgs (convwriteblock env b) := by
  refine .bind .get fun w => .bind (.modify fun _ h => h) fun _ => .ite (fun _ => .pure _)
    fun _ => .bind (.assert _ _) fun _ => .ite (fun _ => ?_) fun _ => .modify fun _ h => h
  exact .bind keepsAlgs_convclose fun _ => .bind (.error _) fun _ => .modify fun _ h => h

theorem keepsAlgs_convoconnect {op dialid acceptid : ℕ} :
    KeepsAlgs (convoconnect env op dialid acceptid) := by
  refine .bind (keepsAlgs_setConv_of_algs fun _ => rfl) fun _ => .bind keepsAlgs_getConv fun c =>
    .bind (.assert _ _) fun _ => ?_
  exact .waserror keepsAlgs_convwriteblock fun _ => .pure _

theorem keepsAlgs_conreset {dialid acceptid : ℕ} : KeepsAlgs (conreset env dialid acceptid) :=
  .bind keepsAlgs_convoconnect fun _ => keepsAlgs_convclose

theorem keepsAlgs_convretryinit : KeepsAlgs (convretryinit env) :=
  keepsAlgs_setConv_of_algs fun _ => rfl

theorem switched_encode {c : Conv} (h : c.Switched) (type subtype : ℕ) (b iv : List UInt8) :
    ∃ ow pkt, encode L c.out type subtype b iv = some (ow, pkt) ∧
      { c with out := ow }.Switched := by
  obtain ⟨st, pkt, hrun, hready⟩ :=
    encode_ready (L := L) ⟨h.cipher.2, h.auth.2⟩ type subtype b iv
  refine ⟨_, pkt, hrun, ?_⟩
  have hnext : c.out.nextSeq.auth = c.out.auth ∧ c.out.nextSeq.cipher = c.out.cipher ∧
      c.out.nextSeq.comp = c.out.comp ∧ c.out.nextSeq.compstate = c.out.compstate := by
    unfold OneWay.nextSeq
    split <;> exact ⟨rfl, rfl, rfl, rfl⟩
  obtain ⟨ha, hc, hcomp, hcs⟩ := hnext
  constructor
  · constructor
    · exact ⟨h.cipher.1, hready⟩
    · exact ⟨h.auth.1, (nextSeq_ready ⟨h.cipher.2, h.auth.2⟩).2⟩
    · intro hne
      obtain ⟨hut, tw, htw⟩ := h.comp (hne.imp id fun ho => by rwa [← hcomp])
      exact ⟨hut, tw, hcs.trans htw⟩
  · intro hn
    exact hc.trans (h.nullCipher hn)
  · intro hn
    exact ha.trans (h.nullAuth hn)

theorem keepsAlgs_convoput {type subtype : ℕ} {b : List UInt8} :
    KeepsAlgs (convoput L env type subtype b) := by
  refine .bind (.modify fun _ h => h) fun _ => .bind (keepsAlgs_setConv_of_algs fun _ => rfl)
    fun _ => ?_
  intro w h
  rw [wp_bind, wp_getConv]
  obtain ⟨ow, pkt, hrun, hsw⟩ :=
    switched_encode (L := L) h type subtype b (List.replicate w.conv.out.cipherivlen 0)
  rw [hrun]
  exact keepsAlgs_convwriteblock (w.map fun c => { c with out := ow }) hsw

theorem keepsAlgs_convack : KeepsAlgs (convack L env) :=
  .bind keepsAlgs_getConv fun _ => keepsAlgs_convoput

theorem switched_md5authinit {c : Conv} (h : c.Switched) :
    (setauth L .hmac_md5_96 c).Switched where
  cipher := h.cipher
  auth := ⟨⟨Option.some_ne_none _, rfl⟩, Option.some_ne_none _, rfl⟩
  comp := h.comp
  nullCipher := h.nullCipher
  nullAuth hn := absurd rfl hn

theorem keepsAlgs_convsetstate {s : ConvState} : KeepsAlgs (convsetstate L env s) := by
  have hset {f : Conv → Conv} (hf : ∀ c, (f c).algs = c.algs) : KeepsAlgs (setConv f) :=
    keepsAlgs_setConv_of_algs hf
  unfold convsetstate
  refine .bind keepsAlgs_getConv fun c => ?_
  cases s with
  | cFree | cInit => exact .panic _
  | cDial | cAccept =>
      exact .bind (.assert _ _) fun _ => .bind (hset fun _ => rfl) fun _ =>
        .bind keepsAlgs_convretryinit fun _ => .bind keepsAlgs_convoconnect fun _ =>
          hset fun _ => rfl
  | cOpen =>
      refine .bind (.assert _ _) fun _ => .bind (hset fun _ => rfl) fun _ =>
        .ite (fun _ => .bind keepsAlgs_convretryinit fun _ => .bind keepsAlgs_convoconnect
          fun _ => ?_) fun _ => ?_
      all_goals
        exact .bind (hset fun _ => rfl) fun _ =>
          .bind (keepsAlgs_setConv fun _ => switched_md5authinit) fun _ => hset fun _ => rfl
  | cLocalClose =>
      exact .bind (.assert _ _) fun _ => .bind keepsAlgs_convretryinit fun _ =>
        .bind keepsAlgs_convoconnect fun _ => hset fun _ => rfl
  | cRemoteClose => exact hset fun _ => rfl
  | cClosed => exact keepsAlgs_convclose

theorem keepsAlgs_conviconnect {subtype : ℕ} {b : Block} :
    KeepsAlgs (conviconnect L env subtype b) := by
  have hset {f : Conv → Conv} (hf : ∀ c, (f c).algs = c.algs) : KeepsAlgs (setConv f) :=
    keepsAlgs_setConv_of_algs hf
  unfold conviconnect conviconnectIds
  refine .ite (fun _ => .pure ()) fun _ => .ite (fun _ => keepsAlgs_convclose) fun _ =>
    .bind keepsAlgs_getConv fun c => .ite (fun _ => .panic _) fun _ =>
      .ite (fun _ => keepsAlgs_conreset) fun _ => .ite (fun _ => ?_) fun _ => .ite (fun _ => ?_)
        fun _ => .ite (fun _ => ?_) fun _ => .ite (fun _ => ?_) fun _ => .ite (fun _ => ?_)
          fun _ => keepsAlgs_conreset
  · cases c.state with
    | cInit => exact .bind (hset fun _ => rfl) fun _ => keepsAlgs_convsetstate
    | cAccept | cOpen => exact .pure ()
    | _ => exact keepsAlgs_conreset
  · cases c.state with
    | cDial => exact .bind (hset fun _ => rfl) fun _ => keepsAlgs_convsetstate
    | cOpen => exact keepsAlgs_convoconnect
    | _ => exact keepsAlgs_conreset
  · cases c.state with
    | cAccept => exact keepsAlgs_convsetstate
    | cOpen | cLocalClose | cRemoteClose => exact .pure ()
    | _ => exact keepsAlgs_conreset
  · cases c.state with
    | cOpen => exact .bind keepsAlgs_convoconnect fun _ => keepsAlgs_convsetstate
    | cRemoteClose => exact keepsAlgs_convoconnect
    | _ => exact keepsAlgs_conreset
  · cases c.state with
    | cLocalClose => exact keepsAlgs_convclose
    | _ => exact keepsAlgs_conreset

theorem keepsAlgs_convicontrol {subtype : ℕ} {b : Block} :
    KeepsAlgs (convicontrol L env subtype b) := by
  have hset {f : Conv → Conv} (hf : ∀ c, (f c).algs = c.algs) : KeepsAlgs (setConv f) :=
    keepsAlgs_setConv_of_algs hf
  unfold convicontrol
  refine .ite (fun _ => .pure ()) fun _ => .bind keepsAlgs_getConv fun c => ?_
  refine .ite (fun _ => .ite (fun _ => .ite (fun _ => keepsAlgs_convack) fun _ => .pure ())
    fun _ => .ite (fun _ => .pure ()) fun _ => ?_) fun _ => .ite (fun _ => .ite (fun _ => .pure ())
      fun _ => .ite (fun _ => .pure ()) fun _ => hset fun _ => rfl) fun _ => .pure ()
  refine .bind (hset fun _ => rfl) fun _ => .ite (fun _ => keepsAlgs_convack) fun _ => ?_
  exact .bind (hset fun _ => rfl) fun _ => .modify fun _ h => h

theorem switched_thwackuncomp {c c' : Conv} {subtype seq : ℕ} {b : Block} {r : Option Block}
    (h : c.Switched) (hu : thwackuncomp c subtype seq b = some (c', r)) : c'.Switched := by
  have hput {ci co : Option CompState} (hready : (∃ ut, ci = some (.unthwack ut)) ∧
      ∃ tw, co = some (.thwack tw)) : Conv.Switched { c with
        inp := { c.inp with compstate := ci }, out := { c.out with compstate := co } } :=
    ⟨⟨h.cipher, h.auth, fun _ => hready⟩, h.nullCipher, h.nullAuth⟩
  unfold thwackuncomp at hu
  split_ifs at hu
  · split at hu
    · rename_i tw ho
      obtain ⟨rfl, -⟩ := Option.some.inj hu |> Prod.mk.inj
      refine ⟨⟨h.cipher, h.auth, fun hne => ?_⟩, h.nullCipher, h.nullAuth⟩
      exact ⟨(h.comp hne).1, _, rfl⟩
    · simp at hu
  · split at hu
    · rename_i ut tw hi ho
      dsimp only at hu
      split at hu
      · obtain ⟨rfl, -⟩ := Option.some.inj hu |> Prod.mk.inj
        exact hput ⟨⟨_, rfl⟩, _, rfl⟩
      · simp at hu
      · obtain ⟨rfl, -⟩ := Option.some.inj hu |> Prod.mk.inj
        exact ⟨⟨h.cipher, h.auth, fun _ => ⟨⟨_, rfl⟩, tw, ho⟩⟩, h.nullCipher, h.nullAuth⟩
    · simp at hu
  · obtain ⟨rfl, -⟩ := Option.some.inj hu |> Prod.mk.inj
    exact h

theorem keepsAlgs_convicomp {subtype seq : ℕ} {b : Block} :
    KeepsAlgs (convicomp subtype seq b) := by
  intro w h
  unfold wp
  rw [convicomp_apply]
  cases w.conv.inp.comp with
  | none => exact h
  | some f =>
    cases hu : thwackuncomp w.conv subtype seq b with
    | none => exact h
    | some r => exact switched_thwackuncomp h hu

theorem keepsAlgs_conviputGood {type subtype seq : ℕ} {control : Bool} {b : Block} :
    KeepsAlgs (conviputGood L env type subtype seq control b) := by
  unfold conviputGood
  refine .ite (fun _ => .bind keepsAlgs_convicontrol fun _ => .pure none) fun _ =>
    .ite (fun _ => ?_) fun _ => .ite (fun _ => ?_) fun _ =>
      .bind keepsAlgs_count fun _ => .pure none
  · exact .bind keepsAlgs_count fun _ => .ite (fun _ => .bind keepsAlgs_count fun _ => .pure none)
      fun _ => .pure _
  · refine .bind keepsAlgs_count fun _ => .bind keepsAlgs_convicomp fun r => ?_
    cases r with
    | none => exact .bind keepsAlgs_count fun _ => .pure none
    | some b =>
      exact .bind keepsAlgs_count fun _ =>
        .ite (fun _ => .bind keepsAlgs_count fun _ => .pure none) fun _ => .pure _

theorem accept_algs (ow : OneWay) (missing seq seqwrap : ℕ) (seqdiff : ℤ) :
    (accept ow missing seq seqwrap seqdiff).1.algs = ow.algs := by
  unfold accept
  split <;> rfl

theorem keepsAlgs_conviputAuth {type subtype seq seqwrap : ℕ} {seqdiff : ℤ} {control : Bool}
    {b : Block} : KeepsAlgs (conviputAuth L env type subtype seq seqwrap seqdiff control b) := by
  intro w h
  have hput {st : Option CipherState} (hst : (w.conv.inp.putCipher st).CipherReady) :
      { w.conv with inp := w.conv.inp.putCipher st }.Switched :=
    ⟨⟨⟨hst, h.cipher.2⟩, h.auth, h.comp⟩, h.nullCipher, h.nullAuth⟩
  unfold conviputAuth
  rw [wp_bind, wp_getConv]
  rcases undoAuth L w.conv.inp b with _ | ⟨_ | _, b'⟩
  · exact h
  · exact Maintains.bind keepsAlgs_count (fun _ => .pure none) w h
  · obtain ⟨ok, st, b'', hrun, hst⟩ := undoCipher_ready (L := L) h.cipher.1 b'
    dsimp only
    rw [hrun]
    cases ok with
    | false =>
      dsimp only
      rw [wp_bind, wp_setConv]
      exact Maintains.bind keepsAlgs_count (fun _ => .pure none)
        (w.map fun c => { c with inp := w.conv.inp.putCipher st }) (hput hst)
    | true =>
      refine keepsAlgs_conviputGood (w.map _) ((hput hst).congr ?_)
      simp only [Conv.algs, World.conv_map, accept_algs]

theorem keepsAlgs_conviputSeq {type subtype : ℕ} {control : Bool} {b : Block} :
    KeepsAlgs (conviputSeq L env type subtype control b) := by
  refine .bind keepsAlgs_getConv fun c => ?_
  dsimp only
  split
  · exact .bind keepsAlgs_count fun _ => .pure none
  · exact .bind keepsAlgs_count fun _ => .pure none
  · exact .bind keepsAlgs_count fun _ => keepsAlgs_conviputAuth
  · exact keepsAlgs_conviputAuth

theorem keepsAlgs_conviput {pkt : List UInt8} {control : Bool} :
    KeepsAlgs (conviput L env pkt control) := by
  refine .bind keepsAlgs_count fun _ =>
    .ite (fun _ => .bind keepsAlgs_count fun _ => .pure none) fun _ =>
      .ite (fun _ => .bind keepsAlgs_conviconnect fun _ => .pure none) fun _ =>
        .bind keepsAlgs_getConv fun c => ?_
  cases c.state with
  | cInit | cDial =>
    exact .bind keepsAlgs_count fun _ => .bind keepsAlgs_conreset fun _ => keepsAlgs_conviputSeq
  | cAccept | cRemoteClose | cLocalClose => exact .bind keepsAlgs_count fun _ => .pure none
  | cOpen | cClosed | cFree => exact keepsAlgs_conviputSeq

theorem switched_thwackcomp {c c' : Conv} {seq subtype : ℕ} {b bb : List UInt8} (h : c.Switched)
    (ht : thwackcomp c seq b = some (c', subtype, bb)) : c'.Switched := by
  unfold thwackcomp at ht
  split at ht
  · rename_i ut tw hi ho
    dsimp only at ht
    split at ht
    all_goals
      obtain ⟨rfl, -⟩ := Option.some.inj ht |> Prod.mk.inj
      exact ⟨⟨h.cipher, h.auth, fun _ => ⟨⟨ut, hi⟩, _, rfl⟩⟩, h.nullCipher, h.nullAuth⟩
  · simp at ht

theorem keepsAlgs_writedata {b : List UInt8} : KeepsAlgs (writedata L env b) := by
  refine .bind keepsAlgs_getConv fun c => .ite (fun _ => .bind (.error _) fun _ => ?_) fun _ => ?_
  all_goals
    refine .bind keepsAlgs_count fun _ => ?_
    split
    · exact .bind keepsAlgs_convoput fun _ => .pure _
    · intro w h
      rw [wp_bind, wp_getConv]
      split
      · exact h
      · rename_i c subtype bb ht
        rw [wp_bind, wp_setConv]
        exact Maintains.bind keepsAlgs_count (fun _ => .bind keepsAlgs_convoput fun _ => .pure _)
          (w.map fun _ => c) (switched_thwackcomp h ht)

/-! ### Setting up algorithms -/

/-- A cipher set up leaves a consistent conversation, unless it is the null one and a cipher is in
use outbound. -/
theorem switched_cipher_init {c : Conv} (h : c.Switched) {a : Cipheralg}
    (ha : a = .null → c.out.cipher = none) :
    ((a.init L env.ivec { c with cipher := some a }) : Conv).Switched := by
  cases a with
  | null =>
    exact ⟨⟨⟨⟨rfl, rfl⟩, by simp [Cipheralg.init, nullcipherinit, cipherfree, OneWay.CipherReady,
      ha rfl]⟩, h.auth, h.comp⟩, fun _ => ha rfl, h.nullAuth⟩
  | des_56_cbc =>
    exact ⟨⟨⟨⟨⟨_, rfl, trivial⟩, rfl⟩, ⟨_, rfl, trivial⟩, rfl⟩, h.auth, h.comp⟩,
      fun hn => by simp [Cipheralg.init, descipherinit, cipherfree] at hn, h.nullAuth⟩
  | rc4_128 | rc4_256 =>
    exact ⟨⟨⟨⟨⟨_, rfl, trivial⟩, rfl⟩, ⟨_, rfl, trivial⟩, rfl⟩, h.auth, h.comp⟩,
      fun hn => by simp [Cipheralg.init, rc4cipherinit, cipherfree] at hn, h.nullAuth⟩

theorem switched_auth_init {c : Conv} (h : c.Switched) {a : Authalg}
    (ha : a ≠ .hmac_md5_96 → c.out.auth = none) :
    ((a.init L { c with auth := some a }) : Conv).Switched := by
  cases a with
  | null =>
    have ho := ha (by decide)
    exact ⟨⟨h.cipher, ⟨rfl, by simp [Authalg.init, nullauthinit, authfree, OneWay.AuthReady, ho]⟩,
      h.comp⟩, h.nullCipher, fun _ => ho⟩
  | hmac_sha1_96 =>
    have ho := ha (by decide)
    exact ⟨⟨h.cipher, ⟨rfl, by simp [Authalg.init, shaauthinit, authfree, OneWay.AuthReady, ho]⟩,
      h.comp⟩, h.nullCipher, fun _ => ho⟩
  | hmac_md5_96 => exact switched_md5authinit h

theorem switched_reauth {c : Conv} (h : c.Switched) : Conv.Switched (match c.auth with
    | some a => a.init L c
    | none => c) := by
  split
  · rename_i a ha
    have hc : c = { c with auth := some a } := by rw [← ha]
    rw [hc]
    exact switched_auth_init h fun hne => h.nullAuth (by simpa [ha] using hne)
  · exact h

theorem switched_reinit {c : Conv} (h : c.Switched) : (reinit L env c).Switched := by
  refine switched_reauth ?_
  split
  · rename_i a ha
    have hc : c = { c with cipher := some a } := by rw [← ha]
    rw [hc]
    exact switched_cipher_init h fun hn => h.nullCipher (.inr (by rw [ha, hn]))
  · exact h

/-- A compressor that there is nothing of: the null one, or one that there is no memory for. -/
def Compalg.Missing (env : Env) (a : Compalg) : Prop :=
  a = .null ∨ env.nomem 0 = true ∨ env.nomem 1 = true

/-- The fields of a direction that belong to its cipher and its authenticator. -/
def OneWay.sealAlgs (ow : OneWay) :=
  (ow.cipher, ow.cipherblklen, ow.cipherivlen, ow.cipherstate, ow.auth, ow.authlen, ow.authstate)

/-- A change of the compressors alone keeps a conversation consistent if they have their states. -/
theorem consistent_iff_comp {c c' : Conv} (h : c.Consistent)
    (hi : c'.inp.sealAlgs = c.inp.sealAlgs) (ho : c'.out.sealAlgs = c.out.sealAlgs) :
    c'.Consistent ↔ (c'.inp.comp ≠ none ∨ c'.out.comp ≠ none → c'.CompReady) := by
  simp only [OneWay.sealAlgs, Prod.mk.injEq] at hi ho
  obtain ⟨i1, i2, i3, i4, i5, i6, i7⟩ := hi
  obtain ⟨o1, o2, o3, o4, o5, o6, o7⟩ := ho
  refine ⟨fun hc => hc.comp, fun hcomp => ⟨?_, ?_, hcomp⟩⟩
  · simpa only [OneWay.CipherReady, i1, i2, i3, i4, o1, o2, o3, o4] using h.cipher
  · simpa only [OneWay.AuthReady, i5, i6, i7, o5, o6, o7] using h.auth

/-- Without a compressor outbound there may be a function left there. -/
theorem consistent_without_comp {c c' : Conv} (h : c.Consistent)
    (hi : c'.inp.sealAlgs = c.inp.sealAlgs) (ho : c'.out.sealAlgs = c.out.sealAlgs)
    (hin : c'.inp.comp = none) (hcs : c'.out.compstate = none) (hout : c'.out.comp = c.out.comp) :
    c'.Consistent ↔ c.out.comp = none := by
  rw [consistent_iff_comp h hi ho, hin, hout]
  constructor
  · intro hready
    by_contra hne
    obtain ⟨-, tw, htw⟩ := hready (.inr hne)
    rw [hcs] at htw
    exact Option.some_ne_none _ htw.symm
  · intro hnone hne
    exact (hne.elim (fun hn => hn rfl) fun hn => hn hnone).elim

theorem wp_setcomp {a : Compalg} {w : World} (h : w.conv.Consistent) :
    (setcomp env a).wp (fun _ w' => w'.conv.Consistent ↔ (a.Missing env → w.conv.out.comp = none))
      (fun _ w' => w'.conv.Consistent ↔ (a.Missing env → w.conv.out.comp = none)) w := by
  have hmissing {c' : Conv} (hm : a.Missing env) (hc : c'.Consistent ↔ w.conv.out.comp = none) :
      c'.Consistent ↔ (a.Missing env → w.conv.out.comp = none) :=
    hc.trans ⟨fun hn _ => hn, fun hn => hn hm⟩
  cases a with
  | null => exact hmissing (.inl rfl) (consistent_without_comp h rfl rfl rfl rfl rfl)
  | thwack =>
    simp only [setcomp, thwackcompinit, wp_bind, wp_setConv, wp_ite, wp_error]
    split
    · rename_i h0
      exact hmissing (.inr (.inl h0)) (consistent_without_comp h rfl rfl rfl rfl rfl)
    · rename_i h0
      split
      · rename_i h1
        exact hmissing (.inr (.inr h1)) (consistent_without_comp h rfl rfl rfl rfl rfl)
      · rename_i h1
        have hm : ¬ Compalg.thwack.Missing env := by simp [Compalg.Missing, h0, h1]
        refine ⟨fun _ hm' => absurd hm' hm, fun _ => ?_⟩
        refine (consistent_iff_comp h ?_ ?_).mpr fun _ =>
          ⟨⟨Thw.unthwackinit, ?_⟩, Thw.thwackinit, ?_⟩
        all_goals rfl

/-- The names of the cipher and the authenticator in use, and their outbound functions. -/
def Conv.nulls (c : Conv) := (c.cipher, c.auth, c.out.cipher, c.out.auth)

theorem leaves_setcomp {a : Compalg} : Leaves (fun w => w.conv.nulls) (setcomp env a) := by
  have hset {f : Conv → Conv} (hf : ∀ c, (f c).nulls = c.nulls) :
      Leaves (fun w => w.conv.nulls) (setConv f) := .modify fun w => hf w.conv
  refine .bind (hset fun _ => rfl) fun _ => ?_
  cases a with
  | null => exact hset fun _ => rfl
  | thwack =>
    refine .bind (hset fun _ => rfl) fun _ =>
      .ite (fun _ => .bind (.error _) fun _ => ?_) fun _ => ?_
    all_goals
      refine .bind (hset fun _ => rfl) fun _ =>
        .ite (fun _ => .bind (.error _) fun _ => ?_) fun _ => ?_
    all_goals exact hset fun _ => rfl

theorem Conv.Switched.of_nulls {c c' : Conv} (h : c.Switched) (hc : c'.Consistent)
    (hn : c'.nulls = c.nulls) : c'.Switched := by
  simp only [Conv.nulls, Prod.mk.injEq] at hn
  obtain ⟨h1, h2, h3, h4⟩ := hn
  refine ⟨hc, ?_, ?_⟩
  · simpa only [h1, h3] using h.nullCipher
  · simpa only [h2, h4] using h.nullAuth

/-! ### Runs -/

/-- What happens to a conversation: requests, packets sent, data written, packets read. -/
inductive Switch where
  | ctl (req : CtlReq) (arg : String)
  | put (type subtype : ℕ) (b : List UInt8)
  | data (b : List UInt8)
  | input (pkt : List UInt8) (control : Bool)

/-- The routine that an event calls. -/
def Switch.run (L : Libsec) (env : Env) : Switch → ConvM Unit
  | .ctl req arg => req.run L env arg
  | .put type subtype b => convoput L env type subtype b
  | .data b => do let _ ← writedata L env b
  | .input pkt control => do let _ ← conviput L env pkt control

/-- The conversation after an event. -/
def Switches (L : Libsec) (c : Conv) (e : Env × Switch) (c' : Conv) : Prop :=
  c' = (e.2.run L e.1 { conv := c }).2.conv

/-- A null algorithm, or one that there is nothing of, takes the place of one in use outbound. -/
def Strands (c : Conv) (e : Env × Switch) : Prop :=
  match e.2 with
  | .ctl .cipher arg => Cipheralg.lookup arg = some .null ∧ c.out.cipher ≠ none
  | .ctl .auth arg =>
      (Authalg.lookup arg = some .null ∨ Authalg.lookup arg = some .hmac_sha1_96) ∧
        c.out.auth ≠ none
  | .ctl .comp arg => (∃ a, Compalg.lookup arg = some a ∧ a.Missing e.1) ∧ c.out.comp ≠ none
  | _ => False

theorem keepsAlgs_convopenchan {path : String} : KeepsAlgs (convopenchan env path) := by
  intro w h
  rw [wp_convopenchan]
  split_ifs
  · exact h
  · exact h
  all_goals exact h.congr rfl

theorem not_consistent_cipherfree {c : Conv} (hc : c.out.cipher ≠ none) :
    ¬ (cipherfree c).Consistent := by
  intro h
  obtain ⟨f, hf⟩ := Option.ne_none_iff_exists'.mp hc
  have hready := h.cipher.2
  simp [cipherfree, OneWay.CipherReady, hf] at hready

theorem not_consistent_authfree {c : Conv} (hc : c.out.auth ≠ none) :
    ¬ (authfree c).Consistent := by
  intro h
  obtain ⟨f, hf⟩ := Option.ne_none_iff_exists'.mp hc
  have hready := h.auth.2
  cases f
  simp [authfree, OneWay.AuthReady, hf] at hready

/-- What an event makes of a consistent conversation. -/
def Settles (c : Conv) (e : Env × Switch) (c' : Conv) : Prop :=
  (Strands c e → ¬ c'.Consistent) ∧ (¬ Strands c e → c'.Switched)

theorem switched_ctl_cipher {c : Conv} (h : c.Switched) (arg : String) :
    Settles c (env, .ctl .cipher arg) ((CtlReq.cipher.run L env arg { conv := c }).2.conv) := by
  simp only [CtlReq.run]
  cases ha : Cipheralg.lookup arg with
  | none => exact ⟨fun hs => by simp [Strands, ha] at hs, fun _ => h⟩
  | some a =>
    refine ⟨fun hs => ?_, fun hs => switched_cipher_init h fun hn => ?_⟩
    · obtain ⟨hnull, hne⟩ := hs
      obtain rfl := Option.some.inj (ha.symm.trans hnull)
      exact not_consistent_cipherfree (c := { c with cipher := some .null }) hne
    · by_contra hne
      exact hs ⟨ha.trans (congrArg some hn), hne⟩

theorem switched_ctl_auth {c : Conv} (h : c.Switched) (arg : String) :
    Settles c (env, .ctl .auth arg) ((CtlReq.auth.run L env arg { conv := c }).2.conv) := by
  simp only [CtlReq.run]
  cases ha : Authalg.lookup arg with
  | none => exact ⟨fun hs => by simp [Strands, ha] at hs, fun _ => h⟩
  | some a =>
    refine ⟨fun hs => ?_, fun hs => switched_auth_init h fun hn => ?_⟩
    · obtain ⟨hnull | hsha, hne⟩ := hs
      · obtain rfl := Option.some.inj (ha.symm.trans hnull)
        exact not_consistent_authfree (c := { c with auth := some .null }) hne
      · obtain rfl := Option.some.inj (ha.symm.trans hsha)
        exact not_consistent_authfree (c := { c with auth := some .hmac_sha1_96 }) hne
    · by_contra hne
      refine hs ⟨?_, hne⟩
      cases a with
      | null => exact .inl ha
      | hmac_sha1_96 => exact .inr ha
      | hmac_md5_96 => exact absurd rfl hn

theorem switched_ctl_comp {c : Conv} (h : c.Switched) (arg : String) :
    Settles c (env, .ctl .comp arg) ((CtlReq.comp.run L env arg { conv := c }).2.conv) := by
  simp only [CtlReq.run]
  cases ha : Compalg.lookup arg with
  | none => exact ⟨fun hs => by simp [Strands, ha] at hs, fun _ => h⟩
  | some a =>
    have hiff : (setcomp env a { conv := c }).2.conv.Consistent ↔
        (a.Missing env → c.out.comp = none) :=
          wp_snd (wp_setcomp (w := { conv := c }) h.toConsistent)
    have hnulls : (setcomp env a { conv := c }).2.conv.nulls = c.nulls :=
      wp_snd (leaves_setcomp.wp_self { conv := c })
    refine ⟨fun hs hc => ?_, fun hs => h.of_nulls (hiff.mpr fun hm => ?_) hnulls⟩
    · obtain ⟨⟨a', ha', hm⟩, hne⟩ := hs
      obtain rfl := Option.some.inj (ha.symm.trans ha')
      exact hne (hiff.mp hc hm)
    · by_contra hne
      exact hs ⟨⟨a, ha, hm⟩, hne⟩

theorem switched_ctl_secret {c : Conv} (h : c.Switched) {req : CtlReq} (arg : String)
    (hreq : req = .insecret ∨ req = .outsecret) :
    (req.run L env arg { conv := c }).2.conv.Switched := by
  have hrest (ok : Bool) : KeepsAlgs (do
      if ok = false then error "bad character in secret"
      setConv (reinit L env) : ConvM Unit) := by
    refine .ite (fun _ => .bind (.error _) fun _ => ?_) fun _ => ?_
    all_goals exact keepsAlgs_setConv fun _ => switched_reinit
  refine wp_snd (P := fun w : World => w.conv.Switched) ?_
  rcases hreq with rfl | rfl
  all_goals
    simp only [CtlReq.run, setsecret]
    rw [wp_bind, wp_getConv, wp_bind, wp_setConv]
    exact hrest _ _ (h.congr rfl)

theorem keepsAlgs_dial {arg : String} : KeepsAlgs (CtlReq.dial.run L env arg) :=
  .bind keepsAlgs_convopenchan fun _ => keepsAlgs_convsetstate

/-- What one event does: a request that strands an outbound function breaks the consistency of the
directions, and any other event keeps it. -/
theorem switched_step {c c' : Conv} {e : Env × Switch} (h : c.Switched)
    (hstep : Switches L c e c') : Settles c e c' := by
  obtain ⟨env, ev⟩ := e
  obtain rfl := hstep
  have hkeep (hn : ¬ Strands c (env, ev)) (hm : KeepsAlgs (ev.run L env)) :
      Settles c (env, ev) (ev.run L env { conv := c }).2.conv :=
    ⟨fun hs => absurd hs hn, fun _ => wp_snd (hm { conv := c } h)⟩
  cases ev with
  | put type subtype b => exact hkeep id keepsAlgs_convoput
  | data b => exact hkeep id (.bind keepsAlgs_writedata fun _ => .pure _)
  | input pkt control => exact hkeep id (.bind keepsAlgs_conviput fun _ => .pure _)
  | ctl req arg =>
    cases req with
    | cipher => exact switched_ctl_cipher h arg
    | auth => exact switched_ctl_auth h arg
    | comp => exact switched_ctl_comp (L := L) h arg
    | accept => exact hkeep id keepsAlgs_convopenchan
    | dial => exact hkeep id keepsAlgs_dial
    | drop => exact hkeep id (keepsAlgs_setConv_of_algs fun _ => rfl)
    | insecret => exact ⟨fun hs => hs.elim, fun _ => switched_ctl_secret h arg (.inl rfl)⟩
    | outsecret => exact ⟨fun hs => hs.elim, fun _ => switched_ctl_secret h arg (.inr rfl)⟩

theorem switched_of_run {c₀ c : Conv} (h₀ : c₀.Switched)
    (h : Run (Switches L) (fun c e => ¬ Strands c e) c₀ c) : c.Switched := by
  refine h.invariant h₀ fun c e c' hc hn hstep => ?_
  exact (switched_step hc hstep).2 hn

/-- A conversation as `sdpclone` sets it up, a new one or one used before, is consistent. -/
theorem switched_cloned {c : Conv} (user : String) (hc : c = {} ∨ ∃ c', c = cleared c') :
    (cloned user c).Switched := by
  rcases hc with rfl | ⟨c', rfl⟩
  · exact (switched_cleared {}).congr rfl
  · exact (switched_cleared c').congr rfl

/-- In every run in which no request strands an outbound function, the directions are consistent
and no function is called without its state. A request breaks this if and only if it strands one. -/
theorem consistent_of_run {c₀ c : Conv} {user : String}
    (h₀ : c₀ = {} ∨ ∃ c', c₀ = cleared c')
    (h : Run (Switches L) (fun c e => ¬ Strands c e) (cloned user c₀) c) :
    c.Consistent ∧ c.Callable L ∧
      ∀ e c', Switches L c e c' → (c'.Consistent ↔ ¬ Strands c e) := by
  have hc := switched_of_run (switched_cloned user h₀) h
  refine ⟨hc.toConsistent, hc.toConsistent.callable, fun e c' hstep => ?_⟩
  have hstep' := switched_step hc hstep
  exact ⟨fun hcons hs => hstep'.1 hs hcons, fun hs => (hstep'.2 hs).toConsistent⟩

theorem consistent_of_run_des :
    let c := setcipher Libsec.null {} .des_56_cbc (cloned "u" {})
    c.Consistent ∧ c.Callable Libsec.null ∧
      ∀ e c', Switches Libsec.null c e c' → (c'.Consistent ↔ ¬ Strands c e) :=
  consistent_of_run (.inl rfl)
    (.snoc .nil (e := ({}, .ctl .cipher "des_56_cbc")) (fun hs => absurd hs.1 (by decide)) rfl)

/-- A conversation is given a cipher and then the null one. The outbound cipher is still called,
and has no state. -/
theorem not_consistent_des_null :
    ∃ c, Run (Switches Libsec.null) (fun _ _ => True) (cloned "u" {}) c ∧
      ¬ c.Consistent ∧ encode Libsec.null c.out TData 0 (List.replicate 8 0x41) [] = none := by
  refine ⟨_, .snoc (.snoc .nil (e := ({}, .ctl .cipher "des_56_cbc")) trivial rfl)
    (e := ({}, .ctl .cipher "null")) trivial rfl, ?_, rfl⟩
  exact not_consistent_cipherfree (by decide)

end PlanNine.Sdp
