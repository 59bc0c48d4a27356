import PlanNine.Port.Tls.Record

/-!
# Round trips of application data

Bytes written to the data file of one end are cut into records, and the other end, with the same
secrets, takes them in however the channel cuts the stream. The writer makes a record of a write of
no bytes too, but the reader takes such a record for one without room for its MAC, or with nothing
in it, and ends the connection. The MAC that the reader computes is put where the frame of
`tlsrecread` has `MD5dlen` bytes; a longer one is received only if the compiler left room for it.

## Main definitions

* `stream`, `Flows`: the bytes that are to come, on a channel that gives them all.
* `emit`, `chunks`: the record made of a body, and the bodies a write is cut into.
* `Agree`: two ends that have the same secrets.
* `receive`: a number of calls of `tlsrecread`, each giving data.

## Main results

* `tlswrite_eq`: a write emits the records of its chunks.
* `gather_spec`: a record at the front of the stream is gathered.
* `process_emit`: a record that was emitted is processed exactly if it holds data and there is room
  for its MAC.
* `delivered_iff`: what was written is received exactly if no write was empty and there is room for
  the MAC.
-/

namespace PlanNine.Tls

variable {R D : Type} {L : Libsec R D}

/-! ### The incoming stream -/

/-- The bytes a read of the channel gives. -/
def Bread.bytes : Bread → List UInt8
  | .blocks bl => Tls.bytes bl
  | .fail _ => []

/-- The bytes that are to come. -/
def stream (io : Io) : List UInt8 := bytes io.unprocessed ++ (io.input.map Bread.bytes).flatten

/-- The channel gives bytes only. -/
def Flows (input : List Bread) : Prop := ∀ r ∈ input, ∃ bl, r = .blocks bl ∧ bytes bl ≠ []

variable {io : Io} {un l : List Block} {input : List Bread} {n : ℕ}

/-- On a channel that gives bytes only, bytes that are to come can be had. -/
theorem ensure_spec (hf : Flows input) (hn : n ≤ (stream ⟨un, input⟩).length) :
    ∃ io, ensure n un input = (.ok, io) ∧ stream io = stream ⟨un, input⟩ ∧ Flows io.input ∧
      n ≤ (bytes io.unprocessed).length := by
  induction input generalizing un with
  | nil =>
    have hle : n ≤ (bytes un).length := by simpa [stream] using hn
    exact ⟨⟨un, []⟩, ensure_of_le hle, rfl, hf, hle⟩
  | cons r input ih =>
    by_cases hle : n ≤ (bytes un).length
    · exact ⟨⟨un, r :: input⟩, ensure_of_le hle, rfl, hf, hle⟩
    · obtain ⟨bl, rfl, hne⟩ := hf r List.mem_cons_self
      have hst : stream ⟨un ++ bl, input⟩ = stream ⟨un, .blocks bl :: input⟩ := by
        simp [stream, bytes_append, Bread.bytes]
      have hstep : ensure n un (.blocks bl :: input) = ensure n (un ++ bl) input :=
        (if_neg hle).trans (if_neg hne)
      rw [hstep, ← hst]
      exact ih (fun r hr => hf r (List.mem_cons_of_mem _ hr)) (by rwa [hst])

theorem qgrab_spec (hne : l ≠ []) (hn : n ≤ (bytes l).length) :
    ∃ b l', qgrab l n = some (b, l') ∧ b.data = (bytes l).take n ∧ bytes l' = (bytes l).drop n := by
  cases l with
  | nil => exact absurd rfl hne
  | cons b l =>
    rw [qgrab]
    by_cases heq : b.data.length = n
    · rw [if_pos heq]
      refine ⟨b, l, rfl, ?_, ?_⟩
      · rw [bytes_cons, ← heq, List.take_left]
      · rw [bytes_cons, ← heq, List.drop_left]
    · rw [if_neg heq]
      obtain ⟨h1, h2⟩ := consume_spec hn
      rw [min_eq_left hn]
      exact ⟨_, _, rfl, h1, h2⟩

/-- A record at the front of the stream is gathered, unless it has no body and there is no block to
look at. -/
theorem gather_spec {tr : TlsRec R D} {header body rest : List UInt8} {type ver : ℕ}
    (hf : Flows io.input) (hst : stream io = header ++ body ++ rest)
    (hh : header.length = RecHdrLen)
    (hp : parse tr header = .ok (type, ver, body.length)) :
    (body = [] ∧ (gather tr io).1 = .crash) ∨
      ∃ io', gather tr io = (.record ⟨header, type, ver, body⟩, io') ∧ stream io' = rest ∧
        Flows io'.input := by
  obtain ⟨un, input⟩ := io
  obtain ⟨⟨un₁, input₁⟩, he, hst₁, hf₁, hn₁⟩ := ensure_spec hf (n := RecHdrLen) (by
    rw [hst, List.append_assoc, List.length_append]
    omega)
  rw [hst] at hst₁
  dsimp only at hf₁ hn₁
  obtain ⟨hc1, hc2⟩ := consume_spec hn₁
  have hheader : (consume un₁ RecHdrLen).1 = header := by
    have htake := congrArg (List.take RecHdrLen) hst₁
    rw [stream, List.take_append_of_le_length hn₁, ← hc1, List.append_assoc] at htake
    rw [htake, ← hh, List.take_left]
  have hst₂ : stream ⟨(consume un₁ RecHdrLen).2, input₁⟩ = body ++ rest := by
    have hdrop := congrArg (List.drop RecHdrLen) hst₁
    rw [stream, List.drop_append_of_le_length hn₁, ← hc2, List.append_assoc] at hdrop
    rw [stream, hdrop, ← hh, List.drop_left]
  obtain ⟨⟨un₃, input₃⟩, he₃, hst₃, hf₃, hn₃⟩ := ensure_spec hf₁ (n := body.length) (by
    rw [hst₂, List.length_append]
    omega)
  rw [hst₂] at hst₃
  dsimp only at hf₃ hn₃
  by_cases hnil : un₃ = []
  · subst hnil
    refine .inl ⟨by simpa [bytes] using hn₃, ?_⟩
    simp only [gather, he, hheader, gatherBody, hp, he₃, qgrab]
  · obtain ⟨b, un₄, hq, hb, hrest⟩ := qgrab_spec hnil hn₃
    have hbody : b.data = body := by
      have htake := congrArg (List.take body.length) hst₃
      rw [stream, List.take_append_of_le_length hn₃, List.take_left] at htake
      rw [hb, htake]
    refine .inr ⟨⟨un₄, input₃⟩, ?_, ?_, hf₃⟩
    · simp only [gather, he, hheader, gatherBody, hp, he₃, hq, hbody]
    have hdrop := congrArg (List.drop body.length) hst₃
    rw [stream, List.drop_append_of_le_length hn₃, List.drop_left] at hdrop
    rw [stream, hrest, hdrop]

/-! ### Writing -/

/-- The record made of a body. -/
def record (L : Libsec R D) (tr : TlsRec R D) (body : List UInt8) : List UInt8 :=
  match tr.out.sec with
  | none => rechdr RApplication tr.version body.length ++ body
  | some sec => (wraprec L tr sec RApplication body).1

/-- The writer once it has written a body. -/
def emit (L : Libsec R D) (tr : TlsRec R D) (body : List UInt8) : TlsRec R D :=
  match tr.out.sec with
  | none => { tr with output := tr.output ++ [record L tr body] }
  | some sec =>
    { tr with
      out := { tr.out with
        seq := (tr.out.seq + 1) % 4294967296
        sec := some (wraprec L tr sec RApplication body).2 }
      output := tr.output ++ [record L tr body] }

/-- The writer once it has written some bodies, and the records of them. -/
def emits (L : Libsec R D) : TlsRec R D → List (List UInt8) → TlsRec R D
  | tr, [] => tr
  | tr, b :: bs => emits L (emit L tr b) bs

def records (L : Libsec R D) : TlsRec R D → List (List UInt8) → List (List UInt8)
  | _, [] => []
  | tr, b :: bs => record L tr b :: records L (emit L tr b) bs

/-- The bodies that bytes are cut into: at least one. -/
def chunks : ℕ → List UInt8 → List (List UInt8)
  | 0, _ => []
  | fuel + 1, p =>
    p.take MaxRecLen ::
      if p.drop MaxRecLen = [] then [] else chunks fuel (p.drop MaxRecLen)

variable {tr : TlsRec R D} {body : List UInt8} {nt : Notes} {type : ℕ}

theorem sendrec_eq (hn : nt.write = none) :
    sendrec L RApplication body nt tr = (.ok (), emit L tr body) := by
  obtain ⟨_, _, _, _, write⟩ := nt
  dsimp only at hn
  subst hn
  obtain ⟨_, _, _, _, _, _, _, _, _, _, ⟨_, sec, _⟩, _, _⟩ := tr
  cases sec <;> rfl

theorem checkstate_of_mem {ishand : Bool} {ok : List State} (h : tr.state ∈ ok) :
    checkstate ishand ok tr = (.ok (), tr) := by
  change (if tr.state ∈ ok then pure () else _ : Conn R D Unit) tr = _
  rw [if_pos h]
  rfl

@[simp] theorem state_emit : (emit L tr body).state = tr.state := by
  unfold emit
  split <;> rfl

@[simp] theorem version_emit : (emit L tr body).version = tr.version := by
  unfold emit
  split <;> rfl

@[simp] theorem packMac_emit : (emit L tr body).packMac = tr.packMac := by
  unfold emit
  split <;> rfl

theorem output_emits (tr : TlsRec R D) (bs : List (List UInt8)) :
    (emits L tr bs).output = tr.output ++ records L tr bs := by
  induction bs generalizing tr with
  | nil => simp [emits, records]
  | cons b bs ih =>
    rw [emits, ih, records]
    have hout : (emit L tr b).output = tr.output ++ [record L tr b] := by
      unfold emit
      split <;> rfl
    rw [hout, List.append_assoc]
    rfl

theorem tlsbwrite_eq (hn : nt.write = none) (hst : tr.state = .SOpen)
    (hlen : body.length ≤ MaxRecLen) :
    tlsbwrite L body nt tr = (.ok (), emit L tr body) := by
  rw [tlsbwrite, Kern.bind_of_ok (checkstate_of_mem (by rw [hst]; exact List.mem_singleton_self _)),
    tlsrecwrite, tlsrecwriteLoop,
    Kern.bind_of_ok (checkstate_of_mem (by rw [hst]; decide)), List.take_of_length_le hlen,
    Kern.bind_of_ok (sendrec_eq hn), if_neg (not_lt.mpr hlen)]
  rfl

theorem tlswriteLoop_eq (hn : nt.write = none) (hst : tr.state = .SOpen) (fuel : ℕ)
    (p : List UInt8) : tlswriteLoop L nt fuel p tr = (.ok (), emits L tr (chunks fuel p)) := by
  induction fuel generalizing tr p with
  | zero => rfl
  | succ fuel ih =>
    have hlen : (p.take MaxRecLen).length ≤ MaxRecLen := List.length_take_le _ _
    rw [tlswriteLoop, Kern.bind_of_ok (tlsbwrite_eq hn hst hlen), chunks, emits]
    split
    · rfl
    · exact ih (state_emit.trans hst) _

/-- A write emits the records of its chunks. -/
theorem tlswrite_eq (hn : nt.write = none) (hst : tr.state = .SOpen) (p : List UInt8) :
    tlswrite L p nt tr = (.ok (), emits L tr (chunks (p.length + 1) p)) :=
  tlswriteLoop_eq hn hst _ p

/-- Write after write. -/
def writes (L : Libsec R D) (nt : Notes) : List (List UInt8) → Conn R D Unit
  | [] => pure ()
  | w :: ws => do
    tlswrite L w nt
    writes L nt ws

/-- The bodies of all the writes. -/
def bodies (ws : List (List UInt8)) : List (List UInt8) :=
  ws.flatMap fun w => chunks (w.length + 1) w

theorem state_emits (tr : TlsRec R D) (bs : List (List UInt8)) :
    (emits L tr bs).state = tr.state := by
  induction bs generalizing tr with
  | nil => rfl
  | cons b bs ih => rw [emits, ih, state_emit]

theorem emits_append (tr : TlsRec R D) (bs bs' : List (List UInt8)) :
    emits L tr (bs ++ bs') = emits L (emits L tr bs) bs' := by
  induction bs generalizing tr with
  | nil => rfl
  | cons b bs ih => exact ih _

theorem writes_eq (hn : nt.write = none) (hst : tr.state = .SOpen) (ws : List (List UInt8)) :
    writes L nt ws tr = (.ok (), emits L tr (bodies ws)) := by
  induction ws generalizing tr with
  | nil => rfl
  | cons w ws ih =>
    rw [writes, Kern.bind_of_ok (tlswrite_eq hn hst w), ih ((state_emits _ _).trans hst),
      ← emits_append]
    rfl

theorem flatten_chunks {fuel : ℕ} {p : List UInt8} (h : p.length < fuel) :
    (chunks fuel p).flatten = p := by
  induction fuel generalizing p with
  | zero => omega
  | succ fuel ih =>
    rw [chunks, List.flatten_cons]
    by_cases hnil : p.drop MaxRecLen = []
    · rw [if_pos hnil]
      conv_rhs => rw [← List.take_append_drop MaxRecLen p, hnil]
      rfl
    · have hlt : (p.drop MaxRecLen).length < fuel := by
        have hpos := List.length_pos_iff.mpr hnil
        rw [List.length_drop] at hpos ⊢
        have : 0 < MaxRecLen := by decide
        omega
      rw [if_neg hnil, ih hlt, List.take_append_drop]

theorem flatten_bodies (ws : List (List UInt8)) : (bodies ws).flatten = ws.flatten := by
  induction ws with
  | nil => rfl
  | cons w ws ih =>
    rw [bodies, List.flatMap_cons, List.flatten_append, flatten_chunks (Nat.lt_succ_self _)]
    exact congrArg (w ++ ·) ih

/-- All chunks hold bytes exactly if there are bytes, and none is too long. -/
theorem chunks_ne_nil {fuel : ℕ} {p : List UInt8} :
    (∀ b ∈ chunks (fuel + 1) p, b ≠ []) ↔ p ≠ [] := by
  induction fuel generalizing p with
  | zero =>
    rw [chunks]
    simp [chunks, MaxRecLen]
  | succ fuel ih =>
    rw [chunks, List.forall_mem_cons]
    have htake : p.take MaxRecLen ≠ [] ↔ p ≠ [] := by
      rw [ne_eq, List.take_eq_nil_iff]
      simp [MaxRecLen]
    rw [htake]
    refine and_iff_left_of_imp fun _ => ?_
    split
    · exact fun _ hb => (List.not_mem_nil hb).elim
    · rename_i hne
      exact ih.mpr hne

theorem length_chunks {fuel : ℕ} {p b : List UInt8} (h : b ∈ chunks fuel p) :
    b.length ≤ MaxRecLen := by
  induction fuel generalizing p with
  | zero => exact (List.not_mem_nil h).elim
  | succ fuel ih =>
    rw [chunks] at h
    obtain rfl | h := List.mem_cons.mp h
    · exact List.length_take_le _ _
    · split at h
      · exact (List.not_mem_nil h).elim
      · exact ih h

/-! ### Receiving -/

/-- The reader has the secret and the place in the sequence of the writer, and both speak one
version. -/
structure Agree (a b : TlsRec R D) (sec : Secret R D) : Prop where
  version : a.version = SSL3Version ∨ a.version = TLSVersion
  version_eq : b.version = a.version
  packMac_eq : b.packMac = a.packMac
  opened : b.opened = true
  sends : a.out.sec = some sec
  receives : b.inn.sec = some sec
  seq_eq : b.inn.seq = a.out.seq
  maclen : sec.maclen = sec.mac.len

/-- The reader once it has taken in a body. -/
def taken (L : Libsec R D) (a b : TlsRec R D) (body : List UInt8) : TlsRec R D :=
  { b with
    inn := { b.inn with seq := (emit L a body).out.seq, sec := (emit L a body).out.sec }
    processed := some body }

variable {a b : TlsRec R D} {sec : Secret R D} {room : ℕ}

theorem wraprec_eq (a : TlsRec R D) (sec : Secret R D) (body : List UInt8) :
    ∃ payload, (wraprec L a sec RApplication body).1 =
        rechdr RApplication a.version payload.length ++ payload ∧
      payload = (sec.encrypt L (body ++ a.packMac.run L sec a.out.seq
        (rechdr RApplication a.version body.length) body)).1 := ⟨_, rfl, rfl⟩

theorem parse_rechdr (tr : TlsRec R D) {ver len : ℕ} (hver : ver < 65536) (heq : tr.version = ver)
    (hlen : len ≤ MaxCipherRecLen) :
    parse tr (rechdr RApplication ver len) = .ok (RApplication, ver, len) := by
  have hlen' : len < 65536 := hlen.trans_lt (by decide)
  have h1 : get16 ((rechdr RApplication ver len).drop 1) = ver := get16_put16_append hver _
  have h3 : get16 ((rechdr RApplication ver len).drop 3) = len := by
    have := get16_put16_append hlen' []
    rwa [List.append_nil] at this
  have h0 : ((rechdr RApplication ver len).getD 0 0).toNat = RApplication := rfl
  have hssl2 : ¬ (tr.handin = 0 ∧ 128 ≤ RApplication) := fun h => absurd h.2 (by decide)
  rw [parse]
  simp only [h0, h1, h3, hssl2, decide_false, Bool.false_eq_true, if_false, false_and, heq, ne_eq,
    not_true_eq_false]
  rw [if_neg (not_lt.mpr hlen)]

theorem fails_rcvError {α : Type} (err : ℕ) (msg : String) (n : Notes) :
    Kern.Fails (rcvError L err msg n : Conn R D α) :=
  .bind fun _ => .bind fun _ => .ite (fun _ => .error _) fun _ => .error _

theorem fails_channelError (n : Notes) (e : String) :
    Kern.Fails (channelError n e : Conn R D Unit) := .bind fun _ => .error e

/-- The reader once it has taken off the cipher of a record. -/
def opened (L : Libsec R D) (b : TlsRec R D) (sec : Secret R D) (payload : List UInt8) :
    TlsRec R D :=
  { b with
    inn := { b.inn with
      seq := (b.inn.seq + 1) % 4294967296
      sec := some (sec.decrypt L payload).2.2 } }

/-- What `unwraprec` does, step by step. -/
theorem unwraprec_eq (h : b.inn.sec = some sec) (r : Rec) (n : Notes) :
    unwraprec L room r n b =
      let d := sec.decrypt L r.body
      let len := if sec.maclen < d.1 then d.1.toNat - sec.maclen else r.body.length
      let hmac := b.packMac.run L sec b.inn.seq (r.header.take 3 ++ put16 len) (d.2.1.take len)
      if room < hmac.length then (.error (.panic .smashed), opened L b sec r.body)
      else if d.1 ≤ sec.maclen ∨ hmac.take sec.maclen ≠ (d.2.1.drop len).take sec.maclen then
        rcvError L EBadRecordMac "record mac mismatch" n (opened L b sec r.body)
      else (.ok (d.2.1.take len), opened L b sec r.body) := by
  have hget : (Kern.get : Conn R D _) b = (.ok b, b) := rfl
  rw [unwraprec, Kern.bind_of_ok hget, h]
  dsimp only
  rw [Kern.bind_of_ok (rfl : (Kern.modify _ : Conn R D Unit) b = _), Kern.ite_run, Kern.ite_run]
  rfl

section Unwrap

variable (hL : L.Lawful) (h : Agree a b sec) (n : Notes) {ver : ℕ} {payload : List UInt8}
  (hp : payload = (sec.encrypt L (body ++ a.packMac.run L sec a.out.seq
    (rechdr RApplication a.version body.length) body)).1)

include hL h hp

omit h in
theorem length_payload (hlen : body.length ≤ MaxRecLen) : payload.length ≤ MaxCipherRecLen := by
  obtain ⟨pad, -, henc, hpad⟩ := decrypt_encrypt hL sec (body ++
    a.packMac.run L sec a.out.seq (rechdr RApplication a.version body.length) body)
  rw [hp, henc, List.length_append, length_packMac hL]
  have hmac : sec.mac.len ≤ 20 := by cases sec.mac <;> decide
  unfold MaxCipherRecLen
  omega

/-- The cipher and the MAC of a record that was emitted come off if it holds data and there is room
for its MAC. -/
theorem unwraprec_emit (hne : body ≠ []) (hroom : sec.mac.len ≤ room) :
    unwraprec L room ⟨rechdr RApplication a.version payload.length, RApplication, ver, payload⟩
        n b =
      (.ok body, { taken L a b body with processed := b.processed }) := by
  obtain ⟨pad, hdec, -, -⟩ := decrypt_encrypt hL sec (body ++
    a.packMac.run L sec a.out.seq (rechdr RApplication a.version body.length) body)
  have hmac := length_packMac hL sec a.packMac a.out.seq
    (rechdr RApplication a.version body.length) body
  rw [if_neg (fun hnil => hne (List.append_eq_nil_iff.mp hnil.1).1), ← hp] at hdec
  rw [unwraprec_eq h.receives]
  dsimp only
  rw [hdec, h.packMac_eq, h.seq_eq]
  dsimp only
  have hpos := List.length_pos_iff.mpr hne
  have hmaclen := h.maclen
  rw [List.length_append, hmac, ← hmaclen]
  have hlen : (if (sec.maclen : ℤ) < (body.length + sec.maclen : ℕ) then
      ((body.length + sec.maclen : ℕ) : ℤ).toNat - sec.maclen else payload.length) =
        body.length := by
    rw [if_pos (by omega)]
    omega
  have hhdr : (rechdr RApplication a.version payload.length).take 3 ++ put16 body.length =
      rechdr RApplication a.version body.length := rfl
  rw [hlen, hhdr, List.append_assoc, List.take_left, List.drop_left, hmac,
    if_neg (not_lt.mpr hroom), if_neg]
  · have hemit : emit L a body = { a with
        out := { a.out with
          seq := (a.out.seq + 1) % 4294967296
          sec := some (wraprec L a sec RApplication body).2 }
        output := a.output ++ [record L a body] } := by
      rw [emit, h.sends]
    rw [opened, hdec, h.seq_eq, taken, hemit]
    rfl
  · rw [not_or, not_not]
    refine ⟨by omega, ?_⟩
    rw [hmaclen, ← hmac, List.take_left, List.take_of_length_le le_rfl]

/-- A record without data, or whose MAC has no room, is not. -/
theorem unwraprec_emit_fails (ver room : ℕ) (hbad : body = [] ∨ room < sec.mac.len) : ∃ e,
    (unwraprec L room ⟨rechdr RApplication a.version payload.length, RApplication, ver, payload⟩ n
      b).1 = .error e := by
  obtain ⟨pad, hdec, -, -⟩ := decrypt_encrypt hL sec (body ++
    a.packMac.run L sec a.out.seq (rechdr RApplication a.version body.length) body)
  have hmac := length_packMac hL sec a.packMac a.out.seq
    (rechdr RApplication a.version body.length) body
  rw [← hp] at hdec
  rw [unwraprec_eq h.receives]
  dsimp only
  rw [length_packMac hL]
  split
  · exact ⟨_, rfl⟩
  rename_i hroom
  obtain rfl := hbad.resolve_right hroom
  rw [if_pos]
  · exact fails_rcvError _ _ _ _
  · left
    rw [hdec, List.nil_append]
    have hmaclen := h.maclen
    dsimp only
    split <;> omega

end Unwrap

theorem act_application {s : TlsRec R D} (h : s.opened = true) (header payload p : List UInt8)
    (ver : ℕ) (n : Notes) : act L ⟨header, RApplication, ver, payload⟩ p n s =
      (.ok (), { s with processed := some p }) := by
  have hget : (Kern.get : Conn R D _) s = (.ok s, s) := rfl
  rw [act, if_neg (by decide : RApplication ≠ RChangeCipherSpec),
    if_neg (by decide : RApplication ≠ RAlert), if_neg (by decide : RApplication ≠ RHandshake),
    if_neg (by decide : RApplication ≠ SSL2ClientHello), if_pos rfl, Kern.bind_of_ok hget, if_pos h]
  rfl

/-- A record that was emitted is processed exactly if it holds data and there is room for its
MAC. -/
theorem process_emit (hL : L.Lawful) (h : Agree a b sec) (n : Notes)
    {payload : List UInt8} (hp : payload = (sec.encrypt L (body ++ a.packMac.run L sec a.out.seq
      (rechdr RApplication a.version body.length) body)).1) (ver room : ℕ) :
    (body ≠ [] ∧ sec.mac.len ≤ room →
      process L room ⟨rechdr RApplication a.version payload.length, RApplication, ver, payload⟩
        n b =
        (.ok (), taken L a b body)) ∧
    (¬ (body ≠ [] ∧ sec.mac.len ≤ room) → ∃ e,
      (process L room ⟨rechdr RApplication a.version payload.length, RApplication, ver, payload⟩ n
        b).1 = .error e) := by
  constructor
  · rintro ⟨hne, hroom⟩
    refine Kern.waserror_of_ok ?_
    rw [Kern.bind_of_ok (unwraprec_emit hL h n hp hne hroom), if_neg hne]
    exact act_application
      (s := { taken L a b body with processed := b.processed }) h.opened _ payload
      body ver n
  · intro hbad
    obtain ⟨e, he⟩ := unwraprec_emit_fails hL h n hp ver room (by
      rw [not_and_or, not_not, not_le] at hbad
      exact hbad)
    rcases hu : unwraprec L room
      ⟨rechdr RApplication a.version payload.length, RApplication, ver, payload⟩ n b with ⟨r, s'⟩
    rw [hu] at he
    subst he
    rw [process]
    cases e with
    | error msg =>
      rw [Kern.waserror_of_error (Kern.bind_of_error hu)]
      exact fails_channelError n msg s'
    | panic why =>
      rw [Kern.waserror_of_panic (Kern.bind_of_error hu)]
      exact ⟨_, rfl⟩

/-- Read `k` records, each of which is to give data. -/
def receive (L : Libsec R D) (room : ℕ) (n : Notes) : ℕ → Io → TlsRec R D →
    Option (List UInt8 × Io × TlsRec R D)
  | 0, io, tr => some ([], io, tr)
  | k + 1, io, tr =>
    match tlsrecread L room n io tr with
    | (_, .ok _, io, tr) =>
      match tr.processed with
      | none => none
      | some p =>
        (receive L room n k io { tr with processed := none }).map fun r => (p ++ r.1, r.2)
    | _ => none

/-- Ends that were given the same data for their secrets, and then changed to them, agree. -/
theorem Agree.of_secrets {ha : Hashalg} {ea : Encalg} {x : List UInt8} {tos toc : Secret R D}
    (hs : secrets L a.version ha ea x = some (tos, toc)) (hv : b.version = a.version)
    (hp : b.packMac = a.packMac) (ho : b.opened = true)
    (hv' : a.version = SSL3Version ∨ a.version = TLSVersion) (hout : a.out = ⟨0, some tos, none⟩)
    (hin : b.inn = ⟨0, some tos, none⟩) : Agree a b tos where
  version := hv'
  version_eq := hv
  packMac_eq := hp
  opened := ho
  sends := by rw [hout]
  receives := by rw [hin]
  seq_eq := by rw [hout, hin]
  maclen := (maclen_secrets hs).1

/-- The ends agree again once a body was emitted and taken in. -/
theorem Agree.taken (h : Agree a b sec) (body : List UInt8) :
    ∃ sec', sec'.mac = sec.mac ∧
      Agree (emit L a body) { Tls.taken L a b body with processed := none } sec' := by
  have hemit : emit L a body = { a with
      out := { a.out with
        seq := (a.out.seq + 1) % 4294967296
        sec := some (wraprec L a sec RApplication body).2 }
      output := a.output ++ [record L a body] } := by
    rw [emit, h.sends]
  refine ⟨(wraprec L a sec RApplication body).2, mac_encrypt, ?_⟩
  rw [Tls.taken, hemit]
  exact ⟨h.version, h.version_eq, h.packMac_eq, h.opened, rfl, rfl, rfl,
    maclen_encrypt.trans (h.maclen.trans (congrArg Mac.len mac_encrypt.symm))⟩

/-- The next record of the stream is received exactly if it holds data and there is room for its
MAC. -/
theorem receive_record (hL : L.Lawful) (h : Agree a b sec) (n : Notes)
    (hlen : body.length ≤ MaxRecLen) {rest : List UInt8} (hf : Flows io.input)
    (hst : stream io = record L a body ++ rest) (room : ℕ) :
    (body ≠ [] ∧ sec.mac.len ≤ room → ∃ io', stream io' = rest ∧ Flows io'.input ∧ ∀ k,
      receive L room n (k + 1) io b =
        (receive L room n k io' { taken L a b body with processed := none }).map
          fun r => (body ++ r.1, r.2)) ∧
    (¬ (body ≠ [] ∧ sec.mac.len ≤ room) → ∀ k, receive L room n (k + 1) io b = none) := by
  obtain ⟨payload, hw, hp⟩ := wraprec_eq (L := L) a sec body
  have hrec : record L a body =
      rechdr RApplication a.version payload.length ++ payload := by
    rw [record, h.sends]
    exact hw
  rw [hrec] at hst
  have hver : a.version < 65536 := by
    obtain hv | hv := h.version <;> rw [hv] <;> decide
  have hparse := parse_rechdr b hver h.version_eq (length_payload hL hp hlen)
  obtain ⟨hgood, hbad⟩ := process_emit hL h n hp a.version room
  have hgather := gather_spec hf hst rfl hparse
  constructor
  · intro hcond
    obtain ⟨hnil, -⟩ | ⟨io', hg, hst', hf'⟩ := hgather
    · have h1 := hgood hcond
      obtain ⟨pad, -, henc, -⟩ := decrypt_encrypt hL sec (body ++
        a.packMac.run L sec a.out.seq (rechdr RApplication a.version body.length) body)
      rw [← hp, hnil, List.length_append, List.length_nil] at henc
      have hpos := List.length_pos_iff.mpr hcond.1
      omega
    · refine ⟨io', hst', hf', fun k => ?_⟩
      have hread : tlsrecread L room n io b =
          (.record ⟨rechdr RApplication a.version payload.length, RApplication, a.version, payload⟩,
            .ok (), io', taken L a b body) := by
        rw [tlsrecread, hg]
        dsimp only
        rw [finish, hgood hcond]
      rw [receive, hread]
      rfl
  · intro hcond k
    have hread : ∃ e, (tlsrecread L room n io b).2.1 = .error e := by
      rw [tlsrecread]
      dsimp only
      obtain ⟨-, hg⟩ | ⟨io', hg, -⟩ := hgather
      · rw [hg]
        exact ⟨_, rfl⟩
      · rw [hg]
        exact hbad hcond
    obtain ⟨e, he⟩ := hread
    rcases hr : tlsrecread L room n io b with ⟨g, r, io', tr⟩
    rw [hr] at he
    dsimp only at he
    subst he
    rw [receive, hr]

theorem record_ne_nil (h : Agree a b sec) : record L a body ≠ [] := by
  obtain ⟨payload, hw, -⟩ := wraprec_eq (L := L) a sec body
  rw [record, h.sends]
  dsimp only
  rw [hw]
  exact List.append_ne_nil_of_left_ne_nil (List.cons_ne_nil _ _) _

/-- All the records of some bodies are received exactly if each holds data and there is room for
its MAC. -/
theorem receive_records (hL : L.Lawful) (n : Notes) (bs : List (List UInt8))
    (hlen : ∀ b ∈ bs, b.length ≤ MaxRecLen) (h : Agree a b sec) (hf : Flows io.input)
    (hst : stream io = (records L a bs).flatten) :
    (∃ k io' b', receive L room n k io b = some (bs.flatten, io', b') ∧ stream io' = [] ∧
      b'.output = b.output ∧ b'.state = b.state) ↔
      ∀ body ∈ bs, body ≠ [] ∧ sec.mac.len ≤ room := by
  induction bs generalizing a b sec io with
  | nil =>
    refine ⟨fun _ _ hb => (List.not_mem_nil hb).elim, fun _ => ⟨0, io, b, rfl, hst, rfl, rfl⟩⟩
  | cons body bs ih =>
    obtain ⟨hbody, hbs⟩ := List.forall_mem_cons.mp hlen
    rw [records, List.flatten_cons] at hst
    obtain ⟨hgood, hbad⟩ := receive_record hL h n hbody hf hst room
    rw [List.forall_mem_cons]
    by_cases hcond : body ≠ [] ∧ sec.mac.len ≤ room
    · obtain ⟨io', hst', hf', hstep⟩ := hgood hcond
      obtain ⟨sec', hmac, hagree⟩ := h.taken (L := L) body
      have hih := ih hbs hagree hf' hst'
      rw [hmac] at hih
      rw [and_iff_right hcond, ← hih]
      constructor
      · rintro ⟨k, io₂, b₂, hr, hnil, hquiet⟩
        cases k with
        | zero =>
          simp only [receive, Option.some.injEq, Prod.mk.injEq] at hr
          obtain ⟨-, rfl, -⟩ := hr
          rw [hst] at hnil
          exact absurd (List.append_eq_nil_iff.mp hnil).1 (record_ne_nil h)
        | succ k =>
          rw [hstep, Option.map_eq_some_iff] at hr
          obtain ⟨⟨d, io₃, b₃⟩, hr, heq⟩ := hr
          simp only [Prod.mk.injEq, List.flatten_cons, List.append_cancel_left_eq] at heq
          obtain ⟨rfl, rfl, rfl⟩ := heq
          exact ⟨k, _, _, hr, hnil, hquiet⟩
      · rintro ⟨k, io₂, b₂, hr, hnil, hquiet⟩
        refine ⟨k + 1, io₂, b₂, ?_, hnil, hquiet⟩
        rw [hstep, hr]
        rfl
    · refine iff_of_false ?_ fun hall => hcond hall.1
      rintro ⟨k, io₂, b₂, hr, hnil, -⟩
      cases k with
      | zero =>
        simp only [receive, Option.some.injEq, Prod.mk.injEq] at hr
        obtain ⟨-, rfl, -⟩ := hr
        rw [hst] at hnil
        exact absurd (List.append_eq_nil_iff.mp hnil).1 (record_ne_nil h)
      | succ k =>
        rw [hbad hcond] at hr
        cases hr

/-- What one end writes, write after write, the other end receives, however the channel cuts it and
without an alert, exactly if no write was empty and there is room for the MAC. -/
theorem delivered_iff (hL : L.Lawful) {ns nr : Notes} (hns : ns.write = none)
    (hopen : a.state = .SOpen) (h : Agree a b sec) (ws : List (List UInt8)) :
    ∃ a' recs, writes L ns ws a = (.ok (), a') ∧ a'.output = a.output ++ recs ∧
      ∀ io : Io, Flows io.input → stream io = recs.flatten →
        ((∃ k io' b', receive L room nr k io b = some (ws.flatten, io', b') ∧ stream io' = [] ∧
          b'.output = b.output ∧ b'.state = b.state) ↔
          (∀ w ∈ ws, w ≠ []) ∧ (ws ≠ [] → sec.mac.len ≤ room)) := by
  refine ⟨_, _, writes_eq hns hopen ws, output_emits _ _, fun io hf hst => ?_⟩
  have hlen : ∀ b ∈ bodies ws, b.length ≤ MaxRecLen := by
    intro b hb
    obtain ⟨w, -, hb⟩ := List.mem_flatMap.mp hb
    exact length_chunks hb
  rw [← flatten_bodies, receive_records hL nr (bodies ws) hlen h hf hst]
  constructor
  · intro hall
    refine ⟨fun w hw => chunks_ne_nil.mp fun b hb => (hall b (List.mem_flatMap.mpr ⟨w, hw, hb⟩)).1,
      fun hne => ?_⟩
    obtain ⟨w, hw⟩ := List.exists_mem_of_ne_nil ws hne
    exact (hall (w.take MaxRecLen) (List.mem_flatMap.mpr ⟨w, hw, List.mem_cons_self⟩)).2
  · rintro ⟨hne, hroom⟩ b hb
    obtain ⟨w, hw, hb⟩ := List.mem_flatMap.mp hb
    exact ⟨chunks_ne_nil.mpr (hne w hw) b hb, hroom (List.ne_nil_of_mem hw)⟩

/-! ### Two ends without cipher and MAC -/

/-- A crypto library for connections that do not use it. -/
def nolibsec : Libsec Unit Unit where
  setupRC4state _ := ()
  rc4 _ m := (m, ())
  setupDES3state _ _ := ()
  des3CBCencrypt _ m := (m, ())
  des3CBCdecrypt _ m := (m, ())
  md5 _ := List.replicate MD5dlen 0
  sha1 _ := List.replicate SHA1dlen 0
  hmac_md5 _ _ := List.replicate MD5dlen 0
  hmac_sha1 _ _ := List.replicate SHA1dlen 0

theorem lawful_nolibsec : nolibsec.Lawful where
  length_rc4 _ _ := rfl
  rc4_rc4 _ _ := rfl
  length_des3 _ _ _ := rfl
  des3_des3 _ _ _ := rfl
  length_md5 _ := rfl
  length_sha1 _ := rfl
  length_hmac_md5 _ _ := rfl
  length_hmac_sha1 _ _ := rfl

/-- The secret of a connection without cipher and MAC. -/
def nosecret : Secret Unit Unit := newsecret nolibsec TLSVersion .clear .clear [] [] []

/-- An end of an established connection. -/
def established : TlsRec Unit Unit where
  version := TLSVersion
  verset := true
  opened := true
  err := ""
  handin := 1
  state := .SOpen
  packMac := .tlsPackMac
  inn := ⟨0, some nosecret, none⟩
  processed := none
  handq := none
  out := ⟨0, some nosecret, none⟩
  output := []
  freed := []

theorem agree_established : Agree established established nosecret :=
  .of_secrets
    (show secrets nolibsec TLSVersion .clear .clear [] = some (nosecret, nosecret) from rfl)
    rfl rfl rfl (.inr rfl) rfl rfl

/-- Two writes are received, though the channel cuts the second record in two. -/
theorem delivered_two : ∃ k io' b', receive nolibsec MD5dlen {} k
    ⟨[], [.blocks [⟨0, [23, 3, 1, 0, 1, 65, 23]⟩], .blocks [⟨0, [3, 1, 0, 2, 66]⟩, ⟨0, [67]⟩]]⟩
    established = some ([65, 66, 67], io', b') ∧ stream io' = [] ∧
      b'.output = established.output ∧ b'.state = established.state := by
  obtain ⟨a', recs, hw, hout, h⟩ := delivered_iff lawful_nolibsec (rfl : Notes.write {} = none) rfl
    agree_established [[65], [66, 67]]
  have ha' : (writes nolibsec {} [[65], [66, 67]] established).2.output =
      [[23, 3, 1, 0, 1, 65], [23, 3, 1, 0, 2, 66, 67]] := by decide +kernel
  rw [hw] at ha'
  dsimp only at ha'
  rw [hout] at ha'
  obtain rfl : recs = _ := ha'
  refine (h _ ?_ rfl).mpr ⟨by decide, fun _ => by decide⟩
  intro r hr
  simp only [List.mem_cons, List.not_mem_nil, or_false] at hr
  obtain rfl | rfl := hr
  · exact ⟨_, rfl, by decide⟩
  · exact ⟨_, rfl, by decide⟩

/-- After a write of no bytes the other end sends an alert and is done with the connection; when
nothing else has come yet it reads through a nil block. -/
theorem not_delivered_empty :
    (writes nolibsec {} [[], [65]] established).2.output =
        [[23, 3, 1, 0, 0], [23, 3, 1, 0, 1, 65]] ∧
      (tlsrecread nolibsec MD5dlen {}
          ⟨[], [.blocks [⟨0, [23, 3, 1, 0, 0, 23, 3, 1, 0, 1, 65]⟩]]⟩ established).2.2.2.output =
        [[21, 3, 1, 0, 2, 2, 20]] ∧
      (tlsrecread nolibsec MD5dlen {}
          ⟨[], [.blocks [⟨0, [23, 3, 1, 0, 0, 23, 3, 1, 0, 1, 65]⟩]]⟩ established).2.2.2.state =
        .SError ∧
      (tlsrecread nolibsec MD5dlen {} ⟨[], [.blocks [⟨0, [23, 3, 1, 0, 0]⟩]]⟩ established).2.1 =
        .error (.panic .nilBlock) := by
  refine ⟨?_, ?_, ?_, ?_⟩
  · decide +kernel
  · decide +kernel
  · decide +kernel
  · rfl

end PlanNine.Tls
