import PlanNine.Port.Ssl.Cipher
import Mathlib.Tactic

/-!
# One record of a connection

The two ends of a connection are in step when they have chosen the same algorithms and one writes
with the secret, the cipher state and the message id that the other reads with. A record that the
one writes the other opens, and they are in step again, when the lengths of the record fit its
header and the blocks of the cipher. When they do not the reader raises an error.

## Main definitions

* `Ready`, `Sync`: a connection that has chosen its algorithms, and two ends in step.
* `Fits`, `Misfits`: records that the reader opens, and that it refuses.

## Main results

* `openMessage_spec`: opening what was sealed.
* `next_of_fits`, `next_of_misfits`: reading the next record.
-/

namespace PlanNine.Ssl

variable {K R : Type} {L : Libsec K R}

def Conn.digesting : Conn → Bool
  | .Sdigesting => true
  | .Sdigenc => true
  | _ => false

def Conn.encrypting : Conn → Bool
  | .Sencrypting => true
  | .Sdigenc => true
  | _ => false

section

variable (c : Conn)

@[simp] theorem digesting_digest : c.digest.digesting = true := by cases c <;> rfl

@[simp] theorem encrypting_digest : c.digest.encrypting = c.encrypting := by cases c <;> rfl

@[simp] theorem digesting_encrypt : c.encrypt.digesting = c.digesting := by cases c <;> rfl

@[simp] theorem encrypting_encrypt : c.encrypt.encrypting = true := by cases c <;> rfl

theorem digest_ne : c.digest ≠ .Sincomplete := by cases c <;> decide

theorem encrypt_ne : c.encrypt ≠ .Sincomplete := by cases c <;> decide

end

/-- The algorithms of a connection are chosen and set up. -/
structure Ready (s : Dstate K R) : Prop where
  complete : s.state ≠ .Sincomplete
  dig : s.state.digesting = true → ∃ h, s.hf = some h ∧ s.diglen = h.dlen
  nodig : s.state.digesting = false → s.diglen = 0
  enc : s.state.encrypting = true → CipherReady s.encryptalg s.out.state s.blocklen
  noenc : s.state.encrypting = false → s.blocklen = 1

/-- The end `r` reads as the end `s` writes. -/
structure Sync (s r : Dstate K R) : Prop where
  state : r.state = s.state
  encryptalg : s.state.encrypting = true → r.encryptalg = s.encryptalg
  blocklen : r.blocklen = s.blocklen
  diglen : r.diglen = s.diglen
  hf : s.state.digesting = true → r.hf = s.hf
  secret : s.state.digesting = true → r.in'.secret = s.out.secret
  cipher : s.state.encrypting = true → r.in'.state = s.out.state
  mid : r.in'.mid = s.out.mid

/-- The text of a record with its padding. -/
def message (mem : Memory) (text : List UInt8) (pad : ℕ) : List UInt8 :=
  text ++ (List.range pad).map mem.fill

theorem length_message (mem : Memory) (text : List UInt8) (pad : ℕ) :
    (message mem text pad).length = text.length + pad := by
  simp [message]

/-- What is behind the header of a record, and the cipher state behind it. -/
def sealed (L : Libsec K R) (s : Dstate K R) (mem : Memory) (m : List UInt8) :
    Cstate K R × List UInt8 :=
  let t := if s.state.digesting then digest L s s.out m ++ m else m
  if s.state.encrypting then encryptb L s.encryptalg s.out.state mem.beyond t
  else (s.out.state, t)

/-- The connection behind a record. -/
def sent (L : Libsec K R) (s : Dstate K R) (mem : Memory) (m : List UInt8) : Dstate K R :=
  { s with out := { s.out with state := (sealed L s mem m).1, mid := s.out.mid + 1 } }

theorem putRecord_eq (s : Dstate K R) (mem : Memory) (text : List UInt8) (pad : ℕ) :
    putRecord L s mem text pad = (sent L s mem (message mem text pad),
      header ((message mem text pad).length + s.diglen) pad ++
        (sealed L s mem (message mem text pad)).2) := by
  unfold putRecord sent sealed
  cases s.state <;> rfl

section

variable (hL : L.Lawful)
include hL

theorem length_digest {s : Dstate K R} (hs : Ready s) (hdig : s.state.digesting = true)
    (w : OneWay K R) (m : List UInt8) : (digest L s w m).length = s.diglen := by
  obtain ⟨h, hhf, hlen⟩ := hs.dig hdig
  rw [digest, hhf, hlen]
  cases h
  · exact hL.length_md4 _
  · exact hL.length_md5 _
  · exact hL.length_sha1 _

/-- The text that is encrypted: the digest and the message. -/
theorem length_digested {s : Dstate K R} (hs : Ready s) (m : List UInt8) :
    (if s.state.digesting then digest L s s.out m ++ m else m).length = m.length + s.diglen := by
  cases hdig : s.state.digesting with
  | true => rw [if_pos rfl, List.length_append, length_digest hL hs hdig, Nat.add_comm]
  | false => rw [if_neg (by decide), hs.nodig hdig, Nat.add_zero]

/-- The length of what is behind the header. -/
theorem length_sealed {s : Dstate K R} (hs : Ready s) (mem : Memory) (m : List UInt8) :
    (sealed L s mem m).2.length = m.length + s.diglen := by
  unfold sealed
  cases henc : s.state.encrypting with
  | true =>
    simp only [if_true]
    rw [length_encryptb hL (hs.enc henc), length_digested hL hs]
  | false =>
    simp only [Bool.false_eq_true, if_false]
    exact length_digested hL hs m

/-- A connection stays set up behind a record of whole blocks. -/
theorem ready_sent {s : Dstate K R} (hs : Ready s) (mem : Memory) {m : List UInt8}
    (hdvd : s.blocklen ∣ m.length + s.diglen) : Ready (sent L s mem m) := by
  refine ⟨hs.complete, hs.dig, hs.nodig, fun henc => ?_, hs.noenc⟩
  change s.state.encrypting = true at henc
  change CipherReady s.encryptalg (sealed L s mem m).1 s.blocklen
  simp only [sealed, henc, if_true]
  refine (encryptb_spec hL (hs.enc henc) mem.beyond ?_).1
  rw [length_digested hL hs]
  exact hdvd

/-- The digest that the reader makes of a message is the one that the writer made. -/
theorem checkdigestb_spec {s r : Dstate K R} (hs : Ready s) (h : Sync s r)
    (hdig : s.state.digesting = true) {m : List UInt8} {l : List (List UInt8)}
    (hl : l.flatten = digest L s s.out m ++ m) : checkdigestb L r l = true := by
  have hlen := length_digest hL hs hdig s.out m
  have hsame : digest L r r.in' m = digest L s s.out m := by
    rw [digest, digest, h.hf hdig, h.secret hdig, h.mid]
  rw [checkdigestb, hl, h.diglen, List.take_append_of_le_length hlen.ge,
    List.drop_append_of_le_length hlen.ge, List.drop_of_length_le hlen.le, List.nil_append, hsame]
  exact decide_eq_true rfl

/-- A string that starts with the digest: it is pulled up, checked and dropped. -/
theorem pullup_digest {s r : Dstate K R} (hs : Ready s) (h : Sync s r)
    (hdig : s.state.digesting = true) {m : List UInt8} {l : List (List UInt8)} (hne : l ≠ [])
    (hl : l.flatten = digest L s s.out m ++ m) :
    ∃ b, pullupblock l r.diglen = some b ∧ checkdigestb L r b = true ∧
      (dropDigest r b).flatten = m ∧ (dropDigest r b).length ≤ l.length := by
  have hlen := length_digest hL hs hdig s.out m
  obtain ⟨b, next, hpull, hfirst, -, hflat, hcount⟩ := pullupblock_spec (n := r.diglen) hne
    (by rw [hl, List.length_append, hlen, h.diglen]; omega)
  refine ⟨b :: next, hpull, checkdigestb_spec hL hs h hdig (hflat.trans hl), ?_, hcount⟩
  rw [dropDigest, List.flatten_cons, ← List.drop_append_of_le_length hfirst, ← List.flatten_cons,
    hflat, hl, h.diglen, ← hlen, List.drop_left]

/-- An encrypted message is decrypted to what was encrypted, with the same state behind it. -/
theorem decrypted_spec {s r : Dstate K R} (hs : Ready s) (h : Sync s r)
    (henc : s.state.encrypting = true) (mem : Memory) {m : List UInt8}
    (hdvd : s.blocklen ∣ m.length + s.diglen) {l : List (List UInt8)} (hne : l ≠ [])
    (hl : l.flatten = (sealed L s mem m).2) :
    ∃ qs, decryptb L r.encryptalg r.blocklen l.length r.in'.state l =
        some ((sealed L s mem m).1, qs) ∧
      qs.flatten = (if s.state.digesting then digest L s s.out m ++ m else m) ∧
      qs.length ≤ l.length ∧ qs ≠ [] := by
  rw [h.encryptalg henc, h.blocklen, h.cipher henc]
  have hready := hs.enc henc
  have hdvd' : s.blocklen ∣ l.flatten.length := by
    rw [hl, length_sealed hL hs]
    exact hdvd
  obtain ⟨qs, hdec, hqs, hcount, hqne⟩ := decryptb_spec hL hready l.length le_rfl hdvd'
  have hinv := (encryptb_spec hL hready mem.beyond
    (p := if s.state.digesting then digest L s s.out m ++ m else m)
    (by rw [length_digested hL hs]; exact hdvd)).2
  have hsealed : sealed L s mem m = encryptb L s.encryptalg s.out.state mem.beyond
      (if s.state.digesting then digest L s s.out m ++ m else m) := by
    simp only [sealed, henc, if_true]
  rw [hl, hsealed, hinv] at hdec hqs
  rw [hsealed]
  exact ⟨qs, hdec, hqs, hcount, hqne hne⟩

omit hL in
/-- Opening a message that is not encrypted. -/
theorem openMessage_of_noenc {r : Dstate K R} (henc : r.state.encrypting = false)
    (l : List (List UInt8)) (len : ℕ) : openMessage L r l len =
      if r.state.digesting then
        match pullupblock l r.diglen with
        | none => .error "ssl message too short (digesting)"
        | some b =>
            if checkdigestb L r b then .ok (r, dropDigest r b, len) else .error "bad digest"
      else .ok (r, l, len) := by
  obtain ⟨c, state, encryptalg, blocklen, diglen, hf, max, maxpad, inway, processed, unprocessed,
    out⟩ := r
  cases state with
  | Sincomplete => rfl
  | Sclear => rfl
  | Sencrypting => cases henc
  | Sdigesting => rfl
  | Sdigenc => cases henc

omit hL in
/-- Opening a message that is encrypted. -/
theorem openMessage_of_enc {r : Dstate K R} (henc : r.state.encrypting = true)
    {l : List (List UInt8)} (hne : l ≠ []) (len : ℕ) : openMessage L r l len =
      match decryptb L r.encryptalg r.blocklen l.length r.in'.state l with
      | none => .error "ssl encrypted message too short"
      | some (st, b) =>
          let r := { r with in' := { r.in' with state := st } }
          if r.state.digesting then
            match pullupblock b r.diglen with
            | none => .error "ssl message too short (dig+enc)"
            | some b =>
                if checkdigestb L r b then .ok (r, dropDigest r b, len - r.diglen)
                else .error "bad digest"
          else .ok (r, b, len) := by
  obtain ⟨c, state, encryptalg, blocklen, diglen, hf, max, maxpad, inway, processed, unprocessed,
    out⟩ := r
  cases state with
  | Sincomplete => cases henc
  | Sclear => cases henc
  | Sencrypting =>
    rw [openMessage]
    dsimp only
    rw [if_neg hne]
    cases decryptb L encryptalg blocklen l.length inway.state l <;> rfl
  | Sdigesting => cases henc
  | Sdigenc =>
    rw [openMessage]
    dsimp only
    cases decryptb L encryptalg blocklen l.length inway.state l <;> rfl

/-- Opening what was sealed. -/
theorem openMessage_spec {s r : Dstate K R} (hs : Ready s) (h : Sync s r) (mem : Memory)
    {m : List UInt8} (hdvd : s.blocklen ∣ m.length + s.diglen) {l : List (List UInt8)}
    (hne : l ≠ []) (hl : l.flatten = (sealed L s mem m).2) (len : ℕ) :
    ∃ st l', openMessage L r l len = .ok ({ r with in' := { r.in' with state := st } }, l',
        if s.state.encrypting && s.state.digesting then len - s.diglen else len) ∧
      l'.flatten = m ∧ l'.length ≤ l.length ∧
      (s.state.encrypting = true → st = (sealed L s mem m).1) := by
  have hrenc : r.state.encrypting = s.state.encrypting := congrArg _ h.state
  have hrdig : r.state.digesting = s.state.digesting := congrArg _ h.state
  cases henc : s.state.encrypting with
  | false =>
    rw [openMessage_of_noenc (hrenc.trans henc), hrdig]
    cases hdig : s.state.digesting with
    | false =>
      refine ⟨r.in'.state, l, rfl, ?_, le_rfl, fun h => by cases h⟩
      simp only [hl, sealed, henc, hdig, Bool.false_eq_true, if_false]
    | true =>
      have hl : l.flatten = digest L s s.out m ++ m := by
        simp only [hl, sealed, henc, hdig, Bool.false_eq_true, if_false, if_true]
      obtain ⟨b, hpull, hcheck, hflat, hcount⟩ := pullup_digest hL hs h hdig hne hl
      refine ⟨r.in'.state, dropDigest r b, ?_, hflat, hcount, fun h => by cases h⟩
      simp only [hpull, hcheck, if_true, Bool.false_and, Bool.false_eq_true, if_false]
  | true =>
    obtain ⟨qs, hdec, hqs, hcount, hqne⟩ := decrypted_spec hL hs h henc mem hdvd hne hl
    rw [openMessage_of_enc (hrenc.trans henc) hne, hdec]
    dsimp only
    rw [hrdig]
    cases hdig : s.state.digesting with
    | false =>
      rw [hdig] at hqs
      exact ⟨_, qs, rfl, hqs, hcount, fun _ => rfl⟩
    | true =>
      rw [hdig, if_pos rfl] at hqs
      obtain ⟨b, hpull, hcheck, hflat, hcount'⟩ := pullup_digest hL hs h hdig hqne hqs
      refine ⟨_, dropDigest r b, ?_, hflat, hcount'.trans hcount, fun _ => rfl⟩
      have hcheck' : checkdigestb L { r with in' := { r.in' with
          state := (sealed L s mem m).1 } } b = true := hcheck
      rw [← h.diglen, if_pos rfl, hpull]
      dsimp only
      rw [if_pos hcheck']
      rfl

/-- A message that is not of whole blocks is refused. -/
theorem openMessage_misfit {s r : Dstate K R} (hs : Ready s) (h : Sync s r)
    (henc : s.state.encrypting = true) {l : List (List UInt8)} (hne : l ≠ [])
    (hl : ¬ s.blocklen ∣ l.flatten.length) (len : ℕ) :
    openMessage L r l len = .error "ssl encrypted message too short" := by
  have hrenc : r.state.encrypting = s.state.encrypting := congrArg _ h.state
  rw [openMessage_of_enc (hrenc.trans henc) hne, h.encryptalg henc, h.blocklen, h.cipher henc,
    decryptb_none hL (hs.enc henc) _ hl]

end

/-! ### Headers -/

/-- The length in a header of two bytes. -/
theorem header_nopad {m : ℕ} (h : m < 32768) :
    ∃ b0 b1 : UInt8, header m 0 = [b0, b1] ∧ b0.toNat &&& 0x80 ≠ 0 ∧
      (b0.toNat &&& 0x7f) <<< 8 ||| b1.toNat = m := by
  have hbyte : ∀ x < 128, (x ||| 0x80) % 256 &&& 0x80 ≠ 0 ∧ (x ||| 0x80) % 256 &&& 0x7f = x := by
    decide
  have hx : m >>> 8 < 128 := by
    rw [Nat.shiftRight_eq_div_pow]
    omega
  refine ⟨_, _, rfl, ?_, ?_⟩
  · rw [toNat_uchar]
    exact (hbyte _ hx).1
  · rw [toNat_uchar, toNat_uchar, (hbyte _ hx).2,
      ← Nat.shiftLeft_add_eq_or_of_lt (by omega : m % 256 < 2 ^ 8), Nat.shiftLeft_eq,
      Nat.shiftRight_eq_div_pow]
    omega

/-- The length and the padding in a header of three bytes; only fourteen bits of the length are
kept. -/
theorem header_pad {m pad : ℕ} (h : m ≤ 16384) (hpad : pad ≠ 0) (hpad' : pad < 256) :
    ∃ b0 b1 b2 : UInt8, header m pad = [b0, b1, b2] ∧ b0.toNat &&& 0x80 = 0 ∧
      (b0.toNat &&& 0x3f) <<< 8 ||| b1.toNat = m % 16384 ∧ b2.toNat = pad := by
  have hbyte : ∀ x < 65, x % 256 &&& 0x80 = 0 ∧ x % 256 &&& 0x3f = x % 64 := by
    decide
  have hx : m >>> 8 < 65 := by
    rw [Nat.shiftRight_eq_div_pow]
    omega
  refine ⟨uchar (m >>> 8), uchar m, uchar pad, by rw [header, if_pos hpad], ?_, ?_, ?_⟩
  · rw [toNat_uchar]
    exact (hbyte _ hx).1
  · rw [toNat_uchar, toNat_uchar, (hbyte _ hx).2,
      ← Nat.shiftLeft_add_eq_or_of_lt (by omega : m % 256 < 2 ^ 8), Nat.shiftLeft_eq,
      Nat.shiftRight_eq_div_pow]
    omega
  · rw [toNat_uchar, Nat.mod_eq_of_lt hpad']

/-! ### Reading a record -/

/-- The front of a text that is held whole. -/
theorem front_eq {p x a y : List UInt8} (h : p ++ x = a ++ y) (hle : a.length ≤ p.length) :
    p.take a.length = a ∧ p.drop a.length ++ x = y := by
  constructor
  · rw [← List.take_append_of_le_length hle, h, List.take_left]
  · rw [← List.drop_append_of_le_length hle, h, List.drop_left]

namespace End

/-- The bytes that the connection and its transport hold. -/
def bytes (e : End K R) : List UInt8 := e.s.unprocessed.flatten ++ e.net.flatten.flatten

/-- A measure of what is left to read. -/
def weight (e : End K R) : ℕ :=
  Ssl.weight e.s.processed + Ssl.weight e.s.unprocessed + Ssl.weight e.net.flatten

end End

/-- The lengths of a record with `pad` bytes of padding are those of its header and its cipher. -/
structure Fits (s : Dstate K R) (text : List UInt8) (pad : ℕ) : Prop where
  dvd : s.blocklen ∣ text.length + pad + s.diglen
  nopad : pad = 0 → text.length + s.diglen < 32768
  pad : pad ≠ 0 → text.length + pad + s.diglen < 16384 ∧ pad < 256 ∧ s.state.encrypting = true

/-- The length of a record does not fit its header, or the blocks of its cipher. -/
def Misfits (s : Dstate K R) (text : List UInt8) (pad : ℕ) : Prop :=
  (pad ≠ 0 ∧ pad < 256 ∧ text.length + pad + s.diglen = 16384) ∨
    (pad = 0 ∧ text.length + s.diglen < 32768 ∧ s.state.encrypting = true ∧
      ¬ s.blocklen ∣ text.length + s.diglen)

section

variable (hL : L.Lawful)
include hL

/-- The whole message behind its header is read and opened. -/
theorem message_of_fits {s : Dstate K R} {e : End K R} (hs : Ready s) (h : Sync s e.s)
    (hnet : Delivers e.net) (mem : Memory) {text : List UInt8} {pad : ℕ} (hfit : Fits s text pad)
    (hd : List UInt8) {rest : List UInt8} (hhd : 2 ≤ hd.length)
    (hbytes : e.bytes = hd ++ (sealed L s mem (message mem text pad)).2 ++ rest)
    (hmore : hd.length < e.s.unprocessed.flatten.length ∨ pad ≠ 0) :
    ∃ e', e.message L hd.length ((message mem text pad).length + s.diglen) pad = (.ok (), e') ∧
      e'.s.processed.flatten = text ∧ Sync (sent L s mem (message mem text pad)) e'.s ∧
      e'.bytes = rest ∧ Delivers e'.net ∧
      e'.weight < Ssl.weight e.s.unprocessed + Ssl.weight e.net.flatten := by
  set m := message mem text pad with hm
  have hmlen : m.length = text.length + pad := length_message mem text pad
  have hslen := length_sealed hL hs mem m
  obtain ⟨l', net', hens, hn, hgrow, hflat, hdel, hweight⟩ :=
    ensure_ok (n := hd.length + (m.length + s.diglen)) (l := e.s.unprocessed) hnet (by
      change _ ≤ e.bytes.length
      rw [hbytes, List.length_append, List.length_append, hslen]
      omega)
  have hflat : l'.flatten ++ net'.flatten.flatten = hd ++ ((sealed L s mem m).2 ++ rest) := by
    rw [hflat, ← List.append_assoc]
    exact hbytes
  obtain ⟨-, hbody⟩ := front_eq hflat (by omega)
  rw [← flatten_consume] at hbody
  have hclen : (consume l' hd.length).flatten.length = l'.flatten.length - hd.length := by
    rw [flatten_consume, List.length_drop]
  have hcne : consume l' hd.length ≠ [] := fun h0 => by
    rw [h0, List.flatten_nil, List.length_nil] at hclen
    omega
  obtain ⟨htake, hrest⟩ := front_eq hbody (by omega)
  rw [hslen] at htake hrest
  rw [← flatten_qtake_rest] at hrest
  have hb : (qtake false (consume l' hd.length) (m.length + s.diglen)).1.flatten =
      (sealed L s mem m).2 := by
    rw [flatten_qtake, htake]
  have hdvd : s.blocklen ∣ m.length + s.diglen := hmlen ▸ hfit.dvd
  set r := qtake false (consume l' hd.length) (m.length + s.diglen) with hr
  set e₁ : Dstate K R := { e.s with unprocessed := r.2 } with he₁
  have hsync₁ : Sync s e₁ := ⟨h.state, h.encryptalg, h.blocklen, h.diglen, h.hf, h.secret, h.cipher,
    h.mid⟩
  obtain ⟨st, l'', hopen, hl'', hcount, hst⟩ := openMessage_spec hL hs hsync₁ mem hdvd
    (qtake_ne_nil _ hcne) hb (m.length + s.diglen)
  set len := if s.state.encrypting && s.state.digesting then m.length + s.diglen - s.diglen
    else m.length + s.diglen with hlen
  set processed := if pad ≠ 0 then (qtake true l'' (len - pad)).1 else l'' with hproc
  have htext : processed.flatten = text := by
    rw [hproc]
    by_cases hpad : pad = 0
    · rw [if_neg (not_not.mpr hpad), hl'', hm, message, hpad]
      simp
    · have henc := (hfit.pad hpad).2.2
      have hlen' : len - pad = text.length := by
        rw [hlen, henc, Bool.true_and]
        cases hdig : s.state.digesting with
        | true =>
          rw [if_pos rfl]
          omega
        | false =>
          rw [if_neg (by decide), hs.nodig hdig]
          omega
      rw [if_pos hpad, flatten_qtake, hl'', hlen', hm, message, List.take_left]
  have hplen : processed.length ≤ l''.length := by
    rw [hproc]
    split
    · exact (length_qtake true l'' _).1
    · exact le_rfl
  let s' : Dstate K R :=
    { e₁ with in' := { e.s.in' with state := st, mid := e.s.in'.mid + 1 }, processed := processed }
  refine ⟨⟨s', net'⟩, ?_, htext, ?_, hrest, hdel, ?_⟩
  · rw [End.message, End.ensure, hens]
    dsimp only
    rw [hopen]
  · exact ⟨h.state, h.encryptalg, h.blocklen, h.diglen, h.hf, h.secret, hst,
      congrArg (· + 1) h.mid⟩
  · -- the header makes up for the block that was cut in two
    have hcut : r.1.length + r.2.length ≤ (consume l' hd.length).length + 1 :=
      (length_qtake false (consume l' hd.length) (m.length + s.diglen)).2
    have hcount : l''.length ≤ r.1.length := hcount
    have hcons := length_consume l' hd.length
    have hsplit : r.1.flatten.length + r.2.flatten.length = l'.flatten.length - hd.length := by
      rw [← hclen, hr, flatten_qtake, flatten_qtake_rest, ← List.length_append,
        List.take_append_drop]
    have htl : processed.flatten.length ≤ r.1.flatten.length := by
      rw [htext, hb, hslen]
      omega
    change Ssl.weight processed + Ssl.weight r.2 + Ssl.weight net'.flatten < _
    simp only [Ssl.weight] at hweight ⊢
    omega

omit hL in
/-- With three bytes at hand the header is read; with fewer the call waits. -/
theorem next_spec {e : End K R} (hnet : Delivers e.net) :
    (e.bytes.length < 3 ∧ (e.next L).1 = .wait) ∨
      ∃ e' : End K R, e.next L = e'.headed L ∧ (∃ l, e'.s = { e.s with unprocessed := l }) ∧
        e'.bytes = e.bytes ∧ 3 ≤ e'.s.unprocessed.flatten.length ∧ Delivers e'.net ∧
        e'.weight ≤ e.weight := by
  rcases Nat.lt_or_ge e.bytes.length 3 with hshort | hlong
  · left
    have hens := ensure_wait hnet hshort
    refine ⟨hshort, ?_⟩
    unfold End.next End.ensure
    generalize ensure 3 e.net e.s.unprocessed = r at hens
    obtain ⟨r, l, net⟩ := r
    cases hens
    rfl
  · right
    obtain ⟨l', net', hens, hn, -, hflat, hdel, hweight⟩ :=
      ensure_ok (l := e.s.unprocessed) hnet hlong
    have hne : l' ≠ [] := fun h0 => by
      rw [h0, List.flatten_nil, List.length_nil] at hn
      omega
    obtain ⟨b, next, hpull, -, -, hflat₂, hcount₂⟩ := pullupblock_spec (n := 2) hne (by omega)
    refine ⟨⟨{ e.s with unprocessed := b :: next }, net'⟩, ?_, ⟨_, rfl⟩, ?_, ?_, hdel, ?_⟩
    · rw [End.next, End.ensure, hens]
      dsimp only
      rw [hpull]
    · change (b :: next).flatten ++ net'.flatten.flatten = _
      rw [hflat₂, hflat]
      rfl
    · change 3 ≤ (b :: next).flatten.length
      rw [hflat₂]
      exact hn
    · change Ssl.weight e.s.processed + Ssl.weight (b :: next) + Ssl.weight net'.flatten ≤
        Ssl.weight e.s.processed + Ssl.weight e.s.unprocessed + Ssl.weight e.net.flatten
      have : Ssl.weight (b :: next) ≤ Ssl.weight l' := by
        rw [Ssl.weight, Ssl.weight, hflat₂]
        omega
      omega

omit hL in
/-- The first bytes of what is held. -/
theorem getD_front {e : End K R} {hd y : List UInt8} (hbytes : e.bytes = hd ++ y)
    (hle : hd.length ≤ e.s.unprocessed.flatten.length) {i : ℕ} (hi : i < hd.length) :
    e.s.unprocessed.flatten.getD i 0 = hd.getD i 0 := by
  have hfront := (front_eq hbytes hle).1
  rw [List.getD_eq_getElem?_getD, List.getD_eq_getElem?_getD, ← hfront, List.getElem?_take_of_lt hi]

/-- A record whose lengths fit is opened. -/
theorem headed_of_fits {s : Dstate K R} {e : End K R} (hs : Ready s) (h : Sync s e.s)
    (hnet : Delivers e.net) (mem : Memory) {text : List UInt8} {pad : ℕ} (hfit : Fits s text pad)
    {rest : List UInt8}
    (hbytes : e.bytes = header ((message mem text pad).length + s.diglen) pad ++
      ((sealed L s mem (message mem text pad)).2 ++ rest))
    (hlen : 3 ≤ e.s.unprocessed.flatten.length) :
    ∃ e', e.headed L = (.ok (), e') ∧ e'.s.processed.flatten = text ∧
      Sync (sent L s mem (message mem text pad)) e'.s ∧ e'.bytes = rest ∧ Delivers e'.net ∧
      e'.weight < e.weight := by
  have hmlen := length_message mem text pad
  have hslen := length_sealed hL hs mem (message mem text pad)
  have hall : (message mem text pad).length + s.diglen ≤ e.bytes.length := by
    rw [hbytes, List.length_append, List.length_append, hslen]
    omega
  rcases eq_or_ne pad 0 with rfl | hpad
  · obtain ⟨b0, b1, hhd, hbit, hcount⟩ :=
      header_nopad (m := (message mem text 0).length + s.diglen) (by
        have := hfit.nopad rfl
        omega)
    rw [hhd] at hbytes
    have hget (i : ℕ) (hi : i < 2) : e.s.unprocessed.flatten.getD i 0 = [b0, b1].getD i 0 :=
      getD_front hbytes (by simp only [List.length_cons, List.length_nil]; omega) hi
    obtain ⟨l', net', hens, hn, hgrow, hflat, hdel, hweight⟩ :=
      ensure_ok (n := (message mem text 0).length + s.diglen) (l := e.s.unprocessed) hnet hall
    obtain ⟨e', hmsg, htext, hsync, hrest, hdel', hlt⟩ := message_of_fits hL
      (e := ⟨{ e.s with unprocessed := l' }, net'⟩) hs
      ⟨h.state, h.encryptalg, h.blocklen, h.diglen, h.hf, h.secret, h.cipher, h.mid⟩ hdel mem hfit
      [b0, b1] le_rfl (by rw [List.append_assoc]; exact hflat.trans hbytes)
      (.inl (by simp only [List.length_cons, List.length_nil]; omega))
    refine ⟨e', ?_, htext, hsync, hrest, hdel', hlt.trans_le ?_⟩
    · rw [End.headed]
      dsimp only
      rw [hget 0 (by decide), hget 1 (by decide), List.getD_cons_zero, List.getD_cons_succ,
        List.getD_cons_zero, if_pos hbit, hcount, End.ensure, hens]
      exact hmsg
    · rw [hweight]
      simp only [End.weight]
      omega
  · obtain ⟨hshort, hpad', henc⟩ := hfit.pad hpad
    obtain ⟨b0, b1, b2, hhd, hbit, hcount, hpadding⟩ :=
      header_pad (m := (message mem text pad).length + s.diglen) (by omega) hpad hpad'
    rw [hhd] at hbytes
    have hget (i : ℕ) (hi : i < 3) : e.s.unprocessed.flatten.getD i 0 = [b0, b1, b2].getD i 0 :=
      getD_front hbytes (by simpa using hlen) hi
    have hne : e.s.unprocessed ≠ [] := fun h0 => by
      rw [h0, List.flatten_nil, List.length_nil] at hlen
      omega
    obtain ⟨b, next, hpull, -, -, hflat, hblocks⟩ := pullupblock_spec hne hlen
    obtain ⟨e', hmsg, htext, hsync, hrest, hdel', hlt⟩ := message_of_fits hL
      (e := ⟨{ e.s with unprocessed := b :: next }, e.net⟩) hs
      ⟨h.state, h.encryptalg, h.blocklen, h.diglen, h.hf, h.secret, h.cipher, h.mid⟩ hnet mem hfit
      [b0, b1, b2] (by simp) (by
        rw [List.append_assoc, ← hbytes]
        exact congrArg (· ++ _) hflat)
      (.inr hpad)
    refine ⟨e', ?_, htext, hsync, hrest, hdel', hlt.trans_le ?_⟩
    · rw [End.headed]
      dsimp only
      rw [hget 0 (by decide), hget 1 (by decide), hget 2 (by decide)]
      simp only [List.getD_cons_zero, List.getD_cons_succ]
      rw [hbit, if_neg (fun h => h rfl), hpull, hcount, hpadding, Nat.mod_eq_of_lt (by omega)]
      dsimp only
      rw [if_neg (by omega)]
      exact hmsg
    · have : Ssl.weight (b :: next) ≤ Ssl.weight e.s.unprocessed := by
        rw [Ssl.weight, Ssl.weight, hflat]
        omega
      simp only [End.weight]
      omega

/-- A record whose lengths do not fit is refused. -/
theorem headed_of_misfit {s : Dstate K R} {e : End K R} (hs : Ready s) (h : Sync s e.s)
    (hnet : Delivers e.net) (mem : Memory) {text : List UInt8} {pad : ℕ}
    (hmis : Misfits s text pad) {rest : List UInt8}
    (hbytes : e.bytes = header ((message mem text pad).length + s.diglen) pad ++
      ((sealed L s mem (message mem text pad)).2 ++ rest))
    (hlen : 3 ≤ e.s.unprocessed.flatten.length) :
    ∃ msg, (e.headed L).1 = .error msg := by
  have hmlen := length_message mem text pad
  have hslen := length_sealed hL hs mem (message mem text pad)
  rcases hmis with ⟨hpad, hpad', hsize⟩ | ⟨rfl, hshort, henc, hdvd⟩
  · obtain ⟨b0, b1, b2, hhd, hbit, hcount, hpadding⟩ :=
      header_pad (m := (message mem text pad).length + s.diglen) (by omega) hpad hpad'
    rw [hhd] at hbytes
    have hget (i : ℕ) (hi : i < 3) : e.s.unprocessed.flatten.getD i 0 = [b0, b1, b2].getD i 0 :=
      getD_front hbytes (by simpa using hlen) hi
    have hne : e.s.unprocessed ≠ [] := fun h0 => by
      rw [h0, List.flatten_nil, List.length_nil] at hlen
      omega
    obtain ⟨b, next, hpull, -⟩ := pullupblock_spec hne hlen
    refine ⟨"bad pad in ssl message", ?_⟩
    rw [End.headed]
    dsimp only
    rw [hget 0 (by decide), hget 1 (by decide), hget 2 (by decide)]
    simp only [List.getD_cons_zero, List.getD_cons_succ]
    rw [hbit, if_neg (fun h => h rfl), hpull, hcount, hpadding]
    dsimp only
    rw [if_pos (by omega)]
  · obtain ⟨b0, b1, hhd, hbit, hcount⟩ :=
      header_nopad (m := (message mem text 0).length + s.diglen) (by omega)
    rw [hhd] at hbytes
    have hall : 2 + ((message mem text 0).length + s.diglen) ≤ e.bytes.length := by
      rw [hbytes, List.length_append, List.length_append, hslen]
      simp only [List.length_cons, List.length_nil]
      omega
    have hget (i : ℕ) (hi : i < 2) : e.s.unprocessed.flatten.getD i 0 = [b0, b1].getD i 0 :=
      getD_front hbytes (by simp only [List.length_cons, List.length_nil]; omega) hi
    obtain ⟨l₁, net₁, hens₁, -, hgrow, hflat₁, hdel₁, -⟩ :=
      ensure_ok (n := (message mem text 0).length + s.diglen) (l := e.s.unprocessed) hnet
        (by change _ ≤ e.bytes.length; omega)
    have hflat₁ : l₁.flatten ++ net₁.flatten.flatten = e.bytes := hflat₁
    obtain ⟨l₂, net₂, hens₂, hn, hgrow₂, hflat₂, -, -⟩ :=
      ensure_ok (n := 2 + ((message mem text 0).length + s.diglen)) (l := l₁) hdel₁
        (by rw [hflat₁]; exact hall)
    rw [hflat₁, hbytes] at hflat₂
    obtain ⟨-, hbody⟩ := front_eq hflat₂ (by simp only [List.length_cons, List.length_nil]; omega)
    have hclen : (consume l₂ 2).flatten.length = l₂.flatten.length - 2 := by
      rw [flatten_consume, List.length_drop]
    have hcne : consume l₂ 2 ≠ [] := fun h0 => by
      rw [h0, List.flatten_nil, List.length_nil] at hclen
      omega
    have htake : (qtake false (consume l₂ 2)
        ((message mem text 0).length + s.diglen)).1.flatten.length = text.length + s.diglen := by
      rw [flatten_qtake, List.length_take, hclen]
      omega
    have hopen := openMessage_misfit hL hs
      (r := { e.s with
        unprocessed := (qtake false (consume l₂ 2) ((message mem text 0).length + s.diglen)).2 })
      ⟨h.state, h.encryptalg, h.blocklen, h.diglen, h.hf, h.secret, h.cipher, h.mid⟩ henc
      (qtake_ne_nil ((message mem text 0).length + s.diglen) hcne) (by rw [htake]; exact hdvd)
      ((message mem text 0).length + s.diglen)
    refine ⟨"ssl encrypted message too short", ?_⟩
    rw [End.headed]
    dsimp only
    rw [hget 0 (by decide), hget 1 (by decide), List.getD_cons_zero, List.getD_cons_succ,
      List.getD_cons_zero, if_pos hbit, hcount, End.ensure, hens₁]
    dsimp only
    rw [End.message, End.ensure, hens₂]
    dsimp only
    rw [hopen]

end

end PlanNine.Ssl
