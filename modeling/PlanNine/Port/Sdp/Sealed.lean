import PlanNine.Port.Sdp.Wrap

/-!
# Sealed payloads

What the cipher of one end makes of a payload the cipher of the other end opens, in whatever order
the packets come. DES carries its initial vector in each packet. RC4 carries the position in the
key stream; the receiver keeps a generator at the position that comes next and one further back.

## Main definitions

* `Sealing`: a cipher with its key.
* `Sealing.Seals`: what a payload becomes at a position of the key stream.
* `Sealing.Encrypts`, `Sealing.Decrypts`: the directions that are set up so.
* `Tracks`: the generators of a receiver are where their counters say.

## Main results

* `encipher_seals`: the outbound direction seals a payload and moves on behind it.
* `undoCipher_seals`: the inbound direction opens it or refuses it, and never opens it wrong.
-/

namespace PlanNine.Sdp

open Kern

variable {L : Libsec}

/-- A cipher with its key. -/
inductive Sealing where
  | null
  | des (key : List UInt8)
  | rc4 (key : List UInt8)
  deriving DecidableEq, Repr

/-- The generators of a receiver that has come to `pos`: both stand where their counters say, and
the old one is not ahead of the current one. -/
structure Tracks (key : List UInt8) (pos : ℕ) (cr : CipherRc4) : Prop where
  current : cr.current = ⟨key, pos⟩
  cseq : cr.cseq = pos
  lt : pos < 2147483648
  old : cr.ovalid = true → cr.old = ⟨key, cr.oseq⟩ ∧ cr.oseq ≤ pos

namespace Sealing

/-- What a packet carries for the payload `b`, at the position `pos` of the key stream. -/
def Seals (L : Libsec) : Sealing → ℕ → List UInt8 → List UInt8 → Prop
  | .null, _, b, c => c = b
  | .des key, _, b, c => ∃ pad zs ivec n, ivec.length = 8 ∧ zs.length + 1 = pad ∧ pad ≤ 8 ∧
      8 ∣ b.length + pad ∧ b.length + pad ≤ n ∧
      c = ivec ++ (desencryptLoop L key n ivec (b ++ (zs ++ [uchar pad]))).1
  | .rc4 key, pos, b, c => c = hnputl pos ++ (PlanNine.Sdp.rc4 L ⟨key, pos⟩ b).2

/-- The direction seals the next payload at the position `pos`. An outbound cipher may be left
over from an algorithm given up before, but it has no state. -/
def Encrypts : Sealing → ℕ → OneWay → Prop
  | .null, _, s => s.cipherstate = none ∧ s.cipherivlen = 0 ∧ s.cipherblklen = 0
  | .des key, _, s => s.cipher = some .desencrypt ∧
      (∃ ivec, s.cipherstate = some (.des key ivec) ∧ ivec.length = 8) ∧
      s.cipherivlen = 8 ∧ s.cipherblklen = 8
  | .rc4 key, pos, s => s.cipher = some .rc4encrypt ∧
      (∃ cr, s.cipherstate = some (.rc4 cr) ∧ cr.current = ⟨key, pos⟩ ∧ cr.cseq = pos) ∧
      s.cipherivlen = 4 ∧ s.cipherblklen = 1

/-- The direction opens payloads, and expects the next one at the position `pos`. -/
def Decrypts : Sealing → ℕ → OneWay → Prop
  | .null, _, r => r.cipher = none
  | .des key, _, r => r.cipher = some .desdecrypt ∧
      (∃ ivec, r.cipherstate = some (.des key ivec)) ∧ r.cipherivlen = 8 ∧ r.cipherblklen = 8
  | .rc4 key, pos, r => r.cipher = some .rc4decrypt ∧
      (∃ cr, r.cipherstate = some (.rc4 cr) ∧ Tracks key pos cr) ∧
      r.cipherivlen = 4 ∧ r.cipherblklen = 1

/-- The counters of RC4 tell positions apart up to here. -/
def Room : Sealing → ℕ → Prop
  | .rc4 _, n => n < 2147483648
  | _, _ => True

end Sealing

/-! ### Sealing -/

theorem length_rc4 (st : RC4state) (p : List UInt8) : (rc4 L st p).2.length = p.length := by
  simp [rc4]

theorem rc4_rc4 (st : RC4state) (p : List UInt8) : (rc4 L st (rc4 L st p).2).2 = p := by
  refine List.ext_getElem (by rw [length_rc4, length_rc4]) fun i h₁ h₂ => ?_
  simp [rc4, UInt8.xor_assoc]

/-- A cipher without its state refuses a packet or is a fault. -/
theorem run_cipher_missing {f : CipherFn} {ow : OneWay} (h : ow.cipherstate = none)
    (p : List UInt8) (n : ℤ) :
    f.run L ow p n = none ∨ f.run L ow p n = some (false, ow, p) := by
  cases f <;> simp only [CipherFn.run, desencrypt, desdecrypt, rc4encrypt, rc4decrypt, h] <;>
    split_ifs <;> simp

theorem seals_null {s : OneWay} {pos : ℕ} (h : Sealing.null.Encrypts pos s) (b : List UInt8) :
    encipher L s (List.replicate s.cipherivlen 0 ++ b ++ padding s b.length) = none ∨
      encipher L s (List.replicate s.cipherivlen 0 ++ b ++ padding s b.length) = some (s, b) := by
  obtain ⟨hst, hiv, hblk⟩ := h
  have hbody : List.replicate s.cipherivlen 0 ++ b ++ padding s b.length = b := by
    simp [padding, hiv, hblk]
  rw [hbody]
  rcases hf : s.cipher with _ | f
  · exact .inr (encipher_none hf b)
  · rw [encipher_some hf]
    rcases run_cipher_missing (L := L) (f := f) hst b b.length with hrun | hrun <;> rw [hrun]
    · exact .inl rfl
    · exact .inr rfl

theorem seals_rc4 {s : OneWay} {key : List UInt8} {pos : ℕ} (h : (Sealing.rc4 key).Encrypts pos s)
    {b : List UInt8} (hroom : pos + b.length < 2147483648) :
    ∃ st c, encipher L s (List.replicate s.cipherivlen 0 ++ b ++ padding s b.length) =
        some ({ s with cipherstate := st }, c) ∧ (Sealing.rc4 key).Seals L pos b c ∧
      (Sealing.rc4 key).Encrypts (pos + b.length) { s with cipherstate := st } := by
  obtain ⟨hs, ⟨cr, hst, hcur, hseq⟩, hiv, hblk⟩ := h
  have hbody : List.replicate s.cipherivlen 0 ++ b ++ padding s b.length =
      List.replicate 4 0 ++ b := by
    simp [padding, hblk, hiv]
  have hlen : (List.replicate 4 (0 : UInt8) ++ b).length = b.length + 4 := by
    rw [List.length_append, List.length_replicate, add_comm]
  have hdrop : (List.replicate 4 (0 : UInt8) ++ b).drop 4 = b := List.drop_left' rfl
  rw [hbody]
  have henc : rc4encrypt L s (List.replicate 4 0 ++ b) _ = _ :=
    rc4encrypt_eq (n := ((List.replicate 4 (0 : UInt8) ++ b).length : ℤ)) hst (by omega)
  rw [hdrop, hlen, Nat.add_sub_cancel] at henc
  refine ⟨some (.rc4 { cr with
    current := (rc4 L cr.current b).1, cseq := (cr.cseq + b.length) % 4294967296 }),
    hnputl cr.cseq ++ (rc4 L cr.current b).2, ?_, ?_, hs, ⟨_, rfl, ?_, ?_⟩, hiv, hblk⟩
  · rw [encipher_some hs, CipherFn.run, hlen, henc, Option.map_some]
  · rw [Sealing.Seals, hcur, hseq]
  · rw [hcur]
    rfl
  · simp only [hseq]
    omega

/-- A payload is sealed and the direction moves on behind it, unless a cipher left over has no
state. -/
theorem encipher_seals {e : Sealing} {s : OneWay} {pos : ℕ} (h : e.Encrypts pos s)
    {b : List UInt8} (hroom : e.Room (pos + b.length)) :
    (e = .null ∧ s.cipher ≠ none ∧
      encipher L s (List.replicate s.cipherivlen 0 ++ b ++ padding s b.length) = none) ∨
    ∃ st c, encipher L s (List.replicate s.cipherivlen 0 ++ b ++ padding s b.length) =
        some ({ s with cipherstate := st }, c) ∧ e.Seals L pos b c ∧
      e.Encrypts (pos + b.length) { s with cipherstate := st } := by
  cases e with
  | null =>
    rcases seals_null (L := L) h b with hnone | hsome
    · refine .inl ⟨rfl, fun hc => ?_, hnone⟩
      rw [encipher_none hc] at hnone
      exact absurd hnone (by simp)
    · exact .inr ⟨s.cipherstate, b, hsome, rfl, h⟩
  | des key =>
    obtain ⟨hs, ⟨ivec, hst, hivec⟩, hiv, hblk⟩ := h
    obtain ⟨pad, zs, last, n, henc, hlast, hzs, hle, h8, hn⟩ :=
      encipher_des (L := L) hs hst hivec hiv hblk b
    exact .inr ⟨_, _, henc, ⟨pad, zs, ivec, n, hivec, hzs, hle, h8, hn, rfl⟩, hs,
      ⟨last, rfl, hlast⟩, hiv, hblk⟩
  | rc4 key => exact .inr (seals_rc4 h hroom)

/-! ### Opening -/

section

variable {key : List UInt8} {pos p : ℕ} {cr : CipherRc4}

/-- Moving the old generator up keeps it where its counter says. -/
theorem Tracks.moveold (h : Tracks key pos cr) : Tracks key pos (moveold cr) := by
  have hpos := h.lt
  unfold PlanNine.Sdp.moveold
  split_ifs with hv
  · obtain ⟨hold, hle⟩ := h.old hv
    have hdd : long (ulong ((cr.cseq : ℤ) - RC4back - cr.oseq)) =
        (cr.cseq : ℤ) - RC4back - cr.oseq := by
      have hb : (RC4back : ℤ) = 102400 := rfl
      refine long_ulong_of_small ?_ ?_ <;> rw [h.cseq] <;> omega
    dsimp only
    split_ifs with hd
    · rw [hdd, h.cseq] at hd
      have hb : (RC4back : ℤ) = 102400 := rfl
      refine ⟨h.current, h.cseq, h.lt, fun _ => ?_⟩
      have hseq : ulong ((cr.oseq : ℤ) + long (ulong ((cr.cseq : ℤ) - RC4back - cr.oseq))) =
          cr.oseq + (pos - 102400 - cr.oseq) := by
        rw [hdd, h.cseq, ulong]
        omega
      dsimp only
      rw [hseq, hold, rc4skip, hdd, h.cseq, RC4state.mk.injEq]
      refine ⟨⟨rfl, ?_⟩, by omega⟩
      dsimp only
      omega
    · exact h
  · exact h

variable {r : OneWay} {b c : List UInt8} {n : ℤ}

/-- The sequence number of a packet, and its bytes behind that. -/
theorem seals_parts (hc : (Sealing.rc4 key).Seals L pos b c) (hroom : pos < 2147483648) :
    nhgetl c = pos ∧ c.take 4 = hnputl pos ∧ c.drop 4 = (rc4 L ⟨key, pos⟩ b).2 := by
  rw [hc]
  refine ⟨?_, List.take_left' rfl, List.drop_left' rfl⟩
  rw [nhgetl_hnputl_append]
  omega

/-- What `rc4decrypt` does with a packet, by its distance from the byte expected. -/
theorem Tracks.rc4decrypt_eq (h : Tracks key p cr) (hst : r.cipherstate = some (.rc4 cr))
    (hn : 4 ≤ n) (hc : (Sealing.rc4 key).Seals L pos b c) (hroom : pos + b.length < 2147483648) :
    rc4decrypt L r c n =
      if pos = p then
        some (true, { r with cipherstate := some (.rc4 (PlanNine.Sdp.moveold { cr with
          current := ⟨key, pos + b.length⟩, cseq := pos + b.length
          ovalid := cr.ovalid &&
            !decide (long (ulong (((pos + b.length : ℕ) : ℤ) - cr.lgseq)) > RC4back) })) },
          hnputl pos ++ b)
      else if p < pos then
        if p + RC4forward < pos then some (false, r, c)
        else
          some (true, { r with cipherstate := some (.rc4 (PlanNine.Sdp.moveold { cr with
            current := ⟨key, pos + b.length⟩, cseq := pos + b.length, lgseq := pos, ovalid := true
            oseq := if cr.ovalid then cr.oseq else p
            old := if cr.ovalid then cr.old else ⟨key, p⟩ })) },
            hnputl pos ++ b)
      else if cr.ovalid = true ∧ p ≤ pos + RC4back ∧ cr.oseq ≤ pos then
        some (true, r, hnputl pos ++ b)
      else some (false, r, c) := by
  have hp := h.lt
  have hn' : ¬ n < 4 := by omega
  obtain ⟨hpos, htake, hdrop⟩ := seals_parts hc (by omega)
  have hfwd : (RC4forward : ℤ) = 10485760 := rfl
  have hback : (RC4back : ℤ) = 102400 := rfl
  have hd : long (ulong ((pos : ℤ) - cr.cseq)) = (pos : ℤ) - p := by
    rw [h.cseq]
    exact long_ulong_of_small (by omega) (by omega)
  have hself : ({ r with cipherstate := some (.rc4 cr) } : OneWay) = r := by rw [← hst]
  rw [Sdp.rc4decrypt, if_neg hn', hst]
  dsimp only
  rw [hpos, hd, hdrop, htake]
  rcases lt_trichotomy p pos with hlt | rfl | hgt
  · -- packets are missing: the key stream is skipped
    rw [if_neg (by omega), if_pos (by omega)]
    by_cases hfar : p + RC4forward < pos
    · rw [if_pos (by omega), if_neg hlt.ne', if_pos hlt, if_pos hfar]
    have hskip : rc4skip cr.current ((pos : ℤ) - p) = ⟨key, pos⟩ := by
      rw [h.current, rc4skip, RC4state.mk.injEq]
      refine ⟨rfl, ?_⟩
      dsimp only
      omega
    have hmod : (pos + b.length) % 4294967296 = pos + b.length := Nat.mod_eq_of_lt (by omega)
    rw [if_neg (by omega), if_neg hlt.ne', if_pos hlt, if_neg hfar]
    by_cases hv : cr.ovalid = true
    · simp only [if_pos hv, hskip, length_rc4, rc4_rc4, hmod]
      simp [rc4, hv]
    · rw [h.current] at hskip
      simp only [if_neg hv, hskip, length_rc4, rc4_rc4, hmod, h.current, h.cseq]
      simp [rc4]
  · -- the packet that comes next
    have hmod : (p + b.length) % 4294967296 = p + b.length := Nat.mod_eq_of_lt (by omega)
    rw [if_pos (by omega), if_pos rfl, h.current, h.cseq, length_rc4, rc4_rc4]
    simp [rc4, hmod]
  · -- a packet that comes late
    have hne : pos ≠ p := hgt.ne
    rw [if_neg (by omega), if_neg (by omega)]
    by_cases hv : cr.ovalid = true
    swap
    · rw [if_pos (.inl hv), if_neg hne, if_neg hgt.asymm, if_neg (fun h => hv h.1)]
    obtain ⟨hold, hle⟩ := h.old hv
    have hsmall : long (ulong ((pos : ℤ) - cr.oseq)) = (pos : ℤ) - cr.oseq :=
      long_ulong_of_small (by omega) (by omega)
    rw [hsmall]
    by_cases hreach : p ≤ pos + RC4back ∧ cr.oseq ≤ pos
    · have hskip : rc4skip cr.old ((pos : ℤ) - cr.oseq) = ⟨key, pos⟩ := by
        rw [hold, rc4skip, RC4state.mk.injEq]
        refine ⟨rfl, ?_⟩
        dsimp only
        omega
      have hopen : ¬(-((pos : ℤ) - p) > RC4back ∨ (pos : ℤ) - cr.oseq < 0) := by omega
      rw [if_neg (not_or.mpr ⟨not_not.mpr hv, hopen⟩), if_neg hne, if_neg hgt.asymm,
        if_pos ⟨hv, hreach⟩, hskip, rc4_rc4, hself]
    · have hrefuse : -((pos : ℤ) - p) > RC4back ∨ (pos : ℤ) - cr.oseq < 0 := by
        rcases not_and_or.mp hreach with hfar | hbefore <;> omega
      rw [if_pos (.inr hrefuse), if_neg hne, if_neg hgt.asymm, if_neg (fun h => hreach h.2)]

/-- A receiver opens a packet of RC4 or refuses it, and the one it expects it opens. -/
theorem Tracks.rc4decrypt (h : Tracks key p cr)
    (hst : r.cipherstate = some (.rc4 cr)) (hn : 4 ≤ n)
    (hc : (Sealing.rc4 key).Seals L pos b c) (hroom : pos + b.length < 2147483648) :
    ∃ ok cr' p', rc4decrypt L r c n = some (ok, { r with cipherstate := some (.rc4 cr') },
        if ok then hnputl pos ++ b else c) ∧
      Tracks key p' cr' ∧ (p = pos → ok = true ∧ p' = pos + b.length) := by
  have hself : ({ r with cipherstate := some (.rc4 cr) } : OneWay) = r := by rw [← hst]
  rw [h.rc4decrypt_eq hst hn hc hroom]
  by_cases heq : pos = p
  · rw [if_pos heq]
    refine ⟨true, _, pos + b.length, rfl, Tracks.moveold ⟨rfl, rfl, hroom, fun hv => ?_⟩,
      fun _ => ⟨rfl, rfl⟩⟩
    obtain ⟨hold, hle⟩ := h.old (Bool.and_eq_true_iff.mp hv).1
    exact ⟨hold, by dsimp only; omega⟩
  rw [if_neg heq]
  by_cases hlt : p < pos
  · rw [if_pos hlt]
    by_cases hfar : p + RC4forward < pos
    · rw [if_pos hfar]
      exact ⟨false, cr, p, by rw [hself]; rfl, h, fun heq => absurd heq (by omega)⟩
    rw [if_neg hfar]
    refine ⟨true, _, pos + b.length, rfl, Tracks.moveold ⟨rfl, rfl, hroom, fun _ => ?_⟩,
      fun heq => absurd heq (by omega)⟩
    dsimp only
    split_ifs with hv
    · obtain ⟨hold, hle⟩ := h.old hv
      exact ⟨hold, by omega⟩
    · exact ⟨rfl, by omega⟩
  · rw [if_neg hlt]
    split_ifs
    · exact ⟨true, cr, p, by rw [hself]; rfl, h, fun heq => absurd heq (by omega)⟩
    · exact ⟨false, cr, p, by rw [hself]; rfl, h, fun heq => absurd heq (by omega)⟩

end

/-- The inbound direction opens a sealed payload or refuses it, and it opens the one it expects. -/
theorem undoCipher_seals (hL : InversePair L) {e : Sealing} {r : OneWay} {p pos : ℕ}
    (h : e.Decrypts p r) {b c : List UInt8} (hc : e.Seals L pos b c)
    (hroom : e.Room (pos + b.length)) {blk : Block} (hdata : blk.data = c)
    (hblen : blk.blen = c.length) (hwp : blk.wp ≤ blk.buf.length) :
    ∃ ok st b' p', undoCipher L r blk = some (ok, { r with cipherstate := st }, b') ∧
      e.Decrypts p' { r with cipherstate := st } ∧ (ok = true → b'.data = b) ∧
      (p = pos → ok = true ∧ p' = pos + b.length) := by
  cases e with
  | null =>
    refine ⟨true, r.cipherstate, blk, pos + b.length, undoCipher_none h blk, h, fun _ => ?_,
      fun _ => ⟨rfl, rfl⟩⟩
    rw [hdata]
    exact hc
  | des key =>
    obtain ⟨hr, ⟨ivec', hrst⟩, hriv, hrblk⟩ := h
    obtain ⟨pad, zs, ivec, n, hivec, hzs, hle, h8, hn, rfl⟩ := hc
    obtain ⟨ivec'', b', hundo, hb'⟩ := undoCipher_des hL hr hrst hriv hrblk hivec hzs hle h8 hn
      hdata (by rw [hblen, hdata]) hwp
    exact ⟨true, _, b', pos + b.length, hundo, ⟨hr, ⟨ivec'', rfl⟩, hriv, hrblk⟩, fun _ => hb',
      fun _ => ⟨rfl, rfl⟩⟩
  | rc4 key =>
    obtain ⟨hr, ⟨cr, hrst, htracks⟩, hriv, hrblk⟩ := h
    have hlen : c.length = 4 + b.length := by
      rw [hc, List.length_append, length_hnputl, length_rc4]
    obtain ⟨ok, cr', p', hrun, htracks', hnext⟩ := htracks.rc4decrypt (n := blk.blen) hrst
      (by rw [hblen, hlen]; omega) hc hroom
    rw [← hdata] at hrun
    rcases ok with _ | _
    · exact ⟨false, _, blk, p', undoCipher_of_refuse hr hrun,
        ⟨hr, ⟨cr', rfl, htracks'⟩, hriv, hrblk⟩,
        fun hok => absurd hok (by decide), fun heq => absurd (hnext heq).1 (by decide)⟩
    · refine ⟨true, _, _, p', undoCipher_of_stream hr hrun (by exact hrblk.le),
        ⟨hr, ⟨cr', rfl, htracks'⟩, hriv, hrblk⟩, fun _ => ?_, hnext⟩
      have hblen' : blk.blen = (hnputl pos ++ b).length := by
        rw [hblen, hlen, List.length_append, length_hnputl]
      have hopen := data_write hblen' hwp 4 0
      have hrest : (hnputl pos ++ b).drop 4 = b := List.drop_left' rfl
      rw [Nat.sub_zero (hnputl pos ++ b).length, List.take_length, hrest] at hopen
      dsimp only
      rw [hriv]
      exact hopen

end PlanNine.Sdp
