import PlanNine.Port.Ssl.Stream
import Mathlib.Tactic

/-!
# The ciphers of a connection

The text of a record is encrypted in one piece and decrypted block by block, as the transport has
cut it, each block pulled up to a multiple of the blocking length. The two agree, and leave the
same state, when the text itself is such a multiple; when it is not, it cannot be decrypted.

## Main definitions

* `CipherReady`: an algorithm with its state and its blocking length.

## Main results

* `encryptb_spec`: what is encrypted is decrypted.
* `decryptb_spec`, `decryptb_none`: decrypting a string of blocks.
-/

namespace PlanNine.Ssl

variable {K R : Type} {L : Libsec K R}

/-- An encryption algorithm, a state that is set up for it, and its blocking length. -/
inductive CipherReady : Encrypt → Cstate K R → ℕ → Prop
  | descbc (ds : DESstate K) (h : ds.ivec.length = 8) : CipherReady .DESCBC (.des ds) 8
  | desecb (ds : DESstate K) (h : ds.ivec.length = 8) : CipherReady .DESECB (.des ds) 8
  | rc4 (r : R) : CipherReady .RC4 (.rc4 r) 1

theorem CipherReady.blocklen {a : Encrypt} {st : Cstate K R} {blk : ℕ} (h : CipherReady a st blk) :
    blk = 8 ∨ blk = 1 := by
  cases h <;> simp

theorem rounds_of_dvd {n : ℕ} (h : 8 ∣ n) : n = 8 * ((n + 7) / 8) := by
  obtain ⟨k, rfl⟩ := h
  omega

theorem fill_of_dvd {n : ℕ} (h : 8 ∣ n) (beyond : ℕ → UInt8) :
    (List.range (8 * ((n + 7) / 8) - n)).map beyond = [] := by
  rw [← rounds_of_dvd h, Nat.sub_self]
  rfl

theorem length_whole (p : List UInt8) (beyond : ℕ → UInt8) :
    (p ++ (List.range (8 * ((p.length + 7) / 8) - p.length)).map beyond).length =
      8 * ((p.length + 7) / 8) := by
  rw [List.length_append, List.length_map, List.length_range]
  omega

section

variable (hL : L.Lawful)
include hL

theorem keeps_enc (k : K) (d : Bool) :
    ∀ b, b.length = 8 → (L.block_cipher k b d).length = 8 :=
  fun b hb => hL.length_block_cipher k b d hb

theorem length_encryptb {a : Encrypt} {st : Cstate K R} {blk : ℕ} (h : CipherReady a st blk)
    (beyond : ℕ → UInt8) (p : List UInt8) : (encryptb L a st beyond p).2.length = p.length := by
  cases h with
  | descbc ds hiv =>
    have hlen := (blockwise_keeps (keepsBlocks_cbcEncrypt (keeps_enc hL ds.expanded false)) _ hiv
      (length_whole p beyond)).1
    simp only [encryptb, List.length_take, hlen]
    omega
  | desecb ds hiv =>
    have hlen := (blockwise_keeps (keepsBlocks_ecbStep (keeps_enc hL ds.expanded false)) _ hiv
      (length_whole p beyond)).1
    simp only [encryptb, List.length_take, hlen]
    omega
  | rc4 r => exact hL.length_rc4 r p

/-- A text of whole blocks that is encrypted is decrypted, with the same state behind it. -/
theorem encryptb_spec {a : Encrypt} {st : Cstate K R} {blk : ℕ} (h : CipherReady a st blk)
    (beyond : ℕ → UInt8) {p : List UInt8} (hp : blk ∣ p.length) :
    CipherReady a (encryptb L a st beyond p).1 blk ∧
      decrypt L a st (encryptb L a st beyond p).2 = ((encryptb L a st beyond p).1, p) := by
  have hlen := length_encryptb hL h beyond p
  cases h with
  | descbc ds hiv =>
    have henc := keeps_enc hL ds.expanded false
    have hp' := rounds_of_dvd hp
    have hkeep := blockwise_keeps (keepsBlocks_cbcEncrypt henc) _ hiv hp'
    have hinv : blockwise 8 (cbcDecrypt fun b => L.block_cipher ds.expanded b true)
        ((p.length + 7) / 8) ds.ivec (blockwise 8 (cbcEncrypt fun b =>
          L.block_cipher ds.expanded b false) ((p.length + 7) / 8) ds.ivec p).1 = (p, _) :=
      cbc_inverse henc (fun b hb => hL.block_cipher_inverse ds.expanded b hb) _ hiv hp'
    have hq : encryptb L .DESCBC (.des ds) beyond p =
        (.des { ds with ivec := (blockwise 8 (cbcEncrypt fun b =>
          L.block_cipher ds.expanded b false) ((p.length + 7) / 8) ds.ivec p).2 },
          (blockwise 8 (cbcEncrypt fun b => L.block_cipher ds.expanded b false)
            ((p.length + 7) / 8) ds.ivec p).1) := by
      simp only [encryptb, fill_of_dvd hp, List.append_nil]
      rw [List.take_of_length_le (hkeep.1.trans hp'.symm).le]
    rw [hq] at hlen ⊢
    refine ⟨.descbc _ hkeep.2, ?_⟩
    simp only [decrypt, hlen, hinv]
  | desecb ds hiv =>
    have henc := keeps_enc hL ds.expanded false
    have hp' := rounds_of_dvd hp
    have hkeep := blockwise_keeps (keepsBlocks_ecbStep henc) _ hiv hp'
    have hinv : blockwise 8 (ecbStep fun b => L.block_cipher ds.expanded b true)
        ((p.length + 7) / 8) ds.ivec (blockwise 8 (ecbStep fun b =>
          L.block_cipher ds.expanded b false) ((p.length + 7) / 8) ds.ivec p).1 = (p, _) :=
      ecb_inverse henc (fun b hb => hL.block_cipher_inverse ds.expanded b hb) _ hiv hp'
    have hq : encryptb L .DESECB (.des ds) beyond p =
        (.des ds, (blockwise 8 (ecbStep fun b => L.block_cipher ds.expanded b false)
          ((p.length + 7) / 8) ds.ivec p).1) := by
      simp only [encryptb, fill_of_dvd hp, List.append_nil]
      rw [List.take_of_length_le (hkeep.1.trans hp'.symm).le]
    rw [hq] at hlen ⊢
    refine ⟨.desecb ds hiv, ?_⟩
    simp only [decrypt, hlen, hinv]
  | rc4 r =>
    refine ⟨.rc4 _, ?_⟩
    simp only [encryptb, decrypt, hL.rc4_inverse]

/-- A text in two parts, the first of whole blocks. -/
theorem decrypt_append {a : Encrypt} {st : Cstate K R} {blk : ℕ} (h : CipherReady a st blk)
    {p : List UInt8} (q : List UInt8) (hp : blk ∣ p.length) :
    CipherReady a (decrypt L a st p).1 blk ∧
      decrypt L a st (p ++ q) = ((decrypt L a (decrypt L a st p).1 q).1,
        (decrypt L a st p).2 ++ (decrypt L a (decrypt L a st p).1 q).2) := by
  have hrounds (hp : 8 ∣ p.length) :
      ((p ++ q).length + 7) / 8 = (p.length + 7) / 8 + (q.length + 7) / 8 := by
    obtain ⟨k, hk⟩ := hp
    rw [List.length_append]
    omega
  cases h with
  | descbc ds hiv =>
    have hkeeps : KeepsBlocks 8 (fun ivec => ivec.length = 8)
        (cbcDecrypt fun b => L.block_cipher ds.expanded b true) := fun iv b hiv hb =>
      ⟨by rw [cbcDecrypt, length_xorText (by rw [keeps_enc hL _ _ b hb, hiv]),
        keeps_enc hL _ _ b hb], hb⟩
    refine ⟨.descbc _ (blockwise_keeps hkeeps _ hiv (rounds_of_dvd hp)).2, ?_⟩
    simp only [decrypt, hrounds hp, blockwise_append _ _ _ (rounds_of_dvd hp)]
  | desecb ds hiv =>
    refine ⟨.desecb ds hiv, ?_⟩
    have hsame (n : ℕ) (p : List UInt8) :
        (blockwise 8 (ecbStep fun b => L.block_cipher ds.expanded b true) n ds.ivec p).2 =
          ds.ivec := by
      induction n generalizing p with
      | zero => rfl
      | succ n ih => exact ih _
    simp only [decrypt, hrounds hp, blockwise_append _ _ _ (rounds_of_dvd hp), hsame]
  | rc4 r =>
    refine ⟨.rc4 _, ?_⟩
    simp only [decrypt, hL.rc4_append]

theorem decrypt_nil {a : Encrypt} {st : Cstate K R} {blk : ℕ} (h : CipherReady a st blk) :
    decrypt L a st [] = (st, []) := by
  cases h with
  | descbc ds hiv => rfl
  | desecb ds hiv => rfl
  | rc4 r => simp only [decrypt, hL.rc4_nil]

/-- The first block of a string, pulled up to a multiple of the blocking length. -/
theorem pullup_whole {a : Encrypt} {st : Cstate K R} {blk : ℕ} (h : CipherReady a st blk)
    (b : List UInt8) (next : List (List UInt8)) :
    (∃ b' next', (if 1 < blk ∧ b.length % blk ≠ 0 then
        pullupblock (b :: next) (b.length + blk - b.length % blk) else some (b :: next)) =
          some (b' :: next') ∧ blk ∣ b'.length ∧ (b' :: next').flatten = (b :: next).flatten ∧
        next'.length ≤ next.length) ∨
      ((if 1 < blk ∧ b.length % blk ≠ 0 then
        pullupblock (b :: next) (b.length + blk - b.length % blk) else some (b :: next)) = none ∧
        ¬ blk ∣ (b :: next).flatten.length) := by
  rcases h.blocklen with rfl | rfl
  · by_cases hmod : b.length % 8 = 0
    · rw [if_neg fun h => h.2 hmod]
      exact .inl ⟨b, next, rfl, Nat.dvd_of_mod_eq_zero hmod, rfl, le_rfl⟩
    · rw [if_pos ⟨by decide, hmod⟩]
      by_cases hle : b.length + 8 - b.length % 8 ≤ (b :: next).flatten.length
      · obtain ⟨b', next', hpull, hlen, hcase, hflat, hcount⟩ :=
          pullupblock_spec (List.cons_ne_nil b next) hle
        refine .inl ⟨b', next', hpull, ?_, hflat, by simpa using hcount⟩
        rcases hcase with hcase | ⟨next'', hcase⟩
        · rw [hcase]
          omega
        · cases hcase
          omega
      · refine .inr ⟨pullupblock_none (Nat.not_le.mp hle), ?_⟩
        rw [List.flatten_cons, List.length_append] at hle ⊢
        omega
  · rw [if_neg fun h => by omega]
    exact .inl ⟨b, next, rfl, Nat.one_dvd _, rfl, le_rfl⟩

/-- A string of whole blocks is decrypted as its bytes are. -/
theorem decryptb_spec {a : Encrypt} {st : Cstate K R} {blk : ℕ} (h : CipherReady a st blk)
    (fuel : ℕ) {l : List (List UInt8)} (hfuel : l.length ≤ fuel) (hl : blk ∣ l.flatten.length) :
    ∃ qs, decryptb L a blk fuel st l = some ((decrypt L a st l.flatten).1, qs) ∧
      qs.flatten = (decrypt L a st l.flatten).2 ∧ qs.length ≤ l.length ∧ (l ≠ [] → qs ≠ []) := by
  induction fuel generalizing st l with
  | zero =>
    obtain rfl := List.length_eq_zero_iff.mp (Nat.le_zero.mp hfuel)
    rw [List.flatten_nil, decrypt_nil hL h]
    exact ⟨[], by rw [decryptb], rfl, le_rfl, fun h => absurd rfl h⟩
  | succ fuel ih =>
    cases l with
    | nil =>
      rw [List.flatten_nil, decrypt_nil hL h]
      exact ⟨[], by rw [decryptb], rfl, le_rfl, fun h => absurd rfl h⟩
    | cons b next =>
      rcases pullup_whole hL h b next with
        ⟨b', next', hwhole, hdvd, hflat, hcount⟩ | ⟨-, hnot⟩
      · have hrest : blk ∣ next'.flatten.length := by
          rw [← hflat, List.flatten_cons, List.length_append] at hl
          exact (Nat.dvd_add_right hdvd).mp hl
        obtain ⟨hready, happ⟩ := decrypt_append hL h next'.flatten hdvd
        obtain ⟨qs, hdec, hqs, hlen, -⟩ := ih hready (l := next')
          (hcount.trans (Nat.succ_le_succ_iff.mp hfuel)) hrest
        rw [← hflat, List.flatten_cons, happ]
        refine ⟨(decrypt L a st b').2 :: qs, ?_, ?_, ?_, fun _ => List.cons_ne_nil _ _⟩
        · rw [decryptb]
          dsimp only
          rw [hwhole]
          dsimp only
          rw [hdec]
          rfl
        · rw [List.flatten_cons, hqs]
        · simp only [List.length_cons]
          omega
      · exact absurd hl hnot

/-- A string that is not of whole blocks cannot be decrypted. -/
theorem decryptb_none {a : Encrypt} {st : Cstate K R} {blk : ℕ} (h : CipherReady a st blk)
    (fuel : ℕ) {l : List (List UInt8)} (hl : ¬ blk ∣ l.flatten.length) :
    decryptb L a blk fuel st l = none := by
  induction fuel generalizing st l with
  | zero =>
    cases l with
    | nil => exact absurd (Nat.dvd_zero blk) hl
    | cons b next => rw [decryptb]
  | succ fuel ih =>
    cases l with
    | nil => exact absurd (Nat.dvd_zero blk) hl
    | cons b next =>
      rw [decryptb]
      dsimp only
      rcases pullup_whole hL h b next with
        ⟨b', next', hwhole, hdvd, hflat, -⟩ | ⟨hwhole, -⟩
      · have hrest : ¬ blk ∣ next'.flatten.length := fun hd => hl <| by
          rw [← hflat, List.flatten_cons, List.length_append]
          exact Nat.dvd_add hdvd hd
        rw [hwhole]
        dsimp only
        rw [ih (decrypt_append hL h [] hdvd).1 hrest]
        rfl
      · rw [hwhole]

end

end PlanNine.Ssl
