import Mathlib.Tactic

/-!
# Transforming a text block by block

A text is cut into blocks of one length, and each is transformed with a state that the one before it
left. Where a second transformation undoes the first on each block, and goes on with the same state,
it undoes the whole text. Chained block ciphers are the case in point.

## Main definitions

* `blockwise k f n s p`: the first `n` blocks of `k` entries of `p`, transformed by `f`.
* `cbcEncrypt`, `cbcDecrypt`: one block of a chained block cipher.

## Main results

* `blockwise_append`: a text in two parts.
* `blockwise_inverse`: the text and the state behind it, from an inverse on each block.
* `cbc_inverse`: chained decryption undoes chained encryption.
-/

namespace PlanNine

section Blockwise

variable {α σ : Type*}

/-- Transform the first `n` blocks of `k` entries of a text, and drop the rest. -/
def blockwise (k : ℕ) (f : σ → List α → List α × σ) : ℕ → σ → List α → List α × σ
  | 0, s, _ => ([], s)
  | n + 1, s, p =>
      let r := f s (p.take k)
      let rest := blockwise k f n r.2 (p.drop k)
      (r.1 ++ rest.1, rest.2)

variable {k : ℕ} {f g : σ → List α → List α × σ} {Inv : σ → Prop}

/-- A transformation of one block keeps its length, and an invariant of the state. -/
def KeepsBlocks (k : ℕ) (Inv : σ → Prop) (f : σ → List α → List α × σ) : Prop :=
  ∀ s b, Inv s → b.length = k → (f s b).1.length = k ∧ Inv (f s b).2

theorem blockwise_keeps (hf : KeepsBlocks k Inv f) (n : ℕ) {s : σ} (hs : Inv s) {p : List α}
    (hp : p.length = k * n) :
    (blockwise k f n s p).1.length = k * n ∧ Inv (blockwise k f n s p).2 := by
  induction n generalizing s p with
  | zero => exact ⟨rfl, hs⟩
  | succ n ih =>
    have htake : (p.take k).length = k := by
      rw [List.length_take, hp, Nat.mul_succ]
      omega
    have hdrop : (p.drop k).length = k * n := by
      rw [List.length_drop, hp, Nat.mul_succ]
      omega
    obtain ⟨hlen, hinv⟩ := hf s _ hs htake
    obtain ⟨hlen', hinv'⟩ := ih hinv hdrop
    refine ⟨?_, hinv'⟩
    rw [blockwise, List.length_append, hlen, hlen', Nat.mul_succ, Nat.add_comm]

theorem blockwise_append (m n : ℕ) (s : σ) {p q : List α} (hp : p.length = k * m) :
    blockwise k f (m + n) s (p ++ q) =
      ((blockwise k f m s p).1 ++ (blockwise k f n (blockwise k f m s p).2 q).1,
        (blockwise k f n (blockwise k f m s p).2 q).2) := by
  induction m generalizing s p with
  | zero =>
    rw [Nat.mul_zero] at hp
    rw [List.length_eq_zero_iff.mp hp, Nat.zero_add]
    rfl
  | succ m ih =>
    have hle : k ≤ p.length := by
      rw [hp, Nat.mul_succ]
      omega
    have hdrop : (p.drop k).length = k * m := by
      rw [List.length_drop, hp, Nat.mul_succ]
      omega
    rw [Nat.succ_add, blockwise, List.take_append_of_le_length hle,
      List.drop_append_of_le_length hle, ih _ hdrop]
    simp only [blockwise, List.append_assoc]

/-- Where `g` undoes `f` on each block and leaves the same state, it undoes the text. -/
theorem blockwise_inverse (hf : KeepsBlocks k Inv f)
    (hg : ∀ s b, Inv s → b.length = k → g s (f s b).1 = (b, (f s b).2)) (n : ℕ) {s : σ}
    (hs : Inv s) {p : List α} (hp : p.length = k * n) :
    blockwise k g n s (blockwise k f n s p).1 = (p, (blockwise k f n s p).2) := by
  induction n generalizing s p with
  | zero =>
    rw [Nat.mul_zero] at hp
    rw [List.length_eq_zero_iff.mp hp]
    rfl
  | succ n ih =>
    have htake : (p.take k).length = k := by
      rw [List.length_take, hp, Nat.mul_succ]
      omega
    have hdrop : (p.drop k).length = k * n := by
      rw [List.length_drop, hp, Nat.mul_succ]
      omega
    obtain ⟨hlen, hinv⟩ := hf s _ hs htake
    simp only [blockwise, List.take_append_of_le_length hlen.ge, List.take_of_length_le hlen.le,
      List.drop_append_of_le_length hlen.ge, List.drop_of_length_le hlen.le, List.nil_append,
      hg s _ hs htake, ih hinv hdrop, List.take_append_drop]

end Blockwise

/-! ### Chained block ciphers -/

section Cbc

/-- The exclusive or of two texts. -/
def xorText (p q : List UInt8) : List UInt8 := List.zipWith (· ^^^ ·) p q

theorem length_xorText {p q : List UInt8} (h : p.length = q.length) :
    (xorText p q).length = p.length := by
  simp [xorText, h]

theorem xorText_cancel {p q : List UInt8} (h : p.length = q.length) :
    xorText (xorText p q) q = p := by
  refine List.ext_getElem (by simp [xorText, h]) fun i h1 h2 => ?_
  simp [xorText, UInt8.xor_assoc]

variable (enc dec : List UInt8 → List UInt8)

/-- Encrypt one block: it is added to the block before it, which is the state. -/
def cbcEncrypt (ivec p : List UInt8) : List UInt8 × List UInt8 :=
  let c := enc (xorText p ivec)
  (c, c)

/-- Decrypt one block. -/
def cbcDecrypt (ivec p : List UInt8) : List UInt8 × List UInt8 := (xorText (dec p) ivec, p)

/-- Encrypt one block by itself. -/
def ecbStep (s : List UInt8) (p : List UInt8) : List UInt8 × List UInt8 := (enc p, s)

variable {enc dec} {k : ℕ}

theorem keepsBlocks_cbcEncrypt (henc : ∀ b, b.length = k → (enc b).length = k) :
    KeepsBlocks k (fun ivec => ivec.length = k) (cbcEncrypt enc) := by
  intro ivec b hiv hb
  have hlen : (enc (xorText b ivec)).length = k :=
    henc _ (by rw [length_xorText (hb.trans hiv.symm), hb])
  exact ⟨hlen, hlen⟩

theorem keepsBlocks_ecbStep (henc : ∀ b, b.length = k → (enc b).length = k) :
    KeepsBlocks k (fun ivec => ivec.length = k) (ecbStep enc) :=
  fun _ b hiv hb => ⟨henc b hb, hiv⟩

/-- Chained decryption undoes chained encryption, and keeps the same last block. -/
theorem cbc_inverse (henc : ∀ b, b.length = k → (enc b).length = k)
    (hdec : ∀ b, b.length = k → dec (enc b) = b) (n : ℕ) {ivec p : List UInt8}
    (hiv : ivec.length = k) (hp : p.length = k * n) :
    blockwise k (cbcDecrypt dec) n ivec (blockwise k (cbcEncrypt enc) n ivec p).1 =
      (p, (blockwise k (cbcEncrypt enc) n ivec p).2) := by
  refine blockwise_inverse (keepsBlocks_cbcEncrypt henc) (fun iv b hiv hb => ?_) n hiv hp
  have hlen := hb.trans hiv.symm
  rw [cbcDecrypt, cbcEncrypt, hdec _ (by rw [length_xorText hlen, hb]), xorText_cancel hlen]

theorem ecb_inverse (henc : ∀ b, b.length = k → (enc b).length = k)
    (hdec : ∀ b, b.length = k → dec (enc b) = b) (n : ℕ) {s p : List UInt8}
    (hs : s.length = k) (hp : p.length = k * n) :
    blockwise k (ecbStep dec) n s (blockwise k (ecbStep enc) n s p).1 =
      (p, (blockwise k (ecbStep enc) n s p).2) := by
  refine blockwise_inverse (keepsBlocks_ecbStep henc) (fun iv b _ hb => ?_) n hs hp
  rw [ecbStep, ecbStep, hdec b hb]

end Cbc

end PlanNine
