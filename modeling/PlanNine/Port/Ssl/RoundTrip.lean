import PlanNine.Port.Ssl.Sealed
import Mathlib.Tactic

/-!
# What is written to a connection is read at its other end

Both ends of a connection are given the same algorithms. Whatever is written to the one, and however
the transport cuts the records, the other reads it, as long as each record fits. A record does not
fit when SHA-1, whose digest is not made of whole blocks, is used with DES, and a block is so long
that its record is not padded, or padded to a length of fifteen bits.

## Main definitions

* `Sized`, `Fine`: the limits of a connection, and the lengths of blocks that fit.
* `items`, `putItems`: the texts of the records.
* `readAll`: reads of given sizes, until one waits or fails.
* `Arrives`: with enough reads all that was written is read.

## Main results

* `alg_spec`: the control request sets up both ends in step.
* `fits_of_fine`, `misfit_of_not_fine`: which blocks make records that fit.
* `arrives_of_carries`, `readAll_doomed`: all reads of a connection.
* `arrives_iff`: what is written arrives just when its lengths fit.
-/

namespace PlanNine.Ssl

variable {K R : Type} {L : Libsec K R}

/-! ### Choosing the algorithms -/

/-- A connection while the names of a request are read. -/
structure Parsed (s : Dstate K R) : Prop where
  complete : s.state ≠ .Sincomplete
  dig : s.state.digesting = true → ∃ h, s.hf = some h ∧ s.diglen = h.dlen
  nodig : s.state.digesting = false → s.hf = none ∧ s.diglen = 0
  enc : s.state.encrypting = true → CipherReady s.encryptalg s.out.state s.blocklen
  noenc : s.state.encrypting = false → s.blocklen = 1

theorem Parsed.ready {s : Dstate K R} (h : Parsed s) : Ready s :=
  ⟨h.complete, h.dig, fun hd => (h.nodig hd).2, h.enc, h.noenc⟩

/-- Both ends have read the same names. -/
structure Alike (s r : Dstate K R) : Prop where
  state : r.state = s.state
  encryptalg : r.encryptalg = s.encryptalg
  blocklen : r.blocklen = s.blocklen
  diglen : r.diglen = s.diglen
  hf : r.hf = s.hf
  secret : r.in'.secret = s.out.secret
  cipher : s.state.encrypting = true → r.in'.state = s.out.state
  mid : r.in'.mid = s.out.mid

theorem Alike.sync {s r : Dstate K R} (h : Alike s r) : Sync s r :=
  ⟨h.state, fun _ => h.encryptalg, h.blocklen, h.diglen, fun _ => h.hf, fun _ => h.secret,
    h.cipher, h.mid⟩

theorem parsehashalg_parsed {p : String} {s s' : Dstate K R} (h : Parsed s)
    (hs : parsehashalg p s = some s') : Parsed s' := by
  obtain ⟨ha, -, rfl⟩ := Option.map_eq_some_iff.mp hs
  exact ⟨digest_ne _, fun _ => ⟨ha.2, rfl, rfl⟩, fun hd => by simp at hd,
    fun he => h.enc (by simpa using he), fun he => h.noenc (by simpa using he)⟩

theorem parsehashalg_alike {p : String} {s s' r r' : Dstate K R} (h : Alike s r)
    (hs : parsehashalg p s = some s') (hr : parsehashalg p r = some r') : Alike s' r' := by
  obtain ⟨ha, hfind, rfl⟩ := Option.map_eq_some_iff.mp hs
  obtain ⟨ha', hfind', rfl⟩ := Option.map_eq_some_iff.mp hr
  cases Option.some.inj (hfind.symm.trans hfind')
  exact ⟨congrArg Conn.digest h.state, h.encryptalg, h.blocklen, rfl, rfl, h.secret,
    fun he => h.cipher (by simpa using he), h.mid⟩

theorem parsehashalg_none {p : String} {s r : Dstate K R} (hs : parsehashalg p s = none) :
    parsehashalg p r = none := by
  rw [parsehashalg, Option.map_eq_none_iff] at hs ⊢
  exact hs

/-- A cipher state and a secret in place of those of a direction. -/
def OneWay.keyed (w : OneWay K R) (r : Cstate K R × Option (List UInt8)) : OneWay K R :=
  { w with state := r.1, secret := r.2 }

/-- The state of a DES cipher, with its key masked. -/
def desInit (L : Libsec K R) (mask : List UInt8 → List UInt8) (secret : Option (List UInt8)) :
    Except String (Cstate K R × Option (List UInt8)) :=
  let s := secret.getD []
  if 16 ≤ s.length then
    .ok (.des (L.setupDESstate (mask (s.take 8)) (some ((s.drop 8).take 8))), secret)
  else if 8 ≤ s.length then .ok (.des (L.setupDESstate (mask (s.take 8)) none), secret)
  else .error "secret too short"

/-- The state of an RC4 cipher, with its secret cut. -/
def rc4Init (L : Libsec K R) (cut : List UInt8 → List UInt8) (secret : Option (List UInt8)) :
    Except String (Cstate K R × Option (List UInt8)) :=
  .ok (.rc4 (L.setupRC4state ((secret.map cut).getD [])), secret.map cut)

theorem initDESkey_eq (w : OneWay K R) :
    initDESkey L w = (desInit L id w.secret).map w.keyed := by
  unfold initDESkey desInit
  dsimp only
  split_ifs <;> rfl

theorem initDESkey_40_eq (w : OneWay K R) :
    initDESkey_40 L w =
      (desInit L (fun k => k.mapIdx fun i b => if i % 2 = 0 then b &&& 0x0f else b)
        w.secret).map w.keyed := by
  unfold initDESkey_40 desInit
  dsimp only
  split_ifs <;> rfl

theorem initRC4key_eq (w : OneWay K R) : initRC4key L w = (rc4Init L id w.secret).map w.keyed := by
  simp only [initRC4key, rc4Init, Option.map_id_fun, id_eq]
  rfl

theorem desInit_ready (hL : L.Lawful) {mask : List UInt8 → List UInt8}
    {secret : Option (List UInt8)} {r : Cstate K R × Option (List UInt8)}
    (h : desInit L mask secret = .ok r) :
    CipherReady .DESCBC r.1 8 ∧ CipherReady .DESECB r.1 8 := by
  unfold desInit at h
  dsimp only at h
  split_ifs at h with h16 h8
  · cases h
    have hlen := hL.length_ivec (mask ((secret.getD []).take 8))
      (some (((secret.getD []).drop 8).take 8)) (fun v hv => by
        cases hv
        rw [List.length_take, List.length_drop]
        omega)
    exact ⟨.descbc _ hlen, .desecb _ hlen⟩
  · cases h
    have hlen := hL.length_ivec (mask ((secret.getD []).take 8)) none (fun v hv => by cases hv)
    exact ⟨.descbc _ hlen, .desecb _ hlen⟩

/-- What the key of an algorithm sets up depends on the secret alone. -/
theorem keyinit_spec (hL : L.Lawful) {ea : Encalg K R} (hea : ea ∈ encrypttab L) :
    ∃ f : Option (List UInt8) → Except String (Cstate K R × Option (List UInt8)),
      (∀ w, ea.keyinit w = (f w.secret).map w.keyed) ∧
      ∀ secret r, f secret = .ok r → CipherReady ea.alg r.1 ea.blocklen := by
  have hdes (mask : List UInt8 → List UInt8) (secret : Option (List UInt8))
      (r : Cstate K R × Option (List UInt8)) (h : desInit L mask secret = .ok r) :=
    desInit_ready hL h
  have hrc4 (cut : List UInt8 → List UInt8) (secret : Option (List UInt8))
      (r : Cstate K R × Option (List UInt8)) (h : rc4Init L cut secret = .ok r) :
      CipherReady .RC4 r.1 1 := by
    cases h
    exact .rc4 _
  simp only [encrypttab, List.mem_cons, List.not_mem_nil, or_false] at hea
  rcases hea with rfl | rfl | rfl | rfl | rfl | rfl | rfl | rfl | rfl | rfl
  · exact ⟨_, initDESkey_eq, fun _ _ h => (hdes _ _ _ h).1⟩
  · exact ⟨_, initDESkey_eq, fun _ _ h => (hdes _ _ _ h).2⟩
  · exact ⟨_, initDESkey_eq, fun _ _ h => (hdes _ _ _ h).1⟩
  · exact ⟨_, initDESkey_eq, fun _ _ h => (hdes _ _ _ h).2⟩
  · exact ⟨_, initDESkey_40_eq, fun _ _ h => (hdes _ _ _ h).1⟩
  · exact ⟨_, initDESkey_40_eq, fun _ _ h => (hdes _ _ _ h).2⟩
  · exact ⟨rc4Init L fun s => s.take 5, fun _ => rfl, hrc4 _⟩
  · exact ⟨_, initRC4key_eq, hrc4 _⟩
  · exact ⟨rc4Init L fun s => s.take 16, fun _ => rfl, hrc4 _⟩
  · exact ⟨rc4Init L fun s => s.take 5, fun _ => rfl, hrc4 _⟩

/-- One name of a request at both ends. -/
theorem parseencryptalg_spec (hL : L.Lawful) {p : String} {s s' r r' : Dstate K R}
    (hp : Parsed s) (h : Alike s r) (hs : parseencryptalg L p s = .ok (some s'))
    (hr : parseencryptalg L p r = .ok (some r')) : Parsed s' ∧ Alike s' r' := by
  unfold parseencryptalg at hs hr
  cases hfind : (encrypttab L).find? fun ea => ea.name = p with
  | none =>
    rw [hfind] at hs
    cases hs
  | some ea =>
    obtain ⟨f, hf, hready⟩ := keyinit_spec hL (List.mem_of_find?_eq_some hfind)
    rw [hfind] at hs hr
    simp only [hf, bind, Except.bind, pure, Except.pure, h.secret] at hs hr
    cases hk : f s.out.secret with
    | error msg =>
      rw [hk] at hs
      cases hin : f s.in'.secret <;> rw [hin] at hs <;> cases hs
    | ok k =>
      rw [hk] at hs hr
      cases hin : f s.in'.secret with
      | error msg =>
        rw [hin] at hs
        cases hs
      | ok k₁ =>
        cases hout : f r.out.secret with
        | error msg =>
          rw [hout] at hr
          cases hr
        | ok k₂ =>
          rw [hin] at hs
          rw [hout] at hr
          cases hs
          cases hr
          exact ⟨⟨encrypt_ne _, fun hd => hp.dig (by simpa using hd),
            fun hd => hp.nodig (by simpa using hd), fun _ => hready _ _ hk,
            fun he => by simp at he⟩,
            congrArg Conn.encrypt h.state, rfl, rfl, h.diglen, h.hf, rfl, fun _ => rfl, h.mid⟩

/-- The names of a request, read at both ends. -/
theorem parseLoop_spec (hL : L.Lawful) {ps : List String} {s s' r r' : Dstate K R}
    (hp : Parsed s) (h : Alike s r) (hs : parseLoop L ps s = .ok s')
    (hr : parseLoop L ps r = .ok r') : Parsed s' ∧ Alike s' r' := by
  induction ps generalizing s r with
  | nil =>
    cases hs
    cases hr
    exact ⟨hp, h⟩
  | cons p ps ih =>
    rw [parseLoop] at hs hr
    cases hhash : parsehashalg p s with
    | some s₁ =>
      cases hhash' : parsehashalg p r with
      | none =>
        rw [parsehashalg_none hhash'] at hhash
        cases hhash
      | some r₁ =>
        rw [hhash] at hs
        rw [hhash'] at hr
        exact ih (parsehashalg_parsed hp hhash) (parsehashalg_alike h hhash hhash') hs hr
    | none =>
      rw [hhash] at hs
      rw [parsehashalg_none hhash] at hr
      simp only [bind, Except.bind] at hs hr
      split at hs
      · cases hs
      · rename_i hs₁
        split at hr
        · cases hr
        · rename_i hr₁
          split at hs
          · split at hr
            · obtain ⟨hp', h'⟩ := parseencryptalg_spec hL hp h hs₁ hr₁
              exact ih hp' h' hs hr
            · cases hr
          · cases hs

/-- A connection has the limits of its algorithms. -/
structure Sized (s : Dstate K R) : Prop where
  diglen : s.diglen = 0 ∨ s.diglen = 16 ∨ s.diglen = 20
  limits : s.blocklen = 1 ∧ s.max = 32767 - s.diglen ∧ s.maxpad = 32767 - s.diglen ∨
    s.blocklen = 8 ∧ s.max = 32767 - s.diglen - (32767 - s.diglen) % 8 ∧
      s.maxpad = 16383 - s.diglen - (16383 - s.diglen) % 8

theorem sharesecret_eq (s : Dstate K R) : sharesecret s = { s with
    in' := { s.in' with secret := s.in'.secret <|> s.out.secret }
    out := { s.out with secret := s.out.secret <|> s.in'.secret } } := by
  obtain ⟨c, state, encryptalg, blocklen, diglen, hf, max, maxpad, ⟨st, secret, mid⟩, processed,
    unprocessed, ⟨st', secret', mid'⟩⟩ := s
  cases secret <;> cases secret' <;> rfl

theorem limits_sized {s : Dstate K R} (h : Parsed s) : Sized (limits s) := by
  have hblk : s.blocklen = 1 ∨ s.blocklen = 8 := by
    cases he : s.state.encrypting with
    | false => exact .inl (h.noenc he)
    | true =>
      rcases (h.enc he).blocklen with hblk | hblk
      · exact .inr hblk
      · exact .inl hblk
  have hdig : s.diglen = 0 ∨ s.diglen = 16 ∨ s.diglen = 20 := by
    cases hd : s.state.digesting with
    | false => exact .inl (h.nodig hd).2
    | true =>
      obtain ⟨a, -, hlen⟩ := h.dig hd
      rw [hlen]
      cases a <;> simp [Hash.dlen]
  unfold limits
  rcases hblk with hblk | hblk
  · rw [if_neg (by rw [hblk]; decide)]
    exact ⟨hdig, .inl ⟨hblk, by dsimp only; omega, by dsimp only; omega⟩⟩
  · rw [if_pos (by rw [hblk]; decide)]
    exact ⟨hdig, .inr ⟨hblk, by dsimp only; rw [hblk]; omega, by dsimp only; rw [hblk]; omega⟩⟩

/-- A connection with SHA-1 is one with a digest of twenty bytes. -/
theorem Parsed.sha1_iff {s : Dstate K R} (h : Parsed s) : s.hf = some .sha1 ↔ s.diglen = 20 := by
  cases hd : s.state.digesting with
  | false =>
    obtain ⟨hhf, hlen⟩ := h.nodig hd
    rw [hhf, hlen]
    decide
  | true =>
    obtain ⟨a, hhf, hlen⟩ := h.dig hd
    rw [hhf, hlen]
    cases a <;> decide

/-- The limits change nothing else. -/
theorem limits_eq (s : Dstate K R) :
    limits s = { s with max := (limits s).max, maxpad := (limits s).maxpad } := by
  unfold limits
  split <;> rfl

@[simp] theorem limits_hf (s : Dstate K R) : (limits s).hf = s.hf := by rw [limits_eq]

@[simp] theorem limits_diglen (s : Dstate K R) : (limits s).diglen = s.diglen := by rw [limits_eq]

theorem limits_ready {s : Dstate K R} (h : Ready s) : Ready (limits s) := by
  rw [limits_eq]
  exact ⟨h.complete, h.dig, h.nodig, h.enc, h.noenc⟩

theorem limits_sync {s r : Dstate K R} (h : Sync s r) : Sync (limits s) (limits r) := by
  rw [limits_eq s, limits_eq r]
  exact ⟨h.state, h.encryptalg, h.blocklen, h.diglen, h.hf, h.secret, h.cipher, h.mid⟩

/-- The request that chooses the algorithms puts both ends in step. -/
theorem alg_spec (hL : L.Lawful) {p : String} {s₀ s r₀ r : Dstate K R} (hs : alg L p s₀ = .ok s)
    (hr : alg L p r₀ = .ok r)
    (hsecret : (r₀.in'.secret <|> r₀.out.secret) = (s₀.out.secret <|> s₀.in'.secret))
    (hmid : r₀.in'.mid = s₀.out.mid) :
    Ready s ∧ Sync s r ∧ Sized s ∧
      (s.hf = some .sha1 ∧ s.blocklen = 8 ↔ s.diglen = 20 ∧ s.blocklen = 8) := by
  unfold alg at hs hr
  dsimp only at hs hr
  split at hs
  · cases hs
  split at hr
  · cases hr
  split at hs
  · rename_i hclear
    rw [if_pos hclear] at hr
    cases hs
    cases hr
    refine ⟨⟨nofun, nofun, fun _ => rfl, nofun, fun _ => rfl⟩,
      ⟨rfl, nofun, rfl, rfl, nofun, nofun, nofun, hmid⟩, ⟨.inl rfl, .inl ⟨rfl, rfl, rfl⟩⟩, ?_⟩
    constructor <;> rintro ⟨-, h⟩ <;> cases h
  · rename_i hclear
    rw [if_neg hclear] at hr
    split at hs
    · cases hs
    split at hr
    · cases hr
    simp only [bind, Except.bind] at hs hr
    split at hs
    · cases hs
    split at hr
    · cases hr
    rename_i s₁ hs₁ _ r₁ hr₁
    split at hs
    · cases hs
    split at hr
    · cases hr
    cases hs
    cases hr
    rw [sharesecret_eq] at hs₁ hr₁
    have hboth : Parsed s₁ ∧ Alike s₁ r₁ := by
      refine parseLoop_spec hL ?_ ?_ hs₁ hr₁
      · exact ⟨nofun, nofun, fun _ => ⟨rfl, rfl⟩, nofun, fun _ => rfl⟩
      · exact ⟨rfl, rfl, rfl, rfl, rfl, hsecret, nofun, hmid⟩
    obtain ⟨hp, h⟩ := hboth
    refine ⟨limits_ready hp.ready, limits_sync h.sync, limits_sized hp, ?_⟩
    rw [limits_hf, limits_diglen, hp.sha1_iff]

/-! ### The records of what is written -/

/-- The texts of the records of a block, and their paddings. -/
def items (t : ℕ → ℕ × ℕ) : ℕ → List UInt8 → List (List UInt8 × ℕ)
  | 0, _ => []
  | fuel + 1, b =>
      (b.take (t b.length).1, (t b.length).2) ::
        if (t b.length).1 ≠ b.length then items t fuel (b.drop (t b.length).1) else []

/-- The records of given texts and paddings. -/
def putItems (L : Libsec K R) (mem : ℕ → Memory) :
    Dstate K R → List (List UInt8 × ℕ) → Dstate K R × List (List UInt8)
  | s, [] => (s, [])
  | s, (text, pad) :: its =>
      let (s, rec) := putRecord L s (mem s.out.mid) text pad
      let (s, recs) := putItems L mem s its
      (s, rec :: recs)

theorem putItems_append (mem : ℕ → Memory) (s : Dstate K R) (its its' : List (List UInt8 × ℕ)) :
    putItems L mem s (its ++ its') =
      ((putItems L mem (putItems L mem s its).1 its').1,
        (putItems L mem s its).2 ++ (putItems L mem (putItems L mem s its).1 its').2) := by
  induction its generalizing s with
  | nil => rfl
  | cons it its ih =>
    simp only [List.cons_append, putItems, ih]

theorem trim_putItems (mem : ℕ → Memory) (s : Dstate K R) (its : List (List UInt8 × ℕ)) :
    trim (putItems L mem s its).1 = trim s := by
  induction its generalizing s with
  | nil => rfl
  | cons it its ih =>
    simp only [putItems, putRecord_eq]
    rw [ih]
    rfl

theorem sslput_eq (mem : ℕ → Memory) (fuel : ℕ) (s : Dstate K R) (b : List UInt8) :
    sslput L mem fuel s b = putItems L mem s (items (trim s) fuel b) := by
  induction fuel generalizing s b with
  | zero => rfl
  | succ fuel ih =>
    rw [sslput, items, putItems]
    simp only [putRecord_eq]
    split_ifs
    · rw [ih]
      rfl
    · rfl

theorem putBlocks_eq (mem : ℕ → Memory) (s : Dstate K R) (bs : List (List UInt8)) :
    putBlocks L mem s bs =
      putItems L mem s (bs.flatMap fun b => items (trim s) (b.length + 1) b) := by
  induction bs generalizing s with
  | nil => rfl
  | cons b bs ih =>
    rw [List.flatMap_cons, putItems_append, putBlocks, sslput_eq]
    dsimp only
    rw [ih, trim_putItems]

/-- The lengths of the blocks that fit. -/
def Fine (s : Dstate K R) (n : ℕ) : Prop :=
  ¬ (s.diglen = 20 ∧ s.blocklen = 8) ∨ n ≤ 16356 ∨ n ≤ 32744 ∧ n % 8 = 4

instance (s : Dstate K R) (n : ℕ) : Decidable (Fine s n) := by
  unfold Fine
  infer_instance

section

variable {s : Dstate K R} (hs : Ready s) (hz : Sized s)
include hz

/-- What `trim` leaves for the next record is less. -/
theorem trim_le (n : ℕ) : (trim s n).1 ≤ n ∧ ((trim s n).1 ≠ n → 0 < (trim s n).1) := by
  obtain ⟨hdig, ⟨hblk, hmax, hmaxpad⟩ | ⟨hblk, hmax, hmaxpad⟩⟩ := hz
  all_goals
    unfold trim
    rw [hblk]
    dsimp only
    split_ifs <;> omega

theorem flatten_items {fuel : ℕ} {b : List UInt8} (hfuel : b.length < fuel) :
    ((items (trim s) fuel b).map Prod.fst).flatten = b := by
  induction fuel generalizing b with
  | zero => omega
  | succ fuel ih =>
    obtain ⟨hle, hpos⟩ := trim_le hz b.length
    rw [items, List.map_cons, List.flatten_cons]
    split_ifs with h
    · rw [ih, List.take_append_drop]
      rw [List.length_drop]
      have := hpos h
      omega
    · rw [List.map_nil, List.flatten_nil, List.append_nil, not_not.mp h, List.take_length]

/-- Where a block is fine, so is its first record, and what is left. -/
theorem trim_fine {n : ℕ} (h : Fine s n) :
    s.blocklen ∣ (trim s n).1 + (trim s n).2 + s.diglen ∧
      ((trim s n).2 = 0 → (trim s n).1 + s.diglen < 32768) ∧
      ((trim s n).2 ≠ 0 → (trim s n).1 + (trim s n).2 + s.diglen < 16384 ∧ (trim s n).2 < 256 ∧
        s.blocklen = 8) ∧
      ((trim s n).1 ≠ n → Fine s (n - (trim s n).1)) := by
  obtain ⟨hd | hd | hd, ⟨hblk, hmax, hmaxpad⟩ | ⟨hblk, hmax, hmaxpad⟩⟩ := hz
  all_goals
    rw [hd] at hmax hmaxpad
    norm_num at hmax hmaxpad
    unfold Fine at h ⊢
    unfold trim
    rw [hblk, hd] at h ⊢
    rw [hmax, hmaxpad]
    dsimp only
    split_ifs <;> dsimp only <;> refine ⟨?_, ?_, ?_, ?_⟩ <;>
      first | omega | exact fun _ => .inl (by decide)

include hs

/-- Every record of a fine block fits. -/
theorem fits_of_fine (fuel : ℕ) {b : List UInt8} (h : Fine s b.length) :
    ∀ it ∈ items (trim s) fuel b, Fits s it.1 it.2 := by
  induction fuel generalizing b with
  | zero => exact fun it hit => absurd hit List.not_mem_nil
  | succ fuel ih =>
    obtain ⟨hdvd, hnopad, hpad, hrest⟩ := trim_fine hz h
    have hlen : (b.take (trim s b.length).1).length = (trim s b.length).1 := by
      rw [List.length_take, min_eq_left (trim_le hz b.length).1]
    intro it hit
    rw [items] at hit
    rcases List.mem_cons.mp hit with rfl | hit
    · refine ⟨?_, ?_, ?_⟩ <;> dsimp only <;> rw [hlen]
      · exact hdvd
      · exact hnopad
      · intro hp
        obtain ⟨hshort, hbyte, hblk⟩ := hpad hp
        refine ⟨hshort, hbyte, ?_⟩
        by_contra hno
        have := hs.noenc (Bool.not_eq_true _ ▸ hno)
        omega
    · split_ifs at hit with hne
      · refine ih ?_ it hit
        rw [List.length_drop]
        exact hrest hne
      · exact absurd hit List.not_mem_nil

omit hs in
/-- The lengths of the first record of a block that is not fine. -/
theorem trim_not_fine {n : ℕ} (h : ¬ Fine s n) :
    s.diglen = 20 ∧ s.blocklen = 8 ∧
      (((trim s n).2 ≠ 0 ∧ (trim s n).2 < 256 ∧ (trim s n).1 + (trim s n).2 + 20 = 16384) ∨
        ((trim s n).2 = 0 ∧ (trim s n).1 + 20 < 32768 ∧ ¬ 8 ∣ (trim s n).1 + 20)) := by
  obtain ⟨hdig, hsize⟩ := not_or.mp h
  obtain ⟨hd, hblk⟩ := not_not.mp hdig
  refine ⟨hd, hblk, ?_⟩
  obtain ⟨-, ⟨h1, -⟩ | ⟨-, hmax, hmaxpad⟩⟩ := hz
  · omega
  · rw [hd] at hmax hmaxpad
    norm_num at hmax hmaxpad
    unfold trim
    rw [hblk, hd, hmax, hmaxpad]
    dsimp only
    split_ifs <;> dsimp only <;> omega

/-- The first record of a block that is not fine does not fit. -/
theorem misfit_of_not_fine (fuel : ℕ) {b : List UInt8} (h : ¬ Fine s b.length) :
    ∃ it its, items (trim s) (fuel + 1) b = it :: its ∧ Misfits s it.1 it.2 ∧ s.diglen = 20 := by
  obtain ⟨hd, hblk, hcase⟩ := trim_not_fine hz h
  have hlen : (b.take (trim s b.length).1).length = (trim s b.length).1 := by
    rw [List.length_take, min_eq_left (trim_le hz b.length).1]
  have henc : s.state.encrypting = true := by
    by_contra hno
    have := hs.noenc (Bool.not_eq_true _ ▸ hno)
    omega
  refine ⟨_, _, rfl, ?_, hd⟩
  rcases hcase with ⟨hp, hbyte, hsum⟩ | ⟨hp, hshort, hdvd⟩
  · exact .inl ⟨hp, hbyte, by dsimp only; rw [hlen, hd]; exact hsum⟩
  · refine .inr ⟨hp, ?_, henc, ?_⟩ <;> dsimp only <;> rw [hlen, hd]
    · exact hshort
    · rw [hblk]
      exact hdvd

end

/-! ### Reading -/

/-- Reads of given sizes, until one waits or fails: the bytes that they give, and how the last
ends. -/
def readAll (L : Libsec K R) : End K R → List ℕ → List UInt8 × Outcome Unit
  | _, [] => ([], .ok ())
  | e, n :: ns =>
      match sslbread L e n with
      | (.wait, _) => ([], .wait)
      | (.error msg, _) => ([], .error msg)
      | (.ok b, e) =>
          let (p, r) := readAll L e ns
          (b.flatten ++ p, r)

/-- No read fails, what is read is the start of `p`, and with enough reads it is `p`. -/
structure Arrives (L : Libsec K R) (e : End K R) (p : List UInt8) : Prop where
  noerror : ∀ ns msg, (readAll L e ns).2 ≠ .error msg
  prefix' : ∀ ns, (readAll L e ns).1 <+: p
  all : ∀ ns, (∀ n ∈ ns, 0 < n) → e.weight < ns.length → (readAll L e ns).1 = p

theorem sslbread_processed {e : End K R} (hc : e.s.state ≠ .Sincomplete)
    (hne : e.s.processed ≠ []) (n : ℕ) :
    ∃ b l, sslbread L e n = (.ok b, { e with s := { e.s with processed := l } }) ∧
      b.flatten ++ l.flatten = e.s.processed.flatten ∧
      (0 < n → weight l < weight e.s.processed) := by
  refine ⟨(qtake false e.s.processed n).1, (qtake false e.s.processed n).2, ?_, ?_,
    fun hn => weight_qtake_rest hn hne⟩
  · rw [sslbread, if_neg hc, if_neg hne]
  · rw [flatten_qtake, flatten_qtake_rest, List.take_append_drop]

theorem sslbread_wait {e : End K R} (hc : e.s.state ≠ .Sincomplete) (hempty : e.s.processed = [])
    (hnet : Delivers e.net) (hshort : e.bytes.length < 3) {n : ℕ} :
    (sslbread L e n).1 = .wait := by
  rcases next_spec (L := L) hnet with ⟨-, hwait⟩ | ⟨e₁, -, -, hbytes₁, hlen₁, -, -⟩
  · rw [sslbread, if_neg hc, if_pos hempty]
    generalize e.next L = r at hwait
    obtain ⟨r, e₁⟩ := r
    cases hwait
    rfl
  · rw [← hbytes₁, End.bytes, List.length_append] at hshort
    omega

/-- A read that starts with a record whose lengths fit. -/
theorem sslbread_of_fits (hL : L.Lawful) {s : Dstate K R} {e : End K R} (hs : Ready s)
    (h : Sync s e.s) (hnet : Delivers e.net) (mem : Memory) {text : List UInt8} {pad : ℕ}
    (hfit : Fits s text pad) {rest : List UInt8} (hempty : e.s.processed = [])
    (hbytes : e.bytes = (putRecord L s mem text pad).2 ++ rest) (hlong : 3 ≤ e.bytes.length)
    (n : ℕ) :
    ∃ b e', sslbread L e n = (.ok b, e') ∧ b.flatten ++ e'.s.processed.flatten = text ∧
      Sync (putRecord L s mem text pad).1 e'.s ∧ e'.bytes = rest ∧ Delivers e'.net ∧
      (0 < n → e'.weight < e.weight) := by
  rw [putRecord_eq] at hbytes ⊢
  rcases next_spec (L := L) hnet with ⟨hshort, -⟩ |
    ⟨e₁, hnext, ⟨l, he₁⟩, hbytes₁, hlen₁, hnet₁, hweight₁⟩
  · omega
  · have hsync₁ : Sync s e₁.s := by
      rw [he₁]
      exact ⟨h.state, h.encryptalg, h.blocklen, h.diglen, h.hf, h.secret, h.cipher, h.mid⟩
    obtain ⟨e₂, hhead, htext, hsync₂, hrest, hnet₂, hlt⟩ := headed_of_fits hL hs hsync₁ hnet₁ mem
      hfit (by rw [hbytes₁, hbytes, List.append_assoc]) hlen₁
    refine ⟨(qtake false e₂.s.processed n).1,
      { e₂ with s := { e₂.s with processed := (qtake false e₂.s.processed n).2 } }, ?_, ?_, ?_,
      hrest, hnet₂, ?_⟩
    · rw [sslbread, if_neg (h.state ▸ hs.complete), if_pos hempty, hnext, hhead]
    · change (qtake false e₂.s.processed n).1.flatten ++
        (qtake false e₂.s.processed n).2.flatten = text
      rw [flatten_qtake, flatten_qtake_rest, List.take_append_drop, htext]
    · exact ⟨hsync₂.state, hsync₂.encryptalg, hsync₂.blocklen, hsync₂.diglen, hsync₂.hf,
        hsync₂.secret, hsync₂.cipher, hsync₂.mid⟩
    · intro hn
      have hle : weight (qtake false e₂.s.processed n).2 ≤ weight e₂.s.processed := by
        rcases eq_or_ne e₂.s.processed [] with h0 | hne
        · rw [h0, qtake]
        · exact (weight_qtake_rest hn hne).le
      simp only [End.weight] at hlt hweight₁ ⊢
      omega

/-- The reader holds the text `p`: the rest of the last record, and records that fit. -/
def Carries (L : Libsec K R) (mem : ℕ → Memory) (e : End K R) (p : List UInt8) : Prop :=
  ∃ s its, Ready s ∧ Sync s e.s ∧ Delivers e.net ∧
    (∀ it ∈ its, Fits s it.1 it.2) ∧ e.bytes = (putItems L mem s its).2.flatten ∧
    e.s.processed.flatten ++ (its.map Prod.fst).flatten = p

/-- The reader holds a record that does not fit, behind others. -/
def Doomed (L : Libsec K R) (mem : ℕ → Memory) (e : End K R) : Prop :=
  ∃ s its bad rest, Ready s ∧ Sync s e.s ∧ Delivers e.net ∧
    (∀ it ∈ its, Fits s it.1 it.2) ∧ Misfits s bad.1 bad.2 ∧ s.diglen = 20 ∧
    e.bytes = (putItems L mem s (its ++ bad :: rest)).2.flatten

theorem Fits.sent {s : Dstate K R} {text : List UInt8} {pad : ℕ} (h : Fits s text pad)
    (mem : Memory) (m : List UInt8) : Fits (sent L s mem m) text pad :=
  ⟨h.dvd, h.nopad, h.pad⟩

section

variable (hL : L.Lawful) (mem : ℕ → Memory)
include hL

theorem ready_putRecord {s : Dstate K R} (hs : Ready s) {text : List UInt8} {pad : ℕ}
    (hfit : Fits s text pad) (mem : Memory) : Ready (putRecord L s mem text pad).1 := by
  rw [putRecord_eq]
  refine ready_sent hL hs mem ?_
  rw [length_message]
  exact hfit.dvd

/-- The length of a record is at least that of its header and its text. -/
theorem length_putRecord {s : Dstate K R} (hs : Ready s) (mem : Memory) (text : List UInt8)
    (pad : ℕ) : 2 + text.length + pad + s.diglen ≤ (putRecord L s mem text pad).2.length := by
  have hhead (m : ℕ) : 2 ≤ (header m pad).length := by
    unfold header
    split <;> simp
  rw [putRecord_eq, List.length_append, length_sealed hL hs]
  have := hhead ((message mem text pad).length + s.diglen)
  have := length_message mem text pad
  omega

/-- The records are longer than their texts, by two bytes each at least. -/
theorem length_putItems {s : Dstate K R} (hs : Ready s) {its : List (List UInt8 × ℕ)}
    (hfits : ∀ it ∈ its, Fits s it.1 it.2) :
    (its.map Prod.fst).flatten.length + 2 * its.length ≤
      (putItems L mem s its).2.flatten.length := by
  induction its generalizing s with
  | nil => exact le_rfl
  | cons it its ih =>
    have hready := ready_putRecord hL hs (hfits it List.mem_cons_self) (mem s.out.mid)
    have hrec := length_putRecord hL hs (mem s.out.mid) it.1 it.2
    have hih := ih hready fun it' h' => by
      rw [putRecord_eq]
      exact (hfits it' (List.mem_cons_of_mem _ h')).sent _ _
    simp only [putItems, List.map_cons, List.flatten_cons, List.length_append, List.length_cons]
    omega

/-- A read waits when there is nothing to read, or gives the start of what there is. -/
theorem sslbread_carries {e : End K R} {p : List UInt8} (h : Carries L mem e p) (n : ℕ) :
    (sslbread L e n).1 = .wait ∧ p = [] ∨
      ∃ b e' p', sslbread L e n = (.ok b, e') ∧ p = b.flatten ++ p' ∧ Carries L mem e' p' ∧
        (0 < n → e'.weight < e.weight) := by
  obtain ⟨s, its, hs, hsync, hnet, hfits, hbytes, rfl⟩ := h
  have hc : e.s.state ≠ .Sincomplete := hsync.state ▸ hs.complete
  by_cases hempty : e.s.processed = []
  · rcases Nat.lt_or_ge e.bytes.length 3 with hshort | hlong
    · left
      refine ⟨sslbread_wait hc hempty hnet hshort, ?_⟩
      have hlen := length_putItems hL mem hs hfits
      rw [← hbytes] at hlen
      rw [hempty, List.flatten_nil, List.nil_append]
      rcases Nat.eq_zero_or_pos its.length with h0 | hpos
      · rw [List.length_eq_zero_iff.mp h0]
        rfl
      · exact List.length_eq_zero_iff.mp (by omega)
    · right
      cases its with
      | nil =>
        rw [hbytes] at hlong
        exact absurd hlong (show ¬ 3 ≤ 0 by decide)
      | cons it its =>
        have hfit := hfits it List.mem_cons_self
        obtain ⟨b, e', hread, htext, hsync', hrest, hnet', hlt⟩ := sslbread_of_fits hL hs hsync
          hnet (mem s.out.mid) hfit hempty hbytes hlong n
        refine ⟨b, e', _, hread, ?_, ⟨_, its, ready_putRecord hL hs hfit _, hsync', hnet',
          fun it' h' => ?_, hrest, rfl⟩, hlt⟩
        · rw [hempty, ← List.append_assoc, htext]
          rfl
        · rw [putRecord_eq]
          exact (hfits it' (List.mem_cons_of_mem _ h')).sent _ _
  · obtain ⟨b, l, hread, hflat, hlt⟩ := sslbread_processed (L := L) hc hempty n
    refine .inr ⟨b, _, l.flatten ++ (its.map Prod.fst).flatten, hread, ?_,
      ⟨s, its, hs, ⟨hsync.state, hsync.encryptalg, hsync.blocklen, hsync.diglen, hsync.hf,
        hsync.secret, hsync.cipher, hsync.mid⟩, hnet, hfits, hbytes, rfl⟩, fun hn => ?_⟩
    · rw [← hflat, List.append_assoc]
    · have := hlt hn
      simp only [End.weight]
      omega

/-- A read of what cannot be read to its end fails, or gives some of what is in front. -/
theorem sslbread_doomed {e : End K R} (h : Doomed L mem e) (n : ℕ) :
    (∃ msg, (sslbread L e n).1 = .error msg) ∨
      ∃ b e', sslbread L e n = (.ok b, e') ∧ Doomed L mem e' ∧ (0 < n → e'.weight < e.weight) := by
  obtain ⟨s, its, bad, rest, hs, hsync, hnet, hfits, hmis, hdig, hbytes⟩ := h
  have hc : e.s.state ≠ .Sincomplete := hsync.state ▸ hs.complete
  by_cases hempty : e.s.processed = []
  · have hfirst (it its') (heq : its ++ bad :: rest = it :: its') : 3 ≤ e.bytes.length := by
      have := length_putRecord hL hs (mem s.out.mid) it.1 it.2
      rw [hbytes, heq]
      simp only [putItems, List.flatten_cons, List.length_append]
      omega
    cases its with
    | nil =>
      left
      have hlong := hfirst _ _ rfl
      rcases next_spec (L := L) hnet with ⟨hshort, -⟩ |
        ⟨e₁, hnext, ⟨l, he₁⟩, hbytes₁, hlen₁, hnet₁, -⟩
      · omega
      · have hsync₁ : Sync s e₁.s := by
          rw [he₁]
          exact ⟨hsync.state, hsync.encryptalg, hsync.blocklen, hsync.diglen, hsync.hf,
            hsync.secret, hsync.cipher, hsync.mid⟩
        obtain ⟨msg, hmsg⟩ := headed_of_misfit hL hs hsync₁ hnet₁ (mem s.out.mid) hmis (by
          rw [hbytes₁, hbytes, List.nil_append, putItems]
          simp only [putRecord_eq, List.flatten_cons, List.append_assoc]
          rfl) hlen₁
        refine ⟨msg, ?_⟩
        rw [sslbread, if_neg hc, if_pos hempty, hnext]
        generalize e₁.headed L = r at hmsg
        obtain ⟨r, e₂⟩ := r
        cases hmsg
        rfl
    | cons it its =>
      right
      have hlong := hfirst _ _ rfl
      have hfit := hfits it List.mem_cons_self
      obtain ⟨b, e', hread, -, hsync', hrest, hnet', hlt⟩ := sslbread_of_fits hL hs hsync
        hnet (mem s.out.mid) hfit hempty hbytes hlong n
      refine ⟨b, e', hread, ⟨_, its, bad, rest, ready_putRecord hL hs hfit _, hsync', hnet',
        fun it' h' => ?_, ?_, ?_, hrest⟩, hlt⟩
      · rw [putRecord_eq]
        exact (hfits it' (List.mem_cons_of_mem _ h')).sent _ _
      · rw [putRecord_eq]
        exact hmis
      · rw [putRecord_eq]
        exact hdig
  · obtain ⟨b, l, hread, -, hlt⟩ := sslbread_processed (L := L) hc hempty n
    refine .inr ⟨b, _, hread, ⟨s, its, bad, rest, hs, ⟨hsync.state, hsync.encryptalg,
      hsync.blocklen, hsync.diglen, hsync.hf, hsync.secret, hsync.cipher, hsync.mid⟩, hnet, hfits,
      hmis, hdig, hbytes⟩, fun hn => ?_⟩
    have := hlt hn
    simp only [End.weight]
    omega

/-- All reads of texts whose records fit. -/
theorem arrives_of_carries {e : End K R} {p : List UInt8} (h : Carries L mem e p) :
    Arrives L e p := by
  suffices hall : ∀ ns (e : End K R) (p : List UInt8), Carries L mem e p →
      (∀ msg, (readAll L e ns).2 ≠ .error msg) ∧ (readAll L e ns).1 <+: p ∧
      ((∀ n ∈ ns, 0 < n) → e.weight < ns.length → (readAll L e ns).1 = p) from
    ⟨fun ns => (hall ns e p h).1, fun ns => (hall ns e p h).2.1, fun ns => (hall ns e p h).2.2⟩
  intro ns
  induction ns with
  | nil => exact fun e p _ => ⟨nofun, List.nil_prefix, fun _ hlt => absurd hlt (Nat.not_lt_zero _)⟩
  | cons n ns ih =>
    intro e p h
    rcases sslbread_carries hL mem h n with ⟨hwait, rfl⟩ | ⟨b, e', p', hread, rfl, h', hlt⟩
    · have hall : readAll L e (n :: ns) = ([], .wait) := by
        rw [readAll]
        generalize sslbread L e n = r at hwait
        obtain ⟨r, e'⟩ := r
        cases hwait
        rfl
      rw [hall]
      exact ⟨nofun, List.nil_prefix, fun _ _ => rfl⟩
    · obtain ⟨hno, hpre, hfull⟩ := ih e' p' h'
      rw [readAll, hread]
      refine ⟨hno, (List.prefix_append_right_inj _).mpr hpre, fun hpos hlen => ?_⟩
      have hw := hlt (hpos n List.mem_cons_self)
      rw [List.length_cons] at hlen
      exact congrArg (b.flatten ++ ·)
        (hfull (fun m hm => hpos m (List.mem_cons_of_mem _ hm)) (by omega))

/-- With enough reads the error comes. -/
theorem readAll_doomed (ns : List ℕ) {e : End K R} (h : Doomed L mem e) (hpos : ∀ n ∈ ns, 0 < n)
    (hlen : e.weight < ns.length) : ∃ msg, (readAll L e ns).2 = .error msg := by
  induction ns generalizing e with
  | nil => exact absurd hlen (Nat.not_lt_zero _)
  | cons n ns ih =>
    rcases sslbread_doomed hL mem h n with ⟨msg, hmsg⟩ | ⟨b, e', hread, h', hlt⟩
    · refine ⟨msg, ?_⟩
      rw [readAll]
      generalize sslbread L e n = r at hmsg
      obtain ⟨r, e'⟩ := r
      cases hmsg
      rfl
    · have hw := hlt (hpos n List.mem_cons_self)
      rw [List.length_cons] at hlen
      rw [readAll, hread]
      exact ih h' (fun m hm => hpos m (List.mem_cons_of_mem _ hm)) (by omega)

end

/-! ### All that is written -/

theorem flatten_chunks {max : ℕ} (hmax : 0 < max) {fuel : ℕ} {p : List UInt8}
    (hfuel : p.length < fuel) : (chunks max fuel p).flatten = p := by
  induction fuel generalizing p with
  | zero => omega
  | succ fuel ih =>
    rw [chunks]
    split_ifs with hle
    · simp
    · rw [List.flatten_cons, ih (by rw [List.length_drop]; omega), List.take_append_drop]

/-- The bytes of a write are those of its blocks. -/
theorem flatten_blocks {s : Dstate K R} (hz : Sized s) (w : Write) :
    (w.blocks s).flatten = w.bytes := by
  cases w with
  | sslwrite p =>
    refine flatten_chunks ?_ (Nat.lt_succ_self _)
    have := hz.diglen
    have := hz.limits
    omega
  | sslbwrite b => simp [Write.blocks, Write.bytes]

/-- The blocks of a write fit when its length does. -/
theorem fine_blocks {s : Dstate K R} (hz : Sized s) (w : Write) :
    (∀ b ∈ w.blocks s, Fine s b.length) ↔ Fine s w.bytes.length := by
  cases w with
  | sslbwrite b => simp [Write.blocks, Write.bytes]
  | sslwrite p =>
    by_cases hbad : s.diglen = 20 ∧ s.blocklen = 8
    · have hmax : s.max = 32744 := by
        have := hz.limits
        omega
      change (∀ b ∈ chunks s.max (p.length + 1) p, Fine s b.length) ↔ Fine s p.length
      rw [chunks]
      split_ifs with hle
      · simp
      · have hno (n : ℕ) (hn : 32744 < n ∨ n = 32744) : ¬ Fine s n := by
          rintro (h | h)
          · exact h hbad
          · omega
        refine iff_of_false (fun h => ?_) (hno _ (.inl (by omega)))
        refine hno _ (.inr ?_) (h _ List.mem_cons_self)
        rw [List.length_take]
        omega
    · exact iff_of_true (fun _ _ => .inl hbad) (.inl hbad)

section

variable {s : Dstate K R} (hz : Sized s)
include hz

theorem flatten_blockItems (bs : List (List UInt8)) :
    ((bs.flatMap fun b => items (trim s) (b.length + 1) b).map Prod.fst).flatten =
      bs.flatten := by
  induction bs with
  | nil => rfl
  | cons b bs ih =>
    rw [List.flatMap_cons, List.map_append, List.flatten_append, ih,
      flatten_items hz (Nat.lt_succ_self _), List.flatten_cons]

/-- Where not all blocks are fine, the first that is not makes a record that does not fit. -/
theorem exists_misfit (hs : Ready s) {bs : List (List UInt8)}
    (hbad : ¬ ∀ b ∈ bs, Fine s b.length) :
    ∃ its bad rest, (bs.flatMap fun b => items (trim s) (b.length + 1) b) = its ++ bad :: rest ∧
      (∀ it ∈ its, Fits s it.1 it.2) ∧ Misfits s bad.1 bad.2 ∧ s.diglen = 20 := by
  induction bs with
  | nil => exact absurd (fun b hb => absurd hb List.not_mem_nil) hbad
  | cons b bs ih =>
    rw [List.flatMap_cons]
    by_cases hb : Fine s b.length
    · obtain ⟨its, bad, rest, heq, hfits, hmis⟩ := ih fun h =>
        hbad (List.forall_mem_cons.mpr ⟨hb, h⟩)
      refine ⟨items (trim s) (b.length + 1) b ++ its, bad, rest, ?_, fun it hit => ?_, hmis⟩
      · rw [heq, List.append_assoc]
      · rcases List.mem_append.mp hit with hit | hit
        · exact fits_of_fine hs hz _ hb it hit
        · exact hfits it hit
    · obtain ⟨bad, rest, heq, hmis⟩ := misfit_of_not_fine hs hz b.length hb
      rw [heq]
      exact ⟨[], bad, rest ++ _, rfl, fun it hit => absurd hit List.not_mem_nil, hmis⟩

end

/-- Blocks that go out at one end arrive at the other, just when they are fine. -/
theorem arrives_iff_fine (hL : L.Lawful) {s r : Dstate K R} (hs : Ready s) (h : Sync s r)
    (hz : Sized s) (hnew : r.processed = [] ∧ r.unprocessed = []) (mem : ℕ → Memory)
    (bs : List (List UInt8)) {net : List (List (List UInt8))} (hnet : Delivers net)
    (hbytes : net.flatten.flatten = (putBlocks L mem s bs).2.flatten) :
    Arrives L ⟨r, net⟩ bs.flatten ↔ ∀ b ∈ bs, Fine s b.length := by
  have hin : (End.mk r net).bytes = (putItems L mem s
      (bs.flatMap fun b => items (trim s) (b.length + 1) b)).2.flatten := by
    rw [End.bytes, hnew.2, List.flatten_nil, List.nil_append, ← putBlocks_eq]
    exact hbytes
  constructor
  · intro harr
    by_contra hbad
    obtain ⟨its, bad, rest, heq, hfits, hmis, hdig⟩ := exists_misfit hz hs hbad
    have hdoom : Doomed L mem ⟨r, net⟩ :=
      ⟨s, its, bad, rest, hs, h, hnet, hfits, hmis, hdig, by rw [hin, heq]⟩
    obtain ⟨msg, hmsg⟩ := readAll_doomed hL mem
      (List.replicate ((End.mk r net).weight + 1) 1) hdoom
      (fun n hn => by rw [List.eq_of_mem_replicate hn]; exact Nat.one_pos)
      (by rw [List.length_replicate]; exact Nat.lt_succ_self _)
    exact harr.noerror _ _ hmsg
  · intro hfine
    refine arrives_of_carries hL mem ⟨s, _, hs, h, hnet, fun it hit => ?_, hin, ?_⟩
    · obtain ⟨b, hb, hit⟩ := List.mem_flatMap.mp hit
      exact fits_of_fine hs hz _ (hfine b hb) it hit
    · rw [flatten_blockItems hz, hnew.1]
      rfl

/-- A library whose ciphers change nothing and whose digests are all alike. -/
def plainLibsec : Libsec Unit Unit where
  setupDESstate _ iv := ⟨(), iv.getD (List.replicate 8 0)⟩
  block_cipher _ b _ := b
  setupRC4state _ := ()
  rc4 _ p := (p, ())
  md4 _ := List.replicate 16 0
  md5 _ := List.replicate 16 0
  sha1 _ := List.replicate 20 0

theorem plainLibsec_lawful : plainLibsec.Lawful where
  length_ivec := by
    rintro k (_ | v) h
    · rfl
    · exact h v rfl
  length_block_cipher := fun _ _ _ h => h
  block_cipher_inverse := fun _ _ _ => rfl
  length_rc4 := fun _ _ => rfl
  rc4_nil := fun _ => rfl
  rc4_append := fun _ _ _ => rfl
  rc4_inverse := fun _ _ => rfl
  length_md4 := fun _ => rfl
  length_md5 := fun _ => rfl
  length_sha1 := fun _ => rfl

/-- A connection with SHA-1 and DES, with the same secret for both directions. -/
def sha1des : Dstate Unit Unit :=
  let way : OneWay Unit Unit :=
    { state := .des ⟨(), List.replicate 8 1⟩, secret := some (List.replicate 16 1) }
  { c := true, state := .Sdigenc, encryptalg := .DESCBC, blocklen := 8, diglen := 20,
    hf := some .sha1, max := 32744, maxpad := 16360, in' := way, out := way }

/-- A block of 16357 bytes is padded to a record of 16384, whose length does not fit its header. -/
theorem not_arrives_of_length {b : List UInt8} (hb : b.length = 16357) :
    ¬ Arrives plainLibsec
      ⟨sha1des, [(putBlocks plainLibsec (fun _ => {}) sha1des [b]).2]⟩ b := by
  intro harr
  have hready : Ready sha1des :=
    ⟨nofun, fun _ => ⟨_, rfl, rfl⟩, nofun, fun _ => .descbc _ rfl, nofun⟩
  have hsync : Sync sha1des sha1des :=
    ⟨rfl, fun _ => rfl, rfl, rfl, fun _ => rfl, fun _ => rfl, fun _ => rfl, rfl⟩
  have hsized : Sized sha1des := ⟨.inr (.inr rfl), .inr ⟨rfl, rfl, rfl⟩⟩
  have hnet : Delivers [(putBlocks plainLibsec (fun _ => {}) sha1des [b]).2] := by
    intro bl hbl hempty
    obtain rfl := List.mem_singleton.mp hbl
    have hlen := length_putRecord plainLibsec_lawful hready {} (b.take (trim sha1des b.length).1)
      (trim sha1des b.length).2
    rw [putBlocks_eq, List.flatMap_cons, items, List.cons_append, putItems, List.flatten_cons]
      at hempty
    rw [(List.append_eq_nil_iff.mp hempty).1, List.length_nil] at hlen
    omega
  have hflat : [b].flatten = b := List.append_nil b
  have hfine := (arrives_iff_fine plainLibsec_lawful hready hsync hsized ⟨rfl, rfl⟩ (fun _ => {})
    [b] hnet (by rw [List.flatten_cons, List.flatten_nil, List.append_nil])).mp
    (by rw [hflat]; exact harr) b List.mem_cons_self
  rw [hb] at hfine
  exact absurd hfine (by decide)

end PlanNine.Ssl
