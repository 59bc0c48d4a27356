import PlanNine.Port.Sdp.Roundtrip

/-!
# Packets of RC4 that are late or lost

The packets made by `rc4encrypt` come to `rc4decrypt` in any order, some of them never. The receiver
has a second generator, which it keeps behind the gaps that it has seen; with it, it reads packets
that come late.

## Main definitions

* `Covers`: a packet that began behind the receiver is out of reach, or the second generator is not
  past its start.
* `Link`, `exec`: the two directions, with the packets that were made and those that came.
* `Resyncs`: which packets are accepted, and that they are read as they were written.

## Main results

* `Reserve.rc4decrypt`: what a packet that is accepted leaves of the reserve.
* `covers_of_lt`: the packets that the receiver has gone past are covered.
* `resyncs_of_run`: every packet resynchronises, if it is not empty.
* `not_resyncs_empty`: an empty packet behind the one that follows it.
-/

namespace PlanNine.Sdp.Resync

variable {L : Libsec}

/-- A packet that began at the byte `s` before the receiver's is too far behind, or within the
reserve. -/
def Covers (cr : CipherRc4) (s : ℕ) : Prop :=
  s + RC4back < cr.cseq ∨ cr.ovalid = true ∧ cr.oseq ≤ s ∧ s < cr.lgseq

/-- The generators stand where their counters say, and the last gap ends before the current one. -/
structure Reserve (key : List UInt8) (p : ℕ) (cr : CipherRc4) : Prop extends Tracks key p cr where
  lgseq : cr.ovalid = true → cr.lgseq ≤ p

/-! ### One packet -/

section

variable {key : List UInt8} {pos p s : ℕ} {cr : CipherRc4}

theorem moveold_lgseq (cr : CipherRc4) :
    (moveold cr).lgseq = cr.lgseq ∧ (moveold cr).ovalid = cr.ovalid := by
  unfold moveold
  split_ifs with hv
  · dsimp only
    split_ifs <;> exact ⟨rfl, rfl⟩
  · exact ⟨rfl, rfl⟩

/-- The second generator is moved up no further than what is out of reach. -/
theorem moveold_oseq (h : Tracks key p cr) (hv : cr.ovalid = true) :
    (moveold cr).oseq = max cr.oseq (p - RC4back) := by
  have hp := h.lt
  obtain ⟨-, hle⟩ := h.old hv
  have hdd : long (ulong ((cr.cseq : ℤ) - RC4back - cr.oseq)) = (p : ℤ) - RC4back - cr.oseq := by
    rw [h.cseq]
    have hback : (RC4back : ℤ) = 102400 := rfl
    exact long_ulong_of_small (by omega) (by omega)
  rw [moveold, if_pos hv]
  dsimp only
  rw [hdd]
  split_ifs with hup
  · dsimp only
    rw [ulong]
    have hback : RC4back = 102400 := rfl
    omega
  · omega

theorem Covers.moveold (h : Covers cr s) (ht : Tracks key p cr) : Covers (moveold cr) s := by
  obtain ⟨hlg, hv⟩ := moveold_lgseq cr
  rw [Covers, moveold_cseq, hlg, hv]
  rcases h with hfar | ⟨hvalid, hle, hlt⟩
  · exact .inl hfar
  · rw [moveold_oseq ht hvalid, ht.cseq]
    by_cases hout : s + RC4back < p
    · exact .inl hout
    · exact .inr ⟨hvalid, by omega, hlt⟩

theorem Reserve.moveold (h : Reserve key p cr) : Reserve key p (moveold cr) := by
  obtain ⟨hlg, hv⟩ := moveold_lgseq cr
  refine ⟨h.toTracks.moveold, ?_⟩
  rw [hlg, hv]
  exact h.lgseq

variable {r : OneWay} {b c : List UInt8} {n : ℤ}

/-- Which packets are accepted, and what the receiver covers afterwards. -/
theorem Reserve.rc4decrypt (h : Reserve key p cr) (hst : r.cipherstate = some (.rc4 cr))
    (hn : 4 ≤ n) (hc : (Sealing.rc4 key).Seals L pos b c) (hroom : pos + b.length < 2147483648) :
    ∃ ok cr' p', rc4decrypt L r c n = some (ok, { r with cipherstate := some (.rc4 cr') },
        if ok then hnputl pos ++ b else c) ∧
      Reserve key p' cr' ∧ (p' = p ∧ cr' = cr ∨ p' = pos + b.length ∧
        ∀ s < pos, (s < p → Covers cr s) → Covers cr' s) ∧
      (ok = true ↔ if p ≤ pos then pos ≤ p + RC4forward else
        cr.ovalid = true ∧ p ≤ pos + RC4back ∧ cr.oseq ≤ pos) := by
  have hself : ({ r with cipherstate := some (.rc4 cr) } : OneWay) = r := by rw [← hst]
  have hp := h.lt
  rw [h.rc4decrypt_eq hst hn hc hroom]
  rcases lt_trichotomy p pos with hlt | rfl | hgt
  · rw [if_neg hlt.ne', if_pos hlt, if_pos hlt.le]
    by_cases hfar : p + RC4forward < pos
    · rw [if_pos hfar]
      refine ⟨false, cr, p, by rw [hself]; rfl, h, .inl ⟨rfl, rfl⟩, ?_⟩
      exact iff_of_false nofun (by omega)
    rw [if_neg hfar]
    -- the reserve is there from now on, and it begins at or before the gap
    have htracks : Tracks key (pos + b.length) { cr with
        current := ⟨key, pos + b.length⟩, cseq := pos + b.length, lgseq := pos, ovalid := true
        oseq := if cr.ovalid then cr.oseq else p
        old := if cr.ovalid then cr.old else ⟨key, p⟩ } := by
      refine ⟨rfl, rfl, hroom, fun _ => ?_⟩
      dsimp only
      split_ifs with hv
      · obtain ⟨hold, hle⟩ := h.old hv
        exact ⟨hold, by omega⟩
      · exact ⟨rfl, by omega⟩
    refine ⟨true, _, pos + b.length, rfl, Reserve.moveold ⟨htracks, fun _ => Nat.le_add_right _ _⟩,
      .inr ⟨rfl, fun s hs hcov => Covers.moveold ?_ htracks⟩, iff_of_true rfl (by omega)⟩
    rw [Covers]
    dsimp only
    by_cases hbehind : s < p
    · rcases hcov hbehind with hout | ⟨hv, hle, -⟩
      · rw [h.cseq] at hout
        exact .inl (by omega)
      · rw [if_pos hv]
        exact .inr ⟨rfl, hle, hs⟩
    · refine .inr ⟨rfl, ?_, hs⟩
      split_ifs with hv
      · have hle := (h.old hv).2
        omega
      · omega
  · rw [if_pos rfl, if_pos le_rfl]
    have hdd (hv : cr.ovalid = true) : long (ulong (((p + b.length : ℕ) : ℤ) - cr.lgseq)) =
        ((p + b.length : ℕ) : ℤ) - cr.lgseq := by
      have hle := h.lgseq hv
      exact long_ulong_of_small (by omega) (by omega)
    have htracks : Tracks key (p + b.length) { cr with
        current := ⟨key, p + b.length⟩, cseq := p + b.length
        ovalid := cr.ovalid &&
          !decide (long (ulong (((p + b.length : ℕ) : ℤ) - cr.lgseq)) > RC4back) } := by
      refine ⟨rfl, rfl, hroom, fun hv => ?_⟩
      obtain ⟨hold, hle⟩ := h.old (Bool.and_eq_true_iff.mp hv).1
      exact ⟨hold, by dsimp only; omega⟩
    refine ⟨true, _, p + b.length, rfl, Reserve.moveold ⟨htracks, fun hv => ?_⟩,
      .inr ⟨rfl, fun s hs hcov => Covers.moveold ?_ htracks⟩, iff_of_true rfl (by omega)⟩
    · have hle := h.lgseq (Bool.and_eq_true_iff.mp hv).1
      dsimp only
      omega
    · rw [Covers]
      dsimp only
      rcases hcov hs with hout | ⟨hv, hle, hlast⟩
      · rw [h.cseq] at hout
        exact .inl (by omega)
      · -- a reserve that is given up has all of its gaps out of reach
        rw [hdd hv, hv]
        by_cases hdrop : ((p + b.length : ℕ) : ℤ) - cr.lgseq > RC4back
        · exact .inl (by omega)
        · exact .inr ⟨by simpa using hdrop, hle, hlast⟩
  · rw [if_neg hgt.ne, if_neg hgt.asymm, if_neg (Nat.not_le.mpr hgt)]
    by_cases hreach : cr.ovalid = true ∧ p ≤ pos + RC4back ∧ cr.oseq ≤ pos
    · rw [if_pos hreach]
      exact ⟨true, cr, p, by rw [hself]; rfl, h, .inl ⟨rfl, rfl⟩, iff_of_true rfl hreach⟩
    · rw [if_neg hreach]
      exact ⟨false, cr, p, by rw [hself]; rfl, h, .inl ⟨rfl, rfl⟩, iff_of_false nofun hreach⟩

end

/-! ### Runs -/

/-- The two directions, the texts written and their packets, and the packets that came. -/
structure Link where
  out : OneWay
  inp : OneWay
  written : List (List UInt8) := []
  wire : List (List UInt8) := []
  taken : List ℕ := []

/-- A text is encrypted, behind four bytes for the sequence number; or the packet `i` comes. -/
inductive Event
  | encrypt (p : List UInt8)
  | decrypt (i : ℕ)

def exec (L : Libsec) (t : Link) : Event → Option Link
  | .encrypt p =>
    match rc4encrypt L t.out p p.length with
    | some (true, out, pkt) =>
      some { t with out := out, written := t.written ++ [p.drop 4], wire := t.wire ++ [pkt] }
    | _ => none
  | .decrypt i =>
    if i ∈ t.taken then none
    else
      match t.wire[i]? with
      | none => none
      | some pkt =>
        match rc4decrypt L t.inp pkt pkt.length with
        | none => none
        | some (_, inp, _) => some { t with inp := inp, taken := i :: t.taken }

/-- A direction whose generator has just been set up with the key. -/
def Fresh (key : List UInt8) (ow : OneWay) : Prop :=
  ow.cipherstate = some (.rc4 { current := ⟨key, 0⟩ })

/-- The packet `i`, which has not come before, is read as it was written if it is accepted; and if
`P` holds of its text, it is accepted just when it starts near enough to the byte expected. -/
def Resyncs (L : Libsec) (P : List UInt8 → Prop) (t : Link) : Prop :=
  ∀ i b pkt, t.written[i]? = some b → t.wire[i]? = some pkt → i ∉ t.taken →
    ∃ cr ok inp q, t.inp.cipherstate = some (.rc4 cr) ∧
      rc4decrypt L t.inp pkt pkt.length = some (ok, inp, q) ∧ (ok = true → q.drop 4 = b) ∧
      (P b → (ok = true ↔
        offset t.written i ≤ cr.cseq + RC4forward ∧ cr.cseq ≤ offset t.written i + RC4back))

/-- What holds of the two directions while the counters do not wrap. -/
structure Synced (L : Libsec) (key : List UInt8) (t : Link) : Prop where
  out : ∃ cr, t.out.cipherstate = some (.rc4 cr) ∧ cr.current = ⟨key, t.written.flatten.length⟩ ∧
    cr.cseq = t.written.flatten.length
  length : t.wire.length = t.written.length
  wire : ∀ i b pkt, t.written[i]? = some b → t.wire[i]? = some pkt →
    (Sealing.rc4 key).Seals L (offset t.written i) b pkt
  inp : ∃ p cr, t.inp.cipherstate = some (.rc4 cr) ∧ Reserve key p cr ∧
    p ≤ t.written.flatten.length ∧ ∀ i b, t.written[i]? = some b → b ≠ [] → i ∉ t.taken →
      offset t.written i < p → Covers cr (offset t.written i)

section

variable {key : List UInt8} {t u : Link}

/-- Two texts that are not empty and not the same do not begin at the same byte. -/
theorem offset_lt_of_ne {written : List (List UInt8)} {i j : ℕ} {b b' : List UInt8}
    (hi : written[i]? = some b) (hj : written[j]? = some b') (hne : i ≠ j) (hb' : b' ≠ [])
    (hlt : offset written j < offset written i + b.length) :
    offset written j < offset written i := by
  have hmono {m n : ℕ} (h : m ≤ n) : offset written m ≤ offset written n := by
    have htake := offset_le (written.take n) m
    rw [offset, List.take_take, min_eq_left h] at htake
    exact htake
  rcases lt_or_gt_of_ne hne with hij | hji
  · have hle := hmono (Nat.succ_le_of_lt hij)
    rw [offset_succ hi] at hle
    omega
  · have hle := hmono (Nat.succ_le_of_lt hji)
    rw [offset_succ hj] at hle
    have hpos := List.length_pos_iff.mpr hb'
    omega

theorem Synced.resyncs (h : Synced L key t) (hroom : t.written.flatten.length < 2147483648) :
    Resyncs L (· ≠ []) t := by
  intro i b pkt hb hpkt hnew
  obtain ⟨p, cr, hst, hres, hle, hcov⟩ := h.inp
  have hc := h.wire i b pkt hb hpkt
  have hlen : pkt.length = 4 + b.length := by
    rw [hc, List.length_append, length_hnputl, length_rc4]
  have hend : offset t.written i + b.length < 2147483648 := by
    rw [← offset_succ hb]
    exact (offset_le _ _).trans_lt hroom
  obtain ⟨ok, cr', p', hdec, -, -, hok⟩ := hres.rc4decrypt (n := pkt.length) hst (by omega) hc hend
  refine ⟨cr, ok, _, _, hst, hdec, ?_, fun hne => ?_⟩
  · rintro rfl
    exact List.drop_left' (length_hnputl _)
  · rw [hok, hres.cseq]
    split_ifs with hahead
    · omega
    · rcases hcov i b hb hne hnew (by omega) with hout | ⟨hv, hold, -⟩
      · rw [hres.cseq] at hout
        exact iff_of_false (by omega) (by omega)
      · constructor
        · rintro ⟨-, hreach, -⟩
          exact ⟨by omega, hreach⟩
        · exact fun hreach => ⟨hv, hreach.2, hold⟩

/-- The texts written stay. -/
theorem length_written_exec {e : Event} (hstep : exec L t e = some u) :
    t.written.flatten.length ≤ u.written.flatten.length := by
  cases e with
  | encrypt p =>
    rw [exec] at hstep
    split at hstep
    · obtain rfl := Option.some.inj hstep
      rw [List.flatten_append, List.length_append]
      exact Nat.le_add_right _ _
    · cases hstep
  | decrypt i =>
    rw [exec] at hstep
    split_ifs at hstep
    split at hstep
    · cases hstep
    · split at hstep
      · cases hstep
      · obtain rfl := Option.some.inj hstep
        exact le_rfl

/-- A packet that is made. -/
theorem Synced.encrypt (h : Synced L key t) {p : List UInt8}
    (hstep : exec L t (.encrypt p) = some u)
    (hroom : u.written.flatten.length < 2147483648) : Synced L key u := by
  obtain ⟨cr, hst, hcur, hseq⟩ := h.out
  obtain ⟨q, cr', hinp, hres, hle, hcov⟩ := h.inp
  by_cases hlen : p.length < 4
  · simp only [exec, rc4encrypt] at hstep
    rw [if_pos (by omega)] at hstep
    cases hstep
  rw [exec, rc4encrypt_eq hst (by omega)] at hstep
  obtain rfl := Option.some.inj hstep
  have htotal : (t.written ++ [p.drop 4]).flatten.length =
      t.written.flatten.length + (p.length - 4) := by
    simp
  dsimp only at hroom
  rw [htotal] at hroom
  refine ⟨⟨_, rfl, ?_, ?_⟩, ?_, ?_, q, cr', hinp, hres, ?_, ?_⟩
  · rw [hcur, htotal]
    simp [rc4]
  · dsimp only
    rw [hseq, htotal]
    exact Nat.mod_eq_of_lt (by omega)
  · simp [h.length]
  · intro i b pkt hb hpkt
    dsimp only at hb hpkt ⊢
    by_cases hi : i < t.written.length
    · rw [List.getElem?_append_left hi] at hb
      rw [List.getElem?_append_left (by rw [h.length]; exact hi)] at hpkt
      rw [offset_append hi.le]
      exact h.wire i b pkt hb hpkt
    · have hlast : i = t.written.length := by
        have hlt := (List.getElem?_eq_some_iff.mp hb).1
        rw [List.length_append, List.length_singleton] at hlt
        omega
      subst hlast
      rw [List.getElem?_append_right le_rfl, Nat.sub_self] at hb
      rw [List.getElem?_append_right h.length.le, h.length, Nat.sub_self] at hpkt
      obtain rfl := Option.some.inj hb
      obtain rfl := Option.some.inj hpkt
      rw [offset_append le_rfl, offset, List.take_length, Sealing.Seals, hseq, hcur]
  · rw [htotal]
    omega
  · intro i b hb hne hnew hlt
    dsimp only at hb hlt ⊢
    by_cases hi : i < t.written.length
    · rw [List.getElem?_append_left hi] at hb
      rw [offset_append hi.le] at hlt ⊢
      exact hcov i b hb hne hnew hlt
    · have hbehind : t.written.flatten.length ≤ offset (t.written ++ [p.drop 4]) i := by
        rw [offset, List.take_append, List.take_of_length_le (by omega), List.flatten_append,
          List.length_append]
        exact Nat.le_add_right _ _
      omega

/-- A packet that comes. -/
theorem Synced.decrypt (h : Synced L key t) {i : ℕ} (hstep : exec L t (.decrypt i) = some u)
    (hroom : t.written.flatten.length < 2147483648) : Synced L key u := by
  obtain ⟨q, cr, hinp, hres, hle, hcov⟩ := h.inp
  rw [exec] at hstep
  by_cases hnew : i ∈ t.taken
  · rw [if_pos hnew] at hstep
    cases hstep
  rw [if_neg hnew] at hstep
  cases hpkt : t.wire[i]? with
  | none =>
    rw [hpkt] at hstep
    cases hstep
  | some pkt =>
    obtain ⟨b, hb⟩ : ∃ b, t.written[i]? = some b := by
      have hlt := (List.getElem?_eq_some_iff.mp hpkt).1
      exact ⟨_, List.getElem?_eq_getElem (by rw [← h.length]; exact hlt)⟩
    have hc := h.wire i b pkt hb hpkt
    have hlen : pkt.length = 4 + b.length := by
      rw [hc, List.length_append, length_hnputl, length_rc4]
    have hend := offset_le t.written (i + 1)
    rw [offset_succ hb] at hend
    obtain ⟨ok, cr', p', hdec, hres', hcase, -⟩ :=
      hres.rc4decrypt (n := pkt.length) hinp (by omega) hc (by omega)
    rw [hpkt] at hstep
    dsimp only at hstep
    rw [hdec] at hstep
    obtain rfl := Option.some.inj hstep
    refine ⟨h.out, h.length, h.wire, p', cr', rfl, hres', ?_, ?_⟩
    · rcases hcase with ⟨rfl, -⟩ | ⟨rfl, -⟩
      · exact hle
      · exact hend
    · intro j b' hb' hne hnewj hlt
      have hji : i ≠ j := fun heq => hnewj (heq ▸ List.mem_cons_self)
      have hnewj' : j ∉ t.taken := fun hmem => hnewj (List.mem_cons_of_mem _ hmem)
      rcases hcase with ⟨rfl, rfl⟩ | ⟨rfl, hcov'⟩
      · exact hcov j b' hb' hne hnewj' hlt
      · exact hcov' _ (offset_lt_of_ne hb hb' hji hne hlt) (hcov j b' hb' hne hnewj')

end

/-- From generators set up with one key, while fewer than `2 ^ 31` bytes are encrypted, every packet
that has not come resynchronises; one that is not empty is accepted just when it is near enough. -/
theorem resyncs_of_run (key : List UInt8) {s t : Link} (hout : Fresh key s.out)
    (hinp : Fresh key s.inp) (hwritten : s.written = []) (hwire : s.wire = [])
    (hrun : Run (fun s e t => exec L s e = some t) (fun _ _ => True) s t)
    (hroom : t.written.flatten.length < 2147483648) : Resyncs L (· ≠ []) t := by
  have hstart : Synced L key s := by
    refine ⟨⟨_, hout, ?_, ?_⟩, ?_, ?_, 0, _, hinp, ⟨⟨rfl, rfl, by decide, nofun⟩, nofun⟩, ?_, ?_⟩
    · rw [hwritten]
      rfl
    · rw [hwritten]
      rfl
    · rw [hwritten, hwire]
    · intro i b pkt hb
      rw [hwritten] at hb
      cases hb
    · exact Nat.zero_le _
    · intro i b hb
      rw [hwritten] at hb
      cases hb
  have hinv : t.written.flatten.length < 2147483648 → Synced L key t := by
    refine @Run.invariant _ _ _ _ _ _
      (fun t => t.written.flatten.length < 2147483648 → Synced L key t) (fun _ => hstart) ?_ hrun
    intro t e u ht _ hstep hroom
    have hmono := length_written_exec hstep
    cases e with
    | encrypt p => exact (ht (by omega)).encrypt hstep hroom
    | decrypt i => exact (ht (by omega)).decrypt hstep (by omega)
  exact (hinv hroom).resyncs hroom

/-- Two directions whose generators were set up with the same key. -/
def fresh : Link where
  out := { cipherstate := some (.rc4 { current := ⟨[], 0⟩ }) }
  inp := { cipherstate := some (.rc4 { current := ⟨[], 0⟩ }) }

/-- Three packets are made, and the second and the third come. -/
def reordered : List Event :=
  [.encrypt [0, 0, 0, 0, 1], .encrypt [0, 0, 0, 0, 2], .encrypt [0, 0, 0, 0, 3], .decrypt 1,
    .decrypt 2]

theorem resyncs_of_run_reordered : ∃ t, reordered.foldlM (exec Libsec.null) fresh = some t ∧
    Resyncs Libsec.null (· ≠ []) t := by
  have hwritten : (reordered.foldlM (exec Libsec.null) fresh).map Link.written =
      some [[1], [2], [3]] := by decide +kernel
  obtain ⟨t, ht, hw⟩ := Option.map_eq_some_iff.mp hwritten
  exact ⟨t, ht, resyncs_of_run [] (s := fresh) rfl rfl rfl rfl (Run.of_foldlM ht)
    (by rw [hw]; decide)⟩

/-- An empty packet and one of a byte are made, and the latter comes. -/
def emptyFirst : List Event := [.encrypt [0, 0, 0, 0], .encrypt [0, 0, 0, 0, 1], .decrypt 1]

/-- The empty packet starts one byte behind what the receiver expects, and it is refused. -/
theorem not_resyncs_empty : ¬∀ (L : Libsec) (key : List UInt8) (s t : Link), Fresh key s.out →
    Fresh key s.inp → s.written = [] → s.wire = [] →
    Run (fun s e t => exec L s e = some t) (fun _ _ => True) s t →
    t.written.flatten.length < 2147483648 → Resyncs L (fun _ => True) t := by
  intro h
  have hrun : (emptyFirst.foldlM (exec Libsec.null) fresh).map (fun t =>
      (t.written, t.wire, t.taken, t.inp.cipherstate,
        (rc4decrypt Libsec.null t.inp [0, 0, 0, 0] 4).map (·.1))) =
      some ([[], [1]], [[0, 0, 0, 0], [0, 0, 0, 0, 1]], [1],
        some (.rc4 { cseq := 1, current := ⟨[], 1⟩ }), some false) := by rfl
  obtain ⟨t, ht, heq⟩ := Option.map_eq_some_iff.mp hrun
  simp only [Prod.mk.injEq] at heq
  obtain ⟨hwritten, hwire, htaken, hst, hdec⟩ := heq
  obtain ⟨cr, ok, inp, q, hst', hdec', -, hok⟩ :=
    h Libsec.null [] fresh t rfl rfl rfl rfl (Run.of_foldlM ht) (by rw [hwritten]; decide)
      0 [] [0, 0, 0, 0] (by rw [hwritten]; rfl) (by rw [hwire]; rfl) (by rw [htaken]; decide)
  have hcr : cr = { cseq := 1, current := ⟨[], 1⟩ } := by
    rw [hst] at hst'
    simpa using hst'.symm
  rw [show (([0, 0, 0, 0] : List UInt8).length : ℤ) = 4 from rfl] at hdec'
  rw [hdec', Option.map_some, Option.some.injEq] at hdec
  have hnear : ok = true := (hok trivial).mpr (by rw [hcr, hwritten]; decide)
  exact absurd (hdec.symm.trans hnear) (by decide)

end PlanNine.Sdp.Resync
