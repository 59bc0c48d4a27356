import Mathlib.Algebra.Order.BigOperators.Group.Finset
import PlanNine.Ip.Tcp.Limbo

/-!
# The table of calls in limbo stays in order

Every chain ends in a nil pointer, the counter is the number of entries on the chains, every
allocated entry is on one chain or was freed once, and no call is there twice. This holds in every
run that does not do two things: when the table is full and the new call hashes to a chain of one
entry, that entry is linked to itself and lost; and when `Fsnewcall` gives no conversation for a
call that comes out of limbo, its entry is neither on a chain nor freed.

## Main definitions

* `Kept`: the table is in order, but for an entry that is on no chain at the moment.
* `Event`, `step`: the calls of the routines.
* `Sound`: a call does neither of the two things.

## Main results

* `Kept.unchain`, `Kept.attach`: taking an entry out, and putting one in.
* `bookkept_of_run`: every run of sound calls keeps the table in order.
* `not_kept_of_newcall`: an entry is lost when there is no conversation for its call.
-/

namespace PlanNine.TcpProto

open Links

/-- What identifies the call of an entry. -/
def Limbo.call (lp : Limbo) : List UInt8 × ℕ × List UInt8 × ℕ × ℕ :=
  (lp.laddr, lp.lport, lp.raddr, lp.rport, lp.version)

/-- The chain of an entry. -/
def Limbo.hash (lp : Limbo) : ℕ := hashipa lp.raddr lp.rport

theorem Limbo.isCall_iff {lp : Limbo} {seg : Tcp} {source dest : List UInt8} {version : ℕ} :
    lp.isCall seg source dest version = true ↔
      lp.call = (dest, seg.dest, source, seg.source, version) := by
  simp only [Limbo.isCall, Limbo.call, decide_eq_true_eq, Prod.mk.injEq]
  tauto

theorem Limbo.hash_eq_of_call {lp lq : Limbo} (h : lp.call = lq.call) : lp.hash = lq.hash := by
  simp only [Limbo.call, Prod.mk.injEq] at h
  rw [Limbo.hash, Limbo.hash, h.2.2.1, h.2.2.2.1]

theorem hashipa_lt (a : List UInt8) (p : ℕ) : hashipa a p < NLHT :=
  Nat.mod_lt _ (by decide)

theorem Limbo.hash_lt (lp : Limbo) : lp.hash < NLHT := hashipa_lt _ _

/-- The chains of the table are `c`, and `nlimbo` counts their entries and `n` more. Every entry
allocated is on one chain, freed, or it is the entry `loose`. -/
structure Kept (t : Tcppriv) (c : ℕ → List ℕ) (loose : Option ℕ) (n : ℕ) : Prop where
  chain : ∀ h < NLHT, t.lht.Chain (.root h) (c h)
  nodup : ∀ h < NLHT, (c h).Nodup
  home : ∀ h < NLHT, ∀ p ∈ c h, (t.entry p).hash = h
  count : t.nlimbo = ((∑ h ∈ Finset.range NLHT, (c h).length) + n : ℕ)
  live : ∀ h < NLHT, ∀ p ∈ c h, p < t.mallocs ∧ p ∉ t.frees ∧ loose ≠ some p
  gone : ∀ p < t.mallocs, (∃ h < NLHT, p ∈ c h) ∨ p ∈ t.frees ∨ loose = some p
  freed : t.frees.Nodup ∧ ∀ p ∈ t.frees, p < t.mallocs ∧ loose ≠ some p
  loose_lt : ∀ p, loose = some p → p < t.mallocs
  calls : ∀ h < NLHT, ∀ p ∈ c h, ∀ q ∈ c h, (t.entry p).call = (t.entry q).call → p = q

namespace Kept

variable {t : Tcppriv} {c : ℕ → List ℕ} {loose : Option ℕ} {n h p : ℕ} {ps qs : List ℕ}

theorem length_le (hk : Kept t c loose n) (hh : h < NLHT) : (c h).length ≤ t.mallocs :=
  length_le_of_nodup (hk.nodup h hh) fun p hp => (hk.live h hh p hp).1

/-- A chain has no element that is the root of another. -/
theorem chain_other (hk : Kept t c loose n) {h' : ℕ} (hh' : h' < NLHT) {l : Link ℕ} {v : Option ℕ}
    (hroot : l ≠ .root h') (hnext : ∀ q ∈ c h', l ≠ .next q) :
    (t.lht.set l v).Chain (.root h') (c h') :=
  (chain_set_of_ne hroot hnext).mpr (hk.chain h' hh')

/-- Entries of different chains are different. -/
theorem chain_eq (hk : Kept t c loose n) {h' : ℕ} (hh : h < NLHT) (hh' : h' < NLHT) (hp : p ∈ c h)
    (hp' : p ∈ c h') : h = h' := by
  rw [← hk.home h hh p hp, hk.home h' hh' p hp']

/-- The last link behind elements of a chain is not used by another chain. -/
theorem lastLink_ne (hk : Kept t c loose n) (hh : h < NLHT) {h' : ℕ} (hh' : h' < NLHT)
    (hne : h' ≠ h) (hsub : ps ⊆ c h) : lastLink (.root h) ps ≠ .root h' ∧
      ∀ q ∈ c h', lastLink (.root h) ps ≠ .next q := by
  rcases lastLink_mem (.root h) ps with heq | ⟨q', hq', heq⟩
  · rw [heq]
    exact ⟨fun h => hne (Link.root.inj h).symm, fun _ _ => by simp⟩
  · rw [heq]
    refine ⟨by simp, fun q hq hqq => hne ?_⟩
    rw [Link.next.inj hqq] at hq'
    exact hk.chain_eq hh' hh hq (hsub hq')

/-- Data of an entry that does not say which call it is may change. -/
theorem setEntry (hk : Kept t c loose n) {lp : Limbo} (hcall : lp.call = (t.entry p).call) :
    Kept (t.setEntry p lp) c loose n := by
  have hsame (q : ℕ) : ((t.setEntry p lp).entry q).call = (t.entry q).call := by
    unfold Tcppriv.setEntry
    by_cases hq : q = p
    · subst hq
      simpa using hcall
    · simp [Function.update_of_ne hq]
  refine { hk with
    home := fun h hh q hq => (Limbo.hash_eq_of_call (hsame q)).trans (hk.home h hh q hq)
    calls := fun h hh q hq q' hq' heq => hk.calls h hh q hq q' hq' ?_ }
  rw [← hsame q, ← hsame q', heq]

/-- Data of an entry that is on no chain may be set. -/
theorem setEntry_loose (hk : Kept t c (some p) n) (lp : Limbo) :
    Kept (t.setEntry p lp) c (some p) n := by
  have hsame {h q : ℕ} (hh : h < NLHT) (hq : q ∈ c h) : (t.setEntry p lp).entry q = t.entry q :=
    Function.update_of_ne (fun heq => (hk.live h hh q hq).2.2 (congrArg some heq.symm)) _ _
  refine { hk with
    home := fun h hh q hq => by rw [hsame hh hq]; exact hk.home h hh q hq
    calls := fun h hh q hq q' hq' heq => hk.calls h hh q hq q' hq' ?_ }
  rwa [hsame hh hq, hsame hh hq'] at heq

/-- Freeing the entry that is on no chain. -/
theorem free (hk : Kept t c (some p) n) : Kept (t.free p) c none n where
  chain := hk.chain
  nodup := hk.nodup
  home := hk.home
  count := hk.count
  live h hh q hq := by
    obtain ⟨hlt, hfree, hloose⟩ := hk.live h hh q hq
    refine ⟨hlt, fun hmem => ?_, by simp⟩
    rcases List.mem_cons.mp hmem with heq | hmem
    · exact hloose (congrArg some heq.symm)
    · exact hfree hmem
  gone q hq := by
    rcases hk.gone q hq with hc | hf | hl
    · exact .inl hc
    · exact .inr (.inl (List.mem_cons_of_mem _ hf))
    · exact .inr (.inl (List.mem_cons.mpr (.inl (Option.some.inj hl).symm)))
  freed := by
    refine ⟨List.nodup_cons.mpr ⟨fun hp => (hk.freed.2 p hp).2 rfl, hk.freed.1⟩, fun q hq => ?_⟩
    rcases List.mem_cons.mp hq with rfl | hq
    · exact ⟨hk.loose_lt q rfl, by simp⟩
    · exact ⟨(hk.freed.2 q hq).1, by simp⟩
  loose_lt := by simp
  calls := hk.calls

/-- The number of entries when one chain has changed. -/
theorem sum_update (c : ℕ → List ℕ) (hh : h < NLHT) (ps : List ℕ) :
    (∑ h' ∈ Finset.range NLHT, (Function.update c h ps h').length) + (c h).length =
      (∑ h' ∈ Finset.range NLHT, (c h').length) + ps.length := by
  have hmem : h ∈ Finset.range NLHT := Finset.mem_range.mpr hh
  have hnew := Finset.add_sum_erase (Finset.range NLHT)
    (fun h' => (Function.update c h ps h').length) hmem
  have hold := Finset.add_sum_erase (Finset.range NLHT) (fun h' => (c h').length) hmem
  have hrest : ∑ h' ∈ (Finset.range NLHT).erase h, (Function.update c h ps h').length =
      ∑ h' ∈ (Finset.range NLHT).erase h, (c h').length :=
    Finset.sum_congr rfl fun h' hh' => by
      rw [Function.update_of_ne (Finset.ne_of_mem_erase hh')]
  simp only [Function.update_self] at hnew
  omega

/-- The chain `h` gets other elements: those it had and the entry that was on no chain, but for the
one that is on no chain now. -/
theorem replace (hk : Kept t c loose n) (hh : h < NLHT) {lht : Links ℕ} {ds : List ℕ}
    {loose' : Option ℕ} {m : ℕ} (hchain : lht.Chain (.root h) ds)
    (hothers : ∀ h' < NLHT, h' ≠ h → lht.Chain (.root h') (c h')) (hnodup : ds.Nodup)
    (hmem : ∀ q, q ∈ ds ∨ loose' = some q ↔ q ∈ c h ∨ loose = some q)
    (hloose : ∀ q ∈ ds, loose' ≠ some q) (hcount : m + ds.length = n + (c h).length)
    (hnew : ∀ q ∈ ds, loose = some q →
      (t.entry q).hash = h ∧ ∀ r ∈ c h, (t.entry r).call ≠ (t.entry q).call) :
    Kept { t with lht := lht } (Function.update c h ds) loose' m := by
  have hsub (q : ℕ) (hq : q ∈ ds) : q ∈ c h ∨ loose = some q := (hmem q).mp (.inl hq)
  have hold (q : ℕ) (hq : loose' = some q) : q ∈ c h ∨ loose = some q := (hmem q).mp (.inr hq)
  have hself : Function.update c h ds h = ds := Function.update_self _ _ _
  have hother {h' : ℕ} (hne : h' ≠ h) : Function.update c h ds h' = c h' :=
    Function.update_of_ne hne _ _
  have hfree (q : ℕ) (hq : q ∈ t.frees) : loose' ≠ some q := by
    intro heq
    rcases hold q heq with hc | hl
    · exact (hk.live h hh q hc).2.1 hq
    · exact (hk.freed.2 q hq).2 hl
  refine ⟨fun h' hh' => ?_, fun h' hh' => ?_, fun h' hh' q hq => ?_, ?_, fun h' hh' q hq => ?_,
    fun q hq => ?_, ⟨hk.freed.1, fun q hq => ⟨(hk.freed.2 q hq).1, hfree q hq⟩⟩,
    fun q hq => ?_, fun h' hh' q hq r hr heq => ?_⟩
  · by_cases hne : h' = h
    · rw [hne, hself]
      exact hchain
    · rw [hother hne]
      exact hothers h' hh' hne
  · by_cases hne : h' = h
    · rw [hne, hself]
      exact hnodup
    · rw [hother hne]
      exact hk.nodup h' hh'
  · by_cases hne : h' = h
    · rw [hne, hself] at hq
      rw [hne]
      rcases hsub q hq with hc | hl
      · exact hk.home h hh q hc
      · exact (hnew q hq hl).1
    · rw [hother hne] at hq
      exact hk.home h' hh' q hq
  · have hsum := sum_update c hh ds
    have hn := hk.count
    dsimp only
    omega
  · by_cases hne : h' = h
    · rw [hne, hself] at hq
      rcases hsub q hq with hc | hl
      · exact ⟨(hk.live h hh q hc).1, (hk.live h hh q hc).2.1, hloose q hq⟩
      · exact ⟨hk.loose_lt q hl, fun hf => (hk.freed.2 q hf).2 hl, hloose q hq⟩
    · rw [hother hne] at hq
      obtain ⟨hlt, hf, hl⟩ := hk.live h' hh' q hq
      refine ⟨hlt, hf, fun heq => ?_⟩
      rcases hold q heq with hc | hl'
      · exact hne (hk.chain_eq hh' hh hq hc)
      · exact hl hl'
  · have hback (hq : q ∈ c h ∨ loose = some q) :
        (∃ h' < NLHT, q ∈ Function.update c h ds h') ∨ q ∈ t.frees ∨ loose' = some q := by
      rcases (hmem q).mpr hq with hd | hl
      · exact .inl ⟨h, hh, by rwa [hself]⟩
      · exact .inr (.inr hl)
    rcases hk.gone q hq with ⟨h', hh', hc⟩ | hf | hl
    · by_cases hne : h' = h
      · rw [hne] at hc
        exact hback (.inl hc)
      · exact .inl ⟨h', hh', by rwa [hother hne]⟩
    · exact .inr (.inl hf)
    · exact hback (.inr hl)
  · rcases hold q hq with hc | hl
    · exact (hk.live h hh q hc).1
    · exact hk.loose_lt q hl
  · by_cases hne : h' = h
    · rw [hne, hself] at hq hr
      rcases hsub q hq with hc | hl <;> rcases hsub r hr with hc' | hl'
      · exact hk.calls h hh q hc r hc' heq
      · exact absurd heq ((hnew r hr hl').2 q hc)
      · exact absurd heq.symm ((hnew q hq hl).2 r hc')
      · exact Option.some.inj (hl.symm.trans hl')
    · rw [hother hne] at hq hr
      exact hk.calls h' hh' q hq r hr heq

/-- Take an entry out of its chain. -/
theorem unlink (hk : Kept t c none n) (hh : h < NLHT) (hc : c h = ps ++ p :: qs) :
    Kept { t with lht := t.lht.set (lastLink (.root h) ps) (t.lht.next p) }
      (Function.update c h (ps ++ qs)) (some p) (n + 1) := by
  have hnodup := hk.nodup h hh
  have hchain := hk.chain h hh
  have hsub : ps ⊆ c h := by
    rw [hc]
    exact List.subset_append_left _ _
  have hlast {h' : ℕ} (hh' : h' < NLHT) (hne : h' ≠ h) := hk.lastLink_ne hh hh' hne hsub
  rw [hc] at hnodup hchain
  obtain ⟨hp, hrest⟩ := List.nodup_cons.mp (List.nodup_middle.mp hnodup)
  refine hk.replace hh (chain_unlink hchain hnodup fun _ _ => by simp)
    (fun h' hh' hne => hk.chain_other hh' (hlast hh' hne).1 (hlast hh' hne).2) hrest
    (fun q => ?_) (fun q hq heq => ?_) ?_ fun q hq hl => by simp at hl
  · simp only [hc, List.mem_append, List.mem_cons, Option.some.injEq, reduceCtorEq, or_false,
      eq_comm]
    tauto
  · exact hp (Option.some.inj heq ▸ hq)
  · rw [hc]
    simp only [List.length_append, List.length_cons]
    omega

/-- An entry is taken out, and the counter goes down. -/
theorem unchain (hk : Kept t c none n) (hh : h < NLHT) (hc : c h = ps ++ p :: qs) :
    Kept (t.unchain (lastLink (.root h) ps) p) (Function.update c h (ps ++ qs)) (some p) n := by
  have hu := hk.unlink hh hc
  refine { hu with count := ?_ }
  have := hu.count
  simp only [Tcppriv.unchain] at this ⊢
  omega

/-- Put the entry that is on no chain at the end of its chain. -/
theorem attach (hk : Kept t c (some p) (n + 1)) (hh : h < NLHT) (hhash : (t.entry p).hash = h)
    (hnew : ∀ q ∈ c h, (t.entry q).call ≠ (t.entry p).call) (hnext : t.lht.next p = none) :
    Kept { t with lht := t.lht.set (lastLink (.root h) (c h)) (some p) }
      (Function.update c h (c h ++ [p])) none n := by
  have hp : p ∉ c h := fun hp => (hk.live h hh p hp).2.2 rfl
  have hlast {h' : ℕ} (hh' : h' < NLHT) (hne : h' ≠ h) :=
    hk.lastLink_ne hh hh' hne (List.Subset.refl (c h))
  refine hk.replace hh (chain_concat (hk.chain h hh) (hk.nodup h hh) (fun _ _ => by simp) hp
    (by simp) hnext) (fun h' hh' hne => hk.chain_other hh' (hlast hh' hne).1 (hlast hh' hne).2)
    ?_ (fun q => ?_) (fun q _ => by simp) ?_ fun q _ hl => ?_
  · exact List.nodup_append.mpr ⟨hk.nodup h hh, List.nodup_singleton p, fun q hq r hr heq =>
      hp (by rw [← List.mem_singleton.mp hr, ← heq]; exact hq)⟩
  · simp only [List.mem_append, List.mem_singleton, reduceCtorEq, or_false, Option.some.injEq,
      eq_comm]
  · rw [List.length_append, List.length_singleton]
    omega
  · obtain rfl := Option.some.inj hl
    exact ⟨hhash, hnew⟩

/-- Memory for a new entry, which is counted. -/
theorem malloc (hk : Kept t c none n) :
    Kept { t.malloc with nlimbo := t.nlimbo + 1 } c (some t.mallocs) (n + 1) := by
  have hsame {h q : ℕ} (hh : h < NLHT) (hq : q ∈ c h) : t.malloc.entry q = t.entry q :=
    Function.update_of_ne (hk.live h hh q hq).1.ne _ _
  have hne {h q : ℕ} (hh : h < NLHT) (hq : q ∈ c h) : Link.next t.mallocs ≠ (.next q : Link ℕ) :=
    fun heq => (hk.live h hh q hq).1.ne (Link.next.inj heq).symm
  refine ⟨fun h hh => hk.chain_other (l := .next t.mallocs) (v := none) hh (by simp) fun q hq =>
    hne hh hq, hk.nodup, fun h hh q hq => ?_, ?_, fun h hh q hq => ?_, fun q hq => ?_,
      ⟨hk.freed.1, fun q hq => ?_⟩,
    fun q hq => ?_, fun h hh q hq r hr heq => ?_⟩
  · dsimp only
    rw [hsame hh hq]
    exact hk.home h hh q hq
  · have := hk.count
    dsimp only
    omega
  · obtain ⟨hlt, hf, -⟩ := hk.live h hh q hq
    exact ⟨Nat.lt_succ_of_lt hlt, hf, fun heq => hlt.ne (Option.some.inj heq).symm⟩
  · rcases Nat.lt_succ_iff_lt_or_eq.mp hq with hlt | rfl
    · exact (hk.gone q hlt).imp_right fun hg => hg.imp_right fun hl => by simp at hl
    · exact .inr (.inr rfl)
  · have hlt := (hk.freed.2 q hq).1
    exact ⟨Nat.lt_succ_of_lt hlt, fun heq => hlt.ne (Option.some.inj heq).symm⟩
  · exact Option.some.inj hq ▸ Nat.lt_succ_self _
  · dsimp only at heq
    rw [hsame hh hq, hsame hh hr] at heq
    exact hk.calls h hh q hq r hr heq

/-- The `next` field of an entry that is on no chain does not matter. -/
theorem setNext_loose (hk : Kept t c (some p) n) (v : Option ℕ) :
    Kept { t with lht := t.lht.set (.next p) v } c (some p) n :=
  { hk with
    chain := fun h hh => hk.chain_other hh (by simp) fun q hq heq =>
      (hk.live h hh q hq).2.2 (congrArg some (Link.next.inj heq)) }

/-- An entry that is on no chain is counted no more. -/
theorem uncount (hk : Kept t c loose (n + 1)) :
    Kept { t with nlimbo := t.nlimbo - 1 } c loose n := by
  refine { hk with count := ?_ }
  have := hk.count
  dsimp only
  omega

/-- The walk finds the entry of a call, with the link to it, or comes to the end of the chain. -/
theorem find_spec (hk : Kept t c loose n) (seg : Tcp) (source dest : List UInt8) (version : ℕ) :
    ∃ l, t.find seg source dest version = some l ∧
      ((∃ ps p qs, c (hashipa source seg.source) = ps ++ p :: qs ∧
        l = lastLink (.root (hashipa source seg.source)) ps ∧ t.lht.get l = some p ∧
        (t.entry p).call = (dest, seg.dest, source, seg.source, version)) ∨
      (l = lastLink (.root (hashipa source seg.source)) (c (hashipa source seg.source)) ∧
        t.lht.get l = none ∧ ∀ q ∈ c (hashipa source seg.source),
          (t.entry q).call ≠ (dest, seg.dest, source, seg.source, version))) := by
  have hh := hashipa_lt source seg.source
  have hwalk := walk_eq (hk.chain _ hh)
    (fun p => (t.entry p).isCall seg source dest version) (Nat.lt_succ_of_le (hk.length_le hh))
  have hother (q : ℕ) (hq : (!(t.entry q).isCall seg source dest version) = true) :
      (t.entry q).call ≠ (dest, seg.dest, source, seg.source, version) := fun hcall => by
    rw [Limbo.isCall_iff.mpr hcall] at hq
    contradiction
  refine ⟨_, hwalk, ?_⟩
  have hsplit := List.takeWhile_append_dropWhile
    (p := fun p => !(t.entry p).isCall seg source dest version)
    (l := c (hashipa source seg.source))
  have hall := List.all_takeWhile (p := fun p => !(t.entry p).isCall seg source dest version)
    (l := c (hashipa source seg.source))
  have hchain := hk.chain _ hh
  rw [← hsplit] at hchain
  rcases hdrop : (c (hashipa source seg.source)).dropWhile
    fun p => !(t.entry p).isCall seg source dest version with _ | ⟨p, qs⟩
  · refine .inr ⟨?_, ?_, fun q hq => ?_⟩
    · rw [hdrop, List.append_nil] at hsplit
      rw [hsplit]
    · rw [hdrop] at hchain
      exact hchain.drop
    · rw [← hsplit, hdrop, List.append_nil] at hq
      exact hother q (List.all_eq_true.mp hall q hq)
  · refine .inl ⟨_, p, qs, ?_, rfl, ?_, ?_⟩
    · rw [← hdrop, hsplit]
    · rw [hdrop] at hchain
      exact hchain.drop.1
    · have hnot := List.head?_dropWhile_not
        (fun p => !(t.entry p).isCall seg source dest version) (c (hashipa source seg.source))
      rw [hdrop] at hnot
      exact Limbo.isCall_iff.mp (by simpa using hnot)

/-- `sndsynack` leaves the call as it is. -/
theorem setEntry_sndsynack (hk : Kept t c loose n) (r : Synack) :
    Kept (t.setEntry p (sndsynack (t.entry p) r)) c loose n := by
  refine hk.setEntry ?_
  unfold sndsynack
  dsimp only
  split_ifs <;> rfl

/-- An entry of a chain is answered, or thrown out. -/
theorem answer (hk : Kept t c none 0) (hh : h < NLHT) (hc : c h = ps ++ p :: qs) (r : Synack) :
    ∃ c', Kept (answer t (lastLink (.root h) ps) p r) c' none 0 := by
  unfold TcpProto.answer
  dsimp only
  split_ifs
  · exact ⟨_, ((hk.setEntry_sndsynack r).unchain hh hc).free⟩
  · exact ⟨c, hk.setEntry_sndsynack r⟩

/-- A new entry is put at the end of its chain and answered. -/
theorem enter (hk : Kept t c (some p) 1) (hh : h < NLHT) {lp : Limbo} (hhash : lp.hash = h)
    (hnew : ∀ q ∈ c h, (t.entry q).call ≠ lp.call) (hnext : t.lht.next p = none) (r : Synack) :
    ∃ c', Kept (TcpProto.answer (Tcppriv.setEntry
      { t with lht := t.lht.set (lastLink (.root h) (c h)) (some p) } p lp)
      (lastLink (.root h) (c h)) p r) c' none 0 := by
  have hself : (t.setEntry p lp).entry p = lp := Function.update_self _ _ _
  have hsame {q : ℕ} (hq : q ∈ c h) : (t.setEntry p lp).entry q = t.entry q :=
    Function.update_of_ne (fun heq => (hk.live h hh q hq).2.2 (congrArg some heq.symm)) _ _
  have hin := (hk.setEntry_loose lp).attach hh (by rw [hself, hhash])
    (fun q hq => by rw [hself, hsame hq]; exact hnew q hq) hnext
  exact hin.answer hh (Function.update_self _ _ _) r

/-- A new entry that is linked to itself is thrown out when it cannot be answered. -/
theorem lone (hk : Kept t c (some p) 1) (lp : Limbo) {r : Synack} (hr : r.fails = true) :
    Kept (TcpProto.answer (Tcppriv.setEntry
      { t with lht := t.lht.set (.next p) (some p) } p lp) (.next p) p r) c none 0 := by
  have hin := ((hk.setNext_loose (some p)).setEntry_loose lp).setEntry_loose
    (sndsynack (Tcppriv.entry (Tcppriv.setEntry
      { t with lht := t.lht.set (.next p) (some p) } p lp) p) r)
  unfold TcpProto.answer
  dsimp only
  rw [if_pos hr]
  exact (hin.setNext_loose _).uncount.free

/-- The entry for a new call: it is on no chain, and the rest of its chain is as it was. -/
theorem limboAlloc_spec (hk : Kept t c none 0) (hh : h < NLHT) (malloc : Bool) :
    limboAlloc t h malloc = none ∨ ∃ p t' c', limboAlloc t h malloc = some (p, t') ∧
      Kept t' c' (some p) 1 ∧ t'.lht.next p = none ∧
      (∀ q ∈ c' h, q ∈ c h ∧ t'.entry q = t.entry q) ∧
      (lastLink (.root h) (c' h) = lastLink (.root h) (c h) ∨
        (Maxlimbo : ℤ) ≤ t.nlimbo ∧ c h = [p]) := by
  have hfresh : (if malloc then some (t.mallocs, { t.malloc with nlimbo := t.nlimbo + 1 })
      else none) = none ∨ ∃ p t' c',
      (if malloc then some (t.mallocs, { t.malloc with nlimbo := t.nlimbo + 1 }) else none) =
        some (p, t') ∧ Kept t' c' (some p) 1 ∧ t'.lht.next p = none ∧
      (∀ q ∈ c' h, q ∈ c h ∧ t'.entry q = t.entry q) ∧
      (lastLink (.root h) (c' h) = lastLink (.root h) (c h) ∨
        (Maxlimbo : ℤ) ≤ t.nlimbo ∧ c h = [p]) := by
    cases malloc with
    | false => exact .inl rfl
    | true =>
      refine .inr ⟨_, _, c, rfl, hk.malloc, ?_, fun q hq => ⟨hq, ?_⟩, .inl rfl⟩
      · exact Function.update_self _ _ _
      · exact Function.update_of_ne (hk.live h hh q hq).1.ne _ _
  have hchain := hk.chain h hh
  unfold limboAlloc
  dsimp only
  cases hc : c h with
  | nil =>
    rw [hc] at hchain hfresh
    rw [show t.lht.root h = none from hchain]
    exact hfresh
  | cons p qs =>
    rw [show t.lht.root h = some p from (hc ▸ hchain).1]
    dsimp only
    by_cases hfull : (Maxlimbo : ℤ) ≤ t.nlimbo
    swap
    · rw [if_neg hfull, ← hc]
      exact hfresh
    rw [if_pos hfull]
    have hc' : c h = [] ++ p :: qs := hc
    have hout := (hk.unlink hh hc').setNext_loose none
    have hself : Function.update c h ([] ++ qs) h = qs := Function.update_self _ _ _
    refine .inr ⟨p, _, _, rfl, hout, Function.update_self _ _ _, fun q hq => ⟨?_, rfl⟩, ?_⟩
    · rw [hself] at hq
      exact List.mem_cons_of_mem _ hq
    · rw [hself]
      cases qs with
      | nil => exact .inr ⟨hfull, rfl⟩
      | cons q qs => exact .inl rfl

end Kept

/-! ### The routines -/

/-- The table is in order. -/
def Good (t : Tcppriv) : Prop := ∃ c, Kept t c none 0

variable {t : Tcppriv}

theorem good_limborst (h : Good t) (segp : Tcp) (src dst : List UInt8) (version : ℕ) :
    ∃ t', limborst t segp src dst version = some t' ∧ Good t' := by
  obtain ⟨c, hk⟩ := h
  obtain ⟨l, hfind, hl⟩ := hk.find_spec segp src dst version
  refine ⟨_, by rw [limborst, hfind]; rfl, ?_⟩
  rcases hl with ⟨ps, p, qs, hc, rfl, hget, -⟩ | ⟨-, hget, -⟩
  · dsimp only
    rw [hget]
    dsimp only
    split_ifs
    · exact ⟨_, (hk.unchain (hashipa_lt _ _) hc).free⟩
    · exact ⟨c, hk⟩
  · dsimp only
    rw [hget]
    exact ⟨c, hk⟩

theorem good_rexmitChain (now : ℕ) (snd : ℕ → Synack) {h : ℕ} (hh : h < NLHT) (fuel : ℕ) :
    ∀ (t : Tcppriv) (seen : ℕ) (c : ℕ → List ℕ) (ps qs : List ℕ), Kept t c none 0 →
      c h = ps ++ qs → Good (rexmitChain now snd fuel t (lastLink (.root h) ps) seen).1 := by
  induction fuel with
  | zero => exact fun t seen c ps qs hk _ => ⟨c, hk⟩
  | succ fuel ih =>
    intro t seen c ps qs hk hc
    have hchain := hk.chain h hh
    rw [hc] at hchain
    unfold rexmitChain
    cases qs with
    | nil =>
      rw [show t.lht.get (lastLink (.root h) ps) = none from hchain.drop]
      exact ⟨c, hk⟩
    | cons p qs =>
      rw [hchain.drop.1]
      dsimp only
      split_ifs with hseen hdue hold hattack hfails
      · exact ⟨c, hk⟩
      · exact ih t _ c ps (p :: qs) hk hc
      all_goals
        have hset : Kept (t.setEntry p
            { t.entry p with rexmits := ((t.entry p).rexmits + 1) % 256 }) c none 0 :=
          hk.setEntry rfl
      · exact ih _ _ _ ps qs (hset.unchain hh hc).free (Function.update_self _ _ _)
      · exact ih _ _ c ps (p :: qs) hset hc
      · unfold answer
        dsimp only
        rw [if_pos hfails]
        exact ih _ _ _ ps qs ((hset.setEntry_sndsynack _).unchain hh hc).free
          (Function.update_self _ _ _)
      · have hnext : Link.next p = lastLink (.root h) (ps ++ [p]) := by
          rw [lastLink_append]
          rfl
        unfold answer
        dsimp only
        rw [if_neg hfails, hnext]
        refine ih _ _ c (ps ++ [p]) qs (hset.setEntry_sndsynack _) ?_
        rw [hc, List.append_assoc, List.singleton_append]

theorem good_limborexmit (h : Good t) (now : ℕ) (snd : ℕ → Synack) :
    Good (limborexmit t now snd) := by
  suffices hs : ∀ (hs : List ℕ) (w : Tcppriv × ℕ), (∀ h ∈ hs, h < NLHT) → Good w.1 →
      Good (hs.foldl (fun w h => if w.1.nlimbo ≤ w.2 then w
        else rexmitChain now snd w.1.nlimbo.toNat w.1 (.root h) w.2) w).1 from
    hs _ _ (fun h hh => List.mem_range.mp hh) h
  intro hs
  induction hs with
  | nil => exact fun w _ hw => hw
  | cons h hs ih =>
    intro w hlt hw
    refine ih _ (fun h' hh' => hlt h' (List.mem_cons_of_mem _ hh')) ?_
    dsimp only
    split_ifs
    · exact hw
    · obtain ⟨c, hk⟩ := hw
      exact good_rexmitChain now snd (hlt h List.mem_cons_self) _ w.1 w.2 c [] (c h) hk rfl

/-- The call is not in limbo, the table is full, and its chain has one entry. -/
def LoneFull (t : Tcppriv) (seg : Tcp) (source dest : List UInt8) (version : ℕ) : Prop :=
  (Maxlimbo : ℤ) ≤ t.nlimbo ∧ ∃ p, t.lht.root (hashipa source seg.source) = some p ∧
    t.lht.next p = none ∧ (t.entry p).isCall seg source dest version = false

/-- The segment takes a call out of limbo. -/
def OutOfLimbo (t : Tcppriv) (segp : Tcp) (src dst : List UInt8) (version : ℕ) : Prop :=
  segp.flags &&& SYN = 0 ∧ segp.flags &&& ACK ≠ 0 ∧
    ∃ l p, t.find segp src dst version = some l ∧ t.lht.get l = some p ∧
      segp.seq = ((t.entry p).irs + 1) % 4294967296 ∧ segp.ack = ((t.entry p).iss + 1) % 4294967296

theorem good_tcpincoming (h : Good t) (segp : Tcp) (src dst : List UInt8) (version : ℕ)
    (newcall : Bool) (hsound : newcall = true ∨ ¬ OutOfLimbo t segp src dst version) :
    ∃ r, tcpincoming t segp src dst version newcall = some r ∧ Good r.1 := by
  obtain ⟨c, hk⟩ := h
  unfold tcpincoming
  by_cases hflags : segp.flags &&& SYN ≠ 0 ∨ segp.flags &&& ACK = 0
  · exact ⟨_, if_pos hflags, c, hk⟩
  rw [if_neg hflags]
  rw [not_or, not_not] at hflags
  obtain ⟨l, hfind, hl⟩ := hk.find_spec segp src dst version
  refine ⟨_, by rw [hfind]; rfl, ?_⟩
  dsimp only
  rcases hl with ⟨ps, p, qs, hc, rfl, hget, -⟩ | ⟨-, hget, -⟩
  · rw [hget]
    dsimp only
    split_ifs with hmiss hnew
    · exact ⟨c, hk⟩
    · exact ⟨_, (hk.unchain (hashipa_lt _ _) hc).free⟩
    · rw [not_or, not_not, not_not] at hmiss
      exact absurd ⟨hflags.1, hflags.2, _, p, hfind, hget, hmiss⟩ (hsound.resolve_left hnew)
  · rw [hget]
    exact ⟨c, hk⟩

theorem good_limbo (h : Good t) (source dest : List UInt8) (seg : Tcp) (version : ℕ) (malloc : Bool)
    (iss : ℕ) (r : Synack) (hsound : r.fails = true ∨ ¬ LoneFull t seg source dest version) :
    ∃ t', limbo t source dest seg version malloc iss r = some t' ∧ Good t' := by
  obtain ⟨c, hk⟩ := h
  have hh := hashipa_lt source seg.source
  obtain ⟨l, hfind, hl⟩ := hk.find_spec seg source dest version
  refine ⟨_, by rw [limbo, hfind]; rfl, ?_⟩
  dsimp only
  rcases hl with ⟨ps, p, qs, hc, rfl, hget, -⟩ | ⟨rfl, hget, hnew⟩
  · rw [hget]
    have hset : Kept (t.setEntry p { t.entry p with irs := seg.seq }) c none 0 := hk.setEntry rfl
    exact hset.answer hh hc r
  rw [hget]
  dsimp only
  rcases hk.limboAlloc_spec hh malloc with hnone | ⟨p, t', c', halloc, hk', hnext, hsub, hlast⟩
  · rw [hnone]
    exact ⟨c, hk⟩
  rw [halloc]
  dsimp only
  rcases hlast with hlast | ⟨hfull, hone⟩
  · rw [← hlast]
    refine hk'.enter hh rfl (fun q hq => ?_) hnext r
    obtain ⟨hmem, hsame⟩ := hsub q hq
    rw [hsame]
    exact hnew q hmem
  · -- the only entry of the chain was taken
    have hchain := hk.chain _ hh
    rw [hone] at hchain hnew
    have hlone : LoneFull t seg source dest version :=
      ⟨hfull, p, hchain.1, hchain.2, Bool.eq_false_iff.mpr fun hcall =>
        hnew p (List.mem_singleton_self p) (Limbo.isCall_iff.mp hcall)⟩
    rw [hone]
    exact ⟨c', hk'.lone _ (hsound.resolve_right (not_not.mpr hlone))⟩

/-! ### Runs -/

/-- The calls of the routines, with what they get from elsewhere. -/
inductive Event
  | limbo (source dest : List UInt8) (seg : Tcp) (version : ℕ) (malloc : Bool) (iss : ℕ)
      (r : Synack)
  | limborexmit (now : ℕ) (snd : ℕ → Synack)
  | limborst (segp : Tcp) (src dst : List UInt8) (version : ℕ)
  | tcpincoming (segp : Tcp) (src dst : List UInt8) (version : ℕ) (newcall : Bool)

/-- One call; none if it does not return. -/
def step (t : Tcppriv) : Event → Option Tcppriv
  | .limbo source dest seg version malloc iss r => limbo t source dest seg version malloc iss r
  | .limborexmit now snd => some (limborexmit t now snd)
  | .limborst segp src dst version => limborst t segp src dst version
  | .tcpincoming segp src dst version newcall =>
      (tcpincoming t segp src dst version newcall).map Prod.fst

/-- A call that does not lose an entry. -/
def Sound (t : Tcppriv) : Event → Prop
  | .limbo source dest seg version _ _ r =>
      r.fails = true ∨ ¬ LoneFull t seg source dest version
  | .tcpincoming segp src dst version newcall =>
      newcall = true ∨ ¬ OutOfLimbo t segp src dst version
  | _ => True

/-- The table is in order: the chains `c` end in nil pointers and have no entry twice, `nlimbo` is
the number of their entries, an allocated entry is on one chain or was freed once, and no call is
in limbo twice. -/
structure Bookkept (t : Tcppriv) (c : ℕ → List ℕ) : Prop where
  chain : ∀ h < NLHT, t.lht.Chain (.root h) (c h)
  acyclic : ∀ h < NLHT, (c h).Nodup
  count : t.nlimbo = (∑ h ∈ Finset.range NLHT, (c h).length : ℕ)
  once : ∀ p < t.mallocs, (∃! h, h < NLHT ∧ p ∈ c h) ∧ t.frees.count p = 0 ∨
    (∀ h < NLHT, p ∉ c h) ∧ t.frees.count p = 1
  calls : ∀ h < NLHT, ∀ h' < NLHT, ∀ p ∈ c h, ∀ q ∈ c h',
    (t.entry p).call = (t.entry q).call → p = q

theorem Kept.bookkept {c : ℕ → List ℕ} (hk : Kept t c none 0) : Bookkept t c where
  chain := hk.chain
  acyclic := hk.nodup
  count := by
    have hcount := hk.count
    rwa [Nat.add_zero] at hcount
  once p hp := by
    rcases hk.gone p hp with ⟨h, hh, hc⟩ | hf | hl
    · refine .inl ⟨ExistsUnique.intro h ⟨hh, hc⟩ fun h' hh' => ?_,
        List.count_eq_zero.mpr (hk.live h hh p hc).2.1⟩
      exact hk.chain_eq hh'.1 hh hh'.2 hc
    · exact .inr ⟨fun h hh hc => (hk.live h hh p hc).2.1 hf,
        List.count_eq_one_of_mem hk.freed.1 hf⟩
    · simp at hl
  calls h hh h' hh' p hp q hq heq := by
    obtain rfl : h = h' := by
      rw [← hk.home h hh p hp, ← hk.home h' hh' q hq, Limbo.hash_eq_of_call heq]
    exact hk.calls h hh p hp q hq heq

theorem good_start : Good {} := by
  refine ⟨fun _ => [], fun h _ => rfl, fun h _ => List.nodup_nil, ?_, ?_, ?_, fun p hp => ?_,
    ⟨List.nodup_nil, ?_⟩, ?_, ?_⟩
  · simp
  · simp
  · simp
  · exact absurd hp (Nat.not_lt_zero p)
  · simp
  · simp
  · simp

/-- A sound call keeps the table in order. -/
theorem good_step {e : Event} {t' : Tcppriv} (h : Good t) (hsound : Sound t e)
    (hstep : step t e = some t') : Good t' := by
  cases e with
  | limbo source dest seg version malloc iss r =>
    obtain ⟨u, hu, hgood⟩ := good_limbo h source dest seg version malloc iss r hsound
    exact Option.some.inj (hstep.symm.trans hu) ▸ hgood
  | limborexmit now snd => exact Option.some.inj hstep ▸ good_limborexmit h now snd
  | limborst segp src dst version =>
    obtain ⟨u, hu, hgood⟩ := good_limborst h segp src dst version
    exact Option.some.inj (hstep.symm.trans hu) ▸ hgood
  | tcpincoming segp src dst version newcall =>
    obtain ⟨u, hu, hgood⟩ := good_tcpincoming h segp src dst version newcall hsound
    simp only [step, hu, Option.map_some] at hstep
    exact Option.some.inj hstep ▸ hgood

/-- A call returns when the table is in order. -/
theorem returns_of_good (h : Good t) (e : Event) : ∃ t', step t e = some t' := by
  obtain ⟨c, hk⟩ := h
  cases e with
  | limbo source dest seg version malloc iss r =>
    obtain ⟨l, hfind, -⟩ := hk.find_spec seg source dest version
    exact ⟨_, by rw [step, limbo, hfind]; rfl⟩
  | limborexmit now snd => exact ⟨_, rfl⟩
  | limborst segp src dst version =>
    obtain ⟨l, hfind, -⟩ := hk.find_spec segp src dst version
    exact ⟨_, by rw [step, limborst, hfind]; rfl⟩
  | tcpincoming segp src dst version newcall =>
    obtain ⟨l, hfind, -⟩ := hk.find_spec segp src dst version
    simp only [step, tcpincoming]
    by_cases hflags : segp.flags &&& SYN ≠ 0 ∨ segp.flags &&& ACK = 0
    · exact ⟨_, by rw [if_pos hflags]; rfl⟩
    · exact ⟨_, by rw [if_neg hflags, hfind]; rfl⟩

/-- In every run of calls that lose no entry the table is in order, and the next call returns. -/
theorem bookkept_of_run (h : Run (fun t e t' => step t e = some t') Sound {} t) :
    (∃ c, Bookkept t c) ∧ ∀ e, ∃ t', step t e = some t' := by
  have hgood : Good t := by
    refine h.invariant good_start fun t e t' hgood hsound hstep => ?_
    exact good_step hgood hsound hstep
  exact ⟨hgood.imp fun _ hk => hk.bookkept, returns_of_good hgood⟩

/-- A call that comes in is put in limbo. -/
def firstSyn : Event :=
  .limbo [] []
    { source := 1, dest := 2, seq := 7, ack := 0, flags := SYN, ws := 0, mss := 0 } 4 true
    100 { scale := 0, fails := false, now := 0 }

theorem kept_firstSyn : ∃ t, step {} firstSyn = some t ∧ t.nlimbo = 1 ∧ ∃ c, Bookkept t c := by
  have hrun : Run (fun t e t' => step t e = some t') Sound {} _ :=
    Run.nil.snoc (e := firstSyn) (.inr fun hlone => absurd hlone.1 (by decide)) rfl
  exact ⟨_, rfl, rfl, (bookkept_of_run hrun).1⟩

/-! ### Entries that are lost -/

/-- An entry that is on no chain and was not freed is lost. -/
theorem Kept.not_bookkept {c : ℕ → List ℕ} {p n : ℕ} (hk : Kept t c (some p) n) :
    ¬ ∃ c', Bookkept t c' := by
  rintro ⟨c', hb⟩
  have hsame {h : ℕ} (hh : h < NLHT) : c' h = c h := (hb.chain h hh).unique (hk.chain h hh)
  rcases hb.once p (hk.loose_lt p rfl) with ⟨⟨h, ⟨hh, hp⟩, -⟩, -⟩ | ⟨-, hcount⟩
  · rw [hsame hh] at hp
    exact (hk.live h hh p hp).2.2 rfl
  · have hmem : p ∈ t.frees := List.count_pos_iff.mp (by omega)
    exact (hk.freed.2 p hmem).2 rfl

/-- Exactly the calls that are not sound lose an entry. -/
theorem bookkept_iff_sound {e : Event} {t' : Tcppriv} (h : Good t) (hstep : step t e = some t') :
    (∃ c, Bookkept t' c) ↔ Sound t e := by
  refine ⟨fun hb => ?_, fun hsound => (good_step h hsound hstep).imp fun _ hk => hk.bookkept⟩
  obtain ⟨c, hk⟩ := h
  cases e with
  | limborexmit now snd => trivial
  | limborst segp src dst version => trivial
  | tcpincoming segp src dst version newcall =>
    by_contra hlost
    simp only [Sound, not_or, not_not] at hlost
    obtain ⟨hnew, hsyn, hack, l, p, hfind, hget, hseq, hacked⟩ := hlost
    obtain ⟨l', hfind', hl⟩ := hk.find_spec segp src dst version
    obtain rfl := Option.some.inj (hfind.symm.trans hfind')
    rcases hl with ⟨ps, p', qs, hc, rfl, hget', -⟩ | ⟨-, hnone, -⟩
    swap
    · rw [hnone] at hget
      simp at hget
    obtain rfl := Option.some.inj (hget.symm.trans hget')
    have hflags : ¬ (segp.flags &&& SYN ≠ 0 ∨ segp.flags &&& ACK = 0) := by
      rw [not_or, not_not]
      exact ⟨hsyn, hack⟩
    have hmatch : ¬ (segp.seq ≠ ((t.entry p).irs + 1) % 4294967296 ∨
        segp.ack ≠ ((t.entry p).iss + 1) % 4294967296) := by
      rw [not_or, not_not, not_not]
      exact ⟨hseq, hacked⟩
    simp only [step, tcpincoming, if_neg hflags, hfind, Option.map_some, hget, if_neg hmatch,
      if_neg hnew, Option.some.injEq] at hstep
    rw [← hstep] at hb
    exact (hk.unchain (hashipa_lt _ _) hc).not_bookkept hb
  | limbo source dest seg version malloc iss r =>
    by_contra hlost
    simp only [Sound, not_or, not_not, Bool.not_eq_true] at hlost
    obtain ⟨hanswered, hfull, p, hroot, hnext, hcall⟩ := hlost
    have hh := hashipa_lt source seg.source
    have hone : c (hashipa source seg.source) = [p] :=
      (hk.chain _ hh).unique ⟨hroot, hnext⟩
    obtain ⟨l, hfind, hl⟩ := hk.find_spec seg source dest version
    rcases hl with ⟨ps, p', qs, hc, -, -, hcall'⟩ | ⟨rfl, hget, -⟩
    · have hmem : p' ∈ [p] := by
        rw [← hone, hc]
        exact List.mem_append_right _ List.mem_cons_self
      rw [List.mem_singleton.mp hmem] at hcall'
      rw [Limbo.isCall_iff.mpr hcall'] at hcall
      contradiction
    rw [hone] at hfind hget
    simp only [step, limbo, hfind, Option.map_some, hget, limboAlloc, hroot, if_pos hfull, answer,
      hanswered, Bool.false_eq_true, if_false, Option.some.injEq] at hstep
    rw [← hstep] at hb
    have hone' : c (hashipa source seg.source) = [] ++ p :: [] := hone
    have hout := ((hk.unlink hh hone').setNext_loose none).setNext_loose (some p)
    exact ((hout.setEntry_loose _).setEntry_loose _).not_bookkept hb

/-- A call that comes out of limbo without a conversation for it. -/
theorem not_kept_of_newcall :
    ¬ ∀ t, Run (fun t e t' => step t e = some t') (fun _ _ => True) {} t → ∃ c, Bookkept t c := by
  intro hall
  let e : Event := .tcpincoming
    { source := 1, dest := 2, seq := 8, ack := 101, flags := ACK, ws := 0, mss := 0 } [] [] 4 false
  obtain ⟨t, hfirst⟩ : ∃ t, step {} firstSyn = some t := ⟨_, rfl⟩
  obtain ⟨t', hsecond⟩ : ∃ t', step t e = some t' := by
    obtain rfl := Option.some.inj hfirst
    exact ⟨_, rfl⟩
  have hgood : Good t :=
    good_step (e := firstSyn) good_start (.inr fun hlone => absurd hlone.1 (by decide)) hfirst
  have hsound : Sound t e :=
    (bookkept_iff_sound hgood hsecond).mp (hall t' ((Run.nil.snoc trivial hfirst).snoc trivial
      hsecond))
  rcases hsound with hnew | hin
  · contradiction
  · obtain rfl := Option.some.inj hfirst
    exact hin ⟨rfl, by decide, _, 0, rfl, rfl, rfl, rfl⟩

end PlanNine.TcpProto
