import PlanNine.Ip.Arp.Integrity

/-!
# The locks of a pass of `rxmitproc`

A pass of `rxmitsols` from its call to its return, with the locks it takes and lets go, and the
times it touches the chain of entries that wait and the list of packets to be dropped, in their
order. The table is that of `Table`, and what the pass does to it is done by the parts of the pass
that are there; others change the table while the lock is let go.

The first entry of the chain decides. A cleared entry has no successor, so the scan ends behind the
first entry that it discards, with the lock let go on the way to a second unlock; and where the
entry was found stale with its interface locked, that lock stays.

## Main definitions

* `Event`, `Disciplined`: what a pass does with the locks, and the order it should keep.
* `scan`, `rxmitsols`: the pass.
* `Settled`: the first entry can be solicited, or nothing is to be done.

## Main results

* `scan_solicitLoop`, `rxmitsols_solicit`: the pass is made of the parts of `Table`.
* `disciplined_iff`: a pass returns with its locks in order just when it is settled.
-/

namespace PlanNine.ArpTable

open Links

/-- What a pass does that has to do with locks: `qlock` and `qunlock` of the table, a look at the
chain or at the list of packets to be dropped, and the read locks of interfaces. -/
inductive Event where
  | qlock | qunlock | chain | drops
  | canrlock (ifc : ℕ) (ok : Bool)
  | runlock (ifc : ℕ)
  deriving DecidableEq, Repr

/-- From a state of the lock of the table, and interfaces locked: the lock is taken when it is free
and let go when it is held, the chain and the list are touched under it, an interface is unlocked
that is locked, and in the end all is free. -/
def Disciplined : Bool → List ℕ → List Event → Bool
  | locked, rs, [] => !locked && rs.isEmpty
  | locked, rs, .qlock :: es => !locked && Disciplined true rs es
  | locked, rs, .qunlock :: es => locked && Disciplined false rs es
  | locked, rs, .chain :: es => locked && Disciplined locked rs es
  | locked, rs, .drops :: es => locked && Disciplined locked rs es
  | locked, rs, .canrlock ifc ok :: es => Disciplined locked (if ok then ifc :: rs else rs) es
  | locked, rs, .runlock ifc :: es => rs.contains ifc && Disciplined locked (rs.erase ifc) es

namespace Arp

/-- The result of the scan: the entry to be solicited with its interface, the last interface looked
at, the table and the events. -/
structure Scan where
  found : Option (ℕ × ℕ)
  ifc : ℕ
  arp : Arp
  trace : List Event

/-- The test of an entry: the interface is tried if solicitations are left. -/
def probes (canrlock : ℕ → Bool) (e : Arpent) (ifc : ℕ) : List Event :=
  if e.rxtsrem ≤ 0 then [] else [.canrlock ifc (canrlock ifc)]

/-- Discard entries until one is found that is to be solicited. -/
def scan (canrlock : ℕ → Bool) (ifcid : ℕ → ℕ) : ℕ → Option ℕ → ℕ → Arp → Option Scan
  | 0, _, _, _ => none
  | _ + 1, none, ifc, t => some ⟨none, ifc, t, []⟩
  | fuel + 1, some a, _, t =>
    let e := t.cache a
    match e.ifc with
    | none => none
    | some ifc =>
      if e.rxtsrem ≤ 0 ∨ ¬ canrlock ifc ∨ e.ifcid ≠ ifcid ifc then do
        let t ← (t.discard a).cleanarpent a
        let r ← scan canrlock ifcid fuel (t.rxmt.next a) ifc t
        let drops : List Event := if e.hold = [] then [] else [.drops]
        some { r with trace := [.chain] ++ probes canrlock e ifc ++ drops ++ [.chain] ++ r.trace }
      else some ⟨some (a, ifc), ifc, t, .chain :: probes canrlock e ifc⟩

/-- The common end: the list is taken over and the lock let go. -/
def finish (t : Arp) (ifc : Option ℕ) (es : List Event) : Option (Arp × List Event) :=
  (t.dodrops ifc).map fun t => (t, es ++ [.drops, .qunlock])

/-- The time to the first entry is more than it should be for a solicitation. -/
def early (t : Arp) (a now : ℕ) : Prop :=
  (3 * ReTransTimer / 4 : ℕ) < long (ulong (((t.cache a).rtime : ℤ) - now))

instance (t : Arp) (a now : ℕ) : Decidable (t.early a now) := inferInstanceAs (Decidable (_ < _))

/-- `rxmitsols`, at two times; `t'` is the table as others leave it while the lock is let go. -/
def rxmitsols (t t' : Arp) (canrlock : ℕ → Bool) (ifcid : ℕ → ℕ) (now now' : ℕ) :
    Option (Arp × List Event) :=
  match t.rxmt.root () with
  | none => t.finish none [.qlock, .chain]
  | some a =>
    if t.early a now then t.finish none [.qlock, .chain]
    else do
      let r ← scan canrlock ifcid (NCACHE + 1) (some a) 0 t
      let es := [.qlock, .chain] ++ r.trace ++ [.qunlock]
      match r.found with
      | none => t'.finish (some r.ifc) es
      | some (a, ifc) =>
        (t'.resolicit a ifc now').map fun t =>
          (t, es ++ [.runlock ifc, .qlock, .chain, .drops, .qunlock])

/-! ### The parts of the pass -/

variable {t t' : Arp} {canrlock : ℕ → Bool} {ifcid : ℕ → ℕ} {now now' a : ℕ}

/-- The table after the scan, with the phase in which it leaves the pass. -/
def Scan.left (r : Scan) : Arp :=
  { r.arp with phase := match r.found with
      | none => .dropping r.ifc
      | some (a, ifc) => .soliciting a ifc }

/-- The scan is the loop of the table. -/
theorem scan_solicitLoop (canrlock : ℕ → Bool) (ifcid : ℕ → ℕ) (fuel : ℕ) (a : Option ℕ) (ifc : ℕ)
    (t : Arp) : (scan canrlock ifcid fuel a ifc t).map Scan.left =
      solicitLoop canrlock ifcid fuel a ifc t := by
  induction fuel generalizing a ifc t with
  | zero => rfl
  | succ fuel ih =>
    cases a with
    | none => rfl
    | some a =>
      unfold scan solicitLoop
      dsimp only
      cases (t.cache a).ifc with
      | none => rfl
      | some ifc =>
        dsimp only
        by_cases hbad : (t.cache a).rxtsrem ≤ 0 ∨ ¬ canrlock ifc ∨ (t.cache a).ifcid ≠ ifcid ifc
        · rw [if_pos hbad, if_pos hbad]
          cases (t.discard a).cleanarpent a with
          | none => rfl
          | some t₁ =>
            simp only [Option.bind_eq_bind, Option.bind_some]
            rw [← ih]
            cases scan canrlock ifcid fuel (t₁.rxmt.next a) ifc t₁ <;> rfl
        · rw [if_neg hbad, if_neg hbad]
          rfl

/-- The pass does to the table what its parts do. -/
theorem rxmitsols_solicit (t t' : Arp) (canrlock : ℕ → Bool) (ifcid : ℕ → ℕ) (now now' : ℕ) :
    (rxmitsols t t' canrlock ifcid now now').map Prod.fst =
      (t.solicit canrlock ifcid now).bind fun t₁ =>
        match t₁.phase with
        | .soliciting a ifc => t'.resolicit a ifc now'
        | .dropping ifc => t'.dodrops (some ifc)
        | .idle => some t₁ := by
  have hdrops : (t.finish none [.qlock, .chain]).map Prod.fst = (t.dodrops none).bind fun t₁ =>
      match t₁.phase with
      | .soliciting a ifc => t'.resolicit a ifc now'
      | .dropping ifc => t'.dodrops (some ifc)
      | .idle => some t₁ := by
    unfold finish dodrops
    split <;> rfl
  unfold rxmitsols solicit
  cases hroot : t.rxmt.root () with
  | none => exact hdrops
  | some a =>
    dsimp only
    by_cases hearly : t.early a now
    · rw [if_pos hearly, if_pos (c := _ < _) hearly]
      exact hdrops
    · rw [if_neg hearly, if_neg (c := _ < _) hearly, ← scan_solicitLoop]
      cases scan canrlock ifcid (NCACHE + 1) (some a) 0 t with
      | none => rfl
      | some r =>
        rcases r with ⟨_ | ⟨b, ifc⟩, ifc', arp, trace⟩
        · exact (Option.map_map _ _ _).trans Option.map_id'
        · exact (Option.map_map _ _ _).trans Option.map_id'

end Arp

/-! ### The order of the events -/

/-- The chain of entries that wait ends, and its entries have an interface; the hash chains end. -/
structure Chained (t : Arp) : Prop where
  rxmt : ∃ ps, t.rxmt.Chain (.root ()) ps ∧ ps.Nodup ∧ ∀ a ∈ ps, a < NCACHE ∧ (t.cache a).ifc ≠ none
  hash : ∀ h, ∃ ps, t.hash.Chain (.root h) ps ∧ ps.Nodup ∧ ∀ a ∈ ps, a < NCACHE

/-- An entry is solicited: tries are left, its interface can be locked and is the one it was. -/
def Arpent.Live (e : Arpent) (canrlock : ℕ → Bool) (ifcid : ℕ → ℕ) : Prop :=
  0 < e.rxtsrem ∧ ∀ ifc, e.ifc = some ifc → canrlock ifc = true ∧ e.ifcid = ifcid ifc

/-- The first entry of the chain is to be solicited; or it is early, or there is none, and no
packets are to be dropped. -/
def Settled (t : Arp) (canrlock : ℕ → Bool) (ifcid : ℕ → ℕ) (now : ℕ) : Prop :=
  match t.rxmt.root () with
  | none => t.dropf = []
  | some a => if t.early a now then t.dropf = [] else (t.cache a).Live canrlock ifcid

variable {t t' : Arp} {a : ℕ} {canrlock : ℕ → Bool} {ifcid : ℕ → ℕ} {now now' ifc : ℕ}

theorem Chained.ifc_of_root (h : Chained t) (hroot : t.rxmt.root () = some a) :
    ∃ ifc, (t.cache a).ifc = some ifc := by
  obtain ⟨ps, hps, -, hmem⟩ := h.rxmt
  exact Option.ne_none_iff_exists'.mp (hmem a (hps.mem_of_get hroot)).2

/-- An entry can be taken off a chain that ends. -/
theorem remove_isSome {η : Type*} [DecidableEq η] {s : Links η} {h : η} (a : ℕ)
    (hs : ∃ ps, s.Chain (.root h) ps ∧ ps.Nodup ∧ ∀ b ∈ ps, b < NCACHE) :
    ∃ s', s.remove (NCACHE + 1) (.root h) a = some s' ∧
      ∃ ps, s'.Chain (.root h) ps ∧ ps.Nodup ∧ a ∉ ps ∧ ∀ b ∈ ps, b < NCACHE := by
  obtain ⟨ps, hps, hnodup, hlt⟩ := hs
  have hfuel : ps.length < NCACHE + 1 := Nat.lt_succ_of_le (length_le_of_nodup hnodup hlt)
  obtain ⟨s', hs', hchain, -⟩ := remove_spec hps hnodup (fun q _ => nofun) hfuel a
  exact ⟨s', hs', ps.erase a, hchain, hnodup.erase a, hnodup.not_mem_erase,
    fun b hb => hlt b (List.mem_of_mem_erase hb)⟩

/-- A cleared entry has no successor. -/
theorem Chained.cleanarpent (h : Chained t) (a : ℕ) :
    ∃ t₁, (t.discard a).cleanarpent a = some t₁ ∧ t₁.rxmt.next a = none := by
  obtain ⟨ps, hps, hnodup, hlt⟩ := h.rxmt
  have hhash : (t.discard a).hash = t.hash ∧ (t.discard a).rxmt = t.rxmt := by
    unfold Arp.discard
    dsimp only
    split <;> exact ⟨rfl, rfl⟩
  obtain ⟨hash, hremove, -⟩ := remove_isSome a (h.hash (haship ((t.discard a).cache a).ip))
  obtain ⟨rxmt, hremove', -⟩ := remove_isSome a ⟨ps, hps, hnodup, fun b hb => (hlt b hb).1⟩
  have hclean : ∃ t₁, (t.discard a).cleanarpent a = some t₁ ∧
      t₁.rxmt = rxmt.set (.next a) none := by
    unfold Arp.cleanarpent
    dsimp only
    rw [hhash.1, hhash.2, hremove, hremove']
    exact ⟨_, rfl, rfl⟩
  obtain ⟨t₁, ht₁, hrxmt⟩ := hclean
  exact ⟨t₁, ht₁, by rw [hrxmt]; exact Function.update_self _ _ _⟩

/-- The scan looks at one entry. -/
theorem Chained.scan (h : Chained t) (canrlock : ℕ → Bool) (ifcid : ℕ → ℕ)
    (hifc : (t.cache a).ifc = some ifc) :
    ∃ arp, Arp.scan canrlock ifcid (NCACHE + 1) (some a) 0 t = some
      (if (t.cache a).rxtsrem ≤ 0 ∨ ¬ canrlock ifc ∨ (t.cache a).ifcid ≠ ifcid ifc then
        ⟨none, ifc, arp, [.chain] ++ Arp.probes canrlock (t.cache a) ifc ++
          (if (t.cache a).hold = [] then [] else [.drops]) ++ [.chain] ++ []⟩
      else ⟨some (a, ifc), ifc, t, .chain :: Arp.probes canrlock (t.cache a) ifc⟩) := by
  obtain ⟨t₁, hclean, hnext⟩ := h.cleanarpent a
  refine ⟨t₁, ?_⟩
  unfold Arp.scan
  dsimp only
  rw [hifc]
  dsimp only
  split
  · rw [hclean, Option.bind_eq_bind, Option.bind_some, hnext]
    rfl
  · rfl

theorem isSome_resolicit (h : Chained t) (a ifc now : ℕ) :
    ∃ t₁, t.resolicit a ifc now = some t₁ := by
  obtain ⟨ps, hps, hnodup, hlt⟩ := h.rxmt
  obtain ⟨rxmt, hremove, qs, hqs, hnodup', hnot, hlt'⟩ :=
    remove_isSome a ⟨ps, hps, hnodup, fun b hb => (hlt b hb).1⟩
  obtain ⟨rxmt', happend, -⟩ := append_spec hqs hnodup' (fun q _ => nofun) hnot nofun
    (Nat.lt_succ_of_le (length_le_of_nodup hnodup' hlt'))
  unfold Arp.resolicit
  rw [hremove, Option.bind_eq_bind, Option.bind_some, happend]
  exact Option.isSome_iff_exists.mp (dodrops_isSome (.inr nofun))

/-- Nothing is done but to look whether there are packets to be dropped. -/
theorem disciplined_finish (t : Arp) :
    (∃ out, t.finish none [.qlock, .chain] = some out ∧ Disciplined false [] out.2 = true) ↔
      t.dropf = [] := by
  unfold Arp.finish Arp.dodrops
  by_cases hnil : t.dropf = []
  · simp [hnil, Disciplined]
  · simp [hnil]

/-- With chains that end, before the pass and when the lock is taken again, the pass returns with
its locks in order just when the first entry is to be solicited, or there is nothing to do. -/
theorem disciplined_iff (t t' : Arp) (canrlock : ℕ → Bool) (ifcid : ℕ → ℕ) (now now' : ℕ)
    (h : Chained t) (h' : Chained t') :
    (∃ out, Arp.rxmitsols t t' canrlock ifcid now now' = some out ∧
      Disciplined false [] out.2 = true) ↔ Settled t canrlock ifcid now := by
  unfold Arp.rxmitsols Settled
  cases hroot : t.rxmt.root () with
  | none => exact disciplined_finish t
  | some a =>
    dsimp only
    by_cases hearly : t.early a now
    · rw [if_pos hearly, if_pos hearly]
      exact disciplined_finish t
    rw [if_neg hearly, if_neg hearly]
    obtain ⟨ifc, hifc⟩ := h.ifc_of_root hroot
    obtain ⟨arp, hscan⟩ := h.scan canrlock ifcid hifc
    rw [hscan, Option.bind_eq_bind, Option.bind_some]
    by_cases hbad : (t.cache a).rxtsrem ≤ 0 ∨ ¬ canrlock ifc ∨ (t.cache a).ifcid ≠ ifcid ifc
    · -- the lock is let go before the list is taken over, and then again
      rw [if_pos hbad]
      refine iff_of_false ?_ fun hlive => ?_
      · rintro ⟨out, hout, hdisc⟩
        obtain ⟨t₁, -, rfl⟩ := Option.map_eq_some_iff.mp hout
        revert hdisc
        unfold Arp.probes
        split_ifs <;> simp [Disciplined]
      · obtain ⟨hcan, hid⟩ := hlive.2 ifc hifc
        rcases hbad with hrem | hcan' | hid'
        · exact absurd hlive.1 (not_lt.mpr hrem)
        · exact hcan' hcan
        · exact hid' hid
    · rw [if_neg hbad]
      push Not at hbad
      obtain ⟨hrem, hcan, hid⟩ := hbad
      obtain ⟨t₁, ht₁⟩ := isSome_resolicit h' a ifc now'
      dsimp only
      rw [ht₁, Option.map_some, Arp.probes, if_neg (not_le.mpr hrem), hcan]
      refine iff_of_true ⟨_, rfl, by simp [Disciplined]⟩ ⟨hrem, fun ifc' hifc' => ?_⟩
      cases hifc.symm.trans hifc'
      exact ⟨hcan, hid⟩

/-- A table in which entry 0 alone waits, on interface 0, with tries left. -/
def solitary (ifcid : ℕ) : Arp :=
  { rxmt := ⟨fun _ => some 0, fun _ => none⟩
    cache := fun _ => { ifc := some 0, ifcid := ifcid, rxtsrem := 3 } }

theorem chained_solitary (ifcid : ℕ) : Chained (solitary ifcid) :=
  ⟨⟨[0], ⟨rfl, rfl⟩, List.nodup_singleton 0, by simp [solitary, NCACHE]⟩,
    fun _ => ⟨[], rfl, List.nodup_nil, nofun⟩⟩

/-- A pass that solicits the one entry keeps its locks in order. -/
theorem disciplined_solitary : ∃ out,
    Arp.rxmitsols (solitary 7) (solitary 7) (fun _ => true) (fun _ => 7) 0 1000 = some out ∧
      Disciplined false [] out.2 = true := by
  refine (disciplined_iff (solitary 7) (solitary 7) _ _ 0 1000 (chained_solitary 7)
    (chained_solitary 7)).mpr ?_
  change if (solitary 7).early 0 0 then (solitary 7).dropf = [] else
    ((solitary 7).cache 0).Live (fun _ => true) (fun _ => 7)
  rw [if_neg (by decide)]
  exact ⟨by decide, fun ifc hifc => by cases hifc; exact ⟨rfl, rfl⟩⟩

/-- Where the one entry is stale, the lock of the table is let go twice and that of the interface
never. -/
theorem not_disciplined_stale : ¬ ∀ (t t' : Arp) (canrlock : ℕ → Bool) (ifcid : ℕ → ℕ)
    (now now' : ℕ), Chained t → Chained t' →
    ∃ out, Arp.rxmitsols t t' canrlock ifcid now now' = some out ∧
      Disciplined false [] out.2 = true := by
  intro h
  obtain ⟨out, hout, hdisc⟩ := h (solitary 7) (solitary 7) (fun _ => true) (fun _ => 8) 0 1000
    (chained_solitary 7) (chained_solitary 7)
  have htrace : (Arp.rxmitsols (solitary 7) (solitary 7) (fun _ => true) (fun _ => 8) 0 1000).map
      Prod.snd = some
        [.qlock, .chain, .chain, .canrlock 0 true, .chain, .qunlock, .drops, .qunlock] := by
    decide +kernel
  rw [hout] at htrace
  rw [Option.some.inj htrace] at hdisc
  exact absurd hdisc (by decide)

end PlanNine.ArpTable
