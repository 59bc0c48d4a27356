import PlanNine.Port.Loopback.Pushlink

/-!
# The time of packets

Runs of a loopback. Of each link it is known which packets were written and when, and which ones it
passed and when. A packet is not passed before the link can have sent it, unless the product of its
length and the delay for a byte is too large for a `long`; the order of packets is kept in any case.

## Main definitions

* `Kept`: what a link passed and what waits are packets that were written, in this order.
* `Fits`: the product of the length of a packet and the delay fits in a `long`.

## Main results

* `exec_sound`: no event leads to a panic, and each keeps the links in order.
* `keeps_time`: packets are passed in order and not before their time, if the products fit.
-/

namespace PlanNine.Loopback

variable {now t d0 dn : ℤ} {rand : ℕ → ℤ} {link : Link}

/-- What was passed, and what waits, are packets that were written, in this order. -/
structure Kept (sd : Side) : Prop where
  delay : 0 ≤ sd.link.delay0 ∧ sd.link.delay0 < 2305843009213693952
  clock : ∀ r ∈ sd.written, Clock r.1
  order : ∃ pr tqr oqr, (pr ++ (tqr ++ oqr)).Sublist sd.written ∧
    List.Forall₂ (Arrived sd.link.delay0 sd.link.delayn) sd.passed pr ∧
    List.Forall₂ (Sent sd.link.delay0 sd.link.delayn) sd.link.tq tqr ∧
    List.Forall₂ Queued sd.link.oq.blocks oqr

variable {sd : Side} {lb : Loop}

theorem kept_push (rand : ℕ → ℤ) (hsd : Kept sd) (hnow : Clock now) :
    ∃ sd', sd.push rand now = some sd' ∧ Kept sd' ∧ Armed sd'.link ∧ sd'.written = sd.written ∧
    sd'.link.delay0 = sd.link.delay0 ∧ sd'.link.delayn = sd.link.delayn := by
  obtain ⟨hdelay, hclock, pr, tqr, oqr, hsub, hpassed, htq, hoq⟩ := hsd
  have hoqr : ∀ r ∈ oqr, Clock r.1 := fun r hr =>
    hclock r (hsub.mem (List.mem_append_right _ (List.mem_append_right _ hr)))
  obtain ⟨tqr1, oqr1, hsub1, hoq1, htq1, hdelay0, hdelayn⟩ :
      ∃ tqr' oqr', (tqr' ++ oqr').Sublist (tqr ++ oqr) ∧
      List.Forall₂ Queued (transmitted rand now sd.link).2.oq.blocks oqr' ∧
      List.Forall₂ (Sent sd.link.delay0 sd.link.delayn) (transmitted rand now sd.link).2.tq tqr' ∧
      (transmitted rand now sd.link).2.delay0 = sd.link.delay0 ∧
      (transmitted rand now sd.link).2.delayn = sd.link.delayn :=
    transmit_spec { sd.link with armed := false } hnow hdelay hoqr hoq htq
  obtain ⟨pr1, tqr2, rfl, hpassed1, htq2⟩ : ∃ pr tqr', tqr1 = pr ++ tqr' ∧
      List.Forall₂ (Arrived sd.link.delay0 sd.link.delayn)
        ((received rand now sd.link).2.1.map (now, ·)) pr ∧
      List.Forall₂ (Sent sd.link.delay0 sd.link.delayn) (received rand now sd.link).2.2.tq tqr' :=
    receive_spec htq1
  obtain ⟨link', hpush, hltq, hloq, -, hldelay0, hldelayn, -, harmed, -⟩ :=
    pushlink_eq rand sd.link hnow.1
  rw [hdelay0] at hldelay0
  rw [hdelayn] at hldelayn
  refine ⟨⟨link', sd.written, sd.passed ++ (received rand now sd.link).2.1.map (now, ·)⟩,
    ?_, ⟨?_, hclock, pr ++ pr1, tqr2, oqr1, ?_, ?_, ?_, ?_⟩, harmed, rfl, hldelay0, hldelayn⟩
  · unfold Side.push
    rw [hpush]
    rfl
  · dsimp only
    rwa [hldelay0]
  · refine List.Sublist.trans ?_ hsub
    rw [List.append_assoc]
    refine (List.Sublist.refl pr).append ?_
    rwa [List.append_assoc] at hsub1
  · dsimp only
    rw [hldelay0, hldelayn]
    exact List.rel_append hpassed hpassed1
  · dsimp only
    rw [hldelay0, hldelayn, hltq]
    exact htq2
  · dsimp only
    rw [hloq]
    exact hoq1

theorem kept_loopoput (hsd : Kept sd) (ht : Clock t) (minmtu : ℕ) (data : List UInt8)
    (balloc : ℤ) : Kept (loopoput minmtu t data balloc sd) := by
  obtain ⟨hdelay, hclock, pr, tqr, oqr, hsub, hpassed, htq, hoq⟩ := hsd
  obtain ⟨ht0, ht1⟩ := ht
  unfold loopoput
  dsimp only
  split_ifs
  · exact ⟨hdelay, hclock, pr, tqr, oqr, hsub, hpassed, htq, hoq⟩
  · generalize List.replicate Tmsize 0 ++ data ++
      List.replicate (minmtu - (List.replicate Tmsize 0 ++ data).length) 0 = bp
    have hnew : Queued ⟨ptime bp t, balloc⟩ (t, bp.drop Tmsize) :=
      ⟨length_ptime, gtime_ptime (by omega) (by omega), drop_ptime⟩
    refine ⟨hdelay, ?_, pr, tqr, oqr ++ [(t, bp.drop Tmsize)], ?_, hpassed, htq,
      List.rel_append hoq (.cons hnew .nil)⟩
    · intro r hr
      obtain hr | hr := List.mem_append.mp hr
      · exact hclock r hr
      · rw [List.mem_singleton.mp hr]
        exact ⟨ht0, ht1⟩
    · rw [← List.append_assoc tqr, ← List.append_assoc]
      exact hsub.append (List.Sublist.refl _)

/-- The times of an event, and those of a timer, are far from the end of the range. -/
def Clocked (lb : Loop) : Event → Prop
  | .loopoput _ t _ _ => Clock t
  | .looper t _ => Clock t
  | .linkintr chan _ => (lb.side chan).link.armed = true → Clock (lb.side chan).link.when
  | _ => True

/-- The product of the length of a packet and the delay for a byte fits in a `long`. -/
def Fits (lb : Loop) : Event → Prop
  | .loopoput chan t data _ => Exact (lb.side chan).link.delayn (t, data)
  | _ => True

/-- Both links, with their delays. -/
structure Sound (d0 dn : Fin 2 → ℤ) (lb : Loop) : Prop where
  minmtu : lb.minmtu = 0
  kept : ∀ c, Kept (lb.side c)
  delay0 : ∀ c, (lb.side c).link.delay0 = d0 c
  delayn : ∀ c, (lb.side c).link.delayn = dn c

/-- A new link, and what is written to it. -/
structure Next (e : Event) (c : Fin 2) (sd sd' : Side) : Prop where
  kept : Kept sd'
  delay0 : sd'.link.delay0 = sd.link.delay0
  delayn : sd'.link.delayn = sd.link.delayn
  written : ∀ r ∈ sd'.written, r ∈ sd.written ∨
    ∃ t data balloc, e = .loopoput c t data balloc ∧ r = (t, data)

variable {e : Event} {D0 Dn : Fin 2 → ℤ}

theorem Sound.set {sd' : Side} {chan : Fin 2} (hlb : Sound D0 Dn lb)
    (h : Next e chan (lb.side chan) sd') : Sound D0 Dn (lb.set chan sd') ∧
      ∀ c, ∀ r ∈ ((lb.set chan sd').side c).written, r ∈ (lb.side c).written ∨
        ∃ t data balloc, e = .loopoput c t data balloc ∧ r = (t, data) := by
  have hside (c : Fin 2) : (lb.set chan sd').side c = if c = chan then sd' else lb.side c :=
    Function.update_apply _ _ _ _
  refine ⟨⟨hlb.minmtu, fun c => ?_, fun c => ?_, fun c => ?_⟩, fun c => ?_⟩
  all_goals
    rw [hside]
    split_ifs with hc
  · exact h.kept
  · exact hlb.kept c
  · rw [h.delay0, hc, hlb.delay0]
  · exact hlb.delay0 c
  · rw [h.delayn, hc, hlb.delayn]
  · exact hlb.delayn c
  · rw [hc]
    exact h.written
  · exact fun r hr => .inl hr

theorem next_push (rand : ℕ → ℤ) (hsd : Kept sd) (hnow : Clock now) (e : Event) (c : Fin 2) :
    ∃ sd', sd.push rand now = some sd' ∧ Next e c sd sd' := by
  obtain ⟨sd', hpush, hkept, -, hwritten, hdelay0, hdelayn⟩ := kept_push rand hsd hnow
  exact ⟨sd', hpush, hkept, hdelay0, hdelayn, fun r hr => .inl (hwritten ▸ hr)⟩

/-- No event leads to a panic, and each keeps the links in order. -/
theorem exec_sound (hlb : Sound D0 Dn lb) (hclock : Clocked lb e) :
    ∃ lb', exec lb e = some lb' ∧ Sound D0 Dn lb' ∧
      ∀ c, ∀ r ∈ (lb'.side c).written, r ∈ (lb.side c).written ∨
        ∃ t data balloc, e = .loopoput c t data balloc ∧ r = (t, data) := by
  have hsame (c : Fin 2) (link : Link) (hdelay0 : link.delay0 = (lb.side c).link.delay0)
      (hdelayn : link.delayn = (lb.side c).link.delayn) (htq : link.tq = (lb.side c).link.tq)
      (hoq : link.oq.blocks = (lb.side c).link.oq.blocks) :
      Next e c (lb.side c) { lb.side c with link } := by
    obtain ⟨hdelay, htimes, pr, tqr, oqr, hsub, hpassed, htqr, hoqr⟩ := hlb.kept c
    refine ⟨⟨hdelay0 ▸ hdelay, htimes, pr, tqr, oqr, hsub, ?_, ?_, hoq ▸ hoqr⟩, hdelay0, hdelayn,
      fun r hr => .inl hr⟩
    · dsimp only
      rwa [hdelay0, hdelayn]
    · dsimp only
      rwa [hdelay0, hdelayn, htq]
  cases e with
  | loopoput chan t data balloc =>
    have hkept := kept_loopoput (hlb.kept chan) hclock lb.minmtu data balloc
    refine ⟨_, rfl, hlb.set ⟨hkept, ?_, ?_, ?_⟩⟩
    all_goals unfold loopoput; dsimp only; split_ifs
    · rfl
    · rfl
    · rfl
    · rfl
    · exact fun r hr => .inl hr
    · intro r hr
      obtain hr | hr := List.mem_append.mp hr
      · exact .inl hr
      · refine .inr ⟨t, data, balloc, rfl, ?_⟩
        rw [List.mem_singleton.mp hr, hlb.minmtu, Nat.zero_sub, List.replicate_zero,
          List.append_nil]
        rfl
  | looper t rand =>
    obtain ⟨sd, hpush, hnext⟩ := next_push (rand 0) (hlb.kept 0) hclock (.looper t rand) 0
    obtain ⟨hset, hwritten⟩ := hlb.set hnext
    obtain ⟨sd', hpush', hnext'⟩ :=
      next_push (rand 1) (hset.kept 1) hclock (.looper t rand) 1
    obtain ⟨hset', hwritten'⟩ := hset.set hnext'
    refine ⟨_, ?_, hset', fun c r hr => ?_⟩
    · unfold exec looper
      simp only [Option.bind_eq_bind, hpush, Option.bind_some, hpush', Option.pure_def]
    · obtain hr | ⟨t, data, balloc, he, -⟩ := hwritten' c r hr
      · exact hwritten c r hr
      · cases he
  | linkintr chan rand =>
    unfold exec linkintr
    dsimp only
    by_cases harmed : (lb.side chan).link.armed = true
    · have hnext := hsame chan { (lb.side chan).link with armed := false } rfl rfl rfl rfl
      obtain ⟨hset, hwritten⟩ := hlb.set hnext
      obtain ⟨sd', hpush, hnext'⟩ :=
        next_push rand hnext.kept (hclock harmed) (.linkintr chan rand) chan
      obtain ⟨hset', hwritten'⟩ := hlb.set (e := .linkintr chan rand)
        ⟨hnext'.kept, hnext'.delay0, hnext'.delayn, hnext'.written⟩
      refine ⟨_, ?_, hset', hwritten'⟩
      rw [if_pos harmed, hpush]
      rfl
    · rw [if_neg harmed]
      obtain ⟨hset, hwritten⟩ := hlb.set (hsame chan _ rfl rfl rfl rfl)
      exact ⟨_, rfl, hset, hwritten⟩
  | read chan => exact ⟨_, rfl, hlb.set (hsame chan _ rfl rfl rfl rfl)⟩
  | control chan request =>
    refine ⟨_, rfl, hlb.set (hsame chan _ ?_ ?_ ?_ ?_)⟩
    all_goals cases request <;> rfl
  | close chan => exact ⟨_, rfl, hlb.set (hsame chan _ rfl rfl rfl rfl)⟩

/-- A loopback whose links have the delays of control requests, in nanoseconds. -/
def attached (fasthz : ℕ) (d0ns dnns limit : Fin 2 → ℤ) : Loop :=
  { side := fun c => { link := opened fasthz (d0ns c) (dnns c) (limit c) } }

theorem delay0_bounds (fasthz : ℕ) (d0ns dnns limit : ℤ) :
    0 ≤ (opened fasthz d0ns dnns limit).delay0 ∧
      (opened fasthz d0ns dnns limit).delay0 < 2305843009213693952 := by
  unfold opened vlong NS2FASTHZ
  dsimp only
  omega

theorem sound_attached (fasthz : ℕ) (d0ns dnns limit : Fin 2 → ℤ) :
    Sound (fun c => (opened fasthz (d0ns c) (dnns c) (limit c)).delay0)
      (fun c => (opened fasthz (d0ns c) (dnns c) (limit c)).delayn)
      (attached fasthz d0ns dnns limit) :=
  ⟨rfl, fun _ => ⟨delay0_bounds _ _ _ _, List.forall_mem_nil _,
    [], [], [], List.Sublist.refl _, .nil, .nil, .nil⟩, fun _ => rfl, fun _ => rfl⟩

/-- Both links, when the products of all packets fit. -/
structure Timely (d0 dn : Fin 2 → ℤ) (lb : Loop) : Prop extends Sound d0 dn lb where
  exact : ∀ c, ∀ r ∈ (lb.side c).written, Exact (lb.side c).link.delayn r

/-- While all products of lengths and delays fit, the packets that a link passes are among those
written, in order, and none is passed before its time; no event leads to a panic; and `pushlink`
leaves the timer set for a time when a packet that waits can move. -/
theorem keeps_time (fasthz : ℕ) (d0ns dnns limit : Fin 2 → ℤ) {lb : Loop}
    (h : Run (fun lb e lb' => exec lb e = some lb') (fun lb e => Clocked lb e ∧ Fits lb e)
      (attached fasthz d0ns dnns limit) lb) :
    (∀ c, ∃ recs, recs.Sublist (lb.side c).written ∧ List.Forall₂ (fun p r => p.2 = r.2 ∧
      due (lb.side c).link.delay0 (lb.side c).link.delayn r ≤ p.1) (lb.side c).passed recs) ∧
    (∀ e, Clocked lb e → ∃ lb', exec lb e = some lb') ∧
    ∀ c rand now, Clock now → ∃ link passed, pushlink rand now (lb.side c).link =
      some (link, passed) ∧ Armed link := by
  obtain ⟨hsound, hexact⟩ : Timely (fun c => (opened fasthz (d0ns c) (dnns c) (limit c)).delay0)
      (fun c => (opened fasthz (d0ns c) (dnns c) (limit c)).delayn) lb := by
    refine Run.invariant ?_ ?_ h
    · exact ⟨sound_attached _ _ _ _, fun c => List.forall_mem_nil _⟩
    rintro lb e lb' ⟨hsound, hexact⟩ ⟨hclock, hfits⟩ hexec
    obtain ⟨next, hnext, hsound', hwritten⟩ := exec_sound hsound hclock
    cases hexec.symm.trans hnext
    refine ⟨hsound', fun c r hr => ?_⟩
    rw [hsound'.delayn, ← hsound.delayn]
    obtain hr | ⟨t, data, balloc, rfl, rfl⟩ := hwritten c r hr
    · exact hexact c r hr
    · exact hfits
  refine ⟨fun c => ?_, fun e he => ?_, fun c rand now hnow => ?_⟩
  · obtain ⟨-, -, pr, tqr, oqr, hsub, hpassed, -, -⟩ := hsound.kept c
    have hpr : pr.Sublist (lb.side c).written := (List.sublist_append_left pr _).trans hsub
    refine ⟨pr, hpr, ?_⟩
    have hboth := (List.forall₂_and_left pr (lb.side c).passed).mpr
      ⟨fun r hr => hexact c r (hpr.mem hr), hpassed.flip⟩
    exact hboth.flip.imp fun p r h => ⟨h.2.packet, h.2.time h.1⟩
  · obtain ⟨lb', hexec, -⟩ := exec_sound hsound he
    exact ⟨lb', hexec⟩
  · obtain ⟨link, hpush, -, -, -, -, -, -, harmed, -⟩ :=
      pushlink_eq rand (lb.side c).link hnow.1
    exact ⟨link, _, hpush, harmed⟩

/-- The link that gets its packets at once. -/
theorem packet_in_time : ∃ lb, [Event.loopoput 1 5 [7] 80, .looper 5 fun _ _ => 1].foldlM exec
      (attached 1000000000 (fun _ => 0) (fun _ => 0) fun _ => 1000) = some lb ∧
    ∃ recs, recs.Sublist (lb.side 1).written ∧ List.Forall₂ (fun p r => p.2 = r.2 ∧
      due (lb.side 1).link.delay0 (lb.side 1).link.delayn r ≤ p.1) (lb.side 1).passed recs := by
  have hclock : Clock 5 := ⟨by decide, by decide⟩
  have hstart := sound_attached 1000000000 (fun _ => 0) (fun _ => 0) fun _ => 1000
  obtain ⟨lb1, hexec1, hsound1, -⟩ := exec_sound (e := .loopoput 1 5 [7] 80) hstart hclock
  obtain ⟨lb2, hexec2, -, -⟩ := exec_sound (e := .looper 5 fun _ _ => 1) hsound1 hclock
  refine ⟨lb2, ?_, (keeps_time _ _ _ _ (.snoc (e := .looper 5 fun _ _ => 1)
    (.snoc (e := .loopoput 1 5 [7] 80) .nil ⟨hclock, ?_⟩ hexec1) ⟨hclock, trivial⟩ hexec2)).1 1⟩
  · simp only [List.foldlM_cons, List.foldlM_nil, Option.bind_eq_bind, hexec1, Option.bind_some,
      hexec2, Option.pure_def]
  · exact ⟨by decide +kernel, by decide +kernel⟩

/-- The product wraps around, and the packet is passed when it was written. -/
theorem packet_early : ¬ ∀ (fasthz : ℕ) (d0ns dnns limit : Fin 2 → ℤ) (lb : Loop),
    (∀ c, 0 ≤ d0ns c ∧ 0 ≤ dnns c) →
    Run (fun lb e lb' => exec lb e = some lb') Clocked (attached fasthz d0ns dnns limit) lb →
    ∀ c, ∃ recs, recs.Sublist (lb.side c).written ∧ List.Forall₂ (fun p r => p.2 = r.2 ∧
      due (lb.side c).link.delay0 (lb.side c).link.delayn r ≤ p.1) (lb.side c).passed recs := by
  intro h
  have hclock : Clock 1000 := ⟨by decide, by decide⟩
  have hstart := sound_attached 1000000000 (fun _ => 0) (fun _ => 1073741824) fun _ => 1000
  obtain ⟨lb1, hexec1, hsound1, -⟩ := exec_sound (e := .loopoput 1 1000 [1, 2] 80) hstart hclock
  obtain ⟨lb2, hexec2, -, -⟩ := exec_sound (e := .looper 1000 fun _ _ => 1) hsound1 hclock
  have hrun : ([Event.loopoput 1 1000 [1, 2] 80, .looper 1000 fun _ _ => 1].foldlM exec
      (attached 1000000000 (fun _ => 0) (fun _ => 1073741824) fun _ => 1000)).map (fun lb =>
        ((lb.side 1).written, (lb.side 1).passed, (lb.side 1).link.delay0,
          (lb.side 1).link.delayn)) =
      some ([(1000, [1, 2])], [(1000, [1, 2])], 0, 1073741824) := by
    decide +kernel
  simp only [List.foldlM_cons, List.foldlM_nil, Option.bind_eq_bind, hexec1, Option.bind_some,
    hexec2, Option.pure_def, Option.map_some, Option.some.injEq, Prod.mk.injEq] at hrun
  obtain ⟨hwritten, hpassed, hdelay0, hdelayn⟩ := hrun
  obtain ⟨recs, hsub, hrecs⟩ := h _ _ _ _ lb2 (fun _ => ⟨by decide, by decide⟩)
    (.snoc (e := .looper 1000 fun _ _ => 1)
      (.snoc (e := .loopoput 1 1000 [1, 2] 80) .nil hclock hexec1) hclock hexec2) 1
  rw [hwritten] at hsub
  rw [hpassed, hdelay0, hdelayn] at hrecs
  obtain ⟨r, recs, ⟨-, hdue⟩, -, rfl⟩ := List.forall₂_cons_left_iff.mp hrecs
  have hr : r = (1000, [1, 2]) := List.mem_singleton.mp (hsub.mem List.mem_cons_self)
  rw [hr] at hdue
  revert hdue
  decide +kernel

end PlanNine.Loopback
