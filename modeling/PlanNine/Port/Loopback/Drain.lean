import PlanNine.Port.Loopback.Pushlink

/-!
# A link runs dry

When nothing more is written to a link, its timer alone moves what waits in it. Each interrupt comes
at a time when some packet can move, so that after a number of interrupts that is known beforehand
both queues are empty, whatever the delays are and whichever packets are dropped on purpose.

## Main definitions

* `todo`: how many moves are left.
* `interrupts`: interrupts of the timer, with the packets that are passed.

## Main results

* `pushlink_moves`: an interrupt at a time when a packet can move leaves fewer moves.
* `interrupts_drain`: the link runs dry, and every packet that waited was passed or dropped.
-/

namespace PlanNine.Loopback

/-- The moves that are left: those to the transmission queue, and those out of it. -/
def todo (link : Link) : ℕ := 2 * link.oq.blocks.length + link.tq.length

/-- The packets that wait. -/
def waiting (link : Link) : ℕ := link.oq.blocks.length + link.tq.length

/-- Interrupts of the timer, one for each stream of random numbers, while it is set. -/
def interrupts : List (ℕ → ℤ) → Link → Option (Link × List (List UInt8))
  | [], link => some (link, [])
  | rand :: rands, link =>
    if link.armed then do
      let (link, passed) ← pushlink rand link.when { link with armed := false }
      let (link, later) ← interrupts rands link
      return (link, passed ++ later)
    else interrupts rands link

variable {now tout : ℤ} {rand : ℕ → ℤ} {link : Link} {bp : Block} {oq tq : List Block}

theorem send_waiting (link : Link) (nrand : ℤ) (bp : Block) (tout : ℤ) :
    ∃ sent, (send link nrand bp tout).tq = link.tq ++ sent ∧
      (send link nrand bp tout).drops + sent.length = link.drops + 1 := by
  unfold send
  split_ifs
  · exact ⟨[], (List.append_nil _).symm, Int.add_zero _⟩
  · exact ⟨_, rfl, rfl⟩

/-- The packets that leave the output queue are put behind those of the transmission queue, or
dropped. -/
theorem transmit_counts (link : Link) : ∃ sent,
    (transmit now rand link oq tout).2.tq = link.tq ++ sent ∧
    (transmit now rand link oq tout).2.drops + sent.length +
      (transmit now rand link oq tout).2.oq.blocks.length = link.drops + oq.length ∧
    sent.length + (transmit now rand link oq tout).2.oq.blocks.length ≤ oq.length ∧
    (tout ≤ now → oq ≠ [] →
      (transmit now rand link oq tout).2.oq.blocks.length < oq.length) := by
  induction oq generalizing tout rand link with
  | nil => exact ⟨[], (List.append_nil _).symm, Int.add_zero _, le_rfl, fun _ h => absurd rfl h⟩
  | cons bp oq ih =>
    unfold transmit
    by_cases htout : tout ≤ now
    · rw [if_pos htout]
      dsimp only
      obtain ⟨first, htq, hdrops⟩ := send_waiting link (rand 0) bp (outAt link bp tout)
      obtain ⟨sent, htq', hcount, hle, -⟩ := @ih (outAt link bp tout) (fun i => rand (i + 1))
        (send link (rand 0) bp (outAt link bp tout))
      have hfirst : first.length ≤ 1 ∨ 1 < first.length := le_or_gt _ _
      have hshort : first.length ≤ 1 := by
        unfold send at htq
        split_ifs at htq
        · rw [List.self_eq_append_right.mp htq]
          exact Nat.zero_le _
        · rw [← List.append_cancel_left htq]
          rfl
      refine ⟨first ++ sent, by rw [htq', htq, List.append_assoc], ?_, ?_, fun _ _ => ?_⟩
      all_goals rw [List.length_cons]
      · rw [List.length_append]
        push_cast
        omega
      · rw [List.length_append]
        omega
      · omega
    · rw [if_neg htout]
      refine ⟨[], (List.append_nil _).symm, ?_, (Nat.zero_add _).le, fun h => absurd h htout⟩
      exact congrArg (· + ((bp :: oq).length : ℤ)) (Int.add_zero link.drops)

/-- The packets that are passed leave the transmission queue, the first one when it is due. -/
theorem receive_counts : (receive now link tq).2.2.drops = link.drops ∧
    (receive now link tq).2.1.length + (receive now link tq).2.2.tq.length = tq.length ∧
    (∀ bp rest, tq = bp :: rest → gtime bp.data ≤ now →
      (receive now link tq).2.2.tq.length < tq.length) := by
  induction tq generalizing link with
  | nil => exact ⟨rfl, rfl, fun _ _ h => by cases h⟩
  | cons bp tq ih =>
    by_cases hwait : now < gtime bp.data
    · rw [receive_wait hwait]
      refine ⟨rfl, Nat.zero_add _, fun bp' rest h hdue => ?_⟩
      obtain ⟨rfl, rfl⟩ := List.cons_eq_cons.mp h
      exact absurd hwait (not_lt.mpr hdue)
    · obtain ⟨hdrops, hcount, -⟩ := @ih (arrive link { bp with data := bp.data.drop Tmsize })
      have harrive : (arrive link { bp with data := bp.data.drop Tmsize }).drops = link.drops := by
        unfold arrive
        split_ifs <;> rfl
      rw [receive_pass hwait]
      refine ⟨hdrops.trans harrive, ?_, fun _ _ _ _ => ?_⟩
      all_goals dsimp only; simp only [List.length_cons]; omega

/-- At a time when a packet can move there are fewer moves left afterwards, and no packet is lost
that was not dropped. -/
theorem pushlink_moves (rand : ℕ → ℤ) (link : Link) (h0 : 0 ≤ now) (hmove : CanMove link now) :
    ∃ link' passed, pushlink rand now link = some (link', passed) ∧ todo link' < todo link ∧
      passed.length + waiting link' + (link'.drops - link.drops) = waiting link ∧
      Armed link' ∧ 0 ≤ link'.when := by
  obtain ⟨link', hpush, htq, hoq, -, -, -, hdrops, harmed, hwhen⟩ :=
    pushlink_eq rand link h0
  obtain ⟨sent, hsent, hcount, hle, hmoves⟩ : ∃ sent,
      (transmitted rand now link).2.tq = link.tq ++ sent ∧
      (transmitted rand now link).2.drops + sent.length +
        (transmitted rand now link).2.oq.blocks.length = link.drops + link.oq.blocks.length ∧
      sent.length + (transmitted rand now link).2.oq.blocks.length ≤ link.oq.blocks.length ∧
      ((if link.tout = 0 then now else link.tout) ≤ now → link.oq.blocks ≠ [] →
        (transmitted rand now link).2.oq.blocks.length < link.oq.blocks.length) :=
    transmit_counts { link with armed := false }
  obtain ⟨hrdrops, hpassed, hdue⟩ : (received rand now link).2.2.drops =
        (transmitted rand now link).2.drops ∧
      (received rand now link).2.1.length + (received rand now link).2.2.tq.length =
        (transmitted rand now link).2.tq.length ∧
      (∀ bp rest, (transmitted rand now link).2.tq = bp :: rest → gtime bp.data ≤ now →
        (received rand now link).2.2.tq.length < (transmitted rand now link).2.tq.length) :=
    receive_counts
  have hlen := congrArg List.length hsent
  rw [List.length_append] at hlen
  refine ⟨link', _, hpush, ?_, ?_, harmed, hwhen⟩
  · unfold todo
    rw [htq, hoq]
    obtain ⟨bp, rest, hbp, hbpdue⟩ | ⟨hwait, hout⟩ := hmove
    · -- The first packet of the transmission queue is due.
      have := hdue bp (rest ++ sent) (by rw [hsent, hbp, List.cons_append]) hbpdue
      omega
    · have := hmoves (by split_ifs <;> omega) hwait
      omega
  · unfold waiting
    rw [htq, hoq, hdrops, hrdrops]
    push_cast
    omega

theorem Armed.idle (h : Armed link) (hset : link.armed ≠ true) :
    link.oq.blocks = [] ∧ link.tq = [] := by
  by_contra hwait
  exact hset (h.set (not_and_or.mp hwait))

/-- From a link whose timer is set if it has to be, as many interrupts as there are moves leave
nothing that waits: each packet was passed or dropped. -/
theorem interrupts_drain (harmed : Armed link) (hwhen : 0 ≤ link.when) {rands : List (ℕ → ℤ)}
    (hlen : todo link ≤ rands.length) : ∃ link' passed,
    interrupts rands link = some (link', passed) ∧ link'.oq.blocks = [] ∧ link'.tq = [] ∧
      passed.length + (link'.drops - link.drops) = waiting link := by
  induction rands generalizing link with
  | nil =>
    have hzero : todo link = 0 := Nat.le_zero.mp hlen
    unfold todo at hzero
    obtain ⟨hoq, htq⟩ : link.oq.blocks = [] ∧ link.tq = [] :=
      ⟨List.length_eq_zero_iff.mp (by omega), List.length_eq_zero_iff.mp (by omega)⟩
    refine ⟨link, [], rfl, hoq, htq, ?_⟩
    unfold waiting
    rw [hoq, htq, Int.sub_self]
    rfl
  | cons rand rands ih =>
    rw [List.length_cons] at hlen
    unfold interrupts
    by_cases hset : link.armed = true
    · obtain ⟨next, passed, hpush, hless, hcount, hnext, hnextwhen⟩ :=
        pushlink_moves rand { link with armed := false } hwhen
          (harmed.moves hset)
      replace hless : todo next < todo link := hless
      replace hcount : passed.length + waiting next + (next.drops - link.drops) =
        (waiting link : ℤ) := hcount
      obtain ⟨link', later, hrun, hoq, htq, hlater⟩ := ih hnext hnextwhen (by omega)
      rw [if_pos hset]
      simp only [Option.bind_eq_bind, hpush, Option.bind_some, hrun, Option.pure_def]
      refine ⟨link', passed ++ later, rfl, hoq, htq, ?_⟩
      rw [List.length_append]
      push_cast
      omega
    · rw [if_neg hset]
      obtain ⟨hoq, htq⟩ := harmed.idle hset
      refine ih harmed hwhen ?_
      unfold todo
      rw [hoq, htq]
      exact Nat.zero_le _

/-- A link with a packet that arrives at the time 7. -/
def seven : Link :=
  { delay0 := 0, delayn := 0, tq := [⟨ptime [0, 0, 0, 0, 0, 0, 0, 0, 1] 7, 80⟩]
    oq := { limit := 100 }, iq := { limit := 100 }, armed := true, when := 7 }

theorem seven_drains : ∃ link' passed, interrupts [fun _ => 1] seven = some (link', passed) ∧
    link'.oq.blocks = [] ∧ link'.tq = [] ∧
      passed.length + (link'.drops - seven.drops) = waiting seven :=
  interrupts_drain ⟨fun _ => rfl, fun _ => .inl ⟨_, _, rfl, by decide +kernel⟩⟩ (by decide)
    (by decide)

end PlanNine.Loopback
