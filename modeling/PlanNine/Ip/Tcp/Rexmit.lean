import PlanNine.Ip.Tcp.Limbo
import Mathlib.Tactic

/-!
# One pass that resends SYN ACKs

A pass walks the chains of the table while it has made fewer visits than there are entries. At an
entry that is not due it stays where it is, so it visits that entry until no visits are left; and
each entry that is thrown out takes away one visit more. So a pass serves all entries just when
those that are due come first, and the visits reach them all.

## Main definitions

* `Strung`: the chains of a table, and its counter.
* `rexmitEntry`, `limboVisits`: one visit, and the entries that a pass visits.
* `Pass`, `visit`: what a pass does, without pointers.
* `Served`: what a pass should do.
* `InTurn`: the entries that are due come first, and the visits reach them.

## Main results

* `rexmitChain_add`: a pass has visits enough to end.
* `passed_limborexmit`: a pass along the pointers does what it does without them.
* `served_iff`: a pass serves all entries just when they are in turn.
-/

namespace PlanNine.TcpProto

open Links

variable {now : ℕ} {snd : ℕ → Synack} {t u : Tcppriv} {c : ℕ → List ℕ} {h p n fuel seen : ℕ}
  {l : Link ℕ} {ps qs : List ℕ}

/-! ### Visits -/

/-- It is time to resend. -/
def Limbo.due (lp : Limbo) (now : ℕ) : Bool :=
  ¬ (now + 4294967296 - lp.lastsend) % 4294967296 < (lp.rexmits + 1) * SYNACK_RXTIMER

theorem Limbo.due_eq_false {lp : Limbo} : lp.due now = false ↔
    (now + 4294967296 - lp.lastsend) % 4294967296 < (lp.rexmits + 1) * SYNACK_RXTIMER := by
  simp only [Limbo.due, decide_eq_false_iff_not, not_not]

/-- The entry is thrown out when it is resent. -/
def Limbo.spent (lp : Limbo) (r : Synack) : Bool := 5 < (lp.rexmits + 1) % 256 ∨ r.fails

/-- One visit: the table, and the link that is followed next. -/
def rexmitEntry (now : ℕ) (snd : ℕ → Synack) (t : Tcppriv) (l : Link ℕ) (p seen : ℕ) :
    Tcppriv × Link ℕ :=
  let lp := t.entry p
  if lp.due now = false then (t, l)
  else
    let t := t.setEntry p { lp with rexmits := (lp.rexmits + 1) % 256 }
    if 5 < (lp.rexmits + 1) % 256 then ((t.unchain l p).free p, l)
    else if 100 < t.nlimbo then (t, l)
    else if (snd seen).fails then (answer t l p (snd seen), l)
    else (answer t l p (snd seen), .next p)

theorem rexmitChain_succ : rexmitChain now snd (fuel + 1) t l seen =
    match t.lht.get l with
    | none => (t, seen)
    | some p =>
        if t.nlimbo ≤ seen then (t, seen)
        else rexmitChain now snd fuel (rexmitEntry now snd t l p seen).1
          (rexmitEntry now snd t l p seen).2 (seen + 1) := by
  simp only [rexmitChain, rexmitEntry]
  cases t.lht.get l with
  | none => dsimp only
  | some p =>
    dsimp only
    simp only [Limbo.due_eq_false]
    split_ifs <;> dsimp only

/-- The entries that are visited in a chain. -/
def chainVisits (now : ℕ) (snd : ℕ → Synack) : ℕ → Tcppriv → Link ℕ → ℕ → List ℕ
  | 0, _, _, _ => []
  | fuel + 1, t, l, seen =>
      match t.lht.get l with
      | none => []
      | some p =>
          if t.nlimbo ≤ seen then []
          else p :: chainVisits now snd fuel (rexmitEntry now snd t l p seen).1
            (rexmitEntry now snd t l p seen).2 (seen + 1)

/-- The entries that a pass visits. -/
def limboVisits (t : Tcppriv) (now : ℕ) (snd : ℕ → Synack) : List ℕ :=
  ((List.range NLHT).foldl (fun w h =>
    if w.1.1.nlimbo ≤ w.1.2 then w
    else (rexmitChain now snd w.1.1.nlimbo.toNat w.1.1 (.root h) w.1.2,
      w.2 ++ chainVisits now snd w.1.1.nlimbo.toNat w.1.1 (.root h) w.1.2)) ((t, 0), [])).2

/-- The counter does not go up. -/
theorem nlimbo_rexmitEntry (now : ℕ) (snd : ℕ → Synack) (t : Tcppriv) (l : Link ℕ) (p seen : ℕ) :
    (rexmitEntry now snd t l p seen).1.nlimbo ≤ t.nlimbo := by
  simp only [rexmitEntry, answer, Tcppriv.unchain, Tcppriv.free, Tcppriv.setEntry]
  split_ifs <;> dsimp only <;> omega

/-- A pass along a chain ends before its visits are used up: more of them change nothing. -/
theorem rexmitChain_add (hfuel : t.nlimbo ≤ fuel + seen) (k : ℕ) :
    rexmitChain now snd (fuel + k) t l seen = rexmitChain now snd fuel t l seen := by
  induction fuel generalizing t l seen with
  | zero =>
    cases k with
    | zero => rfl
    | succ k =>
      rw [Nat.zero_add, rexmitChain_succ, rexmitChain]
      cases t.lht.get l with
      | none => rfl
      | some p =>
        dsimp only
        rw [if_pos (by omega)]
  | succ fuel ih =>
    rw [Nat.succ_add, rexmitChain_succ, rexmitChain_succ]
    cases t.lht.get l with
    | none => rfl
    | some p =>
      dsimp only
      split_ifs with hseen
      · rfl
      · refine ih ?_
        have := nlimbo_rexmitEntry now snd t l p seen
        push_cast at hfuel ⊢
        omega

/-! ### A pass without pointers -/

/-- What a pass has done: the counters, the entries visited, resent and thrown out. -/
structure Pass where
  nlimbo : ℕ
  seen : ℕ := 0
  visited : List ℕ := []
  resent : List ℕ := []
  gone : List ℕ := []

/-- What the visits to one entry do. -/
def visit (t : Tcppriv) (now : ℕ) (snd : ℕ → Synack) (w : Pass) (p : ℕ) : Pass :=
  if w.nlimbo ≤ w.seen then w
  else if (t.entry p).due now then
    if (t.entry p).spent (snd w.seen) then
      { nlimbo := w.nlimbo - 1, seen := w.seen + 1, visited := w.visited ++ [p],
        resent := w.resent ++ [p], gone := w.gone ++ [p] }
    else
      { w with seen := w.seen + 1, visited := w.visited ++ [p], resent := w.resent ++ [p] }
  else
    -- the link is not moved on
    { w with seen := w.nlimbo, visited := w.visited ++ List.replicate (w.nlimbo - w.seen) p }

/-- The chains of the table are `c`, and `nlimbo` counts their entries. -/
structure Strung (t : Tcppriv) (c : ℕ → List ℕ) : Prop where
  chain : ∀ h < NLHT, t.lht.Chain (.root h) (c h)
  nodup : ∀ h < NLHT, (c h).Nodup
  disjoint : ∀ h < NLHT, ∀ h' < NLHT, ∀ p, p ∈ c h → p ∈ c h' → h = h'

/-- The entries of all chains, in the order of the walk. -/
def entries (c : ℕ → List ℕ) : List ℕ := (List.range NLHT).flatMap c

theorem visit_of_le {w : Pass} (hw : w.nlimbo ≤ w.seen) (p : ℕ) : visit t now snd w p = w :=
  if_pos hw

/-- Without visits left nothing is done. -/
theorem foldl_visit_of_le {w : Pass} (hw : w.nlimbo ≤ w.seen) (qs : List ℕ) :
    qs.foldl (visit t now snd) w = w := by
  induction qs with
  | nil => rfl
  | cons q qs ih => rw [List.foldl_cons, visit_of_le hw, ih]

/-- At an entry that is not due all visits are used up. -/
theorem visit_of_not_due {w : Pass} (hgo : ¬ w.nlimbo ≤ w.seen)
    (hdue : (t.entry p).due now = false) : visit t now snd w p = { w with
      seen := w.nlimbo, visited := w.visited ++ List.replicate (w.nlimbo - w.seen) p } := by
  simp only [visit, hdue, if_neg hgo, Bool.false_eq_true, if_false]

theorem resent_foldl {w : Pass} (hp : p ∈ (qs.foldl (visit t now snd) w).resent) :
    p ∈ w.resent ∨ p ∈ qs := by
  induction qs generalizing w with
  | nil => exact .inl hp
  | cons q qs ih =>
    rcases ih hp with h | h
    · unfold visit at h
      split_ifs at h
      · exact .inl h
      · exact (List.mem_append.mp h).imp id fun h => by rw [List.mem_singleton.mp h]; simp
      · exact (List.mem_append.mp h).imp id fun h => by rw [List.mem_singleton.mp h]; simp
      · exact .inl h
    · exact .inr (List.mem_cons_of_mem _ h)

theorem gone_foldl {w : Pass} (hp : p ∈ (qs.foldl (visit t now snd) w).gone) :
    p ∈ w.gone ∨ p ∈ qs := by
  induction qs generalizing w with
  | nil => exact .inl hp
  | cons q qs ih =>
    rcases ih hp with h | h
    · unfold visit at h
      split_ifs at h
      · exact .inl h
      · exact (List.mem_append.mp h).imp id fun h => by rw [List.mem_singleton.mp h]; simp
      · exact .inl h
      · exact .inl h
    · exact .inr (List.mem_cons_of_mem _ h)

theorem nlimbo_foldl_le (w : Pass) (qs : List ℕ) :
    (qs.foldl (visit t now snd) w).nlimbo ≤ w.nlimbo := by
  induction qs generalizing w with
  | nil => exact le_rfl
  | cons q qs ih =>
    refine (ih _).trans ?_
    unfold visit
    split_ifs
    · exact le_rfl
    · exact Nat.sub_le _ _
    · exact le_rfl
    · exact le_rfl

/-! ### A pass along the pointers -/

/-- Where a pass has come to that started with the table `t` and its chains `c`. -/
structure Passed (t : Tcppriv) (c : ℕ → List ℕ) (w : Pass) (u : Tcppriv) (d : ℕ → List ℕ) :
    Prop where
  strung : Strung u d
  count : u.nlimbo = w.nlimbo
  kept : ∀ h < NLHT, d h = (c h).filter fun p => p ∉ w.gone
  rexmits : ∀ p, (u.entry p).rexmits =
    if p ∈ w.resent then ((t.entry p).rexmits + 1) % 256 else (t.entry p).rexmits
  same : ∀ p, p ∉ w.resent → u.entry p = t.entry p

/-- Taking out an entry of a chain. -/
theorem Strung.unchain (hs : Strung u c) (hh : h < NLHT) (hc : c h = ps ++ p :: qs) :
    Strung (u.unchain (lastLink (.root h) ps) p) (Function.update c h (ps ++ qs)) := by
  have hsub : ps ++ qs ⊆ c h := by
    rw [hc]
    exact (List.Sublist.append_left (List.sublist_cons_self p qs) ps).subset
  have hnodup := hs.nodup h hh
  have hchain := hs.chain h hh
  rw [hc] at hnodup hchain
  have hmem {h' q : ℕ} (hq : q ∈ Function.update c h (ps ++ qs) h') : q ∈ c h' := by
    by_cases hne : h' = h
    · subst hne
      rw [Function.update_self] at hq
      exact hsub hq
    · rwa [Function.update_of_ne hne] at hq
  refine ⟨fun h' hh' => ?_, fun h' hh' => ?_, fun h' hh' h'' hh'' q hq hq' =>
    hs.disjoint h' hh' h'' hh'' q (hmem hq) (hmem hq')⟩
  · by_cases hne : h' = h
    · subst hne
      rw [Function.update_self]
      exact chain_unlink hchain hnodup fun _ _ => by simp
    · rw [Function.update_of_ne hne]
      refine (chain_set_of_ne ?_ ?_).mpr (hs.chain h' hh')
      · rcases lastLink_mem (.root h) ps with heq | ⟨q, -, heq⟩
        · rw [heq]
          exact fun heq => hne (Link.root.inj heq).symm
        · rw [heq]
          simp
      · intro q hq
        rcases lastLink_mem (.root h) ps with heq | ⟨q', hq', heq⟩
        · rw [heq]
          simp
        · rw [heq]
          intro hqq
          rw [Link.next.inj hqq] at hq'
          exact hne (hs.disjoint h' hh' h hh q hq (hsub (List.mem_append_left _ hq')))
  · by_cases hne : h' = h
    · subst hne
      rw [Function.update_self]
      exact hnodup.sublist (List.Sublist.append_left (List.sublist_cons_self p qs) ps)
    · rw [Function.update_of_ne hne]
      exact hs.nodup h' hh'

/-- An entry that is not due is visited until no visits are left. -/
theorem rexmitChain_of_not_due (snd : ℕ → Synack) (seen : ℕ) (hget : u.lht.get l = some p)
    (hdue : (u.entry p).due now = false)
    (hcount : u.nlimbo = n) (hseen : seen ≤ n) (hfuel : n ≤ fuel + seen) :
    rexmitChain now snd fuel u l seen = (u, n) ∧
      chainVisits now snd fuel u l seen = List.replicate (n - seen) p := by
  have hentry (seen : ℕ) : rexmitEntry now snd u l p seen = (u, l) := if_pos hdue
  induction fuel generalizing seen with
  | zero =>
    obtain rfl : seen = n := by omega
    exact ⟨rfl, by rw [Nat.sub_self]; rfl⟩
  | succ fuel ih =>
    rw [rexmitChain_succ, chainVisits, hget]
    dsimp only
    by_cases hstop : n ≤ seen
    · obtain rfl : seen = n := by omega
      rw [if_pos (by omega), if_pos (by omega), Nat.sub_self]
      exact ⟨rfl, rfl⟩
    · obtain ⟨hchain, hvisits⟩ := ih (seen + 1) (by omega) (by omega)
      rw [if_neg (by omega), if_neg (by omega), hentry, hchain, hvisits]
      refine ⟨rfl, ?_⟩
      rw [← List.replicate_succ]
      congr 1
      omega

/-- An entry that is due, in a table that is not full, is thrown out when it is spent. -/
theorem rexmitEntry_of_due (snd : ℕ → Synack) (l : Link ℕ) (seen : ℕ)
    (hdue : (u.entry p).due now = true) (hcount : u.nlimbo ≤ 100) :
    ∃ lp, rexmitEntry now snd u l p seen = (if (u.entry p).spent (snd seen) then
        (((u.setEntry p lp).unchain l p).free p, l) else (u.setEntry p lp, .next p)) ∧
      lp.rexmits = ((u.entry p).rexmits + 1) % 256 := by
  have hsnd (lp : Limbo) (r : Synack) : (sndsynack lp r).rexmits = lp.rexmits := by
    unfold sndsynack
    dsimp only
    split_ifs <;> rfl
  have hset (lp lq : Limbo) : (u.setEntry p lp).setEntry p lq = u.setEntry p lq := by
    simp [Tcppriv.setEntry]
  have hself (lp : Limbo) : (u.setEntry p lp).entry p = lp := Function.update_self _ _ _
  have hn (lp : Limbo) : ¬ 100 < (u.setEntry p lp).nlimbo := by
    change ¬ 100 < u.nlimbo
    omega
  simp only [rexmitEntry, hdue, Bool.true_eq_false, if_false, if_neg (hn _), answer, hset, hself]
  by_cases h5 : 5 < ((u.entry p).rexmits + 1) % 256
  · refine ⟨{ u.entry p with rexmits := ((u.entry p).rexmits + 1) % 256 }, ?_, rfl⟩
    simp [h5, Limbo.spent]
  · refine ⟨sndsynack { u.entry p with rexmits := ((u.entry p).rexmits + 1) % 256 } (snd seen), ?_,
      hsnd _ _⟩
    cases hfails : (snd seen).fails <;> simp [h5, Limbo.spent, hfails]

/-- An entry is resent. -/
theorem Passed.resend {w w' : Pass} {d : ℕ → List ℕ} {lp : Limbo} (hw : Passed t c w u d)
    (hp : p ∉ w.resent) (hlp : lp.rexmits = ((u.entry p).rexmits + 1) % 256)
    (hn : w'.nlimbo = w.nlimbo) (hgone : w'.gone = w.gone) (hresent : w'.resent = w.resent ++ [p]) :
    Passed t c w' (u.setEntry p lp) d := by
  have hother {q : ℕ} (hq : q ≠ p) : (u.setEntry p lp).entry q = u.entry q :=
    Function.update_of_ne hq _ _
  have hself : (u.setEntry p lp).entry p = lp := Function.update_self _ _ _
  refine ⟨⟨hw.strung.chain, hw.strung.nodup, hw.strung.disjoint⟩, hn ▸ hw.count,
    fun h hh => hgone ▸ hw.kept h hh, fun q => ?_, fun q hq => ?_⟩
  · rw [hresent]
    by_cases hq : q = p
    · subst hq
      rw [hself, hlp, hw.same q hp, if_pos (by simp)]
    · rw [hother hq, hw.rexmits q]
      simp [hq]
  · rw [hresent, List.mem_append, List.mem_singleton, not_or] at hq
    rw [hother hq.2, hw.same q hq.1]

/-- An entry is thrown out. -/
theorem Passed.throw {w : Pass} (w' : Pass) {d : ℕ → List ℕ} (hw : Passed t c w u d) (hh : h < NLHT)
    (hd : d h = ps ++ p :: qs) (hpos : 0 < w.nlimbo) (hn : w'.nlimbo = w.nlimbo - 1)
    (hgone : w'.gone = w.gone ++ [p]) (hresent : w'.resent = w.resent) :
    Passed t c w' ((u.unchain (lastLink (.root h) ps) p).free p)
      (Function.update d h (ps ++ qs)) := by
  have hstr := hw.strung.unchain hh hd
  have hnodup := hw.strung.nodup h hh
  rw [hd] at hnodup
  obtain ⟨hp, -⟩ := List.nodup_cons.mp (List.nodup_middle.mp hnodup)
  refine ⟨⟨hstr.chain, hstr.nodup, hstr.disjoint⟩, ?_, fun h' hh' => ?_,
    fun q => hresent ▸ hw.rexmits q,
    fun q hq => hw.same q (hresent ▸ hq)⟩
  · change u.nlimbo - 1 = _
    rw [hw.count, hn]
    omega
  · have hsplit : ((c h').filter fun q => q ∉ w'.gone) = (d h').filter fun q => q ≠ p := by
      rw [hw.kept h' hh', List.filter_filter, hgone]
      refine List.filter_congr fun q _ => ?_
      simp [and_comm]
    rw [hsplit]
    by_cases hne : h' = h
    · subst hne
      rw [Function.update_self, hd, List.filter_append, List.filter_cons_of_neg (by simp),
        ← List.filter_append, List.filter_eq_self.mpr]
      intro q hq
      simpa using fun heq : q = p => hp (heq ▸ hq)
    · rw [Function.update_of_ne hne, List.filter_eq_self.mpr]
      intro q hq
      refine decide_eq_true fun heq => hne ?_
      subst heq
      exact hw.strung.disjoint h' hh' h hh q hq (by rw [hd]; simp)

/-- A pass along one chain. -/
theorem passed_rexmitChain (now : ℕ) (snd : ℕ → Synack) (ps : List ℕ) (fuel : ℕ) {w : Pass}
    {d : ℕ → List ℕ} (hh : h < NLHT) (hmax : w.nlimbo ≤ 100)
    (hfuel : w.nlimbo ≤ fuel + w.seen) (hw : Passed t c w u d) (hd : d h = ps ++ qs)
    (hqs : ∀ q ∈ qs, q ∉ w.resent) :
    ∃ u' d', rexmitChain now snd fuel u (lastLink (.root h) ps) w.seen =
        (u', (qs.foldl (visit t now snd) w).seen) ∧
      (qs.foldl (visit t now snd) w).visited =
        w.visited ++ chainVisits now snd fuel u (lastLink (.root h) ps) w.seen ∧
      Passed t c (qs.foldl (visit t now snd) w) u' d' := by
  induction qs generalizing ps fuel w u d with
  | nil =>
    have hget : u.lht.get (lastLink (.root h) ps) = none := by
      have hchain := hw.strung.chain h hh
      rw [hd] at hchain
      exact hchain.drop
    refine ⟨u, d, ?_, ?_, hw⟩
    · cases fuel with
      | zero => simp only [rexmitChain, List.foldl_nil]
      | succ fuel => simp only [rexmitChain_succ, hget, List.foldl_nil]
    · cases fuel with
      | zero => simp only [chainVisits, List.foldl_nil, List.append_nil]
      | succ fuel => simp only [chainVisits, hget, List.foldl_nil, List.append_nil]
  | cons p qs ih =>
    have hchain := hw.strung.chain h hh
    rw [hd] at hchain
    have hget := hchain.drop.1
    by_cases hstop : w.nlimbo ≤ w.seen
    · rw [foldl_visit_of_le hstop]
      refine ⟨u, d, ?_, ?_, hw⟩
      · cases fuel with
        | zero => simp only [rexmitChain]
        | succ fuel =>
          simp only [rexmitChain_succ, hget]
          rw [if_pos (by rw [hw.count]; omega)]
      · cases fuel with
        | zero => simp only [chainVisits, List.append_nil]
        | succ fuel =>
          simp only [chainVisits, hget]
          rw [if_pos (by rw [hw.count]; omega), List.append_nil]
    · have hentry := hw.same p (hqs p List.mem_cons_self)
      cases hdue : (t.entry p).due now with
      | false =>
        obtain ⟨hrun, hvisits⟩ := rexmitChain_of_not_due snd w.seen hget
          (by rw [hentry]; exact hdue) hw.count (by omega) hfuel
        rw [List.foldl_cons, visit_of_not_due hstop hdue, foldl_visit_of_le le_rfl, hrun, hvisits]
        exact ⟨u, d, rfl, rfl, hw.strung, hw.count, hw.kept, hw.rexmits, hw.same⟩
      | true =>
        obtain ⟨fuel, rfl⟩ : ∃ k, fuel = k + 1 := ⟨fuel - 1, by omega⟩
        have hp : p ∉ w.resent := hqs p List.mem_cons_self
        have hnodup := hw.strung.nodup h hh
        rw [hd] at hnodup
        have hpqs : p ∉ qs := (List.nodup_cons.mp (List.nodup_append.mp hnodup).2.1).1
        have hrest (q : ℕ) (hq : q ∈ qs) : q ∉ w.resent ++ [p] := by
          rw [List.mem_append, List.mem_singleton, not_or]
          exact ⟨hqs q (List.mem_cons_of_mem _ hq), fun heq => hpqs (heq ▸ hq)⟩
        obtain ⟨lp, hvisited, hlp⟩ := rexmitEntry_of_due snd (lastLink (.root h) ps) w.seen
          (by rw [hentry]; exact hdue) (by rw [hw.count]; omega)
        rw [hentry] at hvisited
        have hgo : ¬ u.nlimbo ≤ w.seen := by
          rw [hw.count]
          omega
        cases hspent : (t.entry p).spent (snd w.seen) with
        | true =>
          rw [hspent, if_pos rfl] at hvisited
          have hvisit : visit t now snd w p =
              { nlimbo := w.nlimbo - 1, seen := w.seen + 1, visited := w.visited ++ [p],
                resent := w.resent ++ [p], gone := w.gone ++ [p] } := by
            simp only [visit, hdue, hspent, if_neg hstop, if_true]
          have hresent : Passed t c { w with resent := w.resent ++ [p] } (u.setEntry p lp) d :=
            hw.resend hp hlp rfl rfl rfl
          have hthrown := hresent.throw (visit t now snd w p) hh hd (by dsimp only; omega)
            (by rw [hvisit]) (by rw [hvisit]) (by rw [hvisit])
          rw [hvisit] at hthrown
          obtain ⟨u', d', hrun, hvisits, hpassed⟩ := ih ps fuel
            (by dsimp only; omega) (by dsimp only; omega) hthrown (Function.update_self _ _ _) hrest
          rw [List.foldl_cons, hvisit]
          refine ⟨u', d', ?_, ?_, hpassed⟩
          · rw [rexmitChain_succ, hget]
            dsimp only
            rw [if_neg hgo, hvisited]
            exact hrun
          · rw [hvisits, chainVisits, hget]
            dsimp only
            rw [if_neg hgo, hvisited, List.append_assoc]
            rfl
        | false =>
          rw [hspent, if_neg (by decide)] at hvisited
          have hvisit : visit t now snd w p = { w with
              seen := w.seen + 1, visited := w.visited ++ [p], resent := w.resent ++ [p] } := by
            simp only [visit, hdue, hspent, if_neg hstop, if_true, Bool.false_eq_true, if_false]
          have hresent : Passed t c (visit t now snd w p) (u.setEntry p lp) d :=
            hw.resend hp hlp (by rw [hvisit]) (by rw [hvisit]) (by rw [hvisit])
          rw [hvisit] at hresent
          have hnext : Link.next p = lastLink (.root h) (ps ++ [p]) := by
            rw [lastLink_append]
            rfl
          obtain ⟨u', d', hrun, hvisits, hpassed⟩ := ih (ps ++ [p]) fuel
            (by dsimp only; omega) (by dsimp only; omega) hresent
            (by rw [hd, List.append_assoc, List.singleton_append]) hrest
          rw [List.foldl_cons, hvisit]
          refine ⟨u', d', ?_, ?_, hpassed⟩
          · rw [rexmitChain_succ, hget]
            dsimp only
            rw [if_neg hgo, hvisited, hnext]
            exact hrun
          · rw [hvisits, chainVisits, hget]
            dsimp only
            rw [if_neg hgo, hvisited, hnext, List.append_assoc]
            rfl

/-- A pass along some chains. -/
theorem passed_foldl (now : ℕ) (snd : ℕ → Synack) (hc : Strung t c) (hs : List ℕ)
    (hlt : ∀ h ∈ hs, h < NLHT) (hnodup : hs.Nodup)
    {w : Pass} {d : ℕ → List ℕ} (hmax : w.nlimbo ≤ 100) (hw : Passed t c w u d)
    (hrest : ∀ h ∈ hs, ∀ q ∈ c h, q ∉ w.resent ∧ q ∉ w.gone) :
    ∃ u' d', hs.foldl (fun w h => if w.1.nlimbo ≤ w.2 then w
          else rexmitChain now snd w.1.nlimbo.toNat w.1 (.root h) w.2) (u, w.seen) =
        (u', ((hs.flatMap c).foldl (visit t now snd) w).seen) ∧
      hs.foldl (fun w h => if w.1.1.nlimbo ≤ w.1.2 then w
          else (rexmitChain now snd w.1.1.nlimbo.toNat w.1.1 (.root h) w.1.2,
            w.2 ++ chainVisits now snd w.1.1.nlimbo.toNat w.1.1 (.root h) w.1.2))
          ((u, w.seen), w.visited) =
        ((u', ((hs.flatMap c).foldl (visit t now snd) w).seen),
          ((hs.flatMap c).foldl (visit t now snd) w).visited) ∧
      Passed t c ((hs.flatMap c).foldl (visit t now snd) w) u' d' := by
  induction hs generalizing w u d with
  | nil => exact ⟨u, d, rfl, rfl, hw⟩
  | cons h hs ih =>
    obtain ⟨hh, hlt⟩ := List.forall_mem_cons.mp hlt
    obtain ⟨hnot, hnodup⟩ := List.nodup_cons.mp hnodup
    obtain ⟨hfirst, hrest⟩ := List.forall_mem_cons.mp hrest
    simp only [List.foldl_cons, List.flatMap_cons, List.foldl_append]
    by_cases hstop : w.nlimbo ≤ w.seen
    · have hstop' : u.nlimbo ≤ w.seen := by
        rw [hw.count]
        exact_mod_cast hstop
      rw [if_pos hstop', if_pos hstop', foldl_visit_of_le hstop]
      exact ih hlt hnodup hmax hw hrest
    · have hstop' : ¬ u.nlimbo ≤ w.seen := by
        rw [hw.count]
        exact_mod_cast hstop
      have hd : d h = [] ++ c h := by
        rw [hw.kept h hh, List.nil_append, List.filter_eq_self]
        exact fun q hq => decide_eq_true (hfirst q hq).2
      obtain ⟨u', d', hrun, hvisits, hpassed⟩ := passed_rexmitChain now snd [] u.nlimbo.toNat hh
        hmax (by rw [hw.count]; omega) hw hd fun q hq => (hfirst q hq).1
      rw [if_neg hstop', if_neg hstop']
      have hlast : lastLink (.root h : Link ℕ) [] = .root h := rfl
      rw [hlast] at hrun hvisits
      rw [hrun, ← hvisits]
      refine ih hlt hnodup ((nlimbo_foldl_le w (c h)).trans hmax) hpassed fun h' hh' q hq => ?_
      have hother : q ∉ c h := fun hq' =>
        hnot (hc.disjoint h hh h' (hlt h' hh') q hq' hq ▸ hh')
      obtain ⟨hres, hgone⟩ := hrest h' hh' q hq
      exact ⟨fun hmem => (resent_foldl hmem).elim hres hother,
        fun hmem => (gone_foldl hmem).elim hgone hother⟩

/-- A pass along the pointers does what it does without them. -/
theorem passed_limborexmit (hc : Strung t c) (hcount : t.nlimbo = (entries c).length)
    (hmax : t.nlimbo ≤ 100) (now : ℕ) (snd : ℕ → Synack) :
    ∃ d, Passed t c ((entries c).foldl (visit t now snd) { nlimbo := (entries c).length })
        (limborexmit t now snd) d ∧
      limboVisits t now snd =
        ((entries c).foldl (visit t now snd) { nlimbo := (entries c).length }).visited := by
  have hstart : Passed t c { nlimbo := (entries c).length } t c :=
    ⟨hc, hcount, fun h _ => by simp, fun p => by simp, fun p _ => rfl⟩
  obtain ⟨u, d, hrun, hvisits, hpassed⟩ := passed_foldl now snd hc
    (List.range NLHT) (fun h hh => List.mem_range.mp hh) List.nodup_range (by dsimp only; omega)
    hstart fun h _ q _ => ⟨List.not_mem_nil, List.not_mem_nil⟩
  refine ⟨d, ?_, ?_⟩
  · rw [limborexmit, hrun]
    exact hpassed
  · rw [limboVisits, hvisits]
    rfl

/-! ### Which entries are served -/

/-- The entries that are thrown out when they are resent in order, from the visit `seen` on. -/
def thrown (t : Tcppriv) (snd : ℕ → Synack) (seen : ℕ) (ps : List ℕ) : List ℕ :=
  ((ps.zipIdx seen).filter fun x => (t.entry x.1).spent (snd x.2)).map Prod.fst

theorem thrown_cons : thrown t snd seen (p :: ps) =
    if (t.entry p).spent (snd seen) then p :: thrown t snd (seen + 1) ps
    else thrown t snd (seen + 1) ps := by
  unfold thrown
  rw [List.zipIdx_cons, List.filter_cons]
  dsimp only
  split_ifs <;> rfl

theorem mem_thrown : p ∈ thrown t snd seen ps ↔
    ∃ i, ps[i]? = some p ∧ (t.entry p).spent (snd (seen + i)) = true := by
  simp only [thrown, List.mem_map, List.mem_filter, Prod.exists]
  constructor
  · rintro ⟨q, i, ⟨hmem, hspent⟩, rfl⟩
    obtain ⟨hle, hget⟩ := List.mk_mem_zipIdx_iff_le_and_getElem?_sub.mp hmem
    exact ⟨i - seen, hget, by rwa [Nat.add_sub_cancel' hle]⟩
  · rintro ⟨i, hget, hspent⟩
    refine ⟨p, seen + i, ⟨List.mk_mem_zipIdx_iff_le_and_getElem?_sub.mpr
      ⟨Nat.le_add_right _ _, ?_⟩, hspent⟩, rfl⟩
    rwa [Nat.add_sub_cancel_left]

/-- Entries that are due are resent one after the other while there are visits. -/
theorem foldl_visit_due {w : Pass} {ds : List ℕ} (hdue : ∀ p ∈ ds, (t.entry p).due now = true)
    (hroom : ∀ j < ds.length, w.seen + j + (thrown t snd w.seen (ds.take j)).length < w.nlimbo) :
    ds.foldl (visit t now snd) w =
      { nlimbo := w.nlimbo - (thrown t snd w.seen ds).length
        seen := w.seen + ds.length
        visited := w.visited ++ ds
        resent := w.resent ++ ds
        gone := w.gone ++ thrown t snd w.seen ds } := by
  induction ds generalizing w with
  | nil => simp [thrown]
  | cons p ds ih =>
    obtain ⟨hp, hdue⟩ := List.forall_mem_cons.mp hdue
    have hfirst := hroom 0 (by simp)
    have hgo : ¬ w.nlimbo ≤ w.seen := by omega
    have hlater (j : ℕ) (hj : j < ds.length) := hroom (j + 1) (by simpa using hj)
    simp only [List.take_succ_cons, thrown_cons] at hlater
    rw [List.foldl_cons, thrown_cons]
    cases hspent : (t.entry p).spent (snd w.seen) with
    | true =>
      have hvisit : visit t now snd w p =
          { nlimbo := w.nlimbo - 1, seen := w.seen + 1, visited := w.visited ++ [p],
            resent := w.resent ++ [p], gone := w.gone ++ [p] } := by
        simp only [visit, hp, hspent, if_neg hgo, if_true]
      rw [hvisit, ih hdue fun j hj => ?_]
      · simp only [if_true, List.length_cons, List.append_assoc, List.singleton_append,
          Pass.mk.injEq, and_true]
        omega
      · have := hlater j hj
        rw [hspent, if_pos rfl, List.length_cons] at this
        dsimp only
        omega
    | false =>
      have hvisit : visit t now snd w p = { w with
          seen := w.seen + 1, visited := w.visited ++ [p], resent := w.resent ++ [p] } := by
        simp only [visit, hp, hspent, if_neg hgo, if_true, Bool.false_eq_true, if_false]
      rw [hvisit, ih hdue fun j hj => ?_]
      · simp only [Bool.false_eq_true, if_false, List.length_cons, List.append_assoc,
          List.singleton_append, Pass.mk.injEq, and_true, true_and]
        omega
      · have := hlater j hj
        rw [hspent, if_neg (by decide)] at this
        dsimp only
        omega

/-- What a pass over a table with the chains `c` should do: it visits no entry twice and ends, it
counts what is due, and it throws out what was resent too often or could not be sent. -/
structure Served (t : Tcppriv) (c : ℕ → List ℕ) (now : ℕ) (snd : ℕ → Synack) : Prop where
  once : (limboVisits t now snd).Nodup
  ends : ∀ u l seen k, rexmitChain now snd (u.nlimbo.toNat + k) u l seen =
    rexmitChain now snd u.nlimbo.toNat u l seen
  rexmits : ∀ p ∈ entries c, ((limborexmit t now snd).entry p).rexmits =
    if (t.entry p).due now then ((t.entry p).rexmits + 1) % 256 else (t.entry p).rexmits
  chain : ∀ h < NLHT, (limborexmit t now snd).lht.Chain (.root h) ((c h).filter fun p =>
    ¬ ((t.entry p).due now ∧ (t.entry p).spent (snd ((entries c).idxOf p))))

/-- The entries that are due come before the others, there are visits for all of them, and at most
one more. -/
def InTurn (t : Tcppriv) (now : ℕ) (snd : ℕ → Synack) (ps : List ℕ) : Prop :=
  let ds := ps.filter fun p => (t.entry p).due now
  ps = ds ++ (ps.filter fun p => !(t.entry p).due now) ∧
    (∀ j < ds.length, j + (thrown t snd 0 (ps.take j)).length < ps.length) ∧
    ps.length ≤ ds.length + (thrown t snd 0 ds).length + 1

/-- The entries of all chains are distinct. -/
theorem Strung.nodup_entries (hc : Strung t c) : (entries c).Nodup := by
  rw [entries, List.nodup_flatMap]
  refine ⟨fun h hh => hc.nodup h (List.mem_range.mp hh), ?_⟩
  refine List.Pairwise.imp_of_mem (fun {h h'} hh hh' hne => ?_) List.nodup_range
  exact fun p hp hp' =>
    hne (hc.disjoint h (List.mem_range.mp hh) h' (List.mem_range.mp hh') p hp hp')

/-- Where the entries that are due come first, a pass resends them, and visits one entry more at
most. -/
theorem foldl_visit_of_inTurn {ps : List ℕ} (h : InTurn t now snd ps) :
    let ds := ps.filter fun p => (t.entry p).due now
    let w := ps.foldl (visit t now snd) { nlimbo := ps.length }
    w.resent = ds ∧ w.gone = thrown t snd 0 ds ∧ w.visited <+: ps := by
  obtain ⟨hsplit, hroom, hend⟩ := h
  intro ds w
  set rest := ps.filter fun p => !(t.entry p).due now with hrest
  have hlen : ps.length = ds.length + rest.length := by
    conv_lhs => rw [hsplit]
    exact List.length_append
  have htake (j : ℕ) (hj : j < ds.length) : ps.take j = ds.take j := by
    conv_lhs => rw [hsplit]
    exact List.take_append_of_le_length hj.le
  have hfold : w = rest.foldl (visit t now snd)
      { nlimbo := ps.length - (thrown t snd 0 ds).length, seen := ds.length, visited := ds,
        resent := ds, gone := thrown t snd 0 ds } := by
    have hds : ds.foldl (visit t now snd) { nlimbo := ps.length } = _ :=
      foldl_visit_due (fun p hp => (List.mem_filter.mp hp).2) fun j hj => by
        have := hroom j hj
        rw [htake j hj] at this
        dsimp only
        omega
    have hw : w = (ds ++ rest).foldl (visit t now snd) { nlimbo := ps.length } := by
      rw [← hsplit]
    rw [hw, List.foldl_append, hds]
    simp
  cases hr : rest with
  | nil =>
    rw [hr, List.append_nil] at hsplit
    rw [hr] at hfold
    exact ⟨congrArg Pass.resent hfold, congrArg Pass.gone hfold,
      (congrArg Pass.visited hfold).trans hsplit.symm ▸ List.prefix_rfl⟩
  | cons e es =>
    have he : (t.entry e).due now = false := by
      have : e ∈ rest := by simp [hr]
      simpa using (List.mem_filter.mp this).2
    rw [hr, List.foldl_cons] at hfold
    rw [hr] at hsplit hlen
    by_cases hstop : ps.length - (thrown t snd 0 ds).length ≤ ds.length
    · rw [visit_of_le hstop, foldl_visit_of_le hstop] at hfold
      rw [hfold]
      exact ⟨rfl, rfl, ⟨e :: es, hsplit.symm⟩⟩
    · rw [visit_of_not_due hstop he, foldl_visit_of_le le_rfl] at hfold
      have hone : ps.length - (thrown t snd 0 ds).length - ds.length = 1 := by
        change ps.length ≤ ds.length + (thrown t snd 0 ds).length + 1 at hend
        omega
      rw [hfold]
      refine ⟨rfl, rfl, ⟨es, ?_⟩⟩
      dsimp only
      rw [hone, List.replicate_one, List.append_assoc, List.singleton_append]
      exact hsplit.symm

/-- Where a pass resends just the entries that are due, and visits none twice, they come first. -/
theorem inTurn_of_foldl {ps : List ℕ} (hps : ps.Nodup)
    (hresent : ∀ p ∈ ps, p ∈ (ps.foldl (visit t now snd) { nlimbo := ps.length }).resent ↔
      (t.entry p).due now = true)
    (hvisited : (ps.foldl (visit t now snd) { nlimbo := ps.length }).visited.Nodup) :
    InTurn t now snd ps := by
  set w := ps.foldl (visit t now snd) { nlimbo := ps.length } with hw
  set ds := ps.takeWhile fun p => (t.entry p).due now with hds
  set rest := ps.dropWhile fun p => (t.entry p).due now with hrest
  have hsplit : ds ++ rest = ps := List.takeWhile_append_dropWhile
  have hdue (p : ℕ) (hp : p ∈ ds) : (t.entry p).due now = true := by
    simpa using List.mem_takeWhile_imp hp
  have htake (j : ℕ) (hj : j ≤ ds.length) : ps.take j = ds.take j := by
    rw [← hsplit, List.take_append_of_le_length hj]
  have hfold (j : ℕ) (hj : j ≤ ds.length)
      (hroom : ∀ i < j, i + (thrown t snd 0 (ps.take i)).length < ps.length) :
      (ps.take j).foldl (visit t now snd) { nlimbo := ps.length } =
        { nlimbo := ps.length - (thrown t snd 0 (ps.take j)).length, seen := j,
          visited := ps.take j, resent := ps.take j, gone := thrown t snd 0 (ps.take j) } := by
    have hlen : (ps.take j).length = j := by
      rw [htake j hj, List.length_take, min_eq_left hj]
    rw [foldl_visit_due (fun p hp => hdue p ?_) fun i hi => ?_]
    · simp only [hlen, Nat.zero_add, List.nil_append]
    · rw [htake j hj] at hp
      exact List.mem_of_mem_take hp
    · rw [hlen] at hi
      have := hroom i hi
      rw [List.take_take, min_eq_left hi.le]
      dsimp only
      omega
  -- no entry that is due is left out
  have hroom : ∀ j < ds.length, j + (thrown t snd 0 (ps.take j)).length < ps.length := by
    intro j
    induction j using Nat.strong_induction_on with
    | _ j ih =>
      intro hj
      by_contra hno
      have hwj := hfold j hj.le fun i hi => ih i hi (hi.trans hj)
      have hwstop : w = (ps.take j).foldl (visit t now snd) { nlimbo := ps.length } := by
        rw [hw]
        conv_lhs => rw [← List.take_append_drop j ps, List.foldl_append, List.take_append_drop]
        rw [hwj]
        exact foldl_visit_of_le (by dsimp only; omega) _
      have hlt : j < ps.length := by
        rw [← hsplit, List.length_append]
        omega
      have hpj : ps[j] ∈ ds := by
        have hget : ps[j] = ds[j] := by
          simp only [← hsplit]
          exact List.getElem_append_left hj
        rw [hget]
        exact List.getElem_mem hj
      have hmem := (hresent ps[j] (List.getElem_mem hlt)).mpr (hdue _ hpj)
      rw [hwstop, hwj] at hmem
      obtain ⟨i, hi, heq⟩ := List.mem_take_iff_getElem.mp hmem
      have := (List.Nodup.getElem_inj_iff hps).mp heq
      omega
  have hds' : ps.take ds.length = ds := by rw [htake _ le_rfl, List.take_length]
  have hwd := hfold ds.length le_rfl hroom
  have hwrest : w = rest.foldl (visit t now snd)
      { nlimbo := ps.length - (thrown t snd 0 ds).length, seen := ds.length, visited := ds,
        resent := ds, gone := thrown t snd 0 ds } := by
    rw [hds'] at hwd
    rw [hw, ← hwd, ← List.foldl_append, hsplit]
  have hends : w.resent = ds ∧ ps.length ≤ ds.length + (thrown t snd 0 ds).length + 1 := by
    cases hr : rest with
    | nil =>
      rw [hr] at hwrest hsplit
      rw [hwrest, ← hsplit, List.append_nil]
      exact ⟨rfl, by omega⟩
    | cons e es =>
      have he : (t.entry e).due now = false := by
        have := List.head?_dropWhile_not (fun p => (t.entry p).due now) ps
        rw [← hrest, hr] at this
        simpa using this
      rw [hr, List.foldl_cons] at hwrest
      by_cases hstop : ps.length - (thrown t snd 0 ds).length ≤ ds.length
      · rw [visit_of_le hstop, foldl_visit_of_le hstop] at hwrest
        rw [hwrest]
        exact ⟨rfl, by omega⟩
      · rw [visit_of_not_due hstop he, foldl_visit_of_le le_rfl] at hwrest
        rw [hwrest] at hvisited ⊢
        refine ⟨rfl, ?_⟩
        have hone := List.nodup_replicate.mp (List.nodup_append.mp hvisited).2.1
        dsimp only at hone
        omega
  have hnone (p : ℕ) (hp : p ∈ rest) : (t.entry p).due now = false := by
    rw [← hsplit] at hps
    rw [← Bool.not_eq_true, ← hresent p (by rw [← hsplit]; exact List.mem_append_right _ hp),
      hends.1]
    exact fun hmem => (List.nodup_append.mp hps).2.2 p hmem p hp rfl
  have hfilter : (ps.filter fun p => (t.entry p).due now) = ds := by
    rw [← hsplit, List.filter_append, List.filter_eq_self.mpr hdue,
      List.filter_eq_nil_iff.mpr fun p hp => by simp [hnone p hp], List.append_nil]
  have hfilter' : (ps.filter fun p => !(t.entry p).due now) = rest := by
    rw [← hsplit, List.filter_append, List.filter_eq_nil_iff.mpr fun p hp => by simp [hdue p hp],
      List.filter_eq_self.mpr fun p hp => by simp [hnone p hp], List.nil_append]
  unfold InTurn
  rw [hfilter, hfilter']
  exact ⟨hsplit.symm, hroom, hends.2⟩

/-- The entries thrown out are those that are due and spent. -/
theorem mem_thrown_of_inTurn {ps : List ℕ} (hps : ps.Nodup) (h : InTurn t now snd ps)
    (hp : p ∈ ps) :
    p ∈ thrown t snd 0 (ps.filter fun p => (t.entry p).due now) ↔
      (t.entry p).due now = true ∧ (t.entry p).spent (snd (ps.idxOf p)) = true := by
  have hsplit := h.1
  set ds := ps.filter fun p => (t.entry p).due now with hds
  rw [mem_thrown]
  constructor
  · rintro ⟨i, hget, hspent⟩
    obtain ⟨hi, rfl⟩ := List.getElem?_eq_some_iff.mp hget
    have hget' : ps[i]? = some ds[i] := by
      rw [hsplit, List.getElem?_append_left hi, hget]
    obtain ⟨hi', heq⟩ := List.getElem?_eq_some_iff.mp hget'
    refine ⟨(List.mem_filter.mp (List.getElem_mem hi)).2, ?_⟩
    rw [← heq, hps.idxOf_getElem, heq]
    rwa [Nat.zero_add] at hspent
  · rintro ⟨hdue, hspent⟩
    have hmem : p ∈ ds := List.mem_filter.mpr ⟨hp, hdue⟩
    refine ⟨ds.idxOf p, List.getElem?_idxOf hmem, ?_⟩
    rw [hsplit, List.idxOf_append_of_mem hmem] at hspent
    rwa [Nat.zero_add]

/-- Of a table whose chains are in order and that is not under attack, a pass serves all entries,
just when those that are due come first in the order of the walk and the visits reach them. -/
theorem served_iff (hc : Strung t c) (hcount : t.nlimbo = (entries c).length)
    (hmax : t.nlimbo ≤ 100) (now : ℕ) (snd : ℕ → Synack) :
    Served t c now snd ↔ InTurn t now snd (entries c) := by
  obtain ⟨d, hpassed, hvisits⟩ := passed_limborexmit hc hcount hmax now snd
  have hchange (p : ℕ) : (((t.entry p).rexmits + 1) % 256 = (t.entry p).rexmits) ↔ False := by
    have := Nat.mod_lt ((t.entry p).rexmits + 1) (show 0 < 256 by decide)
    constructor
    · intro h
      have hlt : (t.entry p).rexmits < 256 := h ▸ this
      rcases Nat.lt_or_ge ((t.entry p).rexmits + 1) 256 with hs | hs
      · rw [Nat.mod_eq_of_lt hs] at h
        omega
      · obtain h' : (t.entry p).rexmits = 255 := by omega
        rw [h'] at h
        cases h
    · exact False.elim
  constructor
  · intro h
    refine inTurn_of_foldl hc.nodup_entries (fun p hp => ?_) (hvisits ▸ h.once)
    have heq := h.rexmits p hp
    rw [hpassed.rexmits p] at heq
    split_ifs at heq with h1 h2 h2
    · exact iff_of_true h1 h2
    · exact absurd heq ((hchange p).mp ·)
    · exact absurd heq.symm ((hchange p).mp ·)
    · exact iff_of_false h1 h2
  · intro h
    obtain ⟨hresent, hgone, hprefix⟩ := foldl_visit_of_inTurn h
    have hps := hc.nodup_entries
    refine ⟨?_, fun u l seen k => rexmitChain_add (by omega) k, fun p hp => ?_, fun h' hh' => ?_⟩
    · rw [hvisits]
      exact hps.sublist hprefix.sublist
    · rw [hpassed.rexmits p, hresent]
      simp only [List.mem_filter, hp, true_and]
    · have hchain := hpassed.strung.chain h' hh'
      rw [hpassed.kept h' hh'] at hchain
      refine (List.filter_congr fun p hp => ?_) ▸ hchain
      have hmem : p ∈ entries c := List.mem_flatMap.mpr ⟨h', List.mem_range.mpr hh', hp⟩
      rw [hgone]
      exact decide_eq_decide.mpr (not_congr (mem_thrown_of_inTurn hps h hmem))

/-- A table with the entries 0 and 1 in the chain 0, sent at the times given. -/
def pair (first second : ℕ) : Tcppriv where
  nlimbo := 2
  lht := ⟨fun h => if h = 0 then some 0 else none, fun p => if p = 0 then some 1 else none⟩
  entry := fun p => { lastsend := if p = 0 then first else second }
  mallocs := 2

def pairChains (h : ℕ) : List ℕ := if h = 0 then [0, 1] else []

theorem strung_pair (first second : ℕ) : Strung (pair first second) pairChains where
  chain h _ := by
    by_cases h0 : h = 0
    · subst h0
      exact ⟨rfl, rfl, rfl⟩
    · unfold pairChains
      rw [if_neg h0]
      exact if_neg h0
  nodup h _ := by
    unfold pairChains
    split <;> simp
  disjoint h _ h' _ p hp hp' := by
    unfold pairChains at hp hp'
    split_ifs at hp hp' with h0 h1
    · rw [h0, h1]
    · cases hp'
    · cases hp
    · cases hp

theorem entries_pair : entries pairChains = [0, 1] := by decide +kernel

/-- Both entries of a chain are due, and both are served. -/
theorem served_pair : Served (pair 0 0) pairChains 1000 fun _ => ⟨0, false, 1000⟩ := by
  refine (served_iff (strung_pair 0 0) ?_ (by decide) 1000 _).mpr ?_
  · rw [entries_pair]
    rfl
  · rw [entries_pair]
    refine ⟨by decide, ?_, by decide⟩
    decide

/-- The second entry of a chain is due, and is not served: the first one is visited twice. -/
theorem not_served_pair : ¬ Served (pair 1000 0) pairChains 1000 fun _ => ⟨0, false, 1000⟩ := by
  intro h
  have hvisits : limboVisits (pair 1000 0) 1000 (fun _ => ⟨0, false, 1000⟩) = [0, 0] := by
    decide +kernel
  have := h.once
  rw [hvisits] at this
  exact absurd this (by decide)

end PlanNine.TcpProto
