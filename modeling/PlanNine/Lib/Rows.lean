import PlanNine.Lib.Chain

/-!
# Chains by a key

Elements in memory are on chains, each on the chain of its own key or on none: the rows of a hash
table, or a single list of those that wait for something. Elements are taken off by a walk along a
chain, and put on in front or behind.

## Main definitions

* `Links.remove`, `Links.push`, `Links.append`: the three ways of changing a chain.
* `Rows`: the chain of each key has the elements with that key, each once.

## Main results

* `Rows.remove`, `Rows.push`, `Rows.append`: what the changes do to the keys.
* `Rows.find`: what a walk along the chain of a key finds.
* `Rows.unlink`, `Rows.enter`: changes at the link where a walk has come to.
* `Rows.next`: the pointer of an element on no chain does not matter.
-/

namespace PlanNine

namespace Links

variable {η : Type*} {s : Links η} {l l' : Link η} {v v' : Option ℕ} {ps : List ℕ} {p fuel : ℕ}

/-- A chain stays when its pointers do. -/
theorem Chain.congr {s' : Links η} (h : s.Chain l ps) (hl : s'.get l = s.get l)
    (hps : ∀ p ∈ ps, s'.next p = s.next p) : s'.Chain l ps := by
  induction ps generalizing l with
  | nil => exact hl.trans h
  | cons p ps ih =>
    exact ⟨hl.trans h.1, ih h.2 (hps p List.mem_cons_self)
      fun q hq => hps q (List.mem_cons_of_mem _ hq)⟩

/-- What a link points to is on the chain from there. -/
theorem Chain.mem_of_get (h : s.Chain l ps) (hp : s.get l = some p) : p ∈ ps := by
  cases ps with
  | nil => cases hp.symm.trans h
  | cons q qs =>
    obtain rfl := Option.some.inj (hp.symm.trans h.1)
    exact List.mem_cons_self

/-- A link that is none of a chain is not its last one. -/
theorem ne_lastLink (hl : l' ≠ l) (hps : ∀ q ∈ ps, l' ≠ .next q) : l' ≠ lastLink l ps := by
  rintro rfl
  obtain heq | ⟨q, hq, heq⟩ := lastLink_mem l ps
  · exact hl heq
  · exact hps q hq heq

variable [DecidableEq η]

/-- Look for an element along a chain, and take it out. -/
def remove (s : Links η) (fuel : ℕ) (l : Link η) (p : ℕ) : Option (Links η) :=
  (s.walk (fun q => q = p) fuel l).map fun l => if s.get l = none then s else s.set l (s.next p)

/-- Put an element in front. -/
def push (s : Links η) (l : Link η) (p : ℕ) : Links η :=
  (s.set (.next p) (s.get l)).set l (some p)

/-- Go to the end of a chain, and put an element there. -/
def append (s : Links η) (fuel : ℕ) (l : Link η) (p : ℕ) : Option (Links η) :=
  (s.walk (fun _ => false) fuel l).map fun l => (s.set l (some p)).set (.next p) none

theorem set_comm (h : l ≠ l') : (s.set l v).set l' v' = (s.set l' v').set l v := by
  cases l <;> cases l' <;> simp only [set]
  · rw [Function.update_comm fun heq => h (congrArg _ heq.symm)]
  · rw [Function.update_comm fun heq => h (congrArg _ heq.symm)]

/-- The chain without the element, and all else as it was. -/
theorem remove_spec (h : s.Chain l ps) (hnodup : ps.Nodup) (hl : ∀ q ∈ ps, l ≠ .next q)
    (hfuel : ps.length < fuel) (p : ℕ) : ∃ s', s.remove fuel l p = some s' ∧
      s'.Chain l (ps.erase p) ∧
      ∀ l', l' ≠ l → (∀ q ∈ ps, l' ≠ .next q) → s'.get l' = s.get l' := by
  unfold remove
  rw [walk_eq h _ hfuel, Option.map_some]
  refine ⟨_, rfl, ?_⟩
  by_cases hp : p ∈ ps
  · obtain ⟨pre, post, hpre, rfl, herase⟩ := List.exists_erase_eq hp
    have hwalk : (pre ++ p :: post).takeWhile (fun q => !decide (q = p)) = pre := by
      rw [List.takeWhile_append_of_pos, List.takeWhile_cons_of_neg, List.append_nil]
      · simp
      · intro q hq
        have hne : q ≠ p := fun heq => hpre (heq ▸ hq)
        simpa using hne
    have hget : s.get (lastLink l pre) = some p := h.drop.1
    rw [hwalk, hget, if_neg (by simp), herase]
    refine ⟨chain_unlink h hnodup hl, fun l' hl' hps => get_set_of_ne (ne_lastLink hl' ?_)⟩
    exact fun q hq => hps q (List.mem_append_left _ hq)
  · have hwalk : ps.takeWhile (fun q => !decide (q = p)) = ps := by
      rw [List.takeWhile_eq_self_iff]
      intro q hq
      have hne : q ≠ p := fun heq => hp (heq ▸ hq)
      simpa using hne
    have hget : s.get (lastLink l ps) = none := by
      have hend : s.Chain l (ps ++ []) := by rwa [List.append_nil]
      exact hend.drop
    rw [hwalk, hget, if_pos rfl, List.erase_of_not_mem hp]
    exact ⟨h, fun _ _ _ => rfl⟩

/-- The chain with the element in front, and all else as it was. -/
theorem push_spec (h : s.Chain l ps) (hl : ∀ q ∈ ps, l ≠ .next q) (hp : p ∉ ps)
    (hlp : l ≠ .next p) : (s.push l p).Chain l (p :: ps) ∧
      ∀ l', l' ≠ l → l' ≠ .next p → (s.push l p).get l' = s.get l' := by
  unfold push
  refine ⟨⟨get_set_self, ?_⟩, fun l' hl' hp' => ?_⟩
  · refine (chain_set_of_ne hlp fun q hq => hl q hq).mpr ?_
    cases ps with
    | nil => exact get_set_self.trans h
    | cons q qs =>
      have hne : ∀ q' ∈ q :: qs, Link.next p ≠ (.next q' : Link η) := by
        rintro q' hq' heq
        exact hp (Link.next.inj heq ▸ hq')
      exact ⟨get_set_self.trans h.1, (chain_set_of_ne (hne q List.mem_cons_self)
        fun q' hq' => hne q' (List.mem_cons_of_mem _ hq')).mpr h.2⟩
  · rw [get_set_of_ne hl', get_set_of_ne hp']

/-- The element comes behind the first ones of a chain. -/
theorem push_lastLink {qs : List ℕ} (h : s.Chain l (ps ++ qs)) (hnodup : (ps ++ qs).Nodup)
    (hl : ∀ q ∈ ps ++ qs, l ≠ .next q) (hp : p ∉ ps ++ qs) (hlp : l ≠ .next p) :
    (s.push (lastLink l ps) p).Chain l (ps ++ p :: qs) := by
  obtain ⟨hps, -, hdisj⟩ := List.nodup_append.mp hnodup
  have hpps : ∀ q ∈ ps, q ≠ p := fun q hq heq => hp (List.mem_append_left _ (heq ▸ hq))
  have hne : ∀ q, l ≠ .next q → (∀ r ∈ ps, r ≠ q) → lastLink l ps ≠ .next q := fun q hlq hq =>
    (ne_lastLink hlq.symm fun r hr heq => hq r hr (Link.next.inj heq).symm).symm
  have hpush := push_spec h.drop (fun q hq => hne q (hl q (List.mem_append_right _ hq))
    fun r hr => hdisj r hr q hq) (fun hq => hp (List.mem_append_right _ hq)) (hne p hlp hpps)
  have hset : (s.set (.next p) (s.get (lastLink l ps))).Chain l (ps ++ qs) :=
    (chain_set_of_ne hlp.symm fun q hq heq => hp (Link.next.inj heq ▸ hq)).mpr h
  exact chain_append_set hset hps (fun q hq => hl q (List.mem_append_left _ hq)) hpush.1

/-- The chain with the element behind, and all else as it was. -/
theorem append_spec (h : s.Chain l ps) (hnodup : ps.Nodup) (hl : ∀ q ∈ ps, l ≠ .next q)
    (hp : p ∉ ps) (hlp : l ≠ .next p) (hfuel : ps.length < fuel) :
    ∃ s', s.append fuel l p = some s' ∧ s'.Chain l (ps ++ [p]) ∧
      ∀ l', l' ≠ l → l' ≠ .next p → (∀ q ∈ ps, l' ≠ .next q) → s'.get l' = s.get l' := by
  unfold append
  have hwalk : ps.takeWhile (fun _ => !false) = ps := List.takeWhile_eq_self_iff.mpr fun _ _ => rfl
  rw [walk_eq h _ hfuel, Option.map_some, hwalk]
  have hne : Link.next p ≠ lastLink l ps :=
    ne_lastLink hlp.symm fun q hq heq => hp (Link.next.inj heq ▸ hq)
  refine ⟨_, rfl, ?_, fun l' hl' hp' hps => ?_⟩
  · rw [set_comm hne.symm]
    have hnil : (s.set (.next p) none).Chain l ps := (chain_set_of_ne hlp.symm
      fun q hq heq => hp (Link.next.inj heq ▸ hq)).mpr h
    exact chain_concat hnil hnodup hl hp hlp (Function.update_self _ _ _)
  · rw [get_set_of_ne hp', get_set_of_ne (ne_lastLink hl' hps)]

end Links

open Links

variable {η : Type*}

/-- The elements below `n` are on the chains of their keys, each once, and the others on none. -/
def Rows (s : Links η) (key : ℕ → Option η) (n : ℕ) : Prop :=
  ∀ h, ∃ ps, s.Chain (.root h) ps ∧ ps.Nodup ∧ ∀ p, p ∈ ps ↔ p < n ∧ key p = some h

namespace Rows

variable {s : Links η} {key : ℕ → Option η} {n fuel p : ℕ} {h : η}

theorem root_ne (h : η) (q : ℕ) : (.root h : Link η) ≠ .next q := nofun

/-- The chain of a key, and what is on it. -/
theorem unique (hr : Rows s key n) {ps : List ℕ} (hps : s.Chain (.root h) ps) :
    ps.Nodup ∧ ∀ p, p ∈ ps ↔ p < n ∧ key p = some h := by
  obtain ⟨qs, hqs, hnodup, hmem⟩ := hr h
  rw [hps.unique hqs]
  exact ⟨hnodup, hmem⟩

theorem congr {key' : ℕ → Option η} (hr : Rows s key n) (hk : ∀ p < n, key' p = key p) :
    Rows s key' n := by
  intro h
  obtain ⟨ps, hps, hnodup, hmem⟩ := hr h
  refine ⟨ps, hps, hnodup, fun p => ?_⟩
  rw [hmem p]
  constructor
  · rintro ⟨hlt, hkey⟩
    exact ⟨hlt, (hk p hlt).trans hkey⟩
  · rintro ⟨hlt, hkey⟩
    exact ⟨hlt, (hk p hlt).symm.trans hkey⟩

/-- Look for an element along the chain of a key. -/
theorem find (hr : Rows s key n) (P : ℕ → Bool) (h : η) (hfuel : n < fuel) :
    ∃ l, s.walk P fuel (.root h) = some l ∧
      ∀ p, s.get l = some p → p < n ∧ key p = some h ∧ P p := by
  obtain ⟨ps, hps, hnodup, hmem⟩ := hr h
  have hlen : ps.length < fuel := by
    have hle := length_le_of_nodup hnodup fun p hp => ((hmem p).mp hp).1
    omega
  refine ⟨_, walk_eq hps P hlen, fun p hp => ?_⟩
  rw [← List.takeWhile_append_dropWhile (p := fun p => !P p) (l := ps)] at hps
  have hdrop := hps.drop
  cases hrest : ps.dropWhile fun p => !P p with
  | nil =>
    rw [hrest] at hdrop
    cases hp.symm.trans hdrop
  | cons q rest =>
    rw [hrest] at hdrop
    obtain rfl := Option.some.inj (hp.symm.trans hdrop.1)
    have hin : p ∈ ps := List.dropWhile_subset _ (hrest ▸ List.mem_cons_self)
    have hnot := List.head?_dropWhile_not (fun p => !P p) ps
    rw [hrest] at hnot
    exact ⟨((hmem p).mp hin).1, ((hmem p).mp hin).2, by simpa using hnot⟩

variable [DecidableEq η]

/-- The pointer of an element on no chain does not matter. -/
theorem next (hr : Rows s key n) (hp : key p = none) (v : Option ℕ) :
    Rows (s.set (.next p) v) key n := by
  intro h
  obtain ⟨ps, hps, hnodup, hmem⟩ := hr h
  refine ⟨ps, (chain_set_of_ne (root_ne h p).symm fun q hq heq => ?_).mpr hps, hnodup,
    hmem⟩
  obtain rfl := Link.next.inj heq
  have hkey := ((hmem p).mp hq).2
  rw [hp] at hkey
  cases hkey

/-- An element is taken off the chain of its key. -/
theorem remove (hr : Rows s key n) (hp : key p = some h ∨ key p = none) (hfuel : n < fuel) :
    ∃ s', s.remove fuel (.root h) p = some s' ∧ Rows s' (Function.update key p none) n := by
  obtain ⟨ps, hps, hnodup, hmem⟩ := hr h
  have hlen : ps.length < fuel := by
    have hle := length_le_of_nodup hnodup fun p hp => ((hmem p).mp hp).1
    omega
  obtain ⟨s', hs', hchain, hframe⟩ := remove_spec hps hnodup (fun q _ => root_ne h q) hlen p
  refine ⟨s', hs', fun h' => ?_⟩
  by_cases hh : h' = h
  · subst hh
    refine ⟨ps.erase p, hchain, hnodup.erase p, fun q => ?_⟩
    rw [hnodup.mem_erase_iff, hmem]
    by_cases hq : q = p
    · subst hq
      rw [Function.update_self]
      exact iff_of_false (fun hc => hc.1 rfl) nofun
    · rw [Function.update_of_ne hq]
      exact and_iff_right hq
  · obtain ⟨qs, hqs, hnodup', hmem'⟩ := hr h'
    refine ⟨qs, hqs.congr (hframe _ (fun heq => hh (Link.root.inj heq)) fun _ _ => nofun) ?_,
      hnodup', fun q => ?_⟩
    · intro q hq
      refine hframe (.next q) (root_ne h q).symm fun q' hq' heq => hh ?_
      obtain rfl := Link.next.inj heq
      exact Option.some.inj (((hmem' q).mp hq).2.symm.trans ((hmem q).mp hq').2)
    · rw [hmem']
      by_cases hq : q = p
      · subst hq
        rw [Function.update_self]
        refine iff_of_false (fun hc => ?_) nofun
        obtain hkey | hkey := hp
        · exact hh (Option.some.inj (hc.2.symm.trans hkey))
        · cases hc.2.symm.trans hkey
      · rw [Function.update_of_ne hq]

/-- How a chain with one element more changes the keys. -/
theorem insert {s' : Links η} (hr : Rows s key n) (hp : key p = none) (hlt : p < n)
    {ps ps' : List ℕ} (hps : s.Chain (.root h) ps) (hps' : s'.Chain (.root h) ps')
    (hperm : ps'.Perm (p :: ps)) (hframe : ∀ l' : Link η, l' ≠ .root h → l' ≠ .next p →
      (∀ q ∈ ps, l' ≠ .next q) → s'.get l' = s.get l') :
    Rows s' (Function.update key p (some h)) n := by
  obtain ⟨hnodup, hmem⟩ := hr.unique hps
  have hnot : p ∉ ps := fun hin => by cases hp.symm.trans ((hmem p).mp hin).2
  intro h'
  by_cases hh : h' = h
  · subst hh
    refine ⟨ps', hps', hperm.nodup_iff.mpr (List.nodup_cons.mpr ⟨hnot, hnodup⟩), fun q => ?_⟩
    rw [hperm.mem_iff, List.mem_cons, hmem]
    by_cases hq : q = p
    · subst hq
      rw [Function.update_self]
      exact iff_of_true (.inl rfl) ⟨hlt, rfl⟩
    · rw [Function.update_of_ne hq]
      exact or_iff_right hq
  · obtain ⟨qs, hqs, hnodup', hmem'⟩ := hr h'
    have hpq : p ∉ qs := fun hin => by cases hp.symm.trans ((hmem' p).mp hin).2
    refine ⟨qs, hqs.congr (hframe _ (fun heq => hh (Link.root.inj heq)) nofun fun _ _ => nofun) ?_,
      hnodup', fun q => ?_⟩
    · intro q hq
      refine hframe (.next q) (root_ne h q).symm (fun heq => hpq (Link.next.inj heq ▸ hq))
        fun q' hq' heq => hh ?_
      obtain rfl := Link.next.inj heq
      exact Option.some.inj (((hmem' q).mp hq).2.symm.trans ((hmem q).mp hq').2)
    · rw [hmem']
      by_cases hq : q = p
      · subst hq
        rw [Function.update_self]
        exact iff_of_false (fun hc => by cases hp.symm.trans hc.2)
          fun hc => hh (Option.some.inj hc.2).symm
      · rw [Function.update_of_ne hq]

/-- An element on no chain is put in front of one. -/
theorem push (hr : Rows s key n) (hp : key p = none) (hlt : p < n) (h : η) :
    Rows (s.push (.root h) p) (Function.update key p (some h)) n := by
  obtain ⟨ps, hps, hnodup, hmem⟩ := hr h
  have hnot : p ∉ ps := fun hin => by cases hp.symm.trans ((hmem p).mp hin).2
  obtain ⟨hchain, hframe⟩ := push_spec hps (fun q _ => root_ne h q) hnot nofun
  exact hr.insert hp hlt hps hchain (.refl _) fun l' h1 h2 _ => hframe l' h1 h2

/-- An element on no chain is put behind one. -/
theorem append (hr : Rows s key n) (hp : key p = none) (hlt : p < n) (h : η) (hfuel : n < fuel) :
    ∃ s', s.append fuel (.root h) p = some s' ∧ Rows s' (Function.update key p (some h)) n := by
  obtain ⟨ps, hps, hnodup, hmem⟩ := hr h
  have hnot : p ∉ ps := fun hin => by cases hp.symm.trans ((hmem p).mp hin).2
  have hlen : ps.length < fuel := by
    have hle := length_le_of_nodup hnodup fun p hp => ((hmem p).mp hp).1
    omega
  obtain ⟨s', hs', hchain, hframe⟩ := append_spec hps hnodup (fun q _ => root_ne h q) hnot nofun
    hlen
  exact ⟨s', hs', hr.insert hp hlt hps hchain List.perm_append_comm hframe⟩

/-- The element that a walk finds is taken off its chain. -/
theorem unlink (hr : Rows s key n) {P : ℕ → Bool} {l : Link η} (hfuel : n < fuel)
    (hwalk : s.walk P fuel (.root h) = some l) (hp : s.get l = some p) :
    Rows (s.set l (s.next p)) (Function.update key p none) n := by
  obtain ⟨ps, hps, hnodup, hmem⟩ := hr h
  have hlen : ps.length < fuel := by
    have hle := length_le_of_nodup hnodup fun p hp => ((hmem p).mp hp).1
    omega
  rw [walk_eq hps P hlen] at hwalk
  obtain rfl := Option.some.inj hwalk
  have hsplit := List.takeWhile_append_dropWhile (p := fun p => !P p) (l := ps)
  set pre := ps.takeWhile fun p => !P p
  cases hrest : ps.dropWhile fun p => !P p with
  | nil =>
    rw [hrest] at hsplit
    rw [← hsplit] at hps
    cases hp.symm.trans hps.drop
  | cons q rest =>
    rw [hrest] at hsplit
    rw [← hsplit] at hps hnodup
    obtain rfl := Option.some.inj (hp.symm.trans hps.drop.1)
    have hpre : p ∉ pre := fun hin => (List.nodup_append.mp hnodup).2.2 p hin p
      List.mem_cons_self rfl
    have herase : pre ++ rest = ps.erase p := by
      rw [← hsplit, List.erase_append_right _ hpre, List.erase_cons_head]
    have hkey : key p = some h := ((hmem p).mp (by rw [← hsplit]; simp)).2
    obtain ⟨s', hs', hrows⟩ := hr.remove (.inl hkey) hfuel
    have hlink : s.walk (fun q => q = p) fuel (.root h) = some (lastLink (.root h) pre) := by
      rw [← hsplit] at hlen
      rw [walk_eq hps _ hlen, List.takeWhile_append_of_pos, List.takeWhile_cons_of_neg,
        List.append_nil]
      · simp
      · intro q hq
        have hne : q ≠ p := fun heq => hpre (heq ▸ hq)
        simpa using hne
    rw [Links.remove, hlink, Option.map_some, hp, if_neg (by simp)] at hs'
    rwa [Option.some.inj hs']

/-- A walk that finds no element has seen all of the chain. -/
theorem takeWhile_of_end {P : ℕ → Bool} {ps : List ℕ} (hps : s.Chain (.root h) ps)
    (hend : s.get (lastLink (.root h) (ps.takeWhile fun p => !P p)) = none) :
    ps.takeWhile (fun p => !P p) = ps := by
  have hsplit := List.takeWhile_append_dropWhile (p := fun p => !P p) (l := ps)
  cases hrest : ps.dropWhile fun p => !P p with
  | nil => rwa [hrest, List.append_nil] at hsplit
  | cons q rest =>
    rw [hrest] at hsplit
    rw [← hsplit] at hps
    cases hend.symm.trans hps.drop.1

/-- What a walk does not find is not there. -/
theorem absent (hr : Rows s key n) {P : ℕ → Bool} {l : Link η} (hfuel : n < fuel)
    (hwalk : s.walk P fuel (.root h) = some l) (hend : s.get l = none) (hlt : p < n)
    (hp : key p = some h) : P p = false := by
  obtain ⟨ps, hps, hnodup, hmem⟩ := hr h
  have hlen : ps.length < fuel := by
    have hle := length_le_of_nodup hnodup fun p hp => ((hmem p).mp hp).1
    omega
  rw [walk_eq hps P hlen] at hwalk
  obtain rfl := Option.some.inj hwalk
  have hall := List.takeWhile_eq_self_iff.mp (takeWhile_of_end hps hend) p
    ((hmem p).mpr ⟨hlt, hp⟩)
  simpa using hall

/-- An element on no chain is put where a walk that found none has come to. -/
theorem enter (hr : Rows s key n) {P : ℕ → Bool} {l : Link η} (hp : key p = none) (hlt : p < n)
    (hfuel : n < fuel) (hwalk : s.walk P fuel (.root h) = some l) (hend : s.get l = none) :
    Rows (s.push l p) (Function.update key p (some h)) n := by
  obtain ⟨ps, hps, hnodup, hmem⟩ := hr h
  have hlen : ps.length < fuel := by
    have hle := length_le_of_nodup hnodup fun p hp => ((hmem p).mp hp).1
    omega
  rw [walk_eq hps P hlen] at hwalk
  obtain rfl := Option.some.inj hwalk
  have hall := takeWhile_of_end hps hend
  rw [hall] at hend ⊢
  obtain ⟨s', hs', hrows⟩ := hr.append hp hlt h hfuel
  have hnot : p ∉ ps := fun hin => by cases hp.symm.trans ((hmem p).mp hin).2
  have hlast : Link.next p ≠ lastLink (.root h) ps :=
    ne_lastLink nofun fun q hq heq => hnot (Link.next.inj heq ▸ hq)
  have hwhole : ps.takeWhile (fun _ => !false) = ps :=
    List.takeWhile_eq_self_iff.mpr fun _ _ => rfl
  rw [Links.append, walk_eq hps _ hlen, Option.map_some, hwhole] at hs'
  rw [Links.push, hend, set_comm hlast]
  rwa [Option.some.inj hs']

end Rows

end PlanNine
