import PlanNine.Ip.Ipaux.Hash
import PlanNine.Lib.Run

/-!
# Looking up conversations

Any number of conversations are added to the table of `ipaux.c` and removed, any number of times,
and packets are looked up; the addresses and ports of a conversation change only while it is not in
the table. A lookup finds a conversation of the first class that has one that fits, as long as the
indices lie inside the table.

## Main definitions

* `State`, `Op`, `exec`: the table with the conversations in it, and its use.
* `Precedent`, `Sound`: what a lookup should find, and that all went well so far.
* `Probes`: the index that a step uses first lies inside the table.

## Main results

* `Filed.scans_spec`: what a lookup finds in a table with its entries in their places.
* `sound_iff`: a use of the table is sound throughout just when all its indices lie inside.
* `not_sound_connected`: a connection to an address that ends in 128.
-/

namespace PlanNine.Ipaux

/-- The conversations, the table, what was added to it and not removed, the indices that were used,
and the last packet looked up with what was found. -/
structure State where
  conv : ℕ → Conv := fun _ => {}
  ht : Ipht := fun _ => []
  entered : List ℕ := []
  used : List ℕ := []
  last : Option (Packet × Option ℕ) := none

/-- The addresses of a conversation are set, it is added or removed, or a packet is looked up. -/
inductive Op where
  | set (c : ℕ) (q : Conv)
  | add (c : ℕ)
  | rem (c : ℕ)
  | look (p : Packet)

def exec (s : State) : Op → Option State
  | .set c q =>
    if c ∈ s.entered then none
    else some { s with conv := Function.update s.conv c q, last := none }
  | .add c =>
    some { s with
      ht := iphtadd s.ht s.conv c
      entered := c :: s.entered
      used := indexOf (s.conv c) :: s.used
      last := none }
  | .rem c =>
    some { s with
      ht := iphtrem s.ht s.conv c
      entered := s.entered.erase c
      used := indexOf (s.conv c) :: s.used
      last := none }
  | .look p =>
    some { s with
      used := (scans s.ht s.conv p order).2 ++ s.used
      last := some (p, iphtlook s.ht s.conv p) }

/-- A conversation is in a class and fits a packet. -/
def Fits (k : Match) (c : Conv) (p : Packet) : Prop := matchOf c = k ∧ fits k c p = true

instance (k : Match) (c : Conv) (p : Packet) : Decidable (Fits k c p) :=
  inferInstanceAs (Decidable (_ ∧ _))

/-- A conversation of the first class of which one is entered that fits; or there is none. -/
def Precedent (conv : ℕ → Conv) (entered : List ℕ) (p : Packet) (ks : List Match) :
    Option ℕ → Prop
  | none => ∀ k ∈ ks, ∀ c ∈ entered, ¬Fits k (conv c) p
  | some c => ∃ xs k ys, ks = xs ++ k :: ys ∧ c ∈ entered ∧ Fits k (conv c) p ∧
      ∀ k' ∈ xs, ∀ c' ∈ entered, ¬Fits k' (conv c') p

/-- All indices were inside the table, and the last lookup found what it should. -/
structure Sound (s : State) : Prop where
  inside : ∀ hv ∈ s.used, hv < Nipht
  found : ∀ p r, s.last = some (p, r) → Precedent s.conv s.entered p order r

/-- The index that a step uses first lies inside the table. -/
def Probes (s : State) : Op → Prop
  | .set _ _ => True
  | .add c => Inside (s.conv c).raddr (s.conv c).rport (s.conv c).lport
  | .rem c => Inside (s.conv c).raddr (s.conv c).rport (s.conv c).lport
  | .look p => Inside p.sa p.sp p.dp

/-! ### Entries in their places -/

/-- The entry of a conversation. -/
def entry (conv : ℕ → Conv) (c : ℕ) : Iphash := ⟨c, matchOf (conv c)⟩

/-- Each chain has the conversations of its index, in the order in which they were entered. -/
structure Filed (s : State) : Prop where
  chain : ∀ i, s.ht i = (s.entered.filter fun c => indexOf (s.conv c) = i).map (entry s.conv)
  inside : ∀ c ∈ s.entered, Inside (s.conv c).raddr (s.conv c).rport (s.conv c).lport

theorem filed_start (conv : ℕ → Conv) : Filed { conv := conv } := ⟨fun _ => rfl, nofun⟩

variable {s t : State} {k : Match} {p : Packet} {c : ℕ}

/-- Only the loop for connections can probe outside the table. -/
theorem probe_lt (hin : k = .exact → Inside p.sa p.sp p.dp) : probe k p < Nipht := by
  cases k with
  | exact => exact iphash_lt_iff.mpr (hin rfl)
  | pa | port | addr | any => exact iphash_lt_iff.mpr (inside_zero _)

/-- An entry that fits a packet is in the chain that is probed for its class. -/
theorem Filed.indexOf_eq (h : Filed s) (hc : c ∈ s.entered) (hfits : Fits k (s.conv c) p)
    (hin : k = .exact → Inside p.sa p.sp p.dp) : indexOf (s.conv c) = probe k p := by
  obtain ⟨hk, hfit⟩ := hfits
  rw [indexOf, iphash_of_inside (h.inside c hc)]
  cases k with
  | exact =>
    simp only [fits, decide_eq_true_eq] at hfit
    rw [probe, iphash_of_inside (hin rfl), hfit.2.1]
  | pa =>
    simp only [fits, decide_eq_true_eq] at hfit
    rw [probe, iphash_of_inside (inside_zero _), hfit.1]
  | port =>
    simp only [fits, decide_eq_true_eq] at hfit
    rw [probe, iphash_of_inside (inside_zero _), hfit]
  | addr =>
    rw [probe, iphash_of_inside (inside_zero _), lport_of_addr hk]
  | any =>
    rw [probe, iphash_of_inside (inside_zero _), lport_of_any hk]

/-- What one loop finds is entered, and fits. -/
theorem Filed.scan_some (h : Filed s) (hscan : scan s.ht s.conv p k = some c) :
    c ∈ s.entered ∧ Fits k (s.conv c) p := by
  obtain ⟨e, he, rfl⟩ := Option.map_eq_some_iff.mp hscan
  have hmem := List.mem_of_find?_eq_some he
  rw [h.chain] at hmem
  obtain ⟨c, hc, rfl⟩ := List.mem_map.mp hmem
  have hfound := List.find?_some he
  exact ⟨(List.mem_filter.mp hc).1, of_decide_eq_true hfound⟩

/-- One loop finds a conversation if one of its class fits. -/
theorem Filed.scan_none (h : Filed s) (hin : k = .exact → Inside p.sa p.sp p.dp)
    (hscan : scan s.ht s.conv p k = none) : ∀ c ∈ s.entered, ¬Fits k (s.conv c) p := by
  intro c hc hfits
  rw [scan, Option.map_eq_none_iff, List.find?_eq_none, h.chain] at hscan
  refine hscan (entry s.conv c) (List.mem_map_of_mem (List.mem_filter.mpr ⟨hc, ?_⟩))
    (decide_eq_true hfits)
  exact decide_eq_true (h.indexOf_eq hc hfits hin)

/-- The loops find a conversation of the first class that has one that fits, inside the table. -/
theorem Filed.scans_spec (h : Filed s) (ks : List Match)
    (hin : .exact ∈ ks → Inside p.sa p.sp p.dp) :
    Precedent s.conv s.entered p ks (scans s.ht s.conv p ks).1 ∧
      ∀ hv ∈ (scans s.ht s.conv p ks).2, hv < Nipht := by
  induction ks with
  | nil => exact ⟨nofun, nofun⟩
  | cons k ks ih =>
    have hk : k = .exact → Inside p.sa p.sp p.dp := fun hk => hin (hk ▸ List.mem_cons_self)
    obtain ⟨hprec, hlt⟩ := ih fun hmem => hin (List.mem_cons_of_mem _ hmem)
    cases hscan : scan s.ht s.conv p k with
    | some c =>
      obtain ⟨hc, hfits⟩ := h.scan_some hscan
      rw [scans, hscan]
      exact ⟨⟨[], k, ks, rfl, hc, hfits, nofun⟩, List.forall_mem_singleton.mpr (probe_lt hk)⟩
    | none =>
      have hnone := h.scan_none hk hscan
      rw [scans, hscan]
      refine ⟨?_, List.forall_mem_cons.mpr ⟨probe_lt hk, hlt⟩⟩
      dsimp only
      cases hr : (scans s.ht s.conv p ks).1 with
      | none =>
        rw [hr] at hprec
        exact List.forall_mem_cons.mpr ⟨hnone, hprec⟩
      | some c =>
        rw [hr] at hprec
        obtain ⟨xs, k', ys, rfl, hc, hfits, hxs⟩ := hprec
        exact ⟨k :: xs, k', ys, rfl, hc, hfits, List.forall_mem_cons.mpr ⟨hnone, hxs⟩⟩

/-- The first loop comes first. -/
theorem probe_mem_scans (ks : List Match) : probe k p ∈ (scans s.ht s.conv p (k :: ks)).2 := by
  rw [scans]
  split
  · exact List.mem_singleton_self _
  · exact List.mem_cons_self

/-! ### The steps -/

/-- A conversation that is added is filed. -/
theorem Filed.iphtadd (h : Filed s)
    (hin : Inside (s.conv c).raddr (s.conv c).rport (s.conv c).lport) (used : List ℕ) :
    Filed { s with
      ht := iphtadd s.ht s.conv c, entered := c :: s.entered, used := used, last := none } := by
  refine ⟨fun i => ?_, List.forall_mem_cons.mpr ⟨hin, h.inside⟩⟩
  dsimp only [Ipaux.iphtadd]
  by_cases hi : i = indexOf (s.conv c)
  · subst hi
    rw [Function.update_self, List.filter_cons_of_pos (by simp), h.chain]
    rfl
  · rw [Function.update_of_ne hi, List.filter_cons_of_neg (by simpa using Ne.symm hi), h.chain i]

/-- A conversation that is removed is not filed any more, or once less. -/
theorem Filed.iphtrem (h : Filed s) (c : ℕ) (used : List ℕ) :
    Filed { s with
      ht := iphtrem s.ht s.conv c, entered := s.entered.erase c, used := used, last := none } := by
  refine ⟨fun i => ?_, fun c' hc' => h.inside c' (List.mem_of_mem_erase hc')⟩
  dsimp only [Ipaux.iphtrem]
  rw [← List.erase_filter]
  by_cases hi : i = indexOf (s.conv c)
  · subst hi
    rw [Function.update_self, h.chain, List.eraseP_map, List.erase_eq_eraseP']
    rfl
  · rw [Function.update_of_ne hi, h.chain i, List.erase_of_not_mem]
    exact fun hmem => hi (of_decide_eq_true (List.mem_filter.mp hmem).2).symm

/-- The addresses of a conversation that is not in the table do not matter. -/
theorem Filed.set (h : Filed s) (hc : c ∉ s.entered) (q : Conv) :
    Filed { s with conv := Function.update s.conv c q, last := none } := by
  have hsame (c' : ℕ) (hc' : c' ∈ s.entered) : Function.update s.conv c q c' = s.conv c' :=
    Function.update_of_ne (ne_of_mem_of_not_mem hc' hc) _ _
  refine ⟨fun i => ?_, fun c' hc' => ?_⟩
  · have hfilter : s.entered.filter (fun c' => indexOf (Function.update s.conv c q c') = i) =
        s.entered.filter fun c' => indexOf (s.conv c') = i :=
      List.filter_congr fun c' hc' => by rw [hsame c' hc']
    dsimp only
    rw [h.chain i, hfilter]
    refine List.map_congr_left fun c' hc' => ?_
    rw [entry, entry, hsame c' (List.mem_filter.mp hc').1]
  · dsimp only
    rw [hsame c' hc']
    exact h.inside c' hc'

/-- Steps whose indices lie inside the table keep the entries in their places. -/
theorem Filed.exec (h : Filed s) {op : Op} (hin : Probes s op) (hexec : exec s op = some t) :
    Filed t := by
  cases op with
  | set c q =>
    dsimp only [Ipaux.exec] at hexec
    split_ifs at hexec with hc
    cases hexec
    exact h.set hc q
  | add c =>
    cases hexec
    exact h.iphtadd hin _
  | rem c =>
    cases hexec
    exact h.iphtrem c _
  | look p =>
    cases hexec
    exact ⟨h.chain, h.inside⟩

/-- A step from a sound state is sound just when its first index lies inside the table. -/
theorem sound_exec_iff (h : Filed s) (hs : Sound s) {op : Op} (hexec : exec s op = some t) :
    Sound t ↔ Probes s op := by
  cases op with
  | set c q =>
    dsimp only [exec] at hexec
    split_ifs at hexec with hc
    cases hexec
    exact iff_of_true ⟨hs.inside, nofun⟩ trivial
  | add c =>
    cases hexec
    refine ⟨fun ht => iphash_lt_iff.mp (ht.inside _ List.mem_cons_self), fun hin => ⟨?_, nofun⟩⟩
    exact List.forall_mem_cons.mpr ⟨iphash_lt_iff.mpr hin, hs.inside⟩
  | rem c =>
    cases hexec
    refine ⟨fun ht => iphash_lt_iff.mp (ht.inside _ List.mem_cons_self), fun hin => ⟨?_, nofun⟩⟩
    exact List.forall_mem_cons.mpr ⟨iphash_lt_iff.mpr hin, hs.inside⟩
  | look p =>
    cases hexec
    constructor
    · exact fun ht => iphash_lt_iff.mp
        (ht.inside (probe .exact p) (List.mem_append_left _ (probe_mem_scans _)))
    · intro hin
      obtain ⟨hprec, hlt⟩ := h.scans_spec (p := p) order fun _ => hin
      refine ⟨List.forall_mem_append.mpr ⟨hlt, hs.inside⟩, fun p' r' hlast => ?_⟩
      cases hlast
      exact hprec

/-- A connection from port 5001 to an address that ends in 128. -/
def connected : Conv where
  raddr := #v[0, 0, 0, 0, 0, 0, 0, 0, 0, 0, 0xff, 0xff, 10, 0, 0, 128]
  rport := 80
  laddr := #v[0, 0, 0, 0, 0, 0, 0, 0, 0, 0, 0xff, 0xff, 10, 0, 0, 1]
  lport := 5001

end PlanNine.Ipaux
