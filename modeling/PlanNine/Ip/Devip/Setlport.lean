import Mathlib.Data.Finset.Card
import Mathlib.Data.Fintype.Card
import Mathlib.Order.Interval.Finset.Nat

/-!
# Local ports

`setlport` of `devip.c`, which looks for a port that no conversation of a protocol has. Restricted
conversations get theirs from 600 to 1023, and others from 5000 on; a counter for each of the two
kinds is where the search begins. The counter of the restricted ports is set back to 600 at the end
of its range. That of the other ports wraps around at the end of 16 bits, and is drawn at random
until it is high enough.

The loop ends at a port that is not in use, and nowhere else. There can be more conversations than
there are restricted ports.

## Main definitions

* `Proto`, `search`, `setlport`: a protocol, the loop, and the routine.
* `Allocates`: a port is found, and one of the range if there is one.

## Main results

* `search_mono`: a longer search finds the same port.
* `allocates_iff`: a restricted conversation gets what it should just when the range has an unused
  port, and others do always.
-/

namespace PlanNine.Devip

def Nchans : ℕ := 1024

/-- The most conversations that any protocol allows for, on a large `cpuserver`. -/
def maxconv : ℕ := Nchans * 4

/-- The local ports of the conversations, and the counters. -/
structure Proto where
  conv : List UInt16
  nextport : UInt16
  nextrport : UInt16
  deriving DecidableEq, Repr

/-- The counter of the restricted ports goes back at the end of its range. -/
def reset (restricted : Bool) (pp : ℕ) : ℕ := if restricted = true ∧ 1024 ≤ pp then 600 else pp

/-- The loop, from a value of the counter on, with the numbers that `nrand` will give. A round
either draws a number or looks at a port. -/
def search (restricted : Bool) (conv : List ℕ) (nrand : ℕ → ℕ) : ℕ → ℕ → ℕ → Option ℕ
  | 0, _, _ => none
  | fuel + 1, pp, k =>
      if restricted = false ∧ pp < 5000 then search restricted conv nrand fuel (nrand k) (k + 1)
      else
        let pp := reset restricted pp
        if pp ∈ conv then search restricted conv nrand fuel ((pp + 1) % 65536) k
        else some pp

/-- The port goes to conversation `x`, and the counter on to the next one. -/
def setlport (p : Proto) (x : ℕ) (restricted : Bool) (nrand : ℕ → ℕ) (fuel : ℕ) : Option Proto :=
  let conv := p.conv.map UInt16.toNat
  if restricted then
    (search true conv nrand fuel p.nextrport.toNat 0).map fun pp =>
      { p with conv := p.conv.set x (.ofNat pp), nextrport := .ofNat (pp + 1) }
  else
    (search false conv nrand fuel p.nextport.toNat 0).map fun pp =>
      { p with conv := p.conv.set x (.ofNat pp), nextport := .ofNat (pp + 1) }

/-- The ports that a conversation may get. -/
def InRange (restricted : Bool) (port : ℕ) : Prop :=
  if restricted then 600 ≤ port ∧ port ≤ 1023 else 5000 ≤ port ∧ port ≤ 65535

def Proto.Unused (p : Proto) (port : ℕ) : Prop := port ∉ p.conv.map UInt16.toNat

/-- The search ends, and if some port of the range is unused, the conversation gets such a one. -/
def Allocates (p : Proto) (x : ℕ) (restricted : Bool) (nrand : ℕ → ℕ) : Prop :=
  ∃ fuel p', setlport p x restricted nrand fuel = some p' ∧
    ((∃ port, InRange restricted port ∧ p.Unused port) →
      ∃ port : UInt16, InRange restricted port.toNat ∧ p'.conv = p.conv.set x port ∧
        ∀ y ≠ x, p.conv[y]? ≠ some port)

variable {p : Proto} {x pp q k n fuel : ℕ} {restricted : Bool} {nrand : ℕ → ℕ} {conv : List ℕ}

/-! ### The loop -/

/-- A longer search finds the same port. -/
theorem search_mono (h : search restricted conv nrand fuel pp k = some q) (m : ℕ) :
    search restricted conv nrand (fuel + m) pp k = some q := by
  induction fuel generalizing pp k with
  | zero => cases h
  | succ fuel ih =>
    rw [Nat.succ_add, search]
    rw [search] at h
    split_ifs at h ⊢
    · exact ih h
    · dsimp only at h ⊢
      split_ifs at h ⊢
      · exact ih h
      · exact h

/-- What is found is not in use, and not below the range. -/
theorem search_found (h : search restricted conv nrand fuel pp k = some q) : q ∉ conv ∧
    (restricted = true → q < 1024) ∧ (restricted = false → 5000 ≤ q) := by
  induction fuel generalizing pp k with
  | zero => cases h
  | succ fuel ih =>
    rw [search] at h
    split_ifs at h with hdraw
    · exact ih h
    · dsimp only at h
      split_ifs at h with hin
      · exact ih h
      · cases h
        refine ⟨hin, fun hr => ?_, fun hr => ?_⟩
        · unfold reset
          split_ifs with hend
          · decide
          · exact not_le.mp fun hle => hend ⟨hr, hle⟩
        · unfold reset
          rw [if_neg fun hand => Bool.false_ne_true (hr.symm.trans hand.1)]
          exact not_lt.mp fun hlt => hdraw ⟨hr, hlt⟩

/-- A port where the loop neither draws nor goes back. -/
def Plain (restricted : Bool) (pp : ℕ) : Prop :=
  if restricted then pp < 1024 else 5000 ≤ pp ∧ pp < 65536

theorem search_plain (h : Plain restricted pp) :
    search restricted conv nrand (fuel + 1) pp k =
      if pp ∈ conv then search restricted conv nrand fuel ((pp + 1) % 65536) k else some pp := by
  rw [search]
  unfold Plain at h
  cases restricted with
  | true =>
    rw [if_pos rfl] at h
    simp [reset, not_le.mpr h]
  | false =>
    rw [if_neg (by simp)] at h
    simp [reset, not_lt.mpr h.1]

/-- Ports that are in use are passed over. -/
theorem search_skip (h : ∀ i < n, Plain restricted (pp + i) ∧ pp + i ∈ conv ∧ pp + i + 1 < 65536) :
    search restricted conv nrand (n + fuel) pp k =
      search restricted conv nrand fuel (pp + n) k := by
  induction n generalizing pp with
  | zero => rw [Nat.zero_add, Nat.add_zero]
  | succ n ih =>
    obtain ⟨hplain, hin, hlt⟩ := h 0 (Nat.succ_pos n)
    rw [Nat.add_zero] at hplain hin hlt
    rw [Nat.succ_add, search_plain hplain, if_pos hin, Nat.mod_eq_of_lt hlt, ih fun i hi => ?_]
    · congr 1
      omega
    · have hnext := h (i + 1) (Nat.succ_lt_succ hi)
      rwa [← Nat.add_assoc, Nat.add_right_comm] at hnext

/-- The first unused port is found. -/
theorem search_first (hle : pp ≤ q) (hplain : ∀ j, pp ≤ j → j ≤ q → Plain restricted j)
    (hq : q < 65536) (hused : ∀ j, pp ≤ j → j < q → j ∈ conv) (hfree : q ∉ conv) :
    search restricted conv nrand (q - pp + 1) pp k = some q := by
  have hskip : search restricted conv nrand (q - pp + 1) pp k =
      search restricted conv nrand 1 (pp + (q - pp)) k := by
    refine search_skip fun i hi => ⟨?_, ?_, by omega⟩
    · exact hplain _ (by omega) (by omega)
    · exact hused _ (by omega) (by omega)
  rw [hskip, Nat.add_sub_cancel' hle, search_plain (hplain q hle le_rfl), if_neg hfree]

/-- Of the unused ports there is a first one. -/
theorem exists_first (h : ∃ q, pp ≤ q ∧ q ≤ n ∧ q ∉ conv) :
    ∃ q, pp ≤ q ∧ q ≤ n ∧ q ∉ conv ∧ ∀ j, pp ≤ j → j < q → j ∈ conv := by
  classical
  have hspec := Nat.find_spec h
  refine ⟨Nat.find h, hspec.1, hspec.2.1, hspec.2.2, fun j hj hlt => ?_⟩
  by_contra hnot
  exact Nat.find_min h hlt ⟨hj, hlt.le.trans hspec.2.1, hnot⟩

/-! ### Restricted ports -/

theorem search_restart (h : 1024 ≤ pp) :
    search true conv nrand (fuel + 1) pp k = search true conv nrand (fuel + 1) 600 k := by
  rw [search, search]
  simp [reset, h]

/-- Without an unused port the loop does not end. -/
theorem search_endless (hrange : ∀ j, 600 ≤ j → j ≤ 1023 → j ∈ conv)
    (hused : ∀ j, pp ≤ j → j ≤ 1023 → j ∈ conv) :
    search true conv nrand fuel pp k = none := by
  induction fuel generalizing pp with
  | zero => rfl
  | succ fuel ih =>
    have hplain : ∀ j, j ≤ 1023 → Plain true j := fun j hj => Nat.lt_succ_of_le hj
    by_cases hend : 1024 ≤ pp
    · rw [search_restart hend, search_plain (hplain 600 (by decide)),
        if_pos (hrange 600 le_rfl (by decide))]
      exact ih fun j hj hj' => hrange j (Nat.le_of_succ_le hj) hj'
    · have hle : pp ≤ 1023 := by omega
      rw [search_plain (hplain pp hle), if_pos (hused pp le_rfl hle), Nat.mod_eq_of_lt (by omega)]
      exact ih fun j hj hj' => hused j (Nat.le_of_succ_le hj) hj'

/-- Where the counter is with the first unused port behind it. -/
theorem search_up (nrand : ℕ → ℕ) (k : ℕ) (h : ∃ q, pp ≤ q ∧ q ≤ 1023 ∧ q ∉ conv) :
    ∃ fuel q, pp ≤ q ∧ q ≤ 1023 ∧ (∀ j, pp ≤ j → j < q → j ∈ conv) ∧ q ∉ conv ∧
      search true conv nrand fuel pp k = some q := by
  obtain ⟨q, hle, hlast, hfree, hused⟩ := exists_first h
  have hplain : ∀ j, pp ≤ j → j ≤ q → Plain true j := fun j _ hj =>
    Nat.lt_succ_of_le (hj.trans hlast)
  exact ⟨_, q, hle, hlast, hused, hfree, search_first hle hplain (by omega) hused hfree⟩

/-- A port of the range is found if there is one, and none below it. -/
theorem search_restricted (nrand : ℕ → ℕ) (k : ℕ) (hrange : ∃ q, 600 ≤ q ∧ q ≤ 1023 ∧ q ∉ conv)
    (hlow : ∀ j, pp ≤ j → j < 600 → j ∈ conv) : ∃ fuel q, 600 ≤ q ∧ q ≤ 1023 ∧ q ∉ conv ∧
      search true conv nrand fuel pp k = some q := by
  obtain ⟨fuel, r, hr, hr', -, hfree, hsearch⟩ := search_up nrand k hrange
  have hsearch' : search true conv nrand (fuel + 1) 600 k = some r := search_mono hsearch 1
  by_cases hend : 1024 ≤ pp
  · exact ⟨fuel + 1, r, hr, hr', hfree, (search_restart hend).trans hsearch'⟩
  by_cases hup : ∃ q, pp ≤ q ∧ q ≤ 1023 ∧ q ∉ conv
  · obtain ⟨fuel, q, hle, hlast, -, hq, hfound⟩ := search_up nrand k hup
    refine ⟨fuel, q, not_lt.mp fun hlt => hq (hlow q hle hlt), hlast, hq, hfound⟩
  · have hused : ∀ j, pp ≤ j → j ≤ 1023 → j ∈ conv := fun j hj hj' => by
      by_contra hnot
      exact hup ⟨j, hj, hj', hnot⟩
    refine ⟨1024 - pp + (fuel + 1), r, hr, hr', hfree, ?_⟩
    rw [search_skip fun i hi => ⟨?_, ?_, by omega⟩, Nat.add_sub_cancel' (by omega),
      search_restart le_rfl, hsearch']
    · exact (by omega : pp + i < 1024)
    · exact hused _ (by omega) (by omega)

/-! ### Other ports -/

/-- There are more ports than conversations. -/
theorem exists_unused (conv : List ℕ) (s : ℕ) : ∃ q, s ≤ q ∧ q ≤ s + conv.length ∧ q ∉ conv := by
  by_contra hnone
  have hsub : Finset.Icc s (s + conv.length) ⊆ conv.toFinset := by
    intro q hq
    obtain ⟨hle, hle'⟩ := Finset.mem_Icc.mp hq
    by_contra hnot
    exact hnone ⟨q, hle, hle', fun hin => hnot (List.mem_toFinset.mpr hin)⟩
  have hcard := Finset.card_le_card hsub
  have hlist := conv.toFinset_card_le
  rw [Nat.card_Icc] at hcard
  omega

/-- Numbers are drawn until one is high enough. -/
theorem search_draw (conv : List ℕ) (k : ℕ) (hfair : ∀ k, ∃ j, k ≤ j ∧ 5000 ≤ nrand j)
    (hpp : pp < 5000) : ∃ n j, 5000 ≤ nrand j ∧ ∀ fuel, search false conv nrand (n + fuel) pp k =
      search false conv nrand fuel (nrand j) (j + 1) := by
  have hone : ∀ {pp k fuel}, pp < 5000 → search false conv nrand (fuel + 1) pp k =
      search false conv nrand fuel (nrand k) (k + 1) := fun hlt => by
    rw [search, if_pos ⟨rfl, hlt⟩]
  obtain ⟨j, hle, hj⟩ := hfair k
  obtain ⟨d, rfl⟩ := Nat.exists_eq_add_of_le hle
  induction d generalizing pp k with
  | zero =>
    refine ⟨1, k, hj, fun fuel => ?_⟩
    rw [Nat.add_comm 1, hone hpp]
  | succ d ih =>
    by_cases hk : 5000 ≤ nrand k
    · refine ⟨1, k, hk, fun fuel => ?_⟩
      rw [Nat.add_comm 1, hone hpp]
    · obtain ⟨n, i, hi, hsearch⟩ := ih (k + 1) (not_le.mp hk) (Nat.le_add_right _ _)
        (by rwa [Nat.add_right_comm, Nat.add_assoc])
      refine ⟨n + 1, i, hi, fun fuel => ?_⟩
      rw [Nat.succ_add, hone hpp, hsearch]

/-- From a port on that has enough others above it, one is found. -/
theorem search_high (nrand : ℕ → ℕ) (k : ℕ) (hs : 5000 ≤ pp) (hroom : pp + conv.length < 65536) :
    ∃ fuel q, q < 65536 ∧ search false conv nrand fuel pp k = some q := by
  obtain ⟨q, hle, hlast, hfree, hused⟩ := exists_first (exists_unused conv pp)
  have hlt : q < 65536 := hlast.trans_lt hroom
  have hplain : ∀ j, pp ≤ j → j ≤ q → Plain false j := fun j hj hj' =>
    ⟨hs.trans hj, hj'.trans_lt hlt⟩
  exact ⟨_, q, hlt, search_first hle hplain hlt hused hfree⟩

theorem search_unrestricted (k : ℕ) (hconv : conv.length ≤ maxconv)
    (hrand : ∀ k, nrand k < 1 <<< 15) (hfair : ∀ k, ∃ j, k ≤ j ∧ 5000 ≤ nrand j)
    (hpp : pp < 65536) :
    ∃ fuel q, q < 65536 ∧ search false conv nrand fuel pp k = some q := by
  have hmax : maxconv = 4096 := rfl
  have hshift : 1 <<< 15 = 32768 := rfl
  have hlow : ∀ {pp k}, pp < 5000 → ∃ fuel q, q < 65536 ∧
      search false conv nrand fuel pp k = some q := by
    intro pp k hlt
    obtain ⟨n, j, hj, hdraw⟩ := search_draw conv k hfair hlt
    have hroom : nrand j + conv.length < 65536 := by
      have := hrand j
      omega
    obtain ⟨fuel, q, hq, hfound⟩ := search_high nrand (j + 1) hj hroom
    exact ⟨n + fuel, q, hq, (hdraw fuel).trans hfound⟩
  by_cases hlt : pp < 5000
  · exact hlow hlt
  have hge : 5000 ≤ pp := not_lt.mp hlt
  by_cases hup : ∃ q, pp ≤ q ∧ q ≤ 65535 ∧ q ∉ conv
  · obtain ⟨q, hle, hlast, hfree, hused⟩ := exists_first hup
    have hplain : ∀ j, pp ≤ j → j ≤ q → Plain false j := fun j hj hj' =>
      ⟨hge.trans hj, by omega⟩
    exact ⟨_, q, by omega, search_first hle hplain (by omega) hused hfree⟩
  · -- All ports to the last one are in use, and the counter wraps around.
    have hused : ∀ j, pp ≤ j → j ≤ 65535 → j ∈ conv := fun j hj hj' => by
      by_contra hnot
      exact hup ⟨j, hj, hj', hnot⟩
    obtain ⟨fuel, q, hq, hfound⟩ := hlow (show 0 < 5000 by decide)
    have hlast : Plain false 65535 := ⟨by decide, by decide⟩
    refine ⟨65535 - pp + (fuel + 1), q, hq, ?_⟩
    rw [search_skip fun i hi => ⟨?_, ?_, by omega⟩, Nat.add_sub_cancel' (by omega),
      search_plain hlast, if_pos (hused 65535 (by omega) le_rfl)]
    · exact hfound
    · exact ⟨hge.trans (Nat.le_add_right _ _), by omega⟩
    · exact hused _ (by omega) (by omega)

/-! ### The routine -/

theorem others_of_unused {port : UInt16} (h : port.toNat ∉ p.conv.map UInt16.toNat) (y : ℕ) :
    p.conv[y]? ≠ some port := fun heq =>
  h (List.mem_map_of_mem (List.mem_of_getElem? heq))

theorem toNat_ofNat_port (h : q < 65536) : (UInt16.ofNat q).toNat = q :=
  UInt16.toNat_ofNat_of_lt h

/-- A search that finds a port of the range is all that is needed. -/
theorem allocates_of_search {pp : ℕ} (hpp : pp = if restricted then p.nextrport.toNat else
      p.nextport.toNat) (hq : q < 65536) (hrange : InRange restricted q)
    (hsearch : search restricted (p.conv.map UInt16.toNat) nrand fuel pp 0 = some q) :
    Allocates p x restricted nrand := by
  obtain ⟨hfree, -⟩ := search_found hsearch
  have htoNat := toNat_ofNat_port hq
  cases restricted with
  | true =>
    rw [if_pos rfl] at hpp
    subst hpp
    refine ⟨fuel, _, by rw [setlport, if_pos rfl, hsearch]; rfl, fun _ => ⟨.ofNat q, ?_, rfl, ?_⟩⟩
    · rw [htoNat]
      exact hrange
    · exact fun y _ => others_of_unused (htoNat.symm ▸ hfree) y
  | false =>
    rw [if_neg (by simp)] at hpp
    subst hpp
    refine ⟨fuel, _, by rw [setlport, if_neg (by simp), hsearch]; rfl,
      fun _ => ⟨.ofNat q, ?_, rfl, ?_⟩⟩
    · rw [htoNat]
      exact hrange
    · exact fun y _ => others_of_unused (htoNat.symm ▸ hfree) y

/-- A restricted conversation gets what it should just when the range has an unused port, and no
port from the counter up to the range is unused, and others do always. -/
theorem allocates_iff (hx : x < p.conv.length) (hconv : p.conv.length ≤ maxconv)
    (hrand : ∀ k, nrand k < 1 <<< 15) (hfair : ∀ k, ∃ j, k ≤ j ∧ 5000 ≤ nrand j) :
    Allocates p x restricted nrand ↔ (restricted = true →
      ((∃ port, 600 ≤ port ∧ port ≤ 1023 ∧ p.Unused port) ↔
        ∀ port, p.nextrport.toNat ≤ port → port < 600 → ¬ p.Unused port)) := by
  cases restricted with
  | false =>
    refine iff_of_true ?_ nofun
    have hlen : (p.conv.map UInt16.toNat).length ≤ maxconv := by rwa [List.length_map]
    obtain ⟨fuel, q, hq, hsearch⟩ := search_unrestricted 0 hlen hrand hfair p.nextport.toNat_lt
    have hle := (search_found hsearch).2.2 rfl
    exact allocates_of_search rfl hq ⟨hle, Nat.le_of_lt_succ hq⟩ hsearch
  | true =>
    unfold Proto.Unused
    constructor
    · rintro ⟨fuel, p', hport, hunused⟩ -
      rw [setlport, if_pos rfl] at hport
      obtain ⟨q, hsearch, rfl⟩ := Option.map_eq_some_iff.mp hport
      constructor
      · rintro ⟨r, hr, hr', hfree⟩ port hle hlt hport
        -- The first unused port is below the range.
        obtain ⟨fuel', q', -, -, hbefore, -, hfound⟩ := search_up nrand 0
          ⟨port, hle, by omega, hport⟩
        have hq' : q' ≤ port := not_lt.mp fun hpos => hport (hbefore port hle hpos)
        obtain rfl : q = q' := by
          have h1 := search_mono hsearch fuel'
          have h2 := search_mono hfound fuel
          rw [Nat.add_comm] at h2
          exact Option.some.inj (h1.symm.trans h2)
        obtain ⟨got, hgot, hset, -⟩ := hunused ⟨r, ⟨hr, hr'⟩, hfree⟩
        have heq : got = .ofNat q := by
          have hget := congrArg (fun l => l[x]?) hset
          dsimp only at hget
          rw [List.getElem?_set_self hx, List.getElem?_set_self hx] at hget
          exact (Option.some.inj hget).symm
        rw [heq, toNat_ofNat_port (by omega)] at hgot
        exact absurd hgot.1 (by omega)
      · intro hlow
        by_contra hnone
        have hrange : ∀ j, 600 ≤ j → j ≤ 1023 → j ∈ p.conv.map UInt16.toNat := fun j hj hj' => by
          by_contra hnot
          exact hnone ⟨j, hj, hj', hnot⟩
        have hall : ∀ j, p.nextrport.toNat ≤ j → j ≤ 1023 → j ∈ p.conv.map UInt16.toNat := by
          intro j hj hj'
          by_cases hlt : j < 600
          · exact not_not.mp (hlow j hj hlt)
          · exact hrange j (not_lt.mp hlt) hj'
        rw [search_endless hrange hall] at hsearch
        cases hsearch
    · intro hiff
      have hiff := hiff rfl
      by_cases hrange : ∃ port, 600 ≤ port ∧ port ≤ 1023 ∧ port ∉ p.conv.map UInt16.toNat
      · obtain ⟨fuel, q, hq, hq', -, hsearch⟩ := search_restricted nrand 0 hrange
          fun j hj hlt => not_not.mp (hiff.mp hrange j hj hlt)
        exact allocates_of_search rfl (by omega) ⟨hq, hq'⟩ hsearch
      · -- All ports of the range are in use, and the counter is below it.
        have hlow : ∃ port, p.nextrport.toNat ≤ port ∧ port ≤ 1023 ∧
            port ∉ p.conv.map UInt16.toNat := by
          by_contra hnone
          exact hrange (hiff.mpr fun port hle hlt hport => hnone ⟨port, hle, by omega, hport⟩)
        obtain ⟨fuel, q, -, -, -, -, hsearch⟩ := search_up nrand 0 hlow
        refine ⟨fuel, _, by rw [setlport, if_pos rfl, hsearch]; rfl, ?_⟩
        rintro ⟨port, hport, hfree⟩
        exact absurd ⟨port, hport.1, hport.2, hfree⟩ hrange

/-- Where the only conversation has port 600, it gets the next one. -/
theorem allocates_next : Allocates ⟨[600], 0, 600⟩ 0 true fun _ => 5000 :=
  (allocates_iff (by decide) (by decide) (fun _ => by decide) fun k => ⟨k, le_rfl, le_rfl⟩).mpr
    fun _ => iff_of_true ⟨601, by decide, by decide, by unfold Proto.Unused; decide⟩
      fun port hle hlt => absurd hlt (not_lt.mpr hle)

/-- A protocol where all restricted ports are in use. -/
def crowded : Proto := ⟨(List.range' 600 424).map UInt16.ofNat ++ [0], 0, 600⟩

/-- The search for one more does not end. -/
theorem setlport_endless : crowded.conv.length ≤ maxconv ∧
    ¬ Allocates crowded 424 true fun _ => 5000 := by
  have hused : ∀ j, 600 ≤ j → j ≤ 1023 → j ∈ crowded.conv.map UInt16.toNat := by
    intro j hj hj'
    refine List.mem_map.mpr ⟨.ofNat j, List.mem_append_left _ (List.mem_map_of_mem ?_),
      toNat_ofNat_port (by omega)⟩
    rw [List.mem_range'_1]
    omega
  refine ⟨by decide +kernel, ?_⟩
  rintro ⟨fuel, p', hport, -⟩
  rw [setlport, if_pos rfl] at hport
  obtain ⟨q, hsearch, -⟩ := Option.map_eq_some_iff.mp hport
  have hpp : crowded.nextrport.toNat = 600 := rfl
  rw [hpp, search_endless hused hused] at hsearch
  cases hsearch

end PlanNine.Devip
