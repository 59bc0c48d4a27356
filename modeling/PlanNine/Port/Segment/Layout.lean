import PlanNine.Port.Segment.Attach
import PlanNine.Lib.Run

/-!
# The layout of an address space

The segments of a process should share no address and lie below the kernel, and `ibrk` should leave
a segment that reaches to the address asked for. The comparisons in the code fall short of this:
`isoverlap` and `ibrk` do not see a segment that lies wholly inside the new range, only the
beginning of a range is compared with the kernel's base, and `ibrk` leaves the top of a segment that
is to shrink where it was. For each operation that succeeds there is an exact condition on the state
before it and its arguments under which the layout is kept.

## Main definitions

* `Layout`: the segments lie apart from each other, on page bounds and below the kernel.
* `Spans`: after an `ibrk` the segment reaches from its base to the address asked for.
* `Event`, `exec`: the calls of a process.
* `Tried`, `Fits`, `Ok`: the places the search tries, and the condition on a call.

## Main results

* `layout_exec_iff`: a call that succeeds keeps the layout exactly if it meets the condition.
* `layout_of_run`: in every run of calls that meet the condition the layout is kept.
-/

namespace PlanNine.Segments

/-- The segment holds the address. -/
def Segment.Holds (s : Segment) (a : ℕ) : Prop := s.base ≤ a ∧ a < s.top

/-- The segment lies on page bounds and below the kernel. -/
structure Segment.Below (s : Segment) : Prop where
  base : s.base % BY2PG = 0
  top : s.top % BY2PG = 0
  le : s.base ≤ s.top
  kzero : s.top ≤ KZERO

/-- The segments share no address and lie below the kernel. -/
structure Layout (p : Segs) : Prop where
  below : ∀ i s, p i = some s → s.Below
  apart : ∀ i j s t, i ≠ j → p i = some s → p j = some t → ∀ a, s.Holds a → ¬ t.Holds a

/-- The calls of a process. -/
inductive Event where
  | attach (full : Bool) (attr : ℕ) (name : String) (va len : ℕ)
  | brk (full : Bool) (addr : ℕ) (seg : Fin NSEG)
  | detach (addr arg : ℕ)

def exec (physseg : List Physseg) (p : Segs) : Event → Except String (ℕ × Segs)
  | .attach full attr name va len => segattach physseg full p attr name va len
  | .brk full addr seg => ibrk full p addr seg
  | .detach addr arg => syssegdetach p addr arg

/-- After an `ibrk` to an address not below the base, the segment reaches from its base to that
address, rounded up. -/
def Spans (p q : Segs) : Event → Prop
  | .brk _ addr seg => ∀ s t, p seg = some s → q seg = some t → s.base ≤ addr →
      t.base = s.base ∧ t.top = PGROUND addr
  | _ => True

/-- The places that are tried for a segment: the caller's, or one below the stack and one below each
segment met there. -/
inductive Tried (p : Segs) (len : ℕ) : ℕ → ℕ → Prop
  | given {va : ℕ} (h : va ≠ 0) : Tried p len va va
  | stack {s : Segment} (h : p SSEG = some s) :
      Tried p len 0 ((s.base + 4294967296 - len) % 4294967296)
  | next {v : ℕ} {os : Segment} (h : Tried p len 0 v) (hov : isoverlap p v len = some os)
      (hle : len ≤ os.base) : Tried p len 0 (os.base - len)

/-- A range ends below the kernel, and no segment lies strictly inside. -/
structure Fits (p : Segs) (va len : ℕ) : Prop where
  kzero : va + len ≤ KZERO
  inside : ∀ i s, p i = some s → s.base < s.top → ¬ (va < s.base ∧ s.top < va + len)

/-- The condition on a call: the place where nothing is found to overlap fits the segment; a segment
is not made smaller, and does not grow over the kernel's base or to the end of another segment. -/
def Ok (p : Segs) : Event → Prop
  | .attach _ _ _ va len => ∀ v, Tried p (PGROUND len) va v →
      isoverlap p (v / BY2PG * BY2PG) (PGROUND len) = none →
      (va = 0 → isoverlap p v (PGROUND len) = none) → Fits p (v / BY2PG * BY2PG) (PGROUND len)
  | .brk _ addr seg => ∀ s, p seg = some s → s.base ≤ addr →
      s.top ≤ PGROUND addr ∧ PGROUND addr ≤ KZERO ∧
        ∀ i ns, i ≠ seg → p i = some ns → ns.base < ns.top → s.base < ns.top →
          PGROUND addr < ns.top
  | .detach _ _ => True

variable {p q : Segs} {va v len addr arg : ℕ} {s t ns : Segment} {i j seg : Fin NSEG}

theorem PGROUND_mod (a : ℕ) : PGROUND a % BY2PG = 0 := Nat.mul_mod_left _ _

theorem PGROUND_lt (a : ℕ) : PGROUND a < 4294967296 := by
  unfold PGROUND BY2PG
  omega

/-- The end of a page bound is itself. -/
theorem PGROUND_of_mod {a : ℕ} (h : a % BY2PG = 0) (hlt : a ≤ KZERO) : PGROUND a = a := by
  unfold BY2PG at h
  unfold KZERO at hlt
  unfold PGROUND BY2PG
  omega

/-! ### Putting one segment in place -/

/-- A layout with one segment put in is a layout exactly if the new one lies below the kernel and
shares no address with the others. -/
theorem layout_update_iff (h : ∀ i s, p i = some s → i ≠ j → s.Below)
    (hap : ∀ i k s t, i ≠ k → i ≠ j → k ≠ j → p i = some s → p k = some t →
      ∀ a, s.Holds a → ¬ t.Holds a) :
    Layout (Function.update p j (some t)) ↔
      t.Below ∧ ∀ i s, i ≠ j → p i = some s → ∀ a, s.Holds a → ¬ t.Holds a := by
  constructor
  · rintro ⟨hb, ha⟩
    refine ⟨hb j t (Function.update_self ..), fun i s hne hs => ?_⟩
    exact ha i j s t hne (by rwa [Function.update_of_ne hne]) (Function.update_self ..)
  · rintro ⟨hb, ha⟩
    refine ⟨fun i s hs => ?_, fun i k s s' hne hs hs' => ?_⟩
    · by_cases hi : i = j
      · rw [hi, Function.update_self] at hs
        cases hs
        exact hb
      · rw [Function.update_of_ne hi] at hs
        exact h i s hs hi
    · by_cases hi : i = j
      · have hk : k ≠ j := fun hk => hne (hi.trans hk.symm)
        rw [hi, Function.update_self] at hs
        rw [Function.update_of_ne hk] at hs'
        cases hs
        exact fun a hta hsa => ha k s' hk hs' a hsa hta
      · rw [Function.update_of_ne hi] at hs
        by_cases hk : k = j
        · rw [hk, Function.update_self] at hs'
          cases hs'
          exact ha i s hi hs
        · rw [Function.update_of_ne hk] at hs'
          exact hap i k s s' hne hi hk hs hs'

/-- A layout without one of its segments is a layout. -/
theorem Layout.erase (h : Layout p) (j : Fin NSEG) : Layout (Function.update p j none) := by
  have hget : ∀ i s, Function.update p j none i = some s → p i = some s := by
    intro i s hs
    by_cases hi : i = j
    · rw [hi, Function.update_self] at hs
      cases hs
    · rwa [Function.update_of_ne hi] at hs
  exact ⟨fun i s hs => h.below i s (hget i s hs),
    fun i k s t hne hs ht => h.apart i k s t hne (hget i s hs) (hget k t ht)⟩

/-! ### Attaching -/

theorem search_of_none {hlen : 0 < len} (h : isoverlap p va len = none) :
    search p len hlen va = .ok va := by
  rw [search]
  split
  · rfl
  · rename_i hsome
    rw [h] at hsome
    cases hsome

theorem search_of_some {hlen : 0 < len} {os : Segment} (h : isoverlap p va len = some os) :
    search p len hlen va =
      if os.base < len then .error Enovmem else search p len hlen (os.base - len) := by
  rw [search]
  split
  · rename_i hnone
    rw [h] at hnone
    cases hnone
  · rename_i hsome
    rw [h] at hsome
    cases hsome
    rfl

/-- The search ends at a place it tried where nothing is found to overlap. -/
theorem search_eq_ok {hlen : 0 < len} : Tried p len 0 va → search p len hlen va = .ok v →
    Tried p len 0 v ∧ isoverlap p v len = none := by
  induction va using search.induct p len hlen with
  | case1 va hnone =>
    intro ht h
    rw [search_of_none hnone] at h
    cases h
    exact ⟨ht, hnone⟩
  | case2 va os hsome hlt =>
    intro ht h
    rw [search_of_some hsome, if_pos hlt] at h
    cases h
  | case3 va os hsome hle ih =>
    intro ht h
    rw [search_of_some hsome, if_neg hle] at h
    exact ih (ht.next hsome (not_lt.mp hle)) h

/-- The search goes on as from any place it tried. -/
theorem search_tried {hlen : 0 < len} (hs : p SSEG = some s) (h : Tried p len va v) (hva : va = 0) :
    search p len hlen ((s.base + 4294967296 - len) % 4294967296) = search p len hlen v := by
  induction h with
  | given hne => exact absurd hva hne
  | stack hs' =>
    rw [hs] at hs'
    cases hs'
    rfl
  | next _ hov hle ih => rw [ih hva, search_of_some hov, if_neg (not_lt.mpr hle)]

theorem Tried.exists_stack (h : Tried p len va v) (hva : va = 0) : ∃ s, p SSEG = some s := by
  induction h with
  | given hne => exact absurd hva hne
  | stack hs => exact ⟨_, hs⟩
  | next _ _ _ ih => exact ih hva

/-- A place is found exactly if it was tried and, when searched for, nothing is found to overlap
there. -/
theorem place_eq_ok (hlen : 0 < len) : place p va len hlen = .ok v ↔
    Tried p len va v ∧ (va = 0 → isoverlap p v len = none) := by
  unfold place
  by_cases hva : va = 0
  · rw [if_pos hva]
    subst hva
    cases hs : p SSEG with
    | none =>
      refine ⟨nofun, fun ⟨ht, _⟩ => ?_⟩
      obtain ⟨ss, hss⟩ := ht.exists_stack rfl
      rw [hs] at hss
      cases hss
    | some ss =>
      refine ⟨fun h => ?_, fun ⟨ht, hnone⟩ => ?_⟩
      · obtain ⟨ht, hnone⟩ := search_eq_ok (.stack hs) h
        exact ⟨ht, fun _ => hnone⟩
      · exact (search_tried hs ht rfl).trans (search_of_none (hnone rfl))
  · rw [if_neg hva]
    refine ⟨fun h => ?_, fun ⟨ht, _⟩ => ?_⟩
    · cases h
      exact ⟨.given hva, fun h => absurd h hva⟩
    · cases ht with
      | given => rfl
      | stack => exact absurd rfl hva
      | next => exact absurd rfl hva

/-- What a successful `segattach` does. -/
theorem segattach_ok {physseg : List Physseg} {full : Bool} {attr r : ℕ} {name : String}
    (h : segattach physseg full p attr name va len = .ok (r, q)) :
    ∃ sno v type, p sno = none ∧ 0 < PGROUND len ∧ Tried p (PGROUND len) va v ∧
      (va = 0 → isoverlap p v (PGROUND len) = none) ∧ r = v / BY2PG * BY2PG ∧
      isoverlap p r (PGROUND len) = none ∧
      q = Function.update p sno (some ⟨type, r, (r + PGROUND len) % 4294967296,
        PGROUND len / BY2PG⟩) := by
  rw [segattach] at h
  split at h
  · cases h
  split at h
  · cases h
  rename_i sno hslot
  split at h
  · cases h
  rename_i hlen
  have hpos := Nat.pos_of_ne_zero hlen
  split at h
  · cases h
  rename_i v hplace
  obtain ⟨ht, hnone⟩ := (place_eq_ok _).mp hplace
  rw [attachAt] at h
  split at h
  · cases h
  rename_i hov
  split at h
  · cases h
  rename_i ps _
  split at h
  · cases h
  split at h
  · cases h
  rename_i s hnew
  cases h
  rw [newseg] at hnew
  split at hnew
  · cases hnew
  split at hnew
  · cases hnew
  cases hnew
  unfold slot at hslot
  have hfound := List.find?_some hslot
  refine ⟨sno, v, attr - (attr &&& SG_TYPE) ||| ps.attr, (of_decide_eq_true hfound).1, hpos, ht,
    hnone, rfl, by simpa using hov, ?_⟩
  rw [Nat.div_mul_cancel (Nat.dvd_of_mod_eq_zero (PGROUND_mod len))]

/-- The range that a segment is attached at fits it exactly if the segments then make a layout. -/
theorem layout_attach_iff (h : Layout p) {sno : Fin NSEG} {r : ℕ} (hfree : p sno = none)
    (hlen : 0 < len) (hmod : len % BY2PG = 0) (hlt : len < 4294967296) (hr : r % BY2PG = 0)
    (hov : isoverlap p r len = none) {type size : ℕ} :
    Layout (Function.update p sno (some ⟨type, r, (r + len) % 4294967296, size⟩)) ↔
      Fits p r len := by
  rw [isoverlap_eq_none] at hov
  rw [layout_update_iff (fun i s hs _ => h.below i s hs)
    fun i k s t hne _ _ hs ht => h.apart i k s t hne hs ht]
  constructor
  · rintro ⟨⟨-, -, hle, hk⟩, hap⟩
    dsimp only at hle hk
    have hsum : r + len < 4294967296 := by
      unfold KZERO at hk
      omega
    rw [Nat.mod_eq_of_lt hsum] at hk
    refine ⟨hk, fun i s hs hne hin => ?_⟩
    have hi : i ≠ sno := by
      rintro rfl
      rw [hfree] at hs
      cases hs
    refine hap i s hi hs s.base ⟨le_rfl, hne⟩ ⟨hin.1.le, ?_⟩
    dsimp only
    rw [Nat.mod_eq_of_lt hsum]
    omega
  · rintro ⟨hk, hin⟩
    have hsum : (r + len) % 4294967296 = r + len := by
      unfold KZERO at hk
      omega
    rw [hsum] at hov ⊢
    refine ⟨⟨hr, ?_, Nat.le_add_right _ _, hk⟩, fun i s _ hs a hsa hta => ?_⟩
    · unfold BY2PG at *
      dsimp only
      omega
    · -- what overlaps and is not seen by its ends lies strictly inside
      obtain ⟨h1, h2⟩ := hov i s hs
      have h3 := hin i s hs
      unfold Segment.Holds at hsa hta
      dsimp only at hta
      omega

/-! ### Moving the top -/

/-- What a successful `ibrk` does. -/
theorem ibrk_ok {full : Bool} {r : ℕ} (h : ibrk full p addr seg = .ok (r, q)) :
    ∃ s a, p seg = some s ∧ (s.base ≤ addr → a = addr) ∧ (addr < s.base → a = s.base) ∧
      ((q = p ∧ (addr = 0 ∨ PGROUND a < s.top)) ∨
        (s.top ≤ PGROUND a ∧
          (∀ i ns, i ≠ seg → p i = some ns → ¬ (PGROUND a ≥ ns.base ∧ PGROUND a < ns.top)) ∧
          ∃ size, q = Function.update p seg (some { s with top := PGROUND a, size }))) := by
  rw [ibrk] at h
  split at h
  · cases h
  rename_i s hs
  split at h
  · rename_i hzero
    cases h
    refine ⟨s, max addr s.base, hs, fun h => max_eq_left h, fun h => max_eq_right h.le,
      .inl ⟨rfl, .inl hzero⟩⟩
  split at h
  · cases h
  rename_i a hbrk
  have ha : (s.base ≤ addr → a = addr) ∧ (addr < s.base → a = s.base) := by
    rw [brkaddr] at hbrk
    split at hbrk
    · rename_i hle
      cases hbrk
      exact ⟨fun _ => rfl, fun hlt => absurd hle (not_le.mpr hlt)⟩
    rename_i hle
    refine ⟨fun h => absurd h hle, fun _ => ?_⟩
    split at hbrk
    · cases hbrk
    split at hbrk
    · cases hbrk
    · cases hbrk
      rfl
  refine ⟨s, a, hs, ha.1, ha.2, ?_⟩
  dsimp only at h
  split at h
  · rename_i hlt
    cases h
    exact .inl ⟨rfl, .inr hlt⟩
  rename_i htop
  split at h
  · cases h
  split at h
  · cases h
  rename_i hov
  split at h
  · cases h
  cases h
  refine .inr ⟨not_lt.mp htop, fun i ns hi hns hin => hov ⟨i, hi, ?_⟩, _, rfl⟩
  rw [hns]
  exact decide_eq_true hin

/-- A segment's top is moved up and the segments make a layout exactly if the new top is not above
the kernel's base and no segment is run over. -/
theorem layout_brk_iff (h : Layout p) (hs : p seg = some s) {a size : ℕ} (htop : s.top ≤ PGROUND a)
    (hov : ∀ i ns, i ≠ seg → p i = some ns → ¬ (PGROUND a ≥ ns.base ∧ PGROUND a < ns.top)) :
    Layout (Function.update p seg (some { s with top := PGROUND a, size })) ↔
      PGROUND a ≤ KZERO ∧ ∀ i ns, i ≠ seg → p i = some ns → ns.base < ns.top → s.base < ns.top →
        PGROUND a < ns.top := by
  have hb := h.below seg s hs
  rw [layout_update_iff (fun i s hs _ => h.below i s hs)
    fun i k s t hne _ _ hs ht => h.apart i k s t hne hs ht]
  constructor
  · rintro ⟨hbelow, hap⟩
    refine ⟨hbelow.kzero, fun i ns hi hns hne hlt => ?_⟩
    by_contra hge
    refine hap i ns hi hns (ns.top - 1) ⟨by omega, by omega⟩ ⟨?_, ?_⟩
    · dsimp only
      omega
    · dsimp only
      omega
  · rintro ⟨hk, hin⟩
    refine ⟨⟨hb.base, PGROUND_mod a, hb.le.trans htop, hk⟩, fun i ns hi hns b hnb hsb => ?_⟩
    have h1 := hov i ns hi hns
    have h2 := hin i ns hi hns
    unfold Segment.Holds at hnb hsb
    dsimp only at hsb
    omega

/-! ### Calls -/

variable {physseg : List Physseg} {r : ℕ}

/-- A successful `segattach` keeps the layout exactly if it meets the condition. -/
theorem layout_segattach_iff (h : Layout p) {full : Bool} {attr : ℕ} {name : String}
    (hex : segattach physseg full p attr name va len = .ok (r, q)) :
    Layout q ↔ Ok p (.attach full attr name va len) := by
  obtain ⟨sno, v, type, hfree, hlen, ht, hnone, hr, hov, rfl⟩ := segattach_ok hex
  have hmod : r % BY2PG = 0 := by rw [hr, Nat.mul_mod_left]
  rw [layout_attach_iff h hfree hlen (PGROUND_mod len) (PGROUND_lt len) hmod hov]
  constructor
  · intro hfits v' ht' hov' hnone'
    -- the search ends at one place only
    have h1 := (place_eq_ok hlen).mpr ⟨ht, hnone⟩
    have h2 := (place_eq_ok hlen).mpr ⟨ht', hnone'⟩
    rw [h1] at h2
    cases h2
    rwa [← hr]
  · intro hok
    rw [hr] at hov ⊢
    exact hok v ht hov hnone

/-- A successful `ibrk` keeps the layout and leaves a segment that spans what was asked for exactly
if it meets the condition. -/
theorem layout_ibrk_iff (h : Layout p) {full : Bool} (hex : ibrk full p addr seg = .ok (r, q)) :
    (Layout q ∧ Spans p q (.brk full addr seg)) ↔ Ok p (.brk full addr seg) := by
  obtain ⟨s, a, hs, hge, hlt, hcase⟩ := ibrk_ok hex
  have hb := h.below seg s hs
  by_cases hbase : s.base ≤ addr
  · obtain rfl := hge hbase
    obtain ⟨rfl, hstay⟩ | ⟨htop, hov, size, rfl⟩ := hcase
    · constructor
      · rintro ⟨-, hspan⟩ s' hs' -
        rw [hs] at hs'
        cases hs'
        obtain ⟨-, htop⟩ := hspan s s hs hs hbase
        refine ⟨htop.le, htop ▸ hb.kzero, fun i ns hi hns hne hend => ?_⟩
        rw [← htop]
        by_contra hge
        refine h.apart i seg ns s hi hns hs (ns.top - 1) ⟨by omega, by omega⟩ ⟨by omega, by omega⟩
      · intro hok
        obtain ⟨htop, -⟩ := hok s hs hbase
        refine ⟨h, fun s' t hs' ht _ => ?_⟩
        rw [hs] at hs' ht
        cases hs'
        cases ht
        refine ⟨rfl, ?_⟩
        obtain hzero | hless := hstay
        · have h1 := hb.le
          have h2 : PGROUND a = 0 := by rw [hzero]; rfl
          omega
        · omega
    · rw [layout_brk_iff h hs htop hov]
      constructor
      · rintro ⟨hcond, -⟩ s' hs' -
        rw [hs] at hs'
        cases hs'
        exact ⟨htop, hcond⟩
      · intro hok
        refine ⟨(hok s hs hbase).2, fun s' t hs' ht _ => ?_⟩
        rw [hs] at hs'
        rw [Function.update_self] at ht
        cases hs'
        cases ht
        exact ⟨rfl, rfl⟩
  · -- the top stays where it is: only an empty segment gets past the first test
    obtain rfl := hlt (not_le.mp hbase)
    have hok : Ok p (.brk full addr seg) := fun s' hs' hbase' => by
      rw [hs] at hs'
      cases hs'
      exact absurd hbase' hbase
    have hspan : Spans p q (.brk full addr seg) := fun s' t hs' _ hbase' => by
      rw [hs] at hs'
      cases hs'
      exact absurd hbase' hbase
    refine iff_of_true ⟨?_, hspan⟩ hok
    obtain ⟨rfl, -⟩ | ⟨htop, hov, size, rfl⟩ := hcase
    · exact h
    · have hk := hb.kzero
      have hround := PGROUND_of_mod hb.base (hb.le.trans hk)
      rw [hround] at htop
      have heq : s.top = s.base := le_antisymm htop hb.le
      refine (layout_brk_iff h hs (by rw [hround]; exact htop) hov).mpr ⟨?_, ?_⟩
      · rw [hround]
        exact hb.le.trans hk
      · intro i ns _ _ _ hlt
        rwa [hround]

/-- A successful `syssegdetach` takes one segment away. -/
theorem layout_syssegdetach (h : Layout p) (hex : syssegdetach p addr arg = .ok (r, q)) :
    Layout q := by
  rw [syssegdetach] at hex
  split at hex
  · cases hex
  split at hex
  · cases hex
  split at hex
  · cases hex
  cases hex
  exact h.erase _

/-- A call that succeeds keeps the layout, and spans what was asked for, exactly if it meets the
condition. -/
theorem layout_exec_iff (h : Layout p) {e : Event} (hex : exec physseg p e = .ok (r, q)) :
    (Layout q ∧ Spans p q e) ↔ Ok p e := by
  cases e with
  | attach full attr name va len =>
    exact (and_iff_left trivial).trans (layout_segattach_iff h hex)
  | brk full addr seg => exact layout_ibrk_iff h hex
  | detach addr arg => exact iff_of_true ⟨layout_syssegdetach h hex, trivial⟩ trivial

/-! ### Runs -/

/-- A successful call of a process. -/
def Step (physseg : List Physseg) (p : Segs) (e : Event) (q : Segs) : Prop :=
  ∃ r, exec physseg p e = .ok (r, q)

/-- In every run of calls that meet the condition the layout is kept, and there a further call keeps
it and spans what was asked for exactly if it meets the condition too. -/
theorem layout_of_run {p₀ : Segs} (h₀ : Layout p₀) (h : Run (Step physseg) Ok p₀ p) :
    Layout p ∧ ∀ e q, Step physseg p e q → ((Layout q ∧ Spans p q e) ↔ Ok p e) := by
  have hp : Layout p := h.invariant h₀ fun _ _ _ hi hok ⟨_, hex⟩ =>
    ((layout_exec_iff hi hex).mpr hok).1
  exact ⟨hp, fun e q ⟨_, hex⟩ => layout_exec_iff hp hex⟩

/-- The kinds of segments every kernel has. -/
def memory : List Physseg :=
  [⟨4, "shared", SEGMAPSIZE * 1048576⟩, ⟨2, "memory", SEGMAPSIZE * 1048576⟩]

/-- A process with a stack, and a page of bss at `0x3000`. -/
def stackAndBss : Segs := fun i =>
  if i = SSEG then some ⟨3, 0x7efff000, 0x7ffff000, 4096⟩
  else if i = BSEG then some ⟨2, 0x3000, 0x5000, 2⟩
  else none

theorem stackAndBss_cases (h : stackAndBss i = some s) :
    (i = SSEG ∧ s = ⟨3, 0x7efff000, 0x7ffff000, 4096⟩) ∨
      (i = BSEG ∧ s = ⟨2, 0x3000, 0x5000, 2⟩) := by
  unfold stackAndBss at h
  split at h
  · rename_i hi
    cases h
    exact .inl ⟨hi, rfl⟩
  split at h
  · rename_i hi
    cases h
    exact .inr ⟨hi, rfl⟩
  · cases h

theorem layout_stackAndBss : Layout stackAndBss := by
  refine ⟨fun i s hs => ?_, fun i j s t hne hs ht a hsa hta => ?_⟩
  · obtain ⟨-, rfl⟩ | ⟨-, rfl⟩ := stackAndBss_cases hs
    · exact ⟨by decide, by decide, by decide, by decide⟩
    · exact ⟨by decide, by decide, by decide, by decide⟩
  · unfold Segment.Holds at hsa hta
    obtain ⟨rfl, rfl⟩ | ⟨rfl, rfl⟩ := stackAndBss_cases hs <;>
      obtain ⟨rfl, rfl⟩ | ⟨rfl, rfl⟩ := stackAndBss_cases ht
    · exact hne rfl
    · dsimp only at hsa hta
      omega
    · dsimp only at hsa hta
      omega
    · exact hne rfl

/-- The bss grows by a page. -/
theorem layout_bss_grows : ∃ q, Run (Step memory) Ok stackAndBss q ∧
    q BSEG = some ⟨2, 0x3000, 0x6000, 3⟩ ∧ Layout q := by
  have hok : Ok stackAndBss (.brk false 0x5fff BSEG) := by
    rintro s hs -
    obtain ⟨hi, -⟩ | ⟨-, rfl⟩ := stackAndBss_cases hs
    · exact absurd hi (by decide)
    · refine ⟨by decide, by decide, fun i ns hi hns _ _ => ?_⟩
      obtain ⟨-, rfl⟩ | ⟨hb, -⟩ := stackAndBss_cases hns
      · decide
      · exact absurd hb hi
  have h : Run (Step memory) Ok stackAndBss _ := Run.nil.snoc hok ⟨0, rfl⟩
  exact ⟨_, h, rfl, (layout_of_run layout_stackAndBss h).1⟩

/-- A segment of four pages is attached around the two pages of the bss, and an `ibrk` that should
take one page away leaves the bss as it was. -/
theorem not_layout_stackAndBss : Layout stackAndBss ∧
    (∃ q, Step memory stackAndBss (.attach false 0 "memory" 0x2000 0x4000) q ∧ ¬ Layout q) ∧
    ∃ q, Step memory stackAndBss (.brk false 0x4000 BSEG) q ∧
      q BSEG = some ⟨2, 0x3000, 0x5000, 2⟩ := by
  refine ⟨layout_stackAndBss, ⟨_, ⟨0x2000, rfl⟩, fun h => ?_⟩, ⟨_, ⟨0, rfl⟩, rfl⟩⟩
  exact h.apart 1 BSEG ⟨2, 0x2000, 0x6000, 4⟩ ⟨2, 0x3000, 0x5000, 2⟩ (by decide) rfl rfl 0x3000
    ⟨by decide, by decide⟩ ⟨by decide, by decide⟩

end PlanNine.Segments
