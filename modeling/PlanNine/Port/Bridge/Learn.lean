import PlanNine.Lib.Run
import PlanNine.Port.Bridge.Forward

/-!
# Where a bridge sends frames

Each address in the cache is that of a port that is bound, the one on which the address was last a
source, so that frames go where they should. An address has one entry in the few places where it is
looked for, but the address of all zeros is also that of every cleared entry: when the port of an
entry in front of it is unbound, the cleared entry hides its own. In runs where no port is so
unbound frames always go where they should.

## Main definitions

* `Learnt`: what the entries of the cache say.
* `Clears`: unbinding a port clears an entry in front of that of the zero address.
* `Forwards`: the entries are true, and each frame that may come next is handed to the ports it is
  for.

## Main results

* `learnt_cacheupdate`, `learnt_cacheflushport_iff`: what learning and unbinding do to the cache.
* `ethermultiwrite_eq`: a flooded frame is handed to each port once.
* `forwards_of_run`: the bridge forwards as it should in every state reached by runs in which no
  port is unbound that has an entry in front of the zero address.
-/

namespace PlanNine.Bridge

variable {cache : ℕ → Centry} {port : ℕ → Option ℕ} {heard : Addr → Option ℕ} {d : Addr}
  {i j p pp q s n sec : ℕ} {w w' : World}

/-! ### The cache -/

theorem hash_lt (d : Addr) : hash d < CacheHash := Nat.mod_lt _ (by decide)

theorem hash_zeroaddr : hash zeroaddr = 0 := by decide

/-- The first entry with the address is found. -/
theorem cachelookupLoop_spec : match cachelookupLoop cache d n p with
    | none => ∀ i, p ≤ i → i < p + n → (cache i).d ≠ d
    | some r => p ≤ r ∧ r < p + n ∧ (cache r).d = d ∧ ∀ i, p ≤ i → i < r → (cache i).d ≠ d := by
  induction n generalizing p with
  | zero =>
    intro i hi hlt
    omega
  | succ n ih =>
    rw [cachelookupLoop]
    by_cases hd : d = (cache p).d
    · rw [if_pos hd]
      refine ⟨le_rfl, by omega, hd.symm, fun i hi hlt => ?_⟩
      omega
    · rw [if_neg hd]
      specialize ih (p := p + 1)
      have hne : ∀ i, p ≤ i → ¬ p + 1 ≤ i → (cache i).d ≠ d := by
        intro i hi hlt
        obtain rfl : i = p := by omega
        exact fun heq => hd heq.symm
      cases hr : cachelookupLoop cache d n (p + 1) with
      | none =>
        rw [hr] at ih
        intro i hi hlt
        by_cases hpi : p + 1 ≤ i
        · exact ih i hpi (by omega)
        · exact hne i hi hpi
      | some r =>
        rw [hr] at ih
        obtain ⟨h1, h2, h3, h4⟩ := ih
        refine ⟨by omega, by omega, h3, fun i hi hlt => ?_⟩
        by_cases hpi : p + 1 ≤ i
        · exact h4 i hpi hlt
        · exact hne i hi hpi

/-- The entry updated is the first one with the address; if there is none, one of those
looked at. -/
theorem cacheupdateLoop_spec (r : ℕ) (hr : cacheupdateLoop cache d n p pp sec = r) :
    (p ≤ r ∧ r < p + n ∧ (cache r).d = d ∧ ∀ i, p ≤ i → i < r → (cache i).d ≠ d) ∨
      (∀ i, p ≤ i → i < p + n → (cache i).d ≠ d) ∧ (r = pp ∨ p ≤ r ∧ r < p + n) := by
  induction n generalizing p pp sec with
  | zero => exact .inr ⟨fun i hi hlt => by omega, .inl hr.symm⟩
  | succ n ih =>
    rw [cacheupdateLoop] at hr
    by_cases hd : (cache p).d = d
    · rw [if_pos hd] at hr
      subst hr
      exact .inl ⟨le_rfl, by omega, hd, fun i hi hlt => by omega⟩
    rw [if_neg hd] at hr
    have hne : ∀ i, p ≤ i → ¬ p + 1 ≤ i → (cache i).d ≠ d := by
      intro i hi hlt
      obtain rfl : i = p := by omega
      exact hd
    have hrest : (p + 1 ≤ r ∧ r < p + 1 + n ∧ (cache r).d = d ∧
        ∀ i, p + 1 ≤ i → i < r → (cache i).d ≠ d) ∨
          (∀ i, p + 1 ≤ i → i < p + 1 + n → (cache i).d ≠ d) ∧
            (r = pp ∨ p ≤ r ∧ r < p + (n + 1)) := by
      split at hr
      · obtain h | ⟨h, hin⟩ := ih hr
        · exact .inl h
        · exact .inr ⟨h, .inr (by omega)⟩
      · obtain h | ⟨h, hin⟩ := ih hr
        · exact .inl h
        · exact .inr ⟨h, by omega⟩
    obtain ⟨h1, h2, h3, h4⟩ | ⟨h, hin⟩ := hrest
    · refine .inl ⟨by omega, by omega, h3, fun i hi hlt => ?_⟩
      by_cases hpi : p + 1 ≤ i
      · exact h4 i hpi hlt
      · exact hne i hi hpi
    · refine .inr ⟨fun i hi hlt => ?_, hin⟩
      by_cases hpi : p + 1 ≤ i
      · exact h i hpi (by omega)
      · exact hne i hi hpi

/-- What an entry in use says: its address is that of no group, is looked for there and found there
first, and was last a source on the port of the entry. -/
structure Used (cache : ℕ → Centry) (port : ℕ → Option ℕ) (heard : Addr → Option ℕ) (j : ℕ) :
    Prop where
  unicast : multicast (cache j).d = false
  ge : hash (cache j).d ≤ j
  lt : j < hash (cache j).d + CacheLook
  first : ∀ i, hash (cache j).d ≤ i → i < j → (cache i).d ≠ (cache j).d
  bound : ∃ s, port (cache j).port = some s ∧ heard (cache j).d = some s

/-- The entries in use are true, and the others are cleared. -/
structure Learnt (cache : ℕ → Centry) (port : ℕ → Option ℕ) (heard : Addr → Option ℕ) : Prop where
  used : ∀ j, (cache j).expire ≠ 0 → Used cache port heard j
  unused : ∀ j, (cache j).expire = 0 → cache j = .zero

theorem Used.lt_size (h : Used cache port heard j) : j < CacheSize := by
  have hlt := h.lt
  have hhash := hash_lt (cache j).d
  simp only [CacheSize, CacheLook] at hlt ⊢
  omega

/-- An address is looked for where its entry is. -/
theorem Learnt.lookup (h : Learnt cache port heard) (hj : (cache j).expire ≠ 0) :
    cachelookupLoop cache (cache j).d CacheLook (hash (cache j).d) = some j := by
  obtain ⟨-, hge, hlt, hfirst, -⟩ := h.used j hj
  have hspec := @cachelookupLoop_spec cache (cache j).d (hash (cache j).d) CacheLook
  cases hr : cachelookupLoop cache (cache j).d CacheLook (hash (cache j).d) with
  | none =>
    rw [hr] at hspec
    exact absurd rfl (hspec j hge hlt)
  | some r =>
    rw [hr] at hspec
    obtain ⟨h1, h2, h3, h4⟩ := hspec
    obtain hrj | rfl | hrj := lt_trichotomy r j
    · exact absurd h3 (hfirst r h1 hrj)
    · rfl
    · exact absurd rfl (h4 j hge hrj)

/-- Looking up an address gives the port of its entry, if that is not expired. -/
theorem Learnt.cachelookup_fst (h : Learnt cache port heard) (sec : ℕ) (d : Addr) :
    (∀ q, (cachelookup cache sec d).1 = some q →
      ∃ j, (cache j).d = d ∧ (cache j).port = q ∧ sec < (cache j).expire) ∧
    ((cachelookup cache sec d).1 = none → ∀ j, (cache j).d = d → (cache j).expire ≤ sec) := by
  unfold cachelookup
  have hfound : ∀ j, (cache j).d = d → ¬ (cache j).expire ≤ sec →
      multicast d = false ∧ cachelookupLoop cache d CacheLook (hash d) = some j := by
    rintro j rfl hj
    have hused : (cache j).expire ≠ 0 := by omega
    exact ⟨(h.used j hused).unicast, h.lookup hused⟩
  have hspec := @cachelookupLoop_spec cache d (hash d) CacheLook
  by_cases hm : multicast d = true
  · rw [if_pos hm]
    refine ⟨nofun, fun _ j hj => ?_⟩
    by_contra hexp
    rw [(hfound j hj hexp).1] at hm
    cases hm
  rw [if_neg hm]
  cases hr : cachelookupLoop cache d CacheLook (hash d) with
  | none =>
    refine ⟨nofun, fun _ j hj => ?_⟩
    by_contra hexp
    rw [(hfound j hj hexp).2] at hr
    cases hr
  | some r =>
    rw [hr] at hspec
    obtain ⟨-, -, hd, -⟩ := hspec
    dsimp only
    by_cases hexp : (cache r).expire ≤ sec
    · rw [if_pos hexp]
      refine ⟨nofun, fun _ j hj => ?_⟩
      by_contra hne
      obtain rfl : j = r := Option.some.inj ((hfound j hj hne).2.symm.trans hr)
      exact hne hexp
    · rw [if_neg hexp]
      refine ⟨?_, nofun⟩
      rintro q hq
      cases hq
      exact ⟨r, hd, rfl, not_le.mp hexp⟩

/-- Where only times of expiry change, from one that is set to another, the entries stay true. -/
theorem Learnt.congr {cache' : ℕ → Centry} (h : Learnt cache port heard)
    (hd : ∀ j, (cache' j).d = (cache j).d) (hp : ∀ j, (cache' j).port = (cache j).port)
    (he : ∀ j, (cache' j).expire = 0 ↔ (cache j).expire = 0) : Learnt cache' port heard := by
  refine ⟨fun j hj => ?_, fun j hj => ?_⟩
  · obtain ⟨hm, hge, hlt, hfirst, hbound⟩ := h.used j fun h0 => hj ((he j).mpr h0)
    constructor
    · rwa [hd]
    · rwa [hd]
    · rwa [hd]
    · intro i hi hij
      rw [hd] at hi ⊢
      rw [hd]
      exact hfirst i hi hij
    · rwa [hd, hp]
  · have hzero := h.unused j ((he j).mp hj)
    have h1 := hd j
    have h2 := hp j
    rw [hzero] at h1 h2
    calc cache' j = ⟨(cache' j).d, (cache' j).port, (cache' j).expire⟩ := rfl
      _ = .zero := by rw [h1, h2, hj]; rfl

theorem Learnt.cachelookup_snd (h : Learnt cache port heard) (sec : ℕ) (d : Addr) :
    Learnt (cachelookup cache sec d).2 port heard := by
  unfold cachelookup
  split
  · exact h
  split
  · exact h
  rename_i r _
  split
  · exact h
  rename_i hexp
  dsimp only
  refine h.congr (fun j => ?_) (fun j => ?_) fun j => ?_ <;> by_cases hj : j = r
  · subst hj
    rw [Function.update_self]
  · rw [Function.update_of_ne hj]
  · subst hj
    rw [Function.update_self]
  · rw [Function.update_of_ne hj]
  · subst hj
    rw [Function.update_self]
    simp only [CacheTimeout]
    omega
  · rw [Function.update_of_ne hj]

/-- Entering a source keeps the entries true. -/
theorem learnt_cacheupdate (h : Learnt cache port heard) (sec : ℕ) (d : Addr)
    (hi : port i = some s) :
    Learnt (cacheupdate cache sec d i) port (Function.update heard d (some s)) := by
  unfold cacheupdate
  by_cases hm : multicast d = true
  · -- no entry has the address of a group
    rw [if_pos hm]
    refine ⟨fun j hj => ?_, h.unused⟩
    obtain ⟨hu, hge, hlt, hfirst, s', hport, hheard⟩ := h.used j hj
    refine ⟨hu, hge, hlt, hfirst, s', hport, ?_⟩
    rw [Function.update_of_ne, hheard]
    rintro heq
    rw [heq, hm] at hu
    cases hu
  rw [if_neg hm]
  generalize hr : cacheupdateLoop cache d CacheLook (hash d) (hash d) (cache (hash d)).expire = r
  have hspec := cacheupdateLoop_spec r hr
  have hin : hash d ≤ r ∧ r < hash d + CacheLook := by
    simp only [CacheLook] at hspec ⊢
    omega
  -- the address has no other entry in use
  have hother : ∀ j, (cache j).expire ≠ 0 → (cache j).d = d → j = r := by
    rintro j hj rfl
    obtain ⟨-, hge, hlt, hfirst, -⟩ := h.used j hj
    obtain ⟨h1, h2, h3, h4⟩ | ⟨hno, -⟩ := hspec
    · obtain hrj | rfl | hrj := lt_trichotomy r j
      · exact absurd h3 (hfirst r h1 hrj)
      · rfl
      · exact absurd rfl (h4 j hge hrj)
    · exact absurd rfl (hno j hge hlt)
  have hbefore : ∀ i, hash d ≤ i → i < r → (cache i).d ≠ d := by
    obtain ⟨-, -, -, h4⟩ | ⟨hno, -⟩ := hspec
    · exact h4
    · exact fun i hi hlt => hno i hi (by omega)
  refine ⟨fun j hj => ?_, fun j hj => ?_⟩
  · by_cases hjr : j = r
    · subst hjr
      constructor <;> rw [Function.update_self]
      · exact Bool.eq_false_iff.mpr hm
      · exact hin.1
      · exact hin.2
      · intro i hi hlt
        rw [Function.update_of_ne (by omega)]
        exact hbefore i hi hlt
      · exact ⟨s, hi, Function.update_self _ _ _⟩
    · rw [Function.update_of_ne hjr] at hj
      obtain ⟨hu, hge, hlt, hfirst, s', hport, hheard⟩ := h.used j hj
      have hne : (cache j).d ≠ d := fun heq => hjr (hother j hj heq)
      constructor <;> rw [Function.update_of_ne hjr]
      · exact hu
      · exact hge
      · exact hlt
      · intro i hi hlt
        by_cases hir : i = r
        · subst hir
          rw [Function.update_self]
          exact hne.symm
        · rw [Function.update_of_ne hir]
          exact hfirst i hi hlt
      · rw [Function.update_of_ne hne]
        exact ⟨s', hport, hheard⟩
  · by_cases hjr : j = r
    · subst hjr
      rw [Function.update_self] at hj
      simp only [CacheTimeout] at hj
      omega
    · rw [Function.update_of_ne hjr] at hj ⊢
      exact h.unused j hj

/-- Unbinding the port clears an entry in front of the one that the zero address has, and not that
one. -/
def Clears (cache : ℕ → Centry) (q : ℕ) : Prop :=
  ∃ j < CacheLook, (cache j).expire ≠ 0 ∧ (cache j).d = zeroaddr ∧ (cache j).port ≠ q ∧
    ∃ i < j, (cache i).port = q

/-- Unbinding a port keeps the entries true exactly if no entry in front of that of the zero address
is cleared. -/
theorem learnt_cacheflushport_iff (h : Learnt cache port heard) (q : ℕ) :
    Learnt (cacheflushport cache q) (Function.update port q none) heard ↔ ¬ Clears cache q := by
  have hkept : ∀ {j}, (cache j).port ≠ q → cacheflushport cache q j = cache j :=
    fun hne => if_neg fun hc => hne hc.2
  have hcleared : ∀ {j}, j < CacheSize → (cache j).port = q → cacheflushport cache q j = .zero :=
    fun hlt heq => if_pos ⟨hlt, heq⟩
  constructor
  · rintro hlearnt ⟨j, hj, hexp, hd, hne, i, hij, hi⟩
    have hfirst := (hlearnt.used j (by rwa [hkept hne])).first i (by
      rw [hkept hne, hd, hash_zeroaddr]
      exact Nat.zero_le i) hij
    have hlt : i < CacheSize := by
      simp only [CacheLook] at hj
      simp only [CacheSize, CacheHash, CacheLook]
      omega
    rw [hcleared hlt hi, hkept hne, hd] at hfirst
    exact hfirst rfl
  · intro hclear
    refine ⟨fun j hj => ?_, fun j hj => ?_⟩
    · have hne : (cache j).port ≠ q ∧ (cache j).expire ≠ 0 := by
        unfold cacheflushport at hj
        split at hj
        · exact absurd rfl hj
        · rename_i hnot
          refine ⟨fun heq => hnot ⟨(h.used j hj).lt_size, heq⟩, hj⟩
      have hsame := hkept hne.1
      obtain ⟨hu, hge, hlt, hfirst, s', hport, hheard⟩ := h.used j hne.2
      constructor <;> rw [hsame]
      · exact hu
      · exact hge
      · exact hlt
      · intro i hi hij
        by_cases hq : i < CacheSize ∧ (cache i).port = q
        · rw [hcleared hq.1 hq.2]
          rintro hzero
          refine hclear ⟨j, ?_, hne.2, hzero.symm, hne.1, i, hij, hq.2⟩
          rw [← hzero] at hlt
          exact (hlt.trans_eq (by rw [Centry.zero, hash_zeroaddr, Nat.zero_add]))
        · rw [cacheflushport, if_neg hq]
          exact hfirst i hi hij
      · rw [Function.update_of_ne hne.1]
        exact ⟨s', hport, hheard⟩
    · unfold cacheflushport at hj ⊢
      split
      · rfl
      · rename_i hnot
        rw [if_neg hnot] at hj
        exact h.unused j hj

/-! ### The ports -/

/-- What the record of a port says: it is open as long as it is bound, and counts the table and its
reader. -/
structure Port.Kept (w : World) (s : ℕ) (p : Port) : Prop where
  bound : p.closed = false ↔ w.port p.id = some s
  ref : p.ref = (if p.closed then 0 else 1) + if p.reading then 1 else 0
  pos : 0 < p.ref
  lt : s < w.next

/-- The ports of a bridge. -/
structure Ports (w : World) : Prop where
  kept : ∀ s p, w.heap s = some p → p.Kept w s
  bound : ∀ i s, w.port i = some s → i < w.nport ∧ ∃ p, w.heap s = some p ∧ p.id = i

/-- The state of a bridge: its entries are true, and its ports are kept. -/
structure Inv (w : World) : Prop where
  learnt : Learnt w.cache w.port w.heard
  ports : Ports w

theorem inv_start : Inv .start :=
  ⟨⟨fun _ h => absurd rfl h, fun _ _ => rfl⟩, ⟨nofun, nofun⟩⟩

/-- What is not in the table, in the heap or in the cache does not matter. -/
theorem Inv.congr (h : Inv w) (hc : w'.cache = w.cache) (hp : w'.port = w.port)
    (hh : w'.heap = w.heap) (hd : w'.heard = w.heard) (hn : w'.next = w.next)
    (hnp : w'.nport = w.nport) : Inv w' := by
  refine ⟨by rw [hc, hp, hd]; exact h.learnt, fun s p hs => ?_, fun i s hi => ?_⟩
  · rw [hh] at hs
    obtain ⟨h1, h2, h3, h4⟩ := h.ports.kept s p hs
    exact ⟨by rw [hp]; exact h1, h2, h3, by rw [hn]; exact h4⟩
  · rw [hp] at hi
    rw [hh, hnp]
    exact h.ports.bound i s hi

/-- The port bound with an id. -/
theorem Ports.at_eq {i s : ℕ} (h : Ports w) (hi : w.port i = some s) :
    ∃ p, w.heap s = some p ∧ p.id = i ∧ p.closed = false ∧ w.at i = some p := by
  obtain ⟨-, p, hs, hid⟩ := h.bound i s hi
  refine ⟨p, hs, hid, ?_, by rw [World.at, hi]; exact hs⟩
  rw [(h.kept s p hs).bound, hid]
  exact hi

/-- The ports have nothing to do with the cache. -/
theorem Ports.setCache (h : Ports w) (cache : ℕ → Centry) : Ports { w with cache := cache } := by
  refine ⟨fun s p hs => ?_, h.bound⟩
  obtain ⟨h1, h2, h3, h4⟩ := h.kept s p hs
  exact ⟨h1, h2, h3, h4⟩

theorem deref_eq {pt : Port} (hs : w.heap s = some pt) : deref s w = (.ok pt, w) := by
  refine (Kern.bind_of_ok rfl).trans ?_
  rw [hs]
  rfl

/-- The bridge with another record of a port. -/
def World.setHeap (w : World) (s : ℕ) (x : Option Port) : World :=
  { w with heap := Function.update w.heap s x }

theorem setHeap_self (w : World) (s : ℕ) (x : Option Port) : (w.setHeap s x).heap s = x :=
  Function.update_self _ _ _

theorem setHeap_setHeap (w : World) (s : ℕ) (x y : Option Port) :
    (w.setHeap s x).setHeap s y = w.setHeap s y := by
  simp only [World.setHeap, Function.update_idem]

/-- A port without one of its references. -/
def Port.drop (p : Port) : Option Port :=
  if 0 < p.ref - 1 then some { p with ref := p.ref - 1 } else none

theorem portfree_eq {pt : Port} (hs : w.heap s = some pt) (hpos : 0 < pt.ref) :
    portfree s w = (.ok (), w.setHeap s pt.drop) := by
  rw [portfree, Kern.bind_of_ok (deref_eq hs), if_neg (by omega), Port.drop]
  split
  · rfl
  · rfl

/-- The ports are kept when one is changed to another that is. -/
theorem Ports.setHeap (h : Ports w) {x : Option Port} (hx : ∀ p, x = some p → p.Kept w s)
    (hb : ∀ i, w.port i = some s → ∃ p, x = some p ∧ p.id = i) : Ports (w.setHeap s x) := by
  refine ⟨fun s' p hs' => ?_, fun i s' hi => ?_⟩
  · by_cases hss : s' = s
    · subst hss
      rw [setHeap_self] at hs'
      obtain ⟨h1, h2, h3, h4⟩ := hx p hs'
      exact ⟨h1, h2, h3, h4⟩
    · have hother : (w.setHeap s x).heap s' = w.heap s' := Function.update_of_ne hss _ _
      rw [hother] at hs'
      obtain ⟨h1, h2, h3, h4⟩ := h.kept s' p hs'
      exact ⟨h1, h2, h3, h4⟩
  · by_cases hss : s' = s
    · subst hss
      rw [setHeap_self]
      exact ⟨(h.bound i s' hi).1, hb i hi⟩
    · have hother : (w.setHeap s x).heap s' = w.heap s' := Function.update_of_ne hss _ _
      rw [hother]
      exact h.bound i s' hi

/-- A port that loses its reader is still kept, or freed. -/
theorem readerExit_spec (h : Inv w) {pt : Port} (hs : w.heap s = some pt)
    (hr : pt.reading = true) : ∃ w', readerExit s w = (.ok (), w') ∧ Inv w' := by
  obtain ⟨h1, h2, h3, h4⟩ := h.ports.kept s pt hs
  rw [hr, if_pos rfl] at h2
  have hexit : readerExit s w = (.ok (), w.setHeap s { pt with reading := false }.drop) := by
    rw [readerExit, Kern.bind_of_ok (deref_eq hs), ← setHeap_setHeap]
    exact (Kern.bind_of_ok rfl).trans
      (portfree_eq (setHeap_self w s (some { pt with reading := false })) h3)
  refine ⟨_, hexit, h.learnt, h.ports.setHeap ?_ ?_⟩
  · intro p hp
    unfold Port.drop at hp
    split at hp
    · cases hp
      refine ⟨h1, ?_, by assumption, h4⟩
      dsimp only
      rw [h2]
      simp
    · cases hp
  · intro i hi
    obtain ⟨p, hp, hid, hopen, -⟩ := h.ports.at_eq hi
    rw [hs] at hp
    cases hp
    rw [hopen, if_neg Bool.false_ne_true] at h2
    rw [Port.drop, if_pos (show 0 < pt.ref - 1 by omega)]
    exact ⟨_, rfl, hid⟩

/-- Entries are true of a table with one more port. -/
theorem Learnt.bind (h : Learnt cache port heard) (hi : port i = none) (s : ℕ) :
    Learnt cache (Function.update port i (some s)) heard := by
  refine ⟨fun j hj => ?_, h.unused⟩
  obtain ⟨hu, hge, hlt, hfirst, s', hport, hheard⟩ := h.used j hj
  refine ⟨hu, hge, hlt, hfirst, s', ?_, hheard⟩
  rw [Function.update_of_ne, hport]
  rintro heq
  rw [heq, hi] at hport
  cases hport

theorem Ports.heap_next (h : Ports w) : w.heap w.next = none := by
  cases hs : w.heap w.next with
  | none => rfl
  | some p => exact absurd (h.kept _ _ hs).lt (lt_irrefl _)

/-- A new port that is not bound yet. -/
theorem Ports.new (h : Ports w) {i : ℕ} (hi : w.port i = none) {p : Port} (hid : p.id = i)
    (hopen : p.closed = false) (href : p.ref = 1 + if p.reading then 1 else 0) : Ports { w with
      nport := if w.nport ≤ i then i + 1 else w.nport
      port := Function.update w.port i (some w.next)
      heap := Function.update w.heap w.next (some p)
      next := w.next + 1 } := by
  have hfresh := h.heap_next
  have hne : ∀ {i' s'}, w.port i' = some s' → s' ≠ w.next := by
    rintro i' s' hi' rfl
    obtain ⟨-, p, hp, -⟩ := h.bound _ _ hi'
    rw [hfresh] at hp
    cases hp
  refine ⟨fun s' p' hs' => ?_, fun i' s' hi' => ?_⟩
  · dsimp only at hs'
    by_cases hss : s' = w.next
    · subst hss
      rw [Function.update_self] at hs'
      cases hs'
      refine ⟨⟨fun _ => ?_, fun _ => hopen⟩, ?_, ?_, Nat.lt_succ_self _⟩
      · rw [hid]
        exact Function.update_self _ _ _
      · rw [hopen, href]
        rfl
      · rw [href]
        split <;> decide
    · rw [Function.update_of_ne hss] at hs'
      obtain ⟨h1, h2, h3, h4⟩ := h.kept s' p' hs'
      refine ⟨?_, h2, h3, Nat.lt_succ_of_lt h4⟩
      dsimp only
      by_cases hii : p'.id = i
      · -- the place was free, so the other port is closed
        rw [hii, hi] at h1
        rw [hii, Function.update_self, h1]
        exact iff_of_false nofun fun heq => hss (Option.some.inj heq).symm
      · rw [Function.update_of_ne hii]
        exact h1
  · dsimp only at hi' ⊢
    by_cases hii : i' = i
    · subst hii
      rw [Function.update_self] at hi'
      cases hi'
      refine ⟨?_, p, Function.update_self _ _ _, hid⟩
      split <;> omega
    · rw [Function.update_of_ne hii] at hi'
      rw [Function.update_of_ne (hne hi')]
      obtain ⟨hlt, hp⟩ := h.bound i' s' hi'
      refine ⟨?_, hp⟩
      split <;> omega

/-- Another address for the next port. -/
theorem Ports.skip (h : Ports w) : Ports (({ w with next := w.next + 1 } : World).setHeap w.next
    none) := by
  have hfresh := h.heap_next
  refine ⟨fun s' p' hs' => ?_, fun i' s' hi' => ?_⟩
  · by_cases hss : s' = w.next
    · subst hss
      rw [setHeap_self] at hs'
      cases hs'
    · have hother : (({ w with next := w.next + 1 } : World).setHeap w.next none).heap s' =
        w.heap s' := Function.update_of_ne hss _ _
      rw [hother] at hs'
      obtain ⟨h1, h2, h3, h4⟩ := h.kept s' p' hs'
      exact ⟨h1, h2, h3, Nat.lt_succ_of_lt h4⟩
  · obtain ⟨hlt, p, hp, hid⟩ := h.bound i' s' hi'
    refine ⟨hlt, p, ?_, hid⟩
    have hss : s' ≠ w.next := by
      rintro rfl
      rw [hfresh] at hp
      cases hp
    exact (Function.update_of_ne hss _ _).trans hp

theorem wp_deref {pt : Port} {Q : Port → World → Prop} {E : Stop Crash → World → Prop}
    (hs : w.heap s = some pt) : (deref s).wp Q E w ↔ Q pt w := by
  rw [Kern.wp, deref_eq hs]

theorem wp_portfree {pt : Port} {Q : Unit → World → Prop} {E : Stop Crash → World → Prop}
    (hs : w.heap s = some pt) (hpos : 0 < pt.ref) :
    (portfree s).wp Q E w ↔ Q () (w.setHeap s pt.drop) := by
  rw [Kern.wp, portfree_eq hs hpos]

/-- Binding a port keeps the state, or fails. -/
theorem portbind_spec (h : Inv w) (type : PortType) (name : String) (ownhash : ℕ)
    (fails : Option String) : (portbind type name ownhash fails).wp (fun _ w' => Inv w')
      (fun e w' => Inv w' ∧ ∀ why, e ≠ .panic why) w := by
  unfold portbind
  simp only [Kern.wp_bind, Kern.wp_get, Kern.wp_ite, Kern.wp_error]
  split
  · exact ⟨h, by rintro _ ⟨⟩⟩
  split
  · exact ⟨h, by rintro _ ⟨⟩⟩
  rename_i i hi
  have hnone : w.port i = none := by
    simpa using List.find?_some hi
  simp only [Kern.wp_bind, Kern.wp_modify]
  cases fails with
  | some e =>
    dsimp only
    rw [Kern.wp_bind, wp_portfree (Function.update_self _ _ _) Int.one_pos, Kern.wp_error]
    refine ⟨⟨h.learnt, ?_⟩, by rintro _ ⟨⟩⟩
    have hskip := h.ports.skip
    rw [← setHeap_setHeap] at hskip
    exact hskip
  | none =>
    dsimp only
    rw [Kern.wp_bind, Kern.wp_modify, Kern.wp_bind, wp_deref (Function.update_self _ _ _)]
    simp only [setPort, Kern.wp_modify, Function.update_idem]
    exact ⟨h.learnt.bind hnone w.next, h.ports.new hnone rfl rfl rfl⟩

theorem World.find_spec {type : PortType} {name : String} {i : ℕ} (h : w.find type name = some i) :
    ∃ s, w.port i = some s := by
  have hsome := List.find?_some h
  cases hp : w.port i with
  | none =>
    rw [World.at, hp] at hsome
    cases hsome
  | some s => exact ⟨s, rfl⟩

/-- The id of the port that a control message unbinds. -/
def World.unbinds (w : World) (type : PortType) (name : String) (ownhash : ℕ) : Option ℕ :=
  (w.find type name).filter fun q =>
    ∃ p ∈ w.at q, ¬ (ownhash ≠ 0 ∧ p.ownhash ≠ 0 ∧ ownhash ≠ p.ownhash)

/-- Unbinding a port keeps the state when it does not clear an entry in front of that of the zero
address. -/
theorem portunbind_spec (h : Inv w) (type : PortType) (name : String) (ownhash : ℕ) :
    (portunbind type name ownhash).wp
      (fun _ w' => (∀ q, w.unbinds type name ownhash = some q → ¬ Clears w.cache q) → Inv w')
      (fun e w' => Inv w' ∧ ∀ why, e ≠ .panic why) w := by
  unfold portunbind
  simp only [Kern.wp_bind, Kern.wp_get]
  split
  · exact ⟨h, by rintro _ ⟨⟩⟩
  rename_i i hi
  obtain ⟨s, hs⟩ := World.find_spec hi
  obtain ⟨pt, hpt, hid, hopen, hat⟩ := h.ports.at_eq hs
  obtain ⟨h1, h2, h3, h4⟩ := h.ports.kept s pt hpt
  rw [hopen, if_neg Bool.false_ne_true] at h2
  rw [hs]
  dsimp only
  rw [Kern.wp_bind, wp_deref hpt, Kern.wp_ite]
  split
  · exact ⟨h, by rintro _ ⟨⟩⟩
  rename_i hown
  rw [Kern.wp_bind]
  simp only [setPort, Kern.wp_modify, Kern.wp_bind]
  rw [wp_portfree (Function.update_self s (some { pt with closed := true }) w.heap)
    (show 0 < ({ pt with closed := true } : Port).ref from h3)]
  intro hclear
  have hunbinds : w.unbinds type name ownhash = some i := by
    rw [World.unbinds, hi, Option.filter_some, if_pos (decide_eq_true ⟨pt, hat, hown⟩)]
  have hlearnt := (learnt_cacheflushport_iff h.learnt i).mpr (hclear i hunbinds)
  refine ⟨hlearnt, ?_⟩
  simp only [World.setHeap, Function.update_idem]
  -- the port is closed, and may be left to its reader
  refine ⟨fun s' p' hs' => ?_, fun i' s' hi' => ?_⟩
  · dsimp only at hs' ⊢
    by_cases hss : s' = s
    · subst hss
      rw [Function.update_self] at hs'
      unfold Port.drop at hs'
      split at hs'
      · cases hs'
        refine ⟨?_, ?_, by assumption, h4⟩
        · dsimp only
          rw [hid, Function.update_self]
          exact iff_of_false (by rintro ⟨⟩) (by rintro ⟨⟩)
        · dsimp only
          rw [h2]
          simp
      · cases hs'
    · rw [Function.update_of_ne hss] at hs'
      obtain ⟨k1, k2, k3, k4⟩ := h.ports.kept s' p' hs'
      refine ⟨?_, k2, k3, k4⟩
      dsimp only
      by_cases hii : p'.id = i
      · rw [hii, hs] at k1
        rw [hii, Function.update_self, k1]
        exact iff_of_false (fun heq => hss (Option.some.inj heq).symm) (by rintro ⟨⟩)
      · rw [Function.update_of_ne hii]
        exact k1
  · dsimp only at hi' ⊢
    by_cases hii : i' = i
    · subst hii
      rw [Function.update_self] at hi'
      cases hi'
    · rw [Function.update_of_ne hii] at hi'
      obtain ⟨hlt, p', hp', hid'⟩ := h.ports.bound i' s' hi'
      have hss : s' ≠ s := by
        rintro rfl
        rw [hpt] at hp'
        cases hp'
        exact hii (hid'.symm.trans hid)
      rw [Function.update_of_ne hss]
      exact ⟨hlt, p', hp', hid'⟩

/-! ### Flooding -/

/-- Whether a frame that came on the port with id `me` is for a port. -/
def World.target (w : World) (me : ℕ) (mcast bcast : Bool) (i : ℕ) : Bool :=
  i ≠ me ∧ ∃ p ∈ w.at i, ¬ (mcast ∧ ¬ bcast ∧ ¬ p.mcast)

/-- The bridge once it has handed frames to ports. -/
def World.hand (w : World) (l : List (ℕ × List UInt8)) : World :=
  { w with handed := w.handed ++ l }

variable {pt : Port} {bp : List UInt8} {fails : ℕ → Bool} {me : ℕ} {mcast bcast : Bool}

theorem hand_hand (w : World) (l l' : List (ℕ × List UInt8)) :
    (w.hand l).hand l' = w.hand (l ++ l') := by
  simp only [World.hand, List.append_assoc]

theorem hand_nil (w : World) : w.hand [] = w := by
  simp only [World.hand, List.append_nil]

theorem Ports.hand (h : Ports w) (l : List (ℕ × List UInt8)) : Ports (w.hand l) := by
  refine ⟨fun s p hs => ?_, h.bound⟩
  obtain ⟨h1, h2, h3, h4⟩ := h.kept s p hs
  exact ⟨h1, h2, h3, h4⟩

theorem etherwrite_eq (h : w.at i = some pt) (bp : List UInt8) (fails : ℕ → Bool) :
    etherwrite i bp fails w =
      (if fails i then .error (.error "write failed") else .ok (), w.hand [(i, bp)]) := by
  refine (Kern.bind_of_ok rfl).trans ?_
  rw [h]
  cases fails i with
  | false => exact (Kern.bind_of_ok rfl).trans rfl
  | true => exact (Kern.bind_of_ok rfl).trans rfl

theorem etherwriteQuiet_eq (h : w.at i = some pt) (bp : List UInt8) (fails : ℕ → Bool) :
    etherwriteQuiet i bp fails w = (.ok (), w.hand [(i, bp)]) := by
  have hw := etherwrite_eq h bp fails
  cases hf : fails i with
  | false =>
    rw [hf] at hw
    exact Kern.waserror_of_ok hw
  | true =>
    rw [hf] at hw
    exact Kern.waserror_of_error hw

theorem multiwriteLoop_cons (bp : List UInt8) (me : ℕ) (mcast bcast : Bool) (fails : ℕ → Bool)
    (i : ℕ) (is : List ℕ) (oport : Option ℕ) :
    multiwriteLoop bp me mcast bcast fails (i :: is) oport w =
      (if i = me ∨ (w.port i).isNone then multiwriteLoop bp me mcast bcast fails is oport
      else
        match w.at i with
        | none => Kern.panic .freed
        | some p =>
          if mcast ∧ ¬ bcast ∧ ¬ p.mcast then multiwriteLoop bp me mcast bcast fails is oport
          else do
            match oport with
            | none => pure ()
            | some o => etherwriteQuiet o bp fails
            multiwriteLoop bp me mcast bcast fails is (some i) : Br (Option ℕ)) w := rfl

/-- The loop hands the frame to all the ports it is for but the last one. -/
theorem multiwriteLoop_eq (h : Ports w) (bp : List UInt8) (me : ℕ) (mcast bcast : Bool)
    (fails : ℕ → Bool) (is : List ℕ) (oport : Option ℕ)
    (ho : ∀ o ∈ oport, ∃ p, w.at o = some p) : ∃ o' l,
      multiwriteLoop bp me mcast bcast fails is oport w = (.ok o', w.hand l) ∧
      (∀ o ∈ o', ∃ p, w.at o = some p) ∧
      l ++ o'.toList.map (·, bp) =
        (oport.toList ++ is.filter (w.target me mcast bcast)).map (·, bp) := by
  induction is generalizing w oport with
  | nil =>
    refine ⟨oport, [], ?_, ho, ?_⟩
    · rw [hand_nil]
      rfl
    · rw [List.filter_nil, List.append_nil, List.nil_append]
  | cons i is ih =>
    have hskip : w.target me mcast bcast i = false → ∃ o' l,
        multiwriteLoop bp me mcast bcast fails is oport w = (.ok o', w.hand l) ∧
        (∀ o ∈ o', ∃ p, w.at o = some p) ∧ l ++ o'.toList.map (·, bp) =
          (oport.toList ++ (i :: is).filter (w.target me mcast bcast)).map (·, bp) := by
      intro ht
      rw [List.filter_cons_of_neg (ht ▸ Bool.false_ne_true)]
      exact ih h oport ho
    rw [multiwriteLoop_cons]
    split
    · rename_i hme
      refine hskip (decide_eq_false ?_)
      rintro ⟨hne, p, hp, -⟩
      obtain hme | hnone := hme
      · exact hne hme
      · rw [World.at, Option.isNone_iff_eq_none.mp hnone] at hp
        cases hp
    rename_i hme
    rw [not_or] at hme
    cases hi : w.port i with
    | none =>
      rw [hi] at hme
      exact absurd rfl hme.2
    | some s =>
      obtain ⟨p, -, -, -, hat⟩ := h.at_eq hi
      rw [hat]
      dsimp only
      rw [Kern.ite_run]
      split
      · rename_i hnot
        refine hskip (decide_eq_false ?_)
        rintro ⟨-, p', hp', hwant⟩
        rw [hat] at hp'
        cases hp'
        exact hwant hnot
      · rename_i hwant
        have ht : w.target me mcast bcast i = true := decide_eq_true ⟨hme.1, p, hat, hwant⟩
        rw [List.filter_cons_of_pos ht]
        cases oport with
        | none =>
          obtain ⟨o', l, hrun, ho', hl⟩ := ih h (some i) (by
            rintro o ho
            cases ho
            exact ⟨p, hat⟩)
          exact ⟨o', l, (Kern.bind_of_ok rfl).trans hrun, ho', hl⟩
        | some o =>
          obtain ⟨po, hpo⟩ := ho o rfl
          obtain ⟨o', l, hrun, ho', hl⟩ := ih (h.hand [(o, bp)]) (some i) (by
            rintro o ho
            cases ho
            exact ⟨p, hat⟩)
          rw [hand_hand] at hrun
          refine ⟨o', _, (Kern.bind_of_ok (etherwriteQuiet_eq hpo bp fails)).trans hrun, ho', ?_⟩
          rw [List.append_assoc, hl]
          rfl

/-- The ids of the ports that a frame is for. -/
def World.targets (w : World) (me : ℕ) (mcast bcast : Bool) : List ℕ :=
  (List.range w.nport).filter (w.target me mcast bcast)

/-- A flooded frame is handed once to each port that it is for. -/
theorem ethermultiwrite_eq (h : Ports w) (bp : List UInt8) (me : ℕ) (fails : ℕ → Bool) :
    ethermultiwrite bp me fails w = (.ok (), w.hand
      ((w.targets me (multicast (bp.take Eaddrlen))
        (multicast (bp.take Eaddrlen) ∧ bp.take Eaddrlen = bcastaddr)).map (·, bp))) := by
  obtain ⟨o', l, hrun, ho', hl⟩ := multiwriteLoop_eq h bp me (multicast (bp.take Eaddrlen))
    (multicast (bp.take Eaddrlen) ∧ bp.take Eaddrlen = bcastaddr) fails (List.range w.nport) none
    nofun
  rw [Option.toList_none, List.nil_append] at hl
  rw [World.targets, ← hl]
  refine (Kern.bind_of_ok hrun).trans ?_
  cases o' with
  | none =>
    rw [Option.toList_none, List.map_nil, List.append_nil]
    rfl
  | some o =>
    obtain ⟨p, hp⟩ := ho' o rfl
    have hat : (w.hand l).at o = some p := hp
    refine (etherwriteQuiet_eq hat bp fails).trans ?_
    rw [hand_hand]
    rfl

/-! ### Frames -/

theorem mssLoop_ge {p : List UInt8} {fuel n o r : ℕ} (h : mssLoop p fuel n o = some r) : o ≤ r := by
  induction fuel generalizing n o with
  | zero => cases h
  | succ fuel ih =>
    rw [mssLoop] at h
    dsimp only at h
    split at h
    · cases h
    split at h
    · exact (Nat.le_succ o).trans (ih h)
    split at h
    · cases h
    split at h
    · cases h
      exact le_rfl
    · exact (Nat.le_add_right o _).trans (ih h)

theorem take_putshort {p : List UInt8} {i v n : ℕ} (hi : n ≤ i) (hn : n ≤ p.length) :
    (Ip.putshort p i v).take n = p.take n := by
  rw [Ip.putshort, List.append_assoc, List.take_append_of_le_length, List.take_take,
    min_eq_left hi]
  rw [List.length_take]
  exact le_min hi hn

/-- Limiting the segment size leaves the header of the frame alone. -/
theorem take_tcpmsshack (p : List UInt8) :
    (tcpmsshack p).take ETHERHDRSIZE = p.take ETHERHDRSIZE := by
  unfold tcpmsshack
  dsimp only
  split
  · rfl
  rename_i hcond
  split
  · rfl
  rename_i o ho
  split
  · rfl
  have ho := mssLoop_ge ho
  have hlen : ETHERHDRSIZE ≤ p.length := by
    simp only [not_or] at hcond
    omega
  have hput : ∀ {i j v v' : ℕ}, ETHERHDRSIZE ≤ i → ETHERHDRSIZE ≤ j →
      (Ip.putshort (Ip.putshort p i v) j v').take ETHERHDRSIZE = p.take ETHERHDRSIZE := by
    intro i j v v' hi hj
    have hone := take_putshort (v := v) hi hlen
    have hle := congrArg List.length hone
    rw [List.length_take, List.length_take, min_eq_left hlen] at hle
    rw [take_putshort hj (by omega), hone]
  exact hput (by omega) (by omega)

/-- The source and the destination of a frame. -/
def src (bp : List UInt8) : Addr := (bp.drop Eaddrlen).take Eaddrlen

def dst (bp : List UInt8) : Addr := bp.take Eaddrlen

theorem dst_sent (w : World) (bp : List UInt8) : dst (w.sent bp) = dst bp := by
  have htake : ∀ p : List UInt8, dst p = dst (p.take ETHERHDRSIZE) := by
    intro p
    rw [dst, dst, List.take_take, min_eq_left (by decide)]
  unfold World.sent
  split
  · rw [htake, take_tcpmsshack, ← htake]
  · rfl

/-- Where a frame is handed, once its source was entered. -/
def World.route (w : World) (i : ℕ) (bp : List UInt8) : List (ℕ × List UInt8) :=
  if multicast (dst bp) then
    (w.targets i true (dst bp = bcastaddr)).map (·, w.sent bp)
  else
    match (cachelookup w.cache w.sec (dst bp)).1 with
    | none => (w.targets i false false).map (·, w.sent bp)
    | some q => if q = i then [] else [(q, w.sent bp)]

theorem Inv.hand (h : Inv w) (l : List (ℕ × List UInt8)) : Inv (w.hand l) :=
  ⟨h.learnt, h.ports.hand l⟩

theorem Ports.learn (h : Ports w) (d : Addr) (i s : ℕ) : Ports (w.learn d i s) := by
  refine ⟨fun s' p hs' => ?_, h.bound⟩
  obtain ⟨h1, h2, h3, h4⟩ := h.kept s' p hs'
  exact ⟨h1, h2, h3, h4⟩

theorem Inv.learn (h : Inv w) (hi : w.port i = some s) (d : Addr) : Inv (w.learn d i s) :=
  ⟨learnt_cacheupdate h.learnt w.sec d hi, h.ports.learn d i s⟩

/-- An entry that is not expired refers to a port that is bound. -/
theorem Inv.at_of_lookup (h : Inv w) (hq : (cachelookup w.cache sec d).1 = some q) :
    ∃ p, w.at q = some p := by
  obtain ⟨j, -, rfl, hexp⟩ := (h.learnt.cachelookup_fst _ _).1 q hq
  obtain ⟨s, hs, -⟩ := (h.learnt.used j (by omega)).bound
  obtain ⟨p, -, -, -, hat⟩ := h.ports.at_eq hs
  exact ⟨p, hat⟩

/-- A frame is handed to the ports it is for, and the state is kept. -/
theorem forward_spec (h : Inv w) (hi : w.port i = some s) (hlen : ETHERMINTU ≤ bp.length)
    (fails : ℕ → Bool) : ∃ r w', forward i s bp fails w = (r, w') ∧ Inv w' ∧
      (∀ why, r ≠ .error (.panic why)) ∧
      w'.handed = w.handed ++ (w.learn (src bp) i s).route i bp := by
  have hforward : forward i s bp fails w =
      (if multicast (dst (w.sent bp)) then ethermultiwrite (w.sent bp) i fails
      else do
        let r := cachelookup (w.learn (src bp) i s).cache (w.learn (src bp) i s).sec
          (dst (w.sent bp))
        Kern.modify fun w => { w with cache := r.2 }
        match r.1 with
        | none => ethermultiwrite (w.sent bp) i fails
        | some q => if q ≠ i then etherwrite q (w.sent bp) fails else pure () : Br Unit)
      (w.learn (src bp) i s) := by
    unfold forward
    rw [if_neg (by omega)]
    rfl
  have hsent : (w.learn (src bp) i s).sent bp = w.sent bp := rfl
  have hhanded : (w.learn (src bp) i s).handed = w.handed := rfl
  have hdst := dst_sent w bp
  have hlearn := h.learn hi (src bp)
  rw [hforward, hdst, World.route, hsent, ← hhanded]
  generalize w.learn (src bp) i s = w₁ at hlearn ⊢
  generalize w.sent bp = bp' at hdst ⊢
  clear hforward hsent hhanded
  rw [Kern.ite_run]
  by_cases hm : multicast (dst bp) = true
  · have hflood := ethermultiwrite_eq hlearn.ports bp' i fails
    change ethermultiwrite bp' i fails w₁ = (.ok (), w₁.hand ((w₁.targets i (multicast (dst bp'))
      (multicast (dst bp') ∧ dst bp' = bcastaddr)).map (·, bp'))) at hflood
    rw [hdst, hm] at hflood
    simp only [true_and] at hflood
    rw [if_pos hm, if_pos hm, hflood]
    exact ⟨_, _, rfl, hlearn.hand _, nofun, rfl⟩
  rw [if_neg hm, if_neg hm]
  have hlooked : Inv { w₁ with cache := (cachelookup w₁.cache w₁.sec (dst bp)).2 } :=
    ⟨hlearn.learnt.cachelookup_snd w₁.sec (dst bp), hlearn.ports.setCache _⟩
  have hat : ∀ q, (cachelookup w₁.cache w₁.sec (dst bp)).1 = some q → ∃ p, w₁.at q = some p :=
    fun q hq => hlearn.at_of_lookup hq
  generalize cachelookup w₁.cache w₁.sec (dst bp) = r at hlooked hat ⊢
  cases hq : r.1 with
  | none =>
    have hflood := ethermultiwrite_eq hlooked.ports bp' i fails
    change ethermultiwrite bp' i fails _ =
      (.ok (), World.hand _ ((w₁.targets i (multicast (dst bp'))
      (multicast (dst bp') ∧ dst bp' = bcastaddr)).map (·, bp'))) at hflood
    rw [hdst, Bool.eq_false_iff.mpr hm] at hflood
    simp only [Bool.false_eq_true, false_and, decide_false] at hflood
    refine ⟨_, _, (Kern.bind_of_ok rfl).trans hflood, hlooked.hand _, nofun, rfl⟩
  | some q =>
    by_cases hqi : q = i
    · refine ⟨.ok (), _, (Kern.bind_of_ok rfl).trans ?_, hlooked, nofun, ?_⟩
      · dsimp only
        rw [if_neg (not_not.mpr hqi)]
        rfl
      · dsimp only
        rw [if_pos hqi, List.append_nil]
    · obtain ⟨p, hp⟩ := hat q hq
      have hpat : ({ w₁ with cache := r.2 } : World).at q = some p := hp
      have hwrite : (if q ≠ i then etherwrite q bp' fails else pure () : Br Unit) _ = _ :=
        (congrFun (if_pos hqi) _).trans (etherwrite_eq hpat bp' fails)
      refine ⟨_, _, (Kern.bind_of_ok rfl).trans hwrite, hlooked.hand _, ?_, ?_⟩
      · intro why
        split <;> nofun
      · dsimp only
        rw [if_neg hqi]
        rfl

/-! ### Runs -/

/-- An entry that is not expired. -/
def World.Entry (w : World) (d : Addr) (q : ℕ) : Prop :=
  ∃ j < CacheSize, (w.cache j).d = d ∧ (w.cache j).port = q ∧ w.sec < (w.cache j).expire

/-- A frame is handed exactly once to each port that is bound and meets `P`, but for the one where
it came, and to no other. -/
def World.Flooded (w : World) (me : ℕ) (bp : List UInt8) (P : Port → Prop)
    (l : List (ℕ × List UInt8)) : Prop :=
  (l.map Prod.fst).Nodup ∧
    ∀ x, x ∈ l ↔ x.2 = bp ∧ x.1 ≠ me ∧ ∃ p, w.at x.1 = some p ∧ P p

/-- Where a frame that came on a port should be handed. -/
structure World.Routed (w : World) (me : ℕ) (bp : List UInt8) (l : List (ℕ × List UInt8)) :
    Prop where
  known : multicast (dst bp) = false → ∀ q, w.Entry (dst bp) q →
    l = if q = me then [] else [(q, w.sent bp)]
  unknown : multicast (dst bp) = false → (∀ q, ¬ w.Entry (dst bp) q) →
    w.Flooded me (w.sent bp) (fun _ => True) l
  bcast : dst bp = bcastaddr → w.Flooded me (w.sent bp) (fun _ => True) l
  mcast : multicast (dst bp) = true → dst bp ≠ bcastaddr →
    w.Flooded me (w.sent bp) (fun p => p.mcast = true) l

/-- The entries are true, and the next frame is handed to the ports it is for. -/
structure Forwards (w : World) : Prop where
  bound : ∀ d q, w.Entry d q → ∃ s p, w.port q = some s ∧ w.heap s = some p ∧ p.id = q ∧
    p.closed = false ∧ w.heard d = some s
  frame : ∀ s p bp fails, w.heap s = some p → p.reading = true → p.closed = false →
    ETHERMINTU ≤ bp.length → ∃ w', exec (.read s (some bp) fails) w = (.ok (), w') ∧
      (w.learn (src bp) p.id s).Routed p.id bp w'.handed

theorem flooded_targets (h : Ports w) (me : ℕ) (bp : List UInt8) (mcast bcast : Bool) :
    w.Flooded me bp (fun p => ¬ (mcast ∧ ¬ bcast ∧ ¬ p.mcast))
      ((w.targets me mcast bcast).map (·, bp)) := by
  refine ⟨?_, fun x => ?_⟩
  · rw [List.map_map]
    have hid : (Prod.fst ∘ fun i => ((i, bp) : ℕ × List UInt8)) = id := rfl
    rw [hid, List.map_id]
    exact List.nodup_range.filter _
  · obtain ⟨i, b⟩ := x
    simp only [List.mem_map, World.targets, List.mem_filter, List.mem_range, World.target,
      decide_eq_true_eq, Prod.mk.injEq]
    constructor
    · rintro ⟨i', ⟨-, hne, p, hp, hwant⟩, rfl, rfl⟩
      exact ⟨rfl, hne, p, hp, hwant⟩
    · rintro ⟨rfl, hne, p, hp, hwant⟩
      refine ⟨i, ⟨?_, hne, p, hp, hwant⟩, rfl, rfl⟩
      cases hi : w.port i with
      | none =>
        rw [World.at, hi] at hp
        cases hp
      | some s => exact (h.bound i s hi).1

/-- What is looked up are the entries that are not expired. -/
theorem Inv.lookup_iff (h : Inv w) {d : Addr} {q : ℕ} :
    (cachelookup w.cache w.sec d).1 = some q ↔ w.Entry d q := by
  obtain ⟨hsome, hnone⟩ := h.learnt.cachelookup_fst w.sec d
  constructor
  · intro hq
    obtain ⟨j, hd, hport, hexp⟩ := hsome q hq
    exact ⟨j, (h.learnt.used j (by omega)).lt_size, hd, hport, hexp⟩
  · rintro ⟨j, -, rfl, rfl, hexp⟩
    cases hq : (cachelookup w.cache w.sec (w.cache j).d).1 with
    | none => exact absurd hexp (not_lt.mpr (hnone hq j rfl))
    | some q =>
      obtain ⟨j', hd, rfl, hexp'⟩ := hsome q hq
      have hj := h.learnt.lookup (j := j) (by omega)
      have hj' := h.learnt.lookup (j := j') (by omega)
      rw [hd, hj] at hj'
      cases hj'
      rfl

theorem World.Flooded.congr {l : List (ℕ × List UInt8)} {P Q : Port → Prop}
    (h : w.Flooded me bp P l) (hPQ : ∀ p, P p ↔ Q p) : w.Flooded me bp Q l := by
  refine ⟨h.1, fun x => ?_⟩
  rw [h.2 x]
  simp only [hPQ]

/-- A frame goes where it should. -/
theorem Inv.routed (h : Inv w) (i : ℕ) (bp : List UInt8) : w.Routed i bp (w.route i bp) := by
  unfold World.route
  refine ⟨fun hm q hq => ?_, fun hm hno => ?_, fun hb => ?_, fun hm hne => ?_⟩
  · rw [hm, if_neg Bool.false_ne_true, h.lookup_iff.mpr hq]
  · have hnone : (cachelookup w.cache w.sec (dst bp)).1 = none := by
      cases hq : (cachelookup w.cache w.sec (dst bp)).1 with
      | none => rfl
      | some q => exact absurd (h.lookup_iff.mp hq) (hno q)
    rw [hm, if_neg Bool.false_ne_true, hnone]
    exact (flooded_targets h.ports i _ false false).congr fun p => by simp
  · have hm : multicast bcastaddr = true := by decide
    rw [hb, if_pos hm]
    exact (flooded_targets h.ports i _ true (bcastaddr = bcastaddr)).congr fun p => by simp
  · rw [if_pos hm]
    exact (flooded_targets h.ports i _ true (dst bp = bcastaddr)).congr fun p => by simp [hne]

theorem Inv.forwards (h : Inv w) : Forwards w := by
  refine ⟨fun d q hq => ?_, fun s p bp fails hs hr hopen hlen => ?_⟩
  · obtain ⟨j, -, rfl, rfl, hexp⟩ := hq
    obtain ⟨s, hs, hheard⟩ := (h.learnt.used j (by omega)).bound
    obtain ⟨p, hp, hid, hopen, -⟩ := h.ports.at_eq hs
    exact ⟨s, p, hs, hp, hid, hopen, hheard⟩
  · have hi := (h.ports.kept s p hs).bound.mp hopen
    have h₀ : Inv { w with handed := [] } := h.congr rfl rfl rfl rfl rfl rfl
    obtain ⟨r, w', hf, -, hpanic, hhanded⟩ := forward_spec h₀ hi hlen fails
    have hread : etherread s (some bp) fails { w with handed := [] } = (.ok (), w') := by
      have hs₀ : ({ w with handed := [] } : World).heap s = some p := hs
      refine (Kern.bind_of_ok (deref_eq hs₀)).trans ?_
      rw [if_neg (by rw [hopen]; exact Bool.false_ne_true)]
      rcases r with (e | why) | a
      · exact Kern.waserror_of_error hf
      · exact absurd rfl (hpanic why)
      · exact Kern.waserror_of_ok hf
    refine ⟨w', ?_, ?_⟩
    · unfold exec
      dsimp only
      rw [hs]
      dsimp only
      rw [if_pos hr]
      exact hread
    · rw [hhanded]
      exact (h.learn hi (src bp)).routed p.id bp

/-- No port is unbound that has an entry in front of that of the zero address. -/
def Quiet (w : World) : Op → Prop
  | .unbind type name ownhash =>
    ∀ q, w.unbinds type name ownhash = some q → ¬ Clears w.cache q
  | _ => True

/-- A turn of a reader keeps the state. -/
theorem etherread_spec (h : Inv w) (hs : w.heap s = some pt) (hr : pt.reading = true)
    (bp : Option (List UInt8)) (fails : ℕ → Bool) : ∃ r w', etherread s bp fails w = (r, w') ∧
      Inv w' ∧ ∀ why, r ≠ .error (.panic why) := by
  obtain ⟨w', hexit, hinv⟩ := readerExit_spec h hs hr
  cases bp with
  | none => exact ⟨_, _, hexit, hinv, nofun⟩
  | some bp =>
    have hread : etherread s (some bp) fails w = (if pt.closed then readerExit s
        else Kern.waserror (forward pt.id s bp fails) fun _ => pure () : Br Unit) w :=
      Kern.bind_of_ok (deref_eq hs)
    rw [hread, Kern.ite_run]
    split
    · exact ⟨_, _, hexit, hinv, nofun⟩
    rename_i hopen
    have hi := (h.ports.kept s pt hs).bound.mp (Bool.eq_false_iff.mpr hopen)
    by_cases hlen : ETHERMINTU ≤ bp.length
    · obtain ⟨r, w', hf, hinv, hpanic, -⟩ := forward_spec h hi hlen fails
      rcases r with (e | why) | a
      · exact ⟨_, _, Kern.waserror_of_error hf, hinv, nofun⟩
      · exact absurd rfl (hpanic why)
      · exact ⟨_, _, Kern.waserror_of_ok hf, hinv, nofun⟩
    · have hshort : forward pt.id s bp fails w = (.error (.error "short packet"), w) :=
        congrFun (if_pos (not_le.mp hlen)) w
      exact ⟨_, _, Kern.waserror_of_error hshort, h, nofun⟩

/-- The state is kept by each step, and no step panics. -/
theorem inv_exec (h : Inv w) (op : Op) :
    (∀ why, (exec op w).1 ≠ .error (.panic why)) ∧ (Quiet w op → Inv (exec op w).2) := by
  have h₀ : Inv { w with handed := [] } := h.congr rfl rfl rfl rfl rfl rfl
  cases op with
  | bind type name ownhash fails =>
    obtain ⟨hok, herr⟩ := Kern.wp_iff_forall.mp (portbind_spec h₀ type name ownhash fails)
    change (∀ why, (portbind type name ownhash fails _).1 ≠ _) ∧ (_ → Inv (portbind _ _ _ _ _).2)
    rcases hr : portbind type name ownhash fails { w with handed := [] } with ⟨e | a, w'⟩
    · exact ⟨fun why heq => (herr _ _ hr).2 why (Except.error.inj heq), fun _ => (herr _ _ hr).1⟩
    · exact ⟨by rintro _ ⟨⟩, fun _ => hok _ _ hr⟩
  | unbind type name ownhash =>
    obtain ⟨hok, herr⟩ := Kern.wp_iff_forall.mp (portunbind_spec h₀ type name ownhash)
    change (∀ why, (portunbind type name ownhash _).1 ≠ _) ∧ (_ → Inv (portunbind _ _ _ _).2)
    rcases hr : portunbind type name ownhash { w with handed := [] } with ⟨e | a, w'⟩
    · exact ⟨fun why heq => (herr _ _ hr).2 why (Except.error.inj heq), fun _ => (herr _ _ hr).1⟩
    · exact ⟨by rintro _ ⟨⟩, fun hq => hok _ _ hr hq⟩
  | cacheflush =>
    have hcache : ∀ j, (exec .cacheflush w).2.cache j =
        if j < CacheSize then .zero else w.cache j := fun _ => rfl
    refine ⟨by rintro _ ⟨⟩, fun _ => ⟨⟨fun j hj => ?_, fun j hj => ?_⟩, h₀.ports.setCache _⟩⟩
    · rw [hcache] at hj
      split at hj
      · exact absurd rfl hj
      · exact absurd (h.learnt.used j hj).lt_size (by assumption)
    · rw [hcache] at hj ⊢
      split
      · rfl
      · rw [if_neg (by assumption)] at hj
        exact h.learnt.unused j hj
  | tcpmss value => exact ⟨by rintro _ ⟨⟩, fun _ => h₀.congr rfl rfl rfl rfl rfl rfl⟩
  | clock sec => exact ⟨by rintro _ ⟨⟩, fun _ => h₀.congr rfl rfl rfl rfl rfl rfl⟩
  | read s bp fails =>
    cases hs : w.heap s with
    | none =>
      have hexec : exec (.read s bp fails) w = (.ok (), { w with handed := [] }) := by
        simp only [exec, hs]
      rw [hexec]
      exact ⟨by rintro _ ⟨⟩, fun _ => h₀⟩
    | some p =>
      have hexec : exec (.read s bp fails) w =
          if p.reading then etherread s bp fails { w with handed := [] }
          else (.ok (), { w with handed := [] }) := by
        simp only [exec, hs]
      rw [hexec]
      split
      · rename_i hr
        obtain ⟨r, w', hread, hinv, hpanic⟩ := etherread_spec h₀ hs hr bp fails
        rw [hread]
        exact ⟨hpanic, fun _ => hinv⟩
      · exact ⟨by rintro _ ⟨⟩, fun _ => h₀⟩

/-- In runs where no port is unbound that has an entry in front of that of the zero address, each
entry that is not expired is that of the port, bound now, on which its address was last a source,
and each frame that may come next is handed to the ports it is for. -/
theorem forwards_of_run (h : Run step Quiet .start w) : Forwards w := by
  refine (h.invariant inv_start fun t e u ht hok hst => ?_).forwards
  have hu := (inv_exec ht e).2 hok
  unfold step turn at hst
  rcases hr : exec e t with ⟨(_ | _) | _, v⟩ <;> rw [hr] at hst hu <;> cases hst
  · exact hu
  · exact hu

/-! ### A bridge with a few ports -/

/-- A frame between two addresses. -/
def frame (d s : Addr) : List UInt8 := d ++ s ++ List.replicate 48 0

/-- An address with the hash of the zero address. -/
def twin : Addr := [0, 0, 0, 0, 36, 5]

/-- Two ports, on the first of which an address is heard. -/
def pair : List Op :=
  [.bind .Tether "a" 0 none, .bind .Tether "b" 0 none,
    .read 0 (some (frame bcastaddr twin)) fun _ => false]

theorem forwards_pair : ∃ w, Forwards w ∧ w.Entry twin 0 := by
  have hcheck : (pair.foldlM turn World.start).any (fun w => decide ((w.cache 0).d = twin ∧
      (w.cache 0).port = 0 ∧ w.sec < (w.cache 0).expire)) = true := by
    decide +kernel
  obtain ⟨w, hw, hprops⟩ := (Option.any_eq_true _ _).mp hcheck
  obtain ⟨hd, hport, hexp⟩ := of_decide_eq_true hprops
  refine ⟨w, forwards_of_run (Run.of_foldlM_of_forall (fun t e he => ?_) hw), 0, by decide, hd,
    hport, hexp⟩
  simp only [pair, List.mem_cons, List.not_mem_nil, or_false] at he
  obtain rfl | rfl | rfl := he <;> trivial

/-- Frames from the zero address and from one with the same hash, on two of four ports. -/
def crowd : List Op :=
  [.bind .Tether "a" 0 none, .bind .Tether "b" 0 none, .bind .Tether "c" 0 none,
    .bind .Tether "d" 0 none, .read 0 (some (frame bcastaddr twin)) fun _ => false,
    .read 1 (some (frame bcastaddr zeroaddr)) fun _ => false, .unbind .Tether "a" 0]

/-- A frame for the zero address. -/
def stray : List UInt8 := frame zeroaddr [2, 0, 0, 0, 0, 9]

/-- Once the first port is unbound, the entry of the zero address is hidden: a frame for it is
handed to both other ports. -/
theorem not_forwards_zeroaddr : ∃ w, Run step (fun _ _ => True) .start w ∧ w.Entry zeroaddr 1 ∧
    (exec (.read 2 (some stray) fun _ => false) w).2.handed = [(1, stray), (3, stray)] ∧
    ¬ Forwards w := by
  have hcheck : (crowd.foldlM turn World.start).any (fun w =>
      decide ((w.cache 1).d = zeroaddr ∧ (w.cache 1).port = 1 ∧ w.sec < (w.cache 1).expire ∧
        (exec (.read 2 (some stray) fun _ => false) w).2.handed = [(1, stray), (3, stray)] ∧
        (w.heap 2).any (fun p => p.reading ∧ p.closed = false ∧ p.id = 2) ∧ w.tcpmss = false ∧
        ((w.learn (src stray) 2 2).cache 1).d = zeroaddr ∧
        ((w.learn (src stray) 2 2).cache 1).port = 1 ∧
        w.sec < ((w.learn (src stray) 2 2).cache 1).expire)) = true := by
    decide +kernel
  obtain ⟨w, hw, hprops⟩ := (Option.any_eq_true _ _).mp hcheck
  obtain ⟨hd, hport, hexp, hhanded, hp, htcp, hd', hport', hexp'⟩ := of_decide_eq_true hprops
  refine ⟨w, Run.of_foldlM hw, ⟨1, by decide, hd, hport, hexp⟩, hhanded, fun h => ?_⟩
  obtain ⟨p, hp, hpp⟩ := (Option.any_eq_true _ _).mp hp
  obtain ⟨hr, hopen, hid⟩ := of_decide_eq_true hpp
  obtain ⟨w', hexec, hrouted⟩ := h.frame 2 p stray (fun _ => false) hp hr hopen (by decide)
  rw [hexec] at hhanded
  rw [hid] at hrouted
  have hknown := hrouted.known (by decide) 1 ⟨1, by decide, hd', hport', hexp'⟩
  rw [hhanded] at hknown
  exact absurd hknown (by simp)

end PlanNine.Bridge
