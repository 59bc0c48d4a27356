import PlanNine.Lib.Run
import PlanNine.Ip.Arp.Table

/-!
# The chains and the packets of the address resolution table

Entries in use are on the hash chain of their address, and those that wait for an address of
version 6 on the chain of `rxmitproc`, as long as no entry on that chain is recycled for an address
that does not go there, nor filled in under version 4; as long as the entry that is solicited is
still on the chain when the lock is taken again; and as long as nothing is done with the table while
`rxmitproc` drops packets without the lock. No packet is lost unless an error ends a loop that hands
packets to an interface, or the table is cleared while packets wait to be dropped.

## Main definitions

* `Sound`: every entry in use is on its chain, and every packet is in one place.
* `Proper`: the steps that keep it so.
* `Inv`: the invariant.

## Main results

* `inv_newarp6`, `inv_cleanarpent`: the two ways an entry changes its chains.
* `inv_exec`: a proper step comes to an end and keeps the invariant.
* `sound_of_run`: the table is sound in every state reached by proper steps.
* `not_sound_answered`: an address that is entered while it is solicited.
-/

namespace PlanNine.ArpTable

open Links

/-- The hash chain that an entry should be on. -/
def Arpent.hashKey (e : Arpent) : Option ℕ :=
  if e.state = .UNUSED then none else some (haship e.ip)

/-- An entry should be on the chain of `rxmitproc`. -/
def Arpent.waits (e : Arpent) : Bool := e.state = .WAIT ∧ e.solicits

def Arpent.rxmtKey (e : Arpent) : Option Unit :=
  if e.waits then some () else none

def hashKey (cache : ℕ → Arpent) (a : ℕ) : Option ℕ := (cache a).hashKey

def rxmtKey (cache : ℕ → Arpent) (a : ℕ) : Option Unit := (cache a).rxmtKey

/-- The packets on the lists of entries. -/
def holds (cache : ℕ → Arpent) : List ℕ := (List.range NCACHE).flatMap fun a => (cache a).hold

/-- Where packets are. -/
def Arp.places (t : Arp) : List ℕ := holds t.cache ++ t.dropf ++ t.handed ++ t.freed

/-- Each entry in use is once on the hash chain of its address and on no other; the chain of
`rxmitproc` ends, and has the entries that wait to resolve an address of version 6 that is not
multicast, each once; and each packet that was put on the list of an entry is in one place. -/
structure Sound (t : Arp) : Prop where
  hash : ∀ h, ∃ ps, t.hash.Chain (.root h) ps ∧ ps.Nodup ∧
    ∀ a, a ∈ ps ↔ a < NCACHE ∧ (t.cache a).state ≠ .UNUSED ∧ haship (t.cache a).ip = h
  rxmt : ∃ ps, t.rxmt.Chain (.root ()) ps ∧ ps.Nodup ∧
    ∀ a, a ∈ ps ↔ a < NCACHE ∧ (t.cache a).state = .WAIT ∧ (t.cache a).solicits = true
  packets : ∀ b < t.put, t.places.count b = 1

/-- What is kept besides: only entries that wait have packets, those on the chain of `rxmitproc`
have an interface, and `dropl` points to the last packet to be dropped. -/
structure Inv (t : Arp) : Prop where
  hash : Rows t.hash (hashKey t.cache) NCACHE
  rxmt : Rows t.rxmt (rxmtKey t.cache) NCACHE
  hold : ∀ a, (t.cache a).state ≠ .WAIT → (t.cache a).hold = []
  ifc : ∀ a, (t.cache a).waits → (t.cache a).ifc ≠ none
  drop : (∀ ifc, t.phase ≠ .dropping ifc) →
    t.dropl = if t.dropf = [] then none else some t.dropf.length
  phase : ∀ a ifc, t.phase = .soliciting a ifc → a < NCACHE
  places : t.places.Perm (List.range t.put)

theorem Inv.sound {t : Arp} (h : Inv t) : Sound t := by
  refine ⟨fun row => ?_, ?_, fun b hb => ?_⟩
  · obtain ⟨ps, hps, hnodup, hmem⟩ := h.hash row
    refine ⟨ps, hps, hnodup, fun a => ?_⟩
    rw [hmem, hashKey, Arpent.hashKey]
    by_cases hs : (t.cache a).state = .UNUSED
    · simp [hs]
    · simp [hs]
  · obtain ⟨ps, hps, hnodup, hmem⟩ := h.rxmt ()
    refine ⟨ps, hps, hnodup, fun a => ?_⟩
    rw [hmem, rxmtKey, Arpent.rxmtKey, Arpent.waits]
    simp
  · rw [h.places.count_eq]
    exact List.count_eq_one_of_mem List.nodup_range (List.mem_range.mpr hb)

/-! ### Packets -/

variable {t t' : Arp} {a b : ℕ} {cache : ℕ → Arpent} {e : Arpent} {xs : List ℕ}

/-- Changing an entry changes the packets by those on its list. -/
theorem count_holds (cache : ℕ → Arpent) (ha : a < NCACHE) (e : Arpent) (b : ℕ) :
    (holds (Function.update cache a e)).count b + (cache a).hold.count b =
      (holds cache).count b + e.hold.count b := by
  obtain ⟨pre, post, hpre, heq, -⟩ := List.exists_erase_eq (List.mem_range.mpr ha)
  have hpost : a ∉ post := by
    have hnodup := List.nodup_range (n := NCACHE)
    rw [heq] at hnodup
    exact (List.nodup_cons.mp (List.nodup_append.mp hnodup).2.1).1
  have hsame : ∀ l : List ℕ, a ∉ l → (l.flatMap fun a' => (Function.update cache a e a').hold) =
      l.flatMap fun a' => (cache a').hold := by
    intro l hl
    refine List.flatMap_congr fun a' ha' => ?_
    rw [Function.update_of_ne]
    rintro rfl
    exact hl ha'
  unfold holds
  rw [heq, List.flatMap_append, List.flatMap_append, List.flatMap_cons, List.flatMap_cons,
    hsame pre hpre, hsame post hpost, Function.update_self]
  simp only [List.count_append]
  omega

/-- Every packet is in one place when the places have as many of each as before. -/
theorem perm_places (h : t.places.Perm (List.range t.put)) (hput : t'.put = t.put)
    (hcount : ∀ b, t'.places.count b = t.places.count b) :
    t'.places.Perm (List.range t'.put) := by
  rw [hput]
  exact (List.perm_iff_count.mpr hcount).trans h

/-- `dropl` points to the last packet to be dropped. -/
def Arp.Dropping (t : Arp) : Prop := t.dropl = if t.dropf = [] then none else some t.dropf.length

theorem dropf_drop (h : t.Dropping) (xs : List ℕ) : (t.drop xs).dropf = t.dropf ++ xs := by
  unfold Arp.drop
  rw [h]
  by_cases hnil : t.dropf = []
  · rw [if_pos hnil, hnil, List.nil_append]
  · rw [if_neg hnil]
    dsimp only
    rw [List.take_of_length_le le_rfl]

theorem oldest_lt (t : Arp) : t.oldest < NCACHE := by
  have hfold : ∀ (l : List ℕ) (a : ℕ), a < NCACHE → (∀ f ∈ l, f < NCACHE) →
      l.foldl (fun a f => if (t.cache f).utime < (t.cache a).utime then f else a) a < NCACHE := by
    intro l
    induction l with
    | nil => exact fun a ha _ => ha
    | cons f l ih =>
      intro a ha hl
      rw [List.foldl_cons]
      refine ih _ ?_ fun f' hf' => hl f' (List.mem_cons_of_mem _ hf')
      split
      · exact hl f List.mem_cons_self
      · exact ha
  exact hfold _ 0 (by decide) fun f hf => List.mem_range.mp hf

/-- Dumping the packets of an entry loses none. -/
theorem dump_spec (h : t.Dropping) (ha : a < NCACHE) :
    (t.dump a).cache = Function.update t.cache a { t.cache a with hold := [] } ∧
      (t.dump a).hash = t.hash ∧ (t.dump a).rxmt = t.rxmt ∧ (t.dump a).phase = t.phase ∧
      (t.dump a).put = t.put ∧ (t.dump a).Dropping ∧
      ∀ b, (t.dump a).places.count b = t.places.count b := by
  have hcount := fun b => count_holds t.cache ha { t.cache a with hold := [] } b
  simp only [List.count_nil] at hcount
  unfold Arp.dump
  dsimp only
  split
  · refine ⟨rfl, rfl, rfl, rfl, rfl, h, fun b => ?_⟩
    simp only [Arp.places, Arp.setEntry, List.count_append]
    have hb := hcount b
    omega
  split
  · rename_i hnil
    refine ⟨rfl, rfl, rfl, rfl, rfl, h, fun b => ?_⟩
    simp only [Arp.places, Arp.setEntry, List.count_append]
    have hb := hcount b
    rw [hnil, List.count_nil] at hb
    omega
  · rename_i hne
    have h₁ : (t.setEntry a { t.cache a with hold := [] }).Dropping := h
    have hdropf := dropf_drop h₁ (t.cache a).hold
    refine ⟨rfl, rfl, rfl, rfl, rfl, ?_, fun b => ?_⟩
    · unfold Arp.Dropping
      dsimp only
      rw [hdropf, if_neg fun hnil => hne (List.append_eq_nil_iff.mp hnil).2]
    · simp only [Arp.places, hdropf, List.count_append]
      simp only [Arp.drop, Arp.setEntry]
      have hb := hcount b
      omega

/-! ### Entries -/

variable {ip : Ipaddr} {ifc : Ipifc} {addrxt : Bool} {now : ℕ}

theorem hashKey_update (cache : ℕ → Arpent) (a : ℕ) (e : Arpent) :
    hashKey (Function.update cache a e) = Function.update (hashKey cache) a e.hashKey := by
  funext a'
  unfold hashKey
  by_cases h : a' = a
  · subst h
    rw [Function.update_self, Function.update_self]
  · rw [Function.update_of_ne h, Function.update_of_ne h]

theorem rxmtKey_update (cache : ℕ → Arpent) (a : ℕ) (e : Arpent) :
    rxmtKey (Function.update cache a e) = Function.update (rxmtKey cache) a e.rxmtKey := by
  funext a'
  unfold rxmtKey
  by_cases h : a' = a
  · subst h
    rw [Function.update_self, Function.update_self]
  · rw [Function.update_of_ne h, Function.update_of_ne h]

/-- An entry is on the hash chain of its address or on none. -/
theorem hashKey_cases (cache : ℕ → Arpent) (a : ℕ) :
    hashKey cache a = some (haship (cache a).ip) ∨ hashKey cache a = none := by
  unfold hashKey Arpent.hashKey
  split
  · exact .inr rfl
  · exact .inl rfl

theorem rxmtKey_cases (cache : ℕ → Arpent) (a : ℕ) :
    rxmtKey cache a = some () ∨ rxmtKey cache a = none := by
  unfold rxmtKey Arpent.rxmtKey
  split
  · exact .inl rfl
  · exact .inr rfl

/-- A recycled entry is on the chains of its new address, if it was not on the chain of `rxmitproc`
or is there again. -/
theorem newarp6_spec (h : Inv t) (hdrop : t.Dropping)
    (hproper : (t.cache t.oldest).waits → (addrxt && !ipismulticast ip) = true) (ifc : Ipifc)
    (now : ℕ) : ∃ t',
      t.newarp6 ip ifc addrxt now = some (t.oldest, t') ∧
      Rows t'.hash (Function.update (hashKey t.cache) t.oldest (some (haship ip))) NCACHE ∧
      Rows t'.rxmt (Function.update (rxmtKey t.cache) t.oldest
        (if addrxt && !ipismulticast ip then some () else none)) NCACHE ∧
      t'.cache = Function.update t.cache t.oldest
        { (t.cache t.oldest).new ip ifc addrxt now with hold := [] } ∧
      t'.phase = t.phase ∧ t'.put = t.put ∧ t'.Dropping ∧
      ∀ b, t'.places.count b = t.places.count b := by
  have ha := oldest_lt t
  unfold Arp.newarp6
  generalize t.oldest = a at ha hproper ⊢
  dsimp only
  obtain ⟨hcache, hhash, hrxmt, hphase, hput, hdrop', hplaces⟩ := dump_spec hdrop ha
  generalize t.dump a = t₁ at hcache hhash hrxmt hphase hput hdrop' hplaces ⊢
  have he : t₁.cache a = { t.cache a with hold := [] } := by rw [hcache, Function.update_self]
  obtain ⟨hash, hremove, hrows⟩ := h.hash.remove (hashKey_cases t.cache a) (Nat.lt_succ_self NCACHE)
  have hpush := hrows.push (Function.update_self _ _ _) ha (haship ip)
  rw [Function.update_idem] at hpush
  -- whatever is done to the chain of `rxmitproc`, the table is this
  have hmade : ∀ rxmt : Links Unit, ∃ t', t' = { t₁ with
      hash := hash.push (.root (haship ip)) a
      cache := Function.update t₁.cache a ((t₁.cache a).new ip ifc addrxt now)
      rxmt := rxmt } ∧ t'.cache = Function.update t.cache a
        { (t.cache a).new ip ifc addrxt now with hold := [] } ∧
      ∀ b, t'.places.count b = t.places.count b := by
    intro rxmt
    refine ⟨_, rfl, ?_, fun b => ?_⟩
    · dsimp only
      rw [he, hcache, Function.update_idem]
      rfl
    · have hb := count_holds t₁.cache ha ((t₁.cache a).new ip ifc addrxt now) b
      have hsame : ((t₁.cache a).new ip ifc addrxt now).hold = (t₁.cache a).hold := rfl
      rw [hsame] at hb
      rw [← hplaces]
      simp only [Arp.places, List.count_append]
      omega
  rw [hhash, hrxmt]
  have hip : (t₁.cache a).ip = (t.cache a).ip := by rw [he]
  rw [hip, hremove, Option.bind_eq_bind, Option.bind_some, Bool.and_comm addrxt]
  rw [Bool.and_comm] at hproper
  by_cases hcond : (!ipismulticast ip && addrxt) = true
  · obtain ⟨r₁, hr₁, hrows₁⟩ := h.rxmt.remove (rxmtKey_cases t.cache a) (Nat.lt_succ_self NCACHE)
    obtain ⟨r₂, hr₂, hrows₂⟩ := hrows₁.append (Function.update_self _ _ _) ha ()
      (Nat.lt_succ_self NCACHE)
    rw [Function.update_idem] at hrows₂
    rw [if_pos hcond, if_pos hcond, hr₁]
    obtain ⟨t', ht', hcache', hplaces'⟩ := hmade r₂
    refine ⟨t', ?_, ?_⟩
    · subst ht'
      simp only [Option.bind_eq_bind, Option.bind_some, hr₂]
      rfl
    · subst ht'
      exact ⟨hpush, hrows₂, hcache', hphase, hput, hdrop', hplaces'⟩
  · rw [if_neg hcond, if_neg hcond]
    have hnone : rxmtKey t.cache a = none := by
      rw [rxmtKey, Arpent.rxmtKey, if_neg fun hw => hcond (hproper hw)]
    have hsame : Function.update (rxmtKey t.cache) a none = rxmtKey t.cache := by
      rw [← hnone, Function.update_eq_self]
    obtain ⟨t', ht', hcache', hplaces'⟩ := hmade (t.rxmt.set (.next a) none)
    refine ⟨t', ?_, ?_⟩
    · subst ht'
      rfl
    · subst ht'
      rw [hsame]
      exact ⟨hpush, h.rxmt.next hnone none, hcache', hphase, hput, hdrop', hplaces'⟩

/-- A cleared entry. -/
def Arpent.cleaned (e : Arpent) : Arpent :=
  { e with
    utime := 0
    ctime := 0
    type := none
    state := .UNUSED
    hold := []
    ifc := none }

/-- A cleared entry is on no chain. -/
theorem cleanarpent_spec (hhash : Rows t.hash (hashKey t.cache) NCACHE)
    (hrxmt : Rows t.rxmt (rxmtKey t.cache) NCACHE) (ha : a < NCACHE)
    (hhold : (t.cache a).hold = []) : ∃ t', t.cleanarpent a = some t' ∧
      Rows t'.hash (hashKey t'.cache) NCACHE ∧ Rows t'.rxmt (rxmtKey t'.cache) NCACHE ∧
      t'.rxmt.next a = none ∧ t' = { t with
        cache := Function.update t.cache a (t.cache a).cleaned
        hash := t'.hash
        rxmt := t'.rxmt } ∧
      ∀ b, t'.places.count b = t.places.count b := by
  obtain ⟨hash, hremove, hrows⟩ := hhash.remove (hashKey_cases t.cache a) (Nat.lt_succ_self NCACHE)
  obtain ⟨rxmt, hremove', hrows'⟩ := hrxmt.remove (rxmtKey_cases t.cache a)
    (Nat.lt_succ_self NCACHE)
  refine ⟨{ t with
    cache := Function.update t.cache a (t.cache a).cleaned
    hash := hash.set (.next a) none
    rxmt := rxmt.set (.next a) none }, ?_, ?_, ?_, ?_, rfl, fun b => ?_⟩
  · unfold Arp.cleanarpent
    dsimp only
    rw [hremove, hremove']
    rfl
  · rw [hashKey_update]
    exact hrows.next (Function.update_self _ _ _) none
  · rw [rxmtKey_update]
    exact hrows'.next (Function.update_self _ _ _) none
  · exact Function.update_self _ _ _
  · have hb := count_holds t.cache ha (t.cache a).cleaned b
    rw [hhold] at hb
    simp only [Arpent.cleaned, List.count_nil, Nat.add_zero] at hb
    simp only [Arp.places, List.count_append, Arpent.cleaned, hb]

/-- The invariant, when one entry is changed. -/
theorem Inv.update (h : Inv t) (hcache : t'.cache = Function.update t.cache a e)
    (hhash : Rows t'.hash (Function.update (hashKey t.cache) a e.hashKey) NCACHE)
    (hrxmt : Rows t'.rxmt (Function.update (rxmtKey t.cache) a e.rxmtKey) NCACHE)
    (hhold : e.state ≠ .WAIT → e.hold = []) (hifc : e.waits → e.ifc ≠ none)
    (hdrop : (∀ ifc, t'.phase ≠ .dropping ifc) → t'.Dropping)
    (hphase : ∀ a ifc, t'.phase = .soliciting a ifc → a < NCACHE)
    (hplaces : t'.places.Perm (List.range t'.put)) : Inv t' := by
  have hother : ∀ P : Arpent → Prop, (∀ a', P (t.cache a')) → P e → ∀ a', P (t'.cache a') := by
    intro P hP he a'
    rw [hcache]
    by_cases h : a' = a
    · rw [h, Function.update_self]
      exact he
    · rw [Function.update_of_ne h]
      exact hP a'
  refine ⟨?_, ?_, hother (fun e => e.state ≠ .WAIT → e.hold = []) h.hold hhold,
    hother (fun e => e.waits → e.ifc ≠ none) h.ifc hifc, hdrop, hphase, hplaces⟩
  · rw [hcache, hashKey_update]
    exact hhash
  · rw [hcache, rxmtKey_update]
    exact hrxmt

/-- Changing an entry so that it stays on its chains. -/
theorem Inv.setEntry (h : Inv t) (hdrop : t.Dropping) (ha : a < NCACHE)
    (hhash : e.hashKey = (t.cache a).hashKey) (hrxmt : e.rxmtKey = (t.cache a).rxmtKey)
    (hhold : e.hold = (t.cache a).hold) (hempty : e.state ≠ .WAIT → e.hold = [])
    (hifc : e.waits → e.ifc ≠ none) : Inv (t.setEntry a e) := by
  refine h.update rfl ?_ ?_ hempty hifc (fun _ => hdrop) h.phase
    (perm_places h.places rfl fun b => ?_)
  · rw [hhash]
    have hsame : Function.update (hashKey t.cache) a (t.cache a).hashKey = hashKey t.cache :=
      Function.update_eq_self _ _
    rw [hsame]
    exact h.hash
  · rw [hrxmt]
    have hsame : Function.update (rxmtKey t.cache) a (t.cache a).rxmtKey = rxmtKey t.cache :=
      Function.update_eq_self _ _
    rw [hsame]
    exact h.rxmt
  · have hb := count_holds t.cache ha e b
    rw [hhold] at hb
    simp only [Arp.places, Arp.setEntry, List.count_append]
    omega

/-- A recycled entry, as it is filled in then. -/
theorem inv_newarp6 (h : Inv t) (hdrop : t.Dropping)
    (hproper : (t.cache t.oldest).waits → (addrxt && !ipismulticast ip) = true) (ifc : Ipifc)
    (now : ℕ) : ∃ t',
      t.newarp6 ip ifc addrxt now = some (t.oldest, t') ∧ t'.Dropping ∧ t'.phase = t.phase ∧
      t'.cache t.oldest = { (t.cache t.oldest).new ip ifc addrxt now with hold := [] } ∧
      ∀ e : Arpent, e.hashKey = some (haship ip) →
        e.rxmtKey = (if addrxt && !ipismulticast ip then some () else none) → e.hold = [] →
        (e.waits → e.ifc ≠ none) → Inv (t'.setEntry t.oldest e) := by
  obtain ⟨t', hnew, hhash, hrxmt, hcache, hphase, hput, hdrop', hplaces⟩ :=
    newarp6_spec h hdrop hproper ifc now
  have hentry : t'.cache t.oldest =
      { (t.cache t.oldest).new ip ifc addrxt now with hold := [] } := by
    rw [hcache, Function.update_self]
  refine ⟨t', hnew, hdrop', hphase, hentry, fun e hkey hkey' hhold hifc => ?_⟩
  refine h.update (a := t.oldest) ?_ ?_ ?_ (fun _ => hhold) hifc (fun _ => hdrop')
    (fun a' ifc' h' => h.phase a' ifc' (hphase.symm.trans h')) ?_
  · exact (congrArg (Function.update · t.oldest e) hcache).trans (Function.update_idem _ _ _)
  · rw [hkey]
    exact hhash
  · rw [hkey']
    exact hrxmt
  · refine perm_places h.places hput fun b => ?_
    have hb := count_holds t'.cache (oldest_lt t) e b
    rw [hhold, hentry] at hb
    rw [← hplaces]
    simp only [List.count_nil, Nat.add_zero] at hb
    simp only [Arp.places, Arp.setEntry, List.count_append, hb]

/-- A cleared entry had no packets. -/
theorem inv_cleanarpent (h : Inv t) (hdrop : t.Dropping) (ha : a < NCACHE)
    (hhold : (t.cache a).hold = []) : ∃ t', t.cleanarpent a = some t' ∧ Inv t' := by
  obtain ⟨t', ht', hhash, hrxmt, -, heq, hplaces⟩ := cleanarpent_spec h.hash h.rxmt ha hhold
  have hcache : t'.cache = Function.update t.cache a (t.cache a).cleaned := by rw [heq]
  refine ⟨t', ht', h.update hcache ?_ ?_ (fun _ => rfl) ?_ ?_ ?_ ?_⟩
  · rw [← hashKey_update, ← hcache]
    exact hhash
  · rw [← rxmtKey_update, ← hcache]
    exact hrxmt
  · simp [Arpent.waits, Arpent.cleaned]
  · rw [heq]
    exact fun _ => hdrop
  · rw [heq]
    exact h.phase
  · exact perm_places h.places (by rw [heq]) hplaces

/-! ### Steps -/

/-- What a lookup finds is in use. -/
theorem find_spec (h : Inv t) (P : Arpent → Bool) (ip : Ipaddr) :
    ∃ found, t.find P ip = some found ∧
      ∀ a, found = some a → a < NCACHE ∧ (t.cache a).state ≠ .UNUSED ∧ P (t.cache a) := by
  obtain ⟨l, hl, hfound⟩ := h.hash.find (fun a => P (t.cache a)) (haship ip)
    (Nat.lt_succ_self NCACHE)
  refine ⟨t.hash.get l, ?_, fun a ha => ?_⟩
  · rw [Arp.find, hl, Option.map_some]
  · obtain ⟨hlt, hkey, hP⟩ := hfound a ha
    refine ⟨hlt, fun hunused => ?_, hP⟩
    rw [hashKey, Arpent.hashKey, if_pos hunused] at hkey
    cases hkey

theorem inv_use (h : Inv t) (hdrop : t.Dropping) (ha : a < NCACHE) (bp : Bool) (now : ℕ) :
    ∃ t', t.use a bp now = some t' ∧ Inv t' := by
  have h₁ : Inv (t.setEntry a { t.cache a with utime := now }) :=
    h.setEntry hdrop ha rfl rfl rfl (h.hold a) (h.ifc a)
  have hdrop₁ : (t.setEntry a { t.cache a with utime := now }).Dropping := hdrop
  unfold Arp.use
  dsimp only
  generalize t.setEntry a { t.cache a with utime := now } = t₁ at h₁ hdrop₁ ⊢
  split
  · rename_i hwait
    split
    · refine ⟨_, rfl, ?_⟩
      refine h₁.update rfl ?_ ?_ (fun hne => absurd hwait hne) (h₁.ifc a) (fun _ => hdrop₁)
        h₁.phase ?_
      · exact (congrArg (Rows t₁.hash · NCACHE) (Function.update_eq_self _ _)).mpr h₁.hash
      · exact (congrArg (Rows t₁.rxmt · NCACHE) (Function.update_eq_self _ _)).mpr h₁.rxmt
      · refine List.perm_iff_count.mpr fun b => ?_
        have hb := count_holds t₁.cache ha
          { t₁.cache a with hold := (t₁.cache a).hold ++ [t₁.put] } b
        have hplaces := List.perm_iff_count.mp h₁.places b
        simp only [Arp.places, List.count_append] at hb hplaces
        simp only [Arp.places, Arp.setEntry, List.count_append, List.range_succ]
        omega
    · exact ⟨_, rfl, h₁⟩
  · rename_i hwait
    split
    · exact inv_cleanarpent h₁ hdrop₁ ha (h₁.hold a hwait)
    · exact ⟨_, rfl, h₁⟩

/-- No packet is lost when an error can only come with the last one. -/
theorem deliver_spec {outs : ℕ → Arp.Outcome} {bs : List ℕ}
    (h : ∀ b ∈ bs.dropLast, outs b ≠ .error) (t : Arp) : ∃ handed freed,
      Arp.deliver outs bs t = { t with handed := handed, freed := freed } ∧
      ∀ b, handed.count b + freed.count b = t.handed.count b + t.freed.count b + bs.count b := by
  induction bs generalizing t with
  | nil => exact ⟨t.handed, t.freed, rfl, fun b => by rw [List.count_nil, Nat.add_zero]⟩
  | cons b bs ih =>
    have hbs : ∀ b' ∈ bs.dropLast, outs b' ≠ .error := by
      intro b' hb'
      refine h b' ?_
      cases bs with
      | nil => cases hb'
      | cons c cs => exact List.mem_cons_of_mem _ hb'
    unfold Arp.deliver
    cases hout : outs b with
    | sent =>
      obtain ⟨handed, freed, heq, hcount⟩ := ih hbs { t with handed := t.handed ++ [b] }
      refine ⟨handed, freed, heq, fun b' => ?_⟩
      have hb' := hcount b'
      simp only [List.count_append, List.count_cons, List.count_nil] at hb' ⊢
      omega
    | unbound =>
      obtain ⟨handed, freed, heq, hcount⟩ := ih hbs { t with freed := t.freed ++ [b] }
      refine ⟨handed, freed, heq, fun b' => ?_⟩
      have hb' := hcount b'
      simp only [List.count_append, List.count_cons, List.count_nil] at hb' ⊢
      omega
    | error =>
      cases bs with
      | nil =>
        refine ⟨t.handed ++ [b], t.freed, rfl, fun b' => ?_⟩
        rw [List.count_append]
        omega
      | cons c cs => exact absurd hout (h b List.mem_cons_self)

/-- What a step must not do: come between the two parts in which `rxmitproc` discards an entry and
drops packets without the lock; recycle an entry that is on the chain of `rxmitproc` for an address
that does not go there; fill in such an entry under version 4; meet an error with packets left to
be sent; clear the table with packets left to be dropped; or put an entry that no longer waits back
on the chain. -/
def Proper (t : Arp) : Op → Prop
  | .arpget _ version ifc ip _ => (∀ ifc, t.phase ≠ .dropping ifc) ∧
      (t.find (fun e => ip = e.ip ∧ e.type = some ifc.m) ip = some none →
        (t.cache t.oldest).waits → version ≠ .V4 ∧ ipismulticast ip = false)
  | .arpenter version ip _ ifc refresh _ outs => (∀ ifc, t.phase ≠ .dropping ifc) ∧
      match t.find (Arp.enters ip ifc.m) ip with
      | some (some a) => ((t.cache a).waits → version = .V6) ∧
          ∀ b ∈ (t.cache a).hold.dropLast, outs b ≠ .error
      | _ => refresh = false → (t.cache t.oldest).waits = false
  | .flush => (∀ ifc, t.phase ≠ .dropping ifc) ∧ t.dropf = []
  | .rxmit .. => ∀ a ifc, t.phase = .soliciting a ifc → (t.cache a).waits

theorem Inv.dropping (h : Inv t) (hphase : ∀ ifc, t.phase ≠ .dropping ifc) : t.Dropping :=
  h.drop hphase

theorem inv_arpget (h : Inv t) {bp : Bool} {version : Version}
    (hp : Proper t (.arpget bp version ifc ip now)) :
    ∃ t', t.arpget bp version ifc ip now = some t' ∧ Inv t' := by
  obtain ⟨hphase, hproper⟩ := hp
  have hdrop := h.dropping hphase
  obtain ⟨found, hfind, hfound⟩ := find_spec h (fun e => ip = e.ip ∧ e.type = some ifc.m) ip
  unfold Arp.arpget
  rw [hfind, Option.bind_eq_bind, Option.bind_some]
  cases found with
  | some a => exact inv_use h hdrop (hfound a rfl).1 bp now
  | none =>
    have haddrxt : (t.cache t.oldest).waits →
        (decide (version ≠ .V4) && !ipismulticast ip) = true := by
      intro hwaits
      obtain ⟨hv, hm⟩ := hproper hfind hwaits
      rw [hm, decide_eq_true hv]
      rfl
    obtain ⟨t', hnew, hdrop', -, hentry, hinv⟩ :=
      inv_newarp6 h hdrop haddrxt ifc now
    dsimp only
    rw [hnew, Option.bind_eq_bind, Option.bind_some]
    have ht' : Inv (t'.setEntry t.oldest { t'.cache t.oldest with state := .WAIT }) := by
      refine hinv _ ?_ ?_ ?_ ?_
      · rw [hentry]
        rfl
      · rw [hentry]
        simp [Arpent.rxmtKey, Arpent.waits, Arpent.new]
      · rw [hentry]
      · rw [hentry]
        exact fun _ => nofun
    dsimp only
    exact inv_use ht' hdrop' (oldest_lt t) bp now

/-- An entry that is filled in leaves the chain of `rxmitproc`, and its packets are sent. -/
theorem inv_resolved (h : Inv t) (hdrop : t.Dropping) (ha : a < NCACHE)
    (hused : (t.cache a).state ≠ .UNUSED) {outs : ℕ → Arp.Outcome}
    (houts : ∀ b ∈ (t.cache a).hold.dropLast, outs b ≠ .error) {rxmt : Links Unit}
    (hrxmt : Rows rxmt (Function.update (rxmtKey t.cache) a none) NCACHE)
    (hstate : e.state = .OK) (hip : e.ip = (t.cache a).ip) (hhold : e.hold = []) :
    Inv (Arp.deliver outs (t.cache a).hold { t.setEntry a e with rxmt := rxmt }) := by
  obtain ⟨handed, freed, heq, hcount⟩ := deliver_spec houts { t.setEntry a e with rxmt := rxmt }
  rw [heq]
  have hkey : e.hashKey = (t.cache a).hashKey := by
    rw [Arpent.hashKey, Arpent.hashKey, if_neg hused, if_neg (by rw [hstate]; nofun), hip]
  have hnone : e.rxmtKey = none := by
    simp [Arpent.rxmtKey, Arpent.waits, hstate]
  refine h.update rfl ?_ ?_ (fun _ => hhold) ?_ (fun _ => hdrop) h.phase ?_
  · rw [hkey]
    exact (congrArg (Rows t.hash · NCACHE) (Function.update_eq_self _ _)).mpr h.hash
  · rw [hnone]
    exact hrxmt
  · simp [Arpent.waits, hstate]
  · refine perm_places h.places rfl fun b => ?_
    have hb := count_holds t.cache ha e b
    have hsent := hcount b
    rw [hhold, List.count_nil] at hb
    simp only [Arp.places, Arp.setEntry, List.count_append] at hsent ⊢
    omega

theorem inv_arpenter (h : Inv t) {version : Version} {mac : List UInt8} {refresh : Bool}
    {outs : ℕ → Arp.Outcome} (hp : Proper t (.arpenter version ip mac ifc refresh now outs)) :
    ∃ t', t.arpenter version ip mac ifc refresh now outs = some t' ∧ Inv t' := by
  obtain ⟨hphase, hproper⟩ := hp
  have hdrop := h.dropping hphase
  obtain ⟨found, hfind, hfound⟩ := find_spec h (Arp.enters ip ifc.m) ip
  rw [hfind] at hproper
  unfold Arp.arpenter
  rw [hfind, Option.bind_eq_bind, Option.bind_some]
  cases found with
  | some a =>
    obtain ⟨ha, hused, -⟩ := hfound a rfl
    obtain ⟨hv6, houts⟩ := hproper
    dsimp only
    by_cases hv : version = .V6
    · obtain ⟨rxmt, hremove, hrows⟩ := h.rxmt.remove (rxmtKey_cases t.cache a)
        (Nat.lt_succ_self NCACHE)
      rw [if_pos hv, hremove, Option.bind_eq_bind, Option.bind_some]
      exact ⟨_, rfl, inv_resolved h hdrop ha hused houts hrows rfl rfl rfl⟩
    · rw [if_neg hv]
      have hnone : rxmtKey t.cache a = none := by
        rw [rxmtKey, Arpent.rxmtKey, if_neg fun hw => hv (hv6 hw)]
      have hrows : Rows t.rxmt (Function.update (rxmtKey t.cache) a none) NCACHE := by
        rw [← hnone, Function.update_eq_self]
        exact h.rxmt
      exact ⟨_, rfl, inv_resolved h hdrop ha hused houts hrows rfl rfl rfl⟩
  | none =>
    dsimp only
    cases refresh with
    | true => exact ⟨t, rfl, h⟩
    | false =>
      have hnot : (t.cache t.oldest).waits → (false && !ipismulticast ip) = true :=
        fun hwaits => absurd hwaits (by rw [hproper rfl]; exact Bool.false_ne_true)
      obtain ⟨t', hnew, -, -, hentry, hinv⟩ :=
        inv_newarp6 h hdrop hnot ifc now
      rw [hnew, if_neg Bool.false_ne_true, Option.bind_eq_bind, Option.bind_some]
      dsimp only
      refine ⟨_, rfl, hinv _ ?_ ?_ ?_ ?_⟩
      · rw [hentry]
        rfl
      · simp [Arpent.rxmtKey, Arpent.waits]
      · rw [hentry]
      · simp [Arpent.waits]

/-- Where no entry is in use, the chains are empty. -/
theorem rows_empty {η : Type*} {s : Links η} {key : ℕ → Option η} {n : ℕ}
    (hroot : ∀ h, s.root h = none) (hkey : ∀ a < n, key a = none) : Rows s key n :=
  fun h => ⟨[], hroot h, List.nodup_nil, fun a => iff_of_false List.not_mem_nil fun ha => by
    cases (hkey a ha.1).symm.trans ha.2⟩

theorem inv_flush (h : Inv t) (hp : Proper t .flush) : Inv t.flush := by
  have hbelow : ∀ a < NCACHE, (t.flush.cache a).state = .UNUSED ∧ (t.flush.cache a).hold = [] := by
    intro a ha
    simp only [Arp.flush, if_pos ha, and_self]
  have habove : ∀ a, ¬ a < NCACHE → t.flush.cache a = t.cache a := by
    intro a ha
    simp only [Arp.flush, if_neg ha]
  refine ⟨rows_empty (fun _ => rfl) fun a ha => ?_, rows_empty (fun _ => rfl) fun a ha => ?_,
    fun a hne => ?_, fun a hwaits => ?_, fun _ => rfl, h.phase, ?_⟩
  · rw [hashKey, Arpent.hashKey, if_pos (hbelow a ha).1]
  · simp [rxmtKey, Arpent.rxmtKey, Arpent.waits, (hbelow a ha).1]
  · by_cases ha : a < NCACHE
    · exact (hbelow a ha).2
    · rw [habove a ha] at hne ⊢
      exact h.hold a hne
  · by_cases ha : a < NCACHE
    · simp [Arpent.waits, (hbelow a ha).1] at hwaits
    · rw [habove a ha] at hwaits ⊢
      exact h.ifc a hwaits
  · refine perm_places h.places rfl fun b => ?_
    have hnone : holds t.flush.cache = [] :=
      List.flatMap_eq_nil_iff.mpr fun a ha => (hbelow a (List.mem_range.mp ha)).2
    unfold Arp.places
    rw [hnone, hp.2]
    simp only [Arp.flush, holds, List.count_append, List.count_nil]
    omega

/-- Packets are dropped when there are none, or an interface to answer on. -/
theorem dodrops_isSome {ifc : Option ℕ} (h : t.dropf = [] ∨ ifc ≠ none) :
    (t.dodrops ifc).isSome := by
  unfold Arp.dodrops
  rw [if_neg]
  · rfl
  · rintro ⟨hne, hnone⟩
    exact h.elim hne fun h => h hnone

/-- Packets are dropped, unless there is no interface to answer on. -/
theorem inv_dodrops (h : Inv t) {ifc : Option ℕ} (ht' : t.dodrops ifc = some t') : Inv t' := by
  unfold Arp.dodrops at ht'
  split at ht'
  · cases ht'
  · cases ht'
    refine ⟨h.hash, h.rxmt, h.hold, h.ifc, fun _ => rfl, nofun, ?_⟩
    refine perm_places h.places rfl fun b => ?_
    simp only [Arp.places, List.count_append, List.count_nil]
    omega

/-- The packets of an entry are behind those to be dropped, wherever `dropl` points to. -/
theorem discard_spec (hdrop : t.Dropping) (a : ℕ) : t.discard a =
    { t with
      cache := Function.update t.cache a { t.cache a with hold := [] }
      dropf := t.dropf ++ (t.cache a).hold } := by
  unfold Arp.discard
  dsimp only
  split
  · rename_i hnil
    rw [hnil, List.append_nil]
    rfl
  · have hdropf := dropf_drop (t := t.setEntry a { t.cache a with hold := [] }) hdrop
      (t.cache a).hold
    have hsame : (t.setEntry a { t.cache a with hold := [] }).dropf = t.dropf := rfl
    rw [← hsame, ← hdropf]
    rfl

/-- The loop discards one entry at the most, as the pointer of a cleared entry is nil. -/
theorem inv_solicitLoop (h : Inv t) (hdrop : t.Dropping) (canrlock : ℕ → Bool) (ifcid : ℕ → ℕ)
    (ha : a < NCACHE) (hwaits : (t.cache a).waits) :
    ∃ t', Arp.solicitLoop canrlock ifcid (NCACHE + 1) (some a) 0 t = some t' ∧ Inv t' := by
  unfold Arp.solicitLoop
  dsimp only
  cases hifc : (t.cache a).ifc with
  | none => exact absurd hifc (h.ifc a hwaits)
  | some ifc =>
    dsimp only
    split
    · have h₁ := discard_spec hdrop a
      have hcache₁ : (t.discard a).cache =
          Function.update t.cache a { t.cache a with hold := [] } := by rw [h₁]
      have hhash₁ : Rows (t.discard a).hash (hashKey (t.discard a).cache) NCACHE := by
        rw [hcache₁, hashKey_update, h₁]
        exact (congrArg (Rows t.hash · NCACHE) (Function.update_eq_self _ _)).mpr h.hash
      have hrxmt₁ : Rows (t.discard a).rxmt (rxmtKey (t.discard a).cache) NCACHE := by
        rw [hcache₁, rxmtKey_update, h₁]
        exact (congrArg (Rows t.rxmt · NCACHE) (Function.update_eq_self _ _)).mpr h.rxmt
      have hcount₁ : ∀ b, (t.discard a).places.count b = t.places.count b := by
        intro b
        have hb := count_holds t.cache ha { t.cache a with hold := [] } b
        rw [h₁]
        simp only [List.count_nil] at hb
        simp only [Arp.places, List.count_append]
        omega
      obtain ⟨t', hclean, hhash, hrxmt, hnext, heq, hplaces⟩ :=
        cleanarpent_spec hhash₁ hrxmt₁ ha (by rw [hcache₁, Function.update_self])
      rw [hclean, Option.bind_eq_bind, Option.bind_some, hnext]
      refine ⟨{ t' with phase := .dropping ifc }, rfl, ?_⟩
      have hcache : t'.cache = Function.update t.cache a (t.cache a).cleaned := by
        rw [heq, hcache₁, Function.update_self, Function.update_idem]
        rfl
      refine h.update hcache ?_ ?_ (fun _ => rfl) ?_ (fun hne => absurd rfl (hne ifc)) nofun ?_
      · rw [← hashKey_update, ← hcache]
        exact hhash
      · rw [← rxmtKey_update, ← hcache]
        exact hrxmt
      · simp [Arpent.waits, Arpent.cleaned]
      · refine perm_places h.places ?_ fun b => (hplaces b).trans (hcount₁ b)
        rw [heq, h₁]
    · refine ⟨_, rfl, h.hash, h.rxmt, h.hold, h.ifc, fun _ => hdrop, ?_, h.places⟩
      rintro a' ifc' heq
      cases heq
      exact ha

/-- The first entry of the chain of `rxmitproc` waits. -/
theorem waits_of_root (h : Inv t) (hroot : t.rxmt.root () = some a) :
    a < NCACHE ∧ (t.cache a).waits := by
  obtain ⟨ps, hps, -, hmem⟩ := h.rxmt ()
  obtain ⟨hlt, hkey⟩ := (hmem a).mp (hps.mem_of_get hroot)
  refine ⟨hlt, by_contra fun hnot => ?_⟩
  rw [rxmtKey, Arpent.rxmtKey, if_neg hnot] at hkey
  cases hkey

/-- A pass begins, unless there are packets to be dropped and no interface to answer on. -/
theorem inv_solicit (h : Inv t) (hphase : t.phase = .idle) (canrlock : ℕ → Bool)
    (ifcid : ℕ → ℕ) (now : ℕ) : (t.dropf = [] → (t.solicit canrlock ifcid now).isSome) ∧
      ∀ t', t.solicit canrlock ifcid now = some t' → Inv t' := by
  have hdrop : t.Dropping := h.dropping fun ifc => by rw [hphase]; nofun
  have hdrops : (t.dropf = [] → (t.dodrops none).isSome) ∧
      ∀ t', t.dodrops none = some t' → Inv t' :=
    ⟨fun hnil => dodrops_isSome (.inl hnil), fun _ => inv_dodrops h⟩
  unfold Arp.solicit
  split
  · exact hdrops
  · rename_i a hroot
    obtain ⟨hlt, hwaits⟩ := waits_of_root h hroot
    split
    · exact hdrops
    · obtain ⟨t₁, ht₁, hinv⟩ := inv_solicitLoop h hdrop canrlock ifcid hlt hwaits
      rw [ht₁]
      refine ⟨fun _ => rfl, fun t' ht' => ?_⟩
      exact Option.some.inj ht' ▸ hinv

/-- An entry that waits still is solicited again later. -/
theorem inv_resolicit (h : Inv t) {ifc : ℕ} (hphase : t.phase = .soliciting a ifc)
    (hwaits : (t.cache a).waits) (now : ℕ) :
    (t.resolicit a ifc now).isSome ∧ ∀ t', t.resolicit a ifc now = some t' → Inv t' := by
  have hdrop : t.Dropping := h.dropping fun ifc' => by rw [hphase]; nofun
  have ha := h.phase a ifc hphase
  obtain ⟨r₁, hr₁, hrows₁⟩ := h.rxmt.remove (rxmtKey_cases t.cache a) (Nat.lt_succ_self NCACHE)
  obtain ⟨r₂, hr₂, hrows₂⟩ := hrows₁.append (Function.update_self _ _ _) ha ()
    (Nat.lt_succ_self NCACHE)
  have hkey : rxmtKey t.cache a = some () := if_pos hwaits
  rw [Function.update_idem, ← hkey, Function.update_eq_self] at hrows₂
  have h₁ : Inv { t with rxmt := r₂ } :=
    ⟨h.hash, hrows₂, h.hold, h.ifc, h.drop, h.phase, h.places⟩
  unfold Arp.resolicit
  rw [hr₁, Option.bind_eq_bind, Option.bind_some, hr₂, Option.bind_some]
  generalize ulong (now + ReTransTimer) = rtime
  have h₂ := h₁.setEntry hdrop ha (e := { t.cache a with
    rxtsrem := (t.cache a).rxtsrem - 1
    rtime := rtime }) rfl rfl rfl (h.hold a) (h.ifc a)
  exact ⟨dodrops_isSome (.inr nofun), fun t' => inv_dodrops h₂⟩

/-! ### Runs -/

theorem inv_start : Inv {} := by
  refine ⟨rows_empty (fun _ => rfl) fun _ _ => rfl, rows_empty (fun _ => rfl) fun _ _ => rfl,
    fun _ _ => rfl, nofun, fun _ => rfl, nofun, ?_⟩
  have hnone : holds (fun _ => {}) = [] := List.flatMap_eq_nil_iff.mpr fun _ _ => rfl
  unfold Arp.places
  rw [hnone]
  exact .refl _

/-- A proper step comes to an end, unless `rxmitproc` has packets to drop and no interface to answer
on; it keeps the invariant. -/
theorem inv_exec {op : Op} (h : Inv t) (hp : Proper t op) :
    (t.dropf = [] ∨ t.phase ≠ .idle → (exec t op).isSome) ∧
      ∀ t', exec t op = some t' → Inv t' := by
  have hmade : ∀ {ot : Option Arp}, (∃ t', ot = some t' ∧ Inv t') →
      (t.dropf = [] ∨ t.phase ≠ .idle → ot.isSome) ∧ ∀ t', ot = some t' → Inv t' := by
    rintro _ ⟨t₁, rfl, hinv⟩
    exact ⟨fun _ => rfl, fun t' ht' => Option.some.inj ht' ▸ hinv⟩
  cases op with
  | arpget bp version ifc ip now => exact hmade (inv_arpget h hp)
  | arpenter version ip mac ifc refresh now outs => exact hmade (inv_arpenter h hp)
  | flush => exact hmade ⟨_, rfl, inv_flush h hp⟩
  | rxmit canrlock ifcid now =>
    dsimp only [exec]
    cases hphase : t.phase with
    | idle =>
      obtain ⟨hsome, hinv⟩ := inv_solicit h hphase canrlock ifcid now
      exact ⟨fun hor => hsome (hor.resolve_right fun hne => hne rfl), hinv⟩
    | soliciting a ifc =>
      obtain ⟨hsome, hinv⟩ := inv_resolicit h hphase (hp a ifc hphase) now
      exact ⟨fun _ => hsome, hinv⟩
    | dropping ifc => exact ⟨fun _ => dodrops_isSome (.inr nofun), fun _ => inv_dodrops h⟩

theorem inv_of_run (h : Run step Proper {} t) : Inv t :=
  h.invariant inv_start fun _ _ t' hinv hp => (inv_exec hinv hp).2 t'

/-- In a run of proper steps, every entry in use is on its chains, and no packet is lost. -/
theorem sound_of_run (h : Run step Proper {} t) : Sound t := (inv_of_run h).sound

/-- An address of version 6. -/
def neighbour : Ipaddr := [0xfe, 0x80, 0, 0, 0, 0, 0, 0, 0, 0, 0, 0, 0, 0, 0, 7]

/-- A packet waits for an address of version 6. -/
theorem sound_waiting : ∃ t, Run step Proper {} t ∧ t.put = 1 ∧ Sound t := by
  have hp : Proper {} (.arpget true .V6 ⟨0, 0, 1⟩ neighbour 1) :=
    ⟨fun _ => nofun, fun _ hwaits => by cases hwaits⟩
  have hput : ((exec {} (.arpget true .V6 ⟨0, 0, 1⟩ neighbour 1)).any fun t => t.put = 1) =
    true := by
    decide +kernel
  obtain ⟨t, ht, hput⟩ := (Option.any_eq_true _ _).mp hput
  have hrun : Run step Proper {} t := Run.nil.snoc hp ht
  exact ⟨t, hrun, of_decide_eq_true hput, sound_of_run hrun⟩

/-- The address is entered while it is solicited. -/
def answered : List Op :=
  [.arpget true .V6 ⟨0, 0, 1⟩ neighbour 1, .rxmit (fun _ => true) (fun _ => 1) 1001,
    .arpenter .V6 neighbour [2, 0, 0, 0, 0, 7] ⟨0, 0, 1⟩ true 1002 fun _ => .sent,
    .rxmit (fun _ => true) (fun _ => 1) 1003]

/-- An address entered while it is solicited is solicited again: its entry is put back on the chain
of `rxmitproc`. -/
theorem not_sound_answered : ∃ t, Run step (fun _ _ => True) {} t ∧ ¬ Sound t := by
  have hcheck : (answered.foldlM exec {}).any (fun t =>
      decide (t.rxmt.root () = some 0 ∧ (t.cache 0).state = .OK)) = true := by
    decide +kernel
  obtain ⟨t, ht, hprops⟩ := (Option.any_eq_true _ _).mp hcheck
  obtain ⟨hroot, hok⟩ := of_decide_eq_true hprops
  refine ⟨t, Run.of_foldlM ht, fun h => ?_⟩
  obtain ⟨ps, hps, -, hmem⟩ := h.rxmt
  have hwait := ((hmem 0).mp (hps.mem_of_get hroot)).2.1
  rw [hok] at hwait
  cases hwait

end PlanNine.ArpTable
