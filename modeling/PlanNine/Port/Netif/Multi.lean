import PlanNine.Port.Netif.Counts

/-!
# The multicast filter of a network interface

An interface counts how often each multicast address was added, and a file has a bit for each of the
first 64 addresses known. What files want is how often each has added an address since it last
removed it or was closed.

## Main definitions

* `Want`, `wants`: what the files want, and what a step makes them want.
* `Filtered`: the addresses that are received are those that open files want.
* `Fair`: the steps that keep this.

## Main results

* `Multi.addmulti`, `Multi.remmulti`, `Multi.lastclose`: what keeps the counts and the bits.
* `filtered_of_run`: in a run of fair steps the filter is right in every state.
-/

namespace PlanNine.Netdev

/-- How often each file has added an address since it last removed it. -/
abbrev Want := ℕ → List ℕ → ℕ

/-- What a message asks for: to add or to remove an address. -/
def asked (nif : Netif) (buf : List Char) : Option (List ℕ × Bool) :=
  if !nif.hasMulticast then none
  else
    match matchtoken buf "addmulti" with
    | some p => (parseaddr nif.alen p).map (·, true)
    | none =>
      match matchtoken buf "remmulti" with
      | some p => (parseaddr nif.alen p).map (·, false)
      | none => none

/-- A file wants an address so many times. -/
def Want.put (want : Want) (id : ℕ) (addr : List ℕ) (n : ℕ) : Want :=
  Function.update want id (Function.update (want id) addr n)

/-- The file has a channel but `c`. -/
def Shared (t : State) (c id : ℕ) : Prop :=
  ∃ d < t.nchan, d ≠ c ∧ 0 < opens id (t.chan d)

instance (t : State) (c id : ℕ) : Decidable (Shared t c id) := by unfold Shared; infer_instance

/-- What files want behind a step. -/
def wants (t : State) (want : Want) : Op → Want
  | .netifopen .. => want
  | .netifwrite c a =>
    match t.chan c with
    | none => want
    | some path =>
      if NETTYPE path ≠ Nctlqid then want
      else
        match asked t.nif (cstr a) with
        | none => want
        | some (addr, true) => want.put (NETID path) addr (want (NETID path) addr + 1)
        | some (addr, false) => want.put (NETID path) addr 0
  | .netifclose c =>
    match t.chan c with
    | none => want
    | some path =>
      if isfile path ∧ ¬ Shared t c (NETID path) then
        Function.update want (NETID path) fun _ => 0
      else want

/-- The driver was last told to receive an address. -/
def listening (told : List Told) (addr : List ℕ) : Bool :=
  told.foldl (fun b m =>
    match m with
    | .multicast a on => if a = addr then on else b
    | _ => b) false

/-- A file that is open wants an address. -/
def Needed (t : State) (want : Want) (addr : List ℕ) : Prop :=
  ∃ id, (∃ c < t.nchan, 0 < opens id (t.chan c)) ∧ 0 < want id addr

/-- What is received is what files want. -/
structure Filtered (t : State) (want : Want) : Prop where
  active : ∀ addr, activemulti t.nif addr = true ↔ Needed t want addr
  told : ∀ addr, listening t.nif.told addr = true ↔ Needed t want addr

/-- No open is refused behind its file; an address is removed by a file that has added it once, or
when no file wants it; and a file whose last channel is closed wants no address but the first that
is known, and has added it once. -/
def Fair (eve : List Char) (t : State) (want : Want) : Op → Prop
  | .netifopen _ path omode user memory => Lets eve t.nif path omode user memory
  | .netifwrite c a => ∀ path ∈ t.chan c, NETTYPE path = Nctlqid →
      ∀ r ∈ asked t.nif (cstr a), r.2 = false →
        want (NETID path) r.1 = 1 ∨ ∀ id < t.nif.nfile, want id r.1 = 0
  | .netifclose c => ∀ path ∈ t.chan c, isfile path → ¬ Shared t c (NETID path) →
      ∀ ap ∈ t.nif.maddr, 0 < want (NETID path) ap.addr →
        want (NETID path) ap.addr = 1 ∧ (t.nif.maddr[0]?).map Netaddr.addr = some ap.addr

instance (eve : List Char) (t : State) (want : Want) (op : Op) :
    Decidable (Fair eve t want op) := by
  cases op <;> unfold Fair <;> infer_instance

/-! ### Addresses and their counts -/

variable {nif nif' : Netif} {t t' : State} {f g : Netfile} {id i c path : ℕ} {want : Want}
  {eve : List Char} {a addr : List ℕ}

/-- The counts, the chains and the bits of an interface whose files want something. -/
structure Multi (nif : Netif) (want : Want) : Prop where
  nodup : (nif.maddr.map Netaddr.addr).Nodup
  hashed : ∀ i ap, nif.maddr[i]? = some ap → i ∈ nif.mhash (hash ap.addr)
  chained : ∀ h, ∀ i ∈ nif.mhash h, i < nif.maddr.length
  ref : ∀ ap ∈ nif.maddr, ap.ref = tally nif.nfile (fun w => w ap.addr) want
  known : ∀ id addr, 0 < want id addr → addr ∈ nif.maddr.map Netaddr.addr
  range : ∀ id addr, 0 < want id addr → id < nif.nfile
  bits : ∀ id i, (nif.file id).maddr i = true ↔
    i < 64 ∧ ∃ ap, nif.maddr[i]? = some ap ∧ 0 < want id ap.addr
  nmaddr : ∀ id, (nif.file id).nmaddr = tally 64 Bool.toNat (nif.file id).maddr
  told : ∀ addr, listening nif.told addr = true ↔ ∃ ap ∈ nif.maddr, ap.addr = addr ∧ ap.ref ≠ 0

/-- An address is active when it is known and has a count. -/
theorem Multi.active (h : Multi nif want) (addr : List ℕ) :
    activemulti nif addr = true ↔ ∃ ap ∈ nif.maddr, ap.addr = addr ∧ ap.ref ≠ 0 := by
  unfold activemulti
  cases hfind : (nif.mhash (hash addr)).find? fun i =>
      (nif.maddr[i]?).map Netaddr.addr = some addr with
  | none =>
    refine iff_of_false Bool.false_ne_true ?_
    rintro ⟨ap, hap, rfl, -⟩
    obtain ⟨i, hi⟩ := List.mem_iff_getElem?.mp hap
    have hno := List.find?_eq_none.mp hfind i (h.hashed i ap hi)
    rw [hi] at hno
    exact hno (decide_eq_true rfl)
  | some i =>
    have hi := List.find?_some hfind
    rw [decide_eq_true_eq] at hi
    obtain ⟨ap, hap, haddr⟩ := Option.map_eq_some_iff.mp hi
    dsimp only
    rw [hap, Option.any_some, decide_eq_true_eq]
    constructor
    · intro href
      exact ⟨ap, List.mem_of_getElem? hap, haddr, href⟩
    · rintro ⟨ap', hap', haddr', href⟩
      obtain ⟨j, hj⟩ := List.mem_iff_getElem?.mp hap'
      have hij : i = j := by
        refine (List.getElem?_inj ?_ h.nodup).mp ?_
        · rw [List.length_map]
          exact (List.getElem?_eq_some_iff.mp hap).1
        · rw [List.getElem?_map, List.getElem?_map, hap, hj, Option.map_some, Option.map_some,
            haddr, haddr']
      rw [hij, hj] at hap
      exact Option.some.inj hap ▸ href

/-- An address has a count when some file wants it. -/
theorem Multi.ref_iff (h : Multi nif want) (addr : List ℕ) :
    (∃ ap ∈ nif.maddr, ap.addr = addr ∧ ap.ref ≠ 0) ↔ ∃ id, 0 < want id addr := by
  constructor
  · rintro ⟨ap, hap, rfl, href⟩
    rw [h.ref ap hap] at href
    have hpos : 0 < tally nif.nfile (fun w => w ap.addr) want := by omega
    obtain ⟨id, -, hid⟩ := tally_pos_iff.mp hpos
    exact ⟨id, hid⟩
  · rintro ⟨id, hid⟩
    obtain ⟨ap, hap, rfl⟩ := List.mem_map.mp (h.known id addr hid)
    refine ⟨ap, hap, rfl, ?_⟩
    have hle := le_tally (fun w : List ℕ → ℕ => w ap.addr) want (h.range id _ hid)
    rw [h.ref ap hap]
    omega

theorem listening_append (told : List Told) (m : Told) (addr : List ℕ) :
    listening (told ++ [m]) addr =
      match m with
      | .multicast a on => if a = addr then on else listening told addr
      | _ => listening told addr := by
  unfold listening
  rw [List.foldl_append]
  cases m <;> rfl

theorem place_of_mem (h : addr ∈ nif.maddr.map Netaddr.addr) :
    ∃ ap, nif.maddr[nif.place addr]? = some ap ∧ ap.addr = addr := by
  obtain ⟨ap, hap, rfl⟩ := List.mem_map.mp h
  have hlt : nif.place ap.addr < nif.maddr.length :=
    List.findIdx_lt_length.mpr ⟨ap, hap, decide_eq_true rfl⟩
  exact ⟨_, List.getElem?_eq_getElem hlt, of_decide_eq_true (List.findIdx_getElem (w := hlt))⟩

theorem place_of_not_mem (h : addr ∉ nif.maddr.map Netaddr.addr) :
    nif.place addr = nif.maddr.length := by
  refine List.findIdx_eq_length.mpr fun ap hap => decide_eq_false ?_
  rintro rfl
  exact h (List.mem_map_of_mem hap)

theorem nmaddr_mark (h : f.nmaddr = tally 64 Bool.toNat f.maddr) (i : ℕ) :
    (f.mark i).nmaddr = tally 64 Bool.toNat (f.mark i).maddr := by
  unfold Netfile.mark
  split
  · rename_i hi
    have := tally_update Bool.toNat f.maddr hi true
    dsimp only
    cases hb : f.maddr i <;> rw [hb] at this <;> simp at this ⊢ <;> omega
  · exact h

theorem nmaddr_unmark (h : f.nmaddr = tally 64 Bool.toNat f.maddr) (i : ℕ) :
    (f.unmark i).nmaddr = tally 64 Bool.toNat (f.unmark i).maddr := by
  unfold Netfile.unmark
  split
  · rename_i hi
    have := tally_update Bool.toNat f.maddr hi false
    dsimp only
    cases hb : f.maddr i <;> rw [hb] at this <;> simp at this ⊢ <;> omega
  · exact h

theorem put_self (want : Want) (id : ℕ) (addr : List ℕ) (n : ℕ) :
    want.put id addr n id addr = n := by
  rw [Want.put, Function.update_self, Function.update_self]

theorem put_of_ne {j n : ℕ} (h : j ≠ id ∨ a ≠ addr) : want.put id addr n j a = want j a := by
  unfold Want.put
  by_cases hj : j = id
  · subst hj
    rw [Function.update_self, Function.update_of_ne (h.resolve_left (absurd rfl))]
  · rw [Function.update_of_ne hj]

/-- The count of a known address changes with what a file wants. -/
theorem Multi.set (h : Multi nif want) {ap : Netaddr} (hap : nif.maddr[i]? = some ap)
    (hid : id < nif.nfile) (n : ℕ) (hf : nif'.f = Function.update nif.f id (some g))
    (hmaddr : nif'.maddr = nif.maddr.set i { ap with ref := ap.ref + n - want id ap.addr })
    (hhash : nif'.mhash = nif.mhash) (hnfile : nif'.nfile = nif.nfile)
    (hbits : ∀ j, g.maddr j = if j = i ∧ i < 64 then decide (0 < n) else (nif.file id).maddr j)
    (hnm : g.nmaddr = tally 64 Bool.toNat g.maddr)
    (htold : ∀ a, listening nif'.told a =
      if a = ap.addr then decide (ap.ref + n - want id ap.addr ≠ 0) else listening nif.told a) :
    Multi nif' (want.put id ap.addr n) := by
  have hlt : i < nif.maddr.length := (List.getElem?_eq_some_iff.mp hap).1
  have hget (j : ℕ) (ap' : Netaddr) (hj : nif'.maddr[j]? = some ap') :
      (j = i ∧ ap' = { ap with ref := ap.ref + n - want id ap.addr }) ∨
        j ≠ i ∧ nif.maddr[j]? = some ap' := by
    rw [hmaddr, List.getElem?_set] at hj
    split_ifs at hj with hij
    · exact .inl ⟨hij.symm, (Option.some.inj hj).symm⟩
    · exact .inr ⟨fun h => hij h.symm, hj⟩
  have hself : nif'.maddr[i]? = some { ap with ref := ap.ref + n - want id ap.addr } := by
    rw [hmaddr, List.getElem?_set, if_pos rfl, if_pos hlt]
  have hothers {j : ℕ} (hj : j ≠ i) : nif'.maddr[j]? = nif.maddr[j]? := by
    rw [hmaddr, List.getElem?_set, if_neg hj.symm]
  have hmap : nif'.maddr.map Netaddr.addr = nif.maddr.map Netaddr.addr := by
    refine List.ext_getElem? fun j => ?_
    rw [List.getElem?_map, List.getElem?_map]
    by_cases hj : j = i
    · rw [hj, hself, hap]
      rfl
    · rw [hothers hj]
  have hne {j : ℕ} {ap' : Netaddr} (hj : j ≠ i) (hap' : nif.maddr[j]? = some ap') :
      ap'.addr ≠ ap.addr := by
    intro heq
    refine hj ((List.getElem?_inj ?_ h.nodup).mp ?_)
    · rw [List.length_map]
      exact (List.getElem?_eq_some_iff.mp hap').1
    · rw [List.getElem?_map, List.getElem?_map, hap, hap', Option.map_some, Option.map_some, heq]
  have hfile (j : ℕ) : nif'.file j = if j = id then g else nif.file j := by
    unfold Netif.file
    rw [hf, Function.update_apply]
    split_ifs <;> rfl
  have hwant (j : ℕ) : want.put id ap.addr n j ap.addr = if j = id then n else want j ap.addr := by
    split_ifs with hj
    · rw [hj, put_self]
    · exact put_of_ne (.inl hj)
  have hlist : ∀ a, (∃ ap' ∈ nif'.maddr, ap'.addr = a ∧ ap'.ref ≠ 0) ↔
      if a = ap.addr then ap.ref + n - want id ap.addr ≠ 0
        else ∃ ap' ∈ nif.maddr, ap'.addr = a ∧ ap'.ref ≠ 0 := by
    intro a
    split_ifs with ha
    · constructor
      · rintro ⟨ap', hap', haddr, href⟩
        obtain ⟨j, hj⟩ := List.mem_iff_getElem?.mp hap'
        rcases hget j ap' hj with ⟨-, rfl⟩ | ⟨hji, hj⟩
        · exact href
        · exact absurd (haddr.trans ha) (hne hji hj)
      · exact fun href => ⟨_, List.mem_of_getElem? hself, ha.symm, href⟩
    · constructor
      · rintro ⟨ap', hap', haddr, href⟩
        obtain ⟨j, hj⟩ := List.mem_iff_getElem?.mp hap'
        rcases hget j ap' hj with ⟨-, rfl⟩ | ⟨-, hj⟩
        · exact absurd haddr.symm ha
        · exact ⟨ap', List.mem_of_getElem? hj, haddr, href⟩
      · rintro ⟨ap', hap', haddr, href⟩
        obtain ⟨j, hj⟩ := List.mem_iff_getElem?.mp hap'
        have hji : j ≠ i := by
          rintro rfl
          rw [hap] at hj
          obtain rfl := Option.some.inj hj
          exact ha haddr.symm
        exact ⟨ap', List.mem_of_getElem? ((hothers hji).trans hj), haddr, href⟩
  constructor
  · rw [hmap]
    exact h.nodup
  · intro j ap' hj
    rw [hhash]
    rcases hget j ap' hj with ⟨rfl, rfl⟩ | ⟨-, hj⟩
    · exact h.hashed _ ap hap
    · exact h.hashed j ap' hj
  · intro b j hj
    rw [hhash] at hj
    rw [hmaddr, List.length_set]
    exact h.chained b j hj
  · intro ap' hap'
    obtain ⟨j, hj⟩ := List.mem_iff_getElem?.mp hap'
    rw [hnfile]
    rcases hget j ap' hj with ⟨-, rfl⟩ | ⟨hji, hj⟩
    · have hup := tally_update (fun w => w ap.addr) want hid (Function.update (want id) ap.addr n)
      have hold := h.ref ap (List.mem_of_getElem? hap)
      have hput : tally nif.nfile (fun w => w ap.addr) (want.put id ap.addr n) + want id ap.addr =
          tally nif.nfile (fun w => w ap.addr) want + n := by
        rw [Function.update_self] at hup
        exact hup
      dsimp only
      omega
    · rw [h.ref ap' (List.mem_of_getElem? hj)]
      refine congrArg Nat.cast (tally_congr fun k _ => ?_)
      exact (put_of_ne (.inr (hne hji hj))).symm
  · intro k a hk
    rw [hmap]
    by_cases ha : a = ap.addr
    · exact ha ▸ List.mem_map_of_mem (List.mem_of_getElem? hap)
    · rw [put_of_ne (.inr ha)] at hk
      exact h.known k a hk
  · intro k a hk
    rw [hnfile]
    by_cases hkid : k = id
    · exact hkid ▸ hid
    · rw [put_of_ne (.inl hkid)] at hk
      exact h.range k a hk
  · intro k j
    rw [hfile]
    by_cases hj : j = i
    · subst hj
      have hiff : (∃ ap', nif'.maddr[j]? = some ap' ∧ 0 < want.put id ap.addr n k ap'.addr) ↔
          0 < want.put id ap.addr n k ap.addr := by
        rw [hself]
        constructor
        · rintro ⟨ap', hap', hpos⟩
          obtain rfl := Option.some.inj hap'
          exact hpos
        · exact fun hpos => ⟨_, rfl, hpos⟩
      have hold := h.bits k j
      rw [hap] at hold
      rw [hiff, hwant]
      split_ifs with hk
      · rw [hbits]
        by_cases h64 : j < 64
        · rw [if_pos ⟨rfl, h64⟩, decide_eq_true_eq]
          exact ⟨fun hn => ⟨h64, hn⟩, And.right⟩
        · rw [if_neg fun hc => h64 hc.2]
          rw [hk] at hold
          rw [hold]
          exact ⟨fun hc => absurd hc.1 h64, fun hc => absurd hc.1 h64⟩
      · rw [hold]
        refine and_congr_right fun _ => ?_
        exact ⟨fun ⟨ap', hap', hpos⟩ => Option.some.inj hap' ▸ hpos, fun hpos => ⟨_, rfl, hpos⟩⟩
    · rw [hothers hj]
      have hsame : (if k = id then g else nif.file k).maddr j = (nif.file k).maddr j := by
        split_ifs with hk
        · rw [hbits, if_neg fun hc => hj hc.1, hk]
        · rfl
      rw [hsame, h.bits]
      refine and_congr_right fun _ => exists_congr fun ap' => and_congr_right fun hap' => ?_
      rw [put_of_ne (.inr (hne hj hap'))]
  · intro k
    rw [hfile]
    split_ifs
    · exact hnm
    · exact h.nmaddr k
  · intro a
    rw [hlist, htold]
    split_ifs
    · exact decide_eq_true_iff
    · exact h.told a

/-- An address becomes known. -/
theorem Multi.append (h : Multi nif want) (hno : addr ∉ nif.maddr.map Netaddr.addr) :
    Multi { nif with
      maddr := nif.maddr ++ [{ addr := addr, ref := 0 }]
      mhash := Function.update nif.mhash (hash addr)
        (nif.maddr.length :: nif.mhash (hash addr)) } want := by
  have hzero (id : ℕ) : want id addr = 0 := by
    by_contra hne
    exact hno (h.known id addr (Nat.pos_of_ne_zero hne))
  have hget {i : ℕ} {ap : Netaddr}
      (hi : (nif.maddr ++ [{ addr := addr, ref := 0 }])[i]? = some ap) :
      nif.maddr[i]? = some ap ∨ i = nif.maddr.length ∧ ap = { addr := addr, ref := 0 } := by
    rcases Nat.lt_or_ge i nif.maddr.length with hlt | hge
    · rw [List.getElem?_append_left hlt] at hi
      exact .inl hi
    · rw [List.getElem?_append_right hge] at hi
      obtain ⟨h0, hi⟩ := List.getElem?_eq_some_iff.mp hi
      rw [List.length_singleton] at h0
      rw [List.getElem_singleton] at hi
      exact .inr ⟨by omega, hi.symm⟩
  have hold {i : ℕ} {ap : Netaddr} (hi : nif.maddr[i]? = some ap) :
      (nif.maddr ++ [{ addr := addr, ref := 0 }])[i]? = some ap := by
    rw [List.getElem?_append_left (List.getElem?_eq_some_iff.mp hi).1]
    exact hi
  refine ⟨?_, fun i ap hi => ?_, fun b i hi => ?_, fun ap hap => ?_, fun id a ha => ?_, h.range,
    fun id i => ?_, h.nmaddr, fun a => ?_⟩
  · dsimp only
    rw [List.map_append, List.map_singleton]
    refine List.nodup_append.mpr ⟨h.nodup, List.pairwise_singleton _ _, fun x hx y hy => ?_⟩
    rintro rfl
    have hxa : x = addr := List.mem_singleton.mp hy
    exact hno (hxa ▸ hx)
  · dsimp only
    rw [Function.update_apply]
    rcases hget hi with hi | ⟨rfl, rfl⟩
    · split_ifs with hh
      · exact List.mem_cons_of_mem _ (hh ▸ h.hashed i ap hi)
      · exact h.hashed i ap hi
    · rw [if_pos rfl]
      exact List.mem_cons_self
  · dsimp only at hi ⊢
    rw [List.length_append, List.length_singleton]
    rw [Function.update_apply] at hi
    split_ifs at hi with hh
    · rcases List.mem_cons.mp hi with rfl | hi
      · exact Nat.lt_succ_self _
      · exact Nat.lt_succ_of_lt (h.chained _ i hi)
    · exact Nat.lt_succ_of_lt (h.chained _ i hi)
  · rcases List.mem_append.mp hap with hap | hap
    · exact h.ref ap hap
    · rw [List.mem_singleton.mp hap]
      dsimp only
      rw [tally_eq_zero_iff.mpr fun id _ => hzero id]
      rfl
  · dsimp only
    rw [List.map_append]
    exact List.mem_append_left _ (h.known id a ha)
  · have hbits := h.bits id i
    refine Iff.trans hbits (and_congr_right fun _ => ?_)
    constructor
    · rintro ⟨ap, hap, hpos⟩
      exact ⟨ap, hold hap, hpos⟩
    · rintro ⟨ap, hap, hpos⟩
      rcases hget hap with hap | ⟨-, rfl⟩
      · exact ⟨ap, hap, hpos⟩
      · rw [hzero] at hpos
        exact absurd hpos (lt_irrefl 0)
  · refine (h.told a).trans ?_
    constructor
    · rintro ⟨ap, hap, haddr, href⟩
      exact ⟨ap, List.mem_append_left _ hap, haddr, href⟩
    · rintro ⟨ap, hap, haddr, href⟩
      rcases List.mem_append.mp hap with hap | hap
      · exact ⟨ap, hap, haddr, href⟩
      · rw [List.mem_singleton.mp hap] at href
        exact absurd rfl href

theorem maddr_mark (f : Netfile) (i j : ℕ) :
    (f.mark i).maddr j = if j = i ∧ i < 64 then true else f.maddr j := by
  unfold Netfile.mark
  by_cases hi : i < 64
  · rw [if_pos hi]
    dsimp only
    rw [Function.update_apply]
    simp only [hi, and_true]
  · rw [if_neg hi, if_neg fun hc => hi hc.2]

theorem maddr_unmark (f : Netfile) (i j : ℕ) :
    (f.unmark i).maddr j = if j = i ∧ i < 64 then false else f.maddr j := by
  unfold Netfile.unmark
  by_cases hi : i < 64
  · rw [if_pos hi]
    dsimp only
    rw [Function.update_apply]
    simp only [hi, and_true]
  · rw [if_neg hi, if_neg fun hc => hi hc.2]

theorem Multi.ref_nonneg (h : Multi nif want) {ap : Netaddr} (hap : ap ∈ nif.maddr) :
    0 ≤ ap.ref := by
  rw [h.ref ap hap]
  exact Int.natCast_nonneg _

/-- The driver is told of an address. -/
theorem listening_known (h : Multi nif want) {ap : Netaddr} (hap : nif.maddr[i]? = some ap) :
    listening nif.told ap.addr = decide (ap.ref ≠ 0) := by
  have hmem := List.mem_of_getElem? hap
  refine Bool.eq_iff_iff.mpr ((h.told ap.addr).trans ?_)
  rw [decide_eq_true_eq]
  constructor
  · rintro ⟨ap', hap', haddr, href⟩
    have hget := (h.active ap.addr).mpr ⟨ap', hap', haddr, href⟩
    obtain ⟨j, hj⟩ := List.mem_iff_getElem?.mp hap'
    have hij : j = i := by
      refine (List.getElem?_inj ?_ h.nodup).mp ?_
      · rw [List.length_map]
        exact (List.getElem?_eq_some_iff.mp hj).1
      · rw [List.getElem?_map, List.getElem?_map, hap, hj, Option.map_some, Option.map_some, haddr]
    rw [hij, hap] at hj
    exact Option.some.inj hj ▸ href
  · exact fun href => ⟨ap, hmem, rfl, href⟩

/-- The count of a known address goes up. -/
theorem Multi.raise (h : Multi nif want) (hf : nif.f id = some f) {ap : Netaddr}
    (hap : nif.maddr[i]? = some ap) (hid : id < nif.nfile)
    (hfile : nif'.f = Function.update nif.f id (some (f.mark i)))
    (hmaddr : nif'.maddr = nif.maddr.set i { ap with ref := ap.ref + 1 })
    (hhash : nif'.mhash = nif.mhash) (hnfile : nif'.nfile = nif.nfile)
    (htold : nif'.told =
      if ap.ref + 1 = 1 then nif.told ++ [.multicast ap.addr true] else nif.told) :
    Multi nif' (want.put id ap.addr (want id ap.addr + 1)) := by
  have href : ap.ref + (want id ap.addr + 1 : ℕ) - want id ap.addr = ap.ref + 1 := by omega
  have hpos := h.ref_nonneg (List.mem_of_getElem? hap)
  have hnm := h.nmaddr id
  rw [file_eq hf] at hnm
  refine h.set hap hid _ hfile (by rw [href]; exact hmaddr) hhash hnfile (fun j => ?_)
    (nmaddr_mark hnm i) fun a => ?_
  · rw [maddr_mark, file_eq hf]
    simp only [Nat.succ_pos, decide_true]
  · rw [href, htold]
    have hne : ap.ref + 1 ≠ 0 := by omega
    by_cases hone : ap.ref + 1 = 1
    · rw [if_pos hone, listening_append]
      simp only [decide_eq_true hne, eq_comm (a := a)]
    · rw [if_neg hone]
      split_ifs with ha
      · rw [ha, listening_known h hap, decide_eq_true hne]
        exact decide_eq_true (by omega)
      · rfl

/-- A file adds an address. -/
theorem Multi.addmulti (h : Multi nif want) (hf : nif.f id = some f) (hid : id < nif.nfile)
    (addr : List ℕ) : Multi (addmulti nif id f addr) (want.put id addr (want id addr + 1)) := by
  by_cases hmem : addr ∈ nif.maddr.map Netaddr.addr
  · obtain ⟨ap, hap, rfl⟩ := place_of_mem hmem
    have hlt := (List.getElem?_eq_some_iff.mp hap).1
    refine h.raise hf hap hid (filed_addmulti nif id f ap.addr).f ?_ ?_
      (filed_addmulti nif id f ap.addr).nfile ?_
    all_goals
      unfold Netdev.addmulti
      dsimp only
      rw [hap]
      dsimp only
      rw [List.getElem?_set, if_pos rfl, if_pos hlt, Option.any_some]
      simp only [decide_eq_true_eq]
      unfold Netif.setFile Netif.tell
      dsimp only
      split <;> rfl
  · have hplace := place_of_not_mem hmem
    have happ := h.append hmem
    set nif₁ : Netif := { nif with
      maddr := nif.maddr ++ [{ addr := addr, ref := 0 }]
      mhash := Function.update nif.mhash (hash addr)
        (nif.maddr.length :: nif.mhash (hash addr)) } with hnif₁
    have hap : nif₁.maddr[nif.maddr.length]? = some { addr := addr, ref := 0 } :=
      List.getElem?_concat_length
    have hnone : nif.maddr[nif.maddr.length]? = none := List.getElem?_eq_none le_rfl
    have hfiled := filed_addmulti nif id f addr
    rw [hplace] at hfiled
    have hset : nif₁.maddr.set nif.maddr.length { addr := addr, ref := 0 + 1 } =
        nif.maddr ++ [{ addr := addr, ref := 1 }] := by
      rw [hnif₁]
      dsimp only
      rw [List.set_append_right _ _ le_rfl, Nat.sub_self]
      rfl
    have hsome : (nif.maddr ++ [{ addr := addr, ref := 1 }])[nif.maddr.length]? =
        some { addr := addr, ref := 1 } := List.getElem?_concat_length
    refine happ.raise (f := f) hf hap hid hfiled.f ?_ ?_ hfiled.nfile ?_
    · rw [hset]
      unfold Netdev.addmulti
      dsimp only
      rw [hplace, hnone]
      dsimp only
      rw [hsome, Option.any_some]
      rfl
    all_goals
      unfold Netdev.addmulti
      dsimp only
      rw [hplace, hnone]
      dsimp only
      rw [hsome, Option.any_some]
      rfl

/-- A file that has added an address once removes it. -/
theorem Multi.remmulti (h : Multi nif want) (hf : nif.f id = some f)
    (hone : want id addr = 1) : Multi (remmulti nif id f addr) (want.put id addr 0) := by
  have hpos : 0 < want id addr := by omega
  obtain ⟨ap, hap, rfl⟩ := place_of_mem (h.known id addr hpos)
  have hid := h.range id ap.addr hpos
  have hmem := List.mem_of_getElem? hap
  have hle := le_tally (fun w : List ℕ → ℕ => w ap.addr) want hid
  have href : 0 < ap.ref := by
    rw [h.ref ap hmem]
    omega
  have hnm := h.nmaddr id
  rw [file_eq hf] at hnm
  have hrem : Netdev.remmulti nif id f ap.addr =
      (let n : Netif := { nif with
        maddr := nif.maddr.set (nif.place ap.addr) { ap with ref := ap.ref - 1 } }
      let n : Netif :=
        if ap.ref - 1 = 0 then
          Netif.tell { n with nmaddr := n.nmaddr - 1 } (.multicast ap.addr false)
        else n
      n.setFile id (f.unmark (nif.place ap.addr))) := by
    unfold Netdev.remmulti
    dsimp only
    rw [hap]
    dsimp only
    rw [if_neg href.ne']
  have hcount : ap.ref + (0 : ℕ) - want id ap.addr = ap.ref - 1 := by omega
  refine h.set (g := f.unmark (nif.place ap.addr)) hap hid 0 ?_ ?_ ?_ ?_ (fun j => ?_)
    (nmaddr_unmark hnm _) fun a => ?_
  · rw [hrem]
    unfold Netif.setFile Netif.tell
    dsimp only
    split <;> rfl
  · rw [hrem, hcount]
    unfold Netif.setFile Netif.tell
    dsimp only
    split <;> rfl
  · rw [hrem]
    unfold Netif.setFile Netif.tell
    dsimp only
    split <;> rfl
  · rw [hrem]
    unfold Netif.setFile Netif.tell
    dsimp only
    split <;> rfl
  · rw [maddr_unmark, file_eq hf]
    rfl
  · rw [hrem, hcount]
    unfold Netif.setFile Netif.tell
    dsimp only
    split
    · rename_i hzero
      dsimp only
      rw [listening_append]
      simp only [hzero, ne_eq, not_true_eq_false, decide_false, eq_comm (a := a)]
    · rename_i hzero
      dsimp only
      split_ifs with ha
      · rw [ha, listening_known h hap, decide_eq_true hzero]
        exact decide_eq_true href.ne'
      · rfl

/-- Nothing is removed that no file wants. -/
theorem Multi.remmulti_of_zero (h : Multi nif want) (hzero : ∀ id, want id addr = 0) (id : ℕ)
    (f : Netfile) : Netdev.remmulti nif id f addr = nif := by
  unfold Netdev.remmulti
  dsimp only
  split
  · rfl
  · rename_i ap hap
    have hmem := List.mem_of_getElem? hap
    have haddr : ap.addr = addr := by
      by_contra hne
      by_cases hin : addr ∈ nif.maddr.map Netaddr.addr
      · obtain ⟨ap', hap', haddr'⟩ := place_of_mem hin
        rw [hap] at hap'
        exact hne (Option.some.inj hap' ▸ haddr')
      · rw [place_of_not_mem hin, List.getElem?_eq_none le_rfl] at hap
        cases hap
    have href : ap.ref = 0 := by
      rw [h.ref ap hmem, haddr, tally_eq_zero_iff.mpr fun id _ => hzero id]
      rfl
    rw [if_pos href]

theorem put_eq_self {n : ℕ} (h : want id addr = n) : want.put id addr n = want := by
  funext j a
  by_cases hja : j ≠ id ∨ a ≠ addr
  · exact put_of_ne hja
  · rw [not_or, not_not, not_not] at hja
    obtain ⟨rfl, rfl⟩ := hja
    rw [put_self, h]

/-! ### What leaves the filter alone -/

/-- The addresses, the bits and what the driver was told of them stay. -/
structure Still (nif nif' : Netif) : Prop where
  maddr : nif'.maddr = nif.maddr
  mhash : nif'.mhash = nif.mhash
  nfile : nif'.nfile = nif.nfile
  alen : nif'.alen = nif.alen
  multicast : nif'.hasMulticast = nif.hasMulticast
  told : ∀ addr, listening nif'.told addr = listening nif.told addr
  bits : ∀ id, (nif'.file id).maddr = (nif.file id).maddr ∧
    (nif'.file id).nmaddr = (nif.file id).nmaddr

theorem Still.refl (nif : Netif) : Still nif nif :=
  ⟨rfl, rfl, rfl, rfl, rfl, fun _ => rfl, fun _ => ⟨rfl, rfl⟩⟩

theorem Still.trans {nif'' : Netif} (h : Still nif nif') (h' : Still nif' nif'') :
    Still nif nif'' :=
  ⟨h'.maddr.trans h.maddr, h'.mhash.trans h.mhash, h'.nfile.trans h.nfile, h'.alen.trans h.alen,
    h'.multicast.trans h.multicast, fun a => (h'.told a).trans (h.told a),
    fun id => ⟨(h'.bits id).1.trans (h.bits id).1, (h'.bits id).2.trans (h.bits id).2⟩⟩

theorem Multi.still (h : Multi nif want) (hs : Still nif nif') : Multi nif' want where
  nodup := hs.maddr ▸ h.nodup
  hashed := by
    rw [hs.maddr, hs.mhash]
    exact h.hashed
  chained := by
    rw [hs.maddr, hs.mhash]
    exact h.chained
  ref := by
    rw [hs.maddr, hs.nfile]
    exact h.ref
  known := by
    rw [hs.maddr]
    exact h.known
  range := by
    rw [hs.nfile]
    exact h.range
  bits id i := by
    rw [(hs.bits id).1, hs.maddr]
    exact h.bits id i
  nmaddr id := by
    rw [(hs.bits id).1, (hs.bits id).2]
    exact h.nmaddr id
  told addr := by
    rw [hs.told, hs.maddr]
    exact h.told addr

/-- A file changes, but not its bits, and the driver may be told something else. -/
theorem still_of_file (hf : nif'.f = Function.update nif.f id (some g))
    (hbits : g.maddr = (nif.file id).maddr) (hnm : g.nmaddr = (nif.file id).nmaddr)
    (hmaddr : nif'.maddr = nif.maddr) (hmhash : nif'.mhash = nif.mhash)
    (hnfile : nif'.nfile = nif.nfile) (halen : nif'.alen = nif.alen)
    (hmulti : nif'.hasMulticast = nif.hasMulticast)
    (htold : ∀ addr, listening nif'.told addr = listening nif.told addr) : Still nif nif' where
  maddr := hmaddr
  mhash := hmhash
  nfile := hnfile
  alen := halen
  multicast := hmulti
  told := htold
  bits j := by
    unfold Netif.file
    rw [hf, Function.update_apply]
    split_ifs with hj
    · rw [Option.getD_some, hj]
      exact ⟨hbits, hnm⟩
    · exact ⟨rfl, rfl⟩

theorem still_setFile (hbits : g.maddr = (nif.file id).maddr)
    (hnm : g.nmaddr = (nif.file id).nmaddr) : Still nif (nif.setFile id g) :=
  still_of_file rfl hbits hnm rfl rfl rfl rfl rfl fun _ => rfl

theorem still_counters (nif : Netif) (p s a : ℤ) :
    Still nif { nif with prom := p, scan := s, all := a } :=
  ⟨rfl, rfl, rfl, rfl, rfl, fun _ => rfl, fun _ => ⟨rfl, rfl⟩⟩

/-- The driver may be told of something else than an address. -/
theorem still_tell (nif : Netif) (P : Prop) [Decidable P] {m : Told}
    (hm : ∀ a on, m ≠ .multicast a on) : Still nif (if P then nif.tell m else nif) := by
  split
  · refine ⟨rfl, rfl, rfl, rfl, rfl, fun addr => ?_, fun _ => ⟨rfl, rfl⟩⟩
    rw [Netif.tell, listening_append]
    cases m with
    | multicast a on => exact absurd rfl (hm a on)
    | promiscuous on => rfl
    | scanbs n => rfl
  · exact .refl nif

/-- A file is set whose bits stay. -/
theorem Still.setFile (h : Still nif nif') (id : ℕ) (hbits : g.maddr = (nif.file id).maddr)
    (hnm : g.nmaddr = (nif.file id).nmaddr) : Still nif (nif'.setFile id g) :=
  h.trans (still_setFile (hbits.trans (h.bits id).1.symm) (hnm.trans (h.bits id).2.symm))

theorem still_unprom (hf : nif.f id = some f) : Still nif (unprom nif id f).1 := by
  unfold unprom
  split
  · refine Still.setFile ?_ _ (by rw [file_eq hf]) (by rw [file_eq hf])
    exact (still_counters nif (nif.prom - 1) nif.scan nif.all).trans (still_tell _ _ nofun)
  · exact .refl nif

theorem still_unscan (hf : nif.f id = some f) : Still nif (unscan nif id f).1 := by
  unfold unscan
  split
  · refine Still.setFile ?_ _ (by rw [file_eq hf]) (by rw [file_eq hf])
    exact (still_counters nif nif.prom (nif.scan - 1) nif.all).trans (still_tell _ _ nofun)
  · exact .refl nif

theorem dropmulti_of_clear (hf : nif.f id = some f) (h0 : f.maddr 0 = false)
    (addrs : List (List ℕ)) : dropmulti id nif addrs = nif := by
  induction addrs with
  | nil => rfl
  | cons addr addrs ih =>
    simp only [dropmulti, hf, h0]
    exact ih

theorem hasMulticast_remmulti (nif : Netif) (id : ℕ) (f : Netfile) (addr : List ℕ) :
    (remmulti nif id f addr).hasMulticast = nif.hasMulticast ∧
      (remmulti nif id f addr).alen = nif.alen := by
  unfold remmulti
  dsimp only
  split
  · exact ⟨rfl, rfl⟩
  · split
    · exact ⟨rfl, rfl⟩
    · unfold Netif.setFile Netif.tell
      dsimp only
      split <;> exact ⟨rfl, rfl⟩

theorem hasMulticast_addmulti (nif : Netif) (id : ℕ) (f : Netfile) (addr : List ℕ) :
    (addmulti nif id f addr).hasMulticast = nif.hasMulticast ∧
      (addmulti nif id f addr).alen = nif.alen := by
  unfold addmulti Netif.setFile Netif.tell
  dsimp only
  split <;> split <;> exact ⟨rfl, rfl⟩

/-- A file that wants nothing has no bits. -/
theorem Multi.idle (h : Multi nif want) (hzero : ∀ addr, want id addr = 0) :
    (∀ i, (nif.file id).maddr i = false) ∧ (nif.file id).nmaddr = 0 := by
  have hbits (i : ℕ) : (nif.file id).maddr i = false := by
    rw [Bool.eq_false_iff]
    intro hb
    obtain ⟨-, ap, -, hpos⟩ := (h.bits id i).mp hb
    rw [hzero] at hpos
    exact absurd hpos (lt_irrefl 0)
  refine ⟨hbits, ?_⟩
  rw [h.nmaddr, tally_eq_zero_iff.mpr fun i _ => by rw [hbits]; rfl]
  rfl

theorem clear_eq_self (hzero : ∀ addr, want id addr = 0) :
    Function.update want id (fun _ => 0) = want := by
  rw [Function.update_eq_self_iff]
  exact (funext hzero).symm

/-- The clean-up of a file that wants no address but the first one, and has added it once. -/
theorem Multi.unmulti (h : Multi nif want) (hf : nif.f id = some f)
    (hable : ∀ addr, 0 < want id addr → nif.hasMulticast = true)
    (hfirst : ∀ addr, 0 < want id addr →
      want id addr = 1 ∧ (nif.maddr[0]?).map Netaddr.addr = some addr) :
    Multi (unmulti nif id f).1 (Function.update want id fun _ => 0) ∧
      (unmulti nif id f).1.hasMulticast = nif.hasMulticast ∧
      (unmulti nif id f).1.alen = nif.alen := by
  by_cases hzero : ∀ addr, want id addr = 0
  · have hidle := (h.idle hzero).2
    rw [file_eq hf] at hidle
    rw [clear_eq_self hzero]
    unfold Netdev.unmulti
    rw [if_neg (not_not.mpr hidle)]
    exact ⟨h, rfl, rfl⟩
  · rw [not_forall] at hzero
    obtain ⟨addr, hne⟩ := hzero
    have hpos := Nat.pos_of_ne_zero hne
    obtain ⟨hone, h0⟩ := hfirst addr hpos
    obtain ⟨ap, hap, haddr⟩ := Option.map_eq_some_iff.mp h0
    have hbit : f.maddr 0 = true := by
      have := (h.bits id 0).mpr ⟨by decide, ap, hap, haddr ▸ hpos⟩
      rwa [file_eq hf] at this
    have hnm : f.nmaddr ≠ 0 := by
      have hnm := h.nmaddr id
      rw [file_eq hf] at hnm
      have hle := le_tally Bool.toNat f.maddr (show 0 < 64 by decide)
      rw [hbit, Bool.toNat_true] at hle
      omega
    have hmap : ∃ addrs, nif.maddr.map Netaddr.addr = addr :: addrs := by
      cases hm : nif.maddr with
      | nil =>
        rw [hm] at hap
        cases hap
      | cons ap' aps =>
        rw [hm] at hap
        obtain rfl := Option.some.inj hap
        exact ⟨_, congrArg (· :: _) haddr⟩
    obtain ⟨addrs, hmap⟩ := hmap
    have hrem := h.remmulti hf hone
    have hwant : want.put id addr 0 = Function.update want id fun _ => 0 := by
      unfold Want.put
      congr 1
      funext a
      rw [Function.update_apply]
      split_ifs with ha
      · rfl
      · by_contra hne'
        have := (hfirst a (Nat.pos_of_ne_zero hne')).2
        rw [h0] at this
        exact ha (Option.some.inj this).symm
    rw [hwant] at hrem
    have hclear (a : List ℕ) : (Function.update want id fun _ => 0) id a = 0 := by
      rw [Function.update_self]
    obtain ⟨hbits, hnm0⟩ := hrem.idle hclear
    obtain ⟨g, hg, -⟩ := filed_remmulti hf addr
    have hge := file_eq hg.self
    rw [hge] at hbits hnm0
    have hdrop : dropmulti id nif (nif.maddr.map Netaddr.addr) =
        Netdev.remmulti nif id f addr := by
      rw [hmap]
      simp only [dropmulti, hf, hbit, if_true, netmulti, hable addr hpos, Bool.not_true,
        Bool.false_eq_true, if_false]
      exact dropmulti_of_clear hg.self (hbits 0) addrs
    unfold Netdev.unmulti
    rw [if_pos hnm]
    dsimp only
    rw [hdrop, hg.self, Option.getD_some]
    refine ⟨hrem.still (still_setFile (by rw [hge]) (by rw [hge]; exact hnm0.symm)), ?_⟩
    exact hasMulticast_remmulti nif id f addr

/-- The last channel of a file is closed. -/
theorem Multi.lastclose (h : Multi nif want) (hf : nif.f id = some f)
    (hable : ∀ addr, 0 < want id addr → nif.hasMulticast = true)
    (hfirst : ∀ addr, 0 < want id addr →
      want id addr = 1 ∧ (nif.maddr[0]?).map Netaddr.addr = some addr) :
    Multi (lastclose nif id f) (Function.update want id fun _ => 0) ∧
      (lastclose nif id f).hasMulticast = nif.hasMulticast ∧
      (lastclose nif id f).alen = nif.alen := by
  unfold Netdev.lastclose
  dsimp only
  obtain ⟨h₁, e₁⟩ := moved_unprom hf
  have s₁ := still_unprom hf
  rw [e₁]
  obtain ⟨h₂, e₂⟩ := moved_unscan h₁.self rfl
  have s₂ := s₁.trans (still_unscan h₁.self)
  rw [e₂]
  obtain ⟨h₃, m₃, a₃⟩ := (h.still s₂).unmulti h₂.self (by rwa [s₂.multicast])
    (by rwa [s₂.maddr])
  obtain ⟨h₄, -⟩ := filed_unmulti h₂.self
  set n₃ := (Netdev.unmulti (unscan (unprom nif id f).1 id { f with prom := false }).1 id
    { { f with prom := false } with scan := 0 }).1
  set f₃ := (Netdev.unmulti (unscan (unprom nif id f).1 id { f with prom := false }).1 id
    { { f with prom := false } with scan := 0 }).2
  have hcount : Still n₃ (if f₃.type < 0 then { n₃ with all := n₃.all - 1 } else n₃) := by
    split
    · exact still_counters n₃ n₃.prom n₃.scan (n₃.all - 1)
    · exact .refl n₃
  have hset := hcount.setFile id
    (g := { f₃ with owner := [], type := 0, bridge := false, headersonly := false })
    (by rw [file_eq h₄.self]) (by rw [file_eq h₄.self])
  exact ⟨h₃.still hset, hset.multicast.trans (m₃.trans s₂.multicast),
    hset.alen.trans (a₃.trans s₂.alen)⟩

theorem still_admitfile (nif : Netif) (eve : List Char) (id path omode : ℕ) (user : List Char) :
    Still nif (admitfile nif eve id path omode user).1 := by
  unfold admitfile
  split
  · exact .refl nif
  · rename_i f hf
    obtain ⟨owner, mode, hg⟩ := netown_spec eve f user (omode % 8)
    have hset : Still nif (nif.setFile id (netown eve f user (omode % 8)).1) := by
      rw [hg]
      exact still_setFile (by rw [file_eq hf]) (by rw [file_eq hf])
    split
    · rename_i g hown
      rw [hown] at hset
      split <;> exact hset
    · rename_i g hown
      rw [hown] at hset
      exact hset

theorem still_openfile (nif : Netif) (eve : List Char) (id : Option ℕ) (user : List Char)
    (memory : Bool) : Still nif (openfile nif eve id user memory).1 := by
  unfold openfile
  split
  · split
    · exact .refl nif
    · rename_i f hf
      exact still_setFile (by rw [file_eq hf]) (by rw [file_eq hf])
  · split
    · exact .refl nif
    · rename_i id _
      split
      · exact .refl nif
      · obtain ⟨owner, mode, hg⟩ := netown_spec eve { (nif.f id).getD {} with inuse := 1 } user 0
        dsimp only
        rw [hg]
        exact still_setFile rfl rfl

theorem still_netifopen (nif : Netif) (eve : List Char) (path omode : ℕ) (user : List Char)
    (memory : Bool) : Still nif (netifopen nif eve path omode user memory).1 := by
  have hadmitfile {r : Netif × Except String ℕ} {n : Netif} {res : Except String ℕ}
      (hr : r = (n, res)) (hs : Still nif r.1) (id path : ℕ) :
      Still nif (admitfile n eve id path omode user).1 := by
    subst hr
    exact hs.trans (still_admitfile n eve id path omode user)
  unfold netifopen
  split
  · split <;> exact .refl nif
  · split
    · have hs := still_openfile nif eve (some (NETID path)) user memory
      split
      · rename_i hr
        exact hadmitfile hr hs _ _
      · rename_i hr
        rw [hr] at hs
        exact hs
    · split
      · have hs := still_openfile nif eve none user memory
        split
        · rename_i hr
          exact hadmitfile hr hs _ _
        · rename_i hr
          rw [hr] at hs
          exact hs
      · split <;> exact .refl nif

/-! ### Messages -/

/-- A message starts with one token. -/
theorem matchtoken_eq_none {p q : List Char} {s u : String} (h : matchtoken p s = some q)
    {x y : Char} {xs ys : List Char} (hs : s.toList = x :: xs) (hu : u.toList = y :: ys)
    (hxy : x ≠ y) : matchtoken p u = none := by
  unfold matchtoken at h ⊢
  split at h
  · rename_i hp
    rw [hs] at hp
    rw [if_neg]
    intro hp'
    rw [hu] at hp'
    cases p with
    | nil => exact Bool.false_ne_true hp
    | cons z p =>
      rw [List.isPrefixOf_cons_cons, Bool.and_eq_true, beq_iff_eq] at hp hp'
      exact hxy (hp.1.trans hp'.1.symm)
  · cases h

theorem message_of_addmulti {buf p : List Char} (h : matchtoken buf "addmulti" = some p) :
    (message nif id f buf).1 =
      match parseaddr nif.alen p with
      | none => nif
      | some binaddr => (netmulti nif id f binaddr true).1 := by
  have hno {u : String} {y : Char} {ys : List Char} (hu : u.toList = y :: ys) (hy : 'a' ≠ y) :
      matchtoken buf u = none := matchtoken_eq_none h (x := 'a') rfl hu hy
  have h1 : matchtoken buf "connect" = none := hno rfl (by decide)
  have h2 : matchtoken buf "promiscuous" = none := hno rfl (by decide)
  have h3 : matchtoken buf "scanbs" = none := hno rfl (by decide)
  have h4 : matchtoken buf "bridge" = none := hno rfl (by decide)
  have h5 : matchtoken buf "headersonly" = none := hno rfl (by decide)
  unfold message
  simp only [h, h1, h2, h3, h4, h5, Option.isSome_none, Bool.false_eq_true, if_false]
  cases parseaddr nif.alen p <;> rfl

theorem message_of_remmulti {buf p : List Char} (h : matchtoken buf "remmulti" = some p) :
    (message nif id f buf).1 =
      match parseaddr nif.alen p with
      | none => nif
      | some binaddr => (netmulti nif id f binaddr false).1 := by
  have hno {u : String} {y : Char} {ys : List Char} (hu : u.toList = y :: ys) (hy : 'r' ≠ y) :
      matchtoken buf u = none := matchtoken_eq_none h (x := 'r') rfl hu hy
  have h1 : matchtoken buf "connect" = none := hno rfl (by decide)
  have h2 : matchtoken buf "promiscuous" = none := hno rfl (by decide)
  have h3 : matchtoken buf "scanbs" = none := hno rfl (by decide)
  have h4 : matchtoken buf "bridge" = none := hno rfl (by decide)
  have h5 : matchtoken buf "headersonly" = none := hno rfl (by decide)
  have h6 : matchtoken buf "addmulti" = none := hno rfl (by decide)
  unfold message
  simp only [h, h1, h2, h3, h4, h5, h6, Option.isSome_none, Bool.false_eq_true, if_false]
  cases parseaddr nif.alen p <;> rfl

/-- Any other message leaves the filter alone. -/
theorem still_message (hf : nif.f id = some f) {buf : List Char}
    (hadd : matchtoken buf "addmulti" = none) (hrem : matchtoken buf "remmulti" = none) :
    Still nif (message nif id f buf).1 := by
  have hbits {g : Netfile} (hg : g.maddr = f.maddr) : g.maddr = (nif.file id).maddr := by
    rw [file_eq hf, hg]
  have hnm {g : Netfile} (hg : g.nmaddr = f.nmaddr) : g.nmaddr = (nif.file id).nmaddr := by
    rw [file_eq hf, hg]
  unfold message
  split
  · rename_i p _
    dsimp only
    split
    · exact .refl nif
    · have hset : Still nif (nif.setFile id { f with type := atoi p }) :=
        still_setFile (hbits rfl) (hnm rfl)
      dsimp only
      split
      · exact hset.trans (still_counters _ _ _ _)
      · exact hset
  · split
    · split
      · exact .refl nif
      · dsimp only
        have hset := (still_tell nif (nif.prom = 0 ∧ nif.hasPromiscuous = true)
          (m := .promiscuous true) nofun).setFile id (g := { f with prom := true })
          (hbits rfl) (hnm rfl)
        exact hset.trans (still_counters _ _ _ _)
    · split
      · rename_i p _
        split
        · dsimp only
          have hset := (still_tell nif (nif.hasScanbs = true) (m := .scanbs (max (atoi p) 5))
            nofun).setFile id (g := { f with scan := max (atoi p) 5 }) (hbits rfl) (hnm rfl)
          exact hset.trans (still_counters _ _ _ _)
        · exact .refl nif
      · split
        · exact still_setFile (hbits rfl) (hnm rfl)
        · split
          · exact still_setFile (hbits rfl) (hnm rfl)
          · rw [hadd, hrem]
            exact .refl nif

/-- What a message does to the filter. -/
theorem Multi.message (h : Multi nif want) (hf : nif.f id = some f) (hid : id < nif.nfile)
    (buf : List Char)
    (hfair : ∀ addr, asked nif buf = some (addr, false) → want id addr = 1 ∨ ∀ j, want j addr = 0) :
    let n := (message nif id f buf).1
    n.hasMulticast = nif.hasMulticast ∧ n.alen = nif.alen ∧
      match asked nif buf with
      | none => Multi n want
      | some (addr, true) => nif.hasMulticast = true ∧ Multi n (want.put id addr (want id addr + 1))
      | some (addr, false) => Multi n (want.put id addr 0) := by
  intro n
  cases hadd : matchtoken buf "addmulti" with
  | some p =>
    have hn : n = _ := message_of_addmulti hadd
    cases hm : nif.hasMulticast with
    | false =>
      have hask : asked nif buf = none := by
        unfold asked
        rw [hm]
        rfl
      have hnn : n = nif := by
        rw [hn]
        split
        · rfl
        · unfold netmulti
          rw [hm]
          rfl
      rw [hask, hnn]
      exact ⟨hm, rfl, h⟩
    | true =>
      have hask : asked nif buf = (parseaddr nif.alen p).map (·, true) := by
        unfold asked
        rw [hm, hadd]
        rfl
      cases hp : parseaddr nif.alen p with
      | none =>
        rw [hp] at hn hask
        rw [hask, hn]
        exact ⟨hm, rfl, h⟩
      | some addr =>
        have hnm : n = Netdev.addmulti nif id f addr := by
          rw [hn, hp]
          dsimp only
          unfold netmulti
          rw [hm]
          rfl
        rw [hp] at hask
        rw [hask, hnm]
        obtain ⟨h1, h2⟩ := hasMulticast_addmulti nif id f addr
        exact ⟨h1.trans hm, h2, rfl, h.addmulti hf hid addr⟩
  | none =>
    cases hrem : matchtoken buf "remmulti" with
    | none =>
      have hask : asked nif buf = none := by
        unfold asked
        rw [hadd, hrem]
        split <;> rfl
      have hs : Still nif n := still_message hf hadd hrem
      rw [hask]
      exact ⟨hs.multicast, hs.alen, h.still hs⟩
    | some p =>
      have hn : n = _ := message_of_remmulti hrem
      cases hm : nif.hasMulticast with
      | false =>
        have hask : asked nif buf = none := by
          unfold asked
          rw [hm]
          rfl
        have hnn : n = nif := by
          rw [hn]
          split
          · rfl
          · unfold netmulti
            rw [hm]
            rfl
        rw [hask, hnn]
        exact ⟨hm, rfl, h⟩
      | true =>
        have hask : asked nif buf = (parseaddr nif.alen p).map (·, false) := by
          unfold asked
          rw [hm, hadd, hrem]
          rfl
        cases hp : parseaddr nif.alen p with
        | none =>
          rw [hp] at hn hask
          rw [hask, hn]
          exact ⟨hm, rfl, h⟩
        | some addr =>
          have hnm : n = Netdev.remmulti nif id f addr := by
            rw [hn, hp]
            dsimp only
            unfold netmulti
            rw [hm]
            rfl
          rw [hp] at hask
          obtain ⟨h1, h2⟩ := hasMulticast_remmulti nif id f addr
          have hmulti : Multi (Netdev.remmulti nif id f addr) (want.put id addr 0) := by
            rcases hfair addr hask with hone | hzero
            · exact h.remmulti hf hone
            · rw [h.remmulti_of_zero hzero, put_eq_self (hzero id)]
              exact h
          rw [hask, hnm]
          exact ⟨h1.trans hm, h2, hmulti⟩

/-! ### Runs -/

/-- The filter and what files want. -/
structure Sound (t : State) (want : Want) : Prop where
  inv : Inv t
  counted : Counted t
  multi : Multi t.nif want
  able : ∀ id addr, 0 < want id addr → t.nif.hasMulticast = true
  opened : ∀ id addr, 0 < want id addr → ∃ c < t.nchan, 0 < opens id (t.chan c)

theorem Sound.filtered (h : Sound t want) : Filtered t want := by
  have hneeded (addr : List ℕ) : (∃ id, 0 < want id addr) ↔ Needed t want addr := by
    constructor
    · rintro ⟨id, hid⟩
      exact ⟨id, h.opened id addr hid, hid⟩
    · rintro ⟨id, -, hid⟩
      exact ⟨id, hid⟩
  constructor
  · intro addr
    rw [h.multi.active, h.multi.ref_iff, hneeded]
  · intro addr
    rw [h.multi.told, h.multi.ref_iff, hneeded]

theorem sound_open (h : Sound t want) {omode : ℕ} {user : List Char} {memory : Bool}
    (hlets : Lets eve t.nif path omode user memory)
    (ht : exec eve t (.netifopen c path omode user memory) = some t') : Sound t' want := by
  obtain ⟨hinv, hcount⟩ := (counted_open h.counted h.inv ht).1 hlets
  obtain ⟨hn, hlt, hc, hspec⟩ := open_spec h.inv ht
  have hs : Still t.nif t'.nif := by
    have := still_netifopen t.nif eve path omode user memory
    unfold exec at ht
    dsimp only at ht
    split at ht
    · split at ht
      · rename_i hr
        rw [hr] at this
        obtain rfl := Option.some.inj ht
        exact this
      · rename_i hr
        rw [hr] at this
        obtain rfl := Option.some.inj ht
        exact this
    · cases ht
  have hchan (d : ℕ) (hd : d ≠ c) : t'.chan d = t.chan d := by
    rcases hspec with ⟨-, -, hchan⟩ | ⟨_, _, -, -, -, -, -, -, hspec⟩
    · rcases hchan with hchan | ⟨q, -, hchan⟩
      · rw [hchan]
      · rw [hchan, Function.update_of_ne hd]
    · rcases hspec with ⟨-, q, -, -, hchan⟩ | ⟨-, hchan⟩
      · rw [hchan, Function.update_of_ne hd]
      · rw [hchan]
  refine ⟨hinv, hcount, h.multi.still hs, fun id addr hw => ?_, fun id addr hw => ?_⟩
  · rw [hs.multicast]
    exact h.able id addr hw
  · obtain ⟨d, hdlt, hd⟩ := h.opened id addr hw
    have hdc : d ≠ c := by
      rintro rfl
      rw [hc] at hd
      exact absurd hd (lt_irrefl 0)
    exact ⟨d, hn ▸ hdlt, by rwa [hchan d hdc]⟩

theorem sound_write (h : Sound t want) (hc : t.chan c = some path) {m : List Char}
    (hfair : ∀ addr, NETTYPE path = Nctlqid → asked t.nif (cstr m) = some (addr, false) →
      want (NETID path) addr = 1 ∨ ∀ id, want id addr = 0) :
    Sound { t with nif := (netifwrite t.nif path m).1 } (wants t want (.netifwrite c m)) := by
  obtain ⟨hinv, hcount⟩ := counted_write h.counted h.inv hc m
  have hwants : wants t want (.netifwrite c m) =
      if NETTYPE path ≠ Nctlqid then want
      else
        match asked t.nif (cstr m) with
        | none => want
        | some (addr, true) => want.put (NETID path) addr (want (NETID path) addr + 1)
        | some (addr, false) => want.put (NETID path) addr 0 := by
    dsimp only [wants]
    rw [hc]
  rcases write_spec h.counted h.inv hc m with ⟨hp, hnif⟩ | ⟨hp, f, g, _, _, _, hf, -, hnif, -⟩
  · rw [hwants, if_pos hp, hnif]
    exact h
  · rw [hwants, if_neg (not_not.mpr hp)]
    have hopen : 0 < opens (NETID path) (t.chan c) := by
      rw [hc]
      exact opens_pos (.inr hp)
    obtain ⟨hm, -, hmulti⟩ := h.multi.message hf (lt_of_file h.inv hf) (cstr m)
      fun addr hask => hfair addr hp hask
    rw [← hnif] at hm hmulti
    have hput {addr : List ℕ} {n : ℕ} (hn : 0 < n → t.nif.hasMulticast = true) :
        ∀ id a, 0 < want.put (NETID path) addr n id a →
          t.nif.hasMulticast = true ∧ ∃ c < t.nchan, 0 < opens id (t.chan c) := by
      intro id a hpos
      by_cases hida : id = NETID path ∧ a = addr
      · obtain ⟨rfl, rfl⟩ := hida
        rw [put_self] at hpos
        exact ⟨hn hpos, c, h.inv.chan c path hc, hopen⟩
      · rw [put_of_ne (not_and_or.mp hida)] at hpos
        exact ⟨h.able id a hpos, h.opened id a hpos⟩
    cases hask : asked t.nif (cstr m) with
    | none =>
      rw [hask] at hmulti
      refine ⟨hinv, hcount, hmulti, fun id a hpos => ?_, h.opened⟩
      exact hm.trans (h.able id a hpos)
    | some r =>
      obtain ⟨addr, add⟩ := r
      rw [hask] at hmulti
      cases add with
      | true =>
        obtain ⟨hable, hmulti⟩ := hmulti
        exact ⟨hinv, hcount, hmulti, fun id a hpos => hm.trans (hput (fun _ => hable) id a hpos).1,
          fun id a hpos => (hput (fun _ => hable) id a hpos).2⟩
      | false =>
        have hz : 0 < 0 → t.nif.hasMulticast = true := fun h => absurd h (lt_irrefl 0)
        exact ⟨hinv, hcount, hmulti, fun id a hpos => hm.trans (hput hz id a hpos).1,
          fun id a hpos => (hput hz id a hpos).2⟩

/-- The last channel of a file is closed when no other channel is open. -/
theorem inuse_eq_one_iff (h : Counted t) (hinv : Inv t) (hc : t.chan c = some path)
    (hp : isfile path) (hf : t.nif.f (NETID path) = some f) :
    f.inuse - 1 = 0 ↔ ¬ Shared t c (NETID path) := by
  have htally := tally_close hinv hc (NETID path)
  have hone : opens (NETID path) (some path) = 1 := if_pos ⟨hp, rfl⟩
  have hcount := h _ f hf
  have hzero : f.inuse - 1 = 0 ↔
      tally t.nchan (opens (NETID path)) (Function.update t.chan c none) = 0 := by omega
  rw [hzero, tally_eq_zero_iff]
  unfold Shared
  push Not
  refine forall_congr' fun d => forall_congr' fun _ => ?_
  by_cases hd : d = c
  · subst hd
    rw [Function.update_self]
    exact iff_of_true rfl fun hne => absurd rfl hne
  · rw [Function.update_of_ne hd]
    exact ⟨fun hz _ => hz.le, fun hz => Nat.le_zero.mp (hz hd)⟩

theorem sound_close (h : Sound t want) (hc : t.chan c = some path)
    (hfair : isfile path → ¬ Shared t c (NETID path) → ∀ addr, 0 < want (NETID path) addr →
      want (NETID path) addr = 1 ∧ (t.nif.maddr[0]?).map Netaddr.addr = some addr) :
    Sound { t with nif := netifclose t.nif path, chan := Function.update t.chan c none }
      (wants t want (.netifclose c)) := by
  obtain ⟨hinv, hcount⟩ := counted_close h.counted h.inv hc
  have hwants : wants t want (.netifclose c) =
      if isfile path ∧ ¬ Shared t c (NETID path) then
        Function.update want (NETID path) fun _ => 0
      else want := by
    dsimp only [wants]
    rw [hc]
  -- the channels of a file that keeps one
  have hopened {id : ℕ} {addr : List ℕ} (hpos : 0 < want id addr)
      (hid : isfile path → id = NETID path → Shared t c (NETID path)) :
      ∃ d < t.nchan, 0 < opens id (Function.update t.chan c none d) := by
    obtain ⟨d, hd, hopen⟩ := h.opened id addr hpos
    by_cases hdc : d = c
    · rw [hdc, hc] at hopen
      have hp : isfile path ∧ NETID path = id := by
        by_contra hno
        rw [opens, if_neg hno] at hopen
        exact absurd hopen (lt_irrefl 0)
      obtain ⟨d', hd', hne, hopen'⟩ := hid hp.1 hp.2.symm
      refine ⟨d', hd', ?_⟩
      rw [Function.update_of_ne hne, ← hp.2]
      exact hopen'
    · exact ⟨d, hd, by rwa [Function.update_of_ne hdc]⟩
  by_cases hp : isfile path
  · obtain ⟨f, hf⟩ := h.inv.file c path hc hp
    have hiff := inuse_eq_one_iff h.counted h.inv hc hp hf
    have hset : Still t.nif (t.nif.setFile (NETID path) { f with inuse := f.inuse - 1 }) :=
      still_setFile (by rw [file_eq hf]) (by rw [file_eq hf])
    have hself : (t.nif.setFile (NETID path) { f with inuse := f.inuse - 1 }).f (NETID path) =
        some { f with inuse := f.inuse - 1 } := Function.update_self _ _ _
    have hnif : netifclose t.nif path =
        if f.inuse - 1 = 0 then
          lastclose (t.nif.setFile (NETID path) { f with inuse := f.inuse - 1 }) (NETID path)
            { f with inuse := f.inuse - 1 }
        else t.nif.setFile (NETID path) { f with inuse := f.inuse - 1 } := by
      unfold netifclose
      rw [if_neg (not_not.mpr hp), hf]
    by_cases hsh : Shared t c (NETID path)
    · rw [if_neg fun h0 => hiff.mp h0 hsh] at hnif
      rw [hwants, if_neg fun hc => hc.2 hsh]
      refine ⟨hinv, hcount, ?_, fun id addr hpos => ?_, fun id addr hpos =>
        hopened hpos fun _ _ => hsh⟩
      · dsimp only
        rw [hnif]
        exact h.multi.still hset
      · dsimp only
        rw [hnif]
        exact h.able id addr hpos
    · rw [if_pos (hiff.mpr hsh)] at hnif
      rw [hwants, if_pos ⟨hp, hsh⟩]
      obtain ⟨hmulti, hm, -⟩ := (h.multi.still hset).lastclose hself
        (fun addr hpos => h.able _ addr hpos) (hfair hp hsh)
      rw [← hnif] at hmulti hm
      have hne {id : ℕ} {addr : List ℕ}
          (hpos : 0 < Function.update want (NETID path) (fun _ => 0) id addr) :
          id ≠ NETID path ∧ 0 < want id addr := by
        by_cases hid : id = NETID path
        · rw [hid, Function.update_self] at hpos
          exact absurd hpos (lt_irrefl 0)
        · rw [Function.update_of_ne hid] at hpos
          exact ⟨hid, hpos⟩
      refine ⟨hinv, hcount, hmulti, fun id addr hpos => ?_, fun id addr hpos => ?_⟩
      · exact hm.trans (h.able id addr (hne hpos).2)
      · exact hopened (hne hpos).2 fun _ hid => absurd hid (hne hpos).1
  · have hnif : netifclose t.nif path = t.nif := netifclose_of_not_isfile hp
    rw [hwants, if_neg fun hc => hp hc.1]
    rw [hnif] at hinv hcount ⊢
    exact ⟨hinv, hcount, h.multi, h.able, fun id addr hpos => hopened hpos fun hp' => absurd hp' hp⟩

/-- A step of an interface, and of what its files want. -/
def both (eve : List Char) (s : State × Want) (op : Op) : Option (State × Want) :=
  (exec eve s.1 op).map fun t => (t, wants s.1 s.2 op)

def Sounds (s : State × Want) : Prop := Sound s.1 s.2

/-- A fair step keeps the filter. -/
theorem sound_both (h : Sound t want) {op : Op} (hfair : Fair eve t want op)
    (ht : exec eve t op = some t') : Sound t' (wants t want op) := by
  cases op with
  | netifopen c path omode user memory => exact sound_open h hfair ht
  | netifwrite c m =>
    obtain ⟨path, hc, rfl⟩ := Option.map_eq_some_iff.mp ht
    refine sound_write h hc fun addr hp hask => (hfair path hc hp _ hask rfl).imp_right ?_
    intro hzero id
    by_contra hne
    have hpos := Nat.pos_of_ne_zero hne
    exact hne (hzero id (h.multi.range id addr hpos))
  | netifclose c =>
    obtain ⟨path, hc, rfl⟩ := Option.map_eq_some_iff.mp ht
    refine sound_close h hc fun hp hsh addr hpos => ?_
    obtain ⟨ap, hap, rfl⟩ := List.mem_map.mp (h.multi.known _ addr hpos)
    exact hfair path hc hp hsh ap hap hpos

theorem sound_netifinit (nfile nchan alen : ℕ) (promiscuous multicast scanbs : Bool) :
    Sound (netifinit nfile nchan promiscuous multicast scanbs alen) fun _ _ => 0 where
  inv := inv_netifinit _ _ _ _ _ _
  counted := (accounted_netifinit _ _ _ _ _ _).inuse
  multi := by
    refine ⟨List.nodup_nil, nofun, nofun, nofun, nofun, nofun, fun id i => ?_, fun id => ?_,
      fun addr => ?_⟩
    · refine iff_of_false Bool.false_ne_true ?_
      rintro ⟨-, ap, hap, -⟩
      cases hap
    · have : tally 64 Bool.toNat (fun _ => false) = 0 := tally_eq_zero_iff.mpr fun _ _ => rfl
      change (0 : ℤ) = tally 64 Bool.toNat fun _ => false
      rw [this]
      rfl
    · refine iff_of_false Bool.false_ne_true ?_
      rintro ⟨ap, hap, -⟩
      cases hap
  able _ _ h := absurd h (lt_irrefl 0)
  opened _ _ h := absurd h (lt_irrefl 0)

variable (nfile nchan alen : ℕ) (promiscuous multicast scanbs : Bool)

/-- In a run of fair steps from a new interface on, an address is active, and the driver was last
told to receive it, just when an open file has added it and not removed it since. -/
theorem filtered_of_run (eve : List Char) {s : State × Want}
    (hrun : Run (fun s op s' => both eve s op = some s') (fun s op => Fair eve s.1 s.2 op)
      (netifinit nfile nchan promiscuous multicast scanbs alen, fun _ _ => 0) s) :
    Filtered s.1 s.2 := by
  have hinit : Sounds (netifinit nfile nchan promiscuous multicast scanbs alen, fun _ _ => 0) :=
    sound_netifinit _ _ _ _ _ _
  have hsound : Sounds s := by
    refine hrun.invariant hinit ?_
    rintro ⟨t, want⟩ op s' h hfair hs'
    obtain ⟨t', ht, rfl⟩ := Option.map_eq_some_iff.mp hs'
    exact sound_both h hfair ht
  exact Sound.filtered hsound

/-- Two files add an address, and one of them is closed. -/
def shared : List Op :=
  [.netifopen 0 Ncloneqid 2 "glenda".toList true, .netifopen 1 Ncloneqid 2 "glenda".toList true,
    .netifwrite 0 "addmulti 01005e000001".toList, .netifwrite 1 "addmulti 01:00:5e:00:00:01".toList,
    .netifclose 0]

theorem filtered_shared : ∃ s : State × Want, activemulti s.1.nif [1, 0, 94, 0, 0, 1] = true ∧
    Filtered s.1 s.2 := by
  have hrun : (shared.foldlM (fun (s : State × Want) op =>
      if Fair "eve".toList s.1 s.2 op then both "eve".toList s op else none)
      (netifinit 2 2 true true true 6, fun _ _ => 0)).any
        (fun s => activemulti s.1.nif [1, 0, 94, 0, 0, 1]) = true := by
    decide +kernel
  obtain ⟨s, hs, hactive⟩ := (Option.any_eq_true _ _).mp hrun
  exact ⟨s, hactive, filtered_of_run 2 2 6 true true true "eve".toList (Run.of_foldlM_of_test hs)⟩

/-- Two addresses are added, and the file is closed. -/
def second : List Op :=
  [.netifopen 0 Ncloneqid 2 "glenda".toList true, .netifwrite 0 "addmulti 01005e000001".toList,
    .netifwrite 0 "addmulti 01005e000002".toList, .netifclose 0]

/-- The second address stays active. -/
theorem not_filtered_second : ¬ ∀ s, second.foldlM (both "eve".toList)
    (netifinit 1 1 true true true 6, fun _ _ => 0) = some s → Filtered s.1 s.2 := by
  have hrun : (second.foldlM (both "eve".toList)
      (netifinit 1 1 true true true 6, fun _ _ => 0)).any (fun s =>
        activemulti s.1.nif [1, 0, 94, 0, 0, 2] ∧ s.2 0 [1, 0, 94, 0, 0, 2] = 0 ∧
          s.1.nchan = 1 ∧ s.1.chan 0 = none) = true := by
    decide +kernel
  intro h
  obtain ⟨s, hs, hbad⟩ := (Option.any_eq_true _ _).mp hrun
  obtain ⟨hactive, -, hn, hchan⟩ := of_decide_eq_true hbad
  obtain ⟨id, ⟨c, hc, hopen⟩, -⟩ := ((h s hs).active _).mp hactive
  rw [hn] at hc
  obtain rfl : c = 0 := by omega
  rw [hchan] at hopen
  exact absurd hopen (lt_irrefl 0)

end PlanNine.Netdev
