import PlanNine.Port.Netif.Device

/-!
# The counters of a network interface

The counters of an interface and of its files say how many channels and files there are of a kind.
A ctl message raises them and the last close of a file lowers them, by what is set in the file.

## Main definitions

* `Accounted`: what the counters count.
* `Orderly`: the steps that keep them.

## Main results

* `counted_exec`: files count their channels, unless an open is refused.
* `accounted_exec`: a step keeps the counters, just when it is orderly.
* `counters_iff`: a run keeps the counters, just when its steps are orderly.
-/

namespace PlanNine.Netdev

variable {nif nif' : Netif} {t t' : State} {f g : Netfile} {id c path omode : ℕ}
  {eve user : List Char} {memory : Bool} {addr : List ℕ}

/-- A channel of the file `id`. -/
def opens (id : ℕ) : Option ℕ → ℕ
  | none => 0
  | some path => if isfile path ∧ NETID path = id then 1 else 0

/-- A file in use of a kind. -/
def used (P : Netfile → Bool) : Option Netfile → ℕ
  | none => 0
  | some f => if f.inuse ≠ 0 ∧ P f then 1 else 0

def isprom (f : Netfile) : Bool := f.prom

def isscan (f : Netfile) : Bool := f.scan ≠ 0

def isall (f : Netfile) : Bool := f.type < 0

/-- Files count their channels. -/
def Counted (t : State) : Prop :=
  ∀ id f, t.nif.f id = some f → f.inuse = tally t.nchan (opens id) t.chan

/-- What the counters count, and that types are in use once. -/
structure Accounted (t : State) : Prop where
  inuse : Counted t
  prom : t.nif.prom = tally t.nif.nfile (used isprom) t.nif.f
  scan : t.nif.scan = tally t.nif.nfile (used isscan) t.nif.f
  all : t.nif.all = tally t.nif.nfile (used isall) t.nif.f
  type : ∀ i j f g, t.nif.f i = some f → t.nif.f j = some g → f.inuse ≠ 0 → g.inuse ≠ 0 →
    0 < f.type → f.type = g.type → i = j

/-- A mode of opening and a user that a file lets in. -/
def Admits (eve : List Char) (f : Netfile) (user : List Char) (omode : ℕ) : Prop :=
  (netown eve f user (omode % 8)).2 = true ∧ validmode omode = true

/-- A message that connects its file. -/
def Connects (nif : Netif) (buf : List Char) (type : ℤ) : Prop :=
  ∃ q, matchtoken buf "connect" = some q ∧ type = atoi q ∧ typeinuse nif type = false

/-- An open that finds its file is not refused. -/
def Lets (eve : List Char) (nif : Netif) (path omode : ℕ) (user : List Char) (memory : Bool) :
    Prop :=
  if isdir path then True
  else if isfile path then ∀ f ∈ nif.f (NETID path), Admits eve f user omode
  else if NETTYPE path = Ncloneqid then
    ∀ id ∈ freefile nif, (nif.f id).isSome ∨ memory →
      Admits eve (netown eve ((nif.f id).getD {}) user 0).1 user omode
  else True

instance (eve : List Char) (f : Netfile) (user : List Char) (omode : ℕ) :
    Decidable (Admits eve f user omode) := by unfold Admits; infer_instance

instance (eve : List Char) (nif : Netif) (path omode : ℕ) (user : List Char) (memory : Bool) :
    Decidable (Lets eve nif path omode user memory) := by unfold Lets; infer_instance

/-- An open that finds its file is not refused, and a file connected with a negative type is not
connected again. -/
def Orderly (eve : List Char) (t : State) : Op → Prop
  | .netifopen _ path omode user memory => Lets eve t.nif path omode user memory
  | .netifwrite c a => ∀ path f type, t.chan c = some path → NETTYPE path = Nctlqid →
      t.nif.f (NETID path) = some f → Connects t.nif (cstr a) type → ¬ f.type < 0
  | .netifclose _ => True

structure Inv (t : State) : Prop where
  range : ∀ id, t.nif.f id ≠ none → id < t.nif.nfile
  chan : ∀ c path, t.chan c = some path → c < t.nchan
  file : ∀ c path, t.chan c = some path → isfile path → ∃ f, t.nif.f (NETID path) = some f
  idle : ∀ id f, t.nif.f id = some f → f.inuse = 0 →
    f.prom = false ∧ f.scan = 0 ∧ f.type = 0 ∧ f.owner = []

/-! ### Multicast addresses leave the counters -/

/-- A file but for its multicast addresses. -/
def Netfile.core (f : Netfile) : Netfile := { f with maddr := fun _ => false, nmaddr := 0 }

@[simp]
theorem core_mark (f : Netfile) (i : ℕ) : (f.mark i).core = f.core := by
  unfold Netfile.mark
  split <;> rfl

@[simp]
theorem core_unmark (f : Netfile) (i : ℕ) : (f.unmark i).core = f.core := by
  unfold Netfile.unmark
  split <;> rfl

theorem fields_of_core (h : f.core = g.core) : f.inuse = g.inuse ∧ f.prom = g.prom ∧
    f.scan = g.scan ∧ f.type = g.type ∧ f.owner = g.owner ∧ f.mode = g.mode := by
  cases f
  cases g
  cases h
  exact ⟨rfl, rfl, rfl, rfl, rfl, rfl⟩

/-- One file changes, and no counter. -/
structure Filed (nif nif' : Netif) (id : ℕ) (g : Netfile) : Prop where
  f : nif'.f = Function.update nif.f id (some g)
  nfile : nif'.nfile = nif.nfile
  prom : nif'.prom = nif.prom
  scan : nif'.scan = nif.scan
  all : nif'.all = nif.all

theorem filed_setFile (nif : Netif) (id : ℕ) (g : Netfile) : Filed nif (nif.setFile id g) id g :=
  ⟨rfl, rfl, rfl, rfl, rfl⟩

theorem Filed.refl (hf : nif.f id = some f) : Filed nif nif id f :=
  ⟨(Function.update_eq_self_iff.mpr hf.symm).symm, rfl, rfl, rfl, rfl⟩

theorem Filed.self (h : Filed nif nif' id g) : nif'.f id = some g := by
  rw [h.f, Function.update_self]

theorem Filed.trans {nif'' : Netif} (h : Filed nif nif' id f) (h' : Filed nif' nif'' id g) :
    Filed nif nif'' id g := by
  refine ⟨?_, h'.nfile.trans h.nfile, h'.prom.trans h.prom, h'.scan.trans h.scan,
    h'.all.trans h.all⟩
  rw [h'.f, h.f, Function.update_idem]

theorem filed_addmulti (nif : Netif) (id : ℕ) (f : Netfile) (addr : List ℕ) :
    Filed nif (addmulti nif id f addr) id (f.mark (nif.place addr)) := by
  unfold addmulti
  dsimp only
  constructor
  · change Function.update (Netif.f (ite _ _ _)) _ _ = _
    congr 1
    split <;> split <;> rfl
  all_goals
    unfold Netif.setFile
    dsimp only
    split <;> split <;> rfl

theorem filed_remmulti (hf : nif.f id = some f) (addr : List ℕ) :
    ∃ g, Filed nif (remmulti nif id f addr) id g ∧ g.core = f.core := by
  unfold remmulti
  dsimp only
  split
  · exact ⟨f, .refl hf, rfl⟩
  · split
    · exact ⟨f, .refl hf, rfl⟩
    · refine ⟨f.unmark (nif.place addr), ?_, core_unmark f _⟩
      constructor
      · change Function.update (Netif.f (ite _ _ _)) _ _ = _
        congr 1
        split <;> rfl
      all_goals
        unfold Netif.setFile
        dsimp only
        split <;> rfl

theorem filed_netmulti (hf : nif.f id = some f) (addr : List ℕ) (add : Bool) :
    ∃ g, Filed nif (netmulti nif id f addr add).1 id g ∧ g.core = f.core := by
  unfold netmulti
  split_ifs
  · exact ⟨f, .refl hf, rfl⟩
  · exact ⟨_, filed_addmulti nif id f addr, core_mark f _⟩
  · exact filed_remmulti hf addr

theorem filed_dropmulti (hf : nif.f id = some f) (addrs : List (List ℕ)) :
    ∃ g, Filed nif (dropmulti id nif addrs) id g ∧ g.core = f.core := by
  induction addrs generalizing nif f with
  | nil => exact ⟨f, .refl hf, rfl⟩
  | cons addr addrs ih =>
    simp only [dropmulti, hf]
    split
    · obtain ⟨g, hg, hcore⟩ := filed_netmulti hf addr false
      obtain ⟨g', hg', hcore'⟩ := ih hg.self
      exact ⟨g', hg.trans hg', hcore'.trans hcore⟩
    · exact ih hf

theorem filed_unmulti (hf : nif.f id = some f) :
    Filed nif (unmulti nif id f).1 id (unmulti nif id f).2 ∧
      (unmulti nif id f).2.core = f.core := by
  unfold unmulti
  split
  · obtain ⟨g, hg, hcore⟩ := filed_dropmulti hf (nif.maddr.map Netaddr.addr)
    dsimp only
    rw [hg.self]
    exact ⟨hg.trans (filed_setFile _ _ _), hcore⟩
  · exact ⟨.refl hf, rfl⟩

/-! ### One file changes -/

/-- One file changes, and the counters by what is given. -/
structure Moved (nif nif' : Netif) (id : ℕ) (g : Netfile) (prom scan all : ℤ) : Prop where
  f : nif'.f = Function.update nif.f id (some g)
  nfile : nif'.nfile = nif.nfile
  prom : nif'.prom = nif.prom + prom
  scan : nif'.scan = nif.scan + scan
  all : nif'.all = nif.all + all

theorem Filed.moved (h : Filed nif nif' id g) : Moved nif nif' id g 0 0 0 :=
  ⟨h.f, h.nfile, by rw [h.prom, add_zero], by rw [h.scan, add_zero], by rw [h.all, add_zero]⟩

theorem Moved.self {p s a : ℤ} (h : Moved nif nif' id g p s a) : nif'.f id = some g := by
  rw [h.f, Function.update_self]

theorem Moved.trans {nif'' : Netif} {p s a p' s' a' : ℤ} (h : Moved nif nif' id f p s a)
    (h' : Moved nif' nif'' id g p' s' a') :
    Moved nif nif'' id g (p + p') (s + s') (a + a') := by
  refine ⟨?_, h'.nfile.trans h.nfile, ?_, ?_, ?_⟩
  · rw [h'.f, h.f, Function.update_idem]
  · rw [h'.prom, h.prom, add_assoc]
  · rw [h'.scan, h.scan, add_assoc]
  · rw [h'.all, h.all, add_assoc]

def count (b : Bool) : ℤ := if b then 1 else 0

theorem moved_unprom (hf : nif.f id = some f) :
    Moved nif (unprom nif id f).1 id { f with prom := false } (-count f.prom) 0 0 ∧
      (unprom nif id f).2 = { f with prom := false } := by
  unfold unprom count
  split
  · rename_i hp
    refine ⟨⟨?_, ?_, ?_, ?_, ?_⟩, rfl⟩
    · change Function.update (Netif.f (ite _ _ _)) _ _ = _
      congr 1
      split <;> rfl
    all_goals
      unfold Netif.setFile
      dsimp only
      split <;> simp [Netif.tell, sub_eq_add_neg]
  · rename_i hp
    have hprom : f.prom = false := by simpa using hp
    have heq : { f with prom := false } = f := by
      cases f
      subst hprom
      rfl
    rw [heq]
    exact ⟨(Filed.refl hf).moved, rfl⟩

theorem moved_unscan (hf : nif.f id = some f) (hp : f.prom = false) :
    Moved nif (unscan nif id f).1 id { f with scan := 0 } 0 (-count (isscan f)) 0 ∧
      (unscan nif id f).2 = { f with scan := 0 } := by
  have heq : { f with prom := false, scan := 0 } = { f with scan := 0 } := by
    cases f
    cases hp
    rfl
  unfold unscan count isscan
  split
  · rename_i hs
    rw [heq]
    refine ⟨⟨?_, ?_, ?_, ?_, ?_⟩, rfl⟩
    · change Function.update (Netif.f (ite _ _ _)) _ _ = _
      congr 1
      split <;> rfl
    all_goals
      unfold Netif.setFile
      dsimp only
      split <;> simp [Netif.tell, sub_eq_add_neg, hs]
  · rename_i hs
    have hscan : f.scan = 0 := by simpa using hs
    have heq : { f with scan := 0 } = f := by
      cases f
      subst hscan
      rfl
    rw [heq, hscan]
    exact ⟨(Filed.refl hf).moved, rfl⟩

/-- The last close lowers the counters by what was set in the file. -/
theorem moved_lastclose (hf : nif.f id = some f) :
    ∃ g, Moved nif (lastclose nif id f) id g (-count f.prom) (-count (isscan f))
        (-count (isall f)) ∧
      g.inuse = f.inuse ∧ g.prom = false ∧ g.scan = 0 ∧ g.type = 0 ∧ g.owner = [] := by
  unfold lastclose
  obtain ⟨h₁, e₁⟩ := moved_unprom hf
  dsimp only
  rw [e₁]
  obtain ⟨h₂, e₂⟩ := moved_unscan h₁.self rfl
  rw [e₂]
  obtain ⟨h₃, e₃⟩ := filed_unmulti h₂.self
  set nif₃ := (unmulti (unscan (unprom nif id f).1 id { f with prom := false }).1 id
    { { f with prom := false } with scan := 0 }).1
  set f₃ := (unmulti (unscan (unprom nif id f).1 id { f with prom := false }).1 id
    { { f with prom := false } with scan := 0 }).2
  obtain ⟨hinuse, hprom, hscan, htype, -⟩ := fields_of_core e₃
  refine ⟨{ f₃ with owner := [], type := 0, bridge := false, headersonly := false }, ?_, hinuse,
    hprom, hscan, rfl, rfl⟩
  have hall : isall f = decide (f.type < 0) := rfl
  have h := (h₁.trans h₂).trans h₃.moved
  rw [htype, hall]
  constructor
  · change Function.update (Netif.f (ite _ _ _)) _ _ = _
    have hsame (n m : Netif) (hn : m.f = n.f) (p : Prop) [Decidable p] :
        (if p then m else n).f = n.f := by
      split
      · exact hn
      · rfl
    rw [hsame, h.f, Function.update_idem]
    rfl
  · unfold Netif.setFile
    dsimp only
    split <;> exact h.nfile
  · unfold Netif.setFile
    dsimp only
    have := h.prom
    split <;> simpa using this
  · unfold Netif.setFile
    dsimp only
    have := h.scan
    rw [show isscan { f with prom := false } = isscan f from rfl] at this
    split <;> simpa using this
  · unfold Netif.setFile count
    dsimp only
    have := h.all
    split
    · rename_i hneg
      rw [if_pos (by simpa using hneg)]
      change nif₃.all - 1 = _
      omega
    · rename_i hneg
      rw [if_neg (by simpa using hneg)]
      change nif₃.all = _
      omega

/-! ### What a change keeps -/

theorem used_eq {P : Netfile → Bool} (h : f.inuse ≠ 0) : (used P (some f) : ℤ) = count (P f) := by
  unfold used count
  dsimp only
  split_ifs with h1 h2 h2
  · rfl
  · exact absurd h1.2 h2
  · exact absurd ⟨h, h2⟩ h1
  · rfl

theorem used_eq_zero {P : Netfile → Bool} (h : f.inuse = 0) : used P (some f) = 0 :=
  if_neg fun hc => hc.1 h

/-- A file that is not there yet is not in use, and nothing is set in it. -/
def Netif.file (nif : Netif) (id : ℕ) : Netfile := (nif.f id).getD {}

theorem file_eq (h : nif.f id = some f) : nif.file id = f := by
  rw [Netif.file, h, Option.getD_some]

theorem used_file (P : Netfile → Bool) (id : ℕ) :
    used P (nif.f id) = used P (some (nif.file id)) := by
  unfold Netif.file
  cases nif.f id <;> rfl

theorem tally_opens (h : Counted t) (hinv : Inv t) (id : ℕ) :
    (t.nif.file id).inuse = tally t.nchan (opens id) t.chan := by
  cases hf : t.nif.f id with
  | some f =>
    rw [file_eq hf]
    exact h id f hf
  | none =>
    have hzero : tally t.nchan (opens id) t.chan = 0 := by
      rw [tally_eq_zero_iff]
      intro c _
      cases hc : t.chan c with
      | none => rfl
      | some path =>
        refine if_neg ?_
        rintro ⟨hp, rfl⟩
        obtain ⟨f, hf'⟩ := hinv.file c path hc hp
        rw [hf] at hf'
        cases hf'
    rw [hzero, Netif.file, hf]
    rfl

/-- One file and its channels change, and are counted again. -/
theorem counted_moved (h : Counted t) {p s a : ℤ} (hm : Moved t.nif t'.nif id g p s a)
    (hinuse : g.inuse = tally t'.nchan (opens id) t'.chan)
    (hother : ∀ j, j ≠ id → tally t'.nchan (opens j) t'.chan = tally t.nchan (opens j) t.chan) :
    Counted t' := by
  intro j f hf
  by_cases hj : j = id
  · subst hj
    rw [hm.self] at hf
    obtain rfl := Option.some.inj hf
    exact hinuse
  · rw [hm.f, Function.update_of_ne hj] at hf
    rw [hother j hj]
    exact h j f hf

/-- One file and its channels change, and the counters with them. -/
theorem accounted_moved (h : Accounted t) (hid : id < t.nif.nfile) {p s a : ℤ}
    (hm : Moved t.nif t'.nif id g p s a)
    (hinuse : g.inuse = tally t'.nchan (opens id) t'.chan)
    (hother : ∀ j, j ≠ id → tally t'.nchan (opens j) t'.chan = tally t.nchan (opens j) t.chan)
    (hp : p + used isprom (t.nif.f id) = used isprom (some g))
    (hs : s + used isscan (t.nif.f id) = used isscan (some g))
    (ha : a + used isall (t.nif.f id) = used isall (some g))
    (htype : g.inuse ≠ 0 → 0 < g.type → ∀ j f, j ≠ id → t.nif.f j = some f → f.inuse ≠ 0 →
      f.type ≠ g.type) : Accounted t' := by
  have htally (P : Netfile → Bool) : tally t'.nif.nfile (used P) t'.nif.f + used P (t.nif.f id) =
      tally t.nif.nfile (used P) t.nif.f + used P (some g) := by
    rw [hm.nfile, hm.f]
    exact tally_update (used P) t.nif.f hid (some g)
  have hother' {j : ℕ} (hj : j ≠ id) : t'.nif.f j = t.nif.f j := by
    rw [hm.f, Function.update_of_ne hj]
  refine ⟨counted_moved h.inuse hm hinuse hother, ?_, ?_, ?_,
    fun i j f f' hf hf' hu hu' hpos heq => ?_⟩
  · have := htally isprom
    rw [hm.prom, h.prom]
    omega
  · have := htally isscan
    rw [hm.scan, h.scan]
    omega
  · have := htally isall
    rw [hm.all, h.all]
    omega
  · by_cases hi : i = id <;> by_cases hj : j = id
    · rw [hi, hj]
    · rw [hi, hm.self] at hf
      obtain rfl := Option.some.inj hf
      rw [hother' hj] at hf'
      exact absurd heq.symm (htype hu hpos j f' hj hf' hu')
    · rw [hj, hm.self] at hf'
      obtain rfl := Option.some.inj hf'
      rw [hother' hi] at hf
      exact absurd heq (htype hu' (heq ▸ hpos) i f hi hf hu)
    · rw [hother' hi] at hf
      rw [hother' hj] at hf'
      exact h.type i j f f' hf hf' hu hu' hpos heq

/-- What holds of a file that is not in use. -/
def Idle (f : Netfile) : Prop :=
  f.inuse = 0 → f.prom = false ∧ f.scan = 0 ∧ f.type = 0 ∧ f.owner = []

theorem inv_moved (hinv : Inv t) (hid : id < t.nif.nfile) {p s a : ℤ}
    (hm : Moved t.nif t'.nif id g p s a) (hn : t'.nchan = t.nchan) (hidle : Idle g)
    (hchan : ∀ c path, t'.chan c = some path → t.chan c = some path ∨
      c < t.nchan ∧ (isfile path → NETID path = id)) : Inv t' := by
  have hother {j : ℕ} (hj : j ≠ id) : t'.nif.f j = t.nif.f j := by
    rw [hm.f, Function.update_of_ne hj]
  refine ⟨fun j hj => ?_, fun c path hc => ?_, fun c path hc hp => ?_, fun j f hf => ?_⟩
  · rw [hm.nfile]
    by_cases hji : j = id
    · exact hji ▸ hid
    · rw [hother hji] at hj
      exact hinv.range j hj
  · rw [hn]
    rcases hchan c path hc with h | ⟨h, -⟩
    · exact hinv.chan c path h
    · exact h
  · by_cases hji : NETID path = id
    · exact ⟨g, hji ▸ hm.self⟩
    · rw [hother hji]
      rcases hchan c path hc with h | ⟨-, h⟩
      · exact hinv.file c path h hp
      · exact absurd (h hp) hji
  · by_cases hji : j = id
    · rw [hji, hm.self] at hf
      obtain rfl := Option.some.inj hf
      exact hidle
    · rw [hother hji] at hf
      exact hinv.idle j f hf

/-! ### Messages -/

/-- What a message does to a file and to the counters. -/
structure Said (nif nif' : Netif) (id : ℕ) (f g : Netfile) (buf : List Char) (p s a : ℤ) :
    Prop where
  moved : Moved nif nif' id g p s a
  inuse : g.inuse = f.inuse
  owner : g.owner = f.owner
  prom : p + count f.prom = count g.prom
  scan : s + count (isscan f) = count (isscan g)
  /-- All but a message that connects keep the type. -/
  keeps : (¬ ∃ type, Connects nif buf type) →
    a + count (isall f) = count (isall g) ∧ g.type = f.type
  connects : ∀ type, Connects nif buf type → g.type = type ∧ a = count (isall g)

theorem said_of_filed (hg : Filed nif nif' id g) {buf : List Char} (hinuse : g.inuse = f.inuse)
    (howner : g.owner = f.owner) (hprom : g.prom = f.prom) (hscan : g.scan = f.scan)
    (htype : g.type = f.type) (hno : ¬ ∃ type, Connects nif buf type) :
    Said nif nif' id f g buf 0 0 0 where
  moved := hg.moved
  inuse := hinuse
  owner := howner
  prom := by rw [hprom, zero_add]
  scan := by rw [isscan, isscan, hscan, zero_add]
  keeps _ := by
    rw [isall, isall, htype, zero_add]
    exact ⟨rfl, rfl⟩
  connects type h := absurd ⟨type, h⟩ hno

theorem said_of_core (hg : Filed nif nif' id g) {buf : List Char} (hcore : g.core = f.core)
    (hno : ¬ ∃ type, Connects nif buf type) : Said nif nif' id f g buf 0 0 0 := by
  obtain ⟨hinuse, hprom, hscan, htype, howner, -⟩ := fields_of_core hcore
  exact said_of_filed hg hinuse howner hprom hscan htype hno

theorem said_message (hf : nif.f id = some f) (buf : List Char) :
    ∃ g p s a, Said nif (message nif id f buf).1 id f g buf p s a := by
  have hnetmulti (addr : List ℕ) (add : Bool) (hno : ¬ ∃ type, Connects nif buf type) :
      ∃ g p s a, Said nif (netmulti nif id f addr add).1 id f g buf p s a := by
    obtain ⟨g, hg, hcore⟩ := filed_netmulti hf addr add
    exact ⟨g, 0, 0, 0, said_of_core hg hcore hno⟩
  have hquiet (hno : ¬ ∃ type, Connects nif buf type) :
      ∃ g p s a, Said nif nif id f g buf p s a := ⟨f, 0, 0, 0, said_of_core (.refl hf) rfl hno⟩
  unfold message
  split
  · rename_i q hq
    dsimp only
    have hinj {type : ℤ} (h : Connects nif buf type) : type = atoi q := by
      obtain ⟨q', hq', ht, -⟩ := h
      obtain rfl := Option.some.inj (hq.symm.trans hq')
      exact ht
    split
    · rename_i hin
      refine hquiet ?_
      rintro ⟨type, h⟩
      obtain rfl := hinj h
      obtain ⟨-, -, -, hin'⟩ := h
      rw [hin] at hin'
      cases hin'
    · rename_i hin
      have hcon : Connects nif buf (atoi q) := ⟨q, hq, rfl, by simpa using hin⟩
      refine ⟨{ f with type := atoi q }, 0, 0, count (decide (atoi q < 0)), ?_, rfl, rfl,
        zero_add _, zero_add _, fun hno => absurd ⟨_, hcon⟩ hno, fun type h => ⟨(hinj h).symm, rfl⟩⟩
      have hset := (filed_setFile nif id { f with type := atoi q }).moved
      unfold count
      split
      · rename_i hneg
        rw [if_pos (decide_eq_true hneg)]
        exact ⟨hset.f, hset.nfile, hset.prom, hset.scan, rfl⟩
      · rename_i hneg
        rw [if_neg (by simpa using hneg)]
        exact hset
  · rename_i hq
    have hno : ¬ ∃ type, Connects nif buf type := by
      rintro ⟨type, q, hq', -⟩
      rw [hq] at hq'
      cases hq'
    have hall {g : Netfile} (hg : g.type = f.type) : (¬ ∃ type, Connects nif buf type) →
        0 + count (isall f) = count (isall g) ∧ g.type = f.type := by
      intro _
      rw [isall, isall, hg, zero_add]
      exact ⟨rfl, rfl⟩
    split
    · split
      · exact hquiet hno
      · rename_i hp
        have hprom : f.prom = false := by simpa using hp
        refine ⟨{ f with prom := true }, 1, 0, 0, ?_, rfl, rfl, by rw [hprom]; rfl, zero_add _,
          hall rfl, fun type h => absurd ⟨type, h⟩ hno⟩
        dsimp only
        split <;> exact ⟨rfl, rfl, rfl, (add_zero _).symm, (add_zero _).symm⟩
    · split
      · rename_i q _
        split
        · rename_i hs
          have hscan : isscan f = false := by simp [isscan, hs]
          have hscan' : isscan { f with scan := max (atoi q) 5 } = true := by
            have : max (atoi q) 5 ≠ 0 := by omega
            simp [isscan, this]
          refine ⟨{ f with scan := max (atoi q) 5 }, 0, 1, 0, ?_, rfl, rfl, zero_add _,
            by rw [hscan, hscan']; rfl, hall rfl, fun type h => absurd ⟨type, h⟩ hno⟩
          dsimp only
          split <;> exact ⟨rfl, rfl, (add_zero _).symm, rfl, (add_zero _).symm⟩
        · exact hquiet hno
      · split
        · exact ⟨_, 0, 0, 0, said_of_filed (filed_setFile _ _ _) rfl rfl rfl rfl rfl hno⟩
        · split
          · exact ⟨_, 0, 0, 0, said_of_filed (filed_setFile _ _ _) rfl rfl rfl rfl rfl hno⟩
          · split
            · split
              · exact hquiet hno
              · exact hnetmulti _ _ hno
            · split
              · split
                · exact hquiet hno
                · exact hnetmulti _ _ hno
              · exact hquiet hno

/-! ### Steps -/

theorem opens_pos (hp : isfile path) : 0 < opens (NETID path) (some path) := by
  rw [opens, if_pos ⟨hp, rfl⟩]
  exact Nat.one_pos

/-- The file of an open channel is in use. -/
theorem inuse_pos (h : Counted t) (hinv : Inv t) (hc : t.chan c = some path) (hp : isfile path)
    (hf : t.nif.f (NETID path) = some f) : 0 < f.inuse := by
  have hle := le_tally (opens (NETID path)) t.chan (hinv.chan c path hc)
  rw [hc] at hle
  have := opens_pos hp
  rw [h _ f hf]
  omega

theorem type_ne_of_typeinuse (hinv : Inv t) {type : ℤ} (ht : typeinuse t.nif type = false)
    (hpos : 0 < type) {j : ℕ} (hf : t.nif.f j = some f) : f.type ≠ type := by
  rintro rfl
  have hj : j < t.nif.nfile := hinv.range j (by rw [hf]; exact nofun)
  have : typeinuse t.nif f.type = true := by
    refine decide_eq_true ⟨hpos, ?_⟩
    refine List.any_eq_true.mpr ⟨j, List.mem_range.mpr hj, ?_⟩
    rw [hf]
    exact decide_eq_true rfl
  rw [ht] at this
  cases this

/-- What a write to an open channel does. -/
theorem write_spec (h : Counted t) (hinv : Inv t) (hc : t.chan c = some path) (a : List Char) :
    (NETTYPE path ≠ Nctlqid ∧ (netifwrite t.nif path a).1 = t.nif) ∨
      NETTYPE path = Nctlqid ∧ ∃ f g p s b, t.nif.f (NETID path) = some f ∧ f.inuse ≠ 0 ∧
        (netifwrite t.nif path a).1 = (message t.nif (NETID path) f (cstr a)).1 ∧
        Said t.nif (netifwrite t.nif path a).1 (NETID path) f g (cstr a) p s b := by
  unfold netifwrite
  split
  · rename_i hp
    exact .inl ⟨hp, rfl⟩
  · rename_i hp
    rw [not_not] at hp
    obtain ⟨f, hf⟩ := hinv.file c path hc (.inr hp)
    rw [hf]
    obtain ⟨g, p, s, b, hsaid⟩ := said_message hf (cstr a)
    exact .inr ⟨hp, f, g, p, s, b, rfl, (inuse_pos h hinv hc (.inr hp) hf).ne', rfl, hsaid⟩

theorem lt_of_file (hinv : Inv t) (hf : t.nif.f id = some f) : id < t.nif.nfile :=
  hinv.range id (by rw [hf]; exact nofun)

/-- Files count their channels behind a write. -/
theorem counted_write (h : Counted t) (hinv : Inv t) (hc : t.chan c = some path) (a : List Char) :
    Inv { t with nif := (netifwrite t.nif path a).1 } ∧
      Counted { t with nif := (netifwrite t.nif path a).1 } := by
  rcases write_spec h hinv hc a with ⟨-, hnif⟩ | ⟨hp, f, g, p, s, b, hf, huse, -, hsaid⟩
  · rw [hnif]
    exact ⟨hinv, h⟩
  · have hid := lt_of_file hinv hf
    have hm : Moved t.nif { t with nif := (netifwrite t.nif path a).1 }.nif (NETID path) g p s b :=
      hsaid.moved
    refine ⟨inv_moved hinv hid hm rfl (fun h0 => ?_) fun _ _ h => .inl h,
      counted_moved h hm ?_ fun _ _ => rfl⟩
    · exact absurd (hsaid.inuse ▸ h0) huse
    rw [hsaid.inuse]
    exact h _ f hf

/-- A write keeps the counters, just when it does not connect a file again that is connected with a
negative type. -/
theorem accounted_write (h : Accounted t) (hinv : Inv t) (hc : t.chan c = some path)
    (eve a : List Char) :
    Accounted { t with nif := (netifwrite t.nif path a).1 } ↔
      Orderly eve t (.netifwrite c a) := by
  rcases write_spec h.inuse hinv hc a with ⟨hp, hnif⟩ | ⟨hp, f, g, p, s, b, hf, huse, -, hsaid⟩
  · rw [hnif]
    refine iff_of_true h fun path' f type hc' hp' => ?_
    obtain rfl := Option.some.inj (hc.symm.trans hc')
    exact absurd hp' hp
  · have hid := lt_of_file hinv hf
    have huseg : g.inuse ≠ 0 := hsaid.inuse ▸ huse
    set t' : State := { t with nif := (netifwrite t.nif path a).1 }
    have hm : Moved t.nif t'.nif (NETID path) g p s b := hsaid.moved
    have hprom : p + used isprom (t.nif.f (NETID path)) = used isprom (some g) := by
      rw [hf, used_eq huse, used_eq huseg]
      exact hsaid.prom
    have hscan : s + used isscan (t.nif.f (NETID path)) = used isscan (some g) := by
      rw [hf, used_eq huse, used_eq huseg]
      exact hsaid.scan
    have hinuse : g.inuse = tally t.nchan (opens (NETID path)) t.chan := by
      rw [hsaid.inuse]
      exact h.inuse _ f hf
    by_cases hcon : ∃ type, Connects t.nif (cstr a) type
    · obtain ⟨type, hcon⟩ := hcon
      obtain ⟨htype, hb⟩ := hsaid.connects type hcon
      constructor
      · intro h' path' f' _ hc' _ hf' _ hneg
        obtain rfl := Option.some.inj (hc.symm.trans hc')
        obtain rfl := Option.some.inj (hf.symm.trans hf')
        have hup := tally_update (used isall) t.nif.f hid (some g)
        have hall : (used isall (some f) : ℤ) = 1 := by
          rw [used_eq huse, isall, decide_eq_true hneg]
          rfl
        have hg : (used isall (some g) : ℤ) = b := by rw [used_eq huseg, hb]
        have h1 := h'.all
        have h2 := h.all
        rw [hm.all, hm.nfile, hm.f] at h1
        rw [hf] at hup
        omega
      · intro hok
        have hneg := hok path f type hc hp hf hcon
        refine accounted_moved h hid hm hinuse (fun _ _ => rfl) hprom hscan ?_ ?_
        · have hall : isall f = false := decide_eq_false hneg
          rw [hf, used_eq huse, used_eq huseg, hall, hb]
          exact add_zero _
        · intro _ hpos j f' _ hf' _
          obtain ⟨-, -, -, hin⟩ := hcon
          rw [htype] at hpos ⊢
          exact type_ne_of_typeinuse hinv hin hpos hf'
    · obtain ⟨hall, htype⟩ := hsaid.keeps hcon
      refine iff_of_true ?_ fun _ _ type _ _ _ h => absurd ⟨type, h⟩ hcon
      refine accounted_moved h hid hm hinuse (fun _ _ => rfl) hprom hscan ?_ ?_
      · rw [hf, used_eq huse, used_eq huseg]
        exact hall
      · intro _ hpos j f' hj hf' huse' heq
        rw [htype] at hpos heq
        exact hj (h.type _ _ f' f hf' hf huse' huse (heq ▸ hpos) heq)

/-- The channels of other files. -/
theorem tally_chan (hc : c < t.nchan) (v : Option ℕ) (j : ℕ) :
    tally t.nchan (opens j) (Function.update t.chan c v) + opens j (t.chan c) =
      tally t.nchan (opens j) t.chan + opens j v :=
  tally_update (opens j) t.chan hc v

theorem opens_of_ne {j : ℕ} (hj : isfile path → NETID path ≠ j) : opens j (some path) = 0 :=
  if_neg fun h => hj h.1 h.2

/-- What a close does to a file and to the counters. -/
structure Shut (nif nif' : Netif) (id : ℕ) (f g : Netfile) (p s a : ℤ) : Prop where
  moved : Moved nif nif' id g p s a
  inuse : g.inuse = f.inuse - 1
  last : f.inuse - 1 = 0 → (p = -count f.prom ∧ s = -count (isscan f) ∧ a = -count (isall f)) ∧
    g.prom = false ∧ g.scan = 0 ∧ g.type = 0 ∧ g.owner = []
  keeps : f.inuse - 1 ≠ 0 → (p = 0 ∧ s = 0 ∧ a = 0) ∧
    g.prom = f.prom ∧ g.scan = f.scan ∧ g.type = f.type

theorem shut_netifclose (hp : isfile path) (hf : nif.f (NETID path) = some f) :
    ∃ g p s a, Shut nif (netifclose nif path) (NETID path) f g p s a := by
  unfold netifclose
  rw [if_neg (not_not.mpr hp), hf]
  dsimp only
  have hset := (filed_setFile nif (NETID path) { f with inuse := f.inuse - 1 }).moved
  split
  · rename_i hzero
    obtain ⟨g, hg, hinuse, hidle⟩ := moved_lastclose hset.self
    have hm := hset.trans hg
    rw [zero_add, zero_add, zero_add] at hm
    exact ⟨g, _, _, _, hm, hinuse, fun _ => ⟨⟨rfl, rfl, rfl⟩, hidle⟩, fun h => absurd hzero h⟩
  · rename_i hzero
    exact ⟨_, 0, 0, 0, hset, rfl, fun h => absurd h hzero,
      fun _ => ⟨⟨rfl, rfl, rfl⟩, rfl, rfl, rfl⟩⟩

theorem Shut.used {p s a : ℤ} (h : Shut nif nif' id f g p s a) (hf : f.inuse ≠ 0) :
    p + used isprom (some f) = used isprom (some g) ∧
      s + used isscan (some f) = used isscan (some g) ∧
      a + used isall (some f) = used isall (some g) := by
  rw [used_eq hf, used_eq hf, used_eq hf]
  by_cases hz : f.inuse - 1 = 0
  · obtain ⟨⟨rfl, rfl, rfl⟩, -⟩ := h.last hz
    have hg : g.inuse = 0 := h.inuse.trans hz
    rw [used_eq_zero hg, used_eq_zero hg, used_eq_zero hg]
    exact ⟨neg_add_cancel _, neg_add_cancel _, neg_add_cancel _⟩
  · obtain ⟨⟨rfl, rfl, rfl⟩, hprom, hscan, htype⟩ := h.keeps hz
    have hg : g.inuse ≠ 0 := h.inuse ▸ hz
    rw [used_eq hg, used_eq hg, used_eq hg]
    simp only [isprom, isscan, isall, hprom, hscan, htype, zero_add, and_self]

/-- The channels of a file behind a close. -/
theorem tally_close (hinv : Inv t) (hc : t.chan c = some path) (j : ℕ) :
    tally t.nchan (opens j) (Function.update t.chan c none) + opens j (some path) =
      tally t.nchan (opens j) t.chan := by
  have := tally_chan (hinv.chan c path hc) none j
  rwa [hc] at this

theorem chan_of_close {d q : ℕ} (h : Function.update t.chan c none d = some q) :
    t.chan d = some q := by
  by_cases hdc : d = c
  · rw [hdc, Function.update_self] at h
    cases h
  · rwa [Function.update_of_ne hdc] at h

theorem netifclose_of_not_isfile (hp : ¬ isfile path) : netifclose nif path = nif := by
  unfold netifclose
  rw [if_pos hp]

/-- Files count their channels behind a close. -/
theorem counted_close (h : Counted t) (hinv : Inv t) (hc : t.chan c = some path) :
    let t' := { t with nif := netifclose t.nif path, chan := Function.update t.chan c none }
    Inv t' ∧ Counted t' := by
  intro t'
  have htally := tally_close hinv hc
  by_cases hp : isfile path
  · obtain ⟨f, hf⟩ := hinv.file c path hc hp
    obtain ⟨g, p, s, a, hshut⟩ := shut_netifclose hp hf
    have hm : Moved t.nif t'.nif (NETID path) g p s a := hshut.moved
    have hone : opens (NETID path) (some path) = 1 := if_pos ⟨hp, rfl⟩
    refine ⟨inv_moved hinv (lt_of_file hinv hf) hm rfl (fun h0 => ?_) fun _ _ h =>
      .inl (chan_of_close h), counted_moved h hm ?_ fun j hj => ?_⟩
    · rw [hshut.inuse] at h0
      exact (hshut.last h0).2
    · have := htally (NETID path)
      rw [hone] at this
      have hcount := h _ f hf
      rw [hshut.inuse]
      change _ = (tally t.nchan _ (Function.update t.chan c none) : ℤ)
      omega
    · have := htally j
      rwa [opens_of_ne fun _ => hj.symm, add_zero] at this
  · have ht' : t' = { t with chan := Function.update t.chan c none } := by
      change ({ t with nif := netifclose t.nif path, chan := _ } : State) = _
      rw [netifclose_of_not_isfile hp]
    rw [ht']
    refine ⟨⟨hinv.range, fun d q hd => hinv.chan d q (chan_of_close hd),
      fun d q hd => hinv.file d q (chan_of_close hd), hinv.idle⟩, fun id f hf => ?_⟩
    have := htally id
    rw [opens_of_ne fun h => absurd h hp, add_zero] at this
    dsimp only
    rw [this]
    exact h id f hf

/-- A close keeps the counters. -/
theorem accounted_close (h : Accounted t) (hinv : Inv t) (hc : t.chan c = some path) :
    Accounted { t with nif := netifclose t.nif path, chan := Function.update t.chan c none } := by
  set t' : State := { t with nif := netifclose t.nif path, chan := Function.update t.chan c none }
    with ht'
  have hcount : Counted t' := (counted_close h.inuse hinv hc).2
  by_cases hp : isfile path
  · obtain ⟨f, hf⟩ := hinv.file c path hc hp
    have hpos := inuse_pos h.inuse hinv hc hp hf
    obtain ⟨g, p, s, a, hshut⟩ := shut_netifclose hp hf
    have hm : Moved t.nif t'.nif (NETID path) g p s a := hshut.moved
    obtain ⟨hprom, hscan, hall⟩ := hshut.used hpos.ne'
    refine accounted_moved h (lt_of_file hinv hf) hm (hcount _ g hm.self) (fun j hj => ?_)
      (by rwa [hf]) (by rwa [hf]) (by rwa [hf]) fun huse htpos j f' hj hf' huse' heq => ?_
    · have := tally_close hinv hc j
      rwa [opens_of_ne fun _ => hj.symm, add_zero] at this
    · rw [hshut.inuse] at huse
      rw [(hshut.keeps huse).2.2.2] at htpos heq
      exact hj (h.type _ _ f' f hf' hf huse' hpos.ne' (heq ▸ htpos) heq)
  · have hnif : t'.nif = t.nif := netifclose_of_not_isfile hp
    exact ⟨hcount, hnif ▸ h.prom, hnif ▸ h.scan, hnif ▸ h.all, hnif ▸ h.type⟩

theorem netown_spec (eve : List Char) (f : Netfile) (o : List Char) (m : ℕ) :
    ∃ owner mode, (netown eve f o m).1 = { f with owner := owner, mode := mode } := by
  unfold netown
  split
  · exact ⟨_, _, rfl⟩
  · exact ⟨f.owner, f.mode, rfl⟩

theorem admits_congr (howner : f.owner = g.owner) (hmode : f.mode = g.mode) :
    Admits eve f user omode ↔ Admits eve g user omode := by
  unfold Admits netown
  rw [howner, hmode]
  split <;> rfl

/-- A file whose reference count is incremented is admitted or not. -/
theorem admitfile_spec (hf : nif.f id = some f) (eve : List Char) (path omode : ℕ)
    (user : List Char) :
    Filed nif (admitfile nif eve id path omode user).1 id (netown eve f user (omode % 8)).1 ∧
      (Admits eve f user omode → (admitfile nif eve id path omode user).2 = .ok path) ∧
      (¬ Admits eve f user omode → ∃ e, (admitfile nif eve id path omode user).2 = .error e) := by
  unfold admitfile Admits
  rw [hf]
  dsimp only
  split
  · rename_i g hg
    rw [hg]
    split
    · rename_i hv
      exact ⟨filed_setFile _ _ _, fun _ => rfl, fun h => absurd ⟨rfl, hv⟩ h⟩
    · rename_i hv
      exact ⟨filed_setFile _ _ _, fun h => absurd h.2 hv, fun _ => ⟨_, rfl⟩⟩
  · rename_i g hg
    rw [hg]
    exact ⟨filed_setFile _ _ _, fun h => absurd h.1 Bool.false_ne_true, fun _ => ⟨_, rfl⟩⟩

/-- What an open does that finds its file. -/
structure Opened (nif : Netif) (r : Netif × Except String ℕ) (id : ℕ) (g : Netfile) (ok : Prop) :
    Prop where
  lt : id < nif.nfile
  filed : Filed nif r.1 id g
  inuse : g.inuse = (nif.file id).inuse + 1
  prom : g.prom = (nif.file id).prom
  scan : g.scan = (nif.file id).scan
  type : g.type = (nif.file id).type
  opened : ok → ∃ q, r.2 = .ok q ∧ isfile q ∧ NETID q = id
  refused : ¬ ok → ∃ e, r.2 = .error e

theorem opened_admitfile (eve : List Char) (omode : ℕ) (user : List Char) (hid : id < nif.nfile)
    (hf : Filed nif nif' id f)
    (hinuse : f.inuse = (nif.file id).inuse + 1) (hprom : f.prom = (nif.file id).prom)
    (hscan : f.scan = (nif.file id).scan) (htype : f.type = (nif.file id).type)
    (hpath : isfile path) (hpathid : NETID path = id) :
    ∃ g, Opened nif (admitfile nif' eve id path omode user) id g (Admits eve f user omode) := by
  obtain ⟨hfiled, hok, hno⟩ :=
    admitfile_spec hf.self eve path omode user
  obtain ⟨owner, mode, hg⟩ := netown_spec eve f user (omode % 8)
  rw [hg] at hfiled
  exact ⟨_, hid, hf.trans hfiled, hinuse, hprom, hscan, htype,
    fun h => ⟨path, hok h, hpath, hpathid⟩, hno⟩

theorem freefile_spec (h : freefile nif = some id) : id < nif.nfile ∧ (nif.file id).inuse = 0 := by
  have hmem := List.mem_of_find?_eq_some h
  have hp := List.find?_some h
  refine ⟨List.mem_range.mp hmem, ?_⟩
  unfold Netif.file
  cases hf : nif.f id with
  | none => rfl
  | some f =>
    rw [hf] at hp
    exact of_decide_eq_true hp

/-- What an open does. -/
theorem netifopen_spec (hinv : Inv t) (eve : List Char) (path omode : ℕ) (user : List Char)
    (memory : Bool) :
    let r := netifopen t.nif eve path omode user memory
    let lets := Lets eve t.nif path omode user memory
    (r.1 = t.nif ∧ (∀ q, r.2 = .ok q → ¬ isfile q) ∧ lets) ∨
      ∃ id g ok, Opened t.nif r id g ok ∧ (lets ↔ ok) := by
  intro r lets
  have hdef : r = netifopen t.nif eve path omode user memory := rfl
  unfold netifopen at hdef
  by_cases hdir : isdir path = true
  · left
    have hok : lets := by
      unfold lets Lets
      rw [if_pos hdir]
      trivial
    rw [if_pos hdir] at hdef
    have hno : ¬ isfile path := by
      unfold isdir at hdir
      have := of_decide_eq_true hdir
      rintro (h | h)
      all_goals
        rw [h] at this
        rcases this with h0 | h0 | h0
        · rw [h0] at h
          exact absurd h (by decide)
        · exact absurd h0 (by decide)
        · exact absurd h0 (by decide)
    split at hdef
    · rw [hdef]
      exact ⟨rfl, nofun, hok⟩
    · rw [hdef]
      refine ⟨rfl, fun q hq => ?_, hok⟩
      obtain rfl := Except.ok.inj hq
      exact hno
  · rw [if_neg hdir] at hdef
    by_cases hfile : isfile path
    · rw [if_pos hfile] at hdef
      have hord : lets ↔ ∀ f ∈ t.nif.f (NETID path), Admits eve f user omode := by
        unfold lets Lets
        rw [if_neg hdir, if_pos hfile]
      unfold openfile at hdef
      dsimp only at hdef
      cases hf : t.nif.f (NETID path) with
      | none =>
        rw [hf] at hdef hord
        dsimp only at hdef
        rw [hdef]
        exact .inl ⟨rfl, nofun, hord.mpr nofun⟩
      | some f =>
        rw [hf] at hdef hord
        dsimp only at hdef
        right
        have hid : NETID path < t.nif.nfile := hinv.range _ (by rw [hf]; exact nofun)
        have hfe := file_eq hf
        obtain ⟨g, hg⟩ := opened_admitfile eve omode user hid
          (filed_setFile t.nif (NETID path) { f with inuse := f.inuse + 1 }) (by rw [hfe])
          (by rw [hfe]) (by rw [hfe]) (by rw [hfe]) hfile rfl
        rw [← hdef] at hg
        refine ⟨_, g, _, hg, ?_⟩
        rw [hord, admits_congr (f := { f with inuse := f.inuse + 1 }) (g := f) rfl rfl]
        exact ⟨fun h => h f rfl, fun h f' hf' => Option.some.inj hf' ▸ h⟩
    · rw [if_neg hfile] at hdef
      by_cases hclone : NETTYPE path = Ncloneqid
      · rw [if_pos hclone] at hdef
        have hord : lets ↔
            ∀ id ∈ freefile t.nif, (t.nif.f id).isSome ∨ memory →
              Admits eve (netown eve (t.nif.file id) user 0).1 user omode := by
          unfold lets Lets
          rw [if_neg hdir, if_neg hfile, if_pos hclone]
          rfl
        unfold openfile at hdef
        dsimp only at hdef
        cases hfree : freefile t.nif with
        | none =>
          rw [hfree] at hdef hord
          dsimp only at hdef
          rw [hdef]
          exact .inl ⟨rfl, nofun, hord.mpr nofun⟩
        | some id =>
          rw [hfree] at hdef hord
          dsimp only at hdef
          by_cases hmem : (t.nif.f id).isNone = true ∧ (!memory) = true
          · rw [if_pos hmem] at hdef
            dsimp only at hdef
            rw [hdef]
            refine .inl ⟨rfl, nofun, hord.mpr fun id' hid' h => ?_⟩
            obtain rfl := Option.some.inj hid'
            rcases h with h | h
            · rw [Option.isNone_iff_eq_none] at hmem
              rw [hmem.1] at h
              cases h
            · rw [h] at hmem
              cases hmem.2
          · rw [if_neg hmem] at hdef
            dsimp only at hdef
            right
            obtain ⟨hid, hzero⟩ := freefile_spec hfree
            have hgetD : (t.nif.f id).getD {} = t.nif.file id := rfl
            rw [hgetD] at hdef
            obtain ⟨owner, mode, hown⟩ :=
              netown_spec eve { t.nif.file id with inuse := 1 } user 0
            have hqid : isfile (NETQID id Nctlqid) ∧ NETID (NETQID id Nctlqid) = id := by
              unfold isfile NETTYPE NETID NETQID Nctlqid Ndataqid
              omega
            obtain ⟨g, hg⟩ := opened_admitfile eve omode user hid
              (filed_setFile t.nif id (netown eve { t.nif.file id with inuse := 1 } user 0).1)
              (by rw [hown, hzero]; rfl) (by rw [hown]) (by rw [hown]) (by rw [hown]) hqid.1 hqid.2
            rw [← hdef] at hg
            refine ⟨_, g, _, hg, ?_⟩
            have hcongr : Admits eve (netown eve (t.nif.file id) user 0).1 user omode ↔
                Admits eve (netown eve { t.nif.file id with inuse := 1 } user 0).1 user omode := by
              refine admits_congr ?_ ?_ <;>
              · unfold netown
                dsimp only
                split <;> rfl
            rw [hord, ← hcongr]
            refine ⟨fun h => h id rfl ?_, fun h id' hid' _ => Option.some.inj hid' ▸ h⟩
            rw [not_and_or] at hmem
            rcases hmem with hmem | hmem
            · left
              cases hf : t.nif.f id with
              | none =>
                rw [hf] at hmem
                exact absurd rfl hmem
              | some f => rfl
            · right
              simpa using hmem
      · rw [if_neg hclone] at hdef
        have hok : lets := by
          unfold lets Lets
          rw [if_neg hdir, if_neg hfile, if_neg hclone]
          trivial
        split at hdef
        · rw [hdef]
          exact .inl ⟨rfl, nofun, hok⟩
        · rw [hdef]
          refine .inl ⟨rfl, fun q hq => ?_, hok⟩
          obtain rfl := Except.ok.inj hq
          exact hfile

theorem idle_file (hinv : Inv t) (id : ℕ) : Idle (t.nif.file id) := by
  unfold Netif.file
  cases hf : t.nif.f id with
  | none => exact fun _ => ⟨rfl, rfl, rfl, rfl⟩
  | some f => exact hinv.idle id f hf

/-- A file that is opened is counted as before. -/
theorem used_opened (h : Counted t) (hinv : Inv t) {P : Netfile → Bool}
    (hinuse : g.inuse = (t.nif.file id).inuse + 1) (hP : P g = P (t.nif.file id))
    (hidle : (t.nif.file id).inuse = 0 → P (t.nif.file id) = false) :
    (0 : ℤ) + used P (t.nif.f id) = used P (some g) := by
  have hpos := tally_opens h hinv id
  have hne : g.inuse ≠ 0 := by omega
  rw [used_eq hne, hP, used_file, zero_add]
  by_cases hz : (t.nif.file id).inuse = 0
  · rw [used_eq_zero hz, hidle hz]
    rfl
  · exact used_eq hz

/-- What an open does: to no file, or to a file that gets the channel unless it is refused. -/
theorem open_spec (hinv : Inv t) (ht : exec eve t (.netifopen c path omode user memory) = some t') :
    let lets := Lets eve t.nif path omode user memory
    t'.nchan = t.nchan ∧ c < t.nchan ∧ t.chan c = none ∧
      ((t'.nif = t.nif ∧ lets ∧ (t'.chan = t.chan ∨
          ∃ q, ¬ isfile q ∧ t'.chan = Function.update t.chan c (some q))) ∨
        ∃ id g, id < t.nif.nfile ∧ Filed t.nif t'.nif id g ∧
          g.inuse = (t.nif.file id).inuse + 1 ∧ g.prom = (t.nif.file id).prom ∧
          g.scan = (t.nif.file id).scan ∧ g.type = (t.nif.file id).type ∧
          ((lets ∧ ∃ q, isfile q ∧ NETID q = id ∧ t'.chan = Function.update t.chan c (some q)) ∨
            ¬ lets ∧ t'.chan = t.chan)) := by
  intro lets
  unfold exec at ht
  dsimp only at ht
  split at ht
  case isFalse => cases ht
  case isTrue hc =>
  have hspec := netifopen_spec hinv eve path omode user memory
  dsimp only at hspec
  set r := netifopen t.nif eve path omode user memory with hr
  obtain ⟨nif, res⟩ := r
  rcases hspec with ⟨hnif, hno, hlets⟩ | ⟨id, g, ok, hopened, hlets⟩
  · dsimp only at hnif hno
    subst hnif
    cases res with
    | error e =>
      obtain rfl := Option.some.inj ht
      exact ⟨rfl, hc.1, hc.2, .inl ⟨rfl, hlets, .inl rfl⟩⟩
    | ok q =>
      obtain rfl := Option.some.inj ht
      exact ⟨rfl, hc.1, hc.2, .inl ⟨rfl, hlets, .inr ⟨q, hno q rfl, rfl⟩⟩⟩
  · by_cases hok : ok
    · obtain ⟨q, hres, hq, hqid⟩ := hopened.opened hok
      dsimp only at hres
      subst hres
      obtain rfl := Option.some.inj ht
      exact ⟨rfl, hc.1, hc.2, .inr ⟨id, g, hopened.lt, hopened.filed, hopened.inuse, hopened.prom,
        hopened.scan, hopened.type, .inl ⟨hlets.mpr hok, q, hq, hqid, rfl⟩⟩⟩
    · obtain ⟨e, hres⟩ := hopened.refused hok
      dsimp only at hres
      subst hres
      obtain rfl := Option.some.inj ht
      exact ⟨rfl, hc.1, hc.2, .inr ⟨id, g, hopened.lt, hopened.filed, hopened.inuse, hopened.prom,
        hopened.scan, hopened.type, .inr ⟨fun hl => hok (hlets.mp hl), rfl⟩⟩⟩

/-- The channels of a file behind an open. -/
theorem tally_open (hlt : c < t.nchan) (hc : t.chan c = none) (q j : ℕ) :
    tally t.nchan (opens j) (Function.update t.chan c (some q)) =
      tally t.nchan (opens j) t.chan + opens j (some q) := by
  have := tally_chan hlt (some q) j
  rwa [hc] at this

theorem chan_of_open {d q x : ℕ} (h : Function.update t.chan c (some q) d = some x) :
    t.chan d = some x ∨ d = c ∧ x = q := by
  by_cases hdc : d = c
  · rw [hdc, Function.update_self] at h
    exact .inr ⟨hdc, (Option.some.inj h).symm⟩
  · rw [Function.update_of_ne hdc] at h
    exact .inl h

/-- Files count their channels behind an open, just when it is not refused. -/
theorem counted_open (h : Counted t) (hinv : Inv t)
    (ht : exec eve t (.netifopen c path omode user memory) = some t') :
    (Lets eve t.nif path omode user memory → Inv t' ∧ Counted t') ∧
      (Counted t' → Lets eve t.nif path omode user memory) := by
  obtain ⟨hn, hlt, hc, hspec⟩ := open_spec hinv ht
  rcases hspec with ⟨hnif, hlets, hchan⟩ | ⟨id, g, hid, hfiled, hinuse, -, -, -, hspec⟩
  · refine ⟨fun _ => ?_, fun _ => hlets⟩
    obtain ⟨nif, nchan, chan⟩ := t'
    dsimp only at hnif hn hchan
    subst hnif hn
    rcases hchan with rfl | ⟨q, hq, rfl⟩
    · exact ⟨hinv, h⟩
    · refine ⟨⟨hinv.range, fun d x hd => ?_, fun d x hd hx => ?_, hinv.idle⟩, fun id f hf => ?_⟩
      · rcases chan_of_open hd with hd | ⟨rfl, -⟩
        · exact hinv.chan d x hd
        · exact hlt
      · rcases chan_of_open hd with hd | ⟨-, rfl⟩
        · exact hinv.file d x hd hx
        · exact absurd hx hq
      · dsimp only
        rw [tally_open hlt hc, opens_of_ne fun hx => absurd hx hq, add_zero]
        exact h id f hf
  · have hold := tally_opens h hinv id
    have hm := hfiled.moved
    rcases hspec with ⟨hlets, q, hq, hqid, hchan⟩ | ⟨hno, hchan⟩
    · refine ⟨fun _ => ?_, fun _ => hlets⟩
      refine ⟨inv_moved hinv hid hm hn (fun h0 => ?_) fun d x hd => ?_, counted_moved h hm ?_ ?_⟩
      · omega
      · rw [hchan] at hd
        rcases chan_of_open hd with hd | ⟨rfl, rfl⟩
        · exact .inl hd
        · exact .inr ⟨hlt, fun _ => hqid⟩
      · have hone : opens id (some q) = 1 := if_pos ⟨hq, hqid⟩
        rw [hn, hchan, tally_open hlt hc, hone, hinuse, hold]
        rfl
      · intro j hj
        rw [hn, hchan, tally_open hlt hc, opens_of_ne fun _ => hqid ▸ hj.symm, add_zero]
    · refine ⟨fun hl => absurd hl hno, fun h' => ?_⟩
      have h1 := h' id g hfiled.self
      rw [hn, hchan] at h1
      omega

/-- An open keeps the counters, just when it is not refused behind its file. -/
theorem accounted_open (h : Accounted t) (hinv : Inv t)
    (ht : exec eve t (.netifopen c path omode user memory) = some t') :
    Accounted t' ↔ Lets eve t.nif path omode user memory := by
  obtain ⟨hok, hno⟩ := counted_open h.inuse hinv ht
  refine ⟨fun h' => hno h'.inuse, fun hlets => ?_⟩
  obtain ⟨hinv', hcount⟩ := hok hlets
  obtain ⟨hn, hlt, hc, hspec⟩ := open_spec hinv ht
  rcases hspec with ⟨hnif, -, -⟩ | ⟨id, g, hid, hfiled, hinuse, hprom, hscan, htype, hspec⟩
  · exact ⟨hcount, hnif ▸ h.prom, hnif ▸ h.scan, hnif ▸ h.all, hnif ▸ h.type⟩
  · have hm := hfiled.moved
    have hidle := idle_file hinv id
    obtain ⟨-, q, hq, hqid, hchan⟩ := hspec.resolve_right fun hr => hr.1 hlets
    refine accounted_moved h hid hm (hcount id g hm.self) (fun j hj => ?_)
      (used_opened h.inuse hinv hinuse hprom fun hz => (hidle hz).1)
      (used_opened h.inuse hinv hinuse ?_ fun hz => ?_)
      (used_opened h.inuse hinv hinuse ?_ fun hz => ?_) fun _ hpos j f hj hf huse heq => ?_
    · rw [hn, hchan, tally_open hlt hc, opens_of_ne fun _ => hqid ▸ hj.symm, add_zero]
    · rw [isscan, isscan, hscan]
    · rw [isscan, (hidle hz).2.1]
      rfl
    · rw [isall, isall, htype]
    · rw [isall, (hidle hz).2.2.1]
      rfl
    · rw [htype] at hpos heq
      have hz : (t.nif.file id).inuse ≠ 0 := fun hz => by
        rw [(hidle hz).2.2.1] at hpos
        exact absurd hpos (lt_irrefl 0)
      cases hf' : t.nif.f id with
      | none =>
        rw [Netif.file, hf'] at hz
        exact hz rfl
      | some f' =>
        rw [file_eq hf'] at hpos heq hz
        exact hj (h.type j id f f' hf hf' huse hz (heq ▸ hpos) heq)

/-! ### Runs -/

/-- Files count their channels behind a step that does not refuse an open. -/
theorem counted_exec (h : Counted t) (hinv : Inv t) {op : Op}
    (hlets : ∀ c path omode user memory, op = .netifopen c path omode user memory →
      Lets eve t.nif path omode user memory) (ht : exec eve t op = some t') :
    Inv t' ∧ Counted t' := by
  cases op with
  | netifopen c path omode user memory =>
    exact (counted_open h hinv ht).1 (hlets c path omode user memory rfl)
  | netifwrite c a =>
    obtain ⟨path, hc, rfl⟩ := Option.map_eq_some_iff.mp ht
    exact counted_write h hinv hc a
  | netifclose c =>
    obtain ⟨path, hc, rfl⟩ := Option.map_eq_some_iff.mp ht
    exact counted_close h hinv hc

/-- A step keeps the counters, just when it is orderly. -/
theorem accounted_exec (h : Accounted t) (hinv : Inv t) {op : Op} (ht : exec eve t op = some t') :
    Accounted t' ↔ Orderly eve t op := by
  cases op with
  | netifopen c path omode user memory => exact accounted_open h hinv ht
  | netifwrite c a =>
    obtain ⟨path, hc, rfl⟩ := Option.map_eq_some_iff.mp ht
    exact accounted_write h hinv hc eve a
  | netifclose c =>
    obtain ⟨path, hc, rfl⟩ := Option.map_eq_some_iff.mp ht
    exact iff_of_true (accounted_close h hinv hc) trivial

theorem tally_none {α : Type} {w : Option α → ℕ} (hw : w none = 0) (n : ℕ) :
    tally n w (fun _ => none) = 0 :=
  tally_eq_zero_iff.mpr fun _ _ => hw

variable (nfile nchan alen : ℕ) (promiscuous multicast scanbs : Bool)

theorem inv_netifinit : Inv (netifinit nfile nchan promiscuous multicast scanbs alen) :=
  ⟨fun _ h => absurd rfl h, nofun, nofun, nofun⟩

theorem accounted_netifinit :
    Accounted (netifinit nfile nchan promiscuous multicast scanbs alen) := by
  have hzero (P : Netfile → Bool) : (0 : ℤ) = tally nfile (used P) fun _ => none := by
    have := tally_none (w := used P) rfl nfile
    omega
  refine ⟨fun _ _ h => ?_, hzero _, hzero _, hzero _, fun _ _ _ _ h => ?_⟩
  · cases h
  · cases h

/-- In a run from a new interface on, the counters count the channels of each file and the files in
use that are promiscuous, that scan and that get all packets, and no positive type is in use twice,
just when no open is refused behind its file, and no file that gets all packets is connected
again. -/
theorem counters_iff (eve : List Char) (ops : List Op) :
    (∀ t ∈ Run.states (exec eve) (netifinit nfile nchan promiscuous multicast scanbs alen) ops,
      Accounted t) ↔
    Run.Meets (exec eve) (Orderly eve) (netifinit nfile nchan promiscuous multicast scanbs alen)
      ops :=
  Run.forall_states_iff Inv (inv_netifinit _ _ _ _ _ _) (accounted_netifinit _ _ _ _ _ _)
    (fun _ _ _ hinv h hok ht => (counted_exec h.inuse hinv
      (fun _ _ _ _ _ hop => by subst hop; exact hok) ht).1)
    (fun _ _ _ hinv h ht => accounted_exec h hinv ht) ops

/-- The second of two connects to all packets. -/
theorem not_accounted_connect : ¬ ∀ t ∈ Run.states (exec "eve".toList)
    (netifinit 1 1 true true true 6)
    [.netifopen 0 Ncloneqid 2 "glenda".toList true, .netifwrite 0 "connect -1".toList,
      .netifwrite 0 "connect -1".toList], Accounted t := by
  have hlast : (Run.states (exec "eve".toList) (netifinit 1 1 true true true 6)
      [.netifopen 0 Ncloneqid 2 "glenda".toList true, .netifwrite 0 "connect -1".toList,
        .netifwrite 0 "connect -1".toList]).any (fun t =>
      t.nif.all ≠ tally t.nif.nfile (used isall) t.nif.f) = true := by
    decide +kernel
  intro h
  obtain ⟨t, ht, hbad⟩ := List.any_eq_true.mp hlast
  exact of_decide_eq_true hbad (h t ht).all

end PlanNine.Netdev
