import Mathlib.Data.List.Perm.Basic
import Mathlib.Data.List.Nodup
import PlanNine.Lib.Run

/-!
# The partitions of a disc

`sdaddpart` and `sddelpart` of `devsd.c`, with the table of the partitions of a unit. A slot of the
table may be invalid; it keeps its name then, and one that was never used has none. The table grows
when it is full.

Adding looks for the name and for a free slot at once, and stops at the first free slot. Deleting
looks at all slots, valid or not, and an unused one has a nil pointer for its name.

## Main definitions

* `SDpart`, `SDunit`: slots and units.
* `sdaddpart`, `sddelpart`: the two routines.
* `Right`: a call does what it should.
* `Sys`, `exec`: calls, with what is remembered of the last one.
* `Careful`: the condition under which a call does it.

## Main results

* `right_addpart_iff`, `right_delpart_iff`: a call of either kind.
* `partitions_iff`: all calls do what they should just when they are careful.
-/

namespace PlanNine.Partition

def SDnpart : ℕ := 16

def NPart : ℕ := 1 <<< 8

def Eperm : String := "permission denied"

def Eio : String := "i/o error"

def Ebadctl : String := "bad process or channel control request"

def Enomem : String := "kernel allocate failed"

/-- A slot. The name of one that was never used is nil. -/
structure SDpart where
  start : ℕ
  /-- `end`, the first sector behind the partition. -/
  limit : ℕ
  name : Option String
  user : Option String
  valid : Bool
  vers : ℕ
  deriving DecidableEq, Repr

/-- A slot that was never used. -/
def SDpart.unused : SDpart := ⟨0, 0, none, none, false, 0⟩

/-- The slots are none before the first call. -/
structure SDunit where
  sectors : ℕ
  part : List SDpart
  deriving DecidableEq, Repr

/-- What the loop of `sdaddpart` finds: the partition of that name, a free slot, or neither. -/
inductive Scan
  | same (pp : SDpart)
  | free (partno : ℕ)
  | full
  deriving DecidableEq, Repr

def scan (name : String) : List SDpart → ℕ → Scan
  | [], _ => .full
  | pp :: part, i =>
      if pp.valid = false then .free i
      else if pp.name = some name then .same pp
      else scan name part (i + 1)

namespace SDunit

/-- The end of `sdaddpart`: check the range, and use the slot. -/
def fill (u : SDunit) (eve name : String) (start limit partno : ℕ) : Option String × SDunit :=
  if limit < start ∨ u.sectors < limit then (some Eio, u)
  else
    (none, { u with part := u.part.modify partno fun pp =>
      { pp with start, limit, name := some name, user := some eve, valid := true } })

/-- The error, if there is one, and the unit. Whether `malloc` has memory is an input. -/
def sdaddpart (u : SDunit) (eve : String) (malloc : Bool) (name : String) (start limit : ℕ) :
    Option String × SDunit :=
  match scan name u.part 0 with
  | .same pp =>
      if pp.start = start ∧ pp.limit = limit then (none, u) else (some Ebadctl, u)
  | .free partno => u.fill eve name start limit partno
  | .full =>
      if NPart ≤ u.part.length ∨ malloc = false then (some Enomem, u)
      else
        SDunit.fill { u with part := u.part ++ List.replicate SDnpart .unused } eve name start limit
          u.part.length

/-- The loop of `sddelpart`. To compare with a nil name has no result. -/
def findName (name : String) : List SDpart → ℕ → Option (Option ℕ)
  | [], _ => some none
  | pp :: part, i =>
      match pp.name with
      | none => none
      | some n => if n = name then some (some i) else findName name part (i + 1)

def sddelpart (u : SDunit) (eve user name : String) : Option (Option String × SDunit) :=
  (findName name u.part 0).map fun
    | none => (some Ebadctl, u)
    | some i =>
        if (u.part[i]?.bind SDpart.user) ≠ some user ∧ user ≠ eve then (some Eperm, u)
        else
          (none, { u with part := u.part.modify i fun pp =>
            { pp with valid := false, vers := pp.vers + 1 } })

/-- The valid partitions. -/
def valids (u : SDunit) : List SDpart := u.part.filter SDpart.valid

/-- No two valid partitions have the same name. -/
def Distinct (u : SDunit) : Prop := (u.valids.map SDpart.name).Nodup

instance (u : SDunit) : Decidable u.Distinct := inferInstanceAs (Decidable (List.Nodup _))

end SDunit

open SDunit

/-- The calls, of a user and with what `malloc` says. -/
inductive Event
  | sdaddpart (malloc : Bool) (name : String) (start limit : ℕ)
  | sddelpart (user name : String)
  deriving DecidableEq, Repr

/-- What a call leaves. A call that uses a nil pointer leaves nothing. -/
def SDunit.call (u : SDunit) (eve : String) : Event → Option (Option String × SDunit)
  | .sdaddpart malloc name start limit => some (u.sdaddpart eve malloc name start limit)
  | .sddelpart user name => u.sddelpart eve user name

/-- What a call should do that has an error or none. One that fails leaves the valid partitions as
they are. A new name is added when the range is inside the unit and a slot remains. The one
partition that has the name is deleted for a user who may do so, and it is an error when there is
none. -/
def Right (u : SDunit) (eve : String) : Event → Option String → SDunit → Prop
  | .sdaddpart malloc name start limit, err, u' =>
      (err ≠ none → u'.valids = u.valids) ∧
      (some name ∉ u.valids.map SDpart.name → start ≤ limit → limit ≤ u.sectors →
        (∃ pp ∈ u.part, pp.valid = false) ∨ u.part.length < NPart ∧ malloc = true →
        err = none ∧ ∃ vers, u'.valids.Perm
          (⟨start, limit, some name, some eve, true, vers⟩ :: u.valids))
  | .sddelpart user name, err, u' =>
      (err ≠ none → u'.valids = u.valids) ∧
      (∀ i pp, u.part[i]? = some pp → pp.valid = true → pp.name = some name → user = eve →
        err = none ∧ u'.part = u.part.set i { pp with valid := false, vers := pp.vers + 1 }) ∧
      (some name ∉ u.valids.map SDpart.name → err ≠ none ∧ u' = u)

/-- No other valid partition of the name lies behind a free slot, or the range is refused. The first
slot that has the name or none is one of a valid partition, or one that the user may not delete. -/
def Careful (u : SDunit) (eve : String) : Event → Prop
  | .sdaddpart _ name start limit =>
      limit < start ∨ u.sectors < limit ∨
        some name ∉ ((u.part.dropWhile SDpart.valid).filter SDpart.valid).map SDpart.name
  | .sddelpart user name =>
      ∀ pp, u.part.find? (fun pp => pp.name = none ∨ pp.name = some name) = some pp →
        pp.name ≠ none ∧ (user = eve → pp.valid = true)

/-- The unit, and the last call with the unit before it and its result, if it had one. -/
structure Sys where
  unit : SDunit
  last : Option (SDunit × Event × Option (Option String))
  deriving Repr

def fresh (sectors : ℕ) : Sys := ⟨⟨sectors, []⟩, none⟩

namespace Sys

/-- Nothing is called behind the use of a nil pointer. -/
def exec (eve : String) (s : Sys) (e : Event) : Option Sys :=
  match s.last with
  | some (_, _, none) => none
  | _ =>
      match s.unit.call eve e with
      | none => some ⟨s.unit, some (s.unit, e, none)⟩
      | some (err, u) => some ⟨u, some (s.unit, e, some err)⟩

/-- Names are distinct, and the last call did what it should. -/
def Kept (eve : String) (s : Sys) : Prop :=
  s.unit.Distinct ∧ ∀ u e r, s.last = some (u, e, r) →
    ∃ err, r = some err ∧ Right u eve e err s.unit

end Sys

variable {u u' : SDunit} {eve name user : String} {malloc : Bool} {start limit i : ℕ}
  {pp : SDpart} {part xs ys : List SDpart} {err : Option String} {e : Event}

/-! ### Slots -/

/-- What the loop of `sdaddpart` has seen. -/
theorem scan_spec (name : String) (part : List SDpart) (k : ℕ) :
    (∃ xs pp ys, part = xs ++ pp :: ys ∧ (∀ q ∈ xs, q.valid = true ∧ q.name ≠ some name) ∧
      ((pp.valid = true ∧ pp.name = some name ∧ scan name part k = .same pp) ∨
        (pp.valid = false ∧ scan name part k = .free (k + xs.length)))) ∨
    ((∀ q ∈ part, q.valid = true ∧ q.name ≠ some name) ∧ scan name part k = .full) := by
  induction part generalizing k with
  | nil => exact .inr ⟨nofun, rfl⟩
  | cons pp part ih =>
    rw [scan]
    split_ifs with hv hn
    · exact .inl ⟨[], pp, part, rfl, nofun, .inr ⟨hv, rfl⟩⟩
    · exact .inl ⟨[], pp, part, rfl, nofun, .inl ⟨by simpa using hv, hn, rfl⟩⟩
    · have hself : pp.valid = true ∧ pp.name ≠ some name := ⟨by simpa using hv, hn⟩
      obtain ⟨xs, q, ys, rfl, hxs, hq⟩ | ⟨hall, hscan⟩ := ih (k + 1)
      · refine .inl ⟨pp :: xs, q, ys, rfl, List.forall_mem_cons.mpr ⟨hself, hxs⟩, ?_⟩
        rwa [List.length_cons, ← Nat.add_assoc, Nat.add_right_comm]
      · exact .inr ⟨List.forall_mem_cons.mpr ⟨hself, hall⟩, hscan⟩

/-- The loop of `sddelpart` and the first slot with the name or none. -/
theorem findName_eq (name : String) (part : List SDpart) (k : ℕ) :
    (part.find? (fun pp => pp.name = none ∨ pp.name = some name) = none ∧
      findName name part k = some none) ∨
    (∃ xs pp ys, part = xs ++ pp :: ys ∧ (∀ q ∈ xs, q.name ≠ some name) ∧
      part.find? (fun pp => pp.name = none ∨ pp.name = some name) = some pp ∧
      ((pp.name = none ∧ findName name part k = none) ∨
        (pp.name = some name ∧ findName name part k = some (some (k + xs.length))))) := by
  induction part generalizing k with
  | nil => exact .inl ⟨rfl, rfl⟩
  | cons pp part ih =>
    have hfirst : pp.name = none ∨ pp.name = some name →
        (pp :: part).find? (fun pp => pp.name = none ∨ pp.name = some name) = some pp := fun h => by
      rw [List.find?_cons_of_pos (by simpa using h)]
    rw [findName]
    cases hname : pp.name with
    | none => exact .inr ⟨[], pp, part, rfl, nofun, hfirst (.inl hname), .inl ⟨hname, rfl⟩⟩
    | some n =>
      dsimp only
      split_ifs with hn
      · subst hn
        exact .inr ⟨[], pp, part, rfl, nofun, hfirst (.inr hname), .inr ⟨hname, rfl⟩⟩
      · have hne : pp.name ≠ some name := fun h => hn (Option.some.inj (hname.symm.trans h))
        have hskip : (pp :: part).find? (fun pp => pp.name = none ∨ pp.name = some name) =
            part.find? (fun pp => pp.name = none ∨ pp.name = some name) :=
          List.find?_cons_of_neg (by simp [hname, hn])
        rw [hskip]
        obtain hnone | ⟨xs, q, ys, rfl, hxs, hq, hres⟩ := ih (k + 1)
        · exact .inl hnone
        · refine .inr ⟨pp :: xs, q, ys, rfl, List.forall_mem_cons.mpr ⟨hne, hxs⟩, hq, ?_⟩
          rwa [List.length_cons, ← Nat.add_assoc, Nat.add_right_comm]

theorem modify_append_length (f : SDpart → SDpart) (xs ys : List SDpart) (pp : SDpart) :
    (xs ++ pp :: ys).modify xs.length f = xs ++ f pp :: ys := by
  induction xs with
  | nil => rfl
  | cons q xs ih => rw [List.cons_append, List.length_cons, List.modify_succ_cons, ih]; rfl

/-- A slot that becomes a partition. -/
theorem valids_fill (eve name : String) (hpart : u.part = xs ++ pp :: ys) (hpp : pp.valid = false)
    (hin : start ≤ limit ∧ limit ≤ u.sectors) :
    ∃ u', u.fill eve name start limit xs.length = (none, u') ∧
      u'.part = xs ++ ⟨start, limit, some name, some eve, true, pp.vers⟩ :: ys ∧
      u'.valids.Perm (⟨start, limit, some name, some eve, true, pp.vers⟩ :: u.valids) := by
  have hnot : ¬ (limit < start ∨ u.sectors < limit) := by omega
  unfold fill
  rw [if_neg hnot]
  refine ⟨_, rfl, ?_, ?_⟩
  · dsimp only
    rw [hpart, modify_append_length]
  · unfold valids
    dsimp only
    rw [hpart, modify_append_length, List.filter_append, List.filter_append,
      List.filter_cons_of_pos rfl, List.filter_cons_of_neg (by rw [hpp]; exact Bool.false_ne_true)]
    exact List.perm_middle

/-- Slots that were never used add no partition. -/
theorem valids_append_unused (u : SDunit) :
    SDunit.valids { u with part := u.part ++ List.replicate SDnpart .unused } = u.valids := by
  unfold valids
  dsimp only
  rw [List.filter_append]
  exact List.append_nil _

theorem distinct_iff_pairwise : u.Distinct ↔ u.part.Pairwise fun pp q =>
    pp.valid = true → q.valid = true → pp.name ≠ q.name := by
  unfold Distinct valids List.Nodup
  rw [List.pairwise_map, List.pairwise_filter]

/-- A name belongs to one valid partition. -/
theorem eq_of_name {j : ℕ} {q : SDpart} (h : u.Distinct) (hi : u.part[i]? = some pp)
    (hj : u.part[j]? = some q) (hv : pp.valid = true) (hv' : q.valid = true)
    (hname : pp.name = q.name) : i = j := by
  obtain ⟨hlt, rfl⟩ := List.getElem?_eq_some_iff.mp hi
  obtain ⟨hlt', rfl⟩ := List.getElem?_eq_some_iff.mp hj
  have hpair := List.pairwise_iff_getElem.mp (distinct_iff_pairwise.mp h)
  obtain hij | hij | hij := Nat.lt_trichotomy i j
  · exact absurd hname (hpair i j hlt hlt' hij hv hv')
  · exact hij
  · exact absurd hname.symm (hpair j i hlt' hlt hij hv' hv)

/-! ### The invariant -/

/-- Valid slots have names, and all that have names belong to `eve`. -/
def Owned (u : SDunit) (eve : String) : Prop :=
  ∀ pp ∈ u.part, (pp.valid = true → pp.name ≠ none) ∧ (pp.name ≠ none → pp.user = some eve)

theorem Owned.append_unused (h : Owned u eve) :
    Owned { u with part := u.part ++ List.replicate SDnpart .unused } eve := by
  intro pp hpp
  obtain hpp | hpp := List.mem_append.mp hpp
  · exact h pp hpp
  · rw [List.eq_of_mem_replicate hpp]
    exact ⟨fun hv => absurd hv Bool.false_ne_true, fun hn => absurd rfl hn⟩

theorem Owned.fill (h : Owned u eve) (partno : ℕ) :
    Owned (u.fill eve name start limit partno).2 eve := by
  unfold SDunit.fill
  split_ifs
  · exact h
  · intro pp hpp
    obtain ⟨j, hlt, rfl⟩ := List.mem_iff_getElem.mp hpp
    rw [List.getElem_modify]
    split_ifs
    · exact ⟨fun _ => nofun, fun _ => rfl⟩
    · exact h _ (List.getElem_mem _)

theorem Owned.sdaddpart (h : Owned u eve) :
    Owned (u.sdaddpart eve malloc name start limit).2 eve := by
  unfold SDunit.sdaddpart
  split
  · split_ifs <;> exact h
  · exact h.fill _
  · split_ifs
    · exact h
    · exact h.append_unused.fill _

theorem Owned.sddelpart (h : Owned u eve) (hcall : u.sddelpart eve user name = some (err, u')) :
    Owned u' eve := by
  obtain ⟨o, -, hres⟩ := Option.map_eq_some_iff.mp hcall
  cases o with
  | none =>
    cases hres
    exact h
  | some i =>
    dsimp only at hres
    split_ifs at hres <;> cases hres
    · exact h
    · intro pp hpp
      obtain ⟨j, hlt, rfl⟩ := List.mem_iff_getElem.mp hpp
      dsimp only at hlt ⊢
      rw [List.length_modify] at hlt
      rw [List.getElem_modify]
      have hj := h _ (List.getElem_mem hlt)
      split_ifs
      · exact ⟨nofun, hj.2⟩
      · exact hj

theorem Owned.call (h : Owned u eve) (hcall : u.call eve e = some (err, u')) : Owned u' eve := by
  cases e with
  | sdaddpart malloc name start limit =>
    have hsnd : (u.sdaddpart eve malloc name start limit).2 = u' :=
      congrArg Prod.snd (Option.some.inj hcall)
    exact hsnd ▸ h.sdaddpart
  | sddelpart user name => exact h.sddelpart hcall

/-! ### Calls -/

theorem dropWhile_valid (h : ∀ q ∈ xs, q.valid = true) :
    (xs ++ ys).dropWhile SDpart.valid = ys.dropWhile SDpart.valid := by
  induction xs with
  | nil => rfl
  | cons q xs ih =>
    obtain ⟨hq, hxs⟩ := List.forall_mem_cons.mp h
    rw [List.cons_append, List.dropWhile_cons_of_pos hq, ih hxs]

theorem filter_dropWhile_sublist (part : List SDpart) :
    ((part.dropWhile SDpart.valid).filter SDpart.valid).Sublist (part.filter SDpart.valid) :=
  (List.dropWhile_sublist _).filter _

/-- An addition does what it should, and names stay distinct just when the call is careful. -/
theorem right_addpart_iff (hd : u.Distinct) (hcall :
      u.sdaddpart eve malloc name start limit = (err, u')) :
    u'.Distinct ∧ Right u eve (.sdaddpart malloc name start limit) err u' ↔
      Careful u eve (.sdaddpart malloc name start limit) := by
  unfold SDunit.sdaddpart at hcall
  obtain ⟨xs, pp, ys, hpart, hxs, hpp⟩ | ⟨hall, hscan⟩ := scan_spec name u.part 0
  · have hvalids : u.valids = xs ++ (pp :: ys).filter SDpart.valid := by
      unfold SDunit.valids
      rw [hpart, List.filter_append, List.filter_eq_self.mpr fun q hq => (hxs q hq).1]
    have hnot : some name ∉ xs.map SDpart.name := fun hmem => by
      obtain ⟨q, hq, hname⟩ := List.mem_map.mp hmem
      exact (hxs q hq).2 hname
    obtain ⟨hv, hname, hscan⟩ | ⟨hv, hscan⟩ := hpp
    · rw [List.filter_cons_of_pos hv] at hvalids
      have hu : u' = u := by
        rw [hscan] at hcall
        dsimp only at hcall
        split_ifs at hcall <;> cases hcall <;> rfl
      subst hu
      have hmem : some name ∈ u'.valids.map SDpart.name := by
        rw [hvalids, ← hname]
        exact List.mem_map_of_mem (List.mem_append_right _ List.mem_cons_self)
      refine iff_of_true ⟨hd, fun _ => rfl, fun hnew => absurd hmem hnew⟩ (.inr (.inr ?_))
      rw [hpart, dropWhile_valid fun q hq => (hxs q hq).1, List.dropWhile_cons_of_pos hv]
      unfold SDunit.Distinct at hd
      rw [hvalids, List.map_append, List.map_cons] at hd
      have hys := (List.nodup_cons.mp (List.nodup_append.mp hd).2.1).1
      rw [hname] at hys
      exact fun hin => hys (((filter_dropWhile_sublist ys).map SDpart.name).subset hin)
    · have hfree : ¬ pp.valid = true := by rw [hv]; exact Bool.false_ne_true
      rw [List.filter_cons_of_neg hfree] at hvalids
      rw [hscan, Nat.zero_add] at hcall
      dsimp only at hcall
      unfold Careful
      rw [hpart, dropWhile_valid fun q hq => (hxs q hq).1, List.dropWhile_cons_of_neg hfree,
        List.filter_cons_of_neg hfree]
      by_cases hin : start ≤ limit ∧ limit ≤ u.sectors
      · obtain ⟨u₁, hfill, -, hperm⟩ := valids_fill eve name hpart hv hin
        cases hfill.symm.trans hcall
        have hdist : u'.Distinct ↔ some name ∉ (ys.filter SDpart.valid).map SDpart.name := by
          unfold SDunit.Distinct at hd ⊢
          rw [(hperm.map _).nodup_iff, List.map_cons, List.nodup_cons, and_iff_left hd, hvalids,
            List.map_append, List.mem_append, or_iff_right hnot]
        rw [hdist]
        constructor
        · rintro ⟨h, -⟩
          exact .inr (.inr h)
        · rintro (h | h | h)
          · omega
          · omega
          · exact ⟨h, fun hne => absurd rfl hne, fun _ _ _ _ => ⟨rfl, pp.vers, hperm⟩⟩
      · have hbad : limit < start ∨ u.sectors < limit := by omega
        rw [SDunit.fill, if_pos hbad] at hcall
        cases hcall
        refine iff_of_true ⟨hd, fun _ => rfl, fun _ h h' => absurd ⟨h, h'⟩ hin⟩ ?_
        exact hbad.elim .inl fun h => .inr (.inl h)
  · have hnil : u.part.dropWhile SDpart.valid = [] := by
      have h : (u.part ++ []).dropWhile SDpart.valid = [] :=
        dropWhile_valid fun q hq => (hall q hq).1
      rwa [List.append_nil] at h
    have hvalids : u.valids = u.part := List.filter_eq_self.mpr fun q hq => (hall q hq).1
    have hnew : some name ∉ u.valids.map SDpart.name := fun hmem => by
      rw [hvalids] at hmem
      obtain ⟨q, hq, hname⟩ := List.mem_map.mp hmem
      exact (hall q hq).2 hname
    have hcareful : Careful u eve (.sdaddpart malloc name start limit) := by
      unfold Careful
      rw [hnil]
      exact .inr (.inr nofun)
    refine iff_of_true ?_ hcareful
    rw [hscan] at hcall
    dsimp only at hcall
    split_ifs at hcall with hfull
    · cases hcall
      refine ⟨hd, fun _ => rfl, fun _ _ _ hroom => ?_⟩
      obtain ⟨pp, hpp, hv⟩ | ⟨hlt, hmalloc⟩ := hroom
      · exact absurd (hall pp hpp).1 (by rw [hv]; exact Bool.false_ne_true)
      · obtain hle | hnone := hfull
        · exact absurd hle (Nat.not_le.mpr hlt)
        · exact absurd (hnone.symm.trans hmalloc) Bool.false_ne_true
    · by_cases hin : start ≤ limit ∧ limit ≤ u.sectors
      · have hgrown : u.part ++ List.replicate SDnpart .unused =
            u.part ++ SDpart.unused :: List.replicate (SDnpart - 1) .unused := rfl
        obtain ⟨u₁, hfill, -, hperm⟩ := valids_fill
          (u := ⟨u.sectors, u.part ++ List.replicate SDnpart .unused⟩) eve name hgrown rfl hin
        cases hfill.symm.trans hcall
        rw [valids_append_unused] at hperm
        refine ⟨?_, fun hne => absurd rfl hne, fun _ _ _ _ => ⟨rfl, _, hperm⟩⟩
        unfold SDunit.Distinct at hd ⊢
        rw [(hperm.map _).nodup_iff, List.map_cons, List.nodup_cons]
        exact ⟨hnew, hd⟩
      · have hbad : limit < start ∨ u.sectors < limit := by omega
        rw [SDunit.fill, if_pos hbad] at hcall
        cases hcall
        have hsame := valids_append_unused u
        refine ⟨?_, fun _ => hsame, fun _ h h' => absurd ⟨h, h'⟩ hin⟩
        unfold SDunit.Distinct at hd ⊢
        rwa [hsame]

/-- A slot that is given up. -/
theorem sublist_valids_modify (hpart : u.part = xs ++ pp :: ys) :
    (SDunit.valids { u with part := u.part.modify xs.length fun pp =>
      { pp with valid := false, vers := pp.vers + 1 } }).Sublist u.valids := by
  unfold SDunit.valids
  dsimp only
  rw [hpart, modify_append_length, List.filter_append, List.filter_append,
    List.filter_cons_of_neg Bool.false_ne_true]
  exact (List.Sublist.refl _).append ((List.sublist_cons_self pp ys).filter _)

/-- A deletion has a result and does what it should just when it is careful. -/
theorem right_delpart_iff (hd : u.Distinct) (ho : Owned u eve) :
    (∃ err u', u.sddelpart eve user name = some (err, u') ∧ u'.Distinct ∧
      Right u eve (.sddelpart user name) err u') ↔ Careful u eve (.sddelpart user name) := by
  obtain ⟨hfind, hname⟩ | ⟨xs, pp, ys, hpart, hxs, hfind, hpp⟩ := findName_eq name u.part 0
  · have hcareful : Careful u eve (.sddelpart user name) := fun pp h => by
      cases hfind.symm.trans h
    have hnone : ∀ q ∈ u.part, q.name ≠ some name := fun q hq h => by
      simpa [h] using List.find?_eq_none.mp hfind q hq
    refine iff_of_true ⟨some Ebadctl, u, ?_, hd, fun _ => rfl, ?_, fun _ => ⟨nofun, rfl⟩⟩ hcareful
    · rw [SDunit.sddelpart, hname]
      rfl
    · exact fun i pp hi _ h => absurd h (hnone pp (List.mem_of_getElem? hi))
  have hget : u.part[xs.length]? = some pp := by
    rw [hpart, List.getElem?_append_right (Nat.le_refl _), Nat.sub_self]
    rfl
  obtain ⟨hnil, hname⟩ | ⟨hname, hfound⟩ := hpp
  · -- The comparison with a nil name.
    refine iff_of_false ?_ fun hcareful => (hcareful pp hfind).1 hnil
    rintro ⟨err, u', h, -⟩
    rw [SDunit.sddelpart, hname] at h
    cases h
  have huser : (u.part[xs.length]?.bind SDpart.user) = some eve := by
    rw [hget]
    exact (ho pp (List.mem_of_getElem? hget)).2 (by rw [hname]; nofun)
  have hcall : u.sddelpart eve user name = some
      (if user = eve then (none, { u with part := u.part.modify xs.length fun pp =>
        { pp with valid := false, vers := pp.vers + 1 } }) else (some Eperm, u)) := by
    rw [SDunit.sddelpart, hfound, Nat.zero_add, Option.map_some]
    dsimp only
    rw [huser]
    by_cases hu : user = eve
    · rw [if_neg fun h => h.2 hu, if_pos hu]
    · rw [if_pos ⟨fun h => hu (Option.some.inj h).symm, hu⟩, if_neg hu]
  have hcareful : Careful u eve (.sddelpart user name) ↔ (user = eve → pp.valid = true) := by
    constructor
    · exact fun h => (h pp hfind).2
    · intro h q hq
      cases hfind.symm.trans hq
      exact ⟨by rw [hname]; nofun, h⟩
  rw [hcall, hcareful]
  by_cases hu : user = eve
  · rw [if_pos hu]
    have hset : u.part.modify xs.length (fun pp =>
        { pp with valid := false, vers := pp.vers + 1 }) =
        u.part.set xs.length { pp with valid := false, vers := pp.vers + 1 } := by
      rw [hpart, modify_append_length, List.set_append_right _ _ (Nat.le_refl _), Nat.sub_self]
      rfl
    constructor
    · rintro ⟨err, u', h, -, -, hone, hnone⟩ -
      cases h
      by_cases hmem : some name ∈ u.valids.map SDpart.name
      · -- The slot that is given up is the one of the valid partition.
        obtain ⟨q, hq, hqname⟩ := List.mem_map.mp hmem
        obtain ⟨hq, hqv⟩ := List.mem_filter.mp hq
        obtain ⟨j, hj⟩ := List.mem_iff_getElem?.mp hq
        obtain ⟨-, hsame⟩ := hone j q hj hqv hqname hu
        rw [hset] at hsame
        by_cases hij : xs.length = j
        · cases hget.symm.trans (hij ▸ hj)
          exact hqv
        · have hkeep := congrArg (fun l => l[j]?) hsame
          dsimp only at hkeep
          obtain ⟨hlt, -⟩ := List.getElem?_eq_some_iff.mp hj
          rw [List.getElem?_set_ne hij, List.getElem?_set_self hlt, hj] at hkeep
          have hfalse : q.valid = false := congrArg SDpart.valid (Option.some.inj hkeep)
          exact absurd (hfalse.symm.trans hqv) Bool.false_ne_true
      · exact absurd rfl (hnone hmem).1
    · intro hv
      have hv := hv hu
      refine ⟨none, _, rfl, ?_, fun h => absurd rfl h, fun i q hi hqv hqname _ => ⟨rfl, ?_⟩, ?_⟩
      · exact hd.sublist ((sublist_valids_modify hpart).map _)
      · obtain rfl : xs.length = i := eq_of_name hd hget hi hv hqv (hname.trans hqname.symm)
        cases hget.symm.trans hi
        exact hset
      · intro hnew
        have hmem : pp ∈ u.valids := List.mem_filter.mpr ⟨List.mem_of_getElem? hget, hv⟩
        exact absurd (hname ▸ List.mem_map_of_mem hmem) hnew
  · rw [if_neg hu]
    refine iff_of_true ⟨some Eperm, u, rfl, hd, fun _ => rfl, ?_, fun _ => ⟨nofun, rfl⟩⟩ ?_
    · exact fun _ _ _ _ _ h => absurd h hu
    · exact fun h => absurd h hu

/-- A call has a result and does what it should just when it is careful. -/
theorem right_call_iff (hd : u.Distinct) (ho : Owned u eve) (e : Event) :
    (∃ err u', u.call eve e = some (err, u') ∧ u'.Distinct ∧ Right u eve e err u') ↔
      Careful u eve e := by
  cases e with
  | sdaddpart malloc name start limit =>
    obtain ⟨err, u', hadd⟩ : ∃ err u', u.sdaddpart eve malloc name start limit = (err, u') :=
      ⟨_, _, rfl⟩
    rw [← right_addpart_iff hd hadd]
    constructor
    · rintro ⟨err', u₁, h, hright⟩
      cases hadd.symm.trans (Option.some.inj h)
      exact hright
    · exact fun h => ⟨err, u', congrArg some hadd, h⟩
  | sddelpart user name => exact right_delpart_iff hd ho

/-! ### Runs -/

/-- What a call leaves when the one before it had a result. -/
theorem exec_of_kept {s : Sys} (h : s.Kept eve) : s.exec eve e = some
    (match s.unit.call eve e with
    | none => ⟨s.unit, some (s.unit, e, none)⟩
    | some (err, u) => ⟨u, some (s.unit, e, some err)⟩) := by
  unfold Sys.exec
  obtain ⟨unit, last⟩ := s
  cases last with
  | none =>
    dsimp only
    cases unit.call eve e <;> rfl
  | some last =>
    obtain ⟨u, e', r⟩ := last
    obtain ⟨err, rfl, -⟩ := h.2 u e' r rfl
    dsimp only
    cases unit.call eve e <;> rfl

/-- A state is as it should be behind a call when the call had a result and did what it should. -/
theorem kept_exec_iff {s t : Sys} (h : s.Kept eve) (hexec : s.exec eve e = some t) :
    t.Kept eve ↔ ∃ err u', s.unit.call eve e = some (err, u') ∧ u'.Distinct ∧
      Right s.unit eve e err u' := by
  rw [exec_of_kept h] at hexec
  cases hcall : s.unit.call eve e with
  | none =>
    rw [hcall] at hexec
    cases hexec
    refine iff_of_false (fun hk => ?_) (by rintro ⟨err, u', h, -⟩; cases h)
    obtain ⟨err, hnone, -⟩ := hk.2 _ _ _ rfl
    cases hnone
  | some r =>
    obtain ⟨err, u'⟩ := r
    rw [hcall] at hexec
    cases hexec
    constructor
    · rintro ⟨hd, hlast⟩
      obtain ⟨err', herr, hright⟩ := hlast _ _ _ rfl
      cases herr
      exact ⟨err, u', rfl, hd, hright⟩
    · rintro ⟨err', u₁, heq, hd, hright⟩
      cases heq
      refine ⟨hd, fun u e r hr => ?_⟩
      cases hr
      exact ⟨err, rfl, hright⟩

theorem owned_exec {s t : Sys} (ho : Owned s.unit eve) (h : s.Kept eve)
    (hexec : s.exec eve e = some t) : Owned t.unit eve := by
  rw [exec_of_kept h] at hexec
  cases hcall : s.unit.call eve e with
  | none =>
    rw [hcall] at hexec
    cases hexec
    exact ho
  | some r =>
    rw [hcall] at hexec
    cases hexec
    exact ho.call hcall

/-- Names stay distinct and every call does what it should, just when all calls are careful. -/
theorem partitions_iff (eve : String) (sectors : ℕ) (l : List Event) :
    (∀ t ∈ Run.states (Sys.exec eve) (fresh sectors) l, t.Kept eve) ↔
      Run.Meets (Sys.exec eve) (fun s e => Careful s.unit eve e) (fresh sectors) l := by
  refine Run.forall_states_iff (fun s => Owned s.unit eve) (fun _ h => ?_) ?_ ?_ ?_ l
  · cases h
  · exact ⟨List.nodup_nil, fun _ _ _ h => by cases h⟩
  · exact fun s e t ho hkept _ hexec => owned_exec ho hkept hexec
  · exact fun s e t ho hkept hexec =>
      (kept_exec_iff hkept hexec).trans (right_call_iff hkept.1 ho e)

/-- The slot of a deleted partition hides another one that has the name. -/
theorem added_twice : ¬ ∀ (eve : String) (sectors : ℕ) (l : List Event),
    ∀ t ∈ Run.states (Sys.exec eve) (fresh sectors) l, t.unit.Distinct := by
  have hrun : ∃ t ∈ Run.states (Sys.exec "eve") (fresh 9)
      [.sdaddpart true "a" 0 1, .sdaddpart true "b" 1 2, .sddelpart "eve" "a",
        .sdaddpart true "b" 2 3], ¬ t.unit.Distinct := by
    decide +kernel
  obtain ⟨t, ht, hnot⟩ := hrun
  exact fun h => hnot (h _ _ _ t ht)

end PlanNine.Partition
