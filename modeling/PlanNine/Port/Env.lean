import PlanNine.Lib.Run
import PlanNine.Lib.Ulong

/-!
# Environment variables

`envread` and `envwrite` of `devenv.c` on one variable. The value is the bytes of `e->value`, of
which there are `e->len`. An offset is narrowed to an `ulong`, and the end of a write to an `int`.

## Main definitions

* `envread`, `envwrite`: the routines.
* `lay`: bytes laid over others.
* `Behaves`: a call that treats the value as an array of bytes.

## Main results

* `read_behaves_iff`, `write_behaves_iff`: when one call does so.
* `behaves_iff`: all calls of a run do so just when each of them meets the condition.
* `not_behaves_far`: a write far behind the value.
-/

namespace PlanNine.Env

def Maxenvsize : ℕ := 16300

/-- The count and the offset of a call. -/
structure Place where
  n : ℤ
  off : ℕ
  long : -2147483648 ≤ n ∧ n < 2147483648
  deriving DecidableEq

/-- A call on the variable: a read, or a write of the bytes `a`. -/
inductive Op
  | read (c : Place)
  | write (c : Place) (a : List UInt8) (h : a.length = c.n.toNat)

/-- What a call comes to: an error, the number of bytes written, the bytes read, or an access
outside of the value. -/
inductive Result
  | error
  | count (n : ℕ)
  | data (l : List UInt8)
  | outside
  deriving DecidableEq

/-- `ulong offset = off`. -/
def Place.offset (c : Place) : ℕ := c.off % 4294967296

def envread (v : List UInt8) (c : Place) : Result :=
  let n : ℤ :=
    if v.length < c.offset then 0
    else if v.length < ulong (c.offset + c.n) then v.length - c.offset
    else c.n
  if n ≤ 0 then .data []
  else if c.offset + n.toNat ≤ v.length then .data ((v.drop c.offset).take n.toNat)
  else .outside

/-- The value afterwards, and the result. -/
def envwrite (v : List UInt8) (c : Place) (a : List UInt8) : List UInt8 × Result :=
  if c.n ≤ 0 then (v, .count 0)
  else
    let vend := long (ulong (c.offset + c.n))
    if (Maxenvsize : ℤ) < vend then (v, .error)
    else
      let v := if (v.length : ℤ) < vend then v ++ List.replicate (vend.toNat - v.length) 0 else v
      if c.offset + c.n.toNat ≤ v.length then
        (v.take c.offset ++ a ++ v.drop (c.offset + c.n.toNat), .count c.n.toNat)
      else (v, .outside)

/-! ### Arrays of bytes -/

/-- The bytes `v`, with zeros up to the place `off` if there are fewer, and `a` laid over them
there. -/
def lay (v a : List UInt8) (off : ℕ) : List UInt8 :=
  (v ++ List.replicate (off - v.length) 0).take off ++ a ++ v.drop (off + a.length)

/-- A read has the bytes of its range that exist; a write raises an error, or lays its bytes over
the value, which does not grow too large. -/
def Behaves (v : List UInt8) : Op → List UInt8 × Result → Prop
  | .read c, (v', r) => v' = v ∧ r = .data ((v.drop c.off).take c.n.toNat)
  | .write c a _, (v', r) =>
    r = .error ∧ v' = v ∨ r ≠ .outside ∧ v' = lay v a c.off ∧ v'.length ≤ Maxenvsize

/-- A read of a count that is not negative, within the offsets of an `ulong`, or a read that finds
nothing. -/
def ReadMeets (v : List UInt8) (c : Place) : Prop :=
  0 ≤ c.n ∧ c.off < 4294967296 ∨ v.length ≤ c.offset ∨ c.n ≤ 0 ∧ -c.n ≤ c.offset

/-- A write within `Maxenvsize`, or one whose narrowed end is an `int` behind it; and a write of
nothing lies in the value. -/
def WriteMeets (v : List UInt8) (c : Place) : Prop :=
  if c.n ≤ 0 then c.off ≤ v.length
  else c.off + c.n ≤ Maxenvsize ∨
    Maxenvsize < c.offset + c.n ∧ c.offset + c.n < 2147483648 ∨
      4294967296 + Maxenvsize < c.offset + c.n

section

variable {v : List UInt8} {c : Place}

theorem offset_lt (c : Place) : c.offset < 4294967296 := Nat.mod_lt _ (by decide)

theorem offset_le (c : Place) : c.offset ≤ c.off := Nat.mod_le _ _

theorem offset_of_lt (h : c.off < 4294967296) : c.offset = c.off := Nat.mod_eq_of_lt h

theorem length_lay (v a : List UInt8) (off : ℕ) :
    (lay v a off).length = max v.length (off + a.length) := by
  simp only [lay, List.length_append, List.length_take, List.length_replicate, List.length_drop]
  omega

/-- Zeros as far as the end of what is laid over a value make no difference. -/
theorem fill_eq_lay (v a : List UInt8) (o : ℕ) :
    (v ++ List.replicate (o + a.length - v.length) 0).take o ++ a ++
      (v ++ List.replicate (o + a.length - v.length) 0).drop (o + a.length) = lay v a o := by
  have htake : (v ++ List.replicate (o + a.length - v.length) (0 : UInt8)).take o =
      (v ++ List.replicate (o - v.length) 0).take o := by
    rw [List.take_append, List.take_append, List.take_replicate, List.take_replicate]
    congr 2
    omega
  have hdrop : (v ++ List.replicate (o + a.length - v.length) (0 : UInt8)).drop (o + a.length) =
      v.drop (o + a.length) := by
    rw [List.drop_append, List.drop_replicate, Nat.sub_self, List.replicate_zero, List.append_nil]
  rw [htake, hdrop, lay]

/-- What a read returns: a negative count that the offset does not make up for is a large one. -/
theorem envread_eq (hv : v.length ≤ Maxenvsize) : envread v c = .data ((v.drop c.offset).take
    (if 0 ≤ c.n then c.n.toNat else if -c.n ≤ c.offset then 0 else v.length)) := by
  obtain ⟨hlow, hhigh⟩ := c.long
  have ho := offset_lt c
  simp only [Maxenvsize] at hv
  unfold envread
  by_cases hbehind : v.length < c.offset
  · simp only [if_pos hbehind, le_refl, if_true]
    rw [List.drop_eq_nil_of_le hbehind.le, List.take_nil]
  rw [if_neg hbehind]
  dsimp only
  by_cases hn : 0 ≤ c.n
  · have hsum : (ulong (c.offset + c.n) : ℤ) = c.offset + c.n := by
      unfold ulong
      omega
    rw [if_pos hn]
    by_cases hlong : v.length < ulong (c.offset + c.n)
    · have hrest : (v.drop c.offset).take c.n.toNat = v.drop c.offset :=
        List.take_of_length_le (by rw [List.length_drop]; omega)
      rw [if_pos hlong, hrest]
      by_cases hend : v.length = c.offset
      · rw [if_pos (by omega), List.drop_eq_nil_of_le hend.le]
      · rw [if_neg (by omega), if_pos (by omega),
          List.take_of_length_le (by rw [List.length_drop]; omega)]
    · rw [if_neg hlong]
      by_cases hzero : c.n = 0
      · rw [if_pos hzero.le, hzero, Int.toNat_zero, List.take_zero]
      · rw [if_neg (by omega), if_pos (by omega)]
  · rw [if_neg hn]
    by_cases hback : -c.n ≤ c.offset
    · have hsum : (ulong (c.offset + c.n) : ℤ) = c.offset + c.n := by
        unfold ulong
        omega
      have hshort : ¬v.length < ulong (c.offset + c.n) := by omega
      rw [if_pos hback, if_neg hshort, if_pos (by omega), List.take_zero]
    · have hlong : v.length < ulong (c.offset + c.n) := by
        unfold ulong
        omega
      rw [if_neg hback, if_pos hlong]
      by_cases hend : v.length = c.offset
      · rw [if_pos (by omega), List.drop_eq_nil_of_le hend.le, List.take_nil]
      · rw [if_neg (by omega), if_pos (by omega),
          List.take_of_length_le (by rw [List.length_drop]; omega),
          List.take_of_length_le (by rw [List.length_drop]; omega)]

/-- When a read returns the bytes of its range. -/
theorem read_behaves_iff (hv : v.length ≤ Maxenvsize) :
    envread v c = .data ((v.drop c.off).take c.n.toNat) ↔ ReadMeets v c := by
  have hle := offset_le c
  have ho := offset_lt c
  rw [envread_eq hv, Result.data.injEq, ReadMeets]
  by_cases hn : 0 ≤ c.n
  · rw [if_pos hn]
    by_cases hoff : c.off < 4294967296
    · rw [offset_of_lt hoff]
      exact iff_of_true rfl (.inl ⟨hn, hoff⟩)
    · have hfar : v.drop c.off = [] := by
        simp only [Maxenvsize] at hv
        exact List.drop_eq_nil_of_le (by omega)
      rw [hfar, List.take_nil, List.take_eq_nil_iff, List.drop_eq_nil_iff]
      omega
  · have hzero : c.n.toNat = 0 := by omega
    rw [if_neg hn, hzero, List.take_zero, List.take_eq_nil_iff, List.drop_eq_nil_iff]
    split <;> omega

/-- When a write raises an error or lays its bytes over the value. -/
theorem write_behaves_iff {a : List UInt8} (h : a.length = c.n.toNat) (hv : v.length ≤ Maxenvsize) :
    Behaves v (.write c a h) (envwrite v c a) ↔ WriteMeets v c := by
  obtain ⟨hlow, hhigh⟩ := c.long
  have ho := offset_lt c
  have hle := offset_le c
  rw [WriteMeets, envwrite]
  by_cases hn : c.n ≤ 0
  · rw [if_pos hn, if_pos hn]
    have ha : a = [] := List.length_eq_zero_iff.mp (by omega)
    have hlen := length_lay v a c.off
    constructor
    · rintro (⟨herr, -⟩ | ⟨-, hval, -⟩)
      · cases herr
      · rw [← hval] at hlen
        omega
    · intro hoff
      refine .inr ⟨by simp, ?_, hv⟩
      rw [lay, ha, Nat.sub_eq_zero_of_le hoff, List.replicate_zero, List.append_nil,
        List.append_nil, List.length_nil, Nat.add_zero, List.take_append_drop]
  rw [if_neg hn, if_neg hn]
  dsimp only
  by_cases hbig : (Maxenvsize : ℤ) < long (ulong (c.offset + c.n))
  · rw [if_pos hbig]
    refine iff_of_true (.inl ⟨rfl, rfl⟩) (.inr ?_)
    rw [long_ulong] at hbig
    simp only [Maxenvsize] at hbig ⊢
    omega
  rw [if_neg hbig]
  have hend := long_ulong (c.offset + c.n)
  simp only [Maxenvsize] at hbig hv ⊢
  by_cases hsmall : c.offset + c.n ≤ 16300
  · have hvend : long (ulong (c.offset + c.n)) = c.offset + c.n := by omega
    rw [hvend]
    have hfill : (if (v.length : ℤ) < c.offset + c.n then
        v ++ List.replicate ((c.offset + c.n).toNat - v.length) 0 else v) =
        v ++ List.replicate (c.offset + c.n.toNat - v.length) 0 := by
      split_ifs with hshort
      · congr 2
        omega
      · rw [Nat.sub_eq_zero_of_le (by omega), List.replicate_zero, List.append_nil]
    rw [hfill, if_pos (by rw [List.length_append, List.length_replicate]; omega)]
    have hcount : c.n.toNat = a.length := h.symm
    rw [hcount, fill_eq_lay]
    constructor
    · rintro (⟨herr, -⟩ | ⟨-, hval, hlen⟩)
      · cases herr
      · rw [hval, length_lay, Maxenvsize] at hlen
        omega
    · intro hmeets
      have hoff : c.offset = c.off := offset_of_lt (by omega)
      refine .inr ⟨by simp, by rw [hoff], ?_⟩
      rw [length_lay, Maxenvsize]
      omega
  · have hout : ¬c.offset + c.n.toNat ≤ (if (v.length : ℤ) < long (ulong (c.offset + c.n)) then
        v ++ List.replicate ((long (ulong (c.offset + c.n))).toNat - v.length) 0
        else v).length := by
      split_ifs
      · rw [List.length_append, List.length_replicate]
        omega
      · omega
    rw [if_neg hout]
    refine iff_of_false ?_ (by omega)
    rintro (⟨herr, -⟩ | ⟨hres, -⟩)
    · cases herr
    · exact hres rfl

theorem length_envwrite {a : List UInt8} (h : a.length = c.n.toNat) (hv : v.length ≤ Maxenvsize)
    (hmeets : WriteMeets v c) : (envwrite v c a).1.length ≤ Maxenvsize := by
  have hbehaves := (write_behaves_iff h hv).mpr hmeets
  generalize envwrite v c a = x at hbehaves ⊢
  obtain ⟨v', r⟩ := x
  rcases hbehaves with ⟨-, rfl⟩ | ⟨-, -, hlen⟩
  · exact hv
  · exact hlen

end

/-! ### Runs -/

/-- What the variable holds, and the last call with the value before it and what it came to. -/
structure State where
  value : List UInt8 := []
  call : Option (List UInt8 × Op × Result) := none

namespace State

def exec (s : State) : Op → Option State
  | .read c => some { s with call := some (s.value, .read c, envread s.value c) }
  | .write c a h =>
    some { value := (envwrite s.value c a).1
           call := some (s.value, .write c a h, (envwrite s.value c a).2) }

/-- The last call treats the value as an array of bytes. -/
def Behaves (s : State) : Prop := ∀ x ∈ s.call, Env.Behaves x.1 x.2.1 (s.value, x.2.2)

/-- The condition of a call. -/
def CallMeets (s : State) : Op → Prop
  | .read c => ReadMeets s.value c
  | .write c _ _ => WriteMeets s.value c

theorem behaves_exec_iff {s t : State} {op : Op} (hs : s.value.length ≤ Maxenvsize)
    (h : s.exec op = some t) : t.Behaves ↔ s.CallMeets op := by
  cases op with
  | read c =>
    obtain rfl := Option.some.inj h
    refine Iff.trans ?_ (read_behaves_iff hs)
    simp [Behaves, Env.Behaves]
  | write c a hlen =>
    obtain rfl := Option.some.inj h
    refine Iff.trans ?_ (write_behaves_iff hlen hs)
    simp [Behaves]

theorem length_exec {s t : State} {op : Op} (hs : s.value.length ≤ Maxenvsize)
    (hmeets : s.CallMeets op) (h : s.exec op = some t) : t.value.length ≤ Maxenvsize := by
  cases op with
  | read c =>
    obtain rfl := Option.some.inj h
    exact hs
  | write c a hlen =>
    obtain rfl := Option.some.inj h
    exact length_envwrite hlen hs hmeets

end State

/-- In a run every call treats the variable as an array of bytes just when every call meets the
condition. -/
theorem behaves_iff (ops : List Op) :
    (∀ s ∈ Run.states State.exec {} ops, s.Behaves) ↔
      Run.Meets State.exec State.CallMeets {} ops := by
  refine Run.forall_states_iff (fun s => s.value.length ≤ Maxenvsize) (Nat.zero_le _) ?_
    (fun s op t hs _ => State.length_exec hs) (fun s op t hs _ => State.behaves_exec_iff hs) ops
  intro x hx
  cases hx

/-- A byte at the offset `2 ^ 32` lands at the start of the value. -/
theorem not_behaves_far : ¬∀ ops, ∀ s ∈ Run.states State.exec {} ops, s.Behaves := by
  intro h
  let c : Place := ⟨1, 4294967296, by decide⟩
  have hbehaves := h [.write c [7] rfl] _ (List.mem_cons_of_mem _ (List.mem_singleton_self _))
  have hmeets : State.CallMeets {} (.write c [7] rfl) :=
    (State.behaves_exec_iff (Nat.zero_le _) rfl).mp hbehaves
  revert hmeets
  show ¬WriteMeets [] c
  unfold WriteMeets
  decide +kernel

end PlanNine.Env
