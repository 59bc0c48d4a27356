import PlanNine.Ip.Iproute.Forest
import PlanNine.Lib.Blocks
import PlanNine.Lib.Ulong

/-!
# The routing table

The routes of both versions of the protocol: addresses of one word and of four. A route is given by
an address and a mask. An address of version 4 that is written as one of version 6 is looked for
among the routes of version 4 first.

## Main definitions

* `v4addroute`, `v4delroute`, `v4lookup` and those of version 6: the operations.
* `Call`: what is done to the table, one call after the other.
* `Call.table4`, `Call.table6`: what a call means for the routes that are known.

## Main results

* `v4lookup_longest`, `v6lookup_longest`: after any calls, a lookup gives the route with the
  smallest range around the address.
* `flush_walk`: a flush takes the routes of a tag from the list of routes, and nothing else.
-/

namespace PlanNine.Iproute

scoped instance linearOrderBitVec {w : ℕ} : LinearOrder (BitVec w) :=
  LinearOrder.lift' BitVec.toNat fun _ _ => BitVec.eq_of_toNat_eq

/-- The four words of an address. -/
structure V6addr where
  w0 : BitVec 32
  w1 : BitVec 32
  w2 : BitVec 32
  w3 : BitVec 32
  deriving DecidableEq, Repr

namespace V6addr

def bits (a : V6addr) : BitVec 128 := a.w0 ++ a.w1 ++ (a.w2 ++ a.w3)

theorem toNat_bits (a : V6addr) : a.bits.toNat =
    (a.w0.toNat * 2 ^ 32 + a.w1.toNat) * 2 ^ 64 + (a.w2.toNat * 2 ^ 32 + a.w3.toNat) := by
  unfold bits
  rw [toNat_append_eq, toNat_append_eq, toNat_append_eq]

theorem bits_injective : Function.Injective bits := by
  intro a b h
  have h := congrArg BitVec.toNat h
  rw [toNat_bits, toNat_bits] at h
  have h1 := a.w1.isLt
  have h2 := a.w2.isLt
  have h3 := a.w3.isLt
  have h1' := b.w1.isLt
  have h2' := b.w2.isLt
  have h3' := b.w3.isLt
  obtain ⟨a0, a1, a2, a3⟩ := a
  obtain ⟨b0, b1, b2, b3⟩ := b
  simp only [V6addr.mk.injEq, ← BitVec.toNat_inj]
  dsimp only at *
  omega

instance : LinearOrder V6addr := LinearOrder.lift' bits bits_injective

def sa (a mask : V6addr) : V6addr :=
  ⟨a.w0 &&& mask.w0, a.w1 &&& mask.w1, a.w2 &&& mask.w2, a.w3 &&& mask.w3⟩

def ea (a mask : V6addr) : V6addr :=
  ⟨a.w0 ||| ~~~mask.w0, a.w1 ||| ~~~mask.w1, a.w2 ||| ~~~mask.w2, a.w3 ||| ~~~mask.w3⟩

theorem bits_sa (a mask : V6addr) : (a.sa mask).bits = a.bits &&& mask.bits := by
  unfold bits
  rw [BitVec.and_append, BitVec.and_append, BitVec.and_append]
  rfl

theorem bits_ea (a mask : V6addr) : (a.ea mask).bits = a.bits ||| ~~~mask.bits := by
  unfold bits
  rw [BitVec.not_append, BitVec.not_append, BitVec.not_append, BitVec.or_append, BitVec.or_append,
    BitVec.or_append]
  rfl

theorem lt_iff (a b : V6addr) : a < b ↔ a.bits.toNat < b.bits.toNat := Iff.rfl

theorem le_iff (a b : V6addr) : a ≤ b ↔ a.bits.toNat ≤ b.bits.toNat := Iff.rfl

theorem sa_le_ea (a mask : V6addr) : a.sa mask ≤ a.ea mask := by
  rw [le_iff, bits_sa, bits_ea]
  exact toNat_and_le_or a.bits mask.bits

end V6addr

/-- The loop of `lcmp`, over the words of both addresses. -/
def lcmpwords : List (BitVec 32 × BitVec 32) → ℤ
  | [] => 0
  | (x, y) :: l => if x > y then 1 else if x < y then -1 else lcmpwords l

def lcmp (a b : V6addr) : ℤ :=
  lcmpwords [(a.w0, b.w0), (a.w1, b.w1), (a.w2, b.w2), (a.w3, b.w3)]

/-- `rangecompare` of two routes of version 6. -/
def rangecompare6 (a b : NonemptyInterval V6addr) : RangeCompare :=
  if lcmp a.snd b.fst < 0 then .Rpreceeds
  else if lcmp a.fst b.snd > 0 then .Rfollows
  else if lcmp a.fst b.fst ≤ 0 ∧ lcmp a.snd b.snd ≥ 0 then
    if lcmp a.fst b.fst = 0 ∧ lcmp a.snd b.snd = 0 then .Requals else .Rcontains
  else .Rcontained

def Lroot : ℕ := 10

def V4H (a : BitVec 32) : ℕ := ((a &&& 0x07ffffff) >>> (32 - Lroot - 5)).toNat

def V6H (a : V6addr) : ℕ := ((a.w3 &&& 0x07ffffff) >>> (32 - Lroot - 5)).toNat

/-- `v4prefix`, the first twelve bytes of an address of version 4. -/
def v4prefix : List UInt8 := [0, 0, 0, 0, 0, 0, 0, 0, 0, 0, 0xff, 0xff]

/-- The first twelve bytes are `v4prefix`. -/
def V6addr.Isv4 (a : V6addr) : Prop := a.w0 = 0 ∧ a.w1 = 0 ∧ a.w2 = 0xffff

instance (a : V6addr) : Decidable a.Isv4 := inferInstanceAs (Decidable (_ ∧ _))

/-! ### Version 4 -/

/-- `sa` and `ea`. -/
def v4range (a mask : BitVec 32) : NonemptyInterval (BitVec 32) :=
  ⟨(a &&& mask, a &&& mask ||| ~~~mask), by
    rw [and_or_not]
    exact toNat_and_le_or a mask⟩

/-- The route with a range. `type` is an `uchar`. -/
def routeof {α : Type*} [LinearOrder α] (s : NonemptyInterval α) (tag gate : List UInt8)
    (type : ℕ) : Route α where
  address := s.fst
  endaddress := s.snd
  le := s.fst_le_snd
  type := type % 256
  gate := gate
  tag := tag
  ref := 1

def v4addroute (fuel : ℕ) (tag : List UInt8) (a mask : BitVec 32) (gate : List UInt8) (type : ℕ)
    (f : Routes (BitVec 32)) : Option (Routes (BitVec 32)) :=
  addroutes fuel V4H (routeof (v4range a mask) tag gate (Rv4 ||| type)) f

def v4delroute (fuel : ℕ) (a mask : BitVec 32) (f : Routes (BitVec 32)) :
    Option (Routes (BitVec 32)) :=
  delroutes fuel V4H (v4range a mask) f

/-- What the interface of a route is looked for by. -/
def v4gate (q : Route (BitVec 32)) : List UInt8 :=
  if q.type &&& Rifc ≠ 0 then v4prefix ++ hnputl q.address.toNat else v4prefix ++ q.gate

def v4lookup (ifcs : Ifcs) (a : BitVec 32) (c : Option (Rcache (BitVec 32)))
    (f : Routes (BitVec 32)) :
    Option (Route (BitVec 32)) × Option (Rcache (BitVec 32)) × Routes (BitVec 32) :=
  lookup V4H v4gate ifcs a c f

/-- What `delroute` deletes for a route: the mask is that of `convroute`. -/
def v4conv (r : Route (BitVec 32)) : NonemptyInterval (BitVec 32) :=
  v4range r.address (~~~(r.endaddress ^^^ r.address))

/-! ### Version 6 -/

/-- `sa` and `ea`. -/
def v6range (a mask : V6addr) : NonemptyInterval V6addr :=
  ⟨(a.sa mask, a.ea mask), V6addr.sa_le_ea a mask⟩

def v6addroute (fuel : ℕ) (tag : List UInt8) (a mask : V6addr) (gate : List UInt8) (type : ℕ)
    (f : Routes V6addr) : Option (Routes V6addr) :=
  addroutes fuel V6H (routeof (v6range a mask) tag gate type) f

def v6delroute (fuel : ℕ) (a mask : V6addr) (f : Routes V6addr) : Option (Routes V6addr) :=
  delroutes fuel V6H (v6range a mask) f

def v6gate (q : Route V6addr) : List UInt8 :=
  if q.type &&& Rifc ≠ 0 then
    hnputl q.address.w0.toNat ++ hnputl q.address.w1.toNat ++ hnputl q.address.w2.toNat ++
      hnputl q.address.w3.toNat
  else q.gate

def v6conv (r : Route V6addr) : NonemptyInterval V6addr :=
  v6range r.address ⟨~~~(r.endaddress.w0 ^^^ r.address.w0), ~~~(r.endaddress.w1 ^^^ r.address.w1),
    ~~~(r.endaddress.w2 ^^^ r.address.w2), ~~~(r.endaddress.w3 ^^^ r.address.w3)⟩

/-! ### Both versions -/

/-- `v4root` and `v6root`, with the generations. -/
structure Fs where
  v4 : Routes (BitVec 32)
  v6 : Routes V6addr

/-- The lookup of an address for no conversation, or of one that is not of version 4. -/
def v6lookup (ifcs : Ifcs) (a : V6addr) (c : Option (Rcache V6addr)) (f : Fs) :
    Option (Route (BitVec 32) ⊕ Route V6addr) × Option (Rcache V6addr) × Fs :=
  let (q, f) := if a.Isv4 then
      let (q, _, v4) := v4lookup ifcs a.w3 none f.v4
      (q, { f with v4 := v4 })
    else (none, f)
  match q with
  | some q => (some (.inl q), c, f)
  | none =>
    let (q, c, v6) := lookup V6H v6gate ifcs a c f.v6
    (q.map .inr, c, { f with v6 := v6 })

/-- The `flush` of `routewrite`. -/
def routeflushes (fuel : ℕ) (tag : Option (List UInt8)) (f : Fs) : Option Fs :=
  (flushroutes fuel V4H v4conv tag (1 <<< Lroot) f.v4).bind fun v4 =>
    (flushroutes fuel V6H v6conv tag (1 <<< Lroot) f.v6).map fun v6 => ⟨v4, v6⟩

/-- The routes that `ipwalkroutes` walks. -/
def ipwalkroutes (f : Fs) : List (Route (BitVec 32)) × List (Route V6addr) :=
  (walkroutes V4H (1 <<< Lroot) f.v4.root, walkroutes V6H (1 <<< Lroot) f.v6.root)

/-! ### Calls -/

/-- The table, and what a conversation of each version keeps. -/
structure State where
  fs : Fs := ⟨⟨fun _ => .nil, 0⟩, ⟨fun _ => .nil, 0⟩⟩
  c4 : Rcache (BitVec 32) := {}
  c6 : Rcache V6addr := {}

inductive Call
  | v4addroute (tag : List UInt8) (a mask : BitVec 32) (gate : List UInt8) (type : ℕ)
  | v6addroute (tag : List UInt8) (a mask : V6addr) (gate : List UInt8) (type : ℕ)
  | v4delroute (a mask : BitVec 32)
  | v6delroute (a mask : V6addr)
  | routeflush (tag : Option (List UInt8))
  | v4lookup (ifcs : Ifcs) (a : BitVec 32)
  | v6lookup (ifcs : Ifcs) (a : V6addr)
  | v4conv (ifcs : Ifcs)
  | v6conv (ifcs : Ifcs)

/-- The conversations send to `raddr4` and to `raddr6`. -/
def Call.exec (fuel : ℕ) (raddr4 : BitVec 32) (raddr6 : V6addr) (σ : State) :
    Call → Option State
  | .v4addroute tag a mask gate type =>
    (Iproute.v4addroute fuel tag a mask gate type σ.fs.v4).map fun v4 =>
      { σ with fs := { σ.fs with v4 := v4 } }
  | .v6addroute tag a mask gate type =>
    (Iproute.v6addroute fuel tag a mask gate type σ.fs.v6).map fun v6 =>
      { σ with fs := { σ.fs with v6 := v6 } }
  | .v4delroute a mask =>
    (Iproute.v4delroute fuel a mask σ.fs.v4).map fun v4 => { σ with fs := { σ.fs with v4 := v4 } }
  | .v6delroute a mask =>
    (Iproute.v6delroute fuel a mask σ.fs.v6).map fun v6 => { σ with fs := { σ.fs with v6 := v6 } }
  | .routeflush tag => (routeflushes fuel tag σ.fs).map fun fs => { σ with fs := fs }
  | .v4lookup ifcs a =>
    some { σ with fs := { σ.fs with v4 := (Iproute.v4lookup ifcs a none σ.fs.v4).2.2 } }
  | .v6lookup ifcs a => some { σ with fs := (Iproute.v6lookup ifcs a none σ.fs).2.2 }
  | .v4conv ifcs =>
    let out := Iproute.v4lookup ifcs raddr4 (some σ.c4) σ.fs.v4
    some { σ with fs := { σ.fs with v4 := out.2.2 }, c4 := out.2.1.getD σ.c4 }
  | .v6conv ifcs =>
    let out := Iproute.v6lookup ifcs raddr6 (some σ.c6) σ.fs
    some { σ with fs := out.2.2, c6 := out.2.1.getD σ.c6 }

def run (fuel : ℕ) (raddr4 : BitVec 32) (raddr6 : V6addr) (calls : List Call) (σ : State) :
    Option State :=
  calls.foldlM (Call.exec fuel raddr4 raddr6) σ

/-- The masks of a call have their ones first. -/
def Call.Masked : Call → Prop
  | .v4addroute _ _ mask _ _ | .v4delroute _ mask => Contiguous mask
  | .v6addroute _ _ mask _ _ | .v6delroute _ mask => Contiguous mask.bits
  | _ => True

/-- What a call means for the routes of version 4. -/
def Call.table4 (T : Table (BitVec 32)) : Call → Table (BitVec 32)
  | .v4addroute tag a mask gate type => T.add (v4range a mask) ⟨gate, (Rv4 ||| type) % 256, tag, 1⟩
  | .v4delroute a mask => T.del (v4range a mask)
  | .routeflush tag => T.flush tag
  | _ => T

/-- What a call means for the routes of version 6. -/
def Call.table6 (T : Table V6addr) : Call → Table V6addr
  | .v6addroute tag a mask gate type => T.add (v6range a mask) ⟨gate, type % 256, tag, 1⟩
  | .v6delroute a mask => T.del (v6range a mask)
  | .routeflush tag => T.flush tag
  | _ => T

/-- The routes of version 4 that are known after some calls. -/
def known4 (calls : List Call) : Table (BitVec 32) := calls.foldl Call.table4 fun _ => none

/-- The routes of version 6 that are known after some calls. -/
def known6 (calls : List Call) : Table V6addr := calls.foldl Call.table6 fun _ => none

def v4masked : Set (NonemptyInterval (BitVec 32)) :=
  {s | ∃ a mask, Contiguous mask ∧ s = v4range a mask}

def v6masked : Set (NonemptyInterval V6addr) :=
  {s | ∃ a mask : V6addr, Contiguous mask.bits ∧ s = v6range a mask}

/-! ### Ranges of masks -/

/-- The order of the words is that of the numbers they are the digits of. -/
theorem lcmp_spec (a b : V6addr) : (lcmp a b < 0 ↔ a < b) ∧ (0 < lcmp a b ↔ b < a) := by
  have hw (x y : BitVec 32) : x < y ↔ x.toNat < y.toNat := Iff.rfl
  have h1 := a.w1.isLt
  have h2 := a.w2.isLt
  have h3 := a.w3.isLt
  have h1' := b.w1.isLt
  have h2' := b.w2.isLt
  have h3' := b.w3.isLt
  simp only [lcmp, lcmpwords, V6addr.lt_iff, V6addr.toNat_bits, gt_iff_lt, hw]
  split_ifs <;> constructor <;> omega

/-- The ranges of version 6 are compared as those of version 4. -/
theorem rangecompare6_eq (a b : NonemptyInterval V6addr) :
    rangecompare6 a b = rangecompare a b := by
  have heq (x y : V6addr) : lcmp x y = 0 ↔ x = y := by
    obtain ⟨hlt, hgt⟩ := lcmp_spec x y
    rw [← not_iff_not, ← Ne, ← Ne, ne_iff_lt_or_gt, hlt, hgt, ne_iff_lt_or_gt]
  have hle (x y : V6addr) : lcmp x y ≤ 0 ↔ x ≤ y := by rw [← not_lt, ← not_lt, (lcmp_spec x y).2]
  have hge (x y : V6addr) : lcmp x y ≥ 0 ↔ x ≥ y := by
    rw [ge_iff_le, ge_iff_le, ← not_lt, ← not_lt, (lcmp_spec x y).1]
  unfold rangecompare6 rangecompare
  simp only [(lcmp_spec _ _).1, (lcmp_spec _ _).2, heq, hle, hge, gt_iff_lt]
  split_ifs <;> rfl

theorem hash_eq (w : BitVec 32) :
    ((w &&& 0x07ffffff) >>> (32 - Lroot - 5)).toNat = w.toNat % 2 ^ 27 / 2 ^ 17 := by
  have hmask : (0x07ffffff : BitVec 32).toNat = 2 ^ 27 - 1 := rfl
  rw [BitVec.toNat_ushiftRight, BitVec.toNat_and, hmask, Nat.and_two_pow_sub_one_eq_mod,
    Nat.shiftRight_eq_div_pow]
  rfl

theorem hashed_of_block {α : Type*} [LinearOrder α] (val : α → ℕ) {hash : α → ℕ}
    {U : Set (NonemptyInterval α)} (hval : StrictMono val)
    (hhash : ∀ a, hash a = val a % 2 ^ 27 / 2 ^ 17) (hU : ∀ s ∈ U, IsBlock val s) :
    Hashed hash U := by
  refine ⟨fun s hs s' hs' => (hU s hs).laminar hval (hU s' hs'), fun s hs a ha => ?_⟩
  obtain ⟨hle, hge⟩ := (hU s hs).mod_le hval ha 27
  rw [hhash, hhash, hhash]
  exact ⟨Nat.div_le_div_right hle, Nat.div_le_div_right hge⟩

theorem hash_lt (n : ℕ) : n % 2 ^ 27 / 2 ^ 17 < 1 <<< Lroot := by
  change n % 2 ^ 27 / 2 ^ 17 < 1024
  omega

theorem hashed_v4 : Hashed V4H v4masked := by
  refine hashed_of_block BitVec.toNat (fun _ _ h => h) hash_eq ?_
  rintro _ ⟨a, _, ⟨k, hk, rfl⟩, rfl⟩
  refine ⟨k, a.toNat / 2 ^ k, ?_, ?_⟩
  · rw [mul_comm]
    exact toNat_and_mask a
  · rw [mul_comm]
    exact toNat_or_mask a hk

theorem V6H_eq (a : V6addr) : V6H a = a.bits.toNat % 2 ^ 27 / 2 ^ 17 := by
  have h := hash_eq a.w3
  unfold V6H
  rw [h, V6addr.toNat_bits]
  omega

theorem hashed_v6 : Hashed V6H v6masked := by
  refine hashed_of_block (fun a => a.bits.toNat) (fun _ _ h => h) V6H_eq ?_
  rintro _ ⟨a, mask, ⟨k, hk, hmask⟩, rfl⟩
  refine ⟨k, a.bits.toNat / 2 ^ k, ?_, ?_⟩
  · change (a.sa mask).bits.toNat = _
    rw [mul_comm, V6addr.bits_sa, hmask]
    exact toNat_and_mask a.bits
  · change (a.ea mask).bits.toNat = _
    rw [mul_comm, V6addr.bits_ea, hmask, ← and_or_not]
    exact toNat_or_mask a.bits hk

theorem and_self_mask {w : ℕ} (x m : BitVec w) : x &&& m &&& m = x &&& m := by
  rw [BitVec.and_assoc, BitVec.and_self]

theorem v4conv_eq (r : Route (BitVec 32)) (hr : r.span ∈ v4masked) : v4conv r = r.span := by
  obtain ⟨a, mask, -, hspan⟩ := hr
  have hfst : r.address = a &&& mask := congrArg (fun s => s.fst) hspan
  have hsnd : r.endaddress = a ||| ~~~mask :=
    (congrArg (fun s => s.snd) hspan).trans (and_or_not a mask)
  unfold v4conv
  rw [hspan, hsnd, hfst, not_xor_eq]
  exact NonemptyInterval.ext (Prod.ext (and_self_mask a mask)
    (congrArg (· ||| ~~~mask) (and_self_mask a mask)))

theorem v6conv_eq (r : Route V6addr) (hr : r.span ∈ v6masked) : v6conv r = r.span := by
  obtain ⟨a, mask, -, hspan⟩ := hr
  have hfst : r.address = a.sa mask := congrArg (fun s => s.fst) hspan
  have hsnd : r.endaddress = a.ea mask := congrArg (fun s => s.snd) hspan
  unfold v6conv
  rw [hspan, hsnd, hfst]
  unfold V6addr.sa V6addr.ea
  dsimp only
  rw [not_xor_eq, not_xor_eq, not_xor_eq, not_xor_eq]
  unfold v6range V6addr.sa V6addr.ea
  refine NonemptyInterval.ext (Prod.ext ?_ ?_)
  · dsimp only
    rw [and_self_mask, and_self_mask, and_self_mask, and_self_mask]
  · dsimp only
    rw [and_or_not, and_or_not, and_or_not, and_or_not]

/-! ### Runs -/

/-- What a lookup gives for an address of version 6: the route with the smallest range, of version 4
if there is one. -/
inductive Routed (ifcs : Ifcs) (T4 : Table (BitVec 32)) (T6 : Table V6addr) (a : V6addr) :
    Option (Route (BitVec 32) ⊕ Route V6addr) → Prop
  | v4 {e : Route (BitVec 32)} (hv4 : a.Isv4) (he : Longest T4 a.w3 e) :
    Routed ifcs T4 T6 a (some (.inl e))
  | v6 {e : Route V6addr} (hv4 : a.Isv4 → Unrouted ifcs v4gate T4 a.w3) (he : Longest T6 a e) :
    Routed ifcs T4 T6 a (some (.inr e))
  | none (hv4 : a.Isv4 → Unrouted ifcs v4gate T4 a.w3) (hv6 : Unrouted ifcs v6gate T6 a) :
    Routed ifcs T4 T6 a none

/-- Both tables are sound. -/
structure Sounds (raddr4 : BitVec 32) (raddr6 : V6addr) (T4 : Table (BitVec 32)) (T6 : Table V6addr)
    (m : ℕ) (σ : State) : Prop where
  v4 : ∃ k, Sound V4H v4masked raddr4 σ.fs.v4 T4 σ.c4 k m
  v6 : ∃ k, Sound V6H v6masked raddr6 σ.fs.v6 T6 σ.c6 k m

variable {fuel m : ℕ} {raddr4 : BitVec 32} {raddr6 : V6addr} {T4 : Table (BitVec 32)}
  {T6 : Table V6addr} {σ : State} {ifcs : Ifcs} {x : Call} {calls : List Call}

theorem hash_lt_v4 (s : NonemptyInterval (BitVec 32)) : V4H s.fst < 1 <<< Lroot := by
  unfold V4H
  rw [hash_eq]
  exact hash_lt _

theorem hash_lt_v6 (s : NonemptyInterval V6addr) : V6H s.fst < 1 <<< Lroot := by
  rw [V6H_eq]
  exact hash_lt _

theorem Sounds.v4lookup (h : Sounds raddr4 raddr6 T4 T6 m σ) (hm : m < 2 ^ 32) (ifcs : Ifcs)
    {a : BitVec 32} {c : Option (Rcache (BitVec 32))} (hc : c = none ∨ a = raddr4 ∧ c = some σ.c4) :
    ∃ q c' f', v4lookup ifcs a c σ.fs.v4 = (q, c', f') ∧
      Sounds raddr4 raddr6 T4 T6 m
        { σ with fs := { σ.fs with v4 := f' }, c4 := c'.getD σ.c4 } ∧ (c = none → c' = none) ∧
      (∀ e, q = some e → Longest T4 a e) ∧ (q = none → Unrouted ifcs v4gate T4 a) := by
  obtain ⟨k, h4⟩ := h.v4
  obtain ⟨q, c', f', hrun, h4', hnil, hsome, hnone⟩ := h4.lookup hashed_v4 hm ifcs v4gate hc
  exact ⟨q, c', f', hrun, ⟨⟨k, h4'⟩, h.v6⟩, hnil, hsome, hnone⟩

theorem Sounds.v6lookup (h : Sounds raddr4 raddr6 T4 T6 m σ) (hm : m < 2 ^ 32) (ifcs : Ifcs)
    {a : V6addr} {c : Option (Rcache V6addr)} (hc : c = none ∨ a = raddr6 ∧ c = some σ.c6) :
    ∃ q c' f', v6lookup ifcs a c σ.fs = (q, c', f') ∧
      Sounds raddr4 raddr6 T4 T6 m { σ with fs := f', c6 := c'.getD σ.c6 } ∧
      (c = none → c' = none) ∧ Routed ifcs T4 T6 a q := by
  -- what follows when no route of version 4 is found
  have hrest (f : Fs) (hf : Sounds raddr4 raddr6 T4 T6 m { σ with fs := f })
      (hv4 : a.Isv4 → Unrouted ifcs v4gate T4 a.w3) :
      ∃ q c' v6, lookup V6H v6gate ifcs a c f.v6 = (q, c', v6) ∧
        Sounds raddr4 raddr6 T4 T6 m
          { σ with fs := { f with v6 := v6 }, c6 := c'.getD σ.c6 } ∧
        (c = none → c' = none) ∧ Routed ifcs T4 T6 a (q.map .inr) := by
    obtain ⟨k, h6⟩ := hf.v6
    obtain ⟨q, c', v6, hrun, h6', hnil, hsome, hnone⟩ := h6.lookup hashed_v6 hm ifcs v6gate hc
    refine ⟨q, c', v6, hrun, ⟨hf.v4, ⟨k, h6'⟩⟩, hnil, ?_⟩
    cases q with
    | none => exact .none hv4 (hnone rfl)
    | some e => exact .v6 hv4 (hsome e rfl)
  unfold Iproute.v6lookup
  by_cases hv4 : a.Isv4
  · obtain ⟨q, c', f', hrun, hf, hnil, hsome, hnone⟩ := h.v4lookup hm ifcs (a := a.w3) (.inl rfl)
    rw [hnil rfl] at hf
    rw [if_pos hv4, hrun]
    dsimp only
    cases q with
    | some e =>
      refine ⟨_, c, _, rfl, ?_, id, .v4 hv4 (hsome e rfl)⟩
      obtain rfl | ⟨-, rfl⟩ := hc
      · exact hf
      · exact hf
    | none =>
      obtain ⟨q, c', v6, hrun6, hrest⟩ := hrest _ hf fun _ => hnone rfl
      dsimp only
      rw [hrun6]
      exact ⟨_, _, _, rfl, hrest⟩
  · rw [if_neg hv4]
    dsimp only
    obtain ⟨q, c', v6, hrun6, hrest⟩ := hrest σ.fs h fun h => absurd h hv4
    rw [hrun6]
    exact ⟨_, _, _, rfl, hrest⟩

theorem Sounds.mono {m' : ℕ} (h : Sounds raddr4 raddr6 T4 T6 m σ) (hm : m ≤ m') :
    Sounds raddr4 raddr6 T4 T6 m' σ :=
  ⟨h.v4.imp fun _ h4 => h4.mono hm, h.v6.imp fun _ h6 => h6.mono hm⟩

theorem Sounds.routeflushes (h : Sounds raddr4 raddr6 T4 T6 m σ) (hfuel : m + 3 ≤ fuel)
    (tag : Option (List UInt8)) : ∃ fs, routeflushes fuel tag σ.fs = some fs ∧
      Sounds raddr4 raddr6 (T4.flush tag) (T6.flush tag) m { σ with fs := fs } := by
  obtain ⟨k4, h4⟩ := h.v4
  obtain ⟨k6, h6⟩ := h.v6
  obtain ⟨v4, k4', hrun4, hsound4⟩ := h4.flush hashed_v4 v4conv_eq
    (fun s _ => hash_lt_v4 s) hfuel tag
  obtain ⟨v6, k6', hrun6, hsound6⟩ := h6.flush hashed_v6 v6conv_eq
    (fun s _ => hash_lt_v6 s) hfuel tag
  refine ⟨⟨v4, v6⟩, ?_, ⟨⟨k4', hsound4⟩, ⟨k6', hsound6⟩⟩⟩
  unfold Iproute.routeflushes
  rw [hrun4, Option.bind_some, hrun6]
  rfl

/-- One call does to the trees what it means for the routes. -/
theorem Sounds.exec (h : Sounds raddr4 raddr6 T4 T6 m σ) (hx : x.Masked) (hm : m < 2 ^ 32)
    (hfuel : m + 3 ≤ fuel) : ∃ σ', x.exec fuel raddr4 raddr6 σ = some σ' ∧
      Sounds raddr4 raddr6 (x.table4 T4) (x.table6 T6) (m + 2) σ' := by
  have hle := Nat.le_add_right m 2
  have hmono := h.mono hle
  obtain ⟨k4, h4⟩ := h.v4
  obtain ⟨k6, h6⟩ := h.v6
  cases x with
  | v4addroute tag a mask gate type =>
    have hnew : (routeof (v4range a mask) tag gate (Rv4 ||| type)).span ∈ v4masked :=
      ⟨a, mask, hx, rfl⟩
    obtain ⟨f', hrun, hsound⟩ := h4.add hashed_v4 hnew rfl (by omega : 0 < fuel)
    exact ⟨_, congrArg (Option.map _) hrun, ⟨⟨_, hsound⟩, hmono.v6⟩⟩
  | v6addroute tag a mask gate type =>
    have hnew : (routeof (v6range a mask) tag gate type).span ∈ v6masked := ⟨a, mask, hx, rfl⟩
    obtain ⟨f', hrun, hsound⟩ := h6.add hashed_v6 hnew rfl (by omega : 0 < fuel)
    exact ⟨_, congrArg (Option.map _) hrun, ⟨hmono.v4, ⟨_, hsound⟩⟩⟩
  | v4delroute a mask =>
    obtain ⟨f', hrun, hsound⟩ := h4.del hashed_v4 (s := v4range a mask) ⟨a, mask, hx, rfl⟩
      (by omega : 3 ≤ fuel)
    exact ⟨_, congrArg (Option.map _) hrun, ⟨⟨_, hsound.mono (Nat.le_succ _)⟩, hmono.v6⟩⟩
  | v6delroute a mask =>
    obtain ⟨f', hrun, hsound⟩ := h6.del hashed_v6 (s := v6range a mask) ⟨a, mask, hx, rfl⟩
      (by omega : 3 ≤ fuel)
    exact ⟨_, congrArg (Option.map _) hrun, ⟨hmono.v4, ⟨_, hsound.mono (Nat.le_succ _)⟩⟩⟩
  | routeflush tag =>
    obtain ⟨fs, hrun, hsound⟩ := h.routeflushes hfuel tag
    refine ⟨{ σ with fs := fs }, ?_, hsound.mono hle⟩
    unfold Call.exec
    dsimp only
    rw [hrun, Option.map_some]
  | v4lookup ifcs a =>
    obtain ⟨q, c', f', hrun, hsound, hnil, -⟩ := h.v4lookup hm ifcs (a := a) (.inl rfl)
    rw [hnil rfl] at hsound
    refine ⟨_, rfl, ?_⟩
    rw [hrun]
    exact hsound.mono hle
  | v6lookup ifcs a =>
    obtain ⟨q, c', f', hrun, hsound, hnil, -⟩ := h.v6lookup hm ifcs (a := a) (.inl rfl)
    rw [hnil rfl] at hsound
    refine ⟨_, rfl, ?_⟩
    rw [hrun]
    exact hsound.mono hle
  | v4conv ifcs =>
    obtain ⟨q, c', f', hrun, hsound, -⟩ := h.v4lookup hm ifcs (.inr ⟨rfl, rfl⟩)
    refine ⟨_, rfl, ?_⟩
    rw [hrun]
    exact hsound.mono hle
  | v6conv ifcs =>
    obtain ⟨q, c', f', hrun, hsound, -⟩ := h.v6lookup hm ifcs (.inr ⟨rfl, rfl⟩)
    refine ⟨_, rfl, ?_⟩
    rw [hrun]
    exact hsound.mono hle

/-- A run does to the trees what its calls mean for the routes. -/
theorem Sounds.run (h : Sounds raddr4 raddr6 T4 T6 m σ) (hcalls : ∀ x ∈ calls, x.Masked)
    (hm : m + 2 * calls.length < 2 ^ 32) (hfuel : m + 2 * calls.length + 3 ≤ fuel) :
    ∃ σ', run fuel raddr4 raddr6 calls σ = some σ' ∧ Sounds raddr4 raddr6
      (calls.foldl Call.table4 T4) (calls.foldl Call.table6 T6) (m + 2 * calls.length) σ' := by
  induction calls generalizing T4 T6 m σ with
  | nil => exact ⟨σ, rfl, h⟩
  | cons x calls ih =>
    rw [List.length_cons] at hm hfuel
    obtain ⟨σ₁, hexec, h₁⟩ := h.exec (hcalls x List.mem_cons_self) (by omega)
      (by omega : m + 3 ≤ fuel)
    obtain ⟨σ', hrun, h'⟩ := ih h₁ (fun y hy => hcalls y (List.mem_cons_of_mem x hy)) (by omega)
      (by omega)
    refine ⟨σ', ?_, h'.mono (by rw [List.length_cons]; omega)⟩
    unfold Iproute.run
    rw [List.foldlM_cons, hexec]
    exact hrun

theorem sound_empty {α : Type*} [LinearOrder α] (hash : α → ℕ) (U : Set (NonemptyInterval α))
    (a : α) : Sound hash U a ⟨fun _ => .nil, 0⟩ (fun _ => none) {} 0 0 := by
  refine ⟨fun h => ⟨.nil, fun s c => ⟨?_, fun hc => ?_⟩⟩, ⟨?_, ?_⟩, rfl, ?_, ∅, ?_, le_rfl⟩
  · rintro ⟨x, hx, -⟩
    exact absurd hx (Multiset.notMem_zero x)
  · unfold Table.within at hc
    split_ifs at hc
  · rintro _ _ ⟨⟩
  · rintro _ _ ⟨⟩
  · rintro _ ⟨⟩
  · rintro _ _ ⟨⟩

theorem sounds_empty (raddr4 : BitVec 32) (raddr6 : V6addr) :
    Sounds raddr4 raddr6 (fun _ => none) (fun _ => none) 0 {} :=
  ⟨⟨0, sound_empty V4H v4masked raddr4⟩, ⟨0, sound_empty V6H v6masked raddr6⟩⟩

/-- The runs of all calls from the empty table end. -/
theorem run_sounds (raddr4 : BitVec 32) (raddr6 : V6addr) (hcalls : ∀ x ∈ calls, x.Masked)
    (hm : 2 * calls.length < 2 ^ 32) (hfuel : 2 * calls.length + 3 ≤ fuel) :
    ∃ σ, run fuel raddr4 raddr6 calls {} = some σ ∧
      Sounds raddr4 raddr6 (known4 calls) (known6 calls) (2 * calls.length) σ := by
  have h := sounds_empty raddr4 raddr6
  obtain ⟨σ, hrun, hsound⟩ := h.run hcalls (by omega) (by omega : _ ≤ fuel)
  rw [zero_add] at hsound
  exact ⟨σ, hrun, hsound⟩

/-! ### Lookups -/

/-- After any calls, a lookup in the routes of version 4 gives the one with the smallest range
around the address, also where the conversation has kept the route. The loops of the calls end. -/
theorem v4lookup_longest (hcalls : ∀ x ∈ calls, x.Masked) (hm : 2 * calls.length < 2 ^ 32)
    (hfuel : 2 * calls.length + 3 ≤ fuel) : ∃ σ, run fuel raddr4 raddr6 calls {} = some σ ∧
      ∀ ifcs a c, (c = none ∨ a = raddr4 ∧ c = some σ.c4) →
        (∀ e, (v4lookup ifcs a c σ.fs.v4).1 = some e → Longest (known4 calls) a e) ∧
          ((v4lookup ifcs a c σ.fs.v4).1 = none → Unrouted ifcs v4gate (known4 calls) a) := by
  obtain ⟨σ, hrun, hsound⟩ := run_sounds raddr4 raddr6 hcalls hm hfuel
  refine ⟨σ, hrun, fun ifcs a c hc => ?_⟩
  obtain ⟨q, c', f', hlook, -, -, hlongest⟩ := hsound.v4lookup hm ifcs hc
  rw [hlook]
  exact hlongest

/-- A route to 10.0.0.0/8, one of an interface to 10.1.0.0/16, and the default route of
version 6. -/
def nested : List Call :=
  [.v4addroute [0x6e] 0x0a000000 0xff000000 [192, 168, 0, 1] 0,
    .v4addroute [0x65] 0x0a010000 0xffff0000 [10, 1, 0, 0] Rifc,
    .v6addroute [0x72, 0x61] ⟨0, 0, 0, 0⟩ ⟨0, 0, 0, 0⟩ [0xfe] 0]

theorem masked_nested : ∀ x ∈ nested, x.Masked := by
  intro x hx
  simp only [nested, List.mem_cons, List.not_mem_nil, or_false] at hx
  obtain rfl | rfl | rfl := hx
  · exact ⟨24, by decide, by decide⟩
  · exact ⟨16, by decide, by decide⟩
  · exact ⟨128, le_rfl, by decide +kernel⟩

theorem v4lookup_nested : ∃ σ, run 9 0x0a010203 ⟨1, 0, 0, 1⟩ nested {} = some σ ∧
    ∀ ifcs a c, (c = none ∨ a = 0x0a010203 ∧ c = some σ.c4) →
      (∀ e, (v4lookup ifcs a c σ.fs.v4).1 = some e → Longest (known4 nested) a e) ∧
        ((v4lookup ifcs a c σ.fs.v4).1 = none → Unrouted ifcs v4gate (known4 nested) a) :=
  v4lookup_longest masked_nested (by decide) (by decide)

/-- What `ipwalkroutes` shows: the routes of each version. -/
def listing (f : Fs) : List (NonemptyInterval (BitVec 32) × Attr) ×
    List (NonemptyInterval V6addr × Attr) :=
  ((ipwalkroutes f).1.map Route.entry, (ipwalkroutes f).2.map Route.entry)

theorem Sounds.walk (h : Sounds raddr4 raddr6 T4 T6 m σ) :
    ((listing σ.fs).1.Pairwise (fun x y => Listed V4H x.1 y.1) ∧
      ∀ x, x ∈ (listing σ.fs).1 ↔ T4 x.1 = some x.2) ∧
    ((listing σ.fs).2.Pairwise (fun x y => Listed V6H x.1 y.1) ∧
      ∀ x, x ∈ (listing σ.fs).2 ↔ T6 x.1 = some x.2) := by
  obtain ⟨k4, h4⟩ := h.v4
  obtain ⟨k6, h6⟩ := h.v6
  have hwalk4 := h4.grows.walk hashed_v4 h4.good fun s _ => hash_lt_v4 s
  have hwalk6 := h6.grows.walk hashed_v6 h6.good fun s _ => hash_lt_v6 s
  unfold listing ipwalkroutes
  dsimp only
  exact ⟨hwalk4, hwalk6⟩

/-- After any calls, the routes are listed in order, and those that are known once each. -/
theorem walk_known (hcalls : ∀ x ∈ calls, x.Masked) (hm : 2 * calls.length < 2 ^ 32)
    (hfuel : 2 * calls.length + 3 ≤ fuel) : ∃ σ, run fuel raddr4 raddr6 calls {} = some σ ∧
      ((listing σ.fs).1.Pairwise (fun x y => Listed V4H x.1 y.1) ∧
        ∀ x, x ∈ (listing σ.fs).1 ↔ known4 calls x.1 = some x.2) ∧
      ((listing σ.fs).2.Pairwise (fun x y => Listed V6H x.1 y.1) ∧
        ∀ x, x ∈ (listing σ.fs).2 ↔ known6 calls x.1 = some x.2) := by
  obtain ⟨σ, hrun, hsound⟩ := run_sounds raddr4 raddr6 hcalls hm hfuel
  exact ⟨σ, hrun, hsound.walk⟩

theorem walk_nested : ∃ σ, run 9 0 ⟨1, 0, 0, 1⟩ nested {} = some σ ∧
    ((listing σ.fs).1.Pairwise (fun x y => Listed V4H x.1 y.1) ∧
      ∀ x, x ∈ (listing σ.fs).1 ↔ known4 nested x.1 = some x.2) ∧
    ((listing σ.fs).2.Pairwise (fun x y => Listed V6H x.1 y.1) ∧
      ∀ x, x ∈ (listing σ.fs).2 ↔ known6 nested x.1 = some x.2) :=
  walk_known masked_nested (by decide) (by decide)

theorem flush_eq {α : Type*} [LinearOrder α] {T : Table α} (tag : Option (List UInt8))
    {s : NonemptyInterval α} {c : Attr} :
    T.flush tag s = some c ↔ T s = some c ∧ ¬ c.Flushed tag := by
  unfold Table.flush
  rw [Option.filter_eq_some_iff, decide_eq_true_iff]

/-- After any calls, a flush ends, and takes the routes of the tag that are not of an interface from
the list. The others stay, in their order. -/
theorem flush_walk (hcalls : ∀ x ∈ calls, x.Masked) (hm : 2 * calls.length < 2 ^ 32)
    (hfuel : 2 * calls.length + 3 ≤ fuel) (tag : Option (List UInt8)) :
    ∃ σ fs, run fuel raddr4 raddr6 calls {} = some σ ∧ routeflushes fuel tag σ.fs = some fs ∧
      (listing fs).1 = (listing σ.fs).1.filter (fun x => ¬ x.2.Flushed tag) ∧
      (listing fs).2 = (listing σ.fs).2.filter (fun x => ¬ x.2.Flushed tag) := by
  obtain ⟨σ, hrun, hsound⟩ := run_sounds raddr4 raddr6 hcalls hm hfuel
  obtain ⟨fs, hflush, hsound'⟩ := hsound.routeflushes hfuel tag
  obtain ⟨⟨hsort4, hmem4⟩, hsort6, hmem6⟩ := hsound.walk
  obtain ⟨⟨hsort4', hmem4'⟩, hsort6', hmem6'⟩ := hsound'.walk
  refine ⟨σ, fs, hrun, hflush, Listed.unique hsort4' (hsort4.filter _) fun x => ?_,
    Listed.unique hsort6' (hsort6.filter _) fun x => ?_⟩
  · rw [hmem4', flush_eq, List.mem_filter, hmem4, decide_eq_true_iff]
  · rw [hmem6', flush_eq, List.mem_filter, hmem6, decide_eq_true_iff]

theorem flush_nested : ∃ σ fs, run 9 0 ⟨1, 0, 0, 1⟩ nested {} = some σ ∧
    routeflushes 9 (some [0x72, 0x61]) σ.fs = some fs ∧
    (listing fs).1 = (listing σ.fs).1.filter (fun x => ¬ x.2.Flushed (some [0x72, 0x61])) ∧
    (listing fs).2 = (listing σ.fs).2.filter (fun x => ¬ x.2.Flushed (some [0x72, 0x61])) :=
  flush_walk masked_nested (by decide) (by decide) (some [0x72, 0x61])

end PlanNine.Iproute
