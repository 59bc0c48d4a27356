import PlanNine.Lib.Ulong

/-!
# The segments of a process

A process has a fixed number of segments, each a range of its address space. `segattach` adds one,
at an address that the caller gives or in a hole that it looks for below the stack; `ibrk` moves the
top of one; `syssegdetach` takes one away. An address is a word of 32 bits. The pages of a segment
are left out, and so are segments attached by a name known to all processes; the table of physical
segments is a parameter, since drivers add to it.

## Main definitions

* `Segment`, `Segs`: a segment, and the segments of a process.
* `isoverlap`: the first segment found to overlap a range.
* `segattach`, `ibrk`, `syssegdetach`: the operations on the segments of a process.
-/

namespace PlanNine.Segments

def BY2PG : ℕ := 4096

/-- The base of the kernel's address space. -/
def KZERO : ℕ := 0x80000000

def PTEPERTAB : ℕ := 256

def SEGMAPSIZE : ℕ := 1984

/-- The bits of a segment's attributes that hold its type. -/
def SG_TYPE : ℕ := 7

/-- The number of segments of a process. -/
abbrev NSEG : ℕ := 10

def SSEG : Fin NSEG := 0

def DSEG : Fin NSEG := 2

def BSEG : Fin NSEG := 3

def ESEG : Fin NSEG := 4

def Ebadarg : String := "bad arg in system call"

def Enovmem : String := "virtual memory allocation failed"

def Enoswap : String := "swap space full"

def Esoverlap : String := "segments overlap"

/-- An address rounded up to a page; the sum wraps. -/
def PGROUND (s : ℕ) : ℕ := (s + (BY2PG - 1)) % 4294967296 / BY2PG * BY2PG

structure Segment where
  type : ℕ
  base : ℕ
  top : ℕ
  /-- The size in pages. -/
  size : ℕ
  deriving DecidableEq, Repr

/-- A kind of segment that may be attached. -/
structure Physseg where
  attr : ℕ
  name : String
  size : ℕ

/-- `up->seg`. -/
abbrev Segs : Type := Fin NSEG → Option Segment

/-- A new segment of `size` pages; `full` is what `swapfull` says. -/
def newseg (full : Bool) (type base size : ℕ) : Except String Segment :=
  if SEGMAPSIZE * PTEPERTAB < size then .error Enovmem
  else if full then .error Enoswap
  else .ok ⟨type, base, (base + size * BY2PG) % 4294967296, size⟩

/-- The first segment one of whose addresses is the first or the last of the range, as far as the
comparisons of the ends tell. -/
def isoverlap (p : Segs) (va len : ℕ) : Option Segment :=
  let newtop := (va + len) % 4294967296
  (List.finRange NSEG).findSome? fun i =>
    (p i).filter fun ns =>
      (newtop > ns.base ∧ newtop ≤ ns.top) ∨ (va ≥ ns.base ∧ va < ns.top)

theorem isoverlap_eq_none {p : Segs} {va len : ℕ} : isoverlap p va len = none ↔
    ∀ i ns, p i = some ns →
      ¬ ((va + len) % 4294967296 > ns.base ∧ (va + len) % 4294967296 ≤ ns.top) ∧
        ¬ (va ≥ ns.base ∧ va < ns.top) := by
  simp only [isoverlap, List.findSome?_eq_none_iff, List.mem_finRange, forall_const,
    Option.filter_eq_none_iff, decide_eq_true_eq, not_or]

theorem isoverlap_eq_some {p : Segs} {va len : ℕ} {ns : Segment}
    (h : isoverlap p va len = some ns) : (∃ i, p i = some ns) ∧
      (((va + len) % 4294967296 > ns.base ∧ (va + len) % 4294967296 ≤ ns.top) ∨
        (va ≥ ns.base ∧ va < ns.top)) := by
  obtain ⟨i, -, hi⟩ := List.exists_of_findSome?_eq_some h
  obtain ⟨hi, hov⟩ := Option.filter_eq_some_iff.mp hi
  exact ⟨⟨i, hi⟩, of_decide_eq_true hov⟩

/-- The search for a hole: below each segment that is found to overlap. -/
def search (p : Segs) (len : ℕ) (hlen : 0 < len) (va : ℕ) : Except String ℕ :=
  match h : isoverlap p va len with
  | none => .ok va
  | some os => if os.base < len then .error Enovmem else search p len hlen (os.base - len)
termination_by va
decreasing_by
  obtain ⟨-, hov⟩ := isoverlap_eq_some h
  omega

/-- Where the segment is to go: the given address, or a hole below the stack. -/
def place (p : Segs) (va len : ℕ) (hlen : 0 < len) : Except String ℕ :=
  if va = 0 then
    match p SSEG with
    -- a process that has detached its stack: the source reads through a nil pointer
    | none => .error "no stack"
    | some ss => search p len hlen ((ss.base + 4294967296 - len) % 4294967296)
  else .ok va

/-- The slot a new segment is put in. -/
def slot (p : Segs) : Option (Fin NSEG) :=
  (List.finRange NSEG).find? fun i => p i = none ∧ i ≠ ESEG

/-- Attach a segment of the named kind at `va`, once there is a place for it. -/
def attachAt (physseg : List Physseg) (full : Bool) (p : Segs) (sno : Fin NSEG) (attr : ℕ)
    (name : String) (va len : ℕ) : Except String (ℕ × Segs) :=
  if (isoverlap p va len).isSome then .error Esoverlap
  else
    match physseg.find? fun ps => name = ps.name with
    | none => .error Ebadarg
    | some ps =>
      if ps.size < len then .error Enovmem
      else
        match newseg full (attr - (attr &&& SG_TYPE) ||| ps.attr) va (len / BY2PG) with
        | .error e => .error e
        | .ok s => .ok (va, Function.update p sno (some s))

/-- Attach a segment of the named kind. With the segments comes its address. -/
def segattach (physseg : List Physseg) (full : Bool) (p : Segs) (attr : ℕ) (name : String)
    (va len : ℕ) : Except String (ℕ × Segs) :=
  if va ≠ 0 ∧ va &&& KZERO = KZERO then .error Ebadarg
  else
    match slot p with
    | none => .error Enovmem
    | some sno =>
      if hlen : PGROUND len = 0 then .error Ebadarg
      else
        match place p va (PGROUND len) (Nat.pos_of_ne_zero hlen) with
        | .error e => .error e
        | .ok va => attachAt physseg full p sno attr name (va / BY2PG * BY2PG) (PGROUND len)

/-- The address a segment's top is to be moved to. The bss may begin in the last page of the
data. -/
def brkaddr (p : Segs) (s : Segment) (addr : ℕ) (seg : Fin NSEG) : Except String ℕ :=
  if s.base ≤ addr then .ok addr
  else
    match p DSEG with
    | none => .error Enovmem
    | some d => if seg ≠ BSEG ∨ addr < d.base then .error Enovmem else .ok s.base

/-- Move the top of a segment. With the segments comes what the call returns. -/
def ibrk (full : Bool) (p : Segs) (addr : ℕ) (seg : Fin NSEG) : Except String (ℕ × Segs) :=
  match p seg with
  | none => .error Ebadarg
  | some s =>
    if addr = 0 then .ok (s.base, p)
    else
      match brkaddr p s addr seg with
      | .error e => .error e
      | .ok addr =>
        let newtop := PGROUND addr
        let newsize := (newtop + 4294967296 - s.base) % 4294967296 / BY2PG
        -- the pages above `newtop` are freed, but the segment keeps its top
        if newtop < s.top then .ok (0, p)
        else if full then .error Enoswap
        else if ∃ i, i ≠ seg ∧ (p i).any fun ns => newtop ≥ ns.base ∧ newtop < ns.top then
          .error Esoverlap
        else if SEGMAPSIZE * PTEPERTAB < newsize then .error Enovmem
        else .ok (0, Function.update p seg (some { s with top := newtop, size := newsize }))

/-- Detach the segment that holds an address; `arg` is where the caller's stack is. -/
def syssegdetach (p : Segs) (addr arg : ℕ) : Except String (ℕ × Segs) :=
  match (List.finRange NSEG).find? fun i => (p i).any fun s =>
      (addr ≥ s.base ∧ addr < s.top) ∨ (s.top = s.base ∧ addr = s.base) with
  | none => .error Ebadarg
  | some i =>
    match p i with
    | none => .error Ebadarg
    | some s =>
      if arg ≥ s.base ∧ arg < s.top then .error Ebadarg else .ok (0, Function.update p i none)

end PlanNine.Segments
