import PlanNine.Lib.Range
import PlanNine.Lib.Ulong

/-!
# The kernel arena

`xalloc` hands out chunks of the memory that `xhole` was given. What is free is a list of holes
sorted by address; the holes are kept in a fixed number of descriptors, those not in use on a list
of their own. A chunk begins with a header that holds its size and a magic number, and `xfree`
believes this header. An address stands for a place of physical memory; `KADDR` and `PADDR`, which
take it to the kernel's address of that place and back, are left out, and the header's words are
stored with the most significant byte first.

## Main definitions

* `Hole`, `Arena`: a hole, and the table of holes, the free descriptors and the memory.
* `xhole`, `xallocz`, `xfree`: giving memory to the arena, taking a chunk from it, returning one.
-/

namespace PlanNine.Xalloc

def BY2V : ℕ := 8

/-- The bytes of an `Xhdr`: two words and one byte of data, rounded up to words. -/
def sizeofXhdr : ℕ := 12

/-- Where the data of a chunk begins. -/
def datoff : ℕ := 8

/-- The number of descriptors. -/
def Nhole : ℕ := 128

/-- `HOLE`. -/
def Magichole : ℕ := 0x484F4C45

structure Hole where
  addr : ℕ
  size : ℕ
  top : ℕ
  deriving DecidableEq, Repr

structure Arena where
  table : List Hole
  /-- The descriptors that are not in use. -/
  flist : List Hole
  mem : ℕ → UInt8

/-- Store bytes from the address `a` on; addresses are words and wrap. -/
def put (mem : ℕ → UInt8) (a : ℕ) (bs : List UInt8) : ℕ → UInt8 := fun x =>
  if x < 4294967296 then (bs[(x + 4294967296 - a) % 4294967296]?).getD (mem x) else mem x

/-- The word at the address `a`. -/
def getl (mem : ℕ → UInt8) (a : ℕ) : ℕ :=
  nhgetl ((List.range 4).map fun i => mem ((a + i) % 4294967296))

/-- All descriptors are free. -/
def xinit (mem : ℕ → UInt8) : Arena := ⟨[], List.replicate Nhole ⟨0, 0, 0⟩, mem⟩

/-- Put a hole in front of `l`, if there is a descriptor for it. -/
def newhole (addr size : ℕ) (l flist : List Hole) : Option (List Hole × List Hole) :=
  match flist with
  | [] => none
  | _ :: flist => some (⟨addr, size, (addr + size) % 4294967296⟩ :: l, flist)

/-- The walk of `xhole` along the table; `none` when there is no free descriptor. -/
def xholeLoop (addr size : ℕ) : List Hole → List Hole → Option (List Hole × List Hole)
  | [], flist => newhole addr size [] flist
  | h :: l, flist =>
    if h.top = addr then
      let n := (h.size + size) % 4294967296
      let h : Hole := ⟨h.addr, n, (h.addr + n) % 4294967296⟩
      match l with
      | [] => some ([h], flist)
      | c :: l' =>
        if h.top = c.addr then
          some (⟨h.addr, (h.size + c.size) % 4294967296, (h.top + c.size) % 4294967296⟩ :: l',
            c :: flist)
        else some (h :: c :: l', flist)
    else if addr < h.addr then
      if (addr + size) % 4294967296 = h.addr then
        some (⟨(h.addr + 4294967296 - size) % 4294967296, (h.size + size) % 4294967296, h.top⟩ :: l,
          flist)
      else newhole addr size (h :: l) flist
    else (xholeLoop addr size l flist).map fun r => (h :: r.1, r.2)

/-- Give memory to the arena. With the arena comes how many bytes were leaked. -/
def xhole (x : Arena) (addr size : ℕ) : Arena × ℕ :=
  if size = 0 then (x, 0)
  else
    match xholeLoop addr size x.table x.flist with
    | none => (x, size)
    | some (table, flist) => ({ x with table, flist }, 0)

/-- How much `xallocz` takes out of a hole. -/
def chunk (size : ℕ) : ℕ := (size + (BY2V + sizeofXhdr)) % 4294967296 / BY2V * BY2V

/-- The walk of `xallocz` along the table: the first hole that is large enough is cut. -/
def xalloczLoop (size : ℕ) : List Hole → List Hole → Option (ℕ × List Hole × List Hole)
  | [], _ => none
  | h :: l, flist =>
    if size ≤ h.size then
      let p := h.addr
      let h : Hole := ⟨(h.addr + size) % 4294967296, h.size - size, h.top⟩
      if h.size = 0 then some (p, l, h :: flist) else some (p, h :: l, flist)
    else (xalloczLoop size l flist).map fun r => (r.1, h :: r.2.1, r.2.2)

/-- A chunk's header: its size and the magic number. -/
def xhdr (size : ℕ) : List UInt8 := hnputl size ++ hnputl Magichole

/-- Write the header of a new chunk of `size` bytes, and clear the chunk if `zero`. -/
def stamp (mem : ℕ → UInt8) (p size : ℕ) (zero : Bool) : ℕ → UInt8 :=
  let mem := put mem p (xhdr size)
  -- `size` counts the header too, but the clearing begins behind it
  if zero then put mem ((p + datoff) % 4294967296) (List.replicate size 0) else mem

/-- Take a chunk; `none` is `nil`. -/
def xallocz (x : Arena) (size : ℕ) (zero : Bool) : Option (ℕ × Arena) :=
  (xalloczLoop (chunk size) x.table x.flist).map fun r =>
    ((r.1 + datoff) % 4294967296, ⟨r.2.1, r.2.2, stamp x.mem r.1 (chunk size) zero⟩)

/-- Return a chunk; `none` is the panic over a bad magic number. -/
def xfree (x : Arena) (p : ℕ) : Option (Arena × ℕ) :=
  let a := (p + 4294967296 - datoff) % 4294967296
  if getl x.mem (a + 4) ≠ Magichole then none else some (xhole x a (getl x.mem a))

end PlanNine.Xalloc
