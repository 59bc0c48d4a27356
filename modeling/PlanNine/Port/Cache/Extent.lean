import PlanNine.Port.Cache.Pool

/-!
# The extents of a cached file

The routines of `cache.c` on the extents of one file. An extent is a stretch of at most a page of
the file; its bytes are in a page of the page cache, which may be gone. The list of a file is in
the order of the offsets.

A file of the cache is at most `maxcache` bytes, and the length of a call is an `int`, so that no
sum of an offset and a length reaches 2^32; offsets and lengths are natural numbers here. What
`extentalloc` and `auxpage` give in the turns of one `cchain` is a parameter: a page frame, or none
when either of them fails.

## Main definitions

* `Extent`, `Mntcache`, `Chan`: the data.
* `cpage`, `cpgmove`, `cchain`: the pages of extents.
* `cread`, `cupdate`, `cwrite`: the calls.
-/

namespace PlanNine.Cache

/-- A stretch of the file, with the number of its page and the frame that it was given. -/
structure Extent where
  bid : ℕ
  start : ℕ
  len : ℕ
  cache : ℕ
  deriving DecidableEq, Repr

/-- The offset behind an extent. -/
def Extent.stop (e : Extent) : ℕ := e.start + e.len

structure Qid where
  path : ℕ
  vers : ℕ
  type : ℕ
  deriving DecidableEq, Repr

structure Mntcache where
  qid : Qid
  dev : ℕ
  type : ℕ
  list : List Extent := []
  deriving DecidableEq, Repr

structure Chan where
  qid : Qid
  dev : ℕ
  type : ℕ
  deriving DecidableEq, Repr

def maxcache : ℕ := 1024 * 1024

/-- Whether the cache holds the file of the channel, in the version that it knows. -/
def cdev (m : Mntcache) (c : Chan) : Bool :=
  m.qid.path = c.qid.path ∧ m.qid.type = c.qid.type ∧ m.dev = c.dev ∧ m.type = c.type ∧
    m.qid.vers = c.qid.vers

/-- The page of an extent, if it is still cached. -/
def cpage (pl : Pool) (e : Extent) : Option ℕ :=
  if (pl.page e.cache).daddr ≠ e.bid then none else pl.lookpage e.bid

/-! ### Reading -/

/-- The loop of `cread` from the extent that holds `offset` on: the bytes, and the list without an
extent whose page is gone. -/
def creadLoop (pl : Pool) : List Extent → ℕ → ℕ → List UInt8 × List Extent
  | [], _, _ => ([], [])
  | e :: es, offset, len =>
      if len = 0 then ([], e :: es)
      else
        match cpage pl e with
        | none => ([], es)
        | some p =>
            let o := offset - e.start
            let l := if e.len - o < len then e.len - o else len
            let buf := (List.range l).map fun i => (pl.page p).data (o + i)
            match es with
            | [] => (buf, [e])
            | f :: _ =>
                if f.start ≠ offset + l then (buf, e :: es)
                else
                  let (rest, es) := creadLoop pl es (offset + l) (len - l)
                  (buf ++ rest, e :: es)

/-- The search of `cread` for the extent that holds `offset`, and the loop. -/
def creadList (pl : Pool) (offset len : ℕ) : List Extent → List UInt8 × List Extent
  | [] => ([], [])
  | e :: es =>
      if e.start ≤ offset ∧ offset < e.stop then creadLoop pl (e :: es) offset len
      else
        let (buf, es) := creadList pl offset len es
        (buf, e :: es)

def cread (pl : Pool) (m : Mntcache) (c : Chan) (len off : ℕ) : Mntcache × List UInt8 :=
  if maxcache < off + len then (m, [])
  else if cdev m c = false then (m, [])
  else
    let (buf, list) := creadList pl off len m.list
    ({ m with list := list }, buf)

/-! ### Pages of extents -/

/-- The loop of `cchain` from the turn `k` on: the extents made and the pool after it. -/
def cchainLoop (aux : ℕ → Option ℕ) : ℕ → ℕ → Pool → List UInt8 → ℕ → List Extent × Pool
  | 0, _, pl, _, _ => ([], pl)
  | fuel + 1, k, pl, buf, offset =>
      if buf = [] then ([], pl)
      else
        match aux k with
        | none => ([], pl)
        | some f =>
            let l := if BY2PG < buf.length then BY2PG else buf.length
            let e : Extent := { bid := pl.pgno, start := offset, len := l, cache := f }
            let (es, pl) := cchainLoop aux fuel (k + 1)
              ((pl.uncachepage f).cachenew f (buf.take l)) (buf.drop l) (offset + l)
            (e :: es, pl)

def cchain (aux : ℕ → Option ℕ) (pl : Pool) (buf : List UInt8) (offset : ℕ) : List Extent × Pool :=
  cchainLoop aux buf.length 0 pl buf offset

/-- Move bytes into the page of an extent, if it is still cached. -/
def cpgmove (pl : Pool) (e : Extent) (buf : List UInt8) (boff : ℕ) : Option Pool :=
  (cpage pl e).map fun p => pl.write p boff buf

/-! ### Updates and writes -/

/-- The pool, the extents up to the predecessor, and the bytes still to be placed and their
offset. -/
structure Placing where
  pool : Pool
  pre : List Extent
  buf : List UInt8
  offset : ℕ

/-- Pack bytes into the page of the predecessor `p`, the last of `pre`, from its byte `eo` on. -/
def pack (w : Placing) (p : Extent) (eo : ℕ) : Placing :=
  let o := if BY2PG - eo < w.buf.length then BY2PG - eo else w.buf.length
  match cpgmove w.pool p (w.buf.take o) eo with
  | none => w
  | some pool =>
      { pool := pool
        pre := w.pre.dropLast ++ [{ p with len := if p.len < eo + o then eo + o else p.len }]
        buf := w.buf.drop o
        offset := w.offset + o }

/-- Link the bytes that are left between the predecessor and the rest of the list. -/
def link (aux : ℕ → Option ℕ) (m : Mntcache) (w : Placing) (post : List Extent) :
    Pool × Mntcache :=
  let (es, pool) := cchain aux w.pool w.buf w.offset
  (pool, { m with list := w.pre ++ es ++ post })

/-- The length after the trim to the successor. -/
def trimNext (offset len : ℕ) (f : Option Extent) : ℕ :=
  match f with
  | some f => if f.start < offset + len then len - (offset + len - f.start) else len
  | none => len

def cupdate (aux : ℕ → Option ℕ) (pl : Pool) (m : Mntcache) (c : Chan) (buf : List UInt8)
    (off : ℕ) : Pool × Mntcache :=
  if maxcache < off ∨ buf.length = 0 then (pl, m)
  else if cdev m c = false then (pl, m)
  else
    let pre := m.list.takeWhile fun f => f.start ≤ off
    let post := m.list.dropWhile fun f => f.start ≤ off
    let len := trimNext off buf.length post.head?
    if len = 0 then (pl, m)
    else
      let buf := buf.take len
      match pre.getLast? with
      | none => link aux m ⟨pl, pre, buf, off⟩ post
      | some p =>
          -- trim to the predecessor
          let o := p.stop - off
          if buf.length ≤ o then (pl, m)
          else
            let w : Placing := ⟨pl, pre, buf.drop o, off + o⟩
            if off + o = p.stop ∧ p.len < BY2PG then link aux m (pack w p p.len) post
            else link aux m w post

/-- `qid.vers++`. -/
def Qid.next (q : Qid) : Qid := { q with vers := (q.vers + 1) % 4294967296 }

def cwrite (aux : ℕ → Option ℕ) (pl : Pool) (m : Mntcache) (c : Chan) (buf : List UInt8)
    (off : ℕ) : Pool × Mntcache × Chan :=
  if maxcache < off ∨ buf.length = 0 then (pl, m, c)
  else if cdev m c = false then (pl, m, c)
  else
    let m := { m with qid := m.qid.next }
    let c := { c with qid := c.qid.next }
    let pre := m.list.takeWhile fun f => f.start < off
    let post := m.list.dropWhile fun f => f.start < off
    let w : Placing := ⟨pl, pre, buf, off⟩
    let w := match pre.getLast? with
      | none => w
      | some p => if off ≤ p.stop ∧ off - p.start < BY2PG then pack w p (off - p.start) else w
    -- the extents that are overlapped are freed
    let post := post.dropWhile fun f => f.start < off + buf.length
    let (pl, m) := link aux m w post
    (pl, m, c)

end PlanNine.Cache
