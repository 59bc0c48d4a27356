import PlanNine.Lib.Numeral
import PlanNine.Lib.Ulong
import PlanNine.Ip.Ipaux.Hash

/-!
# The text of addresses

`eipfmt`, `parseip`, `v4parseip` and `parseipmask` of `ipaux.c`. Of the library of C, printing and
scanning numbers are taken as they are documented. A text ends where its list does. A function that
would write behind its buffer has no result.

## Main definitions

* `strtoul`, `atoi`: numbers.
* `eipfmt`: the text of an address or a mask.
* `parseip`, `parseipmask`: the address or the mask of a text.
-/

namespace PlanNine.Ipaux

open Numeral (digit)

abbrev Text : Type := List Char

/-! ### Numbers -/

def isspace (c : Char) : Bool := c.toNat = 32 ∨ 9 ≤ c.toNat ∧ c.toNat ≤ 13

/-- The sign of a number. -/
def sign : Text → Bool × Text
  | '-' :: s => (true, s)
  | '+' :: s => (false, s)
  | s => (false, s)

/-- The base of a number and its digits. -/
def basis (base : ℕ) (s : Text) : ℕ × Text :=
  match s with
  | '0' :: c :: r =>
    if (c = 'x' ∨ c = 'X') ∧ (base = 0 ∨ base = 16) ∧ (r.head?.bind (digit 16)).isSome then (16, r)
    else (if base = 0 then 8 else base, s)
  | ['0'] => (if base = 0 then 8 else base, s)
  | _ => (if base = 0 then 10 else base, s)

/-- `strtoul`: the number, and what lies behind it. -/
def strtoul (s : Text) (base : ℕ) : ℕ × Text :=
  let (neg, t) := sign (s.dropWhile isspace)
  let (base, t) := basis base t
  if (t.head?.bind (digit base)).isNone then (0, s)
  else
    let (n, r) := Numeral.scan base 0 t
    if 2 ^ 32 ≤ n then (2 ^ 32 - 1, r) else ((if neg then 2 ^ 32 - n else n) % 2 ^ 32, r)

def atoi (s : Text) : ℤ :=
  let (neg, t) := sign (s.dropWhile isspace)
  let (base, t) := basis 0 t
  if neg then -(Numeral.scan base 0 t).1 else (Numeral.scan base 0 t).1

/-- `%d` and `%ux`. -/
def decimal (n : ℕ) : Text := Nat.toDigits 10 n
def hex (n : ℕ) : Text := Nat.toDigits 16 n

/-- `%.2lux`. -/
def hex2 (n : ℕ) : Text := List.replicate (2 - (hex n).length) '0' ++ hex n

/-! ### Printing -/

/-- The size of the buffer of `eipfmt`. -/
def bufsize : ℕ := 5 * 8

/-- `sprint(buf+n, ...)`, where `n` characters are in the buffer. -/
def sprint (buf s : Text) : Option Text :=
  if buf.length + s.length + 1 ≤ bufsize then some (buf ++ s) else none

/-- `snprint(buf, sizeof buf, ...)`. -/
def snprint (s : Text) : Text := s.take (bufsize - 1)

/-- `ifmt`. -/
def ifmt (a b c d : UInt8) : Text :=
  decimal a.toNat ++ '.' :: (decimal b.toNat ++ '.' :: (decimal c.toNat ++ '.' :: decimal d.toNat))

def v4prefix : List UInt8 := [0, 0, 0, 0, 0, 0, 0, 0, 0, 0, 0xff, 0xff]

/-- `p[i]`. -/
def byte (p : Ipaddr) (i : ℕ) : UInt8 := p.toList.getD i 0

/-- `(p[i]<<8) + p[i+1]`. -/
def word (p : Ipaddr) (i : ℕ) : ℕ := (byte p i).toNat <<< 8 + (byte p (i + 1)).toNat

/-- Where the zero words from `j` on end. -/
def runEnd (p : Ipaddr) : ℕ → ℕ → ℕ
  | 0, j => j
  | n + 1, j =>
    if 16 ≤ j then j
    else if byte p j ≠ 0 ∨ byte p (j + 1) ≠ 0 then j
    else runEnd p n (j + 2)

/-- The place and the length of the longest elision before `i`, with the one at `i`. -/
def elide (p : Ipaddr) (e : ℤ × ℤ) (i : ℕ) : ℤ × ℤ :=
  let j := runEnd p 8 i
  if i < j ∧ e.2 < (j : ℤ) - i then (i, j - i) else e

/-- `eli` and `eln`. -/
def elision (p : Ipaddr) : ℤ × ℤ := ((List.range 8).map (2 * ·)).foldl (elide p) (-1, -1)

/-- The loop that prints with possible elision. -/
def printWords (p : Ipaddr) (eli eln : ℤ) : ℕ → ℕ → Text → Option Text
  | 0, _, buf => some buf
  | n + 1, i, buf =>
    if 16 ≤ i then some buf
    else if i = eli then
      (sprint buf [':', ':']).bind fun buf =>
        let i := i + eln.toNat
        if 16 ≤ i then some buf
        else (sprint buf (hex (word p i))).bind fun buf => printWords p eli eln n (i + 2) buf
    else
      (if i = 0 then some buf else sprint buf [':']).bind fun buf =>
        (sprint buf (hex (word p i))).bind fun buf => printWords p eli eln n (i + 2) buf

/-- `common`. -/
def fmtaddr (p : Ipaddr) : Option Text :=
  if p.toList.take 12 = v4prefix then
    some (snprint (ifmt (byte p 12) (byte p 13) (byte p 14) (byte p 15)))
  else printWords p (elision p).1 (elision p).2 8 0 []

def Isprefix : ℕ := 16

def prefixvals (b : UInt8) : ℕ :=
  match b.toNat with
  | 0x00 => 0 ||| Isprefix
  | 0x80 => 1 ||| Isprefix
  | 0xC0 => 2 ||| Isprefix
  | 0xE0 => 3 ||| Isprefix
  | 0xF0 => 4 ||| Isprefix
  | 0xF8 => 5 ||| Isprefix
  | 0xFC => 6 ||| Isprefix
  | 0xFE => 7 ||| Isprefix
  | 0xFF => 8 ||| Isprefix
  | _ => 0

/-- `%M`. -/
def fmtmask (p : Ipaddr) : Option Text :=
  match (List.range 16).find? fun i => byte p i ≠ 0xff with
  | none => some (snprint ('/' :: decimal (8 * 16)))
  | some i =>
    if prefixvals (byte p i) &&& Isprefix = 0 ∨ ∃ j ∈ List.range 16, i < j ∧ byte p j ≠ 0 then
      fmtaddr p
    else some (snprint ('/' :: decimal (8 * i + (prefixvals (byte p i) &&& (0xffff ^^^ Isprefix)))))

/-- What `eipfmt` prints: the letter of the format, with its argument. -/
inductive Fmt
  | E (p : Vector UInt8 6)
  | I (p : Ipaddr)
  | i (lp : Vector UInt32 4)
  | V (p : Vector UInt8 4)
  | M (p : Ipaddr)
  | other (r : Char)

def eipfmt : Fmt → Option Text
  | .E p => some (snprint ((p.toList.map fun b => hex2 b.toNat).flatten))
  | .I p => fmtaddr p
  | .i lp => fmtaddr (.ofFn fun k : Fin 16 =>
      (hnputl (lp.toList.getD (k / 4) 0).toNat).getD (k % 4) 0)
  | .V p => some (snprint (ifmt p[0] p[1] p[2] p[3]))
  | .M p => fmtmask p
  | .other _ => some "(eipfmt)".toList

/-! ### Parsing -/

/-- `to[i] = b`. -/
def put (dst : List UInt8) (i : ℕ) (b : ℕ) : Option (List UInt8) :=
  if i < dst.length then some (dst.set i (uchar b)) else none

/-- The loop of `v4parseip`, which stores from `base` on. -/
def v4parseLoop (base : ℕ) : ℕ → ℕ → List UInt8 → Text → Option (ℕ × List UInt8 × Text)
  | 0, i, dst, p => some (i, dst, p)
  | n + 1, i, dst, p =>
    if p = [] then some (i, dst, p)
    else
      let (x, p) := strtoul p 0
      (put dst (base + i) x).bind fun dst =>
        v4parseLoop base n (i + 1) dst (if p.head? = some '.' then p.tail else p)

/-- `v4parseip(to + base, from)`. -/
def v4parseip (base : ℕ) (dst : List UInt8) (s : Text) : Option (List UInt8 × Text) :=
  (v4parseLoop base 4 0 dst s).bind fun (i, dst, p) =>
    let at' (k : ℕ) : ℕ := (dst.getD (base + k) 0).toNat
    match (dst.getD base 0).toNat >>> 6 with
    -- class A
    | 0 | 1 =>
      if i = 3 then
        (put dst (base + 3) (at' 2)).bind fun dst => (put dst (base + 2) (at' 1)).bind fun dst =>
          (put dst (base + 1) 0).map fun dst => (dst, p)
      else if i = 2 then
        (put dst (base + 3) (at' 1)).bind fun dst => (put dst (base + 1) 0).map fun dst => (dst, p)
      else some (dst, p)
    -- class B
    | 2 =>
      if i = 3 then
        (put dst (base + 3) (at' 2)).bind fun dst => (put dst (base + 2) 0).map fun dst => (dst, p)
      else some (dst, p)
    | _ => some (dst, p)

/-- What the loop of `parseip` changes. -/
structure Parse where
  i : ℕ := 0
  elipsis : ℕ := 0
  v4 : Bool := true
  dst : List UInt8
  p : Text
  deriving DecidableEq

/-- A colon behind a word, or two. -/
def Parse.colon (s : Parse) : Parse :=
  match s.p with
  | ':' :: ':' :: p => { s with v4 := false, elipsis := s.i + 2, p }
  | ':' :: p => { s with v4 := false, p }
  | _ => s

/-- The loop of `parseip`. -/
def parseLoop : ℕ → Parse → Option Parse
  | 0, s => some s
  | n + 1, s =>
    if 16 ≤ s.i ∨ s.p = [] then some s
    else
      let (x, p) := strtoul s.p 16
      if p.head? = some '.' ∨ p = [] ∧ s.i = 0 then
        (v4parseip s.i s.dst s.p).map fun (dst, p) => { s with dst, p, i := s.i + 4 }
      else
        (put s.dst s.i (x >>> 8)).bind fun dst => (put dst (s.i + 1) x).bind fun dst =>
          let s := { s with dst, p }.colon
          parseLoop n { s with i := s.i + 2 }

/-- `memmove(&to[dst], &to[src], n)` inside of `to`. -/
def memmove (l : List UInt8) (dst src n : ℕ) : List UInt8 :=
  l.take dst ++ (l.drop src).take n ++ l.drop (dst + n)

/-- `memset(&to[dst], b, n)`. -/
def memset (l : List UInt8) (dst : ℕ) (b : UInt8) (n : ℕ) : List UInt8 :=
  l.take dst ++ List.replicate n b ++ l.drop (dst + n)

/-- `parseip`: the value, and the address. -/
def parseip (s : Text) : Option (ℕ × List UInt8) :=
  (parseLoop 8 { dst := List.replicate 16 0, p := s }).map fun s =>
    let dst :=
      if s.i < 16 then
        memset (memmove s.dst (s.elipsis + 16 - s.i) s.elipsis (s.i - s.elipsis)) s.elipsis 0
          (16 - s.i)
      else s.dst
    if s.v4 then
      let dst := (dst.set 10 0xff).set 11 0xff
      (nhgetl (dst.drop 12), dst)
    else (6, dst)

/-- The mask of the first `i` bits. -/
def prefixMask (i : ℕ) : List UInt8 :=
  let l := memset (List.replicate 16 0) 0 0xff (i / 8)
  if 0 < i % 8 then l.set (i / 8) (uchar (0xff ^^^ ((1 <<< (8 - i % 8)) - 1))) else l

/-- `parseipmask`. -/
def parseipmask (s : Text) : Option (ℕ × List UInt8) :=
  match s with
  | '/' :: s =>
    let dst := prefixMask (min (atoi s).toNat 128)
    some (nhgetl (dst.drop 12), dst)
  | s =>
    (parseip s).map fun (x, dst) =>
      (x, if dst.take 12 = v4prefix then memset dst 0 0xff 12 else dst)

end PlanNine.Ipaux
