import PlanNine.Lib.Run
import PlanNine.Ip.Reassemble6

/-!
# The bytes that the walk over the headers looks at

`procxtns`, `unfraglen` and `ip6reassemble` of `ipv6.c` on the blocks of a packet as `ipiput6` hands
them on, with `pullupblock` and `padblock` of `qio.c`. A function has no result where it reads or
writes anything but bytes of a block of the packet, and where it goes on with a pointer into a block
that has been freed.

## Main definitions

* `Block`, `pullupblock`: a block with the room before and behind its bytes.
* `Look`: the headers and the lengths of fragments that are taken to lie in a packet.
* `received`: what becomes of the blocks of a packet.
* `Safe`: all that is looked at lies in the packet.
* `Fits`: the packets for which this is so.

## Main results

* `Inv.received`: the queues hold fragments that lie in their blocks.
* `safe_of_run`: packets that fit are looked at safely, in any order.
* `fits_of_safe`: a packet that is looked at safely has its headers in its first block.
* `not_safe_header`: a packet that ends with its first header.
-/

namespace PlanNine.Bounds6

open Ip6 (IP6HDR IP6FHDR HBH RH FH IP6 Frag6 Fragment6 ploadlen offsetRM setploadlen Chain more)

/-! ### Blocks -/

/-- A block: the bytes from `base` to `rp`, those from `rp` to `wp`, and the room up to `lim`. -/
structure Block where
  base : ℕ
  data : List UInt8
  lim : ℕ
  deriving DecidableEq, Repr

/-- The bytes of blocks one behind the other. -/
def bytes (next : List Block) : List UInt8 := (next.map Block.data).flatten

/-- What `allocb` leaves before and behind `rp` of a block for a number of bytes. -/
structure Allocb where
  base : ℕ → ℕ
  lim : ℕ → ℕ
  le : ∀ n, n ≤ lim n

/-- The loop of `pullupblock`, which brings `n` more bytes into the first block. -/
def pullupLoop : ℕ → Block → List Block → Option (Block × List Block)
  | _, _, [] => none
  | n, bp, nbp :: next =>
    if n < nbp.data.length then
      some ({ bp with data := bp.data ++ nbp.data.take n, lim := bp.lim - n },
        { nbp with base := nbp.base + n, data := nbp.data.drop n } :: next)
    else
      let bp := { bp with data := bp.data ++ nbp.data, lim := bp.lim - nbp.data.length }
      if n = nbp.data.length then some (bp, next) else pullupLoop (n - nbp.data.length) bp next

/-- The first block has no room for `n` bytes, and a new one takes its place. -/
def Block.moves (bp : Block) (n : ℕ) : Prop := bp.data.length < n ∧ bp.data.length + bp.lim < n

instance (bp : Block) (n : ℕ) : Decidable (bp.moves n) := inferInstanceAs (Decidable (_ ∧ _))

/-- `pullupblock`. -/
def pullupblock (al : Allocb) (bp : Block) (next : List Block) (n : ℕ) :
    Option (Block × List Block) :=
  if n ≤ bp.data.length then some (bp, next)
  else if bp.moves n then pullupLoop n ⟨al.base n, [], al.lim n⟩ (bp :: next)
  else pullupLoop (n - bp.data.length) bp next

/-! ### What is looked at -/

/-- `len` bytes from `off` on that are taken to lie in a packet of `size` bytes. -/
structure Look where
  off : ℕ
  len : ℤ
  size : ℕ
  deriving DecidableEq, Repr

/-- They do. -/
def Look.Within (l : Look) : Prop := 0 ≤ l.len ∧ l.off + l.len ≤ l.size

instance (l : Look) : Decidable l.Within := inferInstanceAs (Decidable (_ ∧ _))

/-- The headers that `unfraglen` looks at lie one behind the other, up to `ufl` and with the
fragment header if there is one. -/
def headers (ufl : ℕ) (nexthdr : UInt8) (size : ℕ) : Look :=
  ⟨0, if nexthdr = FH then ufl + IP6FHDR else ufl, size⟩

/-! ### Reassembly -/

/-- The `memmove` of `coverNext6` stays in its block. -/
def coverNext6In (uflen fend : ℕ) : List Frag6 → Bool
  | [] => true
  | bl :: bls =>
      if fend ≤ bl.foff then true
      else if fend - bl.foff < bl.flen then uflen + (fend - bl.foff) ≤ bl.mem.length
      else coverNext6In uflen fend bls

/-- `Ip6.insertFrag6`, where the headers that move up lie in their block. -/
def insertFrag6 (uflen : ℕ) (bp : Frag6) (blist : List Frag6) : Option (Option (List Frag6)) :=
  match Ip6.insertFrag6 uflen bp blist with
  | none => some none
  | some l =>
    if coverNext6In uflen (bp.foff + bp.flen) (blist.dropWhile fun bl => bl.foff < bp.foff) then
      some (some l)
    else none

/-- `Ip6.complete6`, where the fragment headers that are read lie in their blocks. -/
def complete6 (uflen : ℕ) : ℕ → List Frag6 → Option Bool
  | _, [] => some false
  | pktposn, bl :: bls =>
      if bl.foff ≠ pktposn then some false
      else if bl.mem.length < uflen + IP6FHDR then none
      else if more bl.mem uflen = 0 then some true
      else complete6 uflen (pktposn + bl.flen) bls

/-- The blocks of a complete packet. The first one ends where its header says. -/
def pullup6 (uflen : ℕ) : List Frag6 → Option (List UInt8 × List (List UInt8))
  | [] => none
  | bl :: bls =>
      if bl.mem.length < uflen + IP6FHDR then none
      else
        let mem := bl.mem.take uflen ++ bl.mem.drop (uflen + IP6FHDR)
        if mem.length + IP6FHDR < ploadlen mem + IP6HDR ∨
            ∃ x ∈ bls, x.mem.length < uflen + IP6FHDR + x.flen then none
        else
          some ((setploadlen mem
              (ploadlen mem + 65536 - IP6FHDR + (bls.map Frag6.flen).sum)).take
                (ploadlen mem + IP6HDR - IP6FHDR),
            bls.map fun x => (x.mem.drop (uflen + IP6FHDR)).take x.flen)

/-- `ip6reassemble` for the packet `bp` with the blocks `next` behind it. `fraghdr` stays a pointer
into the first block, and `ih` into the one that is padded. -/
def ip6reassemble (al : Allocb) (now uflen : ℕ) (bp : Block) (next : List Block) (ip : IP6) :
    Option (IP6 × Option (List UInt8 × List (List UInt8)) × List Look) :=
  let d := bp.data
  let size := d.length + (bytes next).length
  if d.length < uflen + IP6FHDR then none
  else
    match if next = [] then some (bp, next) else pullupblock al bp next size with
    | none => none
    | some (bp', next') =>
      let (before, r, n) := Ip6.findFrag6 now uflen d ip.flisthead6
      let ip := { ip with fragfree6 := ip.fragfree6 + n, reasmTimeout := ip.reasmTimeout + n }
      let hdr : Look := ⟨uflen, IP6FHDR, size⟩
      if next ≠ [] ∧ bp.moves size then none
      else if offsetRM d uflen = 0 then
        match r with
        | none =>
            some ({ ip with flisthead6 := before }, some (bp'.data, next'.map Block.data), [hdr])
        | some (_, after) =>
            some ({ ip with
                flisthead6 := before ++ after, fragfree6 := ip.fragfree6 + 1
                reasmFails := ip.reasmFails + 1 },
              some (bp'.data, next'.map Block.data), [hdr])
      -- a block behind is none of a queue, and a block is not padded in its place
      else if next' ≠ [] ∨ bp'.base < 4 then none
      else
        let fr := Ip6.mkFrag6 uflen bp'.data
        let looks : List Look :=
          [hdr, ⟨uflen + IP6FHDR,
            (ploadlen bp'.data : ℤ) + IP6HDR - uflen - IP6FHDR, bp'.data.length⟩]
        match r with
        | none =>
            let f : Fragment6 :=
              { blist := [fr], src := Ip6.src d, dst := Ip6.dst d, id := Ip6.fragid d uflen
                age := 0 }
            let ip := Ip6.ipfragallo6 now f { ip with flisthead6 := before }
            some ({ ip with reasmReqds := ip.reasmReqds + 1 }, none, looks)
        | some (f, after) =>
            match insertFrag6 uflen fr f.blist with
            | none => none
            | some none => some ({ ip with flisthead6 := before ++ f :: after }, none, looks)
            | some (some blist) =>
              match complete6 uflen 0 blist with
              | none => none
              | some false =>
                  some ({ ip with
                    flisthead6 := before ++ { f with blist := blist } :: after }, none, looks)
              | some true =>
                match pullup6 uflen blist with
                | none => none
                | some pkt =>
                    some ({ ip with
                        flisthead6 := before ++ after, fragfree6 := ip.fragfree6 + 1
                        reasmOKs := ip.reasmOKs + 1 },
                      some pkt, looks)

/-- `procxtns`. -/
def procxtns (al : Allocb) (now : ℕ) (doreasm : Bool) (bp : Block) (next : List Block)
    (ip : IP6) : Option (IP6 × List Look) :=
  match Ip6.unfraglen bp.data false with
  | none => none
  | some (offset, proto, mem) =>
    let looks := [headers offset proto (bp.data.length + (bytes next).length)]
    if proto = FH ∧ doreasm then
      match ip6reassemble al now offset { bp with data := mem } next ip with
      | none => none
      | some (ip, none, looks') => some (ip, looks ++ looks')
      | some (ip, some (data, next), looks') =>
        match Ip6.unfraglen data false with
        | none => none
        | some (offset, proto, _) =>
          some (ip, looks ++ looks' ++
            [headers offset proto (data.length + next.flatten.length)])
    else some (ip, looks)

/-! ### Packets that arrive -/

/-- A packet that arrives at the time `now`: its blocks, and whether it is put together here. -/
structure Arrival where
  now : ℕ
  doreasm : Bool
  bp : Block
  next : List Block

/-- The first block is made to hold the header and up to 64 bytes. -/
def Arrival.pull (al : Allocb) (e : Arrival) : Option (Block × List Block) :=
  if e.bp.data.length < 64 then
    pullupblock al e.bp e.next (min (max (e.bp.data.length + (bytes e.next).length) IP6HDR) 64)
  else some (e.bp, e.next)

/-- What `ipiput6` does with a packet up to the end of `procxtns`. -/
def received (al : Allocb) (e : Arrival) (ip : IP6) : Option (IP6 × List Look) :=
  match e.pull al with
  | none => some (ip, [])
  | some (bp, next) => procxtns al e.now e.doreasm bp next ip

/-- The functions read and write bytes of the packet only, and all that they look at lies in it. -/
def Safe (r : Option (IP6 × List Look)) : Prop := ∃ x, r = some x ∧ ∀ l ∈ x.2, l.Within

/-! ### Chains of headers -/

/-- The chain of the headers of a packet of `size` bytes, of which `d` are in the first block: it
leads to a header of type `t` at `p`. -/
structure Walks (d : List UInt8) (p q : ℕ) (t : UInt8) (size : ℕ) : Prop where
  chain : Chain d p q t
  stops : t ≠ HBH ∧ t ≠ RH
  reads : t = FH → p < d.length
  within : (headers p t size).Within

section

variable {d d' : List UInt8} {p q n ufl q' size : ℕ} {t t' : UInt8}

theorem Walks.congr (h : Walks d p q t size) (hlen : d'.length = d.length)
    (hsame : ∀ i, i ≠ 4 → i ≠ 5 → d'[i]? = d[i]?) : Walks d' p q t size := by
  obtain ⟨hfield, -, hor, -⟩ := h.chain.field
  simp only [IP6HDR] at hor
  refine ⟨h.chain.congr ?_ fun i _ h4 h5 _ => hsame i h4 h5, h.stops, fun ht => ?_, h.within⟩
  · exact (hsame q (by omega) (by omega)).trans hfield
  · rw [hlen]
    exact h.reads ht

/-- The walk over the headers of such a packet. -/
theorem Walks.unfraglen (h : Walks d p q t size) :
    ∃ mem, Ip6.unfraglen d false = some (p, t, mem) ∧ mem.length = d.length ∧
      (t = FH → mem = d.set q (d.getD p 0)) := by
  by_cases hFH : t = FH
  · subst hFH
    have hp := List.getElem?_eq_getElem (h.reads rfl)
    refine ⟨d.set q (d.getD p 0), ?_, List.length_set, fun _ => rfl⟩
    rw [List.getD_eq_getElem?_getD, hp, Option.getD_some]
    exact Ip6.unfraglen_of_fragment h.chain hp
  · exact ⟨d, Ip6.unfraglen_of_chain h.chain h.stops hFH, rfl, fun ht => absurd ht hFH⟩

/-- A walk that ends has followed a chain. -/
theorem chain_of_unfragWalk (h : Chain d p q t)
    (hwalk : Ip6.unfragWalk d n p q t = some (ufl, q', t')) :
    Chain d ufl q' t' ∧ t' ≠ HBH ∧ t' ≠ RH := by
  induction n generalizing p q t with
  | zero => cases hwalk
  | succ n ih =>
    rw [Ip6.unfragWalk] at hwalk
    split at hwalk
    · rename_i hext
      split at hwalk
      · rename_i hnext hlen
        exact ih (.extension h hext hnext hlen) hwalk
      · cases hwalk
    · rename_i hext
      cases hwalk
      exact ⟨h, not_or.mp hext⟩

/-- A packet with a first header whose walk stays in the packet has a chain of headers there. -/
theorem walks_of_unfraglen {mem : List UInt8} (h6 : 6 < d.length)
    (h : Ip6.unfraglen d false = some (p, t, mem)) (hwithin : (headers p t size).Within) :
    ∃ q, Walks d p q t size := by
  have hproto : d[6]? = some (Ip6.proto d) := by
    rw [Ip6.proto, List.getD_eq_getElem?_getD, List.getElem?_eq_getElem h6, Option.getD_some]
  unfold Ip6.unfraglen at h
  rcases hwalk : Ip6.unfragWalk d d.length IP6HDR 6 (Ip6.proto d) with _ | ⟨ufl, q, nexthdr⟩
  · rw [hwalk] at h
    cases h
  rw [hwalk] at h
  dsimp only at h
  obtain ⟨hchain, hstop⟩ := chain_of_unfragWalk (.header hproto) hwalk
  by_cases hFH : nexthdr = FH
  · rw [if_pos hFH] at h
    rcases hv : d[ufl]? with _ | v
    · rw [hv] at h
      cases h
    · rw [hv] at h
      cases h
      exact ⟨q, hchain, hstop, fun _ => (List.getElem?_eq_some_iff.mp hv).1, hwithin⟩
  · rw [if_neg hFH] at h
    cases h
    exact ⟨q, hchain, hstop, fun ht => absurd ht hFH, hwithin⟩

end

/-! ### Pulling up -/

section

variable {next : List Block} {n : ℕ}

theorem bytes_cons (b : Block) (l : List Block) : bytes (b :: l) = b.data ++ bytes l := rfl

/-- All that lies behind comes into the first block, which stays where it is. -/
theorem pullupLoop_all (bp : Block) (hn : n = (bytes next).length) (hpos : 0 < n) :
    ∃ bp' next', pullupLoop n bp next = some (bp', next') ∧ bp'.data = bp.data ++ bytes next ∧
      bp'.base = bp.base ∧ ((∀ b ∈ next.getLast?, b.data ≠ []) → next' = []) := by
  induction next generalizing n bp with
  | nil =>
    rw [hn] at hpos
    exact absurd hpos (lt_irrefl 0)
  | cons nbp next ih =>
    rw [bytes_cons, List.length_append] at hn
    rw [pullupLoop, if_neg (by omega)]
    by_cases hlast : n = nbp.data.length
    · have hnil : bytes next = [] := List.length_eq_zero_iff.mp (by omega)
      simp only [if_pos hlast]
      refine ⟨_, _, rfl, ?_, rfl, fun hne => ?_⟩
      · rw [bytes_cons, hnil, List.append_nil]
      · rcases hlist : next.getLast? with _ | b
        · exact List.getLast?_eq_none_iff.mp hlist
        · have hb : b ∈ (nbp :: next).getLast? := by
            rw [List.getLast?_cons, hlist]
            rfl
          have hmem : b.data ∈ next.map Block.data :=
            List.mem_map_of_mem (List.mem_of_getLast? hlist)
          exact absurd (List.flatten_eq_nil_iff.mp hnil _ hmem) (hne b hb)
    · simp only [if_neg hlast]
      obtain ⟨bp', next', heq, hdata, hbase, hnil⟩ := ih
        { bp with data := bp.data ++ nbp.data, lim := bp.lim - nbp.data.length }
        (show n - nbp.data.length = (bytes next).length by omega) (by omega)
      refine ⟨bp', next', heq, ?_, hbase, fun hne => hnil fun b hb => hne b ?_⟩
      · rw [hdata, bytes_cons, List.append_assoc]
      · rw [List.getLast?_cons, hb]
        rfl

end

/-! ### Queues -/

/-- The fragment lies in its block, behind headers of `u` bytes and the fragment header. -/
def Held (u : ℕ) (x : Frag6) : Prop := u + IP6FHDR + x.flen ≤ x.mem.length

/-- A first fragment without its fragment header. -/
def headless (u : ℕ) (mem : List UInt8) : List UInt8 :=
  (mem.take u ++ mem.drop (u + IP6FHDR)).take (ploadlen mem + IP6HDR - IP6FHDR)

/-- A first fragment holds what its header says, and all headers of the packet. -/
structure First (u : ℕ) (mem : List UInt8) : Prop where
  ge : u + IP6FHDR ≤ ploadlen mem + IP6HDR
  within : ploadlen mem + IP6HDR ≤ mem.length
  walks : ∃ p q t, Walks (headless u mem) p q t (ploadlen mem + IP6HDR - IP6FHDR)

/-- The fragments of a queue lie in their blocks. -/
structure QueueIn (u : ℕ) (l : List Frag6) : Prop where
  ge : IP6HDR ≤ u
  held : ∀ x ∈ l, Held u x
  first : ∀ x ∈ l.head?, x.foff = 0 → First u x.mem

section

variable {u : ℕ} {bp : Frag6} {l : List Frag6}

theorem held_coverNext6 (fend : ℕ) (h : ∀ x ∈ l, Held u x) :
    coverNext6In u fend l = true ∧ ∀ x ∈ Ip6.coverNext6 u fend l, Held u x := by
  induction l with
  | nil => exact ⟨rfl, h⟩
  | cons bl bls ih =>
    have hbl : u + IP6FHDR + bl.flen ≤ bl.mem.length := h bl List.mem_cons_self
    have hbls := fun x hx => h x (List.mem_cons_of_mem bl hx)
    rw [coverNext6In, Ip6.coverNext6]
    by_cases hle : fend ≤ bl.foff
    · rw [if_pos hle, if_pos hle]
      exact ⟨rfl, h⟩
    rw [if_neg hle, if_neg hle]
    by_cases hcut : fend - bl.foff < bl.flen
    · rw [if_pos hcut, if_pos hcut]
      refine ⟨decide_eq_true (by omega), fun x hx => ?_⟩
      obtain rfl | hx := List.mem_cons.mp hx
      · simp only [Held, Frag6.moveup, List.length_append, List.length_take, List.length_drop]
        omega
      · exact hbls x hx
    · rw [if_neg hcut, if_neg hcut]
      exact ih hbls

/-- A fragment that lies in its block is put in its place without a look outside of a block. -/
theorem QueueIn.insert (h : QueueIn u l) (hbp : Held u bp) (hfirst : bp.foff = 0 → First u bp.mem) :
    insertFrag6 u bp l = some none ∨ ∃ l', insertFrag6 u bp l = some (some l') ∧ QueueIn u l' := by
  obtain ⟨hin, hcover⟩ := held_coverNext6 (bp.foff + bp.flen)
    (l := l.dropWhile fun bl => bl.foff < bp.foff) (u := u)
    fun x hx => h.held x ((List.dropWhile_sublist _).subset hx)
  have hbefore := fun x hx =>
    h.held x ((List.takeWhile_sublist (fun bl => bl.foff < bp.foff)).subset hx)
  have hafter : ∀ x ∈ bp :: Ip6.coverNext6 u (bp.foff + bp.flen)
      (l.dropWhile fun bl => bl.foff < bp.foff), Held u x := by
    rintro x (_ | ⟨_, hx⟩)
    · exact hbp
    · exact hcover x hx
  unfold insertFrag6 Ip6.insertFrag6
  dsimp only
  rw [hin]
  rcases hlast : (l.takeWhile fun bl => bl.foff < bp.foff).getLast? with _ | prev
  · rw [hlast]
    refine .inr ⟨_, rfl, h.ge, hafter, fun x hx hzero => ?_⟩
    obtain rfl := Option.some.inj hx
    exact hfirst hzero
  obtain ⟨b, hb⟩ := List.getLast?_eq_some_iff.mp hlast
  have hl : l = b ++ prev :: l.dropWhile fun bl => bl.foff < bp.foff := by
    have happend :=
      List.takeWhile_append_dropWhile (p := fun bl => decide (bl.foff < bp.foff)) (l := l)
    rw [hb, List.append_assoc] at happend
    exact happend.symm
  -- the block before stays, and with it the head of the queue
  have hkeep (n : ℕ) (hn : n ≤ prev.flen) (r : List Frag6) (hr : ∀ x ∈ r, Held u x) :
      QueueIn u (b ++ { prev with flen := n } :: r) := by
    have hprev : Held u prev := hbefore prev (List.mem_of_getLast? hlast)
    refine ⟨h.ge, fun x hx => ?_, fun x hx hzero => ?_⟩
    · obtain hx | hx := List.mem_append.mp hx
      · exact hbefore x (hb ▸ List.mem_append_left _ hx)
      · obtain rfl | hx := List.mem_cons.mp hx
        · exact (Nat.add_le_add_left hn _).trans hprev
        · exact hr x hx
    · cases b with
      | nil =>
        obtain rfl := Option.some.inj hx
        exact h.first prev (by rw [hl]; rfl) hzero
      | cons c b =>
        obtain rfl := Option.some.inj hx
        exact h.first c (by rw [hl]; rfl) hzero
  rw [hlast]
  dsimp only
  by_cases hover : 0 < (prev.foff + prev.flen : ℕ) - (bp.foff : ℤ)
  · rw [if_pos hover]
    by_cases hcov : (bp.flen : ℤ) ≤ (prev.foff + prev.flen : ℕ) - (bp.foff : ℤ)
    · rw [if_pos hcov]
      exact .inl rfl
    · rw [if_neg hcov]
      refine .inr ⟨_, rfl, ?_⟩
      rw [hb, List.dropLast_concat]
      exact hkeep _ (Nat.sub_le _ _) _ hafter
  · rw [if_neg hover]
    refine .inr ⟨_, rfl, ?_⟩
    rw [hb, List.append_assoc]
    exact hkeep prev.flen le_rfl _ hafter

/-- The search for a complete packet. -/
theorem complete6_held (pktposn : ℕ) (h : ∀ x ∈ l, Held u x) :
    ∃ b, complete6 u pktposn l = some b ∧
      (b = true → ∃ bl bls, l = bl :: bls ∧ bl.foff = pktposn) := by
  induction l generalizing pktposn with
  | nil => exact ⟨false, rfl, nofun⟩
  | cons bl bls ih =>
    have hbl : u + IP6FHDR + bl.flen ≤ bl.mem.length := h bl List.mem_cons_self
    rw [complete6]
    by_cases hpos : bl.foff = pktposn
    · rw [if_neg (not_not.mpr hpos), if_neg (by omega)]
      split
      · exact ⟨true, rfl, fun _ => ⟨bl, bls, rfl, hpos⟩⟩
      · obtain ⟨b, heq, -⟩ := ih (pktposn + bl.flen)
          fun x hx => h x (List.mem_cons_of_mem bl hx)
        exact ⟨b, heq, fun _ => ⟨bl, bls, rfl, hpos⟩⟩
    · rw [if_pos hpos]
      exact ⟨false, rfl, nofun⟩

/-- The packet that is put together has all its headers in the first block. -/
theorem QueueIn.pullup (h : QueueIn u l) (hc : complete6 u 0 l = some true) :
    ∃ data next p q t, pullup6 u l = some (data, next) ∧
      Walks data p q t (data.length + next.flatten.length) := by
  obtain ⟨b, hb, hhead⟩ := complete6_held 0 h.held
  obtain ⟨bl, bls, rfl, hzero⟩ := hhead (Option.some.inj (hb.symm.trans hc))
  obtain ⟨hge, hwithin, p, q, t, hwalks⟩ := h.first bl rfl hzero
  have hu := h.ge
  simp only [IP6HDR, IP6FHDR] at hu hge hwithin hwalks
  have hload : ploadlen (bl.mem.take u ++ bl.mem.drop (u + IP6FHDR)) = ploadlen bl.mem := by
    have htake : (bl.mem.take u).length = u := by
      rw [List.length_take]
      omega
    have hget (i : ℕ) (hi : i < u) :
        (bl.mem.take u ++ bl.mem.drop (u + IP6FHDR))[i]? = bl.mem[i]? := by
      rw [List.getElem?_append_left (by omega), List.getElem?_take_of_lt hi]
    rw [Ip6.ploadlen_eq, Ip6.ploadlen_eq, hget 4 (by omega), hget 5 (by omega)]
  have hlen : (bl.mem.take u ++ bl.mem.drop (u + IP6FHDR)).length = bl.mem.length - 8 := by
    simp only [List.length_append, List.length_take, List.length_drop, IP6FHDR]
    omega
  have hall : ¬∃ x ∈ bls, x.mem.length < u + IP6FHDR + x.flen := by
    rintro ⟨x, hx, hlt⟩
    have hx : u + IP6FHDR + x.flen ≤ x.mem.length := h.held x (List.mem_cons_of_mem bl hx)
    omega
  rw [pullup6, if_neg (by simp only [IP6FHDR]; omega)]
  dsimp only
  rw [hload, hlen, if_neg (not_or.mpr ⟨by simp only [IP6FHDR, IP6HDR]; omega, hall⟩)]
  refine ⟨_, _, p, q, t, rfl, ?_⟩
  have hlen' : ((setploadlen (bl.mem.take u ++ bl.mem.drop (u + IP6FHDR))
      (ploadlen bl.mem + 65536 - IP6FHDR + (bls.map Frag6.flen).sum)).take
        (ploadlen bl.mem + IP6HDR - IP6FHDR)).length = ploadlen bl.mem + IP6HDR - IP6FHDR := by
    rw [List.length_take, Ip6.length_setploadlen, hlen]
    simp only [IP6FHDR, IP6HDR]
    omega
  have hmem : (headless u bl.mem).length = ploadlen bl.mem + IP6HDR - IP6FHDR := by
    rw [headless, List.length_take, hlen]
    simp only [IP6FHDR, IP6HDR]
    omega
  have hsame : Walks ((setploadlen (bl.mem.take u ++ bl.mem.drop (u + IP6FHDR))
      (ploadlen bl.mem + 65536 - IP6FHDR + (bls.map Frag6.flen).sum)).take
        (ploadlen bl.mem + IP6HDR - IP6FHDR)) p q t (ploadlen bl.mem + IP6HDR - IP6FHDR) := by
    refine hwalks.congr (hlen'.trans hmem.symm) fun i h4 h5 => ?_
    rw [headless, List.getElem?_take, List.getElem?_take, Ip6.getElem?_setploadlen h4 h5]
  obtain ⟨hlow, hhigh⟩ := hsame.within
  refine ⟨hsame.chain, hsame.stops, hsame.reads, hlow, hhigh.trans ?_⟩
  rw [hlen']
  exact_mod_cast Nat.le_add_right _ _

end

/-! ### Fragments that arrive -/

section

variable (uf : List UInt8 → List UInt8 → ℕ → ℕ)

/-- The queues hold fragments that lie in their blocks, behind headers of the length that `uf` says
for the packet. -/
def Inv (ip : IP6) : Prop := ∀ f ∈ ip.flisthead6, QueueIn (uf f.src f.dst f.id) f.blist

/-- A fragment of a packet that came in pieces, in a block `bp` and blocks `next` that have the
bytes `m` between them: its headers have `p` bytes. -/
structure PieceFits (bp : Block) (next : List Block) (m : List UInt8) (p : ℕ) : Prop where
  alone : ∀ b ∈ next.getLast?, b.data ≠ []
  room : 4 ≤ bp.base
  ge : p + IP6FHDR ≤ ploadlen m + IP6HDR
  within : ploadlen m + IP6HDR ≤ m.length
  agrees : p = uf (Ip6.src bp.data) (Ip6.dst bp.data) (Ip6.fragid bp.data p)
  first : (Ip6.mkFrag6 p m).foff = 0 →
    ∃ p' q' t', Walks (headless p m) p' q' t' (ploadlen m + IP6HDR - IP6FHDR)

/-- A packet with a fragment header, which lies in the first block. A first block without room for
the others is none; and a packet that is whole has all its headers. -/
structure FragFits (bp : Block) (next : List Block) (m : List UInt8) (p : ℕ) : Prop where
  header : p + IP6FHDR ≤ bp.data.length
  stays : next = [] ∨ ¬bp.moves m.length
  atomic : offsetRM bp.data p = 0 → ∃ p' q' t', Walks m p' q' t' m.length
  piece : offsetRM bp.data p ≠ 0 → PieceFits uf bp next m p

end

section

variable {uf : List UInt8 → List UInt8 → ℕ → ℕ} {now p : ℕ} {bp : Block}
  {next : List Block} {ip : IP6}

theorem findFrag6_mem {d : List UInt8} {l before : List Fragment6} {n : ℕ}
    {r : Option (Fragment6 × List Fragment6)} (h : Ip6.findFrag6 now p d l = (before, r, n)) :
    before ⊆ l ∧ ∀ f after, r = some (f, after) → f ∈ l ∧ after ⊆ l ∧ f.holds p d = true := by
  induction l generalizing before r n with
  | nil =>
    cases h
    exact ⟨List.Subset.refl _, nofun⟩
  | cons f fs ih =>
    rw [Ip6.findFrag6] at h
    split at h
    · rename_i hholds
      cases h
      refine ⟨List.nil_subset _, fun g after hg => ?_⟩
      cases hg
      exact ⟨List.mem_cons_self, List.subset_cons_self _ _, hholds⟩
    · rcases heq : Ip6.findFrag6 now p d fs with ⟨before', r', n'⟩
      rw [heq] at h
      dsimp only at h
      obtain ⟨hsub, hr⟩ := ih heq
      have hr' : ∀ g after, r' = some (g, after) →
          g ∈ f :: fs ∧ after ⊆ f :: fs ∧ g.holds p d = true := fun g after hg =>
        ⟨List.mem_cons_of_mem _ (hr g after hg).1,
          List.Subset.trans (hr g after hg).2.1 (List.subset_cons_self _ _), (hr g after hg).2.2⟩
      split at h
      · cases h
        exact ⟨List.Subset.trans hsub (List.subset_cons_self _ _), hr'⟩
      · cases h
        exact ⟨List.cons_subset_cons _ hsub, hr'⟩

/-- The blocks are brought into the first one, which stays where it is. -/
theorem pull_all (al : Allocb) (hstays : next = [] ∨ ¬bp.moves (bp.data ++ bytes next).length) :
    ∃ bp' next', (if next = [] then some (bp, next) else
        pullupblock al bp next (bp.data.length + (bytes next).length)) = some (bp', next') ∧
      bp'.data = bp.data ++ bytes next ∧ bp'.base = bp.base ∧
      ((∀ b ∈ next.getLast?, b.data ≠ []) → next' = []) := by
  rw [List.length_append] at hstays
  by_cases hnil : next = []
  · subst hnil
    rw [if_pos rfl]
    exact ⟨bp, [], rfl, (List.append_nil _).symm, rfl, fun _ => rfl⟩
  rw [if_neg hnil, pullupblock]
  by_cases hle : bp.data.length + (bytes next).length ≤ bp.data.length
  · have hbytes : bytes next = [] := List.length_eq_zero_iff.mp (by omega)
    rw [if_pos hle]
    refine ⟨bp, next, rfl, by rw [hbytes, List.append_nil], rfl, fun hlast => ?_⟩
    have hmem := List.mem_map_of_mem (f := Block.data) (List.getLast_mem hnil)
    exact absurd (List.flatten_eq_nil_iff.mp hbytes _ hmem)
      (hlast _ (List.getLast?_eq_some_getLast hnil))
  · rw [if_neg hle, if_neg (hstays.resolve_left hnil), Nat.add_sub_cancel_left]
    exact pullupLoop_all bp rfl (by omega)

theorem piece_mkFrag6 {m : List UInt8} (hu : IP6HDR ≤ p) (h : PieceFits uf bp next m p) :
    Held p (Ip6.mkFrag6 p m) ∧
      ((Ip6.mkFrag6 p m).foff = 0 → First p (Ip6.mkFrag6 p m).mem) := by
  have hge := h.ge
  have hwithin := h.within
  have hlt : ploadlen m < 65536 := nhgets_lt _
  refine ⟨?_, fun hzero => ⟨hge, hwithin, h.first hzero⟩⟩
  simp only [Held, Ip6.mkFrag6]
  simp only [IP6HDR, IP6FHDR] at hu hge hwithin ⊢
  omega

/-- The queue of a fragment is that of the lengths of its headers. -/
theorem Inv.queue {f : Fragment6} {d : List UInt8} (h : Inv uf ip) (hf : f ∈ ip.flisthead6)
    (hholds : f.holds p d = true) :
    QueueIn (uf (Ip6.src d) (Ip6.dst d) (Ip6.fragid d p)) f.blist := by
  simp only [Fragment6.holds, Bool.and_eq_true, decide_eq_true_eq] at hholds
  have hqueue := h f hf
  rwa [hholds.1.1, hholds.1.2, hholds.2] at hqueue

/-- The queues that are left, with one that is put between them. -/
theorem Inv.of_mem {ip' : IP6} {f : Fragment6} (h : Inv uf ip)
    (hsub : ∀ g ∈ ip'.flisthead6, g ∈ ip.flisthead6 ∨ g = f)
    (hf : QueueIn (uf f.src f.dst f.id) f.blist) : Inv uf ip' := by
  intro g hg
  obtain hg | rfl := hsub g hg
  · exact h g hg
  · exact hf

theorem Inv.of_subset {ip' : IP6} (h : Inv uf ip) (hsub : ip'.flisthead6 ⊆ ip.flisthead6) :
    Inv uf ip' := fun f hf => h f (hsub hf)

theorem Walks.mono {d : List UInt8} {q n n' : ℕ} {t : UInt8} (h : Walks d p q t n) (hle : n ≤ n') :
    Walks d p q t n' := by
  obtain ⟨hlow, hhigh⟩ := h.within
  exact ⟨h.chain, h.stops, h.reads, hlow, hhigh.trans (by exact_mod_cast hle)⟩

theorem mem_ipfragallo6 {f g : Fragment6} (hg : g ∈ (Ip6.ipfragallo6 now f ip).flisthead6) :
    g ∈ { f with age := now + 30000 } :: ip.flisthead6 := by
  unfold Ip6.ipfragallo6 at hg
  dsimp only at hg
  split at hg
  · exact List.cons_subset_cons _ (List.dropLast_subset _) hg
  · exact hg

theorem mem_between {α : Type} {l l' : List α} {a b : α} (h : b ∈ l ++ a :: l') :
    b = a ∨ b ∈ l ++ l' := by
  rw [List.mem_append, List.mem_cons] at h
  rw [List.mem_append]
  tauto

/-- A packet with a fragment header that fits. -/
theorem Inv.ip6reassemble (al : Allocb) (now : ℕ) (h : Inv uf ip) (hp : IP6HDR ≤ p)
    (hfits : FragFits uf bp next (bp.data ++ bytes next) p) :
    ∃ ip' r looks, ip6reassemble al now p bp next ip = some (ip', r, looks) ∧ Inv uf ip' ∧
      (∀ l ∈ looks, l.Within) ∧ ∀ pkt, r = some pkt →
        ∃ p' q' t', Walks pkt.1 p' q' t' (pkt.1.length + pkt.2.flatten.length) := by
  have hheader := hfits.header
  obtain ⟨bp', next', hpull, hdata, hbase, halone⟩ := pull_all al hfits.stays
  rcases hfind : Ip6.findFrag6 now p bp.data ip.flisthead6 with ⟨before, r, n⟩
  obtain ⟨hbefore, hr⟩ := findFrag6_mem hfind
  have hmoves : ¬(next ≠ [] ∧ bp.moves (bp.data.length + (bytes next).length)) := by
    rintro ⟨hne, hmoves⟩
    rw [← List.length_append] at hmoves
    exact hfits.stays.elim hne fun hnot => hnot hmoves
  have hhdr : (⟨p, IP6FHDR, bp.data.length + (bytes next).length⟩ : Look).Within := by
    refine ⟨Int.natCast_nonneg _, ?_⟩
    simp only [IP6FHDR] at hheader ⊢
    push_cast
    omega
  unfold Bounds6.ip6reassemble
  dsimp only
  rw [if_neg (not_lt.mpr hheader), hpull, hfind]
  dsimp only
  rw [if_neg hmoves]
  by_cases hoff : offsetRM bp.data p = 0
  · rw [if_pos hoff]
    obtain ⟨p', q', t', hwalks⟩ := hfits.atomic hoff
    have hdone : Walks bp'.data p' q' t'
        (bp'.data.length + ((next'.map Block.data).flatten).length) := by
      rw [hdata]
      exact hwalks.mono (Nat.le_add_right _ _)
    have hlooks : ∀ l ∈ [(⟨p, IP6FHDR, bp.data.length + (bytes next).length⟩ : Look)], l.Within :=
      fun l hl => List.mem_singleton.mp hl ▸ hhdr
    have hpkt : ∀ pkt, some (bp'.data, next'.map Block.data) = some pkt →
        ∃ p' q' t', Walks pkt.1 p' q' t' (pkt.1.length + pkt.2.flatten.length) := by
      rintro pkt ⟨⟩
      exact ⟨p', q', t', hdone⟩
    rcases r with _ | ⟨f, after⟩
    · exact ⟨_, _, _, rfl, h.of_subset hbefore, hlooks, hpkt⟩
    · exact ⟨_, _, _, rfl, h.of_subset (List.append_subset.mpr ⟨hbefore, (hr f after rfl).2.1⟩),
        hlooks, hpkt⟩
  rw [if_neg hoff]
  have hpiece := hfits.piece hoff
  have hnil : next' = [] := halone hpiece.alone
  have hroom := hpiece.room
  rw [if_neg (by rw [hbase]; exact not_or.mpr ⟨not_not.mpr hnil, not_lt.mpr hroom⟩), hdata]
  obtain ⟨hheld, hfirst⟩ := piece_mkFrag6 hp hpiece
  have hlooks : ∀ l ∈ [(⟨p, IP6FHDR, bp.data.length + (bytes next).length⟩ : Look),
      ⟨p + IP6FHDR, (ploadlen (bp.data ++ bytes next) : ℤ) + IP6HDR - p - IP6FHDR,
        (bp.data ++ bytes next).length⟩], l.Within := by
    have hge := hpiece.ge
    have hwithin := hpiece.within
    rintro l (_ | ⟨_, hl⟩)
    · exact hhdr
    · obtain rfl := List.mem_singleton.mp hl
      constructor
      · dsimp only
        omega
      · dsimp only
        omega
  have hqueue (l : List Frag6) (hl : QueueIn p l) : QueueIn (uf (Ip6.src bp.data)
      (Ip6.dst bp.data) (Ip6.fragid bp.data p)) l := hpiece.agrees ▸ hl
  rcases r with _ | ⟨f, after⟩
  · -- the first fragment of a packet gets a queue
    have hone : QueueIn p [Ip6.mkFrag6 p (bp.data ++ bytes next)] := by
      refine ⟨hp, fun x hx => ?_, fun x hx => ?_⟩
      · obtain rfl := List.mem_singleton.mp hx
        exact hheld
      · obtain rfl := Option.some.inj hx
        exact hfirst
    refine ⟨_, _, _, rfl, h.of_mem
      (f := ⟨_, Ip6.src bp.data, Ip6.dst bp.data, Ip6.fragid bp.data p, now + 30000⟩)
      (fun g hg => ?_) (hqueue _ hone), hlooks, by rintro _ ⟨⟩⟩
    obtain rfl | hg := List.mem_cons.mp (mem_ipfragallo6 hg)
    · exact .inr rfl
    · exact .inl (hbefore hg)
  · obtain ⟨hf, hafter, hholds⟩ := hr f after rfl
    have hfq : QueueIn p f.blist := hpiece.agrees ▸ h.queue hf hholds
    have hrest : before ++ after ⊆ ip.flisthead6 := List.append_subset.mpr ⟨hbefore, hafter⟩
    obtain hins | ⟨blist, hins, hblist⟩ := hfq.insert hheld hfirst
    · dsimp only
      rw [hins]
      refine ⟨_, _, _, rfl, h.of_subset fun g hg => ?_, hlooks, by rintro _ ⟨⟩⟩
      obtain rfl | hg := mem_between hg
      · exact hf
      · exact hrest hg
    dsimp only
    rw [hins]
    obtain ⟨b, hb, -⟩ := complete6_held 0 hblist.held
    dsimp only
    rw [hb]
    cases b with
    | false =>
      refine ⟨_, _, _, rfl, h.of_mem (f := { f with blist := blist }) (fun g hg => ?_) ?_, hlooks,
        by rintro _ ⟨⟩⟩
      · obtain rfl | hg := mem_between hg
        · exact .inr rfl
        · exact .inl (hrest hg)
      · simp only [Fragment6.holds, Bool.and_eq_true, decide_eq_true_eq] at hholds
        dsimp only
        rw [hholds.1.1, hholds.1.2, hholds.2]
        exact hqueue _ hblist
    | true =>
      obtain ⟨data, next'', p', q', t', hpull6, hwalks⟩ := hblist.pullup hb
      dsimp only
      rw [hpull6]
      refine ⟨_, _, _, rfl, h.of_subset hrest, hlooks, ?_⟩
      rintro pkt ⟨⟩
      exact ⟨p', q', t', hwalks⟩

end

/-! ### Packets that arrive -/

/-- The blocks of a packet whose headers, with their lengths, lie in it, each as far as it is read
in the first block; a fragment that is put together fits. -/
def Fits (uf : List UInt8 → List UInt8 → ℕ → ℕ) (doreasm : Bool) (bp : Block) (next : List Block) :
    Prop :=
  ∃ p q t, Walks bp.data p q t (bp.data.length + (bytes next).length) ∧
    (t = FH → doreasm = true →
      FragFits uf { bp with data := bp.data.set q (bp.data.getD p 0) } next
        (bp.data.set q (bp.data.getD p 0) ++ bytes next) p)

/-- A packet that fits when its first bytes have been pulled up. -/
def Arrival.Fits (al : Allocb) (uf : List UInt8 → List UInt8 → ℕ → ℕ) (e : Arrival) : Prop :=
  ∀ bp next, e.pull al = some (bp, next) → Bounds6.Fits uf e.doreasm bp next

/-- A packet that arrives, with what becomes of the queues. -/
def step (al : Allocb) (ip : IP6) (e : Arrival) (ip' : IP6) : Prop :=
  ∃ looks, received al e ip = some (ip', looks)

section

variable {uf : List UInt8 → List UInt8 → ℕ → ℕ} {al : Allocb} {ip ip' : IP6} {e : Arrival}

/-- One packet that fits. -/
theorem Inv.received (h : Inv uf ip) (he : e.Fits al uf) :
    ∃ ip' looks, received al e ip = some (ip', looks) ∧ Inv uf ip' ∧ ∀ l ∈ looks, l.Within := by
  unfold Bounds6.received
  rcases hpull : e.pull al with _ | ⟨bp, next⟩
  · exact ⟨ip, [], rfl, h, fun l hl => absurd hl List.not_mem_nil⟩
  obtain ⟨p, q, t, hwalks, hfrag⟩ := he bp next hpull
  obtain ⟨mem, hun, -, hmem⟩ := hwalks.unfraglen
  have hwithin : ∀ l ∈ [headers p t (bp.data.length + (bytes next).length)], l.Within :=
    fun l hl => List.mem_singleton.mp hl ▸ hwalks.within
  dsimp only
  unfold procxtns
  rw [hun]
  dsimp only
  by_cases hdo : t = FH ∧ e.doreasm = true
  · rw [if_pos hdo, hmem hdo.1]
    obtain ⟨ip', r, looks, heq, hinv, hlooks, hpkt⟩ :=
      h.ip6reassemble al e.now hwalks.chain.field.2.2.2 (hfrag hdo.1 hdo.2)
    rw [heq]
    rcases r with _ | ⟨data, next'⟩
    · exact ⟨ip', _, rfl, hinv, fun l hl => (List.mem_append.mp hl).elim (hwithin l) (hlooks l)⟩
    · obtain ⟨p', q', t', hwalks'⟩ := hpkt _ rfl
      obtain ⟨mem', hun', -, -⟩ := hwalks'.unfraglen
      dsimp only at hun' ⊢
      rw [hun']
      refine ⟨ip', _, rfl, hinv, fun l hl => ?_⟩
      obtain hl | hl := List.mem_append.mp hl
      · exact (List.mem_append.mp hl).elim (hwithin l) (hlooks l)
      · exact List.mem_singleton.mp hl ▸ hwalks'.within
  · rw [if_neg hdo]
    exact ⟨ip, _, rfl, h, hwithin⟩

/-- Packets that fit are looked at safely, in whatever order they arrive. -/
theorem safe_of_run {ip₀ : IP6} (h0 : ip₀.flisthead6 = [])
    (hrun : Run (step al) (fun _ e => e.Fits al uf) ip₀ ip) (he : e.Fits al uf) :
    Safe (received al e ip) := by
  have hinv : Inv uf ip := by
    refine @Run.invariant _ _ _ _ _ _ (Inv uf) (fun f hf => ?_) (fun s e s' hs hok hstep => ?_) hrun
    · rw [h0] at hf
      cases hf
    · obtain ⟨s'', looks, heq, hs'', -⟩ := hs.received hok
      obtain ⟨looks', heq'⟩ := hstep
      rw [heq] at heq'
      cases heq'
      exact hs''
  obtain ⟨ip', looks, heq, -, hlooks⟩ := hinv.received he
  exact ⟨_, heq, hlooks⟩

theorem length_pullupLoop {n : ℕ} {bp bp' : Block} {next next' : List Block}
    (h : pullupLoop n bp next = some (bp', next')) : bp'.data.length = bp.data.length + n := by
  induction next generalizing n bp with
  | nil => cases h
  | cons nbp next ih =>
    rw [pullupLoop] at h
    split at h
    · cases h
      rw [List.length_append, List.length_take]
      omega
    · dsimp only at h
      split at h
      · rename_i hn
        cases h
        rw [List.length_append, hn]
      · have hlen := ih h
        dsimp only at hlen
        rw [List.length_append] at hlen
        omega

/-- The first block holds the first header. -/
theorem le_length_pull {bp : Block} {next : List Block} (h : e.pull al = some (bp, next)) :
    IP6HDR ≤ bp.data.length := by
  unfold Arrival.pull at h
  split at h
  · unfold pullupblock at h
    split_ifs at h with hle hmoves
    · cases h
      simp only [IP6HDR] at hle ⊢
      omega
    · have hlen := length_pullupLoop h
      dsimp only at hlen
      simp only [IP6HDR, List.length_nil] at hlen ⊢
      omega
    · have hlen := length_pullupLoop h
      simp only [IP6HDR] at hlen hle ⊢
      omega
  · cases h
    simp only [IP6HDR]
    omega

theorem reads_of_ip6reassemble {now p : ℕ} {bp : Block} {next : List Block}
    {x : IP6 × Option (List UInt8 × List (List UInt8)) × List Look}
    (h : ip6reassemble al now p bp next ip = some x) : p + IP6FHDR ≤ bp.data.length ∧
      (next = [] ∨ ¬bp.moves (bp.data.length + (bytes next).length)) := by
  unfold ip6reassemble at h
  dsimp only at h
  by_cases hlen : bp.data.length < p + IP6FHDR
  · rw [if_pos hlen] at h
    cases h
  refine ⟨not_lt.mp hlen, ?_⟩
  rw [if_neg hlen] at h
  by_cases hmoves : next ≠ [] ∧ bp.moves (bp.data.length + (bytes next).length)
  · split at h
    · cases h
    · rw [if_pos hmoves] at h
      cases h
  · obtain hnil | hnot := not_and_or.mp hmoves
    · exact .inl (not_not.mp hnil)
    · exact .inr hnot

/-- What is looked at safely has its headers where `Fits` says, and the fragment header of a packet
that is put together lies in the first block, from which `pullupblock` does not move. -/
theorem fits_of_safe {bp : Block} {next : List Block} (hpull : e.pull al = some (bp, next))
    (h : Safe (received al e ip)) :
    ∃ p q t, Walks bp.data p q t (bp.data.length + (bytes next).length) ∧
      (t = FH → e.doreasm = true → p + IP6FHDR ≤ bp.data.length ∧
        (next = [] ∨ ¬bp.moves (bp.data.length + (bytes next).length))) := by
  obtain ⟨⟨ip', looks⟩, heq, hlooks⟩ := h
  unfold received at heq
  rw [hpull] at heq
  dsimp only at heq
  unfold procxtns at heq
  rcases hun : Ip6.unfraglen bp.data false with _ | ⟨p, t, mem⟩
  · rw [hun] at heq
    cases heq
  rw [hun] at heq
  dsimp only at heq
  have hlen := le_length_pull hpull
  simp only [IP6HDR] at hlen
  have hwalks (hmem : headers p t (bp.data.length + (bytes next).length) ∈ looks) :=
    walks_of_unfraglen (by omega) hun (hlooks _ hmem)
  by_cases hdo : t = FH ∧ e.doreasm = true
  · rw [if_pos hdo] at heq
    rcases hre : ip6reassemble al e.now p { bp with data := mem } next ip with _ | ⟨ip'', r, looks'⟩
    · rw [hre] at heq
      cases heq
    have hmem : headers p t (bp.data.length + (bytes next).length) ∈ looks := by
      rw [hre] at heq
      rcases r with _ | ⟨data, next'⟩
      · cases heq
        exact List.mem_append_left _ List.mem_cons_self
      · dsimp only at heq
        split at heq
        · cases heq
        · cases heq
          exact List.mem_append_left _ (List.mem_append_left _ List.mem_cons_self)
    obtain ⟨q, hq⟩ := hwalks hmem
    obtain ⟨mem', hun', hlen', -⟩ := hq.unfraglen
    rw [hun] at hun'
    cases hun'
    obtain ⟨hreads, hstays⟩ := reads_of_ip6reassemble hre
    rw [Block.moves] at hstays
    dsimp only at hreads hstays
    rw [hlen'] at hreads hstays
    exact ⟨p, q, t, hq, fun _ _ => ⟨hreads, hstays⟩⟩
  · rw [if_neg hdo] at heq
    cases heq
    obtain ⟨q, hq⟩ := hwalks List.mem_cons_self
    exact ⟨p, q, t, hq, fun ht hdo' => absurd ⟨ht, hdo'⟩ hdo⟩

end

/-! ### Two fragments, and a packet without a second header -/

/-- A stack without fragments. -/
def idle : IP6 := { fragfree6 := 100 }

/-- An allocator that leaves 64 bytes before a block. -/
def hdrspc : Allocb := ⟨fun _ => 64, id, fun _ => le_rfl⟩

/-- A packet of one block that arrives for this machine. -/
def forMe (proto : UInt8) (payload : List UInt8) : Arrival where
  now := 0
  doreasm := true
  bp := ⟨14, [0x60, 0, 0, 0] ++ hnputs payload.length ++ [proto, 64] ++ List.replicate 32 1 ++
    payload, 0⟩
  next := []

/-- A fragment of 8 bytes of a packet. -/
def eight (offset more : ℕ) : Arrival :=
  forMe FH ([17, 0] ++ hnputs (offset ||| more) ++ [0, 0, 0, 1] ++ List.replicate 8 7)

theorem fits_eight : (eight 0 1).Fits hdrspc (fun _ _ _ => 40) ∧
    (eight 8 0).Fits hdrspc (fun _ _ _ => 40) := by
  constructor
  · intro bp next hpull
    obtain ⟨rfl, rfl⟩ : (eight 0 1).bp = bp ∧ [] = next :=
      Prod.mk.inj (Option.some.inj ((by decide : some ((eight 0 1).bp, []) = _).trans hpull))
    refine ⟨40, 6, FH, ⟨.header rfl, by decide, fun _ => by decide, by decide⟩, fun _ _ =>
      ⟨by decide, .inl rfl, fun h => absurd h (by decide), fun _ =>
        ⟨nofun, by decide, by decide, by decide, by decide, fun _ => ?_⟩⟩⟩
    exact ⟨40, 6, 17, .header (by decide), by decide, fun h => absurd h (by decide), by decide⟩
  · intro bp next hpull
    obtain ⟨rfl, rfl⟩ : (eight 8 0).bp = bp ∧ [] = next :=
      Prod.mk.inj (Option.some.inj ((by decide : some ((eight 8 0).bp, []) = _).trans hpull))
    exact ⟨40, 6, FH, ⟨.header rfl, by decide, fun _ => by decide, by decide⟩, fun _ _ =>
      ⟨by decide, .inl rfl, fun h => absurd h (by decide), fun _ =>
        ⟨nofun, by decide, by decide, by decide, by decide, fun h => absurd h (by decide)⟩⟩⟩

theorem safe_eight : ∃ ip looks, received hdrspc (eight 0 1) idle = some (ip, looks) ∧
    Safe (received hdrspc (eight 8 0) ip) := by
  obtain ⟨hfirst, hlast⟩ := fits_eight
  have hinv : Inv (fun _ _ _ => 40) idle := fun f hf => absurd hf List.not_mem_nil
  have hempty : idle.flisthead6 = [] := rfl
  obtain ⟨ip, looks, heq, -⟩ := hinv.received hfirst
  exact ⟨ip, looks, heq, safe_of_run hempty (Run.nil.snoc hfirst ⟨looks, heq⟩) hlast⟩

/-- The first header of a packet of 40 bytes says that options follow. -/
theorem not_safe_header : ¬∀ al ip (e : Arrival),
    Run (step al) (fun _ e => IP6HDR ≤ e.bp.data.length + (bytes e.next).length) idle ip →
    IP6HDR ≤ e.bp.data.length + (bytes e.next).length → Safe (received al e ip) := by
  intro h
  obtain ⟨x, hx, -⟩ := h hdrspc idle (forMe HBH []) .nil (by decide)
  have hnone : received hdrspc (forMe HBH []) idle = none := by decide
  rw [hnone] at hx
  cases hx

end PlanNine.Bounds6
