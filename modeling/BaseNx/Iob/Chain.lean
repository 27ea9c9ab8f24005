import BaseNx.Errno
import BaseNx.Lib.MachineInt
import BaseNx.Lib.Splice

/-!
# I/O buffer chains as byte strings

`mm/iob`: a packet is a chain of buffers, each with a window of valid bytes, and the first one holds
the length of the packet. `iob_copyin`, `iob_copyout`, `iob_trimhead`, `iob_trimtail` and
`iob_contig` are the operations of a byte string on it: overwrite, read, drop in front, drop behind,
and gather the first bytes in the first buffer (`chain_operations`).

`iob_free` moves the packet length on to the next buffer and asserts what that gives. The assertions
are about a buffer at the head of a packet. `iob_contig` calls it on the second buffer, and a packet
may end in several empty buffers: with assertions enabled the system stops there
(`contig_assertion_fails`).
-/

namespace BaseNx.Iob.Chain

open Lib List

variable {α : Type}

/-! ## Buffers -/

/-- `struct iob_s`; the link to the next buffer is the place in a list. -/
structure Buf (α : Type) where
  len : Nat
  offset : Nat
  pktlen : Nat
  data : List α
  deriving DecidableEq

namespace Buf

/-- The valid bytes of a buffer. -/
def content (b : Buf α) : List α := (b.data.drop b.offset).take b.len

/-- `memcpy` to a position of `io_data` -/
def write (b : Buf α) (pos : Nat) (src : List α) : Buf α := { b with data := splice b.data pos src }

/-- The first bytes are given up. -/
def advance (b : Buf α) (n : Nat) : Buf α := { b with len := b.len - n, offset := b.offset + n }

/-- The first `n` bytes of the next buffer are copied behind the bytes of a buffer at offset
zero. -/
def appendFrom (b next : Buf α) (n : Nat) : Buf α :=
  { b.write b.len ((next.data.drop next.offset).take n) with len := b.len + n }

/-- A buffer as `iob_tryalloc` returns it. -/
def reset (b : Buf α) : Buf α := { b with len := 0, offset := 0, pktlen := 0 }

end Buf

def contents (c : List (Buf α)) : List α := c.flatMap Buf.content

/-! ## `iob_copyin` -/

/-- What is left to copy, the packet length, the chain from the current buffer on, and the free
buffers. -/
structure Copied (α : Type) where
  remaining : Nat
  pktlen : Nat
  chain : List (Buf α)
  pool : List (Buf α)

/-- A buffer in front of the result. -/
def Copied.after (b : Buf α) (r : Copied α) : Copied α := { r with chain := b :: r.chain }

/-- The copy loop at the last buffer, which is filled up and then followed by new ones. -/
def copyinLast (bufsize : Nat) : List (Buf α) → List α → Nat → Nat → Buf α → Copied α
  | pool, src, offset, pktlen, iob =>
    if iob.len - offset < src.length then
      let newlen := min (src.length + offset) (bufsize - iob.offset)
      let ncopy := newlen - offset
      let pktlen := u16 (pktlen + (newlen - iob.len))
      let iob := { iob.write (iob.offset + offset) (src.take ncopy) with len := newlen }
      if (src.drop ncopy).length = 0 then ⟨0, pktlen, [iob], pool⟩
      else
        match pool with
        | [] => ⟨(src.drop ncopy).length, pktlen, [iob], []⟩
        | next :: pool =>
          (copyinLast bufsize pool (src.drop ncopy) 0 pktlen next.reset).after iob
    else ⟨0, pktlen, [iob.write (iob.offset + offset) src], pool⟩

def copyinLoop (bufsize : Nat) (pool : List (Buf α)) :
    List α → Nat → Nat → Buf α → List (Buf α) → Copied α
  | src, offset, pktlen, iob, [] => copyinLast bufsize pool src offset pktlen iob
  | src, offset, pktlen, iob, next :: rest =>
    let avail := iob.len - offset
    if avail < src.length then
      (copyinLoop bufsize pool (src.drop avail) 0 pktlen next rest).after
        (iob.write (iob.offset + offset) (src.take avail))
    else ⟨0, pktlen, iob.write (iob.offset + offset) src :: next :: rest, pool⟩

/-- The loop that skips to the byte offset. -/
def copyinSeek (bufsize : Nat) (pool : List (Buf α)) (src : List α) (pktlen : Nat) :
    Nat → Buf α → List (Buf α) → Copied α
  | offset, iob, [] => copyinLoop bufsize pool src offset pktlen iob []
  | offset, iob, next :: rest =>
    if iob.len < offset then
      (copyinSeek bufsize pool src pktlen (offset - iob.len) next rest).after iob
    else copyinLoop bufsize pool src offset pktlen iob (next :: rest)

/-- The packet length is kept in the first buffer. -/
def setPktlen (pktlen : Nat) : List (Buf α) → List (Buf α)
  | [] => []
  | iob :: rest => { iob with pktlen := pktlen } :: rest

variable (bufsize : Nat) (pool : List (Buf α)) (iob : Buf α) (rest : List (Buf α)) (src : List α)
  (offset : Nat)

/-- `iob_copyin_internal`: the result and the chain. -/
def iobCopyinInternal : Int × List (Buf α) :=
  if iob.pktlen < offset then (-ESPIPE, iob :: rest)
  else
    let r := copyinSeek bufsize pool src iob.pktlen offset iob rest
    (r.remaining, setPktlen r.pktlen r.chain)

/-- `iob_copyin` -/
def iobCopyin : Int × List (Buf α) :=
  let r := iobCopyinInternal bufsize pool iob rest src offset
  (src.length - r.1, r.2)

/-! ## `iob_copyout` -/

/-- The copy loop of `iob_copyout`: the bytes that go to the destination. -/
def copyoutLoop : Nat → Nat → List (Buf α) → List α
  | _, _, [] => []
  | remaining, offset, iob :: rest =>
    if 0 < remaining then
      let ncopy := min (iob.len - offset) remaining
      (iob.data.drop (iob.offset + offset)).take ncopy ++ copyoutLoop (remaining - ncopy) 0 rest
    else []

/-- `iob_copyout` of `len` bytes; the return value is the number of bytes. -/
def iobCopyout (len : Nat) : Nat → List (Buf α) → List α
  | _, [] => []
  | offset, iob :: rest =>
    if iob.len ≤ offset then iobCopyout len (offset - iob.len) rest
    else copyoutLoop len offset (iob :: rest)

/-! ## Trimming and gathering -/

/-- `DEBUGASSERT`, with assertions enabled or not; `none` stops the system. -/
def debugassert (debug : Bool) (p : Prop) [Decidable p] : Option Unit :=
  if debug = true ∧ ¬ p then none else some ()

/-- What `iob_free` does to the next buffer. -/
def iobFree (debug : Bool) (iob next : Buf α) (rest : List (Buf α)) : Option (Buf α) :=
  if iob.len < iob.pktlen then do
    let next := { next with pktlen := iob.pktlen - iob.len }
    debugassert debug (next.len ≤ next.pktlen)
    return next
  else do
    debugassert debug (next.len = 0 ∧ rest.length = 0)
    return { next with pktlen := 0 }

/-- The loop of `iob_trimhead`. -/
def trimheadLoop (debug : Bool) : Nat → Nat → Buf α → List (Buf α) →
    Option (Nat × Buf α × List (Buf α))
  | trimlen, pktlen, iob, [] =>
    if trimlen = 0 then some (pktlen, iob, [])
    else if iob.len ≤ trimlen then do
      let pktlen := sub16 pktlen iob.len
      debugassert debug (pktlen = 0)
      return (pktlen, { iob with len := 0, offset := 0 }, [])
    else some (sub16 pktlen trimlen, iob.advance trimlen, [])
  | trimlen, pktlen, iob, next :: rest =>
    if trimlen = 0 then some (pktlen, iob, next :: rest)
    else if iob.len ≤ trimlen then do
      let next ← iobFree debug iob next rest
      trimheadLoop debug (trimlen - iob.len) (sub16 pktlen iob.len) next rest
    else some (sub16 pktlen trimlen, iob.advance trimlen, next :: rest)

/-- `iob_trimhead` -/
def iobTrimhead (debug : Bool) (iob : Buf α) (rest : List (Buf α)) (trimlen : Nat) :
    Option (List (Buf α)) :=
  if 0 < trimlen then do
    let (pktlen, iob, rest) ← trimheadLoop debug trimlen iob.pktlen iob rest
    return { iob with pktlen := pktlen } :: rest
  else some (iob :: rest)

/-- The loop of `iob_trimtail` over the buffers behind the first one, the last one first. Each turn
of the source walks to the end of the chain again. The result is the packet length, what is left to
trim and the buffers that stay. -/
def trimtailLoop : Nat → Nat → List (Buf α) → Nat × Nat × List (Buf α)
  | len, pktlen, [] => (pktlen, len, [])
  | len, pktlen, last :: before =>
    if len = 0 then (pktlen, 0, last :: before)
    else if last.len ≤ len then trimtailLoop (len - last.len) (sub16 pktlen last.len) before
    else (sub16 pktlen len, 0, { last with len := last.len - len } :: before)

/-- `iob_trimtail`; the first buffer comes last, and it is freed too if all its bytes are
trimmed. -/
def iobTrimtail (iob : Buf α) (rest : List (Buf α)) (trimlen : Nat) : List (Buf α) :=
  let (pktlen, len, kept) := trimtailLoop trimlen iob.pktlen rest.reverse
  if len = 0 then { iob with pktlen := pktlen } :: kept.reverse
  else if iob.len ≤ len then []
  else [{ iob with pktlen := sub16 pktlen len, len := iob.len - len }]

/-- The loop of `iob_contig`, with the second buffer `next`. A buffer that is not emptied has given
all that was asked for, so the loop ends with it. -/
def contigLoop (debug : Bool) (len : Nat) : Buf α → Buf α → List (Buf α) → Option (List (Buf α))
  | iob, next, rest => do
      debugassert debug (0 < next.len)
      let ncopy := min (len - iob.len) next.len
      let iob := iob.appendFrom next ncopy
      let next := next.advance ncopy
      if next.len = 0 then
        match rest with
        | [] => if iob.len < len then none else some [iob]
        | third :: rest => do
            let third ← iobFree debug next third rest
            if iob.len < len then contigLoop debug len iob third rest
            else some (iob :: third :: rest)
      else some (iob :: next :: rest)

/-- `iob_contig`: the result and the chain. -/
def iobContig (debug : Bool) (bufsize : Nat) (iob : Buf α) (rest : List (Buf α)) (len : Nat) :
    Option (Int × List (Buf α)) := do
  debugassert debug (len ≤ bufsize)
  if len ≤ iob.len then some (0, iob :: rest)
  else if len ≤ iob.pktlen then
    -- the bytes move to lower addresses, as a copy from the front does it
    let iob := if 0 < iob.offset then { iob.write 0 iob.content with offset := 0 } else iob
    match rest with
    | [] => none
    | next :: rest => do
        let c ← contigLoop debug len iob next rest
        return (0, c)
  else some (-ENOSPC, iob :: rest)

/-! ## Well-formed chains -/

/-- The valid bytes of a buffer lie in it. -/
structure BufOk (bufsize : Nat) (b : Buf α) : Prop where
  size : b.data.length = bufsize
  fits : b.offset + b.len ≤ bufsize

/-- A packet: a chain of such buffers, with its length in the first one. -/
structure WellFormed (bufsize : Nat) (c : List (Buf α)) : Prop where
  bufs : ∀ b ∈ c, BufOk bufsize b
  pktlen : ∀ b ∈ c.head?, b.pktlen = (contents c).length
  short : (contents c).length < 65536

@[simp] theorem contents_nil : contents ([] : List (Buf α)) = [] := rfl

@[simp] theorem contents_cons (b : Buf α) (c : List (Buf α)) :
    contents (b :: c) = b.content ++ contents c := rfl

theorem contents_append (c d : List (Buf α)) : contents (c ++ d) = contents c ++ contents d :=
  flatMap_append

variable {b : Buf α} {B : Nat}

theorem BufOk.length_content (h : BufOk B b) : b.content.length = b.len := by
  have hsize := h.size
  have hfits := h.fits
  rw [Buf.content, length_take, length_drop]
  omega

theorem BufOk.length_contents (h : BufOk B b) (rest : List (Buf α)) :
    (contents (b :: rest)).length = b.len + (contents rest).length := by
  rw [contents_cons, length_append, h.length_content]

theorem contents_setPktlen (pktlen : Nat) (c : List (Buf α)) :
    contents (setPktlen pktlen c) = contents c := by
  cases c <;> rfl

variable {c : List (Buf α)}

/-- A chain becomes a packet when its length is stored in the first buffer. -/
theorem WellFormed.setPktlen {pktlen : Nat} (hbufs : ∀ b ∈ c, BufOk B b)
    (hpk : pktlen = (contents c).length) (hlt : (contents c).length < 65536) :
    WellFormed B (setPktlen pktlen c) := by
  cases c with
  | nil => exact ⟨hbufs, nofun, hlt⟩
  | cons b rest =>
    obtain ⟨hb, hrest⟩ := forall_mem_cons.1 hbufs
    refine ⟨forall_mem_cons.2 ⟨⟨hb.size, hb.fits⟩, hrest⟩, fun d hd => ?_, hlt⟩
    obtain rfl := Option.some.inj hd
    exact hpk

/-! ## Copying in -/

variable {rest : List (Buf α)} {offset : Nat} {pool : List (Buf α)} {src : List α} {len room : Nat}

/-- A copy into a buffer is a splice of its content, and may make it longer. -/
theorem BufOk.write (h : BufOk B b) (src : List α) (hoff : offset ≤ b.len)
    (hfit : b.offset + (offset + src.length) ≤ B) (hlen : len = max b.len (offset + src.length)) :
    BufOk B { b.write (b.offset + offset) src with len := len } ∧
      ({ b.write (b.offset + offset) src with len := len } : Buf α).content
        = splice b.content offset src := by
  have hsize := h.size
  have hfits := h.fits
  constructor
  · refine ⟨?_, ?_⟩
    · show (splice b.data (b.offset + offset) src).length = B
      rw [length_splice (by omega)]
      omega
    · show b.offset + len ≤ B
      omega
  · show ((splice b.data (b.offset + offset) src).drop b.offset).take len = _
    rw [take_drop_splice (by omega) (by omega)]
    -- only the bytes in front of the offset and behind the copy matter
    have htake : ((b.data.drop b.offset).take len).take offset = b.content.take offset := by
      rw [Buf.content, take_take, take_take]
      congr 1
      omega
    have hdrop : ((b.data.drop b.offset).take len).drop (offset + src.length)
        = b.content.drop (offset + src.length) := by
      rcases le_total b.len (offset + src.length) with hle | hle
      · rw [drop_eq_nil_of_le, drop_eq_nil_of_le]
        · rw [h.length_content]
          exact hle
        · rw [length_take]
          omega
      · rw [hlen, max_eq_left hle, Buf.content]
    rw [splice, splice, htake, hdrop]

/-- What a copy of `n` bytes to an offset leaves to allocate. -/
def lastRoom (B : Nat) : Buf α → List (Buf α) → Nat
  | b, [] => B - b.offset - b.len
  | _, next :: rest => lastRoom B next rest

/-- A result of the copy loops, with `room` bytes of space in the chain and the free buffers: what
does not fit is left, and the packet length of 16 bits has grown with the content. -/
structure Stored (B room : Nat) (s src : List α) (offset pktlen : Nat) (r : Copied α) : Prop where
  remaining : r.remaining = offset + src.length - room
  bufs : ∀ b ∈ r.chain, BufOk B b
  contents : contents r.chain = splice s offset (src.take (src.length - r.remaining))
  short : pktlen < 65536 → r.pktlen < 65536
  pktlen : u16 (r.pktlen + s.length) = u16 (pktlen + (Chain.contents r.chain).length)

/-- A copy that ends inside of a buffer. -/
theorem Stored.inside (hb : BufOk B b) (hrest : ∀ c ∈ rest, BufOk B c) (hoff : offset ≤ b.len)
    (hin : src.length ≤ b.len - offset) (pktlen : Nat) (pool : List (Buf α))
    (hroom : b.len ≤ room) : Stored B room (Chain.contents (b :: rest)) src offset pktlen
      ⟨0, pktlen, b.write (b.offset + offset) src :: rest, pool⟩ := by
  have hfits := hb.fits
  have hcontent := hb.length_content
  obtain ⟨hbuf, hbytes⟩ := hb.write src hoff (by omega)
    (show b.len = max b.len (offset + src.length) by omega)
  have hcontents : Chain.contents (b.write (b.offset + offset) src :: rest)
      = splice (Chain.contents (b :: rest)) offset src := by
    rw [contents_cons, contents_cons, splice_append_left (by omega), ← hbytes]
    rfl
  refine ⟨by dsimp only; omega, forall_mem_cons.2 ⟨hbuf, hrest⟩, ?_, id, ?_⟩
  · rwa [Nat.sub_zero, take_length]
  · rw [hcontents, length_splice (by rw [hb.length_contents]; omega), hb.length_contents]
    dsimp only
    congr 1
    omega

/-- The last buffer is filled up as far as it goes. -/
theorem Stored.filled (hb : BufOk B b) (hoff : offset ≤ b.len) (hmore : b.len - offset < src.length)
    {newlen : Nat} (hnew : newlen = min (src.length + offset) (B - b.offset)) (pktlen : Nat)
    (pool : List (Buf α)) :
    Stored B (B - b.offset) (Chain.contents [b]) src offset pktlen
      ⟨(src.drop (newlen - offset)).length, u16 (pktlen + (newlen - b.len)),
        [{ b.write (b.offset + offset) (src.take (newlen - offset)) with len := newlen }],
        pool⟩ := by
  have hfits := hb.fits
  have hlen : (src.take (newlen - offset)).length = newlen - offset := by
    rw [length_take]
    omega
  obtain ⟨hbuf, hbytes⟩ := hb.write (src.take (newlen - offset)) hoff (by omega)
    (show newlen = max b.len (offset + (src.take (newlen - offset)).length) by omega)
  rw [length_drop]
  refine ⟨by dsimp only; omega, forall_mem_singleton.2 hbuf, ?_, fun _ => u16_lt _, ?_⟩
  · rw [contents_cons, hbytes, contents_cons, show src.length - (src.length - (newlen - offset))
      = newlen - offset by omega]
    simp
  · rw [hbuf.length_contents, hb.length_contents]
    simp only [u16, contents_nil, length_nil]
    omega

/-- A buffer in front of the place of the copy, with the first `k` bytes. -/
theorem Stored.after {room' k pktlen pktlen' offset' : Nat} {b' : Buf α} {s t : List α}
    {r : Copied α} (h : Stored B room s (src.drop k) offset' pktlen' r) (hle : offset' ≤ room)
    (hk : k ≤ src.length) (hb' : BufOk B b')
    (hroom : offset' + (src.length - k) - room = offset + src.length - room')
    (hcontents : ∀ n, b'.content ++ splice s offset' ((src.drop k).take n)
      = splice t offset (src.take (k + n)))
    (hpk : u16 (pktlen' + t.length) = u16 (pktlen + b'.len + s.length))
    (hlt : pktlen < 65536 → pktlen' < 65536) :
    Stored B room' t src offset pktlen (r.after b') := by
  have hrem := h.remaining
  have hpk' := h.pktlen
  rw [length_drop] at hrem
  refine ⟨hrem.trans hroom, forall_mem_cons.2 ⟨hb', h.bufs⟩, ?_, h.short ∘ hlt, ?_⟩
  · show Chain.contents (b' :: r.chain) = splice t offset (src.take (src.length - r.remaining))
    rw [contents_cons, h.contents, hcontents, length_drop]
    congr 2
    omega
  · show u16 (r.pktlen + t.length) = u16 (pktlen + (Chain.contents (b' :: r.chain)).length)
    rw [hb'.length_contents]
    simp only [u16] at hpk hpk' ⊢
    omega

theorem copyinLast_stored (pool : List (Buf α)) (hpool : ∀ b ∈ pool, b.data.length = B)
    (src : List α) (offset pktlen : Nat) (hb : BufOk B b) (hoff : offset ≤ b.len) :
    Stored B (B - b.offset + B * pool.length) (Chain.contents [b]) src offset pktlen
      (copyinLast B pool src offset pktlen b) := by
  -- on the free buffers: each one that is needed becomes the last buffer
  induction pool generalizing src offset pktlen b with
  | nil =>
    have hfits := hb.fits
    unfold copyinLast
    dsimp only
    split_ifs with hmore hdone
    · rw [← hdone]
      exact Stored.filled hb hoff hmore rfl pktlen []
    · exact Stored.filled hb hoff hmore rfl pktlen []
    · exact Stored.inside hb (by simp) hoff (by omega) pktlen [] (by omega)
  | cons next pool ih =>
    have hfits := hb.fits
    unfold copyinLast
    dsimp only
    generalize hnew : min (src.length + offset) (B - b.offset) = newlen
    split_ifs with hmore hdone
    · have hfull := Stored.filled hb hoff hmore hnew.symm pktlen (next :: pool)
      rw [hdone] at hfull
      rw [length_drop] at hdone
      exact { hfull with remaining := by show 0 = _; omega }
    · have hlen : (src.take (newlen - offset)).length = newlen - offset := by
        rw [length_take]
        omega
      obtain ⟨hbuf, hbytes⟩ := hb.write (src.take (newlen - offset)) hoff (by omega)
        (show newlen = max b.len (offset + (src.take (newlen - offset)).length) by omega)
      have hnext : BufOk B next.reset := ⟨hpool next (by simp), Nat.zero_le B⟩
      have hempty : Chain.contents [next.reset] = [] := by simp [Buf.content, Buf.reset]
      have hcontent := hb.length_content
      refine (ih (forall_mem_cons.1 hpool).2 _ 0 (u16 (pktlen + (newlen - b.len))) hnext
        (le_refl _)).after (Nat.zero_le _) (by omega) hbuf ?_ (fun n => ?_) ?_ fun _ => u16_lt _
      · rw [length_cons, mul_add, mul_one]
        show 0 + (src.length - (newlen - offset)) - (B - 0 + B * pool.length) = _
        omega
      · rw [hbytes, hempty, nil_splice, take_add, contents_cons, contents_nil, append_nil,
          splice_extend _ (by omega)]
      · rw [hempty, hb.length_contents]
        show u16 (u16 (pktlen + (newlen - b.len)) + (b.len + 0)) = u16 (pktlen + newlen + 0)
        simp only [u16]
        omega
    · exact Stored.inside hb (by simp) hoff (by omega) pktlen _ (by omega)

section

variable (hpool : ∀ b ∈ pool, b.data.length = B) (rest : List (Buf α)) (src : List α)
  (offset pktlen : Nat) (hb : BufOk B b) (hrest : ∀ c ∈ rest, BufOk B c)
include hpool hb hrest

theorem copyinLoop_stored (hoff : offset ≤ b.len) :
    Stored B ((contents (b :: rest)).length + lastRoom B b rest + B * pool.length)
      (contents (b :: rest)) src offset pktlen (copyinLoop B pool src offset pktlen b rest) := by
  have hfits := hb.fits
  have hlength := hb.length_contents rest
  induction rest generalizing src offset pktlen b with
  | nil =>
    rw [hlength, contents_nil, length_nil, add_zero, lastRoom,
      show b.len + (B - b.offset - b.len) = B - b.offset by omega]
    exact copyinLast_stored pool hpool src offset pktlen hb hoff
  | cons next rest ih =>
    unfold copyinLoop
    dsimp only
    split_ifs with hmore
    · have hlen : (src.take (b.len - offset)).length = b.len - offset := by
        rw [length_take]
        omega
      obtain ⟨hbuf, hbytes⟩ := hb.write (src.take (b.len - offset)) hoff (by omega)
        (show b.len = max b.len (offset + (src.take (b.len - offset)).length) by omega)
      obtain ⟨hnext, hrest⟩ := forall_mem_cons.1 hrest
      refine (ih _ 0 pktlen hnext hrest (Nat.zero_le _) hnext.fits
        (hnext.length_contents rest)).after (Nat.zero_le _) (by omega) hbuf ?_ (fun n => ?_) ?_ id
      · rw [hlength, lastRoom]
        omega
      · rw [show (b.write (b.offset + offset) (src.take (b.len - offset))).content = _ from hbytes,
          contents_cons b, take_add, splice_append (by rw [hlen, hb.length_content]; omega)]
      · rw [hlength, ← Nat.add_assoc]
        rfl
    · exact Stored.inside hb hrest hoff (by omega) pktlen pool (by omega)

theorem copyinSeek_stored (hoff : offset ≤ (contents (b :: rest)).length) :
    Stored B ((contents (b :: rest)).length + lastRoom B b rest + B * pool.length)
      (contents (b :: rest)) src offset pktlen (copyinSeek B pool src pktlen offset b rest) := by
  have hlength := hb.length_contents rest
  induction rest generalizing offset b with
  | nil => exact copyinLoop_stored hpool [] src offset pktlen hb hrest (by rwa [hlength] at hoff)
  | cons next rest ih =>
    unfold copyinSeek
    split_ifs with hskip
    · obtain ⟨hnext, hrest⟩ := forall_mem_cons.1 hrest
      refine Stored.after (k := 0) (ih (offset - b.len) hnext hrest (by omega)
        (hnext.length_contents rest)) (by omega) (Nat.zero_le _) hb ?_ (fun n => ?_) ?_ id
      · rw [hlength, lastRoom]
        omega
      · rw [contents_cons b, splice_append_right (by rw [hb.length_content]; omega),
          hb.length_content, zero_add, drop_zero]
      · rw [hlength, ← Nat.add_assoc]
    · exact copyinLoop_stored hpool _ src offset pktlen hb hrest (by omega)

end

section

variable (h : WellFormed B (b :: rest)) (hpool : ∀ c ∈ pool, c.data.length = B)
  (hoff : offset ≤ b.pktlen)
include h hpool hoff

/-- What has room is stored, and the result is a packet again if its length fits. -/
theorem iobCopyinInternal_stored (src : List α)
    (hroom : room = (contents (b :: rest)).length + lastRoom B b rest + B * pool.length) :
    ∃ c, iobCopyinInternal B pool b rest src offset =
    (((offset + src.length - room : Nat) : Int), c) ∧
      contents c = splice (contents (b :: rest)) offset
        (src.take (src.length - (offset + src.length - room))) ∧
      (WellFormed B c ↔ min (offset + src.length) room < 65536) := by
  have hpk : b.pktlen = (contents (b :: rest)).length := h.pktlen b rfl
  have hlt := h.short
  obtain ⟨hb, hrest⟩ := forall_mem_cons.1 h.bufs
  have hstored := copyinSeek_stored hpool rest src offset b.pktlen hb hrest (hpk ▸ hoff)
  rw [iobCopyinInternal, if_neg (by omega)]
  dsimp only
  generalize copyinSeek B pool src b.pktlen offset b rest = r at hstored ⊢
  rw [← hroom] at hstored
  have hcontents := hstored.remaining ▸ hstored.contents
  have hlen := congrArg length hcontents
  have hpktlen := hstored.pktlen
  have hsmall := hstored.short (by omega)
  rw [length_splice (by omega), length_take] at hlen
  refine ⟨setPktlen r.pktlen r.chain, by rw [hstored.remaining], ?_, fun hwf => ?_, fun hfits => ?_⟩
  · rwa [contents_setPktlen]
  · have hshort := hwf.short
    rw [contents_setPktlen] at hshort
    omega
  · have hfits' : (contents r.chain).length < 65536 := by omega
    simp only [u16] at hpktlen
    exact WellFormed.setPktlen hstored.bufs (by omega) hfits'

theorem iobCopyin_ok
    (hroom : offset + src.length ≤ (contents (b :: rest)).length + lastRoom B b rest +
      B * pool.length) :
    ∃ c, iobCopyin B pool b rest src offset = ((src.length : Int), c) ∧
      contents c = splice (contents (b :: rest)) offset src ∧
      (WellFormed B c ↔ offset + src.length < 65536) := by
  obtain ⟨c, hc, hcontents, hwf⟩ := iobCopyinInternal_stored h hpool hoff src rfl
  rw [Nat.sub_eq_zero_of_le hroom] at hc hcontents
  rw [min_eq_left hroom] at hwf
  refine ⟨c, ?_, by rwa [Nat.sub_zero, take_length] at hcontents, hwf⟩
  rw [iobCopyin, hc]
  simp

end

/-! ## Copying out -/

theorem copyoutLoop_eq (hc : ∀ b ∈ c, BufOk B b) (len offset : Nat)
    (hoff : ∀ b ∈ c.head?, offset ≤ b.len) :
    copyoutLoop len offset c = ((contents c).drop offset).take len := by
  induction c generalizing len offset with
  | nil => simp [copyoutLoop]
  | cons b c ih =>
    obtain ⟨hb, hc⟩ := forall_mem_cons.1 hc
    have hle : offset ≤ b.len := hoff b rfl
    have hcontent := hb.length_content
    have hpart : (b.data.drop (b.offset + offset)).take (min (b.len - offset) len)
        = (b.content.drop offset).take len := by
      rw [Buf.content, drop_take, take_take, drop_drop, min_comm]
    unfold copyoutLoop
    dsimp only
    split_ifs with hpos
    · rw [ih hc _ 0 (fun d _ => Nat.zero_le _), hpart, contents_cons,
        drop_append_of_le_length (by omega), take_append, drop_zero, length_drop, hcontent]
      congr 2
      omega
    · obtain rfl : len = 0 := by omega
      simp

theorem iobCopyout_eq (hc : ∀ b ∈ c, BufOk B b) (len offset : Nat) :
    iobCopyout len offset c = ((contents c).drop offset).take len := by
  induction c generalizing offset with
  | nil => simp [iobCopyout]
  | cons b c ih =>
    have hcontent := (hc b (by simp)).length_content
    unfold iobCopyout
    split_ifs with hskip
    · have hnil : b.content.drop offset = [] := drop_eq_nil_of_le (by omega)
      rw [ih (forall_mem_cons.1 hc).2, contents_cons, drop_append, hnil, hcontent,
        nil_append]
    · refine copyoutLoop_eq hc len offset fun d hd => ?_
      obtain rfl := Option.some.inj hd
      omega

/-! ## Trimming the head -/

variable {n : Nat}

section Trimhead

variable {debug : Bool}

/-- At most one empty buffer comes behind the last byte: no buffer is followed by two buffers or
more without bytes. -/
def Tidy : List (Buf α) → Prop
  | _ :: next :: rest => (contents (next :: rest) = [] → rest = []) ∧ Tidy (next :: rest)
  | _ => True

/-- This says nothing about the first buffer. -/
theorem Tidy.head (h : Tidy (b :: rest)) (b' : Buf α) : Tidy (b' :: rest) := by
  cases rest with
  | nil => trivial
  | cons next rest => exact h

theorem debugassert_eq {p : Prop} [Decidable p] (h : debug = true → p) :
    debugassert debug p = some () := by
  rw [debugassert, if_neg]
  rintro ⟨hd, hp⟩
  exact hp (h hd)

/-- Dropping bytes at the front of a buffer. -/
theorem BufOk.advance (h : BufOk B b) (hn : n ≤ b.len) :
    BufOk B (b.advance n) ∧ (b.advance n).content = b.content.drop n := by
  have hfits := h.fits
  refine ⟨⟨h.size, ?_⟩, ?_⟩
  · show b.offset + n + (b.len - n) ≤ B
    omega
  · show (b.data.drop (b.offset + n)).take (b.len - n) = _
    rw [Buf.content, drop_take, drop_drop]

theorem iobFree_head {b next : Buf α} (hb : BufOk B b) (hnext : BufOk B next)
    (hpk : b.pktlen = (contents (b :: next :: rest)).length)
    (htidy : debug = true → contents (next :: rest) = [] → rest = []) :
    iobFree debug b next rest
      = some { next with pktlen := (contents (next :: rest)).length } := by
  have hle := hnext.length_contents rest
  rw [hb.length_contents] at hpk
  unfold iobFree
  split_ifs with hlt
  · have hrest : b.pktlen - b.len = (contents (next :: rest)).length := by omega
    dsimp only
    rw [hrest, debugassert_eq fun _ => by omega]
    rfl
  · have hzero : (contents (next :: rest)).length = 0 := by omega
    rw [debugassert_eq fun hd => ?_, hzero]
    · rfl
    · refine ⟨by omega, ?_⟩
      rw [htidy hd (length_eq_zero_iff.mp hzero)]
      rfl

/-- What `iob_trimhead` has to return for a packet. -/
structure TrimmedHead (B n : Nat) (c : List (Buf α)) (pktlen : Nat) (b : Buf α)
    (rest : List (Buf α)) : Prop where
  bufs : ∀ d ∈ b :: rest, BufOk B d
  contents : contents (b :: rest) = (contents c).drop n
  pktlen : pktlen = (Chain.contents (b :: rest)).length

theorem trimheadLoop_ok (debug : Bool) (rest : List (Buf α)) (n : Nat) (hb : BufOk B b)
    (hrest : ∀ d ∈ rest, BufOk B d) (hpk : b.pktlen = (contents (b :: rest)).length)
    (hshort : (contents (b :: rest)).length < 65536)
    (htidy : debug = true → (contents (b :: rest)).length ≤ n → Tidy (b :: rest)) :
    ∃ pktlen b' rest', trimheadLoop debug n b.pktlen b rest = some (pktlen, b', rest') ∧
      TrimmedHead B n (b :: rest) pktlen b' rest' := by
  have hcontent := hb.length_content
  induction rest generalizing n b with
  | nil =>
    have hlen : (contents [b]).length = b.len := hb.length_contents []
    rw [hlen] at hpk hshort
    unfold trimheadLoop
    split_ifs with hzero hall
    · subst hzero
      exact ⟨_, b, [], rfl, ⟨by simpa using hb, by simp, hpk.trans hlen.symm⟩⟩
    · have hsub : sub16 b.pktlen b.len = 0 := by
        rw [sub16_eq_self (by omega) (by omega)]
        omega
      dsimp only
      rw [hsub, debugassert_eq fun _ => rfl]
      refine ⟨0, { b with len := 0, offset := 0 }, [], rfl, ?_, ?_, ?_⟩
      · exact forall_mem_singleton.2 ⟨hb.size, Nat.zero_le B⟩
      · rw [drop_eq_nil_of_le (by omega)]
        simp [Buf.content]
      · simp [Buf.content]
    · obtain ⟨hbuf, hbytes⟩ := hb.advance (show n ≤ b.len by omega)
      refine ⟨_, _, [], rfl, ?_, ?_, ?_⟩
      · exact forall_mem_singleton.2 hbuf
      · simp only [contents_cons, contents_nil, append_nil, hbytes]
      · rw [sub16_eq_self (by omega) (by omega), hbuf.length_contents, hpk]
        rfl
  | cons next rest ih =>
    have hlen := hb.length_contents (next :: rest)
    have hbufs := forall_mem_cons.2 ⟨hb, hrest⟩
    obtain ⟨hnext, hrest⟩ := forall_mem_cons.1 hrest
    unfold trimheadLoop
    split_ifs with hzero hall
    · subst hzero
      exact ⟨_, b, _, rfl, ⟨hbufs, by simp, hpk⟩⟩
    · -- the whole buffer goes, and the packet length moves on to the next one
      have hfree : iobFree debug b next rest
          = some { next with pktlen := (contents (next :: rest)).length } := by
        refine iobFree_head hb hnext hpk fun hd hnil => ?_
        rw [hnil, length_nil] at hlen
        exact (htidy hd (by omega)).1 hnil
      have hsub : sub16 b.pktlen b.len = (contents (next :: rest)).length := by
        rw [sub16_eq_self (by omega) (by omega)]
        omega
      rw [hfree, hsub]
      obtain ⟨pktlen, b', rest', heq, hok⟩ := ih (n - b.len)
        (b := { next with pktlen := (contents (next :: rest)).length })
        ⟨hnext.size, hnext.fits⟩ hrest
        rfl (by show (contents (next :: rest)).length < _; omega)
        (fun hd hle => (htidy hd (by
          change (contents (next :: rest)).length ≤ _ at hle
          omega)).2.head _) hnext.length_content
      refine ⟨pktlen, b', rest', heq, hok.bufs, ?_, hok.pktlen⟩
      have hnil : b.content.drop n = [] := drop_eq_nil_of_le (by omega)
      rw [hok.contents, contents_cons b, drop_append, hnil, hcontent]
      rfl
    · obtain ⟨hbuf, hbytes⟩ := hb.advance (show n ≤ b.len by omega)
      refine ⟨_, _, _, rfl, ?_, ?_, ?_⟩
      · exact forall_mem_cons.2 ⟨hbuf, (forall_mem_cons.1 hbufs).2⟩
      · rw [contents_cons, hbytes, contents_cons b, drop_append_of_le_length (by omega)]
      · rw [sub16_eq_self (by omega) (by omega), hbuf.length_contents]
        show _ = b.len - n + _
        omega

/-- A trim of all bytes leaves a single buffer for a tidy chain; without assertions also when more
is asked for than there is. -/
theorem trimheadLoop_single (debug : Bool) (rest : List (Buf α)) (n : Nat) (hb : BufOk B b)
    (hrest : ∀ d ∈ rest, BufOk B d) (hpk : b.pktlen = (contents (b :: rest)).length)
    (hshort : (contents (b :: rest)).length < 65536) (hpos : 0 < n)
    (hall : (contents (b :: rest)).length ≤ n) :
    (∃ pktlen b', trimheadLoop debug n b.pktlen b rest = some (pktlen, b', [])) ↔
      Tidy (b :: rest) ∨ debug = false ∧ (contents (b :: rest)).length < n := by
  have hlen := hb.length_contents rest
  have hfreed : b.len ≤ n := by omega
  induction rest generalizing n b with
  | nil =>
    rw [contents_nil, length_nil, Nat.add_zero] at hlen
    have hsub : sub16 b.pktlen b.len = 0 := by
      rw [hpk, hlen, sub16_eq_self (by omega) le_rfl, Nat.sub_self]
    refine iff_of_true ⟨0, { b with len := 0, offset := 0 }, ?_⟩ (.inl trivial)
    rw [trimheadLoop, if_neg (by omega), if_pos hfreed]
    dsimp only
    rw [hsub, debugassert_eq fun _ => rfl]
    rfl
  | cons next rest ih =>
    obtain ⟨hnext, hrest⟩ := forall_mem_cons.1 hrest
    have hsub : sub16 b.pktlen b.len = (contents (next :: rest)).length := by
      rw [hpk, sub16_eq_self hshort (by omega)]
      omega
    rw [trimheadLoop, if_neg (by omega), if_pos hfreed]
    by_cases hstop : debug = true ∧ contents (next :: rest) = [] ∧ rest ≠ []
    · -- the assertion on the freed buffer fails
      obtain ⟨rfl, hnil, hmore⟩ := hstop
      have hpk' : ¬ b.len < b.pktlen := by
        rw [hpk, hlen, hnil]
        simp
      have hfree : iobFree true b next rest = none := by
        rw [iobFree, if_neg hpk', debugassert, if_pos ⟨rfl,
          fun h => hmore (length_eq_zero_iff.1 h.2)⟩]
        rfl
      rw [hfree]
      refine iff_of_false (by rintro ⟨_, _, h⟩; cases h) ?_
      rintro (htidy | h)
      · exact hmore (htidy.1 hnil)
      · cases h.1
    · have hfree : iobFree debug b next rest
          = some { next with pktlen := (contents (next :: rest)).length } := by
        refine iobFree_head hb hnext hpk fun hd hnil => ?_
        by_contra hmore
        exact hstop ⟨hd, hnil, hmore⟩
      rw [hfree, hsub]
      by_cases hdone : n - b.len = 0
      · -- the trim ends here, and what follows has no bytes
        have hnil : contents (next :: rest) = [] := length_eq_zero_iff.1 (by omega)
        have hloop : ∀ (d : Buf α) (pk : Nat), trimheadLoop debug 0 pk d rest =
            some (pk, d, rest) := by
          intro d pk
          cases rest <;> rfl
        dsimp only [Option.bind_eq_bind, Option.bind_some]
        rw [hdone, hloop]
        constructor
        · rintro ⟨_, _, h⟩
          cases h
          exact .inl ⟨fun _ => rfl, trivial⟩
        · rintro (htidy | h)
          · exact ⟨_, _, by rw [htidy.1 hnil]⟩
          · omega
      · have hih := ih (n - b.len) (b := { next with pktlen := (contents (next :: rest)).length })
          ⟨hnext.size, hnext.fits⟩ hrest rfl (by show (contents (next :: rest)).length < _; omega)
          (by omega) (by show (contents (next :: rest)).length ≤ _; omega)
          (hnext.length_contents rest) (by
            have := hnext.length_contents rest
            show next.len ≤ _
            omega)
        change _ ↔ _ ∨ _ ∧ (contents (next :: rest)).length < _ at hih
        refine hih.trans ?_
        by_cases hclean : contents (next :: rest) = [] → rest = []
        · refine or_congr ⟨fun h => ⟨hclean, h.head next⟩, fun h => h.2.head _⟩
            (and_congr_right fun _ => by omega)
        · -- without assertions the loop goes through all the empty buffers
          obtain ⟨hnil, hmore⟩ := Classical.not_imp.1 hclean
          have hquiet : debug = false := Bool.eq_false_iff.2 fun hd => hstop ⟨hd, hnil, hmore⟩
          have hzero : (contents (next :: rest)).length = 0 := by rw [hnil, length_nil]
          exact iff_of_true (.inr ⟨hquiet, by omega⟩) (.inr ⟨hquiet, by omega⟩)

/-- When a trim does what it should: of less than the packet always, and of all its bytes if that
leaves one buffer. -/
def TrimOk (debug : Bool) (n : Nat) (b : Buf α) (rest : List (Buf α)) : Prop :=
  b.pktlen ≤ n → rest = [] ∨ 0 < n ∧ (Tidy (b :: rest) ∨ debug = false ∧ b.pktlen < n)

theorem iobTrimhead_iff (h : WellFormed B (b :: rest)) :
    (∃ c, iobTrimhead debug b rest n = some c ∧ contents c = (contents (b :: rest)).drop n ∧
      WellFormed B c ∧ (b.pktlen ≤ n → c.length = 1)) ↔ TrimOk debug n b rest := by
  have hpk : b.pktlen = (contents (b :: rest)).length := h.pktlen b rfl
  obtain ⟨hb, hrest⟩ := forall_mem_cons.1 h.bufs
  rcases eq_zero_or_pos n with rfl | hpos
  · have hsame : iobTrimhead debug b rest 0 = some (b :: rest) := rfl
    simp [hsame, h, TrimOk]
  have hsingle := trimheadLoop_single debug rest n hb hrest hpk h.short hpos
  rw [iobTrimhead, if_pos hpos]
  constructor
  · rintro ⟨c, hc, -, -, hone⟩ hle
    obtain ⟨⟨pktlen, b', rest'⟩, hloop, heq⟩ := Option.bind_eq_some_iff.1 hc
    cases heq
    obtain rfl : rest' = [] := by simpa using hone hle
    exact .inr ⟨hpos, hpk ▸ (hsingle (hpk ▸ hle)).1 ⟨_, _, hloop⟩⟩
  · intro hok
    have hcase : b.pktlen ≤ n → Tidy (b :: rest) ∨ debug = false ∧ b.pktlen < n := by
      intro hle
      rcases hok hle with rfl | hright
      · exact .inl trivial
      · exact hright.2
    obtain ⟨pktlen, b', rest', heq, htrim⟩ := trimheadLoop_ok debug rest n hb hrest hpk h.short
      fun hd hle => (hcase (hpk ▸ hle)).resolve_right fun hquiet => by
        rw [hd] at hquiet
        cases hquiet.1
    have hlen := length_drop ▸ congrArg length htrim.contents
    have hlt := h.short
    refine ⟨{ b' with pktlen := pktlen } :: rest', by rw [heq]; rfl, htrim.contents,
      .setPktlen htrim.bufs htrim.pktlen (by omega), fun hle => ?_⟩
    obtain ⟨_, _, hone⟩ := (hsingle (hpk ▸ hle)).2 (hpk ▸ hcase hle)
    obtain rfl : rest' = [] := by
      rw [heq] at hone
      cases hone
      rfl
    rfl

end Trimhead

/-! ## Trimming the tail -/

/-- Dropping bytes at the end of a buffer. -/
theorem BufOk.cut (h : BufOk B b) (hn : n ≤ b.len) :
    BufOk B { b with len := n } ∧ ({ b with len := n } : Buf α).content = b.content.take n :=
  ⟨⟨h.size, (Nat.add_le_add_left hn _).trans h.fits⟩, by
    rw [Buf.content, Buf.content, take_take, min_eq_left hn]⟩

/-- What the loop of `iob_trimtail` leaves of the buffers behind the first one. -/
structure TrimmedTail (B n pktlen : Nat) (c : List (Buf α))
    (r : Nat × Nat × List (Buf α)) : Prop where
  bufs : ∀ d ∈ r.2.2, BufOk B d
  contents : contents r.2.2.reverse = (contents c).take ((contents c).length - n)
  left : r.2.1 = n - (Chain.contents c).length
  pktlen : r.1 = pktlen - min n (Chain.contents c).length
  none : r.2.1 ≠ 0 → r.2.2 = []

theorem trimtailLoop_ok (rev : List (Buf α)) (n pktlen : Nat) (hrev : ∀ d ∈ rev, BufOk B d)
    (hle : (contents rev.reverse).length ≤ pktlen) (hshort : pktlen < 65536) :
    TrimmedTail B n pktlen rev.reverse (trimtailLoop n pktlen rev) := by
  induction rev generalizing n pktlen with
  | nil => exact ⟨by simp [trimtailLoop], by simp [trimtailLoop], by simp [trimtailLoop],
      by simp [trimtailLoop], fun _ => rfl⟩
  | cons last rev ih =>
    obtain ⟨hlast, hinit⟩ := forall_mem_cons.1 hrev
    have hcontent := hlast.length_content
    have hsplit : contents (last :: rev).reverse = contents rev.reverse ++ last.content := by
      rw [reverse_cons, contents_append]
      simp
    have hlen : (contents (last :: rev).reverse).length
        = (contents rev.reverse).length + last.len := by
      rw [hsplit, length_append, hcontent]
    unfold trimtailLoop
    split_ifs with hzero hall
    · subst hzero
      refine ⟨hrev, ?_, by simp, by simp, fun h => absurd rfl h⟩
      rw [Nat.sub_zero, take_length]
    · have hsub : sub16 pktlen last.len = pktlen - last.len := sub16_eq_self (by omega) (by omega)
      rw [hsub]
      have hok := ih (n - last.len) (pktlen - last.len) hinit (by omega) (by omega)
      refine ⟨hok.bufs, ?_, ?_, ?_, hok.none⟩
      · rw [hok.contents, hlen, hsplit, take_append_of_le_length (by omega)]
        congr 1
        omega
      · rw [hok.left, hlen]
        omega
      · rw [hok.pktlen, hlen]
        omega
    · obtain ⟨hbuf, hcut⟩ := hlast.cut (show last.len - n ≤ last.len by omega)
      refine ⟨forall_mem_cons.2 ⟨hbuf, hinit⟩, ?_, ?_, ?_, fun h => absurd rfl h⟩
      · have hfirst : (contents rev.reverse).take ((contents rev.reverse).length + last.len - n)
            = contents rev.reverse := take_of_length_le (by omega)
        rw [reverse_cons, contents_append, hlen, hsplit, take_append, hfirst]
        simp only [contents_cons, contents_nil, append_nil, hcut]
        congr 2
        omega
      · show 0 = _
        omega
      · rw [sub16_eq_self (by omega) (by omega)]
        omega

theorem iobTrimtail_ok (h : WellFormed B (b :: rest)) (hn : n < b.pktlen) :
    contents (iobTrimtail b rest n)
        = (contents (b :: rest)).take ((contents (b :: rest)).length - n) ∧
      WellFormed B (iobTrimtail b rest n) := by
  have hpk : b.pktlen = (contents (b :: rest)).length := h.pktlen b rfl
  have hlt := h.short
  have hb := h.bufs b (by simp)
  have hcontent := hb.length_content
  have hlen := hb.length_contents rest
  have hok := trimtailLoop_ok rest.reverse n b.pktlen
    (fun d hd => h.bufs d (by simp [mem_reverse.mp hd])) (by rw [reverse_reverse]; omega)
    (by omega)
  rw [reverse_reverse] at hok
  unfold iobTrimtail
  generalize trimtailLoop n b.pktlen rest.reverse = r at hok ⊢
  obtain ⟨pktlen, len, kept⟩ := r
  have hleft : len = n - (contents rest).length := hok.left
  have hnew : pktlen = b.pktlen - min n (contents rest).length := hok.pktlen
  have hkept : contents kept.reverse = (contents rest).take ((contents rest).length - n) :=
    hok.contents
  dsimp only
  split_ifs with hzero hall
  · have hbytes : contents ({ b with pktlen := pktlen } :: kept.reverse)
        = (contents (b :: rest)).take ((contents (b :: rest)).length - n) := by
      have hfirst : b.content.take (b.len + (contents rest).length - n) = b.content :=
        take_of_length_le (by omega)
      have hrest : b.len + (contents rest).length - n - b.content.length
          = (contents rest).length - n := by omega
      rw [hlen, contents_cons b, take_append, hfirst, hrest, contents_cons, hkept]
      rfl
    have hlen' := congrArg length hbytes
    rw [length_take] at hlen'
    exact ⟨hbytes, .setPktlen (c := b :: kept.reverse)
      (forall_mem_cons.2 ⟨hb, fun d hd => hok.bufs d (mem_reverse.mp hd)⟩)
      ((show pktlen = _ by omega).trans hlen'.symm) (lt_of_eq_of_lt hlen' (by omega))⟩
  · omega
  · obtain ⟨hbuf, hcut⟩ := hb.cut (show b.len - len ≤ b.len by omega)
    have hbytes : contents [{ b with len := b.len - len }]
        = (contents (b :: rest)).take ((contents (b :: rest)).length - n) := by
      rw [hlen, contents_cons b, take_append_of_le_length (by omega), contents_cons, hcut,
        contents_nil, append_nil]
      congr 1
      omega
    have hlen' := congrArg length hbytes
    rw [length_take] at hlen'
    refine ⟨hbytes, .setPktlen (forall_mem_singleton.2 hbuf) (Eq.trans ?_ hlen'.symm) (by omega)⟩
    rw [sub16_eq_self (by omega) (by omega)]
    omega

/-! ## Gathering -/

section Contig

variable {debug : Bool}

/-- `iob_free` of a buffer without bytes hands its packet length on, which has to be at least the
bytes of the next buffer. -/
theorem iobFree_empty (debug : Bool) {b : Buf α} (hb : b.len = 0) (next : Buf α)
    (rest : List (Buf α)) :
    iobFree debug b next rest =
      if debug = true ∧ ¬ (next.len ≤ b.pktlen ∧ (b.pktlen = 0 → rest = [])) then none
      else some { next with pktlen := b.pktlen } := by
  unfold iobFree debugassert
  rw [hb, Nat.sub_zero]
  rcases Nat.eq_zero_or_pos b.pktlen with hzero | hpos
  · simp only [hzero, lt_irrefl, if_false, Nat.le_zero, forall_const, length_eq_zero_iff]
    split <;> rfl
  · simp only [hpos, if_true, hpos.ne', false_imp_iff, and_true]
    split <;> rfl

/-- What `iob_contig` has to return: the same bytes, the first `len` of them in the first buffer. -/
structure Gathered (B len : Nat) (c : List (Buf α)) (pktlen : Nat) (c' : List (Buf α)) : Prop where
  bufs : ∀ d ∈ c', BufOk B d
  contents : contents c' = contents c
  first : ∃ b ∈ c'.head?, b.pktlen = pktlen ∧ len ≤ b.len

/-- Bytes move from the second buffer to the first one. -/
theorem BufOk.gather {b next : Buf α} (hb : BufOk B b) (hzero : b.offset = 0)
    (hnext : BufOk B next) (hn : n ≤ next.len) (hfit : b.len + n ≤ B) :
    (BufOk B (b.appendFrom next n) ∧ BufOk B (next.advance n)) ∧
      (b.appendFrom next n).content ++ (next.advance n).content = b.content ++ next.content := by
  have hsrc : (next.data.drop next.offset).take n = next.content.take n := by
    rw [Buf.content, take_take, min_eq_left hn]
  have hlen : (next.content.take n).length = n := by
    rw [length_take, hnext.length_content]
    omega
  obtain ⟨hbuf, hbytes⟩ := hb.write (next.content.take n) (le_refl b.len)
    (by rw [hlen]; omega)
    (show b.len + n = max b.len (b.len + (next.content.take n).length) by omega)
  obtain ⟨hbuf', hbytes'⟩ := hnext.advance hn
  rw [hzero, zero_add] at hbuf hbytes
  rw [← hb.length_content, splice_length, hb.length_content] at hbytes
  unfold Buf.appendFrom
  rw [hsrc]
  refine ⟨⟨hbuf, hbuf'⟩, ?_⟩
  rw [hbytes, hbytes', append_assoc, take_append_drop]

/-- What the assertions ask for when `need` bytes are gathered, `p` being the packet length that
stands in the second buffer: every buffer that gives bytes has some, and the one behind an emptied
buffer has at most `p`, and is the last one if that is zero. -/
def ContigOk (p : Nat) : (need : Nat) → List (Buf α) → Prop
  | _, [] => True
  | need, next :: rest => 0 < next.len ∧ (need < next.len ∨
      (∀ third ∈ rest.head?, third.len ≤ p ∧ (p = 0 → rest.tail = [])) ∧
        (need = next.len ∨ ContigOk p (need - next.len) rest))

/-- The loop has a result if and only if the assertions hold, and the result is right. -/
theorem contigLoop_spec (hfit : len ≤ B) (rest : List (Buf α)) {b next : Buf α} (hb : BufOk B b)
    (hzero : b.offset = 0) (hnext : BufOk B next) (hrest : ∀ d ∈ rest, BufOk B d)
    (hlt : b.len < len) (hle : len ≤ (contents (b :: next :: rest)).length) :
    (∀ c, contigLoop debug len b next rest = some c →
        Gathered B len (b :: next :: rest) b.pktlen c) ∧
      ((∃ c, contigLoop debug len b next rest = some c) ↔
        (debug = true → ContigOk next.pktlen (len - b.len) (next :: rest))) := by
  -- on the number of buffers behind the second one
  induction hsize : rest.length using Nat.strong_induction_on generalizing b next rest with
  | _ m ih =>
    have hb' := hb.length_content
    have hnext' := hnext.length_content
    obtain ⟨⟨hbuf, hbuf'⟩, hbytes⟩ := hb.gather hzero hnext
      (show min (len - b.len) next.len ≤ next.len by omega) (by omega)
    unfold contigLoop
    by_cases hassert : debug = true ∧ ¬ 0 < next.len
    · rw [debugassert, if_pos hassert]
      exact ⟨nofun, iff_of_false (by rintro ⟨_, h⟩; cases h) fun h => hassert.2 (h hassert.1).1⟩
    have hsome : debug = true → 0 < next.len := fun hd => not_not.1 fun h => hassert ⟨hd, h⟩
    rw [debugassert_eq hsome]
    dsimp only [Option.bind_eq_bind, Option.bind_some]
    generalize hncopy : min (len - b.len) next.len = n at hbuf hbuf' hbytes ⊢
    have hlen : (b.appendFrom next n).len = b.len + n := rfl
    have hpk : (b.appendFrom next n).pktlen = b.pktlen := rfl
    have hoff : (b.appendFrom next n).offset = 0 := hzero
    generalize b.appendFrom next n = iob at hbuf hbytes hlen hpk hoff ⊢
    by_cases hempty : (next.advance n).len = 0
    · -- the second buffer is emptied
      rw [if_pos hempty]
      have hnil : (next.advance n).content = [] := by
        rw [Buf.content, hempty]
        exact take_zero
      rw [hnil, append_nil] at hbytes
      have hall : n = next.len := by
        change next.len - n = 0 at hempty
        omega
      cases rest with
      | nil =>
        simp only [contents_cons, contents_nil, append_nil, length_append, hb', hnext'] at hle
        rw [if_neg (by omega)]
        refine ⟨?_, iff_of_true ⟨_, rfl⟩ fun hd => ⟨hsome hd, .inr ⟨nofun, .inr trivial⟩⟩⟩
        rintro _ ⟨⟩
        exact ⟨by simpa using hbuf, by simp [hbytes], iob, rfl, hpk, by omega⟩
      | cons after rest =>
        obtain ⟨hafter, hrest⟩ := forall_mem_cons.1 hrest
        have hneed : ¬ len - b.len < next.len := by omega
        have hfree := iobFree_empty debug hempty after rest
        rw [show (next.advance n).pktlen = next.pktlen from rfl] at hfree
        dsimp only
        rw [hfree]
        by_cases hstop : debug = true ∧ ¬ (after.len ≤ next.pktlen ∧ (next.pktlen = 0 → rest = []))
        · rw [if_pos hstop]
          exact ⟨nofun, iff_of_false (by rintro ⟨_, h⟩; cases h) fun h =>
            hstop.2 (((h hstop.1).2.resolve_left hneed).1 after rfl)⟩
        have hthird : debug = true → ∀ third ∈ (after :: rest).head?,
            third.len ≤ next.pktlen ∧ (next.pktlen = 0 → (after :: rest).tail = []) := by
          rintro hd _ ⟨⟩
          exact not_not.1 fun h => hstop ⟨hd, h⟩
        rw [if_neg hstop]
        have hafter' : BufOk B { after with pktlen := next.pktlen } := ⟨hafter.size, hafter.fits⟩
        have hcontents : contents (iob :: { after with pktlen := next.pktlen } :: rest)
            = contents (b :: next :: after :: rest) := by
          rw [contents_cons, hbytes, contents_cons b, contents_cons next, append_assoc]
          rfl
        dsimp only [Option.bind_some]
        split_ifs with hmore
        · obtain ⟨hgath, hiff⟩ :=
            ih rest.length (by rw [← hsize]; simp) rest hbuf hoff hafter' hrest
            hmore (by rw [hcontents]; exact hle) rfl
          rw [hlen, hall, Nat.sub_add_eq] at hiff
          refine ⟨fun c hc => ?_, hiff.trans (forall_congr' fun hd => ?_)⟩
          · obtain ⟨hbufs, hbytes', hfirst⟩ := hgath c hc
            exact ⟨hbufs, hbytes'.trans hcontents, hpk ▸ hfirst⟩
          · refine ⟨fun h => ⟨hsome hd, .inr ⟨hthird hd, .inr h⟩⟩, fun h => ?_⟩
            exact ((h.2.resolve_left hneed).2).resolve_left (by omega)
        · refine ⟨?_, iff_of_true ⟨_, rfl⟩ fun hd =>
            ⟨hsome hd, .inr ⟨hthird hd, .inl (by omega)⟩⟩⟩
          rintro _ ⟨⟩
          exact ⟨forall_mem_cons.2 ⟨hbuf, forall_mem_cons.2 ⟨hafter', hrest⟩⟩, hcontents, iob, rfl,
            hpk, by omega⟩
    · rw [if_neg hempty]
      have hdone : n = len - b.len := by
        change ¬ next.len - n = 0 at hempty
        omega
      have hmore : len - b.len < next.len := by
        change ¬ next.len - n = 0 at hempty
        omega
      refine ⟨?_, iff_of_true ⟨_, rfl⟩ fun _ => ⟨by omega, .inl hmore⟩⟩
      rintro _ ⟨⟩
      refine ⟨?_, ?_, iob, rfl, hpk, by omega⟩
      · exact forall_mem_cons.2 ⟨hbuf, forall_mem_cons.2 ⟨hbuf', hrest⟩⟩
      · rw [contents_cons, contents_cons, ← append_assoc, hbytes, contents_cons b,
          contents_cons next, append_assoc]

theorem BufOk.front (hb : BufOk B b) {iob : Buf α}
    (hiob : (if 0 < b.offset then { b.write 0 b.content with offset := 0 } else b) = iob) :
    BufOk B iob ∧ iob.offset = 0 ∧ iob.len = b.len ∧ iob.pktlen = b.pktlen ∧
      iob.content = b.content := by
  have hfits := hb.fits
  have hcontent := hb.length_content
  rw [← hiob]
  split_ifs with hoff
  · have hsize : (splice b.data 0 b.content).length = B := by
      rw [length_splice (Nat.zero_le _), hb.size]
      omega
    refine ⟨⟨hsize, by show 0 + b.len ≤ B; omega⟩, rfl, rfl, rfl, ?_⟩
    show ((splice b.data 0 b.content).drop 0).take b.len = _
    rw [drop_zero, splice, take_zero, nil_append,
      take_append_of_le_length (by omega), take_of_length_le (by omega)]
  · exact ⟨hb, by omega, rfl, rfl, rfl⟩

theorem iobContig_iff (h : WellFormed B (b :: rest)) (hlen : len ≤ b.pktlen) (hfit : len ≤ B) :
    (∃ c, iobContig debug B b rest len = some (0, c) ∧ contents c = contents (b :: rest) ∧
        (∃ b' ∈ c.head?, b'.content.take len = (contents (b :: rest)).take len) ∧ WellFormed B c) ↔
      (debug = true → len ≤ b.len ∨ ∀ next ∈ rest.head?,
        ContigOk next.pktlen (len - b.len) rest) := by
  have hpk : b.pktlen = (contents (b :: rest)).length := h.pktlen b rfl
  have hb := h.bufs b (by simp)
  have hcontent := hb.length_content
  unfold iobContig
  rw [debugassert_eq fun _ => hfit]
  dsimp only [Option.bind_eq_bind, Option.bind_some]
  by_cases hin : len ≤ b.len
  · rw [if_pos hin]
    refine iff_of_true ⟨b :: rest, rfl, rfl, ⟨b, rfl, ?_⟩, h⟩ fun _ => .inl hin
    rw [contents_cons, take_append_of_le_length (by omega)]
  · rw [if_neg hin, if_pos hlen]
    -- the first buffer with its bytes at the front
    generalize hiob :
      (if 0 < b.offset then ({ b.write 0 b.content with offset := 0 } : Buf α) else b)
      = iob
    obtain ⟨hok, hzero, hlen', hpk', hsame⟩ := hb.front hiob
    have hcontents : contents (iob :: rest) = contents (b :: rest) := by
      rw [contents_cons, hsame, contents_cons]
    cases rest with
    | nil =>
      simp only [contents_cons, contents_nil, append_nil, hcontent] at hpk
      omega
    | cons next rest =>
      obtain ⟨hnext, hrest⟩ := forall_mem_cons.1 (forall_mem_cons.1 h.bufs).2
      obtain ⟨hgath, hloop⟩ := contigLoop_spec hfit rest hok hzero hnext hrest
        (show iob.len < len by omega) (by rw [hcontents]; omega)
      simp only [hin, false_or, head?_cons, Option.mem_some_iff, forall_eq']
      rw [← hlen', ← hloop]
      constructor
      · rintro ⟨c, hc, -⟩
        obtain ⟨c', hc', -⟩ := Option.bind_eq_some_iff.1 hc
        exact ⟨c', hc'⟩
      · rintro ⟨c, hc⟩
        obtain ⟨hbufs, hall, b', hb', hpkt, hle⟩ := hgath c hc
        rw [hcontents] at hall
        refine ⟨c, by rw [hc]; rfl, hall, ⟨b', hb', ?_⟩, hbufs, ?_, ?_⟩
        · cases c with
          | nil => exact nomatch hb'
          | cons d ds =>
            obtain rfl := Option.some.inj hb'
            rw [← hall, contents_cons, take_append_of_le_length]
            rw [(hbufs d (by simp)).length_content]
            exact hle
        · intro d hd
          rw [hb'] at hd
          obtain rfl := Option.some.inj hd
          rw [hpkt, hpk', hpk, hall]
        · rw [hall]
          exact h.short

end Contig

/-! ## The operations on packets -/

/-- Chains implement byte strings, each operation if and only if its condition is met. With
assertions enabled, a trim of the whole packet needs a tidy chain, and `iob_contig` buffers that are
not empty and a packet length in the second one. -/
theorem chain_operations (debug : Bool) {B : Nat} (h : WellFormed B (b :: rest)) :
    (∀ pool src offset, (∀ c ∈ pool, c.data.length = B) → offset ≤ b.pktlen →
      offset + src.length ≤ (contents (b :: rest)).length + lastRoom B b rest + B * pool.length →
      ((∃ c, iobCopyin B pool b rest src offset = ((src.length : Int), c) ∧
        contents c = splice (contents (b :: rest)) offset src ∧ WellFormed B c) ↔
          offset + src.length < 65536)) ∧
    (∀ len offset, iobCopyout len offset (b :: rest)
      = ((contents (b :: rest)).drop offset).take len) ∧
    (∀ n, (∃ c, iobTrimhead debug b rest n = some c ∧ contents c = (contents (b :: rest)).drop n ∧
      WellFormed B c ∧ (b.pktlen ≤ n → c.length = 1)) ↔ TrimOk debug n b rest) ∧
    (∀ n < b.pktlen, contents (iobTrimtail b rest n)
        = (contents (b :: rest)).take ((contents (b :: rest)).length - n) ∧
      WellFormed B (iobTrimtail b rest n)) ∧
    (∀ len, len ≤ b.pktlen → len ≤ B →
      ((∃ c, iobContig debug B b rest len = some (0, c) ∧ contents c = contents (b :: rest) ∧
        (∃ b' ∈ c.head?, b'.content.take len = (contents (b :: rest)).take len) ∧ WellFormed B c) ↔
      (debug = true →
        len ≤ b.len ∨ ∀ next ∈ rest.head?, ContigOk next.pktlen (len - b.len) rest))) := by
  refine ⟨fun pool src offset hpool hoff hroom => ?_, iobCopyout_eq h.bufs,
    fun _ => iobTrimhead_iff h, fun _ hn => iobTrimtail_ok h hn, fun _ => iobContig_iff h⟩
  obtain ⟨c, hc, hcontents, hwf⟩ := iobCopyin_ok h hpool hoff hroom
  constructor
  · rintro ⟨c', hc', -, hwf'⟩
    cases hc.symm.trans hc'
    exact hwf.1 hwf'
  · exact fun hshort => ⟨c, hc, hcontents, hwf.2 hshort⟩

/-- A buffer of eight bytes with `len` of them in use. -/
def sampleBuf (len pktlen : Nat) : Buf Nat := ⟨len, 0, pktlen, [0, 1, 2, 3, 4, 5, 6, 7]⟩

/-- A packet of six bytes with an empty buffer in the middle. -/
theorem chain_operations_sample :
    iobCopyout 3 1 [sampleBuf 2 6, sampleBuf 0 0, sampleBuf 4 0] = [1, 0, 1] ∧
      ∃ c, iobTrimhead true (sampleBuf 2 6) [sampleBuf 0 0, sampleBuf 4 0] 3 = some c ∧
        contents c = [1, 2, 3] := by
  have hwf : WellFormed 8 [sampleBuf 2 6, sampleBuf 0 0, sampleBuf 4 0] := by
    refine ⟨fun b hb => ?_, fun b hb => ?_, by decide⟩
    · simp only [mem_cons, not_mem_nil, or_false] at hb
      rcases hb with rfl | rfl | rfl
      · exact ⟨rfl, by decide⟩
      · exact ⟨rfl, by decide⟩
      · exact ⟨rfl, by decide⟩
    · obtain rfl := Option.some.inj hb
      decide
  obtain ⟨-, hout, htrim, -⟩ := chain_operations true hwf
  obtain ⟨c, hc, hbytes, -⟩ := (htrim 3).2 fun hle => absurd hle (by decide)
  exact ⟨(hout 3 1).trans (by decide), c, hc, hbytes.trans (by decide)⟩

/-- Three buffers of two bytes each, and a gather of five bytes: `iob_free` of the second buffer
finds no packet length in it and a third buffer that is not empty. And a packet that ends in two
empty buffers, trimmed completely. -/
theorem contig_assertion_fails :
    iobContig true 8 (sampleBuf 2 6) [sampleBuf 2 0, sampleBuf 2 0] 5 = none ∧
      iobTrimhead true (sampleBuf 2 2) [sampleBuf 0 0, sampleBuf 0 0] 2 = none := by
  decide

/-- What `iob_copyin` stored is read back by `iob_copyout`, and all that stands in front of it or
behind it is read as before. -/
theorem copyout_copyin (h : WellFormed B (b :: rest)) (hpool : ∀ c ∈ pool, c.data.length = B)
    (hoff : offset ≤ b.pktlen) (hshort : offset + src.length < 65536)
    (hroom : offset + src.length ≤ (contents (b :: rest)).length + lastRoom B b rest +
      B * pool.length) :
    ∃ c, iobCopyin B pool b rest src offset = ((src.length : Int), c) ∧
      iobCopyout src.length offset c = src ∧
      ∀ len start, start + len ≤ offset ∨ offset + src.length ≤ start →
        iobCopyout len start c = iobCopyout len start (b :: rest) := by
  obtain ⟨c, hc, hcontents, hwf⟩ := iobCopyin_ok h hpool hoff hroom
  have hlen : offset ≤ (contents (b :: rest)).length := h.pktlen b rfl ▸ hoff
  refine ⟨c, hc, ?_⟩
  simp only [iobCopyout_eq (hwf.2 hshort).bufs, iobCopyout_eq h.bufs, hcontents, splice]
  generalize contents (b :: rest) = s at hlen
  have htake : (s.take offset).length = offset := length_take_of_le hlen
  refine ⟨by rw [append_assoc, drop_left' htake, take_left], ?_⟩
  rintro len start (hfront | hback)
  · rw [take_drop, take_drop, append_assoc, take_append_of_le_length (by omega), take_take,
      min_eq_left hfront]
  · obtain ⟨k, rfl⟩ := Nat.exists_eq_add_of_le hback
    rw [← drop_drop, drop_left' (by rw [length_append, htake]), drop_drop]

theorem copyout_copyin_sample : ∃ c, iobCopyin 8 [] (sampleBuf 4 4) [] [8, 9] 1 = (2, c) ∧
    iobCopyout 2 1 c = [8, 9] := by
  have hwf : WellFormed 8 [sampleBuf 4 4] := by
    refine ⟨fun b hb => ?_, fun b hb => ?_, by decide⟩
    · obtain rfl := mem_singleton.1 hb
      exact ⟨rfl, by decide⟩
    · obtain rfl := Option.some.inj hb
      decide
  exact (copyout_copyin hwf (by simp) (by decide) (by decide) (by decide)).imp
    fun c hc => ⟨hc.1, hc.2.1⟩

end BaseNx.Iob.Chain
