import BaseNx.Lib.ByteMem
import BaseNx.Lib.MachineInt

/-!
# The heap manager

The functions of `mm/mm_heap` over a byte memory, in the 32-bit layout: a chunk at address `n`
has its `size` at `n`, its `preceding` word at `n + 4` and, when it is free, `flink` and `blink`
at `n + 8` and `n + 12`. The heads `mm_nodelist[i]` are nodes of the same shape that live in
`struct mm_heap_s`, outside every region. A null pointer is `0`.

Chunk headers, links and payloads all live in the one memory `Heap.mem`. The arithmetic of
requested sizes wraps as `size_t` does; words wrap when they are stored. The heap semaphore is
left out: every function runs as one critical section.
-/

namespace BaseNx.Mm

open Lib
open ByteMem

/-! ## Constants and the heap state -/

/-- `MM_MIN_SHIFT`. -/
def mmMinShift : Nat := 4
/-- `MM_MIN_CHUNK`. -/
def mmMinChunk : Nat := 16
/-- `MM_MAX_CHUNK`. -/
def mmMaxChunk : Nat := 4194304
/-- `MM_NNODES`. -/
def mmNnodes : Nat := 19
/-- `SIZEOF_MM_ALLOCNODE`. -/
def sizeofAllocnode : Nat := 8
/-- `SIZEOF_MM_FREENODE`. -/
def sizeofFreenode : Nat := 16
/-- `MM_ALLOC_BIT`. -/
def mmAllocBit : Nat := 0x80000000
/-- `~MM_ALLOC_BIT`. -/
def mmSizeMask : Nat := 0x7fffffff

/-- `MM_ALIGN_UP`: masking the low four bits is rounding down to a multiple of sixteen. -/
def mmAlignUp (a : Nat) : Nat := u32 (a + 15) / 16 * 16

/-- `MM_ALIGN_DOWN`. -/
def mmAlignDown (a : Nat) : Nat := u32 a / 16 * 16

/-- A difference of type `uintptr_t` or `size_t`. -/
def usub (a b : Nat) : Nat := u32 (a + (2 ^ 32 - b))

/-- `struct mm_heap_s` and the memory it manages. -/
structure Heap where
  mem : Mem
  /-- the address of `mm_nodelist` -/
  mmNodelist : Nat
  mmHeapsize : Nat
  /-- `mm_heapstart[i]` and `mm_heapend[i]` for `i < mm_nregions` -/
  mmRegions : List (Nat × Nat)

namespace Heap

/-- The address of `mm_nodelist[i]`. -/
def nodelist (h : Heap) (i : Nat) : Nat := h.mmNodelist + 16 * i

def word (h : Heap) (a : Nat) : Nat := load32 h.mem a

def setWord (h : Heap) (a v : Nat) : Heap := { h with mem := store32 h.mem a v }

/-- `n->size`. -/
def size (h : Heap) (n : Nat) : Nat := h.word n
/-- `n->preceding`. -/
def preceding (h : Heap) (n : Nat) : Nat := h.word (n + 4)
/-- `n->flink`. -/
def flink (h : Heap) (n : Nat) : Nat := h.word (n + 8)
/-- `n->blink`. -/
def blink (h : Heap) (n : Nat) : Nat := h.word (n + 12)

/-- `n->size = v`. -/
def setSize (h : Heap) (n v : Nat) : Heap := h.setWord n v
/-- `n->preceding = v`. -/
def setPreceding (h : Heap) (n v : Nat) : Heap := h.setWord (n + 4) v
/-- `n->flink = v`. -/
def setFlink (h : Heap) (n v : Nat) : Heap := h.setWord (n + 8) v
/-- `n->blink = v`. -/
def setBlink (h : Heap) (n v : Nat) : Heap := h.setWord (n + 12) v

/-- `n->preceding = v | (n->preceding & MM_ALLOC_BIT)`. -/
def setPrecedingSize (h : Heap) (n v : Nat) : Heap :=
  h.setPreceding n (v ||| (h.preceding n &&& mmAllocBit))

end Heap

/-! ## The free list -/

/-- A chain of distinct sixteen-byte nodes in a 32-bit address space is no longer than this. -/
def maxNodes : Nat := 2 ^ 28

/-- The loop of `mm_size2ndx`. -/
def ndxLoop : Nat → Nat → Nat → Nat
  | 0, ndx, _ => ndx
  | fuel + 1, ndx, size => if 1 < size then ndxLoop fuel (ndx + 1) (size / 2) else ndx

/-- `mm_size2ndx`. -/
def mmSize2ndx (size : Nat) : Nat :=
  if mmMaxChunk ≤ size then mmNnodes - 1 else ndxLoop 32 0 (size / 2 ^ mmMinShift)

/-- The loop of `mm_addfreechunk`: the pair `(prev, next)` at which it stops. -/
def insertionPoint (h : Heap) (size : Nat) : Nat → Nat → Nat → Nat × Nat
  | 0, prev, next => (prev, next)
  | fuel + 1, prev, next =>
    if next ≠ 0 ∧ h.size next ≠ 0 ∧ h.size next < size then
      insertionPoint h size fuel next (h.flink next)
    else (prev, next)

/-- The stores of `mm_addfreechunk` once its loop has found `prev` and `next`. -/
def linkBetween (h : Heap) (node prev next : Nat) : Heap :=
  let h := h.setFlink prev node
  let h := h.setBlink node prev
  let h := h.setFlink node next
  if next ≠ 0 then h.setBlink next node else h

/-- `mm_addfreechunk`. -/
def mmAddfreechunk (h : Heap) (node : Nat) : Heap :=
  let head := h.nodelist (mmSize2ndx (h.size node))
  let (prev, next) := insertionPoint h (h.size node) maxNodes head (h.flink head)
  linkBetween h node prev next

/-- `node->blink->flink = node->flink; if (node->flink) node->flink->blink = node->blink`. -/
def unlinkNode (h : Heap) (node : Nat) : Heap :=
  let h := h.setFlink (h.blink node) (h.flink node)
  if h.flink node ≠ 0 then h.setBlink (h.flink node) (h.blink node) else h

/-! ## Allocation and release -/

/-- The search loop of `mm_malloc`. -/
def findChunk (h : Heap) (alignsize : Nat) : Nat → Nat → Nat
  | 0, node => node
  | fuel + 1, node =>
    if node ≠ 0 ∧ h.size node < alignsize then findChunk h alignsize fuel (h.flink node) else node

/-- Cut the unneeded end off a chunk that `mm_malloc` has taken from the free list. -/
def splitChunk (h : Heap) (node alignsize : Nat) : Heap :=
  let remaining := h.size node - alignsize
  if sizeofFreenode ≤ remaining then
    let next := node + h.size node
    let remainder := node + alignsize
    let h := h.setSize remainder remaining
    let h := h.setPreceding remainder alignsize
    let h := h.setSize node alignsize
    let h := h.setPrecedingSize next remaining
    mmAddfreechunk h remainder
  else h

/-- `mm_malloc`: the heap afterwards and the pointer returned. -/
def mmMalloc (h : Heap) (size : Nat) : Heap × Nat :=
  if size < 1 then (h, 0)
  else
    let alignsize := mmAlignUp (size + sizeofAllocnode)
    let ndx := if mmMaxChunk ≤ alignsize then mmNnodes - 1 else mmSize2ndx alignsize
    let node := findChunk h alignsize maxNodes (h.flink (h.nodelist ndx))
    if node ≠ 0 then
      let h := unlinkNode h node
      let h := splitChunk h node alignsize
      let h := h.setPreceding node (h.preceding node ||| mmAllocBit)
      (h, node + sizeofAllocnode)
    else (h, 0)

/-- `mm_free` merges the chunk after `node` into it if that chunk is free. Also returns the chunk
that follows `node` afterwards. -/
def mergeNext (h : Heap) (node : Nat) : Heap × Nat :=
  let next := node + h.size node
  if h.preceding next &&& mmAllocBit = 0 then
    let andbeyond := next + h.size next
    let h := unlinkNode h next
    let h := h.setSize node (h.size node + h.size next)
    let h := h.setPrecedingSize andbeyond (h.size node)
    (h, andbeyond)
  else (h, next)

/-- `mm_free` merges `node` into the chunk in front of it if that chunk is free. Also returns the
chunk that is now to be listed. -/
def mergePrev (h : Heap) (node next : Nat) : Heap × Nat :=
  let prev := node - h.preceding node
  if h.preceding prev &&& mmAllocBit = 0 then
    let h := unlinkNode h prev
    let h := h.setSize prev (h.size prev + h.size node)
    let h := h.setPrecedingSize next (h.size prev)
    (h, prev)
  else (h, node)

/-- `mm_free`. -/
def mmFree (h : Heap) (mem : Nat) : Heap :=
  if mem = 0 then h
  else
    let node := mem - sizeofAllocnode
    let h := h.setPreceding node (h.preceding node &&& mmSizeMask)
    let (h, next) := mergeNext h node
    let (h, node) := mergePrev h node next
    mmAddfreechunk h node

/-- `mm_shrinkchunk`: give the end of an allocated chunk back, to the chunk that follows if that
one is free. -/
def mmShrinkchunk (h : Heap) (node size : Nat) : Heap :=
  let next := node + h.size node
  if h.preceding next &&& mmAllocBit = 0 then
    let andbeyond := next + h.size next
    let h := unlinkNode h next
    let newnode := node + size
    let h := h.setSize newnode (h.size next + h.size node - size)
    let h := h.setPreceding newnode size
    let h := h.setSize node size
    let h := h.setPrecedingSize andbeyond (h.size newnode)
    mmAddfreechunk h newnode
  else if size + sizeofFreenode ≤ h.size node then
    let newnode := node + size
    let h := h.setSize newnode (h.size node - size)
    let h := h.setPreceding newnode size
    let h := h.setSize node size
    -- `next` is known to be allocated here
    let h := h.setPreceding next (h.size newnode ||| mmAllocBit)
    mmAddfreechunk h newnode
  else h

/-! ## Reallocation -/

/-- How many bytes `mm_realloc` takes from the previous and from the next chunk. The first
choice looks at the previous chunk; what it decides makes `needed` zero for the second one. -/
def reallocTakes (prevsize nextsize needed : Nat) : Nat × Nat :=
  if 0 < prevsize ∧ (prevsize ≤ nextsize ∨ nextsize < 1) then
    if prevsize < needed then (prevsize, needed - prevsize) else (needed, 0)
  else if 0 < nextsize ∧ needed ≠ 0 then
    if nextsize < needed then (needed - nextsize, nextsize) else (0, needed)
  else (0, 0)

theorem reallocTakes_le {prevsize nextsize needed : Nat} (hle : needed ≤ prevsize + nextsize) :
    (reallocTakes prevsize nextsize needed).1 ≤ prevsize ∧
      (reallocTakes prevsize nextsize needed).2 ≤ nextsize := by
  unfold reallocTakes
  split
  · split <;> (dsimp only; omega)
  · split
    · split <;> (dsimp only; omega)
    · omega

theorem reallocTakes_sum {prevsize nextsize needed : Nat} (hn : 0 < needed)
    (hle : needed ≤ prevsize + nextsize) :
    (reallocTakes prevsize nextsize needed).1 + (reallocTakes prevsize nextsize needed).2
      = needed := by
  unfold reallocTakes
  split
  · split <;> (dsimp only; omega)
  · split
    · split <;> (dsimp only; omega)
    · omega

theorem reallocTakes_dvd {g prevsize nextsize needed : Nat} (hp : g ∣ prevsize)
    (hx : g ∣ nextsize) (hd : g ∣ needed) :
    g ∣ (reallocTakes prevsize nextsize needed).1 ∧
      g ∣ (reallocTakes prevsize nextsize needed).2 := by
  unfold reallocTakes
  split
  · split
    · exact ⟨hp, Nat.dvd_sub hd hp⟩
    · exact ⟨hd, dvd_zero g⟩
  · split
    · split
      · exact ⟨Nat.dvd_sub hd hx, hx⟩
      · exact ⟨dvd_zero g, hd⟩
    · exact ⟨dvd_zero g, dvd_zero g⟩

/-- `mm_realloc` extends the chunk downwards by `takeprev` bytes and moves the contents. The
number of bytes moved is computed from the size of the chunk *after* it has grown, which is
returned too. -/
def reallocTakeprev (h : Heap) (oldnode prev next oldsize prevsize takeprev : Nat) : Heap × Nat :=
  let h := unlinkNode h prev
  let newnode := oldnode - takeprev
  let h :=
    if takeprev < prevsize then
      let h := h.setSize prev (h.size prev - takeprev)
      let h := h.setSize newnode (oldsize + takeprev)
      let h := h.setPreceding newnode (h.size prev ||| mmAllocBit)
      let h := h.setPrecedingSize next (h.size newnode)
      mmAddfreechunk h prev
    else
      let h := h.setSize newnode (h.size newnode + oldsize)
      let h := h.setPreceding newnode (h.preceding newnode ||| mmAllocBit)
      h.setPrecedingSize next (h.size newnode)
  let newsize := h.size newnode
  ({ h with
      mem := memcpy h.mem (newnode + sizeofAllocnode) (oldnode + sizeofAllocnode)
        (newsize - sizeofAllocnode) },
    newsize)

/-- `mm_realloc` extends the chunk upwards by `takenext` bytes. -/
def reallocTakenext (h : Heap) (oldnode next oldsize nextsize takenext : Nat) : Heap :=
  let andbeyond := next + nextsize
  let h := unlinkNode h next
  let h := h.setSize oldnode (oldsize + takenext)
  let newnode := oldnode + h.size oldnode
  if takenext < nextsize then
    let h := h.setSize newnode (nextsize - takenext)
    let h := h.setPreceding newnode (h.size oldnode)
    let h := h.setPrecedingSize andbeyond (h.size newnode)
    mmAddfreechunk h newnode
  else h.setPrecedingSize andbeyond (h.size oldnode)

/-- The branch of `mm_realloc` in which the neighbours of the chunk are large enough. -/
def reallocInPlace (h : Heap) (oldnode prev next oldsize prevsize nextsize newsize : Nat) :
    Heap × Nat :=
  let (takeprev, takenext) := reallocTakes prevsize nextsize (newsize - oldsize)
  let (h, oldnode, oldsize) :=
    if takeprev ≠ 0 then
      let (h, newsize) := reallocTakeprev h oldnode prev next oldsize prevsize takeprev
      (h, oldnode - takeprev, newsize)
    else (h, oldnode, oldsize)
  let h := if takenext ≠ 0 then reallocTakenext h oldnode next oldsize nextsize takenext else h
  (h, oldnode + sizeofAllocnode)

/-- The branch of `mm_realloc` that allocates, copies and frees. `oldsize` counts the header of
the old chunk, so the copy is eight bytes longer than its payload. -/
def reallocMove (h : Heap) (oldmem oldsize size : Nat) : Heap × Nat :=
  let (h, newmem) := mmMalloc h size
  if newmem ≠ 0 then
    (mmFree { h with mem := memcpy h.mem newmem oldmem oldsize } oldmem, newmem)
  else (h, newmem)

/-- `mm_realloc`. -/
def mmRealloc (h : Heap) (oldmem size : Nat) : Heap × Nat :=
  if oldmem = 0 then mmMalloc h size
  else if size < 1 then (mmFree h oldmem, 0)
  else
    let newsize := mmAlignUp (size + sizeofAllocnode)
    let oldnode := oldmem - sizeofAllocnode
    let oldsize := h.size oldnode
    if newsize ≤ oldsize then
      (if newsize < oldsize then mmShrinkchunk h oldnode newsize else h, oldmem)
    else
      let next := oldnode + h.size oldnode
      let nextsize := if h.preceding next &&& mmAllocBit = 0 then h.size next else 0
      let prev := oldnode - (h.preceding oldnode &&& mmSizeMask)
      let prevsize := if h.preceding prev &&& mmAllocBit = 0 then h.size prev else 0
      if newsize ≤ nextsize + prevsize + oldsize then
        reallocInPlace h oldnode prev next oldsize prevsize nextsize newsize
      else reallocMove h oldmem oldsize size

/-! ## Aligned allocation -/

/-- `mm_memalign` cuts the chunk of the raw allocation at the alignment point and releases the
front. Returns the aligned address, the chunk that holds it and its usable size. -/
def alignChunk (h : Heap) (node alignedchunk alignment : Nat) : Heap × Nat × Nat × Nat :=
  let next := node + h.size node
  let newnode := alignedchunk - sizeofAllocnode
  let precedingsize := newnode - node
  -- too short for a free node: go on to the second alignment point
  let (alignedchunk, newnode, precedingsize) :=
    if precedingsize < sizeofFreenode then
      (alignedchunk + alignment, alignedchunk + alignment - sizeofAllocnode,
        alignedchunk + alignment - sizeofAllocnode - node)
    else (alignedchunk, newnode, precedingsize)
  let h := h.setSize newnode (next - newnode)
  let h := h.setPreceding newnode (precedingsize ||| mmAllocBit)
  let h := h.setSize node precedingsize
  let h := h.setPreceding node (h.preceding node &&& mmSizeMask)
  let h := h.setPrecedingSize next (h.size newnode)
  let allocsize := h.size newnode - sizeofAllocnode
  (mmAddfreechunk h node, alignedchunk, newnode, allocsize)

/-- `mm_memalign`. For a power of two, `(rawchunk + mask) & ~mask` rounds up to a multiple. -/
def mmMemalign (h : Heap) (alignment size : Nat) : Heap × Nat :=
  if alignment ≤ mmMinChunk then mmMalloc h size
  else
    let size := mmAlignUp size
    let allocsize := u32 (size + 2 * alignment)
    let (h, rawchunk) := mmMalloc h allocsize
    if rawchunk = 0 then (h, 0)
    else
      let node := rawchunk - sizeofAllocnode
      let alignedchunk := u32 (rawchunk + (alignment - 1)) / alignment * alignment
      let (h, alignedchunk, node, allocsize) :=
        if alignedchunk ≠ rawchunk then alignChunk h node alignedchunk alignment
        else (h, alignedchunk, node, allocsize)
      let size := mmAlignUp (size + sizeofAllocnode)
      (if size < allocsize then mmShrinkchunk h node size else h, alignedchunk)

/-! ## Regions -/

/-- `mm_addregion`. -/
def mmAddregion (h : Heap) (heapstart heapsize : Nat) : Heap :=
  let heapbase := mmAlignUp heapstart
  let heapend := mmAlignDown (heapstart + heapsize)
  let heapsize := usub heapend heapbase
  let guard := usub heapend sizeofAllocnode
  let node := heapbase + sizeofAllocnode
  let h := { h with
    mmHeapsize := u32 (h.mmHeapsize + heapsize), mmRegions := h.mmRegions ++ [(heapbase, guard)] }
  let h := h.setSize heapbase sizeofAllocnode
  let h := h.setPreceding heapbase mmAllocBit
  let h := h.setSize node (usub heapsize (2 * sizeofAllocnode))
  let h := h.setPreceding node sizeofAllocnode
  let h := h.setSize guard sizeofAllocnode
  let h := h.setPreceding guard (h.size node ||| mmAllocBit)
  mmAddfreechunk h node

/-- The loop of `mm_initialize` over the first `i` of the heads behind `mm_nodelist[0]`. -/
def linkHeads (h : Heap) : Nat → Heap
  | 0 => h
  | i + 1 =>
    let h := linkHeads h i
    let h := h.setFlink (h.nodelist i) (h.nodelist (i + 1))
    h.setBlink (h.nodelist (i + 1)) (h.nodelist i)

/-- `mm_initialize` of the heap structure whose node list is at `nodelist`. -/
def mmInitialize (mem : Mem) (nodelist heapstart heapsize : Nat) : Heap :=
  let cleared : Mem := fun b =>
    if nodelist ≤ b ∧ b < nodelist + sizeofFreenode * mmNnodes then 0 else mem b
  let h : Heap := { mem := cleared, mmNodelist := nodelist, mmHeapsize := 0, mmRegions := [] }
  mmAddregion (linkHeads h (mmNnodes - 1)) heapstart heapsize

/-- `mm_extend`: the guard at the end of the region becomes a chunk and is released. An index
without a region is excluded by the assertion of the source. -/
def mmExtend (h : Heap) (mem size region : Nat) : Heap :=
  match h.mmRegions[region]? with
  | none => h
  | some (heapstart, oldnode) =>
    let blockend := u32 (mem + size)
    let h := h.setSize oldnode size
    let newnode := usub blockend sizeofAllocnode
    let h := h.setSize newnode sizeofAllocnode
    let h := h.setPreceding newnode (h.size oldnode ||| mmAllocBit)
    let h := { h with mmRegions := h.mmRegions.set region (heapstart, newnode) }
    mmFree h mem

end BaseNx.Mm
