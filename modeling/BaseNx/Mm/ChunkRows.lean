import BaseNx.Lib.OrderedInsert
import BaseNx.Mm.Runs

/-!
# Chunk sizes in the three layouts of the heap

`include/nuttx/mm/mm.h` defines three layouts of a chunk: the default one with pointers of four
bytes, `CONFIG_MM_SMALL`, and pointers of eight bytes. The functions of `mm/mm_heap` are the same in
all of them. They are modelled here on rows of chunks, without the words of a header: a chunk is
found by its address, and its neighbours are the chunks next to it in its row. The guards at both
ends of a region are not in the row; a chunk without a neighbour has a guard there, which is
allocated. The free list is one list in the order in which it is searched, since the heads
`mm_nodelist[i]` only say where the search for a size starts. The sizes that `mm_addfreechunk` gets
are logged.

Region sizes are those for which the sizes fit below `MM_ALLOC_BIT`. Arithmetic on requested sizes
does not wrap here; `Enabled` says when it does not wrap in the system.

For the default layout the heap is modelled in memory as well, where a chunk is what its header
says. The two models share the law of the sizes: the rows of that heap obey it on every run of its
own (`rowsOk_of_shortReachable`).
-/

namespace BaseNx.Mm.Rows

open Lib List

/-! ## The layouts -/

/-- The configurations of `mm.h`. -/
inductive Build
  | default32
  | mmSmall
  | wide64
  deriving DecidableEq

namespace Build

/-- `SIZEOF_MM_ALLOCNODE` -/
def allocnode : Build → Nat
  | default32 => 8
  | mmSmall => 4
  | wide64 => 8

/-- `MM_PTR_SIZE` -/
def ptrSize : Build → Nat
  | default32 => 4
  | mmSmall => 4
  | wide64 => 8

/-- `SIZEOF_MM_FREENODE` -/
def freenode (k : Build) : Nat := k.allocnode + 2 * k.ptrSize

/-- `MM_MIN_SHIFT` -/
def minShift : Build → Nat
  | default32 => 4
  | mmSmall => 4
  | wide64 => 5

/-- `MM_MIN_CHUNK` -/
def minChunk (k : Build) : Nat := 2 ^ k.minShift

/-- `MM_ALLOC_BIT` -/
def allocBit : Build → Nat
  | default32 => 2 ^ 31
  | mmSmall => 2 ^ 15
  | wide64 => 2 ^ 31

/-- One more than the largest `size_t`. -/
def sizeLimit : Build → Nat
  | default32 => 2 ^ 32
  | mmSmall => 2 ^ 32
  | wide64 => 2 ^ 64

/-- `MM_ALIGN_UP` -/
def alignUp (k : Build) (a : Nat) : Nat := (a + (k.minChunk - 1)) / k.minChunk * k.minChunk

/-- `MM_ALIGN_DOWN` -/
def alignDown (k : Build) (a : Nat) : Nat := a / k.minChunk * k.minChunk

end Build

/-! ## Rows of chunks -/

/-- A region: the address of the first chunk after the guard, and the chunks up to the other
guard. -/
structure Row where
  start : Nat
  chunks : List Chunk
  deriving DecidableEq

/-- A place in the rows from which some chunks are taken out. -/
structure Place where
  before : List Row
  start : Nat
  left : List Chunk
  right : List Chunk
  after : List Row

namespace Place

def node (f : Place) : Nat := f.start + total f.left

/-- The rows with the given chunks at the place. -/
def plug (f : Place) (window : List Chunk) : List Row :=
  f.before ++ ⟨f.start, f.left ++ window ++ f.right⟩ :: f.after

end Place

/-- The chunks of a row up to the one at address `n`, that chunk, and those behind it. -/
def cut (n : Nat) : Nat → List Chunk → Option (List Chunk × Chunk × List Chunk)
  | _, [] => none
  | a, c :: cs =>
    if a = n then some ([], c, cs)
    else (cut n (a + c.size) cs).map fun (left, d, right) => (c :: left, d, right)

def locate (n : Nat) : List Row → Option (Place × Chunk)
  | [] => none
  | r :: rs =>
    match cut n r.start r.chunks with
    | some (left, c, right) => some (⟨[], r.start, left, right, rs⟩, c)
    | none => (locate n rs).map fun (f, c) => ({ f with before := r :: f.before }, c)

/-- The heap: its regions, the free list, and the log of the sizes that `mm_addfreechunk` got, the
latest first. -/
structure ChunkHeap where
  rows : List Row
  nodelist : List Nat
  listed : List Nat

namespace ChunkHeap

/-- `node->size` -/
def sizeAt (h : ChunkHeap) (n : Nat) : Nat :=
  match locate n h.rows with
  | some (_, c) => c.size
  | none => 0

def setRows (h : ChunkHeap) (rows : List Row) : ChunkHeap := { h with rows := rows }

def unlink (h : ChunkHeap) (n : Nat) : ChunkHeap := { h with nodelist := h.nodelist.erase n }

/-- `mm_addfreechunk`: the node goes in front of the first one that is not smaller. -/
def addfreechunk (h : ChunkHeap) (n size : Nat) : ChunkHeap :=
  { h with
    nodelist := insertWhere (fun m => decide (h.sizeAt m < size)) n h.nodelist
    listed := size :: h.listed }

end ChunkHeap

/-! ## The functions -/

variable (k : Build)

/-- `mm_addregion` -/
def mmAddregion (h : ChunkHeap) (heapstart heapsize : Nat) : ChunkHeap :=
  let heapbase := k.alignUp heapstart
  let heapend := k.alignDown (heapstart + heapsize)
  let size := heapend - heapbase - 2 * k.allocnode
  let node := heapbase + k.allocnode
  (h.setRows (h.rows ++ [⟨node, [⟨size, false⟩]⟩])).addfreechunk node size

/-- `mm_initialize` -/
def mmInitialize (heapstart heapsize : Nat) : ChunkHeap :=
  mmAddregion k ⟨[], [], []⟩ heapstart heapsize

/-- `mm_malloc` takes a chunk from the free list and cuts its unneeded end off. -/
def takeChunk (h : ChunkHeap) (node alignsize : Nat) : ChunkHeap :=
  match locate node h.rows with
  | none => h
  | some (f, c) =>
    let remaining := c.size - alignsize
    if k.freenode ≤ remaining then
      ((h.unlink node).setRows (f.plug [⟨alignsize, true⟩, ⟨remaining, false⟩])).addfreechunk
        (node + alignsize) remaining
    else (h.unlink node).setRows (f.plug [⟨c.size, true⟩])

/-- `mm_malloc`: the heap afterwards and the pointer returned. -/
def mmMalloc (h : ChunkHeap) (size : Nat) : ChunkHeap × Nat :=
  if size < 1 then (h, 0)
  else
    let alignsize := k.alignUp (size + k.allocnode)
    match h.nodelist.find? fun n => decide (alignsize ≤ h.sizeAt n) with
    | some node => (takeChunk k h node alignsize, node + k.allocnode)
    | none => (h, 0)

/-- `mm_free` merges the chunk after the freed one into it if that chunk is free. Returns the place
and the size of the merged chunk too. -/
def mergeNext (h : ChunkHeap) (f : Place) (size : Nat) : ChunkHeap × Place × Nat :=
  match f.right with
  | d :: right =>
    if d.used then (h, f, size)
    else (h.unlink (f.node + size), { f with right := right }, size + d.size)
  | [] => (h, f, size)

/-- `mm_free` merges the freed chunk into the one in front of it if that chunk is free. -/
def mergePrev (h : ChunkHeap) (f : Place) (size : Nat) : ChunkHeap × Place × Nat :=
  match f.left.getLast? with
  | some d =>
    if d.used then (h, f, size)
    else (h.unlink (f.node - d.size), { f with left := f.left.dropLast }, d.size + size)
  | none => (h, f, size)

/-- `mm_free` -/
def mmFree (h : ChunkHeap) (mem : Nat) : ChunkHeap :=
  if mem = 0 then h
  else
    match locate (mem - k.allocnode) h.rows with
    | none => h
    | some (f, c) =>
      let (h, f, size) := mergeNext h f c.size
      let (h, f, size) := mergePrev h f size
      (h.setRows (f.plug [⟨size, false⟩])).addfreechunk f.node size

/-- `mm_shrinkchunk`, for the chunk `c` at the place `f` -/
def mmShrinkchunk (k : Build) (h : ChunkHeap) (f : Place) (c : Chunk) (size : Nat) : ChunkHeap :=
  match f.right with
  | d :: right =>
    if d.used = false then
      let newsize := d.size + c.size - size
      ((h.unlink (f.node + c.size)).setRows
        ({ f with right := right }.plug [⟨size, true⟩, ⟨newsize, false⟩])).addfreechunk
          (f.node + size) newsize
    else cutEnd
  | [] => cutEnd
where
  /-- The next chunk is allocated. -/
  cutEnd : ChunkHeap :=
    if size + k.freenode ≤ c.size then
      (h.setRows (f.plug [⟨size, true⟩, ⟨c.size - size, false⟩])).addfreechunk (f.node + size)
        (c.size - size)
    else h

/-- `mm_realloc` takes bytes from the chunk in front, and leaves the rest of it free. -/
def takePrev (h : ChunkHeap) (f : Place) (size prevsize takeprev : Nat) :
    ChunkHeap × Place × Nat :=
  let prev := f.node - prevsize
  let size := size + takeprev
  let h := h.unlink prev
  let left := f.left.dropLast
  if takeprev < prevsize then
    let f := { f with left := left ++ [⟨prevsize - takeprev, false⟩] }
    ((h.setRows (f.plug [⟨size, true⟩])).addfreechunk prev (prevsize - takeprev), f, size)
  else
    let f := { f with left := left }
    (h.setRows (f.plug [⟨size, true⟩]), f, size)

/-- `mm_realloc` takes bytes from the chunk behind, and leaves the rest of it free. -/
def takeNext (h : ChunkHeap) (f : Place) (size nextsize takenext : Nat) : ChunkHeap :=
  let next := f.node + size
  let size := size + takenext
  let h := h.unlink next
  let f := { f with right := f.right.tail }
  if takenext < nextsize then
    (h.setRows (f.plug [⟨size, true⟩, ⟨nextsize - takenext, false⟩])).addfreechunk
      (f.node + size) (nextsize - takenext)
  else h.setRows (f.plug [⟨size, true⟩])

/-- The size of a neighbour if it is free; a guard is not. -/
def freeSize : Option Chunk → Nat
  | some d => if d.used then 0 else d.size
  | none => 0

/-- The branch of `mm_realloc` in which the neighbours of the chunk are large enough. -/
def reallocInPlace (h : ChunkHeap) (f : Place) (c : Chunk) (newsize : Nat) :
    ChunkHeap × Nat :=
  let prevsize := freeSize f.left.getLast?
  let nextsize := freeSize f.right.head?
  let (takeprev, takenext) := reallocTakes prevsize nextsize (newsize - c.size)
  let (h, f, size) :=
    if takeprev ≠ 0 then takePrev h f c.size prevsize takeprev else (h, f, c.size)
  let h := if takenext ≠ 0 then takeNext h f size nextsize takenext else h
  (h, f.node + k.allocnode)

/-- `mm_realloc` -/
def mmRealloc (h : ChunkHeap) (oldmem size : Nat) : ChunkHeap × Nat :=
  if oldmem = 0 then mmMalloc k h size
  else if size < 1 then (mmFree k h oldmem, 0)
  else
    let newsize := k.alignUp (size + k.allocnode)
    match locate (oldmem - k.allocnode) h.rows with
    | none => (h, 0)
    | some (f, c) =>
      if newsize ≤ c.size then
        (if newsize < c.size then mmShrinkchunk k h f c newsize else h, oldmem)
      else if newsize ≤ freeSize f.right.head? + freeSize f.left.getLast? + c.size then
        reallocInPlace k h f c newsize
      else
        let (h, newmem) := mmMalloc k h size
        if newmem ≠ 0 then (mmFree k h oldmem, newmem) else (h, newmem)

/-- `mm_memalign` cuts the chunk `c` of the raw allocation so that its payload starts at
`alignedchunk`, and releases the front. The second alignment point is taken if the front is too
short for a free node. Returns the new chunk and its place. -/
def alignChunk (h : ChunkHeap) (f : Place) (c : Chunk) (alignedchunk alignment : Nat) :
    ChunkHeap × Place × Chunk × Nat :=
  let front := alignedchunk - k.allocnode - f.node
  let (alignedchunk, front) :=
    if front < k.freenode then
      (alignedchunk + alignment, alignedchunk + alignment - k.allocnode - f.node)
    else (alignedchunk, front)
  let new : Chunk := ⟨c.size - front, true⟩
  ((h.setRows (f.plug [⟨front, false⟩, new])).addfreechunk f.node front,
    { f with left := f.left ++ [⟨front, false⟩] }, new, alignedchunk)

/-- `mm_memalign` -/
def mmMemalign (h : ChunkHeap) (alignment size : Nat) : ChunkHeap × Nat :=
  if alignment ≤ k.minChunk then mmMalloc k h size
  else
    let size := k.alignUp size
    let allocsize := size + 2 * alignment
    let (h, rawchunk) := mmMalloc k h allocsize
    if rawchunk = 0 then (h, 0)
    else
      match locate (rawchunk - k.allocnode) h.rows with
      | none => (h, 0)
      | some (f, c) =>
        let alignedchunk := (rawchunk + (alignment - 1)) / alignment * alignment
        let newsize := k.alignUp (size + k.allocnode)
        if alignedchunk ≠ rawchunk then
          let (h, f, new, alignedchunk) := alignChunk k h f c alignedchunk alignment
          (if newsize < new.size - k.allocnode then mmShrinkchunk k h f new newsize else h,
            alignedchunk)
        else
          (if newsize < allocsize then mmShrinkchunk k h f c newsize else h, alignedchunk)

/-! ## Sizes -/

variable {a : Nat}

namespace Build

variable (k : Build)

theorem freenode_le_minChunk : k.freenode ≤ k.minChunk := by
  cases k <;> decide

theorem minChunk_pos : 0 < k.minChunk := Nat.two_pow_pos _

theorem le_alignUp (a : Nat) : a ≤ k.alignUp a := (round_up a k.minChunk_pos).1

theorem dvd_alignUp (a : Nat) : k.minChunk ∣ k.alignUp a := dvd_mul_left _ _

/-- A chunk for a request is long enough to be freed again. -/
theorem freenode_le_alignUp (ha : 0 < a) : k.freenode ≤ k.alignUp a := by
  have hpos : 0 < k.alignUp a := lt_of_lt_of_le ha (k.le_alignUp a)
  exact k.freenode_le_minChunk.trans (Nat.le_of_dvd hpos (k.dvd_alignUp a))

/-- The layouts in which the guards of a region together are a multiple of the smallest chunk. -/
def Exact : Prop := k.minChunk ∣ 2 * k.allocnode

instance : Decidable k.Exact := inferInstanceAs (Decidable (k.minChunk ∣ 2 * k.allocnode))

end Build

variable {size b : Nat} {window right : List Chunk}

section Sizes

variable {k : Build} {f : Place} {c d : Chunk} {n : Nat} {h : ChunkHeap}

/-- The size of a chunk that can be a free node. In an exact layout it is a multiple of the smallest
chunk. -/
def SizeOk (k : Build) (size : Nat) : Prop :=
  k.freenode ≤ size ∧ (k.Exact → k.minChunk ∣ size)

/-- The chunks of a row are long enough, and in an exact layout they start where payloads are
aligned. -/
structure RowOk (k : Build) (r : Row) : Prop where
  chunks : ∀ c ∈ r.chunks, SizeOk k c.size
  start : k.Exact → k.minChunk ∣ r.start + k.allocnode

/-- All that was listed is long enough, and so are all chunks. -/
structure SizesOk (k : Build) (h : ChunkHeap) : Prop where
  rows : ∀ r ∈ h.rows, RowOk k r
  listed : ∀ n ∈ h.listed, k.freenode ≤ n

/-- The chunks around a place. -/
structure Place.Outer (k : Build) (f : Place) : Prop where
  before : ∀ r ∈ f.before, RowOk k r
  after : ∀ r ∈ f.after, RowOk k r
  left : ∀ c ∈ f.left, SizeOk k c.size
  right : ∀ c ∈ f.right, SizeOk k c.size
  start : k.Exact → k.minChunk ∣ f.start + k.allocnode

theorem rowsOk_plug :
    (∀ r ∈ f.plug window, RowOk k r) ↔ f.Outer k ∧ ∀ c ∈ window, SizeOk k c.size := by
  constructor
  · intro hok
    have hrow := hok ⟨f.start, f.left ++ window ++ f.right⟩ (by simp [Place.plug])
    refine ⟨⟨fun r hr => hok r (by simp [Place.plug, hr]),
      fun r hr => hok r (by simp [Place.plug, hr]),
      fun c hc => hrow.chunks c (by simp [hc]), fun c hc => hrow.chunks c (by simp [hc]),
      hrow.start⟩, fun c hc => hrow.chunks c (by simp [hc])⟩
  · rintro ⟨hout, hwin⟩ r hr
    simp only [Place.plug, mem_append, mem_cons] at hr
    rcases hr with hr | rfl | hr
    · exact hout.before r hr
    · refine ⟨fun c hc => ?_, hout.start⟩
      simp only [mem_append] at hc
      rcases hc with (hc | hc) | hc
      · exact hout.left c hc
      · exact hwin c hc
      · exact hout.right c hc
    · exact hout.after r hr

/-- What is found at an address is there, and what is put in its place is found there. -/
theorem cut_spec : ∀ (cs : List Chunk) {a : Nat} {left right : List Chunk} {c : Chunk},
    cut n a cs = some (left, c, right) → (cs = left ++ [c] ++ right ∧ a + total left = n) ∧
      ∀ d rest, cut n a (left ++ d :: rest) = some (left, d, rest)
  | [], _, _, _, _, hcut => nomatch hcut
  | e :: cs, a, left, right, c, hcut => by
    unfold cut at hcut
    split at hcut <;> rename_i ha
    · obtain ⟨rfl, rfl, rfl⟩ : left = [] ∧ c = e ∧ right = cs := by simpa [eq_comm] using hcut
      exact ⟨by simpa using ha, fun d rest => by simp [cut, ha]⟩
    · obtain ⟨⟨left', c', right'⟩, htail, heq⟩ := Option.map_eq_some_iff.mp hcut
      obtain ⟨rfl, rfl, rfl⟩ : left = e :: left' ∧ c = c' ∧ right = right' := by
        simpa [eq_comm] using heq
      obtain ⟨⟨hcs, hn⟩, hput⟩ := cut_spec cs htail
      refine ⟨⟨by simp [hcs], ?_⟩, fun d rest => by simp [cut, ha, hput]⟩
      rw [total_cons, ← hn]
      omega

theorem locate_spec : ∀ (rows : List Row) {f : Place} {c : Chunk},
    locate n rows = some (f, c) → (rows = f.plug [c] ∧ f.node = n) ∧ ∀ d rest,
      locate n (f.plug (d :: rest)) = some ({ f with right := rest ++ f.right }, d)
  | [], _, _, hloc => nomatch hloc
  | r :: rows, f, c, hloc => by
    unfold locate at hloc
    split at hloc
    · rename_i left e right hcut
      obtain ⟨⟨hrow, hn⟩, hput⟩ := cut_spec _ hcut
      obtain ⟨rfl, rfl⟩ := Prod.mk.inj (Option.some.inj hloc)
      exact ⟨⟨by simp [Place.plug, ← hrow], hn⟩, fun d rest => by simp [Place.plug, locate, hput]⟩
    · rename_i hnone
      obtain ⟨⟨f', c'⟩, htail, heq⟩ := Option.map_eq_some_iff.mp hloc
      obtain ⟨rfl, rfl⟩ := Prod.mk.inj heq
      obtain ⟨⟨hrows, hn⟩, hput⟩ := locate_spec rows htail
      refine ⟨⟨by simp [Place.plug, hrows], hn⟩, fun d rest => ?_⟩
      have hrest := hput d rest
      simp only [Place.plug, cons_append, locate, hnone] at hrest ⊢
      rw [hrest]
      rfl

section

variable (h' : SizesOk k h)
include h'

theorem SizesOk.locate (hloc : locate n h.rows = some (f, c)) : f.Outer k ∧ SizeOk k c.size := by
  have hrows := h'.rows
  rw [(locate_spec _ hloc).1.1, rowsOk_plug] at hrows
  exact ⟨hrows.1, hrows.2 c (by simp)⟩

/-- The window is replaced by chunks that are long enough. -/
theorem SizesOk.edit (hout : f.Outer k) (hwin : ∀ c ∈ window, SizeOk k c.size) :
    SizesOk k (h.setRows (f.plug window)) :=
  ⟨rowsOk_plug.mpr ⟨hout, hwin⟩, h'.listed⟩

theorem SizesOk.editOne (hout : f.Outer k) (hsize : SizeOk k size) (u : Bool) :
    SizesOk k (h.setRows (f.plug [⟨size, u⟩])) :=
  h'.edit hout fun _ hc => mem_singleton.mp hc ▸ hsize

theorem SizesOk.editTwo (hout : f.Outer k) (ha : SizeOk k a) (hb : SizeOk k b) (u v : Bool) :
    SizesOk k (h.setRows (f.plug [⟨a, u⟩, ⟨b, v⟩])) := by
  refine h'.edit hout fun c hc => ?_
  simp only [mem_cons, not_mem_nil, or_false] at hc
  rcases hc with rfl | rfl
  · exact ha
  · exact hb

theorem SizesOk.unlink (n : Nat) : SizesOk k (h.unlink n) :=
  ⟨h'.rows, h'.listed⟩

theorem SizesOk.addfreechunk (n : Nat) (hsize : k.freenode ≤ size) :
    SizesOk k (h.addfreechunk n size) := by
  refine ⟨h'.rows, fun m hm => ?_⟩
  rcases mem_cons.mp hm with rfl | hm
  · exact hsize
  · exact h'.listed m hm

end

theorem Place.Outer.next (hout : f.Outer k) (hr : f.right = d :: right) :
    SizeOk k d.size ∧ Place.Outer k { f with right := right } :=
  ⟨hout.right d (by simp [hr]), { hout with right := fun c hc => hout.right c (by simp [hr, hc]) }⟩

theorem Place.Outer.prev (hout : f.Outer k) (hl : f.left.getLast? = some d) :
    SizeOk k d.size ∧ Place.Outer k { f with left := f.left.dropLast } :=
  ⟨hout.left d (mem_of_getLast? hl), { hout with left := fun c hc => hout.left c (dropLast_subset _
    hc) }⟩

/-- A free chunk is put in front of the place. -/
theorem Place.Outer.snoc (hout : f.Outer k) {b : Bool} (hsize : SizeOk k size) :
    Place.Outer k { f with left := f.left ++ [⟨size, b⟩] } := by
  refine { hout with left := fun c hc => ?_ }
  rcases mem_append.mp hc with hc | hc
  · exact hout.left c hc
  · rw [mem_singleton.mp hc]
    exact hsize

/-- A chunk that grows by bytes that are taken from its neighbours. -/
theorem SizeOk.grow (ha : SizeOk k a) (hb : k.Exact → k.minChunk ∣ b) : SizeOk k (a + b) :=
  ⟨Nat.le_add_right_of_le ha.1, fun hex => dvd_add (ha.2 hex) (hb hex)⟩

end Sizes

/-! ## The functions keep the sizes -/

variable {newsize n alignment : Nat}

section Functions

variable {k : Build} {f : Place} {c d : Chunk} {h : ChunkHeap}

theorem SizeOk.alignUp (ha : 0 < a) : SizeOk k (k.alignUp a) :=
  ⟨k.freenode_le_alignUp ha, fun _ => k.dvd_alignUp a⟩

/-- The rest of a chunk from which a chunk of a good size was cut. -/
theorem SizeOk.rest (ha : SizeOk k a) (hb : k.Exact → k.minChunk ∣ b) (hrest : k.freenode ≤ a - b) :
    SizeOk k (a - b) :=
  ⟨hrest, fun hex => Nat.dvd_sub (ha.2 hex) (hb hex)⟩

section

variable (h' : SizesOk k h)
include h'

theorem SizesOk.takeChunk {node alignsize : Nat}
    (hsize : SizeOk k alignsize) : SizesOk k (takeChunk k h node alignsize) := by
  unfold Rows.takeChunk
  split
  · exact h'
  · rename_i f c hloc
    obtain ⟨hout, hc⟩ := h'.locate hloc
    dsimp only
    split
    · rename_i hrest
      exact ((h'.unlink node).editTwo hout hsize (hc.rest hsize.2 hrest) _ _).addfreechunk _ hrest
    · exact (h'.unlink node).editOne hout hc _

theorem SizesOk.mmMalloc (size : Nat) : SizesOk k (mmMalloc k h size).1 := by
  unfold Rows.mmMalloc
  split
  · exact h'
  · rename_i hpos
    dsimp only
    split
    · exact h'.takeChunk (.alignUp (by omega))
    · exact h'

theorem SizesOk.mergeNext (hout : f.Outer k) (size : Nat) (hsize : SizeOk k size) :
    SizesOk k (mergeNext h f size).1 ∧ (mergeNext h f size).2.1.Outer k ∧
      SizeOk k ((mergeNext h f size).2.2) := by
  unfold Rows.mergeNext
  split
  · rename_i d right hr
    split
    · exact ⟨h', hout, hsize⟩
    · obtain ⟨hd, hout'⟩ := hout.next hr
      exact ⟨h'.unlink _, hout', hsize.grow hd.2⟩
  · exact ⟨h', hout, hsize⟩

theorem SizesOk.mergePrev (hout : f.Outer k) (hsize : SizeOk k size) :
    SizesOk k (mergePrev h f size).1 ∧ (mergePrev h f size).2.1.Outer k ∧
      SizeOk k ((mergePrev h f size).2.2) := by
  unfold Rows.mergePrev
  split
  · rename_i d hl
    split
    · exact ⟨h', hout, hsize⟩
    · obtain ⟨hd, hout'⟩ := hout.prev hl
      exact ⟨h'.unlink _, hout', hd.grow hsize.2⟩
  · exact ⟨h', hout, hsize⟩

theorem SizesOk.mmFree (mem : Nat) : SizesOk k (mmFree k h mem) := by
  unfold Rows.mmFree
  split
  · exact h'
  · split
    · exact h'
    · rename_i f c hloc
      obtain ⟨hout, hc⟩ := h'.locate hloc
      obtain ⟨h₁, hout₁, hc₁⟩ := h'.mergeNext hout c.size hc
      obtain ⟨h₂, hout₂, hc₂⟩ := h₁.mergePrev hout₁ hc₁
      exact (h₂.editOne hout₂ hc₂ false).addfreechunk _ hc₂.1

/-- The chunk keeps a good size, and what it gives back is long enough. -/
theorem SizesOk.mmShrinkchunk (hout : f.Outer k) (hc : SizeOk k c.size) (hsize : SizeOk k size)
    (hle : size ≤ c.size) : SizesOk k (mmShrinkchunk k h f c size) := by
  have hcut : SizesOk k (mmShrinkchunk.cutEnd k h f c size) := by
    unfold mmShrinkchunk.cutEnd
    split
    · rename_i hrest
      have hrest' : k.freenode ≤ c.size - size := by omega
      exact (h'.editTwo hout hsize (hc.rest hsize.2 hrest') _ _).addfreechunk _ hrest'
    · exact h'
  unfold Rows.mmShrinkchunk
  split
  · rename_i d right hr
    obtain ⟨hd, hout'⟩ := hout.next hr
    split
    · have hnew : k.freenode ≤ d.size + c.size - size := by
        have := hd.1
        omega
      exact ((h'.unlink _).editTwo hout' hsize
        ((hd.grow hc.2).rest hsize.2 hnew) _ _).addfreechunk _
        hnew
    · exact hcut
  · exact hcut

end

/-- What `mm_realloc` leaves of a neighbour is nothing or long enough for a free node. -/
def Leaves (k : Build) (avail take : Nat) : Prop :=
    take < avail → take ≠ 0 → take + k.freenode ≤ avail

instance (k : Build) (avail take : Nat) : Decidable (Leaves k avail take) :=
  inferInstanceAs (Decidable (take < avail → take ≠ 0 → take + k.freenode ≤ avail))

theorem SizesOk.takePrev (h' : SizesOk k h) (hout : f.Outer k) {takeprev : Nat}
    (hd : f.left.getLast? = some d) (hsize : SizeOk k (size + takeprev)) (hpos : takeprev ≠ 0)
    (hleaves : Leaves k d.size takeprev) (hdvd : k.Exact → k.minChunk ∣ takeprev) :
    SizesOk k (takePrev h f size d.size takeprev).1 ∧
      (takePrev h f size d.size takeprev).2.1.Outer k := by
  obtain ⟨hdok, hout'⟩ := hout.prev hd
  unfold Rows.takePrev
  split
  · rename_i hlt
    have hrest : k.freenode ≤ d.size - takeprev := by
      have := hleaves hlt hpos
      omega
    have hout'' := hout'.snoc (b := false) (hdok.rest hdvd hrest)
    exact ⟨((h'.unlink _).editOne hout'' hsize _).addfreechunk _ hrest, hout''⟩
  · exact ⟨(h'.unlink _).editOne hout' hsize _, hout'⟩

theorem SizesOk.takeNext (h' : SizesOk k h) (hout : f.Outer k) {takenext : Nat}
    (hr : f.right = d :: right) (hsize : SizeOk k (size + takenext)) (hpos : takenext ≠ 0)
    (hleaves : Leaves k d.size takenext) (hdvd : k.Exact → k.minChunk ∣ takenext) :
    SizesOk k (takeNext h f size d.size takenext) := by
  obtain ⟨hd, hout'⟩ := hout.next hr
  unfold Rows.takeNext
  rw [hr, tail_cons]
  split
  · rename_i hlt
    have hrest : k.freenode ≤ d.size - takenext := by
      have := hleaves hlt hpos
      omega
    exact ((h'.unlink _).editTwo hout' hsize (hd.rest hdvd hrest) _ _).addfreechunk _ hrest
  · exact (h'.unlink _).editOne hout' hsize _

/-- What `mm_realloc` leaves of both neighbours of a chunk that grows in place. -/
def LeavesBoth (k : Build) (f : Place) (c : Chunk) (newsize : Nat) : Prop :=
  let takes := reallocTakes (freeSize f.left.getLast?) (freeSize f.right.head?) (newsize - c.size)
  Leaves k (freeSize f.left.getLast?) takes.1 ∧ Leaves k (freeSize f.right.head?) takes.2

instance (k : Build) (f : Place) (c : Chunk) (newsize : Nat) :
    Decidable (LeavesBoth k f c newsize) := by
  unfold LeavesBoth
  infer_instance

theorem freeSize_pos {o : Option Chunk} (ho : 0 < freeSize o) :
    ∃ d, o = some d ∧ freeSize o = d.size := by
  cases o with
  | none => exact absurd ho (by simp [freeSize])
  | some d =>
    refine ⟨d, rfl, ?_⟩
    by_cases hu : d.used = true
    · simp [freeSize, hu] at ho
    · simp [freeSize, hu]

theorem dvd_freeSize {o : Option Chunk} (hex : k.Exact) (ho : ∀ d, o = some d → SizeOk k d.size) :
    k.minChunk ∣ freeSize o := by
  by_cases hpos : 0 < freeSize o
  · obtain ⟨d, hd, hsize⟩ := freeSize_pos hpos
    rw [hsize]
    exact (ho d hd).2 hex
  · rw [Nat.eq_zero_of_not_pos hpos]
    exact dvd_zero _

theorem Place.Outer.dvd_freeSizes (hout : f.Outer k) (hex : k.Exact) :
    k.minChunk ∣ freeSize f.left.getLast? ∧ k.minChunk ∣ freeSize f.right.head? :=
  ⟨dvd_freeSize hex fun _ hd => (hout.prev hd).1,
    dvd_freeSize hex fun d hd => hout.right d (mem_of_head? hd)⟩

/-- In an exact layout the rest of a neighbour is a multiple of the smallest chunk. -/
theorem leaves_of_dvd {avail take : Nat} (ha : k.minChunk ∣ avail) (ht : k.minChunk ∣ take) :
    Leaves k avail take := by
  intro hlt _
  have hpos : 0 < avail - take := by omega
  have hle := Nat.le_of_dvd hpos (Nat.dvd_sub ha ht)
  have := k.freenode_le_minChunk
  omega

theorem leavesBoth_of_exact (hex : k.Exact) (hout : f.Outer k) (hc : SizeOk k c.size)
    (hnew : k.minChunk ∣ newsize) : LeavesBoth k f c newsize := by
  obtain ⟨hprev, hnext⟩ := hout.dvd_freeSizes hex
  obtain ⟨h1, h2⟩ := reallocTakes_dvd hprev hnext (Nat.dvd_sub hnew (hc.2 hex))
  exact ⟨leaves_of_dvd hprev h1, leaves_of_dvd hnext h2⟩

theorem right_takePrev {prevsize takeprev : Nat} :
    (takePrev h f size prevsize takeprev).2.1.right = f.right ∧
      (takePrev h f size prevsize takeprev).2.2 = size + takeprev := by
  unfold takePrev
  split <;> exact ⟨rfl, rfl⟩

theorem SizesOk.reallocInPlace (h' : SizesOk k h) (hout : f.Outer k) (hc : SizeOk k c.size)
    (hnew : k.minChunk ∣ newsize)
    (hfit : newsize ≤ freeSize f.right.head? + freeSize f.left.getLast? + c.size)
    (hleaves : LeavesBoth k f c newsize) : SizesOk k (reallocInPlace k h f c newsize).1 := by
  have hneeded : newsize - c.size ≤ freeSize f.left.getLast? + freeSize f.right.head? := by omega
  obtain ⟨hle1, hle2⟩ := reallocTakes_le hneeded
  have hdvd : k.Exact →
      k.minChunk ∣ (reallocTakes (freeSize f.left.getLast?) (freeSize f.right.head?)
        (newsize - c.size)).1 ∧
      k.minChunk ∣ (reallocTakes (freeSize f.left.getLast?) (freeSize f.right.head?)
        (newsize - c.size)).2 := fun hex =>
    have hfree := hout.dvd_freeSizes hex
    reallocTakes_dvd hfree.1 hfree.2 (Nat.dvd_sub hnew (hc.2 hex))
  obtain ⟨hleft, hright⟩ := hleaves
  unfold Rows.reallocInPlace
  dsimp only at hleft hright ⊢
  generalize reallocTakes (freeSize f.left.getLast?) (freeSize f.right.head?)
    (newsize - c.size) = takes at hle1 hle2 hdvd hleft hright ⊢
  obtain ⟨takeprev, takenext⟩ := takes
  -- the heap after the first half, with the place of the chunk and its size
  have hfirst : ∀ r, r = (if takeprev ≠ 0 then
      Rows.takePrev h f c.size (freeSize f.left.getLast?) takeprev else (h, f, c.size)) →
      SizesOk k r.1 ∧ r.2.1.Outer k ∧ r.2.1.right = f.right ∧ SizeOk k r.2.2 := by
    rintro r rfl
    split
    · rename_i hpos
      obtain ⟨d, hd, hsize⟩ := freeSize_pos (lt_of_lt_of_le (pos_of_ne_zero hpos) hle1)
      have hgrow := hc.grow fun hex => (hdvd hex).1
      rw [hsize] at hleft ⊢
      obtain ⟨h₁, hout₁⟩ := h'.takePrev hout hd hgrow hpos hleft fun hex => (hdvd hex).1
      refine ⟨h₁, hout₁, right_takePrev.1, ?_⟩
      rw [right_takePrev.2]
      exact hgrow
    · exact ⟨h', hout, rfl, hc⟩
  obtain ⟨h₁, hout₁, hr₁, hsize₁⟩ := hfirst _ rfl
  split
  · rename_i hpos
    obtain ⟨d, hd, hsize⟩ := freeSize_pos (lt_of_lt_of_le (pos_of_ne_zero hpos) hle2)
    obtain ⟨right, hr⟩ := head?_eq_some_iff.mp hd
    rw [hsize] at hright ⊢
    exact h₁.takeNext hout₁ (hr₁.trans hr) (hsize₁.grow fun hex => (hdvd hex).2) hpos hright
      fun hex => (hdvd hex).2
  · exact h₁

theorem mmMalloc_found (hne : (mmMalloc k h size).2 ≠ 0) :
    ∃ f c, locate ((mmMalloc k h size).2 - k.allocnode) (mmMalloc k h size).1.rows = some (f, c) ∧
      (mmMalloc k h size).2 = f.node + k.allocnode ∧ k.alignUp (size + k.allocnode) ≤ c.size := by
  unfold Rows.mmMalloc at hne ⊢
  split at hne
  · exact absurd rfl hne
  · rename_i hpos
    rw [if_neg hpos]
    dsimp only at hne ⊢
    cases hfind : h.nodelist.find? fun n =>
      decide (k.alignUp (size + k.allocnode) ≤ h.sizeAt n) with
    | none =>
      rw [hfind] at hne
      exact absurd rfl hne
    | some node =>
      have hle : k.alignUp (size + k.allocnode) ≤ h.sizeAt node := by
        simpa using find?_some hfind
      have hbig : 0 < k.alignUp (size + k.allocnode) :=
        lt_of_lt_of_le (by omega) (k.le_alignUp _)
      simp only [Nat.add_sub_cancel, takeChunk]
      unfold ChunkHeap.sizeAt at hle
      cases hloc : locate node h.rows with
      | none =>
        rw [hloc] at hle
        exact absurd hle (by simp only; omega)
      | some found =>
        obtain ⟨f, c⟩ := found
        rw [hloc] at hle
        have hnode : node + k.allocnode = f.node + k.allocnode := by rw [(locate_spec _ hloc).1.2]
        dsimp only at hle ⊢
        split
        · exact ⟨_, _, (locate_spec _ hloc).2 _ _, hnode, le_rfl⟩
        · exact ⟨_, _, (locate_spec _ hloc).2 _ _, hnode, hle⟩

/-- The front that `mm_memalign` releases is long enough, and so is the rest of the chunk. -/
theorem SizesOk.alignChunk (h' : SizesOk k h) (hout : f.Outer k) (hc : SizeOk k c.size)
    {alignedchunk : Nat} (hal : 2 * k.minChunk ≤ alignment) (hdvd : k.minChunk ∣ alignment)
    (haligned : alignment ∣ alignedchunk) (hgt : f.node + k.allocnode < alignedchunk)
    (hlt : alignedchunk < f.node + k.allocnode + alignment) (hroom : 2 * alignment ≤ c.size) :
    SizesOk k (alignChunk k h f c alignedchunk alignment).1 ∧
      (alignChunk k h f c alignedchunk alignment).2.1.Outer k ∧
      SizeOk k (alignChunk k h f c alignedchunk alignment).2.2.1.size := by
  have hfree := k.freenode_le_minChunk
  -- in an exact layout both alignment points are a whole number of smallest chunks away
  have hexact : k.Exact → k.minChunk ∣ alignedchunk - k.allocnode - f.node := by
    intro hex
    have hnode : k.minChunk ∣ f.node + k.allocnode := by
      have htotal : k.minChunk ∣ total f.left := by
        have hleft := hout.left
        generalize f.left = cs at hleft
        induction cs with
        | nil => exact dvd_zero _
        | cons d cs ih =>
          exact dvd_add ((hleft d (by simp)).2 hex) (ih (forall_mem_cons.1 hleft).2)
      have hsum := dvd_add (hout.start hex) htotal
      have heq : f.node + k.allocnode = f.start + k.allocnode + total f.left := by
        unfold Place.node
        omega
      rwa [heq]
    have hsub : alignedchunk - k.allocnode - f.node = alignedchunk - (f.node + k.allocnode) := by
      omega
    rw [hsub]
    exact Nat.dvd_sub (hdvd.trans haligned) hnode
  -- the heap after a front of either length was cut off
  have hcut : ∀ front, SizeOk k front → k.freenode ≤ c.size - front →
      SizesOk k ((h.setRows (f.plug [⟨front, false⟩, ⟨c.size - front, true⟩])).addfreechunk
        f.node front) ∧ Place.Outer k { f with left := f.left ++ [⟨front, false⟩] } ∧
        SizeOk k (c.size - front) := by
    intro front hfront hrest
    have hnew := hc.rest hfront.2 hrest
    exact ⟨(h'.editTwo hout hfront hnew _ _).addfreechunk _ hfront.1, hout.snoc hfront, hnew⟩
  unfold Rows.alignChunk
  by_cases hshort : alignedchunk - k.allocnode - f.node < k.freenode
  · simp only [if_pos hshort]
    refine hcut _ ⟨by omega, fun hex => ?_⟩ (by omega)
    have hshift : alignedchunk + alignment - k.allocnode - f.node =
        alignedchunk - k.allocnode - f.node + alignment := by omega
    rw [hshift]
    exact dvd_add (hexact hex) hdvd
  · simp only [if_neg hshort]
    exact hcut _ ⟨by omega, hexact⟩ (by omega)

/-- An alignment beyond the smallest chunk is a multiple of it. -/
theorem minChunk_dvd_of_lt {j : Nat} (hgt : k.minChunk < 2 ^ j) :
    k.minChunk ∣ 2 ^ j ∧ 2 * k.minChunk ≤ 2 ^ j := by
  have hlt : k.minShift < j := (Nat.pow_lt_pow_iff_right (by decide)).mp hgt
  refine ⟨Nat.pow_dvd_pow 2 hlt.le, ?_⟩
  have hpow := Nat.pow_le_pow_right (show 0 < 2 by decide) (show k.minShift + 1 ≤ j from hlt)
  unfold Build.minChunk
  omega

theorem SizesOk.mmMemalign (h' : SizesOk k h) (hpow : ∃ j, alignment = 2 ^ j) (size : Nat) :
    SizesOk k (mmMemalign k h alignment size).1 := by
  unfold Rows.mmMemalign
  split
  · exact h'.mmMalloc size
  · rename_i hgt
    dsimp only
    have hok := h'.mmMalloc (k.alignUp size + 2 * alignment)
    split
    · exact hok
    · rename_i hne
      obtain ⟨f, c, hloc, hraw, hsize⟩ := mmMalloc_found hne
      obtain ⟨hout, hc⟩ := hok.locate hloc
      rw [hloc]
      dsimp only
      have hroom := (k.le_alignUp (k.alignUp size + 2 * alignment + k.allocnode)).trans hsize
      have hnew : SizeOk k (k.alignUp (k.alignUp size + k.allocnode)) := by
        refine .alignUp ?_
        cases k <;> simp [Build.allocnode]
      obtain ⟨j, rfl⟩ := hpow
      obtain ⟨hdvd, hal⟩ := minChunk_dvd_of_lt (not_le.mp hgt)
      obtain ⟨hge, hlt⟩ := round_up (Rows.mmMalloc k h (k.alignUp size + 2 * 2 ^ j)).2
        (Nat.two_pow_pos j)
      have haligned := dvd_mul_left (2 ^ j)
        (((Rows.mmMalloc k h (k.alignUp size + 2 * 2 ^ j)).2 + (2 ^ j - 1)) / 2 ^ j)
      split
      · rename_i hmoved
        obtain ⟨h₁, hout₁, hc₁⟩ := hok.alignChunk hout hc hal hdvd haligned (by omega) (by omega)
          (by omega)
        split
        · rename_i hshort
          exact h₁.mmShrinkchunk hout₁ hc₁ hnew (hshort.le.trans (Nat.sub_le _ _))
        · exact h₁
      · split
        · exact hok.mmShrinkchunk hout hc hnew (by omega)
        · exact hok

/-- In an exact layout `mm_realloc` always leaves enough; otherwise it has to be assumed. -/
theorem SizesOk.mmRealloc (h' : SizesOk k h) {oldmem : Nat}
    (hleaves : ¬ k.Exact → ∀ f c, Rows.locate (oldmem - k.allocnode) h.rows = some (f, c) →
      c.size < k.alignUp (size + k.allocnode) →
      LeavesBoth k f c (k.alignUp (size + k.allocnode))) :
    SizesOk k (mmRealloc k h oldmem size).1 := by
  unfold Rows.mmRealloc
  split
  · exact h'.mmMalloc size
  · split
    · exact h'.mmFree oldmem
    · rename_i hpos
      dsimp only
      split
      · exact h'
      · rename_i f c hloc
        obtain ⟨hout, hc⟩ := h'.locate hloc
        have hnew : SizeOk k (k.alignUp (size + k.allocnode)) := .alignUp (by omega)
        split
        · split
          · rename_i hlt
            exact h'.mmShrinkchunk hout hc hnew hlt.le
          · exact h'
        · rename_i hgrow
          split
          · rename_i hfit
            refine h'.reallocInPlace hout hc (k.dvd_alignUp _) hfit ?_
            by_cases hex : k.Exact
            · exact leavesBoth_of_exact hex hout hc (k.dvd_alignUp _)
            · exact hleaves hex f c hloc (not_le.mp hgrow)
          · have hm := h'.mmMalloc size
            split
            · exact hm.mmFree oldmem
            · exact hm

theorem SizesOk.mmAddregion (h' : SizesOk k h) {heapstart heapsize : Nat}
    (hroom : k.alignUp heapstart + 2 * k.allocnode + k.freenode ≤
      k.alignDown (heapstart + heapsize)) :
    SizesOk k (mmAddregion k h heapstart heapsize) := by
  have hsize : SizeOk k (k.alignDown (heapstart + heapsize) - k.alignUp heapstart
      - 2 * k.allocnode) := by
    refine ⟨by omega, fun hex => ?_⟩
    have hends : k.minChunk ∣ k.alignDown (heapstart + heapsize) - k.alignUp heapstart :=
      Nat.dvd_sub (dvd_mul_left _ _) (k.dvd_alignUp _)
    exact Nat.dvd_sub hends hex
  have hrows : SizesOk k (h.setRows (h.rows ++ [⟨k.alignUp heapstart + k.allocnode,
      [⟨k.alignDown (heapstart + heapsize) - k.alignUp heapstart - 2 * k.allocnode,
        false⟩]⟩])) := by
    refine ⟨fun r hr => ?_, h'.listed⟩
    rcases mem_append.mp hr with hr | hr
    · exact h'.rows r hr
    · rw [mem_singleton.mp hr]
      refine ⟨fun c hc => ?_, fun hex => ?_⟩
      · rw [mem_singleton.mp hc]
        exact hsize
      · have hsum := dvd_add (k.dvd_alignUp heapstart) hex
        rwa [two_mul, ← add_assoc] at hsum
  exact hrows.addfreechunk _ hsize.1

end Functions

/-! ## Runs -/

/-- The calls of the heap manager. -/
inductive Call
  | malloc (size : Nat)
  | free (mem : Nat)
  | realloc (oldmem size : Nat)
  | memalign (alignment size : Nat)
  | addregion (heapstart heapsize : Nat)
  deriving DecidableEq

variable (k : Build)

def Call.perform (h : ChunkHeap) : Call → ChunkHeap
  | .malloc size => (mmMalloc k h size).1
  | .free mem => mmFree k h mem
  | .realloc oldmem size => (mmRealloc k h oldmem size).1
  | .memalign alignment size => (mmMemalign k h alignment size).1
  | .addregion heapstart heapsize => mmAddregion k h heapstart heapsize

/-- A pointer is null or that of an allocated chunk. -/
def Valid (h : ChunkHeap) (mem : Nat) : Prop :=
  mem = 0 ∨ ((locate (mem - k.allocnode) h.rows).map fun found => found.2.used) = some true

instance (k : Build) (h : ChunkHeap) (mem : Nat) : Decidable (Valid k h mem) :=
  inferInstanceAs (Decidable (_ ∨ _))

/-- A region has room for its guards and a free node, and its sizes fit below `MM_ALLOC_BIT`. -/
def RegionFits (heapstart heapsize : Nat) : Prop :=
  k.alignUp heapstart + 2 * k.allocnode + k.freenode ≤ k.alignDown (heapstart + heapsize) ∧
    heapsize < k.allocBit ∧ heapstart + heapsize < k.sizeLimit

instance (k : Build) (heapstart heapsize : Nat) : Decidable (RegionFits k heapstart heapsize) :=
  inferInstanceAs (Decidable (_ ∧ _))

/-- The calls that a program may make: its pointers are those of allocated chunks, alignments are
powers of two, and the sums that are computed from a size fit into a `size_t`. -/
def Enabled (h : ChunkHeap) : Call → Prop
  | .malloc size => size + k.allocnode + k.minChunk ≤ k.sizeLimit
  | .free mem => Valid k h mem
  | .realloc oldmem size => Valid k h oldmem ∧ size + k.allocnode + k.minChunk ≤ k.sizeLimit
  | .memalign alignment size =>
    (∃ j, j < 64 ∧ alignment = 2 ^ j) ∧
      size + 2 * alignment + k.allocnode + 2 * k.minChunk ≤ k.sizeLimit
  | .addregion heapstart heapsize => RegionFits k heapstart heapsize

/-- `mm_realloc` leaves nothing of a free neighbour, or enough for a free node. -/
def Orderly (h : ChunkHeap) : Call → Prop
  | .realloc oldmem size =>
    ∀ found ∈ locate (oldmem - k.allocnode) h.rows,
      found.2.size < k.alignUp (size + k.allocnode) →
        LeavesBoth k found.1 found.2 (k.alignUp (size + k.allocnode))
  | _ => True

instance (k : Build) (h : ChunkHeap) (a : Call) : Decidable (Enabled k h a) := by
  cases a <;> unfold Enabled <;> infer_instance

instance (k : Build) (h : ChunkHeap) (a : Call) : Decidable (Orderly k h a) := by
  cases a <;> unfold Orderly <;> infer_instance

/-- A heap after `mm_initialize`. -/
def Booted (h : ChunkHeap) : Prop :=
  ∃ heapstart heapsize, RegionFits k heapstart heapsize ∧ h = mmInitialize k heapstart heapsize

def Run : ChunkHeap → Prop :=
  Reach (Booted k) (LabelledStep (Enabled k) fun h a => some (a.perform k h))

def OrderlyRun : ChunkHeap → Prop :=
  Reach (Booted k)
    (LabelledStep (fun h a => Enabled k h a ∧ Orderly k h a) fun h a => some (a.perform k h))

section Runs

variable {k : Build} {h : ChunkHeap}

theorem Booted.sizesOk (hboot : Booted k h) : SizesOk k h := by
  obtain ⟨heapstart, heapsize, hfits, rfl⟩ := hboot
  have hempty : SizesOk k ⟨[], [], []⟩ := ⟨by simp, by simp⟩
  exact hempty.mmAddregion hfits.1

theorem SizesOk.perform (h' : SizesOk k h) {a : Call} (hen : Enabled k h a)
    (hord : ¬ k.Exact → Orderly k h a) : SizesOk k (a.perform k h) := by
  cases a with
  | malloc size => exact h'.mmMalloc size
  | free mem => exact h'.mmFree mem
  | realloc oldmem size =>
    exact h'.mmRealloc fun hex f c hloc hlt => hord hex (f, c) hloc hlt
  | memalign alignment size =>
    obtain ⟨⟨j, -, hj⟩, -⟩ := hen
    exact h'.mmMemalign ⟨j, hj⟩ size
  | addregion heapstart heapsize => exact h'.mmAddregion hen.1

theorem OrderlyRun.sizesOk (hrun : OrderlyRun k h) : SizesOk k h := by
  refine Reach.labelled (fun h hb => hb.sizesOk) ?_ hrun
  rintro h a hok ⟨hen, hord⟩
  exact ⟨_, rfl, hok.perform hen fun _ => hord⟩

theorem Run.sizesOk (hex : k.Exact) (hrun : Run k h) : SizesOk k h := by
  refine Reach.labelled (fun h hb => hb.sizesOk) ?_ hrun
  intro h a hok hen
  exact ⟨_, rfl, hok.perform hen fun hne => absurd hex hne⟩

end Runs

/-- The rows of a layout of the heap in memory. -/
def ofLayout (l : Layout) : List Row := l.map fun r => ⟨r.base + sizeofAllocnode, r.chunks⟩

/-- The heap in memory has the rows of the default layout, if no region is longer than 2 GiB: each
of their chunks can be a free node, and each payload is aligned. -/
theorem rowsOk_of_shortReachable {r : Mm.Run} (hr : ShortReachable r) :
    ∃ l, HeapOk r.heap l ∧ ∀ row ∈ ofLayout l, RowOk .default32 row := by
  obtain ⟨l, hok⟩ := hr.runOk
  refine ⟨l, hok.heap, fun row hrow => ?_⟩
  obtain ⟨s, hs, rfl⟩ := mem_map.mp hrow
  have hregion := hok.heap.rep.ok.region s hs
  refine ⟨fun c hc => ?_, fun _ => ?_⟩
  · obtain ⟨hdvd, hpos⟩ := hregion.granular c hc
    exact ⟨Nat.le_of_dvd hpos hdvd, fun _ => hdvd⟩
  · have haligned := hregion.aligned
    change 16 ∣ s.base + 8 + 8
    omega

/-- In the default layout every chunk that is passed to `mm_addfreechunk` is long enough for a free
node, on all runs. In the other layouts it is so on the runs in which `mm_realloc` leaves of a free
neighbour nothing or enough for a free node. -/
theorem free_chunks_long_enough (k : Build) (h : ChunkHeap) :
    (k = .default32 → Run k h → ∀ n ∈ h.listed, k.freenode ≤ n) ∧
    (OrderlyRun k h → ∀ n ∈ h.listed, k.freenode ≤ n) := by
  refine ⟨?_, fun hrun => hrun.sizesOk.listed⟩
  rintro rfl hrun
  have hexact : Build.default32.Exact := by decide
  exact (hrun.sizesOk hexact).listed

/-- Two chunks, of which the second one grows and leaves 24 bytes of the first one, which was freed
before. -/
theorem free_chunks_long_enough_sample :
    ∃ h, OrderlyRun .mmSmall h ∧ h.listed = [24, 32, 40, 72] ∧
      ∀ n ∈ h.listed, Build.mmSmall.freenode ≤ n := by
  have hrun : OrderlyRun .mmSmall (after (fun h a => some (Call.perform .mmSmall h a))
      (mmInitialize .mmSmall 4096 80) [.malloc 28, .malloc 20, .free 4104, .realloc 4136 44]) :=
    Reach.after _ (.start ⟨4096, 80, by decide, rfl⟩) (by decide)
  exact ⟨_, hrun, by decide, (free_chunks_long_enough .mmSmall _).2 hrun⟩

/-- With `CONFIG_MM_SMALL` a chunk that grows leaves 8 bytes of the chunk in front of it, where a
free node has 12, and with pointers of eight bytes 16 bytes, where a free node has 24. -/
theorem realloc_leaves_short_chunk :
    (∃ h, Run .mmSmall h ∧ 8 ∈ h.listed ∧ Build.mmSmall.freenode = 12) ∧
    ∃ h, Run .wide64 h ∧ 16 ∈ h.listed ∧ Build.wide64.freenode = 24 := by
  have hsmall : Run .mmSmall (after (fun h a => some (Call.perform .mmSmall h a))
      (mmInitialize .mmSmall 4096 64) [.malloc 12, .malloc 20, .free 4104, .realloc 4120 44]) :=
    Reach.after _ (.start ⟨4096, 64, by decide, rfl⟩) (by decide)
  have hwide : Run .wide64 (after (fun h a => some (Call.perform .wide64 h a))
      (mmInitialize .wide64 4096 160) [.malloc 24, .malloc 88, .free 4112, .realloc 4144 120]) :=
    Reach.after _ (.start ⟨4096, 160, by decide, rfl⟩) (by decide)
  exact ⟨⟨_, hsmall, by decide, rfl⟩, _, hwide, by decide, rfl⟩

end BaseNx.Mm.Rows
