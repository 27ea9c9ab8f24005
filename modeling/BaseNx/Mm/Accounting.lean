import BaseNx.Mm.Runs

/-!
# The accounts of the heap

`mm_mallinfo` walks the nodes of every region and adds up their sizes. On every run in which no
region is longer than 2 GiB the walk of a region ends at its last guard, and the numbers for the
free chunks are those of the free list. The sum of all sizes is `mm_heapsize` as long as `mm_extend`
is not called (`mallinfo_accounts`): that function moves the end of a region and leaves
`mm_heapsize` as it is (`extend_breaks_accounts`).
-/

namespace BaseNx.Mm

open ByteMem LinkedList BaseNx.Lib List

/-! ## `mm_mallinfo` -/

/-- `struct mallinfo` -/
structure Mallinfo where
  arena : Nat
  ordblks : Nat
  mxordblk : Nat
  uordblks : Nat
  fordblks : Nat
  deriving DecidableEq

/-- The locals of `mm_mallinfo` after a node. -/
def Mallinfo.visit (m : Mallinfo) (size : Nat) (allocated : Bool) : Mallinfo :=
  if allocated then { m with uordblks := u32 (m.uordblks + size) }
  else
    { m with
      ordblks := m.ordblks + 1
      fordblks := u32 (m.fordblks + size)
      mxordblk := if m.mxordblk < size then size else m.mxordblk }

/-- The walk of a region: the node where it ends and the locals then. -/
def mallinfoWalk (h : Heap) (heapend : Nat) : Nat → Nat → Mallinfo → Nat × Mallinfo
  | 0, node, m => (node, m)
  | fuel + 1, node, m =>
    if node < heapend then
      mallinfoWalk h heapend fuel (node + h.size node)
        (m.visit (h.size node) (h.preceding node &&& mmAllocBit != 0))
    else (node, m)

/-- One region: the guard at the end is counted after the walk. -/
def mallinfoRegion (h : Heap) (m : Mallinfo) (guards : Nat × Nat) : Mallinfo :=
  let m := (mallinfoWalk h guards.2 maxNodes guards.1 m).2
  { m with uordblks := u32 (m.uordblks + sizeofAllocnode) }

/-- `mm_mallinfo` -/
def mmMallinfo (h : Heap) : Mallinfo :=
  { h.mmRegions.foldl (mallinfoRegion h) ⟨0, 0, 0, 0, 0⟩ with arena := h.mmHeapsize }

/-- The nodes from `a` on, by their links. -/
def listNodes (h : Heap) : Nat → Nat → List Nat
  | 0, _ => []
  | fuel + 1, a => if a = 0 then [] else a :: listNodes h fuel (h.flink a)

/-- The sizes of the chunks in the list that starts at `mm_nodelist[0]`; its heads have size
zero. -/
def freeSizes (h : Heap) : List Nat :=
  ((listNodes h maxNodes (h.nodelist 0)).filter fun a => h.size a ≠ 0).map h.size

/-! ## The walk over a row of chunks -/

variable {r : Region}

section Walk

variable {h : Heap} {l : Layout}

/-- The locals after a row of chunks. -/
def Mallinfo.visitAll (m : Mallinfo) (cs : List Chunk) : Mallinfo :=
  cs.foldl (fun m c => m.visit c.size c.used) m

theorem mallinfoWalk_row {cs : List Chunk} {a p fuel : Nat} (hh : Headers h a p cs)
    (hp : p < 2 ^ 31) (hcs : ∀ c ∈ cs, 0 < c.size ∧ c.size < 2 ^ 31) (hfuel : cs.length ≤ fuel)
    (m : Mallinfo) : mallinfoWalk h (a + total cs) fuel a m = (a + total cs, m.visitAll cs) := by
  induction cs generalizing a p fuel m with
  | nil =>
    cases fuel with
    | zero => rfl
    | succ fuel => simp [mallinfoWalk, Mallinfo.visitAll]
  | cons c cs ih =>
    obtain ⟨hsize, htag, hrest⟩ := hh
    obtain ⟨hpos, hlt⟩ := hcs c (by simp)
    cases fuel with
    | zero => simp at hfuel
    | succ fuel =>
      have hused : (h.preceding a &&& mmAllocBit != 0) = c.used := by
        have hiff := tag_and_allocBit_eq_zero (c := c) hp
        rw [htag]
        cases hu : c.used
        · rw [hu] at hiff
          simp [hiff.mpr rfl]
        · rw [hu] at hiff
          simpa using fun h0 => nomatch hiff.mp h0
      rw [mallinfoWalk, if_pos (by simp only [total_cons]; omega), hsize, hused, total_cons,
        ← add_assoc, ih hrest hlt (forall_mem_cons.1 hcs).2 (by simpa using hfuel)]
      rfl

theorem RegionOk.length_le (hok : RegionOk r) : (guardChunk :: r.chunks).length ≤ maxNodes := by
  have hlen : ∀ cs : List Chunk, (∀ c ∈ cs, c.Granular) → 16 * cs.length ≤ total cs := by
    intro cs hcs
    induction cs with
    | nil => simp
    | cons c cs ih =>
      have hc := hcs c (by simp)
      have hrest := ih (forall_mem_cons.1 hcs).2
      obtain ⟨hdvd, hpos⟩ := hc
      have := Nat.le_of_dvd hpos hdvd
      simp only [length_cons, total_cons]
      omega
  have hchunks := hlen r.chunks hok.granular
  have hshort := hok.short
  rw [r.total_line] at hshort
  simp only [length_cons, maxNodes]
  omega

theorem mallinfoWalk_region (hok : RegionOk r) (hh : Headers h r.base 0 r.line) (m : Mallinfo) :
    mallinfoWalk h (r.stop - 8) maxNodes r.base m
      = (r.stop - 8, m.visitAll (guardChunk :: r.chunks)) := by
  have hrow : Headers h r.base 0 (guardChunk :: r.chunks) := ((headers_append _ _ _ _).mp hh).1
  have hsizes : ∀ c ∈ guardChunk :: r.chunks, 0 < c.size ∧ c.size < 2 ^ 31 := by
    intro c hc
    refine ⟨?_, hok.size_lt c ?_⟩
    · rcases mem_cons.mp hc with rfl | hc
      · decide
      · exact (hok.granular c hc).2
    · exact mem_append_left [guardChunk] hc
  have hstop : r.stop - 8 = r.base + total (guardChunk :: r.chunks) := by
    have hguard : guardChunk.size = 8 := rfl
    rw [r.stop_eq, total_cons, hguard]
    omega
  rw [hstop]
  exact mallinfoWalk_row hrow (by decide) hsizes hok.length_le m

theorem mallinfoRegion_eq (hok : RegionOk r) (hh : Headers h r.base 0 r.line) (m : Mallinfo) :
    mallinfoRegion h m (r.base, r.stop - 8) = m.visitAll r.line := by
  have hline : r.line = (guardChunk :: r.chunks) ++ [guardChunk] := rfl
  have happ : m.visitAll r.line = (m.visitAll (guardChunk :: r.chunks)).visitAll [guardChunk] := by
    rw [hline]
    exact foldl_append
  rw [mallinfoRegion, mallinfoWalk_region hok hh, happ]
  rfl

/-- All chunks of a layout, guards included. -/
def chunksOf (l : Layout) : List Chunk := l.flatMap Region.line

theorem mmMallinfo_eq (hok : HeapOk h l) :
    mmMallinfo h =
    { Mallinfo.visitAll ⟨0, 0, 0, 0, 0⟩ (chunksOf l) with arena := h.mmHeapsize } := by
  have hfold : ∀ (l' : Layout) (m : Mallinfo), (∀ r ∈ l', r ∈ l) →
      (l'.map fun r => (r.base, r.stop - 8)).foldl (mallinfoRegion h) m =
      m.visitAll (chunksOf l') := by
    intro l' m hsub
    induction l' generalizing m with
    | nil => rfl
    | cons r l' ih =>
      have hr := hsub r (by simp)
      rw [map_cons, foldl_cons,
        mallinfoRegion_eq (hok.rep.ok.region r hr) (hok.rep.headers r hr),
        ih _ (forall_mem_cons.1 hsub).2]
      simp only [Mallinfo.visitAll, chunksOf, flatMap_cons, foldl_append]
  rw [mmMallinfo, hok.rep.regions, hfold l _ fun r hr => hr]

end Walk

/-! ## The numbers -/

variable {l : Layout}

section Numbers

variable (cs : List Chunk)

def freeOf : List Nat := (cs.filter fun c => !c.used).map Chunk.size

def usedOf : List Nat := (cs.filter fun c => c.used).map Chunk.size

theorem total_eq_sums : total cs = (usedOf cs).sum + (freeOf cs).sum := by
  induction cs with
  | nil => rfl
  | cons c cs ih =>
    cases hu : c.used <;> simp [usedOf, freeOf, hu] at ih ⊢ <;> omega

/-- The locals of the walk, as long as no sum overflows. -/
theorem visitAll_eq (m : Mallinfo)
    (hu : m.uordblks + (usedOf cs).sum < 2 ^ 32) (hf : m.fordblks + (freeOf cs).sum < 2 ^ 32) :
    m.visitAll cs =
      { arena := m.arena
        ordblks := m.ordblks + (freeOf cs).length
        mxordblk := (freeOf cs).foldl max m.mxordblk
        uordblks := m.uordblks + (usedOf cs).sum
        fordblks := m.fordblks + (freeOf cs).sum } := by
  induction cs generalizing m with
  | nil => rfl
  | cons c cs ih =>
    show Mallinfo.visitAll (m.visit c.size c.used) cs = _
    cases hused : c.used with
    | true =>
      simp only [usedOf, freeOf, filter_cons, hused, Bool.not_true, Bool.false_eq_true, if_true,
        if_false, map_cons, sum_cons] at hu hf ⊢
      rw [Mallinfo.visit, if_pos rfl, u32_eq_self (by omega), ih]
      · simp only [usedOf, freeOf, add_assoc]
      · simp only [usedOf]
        omega
      · exact hf
    | false =>
      simp only [usedOf, freeOf, filter_cons, hused, Bool.not_false, Bool.false_eq_true, if_true,
        if_false, map_cons, sum_cons] at hu hf ⊢
      have hmax : (if m.mxordblk < c.size then c.size else m.mxordblk) = max m.mxordblk c.size := by
        rw [max_def]
        split_ifs <;> omega
      rw [Mallinfo.visit, if_neg Bool.false_ne_true, hmax, u32_eq_self (by omega), ih]
      · simp only [usedOf, freeOf, length_cons, foldl_cons, add_assoc, add_comm 1]
      · exact hu
      · simp only [freeOf]
        omega

theorem total_chunksOf (l : Layout) : total (chunksOf l) = (l.map fun r => total r.line).sum := by
  induction l with
  | nil => rfl
  | cons r l ih =>
    rw [chunksOf, flatMap_cons, total_append, map_cons, sum_cons, ← ih]
    rfl

/-- Disjoint regions in a 32-bit address space have fewer than 2^32 bytes. -/
theorem LayoutOk.total_lt {nl : Nat} (hl : LayoutOk nl l) : total (chunksOf l) < 2 ^ 32 := by
  have hline : ∀ r : Region, r.base < r.stop := fun r => by
    rw [r.stop_eq]
    omega
  have hsymm : Std.Symm fun r s : Region => r.stop ≤ s.base ∨ s.stop ≤ r.base :=
    ⟨fun _ _ h => h.symm⟩
  have hnodup : l.Nodup := by
    refine hl.disjoint.imp ?_
    rintro r s hrs rfl
    have := hline r
    omega
  -- count the addresses of all regions
  have hcard : (l.toFinset.biUnion fun r => Finset.Ico r.base r.stop).card
      = ∑ r ∈ l.toFinset, (Finset.Ico r.base r.stop).card := by
    refine Finset.card_biUnion fun r hr s hs hne => ?_
    have hrs := hl.disjoint.forall (mem_toFinset.mp hr) (mem_toFinset.mp hs) hne
    rw [Function.onFun, Finset.disjoint_left]
    intro x hx hx'
    rw [Finset.mem_Ico] at hx hx'
    omega
  have hsub : (l.toFinset.biUnion fun r => Finset.Ico r.base r.stop) ⊆ Finset.Ico 1 (2 ^ 32) := by
    intro x hx
    obtain ⟨r, hr, hx⟩ := Finset.mem_biUnion.mp hx
    have hok := hl.region r (mem_toFinset.mp hr)
    have hpos := hok.pos
    have hfits := hok.fits
    rw [Finset.mem_Ico] at hx ⊢
    omega
  have hle := Finset.card_le_card hsub
  have hsum : ∑ r ∈ l.toFinset, (Finset.Ico r.base r.stop).card =
      (l.map fun r => total r.line).sum := by
    rw [sum_toFinset _ hnodup]
    congr 1
    refine map_congr_left fun r _ => ?_
    rw [Nat.card_Ico, Region.stop, Nat.add_sub_cancel_left]
  rw [hcard, hsum, ← total_chunksOf, Nat.card_Ico] at hle
  omega

end Numbers

/-! ## The free list -/

variable {L : List Nat}

section List

variable {h : Heap}

theorem listNodes_eq {a fuel : Nat} (hl : Linked h.flink h.blink 0 (a :: L))
    (hpos : ∀ b ∈ a :: L, b ≠ 0) (hfuel : (a :: L).length ≤ fuel) :
    listNodes h fuel a = a :: L := by
  induction L generalizing a fuel with
  | nil =>
    have hend : h.flink a = 0 := hl.2 a rfl
    have ha := hpos a (by simp)
    obtain ⟨fuel, rfl⟩ : ∃ n, fuel = n + 1 := ⟨fuel - 1, by simp at hfuel; omega⟩
    rw [listNodes, if_neg ha, hend]
    cases fuel <;> simp [listNodes]
  | cons b L ih =>
    have ha := hpos a (by simp)
    have hnext : h.flink a = b := hl.1.1
    have hrest : Linked h.flink h.blink 0 (b :: L) := ((linked_append [a] b L).mp hl).2
    obtain ⟨fuel, rfl⟩ : ∃ n, fuel = n + 1 := ⟨fuel - 1, by simp at hfuel; omega⟩
    rw [listNodes, if_neg ha, hnext, ih hrest (forall_mem_cons.1 hpos).2
      (by simpa using hfuel)]

theorem FreeList.listNodes_eq (hl : FreeList h L) : listNodes h maxNodes (h.nodelist 0) = L := by
  have hhead := hl.head_eq
  cases L with
  | nil => exact nomatch hhead
  | cons a L =>
    obtain rfl : a = h.nodelist 0 := Option.some.inj hhead
    refine Mm.listNodes_eq hl.linked (fun b hb => ?_) hl.length_le
    have := (hl.bound b hb).1
    omega

theorem map_snd_placed (a : Nat) (cs : List Chunk) : (placed a cs).map Prod.snd = cs := by
  induction cs generalizing a with
  | nil => rfl
  | cons c cs ih => rw [placed_cons, map_cons, ih]

theorem map_snd_spots (l : Layout) : (spots l).map Prod.snd = chunksOf l := by
  induction l with
  | nil => rfl
  | cons r l ih =>
    rw [spots, flatMap_cons, map_append, map_snd_placed, chunksOf, flatMap_cons,
      ← chunksOf, ← ih]
    rfl

theorem freeSizes_perm (hok : HeapOk h l) : (freeSizes h).Perm (freeOf (chunksOf l)) := by
  obtain ⟨L, hl, hne, hmem⟩ := hok.rep.free
  have hnodes : (L.filter fun a => h.size a ≠ 0).Perm
      (((spots l).filter fun q => !q.2.used).map Prod.fst) := by
    refine (perm_ext_iff_of_nodup (hl.nodup.filter _) ?_).mpr fun a => ?_
    · have hpw := (hok.rep.ok.spots_pairwise.filter fun q => !q.2.used)
      refine pairwise_map.mpr (hpw.imp_of_mem ?_)
      intro q r hq hr hqr heq
      have h1 := (hok.rep.ok.spotOk (mem_of_mem_filter hq)).eight
      have h2 := (hok.rep.ok.spotOk (mem_of_mem_filter hr)).eight
      omega
    · rw [mem_filter, hmem a]
      constructor
      · rintro ⟨(⟨i, hi, rfl⟩ | ⟨⟨c, hc, hu⟩, -⟩), hz⟩
        · exact absurd (hl.zero i hi) (of_decide_eq_true hz)
        · exact mem_map.mpr ⟨(a, c), mem_filter.mpr ⟨hc, by simp [hu]⟩, rfl⟩
      · intro ha
        obtain ⟨⟨b, c⟩, hq, rfl⟩ := mem_map.mp ha
        obtain ⟨hq, hu⟩ := mem_filter.mp hq
        have hfree : IsFree l b := ⟨c, hq, by simpa using hu⟩
        have hin : b ∈ {a | IsFree l a ∧ ¬ (0 ≤ a ∧ a < 0)} := ⟨hfree, by omega⟩
        exact ⟨Or.inr hin, decide_eq_true (hne b hin)⟩
  have hsizes : (((spots l).filter fun q => !q.2.used).map Prod.fst).map h.size
      = freeOf (chunksOf l) := by
    rw [freeOf, ← map_snd_spots, filter_map, map_map, map_map]
    refine map_congr_left fun q hq => ?_
    exact hok.rep.size_eq (mem_of_mem_filter hq)
  rw [freeSizes, hl.listNodes_eq, ← hsizes]
  exact hnodes.map h.size

end List

/-! ## What the calls do to the tables -/

section Frame

/-- What `struct mm_heap_s` holds besides the memory. -/
def Heap.frame (h : Heap) : Nat × Nat × List (Nat × Nat) :=
    (h.mmNodelist, h.mmHeapsize, h.mmRegions)

variable (h : Heap)

section

variable (n v : Nat)

@[simp] theorem frame_setSize : (h.setSize n v).frame = h.frame := rfl

@[simp] theorem frame_setPreceding : (h.setPreceding n v).frame = h.frame := rfl

@[simp] theorem frame_setPrecedingSize : (h.setPrecedingSize n v).frame = h.frame := rfl

@[simp] theorem frame_setFlink : (h.setFlink n v).frame = h.frame := rfl

@[simp] theorem frame_setBlink : (h.setBlink n v).frame = h.frame := rfl

end

@[simp] theorem frame_mem (mem : Mem) : ({ h with mem := mem } : Heap).frame = h.frame := rfl

@[simp] theorem frame_unlinkNode (node : Nat) : (unlinkNode h node).frame = h.frame := by
  unfold unlinkNode
  dsimp only
  split_ifs <;> simp

@[simp] theorem frame_mmAddfreechunk (node : Nat) : (mmAddfreechunk h node).frame = h.frame := by
  unfold mmAddfreechunk linkBetween
  dsimp only
  split_ifs <;> simp

@[simp] theorem frame_splitChunk (node alignsize : Nat) :
    (splitChunk h node alignsize).frame = h.frame := by
  unfold splitChunk
  dsimp only
  split_ifs <;> simp

@[simp] theorem frame_mmMalloc (size : Nat) : (mmMalloc h size).1.frame = h.frame := by
  unfold mmMalloc
  dsimp only
  split_ifs <;> simp

@[simp] theorem frame_mergeNext (node : Nat) : (mergeNext h node).1.frame = h.frame := by
  unfold mergeNext
  dsimp only
  split_ifs <;> simp

@[simp] theorem frame_mergePrev (node next : Nat) : (mergePrev h node next).1.frame = h.frame := by
  unfold mergePrev
  dsimp only
  split_ifs <;> simp

@[simp] theorem frame_mmFree (mem : Nat) : (mmFree h mem).frame = h.frame := by
  unfold mmFree
  split_ifs <;> simp

@[simp] theorem frame_mmShrinkchunk (node size : Nat) :
    (mmShrinkchunk h node size).frame = h.frame := by
  unfold mmShrinkchunk
  dsimp only
  split_ifs <;> simp

@[simp] theorem frame_reallocTakeprev (oldnode prev next oldsize prevsize takeprev : Nat) :
    (reallocTakeprev h oldnode prev next oldsize prevsize takeprev).1.frame = h.frame := by
  unfold reallocTakeprev
  split_ifs <;> simp

@[simp] theorem frame_reallocTakenext (oldnode next oldsize nextsize takenext : Nat) :
    (reallocTakenext h oldnode next oldsize nextsize takenext).frame = h.frame := by
  unfold reallocTakenext
  split_ifs <;> simp

@[simp] theorem frame_reallocInPlace (oldnode prev next oldsize prevsize nextsize newsize : Nat) :
    (reallocInPlace h oldnode prev next oldsize prevsize nextsize newsize).1.frame = h.frame := by
  unfold reallocInPlace
  dsimp only
  split_ifs <;> simp

@[simp] theorem frame_reallocMove (oldmem oldsize size : Nat) :
    (reallocMove h oldmem oldsize size).1.frame = h.frame := by
  unfold reallocMove
  dsimp only
  split_ifs <;> simp

@[simp] theorem frame_mmRealloc (oldmem size : Nat) :
    (mmRealloc h oldmem size).1.frame = h.frame := by
  unfold mmRealloc
  dsimp only
  split_ifs <;> simp

@[simp] theorem frame_alignChunk (node alignedchunk alignment : Nat) :
    (alignChunk h node alignedchunk alignment).1.frame = h.frame := by
  unfold alignChunk
  dsimp only
  split_ifs <;> simp

@[simp] theorem frame_mmMemalign (alignment size : Nat) :
    (mmMemalign h alignment size).1.frame = h.frame := by
  unfold mmMemalign
  dsimp only
  split_ifs <;> simp

end Frame

/-! ## The accounts on runs -/

/-- The bytes of all regions, by their guards. -/
def regionBytes (h : Heap) : Nat := (h.mmRegions.map fun g => g.2 + sizeofAllocnode - g.1).sum

variable {h : Heap}

theorem HeapOk.regionBytes_eq (hok : HeapOk h l) : regionBytes h = total (chunksOf l) := by
  rw [regionBytes, hok.rep.regions, total_chunksOf, map_map]
  congr 1
  refine map_congr_left fun r _ => ?_
  have hstop := r.stop_eq
  have hline := r.total_line
  simp only [Function.comp, sizeofAllocnode]
  omega

theorem HeapOk.mallinfo (hok : HeapOk h l) :
    (mmMallinfo h).uordblks + (mmMallinfo h).fordblks = regionBytes h ∧
    (mmMallinfo h).fordblks = (freeSizes h).sum ∧
    (mmMallinfo h).mxordblk = (freeSizes h).foldl max 0 ∧
    (mmMallinfo h).ordblks = (freeSizes h).length := by
  have hlt := hok.rep.ok.total_lt
  have hsums := total_eq_sums (chunksOf l)
  have hperm := freeSizes_perm hok
  have hvisit := visitAll_eq (chunksOf l) ⟨0, 0, 0, 0, 0⟩ (by simp only; omega)
    (by simp only; omega)
  rw [mmMallinfo_eq hok, hvisit, hok.regionBytes_eq, hsums]
  refine ⟨?_, ?_, ?_, ?_⟩
  · simp only [zero_add]
  · simp only [zero_add, hperm.sum_eq]
  · simp only [hperm.foldl_eq]
  · simp only [zero_add, hperm.length_eq]

/-- A call that leaves `mm_heapsize` in step with the regions: any but `mm_extend`. -/
def Call.Counted : Call → Prop
  | .extend _ _ _ => False
  | _ => True

/-- The states of the heap on the runs without `mm_extend`, with regions of at most 2 GiB. -/
def CountedReachable : Run → Prop :=
  Reach (fun r => ∃ b : Boot, (b.Legal ∧ b.Short) ∧ r = b.run)
    (LabelledStep (fun r c => (c.Legal r ∧ c.Short r) ∧ c.Counted) Call.apply)

theorem CountedReachable.short {r : Run} (hr : CountedReachable r) : ShortReachable r := by
  refine hr.mono (fun _ h => h) ?_
  rintro s t ⟨c, ⟨hc, -⟩, happly⟩
  exact ⟨c, hc, happly⟩

theorem mmAddregion_counts {l' : Layout} {heapstart heapsize : Nat}
    (hnew : NewRegion h heapstart heapsize) (hok' : HeapOk (mmAddregion h heapstart heapsize) l')
    (hacc : regionBytes h = h.mmHeapsize) :
    regionBytes (mmAddregion h heapstart heapsize) =
    (mmAddregion h heapstart heapsize).mmHeapsize := by
  have hlt := hok'.rep.ok.total_lt
  rw [← hok'.regionBytes_eq] at hlt
  have hroom := hnew.room
  have hframe : (mmAddregion h heapstart heapsize).frame = (h.mmNodelist,
      u32 (h.mmHeapsize + (regionStop heapstart heapsize - regionBase heapstart)),
      h.mmRegions ++ [(regionBase heapstart, regionStop heapstart heapsize - 8)]) := by
    rw [mmAddregion_eq hnew, frame_mmAddfreechunk]
    rfl
  obtain ⟨-, hsize, hregions⟩ : _ ∧ (mmAddregion h heapstart heapsize).mmHeapsize = _ ∧
      (mmAddregion h heapstart heapsize).mmRegions = _ := by
    simpa only [Heap.frame, Prod.mk.injEq] using hframe
  have hbytes : regionBytes (mmAddregion h heapstart heapsize)
      = h.mmHeapsize + (regionStop heapstart heapsize - regionBase heapstart) := by
    rw [← hacc, regionBytes, hregions, map_append, sum_append, regionBytes]
    simp only [map_cons, map_nil, sum_singleton, sizeofAllocnode]
    omega
  rw [hbytes] at hlt ⊢
  rw [hsize, u32_eq_self hlt]

/-- The accounts depend on the tables only. -/
theorem counted_of_frame {h' : Heap} (hframe : h'.frame = h.frame)
    (hacc : regionBytes h = h.mmHeapsize) : regionBytes h' = h'.mmHeapsize := by
  simp only [Heap.frame, Prod.mk.injEq] at hframe
  rw [regionBytes, hframe.2.1, hframe.2.2, ← regionBytes, hacc]

theorem Boot.counted {b : Boot} (hlegal : b.Legal) (hshort : b.Short) :
    regionBytes b.run.heap = b.run.heap.mmHeapsize := by
  have hfits := hlegal.fits
  have hok := mmInitialize_spec hlegal.pos hfits hlegal.region hshort
  have hnew := hlegal.region
  unfold Boot.run
  rw [mmInitialize] at hok ⊢
  dsimp only at hok ⊢
  generalize hcleared : (⟨_, b.nodelist, 0, []⟩ : Heap) = h0 at hok ⊢
  have hframe := sameFrame_linkHeads h0 (mmNnodes - 1)
  generalize linkHeads h0 (mmNnodes - 1) = h1 at hok hframe ⊢
  have hregions : h1.mmRegions = [] := by rw [hframe.regions, ← hcleared]
  have hsize : h1.mmHeapsize = 0 := by rw [hframe.heapsize, ← hcleared]
  have hnodelist : h1.mmNodelist = b.nodelist := by rw [hframe.nodelist, ← hcleared]
  refine mmAddregion_counts ⟨hnew.pos, hnew.fits, hnew.room, ?_, ?_⟩ hok ?_
  · rw [hregions]
    exact hnew.disjoint
  · rw [hnodelist]
    exact hnew.heads
  · rw [regionBytes, hregions, hsize]
    rfl

theorem CountedReachable.counted {r : Run} (hr : CountedReachable r) :
    regionBytes r.heap = r.heap.mmHeapsize := by
  have hboth : (∃ l, RunOk r l) ∧ regionBytes r.heap = r.heap.mmHeapsize := by
    refine Reach.labelled
      (P := fun r => (∃ l, RunOk r l) ∧ regionBytes r.heap = r.heap.mmHeapsize) ?_ ?_ hr
    · rintro - ⟨b, hb, rfl⟩
      exact ⟨ShortReachable.runOk (.start ⟨b, hb, rfl⟩), Boot.counted hb.1 hb.2⟩
    · rintro s c ⟨⟨l, hok⟩, hacc⟩ ⟨⟨hlegal, hshort⟩, hcounted⟩
      obtain ⟨l', hok'⟩ := (hok.perform hlegal hshort).ok
      refine ⟨_, rfl, ⟨l', hok'⟩, ?_⟩
      cases c with
      | malloc size =>
        exact counted_of_frame (frame_mmMalloc _ _) hacc
      | free mem => exact counted_of_frame (frame_mmFree _ _) hacc
      | realloc oldmem size =>
        refine counted_of_frame (h := s.heap) ?_ hacc
        rw [← frame_mmRealloc s.heap oldmem size]
        simp only [Call.perform]
        split_ifs <;> rfl
      | memalign alignment size => exact counted_of_frame (frame_mmMemalign _ _ _) hacc
      | addregion heapstart heapsize =>
        have hheap := hok'.heap
        dsimp only [Call.perform] at hheap ⊢
        exact mmAddregion_counts hlegal hheap hacc
      | extend mem size region => exact hcounted.elim
      | store mem offset value => exact counted_of_frame rfl hacc
  exact hboth.2

/-- In every state of the runs with regions of at most 2 GiB the walk of each region ends at its
last guard, and the numbers of the free chunks are those of the free list. Without `mm_extend` the
sum of all sizes is `mm_heapsize`. -/
theorem mallinfo_accounts (r : Run) (hr : ShortReachable r) :
    (∀ g ∈ r.heap.mmRegions, ∀ m, (mallinfoWalk r.heap g.2 maxNodes g.1 m).1 = g.2) ∧
    (mmMallinfo r.heap).fordblks = (freeSizes r.heap).sum ∧
    (mmMallinfo r.heap).mxordblk = (freeSizes r.heap).foldl max 0 ∧
    (mmMallinfo r.heap).ordblks = (freeSizes r.heap).length ∧
    (CountedReachable r →
      (mmMallinfo r.heap).uordblks + (mmMallinfo r.heap).fordblks = r.heap.mmHeapsize) := by
  obtain ⟨l, hok⟩ := hr.runOk
  obtain ⟨hsum, hfree, hlargest, hcount⟩ := hok.heap.mallinfo
  refine ⟨fun g hg m => ?_, hfree, hlargest, hcount, fun hcounted => ?_⟩
  · rw [hok.heap.rep.regions] at hg
    obtain ⟨s, hs, rfl⟩ := mem_map.mp hg
    rw [mallinfoWalk_region (hok.heap.rep.ok.region s hs) (hok.heap.rep.headers s hs)]
  · rw [hsum, hcounted.counted]

theorem sampleRun_counted : CountedReachable sampleRun := by
  have hshort : sampleBoot.Short := by
    simp only [Boot.Short]
    decide
  refine Reach.after _ (.start ⟨sampleBoot, ⟨sampleBoot_legal, hshort⟩, rfl⟩) ?_
  refine ⟨⟨⟨?_, trivial⟩, trivial⟩, rfl, ⟨⟨?_, trivial⟩, trivial⟩, rfl,
    ⟨⟨.inr ?_, trivial⟩, trivial⟩, rfl, trivial⟩
  · show 100 + 23 < 2 ^ 32
    decide
  · show 20 + 23 < 2 ^ 32
    decide
  · decide

theorem mallinfo_accounts_sampleRun :
    (mmMallinfo sampleRun.heap).uordblks + (mmMallinfo sampleRun.heap).fordblks = 1024 ∧
      sampleRun.heap.mmHeapsize = 1024 := by
  have hsize : sampleRun.heap.mmHeapsize = 1024 := by decide +kernel
  have haccounts := mallinfo_accounts sampleRun sampleRun_counted.short
  exact ⟨hsize ▸ haccounts.2.2.2.2 sampleRun_counted, hsize⟩

/-! ## After `mm_extend` -/

/-- A region of 1024 bytes whose end is moved by 32 bytes. -/
def extendedRun : Run := after Call.apply sampleBoot.run [.extend 5120 32 0]

theorem extendedRun_reachable : ShortReachable extendedRun := by
  have hshort : sampleBoot.Short := by
    simp only [Boot.Short]
    decide
  have hregion : sampleBoot.run.heap.mmRegions = [(4096, 5112)] := by decide
  refine Reach.after _ (.start ⟨sampleBoot, ⟨sampleBoot_legal, hshort⟩, rfl⟩)
    ⟨⟨?_, ?_⟩, rfl, trivial⟩
  · refine ⟨(4096, 5112), by rw [hregion]; rfl, by decide, by decide, by decide, by decide, ?_, ?_⟩
    · rw [hregion]
      decide
    · decide
  · intro guards hguards
    cases hguards
    decide

/-- The sizes add up to 1056 bytes while `mm_heapsize` is 1024. -/
theorem extend_breaks_accounts : ∃ r, ShortReachable r ∧
    (mmMallinfo r.heap).uordblks + (mmMallinfo r.heap).fordblks = 1056 ∧
    r.heap.mmHeapsize = 1024 := by
  refine ⟨extendedRun, extendedRun_reachable, ?_, ?_⟩
  · decide
  · decide

end BaseNx.Mm
