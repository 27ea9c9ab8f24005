import BaseNx.Errno
import BaseNx.Mm.Accounting

/-!
# What the callers of the heap are promised

`mm_malloc` takes a smallest free chunk that is large enough and fails only when there is none
(`malloc_best_fit`), and `mm_memalign` gives both ends of the chunk it cuts back to the free list
(`memalign_contract`).

The sizes are of type `size_t`. A request whose chunk size wraps around is granted a block that is
too short, unless there is none at all (`allocations_hold`). `mm_sbrk` has its two branches
exchanged: it starts a heap that exists afresh and extends one that does not, so only a call that
fails keeps the heap (`sbrk_keeps_heap`).
-/

namespace BaseNx.Mm

open ByteMem BaseNx.Lib List

/-! ## Best fit -/

/-- **Best fit.** The chunk size `n` is the size asked for with its header, rounded up. -/
theorem malloc_best_fit {h : Heap} {l : Layout} (hok : HeapOk h l) (size : Nat) (hpos : 1 ≤ size)
    (hs : size + sizeofAllocnode + 15 < 2 ^ 32) :
    ((mmMalloc h size).2 = 0 ↔
      ∀ a k, (a, ⟨k, false⟩) ∈ spots l → k < mmAlignUp (size + sizeofAllocnode)) ∧
    ((mmMalloc h size).2 = 0 → (mmMalloc h size).1 = h) ∧
    ((mmMalloc h size).2 ≠ 0 → ∃ a k l', (mmMalloc h size).2 = a + sizeofAllocnode ∧
      (a, ⟨k, false⟩) ∈ spots l ∧ mmAlignUp (size + sizeofAllocnode) ≤ k ∧
      (∀ b j, (b, ⟨j, false⟩) ∈ spots l → mmAlignUp (size + sizeofAllocnode) ≤ j → k ≤ j) ∧
      HeapOk (mmMalloc h size).1 l' ∧ Live l' a (mmAlignUp (size + sizeofAllocnode))) := by
  have hn := mmAlignUp_spec (show size + 8 + 15 < 2 ^ 32 from hs)
  rcases mmMalloc_spec hok (show size + 23 < 2 ^ 32 from hs) with
    ⟨hnull, hnone⟩ | ⟨-, f, N, hret, hg⟩
  · rw [hnull]
    exact ⟨⟨fun _ => hnone hpos, fun _ => rfl⟩, fun _ => rfl, fun hne => absurd rfl hne⟩
  · have hne : (mmMalloc h size).2 ≠ 0 := by omega
    refine ⟨⟨fun h0 => absurd h0 hne, fun hall => ?_⟩, fun h0 => absurd h0 hne, fun _ => ?_⟩
    · -- the chunk that was taken is large enough
      exact absurd (hall _ _ hg.spot) (not_lt.mpr hg.fits)
    · exact ⟨f.lo, N, _, hret, hg.spot, hg.fits, hg.best, hg.ok,
        f.mem_spots_plug.mpr
        (.inr (by simp [sizeofAllocnode])), by simp only [sizeofAllocnode]; omega⟩

theorem malloc_best_fit_sample : ∃ l, HeapOk sampleRun.heap l ∧
    ((mmMalloc sampleRun.heap 20).2 = 0 ↔ ∀ a k, (a, ⟨k, false⟩) ∈ spots l → k < 32) := by
  obtain ⟨l, hok⟩ := sampleRun_reachable.runOk
  exact ⟨l, hok.heap, (malloc_best_fit hok.heap 20 (by decide) (by decide)).1⟩

/-! ## Aligned blocks -/

/-- **`mm_memalign`.** The block is aligned and has the size asked for, rounded up. What is left of
the free chunk in front of it and behind it are free chunks of a heap that is coalesced and has all
its free chunks in the list. -/
theorem memalign_contract {h : Heap} {l : Layout} (hok : HeapOk h l) (alignment size : Nat)
    (hal : ∃ k, alignment = 2 ^ k) (hs : size + sizeofAllocnode + 15 < 2 ^ 32)
    (hfit : mmMinChunk < alignment → mmAlignUp size + 2 * alignment + 23 < 2 ^ 32)
    (hne : (mmMemalign h alignment size).2 ≠ 0) :
    ∃ l' a n x N, (mmMemalign h alignment size).2 = a + sizeofAllocnode ∧
      (alignment ∣ a + sizeofAllocnode ∧ 8 ∣ a + sizeofAllocnode) ∧
      (HeapOk (mmMemalign h alignment size).1 l' ∧ HeapInvariant (mmMemalign h alignment size).1) ∧
      (Live l' a n ∧ size ≤ n - sizeofAllocnode ∧
        n = if alignment ≤ mmMinChunk then mmAlignUp (size + sizeofAllocnode)
          else mmAlignUp (mmAlignUp size + sizeofAllocnode)) ∧
      ((x, ⟨N, false⟩) ∈ spots l ∧ x ≤ a ∧ a + n ≤ x + N) ∧
      (x = a ∨ sizeofFreenode ≤ a - x ∧ (x, ⟨a - x, false⟩) ∈ spots l') ∧
      (a + n = x + N ∨ ∃ k, sizeofFreenode ≤ k ∧ x + N ≤ a + n + k ∧
        (a + n, ⟨k, false⟩) ∈ spots l') := by
  rcases mmMemalign_spec hok hal hs hfit with hnull | ⟨h', l', a, n, x, N, heq, hc, hn, hdvd, hsize⟩
  · rw [hnull] at hne
    exact absurd rfl hne
  · have hmin : ∀ b k, (b, ⟨k, false⟩) ∈ spots l' → sizeofFreenode ≤ k := by
      intro b k hb
      rcases (hc.ok.rep.ok.spotOk hb).shape with hg | ⟨⟨hgran, hk⟩, -⟩
      · cases congrArg Chunk.used hg
      · exact Nat.le_of_dvd hk hgran
    rw [heq]
    refine ⟨l', a, n, x, N, rfl, ⟨hdvd, ?_⟩, ⟨hc.ok, hc.ok.heapInvariant⟩, ⟨hc.live, ?_, hsize⟩,
      ⟨hc.spot, hc.inside⟩, ?_, ?_⟩
    · rcases (hc.ok.rep.ok.spotOk hc.live.1).shape with hg | ⟨-, hplace⟩
      · exact absurd (congrArg Chunk.size hg) hc.live.2
      · simp only [sizeofAllocnode] at hplace ⊢
        omega
    · simp only [sizeofAllocnode]
      omega
    · exact hc.front.imp_right fun hx => ⟨hmin _ _ hx, hx⟩
    · refine hc.rest.imp_right ?_
      rintro ⟨k, hk, hle⟩
      exact ⟨k, hmin _ _ hk, hle, hk⟩

theorem memalign_contract_sample : ∃ l l' a, HeapOk sampleRun.heap l ∧
    (mmMemalign sampleRun.heap 64 40).2 = a + 8 ∧ 64 ∣ a + 8 ∧
    HeapOk (mmMemalign sampleRun.heap 64 40).1 l' := by
  obtain ⟨l, hok⟩ := sampleRun_reachable.runOk
  obtain ⟨l', a, n, x, N, hret, hdvd, hok', -⟩ := memalign_contract hok.heap 64 40 ⟨6, rfl⟩
    (by decide) (fun _ => by decide) (by decide +kernel)
  exact ⟨l, l', a, hok.heap, hret, hdvd.1, hok'.1⟩

/-! ## Sizes that wrap around -/

/-- `mm_zalloc` -/
def mmZalloc (h : Heap) (size : Nat) : Heap × Nat :=
  let (h, alloc) := mmMalloc h size
  if alloc ≠ 0 then
    ({ h with mem := fun b => if alloc ≤ b ∧ b < alloc + size then 0 else h.mem b }, alloc)
  else (h, alloc)

/-- `mm_calloc` -/
def mmCalloc (h : Heap) (n elemSize : Nat) : Heap × Nat :=
  if n > 0 ∧ elemSize > 0 then mmZalloc h (u32 (n * elemSize)) else (h, 0)

/-- A function returned the payload of an allocated chunk that holds `size` bytes. -/
def Holds (size : Nat) (x : Heap × Nat) : Prop :=
  ∃ l a n, HeapOk x.1 l ∧ Live l a n ∧ x.2 = a + sizeofAllocnode ∧ size ≤ n - sizeofAllocnode

theorem mmZalloc_holds {h : Heap} {l : Layout} (hok : HeapOk h l) {size : Nat}
    (hs : size + 23 < 2 ^ 32) (hne : (mmZalloc h size).2 ≠ 0) : Holds size (mmZalloc h size) := by
  have hn := mmAlignUp_spec (show size + 8 + 15 < 2 ^ 32 by omega)
  rcases mmMalloc_spec hok hs with ⟨hnull, -⟩ | ⟨-, f, N, hret, hg⟩
  · simp [mmZalloc, hnull] at hne
  · have heq : mmZalloc h size = ({ (mmMalloc h size).1 with
        mem := fun b => if f.lo + 8 ≤ b ∧ b < f.lo + 8 + size then 0
          else (mmMalloc h size).1.mem b }, f.lo + 8) := by
      simp [mmZalloc, hret]
    -- only bytes of the payload are cleared
    obtain ⟨hrep, -⟩ := hg.ok.rep.setPayload (mmZalloc h size).1
      (by rw [heq]; exact ⟨rfl, rfl, rfl⟩)
      (fun b hb => by rw [heq]; exact if_neg (by omega))
    rw [heq] at hrep ⊢
    exact ⟨_, f.lo, mmAlignUp (size + 8), ⟨hrep, hg.ok.coalesced⟩,
      ⟨f.mem_spots_plug.mpr (.inr (by simp)), by omega⟩, rfl, by simp only [sizeofAllocnode]; omega⟩

/-- A chunk is shorter than a region. -/
theorem Holds.lt {size : Nat} {x : Heap × Nat} (h : Holds size x) : size < 2 ^ 31 := by
  obtain ⟨l, a, n, hok, hlive, -, hle⟩ := h
  have hshort := (hok.rep.ok.spotOk hlive.1).short
  simp only at hshort
  omega

/-- A search for nothing finds a node: `mm_nodelist[1]` at the latest. -/
theorem findChunk_zero {h : Heap} {S : Set Nat} (hs : FreeSet h S) :
    findChunk h 0 maxNodes (h.flink (h.nodelist 0)) ≠ 0 := by
  obtain ⟨L, hl, -, -⟩ := hs
  have hslot : ∀ i < mmNnodes, slot h (h.nodelist i) = i := fun i hi => slot_nodelist (hl.zero i hi)
  obtain ⟨pre, post, hL⟩ := append_of_mem (hl.heads 0 (by decide))
  have hlen := hl.length_le
  have hsorted := hl.sorted
  have hhead := hl.heads 1 (by decide)
  rw [hL] at hlen hsorted hhead
  rw [findChunk_eq hl 0 maxNodes pre _ post hL (by simp at hlen; omega)]
  -- the head of the next class stands behind this one
  have hpost : h.nodelist 1 ∈ post := by
    rcases mem_append.1 hhead with hpre | hrest
    · have hbefore := (pairwise_append.1 hsorted).2.2 _ hpre _ mem_cons_self
      rw [Before, hslot 1 (by decide), hslot 0 (by decide)] at hbefore
      omega
    · refine (mem_cons.1 hrest).resolve_left fun heq => ?_
      simp only [Heap.nodelist] at heq
      omega
  cases post with
  | nil => cases hpost
  | cons y post =>
    have hy := (hl.bound y (by simp [hL])).1
    simpa using hy.ne'

/-- No free chunk has the size of the request; its size wraps around, if it does, to that of the
smallest chunk. -/
def Refused (l : Layout) (size : Nat) : Prop :=
  size = 0 ∨ (size + sizeofAllocnode + 15 < 2 ^ 32 ∨ 2 ^ 32 ≤ size + 7) ∧
    ∀ a k, (a, ⟨k, false⟩) ∈ spots l → k < mmAlignUp (size + sizeofAllocnode)

theorem mmMalloc_null_iff {h : Heap} {l : Layout} (hok : HeapOk h l) {size : Nat}
    (hs : size < 2 ^ 32) : (mmMalloc h size).2 = 0 ↔ Refused l size := by
  rcases Nat.eq_zero_or_pos size with rfl | hpos
  · exact iff_of_true rfl (.inl rfl)
  by_cases hfits : size + 23 < 2 ^ 32
  · rw [(malloc_best_fit hok size hpos hfits).1, Refused, or_iff_right (by omega),
      and_iff_right (.inl hfits)]
  by_cases hsmall : 2 ^ 32 ≤ size + 7
  · -- the chunk size is that of a request of one byte
    have hsixteen : mmAlignUp (size + sizeofAllocnode) = mmAlignUp (1 + sizeofAllocnode) := by
      simp only [mmAlignUp, sizeofAllocnode, u32]
      omega
    have hone : mmMalloc h size = mmMalloc h 1 := by
      simp only [mmMalloc, hsixteen, if_neg (show ¬ size < 1 by omega), if_neg (lt_irrefl 1)]
    rw [hone, (malloc_best_fit hok 1 le_rfl (by decide)).1, Refused, or_iff_right (by omega),
      and_iff_right (.inr hsmall), hsixteen]
  · have hzero : mmAlignUp (size + sizeofAllocnode) = 0 := by
      simp only [mmAlignUp, sizeofAllocnode, u32]
      omega
    have hndx : (if mmMaxChunk ≤ 0 then mmNnodes - 1 else mmSize2ndx 0) = 0 := by decide
    have hne := findChunk_zero hok.rep.free
    refine iff_of_false ?_ ?_
    · rw [mmMalloc, if_neg (by omega), hzero]
      dsimp only
      rw [hndx, if_pos hne]
      simp [sizeofAllocnode]
    · simp only [Refused, sizeofAllocnode]
      omega

/-- **No short allocation**, if and only if the chunk size of the request does not wrap around or
the request is refused. -/
theorem allocations_hold {h : Heap} {l : Layout} (hok : HeapOk h l) :
    (∀ size < 2 ^ 32, ((mmMalloc h size).2 ≠ 0 → Holds size (mmMalloc h size)) ↔
      size + sizeofAllocnode + 15 < 2 ^ 32 ∨ Refused l size) ∧
    ∀ n elemSize, ((mmCalloc h n elemSize).2 ≠ 0 → Holds (n * elemSize) (mmCalloc h n elemSize)) ↔
      n * elemSize + sizeofAllocnode + 15 < 2 ^ 32 ∨ Refused l (u32 (n * elemSize)) := by
  constructor
  · intro size hsize
    by_cases hs : size + 23 < 2 ^ 32
    · refine iff_of_true (fun hne => ?_) (.inl hs)
      rcases mmMalloc_allocates hok hs with hnull | ⟨h', l', a, n, heq, hok', -, ha, hn, -⟩
      · rw [hnull] at hne
        exact absurd rfl hne
      · rw [heq]
        exact ⟨l', a, n, hok', ha, rfl, by simp only [sizeofAllocnode]; omega⟩
    · rw [or_iff_right (show ¬ size + sizeofAllocnode + 15 < 2 ^ 32 from hs),
        ← mmMalloc_null_iff hok hsize]
      refine ⟨fun h => not_not.1 fun hne => ?_, fun h0 hne => absurd h0 hne⟩
      have := (h hne).lt
      omega
  · intro n elemSize
    by_cases hs : n * elemSize + 23 < 2 ^ 32
    · refine iff_of_true (fun hne => ?_) (.inl hs)
      rw [mmCalloc, u32_eq_self (by omega)] at hne ⊢
      split_ifs at hne ⊢
      · exact mmZalloc_holds hok (by omega) hne
      · exact absurd rfl hne
    · -- no chunk is that long, so nothing may be returned
      have hpos : n > 0 ∧ elemSize > 0 :=
        ⟨Nat.pos_of_ne_zero fun h => hs (by simp [h]), Nat.pos_of_ne_zero fun h => hs (by simp [h])⟩
      have hret : (mmCalloc h n elemSize).2 = (mmMalloc h (u32 (n * elemSize))).2 := by
        rw [mmCalloc, if_pos hpos, mmZalloc]
        generalize mmMalloc h (u32 (n * elemSize)) = x
        obtain ⟨h', alloc⟩ := x
        dsimp only
        split <;> rfl
      have hlt : u32 (n * elemSize) < 2 ^ 32 := Nat.mod_lt _ (by decide)
      rw [or_iff_right (show ¬ n * elemSize + sizeofAllocnode + 15 < 2 ^ 32 from hs),
        ← mmMalloc_null_iff hok hlt, ← hret]
      refine ⟨fun h => not_not.1 fun hne => ?_, fun h0 hne => absurd h0 hne⟩
      have := (h hne).lt
      omega

theorem allocations_hold_sample : Holds 20 (mmMalloc sampleRun.heap 20) := by
  obtain ⟨l, hok⟩ := sampleRun_reachable.runOk
  exact ((allocations_hold hok.heap).1 20 (by decide)).2 (.inl (by decide)) (by decide +kernel)

/-- A request of `2 ^ 32 - 8` bytes gets the list head `mm_nodelist[1]`, and three elements of
2863311531 bytes get a chunk of sixteen bytes, header included. -/
theorem allocation_too_short :
    let h := sampleBoot.run.heap
    (mmMalloc h 4294967288).2 = h.nodelist 1 + sizeofAllocnode ∧
      (mmCalloc h 3 2863311531).2 = 4112 ∧
      (mmCalloc h 3 2863311531).1.size (4112 - sizeofAllocnode) = 16 := by
  decide

/-! ## Moving the break -/

/-- `mm_brkaddr` of region 0 -/
def mmBrkaddr (h : Heap) : Nat :=
  match h.mmRegions.head? with
  | some (_, heapend) => if heapend = 0 then 0 else u32 (heapend + sizeofAllocnode)
  | none => 0

/-- `MM_NPAGES`, for pages of `2 ^ pgshift` bytes -/
def mmNpages (pgshift size : Nat) : Nat := u32 (size + (2 ^ pgshift - 1)) / 2 ^ pgshift

/-- `mm_sbrk`: the heap afterwards, and the address or the value of `errno`. `pgalloc` is the page
allocator. -/
def mmSbrk (pgshift : Nat) (pgalloc : Nat → Nat → Nat) (h : Heap) (incr : Int) (maxbreak : Nat) :
    Heap × Except Int Nat :=
  if incr < 0 then (h, .error ENOSYS)
  else
    let brkaddr := mmBrkaddr h
    if 0 < incr then
      let pgincr := mmNpages pgshift incr.toNat
      if 0 < brkaddr ∧ usub maxbreak brkaddr < u32 (pgincr * 2 ^ pgshift) then (h, .error ENOMEM)
      else
        let allocbase := pgalloc brkaddr pgincr
        if allocbase = 0 then (h, .error EAGAIN)
        else
          let bytesize := u32 (pgincr * 2 ^ pgshift)
          if brkaddr ≠ 0 then (mmInitialize h.mem h.mmNodelist allocbase bytesize, .ok brkaddr)
          else (mmExtend h allocbase bytesize 0, .ok brkaddr)
    else (h, .ok brkaddr)

/-- The page allocator returns the break, or a base of its own if there is none, or fails. -/
def Pgalloc (pgalloc : Nat → Nat → Nat) : Prop :=
  ∀ brkaddr n, brkaddr ≠ 0 → pgalloc brkaddr n = brkaddr ∨ pgalloc brkaddr n = 0

/-- What `mm_sbrk` has to do with `bytes` of new pages: on an error nothing, otherwise to extend
region 0 of a heap that exists, and to create that of one that does not. -/
def SbrkKeeps (h : Heap) (bytes : Nat) (x : Heap × Except Int Nat) : Prop :=
  (∃ e, x = (h, .error e)) ∨ x.2 = .ok (mmBrkaddr h) ∧
    if mmBrkaddr h = 0 then ∃ r l, HeapOk x.1 (r :: l)
    else x.1.mmRegions.map Prod.fst = h.mmRegions.map Prod.fst ∧
      mmBrkaddr x.1 = mmBrkaddr h + bytes ∧
      ∀ l, HeapOk h l → ∃ l', HeapOk x.1 l' ∧ ∀ X, Kept X h l x.1 l'

theorem mmAddregion_regions (h : Heap) (heapstart heapsize : Nat) :
    (mmAddregion h heapstart heapsize).mmRegions = h.mmRegions ++
      [(mmAlignUp heapstart, usub (mmAlignDown (heapstart + heapsize)) sizeofAllocnode)] := by
  have hframe : (mmAddregion h heapstart heapsize).frame = (h.mmNodelist, u32 (h.mmHeapsize +
      usub (mmAlignDown (heapstart + heapsize)) (mmAlignUp heapstart)), h.mmRegions ++
      [(mmAlignUp heapstart, usub (mmAlignDown (heapstart + heapsize)) sizeofAllocnode)]) := by
    rw [mmAddregion, frame_mmAddfreechunk]
    rfl
  simp only [Heap.frame, Prod.mk.injEq] at hframe
  exact hframe.2.2

theorem mmInitialize_regions (mem : Mem) (nodelist heapstart heapsize : Nat) :
    (mmInitialize mem nodelist heapstart heapsize).mmRegions =
      [(mmAlignUp heapstart, usub (mmAlignDown (heapstart + heapsize)) sizeofAllocnode)] := by
  rw [mmInitialize, mmAddregion_regions, (sameFrame_linkHeads _ _).regions, nil_append]

/-- The break is the end of the first region. -/
theorem mmBrkaddr_eq {h : Heap} {r : Region} {l : Layout} (hok : HeapOk h (r :: l)) :
    mmBrkaddr h = u32 r.stop := by
  have hpos := (hok.rep.ok.region r mem_cons_self).pos
  have hstop := r.stop_eq
  simp only [mmBrkaddr, hok.rep.regions, map_cons, head?_cons, sizeofAllocnode]
  rw [if_neg (by omega), Nat.sub_add_cancel (by omega)]

/-- **`mm_sbrk`** of a positive increment does what it has to if and only if it fails: a heap that
exists gets another region in the place of its own, and one that does not exist none. -/
theorem sbrk_keeps_heap {h : Heap} (pgshift maxbreak : Nat) {pgalloc : Nat → Nat → Nat}
    (hpg : Pgalloc pgalloc) {incr : Int} (hincr : 0 < incr)
    (hheap : (∃ r l, HeapOk h (r :: l)) ∧ 0 < mmBrkaddr h ∨ h.mmRegions = []) :
    let bytes := u32 (mmNpages pgshift incr.toNat * 2 ^ pgshift)
    SbrkKeeps h bytes (mmSbrk pgshift pgalloc h incr maxbreak) ↔
      0 < mmBrkaddr h ∧ usub maxbreak (mmBrkaddr h) < bytes ∨
        pgalloc (mmBrkaddr h) (mmNpages pgshift incr.toNat) = 0 := by
  intro bytes
  rw [mmSbrk, if_neg (by omega)]
  dsimp only
  rw [if_pos hincr]
  by_cases hmax : 0 < mmBrkaddr h ∧ usub maxbreak (mmBrkaddr h) < bytes
  · rw [if_pos hmax]
    exact iff_of_true (.inl ⟨_, rfl⟩) (.inl hmax)
  rw [if_neg hmax]
  by_cases hnone : pgalloc (mmBrkaddr h) (mmNpages pgshift incr.toNat) = 0
  · rw [if_pos hnone]
    exact iff_of_true (.inl ⟨_, rfl⟩) (.inr hnone)
  rw [if_neg hnone]
  refine iff_of_false ?_ (not_or.2 ⟨hmax, hnone⟩)
  rcases hheap with ⟨⟨r, l, hok⟩, hbrk⟩ | hempty
  · -- the only region starts at the break
    rw [if_pos hbrk.ne', (hpg _ _ hbrk.ne').resolve_right hnone]
    rintro (⟨e, he⟩ | ⟨-, hext⟩)
    · exact absurd (congrArg Prod.snd he) (by simp)
    simp only [if_neg hbrk.ne', mmInitialize_regions, hok.rep.regions, map_cons] at hext
    have hstart : mmAlignUp (mmBrkaddr h) = r.base := (cons_eq_cons.1 hext.1).1
    have hregion := hok.rep.ok.region r mem_cons_self
    have hstop := r.stop_eq
    have haligned := hregion.aligned
    have hgran := dvd_total hregion.granular
    have hfits := hregion.fits
    rw [mmBrkaddr_eq hok] at hstart hbrk
    simp only [mmAlignUp, u32] at hstart hbrk
    omega
  · have hzero : mmBrkaddr h = 0 := by rw [mmBrkaddr, hempty]; rfl
    have hsame : ∀ base size, mmExtend h base size 0 = h := fun base size => by
      rw [mmExtend, hempty]
      rfl
    rw [if_neg (not_not.2 hzero), hsame]
    rintro (⟨e, he⟩ | ⟨-, hcreated⟩)
    · exact absurd (congrArg Prod.snd he) (by simp)
    rw [if_pos hzero] at hcreated
    obtain ⟨r, l, hok⟩ := hcreated
    exact absurd (hempty.symm.trans hok.rep.regions) (by simp)

/-- There are no more pages. -/
theorem sbrk_keeps_heap_sample :
    SbrkKeeps sampleRun.heap (u32 (mmNpages 12 (1 : Int).toNat * 2 ^ 12))
      (mmSbrk 12 (fun _ _ => 0) sampleRun.heap 1 65536) := by
  obtain ⟨l, hok⟩ := sampleRun_reachable.runOk
  have hbrk : 0 < mmBrkaddr sampleRun.heap := by decide +kernel
  have hsome : sampleRun.heap.mmRegions ≠ [] := by decide +kernel
  have hheap : ∃ r l, HeapOk sampleRun.heap (r :: l) := by
    cases l with
    | nil => exact absurd hok.heap.rep.regions hsome
    | cons r l => exact ⟨r, l, hok.heap⟩
  generalize sampleRun.heap = h at hbrk hheap ⊢
  exact (sbrk_keeps_heap 12 65536 (fun _ _ _ => .inr rfl) (by decide) (.inl ⟨hheap, hbrk⟩)).2
    (.inr rfl)

/-- The block at 4224 is live, and the heap after `mm_sbrk` has only the region of the new page. -/
theorem sbrk_drops_heap :
    4224 ∈ sampleRun.live ∧
      (mmSbrk 12 (fun b _ => b) sampleRun.heap 1 65536).1.mmRegions = [(5120, 9208)] := by
  decide +kernel

end BaseNx.Mm
