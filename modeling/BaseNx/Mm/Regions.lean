import BaseNx.Mm.Realloc

/-!
# Starting and growing the heap

`mm_initialize` links the heads of the size classes and gives the heap its first region
(`mmInitialize_spec`), `mm_addregion` gives it another one (`mmAddregion_spec`) and `mm_extend`
moves the end of a region (`mmExtend_spec`). The first two write headers into memory that no chunk
of the heap uses yet; the third turns the guard at the end of a region into an allocated chunk and
releases it.
-/

namespace BaseNx.Mm

open ByteMem LinkedList BaseNx.Lib List Heap

theorem Rep.relayout {h h' : Heap} {l l' : Layout} {lo hi : Nat} (hr : Rep h l 0 0)
    (hn : h'.mmNodelist = h.mmNodelist) (hok : LayoutOk h.mmNodelist l')
    (hregions : h'.mmRegions = l'.map fun r => (r.base, r.stop - 8))
    (hh : ∀ r ∈ l', Headers h' r.base 0 r.line)
    (hheads : ∀ b, h.mmNodelist ≤ b → b < h.mmNodelist + 16 * mmNnodes → h'.mem b = h.mem b)
    (hbytes : ∀ q ∈ spots l, q.2.used = false →
      ∀ b, q.1 ≤ b → b < q.1 + q.2.size → h'.mem b = h.mem b)
    (hfree : ∀ a, IsFree l a ↔ IsFree l' a ∧ ¬ (lo ≤ a ∧ a < hi)) : Rep h' l' lo hi := by
  refine ⟨hn ▸ hok, hregions, hh, ?_⟩
  have hset : {a | IsFree l' a ∧ ¬ (lo ≤ a ∧ a < hi)} = {a | IsFree l a ∧ ¬ (0 ≤ a ∧ a < 0)} := by
    ext a
    simp only [Set.mem_ofPred_eq, hfree a]
    constructor
    · exact fun ha => ⟨ha, by omega⟩
    · exact fun ha => ha.1
  rw [hset]
  refine hr.free.congr hn fun a ha => node_words_of_bytes fun b h1 h2 => ?_
  rcases ha with ⟨i, hi, rfl⟩ | ⟨hfree', -⟩
  · simp only [Heap.nodelist, mmNnodes] at h1 h2 hi
    exact hheads b (by omega) (by simp only [mmNnodes]; omega)
  · obtain ⟨c, hc, hu, hsize, -⟩ := hfree'.spot hr.ok
    exact hbytes (a, c) hc hu b h1 (by simp only; omega)

/-! ## Another region -/

section Addregion

variable {h : Heap} {l : Layout} {r : Region}

theorem LayoutOk.outside_last {nl : Nat} (hok : LayoutOk nl (l ++ [r])) {q : Nat × Chunk}
    (hq : q ∈ spots l) : q.1 + q.2.size ≤ r.base ∨ r.stop ≤ q.1 := by
  obtain ⟨s, hs, hq⟩ := mem_spots.mp hq
  have hdis := (pairwise_append.mp hok.disjoint).2.2 s hs r (by simp)
  have hb := placed_bounds hq
  simp only [Region.stop] at hdis ⊢
  omega

theorem spots_append (l l' : Layout) : spots (l ++ l') = spots l ++ spots l' :=
  flatMap_append

/-- The header stores of `mm_addregion`: the node of the new region is not in the list yet. -/
theorem Rep.addregion (hr : Rep h l 0 0) (h' : Heap) (hn : h'.mmNodelist = h.mmNodelist)
    (hregions : h'.mmRegions = h.mmRegions ++ [(r.base, r.stop - 8)])
    (hbytes : ∀ b, b < r.base ∨ r.stop ≤ b → h'.mem b = h.mem b)
    (hok : LayoutOk h.mmNodelist (l ++ [r])) (hh : Headers h' r.base 0 r.line) :
    Rep h' (l ++ [r]) r.base r.stop ∧ ∀ X, Kept X h l h' (l ++ [r]) := by
  have hin : ∀ q ∈ placed r.base r.line, r.base ≤ q.1 ∧ q.1 < r.stop := by
    intro q hq
    have h8 := (hok.spotOk (mem_spots.mpr ⟨r, by simp, hq⟩)).eight
    have hb := placed_bounds hq
    simp only [Region.stop]
    omega
  have hout : ∀ q ∈ spots l, ∀ b, q.1 ≤ b → b < q.1 + q.2.size → h'.mem b = h.mem b := by
    intro q hq b h1 h2
    have := hok.outside_last hq
    exact hbytes b (by omega)
  constructor
  · refine hr.relayout hn hok ?_ ?_ ?_ (fun q hq _ => hout q hq) ?_
    · rw [hregions, hr.regions]
      simp
    · intro s hs
      rcases mem_append.mp hs with hs | hs
      · refine (hr.headers s hs).congr fun q hq b h1 h2 => ?_
        have hq' : q ∈ spots l := mem_spots.mpr ⟨s, hs, hq⟩
        have h8 := (hr.ok.spotOk hq').eight
        exact hout q hq' b h1 (by omega)
      · rw [mem_singleton.mp hs]
        exact hh
    · intro b h1 h2
      have := hok.heads r (by simp)
      exact hbytes b (by omega)
    · intro a
      simp only [IsFree, spots_append, mem_append]
      constructor
      · rintro ⟨c, hc, hu⟩
        have h8 := (hr.ok.spotOk hc).eight
        have := hok.outside_last hc
        exact ⟨⟨c, .inl hc, hu⟩, by simp only at this h8; omega⟩
      · rintro ⟨⟨c, hc | hc, hu⟩, hna⟩
        · exact ⟨c, hc, hu⟩
        · exact absurd (hin _ (by simpa [spots] using hc)) hna
  · rintro X a n ⟨hspot, hn8⟩ -
    refine ⟨⟨?_, hn8⟩, fun b h1 h2 => hout _ hspot b (by simp only; omega) h2⟩
    rw [spots_append]
    exact mem_append_left _ hspot

/-- The first address of the region that `mm_addregion` makes of a block. -/
def regionBase (heapstart : Nat) : Nat := (heapstart + 15) / 16 * 16

/-- The address behind the region that `mm_addregion` makes of a block. -/
def regionStop (heapstart heapsize : Nat) : Nat := (heapstart + heapsize) / 16 * 16

/-- A block of memory that a caller may give to the heap: it is not in use and has room for both
guards and a free node. -/
structure NewRegion (h : Heap) (heapstart heapsize : Nat) : Prop where
  pos : 0 < heapstart
  fits : heapstart + heapsize ≤ 2 ^ 32
  room : regionBase heapstart + 32 ≤ regionStop heapstart heapsize
  disjoint : ∀ p ∈ h.mmRegions,
    regionStop heapstart heapsize ≤ p.1 ∨ p.2 + sizeofAllocnode ≤ regionBase heapstart
  heads : regionStop heapstart heapsize ≤ h.mmNodelist ∨
    h.mmNodelist + sizeofFreenode * mmNnodes ≤ regionBase heapstart

/-- The headers of a region with a single node, as `mm_addregion` writes them. -/
def regionStores (h : Heap) (base n : Nat) : Heap :=
  (((((h.setSize base 8).setPreceding base mmAllocBit).setSize (base + 8) n).setPreceding (base + 8)
    8).setSize (base + 8 + n) 8).setPreceding (base + 8 + n) (n ||| mmAllocBit)

/-- The heap with a new region, before its node is in the list. -/
def withRegion (h : Heap) (heapstart heapsize : Nat) : Heap :=
  regionStores
    { h with
      mmHeapsize := u32 (h.mmHeapsize + (regionStop heapstart heapsize - regionBase heapstart))
      mmRegions := h.mmRegions ++ [(regionBase heapstart, regionStop heapstart heapsize - 8)] }
    (regionBase heapstart) (regionStop heapstart heapsize - regionBase heapstart - 16)

/-- The layout of a new region. -/
def newRegion (heapstart heapsize : Nat) : Region :=
  ⟨regionBase heapstart, [⟨regionStop heapstart heapsize - regionBase heapstart - 16, false⟩]⟩

variable {heapstart heapsize : Nat}

theorem newRegion_stop (hroom : regionBase heapstart + 32 ≤ regionStop heapstart heapsize) :
    (newRegion heapstart heapsize).stop = regionStop heapstart heapsize := by
  simp only [Region.stop_eq, newRegion, total_cons, total_nil]
  omega

theorem mmAddregion_eq (hnew : NewRegion h heapstart heapsize) :
    mmAddregion h heapstart heapsize =
      mmAddfreechunk (withRegion h heapstart heapsize) (regionBase heapstart + 8) := by
  have hfits := hnew.fits
  have hroom := hnew.room
  have hbase : mmAlignUp heapstart = regionBase heapstart := by
    simp only [regionBase, regionStop, mmAlignUp, u32] at hroom ⊢
    omega
  have hend : mmAlignDown (heapstart + heapsize) = u32 (regionStop heapstart heapsize) := by
    simp only [regionStop, mmAlignDown, u32]
    omega
  have hstop : regionStop heapstart heapsize ≤ 2 ^ 32 := by
    simp only [regionStop]
    omega
  have hpos : 0 < regionBase heapstart := by
    have := hnew.pos
    simp only [regionBase]
    omega
  unfold withRegion
  generalize regionStop heapstart heapsize = stop at *
  generalize regionBase heapstart = base at *
  have hlen : usub (u32 stop) base = stop - base := by
    simp only [usub, u32]
    omega
  have hguard : usub (u32 stop) 8 = base + 8 + (stop - base - 16) := by
    simp only [usub, u32]
    omega
  have hnode : usub (stop - base) (2 * 8) = stop - base - 16 := by
    simp only [usub, u32]
    omega
  simp only [mmAddregion, hbase, hend, sizeofAllocnode, hlen, hguard, hnode]
  rw [show stop - 8 = base + 8 + (stop - base - 16) by omega]
  generalize hn : stop - base - 16 = n at *
  simp only [regionStores, Heap.size, Heap.setSize, Heap.setPreceding]
  simp (disch := omega) only [word_setWord_disjoint, word_setWord]

theorem regionStores_bytes (h : Heap) (base n : Nat) {b : Nat}
    (hb : b < base ∨ base + 16 + n ≤ b) : (regionStores h base n).mem b = h.mem b := by
  simp only [regionStores, Heap.setSize, Heap.setPreceding]
  simp (disch := omega) only [mem_setWord_outside]

theorem regionStores_headers (h : Heap) {base n : Nat} (hn : 16 ≤ n) (hlt : n < 2 ^ 31) :
    Headers (regionStores h base n) base 0 (Region.line ⟨base, [⟨n, false⟩]⟩) := by
  have hor := or_allocBit hlt
  have h8 : (8 : Nat) < 2 ^ 32 := by decide
  have hbit : mmAllocBit = 2 ^ 31 := by decide
  simp only [Region.line, guardChunk, singleton_append, Headers, Chunk.tag, and_true, if_true,
    Bool.false_eq_true, if_false, regionStores, Heap.size, Heap.preceding, Heap.setSize,
    Heap.setPreceding, hor, zero_add]
  simp (disch := omega) only [word_setWord_disjoint, word_setWord]
  simp

/-- **Adding a region.** The heap gains a free chunk between two guards, and nothing moves. -/
theorem mmAddregion_spec (hok : HeapOk h l) (hnew : NewRegion h heapstart heapsize)
    (hshort : regionStop heapstart heapsize - regionBase heapstart ≤ 2 ^ 31) :
    HeapOk (mmAddregion h heapstart heapsize) (l ++ [newRegion heapstart heapsize]) ∧
      ∀ X, Kept X h l (mmAddregion h heapstart heapsize) (l ++ [newRegion heapstart heapsize]) := by
  have hroom := hnew.room
  have hstop := newRegion_stop hroom
  have hdvd : 16 ∣ regionBase heapstart ∧ 16 ∣ regionStop heapstart heapsize :=
    ⟨Dvd.intro_left _ rfl, Dvd.intro_left _ rfl⟩
  have hbase : (newRegion heapstart heapsize).base = regionBase heapstart := rfl
  have hregion : RegionOk (newRegion heapstart heapsize) := by
    refine ⟨?_, hdvd.1, ?_, ?_, ?_⟩
    · intro c hc
      rw [mem_singleton.mp hc]
      simp only [Chunk.Granular]
      omega
    · have := hnew.pos
      simp only [hbase, regionBase]
      omega
    · simp only [Region.total_line, newRegion, total_cons, total_nil]
      omega
    · have := hnew.fits
      simp only [hstop, regionStop]
      omega
  have hlayout : LayoutOk h.mmNodelist (l ++ [newRegion heapstart heapsize]) := by
    refine ⟨?_, pairwise_append.mpr ⟨hok.rep.ok.disjoint, by simp, ?_⟩, ?_, hok.rep.ok.pos,
      hok.rep.ok.fits⟩
    · exact forall_mem_append.2 ⟨hok.rep.ok.region, fun s hs => mem_singleton.mp hs ▸ hregion⟩
    · intro s hs t ht
      have hdis := hnew.disjoint (s.base, s.stop - 8) (by
        rw [hok.rep.regions]
        exact mem_map_of_mem hs)
      have := s.stop_eq
      rw [mem_singleton.mp ht, hstop, hbase]
      simp only [sizeofAllocnode] at hdis
      omega
    · intro s hs
      rcases mem_append.mp hs with hs | hs
      · exact hok.rep.ok.heads s hs
      · rw [mem_singleton.mp hs, hstop, hbase]
        exact hnew.heads
  have hn : 16 ≤ regionStop heapstart heapsize - regionBase heapstart - 16 := by omega
  rw [mmAddregion_eq hnew]
  have hlen :
    regionBase heapstart + 16 + (regionStop heapstart heapsize - regionBase heapstart - 16)
      = regionStop heapstart heapsize := by omega
  obtain ⟨hr₁, hk₁⟩ := hok.rep.addregion (r := newRegion heapstart heapsize)
    (withRegion h heapstart heapsize) rfl (by rw [hstop]; rfl)
    (fun b hb => regionStores_bytes _ _ _ (by rw [hstop, hbase] at hb; omega)) hlayout
    (regionStores_headers _ hn (by omega))
  -- the only free chunk of the region is its node
  have hspots : ∀ q, q ∈ spots [newRegion heapstart heapsize] ∧ q.2.used = false ↔
      q = (regionBase heapstart + 8,
        ⟨regionStop heapstart heapsize - regionBase heapstart - 16, false⟩) := by
    rintro ⟨a, n, u⟩
    simp only [spots, flatMap_singleton, Region.placed_line, newRegion, placed_cons, placed_nil,
      singleton_append, mem_cons, not_mem_nil, or_false, Prod.mk.injEq, guardChunk,
      Chunk.mk.injEq]
    constructor
    · rintro ⟨⟨-, -, rfl⟩ | heq | ⟨-, -, rfl⟩, hu⟩
      · cases hu
      · exact heq
      · cases hu
    · exact fun heq => ⟨.inr (.inl heq), heq.2.2⟩
  have hfree : IsFree (l ++ [newRegion heapstart heapsize]) (regionBase heapstart + 8) := by
    have hnode := (hspots _).mpr rfl
    exact ⟨_, spots_append l _ ▸ mem_append_right _ hnode.1, hnode.2⟩
  obtain ⟨hr₂, hk₂⟩ : Rep (mmAddfreechunk _ (regionBase heapstart + 8)) _ 0 0 ∧ _ :=
    hr₁.addfreechunk hfree
    (by rw [hstop, hbase]; omega) (by
      rintro a ⟨c, hc, hu⟩
      rw [spots_append, mem_append] at hc
      rw [hstop, hbase]
      rcases hc with hc | hc
      · have h8 := (hok.rep.ok.spotOk hc).eight
        have := hlayout.outside_last hc
        omega
      · have := (Prod.mk.inj ((hspots _).mp ⟨hc, hu⟩)).1
        omega) (by omega)
  refine ⟨⟨hr₂, ?_⟩, fun X => (hk₁ X).trans (hk₂ X)⟩
  intro s hs
  rcases mem_append.mp hs with hs | hs
  · exact hok.coalesced s hs
  · rw [mem_singleton.mp hs]
    simp [NoAdjacent, Region.line, newRegion, guardChunk]

end Addregion

/-! ## The heads -/

/-- The first `n` heads are linked to the head behind them; all other links are NULL. -/
structure HeadsLinked (h : Heap) (n : Nat) : Prop where
  size : ∀ j < mmNnodes, h.size (h.nodelist j) = 0
  flink : ∀ j < mmNnodes, h.flink (h.nodelist j) = if j < n then h.nodelist (j + 1) else 0
  blink : ∀ j < mmNnodes,
    h.blink (h.nodelist j) = if 0 < j ∧ j ≤ n then h.nodelist (j - 1) else 0

section Heads

variable {h : Heap}

theorem Heap.mmNodelist_setWord (h : Heap) (a v : Nat) :
    (h.setWord a v).mmNodelist = h.mmNodelist :=
  rfl

/-- One iteration of the loop of `mm_initialize`. -/
theorem HeadsLinked.step {n : Nat} (hh : HeadsLinked h n) (hn : n + 1 < mmNnodes)
    (hfits : h.mmNodelist + 16 * mmNnodes ≤ 2 ^ 32) :
    HeadsLinked ((h.setFlink (h.nodelist n) (h.nodelist (n + 1))).setBlink (h.nodelist (n + 1))
      (h.nodelist n)) (n + 1) := by
  have hlt : ∀ j < mmNnodes, h.nodelist j < 2 ^ 32 := by
    intro j hj
    simp only [Heap.nodelist, mmNnodes] at hj hfits ⊢
    omega
  have h1 := hlt n (by omega)
  have h2 := hlt (n + 1) hn
  obtain ⟨hsize, hflink, hblink⟩ := hh
  simp only [Heap.size, Heap.flink, Heap.blink, Heap.nodelist] at hsize hflink hblink h1 h2
  constructor <;> intro j hj <;> simp only [Heap.size, Heap.flink, Heap.blink, Heap.setFlink,
    Heap.setBlink, Heap.nodelist, mmNodelist_setWord]
  · simpa (disch := omega) only [word_setWord_disjoint] using hsize j hj
  · by_cases hjn : j = n
    · subst hjn
      simp (disch := omega) only [word_setWord_disjoint, word_setWord]
      simp
    · simp (disch := omega) only [word_setWord_disjoint, hflink j hj]
      split_ifs <;> omega
  · by_cases hjn : j = n + 1
    · subst hjn
      simp (disch := omega) only [word_setWord]
      simp
    · simp (disch := omega) only [word_setWord_disjoint, hblink j hj]
      split_ifs <;> omega

theorem sameFrame_linkHeads (h : Heap) (n : Nat) : SameFrame h (linkHeads h n) := by
  induction n with
  | zero => exact SameFrame.rfl
  | succ n ih => exact ih.trans ((sameFrame_setWord _ _ _).trans (sameFrame_setWord _ _ _))

theorem linkHeads_spec (hh : HeadsLinked h 0) (hfits : h.mmNodelist + 16 * mmNnodes ≤ 2 ^ 32)
    {n : Nat} (hn : n < mmNnodes) : HeadsLinked (linkHeads h n) n := by
  induction n with
  | zero => exact hh
  | succ n ih =>
    refine (ih (by omega)).step hn ?_
    rw [(sameFrame_linkHeads h n).nodelist]
    exact hfits

theorem HeadsLinked.freeSet (hh : HeadsLinked h (mmNnodes - 1)) (hpos : 0 < h.mmNodelist)
    (hfits : h.mmNodelist + 16 * mmNnodes ≤ 2 ^ 32) : FreeSet h ∅ := by
  refine ⟨(range' 0 mmNnodes).map h.nodelist, ?_, by simp, ?_⟩
  · have hmem : ∀ a ∈ (range' 0 mmNnodes).map h.nodelist, ∃ i < mmNnodes, a = h.nodelist i := by
      intro a ha
      obtain ⟨i, hi, rfl⟩ := mem_map.mp ha
      exact ⟨i, by simpa using hi, rfl⟩
    have hrange : (range' 0 mmNnodes).Pairwise fun i j => i < j ∧ j < mmNnodes := by
      decide
    exact
      { linked := by
          refine linked_map_range' (fun i _ hi => ?_) (fun i hi => ?_)
          · rw [hh.flink i (by omega), hh.blink (i + 1) (by omega)]
            rw [if_pos (by omega), if_pos (by omega)]
            exact ⟨rfl, rfl⟩
          · rw [hh.flink i (by omega), if_neg (by omega)]
        first := by simpa using hh.blink 0 (by decide)
        apart := pairwise_map.mpr (hrange.imp fun hij => by
          simp only [Apart, Heap.nodelist]
          omega)
        bound := fun a ha => by
          obtain ⟨i, hi, rfl⟩ := hmem a ha
          simp only [Heap.nodelist, mmNnodes] at hi hfits ⊢
          omega
        heads := fun i hi => mem_map_of_mem (by simpa using hi)
        zero := hh.size
        isHead := fun a ha _ => hmem a ha
        sorted := pairwise_map.mpr (hrange.imp fun {i j} hij => .inl (by
          rw [slot_nodelist (hh.size i (by omega)), slot_nodelist (hh.size j hij.2)]
          exact hij.1)) }
  · intro a
    simp [eq_comm]

/-- **Starting the heap.** The heap is one free chunk between two guards. -/
theorem mmInitialize_spec {mem : Mem} {nodelist heapstart heapsize : Nat} (hpos : 0 < nodelist)
    (hfits : nodelist + 16 * mmNnodes ≤ 2 ^ 32)
    (hnew : NewRegion ⟨mem, nodelist, 0, []⟩ heapstart heapsize)
    (hshort : regionStop heapstart heapsize - regionBase heapstart ≤ 2 ^ 31) :
    HeapOk (mmInitialize mem nodelist heapstart heapsize) [newRegion heapstart heapsize] := by
  rw [mmInitialize]
  generalize hcleared : (fun b =>
    if nodelist ≤ b ∧ b < nodelist + sizeofFreenode * mmNnodes then 0 else mem b : Mem) = cleared
  have hzero : ∀ j < mmNnodes, ∀ k, k + 4 ≤ 16 → load32 cleared (nodelist + 16 * j + k) = 0 := by
    intro j hj k hk
    refine (load32_congr (m := fun _ => 0) fun b h1 h2 => ?_).trans rfl
    simp only [← hcleared, sizeofFreenode, mmNnodes] at hj ⊢
    exact if_pos (by omega)
  have h0 : HeadsLinked ⟨cleared, nodelist, 0, []⟩ 0 := by
    constructor
    · exact fun j hj => hzero j hj 0 (by decide)
    · intro j hj
      rw [if_neg (by omega)]
      exact hzero j hj 8 (by decide)
    · intro j hj
      rw [if_neg (by omega)]
      exact hzero j hj 12 (by decide)
  have hlinked := linkHeads_spec h0 hfits (n := mmNnodes - 1) (by decide)
  have hframe := sameFrame_linkHeads ⟨cleared, nodelist, 0, []⟩ (mmNnodes - 1)
  generalize linkHeads ⟨cleared, nodelist, 0, []⟩ (mmNnodes - 1) = h₁ at *
  have hnl : h₁.mmNodelist = nodelist := hframe.nodelist
  have hempty : HeapOk h₁ [] := by
    refine ⟨⟨⟨by simp, .nil, by simp, by omega, by omega⟩, hframe.regions, by simp, ?_⟩,
      by simp [Coalesced]⟩
    have hset : {a | IsFree [] a ∧ ¬ (0 ≤ a ∧ a < 0)} = ∅ := by
      ext a
      simp [IsFree, spots]
    rw [hset]
    exact hlinked.freeSet (by omega) (by omega)
  refine (mmAddregion_spec hempty ⟨hnew.pos, hnew.fits, hnew.room, ?_, ?_⟩ hshort).1
  · rw [hframe.regions]
    exact hnew.disjoint
  · rw [hnl]
    exact hnew.heads

end Heads

/-! ## Moving the end of a region -/

section Extend

variable {h : Heap} {f : Focus} {n : Nat}

/-- The stores of `mm_extend`: the guard becomes a chunk of size `n`, with a new guard behind it. -/
def extendStores (h : Heap) (oldnode n : Nat) : Heap :=
  ((h.setSize oldnode n).setSize (oldnode + n) 8).setPreceding (oldnode + n) (n ||| mmAllocBit)

theorem extendStores_bytes (h : Heap) {oldnode n b : Nat}
    (hb : b < oldnode ∨ oldnode + 4 ≤ b ∧ b < oldnode + n ∨ oldnode + n + 8 ≤ b) :
    (extendStores h oldnode n).mem b = h.mem b := by
  simp only [extendStores, Heap.setSize, Heap.setPreceding]
  simp (disch := omega) only [mem_setWord_outside]

theorem mem_spots_extend (hright : f.right = []) {q : Nat × Chunk} :
    (q ∈ spots (f.plug []) ↔ q = (f.lo, guardChunk) ∨ q ∈ f.far n guardChunk []) ∧
      (q ∈ spots (f.plug [⟨n, true⟩]) ↔ q = (f.lo, ⟨n, true⟩) ∨ q = (f.lo + n, guardChunk) ∨
        q ∈ f.far n guardChunk []) := by
  have hd : f.right ++ [guardChunk] = guardChunk :: [] := by rw [hright]; rfl
  have hfar : f.far 0 guardChunk [] = f.far n guardChunk [] := rfl
  rw [f.mem_spots_plug, f.mem_spots_plug, Focus.mem_outer hd, Focus.mem_outer hd]
  simp only [total_nil, total_cons, placed_nil, placed_cons, not_mem_nil, or_false,
    mem_singleton, add_zero, hfar]
  exact ⟨trivial, by tauto⟩

/-- The memory behind a region that `mm_extend` may take. -/
structure ExtendOk (f : Focus) (nodelist n : Nat) : Prop where
  right : f.right = []
  granular : 16 ∣ n ∧ 0 < n
  fits : f.lo + 8 + n ≤ 2 ^ 32
  short : f.lo + 8 + n - f.base ≤ 2 ^ 31
  disjoint : ∀ r, r ∈ f.above ∨ r ∈ f.below → r.stop ≤ f.lo + 8 ∨ f.lo + 8 + n ≤ r.base
  heads : f.lo + 8 + n ≤ nodelist ∨ nodelist + 16 * mmNnodes ≤ f.lo + 8

theorem ExtendOk.layoutOk {nl : Nat} (he : ExtendOk f nl n) (hl : LayoutOk nl (f.plug [])) :
    LayoutOk nl (f.plug [⟨n, true⟩]) := by
  have hold : (⟨f.base, f.left ++ ([] ++ f.right)⟩ : Region) ∈ f.plug [] := by simp [Focus.plug]
  have hok := hl.region _ hold
  have hstop : (⟨f.base, f.left ++ ([] ++ f.right)⟩ : Region).stop = f.lo + 8 := by
    simp only [Region.stop_eq, he.right, append_nil, Focus.lo]
    omega
  have hstop' : (⟨f.base, f.left ++ ([⟨n, true⟩] ++ f.right)⟩ : Region).stop = f.lo + 8 + n := by
    simp only [Region.stop_eq, he.right, append_nil, Focus.lo, total_append, total_cons, total_nil]
    omega
  have hfits := he.fits
  have hshort := he.short
  -- another region ends in front of this one or starts behind the memory taken
  have hother : ∀ r ∈ f.above ++ f.below,
      (r.stop ≤ f.base ∨ f.lo + 8 ≤ r.base) → r.stop ≤ f.base ∨ f.lo + 8 + n ≤ r.base := by
    intro r hr hdis
    have := he.disjoint r (mem_append.mp hr)
    have := r.stop_eq
    omega
  obtain ⟨hself, hrest⟩ := pairwise_cons.mp ((pairwise_middle Or.symm).mp hl.disjoint)
  refine ⟨?_, (pairwise_middle Or.symm).mpr (pairwise_cons.mpr ⟨?_, hrest⟩), ?_, hl.pos, hl.fits⟩
  · intro r hr
    rcases mem_append.mp hr with hr | hr
    · exact hl.region r (mem_append_left _ hr)
    rcases mem_cons.mp hr with rfl | hr
    · refine ⟨?_, hok.aligned, hok.pos, ?_, hstop' ▸ hfits⟩
      · intro c hc
        rcases mem_append.mp hc with hc | hc
        · exact hok.granular c (mem_append_left _ hc)
        · rw [he.right, append_nil, mem_singleton] at hc
          exact hc ▸ he.granular
      · have : (⟨f.base, f.left ++ ([⟨n, true⟩] ++ f.right)⟩ : Region).stop
            = f.base + total (⟨f.base, f.left ++ ([⟨n, true⟩] ++ f.right)⟩ : Region).line := rfl
        omega
    · exact hl.region r (by simp [Focus.plug, hr])
  · intro r hr
    have hdis := hself r hr
    have := hother r hr
    rw [hstop']
    simp only at hdis ⊢
    omega
  · intro r hr
    rcases mem_append.mp hr with hr | hr
    · exact hl.heads r (mem_append_left _ hr)
    rcases mem_cons.mp hr with rfl | hr
    · have hdis := hl.heads _ hold
      have hheads := he.heads
      rw [hstop']
      simp only [mmNnodes] at hdis hheads ⊢
      omega
    · exact hl.heads r (by simp [Focus.plug, hr])

theorem extendStores_spec (hok : HeapOk h (f.plug [])) (he : ExtendOk f h.mmNodelist n)
    (h' : Heap) (hmem : h'.mem = (extendStores h f.lo n).mem) (hn : h'.mmNodelist = h.mmNodelist)
    (hregions : h'.mmRegions = (f.plug [⟨n, true⟩]).map fun r => (r.base, r.stop - 8)) :
    HeapOk h' (f.plug [⟨n, true⟩]) ∧ ∀ X, Kept X h (f.plug []) h' (f.plug [⟨n, true⟩]) := by
  have hl := he.layoutOk hok.rep.ok
  have hshort := he.short
  have hn16 := he.granular
  have hd : f.right ++ [guardChunk] = guardChunk :: [] := by rw [he.right]; rfl
  have hfar : ∀ q ∈ f.far n guardChunk [], ∀ b, q.1 ≤ b → b < q.1 + q.2.size →
      h'.mem b = h.mem b := by
    intro q hq b h1 h2
    have := Focus.far_outside (W := [⟨n, true⟩]) hl hd (by simpa using hq)
    simp only [total_cons, total_nil, guardChunk] at this
    rw [hmem]
    exact extendStores_bytes h (by omega)
  have hfar8 : ∀ q ∈ f.far n guardChunk [], ∀ b, q.1 ≤ b → b < q.1 + 8 → h'.mem b = h.mem b := by
    intro q hq b h1 h2
    have := (hl.spotOk ((mem_spots_extend he.right).2.mpr (.inr (.inr hq)))).eight
    exact hfar q hq b h1 (by omega)
  obtain ⟨hout, hleft, -, hend⟩ := Focus.headers_plug.mp hok.rep.headers
  rw [hd] at hend
  have hbit : mmAllocBit = 2 ^ 31 := by decide
  have hbase : f.base + 8 ≤ f.lo := by simp only [Focus.lo]; omega
  have hword : ∀ a, h'.word a = (extendStores h f.lo n).word a := fun a => by
    simp only [Heap.word, hmem]
  have hheaders : ∀ r ∈ f.plug [⟨n, true⟩], Headers h' r.base 0 r.line := by
    refine Focus.headers_plug.mpr ⟨?_, ?_, ?_, ?_⟩
    · intro r hr
      refine (hout r hr).congr fun q hq => hfar8 q ?_
      simp only [Focus.far, mem_append]
      exact hr.elim (fun h => .inl (mem_spots.mpr ⟨r, h, hq⟩))
        fun h => .inr (.inr (.inr (mem_spots.mpr ⟨r, h, hq⟩)))
    · refine hleft.congr fun q hq => hfar8 q ?_
      simp only [Focus.far, mem_append]
      exact .inr (.inl hq)
    · refine ⟨?_, ?_, trivial⟩
      · rw [Heap.size, hword, extendStores]
        simp only [Heap.setSize, Heap.setPreceding]
        simp (disch := omega) only [word_setWord_disjoint, word_setWord]
      · rw [Heap.preceding, hword, extendStores]
        simp only [Heap.setSize, Heap.setPreceding]
        simp (disch := omega) only [word_setWord_disjoint]
        exact hend.2.1
    · rw [hd]
      simp only [Headers, Heap.size, Heap.preceding, hword, extendStores, total_cons, total_nil,
        lastSize_cons, lastSize_nil, add_zero, and_true, Heap.setSize, Heap.setPreceding,
        or_allocBit (show n < 2 ^ 31 by omega)]
      simp (disch := omega) only [word_setWord_disjoint, word_setWord]
      exact ⟨rfl, rfl⟩
  have hfree : ∀ a, IsFree (f.plug []) a ↔ IsFree (f.plug [⟨n, true⟩]) a ∧ ¬ (0 ≤ a ∧ a < 0) := by
    intro a
    simp only [IsFree, (mem_spots_extend (n := n) he.right).1, (mem_spots_extend he.right).2]
    constructor
    · rintro ⟨c, hc | hc, hu⟩
      · rw [(Prod.mk.inj hc).2] at hu
        cases hu
      · exact ⟨⟨c, .inr (.inr hc), hu⟩, by omega⟩
    · rintro ⟨⟨c, hc | hc | hc, hu⟩, -⟩
      · rw [(Prod.mk.inj hc).2] at hu
        cases hu
      · rw [(Prod.mk.inj hc).2] at hu
        cases hu
      · exact ⟨c, .inr hc, hu⟩
  refine ⟨⟨hok.rep.relayout hn hl hregions hheaders ?_ ?_ hfree, ?_⟩, ?_⟩
  · intro b h1 h2
    have hold := hok.rep.ok.heads ⟨f.base, f.left ++ ([] ++ f.right)⟩ (by simp [Focus.plug])
    have hheads := he.heads
    simp only [Region.stop_eq, he.right, append_nil, mmNnodes, Focus.lo] at *
    rw [hmem]
    exact extendStores_bytes h (by omega)
  · intro q hq hu
    rcases (mem_spots_extend (n := n) he.right).1.mp hq with rfl | hq
    · cases hu
    · exact hfar q hq
  · obtain ⟨haround, hrow⟩ := coalesced_plug.mp hok.coalesced
    refine coalesced_plug.mpr ⟨haround, ?_⟩
    have hnext : f.next = guardChunk := Focus.next_eq f hd
    simp [NoAdjacent, hnext, guardChunk]
  · rintro X a m ⟨hspot, hm⟩ -
    rcases (mem_spots_extend (n := n) he.right).1.mp hspot with heq | hq
    · exact absurd (congrArg Chunk.size (Prod.mk.inj heq).2) hm
    · exact ⟨⟨(mem_spots_extend he.right).2.mpr (.inr (.inr hq)), hm⟩,
        fun b h1 h2 => hfar _ hq b (by simp only; omega) h2⟩

/-- **Moving the end of a region.** The memory behind it becomes free, and nothing moves. -/
theorem mmExtend_spec {l : Layout} (hok : HeapOk h l) {size region heapstart guard : Nat}
    (hregion : h.mmRegions[region]? = some (heapstart, guard)) (hsize : 16 ∣ size ∧ 0 < size)
    (hfits : guard + 8 + size ≤ 2 ^ 32) (hshort : guard + 8 + size - heapstart ≤ 2 ^ 31)
    (hdisjoint : ∀ p ∈ h.mmRegions, p.2 + 8 ≤ guard + 8 ∨ guard + 8 + size ≤ p.1)
    (hheads : guard + 8 + size ≤ h.mmNodelist ∨ h.mmNodelist + 16 * mmNnodes ≤ guard + 8) :
    ∃ l', HeapOk (mmExtend h (guard + 8) size region) l' ∧
      ∀ X, Kept X h l (mmExtend h (guard + 8) size region) l' := by
  -- the region of that index
  have hregions := hok.rep.regions
  rw [hregions, getElem?_map] at hregion
  obtain ⟨r, hr, hpair⟩ := Option.map_eq_some_iff.mp hregion
  obtain ⟨rfl, rfl⟩ := Prod.mk.inj hpair
  obtain ⟨hlt, hget⟩ := List.getElem?_eq_some_iff.mp hr
  have hsplit : l = l.take region ++ r :: l.drop (region + 1) := by
    rw [← hget, getElem_cons_drop, take_append_drop]
  let f : Focus := ⟨l.take region, r.base, r.chunks, [], l.drop (region + 1)⟩
  have hplug : l = f.plug [] := by
    simp only [f, Focus.plug, append_nil]
    exact hsplit
  have hlo : r.stop - 8 = f.lo := by
    simp only [Region.stop_eq, f, Focus.lo]
    omega
  rw [hlo] at hfits hshort hdisjoint hheads ⊢
  have he : ExtendOk f h.mmNodelist size := by
    refine ⟨rfl, hsize, hfits, hshort, fun s hs => ?_, hheads⟩
    have hs' : s ∈ l := by
      rw [hplug, Focus.plug, mem_append, mem_cons]
      exact hs.imp id .inr
    have hdis := hdisjoint (s.base, s.stop - 8) (by rw [hregions]; exact mem_map_of_mem hs')
    have := s.stop_eq
    omega
  have heq : mmExtend h (f.lo + 8) size region = mmFree
      { extendStores h f.lo size with mmRegions := h.mmRegions.set region (r.base, f.lo + size) }
      (f.lo + 8) := by
    have hguard : usub (u32 (f.lo + 8 + size)) 8 = f.lo + size := by
      simp only [usub, u32]
      omega
    have hread : ((h.setSize f.lo size).setSize (f.lo + size) 8).size f.lo = size := by
      simp only [Heap.setSize, Heap.size]
      simp (disch := omega) only [word_setWord_disjoint, word_setWord]
    have hindex : h.mmRegions[region]? = some (r.base, f.lo) := by
      rw [hregions, getElem?_map, hr, ← hlo]
      rfl
    simp only [mmExtend, hindex, hguard, sizeofAllocnode, hread, extendStores]
    rfl
  have hset : h.mmRegions.set region (r.base, f.lo + size)
      = (f.plug [⟨size, true⟩]).map fun r => (r.base, r.stop - 8) := by
    have hstop : Region.stop ⟨r.base, r.chunks ++ [⟨size, true⟩]⟩ - 8 = f.lo + size := by
      simp only [Region.stop_eq, total_append, total_cons, total_nil, f, Focus.lo]
      omega
    rw [hregions, set_eq_take_append_cons_drop, if_pos (by simpa using hlt), ← map_take,
      ← map_drop, ← hstop]
    simp only [f, Focus.plug, map_append, map_cons, append_nil]
  obtain ⟨hok₁, hk₁⟩ := extendStores_spec (hplug ▸ hok) he
    { extendStores h f.lo size with mmRegions := h.mmRegions.set region (r.base, f.lo + size) }
    rfl rfl hset
  obtain ⟨l', hok₂, hk₂⟩ := mmFree_spec hok₁
  rw [heq]
  refine ⟨l', hok₂, fun X => (hplug.symm ▸ hk₁ X).trans_fresh hk₂ ?_⟩
  -- the guard is no allocation, so the operand of `mm_free` is none of the live chunks
  rintro a n hlive rfl
  have hguard : (f.lo, guardChunk) ∈ spots l := by
    rw [hplug]
    exact (mem_spots_extend (n := size) rfl).1.mpr (.inl rfl)
  have h8 := (hok.rep.ok.spotOk hlive.1).eight
  rcases hok.rep.ok.spots_disjoint hguard hlive.1 with heq | hdis
  · exact absurd (congrArg Chunk.size (Prod.mk.inj heq).2.symm) hlive.2
  · simp only [guardChunk] at hdis h8
    omega

end Extend

end BaseNx.Mm
