import BaseNx.Mm.Regions

/-!
# The heap invariant in terms of the memory

What the headers and links in memory look like in a heap that holds a layout: a region is a chain
of nodes from `mm_heapstart` to `mm_heapend`, each found from the one before it by its size
(`RegionInvariant`), and the list that starts at `mm_nodelist[0]` consists of the heads in order and
the free chunks (`ListInvariant`). `HeapOk.heapInvariant` reads both off a layout.
-/

namespace BaseNx.Mm

open ByteMem LinkedList BaseNx.Lib List

/-- The node at `a` is marked allocated. -/
def Heap.Allocated (h : Heap) (a : Nat) : Prop := h.preceding a &&& mmAllocBit ≠ 0

/-- The node `b` follows the node `a`: it starts where `a` ends, points back at it, and one of them
is allocated. -/
structure Neighbours (h : Heap) (a b : Nat) : Prop where
  walk : b = a + h.size a
  back : h.preceding b &&& mmSizeMask = h.size a
  coalesced : h.Allocated a ∨ h.Allocated b

/-- `nodes` are the nodes of the region with the guards `guards.1` and `guards.2`. -/
structure RegionInvariant (h : Heap) (guards : Nat × Nat) (nodes : List Nat) : Prop where
  tiled : ∃ chunks, nodes = guards.1 :: (chunks ++ [guards.2]) ∧
    ∀ a ∈ chunks, mmMinChunk ∣ h.size a ∧ 0 < h.size a
  chain : nodes.IsChain (Neighbours h)
  guards : ∀ a, a = guards.1 ∨ a = guards.2 → h.size a = sizeofAllocnode ∧ h.Allocated a

/-- `L` is the list that starts at `mm_nodelist[0]`, for a heap with these nodes. -/
structure ListInvariant (h : Heap) (nodes L : List Nat) : Prop where
  linked : Linked h.flink h.blink 0 L
  first : L.head? = some (h.nodelist 0) ∧ h.blink (h.nodelist 0) = 0
  nodup : L.Nodup
  heads : ((range mmNnodes).map h.nodelist).Sublist L
  free : ∀ a, a ∈ L ↔ (∃ i < mmNnodes, a = h.nodelist i) ∨ a ∈ nodes ∧ ¬ h.Allocated a
  distinct : ∀ i < mmNnodes, h.nodelist i ∉ nodes

/-- The representation invariant of the heap. -/
def HeapInvariant (h : Heap) : Prop :=
  ∃ rows : List (List Nat), List.Forall₂ (RegionInvariant h) h.mmRegions rows ∧
    ∃ L, ListInvariant h rows.flatten L

/-! ## Reading the headers of a layout -/

section Headers

variable {h : Heap}

/-- The addresses of a row of chunks that starts at `a`. -/
def addresses (a : Nat) (cs : List Chunk) : List Nat := (placed a cs).map Prod.fst

theorem Headers.tag_eq {a p : Nat} {cs : List Chunk} (hh : Headers h a p cs) (hp : p < 2 ^ 31)
    (hcs : ∀ c ∈ cs, c.size < 2 ^ 31) {q : Nat × Chunk} (hq : q ∈ placed a cs) :
    ∃ p < 2 ^ 31, h.preceding q.1 = q.2.tag p := by
  induction cs generalizing a p with
  | nil => cases hq
  | cons c cs ih =>
    rcases mem_cons.mp hq with rfl | hq
    · exact ⟨p, hp, hh.2.1⟩
    · exact ih hh.2.2 (hcs c (by simp)) (forall_mem_cons.1 hcs).2 hq

theorem allocated_iff {a p : Nat} {c : Chunk} (ha : h.preceding a = c.tag p) (hp : p < 2 ^ 31) :
    h.Allocated a ↔ c.used = true := by
  rw [Heap.Allocated, ha, Ne, tag_and_allocBit_eq_zero hp]
  simp

theorem Headers.neighbours {a p : Nat} {cs : List Chunk} (hh : Headers h a p cs) (hp : p < 2 ^ 31)
    (hcs : ∀ c ∈ cs, c.size < 2 ^ 31) (hadj : NoAdjacent cs) :
    (addresses a cs).IsChain (Neighbours h) := by
  induction cs generalizing a p with
  | nil => exact List.IsChain.nil
  | cons c cs ih =>
    cases cs with
    | nil => exact isChain_singleton a
    | cons d cs =>
      have hc := hcs c (by simp)
      obtain ⟨hcd, hrest⟩ := isChain_cons_cons.mp hadj
      refine isChain_cons_cons.mpr ⟨⟨?_, ?_, ?_⟩,
        ih hh.2.2 hc (forall_mem_cons.1 hcs).2 hrest⟩
      · rw [hh.1]
      · rw [hh.1, hh.2.2.2.1, tag_and_sizeMask hc]
      · rw [allocated_iff hh.2.1 hp, allocated_iff hh.2.2.2.1 hc]
        exact hcd

theorem addresses_line (r : Region) :
    addresses r.base r.line = r.base :: (addresses (r.base + 8) r.chunks ++ [r.stop - 8]) := by
  have hstop : r.stop - 8 = r.base + 8 + total r.chunks := by
    rw [r.stop_eq]
    omega
  simp only [addresses, r.placed_line, map_cons, map_append, map_nil, hstop]

theorem RegionOk.size_lt {r : Region} (hok : RegionOk r) : ∀ c ∈ r.line, c.size < 2 ^ 31 := by
  have hshort := hok.short
  rw [r.total_line] at hshort
  intro c hc
  rw [Region.line, mem_cons, mem_append, mem_singleton] at hc
  rcases hc with rfl | hc | rfl
  · decide
  · have := size_le_total hc
    omega
  · decide

theorem regionInvariant_of_headers {r : Region} (hok : RegionOk r)
    (hh : Headers h r.base 0 r.line) (hadj : NoAdjacent r.line) :
    RegionInvariant h (r.base, r.stop - 8) (addresses r.base r.line) := by
  have hguard : ∀ a, (a, guardChunk) ∈ placed r.base r.line →
      h.size a = sizeofAllocnode ∧ h.Allocated a := by
    intro a ha
    obtain ⟨p, hp, htag⟩ := hh.tag_eq (by decide) hok.size_lt ha
    exact ⟨hh.size_eq ha, (allocated_iff htag hp).mpr rfl⟩
  refine ⟨⟨_, addresses_line r, ?_⟩, hh.neighbours (by decide) hok.size_lt hadj, ?_⟩
  · intro a ha
    obtain ⟨q, hq, rfl⟩ := mem_map.mp ha
    have hq' : q ∈ placed r.base r.line := by
      rw [r.placed_line]
      exact mem_cons_of_mem _ (mem_append_left _ hq)
    rw [hh.size_eq hq']
    exact hok.granular q.2 (placed_bounds hq).2.2
  · have hstop : r.stop - 8 = r.base + 8 + total r.chunks := by
      rw [r.stop_eq]
      omega
    rintro a (rfl | rfl)
    · exact hguard _ (by rw [r.placed_line]; exact mem_cons_self ..)
    · refine hguard _ ?_
      rw [r.placed_line, hstop]
      exact mem_cons_of_mem _ (mem_append_right _ (mem_singleton_self _))

end Headers

/-! ## Reading the list -/

section List

variable {h : Heap} {l : Layout} {L : List Nat}

theorem FreeList.heads_sublist (hl : FreeList h L) :
    ((range mmNnodes).map h.nodelist).Sublist L := by
  have hfilter : L.filter (fun a => h.size a = 0) = (range mmNnodes).map h.nodelist := by
    refine List.Pairwise.eq_of_mem_iff (r := (· < ·)) ?_ ?_ fun a => ?_
    · refine (List.Pairwise.and hl.sorted hl.apart).filter _ |>.imp_of_mem ?_
      rintro a b ha hb ⟨hab, hne⟩
      obtain ⟨ha, hza⟩ := mem_filter.mp ha
      obtain ⟨hb, hzb⟩ := mem_filter.mp hb
      obtain ⟨i, -, rfl⟩ := hl.isHead a ha (by simpa using hza)
      obtain ⟨j, -, rfl⟩ := hl.isHead b hb (by simpa using hzb)
      rw [Before, slot_nodelist (by simpa using hza), slot_nodelist (by simpa using hzb)] at hab
      simp only [Heap.nodelist, Apart] at hne ⊢
      omega
    · exact pairwise_map.mpr (pairwise_lt_range.imp fun hij => by
        simp only [Heap.nodelist]
        omega)
    · rw [mem_filter, mem_map]
      constructor
      · rintro ⟨ha, hz⟩
        obtain ⟨i, hi, rfl⟩ := hl.isHead a ha (by simpa using hz)
        exact ⟨i, mem_range.mpr hi, rfl⟩
      · rintro ⟨i, hi, rfl⟩
        have hi := mem_range.mp hi
        exact ⟨hl.heads i hi, by simpa using hl.zero i hi⟩
  exact hfilter ▸ filter_sublist

theorem FreeList.head_eq (hl : FreeList h L) : L.head? = some (h.nodelist 0) := by
  have h0 := hl.heads 0 (by decide)
  cases L with
  | nil => cases h0
  | cons a L =>
    rcases mem_cons.mp h0 with heq | hmem
    · rw [heq]
      rfl
    · exact absurd hmem (FreeList.first_not_behind (show FreeList h ([] ++ a :: L) from hl))

theorem mem_addresses {a : Nat} :
    a ∈ (l.map fun r => addresses r.base r.line).flatten ↔ ∃ c, (a, c) ∈ spots l := by
  simp only [mem_flatten, mem_map, mem_spots, addresses]
  constructor
  · rintro ⟨-, ⟨r, hr, rfl⟩, ha⟩
    obtain ⟨q, hq, rfl⟩ := mem_map.mp ha
    exact ⟨q.2, r, hr, hq⟩
  · rintro ⟨c, r, hr, hq⟩
    exact ⟨_, ⟨r, hr, rfl⟩, mem_map.mpr ⟨_, hq, rfl⟩⟩

/-- **The invariant of a heap that holds a layout.** -/
theorem HeapOk.heapInvariant (hok : HeapOk h l) : HeapInvariant h := by
  have halloc : ∀ {a c}, (a, c) ∈ spots l → (h.Allocated a ↔ c.used = true) := by
    intro a c hc
    obtain ⟨r, hr, hq⟩ := mem_spots.mp hc
    obtain ⟨p, hp, htag⟩ :=
      (hok.rep.headers r hr).tag_eq (by decide) (hok.rep.ok.region r hr).size_lt hq
    exact allocated_iff htag hp
  obtain ⟨L, hl, -, hmem⟩ := hok.rep.free
  refine ⟨l.map fun r => addresses r.base r.line, ?_, L, ⟨hl.linked, ⟨hl.head_eq, hl.first⟩,
    hl.nodup, hl.heads_sublist, fun a => ?_, fun i hi => ?_⟩⟩
  · rw [hok.rep.regions, forall₂_map_left_iff, forall₂_map_right_iff, forall₂_same]
    exact fun r hr => regionInvariant_of_headers (hok.rep.ok.region r hr) (hok.rep.headers r hr)
      (hok.coalesced r hr)
  · rw [hmem a, mem_addresses]
    refine or_congr_right ⟨?_, ?_⟩
    · rintro ⟨⟨c, hc, hu⟩, -⟩
      exact ⟨⟨c, hc⟩, fun ha => by simp [(halloc hc).mp ha] at hu⟩
    · rintro ⟨⟨c, hc⟩, ha⟩
      exact ⟨⟨c, hc, by simpa using fun hu => ha ((halloc hc).mpr hu)⟩, by omega⟩
  · rw [mem_addresses]
    rintro ⟨c, hc⟩
    have hspot := hok.rep.ok.spotOk hc
    have h8 := hspot.eight
    have hheads := hspot.heads
    simp only [Heap.nodelist, mmNnodes] at hheads hi h8
    omega

end List

end BaseNx.Mm
