import BaseNx.Lib.Reach
import BaseNx.Mm.Invariant

/-!
# The heap on every run

Users allocate, free, reallocate and write into what they own; the system adds regions and moves
their ends. In a heap whose regions are at most 2 GiB long, every such run keeps the representation
invariant (`heap_invariant_of_reach`) and the data of its users (`live_data_of_reach`).

A longer region breaks both. A chunk of 2 GiB or more has a size with bit 31 set, and that bit of
the `preceding` word behind it says that the node is allocated: `long_region_breaks_invariant` and
`long_region_breaks_data` are runs in which the size is lost there.
-/

namespace BaseNx.Mm

open ByteMem BaseNx.Lib List

/-! ## Calls -/

/-- What the users of the heap do. -/
inductive Call
  | malloc (size : Nat)
  | free (mem : Nat)
  | realloc (oldmem size : Nat)
  | memalign (alignment size : Nat)
  | addregion (heapstart heapsize : Nat)
  | extend (mem size region : Nat)
  /-- the owner of an allocation writes a byte of it -/
  | store (mem offset : Nat) (value : UInt8)

/-- The heap and the pointers that have been returned and not been freed. -/
structure Run where
  heap : Heap
  live : List Nat

namespace Run

/-- The number of bytes that the owner of an allocation may use. -/
def usable (r : Run) (mem : Nat) : Nat := r.heap.size (mem - sizeofAllocnode) - sizeofAllocnode

/-- An allocating function returns a heap and a pointer, NULL if it failed. -/
def grant (r : Run) (x : Heap × Nat) : Run × Nat :=
  (⟨x.1, if x.2 = 0 then r.live else x.2 :: r.live⟩, x.2)

end Run

namespace Call

/-- The effect of a call and the pointer it returns. -/
def perform (r : Run) : Call → Run × Nat
  | malloc size => r.grant (mmMalloc r.heap size)
  | free mem => (⟨mmFree r.heap mem, r.live.erase mem⟩, 0)
  | realloc oldmem size =>
    let x := mmRealloc r.heap oldmem size
    -- a reallocation that fails leaves the old block with its owner
    if x.2 = 0 ∧ 0 < size then (⟨x.1, r.live⟩, 0)
    else Run.grant ⟨r.heap, r.live.erase oldmem⟩ x
  | memalign alignment size => r.grant (mmMemalign r.heap alignment size)
  | addregion heapstart heapsize => (⟨mmAddregion r.heap heapstart heapsize, r.live⟩, 0)
  | extend mem size region => (⟨mmExtend r.heap mem size region, r.live⟩, 0)
  | store mem offset value =>
    (⟨{ r.heap with mem := Function.update r.heap.mem (mem + offset) value }, r.live⟩, 0)

def apply (r : Run) (c : Call) : Option Run := some (c.perform r).1

/-- The allocation that a call is about, NULL if it is about none. -/
def operand : Call → Nat
  | free mem => mem
  | realloc oldmem _ => oldmem
  | store mem _ _ => mem
  | _ => 0

/-- What a caller has to observe. Sizes are such that no sum in the code leaves `size_t`; a pointer
is live or NULL; memory given to the heap is not in use. -/
def Legal (r : Run) : Call → Prop
  | malloc size => size + 23 < 2 ^ 32
  | free mem => mem = 0 ∨ mem ∈ r.live
  | realloc oldmem size => (oldmem = 0 ∨ oldmem ∈ r.live) ∧ size + 23 < 2 ^ 32
  | memalign alignment size => (∃ k, alignment = 2 ^ k) ∧ size + 23 < 2 ^ 32 ∧
      (mmMinChunk < alignment → mmAlignUp size + 2 * alignment + 23 < 2 ^ 32)
  | addregion heapstart heapsize => NewRegion r.heap heapstart heapsize
  | extend mem size region => ∃ guards, r.heap.mmRegions[region]? = some guards ∧
      mem = guards.2 + sizeofAllocnode ∧ 2 * sizeofAllocnode ≤ size ∧ mmMinChunk ∣ mem + size ∧
      mem + size ≤ 2 ^ 32 ∧
      (∀ p ∈ r.heap.mmRegions, p.2 + sizeofAllocnode ≤ mem ∨ mem + size ≤ p.1) ∧
      (mem + size ≤ r.heap.mmNodelist ∨
        r.heap.mmNodelist + sizeofFreenode * mmNnodes ≤ mem)
  | store mem offset _ => mem ∈ r.live ∧ offset < r.usable mem

/-- A call makes no region longer than 2 GiB. -/
def Short (r : Run) : Call → Prop
  | addregion heapstart heapsize =>
    regionStop heapstart heapsize - regionBase heapstart ≤ 2 ^ 31
  | extend mem size region => ∀ guards, r.heap.mmRegions[region]? = some guards →
      mem + size - guards.1 ≤ 2 ^ 31
  | _ => True

end Call

/-- The arguments of `mm_initialize`. -/
structure Boot where
  mem : Mem
  nodelist : Nat
  heapstart : Nat
  heapsize : Nat

namespace Boot

/-- The heap structure and its region lie in the address space, apart from each other. -/
structure Legal (b : Boot) : Prop where
  pos : 0 < b.nodelist
  fits : b.nodelist + sizeofFreenode * mmNnodes ≤ 2 ^ 32
  region : NewRegion ⟨b.mem, b.nodelist, 0, []⟩ b.heapstart b.heapsize

/-- The first region is at most 2 GiB long. -/
def Short (b : Boot) : Prop := regionStop b.heapstart b.heapsize - regionBase b.heapstart ≤ 2 ^ 31

/-- The heap that `mm_initialize` leaves. -/
def run (b : Boot) : Run := ⟨mmInitialize b.mem b.nodelist b.heapstart b.heapsize, []⟩

end Boot

/-- The states of the heap on all runs. -/
def Reachable : Run → Prop :=
  Reach (fun r => ∃ b : Boot, b.Legal ∧ r = b.run) (LabelledStep (fun r c => c.Legal r) Call.apply)

/-- The states of the heap on the runs in which no region is longer than 2 GiB. -/
def ShortReachable : Run → Prop :=
  Reach (fun r => ∃ b : Boot, (b.Legal ∧ b.Short) ∧ r = b.run)
    (LabelledStep (fun r c => c.Legal r ∧ c.Short r) Call.apply)

/-! ## What a call does to the data of the users -/

/-- An allocation stays live with its contents. -/
structure Survives (r r' : Run) (mem : Nat) : Prop where
  live : mem ∈ r'.live
  usable : r'.usable mem = r.usable mem
  contents : ∀ i < r.usable mem, r'.heap.mem (mem + i) = r.heap.mem (mem + i)

/-- The payloads of all allocations lie in regions and do not overlap. -/
structure PayloadsOk (r : Run) : Prop where
  disjoint : ∀ p ∈ r.live, ∀ q ∈ r.live, p ≠ q → p + r.usable p ≤ q ∨ q + r.usable q ≤ p
  inside : ∀ p ∈ r.live, ∃ guards ∈ r.heap.mmRegions,
    guards.1 + sizeofAllocnode ≤ p ∧ p + r.usable p ≤ guards.2

/-- A reallocation that succeeds copies the old block, as far as it fits; one that fails keeps
it. -/
structure ReallocOk (r : Run) (oldmem size : Nat) (r' : Run) (mem : Nat) : Prop where
  granted : mem ≠ 0 → mem ∈ r'.live ∧ size ≤ r'.usable mem
  copied : mem ≠ 0 → oldmem ≠ 0 →
    ∀ i < min (r.usable oldmem) size, r'.heap.mem (mem + i) = r.heap.mem (oldmem + i)
  failed : mem = 0 → 0 < size → oldmem ≠ 0 → Survives r r' oldmem

/-! ## The invariant of a run -/

/-- The heap holds a layout in which every live pointer belongs to an allocated chunk. -/
structure RunOk (r : Run) (l : Layout) : Prop where
  heap : HeapOk r.heap l
  nodup : r.live.Nodup
  live : ∀ p ∈ r.live, ∃ a n, p = a + 8 ∧ Live l a n

variable {p : Nat}

namespace RunOk

variable {r r' : Run} {l l' : Layout} {a n o : Nat}

theorem usable_eq (hok : HeapOk r.heap l) (ha : Live l a n) : r.usable (a + 8) = n - 8 := by
  rw [Run.usable, sizeofAllocnode, Nat.add_sub_cancel, hok.rep.size_eq ha.1]

section

variable (hok : RunOk r l)
include hok

/-- A live pointer is the address behind the header of an allocated chunk. -/
theorem exists_live (hp : p ∈ r.live) : ∃ a, p = a + 8 ∧ Live l a (r.usable p + 8) := by
  obtain ⟨a, n, rfl, ha⟩ := hok.live p hp
  have h8 := (hok.heap.rep.ok.spotOk ha.1).eight
  refine ⟨a, rfl, ?_⟩
  rw [usable_eq hok.heap ha, Nat.sub_add_cancel h8]
  exact ha

theorem payloadsOk : PayloadsOk r := by
  constructor
  · intro p hp q hq hpq
    obtain ⟨a, hpa, ha⟩ := hok.exists_live hp
    obtain ⟨b, hqb, hb⟩ := hok.exists_live hq
    rcases hok.heap.rep.ok.spots_disjoint ha.1 hb.1 with heq | hdis
    · exact absurd (Prod.mk.inj heq).1 (by omega)
    · simp only at hdis
      omega
  · intro p hp
    obtain ⟨a, hpa, ha⟩ := hok.exists_live hp
    obtain ⟨s, hs, hq⟩ := mem_spots.mp ha.1
    refine ⟨(s.base, s.stop - 8), ?_, ?_⟩
    · rw [hok.heap.rep.regions]
      exact mem_map_of_mem hs
    · rw [s.placed_line] at hq
      have := s.stop_eq
      simp only [mem_cons, mem_append, not_mem_nil, or_false, Prod.mk.injEq] at hq
      rcases hq with ⟨-, hg⟩ | hq | ⟨-, hg⟩
      · exact absurd (congrArg Chunk.size hg) ha.2
      · have hb := placed_bounds hq
        simp only [sizeofAllocnode] at hb ⊢
        omega
      · exact absurd (congrArg Chunk.size hg) ha.2

section

variable (hok' : HeapOk r'.heap l') (hk : Kept {a | a + 8 = o} r.heap l r'.heap l')
include hok' hk

theorem survives (hp : p ∈ r.live) (hpo : p ≠ o) (hp' : p ∈ r'.live) : Survives r r' p := by
  obtain ⟨a, rfl, ha⟩ := hok.exists_live hp
  obtain ⟨ha', hbytes⟩ := hk a _ ha hpo
  refine ⟨hp', (usable_eq hok' ha').trans (Nat.add_sub_cancel ..), fun i hi => ?_⟩
  exact hbytes _ (by omega) (by omega)

/-- The run after a call that keeps all allocations but its operand. -/
theorem change (hnd : r'.live.Nodup)
    (hlive : ∀ p ∈ r'.live, p ∈ r.live ∧ p ≠ o ∨ ∃ a n, p = a + 8 ∧ Live l' a n) : RunOk r' l' := by
  refine ⟨hok', hnd, fun p hp => ?_⟩
  rcases hlive p hp with ⟨hp, hpo⟩ | hnew
  · obtain ⟨a, rfl, ha⟩ := hok.exists_live hp
    exact ⟨a, _, rfl, (hk a _ ha hpo).1⟩
  · exact hnew

end

end

end RunOk

/-- What a call does when it leads from `r` to `r'` and returns `mem`. -/
structure Outcome (r : Run) (c : Call) (r' : Run) (mem : Nat) : Prop where
  ok : ∃ l', RunOk r' l'
  kept : ∀ p ∈ r.live, p ≠ c.operand → Survives r r' p
  realloc : ∀ oldmem size, c = .realloc oldmem size → ReallocOk r oldmem size r' mem

variable {size mem : Nat} {h h' : Heap} {l' : Layout} {c : Call}

section Calls

variable {r : Run} {l : Layout}

/-- A block that was no allocation becomes one, all others survive. -/
theorem RunOk.grant (hok : RunOk r l) {live : List Nat} {o : Nat} (hlive : live = r.live.erase o)
    {a n : Nat} (hok' : HeapOk h' l') (hk : Kept {b | b + 8 = o} r.heap l h' l')
    (ha : Live l' a n) (hfresh : a + 8 = o ∨ ∀ m, ¬ Live l a m) :
    RunOk ⟨h', (a + 8) :: live⟩ l' ∧
      ∀ p ∈ r.live, p ≠ o → Survives r ⟨h', (a + 8) :: live⟩ p := by
  have hmem : ∀ p ∈ live, p ∈ r.live ∧ p ≠ o := fun p hp => by
    rw [hlive, hok.nodup.mem_erase_iff] at hp
    exact ⟨hp.2, hp.1⟩
  have hnew : a + 8 ∉ live := by
    intro hp
    obtain ⟨hp, hpo⟩ := hmem _ hp
    obtain ⟨b, hab, hb⟩ := hok.exists_live hp
    obtain rfl : a = b := by omega
    exact hfresh.elim hpo fun hf => hf _ hb
  have hnd : live.Nodup := hlive ▸ hok.nodup.erase o
  constructor
  · refine hok.change hok' hk (nodup_cons.mpr ⟨hnew, hnd⟩) fun p hp => ?_
    rcases mem_cons.mp hp with rfl | hp
    · exact .inr ⟨a, n, rfl, ha⟩
    · exact .inl (hmem p hp)
  · intro p hp hpo
    refine hok.survives hok' hk hp hpo (mem_cons_of_mem _ ?_)
    rw [hlive, hok.nodup.mem_erase_iff]
    exact ⟨hpo, hp⟩

theorem Survives.refl (hp : p ∈ r.live) : Survives r r p := ⟨hp, rfl, fun _ _ => rfl⟩

theorem RunOk.ne_zero (hok : RunOk r l) (hp : p ∈ r.live) : p ≠ 0 := by
  obtain ⟨a, rfl, -⟩ := hok.exists_live hp
  omega

theorem RunOk.erase_zero (hok : RunOk r l) : r.live = r.live.erase 0 :=
  (erase_of_not_mem fun hp => hok.ne_zero hp rfl).symm

/-- What an allocating function does: it fails and changes nothing, or returns a new block of at
least `size` bytes. -/
def Allocates (h : Heap) (l : Layout) (size : Nat) (x : Heap × Nat) : Prop :=
  x = (h, 0) ∨ ∃ h' l' a n, x = (h', a + 8) ∧ HeapOk h' l' ∧ (∀ X, Kept X h l h' l') ∧
    Live l' a n ∧ size + 8 ≤ n ∧ ∀ m, ¬ Live l a m

theorem mmMalloc_allocates (hok : HeapOk h l) (hs : size + 23 < 2 ^ 32) :
    Allocates h l size (mmMalloc h size) := by
  rcases mmMalloc_spec hok hs with ⟨hnull, -⟩ | ⟨-, f, N, hret, hspot, hN, -, -, -, hok', hk⟩
  · exact .inl hnull
  · have hn := mmAlignUp_spec (show size + 8 + 15 < 2 ^ 32 by omega)
    refine .inr ⟨_, _, f.lo, mmAlignUp (size + 8), Prod.ext rfl hret, hok', hk,
      ⟨f.mem_spots_plug.mpr (.inr (by simp)), by omega⟩, by omega, fun m => ?_⟩
    exact hok.rep.ok.not_live hspot (by omega)

theorem mmMemalign_allocates (hok : HeapOk h l) {alignment : Nat} (hal : ∃ k, alignment = 2 ^ k)
    (hs : size + 23 < 2 ^ 32)
    (hfit : mmMinChunk < alignment → mmAlignUp size + 2 * alignment + 23 < 2 ^ 32) :
    Allocates h l size (mmMemalign h alignment size) := by
  rcases mmMemalign_spec hok hal hs hfit with hnull | ⟨h', l', a, n, x, N, heq, hc, hn, -⟩
  · exact .inl hnull
  · exact .inr ⟨h', l', a, n, heq, hc.ok, hc.kept, hc.live, hn, hc.fresh hok⟩

section

variable (hok : RunOk r l)
include hok

theorem RunOk.allocates {x : Heap × Nat} (hx : Allocates r.heap l size x) :
    ∃ l', RunOk (r.grant x).1 l' ∧
      (∀ p ∈ r.live, Survives r (r.grant x).1 p) ∧
      (x.2 ≠ 0 → x.2 ∈ (r.grant x).1.live ∧ size ≤ (r.grant x).1.usable x.2) := by
  rcases hx with rfl | ⟨h', l', a, n, rfl, hok', hk, ha, hn, hfresh⟩
  · exact ⟨l, hok, fun p hp => .refl hp, fun hne => absurd rfl hne⟩
  · have hgrant : r.grant (h', a + 8) = (⟨h', (a + 8) :: r.live⟩, a + 8) := by
      simp [Run.grant]
    obtain ⟨hrun, hsurv⟩ := hok.grant hok.erase_zero hok' (hk _) ha (.inr hfresh)
    rw [hgrant]
    refine ⟨l', hrun, fun p hp => hsurv p hp (hok.ne_zero hp), fun _ => ⟨mem_cons_self .., ?_⟩⟩
    rw [RunOk.usable_eq hok' ha]
    omega

theorem RunOk.free (hmem : mem ∈ r.live) :
    ∃ l', RunOk ⟨mmFree r.heap mem, r.live.erase mem⟩ l' ∧
      ∀ p ∈ r.live, p ≠ mem → Survives r ⟨mmFree r.heap mem, r.live.erase mem⟩ p := by
  obtain ⟨a, rfl, ha⟩ := hok.exists_live hmem
  obtain ⟨f, rfl, rfl⟩ := ha.focus
  obtain ⟨l', hok', hk⟩ := mmFree_spec hok.heap
  have hset : ({f.lo} : Set Nat) = {a | a + 8 = f.lo + 8} := by
    ext b
    simp
  rw [hset] at hk
  refine ⟨l', hok.change hok' hk (hok.nodup.erase _) fun p hp => .inl ?_, fun p hp hpo => ?_⟩
  · rw [hok.nodup.mem_erase_iff] at hp
    exact ⟨hp.2, hp.1⟩
  · exact hok.survives hok' hk hp hpo ((hok.nodup.mem_erase_iff).mpr ⟨hpo, hp⟩)

theorem RunOk.realloc {oldmem : Nat} (hc : (Call.realloc oldmem size).Legal r) :
    ∃ l', RunOk ((Call.realloc oldmem size).perform r).1 l' ∧
      (∀ p ∈ r.live, p ≠ oldmem → Survives r ((Call.realloc oldmem size).perform r).1 p) ∧
      ReallocOk r oldmem size ((Call.realloc oldmem size).perform r).1
        ((Call.realloc oldmem size).perform r).2 := by
  obtain ⟨hmem, hs⟩ := hc
  rcases hmem with rfl | hmem
  · -- without an old block this is `mm_malloc`
    have heq : (Call.realloc 0 size).perform r = r.grant (mmMalloc r.heap size) := by
      simp only [Call.perform, mmRealloc, if_pos, ← hok.erase_zero]
      by_cases hx : (mmMalloc r.heap size).2 = 0 ∧ 0 < size
      · rw [if_pos hx, Run.grant, if_pos hx.1, hx.1]
      · rw [if_neg hx]
    obtain ⟨l', hrun, hsurv, hnew⟩ := hok.allocates (mmMalloc_allocates hok.heap hs)
    rw [heq]
    exact ⟨l', hrun, fun p hp _ => hsurv p hp, ⟨hnew, fun _ h0 => absurd rfl h0,
      fun _ _ h0 => absurd rfl h0⟩⟩
  have hmem0 := hok.ne_zero hmem
  rcases eq_zero_or_pos size with rfl | hpos
  · -- with size zero it is `mm_free`
    have heq : (Call.realloc oldmem 0).perform r
        = (⟨mmFree r.heap oldmem, r.live.erase oldmem⟩, 0) := by
      simp [Call.perform, mmRealloc, hmem0, Run.grant]
    obtain ⟨l', hrun, hsurv⟩ := hok.free hmem
    rw [heq]
    exact ⟨l', hrun, hsurv, ⟨fun h0 => absurd rfl h0, fun h0 => absurd rfl h0,
      fun _ h0 => absurd h0 (by decide)⟩⟩
  obtain ⟨a, rfl, ha⟩ := hok.exists_live hmem
  obtain ⟨f, hl, rfl⟩ := ha.focus
  have husable : r.usable (f.lo + 8) + 8 - 8 = r.usable (f.lo + 8) := Nat.add_sub_cancel ..
  generalize r.usable (f.lo + 8) + 8 = o at *
  subst hl
  rcases mmRealloc_spec hok.heap hs hpos with hnull | ⟨h', l', a, n, hret, hn, hmoved⟩
  · have heq : (Call.realloc (f.lo + 8) size).perform r = (r, 0) := by
      simp [Call.perform, hnull, hpos]
    rw [heq]
    exact ⟨_, hok, fun p hp _ => .refl hp, ⟨fun h0 => absurd rfl h0, fun h0 => absurd rfl h0,
      fun _ _ _ => .refl hmem⟩⟩
  · have heq : (Call.realloc (f.lo + 8) size).perform r
        = (⟨h', (a + 8) :: r.live.erase (f.lo + 8)⟩, a + 8) := by
      simp [Call.perform, hret, Run.grant]
    have hset : ({f.lo} : Set Nat) = {b | b + 8 = f.lo + 8} := by
      ext b
      simp
    obtain ⟨hrun, hsurv⟩ := hok.grant rfl hmoved.ok (hset ▸ hmoved.kept) hmoved.live
      (hmoved.fresh.imp (fun h => by rw [h]) id)
    rw [heq]
    refine ⟨l', hrun, hsurv, ⟨fun _ => ⟨mem_cons_self .., ?_⟩, fun _ _ i hi => ?_,
      fun h0 => absurd h0 (by simp)⟩⟩
    · rw [RunOk.usable_eq hmoved.ok hmoved.live]
      omega
    · exact hmoved.copied i (by omega) (by omega)

theorem RunOk.extend {region : Nat} (hc : (Call.extend mem size region).Legal r)
    (hs : (Call.extend mem size region).Short r) :
    ∃ l', HeapOk (mmExtend r.heap mem size region) l' ∧
      ∀ X, Kept X r.heap l (mmExtend r.heap mem size region) l' := by
  obtain ⟨⟨heapstart, guard⟩, hregion, rfl, hmin, hdvd, hfits, hdis, hheads⟩ := hc
  have hshort := hs _ hregion
  -- the end of a region is aligned, so the memory taken is a multiple of the granule
  have hend : 16 ∣ guard + 8 := by
    have hr := hregion
    rw [hok.heap.rep.regions, getElem?_map] at hr
    obtain ⟨s, hget, hpair⟩ := Option.map_eq_some_iff.mp hr
    obtain ⟨-, rfl⟩ := Prod.mk.inj hpair
    have hsok := hok.heap.rep.ok.region s (mem_of_getElem? hget)
    have := hsok.aligned
    have := dvd_total hsok.granular
    have := s.stop_eq
    omega
  simp only [sizeofAllocnode, sizeofFreenode, mmMinChunk] at *
  exact mmExtend_spec hok.heap hregion ⟨by omega, by omega⟩ hfits hshort hdis hheads

/-- A write of an owner into its block. -/
theorem RunOk.store {offset : Nat} (v : UInt8) (hmem : mem ∈ r.live)
    (hoff : offset < r.usable mem) :
    HeapOk { r.heap with mem := Function.update r.heap.mem (mem + offset) v } l ∧
      Kept {a | a + 8 = mem} r.heap l
        { r.heap with mem := Function.update r.heap.mem (mem + offset) v } l := by
  obtain ⟨a, rfl, ha⟩ := hok.exists_live hmem
  obtain ⟨f, hl, rfl⟩ := ha.focus
  generalize ho : r.usable (f.lo + 8) + 8 = o at *
  subst hl
  have hset : ({f.lo} : Set Nat) = {b | b + 8 = f.lo + 8} := by
    ext b
    simp
  obtain ⟨hrep, hk⟩ := hok.heap.rep.setPayload
    { r.heap with mem := Function.update r.heap.mem (f.lo + 8 + offset) v }
    ⟨rfl, rfl, rfl⟩ fun b hb => Function.update_of_ne (by omega) ..
  exact ⟨⟨hrep, hok.heap.coalesced⟩, hset ▸ hk⟩

/-- The run after a call that returns nothing and has no operand to give up. -/
theorem RunOk.unit (hok' : HeapOk h' l') (hk : Kept {a | a + 8 = c.operand} r.heap l h' l')
    (hop : ∀ a n, a + 8 = c.operand → Live l a n → Live l' a n)
    (hc : ∀ oldmem size, c ≠ .realloc oldmem size) : Outcome r c ⟨h', r.live⟩ 0 := by
  refine ⟨⟨l', hok', hok.nodup, fun p hp => ?_⟩, fun p hp hpo => hok.survives hok' hk hp hpo hp,
    fun oldmem size heq => absurd heq (hc oldmem size)⟩
  obtain ⟨a, rfl, ha⟩ := hok.exists_live hp
  by_cases hao : a + 8 = c.operand
  · exact ⟨a, _, rfl, hop a _ hao ha⟩
  · exact ⟨a, _, rfl, (hk a _ ha hao).1⟩

theorem RunOk.perform (hc : c.Legal r) (hs : c.Short r) :
    Outcome r c (c.perform r).1 (c.perform r).2 := by
  cases c with
  | malloc size =>
    obtain ⟨l', hrun, hsurv, -⟩ := hok.allocates (mmMalloc_allocates hok.heap hc)
    exact ⟨⟨l', hrun⟩, fun p hp _ => hsurv p hp, fun _ _ heq => by cases heq⟩
  | memalign alignment size =>
    obtain ⟨l', hrun, hsurv, -⟩ :=
      hok.allocates (mmMemalign_allocates hok.heap hc.1 hc.2.1 hc.2.2)
    exact ⟨⟨l', hrun⟩, fun p hp _ => hsurv p hp, fun _ _ heq => by cases heq⟩
  | free mem =>
    rcases hc with rfl | hmem
    · have heq : (Call.free 0).perform r = (r, 0) := by
        simp only [Call.perform, ← hok.erase_zero]
        rfl
      rw [heq]
      exact ⟨⟨l, hok⟩, fun p hp _ => .refl hp, fun _ _ heq => by cases heq⟩
    · obtain ⟨l', hrun, hsurv⟩ := hok.free hmem
      exact ⟨⟨l', hrun⟩, hsurv, fun _ _ heq => by cases heq⟩
  | realloc oldmem size =>
    obtain ⟨l', hrun, hsurv, hre⟩ := hok.realloc hc
    exact ⟨⟨l', hrun⟩, hsurv, fun _ _ heq => by cases heq; exact hre⟩
  | addregion heapstart heapsize =>
    obtain ⟨hok', hk⟩ := mmAddregion_spec hok.heap hc hs
    exact hok.unit hok' (hk _) (fun a n h0 _ => absurd h0 (by simp [Call.operand])) (by simp)
  | extend mem size region =>
    obtain ⟨l', hok', hk⟩ := hok.extend hc hs
    exact hok.unit hok' (hk _) (fun a n h0 _ => absurd h0 (by simp [Call.operand])) (by simp)
  | store mem offset value =>
    obtain ⟨hok', hk⟩ := hok.store value hc.1 hc.2
    exact hok.unit hok' hk (fun _ _ _ ha => ha) (by simp)

end

end Calls

/-! ## All runs -/

theorem ShortReachable.runOk {r : Run} (hr : ShortReachable r) : ∃ l, RunOk r l := by
  refine Reach.labelled (P := fun r => ∃ l, RunOk r l) ?_ ?_ hr
  · rintro - ⟨b, ⟨hlegal, hshort⟩, rfl⟩
    have hfits := hlegal.fits
    have hheap := mmInitialize_spec hlegal.pos hfits hlegal.region hshort
    refine ⟨[newRegion b.heapstart b.heapsize], ?_, nodup_nil, by simp [Boot.run]⟩
    simpa only [Boot.run] using hheap
  · rintro s c ⟨l, hok⟩ ⟨hlegal, hshort⟩
    exact ⟨_, rfl, (hok.perform hlegal hshort).ok⟩

/-- **The heap invariant.** It holds in every state that the heap reaches with regions of at most
2 GiB. -/
theorem heap_invariant_of_reach {r : Run} (hr : ShortReachable r) : HeapInvariant r.heap := by
  obtain ⟨l, hok⟩ := hr.runOk
  exact hok.heap.heapInvariant

/-- A small heap and a few calls. -/
def sampleBoot : Boot := ⟨fun _ => 0, 256, 4096, 1024⟩

def sampleCalls : List Call := [.malloc 100, .malloc 20, .free 4112]

def sampleRun : Run := after Call.apply sampleBoot.run sampleCalls

theorem sampleBoot_legal : sampleBoot.Legal :=
  ⟨by decide, by decide, by decide, by decide, by decide, by simp, by decide⟩

theorem sampleRun_reachable : ShortReachable sampleRun := by
  have hshort : sampleBoot.Short := by simp only [Boot.Short]; decide
  refine Reach.after _ (.start ⟨sampleBoot, ⟨sampleBoot_legal, hshort⟩, rfl⟩) ?_
  refine ⟨⟨?_, trivial⟩, rfl, ⟨?_, trivial⟩, rfl, ⟨.inr ?_, trivial⟩, rfl, trivial⟩
  · show 100 + 23 < 2 ^ 32
    decide
  · show 20 + 23 < 2 ^ 32
    decide
  · decide

theorem heap_invariant_sampleRun : HeapInvariant sampleRun.heap :=
  heap_invariant_of_reach sampleRun_reachable

/-- **Live data survives.** A call keeps the contents of all allocations but its operand, leaves
all payloads disjoint and inside a region, and a reallocation keeps or moves its contents. -/
theorem live_data_of_reach {r : Run} (hr : ShortReachable r) {c : Call} (hc : c.Legal r)
    (hs : c.Short r) :
    (∀ p ∈ r.live, p ≠ c.operand → Survives r (c.perform r).1 p) ∧ PayloadsOk (c.perform r).1 ∧
      ∀ oldmem size, c = .realloc oldmem size →
        ReallocOk r oldmem size (c.perform r).1 (c.perform r).2 := by
  obtain ⟨l, hok⟩ := hr.runOk
  obtain ⟨⟨l', hok'⟩, hkept, hre⟩ := hok.perform hc hs
  exact ⟨hkept, hok'.payloadsOk, hre⟩

theorem live_data_sampleRun : 4224 ∈ sampleRun.live ∧
    PayloadsOk ((Call.realloc 4224 200).perform sampleRun).1 ∧
    ReallocOk sampleRun 4224 200 ((Call.realloc 4224 200).perform sampleRun).1
      ((Call.realloc 4224 200).perform sampleRun).2 := by
  have hlive : 4224 ∈ sampleRun.live := by decide
  have hlegal : (Call.realloc 4224 200).Legal sampleRun := ⟨.inr hlive, by decide⟩
  have hdata := live_data_of_reach sampleRun_reachable hlegal trivial
  exact ⟨hlive, hdata.2.1, hdata.2.2 4224 200 rfl⟩

/-! ## Regions of more than 2 GiB -/

/-- A node of 2 GiB at the start of a region cannot be followed by one that points back at it. -/
theorem not_heapInvariant_of_long {heapstart heapend : Nat}
    (hregion : (heapstart, heapend) ∈ h.mmRegions) (hlong : 2 ^ 31 ≤ h.size (heapstart + 8))
    (hend : heapend ≠ heapstart + 8) : ¬ HeapInvariant h := by
  rintro ⟨rows, hrows, -⟩
  obtain ⟨row, -, hrow⟩ : ∃ row ∈ rows, RegionInvariant h (heapstart, heapend) row := by
    obtain ⟨i, hi, hget⟩ := getElem_of_mem hregion
    have hlen := hrows.length_eq
    have hrow := hrows.get hi (by omega)
    rw [get_eq_getElem, hget] at hrow
    exact ⟨_, get_mem _ _, hrow⟩
  obtain ⟨chunks, rfl, -⟩ := hrow.tiled
  have hguard := (hrow.guards heapstart (.inl rfl)).1
  have hchain := hrow.chain
  -- no `preceding` word holds a size of 2 GiB
  have hback : ∀ b, ¬ Neighbours h (heapstart + 8) b := by
    intro b hb
    have hle : h.preceding b &&& mmSizeMask ≤ mmSizeMask := Nat.and_le_right
    rw [hb.back] at hle
    simp only [mmSizeMask] at hle
    omega
  cases chunks with
  | nil =>
    have hwalk := hguard ▸ (isChain_cons_cons.mp hchain).1.walk
    exact hend hwalk
  | cons b chunks =>
    obtain ⟨hfirst, hrest⟩ := isChain_cons_cons.mp hchain
    have hwalk := hguard ▸ hfirst.walk
    obtain rfl : b = heapstart + 8 := hwalk
    cases chunks with
    | nil => exact hback _ (isChain_cons_cons.mp hrest).1
    | cons c chunks => exact hback _ (isChain_cons_cons.mp hrest).1

/-- A region of 2 GiB and sixteen bytes. -/
def longBoot : Boot := ⟨fun _ => 0, 3221225472, 16, 2147483664⟩

theorem longBoot_legal : longBoot.Legal :=
  ⟨by decide, by decide, by decide, by decide, by decide, by simp, by decide⟩

/-- `mm_initialize` itself breaks the invariant: the guard at the end of the region does not point
back at the node. -/
theorem long_region_breaks_invariant : ∃ r, Reachable r ∧ ¬ HeapInvariant r.heap := by
  refine ⟨longBoot.run, .start ⟨longBoot, longBoot_legal, rfl⟩, ?_⟩
  have hregion : longBoot.run.heap.mmRegions = [(16, 2147483672)] := by decide
  have hmem : (16, 2147483672) ∈ longBoot.run.heap.mmRegions := by
    rw [hregion]
    exact mem_singleton_self _
  exact not_heapInvariant_of_long hmem (by decide) (by decide)

/-- A region with room for a block of 2 GiB between two small ones. The word at the end of the
block, from an earlier use of the memory, is the address of the chunk of the first one. -/
def corruptBoot : Boot := ⟨fun b => if b = 2147483700 then 24 else 0, 3221225472, 16, 2147483728⟩

def corruptCalls : List Call :=
  [.malloc 8, .malloc 2147483672, .malloc 8, .store 32 0 1, .free 48]

def corruptRun : Run := after Call.apply corruptBoot.run corruptCalls

theorem corruptBoot_legal : corruptBoot.Legal :=
  ⟨by decide, by decide, by decide, by decide, by decide, by simp, by decide⟩

theorem corruptRun_reachable : Reachable corruptRun := by
  refine Reach.after _ (.start ⟨corruptBoot, corruptBoot_legal, rfl⟩) ?_
  refine ⟨?_, rfl, ?_, rfl, ?_, rfl, ⟨?_, ?_⟩, rfl, .inr ?_, rfl, trivial⟩
  · show 8 + 23 < 2 ^ 32
    decide
  · show 2147483672 + 23 < 2 ^ 32
    decide
  · show 8 + 23 < 2 ^ 32
    decide
  all_goals decide

/-- Freeing the last block of this run destroys the contents of the first one: `mm_free` finds the
low 31 bits of the size of the block in front, takes a word inside it for a free node and unlinks
that node. -/
theorem long_region_breaks_data : ∃ r c p, Reachable r ∧ Call.Legal r c ∧ p ∈ r.live ∧
    p ≠ c.operand ∧ ¬ Survives r (c.perform r).1 p := by
  have hlive : corruptRun.live = [2147483728, 32] := by decide +kernel
  refine ⟨corruptRun, .free 2147483728, 32, corruptRun_reachable, .inr ?_, ?_, by decide, ?_⟩
  · rw [hlive]
    decide
  · rw [hlive]
    decide
  · intro hsurv
    have husable : 0 < corruptRun.usable 32 := by decide +kernel
    have hbyte := hsurv.contents 0 husable
    revert hbyte
    decide +kernel

end BaseNx.Mm
