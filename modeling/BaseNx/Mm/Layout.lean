import BaseNx.Mm.FreeList

/-!
# The layout of the heap

What the heap is for, without addresses of links: a list of regions, each a row of chunks between
two guards. A chunk has a size and is used or free; its address and the size of the chunk before
it follow from its place in the row, so a layout cannot be out of step with itself.

`Rep h l lo hi` connects a layout to the memory: the headers of `h` are those of `l`, and the free
list holds the free chunks of `l` except those in `[lo, hi)`, the *loose* part that a
function is working on. A `Focus` is a row with a window cut out of it. All header writes of the
allocator are changes of one window (`Rep.edit`); the free list changes by `Rep.unlink` and
`Rep.addfreechunk`.
-/

namespace BaseNx.Mm

open ByteMem List

/-! ## Chunks in a row -/

/-- A chunk: its size with the header, and whether it is allocated. -/
structure Chunk where
  size : Nat
  used : Bool
  deriving DecidableEq

/-- The guard nodes at both ends of a region are allocated headers without payload. -/
def guardChunk : Chunk := ⟨8, true⟩

/-- The number of bytes of a row of chunks. -/
def total : List Chunk → Nat
  | [] => 0
  | c :: cs => c.size + total cs

/-- The size of the last chunk of a row that follows a chunk of size `p`. -/
def lastSize : Nat → List Chunk → Nat
  | p, [] => p
  | _, c :: cs => lastSize c.size cs

/-- The chunks of a row that starts at `a`, with their addresses. -/
def placed : Nat → List Chunk → List (Nat × Chunk)
  | _, [] => []
  | a, c :: cs => (a, c) :: placed (a + c.size) cs

/-- The `preceding` word of a chunk after one of size `p`. -/
def Chunk.tag (c : Chunk) (p : Nat) : Nat := if c.used then p + mmAllocBit else p

/-- The memory holds the headers of the row that starts at `a` after a chunk of size `p`. -/
def Headers (h : Heap) : Nat → Nat → List Chunk → Prop
  | _, _, [] => True
  | a, p, c :: cs =>
    h.size a = c.size ∧ h.preceding a = c.tag p ∧ Headers h (a + c.size) c.size cs

@[simp] theorem total_nil : total [] = 0 := rfl
@[simp] theorem total_cons (c : Chunk) (cs : List Chunk) :
    total (c :: cs) = c.size + total cs := rfl
@[simp] theorem lastSize_nil (p : Nat) : lastSize p [] = p := rfl
@[simp] theorem lastSize_cons (p : Nat) (c : Chunk) (cs : List Chunk) :
    lastSize p (c :: cs) = lastSize c.size cs := rfl
@[simp] theorem placed_nil (a : Nat) : placed a [] = [] := rfl
@[simp] theorem placed_cons (a : Nat) (c : Chunk) (cs : List Chunk) :
    placed a (c :: cs) = (a, c) :: placed (a + c.size) cs := rfl

theorem total_append (cs ds : List Chunk) : total (cs ++ ds) = total cs + total ds := by
  induction cs with
  | nil => simp
  | cons c cs ih => simp [ih, add_assoc]

theorem placed_append (a : Nat) (cs ds : List Chunk) :
    placed a (cs ++ ds) = placed a cs ++ placed (a + total cs) ds := by
  induction cs generalizing a with
  | nil => simp
  | cons c cs ih => simp [ih, add_assoc]

theorem lastSize_append (p : Nat) (cs ds : List Chunk) :
    lastSize p (cs ++ ds) = lastSize (lastSize p cs) ds := by
  induction cs generalizing p with
  | nil => rfl
  | cons c cs ih => exact ih c.size

variable {h : Heap}

theorem headers_append (a p : Nat) (cs ds : List Chunk) :
    Headers h a p (cs ++ ds) ↔
      Headers h a p cs ∧ Headers h (a + total cs) (lastSize p cs) ds := by
  induction cs generalizing a p with
  | nil => simp [Headers]
  | cons c cs ih =>
    simp only [cons_append, Headers, ih, total_cons, lastSize_cons, add_assoc, and_assoc]

variable {q : Nat × Chunk} {cs : List Chunk} {a : Nat}

theorem placed_bounds (hq : q ∈ placed a cs) :
    a ≤ q.1 ∧ q.1 + q.2.size ≤ a + total cs ∧ q.2 ∈ cs := by
  induction cs generalizing a with
  | nil => cases hq
  | cons c cs ih =>
    rcases mem_cons.mp hq with rfl | hq
    · simp
    · obtain ⟨h1, h2, h3⟩ := ih hq
      refine ⟨by omega, ?_, mem_cons_of_mem _ h3⟩
      simp only [total_cons]
      omega

theorem placed_pairwise (a : Nat) (cs : List Chunk) :
    (placed a cs).Pairwise fun q r => q.1 + q.2.size ≤ r.1 := by
  induction cs generalizing a with
  | nil => exact .nil
  | cons c cs ih => exact .cons (fun r hr => (placed_bounds hr).1) (ih _)

/-- The headers of a row survive when the eight bytes of each survive. -/
theorem Headers.congr {h h' : Heap} {a p : Nat} (hh : Headers h a p cs)
    (hb : ∀ q ∈ placed a cs, ∀ b, q.1 ≤ b → b < q.1 + 8 → h'.mem b = h.mem b) :
    Headers h' a p cs := by
  induction cs generalizing a p with
  | nil => trivial
  | cons c cs ih =>
    obtain ⟨hs, hp, hrest⟩ := hh
    have hc := hb (a, c) (by simp)
    refine ⟨?_, ?_, ih hrest (forall_mem_cons.1 hb).2⟩
    · exact (load32_congr fun b h1 h2 => hc b h1 (by simp only; omega)).trans hs
    · exact (load32_congr fun b h1 h2 => hc b (by simp only; omega) (by simp only; omega)).trans hp

/-! ## Regions -/

/-- A region: where it starts and the chunks between its guards. -/
structure Region where
  base : Nat
  chunks : List Chunk
  deriving DecidableEq

variable (r : Region)

/-- All chunks of a region, guards included. -/
def Region.line : List Chunk := guardChunk :: (r.chunks ++ [guardChunk])

def Region.stop : Nat := r.base + total r.line

/-- The regions of the heap. -/
abbrev Layout := List Region

/-- The chunks of the heap with their addresses. -/
def spots (l : Layout) : List (Nat × Chunk) := l.flatMap fun r => placed r.base r.line

/-- A chunk size that the allocator deals in. -/
def Chunk.Granular (c : Chunk) : Prop := 16 ∣ c.size ∧ 0 < c.size

/-- A region fits the address space, and no chunk size in it needs bit 31. -/
structure RegionOk (r : Region) : Prop where
  granular : ∀ c ∈ r.chunks, c.Granular
  aligned : 16 ∣ r.base
  pos : 0 < r.base
  short : total r.line ≤ 2 ^ 31
  fits : r.stop ≤ 2 ^ 32

/-- The regions and the node list share no byte. -/
structure LayoutOk (nodelist : Nat) (l : Layout) : Prop where
  region : ∀ r ∈ l, RegionOk r
  disjoint : l.Pairwise fun r s => r.stop ≤ s.base ∨ s.stop ≤ r.base
  heads : ∀ r ∈ l, r.stop ≤ nodelist ∨ nodelist + 16 * mmNnodes ≤ r.base
  pos : 0 < nodelist
  fits : nodelist + 16 * mmNnodes ≤ 2 ^ 32

theorem Region.total_line : total r.line = 16 + total r.chunks := by
  simp only [Region.line, total_cons, total_append, guardChunk, total_nil]
  omega

theorem Region.stop_eq : r.stop = r.base + 16 + total r.chunks := by
  rw [Region.stop, r.total_line]
  omega

variable {c : Chunk}

/-- A chunk is at most as large as its row. -/
theorem size_le_total (hc : c ∈ cs) : c.size ≤ total cs := by
  induction cs with
  | nil => cases hc
  | cons d cs ih =>
    rcases mem_cons.mp hc with rfl | hc
    · simp
    · have := ih hc
      simp only [total_cons]
      omega

variable {l : Layout}

theorem mem_spots : q ∈ spots l ↔ ∃ r ∈ l, q ∈ placed r.base r.line := by
  simp [spots]

/-- What the layout says about a single chunk. -/
structure SpotOk (nodelist : Nat) (q : Nat × Chunk) : Prop where
  pos : 0 < q.1
  fits : q.1 + q.2.size ≤ 2 ^ 32
  eight : 8 ≤ q.2.size
  short : q.2.size + 16 ≤ 2 ^ 31 ∨ q.2.size = 8
  shape : q.2 = guardChunk ∨ q.2.Granular ∧ q.1 % 16 = 8
  heads : q.1 + q.2.size ≤ nodelist ∨ nodelist + 16 * mmNnodes ≤ q.1

theorem Region.placed_line : placed r.base r.line = (r.base, guardChunk) ::
      (placed (r.base + 8) r.chunks ++ [(r.base + 8 + total r.chunks, guardChunk)]) := by
  simp only [Region.line, placed_cons, placed_append, guardChunk, placed_nil]

/-- Granular chunks in a row that starts at a header position stay at header positions. -/
theorem placed_mod (ha : a % 16 = 8) (hc : ∀ c ∈ cs, c.Granular) (hq : q ∈ placed a cs) :
    q.1 % 16 = 8 := by
  induction cs generalizing a with
  | nil => cases hq
  | cons c cs ih =>
    rcases mem_cons.mp hq with rfl | hq
    · exact ha
    · have := (hc c (by simp)).1
      exact ih (by omega) (forall_mem_cons.1 hc).2 hq

variable {nl : Nat}

theorem LayoutOk.spotOk (hl : LayoutOk nl l) (hq : q ∈ spots l) : SpotOk nl q := by
  obtain ⟨r, hr, hq⟩ := mem_spots.mp hq
  have hok := hl.region r hr
  have hbounds := placed_bounds hq
  have hheads := hl.heads r hr
  have hline := r.total_line
  have hpos := hok.pos
  have hfits := hok.fits
  have hshort := hok.short
  have hstop : r.stop = r.base + total r.line := rfl
  -- either a guard, or one of the chunks between the guards
  have hkind : q.2 = guardChunk ∨ q.2 ∈ r.chunks ∧ q.1 % 16 = 8 := by
    rw [r.placed_line] at hq
    simp only [mem_cons, mem_append, not_mem_nil, or_false] at hq
    rcases hq with rfl | hq | rfl
    · exact .inl rfl
    · have hal := hok.aligned
      exact .inr ⟨(placed_bounds hq).2.2, placed_mod (by omega) hok.granular hq⟩
    · exact .inl rfl
  have hshape : q.2 = guardChunk ∨ q.2.Granular ∧ q.1 % 16 = 8 :=
    hkind.imp id fun hk => ⟨hok.granular q.2 hk.1, hk.2⟩
  have hguard : q.2 = guardChunk → q.2.size = 8 := fun hg => by rw [hg]; rfl
  refine ⟨by omega, by omega, ?_, ?_, hshape, by omega⟩
  · rcases hshape with hg | ⟨⟨hd, hp⟩, -⟩
    · rw [hguard hg]
    · omega
  · rcases hkind with hg | ⟨hm, -⟩
    · exact .inr (hguard hg)
    · have := size_le_total hm
      exact .inl (by omega)

theorem LayoutOk.spots_pairwise (hl : LayoutOk nl l) :
    (spots l).Pairwise fun q r => q.1 + q.2.size ≤ r.1 ∨ r.1 + r.2.size ≤ q.1 := by
  refine pairwise_flatMap.mpr ⟨fun s _ => ?_, hl.disjoint.imp fun {s t} hst => ?_⟩
  · exact (placed_pairwise _ _).imp fun hqr => .inl hqr
  · intro x hx y hy
    have h1 := placed_bounds hx
    have h2 := placed_bounds hy
    simp only [Region.stop] at hst
    omega

theorem LayoutOk.spots_disjoint (hl : LayoutOk nl l) {q r : Nat × Chunk} (hq : q ∈ spots l)
    (hr : r ∈ spots l) : q = r ∨ q.1 + q.2.size ≤ r.1 ∨ r.1 + r.2.size ≤ q.1 := by
  have hpw := hl.spots_pairwise
  by_cases hqr : q = r
  · exact .inl hqr
  · have hsymm : Std.Symm fun q r : Nat × Chunk => q.1 + q.2.size ≤ r.1 ∨ r.1 + r.2.size ≤ q.1 :=
      ⟨fun _ _ h => h.symm⟩
    exact .inr (hpw.forall hq hr hqr)

/-! ## A window into a layout -/

/-- A layout with a window cut out of the row of one region. -/
structure Focus where
  above : Layout
  base : Nat
  left : List Chunk
  right : List Chunk
  below : Layout

variable {rest : List Chunk} {d : Chunk}

namespace Focus

variable (f : Focus) {W : List Chunk}

/-- Fill the window. -/
def plug (W : List Chunk) : Layout := f.above ++ ⟨f.base, f.left ++ (W ++ f.right)⟩ :: f.below

def lo : Nat := f.base + 8 + total f.left

/-- The size of the chunk in front of the window. -/
def prec : Nat := lastSize 8 f.left

/-- The chunks outside a window of `n` bytes. -/
def outer (n : Nat) : List (Nat × Chunk) :=
  spots f.above ++ (placed f.base (guardChunk :: f.left)
    ++ (placed (f.lo + n) (f.right ++ [guardChunk]) ++ spots f.below))

theorem mem_spots_plug : q ∈ spots (f.plug W) ↔ q ∈ f.outer (total W) ∨ q ∈ placed f.lo W := by
  have hrow : placed f.base (Region.line ⟨f.base, f.left ++ (W ++ f.right)⟩) =
      placed f.base (guardChunk :: f.left) ++ (placed f.lo W
        ++ placed (f.lo + total W) (f.right ++ [guardChunk])) := by
    simp only [Region.line, append_assoc, placed_cons, placed_append, lo, guardChunk,
      cons_append]
  simp only [spots, plug, flatMap_append, flatMap_cons, hrow, mem_append, outer]
  tauto

theorem exists_next : ∃ d rest, f.right ++ [guardChunk] = d :: rest := by
  cases hr : f.right with
  | nil => exact ⟨guardChunk, [], rfl⟩
  | cons d rest => exact ⟨d, rest ++ [guardChunk], rfl⟩

variable {f}

/-- The chunks outside a window of `n` bytes that is followed by `d` and `rest`, but for `d`. -/
def far (f : Focus) (n : Nat) (d : Chunk) (rest : List Chunk) : List (Nat × Chunk) :=
  spots f.above ++ (placed f.base (guardChunk :: f.left)
    ++ (placed (f.lo + n + d.size) rest ++ spots f.below))

theorem mem_outer {n : Nat} (hd : f.right ++ [guardChunk] = d :: rest) :
    q ∈ f.outer n ↔ q = (f.lo + n, d) ∨ q ∈ f.far n d rest := by
  simp only [outer, far, hd, placed_cons, mem_append, mem_cons]
  tauto

theorem far_outside (hl : LayoutOk nl (f.plug W)) (hd : f.right ++ [guardChunk] = d :: rest)
    (hq : q ∈ f.far (total W) d rest) : q.1 + q.2.size ≤ f.lo ∨ f.lo + total W + d.size ≤ q.1 := by
  obtain ⟨-, hmid, hcross⟩ := pairwise_append.mp hl.disjoint
  obtain ⟨hbelow, -⟩ := pairwise_cons.mp hmid
  have hstop := Region.stop_eq ⟨f.base, f.left ++ (W ++ f.right)⟩
  simp only [total_append] at hstop
  -- the chunk behind the window ends inside the region
  have hdsize : d.size ≤ total f.right + 8 := by
    have hdm : d ∈ f.right ++ [guardChunk] := by simp [hd]
    simpa [total_append, guardChunk] using size_le_total hdm
  simp only [far, mem_append] at hq
  rcases hq with hq | hq | hq | hq
  · obtain ⟨r, hr, hq⟩ := mem_spots.mp hq
    have hb := placed_bounds hq
    have hdis := hstop ▸ hcross r hr _ (mem_cons_self ..)
    simp only [Region.stop, lo] at hdis ⊢
    omega
  · have hb := placed_bounds hq
    simp only [total_cons, guardChunk] at hb
    simp only [lo]
    omega
  · exact .inr (placed_bounds hq).1
  · obtain ⟨r, hr, hq⟩ := mem_spots.mp hq
    have hb := placed_bounds hq
    have hdis := hstop ▸ hbelow r hr
    simp only [Region.stop, lo] at hdis ⊢
    omega

/-- Refilling the window with as many bytes keeps the layout well formed. -/
theorem layoutOk_plug (hl : LayoutOk nl (f.plug W)) {W' : List Chunk} (htot : total W' = total W)
    (hg : ∀ c ∈ W', c.Granular) : LayoutOk nl (f.plug W') := by
  have hline : total (Region.line ⟨f.base, f.left ++ (W' ++ f.right)⟩)
      = total (Region.line ⟨f.base, f.left ++ (W ++ f.right)⟩) := by
    simp only [Region.total_line, total_append, htot]
  have hstop : Region.stop ⟨f.base, f.left ++ (W' ++ f.right)⟩
      = Region.stop ⟨f.base, f.left ++ (W ++ f.right)⟩ := by
    simp only [Region.stop, hline]
  have hmem : ∀ r ∈ f.plug W', r ∈ f.plug W ∨ r = ⟨f.base, f.left ++ (W' ++ f.right)⟩ := by
    intro r hr
    simp only [plug, mem_append, mem_cons] at hr ⊢
    tauto
  have hself : ⟨f.base, f.left ++ (W ++ f.right)⟩ ∈ f.plug W := by simp [plug]
  have hok := hl.region _ hself
  refine ⟨fun r hr => ?_, ?_, fun r hr => ?_, hl.pos, hl.fits⟩
  · rcases hmem r hr with hr | rfl
    · exact hl.region r hr
    · refine ⟨?_, hok.aligned,
        hok.pos, by rw [hline]; exact hok.short, by rw [hstop]; exact hok.fits⟩
      intro c hc
      have hold := hok.granular c
      simp only [mem_append] at hc hold
      rcases hc with hc | hc | hc
      · exact hold (.inl hc)
      · exact hg c hc
      · exact hold (.inr (.inr hc))
  · obtain ⟨hself, hrest⟩ := pairwise_cons.mp ((pairwise_middle Or.symm).mp hl.disjoint)
    refine (pairwise_middle Or.symm).mpr (pairwise_cons.mpr ⟨fun s hs => ?_, hrest⟩)
    rw [hstop]
    exact hself s hs
  · rcases hmem r hr with hr | rfl
    · exact hl.heads r hr
    · rw [hstop]
      exact hl.heads _ hself

end Focus

/-! ## The layout in memory -/

/-- There is a free chunk at `a`. -/
def IsFree (l : Layout) (a : Nat) : Prop := ∃ c, (a, c) ∈ spots l ∧ c.used = false

/-- There is an allocated chunk of size `n` at `a` that is not a guard. -/
def Live (l : Layout) (a n : Nat) : Prop := (a, ⟨n, true⟩) ∈ spots l ∧ n ≠ 8

/-- The memory holds the layout, and the free list its free chunks outside `[lo, hi)`. -/
structure Rep (h : Heap) (l : Layout) (lo hi : Nat) : Prop where
  ok : LayoutOk h.mmNodelist l
  regions : h.mmRegions = l.map fun r => (r.base, r.stop - 8)
  headers : ∀ r ∈ l, Headers h r.base 0 r.line
  free : FreeSet h {a | IsFree l a ∧ ¬ (lo ≤ a ∧ a < hi)}

/-- The allocated chunks outside `X` keep their place, their size and their payload. -/
def Kept (X : Set Nat) (h : Heap) (l : Layout) (h' : Heap) (l' : Layout) : Prop :=
  ∀ a n, Live l a n → a ∉ X →
    Live l' a n ∧ ∀ b, a + 8 ≤ b → b < a + n → h'.mem b = h.mem b

theorem Kept.refl (X : Set Nat) (h : Heap) (l : Layout) : Kept X h l h l :=
  fun _ _ hlive _ => ⟨hlive, fun _ _ _ => rfl⟩

variable {X : Set Nat}

/-- The second step may touch blocks that were not there before the first. -/
theorem Kept.trans_fresh {Y : Set Nat} {h h' h'' : Heap} {l l' l'' : Layout}
    (h₁ : Kept X h l h' l') (h₂ : Kept Y h' l' h'' l'') (hY : ∀ a n, Live l a n → a ∈ Y → a ∈ X) :
    Kept X h l h'' l'' := by
  intro a n hlive hX
  obtain ⟨hlive', hb'⟩ := h₁ a n hlive hX
  obtain ⟨hlive'', hb''⟩ := h₂ a n hlive' fun ha => hX (hY a n hlive ha)
  exact ⟨hlive'', fun b hlo hhi => (hb'' b hlo hhi).trans (hb' b hlo hhi)⟩

theorem Kept.trans {h h' h'' : Heap} {l l' l'' : Layout} (h₁ : Kept X h l h' l')
    (h₂ : Kept X h' l' h'' l'') : Kept X h l h'' l'' :=
  h₁.trans_fresh h₂ fun _ _ _ => id

theorem IsFree.spot (ha : IsFree l a) (hl : LayoutOk nl l) :
    ∃ c, (a, c) ∈ spots l ∧ c.used = false ∧ 16 ≤ c.size ∧ SpotOk nl (a, c) := by
  obtain ⟨c, hc, hu⟩ := ha
  have hok := hl.spotOk hc
  refine ⟨c, hc, hu, ?_, hok⟩
  rcases hok.shape with hg | ⟨⟨hd, hp⟩, -⟩
  · have : c = guardChunk := hg
    rw [this] at hu
    cases hu
  · simp only at hd hp
    omega

variable {T : Set Nat} {b : Nat}

section

variable (hl : LayoutOk h.mmNodelist l)
  (hT : ∀ a ∈ T, (∃ i < mmNnodes, a = h.nodelist i) ∨ IsFree l a)
include hl hT

/-- Header bytes and the bytes of allocated chunks are no link words of heads or free chunks. -/
theorem LayoutOk.offLinks (hq : q ∈ spots l) (hlo : q.1 ≤ b) (hhi : b < q.1 + q.2.size)
    (hb : q.2.used = true ∨ b < q.1 + 8) : OffLinks T b := by
  intro a ha
  have hqok := hl.spotOk hq
  rcases hT a ha with ⟨i, hi, rfl⟩ | hfree
  · have := hqok.heads
    simp only [Heap.nodelist]
    omega
  · obtain ⟨c, hc, hu, hsize, -⟩ := hfree.spot hl
    rcases hl.spots_disjoint hq hc with rfl | hd
    · rcases hb with hb | hb
      · simp only [hu, Bool.false_eq_true] at hb
      · exact .inl hb
    · simp only at hd
      omega

theorem RelinkedOn.headers {h h' : Heap} (hr : RelinkedOn T h h')
    (hh : ∀ r ∈ l, Headers h r.base 0 r.line) : ∀ r ∈ l, Headers h' r.base 0 r.line := by
  intro r hr'
  refine (hh r hr').congr fun q hq b h1 h2 => hr.bytes b ?_
  have hq' : q ∈ spots l := mem_spots.mpr ⟨r, hr', hq⟩
  have := (hl.spotOk hq').eight
  exact hl.offLinks hT hq' h1 (by omega) (.inr h2)

/-- Relinking heads and free chunks keeps every allocated chunk. -/
theorem RelinkedOn.kept {h h' : Heap} (hr : RelinkedOn T h h') (X : Set Nat) : Kept X h l h' l :=
  fun _ _ hlive _ => ⟨hlive, fun b h1 h2 => hr.bytes b
    (hl.offLinks hT hlive.1 (by simp only; omega) (by simp only; omega) (.inl rfl))⟩

end

theorem Headers.size_eq {a p : Nat} (hh : Headers h a p cs) (hq : q ∈ placed a cs) :
    h.size q.1 = q.2.size := by
  induction cs generalizing a p with
  | nil => cases hq
  | cons c cs ih =>
    rcases mem_cons.mp hq with rfl | hq
    · exact hh.1
    · exact ih hh.2.2 hq

namespace Rep

variable {h h' : Heap} {lo hi lo' hi' x : Nat}

section

variable (hr : Rep h l lo hi)
include hr

theorem size_eq (hq : (a, c) ∈ spots l) : h.size a = c.size := by
  obtain ⟨r, hr', hq⟩ := mem_spots.mp hq
  exact (hr.headers r hr').size_eq hq

/-- Only the free chunks in the loose part matter. -/
theorem loose (hmem : ∀ a, IsFree l a → ((lo ≤ a ∧ a < hi) ↔ (lo' ≤ a ∧ a < hi'))) :
    Rep h l lo' hi' := by
  refine ⟨hr.ok, hr.regions, hr.headers, ?_⟩
  have hset : {a | IsFree l a ∧ ¬ (lo ≤ a ∧ a < hi)} =
      {a | IsFree l a ∧ ¬ (lo' ≤ a ∧ a < hi')} := by
    ext a
    exact and_congr_right fun ha => not_congr (hmem a ha)
  exact hset ▸ hr.free

/-- Take a free chunk out of the list: it joins the loose part. -/
theorem unlink (hx : IsFree l x) (hout : ¬ (lo ≤ x ∧ x < hi))
    (hmem : ∀ a, IsFree l a → ((lo' ≤ a ∧ a < hi') ↔ (a = x ∨ lo ≤ a ∧ a < hi))) :
    Rep (unlinkNode h x) l lo' hi' ∧ ∀ X, Kept X h l (unlinkNode h x) l := by
  obtain ⟨hfree, hrel⟩ := unlinkNode_spec hr.free (show x ∈ {a | _} from ⟨hx, hout⟩)
  have hT : ∀ a ∈ ({a | ∃ i < mmNnodes, a = h.nodelist i} ∪ {a | IsFree l a ∧ ¬ (lo ≤ a ∧ a < hi)} :
      Set Nat), (∃ i < mmNnodes, a = h.nodelist i) ∨ IsFree l a := by
    rintro a (ha | ha)
    · exact .inl ha
    · exact .inr ha.1
  refine ⟨⟨?_, ?_, hrel.headers hr.ok hT hr.headers, ?_⟩, hrel.kept hr.ok hT⟩
  · rw [hrel.frame.nodelist]
    exact hr.ok
  · rw [hrel.frame.regions]
    exact hr.regions
  · have hset : {a | IsFree l a ∧ ¬ (lo ≤ a ∧ a < hi)} \ {x}
        = {a | IsFree l a ∧ ¬ (lo' ≤ a ∧ a < hi')} := by
      ext a
      constructor
      · rintro ⟨⟨ha, hn⟩, hax⟩
        exact ⟨ha, fun hc => ((hmem a ha).mp hc).elim hax hn⟩
      · rintro ⟨ha, hn⟩
        exact ⟨⟨ha, fun hc => hn ((hmem a ha).mpr (.inr hc))⟩, fun hax =>
          hn ((hmem a ha).mpr (.inl hax))⟩
    exact hset ▸ hfree

/-- Put a free chunk of the loose part into the list. -/
theorem addfreechunk (hx : IsFree l x) (hin : lo ≤ x ∧ x < hi)
    (hmem : ∀ a, IsFree l a → ((lo ≤ a ∧ a < hi) ↔ (a = x ∨ lo' ≤ a ∧ a < hi')))
    (hout : ¬ (lo' ≤ x ∧ x < hi')) :
    Rep (mmAddfreechunk h x) l lo' hi' ∧ ∀ X, Kept X h l (mmAddfreechunk h x) l := by
  obtain ⟨c, hc, -, hsize, hok⟩ := hx.spot hr.ok
  have hxsize : h.size x = c.size := hr.size_eq hc
  have hfits := hok.fits
  have hheads := hok.heads
  simp only at hfits hheads
  obtain ⟨hfree, hrel⟩ := mmAddfreechunk_spec (x := x) hr.free (by omega) ⟨hok.pos, by omega⟩
    (by
      rintro a ⟨ha, hn⟩
      obtain ⟨d, hd, -, hdsize, -⟩ := ha.spot hr.ok
      rcases hr.ok.spots_disjoint hc hd with heq | hdis
      · obtain rfl : x = a := congrArg Prod.fst heq
        exact absurd hin hn
      · simp only [Apart] at hdis ⊢
        omega)
    (by
      intro i hi
      simp only [Apart, Heap.nodelist, mmNnodes] at hheads hi ⊢
      omega)
  have hT : ∀ a ∈ ({a | ∃ i < mmNnodes, a = h.nodelist i}
      ∪ insert x {a | IsFree l a ∧ ¬ (lo ≤ a ∧ a < hi)} : Set Nat),
      (∃ i < mmNnodes, a = h.nodelist i) ∨ IsFree l a := by
    rintro a (ha | rfl | ha)
    · exact .inl ha
    · exact .inr hx
    · exact .inr ha.1
  refine ⟨⟨?_, ?_, hrel.headers hr.ok hT hr.headers, ?_⟩, hrel.kept hr.ok hT⟩
  · rw [hrel.frame.nodelist]
    exact hr.ok
  · rw [hrel.frame.regions]
    exact hr.regions
  · have hset : insert x {a | IsFree l a ∧ ¬ (lo ≤ a ∧ a < hi)}
        = {a | IsFree l a ∧ ¬ (lo' ≤ a ∧ a < hi')} := by
      ext a
      constructor
      · rintro (rfl | ⟨ha, hn⟩)
        · exact ⟨hx, hout⟩
        · exact ⟨ha, fun hc => hn ((hmem a ha).mpr (.inr hc))⟩
      · rintro ⟨ha, hn⟩
        by_cases hax : a = x
        · exact .inl hax
        · exact .inr ⟨ha, fun hc => ((hmem a ha).mp hc).elim hax hn⟩
    exact hset ▸ hfree

end

end Rep

/-! ## Refilling a window -/

/-- `h'` shows the headers of the window filled with `W'` instead of `W`, and differs from `h` only
inside the window and in the header of the chunk behind it. -/
structure WindowEdit (f : Focus) (W W' : List Chunk) (h h' : Heap) : Prop where
  span : total W' = total W
  granular : ∀ c ∈ W', c.Granular
  frame : SameFrame h h'
  bytes : ∀ b, b < f.lo ∨ f.lo + total W + 8 ≤ b → h'.mem b = h.mem b
  headers : Headers h' f.lo f.prec W'
  next : ∀ d rest, f.right ++ [guardChunk] = d :: rest →
    h'.size (f.lo + total W) = d.size ∧
      h'.preceding (f.lo + total W) = d.tag (lastSize f.prec W')

theorem Focus.headers_plug {f : Focus} {W : List Chunk} :
    (∀ r ∈ f.plug W, Headers h r.base 0 r.line) ↔
      (∀ r, r ∈ f.above ∨ r ∈ f.below → Headers h r.base 0 r.line) ∧
        Headers h f.base 0 (guardChunk :: f.left) ∧ Headers h f.lo f.prec W ∧
          Headers h (f.lo + total W) (lastSize f.prec W) (f.right ++ [guardChunk]) := by
  have hrow : Headers h f.base 0 (Region.line ⟨f.base, f.left ++ (W ++ f.right)⟩) ↔
      Headers h f.base 0 (guardChunk :: f.left) ∧ Headers h f.lo f.prec W ∧
        Headers h (f.lo + total W) (lastSize f.prec W) (f.right ++ [guardChunk]) := by
    have hline : Region.line ⟨f.base, f.left ++ (W ++ f.right)⟩
        = (guardChunk :: f.left) ++ (W ++ (f.right ++ [guardChunk])) := by
      simp [Region.line]
    rw [hline, headers_append, headers_append]
    simp only [total_cons, lastSize_cons, Focus.lo, Focus.prec, guardChunk, add_assoc]
  rw [← hrow]
  simp only [Focus.plug, mem_append, mem_cons]
  constructor
  · intro hall
    exact ⟨fun r hr => hall r (by tauto), hall _ (.inr (.inl rfl))⟩
  · rintro ⟨hout, hmid⟩ r (hr | rfl | hr)
    · exact hout r (.inl hr)
    · exact hmid
    · exact hout r (.inr hr)

section Edit

variable {f : Focus} {W W' : List Chunk} {h h' : Heap}

theorem WindowEdit.free_iff (e : WindowEdit f W W' h h') (hl : LayoutOk nl (f.plug W))
    (hl' : LayoutOk nl (f.plug W')) (a : Nat) :
    (IsFree (f.plug W) a ∧ ¬ (f.lo ≤ a ∧ a < f.lo + total W)) ↔
      (IsFree (f.plug W') a ∧ ¬ (f.lo ≤ a ∧ a < f.lo + total W)) := by
  refine and_congr_left fun hout => exists_congr fun c => and_congr_left fun hu => ?_
  rw [f.mem_spots_plug, f.mem_spots_plug, e.span]
  refine or_congr_right ⟨fun hin => ?_, fun hin => ?_⟩
  · have hb := placed_bounds hin
    have hs := (hl.spotOk (f.mem_spots_plug.mpr (.inr hin))).eight
    omega
  · have hb := placed_bounds hin
    have hs := (hl'.spotOk (f.mem_spots_plug.mpr (.inr hin))).eight
    have ht := e.span
    simp only at hb hs
    omega

theorem WindowEdit.far_bytes (e : WindowEdit f W W' h h') (hl : LayoutOk nl (f.plug W))
    (hd : f.right ++ [guardChunk] = d :: rest) (hq : q ∈ f.far (total W) d rest) (hlo : q.1 ≤ b)
    (hhi : b < q.1 + q.2.size) : h'.mem b = h.mem b := by
  have hd8 := (hl.spotOk (f.mem_spots_plug.mpr (.inl ((Focus.mem_outer hd).mpr (.inl rfl))))).eight
  have hout := Focus.far_outside hl hd hq
  simp only at hd8
  exact e.bytes b (by omega)

theorem FreeSet.congr {S : Set Nat} (hs : FreeSet h S) (hf : h'.mmNodelist = h.mmNodelist)
    (hw : ∀ a, (∃ i < mmNnodes, a = h.nodelist i) ∨ a ∈ S →
      h'.size a = h.size a ∧ h'.flink a = h.flink a ∧ h'.blink a = h.blink a) : FreeSet h' S := by
  obtain ⟨L, hl, hne, hmem⟩ := hs
  have hwL : ∀ a ∈ L, _ := fun a ha => hw a ((hmem a).mp ha)
  refine ⟨L, hl.congr hf (fun a ha => (hwL a ha).1) (fun a ha => (hwL a ha).2.1)
    (fun a ha => (hwL a ha).2.2), fun a ha => ?_, fun a => ?_⟩
  · rw [(hw a (.inr ha)).1]
    exact hne a ha
  · simp only [Heap.nodelist_congr hf]
    exact hmem a

theorem node_words_of_bytes (hb : ∀ b, a ≤ b → b < a + 16 → h'.mem b = h.mem b) :
    h'.size a = h.size a ∧ h'.flink a = h.flink a ∧ h'.blink a = h.blink a :=
  ⟨load32_congr fun b h1 h2 => hb b h1 (by omega),
    load32_congr fun b h1 h2 => hb b (by omega) (by omega),
    load32_congr fun b h1 h2 => hb b (by omega) (by omega)⟩

theorem WindowEdit.node_words {lo hi : Nat} (e : WindowEdit f W W' h h')
    (hr : Rep h (f.plug W) lo hi) (ha : (∃ i < mmNnodes, a = h.nodelist i) ∨
      IsFree (f.plug W) a ∧ ¬ (f.lo ≤ a ∧ a < f.lo + total W)) :
    h'.size a = h.size a ∧ h'.flink a = h.flink a ∧ h'.blink a = h.blink a := by
  rcases ha with ⟨i, hi, rfl⟩ | ⟨hfree, hout⟩
  · -- the window lies inside its region
    have hheads := hr.ok.heads ⟨f.base, f.left ++ (W ++ f.right)⟩ (by simp [Focus.plug])
    simp only [Region.stop_eq, total_append, mmNnodes] at hheads hi
    refine node_words_of_bytes fun b h1 h2 => e.bytes b ?_
    simp only [Heap.nodelist, Focus.lo] at h1 h2 ⊢
    omega
  · obtain ⟨c, hc, -, hsize, -⟩ := hfree.spot hr.ok
    obtain ⟨d, rest, hd⟩ := f.exists_next
    rcases f.mem_spots_plug.mp hc with hc' | hc'
    · rcases (Focus.mem_outer hd).mp hc' with heq | hfar
      · obtain ⟨rfl, rfl⟩ := Prod.mk.inj heq
        refine ⟨?_, load32_congr fun b h1 h2 => ?_, load32_congr fun b h1 h2 => ?_⟩
        · rw [hr.size_eq hc]
          exact (e.next c rest hd).1
        · exact e.bytes b (.inr (by omega))
        · exact e.bytes b (.inr (by omega))
      · exact node_words_of_bytes fun b h1 h2 =>
          e.far_bytes hr.ok hd hfar h1 (by simp only; omega)
    · have hb := placed_bounds hc'
      simp only at hb
      omega

/-- **Refilling the window.** The window is the loose part, so the free list does not notice. -/
theorem Rep.edit (hr : Rep h (f.plug W) f.lo (f.lo + total W)) (e : WindowEdit f W W' h h') :
    Rep h' (f.plug W') f.lo (f.lo + total W) := by
  have hl' : LayoutOk h.mmNodelist (f.plug W') := f.layoutOk_plug hr.ok e.span e.granular
  obtain ⟨d, rest, hd⟩ := f.exists_next
  obtain ⟨hout, hleft, -, hright⟩ := Focus.headers_plug.mp hr.headers
  have hfar : ∀ q ∈ f.far (total W) d rest, ∀ b, q.1 ≤ b → b < q.1 + 8 → h'.mem b = h.mem b := by
    intro q hq b h1 h2
    have := (hr.ok.spotOk (f.mem_spots_plug.mpr (.inl ((Focus.mem_outer hd).mpr (.inr hq))))).eight
    exact e.far_bytes hr.ok hd hq h1 (by omega)
  have hnext := e.next d rest hd
  refine ⟨?_, ?_, Focus.headers_plug.mpr ⟨?_, ?_, e.headers, ?_⟩, ?_⟩
  · rw [e.frame.nodelist]
    exact hl'
  · rw [e.frame.regions, hr.regions]
    have hstop : Region.stop ⟨f.base, f.left ++ (W' ++ f.right)⟩
        = Region.stop ⟨f.base, f.left ++ (W ++ f.right)⟩ := by
      simp only [Region.stop_eq, total_append, e.span]
    simp only [Focus.plug, map_append, map_cons, hstop]
  · -- the other regions
    intro r hr'
    refine (hout r hr').congr fun q hq => ?_
    have hsp : ∀ l : Layout, r ∈ l → q ∈ spots l := fun l hl => mem_spots.mpr ⟨r, hl, hq⟩
    refine hfar q ?_
    simp only [Focus.far, mem_append]
    exact hr'.elim (fun h => .inl (hsp _ h)) fun h => .inr (.inr (.inr (hsp _ h)))
  · -- the row in front of the window
    refine hleft.congr fun q hq => hfar q ?_
    simp only [Focus.far, mem_append]
    exact .inr (.inl hq)
  · -- the row behind it
    rw [e.span, hd]
    rw [hd] at hright
    refine ⟨hnext.1, hnext.2, hright.2.2.congr fun q hq => hfar q ?_⟩
    simp only [Focus.far, mem_append]
    exact .inr (.inr (.inl hq))
  · have hset : {a | IsFree (f.plug W') a ∧ ¬ (f.lo ≤ a ∧ a < f.lo + total W)}
        = {a | IsFree (f.plug W) a ∧ ¬ (f.lo ≤ a ∧ a < f.lo + total W)} :=
      Set.ext fun a => (e.free_iff hr.ok hl' a).symm
    rw [hset]
    exact hr.free.congr e.frame.nodelist fun a ha => e.node_words hr ha

/-- The chunks outside the window keep their payload. -/
theorem WindowEdit.kept {lo hi : Nat} (e : WindowEdit f W W' h h') (hr : Rep h (f.plug W) lo hi)
    (hX : ∀ a n, (a, ⟨n, true⟩) ∈ placed f.lo W → a ∈ X) : Kept X h (f.plug W) h' (f.plug W') := by
  rintro a n ⟨hspot, hn⟩ haX
  obtain ⟨d, rest, hd⟩ := f.exists_next
  rcases f.mem_spots_plug.mp hspot with hout | hin
  · refine ⟨⟨f.mem_spots_plug.mpr (.inl (e.span ▸ hout)), hn⟩, fun b h1 h2 => ?_⟩
    rcases (Focus.mem_outer hd).mp hout with heq | hfar
    · obtain ⟨rfl, rfl⟩ := Prod.mk.inj heq
      exact e.bytes b (.inr h1)
    · exact e.far_bytes hr.ok hd hfar (by simp only; omega) (by simp only; omega)
  · exact absurd (hX a n hin) haX

end Edit

end BaseNx.Mm
