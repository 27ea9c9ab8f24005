import BaseNx.Mm.Layout

/-!
# Working in a window

What a function of the allocator can read off the memory at its window (`Rep.window`), how it
finds the window of a chunk (`exists_focus`), and when the heap stays coalesced, that is, without
two free chunks next to each other (`coalesced_plug`).
-/

namespace BaseNx.Mm

open ByteMem List

/-! ## The allocation bit -/

section Bits

variable {c : Chunk} {p v : Nat}

section

variable (hp : p < 2 ^ 31)
include hp

theorem or_allocBit : p ||| mmAllocBit = p + mmAllocBit := by
  have := Nat.two_pow_add_eq_or_of_lt hp 1
  rw [Nat.or_comm, add_comm]
  simpa [mmAllocBit] using this.symm

theorem and_allocBit_of_lt : p &&& mmAllocBit = 0 := by
  have hbit : p.testBit 31 = false := Nat.testBit_lt_two_pow hp
  have := Nat.and_two_pow p 31
  rw [hbit] at this
  simpa [mmAllocBit] using this

theorem add_allocBit_and : (p + mmAllocBit) &&& mmAllocBit = mmAllocBit := by
  have hbit : (p + 2 ^ 31).testBit 31 = true := by
    rw [add_comm, Nat.testBit_two_pow_add_eq, Nat.testBit_lt_two_pow hp]
    rfl
  have := Nat.and_two_pow (p + 2 ^ 31) 31
  rw [hbit] at this
  simpa [mmAllocBit] using this

theorem tag_and_allocBit : c.tag p &&& mmAllocBit = if c.used then mmAllocBit else 0 := by
  unfold Chunk.tag
  split
  · exact add_allocBit_and hp
  · exact and_allocBit_of_lt hp

theorem tag_and_allocBit_eq_zero : c.tag p &&& mmAllocBit = 0 ↔ c.used = false := by
  rw [tag_and_allocBit hp]
  cases c.used <;> simp [mmAllocBit]

/-- Clearing the bit leaves the size of the chunk before. -/
theorem tag_and_sizeMask : c.tag p &&& mmSizeMask = p := by
  have hmod : ∀ x, x &&& mmSizeMask = x % 2 ^ 31 := fun x => Nat.and_two_pow_sub_one_eq_mod x 31
  rw [hmod, Chunk.tag]
  simp only [mmAllocBit]
  split <;> omega

theorem tag_or_allocBit : c.tag p ||| mmAllocBit = p + mmAllocBit := by
  unfold Chunk.tag
  split
  · rw [← or_allocBit hp, Nat.or_assoc, Nat.or_self]
  · exact or_allocBit hp

/-- Replacing the size and keeping the bit. -/
theorem or_tag_and_allocBit (hv : v < 2 ^ 31) : v ||| (c.tag p &&& mmAllocBit) = c.tag v := by
  rw [tag_and_allocBit hp, Chunk.tag]
  split
  · exact or_allocBit hv
  · exact Nat.or_zero v

theorem tag_lt : c.tag p < 2 ^ 32 := by
  unfold Chunk.tag
  simp only [mmAllocBit]
  split <;> omega

end

end Bits

@[simp] theorem tag_used (n p : Nat) : Chunk.tag ⟨n, true⟩ p = p + mmAllocBit := rfl
@[simp] theorem tag_free (n p : Nat) : Chunk.tag ⟨n, false⟩ p = p := rfl

/-! ## The neighbours of a window -/

namespace Focus

variable (f : Focus)

def prev : Chunk := f.left.getLastD guardChunk

def next : Chunk := f.right.headD guardChunk

theorem right_eq : f.right ++ [guardChunk] = f.next :: (f.right ++ [guardChunk]).tail := by
  unfold next
  cases f.right <;> rfl

theorem next_eq {d : Chunk} {rest : List Chunk} (hd : f.right ++ [guardChunk] = d :: rest) :
    f.next = d := by
  rw [f.right_eq] at hd
  exact (List.cons.inj hd).1

theorem left_eq : ∃ init, guardChunk :: f.left = init ++ [f.prev] := by
  unfold prev
  rcases eq_nil_or_concat f.left with hl | ⟨init, p, hl⟩
  · exact ⟨[], by simp [hl]⟩
  · exact ⟨guardChunk :: init, by simp [hl]⟩

theorem prec_eq : f.prec = f.prev.size := by
  obtain ⟨init, hinit⟩ := f.left_eq
  have : f.prec = lastSize 0 (guardChunk :: f.left) := rfl
  rw [this, hinit, lastSize_append]
  rfl

/-- The window grown by the chunk behind it. -/
def dropRight : Focus := { f with right := f.right.tail }

/-- The window grown by the chunk in front of it. -/
def dropLeft : Focus := { f with left := f.left.dropLast }

@[simp] theorem dropRight_lo : f.dropRight.lo = f.lo := rfl
@[simp] theorem dropRight_prec : f.dropRight.prec = f.prec := rfl
@[simp] theorem dropRight_prev : f.dropRight.prev = f.prev := rfl
@[simp] theorem dropLeft_next : f.dropLeft.next = f.next := rfl

variable {f}

/-- A free chunk behind the window is not the guard, so the window can take it in. -/
theorem next_free (hu : f.next.used = false) :
    ∃ k, f.next = ⟨k, false⟩ ∧ ∀ W, f.plug W = f.dropRight.plug (W ++ [⟨k, false⟩]) := by
  unfold next at hu ⊢
  cases hr : f.right with
  | nil =>
    rw [hr] at hu
    cases hu
  | cons d right =>
    rw [hr] at hu
    obtain ⟨k, u⟩ := d
    obtain rfl : u = false := hu
    exact ⟨k, rfl, fun W => by simp [plug, dropRight, hr]⟩

/-- A free chunk in front of the window is not the guard, so the window can take it in. -/
theorem prev_free (hu : f.prev.used = false) :
    ∃ k, f.prev = ⟨k, false⟩ ∧ f.dropLeft.lo + k = f.lo ∧
      ∀ W, f.plug W = f.dropLeft.plug (⟨k, false⟩ :: W) := by
  unfold prev at hu ⊢
  rcases eq_nil_or_concat f.left with hl | ⟨left, ⟨k, u⟩, hl⟩
  · rw [hl] at hu
    cases hu
  · rw [hl] at hu
    simp only [concat_eq_append, getLastD_concat] at hu
    obtain rfl : u = false := hu
    refine ⟨k, by simp [hl], ?_, fun W => by simp [plug, dropLeft, hl]⟩
    simp [lo, dropLeft, hl, total_append, add_assoc]

end Focus

variable {a : Nat} {q : Nat × Chunk} {cs : List Chunk}

theorem mem_placed_split (hq : q ∈ placed a cs) :
    ∃ left right, cs = left ++ q.2 :: right ∧ q.1 = a + total left := by
  induction cs generalizing a with
  | nil => cases hq
  | cons c cs ih =>
    rcases mem_cons.mp hq with rfl | hq
    · exact ⟨[], cs, rfl, by simp⟩
    · obtain ⟨left, right, hcs, ha⟩ := ih hq
      exact ⟨c :: left, right, by simp [hcs], by simp [ha, add_assoc]⟩

variable {l : Layout} {c : Chunk}

theorem exists_focus (hc : (a, c) ∈ spots l) (hg : c ≠ guardChunk) :
    ∃ f : Focus, l = f.plug [c] ∧ f.lo = a := by
  obtain ⟨r, hr, hq⟩ := mem_spots.mp hc
  obtain ⟨above, below, rfl⟩ := append_of_mem hr
  rw [r.placed_line] at hq
  simp only [mem_cons, mem_append, not_mem_nil, or_false, Prod.mk.injEq] at hq
  rcases hq with ⟨-, hc'⟩ | hq | ⟨-, hc'⟩
  · exact absurd hc' hg
  · obtain ⟨left, right, hcs, ha⟩ := mem_placed_split hq
    refine ⟨⟨above, r.base, left, right, below⟩, ?_, ha.symm⟩
    simp only [Focus.plug, singleton_append]
    rw [← hcs]
  · exact absurd hc' hg

theorem IsFree.focus (ha : IsFree l a) :
    ∃ (f : Focus) (n : Nat), l = f.plug [⟨n, false⟩] ∧ f.lo = a := by
  obtain ⟨⟨n, u⟩, hc, hu⟩ := ha
  obtain rfl : u = false := hu
  obtain ⟨f, hl, hlo⟩ := exists_focus hc (by simp [guardChunk])
  exact ⟨f, n, hl, hlo⟩

variable {n : Nat}

theorem Live.focus (ha : Live l a n) : ∃ f : Focus, l = f.plug [⟨n, true⟩] ∧ f.lo = a :=
  exists_focus ha.1 fun hg => ha.2 (congrArg Chunk.size hg)

variable {nl : Nat}

/-- No allocated chunk starts inside a free one. -/
theorem LayoutOk.not_live (hl : LayoutOk nl l) {x N : Nat} (hx : (x, ⟨N, false⟩) ∈ spots l)
    (ha : x ≤ a ∧ a < x + N) : ¬ Live l a n := by
  intro hlive
  have h8 := (hl.spotOk hlive.1).eight
  rcases hl.spots_disjoint hx hlive.1 with heq | hd
  · cases (Prod.mk.inj heq).2
  · simp only at hd h8
    omega

/-! ## What the memory shows at a window -/

theorem lastSize_le (p : Nat) (cs : List Chunk) : lastSize p cs ≤ p + total cs := by
  induction cs generalizing p with
  | nil => simp
  | cons c cs ih =>
    have := ih c.size
    simp only [lastSize_cons, total_cons]
    omega

theorem dvd_total (hc : ∀ c ∈ cs, c.Granular) : 16 ∣ total cs := by
  induction cs with
  | nil => exact Nat.dvd_zero 16
  | cons c cs ih => exact dvd_add (hc c (by simp)).1 (ih (forall_mem_cons.1 hc).2)

variable {W : List Chunk} {f : Focus}

/-- A chunk in the address range of the window is one of the chunks in it. -/
theorem Focus.mem_window (hl : LayoutOk nl (f.plug W)) (hq : q ∈ spots (f.plug W))
    (hin : f.lo ≤ q.1 ∧ q.1 < f.lo + total W) : q ∈ placed f.lo W := by
  have h8 := (hl.spotOk hq).eight
  rcases f.mem_spots_plug.mp hq with hout | hq
  · rcases (Focus.mem_outer f.right_eq).mp hout with rfl | hfar
    · omega
    · have := Focus.far_outside hl f.right_eq hfar
      omega
  · exact hq

theorem Focus.free_in_window (hl : LayoutOk nl (f.plug W)) (ha : IsFree (f.plug W) a)
    (hin : f.lo ≤ a ∧ a < f.lo + total W) : ∃ c, (a, c) ∈ placed f.lo W ∧ c.used = false := by
  obtain ⟨c, hc, hu⟩ := ha
  exact ⟨c, Focus.mem_window hl hc hin, hu⟩

variable {u : Bool}

theorem Focus.free_in_one (hl : LayoutOk nl (f.plug [⟨n, u⟩])) (ha : IsFree (f.plug [⟨n, u⟩]) a)
    (hin : f.lo ≤ a ∧ a < f.lo + n) : a = f.lo ∧ u = false := by
  obtain ⟨c, hc, hu⟩ := free_in_window hl ha (by simpa using hin)
  simp only [placed_cons, placed_nil, mem_singleton, Prod.mk.injEq] at hc
  exact ⟨hc.1, by rw [hc.2] at hu; exact hu⟩

theorem Focus.free_in_two {k : Nat} {v : Bool} (hl : LayoutOk nl (f.plug [⟨n, u⟩, ⟨k, v⟩]))
    (ha : IsFree (f.plug [⟨n, u⟩, ⟨k, v⟩]) a) (hin : f.lo ≤ a ∧ a < f.lo + (n + k)) :
    a = f.lo ∧ u = false ∨ a = f.lo + n ∧ v = false := by
  obtain ⟨c, hc, hu⟩ := free_in_window hl ha (by simpa using hin)
  simp only [placed_cons, placed_nil, mem_cons, not_mem_nil, or_false,
    Prod.mk.injEq] at hc
  rcases hc with ⟨rfl, rfl⟩ | ⟨rfl, rfl⟩
  · exact .inl ⟨rfl, hu⟩
  · exact .inr ⟨rfl, hu⟩

theorem Focus.isFree_of_mem (hc : (a, c) ∈ placed f.lo W) (hu : c.used = false) :
    IsFree (f.plug W) a :=
  ⟨c, f.mem_spots_plug.mpr (.inr hc), hu⟩

/-- Bounds and header words around a window. -/
structure WindowFacts (h : Heap) (f : Focus) (W : List Chunk) : Prop where
  aligned : f.lo % 16 = 8
  room : f.lo + total W + 8 ≤ 2 ^ 32
  short : f.prec + total W + 8 ≤ 2 ^ 31
  prec_lt : f.prec < f.lo
  granular : ∀ c ∈ W, c.Granular
  headers : Headers h f.lo f.prec W
  nextSize : h.size (f.lo + total W) = f.next.size
  nextTag : h.preceding (f.lo + total W) = f.next.tag (lastSize f.prec W)
  prevSize : h.size (f.lo - f.prec) = f.prev.size
  prevTag : ∃ p < 2 ^ 31, h.preceding (f.lo - f.prec) = f.prev.tag p

variable {h : Heap}

theorem Rep.window {lo hi : Nat} (hr : Rep h (f.plug W) lo hi) : WindowFacts h f W := by
  obtain ⟨-, hleft, hW, hright⟩ := Focus.headers_plug.mp hr.headers
  have hok := hr.ok.region ⟨f.base, f.left ++ (W ++ f.right)⟩ (by simp [Focus.plug])
  have hal := hok.aligned
  have hpos := hok.pos
  have hshort := hok.short
  have hfits := hok.fits
  rw [Region.total_line] at hshort
  rw [Region.stop_eq] at hfits
  simp only [total_append] at hal hpos hshort hfits
  have hgran : ∀ c ∈ f.left ++ (W ++ f.right), c.Granular := hok.granular
  obtain ⟨init, hinit⟩ := f.left_eq
  -- the chunk in front ends where the window begins
  have htot : 8 + total f.left = total init + f.prev.size := by
    have : total (guardChunk :: f.left) = total (init ++ [f.prev]) := by rw [hinit]
    simpa [total_append, guardChunk] using this
  have hprec := f.prec_eq
  have hlo : f.lo = f.base + 8 + total f.left := rfl
  have hdvd : 16 ∣ total f.left := dvd_total fun c hc => hgran c (by simp [hc])
  rw [f.right_eq] at hright
  rw [hinit, headers_append] at hleft
  have hprevAddr : f.lo - f.prec = f.base + total init := by omega
  refine
    { aligned := by omega
      room := by omega
      short := by omega
      prec_lt := by omega
      granular := fun c hc => hgran c (by simp [hc])
      headers := hW
      nextSize := hright.1
      nextTag := hright.2.1
      prevSize := ?_
      prevTag := ⟨lastSize 0 init, ?_, ?_⟩ }
  · rw [hprevAddr]
    exact hleft.2.1
  · have := lastSize_le 0 init
    omega
  · rw [hprevAddr]
    exact hleft.2.2.1

section WindowEdits

variable {h h' : Heap} {N n n₁ n₂ : Nat} {u u₁ u₂ : Bool}

/-- Refilling a window of `N` bytes with one chunk, from the words that the stores leave behind. -/
theorem windowEdit_one (hN : total W = N) (hg : 16 ∣ N ∧ 0 < N) (hframe : SameFrame h h')
    (hbytes : ∀ b, b < f.lo ∨ f.lo + N + 8 ≤ b → h'.mem b = h.mem b) (hsize : h'.size f.lo = N)
    (htag : h'.preceding f.lo = Chunk.tag ⟨N, u⟩ f.prec) (hnsize : h'.size (f.lo + N) = f.next.size)
    (hntag : h'.preceding (f.lo + N) = f.next.tag N) : WindowEdit f W [⟨N, u⟩] h h' := by
  subst hN
  refine ⟨by simp, by simpa [Chunk.Granular] using hg, hframe, hbytes, ⟨hsize, htag, trivial⟩,
    fun d rest hd => ?_⟩
  rw [← f.next_eq hd]
  exact ⟨hnsize, hntag⟩

theorem windowEdit_two (hN : total W = N) (hspan : n₁ + n₂ = N) (hg₁ : 16 ∣ n₁ ∧ 0 < n₁)
    (hg₂ : 16 ∣ n₂ ∧ 0 < n₂) (hframe : SameFrame h h')
    (hbytes : ∀ b, b < f.lo ∨ f.lo + N + 8 ≤ b → h'.mem b = h.mem b)
    (hsize₁ : h'.size f.lo = n₁) (htag₁ : h'.preceding f.lo = Chunk.tag ⟨n₁, u₁⟩ f.prec)
    (hsize₂ : h'.size (f.lo + n₁) = n₂) (htag₂ : h'.preceding (f.lo + n₁) = Chunk.tag ⟨n₂, u₂⟩ n₁)
    (hnsize : h'.size (f.lo + N) = f.next.size) (hntag : h'.preceding (f.lo + N) = f.next.tag n₂) :
    WindowEdit f W [⟨n₁, u₁⟩, ⟨n₂, u₂⟩] h h' := by
  subst hN
  refine ⟨by simpa using hspan, by simp [Chunk.Granular, hg₁, hg₂], hframe, hbytes,
    ⟨hsize₁, htag₁, hsize₂, htag₂, trivial⟩, fun d rest hd => ?_⟩
  rw [← f.next_eq hd]
  exact ⟨hnsize, hntag⟩

end WindowEdits

theorem WindowFacts.one (w : WindowFacts h f [⟨n, u⟩]) :
    (f.lo + n + 8 ≤ 2 ^ 32 ∧ f.prec + n + 8 ≤ 2 ^ 31 ∧ 16 ∣ n ∧ 0 < n) ∧
      h.size f.lo = n ∧ h.preceding f.lo = Chunk.tag ⟨n, u⟩ f.prec ∧
      h.size (f.lo + n) = f.next.size ∧ h.preceding (f.lo + n) = f.next.tag n :=
  ⟨⟨w.room, w.short, w.granular ⟨n, u⟩ (by simp)⟩, w.headers.1, w.headers.2.1, w.nextSize,
    w.nextTag⟩

/-- What the memory shows at a window with two chunks. -/
theorem WindowFacts.two {n₁ n₂ : Nat} {u₁ u₂ : Bool} (w : WindowFacts h f [⟨n₁, u₁⟩, ⟨n₂, u₂⟩]) :
    (f.lo + n₁ + n₂ + 8 ≤ 2 ^ 32 ∧ f.prec + n₁ + n₂ + 8 ≤ 2 ^ 31 ∧ (16 ∣ n₁ ∧ 0 < n₁) ∧
      (16 ∣ n₂ ∧ 0 < n₂)) ∧
      (h.size f.lo = n₁ ∧ h.preceding f.lo = Chunk.tag ⟨n₁, u₁⟩ f.prec) ∧
      (h.size (f.lo + n₁) = n₂ ∧ h.preceding (f.lo + n₁) = Chunk.tag ⟨n₂, u₂⟩ n₁) ∧
      h.size (f.lo + n₁ + n₂) = f.next.size ∧ h.preceding (f.lo + n₁ + n₂) = f.next.tag n₂ := by
  have hroom := w.room
  have hshort := w.short
  have hs := w.nextSize
  have ht := w.nextTag
  simp only [total_cons, total_nil, add_zero, ← add_assoc, lastSize_cons,
    lastSize_nil] at hroom hshort hs ht
  exact ⟨⟨hroom, hshort, w.granular ⟨n₁, u₁⟩ (by simp), w.granular ⟨n₂, u₂⟩ (by simp)⟩,
    ⟨w.headers.1, w.headers.2.1⟩, ⟨w.headers.2.2.1, w.headers.2.2.2.1⟩, hs, ht⟩

theorem setPrecedingSize_eq {p v : Nat} (ha : h.preceding a = c.tag p) (hp : p < 2 ^ 31)
    (hv : v < 2 ^ 31) : h.setPrecedingSize a v = h.setPreceding a (c.tag v) := by
  rw [Heap.setPrecedingSize, ha, or_tag_and_allocBit hp hv]

/-! ## Coalesced heaps -/

/-- No two neighbours are both free. -/
def NoAdjacent (cs : List Chunk) : Prop := cs.IsChain fun c d => c.used = true ∨ d.used = true

/-- No two neighbouring chunks of the heap are both free. -/
def Coalesced (l : Layout) : Prop := ∀ r ∈ l, NoAdjacent r.line

theorem noAdjacent_split (init : List Chunk) (p : Chunk) (W : List Chunk) (d : Chunk)
    (rest : List Chunk) : NoAdjacent (init ++ p :: (W ++ d :: rest)) ↔
      (NoAdjacent (init ++ [p]) ∧ NoAdjacent (d :: rest)) ∧ NoAdjacent (p :: (W ++ [d])) := by
  have hfront : NoAdjacent (init ++ p :: (W ++ d :: rest)) ↔
      NoAdjacent (init ++ [p]) ∧ NoAdjacent (p :: (W ++ d :: rest)) := isChain_split
  have hback : NoAdjacent ((p :: W) ++ d :: rest) ↔
      NoAdjacent ((p :: W) ++ [d]) ∧ NoAdjacent (d :: rest) := isChain_split
  rw [hfront, ← cons_append, hback, cons_append]
  tauto

/-- The part of `Coalesced` that does not concern the window. -/
def Focus.CoalescedAround (f : Focus) : Prop :=
  (∀ r, r ∈ f.above ∨ r ∈ f.below → NoAdjacent r.line) ∧
    NoAdjacent (guardChunk :: f.left) ∧ NoAdjacent (f.right ++ [guardChunk])

theorem coalesced_plug :
    Coalesced (f.plug W) ↔ f.CoalescedAround ∧ NoAdjacent (f.prev :: (W ++ [f.next])) := by
  have hrow : NoAdjacent (Region.line ⟨f.base, f.left ++ (W ++ f.right)⟩) ↔
      (NoAdjacent (guardChunk :: f.left) ∧ NoAdjacent (f.right ++ [guardChunk])) ∧
        NoAdjacent (f.prev :: (W ++ [f.next])) := by
    obtain ⟨init, hinit⟩ := f.left_eq
    have hline : Region.line ⟨f.base, f.left ++ (W ++ f.right)⟩
        = (guardChunk :: f.left) ++ (W ++ (f.right ++ [guardChunk])) := by simp [Region.line]
    have hsplit := noAdjacent_split init f.prev W f.next (f.right ++ [guardChunk]).tail
    rw [← f.right_eq] at hsplit
    rw [hline, hinit, ← hsplit]
    simp
  simp only [Focus.CoalescedAround, and_assoc] at hrow ⊢
  constructor
  · intro hc
    have hmid := hrow.mp (hc _ (by simp [Focus.plug]))
    refine ⟨fun r hr => hc r ?_, hmid⟩
    simp only [Focus.plug, mem_append, mem_cons]
    tauto
  · rintro ⟨hout, hmid⟩ r hr
    simp only [Focus.plug, mem_append, mem_cons] at hr
    rcases hr with hr | rfl | hr
    · exact hout r (.inl hr)
    · exact hrow.mpr hmid
    · exact hout r (.inr hr)

/-- The heap is represented with nothing loose, and it is coalesced. -/
structure HeapOk (h : Heap) (l : Layout) : Prop where
  rep : Rep h l 0 0
  coalesced : Coalesced l

end BaseNx.Mm
