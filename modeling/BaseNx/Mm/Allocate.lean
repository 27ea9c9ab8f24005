import BaseNx.Mm.Window

/-!
# Allocation and release

`mm_malloc`, `mm_free` and `mm_shrinkchunk` on a represented heap. Each theorem says that the
heap stays represented and coalesced (`HeapOk`) and that the chunks that are not the operand are
kept (`Kept`).
-/

namespace BaseNx.Mm

open ByteMem BaseNx.Lib List Heap Focus

/-! ## Marking a chunk -/

variable {W : List Chunk}

section Mark

variable {h : Heap} {f : Focus} {n : Nat} {u v : Bool}

theorem retag_edit (w : WindowFacts h f [⟨n, u⟩]) :
    WindowEdit f [⟨n, u⟩] [⟨n, v⟩] h (h.setPreceding f.lo (Chunk.tag ⟨n, v⟩ f.prec)) := by
  obtain ⟨⟨hroom, hshort, hn⟩, hsize, -, hnsize, hntag⟩ := w.one
  have hlt : Chunk.tag ⟨n, v⟩ f.prec < 2 ^ 32 := tag_lt (by omega)
  refine windowEdit_one (by simp) hn ⟨rfl, rfl, rfl⟩ (fun b hb => ?_) ?_ ?_ ?_ ?_
  · simp (disch := omega)
  · rw [← hsize]
    simp (disch := omega)
  · simp (disch := omega)
  · rw [← hnsize]
    simp (disch := omega)
  · rw [← hntag]
    simp (disch := omega)

/-- A window with one allocated chunk has nothing loose in it. -/
theorem Rep.loose_used {lo hi : Nat} (hr : Rep h (f.plug [⟨n, true⟩]) lo hi)
    (hin : lo = 0 ∧ hi = 0 ∨ lo = f.lo ∧ hi = f.lo + n) (lo' hi' : Nat)
    (hin' : lo' = 0 ∧ hi' = 0 ∨ lo' = f.lo ∧ hi' = f.lo + n) :
    Rep h (f.plug [⟨n, true⟩]) lo' hi' := by
  refine hr.loose fun a ha => ?_
  have hno : ¬ (f.lo ≤ a ∧ a < f.lo + n) := fun hc => nomatch (free_in_one hr.ok ha hc).2
  omega

theorem Rep.loose_used_first (hr : Rep h (f.plug (⟨n, true⟩ :: W)) f.lo (f.lo + n)) :
    Rep h (f.plug (⟨n, true⟩ :: W)) 0 0 := by
  have hplug : f.plug (⟨n, true⟩ :: W) = { f with right := W ++ f.right }.plug [⟨n, true⟩] := by
    simp [Focus.plug]
  rw [hplug] at hr ⊢
  exact Rep.loose_used hr (.inr ⟨rfl, rfl⟩) 0 0 (.inl ⟨rfl, rfl⟩)

/-- `node->preceding |= MM_ALLOC_BIT` on a loose free chunk. -/
theorem mark_used (hr : Rep h (f.plug [⟨n, false⟩]) f.lo (f.lo + n)) :
    Rep (h.setPreceding f.lo (h.preceding f.lo ||| mmAllocBit)) (f.plug [⟨n, true⟩]) 0 0 ∧
      ∀ X, Kept X h (f.plug [⟨n, false⟩])
        (h.setPreceding f.lo (h.preceding f.lo ||| mmAllocBit)) (f.plug [⟨n, true⟩]) := by
  have w := hr.window
  obtain ⟨⟨-, hshort, -⟩, -, htag, -⟩ := w.one
  have e : WindowEdit f [⟨n, false⟩] [⟨n, true⟩] h
      (h.setPreceding f.lo (h.preceding f.lo ||| mmAllocBit)) := by
    rw [htag, tag_or_allocBit (by omega)]
    exact retag_edit w
  have hr' := Rep.edit (W := [⟨n, false⟩]) (by simpa using hr) e
  refine ⟨Rep.loose_used hr' (.inr (by simp)) 0 0 (.inl ⟨rfl, rfl⟩), fun X => e.kept hr ?_⟩
  intro a k hk
  simp at hk

/-- `node->preceding &= ~MM_ALLOC_BIT` on an allocated chunk. -/
theorem mark_free (hr : Rep h (f.plug [⟨n, true⟩]) 0 0) :
    Rep (h.setPreceding f.lo (h.preceding f.lo &&& mmSizeMask)) (f.plug [⟨n, false⟩])
        f.lo (f.lo + n) ∧
      Kept {f.lo} h (f.plug [⟨n, true⟩])
        (h.setPreceding f.lo (h.preceding f.lo &&& mmSizeMask)) (f.plug [⟨n, false⟩]) := by
  have w := hr.window
  obtain ⟨⟨-, hshort, -⟩, -, htag, -⟩ := w.one
  have e : WindowEdit f [⟨n, true⟩] [⟨n, false⟩] h
      (h.setPreceding f.lo (h.preceding f.lo &&& mmSizeMask)) := by
    rw [htag, tag_and_sizeMask (by omega)]
    exact retag_edit w
  have hl := Rep.loose_used hr (.inl ⟨rfl, rfl⟩) f.lo (f.lo + n) (.inr ⟨rfl, rfl⟩)
  have hr' := Rep.edit (W := [⟨n, true⟩]) (by simpa using hl) e
  refine ⟨by simpa using hr', e.kept hr ?_⟩
  intro a k hk
  simp only [placed_cons, placed_nil, mem_singleton, Prod.mk.injEq] at hk
  exact hk.1

end Mark

/-! ## Cutting a window in two -/

section Cut

variable {h : Heap} {f : Focus} {W : List Chunk} {c m n : Nat} {u v : Bool}

/-- The header stores that cut a window into `n` and `rest` bytes; `tag` goes to the second
header. -/
def cutStores (h : Heap) (node next n rest tag : Nat) : Heap :=
  (((h.setSize (node + n) rest).setPreceding (node + n) tag).setSize node n).setPrecedingSize next
    rest

theorem cutStores_eq (w : WindowFacts h f (⟨c, u⟩ :: W)) (hm : c + total W = m)
    (hn : 0 < n ∧ 8 ≤ n) (hnm : n + 16 ≤ m) (tag : Nat) :
    cutStores h f.lo (f.lo + m) n (m - n) tag =
      (((h.setSize (f.lo + n) (m - n)).setPreceding (f.lo + n) tag).setSize f.lo n).setPreceding
        (f.lo + m) (f.next.tag (m - n)) := by
  have hshort := w.short
  have hlast := lastSize_le c W
  have hntag := w.nextTag
  simp only [total_cons, lastSize_cons, hm] at hshort hntag
  refine setPrecedingSize_eq (p := lastSize c W) ?_ (by omega) (by omega)
  rw [← hntag]
  simp (disch := omega)

theorem cutStores_edit (w : WindowFacts h f (⟨c, u⟩ :: W)) (hm : c + total W = m)
    (hn : 16 ∣ n ∧ 0 < n) (hnm : n + 16 ≤ m) :
    WindowEdit f (⟨c, u⟩ :: W) [⟨n, u⟩, ⟨m - n, v⟩] h
      (cutStores h f.lo (f.lo + m) n (m - n) (Chunk.tag ⟨m - n, v⟩ n)) := by
  have hshort := w.short
  have hroom := w.room
  have hdvd := dvd_total w.granular
  have htag := w.headers.2.1
  have hnsize := w.nextSize
  simp only [total_cons, hm] at hshort hroom hdvd hnsize
  have hlt : f.next.tag (m - n) < 2 ^ 32 := tag_lt (by omega)
  have hlt' : Chunk.tag ⟨m - n, v⟩ n < 2 ^ 32 := tag_lt (by omega)
  rw [cutStores_eq w hm (by omega) hnm]
  refine windowEdit_two (N := m) (by simpa using hm) (by omega) hn (by omega) ⟨rfl, rfl, rfl⟩
    (fun b hb => ?_) ?_ ?_ ?_ ?_ ?_ ?_
  · simp (disch := omega)
  · simp (disch := omega)
  · refine Eq.trans ?_ htag
    simp (disch := omega)
  · simp (disch := omega)
  · simp (disch := omega)
  · rw [← hnsize]
    simp (disch := omega)
  · simp (disch := omega)

theorem cutStores_bytes (h : Heap) (node next n rest tag b : Nat)
    (h₁ : b < node ∨ node + 8 ≤ b) (h₂ : b < node + n ∨ node + n + 8 ≤ b)
    (h₃ : b < next ∨ next + 8 ≤ b) : (cutStores h node next n rest tag).mem b = h.mem b := by
  simp (disch := omega) [cutStores, Heap.setPrecedingSize]

/-- List the only chunk of a loose window. -/
theorem add_only (hr : Rep h (f.plug [⟨n, false⟩]) f.lo (f.lo + n)) :
    Rep (mmAddfreechunk h f.lo) (f.plug [⟨n, false⟩]) 0 0 ∧
      ∀ X, Kept X h (f.plug [⟨n, false⟩]) (mmAddfreechunk h f.lo) (f.plug [⟨n, false⟩]) := by
  obtain ⟨⟨-, -, hn⟩, -⟩ := hr.window.one
  refine hr.addfreechunk (isFree_of_mem (c := ⟨n, false⟩) (by simp) rfl) (by omega)
    (fun a ha => ?_) (by omega)
  exact ⟨fun hin => .inl (free_in_one hr.ok ha hin).1, by omega⟩

/-- List the second of two chunks of a loose window. -/
theorem add_second {k : Nat} (hr : Rep h (f.plug [⟨n, u⟩, ⟨k, false⟩]) f.lo (f.lo + n + k)) :
    Rep (mmAddfreechunk h (f.lo + n)) (f.plug [⟨n, u⟩, ⟨k, false⟩]) f.lo (f.lo + n) ∧
      ∀ X, Kept X h (f.plug [⟨n, u⟩, ⟨k, false⟩]) (mmAddfreechunk h (f.lo + n))
        (f.plug [⟨n, u⟩, ⟨k, false⟩]) := by
  obtain ⟨⟨-, -, hn, hk⟩, -⟩ := hr.window.two
  refine hr.addfreechunk (isFree_of_mem (c := ⟨k, false⟩) (by simp) rfl) (by omega)
    (fun a ha => ?_) (by omega)
  have hwhere := free_in_two hr.ok ha
  omega

/-- Cutting the end off a loose chunk: the end is listed, the front stays loose. -/
theorem splitChunk_spec (hr : Rep h (f.plug [⟨m, false⟩]) f.lo (f.lo + m)) (hn : 16 ∣ n ∧ 0 < n)
    (hnm : n ≤ m) : ∃ f' : Focus, f'.lo = f.lo ∧
    f'.prev = f.prev ∧ (m = n ∨ f'.next = ⟨m - n, false⟩) ∧
      Rep (splitChunk h f.lo n) (f'.plug [⟨n, false⟩]) f.lo (f.lo + n) ∧
      (∀ X, Kept X h (f.plug [⟨m, false⟩]) (splitChunk h f.lo n) (f'.plug [⟨n, false⟩])) ∧
      (Coalesced (f.plug [⟨m, false⟩]) → Coalesced (f'.plug [⟨n, true⟩])) := by
  have w := hr.window
  obtain ⟨⟨hroom, hshort, hm⟩, hsize, -⟩ := w.one
  by_cases hrem : sizeofFreenode ≤ m - n
  · have hnm' : n + 16 ≤ m := by simp only [sizeofFreenode] at hrem; omega
    have heq : splitChunk h f.lo n
        = mmAddfreechunk (cutStores h f.lo (f.lo + m) n (m - n) n) (f.lo + n) := by
      simp only [splitChunk, hsize, if_pos hrem]
      rfl
    have e := cutStores_edit (v := false) w (m := m) (by simp) hn hnm'
    have hr₁ := Rep.edit (W := [⟨m, false⟩]) (by simpa using hr) e
    have hspan : f.lo + total [⟨m, false⟩] = f.lo + n + (m - n) := by simp; omega
    rw [hspan] at hr₁
    obtain ⟨hr₂, hk₂⟩ := add_second hr₁
    refine ⟨{ f with right := ⟨m - n, false⟩ :: f.right }, rfl, rfl, .inr rfl, heq ▸ hr₂,
      fun X => ?_, fun hc => ?_⟩
    · rw [heq]
      exact (e.kept hr (fun a k hk => by simp at hk)).trans (hk₂ X)
    · obtain ⟨hcr, hcw⟩ := coalesced_plug.mp hc
      change Coalesced (f.plug [⟨n, true⟩, ⟨m - n, false⟩])
      refine coalesced_plug.mpr ⟨hcr, ?_⟩
      simp only [NoAdjacent, cons_append, nil_append, isChain_cons_cons] at hcw ⊢
      simp_all
  · have heq : splitChunk h f.lo n = h := by
      simp only [splitChunk, hsize, if_neg hrem]
    have hmn : m = n := by simp only [sizeofFreenode] at hrem; omega
    subst hmn
    rw [heq]
    refine ⟨f, rfl, rfl, .inl rfl, hr, fun X => Kept.refl X h _, fun hc => ?_⟩
    obtain ⟨hcr, -⟩ := coalesced_plug.mp hc
    refine coalesced_plug.mpr ⟨hcr, ?_⟩
    simp [NoAdjacent]

end Cut

/-! ## Allocation -/

variable {size : Nat}

/-- The chunk size of a request that does not overflow `size_t`. -/
theorem mmAlignUp_spec (hs : size + 15 < 2 ^ 32) : mmAlignUp size = (size + 15) / 16 * 16 := by
  rw [mmAlignUp, u32_eq_self hs]

/-- The front of a free chunk of `N` bytes, a smallest one that is large enough, becomes an
allocated chunk of `n` bytes. The rest of it stays free. -/
structure Granted (h : Heap) (l : Layout) (n : Nat) (h' : Heap) (f : Focus) (N : Nat) : Prop where
  spot : (f.lo, ⟨N, false⟩) ∈ spots l
  fits : n ≤ N
  best : ∀ a k, (a, ⟨k, false⟩) ∈ spots l → n ≤ k → N ≤ k
  prev : f.prev.used = true
  rest : N = n ∨ f.next = ⟨N - n, false⟩
  ok : HeapOk h' (f.plug [⟨n, true⟩])
  kept : ∀ X, Kept X h l h' (f.plug [⟨n, true⟩])

/-- `mm_malloc` returns a null pointer and changes nothing, because no free chunk is large enough,
or it grants a chunk. -/
theorem mmMalloc_spec {h : Heap} {l : Layout} (hok : HeapOk h l) (hs : size + 23 < 2 ^ 32) :
    (mmMalloc h size = (h, 0) ∧
      (0 < size → ∀ a k, (a, ⟨k, false⟩) ∈ spots l → k < mmAlignUp (size + 8))) ∨
    0 < size ∧ ∃ f' N, (mmMalloc h size).2 = f'.lo + 8 ∧
      Granted h l (mmAlignUp (size + 8)) (mmMalloc h size).1 f' N := by
  by_cases h0 : size < 1
  · exact .inl ⟨by simp only [mmMalloc, if_pos h0], fun hpos => by omega⟩
  have hn := mmAlignUp_spec (show size + 8 + 15 < 2 ^ 32 by omega)
  have hndx : (if mmMaxChunk ≤ mmAlignUp (size + 8) then mmNnodes - 1
      else mmSize2ndx (mmAlignUp (size + 8))) = mmSize2ndx (mmAlignUp (size + 8)) := by
    split
    case isTrue hbig => rw [mmSize2ndx, if_pos hbig]
    case isFalse => rfl
  have hmalloc : mmMalloc h size =
      let node := findChunk h (mmAlignUp (size + 8)) maxNodes
        (h.flink (h.nodelist (mmSize2ndx (mmAlignUp (size + 8)))))
      if node ≠ 0 then
        let h' := splitChunk (unlinkNode h node) node (mmAlignUp (size + 8))
        (h'.setPreceding node (h'.preceding node ||| mmAllocBit), node + 8)
      else (h, 0) := by
    rw [mmMalloc, if_neg h0]
    dsimp only [sizeofAllocnode]
    rw [hndx]
  generalize mmAlignUp (size + 8) = n at *
  have hgran : 16 ∣ n ∧ 0 < n := by omega
  generalize hx : findChunk h n maxNodes (h.flink (h.nodelist (mmSize2ndx n))) = x at hmalloc
  rcases findChunk_best hok.rep.free hgran.2 hx with ⟨hnull, hnone⟩ | ⟨hmem, hle, hbest⟩
  · refine .inl ⟨by rw [hmalloc, if_neg (by simpa using hnull)], fun _ a k ha => ?_⟩
    rw [← show h.size a = k from hok.rep.size_eq ha]
    exact hnone a ⟨⟨_, ha, rfl⟩, by omega⟩
  obtain ⟨hfree, -⟩ := hmem
  obtain ⟨f, m, rfl, rfl⟩ := hfree.focus
  have hx0 : f.lo ≠ 0 := by
    have := hok.rep.window.prec_lt
    omega
  rw [if_pos hx0] at hmalloc
  have hsize : h.size f.lo = m := hok.rep.window.one.2.1
  -- the chunk leaves the list, is cut, and its front is marked
  obtain ⟨hr₁, hk₁⟩ : Rep (unlinkNode h f.lo) _ f.lo (f.lo + m) ∧ _ :=
    hok.rep.unlink hfree (by omega) (fun a ha => by
    have hwhere := free_in_one hok.rep.ok ha
    have := hok.rep.window.one.1.2.2
    omega)
  obtain ⟨f', hlo, hprev, hrest, hr₂, hk₂, hco⟩ := splitChunk_spec hr₁ hgran (by omega)
  rw [← hlo] at hr₂
  obtain ⟨hr₃, hk₃⟩ := mark_used hr₂
  rw [hlo] at hr₃ hk₃
  refine .inr ⟨by omega, f', m, by rw [hmalloc, hlo],
    ⟨?_, by omega, fun a k ha hnk => ?_, ?_, hrest, ?_, fun X => ?_⟩⟩
  · exact f.mem_spots_plug.mpr (.inr (by simp [hlo]))
  · have hk : h.size a = k := hok.rep.size_eq ha
    have := hbest a ⟨⟨_, ha, rfl⟩, by omega⟩ (by omega)
    omega
  · obtain ⟨-, hcw⟩ := coalesced_plug.mp hok.coalesced
    simp only [NoAdjacent, cons_append, nil_append, isChain_cons_cons] at hcw
    rw [hprev]
    simpa using hcw.1
  · rw [hmalloc]
    exact ⟨hr₃, hco hok.coalesced⟩
  · rw [hmalloc]
    exact ((hk₁ X).trans (hk₂ X)).trans (hk₃ X)

/-! ## Merging two chunks -/

section Merge

variable {h : Heap} {f : Focus} {n k : Nat} {u v : Bool}

/-- The header stores that merge the chunk at `node` with the one behind it. -/
def mergeStores (h : Heap) (node next size : Nat) : Heap :=
  (h.setSize node size).setPrecedingSize next size

theorem mergeStores_edit (w : WindowFacts h f [⟨n, u⟩, ⟨k, v⟩]) :
    WindowEdit f [⟨n, u⟩, ⟨k, v⟩] [⟨n + k, u⟩] h (mergeStores h f.lo (f.lo + n + k) (n + k)) := by
  obtain ⟨⟨hroom, hshort, hn, hk⟩, ⟨-, htag⟩, -, hnsize, hntag⟩ := w.two
  have hstep : mergeStores h f.lo (f.lo + n + k) (n + k) =
      (h.setSize f.lo (n + k)).setPreceding (f.lo + (n + k)) (f.next.tag (n + k)) := by
    rw [mergeStores, add_assoc]
    refine setPrecedingSize_eq (p := k) ?_ (by omega) (by omega)
    rw [← hntag, ← add_assoc]
    simp (disch := omega)
  have hlt : f.next.tag (n + k) < 2 ^ 32 := tag_lt (by omega)
  rw [hstep]
  refine windowEdit_one (by simp) (by omega) ⟨rfl, rfl, rfl⟩ (fun b hb => ?_) ?_ ?_ ?_ ?_
  · simp (disch := omega)
  · simp (disch := omega)
  · refine Eq.trans ?_ htag
    simp (disch := omega)
  · rw [← hnsize, add_assoc]
    simp (disch := omega)
  · simp (disch := omega)

/-- A loose chunk and a listed neighbour: the neighbour is taken out and the two are merged. The
window shows them in the order of their addresses. -/
theorem merge_listed {lo hi x : Nat} (hr : Rep h (f.plug [⟨n, false⟩, ⟨k, false⟩]) lo hi)
    (hx : x = f.lo ∧ lo = f.lo + n ∧ hi = f.lo + n + k ∨ x = f.lo + n ∧ lo = f.lo ∧ hi = f.lo + n) :
    ((unlinkNode h x).size f.lo = n ∧ (unlinkNode h x).size (f.lo + n) = k) ∧
      Rep (mergeStores (unlinkNode h x) f.lo (f.lo + n + k) (n + k)) (f.plug [⟨n + k, false⟩])
        f.lo (f.lo + (n + k)) ∧
      ∀ X, Kept X h (f.plug [⟨n, false⟩, ⟨k, false⟩])
        (mergeStores (unlinkNode h x) f.lo (f.lo + n + k) (n + k)) (f.plug [⟨n + k, false⟩]) := by
  obtain ⟨⟨-, -, hn, hk⟩, -⟩ := hr.window.two
  have hxfree : IsFree (f.plug [⟨n, false⟩, ⟨k, false⟩]) x := by
    rcases hx with ⟨rfl, -⟩ | ⟨rfl, -⟩
    · exact isFree_of_mem (c := ⟨n, false⟩) (by simp) rfl
    · exact isFree_of_mem (c := ⟨k, false⟩) (by simp) rfl
  obtain ⟨hr₁, hk₁⟩ : Rep (unlinkNode h x) _ f.lo (f.lo + n + k) ∧ _ :=
    hr.unlink hxfree (by omega) (fun a ha => by
    have hwhere := free_in_two hr.ok ha
    omega)
  have e := mergeStores_edit hr₁.window
  have hr₂ := Rep.edit (W := [⟨n, false⟩, ⟨k, false⟩]) (by simpa [add_assoc] using hr₁) e
  obtain ⟨-, ⟨hs₁, -⟩, ⟨hs₂, -⟩, -⟩ := hr₁.window.two
  refine ⟨⟨hs₁, hs₂⟩, by simpa using hr₂, fun X => (hk₁ X).trans (e.kept hr₁ fun a m hm => ?_)⟩
  simp at hm

/-- `node->size = size; next->preceding = node->size | (next->preceding & MM_ALLOC_BIT)`. -/
theorem mergeStores_eq (h : Heap) (node next : Nat) (hs : size < 2 ^ 32) :
    (h.setSize node size).setPrecedingSize next ((h.setSize node size).size node)
      = mergeStores h node next size := by
  have : (h.setSize node size).size node = size := word_setWord hs
  rw [this]
  rfl

end Merge

/-! ## Release -/

section Free

variable {h : Heap} {f : Focus} {n : Nat}

section

variable (hr : Rep h (f.plug [⟨n, false⟩]) f.lo (f.lo + n)) (hc : Coalesced (f.plug [⟨n, true⟩]))
include hr hc

/-- The chunk behind a released chunk, or behind both if that one is free too, is allocated. -/
theorem mergeNext_spec : ∃ (f' : Focus) (n' : Nat), f'.lo = f.lo ∧
      (mergeNext h f.lo).2 = f.lo + n' ∧ f'.next.used = true ∧
      Rep (mergeNext h f.lo).1 (f'.plug [⟨n', false⟩]) f.lo (f.lo + n') ∧
      Coalesced (f'.plug [⟨n', true⟩]) ∧
      ∀ X, Kept X h (f.plug [⟨n, false⟩]) (mergeNext h f.lo).1 (f'.plug [⟨n', false⟩]) := by
  obtain ⟨⟨-, hshort, -⟩, hsize, -, hnsize, hntag⟩ := hr.window.one
  have htest : h.preceding (f.lo + n) &&& mmAllocBit = 0 ↔ f.next.used = false := by
    rw [hntag]
    exact tag_and_allocBit_eq_zero (by omega)
  by_cases hfree : f.next.used = false
  · obtain ⟨k, hnext, hplug⟩ := next_free hfree
    simp only [hplug, cons_append, nil_append] at hr hc ⊢
    obtain ⟨⟨-, hshort', -⟩, -⟩ := hr.window.two
    obtain ⟨⟨hs₁, hs₂⟩, hr', hk'⟩ := merge_listed (x := f.lo + n) hr (.inr ⟨rfl, rfl, rfl⟩)
    simp only [dropRight_lo] at hs₁ hs₂ hr' hk'
    have heq : mergeNext h f.lo
        = (mergeStores (unlinkNode h (f.lo + n)) f.lo (f.lo + n + k) (n + k), f.lo + n + k) := by
      simp only [mergeNext, hsize, if_pos (htest.mpr hfree), hnsize, hnext, hs₁, hs₂]
      rw [mergeStores_eq _ _ _ (by omega)]
    obtain ⟨hcr, hcw⟩ := coalesced_plug.mp hc
    -- behind the free neighbour stands an allocated chunk
    have hnu : f.dropRight.next.used = true := by
      simp only [NoAdjacent, cons_append, nil_append, isChain_cons_cons] at hcw
      simpa using hcw.2.2.1
    rw [heq]
    refine ⟨f.dropRight, n + k, rfl, by simp [add_assoc], hnu, hr', ?_, hk'⟩
    exact coalesced_plug.mpr ⟨hcr, by simp [NoAdjacent]⟩
  · have heq : mergeNext h f.lo = (h, f.lo + n) := by
      simp only [mergeNext, hsize, if_neg (mt htest.mp hfree)]
    rw [heq]
    exact ⟨f, n, rfl, rfl, by simpa using hfree, hr, hc, fun X => Kept.refl X h _⟩

/-- The chunk in front of a released chunk, or in front of both if that one is free too, is
allocated. -/
theorem mergePrev_spec (hnu : f.next.used = true) :
    ∃ (f' : Focus) (n' : Nat), (mergePrev h f.lo (f.lo + n)).2 = f'.lo ∧
      Rep (mergePrev h f.lo (f.lo + n)).1 (f'.plug [⟨n', false⟩]) f'.lo (f'.lo + n') ∧
      Coalesced (f'.plug [⟨n', false⟩]) ∧
      ∀ X, Kept X h (f.plug [⟨n, false⟩]) (mergePrev h f.lo (f.lo + n)).1
      (f'.plug [⟨n', false⟩]) := by
  have w := hr.window
  obtain ⟨⟨-, hshort, -⟩, hsize, hprec, -⟩ := w.one
  rw [tag_free] at hprec
  obtain ⟨p, hp, hptag⟩ := w.prevTag
  have htest : h.preceding (f.lo - f.prec) &&& mmAllocBit = 0 ↔ f.prev.used = false := by
    rw [hptag]
    exact tag_and_allocBit_eq_zero hp
  by_cases hfree : f.prev.used = false
  · obtain ⟨k, hprev, hlo, hplug⟩ := prev_free hfree
    have hk : f.prec = k := by rw [f.prec_eq, hprev]
    have hsub : f.lo - f.prec = f.dropLeft.lo := by omega
    simp only [hplug] at hr hc ⊢
    obtain ⟨⟨-, hshort', -⟩, -⟩ := hr.window.two
    obtain ⟨⟨hs₁, hs₂⟩, hr', hk'⟩ := merge_listed (x := f.dropLeft.lo) hr
      (.inl ⟨rfl, hlo.symm, by rw [hlo]⟩)
    rw [hlo] at hs₂ hr' hk'
    have heq : mergePrev h f.lo (f.lo + n)
        = (mergeStores (unlinkNode h f.dropLeft.lo) f.dropLeft.lo (f.lo + n) (k + n),
          f.dropLeft.lo) := by
      simp only [mergePrev, hprec, if_pos (htest.mpr hfree)]
      simp only [hsub, hs₁, hs₂]
      rw [mergeStores_eq _ _ _ (by omega)]
    obtain ⟨hcr, hcw⟩ := coalesced_plug.mp hc
    rw [heq]
    refine ⟨f.dropLeft, k + n, rfl, hr', coalesced_plug.mpr ⟨hcr, ?_⟩, hk'⟩
    simp only [NoAdjacent, cons_append, nil_append, isChain_cons_cons,
      isChain_singleton, dropLeft_next, hnu] at hcw ⊢
    simpa using hcw.1
  · have heq : mergePrev h f.lo (f.lo + n) = (h, f.lo) := by
      simp only [mergePrev, hprec, if_neg (mt htest.mp hfree)]
    obtain ⟨hcr, -⟩ := coalesced_plug.mp hc
    rw [heq]
    refine ⟨f, n, rfl, hr, coalesced_plug.mpr ⟨hcr, ?_⟩, fun X => Kept.refl X h _⟩
    simp [NoAdjacent, hnu, hfree]

end

theorem mmFree_spec (hok : HeapOk h (f.plug [⟨n, true⟩])) :
    ∃ l', HeapOk (mmFree h (f.lo + 8)) l' ∧
      Kept {f.lo} h (f.plug [⟨n, true⟩]) (mmFree h (f.lo + 8)) l' := by
  obtain ⟨hr₁, hk₁⟩ := mark_free hok.rep
  obtain ⟨f₂, n₂, hlo₂, hnext, hnu, hr₂, hc₂, hk₂⟩ := mergeNext_spec hr₁ hok.coalesced
  rw [← hlo₂] at hr₂
  obtain ⟨f₃, n₃, hnode, hr₃, hc₃, hk₃⟩ := mergePrev_spec hr₂ hc₂ hnu
  obtain ⟨hr₄, hk₄⟩ := add_only hr₃
  rw [hlo₂] at hnode hr₄ hk₃ hk₄
  have heq : mmFree h (f.lo + 8) = mmAddfreechunk
      (mergePrev (mergeNext (h.setPreceding f.lo (h.preceding f.lo &&& mmSizeMask)) f.lo).1 f.lo
        (f.lo + n₂)).1 f₃.lo := by
    rw [mmFree, if_neg (by omega)]
    simp only [sizeofAllocnode, Nat.add_sub_cancel]
    rw [hnext, hnode]
  rw [heq]
  exact ⟨_, ⟨hr₄, hc₃⟩, ((hk₁.trans (hk₂ _)).trans (hk₃ _)).trans (hk₄ _)⟩

end Free

/-! ## Shrinking -/

section Shrink

variable {h : Heap} {f : Focus} {n s : Nat}

/-- The list loses the free chunk behind an allocated one. -/
theorem unlink_next {k : Nat} (hr : Rep h (f.plug [⟨n, true⟩, ⟨k, false⟩]) 0 0) :
    Rep (unlinkNode h (f.lo + n)) (f.plug [⟨n, true⟩, ⟨k, false⟩]) f.lo (f.lo + (n + k)) ∧
      ∀ X, Kept X h (f.plug [⟨n, true⟩, ⟨k, false⟩]) (unlinkNode h (f.lo + n))
        (f.plug [⟨n, true⟩, ⟨k, false⟩]) := by
  obtain ⟨⟨-, -, hn, hk⟩, -⟩ := hr.window.two
  refine hr.unlink (isFree_of_mem (c := ⟨k, false⟩) (by simp) rfl) (by omega) (fun a ha => ?_)
  have hwhere : f.lo ≤ a ∧ a < f.lo + (n + k) → a = f.lo + n := by
    simpa using free_in_two hr.ok ha
  omega

/-- Cut a loose window whose first chunk is allocated, and list its end. -/
theorem cut_and_list {c m : Nat} (hr : Rep h (f.plug (⟨c, true⟩ :: W)) f.lo (f.lo + m))
    (hm : c + total W = m) (hW : ∀ d ∈ W, d.used = false) (hs : 16 ∣ s ∧ 0 < s) (hsm : s + 16 ≤ m) :
    Rep (mmAddfreechunk (cutStores h f.lo (f.lo + m) s (m - s) s) (f.lo + s))
        (f.plug [⟨s, true⟩, ⟨m - s, false⟩]) 0 0 ∧
      Kept {f.lo} h (f.plug (⟨c, true⟩ :: W))
        (mmAddfreechunk (cutStores h f.lo (f.lo + m) s (m - s) s) (f.lo + s))
        (f.plug [⟨s, true⟩, ⟨m - s, false⟩]) ∧
      ∀ b, f.lo + 8 ≤ b → b < f.lo + s →
        (mmAddfreechunk (cutStores h f.lo (f.lo + m) s (m - s) s) (f.lo + s)).mem b = h.mem b := by
  have e := cutStores_edit (v := false) hr.window hm hs hsm
  rw [tag_free] at e
  have hr₁ := Rep.edit (W := ⟨c, true⟩ :: W) (by simpa [hm] using hr) e
  have hspan : f.lo + total (⟨c, true⟩ :: W) = f.lo + s + (m - s) := by
    simp only [total_cons]
    omega
  rw [hspan] at hr₁
  obtain ⟨hr₂, hk₂⟩ := add_second hr₁
  refine ⟨hr₂.loose_used_first, (e.kept hr fun a k hk => ?_).trans (hk₂ _), fun b h1 h2 => ?_⟩
  · -- the only allocated chunk of the window is the operand
    rcases mem_cons.mp hk with heq | hk
    · exact (Prod.mk.inj heq).1
    · have := hW _ (placed_bounds hk).2.2
      cases this
  · have hlive : Live (f.plug [⟨s, true⟩, ⟨m - s, false⟩]) f.lo s :=
      ⟨f.mem_spots_plug.mpr (.inr (by simp)), by omega⟩
    rw [(hk₂ ∅ f.lo s hlive (by simp)).2 b h1 h2]
    exact cutStores_bytes _ _ _ _ _ _ _ (.inr h1) (.inl h2) (.inl (by omega))

/-- The first `s` bytes of an allocated chunk are kept; the rest of it, with a free chunk behind it,
is free. -/
structure Shrunk (h : Heap) (f : Focus) (n s : Nat) (h' : Heap) (l' : Layout) : Prop where
  ok : HeapOk h' l'
  kept : Kept {f.lo} h (f.plug [⟨n, true⟩]) h' l'
  live : Live l' f.lo s
  bytes : ∀ b, f.lo + 8 ≤ b → b < f.lo + s → h'.mem b = h.mem b
  front : ∀ q ∈ placed f.base (guardChunk :: f.left), q ∈ spots l'
  rest : (f.lo + s, ⟨n + (if f.next.used then 0 else f.next.size) - s, false⟩) ∈ spots l'

theorem Focus.front_plug : ∀ q ∈ placed f.base (guardChunk :: f.left),
    q ∈ spots (f.plug W) :=
  fun _ hq => f.mem_spots_plug.mpr (.inl (mem_append_right _ (mem_append_left _ hq)))

theorem mmShrinkchunk_spec (hok : HeapOk h (f.plug [⟨n, true⟩])) (hs : 16 ∣ s ∧ 0 < s)
    (hsn : s < n) :
    ∃ l', Shrunk h f n s (mmShrinkchunk h f.lo s) l' := by
  have hr := hok.rep
  obtain ⟨⟨hroom, hshort, hn⟩, hsize, -, hnsize, hntag⟩ := hr.window.one
  have htest : h.preceding (f.lo + n) &&& mmAllocBit = 0 ↔ f.next.used = false := by
    rw [hntag]
    exact tag_and_allocBit_eq_zero (by omega)
  by_cases hfree : f.next.used = false
  · obtain ⟨k, hnext, hplug⟩ := next_free hfree
    have hco := hok.coalesced
    simp only [hplug, cons_append, nil_append] at hr hco ⊢
    have hlive : Live (f.dropRight.plug [⟨n, true⟩, ⟨k, false⟩]) f.lo n :=
      ⟨f.dropRight.mem_spots_plug.mpr (.inr (by simp)), by omega⟩
    obtain ⟨hr₁, hk₁⟩ := unlink_next hr
    obtain ⟨⟨-, hshort', -, hk⟩, ⟨hs₁, -⟩, ⟨hs₂, -⟩, -⟩ := hr₁.window.two
    obtain ⟨hr₂, hk₂, hb₂⟩ := cut_and_list hr₁ (by simp) (by simp) hs (by omega)
    simp only [dropRight_lo, dropRight_prec] at hs₁ hs₂ hr₂ hk₂ hb₂ hk₁ hshort'
    have heq : mmShrinkchunk h f.lo s = mmAddfreechunk
        (cutStores (unlinkNode h (f.lo + n)) f.lo (f.lo + (n + k)) s (n + k - s) s) (f.lo + s) := by
      simp only [mmShrinkchunk, hsize, if_pos (htest.mpr hfree), hnsize, hnext, hs₁, hs₂]
      rw [size_setSize_disjoint (by omega), size_setPreceding (by omega), size_setSize (by omega),
        add_comm k n, ← add_assoc]
      rfl
    rw [heq]
    refine ⟨_, ⟨hr₂, ?_⟩, by rw [hplug]; exact (hk₁ _).trans hk₂, ⟨?_, by omega⟩, fun b h1 h2 => ?_,
      f.dropRight.front_plug, ?_⟩
    · obtain ⟨hcr, hcw⟩ := coalesced_plug.mp hco
      refine coalesced_plug.mpr ⟨hcr, ?_⟩
      simp only [NoAdjacent, cons_append, nil_append, isChain_cons_cons] at hcw ⊢
      simpa using hcw.2.2
    · exact f.dropRight.mem_spots_plug.mpr (.inr (by simp))
    · rw [hb₂ b h1 h2]
      exact (hk₁ ∅ f.lo n hlive (by simp)).2 b h1 (by omega)
    · exact f.dropRight.mem_spots_plug.mpr (.inr (by simp [hnext]))
  · have hu : f.next.used = true := by simpa using hfree
    have hl := Rep.loose_used hr (.inl ⟨rfl, rfl⟩) f.lo (f.lo + n) (.inr ⟨rfl, rfl⟩)
    obtain ⟨hr₂, hk₂, hb₂⟩ := cut_and_list (s := s) hl (by simp) (by simp) hs (by omega)
    have heq : mmShrinkchunk h f.lo s
        = mmAddfreechunk (cutStores h f.lo (f.lo + n) s (n - s) s) (f.lo + s) := by
      have hroomy : s + sizeofFreenode ≤ n := by simp only [sizeofFreenode]; omega
      simp only [mmShrinkchunk, hsize, if_neg (mt htest.mp hfree), if_pos hroomy]
      rw [size_setSize_disjoint (by omega), size_setPreceding (by omega), size_setSize (by omega),
        cutStores_eq hr.window (m := n) (by simp) (by omega) (by omega),
        or_allocBit (by omega), Chunk.tag, if_pos hu]
    rw [heq]
    refine ⟨_, ⟨hr₂, ?_⟩, hk₂, ⟨?_, by omega⟩, hb₂, f.front_plug, ?_⟩
    · obtain ⟨hcr, -⟩ := coalesced_plug.mp hok.coalesced
      refine coalesced_plug.mpr ⟨hcr, ?_⟩
      simp [NoAdjacent, hu]
    · exact f.mem_spots_plug.mpr (.inr (by simp))
    · exact f.mem_spots_plug.mpr (.inr (by simp [hu]))

end Shrink

end BaseNx.Mm
