import BaseNx.Mm.Allocate

/-!
# Reallocation and aligned allocation

`mm_realloc` has five ways to answer a request: shrink the chunk, take bytes from the chunk before
it, from the chunk behind it, from both, or allocate, copy and free. `mmRealloc_spec` covers them
all: the contents of the operand arrive at the block returned, and nothing else moves.
`mmMemalign_spec` does the same for the chunk that `mm_memalign` cuts out of a larger one.
-/

namespace BaseNx.Mm

open ByteMem BaseNx.Lib List Heap Focus

variable {h : Heap} {f : Focus}

/-! ## What a reallocation does -/

/-- What `mm_realloc` promises about its operand at `a₀` when it returns the block at `a`. -/
structure Moved (h : Heap) (l : Layout) (a₀ o : Nat) (h' : Heap) (l' : Layout) (a n : Nat) :
    Prop where
  ok : HeapOk h' l'
  kept : Kept {a₀} h l h' l'
  live : Live l' a n
  fresh : a = a₀ ∨ ∀ m, ¬ Live l a m
  copied : ∀ i, i < o - 8 → i < n - 8 → h'.mem (a + 8 + i) = h.mem (a₀ + 8 + i)

/-- Growing a block again at the place it was moved to. -/
theorem Moved.trans {h h₁ h₂ : Heap} {l l₁ l₂ : Layout} {a₀ o a n₁ n₂ : Nat}
    (m₁ : Moved h l a₀ o h₁ l₁ a n₁) (m₂ : Moved h₁ l₁ a n₁ h₂ l₂ a n₂) (hon : o ≤ n₁) :
    Moved h l a₀ o h₂ l₂ a n₂ where
  ok := m₂.ok
  kept := by
    refine m₁.kept.trans_fresh m₂.kept ?_
    -- the intermediate place was the operand's own or no chunk at all
    rintro b n hlive rfl
    exact m₁.fresh.resolve_right fun hf => hf n hlive
  live := m₂.live
  fresh := m₁.fresh
  copied := fun i hi hi₂ =>
    (m₂.copied i (by omega) hi₂).trans (m₁.copied i hi (by omega))

/-! ## Stores in another order -/

theorem cutStores_of_first (h : Heap) (node next n rest tag : Nat) (hn : 8 ≤ n) :
    (((h.setSize node n).setSize (node + n) rest).setPreceding (node + n) tag).setPrecedingSize next
        rest = cutStores h node next n rest tag := by
  simp only [cutStores, Heap.setSize, Heap.setPreceding]
  rw [setWord_comm h (a := node) (b := node + n) n rest (by omega),
    setWord_comm (h.setWord (node + n) rest) (a := node) (b := node + n + 4) n tag (by omega)]

theorem setPreceding_comm (h : Heap) {node next : Nat} (g : Nat → Nat) (v : Nat)
    (hd : node + 8 ≤ next) :
    (h.setPreceding node (g (h.preceding node))).setPrecedingSize next v =
      (h.setPrecedingSize next v).setPreceding node
        (g ((h.setPrecedingSize next v).preceding node)) := by
  simp only [Heap.setPrecedingSize, Heap.setPreceding, Heap.preceding]
  rw [word_setWord_disjoint (by omega), word_setWord_disjoint (by omega),
    setWord_comm _ _ _ (by omega)]

/-- The payload of an allocated chunk is not part of the representation. -/
theorem Rep.setPayload {n : Nat} (hr : Rep h (f.plug [⟨n, true⟩]) 0 0) (h' : Heap)
    (hf : SameFrame h h') (hb : ∀ b, b < f.lo + 8 ∨ f.lo + n ≤ b → h'.mem b = h.mem b) :
    Rep h' (f.plug [⟨n, true⟩]) 0 0 ∧
      Kept {f.lo} h (f.plug [⟨n, true⟩]) h' (f.plug [⟨n, true⟩]) := by
  obtain ⟨⟨-, -, hn⟩, hsize, htag, hnsize, hntag⟩ := hr.window.one
  have hword : ∀ a, a + 4 ≤ f.lo + 8 ∨ f.lo + n ≤ a → h'.word a = h.word a := fun a ha =>
    load32_congr fun b h1 h2 => hb b (by omega)
  have e : WindowEdit f [⟨n, true⟩] [⟨n, true⟩] h h' := by
    refine windowEdit_one (by simp) hn hf (fun b h1 => hb b (by omega)) ?_ ?_ ?_ ?_
    · exact (hword _ (by omega)).trans hsize
    · exact (hword _ (by omega)).trans htag
    · exact (hword _ (by omega)).trans hnsize
    · exact (hword _ (by omega)).trans hntag
  have hl := Rep.loose_used hr (.inl ⟨rfl, rfl⟩) f.lo (f.lo + n) (.inr ⟨rfl, rfl⟩)
  have hr' := Rep.edit (W := [⟨n, true⟩]) (by simpa using hl) e
  refine ⟨Rep.loose_used hr' (.inr (by simp)) 0 0 (.inl ⟨rfl, rfl⟩), e.kept hr fun a k hk => ?_⟩
  simp only [placed_cons, placed_nil, mem_singleton, Prod.mk.injEq] at hk
  exact hk.1

/-! ## Taking from the previous chunk -/

section Takeprev

variable {p o t : Nat}

/-- The list loses the free chunk in front of an allocated one. -/
theorem unlink_prev (hr : Rep h (f.plug [⟨p, false⟩, ⟨o, true⟩]) 0 0) :
    Rep (unlinkNode h f.lo) (f.plug [⟨p, false⟩, ⟨o, true⟩]) f.lo (f.lo + (p + o)) ∧
      ∀ X, Kept X h (f.plug [⟨p, false⟩, ⟨o, true⟩]) (unlinkNode h f.lo)
        (f.plug [⟨p, false⟩, ⟨o, true⟩]) := by
  obtain ⟨⟨-, -, hp, ho⟩, -⟩ := hr.window.two
  refine hr.unlink (isFree_of_mem (c := ⟨p, false⟩) (by simp) rfl) (by omega) (fun a ha => ?_)
  have hwhere : f.lo ≤ a ∧ a < f.lo + (p + o) → a = f.lo := by
    simpa using free_in_two hr.ok ha
  omega

/-- List the first of two chunks of a loose window whose second chunk is allocated. -/
theorem add_first {n k : Nat} (hr : Rep h (f.plug [⟨n, false⟩, ⟨k, true⟩]) f.lo (f.lo + (n + k))) :
    Rep (mmAddfreechunk h f.lo) (f.plug [⟨n, false⟩, ⟨k, true⟩]) 0 0 ∧
      ∀ X, Kept X h (f.plug [⟨n, false⟩, ⟨k, true⟩]) (mmAddfreechunk h f.lo)
        (f.plug [⟨n, false⟩, ⟨k, true⟩]) := by
  obtain ⟨⟨-, -, hn, hk⟩, -⟩ := hr.window.two
  refine hr.addfreechunk (isFree_of_mem (c := ⟨n, false⟩) (by simp) rfl) (by omega)
    (fun a ha => ?_) (by omega)
  have hwhere : f.lo ≤ a ∧ a < f.lo + (n + k) → a = f.lo := by
    simpa using free_in_two hr.ok ha
  omega

section

variable (hr : Rep h (f.plug [⟨p, false⟩, ⟨o, true⟩]) 0 0)
include hr

/-- Part of the previous chunk: the boundary between the two chunks moves down by `t`. -/
theorem takeprev_part (ht : 16 ∣ t ∧ 0 < t) (htp : t < p) :
    let h' := mmAddfreechunk (cutStores (unlinkNode h f.lo) f.lo (f.lo + (p + o)) (p - t) (o + t)
      (p - t + mmAllocBit)) f.lo
    Rep h' (f.plug [⟨p - t, false⟩, ⟨o + t, true⟩]) 0 0 ∧
      Kept {f.lo + p} h (f.plug [⟨p, false⟩, ⟨o, true⟩]) h'
        (f.plug [⟨p - t, false⟩, ⟨o + t, true⟩]) ∧
      ∀ b, f.lo + p + 8 ≤ b → b < f.lo + p + o → h'.mem b = h.mem b := by
  intro h'
  obtain ⟨⟨-, -, hp, ho⟩, -⟩ := hr.window.two
  obtain ⟨hr₁, hk₁⟩ := unlink_prev hr
  have hsub : p + o - (p - t) = o + t := by omega
  have e := cutStores_edit (v := true) hr₁.window (m := p + o) (n := p - t) (by simp) (by omega)
    (by omega)
  rw [hsub, tag_used] at e
  have hr₂ := Rep.edit (W := [⟨p, false⟩, ⟨o, true⟩]) (by simpa using hr₁) e
  have hspan : f.lo + total [⟨p, false⟩, ⟨o, true⟩] = f.lo + (p - t + (o + t)) := by
    simp only [total_cons, total_nil]
    omega
  rw [hspan] at hr₂
  obtain ⟨hr₃, hk₃⟩ := add_first hr₂
  refine ⟨hr₃, ((hk₁ _).trans (e.kept hr₁ fun a k hk => ?_)).trans (hk₃ _), fun b h1 h2 => ?_⟩
  · have hk : a = f.lo + p ∧ k = o := by simpa using hk
    exact hk.1
  · -- the old payload lies inside the grown chunk
    have hold : Live (f.plug [⟨p, false⟩, ⟨o, true⟩]) (f.lo + p) o :=
      ⟨f.mem_spots_plug.mpr (.inr (by simp)), by omega⟩
    have hnew : Live (f.plug [⟨p - t, false⟩, ⟨o + t, true⟩]) (f.lo + (p - t)) (o + t) :=
      ⟨f.mem_spots_plug.mpr (.inr (by simp)), by omega⟩
    rw [(hk₃ ∅ _ _ hnew (by simp)).2 b (by omega) (by omega),
      cutStores_bytes _ _ _ _ _ _ _ (by omega) (by omega) (by omega)]
    exact (hk₁ ∅ _ _ hold (by simp)).2 b h1 h2

theorem takeprev_whole :
    let h₂ := mergeStores (unlinkNode h f.lo) f.lo (f.lo + p + o) (p + o)
    let h' := h₂.setPreceding f.lo (h₂.preceding f.lo ||| mmAllocBit)
    Rep h' (f.plug [⟨p + o, true⟩]) 0 0 ∧
      Kept {f.lo + p} h (f.plug [⟨p, false⟩, ⟨o, true⟩]) h' (f.plug [⟨p + o, true⟩]) ∧
      ∀ b, f.lo + p + 8 ≤ b → b < f.lo + p + o → h'.mem b = h.mem b := by
  intro h₂ h'
  obtain ⟨⟨-, -, hp, ho⟩, -⟩ := hr.window.two
  obtain ⟨hr₁, hk₁⟩ := unlink_prev hr
  have e := mergeStores_edit hr₁.window
  have hr₂ := Rep.edit (W := [⟨p, false⟩, ⟨o, true⟩]) (by simpa using hr₁) e
  obtain ⟨hr₃, hk₃⟩ := mark_used (by simpa using hr₂)
  refine ⟨hr₃, ((hk₁ _).trans (e.kept hr₁ fun a k hk => ?_)).trans (hk₃ _), fun b h1 h2 => ?_⟩
  · have hk : a = f.lo + p ∧ k = o := by simpa using hk
    exact hk.1
  · have hold : Live (f.plug [⟨p, false⟩, ⟨o, true⟩]) (f.lo + p) o :=
      ⟨f.mem_spots_plug.mpr (.inr (by simp)), by omega⟩
    rw [← (hk₁ ∅ _ _ hold (by simp)).2 b h1 h2]
    simp (disch := omega) [h', h₂, mergeStores, Heap.setPrecedingSize]

end

section

variable (hok : HeapOk h (f.plug [⟨o, true⟩])) (hp : f.prev = ⟨p, false⟩) (ht : 16 ∣ t ∧ 0 < t)
  (htp : t ≤ p)
include hok hp ht htp

/-- What `reallocTakeprev` does before it copies: the chunk has grown downwards by `t`. -/
theorem takeprev_grown : ∃ (f' : Focus) (h' : Heap), f'.lo + t = f.lo ∧
      f'.right = f.right ∧ reallocTakeprev h f.lo (f.lo - p) (f.lo + o) o p t =
        ({ h' with mem := memcpy h'.mem (f'.lo + 8) (f.lo + 8) (o + t - 8) }, o + t) ∧
      HeapOk h' (f'.plug [⟨o + t, true⟩]) ∧
      Kept {f.lo} h (f.plug [⟨o, true⟩]) h' (f'.plug [⟨o + t, true⟩]) ∧
      ∀ b, f.lo + 8 ≤ b → b < f.lo + o → h'.mem b = h.mem b := by
  obtain ⟨k, hprev, hlo, hplug⟩ := prev_free (f := f) (by rw [hp])
  cases hp.symm.trans hprev
  have hr := hok.rep
  have hco := hok.coalesced
  rw [hplug] at hr hco
  simp only [hplug]
  obtain ⟨hcr, hcw⟩ := coalesced_plug.mp hco
  obtain ⟨⟨hroom, hshort, hkg, ho⟩, -⟩ := hr.window.two
  have hgl : f.lo - p = f.dropLeft.lo := by omega
  have hnext : f.lo + o = f.dropLeft.lo + (p + o) := by omega
  obtain ⟨hr₁, -⟩ := unlink_prev hr
  obtain ⟨-, ⟨hs₁, htag₁⟩, -⟩ := hr₁.window.two
  by_cases hpart : t < p
  · obtain ⟨hr', hk', hb'⟩ := takeprev_part hr ht hpart
    have hnew : f.lo - t = f.dropLeft.lo + (p - t) := by omega
    let f' : Focus := { f.dropLeft with left := f.dropLeft.left ++ [⟨p - t, false⟩] }
    have hlo' : f'.lo = f.dropLeft.lo + (p - t) := by
      simp [f', Focus.lo, total_append, add_assoc]
    have hplug' : f'.plug [⟨o + t, true⟩] = f.dropLeft.plug [⟨p - t, false⟩, ⟨o + t, true⟩] := by
      simp [f', Focus.plug]
    refine ⟨f', _, by omega, rfl, ?_, ⟨hplug' ▸ hr', ?_⟩, ?_, fun b h1 h2 => hb' b ?_ ?_⟩
    · have hsize : (mmAddfreechunk (cutStores (unlinkNode h f.dropLeft.lo) f.dropLeft.lo
          (f.dropLeft.lo + (p + o)) (p - t) (o + t) (p - t + mmAllocBit)) f.dropLeft.lo).size
          (f.dropLeft.lo + (p - t)) = o + t := by
        rw [← hlo']
        exact (hplug' ▸ hr' : Rep _ (f'.plug [⟨o + t, true⟩]) 0 0).window.one.2.1
      simp (disch := omega) only [reallocTakeprev, hgl, hnew, hnext, if_pos hpart, hs₁,
        size_setSize, size_setSize_disjoint, size_setPreceding]
      rw [cutStores_of_first _ _ _ _ _ _ (by omega), or_allocBit (by omega), hsize, hlo']
      rfl
    · rw [hplug']
      refine coalesced_plug.mpr ⟨hcr, ?_⟩
      simp only [NoAdjacent, cons_append, nil_append, isChain_cons_cons] at hcw ⊢
      simpa using hcw.1
    · rw [hplug', ← hlo]
      exact hk'
    · omega
    · omega
  · obtain rfl : t = p := by omega
    obtain ⟨hr', hk', hb'⟩ := takeprev_whole hr
    have hcomm : o + t = t + o := add_comm o t
    rw [hcomm]
    refine ⟨f.dropLeft, _, hlo, rfl, ?_, ⟨hr', ?_⟩, ?_, fun b h1 h2 => hb' b ?_ ?_⟩
    · have hsize := hr'.window.one.2.1
      simp (disch := omega) only [reallocTakeprev, hgl, hnext, if_neg hpart, hs₁, size_setPreceding,
        size_setSize]
      rw [setPreceding_comm _ (· ||| mmAllocBit) (t + o) (by omega), ← add_assoc f.dropLeft.lo]
      simp only [mergeStores] at hsize ⊢
      rw [hsize]
      rfl
    · exact coalesced_plug.mpr ⟨hcr, by simp [NoAdjacent]⟩
    · rw [← hlo]
      exact hk'
    · omega
    · omega

/-- `reallocTakeprev` moves the contents down into the grown chunk. The copy is longer than the old
payload, but it ends with the new chunk. -/
theorem reallocTakeprev_spec : ∃ (f' : Focus) (h' : Heap), f'.lo + t = f.lo ∧
      f'.right = f.right ∧ reallocTakeprev h f.lo (f.lo - p) (f.lo + o) o p t = (h', o + t) ∧
      Moved h (f.plug [⟨o, true⟩]) f.lo o h' (f'.plug [⟨o + t, true⟩]) f'.lo (o + t) := by
  obtain ⟨f', h₁, hlo, hright, heq, hok₁, hk₁, hb₁⟩ := takeprev_grown hok hp ht htp
  obtain ⟨⟨-, -, ho⟩, -⟩ := hok.rep.window.one
  obtain ⟨hr', hk'⟩ := Rep.setPayload hok₁.rep
    { h₁ with mem := memcpy h₁.mem (f'.lo + 8) (f.lo + 8) (o + t - 8) } ⟨rfl, rfl, rfl⟩
    (fun b hb => memcpy_outside (by omega))
  -- the new place lies inside the free chunk that was there
  have hfresh : ∀ m, ¬ Live (f.plug [⟨o, true⟩]) f'.lo m := by
    intro m
    obtain ⟨k, hprev, hlo', hplug⟩ := prev_free (f := f) (by rw [hp])
    cases hp.symm.trans hprev
    have hspot : (f.dropLeft.lo, ⟨p, false⟩) ∈ spots (f.plug [⟨o, true⟩]) := by
      rw [hplug]
      exact f.dropLeft.mem_spots_plug.mpr (.inr (by simp))
    exact hok.rep.ok.not_live hspot (by omega)
  refine ⟨f', _, hlo, hright, heq, ⟨hr', hok₁.coalesced⟩, hk₁.trans_fresh hk' ?_, ?_, .inr hfresh,
    fun i hi _ => ?_⟩
  · rintro a n hlive rfl
    exact absurd hlive (hfresh n)
  · exact ⟨f'.mem_spots_plug.mpr (.inr (by simp)), by omega⟩
  · rw [← hb₁ (f.lo + 8 + i) (by omega) (by omega)]
    exact memcpy_copied (.inl (by omega)) i (by omega)

end

end Takeprev

/-! ## Taking from the next chunk -/

section Takenext

variable {o k t : Nat}

/-- `reallocTakenext` grows the chunk upwards and leaves its contents where they are. -/
theorem reallocTakenext_spec (hok : HeapOk h (f.plug [⟨o, true⟩])) (hn : f.next = ⟨k, false⟩)
    (ht : 16 ∣ t ∧ 0 < t) (htk : t ≤ k) : ∃ l',
      Moved h (f.plug [⟨o, true⟩]) f.lo o (reallocTakenext h f.lo (f.lo + o) o k t) l' f.lo
        (o + t) := by
  obtain ⟨k', hnext, hplug⟩ := next_free (f := f) (by rw [hn])
  cases hn.symm.trans hnext
  have hr := hok.rep
  have hco := hok.coalesced
  simp only [hplug, cons_append, nil_append] at hr hco ⊢
  obtain ⟨hcr, hcw⟩ := coalesced_plug.mp hco
  obtain ⟨hr₁, hk₁⟩ := unlink_next hr
  obtain ⟨⟨hroom, hshort, ho, hk⟩, ⟨hs₁, -⟩, -⟩ := hr₁.window.two
  have hlive : Live (f.dropRight.plug [⟨o, true⟩, ⟨k, false⟩]) f.lo o :=
    ⟨f.dropRight.mem_spots_plug.mpr (.inr (by simp)), by omega⟩
  have hold := (hk₁ ∅ f.lo o hlive (by simp)).2
  by_cases hpart : t < k
  · obtain ⟨hr₂, hk₂, hb₂⟩ := cut_and_list (s := o + t) hr₁ (by simp) (by simp) (by omega)
      (by omega)
    have hsub : o + k - (o + t) = k - t := by omega
    simp only [dropRight_lo, hsub] at hr₂ hk₂ hb₂
    have heq : reallocTakenext h f.lo (f.lo + o) o k t = mmAddfreechunk
        (cutStores (unlinkNode h (f.lo + o)) f.lo (f.lo + (o + k)) (o + t) (k - t) (o + t))
        (f.lo + (o + t)) := by
      simp (disch := omega) only [reallocTakenext, if_pos hpart, size_setSize,
        size_setSize_disjoint, size_setPreceding]
      rw [cutStores_of_first _ _ _ _ _ _ (by omega), add_assoc]
    rw [heq]
    refine ⟨_, ⟨hr₂, ?_⟩, (hk₁ _).trans hk₂, ⟨?_, by omega⟩, .inl rfl, fun i hi _ => ?_⟩
    · refine coalesced_plug.mpr ⟨hcr, ?_⟩
      simp only [NoAdjacent, cons_append, nil_append, isChain_cons_cons] at hcw ⊢
      simpa using hcw.2.2
    · exact f.dropRight.mem_spots_plug.mpr (.inr (by simp))
    · exact (hb₂ _ (by omega) (by omega)).trans (hold _ (by omega) (by omega))
  · obtain rfl : t = k := by omega
    have e := mergeStores_edit hr₁.window
    have hr₂ := Rep.edit (W := [⟨o, true⟩, ⟨t, false⟩]) (by simpa using hr₁) e
    have heq : reallocTakenext h f.lo (f.lo + o) o t t
        = mergeStores (unlinkNode h (f.lo + o)) f.lo (f.lo + o + t) (o + t) := by
      simp only [reallocTakenext, if_neg hpart]
      exact mergeStores_eq _ _ _ (by omega)
    rw [heq]
    refine ⟨_, ⟨Rep.loose_used hr₂ (.inr (by simp)) 0 0 (.inl ⟨rfl, rfl⟩), ?_⟩,
      (hk₁ _).trans (e.kept hr₁ fun a n hn => ?_), ⟨?_, by omega⟩, .inl rfl, fun i hi _ => ?_⟩
    · exact coalesced_plug.mpr ⟨hcr, by simp [NoAdjacent]⟩
    · simp only [placed_cons, placed_nil, mem_cons, not_mem_nil, or_false, Prod.mk.injEq,
        Chunk.mk.injEq, Bool.true_eq_false, and_false] at hn
      exact hn.1
    · exact f.dropRight.mem_spots_plug.mpr (.inr (by simp))
    · rw [← hold _ (by omega) (by omega)]
      simp (disch := omega) [mergeStores, Heap.setPrecedingSize]

end Takenext

/-! ## Reallocation -/

section Realloc

variable {o n : Nat}

/-- The sizes that `mm_realloc` reads off the neighbours of its operand. -/
def freeSize (c : Chunk) : Nat := if c.used then 0 else c.size

theorem freeSize_eq {c : Chunk} (hc : 0 < freeSize c) : c = ⟨freeSize c, false⟩ := by
  obtain ⟨k, u⟩ := c
  cases u with
  | false => rfl
  | true => simp [freeSize] at hc

/-- Free neighbours have a size that the allocator deals in. -/
theorem Rep.freeSize_dvd {lo hi : Nat} (hr : Rep h (f.plug [⟨o, true⟩]) lo hi) :
    16 ∣ freeSize f.prev ∧ 16 ∣ freeSize f.next := by
  constructor
  · by_cases hu : f.prev.used = false
    · obtain ⟨k, hprev, -, hplug⟩ := prev_free hu
      rw [hplug] at hr
      rw [hprev]
      exact hr.window.two.1.2.2.1.1
    · simp [freeSize, hu]
  · by_cases hu : f.next.used = false
    · obtain ⟨k, hnext, hplug⟩ := next_free hu
      rw [hplug] at hr
      rw [hnext]
      exact hr.window.two.1.2.2.2.1
    · simp [freeSize, hu]

section

variable (hok : HeapOk h (f.plug [⟨o, true⟩]))
include hok

theorem reallocInPlace_spec (hn : 16 ∣ n) (hon : o < n)
    (hroom : n ≤ freeSize f.next + freeSize f.prev + o) :
    ∃ h' l' a, reallocInPlace h f.lo (f.lo - f.prec) (f.lo + o) o (freeSize f.prev)
        (freeSize f.next) n = (h', a + 8) ∧
      Moved h (f.plug [⟨o, true⟩]) f.lo o h' l' a n := by
  obtain ⟨⟨-, -, ho⟩, -⟩ := hok.rep.window.one
  obtain ⟨hpd, hnd⟩ := hok.rep.freeSize_dvd
  have hle : n - o ≤ freeSize f.prev + freeSize f.next := by omega
  obtain ⟨htp, htn⟩ := reallocTakes_le hle
  have hsum := reallocTakes_sum (by omega) hle
  obtain ⟨hdp, hdn⟩ := reallocTakes_dvd hpd hnd (show 16 ∣ n - o by omega)
  unfold reallocInPlace
  generalize reallocTakes (freeSize f.prev) (freeSize f.next) (n - o) = takes at *
  obtain ⟨takeprev, takenext⟩ := takes
  simp only at htp htn hsum hdp hdn ⊢
  by_cases hprev : takeprev = 0
  · -- only the next chunk is needed
    subst hprev
    obtain ⟨l', hm⟩ := reallocTakenext_spec (t := takenext) hok (freeSize_eq (by omega))
      (by omega) htn
    have hsize : o + takenext = n := by omega
    rw [hsize] at hm
    refine ⟨_, l', f.lo, ?_, hm⟩
    rw [if_pos (show takenext ≠ 0 by omega), if_neg (show ¬ (0 : Nat) ≠ 0 by simp)]
    rfl
  · have hp := freeSize_eq (c := f.prev) (by omega)
    have hprec : f.prec = freeSize f.prev := by
      rw [f.prec_eq]
      exact congrArg Chunk.size hp
    obtain ⟨f', h₁, hlo, hright, heq, hm₁⟩ := reallocTakeprev_spec (t := takeprev) hok hp
      (by omega) htp
    have hlo' : f.lo - takeprev = f'.lo := by omega
    rw [if_pos hprev, hprec, heq]
    simp only [hlo']
    by_cases hnext : takenext = 0
    · have hsize : o + takeprev = n := by omega
      rw [if_neg (by simpa using hnext)]
      rw [hsize] at hm₁
      exact ⟨h₁, _, f'.lo, rfl, hm₁⟩
    · have hnx : f'.next = ⟨freeSize f.next, false⟩ := by
        have : f'.next = f.next := by simp only [Focus.next, hright]
        rw [this]
        exact freeSize_eq (by omega)
      obtain ⟨l', hm₂⟩ := reallocTakenext_spec (t := takenext) hm₁.ok hnx (by omega) htn
      have haddr : f'.lo + (o + takeprev) = f.lo + o := by omega
      have hsize : o + takeprev + takenext = n := by omega
      rw [haddr, hsize] at hm₂
      rw [if_pos hnext]
      exact ⟨_, l', f'.lo, rfl, hm₁.trans hm₂ (by omega)⟩

theorem reallocMove_spec {size : Nat} (hs : size + 23 < 2 ^ 32) (hon : o < mmAlignUp (size + 8)) :
    reallocMove h (f.lo + 8) o size = (h, 0) ∨
      ∃ h' l' a, reallocMove h (f.lo + 8) o size = (h', a + 8) ∧
        Moved h (f.plug [⟨o, true⟩]) f.lo o h' l' a (mmAlignUp (size + 8)) := by
  have hn := mmAlignUp_spec (show size + 8 + 15 < 2 ^ 32 by omega)
  obtain ⟨⟨-, -, ho⟩, -⟩ := hok.rep.window.one
  rcases mmMalloc_spec hok hs with ⟨hnull, -⟩ | ⟨-, f', N, hret, hspot, hN, -, -, -, hok₁, hk₁⟩
  · exact .inl (by simp [reallocMove, hnull])
  refine .inr ?_
  generalize mmAlignUp (size + 8) = n at *
  have heq : reallocMove h (f.lo + 8) o size
      = (mmFree { (mmMalloc h size).1 with
          mem := memcpy (mmMalloc h size).1.mem (f'.lo + 8) (f.lo + 8) o } (f.lo + 8),
          f'.lo + 8) := by
    simp only [reallocMove, hret]
    rw [if_pos (by omega)]
  rw [heq]
  generalize (mmMalloc h size).1 = h₁ at *
  -- the new chunk lies inside a free chunk of the old heap
  have hfresh : ∀ m, ¬ Live (f.plug [⟨o, true⟩]) f'.lo m := fun m =>
    hok.rep.ok.not_live hspot (by omega)
  have hlive : Live (f.plug [⟨o, true⟩]) f.lo o := ⟨f.mem_spots_plug.mpr (.inr (by simp)), by omega⟩
  have hne : f.lo ≠ f'.lo := fun hc => hfresh o (hc ▸ hlive)
  have hnew : Live (f'.plug [⟨n, true⟩]) f'.lo n :=
    ⟨f'.mem_spots_plug.mpr (.inr (by simp)), by omega⟩
  obtain ⟨hold, holdBytes⟩ := hk₁ ∅ f.lo o hlive (by simp)
  have hdis := hok₁.rep.ok.spots_disjoint hold.1 hnew.1
  have hdis' : f.lo + o ≤ f'.lo ∨ f'.lo + n ≤ f.lo :=
    hdis.resolve_left fun hc => hne (congrArg Prod.fst hc)
  obtain ⟨hr₂, hk₂⟩ := Rep.setPayload hok₁.rep
    { h₁ with mem := memcpy h₁.mem (f'.lo + 8) (f.lo + 8) o } ⟨rfl, rfl, rfl⟩
    (fun b hb => memcpy_outside (by omega))
  obtain ⟨hold₂, -⟩ := hk₂ f.lo o hold hne
  obtain ⟨g, hplug, hg⟩ := hold₂.focus
  have hok₂ := hplug ▸ HeapOk.mk hr₂ hok₁.coalesced
  obtain ⟨l', hok₃, hk₃⟩ := mmFree_spec hok₂
  rw [← hplug, hg] at hk₃
  rw [hg] at hok₃
  obtain ⟨hnew₃, hnewBytes⟩ := hk₃ f'.lo n hnew (Ne.symm hne)
  refine ⟨_, l', f'.lo, rfl, hok₃, ?_, hnew₃, .inr hfresh, fun i hi hi' => ?_⟩
  · refine ((hk₁ _).trans_fresh hk₂ ?_).trans hk₃
    rintro a m ha rfl
    exact absurd ha (hfresh m)
  · rw [hnewBytes _ (by omega) (by omega), ← holdBytes _ (by omega) (by omega)]
    exact memcpy_copied (by omega) i (by omega)

/-- **`mm_realloc` on an allocated block.** A null pointer means that nothing has changed. -/
theorem mmRealloc_spec {size : Nat} (hs : size + 23 < 2 ^ 32) (h0 : 0 < size) :
    mmRealloc h (f.lo + 8) size = (h, 0) ∨
      ∃ h' l' a n, mmRealloc h (f.lo + 8) size = (h', a + 8) ∧ size + 8 ≤ n ∧
        Moved h (f.plug [⟨o, true⟩]) f.lo o h' l' a n := by
  have hn := mmAlignUp_spec (show size + 8 + 15 < 2 ^ 32 by omega)
  have w := hok.rep.window
  obtain ⟨⟨-, hshort, ho⟩, hsize, htag, hnsize, hntag⟩ := w.one
  obtain ⟨p, hp, hptag⟩ := w.prevTag
  have hprev :
    (if h.preceding (f.lo - f.prec) &&& mmAllocBit = 0 then h.size (f.lo - f.prec) else 0)
      = freeSize f.prev := by
    rw [hptag, w.prevSize, tag_and_allocBit hp, freeSize]
    cases f.prev.used <;> simp [mmAllocBit]
  have hnext : (if h.preceding (f.lo + o) &&& mmAllocBit = 0 then h.size (f.lo + o) else 0)
      = freeSize f.next := by
    rw [hntag, hnsize, tag_and_allocBit (by omega), freeSize]
    cases f.next.used <;> simp [mmAllocBit]
  have hmask : h.preceding f.lo &&& mmSizeMask = f.prec := by
    rw [htag]
    exact tag_and_sizeMask (by omega)
  have hunfold : mmRealloc h (f.lo + 8) size =
      if mmAlignUp (size + 8) ≤ o then
        (if mmAlignUp (size + 8) < o then mmShrinkchunk h f.lo (mmAlignUp (size + 8)) else h,
          f.lo + 8)
      else if mmAlignUp (size + 8) ≤ freeSize f.next + freeSize f.prev + o then
        reallocInPlace h f.lo (f.lo - f.prec) (f.lo + o) o (freeSize f.prev) (freeSize f.next)
          (mmAlignUp (size + 8))
      else reallocMove h (f.lo + 8) o size := by
    rw [mmRealloc, if_neg (by omega), if_neg (by omega)]
    simp only [sizeofAllocnode, Nat.add_sub_cancel, hsize, hmask, hnext, hprev]
  rw [hunfold]
  by_cases hshrink : mmAlignUp (size + 8) ≤ o
  · rw [if_pos hshrink]
    refine .inr ?_
    by_cases hlt : mmAlignUp (size + 8) < o
    · rw [if_pos hlt]
      obtain ⟨l', hok', hk', hlive', hb', -⟩ := mmShrinkchunk_spec hok (by omega) hlt
      refine ⟨_, l', f.lo, mmAlignUp (size + 8), rfl, by omega, hok', hk', hlive', .inl rfl, ?_⟩
      exact fun i _ hi => hb' _ (by omega) (by omega)
    · rw [if_neg hlt]
      exact ⟨h, _, f.lo, o, rfl, by omega, hok, Kept.refl _ _ _,
        ⟨f.mem_spots_plug.mpr (.inr (by simp)), by omega⟩, .inl rfl, fun _ _ _ => rfl⟩
  · rw [if_neg hshrink]
    by_cases hroom : mmAlignUp (size + 8) ≤ freeSize f.next + freeSize f.prev + o
    · rw [if_pos hroom]
      obtain ⟨h', l', a, heq, hm⟩ := reallocInPlace_spec hok (by omega) (by omega) hroom
      exact .inr ⟨h', l', a, _, heq, by omega, hm⟩
    · rw [if_neg hroom]
      rcases reallocMove_spec hok hs (by omega) with hnull | ⟨h', l', a, heq, hm⟩
      · exact .inl hnull
      · exact .inr ⟨h', l', a, _, heq, by omega, hm⟩

end

end Realloc

/-! ## Aligned allocation -/

section Memalign

variable {m q : Nat}

/-- The stores of `alignChunk` in the order of a cut of the unmarked chunk. -/
theorem alignChunk_eq {node : Nat} (hsize : h.size node = m) (hq : 16 ≤ q) (hqm : q + 16 ≤ m)
    (hshort : m < 2 ^ 31) (alignment : Nat) :
    let h₂ := cutStores (h.setPreceding node (h.preceding node &&& mmSizeMask)) node (node + m) q
      (m - q) (q + mmAllocBit)
    alignChunk h node (node + 8 + q) alignment
      = (mmAddfreechunk h₂ node, node + 8 + q, node + q, h₂.size (node + q) - 8) := by
  intro h₂
  have hnew : node + 8 + q - 8 = node + q := by omega
  have hlen : node + q - node = q := by omega
  have hrest : node + m - (node + q) = m - q := by omega
  have hX : (((h.setSize (node + q) (m - q)).setPreceding (node + q) (q + mmAllocBit)).setSize node
      q).preceding node = h.preceding node := by
    simp (disch := omega)
  have hcomm : ∀ X, (((h.setSize (node + q) (m - q)).setPreceding (node + q)
      (q + mmAllocBit)).setSize node q).setPreceding node X =
      (((h.setPreceding node X).setSize (node + q) (m - q)).setPreceding (node + q)
        (q + mmAllocBit)).setSize node q := by
    intro X
    simp only [Heap.setSize, Heap.setPreceding]
    rw [setWord_comm _ (a := node) _ _ (by omega),
      setWord_comm _ (a := node + q + 4) _ _ (by omega),
      setWord_comm _ (a := node + q) _ _ (by omega)]
  have hV : ∀ h₁ : Heap, (((h₁.setSize (node + q) (m - q)).setPreceding (node + q)
      (q + mmAllocBit)).setSize node q).size (node + q) = m - q := by
    intro h₁
    simp (disch := omega)
  simp only [alignChunk, sizeofAllocnode, sizeofFreenode, hnew, hlen,
    if_neg (show ¬ q < 16 by omega), hsize, hrest, or_allocBit (show q < 2 ^ 31 by omega), hX,
    hcomm, hV]
  rfl

/-- Cutting the front off an allocated chunk and releasing it. The chunk in front of it is
allocated, so there is nothing to merge with. -/
theorem alignChunk_spec (hok : HeapOk h (f.plug [⟨m, true⟩])) (hpu : f.prev.used = true)
    (hq : 16 ∣ q ∧ 0 < q) (hqm : q + 16 ≤ m) (alignment : Nat) :
    ∃ (f' : Focus) (h' : Heap), f'.lo = f.lo + q ∧ f'.next = f.next ∧
      (f.lo, ⟨q, false⟩) ∈ placed f'.base (guardChunk :: f'.left) ∧
      alignChunk h f.lo (f.lo + 8 + q) alignment = (h', f.lo + 8 + q, f'.lo, m - q - 8) ∧
      HeapOk h' (f'.plug [⟨m - q, true⟩]) ∧
      Kept {f.lo} h (f.plug [⟨m, true⟩]) h' (f'.plug [⟨m - q, true⟩]) := by
  obtain ⟨⟨hroom, hshort, hm⟩, hsize, -⟩ := hok.rep.window.one
  obtain ⟨hr₁, hk₁⟩ := mark_free hok.rep
  have e := cutStores_edit (v := true) hr₁.window (m := m) (by simp) hq hqm
  have hr₂ := Rep.edit (W := [⟨m, false⟩]) (by simpa using hr₁) e
  have hspan : f.lo + total [⟨m, false⟩] = f.lo + (q + (m - q)) := by
    simp only [total_cons, total_nil]
    omega
  rw [hspan] at hr₂
  obtain ⟨hr₃, hk₃⟩ := add_first hr₂
  obtain ⟨-, -, ⟨hsize₂, -⟩, -⟩ := hr₂.window.two
  have heq := alignChunk_eq hsize (q := q) (by omega) hqm (by omega) alignment
  simp only [tag_used] at hsize₂ hr₃ hk₃ e
  simp only [hsize₂] at heq
  let f' : Focus := { f with left := f.left ++ [⟨q, false⟩] }
  have hlo' : f'.lo = f.lo + q := by
    simp [f', Focus.lo, total_append, add_assoc]
  have hplug' : f'.plug [⟨m - q, true⟩] = f.plug [⟨q, false⟩, ⟨m - q, true⟩] := by
    simp [f', Focus.plug]
  have hfront : (f.lo, ⟨q, false⟩) ∈ placed f'.base (guardChunk :: f'.left) := by
    simp [f', placed_append, Focus.lo, guardChunk]
  refine ⟨f', _, hlo', rfl, hfront, by rw [heq, hlo'], ⟨hplug' ▸ hr₃, ?_⟩, ?_⟩
  · rw [hplug']
    obtain ⟨hcr, -⟩ := coalesced_plug.mp hok.coalesced
    refine coalesced_plug.mpr ⟨hcr, ?_⟩
    simp [NoAdjacent, hpu]
  · rw [hplug']
    refine (hk₁.trans (e.kept hr₁ fun a k hk => ?_)).trans (hk₃ _)
    simp at hk

/-- A block of `n` bytes at `a` is cut out of a free chunk of `N` bytes at `x`. The parts of that
chunk in front of the block and behind it are free. -/
structure Carved (h : Heap) (l : Layout) (h' : Heap) (l' : Layout) (a n x N : Nat) : Prop where
  ok : HeapOk h' l'
  kept : ∀ X, Kept X h l h' l'
  live : Live l' a n
  spot : (x, ⟨N, false⟩) ∈ spots l
  inside : x ≤ a ∧ a + n ≤ x + N
  front : x = a ∨ (x, ⟨a - x, false⟩) ∈ spots l'
  rest : a + n = x + N ∨ ∃ k, (a + n, ⟨k, false⟩) ∈ spots l' ∧ x + N ≤ a + n + k

theorem Carved.fresh {h' : Heap} {l l' : Layout} {a n x N : Nat} (hc : Carved h l h' l' a n x N)
    (hok : HeapOk h l) (k : Nat) : ¬ Live l a k := by
  have h8 := (hc.ok.rep.ok.spotOk hc.live.1).eight
  have := hc.inside
  simp only at h8
  exact hok.rep.ok.not_live hc.spot (by omega)

/-- The last step of `mm_memalign`: the chunk at the alignment point is new, and its end is given
back. -/
theorem memalign_shrink {h₂ : Heap} {l : Layout} {s x N : Nat}
    (hok : HeapOk h₂ (f.plug [⟨m, true⟩]))
    (hk : ∀ X, Kept X h l h₂ (f.plug [⟨m, true⟩])) (hfresh : ∀ n, ¬ Live l f.lo n)
    (hs : 16 ∣ s ∧ 0 < s) (hsm : s < m) (hspot : (x, ⟨N, false⟩) ∈ spots l)
    (hfront : x = f.lo ∨ (x, ⟨f.lo - x, false⟩) ∈ placed f.base (guardChunk :: f.left))
    (hin : x ≤ f.lo ∧ f.lo + m ≤ x + N)
    (hrest : f.lo + m = x + N ∨ f.next = ⟨x + N - (f.lo + m), false⟩) :
    ∃ l', Carved h l (mmShrinkchunk h₂ f.lo s) l' f.lo s x N := by
  obtain ⟨l', hsh⟩ := mmShrinkchunk_spec hok hs hsm
  refine ⟨l', hsh.ok, fun X => (hk X).trans_fresh hsh.kept ?_, hsh.live, hspot, by omega,
    hfront.imp_right (hsh.front _), .inr ⟨_, hsh.rest, ?_⟩⟩
  · rintro a n ha rfl
    exact absurd ha (hfresh n)
  · rcases hrest with hend | hnext
    · omega
    · rw [hnext, if_neg Bool.false_ne_true]
      dsimp only
      omega

/-- **`mm_memalign`** returns a null pointer and changes nothing, or a block that is aligned, large
enough and cut out of a free chunk. -/
theorem mmMemalign_spec {l : Layout} (hok : HeapOk h l) {alignment size : Nat}
    (hal : ∃ k, alignment = 2 ^ k) (hs : size + 23 < 2 ^ 32)
    (hfit : mmMinChunk < alignment → mmAlignUp size + 2 * alignment + 23 < 2 ^ 32) :
    mmMemalign h alignment size = (h, 0) ∨
      ∃ h' l' a n x N, mmMemalign h alignment size = (h', a + 8) ∧ Carved h l h' l' a n x N ∧
        size + 8 ≤ n ∧ alignment ∣ a + 8 ∧
        n = if alignment ≤ mmMinChunk then mmAlignUp (size + 8)
          else mmAlignUp (mmAlignUp size + 8) := by
  obtain ⟨k, hk2⟩ := hal
  have hS := mmAlignUp_spec (show size + 15 < 2 ^ 32 by omega)
  by_cases hsmall : alignment ≤ mmMinChunk
  · -- every chunk is aligned to sixteen bytes
    have hdvd : alignment ∣ 16 := by
      rw [hk2] at hsmall ⊢
      exact Nat.pow_dvd_pow 2 ((Nat.pow_le_pow_iff_right (by decide)).mp hsmall : k ≤ 4)
    rw [mmMemalign, if_pos hsmall]
    have hn := mmAlignUp_spec (show size + 8 + 15 < 2 ^ 32 by omega)
    rcases mmMalloc_spec hok hs with
      ⟨hnull, -⟩ | ⟨-, f', N, hret, hspot, hN, -, -, hrest, hok₁, hk₁⟩
    · exact .inl hnull
    · have hal' := hok₁.rep.window.aligned
      refine .inr ⟨_, _, f'.lo, mmAlignUp (size + 8), f'.lo, N, Prod.ext rfl hret, ⟨hok₁, hk₁,
        ⟨f'.mem_spots_plug.mpr (.inr (by simp)), by omega⟩, hspot, by omega, .inl rfl,
        ?_⟩, by omega, hdvd.trans (by omega), (if_pos hsmall).symm⟩
      rcases hrest with heq | hnext
      · exact .inl (by rw [heq])
      · refine .inr ⟨_, f'.mem_spots_plug.mpr (.inl ((mem_outer f'.right_eq).mpr (.inl ?_))),
          show f'.lo + N ≤ _ + (N - mmAlignUp (size + 8)) by omega⟩
        rw [hnext]
        simp
  · have hfit := hfit (Nat.lt_of_not_le hsmall)
    have hbig : 32 ∣ alignment := by
      rw [hk2] at hsmall ⊢
      refine Nat.pow_dvd_pow 2 (?_ : 5 ≤ k)
      by_contra hc
      exact hsmall (Nat.pow_le_pow_right (by decide) (by omega : k ≤ 4))
    have hal0 : 0 < alignment := by rw [hk2]; exact Nat.pow_pos (by decide)
    have hn := mmAlignUp_spec
      (show mmAlignUp size + 2 * alignment + 8 + 15 < 2 ^ 32 by omega)
    have hsz := mmAlignUp_spec (show mmAlignUp size + 8 + 15 < 2 ^ 32 by omega)
    have hu : u32 (mmAlignUp size + 2 * alignment) = mmAlignUp size + 2 * alignment :=
      u32_eq_self (by omega)
    have hunfold : mmMemalign h alignment size =
        (let r := mmMalloc h (mmAlignUp size + 2 * alignment)
        if r.2 = 0 then (r.1, 0)
        else
          let aligned := u32 (r.2 + (alignment - 1)) / alignment * alignment
          let c := if aligned ≠ r.2 then alignChunk r.1 (r.2 - 8) aligned alignment
            else (r.1, aligned, r.2 - 8, mmAlignUp size + 2 * alignment)
          (if mmAlignUp (mmAlignUp size + 8) < c.2.2.2 then
            mmShrinkchunk c.1 c.2.2.1 (mmAlignUp (mmAlignUp size + 8)) else c.1, c.2.1)) := by
      rw [mmMemalign, if_neg hsmall]
      simp only [hu, sizeofAllocnode]
    rw [hunfold, if_neg hsmall]
    generalize mmAlignUp size = S at *
    rcases mmMalloc_spec hok (show S + 2 * alignment + 23 < 2 ^ 32 by omega) with
      ⟨hnull, -⟩ | ⟨-, f', N, hret, hspot, hN, -, hpu, hrest, hok₁, hk₁⟩
    · exact .inl (by simp [hnull])
    refine .inr ?_
    generalize mmAlignUp (S + 2 * alignment + 8) = n at *
    generalize mmAlignUp (S + 8) = s at *
    generalize mmMalloc h (S + 2 * alignment) = r at *
    obtain ⟨h₁, raw⟩ := r
    simp only at hret hok₁ hk₁ ⊢
    subst hret
    have w := hok₁.rep.window
    have haligned := w.aligned
    obtain ⟨⟨hroom, -, -⟩, -⟩ := w.one
    rw [if_neg (by omega), u32_eq_self (by omega), Nat.add_sub_cancel]
    obtain ⟨hlo, hhi⟩ := round_up (f'.lo + 8) hal0
    have hdvd : alignment ∣ (f'.lo + 8 + (alignment - 1)) / alignment * alignment :=
      dvd_mul_left _ _
    generalize (f'.lo + 8 + (alignment - 1)) / alignment * alignment = aligned at *
    have h16 : 16 ∣ aligned := (dvd_trans (by decide) hbig).trans hdvd
    by_cases hmove : aligned ≠ f'.lo + 8
    · -- the chunk is cut at the alignment point
      obtain ⟨q, rfl⟩ : ∃ q, aligned = f'.lo + 8 + q := ⟨aligned - (f'.lo + 8), by omega⟩
      obtain ⟨g, h₂, hg, hnext, hfront, heq, hok₂, hk₂⟩ :=
        alignChunk_spec (q := q) hok₁ hpu (by omega) (by omega) alignment
      rw [if_pos hmove, heq]
      simp only
      have hfresh : ∀ m, ¬ Live l g.lo m := fun m => hok.rep.ok.not_live hspot (by omega)
      have hk₁₂ : ∀ X, Kept X h l h₂ (g.plug [⟨n - q, true⟩]) := by
        refine fun X => (hk₁ X).trans_fresh hk₂ ?_
        rintro a m ha rfl
        exact absurd ha (hok.rep.ok.not_live hspot (by omega))
      have hq : g.lo - f'.lo = q := by omega
      have hend : f'.lo + N - (g.lo + (n - q)) = N - n := by omega
      obtain ⟨l', hc⟩ := memalign_shrink (s := s) hok₂ hk₁₂ hfresh (by omega) (by omega) hspot
        (.inr (hq.symm ▸ hfront)) (by omega)
        (hrest.imp (fun _ => by omega) fun hfree => by rw [hend, hnext, hfree])
      rw [if_pos (by omega)]
      refine ⟨_, l', g.lo, s, f'.lo, N, Prod.ext rfl ?_, hc, by omega, ?_, rfl⟩
      · simp only
        omega
      · rwa [show g.lo + 8 = f'.lo + 8 + q by omega]
    · -- the raw chunk happens to be aligned
      have hend : f'.lo + N - (f'.lo + n) = N - n := by omega
      obtain ⟨l', hc⟩ := memalign_shrink (s := s) hok₁ hk₁
        (fun m => hok.rep.ok.not_live hspot (by omega)) (by omega) (by omega) hspot (.inl rfl)
        (by omega)
        (hrest.imp (fun _ => by omega) fun hfree => by rw [hend, hfree])
      rw [if_neg hmove]
      simp only
      rw [if_pos (by omega)]
      refine ⟨_, l', f'.lo, s, f'.lo, N, Prod.ext rfl ?_, hc, by omega, ?_, rfl⟩
      · simp only
        omega
      · rwa [show f'.lo + 8 = aligned by omega]

end Memalign

end BaseNx.Mm
