import BaseNx.Lib.Linked
import BaseNx.Mm.Heap

/-!
# The free list

`mm_nodelist` is one doubly linked list: the nineteen heads in order, each followed by the free
chunks of its size class in order of size. `FreeList h L` says that the memory of `h` holds the
list `L` in this way, and `FreeSet h S` forgets the order: the chunks in the list are those
of `S`.

The two functions that change the list are specified on `FreeSet`: `unlinkNode_spec` takes a
chunk out and `mmAddfreechunk_spec` puts one in. Both say which bytes they write: link words of
listed nodes (and of the new one) and nothing else.
-/

namespace BaseNx.Mm

open ByteMem LinkedList List Heap

/-! ## Words -/

variable {a b : Nat}

namespace Heap

variable {h : Heap} {a b v : Nat}

theorem word_setWord (hv : v < 2 ^ 32) : (h.setWord a v).word a = v := load32_store32 _ _ hv

theorem word_setWord_disjoint (hab : b + 4 ≤ a ∨ a + 4 ≤ b) : (h.setWord a v).word b = h.word b :=
  load32_store32_disjoint _ _ hab

theorem mem_setWord_outside (hab : b < a ∨ a + 4 ≤ b) : (h.setWord a v).mem b = h.mem b :=
  store32_outside hab

@[simp] theorem size_setSize (hv : v < 2 ^ 32) : (h.setSize a v).size a = v := word_setWord hv

@[simp] theorem size_setSize_disjoint (hab : b + 4 ≤ a ∨ a + 4 ≤ b) :
    (h.setSize a v).size b = h.size b := word_setWord_disjoint hab

@[simp] theorem size_setPreceding (hab : b ≤ a ∨ a + 8 ≤ b) :
    (h.setPreceding a v).size b = h.size b :=
  word_setWord_disjoint (by omega)

@[simp] theorem preceding_setPreceding (hv : v < 2 ^ 32) : (h.setPreceding a v).preceding a = v :=
  word_setWord hv

@[simp] theorem preceding_setPreceding_disjoint (hab : b + 4 ≤ a ∨ a + 4 ≤ b) :
    (h.setPreceding a v).preceding b = h.preceding b := word_setWord_disjoint (by omega)

@[simp] theorem preceding_setSize (hab : b + 8 ≤ a ∨ a ≤ b) :
    (h.setSize a v).preceding b = h.preceding b := word_setWord_disjoint (by omega)

@[simp] theorem mem_setSize (hab : b < a ∨ a + 4 ≤ b) : (h.setSize a v).mem b = h.mem b :=
  store32_outside hab

@[simp] theorem mem_setPreceding (hab : b < a + 4 ∨ a + 8 ≤ b) :
    (h.setPreceding a v).mem b = h.mem b := store32_outside (by omega)

theorem setWord_comm (h : Heap) (v w : Nat) (hab : b + 4 ≤ a ∨ a + 4 ≤ b) :
    (h.setWord a v).setWord b w = (h.setWord b w).setWord a v := by
  simp only [setWord, store32_comm h.mem v w hab]

end Heap

/-- What two heaps share besides the bytes of the memory. -/
structure SameFrame (h h' : Heap) : Prop where
  nodelist : h'.mmNodelist = h.mmNodelist
  heapsize : h'.mmHeapsize = h.mmHeapsize
  regions : h'.mmRegions = h.mmRegions

variable {h : Heap}

theorem SameFrame.rfl : SameFrame h h := ⟨.refl _, .refl _, .refl _⟩

variable {h' : Heap}

theorem SameFrame.trans {h'' : Heap} (a : SameFrame h h') (b : SameFrame h' h'') :
    SameFrame h h'' :=
  ⟨b.1.trans a.1, b.2.trans a.2, b.3.trans a.3⟩

theorem Heap.nodelist_congr (hn : h'.mmNodelist = h.mmNodelist) (i : Nat) :
    h'.nodelist i = h.nodelist i := by
  simp only [Heap.nodelist, hn]

theorem SameFrame.nodelist_eq (a : SameFrame h h') (i : Nat) : h'.nodelist i = h.nodelist i :=
  nodelist_congr a.nodelist i

theorem sameFrame_setWord (h : Heap) (a v : Nat) : SameFrame h (h.setWord a v) :=
  ⟨.refl _, .refl _, .refl _⟩

/-! ## Size classes -/

theorem le_ndxLoop : ∀ fuel ndx size, ndx ≤ ndxLoop fuel ndx size
  | 0, _, _ => le_refl _
  | fuel + 1, ndx, size => by
    simp only [ndxLoop]
    split
    · exact (Nat.le_succ ndx).trans (le_ndxLoop fuel _ _)
    · exact le_refl _

theorem ndxLoop_mono : ∀ (fuel ndx : Nat) {s t : Nat},
    s ≤ t → ndxLoop fuel ndx s ≤ ndxLoop fuel ndx t
  | 0, _, _, _, _ => le_refl _
  | fuel + 1, ndx, s, t, hst => by
    simp only [ndxLoop]
    by_cases hs : 1 < s
    · rw [if_pos hs, if_pos (by omega)]
      exact ndxLoop_mono fuel _ (Nat.div_le_div_right hst)
    · rw [if_neg hs]
      exact le_ndxLoop (fuel + 1) ndx t

theorem ndxLoop_le : ∀ (fuel ndx j : Nat) {s : Nat}, s < 2 ^ (j + 1) → ndxLoop fuel ndx s ≤ ndx + j
  | 0, _, _, _, _ => Nat.le_add_right _ _
  | fuel + 1, ndx, j, s, hs => by
    simp only [ndxLoop]
    split
    case isTrue h1 =>
      cases j with
      | zero => omega
      | succ j =>
        have := ndxLoop_le fuel (ndx + 1) j (s := s / 2) (by rw [pow_succ] at hs; omega)
        omega
    case isFalse => omega

theorem mmSize2ndx_lt (size : Nat) : mmSize2ndx size < mmNnodes := by
  unfold mmSize2ndx
  by_cases hs : mmMaxChunk ≤ size
  · rw [if_pos hs]
    decide
  · rw [if_neg hs]
    have hlt : size / 2 ^ mmMinShift < 2 ^ (17 + 1) := by
      simp only [mmMaxChunk, mmMinShift] at hs ⊢
      omega
    exact lt_of_le_of_lt (ndxLoop_le 32 0 17 hlt) (by decide)

theorem mmSize2ndx_mono {s t : Nat} (hst : s ≤ t) : mmSize2ndx s ≤ mmSize2ndx t := by
  by_cases ht : mmMaxChunk ≤ t
  · have hlt := mmSize2ndx_lt s
    simp only [mmSize2ndx, if_pos ht, mmNnodes] at hlt ⊢
    omega
  · have hs : ¬ mmMaxChunk ≤ s := by omega
    simp only [mmSize2ndx, if_neg ht, if_neg hs]
    exact ndxLoop_mono 32 0 (Nat.div_le_div_right hst)

/-! ## The order of the list -/

/-- The size class of a node: a head has size zero and stands at the front of its own class. -/
def slot (h : Heap) (a : Nat) : Nat :=
  if h.size a = 0 then (a - h.mmNodelist) / 16 else mmSize2ndx (h.size a)

/-- The order of the list: by size class, then by size. -/
def Before (h : Heap) (a b : Nat) : Prop :=
  slot h a < slot h b ∨ slot h a = slot h b ∧ h.size a ≤ h.size b

theorem Before.trans {c : Nat} (hab : Before h a b) (hbc : Before h b c) : Before h a c := by
  simp only [Before] at *
  omega

theorem before_congr (hn : h'.mmNodelist = h.mmNodelist) (ha : h'.size a = h.size a)
    (hb : h'.size b = h.size b) (hab : Before h a b) : Before h' a b := by
  simpa only [Before, slot, ha, hb, hn] using hab

theorem slot_nodelist {i : Nat} (hz : h.size (h.nodelist i) = 0) : slot h (h.nodelist i) = i := by
  rw [slot, if_pos hz, Heap.nodelist]
  omega

theorem slot_of_ne (ha : h.size a ≠ 0) : slot h a = mmSize2ndx (h.size a) :=
  if_neg ha

/-- Two sixteen-byte nodes that do not overlap. -/
def Apart (a b : Nat) : Prop := a + 16 ≤ b ∨ b + 16 ≤ a

instance : Std.Symm Apart := ⟨fun _ _ hab => Or.symm hab⟩

/-- The memory holds the list `L` of heads and free chunks. -/
structure FreeList (h : Heap) (L : List Nat) : Prop where
  linked : Linked h.flink h.blink 0 L
  first : h.blink (h.nodelist 0) = 0
  apart : L.Pairwise Apart
  bound : ∀ a ∈ L, 0 < a ∧ a + 16 ≤ 2 ^ 32
  heads : ∀ i < mmNnodes, h.nodelist i ∈ L
  zero : ∀ i < mmNnodes, h.size (h.nodelist i) = 0
  isHead : ∀ a ∈ L, h.size a = 0 → ∃ i < mmNnodes, a = h.nodelist i
  sorted : L.Pairwise (Before h)

/-- The chunks in the free list are those of `S`. -/
def FreeSet (h : Heap) (S : Set Nat) : Prop :=
  ∃ L, FreeList h L ∧ (∀ a ∈ S, h.size a ≠ 0) ∧
    ∀ a, a ∈ L ↔ (∃ i < mmNnodes, a = h.nodelist i) ∨ a ∈ S

variable {p : Nat}

namespace FreeList

variable {L : List Nat} {a b x : Nat}

theorem nodup (hl : FreeList h L) : L.Nodup :=
  hl.apart.imp fun {a b} hab => by simp only [Apart] at hab; omega

theorem apart_of_ne (hl : FreeList h L) (ha : a ∈ L) (hb : b ∈ L) (hab : a ≠ b) : Apart a b :=
  hl.apart.forall ha hb hab

theorem apart_mid {pre post : List Nat} (hl : FreeList h (pre ++ p :: post)) :
    ∀ a ∈ pre ++ post, Apart p a := by
  obtain ⟨-, hmid, hcross⟩ := pairwise_append.mp hl.apart
  exact forall_mem_append.2 ⟨fun a ha => (hcross a ha p (by simp)).symm,
    (pairwise_cons.mp hmid).1⟩

/-- Distinct nodes of sixteen bytes in a 32-bit address space: the loops have enough fuel. -/
theorem length_le (hl : FreeList h L) : L.length ≤ maxNodes := by
  have hnd : (L.map (· / 16)).Nodup := by
    refine List.Pairwise.map _ ?_ hl.apart
    intro a b hab
    simp only [Apart] at hab
    omega
  have hsub : L.map (· / 16) ⊆ range maxNodes := by
    intro c hc
    obtain ⟨a, ha, rfl⟩ := mem_map.mp hc
    have := hl.bound a ha
    simp only [mem_range, maxNodes]
    omega
  simpa using (subperm_of_subset hnd hsub).length_le

/-- The list survives when the three words of each node it reads survive. -/
theorem congr (hl : FreeList h L) (hf : h'.mmNodelist = h.mmNodelist)
    (hs : ∀ a ∈ L, h'.size a = h.size a)
    (hn : ∀ a ∈ L, h'.flink a = h.flink a) (hp : ∀ a ∈ L, h'.blink a = h.blink a) :
    FreeList h' L where
  linked := hl.linked.congr hn fun b hb => hp b (mem_of_mem_tail hb)
  first := by
    rw [nodelist_congr hf, hp _ (hl.heads 0 (by decide))]
    exact hl.first
  apart := hl.apart
  bound := hl.bound
  heads := fun i hi => nodelist_congr hf i ▸ hl.heads i hi
  zero := fun i hi => by
    rw [nodelist_congr hf, hs _ (hl.heads i hi)]
    exact hl.zero i hi
  isHead := fun a ha hz => by
    simpa only [nodelist_congr hf] using hl.isHead a ha ((hs a ha).symm.trans hz)
  sorted := hl.sorted.imp_of_mem fun ha hb hab => before_congr hf (hs _ ha) (hs _ hb) hab

/-- The first head comes before every other node. -/
theorem first_not_behind {pre post : List Nat} (hl : FreeList h (pre ++ p :: post)) :
    h.nodelist 0 ∉ post := by
  intro hmem
  have hz0 := hl.zero 0 (by decide)
  have hb := (pairwise_cons.mp (pairwise_append.mp hl.sorted).2.1).1 _ hmem
  rw [Before, slot_nodelist hz0, hz0] at hb
  obtain ⟨i, hi, rfl⟩ := hl.isHead p (by simp) (by omega)
  rw [slot_nodelist (by omega)] at hb
  obtain rfl : i = 0 := by omega
  have := hl.apart_mid _ (mem_append_right pre hmem)
  simp only [Apart] at this
  omega

theorem exists_pred (hl : FreeList h L) (hx : x ∈ L) (hz : h.size x ≠ 0) :
    ∃ pre p post, L = pre ++ p :: x :: post := by
  obtain ⟨front, post, rfl⟩ := append_of_mem hx
  rcases eq_nil_or_concat front with rfl | ⟨pre, p, rfl⟩
  · exfalso
    rcases mem_cons.mp (hl.heads 0 (by decide)) with heq | hmem
    · exact hz (heq ▸ hl.zero 0 (by decide))
    · exact first_not_behind (show FreeList h ([] ++ x :: post) from hl) hmem
  · exact ⟨pre, p, post, by simp⟩

/-- The link out of a node that has a predecessor. -/
theorem flink_eq {pre post : List Nat} (hl : FreeList h (pre ++ p :: x :: post)) :
    h.flink x = post.head?.getD 0 := by
  have hlinked : Linked h.flink h.blink 0 ((pre ++ [p]) ++ x :: post) := by
    simpa using hl.linked
  exact hlinked.next_eq

end FreeList

/-! ## Link words -/

namespace Heap

variable {a b v : Nat}

theorem flink_setFlink (hv : v < 2 ^ 32) : (h.setFlink a v).flink a = v := word_setWord hv

theorem flink_setFlink_apart (hab : Apart a b) : (h.setFlink a v).flink b = h.flink b :=
  word_setWord_disjoint (by simp only [Apart] at hab; omega)

theorem flink_setBlink (hab : a = b ∨ Apart a b) : (h.setBlink a v).flink b = h.flink b :=
  word_setWord_disjoint (by simp only [Apart] at hab; omega)

theorem blink_setBlink (hv : v < 2 ^ 32) : (h.setBlink a v).blink a = v := word_setWord hv

theorem blink_setBlink_apart (hab : Apart a b) : (h.setBlink a v).blink b = h.blink b :=
  word_setWord_disjoint (by simp only [Apart] at hab; omega)

theorem blink_setFlink (hab : a = b ∨ Apart a b) : (h.setFlink a v).blink b = h.blink b :=
  word_setWord_disjoint (by simp only [Apart] at hab; omega)

end Heap

/-- The byte `b` belongs to no link word of the nodes in `S`. -/
def OffLinks (S : Set Nat) (b : Nat) : Prop := ∀ a ∈ S, b < a + 8 ∨ a + 16 ≤ b

/-- `h'` differs from `h` at most in link words of the nodes in `S`. -/
structure RelinkedOn (S : Set Nat) (h h' : Heap) : Prop where
  frame : SameFrame h h'
  bytes : ∀ b, OffLinks S b → h'.mem b = h.mem b

namespace RelinkedOn

variable {S : Set Nat} {h h' h'' : Heap} {a v : Nat}

theorem trans (h₁ : RelinkedOn S h h') (h₂ : RelinkedOn S h' h'') : RelinkedOn S h h'' :=
  ⟨h₁.frame.trans h₂.frame, fun b hb => (h₂.bytes b hb).trans (h₁.bytes b hb)⟩

theorem setFlink (ha : a ∈ S) : RelinkedOn S h (h.setFlink a v) :=
  ⟨sameFrame_setWord _ _ _, fun b hb =>
    mem_setWord_outside (by rcases hb a ha with hb | hb <;> omega)⟩

theorem setBlink (ha : a ∈ S) : RelinkedOn S h (h.setBlink a v) :=
  ⟨sameFrame_setWord _ _ _, fun b hb =>
    mem_setWord_outside (by rcases hb a ha with hb | hb <;> omega)⟩

/-- A word away from the links of `S` is kept. -/
theorem word_eq (hr : RelinkedOn S h h') (ha : ∀ c ∈ S, a + 4 ≤ c + 8 ∨ c + 16 ≤ a) :
    h'.word a = h.word a :=
  load32_congr fun b hlo hhi => hr.bytes b fun c hc => by
    rcases ha c hc with h1 | h1 <;> omega

end RelinkedOn

/-! ## Taking a chunk out -/

variable {L : List Nat} {S : Set Nat}

section Unlink

variable {pre post : List Nat} {p x : Nat}

theorem FreeList.ne_and_apart (hl : FreeList h L) (ha : a ∈ L) (hb : b ∈ L) :
    a = b ∨ Apart a b := by
  by_cases hab : a = b
  · exact .inl hab
  · exact .inr (hl.apart_of_ne ha hb hab)

theorem FreeList.size_relinked (hl : FreeList h L) (hr : RelinkedOn {a | a ∈ L} h h') (ha : a ∈ L) :
    h'.size a = h.size a :=
  hr.word_eq fun c hc => by
    rcases hl.ne_and_apart ha hc with rfl | hac
    · omega
    · simp only [Apart] at hac
      omega

section

variable (hl : FreeList h (pre ++ p :: x :: post))
include hl

/-- The stores of `unlinkNode` in a list that holds `p`, `x` in this order. -/
theorem unlinkNode_eq :
    unlinkNode h x = match post with
      | [] => h.setFlink p 0
      | q :: _ => (h.setFlink p q).setBlink q p := by
  have hpx : Apart p x := by
    have hne := hl.nodup
    refine hl.apart_of_ne (by simp) (by simp) ?_
    rintro rfl
    simp [nodup_append] at hne
  have hblink : h.blink x = p := hl.linked.prev_eq
  have hflink : h.flink x = post.head?.getD 0 := hl.flink_eq
  simp only [unlinkNode, hblink, flink_setFlink_apart hpx, blink_setFlink (.inr hpx),
    hflink]
  cases post with
  | nil => simp
  | cons q post =>
    exact if_pos (hl.bound q (by simp)).1.ne'

theorem unlinkNode_relinkedOn : RelinkedOn {a | a ∈ pre ++ p :: x :: post} h (unlinkNode h x) := by
  rw [unlinkNode_eq hl]
  cases post with
  | nil => exact .setFlink (by simp)
  | cons q post => exact (RelinkedOn.setFlink (by simp)).trans (.setBlink (by simp))

theorem unlinkNode_linked :
    Linked (unlinkNode h x).flink (unlinkNode h x).blink 0 (pre ++ p :: post) := by
  have hp : ∀ a ∈ pre ++ x :: post, Apart p a := hl.apart_mid
  have hx : h.flink x = post.head?.getD 0 := hl.flink_eq
  have hlt : ∀ a ∈ pre ++ p :: x :: post, a < 2 ^ 32 := fun a ha => by
    have := (hl.bound a ha).2
    omega
  have hpb : ∀ b ∈ pre ++ p :: post.tail, p = b ∨ Apart p b := fun b hb => by
    refine hl.ne_and_apart (by simp) ?_
    have := mem_of_mem_tail (a := b) (l := post)
    simp only [mem_append, mem_cons] at hb ⊢
    tauto
  rw [unlinkNode_eq hl]
  cases post with
  | nil =>
    refine hl.linked.unlink ?_ (by simp) (fun a ha => ?_) (fun b hb => ?_)
    · rw [hx]
      exact flink_setFlink (by decide)
    · exact flink_setFlink_apart (hp a (by simp only [append_nil] at ha; simp [ha]))
    · exact blink_setFlink (hpb b hb)
  | cons q post =>
    have hq : ∀ a ∈ (pre ++ [p, x]) ++ post, Apart q a :=
      FreeList.apart_mid (h := h) (by simpa using hl)
    have hpq : Apart p q := hp q (by simp)
    refine hl.linked.unlink ?_ (fun r hr => ?_) (fun a ha => ?_) (fun b hb => ?_)
    · rw [hx, flink_setBlink (.inr hpq.symm)]
      exact flink_setFlink (hlt q (by simp))
    · obtain rfl : q = r := by simpa using hr
      exact blink_setBlink (hlt p (by simp))
    · simp only [mem_append, mem_cons] at ha
      rw [flink_setBlink (hl.ne_and_apart (by simp) (by simp only [mem_append, mem_cons]; tauto))]
      exact flink_setFlink_apart (hp a (by simp only [mem_append, mem_cons]; tauto))
    · have hqb : Apart q b := hq b (by
        simp only [mem_append, mem_cons, tail_cons] at hb ⊢; tauto)
      rw [blink_setBlink_apart hqb]
      exact blink_setFlink (hpb b hb)

theorem unlinkNode_first : (unlinkNode h x).blink (h.nodelist 0) = 0 := by
  have h0 := hl.heads 0 (by decide)
  rw [unlinkNode_eq hl]
  cases post with
  | nil => exact (blink_setFlink (hl.ne_and_apart (by simp) h0)).trans hl.first
  | cons q post =>
    have hne : q ≠ h.nodelist 0 := by
      rintro rfl
      exact FreeList.first_not_behind hl (by simp)
    rw [blink_setBlink_apart (hl.apart_of_ne (by simp) h0 hne),
      blink_setFlink (hl.ne_and_apart (by simp) h0)]
    exact hl.first

theorem FreeList.unlink (hz : h.size x ≠ 0) : FreeList (unlinkNode h x) (pre ++ p :: post) := by
  have hr := unlinkNode_relinkedOn hl
  have hsub : (pre ++ p :: post).Sublist (pre ++ p :: x :: post) :=
    (((List.Sublist.refl post).cons x).cons_cons p).append_left pre
  have hsize : ∀ a ∈ pre ++ p :: x :: post, (unlinkNode h x).size a = h.size a := fun a ha =>
    hl.size_relinked hr ha
  refine
    { linked := unlinkNode_linked hl
      first := by
        rw [hr.frame.nodelist_eq]
        exact unlinkNode_first hl
      apart := hl.apart.sublist hsub
      bound := fun a ha => hl.bound a (hsub.subset ha)
      heads := fun i hi => ?_
      zero := fun i hi => ?_
      isHead := fun a ha h0 => ?_
      sorted := (hl.sorted.sublist hsub).imp_of_mem fun {a b} ha hb hab =>
        before_congr hr.frame.nodelist (hsize a (hsub.subset ha)) (hsize b (hsub.subset hb)) hab }
  · rw [hr.frame.nodelist_eq]
    have hmem := hl.heads i hi
    -- a head is not the chunk that is taken out
    have hne : h.nodelist i ≠ x := fun heq => hz (heq ▸ hl.zero i hi)
    simp only [mem_append, mem_cons] at hmem ⊢
    tauto
  · rw [hr.frame.nodelist_eq, hsize _ (hl.heads i hi)]
    exact hl.zero i hi
  · simp only [hr.frame.nodelist_eq]
    exact hl.isHead a (hsub.subset ha) ((hsize a (hsub.subset ha)).symm.trans h0)

end

theorem unlinkNode_spec (hs : FreeSet h S) (hx : x ∈ S) :
    FreeSet (unlinkNode h x) (S \ {x}) ∧
      RelinkedOn ({a | ∃ i < mmNnodes, a = h.nodelist i} ∪ S) h (unlinkNode h x) := by
  obtain ⟨L, hl, hne, hmem⟩ := hs
  have hxL : x ∈ L := (hmem x).mpr (.inr hx)
  obtain ⟨pre, p, post, rfl⟩ := hl.exists_pred hxL (hne x hx)
  have hset : {a | a ∈ pre ++ p :: x :: post} = {a | ∃ i < mmNnodes, a = h.nodelist i} ∪ S :=
    Set.ext hmem
  have hr := unlinkNode_relinkedOn hl
  have hnodup : ∀ a, a ∈ pre ++ p :: post ↔ a ∈ pre ++ p :: x :: post ∧ a ≠ x := by
    intro a
    have hxa : ∀ c ∈ (pre ++ [p]) ++ post, Apart x c :=
      FreeList.apart_mid (h := h) (by simpa using hl)
    constructor
    · intro ha
      refine ⟨by simp only [mem_append, mem_cons] at ha ⊢; tauto, ?_⟩
      rintro rfl
      have := hxa a (by simpa using ha)
      simp only [Apart] at this
      omega
    · rintro ⟨ha, hax⟩
      simp only [mem_append, mem_cons] at ha ⊢
      tauto
  have hhead : ∀ i < mmNnodes, h.nodelist i ≠ x := fun i hi heq =>
    hne x hx (heq ▸ hl.zero i hi)
  refine ⟨⟨_, hl.unlink (hne x hx), fun a ha => ?_, fun a => ?_⟩, hset ▸ hr⟩
  · rw [hl.size_relinked hr ((hmem a).mpr (.inr ha.1))]
    exact hne a ha.1
  · rw [hnodup, hmem]
    simp only [hr.frame.nodelist_eq, Set.mem_sdiff, Set.mem_singleton_iff]
    constructor
    · rintro ⟨ha | ha, hax⟩
      · exact .inl ha
      · exact .inr ⟨ha, hax⟩
    · rintro (⟨i, hi, rfl⟩ | ⟨ha, hax⟩)
      · exact ⟨.inl ⟨i, hi, rfl⟩, hhead i hi⟩
      · exact ⟨.inr ha, hax⟩

end Unlink

/-! ## Putting a chunk in -/

section Insert

variable {L pre post : List Nat} {p x : Nat}

/-- The loop of `mm_addfreechunk` stops between two nodes of the list that enclose the chunk.
Inside the loop `prev` is in the size class of the chunk and not larger than it. -/
theorem insertionPoint_spec (hl : FreeList h L) (hx : h.size x ≠ 0) :
    ∀ (fuel : Nat) (pre : List Nat) (p : Nat) (post : List Nat), L = pre ++ p :: post →
      post.length ≤ fuel → slot h p = slot h x → h.size p ≤ h.size x →
      ∃ pre' p' post', L = pre' ++ p' :: post' ∧
        insertionPoint h (h.size x) fuel p (h.flink p) = (p', post'.head?.getD 0) ∧
        Before h p' x ∧ ∀ q ∈ post'.head?, Before h x q := by
  intro fuel
  induction fuel with
  | zero =>
    intro pre p post hL hlen hslot hle
    obtain rfl : post = [] := length_eq_zero_iff.mp (by omega)
    have hnext := Linked.next_eq (hL ▸ hl.linked)
    exact ⟨pre, p, [], hL, by rw [insertionPoint, hnext], .inr ⟨hslot, hle⟩, by simp⟩
  | succ fuel ih =>
    intro pre p post hL hlen hslot hle
    have hnext : h.flink p = post.head?.getD 0 := Linked.next_eq (hL ▸ hl.linked)
    cases post with
    | nil =>
      refine ⟨pre, p, [], hL, ?_, .inr ⟨hslot, hle⟩, by simp⟩
      rw [insertionPoint, hnext, if_neg (by simp)]
    | cons q post =>
      have hqL : q ∈ L := by simp [hL]
      have hq0 : q ≠ 0 := (hl.bound q hqL).1.ne'
      have hpq : Before h p q := by
        have hs := hL ▸ hl.sorted
        exact (pairwise_cons.mp (pairwise_append.mp hs).2.1).1 q (by simp)
      rw [insertionPoint, hnext]
      have hxslot := slot_of_ne hx
      by_cases hgo : h.size q ≠ 0 ∧ h.size q < h.size x
      · -- the next node is a smaller chunk of the same class
        rw [if_pos ⟨hq0, hgo⟩]
        refine ih (pre ++ [p]) q post (by simp [hL]) (by simp at hlen; omega) ?_ hgo.2.le
        have hmono := mmSize2ndx_mono hgo.2.le
        have hqslot := slot_of_ne hgo.1
        simp only [Before] at hpq
        omega
      · rw [if_neg (fun hc => hgo hc.2)]
        refine ⟨pre, p, q :: post, hL, by simp, .inr ⟨hslot, hle⟩, ?_⟩
        intro r hr
        obtain rfl : q = r := by simpa using hr
        by_cases hz : h.size q = 0
        · -- the next node is the head of a later class
          obtain ⟨j, hj, rfl⟩ := hl.isHead q hqL hz
          rcases hpq with hlt | ⟨heq, hsz⟩
          · exact .inl (hslot ▸ hlt)
          · exfalso
            obtain ⟨i, hi, rfl⟩ := hl.isHead p (by simp [hL]) (by omega)
            rw [slot_nodelist (by omega), slot_nodelist hz] at heq
            have := hl.nodup
            rw [hL, heq] at this
            simp [nodup_append] at this
        · have hge : h.size x ≤ h.size q := by
            by_contra hc
            exact hgo ⟨hz, by omega⟩
          have hmono := mmSize2ndx_mono hge
          have hqslot := slot_of_ne hz
          simp only [Before]
          omega

section

variable (hl : FreeList h (pre ++ p :: post)) (hx : ∀ a ∈ pre ++ p :: post, Apart x a)
include hl hx

theorem linkBetween_linked (hxlt : x < 2 ^ 32) :
    Linked (linkBetween h x p (post.head?.getD 0)).flink
    (linkBetween h x p (post.head?.getD 0)).blink
      0 (pre ++ p :: x :: post) := by
  have hp : ∀ a ∈ pre ++ post, Apart p a := hl.apart_mid
  have hpx : Apart p x := (hx p (by simp)).symm
  have hlt : ∀ a ∈ pre ++ p :: post, a < 2 ^ 32 := fun a ha => by
    have := (hl.bound a ha).2
    omega
  have hpb : ∀ b ∈ pre ++ p :: post.tail, p = b ∨ Apart p b := fun b hb => by
    refine hl.ne_and_apart (by simp) ?_
    have := mem_of_mem_tail (a := b) (l := post)
    simp only [mem_append, mem_cons] at hb ⊢
    tauto
  cases post with
  | nil =>
    have heq : linkBetween h x p (([] : List Nat).head?.getD 0)
        = ((h.setFlink p x).setBlink x p).setFlink x 0 := rfl
    rw [heq]
    refine hl.linked.insert ?_ ?_ ?_ (by simp) (fun a ha => ?_) (fun b hb => ?_)
    · rw [flink_setFlink_apart hpx.symm, flink_setBlink (.inr hpx.symm)]
      exact flink_setFlink hxlt
    · rw [blink_setFlink (.inl rfl)]
      exact blink_setBlink (hlt p (by simp))
    · exact flink_setFlink (by decide)
    · have hxa := hx a (by simp only [append_nil] at ha; simp [ha])
      rw [flink_setFlink_apart hxa, flink_setBlink (.inr hxa)]
      exact flink_setFlink_apart (hp a ha)
    · have hxb := hx b (by simpa using hb)
      rw [blink_setFlink (.inr hxb), blink_setBlink_apart hxb]
      exact blink_setFlink (hpb b hb)
  | cons q post =>
    have hq : ∀ a ∈ (pre ++ [p]) ++ post, Apart q a :=
      FreeList.apart_mid (h := h) (by simpa using hl)
    have hxq : Apart x q := hx q (by simp)
    have hq0 : q ≠ 0 := (hl.bound q (by simp)).1.ne'
    have heq : linkBetween h x p ((q :: post).head?.getD 0)
        = (((h.setFlink p x).setBlink x p).setFlink x q).setBlink q x := if_pos hq0
    rw [heq]
    refine hl.linked.insert ?_ ?_ ?_ (fun r hr => ?_) (fun a ha => ?_) (fun b hb => ?_)
    · rw [flink_setBlink (.inr (hq p (by simp))), flink_setFlink_apart hpx.symm,
        flink_setBlink (.inr hpx.symm)]
      exact flink_setFlink hxlt
    · rw [blink_setBlink_apart hxq.symm, blink_setFlink (.inl rfl)]
      exact blink_setBlink (hlt p (by simp))
    · rw [flink_setBlink (.inr hxq.symm)]
      exact flink_setFlink (hlt q (by simp))
    · obtain rfl : q = r := by simpa using hr
      exact blink_setBlink hxlt
    · have haL : a ∈ pre ++ p :: q :: post := by
        simp only [mem_append, mem_cons] at ha ⊢
        tauto
      rw [flink_setBlink (hl.ne_and_apart (by simp) haL),
        flink_setFlink_apart (hx a haL), flink_setBlink (.inr (hx a haL))]
      exact flink_setFlink_apart (hp a ha)
    · have hqb : Apart q b := hq b (by simpa using hb)
      have hxb : Apart x b := hx b (by
        simp only [mem_append, mem_cons, tail_cons] at hb ⊢
        tauto)
      rw [blink_setBlink_apart hqb, blink_setFlink (.inr hxb),
        blink_setBlink_apart hxb]
      exact blink_setFlink (hpb b hb)

theorem linkBetween_first : (linkBetween h x p (post.head?.getD 0)).blink (h.nodelist 0) = 0 := by
  have h0 := hl.heads 0 (by decide)
  have hstep : (((h.setFlink p x).setBlink x p).setFlink x (post.head?.getD 0)).blink (h.nodelist 0)
      = 0 := by
    rw [blink_setFlink (.inr (hx _ h0)), blink_setBlink_apart (hx _ h0),
      blink_setFlink (hl.ne_and_apart (by simp) h0)]
    exact hl.first
  cases post with
  | nil => exact hstep
  | cons q post =>
    have hne : q ≠ h.nodelist 0 := by
      rintro rfl
      exact FreeList.first_not_behind hl (by simp)
    have hq0 : q ≠ 0 := (hl.bound q (by simp)).1.ne'
    have heq : linkBetween h x p ((q :: post).head?.getD 0)
        = (((h.setFlink p x).setBlink x p).setFlink x q).setBlink q x := if_pos hq0
    rw [heq, blink_setBlink_apart (hl.apart_of_ne (by simp) h0 hne)]
    exact hstep

end

theorem linkBetween_relinkedOn :
    RelinkedOn {a | a = x ∨ a ∈ pre ++ p :: post} h (linkBetween h x p (post.head?.getD 0)) := by
  have hstep : RelinkedOn {a | a = x ∨ a ∈ pre ++ p :: post} h
      (((h.setFlink p x).setBlink x p).setFlink x (post.head?.getD 0)) :=
    ((RelinkedOn.setFlink (by simp)).trans (.setBlink (by simp))).trans (.setFlink (by simp))
  cases post with
  | nil => exact hstep
  | cons q post =>
    unfold linkBetween
    split
    · exact hstep.trans (.setBlink (by simp))
    · exact hstep

theorem FreeList.size_relinked_insert (hl : FreeList h L) (hx : ∀ a ∈ L, Apart x a)
    (hr : RelinkedOn {a | a = x ∨ a ∈ L} h h') (ha : a = x ∨ a ∈ L) :
    h'.size a = h.size a := by
  refine hr.word_eq fun c hc => ?_
  have hac : a = c ∨ Apart a c := by
    rcases ha with rfl | ha <;> rcases hc with rfl | hc
    · exact .inl rfl
    · exact .inr (hx c hc)
    · exact .inr (hx a ha).symm
    · exact hl.ne_and_apart ha hc
  simp only [Apart] at hac
  omega

theorem linkBetween_freeList (hl : FreeList h (pre ++ p :: post))
    (hx : ∀ a ∈ pre ++ p :: post, Apart x a) (hxlt : 0 < x ∧ x + 16 ≤ 2 ^ 32) (hz : h.size x ≠ 0)
    (hpx : Before h p x) (hxq : ∀ q ∈ post.head?, Before h x q) :
    FreeList (linkBetween h x p (post.head?.getD 0)) (pre ++ p :: x :: post) := by
  have hr : RelinkedOn {a | a = x ∨ a ∈ pre ++ p :: post} h
      (linkBetween h x p (post.head?.getD 0)) :=
    linkBetween_relinkedOn
  have hmem : ∀ a, a ∈ pre ++ p :: x :: post ↔ a = x ∨ a ∈ pre ++ p :: post := fun a => by
    simp only [mem_append, mem_cons]
    tauto
  have hsize : ∀ a ∈ pre ++ p :: x :: post,
      (linkBetween h x p (post.head?.getD 0)).size a = h.size a := fun a ha =>
    hl.size_relinked_insert hx hr ((hmem a).mp ha)
  have hin : ∀ a ∈ pre ++ p :: post, a ∈ pre ++ p :: x :: post := fun a ha => (hmem a).mpr (.inr ha)
  obtain ⟨hspre, hsmid, hscross⟩ := pairwise_append.mp hl.sorted
  obtain ⟨hsp, hspost⟩ := pairwise_cons.mp hsmid
  -- the chunk comes before everything behind it, by transitivity over the first such node
  have hxpost : ∀ q ∈ post, Before h x q := by
    intro q hq
    cases post with
    | nil => cases hq
    | cons r post =>
      rcases mem_cons.mp hq with rfl | hq
      · exact hxq q (by simp)
      · exact (hxq r (by simp)).trans ((pairwise_cons.mp hspost).1 q hq)
  have hsorted : (pre ++ p :: x :: post).Pairwise (Before h) := by
    refine pairwise_append.mpr ⟨hspre, ?_, ?_⟩
    · refine pairwise_cons.mpr ⟨?_, pairwise_cons.mpr ⟨hxpost, hspost⟩⟩
      exact forall_mem_cons.2 ⟨hpx, hsp⟩
    · intro a ha c hc
      have hap := hscross a ha p (by simp)
      rcases mem_cons.mp hc with rfl | hc
      · exact hap
      · rcases mem_cons.mp hc with rfl | hc
        · exact hap.trans hpx
        · exact hscross a ha c (by simp [hc])
  have hapart : (pre ++ p :: x :: post).Pairwise Apart := by
    rw [append_cons]
    refine (pairwise_middle fun hab => hab.symm).mpr ?_
    rw [← append_cons]
    exact pairwise_cons.mpr ⟨hx, hl.apart⟩
  refine
    { linked := linkBetween_linked hl hx (by omega)
      first := by
        rw [hr.frame.nodelist_eq]
        exact linkBetween_first hl hx
      apart := hapart
      bound := fun a ha => ?_
      heads := fun i hi => ?_
      zero := fun i hi => ?_
      isHead := fun a ha h0 => ?_
      sorted := hsorted.imp_of_mem fun {a b} ha hb hab =>
        before_congr hr.frame.nodelist (hsize a ha) (hsize b hb) hab }
  · rcases (hmem a).mp ha with rfl | ha
    · exact hxlt
    · exact hl.bound a ha
  · rw [hr.frame.nodelist_eq]
    exact hin _ (hl.heads i hi)
  · rw [hr.frame.nodelist_eq, hsize _ (hin _ (hl.heads i hi))]
    exact hl.zero i hi
  · simp only [hr.frame.nodelist_eq]
    rw [hsize a ha] at h0
    rcases (hmem a).mp ha with rfl | ha
    · exact absurd h0 hz
    · exact hl.isHead a ha h0

theorem mmAddfreechunk_spec (hs : FreeSet h S) (hz : h.size x ≠ 0)
    (hxlt : 0 < x ∧ x + 16 ≤ 2 ^ 32) (hxS : ∀ a ∈ S, Apart x a)
    (hxh : ∀ i < mmNnodes, Apart x (h.nodelist i)) :
    FreeSet (mmAddfreechunk h x) (insert x S) ∧
      RelinkedOn ({a | ∃ i < mmNnodes, a = h.nodelist i} ∪ insert x S) h (mmAddfreechunk h x) := by
  obtain ⟨L, hl, hne, hmem⟩ := hs
  have hndx := mmSize2ndx_lt (h.size x)
  obtain ⟨pre, post, hL⟩ := append_of_mem (hl.heads _ hndx)
  have hslot : slot h (h.nodelist (mmSize2ndx (h.size x))) = slot h x := by
    rw [slot_nodelist (hl.zero _ hndx), slot_of_ne hz]
  have hlen := hl.length_le
  obtain ⟨pre', p, post', hL', hpt, hpx, hxq⟩ := insertionPoint_spec hl hz maxNodes pre _ post hL
    (by rw [hL] at hlen; simp at hlen; omega) hslot (by rw [hl.zero _ hndx]; omega)
  have heq : mmAddfreechunk h x = linkBetween h x p (post'.head?.getD 0) := by
    simp only [mmAddfreechunk, hpt]
  subst hL'
  have hxL : ∀ a ∈ pre' ++ p :: post', Apart x a := by
    intro a ha
    rcases (hmem a).mp ha with ⟨i, hi, rfl⟩ | ha
    · exact hxh i hi
    · exact hxS a ha
  have hr : RelinkedOn {a | a = x ∨ a ∈ pre' ++ p :: post'} h (mmAddfreechunk h x) :=
    heq ▸ linkBetween_relinkedOn
  have hl' := heq ▸ linkBetween_freeList hl hxL hxlt hz hpx hxq
  have hset : {a | a = x ∨ a ∈ pre' ++ p :: post'}
      = {a | ∃ i < mmNnodes, a = h.nodelist i} ∪ insert x S := by
    ext a
    simp only [Set.mem_ofPred_eq, Set.mem_union, Set.mem_insert_iff, hmem]
    exact or_left_comm
  refine ⟨⟨_, hl', fun a ha => ?_, fun a => ?_⟩, hset ▸ hr⟩
  · rw [hl.size_relinked_insert hxL hr (ha.imp id fun ha => (hmem a).mpr (.inr ha))]
    rcases ha with rfl | ha
    · exact hz
    · exact hne a ha
  · have hperm : a ∈ pre' ++ p :: x :: post' ↔ a = x ∨ a ∈ pre' ++ p :: post' := by
      simp only [mem_append, mem_cons]
      tauto
    simp only [hperm, hmem, hr.frame.nodelist_eq, Set.mem_insert_iff]
    exact or_left_comm

end Insert

/-! ## Searching -/

/-- The search loop of `mm_malloc` finds the first node behind `p` that is large enough. -/
theorem findChunk_eq (hl : FreeList h L) (n : Nat) :
    ∀ (fuel : Nat) (pre : List Nat) (p : Nat) (post : List Nat), L = pre ++ p :: post →
      post.length ≤ fuel →
        findChunk h n fuel (h.flink p) = (post.find? fun a => n ≤ h.size a).getD 0 := by
  intro fuel
  induction fuel with
  | zero =>
    intro pre p post hL hlen
    obtain rfl : post = [] := length_eq_zero_iff.mp (by omega)
    exact Linked.next_eq (hL ▸ hl.linked)
  | succ fuel ih =>
    intro pre p post hL hlen
    have hnext : h.flink p = post.head?.getD 0 := Linked.next_eq (hL ▸ hl.linked)
    rw [hnext]
    cases post with
    | nil => exact if_neg (by simp)
    | cons q post =>
      have hq0 := (hl.bound q (by simp [hL])).1
      by_cases hgo : q ≠ 0 ∧ h.size q < n
      · rw [find?_cons_of_neg (by simpa using hgo.2), ← ih (pre ++ [p]) q post (by simp [hL])
          (by simp at hlen; omega)]
        exact if_pos hgo
      · rw [find?_cons_of_pos (by rw [decide_eq_true_eq]; omega)]
        exact if_neg hgo

/-- **Best fit.** From the head of the size class of `n` on, the search finds a smallest free chunk
of at least `n` bytes, or there is none. -/
theorem findChunk_best (hs : FreeSet h S) {n x : Nat} (hn : 0 < n)
    (hx : findChunk h n maxNodes (h.flink (h.nodelist (mmSize2ndx n))) = x) :
    (x = 0 ∧ ∀ a ∈ S, h.size a < n) ∨
      (x ∈ S ∧ n ≤ h.size x ∧ ∀ a ∈ S, n ≤ h.size a → h.size x ≤ h.size a) := by
  obtain ⟨L, hl, -, hmem⟩ := hs
  have hndx := mmSize2ndx_lt n
  have hz := hl.zero _ hndx
  obtain ⟨pre, post, hL⟩ := append_of_mem (hl.heads _ hndx)
  have hlen := hl.length_le
  have hsorted := hl.sorted
  rw [hL] at hlen hsorted
  obtain ⟨-, hbehind, hfront⟩ := pairwise_append.1 hsorted
  rw [findChunk_eq hl n maxNodes pre _ post hL (by simp at hlen; omega)] at hx
  -- a chunk in front of the head belongs to a smaller size class
  have hpost : ∀ a ∈ S, n ≤ h.size a → a ∈ post := by
    intro a ha hle
    have haL := (hmem a).2 (.inr ha)
    rw [hL, mem_append, mem_cons] at haL
    rcases haL with hpre | rfl | hpost
    · have hbefore := hfront a hpre _ mem_cons_self
      have hclass := mmSize2ndx_mono hle
      rw [Before, slot_nodelist hz, slot_of_ne (by omega)] at hbefore
      omega
    · omega
    · exact hpost
  cases hfind : post.find? fun a => n ≤ h.size a with
  | none =>
    refine .inl ⟨by rw [← hx, hfind]; rfl, fun a ha => ?_⟩
    by_contra hge
    have hno := find?_eq_none.1 hfind a (hpost a ha (by omega))
    exact hno (decide_eq_true (by omega))
  | some y =>
    obtain rfl : y = x := by rw [← hx, hfind]; rfl
    obtain ⟨hle, front, rest, rfl, hsmall⟩ := find?_eq_some_iff_append.1 hfind
    rw [decide_eq_true_eq] at hle
    refine .inr ⟨?_, hle, fun a ha hge => ?_⟩
    · rcases (hmem y).1 (by simp [hL]) with ⟨i, hi, rfl⟩ | hy
      · have := hl.zero i hi
        omega
      · exact hy
    · have haP := hpost a ha hge
      rw [mem_append, mem_cons] at haP
      rcases haP with hfr | rfl | hre
      · have := hsmall a hfr
        simp at this
        omega
      · exact le_rfl
      · obtain ⟨-, hy, -⟩ := pairwise_append.1 (pairwise_cons.1 hbehind).2
        have hbefore := (pairwise_cons.1 hy).1 a hre
        rw [Before, slot_of_ne (by omega), slot_of_ne (by omega)] at hbefore
        rcases hbefore with hlt | ⟨-, hsize⟩
        · by_contra hgt
          have := mmSize2ndx_mono (show h.size a ≤ h.size y by omega)
          omega
        · exact hsize

end BaseNx.Mm
