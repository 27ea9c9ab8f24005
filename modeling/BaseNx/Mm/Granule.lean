import BaseNx.Lib.BitMask
import BaseNx.Lib.MachineInt
import BaseNx.Lib.Reach

/-!
# The granule allocator

`mm/mm_gran`: a heap of granules with one bit each in the granule allocation table (GAT).
`gran_alloc` slides a window of 32 bits over two words of the table and keeps the address of the
window in step with it. The address is wrong after a word of the table whose last granule and the
granule behind it are both allocated: the search leaves such a word early or beyond bit 32, and goes
on with the next word but not with its address. While a call does not meet such a pair of granules,
no granule is handed out twice (`granules_exclusive`); after it, `gran_alloc` returns granules that
are in use (`alloc_overlaps_live`). `gran_alloc` finds a run whenever there is one, but reads a word
behind the table when it comes to the last one (`alloc_complete_in_table`,
`alloc_reads_past_table`). `gran_reserve` rounds the region to multiples of the granule size in both
directions, wherever the heap begins (`reserve_marks_covered`).
-/

namespace BaseNx.Granule

open Lib

/-! ## The heap -/

abbrev Word := BitVec 32

/-- `struct gran_s` -/
structure Gran where
  log2gran : Nat
  ngranules : Nat
  heapstart : Nat
  gat : Nat → Word

/-- `SIZEOF_GAT` -/
def sizeofGat (ngranules : Nat) : Nat := (ngranules + 31) >>> 5

/-- The first address of the heap that is aligned. -/
def alignedStart (heapstart log2align : Nat) : Nat :=
  u32 (heapstart + (2 ^ log2align - 1)) / 2 ^ log2align * 2 ^ log2align

/-- `gran_initialize`, when `kmm_zalloc` succeeds; the count of granules has 16 bits. -/
def granInitialize (heapstart heapsize log2gran log2align : Nat) : Gran :=
  let alignedstart := alignedStart heapstart log2align
  let alignedsize := sub32 (u32 (heapstart + heapsize)) alignedstart / 2 ^ log2gran * 2 ^ log2gran
  { log2gran := log2gran
    ngranules := u16 (alignedsize >>> log2gran)
    heapstart := alignedstart
    gat := fun _ => 0#32 }

/-- The number of granules that a size takes. -/
def granCount (log2gran size : Nat) : Nat := u32 (size + (2 ^ log2gran - 1)) >>> log2gran

variable (g : Gran)

def Gran.bit (n : Nat) : Bool := (g.gat (n / 32)).getLsbD (n % 32)

def Gran.address (g : Gran) (n : Nat) : Nat := g.heapstart + n <<< g.log2gran

/-- The number of the granule at an address, a `uintptr_t`. -/
def Gran.granno (address : Nat) : Nat := sub32 address g.heapstart >>> g.log2gran

/-! ## Marking and freeing -/

def Gran.setWord (i : Nat) (x : Word) : Gran :=
  { g with gat := Function.update g.gat i x }

/-- The masks of a run of at most two words, where `op` writes them. -/
def Gran.write (op : Word → Word → Word) (granno ngranules : Nat) : Gran :=
  let gatidx := granno >>> 5
  let gatbit := granno &&& 31
  let avail := 32 - gatbit
  if ngranules > avail then
    let g := g.setWord gatidx (op (g.gat gatidx) (highOnes 32 gatbit))
    g.setWord (gatidx + 1) (op (g.gat (gatidx + 1)) (lowOnes 32 (ngranules - avail)))
  else g.setWord gatidx (op (g.gat gatidx) (lowOnes 32 ngranules <<< gatbit))

/-- `gran_mark_allocated`. It is `none` where a mask is shifted by 32 positions or more, which has
no defined result: for no granules, and for more than 32 in the second word. -/
def granMarkAllocated (alloc ngranules : Nat) : Option Gran :=
  let granno := g.granno alloc
  if 0 < ngranules ∧ (granno &&& 31) + ngranules ≤ 64 then some (g.write (· ||| ·) granno ngranules)
  else none

/-- `gran_free` of at most 32 granules -/
def granFree (memory size : Nat) : Gran :=
  g.write (fun x mask => x &&& ~~~ mask) (g.granno memory) (granCount g.log2gran size)

/-- `gran_reserve` -/
def granReserve (start size : Nat) : Option Gran :=
  if 0 < size then
    let mask := 2 ^ g.log2gran - 1
    let last := u32 (start + size - 1)
    let start := start / 2 ^ g.log2gran * 2 ^ g.log2gran
    let last := u32 (last + mask) / 2 ^ g.log2gran * 2 ^ g.log2gran
    granMarkAllocated g start (u32 (sub32 last start >>> g.log2gran + 1))
  else some g

/-! ## Allocating -/

/-- How the search goes on at the bits of the window: `none` if the window begins with enough free
granules. -/
def shiftOf (mask curr : Word) : Option Nat :=
  if curr &&& 0x0000ffff#32 = 0x0000ffff#32 then some 16
  else if curr &&& 0x000000ff#32 = 0x000000ff#32 then some 8
  else if curr &&& 0x0000000f#32 = 0x0000000f#32 then some 4
  else if curr &&& 0x00000003#32 = 0x00000003#32 then some 2
  else if curr &&& mask = 0#32 then none
  else some 1

/-- The end of the search in one word, with the address. -/
inductive Scan
  | found (alloc : Nat)
  | done (alloc : Nat)
  deriving DecidableEq

/-- The inner loop of `gran_alloc`. Every turn moves the window, so 32 turns are enough. -/
def scanBits (g : Gran) (ngranules granidx : Nat) : Nat → Nat → Nat → Word → Word → Scan
  | 0, _, alloc, _, _ => .done alloc
  | turns + 1, bitidx, alloc, curr, next =>
    if bitidx < 32 ∧ granidx + bitidx + ngranules ≤ g.ngranules then
      if curr = 0xffffffff#32 then .done alloc
      else
        match shiftOf (lowOnes 32 ngranules) curr with
        | none => .found alloc
        | some shift =>
          scanBits g ngranules granidx turns (bitidx + shift) (alloc + shift <<< g.log2gran)
            (funnel curr next shift) (next >>> shift)
    else .done alloc

/-- `gat[i]`, where the memory behind the table holds `past` -/
def Gran.word (past : Word) (i : Nat) : Word :=
  if i < sizeofGat g.ngranules then g.gat i else past

/-- The outer loop of `gran_alloc`, with so many words of the table left. -/
def scanWords (g : Gran) (past : Word) (ngranules : Nat) : Nat → Nat → Nat → Option Nat
  | 0, _, _ => none
  | left + 1, gatidx, alloc =>
    if g.gat gatidx = 0xffffffff#32 then
      scanWords g past ngranules left (gatidx + 1) (alloc + 32 <<< g.log2gran)
    else
      match scanBits g ngranules (gatidx * 32) 32 0 alloc (g.gat gatidx)
          (g.word past (gatidx + 1)) with
      | .found alloc => some alloc
      | .done alloc => scanWords g past ngranules left (gatidx + 1) alloc

/-- `gran_alloc` of at most 32 granules; `none` where a shift has no defined result -/
def granAlloc (past : Word) (g : Gran) (size : Nat) : Option (Option Nat × Gran) :=
  if 0 < size then
    let ngranules := granCount g.log2gran size
    match scanWords g past ngranules (sizeofGat g.ngranules) 0 g.heapstart with
    | some alloc => (granMarkAllocated g alloc ngranules).map (some alloc, ·)
    | none => some (none, g)
  else some (none, g)

/-! ## The bits after a write -/

variable {size k n : Nat}

section Bits

variable {g : Gran} {n k : Nat}

variable (g : Gran) (r : Nat)

theorem bit_setWord (i : Nat) (x : Word) (n : Nat) :
    (g.setWord i x).bit n = if n / 32 = i then x.getLsbD (n % 32) else g.bit n := by
  by_cases h : n / 32 = i
  · simp [Gran.bit, Gran.setWord, h]
  · simp [Gran.bit, Gran.setWord, h]

theorem granno_address (h : r <<< g.log2gran < 2 ^ 32) : g.granno (g.address r) = r := by
  have hsub : sub32 (g.address r) g.heapstart = r <<< g.log2gran := by
    rw [Gran.address]
    generalize r <<< g.log2gran = x at h
    simp only [sub32, u32]
    omega
  rw [Gran.granno, hsub, Nat.shiftLeft_shiftRight]

theorem shiftRight_five (n : Nat) : n >>> 5 = n / 32 := Nat.shiftRight_eq_div_pow n 5

theorem and_31 (n : Nat) : n &&& 31 = n % 32 := Nat.and_two_pow_sub_one_eq_mod n 5

/-- The granules of a run. -/
def InRun (r k n : Nat) : Prop := r ≤ n ∧ n < r + k

instance (r k n : Nat) : Decidable (InRun r k n) := inferInstanceAs (Decidable (_ ∧ _))

/-- The mask of the first word of a run that goes on in the next one. -/
theorem getLsbD_first {r : Nat} (hk : 32 - r % 32 < k) (hn : n / 32 = r / 32) :
    (highOnes 32 (r % 32)).getLsbD (n % 32) = decide (InRun r k n) := by
  rw [getLsbD_highOnes (Nat.mod_lt _ (by omega)), decide_eq_decide, InRun]
  omega

theorem getLsbD_second {r : Nat} (hk64 : r % 32 + k ≤ 64) (hk : 32 - r % 32 < k)
    (hn : n / 32 = r / 32 + 1) :
    (lowOnes 32 (k - (32 - r % 32))).getLsbD (n % 32) = decide (InRun r k n) := by
  rw [getLsbD_lowOnes (by omega), decide_eq_decide, InRun]
  omega

theorem getLsbD_only {r : Nat} (hk32 : k ≤ 32) (hn : n / 32 = r / 32) :
    (lowOnes 32 k <<< (r % 32)).getLsbD (n % 32) = decide (InRun r k n) := by
  have hmod : n % 32 < 32 := Nat.mod_lt _ (by omega)
  rw [BitVec.getLsbD_shiftLeft, getLsbD_lowOnes hk32]
  simp only [hmod, decide_true, Bool.true_and]
  by_cases hlt : n % 32 < r % 32
  · have hout : ¬ InRun r k n := by
      unfold InRun
      omega
    simp [hlt, hout]
  · have hiff : n % 32 - r % 32 < k ↔ InRun r k n := by
      unfold InRun
      omega
    simp [hlt, hiff]

theorem write_shape (op : Word → Word → Word) (k : Nat) :
    ∃ gat, g.write op r k = { g with gat := gat } := by
  unfold Gran.write
  dsimp only
  split_ifs
  · exact ⟨_, rfl⟩
  · exact ⟨_, rfl⟩

/-- A run of bits in at most two words is written with a mask for each word, and the other bits
stay. -/
theorem bit_write (op : Word → Word → Word) (f : Bool → Bool → Bool)
    (hop : ∀ x m j, j < 32 → (op x m).getLsbD j = f (x.getLsbD j) (m.getLsbD j))
    (hf : ∀ b, f b false = b) (hk64 : r % 32 + k ≤ 64) (n : Nat) :
    (g.write op r k).bit n = f (g.bit n) (decide (InRun r k n)) := by
  have hmod : n % 32 < 32 := Nat.mod_lt _ (by omega)
  simp only [Gran.write, shiftRight_five, and_31]
  split_ifs with hcross
  · rw [bit_setWord, bit_setWord]
    split_ifs with h1 h2
    · have hword : (g.setWord (r / 32) (op (g.gat (r / 32)) (highOnes 32 (r % 32)))).gat
        (r / 32 + 1)
          = g.gat (n / 32) := by
        rw [h1]
        exact Function.update_of_ne (by omega) _ _
      rw [hword, hop _ _ _ hmod, getLsbD_second hk64 hcross h1]
      rfl
    · rw [hop _ _ _ hmod, getLsbD_first hcross h2, ← h2]
      rfl
    · have hout : ¬ InRun r k n := by
        unfold InRun
        omega
      simp [hout, hf]
  · rw [bit_setWord]
    split_ifs with h1
    · rw [hop _ _ _ hmod, getLsbD_only (by omega) h1, ← h1]
      rfl
    · have hout : ¬ InRun r k n := by
        unfold InRun
        omega
      simp [hout, hf]

/-- Marking is defined for the runs in two words, and sets exactly their bits. -/
theorem granMarkAllocated_eq (alloc : Nat) (hk : 0 < k) :
    (g.granno alloc % 32 + k ≤ 64 → ∃ gat, granMarkAllocated g alloc k =
      some { g with gat := gat } ∧
      ∀ n, ({ g with gat := gat } : Gran).bit n =
        (g.bit n || decide (InRun (g.granno alloc) k n))) ∧
      (¬ g.granno alloc % 32 + k ≤ 64 → granMarkAllocated g alloc k = none) := by
  simp only [granMarkAllocated, and_31, hk, true_and]
  refine ⟨fun h => ?_, fun h => if_neg h⟩
  rw [if_pos h]
  have hbit := bit_write g (g.granno alloc) (· ||| ·) _ (fun _ _ _ _ => BitVec.getLsbD_or)
    Bool.or_false h
  obtain ⟨gat, hgat⟩ := write_shape g (g.granno alloc) (· ||| ·) k
  rw [hgat] at hbit ⊢
  exact ⟨gat, rfl, hbit⟩

/-- Freeing clears exactly the bits of the run. -/
theorem granFree_eq (memory : Nat) (hk32 : granCount g.log2gran size ≤ 32) :
    ∃ gat, granFree g memory size = { g with gat := gat } ∧
      ∀ n, ({ g with gat := gat } : Gran).bit n =
        (g.bit n && !decide (InRun (g.granno memory) (granCount g.log2gran size) n)) := by
  have hbit := bit_write g (g.granno memory) (fun x m => x &&& ~~~ m) (fun a b => a && !b)
    (fun x m j hj => by simp [hj]) Bool.and_true
    (show g.granno memory % 32 + granCount g.log2gran size ≤ 64 by omega)
  obtain ⟨gat, hgat⟩ := write_shape g (g.granno memory) (fun x m => x &&& ~~~ m)
    (granCount g.log2gran size)
  rw [hgat] at hbit
  exact ⟨gat, hgat, hbit⟩

end Bits

/-! ## The search -/

section Search

variable {g : Gran} {past : Word} {k : Nat}

/-- The word is not full, and its last granule and the granule behind it are both allocated. -/
def Gran.PairAt (g : Gran) (i : Nat) : Prop :=
  32 * (i + 1) < g.ngranules ∧ g.gat i ≠ 0xffffffff#32 ∧ g.bit (32 * i + 31) = true ∧
    g.bit (32 * i + 32) = true

/-- From the granule `r` on, `k` granules of the heap are free. -/
def Gran.FreeRun (g : Gran) (k r : Nat) : Prop :=
  r + k ≤ g.ngranules ∧ ∀ j < k, g.bit (r + j) = false

/-- A search for `k` granules ends before it leaves a word with such a pair at its end. -/
def Gran.NoPair (g : Gran) (k : Nat) : Prop :=
  ∀ i < sizeofGat g.ngranules, g.PairAt i → ∃ r < 32 * (i + 1), g.FreeRun k r

instance (g : Gran) (k : Nat) : Decidable (g.NoPair k) :=
  inferInstanceAs (Decidable (∀ i < _, (_ ∧ _ ∧ _ ∧ _) → ∃ r < _, _ ∧ ∀ j < _, _))

/-- The bits that the window moves over are set, or the first ones are not all free. -/
theorem shiftOf_some {curr : Word} {shift : Nat} (hk : k ≤ 32)
    (h : shiftOf (lowOnes 32 k) curr = some shift) :
    (shift = 1 ∧ ∃ j < k, curr.getLsbD j = true) ∨
      (2 ≤ shift ∧ shift ≤ 16 ∧ ∀ j < shift, curr.getLsbD j = true) := by
  have ones : ∀ (c : Word) (s : Nat), (∀ j < s, c.getLsbD j = true) → curr &&& c = c →
      ∀ j < s, curr.getLsbD j = true := fun c s hc he j hj => getLsbD_of_and_eq he (hc j hj)
  unfold shiftOf at h
  split_ifs at h with h16 h8 h4 h2 hfree
  · cases h
    exact Or.inr ⟨by decide, by decide, ones _ 16 (by decide) h16⟩
  · cases h
    exact Or.inr ⟨by decide, by decide, ones _ 8 (by decide) h8⟩
  · cases h
    exact Or.inr ⟨by decide, by decide, ones _ 4 (by decide) h4⟩
  · cases h
    exact Or.inr ⟨by decide, by decide, ones _ 2 (by decide) h2⟩
  · cases h
    refine Or.inl ⟨rfl, ?_⟩
    by_contra hno
    refine hfree (BitVec.eq_of_getLsbD_eq fun j hj => ?_)
    rw [BitVec.getLsbD_and, getLsbD_lowOnes hk, BitVec.getLsbD_zero]
    by_cases hjk : j < k
    · simpa [hjk] using fun hset => hno ⟨j, hjk, hset⟩
    · simp [hjk]

theorem shiftOf_none {curr : Word} (hk : k ≤ 32) (h : shiftOf (lowOnes 32 k) curr = none) :
    ∀ j < k, curr.getLsbD j = false := by
  unfold shiftOf at h
  split_ifs at h with h16 h8 h4 h2 hfree
  intro j hj
  refine getLsbD_of_and_eq_zero hfree ?_
  rw [getLsbD_lowOnes hk, decide_eq_true hj]

/-- The bits of two neighbouring words. -/
def pairBit (lo hi : Word) (t : Nat) : Bool := if t < 32 then lo.getLsbD t else hi.getLsbD (t - 32)

/-- The last bit of the first word and the first bit of the second are set. -/
def EndPair (lo hi : Word) : Prop := pairBit lo hi 31 = true ∧ pairBit lo hi 32 = true

/-- The window over the words `lo` and `hi` at position `b`. -/
structure Window (lo hi : Word) (b : Nat) (curr next : Word) : Prop where
  curr : ∀ j < 32, curr.getLsbD j = pairBit lo hi (b + j)
  next : ∀ j < 32, next.getLsbD j = hi.getLsbD (b + j)

theorem Window.start (lo hi : Word) : Window lo hi 0 lo hi where
  curr := by
    intro j hj
    simp [pairBit, hj]
  next := by simp

theorem Window.shift {lo hi curr next : Word} {b s : Nat} (h : Window lo hi b curr next)
    (hb : b < 32) (hs : s ≤ 16) :
    Window lo hi (b + s) (funnel curr next s) (next >>> s) where
  curr := by
    intro j hj
    rw [getLsbD_funnel _ _ (by omega) hj]
    split_ifs with hlt
    · rw [h.curr _ (by omega), add_assoc]
    · rw [h.next _ (by omega), pairBit, if_neg (by omega)]
      congr 1
      omega
  next := by
    intro j hj
    rw [BitVec.getLsbD_ushiftRight]
    by_cases hlt : s + j < 32
    · rw [h.next _ hlt, add_assoc]
    · rw [BitVec.getLsbD_of_ge _ _ (by omega), BitVec.getLsbD_of_ge _ _ (by omega)]

/-- Where the search in the word `i` may leave the address: at the next word, unless the heap has
not enough granules from there on. -/
def Gran.InStep (g : Gran) (k i alloc : Nat) : Prop :=
  g.ngranules < 32 * i + k ∨ alloc = g.address (32 * i)

theorem address_add (g : Gran) (n shift : Nat) :
    g.address n + shift <<< g.log2gran = g.address (n + shift) := by
  simp only [Gran.address, Nat.shiftLeft_eq]
  ring

/-- The inner loop finds the free run at bit `e`, or there is none that begins in the word. The
address has moved along; it is that of the next word, unless the heap ends before, or the last
granule of the word and the granule behind it are allocated. -/
theorem scanBits_spec {i : Nat} {lo hi : Word} (hk : 0 < k) (hk32 : k ≤ 32) (turns b alloc : Nat)
    (hturns : 32 ≤ b + turns) (hb : 32 * (i + 1) < g.ngranules → ¬ EndPair lo hi → b ≤ 32)
    (curr next : Word) (hwin : b < 32 → Window lo hi b curr next) :
    ∃ e, b ≤ e ∧
      ((scanBits g k (i * 32) turns b alloc curr next = .found (alloc + (e - b) <<< g.log2gran) ∧
          e < 32 ∧ 32 * i + e + k ≤ g.ngranules ∧ ∀ j < k, pairBit lo hi (e + j) = false) ∨
        (scanBits g k (i * 32) turns b alloc curr next = .done (alloc + (e - b) <<< g.log2gran) ∧
          (∀ b', b ≤ b' → b' < 32 → 32 * i + b' + k ≤ g.ngranules →
            ∃ j < k, pairBit lo hi (b' + j) = true) ∧
          (32 * (i + 1) + k ≤ g.ngranules → (b = 0 → curr ≠ 0xffffffff#32) → ¬ EndPair lo hi →
            e = 32))) := by
  have hstay : alloc + (b - b) <<< g.log2gran = alloc := by
    rw [Nat.sub_self, Nat.zero_shiftLeft, add_zero]
  induction turns generalizing b alloc curr next with
  | zero =>
    refine ⟨b, le_rfl, .inr ⟨by rw [hstay]; rfl, fun b' hle hlt => ?_, fun hmore _ hpair => ?_⟩⟩
    · omega
    · exact le_antisymm (hb (by omega) hpair) (by omega)
  | succ turns ih =>
    unfold scanBits
    by_cases hcond : b < 32 ∧ i * 32 + b + k ≤ g.ngranules
    · have hw := hwin hcond.1
      -- set bits of the window over the end of the word
      have hends : ∀ m, 32 < b + m → m ≤ 32 → (∀ j < m, curr.getLsbD j = true) →
          EndPair lo hi := by
        intro m hm hm32 hones
        have hbit : ∀ t, b ≤ t → t < b + m → pairBit lo hi t = true := by
          intro t ht htm
          rw [show t = b + (t - b) by omega, ← hw.curr _ (by omega)]
          exact hones _ (by omega)
        exact ⟨hbit 31 (by omega) (by omega), hbit 32 (by omega) (by omega)⟩
      rw [if_pos hcond]
      by_cases hfull : curr = 0xffffffff#32
      · have hones : ∀ j < 32, curr.getLsbD j = true := by
          rw [hfull]
          decide
        rw [if_pos hfull]
        refine ⟨b, le_rfl, .inr ⟨by rw [hstay], fun b' hle hlt _ => ⟨0, hk, ?_⟩,
          fun hmore hb0 hpair => ?_⟩⟩
        · rw [add_zero, show b' = b + (b' - b) by omega, ← hw.curr _ (by omega)]
          exact hones _ (by omega)
        · have hpos : 0 < b := pos_of_ne_zero fun h0 => hb0 h0 hfull
          exact absurd (hends 32 (by omega) le_rfl hones) hpair
      · rw [if_neg hfull]
        cases hshift : shiftOf (lowOnes 32 k) curr with
        | none =>
          refine ⟨b, le_rfl, .inl ⟨by rw [hstay], hcond.1, by omega, fun j hj => ?_⟩⟩
          rw [← hw.curr j (by omega)]
          exact shiftOf_none hk32 hshift j hj
        | some shift =>
          have hsome := shiftOf_some hk32 hshift
          obtain ⟨e, he, hrec⟩ := ih (b + shift) (alloc + shift <<< g.log2gran) (by omega)
            (fun hmore hpair => by
              rcases hsome with ⟨rfl, -⟩ | ⟨h2, h16, hones⟩
              · omega
              · exact not_lt.mp fun hlt => hpair (hends shift hlt (by omega) hones))
            (funnel curr next shift) (next >>> shift) (fun _ => hw.shift hcond.1 (by omega))
            (by rw [Nat.sub_self, Nat.zero_shiftLeft, add_zero])
          have hmove : alloc + shift <<< g.log2gran + (e - (b + shift)) <<< g.log2gran
              = alloc + (e - b) <<< g.log2gran := by
            rw [add_assoc, Nat.shiftLeft_eq, Nat.shiftLeft_eq, Nat.shiftLeft_eq, ← add_mul]
            congr 2
            omega
          rw [hmove] at hrec
          refine ⟨e, by omega, hrec.imp_right fun ⟨heq, hnone, hlast⟩ => ⟨heq, ?_, ?_⟩⟩
          · intro b' hle hlt hfit
            by_cases hskip : b + shift ≤ b'
            · exact hnone b' hskip hlt hfit
            · rcases hsome with ⟨rfl, j, hj, hset⟩ | ⟨h2, h16, hones⟩
              · obtain rfl : b' = b := by omega
                exact ⟨j, hj, by rw [← hw.curr j (by omega)]; exact hset⟩
              · refine ⟨0, hk, ?_⟩
                rw [add_zero, show b' = b + (b' - b) by omega, ← hw.curr _ (by omega)]
                exact hones _ (by omega)
          · exact fun hmore _ hpair => hlast hmore (by omega) hpair
    · rw [if_neg hcond]
      refine ⟨b, le_rfl, .inr ⟨by rw [hstay], fun b' hle hlt hfit => ?_, fun hmore _ hpair => ?_⟩⟩
      · omega
      · exact le_antisymm (hb (by omega) hpair) (by omega)

/-- The inner loop in a word that is not full: it finds the first free run that begins there, or
there is none; then the address is that of the next word, unless a pair is in the way or the heap
ends. -/
theorem scanBits_word (past : Word) (hk : 0 < k) (hk32 : k ≤ 32) {i : Nat} (alloc : Nat)
    (hfull : g.gat i ≠ 0xffffffff#32) :
    ∃ e, (scanBits g k (i * 32) 32 0 alloc (g.gat i) (g.word past (i + 1)) =
          .found (alloc + e <<< g.log2gran) ∧ e < 32 ∧ g.FreeRun k (32 * i + e)) ∨
      (scanBits g k (i * 32) 32 0 alloc (g.gat i) (g.word past (i + 1)) =
          .done (alloc + e <<< g.log2gran) ∧
        (∀ r, 32 * i ≤ r → r < 32 * (i + 1) → ¬ g.FreeRun k r) ∧
        (32 * (i + 1) + k ≤ g.ngranules → ¬ g.PairAt i → e = 32)) := by
  have hwords : ∀ t, t < 64 → 32 * i + t < g.ngranules →
      pairBit (g.gat i) (g.word past (i + 1)) t = g.bit (32 * i + t) := by
    intro t ht hin
    rw [pairBit, Gran.bit]
    split_ifs with hlo
    · rw [show (32 * i + t) / 32 = i by omega, show (32 * i + t) % 32 = t by omega]
    · have hword : i + 1 < sizeofGat g.ngranules := by
        rw [sizeofGat, shiftRight_five]
        omega
      rw [Gran.word, if_pos hword, show (32 * i + t) / 32 = i + 1 by omega,
        show (32 * i + t) % 32 = t - 32 by omega]
  obtain ⟨e, -, ⟨heq, he, hfit, hfree⟩ | ⟨heq, hrun, hlast⟩⟩ := scanBits_spec hk hk32 32 0 alloc
    (by omega) (fun _ _ => by omega) (g.gat i) (g.word past (i + 1)) fun _ => Window.start _ _
  · refine ⟨e, .inl ⟨heq, he, hfit, fun j hj => ?_⟩⟩
    rw [add_assoc, ← hwords (e + j) (by omega) (by omega)]
    exact hfree j hj
  · refine ⟨e, .inr ⟨heq, fun r hlo hhi hr => ?_, fun hmore hpair => ?_⟩⟩
    · obtain ⟨hfit, hfree⟩ := hr
      obtain ⟨j, hj, hset⟩ := hrun (r - 32 * i) (by omega) (by omega) (by omega)
      rw [hwords _ (by omega) (by omega), show 32 * i + (r - 32 * i + j) = r + j by omega,
        hfree j hj] at hset
      cases hset
    · rw [EndPair, hwords 31 (by omega) (by omega), hwords 32 (by omega) (by omega)] at hlast
      exact hlast hmore (fun _ => hfull) fun hboth => hpair ⟨by omega, hfull, hboth⟩

/-- No free run begins in a full word. -/
theorem not_freeRun_of_full {i r : Nat} (hk : 0 < k) (hfull : g.gat i = 0xffffffff#32)
    (hlo : 32 * i ≤ r) (hhi : r < 32 * (i + 1)) : ¬ g.FreeRun k r := by
  intro hr
  have hones : ∀ t < 32, (0xffffffff#32).getLsbD t = true := by decide
  have hbit := hr.2 0 hk
  rw [Gran.bit, show (r + 0) / 32 = i by omega, hfull, hones _ (by omega)] at hbit
  cases hbit

/-- The outer loop fails only if there is no free run in the words that are left. What it finds is
the address of a free run if the address was in step. -/
theorem scanWords_spec (hk : 0 < k) (hk32 : k ≤ 32) (left i alloc : Nat)
    (hleft : i + left = sizeofGat g.ngranules) (hbefore : ∀ r < 32 * i, ¬ g.FreeRun k r) :
    (scanWords g past k left i alloc = none → ∀ r, ¬ g.FreeRun k r) ∧
    (g.NoPair k → g.InStep k i alloc → ∀ a, scanWords g past k left i alloc = some a →
      ∃ r, a = g.address r ∧ g.FreeRun k r) := by
  induction left generalizing i alloc with
  | zero =>
    refine ⟨fun _ r hr => ?_, fun _ _ a h => nomatch h⟩
    have hfit := hr.1
    rw [sizeofGat, shiftRight_five] at hleft
    exact hbefore r (by omega) hr
  | succ left ih =>
    unfold scanWords
    by_cases hfull : g.gat i = 0xffffffff#32
    · rw [if_pos hfull]
      obtain ⟨hnone, hsome⟩ := ih (i + 1) (alloc + 32 <<< g.log2gran) (by omega) fun r hr => by
        by_cases hlt : r < 32 * i
        · exact hbefore r hlt
        · exact not_freeRun_of_full hk hfull (by omega) hr
      refine ⟨hnone, fun hpair hstep => hsome hpair ?_⟩
      rcases hstep with hfew | rfl
      · exact Or.inl (by omega)
      · exact Or.inr (address_add g (32 * i) 32)
    · rw [if_neg hfull]
      obtain ⟨e, ⟨heq, he, hrun⟩ | ⟨heq, hnorun, hlast⟩⟩ :=
        scanBits_word past hk hk32 alloc hfull
      · rw [heq]
        refine ⟨nofun, fun _ hstep a ha => ⟨32 * i + e, ?_, hrun⟩⟩
        rcases hstep with hfew | rfl
        · have hfit := hrun.1
          omega
        · rw [← Option.some.inj ha, address_add]
      · rw [heq]
        have hbefore' : ∀ r < 32 * (i + 1), ¬ g.FreeRun k r := fun r hr => by
          by_cases hlt : r < 32 * i
          · exact hbefore r hlt
          · exact hnorun r (by omega) hr
        obtain ⟨hnone, hsome⟩ := ih (i + 1) (alloc + e <<< g.log2gran) (by omega) hbefore'
        refine ⟨hnone, fun hpair hstep => hsome hpair ?_⟩
        by_cases hmore : 32 * (i + 1) + k ≤ g.ngranules
        · -- a pair would come with a free run before it
          obtain rfl := hlast hmore fun hat => by
            obtain ⟨r, hr, hfree⟩ := hpair i (by omega) hat
            exact hbefore' r hr hfree
          rcases hstep with hfew | rfl
          · omega
          · exact Or.inr (address_add g (32 * i) 32)
        · exact Or.inl (by omega)

/-- The heap lies in the address space. -/
def Gran.Fits (g : Gran) : Prop := g.ngranules <<< g.log2gran ≤ 2 ^ 32

theorem Gran.Fits.granno_address (h : g.Fits) {r : Nat} (hr : r < g.ngranules) :
    g.granno (g.address r) = r := by
  refine Granule.granno_address g r (lt_of_lt_of_le ?_ h)
  rw [Nat.shiftLeft_eq, Nat.shiftLeft_eq]
  exact Nat.mul_lt_mul_of_pos_right hr (Nat.two_pow_pos _)

/-- `gran_alloc` fails without a change, or marks a run of granules that were free. -/
theorem granAlloc_cases (past : Word) (hfits : g.Fits) (hk : 0 < granCount g.log2gran size)
    (hk32 : granCount g.log2gran size ≤ 32) (hpair : g.NoPair (granCount g.log2gran size)) :
    granAlloc past g size = some (none, g) ∨
    ∃ n gat, granAlloc past g size = some (some (g.address n), { g with gat := gat }) ∧
      g.FreeRun (granCount g.log2gran size) n ∧
      ∀ m, ({ g with gat := gat } : Gran).bit m =
        (g.bit m || decide (InRun n (granCount g.log2gran size) m)) := by
  unfold granAlloc
  dsimp only
  split_ifs with hsize
  · cases hscan : scanWords g past (granCount g.log2gran size) (sizeofGat g.ngranules) 0
      g.heapstart with
    | none => exact Or.inl rfl
    | some a =>
      have hstart : g.InStep (granCount g.log2gran size) 0 g.heapstart := by
        refine Or.inr ?_
        simp [Gran.address]
      obtain ⟨n, rfl, hrun⟩ := (scanWords_spec hk hk32 _ 0 _ (by omega) (by omega)).2 hpair hstart a
        hscan
      have hn := hfits.granno_address (r := n) (by have := hrun.1; omega)
      obtain ⟨gat, hmark, hbit⟩ :=
        (granMarkAllocated_eq g (g.address n) hk).1 (by rw [hn]; omega)
      rw [hn] at hbit
      refine Or.inr ⟨n, gat, ?_, hrun, hbit⟩
      dsimp only
      rw [hmark]
      rfl
  · exact Or.inl rfl

end Search

/-! ## Runs -/

/-- The allocator and the live allocations, each with its address and its size. -/
structure Heap where
  gran : Gran
  live : List (Nat × Nat)

/-- The calls; the first one comes with what the memory behind the table holds. -/
inductive Op
  | alloc (past : Word) (size : Nat)
  | free (memory size : Nat)
  deriving DecidableEq

def Heap.apply (s : Heap) : Op → Option Heap
  | .alloc past size =>
    match granAlloc past s.gran size with
    | some (some alloc, g) => some ⟨g, (alloc, size) :: s.live⟩
    | some (none, g) => some ⟨g, s.live⟩
    | none => none
  | .free memory size => some ⟨granFree s.gran memory size, s.live.erase (memory, size)⟩

/-- A request for at most 32 granules whose size can be rounded up, where no pair is in the way; a
live allocation is freed with its size. -/
def Heap.OpOk (s : Heap) : Op → Prop
  | .alloc _ size =>
    (0 < size ∧ size ≤ 32 * 2 ^ s.gran.log2gran ∧ size + 2 ^ s.gran.log2gran ≤ 2 ^ 32) ∧
      s.gran.NoPair (granCount s.gran.log2gran size)
  | .free memory size => (memory, size) ∈ s.live

instance (s : Heap) (op : Op) : Decidable (s.OpOk op) := by
  cases op <;> unfold Heap.OpOk <;> infer_instance

/-- The arguments of `gran_initialize`: it asserts the first ones, and the heap has to reach beyond
its aligned start. -/
structure InitOk (heapstart heapsize log2gran log2align : Nat) : Prop where
  size_pos : 0 < heapsize
  gran_lt : log2gran < 32
  align_le : log2align ≤ log2gran
  bound : heapstart + heapsize ≤ 2 ^ 32
  round : heapstart + 2 ^ log2align ≤ 2 ^ 32
  aligned_le : alignedStart heapstart log2align ≤ heapstart + heapsize

def Heap.Run (heapstart heapsize log2gran log2align : Nat) : Heap → Prop :=
  Reach (fun s => s = ⟨granInitialize heapstart heapsize log2gran log2align, []⟩)
    (LabelledStep Heap.OpOk Heap.apply)

variable (g : Gran) (p : Nat × Nat)

/-- The granules of an allocation. -/
def Gran.Covers (n : Nat) : Prop :=
  InRun (g.granno p.1) (granCount g.log2gran p.2) n

instance (g : Gran) (p : Nat × Nat) (n : Nat) : Decidable (g.Covers p n) :=
  inferInstanceAs (Decidable (InRun _ _ _))

theorem granCount_bounds {log2gran : Nat} (hpos : 0 < size) (hle : size ≤ 32 * 2 ^ log2gran)
    (hround : size + 2 ^ log2gran ≤ 2 ^ 32) :
    0 < granCount log2gran size ∧ granCount log2gran size ≤ 32 ∧
      size ≤ granCount log2gran size * 2 ^ log2gran := by
  have hp : 0 < 2 ^ log2gran := Nat.two_pow_pos log2gran
  rw [granCount, u32_eq_self (by omega), Nat.shiftRight_eq_div_pow]
  refine ⟨Nat.div_pos (by omega) hp, ?_, ?_⟩
  · rw [← Nat.lt_succ_iff, Nat.div_lt_iff_lt_mul hp]
    omega
  · have hdiv := Nat.div_add_mod' (size + (2 ^ log2gran - 1)) (2 ^ log2gran)
    omega

/-- An allocation as `gran_alloc` returns it: at most 32 granules of the heap that hold its
bytes. -/
def Gran.Allocated : Prop :=
  ∃ r, p.1 = g.address r ∧ r + granCount g.log2gran p.2 ≤ g.ngranules ∧
    0 < granCount g.log2gran p.2 ∧ granCount g.log2gran p.2 ≤ 32 ∧
    p.2 ≤ granCount g.log2gran p.2 * 2 ^ g.log2gran

/-- What holds in every state: the bits of the table are the granules of the live allocations, and
these do not overlap. -/
structure Heap.Ok (shape : Gran) (s : Heap) : Prop where
  fits : s.gran.Fits
  log2gran : s.gran.log2gran = shape.log2gran
  ngranules : s.gran.ngranules = shape.ngranules
  heapstart : s.gran.heapstart = shape.heapstart
  allocated : ∀ p ∈ s.live, s.gran.Allocated p
  bits : ∀ n, s.gran.bit n = true ↔ ∃ p ∈ s.live, s.gran.Covers p n
  apart : s.live.Pairwise fun p q => ∀ n, s.gran.Covers p n → ¬ s.gran.Covers q n

section Steps

variable {shape : Gran} {s : Heap}

theorem Heap.Ok.mark (h : s.Ok shape) {gat : Nat → Word}
    (hrun : s.gran.FreeRun (granCount s.gran.log2gran size) n)
    (hk : 0 < granCount s.gran.log2gran size) (hk32 : granCount s.gran.log2gran size ≤ 32)
    (hbytes : size ≤ granCount s.gran.log2gran size * 2 ^ s.gran.log2gran)
    (hbit : ∀ m, ({ s.gran with gat := gat } : Gran).bit m =
      (s.gran.bit m || decide (InRun n (granCount s.gran.log2gran size) m))) :
    Heap.Ok shape ⟨{ s.gran with gat := gat }, (s.gran.address n, size) :: s.live⟩ := by
  obtain ⟨hfit, hfree⟩ := hrun
  have hnew : ∀ m, s.gran.Covers (s.gran.address n, size) m ↔
      InRun n (granCount s.gran.log2gran size) m := fun m => by
    rw [Gran.Covers, h.fits.granno_address (by omega)]
  refine ⟨h.fits, h.log2gran, h.ngranules, h.heapstart, ?_, fun m => ?_, ?_⟩
  · exact List.forall_mem_cons.2 ⟨⟨n, rfl, hfit, hk, hk32, hbytes⟩, h.allocated⟩
  · rw [hbit m, Bool.or_eq_true, decide_eq_true_iff, h.bits m, ← hnew m]
    constructor
    · rintro (⟨p, hp, hc⟩ | hc)
      · exact ⟨p, List.mem_cons_of_mem _ hp, hc⟩
      · exact ⟨_, List.mem_cons_self, hc⟩
    · rintro ⟨p, hp, hc⟩
      rcases List.mem_cons.mp hp with rfl | hp
      · exact Or.inr hc
      · exact Or.inl ⟨p, hp, hc⟩
  · refine List.pairwise_cons.mpr ⟨fun q hq m hm hqm => ?_, h.apart⟩
    -- the granules of the new run were free, those of `q` were not
    obtain ⟨hlo, hhi⟩ := (hnew m).mp hm
    have hset : s.gran.bit m = true := (h.bits m).mpr ⟨q, hq, hqm⟩
    have hclear := hfree (m - n) (by omega)
    rw [show n + (m - n) = m by omega, hset] at hclear
    exact nomatch hclear

theorem Heap.Ok.free (h : s.Ok shape) {memory : Nat} (hmem : (memory, size) ∈ s.live) :
    Heap.Ok shape ⟨granFree s.gran memory size, s.live.erase (memory, size)⟩ := by
  obtain ⟨-, -, -, -, hk32, -⟩ := h.allocated _ hmem
  obtain ⟨gat, hg, hbit⟩ := granFree_eq s.gran memory hk32
  rw [hg]
  have hperm := List.perm_cons_erase hmem
  have happart := (hperm.pairwise_iff (fun {p q} hpq m hq hp => hpq m hp hq)).mp h.apart
  obtain ⟨hout, hrest⟩ := List.pairwise_cons.mp happart
  refine ⟨h.fits, h.log2gran, h.ngranules, h.heapstart, ?_, fun m => ?_, hrest⟩
  · exact fun p hp => h.allocated p (List.mem_of_mem_erase hp)
  · rw [hbit m, Bool.and_eq_true, Bool.not_eq_true', decide_eq_false_iff_not, h.bits m]
    constructor
    · rintro ⟨⟨p, hp, hc⟩, hno⟩
      rcases List.mem_cons.mp (hperm.mem_iff.mp hp) with rfl | hp
      · exact absurd hc hno
      · exact ⟨p, hp, hc⟩
    · rintro ⟨p, hp, hc⟩
      exact ⟨⟨p, List.mem_of_mem_erase hp, hc⟩, fun hc' => hout p hp m hc' hc⟩

theorem Heap.Ok.apply (h : s.Ok shape) {op : Op} (hop : s.OpOk op) :
    ∃ t, s.apply op = some t ∧ t.Ok shape := by
  cases op with
  | alloc past size =>
    obtain ⟨⟨hpos, hle, hround⟩, hpair⟩ := hop
    obtain ⟨hk, hk32, hbytes⟩ := granCount_bounds hpos hle hround
    rcases granAlloc_cases past h.fits hk hk32 hpair with hnone | ⟨n, gat, hsome, hrun, hbit⟩
    · exact ⟨s, by rw [Heap.apply, hnone], h⟩
    · exact ⟨_, by rw [Heap.apply, hsome], h.mark hrun hk hk32 hbytes hbit⟩
  | free memory size => exact ⟨_, rfl, h.free hop⟩

theorem Heap.Run.ok {heapstart heapsize log2gran log2align : Nat}
    (hfits : (granInitialize heapstart heapsize log2gran log2align).Fits)
    (h : Heap.Run heapstart heapsize log2gran log2align s) :
    s.Ok (granInitialize heapstart heapsize log2gran log2align) := by
  refine Reach.labelled ?_ (fun s op hs hop => hs.apply hop) h
  rintro s rfl
  refine ⟨hfits, rfl, rfl, rfl, fun p hp => (nomatch hp), fun n => ?_, List.Pairwise.nil⟩
  simp [granInitialize, Gran.bit]

end Steps

/-- The granules of a new heap lie between its ends. -/
theorem InitOk.bounds {heapstart heapsize log2gran log2align : Nat}
    (h : InitOk heapstart heapsize log2gran log2align) :
    heapstart ≤ (granInitialize heapstart heapsize log2gran log2align).heapstart ∧
    (granInitialize heapstart heapsize log2gran log2align).address
      (granInitialize heapstart heapsize log2gran log2align).ngranules ≤ heapstart + heapsize := by
  have hp : 0 < 2 ^ log2align := Nat.two_pow_pos log2align
  have hle := h.aligned_le
  constructor
  · show heapstart ≤ alignedStart heapstart log2align
    have hround := h.round
    rw [alignedStart, u32_eq_self (by omega)]
    have hdiv := Nat.div_add_mod' (heapstart + (2 ^ log2align - 1)) (2 ^ log2align)
    omega
  · show alignedStart heapstart log2align
      + u16 ((sub32 (u32 (heapstart + heapsize)) (alignedStart heapstart log2align) / 2 ^ log2gran
        * 2 ^ log2gran) >>> log2gran) <<< log2gran ≤ _
    have hsub : sub32 (u32 (heapstart + heapsize)) (alignedStart heapstart log2align)
        ≤ heapstart + heapsize - alignedStart heapstart log2align := by
      simp only [sub32, u32]
      omega
    generalize sub32 (u32 (heapstart + heapsize))
      (alignedStart heapstart log2align) = size at hsub ⊢
    rw [Nat.shiftRight_eq_div_pow, Nat.mul_div_cancel _ (Nat.two_pow_pos log2gran),
      Nat.shiftLeft_eq]
    have hcount : u16 (size / 2 ^ log2gran) * 2 ^ log2gran ≤ size :=
      le_trans (Nat.mul_le_mul_right _ (Nat.mod_le _ _)) (Nat.div_mul_le_self _ _)
    omega

/-- In every run whose calls meet the conditions, the table shows the granules of the live
allocations, these are disjoint and inside the heap, and a call of `gran_alloc` returns a run of
granules that are free. -/
theorem granules_exclusive {heapstart heapsize log2gran log2align : Nat}
    (hinit : InitOk heapstart heapsize log2gran log2align) {s : Heap}
    (h : Heap.Run heapstart heapsize log2gran log2align s) :
    (∀ n, s.gran.bit n = true ↔ ∃ p ∈ s.live, s.gran.Covers p n) ∧
    (s.live.Pairwise fun p q => ∀ n, s.gran.Covers p n → ¬ s.gran.Covers q n) ∧
    (∀ p ∈ s.live, heapstart ≤ p.1 ∧ p.1 + p.2 ≤ heapstart + heapsize ∧
      ∀ n, s.gran.Covers p n → n < s.gran.ngranules) ∧
    (∀ past size, s.OpOk (.alloc past size) → ∃ res g',
      granAlloc past s.gran size = some (res, g') ∧
      ∀ a, res = some a → ∃ r, a = s.gran.address r ∧
        r + granCount s.gran.log2gran size ≤ s.gran.ngranules ∧
        ∀ n, InRun r (granCount s.gran.log2gran size) n → s.gran.bit n = false) := by
  have hok := h.ok (by
    have hhi := hinit.bounds.2
    have hbound := hinit.bound
    rw [Gran.address] at hhi
    exact (Nat.le_add_left _ _).trans (hhi.trans hbound))
  refine ⟨hok.bits, hok.apart, fun p hp => ?_, fun past size hop => ?_⟩
  · obtain ⟨r, hr, hfit, hk, -, hbytes⟩ := hok.allocated p hp
    obtain ⟨hlo, hhi⟩ := hinit.bounds
    rw [Gran.address, ← hok.log2gran, ← hok.ngranules, ← hok.heapstart, Nat.shiftLeft_eq] at hhi
    rw [← hok.heapstart] at hlo
    have hend := Nat.mul_le_mul_right (2 ^ s.gran.log2gran) hfit
    rw [add_mul] at hend
    have hstart : p.1 = s.gran.heapstart + r * 2 ^ s.gran.log2gran := by
      rw [hr, Gran.address, Nat.shiftLeft_eq]
    refine ⟨by omega, by omega, fun n hn => ?_⟩
    rw [Gran.Covers, hr, hok.fits.granno_address (by omega)] at hn
    exact lt_of_lt_of_le hn.2 hfit
  · obtain ⟨⟨hpos, hle, hround⟩, hpair⟩ := hop
    obtain ⟨hk, hk32, -⟩ := granCount_bounds hpos hle hround
    rcases granAlloc_cases past hok.fits hk hk32 hpair with hnone | ⟨r, gat, hsome, hrun, -⟩
    · exact ⟨_, _, hnone, nofun⟩
    · obtain ⟨hfit, hfree⟩ := hrun
      refine ⟨_, _, hsome, fun a ha => ⟨r, (Option.some.inj ha).symm, hfit, fun n hn => ?_⟩⟩
      obtain ⟨hlo, hhi⟩ := hn
      rw [show n = r + (n - r) by omega]
      exact hfree _ (by omega)

/-- Two allocations of a heap of four granules, and one of them freed. -/
theorem granules_exclusive_sample :
    ∃ s, Heap.Run 16 64 4 4 s ∧ s.live = [(32, 17)] ∧
      ∀ n, s.gran.bit n = true ↔ ∃ p ∈ s.live, s.gran.Covers p n := by
  have hinit : InitOk 16 64 4 4 := by
    refine ⟨?_, ?_, ?_, ?_, ?_, ?_⟩ <;> decide
  have hrun : Heap.Run 16 64 4 4
      (after Heap.apply ⟨granInitialize 16 64 4 4, []⟩ [.alloc 0 16, .alloc 0 17, .free 16 16]) :=
    Reach.after _ (.start rfl) (by decide)
  exact ⟨_, hrun, by decide, (granules_exclusive hinit hrun).1⟩

/-! ## A granule that is handed out twice -/

/-- In a heap of 96 granules: all granules of the first two words are allocated and the first one is
freed again. -/
def firstFreed : List Op :=
  [.alloc 0 16, .alloc 0 512, .alloc 0 496, .free 16 16]

/-- The search for two granules leaves the first word behind its first bit and takes the address
from there: it finds the granule 64 and returns the address of the granule 33, which is in use. -/
theorem alloc_overlaps_live :
    let s := after Heap.apply ⟨granInitialize 16 1536 4 4, []⟩ firstFreed
    (granAlloc 0 s.gran 32).map Prod.fst = some (some (s.gran.address 33)) ∧
      s.gran.bit 33 = true ∧ ∃ p ∈ s.live, s.gran.Covers p 33 := by
  decide

/-! ## The words of the table -/

section Reserve

variable {g : Gran} {start size : Nat}

theorem granno_eq {a : Nat} (ha : g.heapstart ≤ a) (hlt : a < 2 ^ 32) :
    g.granno a = (a - g.heapstart) / 2 ^ g.log2gran := by
  rw [Gran.granno, sub32_eq_self hlt ha, Nat.shiftRight_eq_div_pow]

/-- The granules that hold an address of a region. -/
theorem covered_iff (hlow : g.heapstart ≤ start) (hsize : 0 < size) (hend : start + size < 2 ^ 32)
    (n : Nat) :
    (∃ a, start ≤ a ∧ a < start + size ∧ g.granno a = n) ↔
      g.granno start ≤ n ∧ n ≤ g.granno (start + size - 1) := by
  have hpos : 0 < 2 ^ g.log2gran := Nat.two_pow_pos _
  rw [granno_eq hlow (by omega), granno_eq (a := start + size - 1) (by omega) (by omega)]
  constructor
  · rintro ⟨a, hlo, hhi, rfl⟩
    rw [granno_eq (hlow.trans hlo) (hhi.trans hend)]
    exact ⟨Nat.div_le_div_right (by omega), Nat.div_le_div_right (by omega)⟩
  · rintro ⟨hlo, hhi⟩
    rw [Nat.le_div_iff_mul_le hpos] at hhi
    have hup := Nat.lt_succ_of_le hlo
    rw [Nat.div_lt_iff_lt_mul hpos, Nat.succ_mul] at hup
    refine ⟨max start (g.heapstart + n * 2 ^ g.log2gran), le_max_left _ _,
      max_lt (by omega) (by omega), ?_⟩
    rw [granno_eq (by omega) (max_lt (by omega) (by omega))]
    refine Nat.div_eq_of_lt_le (by omega) ?_
    rw [Nat.succ_mul]
    omega

/-- What `gran_reserve` asks to be marked: the granules from `start` rounded down to the end rounded
up, as multiples of the granule size. -/
theorem granReserve_eq (hgran : g.log2gran < 32) (hsize : 0 < size) (hend : start + size < 2 ^ 32)
    (hwrap : start < 2 ^ g.log2gran → start + size - 1 + (2 ^ g.log2gran - 1) < 2 ^ 32) :
    granReserve g start size = granMarkAllocated g (start / 2 ^ g.log2gran * 2 ^ g.log2gran)
      ((start + size - 1 + (2 ^ g.log2gran - 1)) / 2 ^ g.log2gran -
        start / 2 ^ g.log2gran + 1) := by
  have hpos : 0 < 2 ^ g.log2gran := Nat.two_pow_pos _
  rw [granReserve, if_pos hsize]
  dsimp only
  rw [u32_eq_self (show start + size - 1 < 4294967296 by omega), u32_round (pow_dvd_pow 2 hgran.le)]
  have hdown := Nat.div_mul_le_self start (2 ^ g.log2gran)
  have hup := (round_up (start + size - 1) hpos).2
  have hle : start / 2 ^ g.log2gran ≤ (start + size - 1 + (2 ^ g.log2gran - 1)) / 2 ^ g.log2gran :=
    Nat.div_le_div_right (by omega)
  have hone : ¬ start < 2 ^ g.log2gran → 2 ^ g.log2gran ≤ start / 2 ^ g.log2gran * 2 ^ g.log2gran :=
    fun h => Nat.le_mul_of_pos_left _ (Nat.div_pos (not_lt.1 h) hpos)
  have hsmall : (start + size - 1 + (2 ^ g.log2gran - 1)) / 2 ^ g.log2gran ≤ start + size - 1 := by
    have := Nat.le_mul_of_pos_right (start + size - 1) hpos
    rw [Nat.div_le_iff_le_mul_add_pred hpos, mul_comm]
    omega
  generalize start / 2 ^ g.log2gran = s at *
  have hdiv := Nat.div_mul_le_self (start + size - 1 + (2 ^ g.log2gran - 1)) (2 ^ g.log2gran)
  generalize (start + size - 1 + (2 ^ g.log2gran - 1)) / 2 ^ g.log2gran = e at *
  have hmul := Nat.mul_le_mul_right (2 ^ g.log2gran) hle
  have hsub : sub32 (u32 (e * 2 ^ g.log2gran)) (s * 2 ^ g.log2gran) = (e - s) * 2 ^ g.log2gran := by
    rw [Nat.sub_mul]
    simp only [sub32, u32]
    omega
  rw [hsub, Nat.shiftRight_eq_div_pow, Nat.mul_div_cancel _ hpos, u32_eq_self (by omega)]

/-- A granule in front of those that are marked stays as it is. -/
theorem bit_of_granMarkAllocated {g' : Gran} {alloc k n : Nat} (hn : n < g.granno alloc)
    (h : granMarkAllocated g alloc k = some g') : g'.bit n = g.bit n := by
  have hk : 0 < k := Nat.pos_of_ne_zero fun h0 => by simp [granMarkAllocated, h0] at h
  obtain ⟨hmark, hnone⟩ := granMarkAllocated_eq g alloc hk
  by_cases hwords : g.granno alloc % 32 + k ≤ 64
  · obtain ⟨gat, heq, hbit⟩ := hmark hwords
    cases heq.symm.trans h
    have hout : ¬ InRun (g.granno alloc) k n := fun hin => by
      unfold InRun at hin
      omega
    rw [hbit, decide_eq_false hout, Bool.or_false]
  · cases (hnone hwords).symm.trans h

/-- Marking the granules `first` to `last` marks those from `lo` to `hi`, and no others, if and only
if they are in two words and the others among them are marked already. -/
theorem marks_iff {alloc first last lo hi : Nat} (hfirst : g.granno alloc = first)
    (hle : first ≤ last) (hlo : first ≤ lo) (hhi : hi ≤ last) :
    (∃ g', granMarkAllocated g alloc (last - first + 1) = some g' ∧
        ∀ n, g'.bit n = true ↔ g.bit n = true ∨ lo ≤ n ∧ n ≤ hi) ↔
      last / 32 ≤ first / 32 + 1 ∧
        ∀ n, first ≤ n → n ≤ last → n < lo ∨ hi < n → g.bit n = true := by
  obtain ⟨hmark, hnone⟩ := granMarkAllocated_eq g alloc (Nat.succ_pos (last - first))
  rw [hfirst] at hmark hnone
  by_cases hwords : last / 32 ≤ first / 32 + 1
  · obtain ⟨gat, heq, hbit⟩ := hmark (by omega)
    have hin : ∀ n, decide (InRun first (last - first).succ n) = true ↔ first ≤ n ∧ n ≤ last :=
      fun n => by
        rw [decide_eq_true_iff, InRun]
        omega
    rw [heq, and_iff_right hwords]
    simp only [Option.some.injEq, exists_eq_left', hbit, Bool.or_eq_true, hin]
    constructor
    · intro h n hfn hnl hout
      rcases (h n).1 (.inr ⟨hfn, hnl⟩) with hset | hcovered
      · exact hset
      · omega
    · refine fun h n => ⟨?_, Or.imp_right fun hcovered => by omega⟩
      rintro (hset | ⟨hfn, hnl⟩)
      · exact .inl hset
      · by_cases hcovered : lo ≤ n ∧ n ≤ hi
        · exact .inr hcovered
        · exact .inl (h n hfn hnl (by omega))
  · rw [hnone (by omega)]
    exact iff_of_false (by simp) fun h => hwords h.1

/-- The granule in front of the heap has a number that wraps around. -/
theorem granno_pos_of_front {a : Nat} (hgran : g.log2gran < 32) (hlt : a < g.heapstart)
    (hnear : g.heapstart ≤ a + 2 ^ g.log2gran) : 0 < g.granno a := by
  have htwo : 2 ^ (g.log2gran + 1) ≤ 2 ^ 32 := Nat.pow_le_pow_right Nat.two_pos hgran
  rw [pow_succ] at htwo
  have hsub : 2 ^ g.log2gran ≤ sub32 a g.heapstart := by
    simp only [sub32, u32]
    omega
  rw [Gran.granno, Nat.shiftRight_eq_div_pow]
  exact Nat.div_pos hsub (Nat.two_pow_pos _)

/-- The end of a heap that begins at zero is a multiple of the granule size, and no region in it is
rounded up beyond the address space. -/
theorem round_end_lt (hgran : g.log2gran < 32) (hzero : g.heapstart = 0) (hsize : 0 < size)
    (hhigh : start + size ≤ g.address g.ngranules) (hheap : g.address g.ngranules < 2 ^ 32) :
    start + size - 1 + (2 ^ g.log2gran - 1) < 2 ^ 32 := by
  obtain ⟨m, hm⟩ := pow_dvd_pow 2 hgran.le
  rw [Gran.address, hzero, Nat.zero_add, Nat.shiftLeft_eq, mul_comm] at hhigh hheap
  rw [hm] at hheap ⊢
  have hnext := Nat.mul_le_mul_left (2 ^ g.log2gran) (Nat.lt_of_mul_lt_mul_left hheap)
  rw [Nat.mul_succ] at hnext
  omega

/-- The granules that `gran_reserve` goes over are those from `start` rounded down to the last
address rounded up, counted from the start of the heap rounded up. It marks the granules that hold
an address of the region, and no others, if and only if they are in at most two words of the table,
the others among them are marked already, and none of them lies in front of the heap. -/
theorem reserve_marks_covered (hgran : g.log2gran < 32)
    (hlow : g.heapstart ≤ start) (hsize : 0 < size) (hhigh : start + size ≤ g.address g.ngranules)
    (hheap : g.address g.ngranules < 2 ^ 32)
    (hfree : ∀ a, start ≤ a → a < start + size → g.bit (g.granno a) = false) :
    let unit := 2 ^ g.log2gran
    let base := (g.heapstart + (unit - 1)) / unit
    let first := start / unit - base
    let last := (start + size - 1 + (unit - 1)) / unit - base
    (∃ g', granReserve g start size = some g' ∧ ∀ n, g'.bit n = true ↔
        g.bit n = true ∨ ∃ a, start ≤ a ∧ a < start + size ∧ g.granno a = n) ↔
      base ≤ start / unit ∧ last / 32 ≤ first / 32 + 1 ∧
        ∀ n, first ≤ n → n ≤ last → n < g.granno start ∨ g.granno (start + size - 1) < n →
          g.bit n = true := by
  intro unit base first last
  have hpos : 0 < unit := Nat.two_pow_pos _
  have hgranno : ∀ a, g.heapstart ≤ a → a < 2 ^ 32 → g.granno a = (a - g.heapstart) / unit :=
    fun a => granno_eq
  have hcov := covered_iff hlow hsize (by omega)
  have hres := @granReserve_eq g start size hgran hsize (by omega)
  have hany : ∃ k, granReserve g start size = granMarkAllocated g (start / unit * unit) k :=
    ⟨_, if_pos hsize⟩
  obtain ⟨hstart, hstart'⟩ : start / unit * unit ≤ start ∧ start < start / unit * unit + unit :=
    ⟨Nat.div_mul_le_self _ _, Nat.lt_div_mul_add hpos⟩
  obtain ⟨hbase, hbase'⟩ : g.heapstart ≤ base * unit ∧ base * unit < g.heapstart + unit :=
    round_up g.heapstart hpos
  obtain ⟨hend, hend'⟩ := round_up (start + size - 1) hpos
  have hends : start / unit ≤ (start + size - 1 + (unit - 1)) / unit :=
    Nat.div_le_div_right (by omega)
  have hwrap (hle : base ≤ start / unit) (hlt : start < unit) :
      start + size - 1 + (unit - 1) < 2 ^ 32 := by
    rw [Nat.div_eq_of_lt hlt, Nat.le_zero] at hle
    rw [hle, Nat.zero_mul] at hbase
    exact round_end_lt hgran (Nat.le_zero.1 hbase) hsize hhigh hheap
  have hfirst : first = start / unit - base := rfl
  have hlast : last = (start + size - 1 + (unit - 1)) / unit - base := rfl
  change _ → _ = granMarkAllocated g (start / unit * unit) (_ / unit - start / unit + 1) at hres
  clear_value first last base
  generalize start / unit = s at *
  generalize (start + size - 1 + (unit - 1)) / unit = e at *
  by_cases hle : base ≤ s
  · have hmul := Nat.mul_le_mul_right unit hle
    have hmul' := Nat.mul_le_mul_right unit hends
    have hgran0 : g.granno (s * unit) = first := by
      rw [hgranno _ (by omega) (by omega), hfirst]
      refine Nat.div_eq_of_lt_le ?_ ?_
      · rw [Nat.sub_mul]
        omega
      · rw [Nat.succ_mul, Nat.sub_mul]
        omega
    have hlow' : first ≤ g.granno start := by
      rw [hgranno _ hlow (by omega), Nat.le_div_iff_mul_le hpos, hfirst, Nat.sub_mul]
      omega
    have hhigh' : g.granno (start + size - 1) ≤ last := by
      rw [hgranno _ (by omega) (by omega), ← Nat.lt_succ_iff, Nat.div_lt_iff_lt_mul hpos,
        Nat.succ_mul, hlast, Nat.sub_mul]
      omega
    rw [hres (hwrap hle), and_iff_right hle, show e - s = last - first by omega]
    simp only [hcov]
    exact marks_iff hgran0 (by omega) hlow' hhigh'
  · -- the number of the first granule wraps, and the one that holds `start` is not marked
    have hmul := Nat.mul_le_mul_right unit (not_le.1 hle)
    rw [Nat.succ_mul] at hmul
    have hzero : g.granno start = 0 := by
      rw [hgranno _ hlow (by omega)]
      exact Nat.div_eq_of_lt (by omega)
    have hfar := granno_pos_of_front (a := s * unit) hgran (by omega) (by omega)
    refine iff_of_false ?_ fun h => hle h.1
    rintro ⟨g', hsome, hbits⟩
    obtain ⟨k, hk⟩ := hany
    have hset := (hbits 0).2 (.inr ⟨start, le_rfl, by omega, hzero⟩)
    have hclear := hfree start le_rfl (by omega)
    rw [bit_of_granMarkAllocated hfar (hk ▸ hsome), ← hzero, hclear] at hset
    cases hset

end Reserve

/-- In a heap that begins inside a granule, a region whose ends are right. -/
theorem reserve_marks_covered_sample :
    let g := granInitialize 8 1024 4 3
    ∃ g', granReserve g 100 29 = some g' ∧ ∀ n, g'.bit n = true ↔
      g.bit n = true ∨ ∃ a, 100 ≤ a ∧ a < 129 ∧ g.granno a = n := by
  intro g
  refine (reserve_marks_covered (by decide) (by decide) (by decide) (by decide) (by decide)
    (fun a _ _ => by simp [g, granInitialize, Gran.bit])).2 ⟨by decide, by decide,
    fun n hlo hhi h => ?_⟩
  have hfirst : g.granno 100 = 5 := by decide
  have hlast : g.granno (100 + 29 - 1) = 7 := by decide
  simp only [g, granInitialize] at hlo hhi
  rw [hfirst, hlast] at h
  simp [alignedStart, u32] at hlo hhi
  omega

/-- A region of one granule gets two, since the last address is rounded up and then counted. Of a
region of a hundred granules those in the second word have no defined mask. And in a heap that
begins inside a granule, the granule before the region is marked. -/
theorem reserve_marks_others :
    (let g := granInitialize 64 1024 4 4
     (granReserve g 64 16).map (·.bit 1) = some true ∧ g.bit 1 = false ∧
       ∀ a < 80, 64 ≤ a → g.granno a = 0) ∧
    (granReserve (granInitialize 0 2048 4 4) 0 1585).isNone ∧
    (let g := granInitialize 8 1024 4 3
     (granReserve g 40 9).map (·.bit 1) = some true ∧ g.bit 1 = false ∧
       ∀ a < 49, 40 ≤ a → g.granno a = 2) := by
  decide

end BaseNx.Granule
