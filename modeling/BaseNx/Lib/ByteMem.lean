import Mathlib.Data.Nat.Bitwise

/-!
# Byte-addressed memory

A memory is a function from addresses to bytes. 32-bit words are stored little endian
(`load32`, `store32`), and `memcpy` is the forward byte-by-byte copy. Every lemma is phrased
with address *ranges*, never with alignment: two words do not interfere when their four-byte
ranges are disjoint, so a client only has to hand the arithmetic to `omega`.
-/

namespace ByteMem

abbrev Mem := Nat → UInt8

/-! ## Words -/

variable (m : Mem) (a : Nat)

/-- The little-endian 32-bit word at `a`. -/
def load32 : Nat :=
  (m a).toNat + 2 ^ 8 * (m (a + 1)).toNat + 2 ^ 16 * (m (a + 2)).toNat
    + 2 ^ 24 * (m (a + 3)).toNat

/-- Store the low 32 bits of `v` at `a`, little endian. -/
def store32 (a v : Nat) : Mem := fun b =>
  if b = a then UInt8.ofNat v
  else if b = a + 1 then UInt8.ofNat (v / 2 ^ 8)
  else if b = a + 2 then UInt8.ofNat (v / 2 ^ 16)
  else if b = a + 3 then UInt8.ofNat (v / 2 ^ 24)
  else m b

/-- A word depends on its four bytes only. -/
theorem load32_congr {m m' : Mem} {a : Nat} (h : ∀ b, a ≤ b → b < a + 4 → m' b = m b) :
    load32 m' a = load32 m a := by
  simp only [load32, h a (by omega) (by omega), h (a + 1) (by omega) (by omega),
    h (a + 2) (by omega) (by omega), h (a + 3) (by omega) (by omega)]

theorem store32_outside {m : Mem} {a v b : Nat} (h : b < a ∨ a + 4 ≤ b) :
    store32 m a v b = m b := by
  simp only [store32]
  rw [if_neg (by omega), if_neg (by omega), if_neg (by omega), if_neg (by omega)]

/-- Reading back the word just written. -/
theorem load32_store32 {v : Nat} (h : v < 2 ^ 32) : load32 (store32 m a v) a = v := by
  have h1 : a + 1 ≠ a := by omega
  have h2 : a + 2 ≠ a := by omega
  have h3 : a + 3 ≠ a := by omega
  simp only [load32, store32, if_true, if_neg h1, if_neg h2, if_neg h3, Nat.add_left_cancel_iff,
    Nat.reduceEqDiff, if_false, UInt8.toNat_ofNat']
  omega

/-- Reading a word disjoint from the one just written. -/
theorem load32_store32_disjoint {a b : Nat} (v : Nat) (h : b + 4 ≤ a ∨ a + 4 ≤ b) :
    load32 (store32 m a v) b = load32 m b :=
  load32_congr fun _ _ _ => store32_outside (by omega)

/-- The four bytes of a word just written do not depend on what was there. -/
theorem store32_inside (m m' : Mem) {a v b : Nat} (h : a ≤ b ∧ b < a + 4) :
    store32 m a v b = store32 m' a v b := by
  obtain rfl | rfl | rfl | rfl : b = a ∨ b = a + 1 ∨ b = a + 2 ∨ b = a + 3 := by omega
  all_goals simp [store32]

/-- Stores to disjoint words commute. -/
theorem store32_comm {a b : Nat} (v w : Nat) (h : b + 4 ≤ a ∨ a + 4 ≤ b) :
    store32 (store32 m a v) b w = store32 (store32 m b w) a v := by
  funext c
  by_cases hb : c < b ∨ b + 4 ≤ c
  · rw [store32_outside hb]
    by_cases ha : c < a ∨ a + 4 ≤ c
    · rw [store32_outside ha, store32_outside ha, store32_outside hb]
    · exact store32_inside m (store32 m b w) (by omega)
  · rw [store32_outside (m := store32 m b w) (a := a) (by omega)]
    exact store32_inside (store32 m a v) m (by omega)

/-! ## Copies -/

/-- Copy `n` bytes from `src` to `dst`, lowest address first. -/
def memcpy (m : Mem) (dst src : Nat) : Nat → Mem
  | 0 => m
  | n + 1 => fun b =>
    -- the last byte is read after all others have been written
    if b = dst + n then memcpy m dst src n (src + n) else memcpy m dst src n b

theorem memcpy_outside {m : Mem} {dst src b : Nat} :
    ∀ {n : Nat}, b < dst ∨ dst + n ≤ b → memcpy m dst src n b = m b := by
  intro n
  induction n with
  | zero => intro _; rfl
  | succ n ih =>
    intro h
    simp only [memcpy]
    rw [if_neg (by omega)]
    exact ih (by omega)

/-- A forward copy that does not run into its own source: the destination is at or below the
source, or wholly above it. -/
theorem memcpy_copied {m : Mem} {dst src : Nat} :
    ∀ {n : Nat}, dst ≤ src ∨ src + n ≤ dst → ∀ i < n,
    memcpy m dst src n (dst + i) = m (src + i) := by
  intro n
  induction n with
  | zero => intro _ i hi; omega
  | succ n ih =>
    intro h i hi
    simp only [memcpy]
    by_cases hlast : i = n
    · subst hlast
      rw [if_pos rfl]
      -- the source byte lies above everything copied so far
      exact memcpy_outside (by omega)
    · rw [if_neg (by omega)]
      exact ih (by omega) i (by omega)

end ByteMem
