import Mathlib.Tactic

/-!
# Circular buffers

A buffer of `b` cells with a read index `r` and a write index `w`, which are equal when the buffer
is empty; one cell stays unused. `ring b buf r w` is the list of what is stored. A store at `w`
appends to it (`ring_push`) and a load at `r` takes its head (`ring_pop`).
-/

namespace BaseNx.Lib

open List

universe u

variable {β : Type u}

/-- The index after `i`. -/
def ringSucc (b i : Nat) : Nat := if b ≤ i + 1 then 0 else i + 1

/-- The index `i` places after `r`; no more than one turn is made. -/
def ringAt (b r i : Nat) : Nat := if r + i < b then r + i else r + i - b

/-- The number of cells in use. -/
def ringCount (b r w : Nat) : Nat := if w < r then b - r + w else w - r

/-- What is stored, in the order in which it is read. -/
def ring (b : Nat) (buf : Nat → β) (r w : Nat) : List β :=
  (range (ringCount b r w)).map fun i => buf (ringAt b r i)

variable {b r w : Nat}

theorem ringSucc_lt (h : 0 < b) (i : Nat) : ringSucc b i < b := by
  rw [ringSucc]
  split <;> omega

@[simp]
theorem length_ring (b : Nat) (buf : Nat → β) (r w : Nat) :
    (ring b buf r w).length = ringCount b r w := by
  rw [ring, length_map, length_range]

section

variable (hr : r < b)
include hr

theorem ringCount_lt (hw : w < b) : ringCount b r w < b := by
  rw [ringCount]
  split <;> omega

theorem ring_eq_nil_iff (buf : Nat → β) : ring b buf r w = [] ↔ w = r := by
  rw [← length_eq_zero_iff, length_ring, ringCount]
  split <;> omega

/-- There is no room when the next write index is the read index. -/
theorem ringSucc_eq_iff (hw : w < b) : ringSucc b w = r ↔ ringCount b r w = b - 1 := by
  rw [ringSucc, ringCount]
  split <;> split <;> omega

theorem ring_push (hw : w < b) (hroom : ringSucc b w ≠ r) (buf : Nat → β) (x : β) :
    ring b (Function.update buf w x) r (ringSucc b w) = ring b buf r w ++ [x] := by
  have hcount : ringCount b r (ringSucc b w) = ringCount b r w + 1 := by
    simp only [ringCount, ringSucc] at hroom ⊢
    split_ifs at hroom ⊢ <;> omega
  have hlast : ringAt b r (ringCount b r w) = w := by
    simp only [ringAt, ringCount]
    split <;> split <;> omega
  have hold : ∀ i ∈ range (ringCount b r w), ringAt b r i ≠ w := by
    intro i hi
    have hlt := mem_range.1 hi
    simp only [ringAt, ringCount] at hlt ⊢
    split at hlt <;> split <;> omega
  rw [ring, hcount, range_succ, map_append, map_singleton, hlast,
    Function.update_self, ring]
  exact congrArg (· ++ [x])
    (map_congr_left fun i hi => Function.update_of_ne (hold i hi) x buf)

theorem ring_pop (hw : w < b) (hne : w ≠ r) (buf : Nat → β) :
    ring b buf r w = buf r :: ring b buf (ringSucc b r) w := by
  have hcount : ringCount b r w = ringCount b (ringSucc b r) w + 1 := by
    simp only [ringCount, ringSucc]
    split <;> split <;> split <;> omega
  have hhead : ringAt b r 0 = r := by
    simp only [ringAt]
    split <;> omega
  have htail : ∀ i ∈ range (ringCount b (ringSucc b r) w),
      ringAt b r (i + 1) = ringAt b (ringSucc b r) i := by
    intro i hi
    have hlt := mem_range.1 hi
    simp only [ringAt, ringCount, ringSucc] at hlt ⊢
    split at hlt <;> split at hlt <;> split <;> split <;> omega
  rw [ring, hcount, range_succ_eq_map, map_cons, hhead, map_map, ring]
  exact congrArg (buf r :: ·) (map_congr_left fun i hi => congrArg buf (htail i hi))

end

end BaseNx.Lib
