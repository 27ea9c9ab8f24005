import Mathlib.Tactic

/-!
# Masks of consecutive bits

The bits of the masks that bitmaps are searched and written with: ones below a position, ones from a
position on, and a window that is shifted over two neighbouring words.
-/

namespace BaseNx.Lib

variable {w : Nat}

/-- Ones below position `n`. -/
def lowOnes (w n : Nat) : BitVec w := BitVec.allOnes w >>> (w - n)

/-- Ones from position `b` on. -/
def highOnes (w b : Nat) : BitVec w := BitVec.allOnes w <<< b

/-- A window over `x` and the word `y` behind it, moved by `s` positions. -/
def funnel (x y : BitVec w) (s : Nat) : BitVec w := (x >>> s) ||| (y <<< (w - s))

theorem getLsbD_lowOnes {n : Nat} (hn : n ≤ w) (j : Nat) :
    (lowOnes w n).getLsbD j = decide (j < n) := by
  simp only [lowOnes, BitVec.getLsbD_ushiftRight, BitVec.getLsbD_allOnes, decide_eq_decide]
  omega

theorem getLsbD_highOnes {b j : Nat} (hj : j < w) : (highOnes w b).getLsbD j = decide (b ≤ j) := by
  simp only [highOnes, BitVec.getLsbD_shiftLeft, BitVec.getLsbD_allOnes, hj, decide_true,
    Bool.true_and]
  by_cases hb : b ≤ j
  · have hlt : j - b < w := by omega
    simp [hb, hlt, not_lt.mpr hb]
  · simp [hb, not_le.mp hb]

theorem getLsbD_funnel (x y : BitVec w) {s j : Nat} (hs : s ≤ w) (hj : j < w) :
    (funnel x y s).getLsbD j = if j + s < w then x.getLsbD (s + j) else y.getLsbD (s + j - w) := by
  simp only [funnel, BitVec.getLsbD_or, BitVec.getLsbD_ushiftRight, BitVec.getLsbD_shiftLeft, hj,
    decide_true, Bool.true_and]
  by_cases h : j + s < w
  · have hlt : j < w - s := by omega
    simp [h, hlt]
  · have hge : ¬ j < w - s := by omega
    have hx : x.getLsbD (s + j) = false := BitVec.getLsbD_of_ge x (s + j) (by omega)
    have hpos : j - (w - s) = s + j - w := by omega
    simp [h, hge, hx, hpos]

/-- The word has ones wherever the mask has. -/
theorem getLsbD_of_and_eq {x c : BitVec w} (h : x &&& c = c) {j : Nat} (hj : c.getLsbD j = true) :
    x.getLsbD j = true := by
  have hbit : (x &&& c).getLsbD j = true := by rw [h, hj]
  rw [BitVec.getLsbD_and, hj, Bool.and_true] at hbit
  exact hbit

/-- The word has zeros wherever the mask has ones. -/
theorem getLsbD_of_and_eq_zero {x c : BitVec w} (h : x &&& c = 0#w) {j : Nat}
    (hj : c.getLsbD j = true) : x.getLsbD j = false := by
  have hbit : (x &&& c).getLsbD j = false := by rw [h, BitVec.getLsbD_zero]
  rw [BitVec.getLsbD_and, hj, Bool.and_true] at hbit
  exact hbit

end BaseNx.Lib
