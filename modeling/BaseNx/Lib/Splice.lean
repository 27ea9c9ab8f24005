import Mathlib.Data.List.Basic

/-!
# Overwriting a part of a list

`splice s n t` writes `t` over `s` at position `n`; what reaches beyond the end extends the list.
A splice of two lists in a row is made of splices of the parts.
-/

namespace BaseNx.Lib

open List

variable {α : Type}

/-- The list `s` with `t` written over it at position `n`. -/
def splice (s : List α) (n : Nat) (t : List α) : List α := s.take n ++ t ++ s.drop (n + t.length)

variable {n : Nat} {s t : List α}

theorem length_splice (hn : n ≤ s.length) :
    (splice s n t).length = max s.length (n + t.length) := by
  simp only [splice, length_append, length_take, length_drop]
  omega

/-- A splice that ends in the first of two lists. -/
theorem splice_append_left {u : List α} (h : n + t.length ≤ s.length) :
    splice (s ++ u) n t = splice s n t ++ u := by
  rw [splice, splice, take_append_of_le_length (by omega), drop_append_of_le_length h]
  simp

/-- A splice that begins behind the first of two lists. -/
theorem splice_append_right {u : List α} (h : s.length ≤ n) :
    splice (s ++ u) n t = s ++ splice u (n - s.length) t := by
  rw [splice, splice, take_append, drop_append, take_of_length_le h,
    drop_eq_nil_of_le (by omega), show n + t.length - s.length = n - s.length + t.length by omega]
  simp

/-- A splice over the end of the first list and the beginning of the second. -/
theorem splice_append {u t' : List α} (h : n + t.length = s.length) :
    splice (s ++ u) n (t ++ t') = splice s n t ++ splice u 0 t' := by
  have hdrop : s.drop (n + t.length) = [] := drop_eq_nil_of_le (by omega)
  rw [splice, splice, splice, hdrop, take_append_of_le_length (by omega), drop_append,
    drop_eq_nil_of_le (by rw [length_append]; omega), length_append,
    show n + (t.length + t'.length) - s.length = 0 + t'.length by omega]
  simp

/-- A splice that reaches the end of the list goes on behind it. -/
theorem splice_extend (t' : List α) (h : s.length ≤ n + t.length) :
    splice s n (t ++ t') = splice s n t ++ t' := by
  rw [splice, splice, drop_eq_nil_of_le h,
    drop_eq_nil_of_le (by rw [length_append]; omega)]
  simp

@[simp] theorem nil_splice (t : List α) : splice [] 0 t = t := by
  simp [splice]

theorem splice_length (s t : List α) : splice s s.length t = s ++ t := by
  simp [splice]

/-- A part of a list that holds the place of a splice. -/
theorem take_drop_splice {k m : Nat} (hs : k + m ≤ s.length) (hm : n + t.length ≤ m) :
    ((splice s (k + n) t).drop k).take m = splice ((s.drop k).take m) n t := by
  have hsplit : s = s.take k ++ ((s.drop k).take m ++ s.drop (k + m)) := by
    rw [← drop_drop, take_append_drop, take_append_drop]
  have hk : (s.take k).length = k := by
    rw [length_take]
    omega
  have hlen : ((s.drop k).take m).length = m := by
    rw [length_take, length_drop]
    omega
  have hmid : splice s (k + n) t
      = s.take k ++ (splice ((s.drop k).take m) n t ++ s.drop (k + m)) := by
    conv_lhs => rw [hsplit]
    rw [splice_append_right (by omega), hk, Nat.add_sub_cancel_left, splice_append_left (by omega)]
  have hout : (splice ((s.drop k).take m) n t).length = m := by
    rw [length_splice (by omega)]
    omega
  rw [hmid, drop_append_of_le_length (by omega), drop_eq_nil_of_le (by omega),
    nil_append, take_append_of_le_length (by omega), take_of_length_le (by omega)]

end BaseNx.Lib
