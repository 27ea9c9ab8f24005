import BaseNx.Lib.OrderedInsert

/-!
# Delta queues

A delta queue keeps timers in the order of their deadlines and stores with each timer only the
distance to the timer in front of it. `deadlines b q` unfolds such a queue, read at the time `b`,
into the list of absolute deadlines. Through it the three queue operations are the expected ones:
`deltaInsert` is a stable ordered insertion, `deltaRemove` deletes one key and leaves all other
deadlines as they are, and taking one unit from the first distance lets one unit of time pass.
-/

namespace BaseNx.Lib

universe u

variable {α : Type u}

/-- The absolute deadlines of a delta queue read at time `b`. -/
def deadlines (b : Int) : List (α × Int) → List (α × Int)
  | [] => []
  | (k, l) :: xs => (k, b + l) :: deadlines (b + l) xs

@[simp] theorem deadlines_nil (b : Int) : deadlines b ([] : List (α × Int)) = [] := rfl

@[simp] theorem deadlines_cons (b : Int) (k : α) (l : Int) (xs : List (α × Int)) :
    deadlines b ((k, l) :: xs) = (k, b + l) :: deadlines (b + l) xs := rfl

@[simp] theorem deadlines_keys : ∀ (b : Int) (xs : List (α × Int)),
    (deadlines b xs).map Prod.fst = xs.map Prod.fst
  | _, [] => rfl
  | b, (k, l) :: xs => by simp [deadlines_keys (b + l) xs]

/-- Reading the queue at another time shifts all deadlines. -/
theorem deadlines_shift : ∀ (b c : Int) (xs : List (α × Int)),
    deadlines b xs = (deadlines c xs).map (fun e => (e.1, e.2 + (b - c)))
  | _, _, [] => rfl
  | b, c, (k, l) :: xs => by
    have h : b + l = c + l + (b - c) := by omega
    have h' : b + l - (c + l) = b - c := by omega
    rw [deadlines_cons, deadlines_cons, deadlines_shift (b + l) (c + l) xs, List.map_cons, h']
    simp [h]

/-- Deadlines in order, none of them in the past, come from non-negative distances. -/
theorem distance_nonneg_of_sorted : ∀ {b : Int} {xs : List (α × Int)},
    (deadlines b xs).Pairwise (fun x y => x.2 ≤ y.2) → (∀ e ∈ deadlines b xs, b ≤ e.2) →
      ∀ e ∈ xs, 0 ≤ e.2
  | _, [], _, _, _, he => absurd he List.not_mem_nil
  | b, (k, l) :: xs, hs, hb, e, he => by
    obtain ⟨hk, hs⟩ := List.pairwise_cons.1 hs
    rcases List.mem_cons.1 he with rfl | he
    · have : b ≤ b + l := hb (k, b + l) List.mem_cons_self
      show 0 ≤ l
      omega
    · exact distance_nonneg_of_sorted hs hk e he

/-- Give the distance `l` of a removed timer to the timer behind it. -/
def addLag (l : Int) : List (α × Int) → List (α × Int)
  | [] => []
  | (k, m) :: xs => (k, m + l) :: xs

@[simp] theorem deadlines_addLag (b l : Int) (xs : List (α × Int)) :
    deadlines b (addLag l xs) = deadlines (b + l) xs := by
  cases xs with
  | nil => rfl
  | cons x xs =>
    have h : b + (x.2 + l) = b + l + x.2 := by omega
    simp [addLag, deadlines, h]

/-- Insert a timer `d` units from now. -/
def deltaInsert (k : α) (d : Int) : List (α × Int) → List (α × Int)
  | [] => [(k, d)]
  | (x, l) :: xs => if d < l then (k, d) :: (x, l - d) :: xs else (x, l) :: deltaInsert k (d - l) xs

/-- Insertion is stable: the new timer goes behind every timer that is not due later. -/
theorem deadlines_deltaInsert (k : α) : ∀ (b d : Int) (xs : List (α × Int)),
    deadlines b (deltaInsert k d xs) =
      insertWhere (fun e => decide (e.2 ≤ b + d)) (k, b + d) (deadlines b xs)
  | _, _, [] => rfl
  | b, d, (x, l) :: xs => by
    by_cases h : d < l
    · have hsum : b + d + (l - d) = b + l := by omega
      simp [deltaInsert, insertWhere, h, hsum]
    · have hsum : b + l + (d - l) = b + d := by omega
      have ih := hsum ▸ deadlines_deltaInsert k (b + l) (d - l) xs
      simp [deltaInsert, insertWhere, h, not_lt.1 h, ih]

section Remove

variable [DecidableEq α]

def deltaRemove (k : α) : List (α × Int) → List (α × Int)
  | [] => []
  | (x, l) :: xs => if x = k then addLag l xs else (x, l) :: deltaRemove k xs

/-- Removing a timer leaves all other deadlines as they are. -/
theorem deadlines_deltaRemove (k : α) : ∀ (b : Int) (xs : List (α × Int)), (xs.map Prod.fst).Nodup →
      deadlines b (deltaRemove k xs) = (deadlines b xs).filter (fun e => decide (e.1 ≠ k))
  | _, [], _ => rfl
  | b, (x, l) :: xs, hn => by
    obtain ⟨hx, hn⟩ := List.nodup_cons.1 hn
    by_cases h : x = k
    · have hall : ∀ e ∈ deadlines (b + l) xs, decide (e.1 ≠ k) = true := by
        intro e he
        refine decide_eq_true fun hek => hx ?_
        have hmem : e.1 ∈ (deadlines (b + l) xs).map Prod.fst := List.mem_map_of_mem he
        rw [deadlines_keys] at hmem
        exact (h.trans hek.symm) ▸ hmem
      rw [deadlines_cons, List.filter_cons_of_neg (by simp [h]), List.filter_eq_self.2 hall]
      simp [deltaRemove, h]
    · simp [deltaRemove, h, deadlines_deltaRemove k (b + l) xs hn]

end Remove

/-- One unit of time passes when the first distance is decremented. -/
theorem deadlines_tick (b : Int) (k : α) (l : Int) (xs : List (α × Int)) :
    deadlines (b + 1) ((k, l - 1) :: xs) = deadlines b ((k, l) :: xs) := by
  have h : b + 1 + (l - 1) = b + l := by omega
  simp [h]

end BaseNx.Lib
