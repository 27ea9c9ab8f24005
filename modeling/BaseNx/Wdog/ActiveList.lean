import BaseNx.Errno
import BaseNx.Lib.DeltaQueue
import BaseNx.Lib.MachineInt

/-!
# The watchdog timers

`sched/wdog` in the ticked build: `wdStart`, `wdCancel`, `wdGettime` and `wdTimer` over
`g_wdactivelist`, the list of active watchdogs in which each entry holds the ticks between its own
expiry and the expiry of the entry in front of it. All arithmetic on these lags is the `int` and
`int32_t` arithmetic of the code.

The watchdog functions run inside `wdTimer`, from the timer interrupt, and may start and cancel
watchdogs themselves; what the `k`-th function of a tick does is an input `body k` of the model.
The state also keeps the number of ticks and the history of what was started, cancelled and run.

`wdInsert_eq` shows that the insertion loops of `wd_start` are the insertion into a delta queue.
-/

namespace BaseNx.Wdog

open Lib

/-! ## State -/

/-- A watchdog, by the address of its `struct wdog_s`. -/
abbrev WdogId := Nat

/-- `CONFIG_MAX_WDOGPARMS` -/
def maxWdogparms : Nat := 4

/-- An entry of the active list with its `lag`. -/
abbrev Entry := WdogId × Int

/-- The fields of `struct wdog_s` beside the list entry. -/
structure WdogS where
  /-- `func`, the function to execute when the delay expires -/
  func : Nat
  /-- the first `argc` entries of `parm` -/
  parm : List Nat
  /-- `WDOGF_ACTIVE` in `flags` -/
  active : Bool
  deriving DecidableEq

/-- What the users of the watchdogs see happen. -/
inductive Event
  | start (wdog : WdogId) (tick : Nat) (delay : Int) (func : Nat) (parm : List Nat)
  | cancel (wdog : WdogId) (tick : Nat)
  | run (wdog : WdogId) (tick : Nat) (func : Nat) (parm : List Nat)
  deriving DecidableEq

/-- The watchdog state: the structures, `g_wdactivelist`, the clock and the history, newest event
first. -/
structure State where
  wdog : WdogId → WdogS
  wdactivelist : List Entry
  ticks : Nat
  history : List Event

def State.setWdog (s : State) (w : WdogId) (d : WdogS) : State :=
  { s with wdog := Function.update s.wdog w d }

def State.record (s : State) (e : Event) : State := { s with history := e :: s.history }

/-! ## wd_cancel -/

/-- The search of `wd_cancel` for the entry to remove; the entry behind it inherits the remaining
ticks. -/
def removeEntry (w : WdogId) : List Entry → List Entry
  | [] => []
  | curr :: rest =>
    if curr.1 = w then
      match rest with
      | [] => []
      | next :: rest => (next.1, i32 (next.2 + curr.2)) :: rest
    else curr :: removeEntry w rest

/-- `wd_cancel`; `none` is the `NULL` watchdog. -/
def wdCancel (wdog : Option WdogId) (s : State) : Int × State :=
  match wdog with
  | none => (-EINVAL, s)
  | some w =>
    if (s.wdog w).active then
      let s := { s with wdactivelist := removeEntry w s.wdactivelist }
      let s := s.setWdog w { s.wdog w with active := false }
      (OK, s.record (.cancel w s.ticks))
    else (-EINVAL, s)

/-! ## wd_start -/

/-- "Advance to positive time": the first loop of `wd_start`. The result is `now`, the entries in
front of `curr`, `curr`, and the entries behind it. -/
def advanceToPositive (now : Int) (pre : List Entry) (curr : Entry) :
    List Entry → Int × List Entry × Entry × List Entry
  | [] => (i32 (now + curr.2), pre, curr, [])
  | next :: rest =>
    if i32 (now + curr.2) < 0 then
      advanceToPositive (i32 (now + curr.2)) (pre ++ [curr]) next rest
    else (i32 (now + curr.2), pre, curr, next :: rest)

/-- "Advance past shorter delays": the second loop of `wd_start`. -/
def advancePastShorter (delay now : Int) (pre : List Entry) (curr : Entry) :
    List Entry → Int × List Entry × Entry × List Entry
  | [] => (now, pre, curr, [])
  | next :: rest =>
    if now ≤ delay then advancePastShorter delay (i32 (now + next.2)) (pre ++ [curr]) next rest
    else (now, pre, curr, next :: rest)

variable (w : WdogId) (delay : Int)

/-- The new watchdog goes before or after the entry `curr` at which the loops stopped. -/
def placeAt : Int × List Entry × Entry × List Entry → List Entry
  | (now, pre, curr, rest) =>
    if delay < now then
      let lag := i32 (delay - i32 (now - curr.2))
      pre ++ (w, lag) :: (curr.1, i32 (curr.2 - lag)) :: rest
    else
      let lag := i32 (delay - now)
      match rest with
      | [] => pre ++ [curr, (w, lag)]
      | next :: rest => pre ++ curr :: (w, lag) :: (next.1, i32 (next.2 - lag)) :: rest

/-- Insert a watchdog into the active list with `delay` ticks to go. -/
def wdInsert : List Entry → List Entry
  | [] => [(w, delay)]
  | head :: tail =>
    match advanceToPositive 0 [] head tail with
    | (now, pre, curr, rest) => placeAt w delay (advancePastShorter delay now pre curr rest)

/-- "Calculate delay+1, forcing the delay into a range that we can handle". -/
def adjustDelay (delay : Int) : Int :=
  if delay ≤ 0 then 1
  else if i32 (delay + 1) ≤ 0 then i32 (i32 (delay + 1) - 1) else i32 (delay + 1)

/-- `wd_start`; `argc` is the length of `parm`. -/
def wdStart (wdog : Option WdogId) (delay : Int) (wdentry : Nat) (parm : List Nat) (s : State) :
    Int × State :=
  match wdog with
  | none => (-EINVAL, s)
  | some w =>
    if maxWdogparms < parm.length ∨ delay < 0 then (-EINVAL, s)
    else
      let s := if (s.wdog w).active then (wdCancel (some w) s).2 else s
      let s := { s with wdactivelist := wdInsert w (adjustDelay delay) s.wdactivelist }
      let s := s.setWdog w ⟨wdentry, parm, true⟩
      (OK, s.record (.start w s.ticks delay wdentry parm))

/-! ## wd_gettime -/

/-- The traversal of `wd_gettime`, accumulating lag times. -/
def accumulateLag (w : WdogId) (delay : Int) : List Entry → Int
  | [] => 0
  | curr :: rest =>
    if curr.1 = w then i32 (delay + curr.2) else accumulateLag w (i32 (delay + curr.2)) rest

/-- `wd_gettime` -/
def wdGettime (wdog : Option WdogId) (s : State) : Int :=
  match wdog with
  | none => 0
  | some w => if (s.wdog w).active then accumulateLag w 0 s.wdactivelist else 0

/-! ## wd_timer -/

/-- A call a watchdog function, a task or another interrupt handler makes. -/
inductive Request
  | start (wdog : Option WdogId) (delay : Int) (wdentry : Nat) (parm : List Nat)
  | cancel (wdog : Option WdogId)
  deriving DecidableEq

def serve (s : State) : Request → State
  | .start wdog delay wdentry parm => (wdStart wdog delay wdentry parm s).2
  | .cancel wdog => (wdCancel wdog s).2

/-- "If there is another watchdog behind this one, update its lag". -/
def inheritLag (lag : Int) : List Entry → List Entry
  | [] => []
  | head :: rest => (head.1, i32 (head.2 + lag)) :: rest

/-- One round of the loop of `wd_expiration`: the watchdog `w` with the given `lag` has been taken
from the head of the list, which leaves `rest`; its function makes the calls `body`. -/
def expireHead (lag : Int) (rest : List Entry) (body : List Request) (s : State) :
    State :=
  let s := { s with wdactivelist := inheritLag lag rest }
  let d := s.wdog w
  let s := s.setWdog w { d with active := false }
  if d.parm.length ≤ maxWdogparms then
    body.foldl serve (s.record (.run w s.ticks d.func d.parm))
  else s

/-- The loop of `wd_expiration`. The first argument bounds the number of rounds, the second counts
them. -/
def expirationLoop (body : Nat → List Request) : Nat → Nat → State → State
  | 0, _, s => s
  | fuel + 1, k, s =>
    match s.wdactivelist with
    | [] => s
    | (w, lag) :: rest =>
      if lag ≤ 0 then expirationLoop body fuel (k + 1) (expireHead w lag rest (body k) s)
      else s

/-- `wd_expiration`: each round removes one of the entries that were active at the start. -/
def wdExpiration (body : Nat → List Request) (s : State) : State :=
  expirationLoop body s.wdactivelist.length 0 s

/-- `wd_timer`, called on each timer interrupt. -/
def wdTimer (body : Nat → List Request) (s : State) : State :=
  let s := { s with ticks := s.ticks + 1 }
  match s.wdactivelist with
  | [] => s
  | (w, lag) :: rest => wdExpiration body { s with wdactivelist := (w, i32 (lag - 1)) :: rest }

/-! ## The list operations as delta queue operations -/

/-- Lags that are not negative and sum up, read from `b`, to at most the largest `int32_t`. -/
structure Bounded (b : Int) (xs : List Entry) : Prop where
  nonneg : ∀ e ∈ xs, 0 ≤ e.2
  bound : ∀ e ∈ deadlines b xs, e.2 ≤ int32Max

variable {xs : List Entry} {b : Int} {e : Entry}

theorem Bounded.head (h : Bounded b (e :: xs)) : 0 ≤ e.2 ∧ b + e.2 ≤ int32Max :=
  ⟨h.nonneg e List.mem_cons_self, h.bound (e.1, b + e.2) List.mem_cons_self⟩

theorem Bounded.tail (h : Bounded b (e :: xs)) : Bounded (b + e.2) xs :=
  ⟨fun x hx => h.nonneg x (List.mem_cons_of_mem _ hx),
    fun x hx => h.bound x (List.mem_cons_of_mem _ hx)⟩

/-- The sum of two or three values that are bounded together does not overflow. -/
theorem i32_of_bounded {x : Int} (hlo : 0 ≤ x) (hhi : x ≤ int32Max) : i32 x = x :=
  i32_eq_self (by omega) hhi

variable {delay : Int}

/-- The second loop and the placement, started at an entry that `b` ticks lead up to. -/
theorem placeAt_advancePastShorter (hd : 0 ≤ delay) (hdm : delay ≤ int32Max) :
    ∀ (rest : List Entry) (b : Int) (pre : List Entry) (curr : Entry),
    0 ≤ b → Bounded b (curr :: rest) →
      placeAt w delay (advancePastShorter delay (b + curr.2) pre curr rest) =
        pre ++ deltaInsert w (delay - b) (curr :: rest) := by
  unfold int32Max at hdm
  -- where the loop stops because the next deadline lies behind `delay`
  have hstop : ∀ (b : Int) (pre : List Entry) (curr : Entry) (rest : List Entry), 0 ≤ b →
      Bounded b (curr :: rest) → delay < b + curr.2 →
      placeAt w delay (b + curr.2, pre, curr, rest) =
        pre ++ deltaInsert w (delay - b) (curr :: rest) := by
    intro b pre curr rest hb hbd hlt
    obtain ⟨h0, hm⟩ := hbd.head
    unfold int32Max at hm
    have e1 : i32 (b + curr.2 - curr.2) = b := by
      rw [i32_eq_self (by omega) (by omega)]; omega
    have e2 : i32 (delay - b) = delay - b := i32_eq_self (by omega) (by omega)
    have e3 : i32 (curr.2 - (delay - b)) = curr.2 - (delay - b) :=
      i32_eq_self (by omega) (by omega)
    have hlt' : delay - b < curr.2 := by omega
    simp only [placeAt, if_pos hlt, e1, e2, e3, deltaInsert, if_pos hlt']
  intro rest
  induction rest with
  | nil =>
    intro b pre curr hb hbd
    by_cases hlt : delay < b + curr.2
    · exact hstop b pre curr [] hb hbd hlt
    · obtain ⟨h0, hm⟩ := hbd.head
      have e1 : i32 (delay - (b + curr.2)) = delay - b - curr.2 := by
        rw [i32_eq_self (by omega) (by omega)]; omega
      have hlt' : ¬ delay - b < curr.2 := by omega
      simp only [advancePastShorter, placeAt, if_neg hlt, e1, deltaInsert, if_neg hlt']
  | cons next rest ih =>
    intro b pre curr hb hbd
    obtain ⟨h0, hm⟩ := hbd.head
    obtain ⟨hn0, hnm⟩ := hbd.tail.head
    by_cases hle : b + curr.2 ≤ delay
    · have hlt' : ¬ delay - b < curr.2 := by omega
      have hsub : delay - b - curr.2 = delay - (b + curr.2) := by omega
      rw [advancePastShorter, if_pos hle, i32_of_bounded (by omega) hnm,
        ih (b + curr.2) (pre ++ [curr]) next (by omega) hbd.tail]
      simp [deltaInsert, hlt', hsub]
    · rw [advancePastShorter, if_neg hle]
      exact hstop b pre curr (next :: rest) hb hbd (by omega)

theorem wdInsert_eq (hd : 0 ≤ delay) (hdm : delay ≤ int32Max) (hxs : Bounded 0 xs) :
    wdInsert w delay xs = deltaInsert w delay xs := by
  cases xs with
  | nil => rfl
  | cons head tail =>
    obtain ⟨h0, hm⟩ := hxs.head
    have hi : i32 (0 + head.2) = 0 + head.2 := i32_of_bounded (by omega) hm
    have hpos : advanceToPositive 0 [] head tail = (0 + head.2, [], head, tail) := by
      cases tail with
      | nil => simp only [advanceToPositive, hi]
      | cons next rest =>
        have hneg : ¬ 0 + head.2 < 0 := by omega
        simp only [advanceToPositive, hi, if_neg hneg]
    have h := placeAt_advancePastShorter w hd hdm tail 0 [] head le_rfl hxs
    simp only [wdInsert, hpos, h, List.nil_append, sub_zero]

theorem removeEntry_eq (w : WdogId) : ∀ (b : Int) (xs : List Entry), 0 ≤ b → Bounded b xs →
    removeEntry w xs = deltaRemove w xs
  | _, [], _, _ => rfl
  | b, curr :: rest, hb, hxs => by
    obtain ⟨h0, hm⟩ := hxs.head
    by_cases hw : curr.1 = w
    · cases rest with
      | nil => simp [removeEntry, deltaRemove, hw, addLag]
      | cons next rest =>
        obtain ⟨hn0, hnm⟩ := hxs.tail.head
        have hi : i32 (next.2 + curr.2) = next.2 + curr.2 :=
          i32_of_bounded (by omega) (by omega)
        simp [removeEntry, deltaRemove, hw, addLag, hi]
    · simp [removeEntry, deltaRemove, hw,
        removeEntry_eq w (b + curr.2) rest (by omega) hxs.tail]

/-- Behind an entry that is exactly due no lag changes. -/
theorem inheritLag_zero (hb : 0 ≤ b) (hxs : Bounded b xs) : inheritLag 0 xs = xs := by
  cases xs with
  | nil => rfl
  | cons head rest =>
    obtain ⟨h0, hm⟩ := hxs.head
    simp [inheritLag, i32_of_bounded h0 (by omega : head.2 ≤ int32Max)]

theorem accumulateLag_eq (w : WdogId) : ∀ (b : Int) (xs : List Entry) (d : Int), 0 ≤ b →
    Bounded b xs → (xs.map Prod.fst).Nodup → (w, d) ∈ deadlines b xs → accumulateLag w b xs = d
  | _, [], _, _, _, _, hmem => absurd hmem List.not_mem_nil
  | b, curr :: rest, d, hb, hxs, hn, hmem => by
    obtain ⟨h0, hm⟩ := hxs.head
    obtain ⟨hnot, hn⟩ := List.nodup_cons.1 hn
    have hi : i32 (b + curr.2) = b + curr.2 := i32_of_bounded (by omega) hm
    by_cases hw : curr.1 = w
    · rcases List.mem_cons.1 hmem with heq | hmem
      · rw [Prod.mk.injEq] at heq
        simp [accumulateLag, hw, hi, heq.2]
      · have hkey : w ∈ (deadlines (b + curr.2) rest).map Prod.fst :=
          List.mem_map_of_mem (f := Prod.fst) hmem
        rw [deadlines_keys] at hkey
        exact absurd (hw ▸ hkey) hnot
    · have hmem' : (w, d) ∈ deadlines (b + curr.2) rest := by
        rcases List.mem_cons.1 hmem with heq | hmem
        · rw [Prod.mk.injEq] at heq
          exact absurd heq.1.symm hw
        · exact hmem
      simp only [accumulateLag, if_neg hw, hi]
      exact accumulateLag_eq w (b + curr.2) rest d (by omega) hxs.tail hn hmem'

end BaseNx.Wdog
