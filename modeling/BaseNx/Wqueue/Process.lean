import BaseNx.Errno
import BaseNx.Lib.MachineInt

/-!
# Kernel work queues

`work_queue`, `work_cancel` and `work_process` on one queue of work items, served by any number of
worker threads. A pass of `work_process` is cut where the critical section is left: it ends in a
callback, which the thread is inside until it returns, or at the end of the list, where the thread
sleeps or waits for a signal.

Beside the variables of the source the state keeps the calls of `work_queue` in their order, with
the time in ticks that do not wrap. The number of a call goes with its item (`serial`), so that one
can say which call an invocation belongs to.
-/

namespace BaseNx.Wqueue

open Lib

universe u v

/-! ## State -/

/-- `struct work_s`; the item is queued by the call `serial`. -/
structure Work where
  worker : Option Nat
  arg : Nat
  delay : Nat
  qtime : Nat
  serial : Nat
  deriving DecidableEq

/-- Where a worker thread is: between two passes, in a callback of a pass that began at `stick`, or
at the end of a pass. -/
inductive Phase
  | outside
  | running (stick next : Nat)
  | sleeping
  | waiting
  deriving DecidableEq

/-- A call of `work_queue`, made when there were `ahead` items on the queue. -/
structure QueueCall where
  worker : Nat
  arg : Nat
  delay : Nat
  time : Nat
  ahead : Nat
  deriving DecidableEq

/-- A callback that was started. -/
structure Invocation where
  serial : Nat
  worker : Nat
  arg : Nat
  time : Nat
  deriving DecidableEq

/-- A scan of the list, after the first `calls` calls; `finished` says whether it came to the end of
the list, and otherwise it ended in a callback. -/
structure Scan where
  time : Nat
  calls : Nat
  finished : Bool
  deriving DecidableEq

/-- The queue, its items and the worker threads, with what has happened: the calls in their order,
the callbacks, the calls whose item was cancelled or queued again, the scans, and the sleeps that
were requested (the ticks, and the ticks left for each item of the queue). -/
structure WorkQueue (α : Type u) (ω : Type v) where
  now : Nat
  queue : List α
  item : α → Work
  phase : ω → Phase
  calls : List QueueCall
  invoked : List Invocation
  cancelled : List Nat
  requeued : List Nat
  scans : List Scan
  sleeps : List (Nat × List Nat)

/-! ## The functions of the source -/

section Functions

variable {α : Type u} {ω : Type v} [DecidableEq α] [DecidableEq ω] (s : WorkQueue α ω)

/-- `clock_systimer` -/
def WorkQueue.clockSystimer : Nat := u32 s.now

variable (a : α) (worker arg delay : Nat)

def WorkQueue.setItem (w : Work) : WorkQueue α ω :=
  { s with item := Function.update s.item a w }

def WorkQueue.setPhase (w : ω) (p : Phase) : WorkQueue α ω :=
  { s with phase := Function.update s.phase w p }

/-- `dq_rem` of an item -/
def WorkQueue.dqRem : WorkQueue α ω := { s with queue := s.queue.erase a }

/-- The first lines of `work_qqueue`: an item that is queued is taken off the queue. -/
def WorkQueue.unqueue : WorkQueue α ω :=
  if (s.item a).worker ≠ none then
    { s.dqRem a with requeued := (s.item a).serial :: s.requeued }
  else s

/-- The rest of `work_qqueue`. -/
def WorkQueue.enqueue : WorkQueue α ω :=
  { s.setItem a ⟨some worker, arg, delay, s.clockSystimer, s.calls.length⟩ with
    queue := s.queue ++ [a]
    calls := s.calls ++ [⟨worker, arg, delay, s.now, s.queue.length⟩] }

/-- `work_qqueue` -/
def workQqueue : WorkQueue α ω :=
  (s.unqueue a).enqueue a worker arg delay

/-- `work_qcancel` -/
def workQcancel : Int × WorkQueue α ω :=
  if (s.item a).worker ≠ none then
    (OK, { (s.dqRem a).setItem a { s.item a with worker := none } with
      cancelled := (s.item a).serial :: s.cancelled })
  else (-ENOENT, s)

/-- The ticks since an item was queued. -/
def elapsed (ctick : Nat) (w : Work) : Nat := sub32 ctick w.qtime

/-- The ticks left for an item that is not ready, less the ticks since the beginning of the pass;
the sum is a `clock_t`. -/
def remaining (ctick stick : Nat) (w : Work) : Nat :=
  let sum := u32 (elapsed ctick w + sub32 ctick stick)
  sub32 w.delay (if w.delay < sum then w.delay else sum)

/-- The loop of `work_process` over the list, until the first item that is ready. -/
def scan (ctick stick : Nat) (item : α → Work) : List α → Nat → Option α × Nat
  | [], next => (none, next)
  | a :: rest, next =>
    if (item a).delay ≤ elapsed ctick (item a) then (some a, next)
    else
      scan ctick stick item rest
        (if remaining ctick stick (item a) < next then remaining ctick stick (item a) else next)

/-- The ticks until an item is ready. -/
def WorkQueue.ticksLeft : Nat := (s.item a).delay - elapsed s.clockSystimer (s.item a)

def WorkQueue.logScan (finished : Bool) : WorkQueue α ω :=
  { s with scans := ⟨s.now, s.calls.length, finished⟩ :: s.scans }

/-- The end of `work_process`: with the period zero the thread waits for a signal, and otherwise it
sleeps for what is left of the period or until an item is ready. -/
def WorkQueue.finish (period : Nat) (w : ω) (stick next : Nat) : WorkQueue α ω :=
  if period = 0 then s.setPhase w .waiting
  else
    let elapsed := sub32 s.clockSystimer stick
    if elapsed < period ∧ 0 < next then
      { s.setPhase w .sleeping with
        sleeps := (min next (sub32 period elapsed), s.queue.map s.ticksLeft) :: s.sleeps }
    else s.setPhase w .outside

/-- The start of a callback. -/
def WorkQueue.invoke (worker : Nat) : WorkQueue α ω :=
  { s.setItem a { s.item a with worker := none } with
    invoked := ⟨(s.item a).serial, worker, (s.item a).arg, s.now⟩ :: s.invoked }

/-- A pass from the head of the list to the next callback or to its end. An item without a worker is
taken off the list, and `dq_rem` has cleared its link, so the loop ends there. -/
def WorkQueue.pass (period : Nat) (w : ω) (stick next : Nat) : WorkQueue α ω :=
  let found := scan s.clockSystimer stick s.item s.queue next
  match found.1 with
  | none => (s.logScan true).finish period w stick found.2
  | some a =>
    match (s.item a).worker with
    | some worker =>
      (((s.logScan false).dqRem a).invoke a worker).setPhase w (.running stick found.2)
    | none => (s.dqRem a).finish period w stick found.2

/-- `work_process` up to its first callback or its end -/
def workProcess (period : Nat) (w : ω) : WorkQueue α ω := s.pass period w s.clockSystimer period

end Functions

/-! ## One scan -/

section Scan

variable {α : Type u} {ctick stick : Nat} {item : α → Work}

theorem scan_some [DecidableEq α] : ∀ (queue : List α) {next : Nat} {a : α},
    (scan ctick stick item queue next).1 = some a →
      a ∈ queue ∧ (item a).delay ≤ elapsed ctick (item a) ∧
        ∀ b ∈ queue, (item b).delay ≤ elapsed ctick (item b) →
          queue.idxOf a ≤ queue.idxOf b := by
  intro queue
  induction queue with
  | nil => exact nofun
  | cons b rest ih =>
    intro next a h
    rw [scan] at h
    by_cases hready : (item b).delay ≤ elapsed ctick (item b)
    · rw [if_pos hready] at h
      cases h
      exact ⟨List.mem_cons_self, hready, fun _ _ _ => by simp⟩
    · rw [if_neg hready] at h
      obtain ⟨hmem, hdue, hfirst⟩ := ih h
      -- the head is not ready, so it is neither of the two items
      have hne : ∀ c, (item c).delay ≤ elapsed ctick (item c) → b ≠ c :=
        fun c hc heq => hready (heq ▸ hc)
      refine ⟨List.mem_cons_of_mem b hmem, hdue, fun c hc hcdue => ?_⟩
      rw [List.idxOf_cons_ne rest (hne a hdue), List.idxOf_cons_ne rest (hne c hcdue)]
      rcases List.mem_cons.1 hc with rfl | hc
      · exact absurd rfl (hne c hcdue)
      · exact Nat.succ_le_succ (hfirst c hc hcdue)

/-- A scan to the end of the list found no item ready, and `next` is at most what remains for each
of them. -/
theorem scan_none : ∀ (queue : List α) {next : Nat}, (scan ctick stick item queue next).1 = none →
      (scan ctick stick item queue next).2 ≤ next ∧
        ∀ a ∈ queue, elapsed ctick (item a) < (item a).delay ∧
          (scan ctick stick item queue next).2 ≤ remaining ctick stick (item a) := by
  intro queue
  induction queue with
  | nil => exact fun _ => ⟨le_refl _, nofun⟩
  | cons b rest ih =>
    intro next h
    rw [scan] at h ⊢
    by_cases hready : (item b).delay ≤ elapsed ctick (item b)
    · rw [if_pos hready] at h
      cases h
    · rw [if_neg hready] at h ⊢
      obtain ⟨hle, hall⟩ := ih h
      -- `next` goes on as the smaller of the two
      generalize hn : (if remaining ctick stick (item b) < next
        then remaining ctick stick (item b) else next) = next' at *
      have hmin : next' ≤ next ∧ next' ≤ remaining ctick stick (item b) := by
        rw [← hn]
        split <;> omega
      refine ⟨hle.trans hmin.1, fun a ha => ?_⟩
      rcases List.mem_cons.1 ha with rfl | ha
      · exact ⟨not_le.1 hready, hle.trans hmin.2⟩
      · exact hall a ha

/-- As long as the sum of the ticks does not wrap, what remains is at most the ticks left. -/
theorem remaining_le {w : Work} (hdelay : w.delay < 4294967296)
    (hwrap : elapsed ctick w + sub32 ctick stick < 4294967296) :
    remaining ctick stick w ≤ w.delay - elapsed ctick w := by
  simp only [remaining, u32_eq_self hwrap]
  split
  · rw [sub32_eq_self hdelay (le_refl _)]
    omega
  · rw [sub32_eq_self hdelay (by omega)]
    omega

/-- The clock counts the ticks between two times, less its full turns. -/
theorem sub32_u32 {x y : Nat} (h : y ≤ x) : sub32 (u32 x) (u32 y) = (x - y) % 4294967296 := by
  simp only [sub32, u32]
  omega

end Scan

end BaseNx.Wqueue
