import BaseNx.Lib.Reach
import BaseNx.Sched.Operations

/-!
# The task lists on every run of the scheduler

Any sequence of blocking, unblocking, locking, unlocking and changing priorities. The structure of
the lists, `WellPlaced`, survives every such sequence. Their order does not:
`readytorun_setpriority_breaks_order` is a run on which `nxsched_setpriority` leaves a ready task at
a place that does not belong to its new priority, because the calls that would move it are compiled
out together with the assertions around them. `task_lists_consistent` is what holds on all runs that
write a priority in place only where it fits.
-/

namespace BaseNx.Sched

open Lib

/-! ## Runs -/

/-- What tasks and interrupt handlers ask of the scheduler. -/
inductive Op
  | block (t : TaskId) (st : TState)
  | unblock (t : TaskId)
  | lock
  | unlock
  | setpriority (t : TaskId) (p : Int)
  deriving DecidableEq

def Op.apply (s : SchedState) : Op → Option SchedState
  | .block t st => upBlockTask s t st
  | .unblock t => upUnblockTask s t
  | .lock => schedLock s
  | .unlock => schedUnlock s
  | .setpriority t p => (nxschedSetpriority s t p).map Prod.snd

/-- What a caller has to observe: a task that is blocked is ready before, a task that is unblocked
is blocked before, and the idle task neither blocks nor changes its priority. -/
def Op.Callable (idle : TaskId) (s : SchedState) : Op → Prop
  | .block t st => t ∈ s.list .readytorun ∧ t ≠ idle ∧ st.isBlocked = true
  | .unblock t => (s.taskState t).isBlocked = true
  | .lock => True
  | .unlock => True
  | .setpriority t _ => t ≠ idle

instance (idle : TaskId) (s : SchedState) (op : Op) : Decidable (op.Callable idle s) := by
  cases op <;> unfold Op.Callable <;> infer_instance

/-- The condition under which the lists stay in order: a valid new priority is written in place only
where it fits, and the lock count does not overflow. -/
def Op.Fits (s : SchedState) : Op → Prop
  | .setpriority t p =>
    schedPriorityMin ≤ p → p ≤ schedPriorityMax → InPlaceOk s t p.toNat
  | .lock => ∀ r, s.thisTask = some r → s.lockcount r < int16Max
  | _ => True

/-- The state in which the idle task starts the system: all other tasks that exist are inactive. -/
structure Boot (idle : TaskId) (s : SchedState) : Prop where
  ready : s.list .readytorun = [idle]
  inactive : (s.list .inactivetasks).Nodup ∧ idle ∉ s.list .inactivetasks
  empty : ∀ l, l ≠ .readytorun → l ≠ .inactivetasks → s.list l = []
  states : ∀ t, s.taskState t = if t = idle then .running
    else if t ∈ s.list .inactivetasks then .inactive else .invalid
  lowest : s.schedPriority idle = 0
  priority : ∀ t, t ≠ idle → 1 ≤ s.schedPriority t
  unlocked : ∀ t, s.lockcount t = 0

/-! ## The invariant -/

/-- The invariant of the scheduler. -/
structure Consistent (idle : TaskId) (s : SchedState) : Prop where
  placed : WellPlaced s
  idle : IdleOk idle s
  ordered : Ordered s
  lock : LockOk s
  counts : ∀ t, 0 ≤ s.lockcount t ∧ s.lockcount t ≤ int16Max

section Consistent

variable {idle : TaskId} {s : SchedState}

theorem Boot.consistent (h : Boot idle s) : Consistent idle s := by
  have hidle : idle ∉ s.list .inactivetasks := h.inactive.2
  refine ⟨⟨?_, ?_, ?_⟩, ⟨by simp [h.ready], h.lowest, h.priority⟩, ?_, ?_, ?_⟩
  · intro l
    by_cases hr : l = .readytorun
    · simp [hr, h.ready]
    · by_cases hi : l = .inactivetasks
      · rw [hi]
        exact h.inactive.1
      · rw [h.empty l hr hi]
        exact List.nodup_nil
  · intro l t
    rw [h.states]
    split_ifs with ht hm
    all_goals
      by_cases hr : l = .readytorun
      · simp_all [TState.tlist, h.ready]
      · by_cases hi : l = .inactivetasks
        · simp_all [TState.tlist]
        · simp_all [TState.tlist, h.empty l hr hi, eq_comm]
  · intro t
    rw [h.states, SchedState.thisTask, h.ready]
    by_cases ht : t = idle
    · simp [ht]
    · by_cases hm : t ∈ s.list .inactivetasks <;> simp [ht, hm, Ne.symm ht]
  · intro l hl
    by_cases hr : l = .readytorun
    · rw [hr, h.ready]
      exact List.pairwise_singleton _ _
    · have hi : l ≠ .inactivetasks := by
        rintro rfl
        simp [TaskList.isPrioritized] at hl
      rw [h.empty l hr hi]
      exact List.Pairwise.nil
  · intro hne
    exact absurd (h.empty .pendingtasks (by decide) (by decide)) hne
  · intro t
    rw [h.unlocked t]
    decide

/-- An operation of which the caller observes the rules succeeds, and if it fits it keeps the
invariant. -/
theorem Consistent.apply (h : Consistent idle s) {op : Op} (hc : op.Callable idle s)
    (hf : op.Fits s) : ∃ s', op.apply s = some s' ∧ Consistent idle s' := by
  cases op with
  | block t st =>
    obtain ⟨ht, hti, hst⟩ := hc
    obtain ⟨l, hl, -⟩ := TState.tlist_of_isBlocked hst
    obtain ⟨s', hs', hout, -⟩ := upBlockTask_spec h.placed h.idle ht hti hst hl
    refine ⟨s', hs', hout.placed, hout.idle, hout.ordered h.ordered, hout.lock, ?_⟩
    rw [hout.kept.lockcount]
    exact h.counts
  | unblock t =>
    obtain ⟨l, hl, -⟩ := TState.tlist_of_isBlocked hc
    obtain ⟨s', hs', hout, -⟩ := upUnblockTask_spec h.placed h.idle hc hl
    refine ⟨s', hs', hout.placed, hout.idle, hout.ordered h.ordered, hout.lock, ?_⟩
    rw [hout.kept.lockcount]
    exact h.counts
  | lock =>
    obtain ⟨r, hr⟩ := h.idle.thisTask_isSome
    have hmax := hf r hr
    obtain ⟨hs', hlock⟩ := schedLock_spec hr (h.counts r).1 hmax
    refine ⟨_, hs', h.placed.setLockcount _, ⟨h.idle.ready, h.idle.lowest, h.idle.others⟩,
      h.ordered, hlock, ?_⟩
    intro t
    by_cases ht : t = r
    · subst ht
      have := (h.counts t).1
      simp only [Function.update_self]
      omega
    · simp only [Function.update_of_ne ht]
      exact h.counts t
  | unlock =>
    obtain ⟨r, hr⟩ := h.idle.thisTask_isSome
    obtain ⟨s', hs', hpl, hid, hlo, hor, -, -, -, hcnt⟩ :=
      schedUnlock_spec h.placed h.idle hr h.counts
    exact ⟨s', hs', hpl, hid, hor h.ordered, hlo,
      fun t => ⟨(hcnt t).1, (hcnt t).2.trans (h.counts t).2⟩⟩
  | setpriority t p =>
    by_cases hrange : schedPriorityMin ≤ p ∧ p ≤ schedPriorityMax
    · obtain ⟨s', hs', hrep, hord⟩ :=
        nxschedSetpriority_spec h.placed h.idle hc hrange.1 hrange.2
      refine ⟨s', by simp [Op.apply, hs'], hrep.placed, hrep.idle,
        hord h.ordered (hf hrange.1 hrange.2), hrep.lock h.lock, ?_⟩
      rw [hrep.kept.lockcount]
      exact h.counts
    · refine ⟨s, ?_, h⟩
      have hbad : p < schedPriorityMin ∨ schedPriorityMax < p := by omega
      simp [Op.apply, nxschedSetpriority, hbad]

end Consistent

/-! ## Results -/

/-- A step of a run: some operation, of which the caller observes the rules and which satisfies
`ok`. -/
def StepWith (ok : SchedState → Op → Prop) (idle : TaskId) : SchedState → SchedState → Prop :=
  LabelledStep (fun s op => op.Callable idle s ∧ ok s op) Op.apply

theorem reach_consistent {idle : TaskId} {s : SchedState}
    (h : Reach (Boot idle) (StepWith (fun s op => op.Fits s) idle) s) : Consistent idle s :=
  Reach.labelled (P := Consistent idle) (fun _ => Boot.consistent)
    (fun _ _ hs hop => hs.apply hop.1 hop.2) h

/-- On every run whose changes of priority fit: each task is in exactly the list that its state
names, once; the prioritized lists are in descending order of priority; exactly the head of the
ready-to-run list is running and all other tasks in it are ready; tasks are pending only while the
running task holds the scheduler lock; and no operation follows a `NULL` link. -/
theorem task_lists_consistent {idle : TaskId} {s : SchedState}
    (h : Reach (Boot idle) (StepWith (fun s op => op.Fits s) idle) s) :
    (∀ t l, t ∈ s.list l ↔ (s.taskState t).tlist = some l) ∧ (∀ l, (s.list l).Nodup) ∧
    (∀ l, l.isPrioritized = true →
      (s.list l).Pairwise fun a b => s.schedPriority b ≤ s.schedPriority a) ∧
    (∀ t ∈ s.list .readytorun,
      s.taskState t = if s.thisTask = some t then .running else .readytorun) ∧
    (s.list .pendingtasks ≠ [] → ∃ r, s.thisTask = some r ∧ 0 < s.lockcount r) ∧
    ∀ op : Op, op.Callable idle s → op.Fits s → (op.apply s).isSome = true := by
  have hc := reach_consistent h
  refine ⟨fun t l => hc.placed.mem l t, hc.placed.nodup, hc.ordered, ?_, hc.lock, ?_⟩
  · intro t ht
    have hrun := hc.placed.running t
    rcases hc.placed.state_of_mem_readytorun ht with hst | hst
    · rw [if_pos (hrun.1 hst), hst]
    · rw [if_neg fun hh => TState.noConfusion (hst.symm.trans (hrun.2 hh)), hst]
  · intro op hop hf
    obtain ⟨s', hs', -⟩ := hc.apply hop hf
    rw [hs']
    rfl

/-! ## Sample runs -/

/-- The idle task 0 and three inactive tasks of priorities 100, 50 and 40. -/
def sampleBoot : SchedState where
  schedPriority t := [0, 100, 50, 40].getD t 1
  taskState t := if t = 0 then .running else if t ∈ [1, 2, 3] then .inactive else .invalid
  lockcount _ := 0
  list
    | .readytorun => [0]
    | .inactivetasks => [1, 2, 3]
    | _ => []

theorem sampleBoot_boot : Boot 0 sampleBoot := by
  refine ⟨rfl, by decide, ?_, fun _ => rfl, rfl, ?_, fun _ => rfl⟩
  · intro l hr hi
    cases l <;> first | rfl | contradiction
  · intro t ht
    match t, ht with
    | 0, ht => exact absurd rfl ht
    | 1, _ => decide
    | 2, _ => decide
    | 3, _ => decide
    | _ + 4, _ => exact le_rfl

/-- The three tasks are activated and the priority of the second one is lowered below that of the
third: the ready-to-run list is no longer in order. -/
theorem readytorun_setpriority_breaks_order :
    ∃ s, Reach (Boot 0) (StepWith (fun _ _ => True) 0) s ∧
    TaskList.readytorun.isPrioritized = true ∧
      s.list .readytorun = [1, 2, 3, 0] ∧
      (s.list .readytorun).map s.schedPriority = [100, 30, 40, 0] ∧
      ¬ (s.list .readytorun).Pairwise fun a b => s.schedPriority b ≤ s.schedPriority a := by
  refine ⟨after Op.apply sampleBoot
    [.unblock 1, .unblock 2, .unblock 3, .setpriority 2 30], ?_, rfl, rfl, rfl, by decide⟩
  refine Reach.after _ (.start sampleBoot_boot) ?_
  exact ⟨⟨by decide, trivial⟩, rfl, ⟨by decide, trivial⟩, rfl, ⟨by decide, trivial⟩, rfl,
    ⟨by decide, trivial⟩, rfl, trivial⟩

/-- A run with a change of priority that fits in place: with only the second task behind the first
one, its priority may become anything up to 100. -/
theorem task_lists_consistent_sample :
    ∃ s, Reach (Boot 0) (StepWith (fun s op => op.Fits s) 0) s ∧
      (s.list .readytorun).map s.schedPriority = [100, 70, 0] ∧
      ∀ t ∈ s.list .readytorun,
        s.taskState t = if s.thisTask = some t then .running else .readytorun := by
  have hreach : Reach (Boot 0) (StepWith (fun s op => op.Fits s) 0)
      (after Op.apply sampleBoot
        [.unblock 1, .unblock 2, .setpriority 2 70]) := by
    refine Reach.after _ (.start sampleBoot_boot) ?_
    refine ⟨⟨by decide, trivial⟩, rfl, ⟨by decide, trivial⟩, rfl, ⟨by decide, ?_⟩, rfl, trivial⟩
    intro _ _ _ _
    refine ⟨fun a ha => ?_, fun b hb => ?_⟩
    · obtain rfl := Option.some.inj ha
      decide
    · obtain rfl := Option.some.inj hb
      decide
  exact ⟨_, hreach, rfl, (task_lists_consistent hreach).2.2.2.1⟩

end BaseNx.Sched
