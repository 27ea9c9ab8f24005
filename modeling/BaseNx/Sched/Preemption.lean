import BaseNx.Sched.Runs

/-!
# The scheduler lock

What `sched_lock` is for: a ready task of higher priority becomes pending, and the running task
keeps the CPU (`locked_task_keeps_running`). `up_unblock_task` and `up_reprioritize_rtr` are those
of `arch/arm/src/armv7-m`: pending tasks are merged only for a context switch, without a look at the
lock. Left out are a call of `up_block_task`, which a task makes for itself, and a change of its own
priority.
-/

namespace BaseNx.Sched

open Lib List

namespace Arm

variable (s : SchedState) (tcb : TaskId)

/-- `up_unblock_task` -/
def upUnblockTask : Option SchedState :=
  (schedAddreadytorun (schedRemoveblocked s tcb) tcb).map Prod.snd

/-- `up_reprioritize_rtr`, for a ready task and a valid priority -/
def upReprioritizeRtr (priority : Nat) : Option SchedState := do
  let (removed, s) ← schedRemovereadytorun s tcb
  let (added, s) ← schedAddreadytorun (s.setPriority tcb priority) tcb
  if (removed ^^ added) = true ∧ s.list .pendingtasks ≠ [] then schedMergepending s else some s

/-- `nxsched_setpriority` -/
def nxschedSetpriority (schedPriority : Int) : Option SchedState :=
  if schedPriority < schedPriorityMin ∨ schedPriorityMax < schedPriority then some s
  else
    let p := u8 schedPriority.toNat
    match s.taskState tcb with
    | .running =>
      match flink tcb (s.list .readytorun) with
      | none => none
      | some nxttcb =>
        if p ≤ s.schedPriority nxttcb then upReprioritizeRtr s tcb p else some (s.setPriority tcb p)
    | .readytorun =>
      match s.thisTask with
      | none => none
      | some rtcb =>
        if s.schedPriority rtcb < p then upReprioritizeRtr s tcb p else some (s.setPriority tcb p)
    | _ => some (schedBlockedSetpriority s tcb p)

/-- What happens while a task keeps the lock. -/
inductive Op
  | unblock (t : TaskId)
  | lock
  | unlock
  | setpriority (t : TaskId) (p : Int)

def Op.apply : Op → Option SchedState
  | .unblock t => upUnblockTask s t
  | .lock => schedLock s
  | .unlock => schedUnlock s
  | .setpriority t p => nxschedSetpriority s t p

/-- `r` keeps its priority and a lock, whose count does not overflow. -/
def Op.Spares (r : TaskId) : Op → Prop
  | .unblock t => (s.taskState t).isBlocked = true
  | .lock => s.lockcount r < int16Max
  | .unlock => 1 < s.lockcount r
  | .setpriority t _ => t ≠ r

end Arm

/-- The task `r`, and no other, runs and holds the scheduler lock. -/
structure Locked (r : TaskId) (s : SchedState) : Prop where
  this : s.thisTask = some r
  count : 0 < s.lockcount r
  max : s.lockcount r ≤ int16Max
  alone : ∀ t, s.taskState t = .running → t = r

namespace Locked

variable {r t : TaskId} {s s' : SchedState} (h : Locked r s)
include h

theorem congr (hl : s'.list .readytorun = s.list .readytorun) (hc : s'.lockcount = s.lockcount)
    (hst : ∀ t, s'.taskState t = .running → s.taskState t = .running) : Locked r s' :=
  ⟨(congrArg head? hl).trans h.this, hc ▸ h.count, hc ▸ h.max, fun t ht => h.alone t (hst t ht)⟩

theorem setPriority (p : Nat) : Locked r (s.setPriority t p) := h.congr rfl rfl fun _ => id

theorem setState {st : TState} (hst : st ≠ .running) : Locked r (s.setState t st) := by
  refine h.congr rfl rfl fun u hu => ?_
  by_cases hut : u = t <;> simp_all

theorem removereadytorun (ht : t ≠ r) :
    ∃ s', schedRemovereadytorun s t = some (false, s') ∧ Locked r s' := by
  obtain ⟨rest, hl⟩ := head?_eq_some_iff.1 h.this
  rw [schedRemovereadytorun, hl]
  have hrem : Locked r (s.dqRem t .readytorun) :=
    ⟨by simp [SchedState.thisTask, hl, ht.symm], h.count, h.max, h.alone⟩
  exact ⟨_, if_neg ht.symm, hrem.setState (by decide)⟩

/-- A task of higher priority becomes pending, another one goes behind the running task. -/
theorem addreadytorun (t : TaskId) :
    ∃ s', schedAddreadytorun s t = some (false, s') ∧ Locked r s' := by
  obtain ⟨rest, hl⟩ := head?_eq_some_iff.1 h.this
  rw [schedAddreadytorun, h.this]
  by_cases hlt : s.schedPriority r < s.schedPriority t
  · have hadd : Locked r (schedAddprioritized s t .pendingtasks).2 := h.congr rfl rfl fun _ => id
    exact ⟨_, if_pos ⟨h.count, hlt⟩, hadd.setState (by decide)⟩
  · have hadd : Locked r (schedAddprioritized s t .readytorun).2 := by
      refine ⟨?_, h.count, h.max, h.alone⟩
      simp [SchedState.thisTask, schedAddprioritized, insertPrioritized, insertWhere, hl,
        not_lt.1 hlt]
    refine ⟨_, (if_neg fun hp => hlt hp.2).trans ?_,
      hadd.setState (t := t) (show TState.readytorun ≠ _ by decide)⟩
    simp only [schedAddprioritized, hl, head?_cons, hlt, decide_false]

theorem setpriority (ht : t ≠ r) (p : Int) :
    ∃ s', Arm.nxschedSetpriority s t p = some s' ∧ Locked r s' := by
  unfold Arm.nxschedSetpriority
  split_ifs with hbad
  · exact ⟨s, rfl, h⟩
  cases hst : s.taskState t with
  | running => exact absurd (h.alone t hst) ht
  | readytorun =>
    simp only [h.this]
    split_ifs
    · -- the head of the list stays, so that nothing is merged
      obtain ⟨s₁, hs₁, h₁⟩ := h.removereadytorun ht
      obtain ⟨s₂, hs₂, h₂⟩ := (h₁.setPriority (t := t) (u8 p.toNat)).addreadytorun t
      exact ⟨s₂, by simp [Arm.upReprioritizeRtr, hs₁, hs₂], h₂⟩
    · exact ⟨_, rfl, h.setPriority _⟩
  | _ =>
    -- the task is in another list
    refine ⟨_, rfl, ?_⟩
    simp only [schedBlockedSetpriority, hst, TState.tlist, TaskList.isPrioritized]
    exact h.congr (by simp [schedAddprioritized]) rfl fun _ => id

theorem apply {op : Arm.Op} (hop : op.Spares s r) : ∃ s', op.apply s = some s' ∧ Locked r s' := by
  have hpos := h.count
  have hmax := h.max
  unfold int16Max at hmax
  cases op with
  | unblock t =>
    have h₀ : Locked r (schedRemoveblocked s t) := by
      obtain ⟨l, hl, hlr, -⟩ := TState.tlist_of_isBlocked hop
      rw [schedRemoveblocked, hl]
      have hrem : Locked r (s.dqRem t l) := h.congr (by simp [hlr.symm]) rfl fun _ => id
      exact hrem.setState (by decide)
    obtain ⟨s₁, hs₁, h₁⟩ := h₀.addreadytorun t
    exact ⟨s₁, by simp [Arm.Op.apply, Arm.upUnblockTask, hs₁], h₁⟩
  | lock =>
    unfold Arm.Op.Spares int16Max at hop
    refine ⟨_, (schedLock_spec h.this hpos.le hop).1, h.this, ?_, ?_, h.alone⟩
    all_goals
      simp only [Function.update_self, int16Max]
      omega
  | unlock =>
    unfold Arm.Op.Spares at hop
    refine ⟨{ s with lockcount := Function.update s.lockcount r (s.lockcount r - 1) }, ?_, h.this,
      ?_, ?_, h.alone⟩
    · simp only [Arm.Op.apply, schedUnlock, h.this, if_pos hpos]
      rw [i16_eq_self (by omega) (by omega), if_neg (by omega)]
    all_goals
      simp only [Function.update_self, int16Max]
      omega
  | setpriority t p => exact h.setpriority hop p

end Locked

/-- A task that holds the scheduler lock keeps the CPU while others are unblocked and given other
priorities, in any order, and no operation follows a `NULL` link. -/
theorem locked_task_keeps_running {r : TaskId} {s s' : SchedState} (h : WellPlaced s)
    (hr : s.thisTask = some r) (hlock : 0 < s.lockcount r) (hmax : s.lockcount r ≤ int16Max)
    (hrun : Reach (fun t => t = s)
      (LabelledStep (fun s (op : Arm.Op) => op.Spares s r) Arm.Op.apply) s') :
    s'.thisTask = some r ∧ 0 < s'.lockcount r ∧
      ∀ op : Arm.Op, op.Spares s' r → (op.apply s').isSome = true := by
  have hs' : Locked r s' := by
    refine Reach.labelled ?_ (fun _ _ hl hop => hl.apply hop) hrun
    rintro t rfl
    exact ⟨hr, hlock, hmax, fun t ht => Option.some.inj (((h.running t).1 ht).symm.trans hr)⟩
  refine ⟨hs'.this, hs'.count, fun op hop => ?_⟩
  obtain ⟨_, heq, -⟩ := hs'.apply hop
  rw [heq]
  rfl

/-- A task of priority 50 is ready and has taken the lock. -/
def sampleLocked : SchedState := after Op.apply sampleBoot [.unblock 2, .lock]

theorem sampleLocked_placed : WellPlaced sampleLocked := by
  have hreach : Reach (Boot 0) (StepWith (fun s op => op.Fits s) 0) sampleLocked :=
    Reach.after _ (.start sampleBoot_boot) ⟨⟨by decide, trivial⟩, rfl,
      ⟨trivial, fun _ _ => show (0 : Int) < int16Max by decide⟩, rfl, trivial⟩
  exact (reach_consistent hreach).placed

/-- The task of priority 100 has to wait. -/
theorem locked_task_keeps_running_sample :
    (after Arm.Op.apply sampleLocked [.unblock 1]).thisTask = some 2 ∧
      (after Arm.Op.apply sampleLocked [.unblock 1]).list .pendingtasks = [1] := by
  have hrun : Reach (fun t => t = sampleLocked)
      (LabelledStep (fun s (op : Arm.Op) => op.Spares s 2) Arm.Op.apply)
      (after Arm.Op.apply sampleLocked [.unblock 1]) :=
    Reach.after _ (.start rfl) ⟨show _ = _ by decide, rfl, trivial⟩
  have hkeeps := locked_task_keeps_running sampleLocked_placed (by decide) (by decide)
    (by decide) hrun
  exact ⟨hkeeps.1, by decide⟩

end BaseNx.Sched
