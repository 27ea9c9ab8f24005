import BaseNx.Errno
import BaseNx.Lib.MachineInt
import BaseNx.Lib.OrderedInsert

/-!
# The task lists of the single-CPU scheduler

`sched/sched` without SMP: the task lists of `g_tasklisttable`, the functions that move a task from
one list to another (`schedAddreadytorun`, `schedRemovereadytorun`, `schedAddblocked`,
`schedRemoveblocked`, `schedMergepending`), the scheduler lock, `nxschedSetpriority`, and the
architecture's `upBlockTask`, `upUnblockTask` and `upReprioritizeRtr` as far as they change the
lists. A function that follows a link past the end of a list dereferences `NULL`; its result is then
`none`. Assertions are compiled out.
-/

namespace BaseNx.Sched

open Lib
open Function (update)

/-! ## Tasks and lists -/

/-- A task, by the address of its TCB. -/
abbrev TaskId := Nat

/-- `enum tstate_e` -/
inductive TState
  | invalid
  | pending
  | readytorun
  | running
  | inactive
  | waitSem
  | waitSig
  | waitMqNotEmpty
  | waitMqNotFull
  deriving DecidableEq

inductive TaskList
  | pendingtasks
  | readytorun
  | inactivetasks
  | waitingforsemaphore
  | waitingforsignal
  | waitingformqnotempty
  | waitingformqnotfull
  deriving DecidableEq

/-- The list a state names in `g_tasklisttable`. -/
def TState.tlist : TState → Option TaskList
  | .invalid => none
  | .pending => some .pendingtasks
  | .readytorun => some .readytorun
  | .running => some .readytorun
  | .inactive => some .inactivetasks
  | .waitSem => some .waitingforsemaphore
  | .waitSig => some .waitingforsignal
  | .waitMqNotEmpty => some .waitingformqnotempty
  | .waitMqNotFull => some .waitingformqnotfull

/-- `TLIST_ISPRIORITIZED` -/
def TaskList.isPrioritized : TaskList → Bool
  | .inactivetasks => false
  | .waitingforsignal => false
  | _ => true

/-- The states from `FIRST_BLOCKED_STATE` to `LAST_BLOCKED_STATE`. -/
def TState.isBlocked : TState → Bool
  | .invalid => false
  | .pending => false
  | .readytorun => false
  | .running => false
  | _ => true

/-- `SCHED_PRIORITY_MIN` -/
def schedPriorityMin : Int := 1

/-- `SCHED_PRIORITY_MAX` -/
def schedPriorityMax : Int := 255

/-- The scheduler's fields of every TCB and the task lists. -/
structure SchedState where
  /-- `sched_priority`, a `uint8_t` -/
  schedPriority : TaskId → Nat
  /-- `task_state` -/
  taskState : TaskId → TState
  /-- `lockcount`, an `int16_t` -/
  lockcount : TaskId → Int
  /-- the tasks of each list, from its head to its tail -/
  list : TaskList → List TaskId

namespace SchedState

variable (s : SchedState) (t : TaskId)

/-- `tcb->task_state = st` -/
def setState (st : TState) : SchedState :=
  { s with taskState := update s.taskState t st }

/-- `tcb->sched_priority = p` -/
def setPriority (p : Nat) : SchedState :=
  { s with schedPriority := update s.schedPriority t p }

def setList (l : TaskList) (xs : List TaskId) : SchedState :=
  { s with list := update s.list l xs }

/-- `dq_rem` -/
def dqRem (l : TaskList) : SchedState := s.setList l ((s.list l).erase t)

/-- `this_task()`, the head of the ready-to-run list -/
def thisTask : Option TaskId := (s.list .readytorun).head?

end SchedState

/-! ## Moving a task between lists -/

/-- The position that `sched_addprioritized` looks for: behind all tasks of the same or a higher
priority. -/
def insertPrioritized (prio : TaskId → Nat) (t : TaskId) (xs : List TaskId) : List TaskId :=
  insertWhere (fun u => decide (prio t ≤ prio u)) t xs

variable (s : SchedState) (tcb : TaskId) (priority : Nat)

/-- `sched_addprioritized`; the result tells whether the task became the head of the list. -/
def schedAddprioritized (t : TaskId) (l : TaskList) : Bool × SchedState :=
  (match (s.list l).head? with
    | none => true
    | some h => decide (s.schedPriority h < s.schedPriority t),
    s.setList l (insertPrioritized s.schedPriority t (s.list l)))

/-- `sched_addreadytorun` -/
def schedAddreadytorun (btcb : TaskId) : Option (Bool × SchedState) :=
  match s.thisTask with
  | none => none
  | some rtcb =>
    if 0 < s.lockcount rtcb ∧ s.schedPriority rtcb < s.schedPriority btcb then
      -- preemption is locked out: the task has to wait for the lock
      some (false, (schedAddprioritized s btcb .pendingtasks).2.setState btcb .pending)
    else
      match schedAddprioritized s btcb .readytorun with
      | (true, s) => some (true, (s.setState btcb .running).setState rtcb .readytorun)
      | (false, s) => some (false, s.setState btcb .readytorun)

/-- `sched_removereadytorun` -/
def schedRemovereadytorun (rtcb : TaskId) : Option (Bool × SchedState) :=
  match s.list .readytorun with
  | [] => none
  | head :: rest =>
    if head = rtcb then
      match rest with
      | [] => none
      | nxttcb :: _ =>
        some (true, ((s.setState nxttcb .running).dqRem rtcb .readytorun).setState rtcb .invalid)
    else some (false, (s.dqRem rtcb .readytorun).setState rtcb .invalid)

/-- `sched_addblocked`. Only the blocked states are passed here. -/
def schedAddblocked (btcb : TaskId) (st : TState) : SchedState :=
  match st.tlist with
  | none => s
  | some l =>
    let s := if l.isPrioritized then (schedAddprioritized s btcb l).2
      else s.setList l (s.list l ++ [btcb])
    s.setState btcb st

/-- `sched_removeblocked` -/
def schedRemoveblocked (btcb : TaskId) : SchedState :=
  match (s.taskState btcb).tlist with
  | none => s
  | some l => (s.dqRem btcb l).setState btcb .invalid

/-- The loop of `sched_mergepending`. The ready-to-run list is `before ++ rest`, with the pointer
`rtcb` at the first task of `rest`. -/
def mergeLoop (s : SchedState) (before rest : List TaskId) : List TaskId → Option SchedState
  | [] => some ((s.setList .readytorun (before ++ rest)).setList .pendingtasks [])
  | ptcb :: pnext =>
    let passed := rest.takeWhile fun r => decide (s.schedPriority ptcb ≤ s.schedPriority r)
    match rest.dropWhile fun r => decide (s.schedPriority ptcb ≤ s.schedPriority r) with
    | [] => none
    | rtcb :: after =>
      let s := match before ++ passed with
        | [] => (s.setState rtcb .readytorun).setState ptcb .running
        | _ :: _ => s.setState ptcb .readytorun
      mergeLoop s (before ++ passed) (ptcb :: rtcb :: after) pnext

/-- `sched_mergepending` -/
def schedMergepending : Option SchedState :=
  mergeLoop s [] (s.list .readytorun) (s.list .pendingtasks)

/-- Merge the pending tasks unless the running task holds the scheduler lock. -/
def mergeUnlessLocked : Option SchedState :=
  match s.thisTask with
  | none => none
  | some rtcb => if 0 < s.lockcount rtcb then some s else schedMergepending s

/-! ## The operations -/

/-- `up_block_task` -/
def upBlockTask (st : TState) : Option SchedState := do
  let (_, s) ← schedRemovereadytorun s tcb
  mergeUnlessLocked (schedAddblocked s tcb st)

/-- `up_unblock_task` -/
def upUnblockTask : Option SchedState := do
  let (_, s) ← schedAddreadytorun (schedRemoveblocked s tcb) tcb
  mergeUnlessLocked s

/-- `up_reprioritize_rtr` -/
def upReprioritizeRtr : Option SchedState := do
  let (_, s) ← schedRemovereadytorun s tcb
  let (_, s) ← schedAddreadytorun (s.setPriority tcb priority) tcb
  mergeUnlessLocked s

/-- `sched_lock`, by the running task -/
def schedLock : Option SchedState :=
  match s.thisTask with
  | none => some s
  | some rtcb =>
    some { s with lockcount := update s.lockcount rtcb (i16 (s.lockcount rtcb + 1)) }

/-- `sched_unlock`, by the running task -/
def schedUnlock : Option SchedState :=
  match s.thisTask with
  | none => some s
  | some rtcb =>
    let n := if 0 < s.lockcount rtcb then i16 (s.lockcount rtcb - 1) else s.lockcount rtcb
    if n ≤ 0 then
      let s := { s with lockcount := update s.lockcount rtcb 0 }
      -- `up_release_pending`
      if s.list .pendingtasks = [] then some s else schedMergepending s
    else some { s with lockcount := update s.lockcount rtcb n }

/-- The task behind `t` in a list, `t->flink`. -/
def flink (t : TaskId) : List TaskId → Option TaskId
  | [] => none
  | u :: rest => if u = t then rest.head? else flink t rest

/-- `sched_running_setpriority` -/
def schedRunningSetpriority : Option SchedState :=
  match flink tcb (s.list .readytorun) with
  | none => none
  | some nxttcb =>
    if priority ≤ s.schedPriority nxttcb then upReprioritizeRtr s tcb priority
    else some (s.setPriority tcb priority)

/-- `sched_readytorun_setpriority`. In the branch that keeps the running task, the calls that take
the task out of the list and put it back are the arguments of `DEBUGASSERT`, which has no effect
when assertions are compiled out. -/
def schedReadytorunSetpriority : Option SchedState :=
  match s.thisTask with
  | none => none
  | some rtcb =>
    if s.schedPriority rtcb < priority then upReprioritizeRtr s tcb priority
    else some (s.setPriority tcb priority)

/-- `sched_blocked_setpriority` -/
def schedBlockedSetpriority : SchedState :=
  match (s.taskState tcb).tlist with
  | none => s.setPriority tcb priority
  | some l =>
    if l.isPrioritized then (schedAddprioritized ((s.dqRem tcb l).setPriority tcb priority) tcb l).2
    else s.setPriority tcb priority

/-- `nxsched_setpriority` -/
def nxschedSetpriority (schedPriority : Int) : Option (Int × SchedState) :=
  if schedPriority < schedPriorityMin ∨ schedPriorityMax < schedPriority then some (-EINVAL, s)
  else
    let p := u8 schedPriority.toNat
    match s.taskState tcb with
    | .running => (schedRunningSetpriority s tcb p).map fun s => (OK, s)
    | .readytorun => (schedReadytorunSetpriority s tcb p).map fun s => (OK, s)
    | _ => some (OK, schedBlockedSetpriority s tcb p)

end BaseNx.Sched
