import BaseNx.Lib.Reach
import BaseNx.Sched.TaskLists

/-!
# The task lists of the SMP scheduler

With SMP a task that may run is in one of three kinds of lists: the list of the tasks assigned to a
CPU, whose head runs there and whose last task is the IDLE task of the CPU, the list of the tasks
that are ready to run on any CPU of their affinity masks, and the list of the tasks that wait for
the scheduler lock. `schedAddreadytorun`, `schedRemovereadytorun` and `schedMergepending` move the
tasks among them. A call of one of them is one step here: other CPUs are paused while it works on
their lists. A CPU number out of range and a missing next task are a crash, the result is then
`none`.
-/

namespace BaseNx.Sched.Smp

open Lib
open Function (update)

/-! ## Tasks and lists -/

/-- `task_state`, with one state for all tasks that are in none of the lists of this module. -/
inductive SmpState
  | invalid
  | pending
  | readytorun
  | assigned
  | running
  deriving DecidableEq

/-- `g_assignedtasks[cpu]`, `g_readytorun` and `g_pendingtasks` -/
inductive SmpList
  | assigned (cpu : Nat)
  | readytorun
  | pendingtasks
  deriving DecidableEq

/-- What does not change about the tasks: their priorities, affinity masks and `TCB_FLAG_CPU_LOCKED`
flags, and the IDLE task of each CPU. Every task may run somewhere, and only an IDLE task has the
priority zero. -/
structure Config where
  ncpus : Nat
  prio : TaskId → Nat
  affinity : TaskId → Nat
  cpuLocked : TaskId → Bool
  idle : Nat → TaskId
  ncpus_pos : 0 < ncpus
  affinity_ne : ∀ t, ∃ c, c < ncpus ∧ (affinity t).testBit c = true
  idle_locked : ∀ c, c < ncpus → cpuLocked (idle c) = true
  idle_prio : ∀ c, c < ncpus → prio (idle c) = 0
  prio_pos : ∀ t, (∀ c, c < ncpus → t ≠ idle c) → 1 ≤ prio t

/-- The fields `task_state` and `cpu` of the tasks, and the lists. -/
structure Placement where
  state : TaskId → SmpState
  cpu : TaskId → Nat
  list : SmpList → List TaskId

namespace Placement

/-- `tcb->task_state = st` -/
def setState (p : Placement) (t : TaskId) (st : SmpState) : Placement :=
  { p with state := update p.state t st }

/-- `tcb->cpu = cpu` -/
def setCpu (p : Placement) (t : TaskId) (cpu : Nat) : Placement :=
  { p with cpu := update p.cpu t cpu }

def setList (p : Placement) (l : SmpList) (xs : List TaskId) : Placement :=
  { p with list := update p.list l xs }

/-- `dq_rem` -/
def dqRem (p : Placement) (t : TaskId) (l : SmpList) : Placement := p.setList l ((p.list l).erase t)

/-- The list that the state of a task names, `TLIST_HEAD`. -/
def tlist (p : Placement) (t : TaskId) : Option SmpList :=
  match p.state t with
  | .invalid => none
  | .pending => some .pendingtasks
  | .readytorun => some .readytorun
  | .assigned => some (.assigned (p.cpu t))
  | .running => some (.assigned (p.cpu t))

end Placement

/-- The scheduler lock and the lock of the critical sections: their counts in the tasks, the CPUs
that hold them, and `g_global_lockcount`. -/
structure Locks where
  lockcount : TaskId → Nat
  irqcount : TaskId → Nat
  cpuLockset : Nat → Bool
  cpuIrqset : Nat → Bool
  globalLockcount : Nat

/-- `sched_islocked_global` -/
def Locks.schedIslockedGlobal (C : Config) (k : Locks) : Bool :=
  (List.range C.ncpus).any k.cpuLockset || decide (0 < k.globalLockcount)

/-- `irq_cpu_locked` -/
def Locks.irqCpuLocked (C : Config) (k : Locks) (cpu : Nat) : Bool :=
  decide (0 < k.globalLockcount) ||
    (List.range C.ncpus).any k.cpuIrqset && !k.cpuIrqset cpu

/-- The lock sets when a CPU switches to a task. -/
def Locks.switchTo (k : Locks) (cpu : Nat) (t : TaskId) : Locks :=
  { k with
    cpuLockset := update k.cpuLockset cpu (decide (0 < k.lockcount t))
    cpuIrqset := if 0 < k.irqcount t then update k.cpuIrqset cpu true else k.cpuIrqset }

/-- The scheduler. `out` is the set of the tasks that were removed and not added since. -/
structure Scheduler where
  tasks : Placement
  locks : Locks
  out : TaskId → Bool

/-- Whether new tasks have to wait. -/
def Scheduler.blocked (C : Config) (s : Scheduler) (me : Nat) : Bool :=
  s.locks.schedIslockedGlobal C || s.locks.irqCpuLocked C me

/-! ## The functions -/

/-- `sched_addprioritized` -/
def schedAddprioritized (C : Config) (p : Placement) (t : TaskId) (l : SmpList) : Placement :=
  p.setList l (insertPrioritized C.prio t (p.list l))

/-- `sched_mergeprioritized` -/
def schedMergeprioritized (C : Config) (p : Placement) (list1 list2 : SmpList) (st : SmpState) :
    Placement where
  state := fun t => if t ∈ p.list list1 then st else p.state t
  cpu := p.cpu
  list := update
    (update p.list list2
      ((p.list list1).merge (p.list list2) fun a b => decide (C.prio b < C.prio a)))
    list1 []

/-- The loop of `sched_cpu_select` over the CPUs that are left, with the best CPU so far. -/
def cpuSelectLoop (C : Config) (p : Placement) (allowed : Nat → Bool) (minprio : Nat)
    (cpu : Option Nat) : List Nat → Option Nat
  | [] => cpu
  | i :: is =>
    if allowed i then
      match p.list (.assigned i) with
      | [] => none
      | [_] => some i
      | rtcb :: _ :: _ =>
        if C.prio rtcb < minprio then cpuSelectLoop C p allowed (C.prio rtcb) (some i) is
        else cpuSelectLoop C p allowed minprio cpu is
    else cpuSelectLoop C p allowed minprio cpu is

/-- `sched_cpu_select`; `none` is `IMPOSSIBLE_CPU`. -/
def schedCpuSelect (C : Config) (p : Placement) (allowed : Nat → Bool) : Option Nat :=
  cpuSelectLoop C p allowed 255 none (List.range C.ncpus)

/-- The part of `sched_addreadytorun` that adds the task to the list of a CPU. -/
def assignTask (C : Config) (s : Scheduler) (btcb : TaskId) (cpu : Nat) : Option Scheduler :=
  match s.tasks.list (.assigned cpu) with
  | [] => none
  | next :: _ =>
    let added := (schedAddprioritized C s.tasks btcb (.assigned cpu)).setCpu btcb cpu
    if C.prio next < C.prio btcb then
      let switched := added.setState btcb .running
      let locks := s.locks.switchTo cpu btcb
      -- the task that ran is now the second one
      if C.cpuLocked next then some { s with tasks := switched.setState next .assigned, locks }
      else
        let removed := switched.dqRem next (.assigned cpu)
        if locks.schedIslockedGlobal C then
          some { s with
            tasks := schedAddprioritized C (removed.setState next .pending) next .pendingtasks
            locks }
        else
          some { s with
            tasks := schedAddprioritized C (removed.setState next .readytorun) next .readytorun
            locks }
    else some { s with tasks := added.setState btcb .assigned }

/-- The CPU whose running task `sched_addreadytorun` looks at. -/
def selectFor (C : Config) (p : Placement) (btcb : TaskId) : Option Nat :=
  if C.cpuLocked btcb then some (p.cpu btcb)
  else schedCpuSelect C p fun i => (C.affinity btcb).testBit i

/-- The state that `sched_addreadytorun` intends for a task on the CPU that runs `rtcb`. -/
def intendedState (C : Config) (btcb rtcb : TaskId) : SmpState :=
  if C.prio rtcb < C.prio btcb then .running
  else if C.cpuLocked btcb then .assigned
  else .readytorun

/-- `sched_addreadytorun`, called on the CPU `me` -/
def schedAddreadytorun (C : Config) (s : Scheduler) (btcb : TaskId) (me : Nat) : Option Scheduler :=
  match selectFor C s.tasks btcb with
  | none => none
  | some cpu =>
    match s.tasks.list (.assigned cpu) with
    | [] => none
    | rtcb :: _ =>
      if s.blocked C me ∧ intendedState C btcb rtcb ≠ .assigned then
        some { s with
          tasks := (schedAddprioritized C s.tasks btcb .pendingtasks).setState btcb .pending }
      else if intendedState C btcb rtcb = .readytorun then
        some { s with
          tasks := (schedAddprioritized C s.tasks btcb .readytorun).setState btcb .readytorun }
      else assignTask C s btcb cpu

/-- The task that `sched_removereadytorun` moves to the head of the list of a CPU. It looks for the
first task that may run on the CPU, and then takes the first task of the list. -/
def movedTask (C : Config) (s : Scheduler) (cpu nxttcb me : Nat) : Option TaskId :=
  if s.blocked C me then none
  else
    match (s.tasks.list .readytorun).find? fun t => (C.affinity t).testBit cpu with
    | some rtrtcb =>
      if C.prio nxttcb ≤ C.prio rtrtcb then (s.tasks.list .readytorun).head? else none
    | none => none

/-- The task that is moved when `rtcb` is removed, if `rtcb` is at the head of the list of its
CPU. -/
def movedBy (C : Config) (s : Scheduler) (rtcb : TaskId) (me : Nat) : Option TaskId :=
  let cpu := s.tasks.cpu rtcb
  match s.tasks.list (.assigned cpu) with
  | head :: nxttcb :: _ => if head = rtcb then movedTask C s cpu nxttcb me else none
  | _ => none

/-- The part of `sched_removereadytorun` after the running task was taken from the list of its CPU:
the next task or a task from the ready-to-run list runs. -/
def switchCpu (C : Config) (s : Scheduler) (cpu : Nat) (nxttcb : TaskId) (rest : List TaskId)
    (me : Nat) :
    Scheduler :=
  let removed := s.tasks.setList (.assigned cpu) (nxttcb :: rest)
  match movedTask C s cpu nxttcb me with
  | some tmptcb =>
    let moved := (removed.dqRem tmptcb .readytorun).setList (.assigned cpu)
      (tmptcb :: nxttcb :: rest)
    { s with
      tasks := (moved.setCpu tmptcb cpu).setState tmptcb .running
      locks := s.locks.switchTo cpu tmptcb }
  | none =>
    { s with tasks := removed.setState nxttcb .running, locks := s.locks.switchTo cpu nxttcb }

/-- `sched_removereadytorun`, called on the CPU `me` -/
def schedRemovereadytorun (C : Config) (s : Scheduler) (rtcb : TaskId)
    (me : Nat) : Option Scheduler :=
  match s.tasks.tlist rtcb with
  | none => none
  | some (.assigned cpu) =>
    if (s.tasks.list (.assigned cpu)).head? = some rtcb then
      match (s.tasks.list (.assigned cpu)).tail with
      | [] => none
      | nxttcb :: rest =>
        let switched := switchCpu C s cpu nxttcb rest me
        some { switched with tasks := switched.tasks.setState rtcb .invalid }
    else some { s with tasks := (s.tasks.dqRem rtcb (.assigned cpu)).setState rtcb .invalid }
  | some l => some { s with tasks := (s.tasks.dqRem rtcb l).setState rtcb .invalid }

/-- The loop of `sched_mergepending`, which takes at most as many turns as there are pending
tasks. -/
def mergepending (C : Config) (me : Nat) : Nat → Scheduler → Option Scheduler
  | 0, s => some s
  | turns + 1, s =>
    match s.tasks.list .pendingtasks with
    | [] => some s
    | ptcb :: rest =>
      match schedCpuSelect C s.tasks fun _ => true with
      | none => none
      | some cpu =>
        match s.tasks.list (.assigned cpu) with
        | [] => none
        | rtcb :: _ =>
          if C.prio rtcb < C.prio ptcb then
            match schedAddreadytorun C
                { s with tasks := s.tasks.setList .pendingtasks rest } ptcb me with
            | none => none
            | some s' =>
              if s'.blocked C me then
                some { s' with tasks :=
                  schedMergeprioritized C s'.tasks .readytorun .pendingtasks .pending }
              else mergepending C me turns s'
          else
            some { s with tasks :=
              schedMergeprioritized C s.tasks .pendingtasks .readytorun .readytorun }

/-- `sched_mergepending`, called on the CPU `me` -/
def schedMergepending (C : Config) (s : Scheduler) (me : Nat) : Option Scheduler :=
  if s.blocked C me then some s
  else mergepending C me (s.tasks.list .pendingtasks).length s

/-- The calls, and what the other functions of the system do to the locks. -/
inductive Event
  | addreadytorun (t : TaskId) (me : Nat)
  | removereadytorun (t : TaskId) (me : Nat)
  | mergepending (me : Nat)
  | lock (locks : Locks)

def handle (C : Config) (s : Scheduler) : Event → Option Scheduler
  | .addreadytorun t me =>
    schedAddreadytorun C { s with out := update s.out t false } t me
  | .removereadytorun t me =>
    schedRemovereadytorun C { s with out := update s.out t true } t me
  | .mergepending me => schedMergepending C s me
  | .lock locks => some { s with locks }

end BaseNx.Sched.Smp
