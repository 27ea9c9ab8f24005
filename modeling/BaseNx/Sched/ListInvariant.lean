import BaseNx.Sched.TaskLists
import Mathlib.Data.List.TakeWhile

/-!
# Each task is in the list its state names

`WellPlaced s` says that every task is in exactly the list that its `task_state` names, once, and
that exactly the head of the ready-to-run list is running. Every list operation keeps it, whatever
the priorities are. Each operation also comes with what it leaves alone: `Kept t s s'` says that the
step from `s` to `s'` changes no priority and no lock count of a task other than `t`, and moves such
a task at most among the states in which it is ready.
-/

namespace BaseNx.Sched

open Lib List

/-! ## Field lemmas -/

section Fields

variable (s : SchedState) (t u : TaskId) (l m : TaskList)

section

variable (st : TState)

@[simp] theorem setState_list : (s.setState t st).list = s.list := rfl

@[simp] theorem setState_schedPriority :
    (s.setState t st).schedPriority = s.schedPriority := rfl

@[simp] theorem setState_lockcount :
    (s.setState t st).lockcount = s.lockcount := rfl

@[simp] theorem setState_taskState :
    (s.setState t st).taskState u = if u = t then st else s.taskState u := by
  simp [SchedState.setState, Function.update_apply]

end

@[simp] theorem setPriority_list (p : Nat) : (s.setPriority t p).list = s.list := rfl

@[simp] theorem setPriority_taskState (p : Nat) :
    (s.setPriority t p).taskState = s.taskState := rfl

@[simp] theorem setPriority_lockcount (p : Nat) :
    (s.setPriority t p).lockcount = s.lockcount := rfl

@[simp] theorem setPriority_schedPriority (p : Nat) :
    (s.setPriority t p).schedPriority u = if u = t then p else s.schedPriority u := by
  simp [SchedState.setPriority, Function.update_apply]

variable (xs : List TaskId)

@[simp] theorem setList_list : (s.setList l xs).list m = if m = l then xs else s.list m := by
  simp [SchedState.setList, Function.update_apply]

@[simp] theorem setList_taskState :
    (s.setList l xs).taskState = s.taskState := rfl

@[simp] theorem setList_schedPriority :
    (s.setList l xs).schedPriority = s.schedPriority := rfl

@[simp] theorem setList_lockcount :
    (s.setList l xs).lockcount = s.lockcount := rfl

@[simp] theorem dqRem_list : (s.dqRem t l).list m =
    if m = l then (s.list l).erase t else s.list m := by
  simp [SchedState.dqRem]

@[simp] theorem dqRem_taskState : (s.dqRem t l).taskState = s.taskState := rfl

end Fields

/-! ## The invariant -/

/-- Each task is in the list its state names, once, and exactly the head of the ready-to-run list is
running. -/
structure WellPlaced (s : SchedState) : Prop where
  nodup : ∀ l, (s.list l).Nodup
  mem : ∀ l t, t ∈ s.list l ↔ (s.taskState t).tlist = some l
  running : ∀ t, s.taskState t = .running ↔ s.thisTask = some t

/-- The states of a task that is ready, as one. -/
def TState.view : TState → TState
  | .pending => .readytorun
  | .running => .readytorun
  | st => st

/-- What a step that moves the task `t` leaves alone. -/
structure Kept (t : TaskId) (s s' : SchedState) : Prop where
  priority : ∀ u, u ≠ t → s'.schedPriority u = s.schedPriority u
  lockcount : s'.lockcount = s.lockcount
  others : ∀ u, u ≠ t → (s'.taskState u).view = (s.taskState u).view

variable {s' : SchedState} {t : TaskId}

theorem Kept.trans {s s'' : SchedState} (h : Kept t s s') (h' : Kept t s' s'') : Kept t s s'' :=
  ⟨fun u hu => (h'.priority u hu).trans (h.priority u hu), h'.lockcount.trans h.lockcount,
    fun u hu => (h'.others u hu).trans (h.others u hu)⟩

variable {rest xs : List TaskId} {prio : TaskId → Nat} {st : TState} {u : TaskId}

section WellPlaced

variable {s : SchedState} {l : TaskList}

section

variable (h : WellPlaced s)
include h

theorem WellPlaced.unique {m : TaskList} (hl : t ∈ s.list l) (hm : t ∈ s.list m) : m = l := by
  rw [h.mem] at hl hm
  exact Option.some.inj (hm.symm.trans hl)

theorem WellPlaced.not_mem_of_invalid (ht : s.taskState t = .invalid)
    (m : TaskList) : t ∉ s.list m := by
  rw [h.mem, ht]
  exact nofun

theorem WellPlaced.state_of_mem_readytorun (ht : t ∈ s.list .readytorun) :
    s.taskState t = .running ∨ s.taskState t = .readytorun := by
  rw [h.mem] at ht
  cases hst : s.taskState t <;> simp_all [TState.tlist]

theorem WellPlaced.state_of_mem_pendingtasks
    (ht : t ∈ s.list .pendingtasks) : s.taskState t = .pending := by
  rw [h.mem] at ht
  cases hst : s.taskState t <;> simp_all [TState.tlist]

theorem WellPlaced.remove (ht : t ∈ s.list l) (hl : s'.list l = (s.list l).erase t)
    (hm : ∀ m, m ≠ l → s'.list m = s.list m) (hst : s'.taskState t = .invalid)
    (hother : ∀ u, u ≠ t → (s'.taskState u).tlist = (s.taskState u).tlist)
    (hrun : ∀ u, s'.taskState u = .running ↔ s'.thisTask = some u) : WellPlaced s' := by
  refine ⟨?_, ?_, hrun⟩
  · intro m
    by_cases hml : m = l
    · subst hml
      rw [hl]
      exact (h.nodup m).erase t
    · rw [hm m hml]
      exact h.nodup m
  · intro m u
    by_cases hut : u = t
    · subst hut
      have hno : u ∉ s'.list m := by
        by_cases hml : m = l
        · subst hml
          rw [hl]
          exact (h.nodup m).not_mem_erase
        · rw [hm m hml]
          exact fun hum => hml (h.unique ht hum)
      simp [hno, hst, TState.tlist]
    · rw [hother u hut, ← h.mem]
      by_cases hml : m = l
      · subst hml
        rw [hl, mem_erase_of_ne hut]
      · rw [hm m hml]

theorem WellPlaced.add (ht : s.taskState t = .invalid) (hl : (s'.list l).Perm (t :: s.list l))
    (hm : ∀ m, m ≠ l → s'.list m = s.list m) (hst : (s'.taskState t).tlist = some l)
    (hother : ∀ u, u ≠ t → (s'.taskState u).tlist = (s.taskState u).tlist)
    (hrun : ∀ u, s'.taskState u = .running ↔ s'.thisTask = some u) : WellPlaced s' := by
  have hno := h.not_mem_of_invalid ht
  refine ⟨?_, ?_, hrun⟩
  · intro m
    by_cases hml : m = l
    · subst hml
      rw [hl.nodup_iff]
      exact nodup_cons.2 ⟨hno m, h.nodup m⟩
    · rw [hm m hml]
      exact h.nodup m
  · intro m u
    by_cases hut : u = t
    · subst hut
      rw [hst]
      by_cases hml : m = l
      · subst hml
        simp [hl.mem_iff]
      · rw [hm m hml]
        simp [hno m, Ne.symm hml]
    · rw [hother u hut, ← h.mem]
      by_cases hml : m = l
      · subst hml
        rw [hl.mem_iff, mem_cons]
        simp [hut]
      · rw [hm m hml]

end

/-! ## sched_removereadytorun -/

/-- What remains after `t` left its list. -/
structure Removed (t : TaskId) (l : TaskList) (s s' : SchedState) : Prop where
  placed : WellPlaced s'
  kept : Kept t s s'
  priority : s'.schedPriority t = s.schedPriority t
  state : s'.taskState t = .invalid
  list : s'.list l = (s.list l).erase t
  others : ∀ m, m ≠ l → s'.list m = s.list m

section

variable (h : WellPlaced s)
include h

theorem removed_running {n : TaskId} (hrtr : s.list .readytorun = t :: n :: rest) :
    Removed t .readytorun s
      (((s.setState n .running).dqRem t .readytorun).setState t .invalid) := by
  have hnd := hrtr ▸ h.nodup .readytorun
  have hnt : n ≠ t := fun hnt => (nodup_cons.1 hnd).1 (hnt ▸ mem_cons_self)
  have hn : n ∈ s.list .readytorun := by simp [hrtr]
  have hview : ∀ u, u ≠ t → (if u = n then TState.running else s.taskState u).view =
      (s.taskState u).view ∧ (if u = n then TState.running else s.taskState u).tlist =
      (s.taskState u).tlist := by
    intro u _
    by_cases hun : u = n
    · subst hun
      rcases h.state_of_mem_readytorun hn with hst | hst <;> simp [hst, TState.view, TState.tlist]
    · simp [hun]
  have hstate : ∀ u, u ≠ t → (((s.setState n .running).dqRem t .readytorun).setState t
      .invalid).taskState u = if u = n then .running else s.taskState u := by
    intro u hu
    simp [hu]
  refine ⟨h.remove (l := .readytorun) (t := t) (by simp [hrtr]) (by simp) (fun m hm => by simp [hm])
      (by simp) (fun u hu => by rw [hstate u hu]; exact (hview u hu).2) ?_,
    ⟨fun u _ => rfl, rfl, fun u hu => by rw [hstate u hu]; exact (hview u hu).1⟩, rfl, by simp,
    by simp, fun m hm => by simp [hm]⟩
  intro u
  have hthis : (((s.setState n .running).dqRem t .readytorun).setState t .invalid).thisTask =
      some n := by
    simp [SchedState.thisTask, hrtr]
  rw [hthis]
  by_cases hut : u = t
  · subst hut
    simp [hnt]
  · rw [hstate u hut]
    by_cases hun : u = n
    · simp [hun]
    · have hnot : s.taskState u ≠ .running := by
        rw [Ne, h.running, SchedState.thisTask, hrtr]
        simpa using Ne.symm hut
      simp [hun, hnot, Ne.symm hun]

theorem WellPlaced.removed (ht : t ∈ s.list l) (hnrun : s.taskState t ≠ .running)
    (hthis : ((s.dqRem t l).setState t .invalid).thisTask = s.thisTask) :
    Removed t l s ((s.dqRem t l).setState t .invalid) := by
  refine ⟨h.remove ht (by simp) (fun m hm => by simp [hm]) (by simp) (fun u hu => by simp [hu]) ?_,
    ⟨fun u _ => rfl, rfl, fun u hu => by simp [hu]⟩, rfl, by simp, by simp,
    fun m hm => by simp [hm]⟩
  intro u
  rw [hthis, ← h.running]
  by_cases hut : u = t
  · subst hut
    simp [hnrun]
  · simp [hut]

theorem removed_ready {head : TaskId} (hrtr : s.list .readytorun = head :: rest) (ht : t ∈ rest) :
    Removed t .readytorun s
      ((s.dqRem t .readytorun).setState t .invalid) := by
  have hnd := hrtr ▸ h.nodup .readytorun
  have hne : head ≠ t := fun heq => (nodup_cons.1 hnd).1 (heq ▸ ht)
  refine h.removed (by simp [hrtr, ht]) ?_ ?_
  · simp [h.running, SchedState.thisTask, hrtr, hne]
  · simp [SchedState.thisTask, hrtr, erase_cons_tail, hne]

/-- A task may leave the ready-to-run list if another task stays in it. -/
theorem schedRemovereadytorun_spec (ht : t ∈ s.list .readytorun) (hu : u ∈ s.list .readytorun)
    (hut : u ≠ t) :
    ∃ b s', schedRemovereadytorun s t = some (b, s') ∧ Removed t .readytorun s s' := by
  unfold schedRemovereadytorun
  cases hrtr : s.list .readytorun with
  | nil => rw [hrtr] at ht; exact absurd ht not_mem_nil
  | cons head rest =>
    rw [hrtr] at ht hu
    by_cases heq : head = t
    · subst heq
      cases rest with
      | nil => simp [hut] at hu
      | cons n rest => exact ⟨true, _, by simp, removed_running h hrtr⟩
    · have ht : t ∈ rest := by simpa [Ne.symm heq] using ht
      exact ⟨false, _, by simp [heq], removed_ready h hrtr ht⟩

end

/-! ## Adding a task -/

/-- What holds after `t`, which was in no list, was put into the list `l`. -/
structure Added (t : TaskId) (l : TaskList) (s s' : SchedState) : Prop where
  placed : WellPlaced s'
  kept : Kept t s s'
  priority : s'.schedPriority = s.schedPriority
  state : (s'.taskState t).tlist = some l
  list : s'.list l = if l.isPrioritized then insertPrioritized s.schedPriority t (s.list l)
    else s.list l ++ [t]
  others : ∀ m, m ≠ l → s'.list m = s.list m

theorem insertPrioritized_perm (prio : TaskId → Nat) (t : TaskId) (xs : List TaskId) :
    (insertPrioritized prio t xs).Perm (t :: xs) :=
  insertWhere_perm _ _ _

@[simp] theorem mem_insertPrioritized : u ∈ insertPrioritized prio t xs ↔ u = t ∨ u ∈ xs :=
  mem_insertWhere

section

variable (h : WellPlaced s) (ht : s.taskState t = .invalid)
include h ht

theorem WellPlaced.added (st : TState) (hst : st.tlist = some l) (hnrun : st ≠ .running)
    (hlist : s'.list l = if l.isPrioritized then insertPrioritized s.schedPriority t (s.list l)
      else s.list l ++ [t]) (hothers : ∀ m, m ≠ l → s'.list m = s.list m)
    (hprio : s'.schedPriority = s.schedPriority) (hlock : s'.lockcount = s.lockcount)
    (hstate : ∀ u, s'.taskState u = if u = t then st else s.taskState u)
    (hthis : s'.thisTask = s.thisTask) : Added t l s s' := by
  refine ⟨h.add ht ?_ hothers (by simp [hstate, hst]) (fun u hu => by simp [hstate, hu]) ?_,
    ⟨fun u _ => by rw [hprio], hlock, fun u hu => by simp [hstate, hu]⟩, hprio,
    by simp [hstate, hst], hlist, hothers⟩
  · rw [hlist]
    split
    · exact insertPrioritized_perm _ _ _
    · exact perm_append_singleton _ _
  · intro u
    rw [hthis, hstate, ← h.running]
    by_cases hut : u = t
    · simp [hut, hnrun, ht]
    · simp [hut]

/-- Behind preemption locks the task goes to the pending tasks. -/
theorem added_pending :
    Added t .pendingtasks s ((schedAddprioritized s t .pendingtasks).2.setState t .pending) := by
  refine h.added ht .pending rfl nofun ?_ (fun m hm => ?_) rfl rfl (fun u => ?_) ?_
  · simp [schedAddprioritized, TaskList.isPrioritized]
  · simp [schedAddprioritized, hm]
  · simp [schedAddprioritized]
  · simp [SchedState.thisTask, schedAddprioritized]

theorem added_running {rtcb : TaskId} (hrtr : s.list .readytorun = rtcb :: rest)
    (hlt : s.schedPriority rtcb < s.schedPriority t) :
    Added t .readytorun s (((schedAddprioritized s t .readytorun).2.setState t .running).setState
      rtcb .readytorun) := by
  have hr : s.taskState rtcb = .running := by simp [h.running, SchedState.thisTask, hrtr]
  have hne : rtcb ≠ t := by
    rintro rfl
    rw [hr] at ht
    cases ht
  have hins : insertPrioritized s.schedPriority t (rtcb :: rest) = t :: rtcb :: rest :=
    insertWhere_cons_neg (by simpa using hlt) _ _
  have hstate : ∀ u, u ≠ t → (((schedAddprioritized s t .readytorun).2.setState t
      .running).setState rtcb .readytorun).taskState u =
        if u = rtcb then .readytorun else s.taskState u := by
    intro u hu
    simp [schedAddprioritized, hu]
  have hview : ∀ u, (if u = rtcb then TState.readytorun else s.taskState u).view =
      (s.taskState u).view ∧ (if u = rtcb then TState.readytorun else s.taskState u).tlist =
      (s.taskState u).tlist := by
    intro u
    by_cases hu : u = rtcb
    · simp [hu, hr, TState.view, TState.tlist]
    · simp [hu]
  refine ⟨h.add (l := .readytorun) ht ?_ (fun m hm => ?_) (by simp [Ne.symm hne, TState.tlist])
      (fun u hu => by rw [hstate u hu]; exact (hview u).2) ?_,
    ⟨fun u _ => rfl, rfl, fun u hu => by rw [hstate u hu]; exact (hview u).1⟩, rfl,
    by simp [Ne.symm hne, TState.tlist],
    by simp [schedAddprioritized, TaskList.isPrioritized],
    fun m hm => by simp [schedAddprioritized, hm]⟩
  · simpa [schedAddprioritized] using insertPrioritized_perm _ _ _
  · simp [schedAddprioritized, hm]
  · intro u
    have hthis : (((schedAddprioritized s t .readytorun).2.setState t .running).setState
        rtcb .readytorun).thisTask = some t := by
      simp [SchedState.thisTask, schedAddprioritized, hrtr, hins]
    rw [hthis]
    by_cases hut : u = t
    · subst hut
      simp [Ne.symm hne]
    · rw [hstate u hut]
      by_cases hu : u = rtcb
      · simp [hu, Ne.symm hne]
      · have hnot : s.taskState u ≠ .running := by
          rw [Ne, h.running, SchedState.thisTask, hrtr]
          simpa using Ne.symm hu
        simp [hu, hnot, Ne.symm hut]

theorem added_ready {rtcb : TaskId} (hrtr : s.list .readytorun = rtcb :: rest)
    (hle : s.schedPriority t ≤ s.schedPriority rtcb) :
    Added t .readytorun s ((schedAddprioritized s t .readytorun).2.setState t .readytorun) := by
  have hins : insertPrioritized s.schedPriority t (rtcb :: rest) =
      rtcb :: insertPrioritized s.schedPriority t rest :=
    insertWhere_cons_pos (by simpa using hle) _ _
  refine h.added ht .readytorun rfl nofun ?_ (fun m hm => ?_) rfl rfl (fun u => ?_) ?_
  · simp [schedAddprioritized, TaskList.isPrioritized]
  · simp [schedAddprioritized, hm]
  · simp [schedAddprioritized]
  · simp [SchedState.thisTask, schedAddprioritized, hrtr, hins]

/-- `sched_addreadytorun` makes the task pending if the running task holds the scheduler lock
against it, and puts it into the ready-to-run list otherwise. -/
theorem schedAddreadytorun_spec {rtcb : TaskId} (hthis : s.thisTask = some rtcb) :
    ∃ b l s', schedAddreadytorun s t = some (b, s') ∧ Added t l s s' ∧
      (l = .pendingtasks ∧ 0 < s.lockcount rtcb ∧ s'.thisTask = some rtcb ∨
        l = .readytorun ∧ ¬ (0 < s.lockcount rtcb ∧ s.schedPriority rtcb < s.schedPriority t)) := by
  obtain ⟨rest, hrtr⟩ : ∃ rest, s.list .readytorun = rtcb :: rest := by
    cases hl : s.list .readytorun with
    | nil => simp [SchedState.thisTask, hl] at hthis
    | cons x rest => exact ⟨rest, by simpa [SchedState.thisTask, hl] using hthis⟩
  unfold schedAddreadytorun
  rw [hthis]
  by_cases hlock : 0 < s.lockcount rtcb ∧ s.schedPriority rtcb < s.schedPriority t
  · refine ⟨false, .pendingtasks, _, by simp [hlock], added_pending h ht,
      Or.inl ⟨rfl, hlock.1, ?_⟩⟩
    simpa [SchedState.thisTask, schedAddprioritized] using hthis
  · by_cases hlt : s.schedPriority rtcb < s.schedPriority t
    · have hb : schedAddprioritized s t .readytorun =
          (true, (schedAddprioritized s t .readytorun).2) := by
        simp [schedAddprioritized, hrtr, hlt]
      refine ⟨true, .readytorun, _, ?_, added_running h ht hrtr hlt, Or.inr ⟨rfl, hlock⟩⟩
      simp only [if_neg hlock]
      rw [hb]
    · have hb : schedAddprioritized s t .readytorun =
          (false, (schedAddprioritized s t .readytorun).2) := by
        simp [schedAddprioritized, hrtr, hlt]
      refine ⟨false, .readytorun, _, ?_, added_ready h ht hrtr (by omega), Or.inr ⟨rfl, hlock⟩⟩
      simp only [if_neg hlock]
      rw [hb]

end

/-! ## Blocked tasks -/

theorem TState.tlist_of_isBlocked (hst : st.isBlocked = true) :
    ∃ l, st.tlist = some l ∧ l ≠ .readytorun ∧ l ≠ .pendingtasks ∧ st.view = st ∧
      st ≠ .running := by
  cases st <;> simp_all [TState.isBlocked, TState.tlist, TState.view]

theorem schedAddblocked_spec (h : WellPlaced s) (ht : s.taskState t = .invalid)
    (hst : st.isBlocked = true) (hl : st.tlist = some l) :
    Added t l s (schedAddblocked s t st) ∧ (schedAddblocked s t st).taskState t = st ∧
      (schedAddblocked s t st).thisTask = s.thisTask := by
  obtain ⟨m, hm, hready, -, -, hnrun⟩ := TState.tlist_of_isBlocked hst
  obtain rfl : m = l := Option.some.inj (hm.symm.trans hl)
  -- both ways of adding put `t` into the list and touch nothing else
  obtain ⟨hlist, hothers, hprio, hlock, hstate⟩ :
      (schedAddblocked s t st).list m =
        (if m.isPrioritized then insertPrioritized s.schedPriority t (s.list m)
        else s.list m ++ [t]) ∧
      (∀ k, k ≠ m → (schedAddblocked s t st).list k = s.list k) ∧
      (schedAddblocked s t st).schedPriority = s.schedPriority ∧
      (schedAddblocked s t st).lockcount = s.lockcount ∧
      ∀ u, (schedAddblocked s t st).taskState u = if u = t then st else s.taskState u := by
    cases hp : m.isPrioritized <;> simp +contextual [schedAddblocked, hm, hp, schedAddprioritized]
  have hthis : (schedAddblocked s t st).thisTask = s.thisTask := by
    rw [SchedState.thisTask, hothers _ (Ne.symm hready)]
    rfl
  exact ⟨h.added ht _ hm hnrun hlist hothers hprio hlock hstate hthis, by simp [hstate], hthis⟩

theorem schedRemoveblocked_spec (h : WellPlaced s) (hst : (s.taskState t).isBlocked = true)
    (hl : (s.taskState t).tlist = some l) :
    Removed t l s (schedRemoveblocked s t) ∧
      (schedRemoveblocked s t).thisTask = s.thisTask := by
  obtain ⟨m, hm, hready, -, -, hnrun⟩ := TState.tlist_of_isBlocked hst
  obtain rfl : m = l := Option.some.inj (hm.symm.trans hl)
  have heq : schedRemoveblocked s t = (s.dqRem t m).setState t .invalid := by
    simp [schedRemoveblocked, hm]
  have hthis : (schedRemoveblocked s t).thisTask = s.thisTask := by
    simp [heq, SchedState.thisTask, Ne.symm hready]
  rw [heq] at hthis ⊢
  exact ⟨h.removed ((h.mem m t).2 hm) hnrun hthis, hthis⟩

/-! ## sched_mergepending -/

/-- What a step that only moves ready tasks leaves alone. -/
structure KeptAll (s s' : SchedState) : Prop where
  priority : s'.schedPriority = s.schedPriority
  lockcount : s'.lockcount = s.lockcount
  others : ∀ u, (s'.taskState u).view = (s.taskState u).view

theorem KeptAll.kept (h : KeptAll s s') (t : TaskId) : Kept t s s' :=
  ⟨fun u _ => by rw [h.priority], h.lockcount, fun u _ => h.others u⟩

/-- The order of the prioritized lists. -/
def SortedBy (prio : TaskId → Nat) (xs : List TaskId) : Prop :=
  xs.Pairwise fun a b => prio b ≤ prio a

theorem sortedBy_insertPrioritized (h : SortedBy prio xs) (t : TaskId) :
    SortedBy prio (insertPrioritized prio t xs) := by
  refine insertWhere_pairwise (R := fun a b => prio b ≤ prio a)
    (fun a b hta hab => le_trans hab hta) h ?_ ?_
  · intro u _ hle
    exact of_decide_eq_true hle
  · intro u _ hlt
    have := of_decide_eq_false hlt
    omega

/-- The lists as the merge loop sees them. -/
def mergeView (s : SchedState) (before rest ps : List TaskId) : SchedState :=
  (s.setList .readytorun (before ++ rest)).setList .pendingtasks ps

@[simp] theorem mergeView_list (before rest ps : List TaskId) (m : TaskList) :
    (mergeView s before rest ps).list m =
      if m = .pendingtasks then ps else if m = .readytorun then before ++ rest else s.list m := by
  simp [mergeView]

@[simp] theorem mergeView_taskState (before rest ps : List TaskId) :
    (mergeView s before rest ps).taskState = s.taskState := rfl

/-- The state after one pending task was inserted in front of `rtcb`. -/
def mergeOne (s : SchedState) (front : List TaskId) (rtcb ptcb : TaskId) : SchedState :=
  match front with
  | [] => (s.setState rtcb .readytorun).setState ptcb .running
  | _ :: _ => s.setState ptcb .readytorun

variable (front : List TaskId) (rtcb ptcb : TaskId)

theorem mergeOne_list : (mergeOne s front rtcb ptcb).list = s.list := by
  cases front <;> rfl

theorem mergeOne_schedPriority : (mergeOne s front rtcb ptcb).schedPriority = s.schedPriority := by
  cases front <;> rfl

theorem mergeOne_lockcount : (mergeOne s front rtcb ptcb).lockcount = s.lockcount := by
  cases front <;> rfl

/-- One round of the merge loop moves the task from the pending tasks to the ready-to-run list. -/
theorem mergeOne_placed {front after ps : List TaskId} {rtcb ptcb : TaskId}
    (h : WellPlaced (mergeView s front (rtcb :: after) (ptcb :: ps))) :
    WellPlaced (mergeView (mergeOne s front rtcb ptcb) front (ptcb :: rtcb :: after) ps) ∧
      ∀ u, ((mergeOne s front rtcb ptcb).taskState u).view = (s.taskState u).view := by
  have hp : s.taskState ptcb = .pending := h.state_of_mem_pendingtasks (t := ptcb) (by simp)
  have hr : s.taskState rtcb = .running ∨ s.taskState rtcb = .readytorun :=
    h.state_of_mem_readytorun (t := rtcb) (by simp)
  have hne : rtcb ≠ ptcb := by
    rintro rfl
    rcases hr with hr | hr <;> rw [hr] at hp <;> cases hp
  have hnd := h.nodup .pendingtasks
  obtain ⟨hnot, hps⟩ := nodup_cons.1 hnd
  have hrun := h.running
  -- the intermediate state in which the task is in neither list
  have hmid : WellPlaced (mergeView (s.setState ptcb .invalid) front (rtcb :: after) ps) := by
    refine h.remove (l := .pendingtasks) (t := ptcb) (by simp) (by simp) ?_ (by simp) ?_ ?_
    · intro m hm
      simp [hm]
    · intro u hu
      simp [hu]
    · intro u
      by_cases hu : u = ptcb
      · subst hu
        have := hrun u
        simp only [mergeView_taskState, hp, SchedState.thisTask] at this
        simpa [SchedState.thisTask] using this
      · simpa [SchedState.thisTask, hu] using hrun u
  have hview : ∀ u, ((mergeOne s front rtcb ptcb).taskState u).view = (s.taskState u).view ∧
      (u ≠ ptcb → ((mergeOne s front rtcb ptcb).taskState u).tlist = (s.taskState u).tlist) := by
    intro u
    cases front with
    | nil =>
      by_cases hup : u = ptcb
      · simp [mergeOne, hup, hp, TState.view]
      · by_cases hur : u = rtcb
        · subst hur
          rcases hr with hr | hr <;> simp [mergeOne, hup, hr, TState.view, TState.tlist]
        · simp [mergeOne, hup, hur]
    | cons f fs =>
      by_cases hup : u = ptcb
      · simp [mergeOne, hup, hp, TState.view]
      · simp [mergeOne, hup]
  refine ⟨hmid.add (l := .readytorun) (t := ptcb) (by simp) ?_ ?_ ?_ ?_ ?_, fun u => (hview u).1⟩
  · simp
  · intro m hm
    simp [hm, mergeOne_list]
  · cases front <;> simp [mergeOne, TState.tlist]
  · intro u hu
    simpa [hu] using (hview u).2 hu
  · intro u
    have hru := hrun u
    cases front with
    | nil =>
      -- the task becomes the running one in place of `rtcb`
      simp only [SchedState.thisTask, mergeView_list, mergeView_taskState, mergeOne] at hru ⊢
      by_cases hup : u = ptcb
      · simp [hup]
      · by_cases hur : u = rtcb
        · simp [hur, hne, Ne.symm hne]
        · have hn : s.taskState u ≠ .running := by
            rw [Ne, hru]
            simpa using Ne.symm hur
          simp [hup, hur, hn, Ne.symm hup]
    | cons f fs =>
      simp only [SchedState.thisTask, mergeView_list, mergeView_taskState, mergeOne] at hru ⊢
      by_cases hup : u = ptcb
      · subst hup
        rw [hp] at hru
        simpa using hru
      · simpa [hup] using hru

end WellPlaced

/-- What the merge does to the lists: all pending tasks become ready. -/
structure Merged (s s' : SchedState) : Prop where
  placed : WellPlaced s'
  kept : KeptAll s s'
  pending : s'.list .pendingtasks = []
  ready : ∀ u, u ∈ s'.list .readytorun ↔ u ∈ s.list .readytorun ∨ u ∈ s.list .pendingtasks
  others : ∀ m, m ≠ .readytorun → m ≠ .pendingtasks → s'.list m = s.list m

/-- The merge loop does not run off the list while a task of lower priority than all pending tasks
is in front of it. -/
theorem mergeLoop_spec : ∀ (ps : List TaskId) (s : SchedState) (before rest : List TaskId),
    WellPlaced (mergeView s before rest ps) →
    (∃ i ∈ rest, ∀ p ∈ ps, s.schedPriority i < s.schedPriority p) →
    ∃ s', mergeLoop s before rest ps = some s' ∧ Merged (mergeView s before rest ps) s' ∧
      (SortedBy s.schedPriority (before ++ rest) → SortedBy s.schedPriority ps →
        (∀ b ∈ before, ∀ p ∈ ps, s.schedPriority p ≤ s.schedPriority b) →
          SortedBy s.schedPriority (s'.list .readytorun)) := by
  intro ps
  induction ps with
  | nil =>
    intro s before rest h _
    refine ⟨_, rfl, ⟨h, ⟨rfl, rfl, fun _ => rfl⟩, by simp, by simp,
      fun m hm hm' => by simp [hm, hm']⟩, ?_⟩
    intro hs _ _
    simpa using hs
  | cons ptcb ps ih =>
    intro s before rest h hidle
    obtain ⟨i, hi, hlow⟩ := hidle
    set test : TaskId → Bool := fun r => decide (s.schedPriority ptcb ≤ s.schedPriority r)
      with htest
    have hsplit : rest.takeWhile test ++ rest.dropWhile test = rest := takeWhile_append_dropWhile
    -- the scan stops at the latest at the task of lowest priority
    have hi' : i ∈ rest.dropWhile test := by
      rw [← hsplit, mem_append] at hi
      rcases hi with hi | hi
      · have hle := mem_takeWhile_imp hi
        rw [htest, decide_eq_true_iff] at hle
        have := hlow ptcb mem_cons_self
        omega
      · exact hi
    cases hdrop : rest.dropWhile test with
    | nil => rw [hdrop] at hi'; exact absurd hi' not_mem_nil
    | cons rtcb after =>
      rw [hdrop] at hi' hsplit
      set front := before ++ rest.takeWhile test with hfront
      have hlist : before ++ rest = front ++ rtcb :: after := by
        rw [hfront, append_assoc, hsplit]
      have hloop : mergeLoop s before rest (ptcb :: ps) =
          mergeLoop (mergeOne s front rtcb ptcb) front (ptcb :: rtcb :: after) ps := by
        simp only [mergeLoop]
        rw [hdrop]
        rfl
      have hv : mergeView s before rest (ptcb :: ps) =
          mergeView s front (rtcb :: after) (ptcb :: ps) := by
        rw [mergeView, mergeView, hlist]
      rw [hv] at h
      obtain ⟨hone, hview⟩ := mergeOne_placed h
      have hprio := mergeOne_schedPriority (s := s) front rtcb ptcb
      obtain ⟨s', hs', hm, hsorted⟩ := ih (mergeOne s front rtcb ptcb) front
        (ptcb :: rtcb :: after) hone ⟨i, mem_cons_of_mem _ hi', by
          rw [hprio]
          exact (forall_mem_cons.1 hlow).2⟩
      refine ⟨s', hloop.trans hs', ⟨hm.placed, ⟨?_, ?_, ?_⟩, hm.pending, ?_, ?_⟩, ?_⟩
      · rw [hm.kept.priority]
        exact hprio
      · rw [hm.kept.lockcount]
        exact mergeOne_lockcount front rtcb ptcb
      · intro u
        rw [hm.kept.others]
        exact hview u
      · intro u
        rw [hm.ready, hv]
        simp only [mergeView_list, if_true, mem_append, mem_cons,
          reduceCtorEq, if_false]
        tauto
      · intro m hm1 hm2
        rw [hm.others m hm1 hm2]
        simp [hm1, hm2, mergeOne_list]
      · intro hso hps hbef
        rw [hprio] at hsorted
        obtain ⟨hpall, hps'⟩ := pairwise_cons.1 hps
        rw [hlist] at hso
        have hfrontge : ∀ b ∈ front, s.schedPriority ptcb ≤ s.schedPriority b := by
          intro b hb
          rcases mem_append.1 hb with hb | hb
          · exact hbef b hb ptcb mem_cons_self
          · have hle := mem_takeWhile_imp hb
            rwa [htest, decide_eq_true_iff] at hle
        refine hsorted ?_ hps' ?_
        · obtain ⟨hso1, hso2, hso3⟩ := pairwise_append.1 hso
          have hstop : test rtcb = false := by
            have := head?_dropWhile_not test rest
            rw [hdrop] at this
            simpa using this
          have hlt := of_decide_eq_false hstop
          refine pairwise_append.2 ⟨hso1, pairwise_cons.2 ⟨?_, hso2⟩, ?_⟩
          · intro u hu
            rcases mem_cons.1 hu with rfl | hu
            · omega
            · have := rel_of_pairwise_cons hso2 hu
              omega
          · intro a ha b hb
            rcases mem_cons.1 hb with rfl | hb
            · exact hfrontge a ha
            · exact hso3 a ha b hb
        · intro b hb p hp
          exact (hpall p hp).trans (hfrontge b hb)

end BaseNx.Sched
