import BaseNx.Lib.MachineInt
import BaseNx.Lib.Reach

/-!
# Sporadic scheduling

A thread under the sporadic policy runs at its high priority while it has budget. The main timer of
the thread alternates between the budget interval and the rest of the replenishment period. Budget
that the thread did not use while it was suspended is given back later: an entry of a small table of
replenishments is taken, and its timer is started first for a delay and then for the amount.

Timers may expire at any time here, which includes the times at which the watchdogs of the system
expire them. The priorities of the thread are left out, nothing below depends on them.
-/

namespace BaseNx.Sched

open Lib

/-- The parameters of the policy, with the size `configMaxRepl` of the table of replenishments. -/
structure SporadicParams where
  configMaxRepl : Nat
  maxRepl : Nat
  replPeriod : Nat
  budget : Nat
  one_le_maxRepl : 1 ≤ maxRepl
  maxRepl_le : maxRepl ≤ configMaxRepl
  budget_pos : 0 < budget
  budget_le : budget ≤ replPeriod
  replPeriod_lt : replPeriod < 4294967296

/-- The handler that a running timer calls. -/
inductive SporadicTimer
  | budget
  | interval
  | replenish
  | delay
  deriving DecidableEq

/-- An entry of the table: `struct replenishment_s` with its flags `SPORADIC_FLAG_ALLOCED`,
`SPORADIC_FLAG_MAIN` and `SPORADIC_FLAG_REPLENISH`. -/
structure Replenishment where
  budget : Nat
  alloced : Bool
  main : Bool
  replenish : Bool
  timer : Option SporadicTimer
  deriving DecidableEq

/-- The amount that an entry is about to give back is a part of the budget. -/
def Replenishment.Fits (P : SporadicParams) (r : Replenishment) : Prop :=
  r.timer = some .delay ∨ r.timer = some .replenish → 1 ≤ r.budget ∧ r.budget ≤ P.budget

/-- A delayed replenishment. -/
structure Delayed where
  amount : Nat
  delay : Nat
  deriving DecidableEq

/-- The amount is a part of the budget, and the delay is at most half of the period. -/
def Delayed.InRange (P : SporadicParams) (d : Delayed) : Prop :=
  1 ≤ d.amount ∧ d.amount ≤ P.budget ∧ d.delay ≤ P.replPeriod / 2

/-- `struct sporadic_s` with the time slice and the lock count of the thread. The lock count does
not wrap: `sched_lock` asserts that the `int16_t` stays below `MAX_LOCK_COUNT`, which is 127.
`scheduled` is the log of the delayed replenishments, the latest first. -/
structure Sporadic where
  suspended : Bool
  nrepls : Nat
  eventtime : Nat
  active : Option Nat
  repls : Nat → Replenishment
  timeslice : Int
  lockcount : Nat
  scheduled : List Delayed

variable {now unrealized j : Nat} {r : Replenishment}

namespace Sporadic

/-! ## The handlers -/

/-- An entry of the table is changed. -/
def modify (s : Sporadic) (i : Nat) (f : Replenishment → Replenishment) : Sporadic :=
  { s with repls := Function.update s.repls i (f (s.repls i)) }

/-- `wd_start` refuses a delay that is negative as an `int32_t`. -/
def wdStart (s : Sporadic) (i delay : Nat) (timer : SporadicTimer) : Sporadic :=
  if 2147483648 ≤ delay then s else s.modify i fun r => { r with timer := some timer }

section Functions

variable (P : SporadicParams) (s : Sporadic)

/-- `sporadic_timer_cancel` -/
def timerCancel : Sporadic :=
  { s with
    repls := fun i =>
      if i < P.configMaxRepl then
        { s.repls i with alloced := false, main := false, replenish := false, timer := none }
      else s.repls i
    nrepls := 0 }

/-- `sporadic_alloc_repl` -/
def allocRepl : Option (Nat × Sporadic) :=
  if s.nrepls < P.maxRepl then
    match (List.range P.maxRepl).find? fun i => !(s.repls i).alloced with
    | some i =>
      some (i, { s.modify i fun r => { r with alloced := true, main := false, replenish := false }
        with nrepls := s.nrepls + 1 })
    | none => none
  else none

/-- `sporadic_budget_start` -/
def budgetStart (mrepl now : Nat) : Sporadic :=
  wdStart
    { s.modify mrepl fun r => { r with budget := P.budget, replenish := false } with
      timeslice := i32 P.budget
      active := some mrepl
      eventtime := u32 now }
    mrepl P.budget .budget

/-- `sporadic_interval_start` -/
def intervalStart (mrepl now : Nat) : Sporadic :=
  let started := { s.modify mrepl fun r => { r with replenish := false } with
    timeslice := 0
    active := some mrepl }
  let remainder := sub32 P.replPeriod P.budget
  -- a period without a low priority interval goes on with the next budget at once
  if remainder = 0 then budgetStart P started mrepl now
  else wdStart started mrepl remainder .interval

variable (s : Sporadic) (repl : Nat)

/-- `sporadic_replenish_start` -/
def replenishStart : Sporadic :=
  wdStart
    { s.modify repl fun r => { r with replenish := true } with
      timeslice := i32 (s.repls repl).budget
      active := some repl }
    repl (s.repls repl).budget .replenish

/-- `sporadic_replenish_delay` -/
def replenishDelay (repl period replenish : Nat) : Sporadic :=
  { wdStart (s.modify repl fun r => { r with budget := replenish, replenish := true })
      repl period .delay with
    scheduled := ⟨replenish, period⟩ :: s.scheduled }

/-- The part of `sporadic_budget_expire` for a thread that is suspended: the time that it did not
run is given back later. -/
def budgetUnrealized (now : Nat) : Sporadic :=
  let unrealized := sub32 s.eventtime now
  if 0 < unrealized then
    match allocRepl P s with
    | some (repl, s') => s'.replenishDelay repl (sub32 (P.replPeriod / 2) unrealized) unrealized
    | none => s
  else s

/-- `sporadic_budget_expire` -/
def budgetExpire (mrepl now : Nat) : Sporadic :=
  if 0 < s.lockcount then timerCancel P { s with timeslice := -1 }
  else if s.suspended then intervalStart P (budgetUnrealized P s now) mrepl now
  else intervalStart P s mrepl now

/-- `sporadic_interval_expire` -/
def intervalExpire (mrepl now : Nat) : Sporadic :=
  budgetStart P s mrepl now

/-- `sporadic_replenish_expire` -/
def replenishExpire (repl : Nat) : Sporadic :=
  if 0 < s.lockcount then timerCancel P { s with timeslice := -1 }
  else
    { s.modify repl fun r => { r with alloced := false, main := false, replenish := false } with
      timeslice := 0
      nrepls := s.nrepls - 1 }

/-- `sporadic_delay_expire` -/
def delayExpire : Sporadic := replenishStart s repl

/-- The timer of an entry has expired: it no longer runs when its handler is called. -/
def timerExpire (i now : Nat) : Sporadic :=
  let stopped := s.modify i fun r => { r with timer := none }
  match (s.repls i).timer with
  | some .budget => budgetExpire P stopped i now
  | some .interval => intervalExpire P stopped i now
  | some .replenish => replenishExpire P stopped i
  | some .delay => delayExpire stopped i
  | none => s

/-! ## The calls of the scheduler -/

/-- `sched_sporadic_initialize`: a new record is zero. -/
def sporadicInitialize (timeslice : Int) (lockcount : Nat) : Sporadic where
  suspended := false
  nrepls := 0
  eventtime := 0
  active := none
  repls := fun _ => ⟨0, false, false, false, none⟩
  timeslice := timeslice
  lockcount := lockcount
  scheduled := []

/-- `sched_sporadic_reset`. The parameters, which it clears too, are set again by its callers. -/
def reset : Sporadic :=
  { s with
    repls := fun i => if i < P.configMaxRepl then ⟨0, false, false, false, none⟩ else s.repls i
    suspended := true
    nrepls := 0
    eventtime := 0
    active := none }

/-- `sched_sporadic_start`. A missing entry would be dereferenced. -/
def start (now : Nat) : Option Sporadic :=
  match allocRepl P s with
  | none => none
  | some (mrepl, s') =>
    some (budgetStart P
      { s'.modify mrepl fun r => { r with main := true } with
        eventtime := u32 now
        suspended := true } mrepl now)

/-- `sched_sporadic_suspend` -/
def suspend (now : Nat) : Sporadic :=
  if s.suspended then s else { s with suspended := true, eventtime := u32 now }

def setTimeslice (timeslice : Int) : Sporadic := { s with timeslice := timeslice }

/-- The part of `sched_sporadic_resume` after the thread lost `unrealized` ticks of its slice. -/
def resumeLate (unrealized now : Nat) : Option Sporadic :=
  match s.active with
  | none => none
  | some active =>
    let later := s.setTimeslice (i32 (s.timeslice - unrealized))
    if toU32 later.timeslice < (s.repls active).budget then
      match allocRepl P later with
      | some (repl, s') =>
        some (s'.replenishDelay repl (sub32 (P.replPeriod / 2) unrealized) unrealized)
      | none => some { later with eventtime := u32 now }
    else some { later with eventtime := u32 now }

/-- `sched_sporadic_resume` -/
def resume (now : Nat) : Option Sporadic :=
  if s.suspended = false then some s
  else
    let unrealized := sub32 now s.eventtime
    if 0 < s.timeslice ∧ 0 < unrealized then
      -- all of the slice has gone: the timer will expire soon and does the rest
      if toU32 s.timeslice ≤ unrealized then some { s with suspended := false }
      else resumeLate P { s with suspended := false } unrealized now
    else some { s with suspended := false, eventtime := u32 now }

/-- `sched_sporadic_process`. The time slice is compared as an unsigned number. -/
def process (ticks : Nat) (noswitches : Bool) : Sporadic :=
  if s.timeslice = 0 then s
  else if toU32 s.timeslice ≤ ticks then
    if 0 < s.lockcount then { timerCancel P s with timeslice := -1 }
    else if noswitches then { s with timeslice := 1 }
    else if P.replPeriod ≤ P.budget then { s with timeslice := i32 P.budget }
    else s
  else { s with timeslice := i32 (s.timeslice - ticks) }

/-- `sched_sporadic_lowpriority`. A missing entry would be dereferenced. -/
def lowpriority (now : Nat) : Option Sporadic :=
  match allocRepl P { s with timeslice := 0 } with
  | none => none
  | some (mrepl, s') =>
    some (intervalStart P
      { s'.modify mrepl fun r => { r with main := true, budget := P.budget } with
        timeslice := 0
        active := some mrepl } mrepl now)

/-- `sched_unlock`: the slice that ended under the lock is dealt with when the last lock is gone. -/
def unlock (now : Nat) : Option Sporadic :=
  let unlocked := { s with lockcount := s.lockcount - 1 }
  if unlocked.lockcount = 0 ∧ unlocked.timeslice < 0 then lowpriority P unlocked now
  else some unlocked

/-- What can happen to the thread. -/
inductive Event
  | restart (now : Nat)
  | suspend (now : Nat)
  | resume (now : Nat)
  | process (ticks : Nat) (noswitches : Bool)
  | expire (i now : Nat)
  | lock
  | unlock (now : Nat)
  deriving DecidableEq

def handle : Event → Option Sporadic
  | .restart now => (s.reset P).start P now
  | .suspend now => some (s.suspend now)
  | .resume now => s.resume P now
  | .process ticks noswitches => some (s.process P ticks noswitches)
  | .expire i now => some (s.timerExpire P i now)
  | .lock => some { s with lockcount := s.lockcount + 1 }
  | .unlock now => s.unlock P now

/-- Only a running timer expires, and only a locked scheduler is unlocked. -/
def Enabled : Event → Prop
  | .process ticks _ => 0 < ticks ∧ ticks < 4294967296
  | .expire i _ => (s.repls i).timer ≠ none
  | .unlock _ => 0 < s.lockcount
  | _ => True

/-- The budget timer of a suspended thread expires only where it gives nothing back: at the time of
the last event, under the lock, or without a free entry. And a slice that ended under the lock is
not counted on below the least `int32_t`. -/
def Orderly : Event → Prop
  | .process ticks _ => s.timeslice < 0 → -2147483648 ≤ s.timeslice - ticks
  | .expire i now =>
    (s.repls i).timer = some .budget → s.suspended = true → s.lockcount = 0 →
      s.nrepls < P.maxRepl → sub32 s.eventtime now = 0
  | _ => True

instance (s : Sporadic) (e : Event) : Decidable (s.Enabled e) := by
  cases e <;> unfold Enabled <;> infer_instance

instance (e : Event) : Decidable (s.Orderly P e) := by
  cases e <;> unfold Orderly <;> infer_instance

end Functions

/-! ## The entries in use -/

variable {P : SporadicParams} {s t : Sporadic} {i : Nat} {f : Replenishment → Replenishment}

@[simp] theorem repls_modify_self : (s.modify i f).repls i = f (s.repls i) := by
  simp [modify]

theorem repls_modify_of_ne (h : j ≠ i) : (s.modify i f).repls j = s.repls j := by
  simp [modify, h]

/-- The entries with `SPORADIC_FLAG_ALLOCED`. -/
def allocated (P : SporadicParams) (s : Sporadic) : Finset Nat :=
  (Finset.range P.configMaxRepl).filter fun i => (s.repls i).alloced

/-- `nrepls` counts the entries in use, which are among the first `max_repl` ones, and only they
have running timers. -/
structure Counted (P : SporadicParams) (s : Sporadic) : Prop where
  count : s.nrepls = (s.allocated P).card
  scope : ∀ i, (s.repls i).alloced = true → i < P.maxRepl
  armed : ∀ i, (s.repls i).timer ≠ none → (s.repls i).alloced = true

theorem mem_allocated (h : s.Counted P) : i ∈ s.allocated P ↔ (s.repls i).alloced = true := by
  simp only [allocated, Finset.mem_filter, Finset.mem_range]
  exact ⟨And.right, fun hi => ⟨lt_of_lt_of_le (h.scope i hi) P.maxRepl_le, hi⟩⟩

theorem Counted.nrepls_le (h : s.Counted P) : s.nrepls ≤ P.maxRepl := by
  have hsub : s.allocated P ⊆ Finset.range P.maxRepl := by
    intro i hi
    exact Finset.mem_range.mpr (h.scope i ((mem_allocated h).mp hi))
  rw [h.count]
  simpa using Finset.card_le_card hsub

/-- The amounts in the table and in the log are in range. -/
structure Tables (P : SporadicParams) (s : Sporadic) : Prop where
  fits : ∀ i, (s.repls i).Fits P
  scheduled : ∀ d ∈ s.scheduled, d.InRange P

/-- The entries are counted on every run, and the amounts are in range where `q` holds: on the
orderly runs with a budget of at most half of the period. -/
structure Sound (P : SporadicParams) (q : Prop) (s : Sporadic) : Prop where
  counted : s.Counted P
  tables : q → s.Tables P

/-- The time slice is at most the budget there. -/
structure Inv (P : SporadicParams) (q : Prop) (s : Sporadic) : Prop extends s.Sound P q where
  high : q → s.timeslice ≤ P.budget

variable {q : Prop}

theorem Inv.of_mem (h : s.Inv P q) (ht : t ∈ some s) : t.Inv P q := Option.some.inj ht ▸ h

section

variable (h : s.Sound P q)
include h

/-- What is to be shown when one entry and the count change. -/
theorem Sound.recount {n : Nat} (hcount : n = ((s.modify i f).allocated P).card)
    (hscope : (f (s.repls i)).alloced = true → i < P.maxRepl)
    (harmed : (f (s.repls i)).timer ≠ none → (f (s.repls i)).alloced = true)
    (hfits : q → (f (s.repls i)).Fits P) : Sound P q { s.modify i f with nrepls := n } := by
  have heq : ∀ j, (s.modify i f).repls j = if j = i then f (s.repls i) else s.repls j :=
    Function.update_apply _ _ _
  refine ⟨⟨hcount, fun j hj => ?_, fun j hj => ?_⟩,
    fun hq => ⟨fun j => ?_, (h.tables hq).scheduled⟩⟩ <;> dsimp only at * <;> rw [heq] at *
  · split at hj
    · exact ‹j = i› ▸ hscope hj
    · exact h.counted.scope j hj
  · split at hj
    · rw [if_pos ‹_›]
      exact harmed hj
    · rw [if_neg ‹_›]
      exact h.counted.armed j hj
  · split
    · exact hfits hq
    · exact (h.tables hq).fits j

section

variable (hn : t.nrepls = s.nrepls)
include hn

/-- Fields other than the count, the table and the log do not matter. -/
theorem Sound.congr (hr : t.repls = s.repls) (hs : t.scheduled = s.scheduled) : t.Sound P q := by
  refine ⟨⟨?_, hr ▸ h.counted.scope, hr ▸ h.counted.armed⟩,
    fun hq => ⟨hr ▸ (h.tables hq).fits, hs ▸ (h.tables hq).scheduled⟩⟩
  rw [hn, h.counted.count, allocated, allocated, hr]

section

variable (hr : t.repls = Function.update s.repls i r) (hs : t.scheduled = s.scheduled)
  (hflag : r.alloced = (s.repls i).alloced)
include hr hs hflag

/-- A change of an entry that leaves its flag as it is. -/
theorem Sound.edit (htimer : r.timer ≠ none → (s.repls i).alloced = true) (hfits : q → r.Fits P) :
    t.Sound P q := by
  have hsame : ∀ j, ((s.modify i fun _ => r).repls j).alloced = (s.repls j).alloced := by
    intro j
    by_cases hj : j = i
    · rw [hj, repls_modify_self, hflag]
    · rw [repls_modify_of_ne hj]
  refine (h.recount (f := fun _ => r) (n := s.nrepls) ?_ (fun hi => h.counted.scope i (hflag ▸ hi))
    (fun hne => hflag.trans (htimer hne)) hfits).congr hn hr hs
  rw [h.counted.count]
  simp only [allocated, hsame]

/-- A change that leaves the timer as it is, too. -/
theorem Sound.keep (htimer : r.timer = (s.repls i).timer) (hfits : q → r.Fits P) : t.Sound P q :=
  h.edit hn hr hs hflag (fun hne => h.counted.armed i (htimer ▸ hne)) hfits

end

end

theorem Sound.wdStart (hi : (s.repls i).alloced = true) {d : Nat} {k : SporadicTimer}
    (hfits : q → Replenishment.Fits P { s.repls i with timer := some k }) :
    (s.wdStart i d k).Sound P q := by
  unfold Sporadic.wdStart
  split
  · exact h
  · exact h.edit rfl rfl rfl rfl (fun _ => hi) hfits

theorem Sound.clear (hn : t.nrepls = 0) (hs : t.scheduled = s.scheduled)
    (hin : ∀ i, i < P.configMaxRepl → (t.repls i).alloced = false ∧ (t.repls i).timer = none)
    (hout : ∀ i, ¬ i < P.configMaxRepl → t.repls i = s.repls i) : t.Sound P q := by
  have hnone : ∀ i, (t.repls i).alloced = false ∧ (t.repls i).timer = none := by
    intro i
    by_cases hi : i < P.configMaxRepl
    · exact hin i hi
    · -- an entry beyond the table was never taken
      have hfree : (s.repls i).alloced ≠ true :=
        fun hall => hi (lt_of_lt_of_le (h.counted.scope i hall) P.maxRepl_le)
      rw [hout i hi]
      exact ⟨by simpa using hfree, not_not.mp fun hne => hfree (h.counted.armed i hne)⟩
  refine ⟨⟨?_, fun i hi => ?_, fun i hi => absurd (hnone i).2 hi⟩,
    fun hq => ⟨fun i htimer => ?_, hs ▸ (h.tables hq).scheduled⟩⟩
  · simp [hn, allocated, hnone]
  · simp [hnone i] at hi
  · simp [hnone i] at htimer

theorem Sound.timerCancel : (s.timerCancel P).Sound P q :=
  h.clear rfl rfl (fun i hi => by simp [Sporadic.timerCancel, hi])
    fun i hi => by simp [Sporadic.timerCancel, hi]

theorem Sound.reset : (s.reset P).Sound P q :=
  h.clear rfl rfl (fun i hi => by simp [Sporadic.reset, hi])
    fun i hi => by simp [Sporadic.reset, hi]

end

theorem allocRepl_cases (halloc : s.allocRepl P = some (i, t)) :
    s.nrepls < P.maxRepl ∧ i < P.maxRepl ∧ (s.repls i).alloced = false ∧
    t = { s.modify i fun r => { r with alloced := true, main := false, replenish := false }
      with nrepls := s.nrepls + 1 } := by
  unfold allocRepl at halloc
  split at halloc
  · rename_i hlt
    split at halloc
    · rename_i j hfind
      obtain ⟨rfl, rfl⟩ := Prod.mk.inj (Option.some.inj halloc)
      have hmem := List.mem_of_find?_eq_some hfind
      have hfree := List.find?_some hfind
      exact ⟨hlt, List.mem_range.mp hmem, by simpa using hfree, rfl⟩
    · exact nomatch halloc
  · exact nomatch halloc

theorem alloced_modify (hj : (s.repls j).alloced = true)
    (hf : (s.repls i).alloced = true → (f (s.repls i)).alloced = true) :
    ((s.modify i f).repls j).alloced = true := by
  by_cases hji : j = i
  · subst hji
    rw [repls_modify_self]
    exact hf hj
  · rwa [repls_modify_of_ne hji]

section

variable (h : s.Sound P q)
include h

theorem Sound.allocRepl (halloc : s.allocRepl P = some (i, t)) :
    t.Sound P q ∧ (t.repls i).alloced = true := by
  obtain ⟨_, hi, hfree, rfl⟩ := allocRepl_cases halloc
  set g : Replenishment → Replenishment :=
    fun r => { r with alloced := true, main := false, replenish := false }
  refine ⟨h.recount ?_ (fun _ => hi) (fun _ => rfl) fun hq => (h.tables hq).fits i, by simp [g]⟩
  have hins : (s.modify i g).allocated P = insert i (s.allocated P) := by
    ext j
    by_cases hj : j = i
    · subst hj
      have hlt := lt_of_lt_of_le hi P.maxRepl_le
      simp [allocated, g, hlt]
    · simp [allocated, hj, repls_modify_of_ne hj]
  have hnot : i ∉ s.allocated P := by
    rw [mem_allocated h.counted, hfree]
    simp
  rw [hins, Finset.card_insert_of_notMem hnot, h.counted.count]

section

variable (hi : (s.repls i).alloced = true)
include hi

theorem Sound.free (htimer : (s.repls i).timer = none) :
    Sound P q { s.modify i fun r => { r with alloced := false, main := false, replenish := false }
      with nrepls := s.nrepls - 1 } := by
  refine h.recount ?_ nofun (fun hne => absurd htimer hne) fun hq => (h.tables hq).fits i
  set g : Replenishment → Replenishment :=
    fun r => { r with alloced := false, main := false, replenish := false }
  have herase : (s.modify i g).allocated P = (s.allocated P).erase i := by
    ext j
    by_cases hj : j = i
    · subst hj
      simp [allocated, g]
    · simp [allocated, hj, repls_modify_of_ne hj]
  rw [herase, Finset.card_erase_of_mem ((mem_allocated h.counted).mpr hi), h.counted.count]

theorem Sound.replenishDelay {period replenish : Nat}
    (hrange : q → Delayed.InRange P ⟨replenish, period⟩) :
    (s.replenishDelay i period replenish).Sound P q := by
  have hedit : (s.modify i fun r => { r with budget := replenish, replenish := true }).Sound P q :=
    h.keep rfl rfl rfl rfl rfl fun hq _ => ⟨(hrange hq).1, (hrange hq).2.1⟩
  have hstart := hedit.wdStart (i := i) (d := period) (k := .delay) (by simpa using hi)
    fun hq _ => by simpa using ⟨(hrange hq).1, (hrange hq).2.1⟩
  refine ⟨⟨hstart.counted.count, hstart.counted.scope, hstart.counted.armed⟩,
    fun hq => ⟨(hstart.tables hq).fits, fun d hd => ?_⟩⟩
  rcases List.mem_cons.mp hd with rfl | hd
  · exact hrange hq
  · exact (h.tables hq).scheduled d hd

/-- The part of the budget that is given back where the amounts are in range is none. -/
theorem Sound.budgetUnrealized (hzero : q → s.nrepls < P.maxRepl → sub32 s.eventtime now = 0) :
    (s.budgetUnrealized P now).Sound P q ∧
      ((s.budgetUnrealized P now).repls i).alloced = true := by
  unfold Sporadic.budgetUnrealized
  dsimp only
  split
  · rename_i hpos
    split
    · rename_i j t halloc
      obtain ⟨ht, hj⟩ := h.allocRepl halloc
      obtain ⟨hlt, -, -, rfl⟩ := allocRepl_cases halloc
      refine ⟨ht.replenishDelay hj fun hq => absurd (hzero hq hlt) hpos.ne', ?_⟩
      unfold Sporadic.replenishDelay Sporadic.wdStart
      dsimp only
      have hkept := alloced_modify (s := s) (i := j) (f := fun r =>
        { r with alloced := true, main := false, replenish := false }) hi fun _ => rfl
      split
      · exact alloced_modify hkept id
      · exact alloced_modify (alloced_modify hkept id) id
    · exact ⟨h, hi⟩
  · exact ⟨h, hi⟩

end

end

/-! ### The time slice -/

@[simp] theorem timeslice_wdStart (delay : Nat) (timer : SporadicTimer) :
    (s.wdStart i delay timer).timeslice = s.timeslice := by
  unfold wdStart
  split <;> rfl

@[simp] theorem timeslice_replenishDelay (period replenish : Nat) :
    (s.replenishDelay i period replenish).timeslice = s.timeslice := by
  simp [replenishDelay, modify]

/-- Under the lock the handlers of the timers only note that the slice has ended. -/
theorem Sound.endSlice (h : s.Sound P q) :
    (Sporadic.timerCancel P { s with timeslice := -1 }).Inv P q := by
  have hcancel := Sound.timerCancel (h.congr (t := { s with timeslice := -1 }) rfl rfl rfl)
  exact ⟨hcancel, fun _ => (by omega : (-1 : Int) ≤ P.budget)⟩

/-- Fields other than the table, the log and the slice do not matter. -/
theorem Inv.congr (h : s.Inv P q) (hn : t.nrepls = s.nrepls) (hr : t.repls = s.repls)
    (hs : t.scheduled = s.scheduled) (hslice : t.timeslice = s.timeslice) : t.Inv P q :=
  ⟨h.toSound.congr hn hr hs, fun hq => hslice ▸ h.high hq⟩

theorem Inv.setTimeslice (h : s.Inv P q) {x : Int} (hx : q → x ≤ P.budget) :
    (s.setTimeslice x).Inv P q :=
  ⟨h.toSound.congr rfl rfl rfl, hx⟩

section Half

variable (hhalf : q → 2 * P.budget ≤ P.replPeriod)
include hhalf

theorem i32_budget (hq : q) {amount : Nat} (hamount : amount ≤ P.budget) : i32 amount = amount := by
  have := P.replPeriod_lt
  have := hhalf hq
  exact i32_eq_self (by omega) (by omega)

section

variable (h : s.Sound P q)
include h

theorem Sound.budgetStart (hi : (s.repls i).alloced = true) (now : Nat) :
    (s.budgetStart P i now).Inv P q := by
  have hslice := fun hq => i32_budget hhalf hq (le_refl P.budget)
  refine ⟨Sound.wdStart ?_ (by simpa using hi) ?_, ?_⟩
  · exact h.keep rfl rfl rfl rfl rfl fun _ _ => ⟨P.budget_pos, le_rfl⟩
  · rintro - (htimer | htimer) <;> exact nomatch htimer
  · intro hq
    simp [Sporadic.budgetStart, hslice hq]

theorem Sound.intervalStart (hi : (s.repls i).alloced = true) (now : Nat) :
    (s.intervalStart P i now).Inv P q := by
  have hstarted : Sound P q { s.modify i fun r => { r with replenish := false } with
      timeslice := 0
      active := some i } := h.keep rfl rfl rfl rfl rfl fun hq => (h.tables hq).fits i
  unfold Sporadic.intervalStart
  dsimp only
  split
  · exact hstarted.budgetStart hhalf (by simpa using hi) now
  · refine ⟨hstarted.wdStart (by simpa using hi) ?_, ?_⟩
    · rintro - (htimer | htimer) <;> exact nomatch htimer
    · simp

theorem Sound.start (now : Nat) : ∀ t ∈ s.start P now, t.Inv P q := by
  intro t hstart
  unfold Sporadic.start at hstart
  split at hstart
  · exact nomatch hstart
  · rename_i i t halloc
    obtain ⟨ht, hi⟩ := h.allocRepl halloc
    refine (Sound.budgetStart hhalf ?_ (by simpa using hi) now).of_mem hstart
    exact ht.keep rfl rfl rfl rfl rfl fun hq => (ht.tables hq).fits i

theorem Sound.lowpriority (now : Nat) : ∀ t ∈ s.lowpriority P now, t.Inv P q := by
  intro t hlow
  have h' : Sound P q { s with timeslice := 0 } := h.congr rfl rfl rfl
  unfold Sporadic.lowpriority at hlow
  split at hlow
  · exact nomatch hlow
  · rename_i i t halloc
    obtain ⟨ht, hi⟩ := h'.allocRepl halloc
    refine (Sound.intervalStart hhalf ?_ (by simpa using hi) now).of_mem hlow
    exact ht.keep rfl rfl rfl rfl rfl fun _ _ => ⟨P.budget_pos, le_rfl⟩

end

/-- Budget that is given back to a thread with a slice is in range. -/
theorem inRange_of_lt (hq : q) (hpos : 0 < unrealized) (hlt : unrealized < P.budget) :
    Delayed.InRange P ⟨unrealized, sub32 (P.replPeriod / 2) unrealized⟩ := by
  have hsmall := P.replPeriod_lt
  have := hhalf hq
  have hdelay : sub32 (P.replPeriod / 2) unrealized = P.replPeriod / 2 - unrealized :=
    sub32_eq_self (by omega) (by omega)
  refine ⟨hpos, hlt.le, ?_⟩
  rw [hdelay]
  exact Nat.sub_le _ _

section

variable (h : s.Inv P q)
include h

theorem Inv.timerExpire (hord : q → s.Orderly P (.expire i now)) :
    (s.timerExpire P i now).Inv P q := by
  have hstopped : (s.modify i fun r => { r with timer := none }).Sound P q := by
    refine h.edit rfl rfl rfl rfl (fun hne => absurd rfl hne) ?_
    rintro - (hnone | hnone) <;> exact nomatch hnone
  unfold Sporadic.timerExpire
  cases htimer : (s.repls i).timer with
  | none => exact h
  | some timer =>
    have hi : ((s.modify i fun r => { r with timer := none }).repls i).alloced = true := by
      simpa using h.counted.armed i (by rw [htimer]; nofun)
    cases timer with
    | budget =>
      simp only [budgetExpire]
      split
      · exact hstopped.endSlice
      · rename_i hlock
        split
        · rename_i hsusp
          -- the condition leaves nothing to give back, or no entry for it
          obtain ⟨hlater, hi'⟩ := hstopped.budgetUnrealized hi fun hq =>
            hord hq htimer hsusp (Nat.eq_zero_of_not_pos hlock)
          exact hlater.intervalStart hhalf hi' now
        · exact hstopped.intervalStart hhalf hi now
    | interval => exact hstopped.budgetStart hhalf hi now
    | replenish =>
      simp only [replenishExpire]
      split
      · exact hstopped.endSlice
      · refine ⟨?_, fun _ => Int.natCast_nonneg _⟩
        exact (hstopped.free hi (by simp)).congr rfl rfl rfl
    | delay =>
      have hbudget := fun hq => (h.tables hq).fits i (.inl htimer)
      have hslice := fun hq => i32_budget hhalf hq (hbudget hq).2
      simp only [delayExpire]
      refine ⟨Sound.wdStart ?_ ?_ ?_, ?_⟩
      · exact hstopped.keep rfl rfl rfl rfl rfl fun hq _ => by simpa using hbudget hq
      · simpa using hi
      · exact fun hq _ => by simpa using hbudget hq
      · intro hq
        simpa [Sporadic.replenishStart, hslice hq] using (hbudget hq).2

theorem Inv.resumeLate (hpos : 0 < unrealized) (hlt : q → (unrealized : Int) < s.timeslice)
    (now : Nat) : ∀ t ∈ s.resumeLate P unrealized now, t.Inv P q := by
  intro t hlate
  have hhigh := h.high
  have hslice : q → i32 (s.timeslice - unrealized) ≤ P.budget := by
    intro hq
    have hlt := hlt hq
    have hhigh := hhigh hq
    have hhalf := hhalf hq
    have := P.replPeriod_lt
    rw [i32_eq_self (by omega) (by omega)]
    omega
  have hlater := h.setTimeslice hslice
  -- without an entry the unrealized time is lost
  have hlost : Inv P q { Sporadic.setTimeslice s (i32 (s.timeslice - unrealized)) with
      eventtime := u32 now } := hlater.congr rfl rfl rfl rfl
  unfold Sporadic.resumeLate at hlate
  split at hlate
  · exact nomatch hlate
  · dsimp only at hlate
    split at hlate
    · split at hlate
      · rename_i halloc
        obtain ⟨ht, hi⟩ := hlater.allocRepl halloc
        obtain ⟨-, -, -, rfl⟩ := allocRepl_cases halloc
        refine Inv.of_mem ⟨ht.replenishDelay hi fun hq => ?_, ?_⟩ hlate
        · exact inRange_of_lt hhalf hq hpos (by exact_mod_cast (hlt hq).trans_le (hhigh hq))
        · rw [timeslice_replenishDelay]
          exact hlater.high
      · exact hlost.of_mem hlate
    · exact hlost.of_mem hlate

theorem Inv.resume (now : Nat) : ∀ t ∈ s.resume P now, t.Inv P q := by
  intro t hres
  have hresumed : Inv P q { s with suspended := false } := h.congr rfl rfl rfl rfl
  unfold Sporadic.resume at hres
  dsimp only at hres
  split at hres
  · exact h.of_mem hres
  · split at hres
    · rename_i hlate
      obtain ⟨hslice, hpos⟩ := hlate
      split at hres
      · exact hresumed.of_mem hres
      · rename_i hgone
        refine hresumed.resumeLate hhalf hpos (fun hq => ?_) now t hres
        have hhigh := h.high hq
        have hhalf := hhalf hq
        have := P.replPeriod_lt
        rw [toU32_eq_toNat hslice.le (by omega)] at hgone
        dsimp only
        omega
    · refine Inv.of_mem ?_ hres
      exact h.congr rfl rfl rfl rfl

theorem Inv.process {ticks : Nat} {noswitches : Bool}
    (hord : q → s.Orderly P (.process ticks noswitches)) :
    (s.process P ticks noswitches).Inv P q := by
  unfold Sporadic.process
  split
  · exact h
  · split
    · split
      · exact h.endSlice.congr rfl rfl rfl rfl
      · split
        · have := P.budget_pos
          exact h.setTimeslice (x := 1) fun _ => by omega
        · split
          · refine h.setTimeslice (x := i32 P.budget) fun hq => ?_
            rw [i32_budget hhalf hq le_rfl]
          · exact h
    · rename_i hlt
      refine h.setTimeslice fun hq => ?_
      have hhigh := h.high hq
      have hhalf := hhalf hq
      have := P.replPeriod_lt
      by_cases hneg : s.timeslice < 0
      · -- the slice ended under the lock, and its overrun is counted on
        rw [i32_eq_self (hord hq hneg) (by omega)]
        omega
      · rw [toU32_eq_toNat (by omega) (by omega)] at hlt
        rw [i32_eq_self (by omega) (by omega)]
        omega

theorem Inv.handle {e : Event} (hord : q → s.Orderly P e) : ∀ t ∈ s.handle P e, t.Inv P q := by
  intro t ht
  cases e with
  | restart now => exact h.reset.start hhalf now t ht
  | suspend now =>
    refine Inv.of_mem ?_ ht
    unfold Sporadic.suspend
    split
    · exact h
    · exact h.congr rfl rfl rfl rfl
  | resume now => exact h.resume hhalf now t ht
  | process ticks noswitches => exact (h.process hhalf hord).of_mem ht
  | expire i now => exact (h.timerExpire hhalf hord).of_mem ht
  | lock =>
    refine Inv.of_mem ?_ ht
    exact h.congr rfl rfl rfl rfl
  | unlock now =>
    have hunlocked : Inv P q { s with lockcount := s.lockcount - 1 } := h.congr rfl rfl rfl rfl
    simp only [Sporadic.handle, Sporadic.unlock] at ht
    split at ht
    · exact hunlocked.lowpriority hhalf now t ht
    · exact hunlocked.of_mem ht

end

end Half

/-! ## Runs -/

/-- The thread after the first start of the policy. -/
def Started (P : SporadicParams) (s : Sporadic) : Prop :=
  ∃ timeslice lockcount now, (sporadicInitialize timeslice lockcount).start P now = some s

/-- The runs of any events. -/
def Run (P : SporadicParams) : Sporadic → Prop :=
  Reach (Started P) (LabelledStep Enabled (handle P))

/-- The runs of orderly events. -/
def OrderlyRun (P : SporadicParams) : Sporadic → Prop :=
  Reach (Started P) (LabelledStep (fun s e => s.Enabled e ∧ s.Orderly P e) (handle P))

theorem Started.inv (hhalf : q → 2 * P.budget ≤ P.replPeriod) (h : Started P s) : s.Inv P q := by
  obtain ⟨timeslice, lockcount, now, hstart⟩ := h
  have hzero : (sporadicInitialize timeslice lockcount).Sound P q := by
    refine ⟨⟨?_, ?_, ?_⟩, fun _ => ⟨fun i => ?_, fun d hd => nomatch hd⟩⟩
    · simp [sporadicInitialize, allocated]
    · simp [sporadicInitialize]
    · simp [sporadicInitialize]
    · rintro (hnone | hnone) <;> exact nomatch hnone
  exact hzero.start hhalf now s hstart

theorem Run.counted (h : Run P s) : s.Counted P := by
  have hinv : s.Inv P False := by
    refine Reach.invariant (fun s hs => hs.inv nofun) ?_ h
    rintro s t hs ⟨e, -, hstep⟩
    exact hs.handle nofun nofun t hstep
  exact hinv.counted

theorem OrderlyRun.tables (hhalf : 2 * P.budget ≤ P.replPeriod) (h : OrderlyRun P s) :
    s.Tables P := by
  have hinv : s.Inv P True := by
    refine Reach.invariant (fun s hs => hs.inv fun _ => hhalf) ?_ h
    rintro s t hs ⟨e, ⟨-, hord⟩, hstep⟩
    exact hs.handle (fun _ => hhalf) (fun _ => hord) t hstep
  exact hinv.tables trivial

end Sporadic

/-- On every run `nrepls` counts the entries in use and is at most `max_repl`. If the budget is at
most half of the period, then on every orderly run the delayed replenishments give back a part of
the budget after at most half of the period. -/
theorem sporadic_replenishments_bounded (P : SporadicParams) :
    (∀ s, Sporadic.Run P s → s.nrepls = (s.allocated P).card ∧ s.nrepls ≤ P.maxRepl) ∧
    (2 * P.budget ≤ P.replPeriod → ∀ s, Sporadic.OrderlyRun P s → ∀ d ∈ s.scheduled,
      1 ≤ d.amount ∧ d.amount ≤ P.budget ∧ d.delay ≤ P.replPeriod / 2) := by
  refine ⟨fun s h => ?_, fun hhalf s h d hd => ?_⟩
  · have hcounted := h.counted
    exact ⟨hcounted.count, hcounted.nrepls_le⟩
  · exact (h.tables hhalf).scheduled d hd

/-- A budget of 10 in a period of 40 ticks, with two replenishments. -/
def sporadicSample : SporadicParams where
  configMaxRepl := 3
  maxRepl := 2
  replPeriod := 40
  budget := 10
  one_le_maxRepl := by decide
  maxRepl_le := by decide
  budget_pos := by decide
  budget_le := by decide
  replPeriod_lt := by decide

/-- The sample thread as it is started at time 100. -/
def sporadicSampleStart : Sporadic :=
  ((Sporadic.sporadicInitialize 0 0).start sporadicSample 100).getD (.sporadicInitialize 0 0)

theorem sporadicSampleStart_started : Sporadic.Started sporadicSample sporadicSampleStart :=
  ⟨0, 0, 100, rfl⟩

/-- The thread runs 4 ticks late and gets them back 16 ticks later. -/
theorem sporadic_replenishments_bounded_sample :
    ∃ s, Sporadic.OrderlyRun sporadicSample s ∧ s.nrepls = 2 ∧ s.scheduled = [⟨4, 16⟩] ∧
      ∀ d ∈ s.scheduled, 1 ≤ d.amount ∧ d.amount ≤ 10 ∧ d.delay ≤ 20 := by
  have hrun : Sporadic.OrderlyRun sporadicSample
      (after (Sporadic.handle sporadicSample) sporadicSampleStart [.resume 104]) :=
    Reach.after _ (.start sporadicSampleStart_started) (by decide)
  exact ⟨_, hrun, by decide, by decide,
    (sporadic_replenishments_bounded sporadicSample).2 (by decide) _ hrun⟩

/-- A budget of 30 in a period of 40 ticks: `pthread_create` takes it, `nxsched_setparam` does
not. -/
def sporadicLong : SporadicParams where
  configMaxRepl := 3
  maxRepl := 2
  replPeriod := 40
  budget := 30
  one_le_maxRepl := by decide
  maxRepl_le := by decide
  budget_pos := by decide
  budget_le := by decide
  replPeriod_lt := by decide

/-- The budget timer of a thread expires while the thread is suspended since the start: the
unrealized time is subtracted the wrong way round, and the replenishment gives back almost
`2 ^ 32` ticks, after more than half of the period. And a thread with a budget beyond half of the
period that resumes late asks for a delay that `wd_start` refuses. -/
theorem budget_expire_gives_too_much :
    (∃ s, Sporadic.Run sporadicSample s ∧ ∃ d ∈ s.scheduled,
      d.amount = 4294967286 ∧ d.delay = 30 ∧ sporadicSample.budget < d.amount ∧
        sporadicSample.replPeriod / 2 < d.delay) ∧
    ∃ s, Sporadic.Run sporadicLong s ∧ ∃ d ∈ s.scheduled,
      d.amount = 25 ∧ d.delay = 4294967291 ∧ (s.repls 1).timer = none := by
  have hlong : Sporadic.Started sporadicLong
      (((Sporadic.sporadicInitialize 0 0).start sporadicLong 100).getD
        (.sporadicInitialize 0 0)) := ⟨0, 0, 100, rfl⟩
  have hexpire : Sporadic.Run sporadicSample
      (after (Sporadic.handle sporadicSample) sporadicSampleStart [.expire 0 110]) :=
    Reach.after _ (.start sporadicSampleStart_started) (by decide)
  have hresume : Sporadic.Run sporadicLong
      (after (Sporadic.handle sporadicLong) _ [.resume 125]) :=
    Reach.after _ (.start hlong) (by decide)
  exact ⟨⟨_, hexpire, ⟨4294967286, 30⟩, by decide, by decide⟩,
    _, hresume, ⟨25, 4294967291⟩, by decide, by decide⟩

end BaseNx.Sched
