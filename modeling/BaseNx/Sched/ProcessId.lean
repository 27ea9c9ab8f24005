import BaseNx.Errno
import BaseNx.Lib.MachineInt
import BaseNx.Lib.Reach

/-!
# Process IDs

`task_assignpid` numbers the tasks with a wrapping counter of 16 bits and looks for a free slot of
`g_pidhash` under the number modulo `CONFIG_MAX_TASKS`; `sched_releasetcb` clears the slot, and
`sched_gettcb` looks a task up. In every run the pids of the live tasks are distinct and
`sched_gettcb` finds exactly the live task with a pid (`pids_identify_tasks`).

The counter never takes the value zero, so that one residue is left out where it wraps; this is the
slot of the idle task. `CONFIG_MAX_TASKS` attempts therefore reach every free slot as long as a pid
has room for every slot number, that is for at most 32768 slots. With more slots those from 32768 on
are never used (`assign_fails_with_free_slots`).
-/

namespace BaseNx.ProcessId

open Lib
open Function (update update_of_ne)

/-! ## The table -/

/-- The address of a TCB. -/
abbrev TcbId := Nat

/-- `struct pidhash_s` -/
structure Slot where
  tcb : Option TcbId
  pid : Int
  deriving DecidableEq

/-- `INVALID_PROCESS_ID` -/
def invalidProcessId : Int := -1

/-- `g_pidhash`, `g_lastpid` and the field `pid` of the TCBs. -/
structure PidTable where
  pidhash : Nat → Slot
  lastpid : Int
  pid : TcbId → Int

variable (maxTasks : Nat) (s : PidTable) (tcb : TcbId)

/-- `PIDHASH` -/
def pidHash (pid : Int) : Nat := pid.toNat &&& (maxTasks - 1)

/-- The candidate after the last pid: `++g_lastpid`, or one if that is not positive. -/
def nextPid (lastpid : Int) : Int :=
  if i16 (lastpid + 1) ≤ 0 then 1 else i16 (lastpid + 1)

/-- A task gets a slot and a pid. -/
def PidTable.enter (s : PidTable) (ndx : Nat) (tcb : TcbId) (pid : Int) : PidTable :=
  { pidhash := update s.pidhash ndx ⟨some tcb, pid⟩
    lastpid := pid
    pid := update s.pid tcb pid }

/-- The loop of `task_assignpid`, with so many tries left. -/
def assignLoop (maxTasks : Nat) (tcb : TcbId) : Nat → PidTable → Int × PidTable
  | 0, s => (ERROR, s)
  | tries + 1, s =>
    let pid := nextPid s.lastpid
    let ndx := pidHash maxTasks pid
    if (s.pidhash ndx).tcb = none then (OK, s.enter ndx tcb pid)
    else assignLoop maxTasks tcb tries { s with lastpid := pid }

/-- `task_assignpid` -/
def taskAssignpid : Int × PidTable :=
  assignLoop maxTasks tcb maxTasks s

/-- `sched_releasepid` -/
def schedReleasepid (pid : Int) : PidTable :=
  { s with pidhash := update s.pidhash (pidHash maxTasks pid) ⟨none, invalidProcessId⟩ }

/-- `sched_releasetcb`, for the pid: a TCB that got none is left alone. -/
def schedReleasetcb : PidTable :=
  if s.pid tcb ≠ 0 then schedReleasepid maxTasks s (s.pid tcb) else s

/-- `sched_gettcb` -/
def schedGettcb (pid : Int) : Option TcbId :=
  if 0 ≤ pid ∧ pid = (s.pidhash (pidHash maxTasks pid)).pid then
    (s.pidhash (pidHash maxTasks pid)).tcb
  else none

/-- The table that `os_start` leaves: only the idle task has a slot. -/
def PidTable.start (idle : TcbId) : PidTable :=
  { pidhash := fun i => if i = 0 then ⟨some idle, 0⟩ else ⟨none, invalidProcessId⟩
    lastpid := 0
    pid := fun _ => 0 }

/-! ## The counter -/

theorem pidHash_eq_mod (k : Nat) (pid : Int) : pidHash (2 ^ k) pid = pid.toNat % 2 ^ k :=
  Nat.and_two_pow_sub_one_eq_mod pid.toNat k

variable {p : Int}

theorem nextPid_of_lt (h0 : 0 ≤ p) (h : p < 32767) : nextPid p = p + 1 := by
  have hself : i16 (p + 1) = p + 1 := i16_eq_self (by omega) (by omega)
  rw [nextPid, hself, if_neg (by omega)]

theorem nextPid_wrap : nextPid 32767 = 1 := by decide

theorem nextPid_range (h0 : 0 ≤ p) (h : p ≤ 32767) : 1 ≤ nextPid p ∧ nextPid p ≤ 32767 := by
  rcases eq_or_lt_of_le h with rfl | hlt
  · rw [nextPid_wrap]
    decide
  · rw [nextPid_of_lt h0 hlt]
    omega

/-- The candidates of one call, over the point where the counter wraps. -/
theorem nextPid_iterate (h0 : 0 ≤ p) (h : p ≤ 32767) (j : Nat) (hj : (j : Int) ≤ 32767) :
    nextPid^[j] p = if p + j ≤ 32767 then p + j else p + j - 32767 := by
  induction j with
  | zero => simp [h]
  | succ j ih =>
    rw [Function.iterate_succ_apply', ih (by omega)]
    push_cast
    -- the wrap lies before, at or behind this step
    rcases lt_trichotomy (p + j) 32767 with hlt | heq | hgt
    · rw [if_pos (by omega), if_pos (by omega), nextPid_of_lt (by omega) hlt]
      omega
    · rw [if_pos (by omega), heq, nextPid_wrap, if_neg (by omega)]
      omega
    · rw [if_neg (by omega), if_neg (by omega), nextPid_of_lt (by omega) (by omega)]
      omega

/-- Every slot but that of the idle task is a candidate within `CONFIG_MAX_TASKS` attempts. -/
theorem exists_candidate {k : Nat} (hk : k ≤ 15) (h0 : 0 ≤ p) (h : p ≤ 32767) {r : Nat}
    (hr : 0 < r) (hrM : r < 2 ^ k) :
    ∃ j, 0 < j ∧ j ≤ 2 ^ k ∧ pidHash (2 ^ k) (nextPid^[j] p) = r := by
  obtain ⟨n, rfl⟩ := Int.eq_ofNat_of_zero_le h0
  have hpow : 2 ^ k * 2 ^ (15 - k) = 32768 := by
    rw [← pow_add, Nat.add_sub_cancel' hk]
    rfl
  generalize hM : 2 ^ k = M at *
  generalize 2 ^ (15 - k) = q at *
  have hbound : M ≤ 32768 := Nat.le_of_dvd (by norm_num) ⟨q, hpow.symm⟩
  -- the distance to the next number with this residue
  obtain ⟨d, hd0, hdM, hmod⟩ : ∃ d, 0 < d ∧ d ≤ M ∧ (n + d) % M = r := by
    refine ⟨if n % M < r then r - n % M else r + M - n % M, ?_⟩
    have hn : n % M < M := Nat.mod_lt _ (by omega)
    split_ifs with hlt
    · refine ⟨by omega, by omega, ?_⟩
      rw [Nat.add_mod, Nat.mod_eq_of_lt (show r - n % M < M by omega)]
      rw [show n % M + (r - n % M) = r by omega, Nat.mod_eq_of_lt hrM]
    · refine ⟨by omega, by omega, ?_⟩
      rw [← Nat.mod_add_div n M]
      have hsum : n % M + M * (n / M) + (r + M - (n % M + M * (n / M)) % M) =
          r + M * (n / M + 1) := by
        rw [Nat.add_mul_mod_self_left, Nat.mod_mod, mul_add]
        omega
      rw [hsum, Nat.add_mul_mod_self_left, Nat.mod_eq_of_lt hrM]
  by_cases hwrap : n + d ≤ 32767
  · refine ⟨d, hd0, hdM, ?_⟩
    rw [← hM, pidHash_eq_mod, hM, nextPid_iterate h0 h d (by omega), if_pos (by omega)]
    rw [show ((n : Int) + d).toNat = n + d by omega, hmod]
  · -- behind the wrap the counter is the residue itself
    have hge : 32768 + r ≤ n + d := by
      have hdiv := Nat.div_add_mod (n + d) M
      have hq : q ≤ (n + d) / M :=
        (Nat.le_div_iff_mul_le (by omega)).mpr (by rw [Nat.mul_comm]; omega)
      have hmul : M * q ≤ M * ((n + d) / M) := Nat.mul_le_mul_left M hq
      omega
    refine ⟨r + 32767 - n, by omega, by omega, ?_⟩
    rw [← hM, pidHash_eq_mod, hM, nextPid_iterate h0 h _ (by omega), if_neg (by omega)]
    rw [show ((n : Int) + ((r + 32767 - n : Nat) : Int) - 32767).toNat = r by omega,
      Nat.mod_eq_of_lt hrM]

/-! ## The loop of `task_assignpid` -/

section Assign

variable {maxTasks : Nat} {tcb : TcbId} {s s' : PidTable}

/-- A call fails and only moves the counter, with every candidate occupied, or it enters the task
under a candidate whose slot is free. -/
theorem assignLoop_cases (tries : Nat) (h0 : 0 ≤ s.lastpid) (h : s.lastpid ≤ 32767) {ret : Int}
    (hloop : assignLoop maxTasks tcb tries s = (ret, s')) :
    (ret = ERROR ∧ s' = { s with lastpid := s'.lastpid } ∧ 0 ≤ s'.lastpid ∧ s'.lastpid ≤ 32767 ∧
      ∀ j, 0 < j → j ≤ tries → (s.pidhash (pidHash maxTasks (nextPid^[j] s.lastpid))).tcb ≠ none) ∨
    (ret = OK ∧ ∃ pid, 1 ≤ pid ∧ pid ≤ 32767 ∧ (s.pidhash (pidHash maxTasks pid)).tcb = none ∧
      s' = s.enter (pidHash maxTasks pid) tcb pid) := by
  induction tries generalizing s with
  | zero =>
    cases hloop
    exact Or.inl ⟨rfl, rfl, h0, h, fun j hj hj' => absurd hj (by omega)⟩
  | succ tries ih =>
    obtain ⟨hlo, hhi⟩ := nextPid_range h0 h
    rw [assignLoop] at hloop
    split_ifs at hloop with hfree
    · cases hloop
      exact Or.inr ⟨rfl, nextPid s.lastpid, hlo, hhi, hfree, rfl⟩
    · rcases ih (by dsimp only; omega) hhi hloop with
        ⟨rfl, heq, h0', h', hocc⟩ | ⟨rfl, pid, hpid⟩
      · refine Or.inl ⟨rfl, heq, h0', h', fun j hj hj' => ?_⟩
        -- the first candidate was occupied, the others are those of the rest of the loop
        cases j with
        | zero => omega
        | succ j =>
          cases j with
          | zero => exact hfree
          | succ j =>
            rw [Function.iterate_succ_apply]
            exact hocc (j + 1) (by omega) (by omega)
      · exact Or.inr ⟨rfl, pid, hpid⟩

/-- Whether a call fails depends on the slots and on the counter only. -/
theorem assignLoop_ret (tcb tcb' : TcbId) (tries : Nat) (hhash : s'.pidhash = s.pidhash)
    (hlast : s'.lastpid = s.lastpid) :
    (assignLoop maxTasks tcb tries s).1 = (assignLoop maxTasks tcb' tries s').1 := by
  induction tries generalizing s s' with
  | zero => rfl
  | succ tries ih =>
    rw [assignLoop, assignLoop, hhash, hlast]
    split_ifs
    · rfl
    · exact ih rfl rfl

end Assign

/-! ## Runs -/

/-- The table with the list of the tasks that have a pid. -/
structure Tasks where
  table : PidTable
  live : List TcbId

/-- The calls of a run. A new TCB is zeroed before `task_assignpid`. -/
inductive Call
  | assign (tcb : TcbId)
  | release (tcb : TcbId)
  deriving DecidableEq

/-- `kmm_zalloc` of a TCB. -/
def PidTable.zero (s : PidTable) (tcb : TcbId) : PidTable :=
  { s with pid := update s.pid tcb 0 }

def Tasks.apply (maxTasks : Nat) (s : Tasks) : Call → Option Tasks
  | .assign tcb =>
    let r := taskAssignpid maxTasks (s.table.zero tcb) tcb
    some ⟨r.2, if r.1 = OK then tcb :: s.live else s.live⟩
  | .release tcb => some ⟨schedReleasetcb maxTasks s.table tcb, s.live.erase tcb⟩

/-- A new TCB is none that is in use; a TCB that is released is live or got no pid. -/
def Tasks.Allowed (idle : TcbId) (s : Tasks) : Call → Prop
  | .assign tcb => tcb ≠ idle ∧ tcb ∉ s.live
  | .release tcb => tcb ≠ idle ∧ (tcb ∈ s.live ∨ s.table.pid tcb = 0)

/-- The states of the runs after `os_start`. -/
def Tasks.Run (maxTasks : Nat) (idle : TcbId) : Tasks → Prop :=
  Reach (fun s => s = ⟨.start idle, []⟩)
    (LabelledStep (Tasks.Allowed idle) (Tasks.apply maxTasks))

/-- Slots correspond to the live tasks and the idle task. -/
structure Tasks.Ok (maxTasks : Nat) (idle : TcbId) (s : Tasks) : Prop where
  last : 0 ≤ s.table.lastpid ∧ s.table.lastpid ≤ 32767
  nodup : (idle :: s.live).Nodup
  idle_pid : s.table.pid idle = 0
  pid : ∀ t ∈ s.live, 1 ≤ s.table.pid t ∧ s.table.pid t ≤ 32767
  slot : ∀ i t, (s.table.pidhash i).tcb = some t →
    t ∈ idle :: s.live ∧ pidHash maxTasks (s.table.pid t) = i
  task : ∀ t ∈ idle :: s.live,
    s.table.pidhash (pidHash maxTasks (s.table.pid t)) = ⟨some t, s.table.pid t⟩

variable {tcb : TcbId}

namespace Tasks.Ok

variable {maxTasks : Nat} {idle : TcbId} {s : Tasks}

theorem start : (⟨.start idle, []⟩ : Tasks).Ok maxTasks idle where
  last := ⟨le_refl 0, show (0 : Int) ≤ 32767 by decide⟩
  nodup := List.nodup_singleton idle
  idle_pid := rfl
  pid := by simp
  slot := by
    intro i t hi
    by_cases h0 : i = 0
    · simp [PidTable.start, h0, pidHash] at hi ⊢
      exact hi.symm
    · simp [PidTable.start, h0] at hi
  task := by simp [PidTable.start, pidHash]

section

variable (h : s.Ok maxTasks idle)
include h

/-- The counter and the pid of a task without one may change. -/
theorem congr {table : PidTable} (hlast : 0 ≤ table.lastpid ∧ table.lastpid ≤ 32767)
    (hhash : table.pidhash = s.table.pidhash)
    (hpid : ∀ t ∈ idle :: s.live, table.pid t = s.table.pid t) :
    (⟨table, s.live⟩ : Tasks).Ok maxTasks idle where
  last := hlast
  nodup := h.nodup
  idle_pid := (hpid idle List.mem_cons_self).trans h.idle_pid
  pid t ht := by
    rw [hpid t (List.mem_cons_of_mem _ ht)]
    exact h.pid t ht
  slot i t ht := by
    rw [hhash] at ht
    obtain ⟨hlive, hndx⟩ := h.slot i t ht
    rw [hpid t hlive]
    exact ⟨hlive, hndx⟩
  task t ht := by
    rw [hhash, hpid t ht]
    exact h.task t ht

theorem enter (hnew : tcb ∉ idle :: s.live) {pid : Int} (hlo : 1 ≤ pid) (hhi : pid ≤ 32767)
    (hfree : (s.table.pidhash (pidHash maxTasks pid)).tcb = none) :
    (⟨s.table.enter (pidHash maxTasks pid) tcb pid, tcb :: s.live⟩ : Tasks).Ok maxTasks idle := by
  have hother : ∀ t ∈ idle :: s.live, t ≠ tcb := fun t ht => ne_of_mem_of_not_mem ht hnew
  have hperm := List.Perm.swap tcb idle s.live
  constructor
  · exact ⟨le_trans (by decide) hlo, hhi⟩
  · exact hperm.nodup_iff.2 (List.nodup_cons.2 ⟨hnew, h.nodup⟩)
  · exact (update_of_ne (hother idle List.mem_cons_self) _ _).trans h.idle_pid
  · intro t ht
    dsimp only [PidTable.enter]
    rcases List.mem_cons.1 ht with rfl | ht
    · simp [hlo, hhi]
    · rw [update_of_ne (hother t (List.mem_cons_of_mem _ ht))]
      exact h.pid t ht
  · intro i t ht
    rw [hperm.mem_iff]
    dsimp only [PidTable.enter] at ht ⊢
    by_cases hndx : i = pidHash maxTasks pid
    · subst hndx
      obtain rfl : tcb = t := by simpa using ht
      simp
    · rw [update_of_ne hndx] at ht
      obtain ⟨hlive, hhash⟩ := h.slot i t ht
      rw [update_of_ne (hother t hlive)]
      exact ⟨List.mem_cons_of_mem _ hlive, hhash⟩
  · intro t ht
    rw [hperm.mem_iff] at ht
    dsimp only [PidTable.enter]
    rcases List.mem_cons.1 ht with rfl | ht
    · simp
    · have hslot := h.task t ht
      rw [update_of_ne (hother t ht), update_of_ne, hslot]
      -- the slot of a task is not free
      intro he
      rw [← he, hslot] at hfree
      nomatch hfree

theorem release (hlive : tcb ∈ s.live) :
    (⟨schedReleasepid maxTasks s.table (s.table.pid tcb), s.live.erase tcb⟩ : Tasks).Ok
      maxTasks idle := by
  have hidle : tcb ≠ idle := fun he => (List.nodup_cons.1 h.nodup).1 (he ▸ hlive)
  have herase : idle :: s.live.erase tcb = (idle :: s.live).erase tcb := by
    rw [List.erase_cons_tail (by simpa using hidle.symm)]
  have hmem : ∀ t, t ∈ idle :: s.live.erase tcb ↔ t ≠ tcb ∧ t ∈ idle :: s.live := fun t => by
    rw [herase, h.nodup.mem_erase_iff]
  constructor
  · exact h.last
  · rw [herase]
    exact h.nodup.erase tcb
  · exact h.idle_pid
  · exact fun t ht => h.pid t (List.mem_of_mem_erase ht)
  · intro i t ht
    rw [hmem]
    dsimp only [schedReleasepid] at ht
    by_cases hndx : i = pidHash maxTasks (s.table.pid tcb)
    · simp [hndx] at ht
    · rw [update_of_ne hndx] at ht
      obtain ⟨htlive, hhash⟩ := h.slot i t ht
      refine ⟨⟨?_, htlive⟩, hhash⟩
      rintro rfl
      exact hndx hhash.symm
  · intro t ht
    obtain ⟨hne, htlive⟩ := (hmem t).1 ht
    have hslot := h.task t htlive
    dsimp only [schedReleasepid]
    rw [update_of_ne, hslot]
    -- two tasks do not share a slot
    intro he
    rw [he, h.task tcb (List.mem_cons_of_mem _ hlive)] at hslot
    exact hne (Option.some.inj (congrArg Slot.tcb hslot)).symm

theorem apply (call : Call) (hok : s.Allowed idle call) :
    ∃ t, s.apply maxTasks call = some t ∧ t.Ok maxTasks idle := by
  cases call with
  | assign tcb =>
    have hnew : tcb ∉ idle :: s.live := List.not_mem_cons_of_ne_of_not_mem hok.1 hok.2
    refine ⟨_, rfl, ?_⟩
    have hzero : (⟨s.table.zero tcb, s.live⟩ : Tasks).Ok maxTasks idle :=
      h.congr h.last rfl fun t ht => update_of_ne (ne_of_mem_of_not_mem ht hnew) _ _
    have hcases := assignLoop_cases (s := s.table.zero tcb) maxTasks hzero.last.1 hzero.last.2
      (Prod.eta (taskAssignpid maxTasks (s.table.zero tcb) tcb)).symm
    rcases hcases with ⟨hret, heq, hlo, hhi, -⟩ | ⟨hret, pid, hlo, hhi, hfree, heq⟩
    · rw [hret, if_neg (by decide)]
      refine hzero.congr ⟨hlo, hhi⟩ ?_ fun t _ => ?_
      · rw [heq]
      · rw [heq]
    · rw [hret, if_pos rfl, heq]
      exact hzero.enter hnew hlo hhi hfree
  | release tcb =>
    refine ⟨_, rfl, ?_⟩
    rw [schedReleasetcb]
    split_ifs with hpid
    · rcases hok.2 with hlive | h0
      · exact h.release hlive
      · exact absurd h0 hpid
    · -- a live task has a pid
      have hdead : tcb ∉ s.live := by
        intro hlive
        have hpos := (h.pid tcb hlive).1
        omega
      rw [List.erase_of_not_mem hdead]
      exact h

end

end Tasks.Ok

theorem Tasks.Run.ok {maxTasks : Nat} {idle : TcbId} {s : Tasks} (h : Tasks.Run maxTasks idle s) :
    s.Ok maxTasks idle := by
  refine Reach.labelled ?_ (fun s call hs hok => hs.apply call hok) h
  rintro s rfl
  exact .start

namespace Tasks.Ok

variable {k : Nat} {maxTasks : Nat} {idle : TcbId} {s : Tasks}

theorem pid_injective (h : s.Ok maxTasks idle) {t t' : TcbId} (ht : t ∈ s.live) (ht' : t' ∈ s.live)
    (he : s.table.pid t = s.table.pid t') : t = t' := by
  have hslot := h.task t (List.mem_cons_of_mem _ ht)
  rw [he, h.task t' (List.mem_cons_of_mem _ ht')] at hslot
  exact (Option.some.inj (congrArg Slot.tcb hslot)).symm

theorem gettcb_iff (h : s.Ok maxTasks idle) (pid : Int) (t : TcbId) :
    schedGettcb maxTasks s.table pid = some t
      ↔ (pid = 0 ∧ t = idle) ∨ (t ∈ s.live ∧ s.table.pid t = pid) := by
  have hmem : schedGettcb maxTasks s.table pid = some t
      ↔ t ∈ idle :: s.live ∧ s.table.pid t = pid := by
    rw [schedGettcb]
    constructor
    · intro hget
      split_ifs at hget with hpid
      obtain ⟨hlive, hndx⟩ := h.slot _ t hget
      rw [← hndx, h.task t hlive] at hpid
      exact ⟨hlive, hpid.2.symm⟩
    · rintro ⟨hlive, rfl⟩
      have hpos : 0 ≤ s.table.pid t := by
        rcases List.mem_cons.1 hlive with rfl | hlive
        · exact h.idle_pid.ge
        · exact le_trans (by decide) (h.pid t hlive).1
      rw [h.task t hlive, if_pos ⟨hpos, rfl⟩]
  rw [hmem, List.mem_cons, or_and_right]
  refine or_congr_left ⟨?_, ?_⟩
  · rintro ⟨rfl, rfl⟩
    exact ⟨h.idle_pid, rfl⟩
  · rintro ⟨rfl, rfl⟩
    exact ⟨rfl, h.idle_pid⟩

theorem full_of_fails (h : s.Ok (2 ^ k) idle) (hk : k ≤ 15)
    (hfail : (taskAssignpid (2 ^ k) s.table tcb).1 ≠ OK) {i : Nat} (hi : i < 2 ^ k) :
    (s.table.pidhash i).tcb ≠ none := by
  rcases assignLoop_cases (2 ^ k) h.last.1 h.last.2
    (Prod.eta (taskAssignpid (2 ^ k) s.table tcb)).symm with ⟨-, -, -, -, hocc⟩ | ⟨hok, -⟩
  · rcases eq_zero_or_pos i with rfl | hpos
    · have hidle := h.task idle List.mem_cons_self
      simp [h.idle_pid, pidHash] at hidle
      simp [hidle]
    · obtain ⟨j, hj0, hjM, hhash⟩ := exists_candidate hk h.last.1 h.last.2 hpos hi
      exact hhash ▸ hocc j hj0 hjM
  · exact absurd hok hfail

theorem length_live_le (h : s.Ok maxTasks idle) : s.live.length ≤ 32767 := by
  have hcard : s.live.toFinset.card ≤ (Finset.Icc (1 : Int) 32767).card := by
    refine Finset.card_le_card_of_injOn s.table.pid ?_ ?_
    · intro t ht
      simpa using h.pid t (by simpa using ht)
    · intro t ht t' ht' he
      exact h.pid_injective (by simpa using ht) (by simpa using ht') he
  rwa [List.toFinset_card_of_nodup (List.nodup_cons.1 h.nodup).2, Int.card_Icc] at hcard

end Tasks.Ok

/-- In every run the pids identify the live tasks, and with at most 32768 slots a call of
`task_assignpid` fails only if all slots are taken. -/
theorem pids_identify_tasks (k : Nat) (idle : TcbId) {s : Tasks} (h : Tasks.Run (2 ^ k) idle s) :
    (∀ t ∈ s.live, 0 < s.table.pid t) ∧
    (∀ t ∈ s.live, ∀ t' ∈ s.live, s.table.pid t = s.table.pid t' → t = t') ∧
    (∀ pid t, schedGettcb (2 ^ k) s.table pid = some t
      ↔ (pid = 0 ∧ t = idle) ∨ (t ∈ s.live ∧ s.table.pid t = pid)) ∧
    (k ≤ 15 → ∀ tcb, (taskAssignpid (2 ^ k) s.table tcb).1 ≠ OK →
      ∀ i < 2 ^ k, (s.table.pidhash i).tcb ≠ none) := by
  have hok := h.ok
  refine ⟨fun t ht => ?_, fun t ht t' ht' => hok.pid_injective ht ht', hok.gettcb_iff,
    fun hk tcb hfail i hi => hok.full_of_fails hk hfail hi⟩
  have hlo := (hok.pid t ht).1
  omega

/-- Two tasks in a table of four slots, and one of them released. -/
theorem pids_identify_tasks_sample :
    ∃ s, Tasks.Run (2 ^ 2) 0 s ∧ s.live = [2] ∧ schedGettcb (2 ^ 2) s.table 2 = some 2 ∧
      schedGettcb (2 ^ 2) s.table 1 = none ∧
      ∀ t ∈ s.live, ∀ t' ∈ s.live, s.table.pid t = s.table.pid t' → t = t' := by
  have hrun : Tasks.Run (2 ^ 2) 0
      (after (Tasks.apply (2 ^ 2)) ⟨.start 0, []⟩ [.assign 1, .assign 2, .release 1]) := by
    refine Reach.after _ (.start rfl) ⟨⟨by decide, by decide⟩, rfl, ⟨by decide, by decide⟩, rfl,
      ⟨by decide, Or.inl (by decide)⟩, rfl, trivial⟩
  exact ⟨_, hrun, by decide, by decide, by decide, (pids_identify_tasks 2 0 hrun).2.1⟩

/-! ## More slots than pids -/

theorem assign_fails_with_free_slots :
    ∃ s, Tasks.Run (2 ^ 16) 0 s ∧ (taskAssignpid (2 ^ 16) s.table 40000).1 = ERROR ∧
      (s.table.pidhash 40000).tcb = none := by
  by_contra hno
  -- otherwise tasks could be started without end
  have hrun : ∀ n, ∃ s, Tasks.Run (2 ^ 16) 0 s ∧ s.live.length = n := by
    intro n
    induction n with
    | zero => exact ⟨_, .start rfl, rfl⟩
    | succ n ih =>
      obtain ⟨s, hs, hlen⟩ := ih
      have hok := hs.ok
      obtain ⟨t, ht⟩ := Infinite.exists_notMem_finset (0 :: s.live).toFinset
      rw [List.mem_toFinset, List.mem_cons, not_or] at ht
      have hret : (taskAssignpid (2 ^ 16) (s.table.zero t) t).1 = OK := by
        have heq : (taskAssignpid (2 ^ 16) (s.table.zero t) t).1
            = (taskAssignpid (2 ^ 16) s.table 40000).1 := assignLoop_ret t 40000 _ rfl rfl
        rw [heq]
        rcases assignLoop_cases (2 ^ 16) hok.last.1 hok.last.2
          (Prod.eta (taskAssignpid (2 ^ 16) s.table 40000)).symm with ⟨hret, -⟩ | ⟨hret, -⟩
        · refine absurd ⟨s, hs, hret, Option.eq_none_iff_forall_ne_some.2 fun u hu => ?_⟩ hno
          -- the slot of a pid is the pid itself
          obtain ⟨hlive, hndx⟩ := hok.slot _ u hu
          rw [pidHash_eq_mod] at hndx
          rcases List.mem_cons.1 hlive with rfl | hlive
          · simp [hok.idle_pid] at hndx
          · have hpid := hok.pid u hlive
            omega
        · exact hret
      refine ⟨_, hs.next ⟨.assign t, ht, rfl⟩, ?_⟩
      rw [hret, if_pos rfl, List.length_cons, hlen]
  obtain ⟨s, hs, hlen⟩ := hrun 32768
  have hle := hs.ok.length_live_le
  omega

end BaseNx.ProcessId
