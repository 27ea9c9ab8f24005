import Mathlib.Tactic
import BaseNx.Errno
import BaseNx.Lib.Reach

/-!
# Read/write locks

A read/write lock is three counters under a mutex, with one condition variable for readers and
writers alike. The mutex and the condition are taken as a correct monitor: what a thread does from
taking the mutex to giving it up, in a return or in a wait, is one step, and a broadcast makes all
blocked threads runnable. The threads that hold the lock are kept beside the counters.

In every run the counters are right, the lock excludes, and no writer is blocked while the lock is
free. That no reader is blocked without a writer needs one condition: `wrlock_cleanup` takes a
cancelled writer out of `num_writers` without the broadcast that the timeout path makes, so a reader
that was blocked for this writer only is left behind (`cancelled_writer_strands_reader`).
-/

namespace BaseNx.Pthread

open Lib List

universe u

/-! ## State -/

/-- `UINT_MAX` -/
def uintMax : Nat := 4294967295

/-- A thread inside a blocking call, for writing or for reading; `timed` says whether the call has a
timeout. -/
structure Locker (τ : Type u) where
  who : τ
  write : Bool
  timed : Bool
  deriving DecidableEq

/-- Why a thread gives up. -/
inductive GiveUp
  | timedOut
  | cancelled
  deriving DecidableEq

/-- `pthread_rwlock_t`, with the threads that wait on `cv`, those that were woken and are to try
again, those that are to give up, and those that hold the lock. -/
structure Rwlock (τ : Type u) where
  numReaders : Nat
  numWriters : Nat
  writeInProgress : Bool
  blocked : List (Locker τ)
  woken : List (Locker τ)
  leaving : List (Locker τ × GiveUp)
  readHolders : List τ
  writeHolders : List τ

variable {τ : Type u}

namespace Rwlock

variable (s : Rwlock τ)

/-! ## The functions of the source -/

/-- `pthread_cond_broadcast(&rw_lock->cv)` -/
def broadcast : Rwlock τ := { s with blocked := [], woken := s.blocked ++ s.woken }

variable (l : Locker τ)

/-- `pthread_cond_wait(&rw_lock->cv, &rw_lock->lock)` up to the block -/
def block : Rwlock τ := { s with blocked := l :: s.blocked }

/-- `tryrdlock`, for the thread `t` -/
def tryrdlock (t : τ) : Int × Rwlock τ :=
  if 0 < s.numWriters ∨ s.writeInProgress then (EBUSY, s)
  else if s.numReaders = uintMax then (EAGAIN, s)
  else (OK, { s with numReaders := s.numReaders + 1, readHolders := t :: s.readHolders })

/-- One turn of the loop of `pthread_rwlock_timedrdlock` -/
def readTurn : Rwlock τ :=
  if (s.tryrdlock l.who).1 = EBUSY then s.block l else (s.tryrdlock l.who).2

/-- One turn of the loop of `pthread_rwlock_timedwrlock`, and its end with the lock -/
def writeTurn : Rwlock τ :=
  if s.writeInProgress ∨ 0 < s.numReaders then s.block l
  else
    { s with
      writeInProgress := true
      numWriters := s.numWriters - 1
      writeHolders := l.who :: s.writeHolders }

/-- A turn of either loop. -/
def turn : Rwlock τ := if l.write then s.writeTurn l else s.readTurn l

/-- `pthread_rwlock_timedwrlock` and `pthread_rwlock_wrlock`, or `pthread_rwlock_timedrdlock` and
`pthread_rwlock_rdlock`, up to the first block or the return -/
def lock : Rwlock τ :=
  if l.write then
    if s.numWriters = uintMax then s else { s with numWriters := s.numWriters + 1 }.writeTurn l
  else s.readTurn l

/-- `pthread_rwlock_trywrlock`, when it gets the mutex -/
def trywrlock (t : τ) : Int × Rwlock τ :=
  if 0 < s.numReaders ∨ s.writeInProgress then (EBUSY, s)
  else (OK, { s with writeInProgress := true, writeHolders := t :: s.writeHolders })

/-- The end of a blocking call without the lock: after a timeout a writer broadcasts, and
`wrlock_cleanup` does not. -/
def giveUp : GiveUp → Rwlock τ
  | .timedOut => if l.write then { s.broadcast with numWriters := s.numWriters - 1 } else s
  | .cancelled => if l.write then { s with numWriters := s.numWriters - 1 } else s

/-- `pthread_rwlock_unlock` by the thread `t` -/
def unlock [DecidableEq τ] (t : τ) : Rwlock τ :=
  if 0 < s.numReaders then
    let s := { s with numReaders := s.numReaders - 1, readHolders := s.readHolders.erase t }
    if s.numReaders = 0 then s.broadcast else s
  else if s.writeInProgress then
    { s with writeInProgress := false, writeHolders := s.writeHolders.erase t }.broadcast
  else s

end Rwlock

/-! ## Runs -/

/-- The calls, and what happens to the threads inside them. -/
inductive RwEvent (τ : Type u)
  | lock (l : Locker τ)
  | tryrdlock (t : τ)
  | trywrlock (t : τ)
  | unlock (t : τ)
  | retry (l : Locker τ)
  | expire (l : Locker τ)
  | cancelBlocked (l : Locker τ)
  | cancelWoken (l : Locker τ)
  | giveUp (l : Locker τ) (why : GiveUp)

/-- One event. A `trylock` that does not get the mutex changes nothing. -/
def Rwlock.apply [DecidableEq τ] (s : Rwlock τ) : RwEvent τ → Option (Rwlock τ)
  | .lock l => some (s.lock l)
  | .tryrdlock t => some (s.tryrdlock t).2
  | .trywrlock t => some (s.trywrlock t).2
  | .unlock t => some (s.unlock t)
  | .retry l => some ({ s with woken := s.woken.erase l }.turn l)
  | .expire l =>
    some { s with blocked := s.blocked.erase l, leaving := (l, .timedOut) :: s.leaving }
  | .cancelBlocked l =>
    some { s with blocked := s.blocked.erase l, leaving := (l, .cancelled) :: s.leaving }
  | .cancelWoken l =>
    some { s with woken := s.woken.erase l, leaving := (l, .cancelled) :: s.leaving }
  | .giveUp l why => some ({ s with leaving := s.leaving.erase (l, why) }.giveUp l why)

/-- The lock is given up by those who hold it, and threads do what their place allows. -/
def Rwlock.Enabled (s : Rwlock τ) : RwEvent τ → Prop
  | .unlock t => t ∈ s.readHolders ∨ t ∈ s.writeHolders
  | .retry l => l ∈ s.woken
  | .expire l => l ∈ s.blocked ∧ l.timed = true
  | .cancelBlocked l => l ∈ s.blocked
  | .cancelWoken l => l ∈ s.woken
  | .giveUp l why => (l, why) ∈ s.leaving
  | _ => True

/-- What the source needs on top: the last waiting writer is not cancelled while a reader is blocked
and nobody writes. -/
def Rwlock.Orderly (s : Rwlock τ) (e : RwEvent τ) : Prop :=
  s.Enabled e ∧
    match e with
    | .giveUp l .cancelled => l.write = true →
        s.writeInProgress = true ∨ 1 < s.numWriters ∨ ∀ r ∈ s.blocked, r.write = true
    | _ => True

instance Rwlock.decidableEnabled [DecidableEq τ] (s : Rwlock τ)
    (e : RwEvent τ) : Decidable (s.Enabled e) := by
  cases e <;> unfold Rwlock.Enabled <;> infer_instance

instance Rwlock.decidableOrderly [DecidableEq τ] (s : Rwlock τ)
    (e : RwEvent τ) : Decidable (s.Orderly e) := by
  rcases e with _ | _ | _ | _ | _ | _ | _ | _ | ⟨_, _ | _⟩ <;> unfold Rwlock.Orderly <;>
    infer_instance

/-- The state after `pthread_rwlock_init`. -/
def Rwlock.init (τ : Type u) : Rwlock τ := ⟨0, 0, false, [], [], [], [], []⟩

/-- The states of the runs of which every event meets `ok`. -/
def RwRun [DecidableEq τ] (ok : Rwlock τ → RwEvent τ → Prop) (s : Rwlock τ) : Prop :=
  Reach (· = Rwlock.init τ) (LabelledStep ok Rwlock.apply) s

/-! ## The counters and the exclusion -/

/-- The threads inside a blocking call. -/
def Rwlock.inside (s : Rwlock τ) : List (Locker τ) :=
  s.blocked ++ s.woken ++ s.leaving.map Prod.fst

/-- The number of threads inside a blocking call for writing. -/
def Rwlock.writersInside (s : Rwlock τ) : Nat := s.inside.countP (·.write)

/-- What a blocked thread waits for: a writer for those who hold the lock, and a reader, in the runs
that are `strict`, for a writer. -/
def Rwlock.Waits (strict : Prop) (s : Rwlock τ) (l : Locker τ) : Prop :=
  if l.write then s.writeInProgress = true ∨ 0 < s.numReaders
  else strict → 0 < s.numWriters ∨ s.writeInProgress = true

/-- What holds in every run, while `n` writers run inside a call. -/
structure Rwlock.Excludes (strict : Prop) (n : Nat) (s : Rwlock τ) : Prop where
  readers : s.numReaders = s.readHolders.length
  held : if s.writeInProgress then s.writeHolders.length = 1 ∧ s.readHolders = []
    else s.writeHolders = []
  writers : s.numWriters = s.writersInside + n
  blocked : ∀ l ∈ s.blocked, s.Waits strict l

section Counting

variable {s s' : Rwlock τ} {l : Locker τ} {why : GiveUp}

theorem writersInside_broadcast (s : Rwlock τ) : s.broadcast.writersInside = s.writersInside := by
  simp only [Rwlock.writersInside, Rwlock.inside, Rwlock.broadcast, nil_append]

/-- A thread of one of the lists, and the others. -/
theorem inside_erase_woken [DecidableEq τ] (h : l ∈ s.woken) :
    s.inside.Perm (l :: { s with woken := s.woken.erase l }.inside) := by
  have hperm : (s.blocked ++ s.woken).Perm (l :: (s.blocked ++ s.woken.erase l)) :=
    ((perm_cons_erase h).append_left s.blocked).trans perm_middle
  exact hperm.append_right _

theorem inside_erase_blocked [DecidableEq τ] (h : l ∈ s.blocked) :
    s.inside.Perm (l :: { s with blocked := s.blocked.erase l }.inside) :=
  ((perm_cons_erase h).append_right s.woken).append_right _

theorem inside_erase_leaving [DecidableEq τ] (h : (l, why) ∈ s.leaving) :
    s.inside.Perm (l :: { s with leaving := s.leaving.erase (l, why) }.inside) := by
  have hperm : (s.leaving.map Prod.fst).Perm
      (l :: (s.leaving.erase (l, why)).map Prod.fst) :=
    (perm_cons_erase h).map Prod.fst
  exact (hperm.append_left _).trans perm_middle

/-- The thread leaves its list and runs. -/
theorem writersInside_erase (h : s.inside.Perm (l :: s'.inside)) :
    s.writersInside = s'.writersInside + if l.write then 1 else 0 := by
  rw [Rwlock.writersInside, h.countP_eq, countP_cons]
  rfl

end Counting

section Steps

variable {s s' : Rwlock τ} {l : Locker τ} {t : τ} {n : Nat} {strict : Prop} {e : RwEvent τ}

/-- Who is blocked while somebody writes has a reason. -/
theorem Rwlock.Waits.of_writing (h : s.writeInProgress = true) : s.Waits strict l := by
  rw [Rwlock.Waits]
  split
  · exact .inl h
  · exact fun _ => .inr h

theorem Rwlock.Waits.imp (h : s.Waits strict l)
    (hwrite : s.writeInProgress = true ∨ 0 < s.numReaders →
      s'.writeInProgress = true ∨ 0 < s'.numReaders)
    (hread : strict → ¬ l.write = true → 0 < s.numWriters ∨ s.writeInProgress = true →
      0 < s'.numWriters ∨ s'.writeInProgress = true) : s'.Waits strict l := by
  rw [Rwlock.Waits] at h ⊢
  split_ifs at h ⊢ with hw
  · exact hwrite h
  · exact fun hs => hread hs hw (h hs)

namespace Rwlock.Excludes

section

variable (h : s.Excludes strict n)
include h

theorem noWriter (hfalse : ¬ s.writeInProgress = true) : s.writeHolders = [] := by
  have hheld := h.held
  rwa [if_neg hfalse] at hheld

theorem noReaders (hzero : ¬ 0 < s.numReaders) : s.readHolders = [] := by
  have := h.readers
  exact eq_nil_of_length_eq_zero (by omega)

theorem tryrdlock (t : τ) : (s.tryrdlock t).2.Excludes strict n := by
  rw [Rwlock.tryrdlock]
  by_cases hbusy : 0 < s.numWriters ∨ s.writeInProgress = true
  · rw [if_pos hbusy]
    exact h
  · rw [if_neg hbusy]
    split
    · exact h
    · -- nobody writes, so one more may read
      have hfree : ¬ s.writeInProgress = true := fun hw => hbusy (.inr hw)
      refine { h with readers := ?_, held := ?_, blocked := fun r hr => ?_ }
      · rw [length_cons, h.readers]
      · rw [if_neg hfree]
        exact h.noWriter hfree
      · exact (h.blocked r hr).imp (fun _ => .inr (Nat.succ_pos _)) fun _ _ => id

theorem readTurn (hread : l.write = false) : (s.readTurn l).Excludes strict n := by
  rw [Rwlock.readTurn]
  split
  · rename_i herr
    refine { h with writers := ?_, blocked := forall_mem_cons.2 ⟨?_, h.blocked⟩ }
    · refine h.writers.trans (congrArg (· + n) ?_)
      exact (countP_cons_of_neg (by rw [hread]; exact nofun)).symm
    · rw [Rwlock.Waits, hread]
      intro _
      by_contra hfree
      have hfree' : ¬ (0 < s.numWriters ∨ s.writeInProgress = true) := hfree
      rw [Rwlock.tryrdlock, if_neg hfree'] at herr
      split at herr <;> cases herr
  · exact h.tryrdlock l.who

/-- The lock is free, and somebody gets it for writing. -/
theorem write (hfree : ¬ (s.writeInProgress = true ∨ 0 < s.numReaders)) {m : Nat}
    (hwriters : m = s.writersInside) (t : τ) :
    { s with
      writeInProgress := true, numWriters := m, writeHolders := t :: s.writeHolders
    }.Excludes strict 0 := by
  have hnil := h.noWriter fun hw => hfree (.inl hw)
  have hread := h.noReaders fun hr => hfree (.inr hr)
  refine ⟨h.readers, ⟨?_, hread⟩, hwriters, fun _ _ => .of_writing rfl⟩
  rw [hnil, length_singleton]

theorem unlock [DecidableEq τ] (ht : t ∈ s.readHolders ∨ t ∈ s.writeHolders) :
    (s.unlock t).Excludes strict n := by
  have hreaders := h.readers
  have hheld := h.held
  rw [Rwlock.unlock]
  by_cases hread : 0 < s.numReaders
  · -- with readers there is no write holder, so the thread reads
    have hfree : ¬ s.writeInProgress = true := by
      intro hw
      rw [if_pos hw] at hheld
      rw [hheld.2, length_nil] at hreaders
      omega
    have hnil := h.noWriter hfree
    have hmem : t ∈ s.readHolders := ht.resolve_right (hnil ▸ not_mem_nil)
    have hlen : s.numReaders - 1 = (s.readHolders.erase t).length := by
      rw [length_erase_of_mem hmem, hreaders]
    rw [if_pos hread]
    have hheld' : if s.writeInProgress then s.writeHolders.length = 1 ∧ s.readHolders.erase t = []
        else s.writeHolders = [] := by
      rwa [if_neg hfree]
    dsimp only
    split
    · exact ⟨hlen, hheld', (writersInside_broadcast _).symm ▸ h.writers, nofun⟩
    · rename_i hlast
      refine { h with readers := hlen, held := hheld', blocked := fun r hr => ?_ }
      exact (h.blocked r hr).imp (fun _ => .inr (pos_of_ne_zero hlast)) fun _ _ => id
  · rw [if_neg hread]
    split
    · rename_i hwrite
      -- the only write holder leaves
      rw [if_pos hwrite] at hheld
      have hmem : t ∈ s.writeHolders := ht.resolve_left (hheld.2 ▸ not_mem_nil)
      have herase : s.writeHolders.erase t = [] :=
        eq_nil_of_length_eq_zero (by rw [length_erase_of_mem hmem, hheld.1])
      refine ⟨hreaders, herase, ?_, nofun⟩
      exact (writersInside_broadcast _).symm ▸ h.writers
    · exact h

end

/-- The running writer blocks, or gets the lock. -/
theorem writeTurn (h : s.Excludes strict 1) (hwrite : l.write = true) :
    (s.writeTurn l).Excludes strict 0 := by
  have hwriters := h.writers
  rw [Rwlock.writeTurn]
  split
  · rename_i hheld
    refine { h with writers := ?_, blocked := forall_mem_cons.2 ⟨?_, h.blocked⟩ }
    · exact hwriters.trans (countP_cons_of_pos (p := Locker.write) hwrite).symm
    · rwa [Rwlock.Waits, if_pos hwrite]
  · exact h.write ‹_› (by omega) l.who

theorem turn (h : s.Excludes strict (if l.write then 1 else 0)) : (s.turn l).Excludes strict 0 := by
  rw [Rwlock.turn]
  split <;> rename_i hw
  · rw [if_pos hw] at h
    exact h.writeTurn hw
  · rw [if_neg hw] at h
    exact h.readTurn (Bool.eq_false_iff.2 hw)

theorem lock (h : s.Excludes strict 0) (l : Locker τ) : (s.lock l).Excludes strict 0 := by
  rw [Rwlock.lock]
  split
  · split
    · exact h
    · refine Excludes.writeTurn { h with writers := ?_, blocked := fun r hr => ?_ } ‹_›
      · exact congrArg (· + 1) h.writers
      · exact (h.blocked r hr).imp id fun _ _ _ => .inl (Nat.succ_pos _)
  · exact h.readTurn (Bool.eq_false_iff.2 ‹_›)

theorem trywrlock (h : s.Excludes strict 0) (t : τ) : (s.trywrlock t).2.Excludes strict 0 := by
  rw [Rwlock.trywrlock]
  split
  · exact h
  · exact h.write (fun hheld => ‹¬ _› hheld.symm) h.writers t

/-- A thread gives up; in the strict runs a cancelled writer strands no reader. -/
theorem giveUp (h : s.Excludes strict (if l.write then 1 else 0)) (why : GiveUp)
    (hstrict : strict → why = .cancelled → l.write = true →
      s.writeInProgress = true ∨ 1 < s.numWriters ∨ ∀ r ∈ s.blocked, r.write = true) :
    (s.giveUp l why).Excludes strict 0 := by
  cases hw : l.write with
  | false =>
    rw [hw] at h
    cases why <;> simp only [Rwlock.giveUp, hw, Bool.false_eq_true, if_false] <;> exact h
  | true =>
    rw [hw] at h
    have hwriters : s.numWriters - 1 = s.writersInside := by
      rw [h.writers]
      rfl
    cases why with
    | timedOut =>
      simp only [Rwlock.giveUp, hw, if_true]
      exact ⟨h.readers, h.held, hwriters.trans (writersInside_broadcast s).symm, nofun⟩
    | cancelled =>
      simp only [Rwlock.giveUp, hw, if_true]
      refine { h with writers := hwriters, blocked := fun r hr => ?_ }
      refine (h.blocked r hr).imp id fun hs hread _ => ?_
      -- another writer is there, or no reader is blocked
      rcases hstrict hs rfl hw with hwrite | hmore | hnone
      · exact .inr hwrite
      · exact .inl (by dsimp only; omega)
      · exact absurd (hnone r hr) hread

/-- Every event keeps the counters right. -/
theorem apply [DecidableEq τ] (h : s.Excludes strict 0) (he : s.Enabled e)
    (hstrict : strict → s.Orderly e) : ∃ s', s.apply e = some s' ∧ s'.Excludes strict 0 := by
  have hwriters := h.writers
  cases e with
  | lock l => exact ⟨_, rfl, h.lock l⟩
  | tryrdlock t => exact ⟨_, rfl, h.tryrdlock t⟩
  | trywrlock t => exact ⟨_, rfl, h.trywrlock t⟩
  | unlock t => exact ⟨_, rfl, h.unlock he⟩
  | retry l =>
    rw [writersInside_erase (inside_erase_woken he)] at hwriters
    exact ⟨_, rfl, turn { h with writers := hwriters }⟩
  | expire l =>
    have hin := (inside_erase_blocked he.1).trans perm_middle.symm
    exact ⟨_, rfl, { h with
      writers := hwriters.trans (hin.countP_eq _)
      blocked := fun r hr => h.blocked r (mem_of_mem_erase hr) }⟩
  | cancelBlocked l =>
    have hin := (inside_erase_blocked he).trans perm_middle.symm
    exact ⟨_, rfl, { h with
      writers := hwriters.trans (hin.countP_eq _)
      blocked := fun r hr => h.blocked r (mem_of_mem_erase hr) }⟩
  | cancelWoken l =>
    have hin := (inside_erase_woken he).trans perm_middle.symm
    exact ⟨_, rfl, { h with writers := hwriters.trans (hin.countP_eq _) }⟩
  | giveUp l why =>
    rw [writersInside_erase (inside_erase_leaving he)] at hwriters
    have hrun : { s with leaving := s.leaving.erase (l, why) }.Excludes strict
        (if l.write then 1 else 0) := { h with writers := hwriters }
    refine ⟨_, rfl, hrun.giveUp why fun hs hwhy => ?_⟩
    subst hwhy
    exact (hstrict hs).2

end Rwlock.Excludes

theorem RwRun.excludes [DecidableEq τ] {ok : Rwlock τ → RwEvent τ → Prop} (h : RwRun ok s)
    (hok : ∀ s e, ok s e → s.Enabled e ∧ (strict → s.Orderly e)) : s.Excludes strict 0 := by
  refine Reach.labelled (P := Rwlock.Excludes strict 0) ?_ ?_ h
  · rintro s rfl
    exact ⟨rfl, rfl, rfl, nofun⟩
  · exact fun s e hs he => hs.apply (hok s e he).1 (hok s e he).2

end Steps

/-! ## The results about runs -/

/-- In every run the lock excludes, the counters are right, and a writer is blocked only while the
lock is held. In every run in which the last waiting writer is not cancelled while a reader is
blocked and nobody writes, a reader is blocked only while there is a writer. -/
theorem rwlock_excludes_and_strands_nobody [DecidableEq τ] (s : Rwlock τ) :
    (RwRun Rwlock.Enabled s →
      (s.writeHolders.length ≤ 1 ∧ (s.writeHolders ≠ [] → s.readHolders = [])) ∧
      s.numReaders = s.readHolders.length ∧
      (s.writeInProgress = true ↔ s.writeHolders ≠ []) ∧
      s.numWriters = s.writersInside ∧
      ((∃ l ∈ s.blocked, l.write = true) → s.writeHolders ≠ [] ∨ s.readHolders ≠ [])) ∧
    (RwRun Rwlock.Orderly s →
      (∃ l ∈ s.blocked, l.write = false) → 0 < s.numWriters ∨ s.writeHolders ≠ []) := by
  constructor
  · intro h
    have hex : s.Excludes False 0 := h.excludes fun _ _ he => ⟨he, False.elim⟩
    have hheld := hex.held
    cases hw : s.writeInProgress with
    | true =>
      rw [if_pos hw] at hheld
      have hne : s.writeHolders ≠ [] := ne_nil_of_length_pos (hheld.1 ▸ Nat.one_pos)
      exact ⟨⟨hheld.1.le, fun _ => hheld.2⟩, hex.readers, ⟨fun _ => hne, fun _ => rfl⟩, hex.writers,
        fun _ => .inl hne⟩
    | false =>
      have hnil := hex.noWriter (Bool.eq_false_iff.1 hw)
      rw [hnil]
      refine ⟨⟨Nat.zero_le 1, absurd rfl⟩, hex.readers, ⟨nofun, absurd rfl⟩, hex.writers, ?_⟩
      rintro ⟨l, hl, hwrite⟩
      have hwait := hex.blocked l hl
      rw [Rwlock.Waits, if_pos hwrite, hw] at hwait
      refine .inr (ne_nil_of_length_pos ?_)
      rw [← hex.readers]
      exact hwait.resolve_left nofun
  · rintro h ⟨l, hl, hread⟩
    have hex : s.Excludes True 0 := h.excludes fun _ _ he => ⟨he.1, fun _ => he⟩
    have hwait := hex.blocked l hl
    rw [Rwlock.Waits, hread] at hwait
    refine (hwait trivial).imp_right fun hw => ?_
    have hheld := hex.held
    rw [if_pos hw] at hheld
    exact ne_nil_of_length_pos (hheld.1 ▸ Nat.one_pos)

/-- Thread 1 reads, thread 2 waits to write and gives up after a timeout, thread 3 is blocked for it
and then reads as well; thread 4 waits to write. -/
def rwEvents : List (RwEvent Nat) :=
  [.lock ⟨1, false, false⟩, .lock ⟨2, true, true⟩, .lock ⟨3, false, false⟩, .expire ⟨2, true, true⟩,
    .giveUp ⟨2, true, true⟩ .timedOut, .retry ⟨3, false, false⟩, .lock ⟨4, true, false⟩,
    .lock ⟨5, false, false⟩]

theorem rwlock_excludes_and_strands_nobody_sample :
    let s := after Rwlock.apply (Rwlock.init Nat) rwEvents
    (s.readHolders = [3, 1] ∧ s.blocked = [⟨5, false, false⟩, ⟨4, true, false⟩]) ∧
      s.numReaders = s.readHolders.length ∧
      (0 < s.numWriters ∨ s.writeHolders ≠ []) :=
  ⟨by decide,
    ((rwlock_excludes_and_strands_nobody _).1
      (Reach.after rwEvents (.start rfl) (by decide))).2.1,
    (rwlock_excludes_and_strands_nobody _).2 (Reach.after rwEvents (.start rfl) (by decide))
      ⟨⟨5, false, false⟩, by decide, rfl⟩⟩

/-- Thread 1 reads, thread 2 waits to write, thread 3 is blocked for it, and thread 2 is cancelled:
thread 3 stays blocked, although only thread 1 reads and no thread can run. -/
theorem cancelled_writer_strands_reader : let events : List (RwEvent Nat) :=
      [.lock ⟨1, false, false⟩, .lock ⟨2, true, false⟩, .lock ⟨3, false, false⟩,
        .cancelBlocked ⟨2, true, false⟩, .giveUp ⟨2, true, false⟩ .cancelled]
    let s := after Rwlock.apply (Rwlock.init Nat) events
    AllSteps Rwlock.Enabled Rwlock.apply (Rwlock.init Nat) events ∧
      s.woken = [] ∧ s.leaving = [] ∧ s.blocked = [⟨3, false, false⟩] ∧
      s.numWriters = 0 ∧ s.writeHolders = [] := by
  decide

end BaseNx.Pthread
