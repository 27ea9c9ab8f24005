import BaseNx.Lib.CountingSem
import BaseNx.Lib.Reach

/-!
# Condition variables

A condition is a semaphore that starts at zero. `pthread_cond_wait` and `pthread_cond_timedwait`
wait for it; `pthread_cond_signal` and `pthread_cond_broadcast` read its count and then post it as
often as the count says that threads are waiting. The mutex is given up and the wait begun in one
scheduler-locked stretch, so a wait is one step here, and the mutex has no part in what follows.

A call that wakes threads is two kinds of steps, one that reads the count and one for each post;
what it found and whom it released is kept in its `Waker`. The main theorem is about the runs in
which no wait ends by another hand between the read of the count and the last post. Without that the
post finds nobody, and is stored for a later wait (`timeout_stores_wakeup`).
-/

namespace BaseNx.Pthread

open Lib List

universe u

/-! ## The functions of the source -/

/-- A call of `pthread_cond_signal` or, if `broadcast`, `pthread_cond_broadcast`: the posts still to
be made, the threads that were blocked when the count was read, those blocked at the last post, and
those released. -/
structure Waker (τ : Type u) where
  who : τ
  broadcast : Bool
  todo : Nat
  blocked : List τ
  present : List τ
  released : List τ
  deriving DecidableEq

/-- The semaphore of the condition; the threads that were interrupted in `pthread_cond_wait` and
wait again; which waiters are in `pthread_cond_timedwait`; and the calls that wake, unfinished and
finished. -/
structure Cond (τ : Type u) where
  sem : CountingSem τ
  retry : List τ
  timed : τ → Bool
  wakers : List (Waker τ)
  finished : List (Waker τ)

variable {τ : Type u} [DecidableEq τ]

namespace Cond

variable (s : Cond τ)

/-- The wait of both wait functions: with a positive count the thread goes on at once. -/
def semWait (t : τ) : Cond τ := { s with sem := (s.sem.wait t).2 }

/-- The end of a wait by a signal or a timeout: `pthread_sem_take` waits again, and
`pthread_cond_timedwait` gives up with `ETIMEDOUT`. -/
def interrupt (t : τ) : Cond τ :=
  { s with
    sem := s.sem.release t
    retry := if s.timed t then s.retry else t :: s.retry }

/-- A call goes on, or is finished when there is nothing to post. -/
def proceed (w : Waker τ) : Cond τ :=
  if w.todo = 0 then { s with finished := w :: s.finished } else { s with wakers := w :: s.wakers }

/-- `pthread_cond_signal` up to its post -/
def pthreadCondSignal (t : τ) : Cond τ :=
  s.proceed ⟨t, false, if s.sem.count < 0 then 1 else 0, s.sem.waiters, [], []⟩

/-- `pthread_cond_broadcast` up to its first post; the loop makes `-sval` posts -/
def pthreadCondBroadcast (t : τ) : Cond τ :=
  s.proceed ⟨t, true, (-s.sem.count).toNat, s.sem.waiters, [], []⟩

/-- `pthread_sem_give`, which releases `r` -/
def pthreadSemGive (w : Waker τ) (r : Option τ) : Cond τ :=
  { s with sem := s.sem.post r, wakers := s.wakers.erase w }.proceed
    { w with todo := w.todo - 1, present := s.sem.waiters, released := r.toList ++ w.released }

end Cond

/-! ## Runs -/

/-- The steps of the threads, and the interrupts. -/
inductive CondEvent (τ : Type u)
  | wait (t : τ) (timed : Bool)
  | retry (t : τ)
  | interrupt (t : τ)
  | signal (t : τ)
  | broadcast (t : τ)
  | give (w : Waker τ) (r : Option τ)

variable (s : Cond τ) (t : τ)

def Cond.apply : CondEvent τ → Option (Cond τ)
  | .wait t timed => some ({ s with timed := Function.update s.timed t timed }.semWait t)
  | .retry t => some ({ s with retry := s.retry.erase t }.semWait t)
  | .interrupt t => some (s.interrupt t)
  | .signal t => some (s.pthreadCondSignal t)
  | .broadcast t => some (s.pthreadCondBroadcast t)
  | .give w r => some (s.pthreadSemGive w r)

/-- No broadcast is under way, which holds the scheduler lock. -/
def Cond.Unlocked : Prop := ∀ w ∈ s.wakers, w.broadcast = false

/-- The thread is not in one of the functions. -/
def Cond.Outside : Prop :=
  t ∉ s.sem.waiters ∧ t ∉ s.retry ∧ ∀ w ∈ s.wakers, w.who ≠ t

/-- Threads run only while the scheduler is not locked, the one that holds the lock apart;
interrupts come at any time. -/
def Cond.Enabled : CondEvent τ → Prop
  | .wait t _ => s.Unlocked ∧ s.Outside t
  | .retry t => s.Unlocked ∧ t ∈ s.retry
  | .interrupt t => t ∈ s.sem.waiters
  | .signal t => s.Unlocked ∧ s.Outside t
  | .broadcast t => s.Unlocked ∧ s.Outside t
  | .give w r => w ∈ s.wakers ∧ (s.Unlocked ∨ w.broadcast = true) ∧ s.sem.Receives r

/-- What the source needs on top: while a call is between the read of the count and its last post,
no wait is ended by an interrupt or by another call. -/
def Cond.Orderly (e : CondEvent τ) : Prop :=
  s.Enabled e ∧
    match e with
    | .interrupt _ => s.wakers = []
    | .give w _ => s.wakers = [w]
    | _ => True

instance Cond.decidableUnlocked (s : Cond τ) : Decidable s.Unlocked :=
  inferInstanceAs (Decidable (∀ w ∈ s.wakers, w.broadcast = false))

instance Cond.decidableOutside (s : Cond τ) (t : τ) : Decidable (s.Outside t) :=
  inferInstanceAs (Decidable (t ∉ s.sem.waiters ∧ t ∉ s.retry ∧ ∀ w ∈ s.wakers, w.who ≠ t))

instance Cond.decidableEnabled (s : Cond τ) (e : CondEvent τ) : Decidable (s.Enabled e) := by
  cases e <;> unfold Cond.Enabled <;> infer_instance

instance Cond.decidableOrderly (s : Cond τ) (e : CondEvent τ) : Decidable (s.Orderly e) := by
  cases e <;> unfold Cond.Orderly <;> infer_instance

/-- The state after `pthread_cond_init`. -/
def Cond.init (τ : Type u) : Cond τ := ⟨⟨0, []⟩, [], fun _ => false, [], []⟩

/-- The states of the runs of which every event is orderly. -/
def OrderlyCondRun : Prop :=
  Reach (· = Cond.init τ) (LabelledStep Cond.Orderly Cond.apply) s

/-! ## The invariant -/

/-- What a call has to do and has done, given the threads that are blocked now: a signal that found
somebody makes one post, and a broadcast has released those who are no longer blocked. -/
def Waker.Underway (w : Waker τ) (sem : CountingSem τ) : Prop :=
  0 < w.todo ∧ (w.todo : Int) ≤ -sem.count ∧
    (w.broadcast = false → w.todo = 1 ∧ w.blocked ≠ [] ∧ w.released = []) ∧
    (w.broadcast = true → w.todo = sem.waiters.length ∧
      (w.released ++ sem.waiters).Perm w.blocked)

/-- What a finished call has done. -/
def Waker.Right (w : Waker τ) : Prop :=
  (w.broadcast = false →
    (w.blocked = [] → w.released = []) ∧
      (w.blocked ≠ [] → ∃ t ∈ w.present, w.released = [t])) ∧
    (w.broadcast = true → w.released.Perm w.blocked)

/-- What holds between two events. -/
structure Cond.Sound (s : Cond τ) : Prop where
  balanced : s.sem.Balanced
  nonpos : s.sem.count ≤ 0
  apart : ∀ t ∈ s.retry, t ∉ s.sem.waiters
  retry_nodup : s.retry.Nodup
  underway : ∀ w ∈ s.wakers, w.Underway s.sem
  finished : ∀ w ∈ s.finished, w.Right

section Steps

variable {s : Cond τ} {t : τ}

omit [DecidableEq τ] in
theorem Cond.Sound.waiters_length (h : s.Sound) : (s.sem.waiters.length : Int) = -s.sem.count :=
  h.balanced.length_eq h.nonpos

omit [DecidableEq τ] in
/-- One more thread waits; a broadcast is not under way. -/
theorem Waker.Underway.wait {w : Waker τ} (h : w.Underway s.sem) (hs : s.sem.count ≤ 0)
    (hw : w.broadcast = false) (t : τ) : w.Underway (s.sem.wait t).2 := by
  obtain ⟨hpos, hle, hsig, -⟩ := h
  rw [CountingSem.wait_of_nonpos hs]
  refine ⟨hpos, ?_, hsig, fun hb => ?_⟩
  · dsimp only
    omega
  · rw [hw] at hb
    cases hb

omit [DecidableEq τ] in
theorem Cond.Sound.wait (h : s.Sound) (hun : s.Unlocked) (hwait : t ∉ s.sem.waiters)
    (hretry : t ∉ s.retry) : (s.semWait t).Sound where
  balanced := h.balanced.wait hwait
  nonpos := by
    have := h.nonpos
    simp only [Cond.semWait, CountingSem.wait_of_nonpos h.nonpos]
    omega
  apart u hu hin := by
    simp only [Cond.semWait, CountingSem.wait_of_nonpos h.nonpos] at hu hin
    rcases mem_cons.1 hin with rfl | hin
    · exact hretry hu
    · exact h.apart u hu hin
  retry_nodup := h.retry_nodup
  underway w hw := (h.underway w hw).wait h.nonpos (hun w hw) t
  finished := h.finished

theorem Cond.Sound.interrupt (h : s.Sound) (ht : t ∈ s.sem.waiters) (hnone : s.wakers = []) :
    (s.interrupt t).Sound where
  balanced := h.balanced.release ht
  nonpos := by
    have := h.balanced.neg_of_mem ht
    simp only [Cond.interrupt, CountingSem.release]
    omega
  apart u hu hin := by
    have hin' : u ∈ s.sem.waiters.erase t := hin
    obtain ⟨hne, hmem⟩ := h.balanced.nodup.mem_erase_iff.1 hin'
    simp only [Cond.interrupt] at hu
    split at hu
    · exact h.apart u hu hmem
    · exact (mem_cons.1 hu).elim hne fun hu => h.apart u hu hmem
  retry_nodup := by
    simp only [Cond.interrupt]
    split
    · exact h.retry_nodup
    · exact nodup_cons.2 ⟨fun hr => h.apart t hr ht, h.retry_nodup⟩
  underway w hw := by
    have hw' : w ∈ s.wakers := hw
    rw [hnone] at hw'
    exact absurd hw' not_mem_nil
  finished := h.finished

omit [DecidableEq τ] in
/-- A call goes on with what is left to do, or it has done the right thing. -/
theorem Cond.Sound.proceed (h : s.Sound) {w : Waker τ} (hgo : w.todo ≠ 0 → w.Underway s.sem)
    (hend : w.todo = 0 → w.Right) : (s.proceed w).Sound := by
  rw [Cond.proceed]
  split
  · rename_i hzero
    refine { h with finished := fun v hv => ?_ }
    rcases mem_cons.1 hv with rfl | hv
    · exact hend hzero
    · exact h.finished v hv
  · rename_i hne
    refine { h with underway := fun v hv => ?_ }
    rcases mem_cons.1 hv with rfl | hv
    · exact hgo hne
    · exact h.underway v hv

omit [DecidableEq τ] in
theorem Cond.Sound.signal (h : s.Sound) (t : τ) : (s.pthreadCondSignal t).Sound := by
  have hlen := h.waiters_length
  refine h.proceed (fun hne => ?_) fun hzero => ?_
  · by_cases hneg : s.sem.count < 0
    · simp only [if_pos hneg]
      refine ⟨one_pos, by dsimp only; omega, fun _ => ⟨rfl, ?_, rfl⟩, nofun⟩
      intro hnil
      have hnil' : s.sem.waiters = [] := hnil
      rw [hnil'] at hlen
      simp only [length_nil] at hlen
      omega
    · exact absurd (if_neg hneg) hne
  · have hge : ¬ s.sem.count < 0 := by
      intro hneg
      simp only [if_pos hneg] at hzero
      exact absurd hzero Nat.one_ne_zero
    refine ⟨fun _ => ⟨fun _ => rfl, fun hne => absurd ?_ hne⟩, nofun⟩
    exact h.balanced.nil_of_nonneg (not_lt.1 hge)

omit [DecidableEq τ] in
theorem Cond.Sound.broadcast (h : s.Sound) (t : τ) : (s.pthreadCondBroadcast t).Sound := by
  have hlen := h.waiters_length
  refine h.proceed (fun hne => ?_) fun hzero => ?_
  · refine ⟨pos_of_ne_zero hne, by dsimp only; omega, nofun, fun _ => ⟨?_, ?_⟩⟩
    · dsimp only
      omega
    · exact List.Perm.refl _
  · have hcount : 0 ≤ s.sem.count := by
      dsimp only at hzero
      omega
    refine ⟨nofun, fun _ => ?_⟩
    rw [show s.sem.waiters = [] from h.balanced.nil_of_nonneg hcount]

/-- A post of the only call that is under way. -/
theorem Cond.Sound.give (h : s.Sound) {w : Waker τ} {r : Option τ} (honly : s.wakers = [w])
    (hr : s.sem.Receives r) : (s.pthreadSemGive w r).Sound := by
  obtain ⟨hpos, hle, hsig, hbro⟩ := h.underway w (honly ▸ mem_singleton_self w)
  -- somebody is blocked, so the post releases a thread
  obtain ⟨t, rfl, ht⟩ : ∃ t, r = some t ∧ t ∈ s.sem.waiters := by
    cases r with
    | none =>
      have hge : 0 ≤ s.sem.count := hr
      omega
    | some t => exact ⟨t, rfl, hr.2⟩
  have hmid : Cond.Sound { s with sem := s.sem.post (some t), wakers := s.wakers.erase w } := by
    refine ⟨h.balanced.release ht, ?_, ?_, h.retry_nodup, ?_, h.finished⟩
    · have := h.balanced.neg_of_mem ht
      simp only [CountingSem.post, CountingSem.release]
      omega
    · intro u hu hin
      exact h.apart u hu (mem_of_mem_erase hin)
    · intro v hv
      rw [honly, erase_cons_head] at hv
      exact absurd hv not_mem_nil
  have hlen : (s.sem.waiters.erase t).length = s.sem.waiters.length - 1 :=
    length_erase_of_mem ht
  have hperm : w.broadcast = true → (t :: w.released ++ s.sem.waiters.erase t).Perm w.blocked := by
    intro hb
    refine List.Perm.trans ?_ (hbro hb).2
    exact (perm_middle.symm).trans ((perm_cons_erase ht).symm.append_left w.released)
  refine hmid.proceed (fun hne => ?_) fun hzero => ?_
  · refine ⟨pos_of_ne_zero hne, ?_, fun hb => ?_, fun hb => ⟨?_, hperm hb⟩⟩
    · simp only [CountingSem.post, CountingSem.release]
      omega
    · obtain ⟨hone, -, -⟩ := hsig hb
      dsimp only at hne
      omega
    · have htodo := (hbro hb).1
      simp only [CountingSem.post, CountingSem.release, hlen]
      omega
  · dsimp only at hzero
    refine ⟨fun hb => ⟨fun hnil => absurd hnil (hsig hb).2.1, fun _ => ⟨t, ht, ?_⟩⟩, fun hb => ?_⟩
    · simp only [Option.toList_some, (hsig hb).2.2, append_nil]
    · -- the last of the blocked threads is released
      have htodo := (hbro hb).1
      have hnil : s.sem.waiters.erase t = [] := eq_nil_of_length_eq_zero (by omega)
      have hall := hperm hb
      rw [hnil, append_nil] at hall
      exact hall

end Steps

theorem OrderlyCondRun.sound {s : Cond τ} (h : OrderlyCondRun s) : s.Sound := by
  refine Reach.labelled (P := Cond.Sound) ?_ ?_ h
  · rintro s rfl
    exact ⟨⟨nodup_nil, fun _ => rfl, fun _ => rfl⟩, le_refl 0, nofun, nodup_nil, nofun,
      nofun⟩
  · intro s e hs he
    obtain ⟨hen, hord⟩ := he
    cases e with
    | wait t timed =>
      obtain ⟨hun, hwait, hretry, -⟩ := hen
      refine ⟨_, rfl, Cond.Sound.wait ?_ hun hwait hretry⟩
      exact { hs with }
    | retry t =>
      obtain ⟨hun, hretry⟩ := hen
      refine ⟨_, rfl, Cond.Sound.wait ?_ hun (hs.apart t hretry) hs.retry_nodup.not_mem_erase⟩
      exact { hs with
        apart := fun u hu => hs.apart u (mem_of_mem_erase hu)
        retry_nodup := hs.retry_nodup.erase t }
    | interrupt t => exact ⟨_, rfl, hs.interrupt hen hord⟩
    | signal t => exact ⟨_, rfl, hs.signal t⟩
    | broadcast t => exact ⟨_, rfl, hs.broadcast t⟩
    | give w r => exact ⟨_, rfl, hs.give hord hen.2.2⟩

/-- In every state of a run the count is the negative number of the blocked threads, so every wait
blocks; a finished signal released one of the threads that were blocked, or nobody if nobody was;
and a finished broadcast released exactly the threads that were blocked when it was called. -/
theorem cond_wakes_blocked_threads (s : Cond τ) (h : OrderlyCondRun s) :
    (s.sem.count ≤ 0 ∧ (s.sem.waiters.length : Int) = -s.sem.count) ∧
    (∀ w ∈ s.finished, w.broadcast = false →
      (w.blocked = [] → w.released = []) ∧
        (w.blocked ≠ [] → ∃ t ∈ w.present, w.released = [t])) ∧
    (∀ w ∈ s.finished, w.broadcast = true → w.released.Perm w.blocked) := by
  have hs := h.sound
  exact ⟨⟨hs.nonpos, hs.waiters_length⟩, fun w hw => (hs.finished w hw).1,
    fun w hw => (hs.finished w hw).2⟩

/-- Three threads wait, one of them times out, one is signalled and the last gets a broadcast. -/
def condEvents : List (CondEvent Nat) :=
  [.wait 1 false, .wait 2 true, .wait 3 false, .interrupt 2, .signal 9,
    .give ⟨9, false, 1, [3, 1], [], []⟩ (some 1), .broadcast 9,
    .give ⟨9, true, 1, [3], [], []⟩ (some 3), .signal 8]

theorem cond_wakes_blocked_threads_sample :
    let s := after Cond.apply (Cond.init Nat) condEvents
    s.finished = [⟨8, false, 0, [], [], []⟩, ⟨9, true, 0, [3], [3], [3]⟩,
        ⟨9, false, 0, [3, 1], [3, 1], [1]⟩] ∧
      (s.sem.count ≤ 0 ∧ (s.sem.waiters.length : Int) = -s.sem.count) :=
  ⟨by decide, (cond_wakes_blocked_threads _
    (Reach.after condEvents (.start rfl) (by decide))).1⟩

/-- The only waiter times out after the signalling thread has read the count: the post leaves a
positive count, and a later wait does not block. -/
theorem timeout_stores_wakeup : let events : List (CondEvent Nat) :=
      [.wait 1 true, .signal 2, .interrupt 1, .give ⟨2, false, 1, [1], [], []⟩ none]
    let s := after Cond.apply (Cond.init Nat) events
    AllSteps Cond.Enabled Cond.apply (Cond.init Nat) events ∧
      s.wakers = [] ∧ s.sem.count = 1 ∧ (s.semWait 3).sem.waiters = [] := by
  decide

end BaseNx.Pthread
