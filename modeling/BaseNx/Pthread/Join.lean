import BaseNx.Lib.CountingSem
import BaseNx.Lib.MachineInt
import BaseNx.Lib.Reach

/-!
# Join information

The `join_s` of one pthread, shared by the exit of the thread, by the threads that join it and by
`pthread_detach`. `tg_joinsem` is a mutex: what a thread does while it has the mutex is one step,
the exit of the thread apart, which keeps the mutex while it wakes the joining threads and waits for
them. A joining thread counts itself in `crefs` and begins its wait in one scheduler-locked stretch.

The structure is kept after it is freed, and an access to it by a thread that still has its address
is noted in `badAccess`. In the runs in which nobody gives up a reference that others rely on
(`Join.Orderly`) the structure is freed once, after the exit, and never accessed afterwards. Without
these conditions it is freed too early, used after it is freed, or freed twice
(`join_info_freed_while_needed`).
-/

namespace BaseNx.Pthread

open Lib List

universe u

/-! ## State -/

/-- `struct join_s`; `data_sem` is taken by the exiting thread only. -/
structure JoinInfo (τ : Type u) where
  crefs : Nat
  detached : Bool
  terminated : Bool
  exitSem : CountingSem τ
  dataSem : CountingSem Unit
  exitValue : Nat

/-- What a joining thread that waits no longer does next: read the exit value, give `data_sem`, or
give its reference back. -/
inductive JoinStage
  | reading
  | giving
  | leaving
  deriving DecidableEq

/-- A joining thread that waits no longer, because it was released or because it was cancelled; the
value is the one it has read. -/
structure Awake (τ : Type u) where
  who : τ
  cancelled : Bool
  stage : JoinStage
  value : Nat
  deriving DecidableEq

/-- A call of `pthread_join` that returned `OK`. -/
structure JoinReturn (τ : Type u) where
  who : τ
  cancelled : Bool
  value : Nat
  deriving DecidableEq

/-- Where the thread is in `pthread_completejoin`: before it, in the loop of `pthread_notifywaiters`
with the next post or the next test of the count ahead, in the wait for `data_sem`, after that wait,
and after the call, with its result `OK` or `ERROR`. -/
inductive ExitPhase
  | running
  | posting
  | checking
  | draining
  | drained
  | done
  | failed
  deriving DecidableEq

/-- The exiting thread has the mutex. -/
def ExitPhase.locked : ExitPhase → Bool
  | .posting | .checking | .draining | .drained => true
  | .running | .done | .failed => false

/-- The join information, whether it is allocated, and the threads; `exited` is the value given to
`pthread_exit`. Each time the information is freed, it is noted whether the thread had
terminated. -/
structure Join (τ : Type u) where
  info : JoinInfo τ
  alive : Bool
  exiter : ExitPhase
  awake : List (Awake τ)
  exited : Option Nat
  frees : List Bool
  badAccess : Bool
  returned : List (JoinReturn τ)

variable {τ : Type u}

namespace Join

variable (s : Join τ)

/-! ## The functions of the source -/

/-- Store into the join information, by a thread that has its address. -/
def store (info : JoinInfo τ) : Join τ :=
  { s with info := info, badAccess := s.badAccess || !s.alive }

/-- `pthread_destroyjoin` -/
def pthreadDestroyjoin : Join τ :=
  { s.store s.info with alive := false, frees := s.info.terminated :: s.frees }

/-- A joining thread that goes on. -/
def wake (t : τ) (cancelled : Bool) : Join τ :=
  { s with awake := ⟨t, cancelled, .reading, 0⟩ :: s.awake }

/-- `pthread_sem_take(&pjoin->exit_sem, false)` up to the block -/
def takeExitSem (t : τ) : Join τ :=
  let taken := s.info.exitSem.wait t
  let s := s.store { s.info with exitSem := taken.2 }
  if taken.1 then s.wake t false else s

/-- The end of `pthread_join`: the reference is given back, a decrement of a `uint8_t`, and the last
one to do so frees the information. -/
def dropRef (r : JoinReturn τ) : Join τ :=
  let s := s.store { s.info with crefs := u8 (s.info.crefs + 255) }
  let s := if s.info.crefs ≤ 0 then s.pthreadDestroyjoin else s
  { s with returned := r :: s.returned }

/-- `pthread_join` by the thread `t`, up to its return or its wait -/
def pthreadJoin (t : τ) : Join τ :=
  if s.alive then
    let s := s.store { s.info with crefs := u8 (s.info.crefs + 1) }
    if s.info.terminated then s.dropRef ⟨t, false, s.info.exitValue⟩ else s.takeExitSem t
  else s

/-- `pthread_detach` -/
def pthreadDetach : Join τ :=
  if s.alive then
    if s.info.terminated then s.pthreadDestroyjoin else s.store { s.info with detached := true }
  else s

/-- `nxsem_init`, which does nothing for a value above `SEM_VALUE_MAX`; the value is unsigned. -/
def nxsemInit {ι : Type} (sem : CountingSem ι) (value : Int) : CountingSem ι :=
  if toU32 value ≤ 32767 then ⟨toU32 value, []⟩ else sem

/-- The beginning of `pthread_notifywaiters`, and the end of `pthread_completejoin` if there are no
waiters. -/
def pthreadNotifywaiters : Join τ :=
  if s.info.exitSem.count < 0 then
    { s.store { s.info with
        dataSem := nxsemInit s.info.dataSem (s.info.exitSem.count + 1) } with exiter := .posting }
  else if s.info.detached then { s.pthreadDestroyjoin with exiter := .done }
  else { s with exiter := .done }

def terminate (value : Nat) : Join τ :=
  { s.store { s.info with terminated := true, exitValue := value } with exited := some value }

/-- `pthread_completejoin` up to the loop of `pthread_notifywaiters` or its end -/
def pthreadCompletejoin (value : Nat) : Join τ :=
  if s.alive then (s.terminate value).pthreadNotifywaiters
  else { s with exiter := .failed, exited := some value }

/-- The test of the loop of `pthread_notifywaiters`, and `pthread_sem_take(&pjoin->data_sem, false)`
after its end -/
def checkWaiters : Join τ :=
  if s.info.exitSem.count < 0 then { s.store s.info with exiter := .posting }
  else
    let taken := s.info.dataSem.wait ()
    { s.store { s.info with dataSem := taken.2 } with
      exiter := if taken.1 then .drained else .draining }

/-- `pthread_sem_give(&pjoin->data_sem)`, which may end the wait of the exiting thread -/
def giveDataSem : Join τ :=
  { s.store { s.info with dataSem := s.info.dataSem.post s.info.dataSem.waiters.head? } with
    exiter := if s.exiter = .draining ∧ s.info.dataSem.waiters ≠ [] then .drained else s.exiter }

section Threads

variable [DecidableEq τ]

/-- `pthread_sem_give(&pjoin->exit_sem)` in the loop of `pthread_notifywaiters`, which releases
`w` -/
def giveExitSem (w : Option τ) : Join τ :=
  let s := { s.store { s.info with exitSem := s.info.exitSem.post w } with exiter := .checking }
  match w with
  | some t => s.wake t false
  | none => s

/-- The wait of a joining thread is cancelled: `pthread_sem_take` returns `OK` all the same. -/
def cancelWait (t : τ) : Join τ :=
  (s.store { s.info with exitSem := s.info.exitSem.release t }).wake t true

/-- A joining thread goes from one stage to the next. -/
def advance (j j' : Awake τ) : Join τ := { s with awake := j' :: s.awake.erase j }

def readValue (j : Awake τ) : Join τ :=
  (s.store s.info).advance j { j with stage := .giving, value := s.info.exitValue }

/-- The joining thread leaves the call. -/
def leave (j : Awake τ) : Join τ :=
  { s with awake := s.awake.erase j }.dropRef ⟨j.who, j.cancelled, j.value⟩

end Threads

end Join

/-! ## Runs -/

/-- The steps of the exiting thread, of the joining threads and of those that detach, and the
cancellations. -/
inductive JoinEvent (τ : Type u)
  | join (t : τ)
  | cancel (t : τ)
  | read (j : Awake τ)
  | give (j : Awake τ)
  | leave (j : Awake τ)
  | detach
  | exit (value : Nat)
  | post (w : Option τ)
  | check
  | unlock

def Join.apply [DecidableEq τ] (s : Join τ) : JoinEvent τ → Option (Join τ)
  | .join t => some (s.pthreadJoin t)
  | .cancel t => some (s.cancelWait t)
  | .read j => some (s.readValue j)
  | .give j => some (s.giveDataSem.advance j { j with stage := .leaving })
  | .leave j => some (s.leave j)
  | .detach => some s.pthreadDetach
  | .exit value => some (s.pthreadCompletejoin value)
  | .post w => some (s.giveExitSem w)
  | .check => some s.checkWaiters
  | .unlock => some { s with exiter := .done }

/-- The mutex is free for those who take it, a thread is in one call at a time, and the steps of a
call are taken in their order. -/
def Join.Enabled (s : Join τ) : JoinEvent τ → Prop
  | .join t => s.exiter.locked = false ∧ t ∉ s.info.exitSem.waiters ∧ ∀ j ∈ s.awake, j.who ≠ t
  | .cancel t => t ∈ s.info.exitSem.waiters
  | .read j => j ∈ s.awake ∧ j.stage = .reading
  | .give j => j ∈ s.awake ∧ j.stage = .giving
  | .leave j => j ∈ s.awake ∧ j.stage = .leaving ∧ s.exiter.locked = false
  | .detach => s.exiter.locked = false
  | .exit _ => s.exiter = .running
  | .post w => s.exiter = .posting ∧ s.info.exitSem.Receives w
  | .check => s.exiter = .checking
  | .unlock => s.exiter = .drained

/-- What the source needs on top. At most 255 calls have a reference at a time; a cancelled call
does not give the last reference back before the exit; a detached thread does not exit while only
cancelled calls have references; and a thread that has terminated is not detached while a call has a
reference. -/
def Join.Orderly (s : Join τ) (e : JoinEvent τ) : Prop :=
  s.Enabled e ∧
    match e with
    | .join _ => s.alive = true → s.info.crefs < 255
    | .leave j => j.cancelled = true → s.info.terminated = true ∨ 1 < s.info.crefs
    | .detach => s.alive = true → s.info.terminated = true → s.info.crefs = 0
    | .exit _ => s.alive = true → s.info.detached = true → 0 ≤ s.info.exitSem.count →
        s.info.crefs = 0
    | _ => True

instance Join.decidableEnabled [DecidableEq τ] (s : Join τ) (e : JoinEvent τ) :
    Decidable (s.Enabled e) := by
  cases e <;> unfold Join.Enabled <;> infer_instance

instance Join.decidableOrderly [DecidableEq τ] (s : Join τ) (e : JoinEvent τ) :
    Decidable (s.Orderly e) := by
  cases e <;> unfold Join.Orderly <;> infer_instance

/-- The thread was created: nobody has joined, and `pthread_create` has destroyed `data_sem`, which
leaves the count one. -/
def Join.init (τ : Type u) : Join τ :=
  ⟨⟨0, false, false, ⟨0, []⟩, ⟨1, []⟩, 0⟩, true, .running, [], none, [], false, []⟩

/-- The states of the runs of which every event meets `ok`. -/
def JoinRun [DecidableEq τ] (ok : Join τ → JoinEvent τ → Prop) (s : Join τ) : Prop :=
  Reach (· = Join.init τ) (LabelledStep ok Join.apply) s

/-! ## Who needs the information -/

/-- The join information while it is allocated and `n` threads run inside `pthread_join`: `crefs`
counts the calls that have its address, and the calls that were not cancelled get the exit value. -/
structure Join.Live (n : Nat) (s : Join τ) : Prop where
  clean : s.badAccess = false
  alive : s.alive = true
  kept : s.frees = []
  balanced : s.info.exitSem.Balanced
  /-- nobody passes `exit_sem` before the exit -/
  early : s.info.terminated = false → s.info.exitSem.count ≤ 0
  refs : s.info.crefs = s.info.exitSem.waiters.length + s.awake.length + n
  few : s.info.crefs < 256
  phase : s.info.terminated = false ↔ s.exiter = .running
  found : s.exiter ≠ .failed
  exited : s.exited = if s.info.terminated then some s.info.exitValue else none
  calls : ∀ j ∈ s.awake, j.cancelled = false →
    s.info.terminated = true ∧ (j.stage ≠ .reading → s.exited = some j.value)
  returned : ∀ r ∈ s.returned, r.cancelled = false → s.exited = some r.value

/-- The information was freed, once and after the exit, with nobody left. -/
structure Join.Freed (s : Join τ) : Prop where
  clean : s.badAccess = false
  dead : s.alive = false
  once : s.frees = [true]
  waiters : s.info.exitSem.waiters = []
  awake : s.awake = []
  done : s.exiter = .done
  returned : ∀ r ∈ s.returned, r.cancelled = false → s.exited = some r.value

/-- What holds in the runs that meet the conditions. -/
def Join.Sound (s : Join τ) : Prop := s.Live 0 ∨ s.Freed

section Steps

variable {s : Join τ} {t : τ} {j : Awake τ} {n : Nat} {phase : ExitPhase} {e : JoinEvent τ}

namespace Join.Live

section

variable (h : s.Live n)
include h

theorem terminated_of_ne_running (hne : s.exiter ≠ .running) : s.info.terminated = true := by
  by_contra hrun
  exact hne (h.phase.1 (Bool.eq_false_iff.2 hrun))

theorem done_of_unlocked (hterm : s.info.terminated = true) (hunlocked : s.exiter.locked = false) :
    s.exiter = .done := by
  cases hexit : s.exiter with
  | running =>
    rw [h.phase.2 hexit] at hterm
    cases hterm
  | done => rfl
  | failed => exact absurd hexit h.found
  | posting | checking | draining | drained =>
    rw [hexit] at hunlocked
    cases hunlocked

theorem exited_of_terminated (hterm : s.info.terminated = true) :
    s.exited = some s.info.exitValue := by
  rw [h.exited, if_pos hterm]

theorem store_clean : (s.badAccess || !s.alive) = false := by
  rw [h.clean, h.alive]
  rfl

/-- `data_sem` is for the exiting thread only. -/
theorem storeData (sem : CountingSem Unit) : (s.store { s.info with dataSem := sem }).Live n :=
  { h with clean := h.store_clean }

/-- The exiting thread goes on. -/
theorem goOn (hterm : s.info.terminated = true) (hrun : phase ≠ .running)
    (hfound : phase ≠ .failed) : { s with exiter := phase }.Live n :=
  { h with
    phase := ⟨fun hfalse => absurd (hfalse.symm.trans hterm) nofun, fun heq => absurd heq hrun⟩
    found := hfound }

/-- Before the exit every call that goes on or has returned was cancelled, so the exit value is not
in use yet. -/
theorem terminate (hexit : s.exiter = .running) (value : Nat) (hrun : phase ≠ .running)
    (hfound : phase ≠ .failed) : { s.terminate value with exiter := phase }.Live n := by
  have hfalse := h.phase.2 hexit
  have hnone := h.exited
  rw [hfalse] at hnone
  refine { h with
    clean := h.store_clean, early := nofun, phase := ⟨nofun, fun heq => absurd heq hrun⟩
    found := hfound, exited := rfl, calls := fun i hi hc => ?_, returned := fun r hr hc => ?_ }
  · exact absurd (hfalse.symm.trans (h.calls i hi hc).1) nofun
  · exact absurd (hnone.symm.trans (h.returned r hr hc)) nofun

end

section

variable (h : s.Live 0)
include h

/-- The information is freed when nobody has its address and the thread is done. -/
theorem destroy (hterm : s.info.terminated = true) (hzero : s.info.crefs = 0)
    (hdone : s.exiter = .done) : s.pthreadDestroyjoin.Freed := by
  have hrefs := h.refs
  have hwaiters : s.info.exitSem.waiters = [] := eq_nil_of_length_eq_zero (by omega)
  have hawake : s.awake = [] := eq_nil_of_length_eq_zero (by omega)
  refine ⟨h.store_clean, rfl, ?_, hwaiters, hawake, hdone, h.returned⟩
  change s.info.terminated :: s.frees = [true]
  rw [hterm, h.kept]

/-- `pthread_join` counts itself. -/
theorem addRef (hfew : s.info.crefs < 255) :
    (s.store { s.info with crefs := u8 (s.info.crefs + 1) }).Live 1 := by
  have hcrefs : u8 (s.info.crefs + 1) = s.info.crefs + 1 := u8_eq_self (by omega)
  refine { h with clean := h.store_clean, refs := ?_, few := ?_ }
  · change u8 (s.info.crefs + 1) = s.info.exitSem.waiters.length + s.awake.length + 1
    rw [hcrefs, h.refs]
  · change u8 (s.info.crefs + 1) < 256
    omega

end

/-- The call gives its reference back; if it is the last one, the thread has terminated. -/
theorem dropRef (h : s.Live 1) (hunlocked : s.exiter.locked = false)
    (hlast : s.info.crefs = 1 → s.info.terminated = true) {r : JoinReturn τ}
    (hr : r.cancelled = false → s.exited = some r.value) : (s.dropRef r).Sound := by
  have hrefs := h.refs
  have hfew := h.few
  have hcrefs : u8 (s.info.crefs + 255) = s.info.crefs - 1 := by
    rw [u8]
    omega
  have hreturned : { s.store { s.info with crefs := u8 (s.info.crefs + 255) } with
      returned := r :: s.returned }.Live 0 := by
    refine { h with
      clean := h.store_clean, refs := ?_, few := ?_,
      returned := forall_mem_cons.2 ⟨hr, h.returned⟩ }
    · change u8 (s.info.crefs + 255) = s.info.exitSem.waiters.length + s.awake.length + 0
      omega
    · change u8 (s.info.crefs + 255) < 256
      omega
  rw [Join.dropRef]
  split
  · rename_i hle
    have hzero : u8 (s.info.crefs + 255) = 0 := Nat.le_zero.1 hle
    have hterm : s.info.terminated = true := hlast (by omega)
    exact .inr (hreturned.destroy hterm hzero (h.done_of_unlocked hterm hunlocked))
  · exact .inl hreturned

theorem takeExitSem (h : s.Live 1) (hrun : s.info.terminated = false)
    (ht : t ∉ s.info.exitSem.waiters) : (s.takeExitSem t).Live 0 := by
  have hcount := h.early hrun
  have hwait := CountingSem.wait_of_nonpos hcount t
  have hbalanced := h.balanced.wait ht
  have hrefs := h.refs
  rw [Join.takeExitSem]
  rw [hwait] at hbalanced ⊢
  refine { h with
    clean := h.store_clean, balanced := hbalanced, early := fun _ => ?_, refs := ?_ }
  · change s.info.exitSem.count - 1 ≤ 0
    omega
  · change s.info.crefs = (t :: s.info.exitSem.waiters).length + s.awake.length + 0
    rw [length_cons]
    omega

section

variable (h : s.Live 0)
include h

theorem join (hunlocked : s.exiter.locked = false) (ht : t ∉ s.info.exitSem.waiters)
    (hfew : s.info.crefs < 255) : (s.pthreadJoin t).Sound := by
  have hadd := h.addRef hfew
  rw [Join.pthreadJoin, if_pos h.alive]
  dsimp only
  split
  · rename_i hterm
    exact hadd.dropRef hunlocked (fun _ => hterm) fun _ => h.exited_of_terminated hterm
  · rename_i hrun
    exact .inl (hadd.takeExitSem (Bool.eq_false_iff.2 hrun) ht)

theorem detach (hunlocked : s.exiter.locked = false)
    (hnobody : s.info.terminated = true → s.info.crefs = 0) : s.pthreadDetach.Sound := by
  rw [Join.pthreadDetach, if_pos h.alive]
  split
  · rename_i hterm
    exact .inr (h.destroy hterm (hnobody hterm) (h.done_of_unlocked hterm hunlocked))
  · exact .inl { h with clean := h.store_clean }

/-- The exit: the joining threads are to be woken, or the information of a detached thread is
freed. -/
theorem complete (hrun : s.exiter = .running) (value : Nat)
    (hnobody : s.info.detached = true → 0 ≤ s.info.exitSem.count → s.info.crefs = 0) :
    (s.pthreadCompletejoin value).Sound := by
  rw [Join.pthreadCompletejoin, if_pos h.alive, Join.pthreadNotifywaiters]
  split
  · have hposting : { s.terminate value with exiter := .posting }.Live 0 :=
      h.terminate hrun value nofun nofun
    exact .inl (hposting.storeData _)
  · rename_i hwaiters
    have hdone : { s.terminate value with exiter := .done }.Live 0 :=
      h.terminate hrun value nofun nofun
    split
    · rename_i hdetached
      exact .inr (hdone.destroy rfl (hnobody hdetached (not_lt.1 hwaiters)) rfl)
    · exact .inl hdone

/-- The exiting thread looks at the count again. -/
theorem check (hphase : s.exiter = .checking) : s.checkWaiters.Live 0 := by
  have hterm := h.terminated_of_ne_running (hphase.trans_ne nofun)
  rw [Join.checkWaiters]
  split
  · exact (h.storeData _).goOn hterm nofun nofun
  · refine (h.storeData _).goOn hterm ?_ ?_ <;> split <;> exact nofun

end

section Threads

variable [DecidableEq τ] (h : s.Live 0)
include h

/-- A waiting call waits no longer. -/
theorem release (ht : t ∈ s.info.exitSem.waiters) :
    (s.store { s.info with exitSem := s.info.exitSem.release t }).Live 1 := by
  have hneg := h.balanced.neg_of_mem ht
  have hlen := length_erase_of_mem ht
  have hpos := length_pos_of_mem ht
  have hrefs := h.refs
  refine { h with
    clean := h.store_clean, balanced := h.balanced.release ht, early := fun _ => ?_, refs := ?_ }
  · change s.info.exitSem.count + 1 ≤ 0
    omega
  · change s.info.crefs = (s.info.exitSem.waiters.erase t).length + s.awake.length + 1
    omega

/-- A call takes its next step. -/
theorem remove (hj : j ∈ s.awake) : { s with awake := s.awake.erase j }.Live 1 := by
  have hlen := length_erase_of_mem hj
  have hpos := length_pos_of_mem hj
  have hrefs := h.refs
  refine { h with refs := ?_, calls := fun i hi => h.calls i (mem_of_mem_erase hi) }
  dsimp only
  omega

omit [DecidableEq τ] h in
/-- A call goes on: it was cancelled, or it has the exit value if it is past the read. -/
theorem enter (h : s.Live 1) (hcall : j.cancelled = false →
    s.info.terminated = true ∧ (j.stage ≠ .reading → s.exited = some j.value)) :
    { s with awake := j :: s.awake }.Live 0 :=
  { h with refs := h.refs, calls := forall_mem_cons.2 ⟨hcall, h.calls⟩ }

/-- The exiting thread releases a joining thread, or nobody. -/
theorem post (hphase : s.exiter = .posting) {w : Option τ} (hw : s.info.exitSem.Receives w) :
    (s.giveExitSem w).Live 0 := by
  have hterm := h.terminated_of_ne_running (hphase.trans_ne nofun)
  cases w with
  | none =>
    have hgiven : (s.store { s.info with exitSem := s.info.exitSem.post none }).Live 0 :=
      { h with
        clean := h.store_clean, balanced := h.balanced.post hw
        early := fun hfalse => absurd (hfalse.symm.trans hterm) nofun }
    exact hgiven.goOn hterm nofun nofun
  | some t =>
    have hchecking : { s.store { s.info with exitSem := s.info.exitSem.release t } with
        exiter := .checking }.Live 1 := (h.release hw.2).goOn hterm nofun nofun
    exact hchecking.enter fun _ => ⟨hterm, fun hstage => absurd rfl hstage⟩

theorem cancel (ht : t ∈ s.info.exitSem.waiters) : (s.cancelWait t).Live 0 :=
  (h.release ht).enter nofun

/-- The exit value is read. -/
theorem readValue (hj : j ∈ s.awake) : (s.readValue j).Live 0 := by
  refine ((h.storeData _).remove hj).enter fun hc => ?_
  have hterm := (h.calls j hj hc).1
  exact ⟨hterm, fun _ => h.exited_of_terminated hterm⟩

/-- Giving `data_sem` may let the exiting thread go on. -/
theorem giveDataSem (hj : j ∈ s.awake) (hstage : j.stage = .giving) :
    (s.giveDataSem.advance j { j with stage := .leaving }).Live 0 := by
  have hgiven : s.giveDataSem.Live 0 := by
    rw [Join.giveDataSem]
    split
    · rename_i hdraining
      have hterm := h.terminated_of_ne_running (hdraining.1.trans_ne nofun)
      exact (h.storeData _).goOn hterm nofun nofun
    · exact h.storeData _
  refine (hgiven.remove hj).enter fun hc => ?_
  obtain ⟨hterm, hread⟩ := h.calls j hj hc
  exact ⟨hterm, fun _ => hread (hstage.trans_ne nofun)⟩

theorem leave (hj : j ∈ s.awake) (hstage : j.stage = .leaving) (hunlocked : s.exiter.locked = false)
    (hlast : j.cancelled = true → s.info.terminated = true ∨ 1 < s.info.crefs) :
    (s.leave j).Sound := by
  refine (h.remove hj).dropRef hunlocked (fun hone => ?_) fun hc => ?_
  · -- a call that was not cancelled leaves after the exit only
    cases hc : j.cancelled with
    | true => exact (hlast hc).resolve_right hone.not_gt
    | false => exact (h.calls j hj hc).1
  · exact (h.calls j hj hc).2 (hstage.trans_ne nofun)

/-- Every event that meets its condition keeps the state sound. -/
theorem apply (hok : s.Orderly e) : ∃ s', s.apply e = some s' ∧ s'.Sound := by
  obtain ⟨henabled, hcond⟩ := hok
  cases e with
  | join t => exact ⟨_, rfl, h.join henabled.1 henabled.2.1 (hcond h.alive)⟩
  | cancel t => exact ⟨_, rfl, .inl (h.cancel henabled)⟩
  | read j => exact ⟨_, rfl, .inl (h.readValue henabled.1)⟩
  | give j => exact ⟨_, rfl, .inl (h.giveDataSem henabled.1 henabled.2)⟩
  | leave j => exact ⟨_, rfl, h.leave henabled.1 henabled.2.1 henabled.2.2 hcond⟩
  | detach => exact ⟨_, rfl, h.detach henabled (hcond h.alive)⟩
  | exit value => exact ⟨_, rfl, h.complete henabled value (hcond h.alive)⟩
  | post w => exact ⟨_, rfl, .inl (h.post henabled.1 henabled.2)⟩
  | check => exact ⟨_, rfl, .inl (h.check henabled)⟩
  | unlock =>
    have hphase : s.exiter = .drained := henabled
    have hterm := h.terminated_of_ne_running (hphase.trans_ne nofun)
    exact ⟨_, rfl, .inl (h.goOn hterm nofun nofun)⟩

end Threads

end Join.Live

/-- Nobody has the address any more, so nothing changes. -/
theorem Join.Freed.apply [DecidableEq τ] (h : s.Freed) (henabled : s.Enabled e) :
    s.apply e = some s := by
  have hdead : ¬ s.alive = true := Bool.eq_false_iff.1 h.dead
  cases e with
  | join t => exact congrArg some (if_neg hdead)
  | detach => exact congrArg some (if_neg hdead)
  | cancel t =>
    have ht : t ∈ s.info.exitSem.waiters := henabled
    rw [h.waiters] at ht
    exact absurd ht not_mem_nil
  | read j | give j | leave j => exact absurd (h.awake ▸ henabled.1) not_mem_nil
  | exit value => exact absurd (h.done.symm.trans henabled) nofun
  | post w => exact absurd (h.done.symm.trans henabled.1) nofun
  | check | unlock => exact absurd (h.done.symm.trans henabled) nofun

theorem Join.Live.init : (Join.init τ).Live 0 :=
  ⟨rfl, rfl, rfl, .of_nil (Int.le_refl 0), fun _ => Int.le_refl 0, rfl, Nat.succ_pos 255,
    ⟨fun _ => rfl, fun _ => rfl⟩, nofun, rfl, nofun, nofun⟩

theorem JoinRun.sound [DecidableEq τ] (h : JoinRun Join.Orderly s) : s.Sound := by
  refine Reach.labelled ?_ ?_ h
  · rintro _ rfl
    exact .inl .init
  · rintro s e (live | freed) hok
    · exact live.apply hok
    · exact ⟨s, freed.apply hok.1, .inr freed⟩

end Steps

/-- In every state of every run that meets the conditions: the join information was freed at most
once, and then after the exit of the thread; it was not accessed after it was freed; and every call
of `pthread_join` that returned `OK` to a thread that was not cancelled gave the value of
`pthread_exit`. -/
theorem join_info_lives_while_needed [DecidableEq τ] (s : Join τ) (h : JoinRun Join.Orderly s) :
    s.frees.length ≤ 1 ∧ (∀ terminated ∈ s.frees, terminated = true) ∧ s.badAccess = false ∧
      ∀ r ∈ s.returned, r.cancelled = false → s.exited = some r.value := by
  rcases h.sound with live | freed
  · rw [live.kept]
    exact ⟨Nat.zero_le 1, nofun, live.clean, live.returned⟩
  · rw [freed.once]
    exact ⟨Nat.le_refl 1, by simp, freed.clean, freed.returned⟩

/-- Two threads join before the exit and one of them is cancelled; the thread exits with 7, and a
third thread joins after that. The last one to leave frees the information. -/
theorem join_info_lives_while_needed_sample : let events : List (JoinEvent Nat) :=
      [.join 1, .join 2, .cancel 1, .read ⟨1, true, .reading, 0⟩, .give ⟨1, true, .giving, 0⟩,
        .leave ⟨1, true, .leaving, 0⟩, .exit 7, .post (some 2), .check,
        .read ⟨2, false, .reading, 0⟩, .give ⟨2, false, .giving, 7⟩, .unlock, .join 3,
        .leave ⟨2, false, .leaving, 7⟩]
    let s := after Join.apply (Join.init Nat) events
    (s.frees.length ≤ 1 ∧ (∀ terminated ∈ s.frees, terminated = true) ∧ s.badAccess = false ∧
      ∀ r ∈ s.returned, r.cancelled = false → s.exited = some r.value) ∧
      s.frees = [true] ∧ s.returned = [⟨2, false, 7⟩, ⟨3, false, 7⟩, ⟨1, true, 0⟩] := by
  intro events s
  have hrun : JoinRun Join.Orderly s := Reach.after events (.start rfl) (by decide)
  exact ⟨join_info_lives_while_needed s hrun, by decide, by decide⟩

/-- Three runs. The only joining thread is cancelled: it frees the information before the thread
exits. The thread is detached after its exit, before a thread that it has released leaves: this one
accesses the information after it is freed, and frees it again. A thread is detached, the only
joining thread is cancelled, and the thread exits before the cancelled call goes on. -/
theorem join_info_freed_while_needed : let cancelled : List (JoinEvent Nat) :=
      [.join 1, .cancel 1, .read ⟨1, true, .reading, 0⟩, .give ⟨1, true, .giving, 0⟩,
        .leave ⟨1, true, .leaving, 0⟩]
    let detached : List (JoinEvent Nat) :=
      [.join 1, .exit 7, .post (some 1), .check, .read ⟨1, false, .reading, 0⟩,
        .give ⟨1, false, .giving, 7⟩, .unlock, .detach, .leave ⟨1, false, .leaving, 7⟩]
    let both : List (JoinEvent Nat) :=
      [.detach, .join 1, .cancel 1, .exit 7, .read ⟨1, true, .reading, 0⟩]
    AllSteps Join.Enabled Join.apply (Join.init Nat) cancelled ∧
      (after Join.apply (Join.init Nat) cancelled).frees = [false] ∧
      AllSteps Join.Enabled Join.apply (Join.init Nat) detached ∧
      (after Join.apply (Join.init Nat) detached).frees = [true, true] ∧
      (after Join.apply (Join.init Nat) detached).badAccess = true ∧
      AllSteps Join.Enabled Join.apply (Join.init Nat) both ∧
      (after Join.apply (Join.init Nat) both).badAccess = true := by
  decide

end BaseNx.Pthread
