import BaseNx.Errno
import BaseNx.Lib.CountingSem
import BaseNx.Lib.Reach
import BaseNx.Lib.Ring

/-!
# Pipes

`pipecommon_read` and `pipecommon_write` on one open pipe. The place of a task inside a call is its
`Pc`; `Pipe.act` is the text of the two functions, which says what a task does next at each place,
and `Pipe.perform` is what that does. An action is one semaphore operation, one byte that is moved,
or one test. The scheduler lock is part of the state: while a task has it, no other task runs.

What the tasks have done is kept beside the device: the bytes stored into the buffer and who stored
them, the bytes loaded from it, and the returns of the calls.
-/

namespace BaseNx.Pipes

open Lib

universe u

/-! ## State -/

/-- The arguments of `pipecommon_read`. -/
structure ReadCall where
  len : Nat
  nonblock : Bool
  deriving DecidableEq

/-- The arguments of `pipecommon_write`, and its variables `nwritten` and `last`. -/
structure WriteCall where
  data : List UInt8
  nonblock : Bool
  nwritten : Nat
  last : Nat
  deriving DecidableEq

/-- The place of a task: outside; before `nxsem_wait(&dev->d_bfsem)`; at the test for an empty pipe;
before `nxsem_wait(&dev->d_rdsem)`; in the loop that copies; at the test and at the post of the loop
that notifies the writers. In `pipecommon_write` the places are the same, with the loop that copies
before the test for a full pipe; `fin` says whether all bytes are written. -/
inductive Pc
  | idle
  | readEnter (c : ReadCall)
  | readCheck (c : ReadCall)
  | readSleep (c : ReadCall)
  | readCopy (c : ReadCall) (bytes : List UInt8)
  | readNotify (bytes : List UInt8)
  | readPost (bytes : List UInt8)
  | writeEnter (c : WriteCall)
  | writeCopy (c : WriteCall)
  | writeNotify (c : WriteCall) (fin : Bool)
  | writePost (c : WriteCall) (fin : Bool)
  | writeFull (c : WriteCall)
  | writeSleep (c : WriteCall)
  deriving DecidableEq

/-- The place of a task that gets the semaphore it waits for. -/
def Pc.resume : Pc → Pc
  | .readEnter c => .readCheck c
  | .readSleep c => .readEnter c
  | .writeEnter c => .writeCopy c
  | .writeSleep c => .writeEnter c
  | p => p

/-- A call that has returned: its value, the bytes that a read has put into the buffer of the
caller, and the data that a write was called with. -/
structure PipeReturn (τ : Type u) where
  who : τ
  value : Int
  bytes : List UInt8
  data : List UInt8
  deriving DecidableEq

/-- `struct pipe_dev_s`, with the tasks and what they have done. -/
structure Pipe (τ : Type u) where
  bufsize : Nat
  nwriters : Nat
  wrndx : Nat
  rdndx : Nat
  buffer : Nat → UInt8
  bfsem : CountingSem τ
  rdsem : CountingSem τ
  wrsem : CountingSem τ
  pc : τ → Pc
  locked : Option τ
  accepted : List (τ × UInt8)
  loaded : List UInt8
  finished : List (PipeReturn τ)

/-- What a task does next: take the semaphore of the buffer; give it, with the scheduler locked
before that if `lock`, and return if there is something to return; wait for data or for room; post
the readers or the writers; load or store a byte; or go on after a test. -/
inductive Act
  | take (next : Pc)
  | give (next : Pc) (lock : Bool) (ret : Option (Int × List UInt8 × List UInt8))
  | awaitData (next : Pc)
  | awaitRoom (next : Pc)
  | postReader (next : Pc)
  | postWriter (next : Pc)
  | load (next : UInt8 → Pc)
  | store (x : UInt8) (next : Pc)
  | go (next : Pc)

variable {τ : Type u}

namespace Pipe

variable (s : Pipe τ)

/-! ## The functions of the source -/

/-- The write index after the next byte is written. -/
def nxtwrndx : Nat := ringSucc s.bufsize s.wrndx

/-- `pipecommon_read` and `pipecommon_write`, place by place -/
def act : Pc → Option Act
  | .idle => none
  | .readEnter c => some (.take (.readCheck c))
  | .readCheck c =>
    if s.wrndx = s.rdndx then
      if c.nonblock then some (.give .idle false (some (-EAGAIN, [], [])))
      else if s.nwriters ≤ 0 then some (.give .idle false (some (0, [], [])))
      else some (.give (.readSleep c) true none)
    else some (.go (.readCopy c []))
  | .readSleep c => some (.awaitData (.readEnter c))
  | .readCopy c bytes =>
    if bytes.length < c.len ∧ s.wrndx ≠ s.rdndx then
      some (.load fun x => .readCopy c (bytes ++ [x]))
    else some (.go (.readNotify bytes))
  | .readNotify bytes =>
    if s.wrsem.count < 0 then some (.go (.readPost bytes))
    else some (.give .idle false (some (bytes.length, bytes, [])))
  | .readPost bytes => some (.postWriter (.readNotify bytes))
  | .writeEnter c => some (.take (.writeCopy c))
  | .writeCopy c =>
    if s.nxtwrndx ≠ s.rdndx then
      let c' := { c with nwritten := c.nwritten + 1 }
      let next := if c.data.length ≤ c'.nwritten then Pc.writeNotify c' true else .writeCopy c'
      some (.store (c.data.getD c.nwritten 0) next)
    else if c.last < c.nwritten then some (.go (.writeNotify c false))
    else some (.go (.writeFull c))
  | .writeNotify c fin =>
    if s.rdsem.count < 0 then some (.go (.writePost c fin))
    else if fin then some (.give .idle false (some (c.data.length, [], c.data)))
    else some (.go (.writeFull c))
  | .writePost c fin => some (.postReader (.writeNotify c fin))
  | .writeFull c =>
    if c.nonblock then
      some (.give .idle false (some (if c.nwritten = 0 then -EAGAIN else c.nwritten, [], c.data)))
    else some (.give (.writeSleep { c with last := c.nwritten }) true none)
  | .writeSleep c => some (.awaitRoom (.writeEnter c))

/-- `FIONREAD` of `pipecommon_ioctl` -/
def fionread : Int :=
  if s.wrndx < s.rdndx then (s.bufsize - s.rdndx) + s.wrndx else s.wrndx - s.rdndx

/-- `FIONSPACE` of `pipecommon_ioctl` -/
def fionspace : Int :=
  if s.wrndx < s.rdndx then (s.rdndx - s.wrndx) - 1
  else ((s.bufsize - s.wrndx) + s.rdndx) - 1

/-- A call returns. -/
def log (t : τ) : Option (Int × List UInt8 × List UInt8) → Pipe τ
  | some (value, bytes, data) => { s with finished := s.finished ++ [⟨t, value, bytes, data⟩] }
  | none => s

section Tasks

variable [DecidableEq τ]

def setPc (t : τ) (p : Pc) : Pipe τ := { s with pc := Function.update s.pc t p }

/-- The task that a post releases goes on. -/
def resume : Option τ → Pipe τ
  | some u => s.setPc u (s.pc u).resume
  | none => s

/-- An action of the task `t`; a post releases the task `w`. A wait that is granted goes on at once,
and a task that waits has no use of the scheduler lock. -/
def perform (t : τ) (w : Option τ) : Act → Pipe τ
  | .take next =>
    let taken := s.bfsem.wait t
    let s := { s with bfsem := taken.2 }
    if taken.1 then s.setPc t next else s
  | .give next lock ret =>
    let s := { s with
      bfsem := s.bfsem.post w
      locked := if lock then some t else s.locked }
    ((s.setPc t next).resume w).log t ret
  | .awaitData next =>
    let taken := s.rdsem.wait t
    let s := { s with rdsem := taken.2, locked := none }
    if taken.1 then s.setPc t next else s
  | .awaitRoom next =>
    let taken := s.wrsem.wait t
    let s := { s with wrsem := taken.2, locked := none }
    if taken.1 then s.setPc t next else s
  | .postReader next => ({ s with rdsem := s.rdsem.post w }.setPc t next).resume w
  | .postWriter next => ({ s with wrsem := s.wrsem.post w }.setPc t next).resume w
  | .load next =>
    let x := s.buffer s.rdndx
    { s with rdndx := ringSucc s.bufsize s.rdndx, loaded := s.loaded ++ [x] }.setPc t (next x)
  | .store x next =>
    { s with
      buffer := Function.update s.buffer s.wrndx x
      wrndx := s.nxtwrndx
      accepted := s.accepted ++ [(t, x)] }.setPc t next
  | .go next => s.setPc t next

/-- The beginning of both functions: a call of length zero returns. -/
def call (t : τ) (len : Nat) (p : Pc) : Pipe τ :=
  if len = 0 then s.log t (some (0, [], [])) else s.setPc t p

end Tasks

end Pipe

/-! ## Runs -/

/-- The calls, and the actions of the tasks inside them. -/
inductive PipeEvent (τ : Type u)
  | read (t : τ) (len : Nat) (nonblock : Bool)
  | write (t : τ) (data : List UInt8) (nonblock : Bool)
  | step (t : τ) (w : Option τ)

def Pipe.apply [DecidableEq τ] (s : Pipe τ) : PipeEvent τ → Option (Pipe τ)
  | .read t len nonblock => some (s.call t len (.readEnter ⟨len, nonblock⟩))
  | .write t data nonblock => some (s.call t data.length (.writeEnter ⟨data, nonblock, 0, 0⟩))
  | .step t w => (s.act (s.pc t)).map (s.perform t w)

variable (s : Pipe τ) (t : τ)

/-- The task waits for a semaphore. -/
def Pipe.Blocked : Prop :=
  t ∈ s.bfsem.waiters ∨ t ∈ s.rdsem.waiters ∨ t ∈ s.wrsem.waiters

/-- No other task has locked the scheduler. -/
def Pipe.MayRun : Prop := s.locked = none ∨ s.locked = some t

/-- A post releases one of the waiting tasks, if there are any. -/
def Pipe.Releases (w : Option τ) : Act → Prop
  | .give _ _ _ => s.bfsem.Receives w
  | .postReader _ => s.rdsem.Receives w
  | .postWriter _ => s.wrsem.Receives w
  | _ => w = none

/-- A task calls from outside, and inside a call it acts when it is not blocked. -/
def Pipe.Enabled : PipeEvent τ → Prop
  | .read t _ _ => s.MayRun t ∧ s.pc t = .idle
  | .write t _ _ => s.MayRun t ∧ s.pc t = .idle
  | .step t w => s.MayRun t ∧ ¬ s.Blocked t ∧ ∃ a ∈ s.act (s.pc t), s.Releases w a

instance Pipe.decidableBlocked [DecidableEq τ] (s : Pipe τ) (t : τ) : Decidable (s.Blocked t) :=
  inferInstanceAs (Decidable (_ ∨ _))

instance Pipe.decidableMayRun [DecidableEq τ] (s : Pipe τ) (t : τ) : Decidable (s.MayRun t) :=
  inferInstanceAs (Decidable (_ ∨ _))

instance Pipe.decidableReleases [DecidableEq τ] (s : Pipe τ) (w : Option τ) (a : Act) :
    Decidable (s.Releases w a) := by
  cases a <;> unfold Pipe.Releases <;> infer_instance

instance Pipe.decidableEnabled [DecidableEq τ] (s : Pipe τ) (e : PipeEvent τ) :
    Decidable (s.Enabled e) := by
  cases e <;> unfold Pipe.Enabled <;> infer_instance

/-- A pipe that was opened: the buffer of `bufsize` bytes is empty, and no task is inside a call. -/
def Pipe.init (τ : Type u) (bufsize nwriters : Nat) : Pipe τ :=
  ⟨bufsize, nwriters, 0, 0, fun _ => 0, ⟨1, []⟩, ⟨0, []⟩, ⟨0, []⟩, fun _ => .idle, none, [], [], []⟩

/-- The states of the runs. -/
def PipeRun [DecidableEq τ] (bufsize nwriters : Nat) (s : Pipe τ) : Prop :=
  Reach (· = Pipe.init τ bufsize nwriters) (LabelledStep Pipe.Enabled Pipe.apply) s

/-! ## What is in the pipe -/

/-- The bytes in the buffer. -/
def Pipe.contents : List UInt8 := ring s.bufsize s.buffer s.rdndx s.wrndx

/-- The bytes that reads have returned, in order. -/
def Pipe.returned : List UInt8 := s.finished.flatMap (·.bytes)

/-- The bytes that writes have stored, in order. -/
def Pipe.written : List UInt8 := s.accepted.map Prod.snd

/-- Those that came from the task `t`. -/
def Pipe.writtenBy [DecidableEq τ] : List UInt8 :=
  (s.accepted.filter fun x => x.1 = t).map Prod.snd

/-- What the writes of the task `t` that have returned tell it to be stored: the first bytes of the
data, as many as the value says. -/
def Pipe.reported [DecidableEq τ] : List UInt8 :=
  (s.finished.filter fun r => r.who = t).flatMap fun r => r.data.take r.value.toNat

end BaseNx.Pipes
