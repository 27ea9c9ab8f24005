import BaseNx.Errno
import BaseNx.Lib.CountingSem
import BaseNx.Lib.MachineInt
import BaseNx.Lib.Reach
import BaseNx.Lib.Ring

/-!
# The descriptors of a pipe

`pipecommon_open` and `pipecommon_close` count the descriptors of a pipe in `d_refs`, `d_nwriters`
and `d_nreaders`, which have eight bits. A call is modelled from `nxsem_wait(&dev->d_bfsem)` to the
`nxsem_post` that ends it or lets it wait; a task that waits for a writer, for data or for room
makes a further pass once it is woken.

The counts match the open descriptors (`descriptor_counts_match`) as long as there are at most 255
of them and the last close does not leave data behind under policy 1: then only `d_refs` is counted
down, and a reader that opens the pipe later waits for a writer that is gone
(`writer_outlives_last_close`).
-/

namespace BaseNx.Pipes

open Lib List

universe u

/-! ## The functions of the source -/

/-- `O_RDONLY`, `O_WRONLY` and `O_RDWR` -/
inductive OpenMode
  | rdonly
  | wronly
  | rdwr
  deriving DecidableEq

/-- `O_RDOK` is set. -/
def OpenMode.rdok (m : OpenMode) : Bool := m != .wronly

/-- `O_WROK` is set. -/
def OpenMode.wrok (m : OpenMode) : Bool := m != .rdonly

/-- `struct pipe_dev_s`; `policy` is `PIPE_FLAG_POLICY` in `d_flags`. -/
structure PipeDev (τ : Type u) where
  bufsize : Nat
  wrndx : Nat
  rdndx : Nat
  refs : Nat
  nwriters : Nat
  nreaders : Nat
  policy : Bool
  buffer : Option (Nat → UInt8)
  rdsem : CountingSem τ
  wrsem : CountingSem τ

variable {τ : Type u}

section Functions

variable [DecidableEq τ]

/-- `while (nxsem_getvalue(sem, &sval) == 0 && sval < 0) nxsem_post(sem)` -/
def wakeAll (sem : CountingSem τ) : CountingSem τ := (sem.postWhileNeg (-sem.count).toNat).2

variable (dev : PipeDev τ) (t : τ) (m : OpenMode) (fresh : Nat → UInt8)

/-- `pipecommon_open` up to its `nxsem_post(&dev->d_bfsem)`; `fresh` is the memory that `kmm_malloc`
finds. -/
def countOpen (m : OpenMode) (fresh : Nat → UInt8) : PipeDev τ :=
  let dev := if dev.refs = 0 ∧ dev.buffer.isNone then { dev with buffer := some fresh } else dev
  let dev := { dev with refs := u8 (dev.refs + 1) }
  let dev :=
    if m.wrok then
      let n := u8 (dev.nwriters + 1)
      { dev with nwriters := n, rdsem := if n = 1 then wakeAll dev.rdsem else dev.rdsem }
    else dev
  if m.rdok then { dev with nreaders := u8 (dev.nreaders + 1) } else dev

/-- `pipecommon_open`; the result says whether it returns without waiting for the first writer. -/
def pipecommonOpen :
    Bool × PipeDev τ :=
  let dev := countOpen dev m fresh
  if m = .rdonly ∧ dev.nwriters < 1 ∧ dev.wrndx = dev.rdndx then
    ((dev.rdsem.wait t).1, { dev with rdsem := (dev.rdsem.wait t).2 })
  else (true, dev)

/-- `pipecommon_close` -/
def pipecommonClose (m : OpenMode) : PipeDev τ :=
  let refs := u8 (dev.refs + 255)
  if 0 < refs then
    let dev := { dev with refs := refs }
    let dev :=
      if m.wrok then
        let n := u8 (dev.nwriters + 255)
        { dev with nwriters := n, rdsem := if n ≤ 0 then wakeAll dev.rdsem else dev.rdsem }
      else dev
    if m.rdok then { dev with nreaders := u8 (dev.nreaders + 255) } else dev
  else if dev.policy = false ∨ dev.wrndx = dev.rdndx then
    { dev with buffer := none, wrndx := 0, rdndx := 0, refs := 0, nwriters := 0, nreaders := 0 }
  else { dev with refs := refs }

/-- The loop of `pipecommon_read` -/
def loadBytes (dev : PipeDev τ) : Nat → List UInt8 → PipeDev τ × List UInt8
  | 0, bytes => (dev, bytes)
  | n + 1, bytes =>
    if dev.wrndx ≠ dev.rdndx then
      loadBytes { dev with rdndx := ringSucc dev.bufsize dev.rdndx } n
        (bytes ++ [(dev.buffer.getD fun _ => 0) dev.rdndx])
    else (dev, bytes)

/-- A pass of `pipecommon_read`; it returns, or it waits for data. -/
def pipecommonRead (len : Nat) (nonblock : Bool) :
    Option (Int × List UInt8) × PipeDev τ :=
  if len = 0 then (some (0, []), dev)
  else if dev.wrndx = dev.rdndx then
    if nonblock then (some (-EAGAIN, []), dev)
    else if dev.nwriters ≤ 0 then (some (0, []), dev)
    else (none, { dev with rdsem := (dev.rdsem.wait t).2 })
  else
    let (dev, bytes) := loadBytes dev len []
    (some (bytes.length, bytes), { dev with wrsem := wakeAll dev.wrsem })

/-- The loop of `pipecommon_write` up to a full buffer, and the bytes that are left then -/
def storeBytes (dev : PipeDev τ) : List UInt8 → PipeDev τ × List UInt8
  | [] => (dev, [])
  | x :: data =>
    if ringSucc dev.bufsize dev.wrndx ≠ dev.rdndx then
      storeBytes { dev with
        buffer := dev.buffer.map fun b => Function.update b dev.wrndx x
        wrndx := ringSucc dev.bufsize dev.wrndx } data
    else (dev, x :: data)

/-- A pass of `pipecommon_write` after `nwritten` bytes; it returns, or it waits for room. -/
def pipecommonWrite (data : List UInt8) (nwritten : Nat)
    (nonblock : Bool) : Option Int × PipeDev τ :=
  if data = [] then (some 0, dev)
  else
    let (dev, left) := storeBytes dev data
    let n := nwritten + (data.length - left.length)
    let dev := if left.length < data.length then { dev with rdsem := wakeAll dev.rdsem } else dev
    if left = [] then (some n, dev)
    else if nonblock then (some (if n = 0 then -EAGAIN else n), dev)
    else (none, { dev with wrsem := (dev.wrsem.wait t).2 })

/-! ## Runs -/

/-- The device and the modes of the descriptors that are open. -/
structure OpenPipe (τ : Type u) where
  dev : PipeDev τ
  descs : List OpenMode

/-- The calls, with the tasks that make them; a signal ends the wait of a task for `d_rdsem`. -/
inductive DescCall (τ : Type u)
  | openPipe (t : τ) (m : OpenMode) (fresh : Nat → UInt8)
  | close (m : OpenMode)
  | read (t : τ) (len : Nat) (nonblock : Bool)
  | write (t : τ) (data : List UInt8) (nwritten : Nat) (nonblock : Bool)
  | policy (arg : Bool)
  | signal (t : τ)

def OpenPipe.apply (s : OpenPipe τ) : DescCall τ → Option (OpenPipe τ)
  | .openPipe t m fresh => some ⟨(pipecommonOpen s.dev t m fresh).2, m :: s.descs⟩
  | .close m => some ⟨pipecommonClose s.dev m, s.descs.erase m⟩
  | .read t len nonblock => some { s with dev := (pipecommonRead s.dev t len nonblock).2 }
  | .write t data nwritten nonblock =>
    some { s with dev := (pipecommonWrite s.dev t data nwritten nonblock).2 }
  | .policy arg => some { s with dev := { s.dev with policy := arg } }
  | .signal t => some { s with dev := { s.dev with rdsem := s.dev.rdsem.release t } }

/-- A task calls when it does not wait, and closes what is open. -/
def OpenPipe.Enabled (s : OpenPipe τ) : DescCall τ → Prop
  | .openPipe t _ _ | .read t _ _ | .write t _ _ _ =>
    t ∉ s.dev.rdsem.waiters ∧ t ∉ s.dev.wrsem.waiters
  | .close m => m ∈ s.descs
  | .policy _ => True
  | .signal t => t ∈ s.dev.rdsem.waiters

/-- There is a count for a further descriptor, and the last close leaves no data behind that policy
1 keeps. -/
def OpenPipe.Orderly (s : OpenPipe τ) : DescCall τ → Prop
  | .openPipe _ _ _ => s.dev.refs < 255
  | .close _ => s.dev.refs = 1 → s.dev.policy = false ∨ s.dev.wrndx = s.dev.rdndx
  | _ => True

instance (s : OpenPipe τ) (c : DescCall τ) : Decidable (s.Enabled c) := by
  cases c <;> unfold OpenPipe.Enabled <;> infer_instance

instance (s : OpenPipe τ) (c : DescCall τ) : Decidable (s.Orderly c) := by
  cases c <;> unfold OpenPipe.Orderly <;> infer_instance

/-- `pipecommon_allocdev` -/
def OpenPipe.init (τ : Type u) (bufsize : Nat) : OpenPipe τ where
  dev := ⟨bufsize, 0, 0, 0, 0, 0, false, none, ⟨0, []⟩, ⟨0, []⟩⟩
  descs := []

end Functions

/-! ## The counts -/

/-- The fields that the loops of read and write leave alone, and the semaphores, are right for the
open descriptors. -/
structure Counted (descs : List OpenMode) (dev : PipeDev τ) : Prop where
  refs : dev.refs = descs.length
  nwriters : dev.nwriters = descs.countP OpenMode.wrok
  nreaders : dev.nreaders = descs.countP OpenMode.rdok
  limit : descs.length ≤ 255
  rd : dev.rdsem.Balanced
  wr : dev.wrsem.Balanced

section Counts

variable {dev dev' : PipeDev τ} {descs : List OpenMode} {m : OpenMode} {sem : CountingSem τ} {t : τ}

section

variable (h : Counted descs dev)
include h

theorem Counted.load (n : Nat) (bytes : List UInt8) : Counted descs (loadBytes dev n bytes).1 := by
  induction n generalizing dev bytes with
  | zero => exact h
  | succ n ih =>
    rw [loadBytes]
    split
    · apply ih
      exact { h with }
    · exact h

theorem Counted.store (data : List UInt8) :
    Counted descs (storeBytes dev data).1 ∧ (storeBytes dev data).1.wrsem = dev.wrsem := by
  induction data generalizing dev with
  | nil => exact ⟨h, rfl⟩
  | cons x data ih =>
    rw [storeBytes]
    split
    · apply ih
      exact { h with }
    · exact ⟨h, rfl⟩

theorem Counted.setRdsem (hs : sem.Balanced) : Counted descs { dev with rdsem := sem } :=
  { h with rd := hs }

theorem Counted.setWrsem (hs : sem.Balanced) : Counted descs { dev with wrsem := sem } :=
  { h with wr := hs }

end

variable [DecidableEq τ]

/-- Nobody waits after the loop. -/
theorem wakeAll_spec (h : sem.Balanced) : (wakeAll sem).Balanced ∧ (wakeAll sem).waiters = [] := by
  rcases Int.lt_or_le sem.count 0 with hneg | hge
  · rw [wakeAll, h.postWhileNeg _ hneg.le (Int.self_le_toNat _)]
    exact ⟨.of_nil (le_refl 0), rfl⟩
  · have hsame : wakeAll sem = sem := by
      rw [wakeAll, Int.toNat_of_nonpos (by omega)]
      rfl
    rw [hsame]
    exact ⟨h, h.nil_of_nonneg hge⟩

theorem balanced_wakeIf (h : sem.Balanced) (c : Prop) [Decidable c] :
    (if c then wakeAll sem else sem).Balanced := by
  split
  · exact (wakeAll_spec h).1
  · exact h

theorem countOpen_fields (dev : PipeDev τ) (m : OpenMode) (fresh : Nat → UInt8) :
    (countOpen dev m fresh).refs = u8 (dev.refs + 1) ∧
      (countOpen dev m fresh).nwriters = (if m.wrok then u8 (dev.nwriters + 1) else dev.nwriters) ∧
      (countOpen dev m fresh).nreaders = (if m.rdok then u8 (dev.nreaders + 1) else dev.nreaders) ∧
      ((countOpen dev m fresh).rdsem = dev.rdsem ∨
        (countOpen dev m fresh).rdsem = wakeAll dev.rdsem) ∧
      (countOpen dev m fresh).wrsem = dev.wrsem := by
  simp only [countOpen]
  split_ifs <;> simp

theorem Counted.countOpen (h : Counted descs dev) (hroom : dev.refs < 255) (m : OpenMode)
    (fresh : Nat → UInt8) : Counted (m :: descs) (countOpen dev m fresh) := by
  have hlt : descs.length < 255 := h.refs ▸ hroom
  have hone : ∀ n, n ≤ descs.length → u8 (n + 1) = n + 1 := fun n hn => Nat.mod_eq_of_lt (by omega)
  obtain ⟨hrefs, hnw, hnr, hrd, hwr⟩ := countOpen_fields dev m fresh
  refine ⟨?_, ?_, ?_, hlt, ?_, hwr ▸ h.wr⟩
  · rw [hrefs, h.refs, hone _ (le_refl _), length_cons]
  · rw [hnw, h.nwriters, hone _ countP_le_length, countP_cons]
    split <;> rfl
  · rw [hnr, h.nreaders, hone _ countP_le_length, countP_cons]
    split <;> rfl
  · rcases hrd with heq | heq <;> rw [heq]
    · exact h.rd
    · exact (wakeAll_spec h.rd).1

theorem Counted.opened (h : Counted descs dev) (hroom : dev.refs < 255) (ht : t ∉ dev.rdsem.waiters)
    (m : OpenMode) (fresh : Nat → UInt8) :
    Counted (m :: descs) (pipecommonOpen dev t m fresh).2 := by
  have hcount := h.countOpen hroom m fresh
  simp only [pipecommonOpen]
  split
  · refine hcount.setRdsem (hcount.rd.wait fun hmem => ?_)
    rcases (countOpen_fields dev m fresh).2.2.2.1 with heq | heq <;> rw [heq] at hmem
    · exact ht hmem
    · rw [(wakeAll_spec h.rd).2] at hmem
      exact not_mem_nil hmem
  · exact hcount

/-- A close that is not the last one counts one descriptor less, and wakes the readers when there
are no writers any more. -/
theorem close_fields (hrefs : 0 < u8 (dev.refs + 255)) :
    (pipecommonClose dev m).refs = u8 (dev.refs + 255) ∧
      (pipecommonClose dev m).nwriters =
        (if m.wrok then u8 (dev.nwriters + 255) else dev.nwriters) ∧
      (pipecommonClose dev m).nreaders =
        (if m.rdok then u8 (dev.nreaders + 255) else dev.nreaders) ∧
      (pipecommonClose dev m).rdsem =
        (if m.wrok ∧ u8 (dev.nwriters + 255) ≤ 0 then wakeAll dev.rdsem else dev.rdsem) ∧
      (pipecommonClose dev m).wrsem = dev.wrsem := by
  simp only [pipecommonClose, if_pos hrefs]
  split_ifs <;> simp_all

theorem countP_close (hm : m ∈ descs) (hlimit : descs.length ≤ 255) (p : OpenMode → Bool) :
    (if p m then u8 (descs.countP p + 255) else descs.countP p) = (descs.erase m).countP p := by
  have hcount := (perm_cons_erase hm).countP_eq p
  have hle := descs.countP_le_length (p := p)
  rw [countP_cons] at hcount
  split
  · rw [if_pos ‹_›] at hcount
    rw [u8]
    omega
  · rw [if_neg ‹_›] at hcount
    exact hcount

theorem Counted.close (h : Counted descs dev) (hm : m ∈ descs)
    (hlast : dev.refs = 1 → dev.policy = false ∨ dev.wrndx = dev.rdndx) :
    Counted (descs.erase m) (pipecommonClose dev m) := by
  have hlen := length_erase_of_mem hm
  have hpos := length_pos_of_mem hm
  have hlimit := h.limit
  have hrefs : u8 (dev.refs + 255) = (descs.erase m).length := by
    rw [h.refs, u8]
    omega
  by_cases hone : 0 < u8 (dev.refs + 255)
  · obtain ⟨hr, hnw, hnr, hrd, hwr⟩ := close_fields (m := m) hone
    refine ⟨hr.trans hrefs, ?_, ?_, by omega, hrd ▸ balanced_wakeIf h.rd _, hwr ▸ h.wr⟩
    · rw [hnw, h.nwriters]
      exact countP_close hm h.limit _
    · rw [hnr, h.nreaders]
      exact countP_close hm h.limit _
  · have hnil : descs.erase m = [] := eq_nil_of_length_eq_zero (by omega)
    simp only [pipecommonClose, if_neg hone]
    rw [if_pos (hlast (by rw [h.refs]; omega)), hnil]
    exact ⟨rfl, rfl, rfl, Nat.zero_le _, h.rd, h.wr⟩

theorem Counted.read (h : Counted descs dev) (ht : t ∉ dev.rdsem.waiters) (len : Nat)
    (nonblock : Bool) : Counted descs (pipecommonRead dev t len nonblock).2 := by
  have hload := h.load len []
  simp only [pipecommonRead]
  split_ifs
  · exact h
  · exact h
  · exact h
  · exact h.setRdsem (h.rd.wait ht)
  · exact hload.setWrsem (wakeAll_spec hload.wr).1

theorem Counted.write (h : Counted descs dev) (ht : t ∉ dev.wrsem.waiters) (data : List UInt8)
    (nwritten : Nat) (nonblock : Bool) :
    Counted descs (pipecommonWrite dev t data nwritten nonblock).2 := by
  obtain ⟨hstore, hsame⟩ := h.store data
  have hwait := h.wr.wait ht
  rw [← hsame] at hwait
  simp only [pipecommonWrite]
  split_ifs
  all_goals first
    | exact h
    | exact hstore
    | exact hstore.setRdsem (wakeAll_spec hstore.rd).1
    | exact hstore.setWrsem hwait
    | exact (hstore.setRdsem (wakeAll_spec hstore.rd).1).setWrsem hwait

theorem Counted.apply {s : OpenPipe τ} (h : Counted s.descs s.dev) {c : DescCall τ}
    (hen : s.Enabled c) (hok : s.Orderly c) :
    ∃ s', s.apply c = some s' ∧ Counted s'.descs s'.dev := by
  cases c with
  | openPipe t m fresh => exact ⟨_, rfl, h.opened hok hen.1 m fresh⟩
  | close m => exact ⟨_, rfl, h.close hen hok⟩
  | read t len nonblock => exact ⟨_, rfl, h.read hen.1 len nonblock⟩
  | write t data nwritten nonblock => exact ⟨_, rfl, h.write hen.2 data nwritten nonblock⟩
  | policy arg => exact ⟨_, rfl, { h with }⟩
  | signal t => exact ⟨_, rfl, h.setRdsem (h.rd.release hen)⟩

end Counts

end BaseNx.Pipes
