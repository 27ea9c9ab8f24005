import BaseNx.Pipes.Common

/-!
# Pipes are FIFO byte streams without lost wake-ups

The invariant of every run, `Pipe.Sound`, names the task that has the buffer, if there is one. The
place of each task agrees with the semaphores (`Pipe.Seat`): a task that is blocked is at the place
its semaphore stands for, and a task that is about to wait for data or for room has locked the
scheduler and found the pipe empty or full. The bytes accepted are those loaded and then those in
the buffer; and readers wait while the pipe is empty or the task that has the buffer is about to
notify them (`Pc.owes`), and the same for writers. What the calls report is a second invariant,
`Pipe.Kept`.

What an action must respect is stated once (`Act.Leads`, `Act.Stores`, `Act.Fits`) and read off the
text of the functions in `act_leads_stores` and `act_fits`.
-/

namespace BaseNx.Pipes

open Lib List CountingSem

universe u

variable {τ : Type u}

/-! ## Where a task is -/

/-- What a task inside a call can wait for: a reader for data, a writer for room. -/
inductive Side
  | data
  | room
  deriving DecidableEq

/-- The part of a call that a place belongs to. -/
inductive Place
  | outside
  | entering
  | holding
  | awaiting (c : Side)
  deriving DecidableEq

def Pc.place : Pc → Place
  | .idle => .outside
  | .readEnter _ | .writeEnter _ => .entering
  | .readSleep _ => .awaiting .data
  | .writeSleep _ => .awaiting .room
  | _ => .holding

variable {p : Pc} {c : Side}

theorem Pc.place_resume_of_entering (h : p.place = .entering) : p.resume.place = .holding := by
  cases p <;> first | rfl | cases h

theorem Pc.place_resume_of_awaiting (h : p.place = .awaiting c) : p.resume.place = .entering := by
  cases p <;> first | rfl | cases h

/-- Which actions belong to which part, and where they lead. -/
def Act.Leads (p : Pc) : Act → Prop
  | .take next => p.place = .entering ∧ next.place = .holding
  | .give next lock _ => p.place = .holding ∧
      (lock = false ∧ next.place = .outside ∨ lock = true ∧ ∃ c, next.place = .awaiting c)
  | .awaitData next => p.place = .awaiting .data ∧ next.place = .entering
  | .awaitRoom next => p.place = .awaiting .room ∧ next.place = .entering
  | .postReader next | .postWriter next | .store _ next | .go next =>
    p.place = .holding ∧ next.place = .holding
  | .load next => p.place = .holding ∧ ∀ x, (next x).place = .holding

variable {s : Pipe τ} {a : Act}

/-- The semaphore of the tasks that wait for `c`. -/
def Pipe.sem (s : Pipe τ) : Side → CountingSem τ
  | .data => s.rdsem
  | .room => s.wrsem

def Pipe.setSem (s : Pipe τ) (sem : CountingSem τ) : Side → Pipe τ
  | .data => { s with rdsem := sem }
  | .room => { s with wrsem := sem }

theorem Pipe.sem_setSem (s : Pipe τ) (sem : CountingSem τ) (c d : Side) :
    (s.setSem sem c).sem d = if d = c then sem else s.sem d := by
  cases c <;> cases d <;> rfl

variable {sem : CountingSem τ}

theorem Pipe.waiters_setSem (sem : CountingSem τ) (h : sem.waiters = (s.sem c).waiters) (d : Side) :
    ((s.setSem sem c).sem d).waiters = (s.sem d).waiters := by
  rw [sem_setSem]
  split
  · rw [h, ‹d = c›]
  · rfl

theorem Pipe.setSem_eq (s : Pipe τ) (sem : CountingSem τ) (c : Side) : s.setSem sem c =
    { s with rdsem := (s.setSem sem c).rdsem, wrsem := (s.setSem sem c).wrsem } := by
  cases c <;> rfl

/-! ## The bytes, and who is to be notified -/

/-- The bytes that a read has loaded and not returned yet. -/
def Pc.inflight : Pc → List UInt8
  | .readCopy _ bytes | .readNotify bytes | .readPost bytes => bytes
  | _ => []

/-- The bytes that a write has stored. -/
def Pc.stored : Pc → List UInt8
  | .writeEnter c | .writeCopy c | .writeNotify c _ | .writePost c _ | .writeFull c
  | .writeSleep c => c.data.take c.nwritten
  | _ => []

/-- The task is going to notify the readers. -/
def Pc.owesReaders : Pc → Prop
  | .writeCopy c => c.last < c.nwritten
  | .writeNotify _ _ | .writePost _ _ => True
  | _ => False

/-- The task is going to notify the writers. -/
def Pc.owesWriters : Pc → Prop
  | .readCopy _ bytes => bytes ≠ []
  | .readNotify _ | .readPost _ => True
  | _ => False

/-- The task is going to notify who waits for `c`. -/
def Pc.owes (p : Pc) : Side → Prop
  | .data => p.owesReaders
  | .room => p.owesWriters

/-- The task has found the pipe full. -/
def Pc.foundFull : Pc → Prop
  | .writeNotify _ fin | .writePost _ fin => fin = false
  | .writeFull _ => True
  | _ => False

/-- A write has bytes left to write until it is finished, and has notified the readers of no more
bytes than it has written. -/
def WriteCall.Counts (c : WriteCall) (fin : Bool) : Prop :=
  if fin then c.data.length ≤ c.nwritten else c.last ≤ c.nwritten ∧ c.nwritten < c.data.length

/-- What the variables of a call respect. -/
def Pc.Counts : Pc → Prop
  | .writeEnter c | .writeCopy c | .writeSleep c | .writeFull c => c.Counts false
  | .writeNotify c fin | .writePost c fin => c.Counts fin
  | _ => True

theorem Pc.holding_of_foundFull (h : p.foundFull) : p.place = .holding := by
  cases p <;> first | rfl | exact h.elim

theorem Pc.inflight_resume (h : p.place = .entering) : p.resume.inflight = [] := by
  cases p <;> first | rfl | cases h

theorem Pc.not_foundFull_resume (h : p.place = .entering) : ¬ p.resume.foundFull := by
  cases p <;> first | exact id | cases h

theorem Pc.counts_resume (h : p.Counts) : p.resume.Counts := by
  cases p <;> exact h

theorem Pc.stored_resume (p : Pc) : p.resume.stored = p.stored := by
  cases p <;> rfl

def Pipe.Empty (s : Pipe τ) : Prop := s.wrndx = s.rdndx

def Pipe.Full (s : Pipe τ) : Prop := s.nxtwrndx = s.rdndx

/-- There is no data, or no room. -/
def Pipe.Lacks (s : Pipe τ) : Side → Prop
  | .data => s.Empty
  | .room => s.Full

/-- What an action at the place `p` respects: it takes the bytes in flight along until they are
returned; who has notified the readers or the writers leaves none of them blocked; bytes are loaded
when there are some, stored when there is room; and who gives the buffer back to wait has found the
pipe empty or full. -/
def Act.Fits (s : Pipe τ) (p : Pc) : Act → Prop
  | .take next => next.Counts ∧ next.inflight = [] ∧ ¬ next.foundFull
  | .give next _ ret => next.Counts ∧ p.inflight = (ret.elim [] (·.2.1)) ∧
      ∀ c, (p.owes c → (s.sem c).waiters = []) ∧ (next.place = .awaiting c → s.Lacks c)
  | .awaitData next | .awaitRoom next => next.Counts
  | .postReader next => next.Counts ∧ next.inflight = p.inflight ∧
      (next.foundFull → s.Full) ∧ next.owes .data ∧ ¬ p.owes .room
  | .postWriter next => next.Counts ∧ next.inflight = p.inflight ∧
      (next.foundFull → s.Full) ∧ next.owes .room ∧ ¬ p.owes .data
  | .load next => ¬ s.Empty ∧ ¬ p.owes .data ∧ ∀ x, (next x).Counts ∧
      (next x).inflight = p.inflight ++ [x] ∧ ¬ (next x).foundFull ∧ (next x).owes .room
  | .store _ next => ¬ s.Full ∧ ¬ p.owes .room ∧ next.Counts ∧ next.inflight = p.inflight ∧
      ¬ next.foundFull ∧ next.owes .data
  | .go next => next.Counts ∧ next.inflight = p.inflight ∧ (next.foundFull → s.Full) ∧
      ∀ c, p.owes c → next.owes c ∨ (s.sem c).waiters = []

theorem act_fits (hside : ∀ c, (s.sem c).Balanced) (hp : p.Counts) (hfull : p.foundFull → s.Full)
    (h : s.act p = some a) : a.Fits s p := by
  cases p with
  | idle => cases h
  | readEnter c =>
    cases h
    exact ⟨trivial, rfl, id⟩
  | writeEnter c =>
    cases h
    exact ⟨hp, rfl, id⟩
  | readSleep c =>
    cases h
    trivial
  | writeSleep c =>
    cases h
    exact hp
  | readPost bytes =>
    cases h
    exact ⟨trivial, rfl, False.elim, trivial, id⟩
  | writePost c fin =>
    cases h
    exact ⟨hp, rfl, hfull, trivial, id⟩
  | readCheck c =>
    rw [Pipe.act] at h
    split at h
    · rename_i hempty
      split at h
      · cases h
        exact ⟨trivial, rfl, Side.rec ⟨False.elim, nofun⟩ ⟨False.elim, nofun⟩⟩
      · split at h
        · cases h
          exact ⟨trivial, rfl, Side.rec ⟨False.elim, nofun⟩ ⟨False.elim, nofun⟩⟩
        · cases h
          exact ⟨trivial, rfl, Side.rec ⟨False.elim, fun _ => hempty⟩ ⟨False.elim, nofun⟩⟩
    · cases h
      exact ⟨trivial, rfl, False.elim, Side.rec False.elim False.elim⟩
  | readCopy c bytes =>
    rw [Pipe.act] at h
    split at h <;> cases h
    · rename_i hsome
      refine ⟨hsome.2, id, fun x => ⟨trivial, rfl, id, ?_⟩⟩
      exact append_ne_nil_of_right_ne_nil bytes (cons_ne_nil x [])
    · exact ⟨trivial, rfl, False.elim, Side.rec False.elim fun _ => .inl trivial⟩
  | readNotify bytes =>
    rw [Pipe.act] at h
    split at h <;> cases h
    · exact ⟨trivial, rfl, False.elim, Side.rec False.elim fun _ => .inl trivial⟩
    · rename_i hcount
      exact ⟨trivial, rfl, Side.rec ⟨False.elim, nofun⟩
        ⟨fun _ => (hside .room).nil_of_nonneg (not_lt.1 hcount), nofun⟩⟩
  | writeCopy c =>
    obtain ⟨hle, hlt⟩ : c.last ≤ c.nwritten ∧ c.nwritten < c.data.length := hp
    rw [Pipe.act] at h
    split at h
    · rename_i hroom
      cases h
      -- the loop goes on, or all bytes are written
      split
      · rename_i hall
        exact ⟨hroom, id, hall, rfl, nofun, trivial⟩
      · rename_i hmore
        exact ⟨hroom, id, ⟨Nat.le_succ_of_le hle, not_le.1 hmore⟩, rfl, id, Nat.lt_succ_of_le hle⟩
    · rename_i hnoroom
      have hfound : s.Full := not_not.1 hnoroom
      split at h <;> cases h
      · exact ⟨⟨hle, hlt⟩, rfl, fun _ => hfound, Side.rec (fun _ => .inl trivial) False.elim⟩
      · rename_i hnone
        exact ⟨⟨hle, hlt⟩, rfl, fun _ => hfound,
          Side.rec (fun howes => absurd howes hnone) False.elim⟩
  | writeNotify c fin =>
    rw [Pipe.act] at h
    split at h
    · cases h
      exact ⟨hp, rfl, hfull, Side.rec (fun _ => .inl trivial) False.elim⟩
    · rename_i hcount
      have hnil := (hside .data).nil_of_nonneg (not_lt.1 hcount)
      split at h <;> cases h
      · exact ⟨trivial, rfl, Side.rec ⟨fun _ => hnil, nofun⟩ ⟨False.elim, nofun⟩⟩
      · rename_i hfin
        obtain rfl := Bool.eq_false_iff.2 hfin
        exact ⟨hp, rfl, fun _ => hfull rfl, Side.rec (fun _ => .inr hnil) False.elim⟩
  | writeFull c =>
    rw [Pipe.act] at h
    split at h <;> cases h
    · exact ⟨trivial, rfl, Side.rec ⟨False.elim, nofun⟩ ⟨False.elim, nofun⟩⟩
    · exact ⟨⟨le_refl _, hp.2⟩, rfl,
        Side.rec ⟨False.elim, nofun⟩ ⟨False.elim, fun _ => hfull trivial⟩⟩

/-- What a call tells its caller: a read the number of its bytes, or that there are none for now; a
write how many bytes of its data were stored, or that none could be. -/
def Told (value : Int) (bytes data : List UInt8) : Prop :=
  if data = [] then value = bytes.length ∨ bytes = [] ∧ value = -EAGAIN
  else bytes = [] ∧ (value = -EAGAIN ∨ 0 < value ∧ value ≤ data.length)

/-- What an action does to the bytes that the write at `p` has stored. -/
def Act.Stores (p : Pc) : Act → Prop
  | .take next | .awaitData next | .awaitRoom next | .postReader next | .postWriter next
  | .go next | .give next _ none => next.stored = p.stored
  | .load next => ∀ x, (next x).stored = p.stored
  | .store x next => next.stored = p.stored ++ [x]
  | .give next _ (some (value, bytes, data)) =>
    next.stored = [] ∧ p.stored = data.take value.toNat ∧ Told value bytes data

theorem act_leads_stores (hp : p.Counts) (h : s.act p = some a) : a.Leads p ∧ a.Stores p := by
  cases p with
  | idle => cases h
  | readEnter c | writeEnter c | readSleep c | writeSleep c | readPost bytes | writePost c fin =>
    cases h
    exact ⟨⟨rfl, rfl⟩, rfl⟩
  | readCheck c =>
    rw [Pipe.act] at h
    split_ifs at h <;> cases h
    · exact ⟨⟨rfl, .inl ⟨rfl, rfl⟩⟩, rfl, rfl, .inr ⟨rfl, rfl⟩⟩
    · exact ⟨⟨rfl, .inl ⟨rfl, rfl⟩⟩, rfl, rfl, .inl rfl⟩
    · exact ⟨⟨rfl, .inr ⟨rfl, .data, rfl⟩⟩, rfl⟩
    · exact ⟨⟨rfl, rfl⟩, rfl⟩
  | readCopy c bytes =>
    rw [Pipe.act] at h
    split_ifs at h <;> cases h
    · exact ⟨⟨rfl, fun _ => rfl⟩, fun _ => rfl⟩
    · exact ⟨⟨rfl, rfl⟩, rfl⟩
  | readNotify bytes =>
    rw [Pipe.act] at h
    split_ifs at h <;> cases h
    · exact ⟨⟨rfl, rfl⟩, rfl⟩
    · exact ⟨⟨rfl, .inl ⟨rfl, rfl⟩⟩, rfl, take_nil.symm, .inl rfl⟩
  | writeCopy c =>
    obtain ⟨-, hlt⟩ : c.last ≤ c.nwritten ∧ c.nwritten < c.data.length := hp
    -- the byte that is stored is the next one of the data
    have hnext : c.data.take (c.nwritten + 1) =
        c.data.take c.nwritten ++ [c.data.getD c.nwritten 0] := by
      rw [take_succ_eq_append_getElem hlt]
      simp [hlt]
    rw [Pipe.act] at h
    split at h
    · cases h
      dsimp only [Act.Leads, Act.Stores]
      split <;> exact ⟨⟨rfl, rfl⟩, hnext⟩
    · split_ifs at h <;> cases h <;> exact ⟨⟨rfl, rfl⟩, rfl⟩
  | writeNotify c fin =>
    rw [Pipe.act] at h
    split_ifs at h with hcount hfin <;> cases h
    · exact ⟨⟨rfl, rfl⟩, rfl⟩
    · subst hfin
      have hall : c.data.length ≤ c.nwritten := hp
      refine ⟨⟨rfl, .inl ⟨rfl, rfl⟩⟩, rfl, (take_of_length_le hall).trans take_length.symm, ?_⟩
      rw [Told]
      split
      · rename_i hnil
        exact .inl (by rw [hnil])
      · rename_i hdata
        exact ⟨rfl, .inr ⟨Int.natCast_pos.2 (length_pos_iff.2 hdata), le_refl _⟩⟩
    · exact ⟨⟨rfl, rfl⟩, rfl⟩
  | writeFull c =>
    obtain ⟨-, hlt⟩ : c.last ≤ c.nwritten ∧ c.nwritten < c.data.length := hp
    have hdata : c.data ≠ [] := ne_nil_of_length_pos (by omega)
    rw [Pipe.act] at h
    split_ifs at h with hnonblock hzero <;> cases h
    · exact ⟨⟨rfl, .inl ⟨rfl, rfl⟩⟩, rfl, by rw [Pc.stored, hzero]; rfl,
        by rw [Told, if_neg hdata]; exact ⟨rfl, .inl rfl⟩⟩
    · refine ⟨⟨rfl, .inl ⟨rfl, rfl⟩⟩, rfl, rfl, ?_⟩
      rw [Told, if_neg hdata]
      exact ⟨rfl, .inr ⟨by omega, by omega⟩⟩
    · exact ⟨⟨rfl, .inr ⟨rfl, .room, rfl⟩⟩, rfl⟩

/-! ## The invariant -/

/-- The place `p` of the task `u` agrees with the semaphores, while the task `h` has the buffer. -/
structure Pipe.Seat (s : Pipe τ) (h : Option τ) (u : τ) (p : Pc) : Prop where
  counts : p.Counts
  holds : p.place = .holding ↔ h = some u
  full : p.foundFull → s.Full
  bfWait : u ∈ s.bfsem.waiters → p.place = .entering
  wait : ∀ c, u ∈ (s.sem c).waiters → p.place = .awaiting c
  /-- who is about to wait has locked the scheduler, and there is nothing to wait for -/
  about : ∀ c, p.place = .awaiting c → u ∉ (s.sem c).waiters → s.locked = some u ∧ s.Lacks c

/-- What holds in every run, while the task `h` has the buffer. -/
structure Pipe.Sound (b : Nat) (h : Option τ) (s : Pipe τ) : Prop where
  seats : ∀ u, s.Seat h u (s.pc u)
  bf : s.bfsem.Balanced
  side : ∀ c, (s.sem c).Balanced
  free : 0 < s.bfsem.count ↔ h = none
  le_one : s.bfsem.count ≤ 1
  size : s.bufsize = b
  rdndx : s.rdndx < b
  wrndx : s.wrndx < b
  stream : s.written = s.loaded ++ s.contents
  loaded : s.loaded = s.returned ++ h.elim [] fun t => (s.pc t).inflight
  /-- nobody waits for what is there, unless somebody is going to notify -/
  notified : ∀ c, (s.sem c).waiters = [] ∨ s.Lacks c ∨ ∃ t, h = some t ∧ (s.pc t).owes c

section Sound

variable {h h' w : Option τ} {s s' : Pipe τ} {t u : τ} {lock : Bool} {b : Nat}

namespace Pipe.Seat

/-- A task at the entrance waits for the buffer at most. -/
theorem enter (hcounts : p.Counts) (hp : p.place = .entering) (hh : h ≠ some u)
    (hside : ∀ c, u ∉ (s.sem c).waiters) : s.Seat h u p where
  counts := hcounts
  holds := iff_of_false (hp.trans_ne nofun) hh
  full hf := absurd (hp.symm.trans (Pc.holding_of_foundFull hf)) nofun
  bfWait _ := hp
  wait c hmem := absurd hmem (hside c)
  about _ hc := absurd (hp.symm.trans hc) nofun

/-- The task that has the buffer is not blocked. -/
theorem hold (hcounts : p.Counts) (hp : p.place = .holding) (hfull : p.foundFull → s.Full)
    (hbf : u ∉ s.bfsem.waiters) (hside : ∀ c, u ∉ (s.sem c).waiters) : s.Seat (some u) u p where
  counts := hcounts
  holds := iff_of_true hp rfl
  full := hfull
  bfWait hmem := absurd hmem hbf
  wait c hmem := absurd hmem (hside c)
  about _ hc := absurd (hp.symm.trans hc) nofun

/-- A step of the task `t`, seen by another one; if that one is to wait, it is blocked. -/
theorem bystander (hseat : s.Seat h u p) (hrun : s.MayRun t) (hne : u ≠ t)
    (hh : h = some u ↔ h' = some u) (hfull : p.foundFull → s.Full → s'.Full)
    (hbf : u ∈ s'.bfsem.waiters → u ∈ s.bfsem.waiters)
    (hside : ∀ c, u ∈ (s'.sem c).waiters ↔ u ∈ (s.sem c).waiters) : s'.Seat h' u p where
  counts := hseat.counts
  holds := hseat.holds.trans hh
  full hf := hfull hf (hseat.full hf)
  bfWait hmem := hseat.bfWait (hbf hmem)
  wait c hmem := hseat.wait c ((hside c).1 hmem)
  about c hc hnot := by
    have hlock := (hseat.about c hc (mt (hside c).2 hnot)).1
    rcases hrun with hnone | hsome
    · exact absurd (hnone.symm.trans hlock) nofun
    · exact absurd (Option.some.inj (hlock.symm.trans hsome)) hne

theorem not_blocked (hseat : s.Seat h u p) (hp : p.place = .holding ∨ p.place = .outside) :
    u ∉ s.bfsem.waiters ∧ ∀ c, u ∉ (s.sem c).waiters := by
  refine ⟨fun hmem => ?_, fun c hmem => ?_⟩
  · rcases hp with hp | hp <;> exact absurd (hp.symm.trans (hseat.bfWait hmem)) nofun
  · rcases hp with hp | hp <;> exact absurd (hp.symm.trans (hseat.wait c hmem)) nofun

end Pipe.Seat

/-! ## The steps -/

/-- Bytes that were returned are not in flight any more. -/
theorem returned_log (s : Pipe τ) (t : τ) (ret : Option (Int × List UInt8 × List UInt8)) :
    (s.log t ret).returned = s.returned ++ ret.elim [] (·.2.1) := by
  cases ret with
  | none => exact (append_nil _).symm
  | some r =>
    change (s.finished ++ [_]).flatMap _ = _
    rw [flatMap_append, flatMap_singleton]
    rfl

/-- A post does not release the task that makes it. -/
theorem ne_of_receives (hw : sem.Receives w) (hnot : t ∉ sem.waiters) : w ≠ some t := by
  rintro rfl
  exact hnot hw.2

namespace Pipe.Sound

theorem place_of_holder (hs : s.Sound b (some t)) : (s.pc t).place = .holding :=
  (hs.seats t).holds.2 rfl

/-- Those who are blocked although there is what they wait for are going to be notified by the task
that has the buffer. -/
theorem notified_holder (hs : s.Sound b (some t)) (c : Side) :
    (s.sem c).waiters = [] ∨ s.Lacks c ∨ (s.pc t).owes c := by
  refine (hs.notified c).imp_right (Or.imp_right ?_)
  rintro ⟨u, hu, howes⟩
  cases hu
  exact howes

/-- Without a task that has the buffer nobody is going to notify. -/
theorem notified_free (hs : s.Sound b none) (c : Side) : (s.sem c).waiters = [] ∨ s.Lacks c := by
  refine (hs.notified c).imp_right (Or.rec id ?_)
  rintro ⟨u, hu, -⟩
  cases hu

end Pipe.Sound

variable [DecidableEq τ]

theorem setPc_pc (s : Pipe τ) (t : τ) (p : Pc) (u : τ) :
    (s.setPc t p).pc u = if u = t then p else s.pc u :=
  Function.update_apply s.pc t p u

/-- The places after a task has moved and another one was released. -/
theorem resume_pc (s : Pipe τ) (t : τ) (p : Pc) (hne : w ≠ some t) (u : τ) :
    ((s.setPc t p).resume w).pc u =
      if w = some u then (s.pc u).resume else if u = t then p else s.pc u := by
  cases w with
  | none => exact setPc_pc s t p u
  | some v =>
    have hvt : v ≠ t := fun heq => hne (congrArg some heq)
    refine (setPc_pc (s.setPc t p) v _ u).trans ?_
    rw [setPc_pc, setPc_pc, if_neg hvt]
    by_cases huv : u = v
    · rw [if_pos huv, if_pos (congrArg some huv.symm), huv]
    · rw [if_neg huv, if_neg fun heq => huv (Option.some.inj heq).symm]

/-- Wait for data or for room. -/
def Pipe.await (s : Pipe τ) (t : τ) (c : Side) (next : Pc) : Pipe τ :=
  let taken := (s.sem c).wait t
  let s := { s.setSem taken.2 c with locked := none }
  if taken.1 then s.setPc t next else s

/-- Post who waits for data or for room. -/
def Pipe.post (s : Pipe τ) (t : τ) (w : Option τ) (c : Side) (next : Pc) : Pipe τ :=
  ((s.setSem ((s.sem c).post w) c).setPc t next).resume w

theorem mem_waiters_post (hbal : sem.Balanced) (w : Option τ) (u : τ) :
    u ∈ (sem.post w).waiters ↔ u ∈ sem.waiters ∧ w ≠ some u := by
  cases w with
  | none => exact (and_iff_left nofun).symm
  | some v =>
    refine (hbal.nodup.mem_erase_iff).trans ?_
    rw [and_comm, ne_comm, Ne, Ne, Option.some_inj]

namespace Pipe.Sound

/-- The task that has the buffer acts and keeps it; it may release the task `w`, which waits for
data or for room. -/
theorem hold (hs : s.Sound b (some t)) (hrun : s.MayRun t) (hp : p.place = .holding)
    (hcounts : p.Counts) (hw : ∀ u, w = some u → ∃ c, u ∈ (s.sem c).waiters)
    (hpc : ∀ u, s'.pc u = if w = some u then (s.pc u).resume else if u = t then p else s.pc u)
    (hbf : s'.bfsem = s.bfsem) (hside : ∀ c, (s'.sem c).Balanced)
    (hmem : ∀ c u, u ∈ (s'.sem c).waiters ↔ u ∈ (s.sem c).waiters ∧ w ≠ some u)
    (hsize : s'.bufsize = b) (hrd : s'.rdndx < b) (hwr : s'.wrndx < b)
    (hstream : s'.written = s'.loaded ++ s'.contents)
    (hloaded : s'.loaded = s'.returned ++ p.inflight) (hfull : p.foundFull → s'.Full)
    (hnotified : ∀ c, (s'.sem c).waiters = [] ∨ s'.Lacks c ∨ p.owes c) : s'.Sound b (some t) := by
  obtain ⟨hnotbf, hnotside⟩ := (hs.seats t).not_blocked (.inl hs.place_of_holder)
  have hwt : w ≠ some t := fun heq => (hw t heq).elim hnotside
  have hself : s'.pc t = p := by rw [hpc, if_neg hwt, if_pos rfl]
  refine ⟨fun u => ?_, hbf ▸ hs.bf, hside, hbf ▸ hs.free, hbf ▸ hs.le_one, hsize, hrd, hwr, hstream,
    ?_, fun c => (hnotified c).imp_right (Or.imp_right fun howes => ⟨t, rfl, hself ▸ howes⟩)⟩
  · have hseat := hs.seats u
    rw [hpc]
    split
    · -- the released task goes to the entrance
      rename_i heq
      obtain ⟨c, hu⟩ := hw u heq
      exact .enter (Pc.counts_resume hseat.counts) (Pc.place_resume_of_awaiting (hseat.wait c hu))
        (fun hut => hwt (heq.trans hut.symm)) fun d hd => ((hmem d u).1 hd).2 heq
    · rename_i hwu
      split
      · rename_i hut
        subst hut
        exact .hold hcounts hp hfull (hbf ▸ hnotbf) fun c hc => hnotside c ((hmem c u).1 hc).1
      · rename_i hne
        refine hseat.bystander hrun hne Iff.rfl (fun hf _ => ?_) (hbf ▸ id)
          fun c => (hmem c u).trans (and_iff_left hwu)
        exact absurd (Option.some.inj (hseat.holds.1 (Pc.holding_of_foundFull hf))).symm hne
  · exact hloaded.trans (congrArg (s'.returned ++ ·) (congrArg Pc.inflight hself.symm))

section Holder

variable (hs : s.Sound b (some t)) (hrun : s.MayRun t)
include hs hrun

theorem go (hp : p.place = .holding) (hfits : Act.Fits s (s.pc t) (.go p)) :
    (s.setPc t p).Sound b (some t) := by
  obtain ⟨hcounts, hinflight, hfull, howes⟩ := hfits
  refine hs.hold hrun (w := none) hp hcounts nofun
    (fun u => (setPc_pc s t p u).trans (if_neg nofun).symm) rfl hs.side
    (fun _ _ => (and_iff_left nofun).symm) hs.size hs.rdndx hs.wrndx hs.stream ?_ hfull fun c => ?_
  · rw [hinflight]
    exact hs.loaded
  · rcases hs.notified_holder c with hnil | hlacks | hc
    · exact .inl hnil
    · exact .inr (.inl hlacks)
    · exact (howes c hc).elim (fun hp => .inr (.inr hp)) .inl

theorem load {next : UInt8 → Pc} (hp : ∀ x, (next x).place = .holding)
    (hfits : Act.Fits s (s.pc t) (.load next)) : (s.perform t w (.load next)).Sound b (some t) := by
  obtain ⟨hsome, howes, hnext⟩ := hfits
  obtain ⟨hcounts, hinflight, hfull, hwriters⟩ := hnext (s.buffer s.rdndx)
  have hsize := hs.size
  refine hs.hold hrun (w := none) (hp (s.buffer s.rdndx)) hcounts nofun
    (fun u => (setPc_pc _ t _ u).trans (if_neg nofun).symm) rfl hs.side
    (fun _ _ => (and_iff_left nofun).symm) hsize ?_ hs.wrndx ?_ ?_ (fun hf => absurd hf hfull)
    (Side.rec ?_ ?_)
  · exact hsize ▸ ringSucc_lt (by have := hs.rdndx; omega) s.rdndx
  · -- the byte goes from the buffer to the end of what was loaded
    have hpop := ring_pop (hsize ▸ hs.rdndx) (hsize ▸ hs.wrndx) hsome s.buffer
    change s.written = s.loaded ++ [s.buffer s.rdndx] ++
      ring s.bufsize s.buffer (ringSucc s.bufsize s.rdndx) s.wrndx
    rw [hs.stream, Pipe.contents, hpop, append_assoc, singleton_append]
  · change s.loaded ++ [s.buffer s.rdndx] = s.returned ++ _
    rw [hs.loaded, hinflight, append_assoc]
    rfl
  · rcases hs.notified_holder .data with hnil | hempty | hbad
    · exact .inl hnil
    · exact absurd hempty hsome
    · exact absurd hbad howes
  · exact .inr (.inr hwriters)

theorem store {x : UInt8} (hp : p.place = .holding) (hfits : Act.Fits s (s.pc t) (.store x p)) :
    (s.perform t w (.store x p)).Sound b (some t) := by
  obtain ⟨hroom, howes, hcounts, hinflight, hfull, hreaders⟩ := hfits
  have hsize := hs.size
  refine hs.hold hrun (w := none) hp hcounts nofun
    (fun u => (setPc_pc _ t p u).trans (if_neg nofun).symm) rfl hs.side
    (fun _ _ => (and_iff_left nofun).symm) hsize hs.rdndx ?_ ?_ ?_ (fun hf => absurd hf hfull)
    (Side.rec ?_ ?_)
  · exact hsize ▸ ringSucc_lt (by have := hs.rdndx; omega) s.wrndx
  · have hpush := ring_push (hsize ▸ hs.rdndx) (hsize ▸ hs.wrndx) hroom s.buffer x
    change (s.accepted ++ [(t, x)]).map Prod.snd =
      s.loaded ++ ring s.bufsize (Function.update s.buffer s.wrndx x) s.rdndx s.nxtwrndx
    rw [Pipe.nxtwrndx, hpush, map_append, ← Pipe.written, hs.stream, Pipe.contents, append_assoc]
    rfl
  · rw [hinflight]
    exact hs.loaded
  · exact .inr (.inr hreaders)
  · rcases hs.notified_holder .room with hnil | hfound | hbad
    · exact .inl hnil
    · exact absurd hfound hroom
    · exact absurd hbad howes

theorem post (hw : (s.sem c).Receives w) (hp : p.place = .holding) (hcounts : p.Counts)
    (hinflight : p.inflight = (s.pc t).inflight) (hfull : p.foundFull → s.Full) (howes : p.owes c)
    (hother : ∀ d, d ≠ c → ¬ (s.pc t).owes d) : (s.post t w c p).Sound b (some t) := by
  obtain ⟨-, hnotside⟩ := (hs.seats t).not_blocked (.inl hs.place_of_holder)
  have hne := ne_of_receives hw (hnotside c)
  have hwmem : ∀ u, w = some u → u ∈ (s.sem c).waiters := by
    rintro u rfl
    exact hw.2
  have hsem : ∀ d, (s.post t w c p).sem d = if d = c then (s.sem c).post w else s.sem d := by
    intro d
    rw [← sem_setSem]
    cases c <;> cases d <;> cases w <;> rfl
  have hpc := resume_pc (s.setSem ((s.sem c).post w) c) t p hne
  rw [setSem_eq] at hpc
  have heq : s.post t w c p = { s with
      rdsem := (s.post t w c p).rdsem, wrsem := (s.post t w c p).wrsem,
      pc := (s.post t w c p).pc } := by
    cases c <;> cases w <;> rfl
  have hmem : ∀ d u, u ∈ ((s.post t w c p).sem d).waiters ↔ u ∈ (s.sem d).waiters ∧ w ≠ some u := by
    intro d u
    rw [hsem]
    split
    · rename_i hdc
      rw [hdc]
      exact mem_waiters_post (hs.side c) w u
    · -- a task waits for one thing only
      rename_i hdc
      refine (and_iff_left_of_imp fun hu hwu => hdc ?_).symm
      have hplace := (hs.seats u).wait c (hwmem u hwu)
      exact Place.awaiting.inj (((hs.seats u).wait d hu).symm.trans hplace)
  have hside : ∀ d, ((s.post t w c p).sem d).Balanced := by
    intro d
    rw [hsem]
    split
    · exact (hs.side c).post hw
    · exact hs.side d
  have hnotified : ∀ d, ((s.post t w c p).sem d).waiters = [] ∨ s.Lacks d ∨ p.owes d := by
    intro d
    rw [hsem]
    split
    · rw [‹d = c›]
      exact .inr (.inr howes)
    · exact (hs.notified_holder d).imp_right (Or.imp_right fun hbad => absurd hbad (hother d ‹_›))
  rw [heq] at hmem hside hnotified ⊢
  refine hs.hold hrun hp hcounts (fun u hu => ⟨c, hwmem u hu⟩) (fun u => ?_) rfl hside hmem hs.size
    hs.rdndx hs.wrndx hs.stream ?_ hfull fun d => ?_
  · refine Eq.trans ?_ (hpc u)
    cases c <;> rfl
  · rw [hinflight]
    exact hs.loaded
  · exact (hnotified d).imp_right (Or.imp_left (by cases d <;> exact id))

/-- The buffer is given to a task that waits for it, or back. -/
theorem give {ret : Option (Int × List UInt8 × List UInt8)} (hw : s.bfsem.Receives w)
    (hnext : lock = false ∧ p.place = .outside ∨ lock = true ∧ ∃ c, p.place = .awaiting c)
    (hfits : Act.Fits s (s.pc t) (.give p lock ret)) :
    (s.perform t w (.give p lock ret)).Sound b w := by
  obtain ⟨hcounts, hinflight, howes⟩ := hfits
  obtain ⟨hnotbf, hnotside⟩ := (hs.seats t).not_blocked (.inl hs.place_of_holder)
  have hne := ne_of_receives hw hnotbf
  have hheld : s.bfsem.count ≤ 0 := not_lt.1 (mt hs.free.1 nofun)
  have hent : ∀ v, w = some v → (s.pc v).place = .entering := by
    rintro v rfl
    exact (hs.seats v).bfWait hw.2
  let given : Pipe τ :=
    { s with bfsem := s.bfsem.post w, locked := if lock then some t else s.locked }
  let moved : Pipe τ := (given.setPc t p).resume w
  have hpc :
      ∀ u, moved.pc u = if w = some u then (s.pc u).resume else if u = t then p else s.pc u :=
    resume_pc given t p hne
  have hloaded : s.loaded = (moved.log t ret).returned ++ w.elim []
      fun v => (moved.pc v).inflight := by
    have hreturned : (moved.log t ret).returned = s.loaded := by
      rw [returned_log, hs.loaded, ← hinflight]
      cases w <;> rfl
    have hnothing : (w.elim [] fun v => (moved.pc v).inflight) = [] := by
      cases w with
      | none => rfl
      | some v =>
        change (moved.pc v).inflight = []
        rw [hpc, if_pos rfl]
        exact Pc.inflight_resume (hent v rfl)
    rw [hreturned, hnothing, append_nil]
  have heq : moved.log t ret = { given with
      pc := moved.pc, finished := (moved.log t ret).finished } := by
    cases w <;> cases ret <;> rfl
  change (moved.log t ret).Sound b w
  rw [heq] at hloaded ⊢
  refine ⟨fun u => ?_, hs.bf.post hw, hs.side, ?_, ?_, hs.size, hs.rdndx, hs.wrndx, hs.stream,
    hloaded, fun c => ?_⟩
  · have hseat := hs.seats u
    rw [hpc]
    split
    · -- the released task has the buffer
      rename_i hwu
      have hplace := hent u hwu
      rw [hwu]
      refine .hold (Pc.counts_resume hseat.counts) (Pc.place_resume_of_entering hplace)
        (fun hf => absurd hf (Pc.not_foundFull_resume hplace)) (fun hmem => ?_) fun c hmem => ?_
      · exact ((mem_waiters_post hs.bf w u).1 hmem).2 hwu
      · exact absurd (hplace.symm.trans (hseat.wait c hmem)) nofun
    · rename_i hwu
      split
      · rename_i hut
        subst hut
        have hout : p.place ≠ .holding := by
          rcases hnext with ⟨-, hp⟩ | ⟨-, c, hp⟩ <;> rw [hp] <;> exact nofun
        refine ⟨hcounts, iff_of_false hout hwu, fun hf => absurd (Pc.holding_of_foundFull hf) hout,
          fun hmem => absurd ((mem_waiters_post hs.bf w u).1 hmem).1 hnotbf,
          fun c hmem => absurd hmem (hnotside c), fun c hc _ => ⟨?_, (howes c).2 hc⟩⟩
        rcases hnext with ⟨-, hp⟩ | ⟨hlock, -⟩
        · exact absurd (hp.symm.trans hc) nofun
        · exact if_pos hlock
      · rename_i hut
        refine hseat.bystander hrun hut (iff_of_false ?_ hwu) (fun _ => id)
          (fun hmem => ((mem_waiters_post hs.bf w u).1 hmem).1) fun _ => Iff.rfl
        exact fun htu => hut (Option.some.inj htu).symm
  · cases w with
    | none =>
      have hge : 0 ≤ s.bfsem.count := hw
      exact iff_of_true (by change 0 < s.bfsem.count + 1; omega) rfl
    | some v =>
      have hneg : s.bfsem.count < 0 := hw.1
      exact iff_of_false (by change ¬ 0 < s.bfsem.count + 1; omega) nofun
  · cases w <;> exact (by omega : s.bfsem.count + 1 ≤ 1)
  · -- what the task leaves behind
    rcases hs.notified_holder c with hnil | hlacks | hc
    · exact .inl hnil
    · exact .inr (.inl hlacks)
    · exact .inl ((howes c).1 hc)

end Holder

section Others

variable (hs : s.Sound b h)
include hs

/-- The buffer is taken, or the task waits for it. -/
theorem take (hrun : s.MayRun t) (ht : (s.pc t).place = .entering) (hnotbf : t ∉ s.bfsem.waiters)
    (hp : p.place = .holding) (hfits : Act.Fits s (s.pc t) (.take p)) :
    ∃ h', (s.perform t w (.take p)).Sound b h' := by
  obtain ⟨hcounts, hinflight, hfull⟩ := hfits
  have hbf := hs.bf.wait hnotbf
  have hle := hs.le_one
  rw [Pipe.perform]
  by_cases hpos : 0 < s.bfsem.count
  · obtain rfl := hs.free.1 hpos
    rw [wait_of_pos hpos] at hbf ⊢
    change ∃ h', ({ s with bfsem := ⟨s.bfsem.count - 1, s.bfsem.waiters⟩ }.setPc t p).Sound b h'
    refine ⟨some t, fun u => ?_, hbf, hs.side, iff_of_false ?_ nofun, ?_, hs.size, hs.rdndx,
      hs.wrndx, hs.stream, ?_, fun c => (hs.notified_free c).imp_right .inl⟩
    · rw [setPc_pc]
      split
      · rename_i hut
        subst hut
        refine .hold hcounts hp (fun hf => absurd hf hfull) hnotbf fun c hmem => ?_
        exact absurd (ht.symm.trans ((hs.seats u).wait c hmem)) nofun
      · rename_i hut
        refine (hs.seats u).bystander hrun hut (iff_of_false nofun ?_) (fun _ => id) id
          fun _ => Iff.rfl
        exact fun htu => hut (Option.some.inj htu).symm
    · change ¬ 0 < s.bfsem.count - 1
      omega
    · change s.bfsem.count - 1 ≤ 1
      omega
    · change s.loaded = s.returned ++ ((s.setPc t p).pc t).inflight
      rw [setPc_pc, if_pos rfl, hinflight]
      exact hs.loaded
  · rw [wait_of_nonpos (not_lt.1 hpos)] at hbf ⊢
    refine ⟨h, { hs with seats := fun u => ?_, bf := hbf, free := ?_, le_one := ?_ }⟩
    · refine { hs.seats u with bfWait := fun hmem => ?_ }
      rcases mem_cons.1 hmem with rfl | hmem
      · exact ht
      · exact (hs.seats u).bfWait hmem
    · refine iff_of_false ?_ (mt hs.free.2 hpos)
      change ¬ 0 < s.bfsem.count - 1
      omega
    · change s.bfsem.count - 1 ≤ 1
      omega

/-- A task comes to the entrance. -/
theorem enter (hrun : s.MayRun t) (hh : h ≠ some t) (hnot : ∀ c, t ∉ (s.sem c).waiters)
    (hp : p.place = .entering) (hcounts : p.Counts) {rd wr : CountingSem τ} {locked : Option τ}
    (hside : ∀ c, ({ s with rdsem := rd, wrsem := wr }.sem c).Balanced)
    (hwaiters : ∀ c, ({ s with rdsem := rd, wrsem := wr }.sem c).waiters = (s.sem c).waiters) :
    ({ s with rdsem := rd, wrsem := wr, locked := locked }.setPc t p).Sound b h := by
  -- a task that has the buffer has not moved
  have hstay : ∀ u, h = some u → (s.setPc t p).pc u = s.pc u := by
    intro u hu
    rw [setPc_pc, if_neg]
    rintro rfl
    exact hh hu
  have hnotified : ∀ c, ({ s with rdsem := rd, wrsem := wr }.sem c).waiters = [] ∨ s.Lacks c ∨
      ∃ u, h = some u ∧ ((s.setPc t p).pc u).owes c := by
    intro c
    refine (hs.notified c).imp (hwaiters c).trans (Or.imp_right ?_)
    rintro ⟨u, hu, howes⟩
    exact ⟨u, hu, (hstay u hu).symm ▸ howes⟩
  refine ⟨fun u => ?_, hs.bf, Side.rec (hside .data) (hside .room), hs.free, hs.le_one, hs.size,
    hs.rdndx, hs.wrndx, hs.stream, ?_, Side.rec (hnotified .data) (hnotified .room)⟩
  · rw [setPc_pc]
    split
    · rename_i hut
      subst hut
      exact .enter hcounts hp hh
        (Side.rec (hwaiters .data ▸ hnot .data) (hwaiters .room ▸ hnot .room))
    · rename_i hut
      exact (hs.seats u).bystander hrun hut Iff.rfl (fun _ => id) id
        (Side.rec (iff_of_eq (congrArg (u ∈ ·) (hwaiters .data)))
          (iff_of_eq (congrArg (u ∈ ·) (hwaiters .room))))
  · refine hs.loaded.trans (congrArg (s.returned ++ ·) ?_)
    cases h with
    | none => rfl
    | some u => exact congrArg Pc.inflight (hstay u rfl).symm

/-- A task waits, and has found the pipe empty or full. -/
theorem await (ht : (s.pc t).place = .awaiting c) (hnot : ∀ d, t ∉ (s.sem d).waiters)
    (hp : p.place = .entering) (hcounts : p.Counts) : (s.await t c p).Sound b h := by
  obtain ⟨hlocked, hlacks⟩ := (hs.seats t).about c ht (hnot c)
  have hh : h ≠ some t := fun hh => absurd (ht.symm.trans ((hs.seats t).holds.2 hh)) nofun
  have hbalanced := (hs.side c).wait (hnot c)
  have hside : ∀ d, ((s.setSem ((s.sem c).wait t).2 c).sem d).Balanced := by
    intro d
    rw [sem_setSem]
    split
    · exact hbalanced
    · exact hs.side d
  rw [Pipe.await]
  by_cases hpos : 0 < (s.sem c).count
  · rw [wait_of_pos hpos] at hside ⊢
    have hwaiters := waiters_setSem (s := s) (c := c) ⟨(s.sem c).count - 1, _⟩ rfl
    rw [setSem_eq] at hwaiters hside ⊢
    exact hs.enter (.inr hlocked) hh hnot hp hcounts hside hwaiters
  · rw [wait_of_nonpos (not_lt.1 hpos)] at hside ⊢
    have hsem := sem_setSem s ⟨(s.sem c).count - 1, t :: (s.sem c).waiters⟩ c
    rw [setSem_eq] at hside hsem ⊢
    -- the task is blocked now, and the others are as they were
    have hmem :
      ∀ d u, u ∈ ((s.setSem ⟨(s.sem c).count - 1, t :: (s.sem c).waiters⟩ c).sem d).waiters ↔
        u = t ∧ d = c ∨ u ∈ (s.sem d).waiters := by
      intro d u
      rw [sem_setSem]
      split
      · rename_i hdc
        rw [hdc]
        exact mem_cons.trans (or_congr_left (and_iff_left rfl).symm)
      · rename_i hdc
        exact (or_iff_right fun hbad => hdc hbad.2).symm
    refine { hs with
      seats := fun u => ?_, side := Side.rec (hside .data) (hside .room), notified := fun d => ?_ }
    · by_cases hut : u = t
      · subst hut
        refine { hs.seats u with wait := fun d hd => ?_, about := fun d hd hnotd => ?_ }
        · rcases (hmem d u).1 (by cases d <;> exact hd) with ⟨-, rfl⟩ | hd
          · exact ht
          · exact absurd hd (hnot d)
        · refine absurd ((hmem d u).2 (.inl ⟨rfl, ?_⟩)) (by cases d <;> exact hnotd)
          exact Place.awaiting.inj (hd.symm.trans ht)
      · refine (hs.seats u).bystander (.inr hlocked) hut Iff.rfl (fun _ => id) id fun d => ?_
        refine Iff.trans ?_ ((hmem d u).trans (or_iff_right fun hbad => hut hbad.1))
        cases d <;> exact Iff.rfl
    · by_cases hdc : d = c
      · rw [hdc]
        exact .inr (.inl (by cases c <;> exact hlacks))
      · refine (hs.notified d).imp (Eq.trans ?_) fun hrest => by cases d <;> exact hrest
        refine Eq.trans ?_ (congrArg waiters ((hsem d).trans (if_neg hdc)))
        cases d <;> rfl

/-- A task calls one of the functions. -/
theorem call (hrun : s.MayRun t) (ht : s.pc t = .idle) (len : Nat) (hp : p.place = .entering)
    (hcounts : len ≠ 0 → p.Counts) : (s.call t len p).Sound b h := by
  have hout : (s.pc t).place = .outside := congrArg Pc.place ht
  rw [Pipe.call]
  split
  · have hreturned : (s.log t (some (0, [], []))).returned = s.returned := by
      rw [returned_log]
      exact append_nil _
    refine { hs with loaded := ?_, seats := fun u => { hs.seats u with } }
    rw [hreturned]
    exact hs.loaded
  · rename_i hlen
    refine hs.enter hrun (fun hh => ?_) ((hs.seats t).not_blocked (.inr hout)).2 hp (hcounts hlen)
      hs.side fun _ => rfl
    exact absurd (hout.symm.trans ((hs.seats t).holds.2 hh)) nofun

theorem perform (hrun : s.MayRun t) (hnot : ¬ s.Blocked t) (hact : s.act (s.pc t) = some a)
    (hw : s.Releases w a) : ∃ h', (s.perform t w a).Sound b h' := by
  have hseat := hs.seats t
  have hleads := (act_leads_stores hseat.counts hact).1
  have hfits := act_fits hs.side hseat.counts hseat.full hact
  have hside : ∀ c, t ∉ (s.sem c).waiters :=
    Side.rec (fun ht => hnot (.inr (.inl ht))) fun ht => hnot (.inr (.inr ht))
  cases a with
  | take next => exact hs.take hrun hleads.1 (fun ht => hnot (.inl ht)) hleads.2 hfits
  | awaitData next => exact ⟨h, hs.await (c := .data) hleads.1 hside hleads.2 hfits⟩
  | awaitRoom next => exact ⟨h, hs.await (c := .room) hleads.1 hside hleads.2 hfits⟩
  | give next lock ret =>
    obtain rfl := hseat.holds.1 hleads.1
    exact ⟨w, hs.give hrun hw hleads.2 hfits⟩
  | postReader next =>
    obtain rfl := hseat.holds.1 hleads.1
    obtain ⟨hcounts, hinflight, hfull, howes, hother⟩ := hfits
    exact ⟨_, hs.post (c := .data) hrun hw hleads.2 hcounts hinflight hfull howes
      (Side.rec (absurd rfl) fun _ => hother)⟩
  | postWriter next =>
    obtain rfl := hseat.holds.1 hleads.1
    obtain ⟨hcounts, hinflight, hfull, howes, hother⟩ := hfits
    exact ⟨_, hs.post (c := .room) hrun hw hleads.2 hcounts hinflight hfull howes
      (Side.rec (fun _ => hother) (absurd rfl))⟩
  | load next =>
    obtain rfl := hseat.holds.1 hleads.1
    exact ⟨_, hs.load hrun hleads.2 hfits⟩
  | store x next =>
    obtain rfl := hseat.holds.1 hleads.1
    exact ⟨_, hs.store hrun hleads.2 hfits⟩
  | go next =>
    obtain rfl := hseat.holds.1 hleads.1
    exact ⟨_, hs.go hrun hleads.2 hfits⟩

end Others

end Pipe.Sound

/-! ## What the calls return -/

/-- The bytes that came from a task are those that its writes have reported, and those of the write
it is in; and every call has told its caller the truth. -/
structure Pipe.Kept (s : Pipe τ) : Prop where
  written : ∀ u, s.writtenBy u = s.reported u ++ (s.pc u).stored
  told : ∀ r ∈ s.finished, Told r.value r.bytes r.data

/-- A step that stores nothing and returns from no call. -/
theorem Pipe.Kept.of_eq (hk : s.Kept) (hacc : s'.accepted = s.accepted)
    (hfin : s'.finished = s.finished) (hpc : ∀ u, (s'.pc u).stored = (s.pc u).stored) :
    s'.Kept where
  written u := by
    rw [Pipe.writtenBy, Pipe.reported, hacc, hfin, hpc]
    exact hk.written u
  told := hfin ▸ hk.told

theorem stored_setPc (s : Pipe τ) (t : τ) (hp : p.stored = (s.pc t).stored) (u : τ) :
    ((s.setPc t p).pc u).stored = (s.pc u).stored := by
  rw [setPc_pc]
  split
  · rw [hp, ‹u = t›]
  · rfl

theorem stored_resume (s : Pipe τ) (w : Option τ) (u : τ) :
    ((s.resume w).pc u).stored = (s.pc u).stored := by
  cases w with
  | none => rfl
  | some v => exact stored_setPc s v (Pc.stored_resume _) u

theorem Pipe.Kept.log (hk : s.Kept) {value : Int} {bytes data : List UInt8}
    (hret : Told value bytes data)
    (hpc : ∀ u, (s'.pc u).stored = if u = t then [] else (s.pc u).stored)
    (hstored : (s.pc t).stored = data.take value.toNat) (hacc : s'.accepted = s.accepted)
    (hfin : s'.finished = s.finished ++ [⟨t, value, bytes, data⟩]) : s'.Kept where
  written u := by
    have hu := hk.written u
    rw [Pipe.writtenBy, Pipe.reported] at hu ⊢
    rw [hacc, hfin, hpc, filter_append, flatMap_append, hu]
    by_cases hut : u = t
    · subst hut
      simp [hstored]
    · simp [hut, Ne.symm hut]
  told := by
    rw [hfin]
    exact forall_mem_append.2 ⟨hk.told, forall_mem_singleton.2 hret⟩

theorem Pipe.Kept.perform (hk : s.Kept) (hst : a.Stores (s.pc t)) (w : Option τ) :
    (s.perform t w a).Kept := by
  cases a with
  | take next | awaitData next | awaitRoom next =>
    simp only [Pipe.perform]
    split
    · exact hk.of_eq rfl rfl (stored_setPc _ t hst)
    · exact hk.of_eq rfl rfl fun _ => rfl
  | postReader next | postWriter next =>
    exact hk.of_eq (by cases w <;> rfl) (by cases w <;> rfl) fun u =>
      (stored_resume _ w u).trans (stored_setPc _ t hst u)
  | go next => exact hk.of_eq rfl rfl (stored_setPc s t hst)
  | load next => exact hk.of_eq rfl rfl (stored_setPc _ t (hst _))
  | store x next =>
    refine ⟨fun u => ?_, hk.told⟩
    have hu := hk.written u
    rw [Pipe.perform, setPc_pc]
    simp only [Pipe.writtenBy, Pipe.reported, Pipe.setPc] at hu ⊢
    rw [filter_append, map_append, hu]
    by_cases hut : u = t
    · subst hut
      have hnext : next.stored = (s.pc u).stored ++ [x] := hst
      simp [hnext]
    · simp [hut, Ne.symm hut]
  | give next lock ret =>
    let given : Pipe τ :=
      { s with bfsem := s.bfsem.post w, locked := if lock then some t else s.locked }
    have hgiven : given.Kept := hk.of_eq rfl rfl fun _ => rfl
    cases ret with
    | none =>
      exact hgiven.of_eq (by cases w <;> rfl) (by cases w <;> rfl) fun u =>
        (stored_resume _ w u).trans (stored_setPc given t hst u)
    | some r =>
      obtain ⟨hnext, hstored, htold⟩ := hst
      refine hgiven.log htold (fun u => ?_) hstored (by cases w <;> rfl) (by cases w <;> rfl)
      refine (stored_resume (given.setPc t next) w u).trans ?_
      rw [setPc_pc]
      split
      · exact hnext
      · rfl

theorem Pipe.Kept.apply (hs : s.Sound b h) (hk : s.Kept) {e : PipeEvent τ} (hok : s.Enabled e)
    (happly : s.apply e = some s') : s'.Kept := by
  have hcall : ∀ t len, s.pc t = .idle → ∀ p : Pc, p.stored = [] → (s.call t len p).Kept := by
    intro t len ht p hp
    have hidle : (s.pc t).stored = [] := by rw [ht]; rfl
    rw [Pipe.call]
    split
    · have htold : Told 0 [] [] := .inl rfl
      refine hk.log htold (fun u => ?_) hidle rfl rfl
      split
      · rw [‹u = t›]
        exact hidle
      · rfl
    · exact hk.of_eq rfl rfl (stored_setPc s t (hp.trans hidle.symm))
  cases e with
  | read t len nonblock =>
    cases happly
    exact hcall t len hok.2 _ rfl
  | write t data nonblock =>
    cases happly
    exact hcall t _ hok.2 _ rfl
  | step t w =>
    obtain ⟨a, hact, rfl⟩ := Option.map_eq_some_iff.1 happly
    exact hk.perform (act_leads_stores (hs.seats t).counts hact).2 w

/-! ## Whole runs -/

omit [DecidableEq τ] in
theorem Pipe.Sound.init (hb : 2 ≤ b) (nwriters : Nat) : (Pipe.init τ b nwriters).Sound b none :=
  ⟨fun _ => ⟨trivial, iff_of_false nofun nofun, False.elim, nofun, Side.rec nofun nofun, nofun⟩,
    .of_nil Int.one_nonneg, Side.rec (.of_nil (le_refl 0)) (.of_nil (le_refl 0)),
    iff_of_true Int.one_pos rfl, le_refl 1, rfl, by change 0 < b; omega, by change 0 < b; omega,
    rfl, rfl, Side.rec (.inl rfl) (.inl rfl)⟩

theorem Pipe.Sound.apply (hs : s.Sound b h) {e : PipeEvent τ} (hok : s.Enabled e) :
    ∃ s', s.apply e = some s' ∧ ∃ h', s'.Sound b h' := by
  cases e with
  | read t len nonblock => exact ⟨_, rfl, h, hs.call hok.1 hok.2 len rfl fun _ => trivial⟩
  | write t data nonblock =>
    exact ⟨_, rfl, h, hs.call hok.1 hok.2 data.length rfl fun hlen =>
      ⟨le_refl 0, Nat.pos_of_ne_zero hlen⟩⟩
  | step t w =>
    obtain ⟨hrun, hnot, a, hact, hw⟩ := hok
    refine ⟨s.perform t w a, ?_, hs.perform hrun hnot hact hw⟩
    rw [Pipe.apply, Option.mem_def.1 hact]
    rfl

theorem PipeRun.sound {nwriters : Nat} (hb : 2 ≤ b) (h : PipeRun b nwriters s) :
    ∃ h, s.Sound b h := by
  refine Reach.labelled (P := fun s : Pipe τ => ∃ h, s.Sound b h) ?_ ?_ h
  · rintro _ rfl
    exact ⟨none, .init hb nwriters⟩
  · rintro s e ⟨h, hs⟩ he
    exact hs.apply he

theorem PipeRun.kept {nwriters : Nat} (hb : 2 ≤ b) (h : PipeRun b nwriters s) : s.Kept := by
  refine (Reach.labelled (P := fun s : Pipe τ => (∃ h, s.Sound b h) ∧ s.Kept) ?_ ?_ h).2
  · rintro _ rfl
    exact ⟨⟨none, .init hb nwriters⟩, fun _ => rfl, nofun⟩
  · rintro s e ⟨⟨h, hs⟩, hk⟩ he
    obtain ⟨s', happly, hs'⟩ := hs.apply he
    exact ⟨s', happly, hs', hk.apply hs he happly⟩

/-- No task is ready inside a call. -/
def Pipe.Quiet (s : Pipe τ) : Prop := ∀ t, s.pc t ≠ .idle → s.Blocked t

/-- The task is inside `pipecommon_read`. -/
def Pc.inRead : Pc → Prop
  | .readEnter _ | .readCheck _ | .readSleep _ | .readCopy _ _ | .readNotify _ | .readPost _ => True
  | _ => False

/-- The task is inside `pipecommon_write`. -/
def Pc.inWrite : Pc → Prop
  | .writeEnter _ | .writeCopy _ | .writeNotify _ _ | .writePost _ _ | .writeFull _
  | .writeSleep _ => True
  | _ => False

/-- The task is inside a call that waits for `c`. -/
def Pc.inCall (p : Pc) : Side → Prop
  | .data => p.inRead
  | .room => p.inWrite

section Runs

variable (hs : s.Sound b h)
include hs

omit [DecidableEq τ]

theorem Pipe.Sound.returned_initial : s.returned <+: s.written := by
  rw [hs.stream, hs.loaded, append_assoc]
  exact prefix_append _ _

theorem Pipe.Sound.contents_length : s.contents.length ≤ b - 1 := by
  have hlt := ringCount_lt hs.rdndx hs.wrndx
  rw [Pipe.contents, length_ring, hs.size]
  omega

theorem Pipe.Sound.fionread_add_fionspace : s.fionread + s.fionspace = (b : Int) - 1 := by
  rw [Pipe.fionread, Pipe.fionspace, hs.size]
  split <;> omega

section

variable (hquiet : s.Quiet)
include hquiet

/-- A task that has the buffer is ready, so nobody has it. -/
theorem Pipe.Sound.free_of_quiet : h = none := by
  cases h with
  | none => rfl
  | some t =>
    have ht := hs.place_of_holder
    obtain ⟨hnotbf, hnotside⟩ := (hs.seats t).not_blocked (.inl ht)
    have hbusy : s.pc t ≠ .idle := by
      intro hidle
      rw [hidle] at ht
      cases ht
    rcases hquiet t hbusy with hmem | hmem | hmem
    · exact absurd hmem hnotbf
    · exact absurd hmem (hnotside .data)
    · exact absurd hmem (hnotside .room)

/-- When nobody is ready, a task inside a call waits for what is not there. -/
theorem Pipe.Sound.lacks_of_quiet (ht : (s.pc t).inCall c) : s.Lacks c := by
  obtain rfl := hs.free_of_quiet hquiet
  have hmem : ∃ d, t ∈ (s.sem d).waiters := by
    have hbusy : s.pc t ≠ .idle := by
      intro hidle
      rw [hidle] at ht
      cases c <;> exact ht
    rcases hquiet t hbusy with hbf | hrd | hwr
    · rw [hs.bf.nil_of_nonneg (hs.free.2 rfl).le] at hbf
      exact absurd hbf not_mem_nil
    · exact ⟨.data, hrd⟩
    · exact ⟨.room, hwr⟩
  obtain ⟨d, hmem⟩ := hmem
  have hplace := (hs.seats t).wait d hmem
  obtain rfl : d = c := by
    cases hpc : s.pc t <;> rw [hpc] at ht hplace <;> cases hplace <;> cases c <;>
      first | rfl | exact ht.elim
  rcases hs.notified_free d with hnil | hlacks
  · rw [hnil] at hmem
    exact absurd hmem not_mem_nil
  · exact hlacks

theorem Pipe.Sound.empty_of_quiet (ht : (s.pc t).inRead) : s.contents = [] := by
  rw [Pipe.contents, ring_eq_nil_iff (hs.size ▸ hs.rdndx)]
  exact hs.lacks_of_quiet hquiet (c := .data) ht

theorem Pipe.Sound.full_of_quiet (ht : (s.pc t).inWrite) : s.contents.length = b - 1 := by
  have hsize := hs.size
  have hfull := hs.lacks_of_quiet hquiet (c := .room) ht
  rw [Pipe.contents, length_ring, hsize]
  refine (ringSucc_eq_iff hs.rdndx hs.wrndx).1 ?_
  rwa [Pipe.Lacks, Pipe.Full, Pipe.nxtwrndx, hsize] at hfull

end

end Runs

end Sound

/-- Pipes are FIFO byte streams without lost wake-ups. In every state of every run of any number of
tasks, the bytes returned by reads are the first of those accepted by writes, and from each task
these are the beginnings of the data of its writes, as long as the calls have said; at most `b - 1`
bytes are in the buffer, and `FIONREAD` and `FIONSPACE` add up to `b - 1`; and when no task is ready
inside a call, a task inside a read means that the buffer is empty, and one inside a write that it
is full. -/
theorem pipe_streams_without_lost_wakeups [DecidableEq τ] {b : Nat} (hb : 2 ≤ b) (nwriters : Nat)
    (s : Pipe τ) (h : PipeRun b nwriters s) :
    s.returned <+: s.written ∧ (∀ t, s.writtenBy t = s.reported t ++ (s.pc t).stored) ∧
      (∀ r ∈ s.finished, Told r.value r.bytes r.data) ∧ s.contents.length ≤ b - 1 ∧
      s.fionread + s.fionspace = (b : Int) - 1 ∧
      (s.Quiet → (∀ t, (s.pc t).inRead → s.contents = []) ∧
        ∀ t, (s.pc t).inWrite → s.contents.length = b - 1) := by
  obtain ⟨_, hsound⟩ := h.sound hb
  obtain ⟨hwritten, htold⟩ := h.kept hb
  exact ⟨hsound.returned_initial, hwritten, htold, hsound.contents_length,
    hsound.fionread_add_fionspace,
    fun hquiet => ⟨fun _ ht => hsound.empty_of_quiet hquiet ht,
      fun _ ht => hsound.full_of_quiet hquiet ht⟩⟩

/-- A buffer for two bytes. The reader `false` waits for data and the writer `true` for room; three
bytes pass, and the reader waits again. -/
theorem pipe_streams_without_lost_wakeups_sample :
    let next (t : Bool) (n : Nat) : List (PipeEvent Bool) := replicate n (.step t none)
    let events : List (PipeEvent Bool) :=
      .read false 4 false :: next false 3 ++ .write true [1, 2, 3] false :: next true 5 ++
        .step true (some false) :: next true 3 ++ next false 6 ++ .step false (some true) ::
        next false 1 ++ next true 3 ++ .read false 2 false :: next false 5 ++
        .read false 1 false :: next false 3
    let s := after Pipe.apply (Pipe.init Bool 3 1) events
    (s.returned <+: s.written ∧ s.writtenBy true = s.reported true ++ (s.pc true).stored) ∧
      s.Quiet ∧ s.pc false = .readSleep ⟨1, false⟩ ∧ s.returned = [1, 2, 3] ∧
      s.reported true = [1, 2, 3] := by
  intro next events s
  have hrun : PipeRun 3 1 s := Reach.after events (.start rfl) (by decide)
  have hstreams := pipe_streams_without_lost_wakeups (by decide) 1 s hrun
  refine ⟨⟨hstreams.1, hstreams.2.1 true⟩, ?_, by decide, by decide, by decide⟩
  unfold Pipe.Quiet
  decide

end BaseNx.Pipes
