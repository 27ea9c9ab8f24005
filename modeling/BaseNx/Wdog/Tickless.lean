import BaseNx.Wdog.ActiveList

/-!
# The tickless timer interrupt

In the tickless build `wd_timer(ticks)` serves several ticks in one call: it takes the smaller of
the head lag and the remaining ticks off both, expires what is due and goes on.
`tickless_refines_ticked` compares it with as many calls of the ticked `wdTimer`, for watchdog
functions that only record their call.
-/

namespace BaseNx.Wdog

open Lib

/-- The ticked `wd_timer` when the watchdog functions make no calls of their own. -/
abbrev timerTick : State → State := wdTimer fun _ => []

/-- The loop of the tickless `wd_timer`. A round either removes the head of the list or uses up the
ticks, so `fuel` is one more than the length of the list. The clock of the state follows the ticks
that have been served. -/
def ticklessLoop : Nat → Int → State → State
  | 0, _, s => s
  | fuel + 1, ticks, s =>
    match s.wdactivelist with
    | [] => { s with ticks := s.ticks + ticks.toNat }
    | (w, lag) :: rest =>
      if 0 < ticks then
        let decr := min lag ticks
        ticklessLoop fuel (i32 (ticks - decr)) (wdExpiration (fun _ => [])
          { s with ticks := s.ticks + decr.toNat, wdactivelist := (w, i32 (lag - decr)) :: rest })
      else s

/-- "Return the delay for the next watchdog to expire". -/
def headLag : List Entry → Int
  | [] => 0
  | head :: _ => head.2

/-- The tickless `wd_timer`, with the assertion on `ticks` compiled out. -/
def wdTimerTickless (ticks : Int) (s : State) : Int × State :=
  let s := ticklessLoop (s.wdactivelist.length + 1) ticks s
  (headLag s.wdactivelist, s)

/-- Lags as they are between two interrupts. -/
abbrev Lags (xs : List Entry) : Prop := ∀ e ∈ xs, 0 ≤ e.2 ∧ e.2 ≤ int32Max

/-- An active list between two interrupts: no lag is negative and the head is not due. -/
structure Pending (xs : List Entry) : Prop where
  lags : Lags xs
  head : ∀ e ∈ xs.head?, 0 < e.2

variable {s : State} {w : WdogId} {lag : Int} {rest : List Entry}

/-- A lag that is due is exactly zero, so the entry behind it keeps its own. -/
theorem wdactivelist_expireHead (hrest : Lags rest) :
    (expireHead w 0 rest [] s).wdactivelist = rest := by
  have hlag : inheritLag 0 rest = rest := by
    rcases rest with - | ⟨e, rest⟩
    · rfl
    · obtain ⟨h0, hm⟩ := hrest e List.mem_cons_self
      simp [inheritLag, i32_of_bounded h0 hm]
  simp only [expireHead]
  split <;> exact hlag

/-- Expiring what is due leaves the list from its first entry that is not due. -/
theorem expirationLoop_pending (fuel k : Nat) (hfuel : s.wdactivelist.length ≤ fuel)
    (hlags : Lags s.wdactivelist) :
    (expirationLoop (fun _ => []) fuel k s).wdactivelist.length ≤ s.wdactivelist.length ∧
      Pending (expirationLoop (fun _ => []) fuel k s).wdactivelist := by
  induction fuel generalizing k s with
  | zero =>
    have hnil : s.wdactivelist = [] := List.length_eq_zero_iff.mp (by omega)
    exact ⟨le_rfl, hlags, by simp [expirationLoop, hnil]⟩
  | succ fuel ih =>
    rcases hs : s.wdactivelist with - | ⟨⟨w, lag⟩, rest⟩
    · simpa [expirationLoop, hs] using ⟨by simp, by simp⟩
    · rw [hs] at hlags hfuel
      obtain ⟨hpos, -⟩ := hlags (w, lag) List.mem_cons_self
      have hrest : Lags rest := fun e he => hlags e (List.mem_cons_of_mem _ he)
      simp only [expirationLoop, hs]
      split
      · obtain rfl : lag = 0 := by omega
        have hlist := wdactivelist_expireHead (s := s) (w := w) hrest
        rw [← hlist] at hrest hfuel
        obtain ⟨hlen, hp⟩ := ih (k + 1) (by simpa using hfuel) hrest
        exact ⟨hlen.trans (by simp [hlist]), hp⟩
      · rw [hs]
        exact ⟨le_rfl, hlags, by simp; omega⟩

/-- When the head is due it leaves the list, with all that is due with it. -/
theorem expiration_due (hrest : Lags rest) (hs : s.wdactivelist = (w, 0) :: rest) :
    (wdExpiration (fun _ => []) s).wdactivelist.length ≤ rest.length ∧
      Pending (wdExpiration (fun _ => []) s).wdactivelist := by
  have hlist := wdactivelist_expireHead (s := s) (w := w) hrest
  have h := expirationLoop_pending (s := expireHead w 0 rest [] s) rest.length 1
    (by rw [hlist]) (by rwa [hlist])
  rw [hlist] at h
  simpa [wdExpiration, hs, expirationLoop] using h

/-- Nothing is due while the head is not. -/
theorem expiration_early (hs : s.wdactivelist = (w, lag) :: rest) (hpos : 0 < lag) :
    wdExpiration (fun _ => []) s = s := by
  simp [wdExpiration, hs, expirationLoop, hpos]

/-- Up to the tick at which the head is due, every tick counts its lag down. -/
theorem timerTick_round (hs : s.wdactivelist = (w, lag) :: rest) (hm : lag ≤ int32Max) (k : Nat)
    (hk : (k + 1 : Nat) ≤ lag) : timerTick^[k + 1] s = wdExpiration (fun _ => [])
      { s with ticks := s.ticks + (k + 1), wdactivelist := (w, lag - (k + 1 : Nat)) :: rest } := by
  unfold int32Max at hm
  induction k with
  | zero => simp [timerTick, wdTimer, hs, i32_eq_self (by omega : -2147483648 ≤ lag - 1) (by omega)]
  | succ k ih =>
    have hi : i32 (lag - (k + 1 : Nat) - 1) = lag - (k + 1 + 1 : Nat) := by
      rw [i32_eq_self (by omega) (by omega)]
      omega
    rw [Function.iterate_succ_apply', ih (by omega), expiration_early rfl (by omega)]
    simp only [timerTick, wdTimer, hi, Nat.add_assoc]

theorem timerTick_idle (hs : s.wdactivelist = []) (k : Nat) :
    timerTick^[k] s = { s with ticks := s.ticks + k } := by
  induction k with
  | zero => rfl
  | succ k ih => simp [Function.iterate_succ_apply', ih, timerTick, wdTimer, hs, Nat.add_assoc]

theorem ticklessLoop_zero (fuel : Nat) (s : State) : ticklessLoop fuel 0 s = s := by
  cases fuel with
  | zero => rfl
  | succ fuel =>
    rw [ticklessLoop]
    split <;> simp

/-- The tickless loop is that many ticks, whatever they expire. -/
theorem ticklessLoop_eq (fuel n : Nat) (hfuel : s.wdactivelist.length < fuel)
    (hn : (n : Int) ≤ int32Max) (hp : Pending s.wdactivelist) :
    ticklessLoop fuel n s = timerTick^[n] s ∧ Pending (timerTick^[n] s).wdactivelist := by
  induction fuel generalizing n s with
  | zero => omega
  | succ fuel ih =>
    obtain rfl | hpos := Nat.eq_zero_or_pos n
    · exact ⟨ticklessLoop_zero _ s, hp⟩
    rcases hs : s.wdactivelist with - | ⟨⟨w, lag⟩, rest⟩
    · rw [timerTick_idle hs]
      exact ⟨by simp [ticklessLoop, hs], hp⟩
    · rw [hs] at hfuel
      obtain ⟨-, hm⟩ := hp.lags (w, lag) (by simp [hs])
      have hlag : 0 < lag := hp.head (w, lag) (by simp [hs])
      have hrest : Lags rest := fun e he => hp.lags e (by simp [hs, he])
      -- one round is `k + 1` ticks
      obtain ⟨k, hk⟩ : ∃ k : Nat, min lag n = (k + 1 : Nat) := ⟨(min lag n).toNat - 1, by omega⟩
      obtain ⟨m, rfl⟩ : ∃ m, n = m + (k + 1) := ⟨n - (k + 1), by omega⟩
      have hi : i32 (lag - (k + 1 : Nat)) = lag - (k + 1 : Nat) :=
        i32_of_bounded (by omega) (by omega)
      have hj : i32 ((m + (k + 1) : Nat) - (k + 1 : Nat)) = m := by
        rw [i32_of_bounded (by omega) (by omega)]
        omega
      rw [Function.iterate_add_apply, timerTick_round hs hm k (by omega)]
      simp only [ticklessLoop, hs, if_pos (Int.natCast_pos.mpr hpos), hk, hi, hj,
        Int.toNat_natCast]
      rcases Nat.eq_zero_or_pos m with rfl | hpos
      · refine ⟨ticklessLoop_zero _ _, (expirationLoop_pending _ 0 le_rfl fun e he => ?_).2⟩
        rcases List.mem_cons.mp he with rfl | he
        · exact ⟨by omega, by omega⟩
        · exact hrest e he
      · -- the ticks outlast the head
        obtain ⟨hlen, hp'⟩ := expiration_due (w := w) hrest
          (s := { s with
            ticks := s.ticks + (k + 1), wdactivelist := (w, lag - (k + 1 : Nat)) :: rest })
          (by simp; omega)
        exact ih m (by simp at hfuel; omega) (by omega) hp'

/-- **Tickless expiry refines ticked expiry**: one tickless `wd_timer(n)` runs the same watchdogs
at the same ticks and leaves the same list as `n` ticked interrupts, and returns the number of
further ticks until the next expiry, or `0` when nothing is active. -/
theorem tickless_refines_ticked (n : Nat) (hn : (n : Int) ≤ int32Max)
    (hp : Pending s.wdactivelist) :
    let r := wdTimerTickless n s
    r.2 = timerTick^[n] s ∧ (r.2.wdactivelist = [] → r.1 = 0) ∧
      (r.2.wdactivelist ≠ [] → 0 < r.1 ∧
        (∀ k : Nat, (k : Int) < r.1 → (timerTick^[k] r.2).history = r.2.history ∧
          (timerTick^[k] r.2).wdactivelist.map Prod.fst = r.2.wdactivelist.map Prod.fst) ∧
        (timerTick^[r.1.toNat] r.2).wdactivelist.length < r.2.wdactivelist.length) := by
  obtain ⟨heq, hp'⟩ := ticklessLoop_eq _ n (Nat.lt_succ_self _) hn hp
  intro r
  have hr : r = (headLag (timerTick^[n] s).wdactivelist, timerTick^[n] s) := by
    rw [← heq]
    rfl
  rw [hr]
  generalize timerTick^[n] s = t at hp'
  refine ⟨rfl, fun hnil => by rw [hnil, headLag], fun hne => ?_⟩
  obtain ⟨⟨w, lag⟩, rest, ht : t.wdactivelist = _⟩ := List.exists_cons_of_ne_nil hne
  rw [ht] at hp'
  have hpos := hp'.head (w, lag) rfl
  obtain ⟨-, hm⟩ := hp'.lags (w, lag) List.mem_cons_self
  simp only [ht, headLag]
  refine ⟨hpos, fun k hk => ?_, ?_⟩
  · rcases k with - | k
    · simp [ht]
    · rw [timerTick_round ht hm k hk.le, expiration_early rfl (by omega)]
      simp
  · obtain ⟨k, rfl⟩ : ∃ k : Nat, lag = (k + 1 : Nat) := ⟨lag.toNat - 1, by omega⟩
    rw [Int.toNat_natCast, timerTick_round ht hm k le_rfl]
    obtain ⟨hlen, -⟩ := expiration_due (w := w)
      (fun e he => hp'.lags e (List.mem_cons_of_mem _ he))
      (s := { t with ticks := t.ticks + (k + 1), wdactivelist := (w, 0) :: rest }) rfl
    simpa using hlen

/-- Four ticks expire the first two of three watchdogs; the third has two ticks to go. -/
theorem tickless_refines_ticked_sample :
    let s : State := ⟨fun w => ⟨w, [], true⟩, [(1, 3), (2, 0), (3, 3)], 0, []⟩
    let r := wdTimerTickless 4 s
    r.2 = timerTick^[4] s ∧ r.1 = 2 ∧ r.2.wdactivelist = [(3, 2)] ∧
      r.2.history = [.run 2 3 2 [], .run 1 3 1 []] := by
  intro s r
  have hp : Pending s.wdactivelist := ⟨by decide, by decide⟩
  exact ⟨(tickless_refines_ticked 4 (by decide) hp).1, by decide⟩

end BaseNx.Wdog
