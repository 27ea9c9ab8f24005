import BaseNx.Iob.Chain

/-!
# Filling and joining packets

`mm/iob` on whole packets, over the chains of `BaseNx.Iob.Chain`. `iob_copyin` and `iob_trycopyin`
store as many bytes as there are buffers for and say so, unless the offset lies behind the packet
(`copyin_counts_stored`): then `iob_copyin` subtracts the error code from the length. `iob_concat`
adds the second packet length to the last buffer of the first chain, where it is right only if that
buffer is the head or the length is zero (`concat_well_formed`).
-/

namespace BaseNx.Iob.Chain

open Lib List

variable {α : Type} {B : Nat} {b d : Buf α} {rest rest' pool : List (Buf α)} {src : List α}
  {offset : Nat}

/-! ## `iob_trycopyin` -/

/-- `iob_trycopyin` -/
def iobTrycopyin (bufsize : Nat) (pool : List (Buf α)) (iob : Buf α) (rest : List (Buf α))
    (src : List α) (offset : Nat) : Int × List (Buf α) :=
  let r := iobCopyinInternal bufsize pool iob rest src offset
  (if r.1 = 0 then (src.length : Int) else -ENOMEM, r.2)

/-- Both results say how many bytes were stored, or that the offset lies behind the packet. -/
def CountsStored (B : Nat) (pool : List (Buf α)) (b : Buf α) (rest : List (Buf α)) (src : List α)
    (offset : Nat) : Prop :=
  let (n, c) := iobCopyin B pool b rest src offset
  let (n', c') := iobTrycopyin B pool b rest src offset
  c' = c ∧ (b.pktlen < offset ∧ n < 0 ∧ n' < 0 ∧ c = b :: rest ∨
    ∃ k ≤ src.length, n = k ∧ contents c = splice (contents (b :: rest)) offset (src.take k) ∧
      WellFormed B c ∧ n' = if k = src.length then (src.length : Int) else -ENOMEM)

/-- The results are right if and only if the offset lies in the packet, and the bytes that have room
make no packet of more than 16 bits of length. -/
theorem copyin_counts_stored (h : WellFormed B (b :: rest))
    (hpool : ∀ c ∈ pool, c.data.length = B) :
    CountsStored B pool b rest src offset ↔ offset ≤ b.pktlen ∧
      min (offset + src.length)
      ((contents (b :: rest)).length + lastRoom B b rest + B * pool.length)
        < 65536 := by
  rw [CountsStored, iobCopyin, iobTrycopyin]
  dsimp only
  rcases lt_or_ge b.pktlen offset with hbehind | hoff
  · -- the error code is taken from the length
    have hfail : iobCopyinInternal B pool b rest src offset = (-ESPIPE, b :: rest) := if_pos hbehind
    have hcode : ESPIPE = 29 := rfl
    rw [hfail]
    refine iff_of_false ?_ fun h => absurd h.1 (not_le.2 hbehind)
    rintro ⟨-, ⟨-, hneg, -⟩ | ⟨k, hk, heq, -⟩⟩
    · omega
    · omega
  · obtain ⟨c, hc, hcontents, hwf⟩ := iobCopyinInternal_stored h hpool hoff src rfl
    have hpk : b.pktlen = (contents (b :: rest)).length := h.pktlen b rfl
    rw [hc]
    dsimp only
    rw [← hwf, and_iff_right hoff]
    clear hwf hc
    generalize hrem : offset + src.length - (_ + lastRoom B b rest + B * pool.length) = left
      at hcontents ⊢
    constructor
    · rintro ⟨-, ⟨hlt, -⟩ | ⟨k, -, -, -, hwf, -⟩⟩
      · omega
      · exact hwf
    · intro hwf
      refine ⟨rfl, .inr ⟨src.length - left, Nat.sub_le _ _, by omega, hcontents, hwf, ?_⟩⟩
      -- all is stored exactly if nothing is left
      exact if_congr (by omega) rfl rfl

theorem sampleBuf_wellFormed : ∀ n ≤ 8, WellFormed 8 [sampleBuf n n] := fun n hn =>
  have hb : BufOk 8 (sampleBuf n n) := ⟨rfl, by show 0 + n ≤ 8; omega⟩
  have hlen : n = (contents [sampleBuf n n]).length := (hb.length_contents []).symm
  .setPktlen (c := [sampleBuf n n]) (forall_mem_singleton.2 hb) hlen (by omega)

/-- Four bytes behind a packet of two bytes, with one free buffer of eight bytes. -/
theorem copyin_counts_stored_sample :
    CountsStored 8 [sampleBuf 0 0] (sampleBuf 2 2) [] [9, 8, 7, 6] 2 :=
  (copyin_counts_stored (sampleBuf_wellFormed 2 (by decide)) (by simp [sampleBuf])).2 (by decide)

/-- One byte to offset 3 of a packet of two bytes: the result is 30, the length plus `ESPIPE`. -/
theorem copyin_error_counts_bytes :
    (iobCopyin 8 [] (sampleBuf 2 2) [] [9] 3) = (30, [sampleBuf 2 2]) := by
  decide

/-! ## `iob_concat` -/

/-- `iob_concat`: the walk to the last buffer of the first chain, and the link. -/
def iobConcat (iob2 : Buf α) (rest2 : List (Buf α)) : Buf α → List (Buf α) → List (Buf α)
  | iob1, [] => { iob1 with pktlen := u16 (iob1.pktlen + iob2.pktlen) } :: iob2 :: rest2
  | iob1, next :: rest => iob1 :: iobConcat iob2 rest2 next rest

theorem contents_iobConcat (d : Buf α) (rest' : List (Buf α)) (b : Buf α) (rest : List (Buf α)) :
    contents (iobConcat d rest' b rest) = contents (b :: rest) ++ contents (d :: rest') := by
  induction rest generalizing b with
  | nil => simp [iobConcat, Buf.content]
  | cons next rest ih => rw [iobConcat, contents_cons, ih, contents_cons b, append_assoc]

theorem iobConcat_bufs (hb : ∀ c ∈ b :: rest, BufOk B c) (hd : ∀ c ∈ d :: rest', BufOk B c) :
    ∀ c ∈ iobConcat d rest' b rest, BufOk B c := by
  induction rest generalizing b with
  | nil =>
    have hb := hb b mem_cons_self
    exact forall_mem_cons.2 ⟨⟨hb.size, hb.fits⟩, hd⟩
  | cons next rest ih =>
    obtain ⟨hb, hrest⟩ := forall_mem_cons.1 hb
    exact forall_mem_cons.2 ⟨hb, ih hrest⟩

/-- The packet that is joined is right if and only if the first one is a single buffer or the second
one has no bytes. -/
theorem concat_well_formed (h : WellFormed B (b :: rest)) (h' : WellFormed B (d :: rest'))
    (hshort : (contents (b :: rest)).length + (contents (d :: rest')).length < 65536) :
    WellFormed B (iobConcat d rest' b rest) ∧
        contents (iobConcat d rest' b rest) = contents (b :: rest) ++ contents (d :: rest') ↔
      rest = [] ∨ contents (d :: rest') = [] := by
  have hcontents := contents_iobConcat d rest' b rest
  have hlen := congrArg length hcontents
  rw [length_append] at hlen
  have hpk : b.pktlen = (contents (b :: rest)).length := h.pktlen b rfl
  have hpk' : d.pktlen = (contents (d :: rest')).length := h'.pktlen d rfl
  rw [and_iff_left hcontents]
  have hwf : WellFormed B (iobConcat d rest' b rest) ↔
      ∀ c ∈ (iobConcat d rest' b rest).head?,
      c.pktlen = (contents (iobConcat d rest' b rest)).length :=
    ⟨fun h => h.pktlen, fun hhead => ⟨iobConcat_bufs h.bufs h'.bufs, hhead, by omega⟩⟩
  rw [hwf, hlen, ← hpk, ← hpk', ← length_eq_zero_iff, ← length_eq_zero_iff, ← hpk']
  cases rest with
  | nil =>
    refine iff_of_true ?_ (.inl rfl)
    rintro _ ⟨⟩
    exact u16_eq_self (by omega)
  | cons next rest =>
    -- the head is not the last buffer, and keeps its length
    rw [iobConcat]
    simp

theorem concat_well_formed_sample :
    contents (iobConcat (sampleBuf 3 3) [] (sampleBuf 2 2) []) = [0, 1, 0, 1, 2] :=
  ((concat_well_formed (sampleBuf_wellFormed 2 (by decide)) (sampleBuf_wellFormed 3 (by decide))
    (by decide)).2 (.inl rfl)).2

/-- A packet of two buffers with two bytes each, and one of two bytes: the head still says four. -/
theorem concat_loses_length :
    iobConcat (sampleBuf 2 2) [] (sampleBuf 2 4) [sampleBuf 2 0]
      = [sampleBuf 2 4, sampleBuf 2 2, sampleBuf 2 2] := by
  decide

end BaseNx.Iob.Chain
