import Mathlib.Tactic

/-!
# The Internet checksum

`chksum` of `net/utils/net_chksum.c`. One addition with its end-around carry is the addition modulo
65535, in which 0 is reached from 0 and 0 only (`toNat_addWord`, `addWord_eq_zero`); the laws of the
whole sum follow from these by induction over the words of the data.
-/

namespace BaseNx.Net

/-- The 16-bit word at the head of the data, in network byte order. -/
def word (hi lo : UInt8) : UInt16 := (hi.toUInt16 <<< 8) + lo.toUInt16

/-- `sum += t; if (sum < t) sum++;` -/
def addWord (sum t : UInt16) : UInt16 :=
  if sum + t < t then sum + t + 1 else sum + t

/-- `chksum`: two bytes are taken in each turn of the loop, and one may remain. -/
def chksum (sum : UInt16) : List UInt8 → UInt16
  | hi :: lo :: rest => chksum (addWord sum (word hi lo)) rest
  | [last] => addWord sum (word last 0)
  | [] => sum

/-- The sum of the words as a number; the last odd byte is padded with zero. -/
def wordSum : List UInt8 → Nat
  | hi :: lo :: rest => hi.toNat * 256 + lo.toNat + wordSum rest
  | [last] => last.toNat * 256
  | [] => 0

/-- The two bytes of a field, in network byte order. -/
def field (x : UInt16) : List UInt8 := [(x >>> 8).toUInt8, x.toUInt8]

section Word

variable (hi lo : UInt8)

theorem toNat_word : (word hi lo).toNat = hi.toNat * 256 + lo.toNat := by
  have hhi := hi.toNat_lt
  have hlo := lo.toNat_lt
  rw [word, UInt16.toNat_add, UInt16.toNat_shiftLeft, UInt8.toNat_toUInt16, UInt8.toNat_toUInt16]
  change (hi.toNat <<< 8 % 2 ^ 16 + lo.toNat) % 2 ^ 16 = _
  rw [Nat.shiftLeft_eq]
  omega

theorem word_eq_zero (h : word hi lo = 0) : hi = 0 ∧ lo = 0 := by
  have hzero := toNat_word hi lo
  rw [h] at hzero
  change 0 = _ at hzero
  exact ⟨UInt8.toNat_inj.1 (by change _ = 0; omega), UInt8.toNat_inj.1 (by change _ = 0; omega)⟩

variable (s t : UInt16)

/-- The carry is added exactly when the sum of 16 bits has wrapped. -/
theorem toNat_addWord : (addWord s t).toNat =
    if s.toNat + t.toNat < 65536 then s.toNat + t.toNat else s.toNat + t.toNat - 65535 := by
  have hs := s.toNat_lt
  have ht := t.toNat_lt
  rw [addWord]
  simp only [UInt16.lt_iff_toNat_lt, UInt16.toNat_add, apply_ite UInt16.toNat, UInt16.toNat_one]
  split_ifs <;> omega

theorem addWord_modEq : (addWord s t).toNat ≡ s.toNat + t.toNat [MOD 65535] := by
  rw [toNat_addWord]
  split
  · exact .rfl
  · rw [Nat.modEq_iff_dvd' (Nat.sub_le _ _)]
    exact ⟨1, by omega⟩

theorem addWord_eq_zero (h : addWord s t = 0) : s = 0 ∧ t = 0 := by
  have hzero := toNat_addWord s t
  rw [h] at hzero
  change 0 = _ at hzero
  have hsum : s.toNat = 0 ∧ t.toNat = 0 := by split at hzero <;> omega
  exact ⟨UInt16.toNat_inj.1 hsum.1, UInt16.toNat_inj.1 hsum.2⟩

end Word

theorem chksum_modEq (s : UInt16) (data : List UInt8) :
    (chksum s data).toNat ≡ s.toNat + wordSum data [MOD 65535] := by
  induction s, data using chksum.induct with
  | case1 s hi lo rest ih =>
    have hstep := addWord_modEq s (word hi lo)
    rw [toNat_word] at hstep
    rw [wordSum, ← Nat.add_assoc]
    exact ih.trans (hstep.add_right _)
  | case2 s last =>
    have hstep := addWord_modEq s (word last 0)
    rw [toNat_word, UInt8.toNat_zero, Nat.add_zero] at hstep
    exact hstep
  | case3 s => exact .rfl

theorem chksum_eq_zero {s : UInt16} {data : List UInt8} (h : chksum s data = 0) :
    s = 0 ∧ ∀ x ∈ data, x = 0 := by
  induction s, data using chksum.induct with
  | case1 s hi lo rest ih =>
    obtain ⟨hsum, hrest⟩ := ih h
    obtain ⟨hs, hword⟩ := addWord_eq_zero _ _ hsum
    obtain ⟨hhi, hlo⟩ := word_eq_zero _ _ hword
    exact ⟨hs, List.forall_mem_cons.2 ⟨hhi, List.forall_mem_cons.2 ⟨hlo, hrest⟩⟩⟩
  | case2 s last =>
    obtain ⟨hs, hword⟩ := addWord_eq_zero _ _ h
    exact ⟨hs, List.forall_mem_singleton.2 (word_eq_zero _ _ hword).1⟩
  | case3 s => exact ⟨h, nofun⟩

variable {a : List UInt8}

theorem chksum_append (s : UInt16) (b : List UInt8) (h : Even a.length) :
    chksum s (a ++ b) = chksum (chksum s a) b := by
  induction s, a using chksum.induct with
  | case1 s hi lo rest ih => exact ih ((Nat.even_add (m := rest.length)).1 h |>.2 even_two)
  | case2 s last => exact absurd h Nat.not_even_one
  | case3 s => rfl

theorem word_field (x : UInt16) : word (x >>> 8).toUInt8 x.toUInt8 = x := by
  have hx := x.toNat_lt
  refine UInt16.toNat_inj.1 ?_
  rw [toNat_word, UInt16.toNat_toUInt8, UInt16.toNat_toUInt8, UInt16.toNat_shiftRight]
  change x.toNat >>> 8 % 256 * 256 + x.toNat % 256 = _
  rw [Nat.shiftRight_eq_div_pow]
  omega

theorem chksum_around (s : UInt16) (b : List UInt8) (h : Even a.length) (x : UInt16) :
    chksum s (a ++ field x ++ b) = chksum (addWord (chksum s a) x) b := by
  rw [List.append_assoc, chksum_append s _ h]
  change chksum (addWord (chksum s a) (word (x >>> 8).toUInt8 x.toUInt8)) b = _
  rw [word_field]

theorem chksum_field (s : UInt16) (b : List UInt8) (h : Even a.length) :
    chksum s (a ++ field (~~~ chksum s (a ++ field 0 ++ b)) ++ b) = 0xffff := by
  rw [chksum_around s b h, chksum_around s b h]
  generalize chksum s a = t
  generalize hc : chksum (addWord t 0) b = c
  have hcompl : (~~~ c).toNat = 65535 - c.toNat := UInt16.toNat_not c
  have hclt := c.toNat_lt
  -- the whole is a multiple of 65535
  have hzero := (chksum_modEq (addWord t 0) b).trans ((addWord_modEq t 0).add_right _)
  have hwhole := (chksum_modEq (addWord t (~~~ c)) b).trans ((addWord_modEq t (~~~ c)).add_right _)
  rw [hc, UInt16.toNat_zero, Nat.ModEq] at hzero
  rw [hcompl, Nat.ModEq] at hwhole
  -- it is not 0, since the field or what it was computed from is not
  have hne : chksum (addWord t (~~~ c)) b ≠ 0 := by
    intro hbad
    have hfield := (addWord_eq_zero _ _ (chksum_eq_zero hbad).1).2
    rw [hfield, hc] at hbad
    rw [hbad] at hfield
    exact absurd hfield (by decide)
  have hpos := mt UInt16.toNat_inj.1 hne
  have hlt := (chksum (addWord t (~~~ c)) b).toNat_lt
  rw [UInt16.toNat_zero] at hpos
  refine UInt16.toNat_inj.1 ?_
  change _ = 65535
  omega

/-- `chksum` computes the one's-complement sum of the 16-bit words of the data: modulo 65535 it is
the start value plus the words, and it is 0 only when all of them are; it may be computed in parts
that are split at an even position; and a message whose even-aligned field holds the complement of
the checksum with the field zero has the checksum 0xffff. -/
theorem chksum_computes_ones_complement_sum (s : UInt16) (a b : List UInt8) :
    (chksum s a).toNat ≡ s.toNat + wordSum a [MOD 65535] ∧
      (chksum s a = 0 → s = 0 ∧ ∀ x ∈ a, x = 0) ∧
      (Even a.length → chksum s (a ++ b) = chksum (chksum s a) b ∧
        chksum s (a ++ field (~~~ chksum s (a ++ field 0 ++ b)) ++ b) = 0xffff) :=
  ⟨chksum_modEq s a, chksum_eq_zero, fun h => ⟨chksum_append s b h, chksum_field s b h⟩⟩

/-- An IPv4 header with its checksum field, the bytes 10 and 11. -/
theorem chksum_computes_ones_complement_sum_header :
    let a : List UInt8 := [0x45, 0, 0, 0x73, 0, 0, 0x40, 0, 0x40, 0x11]
    let b : List UInt8 := [0xc0, 0xa8, 0, 1, 0xc0, 0xa8, 0, 0xc7]
    field (~~~ chksum 0 (a ++ field 0 ++ b)) = [0xb8, 0x61] ∧
      chksum 0 (a ++ [0xb8, 0x61] ++ b) = 0xffff := by
  intro a b
  have hfield : field (~~~ chksum 0 (a ++ field 0 ++ b)) = [0xb8, 0x61] := by decide
  refine ⟨hfield, ?_⟩
  rw [← hfield]
  exact ((chksum_computes_ones_complement_sum 0 a b).2.2 (by decide)).2

/-- A message in which one 16-bit word is changed has another checksum, unless the word was 0 and is
now 0xffff, or the other way round. -/
theorem chksum_detects_word (s : UInt16) (a b : List UInt8) (ha : Even a.length) (x y : UInt16)
    (h : chksum s (a ++ field x ++ b) = chksum s (a ++ field y ++ b)) :
    x = y ∨ x = 0 ∧ y = 0xffff ∨ x = 0xffff ∧ y = 0 := by
  rw [chksum_around s b ha, chksum_around s b ha] at h
  generalize chksum s a = t at h
  -- modulo 65535 the checksum is a sum, from which all that is equal can be taken off
  have hsum : ∀ z, (chksum (addWord t z) b).toNat ≡ t.toNat + z.toNat + wordSum b [MOD 65535] :=
    fun z => (chksum_modEq _ b).trans ((addWord_modEq t z).add_right _)
  have hmod : x.toNat ≡ y.toNat [MOD 65535] := by
    have hxy := (hsum x).symm.trans (h ▸ hsum y)
    exact Nat.ModEq.add_left_cancel' _ (Nat.ModEq.add_right_cancel' _ hxy)
  have hx := x.toNat_lt
  have hy := y.toNat_lt
  simp only [← UInt16.toNat_inj]
  change x.toNat = y.toNat ∨ x.toNat = 0 ∧ y.toNat = 65535 ∨ x.toNat = 65535 ∧ y.toNat = 0
  unfold Nat.ModEq at hmod
  omega

theorem chksum_detects_word_sample :
    chksum 0 ([1, 2] ++ field 0x0304 ++ [5]) ≠ chksum 0 ([1, 2] ++ field 0x0403 ++ [5]) := by
  intro h
  exact absurd (chksum_detects_word 0 [1, 2] [5] (by decide) _ _ h) (by decide)

end BaseNx.Net
