import BaseNx.Lib.MachineInt

/-!
# IPv6 masks

`net_ipv6_pref2mask`, `net_ipv6_mask2pref` and `net_ipv6addr_maskcmp` of `net/utils`, on a
little-endian host. In the group in which the prefix ends the shift count wraps and the mask is
zero, where the source means `0xfc00` for a prefix of 38 bits.
-/

namespace BaseNx.Net

open Lib

/-- `net_ipv6addr_t`: eight groups of the address, each as the host reads it. -/
abbrev Ipv6addr := Nat → BitVec 16

def ntohs (x : BitVec 16) : BitVec 16 := x <<< 8 ||| x >>> 8

/-- `net_ipv6_pref2mask` for the group `i`; `bit` and the shift count are unsigned. -/
def netIpv6Pref2mask (preflen : Nat) : Ipv6addr := fun i =>
  let bit := i <<< 4
  if preflen > bit then
    if preflen ≥ bit + 16 then 0xffff#16
    else BitVec.ofNat 16 (0xffff <<< sub32 16 (sub32 bit preflen))
  else 0#16

def netMsbits4 (nibble : Nat) : Nat :=
  [0, 0, 0, 0, 0, 0, 0, 0, 1, 1, 1, 1, 2, 2, 3, 4].getD nibble 0

def netMsbits8 (byval : Nat) : Nat :=
  let ones := netMsbits4 (byval >>> 4)
  if ones = 4 then ones + netMsbits4 (byval &&& 0x0f) else ones

def netMsbits16 (hword : Nat) : Nat :=
  let ones := netMsbits8 (hword >>> 8)
  if ones = 8 then ones + netMsbits8 (hword &&& 0xff) else ones

/-- The loop of `net_ipv6_mask2pref`: the index and the length when it ends. -/
def mask2prefLoop (mask : Ipv6addr) : Nat → Nat → Nat → Nat × Nat
  | 0, i, preflen => (i, preflen)
  | left + 1, i, preflen =>
    if mask i = 0xffff#16 then mask2prefLoop mask left (i + 1) (u8 (preflen + 16))
    else (i, preflen)

def netIpv6Mask2pref (mask : Ipv6addr) : Nat :=
  let (i, preflen) := mask2prefLoop mask 8 0 0
  if i < 8 then u8 (preflen + netMsbits16 (ntohs (mask i)).toNat) else preflen

/-- The loop of `net_ipv6addr_maskcmp`, which compares the last group first. -/
def maskcmpLoop (addr1 addr2 mask : Ipv6addr) : Nat → Bool
  | 0 => true
  | i + 1 =>
    if addr1 i &&& mask i ≠ addr2 i &&& mask i then false else maskcmpLoop addr1 addr2 mask i

def netIpv6addrMaskcmp (addr1 addr2 mask : Ipv6addr) : Bool := maskcmpLoop addr1 addr2 mask 8

/-- The bit `j` of an address in network byte order: the first byte of a group is its low half. -/
def addrBit (a : Ipv6addr) (j : Nat) : Bool :=
  (a (j / 16)).getLsbD (8 * (j / 8 % 2) + (7 - j % 8))

variable {a b : Ipv6addr}

theorem netIpv6Pref2mask_groups (k i : Nat) :
    netIpv6Pref2mask (16 * k) i = if i < k then 0xffff#16 else 0#16 := by
  simp only [netIpv6Pref2mask, Nat.shiftLeft_eq]
  split_ifs <;> first | rfl | omega

theorem maskcmpLoop_iff {mask : Ipv6addr} (n : Nat) : maskcmpLoop a b mask n = true ↔
    ∀ i < n, a i &&& mask i = b i &&& mask i := by
  induction n with
  | zero => simp [maskcmpLoop]
  | succ n ih =>
    rw [maskcmpLoop, Nat.forall_lt_succ_right, ← ih]
    split_ifs with hne
    · simp [hne]
    · simp [not_not.1 hne]

theorem addrBit_groups (k : Nat) :
    (∀ j < 16 * k, addrBit a j = addrBit b j) ↔ ∀ i < k, a i = b i := by
  constructor
  · intro h i hi
    apply BitVec.eq_of_getLsbD_eq
    intro t ht
    have hbit := h (16 * i + 8 * (t / 8) + (7 - t % 8)) (by omega)
    rwa [addrBit, addrBit, show (16 * i + 8 * (t / 8) + (7 - t % 8)) / 16 = i by omega,
      show 8 * ((16 * i + 8 * (t / 8) + (7 - t % 8)) / 8 % 2) +
        (7 - (16 * i + 8 * (t / 8) + (7 - t % 8)) % 8) = t by omega] at hbit
  · intro h j hj
    rw [addrBit, addrBit, h (j / 16) (by omega)]

/-- The comparison is that of the first bits for all addresses, and the length can be read off the
mask, if and only if the prefix is of whole groups. -/
theorem mask_selects_first_bits {p : Nat} (hp : p ≤ 128) :
    (∀ a b : Ipv6addr,
        netIpv6addrMaskcmp a b (netIpv6Pref2mask p) = true ↔ ∀ j < p, addrBit a j = addrBit b j) ∧
      netIpv6Mask2pref (netIpv6Pref2mask p) = p ↔ 16 ∣ p := by
  have hlen : ∀ p ≤ 128, netIpv6Mask2pref (netIpv6Pref2mask p) = p ↔ 16 ∣ p := by decide
  refine ⟨fun h => (hlen p hp).1 h.2, fun hgroups => ⟨fun a b => ?_, (hlen p hp).2 hgroups⟩⟩
  obtain ⟨k, rfl⟩ := hgroups
  rw [addrBit_groups, netIpv6addrMaskcmp, maskcmpLoop_iff]
  simp only [netIpv6Pref2mask_groups]
  constructor
  · intro h i hi
    have hand := h i (by omega)
    rwa [if_pos hi, show 0xffff#16 = BitVec.allOnes 16 from rfl, BitVec.and_allOnes,
      BitVec.and_allOnes] at hand
  · intro h i _
    split_ifs with hi
    · rw [h i hi]
    · simp

/-- Two addresses that differ in their last group have the same 64 first bits. -/
theorem mask_selects_first_bits_sample :
    let b : Ipv6addr := fun i => if i = 7 then 1 else 0
    netIpv6Mask2pref (netIpv6Pref2mask 64) = 64 ∧ ∀ j < 64,
    addrBit (fun _ => 0) j = addrBit b j := by
  intro b
  obtain ⟨hbits, hlen⟩ := (mask_selects_first_bits (by decide : 64 ≤ 128)).2 (by decide)
  exact ⟨hlen, (hbits (fun _ => 0) b).1 (by decide)⟩

/-- Of a prefix of 38 bits only 32 are compared, and read off the mask. -/
theorem mask_loses_bits :
    let b : Ipv6addr := fun i => if i = 2 then 0x0080#16 else 0#16
    netIpv6addrMaskcmp (fun _ => 0) b (netIpv6Pref2mask 38) = true ∧
      addrBit (fun _ => 0) 32 ≠ addrBit b 32 ∧
      netIpv6Mask2pref (netIpv6Pref2mask 38) = 32 := by
  decide

end BaseNx.Net
