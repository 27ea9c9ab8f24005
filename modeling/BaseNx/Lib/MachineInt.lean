import Mathlib.Tactic

/-!
# Fixed-width integers as wrapped numbers

Signed and unsigned C integers of width `w` are modelled by `Int` and `Nat` values that are
wrapped where the code stores or adds them. The lemmas here say when wrapping does nothing.
-/

namespace BaseNx.Lib

variable (x : Int)

/-- The value of a signed integer of 32 bits. -/
def i32 : Int := Int.bmod x (2 ^ 32)

/-- The value of a signed integer of 16 bits. -/
def i16 : Int := Int.bmod x (2 ^ 16)

/-- The value of a signed integer of 8 bits. -/
def i8 : Int := Int.bmod x (2 ^ 8)

/-- The value of an unsigned integer of 32 bits. -/
def u32 (x : Nat) : Nat := x % 2 ^ 32

/-- The value of an unsigned integer of 16 bits. -/
def u16 (x : Nat) : Nat := x % 2 ^ 16

/-- The value of an unsigned integer of 8 bits. -/
def u8 (x : Nat) : Nat := x % 2 ^ 8

/-- The value of a signed integer of 64 bits. -/
def i64 : Int := Int.bmod x (2 ^ 64)

/-- The value of an unsigned integer of 64 bits. -/
def u64 (x : Nat) : Nat := x % 2 ^ 64

/-- A difference of unsigned integers of 64 bits. -/
def sub64 (x y : Nat) : Nat := u64 (x + (2 ^ 64 - u64 y))

/-- A difference of unsigned integers of 32 bits. -/
def sub32 (x y : Nat) : Nat := u32 (x + (2 ^ 32 - u32 y))

/-- A difference of unsigned integers of 16 bits. -/
def sub16 (x y : Nat) : Nat := u16 (x + (2 ^ 16 - u16 y))

/-- A signed integer converted to an unsigned one of 32 bits. -/
def toU32 : Nat := (x % 2 ^ 32).toNat

/-- A signed integer converted to an unsigned one of 64 bits. -/
def toU64 : Nat := (x % 2 ^ 64).toNat

/-- The largest `int32_t`. -/
def int32Max : Int := 2147483647

/-- The largest `int16_t`. -/
def int16Max : Int := 32767

variable {x : Int}

theorem i32_eq_self (hlo : -2147483648 ≤ x) (hhi : x ≤ 2147483647) : i32 x = x := by
  unfold i32
  rw [Int.bmod_eq_of_le_mul_two] <;> norm_num <;> omega

theorem i16_eq_self (hlo : -32768 ≤ x) (hhi : x ≤ 32767) : i16 x = x := by
  unfold i16
  rw [Int.bmod_eq_of_le_mul_two] <;> norm_num <;> omega

theorem i8_eq_self (hlo : -128 ≤ x) (hhi : x ≤ 127) : i8 x = x := by
  unfold i8
  rw [Int.bmod_eq_of_le_mul_two] <;> norm_num <;> omega

theorem u32_eq_self {x : Nat} (h : x < 4294967296) : u32 x = x := Nat.mod_eq_of_lt h

theorem u16_eq_self {x : Nat} (h : x < 65536) : u16 x = x := Nat.mod_eq_of_lt h

theorem u8_eq_self {x : Nat} (h : x < 256) : u8 x = x := Nat.mod_eq_of_lt h

theorem i64_eq_self (hlo : -9223372036854775808 ≤ x) (hhi : x ≤ 9223372036854775807) :
    i64 x = x := by
  unfold i64
  rw [Int.bmod_eq_of_le_mul_two] <;> norm_num <;> omega

theorem u64_eq_self {x : Nat} (h : x < 18446744073709551616) : u64 x = x := Nat.mod_eq_of_lt h

theorem sub64_eq_self {x y : Nat} (hx : x < 18446744073709551616) (hyx : y ≤ x) :
    sub64 x y = x - y := by
  simp only [sub64, u64]
  omega

theorem toU64_eq_toNat (hlo : 0 ≤ x) (hhi : x < 18446744073709551616) : toU64 x = x.toNat := by
  simp only [toU64]
  rw [Int.emod_eq_of_lt hlo (by norm_num; omega)]

theorem sub32_eq_self {x y : Nat} (hx : x < 4294967296) (hyx : y ≤ x) : sub32 x y = x - y := by
  simp only [sub32, u32]
  omega

theorem sub16_eq_self {x y : Nat} (hx : x < 65536) (hyx : y ≤ x) : sub16 x y = x - y := by
  simp only [sub16, u16]
  omega

theorem toU32_eq_toNat (hlo : 0 ≤ x) (hhi : x < 4294967296) : toU32 x = x.toNat := by
  simp only [toU32]
  rw [Int.emod_eq_of_lt hlo (by norm_num; omega)]

/-- Rounding up to a multiple of `al`. -/
theorem round_up (raw : Nat) {al : Nat} (hal : 0 < al) :
    raw ≤ (raw + (al - 1)) / al * al ∧ (raw + (al - 1)) / al * al < raw + al := by
  have hdiv := Nat.div_add_mod (raw + (al - 1)) al
  have hlt := Nat.mod_lt (raw + (al - 1)) hal
  rw [mul_comm] at hdiv
  omega

/-- Rounding down commutes with wrapping. -/
theorem u32_round {al : Nat} (hal : al ∣ 2 ^ 32)
    (x : Nat) : u32 x / al * al = u32 (x / al * al) := by
  obtain ⟨m, hm⟩ := hal
  rw [u32, u32, hm, Nat.mod_mul_right_div_self, mul_comm al m, Nat.mul_mod_mul_right]

theorem u32_lt (x : Nat) : u32 x < 4294967296 := Nat.mod_lt _ (by norm_num)

theorem u16_lt (x : Nat) : u16 x < 65536 := Nat.mod_lt _ (by norm_num)

end BaseNx.Lib
