import Mathlib

/-! Conversions between the integer types of the target: `int` has 32 bits,
`size_t` has 64, and `char` is signed. A conversion to a signed type keeps the low bits and reads
them in two's complement, a conversion to `size_t` works modulo its range. -/

namespace LastPicked.CIntegers

def intMax : Int := 2 ^ 31 - 1

def intMin : Int := -2 ^ 31

def toInt (x : Int) : Int := x.bmod (2 ^ 32)

def toSize (x : Int) : Nat := (x % 2 ^ 64).toNat

def toUnsigned (x : Nat) : Nat := x % 2 ^ 32

def toChar (x : Int) : Int := x.bmod (2 ^ 8)

/-- Addition of two `int`s. An overflow has no result. -/
def addInt (x y : Int) : Option Int :=
  if intMin ≤ x + y ∧ x + y ≤ intMax then some (x + y) else none

/-- The byte at position `j` of an `int` in memory, the low byte first. -/
def intByte (x : Int) (j : Nat) : UInt8 := UInt8.ofNat ((x % 2 ^ 32).toNat / 256 ^ j)

def ofBytes (b₀ b₁ b₂ b₃ : UInt8) : Int :=
  toInt (b₀.toNat + 256 * b₁.toNat + 256 ^ 2 * b₂.toNat + 256 ^ 3 * b₃.toNat : Nat)

theorem intMin_nonpos : intMin ≤ 0 := by decide

theorem toInt_of_range {x : Int} (low : intMin ≤ x) (high : x ≤ intMax) : toInt x = x := by
  unfold intMin at low
  unfold intMax at high
  unfold toInt Int.bmod
  dsimp only
  split <;> omega

theorem toUnsigned_of_lt {x : Nat} (h : x < 2 ^ 32) : toUnsigned x = x := Nat.mod_eq_of_lt h

theorem toSize_of_nonneg {x : Int} (low : 0 ≤ x) (high : x < 2 ^ 64) : (toSize x : Int) = x := by
  unfold toSize
  omega

theorem toSize_toInt (n : Nat) :
    toSize (toInt n) = if n % 2 ^ 32 < 2 ^ 31 then n % 2 ^ 32
      else 2 ^ 64 - 2 ^ 32 + n % 2 ^ 32 := by
  unfold toSize toInt Int.bmod
  dsimp only
  split <;> split <;> omega

theorem addInt_eq_some {x y z : Int} :
    addInt x y = some z ↔ z = x + y ∧ intMin ≤ z ∧ z ≤ intMax := by
  unfold addInt
  split <;> grind

theorem ofBytes_intByte {x : Int} (low : intMin ≤ x) (high : x ≤ intMax) :
    ofBytes (intByte x 0) (intByte x 1) (intByte x 2) (intByte x 3) = x := by
  have digits : ((intByte x 0).toNat + 256 * (intByte x 1).toNat + 256 ^ 2 * (intByte x 2).toNat +
      256 ^ 3 * (intByte x 3).toNat : Nat) = x % 2 ^ 32 := by
    simp only [intByte, UInt8.toNat_ofNat']
    omega
  calc
    _ = (x % 2 ^ 32).bmod (2 ^ 32) := by rw [ofBytes, digits, toInt]
    _ = x.bmod (2 ^ 32) := Int.emod_bmod x (2 ^ 32)
    _ = x := toInt_of_range low high

end LastPicked.CIntegers
