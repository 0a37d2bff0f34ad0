import Mathlib.Tactic

/-!
# C integer conversions

The conversions between `int` (32 bits) and `size_t` (64 bits).  Values are
mathematical integers, so a conversion is visible exactly where the source
performs one.
-/

namespace CppProjects.CInt

/-- `INT_MAX`. -/
def intMax : ℕ := 2147483647

/-- `std::string::npos`, the largest `size_t`. -/
def npos : ℕ := 2 ^ 64 - 1

/-- A value that `int` can represent. -/
def FitsInt (value : ℤ) : Prop := -(2 ^ 31) ≤ value ∧ value < 2 ^ 31

instance (value : ℤ) : Decidable (FitsInt value) := inferInstanceAs (Decidable (_ ∧ _))

/-- Conversion to `int` keeps the low 32 bits, as a signed number. -/
def toInt (value : ℤ) : ℤ := value.bmod (2 ^ 32)

/-- Conversion to `size_t` is reduction modulo `2^64`. -/
def toSize (value : ℤ) : ℕ := (value % 2 ^ 64).toNat

theorem toInt_eq_self {value : ℤ} (hfits : FitsInt value) : toInt value = value :=
  Int.bmod_eq_of_le (by have := hfits.1; omega) (by have := hfits.2; omega)

/-- The conversion gives an `int`, and takes whole turns of `2^32` away. -/
theorem toInt_spec (value : ℤ) : FitsInt (toInt value) ∧ ∃ turns, value = toInt value + 2 ^ 32 * turns := by
  have hlow := Int.le_bmod (x := value) (m := 2 ^ 32) (by decide)
  have hhigh := Int.bmod_lt (x := value) (m := 2 ^ 32) (by decide)
  refine ⟨⟨?_, ?_⟩, value.bdiv (2 ^ 32), ?_⟩
  · exact le_trans (by decide) hlow
  · exact hhigh.trans_le (by decide)
  · exact (Int.bmod_add_bdiv value (2 ^ 32)).symm

@[simp]
theorem toInt_npos : toInt npos = -1 := by decide

theorem toSize_natCast {value : ℕ} (hbound : value < 2 ^ 64) : toSize value = value := by
  rw [toSize]
  omega

/-- A negative number becomes a huge size. -/
theorem toSize_of_neg {value : ℤ} (hneg : value < 0) (hlow : -(2 ^ 63) ≤ value) :
    2 ^ 63 ≤ toSize value := by
  rw [toSize]
  omega

end CppProjects.CInt
