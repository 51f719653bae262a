import VectorSine.Binary32.Basic

/-! # The constants of the pipeline

Each is the binary32 number nearest to the decimal fraction in its comment. A quarter of `π` is
split in two so that an even number of quarters below `2¹⁶` times the larger part, which has eight
significant bits, is exact.
-/

namespace VectorSine
set_option autoImplicit false

namespace Coefficients

/-- The reciprocal of a quarter of `π`, 1.273239545. -/
def octantsPerUnit : Binary32 := ⟨0x3FA2F983⟩

/-- The larger part of a quarter of `π`, 0.78515625. -/
def octantHigh : Binary32 := ⟨0x3F490000⟩

/-- The remainder of a quarter of `π`, 0.241876e-3. -/
def octantLow : Binary32 := ⟨0x397DA018⟩

/-! ## The series

The function `2 (1 - cos x)` is `x² - x⁴/12 + x⁶/360 - x⁸/20160 + x¹⁰/1814400 - …`, and these are
the absolute values of its first five coefficients. -/

/-- The coefficient of `x²`, one. -/
def c1 : Binary32 := ⟨0x3F800000⟩

/-- The coefficient of `x⁴`, 0.83333333e-1. -/
def c2 : Binary32 := ⟨0x3DAAAAAB⟩

/-- The coefficient of `x⁶`, 0.2777778e-2. -/
def c3 : Binary32 := ⟨0x3B360B62⟩

/-- The coefficient of `x⁸`, 0.49603e-4. -/
def c4 : Binary32 := ⟨0x38500CD1⟩

/-- The coefficient of `x¹⁰`, 0.551e-6. -/
def c5 : Binary32 := ⟨0x3513E86F⟩

end Coefficients

end VectorSine
