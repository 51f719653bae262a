import VectorSine.Decimal
import VectorSine.Demo.Deviation
import VectorSine.Execution.Selection

/-! # A table of common angles

For each variant the table has a block: its name, then a line for each angle with the sine that its
kernel computes and how far that is off. A variant that refuses the buffers has its error instead.
-/

namespace VectorSine
set_option autoImplicit false

namespace Table

/-- The angles 0, 0.524, 0.786, 1.047, 1.571, 1.571, 2.094, 2.356, 2.618 and 3.142. -/
def angles : Array Binary32 :=
  #[⟨0x00000000⟩, ⟨0x3F0624DD⟩, ⟨0x3F49374C⟩, ⟨0x3F860419⟩, ⟨0x3FC91687⟩, ⟨0x3FC91687⟩,
    ⟨0x40060419⟩, ⟨0x4016C8B4⟩, ⟨0x40278D50⟩, ⟨0x40491687⟩]

/-- The offset of both buffers, which suits no vector. -/
def offset : Nat := 1

def source : Buffer := { offset := offset, data := angles }

def target : Buffer := { offset := offset, data := Array.replicate angles.size Binary32.zero }

def number (x : Binary32) : String :=
  Decimal.ofDatum (Decimal.fixed 3) Binary32.quantaPerOne x.datum

def line (x y : Binary32) : String :=
  "    sin(" ++ number x ++ ") = " ++ number y ++ ", error " ++
    Decimal.ofDatum (Decimal.scientific 2) FixedPoint.grainsPerOne (deviation x y)

def block (b : Build) (v : Variant) : List String :=
  let outcome := b.execute v target.whole source.whole
  match outcome.failure with
  | some error => [v.name ++ ": " ++ error.message]
  | none => v.name :: List.zipWith line angles.toList outcome.dst.data.toList

def lines (b : Build) (vs : List Variant) : List String := vs.flatMap (block b)

end Table

end VectorSine
