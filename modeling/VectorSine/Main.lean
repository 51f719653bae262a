import VectorSine.Demo.Table

/-! # The command

Prints the table of common angles for every variant that can be executed.
-/

set_option autoImplicit false

def main : IO Unit :=
  (VectorSine.Table.lines .all VectorSine.Build.all.available).forM IO.println
