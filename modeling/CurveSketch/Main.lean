import CurveSketch.Report

/-!
# The command line

Prints the table of values of the expressions that are given as arguments.
-/

def main (args : List String) : IO Unit :=
  IO.print (CurveSketch.Report.values args)
