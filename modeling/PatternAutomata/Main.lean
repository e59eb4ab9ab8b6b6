import PatternAutomata.Report

/-!
# Command line

Prints the report on the patterns given as arguments, or on the samples if there are none.
-/

def main (patterns : List String) : IO Unit :=
  IO.print (PatternAutomata.Report.text patterns)
