/-!
# What can go wrong

A pattern can break the grammar, end too early or nest too deeply; an operation on automata can miss
states or a start state. Each cause is a constructor, and its wording stands in one place.
-/

namespace PatternAutomata

/-- Why an operation on automata has no result. -/
inductive Fault where
  | noStates
  | noStart
  | noBranches
  /-- After renumbering, the largest state below still reaches the smallest state above. -/
  | overlap (top bottom : Nat)
deriving DecidableEq

/-- What the grammar asks for at a place where something else stands. -/
inductive Expected where
  | exactly (c : Char)
  | anyChar
  | atom
  | branch
  | endOfPattern
deriving DecidableEq

/-- Why a pattern has no automaton. Positions count characters from zero. -/
inductive CompileError where
  | unexpected (expected : Expected) (actual : Char) (position : Nat)
  | unexpectedEnd (expected : Expected) (position : Nat)
  /-- The position is that of the opening parenthesis which goes beyond the limit. -/
  | tooDeep (limit position : Nat)
  | invalid (fault : Fault)
deriving DecidableEq

def Fault.message : Fault → String
  | noStates => "automaton has no states"
  | noStart => "automaton has no start state"
  | noBranches => "alternation needs a branch"
  | overlap top bottom => s!"renamed fragments overlap: {top} >= {bottom}"

def Expected.message : Expected → String
  | exactly c => s!"'{c}'"
  | anyChar => "a character"
  | atom => "a literal, an escape or a group"
  | branch => "a non-empty alternative"
  | endOfPattern => "end of input"

def CompileError.message : CompileError → String
  | unexpected expected actual position =>
    s!"syntax error at position {position}: expected {expected.message}, got '{actual}'"
  | unexpectedEnd expected position =>
    s!"unexpected end of input at position {position}: expected {expected.message}"
  | tooDeep limit position => s!"nest limit of {limit} exceeded at position {position}"
  | invalid fault => s!"invalid automaton: {fault.message}"

end PatternAutomata
