import PatternAutomata.Pattern
import PatternAutomata.Text

/-!
# The report on some patterns

For each pattern the report shows the automaton with its states, alphabet, start, finals and edges,
then the deterministic automaton likewise with the set behind each state, or else why the pattern
cannot be compiled.
-/

namespace PatternAutomata.Report

def stateSet (s : StateSet) : String := Text.braces (s.toList.map toString)

def alphabet (s : Alphabet) : String := Text.braces (s.toList.map Text.quote)

def edge (e : Edge) (labels : Labels) : String :=
  s!"  {e.source} -> {e.target} on " ++ ", ".intercalate (labels.toList.map Symbol.text)

def automaton (A : Automaton) : List String :=
  [s!"States: {stateSet A.states}",
    s!"Alphabet: {alphabet A.alphabet}",
    match A.start with
    | some q => s!"Start state: {q}"
    | none => "Start state: none",
    s!"Final states: {stateSet A.finals}",
    "Transitions:"] ++
    A.edges.toList.map fun e => edge e.1 e.2

def dfa (D : Dfa) : List String :=
  automaton D.automaton ++ "Subsets:" ::
    D.subsets.toList.map fun e => s!"  {e.1} = {stateSet e.2}"

/-- The lines on one pattern. A pattern is written as it is, even if it holds line ends. -/
def pattern (text : String) : List String :=
  "" :: s!"=== Pattern: '{text}' ===" ::
    match compile text.toList defaultLimit with
    | .error e => [s!"Failed to compile: {e.message}"]
    | .ok A =>
      "--- NFA ---" :: automaton A ++
        match determinize A with
        | .error e => [s!"Failed to determinize: {e.message}"]
        | .ok D => "--- DFA ---" :: dfa D

/-- The patterns of a report that is asked for without patterns; the last five are malformed. -/
def samples : List String :=
  ["a", "\\*", "a*", "ab", "a|b", "(a|b)", "(a|b)*ab", "(a|b)*abb", "a**", "((a*)*|b*)*",
    "(ab", "ab)", "a\\", "*a", "a||b"]

def lines (patterns : List String) : List String :=
  "Thompson NFA / Subset Construction DFA Demo" ::
    "===========================================" ::
    (if patterns.isEmpty then samples else patterns).flatMap pattern

def text (patterns : List String) : String := String.join ((lines patterns).map (· ++ "\n"))

end PatternAutomata.Report
