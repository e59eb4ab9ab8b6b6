import PatternAutomata.Grammar.Cursor
import PatternAutomata.Subset.Dfa

/-!
# Compiled patterns

Compiling a pattern gives an automaton with edges for the empty word, and from that a deterministic
one. Both accept the same words.
-/

namespace PatternAutomata

/-- How deep groups may nest unless another limit is given. -/
def defaultLimit : Nat := 250

/-- The automaton of a pattern whose groups nest at most `limit` deep. -/
def compile (text : List Char) (limit : Nat) : Except CompileError Automaton :=
  (Cursor.start text limit).parse

/-- The deterministic automaton of an automaton, with its faults as errors of compilation. -/
def determinize (A : Automaton) : Except CompileError Dfa := (Dfa.ofAutomaton A).mapError .invalid

/-- The deterministic automaton of a pattern. -/
def compileDfa (text : List Char) (limit : Nat) : Except CompileError Dfa := do
  determinize (← compile text limit)

/-- A pattern with both of its automata. -/
structure Pattern where
  text : String
  nfa : Automaton
  dfa : Dfa
deriving DecidableEq

/-- Compiles a pattern with the default limit. -/
def Pattern.ofString (text : String) : Except CompileError Pattern := do
  let nfa ← compile text.toList defaultLimit
  let dfa ← determinize nfa
  return ⟨text, nfa, dfa⟩

end PatternAutomata
