import PatternAutomata.Automaton.Operations

/-!
# The grammar of patterns

A pattern is an alternation of terms, a term a sequence of factors, a factor a base followed by any
number of stars, and a base a character, an escaped character or a group. The trees below are the
derivations of this grammar; `text` spells the pattern that a tree derives.

Each node of a tree stands for one operation on automata. A character gives one edge, a star
iterates, a term is concatenated from the left onto the automaton of the empty word, and the
branches of a pattern are joined all at once.
-/

namespace PatternAutomata

/-- The characters with a meaning of their own; an escape gives them up. -/
def isOperator (c : Char) : Bool :=
  c == '(' || c == ')' || c == '*' || c == '|' || c == '\\'

mutual

/-- A character that is no operator, an escaped character, or a pattern in parentheses. -/
inductive Base where
  | plain (c : Char)
  | escaped (c : Char)
  | group (r : Regex)

inductive Factor where
  | once (b : Base)
  | star (f : Factor)

inductive Term where
  | empty
  | snoc (t : Term) (f : Factor)

inductive Regex where
  | single (t : Term)
  | alt (t : Term) (r : Regex)

end

def Term.isEmpty : Term → Bool
  | empty => true
  | snoc _ _ => false

mutual

def Base.text : Base → List Char
  | .plain c => [c]
  | .escaped c => ['\\', c]
  | .group r => '(' :: r.text ++ [')']

def Factor.text : Factor → List Char
  | .once b => b.text
  | .star f => f.text ++ ['*']

def Term.text : Term → List Char
  | .empty => []
  | .snoc t f => t.text ++ f.text

def Regex.text : Regex → List Char
  | .single t => t.text
  | .alt t r => t.text ++ '|' :: r.text

end

mutual

def Base.build : Base → Except Fault Automaton
  | .plain c => .ok (.ofSymbol (.char c))
  | .escaped c => .ok (.ofSymbol (.char c))
  | .group r => do Automaton.alternation (← r.branches)

def Factor.build : Factor → Except Fault Automaton
  | .once b => b.build
  | .star f => do (← f.build).star

def Term.build : Term → Except Fault Automaton
  | .empty => .ok .emptyWord
  | .snoc t f => do (← t.build).concat (← f.build)

def Regex.branches : Regex → Except Fault (List Automaton)
  | .single t => return [← t.build]
  | .alt t r => return (← t.build) :: (← r.branches)

end

def Regex.build (r : Regex) : Except Fault Automaton := do
  Automaton.alternation (← r.branches)

end PatternAutomata
