import PatternAutomata.Subset.Dfa

/-!
# Working off a queue of sets

The deterministic automaton can also be built while its sets are found. A queue holds the sets that
are still to be expanded, each with its number. A turn takes the first one out and tries every
character on it: a move that leads somewhere gives an edge, and if it leads to a set without a
number, then this set gets the next number and goes to the end of the queue. The work ends when the
queue is empty. It also keeps a record of the sets that went into the queue and of those that were
expanded.
-/

namespace PatternAutomata

/-- What there is between two turns. The sets that went into the queue and those that were taken out
of it are recorded in order. -/
structure Worklist where
  numbers : Std.ExtTreeMap (List State) State
  automaton : Automaton
  queue : List (State × StateSet)
  queued : List StateSet
  expanded : List StateSet

namespace Worklist

/-- Gives a set the next number and puts it at the end of the queue. -/
def enqueue (W : Worklist) (A : Automaton) (s : StateSet) : Worklist :=
  let q := W.numbers.size + 1
  { numbers := W.numbers.insert s.toList q
    automaton := if A.isAccepting s then W.automaton.addFinals [q] else W.automaton
    queue := W.queue ++ [(q, s)]
    queued := W.queued ++ [s]
    expanded := W.expanded }

/-- No set has a number yet, but the first number is the start. -/
def blank (A : Automaton) : Worklist :=
  ⟨∅, (Automaton.ofAlphabet A.alphabet).setStart 1, [], [], []⟩

def initial (A : Automaton) (start : State) : Worklist :=
  (blank A).enqueue A (A.closure [start])

/-- Puts a character on the edge from one number to another. -/
def draw (W : Worklist) (p q : State) (c : Char) : Worklist :=
  { W with automaton := W.automaton.addSymbol p q (.char c) }

def visit (A : Automaton) (p : State) (s : StateSet) (W : Worklist) (c : Char) : Worklist :=
  let t := A.move s c
  if t.isEmpty then W
  else
    match W.numbers[t.toList]? with
    | some q => W.draw p q c
    | none => (W.draw p (W.numbers.size + 1) c).enqueue A t

/-- Expands the first set of the queue, if there is one. -/
def turn? (W : Worklist) (A : Automaton) : Option Worklist :=
  match W.queue with
  | [] => none
  | (p, s) :: queue =>
    some (A.alphabet.toList.foldl (visit A p s) { W with queue, expanded := W.expanded ++ [s] })

/-- After so many turns the work has ended. -/
inductive Ends (A : Automaton) : Worklist → Nat → Worklist → Prop
  | done {W : Worklist} : W.turn? A = none → Ends A W 0 W
  | turn {W V T : Worklist} {n : Nat} :
      W.turn? A = some V → Ends A V n T → Ends A W (n + 1) T

def dfa (W : Worklist) : Dfa where
  automaton := W.automaton
  subsets := .ofList (W.numbers.toList.map fun e => (e.2, Std.ExtTreeSet.ofList e.1))

end Worklist

end PatternAutomata
