import PatternAutomata.Automaton.Transitions
import PatternAutomata.Error

/-!
# Finite automata

One type holds both automata whose edges may carry the empty word and deterministic ones. It is
edited by naming states and edges: whatever state is named joins the states, and whatever character
is put on an edge joins the alphabet. Every way to add edges is an instance of `addEdges`.
-/

namespace PatternAutomata

/-- A graph of states with symbols on its edges, an optional start state and final states. The
characters of the alphabet need not all be used on edges. -/
structure Automaton where
  states : StateSet
  alphabet : Alphabet
  start : Option State
  finals : StateSet
  edges : Transitions
deriving DecidableEq

namespace Automaton

def ofAlphabet (alphabet : Alphabet) : Automaton := ⟨∅, alphabet, none, ∅, ∅⟩

instance : EmptyCollection Automaton := ⟨ofAlphabet ∅⟩

instance : Inhabited Automaton := ⟨∅⟩

/-- Replaces the start state; an earlier one stays among the states. -/
def setStart (A : Automaton) (q : State) : Automaton :=
  { A with start := some q, states := A.states.insert q }

def addFinals (A : Automaton) (l : List State) : Automaton :=
  { A with finals := A.finals ∪ .ofList l, states := A.states ∪ .ofList l }

/-- Replaces the final states; earlier ones stay among the states. -/
def setFinals (A : Automaton) (s : StateSet) : Automaton :=
  { A with finals := s, states := A.states ∪ s }

/-- Adds every edge of a table, with its ends and its characters. -/
def addEdges (A : Automaton) (t : Transitions) : Automaton :=
  { A with
    states := A.states ∪ t.endpoints
    alphabet := A.alphabet ∪ t.chars
    edges := A.edges.union t }

/-- Adds symbols to one edge, which comes into being even if there are none to add. -/
def addTransition (A : Automaton) (p q : State) (labels : Labels) : Automaton :=
  A.addEdges (.ofEdge p q labels)

def addSymbol (A : Automaton) (p q : State) (a : Symbol) : Automaton := A.addTransition p q {a}

def addEpsilon (A : Automaton) (p q : State) : Automaton := A.addSymbol p q .epsilon

/-- Takes in the states, alphabet and edges of another automaton, but not its start and finals. -/
def absorb (A B : Automaton) : Automaton :=
  { A with
    states := A.states ∪ B.states
    alphabet := A.alphabet ∪ B.alphabet
    edges := A.edges.union B.edges }

def shift (A : Automaton) (k : Nat) : Automaton where
  states := A.states.shift k
  alphabet := A.alphabet
  start := A.start.map (· + k)
  finals := A.finals.shift k
  edges := A.edges.shift k

def labels? (A : Automaton) (p q : State) : Option (Labels) := A.edges.labels? p q

/-- Where one edge that leaves `p` and carries `a` leads. -/
def targets (A : Automaton) (p : State) (a : Symbol) : StateSet := A.edges.targets p a

def isFinal (A : Automaton) (q : State) : Bool := A.finals.contains q

def size (A : Automaton) : Nat := A.states.size

def isEmpty (A : Automaton) : Bool := A.states.isEmpty

/-- Whether no state is left by an edge with the empty word or by two edges with one character. -/
def isDeterministic (A : Automaton) : Bool := A.edges.isDeterministic

def minState (A : Automaton) : Except Fault State :=
  match Ordered.least? A.states with
  | some q => .ok q
  | none => .error .noStates

def maxState (A : Automaton) : Except Fault State :=
  match Ordered.greatest? A.states with
  | some q => .ok q
  | none => .error .noStates

def startState (A : Automaton) : Except Fault State :=
  match A.start with
  | some q => .ok q
  | none => .error .noStart

theorem mem_targets {A : Automaton} {p q : State} {a : Symbol} :
    q ∈ A.targets p a ↔ ∃ labels, A.labels? p q = some labels ∧ a ∈ labels :=
  Transitions.mem_targets

@[simp] theorem mem_targets_addEdges {A : Automaton} {t : Transitions} {p q : State} {a : Symbol} :
    q ∈ (A.addEdges t).targets p a ↔ q ∈ A.targets p a ∨ q ∈ t.targets p a :=
  Transitions.mem_targets_union

@[simp] theorem mem_targets_addTransition {A : Automaton} {labels : Labels}
    {p q p' q' : State} {a : Symbol} : q ∈ (A.addTransition p' q' labels).targets p a ↔
      q ∈ A.targets p a ∨ p = p' ∧ q = q' ∧ a ∈ labels := by
  simp [addTransition]

@[simp] theorem mem_targets_absorb {A B : Automaton} {p q : State} {a : Symbol} :
    q ∈ (A.absorb B).targets p a ↔ q ∈ A.targets p a ∨ q ∈ B.targets p a :=
  Transitions.mem_targets_union

theorem mem_targets_shift {A : Automaton} {k p q : State} {a : Symbol} :
    q ∈ (A.shift k).targets p a ↔ ∃ p' q', p' + k = p ∧ q' + k = q ∧ q' ∈ A.targets p' a :=
  Transitions.mem_targets_shift

@[simp] theorem targets_setStart {A : Automaton} {p q : State} {a : Symbol} :
    (A.setStart q).targets p a = A.targets p a := rfl

@[simp] theorem targets_addFinals {A : Automaton} {l : List State} {p : State} {a : Symbol} :
    (A.addFinals l).targets p a = A.targets p a := rfl

@[simp] theorem targets_setFinals {A : Automaton} {s : StateSet} {p : State} {a : Symbol} :
    (A.setFinals s).targets p a = A.targets p a := rfl

@[simp] theorem isFinal_iff {A : Automaton} {q : State} : A.isFinal q ↔ q ∈ A.finals := by
  simp [isFinal]

end Automaton

end PatternAutomata
