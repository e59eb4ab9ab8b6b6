import PatternAutomata.Automaton.Basic

/-!
# Building automata from smaller ones

Concatenation, union and alternation renumber their operands upwards so that no two of them share a
state, and join them by edges with the empty word. Iteration adds such edges and no states. An
operand without a start state is refused.
-/

namespace PatternAutomata.Automaton

def ofSymbol (a : Symbol) : Automaton :=
  (((∅ : Automaton).setStart 1).addFinals [2]).addSymbol 1 2 a

def emptyWord : Automaton := ofSymbol .epsilon

/-- The least shift that brings every state above `floor`. -/
def shiftAbove (A : Automaton) (floor : State) : Except Fault Nat :=
  return floor + 1 - (← A.minState)

/-- Refuses two automata unless all states of the first are below all states of the second. -/
def checkBelow (A B : Automaton) : Except Fault Unit := do
  let top ← A.maxState
  let bottom ← B.minState
  if bottom ≤ top then throw (.overlap top bottom)

/-- `A` followed by `B`, both where they are: the finals of `A` are wired to a state of `B`. -/
def followedBy (A B : Automaton) (entry : State) : Automaton :=
  { A.absorb (B.addEdges (.wires (A.finals.toList.map (Edge.mk · entry)))) with
    finals := B.finals }

/-- Accepts a word of `A` followed by a word of `B`: the finals of `A` lead to the start of `B`. -/
def concat (A B : Automaton) : Except Fault Automaton := do
  let _ ← A.startState
  let B := B.shift (← B.shiftAbove (← A.maxState))
  A.checkBelow B
  return A.followedBy B (← B.startState)

/-- `A` and `B` where they are, between a new start and a new final state. -/
def fork (A B : Automaton) (start left right final : State) : Automaton :=
  (((A.absorb B).addEdges (.wires ([⟨start, left⟩, ⟨start, right⟩] ++
    (A.finals ∪ B.finals).toList.map (Edge.mk · final)))).setStart start).setFinals {final}

/-- Puts two automata side by side: a new start just below them leads to both starts, and all finals
lead to a new final state just above. -/
def parallel (A B : Automaton) : Except Fault Automaton := do
  A.checkBelow B
  let left ← A.startState
  let right ← B.startState
  let start := (← A.minState) - 1
  let final := (← B.maxState) + 1
  return A.fork B start left right final

/-- Accepts the words of `A` and those of `B`. The shift of `A` leaves room for the new start. -/
def union (A B : Automaton) : Except Fault Automaton := do
  let A := A.shift 1
  A.parallel (B.shift (← B.shiftAbove (← A.maxState)))

/-- A branch of an alternation with its least state, then how far the union of it with the branches
after it is moved up, and the greatest state of this union before that. -/
structure Slot where
  branch : Automaton
  least : State
  shift : Nat
  top : State

/-- The slots of `A` and of the branches after it, if their union is moved up by `s`. The shifts add
up on the way to the last branch: what comes after a branch lies above it, with room for its own new
start. The greatest states follow on the way back. -/
def slots (s : Nat) (A : Automaton) : List Automaton → Except Fault (Slot × List Slot)
  | [] => return (⟨A, ← A.minState, s, ← A.maxState⟩, [])
  | B :: rest => do
    let least ← A.minState
    let gap := (← A.maxState) + 2 - (← B.minState)
    let (inner, later) ← slots (s + gap) B rest
    return (⟨A, least, s, inner.top + gap + 1⟩, inner :: later)

/-- The start of `A`, which has to lie above all that has been taken in, if anything has. -/
def entryAbove (R A : Automaton) : Except Fault State := do
  unless R.isEmpty do R.checkBelow A
  A.startState

/-- Takes the branches into `R` one after another, each of them renumbered once, and then wires
their unions from the innermost outwards. The result comes with the start and the finals of the
outermost union. -/
def assemble (R : Automaton) (slot : Slot) :
    List Slot → Except Fault (Automaton × State × StateSet)
  | [] => do
    let A := slot.branch.shift slot.shift
    let entry ← R.entryAbove A
    return (R.absorb A, entry, A.finals)
  | next :: later => do
    let A := slot.branch.shift (slot.shift + 1)
    let entry ← R.entryAbove A
    let (whole, inner, finals) ← (R.absorb A).assemble next later
    let start := slot.least + slot.shift
    let final := slot.top + slot.shift
    let wires := [⟨start, entry⟩, ⟨start, inner⟩] ++
      (A.finals.toList ++ finals.toList).map (Edge.mk · final)
    return (whole.addEdges (.wires wires), start, {final})

/-- Accepts the words of every branch. A single branch stays as it is. Several branches are put
together as by unions nested to the right, but without renumbering any branch more than once. -/
def alternation : List Automaton → Except Fault Automaton
  | [] => .error .noBranches
  | [A] => .ok A
  | A :: B :: rest => do
    let (slot, later) ← slots 0 A (B :: rest)
    let (whole, start, finals) ← (∅ : Automaton).assemble slot later
    return (whole.setStart start).setFinals finals

/-- Lets every final state stand for the start and the start for every final state. -/
def star (A : Automaton) : Except Fault Automaton := do
  let start ← A.startState
  return A.addEdges (.wires (A.finals.toList.flatMap fun q => [⟨start, q⟩, ⟨q, start⟩]))

end PatternAutomata.Automaton
