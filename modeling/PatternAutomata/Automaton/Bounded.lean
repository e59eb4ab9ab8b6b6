import PatternAutomata.Automaton.Operations

/-!
# State numbers of 64 bits

A state number takes up 64 bits, and a sum that does not fit starts again at zero. The operations
that add to state numbers stand here as they run on such numbers. They renumber an operand by a
function on states, which is no shift if it carries some states over the greatest number and others
not. Where all sums fit, they are the operations on natural numbers.
-/

namespace PatternAutomata

def StateSet.rename (f : State → State) (s : StateSet) : StateSet :=
  s.foldl (fun t p => t.insert (f p)) ∅

def Transitions.rename (f : State → State) (t : Transitions) : Transitions where
  bySource := Ordered.mapKeys f (Ordered.mapKeys f id) t.bySource
  exits_nonempty p := by
    intro h
    obtain ⟨q, row, hrow, hempty⟩ := Ordered.exists_of_getElem?_mapKeys h
    rw [Ordered.mapKeys_eq_empty_iff] at hempty
    exact t.exits_nonempty q (hempty ▸ hrow)

namespace Automaton

def rename (f : State → State) (A : Automaton) : Automaton where
  states := A.states.rename f
  alphabet := A.alphabet
  start := A.start.map f
  finals := A.finals.rename f
  edges := A.edges.rename f

namespace Bounded

def add (p k : Nat) : Nat := (p + k) % UInt64.size

/-- The number before `p`; the greatest number is before zero. -/
def pred (p : Nat) : Nat := add p (UInt64.size - 1)

def shift (A : Automaton) (k : Nat) : Automaton := A.rename (add · k)

/-- The shift is taken to be zero if the automaton begins above `floor` already. -/
def shiftAbove (A : Automaton) (floor : State) : Except Fault Nat :=
  return add floor 1 - (← A.minState)

def concat (A B : Automaton) : Except Fault Automaton := do
  let _ ← A.startState
  let B := shift B (← shiftAbove B (← A.maxState))
  A.checkBelow B
  return A.followedBy B (← B.startState)

def parallel (A B : Automaton) : Except Fault Automaton := do
  A.checkBelow B
  let left ← A.startState
  let right ← B.startState
  let start := pred (← A.minState)
  let final := add (← B.maxState) 1
  return A.fork B start left right final

def union (A B : Automaton) : Except Fault Automaton := do
  let A := shift A 1
  parallel A (shift B (← shiftAbove B (← A.maxState)))

def slots (s : Nat) (A : Automaton) : List Automaton → Except Fault (Slot × List Slot)
  | [] => return (⟨A, ← A.minState, s, ← A.maxState⟩, [])
  | B :: rest => do
    let least ← A.minState
    let gap := add (← A.maxState) 2 - (← B.minState)
    let (inner, later) ← slots (add s gap) B rest
    return (⟨A, least, s, add (add inner.top gap) 1⟩, inner :: later)

def assemble (R : Automaton) (slot : Slot) :
    List Slot → Except Fault (Automaton × State × StateSet)
  | [] => do
    let A := shift slot.branch slot.shift
    let entry ← R.entryAbove A
    return (R.absorb A, entry, A.finals)
  | next :: later => do
    let A := shift slot.branch (add slot.shift 1)
    let entry ← R.entryAbove A
    let (whole, inner, finals) ← assemble (R.absorb A) next later
    let start := add slot.least slot.shift
    let final := add slot.top slot.shift
    let wires := [⟨start, entry⟩, ⟨start, inner⟩] ++
      (A.finals.toList ++ finals.toList).map (Edge.mk · final)
    return (whole.addEdges (.wires wires), start, {final})

def alternation : List Automaton → Except Fault Automaton
  | [] => .error .noBranches
  | [A] => .ok A
  | A :: B :: rest => do
    let (slot, later) ← slots 0 A (B :: rest)
    let (whole, start, finals) ← assemble ∅ slot later
    return (whole.setStart start).setFinals finals

end Bounded

end Automaton

end PatternAutomata
