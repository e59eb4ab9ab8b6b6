import PatternAutomata.Subset.Exploration

/-!
# Deterministic automata from sets of states

Each set of states that a word can lead to becomes one state. The states are numbered from one in
the order in which the search meets their sets. A character that leads nowhere has no edge.
-/

namespace PatternAutomata

/-- An automaton with the set of states of another automaton behind each of its own. -/
structure Dfa where
  automaton : Automaton
  subsets : Std.ExtTreeMap State StateSet
deriving DecidableEq

namespace Dfa

instance : Inhabited Dfa := ⟨∅, ∅⟩

/-- The number of each set: its place among the rows, counted from one. -/
def numbering (rows : List Row) : Std.ExtTreeMap (List State) State :=
  .ofList ((rows.zipIdx 1).map fun r => (r.1.subset.toList, r.2))

/-- The automaton whose states are the rows, over the alphabet and with the finals of `A`. -/
def ofRows (A : Automaton) (rows : List Row) : Dfa :=
  let numbered := rows.zipIdx 1
  let numbers := numbering rows
  { automaton := {
      states := .ofList (numbered.map Prod.snd)
      alphabet := A.alphabet
      start := some 1
      finals := .ofList ((numbered.filter fun r => A.isAccepting r.1.subset).map Prod.snd)
      edges := .ofList (numbered.flatMap fun r => r.1.moves.filterMap fun m =>
        numbers[m.2.toList]?.map fun q => (⟨r.2, q⟩, {.char m.1})) }
    subsets := .ofList (numbered.map fun r => (r.2, r.1.subset)) }

/-- Follows all words at once from the start of `A`. -/
def ofAutomaton (A : Automaton) : Except Fault Dfa := do
  let initial := A.closure [← A.startState]
  return ofRows A (A.explore (.add ∅ [initial]) [initial])

def subset? (D : Dfa) (q : State) : Option StateSet := D.subsets[q]?

def next? (D : Dfa) (q : State) (c : Char) : Option State :=
  Ordered.least? (D.automaton.targets q (.char c))

end Dfa

end PatternAutomata
