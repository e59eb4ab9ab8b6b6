import PatternAutomata.Automaton.Closure

/-!
# Running an automaton on a word

A run keeps the set of all states in which the automaton can be. Reading a character closes the set
without input, follows the edges that carry the character, and closes again. An empty set stays
empty, so a run can also stop there.
-/

namespace PatternAutomata.Automaton

def follow (A : Automaton) (s : StateSet) (a : Symbol) : StateSet :=
  .ofList (s.toList.flatMap fun p => A.edges.targetList p a)

/-- The states that reading `c` leads to, with edges that carry the empty word before and after. -/
def move (A : Automaton) (s : StateSet) (c : Char) : StateSet :=
  A.closure (A.follow (A.closure s.toList) (.char c)).toList

/-- The states in which the automaton can be after the word; none without a start state. -/
def run (A : Automaton) (w : List Char) : StateSet :=
  match A.start with
  | none => ∅
  | some q => w.foldl A.move (A.closure [q])

/-- Reads a word from a set of states on, and stops once the set is empty. -/
def advance (A : Automaton) (s : StateSet) : List Char → StateSet
  | [] => s
  | c :: w =>
    let t := A.move s c
    if t.isEmpty then t else A.advance t w

/-- The same run, but what is left of the word is not read when no state is left. -/
def runUntilEmpty (A : Automaton) (w : List Char) : StateSet :=
  match A.start with
  | none => ∅
  | some q => A.advance (A.closure [q]) w

def isAccepting (A : Automaton) (s : StateSet) : Bool := Ordered.meets s A.finals

def accepts (A : Automaton) (w : List Char) : Bool := A.isAccepting (A.run w)

@[simp] theorem mem_follow {A : Automaton} {s : StateSet} {a : Symbol} {q : State} :
    q ∈ A.follow s a ↔ ∃ p ∈ s, q ∈ A.targets p a := by
  rw [follow, Ordered.mem_ofList, List.mem_flatMap]
  simp [targets]

@[simp] theorem isAccepting_iff {A : Automaton} {s : StateSet} :
    A.isAccepting s ↔ ∃ q ∈ s, q ∈ A.finals :=
  Ordered.meets_iff

theorem mem_endpoints_of_mem_move {A : Automaton} {s : StateSet} {c : Char} {q : State}
    (h : q ∈ A.move s c) : q ∈ A.edges.endpoints := by
  rcases mem_of_mem_closure h with h | h
  · obtain ⟨p, _, hq⟩ := mem_follow.1 (Std.ExtTreeSet.mem_toList.1 h)
    exact Transitions.mem_endpoints_of_mem_targets hq
  · exact h

theorem run_append_singleton (A : Automaton) (w : List Char) (c : Char) (hA : A.start.isSome) :
    A.run (w ++ [c]) = A.move (A.run w) c := by
  obtain ⟨q, hq⟩ := Option.isSome_iff_exists.1 hA
  simp [run, hq]

end PatternAutomata.Automaton
