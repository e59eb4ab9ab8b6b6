import PatternAutomata.Automaton.Basic

/-!
# States reachable without input

The closure of some states adds every state that edges with the empty word lead to, step by step.
The search keeps the states it has seen and those still pending. It ends because every state that it
puts on the pending list stands for an edge out of a state not seen before.

The same states can be found one at a time with a stack. A turn takes the top state off. If it was
not reached before, it is reached now, and what edges with the empty word lead to from it goes on
the stack, except for states that are reached already. A state can stand on the stack more than
once. The search ends when the stack is empty.
-/

namespace PatternAutomata

namespace Automaton

def edgesOutside (A : Automaton) (seen : StateSet) : Nat :=
  A.edges.toList.countP fun e => e.1.source ∉ seen

theorem edgesOutside_insert {A : Automaton} {q : State} {seen : StateSet} (hq : q ∉ seen) :
    A.edgesOutside (seen.insert q) + A.edges.toList.countP (·.1.source = q) =
      A.edgesOutside seen := by
  unfold edgesOutside
  induction A.edges.toList with
  | nil => rfl
  | cons e l ih => by_cases he : e.1.source = q <;> grind [Ordered.mem_insert]

/-- Adds to the states seen every state that the pending ones reach without input. -/
def closureFrom (A : Automaton) (seen : StateSet) : List State → StateSet
  | [] => seen
  | q :: pending =>
    if seen.contains q then A.closureFrom seen pending
    else A.closureFrom (seen.insert q) (A.edges.targetList q .epsilon ++ pending)
termination_by pending => A.edgesOutside seen + pending.length
decreasing_by
  · exact Nat.lt_succ_self _
  · have hq : q ∉ seen := by simpa using ‹¬seen.contains q›
    have := edgesOutside_insert (A := A) hq
    have := A.edges.length_targetList_le q .epsilon
    simp only [List.length_append, List.length_cons]
    omega

/-- The given states and all that edges with the empty word lead to from them. A state that the
automaton does not have is kept. -/
def closure (A : Automaton) (seeds : List State) : StateSet := A.closureFrom ∅ seeds

theorem mem_of_mem_closureFrom {A : Automaton} {seen : StateSet} {pending : List State} {q : State}
    (h : q ∈ A.closureFrom seen pending) : q ∈ seen ∨ q ∈ pending ∨ q ∈ A.edges.endpoints := by
  fun_induction closureFrom A seen pending with
  | case1 => exact .inl h
  | case2 seen p pending hp ih => exact (ih h).imp_right (.imp_left (.tail _))
  | case3 seen p pending hp ih =>
    rcases ih h with h | h | h
    · rcases Ordered.mem_insert.1 h with rfl | h
      · exact .inr (.inl (.head _))
      · exact .inl h
    · rcases List.mem_append.1 h with h | h
      · have h := Transitions.mem_targetList.1 h
        exact .inr (.inr (Transitions.mem_endpoints_of_mem_targets h))
      · exact .inr (.inl (.tail _ h))
    · exact .inr (.inr h)

theorem mem_of_mem_closure {A : Automaton} {seeds : List State} {q : State}
    (h : q ∈ A.closure seeds) : q ∈ seeds ∨ q ∈ A.edges.endpoints := by
  simpa using mem_of_mem_closureFrom h

end Automaton

structure Search where
  reached : StateSet
  stack : List State

namespace Search

/-- All given states are on the stack, the last one on top. -/
def initial (seeds : List State) : Search := ⟨∅, seeds.reverse⟩

/-- Reaches `q`, and puts on the stack what it leads to. -/
def visit (S : Search) (A : Automaton) (q : State) : Search :=
  let reached := S.reached.insert q
  let fresh := (A.edges.targetList q .epsilon).filter (!reached.contains ·)
  ⟨reached, fresh.reverse ++ S.stack⟩

/-- Takes the top state off the stack, if there is one. -/
def turn? (S : Search) (A : Automaton) : Option Search :=
  match S.stack with
  | [] => none
  | q :: stack =>
    let rest : Search := { S with stack }
    some (if S.reached.contains q then rest else rest.visit A q)

inductive Ends (A : Automaton) : Search → Nat → Search → Prop
  | done {S : Search} : S.turn? A = none → Ends A S 0 S
  | turn {S T U : Search} {n : Nat} : S.turn? A = some T → Ends A T n U → Ends A S (n + 1) U

end Search

end PatternAutomata
