import PatternAutomata.Proofs.Grammar.Fragment
import PatternAutomata.Proofs.Subset.Numbering
import PatternAutomata.Pattern

/-!
# Automata that can be obtained

An automaton is obtained by naming states and edges, by an operation on automata obtained before, by
reading a pattern, or by making one deterministic. All of them are well-formed, whatever the numbers
of their states are and whether or not they have a start state. Hence what is known of the
operations on well-formed automata holds for all automata that can be obtained.
-/

namespace PatternAutomata

theorem eq_ok_of_mapError {ε ε' α : Type} {x : Except ε α} {f : ε → ε'} {a : α}
    (h : x.mapError f = .ok a) : x = .ok a := by
  cases x with
  | error e => cases h
  | ok b =>
    cases h
    rfl

namespace Automaton

/-- The automata that any sequence of edits, operations, readings and determinizations leads to. -/
inductive Obtainable : Automaton → Prop
  | ofAlphabet (alphabet : Alphabet) : Obtainable (ofAlphabet alphabet)
  | setStart {A : Automaton} (q : State) : Obtainable A → Obtainable (A.setStart q)
  | addFinals {A : Automaton} (l : List State) : Obtainable A → Obtainable (A.addFinals l)
  | addTransition {A : Automaton} (p q : State) (labels : Labels) :
      Obtainable A → Obtainable (A.addTransition p q labels)
  | addSymbol {A : Automaton} (p q : State) (a : Symbol) :
      Obtainable A → Obtainable (A.addSymbol p q a)
  | addEpsilon {A : Automaton} (p q : State) : Obtainable A → Obtainable (A.addEpsilon p q)
  | addEdges {A : Automaton} (t : Transitions) : Obtainable A → Obtainable (A.addEdges t)
  | shift {A : Automaton} (k : Nat) : Obtainable A → Obtainable (A.shift k)
  | ofSymbol (a : Symbol) : Obtainable (ofSymbol a)
  | emptyWord : Obtainable emptyWord
  | concat {A B C : Automaton} :
      Obtainable A → Obtainable B → A.concat B = .ok C → Obtainable C
  | union {A B C : Automaton} :
      Obtainable A → Obtainable B → A.union B = .ok C → Obtainable C
  | alternation {l : List Automaton} {C : Automaton} :
      (∀ A ∈ l, Obtainable A) → alternation l = .ok C → Obtainable C
  | star {A C : Automaton} : Obtainable A → A.star = .ok C → Obtainable C
  | produce {c : Cursor} {p : Production} {A : Automaton} :
      (c.produce p).1 = .ok A → Obtainable A
  | parse {c : Cursor} {A : Automaton} : c.parse = .ok A → Obtainable A
  | compile {text : List Char} {limit : Nat} {A : Automaton} :
      compile text limit = .ok A → Obtainable A
  | determinize {A : Automaton} {D : Dfa} :
      Obtainable A → determinize A = .ok D → Obtainable D.automaton

variable {A : Automaton}

namespace WellFormed

theorem parse {c : Cursor} (h : c.parse = .ok A) : A.WellFormed := by
  unfold Cursor.parse at h
  split at h
  · cases h
  · next r _ =>
    obtain ⟨B, _, _, hB, hrealizes, -⟩ := r.exists_build
    rw [hB] at h
    cases h
    exact hrealizes.wellFormed
  · cases h

theorem accept {τ : Type} {c : Cursor} {build : τ → Except Fault Automaton} {reading : Reading τ}
    (hbuild : ∀ x, ∃ A, build x = .ok A ∧ A.WellFormed)
    (h : (c.accept build reading).1 = .ok A) : A.WellFormed := by
  cases reading with
  | error e => cases h
  | ok x =>
    obtain ⟨B, hB, hwf⟩ := hbuild x.1
    rw [eq_ok_of_mapError h] at hB
    cases hB
    exact hwf

theorem produce {c : Cursor} {p : Production} (h : (c.produce p).1 = .ok A) : A.WellFormed := by
  cases p with
  | base =>
    refine accept (fun b => ?_) h
    obtain ⟨B, _, _, hB, hrealizes, -⟩ := b.exists_build
    exact ⟨B, hB, hrealizes.wellFormed⟩
  | factor =>
    refine accept (fun f => ?_) h
    obtain ⟨B, _, _, hB, hrealizes, -⟩ := f.exists_build
    exact ⟨B, hB, hrealizes.wellFormed⟩
  | term =>
    refine accept (fun t => ?_) h
    obtain ⟨B, _, _, hB, hrealizes, -⟩ := t.exists_build
    exact ⟨B, hB, hrealizes.wellFormed⟩
  | regex =>
    refine accept (fun r => ?_) h
    obtain ⟨B, _, _, hB, hrealizes, -⟩ := r.exists_build
    exact ⟨B, hB, hrealizes.wellFormed⟩

theorem determinize {D : Dfa} (h : determinize A = .ok D) : D.automaton.WellFormed := by
  have hD : Dfa.ofAutomaton A = .ok D := eq_ok_of_mapError h
  obtain ⟨start, hstart, -⟩ := exists_ok_of_bind hD
  obtain ⟨D', hD', hdet⟩ := Dfa.determinizes_ofAutomaton (startState_eq_ok_iff.1 hstart)
  rw [hD] at hD'
  cases hD'
  exact hdet.wellFormed

end WellFormed

theorem Obtainable.wellFormed (h : A.Obtainable) : A.WellFormed := by
  induction h with
  | ofAlphabet alphabet => exact .ofAlphabet alphabet
  | setStart q _ ih => exact ih.setStart q
  | addFinals l _ ih => exact ih.addFinals l
  | addTransition p q labels _ ih => exact ih.addEdges _
  | addSymbol p q a _ ih => exact ih.addEdges _
  | addEpsilon p q _ ih => exact ih.addEdges _
  | addEdges t _ ih => exact ih.addEdges t
  | shift k _ ih => exact ih.shift k
  | ofSymbol a => exact .ofSymbol a
  | emptyWord => exact .ofSymbol .epsilon
  | concat _ _ h ihA ihB => exact ihA.concat ihB h
  | union _ _ h ihA ihB => exact ihA.union ihB h
  | alternation _ h ih => exact .alternation ih h
  | star _ h ih => exact ih.star h
  | produce h => exact .produce h
  | parse h => exact .parse h
  | compile h => exact .parse h
  | determinize _ h _ => exact .determinize h

/-- A concatenation accepts a word exactly when the word can be cut into a word that the one operand
accepts and a word that the other accepts. -/
theorem concat_accepts_iff {A B : Automaton} (hA : A.Obtainable) (hB : B.Obtainable)
    (hleft : A.start.isSome) (hright : B.start.isSome) :
    ∃ C, A.concat B = .ok C ∧ ∀ w, C.accepts w ↔ ∃ u v, w = u ++ v ∧ A.accepts u ∧ B.accepts v := by
  obtain ⟨C, hC, hlang⟩ := exists_concat hA.wellFormed hB.wellFormed hleft hright
  refine ⟨C, hC, fun w => ?_⟩
  rw [← mem_language, hlang, Language.mem_mul]
  constructor
  · rintro ⟨u, hu, v, hv, rfl⟩
    exact ⟨u, v, rfl, hu, hv⟩
  · rintro ⟨u, v, rfl, hu, hv⟩
    exact ⟨u, hu, v, hv, rfl⟩

theorem obtainable_backward : backward.Obtainable :=
  (((Obtainable.ofAlphabet ∅).setStart 0).addFinals [0, 3]).addSymbol 3 0 (.char 'a')

/-- Two final states with edges in both directions. It accepts `b`, `ba`, `bab` and so on, and the
empty word. -/
def roundTrip : Automaton := backward.addSymbol 0 3 (.char 'b')

theorem obtainable_roundTrip : roundTrip.Obtainable := obtainable_backward.addSymbol 0 3 (.char 'b')

/-- Both operands have the same states, a final start, and an edge that leads from a final state
into the start. -/
theorem concat_accepts_iff_roundTrip :
    ∃ C, roundTrip.concat roundTrip = .ok C ∧
      ∀ w, C.accepts w ↔ ∃ u v, w = u ++ v ∧ roundTrip.accepts u ∧ roundTrip.accepts v :=
  concat_accepts_iff obtainable_roundTrip obtainable_roundTrip rfl rfl

/-- A union accepts what one of its operands accepts. -/
theorem union_accepts_iff {A B : Automaton} (hA : A.Obtainable) (hB : B.Obtainable)
    (hleft : A.start.isSome) (hright : B.start.isSome) :
    ∃ C, A.union B = .ok C ∧ ∀ w, C.accepts w ↔ A.accepts w ∨ B.accepts w := by
  obtain ⟨C, hC, hlang⟩ := exists_union hA.wellFormed hB.wellFormed hleft hright
  refine ⟨C, hC, fun w => ?_⟩
  rw [← mem_language, hlang, Language.mem_add, mem_language, mem_language]

/-- Accepts `c` and its repetitions. -/
def repetition : Automaton :=
  ((((∅ : Automaton).setStart 0).addFinals [5]).addSymbol 0 5 (.char 'c')).addEpsilon 5 0

theorem obtainable_repetition : repetition.Obtainable :=
  ((((Obtainable.ofAlphabet ∅).setStart 0).addFinals [5]).addSymbol 0 5 (.char 'c')).addEpsilon 5 0

/-- The state `0` is the start of both operands and on a cycle in each of them. -/
theorem union_accepts_iff_roundTrip :
    ∃ C, roundTrip.union repetition = .ok C ∧
      ∀ w, C.accepts w ↔ roundTrip.accepts w ∨ repetition.accepts w :=
  union_accepts_iff obtainable_roundTrip obtainable_repetition rfl rfl

/-- An alternation succeeds exactly when the unions nested to the right do, with the same result.
The states of the branches may have any numbers, and branches may lack finals or a start. -/
theorem alternation_eq_ok_iff_nestedUnion {rest : List Automaton}
    (h : ∀ B ∈ A :: rest, B.Obtainable) (C : Automaton) :
    alternation (A :: rest) = .ok C ↔ nestedUnion A rest = .ok C := by
  cases rest with
  | nil => exact Iff.rfl
  | cons B rest =>
    have heq (hstart : ∀ X ∈ A :: B :: rest, X.start.isSome) :
        alternation (A :: B :: rest) = nestedUnion A (B :: rest) := by
      apply alternation_eq_nestedUnion
      intro X hX
      exact ⟨(h X hX).wellFormed, hstart X hX⟩
    constructor
    · intro hC
      rw [← heq (start_isSome_of_alternation hC)]
      exact hC
    · intro hC
      rw [heq (start_isSome_of_nestedUnion hC)]
      exact hC

/-- A branch with the state `0`, no finals and an edge without symbols, one with a gap between its
states and two finals, and one character. -/
theorem alternation_eq_ok_iff_nestedUnion_gaps :
    ∃ C, alternation [((∅ : Automaton).setStart 0).addTransition 0 7 ∅,
        ((∅ : Automaton).setStart 3).addFinals [3, 9], ofSymbol (.char 'a')] = .ok C ∧
      nestedUnion (((∅ : Automaton).setStart 0).addTransition 0 7 ∅)
        [((∅ : Automaton).setStart 3).addFinals [3, 9], ofSymbol (.char 'a')] = .ok C := by
  have hA := ((Obtainable.ofAlphabet ∅).setStart 0).addTransition 0 7 ∅
  have hB := ((Obtainable.ofAlphabet ∅).setStart 3).addFinals [3, 9]
  have hok : (alternation [((∅ : Automaton).setStart 0).addTransition 0 7 ∅,
      ((∅ : Automaton).setStart 3).addFinals [3, 9], ofSymbol (.char 'a')]).isOk := by
    decide +kernel
  cases hC : alternation [((∅ : Automaton).setStart 0).addTransition 0 7 ∅,
      ((∅ : Automaton).setStart 3).addFinals [3, 9], ofSymbol (.char 'a')] with
  | error e =>
    rw [hC] at hok
    cases hok
  | ok C =>
    refine ⟨C, rfl, (alternation_eq_ok_iff_nestedUnion ?_ C).1 hC⟩
    intro X hX
    simp only [List.mem_cons, List.not_mem_nil, or_false] at hX
    rcases hX with rfl | rfl | rfl
    · exact hA
    · exact hB
    · exact .ofSymbol _

end Automaton

end PatternAutomata
