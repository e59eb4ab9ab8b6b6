import PatternAutomata.Proofs.Automaton.Bounded
import PatternAutomata.Proofs.Automaton.Layout
import PatternAutomata.Proofs.Obtainable

/-!
# What joined automata are made of

Concatenation and union move their operands apart and put them together without touching them. The
states of the result are those of the two copies and the new ones, which are different from all of
these. An edge lies within a copy and has the symbols that it has there, or it is a wire between
different parts. So nothing of an operand is lost, and no two edges become one. State numbers of 64
bits make no difference to this as long as the numbers of the result fit.
-/

namespace PatternAutomata

namespace Transitions

variable {t u v : Transitions} {p q : State} {labels : Labels} {l : List Edge}

def Apart (t u : Transitions) : Prop := ∀ p q, t.labels? p q = none ∨ u.labels? p q = none

theorem Apart.labels?_union (h : t.Apart u) : (t.union u).labels? p q = some labels ↔
    t.labels? p q = some labels ∨ u.labels? p q = some labels := by
  rw [Transitions.labels?_union]
  cases h p q with
  | inl h => simp [h]
  | inr h => simp [h]

end Transitions

theorem StateSet.size_shift (k : Nat) (s : StateSet) : (s.shift k).size = s.size := by
  have hdistinct : (s.toList.map (· + k)).Pairwise fun p q => ¬compare p q = .eq := by
    simpa [List.pairwise_map] using s.distinct_toList
  rw [shift_eq_ofList, Std.ExtTreeSet.size_ofList hdistinct, List.length_map,
    Std.ExtTreeSet.length_toList]

namespace Automaton

variable {A B C : Automaton} {i j : Nat} {p q start left right final entry : State}
  {labels : Labels} {fresh : List State} {wire : State → State → Prop} {l : List Edge}

theorem size_shift (k : Nat) (A : Automaton) : (A.shift k).size = A.size := A.states.size_shift k

namespace WellFormed

theorem labels?_eq_none (hA : A.WellFormed) (h : p ∉ A.states ∨ q ∉ A.states) :
    A.edges.labels? p q = none := by
  by_contra hne
  have hsome : (A.edges.labels? p q).isSome := Option.isSome_iff_ne_none.2 hne
  have hp := hA.ends_mem p (Transitions.mem_endpoints.2 ⟨⟨p, q⟩, hsome, .inl rfl⟩)
  have hq := hA.ends_mem q (Transitions.mem_endpoints.2 ⟨⟨p, q⟩, hsome, .inr rfl⟩)
  exact h.elim (· hp) (· hq)

theorem apart (hA : A.WellFormed) (hB : B.WellFormed) (h : ∀ q ∈ A.states, q ∉ B.states) :
    A.edges.Apart B.edges := by
  intro p q
  by_cases hp : p ∈ A.states
  · exact .inr (hB.labels?_eq_none (.inl (h p hp)))
  · exact .inl (hA.labels?_eq_none (.inl hp))

end WellFormed

/-- `C` consists of `A` moved up by `i`, of `B` moved up by `j`, of fresh states, and of wires that
carry the empty word alone. -/
structure Comprises (C A B : Automaton) (i j : Nat) (fresh : List State)
    (wire : State → State → Prop) : Prop where
  apart : ∀ q ∈ (A.shift i).states, q ∉ (B.shift j).states
  nodup_fresh : fresh.Nodup
  fresh_apart : ∀ q ∈ fresh, q ∉ (A.shift i).states ∧ q ∉ (B.shift j).states
  mem_states_iff : ∀ q, q ∈ C.states ↔
    q ∈ (A.shift i).states ∨ q ∈ (B.shift j).states ∨ q ∈ fresh
  labels?_eq_some_iff : ∀ p q labels, C.labels? p q = some labels ↔
    (A.shift i).labels? p q = some labels ∨ (B.shift j).labels? p q = some labels ∨
      wire p q ∧ labels = {.epsilon}
  alphabet_eq : C.alphabet = A.alphabet ∪ B.alphabet

theorem Comprises.size_eq (h : C.Comprises A B i j fresh wire) :
    C.size = A.size + B.size + fresh.length := by
  have hstates : C.states = (A.shift i).states ∪ (B.shift j).states ∪ .ofList fresh := by
    apply Std.ExtTreeSet.ext_mem
    intro q
    rw [h.mem_states_iff, Std.ExtTreeSet.mem_union_iff, Std.ExtTreeSet.mem_union_iff,
      Ordered.mem_ofList, or_assoc]
  have hfresh : ∀ q ∈ (A.shift i).states ∪ (B.shift j).states, q ∉ (.ofList fresh : StateSet) := by
    intro q hq hmem
    have hapart := h.fresh_apart q (Ordered.mem_ofList.1 hmem)
    rcases Std.ExtTreeSet.mem_union_iff.1 hq with hq | hq
    · exact hapart.1 hq
    · exact hapart.2 hq
  have hdistinct : fresh.Pairwise fun p q => ¬compare p q = .eq := by
    simpa [List.Nodup] using h.nodup_fresh
  calc C.size = ((A.shift i).states ∪ (B.shift j).states ∪ .ofList fresh : StateSet).size := by
        rw [size, hstates]
    _ = (A.shift i).size + (B.shift j).size + fresh.length := by
        rw [Std.ExtTreeSet.size_union_of_not_mem hfresh,
          Std.ExtTreeSet.size_union_of_not_mem h.apart, Std.ExtTreeSet.size_ofList hdistinct, size,
          size]
    _ = A.size + B.size + fresh.length := by rw [size_shift, size_shift]

end Automaton

end PatternAutomata
