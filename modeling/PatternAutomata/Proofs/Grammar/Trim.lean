import PatternAutomata.Proofs.Automaton.Trim
import PatternAutomata.Proofs.Grammar.Fragment

/-!
# The automata of trees are trim

Every state of the automaton of a tree lies on a path from the start to the final state. One edge is
trim, and each node of a tree stands for an operation that keeps automata trim.
-/

namespace PatternAutomata

namespace Automaton

theorem mem_states_ofSymbol {a : Symbol} {q : State} :
    q ∈ (ofSymbol a).states ↔ q = 1 ∨ q = 2 := by
  have hempty : q ∉ (∅ : Automaton).states := Std.ExtTreeSet.not_mem_empty
  simp only [ofSymbol, addSymbol, addTransition, addEdges, addFinals, setStart,
    Std.ExtTreeSet.mem_union_iff, Ordered.mem_insert, Ordered.mem_ofList,
    Transitions.mem_endpoints_ofEdge]
  simp [hempty]

theorem trim_ofSymbol (a : Symbol) : (ofSymbol a).Trim := by
  have hrealizes := realizes_ofSymbol a
  have hpath : (ofSymbol a).Path 1 a.word 2 := by
    rw [← mem_between, between_ofSymbol]
    rfl
  have hstart : (ofSymbol a).Accessible 1 := accessible_start hrealizes.start_eq
  have hfinal : (ofSymbol a).Coaccessible 2 := coaccessible_final hrealizes.final_mem
  refine ⟨hrealizes.wellFormed, hrealizes.isSome_start, fun q hq => ?_, fun q hq => ?_⟩
  · rcases mem_states_ofSymbol.1 hq with rfl | rfl
    · exact hstart
    · exact hstart.path hpath
  · rcases mem_states_ofSymbol.1 hq with rfl | rfl
    · exact hfinal.path hpath
    · exact hfinal

end Automaton

variable {A : Automaton}

mutual

theorem Base.trim_of_build : ∀ {b : Base} {A : Automaton}, b.build = .ok A → A.Trim
  | .plain c, A, h => by
    cases h
    exact Automaton.trim_ofSymbol (.char c)
  | .escaped c, A, h => by
    cases h
    exact Automaton.trim_ofSymbol (.char c)
  | .group r, A, h => by
    obtain ⟨l, hl, hA⟩ := exists_ok_of_bind h
    exact .alternation (Regex.trim_of_branches hl) hA

theorem Factor.trim_of_build : ∀ {f : Factor} {A : Automaton}, f.build = .ok A → A.Trim
  | .once b, A, h => Base.trim_of_build (b := b) h
  | .star f, A, h => by
    obtain ⟨B, hB, hA⟩ := exists_ok_of_bind h
    exact (Factor.trim_of_build hB).star hA

theorem Term.trim_of_build : ∀ {t : Term} {A : Automaton}, t.build = .ok A → A.Trim
  | .empty, A, h => by
    cases h
    exact Automaton.trim_ofSymbol .epsilon
  | .snoc t f, A, h => by
    obtain ⟨B, hB, h⟩ := exists_ok_of_bind h
    obtain ⟨C, hC, hA⟩ := exists_ok_of_bind h
    exact (Term.trim_of_build hB).concat (Factor.trim_of_build hC) hA

theorem Regex.trim_of_branches : ∀ {r : Regex} {l : List Automaton}, r.branches = .ok l →
    ∀ A ∈ l, A.Trim
  | .single t, l, h => by
    obtain ⟨B, hB, hl⟩ := exists_ok_of_bind h
    cases hl
    intro A hA
    rw [List.mem_singleton.1 hA]
    exact Term.trim_of_build hB
  | .alt t r, l, h => by
    obtain ⟨B, hB, h⟩ := exists_ok_of_bind h
    obtain ⟨rest, hrest, hl⟩ := exists_ok_of_bind h
    cases hl
    exact List.forall_mem_cons.2 ⟨Term.trim_of_build hB, Regex.trim_of_branches hrest⟩

end

theorem Regex.trim_of_build {r : Regex} (h : r.build = .ok A) : A.Trim := by
  obtain ⟨l, hl, hA⟩ := exists_ok_of_bind h
  exact .alternation (Regex.trim_of_branches hl) hA

end PatternAutomata
