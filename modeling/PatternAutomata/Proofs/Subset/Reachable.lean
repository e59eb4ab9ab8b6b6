import PatternAutomata.Proofs.Automaton.Trim
import PatternAutomata.Proofs.Subset.Comparison

/-!
# Only what can be reached matters

Two automata may differ in states that cannot be reached, in characters that stand on no edge and in
edges without symbols. As long as they agree on the states that the start leads to, they have the
same paths from there, so every word leads to the same states. Their searches may try different
characters, but those that only one of them knows lead nowhere; the sets that are found, and the
order in which they are found, are the same.
-/

namespace PatternAutomata

namespace Automaton

variable {A B : Automaton} {p q s : State} {w : List Char}

/-- The automata have the same start, and no difference between them shows at a state that can be
reached. -/
structure AgreesWith (A B : Automaton) : Prop where
  start_eq : A.start = B.start
  targets_eq : ∀ p, A.Accessible p → ∀ a, A.targets p a = B.targets p a
  mem_finals_iff : ∀ p, A.Accessible p → (p ∈ A.finals ↔ p ∈ B.finals)

namespace AgreesWith

variable (h : A.AgreesWith B)

include h

theorem path_iff (hp : A.Accessible p) : A.Path p w q ↔ B.Path p w q := by
  constructor
  · intro hpath
    apply hpath.carry (P := A.Accessible) _ hp
    intro p a hp q hq
    exact ⟨hp.target hq, h.targets_eq p hp a ▸ hq⟩
  · intro hpath
    apply hpath.carry (P := A.Accessible) _ hp
    intro p a hp q hq
    rw [← h.targets_eq p hp a] at hq
    exact ⟨hp.target hq, hq⟩

theorem run_eq (w : List Char) : B.run w = A.run w := by
  apply Std.ExtTreeSet.ext_mem
  intro q
  rw [mem_run, mem_run, ← h.start_eq]
  apply exists_congr
  intro s
  apply and_congr_right
  intro hs
  exact (h.path_iff (accessible_start hs)).symm

theorem accepts_eq (w : List Char) : B.accepts w = A.accepts w := by
  rw [Bool.eq_iff_iff, accepts, accepts, h.run_eq w, isAccepting_iff, isAccepting_iff]
  apply exists_congr
  intro q
  apply and_congr_right
  intro hq
  obtain ⟨s, hs, hpath⟩ := mem_run.1 hq
  exact (h.mem_finals_iff q ((accessible_start hs).path hpath)).symm

theorem mirrors : A.Mirrors B where
  run_eq_iff v w := by rw [h.run_eq v, h.run_eq w]
  run_eq_empty_iff w := by rw [h.run_eq w]
  accepts_eq w := (h.accepts_eq w).symm

end AgreesWith

end Automaton

theorem Dfa.subsets_eq {D E : Dfa} (h : ∀ q, E.subset? q = D.subset? q) : E.subsets = D.subsets :=
  Std.ExtTreeMap.ext_getElem? fun {q} => h q

/-- States that cannot be reached, characters on no edge and edges without symbols make no
difference to runs. They make none to the deterministic form either, but for the alphabet, which is
taken over. -/
theorem unreachable_parts_invisible {A B : Automaton} (hA : A.Obtainable) (hB : B.Obtainable)
    (h : A.AgreesWith B) :
    (∀ w, B.run w = A.run w ∧ B.accepts w = A.accepts w) ∧
      (A.start.isSome → ∃ D E, determinize A = .ok D ∧ determinize B = .ok E ∧
        E.subsets = D.subsets ∧ E.automaton = { D.automaton with alphabet := B.alphabet }) := by
  constructor
  · intro w
    exact ⟨h.run_eq w, h.accepts_eq w⟩
  · intro hstart
    obtain ⟨start, hs⟩ := Option.isSome_iff_exists.1 hstart
    obtain ⟨D, _, hD, hpresents⟩ := Dfa.exists_presents hA.wellFormed hs
    obtain ⟨E, _, hE, hpresents'⟩ := Dfa.exists_presents hB.wellFormed (h.start_eq ▸ hs)
    refine ⟨D, E, determinize_eq_ok hD, determinize_eq_ok hE, ?_, ?_⟩
    · apply Dfa.subsets_eq
      intro q
      have hsubset := hpresents.subset?_eq_map hpresents' h.mirrors (f := id) (q := q) h.run_eq
      simpa using hsubset
    · exact hpresents.automaton_eq hpresents' h.mirrors

namespace Automaton

/-- The tangle with a state that cannot be reached, from which an edge leads into it, and with an
edge without symbols to that state. -/
def litter : Automaton :=
  ((tangle.addFinals [7]).addSymbol 7 4 (.char 'z')).addTransition 4 7 ∅

theorem obtainable_litter : litter.Obtainable := by
  have hstate := (obtainable_tangle.addFinals [7]).addSymbol 7 4 (.char 'z')
  exact hstate.addTransition 4 7 ∅

theorem ne_seven_of_accessible (h : tangle.Accessible p) : p ≠ 7 := by
  obtain ⟨s, w, hs, hpath⟩ := h
  have hends : 7 ∉ tangle.edges.endpoints := by decide +kernel
  apply hpath.mem_of_closed (P := (· ≠ 7))
  · rintro p a - q hq rfl
    exact hends (Transitions.mem_endpoints_of_mem_targets hq)
  · cases hs
    decide

theorem agreesWith_litter : tangle.AgreesWith litter where
  start_eq := rfl
  targets_eq p hp a := by
    have hne := ne_seven_of_accessible hp
    apply Std.ExtTreeSet.ext_mem
    intro q
    simp [litter, addSymbol, hne]
  mem_finals_iff p hp := by
    have hne := ne_seven_of_accessible hp
    have hfinals : litter.finals = tangle.finals ∪ .ofList [7] := rfl
    rw [hfinals, Std.ExtTreeSet.mem_union_iff, Ordered.mem_ofList, List.mem_singleton,
      or_iff_left hne]

theorem unreachable_parts_invisible_litter :
    (∀ w, litter.run w = tangle.run w ∧ litter.accepts w = tangle.accepts w) ∧
      ∃ D E, determinize tangle = .ok D ∧ determinize litter = .ok E ∧
        E.subsets = D.subsets ∧ E.automaton = { D.automaton with alphabet := litter.alphabet } := by
  have h := unreachable_parts_invisible obtainable_tangle obtainable_litter agreesWith_litter
  exact ⟨h.1, h.2 rfl⟩

end Automaton

end PatternAutomata
