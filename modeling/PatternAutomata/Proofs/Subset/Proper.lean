import PatternAutomata.Proofs.Automaton.Determinism
import PatternAutomata.Proofs.Subset.Simulation

/-!
# Proper deterministic automata

The automaton of numbered sets is deterministic in the sense of the test, and it is partial: a
character that leads to no state has no edge. Each of its edges comes from moves, so it carries
characters only, and at least one. The edges between two states, and which states are final, can be
read off the sets behind the states.
-/

namespace PatternAutomata

namespace Dfa

/-- `D` is a partial deterministic automaton over the alphabet of `A`. Its states are the numbers of
its sets; they are joined as characters move their sets, and they are final as their sets meet the
finals of `A`. -/
structure Proper (D : Dfa) (A : Automaton) : Prop where
  isDeterministic : D.automaton.isDeterministic
  labelled : ∀ p q labels, D.automaton.labels? p q = some labels →
    (∃ a, a ∈ labels) ∧ ∀ a ∈ labels, ∃ c, a = .char c
  mem_states_iff : ∀ q, q ∈ D.automaton.states ↔ q ∈ D.subsets
  alphabet_eq : D.automaton.alphabet = A.alphabet
  mem_targets_iff : ∀ p q s t c, D.subset? p = some s → D.subset? q = some t →
    (q ∈ D.automaton.targets p (.char c) ↔ A.move s c ≠ ∅ ∧ A.move s c = t)
  mem_finals_iff : ∀ q s, D.subset? q = some s →
    (q ∈ D.automaton.finals ↔ ∃ f ∈ s, f ∈ A.finals)

variable {A : Automaton} {D : Dfa} {rows : List Row} {initial s t : StateSet} {p q : State}
  {c : Char}

theorem mem_subsets_iff : q ∈ D.subsets ↔ ∃ s, D.subset? q = some s := by
  rw [Std.ExtTreeMap.mem_iff_isSome_getElem?, Option.isSome_iff_exists]
  rfl

namespace Determinizes

/-- The set behind a state is moved by a symbol in one way, and one state stands for the result. -/
theorem isDeterministic (h : D.Determinizes A initial) (hA : A.WellFormed) :
    D.automaton.isDeterministic := by
  apply Transitions.isDeterministic_iff.2
  refine fun p => ⟨h.no_epsilon p, fun q r a hq hr => ?_⟩
  obtain ⟨c, s, rfl, -, hp, -, hsubset⟩ := h.mem_targets.1 hq
  obtain ⟨-, hsubset'⟩ := (h.mem_targets_char hA hp).1 hr
  exact h.injective hsubset hsubset'

theorem exists_char_of_mem (h : D.Determinizes A initial) {labels : Labels} {a : Symbol}
    (he : D.automaton.labels? p q = some labels) (ha : a ∈ labels) : ∃ c, a = .char c := by
  obtain ⟨c, _, hc, -⟩ := h.mem_targets.1 (Automaton.mem_targets.2 ⟨labels, he, ha⟩)
  exact ⟨c, hc⟩

theorem mem_targets_iff_move (h : D.Determinizes A initial) (hA : A.WellFormed)
    (hp : D.subset? p = some s) (hq : D.subset? q = some t) :
    q ∈ D.automaton.targets p (.char c) ↔ A.move s c ≠ ∅ ∧ A.move s c = t := by
  rw [h.mem_targets_char hA hp, hq, Option.some.injEq]
  exact and_congr_right fun _ => eq_comm

theorem mem_finals_iff_meets (h : D.Determinizes A initial) (hq : D.subset? q = some s) :
    q ∈ D.automaton.finals ↔ ∃ f ∈ s, f ∈ A.finals := by
  rw [h.mem_finals]
  constructor
  · rintro ⟨u, hu, haccepting⟩
    obtain rfl : s = u := Option.some.inj (hq.symm.trans hu)
    exact Automaton.isAccepting_iff.1 haccepting
  · intro hmeets
    exact ⟨s, hq, Automaton.isAccepting_iff.2 hmeets⟩

end Determinizes

/-- An edge is there because of a move, whose character it carries. -/
theorem labelled_ofRows (h : A.Explored initial rows) :
    (ofRows A rows).automaton.edges.Labelled := by
  rw [edges_ofRows]
  apply Transitions.labelled_ofList
  intro e he
  obtain ⟨c, _, hlabels, -⟩ := (mem_edgeList h).1 he
  exact ⟨.char c, hlabels ▸ Ordered.mem_singleton.2 rfl⟩

theorem proper_ofRows (hA : A.WellFormed) (h : A.Explored initial rows) :
    (ofRows A rows).Proper A where
  isDeterministic := (determinizes_ofRows h).isDeterministic hA
  labelled p q labels he :=
    ⟨labelled_ofRows h p q labels he, fun _ => (determinizes_ofRows h).exists_char_of_mem he⟩
  mem_states_iff q := by rw [mem_states_ofRows, mem_subsets_iff]
  alphabet_eq := rfl
  mem_targets_iff _ _ _ _ _ hp hq := (determinizes_ofRows h).mem_targets_iff_move hA hp hq
  mem_finals_iff _ _ hq := (determinizes_ofRows h).mem_finals_iff_meets hq

end Dfa

/-- Determinization gives a proper deterministic automaton, whatever the automaton is like. -/
theorem determinize_proper {N : Automaton} (hN : N.Obtainable) (hstart : N.start.isSome) :
    ∃ D, determinize N = .ok D ∧ D.Proper N := by
  obtain ⟨start, hs⟩ := Option.isSome_iff_exists.1 hstart
  have hexplored := N.explored_explore (N.closure [start])
  refine ⟨_, ?_, Dfa.proper_ofRows hN.wellFormed hexplored⟩
  rw [determinize, Dfa.ofAutomaton_eq hs]
  rfl

/-- Two characters on one edge and one of them on a loop as well, a cycle without input, an edge
without symbols, and a final start above the least state. -/
def Automaton.tangle : Automaton :=
  ((((((∅ : Automaton).setStart 4).addFinals [4]).addTransition 4 0
    {.char 'a', .char 'b'}).addEpsilon 0 4).addTransition 0 0 {.char 'a'}).addTransition 0 9 ∅

theorem Automaton.obtainable_tangle : tangle.Obtainable := by
  have hfinal := ((Obtainable.ofAlphabet ∅).setStart 4).addFinals [4]
  exact (((hfinal.addTransition 4 0 _).addEpsilon 0 4).addTransition 0 0 _).addTransition 0 9 _

theorem determinize_proper_tangle :
    ∃ D, determinize .tangle = .ok D ∧ D.Proper .tangle :=
  determinize_proper Automaton.obtainable_tangle rfl

end PatternAutomata
