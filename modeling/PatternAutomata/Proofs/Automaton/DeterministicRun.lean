import PatternAutomata.Proofs.Automaton.Determinism
import PatternAutomata.Proofs.Obtainable

/-!
# Runs of deterministic automata

The test for determinism reads the symbols of a whole row of edges, but what it finds out can be
said of single states and symbols: without input no edge leads anywhere, and a character leads from
a state to one state at most. Then a word has at most one path from a state, and no run is ever in
two states.
-/

namespace PatternAutomata.Automaton

variable {A : Automaton} {p q r : State} {w : List Char}

theorem isDeterministic_iff_targets (hA : A.WellFormed) : A.isDeterministic ↔
    ∀ p ∈ A.states, A.targets p .epsilon = ∅ ∧ ∀ c, (A.targets p (.char c)).size ≤ 1 := by
  have htable : A.isDeterministic ↔ _ := Transitions.isDeterministic_iff
  rw [htable]
  constructor
  · intro h p _
    have hp := h p
    constructor
    · exact Std.ExtTreeSet.eq_empty_iff_forall_not_mem.2 hp.1
    · intro c
      apply Ordered.size_le_one_iff.2
      intro q hq r hr
      exact hp.2 q r (.char c) hq hr
  · intro h p
    have hepsilon (q : State) : q ∉ A.targets p .epsilon := by
      intro hq
      rw [(h p (hA.source_mem hq)).1] at hq
      exact Std.ExtTreeSet.not_mem_empty hq
    refine ⟨hepsilon, ?_⟩
    intro q r a hq hr
    cases a with
    | epsilon => exact absurd hq (hepsilon q)
    | char c =>
      have hsize := (h p (hA.source_mem hq)).2 c
      exact Ordered.size_le_one_iff.1 hsize q hq r hr

/-- A deterministic automaton has at most one path for a word. -/
theorem Path.eq_of_isDeterministic (h : A.isDeterministic) (hq : A.Path p w q)
    (hr : A.Path p w r) : q = r := by
  have hsteps := Transitions.isDeterministic_iff.1 h
  have hepsilon (s t : State) : t ∉ A.targets s .epsilon := (hsteps s).1 t
  induction hq with
  | nil p => exact (hr.eq_of_no_epsilon hepsilon).symm
  | @cons p s q a w he _ ih =>
    cases a with
    | epsilon => exact absurd he (hepsilon p s)
    | char c =>
      -- The second path cannot move before its first character, and so it takes the same edge.
      obtain ⟨p', s', hp, he', hrest⟩ := hr.exists_char
      rw [hp.eq_of_no_epsilon hepsilon] at he'
      rw [(hsteps p).2 s' s (.char c) he' he] at hrest
      exact ih hrest

theorem size_run_le_one (h : A.isDeterministic) (w : List Char) : (A.run w).size ≤ 1 := by
  apply Ordered.size_le_one_iff.2
  intro q hq r hr
  obtain ⟨s, hs, hpath⟩ := mem_run.1 hq
  obtain ⟨t, ht, hpath'⟩ := mem_run.1 hr
  rw [hs, Option.some.injEq] at ht
  subst ht
  exact hpath.eq_of_isDeterministic h hpath'

/-- The test for determinism is exact, and where it passes a run is in at most one state. -/
theorem isDeterministic_exact (hA : A.Obtainable) :
    (A.isDeterministic ↔
      ∀ p ∈ A.states, A.targets p .epsilon = ∅ ∧ ∀ c, (A.targets p (.char c)).size ≤ 1) ∧
    (A.isDeterministic → ∀ w, (A.run w).size ≤ 1) :=
  ⟨isDeterministic_iff_targets hA.wellFormed, size_run_le_one⟩

/-- Two characters on one edge, the way back with one of them, and an edge without symbols. -/
def zigzag : Automaton :=
  ((((∅ : Automaton).setStart 0).addTransition 0 5 {.char 'a', .char 'b'}).addSymbol 5 0
    (.char 'a')).addTransition 0 9 ∅

theorem obtainable_zigzag : zigzag.Obtainable := by
  have hedge := ((Obtainable.ofAlphabet ∅).setStart 0).addTransition 0 5 {.char 'a', .char 'b'}
  exact (hedge.addSymbol 5 0 (.char 'a')).addTransition 0 9 ∅

theorem isDeterministic_exact_zigzag : zigzag.isDeterministic ∧
    (∀ p ∈ zigzag.states,
      zigzag.targets p .epsilon = ∅ ∧ ∀ c, (zigzag.targets p (.char c)).size ≤ 1) ∧
    ∀ w, (zigzag.run w).size ≤ 1 := by
  have h := isDeterministic_exact obtainable_zigzag
  have hzigzag : zigzag.isDeterministic := by decide +kernel
  exact ⟨hzigzag, h.1.1 hzigzag, h.2 hzigzag⟩

end PatternAutomata.Automaton
