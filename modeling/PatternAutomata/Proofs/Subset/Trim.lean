import PatternAutomata.Proofs.Grammar.Compilation
import PatternAutomata.Proofs.Grammar.Trim
import PatternAutomata.Proofs.Subset.Canonical

/-!
# No dead ends

The deterministic automaton of a trim automaton is trim. A word leads to each of its states, and
after that word the original automaton has a state left, so the word can be continued to an accepted
one. Compiled patterns have trim automata, and therefore no dead ends in either form.
-/

namespace PatternAutomata

namespace Dfa

variable {A : Automaton} {D : Dfa} {q start : State} {w : List Char}

namespace Determinizes

/-- A word that leads to a state leads to no other, and the original automaton has a state left. -/
theorem run_of_walk (h : D.Determinizes A (A.closure [start])) (hA : A.WellFormed)
    (hstart : A.start = some start) (hw : D.walk w = some q) :
    D.automaton.run w = {q} ∧ A.run w ≠ ∅ := by
  have htracks := h.tracks_run hA hstart w
  rw [hw] at htracks
  generalize D.automaton.run w = t at htracks
  cases htracks with
  | held _ hne => exact ⟨rfl, hne⟩

theorem accessible_of_walk (h : D.Determinizes A (A.closure [start])) (hA : A.WellFormed)
    (hstart : A.start = some start) (hw : D.walk w = some q) : D.automaton.Accessible q := by
  have hq : q ∈ D.automaton.run w := by
    rw [(h.run_of_walk hA hstart hw).1]
    exact Ordered.mem_singleton.2 rfl
  obtain ⟨s, hs, hpath⟩ := Automaton.mem_run.1 hq
  exact ⟨s, w, hs, hpath⟩

/-- After the word the original automaton can go on to accept, and the deterministic one with it. -/
theorem coaccessible_of_walk (h : D.Determinizes A (A.closure [start])) (hA : A.Trim)
    (hstart : A.start = some start) (hw : D.walk w = some q) : D.automaton.Coaccessible q := by
  obtain ⟨hrun, hne⟩ := h.run_of_walk hA.wellFormed hstart hw
  obtain ⟨v, hv⟩ := (hA.run_ne_empty_iff w).1 hne
  have haccepts : D.automaton.accepts (w ++ v) = A.accepts (w ++ v) :=
    h.isAccepting_eq (h.tracks_run hA.wellFormed hstart (w ++ v))
  obtain ⟨s, f, hs, hf, hpath⟩ := Automaton.accepts_iff.1 (haccepts ▸ hv)
  obtain ⟨r, hr, hrest⟩ := hpath.split
  have hmem : r ∈ D.automaton.run w := Automaton.mem_run.2 ⟨s, hs, hr⟩
  rw [hrun] at hmem
  rw [← Ordered.mem_singleton.1 hmem]
  exact ⟨f, v, hf, hrest⟩

end Determinizes

/-- Determinization keeps an automaton trim. -/
theorem exists_trim (hA : A.Trim) : ∃ D, ofAutomaton A = .ok D ∧ D.automaton.Trim := by
  obtain ⟨start, hstart⟩ := Option.isSome_iff_exists.1 hA.start_isSome
  obtain ⟨D, hD, hdet⟩ := determinizes_ofAutomaton hstart
  obtain ⟨D', found, hD', hnumbers⟩ := exists_numbers hA.wellFormed hstart
  rw [hD] at hD'
  cases hD'
  have hwalk : ∀ q ∈ D.automaton.states, ∃ w, D.walk w = some q := by
    intro q hq
    obtain ⟨w, hw⟩ := hnumbers.canonical.exists_leastWord q hq
    exact ⟨w, hw.walk_eq⟩
  refine ⟨D, hD, hdet.wellFormed, by rw [hdet.start_eq]; rfl, fun q hq => ?_, fun q hq => ?_⟩
  · obtain ⟨w, hw⟩ := hwalk q hq
    exact hdet.accessible_of_walk hA.wellFormed hstart hw
  · obtain ⟨w, hw⟩ := hwalk q hq
    exact hdet.coaccessible_of_walk hA hstart hw

end Dfa

variable {p : List Char} {n : Nat} {A : Automaton}

theorem trim_of_compile (h : compile p n = .ok A) : A.Trim := by
  obtain ⟨r, -, hA⟩ := exists_derives_of_compile h
  exact Regex.trim_of_build hA

theorem exists_trim_compileDfa (h : compile p n = .ok A) :
    ∃ D, compileDfa p n = .ok D ∧ D.automaton.Trim := by
  obtain ⟨D, hD, htrim⟩ := Dfa.exists_trim (trim_of_compile h)
  refine ⟨D, ?_, htrim⟩
  simp only [compileDfa, determinize, h, hD, bind, Except.bind, Except.mapError]

/-- The automata of a pattern have no dead ends: each state of the first lies on a path from the
start to a final state, it has a state left exactly after the beginnings of accepted words, and each
state of the deterministic one leads to a final state. -/
theorem compile_no_dead_ends (h : compile p n = .ok A) :
    (∀ q ∈ A.states, ∃ s f u v, A.start = some s ∧ f ∈ A.finals ∧ A.Path s u q ∧ A.Path q v f) ∧
      (∀ w, A.run w ≠ ∅ ↔ ∃ v, A.accepts (w ++ v)) ∧
      ∃ D, compileDfa p n = .ok D ∧
        ∀ q ∈ D.automaton.states, ∃ f v, f ∈ D.automaton.finals ∧ D.automaton.Path q v f := by
  have htrim := trim_of_compile h
  obtain ⟨D, hD, hDtrim⟩ := exists_trim_compileDfa h
  exact ⟨fun q hq => htrim.exists_path hq, htrim.run_ne_empty_iff, D, hD, hDtrim.coaccessible⟩

theorem compile_no_dead_ends_nestedStars :
    ∃ A, compile ['(', 'a', 'b', '*', ')', '*'] 1 = .ok A ∧
      (∀ q ∈ A.states, ∃ s f u v,
        A.start = some s ∧ f ∈ A.finals ∧ A.Path s u q ∧ A.Path q v f) ∧
      (∀ w, A.run w ≠ ∅ ↔ ∃ v, A.accepts (w ++ v)) ∧
      ∃ D, compileDfa ['(', 'a', 'b', '*', ')', '*'] 1 = .ok D ∧
        ∀ q ∈ D.automaton.states, ∃ f v, f ∈ D.automaton.finals ∧ D.automaton.Path q v f := by
  obtain ⟨A, -, hA⟩ := exists_build_of_derives nestedStars_derives
  exact ⟨A, hA, compile_no_dead_ends hA⟩

end PatternAutomata
