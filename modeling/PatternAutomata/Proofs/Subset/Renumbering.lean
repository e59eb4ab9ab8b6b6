import PatternAutomata.Proofs.Automaton.Renumbering
import PatternAutomata.Proofs.Subset.Comparison

/-!
# Numbers do not matter

A renumbered automaton has the same paths, so its runs are the renumbered runs. It tells the same
words apart and accepts the same words; therefore its deterministic form has the same states and the
same edges, and the sets behind the states are the renumbered ones.
-/

namespace PatternAutomata

namespace StateSet

variable {s t : StateSet} {k : Nat}

theorem shift_inj : s.shift k = t.shift k ↔ s = t := by
  constructor
  · intro h
    apply Std.ExtTreeSet.ext_mem
    intro q
    have hq : q + k ∈ s.shift k ↔ q + k ∈ t.shift k := by rw [h]
    simpa using hq
  · intro h
    rw [h]

theorem shift_eq_empty_iff : s.shift k = ∅ ↔ s = ∅ := by
  have hempty : (∅ : StateSet).shift k = ∅ := by
    apply Std.ExtTreeSet.ext_mem
    intro q
    simp
  rw [← hempty, shift_inj, hempty]

end StateSet

namespace Automaton

variable {A : Automaton} {k : Nat} {w : List Char}

theorem run_shift : (A.shift k).run w = (A.run w).shift k := by
  apply Std.ExtTreeSet.ext_mem
  intro q
  rw [mem_run, StateSet.mem_shift]
  constructor
  · intro h
    obtain ⟨s, hs, hpath⟩ := h
    obtain ⟨a, ha, rfl⟩ := Option.map_eq_some_iff.1 hs
    obtain ⟨p, hp, hpath⟩ := hpath.of_shift
    exact ⟨p, mem_run.2 ⟨a, ha, hpath⟩, hp⟩
  · intro h
    obtain ⟨p, hp, rfl⟩ := h
    obtain ⟨a, ha, hpath⟩ := mem_run.1 hp
    exact ⟨a + k, start_shift ha, hpath.shift k⟩

theorem accepts_shift : (A.shift k).accepts w = A.accepts w := by
  have hlanguage : w ∈ (A.shift k).language ↔ w ∈ A.language := by rw [language_shift]
  rw [Bool.eq_iff_iff]
  exact hlanguage

theorem mirrors_shift (A : Automaton) (k : Nat) : A.Mirrors (A.shift k) where
  run_eq_iff v w := by rw [run_shift, run_shift, StateSet.shift_inj]
  run_eq_empty_iff w := by rw [run_shift, StateSet.shift_eq_empty_iff]
  accepts_eq _ := accepts_shift.symm

end Automaton

/-- Renumbering an automaton renumbers the states of its runs. What is accepted and the
deterministic form stay the same, but for the numbers in the sets behind the states. -/
theorem renumbering_invisible {A : Automaton} (hA : A.Obtainable) (k : Nat) :
    (∀ w, (A.shift k).run w = (A.run w).shift k ∧ (A.shift k).accepts w = A.accepts w) ∧
      (A.start.isSome → ∃ D E, determinize A = .ok D ∧ determinize (A.shift k) = .ok E ∧
        E.automaton = D.automaton ∧ ∀ q, E.subset? q = (D.subset? q).map (StateSet.shift k)) := by
  constructor
  · intro w
    exact ⟨Automaton.run_shift, Automaton.accepts_shift⟩
  · intro hstart
    obtain ⟨start, hs⟩ := Option.isSome_iff_exists.1 hstart
    have hmirrors := A.mirrors_shift k
    obtain ⟨D, _, hD, h⟩ := Dfa.exists_presents hA.wellFormed hs
    obtain ⟨E, _, hE, h'⟩ :=
      Dfa.exists_presents (hA.wellFormed.shift k) (Automaton.start_shift (k := k) hs)
    have hautomaton : E.automaton = D.automaton := by
      have halphabet : (A.shift k).alphabet = D.automaton.alphabet := h.alphabet_eq.symm
      rw [h.automaton_eq h' hmirrors, halphabet]
    refine ⟨D, E, determinize_eq_ok hD, determinize_eq_ok hE, hautomaton, ?_⟩
    intro q
    exact h.subset?_eq_map h' hmirrors fun _ => Automaton.run_shift

theorem renumbering_invisible_tangle :
    (∀ w, (Automaton.tangle.shift 3).run w = (Automaton.tangle.run w).shift 3 ∧
        (Automaton.tangle.shift 3).accepts w = Automaton.tangle.accepts w) ∧
      ∃ D E, determinize .tangle = .ok D ∧ determinize (Automaton.tangle.shift 3) = .ok E ∧
        E.automaton = D.automaton ∧ ∀ q, E.subset? q = (D.subset? q).map (StateSet.shift 3) := by
  have h := renumbering_invisible Automaton.obtainable_tangle 3
  exact ⟨h.1, h.2 rfl⟩

end PatternAutomata
