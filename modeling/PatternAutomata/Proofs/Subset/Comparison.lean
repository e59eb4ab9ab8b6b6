import Mathlib.Data.List.Sort
import PatternAutomata.Proofs.Subset.Canonical
import PatternAutomata.Proofs.Subset.Proper

/-!
# Automata with the same deterministic form

The states of a deterministic automaton are numbered by the least words that lead to them. So all
that counts about the automaton it is made from is which words that one tells apart and which words
it accepts: if two automata agree in this, then the same words lead to the same numbers, and the
states, the finals and the edges are the same. A deterministic automaton tells the same words apart
as the automaton it was made from. Therefore it does not change when it is made deterministic again.
-/

namespace PatternAutomata

/-- The two automata tell the same words apart, and they accept the same words. -/
structure Automaton.Mirrors (A B : Automaton) : Prop where
  run_eq_iff : ∀ v w, A.run v = A.run w ↔ B.run v = B.run w
  run_eq_empty_iff : ∀ w, A.run w = ∅ ↔ B.run w = ∅
  accepts_eq : ∀ w, A.accepts w = B.accepts w

theorem Automaton.Mirrors.symm {A B : Automaton} (h : A.Mirrors B) : B.Mirrors A where
  run_eq_iff v w := (h.run_eq_iff v w).symm
  run_eq_empty_iff w := (h.run_eq_empty_iff w).symm
  accepts_eq w := (h.accepts_eq w).symm

namespace Dfa

/-- `D` is the deterministic automaton of `A`, and the search for it made the discoveries. -/
structure Presents (D : Dfa) (A : Automaton) (found : List Discovery) : Prop
    extends D.Numbers A found, D.Proper A where
  wellFormed : A.WellFormed
  exists_start : ∃ start, A.start = some start ∧ D.Determinizes A (A.closure [start])

variable {A B : Automaton} {D E : Dfa} {found found' : List Discovery} {p q : State} {c : Char}
  {v w : List Char}

theorem exists_presents {start : State} (hA : A.WellFormed) (hstart : A.start = some start) :
    ∃ D found, ofAutomaton A = .ok D ∧ D.Presents A found := by
  obtain ⟨D, found, hD, hnumbers⟩ := exists_numbers hA hstart
  have hexplored := A.explored_explore (A.closure [start])
  have hrows := ofAutomaton_eq hstart
  rw [hD, Except.ok.injEq] at hrows
  subst hrows
  exact ⟨_, found, hD, hnumbers, proper_ofRows hA hexplored, hA, start, hstart,
    determinizes_ofRows hexplored⟩

namespace Numbers

/-- The words of the discoveries are those that no word before them leads to the same set as. -/
theorem mem_words (h : D.Numbers A found) : w ∈ found.map Discovery.word ↔
    A.run w ≠ ∅ ∧ ∀ v, A.run v = A.run w → v = w ∨ List.Shortlex (· < ·) w v := by
  constructor
  · intro hw
    obtain ⟨d, hd, rfl⟩ := List.mem_map.1 hw
    obtain ⟨i, hi⟩ := List.mem_iff_getElem?.1 hd
    have hleast := h.leastWord hi
    have hsubset := h.walk_eq_some.1 hleast.walk_eq
    refine ⟨?_, fun v hv => hleast.least v (h.walk_eq_some.2 (hv ▸ hsubset))⟩
    rw [h.run_eq d hd]
    exact h.ne_empty d hd
  · rintro ⟨hne, hleast⟩
    obtain ⟨d, hd, hset, hle⟩ := h.first w hne
    rcases hleast d.word ((h.run_eq d hd).trans hset) with heq | hlt
    · exact List.mem_map.2 ⟨d, hd, heq⟩
    · exact absurd (rank_lt_iff.2 hlt) hle.not_gt

/-- Both searches come upon the same words, since increasing lists are known by their members. -/
theorem words_eq (h : D.Numbers A found) (h' : E.Numbers B found') (hAB : A.Mirrors B) :
    found.map Discovery.word = found'.map Discovery.word := by
  have : Std.Irrefl fun u v : List Char => rank u < rank v := ⟨fun _ => lt_irrefl _⟩
  have : Std.Antisymm fun u v : List Char => rank u < rank v :=
    ⟨fun _ _ huv hvu => absurd hvu huv.asymm⟩
  have hincreasing : (found.map Discovery.word).Pairwise fun u v => rank u < rank v :=
    List.pairwise_map.2 h.increasing
  apply hincreasing.eq_of_mem_iff (List.pairwise_map.2 h'.increasing)
  intro w
  simp only [h.mem_words, h'.mem_words, ne_eq, hAB.run_eq_iff, hAB.run_eq_empty_iff]

theorem walk_eq_some_of_mirrors (h : D.Numbers A found) (h' : E.Numbers B found')
    (hAB : A.Mirrors B) (hw : D.walk w = some q) : E.walk w = some q := by
  obtain ⟨i, d, rfl, hd, hset⟩ := h.subset?_eq_some.1 (h.walk_eq_some.1 hw)
  have hword : (found'.map Discovery.word)[i]? = some d.word := by
    rw [← h.words_eq h' hAB, List.getElem?_map, hd]
    rfl
  rw [List.getElem?_map] at hword
  obtain ⟨e, he, heq⟩ := Option.map_eq_some_iff.1 hword
  have hrun : A.run e.word = A.run w := by
    rw [heq, h.run_eq d (List.mem_of_getElem? hd), hset]
  have hset' : e.subset = B.run w := by
    rw [← h'.run_eq e (List.mem_of_getElem? he)]
    exact (hAB.run_eq_iff _ _).1 hrun
  exact h'.walk_eq_some.2 (h'.subset?_eq_some.2 ⟨i, e, rfl, he, hset'⟩)

/-- The same words lead to the same numbers. -/
theorem walk_eq (h : D.Numbers A found) (h' : E.Numbers B found') (hAB : A.Mirrors B)
    (w : List Char) : D.walk w = E.walk w := by
  apply Option.ext
  intro q
  exact ⟨h.walk_eq_some_of_mirrors h' hAB, h'.walk_eq_some_of_mirrors h hAB.symm⟩

theorem mem_states_iff_walk (h : D.Numbers A found) :
    q ∈ D.automaton.states ↔ ∃ w, D.walk w = some q := by
  constructor
  · intro hq
    obtain ⟨w, hw⟩ := h.canonical.exists_leastWord q hq
    exact ⟨w, hw.walk_eq⟩
  · rintro ⟨w, hw⟩
    exact h.mem_states.2 ⟨_, h.walk_eq_some.1 hw⟩

theorem ne_empty_of_subset? {s : StateSet} (h : D.Numbers A found) (hq : D.subset? q = some s) :
    s ≠ ∅ := by
  obtain ⟨i, d, -, hd, rfl⟩ := h.subset?_eq_some.1 hq
  exact h.ne_empty d (List.mem_of_getElem? hd)

theorem exists_walk (h : D.Numbers A found) (hne : A.run w ≠ ∅) : ∃ q, D.walk w = some q := by
  obtain ⟨q, hq⟩ := (h.canonical.exists_subset?_iff (A.run w)).2 ⟨hne, w, rfl⟩
  exact ⟨q, h.walk_eq_some.2 hq⟩

theorem walk_eq_none_iff (h : D.Numbers A found) : D.walk w = none ↔ A.run w = ∅ := by
  constructor
  · intro hw
    by_contra hne
    obtain ⟨q, hq⟩ := h.exists_walk hne
    rw [hw] at hq
    cases hq
  · intro hempty
    apply Option.eq_none_iff_forall_ne_some.2
    intro q hq
    exact h.ne_empty_of_subset? (h.walk_eq_some.1 hq) hempty

theorem run_eq_iff_walk (h : D.Numbers A found) : A.run v = A.run w ↔ D.walk v = D.walk w := by
  constructor
  · intro hrun
    apply Option.ext
    intro q
    rw [h.walk_eq_some, h.walk_eq_some, hrun]
  · intro hwalk
    cases hw : D.walk w with
    | none => rw [h.walk_eq_none_iff.1 hw, h.walk_eq_none_iff.1 (hwalk.trans hw)]
    | some q =>
      have hv := h.walk_eq_some.1 (hwalk.trans hw)
      exact Option.some.inj (hv.symm.trans (h.walk_eq_some.1 hw))

end Numbers

namespace Presents

theorem mem_finals_iff_accepts (h : D.Presents A found) (hw : D.walk w = some q) :
    q ∈ D.automaton.finals ↔ A.accepts w := by
  rw [h.mem_finals_iff q _ (h.walk_eq_some.1 hw), ← Automaton.isAccepting_iff]
  rfl

theorem mem_targets_iff_walk (h : D.Presents A found) (hw : D.walk w = some p) :
    q ∈ D.automaton.targets p (.char c) ↔ D.walk (w ++ [c]) = some q := by
  obtain ⟨start, hstart, hdet⟩ := h.exists_start
  have hsome : A.start.isSome := by simp [hstart]
  rw [hdet.mem_targets_char h.wellFormed (h.walk_eq_some.1 hw), h.walk_eq_some,
    A.run_append_singleton w c hsome]
  exact and_iff_right_of_imp h.ne_empty_of_subset?

theorem mem_finals_of_mirrors (h : D.Presents A found) (h' : E.Presents B found')
    (hAB : A.Mirrors B) (hq : q ∈ D.automaton.finals) : q ∈ E.automaton.finals := by
  obtain ⟨_, -, hdet⟩ := h.exists_start
  obtain ⟨w, hw⟩ := h.mem_states_iff_walk.1 (hdet.wellFormed.finals_mem q hq)
  rw [h.mem_finals_iff_accepts hw, hAB.accepts_eq] at hq
  rw [h.walk_eq h'.toNumbers hAB] at hw
  exact (h'.mem_finals_iff_accepts hw).2 hq

theorem mem_targets_of_mirrors (h : D.Presents A found) (h' : E.Presents B found')
    (hAB : A.Mirrors B) {a : Symbol} (hq : q ∈ D.automaton.targets p a) :
    q ∈ E.automaton.targets p a := by
  obtain ⟨start, -, hdet⟩ := h.exists_start
  obtain ⟨c, s, rfl, -, hp, -, -⟩ := hdet.mem_targets.1 hq
  obtain ⟨w, hw⟩ := h.mem_states_iff_walk.1 (h.mem_states.2 ⟨s, hp⟩)
  rw [h.mem_targets_iff_walk hw, h.walk_eq h'.toNumbers hAB] at hq
  rw [h.walk_eq h'.toNumbers hAB] at hw
  exact (h'.mem_targets_iff_walk hw).2 hq

/-- Automata that mirror each other have the same deterministic form, but for the alphabet, which is
taken over from each of them. -/
theorem automaton_eq (h : D.Presents A found) (h' : E.Presents B found') (hAB : A.Mirrors B) :
    E.automaton = { D.automaton with alphabet := B.alphabet } := by
  obtain ⟨_, -, hdet⟩ := h.exists_start
  obtain ⟨_, -, hdet'⟩ := h'.exists_start
  have hwalk := h.walk_eq h'.toNumbers hAB
  ext1
  case states =>
    apply Std.ExtTreeSet.ext_mem
    intro q
    simp only [h.mem_states_iff_walk, h'.mem_states_iff_walk, hwalk]
  case alphabet => exact h'.alphabet_eq
  case start => rw [hdet'.start_eq, hdet.start_eq]
  case finals =>
    apply Std.ExtTreeSet.ext_mem
    intro q
    exact ⟨h'.mem_finals_of_mirrors h hAB.symm, h.mem_finals_of_mirrors h' hAB⟩
  case edges =>
    apply Transitions.Labelled.eq_of_targets
    · exact fun p q labels he => (h'.labelled p q labels he).1
    · exact fun p q labels he => (h.labelled p q labels he).1
    · intro p q a
      exact ⟨h'.mem_targets_of_mirrors h hAB.symm, h.mem_targets_of_mirrors h' hAB⟩

/-- Behind one number stand the sets that one word leads to. -/
theorem exists_run_of_subset? {s : StateSet} (h : D.Presents A found) (h' : E.Presents B found')
    (hAB : A.Mirrors B) (hq : D.subset? q = some s) :
    ∃ w, A.run w = s ∧ E.subset? q = some (B.run w) := by
  obtain ⟨w, hw⟩ := h.mem_states_iff_walk.1 (h.mem_states.2 ⟨s, hq⟩)
  have hrun := h.walk_eq_some.1 hw
  rw [hq, Option.some.injEq] at hrun
  rw [h.walk_eq h'.toNumbers hAB] at hw
  exact ⟨w, hrun.symm, h'.walk_eq_some.1 hw⟩

/-- If the runs of one automaton are given by those of the other, then so are the sets behind the
states. -/
theorem subset?_eq_map (h : D.Presents A found) (h' : E.Presents B found') (hAB : A.Mirrors B)
    {f : StateSet → StateSet} (hf : ∀ w, B.run w = f (A.run w)) :
    E.subset? q = (D.subset? q).map f := by
  cases hq : D.subset? q with
  | none =>
    apply Option.eq_none_iff_forall_ne_some.2
    intro t ht
    obtain ⟨w, -, hs⟩ := h'.exists_run_of_subset? h hAB.symm ht
    rw [hq] at hs
    cases hs
  | some s =>
    obtain ⟨w, hw, ht⟩ := h.exists_run_of_subset? h' hAB hq
    rw [ht, hf, hw, Option.map_some]

end Presents

namespace Presents

theorem mem_run_automaton (h : D.Presents A found) :
    q ∈ D.automaton.run w ↔ D.walk w = some q := by
  obtain ⟨start, hstart, hdet⟩ := h.exists_start
  have htracks := hdet.tracks_run h.wellFormed hstart w
  generalize D.walk w = o at htracks
  generalize D.automaton.run w = t at htracks
  generalize A.run w = s at htracks
  cases htracks with
  | lost => simp
  | @held p s _ _ => rw [Ordered.mem_singleton, Option.some.injEq, eq_comm]

theorem run_automaton_eq_iff_walk (h : D.Presents A found) :
    D.automaton.run v = D.automaton.run w ↔ D.walk v = D.walk w := by
  constructor
  · intro hrun
    apply Option.ext
    intro q
    rw [← h.mem_run_automaton, ← h.mem_run_automaton, hrun]
  · intro hwalk
    apply Std.ExtTreeSet.ext_mem
    intro q
    rw [h.mem_run_automaton, h.mem_run_automaton, hwalk]

theorem mirrors (h : D.Presents A found) : A.Mirrors D.automaton where
  run_eq_iff v w := by rw [h.run_eq_iff_walk, h.run_automaton_eq_iff_walk]
  run_eq_empty_iff w := by
    rw [← h.walk_eq_none_iff, Option.eq_none_iff_forall_ne_some,
      Std.ExtTreeSet.eq_empty_iff_forall_not_mem]
    simp only [h.mem_run_automaton, ne_eq]
  accepts_eq w := by
    obtain ⟨start, hstart, hdet⟩ := h.exists_start
    exact (hdet.isAccepting_eq (hdet.tracks_run h.wellFormed hstart w)).symm

/-- The second time each state is found by the same words as the first time. -/
theorem exists_again (h : D.Presents A found) : ∃ E, ofAutomaton D.automaton = .ok E ∧
    E.automaton = D.automaton ∧ ∀ q ∈ E.automaton.states, E.subset? q = some {q} := by
  obtain ⟨_, -, hdet⟩ := h.exists_start
  obtain ⟨E, found', hE, hpresents⟩ := exists_presents hdet.wellFormed hdet.start_eq
  refine ⟨E, hE, h.automaton_eq hpresents h.mirrors, ?_⟩
  intro q hq
  obtain ⟨w, hw⟩ := hpresents.mem_states_iff_walk.1 hq
  have hwalk : D.walk w = some q := (h.walk_eq hpresents.toNumbers h.mirrors w).trans hw
  rw [hpresents.walk_eq_some.1 hw, Option.some.injEq]
  apply Std.ExtTreeSet.ext_mem
  intro r
  rw [h.mem_run_automaton, hwalk, Ordered.mem_singleton, Option.some.injEq, eq_comm]

end Presents

end Dfa

theorem determinize_eq_ok {A : Automaton} {D : Dfa} (h : Dfa.ofAutomaton A = .ok D) :
    determinize A = .ok D := by
  rw [determinize, h]
  rfl

/-- Determinizing a second time gives the same automaton, with the same numbers, and behind each
state there is only the state itself. -/
theorem determinize_idempotent {N : Automaton} (hN : N.Obtainable) (hstart : N.start.isSome) :
    ∃ D E, determinize N = .ok D ∧ determinize D.automaton = .ok E ∧
      E.automaton = D.automaton ∧ ∀ q ∈ E.automaton.states, E.subset? q = some {q} := by
  obtain ⟨start, hs⟩ := Option.isSome_iff_exists.1 hstart
  obtain ⟨D, found, hD, hpresents⟩ := Dfa.exists_presents hN.wellFormed hs
  obtain ⟨E, hE, hautomaton, hsubsets⟩ := hpresents.exists_again
  refine ⟨D, E, ?_, ?_, hautomaton, hsubsets⟩
  · rw [determinize, hD]
    rfl
  · rw [determinize, hE]
    rfl

theorem determinize_idempotent_tangle :
    ∃ D E, determinize .tangle = .ok D ∧ determinize D.automaton = .ok E ∧
      E.automaton = D.automaton ∧ ∀ q ∈ E.automaton.states, E.subset? q = some {q} :=
  determinize_idempotent Automaton.obtainable_tangle rfl

end PatternAutomata
