import PatternAutomata.Proofs.Subset.Canonical
import PatternAutomata.Proofs.Subset.Worklist

/-!
# How long determinization takes

Determinization expands every set of states that it meets, and it expands none of them twice. The
sets are not empty, and the states in them are states of the given automaton, because they lie on
paths from its start. So there are fewer turns, and fewer states of the result, than there are sets
of its states.
-/

namespace PatternAutomata

theorem length_sublists {α : Type} (l : List α) : (sublists l).length = 2 ^ l.length := by
  induction l with
  | nil => rfl
  | cons a l ih =>
    rw [sublists, List.length_append, List.length_map, ih, List.length_cons, Nat.pow_succ,
      Nat.mul_two]

theorem length_lt_two_pow {t : StateSet} {l : List StateSet} (hl : l.Nodup)
    (hne : ∀ s ∈ l, s ≠ ∅) (hsub : ∀ s ∈ l, ∀ q ∈ s, q ∈ t) : l.length < 2 ^ t.size := by
  have hempty : [] ∉ l.map (·.toList) := by
    intro h
    obtain ⟨s, hs, hnil⟩ := List.mem_map.1 h
    exact hne s hs (Std.ExtTreeSet.toList_eq_nil_iff.1 hnil)
  have hnodup : ([] :: l.map (·.toList)).Nodup :=
    List.nodup_cons.2 ⟨hempty, hl.map fun _ _ => Std.ExtTreeSet.toList_inj.1⟩
  have hsublists : [] :: l.map (·.toList) ⊆ sublists t.toList := by
    intro k hk
    rcases List.mem_cons.1 hk with rfl | hk
    · exact mem_sublists.2 (List.nil_sublist _)
    · obtain ⟨s, hs, rfl⟩ := List.mem_map.1 hk
      exact mem_sublists.2 (Ordered.sublist_of_subset (hsub s hs))
  have hle := (List.subperm_of_subset hnodup hsublists).length_le
  rw [List.length_cons, List.length_map, length_sublists, Std.ExtTreeSet.length_toList] at hle
  exact hle

namespace Automaton

variable {A : Automaton} {start : State} {q : State} {w : List Char}

theorem WellFormed.mem_states_of_mem_run (hA : A.WellFormed) (h : q ∈ A.run w) : q ∈ A.states := by
  obtain ⟨s, hs, hpath⟩ := mem_run.1 h
  exact hpath.mem_of_closed (fun _ _ _ _ he => hA.target_mem he) (hA.start_mem s hs)

end Automaton

namespace Dfa

variable {A : Automaton} {start : State}

theorem one_le_size {initial : StateSet} {rows : List Row} (h : A.Explored initial rows) :
    1 ≤ (ofRows A rows).automaton.size := by
  have hinitial := List.mem_of_mem_head? h.first
  rw [size_ofRows, ← List.length_map Row.subset]
  exact List.length_pos_of_mem hinitial

/-- The sets behind the states are different from each other and not empty. -/
theorem size_lt_two_pow {D : Dfa} (hA : A.WellFormed) (hstart : A.start = some start)
    (hD : ofAutomaton A = .ok D) : D.automaton.size < 2 ^ A.size := by
  obtain ⟨_, found, hfound, hnumbers⟩ := exists_numbers hA hstart
  have hrows := ofAutomaton_eq hstart
  rw [hD] at hfound hrows
  cases hfound
  cases hrows
  have hreached {s} (hs : s ∈ (A.explore (.add ∅ [A.closure [start]])
      [A.closure [start]]).map Row.subset) : s ≠ ∅ ∧ ∃ w, A.run w = s :=
    (hnumbers.canonical.exists_subset?_iff s).1 (exists_subset?_iff.2 hs)
  rw [size_ofRows, ← List.length_map Row.subset]
  refine length_lt_two_pow (A.explored_explore _).nodup (fun s hs => (hreached hs).1) ?_
  intro s hs q hq
  obtain ⟨-, w, rfl⟩ := hreached hs
  exact hA.mem_states_of_mem_run hq

end Dfa

namespace Worklist

/-- The work has ended with `D`. The sets behind the states of `D` are those that went into the
queue; none of them went in twice, and each was taken out again. -/
structure Finished (T : Worklist) (D : Dfa) : Prop where
  queue_eq : T.queue = []
  nodup_queued : T.queued.Nodup
  expanded_eq : T.expanded = T.queued
  mem_queued_iff : ∀ s, s ∈ T.queued ↔ ∃ q, D.subset? q = some s
  dfa_eq : T.dfa = D

theorem exists_finished (A : Automaton) (start : State) {rows : List Row}
    (hrows : A.explore (.add ∅ [A.closure [start]]) [A.closure [start]] = rows) :
    ∃ T, (initial A start).Ends A rows.length T ∧ T.Finished (Dfa.ofRows A rows) := by
  have hinitial : (initial A start).Stands A ((initial A start).Tried A) :=
    stands_initial.congr fun p c => by simp [Tried, initial, enqueue, blank]
  obtain ⟨T, hends, hT, hqueue, hqueued⟩ :=
    exists_ends (.add ∅ [A.closure [start]]) [A.closure [start]] _ hinitial rfl rfl
  rw [hrows] at hends hqueued
  have hsubsets : T.queued = rows.map Row.subset := hqueued
  have hexpanded : T.expanded = T.queued := by
    have hcount := hT.queued_eq
    rw [hqueue, List.map_nil, List.append_nil] at hcount
    exact hcount.symm
  refine ⟨T, hends, hqueue, hT.nodup, hexpanded, fun s => ?_, ?_⟩
  · rw [Dfa.exists_subset?_iff, hsubsets]
  · exact hT.dfa_eq (hrows ▸ A.explored_explore _) hsubsets hexpanded

end Worklist

/-- The work on the queue ends after one turn for each state of the result, with every set expanded
once, and with at most one state for each nonempty set of states. -/
theorem determinize_bounded {N : Automaton} {start : State} (hN : N.Obtainable)
    (hstart : N.start = some start) :
    ∃ D T, determinize N = .ok D ∧
      (Worklist.initial N start).Ends N D.automaton.size T ∧ T.Finished D ∧
      1 ≤ D.automaton.size ∧ D.automaton.size ≤ 2 ^ N.size - 1 := by
  have hD := Dfa.ofAutomaton_eq hstart
  obtain ⟨T, hends, hfinished⟩ := Worklist.exists_finished N start rfl
  have hlt := Dfa.size_lt_two_pow hN.wellFormed hstart hD
  refine ⟨_, T, ?_, Dfa.size_ofRows ▸ hends, hfinished, ?_, Nat.le_sub_one_of_lt hlt⟩
  · rw [determinize, hD]
    rfl
  · exact Dfa.one_le_size (N.explored_explore _)

theorem determinize_bounded_tangle : Automaton.tangle.start = some 4 ∧
    ∃ D T, determinize .tangle = .ok D ∧
      (Worklist.initial .tangle 4).Ends .tangle D.automaton.size T ∧ T.Finished D ∧
      1 ≤ D.automaton.size ∧ D.automaton.size ≤ 2 ^ Automaton.tangle.size - 1 :=
  ⟨rfl, determinize_bounded Automaton.obtainable_tangle rfl⟩

/-- The bound is met when words lead to each state alone and to both. -/
example : (determinize ((((∅ : Automaton).setStart 0).addTransition 0 1
    {.char 'a', .char 'b'}).addTransition 0 0 {.char 'b'})).map (·.automaton.size) = .ok 3 := by
  decide +kernel

end PatternAutomata
