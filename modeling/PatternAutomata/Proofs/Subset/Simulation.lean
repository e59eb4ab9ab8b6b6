import PatternAutomata.Proofs.Automaton.Path
import PatternAutomata.Proofs.Obtainable
import PatternAutomata.Proofs.Subset.Numbering

/-!
# Step by step with the original automaton

A deterministic automaton has at most one state for each word that it has read. As long as there is
one, the set behind it is the set of states of the original automaton; once the original automaton
has no state left, neither has the deterministic one. One character keeps this, so every word does.
-/

namespace PatternAutomata

namespace Automaton

variable {A : Automaton} {p q : State} {s : StateSet} {c : Char}

theorem closure_of_no_epsilon (hA : ∀ p q, q ∉ A.targets p .epsilon) : A.closure [p] = {p} := by
  apply Std.ExtTreeSet.ext_mem
  intro q
  rw [mem_closure, Ordered.mem_singleton]
  constructor
  · rintro ⟨r, hr, hq⟩
    rw [hq.eq_of_no_epsilon hA, List.mem_singleton.1 hr]
  · rintro rfl
    exact ⟨q, List.mem_singleton_self q, .nil q⟩

theorem move_singleton_of_no_epsilon (hA : ∀ p q, q ∉ A.targets p .epsilon) :
    A.move {p} c = A.targets p (.char c) := by
  apply Std.ExtTreeSet.ext_mem
  intro q
  rw [mem_move]
  constructor
  · rintro ⟨r, hr, hq⟩
    obtain ⟨t, u, ht, hu, hq⟩ := hq.exists_char
    rw [hq.eq_of_no_epsilon hA, ← Ordered.mem_singleton.1 hr, ← ht.eq_of_no_epsilon hA]
    exact hu
  · intro h
    exact ⟨p, Ordered.mem_singleton.2 rfl, .char h (.nil q)⟩

theorem WellFormed.mem_alphabet_of_move (hA : A.WellFormed) (h : A.move s c ≠ ∅) :
    c ∈ A.alphabet := by
  by_contra hc
  apply h
  apply Std.ExtTreeSet.eq_empty_iff_forall_not_mem.2
  intro q hq
  obtain ⟨p, -, hpath⟩ := mem_move.1 hq
  obtain ⟨t, u, -, hu, -⟩ := hpath.exists_char
  exact hc (hA.char_mem hu)

theorem closure_singleton_ne_empty : A.closure [p] ≠ ∅ := by
  intro h
  have hp : p ∈ A.closure [p] := mem_closure.2 ⟨p, List.mem_singleton_self p, .nil p⟩
  rw [h] at hp
  exact Std.ExtTreeSet.not_mem_empty hp

end Automaton

namespace Dfa

/-- The state that a word leads to from the start, one character at a time. -/
def walk (D : Dfa) (w : List Char) : Option State :=
  w.foldl (fun q c => q.bind (D.next? · c)) D.automaton.start

/-- A state of `D`, the states of its simulation and those of the original automaton belong
together: there is the one state with the set behind it, or there are none. -/
inductive Tracks (D : Dfa) : Option State → StateSet → StateSet → Prop
  | lost : Tracks D none ∅ ∅
  | held {q : State} {s : StateSet} : D.subset? q = some s → s ≠ ∅ → Tracks D (some q) {q} s

variable {A : Automaton} {D : Dfa} {initial s t : StateSet} {p q : State} {o : Option State}
  {c : Char}

namespace Determinizes

theorem no_epsilon (h : D.Determinizes A initial) (p q : State) :
    q ∉ D.automaton.targets p .epsilon := by
  intro hq
  obtain ⟨_, _, heq, -⟩ := h.mem_targets.1 hq
  cases heq

/-- Where a character leads from a state with a set behind it. -/
theorem mem_targets_char (h : D.Determinizes A initial) (hA : A.WellFormed)
    (hp : D.subset? p = some s) : q ∈ D.automaton.targets p (.char c) ↔
      A.move s c ≠ ∅ ∧ D.subset? q = some (A.move s c) := by
  rw [h.mem_targets]
  constructor
  · rintro ⟨d, u, hd, -, hu, hne, hq⟩
    obtain rfl : c = d := Symbol.char.inj hd
    obtain rfl : s = u := Option.some.inj (hp.symm.trans hu)
    exact ⟨hne, hq⟩
  · rintro ⟨hne, hq⟩
    exact ⟨c, s, rfl, hA.mem_alphabet_of_move hne, hp, hne, hq⟩

theorem targets_eq_empty (h : D.Determinizes A initial) (hA : A.WellFormed)
    (hp : D.subset? p = some s) (hmove : A.move s c = ∅) :
    D.automaton.targets p (.char c) = ∅ := by
  apply Std.ExtTreeSet.eq_empty_iff_forall_not_mem.2
  intro q hq
  exact ((h.mem_targets_char hA hp).1 hq).1 hmove

theorem targets_eq_singleton (h : D.Determinizes A initial) (hA : A.WellFormed)
    (hp : D.subset? p = some s) (hne : A.move s c ≠ ∅) (hq : D.subset? q = some (A.move s c)) :
    D.automaton.targets p (.char c) = {q} := by
  apply Std.ExtTreeSet.ext_mem
  intro r
  rw [h.mem_targets_char hA hp, Ordered.mem_singleton]
  constructor
  · rintro ⟨-, hr⟩
    exact h.injective hr hq
  · rintro rfl
    exact ⟨hne, hq⟩

theorem tracks_step (h : D.Determinizes A initial) (hA : A.WellFormed) (htracks : D.Tracks o t s)
    (c : Char) :
    D.Tracks (o.bind (D.next? · c)) (D.automaton.move t c) (A.move s c) := by
  cases htracks with
  | lost =>
    rw [Automaton.move_empty, Automaton.move_empty]
    exact .lost
  | @held q s hq hs =>
    rw [Automaton.move_singleton_of_no_epsilon h.no_epsilon, Option.bind_some, next?]
    by_cases hmove : A.move s c = ∅
    · rw [h.targets_eq_empty hA hq hmove, hmove]
      exact .lost
    · obtain ⟨r, hr⟩ := h.closed hq (hA.mem_alphabet_of_move hmove) hmove
      rw [h.targets_eq_singleton hA hq hmove hr]
      exact .held hr hmove

/-- Reading a word, by induction on its last character. -/
theorem tracks_run {start : State} (h : D.Determinizes A (A.closure [start])) (hA : A.WellFormed)
    (hstart : A.start = some start) (w : List Char) :
    D.Tracks (D.walk w) (D.automaton.run w) (A.run w) := by
  induction w using List.reverseRecOn with
  | nil =>
    simp only [walk, Automaton.run, hstart, h.start_eq, List.foldl_nil]
    rw [Automaton.closure_of_no_epsilon h.no_epsilon]
    exact .held h.subset?_start Automaton.closure_singleton_ne_empty
  | append_singleton w c ih =>
    have hwalk : D.walk (w ++ [c]) = (D.walk w).bind (D.next? · c) := by simp [walk]
    rw [hwalk, Automaton.run_append_singleton _ _ _ (by simp [h.start_eq]),
      Automaton.run_append_singleton _ _ _ (by simp [hstart])]
    exact h.tracks_step hA ih c

/-- A state of `D` is final exactly when its set holds a final state. -/
theorem isAccepting_eq (h : D.Determinizes A initial) (htracks : D.Tracks o t s) :
    D.automaton.isAccepting t = A.isAccepting s := by
  cases htracks with
  | lost =>
    rw [Bool.eq_iff_iff, Automaton.isAccepting_iff, Automaton.isAccepting_iff]
    simp
  | @held q s hq _ =>
    rw [Bool.eq_iff_iff, Automaton.isAccepting_iff]
    constructor
    · rintro ⟨r, hr, hfinal⟩
      obtain ⟨u, hu, haccepting⟩ := h.mem_finals.1 hfinal
      rw [Ordered.mem_singleton.1 hr, hq] at hu
      cases hu
      exact haccepting
    · intro haccepting
      exact ⟨q, Ordered.mem_singleton.2 rfl, h.mem_finals.2 ⟨s, hq, haccepting⟩⟩

end Determinizes

theorem singleton_ne_empty : ({q} : StateSet) ≠ ∅ := by
  intro h
  have hq : q ∈ ({q} : StateSet) := Ordered.mem_singleton.2 rfl
  rw [h] at hq
  exact Std.ExtTreeSet.not_mem_empty hq

end Dfa

/-- How a deterministic automaton goes along with another one on a word. -/
structure Dfa.Follows (D : Dfa) (N : Automaton) (w : List Char) : Prop where
  run_eq_empty : D.automaton.run w = ∅ ↔ N.run w = ∅
  run_eq_singleton : N.run w ≠ ∅ → ∃ q, D.automaton.run w = {q} ∧ D.subset? q = some (N.run w) ∧
    D.walk w = some q
  walk_eq_none : N.run w = ∅ → D.walk w = none
  accepts_eq : D.automaton.accepts w = N.accepts w

/-- The deterministic automaton has a state after a word exactly when the original one has; then it
has one state, with the states of the original one behind it, to which single steps also lead. -/
theorem determinize_follows {N : Automaton} (hN : N.Obtainable) (hstart : N.start.isSome) :
    ∃ D, determinize N = .ok D ∧ ∀ w, D.Follows N w := by
  obtain ⟨start, hs⟩ := Option.isSome_iff_exists.1 hstart
  obtain ⟨D, hD, hdet⟩ := Dfa.determinizes_ofAutomaton hs
  refine ⟨D, ?_, fun w => ?_⟩
  · rw [determinize, hD]
    rfl
  have htracks := hdet.tracks_run hN.wellFormed hs w
  have haccepts : D.automaton.accepts w = N.accepts w := hdet.isAccepting_eq htracks
  generalize hwalk : D.walk w = o at htracks
  generalize hrun : D.automaton.run w = t at htracks
  generalize hNrun : N.run w = s at htracks
  cases htracks with
  | lost =>
    have hnone : D.walk w = none := hwalk
    exact ⟨by rw [hrun, hNrun], fun h => absurd hNrun h, fun _ => hnone, haccepts⟩
  | @held q s hq hne =>
    have hsome : N.run w ≠ ∅ := hNrun ▸ hne
    refine ⟨⟨fun h => ?_, fun h => absurd h hsome⟩, fun _ => ⟨q, hrun, ?_, hwalk⟩,
      fun h => absurd h hsome, haccepts⟩
    · rw [hrun] at h
      exact absurd h Dfa.singleton_ne_empty
    · rw [hNrun]
      exact hq

/-- Its states have a gap between them and lie on a cycle without input. It accepts `a` and its
repetitions, and the empty word. -/
def Automaton.cycle : Automaton :=
  ((((∅ : Automaton).setStart 0).addFinals [7]).addEpsilon 0 7).addTransition 7 0
    {.epsilon, .char 'a'}

theorem Automaton.obtainable_cycle : cycle.Obtainable :=
  ((((Obtainable.ofAlphabet ∅).setStart 0).addFinals [7]).addEpsilon 0 7).addTransition 7 0 _

theorem determinize_follows_cycle : ∃ D, determinize .cycle = .ok D ∧ ∀ w, D.Follows .cycle w :=
  determinize_follows Automaton.obtainable_cycle rfl

end PatternAutomata
