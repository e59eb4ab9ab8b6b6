import PatternAutomata.Automaton.Operations

/-!
# Well-formed automata

In a well-formed automaton every state that is named anywhere is among the states, and every
character on an edge is in the alphabet. Every way to edit an automaton keeps this. The least and
the greatest state of an automaton are also described here, since renumbering goes by them.
-/

namespace PatternAutomata

theorem exists_ok_of_bind {ε α β : Type} {x : Except ε α} {f : α → Except ε β} {b : β}
    (h : x >>= f = .ok b) : ∃ a, x = .ok a ∧ f a = .ok b := by
  cases x with
  | error e => cases h
  | ok a => exact ⟨a, rfl, h⟩

namespace Transitions

variable {t u : Transitions}

theorem mem_endpoints_ofEdge {p q r : State} {labels : Labels} :
    r ∈ (ofEdge p q labels).endpoints ↔ r = p ∨ r = q := by
  simp only [mem_endpoints, labels?_ofEdge]
  constructor
  · rintro ⟨e, he, h⟩
    split at he
    · next heq =>
      obtain ⟨rfl, rfl⟩ := heq
      exact h
    · cases he
  · intro h
    exact ⟨⟨p, q⟩, by simp, h⟩

theorem mem_chars_ofEdge {p q : State} {labels : Labels} {c : Char} :
    c ∈ (ofEdge p q labels).chars ↔ .char c ∈ labels := by
  simp only [mem_chars, labels?_ofEdge, Option.ite_none_right_eq_some, Option.some.injEq]
  constructor
  · rintro ⟨_, _, _, ⟨_, rfl⟩, hc⟩
    exact hc
  · intro hc
    exact ⟨p, q, labels, ⟨⟨rfl, rfl⟩, rfl⟩, hc⟩

theorem mem_endpoints_union {q : State} :
    q ∈ (t.union u).endpoints ↔ q ∈ t.endpoints ∨ q ∈ u.endpoints := by
  simp only [mem_endpoints, labels?_union]
  rw [← exists_or]
  apply exists_congr
  intro e
  cases t.labels? e.source e.target <;> cases u.labels? e.source e.target <;> simp

theorem mem_chars_union {c : Char} : c ∈ (t.union u).chars ↔ c ∈ t.chars ∨ c ∈ u.chars := by
  simp only [mem_chars, labels?_union]
  simp only [← exists_or]
  refine exists_congr fun p => exists_congr fun q => ?_
  cases t.labels? p q <;> cases u.labels? p q <;> simp [exists_or]

theorem mem_endpoints_shift {k : Nat} {q : State} :
    q ∈ (t.shift k).endpoints ↔ ∃ p ∈ t.endpoints, p + k = q := by
  simp only [mem_endpoints, labels?_shift]
  constructor
  · rintro ⟨e, he, hq⟩
    split at he
    · next hk =>
      rcases hq with rfl | rfl
      · exact ⟨e.source - k, ⟨⟨_, _⟩, he, .inl rfl⟩, Nat.sub_add_cancel hk.1⟩
      · exact ⟨e.target - k, ⟨⟨_, _⟩, he, .inr rfl⟩, Nat.sub_add_cancel hk.2⟩
    · simp at he
  · rintro ⟨p, ⟨e, he, hp⟩, rfl⟩
    refine ⟨e.shift k, by simpa [Edge.shift] using he, ?_⟩
    exact hp.imp (congrArg (· + k)) (congrArg (· + k))

theorem mem_chars_shift {k : Nat} {c : Char} : c ∈ (t.shift k).chars ↔ c ∈ t.chars := by
  simp only [mem_chars, labels?_shift]
  constructor
  · rintro ⟨p, q, labels, he, hc⟩
    split at he
    · exact ⟨_, _, labels, he, hc⟩
    · cases he
  · rintro ⟨p, q, labels, he, hc⟩
    exact ⟨p + k, q + k, labels, by simpa using he, hc⟩

theorem isSome_labels?_ofList {l : List (Edge × Labels)} {p q : State} :
    ((ofList l).labels? p q).isSome ↔ ∃ labels, (⟨p, q⟩, labels) ∈ l := by
  induction l with
  | nil => simp [ofList]
  | cons e l ih =>
    obtain ⟨⟨p', q'⟩, labels⟩ := e
    have hcons : ofList ((⟨p', q'⟩, labels) :: l) = (ofEdge p' q' labels).union (ofList l) := rfl
    rw [hcons, labels?_union, labels?_ofEdge]
    by_cases he : p' = p ∧ q' = q
    · obtain ⟨rfl, rfl⟩ := he
      cases (ofList l).labels? p' q' <;> simp
    · have hne : (⟨p, q⟩ : Edge) ≠ ⟨p', q'⟩ := fun h => he (by cases h; exact ⟨rfl, rfl⟩)
      simp [he, hne, ih]

theorem mem_endpoints_wires {l : List Edge} {q : State} :
    q ∈ (wires l).endpoints ↔ ∃ e ∈ l, q = e.source ∨ q = e.target := by
  simp only [mem_endpoints, wires, isSome_labels?_ofList]
  constructor
  · rintro ⟨e, ⟨labels, he⟩, hq⟩
    obtain ⟨f, hf, hfe⟩ := List.mem_map.1 he
    obtain ⟨rfl, -⟩ := Prod.mk.inj hfe
    exact ⟨_, hf, hq⟩
  · rintro ⟨e, he, hq⟩
    exact ⟨e, ⟨_, List.mem_map.2 ⟨e, he, rfl⟩⟩, hq⟩

end Transitions

namespace Automaton

/-- Every state that is named is a state, and every character on an edge is in the alphabet. -/
structure WellFormed (A : Automaton) : Prop where
  start_mem : ∀ q, A.start = some q → q ∈ A.states
  finals_mem : ∀ q ∈ A.finals, q ∈ A.states
  ends_mem : ∀ q ∈ A.edges.endpoints, q ∈ A.states
  chars_mem : ∀ c ∈ A.edges.chars, c ∈ A.alphabet

variable {A B : Automaton} {p q m : State} {a : Symbol}

theorem minState_eq_ok_iff : A.minState = .ok m ↔ m ∈ A.states ∧ ∀ q ∈ A.states, m ≤ q := by
  have hmin : A.minState = .ok m ↔ A.states.min? = some m := by
    rw [minState, Ordered.least?_eq_min?]
    cases A.states.min? <;> simp
  rw [hmin, Std.ExtTreeSet.min?_eq_some_iff_mem_and_forall]
  simp [Nat.isLE_compare]

theorem maxState_eq_ok_iff : A.maxState = .ok m ↔ m ∈ A.states ∧ ∀ q ∈ A.states, q ≤ m := by
  have hmax : A.maxState = .ok m ↔ A.states.max? = some m := by
    rw [maxState, Ordered.greatest?_eq_max?]
    cases A.states.max? <;> simp
  rw [hmax, Std.ExtTreeSet.max?_eq_some_iff_mem_and_forall]
  simp [Nat.isLE_compare]

theorem exists_minState (h : q ∈ A.states) : ∃ m, A.minState = .ok m := by
  have hsome := Std.ExtTreeSet.isSome_min?_of_mem h
  obtain ⟨m, hm⟩ := Option.isSome_iff_exists.1 hsome
  exact ⟨m, by rw [minState, Ordered.least?_eq_min?, hm]⟩

theorem exists_maxState (h : q ∈ A.states) : ∃ m, A.maxState = .ok m := by
  have hsome := Std.ExtTreeSet.isSome_max?_of_mem h
  obtain ⟨m, hm⟩ := Option.isSome_iff_exists.1 hsome
  exact ⟨m, by rw [maxState, Ordered.greatest?_eq_max?, hm]⟩

theorem startState_eq_ok_iff : A.startState = .ok q ↔ A.start = some q := by
  unfold startState
  cases A.start <;> simp

namespace WellFormed

theorem target_mem (hA : A.WellFormed) (h : q ∈ A.targets p a) : q ∈ A.states :=
  hA.ends_mem q (Transitions.mem_endpoints_of_mem_targets h)

theorem source_mem (hA : A.WellFormed) (h : q ∈ A.targets p a) : p ∈ A.states := by
  obtain ⟨labels, he, _⟩ := mem_targets.1 h
  refine hA.ends_mem p (Transitions.mem_endpoints.2 ⟨⟨p, q⟩, ?_, .inl rfl⟩)
  exact Option.isSome_iff_exists.2 ⟨labels, he⟩

theorem char_mem {c : Char} (hA : A.WellFormed) (h : q ∈ A.targets p (.char c)) :
    c ∈ A.alphabet := by
  obtain ⟨labels, he, hc⟩ := mem_targets.1 h
  exact hA.chars_mem c (Transitions.mem_chars.2 ⟨p, q, labels, he, hc⟩)

theorem ofAlphabet (alphabet : Alphabet) : (Automaton.ofAlphabet alphabet).WellFormed where
  start_mem := by simp [Automaton.ofAlphabet]
  finals_mem := by simp [Automaton.ofAlphabet]
  ends_mem := by simp [Automaton.ofAlphabet]
  chars_mem := by simp [Automaton.ofAlphabet]

theorem setStart (hA : A.WellFormed) (q : State) : (A.setStart q).WellFormed where
  start_mem := by simp [Automaton.setStart]
  finals_mem p hp := Ordered.mem_insert.2 (.inr (hA.finals_mem p hp))
  ends_mem p hp := Ordered.mem_insert.2 (.inr (hA.ends_mem p hp))
  chars_mem := hA.chars_mem

theorem addFinals (hA : A.WellFormed) (l : List State) : (A.addFinals l).WellFormed where
  start_mem p hp := Std.ExtTreeSet.mem_union_iff.2 (.inl (hA.start_mem p hp))
  finals_mem p hp := by
    apply Std.ExtTreeSet.mem_union_iff.2
    exact (Std.ExtTreeSet.mem_union_iff.1 hp).imp_left (hA.finals_mem p)
  ends_mem p hp := Std.ExtTreeSet.mem_union_iff.2 (.inl (hA.ends_mem p hp))
  chars_mem := hA.chars_mem

theorem setFinals (hA : A.WellFormed) (s : StateSet) : (A.setFinals s).WellFormed where
  start_mem p hp := Std.ExtTreeSet.mem_union_iff.2 (.inl (hA.start_mem p hp))
  finals_mem _ hp := Std.ExtTreeSet.mem_union_iff.2 (.inr hp)
  ends_mem p hp := Std.ExtTreeSet.mem_union_iff.2 (.inl (hA.ends_mem p hp))
  chars_mem := hA.chars_mem

theorem addEdges (hA : A.WellFormed) (t : Transitions) : (A.addEdges t).WellFormed where
  start_mem p hp := Std.ExtTreeSet.mem_union_iff.2 (.inl (hA.start_mem p hp))
  finals_mem p hp := Std.ExtTreeSet.mem_union_iff.2 (.inl (hA.finals_mem p hp))
  ends_mem p hp := by
    apply Std.ExtTreeSet.mem_union_iff.2
    exact (Transitions.mem_endpoints_union.1 hp).imp_left (hA.ends_mem p)
  chars_mem c hc := by
    apply Std.ExtTreeSet.mem_union_iff.2
    exact (Transitions.mem_chars_union.1 hc).imp_left (hA.chars_mem c)

theorem absorb (hA : A.WellFormed) (hB : B.WellFormed) : (A.absorb B).WellFormed where
  start_mem p hp := Std.ExtTreeSet.mem_union_iff.2 (.inl (hA.start_mem p hp))
  finals_mem p hp := Std.ExtTreeSet.mem_union_iff.2 (.inl (hA.finals_mem p hp))
  ends_mem p hp := by
    apply Std.ExtTreeSet.mem_union_iff.2
    exact (Transitions.mem_endpoints_union.1 hp).imp (hA.ends_mem p) (hB.ends_mem p)
  chars_mem c hc := by
    apply Std.ExtTreeSet.mem_union_iff.2
    exact (Transitions.mem_chars_union.1 hc).imp (hA.chars_mem c) (hB.chars_mem c)

theorem shift (hA : A.WellFormed) (k : Nat) : (A.shift k).WellFormed where
  start_mem p hp := by
    obtain ⟨q, hq, rfl⟩ := Option.map_eq_some_iff.1 hp
    exact StateSet.mem_shift.2 ⟨q, hA.start_mem q hq, rfl⟩
  finals_mem p hp := by
    obtain ⟨q, hq, rfl⟩ := StateSet.mem_shift.1 hp
    exact StateSet.mem_shift.2 ⟨q, hA.finals_mem q hq, rfl⟩
  ends_mem p hp := by
    obtain ⟨q, hq, rfl⟩ := Transitions.mem_endpoints_shift.1 hp
    exact StateSet.mem_shift.2 ⟨q, hA.ends_mem q hq, rfl⟩
  chars_mem c hc := hA.chars_mem c (Transitions.mem_chars_shift.1 hc)

theorem ofSymbol (a : Symbol) : (Automaton.ofSymbol a).WellFormed :=
  (((ofAlphabet ∅).setStart 1).addFinals [2]).addEdges _

end WellFormed

end Automaton

end PatternAutomata
