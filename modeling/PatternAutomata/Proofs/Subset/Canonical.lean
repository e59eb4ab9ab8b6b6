import PatternAutomata.Proofs.Subset.Discovery

/-!
# Canonical numbers

The states of the deterministic automaton are the numbers from one on, one for each nonempty set of
states that some word leads to. They are in the order in which the sets can be reached: compare the
least words of two states in shortlex order, and their numbers compare in the same way.
-/

namespace PatternAutomata

namespace Dfa

/-- The word is the first in shortlex order that leads to the state. -/
structure LeastWord (D : Dfa) (q : State) (w : List Char) : Prop where
  walk_eq : D.walk w = some q
  least : ∀ v, D.walk v = some q → v = w ∨ List.Shortlex (· < ·) w v

/-- The states of `D` are the sets of states that words lead to in `A`, numbered from one in the
order of the least words. -/
structure Canonical (D : Dfa) (A : Automaton) : Prop where
  exists_mem_states_iff : ∃ m, ∀ q, q ∈ D.automaton.states ↔ 1 ≤ q ∧ q ≤ m
  isSome_subset?_iff : ∀ q, (D.subset? q).isSome ↔ q ∈ D.automaton.states
  injective : ∀ p q s, D.subset? p = some s → D.subset? q = some s → p = q
  exists_subset?_iff : ∀ s, (∃ q, D.subset? q = some s) ↔ s ≠ ∅ ∧ ∃ w, A.run w = s
  exists_leastWord : ∀ q ∈ D.automaton.states, ∃ w, D.LeastWord q w
  lt_iff : ∀ i j u v, D.LeastWord i u → D.LeastWord j v → (i < j ↔ List.Shortlex (· < ·) u v)

/-- The sets behind the states of `D` are the discoveries in their order. -/
structure Numbers (D : Dfa) (A : Automaton) (found : List Discovery) : Prop
    extends A.Enumerates found where
  mem_states : ∀ {q}, q ∈ D.automaton.states ↔ ∃ s, D.subset? q = some s
  subset?_eq_some : ∀ {q s},
    D.subset? q = some s ↔ ∃ i d, q = i + 1 ∧ found[i]? = some d ∧ d.subset = s
  injective : ∀ {p q s}, D.subset? p = some s → D.subset? q = some s → p = q
  walk_eq_some : ∀ {w q}, D.walk w = some q ↔ D.subset? q = some (A.run w)

variable {A : Automaton} {D : Dfa} {found : List Discovery} {d e : Discovery} {rows : List Row}
  {s : StateSet} {q : State} {u v w : List Char} {i j : Nat}

theorem LeastWord.eq (hu : D.LeastWord q u) (hv : D.LeastWord q v) : u = v := by
  rcases hu.least v hv.walk_eq with h | huv
  · exact h.symm
  · rcases hv.least u hu.walk_eq with h | hvu
    · exact h
    · exact absurd (rank_lt_iff.2 hvu) (rank_lt_iff.2 huv).asymm

namespace Numbers

theorem leastWord (h : D.Numbers A found) (hd : found[i]? = some d) :
    D.LeastWord (i + 1) d.word := by
  have hmem : d ∈ found := List.mem_of_getElem? hd
  have hsubset : D.subset? (i + 1) = some d.subset := h.subset?_eq_some.2 ⟨i, d, rfl, hd, rfl⟩
  constructor
  · rw [h.walk_eq_some, h.run_eq d hmem]
    exact hsubset
  · intro v hv
    rw [h.walk_eq_some, hsubset] at hv
    have hrun : d.subset = A.run v := Option.some.inj hv
    obtain ⟨e, he, hset, hle⟩ := h.first v (hrun ▸ h.ne_empty d hmem)
    obtain ⟨j, hj⟩ := List.mem_iff_getElem?.1 he
    have hsame : D.subset? (j + 1) = some d.subset :=
      h.subset?_eq_some.2 ⟨j, e, rfl, hj, hset.trans hrun.symm⟩
    obtain rfl : j = i := Nat.succ.inj (h.injective hsame hsubset)
    rw [hd] at hj
    obtain rfl : d = e := Option.some.inj hj
    rcases hle.lt_or_eq with hlt | heq
    · exact .inr (rank_lt_iff.1 hlt)
    · exact .inl (rank_injective heq).symm

theorem exists_discovery (h : D.Numbers A found) (hu : D.LeastWord q u) :
    ∃ i d, q = i + 1 ∧ found[i]? = some d ∧ d.word = u := by
  obtain ⟨i, d, rfl, hd, -⟩ := h.subset?_eq_some.1 (h.walk_eq_some.1 hu.walk_eq)
  exact ⟨i, d, rfl, hd, (h.leastWord hd).eq hu⟩

theorem rank_lt_rank (h : D.Numbers A found) (hd : found[i]? = some d) (he : found[j]? = some e)
    (hij : i < j) : rank d.word < rank e.word := by
  obtain ⟨hi, rfl⟩ := List.getElem?_eq_some_iff.1 hd
  obtain ⟨hj, rfl⟩ := List.getElem?_eq_some_iff.1 he
  exact List.pairwise_iff_getElem.1 h.increasing i j hi hj hij

theorem lt_iff (h : D.Numbers A found) (hd : found[i]? = some d) (he : found[j]? = some e) :
    i < j ↔ rank d.word < rank e.word := by
  constructor
  · exact h.rank_lt_rank hd he
  · intro hlt
    by_contra hji
    rcases Nat.eq_or_lt_of_le (Nat.not_lt.1 hji) with rfl | hji
    · rw [hd] at he
      cases he
      exact lt_irrefl _ hlt
    · exact (h.rank_lt_rank he hd hji).asymm hlt

theorem canonical (h : D.Numbers A found) : D.Canonical A where
  exists_mem_states_iff := by
    refine ⟨found.length, fun q => ?_⟩
    simp only [h.mem_states, h.subset?_eq_some]
    constructor
    · rintro ⟨_, i, d, rfl, hd, -⟩
      obtain ⟨hi, -⟩ := List.getElem?_eq_some_iff.1 hd
      exact ⟨Nat.succ_pos i, hi⟩
    · rintro ⟨hpos, hle⟩
      have hlt : q - 1 < found.length := by
        unfold State at *
        omega
      exact ⟨_, q - 1, found[q - 1], (Nat.sub_add_cancel hpos).symm,
        List.getElem?_eq_getElem hlt, rfl⟩
  isSome_subset?_iff q := by rw [Option.isSome_iff_exists, h.mem_states]
  injective _ _ _ := h.injective
  exists_subset?_iff s := by
    constructor
    · rintro ⟨q, hq⟩
      obtain ⟨i, d, rfl, hd, rfl⟩ := h.subset?_eq_some.1 hq
      have hmem : d ∈ found := List.mem_of_getElem? hd
      exact ⟨h.ne_empty d hmem, d.word, h.run_eq d hmem⟩
    · rintro ⟨hne, w, rfl⟩
      obtain ⟨d, hd, hset, -⟩ := h.first w hne
      obtain ⟨i, hi⟩ := List.mem_iff_getElem?.1 hd
      exact ⟨i + 1, h.subset?_eq_some.2 ⟨i, d, rfl, hi, hset⟩⟩
  exists_leastWord q hq := by
    obtain ⟨s, hs⟩ := h.mem_states.1 hq
    obtain ⟨i, d, rfl, hd, -⟩ := h.subset?_eq_some.1 hs
    exact ⟨d.word, h.leastWord hd⟩
  lt_iff p q u v hu hv := by
    obtain ⟨i, d, rfl, hd, rfl⟩ := h.exists_discovery hu
    obtain ⟨j, e, rfl, he, rfl⟩ := h.exists_discovery hv
    rw [← rank_lt_iff, ← h.lt_iff hd he]
    exact Nat.add_lt_add_iff_right

end Numbers

theorem subset?_ofRows_eq_some (h : rows.map Row.subset = found.map Discovery.subset) :
    (ofRows A rows).subset? q = some s ↔
      ∃ i d, q = i + 1 ∧ found[i]? = some d ∧ d.subset = s := by
  rw [subset?_ofRows_iff, h]
  simp only [List.getElem?_map, Option.map_eq_some_iff, exists_and_left]

theorem Determinizes.walk_eq_some {start : State} (h : D.Determinizes A (A.closure [start]))
    (hA : A.WellFormed) (hstart : A.start = some start) (hne : D.subset? q ≠ some ∅) :
    D.walk w = some q ↔ D.subset? q = some (A.run w) := by
  have htracks := h.tracks_run hA hstart w
  generalize D.walk w = o at htracks
  generalize D.automaton.run w = t at htracks
  generalize A.run w = s at htracks
  cases htracks with
  | lost => simpa using hne
  | @held p s hp _ =>
    constructor
    · intro heq
      rw [← Option.some.inj heq]
      exact hp
    · intro hq
      rw [h.injective hp hq]

theorem exists_numbers {start : State} (hA : A.WellFormed) (hstart : A.start = some start) :
    ∃ D found, ofAutomaton A = .ok D ∧ D.Numbers A found := by
  obtain ⟨found, hrows, hfound⟩ := A.exists_enumerates hA hstart
  have hdet := determinizes_ofRows (A.explored_explore (A.closure [start]))
  refine ⟨_, found, ofAutomaton_eq hstart, hfound, mem_states_ofRows, subset?_ofRows_eq_some hrows,
    hdet.injective, ?_⟩
  intro w q
  apply hdet.walk_eq_some hA hstart
  intro hempty
  obtain ⟨i, d, -, hd, hset⟩ := (subset?_ofRows_eq_some hrows).1 hempty
  exact hfound.ne_empty d (List.mem_of_getElem? hd) hset

end Dfa

/-- The numbers of the states say in which order the sets behind them can be reached, and all sets
that words lead to are among them. -/
theorem determinize_canonical {N : Automaton} (hN : N.Obtainable) (hstart : N.start.isSome) :
    ∃ D, determinize N = .ok D ∧ D.Canonical N := by
  obtain ⟨start, hs⟩ := Option.isSome_iff_exists.1 hstart
  obtain ⟨D, found, hD, hnumbers⟩ := Dfa.exists_numbers hN.wellFormed hs
  refine ⟨D, ?_, hnumbers.canonical⟩
  rw [determinize, hD]
  rfl

/-- Two states with gaps between their numbers and a symbol that leads from one to both. -/
theorem determinize_canonical_gaps :
    ∃ D, determinize ((((∅ : Automaton).setStart 5).addTransition 5 0 {.char 'a'}).addTransition 0 5
      {.char 'b', .epsilon}) = .ok D ∧
      D.Canonical ((((∅ : Automaton).setStart 5).addTransition 5 0 {.char 'a'}).addTransition 0 5
        {.char 'b', .epsilon}) := by
  have hstart := (Automaton.Obtainable.ofAlphabet ∅).setStart 5
  exact determinize_canonical ((hstart.addTransition 5 0 _).addTransition 0 5 _) rfl

end PatternAutomata
