import PatternAutomata.Proofs.Automaton.WellFormed
import PatternAutomata.Proofs.Subset.Exploration
import PatternAutomata.Subset.Dfa

/-!
# The automaton of numbered sets

The rows of a finished search become the states of an automaton. Every set has one number, the
edges say where the characters of the alphabet lead, and the states that lie behind a set which
holds a final state are final.
-/

namespace PatternAutomata.Dfa

variable {A : Automaton} {rows : List Row} {initial s : StateSet} {p q : State} {c : Char}

/-- What makes `D` the automaton of the sets that the words lead to from `initial`. -/
structure Determinizes (D : Dfa) (A : Automaton) (initial : StateSet) : Prop where
  wellFormed : D.automaton.WellFormed
  start_eq : D.automaton.start = some 1
  subset?_start : D.subset? 1 = some initial
  injective : ∀ {p q s}, D.subset? p = some s → D.subset? q = some s → p = q
  closed : ∀ {p s c}, D.subset? p = some s → c ∈ A.alphabet → A.move s c ≠ ∅ →
    ∃ q, D.subset? q = some (A.move s c)
  mem_finals : ∀ {q}, q ∈ D.automaton.finals ↔ ∃ s, D.subset? q = some s ∧ A.isAccepting s
  mem_targets : ∀ {p q a}, q ∈ D.automaton.targets p a ↔
    ∃ c s, a = .char c ∧ c ∈ A.alphabet ∧ D.subset? p = some s ∧ A.move s c ≠ ∅ ∧
      D.subset? q = some (A.move s c)

theorem pairwise_zipIdx (rows : List Row) :
    (rows.zipIdx 1).Pairwise fun x y => x.2 ≠ y.2 := by
  have hnodup : ((rows.zipIdx 1).map Prod.snd).Nodup := by
    rw [List.zipIdx_map_snd]
    exact List.nodup_range'
  exact List.pairwise_map.1 hnodup

theorem subset?_ofRows :
    (ofRows A rows).subset? q = some s ↔ ∃ r, (r, q) ∈ rows.zipIdx 1 ∧ r.subset = s := by
  have hdistinct : ((rows.zipIdx 1).map fun r => (r.2, r.1.subset)).Pairwise
      fun x y => x.1 ≠ y.1 := List.pairwise_map.2 (pairwise_zipIdx rows)
  have hget := Ordered.getElem?_ofList_eq_some_iff (k := q) (b := s) hdistinct
  rw [subset?, ofRows, hget]
  constructor
  · intro h
    obtain ⟨⟨r, p⟩, hr, heq⟩ := List.mem_map.1 h
    obtain ⟨rfl, rfl⟩ := Prod.mk.inj heq
    exact ⟨r, hr, rfl⟩
  · rintro ⟨r, hr, rfl⟩
    exact List.mem_map.2 ⟨(r, q), hr, rfl⟩

/-- The set behind a number stands in that place of the search, counted from one. -/
theorem subset?_ofRows_iff : (ofRows A rows).subset? q = some s ↔
    ∃ i : Nat, q = i + 1 ∧ (rows.map Row.subset)[i]? = some s := by
  rw [subset?_ofRows]
  simp only [List.getElem?_map, Option.map_eq_some_iff]
  constructor
  · rintro ⟨r, hr, rfl⟩
    obtain ⟨hpos, hi⟩ := List.mk_mem_zipIdx_iff_le_and_getElem?_sub.1 hr
    exact ⟨q - 1, (Nat.sub_add_cancel hpos).symm, r, hi, rfl⟩
  · rintro ⟨i, rfl, r, hi, rfl⟩
    exact ⟨r, List.mk_mem_zipIdx_iff_le_and_getElem?_sub.2 ⟨Nat.le_add_left 1 i, hi⟩, rfl⟩

/-- Looking up the number of a set is inverse to looking up the set behind a number. -/
theorem numbering_eq_some_iff (h : (rows.map Row.subset).Nodup) :
    (numbering rows)[s.toList]? = some q ↔ (ofRows A rows).subset? q = some s := by
  have hsets : (rows.zipIdx 1).Pairwise fun x y => x.1.subset ≠ y.1.subset := by
    have hmap : ((rows.zipIdx 1).map fun r => r.1.subset).Nodup := by
      have heq : (rows.zipIdx 1).map (fun r => r.1.subset) =
          ((rows.zipIdx 1).map Prod.fst).map Row.subset := List.map_map.symm
      rw [heq, List.zipIdx_map_fst]
      exact h
    exact List.pairwise_map.1 hmap
  have hdistinct : ((rows.zipIdx 1).map fun r => (r.1.subset.toList, r.2)).Pairwise
      fun x y => x.1 ≠ y.1 := by
    refine List.pairwise_map.2 (hsets.imp fun hne heq => ?_)
    exact hne (Std.ExtTreeSet.toList_inj.1 heq)
  have hget := Ordered.getElem?_ofList_eq_some_iff (k := s.toList) (b := q) hdistinct
  rw [subset?_ofRows, numbering, hget]
  constructor
  · intro h
    obtain ⟨⟨r, p⟩, hr, heq⟩ := List.mem_map.1 h
    obtain ⟨hs, rfl⟩ := Prod.mk.inj heq
    exact ⟨r, hr, Std.ExtTreeSet.toList_inj.1 hs⟩
  · rintro ⟨r, hr, rfl⟩
    exact List.mem_map.2 ⟨(r, q), hr, rfl⟩

theorem exists_subset?_iff : (∃ q, (ofRows A rows).subset? q = some s) ↔
    s ∈ rows.map Row.subset := by
  simp only [subset?_ofRows_iff, List.mem_iff_getElem?]
  constructor
  · rintro ⟨_, i, -, hi⟩
    exact ⟨i, hi⟩
  · rintro ⟨i, hi⟩
    exact ⟨i + 1, i, rfl, hi⟩

theorem exists_subset?_move (h : A.Explored initial rows) (hs : (ofRows A rows).subset? p = some s)
    (hc : c ∈ A.alphabet) (hne : A.move s c ≠ ∅) :
    ∃ q, (ofRows A rows).subset? q = some (A.move s c) := by
  obtain ⟨r, hr, rfl⟩ := subset?_ofRows.1 hs
  have hmem : r ∈ rows := List.fst_mem_of_mem_zipIdx hr
  have hmove : (c, A.move r.subset c) ∈ r.moves := by
    rw [h.row_eq r hmem]
    exact Automaton.mem_moves_row.2 ⟨hc, rfl, hne⟩
  exact exists_subset?_iff.2 (h.closed r hmem c _ hmove)

/-- The edges of the rows, one for each move. -/
def edgeList (rows : List Row) : List (Edge × Labels) :=
  (rows.zipIdx 1).flatMap fun r => r.1.moves.filterMap fun m =>
    (numbering rows)[m.2.toList]?.map fun q => (⟨r.2, q⟩, {.char m.1})

theorem edges_ofRows : (ofRows A rows).automaton.edges = .ofList (edgeList rows) := rfl

theorem mem_edgeList (h : A.Explored initial rows) {labels : Labels} :
    (⟨p, q⟩, labels) ∈ edgeList rows ↔ ∃ c s, labels = {.char c} ∧ c ∈ A.alphabet ∧
      (ofRows A rows).subset? p = some s ∧ A.move s c ≠ ∅ ∧
      (ofRows A rows).subset? q = some (A.move s c) := by
  simp only [edgeList, List.mem_flatMap, List.mem_filterMap, Option.map_eq_some_iff]
  constructor
  · rintro ⟨⟨r, i⟩, hr, ⟨c, t⟩, hmove, j, hj, heq⟩
    obtain ⟨hedge, rfl⟩ := Prod.mk.inj heq
    obtain ⟨rfl, rfl⟩ := Edge.mk.inj hedge
    rw [h.row_eq r (List.fst_mem_of_mem_zipIdx hr)] at hmove
    obtain ⟨hc, ht, hne⟩ := Automaton.mem_moves_row.1 hmove
    have hsource : (ofRows A rows).subset? i = some r.subset := subset?_ofRows.2 ⟨r, hr, rfl⟩
    have htarget := (numbering_eq_some_iff (A := A) h.nodup).1 hj
    exact ⟨c, r.subset, rfl, hc, hsource, ht ▸ hne, ht ▸ htarget⟩
  · rintro ⟨c, s, rfl, hc, hsource, hne, htarget⟩
    obtain ⟨r, hr, rfl⟩ := subset?_ofRows.1 hsource
    have hmove : (c, A.move r.subset c) ∈ r.moves := by
      rw [h.row_eq r (List.fst_mem_of_mem_zipIdx hr)]
      exact Automaton.mem_moves_row.2 ⟨hc, rfl, hne⟩
    have hnumber := (numbering_eq_some_iff h.nodup).2 htarget
    exact ⟨(r, p), hr, _, hmove, q, hnumber, rfl⟩

theorem mem_states_ofRows :
    q ∈ (ofRows A rows).automaton.states ↔ ∃ s, (ofRows A rows).subset? q = some s := by
  simp only [subset?_ofRows]
  constructor
  · intro h
    obtain ⟨⟨r, i⟩, hr, rfl⟩ := List.mem_map.1 (Ordered.mem_ofList.1 h)
    exact ⟨r.subset, r, hr, rfl⟩
  · rintro ⟨_, r, hr, rfl⟩
    exact Ordered.mem_ofList.2 (List.mem_map.2 ⟨(r, q), hr, rfl⟩)

theorem size_ofRows : (ofRows A rows).automaton.size = rows.length := by
  have hstates : (ofRows A rows).automaton.states = .ofList ((rows.zipIdx 1).map Prod.snd) := rfl
  have hdistinct : ((rows.zipIdx 1).map Prod.snd).Pairwise fun i j => ¬compare i j = .eq := by
    simpa using List.pairwise_map.2 (pairwise_zipIdx rows)
  rw [Automaton.size, hstates, Std.ExtTreeSet.size_ofList hdistinct, List.length_map,
    List.length_zipIdx]

theorem mem_finals_ofRows : q ∈ (ofRows A rows).automaton.finals ↔
    ∃ s, (ofRows A rows).subset? q = some s ∧ A.isAccepting s := by
  simp only [subset?_ofRows]
  constructor
  · intro h
    obtain ⟨⟨r, i⟩, hmem, rfl⟩ := List.mem_map.1 (Ordered.mem_ofList.1 h)
    obtain ⟨hr, hfinal⟩ := List.mem_filter.1 hmem
    exact ⟨r.subset, ⟨r, hr, rfl⟩, hfinal⟩
  · rintro ⟨_, ⟨r, hr, rfl⟩, hfinal⟩
    refine Ordered.mem_ofList.2 (List.mem_map.2 ⟨(r, q), List.mem_filter.2 ⟨hr, hfinal⟩, rfl⟩)

theorem mem_targets_ofRows (h : A.Explored initial rows) {a : Symbol} :
    q ∈ (ofRows A rows).automaton.targets p a ↔ ∃ c s, a = .char c ∧ c ∈ A.alphabet ∧
      (ofRows A rows).subset? p = some s ∧ A.move s c ≠ ∅ ∧
      (ofRows A rows).subset? q = some (A.move s c) := by
  rw [Automaton.targets, edges_ofRows, Transitions.mem_targets_ofList]
  simp only [mem_edgeList h]
  constructor
  · rintro ⟨labels, ⟨c, s, rfl, hmove⟩, ha⟩
    exact ⟨c, s, Ordered.mem_singleton.1 ha, hmove⟩
  · rintro ⟨c, s, rfl, hmove⟩
    exact ⟨{.char c}, ⟨c, s, rfl, hmove⟩, Ordered.mem_singleton.2 rfl⟩

theorem subset?_ofRows_one (h : A.Explored initial rows) :
    (ofRows A rows).subset? 1 = some initial := by
  have hfirst := h.first
  rw [List.head?_map] at hfirst
  obtain ⟨r, hr, hinitial⟩ := Option.map_eq_some_iff.1 hfirst
  rw [List.head?_eq_getElem?] at hr
  exact subset?_ofRows.2 ⟨r, List.mk_add_mem_zipIdx_iff_getElem?.2 hr, hinitial⟩

theorem wellFormed_ofRows (h : A.Explored initial rows) :
    (ofRows A rows).automaton.WellFormed where
  start_mem q hq := by
    cases hq
    exact mem_states_ofRows.2 ⟨initial, subset?_ofRows_one h⟩
  finals_mem q hq := by
    obtain ⟨s, hs, -⟩ := mem_finals_ofRows.1 hq
    exact mem_states_ofRows.2 ⟨s, hs⟩
  ends_mem q hq := by
    obtain ⟨⟨i, j⟩, he, hends⟩ := Transitions.mem_endpoints.1 hq
    obtain ⟨labels, hlabels⟩ := Transitions.isSome_labels?_ofList.1 he
    obtain ⟨c, s, -, -, hsource, -, htarget⟩ := (mem_edgeList h).1 hlabels
    rcases hends with rfl | rfl
    · exact mem_states_ofRows.2 ⟨_, hsource⟩
    · exact mem_states_ofRows.2 ⟨_, htarget⟩
  chars_mem c hc := by
    obtain ⟨i, j, labels, he, hlabels⟩ := Transitions.mem_chars.1 hc
    have hedge : j ∈ (ofRows A rows).automaton.targets i (.char c) :=
      Automaton.mem_targets.2 ⟨labels, he, hlabels⟩
    obtain ⟨_, _, heq, halphabet, -⟩ := (mem_targets_ofRows h).1 hedge
    cases heq
    exact halphabet

theorem determinizes_ofRows (h : A.Explored initial rows) :
    (ofRows A rows).Determinizes A initial where
  wellFormed := wellFormed_ofRows h
  start_eq := rfl
  subset?_start := subset?_ofRows_one h
  injective hp hq := by
    have hi := (numbering_eq_some_iff h.nodup).2 hp
    have hj := (numbering_eq_some_iff h.nodup).2 hq
    rw [hi] at hj
    exact Option.some.inj hj
  closed := exists_subset?_move h
  mem_finals := mem_finals_ofRows
  mem_targets := mem_targets_ofRows h

theorem ofAutomaton_eq {start : State} (h : A.start = some start) : ofAutomaton A =
    .ok (ofRows A (A.explore (.add ∅ [A.closure [start]]) [A.closure [start]])) := by
  have hstart : A.startState = .ok start := Automaton.startState_eq_ok_iff.2 h
  simp only [ofAutomaton, hstart, bind, Except.bind]
  rfl

theorem determinizes_ofAutomaton {start : State} (h : A.start = some start) :
    ∃ D, ofAutomaton A = .ok D ∧ D.Determinizes A (A.closure [start]) :=
  ⟨_, ofAutomaton_eq h, determinizes_ofRows (A.explored_explore _)⟩

end PatternAutomata.Dfa
