import PatternAutomata.Subset.Exploration

/-!
# What the search for sets of states finds

The search expands every set that it queues, once and in the order of the queue. What it finds later
was never known before, so no set is listed twice, and every move from a listed set leads to a
listed set.
-/

namespace PatternAutomata

theorem nodup_unknown {known : Known} {l : List StateSet} : (unknown known l).Nodup := by
  induction l generalizing known with
  | nil => exact List.nodup_nil
  | cons s l ih =>
    unfold unknown
    split
    · exact ih
    · refine List.nodup_cons.2 ⟨fun hs => ?_, ih⟩
      have hknown := (mem_unknown.1 hs).2
      exact hknown (Ordered.mem_insert.2 (.inl rfl))

theorem Known.add_append {known : Known} {l l' : List StateSet} :
    known.add (l ++ l') = (known.add l).add l' := by
  apply Std.ExtTreeSet.ext_mem
  intro k
  simp only [mem_add, List.mem_append, or_and_right, exists_or, or_assoc]

theorem unknown_append {known : Known} {l l' : List StateSet} :
    unknown known (l ++ l') = unknown known l ++ unknown (known.add (unknown known l)) l' := by
  induction l generalizing known with
  | nil => simp [unknown]
  | cons t l ih =>
    by_cases ht : t.toList ∈ known
    · simp [unknown, ht, ih]
    · simp [unknown, ht, ih, Known.add_cons]

namespace Automaton

variable {A : Automaton} {known : Known} {queue : List StateSet} {initial s t : StateSet} {c : Char}

theorem row_of_mem_explore {r : Row} (h : r ∈ A.explore known queue) : r = A.row r.subset := by
  fun_induction explore A known queue with
  | case1 => cases h
  | case2 known s queue row fresh ih =>
    rcases List.mem_cons.1 h with rfl | h
    · rfl
    · exact ih h

/-- The sets of the search are those of the queue, followed by sets that were not known. -/
theorem exists_subsets_explore (A : Automaton) (known : Known) (queue : List StateSet) :
    ∃ later : List StateSet, (A.explore known queue).map Row.subset = queue ++ later ∧
      later.Nodup ∧ ∀ s ∈ later, s.toList ∉ known := by
  fun_induction explore A known queue with
  | case1 known => exact ⟨[], rfl, List.nodup_nil, nofun⟩
  | case2 known s queue row fresh ih =>
    obtain ⟨later, hsubsets, hnodup, hunknown⟩ := ih
    have hfresh : ∀ t ∈ fresh, t.toList ∉ known := fun t ht => (mem_unknown.1 ht).2
    refine ⟨fresh ++ later, ?_, List.nodup_append.2 ⟨nodup_unknown, hnodup, ?_⟩, ?_⟩
    · rw [List.map_cons, hsubsets, List.append_assoc]
      rfl
    · rintro t ht _ hlater rfl
      exact hunknown t hlater (Known.mem_add.2 (.inr ⟨t, ht, rfl⟩))
    · intro t ht
      rcases List.mem_append.1 ht with ht | ht
      · exact hfresh t ht
      · intro hknown
        exact hunknown t ht (Known.mem_add.2 (.inl hknown))

theorem mem_subsets_of_mem_queue (h : s ∈ queue) :
    s ∈ (A.explore known queue).map Row.subset := by
  obtain ⟨later, hsubsets, -, -⟩ := A.exists_subsets_explore known queue
  rw [hsubsets]
  exact List.mem_append_left later h

/-- Every move from a set of the search leads to a known set or to a set of the search. -/
theorem mem_subsets_of_mem_moves {r : Row} (hr : r ∈ A.explore known queue)
    (ht : (c, t) ∈ r.moves) :
    t.toList ∈ known ∨ t ∈ (A.explore known queue).map Row.subset := by
  fun_induction explore A known queue with
  | case1 => cases hr
  | case2 known s queue row fresh ih =>
    have hmoved : t ∈ fresh → t ∈ (A.explore (known.add fresh) (queue ++ fresh)).map Row.subset :=
      fun h => mem_subsets_of_mem_queue (List.mem_append_right queue h)
    rcases List.mem_cons.1 hr with rfl | hr
    · by_cases hknown : t.toList ∈ known
      · exact .inl hknown
      · have hfresh : t ∈ fresh := mem_unknown.2 ⟨List.mem_map.2 ⟨(c, t), ht, rfl⟩, hknown⟩
        exact .inr (List.mem_cons_of_mem _ (hmoved hfresh))
    · rcases ih hr with h | h
      · rcases Known.mem_add.1 h with h | ⟨u, hu, heq⟩
        · exact .inl h
        · have htu : u = t := Std.ExtTreeSet.toList_inj.1 heq
          exact .inr (List.mem_cons_of_mem _ (hmoved (htu ▸ hu)))
      · exact .inr (List.mem_cons_of_mem _ h)

/-- The rows of a finished search from one set. -/
structure Explored (A : Automaton) (initial : StateSet) (rows : List Row) : Prop where
  first : (rows.map Row.subset).head? = some initial
  nodup : (rows.map Row.subset).Nodup
  row_eq : ∀ r ∈ rows, r = A.row r.subset
  closed : ∀ r ∈ rows, ∀ c t, (c, t) ∈ r.moves → t ∈ rows.map Row.subset

theorem explored_explore (A : Automaton) (initial : StateSet) :
    A.Explored initial (A.explore (.add ∅ [initial]) [initial]) := by
  obtain ⟨later, hsubsets, hnodup, hunknown⟩ :=
    A.exists_subsets_explore (.add ∅ [initial]) [initial]
  have hinitial : initial ∉ later := by
    intro h
    exact hunknown initial h (Known.mem_add.2 (.inr ⟨initial, List.mem_cons_self, rfl⟩))
  refine ⟨?_, ?_, fun r hr => row_of_mem_explore hr, ?_⟩
  · rw [hsubsets]
    rfl
  · rw [hsubsets]
    exact List.nodup_cons.2 ⟨hinitial, hnodup⟩
  · intro r hr c t ht
    rcases mem_subsets_of_mem_moves hr ht with h | h
    · have hmem : t = initial := by
        rcases Known.mem_add.1 h with h | ⟨u, hu, heq⟩
        · exact absurd h Std.ExtTreeSet.not_mem_empty
        · rw [List.mem_singleton.1 hu] at heq
          exact (Std.ExtTreeSet.toList_inj.1 heq).symm
      rw [hsubsets, hmem]
      exact List.mem_cons_self
    · exact h

end Automaton

end PatternAutomata
