import Mathlib.Data.List.Nodup
import Mathlib.Data.List.Pairwise
import PatternAutomata.Proofs.Automaton.WellFormed

/-!
# Deterministic tables

A table is tested for determinism state by state: the symbols on the edges that leave the state are
read edge by edge, and neither the empty word nor a symbol that was read before may come. So the
test passes exactly when each symbol leads from a state to one state at most and the empty word
nowhere. A table none of whose edges is empty is known by where its symbols lead.
-/

namespace PatternAutomata.Transitions

variable {t u : Transitions} {p q : State} {a : Symbol} {labels : Labels}

/-- The symbols on the edges that leave a state, edge by edge. -/
def leaving (t : Transitions) (p : State) : List Symbol := (t.exits p).toList.flatMap (·.2.toList)

theorem mem_toList_exits : (q, labels) ∈ (t.exits p).toList ↔ t.labels? p q = some labels :=
  Std.ExtTreeMap.mem_toList_iff_getElem?_eq_some

theorem mem_leaving : a ∈ t.leaving p ↔ ∃ q, q ∈ t.targets p a := by
  simp only [leaving, List.mem_flatMap, Prod.exists, mem_toList_exits, mem_targets,
    Std.ExtTreeSet.mem_toList]

/-- No symbol comes twice exactly if none leads to two states. -/
theorem nodup_leaving_iff :
    (t.leaving p).Nodup ↔ ∀ q r a, q ∈ t.targets p a → r ∈ t.targets p a → q = r := by
  have hkeys : (t.exits p).toList.Pairwise fun e f => e.1 ≠ f.1 := by
    simpa using (t.exits p).distinct_keys_toList
  rw [leaving, List.nodup_flatMap]
  constructor
  · rintro ⟨-, hdisjoint⟩ q r a hq hr
    obtain ⟨labels, he, ha⟩ := mem_targets.1 hq
    obtain ⟨labels', he', ha'⟩ := mem_targets.1 hr
    by_contra hne
    have hentries : (q, labels) ≠ (r, labels') := fun h => hne (congrArg Prod.fst h)
    have : Std.Symm (Function.onFun List.Disjoint fun e : State × Labels => e.2.toList) :=
      ⟨fun _ _ h => List.disjoint_symm h⟩
    have h := hdisjoint.forall (mem_toList_exits.2 he) (mem_toList_exits.2 he') hentries
    exact h (Std.ExtTreeSet.mem_toList.2 ha) (Std.ExtTreeSet.mem_toList.2 ha')
  · intro h
    have hlabels : ∀ e ∈ (t.exits p).toList, e.2.toList.Nodup := fun e _ => Ordered.nodup_toList e.2
    refine ⟨hlabels, hkeys.imp_of_mem ?_⟩
    rintro ⟨q, labels⟩ ⟨r, labels'⟩ he he' hne a ha ha'
    apply hne
    apply h q r a
    · exact mem_targets.2 ⟨labels, mem_toList_exits.1 he, Std.ExtTreeSet.mem_toList.1 ha⟩
    · exact mem_targets.2 ⟨labels', mem_toList_exits.1 he', Std.ExtTreeSet.mem_toList.1 ha'⟩

/-- States that no edge leaves have no entry, so the test can also be made for every state. -/
theorem isDeterministic_iff_leaving :
    t.isDeterministic ↔ ∀ p, (t.leaving p).Nodup ∧ .epsilon ∉ t.leaving p := by
  simp only [isDeterministic, List.all_eq_true, Ordered.isFresh_iff, Prod.forall,
    Std.ExtTreeMap.mem_toList_iff_getElem?_eq_some, Ordered.mem_singleton]
  constructor
  · intro h p
    cases hp : t.bySource[p]? with
    | none =>
      have hleaving : t.leaving p = [] := by simp [leaving, exits, hp]
      simp [hleaving]
    | some row =>
      obtain ⟨hnodup, hepsilon⟩ := h p row hp
      have hleaving : t.leaving p = row.toList.flatMap (·.2.toList) := by simp [leaving, exits, hp]
      rw [hleaving]
      exact ⟨hnodup, fun hmem => hepsilon _ hmem rfl⟩
  · intro h p row hp
    have hleaving : t.leaving p = row.toList.flatMap (·.2.toList) := by simp [leaving, exits, hp]
    obtain ⟨hnodup, hepsilon⟩ := h p
    rw [hleaving] at hnodup hepsilon
    exact ⟨hnodup, fun a ha heq => hepsilon (heq ▸ ha)⟩

theorem isDeterministic_iff : t.isDeterministic ↔ ∀ p, (∀ q, q ∉ t.targets p .epsilon) ∧
    ∀ q r a, q ∈ t.targets p a → r ∈ t.targets p a → q = r := by
  rw [isDeterministic_iff_leaving]
  refine forall_congr' fun p => ?_
  rw [nodup_leaving_iff, mem_leaving, not_exists]
  exact and_comm

def Labelled (t : Transitions) : Prop := ∀ p q labels, t.labels? p q = some labels → ∃ a, a ∈ labels

theorem labelled_ofList {l : List (Edge × Labels)} (h : ∀ e ∈ l, ∃ a, a ∈ e.2) :
    (ofList l).Labelled := by
  intro p q labels he
  have hsome : ((ofList l).labels? p q).isSome := by simp [he]
  obtain ⟨listed, hmem⟩ := isSome_labels?_ofList.1 hsome
  obtain ⟨a, ha⟩ := h _ hmem
  obtain ⟨labels', he', ha'⟩ := mem_targets.1 (mem_targets_ofList.2 ⟨listed, hmem, ha⟩)
  rw [he, Option.some.injEq] at he'
  exact ⟨a, he' ▸ ha'⟩

theorem labelled_ofEdge (ha : a ∈ labels) : (ofEdge p q labels).Labelled := by
  intro p' q' labels' he
  rw [labels?_ofEdge, Option.ite_none_right_eq_some, Option.some.injEq] at he
  exact ⟨a, he.2 ▸ ha⟩

theorem Labelled.union (ht : t.Labelled) (hu : u.Labelled) : (t.union u).Labelled := by
  intro p q labels he
  rw [labels?_union] at he
  cases htl : t.labels? p q with
  | none =>
    cases hul : u.labels? p q with
    | none => simp [htl, hul] at he
    | some labels' =>
      simp only [htl, hul, Option.merge_none_left, Option.some.injEq] at he
      exact he ▸ hu p q labels' hul
  | some labels' =>
    obtain ⟨a, ha⟩ := ht p q labels' htl
    cases hul : u.labels? p q with
    | none =>
      simp only [htl, hul, Option.merge_none_right, Option.some.injEq] at he
      exact ⟨a, he ▸ ha⟩
    | some labels'' =>
      simp only [htl, hul, Option.merge_some_some, Option.some.injEq] at he
      exact ⟨a, he ▸ Std.ExtTreeSet.mem_union_iff.2 (.inl ha)⟩

theorem Labelled.labels?_eq (ht : t.Labelled) (h : ∀ p q a, q ∈ t.targets p a ↔ q ∈ u.targets p a)
    (he : t.labels? p q = some labels) : u.labels? p q = some labels := by
  obtain ⟨a, ha⟩ := ht p q labels he
  obtain ⟨labels', he', -⟩ := mem_targets.1 ((h p q a).1 (mem_targets.2 ⟨labels, he, ha⟩))
  rw [he', Option.some.injEq]
  apply Std.ExtTreeSet.ext_mem
  intro b
  have hb := h p q b
  simpa [mem_targets, he, he'] using hb.symm

/-- Tables without empty edges whose symbols lead to the same states are the same table. -/
theorem Labelled.eq_of_targets (ht : t.Labelled) (hu : u.Labelled)
    (h : ∀ p q a, q ∈ t.targets p a ↔ q ∈ u.targets p a) : t = u := by
  ext1 p q
  apply Option.ext
  intro labels
  exact ⟨ht.labels?_eq h, hu.labels?_eq fun p q a => (h p q a).symm⟩

end PatternAutomata.Transitions
