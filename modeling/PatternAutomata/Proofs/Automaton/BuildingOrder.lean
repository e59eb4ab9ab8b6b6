import PatternAutomata.Proofs.Workspace

/-!
# The order of edits

Apart from its start, an automaton is known by its features: the states, characters, final states
and edges that it has, and the symbols on the edges. An edit adds features, the same ones to every
automaton, and takes none away. So the features after a list of edits are those of before and those
that the edits in the list add, in whatever order they come and however often. Only the start
depends on the order: it is the one that was set last.
-/

namespace PatternAutomata

/-- What an automaton can have besides a start. -/
inductive Feature where
  | state (q : State)
  | character (c : Char)
  | final (q : State)
  | edge (p q : State)
  | label (p q : State) (a : Symbol)

namespace Transitions

variable {t u : Transitions} {f : Feature}

/-- What an automaton has as soon as the edges of the table are added to it. -/
def Has (t : Transitions) : Feature → Prop
  | .state q => q ∈ t.endpoints
  | .character c => c ∈ t.chars
  | .final _ => False
  | .edge p q => (t.labels? p q).isSome
  | .label p q a => q ∈ t.targets p a

theorem has_union : (t.union u).Has f ↔ t.Has f ∨ u.Has f := by
  cases f with
  | state q => exact mem_endpoints_union
  | character c => exact mem_chars_union
  | final q => simp [Has]
  | edge p q => cases h : t.labels? p q <;> simp [Has, h]
  | label p q a => exact mem_targets_union

theorem not_has_empty : ¬(∅ : Transitions).Has f := by
  cases f <;> simp [Has]

/-- Tables with the same edges are equal if symbols lead to the same states in both. Edges are
compared on their own because there are edges without symbols. -/
theorem eq_of_edges (hedges : ∀ p q, (t.labels? p q).isSome ↔ (u.labels? p q).isSome)
    (htargets : ∀ p q a, q ∈ t.targets p a ↔ q ∈ u.targets p a) : t = u := by
  ext1 p q
  have hedge := hedges p q
  cases ht : t.labels? p q with
  | none =>
    cases hu : u.labels? p q with
    | none => rfl
    | some labels' => simp [ht, hu] at hedge
  | some labels =>
    cases hu : u.labels? p q with
    | none => simp [ht, hu] at hedge
    | some labels' =>
      rw [Option.some.injEq]
      apply Std.ExtTreeSet.ext_mem
      intro a
      simpa [mem_targets, ht, hu] using htargets p q a

end Transitions

namespace Automaton

variable {A B : Automaton} {t u : Transitions} {f : Feature}

def Has (A : Automaton) : Feature → Prop
  | .state q => q ∈ A.states
  | .character c => c ∈ A.alphabet
  | .final q => q ∈ A.finals
  | .edge p q => (A.labels? p q).isSome
  | .label p q a => q ∈ A.targets p a

theorem eq_of_has (hstart : A.start = B.start) (h : ∀ f, A.Has f ↔ B.Has f) : A = B := by
  ext1
  case states => exact Std.ExtTreeSet.ext_mem fun q => h (.state q)
  case alphabet => exact Std.ExtTreeSet.ext_mem fun c => h (.character c)
  case start => exact hstart
  case finals => exact Std.ExtTreeSet.ext_mem fun q => h (.final q)
  case edges =>
    exact Transitions.eq_of_edges (fun p q => h (.edge p q)) fun p q a => h (.label p q a)

theorem has_setStart {q : State} : (A.setStart q).Has f ↔ A.Has f ∨ f = .state q := by
  cases f with
  | state p =>
    have hinsert : (A.setStart q).Has (.state p) ↔ p = q ∨ A.Has (.state p) := Ordered.mem_insert
    rw [hinsert, or_comm, Feature.state.injEq]
  | _ => exact (or_iff_left nofun).symm

theorem has_addFinals {l : List State} :
    (A.addFinals l).Has f ↔ A.Has f ∨ ∃ q ∈ l, f = .state q ∨ f = .final q := by
  cases f with
  | state q => simp [Has, addFinals, Std.ExtTreeSet.mem_union_iff]
  | final q => simp [Has, addFinals, Std.ExtTreeSet.mem_union_iff]
  | _ => exact (or_iff_left (by simp)).symm

theorem has_addEdges : (A.addEdges t).Has f ↔ A.Has f ∨ t.Has f := by
  cases f with
  | state q => exact Std.ExtTreeSet.mem_union_iff
  | character c => exact Std.ExtTreeSet.mem_union_iff
  | final q => exact (or_false _).symm.to_iff
  | edge p q => exact Transitions.has_union (f := .edge p q)
  | label p q a => exact mem_targets_addEdges

theorem addEdges_addEdges : (A.addEdges t).addEdges u = A.addEdges (t.union u) := by
  apply eq_of_has
  · rfl
  · intro f
    simp only [has_addEdges, Transitions.has_union, or_assoc]

theorem addEdges_empty : A.addEdges ∅ = A := by
  apply eq_of_has
  · rfl
  · intro f
    simp only [has_addEdges, Transitions.not_has_empty, or_false]

theorem foldl_addTransition {l : List (Edge × Labels)} :
    l.foldl (fun A e => A.addTransition e.1.source e.1.target e.2) A = A.addEdges (.ofList l) := by
  induction l generalizing A with
  | nil => exact addEdges_empty.symm
  | cons e l ih =>
    have hlist : Transitions.ofList (e :: l) =
      (Transitions.ofEdge e.1.source e.1.target e.2).union (.ofList l) := rfl
    rw [List.foldl_cons, ih, addTransition, addEdges_addEdges, hlist]

end Automaton

/-- The table with the edges of some rows. Rows without edges do not count. -/
def Transitions.ofRows (rows : Std.ExtTreeMap State Exits) : Transitions :=
  .ofList (rows.toList.flatMap fun e => e.2.toList.map fun f => (⟨e.1, f.1⟩, f.2))

namespace Edit

variable {A : Automaton} {e : Edit} {l l' : List Edit} {f : Feature} {q : State}

def addRows (rows : Std.ExtTreeMap State Exits) : Edit := .addEdges (.ofRows rows)

theorem apply_addRows (rows : Std.ExtTreeMap State Exits) : (addRows rows).apply A =
    rows.foldl (fun A p row => row.foldl (fun A q labels => A.addTransition p q labels) A) A := by
  simp only [Std.ExtTreeMap.foldl_eq_foldl_toList]
  rw [addRows, apply, Transitions.ofRows, ← Automaton.foldl_addTransition, List.foldl_flatMap]
  simp only [List.foldl_map]

/-- What an edit adds to any automaton. -/
def Adds : Edit → Feature → Prop
  | setStart q, f => f = .state q
  | addFinals l, f => ∃ q ∈ l, f = .state q ∨ f = .final q
  | addTransition p q labels, f => (Transitions.ofEdge p q labels).Has f
  | addSymbol p q a, f => (Transitions.ofEdge p q {a}).Has f
  | addEpsilon p q, f => (Transitions.ofEdge p q {.epsilon}).Has f
  | addEdges t, f => t.Has f

theorem has_apply : (e.apply A).Has f ↔ A.Has f ∨ e.Adds f := by
  cases e with
  | setStart q => exact Automaton.has_setStart
  | addFinals l => exact Automaton.has_addFinals
  | _ => exact Automaton.has_addEdges

def start? : Edit → Option State
  | setStart q => some q
  | _ => none

theorem start_apply : (e.apply A).start = e.start?.or A.start := by
  cases e <;> rfl

def lastStart? (l : List Edit) : Option State := (l.filterMap start?).getLast?

theorem lastStart?_cons : lastStart? (e :: l) = (lastStart? l).or e.start? := by
  cases h : e.start? with
  | none => simp [lastStart?, h]
  | some q => simp [lastStart?, h, List.getLast?_cons, Option.or_some]

def applyAll (A : Automaton) (l : List Edit) : Automaton := l.foldl apply A

theorem applyAll_cons : applyAll A (e :: l) = applyAll (e.apply A) l := rfl

/-- By induction on the list: each edit adds the same features to what the ones before it made. -/
theorem has_applyAll : (applyAll A l).Has f ↔ A.Has f ∨ ∃ e ∈ l, e.Adds f := by
  induction l generalizing A with
  | nil => simp [applyAll]
  | cons e l ih =>
    rw [applyAll_cons, ih, has_apply, or_assoc, List.exists_mem_cons_iff]

theorem start_applyAll : (applyAll A l).start = (lastStart? l).or A.start := by
  induction l generalizing A with
  | nil => rfl
  | cons e l ih =>
    rw [applyAll_cons, ih, start_apply, lastStart?_cons, Option.or_assoc]

/-- The edits in a list count, and which start is set last, but nothing else. -/
theorem applyAll_congr (h : ∀ e, e ∈ l ↔ e ∈ l') (hlast : lastStart? l = lastStart? l') :
    applyAll A l = applyAll A l' := by
  apply Automaton.eq_of_has
  · rw [start_applyAll, start_applyAll, hlast]
  · intro f
    simp only [has_applyAll, h]

/-- Edits can be carried out in any order, and edits that set no start any number of times, if the
same start is set last. A start that is replaced stays among the states. -/
theorem building_order_immaterial (A : Automaton) {l repeated l' : List Edit}
    (hreordered : l'.Perm (l ++ repeated)) (hrepeated : ∀ e ∈ repeated, e ∈ l ∧ e.start? = none)
    (hlast : lastStart? l' = lastStart? l) :
    applyAll A l' = applyAll A l ∧
      (∀ q, .setStart q ∈ l → q ∈ (applyAll A l').states) ∧
      (A.Obtainable → ∀ q, A.start = some q → q ∈ (applyAll A l').states) := by
  have hmem (e : Edit) : e ∈ l' ↔ e ∈ l := by
    rw [hreordered.mem_iff, List.mem_append, or_iff_left_of_imp]
    exact fun he => (hrepeated e he).1
  have hstate (q : State) : q ∈ (applyAll A l').states ↔ _ := has_applyAll (f := .state q)
  refine ⟨applyAll_congr hmem hlast, ?_, ?_⟩
  · intro q hq
    exact (hstate q).2 (.inr ⟨.setStart q, (hmem _).2 hq, rfl⟩)
  · intro hA q hq
    exact (hstate q).2 (.inl (hA.wellFormed.start_mem q hq))

/-- Two starts, the first of which is set again, rows of which one is empty, and an edge without
symbols. -/
def sketch : List Edit :=
  [setStart 4, addSymbol 1 2 (.char 'b'), setStart 3, addFinals [2, 2],
    addRows (((∅ : Std.ExtTreeMap State Exits).insert 9 ∅).insert 1
      ((∅ : Exits).insert 2 {.epsilon})), setStart 4, addTransition 7 7 ∅]

def redrawn : List Edit := (sketch ++ [addTransition 7 7 ∅, addSymbol 1 2 (.char 'b')]).reverse

theorem building_order_immaterial_redrawn : lastStart? redrawn = lastStart? sketch ∧
    applyAll ((∅ : Automaton).setStart 5) redrawn = applyAll ((∅ : Automaton).setStart 5) sketch ∧
      3 ∈ (applyAll ((∅ : Automaton).setStart 5) redrawn).states ∧
      5 ∈ (applyAll ((∅ : Automaton).setStart 5) redrawn).states := by
  have hlast : lastStart? redrawn = lastStart? sketch := rfl
  have hrepeated : ∀ e ∈ [addTransition 7 7 ∅, addSymbol 1 2 (.char 'b')],
      e ∈ sketch ∧ e.start? = none := by
    simp [sketch, start?]
  have h := building_order_immaterial ((∅ : Automaton).setStart 5) (List.reverse_perm _) hrepeated
    hlast
  exact ⟨hlast, h.1, h.2.1 3 (by simp [sketch]),
    h.2.2 ((Automaton.Obtainable.ofAlphabet ∅).setStart 5) 5 rfl⟩

end Edit

end PatternAutomata
