import PatternAutomata.Automaton.Run

/-!
# Discovering the sets of states that words lead to

A breadth-first search from some sets of states lists every set that can be reached by characters of
the alphabet, in the order in which it is first met, with its nonempty successors. Sets wait in a
queue until they are expanded. The search ends because every set that it puts into the queue is a
set of edge ends not met before, and there are finitely many of these.
-/

namespace PatternAutomata

def sublists {α : Type} : List α → List (List α)
  | [] => [[]]
  | a :: l => sublists l ++ (sublists l).map (a :: ·)

theorem mem_sublists {α : Type} {k l : List α} : k ∈ sublists l ↔ k.Sublist l := by
  induction l generalizing k with
  | nil => simp [sublists]
  | cons a l ih => simp [sublists, ih, List.sublist_cons_iff, eq_comm, and_comm]

theorem countP_lt_countP {α : Type} {p q : α → Bool} {l : List α} {a : α} (h : ∀ x, p x → q x)
    (ha : a ∈ l) (hq : q a) (hp : p a = false) : l.countP p < l.countP q := by
  obtain ⟨l, r, rfl⟩ := List.append_of_mem ha
  have hl : l.countP p ≤ l.countP q := List.countP_mono_left fun x _ => h x
  have hr : r.countP p ≤ r.countP q := List.countP_mono_left fun x _ => h x
  simp only [List.countP_append, List.countP_cons, hq, hp, ↓reduceIte, Bool.false_eq_true]
  omega

/-- A set of states and where each character leads. Characters that lead nowhere are left out. -/
structure Row where
  subset : StateSet
  moves : List (Char × StateSet)

/-- A collection of sets of states, each of them kept as the list of its members. -/
abbrev Known := Std.ExtTreeSet (List State)

def Known.add (known : Known) (l : List StateSet) : Known :=
  known ∪ .ofList (l.map (·.toList))

theorem Known.mem_add {known : Known} {l : List StateSet} {k : List State} :
    k ∈ known.add l ↔ k ∈ known ∨ ∃ s ∈ l, s.toList = k := by
  rw [add, Std.ExtTreeSet.mem_union_iff, Ordered.mem_ofList, List.mem_map]

@[simp] theorem Known.add_nil {known : Known} : known.add [] = known :=
  Std.ExtTreeSet.ext_mem fun k => by simp [mem_add]

theorem Known.add_cons {known : Known} {l : List StateSet} {s : StateSet} :
    known.add (s :: l) = Known.add (known.insert s.toList) l := by
  refine Std.ExtTreeSet.ext_mem fun k => ?_
  simp only [mem_add, Ordered.mem_insert, List.mem_cons]
  grind

def unknown (known : Known) : List StateSet → List StateSet
  | [] => []
  | s :: l =>
    if s.toList ∈ known then unknown known l else s :: unknown (known.insert s.toList) l

theorem mem_unknown {known : Known} {l : List StateSet} {s : StateSet} :
    s ∈ unknown known l ↔ s ∈ l ∧ s.toList ∉ known := by
  induction l generalizing known with
  | nil => simp [unknown]
  | cons t l ih =>
    by_cases ht : t.toList ∈ known
    · simp only [unknown, ht, ↓reduceIte, ih, List.mem_cons]
      grind
    · simp only [unknown, ht, ↓reduceIte, ih, List.mem_cons, Ordered.mem_insert,
        Std.ExtTreeSet.toList_inj]
      grind

namespace Automaton

/-- One step of the search: all moves from a set, in the order of the alphabet. The set is closed
once for all of them. -/
def row (A : Automaton) (s : StateSet) : Row :=
  let closed := A.closure s.toList
  { subset := s
    moves := A.alphabet.toList.filterMap fun c =>
      let t := A.closure (A.follow closed (.char c)).toList
      if t.isEmpty then none else some (c, t) }

theorem mem_moves_row {A : Automaton} {s t : StateSet} {c : Char} :
    (c, t) ∈ (A.row s).moves ↔ c ∈ A.alphabet ∧ A.move s c = t ∧ t ≠ ∅ := by
  simp only [row, List.mem_filterMap, Std.ExtTreeSet.isEmpty_iff, Std.ExtTreeSet.mem_toList]
  constructor
  · rintro ⟨d, hd, h⟩
    split at h
    · cases h
    · next hne =>
      cases h
      exact ⟨hd, rfl, hne⟩
  · rintro ⟨hc, rfl, hne⟩
    exact ⟨c, hc, if_neg hne⟩

def setsOutside (A : Automaton) (known : Known) : Nat :=
  (sublists A.edges.endpoints.toList).countP (· ∉ known)

theorem setsOutside_insert_lt {A : Automaton} {known : Known} {t : StateSet}
    (ht : ∀ q ∈ t, q ∈ A.edges.endpoints) (hknown : t.toList ∉ known) :
    A.setsOutside (known.insert t.toList) < A.setsOutside known := by
  have hmem : t.toList ∈ sublists A.edges.endpoints.toList :=
    mem_sublists.2 (Ordered.sublist_of_subset ht)
  refine countP_lt_countP (fun l h => ?_) hmem ?_ ?_
  · simp_all
  · simpa using hknown
  · simp

/-- Every new set makes up for its place in the queue. -/
theorem setsOutside_unknown_le {A : Automaton} (known : Known) {l : List StateSet}
    (hl : ∀ t ∈ l, ∀ q ∈ t, q ∈ A.edges.endpoints) :
    A.setsOutside (known.add (unknown known l)) + (unknown known l).length ≤
      A.setsOutside known := by
  induction l generalizing known with
  | nil => simp [unknown]
  | cons t l ih =>
    obtain ⟨ht, hl⟩ := List.forall_mem_cons.1 hl
    by_cases hknown : t.toList ∈ known
    · simpa [unknown, hknown] using ih known hl
    · have hrest := ih (known.insert t.toList) hl
      have hlt := setsOutside_insert_lt ht hknown
      simp only [unknown, hknown, ↓reduceIte, List.length_cons]
      rw [Known.add_cons]
      omega

/-- The rows of the queued sets and of every set met from there on that is not known. -/
def explore (A : Automaton) (known : Known) : List StateSet → List Row
  | [] => []
  | s :: queue =>
    let row := A.row s
    let fresh := unknown known (row.moves.map Prod.snd)
    row :: A.explore (known.add fresh) (queue ++ fresh)
termination_by queue => A.setsOutside known + queue.length
decreasing_by
  have hends : ∀ t ∈ (A.row s).moves.map Prod.snd, ∀ q ∈ t, q ∈ A.edges.endpoints := by
    intro t ht q hq
    obtain ⟨⟨c, _⟩, hmove, rfl⟩ := List.mem_map.1 ht
    exact mem_endpoints_of_mem_move ((mem_moves_row.1 hmove).2.1 ▸ hq)
  have := setsOutside_unknown_le known hends
  simp only [List.length_append, List.length_cons]
  omega

end Automaton

end PatternAutomata
