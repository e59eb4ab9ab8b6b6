import PatternAutomata.Ordered.Map
import PatternAutomata.Symbol

/-!
# States, edges and transition tables

States are natural numbers, and an edge is a pair of them. An automaton that is placed beside
another one is renumbered: all its states move upwards by one amount.

A transition table gives each of its edges a set of symbols. An edge without symbols is an edge all
the same: it stays in the table, although no word can follow it. What a table means is where it
leads from a state by a symbol, and the lemmas say this of each way to make a table.
-/

namespace PatternAutomata

abbrev State := Nat

abbrev StateSet := Std.ExtTreeSet State

def StateSet.shift (k : Nat) (s : StateSet) : StateSet := s.foldl (fun t p => t.insert (p + k)) ∅

theorem StateSet.shift_eq_ofList {k : Nat} {s : StateSet} :
    s.shift k = .ofList (s.toList.map (· + k)) := by
  rw [Std.ExtTreeSet.ofList_eq_foldl, List.foldl_map, shift,
    Std.ExtTreeSet.foldl_eq_foldl_toList]

@[simp] theorem StateSet.mem_shift {k : Nat} {s : StateSet} {q : State} :
    q ∈ s.shift k ↔ ∃ p ∈ s, p + k = q := by
  rw [shift_eq_ofList, Ordered.mem_ofList, List.mem_map]
  simp

/-- A pair of states that may carry symbols. -/
structure Edge where
  source : State
  target : State
deriving DecidableEq

def Edge.shift (k : Nat) (e : Edge) : Edge := ⟨e.source + k, e.target + k⟩

/-- The edges that leave one state: the symbols on each, by target. -/
abbrev Exits := Std.ExtTreeMap State Labels

/-- The symbols on each edge of an automaton. Only states that some edge leaves have an entry, so
tables with the same edges are equal. -/
structure Transitions where
  bySource : Std.ExtTreeMap State Exits
  exits_nonempty : ∀ p : State, bySource[p]? ≠ some ∅
deriving DecidableEq

namespace Transitions

instance : EmptyCollection Transitions := ⟨∅, by simp⟩

instance : Inhabited Transitions := ⟨∅⟩

def exits (t : Transitions) (p : State) : Exits := t.bySource[p]?.getD ∅

def labels? (t : Transitions) (p q : State) : Option Labels := (t.exits p)[q]?

/-- All edges, ordered by source and then by target. -/
def toList (t : Transitions) : List (Edge × Labels) :=
  t.bySource.toList.flatMap fun e => e.2.toList.map fun f => (⟨e.1, f.1⟩, f.2)

def size (t : Transitions) : Nat := t.toList.length

def endpoints (t : Transitions) : StateSet :=
  .ofList (t.toList.flatMap fun e => [e.1.source, e.1.target])

def chars (t : Transitions) : Alphabet := .ofList (t.toList.flatMap fun e => e.2.chars)

def ofEdge (p q : State) (labels : Labels) : Transitions where
  bySource := (∅ : Std.ExtTreeMap State Exits).insert p ((∅ : Exits).insert q labels)
  exits_nonempty i := by
    simp only [Std.ExtTreeMap.getElem?_insert]
    split <;> simp

/-- All edges of both tables; an edge of both carries the symbols of both. -/
def union (t u : Transitions) : Transitions where
  bySource := Ordered.merge (Ordered.merge (· ∪ ·)) t.bySource u.bySource
  exits_nonempty p := by
    have ht := t.exits_nonempty p
    have hu := u.exits_nonempty p
    rw [Ordered.getElem?_merge]
    cases h : t.bySource[p]? <;> cases h' : u.bySource[p]? <;>
      simp_all [Ordered.merge_eq_empty_iff]

/-- The table of the listed edges; an edge that is listed again gets the symbols of each listing. -/
def ofList (l : List (Edge × Labels)) : Transitions :=
  l.foldr (fun e t => (ofEdge e.1.source e.1.target e.2).union t) ∅

/-- The listed edges, each carrying the empty word. -/
def wires (l : List Edge) : Transitions := ofList (l.map (·, {.epsilon}))

def shift (k : Nat) (t : Transitions) : Transitions where
  bySource := Ordered.shiftKeys k (Ordered.shiftKeys k id) t.bySource
  exits_nonempty p := by
    have ht := t.exits_nonempty (p - k)
    rw [Ordered.getElem?_shiftKeys]
    split
    · intro h
      obtain ⟨e, he, hempty⟩ := Option.map_eq_some_iff.1 h
      exact ht (Ordered.shiftKeys_eq_empty_iff.1 hempty ▸ he)
    · nofun

/-- Where one edge that leaves `p` and carries `a` leads, in order. -/
def targetList (t : Transitions) (p : State) (a : Symbol) : List State :=
  (t.exits p).foldr (fun q labels l => if labels.contains a then q :: l else l) []

def targets (t : Transitions) (p : State) (a : Symbol) : StateSet := .ofList (t.targetList p a)

def labelCount (t : Transitions) : Nat := t.toList.foldr (fun e n => e.2.size + n) 0

/-- Whether no edge carries the empty word and no two edges with one source share a character. -/
def isDeterministic (t : Transitions) : Bool :=
  t.bySource.toList.all fun e => Ordered.isFresh {.epsilon} (e.2.toList.flatMap (·.2.toList))

@[ext] theorem ext {t u : Transitions} (h : ∀ p q, t.labels? p q = u.labels? p q) : t = u := by
  suffices t.bySource = u.bySource by
    cases t
    cases u
    simpa using this
  refine Std.ExtTreeMap.ext_getElem? fun {p} => ?_
  have hexits : t.exits p = u.exits p := Std.ExtTreeMap.ext_getElem? fun {q} => h p q
  have ht := t.exits_nonempty p
  have hu := u.exits_nonempty p
  unfold exits at hexits
  cases h : t.bySource[p]? <;> cases h' : u.bySource[p]? <;> simp_all

theorem mem_toList {t : Transitions} {p q : State} {labels : Labels} :
    (⟨p, q⟩, labels) ∈ t.toList ↔ t.labels? p q = some labels := by
  simp only [toList, List.mem_flatMap, List.mem_map, Prod.exists, Prod.mk.injEq, Edge.mk.injEq,
    Std.ExtTreeMap.mem_toList_iff_getElem?_eq_some, labels?, exits]
  constructor
  · rintro ⟨p, row, hp, q, labels, hq, ⟨rfl, rfl⟩, rfl⟩
    simpa [hp] using hq
  · intro h
    cases hp : t.bySource[p]? with
    | none => simp [hp] at h
    | some row => exact ⟨p, row, hp, q, labels, by simpa [hp] using h, ⟨rfl, rfl⟩, rfl⟩

@[simp] theorem mem_endpoints {t : Transitions} {q : State} :
    q ∈ t.endpoints ↔ ∃ e : Edge, (t.labels? e.source e.target).isSome ∧
      (q = e.source ∨ q = e.target) := by
  simp only [endpoints, Ordered.mem_ofList, List.mem_flatMap, Option.isSome_iff_exists,
    ← mem_toList]
  constructor
  · rintro ⟨e, he, h⟩
    exact ⟨e.1, ⟨e.2, he⟩, by simpa using h⟩
  · rintro ⟨e, ⟨labels, he⟩, h⟩
    exact ⟨_, he, by simpa using h⟩

@[simp] theorem mem_chars {t : Transitions} {c : Char} :
    c ∈ t.chars ↔ ∃ p q labels, t.labels? p q = some labels ∧ Symbol.char c ∈ labels := by
  simp only [chars, Ordered.mem_ofList, List.mem_flatMap, Labels.mem_chars, ← mem_toList]
  constructor
  · rintro ⟨e, he, h⟩
    exact ⟨_, _, e.2, he, h⟩
  · rintro ⟨p, q, labels, he, h⟩
    exact ⟨_, he, h⟩

@[simp] theorem labels?_empty (p q : State) : (∅ : Transitions).labels? p q = none := rfl

theorem labels?_ofEdge {p q p' q' : State} {labels : Labels} :
    (ofEdge p q labels).labels? p' q' = if p = p' ∧ q = q' then some labels else none := by
  simp only [labels?, exits, ofEdge, Std.ExtTreeMap.getElem?_insert]
  by_cases hp : p = p' <;> by_cases hq : q = q' <;>
    simp [hp, hq]

@[simp] theorem labels?_union {t u : Transitions} {p q : State} :
    (t.union u).labels? p q = Option.merge (· ∪ ·) (t.labels? p q) (u.labels? p q) := by
  simp only [labels?, exits, union, Ordered.getElem?_merge]
  cases t.bySource[p]? <;> cases u.bySource[p]? <;> simp

theorem union_assoc {t u v : Transitions} : (t.union u).union v = t.union (u.union v) := by
  ext1 p q
  simp only [labels?_union]
  cases t.labels? p q <;> cases u.labels? p q <;> cases v.labels? p q <;>
    simp [Ordered.union_assoc]

@[simp] theorem union_self (t : Transitions) : t.union t = t := by
  ext1 p q
  rw [labels?_union]
  cases t.labels? p q <;> simp

@[simp] theorem empty_union {t : Transitions} : (∅ : Transitions).union t = t := by
  ext1 p q
  rw [labels?_union, labels?_empty]
  cases t.labels? p q <;> rfl

theorem labels?_shift {t : Transitions} {k p q : State} :
    (t.shift k).labels? p q = if k ≤ p ∧ k ≤ q then t.labels? (p - k) (q - k) else none := by
  simp only [labels?, exits, shift, Ordered.getElem?_shiftKeys]
  by_cases hp : k ≤ p
  · cases t.bySource[p - k]? <;> simp [hp, Ordered.getElem?_shiftKeys]
  · simp [hp]

theorem targetList_eq_filter {t : Transitions} {p : State} {a : Symbol} :
    t.targetList p a = ((t.exits p).toList.filter (·.2.contains a)).map Prod.fst := by
  rw [targetList, Std.ExtTreeMap.foldr_eq_foldr_toList]
  induction (t.exits p).toList with
  | nil => rfl
  | cons e l ih => by_cases h : a ∈ e.2 <;> simp_all

@[simp] theorem mem_targetList {t : Transitions} {p q : State} {a : Symbol} :
    q ∈ t.targetList p a ↔ q ∈ t.targets p a :=
  Ordered.mem_ofList.symm

theorem mem_targets {t : Transitions} {p q : State} {a : Symbol} :
    q ∈ t.targets p a ↔ ∃ labels, t.labels? p q = some labels ∧ a ∈ labels := by
  simp [← mem_targetList, targetList_eq_filter, labels?]

@[simp] theorem targets_empty (p : State) (a : Symbol) : (∅ : Transitions).targets p a = ∅ := rfl

@[simp] theorem mem_targets_union {t u : Transitions} {p q : State} {a : Symbol} :
    q ∈ (t.union u).targets p a ↔ q ∈ t.targets p a ∨ q ∈ u.targets p a := by
  simp only [mem_targets, labels?_union]
  cases t.labels? p q <;> cases u.labels? p q <;> simp

@[simp] theorem mem_targets_ofEdge {labels : Labels} {p q p' q' : State} {a : Symbol} :
    q ∈ (ofEdge p' q' labels).targets p a ↔ p = p' ∧ q = q' ∧ a ∈ labels := by
  simp only [mem_targets, labels?_ofEdge, Option.ite_none_right_eq_some, Option.some.injEq]
  grind

@[simp] theorem mem_targets_ofList {l : List (Edge × Labels)} {p q : State}
    {a : Symbol} : q ∈ (ofList l).targets p a ↔ ∃ labels, (⟨p, q⟩, labels) ∈ l ∧ a ∈ labels := by
  induction l with
  | nil => simp [ofList]
  | cons e l ih =>
    obtain ⟨⟨p', q'⟩, labels⟩ := e
    have ih : q ∈ Transitions.targets (l.foldr _ ∅) p a ↔ _ := ih
    simp only [ofList, List.foldr_cons, mem_targets_union, mem_targets_ofEdge, ih, List.mem_cons,
      Prod.mk.injEq, Edge.mk.injEq]
    grind

@[simp] theorem mem_targets_wires {l : List Edge} {p q : State} {a : Symbol} :
    q ∈ (wires l).targets p a ↔ a = .epsilon ∧ ⟨p, q⟩ ∈ l := by
  simp only [wires, mem_targets_ofList, List.mem_map, Prod.mk.injEq]
  constructor
  · rintro ⟨_, ⟨_, he, rfl, rfl⟩, ha⟩
    exact ⟨Ordered.mem_singleton.1 ha, he⟩
  · rintro ⟨rfl, he⟩
    exact ⟨_, ⟨_, he, rfl, rfl⟩, Ordered.mem_singleton.2 rfl⟩

theorem mem_targets_shift {t : Transitions} {k p q : State} {a : Symbol} :
    q ∈ (t.shift k).targets p a ↔ ∃ p' q', p' + k = p ∧ q' + k = q ∧ q' ∈ t.targets p' a := by
  simp only [mem_targets, labels?_shift, Option.ite_none_right_eq_some]
  constructor
  · rintro ⟨labels, ⟨⟨hp, hq⟩, he⟩, ha⟩
    exact ⟨_, _, Nat.sub_add_cancel hp, Nat.sub_add_cancel hq, labels, he, ha⟩
  · rintro ⟨p', q', rfl, rfl, labels, he, ha⟩
    exact ⟨labels, by simpa using he, ha⟩

theorem length_targetList_le (t : Transitions) (p : State) (a : Symbol) :
    (t.targetList p a).length ≤ t.toList.countP (·.1.source = p) := by
  rw [targetList_eq_filter, List.length_map]
  refine Nat.le_trans (List.length_filter_le ..) ?_
  unfold exits toList
  cases hp : t.bySource[p]? with
  | none => simp
  | some row =>
    obtain ⟨l, r, hlr⟩ := List.append_of_mem
      (Std.ExtTreeMap.mem_toList_iff_getElem?_eq_some.2 hp)
    simp [hlr, List.countP_append, List.countP_map, Function.comp_def]
    omega

theorem mem_endpoints_of_mem_targets {t : Transitions} {p q : State} {a : Symbol}
    (h : q ∈ t.targets p a) : q ∈ t.endpoints := by
  obtain ⟨labels, he, _⟩ := mem_targets.1 h
  exact mem_endpoints.2 ⟨⟨p, q⟩, by simp [he], .inr rfl⟩

end Transitions

end PatternAutomata
