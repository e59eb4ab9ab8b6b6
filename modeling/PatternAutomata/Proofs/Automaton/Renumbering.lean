import PatternAutomata.Proofs.Automaton.Branching

/-!
# Renumbering before or after

It makes no difference whether an automaton is put together and then renumbered or its parts are
renumbered first. Every edit commutes with a renumbering in this way, and so does the fork of two
automata, whose wires are known by the edges they hold. Two renumberings are one by the sum.
-/

namespace PatternAutomata

namespace StateSet

variable {s t : StateSet} {k : Nat} {q : State}

theorem shift_union : StateSet.shift k (s ∪ t) = s.shift k ∪ t.shift k := by
  apply Std.ExtTreeSet.ext_mem
  intro r
  simp only [mem_shift, Std.ExtTreeSet.mem_union_iff, or_and_right, exists_or]

theorem shift_insert : StateSet.shift k (s.insert q) = (s.shift k).insert (q + k) := by
  apply Std.ExtTreeSet.ext_mem
  intro r
  simp only [mem_shift, Ordered.mem_insert, or_and_right, exists_or, exists_eq_left]
  rw [eq_comm]

theorem shift_singleton : StateSet.shift k {q} = {q + k} := by
  apply Std.ExtTreeSet.ext_mem
  intro r
  simp only [mem_shift, Ordered.mem_singleton, exists_eq_left]
  exact eq_comm

theorem shift_shift (j : Nat) : (s.shift k).shift j = s.shift (k + j) := by
  apply Std.ExtTreeSet.ext_mem
  intro r
  simp [Nat.add_assoc]

@[simp] theorem shift_zero : s.shift 0 = s := by
  apply Std.ExtTreeSet.ext_mem
  intro r
  simp

end StateSet

namespace Transitions

variable {t u : Transitions} {k : Nat} {l l' : List Edge} {p q : State}

theorem shift_union : (t.union u).shift k = (t.shift k).union (u.shift k) := by
  ext1 p q
  simp only [labels?_shift, labels?_union]
  split
  · rfl
  · rfl

theorem shift_shift (j : Nat) : (t.shift k).shift j = t.shift (k + j) := by
  ext1 p q
  simp only [labels?_shift]
  by_cases h : k + j ≤ p ∧ k + j ≤ q
  · have hj : j ≤ p ∧ j ≤ q := by omega
    have hk : k ≤ p - j ∧ k ≤ q - j := by omega
    rw [if_pos hj, if_pos hk, if_pos h, Nat.sub_sub, Nat.sub_sub, Nat.add_comm j k]
  · have hk : ¬((j ≤ p ∧ j ≤ q) ∧ k ≤ p - j ∧ k ≤ q - j) := by omega
    rw [if_neg h, ← ite_and, if_neg hk]

@[simp] theorem shift_zero : t.shift 0 = t := by
  ext1 p q
  simp [labels?_shift]

theorem endpoints_shift : (t.shift k).endpoints = t.endpoints.shift k := by
  apply Std.ExtTreeSet.ext_mem
  intro q
  rw [mem_endpoints_shift, StateSet.mem_shift]

theorem chars_shift : (t.shift k).chars = t.chars := by
  apply Std.ExtTreeSet.ext_mem
  intro c
  exact mem_chars_shift

theorem labels?_wires : (wires l).labels? p q = if ⟨p, q⟩ ∈ l then some {.epsilon} else none := by
  induction l with
  | nil => rfl
  | cons e l ih =>
    have hcons : wires (e :: l) = (ofEdge e.source e.target {.epsilon}).union (wires l) := rfl
    have hedge : (⟨p, q⟩ : Edge) = e ↔ e.source = p ∧ e.target = q := by
      cases e
      simp only [Edge.mk.injEq]
      exact and_congr eq_comm eq_comm
    rw [hcons, labels?_union, labels?_ofEdge, ih]
    simp only [List.mem_cons, hedge]
    by_cases he : e.source = p ∧ e.target = q
    · by_cases hl : ⟨p, q⟩ ∈ l <;> simp [he, hl]
    · by_cases hl : ⟨p, q⟩ ∈ l <;> simp [he, hl]

/-- Neither order nor repetition counts in a list of wires. -/
theorem wires_congr (h : ∀ e, e ∈ l ↔ e ∈ l') : wires l = wires l' := by
  ext1 p q
  simp only [labels?_wires, h]

theorem shift_wires : (wires l).shift k = wires (l.map (Edge.shift k)) := by
  ext1 p q
  rw [labels?_shift, labels?_wires, labels?_wires]
  have hmem : (⟨p, q⟩ : Edge) ∈ l.map (Edge.shift k) ↔
      (k ≤ p ∧ k ≤ q) ∧ ⟨p - k, q - k⟩ ∈ l := by
    rw [List.mem_map]
    constructor
    · intro h
      obtain ⟨e, he, heq⟩ := h
      obtain ⟨hp, hq⟩ := Edge.mk.inj heq
      subst hp hq
      simpa using he
    · intro h
      obtain ⟨⟨hp, hq⟩, he⟩ := h
      exact ⟨_, he, by simp [Edge.shift, Nat.sub_add_cancel hp, Nat.sub_add_cancel hq]⟩
  by_cases hk : k ≤ p ∧ k ≤ q
  · simp [hmem, hk]
  · simp [hmem, hk]

end Transitions

namespace Automaton

attribute [ext] Automaton

variable {A B : Automaton} {k : Nat} {q start left right final : State} {s : StateSet}

theorem shift_setStart : (A.setStart q).shift k = (A.shift k).setStart (q + k) := by
  ext1
  case states => exact StateSet.shift_insert
  all_goals rfl

theorem shift_setFinals : (A.setFinals s).shift k = (A.shift k).setFinals (s.shift k) := by
  ext1
  case states => exact StateSet.shift_union
  all_goals rfl

theorem shift_addEdges {t : Transitions} :
    (A.addEdges t).shift k = (A.shift k).addEdges (t.shift k) := by
  ext1
  case states =>
    have hends := Transitions.endpoints_shift (t := t) (k := k)
    simp only [shift, addEdges, StateSet.shift_union, hends]
  case alphabet =>
    have hchars := Transitions.chars_shift (t := t) (k := k)
    simp only [shift, addEdges, hchars]
  case edges => exact Transitions.shift_union
  all_goals rfl

theorem shift_absorb : (A.absorb B).shift k = (A.shift k).absorb (B.shift k) := by
  ext1
  case states => exact StateSet.shift_union
  case edges => exact Transitions.shift_union
  all_goals rfl

theorem shift_shift (j : Nat) : (A.shift k).shift j = A.shift (k + j) := by
  ext1
  case states => exact StateSet.shift_shift j
  case finals => exact StateSet.shift_shift j
  case edges => exact Transitions.shift_shift j
  case start => simp [shift, Function.comp_def, Nat.add_assoc]
  case alphabet => rfl

@[simp] theorem shift_zero : A.shift 0 = A := by
  ext1 <;> simp [shift]

theorem shift_fork : (A.fork B start left right final).shift k =
    (A.shift k).fork (B.shift k) (start + k) (left + k) (right + k) (final + k) := by
  rw [fork, shift_setFinals, shift_setStart, shift_addEdges, shift_absorb,
    Transitions.shift_wires, StateSet.shift_singleton, fork]
  congr 3
  apply Transitions.wires_congr
  intro e
  simp only [List.map_append, List.map_cons, List.map_nil, List.map_map, List.mem_append,
    List.mem_cons, List.mem_map, Std.ExtTreeSet.mem_toList, Std.ExtTreeSet.mem_union_iff,
    mem_finals_shift, Function.comp_apply, Edge.shift]
  grind

end Automaton

end PatternAutomata
