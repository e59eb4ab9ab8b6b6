import PatternAutomata.Proofs.Automaton.Joining

/-!
# Automata side by side

Two automata side by side share a new start below them and a new final state above them. No edge
enters the start and none leaves the final state, so a path between the two runs through exactly one
of the operands. A union renumbers its operands and forks them: the bounds of the operands say by
how much, and what the bounds of the result are. Unions nested to the right follow by induction,
since the least state of the result is that of the first operand.
-/

namespace PatternAutomata.Automaton

variable {A B C : Automaton} {p q r start left right final : State} {u v w : List Char}

theorem mem_targets_fork {a : Symbol} :
    q ∈ (A.fork B start left right final).targets p a ↔
      q ∈ A.targets p a ∨ q ∈ B.targets p a ∨ a = .epsilon ∧
        (p = start ∧ (q = left ∨ q = right) ∨ (p ∈ A.finals ∨ p ∈ B.finals) ∧ q = final) := by
  simp only [fork, targets_setFinals, targets_setStart, mem_targets_addEdges, mem_targets_absorb,
    Transitions.mem_targets_wires, List.mem_append, List.mem_map, Std.ExtTreeSet.mem_toList,
    Std.ExtTreeSet.mem_union_iff, List.mem_cons, List.not_mem_nil, Edge.mk.injEq]
  grind

@[simp] theorem start_fork : (A.fork B start left right final).start = some start := rfl

@[simp] theorem mem_finals_fork : q ∈ (A.fork B start left right final).finals ↔ q = final :=
  Ordered.mem_singleton

theorem mem_states_fork (hA : A.WellFormed) (hB : B.WellFormed) (hleft : left ∈ A.states)
    (hright : right ∈ B.states) :
    q ∈ (A.fork B start left right final).states ↔
      q ∈ A.states ∨ q ∈ B.states ∨ q = start ∨ q = final := by
  have hAf := hA.finals_mem
  have hBf := hB.finals_mem
  simp only [fork, setFinals, setStart, addEdges, absorb, Std.ExtTreeSet.mem_union_iff,
    Ordered.mem_insert, Ordered.mem_singleton, Transitions.mem_endpoints_wires, List.mem_append,
    List.mem_map, Std.ExtTreeSet.mem_toList, List.mem_cons, List.not_mem_nil]
  grind

theorem WellFormed.fork (hA : A.WellFormed) (hB : B.WellFormed) (start left right final : State) :
    (A.fork B start left right final).WellFormed :=
  (((hA.absorb hB).addEdges _).setStart start).setFinals {final}

theorem exists_fork_of_parallel (h : A.parallel B = .ok C) :
    ∃ start left right final, C = A.fork B start left right final := by
  obtain ⟨_, -, h⟩ := exists_ok_of_bind h
  obtain ⟨left, -, h⟩ := exists_ok_of_bind h
  obtain ⟨right, -, h⟩ := exists_ok_of_bind h
  obtain ⟨bottom, -, h⟩ := exists_ok_of_bind h
  obtain ⟨top, -, h⟩ := exists_ok_of_bind h
  exact ⟨bottom - 1, left, right, top + 1, (Except.ok.inj h).symm⟩

theorem WellFormed.parallel (hA : A.WellFormed) (hB : B.WellFormed) (h : A.parallel B = .ok C) :
    C.WellFormed := by
  obtain ⟨start, left, right, final, rfl⟩ := exists_fork_of_parallel h
  exact hA.fork hB start left right final

theorem WellFormed.union (hA : A.WellFormed) (hB : B.WellFormed) (h : A.union B = .ok C) :
    C.WellFormed := by
  obtain ⟨_, -, h⟩ := exists_ok_of_bind h
  obtain ⟨k, -, h⟩ := exists_ok_of_bind h
  exact (hA.shift 1).parallel (hB.shift k) h

/-- Where a fork may be made: the new states are fresh, and the operands do not meet. -/
structure Forkable (A B : Automaton) (start final : State) : Prop where
  left_wf : A.WellFormed
  right_wf : B.WellFormed
  below : A.Below B
  start_lt_left : ∀ p ∈ A.states, start < p
  start_lt_right : ∀ p ∈ B.states, start < p
  left_lt_final : ∀ p ∈ A.states, p < final
  right_lt_final : ∀ p ∈ B.states, p < final
  start_lt_final : start < final

namespace Forkable

variable (h : A.Forkable B start final)

include h

theorem noEntry (hleft : left ∈ A.states) (hright : right ∈ B.states) :
    (A.fork B start left right final).NoEntry start := by
  intro p a hp
  rcases mem_targets_fork.1 hp with hp | hp | ⟨-, ⟨-, rfl | rfl⟩ | ⟨-, hp⟩⟩
  · exact Nat.lt_irrefl _ (h.start_lt_left _ (h.left_wf.target_mem hp))
  · exact Nat.lt_irrefl _ (h.start_lt_right _ (h.right_wf.target_mem hp))
  · exact Nat.lt_irrefl _ (h.start_lt_left _ hleft)
  · exact Nat.lt_irrefl _ (h.start_lt_right _ hright)
  · exact Nat.ne_of_lt h.start_lt_final hp

theorem noExit : (A.fork B start left right final).NoExit final := by
  intro a q hq
  rcases mem_targets_fork.1 hq with hq | hq | ⟨-, ⟨hq, -⟩ | ⟨hq | hq, -⟩⟩
  · exact Nat.lt_irrefl _ (h.left_lt_final _ (h.left_wf.source_mem hq))
  · exact Nat.lt_irrefl _ (h.right_lt_final _ (h.right_wf.source_mem hq))
  · exact Nat.ne_of_gt h.start_lt_final hq
  · exact Nat.lt_irrefl _ (h.left_lt_final _ (h.left_wf.finals_mem _ hq))
  · exact Nat.lt_irrefl _ (h.right_lt_final _ (h.right_wf.finals_mem _ hq))

theorem partOf_left : A.PartOf (A.fork B start left right final) final where
  keeps _ _ _ hq := mem_targets_fork.2 (.inl hq)
  leaves p hp a q hq := by
    rcases mem_targets_fork.1 hq with hq | hq | ⟨ha, ⟨rfl, -⟩ | ⟨hf | hf, hq⟩⟩
    · exact .inl hq
    · exact absurd (h.right_wf.source_mem hq) (h.below.notMem hp)
    · exact absurd (h.start_lt_left _ hp) (Nat.lt_irrefl _)
    · exact .inr ⟨ha, hf, hq⟩
    · exact absurd (h.right_wf.finals_mem _ hf) (h.below.notMem hp)
  wired p hp := mem_targets_fork.2 (.inr (.inr ⟨rfl, .inr ⟨.inl hp, rfl⟩⟩))

theorem partOf_right : B.PartOf (A.fork B start left right final) final where
  keeps _ _ _ hq := mem_targets_fork.2 (.inr (.inl hq))
  leaves p hp a q hq := by
    rcases mem_targets_fork.1 hq with hq | hq | ⟨ha, ⟨rfl, -⟩ | ⟨hf | hf, hq⟩⟩
    · exact absurd hp (h.below.notMem (h.left_wf.source_mem hq))
    · exact .inl hq
    · exact absurd (h.start_lt_right _ hp) (Nat.lt_irrefl _)
    · exact absurd hp (h.below.notMem (h.left_wf.finals_mem _ hf))
    · exact .inr ⟨ha, hf, hq⟩
  wired p hp := mem_targets_fork.2 (.inr (.inr ⟨rfl, .inr ⟨.inr hp, rfl⟩⟩))

theorem path_final {X : Automaton} (hX : X.PartOf (A.fork B start left right final) final)
    (hwf : X.WellFormed) (hp : p ∈ X.states) (hfinal : final ∉ X.states) :
    (A.fork B start left right final).Path p w final ↔ ∃ f ∈ X.finals, X.Path p w f := by
  rw [hX.path_iff hwf hp hfinal]
  constructor
  · rintro ⟨u, v, f, hf, hu, hv, rfl⟩
    obtain ⟨rfl, -⟩ := hv.eq_of_no_exit h.noExit
    exact ⟨f, hf, by rwa [List.append_nil]⟩
  · rintro ⟨f, hf, hu⟩
    exact ⟨w, [], f, hf, hu, .nil _, List.append_nil w⟩

/-- A path from the new start begins with the step to one of the operands. -/
theorem path_start (hr : r ≠ start) :
    (A.fork B start left right final).Path start w r ↔
      (A.fork B start left right final).Path left w r ∨
        (A.fork B start left right final).Path right w r := by
  constructor
  · rintro (_ | ⟨he, hpath⟩)
    · exact absurd rfl hr
    · rcases mem_targets_fork.1 he with he | he | ⟨rfl, ⟨-, rfl | rfl⟩ | ⟨hf | hf, -⟩⟩
      · exact absurd (h.start_lt_left _ (h.left_wf.source_mem he)) (Nat.lt_irrefl _)
      · exact absurd (h.start_lt_right _ (h.right_wf.source_mem he)) (Nat.lt_irrefl _)
      · exact .inl hpath
      · exact .inr hpath
      · exact absurd (h.start_lt_left _ (h.left_wf.finals_mem _ hf)) (Nat.lt_irrefl _)
      · exact absurd (h.start_lt_right _ (h.right_wf.finals_mem _ hf)) (Nat.lt_irrefl _)
  · rintro (hpath | hpath)
    · exact .epsilon (mem_targets_fork.2 (.inr (.inr ⟨rfl, .inl ⟨rfl, .inl rfl⟩⟩))) hpath
    · exact .epsilon (mem_targets_fork.2 (.inr (.inr ⟨rfl, .inl ⟨rfl, .inr rfl⟩⟩))) hpath

theorem language_fork (hleft : A.start = some left) (hright : B.start = some right) :
    (A.fork B start left right final).language = A.language + B.language := by
  have hA : final ∉ A.states := fun hf => Nat.lt_irrefl _ (h.left_lt_final _ hf)
  have hB : final ∉ B.states := fun hf => Nat.lt_irrefl _ (h.right_lt_final _ hf)
  apply Language.ext
  intro w
  have hfork : w ∈ (A.fork B start left right final).language ↔
      (A.fork B start left right final).Path start w final := by
    simp [accepts_iff]
  have hends : final ≠ start := Nat.ne_of_gt h.start_lt_final
  rw [hfork, h.path_start hends,
    h.path_final h.partOf_left h.left_wf (h.left_wf.start_mem _ hleft) hA,
    h.path_final h.partOf_right h.right_wf (h.right_wf.start_mem _ hright) hB, Language.mem_add]
  simp [accepts_iff, hleft, hright]

end Forkable

/-- A well-formed automaton with its start, its least and its greatest state. -/
structure Spans (A : Automaton) (start least greatest : State) : Prop where
  wellFormed : A.WellFormed
  start_eq : A.start = some start
  minState_eq : A.minState = .ok least
  maxState_eq : A.maxState = .ok greatest

theorem exists_spans (hA : A.WellFormed) (hstart : A.start.isSome) :
    ∃ start least greatest, A.Spans start least greatest := by
  obtain ⟨start, hs⟩ := Option.isSome_iff_exists.1 hstart
  have hmem := hA.start_mem start hs
  obtain ⟨least, hmin⟩ := exists_minState hmem
  obtain ⟨greatest, hmax⟩ := exists_maxState hmem
  exact ⟨start, least, greatest, hA, hs, hmin, hmax⟩

namespace Spans

variable {a b m n top high : State}

theorem start_mem (hA : A.Spans a m top) : a ∈ A.states := hA.wellFormed.start_mem a hA.start_eq

theorem le_of_mem (hA : A.Spans a m top) (hp : p ∈ A.states) : m ≤ p :=
  (minState_eq_ok_iff.1 hA.minState_eq).2 p hp

theorem ge_of_mem (hA : A.Spans a m top) (hp : p ∈ A.states) : p ≤ top :=
  (maxState_eq_ok_iff.1 hA.maxState_eq).2 p hp

theorem shift (hA : A.Spans a m top) (k : Nat) : (A.shift k).Spans (a + k) (m + k) (top + k) where
  wellFormed := hA.wellFormed.shift k
  start_eq := start_shift hA.start_eq
  minState_eq := by
    obtain ⟨hm, hle⟩ := minState_eq_ok_iff.1 hA.minState_eq
    apply minState_eq_ok_iff.2
    refine ⟨mem_states_shift.2 ⟨m, hm, rfl⟩, ?_⟩
    intro r hr
    obtain ⟨q, hq, rfl⟩ := mem_states_shift.1 hr
    exact Nat.add_le_add_right (hle q hq) k
  maxState_eq := by
    obtain ⟨htop, hle⟩ := maxState_eq_ok_iff.1 hA.maxState_eq
    apply maxState_eq_ok_iff.2
    refine ⟨mem_states_shift.2 ⟨top, htop, rfl⟩, ?_⟩
    intro r hr
    obtain ⟨q, hq, rfl⟩ := mem_states_shift.1 hr
    exact Nat.add_le_add_right (hle q hq) k

/-- A fork lies between its new states. -/
theorem fork (h : A.Forkable B start final) (hleft : left ∈ A.states) (hright : right ∈ B.states) :
    (A.fork B start left right final).Spans start start final where
  wellFormed := h.left_wf.fork h.right_wf start left right final
  start_eq := rfl
  minState_eq := by
    have hmem {q : State} : q ∈ (A.fork B start left right final).states ↔ _ :=
      mem_states_fork h.left_wf h.right_wf hleft hright
    refine minState_eq_ok_iff.2 ⟨hmem.2 (.inr (.inr (.inl rfl))), ?_⟩
    intro q hq
    rcases hmem.1 hq with hq | hq | rfl | rfl
    · exact Nat.le_of_lt (h.start_lt_left q hq)
    · exact Nat.le_of_lt (h.start_lt_right q hq)
    · exact Nat.le_refl q
    · exact Nat.le_of_lt h.start_lt_final
  maxState_eq := by
    have hmem {q : State} : q ∈ (A.fork B start left right final).states ↔ _ :=
      mem_states_fork h.left_wf h.right_wf hleft hright
    refine maxState_eq_ok_iff.2 ⟨hmem.2 (.inr (.inr (.inr rfl))), ?_⟩
    intro q hq
    rcases hmem.1 hq with hq | hq | rfl | rfl
    · exact Nat.le_of_lt (h.left_lt_final q hq)
    · exact Nat.le_of_lt (h.right_lt_final q hq)
    · exact Nat.le_of_lt h.start_lt_final
    · exact Nat.le_refl q

theorem forkable (hA : A.Spans a (m + 1) top) (hB : B.Spans b n high) (hAB : A.Below B) :
    A.Forkable B m (high + 1) where
  left_wf := hA.wellFormed
  right_wf := hB.wellFormed
  below := hAB
  start_lt_left _ hp := hA.le_of_mem hp
  start_lt_right p hp := Nat.lt_trans (hA.le_of_mem hA.start_mem) (hAB a hA.start_mem p hp)
  left_lt_final p hp := by
    have hlt := hAB p hp b hB.start_mem
    have hle := hB.ge_of_mem hB.start_mem
    exact Nat.lt_succ_of_le (Nat.le_of_lt (Nat.lt_of_lt_of_le hlt hle))
  right_lt_final _ hp := Nat.lt_succ_of_le (hB.ge_of_mem hp)
  start_lt_final := by
    have hma := hA.le_of_mem hA.start_mem
    have hab := hAB a hA.start_mem b hB.start_mem
    have hbh := hB.ge_of_mem hB.start_mem
    unfold State at *
    omega

theorem parallel_eq (hA : A.Spans a (m + 1) top) (hB : B.Spans b n high) (hAB : A.Below B) :
    A.parallel B = .ok (A.fork B m a b (high + 1)) := by
  simp only [parallel, checkBelow_eq_ok hAB hA.start_mem hB.start_mem,
    startState_eq_ok_iff.2 hA.start_eq, startState_eq_ok_iff.2 hB.start_eq, hA.minState_eq,
    hB.maxState_eq, bind, Except.bind, pure, Except.pure]
  rfl

/-- The second operand of a union is brought above the first one, which makes room for a start. -/
theorem below_union (hA : A.Spans a m top) (hB : B.Spans b n high) :
    (A.shift 1).Below (B.shift (top + 2 - n)) :=
  below_shift (hA.shift 1).maxState_eq hB.minState_eq

theorem forkable_union (hA : A.Spans a m top) (hB : B.Spans b n high) :
    (A.shift 1).Forkable (B.shift (top + 2 - n)) m (high + (top + 2 - n) + 1) :=
  (hA.shift 1).forkable (hB.shift _) (hA.below_union hB)

theorem union_eq (hA : A.Spans a m top) (hB : B.Spans b n high) :
    A.union B = .ok ((A.shift 1).fork (B.shift (top + 2 - n)) m (a + 1) (b + (top + 2 - n))
      (high + (top + 2 - n) + 1)) := by
  have h := (hA.shift 1).parallel_eq (hB.shift (top + 2 - n)) (hA.below_union hB)
  simp only [Automaton.union, shiftAbove, (hA.shift 1).maxState_eq, hB.minState_eq, bind,
    Except.bind, pure, Except.pure]
  exact h

theorem language_union (hA : A.Spans a m top) (hB : B.Spans b n high) :
    ((A.shift 1).fork (B.shift (top + 2 - n)) m (a + 1) (b + (top + 2 - n))
      (high + (top + 2 - n) + 1)).language = A.language + B.language := by
  rw [(hA.forkable_union hB).language_fork (hA.shift 1).start_eq (hB.shift _).start_eq,
    language_shift, language_shift]

end Spans

/-- Automata with start states have a union, whatever the numbers of their states are. -/
theorem exists_union (hA : A.WellFormed) (hB : B.WellFormed) (hleft : A.start.isSome)
    (hright : B.start.isSome) :
    ∃ C, A.union B = .ok C ∧ C.language = A.language + B.language := by
  obtain ⟨_, _, _, hA⟩ := exists_spans hA hleft
  obtain ⟨_, _, _, hB⟩ := exists_spans hB hright
  exact ⟨_, hA.union_eq hB, hA.language_union hB⟩

/-- The union of `A` with the union of the automata after it, nested to the right. -/
def nestedUnion (A : Automaton) : List Automaton → Except Fault Automaton
  | [] => .ok A
  | B :: rest => do A.union (← nestedUnion B rest)

theorem nestedUnion_cons {rest : List Automaton} (h : nestedUnion B rest = .ok C) :
    nestedUnion A (B :: rest) = A.union C := by
  simp only [nestedUnion, h, bind, Except.bind]

theorem exists_nestedUnion {rest : List Automaton} {a m top : State} (hA : A.Spans a m top)
    (hrest : ∀ B ∈ rest, B.WellFormed ∧ B.start.isSome) :
    ∃ C c high, nestedUnion A rest = .ok C ∧ C.Spans c m high ∧
      C.language = ((A :: rest).map language).sum := by
  induction rest generalizing A a m top with
  | nil => exact ⟨A, a, top, rfl, hA, by simp⟩
  | cons B rest ih =>
    obtain ⟨⟨hBwf, hBstart⟩, hrest⟩ := List.forall_mem_cons.1 hrest
    obtain ⟨b, n, _, hB⟩ := exists_spans hBwf hBstart
    obtain ⟨C, c, high, hC, hspans, hlang⟩ := ih hB hrest
    have hunion := hA.union_eq hspans
    have hfork := hA.forkable_union hspans
    refine ⟨_, _, _, (nestedUnion_cons hC).trans hunion,
      .fork hfork (hA.shift 1).start_mem (hspans.shift _).start_mem, ?_⟩
    rw [hA.language_union hspans, hlang]
    rfl

/-- In a nested union of two automata or more, all of them have start states. -/
theorem start_isSome_of_union (h : A.union B = .ok C) :
    A.start.isSome ∧ B.start.isSome := by
  obtain ⟨_, -, h⟩ := exists_ok_of_bind h
  obtain ⟨k, -, h⟩ := exists_ok_of_bind h
  obtain ⟨_, -, h⟩ := exists_ok_of_bind h
  obtain ⟨left, hleft, h⟩ := exists_ok_of_bind h
  obtain ⟨right, hright, -⟩ := exists_ok_of_bind h
  have hA := startState_eq_ok_iff.1 hleft
  have hB := startState_eq_ok_iff.1 hright
  constructor
  · simpa [shift] using Option.isSome_of_eq_some hA
  · simpa [shift] using Option.isSome_of_eq_some hB

theorem start_isSome_of_nestedUnion {rest : List Automaton}
    (h : nestedUnion A (B :: rest) = .ok C) : ∀ X ∈ A :: B :: rest, X.start.isSome := by
  induction rest generalizing A B C with
  | nil =>
    have hunion : A.union B = .ok C := h
    simpa using start_isSome_of_union hunion
  | cons D rest ih =>
    obtain ⟨N, hN, h⟩ := exists_ok_of_bind h
    obtain ⟨hA, -⟩ := start_isSome_of_union h
    intro X hX
    cases hX with
    | head => exact hA
    | tail _ hX => exact ih hN X hX

end PatternAutomata.Automaton
