import PatternAutomata.Proofs.Automaton.Renumbering

/-!
# Alternations are nested unions

An alternation renumbers each branch once and then adds all wires, while nested unions renumber the
branches after a branch again at every level. Both make the same automaton. The invariant of the
assembly compares what has been put together with what there was before it and the nested union of
the branches from here on: only the start and the finals of that union may still be missing among
the states, since the wires of the next level, or the last step, name them.
-/

namespace PatternAutomata.Automaton

variable {A B C R U : Automaton} {a b c m n s top high p q start inner final : State}
  {finals : StateSet} {rest : List Automaton} {slot next : Slot} {later : List Slot}

/-- `C` is made of `R` and `U`, but for the start and the finals of `U` and for their states. -/
structure Holds (C R U : Automaton) (start : State) (finals : StateSet) : Prop where
  start_eq : U.start = some start
  finals_eq : U.finals = finals
  mem_states : ∀ {q}, q ∈ C.states ∨ q = start ∨ q ∈ finals ↔ q ∈ R.states ∨ q ∈ U.states
  alphabet_eq : C.alphabet = R.alphabet ∪ U.alphabet
  edges_eq : C.edges = R.edges.union U.edges

theorem Holds.absorb (hA : A.Spans a m top) : (R.absorb A).Holds R A a A.finals where
  start_eq := hA.start_eq
  finals_eq := rfl
  mem_states {q} := by
    have hstart := hA.start_mem
    have hfinals := hA.wellFormed.finals_mem q
    simp only [Automaton.absorb, Std.ExtTreeSet.mem_union_iff]
    grind
  alphabet_eq := rfl
  edges_eq := rfl

/-- The wires of a union in which the start of `A` is `entry` and the operand above it has the start
`inner` and the given finals. -/
def unionWires (A : Automaton) (finals : StateSet) (start entry inner final : State) : List Edge :=
  [⟨start, entry⟩, ⟨start, inner⟩] ++ (A.finals.toList ++ finals.toList).map (Edge.mk · final)

/-- The new final state is the end of a wire only if there are finals to be wired to it. -/
theorem mem_endpoints_unionWires :
    q ∈ (Transitions.wires (A.unionWires finals start a inner final)).endpoints ∨ q = final ↔
      q = start ∨ q = a ∨ q = inner ∨ q ∈ A.finals ∨ q ∈ finals ∨ q = final := by
  simp only [Transitions.mem_endpoints_wires, unionWires, List.mem_append, List.mem_cons,
    List.not_mem_nil, or_false, List.mem_map, Std.ExtTreeSet.mem_toList]
  constructor
  · rintro (⟨e, (rfl | rfl) | ⟨f, hf, rfl⟩, hq⟩ | rfl)
    all_goals grind
  · rintro (rfl | rfl | rfl | hf | hf | rfl)
    · exact .inl ⟨_, .inl (.inl rfl), .inl rfl⟩
    · exact .inl ⟨_, .inl (.inl rfl), .inr rfl⟩
    · exact .inl ⟨_, .inl (.inr rfl), .inr rfl⟩
    · exact .inl ⟨_, .inr ⟨q, .inl hf, rfl⟩, .inl rfl⟩
    · exact .inl ⟨_, .inr ⟨q, .inr hf, rfl⟩, .inl rfl⟩
    · exact .inr rfl

theorem fork_eq (hfinals : U.finals = finals) : A.fork U start a inner final =
    (((A.absorb U).addEdges (.wires (A.unionWires finals start a inner final))).setStart
      start).setFinals {final} := by
  unfold fork
  congr 3
  apply Transitions.wires_congr
  intro e
  simp only [unionWires, hfinals, List.mem_append, List.mem_cons, List.mem_map,
    Std.ExtTreeSet.mem_toList, Std.ExtTreeSet.mem_union_iff]

theorem Holds.addEdges (h : A.Forkable U start final) (ha : A.start = some a)
    (hC : C.Holds (R.absorb A) U inner finals) :
    (C.addEdges (.wires (A.unionWires finals start a inner final))).Holds R
      (A.fork U start a inner final) start {final} where
  start_eq := rfl
  finals_eq := rfl
  mem_states {q} := by
    have hstates := hC.mem_states (q := q)
    have hwires : q ∈ (Transitions.wires (A.unionWires finals start a inner final)).endpoints ∨
        q = final ↔ _ := mem_endpoints_unionWires
    have hleft := h.left_wf.start_mem a ha
    have hright := h.right_wf.start_mem inner hC.start_eq
    have hfinals := h.left_wf.finals_mem q
    have hinner := h.right_wf.finals_mem q
    rw [hC.finals_eq] at hinner
    rw [mem_states_fork h.left_wf h.right_wf hleft hright]
    simp only [Automaton.absorb, Std.ExtTreeSet.mem_union_iff] at hstates
    simp only [Automaton.addEdges, Std.ExtTreeSet.mem_union_iff, Ordered.mem_singleton]
    grind
  alphabet_eq := by
    rw [fork_eq hC.finals_eq]
    simp only [Automaton.addEdges, setFinals, setStart, hC.alphabet_eq, Automaton.absorb,
      Ordered.union_assoc]
  edges_eq := by
    rw [fork_eq hC.finals_eq]
    simp only [Automaton.addEdges, setFinals, setStart, hC.edges_eq, Automaton.absorb,
      Transitions.union_assoc]

theorem Holds.eq (h : C.Holds ∅ U start finals) : (C.setStart start).setFinals finals = U := by
  ext1
  case states =>
    apply Std.ExtTreeSet.ext_mem
    intro q
    have hstates := h.mem_states (q := q)
    simp only [setFinals, setStart, Std.ExtTreeSet.mem_union_iff, Ordered.mem_insert]
    have hempty : q ∉ (∅ : Automaton).states := Std.ExtTreeSet.not_mem_empty
    grind
  case alphabet => exact h.alphabet_eq.trans (Ordered.empty_union U.alphabet)
  case start => exact h.start_eq.symm
  case finals => exact h.finals_eq.symm
  case edges => exact h.edges_eq.trans Transitions.empty_union

theorem entryAbove_eq (hA : A.Spans a m top) (hR : R.Below A) : R.entryAbove A = .ok a := by
  have hentry := startState_eq_ok_iff.2 hA.start_eq
  by_cases hempty : R.states.isEmpty
  · simp only [entryAbove, isEmpty, hempty, ↓reduceIte, hentry]
  · have hmem : ∃ p, p ∈ R.states := by
      by_contra hnone
      have hstates : R.states = ∅ :=
        Std.ExtTreeSet.eq_empty_iff_forall_not_mem.2 (not_exists.1 hnone)
      exact hempty (Std.ExtTreeSet.isEmpty_iff.2 hstates)
    obtain ⟨p, hp⟩ := hmem
    have hcheck := checkBelow_eq_ok hR hp hA.start_mem
    simp only [entryAbove, isEmpty, hempty, ↓reduceIte, hcheck, Bool.false_eq_true]
    exact hentry

/-- The branches from `A` on are assembled `s` above the place of their nested union `U`. -/
structure Assembles (A : Automaton) (rest : List Automaton) (s : Nat) (U : Automaton) (slot : Slot)
    (later : List Slot) : Prop where
  slots_eq : slots s A rest = .ok (slot, later)
  maxState_eq : U.maxState = .ok slot.top
  assemble_eq : ∀ R : Automaton, R.Below (A.shift s) → ∃ C start finals,
    R.assemble slot later = .ok (C, start, finals) ∧ C.Holds R (U.shift s) start finals

theorem Assembles.last (hA : A.Spans a m top) (s : Nat) :
    Assembles A [] s A ⟨A, m, s, top⟩ [] where
  slots_eq := by
    simp only [slots, hA.minState_eq, hA.maxState_eq, bind, Except.bind]
    rfl
  maxState_eq := hA.maxState_eq
  assemble_eq R hR := by
    have hshift := hA.shift s
    have hentry := entryAbove_eq hshift hR
    refine ⟨R.absorb (A.shift s), a + s, (A.shift s).finals, ?_, .absorb hshift⟩
    simp only [assemble, hentry, bind, Except.bind]
    rfl

theorem Below.shift_succ (hR : R.Below (A.shift s)) : R.Below (A.shift (s + 1)) := by
  intro p hp r hr
  obtain ⟨q, hq, rfl⟩ := mem_states_shift.1 hr
  have hlt := hR p hp (q + s) (mem_states_shift.2 ⟨q, hq, rfl⟩)
  exact Nat.lt_succ_of_lt hlt

/-- What lies below a branch, and the branch itself, lie below what comes after it. -/
theorem Below.absorb {N : Automaton} (hA : A.maxState = .ok top) (hN : N.minState = .ok n)
    (hR : R.Below (A.shift s)) :
    (R.absorb (A.shift (s + 1))).Below (N.shift (s + (top + 2 - n))) := by
  obtain ⟨htop, hle⟩ := maxState_eq_ok_iff.1 hA
  intro p hp r hr
  obtain ⟨q, hq, rfl⟩ := mem_states_shift.1 hr
  have hnq := (minState_eq_ok_iff.1 hN).2 q hq
  rcases Std.ExtTreeSet.mem_union_iff.1 hp with hp | hp
  · have hlt := hR p hp (top + s) (mem_states_shift.2 ⟨top, htop, rfl⟩)
    unfold State at *
    omega
  · obtain ⟨p', hp', rfl⟩ := mem_states_shift.1 hp
    have hptop := hle p' hp'
    unfold State at *
    omega

theorem shift_union_fork {m a c high : Nat} (N : Automaton) (gap s : Nat) :
    ((A.shift 1).fork (N.shift gap) m (a + 1) (c + gap) (high + gap + 1)).shift s =
      (A.shift (s + 1)).fork (N.shift (s + gap)) (m + s) (a + (s + 1)) (c + (s + gap))
        (high + (s + gap) + 1) := by
  have hleft : a + 1 + s = a + (s + 1) := by omega
  have hright : c + gap + s = c + (s + gap) := by omega
  have hfinal : high + gap + 1 + s = high + (s + gap) + 1 := by omega
  rw [shift_fork, shift_shift, shift_shift, Nat.add_comm 1 s, Nat.add_comm gap s, hleft, hright,
    hfinal]

theorem Assembles.cons {N : Automaton} (hA : A.Spans a m top) (hB : B.Spans b n p)
    (hN : N.Spans c n high) (h : Assembles B rest (s + (top + 2 - n)) N slot later) :
    Assembles A (B :: rest) s ((A.shift 1).fork (N.shift (top + 2 - n)) m (a + 1)
      (c + (top + 2 - n)) (high + (top + 2 - n) + 1))
      ⟨A, m, s, slot.top + (top + 2 - n) + 1⟩ (slot :: later) := by
  have htop : slot.top = high := Except.ok.inj (h.maxState_eq.symm.trans hN.maxState_eq)
  refine ⟨?_, ?_, fun R hR => ?_⟩
  · simp only [slots, hA.minState_eq, hA.maxState_eq, hB.minState_eq, h.slots_eq, bind, Except.bind]
    rfl
  · have hspans := Spans.fork (hA.forkable_union hN) (hA.shift 1).start_mem (hN.shift _).start_mem
    rw [htop]
    exact hspans.maxState_eq
  · have hleft := hA.shift (s + 1)
    have hright := hN.shift (s + (top + 2 - n))
    have hbelow : (A.shift (s + 1)).Below (N.shift (s + (top + 2 - n))) := by
      intro q hq
      have habsorb := Below.absorb hA.maxState_eq hN.minState_eq hR
      exact habsorb q (Std.ExtTreeSet.mem_union_iff.2 (.inr hq))
    have hrest := Below.absorb hA.maxState_eq hB.minState_eq hR
    obtain ⟨C, start, finals, hC, hholds⟩ := h.assemble_eq _ hrest
    have hstart : start = c + (s + (top + 2 - n)) :=
      Option.some.inj (hholds.start_eq.symm.trans hright.start_eq)
    have hentry := entryAbove_eq hleft hR.shift_succ
    have hfinal : slot.top + (top + 2 - n) + 1 + s = high + (s + (top + 2 - n)) + 1 := by
      unfold State at *
      omega
    have hstep := hholds.addEdges (hleft.forkable hright hbelow) hleft.start_eq
    rw [shift_union_fork, ← hstart]
    refine ⟨_, m + s, {high + (s + (top + 2 - n)) + 1}, ?_, hstep⟩
    simp only [assemble, hentry, hC, hfinal, bind, Except.bind, pure, Except.pure]
    rfl

/-- The assembly of automata with start states makes their nested union. -/
theorem exists_assembles (s : Nat) (hA : A.Spans a m top)
    (hrest : ∀ B ∈ rest, B.WellFormed ∧ B.start.isSome) :
    ∃ U slot later, nestedUnion A rest = .ok U ∧ Assembles A rest s U slot later := by
  induction rest generalizing A a m top s with
  | nil => exact ⟨A, _, _, rfl, .last hA s⟩
  | cons B rest ih =>
    obtain ⟨⟨hBwf, hBstart⟩, hrest⟩ := List.forall_mem_cons.1 hrest
    obtain ⟨b, n, p, hB⟩ := exists_spans hBwf hBstart
    obtain ⟨N, c, high, hN, hspans, -⟩ := exists_nestedUnion hB hrest
    obtain ⟨N', slot, later, hN', h⟩ := ih (s + (top + 2 - n)) hB hrest
    obtain rfl : N = N' := Except.ok.inj (hN.symm.trans hN')
    exact ⟨_, _, _, (nestedUnion_cons hN).trans (hA.union_eq hspans), .cons hA hB hspans h⟩

theorem alternation_eq_nestedUnion (h : ∀ B ∈ A :: rest, B.WellFormed ∧ B.start.isSome) :
    alternation (A :: rest) = nestedUnion A rest := by
  cases rest with
  | nil => rfl
  | cons B rest =>
    obtain ⟨⟨hAwf, hAstart⟩, hrest⟩ := List.forall_mem_cons.1 h
    obtain ⟨a, m, top, hA⟩ := exists_spans hAwf hAstart
    obtain ⟨U, slot, later, hU, hassembles⟩ := exists_assembles 0 hA hrest
    have hempty : (∅ : Automaton).Below (A.shift 0) := by
      intro p hp
      exact absurd hp Std.ExtTreeSet.not_mem_empty
    obtain ⟨C, start, finals, hC, hholds⟩ := hassembles.assemble_eq ∅ hempty
    rw [shift_zero] at hholds
    rw [hU, alternation]
    simp only [hassembles.slots_eq, hC, bind, Except.bind, pure, Except.pure, hholds.eq]

theorem start_isSome_of_entryAbove (h : R.entryAbove (A.shift s) = .ok a) : A.start.isSome := by
  have hstart : (A.shift s).startState = .ok a := by
    unfold entryAbove at h
    split at h
    · exact h
    · obtain ⟨_, -, h⟩ := exists_ok_of_bind h
      exact h
  simpa [shift] using Option.isSome_of_eq_some (startState_eq_ok_iff.1 hstart)

theorem slot_of_slots_nil (h : slots s A [] = .ok (slot, later)) :
    slot.branch = A ∧ slot.shift = s ∧ later = [] := by
  obtain ⟨_, -, h⟩ := exists_ok_of_bind h
  obtain ⟨_, -, h⟩ := exists_ok_of_bind h
  cases h
  exact ⟨rfl, rfl, rfl⟩

/-- The slot of a branch, and those of the branches after it. -/
theorem exists_slots_of_cons (h : slots s A (B :: rest) = .ok (slot, later)) :
    ∃ least top bottom inner others, A.minState = .ok least ∧ A.maxState = .ok top ∧
      B.minState = .ok bottom ∧ slots (s + (top + 2 - bottom)) B rest = .ok (inner, others) ∧
      slot = ⟨A, least, s, inner.top + (top + 2 - bottom) + 1⟩ ∧ later = inner :: others := by
  obtain ⟨least, hleast, h⟩ := exists_ok_of_bind h
  obtain ⟨top, htop, h⟩ := exists_ok_of_bind h
  obtain ⟨bottom, hbottom, h⟩ := exists_ok_of_bind h
  obtain ⟨⟨inner, others⟩, hslots, h⟩ := exists_ok_of_bind h
  cases h
  exact ⟨least, top, bottom, inner, others, hleast, htop, hbottom, hslots, rfl, rfl⟩

theorem branches_of_slots (h : slots s A rest = .ok (slot, later)) :
    (slot :: later).map Slot.branch = A :: rest := by
  induction rest generalizing A s slot later with
  | nil =>
    obtain ⟨rfl, -, rfl⟩ := slot_of_slots_nil h
    rfl
  | cons B rest ih =>
    obtain ⟨_, _, _, inner, others, -, -, -, hslots, rfl, rfl⟩ := exists_slots_of_cons h
    exact congrArg (A :: ·) (ih hslots)

theorem start_isSome_of_assemble {x : Automaton × State × StateSet}
    (h : R.assemble slot later = .ok x) : ∀ S ∈ slot :: later, S.branch.start.isSome := by
  induction later generalizing R slot x with
  | nil =>
    obtain ⟨_, hentry, -⟩ := exists_ok_of_bind h
    simpa using start_isSome_of_entryAbove hentry
  | cons next later ih =>
    obtain ⟨_, hentry, h⟩ := exists_ok_of_bind h
    obtain ⟨_, hassemble, -⟩ := exists_ok_of_bind h
    exact List.forall_mem_cons.2 ⟨start_isSome_of_entryAbove hentry, ih hassemble⟩

theorem start_isSome_of_alternation (h : alternation (A :: B :: rest) = .ok C) :
    ∀ X ∈ A :: B :: rest, X.start.isSome := by
  obtain ⟨x, hslots, h⟩ := exists_ok_of_bind h
  obtain ⟨_, hassemble, -⟩ := exists_ok_of_bind h
  intro X hX
  rw [← branches_of_slots hslots] at hX
  obtain ⟨S, hS, rfl⟩ := List.mem_map.1 hX
  exact start_isSome_of_assemble hassemble S hS

theorem WellFormed.alternation {l : List Automaton} (h : ∀ A ∈ l, A.WellFormed)
    (hC : alternation l = .ok C) : C.WellFormed := by
  match l with
  | [] => cases hC
  | [A] =>
    cases hC
    exact h C List.mem_cons_self
  | A :: B :: rest =>
    have hstart := start_isSome_of_alternation hC
    have hready : ∀ X ∈ A :: B :: rest, X.WellFormed ∧ X.start.isSome := by
      intro X hX
      exact ⟨h X hX, hstart X hX⟩
    obtain ⟨⟨hAwf, hAstart⟩, hrest⟩ := List.forall_mem_cons.1 hready
    obtain ⟨a, m, top, hA⟩ := exists_spans hAwf hAstart
    obtain ⟨U, _, _, hU, hspans, -⟩ := exists_nestedUnion hA hrest
    rw [alternation_eq_nestedUnion hready, hU] at hC
    cases hC
    exact hspans.wellFormed

end PatternAutomata.Automaton
