import PatternAutomata.Proofs.Automaton.Iteration
import PatternAutomata.Proofs.Obtainable

/-!
# What operations refuse

An operation on automata that can be obtained has no result exactly if it needs a start state that
an operand lacks; an alternation also needs a branch. The operands may be numbered in any way: they
are moved apart before the numbers are compared, so the comparison never finds an overlap. For this
it does not matter whether there are start states.
-/

namespace PatternAutomata

namespace Automaton

variable {A B C R : Automaton} {s : Nat} {slot : Slot} {later : List Slot}
  {l rest : List Automaton}

/-- Whatever goes wrong, it is not that numbers overlap. -/
def NeverOverlaps {α : Type} (outcome : Except Fault α) : Prop :=
  ∀ top bottom, outcome ≠ .error (.overlap top bottom)

namespace NeverOverlaps

variable {α β : Type} {x : Except Fault α} {f : α → Except Fault β}

theorem ok (a : α) : NeverOverlaps (.ok a : Except Fault α) := nofun

theorem bind (hx : NeverOverlaps x) (hf : ∀ a, x = .ok a → NeverOverlaps (f a)) :
    NeverOverlaps (x >>= f) := by
  cases h : x with
  | error e =>
    intro top bottom he
    cases he
    exact hx top bottom h
  | ok a => exact hf a h

theorem startState (A : Automaton) : NeverOverlaps A.startState := by
  unfold Automaton.startState
  split <;> nofun

theorem minState (A : Automaton) : NeverOverlaps A.minState := by
  unfold Automaton.minState
  split <;> nofun

theorem maxState (A : Automaton) : NeverOverlaps A.maxState := by
  unfold Automaton.maxState
  split <;> nofun

theorem shiftAbove (A : Automaton) (floor : State) : NeverOverlaps (A.shiftAbove floor) :=
  .bind (.minState A) fun _ _ => .ok _

theorem checkBelow (h : A.Below B) : NeverOverlaps (A.checkBelow B) := by
  refine .bind (.maxState A) fun top htop => .bind (.minState B) fun bottom hbottom => ?_
  have hlt := h top (maxState_eq_ok_iff.1 htop).1 bottom (minState_eq_ok_iff.1 hbottom).1
  rw [if_neg (Nat.not_le.2 hlt)]
  exact .ok ()

end NeverOverlaps

/-- The shift above an automaton brings another one there. -/
theorem below_of_shiftAbove {top k : Nat} (htop : A.maxState = .ok top)
    (hk : B.shiftAbove top = .ok k) : A.Below (B.shift k) := by
  obtain ⟨bottom, hbottom, hk⟩ := exists_ok_of_bind hk
  cases hk
  exact below_shift htop hbottom

theorem neverOverlaps_concat (A B : Automaton) : NeverOverlaps (A.concat B) := by
  apply NeverOverlaps.bind (.startState A)
  intro _ _
  apply NeverOverlaps.bind (.maxState A)
  intro top htop
  apply NeverOverlaps.bind (.shiftAbove B top)
  intro k hk
  have hbelow := below_of_shiftAbove htop hk
  apply NeverOverlaps.bind (.checkBelow hbelow)
  intro _ _
  exact .bind (.startState (B.shift k)) fun _ _ => .ok _

theorem neverOverlaps_parallel (h : A.Below B) : NeverOverlaps (A.parallel B) := by
  apply NeverOverlaps.bind (.checkBelow h)
  intro _ _
  apply NeverOverlaps.bind (.startState A)
  intro _ _
  apply NeverOverlaps.bind (.startState B)
  intro _ _
  apply NeverOverlaps.bind (.minState A)
  intro _ _
  exact .bind (.maxState B) fun _ _ => .ok _

theorem neverOverlaps_union (A B : Automaton) : NeverOverlaps (A.union B) := by
  apply NeverOverlaps.bind (.maxState (A.shift 1))
  intro top htop
  apply NeverOverlaps.bind (.shiftAbove B top)
  intro k hk
  exact neverOverlaps_parallel (below_of_shiftAbove htop hk)

theorem neverOverlaps_star (A : Automaton) : NeverOverlaps A.star :=
  .bind (.startState A) fun _ _ => .ok _

theorem neverOverlaps_slots (s : Nat) (A : Automaton) (rest : List Automaton) :
    NeverOverlaps (slots s A rest) := by
  induction rest generalizing s A with
  | nil =>
    apply NeverOverlaps.bind (.minState A)
    intro _ _
    exact .bind (.maxState A) fun _ _ => .ok _
  | cons B rest ih =>
    apply NeverOverlaps.bind (.minState A)
    intro _ _
    apply NeverOverlaps.bind (.maxState A)
    intro top _
    apply NeverOverlaps.bind (.minState B)
    intro bottom _
    exact .bind (ih (s + (top + 2 - bottom)) B) fun _ _ => .ok _

theorem neverOverlaps_entryAbove (h : R.Below A) : NeverOverlaps (R.entryAbove A) := by
  unfold entryAbove
  split
  · exact .startState A
  · exact .bind (.checkBelow h) fun _ _ => .startState A

/-- At every step of an assembly all that has been taken in lies below the next branch. -/
theorem neverOverlaps_assemble (hslots : slots s A rest = .ok (slot, later))
    (hR : R.Below (A.shift s)) : NeverOverlaps (R.assemble slot later) := by
  induction rest generalizing A R s slot later with
  | nil =>
    obtain ⟨rfl, rfl, rfl⟩ := slot_of_slots_nil hslots
    exact .bind (neverOverlaps_entryAbove hR) fun _ _ => .ok _
  | cons B rest ih =>
    obtain ⟨_, top, bottom, inner, others, -, htop, hbottom, hinner, rfl, rfl⟩ :=
      exists_slots_of_cons hslots
    have hbelow := Below.absorb htop hbottom hR
    apply NeverOverlaps.bind (neverOverlaps_entryAbove hR.shift_succ)
    intro _ _
    exact .bind (ih hinner hbelow) fun _ _ => .ok _

theorem neverOverlaps_alternation (l : List Automaton) : NeverOverlaps (alternation l) := by
  match l with
  | [] => nofun
  | [A] => exact .ok A
  | A :: B :: rest =>
    have hempty : (∅ : Automaton).Below (A.shift 0) :=
      fun p hp => absurd hp Std.ExtTreeSet.not_mem_empty
    apply NeverOverlaps.bind (neverOverlaps_slots 0 A (B :: rest))
    intro x hx
    exact .bind (neverOverlaps_assemble hx hempty) fun _ _ => .ok _

theorem start_isSome_of_concat (h : A.concat B = .ok C) : A.start.isSome ∧ B.start.isSome := by
  obtain ⟨a, ha, h⟩ := exists_ok_of_bind h
  obtain ⟨_, -, h⟩ := exists_ok_of_bind h
  obtain ⟨k, -, h⟩ := exists_ok_of_bind h
  obtain ⟨_, -, h⟩ := exists_ok_of_bind h
  obtain ⟨b, hb, -⟩ := exists_ok_of_bind h
  have hA := startState_eq_ok_iff.1 ha
  have hB := startState_eq_ok_iff.1 hb
  constructor
  · exact Option.isSome_of_eq_some hA
  · simpa [shift] using Option.isSome_of_eq_some hB

theorem exists_concat_iff (hA : A.WellFormed) (hB : B.WellFormed) :
    (∃ C, A.concat B = .ok C) ↔ A.start.isSome ∧ B.start.isSome := by
  constructor
  · intro h
    exact start_isSome_of_concat h.choose_spec
  · intro h
    obtain ⟨C, hC, -⟩ := exists_concat hA hB h.1 h.2
    exact ⟨C, hC⟩

theorem exists_union_iff (hA : A.WellFormed) (hB : B.WellFormed) :
    (∃ C, A.union B = .ok C) ↔ A.start.isSome ∧ B.start.isSome := by
  constructor
  · intro h
    exact start_isSome_of_union h.choose_spec
  · intro h
    obtain ⟨C, hC, -⟩ := exists_union hA hB h.1 h.2
    exact ⟨C, hC⟩

theorem exists_star_iff : (∃ C, A.star = .ok C) ↔ A.start.isSome := by
  constructor
  · intro h
    obtain ⟨s, hs, -⟩ := exists_ok_of_bind h.choose_spec
    exact Option.isSome_of_eq_some (startState_eq_ok_iff.1 hs)
  · intro h
    exact ⟨_, star_eq (Option.eq_some_of_isSome h)⟩

/-- A single branch is not looked at. -/
theorem exists_alternation_iff (hl : ∀ X ∈ l, X.WellFormed) : (∃ C, alternation l = .ok C) ↔
    l ≠ [] ∧ (2 ≤ l.length → ∀ X ∈ l, X.start.isSome) := by
  match l with
  | [] => simp [alternation]
  | [A] => simp [alternation]
  | A :: B :: rest =>
    have hstarts : (∃ C, alternation (A :: B :: rest) = .ok C) ↔
        ∀ X ∈ A :: B :: rest, X.start.isSome := by
      constructor
      · intro h
        exact start_isSome_of_alternation h.choose_spec
      · intro h
        have hready : ∀ X ∈ A :: B :: rest, X.WellFormed ∧ X.start.isSome :=
          fun X hX => ⟨hl X hX, h X hX⟩
        obtain ⟨hA, hrest⟩ := List.forall_mem_cons.1 hready
        obtain ⟨_, _, _, hspans⟩ := exists_spans hA.1 hA.2
        obtain ⟨C, _, _, hC, -⟩ := exists_nestedUnion hspans hrest
        exact ⟨C, (alternation_eq_nestedUnion hready).trans hC⟩
    rw [hstarts]
    simp

/-- The operation fails exactly under the condition. Its error is a fault of an automaton, and this
is never an overlap. -/
structure FailsIff (outcome : Except CompileError Automaton) (condition : Prop) : Prop where
  exists_error_iff : (∃ e, outcome = .error e) ↔ condition
  eq_invalid : ∀ e, outcome = .error e →
    ∃ fault, e = .invalid fault ∧ ∀ top bottom, fault ≠ .overlap top bottom

theorem NeverOverlaps.failsIff {outcome : Except Fault Automaton} {condition : Prop}
    (h : NeverOverlaps outcome) (hok : (∃ C, outcome = .ok C) ↔ ¬condition) :
    FailsIff (outcome.mapError .invalid) condition := by
  cases outcome with
  | error fault =>
    have hcondition : condition := by simpa using hok
    constructor
    · simp [Except.mapError, hcondition]
    · intro e he
      cases he
      exact ⟨fault, rfl, fun top bottom heq => h top bottom (congrArg Except.error heq)⟩
  | ok C =>
    have hcondition : ¬condition := by simpa using hok
    constructor
    · simp [Except.mapError, hcondition]
    · intro e he
      cases he

/-- Operations fail exactly if a start state that they need is missing, and an alternation also if
there is nothing to choose from. -/
theorem operations_need_starts (hA : A.Obtainable) (hB : B.Obtainable)
    (hl : ∀ X ∈ l, X.Obtainable) :
    FailsIff ((A.concat B).mapError .invalid) (A.start = none ∨ B.start = none) ∧
      FailsIff ((A.union B).mapError .invalid) (A.start = none ∨ B.start = none) ∧
      FailsIff (A.star.mapError .invalid) (A.start = none) ∧
      FailsIff ((alternation l).mapError .invalid)
        (l = [] ∨ 2 ≤ l.length ∧ ∃ X ∈ l, X.start = none) := by
  have hwf : ∀ X ∈ l, X.WellFormed := fun X hX => (hl X hX).wellFormed
  refine ⟨?_, ?_, ?_, ?_⟩
  · apply (neverOverlaps_concat A B).failsIff
    simp [exists_concat_iff hA.wellFormed hB.wellFormed, Option.isSome_iff_ne_none]
  · apply (neverOverlaps_union A B).failsIff
    simp [exists_union_iff hA.wellFormed hB.wellFormed, Option.isSome_iff_ne_none]
  · apply (neverOverlaps_star A).failsIff
    simp [exists_star_iff, Option.isSome_iff_ne_none]
  · apply (neverOverlaps_alternation l).failsIff
    simp [exists_alternation_iff hwf, Option.isSome_iff_ne_none]

/-- An automaton without a start, with the numbers of `backward` and higher ones. -/
def startless : Automaton := (∅ : Automaton).addFinals [0, 7]

theorem obtainable_startless : startless.Obtainable := (Obtainable.ofAlphabet ∅).addFinals _

theorem operations_need_starts_startless :
    FailsIff ((backward.concat startless).mapError .invalid)
        (backward.start = none ∨ startless.start = none) ∧
      FailsIff ((backward.union startless).mapError .invalid)
        (backward.start = none ∨ startless.start = none) ∧
      FailsIff (backward.star.mapError .invalid) (backward.start = none) ∧
      FailsIff ((alternation [backward, startless]).mapError .invalid)
        ([backward, startless] = [] ∨ 2 ≤ [backward, startless].length ∧
          ∃ X ∈ [backward, startless], X.start = none) := by
  apply operations_need_starts obtainable_backward obtainable_startless
  intro X hX
  rcases List.mem_pair.1 hX with rfl | rfl
  · exact obtainable_backward
  · exact obtainable_startless

end Automaton

end PatternAutomata
