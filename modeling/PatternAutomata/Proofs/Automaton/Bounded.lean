import PatternAutomata.Automaton.Bounded
import PatternAutomata.Proofs.Automaton.Alternation

/-!
# Sums that fit

On state numbers of 64 bits concatenation, union and alternation do what they do on natural numbers,
provided that every sum of state numbers that they form fits. There are few such sums: the number
just above the automaton below, the renumbered states, and the final state of a union. All of them
are states of the result or smaller than one, so a bound on the greatest state of the result is
enough.

Beyond that bound a concatenation is always refused, since the renumbered operand then has a state
that is not above the other operand. A union need not be refused there.
-/

namespace PatternAutomata

theorem bind_congr_of_ok {ε α β : Type} {x : Except ε α} {f g : α → Except ε β}
    (h : ∀ a, x = .ok a → f a = g a) : x >>= f = x >>= g := by
  cases x with
  | error e => rfl
  | ok a => exact h a rfl

theorem bind_eq_error {ε α β γ : Type} {x : Except ε α} {f : α → Except ε β} {g : α → Except ε γ}
    {e : ε} (h : x >>= f = .error e) (hg : ∀ a, f a = .error e → g a = .error e) :
    x >>= g = .error e := by
  cases x with
  | error e' => exact congrArg Except.error (Except.error.inj h)
  | ok a => exact hg a h

variable {f : State → State} {k : Nat} {q : State}

theorem StateSet.mem_rename {s : StateSet} : q ∈ s.rename f ↔ ∃ p ∈ s, f p = q := by
  have hlist : s.rename f = .ofList (s.toList.map f) := by
    rw [Std.ExtTreeSet.ofList_eq_foldl, List.foldl_map, rename,
      Std.ExtTreeSet.foldl_eq_foldl_toList]
  rw [hlist, Ordered.mem_ofList, List.mem_map]
  simp

theorem StateSet.rename_eq_shift {s : StateSet} (h : ∀ p ∈ s, f p = p + k) :
    s.rename f = s.shift k := by
  apply Std.ExtTreeSet.ext_mem
  intro q
  rw [mem_rename, mem_shift]
  exact exists_congr fun p => and_congr_right fun hp => by rw [h p hp]

theorem Transitions.rename_eq_shift {t : Transitions} (h : ∀ p ∈ t.endpoints, f p = p + k) :
    t.rename f = t.shift k := by
  have hends {p q : State} {row : Exits} {labels : Labels} (hrow : t.bySource[p]? = some row)
      (hq : row[q]? = some labels) : f p = p + k ∧ f q = q + k := by
    have he : (t.labels? p q).isSome := by simp [labels?, exits, hrow, hq]
    constructor
    · exact h p (mem_endpoints.2 ⟨⟨p, q⟩, he, .inl rfl⟩)
    · exact h q (mem_endpoints.2 ⟨⟨p, q⟩, he, .inr rfl⟩)
  simp only [rename, shift, mk.injEq]
  apply Ordered.mapKeys_eq_shiftKeys
  intro p row hrow
  constructor
  · have hne : row ≠ ∅ := fun hempty => t.exits_nonempty p (hempty ▸ hrow)
    obtain ⟨q, hq⟩ : ∃ q, q ∈ row := by
      simpa [Std.ExtTreeMap.eq_empty_iff_forall_not_mem] using hne
    exact (hends hrow (Std.ExtTreeMap.getElem?_eq_some_getElem hq)).1
  · apply Ordered.mapKeys_eq_shiftKeys
    intro q labels hq
    exact ⟨(hends hrow hq).2, rfl⟩

namespace Automaton

variable {A B C R : Automaton} {floor : State} {s : Nat} {slot : Slot} {later : List Slot}
  {l rest : List Automaton}

theorem rename_eq_shift (hA : A.WellFormed) (h : ∀ p ∈ A.states, f p = p + k) :
    A.rename f = A.shift k := by
  have hstart : A.start.map f = A.start.map (· + k) :=
    Option.map_congr fun p hp => h p (hA.start_mem p hp)
  have hfinals := StateSet.rename_eq_shift fun p hp => h p (hA.finals_mem p hp)
  have hedges := Transitions.rename_eq_shift fun p hp => h p (hA.ends_mem p hp)
  simp only [rename, shift, StateSet.rename_eq_shift h, hstart, hfinals, hedges]

/-- The sums that move `B` above `A` fit: the number after the greatest state of `A`, and what the
states of `B` become. -/
def FitsAbove (A B : Automaton) : Prop :=
  ∀ top, A.maxState = .ok top → top + 1 < UInt64.size ∧
    ∀ k, B.shiftAbove top = .ok k → ∀ q ∈ B.states, q + k < UInt64.size

/-- The sums of a union fit: those that move its operands, and the one that is its final state. -/
structure UnionFits (A B : Automaton) : Prop where
  left : ∀ q ∈ A.states, q + 1 < UInt64.size
  right : (A.shift 1).FitsAbove B
  final : ∀ top k, (A.shift 1).maxState = .ok top → B.shiftAbove top = .ok k →
    ∀ q ∈ B.states, q + k + 1 < UInt64.size

/-- The sums of an alternation fit. None is greater than its final state. -/
def AlternationFits : List Automaton → Prop
  | A :: B :: rest => ∀ slot later, A.slots 0 (B :: rest) = .ok (slot, later) →
    slot.top < UInt64.size
  | _ => True

theorem le_top_of_slots (h : slots s A rest = .ok (slot, later)) (hq : q ∈ A.states) :
    q ≤ slot.top := by
  induction rest generalizing A s slot later q with
  | nil =>
    obtain ⟨_, -, h⟩ := exists_ok_of_bind h
    obtain ⟨top, htop, h⟩ := exists_ok_of_bind h
    cases h
    exact (maxState_eq_ok_iff.1 htop).2 q hq
  | cons B rest ih =>
    obtain ⟨_, top, bottom, inner, _, -, htop, hbottom, hinner, rfl, -⟩ :=
      exists_slots_of_cons h
    have hqtop := (maxState_eq_ok_iff.1 htop).2 q hq
    have hle := ih hinner (minState_eq_ok_iff.1 hbottom).1
    unfold State at *
    dsimp only
    omega

namespace Bounded

theorem add_eq {p k : Nat} (h : p + k < UInt64.size) : add p k = p + k := Nat.mod_eq_of_lt h

theorem pred_add_one {p : Nat} (h : p < UInt64.size) : pred (p + 1) = p := by
  have hsum : p + 1 + (UInt64.size - 1) = p + UInt64.size := by omega
  rw [pred, add, hsum, Nat.add_mod_right, Nat.mod_eq_of_lt h]

theorem shift_eq (hA : A.WellFormed) (h : ∀ p ∈ A.states, p + k < UInt64.size) :
    shift A k = A.shift k :=
  rename_eq_shift hA fun p hp => add_eq (h p hp)

theorem shiftAbove_eq (h : floor + 1 < UInt64.size) : shiftAbove A floor = A.shiftAbove floor := by
  rw [shiftAbove, Automaton.shiftAbove, add_eq h]

/-- Concatenation is the one on natural numbers while its sums fit. -/
theorem concat_eq (hB : B.WellFormed) (h : A.FitsAbove B) : concat A B = A.concat B := by
  apply bind_congr_of_ok
  intro _ _
  apply bind_congr_of_ok
  intro top htop
  obtain ⟨hfloor, hmoved⟩ := h top htop
  rw [shiftAbove_eq hfloor]
  apply bind_congr_of_ok
  intro k hk
  rw [shift_eq hB (hmoved k hk)]

theorem parallel_eq (hleast : ∀ least, A.minState = .ok least → pred least = least - 1)
    (htop : ∀ top, B.maxState = .ok top → add top 1 = top + 1) : parallel A B = A.parallel B := by
  apply bind_congr_of_ok
  intro _ _
  apply bind_congr_of_ok
  intro _ _
  apply bind_congr_of_ok
  intro _ _
  apply bind_congr_of_ok
  intro least hmin
  apply bind_congr_of_ok
  intro top hmax
  rw [hleast least hmin, htop top hmax]

theorem union_eq (hA : A.WellFormed) (hB : B.WellFormed) (h : A.UnionFits B) :
    union A B = A.union B := by
  rw [union, Automaton.union, shift_eq hA h.left]
  apply bind_congr_of_ok
  intro top htop
  obtain ⟨hfloor, hmoved⟩ := h.right top htop
  rw [shiftAbove_eq hfloor]
  apply bind_congr_of_ok
  intro k hk
  rw [shift_eq hB (hmoved k hk)]
  apply parallel_eq
  · intro least hmin
    obtain ⟨p, hp, rfl⟩ := mem_states_shift.1 (minState_eq_ok_iff.1 hmin).1
    rw [Nat.add_sub_cancel, pred_add_one (Nat.lt_of_succ_lt (h.left p hp))]
  · intro high hmax
    obtain ⟨q, hq, rfl⟩ := mem_states_shift.1 (maxState_eq_ok_iff.1 hmax).1
    exact add_eq (h.final top k htop hk q hq)

theorem slots_eq (h : A.slots s rest = .ok (slot, later))
    (hfits : slot.top + s < UInt64.size) : slots s A rest = .ok (slot, later) := by
  induction rest generalizing A s slot later with
  | nil => exact h
  | cons B rest ih =>
    obtain ⟨least, top, bottom, inner, others, hleast, htop, hbottom, hinner, rfl, rfl⟩ :=
      exists_slots_of_cons h
    have hle := le_top_of_slots hinner (minState_eq_ok_iff.1 hbottom).1
    unfold State at *
    dsimp only at hfits
    have hrest := ih hinner (by omega)
    have hgap : add top 2 = top + 2 := add_eq (by omega)
    have hshift : add s (top + 2 - bottom) = s + (top + 2 - bottom) := add_eq (by omega)
    have hsum : add inner.top (top + 2 - bottom) = inner.top + (top + 2 - bottom) :=
      add_eq (by omega)
    have hlast : add (inner.top + (top + 2 - bottom)) 1 = inner.top + (top + 2 - bottom) + 1 :=
      add_eq (by omega)
    simp only [slots, hleast, htop, hbottom, hgap, hshift, hrest, hsum, hlast, bind,
      Except.bind, pure, Except.pure]

/-- A branch without states is refused, whatever sums there are. -/
theorem slots_eq_error {e : Fault} (h : A.slots s rest = .error e) (k : Nat) :
    slots k A rest = .error e := by
  induction rest generalizing A s k with
  | nil =>
    apply bind_eq_error h
    intro _ h
    apply bind_eq_error h
    intro _ h
    cases h
  | cons B rest ih =>
    apply bind_eq_error h
    intro _ h
    apply bind_eq_error h
    intro top h
    apply bind_eq_error h
    intro bottom h
    dsimp only at h ⊢
    cases hinner : B.slots (s + (top + 2 - bottom)) rest with
    | error fault =>
      rw [hinner] at h
      cases h
      rw [ih hinner]
      rfl
    | ok x =>
      rw [hinner] at h
      cases h

theorem assemble_eq (hl : ∀ X ∈ A :: rest, X.WellFormed)
    (h : A.slots s rest = .ok (slot, later)) (hfits : slot.top + s < UInt64.size) :
    assemble R slot later = R.assemble slot later := by
  induction rest generalizing A R s slot later with
  | nil =>
    have hmem {q : State} (hq : q ∈ A.states) := le_top_of_slots h hq
    have hA := hl A (.head _)
    obtain ⟨rfl, rfl, rfl⟩ := slot_of_slots_nil h
    have hmoved : shift slot.branch slot.shift = slot.branch.shift slot.shift :=
      shift_eq hA fun q hq => Nat.lt_of_le_of_lt (Nat.add_le_add_right (hmem hq) _) hfits
    rw [assemble, Automaton.assemble, hmoved]
  | cons B rest ih =>
    obtain ⟨least, top, bottom, inner, others, hleast, htop, hbottom, hinner, rfl, rfl⟩ :=
      exists_slots_of_cons h
    have hle := le_top_of_slots hinner (minState_eq_ok_iff.1 hbottom).1
    have hmem {q : State} (hq : q ∈ A.states) := (maxState_eq_ok_iff.1 htop).2 q hq
    have hleast := hmem (minState_eq_ok_iff.1 hleast).1
    unfold State at *
    dsimp only at hfits
    have hsucc : add s 1 = s + 1 := add_eq (by omega)
    have hmoved : shift A (s + 1) = A.shift (s + 1) := by
      apply shift_eq (hl A (.head _))
      intro q hq
      have hq := hmem hq
      unfold State at *
      omega
    have hstart : add least s = least + s := add_eq (by omega)
    have hfinal := add_eq hfits
    have hrest := List.forall_mem_cons.1 hl
    rw [assemble, Automaton.assemble]
    simp only [hsucc, hmoved, hstart, hfinal]
    apply bind_congr_of_ok
    intro _ _
    rw [ih hrest.2 hinner (by omega)]

theorem alternation_eq (hl : ∀ X ∈ l, X.WellFormed) (hfits : AlternationFits l) :
    alternation l = Automaton.alternation l := by
  match l with
  | [] => rfl
  | [A] => rfl
  | A :: B :: rest =>
    rw [alternation, Automaton.alternation]
    cases h : A.slots 0 (B :: rest) with
    | error e =>
      rw [slots_eq_error h]
      simp only [bind, Except.bind]
    | ok x =>
      obtain ⟨slot, later⟩ := x
      have htop := hfits slot later h
      rw [slots_eq h htop]
      apply bind_congr_of_ok
      rintro ⟨S, others⟩ hS
      cases hS
      dsimp only
      rw [assemble_eq hl h htop]

end Bounded

namespace Spans

variable {a b m n top high : State}

theorem shiftAbove_eq (hB : B.Spans b n high) (floor : State) :
    B.shiftAbove floor = .ok (floor + 1 - n) := by
  rw [shiftAbove, hB.minState_eq]
  rfl

variable (hA : A.Spans a m top) (hB : B.Spans b n high)

include hA hB

end Spans

end Automaton

end PatternAutomata
