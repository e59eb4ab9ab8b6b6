import PatternAutomata.Proofs.Automaton.Bounded
import PatternAutomata.Proofs.Automaton.Renumbering
import PatternAutomata.Proofs.Grammar.Layout
import PatternAutomata.Proofs.Obtainable

/-!
# Concatenation is associative

Three automata can be put one after another in two ways: the third one is moved above what the first
two have become, or it is moved above the second one and then along with it. The wires are the same
in both cases, and so are the numbers, unless the third automaton begins so far above the second one
that it need not be moved to get there. Fragments that are assembled from single symbols begin with
the state `1`, so for them both ways give the same automaton. The sums of state numbers have to fit
in both ways, which for such operands is a bound on the sum of their greatest states.
-/

namespace PatternAutomata

namespace Automaton

variable {A B C : Automaton} {k : Nat} {a b c l m n top high peak entry entry' : State}

theorem Spans.followedBy (hA : A.Spans a m top) (hB : B.Spans b n high) (hAB : A.Below B) :
    (A.followedBy B b).Spans a m high where
  wellFormed := hA.wellFormed.followedBy hB.wellFormed b
  start_eq := hA.start_eq
  minState_eq := by
    have hmem {q : State} : q ∈ (A.followedBy B b).states ↔ _ :=
      mem_states_followedBy hA.wellFormed hB.start_mem
    apply minState_eq_ok_iff.2
    refine ⟨hmem.2 (.inl (minState_eq_ok_iff.1 hA.minState_eq).1), ?_⟩
    intro q hq
    rcases hmem.1 hq with hq | hq
    · exact hA.le_of_mem hq
    · exact Nat.le_trans (hA.le_of_mem hA.start_mem) (Nat.le_of_lt (hAB a hA.start_mem q hq))
  maxState_eq := by
    have hmem {q : State} : q ∈ (A.followedBy B b).states ↔ _ :=
      mem_states_followedBy hA.wellFormed hB.start_mem
    apply maxState_eq_ok_iff.2
    refine ⟨hmem.2 (.inr (maxState_eq_ok_iff.1 hB.maxState_eq).1), ?_⟩
    intro q hq
    rcases hmem.1 hq with hq | hq
    · exact Nat.le_trans (Nat.le_of_lt (hAB q hq b hB.start_mem)) (hB.ge_of_mem hB.start_mem)
    · exact hB.ge_of_mem hq

namespace Spans

variable (hA : A.Spans a m top) (hB : B.Spans b n high)

include hA hB

theorem concat_eq : A.concat B =
    .ok (A.followedBy (B.shift (top + 1 - n)) (b + (top + 1 - n))) :=
  concat_eq_followedBy hA.wellFormed hB.wellFormed hA.start_eq hB.start_eq hA.maxState_eq
    hB.minState_eq

theorem concat : (A.followedBy (B.shift (top + 1 - n)) (b + (top + 1 - n))).Spans a m
    (high + (top + 1 - n)) :=
  hA.followedBy (hB.shift _) (below_shift hA.maxState_eq hB.minState_eq)

end Spans

/-- What can be assembled from automata with one edge. -/
inductive IsFragment : Automaton → Prop
  | ofSymbol (a : Symbol) : IsFragment (ofSymbol a)
  | concat {A B C : Automaton} : IsFragment A → IsFragment B → A.concat B = .ok C → IsFragment C
  | union {A B C : Automaton} : IsFragment A → IsFragment B → A.union B = .ok C → IsFragment C
  | alternation {l : List Automaton} {C : Automaton} :
      (∀ A ∈ l, IsFragment A) → alternation l = .ok C → IsFragment C
  | star {A C : Automaton} : IsFragment A → A.star = .ok C → IsFragment C

theorem IsFragment.obtainable (h : A.IsFragment) : A.Obtainable := by
  induction h with
  | ofSymbol a => exact .ofSymbol a
  | concat _ _ h ihA ihB => exact .concat ihA ihB h
  | union _ _ h ihA ihB => exact .union ihA ihB h
  | alternation _ h ih => exact .alternation ih h
  | star _ h ih => exact .star ih h

theorem Dense.exists_nestedUnion {rest : List Automaton}
    (h : ∀ X ∈ A :: rest, ∃ n chars, X.Dense n chars) :
    ∃ C n chars, nestedUnion A rest = .ok C ∧ C.Dense n chars := by
  induction rest generalizing A with
  | nil =>
    obtain ⟨n, chars, hA⟩ := h A (.head _)
    exact ⟨A, n, chars, rfl, hA⟩
  | cons B rest ih =>
    obtain ⟨n, chars, hA⟩ := h A (.head _)
    obtain ⟨N, n', chars', hN, hdense⟩ := ih fun X hX => h X (.tail _ hX)
    obtain ⟨C, hC, hunion⟩ := hA.union hdense
    exact ⟨C, _, _, (nestedUnion_cons hN).trans hC, hunion⟩

theorem Dense.alternation {l : List Automaton} (h : ∀ X ∈ l, ∃ n chars, X.Dense n chars)
    (hC : alternation l = .ok C) : ∃ n chars, C.Dense n chars := by
  cases l with
  | nil => cases hC
  | cons A rest =>
    have hready : ∀ X ∈ A :: rest, X.WellFormed ∧ X.start.isSome := by
      intro X hX
      obtain ⟨n, chars, hdense⟩ := h X hX
      exact ⟨hdense.wellFormed, Option.isSome_of_eq_some hdense.start_eq⟩
    obtain ⟨N, n, chars, hN, hdense⟩ := exists_nestedUnion h
    rw [alternation_eq_nestedUnion hready, hN] at hC
    cases hC
    exact ⟨n, chars, hdense⟩

/-- Every fragment has the states from `1` to some number. -/
theorem IsFragment.exists_dense (h : A.IsFragment) : ∃ n chars, A.Dense n chars := by
  induction h with
  | ofSymbol a => exact ⟨2, a.word, dense_ofSymbol a⟩
  | concat _ _ h ihA ihB =>
    obtain ⟨n, chars, hA⟩ := ihA
    obtain ⟨n', chars', hB⟩ := ihB
    obtain ⟨C, hC, hdense⟩ := hA.concat hB
    cases h.symm.trans hC
    exact ⟨_, _, hdense⟩
  | union _ _ h ihA ihB =>
    obtain ⟨n, chars, hA⟩ := ihA
    obtain ⟨n', chars', hB⟩ := ihB
    obtain ⟨C, hC, hdense⟩ := hA.union hB
    cases h.symm.trans hC
    exact ⟨_, _, hdense⟩
  | alternation _ h ih => exact Dense.alternation ih h
  | star _ h ih =>
    obtain ⟨n, chars, hA⟩ := ih
    obtain ⟨C, hC, hdense⟩ := hA.star
    cases h.symm.trans hC
    exact ⟨n, chars, hdense⟩

/-- An automaton that can be obtained, with a start state and the least state `1`. -/
structure FromOne (A : Automaton) : Prop where
  obtainable : A.Obtainable
  start_isSome : A.start.isSome
  minState_eq : A.minState = .ok 1

theorem FromOne.exists_spans (h : A.FromOne) : ∃ start greatest, A.Spans start 1 greatest := by
  obtain ⟨start, least, greatest, hspans⟩ :=
    Automaton.exists_spans h.obtainable.wellFormed h.start_isSome
  have hleast := hspans.minState_eq
  rw [h.minState_eq, Except.ok.injEq] at hleast
  exact ⟨start, greatest, hleast ▸ hspans⟩

end Automaton

end PatternAutomata
