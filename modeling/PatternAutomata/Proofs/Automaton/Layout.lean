import PatternAutomata.Proofs.Automaton.Branching
import PatternAutomata.Proofs.Automaton.Iteration

/-!
# Dense automata

A dense automaton starts in the state one, has one final state, and its states are the numbers from
the one to the other. Concatenation puts the states of the second operand right after those of the
first. A union moves the first operand up by one, puts the second one right after it, and takes the
numbers below and above for its new states. So dense operands give dense results, whose size is
known, and since wires carry no characters, the alphabets are simply put together.
-/

namespace PatternAutomata

namespace Transitions

theorem not_mem_chars_wires {l : List Edge} {c : Char} : c ∉ (wires l).chars := by
  rintro hc
  obtain ⟨p, q, labels, he, hlabels⟩ := mem_chars.1 hc
  have hq : q ∈ (wires l).targets p (.char c) := mem_targets.2 ⟨labels, he, hlabels⟩
  obtain ⟨hepsilon, -⟩ := mem_targets_wires.1 hq
  cases hepsilon

end Transitions

namespace Automaton

/-- The states are the numbers from `1` to `n`, of which the first is the start and the last is the
one final state. The alphabet consists of the listed characters. -/
structure Dense (A : Automaton) (n : Nat) (chars : List Char) : Prop where
  wellFormed : A.WellFormed
  start_eq : A.start = some 1
  mem_states_iff : ∀ q, q ∈ A.states ↔ 1 ≤ q ∧ q ≤ n
  mem_finals_iff : ∀ q, q ∈ A.finals ↔ q = n
  mem_alphabet_iff : ∀ c, c ∈ A.alphabet ↔ c ∈ chars

variable {A B : Automaton} {m n : Nat} {chars chars' : List Char} {c : Char}
  {start left right final entry s : State}

theorem mem_alphabet_addEdges_wires {l : List Edge} :
    c ∈ (A.addEdges (.wires l)).alphabet ↔ c ∈ A.alphabet := by
  rw [addEdges, Std.ExtTreeSet.mem_union_iff, or_iff_left Transitions.not_mem_chars_wires]

theorem mem_alphabet_followedBy :
    c ∈ (A.followedBy B entry).alphabet ↔ c ∈ A.alphabet ∨ c ∈ B.alphabet := by
  rw [followedBy, absorb, Std.ExtTreeSet.mem_union_iff, mem_alphabet_addEdges_wires]

theorem mem_alphabet_fork :
    c ∈ (A.fork B start left right final).alphabet ↔ c ∈ A.alphabet ∨ c ∈ B.alphabet := by
  rw [fork, setFinals, setStart, mem_alphabet_addEdges_wires, absorb, Std.ExtTreeSet.mem_union_iff]

namespace Dense

theorem one_le (h : A.Dense n chars) : 1 ≤ n := by
  have hstart := h.wellFormed.start_mem 1 h.start_eq
  exact ((h.mem_states_iff 1).1 hstart).2

theorem spans (h : A.Dense n chars) : A.Spans 1 1 n where
  wellFormed := h.wellFormed
  start_eq := h.start_eq
  minState_eq := by
    apply minState_eq_ok_iff.2
    simp only [h.mem_states_iff]
    exact ⟨⟨Nat.le_refl 1, h.one_le⟩, fun _ hq => hq.1⟩
  maxState_eq := by
    apply maxState_eq_ok_iff.2
    simp only [h.mem_states_iff]
    exact ⟨⟨h.one_le, Nat.le_refl n⟩, fun _ hq => hq.2⟩

theorem mem_states_shift_iff (h : A.Dense n chars) {k q : Nat} :
    q ∈ (A.shift k).states ↔ k + 1 ≤ q ∧ q ≤ n + k := by
  simp only [mem_states_shift, h.mem_states_iff]
  constructor
  · rintro ⟨p, hp, rfl⟩
    unfold State at *
    omega
  · intro hq
    refine ⟨q - k, ?_, ?_⟩
    all_goals unfold State at *; omega

theorem concat (hA : A.Dense m chars) (hB : B.Dense n chars') :
    ∃ C, A.concat B = .ok C ∧ C.Dense (m + n) (chars ++ chars') := by
  have hspans := hA.spans
  have hwf := hB.wellFormed.shift m
  have hentry := start_shift (k := m) hB.start_eq
  have hconcat := concat_eq_followedBy hA.wellFormed hB.wellFormed hA.start_eq hB.start_eq
    hA.spans.maxState_eq hB.spans.minState_eq
  rw [Nat.add_sub_cancel] at hconcat
  refine ⟨_, hconcat, hA.wellFormed.followedBy hwf _, hA.start_eq, fun q => ?_, fun q => ?_,
    fun c => ?_⟩
  · rw [mem_states_followedBy hA.wellFormed (hwf.start_mem _ hentry), hA.mem_states_iff,
      hB.mem_states_shift_iff]
    have hn := hB.one_le
    unfold State at *
    omega
  · have hfinals : q ∈ (A.followedBy (B.shift m) (1 + m)).finals ↔ q ∈ (B.shift m).finals := Iff.rfl
    simp only [hfinals, mem_finals_shift, hB.mem_finals_iff, exists_eq_left]
    rw [eq_comm, Nat.add_comm]
  · have halphabet : (B.shift m).alphabet = B.alphabet := rfl
    rw [mem_alphabet_followedBy, halphabet, hA.mem_alphabet_iff, hB.mem_alphabet_iff,
      List.mem_append]

/-- A union needs two numbers more than its operands, one below them and one above. -/
theorem union (hA : A.Dense m chars) (hB : B.Dense n chars') :
    ∃ C, A.union B = .ok C ∧ C.Dense (m + n + 2) (chars ++ chars') := by
  have hunion := hA.spans.union_eq hB.spans
  have hgap : m + 2 - 1 = m + 1 := rfl
  rw [hgap] at hunion
  have hleft := hA.spans.shift 1
  have hright := hB.spans.shift (m + 1)
  refine ⟨_, hunion, hleft.wellFormed.fork hright.wellFormed _ _ _ _, rfl, fun q => ?_, fun q => ?_,
    fun c => ?_⟩
  · rw [mem_states_fork hleft.wellFormed hright.wellFormed hleft.start_mem hright.start_mem,
      hA.mem_states_shift_iff, hB.mem_states_shift_iff]
    have hm := hA.one_le
    have hn := hB.one_le
    unfold State at *
    omega
  · have hfinal : n + (m + 1) + 1 = m + n + 2 := by omega
    rw [mem_finals_fork, hfinal]
  · have hleft : (A.shift 1).alphabet = A.alphabet := rfl
    have hright : (B.shift (m + 1)).alphabet = B.alphabet := rfl
    rw [mem_alphabet_fork, hleft, hright, hA.mem_alphabet_iff, hB.mem_alphabet_iff, List.mem_append]

theorem star (hA : A.Dense n chars) : ∃ C, A.star = .ok C ∧ C.Dense n chars := by
  have hstates := states_looped hA.wellFormed (hA.wellFormed.start_mem 1 hA.start_eq)
  refine ⟨_, star_eq hA.start_eq, hA.wellFormed.looped 1, hA.start_eq, ?_, hA.mem_finals_iff,
    fun c => ?_⟩
  · rw [hstates]
    exact hA.mem_states_iff
  · rw [looped, mem_alphabet_addEdges_wires, hA.mem_alphabet_iff]

end Dense

end Automaton

end PatternAutomata
