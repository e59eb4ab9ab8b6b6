import PatternAutomata.Proofs.Subset.Proper
import PatternAutomata.Subset.Worklist

/-!
# The work on a queue of sets comes to an end

Working off the queue draws the automaton edge by edge, while the search for the sets lists rows and
numbers them afterwards. Here the two are compared. The automaton has the sets numbered so far as
its states, and it has the edges of those characters that were tried; trying one more character keeps
to this. So the queue holds between two turns what the search still has to expand, it runs empty
when the search is over, and the automaton that is there in the end is the automaton of the rows.
-/

namespace PatternAutomata

namespace Worklist

open Automaton

variable {A : Automaton} {W V : Worklist} {s t : StateSet} {p q r : State} {c : Char}
  {queue : List (State × StateSet)} {drawn drawn' : State → Char → Prop}

/-- The place of a set in the record of the queue, counted from one. -/
def Numbered (W : Worklist) (q : State) (s : StateSet) : Prop :=
  ∃ i : Nat, q = i + 1 ∧ W.queued[i]? = some s

theorem Numbered.set_eq (hs : W.Numbered q s) (ht : W.Numbered q t) : s = t := by
  obtain ⟨i, rfl, hs⟩ := hs
  obtain ⟨j, hij, ht⟩ := ht
  obtain rfl : i = j := Nat.succ.inj hij
  exact Option.some.inj (hs.symm.trans ht)

theorem Numbered.number_eq (h : W.queued.Nodup) (hp : W.Numbered p s) (hq : W.Numbered q s) :
    p = q := by
  obtain ⟨i, rfl, hi⟩ := hp
  obtain ⟨j, rfl, hj⟩ := hq
  obtain ⟨hlt, -⟩ := List.getElem?_eq_some_iff.1 hi
  rw [(List.getElem?_inj hlt h).1 (hi.trans hj.symm)]

theorem exists_numbered_iff : (∃ q, W.Numbered q s) ↔ s ∈ W.queued := by
  rw [List.mem_iff_getElem?]
  constructor
  · rintro ⟨_, i, -, hi⟩
    exact ⟨i, hi⟩
  · rintro ⟨i, hi⟩
    exact ⟨i + 1, i, rfl, hi⟩

theorem Numbered.mono (h : W.queued <+: V.queued) (hq : W.Numbered q s) : V.Numbered q s := by
  obtain ⟨i, rfl, hi⟩ := hq
  obtain ⟨l, hl⟩ := h
  obtain ⟨hlt, -⟩ := List.getElem?_eq_some_iff.1 hi
  refine ⟨i, rfl, ?_⟩
  rw [← hl, List.getElem?_append_left hlt, hi]

theorem numbered_enqueue : (W.enqueue A t).Numbered q s ↔
    W.Numbered q s ∨ q = W.queued.length + 1 ∧ s = t := by
  have hqueued : (W.enqueue A t).queued = W.queued ++ [t] := rfl
  simp only [Numbered, hqueued, List.getElem?_append, List.getElem?_singleton]
  constructor
  · rintro ⟨i, rfl, hi⟩
    split at hi
    · exact .inl ⟨i, rfl, hi⟩
    · next hle =>
      split at hi
      · next hzero =>
        have hlength : i = W.queued.length := by omega
        rw [hlength]
        exact .inr ⟨rfl, (Option.some.inj hi).symm⟩
      · cases hi
  · rintro (⟨i, rfl, hi⟩ | ⟨rfl, rfl⟩)
    · obtain ⟨hlt, -⟩ := List.getElem?_eq_some_iff.1 hi
      exact ⟨i, rfl, by rw [if_pos hlt, hi]⟩
    · exact ⟨_, rfl, by simp⟩

/-- The queued sets have the numbers of before, and there is one more number. -/
theorem exists_set_enqueue : (∃ s, (W.enqueue A t).Numbered q s) ↔
    (∃ s, W.Numbered q s) ∨ q = W.queued.length + 1 := by
  simp only [numbered_enqueue, exists_or, exists_and_left, exists_eq, and_true]

theorem exists_accepting_enqueue : (∃ s, (W.enqueue A t).Numbered q s ∧ A.isAccepting s) ↔
    (∃ s, W.Numbered q s ∧ A.isAccepting s) ∨ A.isAccepting t ∧ q = W.queued.length + 1 := by
  simp only [numbered_enqueue, or_and_right, exists_or]
  refine or_congr_right ?_
  constructor
  · rintro ⟨_, ⟨hq, rfl⟩, ht⟩
    exact ⟨ht, hq⟩
  · rintro ⟨ht, hq⟩
    exact ⟨t, ⟨hq, rfl⟩, ht⟩

/-- The queue, the numbers and the records agree. -/
structure Counts (W : Worklist) : Prop where
  queued_eq : W.queued = W.expanded ++ W.queue.map Prod.snd
  nodup : W.queued.Nodup
  size_eq : W.numbers.size = W.queued.length
  getElem?_numbers : ∀ {k q}, W.numbers[k]? = some q ↔ ∃ s, s.toList = k ∧ W.Numbered q s
  numbered : ∀ {q s}, (q, s) ∈ W.queue → W.Numbered q s

namespace Counts

theorem numbers_eq_some (h : W.Counts) : W.numbers[s.toList]? = some q ↔ W.Numbered q s := by
  rw [h.getElem?_numbers]
  constructor
  · rintro ⟨t, ht, hq⟩
    rw [← Std.ExtTreeSet.toList_inj.1 ht]
    exact hq
  · intro hq
    exact ⟨s, rfl, hq⟩

theorem numbers_eq_none (h : W.Counts) : W.numbers[s.toList]? = none ↔ s ∉ W.queued := by
  rw [← exists_numbered_iff, Option.eq_none_iff_forall_ne_some, not_exists]
  simp only [ne_eq, h.numbers_eq_some]

theorem enqueue (h : W.Counts) (ht : t ∉ W.queued) : (W.enqueue A t).Counts where
  queued_eq := by
    have hqueued := h.queued_eq
    simp only [Worklist.enqueue, hqueued, List.map_append, List.map_cons, List.map_nil,
      List.append_assoc]
  nodup := by
    refine List.nodup_append.2 ⟨h.nodup, List.nodup_singleton t, ?_⟩
    intro u hu v hv huv
    rw [List.mem_singleton.1 hv] at huv
    exact ht (huv ▸ hu)
  size_eq := by
    have hnew : W.numbers.contains t.toList = false := by
      rw [Std.ExtTreeMap.contains_eq_isSome_getElem?, h.numbers_eq_none.2 ht]
      rfl
    simp only [Worklist.enqueue, Std.ExtTreeMap.size_insert, hnew, Bool.false_eq_true, ↓reduceIte,
      h.size_eq, List.length_append, List.length_singleton]
  getElem?_numbers {k q} := by
    have hnumbers : (W.enqueue A t).numbers = W.numbers.insert t.toList (W.numbers.size + 1) := rfl
    rw [hnumbers, Std.ExtTreeMap.getElem?_insert, h.size_eq]
    simp only [Std.LawfulEqCmp.compare_eq_iff_eq, numbered_enqueue]
    split
    · next hk =>
      subst hk
      simp only [Std.ExtTreeSet.toList_inj, exists_eq_left, Option.some.injEq]
      have hnone (q) : ¬W.Numbered q t := fun hq => ht (exists_numbered_iff.1 ⟨q, hq⟩)
      simp only [hnone, false_or, and_true]
      exact eq_comm
    · next hk =>
      rw [h.getElem?_numbers]
      grind
  numbered {q s} hq := by
    rw [numbered_enqueue]
    rcases List.mem_append.1 hq with hq | hq
    · exact .inl (h.numbered hq)
    · obtain ⟨rfl, rfl⟩ := Prod.mk.inj (List.mem_singleton.1 hq)
      exact .inr ⟨by rw [h.size_eq], rfl⟩

theorem draw (h : W.Counts) : (W.draw p q c).Counts :=
  ⟨h.queued_eq, h.nodup, h.size_eq, h.getElem?_numbers, h.numbered⟩

end Counts

theorem mem_states_draw : r ∈ (W.draw p q c).automaton.states ↔
    r ∈ W.automaton.states ∨ r = p ∨ r = q := by
  simp only [draw, addSymbol, addTransition, addEdges, Std.ExtTreeSet.mem_union_iff,
    Transitions.mem_endpoints_ofEdge]

theorem alphabet_draw (hc : c ∈ W.automaton.alphabet) :
    (W.draw p q c).automaton.alphabet = W.automaton.alphabet := by
  apply Std.ExtTreeSet.ext_mem
  intro d
  simp only [draw, addSymbol, addTransition, addEdges, Std.ExtTreeSet.mem_union_iff,
    Transitions.mem_chars_ofEdge, Ordered.mem_singleton, Symbol.char.injEq]
  constructor
  · rintro (hd | rfl)
    · exact hd
    · exact hc
  · exact .inl

theorem mem_targets_draw {p' q' : State} {a : Symbol} :
    q' ∈ (W.draw p q c).automaton.targets p' a ↔
      q' ∈ W.automaton.targets p' a ∨ p' = p ∧ q' = q ∧ a = .char c := by
  simp only [draw, addSymbol, mem_targets_addTransition, Ordered.mem_singleton]

theorem labelled_draw (h : W.automaton.edges.Labelled) :
    (W.draw p q c).automaton.edges.Labelled :=
  h.union (Transitions.labelled_ofEdge (Ordered.mem_singleton.2 rfl))

theorem mem_states_enqueue : r ∈ (W.enqueue A t).automaton.states ↔
    r ∈ W.automaton.states ∨ A.isAccepting t ∧ r = W.numbers.size + 1 := by
  unfold enqueue
  split
  · next ht =>
    simp only [addFinals, Std.ExtTreeSet.mem_union_iff, Ordered.mem_ofList, List.mem_singleton, ht,
      true_and]
  · next ht => simp [ht]

theorem mem_finals_enqueue : r ∈ (W.enqueue A t).automaton.finals ↔
    r ∈ W.automaton.finals ∨ A.isAccepting t ∧ r = W.numbers.size + 1 := by
  unfold enqueue
  split
  · next ht =>
    simp only [addFinals, Std.ExtTreeSet.mem_union_iff, Ordered.mem_ofList, List.mem_singleton, ht,
      true_and]
  · next ht => simp [ht]

theorem frame_enqueue : (W.enqueue A t).automaton.edges = W.automaton.edges ∧
    (W.enqueue A t).automaton.alphabet = W.automaton.alphabet ∧
    (W.enqueue A t).automaton.start = W.automaton.start := by
  unfold enqueue
  split
  · exact ⟨rfl, rfl, rfl⟩
  · exact ⟨rfl, rfl, rfl⟩

/-- The automaton has the numbers as its states, and between them the edges of the characters that
were tried, where `drawn` says which were tried on which numbers. -/
structure Stands (W : Worklist) (A : Automaton) (drawn : State → Char → Prop) : Prop
    extends W.Counts where
  alphabet_eq : W.automaton.alphabet = A.alphabet
  start_eq : W.automaton.start = some 1
  mem_states : ∀ {q}, q ∈ W.automaton.states ↔ ∃ s, W.Numbered q s
  mem_finals : ∀ {q}, q ∈ W.automaton.finals ↔ ∃ s, W.Numbered q s ∧ A.isAccepting s
  labelled : W.automaton.edges.Labelled
  mem_targets : ∀ {p q a}, q ∈ W.automaton.targets p a ↔ ∃ c s, a = .char c ∧ drawn p c ∧
    W.Numbered p s ∧ A.move s c ≠ ∅ ∧ W.Numbered q (A.move s c)
  closed : ∀ {p c}, drawn p c → ∃ s, W.Numbered p s ∧
    (A.move s c ≠ ∅ → ∃ q, W.Numbered q (A.move s c))

theorem Stands.congr (h : W.Stands A drawn) (heq : ∀ p c, drawn p c ↔ drawn' p c) :
    W.Stands A drawn' := by
  have hsame : drawn = drawn' := funext fun p => funext fun c => propext (heq p c)
  exact hsame ▸ h

theorem not_numbered_blank : ¬(blank A).Numbered q s := by
  rintro ⟨i, -, hi⟩
  cases hi

theorem counts_blank : (blank A).Counts where
  queued_eq := rfl
  nodup := List.nodup_nil
  size_eq := rfl
  getElem?_numbers {k q} := by
    simp only [not_numbered_blank, and_false, exists_false, iff_false]
    exact Option.not_mem_none q
  numbered := nofun

theorem stands_initial {start : State} : (initial A start).Stands A fun _ _ => False := by
  obtain ⟨hedges, halphabet, hstart⟩ :=
    frame_enqueue (A := A) (W := blank A) (t := A.closure [start])
  refine ⟨counts_blank.enqueue List.not_mem_nil, halphabet, hstart, ?_, ?_, ?_, ?_, nofun⟩
  · intro q
    have hone : q ∈ (blank A).automaton.states ↔ q = 1 := by
      simp only [blank, setStart, Automaton.ofAlphabet, Ordered.mem_insert,
        Std.ExtTreeSet.not_mem_empty, or_false]
    rw [initial, mem_states_enqueue, exists_set_enqueue, hone]
    simp only [not_numbered_blank, exists_false, false_or]
    exact or_iff_left_of_imp And.right
  · intro q
    rw [initial, mem_finals_enqueue, exists_accepting_enqueue]
    simp only [not_numbered_blank, false_and, exists_false]
    exact or_congr_left (iff_false_intro Std.ExtTreeSet.not_mem_empty)
  · rw [initial, hedges]
    intro p q labels h
    cases h
  · intro p q a
    simp only [false_and, and_false, exists_false, iff_false]
    rw [initial, targets, hedges]
    exact Std.ExtTreeSet.not_mem_empty

section step

variable (h : W.Stands A drawn) (hV : V.Counts) (hgrow : W.queued <+: V.queued)
  (hp : W.Numbered p s) (hne : A.move s c ≠ ∅) (hq : V.Numbered q (A.move s c))

include h hgrow hp hq

include hV hne in
/-- One more character was tried: the edge for it is new, and the old edges are those of before. -/
theorem Stands.mem_targets_step {p' q' : State} {a : Symbol} :
    q' ∈ (W.draw p q c).automaton.targets p' a ↔ ∃ d u, a = .char d ∧
      (drawn p' d ∨ p' = p ∧ d = c) ∧ V.Numbered p' u ∧ A.move u d ≠ ∅ ∧
        V.Numbered q' (A.move u d) := by
  rw [mem_targets_draw, h.mem_targets]
  constructor
  · rintro (⟨d, u, rfl, hd, hp', hmove, hq'⟩ | ⟨rfl, rfl, rfl⟩)
    · exact ⟨d, u, rfl, .inl hd, hp'.mono hgrow, hmove, hq'.mono hgrow⟩
    · exact ⟨c, s, rfl, .inr ⟨rfl, rfl⟩, hp.mono hgrow, hne, hq⟩
  · rintro ⟨d, u, rfl, hd | ⟨rfl, rfl⟩, hp', hmove, hq'⟩
    · obtain ⟨u', hu', hnext⟩ := h.closed hd
      obtain rfl : u = u' := hp'.set_eq (hu'.mono hgrow)
      obtain ⟨r, hr⟩ := hnext hmove
      obtain rfl : q' = r := hq'.number_eq hV.nodup (hr.mono hgrow)
      exact .inl ⟨d, u, rfl, hd, hu', hmove, hr⟩
    · obtain rfl : u = s := hp'.set_eq (hp.mono hgrow)
      exact .inr ⟨rfl, hq'.number_eq hV.nodup hq, rfl⟩

theorem Stands.closed_step {p' : State} {d : Char} (hd : drawn p' d ∨ p' = p ∧ d = c) :
    ∃ u, V.Numbered p' u ∧ (A.move u d ≠ ∅ → ∃ q', V.Numbered q' (A.move u d)) := by
  rcases hd with hd | ⟨rfl, rfl⟩
  · obtain ⟨u, hu, hnext⟩ := h.closed hd
    refine ⟨u, hu.mono hgrow, fun hmove => ?_⟩
    obtain ⟨r, hr⟩ := hnext hmove
    exact ⟨r, hr.mono hgrow⟩
  · exact ⟨s, hp.mono hgrow, fun _ => ⟨q, hq⟩⟩

end step

theorem Stands.skip (h : W.Stands A drawn) (hp : W.Numbered p s) (hempty : A.move s c = ∅) :
    W.Stands A fun p' d => drawn p' d ∨ p' = p ∧ d = c where
  toCounts := h.toCounts
  alphabet_eq := h.alphabet_eq
  start_eq := h.start_eq
  mem_states := h.mem_states
  mem_finals := h.mem_finals
  labelled := h.labelled
  mem_targets {p' q' a} := by
    rw [h.mem_targets]
    constructor
    · rintro ⟨d, u, rfl, hd, hrest⟩
      exact ⟨d, u, rfl, .inl hd, hrest⟩
    · rintro ⟨d, u, rfl, hd | ⟨rfl, rfl⟩, hu, hmove, hq⟩
      · exact ⟨d, u, rfl, hd, hu, hmove, hq⟩
      · rw [hu.set_eq hp] at hmove
        exact absurd hempty hmove
  closed {p' d} hd := by
    rcases hd with hd | ⟨rfl, rfl⟩
    · exact h.closed hd
    · exact ⟨s, hp, fun hmove => absurd hempty hmove⟩

theorem Stands.draw (h : W.Stands A drawn) (hp : W.Numbered p s) (hc : c ∈ A.alphabet)
    (hne : A.move s c ≠ ∅) (hq : W.Numbered q (A.move s c)) :
    (W.draw p q c).Stands A fun p' d => drawn p' d ∨ p' = p ∧ d = c where
  toCounts := h.toCounts.draw
  alphabet_eq := by rw [alphabet_draw (h.alphabet_eq ▸ hc), h.alphabet_eq]
  start_eq := h.start_eq
  mem_states {r} := by
    rw [mem_states_draw, h.mem_states]
    constructor
    · rintro (hr | rfl | rfl)
      · exact hr
      · exact ⟨s, hp⟩
      · exact ⟨_, hq⟩
    · exact .inl
  mem_finals := h.mem_finals
  labelled := labelled_draw h.labelled
  mem_targets := h.mem_targets_step h.toCounts (List.prefix_refl _) hp hne hq
  closed := h.closed_step (List.prefix_refl _) hp hq

theorem Stands.discover (h : W.Stands A drawn) (hp : W.Numbered p s) (hc : c ∈ A.alphabet)
    (hne : A.move s c ≠ ∅) (hnew : A.move s c ∉ W.queued) :
    ((W.draw p (W.numbers.size + 1) c).enqueue A (A.move s c)).Stands A
      fun p' d => drawn p' d ∨ p' = p ∧ d = c := by
  have hdraw : (W.draw p (W.numbers.size + 1) c).Counts := h.toCounts.draw
  have hcounts := hdraw.enqueue (A := A) hnew
  have hgrow : W.queued <+: ((W.draw p (W.numbers.size + 1) c).enqueue A (A.move s c)).queued :=
    List.prefix_append _ _
  have hq : ((W.draw p (W.numbers.size + 1) c).enqueue A (A.move s c)).Numbered
      (W.numbers.size + 1) (A.move s c) := by
    rw [numbered_enqueue, h.size_eq]
    exact .inr ⟨rfl, rfl⟩
  obtain ⟨hedges, halphabet, hstart⟩ := frame_enqueue (A := A)
    (W := W.draw p (W.numbers.size + 1) c) (t := A.move s c)
  refine ⟨hcounts, ?_, ?_, ?_, ?_, ?_, ?_, h.closed_step hgrow hp hq⟩
  · rw [halphabet, alphabet_draw (h.alphabet_eq ▸ hc), h.alphabet_eq]
  · rw [hstart]
    exact h.start_eq
  · intro r
    have hlength : (W.draw p (W.numbers.size + 1) c).queued.length = W.numbers.size :=
      h.size_eq.symm
    have hnumbered : (∃ u, (W.draw p (W.numbers.size + 1) c).Numbered r u) ↔
      ∃ u, W.Numbered r u := Iff.rfl
    rw [mem_states_enqueue, mem_states_draw, h.mem_states, exists_set_enqueue, hdraw.size_eq,
      hlength, hnumbered]
    constructor
    · rintro ((hr | rfl | hr) | ⟨-, hr⟩)
      · exact .inl hr
      · exact .inl ⟨s, hp⟩
      · exact .inr hr
      · exact .inr hr
    · rintro (hr | hr)
      · exact .inl (.inl hr)
      · exact .inl (.inr (.inr hr))
  · intro r
    have hfinals : r ∈ (W.draw p (W.numbers.size + 1) c).automaton.finals ↔ _ := h.mem_finals
    rw [mem_finals_enqueue, exists_accepting_enqueue, hfinals, hdraw.size_eq]
    exact Iff.rfl
  · rw [hedges]
    exact labelled_draw h.labelled
  · intro p' q' a
    rw [← h.mem_targets_step hcounts hgrow hp hne hq, targets, targets, hedges]

theorem mem_add_empty {l : List StateSet} : t.toList ∈ Known.add ∅ l ↔ t ∈ l := by
  simp only [Known.mem_add, Std.ExtTreeSet.not_mem_empty, false_or, Std.ExtTreeSet.toList_inj,
    exists_eq_right]

def moves (A : Automaton) (s : StateSet) (l : List Char) : List StateSet :=
  (l.map (A.move s)).filter fun t => !t.isEmpty

theorem moves_cons {l : List Char} : moves A s (c :: l) = moves A s [c] ++ moves A s l := by
  rw [moves, ← List.singleton_append, List.map_append, List.filter_append]
  rfl

theorem subsets_row : (A.row s).moves.map Prod.snd = moves A s A.alphabet.toList := by
  have hrow : (A.row s).moves = A.alphabet.toList.filterMap fun c =>
    if (A.move s c).isEmpty then none else some (c, A.move s c) := rfl
  rw [hrow]
  induction A.alphabet.toList with
  | nil => rfl
  | cons c l ih =>
    rw [moves_cons, ← ih]
    by_cases hempty : A.move s c = ∅
    · simp [moves, hempty]
    · simp [moves, hempty]

/-- What trying one character does. -/
theorem Stands.visit (h : W.Stands A drawn) (hp : W.Numbered p s) (hc : c ∈ A.alphabet) :
    (visit A p s W c).Stands A (fun p' d => drawn p' d ∨ p' = p ∧ d = c) ∧
      (Worklist.visit A p s W c).queued = W.queued ++ unknown (.add ∅ W.queued) (moves A s [c]) ∧
      (Worklist.visit A p s W c).expanded = W.expanded := by
  by_cases hempty : A.move s c = ∅
  · have hvisit : Worklist.visit A p s W c = W := by simp [Worklist.visit, hempty]
    rw [hvisit]
    exact ⟨h.skip hp hempty, by simp [moves, hempty, unknown], rfl⟩
  · have hmoves : moves A s [c] = [A.move s c] := by simp [moves, hempty]
    rw [hmoves]
    cases hnumber : W.numbers[(A.move s c).toList]? with
    | some q =>
      have hvisit : Worklist.visit A p s W c = W.draw p q c := by
        simp [Worklist.visit, hempty, hnumber]
      have hq := h.numbers_eq_some.1 hnumber
      have hknown : (A.move s c).toList ∈ Known.add ∅ W.queued :=
        mem_add_empty.2 (exists_numbered_iff.1 ⟨q, hq⟩)
      rw [hvisit]
      exact ⟨h.draw hp hc hempty hq, by simp [unknown, hknown]; rfl, rfl⟩
    | none =>
      have hvisit : Worklist.visit A p s W c =
          (W.draw p (W.numbers.size + 1) c).enqueue A (A.move s c) := by
        simp [Worklist.visit, hempty, hnumber]
      have hnew := h.numbers_eq_none.1 hnumber
      have hunknown : (A.move s c).toList ∉ Known.add ∅ W.queued :=
        fun h => hnew (mem_add_empty.1 h)
      rw [hvisit]
      exact ⟨h.discover hp hc hempty hnew, by simp [unknown, hunknown]; rfl, rfl⟩

theorem Stands.foldl_visit (h : W.Stands A drawn) (hp : W.Numbered p s) {l : List Char}
    (hl : ∀ c ∈ l, c ∈ A.alphabet) :
    (l.foldl (Worklist.visit A p s) W).Stands A (fun p' d => drawn p' d ∨ p' = p ∧ d ∈ l) ∧
      (l.foldl (Worklist.visit A p s) W).queued =
        W.queued ++ unknown (.add ∅ W.queued) (moves A s l) ∧
      (l.foldl (Worklist.visit A p s) W).expanded = W.expanded := by
  induction l generalizing W drawn with
  | nil =>
    refine ⟨h.congr fun p' d => ?_, by simp [moves, unknown], rfl⟩
    simp
  | cons c l ih =>
    obtain ⟨hc, hl⟩ := List.forall_mem_cons.1 hl
    obtain ⟨hV, hqueued, hexpanded⟩ := h.visit hp hc
    have hgrow : W.queued <+: (Worklist.visit A p s W c).queued := ⟨_, hqueued.symm⟩
    obtain ⟨hT, hqueued', hexpanded'⟩ := ih hV (hp.mono hgrow) hl
    refine ⟨hT.congr fun p' d => ?_, ?_, hexpanded'.trans hexpanded⟩
    · rw [List.mem_cons]
      tauto
    · rw [List.foldl_cons, hqueued', hqueued, moves_cons (l := l), unknown_append,
        Known.add_append, List.append_assoc]

/-- Between two turns every character was tried on the sets that are expanded. -/
def Tried (W : Worklist) (A : Automaton) (p : State) (c : Char) : Prop :=
  c ∈ A.alphabet ∧ ∃ s ∈ W.expanded, W.Numbered p s

/-- A set taken out of the queue is expanded. What was tried before stays tried. -/
theorem Stands.take (h : W.Stands A drawn) (hqueue : W.queue = (p, s) :: queue) :
    ({ W with queue, expanded := W.expanded ++ [s] } : Worklist).Stands A drawn where
  queued_eq := by
    have hqueued := h.queued_eq
    rw [hqueue] at hqueued
    simpa using hqueued
  nodup := h.nodup
  size_eq := h.size_eq
  getElem?_numbers := h.getElem?_numbers
  numbered hq := by
    apply h.numbered
    rw [hqueue]
    exact List.mem_cons_of_mem _ hq
  alphabet_eq := h.alphabet_eq
  start_eq := h.start_eq
  mem_states := h.mem_states
  mem_finals := h.mem_finals
  labelled := h.labelled
  mem_targets := h.mem_targets
  closed := h.closed

theorem tried_iff {d : Char} (hW : W.Counts) (hV : V.Counts) (hgrow : W.queued <+: V.queued)
    (hexpanded : V.expanded = W.expanded ++ [s]) (hp : W.Numbered p s) :
    V.Tried A q d ↔ W.Tried A q d ∨ q = p ∧ d ∈ A.alphabet := by
  simp only [Tried, hexpanded, List.mem_append, List.mem_singleton]
  constructor
  · rintro ⟨hd, u, hu | rfl, hq⟩
    · have hmem : u ∈ W.queued := by
        rw [hW.queued_eq]
        exact List.mem_append_left _ hu
      obtain ⟨r, hr⟩ := exists_numbered_iff.2 hmem
      obtain rfl : q = r := hq.number_eq hV.nodup (hr.mono hgrow)
      exact .inl ⟨hd, u, hu, hr⟩
    · exact .inr ⟨hq.number_eq hV.nodup (hp.mono hgrow), hd⟩
  · rintro (⟨hd, u, hu, hq⟩ | ⟨rfl, hd⟩)
    · exact ⟨hd, u, .inl hu, hq.mono hgrow⟩
    · exact ⟨hd, s, .inr rfl, hp.mono hgrow⟩

/-- A turn queues the sets of the moves that are new. -/
theorem Stands.turn (h : W.Stands A (W.Tried A)) (hqueue : W.queue = (p, s) :: queue) :
    ∃ V, W.turn? A = some V ∧ V.Stands A (V.Tried A) ∧
      V.queued = W.queued ++ unknown (.add ∅ W.queued) ((A.row s).moves.map Prod.snd) ∧
      V.expanded = W.expanded ++ [s] := by
  have hp : W.Numbered p s := by
    apply h.numbered
    rw [hqueue]
    exact List.mem_cons_self
  obtain ⟨hV, hqueued, hexpanded⟩ := (h.take hqueue).foldl_visit hp (l := A.alphabet.toList)
    fun _ => Std.ExtTreeSet.mem_toList.1
  rw [← subsets_row] at hqueued
  refine ⟨_, ?_, hV.congr fun p' d => ?_, hqueued, hexpanded⟩
  · rw [turn?, hqueue]
  · rw [tried_iff h.toCounts hV.toCounts ⟨_, hqueued.symm⟩ hexpanded hp, Std.ExtTreeSet.mem_toList]

/-- The work follows the search for the sets. Both expand the same sets in the same order. -/
theorem exists_ends (known : Known) (sets : List StateSet) :
    ∀ W : Worklist, W.Stands A (W.Tried A) → known = .add ∅ W.queued →
      W.queue.map Prod.snd = sets → ∃ T, W.Ends A (A.explore known sets).length T ∧
        T.Stands A (T.Tried A) ∧ T.queue = [] ∧
        T.queued = W.expanded ++ (A.explore known sets).map Row.subset := by
  -- A step of the search is a turn: the sets of its queue are those of the work's queue.
  fun_induction explore A known sets with
  | case1 known =>
    intro W h hknown hsets
    have hqueue : W.queue = [] := List.map_eq_nil_iff.1 hsets
    refine ⟨W, .done ?_, h, hqueue, ?_⟩
    · rw [turn?, hqueue]
    · have hqueued := h.queued_eq
      rw [hsets] at hqueued
      exact hqueued
  | case2 known s sets row fresh ih =>
    intro W h hknown hsets
    obtain ⟨⟨p, s'⟩, queue, hqueue, hs, hrest⟩ := List.map_eq_cons_iff.1 hsets
    obtain rfl : s' = s := hs
    obtain ⟨V, hturn, hV, hqueued, hexpanded⟩ := h.turn hqueue
    rw [← hknown] at hqueued
    have hVsets : V.queue.map Prod.snd = sets ++ fresh := by
      have hcount := hV.queued_eq
      rw [hqueued, h.queued_eq, hexpanded, hsets] at hcount
      simpa using hcount.symm
    have hVknown : known.add fresh = .add ∅ V.queued := by
      rw [hqueued, Known.add_append, ← hknown]
    obtain ⟨T, hends, hT, hempty, hTqueued⟩ := ih V hV hVknown hVsets
    refine ⟨T, .turn hturn hends, hT, hempty, ?_⟩
    rw [hTqueued, hexpanded, List.append_assoc]
    rfl

theorem Counts.subset?_dfa (h : W.Counts) : W.dfa.subset? q = some s ↔ W.Numbered q s := by
  have hnumbers {k q} : (k, q) ∈ W.numbers.toList ↔ ∃ s, s.toList = k ∧ W.Numbered q s := by
    rw [Std.ExtTreeMap.mem_toList_iff_getElem?_eq_some, h.getElem?_numbers]
  -- Different keys stand for different sets, and so for different numbers.
  have hkeys : W.numbers.toList.Pairwise fun e f => e.1 ≠ f.1 := by
    simpa using W.numbers.distinct_keys_toList
  have hdistinct : (W.numbers.toList.map fun e =>
      (e.2, (Std.ExtTreeSet.ofList e.1 : StateSet))).Pairwise fun e f => e.1 ≠ f.1 := by
    refine List.pairwise_map.2 (hkeys.imp_of_mem fun {e f} he hf hne heq => hne ?_)
    obtain ⟨u, hu, hue⟩ := hnumbers.1 he
    obtain ⟨v, hv, hvf⟩ := hnumbers.1 hf
    have heq : e.2 = f.2 := heq
    rw [← hu, ← hv, hue.set_eq (heq ▸ hvf)]
  have hget := Ordered.getElem?_ofList_eq_some_iff (k := q) (b := s) hdistinct
  rw [Dfa.subset?, dfa, hget, List.mem_map]
  constructor
  · rintro ⟨⟨k, r⟩, he, heq⟩
    obtain ⟨rfl, rfl⟩ := Prod.mk.inj heq
    obtain ⟨u, rfl, hu⟩ := hnumbers.1 he
    rw [Ordered.ofList_toList]
    exact hu
  · intro hq
    exact ⟨(s.toList, q), hnumbers.2 ⟨s, rfl, hq⟩, by rw [Ordered.ofList_toList]⟩

/-- At the end the work has built the automaton of the rows of the search. -/
theorem Stands.automaton_eq {initial : StateSet} {rows : List Row} (h : W.Stands A (W.Tried A))
    (hrows : A.Explored initial rows) (hqueued : W.queued = rows.map Row.subset)
    (hexpanded : W.expanded = W.queued) :
    W.automaton = (Dfa.ofRows A rows).automaton := by
  have hnumbered (q s) : W.Numbered q s ↔ (Dfa.ofRows A rows).subset? q = some s := by
    rw [Dfa.subset?_ofRows_iff, ← hqueued]
    rfl
  have htried {p s c} (hp : W.Numbered p s) : W.Tried A p c ↔ c ∈ A.alphabet :=
    and_iff_left ⟨s, hexpanded ▸ exists_numbered_iff.1 ⟨p, hp⟩, hp⟩
  have hstates : W.automaton.states = (Dfa.ofRows A rows).automaton.states := by
    apply Std.ExtTreeSet.ext_mem
    intro q
    simp only [h.mem_states, hnumbered, Dfa.mem_states_ofRows]
  have hfinals : W.automaton.finals = (Dfa.ofRows A rows).automaton.finals := by
    apply Std.ExtTreeSet.ext_mem
    intro q
    simp only [h.mem_finals, hnumbered, Dfa.mem_finals_ofRows]
  have hedges : W.automaton.edges = (Dfa.ofRows A rows).automaton.edges := by
    apply h.labelled.eq_of_targets (Dfa.labelled_ofRows hrows)
    intro p q a
    refine h.mem_targets.trans (Iff.trans ?_ (Dfa.mem_targets_ofRows hrows).symm)
    refine exists_congr fun c => exists_congr fun s => and_congr_right fun _ => ?_
    rw [← hnumbered, ← hnumbered]
    constructor
    · rintro ⟨hc, hp, hmove⟩
      exact ⟨(htried hp).1 hc, hp, hmove⟩
    · rintro ⟨hc, hp, hmove⟩
      exact ⟨(htried hp).2 hc, hp, hmove⟩
  have hwhole : W.automaton = ⟨W.automaton.states, W.automaton.alphabet, W.automaton.start,
    W.automaton.finals, W.automaton.edges⟩ := rfl
  rw [hwhole, hstates, h.alphabet_eq, h.start_eq, hfinals, hedges]
  rfl

theorem Stands.dfa_eq {initial : StateSet} {rows : List Row} (h : W.Stands A (W.Tried A))
    (hrows : A.Explored initial rows) (hqueued : W.queued = rows.map Row.subset)
    (hexpanded : W.expanded = W.queued) : W.dfa = Dfa.ofRows A rows := by
  have hsubsets : W.dfa.subsets = (Dfa.ofRows A rows).subsets := by
    apply Std.ExtTreeMap.ext_getElem?
    intro q
    apply Option.ext
    intro s
    refine h.subset?_dfa.trans ?_
    rw [Numbered, hqueued]
    exact Dfa.subset?_ofRows_iff.symm
  exact congrArg₂ Dfa.mk (h.automaton_eq hrows hqueued hexpanded) hsubsets

end Worklist

end PatternAutomata
