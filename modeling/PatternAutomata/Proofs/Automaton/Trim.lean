import PatternAutomata.Proofs.Automaton.Alternation
import PatternAutomata.Proofs.Automaton.Iteration

/-!
# Trim automata

A state is accessible if a path from the start leads to it, and coaccessible if a path leads from it
to a final state. An automaton all of whose states are both is trim. The operations keep automata
trim: an operand is entered at its start and left from its finals, so whatever was on a path from
start to final before is on one afterwards. A run of a trim automaton dies out exactly when no
continuation of the word is accepted any more.
-/

namespace PatternAutomata.Automaton

variable {A B C : Automaton} {p q s start left right final entry exit : State} {k : Nat}
  {w : List Char}

/-- Some path leads from the start to the state. -/
def Accessible (A : Automaton) (q : State) : Prop := ∃ s u, A.start = some s ∧ A.Path s u q

/-- Some path leads from the state to a final state. -/
def Coaccessible (A : Automaton) (q : State) : Prop := ∃ f v, f ∈ A.finals ∧ A.Path q v f

/-- Every state lies on a path from the start to a final state. -/
structure Trim (A : Automaton) : Prop where
  wellFormed : A.WellFormed
  start_isSome : A.start.isSome
  accessible : ∀ q ∈ A.states, A.Accessible q
  coaccessible : ∀ q ∈ A.states, A.Coaccessible q

theorem accessible_start (h : A.start = some s) : A.Accessible s := ⟨s, [], h, .nil s⟩

theorem coaccessible_final (h : q ∈ A.finals) : A.Coaccessible q := ⟨q, [], h, .nil q⟩

theorem Accessible.path (hp : A.Accessible p) (h : A.Path p w q) : A.Accessible q := by
  obtain ⟨s, u, hs, hu⟩ := hp
  exact ⟨s, u ++ w, hs, hu.append h⟩

theorem Accessible.target {a : Symbol} (hp : A.Accessible p) (h : q ∈ A.targets p a) :
    A.Accessible q :=
  hp.path (.cons h (.nil q))

theorem Coaccessible.path (hq : A.Coaccessible q) (h : A.Path p w q) : A.Coaccessible p := by
  obtain ⟨f, v, hf, hv⟩ := hq
  exact ⟨f, w ++ v, hf, h.append hv⟩

namespace Trim

theorem exists_path (h : A.Trim) (hq : q ∈ A.states) :
    ∃ s f u v, A.start = some s ∧ f ∈ A.finals ∧ A.Path s u q ∧ A.Path q v f := by
  obtain ⟨s, u, hs, hu⟩ := h.accessible q hq
  obtain ⟨f, v, hf, hv⟩ := h.coaccessible q hq
  exact ⟨s, f, u, v, hs, hf, hu, hv⟩

/-- As long as a trim automaton has a state left, the word can be continued to an accepted one. -/
theorem run_ne_empty_iff (h : A.Trim) (w : List Char) :
    A.run w ≠ ∅ ↔ ∃ v, A.accepts (w ++ v) := by
  have hrun : A.run w ≠ ∅ ↔ ∃ q, q ∈ A.run w := by
    rw [ne_eq, Std.ExtTreeSet.eq_empty_iff_forall_not_mem]
    exact not_forall_not
  rw [hrun]
  constructor
  · rintro ⟨q, hq⟩
    obtain ⟨s, hs, hpath⟩ := mem_run.1 hq
    have hmem : q ∈ A.states :=
      hpath.mem_of_closed (fun _ _ _ _ he => h.wellFormed.target_mem he)
        (h.wellFormed.start_mem s hs)
    obtain ⟨f, v, hf, hv⟩ := h.coaccessible q hmem
    exact ⟨v, accepts_iff.2 ⟨s, f, hs, hf, hpath.append hv⟩⟩
  · rintro ⟨v, hv⟩
    obtain ⟨s, f, hs, -, hpath⟩ := accepts_iff.1 hv
    obtain ⟨q, hq, -⟩ := hpath.split
    exact ⟨q, mem_run.2 ⟨s, hs, hq⟩⟩

theorem shift (h : A.Trim) (k : Nat) : (A.shift k).Trim where
  wellFormed := h.wellFormed.shift k
  start_isSome := by simpa [Automaton.shift] using h.start_isSome
  accessible r hr := by
    obtain ⟨q, hq, rfl⟩ := mem_states_shift.1 hr
    obtain ⟨s, u, hs, hu⟩ := h.accessible q hq
    exact ⟨s + k, u, start_shift hs, hu.shift k⟩
  coaccessible r hr := by
    obtain ⟨q, hq, rfl⟩ := mem_states_shift.1 hr
    obtain ⟨f, v, hf, hv⟩ := h.coaccessible q hq
    exact ⟨f + k, v, mem_finals_shift.2 ⟨f, hf, rfl⟩, hv.shift k⟩

theorem looped (h : A.Trim) (hs : A.start = some s) : (A.looped s).Trim := by
  have hstates := states_looped h.wellFormed (h.wellFormed.start_mem s hs)
  refine ⟨h.wellFormed.looped s, h.start_isSome, fun q hq => ?_, fun q hq => ?_⟩
  · rw [hstates] at hq
    obtain ⟨s', u, hs', hu⟩ := h.accessible q hq
    exact ⟨s', u, hs', hu.looped⟩
  · rw [hstates] at hq
    obtain ⟨f, v, hf, hv⟩ := h.coaccessible q hq
    exact ⟨f, v, hf, hv.looped⟩

theorem star (h : A.Trim) (hC : A.star = .ok C) : C.Trim := by
  obtain ⟨s, hs⟩ := Option.isSome_iff_exists.1 h.start_isSome
  rw [star_eq hs] at hC
  cases hC
  exact h.looped hs

end Trim

namespace PartOf

theorem accessible (h : A.PartOf C exit) (hs : A.start = some s) (hC : C.Accessible s)
    (hq : A.Accessible q) : C.Accessible q := by
  obtain ⟨s', u, hs', hu⟩ := hq
  rw [hs] at hs'
  cases hs'
  exact hC.path (h.path hu)

/-- What leads to a final of the part leads on to the exit. -/
theorem coaccessible (h : A.PartOf C exit) (hC : C.Coaccessible exit) (hq : A.Coaccessible q) :
    C.Coaccessible q := by
  obtain ⟨f, v, hf, hv⟩ := hq
  exact (hC.path (.epsilon (h.wired f hf) (.nil exit))).path (h.path hv)

/-- A trim part that can be entered can be left. -/
theorem accessible_exit (h : A.PartOf C exit) (hA : A.Trim) (hs : A.start = some s)
    (hC : C.Accessible s) : C.Accessible exit := by
  obtain ⟨f, v, hf, hv⟩ := hA.coaccessible s (hA.wellFormed.start_mem s hs)
  exact (hC.path (h.path hv)).path (.epsilon (h.wired f hf) (.nil exit))

end PartOf

namespace Trim

theorem followedBy (hA : A.Trim) (hB : B.Trim) (hAB : A.Below B) (hentry : B.start = some entry) :
    (A.followedBy B entry).Trim := by
  have hpart : A.PartOf (A.followedBy B entry) entry := partOf_followedBy hB.wellFormed hAB
  have hmem := hB.wellFormed.start_mem entry hentry
  have hkeeps {p q : State} {w : List Char} (h : B.Path p w q) :
      (A.followedBy B entry).Path p w q :=
    h.mono fun _ _ _ he => mem_targets_followedBy.2 (.inr (.inl he))
  obtain ⟨s, hs⟩ := Option.isSome_iff_exists.1 hA.start_isSome
  have hstart : (A.followedBy B entry).Accessible s := accessible_start hs
  have hright : ∀ q ∈ B.states, (A.followedBy B entry).Coaccessible q := by
    intro q hq
    obtain ⟨f, v, hf, hv⟩ := hB.coaccessible q hq
    exact ⟨f, v, hf, hkeeps hv⟩
  refine ⟨hA.wellFormed.followedBy hB.wellFormed entry, hA.start_isSome, fun q hq => ?_,
    fun q hq => ?_⟩
  · rcases (mem_states_followedBy hA.wellFormed hmem).1 hq with hq | hq
    · exact hpart.accessible hs hstart (hA.accessible q hq)
    · obtain ⟨t, u, ht, hu⟩ := hB.accessible q hq
      rw [hentry] at ht
      cases ht
      exact (hpart.accessible_exit hA hs hstart).path (hkeeps hu)
  · rcases (mem_states_followedBy hA.wellFormed hmem).1 hq with hq | hq
    · exact hpart.coaccessible (hright entry hmem) (hA.coaccessible q hq)
    · exact hright q hq

theorem concat (hA : A.Trim) (hB : B.Trim) (hC : A.concat B = .ok C) : C.Trim := by
  obtain ⟨a, ha⟩ := Option.isSome_iff_exists.1 hA.start_isSome
  obtain ⟨b, hb⟩ := Option.isSome_iff_exists.1 hB.start_isSome
  obtain ⟨k, hbelow, heq⟩ := concat_eq hA.wellFormed hB.wellFormed ha hb
  rw [heq] at hC
  cases hC
  exact hA.followedBy (hB.shift k) hbelow (start_shift hb)

theorem fork (hA : A.Trim) (hB : B.Trim) (h : A.Forkable B start final)
    (hleft : A.start = some left) (hright : B.start = some right) :
    (A.fork B start left right final).Trim := by
  have hfinal : (A.fork B start left right final).Coaccessible final :=
    coaccessible_final (mem_finals_fork.2 rfl)
  have hstart : (A.fork B start left right final).Accessible start := accessible_start rfl
  have hl : (A.fork B start left right final).Path start [] left :=
    .epsilon (mem_targets_fork.2 (.inr (.inr ⟨rfl, .inl ⟨rfl, .inl rfl⟩⟩))) (.nil left)
  have hr : (A.fork B start left right final).Path start [] right :=
    .epsilon (mem_targets_fork.2 (.inr (.inr ⟨rfl, .inl ⟨rfl, .inr rfl⟩⟩))) (.nil right)
  have hleft_mem := hA.wellFormed.start_mem left hleft
  have hright_mem := hB.wellFormed.start_mem right hright
  have hco : ∀ q ∈ A.states, (A.fork B start left right final).Coaccessible q := by
    intro q hq
    exact h.partOf_left.coaccessible hfinal (hA.coaccessible q hq)
  refine ⟨hA.wellFormed.fork hB.wellFormed _ _ _ _, rfl, fun q hq => ?_, fun q hq => ?_⟩
  · rcases (mem_states_fork hA.wellFormed hB.wellFormed hleft_mem hright_mem).1 hq with
      hq | hq | rfl | rfl
    · exact h.partOf_left.accessible hleft (hstart.path hl) (hA.accessible q hq)
    · exact h.partOf_right.accessible hright (hstart.path hr) (hB.accessible q hq)
    · exact hstart
    · exact h.partOf_left.accessible_exit hA hleft (hstart.path hl)
  · rcases (mem_states_fork hA.wellFormed hB.wellFormed hleft_mem hright_mem).1 hq with
      hq | hq | rfl | rfl
    · exact hco q hq
    · exact h.partOf_right.coaccessible hfinal (hB.coaccessible q hq)
    · exact (hco left hleft_mem).path hl
    · exact hfinal

theorem union (hA : A.Trim) (hB : B.Trim) (hC : A.union B = .ok C) : C.Trim := by
  obtain ⟨a, m, top, hAspans⟩ := exists_spans hA.wellFormed hA.start_isSome
  obtain ⟨b, n, high, hBspans⟩ := exists_spans hB.wellFormed hB.start_isSome
  rw [hAspans.union_eq hBspans] at hC
  cases hC
  exact (hA.shift 1).fork (hB.shift _) (hAspans.forkable_union hBspans)
    (hAspans.shift 1).start_eq (hBspans.shift _).start_eq

theorem nestedUnion {rest : List Automaton} (h : ∀ X ∈ A :: rest, X.Trim)
    (hC : Automaton.nestedUnion A rest = .ok C) : C.Trim := by
  induction rest generalizing A C with
  | nil =>
    cases hC
    exact h A List.mem_cons_self
  | cons B rest ih =>
    obtain ⟨hA, hrest⟩ := List.forall_mem_cons.1 h
    obtain ⟨N, hN, hC⟩ := exists_ok_of_bind hC
    exact hA.union (ih hrest hN) hC

theorem alternation {l : List Automaton} (h : ∀ X ∈ l, X.Trim)
    (hC : Automaton.alternation l = .ok C) : C.Trim := by
  cases l with
  | nil => cases hC
  | cons A rest =>
    rw [alternation_eq_nestedUnion fun X hX => ⟨(h X hX).wellFormed, (h X hX).start_isSome⟩] at hC
    exact nestedUnion h hC

end Trim

end PatternAutomata.Automaton
