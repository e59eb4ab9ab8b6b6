import PatternAutomata.Proofs.Automaton.Path
import PatternAutomata.Proofs.Automaton.WellFormed

/-!
# Iterated automata

Iteration adds wires between the start and every final state, both ways, and no states. So the start
and the finals all stand for each other afterwards. A path between two of them falls apart at every
wire that it uses, and each piece is a path of the automaton before iteration between two such
states. The pieces need not lead from the start to a final state.
-/

namespace PatternAutomata.Automaton

open scoped Computability

variable {A C : Automaton} {s p q r : State} {w : List Char}

/-- The states that iteration makes stand for each other, where `s` is the start. -/
def IsHub (A : Automaton) (s q : State) : Prop := q = s ∨ q ∈ A.finals

/-- The words of the paths between any two hubs. -/
def hubWords (A : Automaton) (s : State) : Language Char :=
  {w | ∃ p q, A.IsHub s p ∧ A.IsHub s q ∧ A.Path p w q}

/-- `A` with wires both ways between a state and every final state. -/
def looped (A : Automaton) (s : State) : Automaton :=
  A.addEdges (.wires (A.finals.toList.flatMap fun q => [⟨s, q⟩, ⟨q, s⟩]))

theorem star_eq (h : A.start = some s) : A.star = .ok (A.looped s) := by
  simp only [star, startState_eq_ok_iff.2 h, bind, Except.bind]
  rfl

theorem states_looped (hA : A.WellFormed) (hs : s ∈ A.states) : (A.looped s).states = A.states := by
  have hfinals := hA.finals_mem
  apply Std.ExtTreeSet.ext_mem
  intro q
  simp only [looped, addEdges, Std.ExtTreeSet.mem_union_iff, Transitions.mem_endpoints_wires,
    List.mem_flatMap, Std.ExtTreeSet.mem_toList, List.mem_cons, List.not_mem_nil, or_false]
  grind

theorem WellFormed.looped (hA : A.WellFormed) (s : State) : (A.looped s).WellFormed :=
  hA.addEdges _

theorem WellFormed.star (hA : A.WellFormed) (h : A.star = .ok C) : C.WellFormed := by
  obtain ⟨s, -, hC⟩ := exists_ok_of_bind h
  cases hC
  exact hA.looped s

theorem mem_targets_looped {a : Symbol} :
    q ∈ (A.looped s).targets p a ↔ q ∈ A.targets p a ∨
      a = .epsilon ∧ (p = s ∧ q ∈ A.finals ∨ p ∈ A.finals ∧ q = s) := by
  simp only [looped, mem_targets_addEdges, Transitions.mem_targets_wires, List.mem_flatMap,
    Std.ExtTreeSet.mem_toList, List.mem_cons, List.not_mem_nil, or_false, Edge.mk.injEq]
  grind

theorem isHub_looped : (A.looped s).IsHub s q ↔ A.IsHub s q := Iff.rfl

theorem Path.looped (h : A.Path p w q) : (A.looped s).Path p w q :=
  h.mono fun _ _ _ he => mem_targets_looped.2 (.inl he)

theorem isHub_of_wire (h : p = s ∧ q ∈ A.finals ∨ p ∈ A.finals ∧ q = s) :
    A.IsHub s p ∧ A.IsHub s q := by
  rcases h with ⟨hp, hq⟩ | ⟨hp, hq⟩
  · exact ⟨.inl hp, .inr hq⟩
  · exact ⟨.inr hp, .inl hq⟩

/-- What comes before the first wire of a path is a path between hubs if the path starts at one. -/
theorem Path.exists_hub (h : (A.looped s).Path p w r) (hr : A.IsHub s r) :
    ∃ u v q, A.IsHub s q ∧ A.Path p u q ∧ v ∈ (A.hubWords s)∗ ∧ u ++ v = w := by
  induction h with
  | nil p => exact ⟨[], [], p, hr, .nil p, Language.nil_mem_kstar _, rfl⟩
  | @cons p p' r a w he _ ih =>
    obtain ⟨u, v, q, hq, hu, hv, rfl⟩ := ih hr
    rcases mem_targets_looped.1 he with he | ⟨rfl, hwire⟩
    · exact ⟨a.word ++ u, v, q, hq, .cons he hu, hv, List.append_assoc ..⟩
    · obtain ⟨hp, hp'⟩ := isHub_of_wire hwire
      have hmem : u ∈ A.hubWords s := ⟨p', q, hp', hq, hu⟩
      have huv : u ++ v ∈ (A.hubWords s)∗ :=
        mul_kstar_le_kstar (a := A.hubWords s) (Language.append_mem_mul hmem hv)
      exact ⟨[], u ++ v, p, hp, .nil p, huv, rfl⟩

theorem path_hubs (hfinal : ∃ f, f ∈ A.finals) (hp : A.IsHub s p) (hq : A.IsHub s q) :
    (A.looped s).Path p [] q := by
  obtain ⟨f, hf⟩ := hfinal
  have hto {f : State} (hf : f ∈ A.finals) : (A.looped s).Path s [] f :=
    .epsilon (mem_targets_looped.2 (.inr ⟨rfl, .inl ⟨rfl, hf⟩⟩)) (.nil f)
  have hfrom {f : State} (hf : f ∈ A.finals) : (A.looped s).Path f [] s :=
    .epsilon (mem_targets_looped.2 (.inr ⟨rfl, .inr ⟨hf, rfl⟩⟩)) (.nil s)
  have hps : (A.looped s).Path p [] s := by
    rcases hp with rfl | hp
    · exact .nil p
    · exact hfrom hp
  have hsq : (A.looped s).Path s [] q := by
    rcases hq with rfl | hq
    · exact .nil q
    · exact hto hq
  exact hps.append hsq

/-- Between two hubs an iterated automaton has the paths that are composed of paths between hubs. -/
theorem between_looped (hfinal : ∃ f, f ∈ A.finals) (hp : A.IsHub s p) (hq : A.IsHub s q) :
    (A.looped s).between p q = (A.hubWords s)∗ := by
  refine Language.ext fun w => ⟨fun h => ?_, fun h => ?_⟩
  · obtain ⟨u, v, r, hr, hu, hv, rfl⟩ := h.exists_hub hq
    have hmem : u ∈ A.hubWords s := ⟨p, r, hp, hr, hu⟩
    exact mul_kstar_le_kstar (a := A.hubWords s) (Language.append_mem_mul hmem hv)
  · obtain ⟨words, rfl, hwords⟩ := Language.mem_kstar.1 h
    clear h
    induction words generalizing p with
    | nil => exact path_hubs hfinal hp hq
    | cons u words ih =>
      obtain ⟨hu, hwords⟩ := List.forall_mem_cons.1 hwords
      obtain ⟨p', q', hp', hq', hpath⟩ := hu
      have htail := ih hq' hwords
      have hhead := (path_hubs hfinal hp hp').append hpath.looped
      exact hhead.append htail

/-- A second iteration adds nothing to the words between hubs. -/
theorem hubWords_looped (hfinal : ∃ f, f ∈ A.finals) :
    (A.looped s).hubWords s = (A.hubWords s)∗ := by
  refine Language.ext fun w => ⟨?_, fun h => ?_⟩
  · rintro ⟨p, q, hp, hq, h⟩
    rw [← between_looped hfinal (isHub_looped.1 hp) (isHub_looped.1 hq)]
    exact h
  · rw [← between_looped hfinal (.inl rfl) (.inl rfl)] at h
    exact ⟨s, s, .inl rfl, .inl rfl, h⟩

/-- What an iterated automaton accepts. Without final states it accepts nothing, not even the empty
word; otherwise it accepts what is composed of words between hubs, whatever edges enter the start or
leave final states. -/
theorem star_accepts_iff (hs : A.start = some s) :
    ∃ C, A.star = .ok C ∧ ∀ w, C.accepts w ↔ (∃ f, f ∈ A.finals) ∧
      ∃ words : List (List Char), w = words.flatten ∧
        ∀ u ∈ words, ∃ p q, A.IsHub s p ∧ A.IsHub s q ∧ A.Path p u q := by
  refine ⟨_, star_eq hs, fun w => ?_⟩
  rw [accepts_iff]
  constructor
  · rintro ⟨s', f, hs', hf, hpath⟩
    obtain rfl : s = s' := Option.some.inj (hs.symm.trans hs')
    have hfinal : ∃ f, f ∈ A.finals := ⟨f, hf⟩
    rw [← mem_between, between_looped hfinal (.inl rfl) (.inr hf)] at hpath
    exact ⟨hfinal, Language.mem_kstar.1 hpath⟩
  · rintro ⟨hfinal, hwords⟩
    obtain ⟨f, hf⟩ := hfinal
    refine ⟨s, f, hs, hf, ?_⟩
    rw [← mem_between, between_looped ⟨f, hf⟩ (.inl rfl) (.inr hf)]
    exact Language.mem_kstar.2 hwords

/-- Its start is one of two final states, and an edge leads there from the other. -/
def backward : Automaton :=
  (((∅ : Automaton).setStart 0).addFinals [0, 3]).addSymbol 3 0 (.char 'a')

theorem star_accepts_iff_backward :
    ∃ C, backward.star = .ok C ∧ ∀ w, C.accepts w ↔ (∃ f, f ∈ backward.finals) ∧
      ∃ words : List (List Char), w = words.flatten ∧
        ∀ u ∈ words, ∃ p q, backward.IsHub 0 p ∧ backward.IsHub 0 q ∧ backward.Path p u q :=
  star_accepts_iff rfl

end PatternAutomata.Automaton
