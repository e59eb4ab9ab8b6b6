import PatternAutomata.Grammar.Tree
import PatternAutomata.Proofs.Automaton.Alternation
import PatternAutomata.Proofs.Automaton.Iteration
import PatternAutomata.Proofs.Grammar.Language

/-!
# The automata of trees

The automaton of every tree exists. It has one final state, and it is described by two languages:
the words that lead from the start to the final state, and those that lead from the final state back
to itself. What stands before any stars moreover has a start that no edge enters, which is why a
star only adds the loops of the final state to the words that are iterated.
-/

namespace PatternAutomata

open scoped Computability

namespace Automaton

/-- `A` leads from `s` to its one final state `f` on `L`, and from there back to `f` on `T`. -/
structure Realizes (A : Automaton) (s f : State) (L T : Language Char) : Prop where
  wellFormed : A.WellFormed
  start_eq : A.start = some s
  mem_finals : ∀ {q}, q ∈ A.finals ↔ q = f
  language_eq : A.language = L
  loops_eq : A.between f f = T

variable {A B : Automaton} {s f t g : State} {L M T U : Language Char}

namespace Realizes

theorem final_mem (h : A.Realizes s f L T) : f ∈ A.finals := h.mem_finals.2 rfl

theorem isSome_start (h : A.Realizes s f L T) : A.start.isSome := by rw [h.start_eq]; rfl

theorem between_eq (h : A.Realizes s f L T) : A.between s f = L := by
  rw [← h.language_eq]
  apply Language.ext
  intro w
  simp [accepts_iff, h.start_eq, h.mem_finals]

end Realizes

theorem language_eq_between (hs : A.start = some s) (hf : ∀ {q}, q ∈ A.finals ↔ q = f) :
    A.language = A.between s f := by
  apply Language.ext
  intro w
  simp [accepts_iff, hs, hf]

theorem mem_targets_ofSymbol {p q : State} {a b : Symbol} :
    q ∈ (ofSymbol a).targets p b ↔ p = 1 ∧ q = 2 ∧ b = a := by
  rw [ofSymbol, addSymbol, mem_targets_addTransition, Ordered.mem_singleton]
  have hnone : q ∉ (((∅ : Automaton).setStart 1).addFinals [2]).targets p b :=
    Std.ExtTreeSet.not_mem_empty
  exact or_iff_right hnone

theorem noEntry_ofSymbol (a : Symbol) : (ofSymbol a).NoEntry 1 := by
  intro p b h
  obtain ⟨-, h, -⟩ := mem_targets_ofSymbol.1 h
  cases h

theorem noExit_ofSymbol (a : Symbol) : (ofSymbol a).NoExit 2 := by
  intro b q h
  obtain ⟨h, -, -⟩ := mem_targets_ofSymbol.1 h
  cases h

theorem between_self_of_noExit (h : A.NoExit f) : A.between f f = 1 := by
  refine Language.ext fun w => ⟨fun hw => (hw.eq_of_no_exit h).1, ?_⟩
  rintro rfl
  exact .nil f

theorem between_ofSymbol (a : Symbol) : (ofSymbol a).between 1 2 = {a.word} := by
  have hedge : 2 ∈ (ofSymbol a).targets 1 a := mem_targets_ofSymbol.2 ⟨rfl, rfl, rfl⟩
  refine Language.ext fun w => ⟨?_, ?_⟩
  · rintro (_ | ⟨he, hpath⟩)
    obtain ⟨-, rfl, rfl⟩ := mem_targets_ofSymbol.1 he
    obtain ⟨rfl, -⟩ := hpath.eq_of_no_exit (noExit_ofSymbol _)
    exact List.append_nil _
  · rintro rfl
    have h := Path.cons hedge (.nil 2)
    rwa [List.append_nil] at h

theorem realizes_ofSymbol (a : Symbol) : (ofSymbol a).Realizes 1 2 {a.word} 1 := by
  have hfinals {q : State} : q ∈ (ofSymbol a).finals ↔ q = 2 := by
    have h : (ofSymbol a).finals = ∅ ∪ .ofList [2] := rfl
    rw [h, Std.ExtTreeSet.mem_union_iff, Ordered.mem_ofList]
    simp
  refine ⟨.ofSymbol a, rfl, hfinals, ?_, between_self_of_noExit (noExit_ofSymbol a)⟩
  rw [language_eq_between (s := 1) rfl hfinals, between_ofSymbol]

theorem Realizes.concat (hA : A.Realizes s f L T) (hB : B.Realizes t g M U) (hs : A.NoEntry s) :
    ∃ C g', A.concat B = .ok C ∧ C.Realizes s g' (L * M) U ∧ C.NoEntry s := by
  obtain ⟨k, hbelow, hC⟩ := concat_eq hA.wellFormed hB.wellFormed hA.start_eq hB.start_eq
  have hBk := hB.wellFormed.shift k
  have hentry := start_shift (k := k) hB.start_eq
  have hg := hB.wellFormed.finals_mem g hB.final_mem
  have hgk : g + k ∈ (B.shift k).states := mem_states_shift.2 ⟨g, hg, rfl⟩
  refine ⟨_, g + k, hC, ⟨hA.wellFormed.followedBy hBk _, hA.start_eq, ?_, ?_, ?_⟩, ?_⟩
  · intro q
    have h : q ∈ (A.followedBy (B.shift k) (t + k)).finals ↔ q ∈ (B.shift k).finals := Iff.rfl
    simp [h, hB.mem_finals, eq_comm]
  · rw [language_followedBy hA.wellFormed hBk hbelow hentry, language_shift, hA.language_eq,
      hB.language_eq]
  · rw [← hB.loops_eq, ← between_shift (A := B) (k := k)]
    exact Language.ext fun w => followedBy_path_right hA.wellFormed hBk hbelow hgk
  · exact followedBy_noEntry hBk hbelow (hA.wellFormed.start_mem s hA.start_eq)
      (hBk.start_mem _ hentry) hs

theorem Realizes.fork {left right : State} (h : A.Forkable B s f) (hleft : A.start = some left)
    (hright : B.start = some right) :
    (A.fork B s left right f).Realizes s f (A.language + B.language) 1 where
  wellFormed := h.left_wf.fork h.right_wf _ _ _ _
  start_eq := rfl
  mem_finals := mem_finals_fork
  language_eq := h.language_fork hleft hright
  loops_eq := between_self_of_noExit h.noExit

/-- Around a start that no edge enters only the loops of the final state are new. -/
theorem Realizes.kstar_hubWords (hA : A.Realizes s f L T) (hs : A.NoEntry s) :
    (A.hubWords s)∗ = (L + T)∗ := by
  have hs_hub : A.IsHub s s := .inl rfl
  have hf_hub : A.IsHub s f := .inr hA.final_mem
  refine le_antisymm ?_ (kstar_mono ?_)
  · rw [← kstar_idem (L + T)]
    apply kstar_mono
    rintro w ⟨p, q, hp, hq, h⟩
    rcases hq with rfl | hq
    · obtain ⟨rfl, -⟩ := h.eq_of_no_entry hs
      exact Language.nil_mem_kstar _
    · obtain rfl := hA.mem_finals.1 hq
      refine le_kstar (a := L + T) ?_
      rcases hp with rfl | hp
      · exact .inl (hA.between_eq ▸ h)
      · obtain rfl := hA.mem_finals.1 hp
        exact .inr (hA.loops_eq ▸ h)
  · rintro w (h | h)
    · rw [← hA.between_eq] at h
      exact ⟨s, f, hs_hub, hf_hub, h⟩
    · rw [← hA.loops_eq] at h
      exact ⟨f, f, hf_hub, hf_hub, h⟩

/-- After an iteration the words between all hubs are the same. -/
theorem Realizes.star (hA : A.Realizes s f L T) :
    ∃ C, A.star = .ok C ∧ C.Realizes s f (A.hubWords s)∗ (A.hubWords s)∗ ∧
      (C.hubWords s)∗ = (A.hubWords s)∗ := by
  have hfinal : ∃ f, f ∈ A.finals := ⟨f, hA.final_mem⟩
  have hs_hub : A.IsHub s s := .inl rfl
  have hf_hub : A.IsHub s f := .inr hA.final_mem
  refine ⟨_, star_eq hA.start_eq, ⟨hA.wellFormed.looped s, hA.start_eq, hA.mem_finals, ?_, ?_⟩, ?_⟩
  · rw [language_eq_between (A := A.looped s) hA.start_eq hA.mem_finals]
    exact between_looped hfinal hs_hub hf_hub
  · exact between_looped hfinal hf_hub hf_hub
  · rw [hubWords_looped hfinal, kstar_idem]

/-- What the branches of a pattern have to be for their alternation to realize two languages. -/
structure Branches (A : Automaton) (rest : List Automaton) (L T : Language Char) : Prop where
  operands : ∀ B ∈ A :: rest, B.WellFormed ∧ B.start.isSome
  sum_eq : ((A :: rest).map language).sum = L
  single : rest = [] → ∃ s f, A.Realizes s f L T ∧ A.NoEntry s
  several : rest ≠ [] → T = 1

theorem Branches.alternation {rest : List Automaton} (h : A.Branches rest L T) :
    ∃ C s f, Automaton.alternation (A :: rest) = .ok C ∧ C.Realizes s f L T ∧ C.NoEntry s := by
  cases rest with
  | nil =>
    obtain ⟨s, f, hA, hs⟩ := h.single rfl
    exact ⟨A, s, f, rfl, hA, hs⟩
  | cons B rest =>
    obtain ⟨⟨hAwf, hstart⟩, hrest⟩ := List.forall_mem_cons.1 h.operands
    obtain ⟨⟨hBwf, hBstart⟩, hrest⟩ := List.forall_mem_cons.1 hrest
    obtain ⟨a, m, top, hA⟩ := exists_spans hAwf hstart
    obtain ⟨b, n, _, hB⟩ := exists_spans hBwf hBstart
    obtain ⟨N, c, high, hN, hspans, hlang⟩ := exists_nestedUnion hB hrest
    have hC := (alternation_eq_nestedUnion h.operands).trans
      ((nestedUnion_cons hN).trans (hA.union_eq hspans))
    have hleft := hA.shift 1
    have hright := hspans.shift (top + 2 - n)
    have hfork := hA.forkable_union hspans
    have hrealizes := Realizes.fork hfork hleft.start_eq hright.start_eq
    rw [language_shift, language_shift, hlang, ← h.several (List.cons_ne_nil B rest)] at hrealizes
    rw [← h.sum_eq]
    exact ⟨_, _, _, hC, hrealizes, hfork.noEntry hleft.start_mem hright.start_mem⟩

end Automaton

mutual

theorem Base.exists_build : ∀ b : Base, ∃ A s f,
    b.build = .ok A ∧ A.Realizes s f b.accepted b.loops ∧ A.NoEntry s
  | .plain c => ⟨_, 1, 2, rfl, Automaton.realizes_ofSymbol _, Automaton.noEntry_ofSymbol _⟩
  | .escaped c => ⟨_, 1, 2, rfl, Automaton.realizes_ofSymbol _, Automaton.noEntry_ofSymbol _⟩
  | .group r => by
    obtain ⟨A, rest, hr, h⟩ := r.exists_branches
    obtain ⟨C, s, f, hC, hrealizes, hs⟩ := h.alternation
    refine ⟨C, s, f, ?_, hrealizes, hs⟩
    simp only [Base.build, hr, bind, Except.bind, hC]

theorem Factor.exists_build : ∀ f : Factor, ∃ A s t,
    f.build = .ok A ∧ A.Realizes s t f.accepted f.loops ∧ (A.hubWords s)∗ = f.iterated
  | .once b => by
    obtain ⟨A, s, t, hA, hrealizes, hs⟩ := b.exists_build
    exact ⟨A, s, t, hA, hrealizes, hrealizes.kstar_hubWords hs⟩
  | .star f => by
    obtain ⟨A, s, t, hA, hrealizes, hiterated⟩ := f.exists_build
    obtain ⟨C, hC, hstar, hhubs⟩ := hrealizes.star
    rw [hiterated] at hstar hhubs
    refine ⟨C, s, t, ?_, hstar, hhubs⟩
    simp only [Factor.build, hA, bind, Except.bind, hC]

theorem Term.exists_build : ∀ t : Term, ∃ A s f,
    t.build = .ok A ∧ A.Realizes s f t.accepted t.loops ∧ A.NoEntry s
  | .empty => ⟨_, 1, 2, rfl, Automaton.realizes_ofSymbol _, Automaton.noEntry_ofSymbol _⟩
  | .snoc t f => by
    obtain ⟨A, s, _, hA, ht, hs⟩ := t.exists_build
    obtain ⟨B, _, _, hB, hf, -⟩ := f.exists_build
    obtain ⟨C, g, hC, hrealizes, hCs⟩ := ht.concat hf hs
    refine ⟨C, s, g, ?_, hrealizes, hCs⟩
    simp only [Term.build, hA, hB, bind, Except.bind, hC]

theorem Regex.exists_branches : ∀ r : Regex, ∃ A rest,
    r.branches = .ok (A :: rest) ∧ A.Branches rest r.accepted r.loops
  | .single t => by
    obtain ⟨A, s, f, hA, ht, hs⟩ := t.exists_build
    refine ⟨A, [], ?_, ?_, ?_, fun _ => ⟨s, f, ht, hs⟩, fun h => absurd rfl h⟩
    · simp only [Regex.branches, hA, bind, Except.bind, pure, Except.pure]
    · simpa using ⟨ht.wellFormed, ht.isSome_start⟩
    · exact (add_zero A.language).trans ht.language_eq
  | .alt t r => by
    obtain ⟨A, s, f, hA, ht, hs⟩ := t.exists_build
    obtain ⟨B, rest, hr, h⟩ := r.exists_branches
    refine ⟨A, B :: rest, ?_, ?_, ?_, fun h => absurd h (List.cons_ne_nil _ _), fun _ => rfl⟩
    · simp only [Regex.branches, hA, hr, bind, Except.bind, pure, Except.pure]
    · exact List.forall_mem_cons.2 ⟨⟨ht.wellFormed, ht.isSome_start⟩, h.operands⟩
    · exact congrArg₂ (· + ·) ht.language_eq h.sum_eq

end

/-- Every tree has an automaton. -/
theorem Regex.exists_build (r : Regex) : ∃ A s f,
    r.build = .ok A ∧ A.Realizes s f r.accepted r.loops ∧ A.NoEntry s := by
  obtain ⟨A, rest, hr, h⟩ := r.exists_branches
  obtain ⟨C, s, f, hC, hrealizes, hs⟩ := h.alternation
  refine ⟨C, s, f, ?_, hrealizes, hs⟩
  simp only [Regex.build, hr, bind, Except.bind, hC]

end PatternAutomata
