import PatternAutomata.Proofs.Automaton.Path
import PatternAutomata.Proofs.Automaton.WellFormed

/-!
# Automata joined to larger ones

Concatenation and union place their operands on separate ranges of states and join them by wires.
Inside the joined automaton an operand can only be left from its finals, without input, to one fixed
state. A path from an operand is therefore a path of the operand, which may be followed by one step
to that state and a path from there. The languages of the joined automata come from this.
-/

namespace PatternAutomata.Automaton

variable {A B C : Automaton} {p q r : State} {u v w : List Char}

theorem Path.shift (h : A.Path p w q) (k : Nat) : (A.shift k).Path (p + k) w (q + k) := by
  induction h with
  | nil p => exact .nil _
  | cons he _ ih => exact .cons (mem_targets_shift.2 ⟨_, _, rfl, rfl, he⟩) ih

theorem Path.of_shift {k : Nat} (h : (A.shift k).Path (p + k) w r) :
    ∃ q, q + k = r ∧ A.Path p w q := by
  generalize hs : p + k = s at h
  induction h generalizing p with
  | nil s => exact ⟨p, hs, .nil p⟩
  | cons he _ ih =>
    obtain ⟨p', q', hp, hq, he⟩ := mem_targets_shift.1 he
    obtain rfl : p' = p := Nat.add_right_cancel (hp.trans hs.symm)
    obtain ⟨q, hr, hpath⟩ := ih hq
    exact ⟨q, hr, .cons he hpath⟩

@[simp] theorem between_shift {k : Nat} :
    (A.shift k).between (p + k) (q + k) = A.between p q := by
  refine Language.ext fun w => ⟨fun h => ?_, fun h => h.shift k⟩
  obtain ⟨q', hq, hpath⟩ := h.of_shift
  obtain rfl : q' = q := Nat.add_right_cancel hq
  exact hpath

@[simp] theorem mem_states_shift {k : Nat} : q ∈ (A.shift k).states ↔ ∃ p ∈ A.states, p + k = q :=
  StateSet.mem_shift

@[simp] theorem mem_finals_shift {k : Nat} : q ∈ (A.shift k).finals ↔ ∃ p ∈ A.finals, p + k = q :=
  StateSet.mem_shift

theorem start_shift {k : Nat} (h : A.start = some q) : (A.shift k).start = some (q + k) := by
  rw [Automaton.shift, h, Option.map_some]

theorem language_shift {k : Nat} : (A.shift k).language = A.language := by
  apply Language.ext
  intro w
  simp only [mem_language, accepts_iff]
  constructor
  · rintro ⟨t, g, ht, hg, h⟩
    obtain ⟨s, hs, rfl⟩ := Option.map_eq_some_iff.1 ht
    obtain ⟨f, hf, rfl⟩ := mem_finals_shift.1 hg
    refine ⟨s, f, hs, hf, ?_⟩
    rwa [← mem_between, between_shift] at h
  · rintro ⟨s, f, hs, hf, h⟩
    exact ⟨s + k, f + k, start_shift hs, mem_finals_shift.2 ⟨f, hf, rfl⟩, h.shift k⟩

def Below (A B : Automaton) : Prop := ∀ p ∈ A.states, ∀ q ∈ B.states, p < q

theorem Below.notMem (h : A.Below B) (hp : p ∈ A.states) : p ∉ B.states :=
  fun hq => Nat.lt_irrefl p (h p hp p hq)

theorem checkBelow_eq_ok (h : A.Below B) (hp : p ∈ A.states) (hq : q ∈ B.states) :
    A.checkBelow B = .ok () := by
  obtain ⟨top, htop⟩ := exists_maxState hp
  obtain ⟨bottom, hbottom⟩ := exists_minState hq
  have hlt := h top (maxState_eq_ok_iff.1 htop).1 bottom (minState_eq_ok_iff.1 hbottom).1
  simp only [checkBelow, htop, hbottom, bind, Except.bind, if_neg (Nat.not_le.2 hlt)]
  rfl

theorem below_shift {top bottom : State} (htop : A.maxState = .ok top)
    (hbottom : B.minState = .ok bottom) : A.Below (B.shift (top + 1 - bottom)) := by
  intro p hp r hr
  obtain ⟨q, hq, rfl⟩ := mem_states_shift.1 hr
  have hptop := (maxState_eq_ok_iff.1 htop).2 p hp
  have hbottomq := (minState_eq_ok_iff.1 hbottom).2 q hq
  unfold State at *
  omega

/-- No edge enters the state. -/
def NoEntry (A : Automaton) (q : State) : Prop := ∀ p a, q ∉ A.targets p a

/-- No edge leaves the state. -/
def NoExit (A : Automaton) (p : State) : Prop := ∀ a q, q ∉ A.targets p a

/-- `A` is a part of `C` that can only be left from its finals, without input, to one state. -/
structure PartOf (A C : Automaton) (exit : State) : Prop where
  keeps : ∀ p a, ∀ q ∈ A.targets p a, q ∈ C.targets p a
  leaves : ∀ p ∈ A.states, ∀ a, ∀ q ∈ C.targets p a,
    q ∈ A.targets p a ∨ a = .epsilon ∧ p ∈ A.finals ∧ q = exit
  wired : ∀ p ∈ A.finals, exit ∈ C.targets p .epsilon

namespace PartOf

variable {exit : State}

theorem path (hA : A.PartOf C exit) (h : A.Path p w q) : C.Path p w q := h.mono hA.keeps

/-- A path from a part stays in it or leaves it once. What follows is a path from the exit. -/
theorem path_cases (hA : A.PartOf C exit) (hwf : A.WellFormed) (hp : p ∈ A.states)
    (h : C.Path p w r) :
    A.Path p w r ∨ ∃ u v, ∃ f ∈ A.finals, A.Path p u f ∧ C.Path exit v r ∧ u ++ v = w := by
  induction h with
  | nil p => exact .inl (.nil p)
  | @cons p q r a w he hq ih =>
    rcases hA.leaves p hp a q he with he | ⟨rfl, hf, rfl⟩
    · rcases ih (hwf.target_mem he) with h | ⟨u, v, f, hf, hu, hv, rfl⟩
      · exact .inl (.cons he h)
      · exact .inr ⟨a.word ++ u, v, f, hf, .cons he hu, hv, List.append_assoc ..⟩
    · exact .inr ⟨[], w, p, hf, .nil p, hq, rfl⟩

/-- A path that ends outside the part has left it. -/
theorem path_iff (hA : A.PartOf C exit) (hwf : A.WellFormed) (hp : p ∈ A.states)
    (hr : r ∉ A.states) :
    C.Path p w r ↔ ∃ u v, ∃ f ∈ A.finals, A.Path p u f ∧ C.Path exit v r ∧ u ++ v = w := by
  constructor
  · intro h
    rcases hA.path_cases hwf hp h with h | h
    · have hmem := h.mem_of_closed (fun p a _ q hq => hwf.target_mem hq) hp
      exact absurd hmem hr
    · exact h
  · rintro ⟨u, v, f, hf, hu, hv, rfl⟩
    exact (hA.path hu).append (.epsilon (hA.wired f hf) hv)

end PartOf

/-- Inside a part that no edge leaves there are only its own paths. -/
theorem path_iff_of_closed (hwf : A.WellFormed)
    (hkeeps : ∀ p a, ∀ q ∈ A.targets p a, q ∈ C.targets p a)
    (hclosed : ∀ p ∈ A.states, ∀ a, ∀ q ∈ C.targets p a, q ∈ A.targets p a)
    (hp : p ∈ A.states) : C.Path p w r ↔ A.Path p w r := by
  constructor
  · intro h
    apply h.carry (P := (· ∈ A.states)) _ hp
    intro p a hp q hq
    have hq := hclosed p hp a q hq
    exact ⟨hwf.target_mem hq, hq⟩
  · intro h
    exact h.mono hkeeps

theorem mem_targets_followedBy {entry : State} {a : Symbol} :
    q ∈ (A.followedBy B entry).targets p a ↔
      q ∈ A.targets p a ∨ q ∈ B.targets p a ∨ a = .epsilon ∧ p ∈ A.finals ∧ q = entry := by
  have h : q ∈ (A.followedBy B entry).targets p a ↔ q ∈ (A.absorb (B.addEdges
    (.wires (A.finals.toList.map (Edge.mk · entry))))).targets p a := Iff.rfl
  simp only [h, mem_targets_absorb, mem_targets_addEdges, Transitions.mem_targets_wires,
    List.mem_map, Std.ExtTreeSet.mem_toList, Edge.mk.injEq]
  grind

/-- The ends of the wires are states of the operands. -/
theorem mem_states_followedBy {entry : State} (hA : A.WellFormed) (hentry : entry ∈ B.states) :
    q ∈ (A.followedBy B entry).states ↔ q ∈ A.states ∨ q ∈ B.states := by
  have hfinals := hA.finals_mem
  simp only [followedBy, absorb, addEdges, Std.ExtTreeSet.mem_union_iff,
    Transitions.mem_endpoints_wires, List.mem_map, Std.ExtTreeSet.mem_toList]
  grind

theorem WellFormed.followedBy (hA : A.WellFormed) (hB : B.WellFormed) (entry : State) :
    (A.followedBy B entry).WellFormed := by
  have h := hA.absorb (hB.addEdges (.wires (A.finals.toList.map (Edge.mk · entry))))
  refine ⟨h.start_mem, fun q hq => ?_, h.ends_mem, h.chars_mem⟩
  exact Std.ExtTreeSet.mem_union_iff.2 (.inr ((hB.addEdges _).finals_mem q hq))

/-- Concatenation brings the second operand just above the first and puts it after the first. -/
theorem concat_eq_followedBy {a b top bottom : State} (hA : A.WellFormed) (hB : B.WellFormed)
    (ha : A.start = some a) (hb : B.start = some b) (htop : A.maxState = .ok top)
    (hbottom : B.minState = .ok bottom) : A.concat B =
      .ok (A.followedBy (B.shift (top + 1 - bottom)) (b + (top + 1 - bottom))) := by
  have hentry : b + (top + 1 - bottom) ∈ (B.shift (top + 1 - bottom)).states :=
    mem_states_shift.2 ⟨b, hB.start_mem b hb, rfl⟩
  have hcheck := checkBelow_eq_ok (below_shift htop hbottom) (hA.start_mem a ha) hentry
  have hstart := startState_eq_ok_iff.2 (start_shift (k := top + 1 - bottom) hb)
  simp only [concat, shiftAbove, startState_eq_ok_iff.2 ha, htop, hbottom, hcheck, hstart, bind,
    Except.bind, pure, Except.pure]

theorem concat_eq {a b : State} (hA : A.WellFormed) (hB : B.WellFormed) (ha : A.start = some a)
    (hb : B.start = some b) :
    ∃ k, A.Below (B.shift k) ∧ A.concat B = .ok (A.followedBy (B.shift k) (b + k)) := by
  obtain ⟨top, htop⟩ := exists_maxState (hA.start_mem a ha)
  obtain ⟨bottom, hbottom⟩ := exists_minState (hB.start_mem b hb)
  exact ⟨_, below_shift htop hbottom, concat_eq_followedBy hA hB ha hb htop hbottom⟩

theorem exists_followedBy_of_concat (h : A.concat B = .ok C) :
    ∃ k entry, C = A.followedBy (B.shift k) entry := by
  obtain ⟨_, -, h⟩ := exists_ok_of_bind h
  obtain ⟨_, -, h⟩ := exists_ok_of_bind h
  obtain ⟨k, -, h⟩ := exists_ok_of_bind h
  obtain ⟨_, -, h⟩ := exists_ok_of_bind h
  obtain ⟨entry, -, h⟩ := exists_ok_of_bind h
  exact ⟨k, entry, (Except.ok.inj h).symm⟩

theorem WellFormed.concat (hA : A.WellFormed) (hB : B.WellFormed) (h : A.concat B = .ok C) :
    C.WellFormed := by
  obtain ⟨k, entry, rfl⟩ := exists_followedBy_of_concat h
  exact hA.followedBy (hB.shift k) entry

section followedBy

variable {entry : State} (hA : A.WellFormed) (hB : B.WellFormed) (hAB : A.Below B)

include hA hAB in
theorem followedBy_right_closed (hp : p ∈ B.states) {a : Symbol}
    (h : q ∈ (A.followedBy B entry).targets p a) : q ∈ B.targets p a := by
  rcases mem_targets_followedBy.1 h with h | h | ⟨-, h, -⟩
  · exact absurd hp (hAB.notMem (hA.source_mem h))
  · exact h
  · exact absurd hp (hAB.notMem (hA.finals_mem p h))

include hA hB hAB in
theorem followedBy_path_right (hp : p ∈ B.states) :
    (A.followedBy B entry).Path p w r ↔ B.Path p w r :=
  path_iff_of_closed hB (fun _ _ _ h => mem_targets_followedBy.2 (.inr (.inl h)))
    (fun _ hp _ _ h => followedBy_right_closed hA hAB hp h) hp

include hB hAB in
theorem partOf_followedBy : A.PartOf (A.followedBy B entry) entry where
  keeps _ _ _ h := mem_targets_followedBy.2 (.inl h)
  leaves p hp a q h := by
    rcases mem_targets_followedBy.1 h with h | h | h
    · exact .inl h
    · exact absurd (hB.source_mem h) (hAB.notMem hp)
    · exact .inr h
  wired p hp := mem_targets_followedBy.2 (.inr (.inr ⟨rfl, hp, rfl⟩))

include hA hB hAB in
/-- A path from the first automaton to the second crosses once. -/
theorem followedBy_path (hentry : entry ∈ B.states) (hp : p ∈ A.states) (hr : r ∈ B.states) :
    (A.followedBy B entry).Path p w r ↔
      ∃ u v, ∃ f ∈ A.finals, A.Path p u f ∧ B.Path entry v r ∧ u ++ v = w := by
  have hr : r ∉ A.states := fun h => hAB.notMem h hr
  rw [(partOf_followedBy hB hAB).path_iff hA hp hr]
  simp only [followedBy_path_right hA hB hAB hentry]

include hB hAB in
theorem followedBy_noEntry {s : State} (hs : s ∈ A.states) (hentry : entry ∈ B.states)
    (h : A.NoEntry s) : (A.followedBy B entry).NoEntry s := by
  intro p a hp
  rcases mem_targets_followedBy.1 hp with hp | hp | ⟨-, -, rfl⟩
  · exact h p a hp
  · exact hAB.notMem hs (hB.target_mem hp)
  · exact hAB.notMem hs hentry

include hA hB hAB in
theorem language_followedBy (hentry : B.start = some entry) :
    (A.followedBy B entry).language = A.language * B.language := by
  have hmem := hB.start_mem entry hentry
  apply Language.ext
  intro w
  simp only [Language.mem_mul, mem_language, accepts_iff]
  constructor
  · rintro ⟨s, f, hs, hf, h⟩
    rw [followedBy_path hA hB hAB hmem (hA.start_mem s hs) (hB.finals_mem f hf)] at h
    obtain ⟨u, v, g, hg, hu, hv, rfl⟩ := h
    exact ⟨u, ⟨s, g, hs, hg, hu⟩, v, ⟨entry, f, hentry, hf, hv⟩, rfl⟩
  · rintro ⟨u, ⟨s, g, hs, hg, hu⟩, v, ⟨t, f, ht, hf, hv⟩, rfl⟩
    obtain rfl : entry = t := Option.some.inj (hentry.symm.trans ht)
    refine ⟨s, f, hs, hf, ?_⟩
    rw [followedBy_path hA hB hAB hmem (hA.start_mem s hs) (hB.finals_mem f hf)]
    exact ⟨u, v, g, hg, hu, hv, rfl⟩

end followedBy

/-- Automata with start states have a concatenation, whatever the numbers of their states are. -/
theorem exists_concat (hA : A.WellFormed) (hB : B.WellFormed) (hleft : A.start.isSome)
    (hright : B.start.isSome) :
    ∃ C, A.concat B = .ok C ∧ C.language = A.language * B.language := by
  obtain ⟨a, ha⟩ := Option.isSome_iff_exists.1 hleft
  obtain ⟨b, hb⟩ := Option.isSome_iff_exists.1 hright
  obtain ⟨k, hbelow, hC⟩ := concat_eq hA hB ha hb
  refine ⟨_, hC, ?_⟩
  rw [language_followedBy hA (hB.shift k) hbelow (start_shift hb), language_shift]

end PatternAutomata.Automaton
