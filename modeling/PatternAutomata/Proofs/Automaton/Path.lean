import Mathlib.Computability.Language
import PatternAutomata.Automaton.Run

/-!
# Paths through an automaton

A path follows edges one by one and spells the characters on them; edges with the empty word
contribute nothing. The searches of the simulator are compared with paths here: the closure finds
what paths without input reach, a run what paths that spell the word reach. Everything that is said
about languages afterwards is said about paths.
-/

namespace PatternAutomata

/-- What a symbol adds to the word of a path. -/
def Symbol.word : Symbol → List Char
  | epsilon => []
  | char c => [c]

namespace Automaton

/-- There is a path from one state to another that spells the word. -/
inductive Path (A : Automaton) : State → List Char → State → Prop
  | nil (p : State) : Path A p [] p
  | cons {p q r : State} {a : Symbol} {w : List Char} :
      q ∈ A.targets p a → Path A q w r → Path A p (a.word ++ w) r

/-- The words of the paths between two states. -/
def between (A : Automaton) (p q : State) : Language Char := {w | A.Path p w q}

/-- The words that the simulator accepts. -/
def language (A : Automaton) : Language Char := {w | A.accepts w}

variable {A B : Automaton} {p q r : State} {u v w : List Char}

@[simp] theorem mem_between : w ∈ A.between p q ↔ A.Path p w q := Iff.rfl

@[simp] theorem mem_language : w ∈ A.language ↔ A.accepts w := Iff.rfl

namespace Path

theorem epsilon (h : q ∈ A.targets p .epsilon) (hq : A.Path q w r) : A.Path p w r :=
  .cons h hq

theorem char {c : Char} (h : q ∈ A.targets p (.char c)) (hq : A.Path q w r) :
    A.Path p (c :: w) r :=
  .cons h hq

theorem append (hp : A.Path p u q) (hq : A.Path q v r) : A.Path p (u ++ v) r := by
  induction hp with
  | nil => exact hq
  | cons h _ ih =>
    rw [List.append_assoc]
    exact .cons h (ih hq)

/-- A path can be followed in another automaton if its states keep to a set in which every edge of
the one is an edge of the other. -/
theorem carry {P : State → Prop}
    (hP : ∀ p a, P p → ∀ q ∈ A.targets p a, P q ∧ q ∈ B.targets p a)
    (h : A.Path p w q) (hp : P p) : B.Path p w q := by
  induction h with
  | nil p => exact .nil p
  | cons he _ ih =>
    obtain ⟨hq, he⟩ := hP _ _ hp _ he
    exact .cons he (ih hq)

theorem mono (h : ∀ p a, ∀ q ∈ A.targets p a, q ∈ B.targets p a) (hp : A.Path p w q) :
    B.Path p w q :=
  hp.carry (P := fun _ => True) (fun p a _ q hq => ⟨trivial, h p a q hq⟩) trivial

/-- A path is cut where its word is cut. -/
theorem split (h : A.Path p (u ++ v) r) : ∃ q, A.Path p u q ∧ A.Path q v r := by
  generalize hw : u ++ v = w at h
  induction h generalizing u with
  | nil p =>
    obtain ⟨rfl, rfl⟩ := List.append_eq_nil_iff.1 hw
    exact ⟨p, .nil p, .nil p⟩
  | @cons p q r a w he hq ih =>
    cases a with
    | epsilon =>
      obtain ⟨s, hu, hv⟩ := ih hw
      exact ⟨s, .epsilon he hu, hv⟩
    | char c =>
      cases u with
      | nil =>
        refine ⟨p, .nil p, ?_⟩
        rw [List.nil_append] at hw
        exact hw ▸ .cons he hq
      | cons d u =>
        obtain ⟨rfl, hrest⟩ := List.cons_eq_cons.1 hw
        obtain ⟨s, hu, hv⟩ := ih hrest
        exact ⟨s, .char he hu, hv⟩

theorem exists_char {c : Char} (h : A.Path p (c :: w) r) :
    ∃ s t, A.Path p [] s ∧ t ∈ A.targets s (.char c) ∧ A.Path t w r := by
  generalize hw : c :: w = v at h
  induction h with
  | nil => cases hw
  | @cons p q r a v he hq ih =>
    cases a with
    | epsilon =>
      obtain ⟨s, t, hs, ht, hw⟩ := ih hw
      exact ⟨s, t, .epsilon he hs, ht, hw⟩
    | char d =>
      obtain ⟨rfl, rfl⟩ := List.cons_eq_cons.1 hw
      exact ⟨p, q, .nil p, he, hq⟩

/-- Paths stay in a set that no edge leaves. -/
theorem mem_of_closed {P : State → Prop} (hP : ∀ p a, P p → ∀ q ∈ A.targets p a, P q)
    (h : A.Path p w q) (hp : P p) : P q := by
  induction h with
  | nil => exact hp
  | cons he _ ih => exact ih (hP _ _ hp _ he)

/-- The same for paths without input, when no edge with the empty word leaves the set. -/
theorem mem_of_epsilon_closed {P : State → Prop}
    (hP : ∀ p, P p → ∀ q ∈ A.targets p .epsilon, P q) (h : A.Path p [] q) (hp : P p) : P q := by
  generalize hw : [] = w at h
  induction h with
  | nil => exact hp
  | @cons p q r a w he _ ih =>
    cases a with
    | epsilon => exact ih (hP _ hp _ he) hw
    | char => cases hw

theorem eq_of_no_epsilon (hA : ∀ p q, q ∉ A.targets p .epsilon) (h : A.Path p [] q) : q = p := by
  apply h.mem_of_epsilon_closed (P := fun r => r = p)
  · intro r _ t ht
    exact absurd ht (hA r t)
  · rfl

theorem eq_of_no_exit (hp : ∀ a, ∀ q, q ∉ A.targets p a) (h : A.Path p w q) : w = [] ∧ q = p := by
  cases h with
  | nil => exact ⟨rfl, rfl⟩
  | cons he _ => exact absurd he (hp _ _)

theorem eq_of_no_entry (hq : ∀ p a, q ∉ A.targets p a) (h : A.Path p w q) : w = [] ∧ p = q := by
  induction h with
  | nil => exact ⟨rfl, rfl⟩
  | cons he _ ih =>
    obtain ⟨-, rfl⟩ := ih hq
    exact absurd he (hq _ _)

end Path

theorem subset_closureFrom {seen : StateSet} {pending : List State}
    (h : q ∈ seen ∨ q ∈ pending) : q ∈ A.closureFrom seen pending := by
  fun_induction closureFrom A seen pending with
  | case1 => simpa using h
  | case2 seen p pending hp ih =>
    apply ih
    rcases h with h | h
    · exact .inl h
    · rcases List.mem_cons.1 h with rfl | h
      · exact .inl (by simpa using hp)
      · exact .inr h
  | case3 seen p pending hp ih =>
    apply ih
    rcases h with h | h
    · exact .inl (Ordered.mem_insert.2 (.inr h))
    · rcases List.mem_cons.1 h with rfl | h
      · exact .inl (Ordered.mem_insert.2 (.inl rfl))
      · exact .inr (List.mem_append_right _ h)

/-- The invariant of the search: what a state seen leads to is seen or pending. At the end nothing
is pending, so the result is closed. -/
theorem closureFrom_closed {seen : StateSet} {pending : List State}
    (h : ∀ p ∈ seen, ∀ q ∈ A.targets p .epsilon, q ∈ seen ∨ q ∈ pending) :
    ∀ p ∈ A.closureFrom seen pending, ∀ q ∈ A.targets p .epsilon,
      q ∈ A.closureFrom seen pending := by
  fun_induction closureFrom A seen pending with
  | case1 => simpa using h
  | case2 seen s pending hs ih =>
    apply ih
    intro p hp q hq
    rcases h p hp q hq with h | h
    · exact .inl h
    · rcases List.mem_cons.1 h with rfl | h
      · exact .inl (by simpa using hs)
      · exact .inr h
  | case3 seen s pending hs ih =>
    apply ih
    intro p hp q hq
    rcases Ordered.mem_insert.1 hp with rfl | hp
    · exact .inr (List.mem_append_left _ (Transitions.mem_targetList.2 hq))
    · rcases h p hp q hq with h | h
      · exact .inl (Ordered.mem_insert.2 (.inr h))
      · rcases List.mem_cons.1 h with rfl | h
        · exact .inl (Ordered.mem_insert.2 (.inl rfl))
        · exact .inr (List.mem_append_right _ h)

theorem exists_path_of_mem_closureFrom {seen : StateSet} {pending : List State}
    (h : q ∈ A.closureFrom seen pending) : q ∈ seen ∨ ∃ p ∈ pending, A.Path p [] q := by
  fun_induction closureFrom A seen pending with
  | case1 => exact .inl h
  | case2 seen s pending hs ih =>
    rcases ih h with h | ⟨p, hp, hq⟩
    · exact .inl h
    · exact .inr ⟨p, List.mem_cons_of_mem _ hp, hq⟩
  | case3 seen s pending hs ih =>
    rcases ih h with h | ⟨p, hp, hq⟩
    · rcases Ordered.mem_insert.1 h with rfl | h
      · exact .inr ⟨q, List.mem_cons_self, .nil q⟩
      · exact .inl h
    · rcases List.mem_append.1 hp with hp | hp
      · have hp : p ∈ A.targets s .epsilon := Transitions.mem_targetList.1 hp
        exact .inr ⟨s, List.mem_cons_self, .epsilon hp hq⟩
      · exact .inr ⟨p, List.mem_cons_of_mem _ hp, hq⟩

/-- The closure is what paths without input reach. -/
theorem mem_closure {seeds : List State} : q ∈ A.closure seeds ↔ ∃ p ∈ seeds, A.Path p [] q := by
  constructor
  · intro h
    rcases exists_path_of_mem_closureFrom h with h | h
    · simp at h
    · exact h
  · rintro ⟨p, hp, hq⟩
    refine hq.mem_of_epsilon_closed (closureFrom_closed ?_) (subset_closureFrom (.inr hp))
    simp

/-- A move is what paths with one character reach, whatever edges with the empty word they use. -/
theorem mem_move {s : StateSet} {c : Char} : q ∈ A.move s c ↔ ∃ p ∈ s, A.Path p [c] q := by
  simp only [move, mem_closure, Std.ExtTreeSet.mem_toList, mem_follow]
  constructor
  · rintro ⟨r, ⟨p', ⟨p, hp, hp'⟩, hr⟩, hq⟩
    exact ⟨p, hp, hp'.append (.char hr hq)⟩
  · rintro ⟨p, hp, hq⟩
    obtain ⟨p', r, hp', hr, hq⟩ := hq.exists_char
    exact ⟨r, ⟨p', ⟨p, hp, hp'⟩, hr⟩, hq⟩

@[simp] theorem move_empty {c : Char} : A.move ∅ c = ∅ := by
  apply Std.ExtTreeSet.ext_mem
  intro q
  simp [mem_move]

theorem foldl_move_empty : w.foldl A.move ∅ = ∅ := by
  induction w with
  | nil => rfl
  | cons c w ih => rw [List.foldl_cons, move_empty, ih]

theorem advance_eq_foldl {s : StateSet} : A.advance s w = w.foldl A.move s := by
  induction w generalizing s with
  | nil => rfl
  | cons c w ih =>
    rw [advance, List.foldl_cons]
    by_cases hempty : A.move s c = ∅
    · simp [hempty, foldl_move_empty]
    · simp [hempty, ih]

/-- Stopping early does not change the result. -/
theorem runUntilEmpty_eq_run : A.runUntilEmpty w = A.run w := by
  unfold runUntilEmpty run
  cases A.start with
  | none => rfl
  | some q => exact advance_eq_foldl

/-- A run is what paths from the start reach that spell the word. -/
theorem mem_run : q ∈ A.run w ↔ ∃ s, A.start = some s ∧ A.Path s w q := by
  cases hs : A.start with
  | none => simp [run, hs]
  | some s =>
    have hsome : A.start.isSome := by simp [hs]
    simp only [Option.some.injEq, exists_eq_left']
    induction w using List.reverseRecOn generalizing q with
    | nil => simp [run, hs, mem_closure]
    | append_singleton w c ih =>
      rw [run_append_singleton A w c hsome, mem_move]
      constructor
      · rintro ⟨p, hp, hq⟩
        exact (ih.1 hp).append hq
      · intro h
        obtain ⟨p, hp, hq⟩ := h.split
        exact ⟨p, ih.2 hp, hq⟩

theorem accepts_iff :
    A.accepts w ↔ ∃ s f, A.start = some s ∧ f ∈ A.finals ∧ A.Path s w f := by
  simp only [accepts, isAccepting_iff, mem_run]
  constructor
  · rintro ⟨f, ⟨s, hs, hp⟩, hf⟩
    exact ⟨s, f, hs, hf, hp⟩
  · rintro ⟨s, f, hs, hf, hp⟩
    exact ⟨f, ⟨s, hs, hp⟩, hf⟩

end Automaton

end PatternAutomata
