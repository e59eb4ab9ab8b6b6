import PatternAutomata.Automaton.Closure
import PatternAutomata.Proofs.Automaton.Path

/-!
# The closure is reachability

A search with a stack ends because a state that is reached for the first time leaves fewer edges out
of states not reached, and these make room for what goes on the stack. It reaches nothing but what
paths without input lead to, and it cannot stop before it has reached all of that: whatever a
reached state leads to is reached too or still on the stack. So the order and the number of the
given states make no difference, and the laws of closures follow from those of reachability.
-/

namespace PatternAutomata

namespace Search

variable {A : Automaton} {S T : Search} {seeds : List State} {p q t : State}
  {stack : List State} {n : Nat}

/-- What a turn can do. -/
theorem turn?_eq_some (h : S.turn? A = some T) : ∃ q stack, S.stack = q :: stack ∧
    (q ∈ S.reached ∧ T = { S with stack } ∨
      q ∉ S.reached ∧ T = visit { S with stack } A q) := by
  unfold turn? at h
  split at h
  · cases h
  · next q stack hstack =>
    rw [Option.some.injEq] at h
    refine ⟨q, stack, hstack, ?_⟩
    by_cases hq : q ∈ S.reached
    · exact .inl ⟨hq, by simp [← h, hq]⟩
    · exact .inr ⟨hq, by simp [← h, hq]⟩

theorem turn?_eq_none : S.turn? A = none ↔ S.stack = [] := by
  unfold turn?
  split <;> simp_all

/-- The search has met the state, whether or not it has looked at it. -/
def Knows (S : Search) (q : State) : Prop := q ∈ S.reached ∨ q ∈ S.stack

theorem mem_reached_visit : t ∈ (S.visit A q).reached ↔ t = q ∨ t ∈ S.reached :=
  Ordered.mem_insert

theorem mem_stack_visit : t ∈ (S.visit A q).stack ↔
    t ∈ A.targets q .epsilon ∧ t ∉ (S.visit A q).reached ∨ t ∈ S.stack := by
  simp [visit, Automaton.targets, ← Bool.not_eq_true]

theorem knows_skip (hstack : S.stack = q :: stack) (hq : q ∈ S.reached) :
    Knows { S with stack } t ↔ S.Knows t := by
  unfold Knows
  rw [hstack, List.mem_cons]
  grind

theorem knows_visit (hstack : S.stack = q :: stack) :
    (visit { S with stack } A q).Knows t ↔ S.Knows t ∨ t ∈ A.targets q .epsilon := by
  unfold Knows
  rw [mem_stack_visit, mem_reached_visit, hstack, List.mem_cons]
  grind

def size (S : Search) (A : Automaton) : Nat := A.edgesOutside S.reached + S.stack.length

theorem size_initial : (initial seeds).size A = A.edges.size + seeds.length := by
  simp [size, initial, Automaton.edgesOutside, Transitions.size]

/-- One turn. -/
theorem size_lt_of_turn (h : S.turn? A = some T) : T.size A < S.size A := by
  obtain ⟨q, stack, hstack, ⟨-, rfl⟩ | ⟨hq, rfl⟩⟩ := turn?_eq_some h
  · simp [size, hstack]
  · have houtside := Automaton.edgesOutside_insert (A := A) hq
    have htargets := A.edges.length_targetList_le q .epsilon
    have hfresh := List.length_filter_le
      (fun t => !(S.reached.insert q).contains t) (A.edges.targetList q .epsilon)
    simp only [size, visit, hstack, List.length_append, List.length_reverse, List.length_cons]
    omega

theorem exists_ends (A : Automaton) (S : Search) : ∃ n T, S.Ends A n T ∧ n ≤ S.size A := by
  induction hsize : S.size A using Nat.strongRecOn generalizing S with
  | ind m ih =>
    cases hturn : S.turn? A with
    | none => exact ⟨0, S, .done hturn, Nat.zero_le m⟩
    | some T =>
      have hlt := size_lt_of_turn hturn
      rw [hsize] at hlt
      obtain ⟨n, U, hends, hn⟩ := ih _ hlt T rfl
      exact ⟨n + 1, U, .turn hturn hends, by omega⟩

/-- The search knows nothing but what the seeds lead to, and it forgets nothing: it knows the seeds,
and it knows what the reached states lead to. -/
structure Keeps (A : Automaton) (seeds : List State) (S : Search) : Prop where
  exists_path : ∀ q, S.Knows q → ∃ s ∈ seeds, A.Path s [] q
  knows_seed : ∀ s ∈ seeds, S.Knows s
  knows_target : ∀ p ∈ S.reached, ∀ q ∈ A.targets p .epsilon, S.Knows q

theorem keeps_initial : (initial seeds).Keeps A seeds where
  exists_path q hq := ⟨q, by simpa [initial, Knows] using hq, .nil q⟩
  knows_seed s hs := .inr (by simpa [initial] using hs)
  knows_target p hp := by simp [initial] at hp

theorem Keeps.skip (h : S.Keeps A seeds) (hstack : S.stack = q :: stack) (hq : q ∈ S.reached) :
    Keeps A seeds { S with stack } where
  exists_path t ht := h.exists_path t ((knows_skip hstack hq).1 ht)
  knows_seed s hs := (knows_skip hstack hq).2 (h.knows_seed s hs)
  knows_target p hp t ht := (knows_skip hstack hq).2 (h.knows_target p hp t ht)

theorem Keeps.visit (h : S.Keeps A seeds) (hstack : S.stack = q :: stack) :
    (visit { S with stack } A q).Keeps A seeds where
  exists_path t ht := by
    rcases (knows_visit hstack).1 ht with ht | ht
    · exact h.exists_path t ht
    · have hq : S.Knows q := .inr (hstack ▸ List.mem_cons_self)
      obtain ⟨s, hs, hpath⟩ := h.exists_path q hq
      exact ⟨s, hs, hpath.append (.epsilon ht (.nil t))⟩
  knows_seed s hs := (knows_visit hstack).2 (.inl (h.knows_seed s hs))
  knows_target p hp t ht := by
    apply (knows_visit hstack).2
    rcases mem_reached_visit.1 hp with rfl | hp
    · exact .inr ht
    · exact .inl (h.knows_target p hp t ht)

theorem Keeps.turn (h : S.Keeps A seeds) (hturn : S.turn? A = some T) : T.Keeps A seeds := by
  obtain ⟨q, stack, hstack, ⟨hq, rfl⟩ | ⟨-, rfl⟩⟩ := turn?_eq_some hturn
  · exact h.skip hstack hq
  · exact h.visit hstack

theorem Keeps.ends (h : S.Keeps A seeds) (hends : S.Ends A n T) :
    T.Keeps A seeds ∧ T.stack = [] := by
  induction hends with
  | done hdone => exact ⟨h, turn?_eq_none.1 hdone⟩
  | turn hturn _ ih => exact ih (h.turn hturn)

theorem Keeps.mem_reached_iff (h : S.Keeps A seeds) (hstack : S.stack = []) :
    q ∈ S.reached ↔ ∃ s ∈ seeds, A.Path s [] q := by
  have hknows (t : State) : S.Knows t ↔ t ∈ S.reached := by simp [Knows, hstack]
  constructor
  · intro hq
    exact h.exists_path q (.inl hq)
  · rintro ⟨s, hs, hpath⟩
    refine hpath.mem_of_epsilon_closed ?_ ((hknows s).1 (h.knows_seed s hs))
    intro p hp t ht
    exact (hknows t).1 (h.knows_target p hp t ht)

/-- The search finds the closure. -/
theorem exists_ends_closure (A : Automaton) (seeds : List State) :
    ∃ n T, (initial seeds).Ends A n T ∧ n ≤ A.edges.size + seeds.length ∧
      T.reached = A.closure seeds := by
  obtain ⟨n, T, hends, hn⟩ := exists_ends A (initial seeds)
  obtain ⟨hT, hstack⟩ := keeps_initial.ends hends
  refine ⟨n, T, hends, size_initial ▸ hn, ?_⟩
  apply Std.ExtTreeSet.ext_mem
  intro q
  rw [hT.mem_reached_iff hstack, Automaton.mem_closure]

end Search

namespace Automaton

variable {A : Automaton} {p q : State} {seeds : List State}

/-- An edge that carries the empty word leads from one state to the other. -/
def SilentEdge (A : Automaton) (p q : State) : Prop :=
  ∃ labels, A.labels? p q = some labels ∧ .epsilon ∈ labels

theorem silentEdge_iff : A.SilentEdge p q ↔ q ∈ A.targets p .epsilon := mem_targets.symm

theorem path_nil_iff : A.Path p [] q ↔ Relation.ReflTransGen A.SilentEdge p q := by
  constructor
  · intro h
    refine h.mem_of_epsilon_closed (P := Relation.ReflTransGen A.SilentEdge p) ?_ .refl
    intro r hr s hs
    exact hr.tail (silentEdge_iff.2 hs)
  · intro h
    induction h with
    | refl => exact .nil p
    | tail _ hedge ih => exact ih.append (.epsilon (silentEdge_iff.1 hedge) (.nil _))

theorem mem_closure_iff_silent : q ∈ A.closure seeds ↔
    q ∈ seeds ∨ ∃ s ∈ seeds, Relation.TransGen A.SilentEdge s q := by
  simp only [mem_closure, path_nil_iff, Relation.reflTransGen_iff_eq_or_transGen]
  grind

/-- `f` adds to states what edges that carry the empty word lead to. -/
structure Closes (A : Automaton) (f : List State → StateSet) : Prop where
  mem_iff : ∀ l q, q ∈ f l ↔ q ∈ l ∨ ∃ s ∈ l, Relation.TransGen A.SilentEdge s q
  congr : ∀ k l, (∀ q, q ∈ k ↔ q ∈ l) → f k = f l
  extensive : ∀ l, ∀ q ∈ l, q ∈ f l
  idempotent : ∀ l, f (f l).toList = f l
  monotone : ∀ k l, k ⊆ l → ∀ q ∈ f k, q ∈ f l
  union : ∀ k l m, (∀ q, q ∈ m ↔ q ∈ k ∨ q ∈ l) → f m = f k ∪ f l

theorem closes_closure : A.Closes A.closure where
  mem_iff l q := mem_closure_iff_silent
  congr k l h := by
    apply Std.ExtTreeSet.ext_mem
    intro q
    simp only [mem_closure, h]
  extensive l q hq := mem_closure.2 ⟨q, hq, .nil q⟩
  idempotent l := by
    apply Std.ExtTreeSet.ext_mem
    intro q
    simp only [mem_closure, Std.ExtTreeSet.mem_toList]
    constructor
    · rintro ⟨p, ⟨s, hs, hp⟩, hq⟩
      exact ⟨s, hs, hp.append hq⟩
    · rintro ⟨s, hs, hq⟩
      exact ⟨s, ⟨s, hs, .nil s⟩, hq⟩
  monotone k l h q hq := by
    obtain ⟨s, hs, hpath⟩ := mem_closure.1 hq
    exact mem_closure.2 ⟨s, h hs, hpath⟩
  union k l m h := by
    apply Std.ExtTreeSet.ext_mem
    intro q
    simp only [Std.ExtTreeSet.mem_union_iff, mem_closure, h, or_and_right, exists_or]

/-- The search with a stack ends, whatever states it is given, and it finds the closure. The closure
is the states given and those that paths of edges with the empty word lead to, and so it obeys the
laws of a closure. -/
theorem closure_exact (A : Automaton) :
    (∀ seeds, ∃ n T, (Search.initial seeds).Ends A n T ∧ n ≤ A.edges.size + seeds.length ∧
      T.reached = A.closure seeds) ∧ A.Closes A.closure :=
  ⟨Search.exists_ends_closure A, closes_closure⟩

/-- A cycle, a state that is given twice, and one that the automaton does not have. -/
example : (((∅ : Automaton).addEpsilon 1 2).addTransition 2 1 {.epsilon, .char 'a'}).closure
    [2, 9, 2] = .ofList [1, 2, 9] := by
  decide +kernel

end Automaton

end PatternAutomata
