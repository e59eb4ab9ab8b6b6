import Mathlib.Computability.EpsilonNFA
import PatternAutomata.Proofs.Automaton.Path

/-!
# Simulation as reachability

An automaton is a nondeterministic automaton with empty moves in the sense of Mathlib, where a path
lists what stands on its edges: a character, or nothing for the empty word. The states that a run
arrives at are those to which such a path leads from the start, if its characters are the word. It
does not matter how many edges without a character come before, between and after them.
-/

namespace PatternAutomata

def Symbol.ofOption : Option Char → Symbol
  | none => .epsilon
  | some c => .char c

theorem Symbol.ofOption_char? (a : Symbol) : ofOption a.char? = a := by
  cases a with
  | epsilon => rfl
  | char c => rfl

theorem Symbol.reduceOption_cons (a : Symbol) (l : List (Option Char)) :
    (a.char? :: l).reduceOption = a.word ++ l.reduceOption := by
  cases a with
  | epsilon => exact List.reduceOption_cons_of_none l
  | char c => exact List.reduceOption_cons_of_some c l

namespace Automaton

/-- The states and labelled edges of the automaton as a graph. -/
def toεNFA (A : Automaton) : εNFA Char State where
  step p a := {q | ∃ labels, A.labels? p q = some labels ∧ Symbol.ofOption a ∈ labels}
  start := {q | A.start = some q}
  accept := {q | q ∈ A.finals}

variable {A : Automaton} {p q : State} {w : List Char} {l : List (Option Char)}

theorem mem_step_toεNFA {a : Option Char} :
    q ∈ A.toεNFA.step p a ↔ q ∈ A.targets p (Symbol.ofOption a) :=
  mem_targets.symm

theorem Path.of_isPath (h : A.toεNFA.IsPath p q l) : A.Path p l.reduceOption q := by
  induction h with
  | nil p => exact .nil p
  | cons r p q a l hr _ ih =>
    have hedge := mem_step_toεNFA.1 hr
    cases a with
    | none =>
      rw [List.reduceOption_cons_of_none]
      exact .epsilon hedge ih
    | some c =>
      rw [List.reduceOption_cons_of_some]
      exact .char hedge ih

theorem Path.exists_isPath (h : A.Path p w q) :
    ∃ l, A.toεNFA.IsPath p q l ∧ l.reduceOption = w := by
  induction h with
  | nil p => exact ⟨[], .nil p, rfl⟩
  | @cons p r q a w hr _ ih =>
    obtain ⟨l, hl, rfl⟩ := ih
    have hedge : r ∈ A.toεNFA.step p a.char? := by
      rw [mem_step_toεNFA, Symbol.ofOption_char?]
      exact hr
    exact ⟨a.char? :: l, .cons r p q a.char? l hedge hl, a.reduceOption_cons l⟩

theorem exists_isPath_iff :
    (∃ l, A.toεNFA.IsPath p q l ∧ l.reduceOption = w) ↔ A.Path p w q := by
  constructor
  · rintro ⟨l, hl, rfl⟩
    exact .of_isPath hl
  · exact Path.exists_isPath

theorem accepts_toεNFA : A.toεNFA.accepts = A.language := by
  ext w
  rw [εNFA.mem_accepts_iff_exists_path, mem_language, accepts_iff]
  refine exists_congr fun s => exists_congr fun f => ?_
  rw [← exists_isPath_iff]
  constructor
  · rintro ⟨l, hs, hf, hw, hl⟩
    exact ⟨hs, hf, l, hl, hw⟩
  · rintro ⟨hs, hf, l, hl, hw⟩
    exact ⟨l, hs, hf, hw, hl⟩

/-- A run, whether it stops early or not, arrives at the states to which a path leads that spells
the word, and it accepts if one of them is final. -/
theorem runUntilEmpty_reachable (A : Automaton) (w : List Char) :
    A.runUntilEmpty w = A.run w ∧
      (∀ t, t ∈ A.run w ↔
        ∃ s l, A.start = some s ∧ A.toεNFA.IsPath s t l ∧ l.reduceOption = w) ∧
      (A.accepts w ↔ ∃ s t l, A.start = some s ∧ t ∈ A.finals ∧ A.toεNFA.IsPath s t l ∧
        l.reduceOption = w) := by
  refine ⟨runUntilEmpty_eq_run, fun t => ?_, ?_⟩
  · simp only [mem_run, exists_and_left, exists_isPath_iff]
  · simp only [accepts_iff, exists_and_left, exists_isPath_iff]

end Automaton

end PatternAutomata
