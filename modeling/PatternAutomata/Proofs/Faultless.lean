import PatternAutomata.Proofs.Grammar.Compilation
import PatternAutomata.Proofs.Subset.Numbering

/-!
# Only patterns are at fault

An operation on automata can fail, but none of those that a pattern asks for does. Whatever is read
has an automaton with a start state, so the errors of a production are those of reading, and what
has been compiled can be made deterministic. A descent, which builds before it knows whether the
rest of the pattern can be read, gives the same result, so it meets no fault on the way to an error
either.
-/

namespace PatternAutomata

namespace Cursor

variable {τ : Type} {build : τ → Except Fault Automaton}

theorem missing_ne_invalid (c : Cursor) (e : Expected) (fault : Fault) :
    c.missing e ≠ .invalid fault := by
  unfold missing
  cases c.rest <;> nofun

theorem errorOf_ne_invalid (c : Cursor) (o : Obstacle) (fault : Fault) :
    c.errorOf o ≠ .invalid fault := by
  cases o with
  | wanted e => exact c.missing_ne_invalid e fault
  | tooDeep => nofun

theorem accept_ne_invalid (hbuild : ∀ x, ∃ A, build x = .ok A) (c : Cursor) (reading : Reading τ)
    (fault : Fault) : (c.accept build reading).1 ≠ .error (.invalid fault) := by
  cases reading with
  | error e =>
    intro h
    exact (c.moveTo e.rest).errorOf_ne_invalid e.obstacle fault (Except.error.inj h)
  | ok x =>
    obtain ⟨A, hA⟩ := hbuild x.1
    simp [accept, hA, Except.mapError]

theorem produce_ne_invalid (c : Cursor) (p : Production) (fault : Fault) :
    (c.produce p).1 ≠ .error (.invalid fault) := by
  cases p with
  | base =>
    exact c.accept_ne_invalid (fun b => b.exists_build.imp fun _ ⟨_, _, h, _⟩ => h) _ fault
  | factor =>
    exact c.accept_ne_invalid (fun f => f.exists_build.imp fun _ ⟨_, _, h, _⟩ => h) _ fault
  | term =>
    exact c.accept_ne_invalid (fun t => t.exists_build.imp fun _ ⟨_, _, h, _⟩ => h) _ fault
  | regex =>
    exact c.accept_ne_invalid (fun r => r.exists_build.imp fun _ ⟨_, _, h, _⟩ => h) _ fault

theorem parse_ne_invalid (c : Cursor) (fault : Fault) : c.parse ≠ .error (.invalid fault) := by
  rw [← Descent.parse_eq (d := ⟨c, 0⟩) rfl, Descent.parse, Descent.produce_eq rfl]
  split
  · next e d hproduce =>
    intro h
    cases h
    exact c.produce_ne_invalid .regex fault (congrArg Prod.fst hproduce)
  · next A d _ =>
    split_ifs
    · intro h
      cases h
    · intro h
      exact d.missing_ne_invalid .endOfPattern fault (Except.error.inj h)

end Cursor

variable {p : List Char} {n : Nat} {A : Automaton}

theorem exists_determinize (h : compile p n = .ok A) : ∃ D, determinize A = .ok D := by
  obtain ⟨r, -, hbuild⟩ := exists_derives_of_compile h
  obtain ⟨B, s, _, hB, hrealizes, -⟩ := r.exists_build
  rw [hbuild] at hB
  cases hB
  obtain ⟨D, hD, -⟩ := Dfa.determinizes_ofAutomaton hrealizes.start_eq
  exact ⟨D, by rw [determinize, hD]; rfl⟩

/-- No pattern runs into a fault: compilation fails with an error of the pattern only, whether it
builds after reading or while reading, and the deterministic automaton exists exactly if the other
one does, with the same error if not. -/
theorem compile_faultless (p : List Char) (n : Nat) :
    (∀ fault, compile p n ≠ .error (.invalid fault)) ∧
      (Descent.start p n).parse = compile p n ∧
      (∀ A, compile p n = .ok A → ∃ D, determinize A = .ok D ∧ compileDfa p n = .ok D) ∧
      ∀ e, compileDfa p n = .error e ↔ compile p n = .error e := by
  have hdfa {A : Automaton} (h : compile p n = .ok A) : compileDfa p n = determinize A := by
    simp only [compileDfa, h, bind, Except.bind]
  refine ⟨(Cursor.start p n).parse_ne_invalid, descent_eq_compile p n, fun A h => ?_, fun e => ?_⟩
  · obtain ⟨D, hD⟩ := exists_determinize h
    exact ⟨D, hD, (hdfa h).trans hD⟩
  · cases h : compile p n with
    | error e' => simp only [compileDfa, h, bind, Except.bind, Except.error.injEq]
    | ok A =>
      obtain ⟨D, hD⟩ := exists_determinize h
      rw [hdfa h, hD]
      exact ⟨nofun, nofun⟩

end PatternAutomata
