import PatternAutomata.Pattern
import PatternAutomata.Proofs.Grammar.Derivation
import PatternAutomata.Proofs.Grammar.Descent
import PatternAutomata.Proofs.Grammar.Fragment

/-!
# What compiling a pattern gives

A pattern is compiled exactly when it has a derivation, and the result is the automaton of its one
tree. The words that this automaton accepts are therefore known from the tree. They include every
word that the pattern denotes, and others only if the loops of a starred base add some.
-/

namespace PatternAutomata

open scoped Computability

variable {p : List Char} {n : Nat} {A : Automaton} {r : Regex}

theorem compile_of_derives (h : r.Derives n p) : compile p n = r.build.mapError .invalid := by
  have hread : Regex.read n p = .ok (r, []) := Regex.Derives.iff_read.1 h
  simp [compile, Cursor.start, Cursor.parse, hread]

theorem exists_build_of_derives (h : r.Derives n p) :
    ∃ A, r.build = .ok A ∧ compile p n = .ok A := by
  obtain ⟨A, _, _, hA, -⟩ := r.exists_build
  refine ⟨A, hA, ?_⟩
  rw [compile_of_derives h, hA]
  rfl

/-- What is compiled has been read to its end. -/
theorem exists_derives_of_compile (h : compile p n = .ok A) :
    ∃ r : Regex, r.Derives n p ∧ r.build = .ok A := by
  simp only [compile, Cursor.start, Cursor.parse] at h
  split at h
  · cases h
  · next r hread =>
    have hderives : r.Derives n p := Regex.Derives.iff_read.2 hread
    obtain ⟨B, _, _, hB, -⟩ := r.exists_build
    rw [hB] at h
    cases h
    exact ⟨r, hderives, hB⟩
  · cases h

theorem descent_eq_compile (p : List Char) (n : Nat) : (Descent.start p n).parse = compile p n :=
  Descent.parse_eq rfl

/-- A pattern is compiled exactly when it has a derivation; the derivation is unique, and its
automaton is the result, whether it is built after reading or while reading. -/
theorem compile_follows_grammar (p : List Char) (n : Nat) :
    ((∃ A, compile p n = .ok A) ↔ ∃ r : Regex, r.Derives n p) ∧
      (∀ r r' : Regex, r.Derives n p → r'.Derives n p → r = r') ∧
      ∀ r : Regex, r.Derives n p →
        ∃ A, r.build = .ok A ∧ compile p n = .ok A ∧ (Descent.start p n).parse = .ok A := by
  refine ⟨⟨?_, ?_⟩, fun r r' hr hr' => hr.eq_of_derives hr', fun r hr => ?_⟩
  · rintro ⟨A, hA⟩
    obtain ⟨r, hr, -⟩ := exists_derives_of_compile hA
    exact ⟨r, hr⟩
  · rintro ⟨r, hr⟩
    obtain ⟨A, -, hA⟩ := exists_build_of_derives hr
    exact ⟨A, hA⟩
  · obtain ⟨A, hbuild, hA⟩ := exists_build_of_derives hr
    exact ⟨A, hbuild, hA, (descent_eq_compile p n).trans hA⟩

/-- The tree of `(ab*)*`, whose inner star can be repeated without its `a`. -/
def nestedStars : Regex :=
  .single (.snoc .empty (.star (.once (.group (.single
    (.snoc (.snoc .empty (.once (.plain 'a'))) (.star (.once (.plain 'b')))))))))

theorem nestedStars_derives : nestedStars.Derives 1 ['(', 'a', 'b', '*', ')', '*'] :=
  ⟨rfl, rfl, Nat.le_refl 1⟩

theorem accepts_iff_mem_accepted (hA : r.build = .ok A) (w : List Char) :
    A.accepts w ↔ w ∈ r.accepted := by
  obtain ⟨B, s, f, hB, hrealizes, -⟩ := r.exists_build
  rw [hA] at hB
  cases hB
  rw [← hrealizes.language_eq, Automaton.mem_language]

/-- The words that a compiled pattern accepts, with the loops of every starred base. -/
theorem compile_accepts_iff (h : compile p n = .ok A) :
    ∃ r : Regex, r.Derives n p ∧ ∀ w, A.accepts w ↔ w ∈ r.accepted := by
  obtain ⟨r, hr, hA⟩ := exists_derives_of_compile h
  exact ⟨r, hr, accepts_iff_mem_accepted hA⟩

theorem compile_accepts_iff_nestedStars :
    ∃ A, compile ['(', 'a', 'b', '*', ')', '*'] 1 = .ok A ∧
      ∃ r : Regex, r.Derives 1 ['(', 'a', 'b', '*', ')', '*'] ∧
        ∀ w, A.accepts w ↔ w ∈ r.accepted := by
  obtain ⟨A, -, hA⟩ := exists_build_of_derives nestedStars_derives
  exact ⟨A, hA, compile_accepts_iff hA⟩

/-- Every word that a pattern denotes is accepted. No other word is accepted exactly when the loops
add none, and they add none if each stays within the closure that its star denotes. -/
theorem compile_accepts_language (h : compile p n = .ok A) :
    ∃ r : Regex, r.Derives n p ∧ (∀ w ∈ r.language, A.accepts w) ∧
      ((∀ w, A.accepts w ↔ w ∈ r.language) ↔ r.accepted ≤ r.language) ∧
      (r.Tight → ∀ w, A.accepts w ↔ w ∈ r.language) := by
  obtain ⟨r, hr, hA⟩ := exists_derives_of_compile h
  have haccepts := accepts_iff_mem_accepted hA
  have hle : ∀ w ∈ r.language, A.accepts w := by
    intro w hw
    exact (haccepts w).2 (r.language_le_accepted hw)
  refine ⟨r, hr, hle, ⟨?_, ?_⟩, ?_⟩
  · intro h w hw
    exact (h w).1 ((haccepts w).2 hw)
  · intro h w
    exact ⟨fun hw => h ((haccepts w).1 hw), hle w⟩
  · intro h w
    rw [haccepts, r.accepted_eq_language h]

/-- The tree of `(a*b)*`, whose group ends in a character. -/
def starredGroup : Regex :=
  .single (.snoc .empty (.star (.once (.group (.single
    (.snoc (.snoc .empty (.star (.once (.plain 'a')))) (.once (.plain 'b'))))))))

theorem starredGroup_derives : starredGroup.Derives 1 ['(', 'a', '*', 'b', ')', '*'] :=
  ⟨rfl, rfl, Nat.le_refl 1⟩

/-- The words of `(a*b)*` are accepted, and no others. Those of `(ab*)*` are also accepted, but not
alone. -/
theorem compile_accepts_language_stars :
    (∃ A, compile ['(', 'a', '*', 'b', ')', '*'] 1 = .ok A ∧
      ∃ r : Regex, r.Derives 1 ['(', 'a', '*', 'b', ')', '*'] ∧
        ∀ w, A.accepts w ↔ w ∈ r.language) ∧
    ∃ A, compile ['(', 'a', 'b', '*', ')', '*'] 1 = .ok A ∧
      ∃ r : Regex, r.Derives 1 ['(', 'a', 'b', '*', ')', '*'] ∧
        (∀ w ∈ r.language, A.accepts w) ∧
        ((∀ w, A.accepts w ↔ w ∈ r.language) ↔ r.accepted ≤ r.language) := by
  constructor
  · obtain ⟨A, -, hA⟩ := exists_build_of_derives starredGroup_derives
    obtain ⟨r, hr, -, -, hiff⟩ := compile_accepts_language hA
    have htight : r.Tight := by
      rw [hr.eq_of_derives starredGroup_derives]
      exact Regex.tight_of_starsLoopFree rfl
    exact ⟨A, hA, r, hr, hiff htight⟩
  · obtain ⟨A, -, hA⟩ := exists_build_of_derives nestedStars_derives
    obtain ⟨r, hr, hle, hiff, -⟩ := compile_accepts_language hA
    exact ⟨A, hA, r, hr, hle, hiff⟩

/-- The pattern `(ab*)*` accepts `b`, which it does not denote. -/
theorem compile_nestedStars_accepts_more :
    ∃ A, compile ['(', 'a', 'b', '*', ')', '*'] 1 = .ok A ∧
      ∃ r : Regex, r.Derives 1 ['(', 'a', 'b', '*', ')', '*'] ∧
        A.accepts ['b'] ∧ ['b'] ∉ r.language := by
  obtain ⟨A, hbuild, hA⟩ := exists_build_of_derives nestedStars_derives
  refine ⟨A, hA, nestedStars, nestedStars_derives, ?_, ?_⟩
  · rw [accepts_iff_mem_accepted hbuild]
    have hle : (Factor.once (.plain 'b')).language ≤ (Factor.once (.plain 'b')).language∗ :=
      le_kstar
    have hb : ['b'] ∈ (Factor.once (.plain 'b')).language∗ := hle rfl
    have hgroup := Factor.kstar_language_le_accepted_group (.snoc .empty (.once (.plain 'a')))
      (.once (.plain 'b')) hb
    exact Language.append_mem_mul (a := []) rfl hgroup
  · intro h
    have hstar : ['b'] ∈ (1 * (1 * {['a']} * {['b']}∗)∗ : Language Char) := h
    rw [one_mul, one_mul, ← Language.one_add_self_mul_kstar_eq_kstar] at hstar
    -- A word of the closure is empty or begins with a word of the group, and that with `a`.
    rcases hstar with hnil | ⟨u, ⟨x, hx, y, -, rfl⟩, v, -, hword⟩
    · cases hnil
    · cases hx
      cases hword

/-- A pattern whose stars all stand after bases without loops accepts what it denotes. -/
theorem compile_accepts_iff_of_starsLoopFree (hr : r.Derives n p) (h : compile p n = .ok A)
    (hstars : r.starsLoopFree) (w : List Char) : A.accepts w ↔ w ∈ r.language := by
  obtain ⟨r', hr', hA⟩ := exists_derives_of_compile h
  have heq : r' = r := hr'.eq_of_derives hr
  rw [accepts_iff_mem_accepted hA, heq,
    r.accepted_eq_language (Regex.tight_of_starsLoopFree hstars)]

end PatternAutomata
