import PatternAutomata.Proofs.Automaton.Iteration
import PatternAutomata.Proofs.Grammar.Derivation
import PatternAutomata.Proofs.Grammar.Descent

/-!
# Stars after stars

Iteration wires the start to every final state in both directions. A second iteration finds the same
start and the same finals, so its wires are there already, and nothing changes. A factor is read
with all the stars after its base and iterated once for each of them; so it does not matter how many
there are, as long as there is one.
-/

namespace PatternAutomata

namespace Automaton

variable {A B : Automaton} {s : State}

theorem addEdges_addEdges_self (A : Automaton) (t : Transitions) :
    (A.addEdges t).addEdges t = A.addEdges t := by
  ext1
  case states => simp only [addEdges, Ordered.union_assoc, Ordered.union_self]
  case alphabet => simp only [addEdges, Ordered.union_assoc, Ordered.union_self]
  case start => rfl
  case finals => rfl
  case edges => simp only [addEdges, Transitions.union_assoc, Transitions.union_self]

theorem looped_looped : (A.looped s).looped s = A.looped s := addEdges_addEdges_self A _

theorem star_star (h : A.star = .ok B) : B.star = .ok B := by
  obtain ⟨s, hs, hB⟩ := exists_ok_of_bind h
  cases hB
  have hstart : (A.looped s).start = some s := startState_eq_ok_iff.1 hs
  have htwice := star_eq hstart
  rw [looped_looped] at htwice
  exact htwice

end Automaton

namespace Factor

variable {f : Factor} {A B : Automaton} {k : Nat} {rest : List Char}

/-- The factor with `k` more stars. -/
def starred (f : Factor) : Nat → Factor
  | 0 => f
  | k + 1 => starred (.star f) k

theorem readStars_replicate (f : Factor) (k : Nat) (h : rest.head? ≠ some '*') :
    readStars f (List.replicate k '*' ++ rest) = (f.starred k, rest) := by
  induction k generalizing f with
  | zero => exact readStars_of_head?_ne f h
  | succ k ih =>
    rw [List.replicate_succ, List.cons_append, readStars, if_pos rfl]
    exact ih (.star f)

/-- After the first star all others leave the automaton as it is. -/
theorem build_starred (hf : f.build = .ok A) (hA : A.star = .ok B) (k : Nat) :
    (f.starred (k + 1)).build = .ok B := by
  induction k generalizing f A with
  | zero => exact (Descent.build_star hf).trans hA
  | succ k ih =>
    have hstar : (Factor.star f).build = .ok B := (Descent.build_star hf).trans hA
    exact ih hstar (Automaton.star_star hA)

end Factor

namespace Descent

variable {d : Descent} {b : Base} {k : Nat} {rest : List Char} {A : Automaton}

/-- A valid base comes next, then `k` stars, and then something else or nothing. The groups of the
base and those that are open together keep to the limit. -/
structure Faces (d : Descent) (b : Base) (k : Nat) (rest : List Char) : Prop where
  isProper : b.isProper
  depth_le : d.opened + b.depth ≤ d.limit
  rest_eq : d.rest = b.text ++ (List.replicate k '*' ++ rest)
  head?_ne : rest.head? ≠ some '*'

namespace Faces

variable (h : d.Faces b k rest)

include h

theorem exists_room : ∃ n, d.opened + n = d.limit ∧ b.depth ≤ n := by
  have hle := h.depth_le
  exact ⟨d.limit - d.opened, by omega, by omega⟩

theorem base_eq (hA : b.build = .ok A) : (d.produce .base).1 = .ok A := by
  obtain ⟨n, hn, hdepth⟩ := h.exists_room
  have hread := Base.read_text h.isProper hdepth (List.replicate k '*' ++ rest)
  rw [← h.rest_eq] at hread
  have hbase := serves n d hn
  rw [hread, accept_ok, hA] at hbase
  exact congrArg Prod.fst hbase

/-- The cursor stands behind the stars. -/
theorem goTo_eq :
    d.goTo rest = ⟨⟨d.position + (b.text.length + k), rest, d.limit⟩, d.opened⟩ := by
  have hlength : d.rest.length - rest.length = b.text.length + k := by
    rw [h.rest_eq]
    simp only [List.length_append, List.length_replicate]
    omega
  simp only [goTo, Cursor.moveTo, hlength]

theorem factor_eq_starred : (d.produce .factor) =
    ((((Factor.once b).starred k).build).mapError .invalid, d.goTo rest) := by
  obtain ⟨n, hn, hdepth⟩ := h.exists_room
  have hread := Factor.read_text (f := .once b) h.isProper hdepth (List.replicate k '*' ++ rest)
  rw [Factor.readStars_replicate _ k h.head?_ne, Factor.text, ← h.rest_eq] at hread
  have hfactor := factor_eq (serves n) hn
  rw [hread, accept_ok] at hfactor
  exact hfactor

end Faces

/-- After a base with one star or more the result is the base iterated once, and all the stars are
behind the cursor. -/
theorem Faces.exists_factor (h : d.Faces b (k + 1) rest) :
    ∃ A B, b.build = .ok A ∧ A.star = .ok B ∧ d.produce .factor =
      (.ok B, ⟨⟨d.position + (b.text.length + (k + 1)), rest, d.limit⟩, d.opened⟩) := by
  obtain ⟨A, _, _, hA, -⟩ := b.exists_build
  obtain ⟨B, _, _, hB, -⟩ := (Factor.star (.once b)).exists_build
  have hstar : A.star = .ok B := (build_star (f := .once b) hA).symm.trans hB
  have hbuild := Factor.build_starred (f := .once b) hA hstar k
  refine ⟨A, B, hA, hstar, ?_⟩
  rw [h.factor_eq_starred, hbuild, h.goTo_eq]
  rfl

end Descent

/-- Iterating a second time changes nothing. So a base with any number of stars, one or more, is
read as the same automaton as with one star, wherever it stands. -/
theorem stacked_stars_collapse :
    (∀ A : Automaton, A.start.isSome → ∃ B, A.star = .ok B ∧ B.star = .ok B) ∧
    ∀ (d : Descent) (b : Base) (k : Nat) (rest : List Char), d.Faces b (k + 1) rest →
      ∃ A B, (d.produce .base).1 = .ok A ∧ A.star = .ok B ∧
        d.produce .factor =
          (.ok B, ⟨⟨d.position + (b.text.length + (k + 1)), rest, d.limit⟩, d.opened⟩) ∧
        ∀ d' rest', Descent.Faces d' b 1 rest' → (d'.produce .factor).1 = .ok B := by
  constructor
  · intro A hstart
    obtain ⟨s, hs⟩ := Option.isSome_iff_exists.1 hstart
    have hstar := Automaton.star_eq hs
    exact ⟨_, hstar, Automaton.star_star hstar⟩
  · intro d b k rest h
    obtain ⟨A, B, hA, hB, hfactor⟩ := h.exists_factor
    refine ⟨A, B, h.base_eq hA, hB, hfactor, ?_⟩
    intro d' rest' h'
    obtain ⟨A', B', hA', hB', hfactor'⟩ := h'.exists_factor
    cases hA.symm.trans hA'
    cases hB.symm.trans hB'
    rw [hfactor']

def Base.escapedStar : Base :=
  .group (.single (.snoc (.snoc .empty (.once (.escaped '*'))) (.once (.plain 'a'))))

/-- Inside a group, three stars after a group with a star of its own that is escaped. -/
theorem stacked_stars_collapse_escaped :
    (∃ B, Automaton.backward.star = .ok B ∧ B.star = .ok B) ∧
    ∃ A B, ((⟨⟨3, "(\\*a)***)".toList, 2⟩, 1⟩ : Descent).produce .base).1 = .ok A ∧
      A.star = .ok B ∧
      (⟨⟨3, "(\\*a)***)".toList, 2⟩, 1⟩ : Descent).produce .factor =
        (.ok B, ⟨⟨11, [')'], 2⟩, 1⟩) ∧
      ∀ d' rest', Descent.Faces d' .escapedStar 1 rest' → (d'.produce .factor).1 = .ok B := by
  have hfaces : (⟨⟨3, "(\\*a)***)".toList, 2⟩, 1⟩ : Descent).Faces .escapedStar 3 [')'] := by
    constructor
    case isProper => rfl
    case depth_le => exact Nat.le_refl 2
    case rest_eq => rfl
    case head?_ne => simp
  exact ⟨stacked_stars_collapse.1 .backward rfl, stacked_stars_collapse.2 _ _ 2 _ hfaces⟩

end PatternAutomata
