import Mathlib.Computability.Language
import Mathlib.Order.CompletePartialOrder
import PatternAutomata.Grammar.Tree

/-!
# The words of a tree

A tree denotes the words that the grammar suggests: a star is the closure of what stands before it.
Its automaton iterates without new states, so it can also return to the end of a starred base by a
way that does not begin at the start of the base. These returns are the loops of the tree. A group
with one branch has the loops of the last factor of the branch: the iterations of a factor with a
star, and otherwise the loops of its base, which may be a group again. All other bases have no loop
but the empty word. With the loops of every starred base added, a tree gives the words that its
automaton accepts.
-/

namespace PatternAutomata

open scoped Computability

mutual

def Base.language : Base → Language Char
  | .plain c => {[c]}
  | .escaped c => {[c]}
  | .group r => r.language

def Factor.language : Factor → Language Char
  | .once b => b.language
  | .star f => f.language∗

def Term.language : Term → Language Char
  | .empty => 1
  | .snoc t f => t.language * f.language

def Regex.language : Regex → Language Char
  | .single t => t.language
  | .alt t r => t.language + r.language

end

mutual

/-- The words that lead from the end of a base back to its end. -/
def Base.loops : Base → Language Char
  | .plain _ => 1
  | .escaped _ => 1
  | .group r => r.loops

def Factor.loops : Factor → Language Char
  | .once b => b.loops
  | .star f => f.iterated

def Term.loops : Term → Language Char
  | .empty => 1
  | .snoc _ f => f.loops

def Regex.loops : Regex → Language Char
  | .single t => t.loops
  | .alt _ _ => 1

def Base.accepted : Base → Language Char
  | .plain c => {[c]}
  | .escaped c => {[c]}
  | .group r => r.accepted

def Factor.accepted : Factor → Language Char
  | .once b => b.accepted
  | .star f => f.iterated

/-- The words of the base of a factor with at least one star after it. -/
def Factor.iterated : Factor → Language Char
  | .once b => (b.accepted + b.loops)∗
  | .star f => f.iterated

def Term.accepted : Term → Language Char
  | .empty => 1
  | .snoc t f => t.accepted * f.accepted

def Regex.accepted : Regex → Language Char
  | .single t => t.accepted
  | .alt t r => t.accepted + r.accepted

end

mutual

theorem Base.language_le_accepted : ∀ b : Base, b.language ≤ b.accepted
  | .plain _ => le_rfl
  | .escaped _ => le_rfl
  | .group r => r.language_le_accepted

theorem Factor.language_le_accepted : ∀ f : Factor, f.language ≤ f.accepted
  | .once b => b.language_le_accepted
  | .star f => f.kstar_language_le_iterated

theorem Factor.kstar_language_le_iterated : ∀ f : Factor, f.language∗ ≤ f.iterated
  | .once b => kstar_mono (le_add_right b.language_le_accepted)
  | .star f => by
    have h := f.kstar_language_le_iterated
    rwa [← kstar_idem] at h

theorem Term.language_le_accepted : ∀ t : Term, t.language ≤ t.accepted
  | .empty => le_rfl
  | .snoc t f => mul_le_mul' t.language_le_accepted f.language_le_accepted

theorem Regex.language_le_accepted : ∀ r : Regex, r.language ≤ r.accepted
  | .single t => t.language_le_accepted
  | .alt t r => add_le_add t.language_le_accepted r.language_le_accepted

end

theorem Factor.loops_le_iterated (f : Factor) : f.loops ≤ f.iterated := by
  cases f with
  | once b =>
    have hsum : b.loops ≤ b.accepted + b.loops := le_add_left le_rfl
    exact hsum.trans le_kstar
  | star f => exact le_rfl

/-- A group of one branch that ends in a star accepts, once it is starred itself, what the inner
star denotes without the rest of the branch. -/
theorem Factor.kstar_language_le_accepted_group (t : Term) (f : Factor) :
    f.language∗ ≤ (Factor.star (.once (.group (.single (.snoc t (.star f)))))).accepted := by
  have hloops : f.language∗ ≤ (Factor.once (.group (.single (.snoc t (.star f))))).loops :=
    f.kstar_language_le_iterated
  exact hloops.trans (Factor.loops_le_iterated _)

mutual

/-- The loops before every star are words of the closure that the star denotes. -/
def Base.Tight : Base → Prop
  | .plain _ => True
  | .escaped _ => True
  | .group r => r.Tight

def Factor.Tight : Factor → Prop
  | .once b => b.Tight
  | .star f => f.Tight ∧ f.loops ≤ f.language∗

def Term.Tight : Term → Prop
  | .empty => True
  | .snoc t f => t.Tight ∧ f.Tight

def Regex.Tight : Regex → Prop
  | .single t => t.Tight
  | .alt t r => t.Tight ∧ r.Tight

end

mutual

theorem Base.accepted_eq_language : ∀ b : Base, b.Tight → b.accepted = b.language
  | .plain _, _ => rfl
  | .escaped _, _ => rfl
  | .group r, h => r.accepted_eq_language h

theorem Factor.accepted_eq_language : ∀ f : Factor, f.Tight → f.accepted = f.language
  | .once b, h => b.accepted_eq_language h
  | .star f, h => f.iterated_eq_kstar_language h.1 h.2

theorem Factor.iterated_eq_kstar_language :
    ∀ f : Factor, f.Tight → f.loops ≤ f.language∗ → f.iterated = f.language∗
  | .once b, h, hloops => by
    have hb := b.accepted_eq_language h
    refine le_antisymm ?_ (Factor.kstar_language_le_iterated (.once b))
    have hle : b.accepted + b.loops ≤ b.language∗ := add_le (hb ▸ le_kstar) hloops
    calc (b.accepted + b.loops)∗ ≤ b.language∗∗ := kstar_mono hle
      _ = b.language∗ := kstar_idem _
  | .star f, h, _ => by
    have hf := f.iterated_eq_kstar_language h.1 h.2
    calc f.iterated = f.language∗ := hf
      _ = f.language∗∗ := (kstar_idem _).symm

theorem Term.accepted_eq_language : ∀ t : Term, t.Tight → t.accepted = t.language
  | .empty, _ => rfl
  | .snoc t f, h => congrArg₂ (· * ·) (t.accepted_eq_language h.1) (f.accepted_eq_language h.2)

theorem Regex.accepted_eq_language : ∀ r : Regex, r.Tight → r.accepted = r.language
  | .single t, h => t.accepted_eq_language h
  | .alt t r, h => congrArg₂ (· + ·) (t.accepted_eq_language h.1) (r.accepted_eq_language h.2)

end

/-- Star by star, the condition on the loops cannot be weakened. -/
theorem Factor.iterated_eq_kstar_language_iff {f : Factor} (h : f.Tight) :
    f.iterated = f.language∗ ↔ f.loops ≤ f.language∗ := by
  constructor
  · intro heq
    rw [← heq]
    exact f.loops_le_iterated
  · exact f.iterated_eq_kstar_language h

mutual

/-- False for a group with one branch whose last factor has a star or is again a group for which
this is false, as in `((ab*))`. -/
def Base.isLoopFree : Base → Bool
  | .plain _ => true
  | .escaped _ => true
  | .group r => r.isLoopFree

def Factor.isLoopFree : Factor → Bool
  | .once b => b.isLoopFree
  | .star _ => false

def Term.isLoopFree : Term → Bool
  | .empty => true
  | .snoc _ f => f.isLoopFree

def Regex.isLoopFree : Regex → Bool
  | .single t => t.isLoopFree
  | .alt _ _ => true

end

mutual

theorem Base.loops_eq_one : ∀ {b : Base}, b.isLoopFree → b.loops = 1
  | .plain _, _ => rfl
  | .escaped _, _ => rfl
  | .group _, h => Regex.loops_eq_one h

theorem Factor.loops_eq_one : ∀ {f : Factor}, f.isLoopFree → f.loops = 1
  | .once _, h => Base.loops_eq_one h

theorem Term.loops_eq_one : ∀ {t : Term}, t.isLoopFree → t.loops = 1
  | .empty, _ => rfl
  | .snoc _ _, h => Factor.loops_eq_one h

theorem Regex.loops_eq_one : ∀ {r : Regex}, r.isLoopFree → r.loops = 1
  | .single _, h => Term.loops_eq_one h
  | .alt _ _, _ => rfl

end

def Factor.base : Factor → Base
  | .once b => b
  | .star f => f.base

mutual

/-- Whether all stars stand after bases without loops. -/
def Base.starsLoopFree : Base → Bool
  | .plain _ => true
  | .escaped _ => true
  | .group r => r.starsLoopFree

def Factor.starsLoopFree : Factor → Bool
  | .once b => b.starsLoopFree
  | .star f => f.starsLoopFree && f.base.isLoopFree

def Term.starsLoopFree : Term → Bool
  | .empty => true
  | .snoc t f => t.starsLoopFree && f.starsLoopFree

def Regex.starsLoopFree : Regex → Bool
  | .single t => t.starsLoopFree
  | .alt t r => t.starsLoopFree && r.starsLoopFree

end

/-- A factor loops on its base, or on the closure that its last star denotes. -/
theorem Factor.loops_le_kstar_language {f : Factor} (h : f.Tight) (hbase : f.base.isLoopFree) :
    f.loops ≤ f.language∗ := by
  cases f with
  | once b =>
    have hb : (Factor.once b).loops = 1 := Base.loops_eq_one hbase
    rw [hb]
    exact one_le_kstar
  | star f =>
    have hf : (Factor.star f).loops = f.language∗ := f.iterated_eq_kstar_language h.1 h.2
    rw [hf]
    exact le_kstar

mutual

theorem Base.tight_of_starsLoopFree : ∀ {b : Base}, b.starsLoopFree → b.Tight
  | .plain _, _ => trivial
  | .escaped _, _ => trivial
  | .group _, h => Regex.tight_of_starsLoopFree h

theorem Factor.tight_of_starsLoopFree : ∀ {f : Factor}, f.starsLoopFree → f.Tight
  | .once _, h => Base.tight_of_starsLoopFree h
  | .star f, h => by
    obtain ⟨hf, hbase⟩ := Bool.and_eq_true_iff.1 h
    have htight : f.Tight := Factor.tight_of_starsLoopFree hf
    exact ⟨htight, f.loops_le_kstar_language htight hbase⟩

theorem Term.tight_of_starsLoopFree : ∀ {t : Term}, t.starsLoopFree → t.Tight
  | .empty, _ => trivial
  | .snoc _ _, h => by
    obtain ⟨ht, hf⟩ := Bool.and_eq_true_iff.1 h
    exact ⟨Term.tight_of_starsLoopFree ht, Factor.tight_of_starsLoopFree hf⟩

theorem Regex.tight_of_starsLoopFree : ∀ {r : Regex}, r.starsLoopFree → r.Tight
  | .single _, h => Term.tight_of_starsLoopFree h
  | .alt _ _, h => by
    obtain ⟨ht, hr⟩ := Bool.and_eq_true_iff.1 h
    exact ⟨Term.tight_of_starsLoopFree ht, Regex.tight_of_starsLoopFree hr⟩

end

end PatternAutomata
