import PatternAutomata.Ordered.Set

/-!
# Edge labels

An edge of an automaton carries a set of symbols: the empty word, or single characters. The empty
word comes first in the order of symbols, and the characters follow by code point.
-/

namespace PatternAutomata

/-- What following an edge consumes: nothing, or one character. -/
inductive Symbol where
  | epsilon
  | char (c : Char)
deriving DecidableEq

namespace Symbol

/-- The empty word precedes every character. -/
protected def compare : Symbol → Symbol → Ordering
  | epsilon, epsilon => .eq
  | epsilon, char _ => .lt
  | char _, epsilon => .gt
  | char c, char d => Ord.compare c d

instance : Ord Symbol := ⟨Symbol.compare⟩

@[simp] theorem compare_char (c d : Char) : compare (char c) (char d) = compare c d := rfl

instance : Std.LawfulEqOrd Symbol where
  compare_self {a} := by
    cases a with
    | epsilon => rfl
    | char c => simp
  eq_of_compare {a b} h := by
    cases a <;> cases b
    case epsilon.epsilon => rfl
    case char.char c d => simpa using h
    all_goals cases h

instance : Std.TransOrd Symbol where
  eq_swap {a b} := by
    cases a <;> cases b
    case char.char c d =>
      rw [compare_char, compare_char]
      exact Std.OrientedCmp.eq_swap
    all_goals rfl
  isLE_trans {a b c} h₁ h₂ := by
    cases a
    case epsilon => cases c <;> rfl
    case char x =>
      cases b
      case epsilon => cases h₁
      case char y =>
        cases c
        case epsilon => cases h₂
        case char z =>
          rw [compare_char] at *
          exact Std.TransCmp.isLE_trans h₁ h₂

def isEpsilon : Symbol → Bool
  | epsilon => true
  | char _ => false

def char? : Symbol → Option Char
  | epsilon => none
  | char c => some c

/-- The empty word is written as a small epsilon, a character as itself. -/
def text : Symbol → String
  | epsilon => "ε"
  | char c => c.toString

end Symbol

abbrev Alphabet := Std.ExtTreeSet Char

abbrev Labels := Std.ExtTreeSet Symbol

def Labels.chars (labels : Labels) : List Char := labels.toList.filterMap Symbol.char?

@[simp] theorem Labels.mem_chars {labels : Labels} {c : Char} :
    c ∈ labels.chars ↔ Symbol.char c ∈ labels := by
  simp only [chars, List.mem_filterMap, Std.ExtTreeSet.mem_toList]
  constructor
  · rintro ⟨a, ha, hc⟩
    cases a <;> cases hc
    exact ha
  · exact fun h => ⟨_, h, rfl⟩

end PatternAutomata
