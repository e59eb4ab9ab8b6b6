import PatternAutomata.Proofs.Automaton.Layout
import PatternAutomata.Proofs.Grammar.Compilation
import PatternAutomata.Proofs.Grammar.Trim

/-!
# The states of a compiled pattern

The states of a compiled pattern are numbered without gaps, and how many there are can be read off
the pattern: two for each character that stands for itself, two for each group, four for each bar,
and two more. Stars add none. The pattern is divided into tokens for this, without regard to its
grammar. The text of a tree ends where a token ends, so the tokens of the parts of a tree make up
those of the whole.
-/

namespace PatternAutomata

inductive Token where
  | literal (c : Char)
  | operator (c : Char)
deriving DecidableEq

/-- The tokens of a text. A backslash and the character after it are one literal. -/
def tokens : List Char → List Token
  | [] => []
  | '\\' :: c :: s => .literal c :: tokens s
  | c :: s => (if isOperator c then .operator c else .literal c) :: tokens s

/-- The character that stands for itself. -/
def Token.literal? : Token → Option Char
  | literal c => some c
  | operator _ => none

def literals (s : List Char) : List Char := (tokens s).filterMap Token.literal?

/-- How often a character is used as an operator. -/
def operatorCount (c : Char) (s : List Char) : Nat := (tokens s).count (.operator c)

/-- Half the number of states that a text accounts for. -/
def weight (s : List Char) : Nat :=
  (literals s).length + operatorCount '(' s + 2 * operatorCount '|' s

/-- The text ends where a token ends, whatever follows it. -/
def Closed (s : List Char) : Prop := ∀ t, tokens (s ++ t) = tokens s ++ tokens t

variable {s t p : List Char} {n : Nat} {A : Automaton} {rest : List Automaton} {c : Char}

theorem tokens_cons (hc : c ≠ '\\') (s : List Char) :
    tokens (c :: s) = (if isOperator c then .operator c else .literal c) :: tokens s := by
  rw [tokens]
  intro _ _ h
  exact absurd h hc

theorem ne_backslash_of_not_isOperator (h : isOperator c = false) : c ≠ '\\' := by
  rintro rfl
  cases h

theorem tokens_of_not_isOperator (h : isOperator c = false) : tokens [c] = [.literal c] := by
  rw [tokens_cons (ne_backslash_of_not_isOperator h), h]
  rfl

theorem closed_escaped (c : Char) : Closed ['\\', c] := fun _ => rfl

namespace Closed

theorem nil : Closed [] := fun _ => rfl

theorem char (hc : c ≠ '\\') : Closed [c] := by
  intro t
  rw [List.singleton_append, tokens_cons hc, tokens_cons hc]
  rfl

theorem append (hs : Closed s) (ht : Closed t) : Closed (s ++ t) := by
  intro u
  rw [List.append_assoc, hs, ht, hs, List.append_assoc]

theorem literals_append (hs : Closed s) (t : List Char) :
    literals (s ++ t) = literals s ++ literals t := by
  rw [literals, hs, List.filterMap_append]
  rfl

theorem operatorCount_append (hs : Closed s) (c : Char) (t : List Char) :
    operatorCount c (s ++ t) = operatorCount c s + operatorCount c t := by
  rw [operatorCount, hs, List.count_append]
  rfl

theorem weight_append (hs : Closed s) (t : List Char) : weight (s ++ t) = weight s + weight t := by
  simp only [weight, hs.literals_append, hs.operatorCount_append, List.length_append]
  omega

end Closed

mutual

theorem Base.closed_text : ∀ {b : Base}, b.isProper → Closed b.text
  | .plain c, h => by
    have hc : isOperator c = false := by simpa [Base.isProper] using h
    exact .char (ne_backslash_of_not_isOperator hc)
  | .escaped c, _ => closed_escaped c
  | .group r, h => by
    have hopen : Closed ['('] := .char (by decide)
    have hclose : Closed [')'] := .char (by decide)
    exact hopen.append ((Regex.closed_text (r := r) h).append hclose)

theorem Factor.closed_text : ∀ {f : Factor}, f.isProper → Closed f.text
  | .once b, h => Base.closed_text (b := b) h
  | .star f, h => (Factor.closed_text (f := f) h).append (.char (by decide))

theorem Term.closed_text : ∀ {t : Term}, t.isProper → Closed t.text
  | .empty, _ => .nil
  | .snoc t f, h => by
    obtain ⟨ht, hf⟩ := Bool.and_eq_true_iff.1 h
    exact (Term.closed_text ht).append (Factor.closed_text hf)

theorem Regex.closed_text : ∀ {r : Regex}, r.isProper → Closed r.text
  | .single t, h => Term.closed_text (t := t) h
  | .alt t r, h => by
    simp only [Regex.isProper, Bool.and_eq_true] at h
    have hbar : Closed ['|'] := .char (by decide)
    exact (Term.closed_text h.1.1.1).append (hbar.append (Regex.closed_text h.1.2))

end

theorem Automaton.dense_ofSymbol (a : Symbol) : (ofSymbol a).Dense 2 a.word where
  wellFormed := .ofSymbol a
  start_eq := rfl
  mem_states_iff q := by
    rw [mem_states_ofSymbol]
    unfold State at *
    omega
  mem_finals_iff _ := (realizes_ofSymbol a).mem_finals
  mem_alphabet_iff c := by
    have hempty : c ∉ (∅ : Alphabet) := Std.ExtTreeSet.not_mem_empty
    have halphabet : (ofSymbol a).alphabet = ∅ ∪ (Transitions.ofEdge 1 2 {a}).chars := rfl
    rw [halphabet, Std.ExtTreeSet.mem_union_iff, or_iff_right hempty,
      Transitions.mem_chars_ofEdge, Ordered.mem_singleton]
    cases a <;> simp [Symbol.word]

/-- The branches of a pattern are the operands of nested unions. -/
theorem Regex.build_eq_nestedUnion {r : Regex} (h : r.branches = .ok (A :: rest)) :
    r.build = Automaton.nestedUnion A rest := by
  obtain ⟨B, rest', h', hbranches⟩ := r.exists_branches
  rw [h] at h'
  cases h'
  rw [← Automaton.alternation_eq_nestedUnion hbranches.operands]
  simp only [Regex.build, h, bind, Except.bind]

mutual

theorem Base.exists_dense : ∀ {b : Base}, b.isProper →
    ∃ A, b.build = .ok A ∧ A.Dense (2 * weight b.text) (literals b.text)
  | .plain c, h => by
    have hc : isOperator c = false := by simpa [Base.isProper] using h
    have htokens := tokens_of_not_isOperator hc
    have hliterals : literals [c] = [c] := by simp [literals, htokens, Token.literal?]
    have hweight : weight [c] = 1 := by simp [weight, hliterals, operatorCount, htokens]
    refine ⟨_, rfl, ?_⟩
    rw [Base.text, hliterals, hweight]
    exact Automaton.dense_ofSymbol (.char c)
  | .escaped c, _ => ⟨_, rfl, Automaton.dense_ofSymbol (.char c)⟩
  | .group r, h => by
    obtain ⟨A, rest, C, hbranches, hC, hdense⟩ := Regex.exists_dense_branches (r := r) h
    have hbuild : (Base.group r).build = r.build := by simp only [Base.build, Regex.build]
    have hr := Regex.closed_text (r := r) h
    have hopen : Closed ['('] := .char (by decide)
    refine ⟨C, ?_, ?_⟩
    · rw [hbuild, Regex.build_eq_nestedUnion hbranches, hC]
    · have htext : (Base.group r).text = ['('] ++ (r.text ++ [')']) := rfl
      rw [htext, hopen.weight_append, hr.weight_append, hopen.literals_append, hr.literals_append]
      have hweight : weight ['('] + (weight r.text + weight [')']) = weight r.text + 1 :=
        Nat.add_comm 1 _
      have hliterals : literals ['('] ++ (literals r.text ++ literals [')']) = literals r.text :=
        List.append_nil _
      rw [hweight, hliterals]
      exact hdense

theorem Factor.exists_dense : ∀ {f : Factor}, f.isProper →
    ∃ A, f.build = .ok A ∧ A.Dense (2 * weight f.text) (literals f.text)
  | .once b, h => Base.exists_dense (b := b) h
  | .star f, h => by
    obtain ⟨A, hA, hdense⟩ := Factor.exists_dense (f := f) h
    obtain ⟨C, hC, hstar⟩ := hdense.star
    have hf := Factor.closed_text (f := f) h
    refine ⟨C, ?_, ?_⟩
    · simp only [Factor.build, hA, bind, Except.bind, hC]
    · rw [Factor.text, hf.weight_append, hf.literals_append]
      have hliterals : literals f.text ++ literals ['*'] = literals f.text := List.append_nil _
      rw [hliterals]
      exact hstar

theorem Term.exists_dense : ∀ {t : Term}, t.isProper →
    ∃ A, t.build = .ok A ∧ A.Dense (2 * (weight t.text + 1)) (literals t.text)
  | .empty, _ => ⟨_, rfl, Automaton.dense_ofSymbol .epsilon⟩
  | .snoc t f, h => by
    obtain ⟨ht, hf⟩ := Bool.and_eq_true_iff.1 h
    obtain ⟨A, hA, htdense⟩ := Term.exists_dense ht
    obtain ⟨B, hB, hfdense⟩ := Factor.exists_dense hf
    obtain ⟨C, hC, hdense⟩ := htdense.concat hfdense
    have hclosed := Term.closed_text ht
    refine ⟨C, ?_, ?_⟩
    · simp only [Term.build, hA, hB, bind, Except.bind, hC]
    · have hsize : 2 * (weight t.text + 1) + 2 * weight f.text =
          2 * (weight t.text + weight f.text + 1) := by omega
      rw [Term.text, hclosed.weight_append, hclosed.literals_append, ← hsize]
      exact hdense

theorem Regex.exists_dense_branches : ∀ {r : Regex}, r.isProper →
    ∃ A rest C, r.branches = .ok (A :: rest) ∧ Automaton.nestedUnion A rest = .ok C ∧
      C.Dense (2 * (weight r.text + 1)) (literals r.text)
  | .single t, h => by
    obtain ⟨A, hA, hdense⟩ := Term.exists_dense (t := t) h
    refine ⟨A, [], A, ?_, rfl, hdense⟩
    simp only [Regex.branches, hA, bind, Except.bind, pure, Except.pure]
  | .alt t r, h => by
    simp only [Regex.isProper, Bool.and_eq_true] at h
    obtain ⟨⟨⟨ht, -⟩, hr⟩, -⟩ := h
    obtain ⟨A, hA, htdense⟩ := Term.exists_dense ht
    obtain ⟨B, rest, N, hbranches, hN, hrdense⟩ := Regex.exists_dense_branches hr
    obtain ⟨C, hC, hdense⟩ := htdense.union hrdense
    have hclosed := Term.closed_text ht
    have hbar : Closed ['|'] := .char (by decide)
    refine ⟨A, B :: rest, C, ?_, (Automaton.nestedUnion_cons hN).trans hC, ?_⟩
    · simp only [Regex.branches, hA, hbranches, bind, Except.bind, pure, Except.pure]
    · have htext : (Regex.alt t r).text = t.text ++ (['|'] ++ r.text) := rfl
      have hsize : 2 * (weight t.text + 1) + 2 * (weight r.text + 1) + 2 =
          2 * (weight t.text + (2 + weight r.text) + 1) := by omega
      rw [htext, hclosed.weight_append, hclosed.literals_append, hbar.weight_append,
        hbar.literals_append]
      rw [hsize] at hdense
      exact hdense

end

/-- A compiled pattern has the states `1` to `N` for a number `N` that its tokens determine. The
first is its start, the last its one final state, and its alphabet consists of the characters that
stand for themselves. -/
theorem compile_dense (h : compile p n = .ok A) :
    A.Dense (2 * ((literals p).length + operatorCount '(' p + 2 * operatorCount '|' p + 1))
      (literals p) := by
  obtain ⟨r, hr, hA⟩ := exists_derives_of_compile h
  obtain ⟨B, rest, C, hbranches, hC, hdense⟩ := Regex.exists_dense_branches hr.isProper
  rw [Regex.build_eq_nestedUnion hbranches, hC] at hA
  cases hA
  rw [hr.text_eq] at hdense
  exact hdense

/-- The pattern `\(|(a*)`, whose first parenthesis opens no group. -/
theorem compile_dense_escapedParenthesis :
    ∃ A, compile ['\\', '(', '|', '(', 'a', '*', ')'] 1 = .ok A ∧ A.Dense 12 ['(', 'a'] := by
  have hderives : (Regex.alt (.snoc .empty (.once (.escaped '(')))
      (.single (.snoc .empty (.once (.group (.single
        (.snoc .empty (.star (.once (.plain 'a')))))))))).Derives 1
          ['\\', '(', '|', '(', 'a', '*', ')'] := ⟨rfl, rfl, Nat.le_refl 1⟩
  obtain ⟨A, -, hA⟩ := exists_build_of_derives hderives
  exact ⟨A, hA, compile_dense hA⟩

end PatternAutomata
