import PatternAutomata.Error
import PatternAutomata.Grammar.Tree

/-!
# Reading pattern text

One reader for each production of the grammar takes the start of a text and gives a tree with the
text that is left, or the place where it stopped and why. Only groups recurse: the reader of bases
is defined by recursion on how many groups may still be opened. Within one level the text gets
shorter, because a base that is read has consumed at least one character.
-/

namespace PatternAutomata

/-- What stands in the way of a reader. -/
inductive Obstacle where
  | wanted (e : Expected)
  /-- A parenthesis that would open one group too many. -/
  | tooDeep
deriving DecidableEq

/-- Why reading stopped, and the text from there on. -/
structure Failure where
  obstacle : Obstacle
  rest : List Char
deriving DecidableEq

abbrev Reading (τ : Type) := Except Failure (τ × List Char)

/-- A reader that shortens the text whenever it succeeds. -/
structure Consuming (τ : Type) where
  read : List Char → Reading τ
  shortens : ∀ {s x rest}, read s = .ok (x, rest) → rest.length < s.length

/-- Whether a term ends here: at the end of the text, a closing parenthesis or a bar. -/
def endsTerm : List Char → Bool
  | [] => true
  | c :: _ => c == ')' || c == '|'

/-- A base, where `content` reads what stands in a group, if groups are allowed. -/
def readBase (content : Option (List Char → Reading Regex)) : List Char → Reading Base
  | [] => .error ⟨.wanted .anyChar, []⟩
  | c :: s =>
    if c = '(' then
      match content with
      | none => .error ⟨.tooDeep, c :: s⟩
      | some read =>
        match read s with
        | .error e => .error e
        | .ok (r, ')' :: rest) => .ok (.group r, rest)
        | .ok (_, rest) => .error ⟨.wanted (.exactly ')'), rest⟩
    else if c = '\\' then
      match s with
      | [] => .error ⟨.wanted .anyChar, []⟩
      | d :: rest => .ok (.escaped d, rest)
    else if isOperator c then .error ⟨.wanted .atom, c :: s⟩
    else .ok (.plain c, s)

/-- Puts as many stars on a factor as the text begins with. -/
def readStars (f : Factor) : List Char → Factor × List Char
  | [] => (f, [])
  | c :: s => if c = '*' then readStars (.star f) s else (f, c :: s)

def readFactor (base : Consuming Base) (s : List Char) : Reading Factor :=
  match base.read s with
  | .error e => .error e
  | .ok (b, rest) => .ok (readStars (.once b) rest)

theorem length_readStars_le (f : Factor) (s : List Char) :
    (readStars f s).2.length ≤ s.length := by
  induction s generalizing f with
  | nil => simp [readStars]
  | cons c s ih =>
    simp only [readStars]
    split
    · exact Nat.le_succ_of_le (ih _)
    · exact Nat.le_refl _

theorem length_lt_of_readFactor {base : Consuming Base} {s rest : List Char} {f : Factor}
    (h : readFactor base s = .ok (f, rest)) : rest.length < s.length := by
  unfold readFactor at h
  split at h
  · cases h
  · next b r hb =>
    have hle := length_readStars_le (.once b) r
    rw [Except.ok.inj h] at hle
    exact Nat.lt_of_le_of_lt hle (base.shortens hb)

def readTerm (base : Consuming Base) (t : Term) (s : List Char) : Reading Term :=
  if endsTerm s then .ok (t, s)
  else
    match _h : readFactor base s with
    | .error e => .error e
    | .ok (f, rest) => readTerm base (.snoc t f) rest
termination_by s.length
decreasing_by exact length_lt_of_readFactor (by assumption)

theorem length_le_of_readTerm {base : Consuming Base} {t u : Term} {s rest : List Char}
    (h : readTerm base t s = .ok (u, rest)) : rest.length ≤ s.length := by
  fun_induction readTerm base t s with
  | case1 t s hs =>
    cases h
    exact Nat.le_refl _
  | case2 => cases h
  | case3 t s _ f r hf ih => exact Nat.le_trans (ih h) (Nat.le_of_lt (length_lt_of_readFactor hf))

/-- Terms with bars between them. Beside a bar no term may be empty: a bar at the start of a term is
refused, and so is anything that ends a term right after a bar. -/
def readRegex (base : Consuming Base) (s : List Char) : Reading Regex :=
  match _h : readTerm base .empty s with
  | .error e => .error e
  | .ok (t, '|' :: rest) =>
    if t.isEmpty then .error ⟨.wanted .branch, '|' :: rest⟩
    else if endsTerm rest then .error ⟨.wanted .branch, rest⟩
    else
      match readRegex base rest with
      | .error e => .error e
      | .ok (r, rest) => .ok (.alt t r, rest)
  | .ok (t, rest) => .ok (.single t, rest)
termination_by s.length
decreasing_by exact length_le_of_readTerm (by assumption)

theorem length_le_of_readRegex {base : Consuming Base} {s rest : List Char} {r : Regex}
    (h : readRegex base s = .ok (r, rest)) : rest.length ≤ s.length := by
  fun_induction readRegex base s generalizing r rest with
  | case1 => cases h
  | case2 => cases h
  | case3 => cases h
  | case4 => cases h
  | case5 s t rest' ht _ _ r' rest'' hr ih =>
    cases h
    exact Nat.le_trans (ih hr) (Nat.le_of_lt (length_le_of_readTerm ht))
  | case6 s t rest' _ ht =>
    cases h
    exact length_le_of_readTerm ht

theorem length_lt_of_readBase {content : Option (List Char → Reading Regex)}
    (hc : ∀ read, content = some read → ∀ {s r rest}, read s = .ok (r, rest) →
      rest.length ≤ s.length)
    {s rest : List Char} {b : Base} (h : readBase content s = .ok (b, rest)) :
    rest.length < s.length := by
  unfold readBase at h
  grind

/-- A base in which at most `n` groups may be open at once. The reader of a group's content is only
made when a group is opened, so that a large limit costs nothing. -/
def baseReader : Nat → Consuming Base
  | 0 => ⟨readBase none, length_lt_of_readBase (by simp)⟩
  | n + 1 =>
    ⟨readBase (some fun s => readRegex (baseReader n) s), length_lt_of_readBase (by
      rintro _ ⟨rfl⟩
      exact length_le_of_readRegex)⟩

def Base.read (limit : Nat) : List Char → Reading Base := (baseReader limit).read

def Factor.read (limit : Nat) : List Char → Reading Factor := readFactor (baseReader limit)

def Term.read (limit : Nat) : List Char → Reading Term := readTerm (baseReader limit) .empty

def Regex.read (limit : Nat) : List Char → Reading Regex := readRegex (baseReader limit)

end PatternAutomata
