import PatternAutomata.Grammar.Cursor

/-!
# Descending into a pattern

A descent goes through a pattern once and builds the automata while it reads. It counts the groups
that are open around it: the count goes up before the content of a group and down after it, whether
the content could be read or not. The productions call each other as in the grammar. That they come
to an end shows in their results: whatever gives an automaton leaves no more text than there was,
and less of it if the production cannot be empty.
-/

namespace PatternAutomata

/-- A cursor and the number of groups that are open around it. -/
structure Descent extends Cursor where
  opened : Nat
deriving DecidableEq

namespace Descent

abbrev Outcome := Except CompileError Automaton × Descent

/-- What a production gives from `d` on. If it is an automaton, then no more text is left than
before. -/
structure Advance (d : Descent) where
  outcome : Outcome
  length_le : outcome.1.isOk → outcome.2.rest.length ≤ d.rest.length

/-- What a production gives that cannot be empty. If it is an automaton, then less text is left than
before. -/
structure Progress (d : Descent) where
  outcome : Outcome
  length_lt : outcome.1.isOk → outcome.2.rest.length < d.rest.length

def Advance.ofLe {d d' : Descent} (r : Advance d') (h : d'.rest.length ≤ d.rest.length) :
    Advance d :=
  ⟨r.outcome, fun hr => Nat.le_trans (r.length_le hr) h⟩

def Advance.ofLt {d d' : Descent} (r : Advance d') (h : d'.rest.length < d.rest.length) :
    Progress d :=
  ⟨r.outcome, fun hr => Nat.lt_of_le_of_lt (r.length_le hr) h⟩

def start (text : List Char) (limit : Nat) : Descent := ⟨.start text limit, 0⟩

def lift {τ : Type} (d : Descent) (answer : τ × Cursor) : τ × Descent :=
  (answer.1, { d with toCursor := answer.2 })

def goTo (d : Descent) (rest : List Char) : Descent := { d with toCursor := d.moveTo rest }

def enter (d : Descent) : Descent := { d with opened := d.opened + 1 }

def leave (d : Descent) : Descent := { d with opened := d.opened - 1 }

/-- Fails unless the parenthesis that closes the group follows. -/
def close (d : Descent) (group : Automaton) : Outcome :=
  d.lift ((d.eat ')').map (.map fun _ => group) id)

def literal (d : Descent) : Outcome :=
  d.lift (d.next.map (.map fun c => .ofSymbol (.char c)) id)

@[simp] theorem rest_goTo (d : Descent) (rest : List Char) : (d.goTo rest).rest = rest := rfl

theorem length_lt_of_close {d : Descent} {A : Automaton} (h : (d.close A).1.isOk) :
    (d.close A).2.rest.length < d.rest.length := by
  unfold close lift Cursor.eat at *
  split at h
  · cases h
  · next hrest =>
    split at h
    · next hc => simp [hrest, hc, Cursor.moveTo]
    · cases h

theorem length_lt_of_literal {d : Descent} (h : d.literal.1.isOk) :
    d.literal.2.rest.length < d.rest.length := by
  unfold literal lift Cursor.next at *
  split at h
  · cases h
  · next hrest => simp [hrest, Cursor.moveTo]

theorem length_lt_of_cons {d d' : Descent} {c : Char} {s : List Char} (hrest : d.rest = c :: s)
    (h : d'.rest.length ≤ s.length) : d'.rest.length < d.rest.length := by
  rw [hrest]
  exact Nat.lt_succ_of_le h

/-- Iterates `A` once for each star. -/
def stars (A : Automaton) (d : Descent) : Advance d :=
  match hrest : d.rest with
  | [] => ⟨(.ok A, d), fun _ => Nat.le_refl _⟩
  | c :: s =>
    if c = '*' then
      match A.star with
      | .error fault => ⟨(.error (.invalid fault), d.goTo s), nofun⟩
      | .ok B => (stars B (d.goTo s)).ofLe (Nat.le_of_lt (length_lt_of_cons hrest (Nat.le_refl _)))
    else ⟨(.ok A, d), fun _ => Nat.le_refl _⟩
termination_by d.rest.length
decreasing_by exact length_lt_of_cons hrest (Nat.le_refl _)

mutual

def base (d : Descent) : Progress d :=
  match hrest : d.rest with
  | [] => ⟨(.error (d.missing .anyChar), d), nofun⟩
  | c :: s =>
    if c = '(' then
      if d.limit ≤ d.opened then ⟨(.error (.tooDeep d.limit d.position), d), nofun⟩
      else
        match regex [] (d.goTo s).enter with
        | ⟨(.error e, d'), _⟩ => ⟨(.error e, d'.leave), nofun⟩
        | ⟨(.ok A, d'), h⟩ => ⟨d'.leave.close A, fun hclose =>
          length_lt_of_cons hrest (Nat.le_trans (Nat.le_of_lt (length_lt_of_close hclose)) (h rfl))⟩
    else if c = '\\' then
      ⟨(d.goTo s).literal, fun h => length_lt_of_cons hrest (Nat.le_of_lt (length_lt_of_literal h))⟩
    else if isOperator c then ⟨(.error (d.missing .atom), d), nofun⟩
    else ⟨d.literal, length_lt_of_literal⟩
termination_by (d.rest.length, 0)
decreasing_by exact .left _ _ (length_lt_of_cons hrest (Nat.le_refl _))

def factor (d : Descent) : Progress d :=
  match base d with
  | ⟨(.error e, d'), _⟩ => ⟨(.error e, d'), nofun⟩
  | ⟨(.ok A, d'), h⟩ => (stars A d').ofLt (h rfl)
termination_by (d.rest.length, 1)

def term (A : Automaton) (d : Descent) : Advance d :=
  if endsTerm d.rest then ⟨(.ok A, d), fun _ => Nat.le_refl _⟩
  else
    match factor d with
    | ⟨(.error e, d'), _⟩ => ⟨(.error e, d'), nofun⟩
    | ⟨(.ok B, d'), h⟩ =>
      match A.concat B with
      | .error fault => ⟨(.error (.invalid fault), d'), nofun⟩
      | .ok C => (term C d').ofLe (Nat.le_of_lt (h rfl))
termination_by (d.rest.length, 2)
decreasing_by
  · exact .right _ (by decide)
  · exact .left _ _ (h rfl)

/-- Joins the terms that follow to the branches before them. A term is empty if it takes no
character. -/
def regex (branches : List Automaton) (d : Descent) : Advance d :=
  match term .emptyWord d with
  | ⟨(.error e, d'), _⟩ => ⟨(.error e, d'), nofun⟩
  | ⟨(.ok A, d'), h⟩ =>
    match hrest : d'.rest with
    | '|' :: s =>
      if d'.position = d.position then ⟨(.error (d'.missing .branch), d'), nofun⟩
      else if endsTerm s then ⟨(.error ((d'.goTo s).missing .branch), d'.goTo s), nofun⟩
      else
        (regex (branches ++ [A]) (d'.goTo s)).ofLe
          (Nat.le_trans (Nat.le_of_lt (length_lt_of_cons hrest (Nat.le_refl _))) (h rfl))
    | _ => ⟨((Automaton.alternation (branches ++ [A])).mapError .invalid, d'), fun _ => h rfl⟩
termination_by (d.rest.length, 3)
decreasing_by
  · exact .right _ (by decide)
  · exact .left _ _ (Nat.lt_of_lt_of_le (length_lt_of_cons hrest (Nat.le_refl _)) (h rfl))

end

def produce (d : Descent) : Production → Outcome
  | .base => d.base.outcome
  | .factor => d.factor.outcome
  | .term => (d.term .emptyWord).outcome
  | .regex => (d.regex []).outcome

def parse (d : Descent) : Except CompileError Automaton :=
  match d.produce .regex with
  | (.error e, _) => .error e
  | (.ok A, d) => if d.isAtEnd then .ok A else .error (d.missing .endOfPattern)

/-- Answers a request. Only the productions count groups; the cursor answers the rest. -/
def call (d : Descent) : Cursor.Call → Except CompileError Cursor.Answer × Descent
  | .produce p => (d.produce p).map (.map .automaton) id
  | request => d.lift (d.toCursor.call request)

def session (d : Descent) :
    List Cursor.Call → List (Except CompileError Cursor.Answer × Descent)
  | [] => []
  | request :: requests =>
    let answer := d.call request
    answer :: answer.2.session requests

end Descent

end PatternAutomata
