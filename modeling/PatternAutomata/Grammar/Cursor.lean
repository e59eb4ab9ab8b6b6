import PatternAutomata.Grammar.Reader

/-!
# Walking through a pattern

A cursor stands somewhere in a pattern. It can look at the next character, take it, or read a whole
production and build its automaton. A call that fails leaves the cursor where reading stopped, which
is the position that the error reports; no call moves it back.
-/

namespace PatternAutomata

/-- A place in a pattern: how much lies before it, the text after it, and the nesting limit. -/
structure Cursor where
  position : Nat
  rest : List Char
  limit : Nat
deriving DecidableEq

inductive Production where
  | base
  | factor
  | term
  | regex
deriving DecidableEq

namespace Cursor

def start (text : List Char) (limit : Nat) : Cursor := ⟨0, text, limit⟩

def isAtEnd (c : Cursor) : Bool := c.rest.isEmpty

def moveTo (c : Cursor) (rest : List Char) : Cursor :=
  { c with position := c.position + (c.rest.length - rest.length), rest }

/-- The error of finding the wrong thing, or nothing, at the cursor. -/
def missing (c : Cursor) (e : Expected) : CompileError :=
  match c.rest with
  | [] => .unexpectedEnd e c.position
  | a :: _ => .unexpected e a c.position

def errorOf (c : Cursor) : Obstacle → CompileError
  | .wanted e => c.missing e
  | .tooDeep => .tooDeep c.limit c.position

def peek (c : Cursor) : Except CompileError Char :=
  match c.rest with
  | [] => .error (c.missing .anyChar)
  | a :: _ => .ok a

def next (c : Cursor) : Except CompileError Char × Cursor :=
  match c.rest with
  | [] => (.error (c.missing .anyChar), c)
  | a :: rest => (.ok a, c.moveTo rest)

def eat (c : Cursor) (expected : Char) : Except CompileError Unit × Cursor :=
  match c.rest with
  | [] => (.error (c.missing (.exactly expected)), c)
  | a :: rest =>
    if a = expected then (.ok (), c.moveTo rest) else (.error (c.missing (.exactly expected)), c)

/-- Builds what was read from the text after the cursor, and moves on to the end of the reading. -/
def accept {τ : Type} (c : Cursor) (build : τ → Except Fault Automaton) (reading : Reading τ) :
    Except CompileError Automaton × Cursor :=
  match reading with
  | .ok (x, rest) => ((build x).mapError .invalid, c.moveTo rest)
  | .error e => (.error ((c.moveTo e.rest).errorOf e.obstacle), c.moveTo e.rest)

/-- Reads a production and builds its automaton. -/
def produce (c : Cursor) : Production → Except CompileError Automaton × Cursor
  | .base => c.accept Base.build (Base.read c.limit c.rest)
  | .factor => c.accept Factor.build (Factor.read c.limit c.rest)
  | .term => c.accept Term.build (Term.read c.limit c.rest)
  | .regex => c.accept Regex.build (Regex.read c.limit c.rest)

/-- The automaton of all the text after the cursor, which has to be one pattern. -/
def parse (c : Cursor) : Except CompileError Automaton :=
  match Regex.read c.limit c.rest with
  | .error e => .error ((c.moveTo e.rest).errorOf e.obstacle)
  | .ok (r, []) => r.build.mapError .invalid
  | .ok (_, rest) => .error ((c.moveTo rest).missing .endOfPattern)

inductive Call where
  | position
  | isAtEnd
  | peek
  | next
  | eat (expected : Char)
  | produce (p : Production)
  | setLimit (limit : Nat)

inductive Answer where
  | done
  | flag (b : Bool)
  | char (c : Char)
  | automaton (A : Automaton)
deriving DecidableEq

/-- Answers a request and moves the cursor. The cursor comes with every answer, so a request for the
position asks for nothing else. -/
def call (c : Cursor) : Call → Except CompileError Answer × Cursor
  | .position => (.ok .done, c)
  | .isAtEnd => (.ok (.flag c.isAtEnd), c)
  | .peek => (c.peek.map .char, c)
  | .next => c.next.map (.map .char) id
  | .eat expected => (c.eat expected).map (.map fun _ => .done) id
  | .produce p => (c.produce p).map (.map .automaton) id
  | .setLimit limit => (.ok .done, { c with limit })

def session (c : Cursor) : List Call → List (Except CompileError Answer × Cursor)
  | [] => []
  | request :: requests =>
    let answer := c.call request
    answer :: answer.2.session requests

end Cursor

end PatternAutomata
