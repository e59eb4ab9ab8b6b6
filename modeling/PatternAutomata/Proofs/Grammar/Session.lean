import PatternAutomata.Proofs.Grammar.Descent

/-!
# Sessions leave no trace

In a session any requests follow each other, and some of them may fail. Each call moves on along the
text or stays, so the cursor always stands in the pattern where its position says. What a production
does then depends on the text that is left and on the limit only: it is what a new start on that
text gives, with all positions counted from where the cursor stands.
-/

namespace PatternAutomata

/-- The same error with `k` more characters before the text. -/
def CompileError.shift (k : Nat) : CompileError → CompileError
  | unexpected expected actual position => .unexpected expected actual (k + position)
  | unexpectedEnd expected position => .unexpectedEnd expected (k + position)
  | tooDeep limit position => .tooDeep limit (k + position)
  | invalid fault => .invalid fault

namespace Cursor

variable {c : Cursor} {text s : List Char} {k : Nat}

def shift (k : Nat) (c : Cursor) : Cursor := { c with position := k + c.position }

theorem shift_start (c : Cursor) : (start c.rest c.limit).shift c.position = c := rfl

theorem moveTo_shift (c : Cursor) (k : Nat) (s : List Char) :
    (c.shift k).moveTo s = (c.moveTo s).shift k := by
  simp only [shift, moveTo, Nat.add_assoc]

theorem missing_shift (c : Cursor) (k : Nat) (e : Expected) :
    (c.shift k).missing e = (c.missing e).shift k := by
  unfold missing shift
  cases c.rest <;> rfl

theorem errorOf_shift (c : Cursor) (k : Nat) (o : Obstacle) :
    (c.shift k).errorOf o = (c.errorOf o).shift k := by
  cases o with
  | wanted e => exact missing_shift c k e
  | tooDeep => rfl

theorem mapError_shift_invalid (x : Except Fault Automaton) :
    (x.mapError .invalid).mapError (CompileError.shift k) = x.mapError .invalid := by
  cases x <;> rfl

theorem accept_shift {τ : Type} (c : Cursor) (k : Nat) (build : τ → Except Fault Automaton)
    (reading : Reading τ) : (c.shift k).accept build reading =
      (c.accept build reading).map (.mapError (.shift k)) (.shift k) := by
  cases reading with
  | error e =>
    simp only [accept, moveTo_shift, errorOf_shift]
    rfl
  | ok x =>
    simp only [accept, moveTo_shift, Prod.map, mapError_shift_invalid]

theorem produce_shift (c : Cursor) (k : Nat) (p : Production) :
    (c.shift k).produce p = (c.produce p).map (.mapError (.shift k)) (.shift k) := by
  cases p <;> exact accept_shift c k _ _

theorem parse_shift (c : Cursor) (k : Nat) : (c.shift k).parse = c.parse.mapError (.shift k) := by
  have hread : Regex.read (c.shift k).limit (c.shift k).rest = Regex.read c.limit c.rest := rfl
  unfold parse
  rw [hread]
  rcases Regex.read c.limit c.rest with e | ⟨r, _ | ⟨a, s⟩⟩
  · simp only [moveTo_shift, errorOf_shift]
    rfl
  · exact (mapError_shift_invalid _).symm
  · simp only [moveTo_shift, missing_shift]
    rfl

structure StandsIn (c : Cursor) (text : List Char) : Prop where
  position_le : c.position ≤ text.length
  rest_eq : c.rest = text.drop c.position

theorem StandsIn.moveTo (h : c.StandsIn text) (hs : s <:+ c.rest) : (c.moveTo s).StandsIn text := by
  have hlength : c.rest.length = text.length - c.position := by rw [h.rest_eq, List.length_drop]
  have hle := h.position_le
  constructor
  · change c.position + (c.rest.length - s.length) ≤ text.length
    omega
  · change s = text.drop (c.position + (c.rest.length - s.length))
    rw [← List.drop_drop, ← h.rest_eq]
    exact List.suffix_iff_eq_drop.1 hs

theorem exists_accept_eq {τ : Type} {read : List Char → Reading τ} (hread : LeavesEnd read)
    (c : Cursor) (build : τ → Except Fault Automaton) :
    ∃ s, s <:+ c.rest ∧ (c.accept build (read c.rest)).2 = c.moveTo s := by
  cases hr : read c.rest with
  | error e => exact ⟨e.rest, hread.error hr, rfl⟩
  | ok x => exact ⟨x.2, hread.ok hr, rfl⟩

theorem exists_produce_eq (c : Cursor) (p : Production) :
    ∃ s, s <:+ c.rest ∧ (c.produce p).2 = c.moveTo s := by
  have hbase := leavesEnd_baseReader c.limit
  cases p with
  | base => exact exists_accept_eq hbase c Base.build
  | factor => exact exists_accept_eq (leavesEnd_readFactor hbase) c Factor.build
  | term => exact exists_accept_eq (leavesEnd_readTerm hbase .empty) c Term.build
  | regex => exact exists_accept_eq (leavesEnd_readRegex hbase) c Regex.build

/-- All that one call can do to a cursor: it moves on along the text, or sets the limit. -/
theorem exists_call_eq (c : Cursor) (request : Call) : ∃ s limit, s <:+ c.rest ∧
    (c.call request).2 = { c.moveTo s with limit } := by
  have hstays : ∃ s limit, s <:+ c.rest ∧ c = { c.moveTo s with limit } :=
    ⟨c.rest, c.limit, List.suffix_rfl, by rw [moveTo_rest]⟩
  cases request with
  | position => exact hstays
  | isAtEnd => exact hstays
  | peek => exact hstays
  | next =>
    simp only [call, next]
    split
    · exact hstays
    · next a s hrest => exact ⟨s, c.limit, hrest ▸ List.suffix_cons a s, rfl⟩
  | eat expected =>
    simp only [call, eat]
    split
    · exact hstays
    · next a s hrest =>
      split_ifs
      · exact ⟨s, c.limit, hrest ▸ List.suffix_cons a s, rfl⟩
      · exact hstays
  | produce p =>
    obtain ⟨s, hs, hproduce⟩ := exists_produce_eq c p
    exact ⟨s, c.limit, hs, hproduce⟩
  | setLimit limit => exact ⟨c.rest, limit, List.suffix_rfl, by rw [moveTo_rest]; rfl⟩

theorem StandsIn.call (h : c.StandsIn text) (request : Call) :
    (c.call request).2.StandsIn text := by
  obtain ⟨s, limit, hs, heq⟩ := exists_call_eq c request
  have hmove := h.moveTo hs
  rw [heq]
  exact ⟨hmove.position_le, hmove.rest_eq⟩

theorem position_le_call (c : Cursor) (request : Call) :
    c.position ≤ (c.call request).2.position := by
  obtain ⟨s, limit, -, heq⟩ := exists_call_eq c request
  rw [heq]
  exact Nat.le_add_right _ _

/-- The cursors of a session: at its start and after each call. -/
def visited (c : Cursor) (requests : List Call) : List Cursor :=
  c :: (c.session requests).map Prod.snd

theorem visited_cons (c : Cursor) (request : Call) (requests : List Call) :
    c.visited (request :: requests) = c :: (c.call request).2.visited requests := rfl

theorem StandsIn.visited (h : c.StandsIn text) (requests : List Call) :
    ∀ c' ∈ c.visited requests, c'.StandsIn text ∧ c.position ≤ c'.position := by
  induction requests generalizing c with
  | nil =>
    intro c' hc'
    rw [List.mem_singleton.1 hc']
    exact ⟨h, Nat.le_refl _⟩
  | cons request requests ih =>
    rw [visited_cons]
    refine List.forall_mem_cons.2 ⟨⟨h, Nat.le_refl _⟩, fun c' hc' => ?_⟩
    obtain ⟨hstands, hle⟩ := ih (h.call request) c' hc'
    exact ⟨hstands, (position_le_call c request).trans hle⟩

theorem pairwise_visited (h : c.StandsIn text) (requests : List Call) :
    (c.visited requests).Pairwise fun c' c'' => c'.position ≤ c''.position := by
  induction requests generalizing c with
  | nil => exact List.pairwise_singleton _ _
  | cons request requests ih =>
    rw [visited_cons]
    refine List.pairwise_cons.2 ⟨fun c' hc' => ?_, ih (h.call request)⟩
    exact (position_le_call c request).trans ((h.call request).visited requests c' hc').2

theorem standsIn_start (text : List Char) (limit : Nat) : (start text limit).StandsIn text :=
  ⟨Nat.zero_le _, rfl⟩

end Cursor

namespace Descent

variable {d : Descent} {text : List Char}

def shift (k : Nat) (d : Descent) : Descent := { d with toCursor := d.toCursor.shift k }

def visited (d : Descent) (requests : List Cursor.Call) : List Descent :=
  d :: (d.session requests).map Prod.snd

/-- The descent stands in the text with no group open, and reads on as if it had been started on the
text that is left, with positions counted from where it stands. -/
structure Restarts (d : Descent) (text : List Char) : Prop where
  position_le : d.position ≤ text.length
  rest_eq : d.rest = text.drop d.position
  opened_eq : d.opened = 0
  produce_eq : ∀ p, d.produce p =
    ((start d.rest d.limit).produce p).map (.mapError (.shift d.position)) (.shift d.position)
  parse_eq : d.parse = (start d.rest d.limit).parse.mapError (.shift d.position)

theorem restarts (h : d.opened = 0) (hstands : d.toCursor.StandsIn text) : d.Restarts text where
  position_le := hstands.position_le
  rest_eq := hstands.rest_eq
  opened_eq := h
  produce_eq p := by
    have hshift := Cursor.produce_shift (.start d.rest d.limit) d.position p
    rw [Cursor.shift_start] at hshift
    rw [Descent.produce_eq h, Descent.produce_eq (d := start d.rest d.limit) rfl, hshift]
    simp only [lift, h]
    rfl
  parse_eq := by
    have hshift := Cursor.parse_shift (.start d.rest d.limit) d.position
    rw [Cursor.shift_start] at hshift
    rw [Descent.parse_eq h, Descent.parse_eq (d := start d.rest d.limit) rfl, hshift]
    rfl

theorem visited_eq (h : d.opened = 0) (requests : List Cursor.Call) :
    d.visited requests = (d.toCursor.visited requests).map (⟨·, 0⟩) := by
  have hd : d = ⟨d.toCursor, 0⟩ := by rw [← h]
  rw [visited, session_eq h, Cursor.visited, List.map_cons, ← hd, List.map_map, List.map_map]
  rfl

end Descent

/-- In a session on a text, whatever is asked and whatever fails, the answers are those of the
cursor, the position never goes back, and wherever the session stands it goes on as a new one on the
rest of the text would. -/
theorem restarts_of_session (text : List Char) (limit : Nat) (requests : List Cursor.Call) :
    ((Descent.start text limit).session requests).map
          (fun answer => (answer.1, answer.2.toCursor)) =
        (Cursor.start text limit).session requests ∧
      ((Descent.start text limit).visited requests).Pairwise
        (fun d d' => d.position ≤ d'.position) ∧
      ∀ d ∈ (Descent.start text limit).visited requests, d.Restarts text := by
  have hstands := Cursor.standsIn_start text limit
  refine ⟨?_, ?_, ?_⟩
  · rw [Descent.session_eq rfl, List.map_map]
    exact List.map_id _
  · rw [Descent.visited_eq rfl, List.pairwise_map]
    exact Cursor.pairwise_visited hstands requests
  · intro d hd
    rw [Descent.visited_eq rfl] at hd
    obtain ⟨c, hc, rfl⟩ := List.mem_map.1 hd
    exact Descent.restarts rfl (hstands.visited requests c hc).1

end PatternAutomata
