import PatternAutomata.Proofs.Obtainable

/-!
# Sequences of operations

A workspace holds the automata obtained so far. An operation names the automata that it works on by
their places and adds one more, or it fails and adds none. What sequences of operations lead to is
exactly what can be obtained: every step keeps to obtainable automata, and two sequences can be
carried out one after the other, with the places of the second moved on. So in every automaton of
every workspace the states that are named anywhere are states, and the characters on the edges are
in the alphabet.
-/

namespace PatternAutomata

/-- A change to one automaton. None of them can fail. -/
inductive Edit where
  | setStart (q : State)
  | addFinals (l : List State)
  | addTransition (p q : State) (labels : Labels)
  | addSymbol (p q : State) (a : Symbol)
  | addEpsilon (p q : State)
  | addEdges (t : Transitions)

def Edit.apply (A : Automaton) : Edit → Automaton
  | setStart q => A.setStart q
  | addFinals l => A.addFinals l
  | addTransition p q labels => A.addTransition p q labels
  | addSymbol p q a => A.addSymbol p q a
  | addEpsilon p q => A.addEpsilon p q
  | addEdges t => A.addEdges t

/-- A request for one more automaton. -/
inductive Operation where
  | ofAlphabet (alphabet : Alphabet)
  | ofSymbol (a : Symbol)
  | emptyWord
  | compile (text : List Char) (limit : Nat)
  | produce (c : Cursor) (p : Production)
  | parse (c : Cursor)
  | edit (place : Nat) (e : Edit)
  | shift (place k : Nat)
  | concat (left right : Nat)
  | union (left right : Nat)
  | alternation (places : List Nat)
  | star (place : Nat)
  | determinize (place : Nat)

/-- The same request with every place moved on by `k`. -/
def Operation.moveOn (k : Nat) : Operation → Operation
  | edit i e => edit (i + k) e
  | shift i m => shift (i + k) m
  | concat i j => concat (i + k) (j + k)
  | union i j => union (i + k) (j + k)
  | alternation places => alternation (places.map (· + k))
  | star i => star (i + k)
  | determinize i => determinize (i + k)
  | op => op

/-- The automata obtained so far, in the order in which they were. -/
abbrev Workspace := List Automaton

namespace Workspace

/-- The automaton at a place; where there is none, the one without states. -/
def entry (W : Workspace) (i : Nat) : Automaton := W[i]?.getD ∅

def perform (W : Workspace) : Operation → Except CompileError Automaton
  | .ofAlphabet alphabet => .ok (.ofAlphabet alphabet)
  | .ofSymbol a => .ok (.ofSymbol a)
  | .emptyWord => .ok .emptyWord
  | .compile text limit => compile text limit
  | .produce c p => (c.produce p).1
  | .parse c => c.parse
  | .edit i e => .ok (e.apply (W.entry i))
  | .shift i k => .ok ((W.entry i).shift k)
  | .concat i j => ((W.entry i).concat (W.entry j)).mapError .invalid
  | .union i j => ((W.entry i).union (W.entry j)).mapError .invalid
  | .alternation places => (Automaton.alternation (places.map W.entry)).mapError .invalid
  | .star i => (W.entry i).star.mapError .invalid
  | .determinize i => (determinize (W.entry i)).map Dfa.automaton

/-- Carries out one request after another. A request that fails changes nothing. -/
def run (W : Workspace) : List Operation → Workspace
  | [] => W
  | op :: ops =>
    match W.perform op with
    | .ok A => run (W ++ [A]) ops
    | .error _ => run W ops

variable {V W : Workspace} {A : Automaton} {op : Operation} {ops : List Operation}

theorem obtainable_entry (hW : ∀ A ∈ W, A.Obtainable) (i : Nat) : (W.entry i).Obtainable := by
  unfold entry
  cases hi : W[i]? with
  | none => exact .ofAlphabet ∅
  | some A => exact hW A (List.mem_of_getElem? hi)

theorem obtainable_edit (hA : A.Obtainable) (e : Edit) : (e.apply A).Obtainable := by
  cases e with
  | setStart q => exact hA.setStart q
  | addFinals l => exact hA.addFinals l
  | addTransition p q labels => exact hA.addTransition p q labels
  | addSymbol p q a => exact hA.addSymbol p q a
  | addEpsilon p q => exact hA.addEpsilon p q
  | addEdges t => exact hA.addEdges t

theorem obtainable_of_mem_nil : ∀ A ∈ ([] : Workspace), A.Obtainable :=
  fun _ hA => absurd hA List.not_mem_nil

theorem obtainable_of_perform (hW : ∀ A ∈ W, A.Obtainable) (h : W.perform op = .ok A) :
    A.Obtainable := by
  have hentry := obtainable_entry hW
  cases op with
  | ofAlphabet alphabet =>
    cases h
    exact .ofAlphabet alphabet
  | ofSymbol a =>
    cases h
    exact .ofSymbol a
  | emptyWord =>
    cases h
    exact .emptyWord
  | compile text limit => exact .compile h
  | produce c p => exact .produce h
  | parse c => exact .parse h
  | edit i e =>
    cases h
    exact obtainable_edit (hentry i) e
  | shift i k =>
    cases h
    exact (hentry i).shift k
  | concat i j => exact (hentry i).concat (hentry j) (eq_ok_of_mapError h)
  | union i j => exact (hentry i).union (hentry j) (eq_ok_of_mapError h)
  | alternation places =>
    refine .alternation (fun B hB => ?_) (eq_ok_of_mapError h)
    obtain ⟨i, -, rfl⟩ := List.mem_map.1 hB
    exact hentry i
  | star i => exact (hentry i).star (eq_ok_of_mapError h)
  | determinize i =>
    simp only [perform] at h
    cases hD : PatternAutomata.determinize (W.entry i) with
    | error e =>
      rw [hD] at h
      cases h
    | ok D =>
      rw [hD] at h
      cases h
      exact (hentry i).determinize hD

theorem obtainable_of_mem_run (hW : ∀ A ∈ W, A.Obtainable) (h : A ∈ W.run ops) :
    A.Obtainable := by
  induction ops generalizing W with
  | nil => exact hW A h
  | cons op ops ih =>
    unfold run at h
    split at h
    · next B hB =>
      have hnext : ∀ A ∈ W ++ [B], A.Obtainable := by
        intro C hC
        rcases List.mem_append.1 hC with hC | hC
        · exact hW C hC
        · rw [List.mem_singleton.1 hC]
          exact obtainable_of_perform hW hB
      exact ih hnext h
    · exact ih hW h

theorem entry_append (i : Nat) : entry (V ++ W) (i + V.length) = W.entry i := by
  rw [entry, List.getElem?_append_right (Nat.le_add_left _ i), Nat.add_sub_cancel, entry]

theorem perform_moveOn (op : Operation) :
    perform (V ++ W) (op.moveOn V.length) = W.perform op := by
  cases op with
  | alternation places =>
    have hentries : (places.map (· + V.length)).map (entry (V ++ W)) = places.map W.entry := by
      rw [List.map_map]
      exact List.map_congr_left fun i _ => entry_append i
    simp only [Operation.moveOn, perform, hentries]
  | _ => simp only [Operation.moveOn, perform, entry_append]

theorem run_moveOn (ops : List Operation) :
    run (V ++ W) (ops.map (.moveOn V.length)) = V ++ W.run ops := by
  induction ops generalizing W with
  | nil => rfl
  | cons op ops ih =>
    rw [List.map_cons, run, run, perform_moveOn]
    cases W.perform op with
    | error e => exact ih
    | ok A =>
      have hnext := ih (W := W ++ [A])
      rwa [← List.append_assoc] at hnext

theorem run_append (ops ops' : List Operation) : W.run (ops ++ ops') = run (W.run ops) ops' := by
  induction ops generalizing W with
  | nil => rfl
  | cons op ops ih =>
    rw [List.cons_append, run, run]
    cases W.perform op with
    | error e => exact ih
    | ok A => exact ih

/-- The results of one sequence, followed by those of another one. -/
theorem exists_run_eq_append (ops ops' : List Operation) :
    ∃ all, run [] all = run [] ops ++ run [] ops' := by
  refine ⟨ops ++ ops'.map (.moveOn (run [] ops).length), ?_⟩
  have hmoved := run_moveOn (V := run [] ops) (W := []) ops'
  rw [List.append_nil] at hmoved
  rw [run_append, hmoved]

/-- Some sequence of requests leads to a workspace with these automata. -/
def Reach (l : List Automaton) : Prop := ∃ ops, ∀ A ∈ l, A ∈ run [] ops

theorem reach_of_forall {l : List Automaton} (h : ∀ A ∈ l, Reach [A]) : Reach l := by
  induction l with
  | nil => exact ⟨[], nofun⟩
  | cons A l ih =>
    obtain ⟨hA, hl⟩ := List.forall_mem_cons.1 h
    obtain ⟨ops, hops⟩ := hA
    obtain ⟨ops', hops'⟩ := ih hl
    obtain ⟨all, hall⟩ := exists_run_eq_append ops ops'
    refine ⟨all, List.forall_mem_cons.2 ⟨?_, fun B hB => ?_⟩⟩
    · rw [hall]
      exact List.mem_append_left _ (hops A List.mem_cons_self)
    · rw [hall]
      exact List.mem_append_right _ (hops' B hB)

theorem exists_places {l : List Automaton} (h : ∀ A ∈ l, A ∈ W) :
    ∃ places : List Nat, places.map W.entry = l := by
  induction l with
  | nil => exact ⟨[], rfl⟩
  | cons A l ih =>
    obtain ⟨hA, hl⟩ := List.forall_mem_cons.1 h
    obtain ⟨places, hplaces⟩ := ih hl
    obtain ⟨i, hi⟩ := List.mem_iff_getElem?.1 hA
    refine ⟨i :: places, ?_⟩
    rw [List.map_cons, hplaces, entry, hi, Option.getD_some]

theorem Reach.perform {l : List Automaton} (hl : ∀ B ∈ l, Reach [B]) (op : List Nat → Operation)
    (h : ∀ W : Workspace, ∀ places, places.map W.entry = l → W.perform (op places) = .ok A) :
    Reach [A] := by
  obtain ⟨ops, hops⟩ := reach_of_forall hl
  obtain ⟨places, hplaces⟩ := exists_places hops
  refine ⟨ops ++ [op places], fun B hB => ?_⟩
  rw [List.mem_singleton.1 hB, run_append]
  simp [run, h _ _ hplaces]

theorem Reach.of_perform (op : Operation) (h : ∀ W : Workspace, W.perform op = .ok A) :
    Reach [A] :=
  .perform (l := []) nofun (fun _ => op) fun W _ _ => h W

theorem Reach.perform_one {B : Automaton} (hB : Reach [B]) (op : Nat → Operation)
    (h : ∀ W : Workspace, ∀ i, W.entry i = B → W.perform (op i) = .ok A) : Reach [A] := by
  refine .perform (l := [B]) (by simpa using hB) (fun places => op (places.headD 0)) ?_
  intro W places hplaces
  obtain ⟨i, rfl⟩ := List.length_eq_one_iff.1 (by simpa using congrArg List.length hplaces)
  exact h W i (by simpa using hplaces)

theorem Reach.perform_two {B C : Automaton} (hB : Reach [B]) (hC : Reach [C])
    (op : Nat → Nat → Operation)
    (h : ∀ W : Workspace, ∀ i j, W.entry i = B → W.entry j = C → W.perform (op i j) = .ok A) :
    Reach [A] := by
  refine .perform (l := [B, C]) (by simpa using ⟨hB, hC⟩)
    (fun places => op (places.getD 0 0) (places.getD 1 0)) ?_
  intro W places hplaces
  obtain ⟨i, j, rfl⟩ := List.length_eq_two.1 (by simpa using congrArg List.length hplaces)
  have hentries : W.entry i = B ∧ W.entry j = C := by simpa using hplaces
  exact h W i j hentries.1 hentries.2

theorem Reach.edit (hA : Reach [A]) (e : Edit) : Reach [e.apply A] := by
  refine hA.perform_one (.edit · e) ?_
  rintro W i rfl
  rfl

/-- Every obtainable automaton, by the operation that it was obtained by last. -/
theorem reach_of_obtainable (h : A.Obtainable) : Reach [A] := by
  induction h with
  | ofAlphabet alphabet => exact .of_perform (.ofAlphabet alphabet) fun _ => rfl
  | setStart q _ ih => exact ih.edit (.setStart q)
  | addFinals l _ ih => exact ih.edit (.addFinals l)
  | addTransition p q labels _ ih => exact ih.edit (.addTransition p q labels)
  | addSymbol p q a _ ih => exact ih.edit (.addSymbol p q a)
  | addEpsilon p q _ ih => exact ih.edit (.addEpsilon p q)
  | addEdges t _ ih => exact ih.edit (.addEdges t)
  | shift k _ ih =>
    refine ih.perform_one (.shift · k) ?_
    rintro W i rfl
    rfl
  | ofSymbol a => exact .of_perform (.ofSymbol a) fun _ => rfl
  | emptyWord => exact .of_perform .emptyWord fun _ => rfl
  | concat _ _ h ihA ihB =>
    refine ihA.perform_two ihB .concat ?_
    rintro W i j rfl rfl
    rw [Workspace.perform, h]
    rfl
  | union _ _ h ihA ihB =>
    refine ihA.perform_two ihB .union ?_
    rintro W i j rfl rfl
    rw [Workspace.perform, h]
    rfl
  | alternation _ h ih =>
    refine .perform ih .alternation ?_
    rintro W places rfl
    rw [Workspace.perform, h]
    rfl
  | star _ h ih =>
    refine ih.perform_one .star ?_
    rintro W i rfl
    rw [Workspace.perform, h]
    rfl
  | @produce c p A h => exact .of_perform (.produce c p) fun _ => h
  | @parse c A h => exact .of_perform (.parse c) fun _ => h
  | @compile text limit A h => exact .of_perform (.compile text limit) fun _ => h
  | determinize _ h ih =>
    refine ih.perform_one .determinize ?_
    rintro W i rfl
    rw [Workspace.perform, h]
    rfl

/-- An automaton can be obtained exactly if some sequence of requests leads to it. -/
theorem obtainable_iff_exists_run : A.Obtainable ↔ ∃ ops, A ∈ run [] ops := by
  constructor
  · intro h
    obtain ⟨ops, hops⟩ := reach_of_obtainable h
    exact ⟨ops, hops A List.mem_cons_self⟩
  · rintro ⟨ops, h⟩
    exact obtainable_of_mem_run obtainable_of_mem_nil h

/-- After any sequence of requests, the start and the finals of every automaton in the workspace are
states of it, so are both ends of every edge, and the characters on the edge are in the alphabet. -/
theorem names_states_of_mem_run (h : A ∈ run [] ops) :
    (∀ q, A.start = some q → q ∈ A.states) ∧ (∀ q ∈ A.finals, q ∈ A.states) ∧
      ∀ p q labels, A.labels? p q = some labels →
        p ∈ A.states ∧ q ∈ A.states ∧ ∀ c, Symbol.char c ∈ labels → c ∈ A.alphabet := by
  have hA : A.WellFormed := (obtainable_of_mem_run obtainable_of_mem_nil h).wellFormed
  refine ⟨hA.start_mem, hA.finals_mem, fun p q labels hedge => ?_⟩
  have hsome : (A.edges.labels? p q).isSome := Option.isSome_of_eq_some hedge
  refine ⟨?_, ?_, fun c hc => ?_⟩
  · exact hA.ends_mem p (Transitions.mem_endpoints.2 ⟨⟨p, q⟩, hsome, .inl rfl⟩)
  · exact hA.ends_mem q (Transitions.mem_endpoints.2 ⟨⟨p, q⟩, hsome, .inr rfl⟩)
  · exact hA.chars_mem c (Transitions.mem_chars.2 ⟨p, q, labels, hedge, hc⟩)

/-- An edge without symbols, states with gaps between them, a union, a star and a determinization.
-/
theorem names_states_of_mem_run_determinized :
    ∃ A, A ∈ run [] [.ofSymbol (.char 'a'), .edit 0 (.addTransition 7 3 ∅), .shift 1 2, .union 1 2,
        .star 3, .determinize 4] ∧ A.start = some 1 ∧
      (∀ q, A.start = some q → q ∈ A.states) ∧ (∀ q ∈ A.finals, q ∈ A.states) ∧
      ∀ p q labels, A.labels? p q = some labels →
        p ∈ A.states ∧ q ∈ A.states ∧ ∀ c, Symbol.char c ∈ labels → c ∈ A.alphabet := by
  have hlast : ((run [] [.ofSymbol (.char 'a'), .edit 0 (.addTransition 7 3 ∅), .shift 1 2,
      .union 1 2, .star 3, .determinize 4])[5]?.map Automaton.start) = some (some 1) := by
    decide +kernel
  obtain ⟨A, hA, hstart⟩ := Option.map_eq_some_iff.1 hlast
  have hmem := List.mem_of_getElem? hA
  exact ⟨A, hmem, hstart, names_states_of_mem_run hmem⟩

end Workspace

end PatternAutomata
