import PatternAutomata.Proofs.Grammar.Scanner

/-!
# Where errors stand

An error stands at the first character that no continuation can make good: what lies before it is
the start of some pattern, but with that character it is the start of none. If the text ends too
early, then all of it is the start of a pattern. The scanner shows why: wherever it has not failed
yet, a character that is no operator takes it into a term, and the groups that are open can then be
closed.
-/

namespace PatternAutomata

/-- Some pattern begins with the text. -/
def Viable (limit : Nat) (s : List Char) : Prop := ∃ t A, compile (s ++ t) limit = .ok A

/-- The text is the start of a pattern up to the character `a` at the position, but not with it. -/
structure BreaksAt (limit : Nat) (p : List Char) (a : Char) (position : Nat) : Prop where
  char : ∃ h : position < p.length, p[position] = a
  viable : Viable limit (p.take position)
  not_viable : ¬Viable limit (p.take (position + 1))

/-- The error stands where the text first goes wrong, and names the character there. -/
def CompileError.IsLeftmost (limit : Nat) (p : List Char) : CompileError → Prop
  | unexpected _ actual position => BreaksAt limit p actual position
  | tooDeep l position => l = limit ∧ BreaksAt limit p '(' position
  | unexpectedEnd _ position =>
    position = p.length ∧ Viable limit p ∧ ¬∃ A, compile p limit = .ok A
  | invalid _ => False

variable {limit position depth : Nat} {context : Context} {c : Char} {s before p : List Char}
  {e : CompileError}

theorem Viable.of_append {t : List Char} (h : Viable limit (s ++ t)) : Viable limit s := by
  obtain ⟨u, A, hA⟩ := h
  rw [List.append_assoc] at hA
  exact ⟨t ++ u, A, hA⟩

theorem viable_iff_scan : Viable limit s ↔ ∃ t, scan limit 0 0 .start (s ++ t) = .ok () :=
  exists_congr fun t => exists_parse_iff_scan (s ++ t) limit

theorem scan_replicate_close :
    scan limit position depth .inTerm (List.replicate depth ')') = .ok () := by
  induction depth generalizing position with
  | zero => rfl
  | succ depth ih =>
    rw [List.replicate_succ, scan_cons]
    simpa using ih

theorem exists_scan_eq_ok (limit position depth : Nat) (context : Context) :
    ∃ t, scan limit position depth context t = .ok () := by
  refine ⟨'a' :: List.replicate depth ')', ?_⟩
  simpa [scan_cons] using scan_replicate_close

inductive CompileError.Names (limit : Nat) (c : Char) (position : Nat) : CompileError → Prop
  | unexpected (expected : Expected) : Names limit c position (.unexpected expected c position)
  | tooDeep (h : c = '(') : Names limit c position (.tooDeep limit position)

/-- Unless a character is a backslash, the scan passes it or fails there, whatever follows. -/
theorem scan_cases (limit position depth : Nat) (context : Context) (c : Char) :
    c = '\\' ∨
      (∃ depth' context', ∀ t, scan limit position depth context (c :: t) =
        scan limit (position + 1) depth' context' t) ∨
      ∃ e : CompileError, e.Names limit c position ∧
        ∀ t, scan limit position depth context (c :: t) = .error e := by
  by_cases hescape : c = '\\'
  · exact .inl hescape
  · right
    simp only [scan_cons, hescape, ↓reduceIte]
    split_ifs with hopen hdepth hstar hterm hbar hterm hclose hafter hdepth
    · exact .inr ⟨_, .tooDeep hopen, fun _ => rfl⟩
    · exact .inl ⟨_, _, fun _ => rfl⟩
    · exact .inl ⟨_, _, fun _ => rfl⟩
    · exact .inr ⟨_, hstar ▸ .unexpected .atom, fun _ => rfl⟩
    · exact .inl ⟨_, _, fun _ => rfl⟩
    · exact .inr ⟨_, hbar ▸ .unexpected .branch, fun _ => rfl⟩
    · exact .inr ⟨_, hclose ▸ .unexpected .branch, fun _ => rfl⟩
    · exact .inr ⟨_, hclose ▸ .unexpected .endOfPattern, fun _ => rfl⟩
    · exact .inl ⟨_, _, fun _ => rfl⟩
    · exact .inl ⟨_, _, fun _ => rfl⟩

theorem exists_expected_of_scan_nil (h : scan limit position depth context [] = .error e) :
    ∃ expected, e = .unexpectedEnd expected position := by
  unfold scan at h
  split_ifs at h
  · cases h
    exact ⟨_, rfl⟩
  · cases h
    exact ⟨_, rfl⟩

theorem isLeftmost_unexpectedEnd {expected : Expected} (hviable : Viable limit p)
    (h : scan limit 0 0 .start p = .error (.unexpectedEnd expected position))
    (hposition : position = p.length) :
    (CompileError.unexpectedEnd expected position).IsLeftmost limit p := by
  refine ⟨hposition, hviable, fun hp => ?_⟩
  have hok := (exists_parse_iff_scan p limit).1 hp
  rw [h] at hok
  cases hok

/-- A scan of any text that begins with `before` goes on after it with `depth` groups open. -/
def Reaches (limit : Nat) (before : List Char) (depth : Nat) (context : Context) : Prop :=
  ∀ t, scan limit 0 0 .start (before ++ t) = scan limit before.length depth context t

namespace Reaches

theorem viable (h : Reaches limit before depth context) : Viable limit before := by
  obtain ⟨t, ht⟩ := exists_scan_eq_ok limit before.length depth context
  exact viable_iff_scan.2 ⟨t, (h t).trans ht⟩

/-- Characters that the scan passes whatever follows them. -/
theorem append {taken : List Char} {depth' : Nat} {context' : Context}
    (h : Reaches limit before depth context)
    (htaken : ∀ t, scan limit before.length depth context (taken ++ t) =
      scan limit (before.length + taken.length) depth' context' t) :
    Reaches limit (before ++ taken) depth' context' := by
  intro t
  rw [List.append_assoc, h, htaken, List.length_append]

theorem breaksAt (h : Reaches limit before depth context)
    (hc : ∀ t, scan limit before.length depth context (c :: t) = .error e) (s : List Char) :
    BreaksAt limit (before ++ c :: s) c before.length := by
  refine ⟨⟨by simp, by simp⟩, ?_, ?_⟩
  · rw [List.take_left]
    exact h.viable
  · have htake : (before ++ c :: s).take (before.length + 1) = before ++ [c] := by
      simp [List.take_append]
    rw [htake, viable_iff_scan]
    rintro ⟨t, ht⟩
    rw [List.append_assoc, h, List.singleton_append, hc] at ht
    cases ht

theorem isLeftmost_of_names (h : Reaches limit before depth context)
    (hc : ∀ t, scan limit before.length depth context (c :: t) = .error e)
    (hnames : e.Names limit c before.length) : e.IsLeftmost limit (before ++ c :: s) := by
  have hbreaks := h.breaksAt hc s
  cases hnames with
  | unexpected expected => exact hbreaks
  | tooDeep hopen =>
    subst hopen
    exact ⟨rfl, hbreaks⟩

/-- A scan that fails says where, by induction on how much it has yet to go through. -/
theorem isLeftmost (h : Reaches limit before depth context)
    (hs : scan limit before.length depth context s = .error e) :
    e.IsLeftmost limit (before ++ s) := by
  induction hlength : s.length using Nat.strong_induction_on
    generalizing s before depth context with
  | h length ih =>
    cases s with
    | nil =>
      obtain ⟨expected, rfl⟩ := exists_expected_of_scan_nil hs
      rw [List.append_nil]
      exact isLeftmost_unexpectedEnd h.viable (by rw [← hs, ← h, List.append_nil]) rfl
    | cons c s =>
      rw [List.length_cons] at hlength
      rcases scan_cases limit before.length depth context c with
        rfl | ⟨depth', context', hpasses⟩ | ⟨e', hnames, hfails⟩
      · have hescaped (d : Char) : Reaches limit (before ++ ['\\', d]) depth .inTerm :=
          h.append fun t => by simp [scan_cons]
        cases s with
        | nil =>
          have hviable : Viable limit (before ++ ['\\'] ++ ['a']) := by
            simpa using (hescaped 'a').viable
          cases hs
          exact isLeftmost_unexpectedEnd hviable.of_append (h ['\\']) (by simp)
        | cons d s =>
          have hrest : scan limit (before ++ ['\\', d]).length depth .inTerm s = .error e := by
            simpa [scan_cons] using hs
          rw [List.length_cons] at hlength
          simpa using ih s.length (by omega) (hescaped d) hrest rfl
      · have hnext : Reaches limit (before ++ [c]) depth' context' := h.append hpasses
        have hrest : scan limit (before ++ [c]).length depth' context' s = .error e := by
          rw [List.length_append, ← hs, hpasses]
          rfl
        simpa using ih s.length (by omega) hnext hrest rfl
      · rw [hfails] at hs
        cases hs
        exact h.isLeftmost_of_names hfails hnames

end Reaches

/-- Compilation fails where the pattern first goes wrong, or at its end if it is only too short. -/
theorem isLeftmost_of_compile_eq_error (h : compile p limit = .error e) :
    e.IsLeftmost limit p := by
  have hreaches : Reaches limit [] 0 .start := fun _ => rfl
  exact hreaches.isLeftmost ((parse_eq_error_iff_scan p limit e).1 h)

theorem isLeftmost_of_compile_eq_error_emptyBranch :
    compile ['(', 'a', '|', ')', '*'] 1 = .error (.unexpected .branch ')' 3) ∧
      (CompileError.unexpected .branch ')' 3).IsLeftmost 1 ['(', 'a', '|', ')', '*'] := by
  have h : compile ['(', 'a', '|', ')', '*'] 1 = .error (.unexpected .branch ')' 3) :=
    (parse_eq_error_iff_scan _ 1 _).2 rfl
  exact ⟨h, isLeftmost_of_compile_eq_error h⟩

end PatternAutomata
