import PatternAutomata.Pattern
import PatternAutomata.Proofs.Grammar.Derivation
import PatternAutomata.Proofs.Grammar.Fragment

/-!
# Reading as one pass

A scanner goes through a pattern once, character by character. It only counts the open groups and
remembers whether a term has begun. The readers go through the pattern production by production, but
they stop for the same reason at the same place: wherever they stand, the scanner stands there with
as many groups open as have been entered, and within a term exactly if a factor has been read. A
reader of bases may open as many groups as the limit leaves beyond those that are open.
-/

namespace PatternAutomata

/-- Where a scan stands: at the start of a pattern or of a group, after a bar, or in a term. -/
inductive Context where
  | start
  | afterBar
  | inTerm
deriving DecidableEq

/-- Scans the text from a position on, with `depth` groups open. -/
def scan (limit position depth : Nat) (context : Context) : List Char → Except CompileError Unit
  | [] =>
    if context = .afterBar then .error (.unexpectedEnd .branch position)
    else if 0 < depth then .error (.unexpectedEnd (.exactly ')') position)
    else .ok ()
  | c :: s =>
    if c = '(' then
      if limit ≤ depth then .error (.tooDeep limit position)
      else scan limit (position + 1) (depth + 1) .start s
    else if c = '\\' then
      match s with
      | [] => .error (.unexpectedEnd .anyChar (position + 1))
      | _ :: s => scan limit (position + 2) depth .inTerm s
    else if c = '*' then
      if context = .inTerm then scan limit (position + 1) depth .inTerm s
      else .error (.unexpected .atom '*' position)
    else if c = '|' then
      if context = .inTerm then scan limit (position + 1) depth .afterBar s
      else .error (.unexpected .branch '|' position)
    else if c = ')' then
      if context = .afterBar then .error (.unexpected .branch ')' position)
      else if depth = 0 then .error (.unexpected .endOfPattern ')' position)
      else scan limit (position + 1) (depth - 1) .inTerm s
    else scan limit (position + 1) depth .inTerm s

theorem scan_cons {limit position depth : Nat} {context : Context} {c : Char} {s : List Char} :
    scan limit position depth context (c :: s) =
      if c = '(' then
        if limit ≤ depth then .error (.tooDeep limit position)
        else scan limit (position + 1) (depth + 1) .start s
      else if c = '\\' then
        match s with
        | [] => .error (.unexpectedEnd .anyChar (position + 1))
        | _ :: s => scan limit (position + 2) depth .inTerm s
      else if c = '*' then
        if context = .inTerm then scan limit (position + 1) depth .inTerm s
        else .error (.unexpected .atom '*' position)
      else if c = '|' then
        if context = .inTerm then scan limit (position + 1) depth .afterBar s
        else .error (.unexpected .branch '|' position)
      else if c = ')' then
        if context = .afterBar then .error (.unexpected .branch ')' position)
        else if depth = 0 then .error (.unexpected .endOfPattern ')' position)
        else scan limit (position + 1) (depth - 1) .inTerm s
      else scan limit (position + 1) depth .inTerm s := by
  cases s <;> rfl

/-- Where a scan stands after a term that began in a context. -/
def Term.context (before : Context) (t : Term) : Context := if t.isEmpty then before else .inTerm

def Regex.context : Regex → Context
  | .single t => t.context .start
  | .alt _ _ => .inTerm

/-- A scan goes on after what was read, or fails as the reading does. Positions are counted back
from the end of the text, which is at `last`. -/
def Agrees {τ : Type} (limit last depth : Nat) (after : τ → Context)
    (outcome : Except CompileError Unit) : Reading τ → Prop
  | .ok (x, rest) => ∃ position, position + rest.length = last ∧
      outcome = scan limit position depth (after x) rest
  | .error e => ∃ position, position + e.rest.length = last ∧
      outcome = .error ((⟨position, e.rest, limit⟩ : Cursor).errorOf e.obstacle)

variable {limit last depth position n : Nat} {context before : Context} {base : Consuming Base}
  {s rest : List Char} {t : Term} {r : Regex} {f : Factor}

theorem head?_readStars_ne (f : Factor) (s : List Char) :
    (readStars f s).2.head? ≠ some '*' := by
  induction s generalizing f with
  | nil => simp [readStars]
  | cons c s ih =>
    unfold readStars
    split
    · exact ih (.star f)
    · next hc => simpa using hc

theorem head?_of_readFactor (h : readFactor base s = .ok (f, rest)) : rest.head? ≠ some '*' := by
  unfold readFactor at h
  split at h
  · cases h
  · next b s' _ =>
    have hstars : readStars (.once b) s' = (f, rest) := Except.ok.inj h
    have hhead := head?_readStars_ne (.once b) s'
    rw [hstars] at hhead
    exact hhead

theorem endsTerm_of_readTerm {u : Term} (h : readTerm base t s = .ok (u, rest)) :
    endsTerm rest := by
  fun_induction readTerm base t s with
  | case1 t s hs =>
    cases h
    exact hs
  | case2 => cases h
  | case3 t s _ f r hf ih => exact ih h

/-- What can follow a pattern that has been read is its end or a closing parenthesis. -/
theorem rest_of_readRegex (h : readRegex base s = .ok (r, rest)) :
    rest = [] ∨ ∃ s', rest = ')' :: s' := by
  fun_induction readRegex base s generalizing r rest with
  | case1 => cases h
  | case2 => cases h
  | case3 => cases h
  | case4 => cases h
  | case5 s t rest' ht _ _ r' rest'' hr ih =>
    cases h
    exact ih hr
  | case6 s t rest' hbar ht =>
    cases h
    have hends := endsTerm_of_readTerm ht
    cases rest' with
    | nil => exact .inl rfl
    | cons c s' =>
      have hc : c ≠ '|' := by
        intro hc
        exact hbar s' (by rw [hc])
      have hclose : c = ')' := by simpa [endsTerm, hc] using hends
      exact .inr ⟨s', by rw [hclose]⟩

theorem context_of_readRegex (h : readRegex base s = .ok (r, rest)) (hs : endsTerm s = false) :
    r.context = .inTerm := by
  rw [readRegex_eq] at h
  split at h
  · cases h
  · split at h
    · cases h
    · split at h
      · cases h
      · split at h
        · cases h
        · cases h
          rfl
  · next t rest' _ ht =>
    cases h
    have hne := isEmpty_of_readTerm ht (.inr hs)
    simp [Regex.context, Term.context, hne]

theorem scan_readStars (h : position + s.length = last) :
    ∃ position', position' + (readStars f s).2.length = last ∧
      scan limit position depth .inTerm s =
        scan limit position' depth .inTerm (readStars f s).2 := by
  induction s generalizing f position with
  | nil => exact ⟨position, h, rfl⟩
  | cons c s ih =>
    by_cases hc : c = '*'
    · have hnext : position + 1 + s.length = last := by
        rw [List.length_cons] at h
        omega
      have hstars : readStars f (c :: s) = readStars (.star f) s := by simp [readStars, hc]
      have hscan : scan limit position depth .inTerm (c :: s) =
          scan limit (position + 1) depth .inTerm s := by simp [scan_cons, hc]
      rw [hstars, hscan]
      exact ih hnext
    · have hstop : readStars f (c :: s) = (f, c :: s) := by simp [readStars, hc]
      rw [hstop]
      exact ⟨position, h, rfl⟩

/-- What a reader of bases has to do with `depth` groups open. A star is no base, but in a term the
scanner would take one. -/
def Consuming.Follows (base : Consuming Base) (limit depth : Nat) : Prop :=
  ∀ {last position context s}, position + s.length = last → endsTerm s = false →
    (context = .inTerm → s.head? ≠ some '*') →
    Agrees limit last depth (fun _ => .inTerm) (scan limit position depth context s) (base.read s)

theorem readFactor_agrees (hbase : base.Follows limit depth) (h : position + s.length = last)
    (hs : endsTerm s = false) (hstar : context = .inTerm → s.head? ≠ some '*') :
    Agrees limit last depth (fun _ => .inTerm) (scan limit position depth context s)
      (readFactor base s) := by
  have hread := hbase h hs hstar
  unfold readFactor
  cases hb : base.read s with
  | error e =>
    rw [hb] at hread
    exact hread
  | ok x =>
    rw [hb] at hread
    obtain ⟨position', hposition', heq⟩ := hread
    obtain ⟨position'', hposition'', hstars⟩ := scan_readStars (f := .once x.1) hposition'
    exact ⟨position'', hposition'', heq.trans hstars⟩

theorem readTerm_agrees (hbase : base.Follows limit depth) (h : position + s.length = last)
    (hstar : t.context before = .inTerm → s.head? ≠ some '*') :
    Agrees limit last depth (Term.context before)
      (scan limit position depth (t.context before) s) (readTerm base t s) := by
  fun_induction readTerm base t s generalizing position with
  | case1 t s hs => exact ⟨position, h, rfl⟩
  | case2 t s hs e he =>
    have hfactor := readFactor_agrees hbase h (by simpa using hs) hstar
    rw [he] at hfactor
    exact hfactor
  | case3 t s hs f rest hf ih =>
    have hfactor := readFactor_agrees hbase h (by simpa using hs) hstar
    rw [hf] at hfactor
    obtain ⟨position', hposition', heq⟩ := hfactor
    rw [heq]
    exact ih hposition' fun _ => head?_of_readFactor hf

/-- What follows a bar is no end of a term, or the scanner fails there. -/
theorem scan_afterBar (hs : endsTerm s) : scan limit position depth .afterBar s =
    .error ((⟨position, s, limit⟩ : Cursor).missing .branch) := by
  cases s with
  | nil => rfl
  | cons c s =>
    simp only [endsTerm, Bool.or_eq_true, beq_iff_eq] at hs
    rcases hs with rfl | rfl <;> simp [scan_cons, Cursor.missing]

theorem readTerm_empty_agrees (hbase : base.Follows limit depth) (h : position + s.length = last)
    (hterm : before ≠ .inTerm) : Agrees limit last depth (Term.context before)
      (scan limit position depth before s) (readTerm base .empty s) :=
  readTerm_agrees hbase h fun hin => absurd hin hterm

theorem scan_term_bar (hbase : base.Follows limit depth) (h : position + s.length = last)
    (hterm : before ≠ .inTerm) (ht : readTerm base .empty s = .ok (t, '|' :: rest))
    (hne : t.isEmpty = false) : ∃ position', position' + rest.length = last ∧
      scan limit position depth before s = scan limit position' depth .afterBar rest := by
  have hread := readTerm_empty_agrees hbase h hterm
  rw [ht] at hread
  obtain ⟨position', hposition', heq⟩ := hread
  have hcontext : t.context before = .inTerm := by simp [Term.context, hne]
  refine ⟨position' + 1, ?_, ?_⟩
  · rw [List.length_cons] at hposition'
    omega
  · rw [heq, hcontext]
    simp [scan_cons]

/-- A pattern is read from its start, or from after a bar unless the term there ends at once. -/
theorem readRegex_agrees (hbase : base.Follows limit depth) (h : position + s.length = last)
    (hterm : before ≠ .inTerm) (hbar : before = .afterBar → endsTerm s = false) :
    Agrees limit last depth Regex.context (scan limit position depth before s)
      (readRegex base s) := by
  have hafter : Context.afterBar ≠ .inTerm := by decide
  fun_induction readRegex base s generalizing position before with
  | case1 s e he =>
    have hread := readTerm_empty_agrees hbase h hterm
    rw [he] at hread
    exact hread
  | case2 s t rest ht hempty =>
    have hread := readTerm_empty_agrees hbase h hterm
    rw [ht] at hread
    obtain ⟨position', hposition', heq⟩ := hread
    have hcontext : t.context before = before := by simp [Term.context, hempty]
    rw [hcontext] at heq
    refine ⟨position', hposition', heq.trans ?_⟩
    simp [scan_cons, hterm, Cursor.errorOf, Cursor.missing]
  | case3 s t rest ht hempty hends =>
    obtain ⟨position', hposition', heq⟩ := scan_term_bar hbase h hterm ht (by simpa using hempty)
    exact ⟨position', hposition', heq.trans (scan_afterBar hends)⟩
  | case4 s t rest ht hempty hends e he ih =>
    obtain ⟨position', hposition', heq⟩ := scan_term_bar hbase h hterm ht (by simpa using hempty)
    rw [heq]
    have hread := ih hposition' hafter fun _ => by simpa using hends
    rw [he] at hread
    exact hread
  | case5 s t rest ht hempty hends r' rest' hr ih =>
    obtain ⟨position', hposition', heq⟩ := scan_term_bar hbase h hterm ht (by simpa using hempty)
    rw [heq]
    have hread := ih hposition' hafter fun _ => by simpa using hends
    rw [hr] at hread
    obtain ⟨position'', hposition'', heq'⟩ := hread
    rw [context_of_readRegex hr (by simpa using hends)] at heq'
    exact ⟨position'', hposition'', heq'⟩
  | case6 s t rest hnobar ht =>
    have hread := readTerm_empty_agrees hbase h hterm
    rw [ht] at hread
    have hcontext : t.context before = t.context .start := by
      cases before with
      | start => rfl
      | afterBar =>
        have hne := isEmpty_of_readTerm ht (.inr (hbar rfl))
        simp [Term.context, hne]
      | inTerm => exact absurd rfl hterm
    obtain ⟨position', hposition', heq⟩ := hread
    exact ⟨position', hposition', by rw [heq, hcontext]; rfl⟩

theorem Regex.context_ne_afterBar (r : Regex) : r.context ≠ .afterBar := by
  cases r with
  | single t => cases t <;> simp [context, Term.context, Term.isEmpty]
  | alt t r => simp [context]

theorem readBase_group_agrees {read : List Char → Reading Regex} (hdepth : depth < limit)
    (hread : Agrees limit last (depth + 1) Regex.context
      (scan limit (position + 1) (depth + 1) .start s) (read s))
    (hends : ∀ {r rest}, read s = .ok (r, rest) → rest = [] ∨ ∃ s', rest = ')' :: s') :
    Agrees limit last depth (fun _ => .inTerm) (scan limit position depth context ('(' :: s))
      (readBase (some read) ('(' :: s)) := by
  have hscan : scan limit position depth context ('(' :: s) =
      scan limit (position + 1) (depth + 1) .start s := by
    simp [scan_cons, Nat.not_le.2 hdepth]
  rw [hscan]
  cases hr : read s with
  | error e =>
    have hbase : readBase (some read) ('(' :: s) = .error e := by simp [readBase, hr]
    rw [hr] at hread
    rw [hbase]
    exact hread
  | ok x =>
    rw [hr] at hread
    obtain ⟨r, rest⟩ := x
    obtain ⟨position', hposition', heq⟩ := hread
    rw [heq]
    rcases hends hr with rfl | ⟨s', rfl⟩
    · have hbase : readBase (some read) ('(' :: s) = .error ⟨.wanted (.exactly ')'), []⟩ := by
        simp [readBase, hr]
      rw [hbase]
      refine ⟨position', hposition', ?_⟩
      simp [scan, r.context_ne_afterBar, Cursor.errorOf, Cursor.missing]
    · rw [readBase_group hr]
      have hnext : position' + 1 + s'.length = last := by
        rw [List.length_cons] at hposition'
        omega
      refine ⟨position' + 1, hnext, ?_⟩
      simp [scan_cons, r.context_ne_afterBar]

theorem readBase_agrees {content : Option (List Char → Reading Regex)} {c : Char} (hc : c ≠ '(')
    (h : position + (c :: s).length = last) (hs : endsTerm (c :: s) = false)
    (hstar : context = .inTerm → c ≠ '*') :
    Agrees limit last depth (fun _ => .inTerm) (scan limit position depth context (c :: s))
      (readBase content (c :: s)) := by
  rw [List.length_cons] at h
  simp only [endsTerm, Bool.or_eq_false_iff, beq_eq_false_iff_ne] at hs
  obtain ⟨hclose, hbar⟩ := hs
  by_cases hescape : c = '\\'
  · subst hescape
    cases s with
    | nil => exact ⟨position + 1, h, by simp [scan_cons, Cursor.errorOf, Cursor.missing]⟩
    | cons d s =>
      rw [List.length_cons] at h
      exact ⟨position + 2, by omega, by simp [scan_cons]⟩
  · by_cases hcstar : c = '*'
    · subst hcstar
      have hterm : context ≠ .inTerm := fun hin => hstar hin rfl
      exact ⟨position, h, by simp [scan_cons, hterm, Cursor.errorOf, Cursor.missing]⟩
    · have hop : isOperator c = false := by simp [isOperator, hc, hescape, hcstar, hclose, hbar]
      rw [readBase_plain content hop]
      exact ⟨position + 1, by omega, by simp [scan_cons, hc, hescape, hcstar, hclose, hbar]⟩

/-- The readers of bases follow the scanner, by induction on the groups that may still be opened. -/
theorem baseReader_follows (h : n + depth = limit) : (baseReader n).Follows limit depth := by
  induction n generalizing depth with
  | zero =>
    intro last position context s hposition hs hstar
    cases s with
    | nil => cases hs
    | cons c s =>
      change Agrees limit last depth _ _ (readBase none (c :: s))
      by_cases hc : c = '('
      · subst hc
        have hdepth : limit ≤ depth := by omega
        exact ⟨position, hposition, by simp [scan_cons, hdepth, Cursor.errorOf]⟩
      · exact readBase_agrees hc hposition hs fun hin => by simpa using hstar hin
  | succ n ih =>
    intro last position context s hposition hs hstar
    cases s with
    | nil => cases hs
    | cons c s =>
      change Agrees limit last depth _ _ (readBase (some (readRegex (baseReader n))) (c :: s))
      by_cases hc : c = '('
      · subst hc
        have hbase : (baseReader n).Follows limit (depth + 1) := ih (by omega)
        have hnext : position + 1 + s.length = last := by
          rw [List.length_cons] at hposition
          omega
        have hstart : Context.start ≠ .inTerm := by decide
        have hread := readRegex_agrees hbase hnext hstart nofun
        exact readBase_group_agrees (by omega) hread rest_of_readRegex
      · exact readBase_agrees hc hposition hs fun hin => by simpa using hstar hin

theorem moveTo_start {p : List Char} (h : position + rest.length = p.length) :
    (Cursor.start p n).moveTo rest = ⟨position, rest, n⟩ := by
  have hposition : 0 + (p.length - rest.length) = position := by omega
  simp only [Cursor.start, Cursor.moveTo, hposition]

/-- Building cannot fail, so a pattern is parsed exactly when it is scanned to its end. -/
theorem parse_eq_scan (p : List Char) (n : Nat) :
    (Cursor.start p n).parse.map (fun _ => ()) = scan n 0 0 .start p := by
  have hstart : Context.start ≠ .inTerm := by decide
  have hbase : (baseReader n).Follows n 0 := baseReader_follows (Nat.add_zero n)
  have hread := readRegex_agrees hbase (Nat.zero_add p.length) hstart nofun
  change Agrees n p.length 0 _ _ (Regex.read n p) at hread
  cases hr : Regex.read n p with
  | error e =>
    have hparse : (Cursor.start p n).parse =
        .error (((Cursor.start p n).moveTo e.rest).errorOf e.obstacle) := by
      simp only [Cursor.parse, Cursor.start, hr]
    rw [hr] at hread
    obtain ⟨position, hposition, heq⟩ := hread
    rw [heq, hparse, moveTo_start hposition]
    rfl
  | ok x =>
    rw [hr] at hread
    obtain ⟨r, rest⟩ := x
    obtain ⟨position, hposition, heq⟩ := hread
    rw [heq]
    rcases rest_of_readRegex hr with rfl | ⟨s, rfl⟩
    · obtain ⟨A, _, _, hA, -⟩ := r.exists_build
      have hparse : (Cursor.start p n).parse = .ok A := by
        simp only [Cursor.parse, Cursor.start, hr, hA, Except.mapError]
      rw [hparse]
      simp [scan, r.context_ne_afterBar, Except.map]
    · have hparse : (Cursor.start p n).parse =
          .error (((Cursor.start p n).moveTo (')' :: s)).missing .endOfPattern) := by
        simp only [Cursor.parse, Cursor.start, hr]
      rw [hparse, moveTo_start hposition]
      simp [scan_cons, r.context_ne_afterBar, Cursor.missing, Except.map]

theorem exists_parse_iff_scan (p : List Char) (n : Nat) :
    (∃ A, (Cursor.start p n).parse = .ok A) ↔ scan n 0 0 .start p = .ok () := by
  rw [← parse_eq_scan]
  cases (Cursor.start p n).parse <;> simp [Except.map]

theorem parse_eq_error_iff_scan (p : List Char) (n : Nat) (e : CompileError) :
    (Cursor.start p n).parse = .error e ↔ scan n 0 0 .start p = .error e := by
  rw [← parse_eq_scan]
  cases (Cursor.start p n).parse <;> simp [Except.map]

/-- A pattern is parsed exactly if the scan of it succeeds; otherwise the error is that of the scan,
with all that it says. -/
theorem parse_reports_scan (p : List Char) (n : Nat) :
    ((∃ A, (Cursor.start p n).parse = .ok A) ↔ scan n 0 0 .start p = .ok ()) ∧
      ∀ e, (Cursor.start p n).parse = .error e ↔ scan n 0 0 .start p = .error e :=
  ⟨exists_parse_iff_scan p n, parse_eq_error_iff_scan p n⟩

example : scan 2 0 0 .start ['(', '(', 'a', ')', '|', '*'] = .error (.unexpected .atom '*' 5) := rfl

example : scan 1 0 0 .start ['(', '(', 'a', ')', '|', '*'] = .error (.tooDeep 1 1) := rfl

end PatternAutomata
