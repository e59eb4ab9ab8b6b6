import PatternAutomata.Grammar.Descent
import PatternAutomata.Proofs.Grammar.Scanner
import PatternAutomata.Proofs.Grammar.Suffix

/-!
# Descents and readers

A descent does what the readers and the trees do together: it fails where the reader fails, and
otherwise gives the automaton of the tree that the reader gives. The two bound the nesting in
different ways. A descent counts the groups that are open and compares the count with the limit, a
reader is given the number of groups that it may still open, and the two add up to the limit
wherever the descent is. After each production the count is what it was before, also after a
failure.
-/

namespace PatternAutomata

namespace Descent

variable {τ : Type} {build : τ → Except Fault Automaton} {A B : Automaton}
  {f : Factor} {t : Term} {d : Descent} {s : List Char} {n : Nat}

def accept (d : Descent) (build : τ → Except Fault Automaton) (reading : Reading τ) : Outcome :=
  d.lift (d.toCursor.accept build reading)

theorem accept_ok {x : τ} : d.accept build (.ok (x, s)) =
    ((build x).mapError .invalid, d.goTo s) := rfl

theorem accept_error {e : Failure} : d.accept build (.error e) =
    (.error ((d.goTo e.rest).errorOf e.obstacle), d.goTo e.rest) := rfl

@[simp] theorem goTo_rest (d : Descent) : d.goTo d.rest = d := by simp [goTo]

theorem goTo_goTo {s' : List Char} (hs : s <:+ d.rest) (hs' : s' <:+ s) :
    (d.goTo s).goTo s' = d.goTo s' := by
  have h : (d.moveTo s).moveTo s' = d.moveTo s' := Cursor.moveTo_moveTo hs hs'
  simp only [goTo, h]

/-- What is read from a later place can as well be taken over from here. -/
theorem accept_goTo {read : List Char → Reading τ} (hread : LeavesEnd read) (hs : s <:+ d.rest) :
    (d.goTo s).accept build (read s) = d.accept build (read s) := by
  cases hr : read s with
  | error e => rw [accept_error, accept_error, goTo_goTo hs (hread.error hr)]
  | ok x => rw [accept_ok, accept_ok, goTo_goTo hs (hread.ok hr)]

theorem base_outcome (d : Descent) : d.base.outcome = match d.rest with
    | [] => (.error (d.missing .anyChar), d)
    | c :: s =>
      if c = '(' then
        if d.limit ≤ d.opened then (.error (.tooDeep d.limit d.position), d)
        else match ((d.goTo s).enter.regex []).outcome with
          | (.error e, d') => (.error e, d'.leave)
          | (.ok A, d') => d'.leave.close A
      else if c = '\\' then (d.goTo s).literal
      else if isOperator c then (.error (d.missing .atom), d)
      else d.literal := by
  rw [base]
  split
  · next h => simp only [h]
  · next c s h =>
    simp only [h]
    split_ifs
    · rfl
    · rcases regex [] (d.goTo s).enter with ⟨⟨_ | A, d'⟩, hle⟩ <;> rfl
    · rfl
    · rfl
    · rfl

theorem factor_outcome (d : Descent) : d.factor.outcome = match d.base.outcome with
    | (.error e, d') => (.error e, d')
    | (.ok A, d') => (d'.stars A).outcome := by
  rw [factor]
  rcases d.base with ⟨⟨_ | A, d'⟩, hlt⟩ <;> rfl

theorem term_outcome (A : Automaton) (d : Descent) : (d.term A).outcome =
    if endsTerm d.rest then (.ok A, d)
    else match d.factor.outcome with
      | (.error e, d') => (.error e, d')
      | (.ok B, d') =>
        match A.concat B with
        | .error fault => (.error (.invalid fault), d')
        | .ok C => (d'.term C).outcome := by
  rw [term]
  split_ifs
  · rfl
  · rcases d.factor with ⟨⟨_ | B, d'⟩, hlt⟩
    · rfl
    · simp only
      cases A.concat B <;> rfl

theorem regex_outcome (l : List Automaton) (d : Descent) : (d.regex l).outcome =
    match (d.term .emptyWord).outcome with
    | (.error e, d') => (.error e, d')
    | (.ok A, d') =>
      match d'.rest with
      | '|' :: s =>
        if d'.position = d.position then (.error (d'.missing .branch), d')
        else if endsTerm s then (.error ((d'.goTo s).missing .branch), d'.goTo s)
        else ((d'.goTo s).regex (l ++ [A])).outcome
      | _ => ((Automaton.alternation (l ++ [A])).mapError .invalid, d') := by
  rw [regex]
  rcases term .emptyWord d with ⟨⟨_ | A, d'⟩, hle⟩
  · rfl
  · simp only
    split
    · next hrest =>
      simp only [hrest]
      split_ifs <;> rfl
    · next hbar => split <;> simp_all

theorem build_star (hf : f.build = .ok A) : (Factor.star f).build = A.star := by
  simp only [Factor.build, hf, bind, Except.bind]

theorem accept_readStars (hs : s <:+ d.rest) :
    (d.goTo s).accept Factor.build (.ok (readStars f s)) =
      d.accept Factor.build (.ok (readStars f s)) := by
  have hread : LeavesEnd fun s => (.ok (readStars f s) : Reading Factor) := readStars_suffix f
  exact accept_goTo hread hs

theorem accept_readStars_of_head?_ne (hf : f.build = .ok A) (h : d.rest.head? ≠ some '*') :
    d.accept Factor.build (.ok (readStars f d.rest)) = (.ok A, d) := by
  rw [readStars_of_head?_ne f h, accept_ok, hf, goTo_rest]
  rfl

theorem stars_eq (hf : f.build = .ok A) (d : Descent) :
    (d.stars A).outcome = d.accept Factor.build (.ok (readStars f d.rest)) := by
  fun_induction stars A d generalizing f with
  | case1 A d hrest => exact (accept_readStars_of_head?_ne hf (by simp [hrest])).symm
  | case2 A d s fault hstar =>
    obtain ⟨B, _, _, hB, -⟩ := (Factor.star f).exists_build
    rw [build_star hf, hstar] at hB
    cases hB
  | case3 A d s B hstar hrest ih =>
    have hB : (Factor.star f).build = .ok B := (build_star hf).trans hstar
    have hstars : readStars f d.rest = readStars (.star f) s := by simp [hrest, readStars]
    have hs : s <:+ d.rest := by
      rw [hrest]
      exact List.suffix_cons '*' s
    rw [hstars]
    exact (ih hB).trans (accept_readStars hs)
  | case4 A d c s hrest hc => exact (accept_readStars_of_head?_ne hf (by simp [hrest, hc])).symm

/-- With room for `n` more groups, a descent builds the base that the reader gives. -/
def Serves (n : Nat) : Prop := ∀ d : Descent, d.opened + n = d.limit →
  d.base.outcome = d.accept Base.build ((baseReader n).read d.rest)

theorem factor_eq (hbase : Serves n) (h : d.opened + n = d.limit) :
    d.factor.outcome = d.accept Factor.build (readFactor (baseReader n) d.rest) := by
  rw [factor_outcome, hbase d h, readFactor]
  cases hb : (baseReader n).read d.rest with
  | error e => rfl
  | ok x =>
    obtain ⟨b, rest⟩ := x
    obtain ⟨A, _, _, hA, -⟩ := b.exists_build
    have hrest : rest <:+ d.rest := (leavesEnd_baseReader n).ok hb
    rw [accept_ok, hA]
    exact (stars_eq (f := .once b) hA (d.goTo rest)).trans (accept_readStars hrest)

theorem build_snoc (ht : t.build = .ok A) (hf : f.build = .ok B) :
    (Term.snoc t f).build = A.concat B := by
  simp only [Term.build, ht, hf, bind, Except.bind]

theorem term_eq (hbase : Serves n) (h : d.opened + n = d.limit) (ht : t.build = .ok A)
    (hs : d.rest = s) : (d.term A).outcome = d.accept Term.build (readTerm (baseReader n) t s) := by
  fun_induction readTerm (baseReader n) t s generalizing A d with
  | case1 t s hends =>
    subst hs
    rw [term_outcome, if_pos hends, accept_ok, ht, goTo_rest]
    rfl
  | case2 t s hends e he =>
    subst hs
    rw [term_outcome, if_neg hends, factor_eq hbase h, he]
    rfl
  | case3 t s hends f rest hf ih =>
    subst hs
    obtain ⟨B, _, _, hB, -⟩ := f.exists_build
    obtain ⟨C, _, _, hC, -⟩ := (Term.snoc t f).exists_build
    have hread := leavesEnd_baseReader n
    have hrest : rest <:+ d.rest := (leavesEnd_readFactor hread).ok hf
    have hconcat : A.concat B = .ok C := (build_snoc ht hB).symm.trans hC
    have hterm := ih (d := d.goTo rest) h hC rfl
    rw [term_outcome, if_neg hends, factor_eq hbase h, hf, accept_ok, hB]
    simp only [Except.mapError, hconcat]
    rw [hterm]
    exact accept_goTo (leavesEnd_readTerm hread _) hrest

theorem isEmpty_iff_length_le {base : Consuming Base} {rest : List Char}
    (h : readTerm base .empty s = .ok (t, rest)) : t.isEmpty ↔ s.length ≤ rest.length := by
  by_cases hends : endsTerm s
  · rw [readTerm_of_endsTerm .empty hends] at h
    cases h
    simp [Term.isEmpty]
  · have hends' : endsTerm s = false := by simpa using hends
    have hne := isEmpty_of_readTerm h (.inr hends')
    rw [readTerm_eq, if_neg hends] at h
    split at h
    · cases h
    · next f s' hf =>
      have hlt := length_lt_of_readFactor hf
      have hle := length_le_of_readTerm h
      simp only [hne, Bool.false_eq_true, false_iff]
      omega

/-- The automaton of a pattern whose first branches have been built before. -/
def joinTo (l : List Automaton) (r : Regex) : Except Fault Automaton := do
  Automaton.alternation (l ++ (← r.branches))

theorem joinTo_single (ht : t.build = .ok A) (l : List Automaton) :
    joinTo l (.single t) = Automaton.alternation (l ++ [A]) := by
  simp only [joinTo, Regex.branches, ht, bind, Except.bind, pure, Except.pure]

theorem joinTo_alt (ht : t.build = .ok A) (l : List Automaton) (r : Regex) :
    joinTo l (.alt t r) = joinTo (l ++ [A]) r := by
  simp only [joinTo, Regex.branches, ht, bind, Except.bind, pure, Except.pure]
  cases r.branches with
  | error fault => rfl
  | ok l' => simp only [List.append_assoc, List.singleton_append]

theorem goTo_position_eq_iff {rest : List Char} :
    (d.goTo rest).position = d.position ↔ d.rest.length ≤ rest.length := by
  have h : (d.goTo rest).position = d.position + (d.rest.length - rest.length) := rfl
  rw [h]
  omega

theorem regex_of_bar (hbase : Serves n) (h : d.opened + n = d.limit) (l : List Automaton)
    (ht : readTerm (baseReader n) .empty d.rest = .ok (t, '|' :: s)) (hA : t.build = .ok A) :
    (d.regex l).outcome =
      if t.isEmpty then (.error ((d.goTo ('|' :: s)).missing .branch), d.goTo ('|' :: s))
      else if endsTerm s then (.error ((d.goTo s).missing .branch), d.goTo s)
      else ((d.goTo s).regex (l ++ [A])).outcome := by
  have hbar : '|' :: s <:+ d.rest := (leavesEnd_readTerm (leavesEnd_baseReader n) .empty).ok ht
  have hgoTo : (d.goTo ('|' :: s)).goTo s = d.goTo s := goTo_goTo hbar (List.suffix_cons '|' s)
  rw [regex_outcome, term_eq hbase h (t := .empty) rfl rfl, ht, accept_ok, hA]
  simp only [Except.mapError, rest_goTo, goTo_position_eq_iff, ← isEmpty_iff_length_le ht]
  rw [hgoTo]

theorem regex_of_last (hbase : Serves n) (h : d.opened + n = d.limit) (l : List Automaton)
    (ht : readTerm (baseReader n) .empty d.rest = .ok (t, s)) (hA : t.build = .ok A)
    (hbar : ∀ s', s ≠ '|' :: s') :
    (d.regex l).outcome = ((Automaton.alternation (l ++ [A])).mapError .invalid, d.goTo s) := by
  rw [regex_outcome, term_eq hbase h (t := .empty) rfl rfl, ht, accept_ok, hA]
  simp only [Except.mapError, rest_goTo]

theorem regex_eq (hbase : Serves n) (h : d.opened + n = d.limit) (hs : d.rest = s)
    (l : List Automaton) :
    (d.regex l).outcome = d.accept (joinTo l) (readRegex (baseReader n) s) := by
  have hread := leavesEnd_readRegex (leavesEnd_baseReader n)
  have hafter {s rest : List Char} {t : Term}
      (ht : readTerm (baseReader n) .empty s = .ok (t, '|' :: rest)) : rest <:+ s :=
    (List.suffix_cons '|' rest).trans
      ((leavesEnd_readTerm (leavesEnd_baseReader n) .empty).ok ht)
  fun_induction readRegex (baseReader n) s generalizing d l with
  | case1 s e he =>
    rw [regex_outcome, term_eq hbase h (t := .empty) rfl hs, he]
    rfl
  | case2 s t rest ht hempty =>
    subst hs
    obtain ⟨A, _, _, hA, -⟩ := t.exists_build
    rw [regex_of_bar hbase h l ht hA, if_pos hempty]
    rfl
  | case3 s t rest ht hempty hends =>
    subst hs
    obtain ⟨A, _, _, hA, -⟩ := t.exists_build
    rw [regex_of_bar hbase h l ht hA, if_neg hempty, if_pos hends]
    rfl
  | case4 s t rest ht hempty hends e he ih =>
    subst hs
    obtain ⟨A, _, _, hA, -⟩ := t.exists_build
    have hrest := ih (d := d.goTo rest) h rfl (l ++ [A])
    rw [accept_goTo hread (hafter ht), he] at hrest
    rw [regex_of_bar hbase h l ht hA, if_neg hempty, if_neg hends, hrest]
    rfl
  | case5 s t rest ht hempty hends r rest' hr ih =>
    subst hs
    obtain ⟨A, _, _, hA, -⟩ := t.exists_build
    have hrest := ih (d := d.goTo rest) h rfl (l ++ [A])
    rw [accept_goTo hread (hafter ht), hr, accept_ok, ← joinTo_alt hA] at hrest
    rw [regex_of_bar hbase h l ht hA, if_neg hempty, if_neg hends, hrest, accept_ok]
  | case6 s t rest hbar ht =>
    subst hs
    obtain ⟨A, _, _, hA, -⟩ := t.exists_build
    rw [regex_of_last hbase h l ht hA hbar, accept_ok, joinTo_single hA]

theorem goTo_eq_self (hs : d.rest = s) : d.goTo s = d := by rw [← hs, goTo_rest]

theorem literal_of_nil (hs : d.rest = []) : d.literal = (.error (d.missing .anyChar), d) := by
  simp only [literal, Cursor.next, hs]
  rfl

theorem literal_of_cons {c : Char} (hs : d.rest = c :: s) :
    d.literal = (.ok (.ofSymbol (.char c)), d.goTo s) := by
  simp only [literal, Cursor.next, hs]
  rfl

/-- Bases other than groups are read in the same way, however many groups may be opened. -/
theorem base_of_ne (content : Option (List Char → Reading Regex))
    (h : ∀ s, d.rest ≠ '(' :: s) :
    d.base.outcome = d.accept Base.build (readBase content d.rest) := by
  rw [base_outcome]
  cases hs : d.rest with
  | nil =>
    rw [readBase, accept_error, goTo_eq_self hs]
    rfl
  | cons c s =>
    have hc : c ≠ '(' := fun hc => h s (hc ▸ hs)
    simp only [readBase, if_neg hc]
    split_ifs with hescape hop
    · cases s with
      | nil => exact literal_of_nil rfl
      | cons c' rest =>
        have hcons : '\\' :: c' :: rest = d.rest := by rw [hs, hescape]
        have hsuffix : c' :: rest <:+ d.rest := hcons ▸ List.suffix_cons '\\' (c' :: rest)
        rw [literal_of_cons (d := d.goTo (c' :: rest)) rfl,
          goTo_goTo hsuffix (List.suffix_cons c' rest)]
        rfl
    · rw [accept_error, goTo_eq_self hs]
      rfl
    · exact literal_of_cons hs

theorem close_outcome (d : Descent) (A : Automaton) : d.close A = match d.rest with
    | ')' :: rest => (.ok A, d.goTo rest)
    | _ => (.error (d.missing (.exactly ')')), d) := by
  unfold close Cursor.eat lift
  cases hs : d.rest with
  | nil => rfl
  | cons c s =>
    by_cases hc : c = ')'
    · simp [hc, Except.map]
      rfl
    · simp [hc, Except.map]

theorem base_of_group (hbase : Serves n) (h : d.opened + 1 + n = d.limit)
    (hs : d.rest = '(' :: s) : d.base.outcome =
      d.accept Base.build (readBase (some fun s => readRegex (baseReader n) s) ('(' :: s)) := by
  have hlimit : ¬d.limit ≤ d.opened := by omega
  have hregex : ((d.goTo s).enter.regex []).outcome =
      (d.goTo s).enter.accept (joinTo []) (readRegex (baseReader n) s) := regex_eq hbase h rfl []
  have hread := leavesEnd_readRegex (leavesEnd_baseReader n)
  have hcontent : s <:+ d.rest := hs ▸ List.suffix_cons '(' s
  have hgoTo {rest : List Char} (h : rest <:+ s) : (d.goTo s).goTo rest = d.goTo rest :=
    goTo_goTo hcontent h
  rw [base_outcome, hs]
  simp only [↓reduceIte, if_neg hlimit]
  rw [hregex]
  cases hr : readRegex (baseReader n) s with
  | error e =>
    have hgroup : readBase (some fun s => readRegex (baseReader n) s) ('(' :: s) = .error e := by
      simp [readBase, hr]
    rw [hgroup, accept_error, accept_error, ← hgoTo (hread.error hr)]
    rfl
  | ok x =>
    obtain ⟨r, rest⟩ := x
    obtain ⟨A, _, _, hA, -⟩ := r.exists_build
    have hrest : rest <:+ s := hread.ok hr
    have hjoin : joinTo [] r = .ok A := hA
    have hclose := close_outcome (d.goTo rest) A
    rw [accept_ok, hjoin]
    change ((d.goTo s).goTo rest).close A = _
    rw [hgoTo hrest, hclose]
    rcases rest_of_readRegex hr with rfl | ⟨rest', rfl⟩
    · have hgroup : readBase (some fun s => readRegex (baseReader n) s) ('(' :: s) =
          .error ⟨.wanted (.exactly ')'), []⟩ := by simp [readBase, hr]
      rw [hgroup]
      rfl
    · have hgroup : (Base.group r).build = .ok A := hA
      have hclosed : (d.goTo (')' :: rest')).goTo rest' = d.goTo rest' :=
        goTo_goTo (hrest.trans hcontent) (List.suffix_cons ')' rest')
      rw [readBase_group hr, accept_ok, hgroup, ← hclosed]
      rfl

theorem serves (n : Nat) : Serves n := by
  induction n with
  | zero =>
    intro d h
    change d.base.outcome = d.accept Base.build (readBase none d.rest)
    by_cases hgroup : ∃ s, d.rest = '(' :: s
    · obtain ⟨s, hs⟩ := hgroup
      have hlimit : d.limit ≤ d.opened := by omega
      rw [base_outcome, hs]
      simp only [↓reduceIte, if_pos hlimit, readBase]
      rw [accept_error, goTo_eq_self hs]
      rfl
    · exact base_of_ne none (not_exists.1 hgroup)
  | succ n ih =>
    intro d h
    change d.base.outcome = d.accept Base.build
      (readBase (some fun s => readRegex (baseReader n) s) d.rest)
    by_cases hgroup : ∃ s, d.rest = '(' :: s
    · obtain ⟨s, hs⟩ := hgroup
      rw [hs]
      exact base_of_group ih (by omega) hs
    · exact base_of_ne _ (not_exists.1 hgroup)

/-- With no group open, a descent builds what the cursor builds, and then no group is open. -/
theorem produce_eq (h : d.opened = 0) (p : Production) :
    d.produce p = d.lift (d.toCursor.produce p) := by
  have hlimit : d.opened + d.limit = d.limit := by omega
  have hbase := serves d.limit
  cases p with
  | base => exact hbase d hlimit
  | factor => exact factor_eq hbase hlimit
  | term => exact term_eq hbase hlimit (t := .empty) rfl rfl
  | regex => exact regex_eq hbase hlimit rfl []

theorem parse_eq (h : d.opened = 0) : d.parse = d.toCursor.parse := by
  rw [parse, produce_eq h]
  simp only [Cursor.produce, Cursor.parse]
  cases hr : Regex.read d.limit d.rest with
  | error e => rfl
  | ok x =>
    obtain ⟨r, rest⟩ := x
    obtain ⟨A, _, _, hA, -⟩ := r.exists_build
    simp only [lift, Cursor.accept, hA, Except.mapError]
    cases rest with
    | nil =>
      simp only [hA]
      rfl
    | cons c s => rfl

theorem call_eq (h : d.opened = 0) (request : Cursor.Call) :
    d.call request = d.lift (d.toCursor.call request) := by
  cases request with
  | produce p =>
    rw [call, produce_eq h]
    rfl
  | _ => rfl

/-- A session of a descent is the session of its cursor, and no group is open after any call. -/
theorem session_eq (h : d.opened = 0) (requests : List Cursor.Call) : d.session requests =
    (d.toCursor.session requests).map fun answer => (answer.1, ⟨answer.2, 0⟩) := by
  induction requests generalizing d with
  | nil => rfl
  | cons request requests ih =>
    have hcall := call_eq h request
    have hopened : (d.call request).2.opened = 0 := by
      rw [hcall]
      exact h
    simp only [session, Cursor.session, List.map_cons]
    rw [ih hopened, hcall]
    simp [lift, h]

end Descent

end PatternAutomata
