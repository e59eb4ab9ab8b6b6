import PatternAutomata.Grammar.Reader

/-!
# Reading is inverse to spelling

A tree derives a pattern if it spells the pattern, keeps to the grammar and does not nest too
deeply. The readers give only such trees, and they give every such tree back from its text, whatever
text follows that cannot be read as a part of it. So a pattern has at most one tree, and the readers
find it. Reading a group is a matter of the remaining nesting depth, the rest one of the trees.
-/

namespace PatternAutomata

def Regex.hasFactors : Regex → Bool
  | .single t => !t.isEmpty
  | .alt t r => !t.isEmpty && r.hasFactors

mutual

/-- Whether operators are escaped and no branch beside a bar is empty. -/
def Base.isProper : Base → Bool
  | .plain c => !isOperator c
  | .escaped _ => true
  | .group r => r.isProper

def Factor.isProper : Factor → Bool
  | .once b => b.isProper
  | .star f => f.isProper

def Term.isProper : Term → Bool
  | .empty => true
  | .snoc t f => t.isProper && f.isProper

def Regex.isProper : Regex → Bool
  | .single t => t.isProper
  | .alt t r => t.isProper && !t.isEmpty && r.isProper && r.hasFactors

end

mutual

/-- How deep groups nest. -/
def Base.depth : Base → Nat
  | .plain _ => 0
  | .escaped _ => 0
  | .group r => r.depth + 1

def Factor.depth : Factor → Nat
  | .once b => b.depth
  | .star f => f.depth

def Term.depth : Term → Nat
  | .empty => 0
  | .snoc t f => max t.depth f.depth

def Regex.depth : Regex → Nat
  | .single t => t.depth
  | .alt t r => max t.depth r.depth

end

/-- The tree is a derivation of the text in which groups nest at most `limit` deep. -/
structure Regex.Derives (r : Regex) (limit : Nat) (text : List Char) : Prop where
  text_eq : r.text = text
  isProper : r.isProper
  depth_le : r.depth ≤ limit

/-- What a reader of bases has to do: it spells what it has read, within the grammar and the
limit. -/
def Consuming.IsSound (base : Consuming Base) (limit : Nat) : Prop :=
  ∀ {s b rest}, base.read s = .ok (b, rest) → b.text ++ rest = s ∧ b.isProper ∧ b.depth ≤ limit

theorem readStars_text (f : Factor) (s : List Char) :
    (readStars f s).1.text ++ (readStars f s).2 = f.text ++ s := by
  induction s generalizing f with
  | nil => rfl
  | cons c s ih =>
    unfold readStars
    split
    · next hc =>
      rw [ih, Factor.text, hc, List.append_assoc]
      rfl
    · rfl

theorem readStars_isProper (f : Factor) (s : List Char) :
    (readStars f s).1.isProper = f.isProper := by
  induction s generalizing f with
  | nil => rfl
  | cons c s ih =>
    unfold readStars
    split
    · exact ih (.star f)
    · rfl

theorem readStars_depth (f : Factor) (s : List Char) : (readStars f s).1.depth = f.depth := by
  induction s generalizing f with
  | nil => rfl
  | cons c s ih =>
    unfold readStars
    split
    · exact ih (.star f)
    · rfl

section Sound

variable {base : Consuming Base} {limit : Nat} {s rest : List Char}

theorem readFactor_sound (hbase : base.IsSound limit) {f : Factor}
    (h : readFactor base s = .ok (f, rest)) :
    f.text ++ rest = s ∧ f.isProper ∧ f.depth ≤ limit := by
  unfold readFactor at h
  split at h
  · cases h
  · next b r hb =>
    obtain ⟨hs, hproper, hdepth⟩ := hbase hb
    have hstars : readStars (.once b) r = (f, rest) := Except.ok.inj h
    have htext := readStars_text (.once b) r
    have hp := readStars_isProper (.once b) r
    have hd := readStars_depth (.once b) r
    rw [hstars] at htext hp hd
    refine ⟨htext.trans hs, ?_, ?_⟩
    · rw [hp]
      exact hproper
    · rw [hd]
      exact hdepth

theorem readTerm_sound (hbase : base.IsSound limit) {t u : Term}
    (h : readTerm base t s = .ok (u, rest)) (ht : t.isProper) (hd : t.depth ≤ limit) :
    u.text ++ rest = t.text ++ s ∧ u.isProper ∧ u.depth ≤ limit := by
  fun_induction readTerm base t s with
  | case1 =>
    cases h
    exact ⟨rfl, ht, hd⟩
  | case2 => cases h
  | case3 t s _ f r hf ih =>
    obtain ⟨hs, hproper, hdepth⟩ := readFactor_sound hbase hf
    have htf : (Term.snoc t f).isProper := Bool.and_eq_true_iff.2 ⟨ht, hproper⟩
    obtain ⟨htext, hu⟩ := ih h htf (Nat.max_le.2 ⟨hd, hdepth⟩)
    refine ⟨?_, hu⟩
    rw [htext, ← hs, Term.text, List.append_assoc]

/-- A term that has begun, or that does not end at once, gets a factor. -/
theorem isEmpty_of_readTerm {t u : Term} (h : readTerm base t s = .ok (u, rest))
    (ht : t.isEmpty = false ∨ endsTerm s = false) : u.isEmpty = false := by
  fun_induction readTerm base t s with
  | case1 t s hs =>
    cases h
    exact ht.resolve_right (by simp [hs])
  | case2 => cases h
  | case3 t s _ f r hf ih => exact ih h (.inl rfl)

theorem readRegex_sound (hbase : base.IsSound limit) {r : Regex}
    (h : readRegex base s = .ok (r, rest)) :
    r.text ++ rest = s ∧ r.isProper ∧ r.depth ≤ limit ∧ (endsTerm s = false → r.hasFactors) := by
  fun_induction readRegex base s generalizing r rest with
  | case1 => cases h
  | case2 => cases h
  | case3 => cases h
  | case4 => cases h
  | case5 s t rest' ht hne hends r' rest'' hr ih =>
    cases h
    obtain ⟨htext, htproper, htdepth⟩ := readTerm_sound hbase ht rfl (Nat.zero_le _)
    obtain ⟨hrtext, hrproper, hrdepth, hrfactors⟩ := ih hr
    have hfactors : r'.hasFactors := hrfactors (by simpa using hends)
    refine ⟨?_, ?_, Nat.max_le.2 ⟨htdepth, hrdepth⟩, fun _ => ?_⟩
    · rw [Regex.text, List.append_assoc, List.cons_append, hrtext]
      exact htext
    · simp [Regex.isProper, htproper, hne, hrproper, hfactors]
    · simp [Regex.hasFactors, hne, hfactors]
  | case6 s t rest' _ ht =>
    cases h
    obtain ⟨htext, htproper, htdepth⟩ := readTerm_sound hbase ht rfl (Nat.zero_le _)
    refine ⟨htext, htproper, htdepth, fun hs => ?_⟩
    simp [Regex.hasFactors, isEmpty_of_readTerm ht (.inr hs)]

/-- The limit is one more than what is left for the content of a group. -/
theorem readBase_sound (content : Option (List Char → Reading Regex)) {b : Base}
    (hcontent : ∀ read, content = some read → ∀ {s r rest}, read s = .ok (r, rest) →
      r.text ++ rest = s ∧ r.isProper ∧ r.depth + 1 ≤ limit)
    (h : readBase content s = .ok (b, rest)) :
    b.text ++ rest = s ∧ b.isProper ∧ b.depth ≤ limit := by
  unfold readBase at h
  split at h
  · cases h
  · next c s =>
    split at h
    · next hc =>
      split at h
      · cases h
      · next read =>
        split at h
        · cases h
        · next r rest' hr =>
          cases h
          obtain ⟨htext, hproper, hdepth⟩ := hcontent read rfl hr
          refine ⟨?_, hproper, hdepth⟩
          rw [hc, ← htext]
          simp [Base.text]
        · cases h
    · split at h
      · next hc =>
        split at h
        · cases h
        · cases h
          exact ⟨by rw [hc]; rfl, rfl, Nat.zero_le _⟩
      · split at h
        · cases h
        · next hop =>
          cases h
          exact ⟨rfl, by simpa [Base.isProper] using hop, Nat.zero_le _⟩

end Sound

theorem baseReader_isSound (limit : Nat) : (baseReader limit).IsSound limit := by
  induction limit with
  | zero => exact fun h => readBase_sound none nofun h
  | succ n ih =>
    intro s b rest h
    refine readBase_sound (some fun s => readRegex (baseReader n) s) ?_ h
    rintro _ ⟨rfl⟩ s r rest hr
    obtain ⟨htext, hproper, hdepth, -⟩ := readRegex_sound ih hr
    exact ⟨htext, hproper, Nat.succ_le_succ hdepth⟩

/-- Whether a factor can begin here: neither a term nor a row of stars does. -/
def startsFactor : List Char → Bool
  | [] => false
  | c :: _ => !(c == ')' || c == '|' || c == '*')

theorem endsTerm_of_startsFactor {s : List Char} (h : startsFactor s) : endsTerm s = false := by
  cases s with
  | nil => cases h
  | cons c s =>
    simp only [startsFactor, Bool.not_eq_true', Bool.or_eq_false_iff] at h
    simp [endsTerm, h.1.1, h.1.2]

theorem head?_ne_star_of_startsFactor {s : List Char} (h : startsFactor s) :
    s.head? ≠ some '*' := by
  cases s with
  | nil => cases h
  | cons c s =>
    intro hc
    cases hc
    cases h

theorem head?_ne_star_of_endsTerm {s : List Char} (h : endsTerm s) : s.head? ≠ some '*' := by
  cases s with
  | nil => exact nofun
  | cons c s =>
    intro hc
    cases hc
    cases h

theorem Base.startsFactor_text {b : Base} (h : b.isProper) (s : List Char) :
    startsFactor (b.text ++ s) := by
  cases b with
  | plain c =>
    have hc : isOperator c = false := by simpa [Base.isProper] using h
    simp only [isOperator, Bool.or_eq_false_iff] at hc
    obtain ⟨⟨⟨⟨-, hclose⟩, hstar⟩, hbar⟩, -⟩ := hc
    simp [Base.text, startsFactor, hclose, hstar, hbar]
  | escaped c => rfl
  | group r => rfl

theorem Factor.startsFactor_text {f : Factor} (h : f.isProper) (s : List Char) :
    startsFactor (f.text ++ s) := by
  match f with
  | .once b => exact Base.startsFactor_text h s
  | .star f =>
    rw [Factor.text, List.append_assoc]
    exact Factor.startsFactor_text (f := f) h _

theorem Term.startsFactor_text {t : Term} (h : t.isProper) (hne : t.isEmpty = false)
    (s : List Char) : startsFactor (t.text ++ s) := by
  match t with
  | .empty => cases hne
  | .snoc .empty f => exact Factor.startsFactor_text h s
  | .snoc (.snoc t g) f =>
    have ht : (Term.snoc t g).isProper := (Bool.and_eq_true_iff.1 h).1
    rw [Term.text, List.append_assoc]
    exact Term.startsFactor_text ht rfl _

theorem Regex.startsFactor_text {r : Regex} (h : r.isProper) (hfactors : r.hasFactors)
    (s : List Char) : startsFactor (r.text ++ s) := by
  cases r with
  | single t =>
    have hne : t.isEmpty = false := by simpa [Regex.hasFactors] using hfactors
    exact Term.startsFactor_text h hne s
  | alt t r =>
    simp only [Regex.isProper, Bool.and_eq_true, Bool.not_eq_true'] at h
    rw [Regex.text, List.append_assoc]
    exact Term.startsFactor_text h.1.1.1 h.1.1.2 _

theorem readTerm_eq (base : Consuming Base) (t : Term) (s : List Char) :
    readTerm base t s = if endsTerm s then .ok (t, s) else
      match readFactor base s with
      | .error e => .error e
      | .ok (f, rest) => readTerm base (.snoc t f) rest := by
  rw [readTerm]
  split
  · rfl
  · split <;> next h => rw [h]

theorem readRegex_eq (base : Consuming Base) (s : List Char) :
    readRegex base s = match readTerm base .empty s with
      | .error e => .error e
      | .ok (t, '|' :: rest) =>
        if t.isEmpty then .error ⟨.wanted .branch, '|' :: rest⟩
        else if endsTerm rest then .error ⟨.wanted .branch, rest⟩
        else match readRegex base rest with
          | .error e => .error e
          | .ok (r, rest) => .ok (.alt t r, rest)
      | .ok (t, rest) => .ok (.single t, rest) := by
  rw [readRegex]
  split
  · next h => rw [h]
  · next h =>
    rw [h]
    rfl
  · next h => simp only [h]

theorem readStars_of_head?_ne {s : List Char} (f : Factor) (h : s.head? ≠ some '*') :
    readStars f s = (f, s) := by
  cases s with
  | nil => rfl
  | cons c s =>
    have hc : c ≠ '*' := by simpa using h
    simp [readStars, hc]

theorem readBase_plain (content : Option (List Char → Reading Regex)) {c : Char}
    (h : isOperator c = false) (s : List Char) : readBase content (c :: s) = .ok (.plain c, s) := by
  have hop := h
  simp only [isOperator, Bool.or_eq_false_iff, beq_eq_false_iff_ne] at h
  simp [readBase, hop, h]

theorem readBase_group {read : List Char → Reading Regex} {s rest : List Char} {r : Regex}
    (h : read s = .ok (r, ')' :: rest)) :
    readBase (some read) ('(' :: s) = .ok (.group r, rest) := by
  simp [readBase, h]

theorem readTerm_of_endsTerm {base : Consuming Base} {s : List Char} (t : Term)
    (h : endsTerm s) : readTerm base t s = .ok (t, s) := by
  rw [readTerm_eq, if_pos h]

theorem readTerm_of_readFactor {base : Consuming Base} {s rest : List Char} {f : Factor} (t : Term)
    (h : endsTerm s = false) (hf : readFactor base s = .ok (f, rest)) :
    readTerm base t s = readTerm base (.snoc t f) rest := by
  rw [readTerm_eq, if_neg (by simp [h]), hf]

theorem readRegex_single {base : Consuming Base} {s rest : List Char} {t : Term}
    (h : readTerm base .empty s = .ok (t, rest)) (hbar : rest.head? ≠ some '|') :
    readRegex base s = .ok (.single t, rest) := by
  rw [readRegex_eq, h]
  split
  · next h' => cases h'
  · next h' =>
    cases h'
    exact absurd rfl hbar
  · next h' =>
    cases h'
    rfl

theorem readRegex_alt {base : Consuming Base} {s s' rest : List Char} {t : Term} {r : Regex}
    (h : readTerm base .empty s = .ok (t, '|' :: s')) (hne : t.isEmpty = false)
    (hends : endsTerm s' = false) (hr : readRegex base s' = .ok (r, rest)) :
    readRegex base s = .ok (.alt t r, rest) := by
  rw [readRegex_eq, h]
  simp [hne, hends, hr]

mutual

theorem Base.read_text {b : Base} {n : Nat} (h : b.isProper) (hd : b.depth ≤ n) (s : List Char) :
    (baseReader n).read (b.text ++ s) = .ok (b, s) := by
  match b with
  | .plain c =>
    have hop : isOperator c = false := by simpa [Base.isProper] using h
    cases n with
    | zero => exact readBase_plain none hop s
    | succ n => exact readBase_plain (some _) hop s
  | .escaped c => cases n <;> rfl
  | .group r =>
    cases n with
    | zero => cases hd
    | succ n =>
      have hr : readRegex (baseReader n) (r.text ++ ')' :: s) = .ok (r, ')' :: s) :=
        Regex.read_text h (Nat.le_of_succ_le_succ hd) rfl (by simp)
      have hgroup : (Base.group r).text ++ s = '(' :: (r.text ++ ')' :: s) := by
        simp [Base.text]
      rw [hgroup]
      exact readBase_group hr

theorem Factor.read_text {f : Factor} {n : Nat} (h : f.isProper) (hd : f.depth ≤ n)
    (s : List Char) : readFactor (baseReader n) (f.text ++ s) = .ok (readStars f s) := by
  match f with
  | .once b =>
    rw [readFactor, Factor.text, Base.read_text h hd s]
  | .star f =>
    rw [Factor.text, List.append_assoc, Factor.read_text (f := f) h hd]
    rfl

theorem Term.read_text {t : Term} {n : Nat} (h : t.isProper) (hd : t.depth ≤ n) {s : List Char}
    (hs : s.head? ≠ some '*') :
    readTerm (baseReader n) .empty (t.text ++ s) = readTerm (baseReader n) t s := by
  match t with
  | .empty => rfl
  | .snoc t f =>
    obtain ⟨ht, hf⟩ := Bool.and_eq_true_iff.1 h
    obtain ⟨htd, hfd⟩ := Nat.max_le.1 hd
    have hstart := Factor.startsFactor_text hf s
    have hfactor : readFactor (baseReader n) (f.text ++ s) = .ok (f, s) := by
      rw [Factor.read_text hf hfd, readStars_of_head?_ne f hs]
    rw [Term.text, List.append_assoc, Term.read_text ht htd (head?_ne_star_of_startsFactor hstart)]
    exact readTerm_of_readFactor t (endsTerm_of_startsFactor hstart) hfactor

theorem Regex.read_text {r : Regex} {n : Nat} (h : r.isProper) (hd : r.depth ≤ n) {s : List Char}
    (hs : endsTerm s) (hbar : s.head? ≠ some '|') :
    readRegex (baseReader n) (r.text ++ s) = .ok (r, s) := by
  match r with
  | .single t =>
    have ht : readTerm (baseReader n) .empty (t.text ++ s) = .ok (t, s) := by
      rw [Term.read_text h hd (head?_ne_star_of_endsTerm hs), readTerm_of_endsTerm t hs]
    exact readRegex_single ht hbar
  | .alt t r =>
    simp only [Regex.isProper, Bool.and_eq_true, Bool.not_eq_true'] at h
    obtain ⟨⟨⟨ht, hne⟩, hr⟩, hfactors⟩ := h
    obtain ⟨htd, hrd⟩ := Nat.max_le.1 hd
    have hterm : readTerm (baseReader n) .empty (t.text ++ '|' :: (r.text ++ s)) =
        .ok (t, '|' :: (r.text ++ s)) := by
      rw [Term.read_text ht htd (by simp), readTerm_of_endsTerm t rfl]
    rw [Regex.text, List.append_assoc]
    have hstart := Regex.startsFactor_text hr hfactors s
    exact readRegex_alt hterm hne (endsTerm_of_startsFactor hstart)
      (Regex.read_text hr hrd hs hbar)

end

theorem Regex.text_injective {r r' : Regex} (h : r.isProper) (h' : r'.isProper)
    (htext : r.text = r'.text) : r = r' := by
  have hr := Regex.read_text h (Nat.le_max_left r.depth r'.depth) (s := []) rfl nofun
  have hr' := Regex.read_text h' (Nat.le_max_right r.depth r'.depth) (s := []) rfl nofun
  rw [htext, hr'] at hr
  cases hr
  rfl

namespace Regex.Derives

variable {r r' : Regex} {n m : Nat} {p : List Char}

theorem eq_of_derives (h : r.Derives n p) (h' : r'.Derives m p) : r = r' :=
  text_injective h.isProper h'.isProper (h.text_eq.trans h'.text_eq.symm)

/-- A pattern is read to its end exactly when it has a derivation. -/
theorem iff_read : r.Derives n p ↔ Regex.read n p = .ok (r, []) := by
  constructor
  · intro h
    have hread := Regex.read_text h.isProper h.depth_le (s := []) rfl nofun
    rw [List.append_nil, h.text_eq] at hread
    exact hread
  · intro h
    obtain ⟨htext, hproper, hdepth, -⟩ := readRegex_sound (baseReader_isSound n) h
    rw [List.append_nil] at htext
    exact ⟨htext, hproper, hdepth⟩

end Regex.Derives

end PatternAutomata
