import PatternAutomata.Grammar.Cursor

/-!
# Readings leave an end of the text

Whether a reader succeeds or fails, the text that it leaves is an end of the text that it was given:
nothing is put back and nothing is skipped without being read. A cursor that moves along such ends
can do so in one step.
-/

namespace PatternAutomata

/-- The text that a reading leaves, whether it succeeds or not. -/
def Reading.rest {τ : Type} : Reading τ → List Char
  | .ok (_, rest) => rest
  | .error e => e.rest

/-- The reader leaves an end of every text. -/
def LeavesEnd {τ : Type} (read : List Char → Reading τ) : Prop :=
  ∀ s, Reading.rest (read s) <:+ s

namespace LeavesEnd

variable {τ : Type} {read : List Char → Reading τ} {s rest : List Char}

theorem ok {x : τ} (h : LeavesEnd read) (hread : read s = .ok (x, rest)) : rest <:+ s := by
  have hs := h s
  rw [hread] at hs
  exact hs

theorem error {e : Failure} (h : LeavesEnd read) (hread : read s = .error e) : e.rest <:+ s := by
  have hs := h s
  rw [hread] at hs
  exact hs

end LeavesEnd

variable {base : Consuming Base} {s : List Char}

theorem readStars_suffix (f : Factor) (s : List Char) : (readStars f s).2 <:+ s := by
  induction s generalizing f with
  | nil => exact List.suffix_rfl
  | cons c s ih =>
    unfold readStars
    split
    · exact (ih _).trans (List.suffix_cons c s)
    · exact List.suffix_rfl

theorem leavesEnd_readFactor (hbase : LeavesEnd base.read) : LeavesEnd (readFactor base) := by
  intro s
  unfold readFactor
  split
  · next e he => exact hbase.error he
  · next b rest hb => exact (readStars_suffix (.once b) rest).trans (hbase.ok hb)

theorem leavesEnd_readTerm (hbase : LeavesEnd base.read) (t : Term) :
    LeavesEnd (readTerm base t) := by
  intro s
  fun_induction readTerm base t s with
  | case1 => exact List.suffix_rfl
  | case2 t s _ e he => exact (leavesEnd_readFactor hbase).error he
  | case3 t s _ f rest hf ih => exact ih.trans ((leavesEnd_readFactor hbase).ok hf)

theorem leavesEnd_readRegex (hbase : LeavesEnd base.read) : LeavesEnd (readRegex base) := by
  have hterm := leavesEnd_readTerm hbase .empty
  intro s
  fun_induction readRegex base s with
  | case1 s e he => exact hterm.error he
  | case2 s t rest ht => exact hterm.ok ht
  | case3 s t rest ht => exact (List.suffix_cons '|' rest).trans (hterm.ok ht)
  | case4 s t rest ht _ _ e he ih =>
    rw [he] at ih
    exact (ih.trans (List.suffix_cons '|' rest)).trans (hterm.ok ht)
  | case5 s t rest ht _ _ r rest' hr ih =>
    rw [hr] at ih
    exact (ih.trans (List.suffix_cons '|' rest)).trans (hterm.ok ht)
  | case6 s t rest _ ht => exact hterm.ok ht

theorem leavesEnd_readBase (content : Option (List Char → Reading Regex))
    (hcontent : ∀ read, content = some read → LeavesEnd read) : LeavesEnd (readBase content) := by
  intro s
  unfold readBase
  split
  · exact List.suffix_rfl
  · next c s =>
    have hcons := List.suffix_cons c s
    split
    · split
      · exact List.suffix_rfl
      · next read =>
        have hread := hcontent read rfl
        split
        · next hr => exact (hread.error hr).trans hcons
        · next rest hr =>
          exact ((List.suffix_cons ')' rest).trans (hread.ok hr)).trans hcons
        · next hr => exact (hread.ok hr).trans hcons
    · split
      · split
        · exact List.nil_suffix
        · next d rest => exact (List.suffix_cons d rest).trans hcons
      · split
        · exact List.suffix_rfl
        · exact hcons

theorem leavesEnd_baseReader (n : Nat) : LeavesEnd (baseReader n).read := by
  induction n with
  | zero => exact leavesEnd_readBase none nofun
  | succ n ih =>
    refine leavesEnd_readBase (some fun s => readRegex (baseReader n) s) ?_
    rintro _ ⟨rfl⟩
    exact leavesEnd_readRegex ih

namespace Cursor

variable {c : Cursor} {s s' : List Char}

@[simp] theorem moveTo_rest (c : Cursor) : c.moveTo c.rest = c := by simp [moveTo]

theorem moveTo_moveTo (hs : s <:+ c.rest) (hs' : s' <:+ s) :
    (c.moveTo s).moveTo s' = c.moveTo s' := by
  have h := hs.length_le
  have h' := hs'.length_le
  have hposition : c.position + (c.rest.length - s.length) + (s.length - s'.length) =
      c.position + (c.rest.length - s'.length) := by omega
  simp only [moveTo, hposition]

end Cursor

end PatternAutomata
