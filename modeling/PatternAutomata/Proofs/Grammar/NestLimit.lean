import PatternAutomata.Proofs.Grammar.Compilation
import PatternAutomata.Proofs.Grammar.Scanner

/-!
# What the limit on nesting cuts off

Two compilations of one pattern with different limits go through it in the same way until a group
goes beyond the lower limit. If there is no such group, then they end alike. Otherwise the one with
the lower limit ends at its parenthesis, while the other one gets past it, so an error of that one
stands further on.
-/

namespace PatternAutomata

def CompileError.position? : CompileError → Option Nat
  | unexpected _ _ position => some position
  | unexpectedEnd _ position => some position
  | tooDeep _ position => some position
  | invalid _ => none

/-- With the low limit the result is the same as with the high one, or it is cut off by the limit;
then an error that the high limit gives stands after the cut. -/
structure CutsOff {α : Type} (low high : Except CompileError α) : Prop where
  eq_of_ne_tooDeep : (∀ limit position, low ≠ .error (.tooDeep limit position)) → high = low
  lt_of_tooDeep : ∀ limit position e, low = .error (.tooDeep limit position) → high = .error e →
    ∃ place, e.position? = some place ∧ position < place

namespace CutsOff

variable {α : Type} {low high : Except CompileError α} {limit position : Nat}

theorem of_eq (h : high = low) (hne : ∀ limit position, low ≠ .error (.tooDeep limit position)) :
    CutsOff low high where
  eq_of_ne_tooDeep _ := h
  lt_of_tooDeep limit position _ hlow := absurd hlow (hne limit position)

theorem of_tooDeep
    (h : ∀ e, high = .error e → ∃ place, e.position? = some place ∧ position < place) :
    CutsOff (.error (.tooDeep limit position)) high where
  eq_of_ne_tooDeep hne := absurd rfl (hne limit position)
  lt_of_tooDeep _ _ e hlow hhigh := by
    cases hlow
    exact h e hhigh

end CutsOff

variable {limit n m position depth : Nat} {context : Context} {p s : List Char} {e : CompileError}

/-- A scan does not fail before the place where it begins. -/
theorem le_position_of_scan_eq_error (h : scan limit position depth context s = .error e) :
    ∃ place, e.position? = some place ∧ position ≤ place := by
  fun_induction scan limit position depth context s with
  | case3 => cases h
  | case1 | case2 | case4 | case6 | case9 | case11 | case12 | case13 =>
    cases h
    exact ⟨_, rfl, by omega⟩
  | case5 _ _ _ _ _ ih | case7 _ _ _ _ _ _ ih | case8 _ _ _ _ _ ih | case10 _ _ _ _ _ _ ih
  | case14 _ _ _ _ _ _ _ _ _ _ ih | case15 _ _ _ _ _ _ _ _ _ _ ih =>
    obtain ⟨place, hplace, hle⟩ := ih h
    exact ⟨place, hplace, by omega⟩

/-- The scans go along together as long as no more groups are open than the lower limit allows. -/
theorem scan_cutsOff (hdepth : depth ≤ n) (h : n < m) :
    CutsOff (scan n position depth context s) (scan m position depth context s) := by
  -- Only an opening parenthesis asks for the limit; while `depth ≤ n`, the lower one refuses first.
  fun_induction scan n position depth context s with
  | case4 position depth context s hlimit =>
    have hpass : scan m position depth context ('(' :: s) =
        scan m (position + 1) (depth + 1) .start s := by
      have hm : ¬m ≤ depth := by omega
      simp [scan_cons, hm]
    apply CutsOff.of_tooDeep
    intro e he
    rw [hpass] at he
    exact le_position_of_scan_eq_error he
  | case5 position depth context s hlimit ih =>
    have hm : ¬m ≤ depth := by omega
    simpa [scan_cons, hm] using ih (by omega)
  | case1 | case2 | case3 | case6 => exact .of_eq (by simp [scan, *]) (by simp)
  | case9 | case11 | case12 | case13 => exact .of_eq (by simp [scan_cons, *]) (by simp)
  | case7 _ _ _ _ _ _ ih | case8 _ _ _ _ _ ih | case10 _ _ _ _ _ _ ih =>
    simpa [scan_cons] using ih hdepth
  | case14 position depth context s hafter hopen _ _ _ _ ih =>
    simpa [scan_cons, hafter, hopen] using ih (by omega)
  | case15 position depth context c s hopen hescape hstar hbar hclose ih =>
    simpa [scan_cons, hopen, hescape, hstar, hbar, hclose] using ih hdepth

/-- A tree that the lower limit allows is allowed by the higher one. -/
theorem Regex.Derives.mono {r : Regex} (h : r.Derives n p) (hle : n ≤ m) : r.Derives m p where
  text_eq := h.text_eq
  isProper := h.isProper
  depth_le := h.depth_le.trans hle

theorem compile_mono {A : Automaton} (h : compile p n = .ok A) (hle : n ≤ m) :
    compile p m = .ok A := by
  obtain ⟨r, hr, hA⟩ := exists_derives_of_compile h
  rw [compile_of_derives (hr.mono hle), hA]
  rfl

/-- The limit on nesting only ever cuts off. -/
theorem compile_cutsOff (p : List Char) (h : n < m) : CutsOff (compile p n) (compile p m) := by
  cases hn : compile p n with
  | ok A => exact .of_eq (compile_mono hn h.le) nofun
  | error e =>
    have hscan := (parse_eq_error_iff_scan p n e).1 hn
    have hcuts : CutsOff (scan n 0 0 .start p) (scan m 0 0 .start p) :=
      scan_cutsOff (Nat.zero_le n) h
    rw [hscan] at hcuts
    constructor
    · intro hne
      have heq := hcuts.eq_of_ne_tooDeep fun limit position he => by
        cases he
        exact hne limit position rfl
      exact (parse_eq_error_iff_scan p m e).2 heq
    · intro limit position e' he hm
      cases he
      exact hcuts.lt_of_tooDeep limit position e' rfl ((parse_eq_error_iff_scan p m e').1 hm)

/-- The lower limit ends the pattern `((a)` at its second parenthesis, the higher one at its end. -/
theorem compile_cutsOff_openGroup :
    compile ['(', '(', 'a', ')'] 1 = .error (.tooDeep 1 1) ∧
      compile ['(', '(', 'a', ')'] 2 = .error (.unexpectedEnd (.exactly ')') 4) ∧
      CutsOff (compile ['(', '(', 'a', ')'] 1) (compile ['(', '(', 'a', ')'] 2) :=
  ⟨(parse_eq_error_iff_scan _ 1 _).2 rfl, (parse_eq_error_iff_scan _ 2 _).2 rfl,
    compile_cutsOff _ (Nat.lt_succ_self 1)⟩

end PatternAutomata
