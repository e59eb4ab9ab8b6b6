import Std.Data.ExtTreeSet

/-!
# Finite sets in order

Finite sets are search trees whose balance does not show: two sets with the same members are equal
values, and reading the members out gives them in increasing order. This file adds the least and the
greatest member, the membership facts in the form in which the other files use them, and the test
whether a list repeats something.
-/

namespace PatternAutomata.Ordered

variable {α : Type} [Ord α] [Std.TransOrd α]

/-- The least member. The walk upwards ends at the first member that it meets. -/
def least? (s : Std.ExtTreeSet α) : Option α :=
  match s.foldlM (fun _ a => Except.error a) () with
  | .ok () => none
  | .error a => some a

def greatest? (s : Std.ExtTreeSet α) : Option α :=
  match s.foldrM (fun a _ => Except.error a) () with
  | .ok () => none
  | .error a => some a

theorem least?_eq_min? {s : Std.ExtTreeSet α} : least? s = s.min? := by
  rw [least?, Std.ExtTreeSet.foldlM_eq_foldlM_toList, Std.ExtTreeSet.min?_eq_head?_toList]
  cases s.toList <;> rfl

theorem greatest?_eq_max? {s : Std.ExtTreeSet α} : greatest? s = s.max? := by
  rw [greatest?, Std.ExtTreeSet.foldrM_eq_foldrM_toList, Std.ExtTreeSet.max?_eq_getLast?_toList,
    ← List.head?_reverse, ← List.foldlM_reverse]
  cases s.toList.reverse <;> rfl

variable [Std.LawfulEqOrd α]

theorem mem_insert {s : Std.ExtTreeSet α} {a b : α} : a ∈ s.insert b ↔ a = b ∨ a ∈ s := by
  rw [Std.ExtTreeSet.mem_insert, Std.LawfulEqCmp.compare_eq_iff_eq, eq_comm]

theorem mem_singleton {a b : α} : a ∈ ({b} : Std.ExtTreeSet α) ↔ a = b := by
  rw [Std.ExtTreeSet.singleton_eq_insert, mem_insert]
  simp

theorem mem_ofList [DecidableEq α] {l : List α} {a : α} :
    a ∈ Std.ExtTreeSet.ofList l ↔ a ∈ l := by
  simp

theorem ofList_toList [DecidableEq α] (s : Std.ExtTreeSet α) : .ofList s.toList = s := by
  apply Std.ExtTreeSet.ext_mem
  intro a
  rw [mem_ofList, Std.ExtTreeSet.mem_toList]

theorem union_assoc (s t u : Std.ExtTreeSet α) : s ∪ t ∪ u = s ∪ (t ∪ u) := by
  apply Std.ExtTreeSet.ext_mem
  intro a
  simp only [Std.ExtTreeSet.mem_union_iff, or_assoc]

@[simp] theorem union_self (s : Std.ExtTreeSet α) : s ∪ s = s := by
  apply Std.ExtTreeSet.ext_mem
  intro a
  simp only [Std.ExtTreeSet.mem_union_iff, or_self]

@[simp] theorem empty_union (s : Std.ExtTreeSet α) : ∅ ∪ s = s := by
  apply Std.ExtTreeSet.ext_mem
  intro a
  simp [Std.ExtTreeSet.mem_union_iff]

theorem nodup_toList (s : Std.ExtTreeSet α) : s.toList.Nodup := by
  have hdistinct := s.distinct_toList
  simp only [Std.LawfulEqCmp.compare_eq_iff_eq] at hdistinct
  exact hdistinct

theorem size_le_one_iff {s : Std.ExtTreeSet α} : s.size ≤ 1 ↔ ∀ a ∈ s, ∀ b ∈ s, a = b := by
  have hnodup := nodup_toList s
  simp only [← Std.ExtTreeSet.length_toList, ← Std.ExtTreeSet.mem_toList]
  match s.toList, hnodup with
  | [], _ => simp
  | [a], _ => simp
  | a :: b :: l, hnodup =>
    have hne : a ≠ b := by
      rintro rfl
      simp at hnodup
    constructor
    · intro hsize
      simp at hsize
    · intro hall
      exact absurd (hall a (by simp) b (by simp)) hne

def meets (s t : Std.ExtTreeSet α) : Bool := s.toList.any (t.contains ·)

@[simp] theorem meets_iff {s t : Std.ExtTreeSet α} : meets s t ↔ ∃ a ∈ s, a ∈ t := by
  simp [meets]

theorem sublist_of_subset {s t : Std.ExtTreeSet α} (h : ∀ a ∈ s, a ∈ t) :
    s.toList.Sublist t.toList := by
  have hs : s = t.filter s.contains := by
    ext a
    simpa using h a
  rw [hs, Std.ExtTreeSet.toList_filter]
  exact List.filter_sublist

/-- Whether the entries of a list differ from each other and from the members of a set. -/
def isFresh (seen : Std.ExtTreeSet α) : List α → Bool
  | [] => true
  | a :: l => a ∉ seen && isFresh (seen.insert a) l

theorem isFresh_iff {seen : Std.ExtTreeSet α} {l : List α} :
    isFresh seen l ↔ l.Nodup ∧ ∀ a ∈ l, a ∉ seen := by
  induction l generalizing seen with
  | nil => simp [isFresh]
  | cons a l ih =>
    simp only [isFresh, Bool.and_eq_true, decide_eq_true_eq, ih, mem_insert, List.nodup_cons,
      List.forall_mem_cons]
    grind

end PatternAutomata.Ordered
