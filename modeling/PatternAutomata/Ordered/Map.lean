import Std.Data.ExtTreeMap

/-!
# Finite maps in order

Finite maps are search trees whose balance does not show: two maps that answer every look-up alike
are equal values. This file adds how to merge two maps and how to renumber keys, and says what each
of these does to the look-ups.
-/

namespace PatternAutomata.Ordered

variable {κ β γ : Type} [Ord κ] [Std.TransOrd κ]

/-- In a list without repeated keys every entry counts. -/
theorem getElem?_ofList_eq_some_iff [Std.LawfulEqOrd κ] [DecidableEq κ] {l : List (κ × β)}
    {k : κ} {b : β} (h : l.Pairwise fun x y => x.1 ≠ y.1) :
    (Std.ExtTreeMap.ofList l)[k]? = some b ↔ (k, b) ∈ l := by
  have hdistinct : l.Pairwise fun x y => ¬compare x.1 y.1 = .eq := by simpa using h
  have hget {b' : β} (hb : (k, b') ∈ l) : (Std.ExtTreeMap.ofList l)[k]? = some b' :=
    Std.ExtTreeMap.getElem?_ofList_of_mem Std.ReflCmp.compare_self hdistinct hb
  refine ⟨fun hb => ?_, hget⟩
  by_cases hk : ∃ b', (k, b') ∈ l
  · obtain ⟨b', hb'⟩ := hk
    rw [hget hb', Option.some.injEq] at hb
    exact hb ▸ hb'
  · rw [Std.ExtTreeMap.getElem?_ofList_of_contains_eq_false (by simpa using hk)] at hb
    cases hb

theorem eq_some_or_mem_of_foldl_insert [Std.LawfulEqOrd κ] {m : Std.ExtTreeMap κ β}
    {l : List (κ × β)} {k : κ} {b : β}
    (h : (l.foldl (fun m e => m.insert e.1 e.2) m)[k]? = some b) : m[k]? = some b ∨ (k, b) ∈ l := by
  induction l generalizing m with
  | nil => exact .inl h
  | cons e l ih =>
    rcases ih h with h | h
    · rw [Std.ExtTreeMap.getElem?_insert] at h
      split at h
      · next hk =>
        cases h
        obtain rfl := Std.LawfulEqCmp.eq_of_compare hk
        exact .inr (.head _)
      · exact .inl h
    · exact .inr (.tail _ h)

theorem mem_of_getElem?_ofList [Std.LawfulEqOrd κ] {l : List (κ × β)} {k : κ} {b : β}
    (h : (Std.ExtTreeMap.ofList l)[k]? = some b) : (k, b) ∈ l := by
  rw [Std.ExtTreeMap.ofList_eq_foldl] at h
  simpa using eq_some_or_mem_of_foldl_insert h

/-- Sets the value at a key, or combines it with the value that is there. -/
def put (f : β → β → β) (m : Std.ExtTreeMap κ β) (k : κ) (b : β) : Std.ExtTreeMap κ β :=
  m.alter k fun old => some (old.elim b (f · b))

/-- Takes the entries of both maps; under a shared key the values are combined by `f`. The smaller
map is put into the larger. -/
def merge (f : β → β → β) (m n : Std.ExtTreeMap κ β) : Std.ExtTreeMap κ β :=
  if n.size ≤ m.size then n.foldl (put f) m else m.foldl (put fun x y => f y x) n

theorem getElem?_foldl_put [Std.LawfulEqOrd κ] {f : β → β → β} {m : Std.ExtTreeMap κ β}
    {l : List (κ × β)} {k : κ} (hl : l.Pairwise fun x y => x.1 ≠ y.1) {o : Option β}
    (ho : ∀ b, o = some b ↔ (k, b) ∈ l) :
    (l.foldl (fun m e => put f m e.1 e.2) m)[k]? = Option.merge f m[k]? o := by
  induction l generalizing m o with
  | nil =>
    have : o = none := Option.eq_none_iff_forall_ne_some.2 fun b hb => by simpa using (ho b).1 hb
    simp [this]
  | cons e l ih =>
    obtain ⟨i, b⟩ := e
    obtain ⟨hi, hl⟩ := List.pairwise_cons.1 hl
    by_cases hk : i = k
    · subst hk
      have hb : o = some b := (ho b).2 (.head _)
      have hnone : ∀ b, none = some b ↔ (i, b) ∈ l :=
        fun _ => ⟨nofun, fun h => (hi _ h rfl).elim⟩
      rw [List.foldl_cons, ih hl hnone, hb, put, Std.ExtTreeMap.getElem?_alter_self]
      cases m[i]? <;> rfl
    · have ho' : ∀ b, o = some b ↔ (k, b) ∈ l := fun b' => by
        rw [ho, List.mem_cons, or_iff_right]
        rintro ⟨⟩
        exact hk rfl
      rw [List.foldl_cons, ih hl ho', put, Std.ExtTreeMap.getElem?_alter]
      simp [hk]

theorem getElem?_foldl [Std.LawfulEqOrd κ] {f : β → β → β} {m n : Std.ExtTreeMap κ β} {k : κ} :
    (n.foldl (put f) m)[k]? = Option.merge f m[k]? n[k]? := by
  rw [Std.ExtTreeMap.foldl_eq_foldl_toList]
  exact getElem?_foldl_put (by simpa using n.distinct_keys_toList) fun b => by simp

@[simp] theorem getElem?_merge [Std.LawfulEqOrd κ] {f : β → β → β} {m n : Std.ExtTreeMap κ β}
    {k : κ} : (merge f m n)[k]? = Option.merge f m[k]? n[k]? := by
  unfold merge
  split
  · exact getElem?_foldl
  · rw [getElem?_foldl]
    cases m[k]? <;> cases n[k]? <;> rfl

theorem merge_eq_empty_iff [Std.LawfulEqOrd κ] {f : β → β → β} {m n : Std.ExtTreeMap κ β} :
    merge f m n = ∅ ↔ m = ∅ ∧ n = ∅ := by
  simp only [Std.ExtTreeMap.eq_empty_iff_forall_not_mem, Std.ExtTreeMap.mem_iff_isSome_getElem?,
    getElem?_merge, ← forall_and]
  refine forall_congr' fun k => ?_
  cases m[k]? <;> cases n[k]? <;> simp

def shiftKeys (k : Nat) (f : β → γ) (m : Std.ExtTreeMap Nat β) : Std.ExtTreeMap Nat γ :=
  .ofList (m.toList.map fun e => (e.1 + k, f e.2))

theorem getElem?_shiftKeys {k q : Nat} {f : β → γ} {m : Std.ExtTreeMap Nat β} :
    (shiftKeys k f m)[q]? = if k ≤ q then m[q - k]?.map f else none := by
  have hdistinct : (m.toList.map fun e => (e.1 + k, f e.2)).Pairwise fun x y => x.1 ≠ y.1 := by
    simpa [List.pairwise_map] using m.distinct_keys_toList
  refine Option.ext fun b => ?_
  rw [shiftKeys, getElem?_ofList_eq_some_iff hdistinct]
  simp only [List.mem_map, Prod.exists, Std.ExtTreeMap.mem_toList_iff_getElem?_eq_some,
    Prod.mk.injEq]
  constructor
  · rintro ⟨p, b, hp, rfl, rfl⟩
    simp [hp]
  · intro h
    split at h
    · obtain ⟨b, hb, rfl⟩ := Option.map_eq_some_iff.1 h
      exact ⟨_, b, hb, by omega, rfl⟩
    · cases h

@[simp] theorem getElem?_shiftKeys_add {k p : Nat} {f : β → γ} {m : Std.ExtTreeMap Nat β} :
    (shiftKeys k f m)[p + k]? = m[p]?.map f := by
  simp [getElem?_shiftKeys]

theorem shiftKeys_eq_empty_iff {k : Nat} {f : β → γ} {m : Std.ExtTreeMap Nat β} :
    shiftKeys k f m = ∅ ↔ m = ∅ := by
  simp [shiftKeys]

/-- Changes every key by `f` and every value by `g`. Of keys that become equal the last one
counts. -/
def mapKeys (f : Nat → Nat) (g : β → γ) (m : Std.ExtTreeMap Nat β) : Std.ExtTreeMap Nat γ :=
  .ofList (m.toList.map fun e => (f e.1, g e.2))

theorem exists_of_getElem?_mapKeys {f : Nat → Nat} {g : β → γ} {m : Std.ExtTreeMap Nat β} {k : Nat}
    {c : γ} (h : (mapKeys f g m)[k]? = some c) : ∃ (i : Nat) (b : β), m[i]? = some b ∧ g b = c := by
  obtain ⟨⟨i, b⟩, hb, heq⟩ := List.mem_map.1 (mem_of_getElem?_ofList h)
  obtain ⟨-, hc⟩ := Prod.mk.inj heq
  exact ⟨i, b, Std.ExtTreeMap.mem_toList_iff_getElem?_eq_some.1 hb, hc⟩

theorem mapKeys_eq_empty_iff {f : Nat → Nat} {g : β → γ} {m : Std.ExtTreeMap Nat β} :
    mapKeys f g m = ∅ ↔ m = ∅ := by
  simp [mapKeys]

theorem mapKeys_eq_shiftKeys {f : Nat → Nat} {g g' : β → γ} {m : Std.ExtTreeMap Nat β} {k : Nat}
    (h : ∀ (i : Nat) (b : β), m[i]? = some b → f i = i + k ∧ g b = g' b) :
    mapKeys f g m = shiftKeys k g' m := by
  unfold mapKeys shiftKeys
  congr 1
  apply List.map_congr_left
  intro e he
  obtain ⟨hf, hg⟩ := h e.1 e.2 (Std.ExtTreeMap.mem_toList_iff_getElem?_eq_some.1 he)
  rw [hf, hg]

end PatternAutomata.Ordered
