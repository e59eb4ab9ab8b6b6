import Mathlib.Data.Char
import Mathlib.Data.List.Shortlex
import Mathlib.Data.Prod.Lex
import PatternAutomata.Proofs.Subset.Simulation

/-!
# The order of discovery

The search for sets of states meets each set by some word: the word of the set that it expands and
one more character. These words come in shortlex order, shorter words first and words of one length
by their characters, since the search expands the sets in the order of their words and tries the
characters in the order of the alphabet. Hence no word before the one that a set was met by leads to
that set.
-/

namespace PatternAutomata

/-- The place of a word in shortlex order. -/
def rank (w : List Char) : ℕ ×ₗ List Char := toLex (w.length, w)

section

variable {u v : List Char} {c d : Char}

theorem rank_lt_iff : rank u < rank v ↔ List.Shortlex (· < ·) u v := Iff.rfl

theorem rank_injective : Function.Injective rank := by
  intro u v h
  have hpair : (u.length, u) = (v.length, v) := h
  exact (Prod.mk.inj hpair).2

theorem rank_lt_of_length_lt (h : u.length < v.length) : rank u < rank v :=
  List.Shortlex.of_length_lt h

theorem lex_append_singleton (h : List.Lex (· < ·) u v) (hlength : u.length = v.length) :
    List.Lex (· < ·) (u ++ [c]) (v ++ [d]) := by
  induction h with
  | nil => simp at hlength
  | cons h ih => exact .cons (ih (by simpa using hlength))
  | rel h => exact .rel h

/-- Whether a word comes first is decided before its last character. -/
theorem rank_append_lt_append (h : rank u < rank v) : rank (u ++ [c]) < rank (v ++ [d]) := by
  rw [rank_lt_iff, List.shortlex_def] at h ⊢
  simp only [List.length_append, List.length_singleton]
  rcases h with hlt | ⟨heq, hlex⟩
  · exact .inl (by omega)
  · exact .inr ⟨by omega, lex_append_singleton hlex heq⟩

theorem rank_append_lt_append_left (h : c < d) : rank (u ++ [c]) < rank (u ++ [d]) :=
  List.Shortlex.append_left ((List.shortlex_singleton_iff c d).2 h) u

theorem rank_append_le_append (h : rank u ≤ rank v) : rank (u ++ [c]) ≤ rank (v ++ [c]) := by
  rcases h.lt_or_eq with hlt | heq
  · exact (rank_append_lt_append hlt).le
  · rw [rank_injective heq]

theorem rank_append_le_append_left (h : c ≤ d) : rank (u ++ [c]) ≤ rank (u ++ [d]) := by
  rcases h.lt_or_eq with hlt | rfl
  · exact (rank_append_lt_append_left hlt).le
  · exact le_rfl

theorem rank_nil_le (w : List Char) : rank [] ≤ rank w := by
  rcases List.shortlex_nil_or_eq_nil (r := (· < ·)) w with h | rfl
  · exact (rank_lt_iff.2 h).le
  · exact le_rfl

end

theorem exists_moves_unknown (known : Known) {moves : List (Char × StateSet)}
    (h : moves.Pairwise fun m n => m.1 < n.1) :
    ∃ new : List (Char × StateSet), new.Sublist moves ∧
      new.map Prod.snd = unknown known (moves.map Prod.snd) ∧
      ∀ m ∈ moves, m.2.toList ∉ known → ∃ n ∈ new, n.2 = m.2 ∧ n.1 ≤ m.1 := by
  induction moves generalizing known with
  | nil => exact ⟨[], .slnil, rfl, nofun⟩
  | cons m moves ih =>
    obtain ⟨hfirst, h⟩ := List.pairwise_cons.1 h
    by_cases hm : m.2.toList ∈ known
    · obtain ⟨new, hsub, hnew, hmet⟩ := ih known h
      refine ⟨new, hsub.cons m, ?_, ?_⟩
      · simp [unknown, hm, hnew]
      · intro x hx hunknown
        rcases List.mem_cons.1 hx with rfl | hx
        · exact absurd hm hunknown
        · exact hmet x hx hunknown
    · obtain ⟨new, hsub, hnew, hmet⟩ := ih (known.insert m.2.toList) h
      refine ⟨m :: new, hsub.cons_cons m, ?_, ?_⟩
      · simp [unknown, hm, hnew]
      · intro x hx hunknown
        rcases List.mem_cons.1 hx with rfl | hx
        · exact ⟨x, List.mem_cons_self, rfl, le_rfl⟩
        · by_cases hset : m.2 = x.2
          · exact ⟨m, List.mem_cons_self, hset, (hfirst x hx).le⟩
          · have hx' : x.2.toList ∉ known.insert m.2.toList := by
              rw [Ordered.mem_insert, Std.ExtTreeSet.toList_inj]
              tauto
            obtain ⟨n, hn, hsame, hle⟩ := hmet x hx hx'
            exact ⟨n, List.mem_cons_of_mem m hn, hsame, hle⟩

/-- A set of states with the word that the search met it by. -/
structure Discovery where
  subset : StateSet
  word : List Char

namespace Automaton

variable {A : Automaton} {known : Known} {d : Discovery} {queue children found : List Discovery}
  {s : StateSet}

/-- Sets that are met in the order of their words, each by a word that leads to it. -/
structure Met (A : Automaton) (l : List Discovery) : Prop where
  run_eq : ∀ d ∈ l, A.run d.word = d.subset
  ne_empty : ∀ d ∈ l, d.subset ≠ ∅
  increasing : l.Pairwise fun d e => rank d.word < rank e.word

theorem Met.sublist {l l' : List Discovery} (h : A.Met l) (hsub : l'.Sublist l) : A.Met l' where
  run_eq d hd := h.run_eq d (hsub.subset hd)
  ne_empty d hd := h.ne_empty d (hsub.subset hd)
  increasing := h.increasing.sublist hsub

theorem Met.append {l l' : List Discovery} (h : A.Met l) (h' : A.Met l')
    (hlt : ∀ d ∈ l, ∀ e ∈ l', rank d.word < rank e.word) : A.Met (l ++ l') where
  run_eq := List.forall_mem_append.2 ⟨h.run_eq, h'.run_eq⟩
  ne_empty := List.forall_mem_append.2 ⟨h.ne_empty, h'.ne_empty⟩
  increasing := List.pairwise_append.2 ⟨h.increasing, h'.increasing, hlt⟩

/-- What holds of the sets in the queue: whatever is found from one of them comes after all. -/
structure Queued (A : Automaton) (queue : List Discovery) : Prop extends A.Met queue where
  close : ∀ d ∈ queue, ∀ e ∈ queue, ∀ c, rank d.word < rank (e.word ++ [c])

/-- The new sets that `d` leads to, by its word and one more character. -/
structure Expands (A : Automaton) (known : Known) (d : Discovery) (children : List Discovery) :
    Prop extends A.Met children where
  subsets_eq :
    children.map Discovery.subset = unknown known ((A.row d.subset).moves.map Prod.snd)
  word_eq : ∀ e ∈ children, ∃ c, e.word = d.word ++ [c]
  earliest : ∀ c, A.move d.subset c ≠ ∅ → (A.move d.subset c).toList ∉ known →
    ∃ e ∈ children, e.subset = A.move d.subset c ∧ rank e.word ≤ rank (d.word ++ [c])

/-- What holds of the sets that the search finds, those in the queue included. -/
structure Discovers (A : Automaton) (known : Known) (queue found : List Discovery) : Prop
    extends A.Met found where
  after : ∀ w, (∀ d ∈ queue, rank w < rank d.word) → ∀ d ∈ found, rank w < rank d.word
  earliest : ∀ d ∈ found, ∀ c, A.move d.subset c ≠ ∅ →
    (A.move d.subset c).toList ∈ known ∨
      ∃ e ∈ found, e.subset = A.move d.subset c ∧ rank e.word ≤ rank (d.word ++ [c])

theorem pairwise_moves_row : (A.row s).moves.Pairwise fun m n => m.1 < n.1 := by
  unfold row
  rw [List.pairwise_filterMap]
  apply Std.ExtTreeSet.ordered_toList.imp
  intro c d hcd m hm n hn
  have hlt : c < d := compare_lt_iff_lt.1 hcd
  grind

/-- The moves to new sets, as discoveries. -/
theorem exists_expands (hA : A.WellFormed) (hstart : A.start.isSome) (known : Known)
    (hd : A.run d.word = d.subset) : ∃ children, A.Expands known d children := by
  have hrow : (A.row d.subset).moves.Pairwise fun m n => m.1 < n.1 := pairwise_moves_row
  obtain ⟨new, hsub, hnew, hmet⟩ := exists_moves_unknown known hrow
  have hmoves (m) (hm : m ∈ new) : A.move d.subset m.1 = m.2 ∧ m.2 ≠ ∅ :=
    (mem_moves_row.1 (hsub.subset hm)).2
  let child (m : Char × StateSet) : Discovery := ⟨m.2, d.word ++ [m.1]⟩
  refine ⟨new.map child, ⟨?_, ?_, ?_⟩, ?_, ?_, ?_⟩
  · intro e he
    obtain ⟨m, hm, rfl⟩ := List.mem_map.1 he
    rw [run_append_singleton A _ _ hstart, hd]
    exact (hmoves m hm).1
  · intro e he
    obtain ⟨m, hm, rfl⟩ := List.mem_map.1 he
    exact (hmoves m hm).2
  · apply List.pairwise_map.2
    exact (hrow.sublist hsub).imp rank_append_lt_append_left
  · rw [List.map_map]
    exact hnew
  · intro e he
    obtain ⟨m, -, rfl⟩ := List.mem_map.1 he
    exact ⟨m.1, rfl⟩
  · intro c hne hunknown
    have hmove := mem_moves_row.2 ⟨hA.mem_alphabet_of_move hne, rfl, hne⟩
    obtain ⟨m, hm, hset, hle⟩ := hmet _ hmove hunknown
    exact ⟨child m, List.mem_map_of_mem hm, hset, rank_append_le_append_left hle⟩

theorem Expands.rank_lt (h : A.Expands known d children) {e : Discovery} (he : e ∈ children) :
    rank d.word < rank e.word := by
  obtain ⟨c, hc⟩ := h.word_eq e he
  apply rank_lt_of_length_lt
  simp [hc]

/-- The set that is expanded comes before the queue after the step. -/
theorem Queued.rank_lt (h : A.Queued (d :: queue)) (hd : A.Expands known d children) :
    ∀ e ∈ queue ++ children, rank d.word < rank e.word :=
  List.forall_mem_append.2 ⟨(List.pairwise_cons.1 h.increasing).1, fun _ => hd.rank_lt⟩

theorem Queued.expand (h : A.Queued (d :: queue)) (hd : A.Expands known d children) :
    A.Queued (queue ++ children) := by
  have hclose (u) (hu : u ∈ queue) (c) : rank u.word < rank (d.word ++ [c]) :=
    h.close u (List.mem_cons_of_mem d hu) d List.mem_cons_self c
  have hqueue : A.Met queue := h.toMet.sublist (List.sublist_cons_self d queue)
  refine ⟨hqueue.append hd.toMet ?_, ?_⟩
  · intro u hu e he
    obtain ⟨c, hc⟩ := hd.word_eq e he
    rw [hc]
    exact hclose u hu c
  · intro u hu e he c
    have hlater := h.rank_lt hd e he
    rcases List.mem_append.1 hu with hu | hu
    · exact (hclose u hu c).trans (rank_append_lt_append hlater)
    · obtain ⟨b, hb⟩ := hd.word_eq u hu
      rw [hb]
      exact rank_append_lt_append hlater

theorem Discovers.cons (h : A.Queued (d :: queue)) (hd : A.Expands known d children)
    (hfound : A.Discovers (known.add (children.map Discovery.subset)) (queue ++ children) found)
    (hqueue : ∀ e ∈ queue ++ children, e ∈ found) :
    A.Discovers known (d :: queue) (d :: found) := by
  have hafter := hfound.after d.word (h.rank_lt hd)
  have hexpanded : A.Met [d] := h.toMet.sublist (List.singleton_sublist.2 List.mem_cons_self)
  refine ⟨hexpanded.append hfound.toMet (List.forall_mem_singleton.2 hafter), ?_, ?_⟩
  · intro w hw
    have hwd := hw d List.mem_cons_self
    have hlater := hfound.after w fun e he => hwd.trans (h.rank_lt hd e he)
    exact List.forall_mem_cons.2 ⟨hwd, hlater⟩
  · intro e he c hne
    rcases List.mem_cons.1 he with rfl | he
    · by_cases hknown : (A.move e.subset c).toList ∈ known
      · exact .inl hknown
      · obtain ⟨u, hu, hset, hle⟩ := hd.earliest c hne hknown
        have hmem := hqueue u (List.mem_append_right queue hu)
        exact .inr ⟨u, List.mem_cons_of_mem e hmem, hset, hle⟩
    · rcases hfound.earliest e he c hne with hknown | ⟨u, hu, hset, hle⟩
      · rcases Known.mem_add.1 hknown with hknown | ⟨s, hs, heq⟩
        · exact .inl hknown
        · -- The set was met by `d`, whose word comes before that of `e`.
          obtain ⟨u, hu, rfl⟩ := List.mem_map.1 hs
          obtain ⟨b, hb⟩ := hd.word_eq u hu
          have hmem := hqueue u (List.mem_append_right queue hu)
          refine .inr ⟨u, List.mem_cons_of_mem d hmem, Std.ExtTreeSet.toList_inj.1 heq, ?_⟩
          rw [hb]
          exact (rank_append_lt_append (hafter e he)).le
      · exact .inr ⟨u, List.mem_cons_of_mem d hu, hset, hle⟩

/-- The search finds the sets of the queue and later ones, by induction on its steps. -/
theorem exists_discovers (hA : A.WellFormed) (hstart : A.start.isSome) (known : Known)
    (sets : List StateSet) :
    ∀ queue, A.Queued queue → queue.map Discovery.subset = sets → ∃ later,
      (A.explore known sets).map Row.subset = (queue ++ later).map Discovery.subset ∧
        A.Discovers known queue (queue ++ later) := by
  fun_induction explore A known sets with
  | case1 known =>
    intro queue h hsets
    rw [List.map_eq_nil_iff.1 hsets]
    exact ⟨[], rfl, ⟨by simp, by simp, .nil⟩, by simp, by simp⟩
  | case2 known s sets row fresh ih =>
    intro queue h hsets
    cases queue with
    | nil => cases hsets
    | cons d queue =>
      obtain ⟨rfl, rfl⟩ := List.cons.inj hsets
      obtain ⟨children, hd⟩ := exists_expands hA hstart known (h.run_eq d List.mem_cons_self)
      have hfresh : children.map Discovery.subset = fresh := hd.subsets_eq
      have hsets' : (queue ++ children).map Discovery.subset =
          queue.map Discovery.subset ++ fresh := by rw [List.map_append, hfresh]
      obtain ⟨later, hsubsets, hfound⟩ := ih _ (h.expand hd) hsets'
      rw [List.append_assoc] at hsubsets hfound
      refine ⟨children ++ later, ?_, ?_⟩
      · rw [List.map_cons, hsubsets]
        rfl
      · rw [← hfresh] at hfound
        apply hfound.cons h hd
        intro e he
        rw [← List.append_assoc]
        exact List.mem_append_left later he

/-- Sets in the order of the words that first lead to them, with every nonempty set that some word
leads to. -/
structure Enumerates (A : Automaton) (found : List Discovery) : Prop extends A.Met found where
  first : ∀ w, A.run w ≠ ∅ → ∃ d ∈ found, d.subset = A.run w ∧ rank d.word ≤ rank w

theorem exists_enumerates {start : State} (hA : A.WellFormed) (hstart : A.start = some start) :
    ∃ found, (A.explore (.add ∅ [A.closure [start]]) [A.closure [start]]).map Row.subset =
      found.map Discovery.subset ∧ A.Enumerates found := by
  have hsome : A.start.isSome := by simp [hstart]
  have hinitial : A.run [] = A.closure [start] := by simp [run, hstart]
  let origin : Discovery := ⟨A.closure [start], []⟩
  have hqueued : A.Queued [origin] := by
    refine ⟨⟨?_, ?_, List.pairwise_singleton _ _⟩, ?_⟩
    · simpa using hinitial
    · simpa using closure_singleton_ne_empty
    · intro d hd e he c
      rw [List.mem_singleton.1 hd, List.mem_singleton.1 he]
      exact rank_lt_of_length_lt Nat.zero_lt_one
  obtain ⟨later, hsubsets, hfound⟩ := exists_discovers hA hsome _ _ _ hqueued rfl
  refine ⟨origin :: later, hsubsets, hfound.toMet, ?_⟩
  intro w
  -- The set before the last character was met first, so its successor was met no later.
  induction w using List.reverseRecOn with
  | nil =>
    intro _
    exact ⟨origin, List.mem_cons_self, hinitial.symm, le_rfl⟩
  | append_singleton w c ih =>
    rw [run_append_singleton A w c hsome]
    intro hne
    have hbefore : A.run w ≠ ∅ := by
      intro h
      rw [h, move_empty] at hne
      exact hne rfl
    obtain ⟨d, hd, hset, hle⟩ := ih hbefore
    rw [← hset] at hne ⊢
    rcases hfound.earliest d hd c hne with hknown | ⟨e, he, hmove, hle'⟩
    · rcases Known.mem_add.1 hknown with h | ⟨s, hs, heq⟩
      · exact absurd h Std.ExtTreeSet.not_mem_empty
      · rw [List.mem_singleton.1 hs] at heq
        exact ⟨origin, List.mem_cons_self, Std.ExtTreeSet.toList_inj.1 heq, rank_nil_le _⟩
    · exact ⟨e, he, hmove, hle'.trans (rank_append_le_append hle)⟩

end Automaton

end PatternAutomata
