/-
The search in a size table answers what a binary search would.

A binary search never guesses: it asks the entry in the middle and goes
on in one half (`bisect`). On a list that is divided, in entries that
pass a test and entries behind them that do not, it answers where the
second part begins (`bisect_append`). A table that never decreases is
divided by every position, in the totals that the position has reached
and those above it. The first total above it is where the search that
starts from a guess ends, so the two agree; and where that search starts
makes no difference (`searchFrom?_spec`), so the guess may be as bad as
it likes.
-/
import PersistentCollections.Proofs.Sequence.SizeTable

namespace PersistentCollections.Sequence.SizeTable

-- ======================================================= binary search

section

variable {α : Type} {p : α → Bool}

/-- The number of entries in front of the first one that fails a test,
found by halving: what the entry in the middle answers decides in which
half the search goes on. -/
def bisect (p : α → Bool) (entries : List α) : Nat :=
  match _found : entries.drop (entries.length / 2) with
  | [] => 0
  | x :: rest =>
    if p x then entries.length / 2 + 1 + bisect p rest
    else bisect p (entries.take (entries.length / 2))
termination_by entries.length
decreasing_by
  all_goals
    have cut := congrArg List.length _found
    simp only [List.length_drop, List.length_cons, List.length_take]
      at cut ⊢
    omega

/-- In a divided list an entry that passes the test has all of the back
part behind it, -/
theorem divided_front {front back before after : List α} {x : α}
    (hsplit : front ++ back = before ++ x :: after)
    (hback : ∀ y ∈ back, ¬ p y) (hx : p x) :
    ∃ between, front = before ++ x :: between
      ∧ after = between ++ back := by
  rcases List.append_eq_append_iff.mp hsplit with
    ⟨between, rfl, rfl⟩ | ⟨between, rfl, htail⟩
  · exact (hback x (List.mem_append_right _ List.mem_cons_self) hx).elim
  · cases between with
    | nil =>
        have hmem : x ∈ back := by
          rw [← List.nil_append back, ← htail]
          exact List.mem_cons_self
        exact (hback x hmem hx).elim
    | cons y between =>
        obtain ⟨rfl, rfl⟩ := List.cons.inj htail
        exact ⟨between, rfl, rfl⟩

/-- and one that fails it has all of the front part before it. -/
theorem divided_back {front back before after : List α} {x : α}
    (hsplit : front ++ back = before ++ x :: after)
    (hfront : ∀ y ∈ front, p y) (hx : ¬ p x) :
    ∃ between, before = front ++ between
      ∧ back = between ++ x :: after := by
  rcases List.append_eq_append_iff.mp hsplit with
    ⟨between, rfl, rfl⟩ | ⟨between, rfl, htail⟩
  · exact ⟨between, rfl, rfl⟩
  · cases between with
    | nil => exact ⟨[], by simp, by simpa using htail.symm⟩
    | cons y between =>
        obtain ⟨rfl, -⟩ := List.cons.inj htail
        have hmem : x ∈ before ++ x :: between :=
          List.mem_append_right _ List.mem_cons_self
        exact (hx (hfront x hmem)).elim

/-- In a list that the test divides the search ends where the back part
begins. -/
theorem bisect_append {front back : List α} (hfront : ∀ x ∈ front, p x)
    (hback : ∀ x ∈ back, ¬ p x) :
    bisect p (front ++ back) = front.length := by
  generalize hentries : front ++ back = entries
  -- The half that the search goes on in is divided at the same place.
  fun_induction bisect p entries generalizing front back with
  | case1 entries hdrop =>
      have hlen := congrArg List.length hdrop
      rw [List.length_drop, List.length_nil] at hlen
      have htotal := congrArg List.length hentries
      rw [List.length_append] at htotal
      omega
  | case2 entries x rest hdrop hx ih =>
      have hsplit : front ++ back
          = entries.take (entries.length / 2) ++ x :: rest := by
        rw [hentries, ← hdrop, List.take_append_drop]
      obtain ⟨between, hfront', hrest⟩ := divided_front hsplit hback hx
      have hrest' : bisect p rest = between.length := by
        refine ih (fun y hy => hfront y ?_) hback hrest.symm
        rw [hfront']
        exact List.mem_append_right _ (List.mem_cons_of_mem _ hy)
      rw [hrest', hfront', List.length_append, List.length_cons,
        List.length_take]
      omega
  | case3 entries x rest hdrop hx ih =>
      have hsplit : front ++ back
          = entries.take (entries.length / 2) ++ x :: rest := by
        rw [hentries, ← hdrop, List.take_append_drop]
      obtain ⟨between, hbefore, rfl⟩ := divided_back hsplit hfront hx
      exact ih hfront
        (fun y hy => hback y (List.mem_append_left _ hy)) hbefore.symm

end

-- ============================================================== the totals

/-- The first position above `index` divides a table that never
decreases, so a binary search finds it. -/
theorem FirstAbove.bisect_eq {table : List Nat} {index part : Nat}
    (h : FirstAbove table index part) (hmono : table.Pairwise (· ≤ ·)) :
    bisect (· ≤ index) table = part := by
  obtain ⟨total, htotal, hlt⟩ := h.above
  obtain ⟨hpart, rfl⟩ := List.getElem?_eq_some_iff.mp htotal
  have hfront : ∀ t ∈ table.take part, decide (t ≤ index) := by
    intro t ht
    obtain ⟨q, hq, rfl⟩ := List.mem_take_iff_getElem.mp ht
    have hle := h.below q _ (by omega) (List.getElem?_eq_getElem (by omega))
    exact decide_eq_true hle
  have hback : ∀ t ∈ table.drop part, ¬ decide (t ≤ index) := by
    intro t ht
    rw [List.drop_eq_getElem_cons hpart] at ht
    have hrest := hmono.sublist (List.drop_sublist part table)
    rw [List.drop_eq_getElem_cons hpart] at hrest
    have hge : table[part] ≤ t := by
      rcases List.mem_cons.mp ht with rfl | ht
      · exact Nat.le_refl _
      · exact (List.pairwise_cons.mp hrest).1 t ht
    rw [decide_eq_true_iff]
    omega
  have hbisect := bisect_append hfront hback
  rw [List.take_append_drop, List.length_take] at hbisect
  omega

/-- On every table that never decreases, and for every position below
its last total, the search ends inside the table, and it ends where a
binary search for the totals above the position does: at the first of
them. So it would from any other guess. -/
theorem search_is_bisection {table : List Nat} {index : Nat}
    (hne : table ≠ []) (hmono : table.Pairwise (· ≤ ·))
    (hindex : index < table.getLast hne) :
    part? table index = some (bisect (· ≤ index) table)
      ∧ FirstAbove table index (bisect (· ≤ index) table)
      ∧ ∀ start < table.length,
          searchFrom? table index start
            = some (bisect (· ≤ index) table) := by
  have hlast := List.getLast?_eq_some_getLast hne
  obtain ⟨part, hpart, hfirst⟩ := part?_spec hmono hlast hindex
  rw [hfirst.bisect_eq hmono]
  refine ⟨hpart, hfirst, fun start hstart => ?_⟩
  obtain ⟨part', hpart', hfirst'⟩ :=
    searchFrom?_spec hmono hlast hindex hstart
  rw [hpart', ← hfirst.bisect_eq hmono, hfirst'.bisect_eq hmono]

/-- One large part at either end. Of seven parts the guess is the first
one where the position lies in the last, and the sixth where it lies in
the first; some parts are empty, and 3 is itself a total. -/
theorem search_is_bisection_skewed :
    (guess 90 7 3 = 0 ∧ part? [0, 0, 1, 1, 2, 3, 90] 3 = some 6
        ∧ bisect (· ≤ 3) [0, 0, 1, 1, 2, 3, 90] = 6)
      ∧ (guess 86 7 70 = 5 ∧ part? [80, 81, 82, 82, 84, 85, 86] 70 = some 0
        ∧ bisect (· ≤ 70) [80, 81, 82, 82, 84, 85, 86] = 0) := by
  obtain ⟨hup, -⟩ := @search_is_bisection [0, 0, 1, 1, 2, 3, 90] 3
    (by decide) (by decide) (by decide)
  obtain ⟨hdown, -⟩ := @search_is_bisection [80, 81, 82, 82, 84, 85, 86] 70
    (by decide) (by decide) (by decide)
  refine ⟨⟨rfl, rfl, ?_⟩, rfl, rfl, ?_⟩
  · exact (Option.some.inj hup).symm
  · exact (Option.some.inj hdown).symm

end PersistentCollections.Sequence.SizeTable
