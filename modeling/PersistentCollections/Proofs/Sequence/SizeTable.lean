/-
The search in a size table finds the first total above a position.

The guess may lie on either side of the answer. Climbing from it stops
at the first total above the position that is not before the guess;
descending from there stops at the first of all, since on a table that
never decreases every total from the answer on lies above the position.
Neither loop leaves the table as long as its last total lies above the
position.
-/
import PersistentCollections.Sequence.SizeTable

namespace PersistentCollections.Sequence.SizeTable

/-- `part` is the first position whose total exceeds `index`. -/
structure FirstAbove (table : List Nat) (index part : Nat) : Prop where
  /-- The total at the position exceeds `index`. -/
  above : ∃ total, table[part]? = some total ∧ index < total
  /-- No total before it does. -/
  below : ∀ q total, q < part → table[q]? = some total → total ≤ index

-- ============================================================ climbing

/-- Climbing answers a position at or after the start whose total
exceeds `index`, and no total that it passed does. -/
theorem climb?_spec {index : Nat} :
    ∀ {table : List Nat} (part : Nat),
      (∃ total ∈ table, index < total) →
      ∃ k total, climb? index part table = some (part + k)
        ∧ table[k]? = some total ∧ index < total
        ∧ ∀ q t, q < k → table[q]? = some t → t ≤ index := by
  intro table
  induction table with
  | nil =>
      intro part h
      obtain ⟨total, hmem, -⟩ := h
      cases hmem
  | cons first rest ih =>
      intro part h
      unfold climb?
      by_cases hle : first ≤ index
      · rw [if_pos hle]
        have hrest : ∃ total ∈ rest, index < total := by
          obtain ⟨total, hmem, hlt⟩ := h
          rcases List.mem_cons.mp hmem with rfl | hmem
          · omega
          · exact ⟨total, hmem, hlt⟩
        obtain ⟨k, total, hk, hget, hlt, hbelow⟩ := ih (part + 1) hrest
        refine ⟨k + 1, total, ?_, hget, hlt, ?_⟩
        · rw [hk]
          congr 1
          omega
        · intro q t hq ht
          cases q with
          | zero =>
              have : first = t := by simpa using ht
              omega
          | succ q => exact hbelow q t (by omega) (by simpa using ht)
      · rw [if_neg hle]
        exact ⟨0, first, rfl, rfl, by omega, fun q t hq => by omega⟩

-- ========================================================== descending

/-- Descending from a position above `index` ends at the first one, if
the table never decreases. -/
theorem descend?_spec {table : List Nat} {index : Nat}
    (hmono : table.Pairwise (· ≤ ·)) :
    ∀ {part : Nat}, (∃ total, table[part]? = some total ∧ index < total) →
      ∃ first, descend? table index part = some first
        ∧ FirstAbove table index first := by
  intro part
  induction part with
  | zero =>
      intro h
      exact ⟨0, rfl, h, fun q t hq => by omega⟩
  | succ part ih =>
      intro h
      obtain ⟨total, hget, hlt⟩ := h
      obtain ⟨hlen, -⟩ := List.getElem?_eq_some_iff.mp hget
      have hprev : table[part]? = some table[part] :=
        List.getElem?_eq_getElem (by omega)
      unfold descend?
      rw [hprev]
      by_cases hbefore : index < table[part]
      · simp only [if_pos hbefore]
        exact ih ⟨_, hprev, hbefore⟩
      · simp only [if_neg hbefore]
        refine ⟨part + 1, rfl, ⟨total, hget, hlt⟩, ?_⟩
        intro q t hq ht
        obtain ⟨hqlen, rfl⟩ := List.getElem?_eq_some_iff.mp ht
        rcases Nat.lt_or_ge q part with hqp | hqp
        · have := List.pairwise_iff_getElem.mp hmono q part hqlen
            (by omega) hqp
          omega
        · have hqe : q = part := by omega
          subst hqe
          omega

-- ======================================================== the search

/-- The guess lies inside a table that is not empty. -/
theorem guess_lt {total count index : Nat} (h : 0 < count) :
    guess total count index < count := by
  unfold guess
  omega

/-- The search from some part on: up, and then down. -/
def searchFrom? (table : List Nat) (index start : Nat) : Option Nat :=
  match climb? index start (table.drop start) with
  | none => none
  | some part => descend? table index part

/-- The search of a position starts from the guess. -/
theorem part?_eq {table : List Nat} {last : Nat} (index : Nat)
    (hlast : table.getLast? = some last) :
    part? table index
      = searchFrom? table index (guess last table.length index) := by
  unfold part?
  rw [hlast]
  rfl

/-- Wherever in the table it starts, the search answers the first
position above `index`, if the table never decreases and its last total
exceeds `index`. -/
theorem searchFrom?_spec {table : List Nat} {index start last : Nat}
    (hmono : table.Pairwise (· ≤ ·)) (hlast : table.getLast? = some last)
    (hindex : index < last) (hstart : start < table.length) :
    ∃ part, searchFrom? table index start = some part
      ∧ FirstAbove table index part := by
  have habove : ∃ total ∈ table.drop start, index < total := by
    refine ⟨last, List.mem_of_getLast? ?_, hindex⟩
    rw [List.getLast?_drop, if_neg (by omega)]
    exact hlast
  obtain ⟨k, total, hk, hget, hlt, -⟩ := climb?_spec start habove
  rw [List.getElem?_drop] at hget
  obtain ⟨first, hfirst, hspec⟩ := descend?_spec hmono ⟨total, hget, hlt⟩
  refine ⟨first, ?_, hspec⟩
  unfold searchFrom?
  simp only [hk]
  exact hfirst

/-- The search answers the first position above `index` on a table that
never decreases and whose last total exceeds `index`. -/
theorem part?_spec {table : List Nat} {index last : Nat}
    (hmono : table.Pairwise (· ≤ ·)) (hlast : table.getLast? = some last)
    (hindex : index < last) :
    ∃ part, part? table index = some part
      ∧ FirstAbove table index part := by
  have hne : table ≠ [] := by
    rintro rfl
    cases hlast
  rw [part?_eq index hlast]
  exact searchFrom?_spec hmono hlast hindex
    (guess_lt (List.length_pos_iff.mpr hne))

-- ======================================================= running totals

@[simp] theorem sum_nil : sum [] = 0 := rfl

@[simp] theorem sum_cons (size : Nat) (sizes : List Nat) :
    sum (size :: sizes) = size + sum sizes := rfl

theorem sum_append (sizes more : List Nat) :
    sum (sizes ++ more) = sum sizes + sum more := by
  induction sizes with
  | nil => exact (Nat.zero_add _).symm
  | cons size sizes ih =>
      rw [List.cons_append, sum_cons, sum_cons, ih, Nat.add_assoc]

/-- The last of the totals is the sum. -/
theorem getLast?_totals (before size : Nat) (sizes : List Nat) :
    (totals before (size :: sizes)).getLast?
      = some (before + sum (size :: sizes)) := by
  induction sizes generalizing before size with
  | nil => simp [totals]
  | cons next sizes ih =>
      rw [totals, totals, List.getLast?_cons_cons, ← totals, ih]
      simp only [sum_cons]
      congr 1
      omega

/-- The total at a position is the sum of the sizes up to it. -/
theorem getElem?_totals {sizes : List Nat} {part : Nat} (before : Nat)
    (h : part < sizes.length) :
    (totals before sizes)[part]?
      = some (before + sum (sizes.take (part + 1))) := by
  induction sizes generalizing before part with
  | nil => simp at h
  | cons size sizes ih =>
      cases part with
      | zero => simp [totals]
      | succ part =>
          rw [totals, List.getElem?_cons_succ, ih _ (by simpa using h),
            List.take_succ_cons, sum_cons, Nat.add_assoc]

/-- There are as many totals as sizes. -/
theorem length_totals (before : Nat) (sizes : List Nat) :
    (totals before sizes).length = sizes.length := by
  induction sizes generalizing before with
  | nil => rfl
  | cons size sizes ih => rw [totals, List.length_cons, ih, List.length_cons]

/-- Running totals never decrease, and none is below where they start. -/
theorem totals_mono (before : Nat) (sizes : List Nat) :
    (totals before sizes).Pairwise (· ≤ ·)
      ∧ ∀ total ∈ totals before sizes, before ≤ total := by
  induction sizes generalizing before with
  | nil => exact ⟨List.Pairwise.nil, fun t ht => by cases ht⟩
  | cons size sizes ih =>
      obtain ⟨hpair, hge⟩ := ih (before + size)
      refine ⟨List.Pairwise.cons hge hpair, ?_⟩
      intro total ht
      rcases List.mem_cons.mp ht with rfl | ht
      · omega
      · have := hge total ht
        omega

/-- The total of all parts before one is the sum of their sizes. -/
theorem before?_totals {sizes : List Nat} {part : Nat}
    (h : part < sizes.length) :
    before? (totals 0 sizes) part = some (sum (sizes.take part)) := by
  cases part with
  | zero => simp [before?]
  | succ part =>
      show (totals 0 sizes)[part]? = _
      rw [getElem?_totals 0 (by omega), Nat.zero_add]

/-- In a table of running totals the search answers the part whose
elements include `index`. -/
theorem part?_totals {sizes : List Nat} {index : Nat}
    (h : index < sum sizes) :
    ∃ before size after, sizes = before ++ size :: after
      ∧ part? (totals 0 sizes) index = some before.length
      ∧ sum before ≤ index ∧ index < sum before + size := by
  have hne : ∃ size rest, sizes = size :: rest := by
    cases sizes with
    | nil => simp at h
    | cons size rest => exact ⟨size, rest, rfl⟩
  have hlast : (totals 0 sizes).getLast? = some (sum sizes) := by
    obtain ⟨size, rest, rfl⟩ := hne
    rw [getLast?_totals, Nat.zero_add]
  obtain ⟨part, hpart, habove, hbelow⟩ :=
    part?_spec (totals_mono 0 sizes).1 hlast h
  obtain ⟨total, hget, hlt⟩ := habove
  have hlen : part < sizes.length := by
    obtain ⟨hlen, -⟩ := List.getElem?_eq_some_iff.mp hget
    rwa [length_totals] at hlen
  rw [getElem?_totals 0 hlen, Option.some.injEq, Nat.zero_add] at hget
  have hsplit : sizes = sizes.take part
      ++ sizes[part] :: sizes.drop (part + 1) := by
    rw [← List.drop_eq_getElem_cons hlen, List.take_append_drop]
  have hsum : sum (sizes.take (part + 1))
      = sum (sizes.take part) + sizes[part] := by
    rw [List.take_succ_eq_append_getElem hlen, sum_append]
    simp
  refine ⟨sizes.take part, sizes[part], sizes.drop (part + 1), hsplit, ?_,
    ?_, by omega⟩
  · rw [hpart, List.length_take, Nat.min_eq_left (by omega)]
  · cases part with
    | zero => simp
    | succ part =>
        have := hbelow part _ (by omega) (getElem?_totals 0 (by omega))
        omega

end PersistentCollections.Sequence.SizeTable
