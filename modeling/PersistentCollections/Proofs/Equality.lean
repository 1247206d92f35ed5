/-
Equality and hashing of the collections whose elements have an order.

Two of them are compared walk against walk, and a hasher is given what a
walk hands out. For collections that edits build this is the content:
the elements of a sequence by position, the entries of a tree in order.
So trees and histories do not show, and neither does the order that two
sorted collections are kept in, but for the order it puts their rows in.
-/
import Mathlib.Data.List.Forall2
import PersistentCollections.Proofs.Sequence.Reachable
import PersistentCollections.Proofs.SortedSet

namespace PersistentCollections

-- ================================================================= rows

section Rows

variable {ρ σ : Type} {same : ρ → ρ → Prop} {left right : List ρ}

/-- Lists are equal when they are equally long and equal one by one. -/
theorem beq_iff_forall₂ [BEq ρ] :
    (left == right) = true
      ↔ List.Forall₂ (fun x y => (x == y) = true) left right := by
  induction left generalizing right with
  | nil => cases right <;> simp
  | cons x left ih =>
      cases right with
      | nil => simp
      | cons y right =>
          rw [List.cons_beq_cons, Bool.and_eq_true, ih,
            List.forall₂_cons]

/-- A comparison of sizes in front of that of the rows changes
nothing. -/
theorem sized_beq_iff [BEq ρ] {size size' : Nat}
    (hleft : size = left.length) (hright : size' = right.length) :
    (size == size' && left == right) = true
      ↔ List.Forall₂ (fun x y => (x == y) = true) left right := by
  subst hleft hright
  rw [Bool.and_eq_true, beq_iff_forall₂, beq_iff_eq]
  exact and_iff_right_of_imp List.Forall₂.length_eq

/-- What a hasher takes in: the number of rows, and then each row. -/
def fed (count : σ → Nat → σ) (row : σ → ρ → σ) (state : σ)
    (rows : List ρ) : σ :=
  rows.foldl row (count state rows.length)

/-- Rows that a hasher does not tell apart one by one it does not tell
apart. -/
theorem fed_congr (count : σ → Nat → σ) {row : σ → ρ → σ} (state : σ)
    (hrow : ∀ state x y, same x y → row state x = row state y)
    (h : List.Forall₂ same left right) :
    fed count row state left = fed count row state right := by
  unfold fed
  rw [h.length_eq]
  refine List.rel_foldl (P := Eq) ?_ rfl h
  rintro state _ rfl x y hxy
  exact hrow state x y hxy

end Rows

-- ============================================================ sequences

namespace Sequence

variable {α σ : Type} {left right seq : Sequence α}

/-- What a comparison and a hasher see of two sequences. -/
structure ComparedByContents [BEq α] (left right : Sequence α) :
    Prop where
  /-- They are equal when their elements are, one by one. -/
  equal : (left == right) = true ↔ List.Forall₂
    (fun x y => (x == y) = true) left.contents right.contents
  /-- The same elements are hashed alike. -/
  hashed : left.contents = right.contents →
    ∀ {σ : Type} (count : σ → Nat → σ) (element : σ → α → σ) (state : σ),
      left.feed count element state = right.feed count element state
  /-- Equal sequences are hashed alike if equal elements are. -/
  alike : (left == right) = true →
    ∀ {σ : Type} (count : σ → Nat → σ) (element : σ → α → σ) (state : σ),
      (∀ state x y, (x == y) = true → element state x = element state y) →
      left.feed count element state = right.feed count element state

/-- A hasher is given the elements. -/
theorem Sound.feed_eq (h : Sound seq) (count : σ → Nat → σ)
    (element : σ → α → σ) (state : σ) :
    seq.feed count element state = fed count element state seq.contents := by
  unfold feed fed
  rw [toList_eq h, h.contents_eq, h.length_items]

theorem Sound.compared [BEq α] (hl : Sound left) (hr : Sound right) :
    ComparedByContents left right := by
  have hequal : (left == right) = true ↔ List.Forall₂
      (fun x y => (x == y) = true) left.contents right.contents := by
    rw [hl.contents_eq, hr.contents_eq, ← toList_eq hl, ← toList_eq hr]
    apply sized_beq_iff
    · rw [toList_eq hl, hl.length_items]
    · rw [toList_eq hr, hr.length_items]
  refine ⟨hequal, ?_, ?_⟩
  · intro hsame σ count element state
    rw [hl.feed_eq, hr.feed_eq, hsame]
  · intro hbeq σ count element state helement
    rw [hl.feed_eq, hr.feed_eq]
    exact fed_congr count state helement (hequal.mp hbeq)

end Sequence

-- ========================================================== sorted maps

namespace SortedMap

variable {κ ν σ : Type} {cmp other : κ → κ → Ordering}
  {left : SortedMap κ ν cmp} {right : SortedMap κ ν other}

/-- What a comparison and a hasher see of two sorted maps, of whatever
orders. -/
structure ComparedByEntries [BEq κ] [BEq ν] (left : SortedMap κ ν cmp)
    (right : SortedMap κ ν other) : Prop where
  /-- They are equal when their keys and values are, one by one. -/
  equal : left.equal right = true ↔ List.Forall₂
    (fun x y => (x.1 == y.1) = true ∧ (x.2 == y.2) = true)
    left.entries right.entries
  /-- The same entries are hashed alike. -/
  hashed : left.entries = right.entries →
    ∀ {σ : Type} (count : σ → Nat → σ) (key : σ → κ → σ)
      (value : σ → ν → σ) (state : σ),
      left.feed count key value state = right.feed count key value state
  /-- Equal maps are hashed alike if equal keys and equal values are. -/
  alike : left.equal right = true →
    ∀ {σ : Type} (count : σ → Nat → σ) (key : σ → κ → σ)
      (value : σ → ν → σ) (state : σ),
      (∀ state x y, (x == y) = true → key state x = key state y) →
      (∀ state x y, (x == y) = true → value state x = value state y) →
      left.feed count key value state = right.feed count key value state

/-- A hasher is given the keys and values of the entries. -/
theorem Counted.feed_eq {map : SortedMap κ ν cmp} (h : Counted map)
    (count : σ → Nat → σ) (key : σ → κ → σ) (value : σ → ν → σ)
    (state : σ) :
    map.feed count key value state
      = fed count (fun state entry => value (key state entry.1) entry.2)
          state map.entries := by
  unfold feed fed
  rw [h.toList_eq, h]

theorem Counted.compared [BEq κ] [BEq ν] (hl : Counted left)
    (hr : Counted right) : ComparedByEntries left right := by
  have hequal : left.equal right = true ↔ List.Forall₂
      (fun x y => (x.1 == y.1) = true ∧ (x.2 == y.2) = true)
      left.entries right.entries := by
    unfold SortedMap.equal
    rw [hl.toList_eq, hr.toList_eq, sized_beq_iff hl hr]
    simp only [← Bool.and_eq_true]
    rfl
  refine ⟨hequal, ?_, ?_⟩
  · intro hsame σ count key value state
    rw [hl.feed_eq, hr.feed_eq, hsame]
  · intro hbeq σ count key value state hkey hvalue
    rw [hl.feed_eq, hr.feed_eq]
    refine fed_congr count state ?_ (hequal.mp hbeq)
    rintro state x y ⟨hxy, hxy'⟩
    rw [hkey state _ _ hxy, hvalue _ _ _ hxy']

end SortedMap

-- ========================================================== sorted sets

namespace SortedSet

variable {α : Type} {cmp other : α → α → Ordering}
  {left : SortedSet α cmp} {right : SortedSet α other}

/-- The elements of a set in order. -/
def elements (set : SortedSet α cmp) : List α := set.map.entries.map (·.1)

/-- What a comparison and a hasher see of two sorted sets, of whatever
orders. -/
structure ComparedByElements [BEq α] (left : SortedSet α cmp)
    (right : SortedSet α other) : Prop where
  /-- They are equal when their elements are, one by one. -/
  equal : left.equal right = true ↔ List.Forall₂
    (fun x y => (x == y) = true) left.elements right.elements
  /-- The same elements are hashed alike. -/
  hashed : left.elements = right.elements →
    ∀ {σ : Type} (count : σ → Nat → σ) (element : σ → α → σ) (state : σ),
      left.feed count element state = right.feed count element state
  /-- Equal sets are hashed alike if equal elements are. -/
  alike : left.equal right = true →
    ∀ {σ : Type} (count : σ → Nat → σ) (element : σ → α → σ) (state : σ),
      (∀ state x y, (x == y) = true → element state x = element state y) →
      left.feed count element state = right.feed count element state

/-- Sets are compared as the maps behind them, whose values say
nothing. -/
theorem compared_of_map [BEq α]
    (h : SortedMap.ComparedByEntries left.map right.map) :
    ComparedByElements left right where
  equal := by
    have hequal := h.equal
    simp only [beq_self_eq_true, and_true] at hequal
    unfold elements
    rw [List.forall₂_map_left_iff, List.forall₂_map_right_iff]
    exact hequal
  hashed := by
    intro hsame σ count element state
    apply h.hashed
    exact List.map_injective_iff.mpr
      (fun x y hxy => Prod.ext hxy rfl) hsame
  alike := by
    intro hbeq σ count element state helement
    exact h.alike hbeq count element _ state helement fun _ _ _ _ => rfl

end SortedSet

-- ========================================================= whole library

/-- Whatever the edits that have built them: sequences are compared and
hashed by their contents, and sorted maps and sorted sets, also of two
comparisons, by their entries and their elements in order. None of the
comparisons need have any laws. -/
theorem compared_by_contents {α κ ν : Type} [BEq α] [BEq κ] [BEq ν]
    {cmp other : κ → κ → Ordering} :
    (∀ {left right : Sequence α},
      Sequence.Reachable left → Sequence.Reachable right →
      left.ComparedByContents right)
    ∧ (∀ {left : SortedMap κ ν cmp} {right : SortedMap κ ν other},
      SortedMap.Reachable left → SortedMap.Reachable right →
      left.ComparedByEntries right)
    ∧ (∀ {left : SortedSet κ cmp} {right : SortedSet κ other},
      SortedMap.Reachable left.map → SortedMap.Reachable right.map →
      left.ComparedByElements right) := by
  refine ⟨?_, ?_, ?_⟩
  · intro left right hl hr
    exact hl.sound.compared hr.sound
  · intro left right hl hr
    exact hl.counted.compared hr.counted
  · intro left right hl hr
    exact SortedSet.compared_of_map (hl.counted.compared hr.counted)

/-- A sequence and its two halves put together again; and maps and sets
in the order of the number or of its last digit, of which the latter
have lost an entry again. Keys of one last digit are not equal. -/
theorem compared_by_contents_rebuilt :
    let entries := [(13, 2), (2, 1), (1, 0)]
    let left : SortedMap Nat Nat compare := .ofList 0 entries
    let three : SortedMap Nat Nat compare := .ofList 0 [(3, 0)]
    let thirteen : SortedMap Nat Nat (compareOn (· % 10)) :=
      .ofList 0 [(13, 0)]
    let members : SortedSet Nat compare := .ofList 0 [1, 13, 2]
    ∃ (built front back seq : Sequence Nat)
      (right : SortedMap Nat Nat (compareOn (· % 10)))
      (others : SortedSet Nat (compareOn (· % 10))),
      Sequence.ofList (List.range 70) = .ok built
        ∧ built.splitAt 40 = .ok (front, back)
        ∧ front.append back = .ok seq
        ∧ (built == seq) = true ∧ hash built = hash seq
        ∧ (SortedMap.ofList 0 ((15, 9) :: entries)).erase 1 15 = .ok right
        ∧ left.equal right = true ∧ hash left = hash right
        ∧ three.equal thirteen = false
        ∧ (SortedSet.ofList 0 [13, 15, 1, 2]).erase 1 5 = .ok others
        ∧ members.equal others = true ∧ hash members = hash others := by
  intro entries left three thirteen members
  obtain ⟨built, hbuilt, hsound, hitems⟩ := Sequence.ofList_goes
    (by decide : (List.range 70).length ≤ Sequence.crowd)
  have hlength := hsound.length_of_items hitems
  rw [List.length_range] at hlength
  have hcut := Sequence.splitAt_spec hsound (show 0 < 40 by decide)
    (show 40 ≤ built.length by omega)
  rw [hlength] at hcut
  obtain ⟨⟨front, back⟩, hsplit, ⟨hfront, hitemsf⟩, hback, hitemsb⟩ :=
    hcut.goes (by decide)
  have hjoin := Sequence.append_spec hfront hback
  rw [hfront.length_of_items hitemsf, hback.length_of_items hitemsb, hitems]
    at hjoin
  obtain ⟨seq, happend, hjoined, hitemsj⟩ := hjoin.goes (by decide)
  have hsame : built.contents = seq.contents := by
    rw [hsound.contents_eq, hjoined.contents_eq, hitemsj, hitemsf, hitemsb,
      hitems, List.take_append_drop]
  obtain ⟨hsequences, hmaps, hsets⟩ := @compared_by_contents Nat Nat Nat
    _ _ _ compare (compareOn (· % 10))
  have hseq := hsequences (.ofList hbuilt) (.append
    (.left (.ofList hbuilt) hsplit) (.right (.ofList hbuilt) hsplit) happend)
  have hmap := hmaps (.ofList 0 entries) (@SortedMap.Reachable.erase
    Nat Nat _ _ (.ofList 0 ((15, 9) :: entries)) ⟨_, 3, 1⟩ 1 15
    (.ofList 0 _) rfl)
  have hdigit := hmaps (.ofList 0 [(3, 0)]) (.ofList 0 [(13, 0)])
  have hset := @hsets members ⟨⟨_, 3, 1⟩⟩ (.ofList 0 _)
    (@SortedMap.Reachable.erase Nat Unit _ _
      (.ofList 0 [(13, ()), (15, ()), (1, ()), (2, ())]) ⟨_, 3, 1⟩ 1 5
      (.ofList 0 _) rfl)
  refine ⟨built, front, back, seq, _, _, hbuilt, hsplit, happend, ?_,
    hseq.hashed hsame _ _ _, rfl, hmap.equal.mpr ?_, hmap.hashed rfl _ _ _ _,
    ?_, rfl, hset.equal.mpr ?_, hset.hashed rfl _ _ _⟩
  · rw [hseq.equal, hsame, List.forall₂_same]
    exact fun x _ => beq_self_eq_true x
  · exact List.forall₂_same.mpr (by decide)
  · rw [← Bool.not_eq_true, hdigit.equal]
    rintro (_ | ⟨⟨hkeys, -⟩, -⟩)
    exact absurd hkeys (by decide)
  · exact List.forall₂_same.mpr (by decide)

end PersistentCollections
