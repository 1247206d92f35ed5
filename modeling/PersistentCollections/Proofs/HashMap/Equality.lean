/-
Equality of hash maps.

A comparison asks whether two maps are one instance, and else compares
their sizes and null slots and looks up in the right map what a walk over
the left one hands out. No key of the right map goes unseen: the keys of
the left map have counterparts of their own there, and maps of one size
have room for no others. So maps that are not one instance are compared
by what is found in them, and neither the trees nor the stored keys show.

Maps at hand that are one instance are equal in every respect, and so
the question about instances matters only to values that are not equal
to themselves.
-/
import Mathlib.Data.List.Perm.Subperm
import PersistentCollections.Proofs.HashMap.Instance

namespace PersistentCollections.HashMap

variable {κ ν : Type}

-- ========================================================== counterparts

section

variable [BEq κ] {left right : List (κ × ν)}

/-- What a list has under the keys of another one. -/
def counterparts (left right : List (κ × ν)) : List (κ × ν) :=
  left.filterMap fun x => lookup x.1 right

/-- A list that has all the keys of another one. -/
def Covers (right left : List (κ × ν)) : Prop :=
  ∀ x ∈ left, (lookup x.1 right).isSome = true

theorem Covers.length_counterparts (h : Covers right left) :
    (counterparts left right).length = left.length :=
  List.filterMap_length_eq_length.mpr h

variable [EquivBEq κ]

theorem lookup_congr {key other : κ} (h : (key == other) = true)
    (entries : List (κ × ν)) : lookup key entries = lookup other entries := by
  unfold lookup
  congr 1
  exact funext fun x => BEq.congr_right h

/-- Different keys have different counterparts. -/
theorem Distinct.counterparts_subperm (h : Distinct left)
    (right : List (κ × ν)) : (counterparts left right).Subperm right := by
  apply List.subperm_of_subset
  · refine List.pairwise_filterMap.mpr (h.imp ?_)
    rintro x y hne z hx _ hy rfl
    have hkeys := BEq.trans (BEq.symm (beq_of_lookup hx)) (beq_of_lookup hy)
    rw [hne] at hkeys
    cases hkeys
  · intro y hy
    obtain ⟨x, -, hfound⟩ := List.mem_filterMap.mp hy
    exact mem_of_lookup hfound

/-- A list that has all the keys of another one lacks none of them. -/
theorem Covers.absent (h : Covers right left) {key : κ}
    (hnone : lookup key right = none) : lookup key left = none := by
  refine lookup_eq_none.mpr fun x hx => Bool.eq_false_iff.mpr ?_
  intro hkey
  have hsome := h x hx
  rw [lookup_congr hkey, hnone] at hsome
  cases hsome

theorem Covers.length_le (h : Covers right left) (hleft : Distinct left) :
    left.length ≤ right.length := by
  rw [← h.length_counterparts]
  exact (hleft.counterparts_subperm right).length_le

/-- A list that has all the keys of another one and is no longer has no
other keys. -/
theorem Covers.back (h : Covers right left) (hleft : Distinct left)
    (hlength : right.length ≤ left.length) : Covers left right := by
  rw [← h.length_counterparts] at hlength
  have hperm := (hleft.counterparts_subperm right).perm_of_length_le hlength
  intro y hy
  obtain ⟨x, hx, hfound⟩ := List.mem_filterMap.mp (hperm.mem_iff.mpr hy)
  exact List.find?_isSome.mpr ⟨x, hx, BEq.symm (beq_of_lookup hfound)⟩

end

-- =============================================================== options

section

variable {R S T : ν → ν → Prop} {x y z : Option ν}

theorem beq_iff_rel [BEq ν] :
    (x == y) = true ↔ Option.Rel (fun v w => (v == w) = true) x y := by
  constructor
  · intro h
    cases x with
    | none =>
        cases y with
        | none => exact .none
        | some w => cases h
    | some v =>
        cases y with
        | none => cases h
        | some w => exact .some h
  · rintro (h | _)
    · exact h
    · rfl

theorem rel_symm (hRS : ∀ v w, R v w → S w v) (h : Option.Rel R x y) :
    Option.Rel S y x := by
  rcases h with h | _
  · exact .some (hRS _ _ h)
  · exact .none

theorem rel_trans (hRS : ∀ u v w, R u v → S v w → T u w)
    (h : Option.Rel R x y) (h' : Option.Rel S y z) : Option.Rel T x z := by
  cases h with
  | none =>
      cases h'
      exact .none
  | some h =>
      cases h' with
      | some h' => exact .some (hRS _ _ _ h h')

theorem eq_of_rel (h : Option.Rel Eq x y) : x = y := by
  rcases h with rfl | _
  · rfl
  · rfl

theorem rel_isSome (h : Option.Rel R x y) : x.isSome = y.isSome := by
  cases h <;> rfl

end

-- =============================================================== content

theorem same_comm (left right : HashMap κ ν) :
    left.same right = right.same left := by
  unfold same
  rw [Stamped.same_comm left.root, Stamped.same_comm left.nullSlot]

variable [BEq κ] [Hashable κ] {R S T : ν → ν → Prop}
  {map left right other : HashMap κ ν} {ledger l r : Ledger κ ν}
  {maps : List (HashMap κ ν)}

/-- Maps that have the same keys and related values under each, and
related values in the null slots or none in either. -/
structure Matches (R : ν → ν → Prop) (left right : HashMap κ ν) :
    Prop where
  null : Option.Rel R left.getNull? right.getNull?
  keyed : ∀ key, Option.Rel R (left.get? key) (right.get? key)

namespace Matches

theorem symm (hRS : ∀ v w, R v w → S w v) (h : Matches R left right) :
    Matches S right left where
  null := rel_symm hRS h.null
  keyed key := rel_symm hRS (h.keyed key)

theorem trans (hRS : ∀ u v w, R u v → S v w → T u w)
    (h : Matches R left right) (h' : Matches S right other) :
    Matches T left other where
  null := rel_trans hRS h.null h'.null
  keyed key := rel_trans hRS (h.keyed key) (h'.keyed key)

/-- Maps of the same values match the same maps. -/
theorem congr {left' right' : HashMap κ ν} (hl : Matches Eq left left')
    (hr : Matches Eq right right') :
    Matches R left right ↔ Matches R left' right' := by
  have hkeyl := fun key => eq_of_rel (hl.keyed key)
  have hkeyr := fun key => eq_of_rel (hr.keyed key)
  constructor
  · intro ⟨hnull, hkeyed⟩
    rw [eq_of_rel hl.null, eq_of_rel hr.null] at hnull
    simp only [hkeyl, hkeyr] at hkeyed
    exact ⟨hnull, hkeyed⟩
  · intro ⟨hnull, hkeyed⟩
    rw [← eq_of_rel hl.null, ← eq_of_rel hr.null] at hnull
    simp only [← hkeyl, ← hkeyr] at hkeyed
    exact ⟨hnull, hkeyed⟩

end Matches

section

variable [LawfulHashable κ]

/-- The value of a key is that of its entry in a walk. -/
theorem Records.get?_listed (h : Records map ledger) (key : κ) :
    map.get? key = (lookup key map.toList).map (·.2) :=
  h.itself.get?_eq key

/-- A map matches itself if the values it holds do. -/
theorem Records.matches_self (h : Records map ledger)
    (hR : ∀ x ∈ map.entries, R x.2 x.2) : Matches R map map := by
  unfold entries at hR
  constructor
  · cases hnull : map.getNull? with
    | none => exact .none
    | some value =>
        refine .some (hR (none, value) (List.mem_append_left _ ?_))
        rw [hnull]
        exact List.mem_singleton_self _
  · intro key
    rw [h.get?_listed]
    cases hfound : lookup key map.toList with
    | none => exact .none
    | some x =>
        refine .some (hR (some x.1, x.2) (List.mem_append_right _ ?_))
        exact List.mem_map_of_mem (mem_of_lookup hfound)

variable [EquivBEq κ]

/-- Every entry of a walk is found under its key. -/
theorem Records.get?_of_mem (h : Records map ledger) {x : κ × ν}
    (hx : x ∈ map.toList) : map.get? x.1 = some x.2 := by
  rw [h.get?_listed, h.itself.distinct.lookup_eq_some.mpr ⟨hx, BEq.rfl⟩]
  rfl

/-- Maps that match have the same keys. -/
theorem Matches.covers (h : Matches R left right) (hl : Records left l)
    (hr : Records right r) : Covers right.toList left.toList := by
  intro x hx
  have hsome := rel_isSome (h.keyed x.1)
  rw [hl.get?_of_mem hx, hr.get?_listed, Option.isSome_map] at hsome
  exact hsome.symm

/-- Maps that match have one size. -/
theorem Matches.size_eq (h : Matches R left right) (hl : Records left l)
    (hr : Records right r) : left.size = right.size := by
  have hlength : left.toList.length = right.toList.length := by
    have hback := h.symm (S := fun v w => R w v) fun _ _ => id
    exact Nat.le_antisymm ((h.covers hl hr).length_le hl.itself.distinct)
      ((hback.covers hr hl).length_le hr.itself.distinct)
  rw [hl.itself.size, hr.itself.size, Ledger.size, Ledger.size, hlength,
    rel_isSome h.null]

variable [BEq ν]

/-- Looking up the entries of the left map shows whether two maps
match. -/
theorem Records.scan_iff (hl : Records left l) (hr : Records right r)
    (hsymm : ∀ v w : ν, (v == w) = (w == v)) :
    (left.size == right.size && left.getNull? == right.getNull?
        && left.toList.all fun (key, value) =>
          right.get? key == some value) = true
      ↔ Matches (fun v w => (v == w) = true) left right := by
  have hturn : ∀ v w : ν, (v == w) = true → (w == v) = true :=
    fun v w hvw => (hsymm w v).trans hvw
  simp only [Bool.and_eq_true, beq_iff_eq, List.all_eq_true, beq_iff_rel]
  constructor
  · rintro ⟨⟨hsize, hnull⟩, hall⟩
    have hcovers : Covers right.toList left.toList := by
      intro x hx
      have hsome := rel_isSome (hall x hx)
      rwa [hr.get?_listed, Option.isSome_map] at hsome
    have hlength : right.toList.length ≤ left.toList.length := by
      have hfilled := rel_isSome hnull
      rw [hl.itself.size, hr.itself.size, Ledger.size, Ledger.size] at hsize
      simp only [hfilled] at hsize
      omega
    -- the right map has no keys but those of the left one
    have hback := hcovers.back hl.itself.distinct hlength
    refine ⟨hnull, fun key => ?_⟩
    cases hleft : lookup key left.toList with
    | none =>
        rw [hl.get?_listed, hr.get?_listed, hleft, hback.absent hleft]
        exact .none
    | some x =>
        have hfound := hall x (mem_of_lookup hleft)
        rw [hr.get?_listed, lookup_congr (beq_of_lookup hleft),
          ← hr.get?_listed] at hfound
        rw [hl.get?_listed, hleft]
        exact rel_symm hturn hfound
  · intro h
    refine ⟨⟨h.size_eq hl hr, h.null⟩, fun x hx => ?_⟩
    have hrel := h.keyed x.1
    rw [hl.get?_of_mem hx] at hrel
    exact rel_symm hturn hrel

/-- Maps are equal if they are one instance or match. -/
theorem Records.beq_iff (hl : Records left l) (hr : Records right r)
    (hsymm : ∀ v w : ν, (v == w) = (w == v)) :
    (left == right) = true ↔ left.same right = true
      ∨ Matches (fun v w => (v == w) = true) left right := by
  rw [← hl.scan_iff hr hsymm, ← Bool.or_eq_true]
  rfl

theorem Records.beq_symm (hl : Records left l) (hr : Records right r)
    (hsymm : ∀ v w : ν, (v == w) = (w == v))
    (h : (left == right) = true) : (right == left) = true := by
  rw [hr.beq_iff hl hsymm, same_comm]
  refine ((hl.beq_iff hr hsymm).mp h).imp_right (Matches.symm ?_)
  exact fun v w hvw => (hsymm w v).trans hvw

-- ============================================================== programs

theorem AtHand.matches_of_same (h : AtHand maps) (hleft : left ∈ maps)
    (hright : right ∈ maps) (hself : Matches R left left)
    (hsame : left.same right = true) : Matches R left right := by
  rw [← h.eq_of_same hleft hright hsame]
  exact hself

theorem AtHand.beq_trans (h : AtHand maps)
    (hsymm : ∀ v w : ν, (v == w) = (w == v))
    (htrans : ∀ u v w : ν, (u == v) = true → (v == w) = true →
      (u == w) = true)
    (hleft : left ∈ maps) (hmiddle : other ∈ maps) (hright : right ∈ maps)
    (hbeq : (left == other) = true) (hbeq' : (other == right) = true) :
    (left == right) = true := by
  obtain ⟨_, hl⟩ := h.records left hleft
  obtain ⟨_, hm⟩ := h.records other hmiddle
  obtain ⟨_, hr⟩ := h.records right hright
  rcases (hl.beq_iff hm hsymm).mp hbeq with hsame | hmatch
  · rwa [h.eq_of_same hleft hmiddle hsame]
  rcases (hm.beq_iff hr hsymm).mp hbeq' with hsame | hmatch'
  · rwa [← h.eq_of_same hmiddle hright hsame]
  · exact (hl.beq_iff hr hsymm).mpr (.inr (hmatch.trans htrans hmatch'))

/-- What a comparison tells of the maps that a program has at hand. -/
structure ComparedByLookup (maps : List (HashMap κ ν)) : Prop where
  /-- Maps are equal if they are one instance, and if they have equal
  values in their null slots, or none, and under the same keys. -/
  equal : ∀ left ∈ maps, ∀ right ∈ maps, (left == right) = true
    ↔ left.same right = true
      ∨ Matches (fun v w => (v == w) = true) left right
  /-- Each is equal to the other or neither is. -/
  comm : ∀ left ∈ maps, ∀ right ∈ maps, (left == right) = (right == left)
  /-- Maps of the same values under the same keys compare alike, however
  they were built. That they are one instance is seen only where they
  hold a value that is not equal to itself. -/
  congr : ∀ left ∈ maps, ∀ right ∈ maps, ∀ left' ∈ maps, ∀ right' ∈ maps,
    Matches Eq left left' → Matches Eq right right' →
    (left.same right = left'.same right'
      ∨ ∀ x ∈ left.entries, (x.2 == x.2) = true) →
    (left == right) = (left' == right')
  /-- Equality of maps is an equivalence if that of values is transitive;
  a map is equal to itself whatever it holds. -/
  equivalence : (∀ u v w : ν, (u == v) = true → (v == w) = true →
      (u == w) = true) →
    Equivalence fun left right : {map // map ∈ maps} =>
      (left.1 == right.1) = true
  /-- Maps that are one instance are equal in every respect: the entries
  and their order, the null slot and the size. -/
  alike : ∀ left ∈ maps, ∀ right ∈ maps, left.same right = true →
    left = right
  /-- Equal maps that hold unequal values are one instance, and hold a
  value that is not equal to itself. -/
  shortcut : ∀ left ∈ maps, ∀ right ∈ maps, (left == right) = true →
    ¬ Matches (fun v w => (v == w) = true) left right →
    left.same right = true ∧ ∃ x ∈ left.entries, (x.2 == x.2) = false

/-- Whatever the edits that a program has made its maps with, they are
compared by what is found in them. -/
theorem AtHand.compared_by_lookup (h : AtHand maps)
    (hsymm : ∀ v w : ν, (v == w) = (w == v)) : ComparedByLookup maps := by
  have hequal : ∀ left ∈ maps, ∀ right ∈ maps, (left == right) = true
      ↔ left.same right = true
        ∨ Matches (fun v w => (v == w) = true) left right := by
    intro left hleft right hright
    obtain ⟨_, hl⟩ := h.records left hleft
    obtain ⟨_, hr⟩ := h.records right hright
    exact hl.beq_iff hr hsymm
  have hturn : ∀ left ∈ maps, ∀ right ∈ maps,
      (left == right) = true → (right == left) = true := by
    intro left hleft right hright
    obtain ⟨_, hl⟩ := h.records left hleft
    obtain ⟨_, hr⟩ := h.records right hright
    exact hl.beq_symm hr hsymm
  constructor
  case equal => exact hequal
  case comm =>
      intro left hleft right hright
      exact Bool.eq_iff_iff.mpr ⟨hturn left hleft right hright,
        hturn right hright left hleft⟩
  case congr =>
      intro left hleft right hright left' hleft' right' hright' hl hr hcase
      rw [Bool.eq_iff_iff, hequal left hleft right hright,
        hequal left' hleft' right' hright']
      rcases hcase with hsame | hself
      · rw [hsame, Matches.congr hl hr]
      · -- one instance is then no more than one more match
        obtain ⟨_, hrecords⟩ := h.records left hleft
        have hmatch : Matches (fun v w => (v == w) = true) left left :=
          hrecords.matches_self hself
        have hmatch' := (Matches.congr hl hl).mp hmatch
        rw [or_iff_right_of_imp (h.matches_of_same hleft hright hmatch),
          or_iff_right_of_imp (h.matches_of_same hleft' hright' hmatch'),
          Matches.congr hl hr]
  case equivalence =>
      intro htrans
      constructor
      · intro ⟨map, hmap⟩
        exact (hequal map hmap map hmap).mpr (.inl (same_self map))
      · intro ⟨left, hleft⟩ ⟨right, hright⟩
        exact hturn left hleft right hright
      · intro ⟨left, hleft⟩ ⟨middle, hmiddle⟩ ⟨right, hright⟩
        exact h.beq_trans hsymm htrans hleft hmiddle hright
  case alike =>
      exact fun left hleft right hright => h.eq_of_same hleft hright
  case shortcut =>
      intro left hleft right hright hbeq hdiffer
      have hsame := ((hequal left hleft right hright).mp hbeq).resolve_right
        hdiffer
      obtain ⟨_, hrecords⟩ := h.records left hleft
      refine ⟨hsame, ?_⟩
      by_contra hnone
      refine hdiffer (h.matches_of_same hleft hright ?_ hsame)
      refine hrecords.matches_self fun x hx => ?_
      by_contra hself
      exact hnone ⟨x, hx, Bool.eq_false_iff.mpr hself⟩

end

/-- Two keys of one hash that come in either order, and then a null slot
with a value that is not equal to itself. -/
theorem compared_by_lookup_unequal :
    letI : BEq (Option Nat) := ⟨fun v w => v.isSome && v == w⟩
    ∃ left right spoiled other : HashMap Nat (Option Nat),
      empty.edit 0 (.ofList
          [(1, some 10), (18446744073709551617, some 20)]) = .ok left
        ∧ empty.edit 1 (.ofList
          [(18446744073709551617, some 20), (1, some 10)]) = .ok right
        ∧ left.edit 2 (.insertNull none) = .ok spoiled
        ∧ right.edit 3 (.insertNull none) = .ok other
        ∧ left.keys ≠ right.keys ∧ (left == right) = true
        ∧ (spoiled == spoiled) = true ∧ (spoiled == other) = false
        ∧ ComparedByLookup [other, spoiled, right, left, empty] := by
  let _ : BEq (Option Nat) := ⟨fun v w => v.isSome && v == w⟩
  let front : Stamped (Node Nat (Option Nat)) := ⟨0, .packed 2#32
    [.node (.bucket 1 [(1, some 10), (18446744073709551617, some 20)])]⟩
  let back : Stamped (Node Nat (Option Nat)) := ⟨1, .packed 2#32
    [.node (.bucket 1 [(18446744073709551617, some 20), (1, some 10)])]⟩
  have hleft : empty.edit 0 (.ofList [(1, some 10),
    (18446744073709551617, some 20)]) = .ok ⟨front, 2, none⟩ := rfl
  have hright : empty.edit 1 (.ofList [(18446744073709551617, some 20),
    (1, some 10)]) = .ok ⟨back, 2, none⟩ := rfl
  have hspoiled : (mk (some front) 2 none).edit 2 (.insertNull none)
    = .ok ⟨front, 3, some ⟨2, none⟩⟩ := rfl
  have hother : (mk (some back) 2 none).edit 3 (.insertNull none)
    = .ok ⟨back, 3, some ⟨3, none⟩⟩ := rfl
  have hmaps := ((((AtHand.start.make .empty).make
    (.edit List.mem_cons_self (by decide) hleft)).make
    (.edit (.tail _ List.mem_cons_self) (by decide) hright)).make
    (.edit (.tail _ List.mem_cons_self) (by decide) hspoiled)).make
    (.edit (.tail _ List.mem_cons_self) (by decide) hother)
  have hsymm : ∀ v w : Option Nat, (v == w) = (w == v) := by
    rintro (_ | v) (_ | w)
    case some.some => exact BEq.comm (a := v)
    all_goals rfl
  have hcompared := AtHand.compared_by_lookup hmaps hsymm
  have hself := hcompared.equal _ (.tail _ List.mem_cons_self) _
    (.tail _ List.mem_cons_self)
  exact ⟨_, _, _, _, hleft, hright, hspoiled, hother, by decide, rfl,
    hself.mpr (.inl rfl), rfl, hcompared⟩

end PersistentCollections.HashMap
