/-
What the merger of two hash maps holds.

The entries of the right map are put into the left one, one by one, in
the order of a walk. A value that is put under a key is laid over what
is there: the key stays as it is stored and the value is replaced
(`lookup_store`). As no key occurs twice in a walk, the merger has under
every key what the right map has laid over what the left one has
(`lookup_putAll`), and is as much longer as the right map has keys that
the left one lacks (`length_putAll`).
-/
import PersistentCollections.Proofs.HashMap.Equality

namespace PersistentCollections.HashMap

variable {κ ν : Type}

/-- The entry of a key if `above` is put where `under` is stored: the key
of `under` with the value of `above`. -/
def overlay (under above : Option (κ × ν)) : Option (κ × ν) :=
  match under, above with
  | some x, some y => some (x.1, y.2)
  | some x, none => some x
  | none, above => above

@[simp] theorem overlay_none (under : Option (κ × ν)) :
    overlay under none = under := by
  cases under <;> rfl

theorem overlay_key (under above : Option (κ × ν)) :
    (overlay under above).map (·.1)
      = (under.map (·.1)).or (above.map (·.1)) := by
  cases under <;> cases above <;> rfl

theorem overlay_value (under above : Option (κ × ν)) :
    (overlay under above).map (·.2)
      = (above.map (·.2)).or (under.map (·.2)) := by
  cases under <;> cases above <;> rfl

theorem overlay_isSome (under above : Option (κ × ν)) :
    (overlay under above).isSome = (under.isSome || above.isSome) := by
  cases under <;> cases above <;> rfl

-- =========================================================== putting all

section

variable [BEq κ] {key other : κ} {value : ν} {entries : List (κ × ν)}

theorem lookup_other (h : (key == other) = false) (x : ν) :
    lookup other [(key, x)] = none :=
  lookup_eq_none.mpr fun _ hx => by rwa [List.mem_singleton.mp hx]

variable [EquivBEq κ]

theorem lookup_store (key other : κ) (value : ν)
    (entries : List (κ × ν)) :
    lookup other (store key value entries)
      = overlay (lookup other entries) (lookup other [(key, value)]) := by
  induction entries with
  | nil => rfl
  | cons x rest ih =>
      unfold lookup at ih ⊢
      rw [store]
      by_cases hkey : (x.1 == key) = true
      · -- the key that is stored is met under the same keys as the new one
        rw [if_pos hkey, List.find?_cons, List.find?_cons,
          List.find?_singleton, BEq.congr_left hkey]
        cases key == other with
        | true => rfl
        | false => exact (overlay_none _).symm
      · rw [if_neg hkey, List.find?_cons, List.find?_cons, ih]
        cases hother : x.1 == other with
        | false => rfl
        | true =>
            have hne : (key == other) = false := by
              rw [BEq.congr_right (BEq.symm hother), BEq.comm]
              exact Bool.eq_false_iff.mpr hkey
            have hnone := lookup_other hne value
            unfold lookup at hnone
            rw [hnone]
            rfl

/-- What is found among entries of different keys, of which one comes
first. -/
theorem Distinct.lookup_cons {x : κ × ν} (h : Distinct (x :: entries))
    (key : κ) : lookup key (x :: entries) = lookup key [x]
      ∧ lookup key entries = none
    ∨ lookup key (x :: entries) = lookup key entries
      ∧ lookup key [x] = none := by
  obtain ⟨hx, -⟩ := List.pairwise_cons.mp h
  unfold lookup
  rw [List.find?_cons, List.find?_singleton]
  by_cases hkey : (x.1 == key) = true
  · refine .inl ⟨by rw [hkey, if_pos rfl], lookup_eq_none.mpr ?_⟩
    intro y hy
    rw [← BEq.congr_right hkey, BEq.comm]
    exact hx y hy
  · rw [Bool.eq_false_iff.mpr hkey]
    exact .inr ⟨rfl, rfl⟩

/-- Entries of different keys are laid over a ledger all at once. -/
theorem lookup_putAll (ledger : Ledger κ ν) (h : Distinct entries)
    (key : κ) :
    lookup key (ledger.putAll entries).keyed
      = overlay (lookup key ledger.keyed) (lookup key entries) := by
  induction entries generalizing ledger with
  | nil => exact (overlay_none _).symm
  | cons x rest ih =>
      show lookup key ((ledger.put x.1 x.2).putAll rest).keyed = _
      rw [ih _ (List.pairwise_cons.mp h).2]
      show overlay (lookup key (store x.1 x.2 ledger.keyed)) _ = _
      rw [lookup_store]
      rcases h.lookup_cons key with ⟨hfirst, hnone⟩ | ⟨hrest, hnone⟩
      · rw [hfirst, hnone, overlay_none]
      · rw [hrest, hnone, overlay_none]

/-- A ledger gets longer by the keys that it lacks. -/
theorem length_putAll (ledger : Ledger κ ν) (h : Distinct entries) :
    (ledger.putAll entries).keyed.length = ledger.keyed.length
      + entries.countP fun x => (lookup x.1 ledger.keyed).isNone := by
  induction entries generalizing ledger with
  | nil => rfl
  | cons x rest ih =>
      obtain ⟨hx, hrest⟩ := List.pairwise_cons.mp h
      have hsame : ∀ y ∈ rest,
          lookup y.1 (store x.1 x.2 ledger.keyed)
            = lookup y.1 ledger.keyed := by
        intro y hy
        rw [lookup_store, lookup_other (hx y hy), overlay_none]
      show ((ledger.put x.1 x.2).putAll rest).keyed.length = _
      rw [ih _ hrest]
      show (store x.1 x.2 ledger.keyed).length
        + rest.countP (fun y =>
          (lookup y.1 (store x.1 x.2 ledger.keyed)).isNone) = _
      rw [length_store, List.countP_cons,
        List.countP_congr fun y hy => by rw [hsame y hy]]
      cases (lookup x.1 ledger.keyed).isNone with
      | true =>
          rw [Bool.toNat_true, if_pos rfl]
          omega
      | false => rfl

end

-- ========================================================== whole mergers

section

variable [BEq κ] [Hashable κ]

/-- A map that holds the entries of two maps, the right one laid over the
left one. -/
structure Union (left right merged : HashMap κ ν) : Prop where
  /-- Under every key stands the value of the right map, or else that of
  the left one. -/
  value : ∀ key, merged.get? key = (right.get? key).or (left.get? key)
  /-- The key is stored as the left map has it, or else as the right one
  has it. -/
  storedKey : ∀ key, (merged.stored? key).map (·.1)
    = ((left.stored? key).map (·.1)).or ((right.stored? key).map (·.1))
  /-- The keys are those of either map and no others. -/
  contains : ∀ key,
    merged.contains key = (left.contains key || right.contains key)
  null : merged.getNull? = right.getNull?.or left.getNull?
  /-- A walk hands out what is found under the keys, -/
  listed : ∀ x, x ∈ merged.toList ↔ merged.stored? x.1 = some x
  /-- and no key twice. -/
  distinct : Distinct merged.toList
  /-- There are the keys of the left map, and those of the right one that
  the left one lacks; -/
  length : merged.toList.length = left.toList.length
    + right.toList.countP fun x => !left.contains x.1
  /-- the size counts the null slot too, if either map has filled it. -/
  size : merged.size
    = merged.toList.length + (left.hasNull || right.hasNull).toNat

variable {map left right : HashMap κ ν} {l r : Ledger κ ν}

theorem merge_of_isEmpty (h : left.isEmpty = true) (stamp : Stamp)
    (right : HashMap κ ν) : left.merge stamp right = .ok right := by
  unfold merge
  rw [if_pos h]

theorem merge_empty (h : left.isEmpty = false) (stamp : Stamp) :
    left.merge stamp empty = .ok left := by
  unfold merge
  rw [h]
  rfl

variable [LawfulHashable κ] [EquivBEq κ]

/-- A walk hands out the entries that are found under their own keys. -/
theorem Records.mem_toList (h : Records map l) {x : κ × ν} :
    x ∈ map.toList ↔ map.stored? x.1 = some x := by
  rw [h.itself.stored?_eq, h.itself.distinct.lookup_eq_some]
  exact (and_iff_left BEq.rfl).symm

/-- Merging succeeds and lays the right map above the left one. -/
theorem Records.merge_union (hl : Records left l) (stamp : Stamp)
    (hr : Records right r) :
    ∃ merged, left.merge stamp right = .ok merged
      ∧ Union left right merged := by
  obtain ⟨merged, hmerge, h⟩ := merge_spec hl stamp hr
  have hdistinct := hr.itself.distinct
  have hfound : ∀ key, merged.stored? key
      = overlay (left.stored? key) (right.stored? key) := by
    intro key
    rw [h.stored?_eq, hl.stored?_eq, hr.itself.stored?_eq]
    exact lookup_putAll l hdistinct key
  have hnull : merged.getNull? = right.getNull?.or left.getNull? := by
    rw [h.null, hl.null, hr.null]
    rfl
  refine ⟨merged, hmerge, ?_⟩
  constructor
  case value =>
      intro key
      rw [get?, hfound, overlay_value]
      rfl
  case storedKey =>
      intro key
      rw [hfound, overlay_key]
  case contains =>
      intro key
      rw [HashMap.contains, hfound, overlay_isSome]
      rfl
  case null => exact hnull
  case listed => exact fun x => h.mem_toList
  case distinct => exact h.itself.distinct
  case length =>
      rw [h.toList_eq, h.alike.perm.length_eq, hl.toList_eq,
        hl.alike.perm.length_eq]
      refine (length_putAll l hdistinct).trans ?_
      congr 2
      funext x
      rw [HashMap.contains, hl.stored?_eq, Option.not_isSome]
  case size =>
      have hfilled : merged.hasNull = (left.hasNull || right.hasNull) := by
        rw [h.itself.hasNull_eq, hl.itself.hasNull_eq, hr.itself.hasNull_eq]
        show merged.getNull?.isSome = _
        rw [hnull, Option.isSome_or, Bool.or_comm]
      rw [h.itself.size, ← hfilled, h.itself.hasNull_eq]
      rfl

variable [BEq ν]

/-- The merger of two maps, however they came about, is the union of the
two; and where one of them is empty, it is the other one. -/
theorem merge_is_union (left right : Course κ ν) (stamp : Stamp) :
    ∃ l r merged, left.map = .ok l ∧ right.map = .ok r
      ∧ l.merge stamp r = .ok merged ∧ Union l r merged
      ∧ (l.isEmpty = true → merged = r)
      ∧ (r.isEmpty = true → merged = l) := by
  obtain ⟨l, hleft, hl⟩ := course_spec left
  obtain ⟨r, hright, hr⟩ := course_spec right
  obtain ⟨merged, hmerge, hunion⟩ := hl.merge_union stamp hr
  refine ⟨l, r, merged, hleft, hright, hmerge, hunion, ?_, ?_⟩
  · intro hempty
    rw [merge_of_isEmpty hempty] at hmerge
    cases hmerge
    rfl
  · intro hempty
    rw [hr.eq_empty hempty] at hmerge
    cases hnone : l.isEmpty with
    | true =>
        rw [merge_of_isEmpty hnone] at hmerge
        cases hmerge
        exact (hl.eq_empty hnone).symm
    | false =>
        rw [merge_empty hnone] at hmerge
        cases hmerge
        rfl

end

/-- Keys that count as equal by their first parts and collide by their
last digits: the right map is an edit of the left one, keeps its null
slot, and brings another form of one of its keys. -/
theorem merge_is_union_edited :
    letI : BEq (Nat × Nat) := ⟨fun x y => x.1 == y.1⟩
    letI : Hashable (Nat × Nat) := ⟨fun x => hash (x.1 % 2)⟩
    let left : Course (Nat × Nat) Nat := .batch .empty
      [(0, .insertAll [((1, 0), 10), ((2, 0), 20)]), (1, .insertNull 5)]
    let right : Course (Nat × Nat) Nat := .edit (.edit (.edit left 2
      (.erase (1, 0))) 3 (.insert (2, 7) 21)) 4 (.insert (3, 7) 31)
    ∃ l r merged, left.map = .ok l ∧ right.map = .ok r
      ∧ l.merge 5 r = .ok merged ∧ Union l r merged
      ∧ merged.stored? (2, 9) = some ((2, 0), 21)
      ∧ merged.toList = [((2, 0), 21), ((1, 0), 10), ((3, 7), 31)]
      ∧ merged.getNull? = some 5 ∧ merged.size = 4 := by
  let beq : BEq (Nat × Nat) := ⟨fun x y => x.1 == y.1⟩
  let hashable : Hashable (Nat × Nat) := ⟨fun x => hash (x.1 % 2)⟩
  intro left right
  have hbeq : ∀ {x y : Nat × Nat}, (x == y) = true ↔ x.1 = y.1 :=
    fun {x y} => beq_iff_eq (a := x.1) (b := y.1)
  have : EquivBEq (Nat × Nat) := {
    rfl := hbeq.mpr rfl
    symm := fun h => hbeq.mpr (hbeq.mp h).symm
    trans := fun h h' => hbeq.mpr ((hbeq.mp h).trans (hbeq.mp h')) }
  have : LawfulHashable (Nat × Nat) := ⟨fun _ _ h =>
    congrArg (fun n => hash (n % 2)) (hbeq.mp h)⟩
  obtain ⟨l, r, merged, hleft, hright, hmerge, hunion, -, -⟩ :=
    merge_is_union left right 5
  refine ⟨l, r, merged, hleft, hright, hmerge, hunion, ?_⟩
  subst right left hashable beq
  have hl : ⟨some ⟨0, .packed 3#32 [.entry 0 (2, 0) 20,
    .entry 1 (1, 0) 10]⟩, 3, some ⟨1, 5⟩⟩ = l := Except.ok.inj hleft
  have hr : ⟨some ⟨4, .packed 3#32 [.entry 0 (2, 0) 21,
    .entry 1 (3, 7) 31]⟩, 3, some ⟨1, 5⟩⟩ = r := Except.ok.inj hright
  subst hl hr
  cases hmerge
  exact ⟨rfl, rfl, rfl, rfl⟩

end PersistentCollections.HashMap
