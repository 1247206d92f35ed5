/-
The same changes made on a map and on a draft of it.

A map leaves a value alone where an equal one comes, and a draft stores
whatever it is given, so the two need not end with the same values.
Their ledgers stay twins all the same: they have the same keys in the
same order, and the values of a key are one value or are equal, with the
kept one on the left. An insertion levels whatever difference there was,
so nothing is asked of the equality of values; it may hold of no value
and itself. What the two maps list follows, since the order of a walk
depends on the keys alone (`inOrder_twins`).
-/
import Mathlib.Data.List.Forall2
import PersistentCollections.Proofs.HashMap.Conversation

namespace PersistentCollections.HashMap

variable {κ ν : Type}

-- ============================================================== changes

/-- A change that both a map and a draft can make. -/
inductive Change (κ ν : Type) where
  /-- Store a value under a key. -/
  | insert (key : κ) (value : ν)
  /-- Remove a key. -/
  | erase (key : κ)
  /-- Fill the null slot. -/
  | insertNull (value : ν)
  /-- Empty the null slot. -/
  | eraseNull

/-- The change as an edit of a map. -/
def Change.onMap : Change κ ν → Edit κ ν
  | .insert key value => .insert key value
  | .erase key => .erase key
  | .insertNull value => .insertNull value
  | .eraseNull => .eraseNull

/-- The change as a call on a draft. -/
def Change.onDraft : Change κ ν → Draft.Call κ ν
  | .insert key value => .edit (.insert key value)
  | .erase key => .edit (.erase key)
  | .insertNull value => .edit (.insertNull value)
  | .eraseNull => .edit .eraseNull

/-- A change that is made twice. -/
structure Twice (κ ν : Type) where
  change : Change κ ν
  /-- The stamp that it has on the map. -/
  stamp : Stamp
  /-- The stamp that it has on the draft. -/
  draftStamp : Stamp

/-- The edit of a map. -/
def Twice.edit (twice : Twice κ ν) : Stamp × Edit κ ν :=
  (twice.stamp, twice.change.onMap)

/-- The call on a draft. -/
def Twice.call (twice : Twice κ ν) : Stamp × Draft.Call κ ν :=
  (twice.draftStamp, twice.change.onDraft)

-- ================================================================ twins

section

variable [BEq ν]

/-- A value that was kept and one that was stored: the same, or equal. -/
def Agree (kept closed : ν) : Prop :=
  kept = closed ∨ (kept == closed) = true

/-- Entries of the very same key whose values agree. -/
def Twin (x y : κ × ν) : Prop := x.1 = y.1 ∧ Agree x.2 y.2

/-- Ledgers that differ in agreeing values at most. -/
structure Ledger.Twins (kept closed : Ledger κ ν) : Prop where
  keyed : List.Forall₂ Twin kept.keyed closed.keyed
  null : Option.Rel Agree kept.null closed.null

/-- Maps that differ in agreeing values at most. -/
structure Twins (kept closed : HashMap κ ν) : Prop where
  size : kept.size = closed.size
  keys : kept.keys = closed.keys
  values : List.Forall₂ Agree kept.values closed.values
  hasNull : kept.hasNull = closed.hasNull
  null : Option.Rel Agree kept.getNull? closed.getNull?

end

section

variable [BEq ν] {l r : List (κ × ν)}

theorem twins_refl (entries : List (κ × ν)) :
    List.Forall₂ Twin entries entries :=
  List.forall₂_same.mpr fun _ _ => ⟨rfl, .inl rfl⟩

theorem Ledger.Twins.refl (ledger : Ledger κ ν) :
    Ledger.Twins ledger ledger where
  keyed := twins_refl ledger.keyed
  null := by
    cases ledger.null with
    | none => exact .none
    | some value => exact .some (.inl rfl)

theorem isSome_eq_of_rel {a b : Option ν} (h : Option.Rel Agree a b) :
    a.isSome = b.isSome := by
  cases h <;> rfl

/-- Twins have one order by the digits of their keys. -/
theorem inOrder_twins [Hashable κ] (h : List.Forall₂ Twin l r) :
    List.Forall₂ Twin (inOrder l) (inOrder r) := by
  obtain ⟨hlength, htwin⟩ := List.forall₂_iff_zip.mp h
  -- both lists are sorted as the one list of their pairs is
  have hleft : ((l.zip r).mergeSort fun p q =>
      upTo (hash p.1.1) (hash q.1.1)).map Prod.fst = inOrder l := by
    conv_rhs => rw [← List.map_fst_zip (Nat.le_of_eq hlength)]
    exact List.map_mergeSort fun _ _ _ _ => rfl
  have hright : ((l.zip r).mergeSort fun p q =>
      upTo (hash p.1.1) (hash q.1.1)).map Prod.snd = inOrder r := by
    conv_rhs => rw [← List.map_snd_zip (Nat.le_of_eq hlength.symm)]
    refine List.map_mergeSort fun p hp q hq => ?_
    rw [(htwin hp).1, (htwin hq).1]
  rw [← hleft, ← hright, List.forall₂_map_left_iff, List.forall₂_map_right_iff,
    List.forall₂_same]
  intro p hp
  exact htwin ((List.mergeSort_perm _ _).subset hp)

variable [BEq κ]

theorem store_twins (h : List.Forall₂ Twin l r) (key : κ) (value : ν) :
    List.Forall₂ Twin (store key value l) (store key value r) := by
  induction h with
  | nil => exact twins_refl _
  | @cons x y l r hxy hrest ih =>
      rw [store, store, ← hxy.1]
      split
      · exact .cons ⟨rfl, .inl rfl⟩ hrest
      · exact .cons hxy ih

/-- A value that stays agrees with the equal one that is stored. -/
theorem keep_twins (h : List.Forall₂ Twin l r) {key : κ} {value : ν}
    {x : κ × ν} (hx : lookup key l = some x)
    (hvalue : (x.2 == value) = true) :
    List.Forall₂ Twin l (store key value r) := by
  induction h with
  | nil => cases hx
  | @cons y z l r hyz hrest ih =>
      unfold lookup at hx ih
      rw [List.find?_cons] at hx
      rw [store, ← hyz.1]
      split at hx
      case h_1 hkey =>
          rw [if_pos hkey]
          cases hx
          exact .cons ⟨rfl, .inr hvalue⟩ hrest
      case h_2 hkey =>
          rw [if_neg (by rw [hkey]; exact Bool.false_ne_true)]
          exact .cons hyz (ih hx)

theorem without_twins (h : List.Forall₂ Twin l r) (key : κ) :
    List.Forall₂ Twin (without key l) (without key r) := by
  refine List.rel_filter ?_ h
  intro x y hxy
  show (!(x.1 == key)) = true ↔ (!(y.1 == key)) = true
  rw [hxy.1]

end

-- ================================================================= runs

variable [BEq κ] [BEq ν] {kept closed : Ledger κ ν}

/-- A change on both sides leaves twins. -/
theorem Ledger.Twins.step (h : kept.Twins closed) (change : Change κ ν) :
    Ledger.Twins (kept.note change.onMap)
      (closed.reply change.onDraft).2 := by
  cases change with
  | insert key value =>
      show Ledger.Twins (kept.insert key value) (closed.put key value)
      unfold Ledger.insert
      cases hx : lookup key kept.keyed with
      | none => exact ⟨store_twins h.keyed key value, h.null⟩
      | some x =>
          dsimp only
          split
          case isTrue hvalue => exact ⟨keep_twins h.keyed hx hvalue, h.null⟩
          case isFalse => exact ⟨store_twins h.keyed key value, h.null⟩
  | erase key => exact ⟨without_twins h.keyed key, h.null⟩
  | insertNull value =>
      show Ledger.Twins (kept.insertNull value) (closed.putNull value)
      unfold Ledger.insertNull
      split
      case isTrue hvalue =>
          refine ⟨h.keyed, ?_⟩
          cases hnull : kept.null with
          | none => rw [hnull] at hvalue; cases hvalue
          | some stored =>
              rw [hnull] at hvalue
              exact .some (.inr hvalue)
      case isFalse => exact ⟨h.keyed, .some (.inl rfl)⟩
  | eraseNull => exact ⟨h.keyed, .none⟩

/-- Changes on both sides, one after the other, leave twins. -/
theorem Ledger.Twins.run (h : kept.Twins closed)
    (changes : List (Twice κ ν)) :
    Ledger.Twins (kept.noteAll (changes.map Twice.edit))
      (transcript Ledger.reply closed
        ((changes.map Twice.call).map (·.2))).2 := by
  induction changes generalizing kept closed with
  | nil => exact h
  | cons twice changes ih => exact ih (h.step twice.change)

variable [Hashable κ]

/-- Maps that record twins are twins. -/
theorem Records.twins {map other : HashMap κ ν} (h : Records map kept)
    (hother : Records other closed) (htwins : kept.Twins closed) :
    Twins map other := by
  have hlist : List.Forall₂ Twin map.toList other.toList := by
    rw [h.toList_inOrder, hother.toList_inOrder]
    exact inOrder_twins htwins.keyed
  have hnull : Option.Rel Agree map.getNull? other.getNull? := by
    rw [h.null, hother.null]
    exact htwins.null
  have hhas : map.hasNull = other.hasNull := by
    rw [h.hasNull_eq, hother.hasNull_eq]
    exact isSome_eq_of_rel htwins.null
  refine ⟨?_, ?_, ?_, hhas, hnull⟩
  · rw [h.size, hother.size, Ledger.size, Ledger.size,
      htwins.keyed.length_eq, ← h.hasNull_eq, ← hother.hasNull_eq, hhas]
  · unfold keys
    rw [← List.forall₂_eq_eq_eq, List.forall₂_map_left_iff,
      List.forall₂_map_right_iff]
    exact hlist.imp fun _ _ => And.left
  · unfold values
    rw [List.forall₂_map_left_iff, List.forall₂_map_right_iff]
    exact hlist.imp fun _ _ => And.right

variable [EquivBEq κ] [LawfulHashable κ]

/-- The same changes of the map of a course, made on it and on a draft of
it, lead to twins. In any conversation with the draft each call is
answered from the entries that the calls before it have left, none is
refused, and a batch stores its entries one by one; at the end the draft
closes with those entries, and after that it refuses every call. -/
theorem course_draft_twins (course : Course κ ν) :
    ∃ map, course.map = .ok map
      ∧ (∀ changes : List (Twice κ ν), ∃ kept closed ended,
          map.editAll (changes.map Twice.edit) = .ok kept
            ∧ (transcript Draft.respond map.draft
                (changes.map Twice.call)).2.close = .ok (closed, ended)
            ∧ Twins kept closed)
      ∧ (∀ calls : List (Stamp × Draft.Call κ ν),
          let said := transcript Draft.respond map.draft calls
          let noted := transcript Ledger.reply ⟨map.toList, map.getNull?⟩
            (calls.map (·.2))
          said.1 = noted.1.map .ok
            ∧ (∀ stamp entries, said.2.insertAll stamp entries
                = said.2.insertEach stamp entries)
            ∧ ∃ closed ended, said.2.close = .ok (closed, ended)
              ∧ closed.toList = inOrder noted.2.keyed
              ∧ (∀ key, closed.stored? key = lookup key noted.2.keyed)
              ∧ closed.getNull? = noted.2.null
              ∧ closed.size = noted.2.size
              ∧ ended.close = .error (.draftClosed "TransientHashMap")
              ∧ ∀ later, transcript Draft.respond ended later
                  = (later.map fun _ =>
                      .error (.draftClosed "TransientHashMap"), ended))
      ∧ ∀ stamp (entries : List (κ × ν)), ofList stamp entries = (do
          let draft ← Draft.empty.insertEach stamp entries
          return (← draft.close).1) := by
  obtain ⟨map, hmap, hrecords⟩ := course_spec course
  have h := hrecords.itself
  have hdraft : map.draft.Records _ := ⟨map, rfl, h⟩
  refine ⟨map, hmap, fun changes => ?_, fun calls => ?_, ofList_eq⟩
  · obtain ⟨kept, hkept, hkeeps⟩ :=
      editAll_spec h (changes.map Twice.edit)
    obtain ⟨closed, hclosed, hcloses⟩ :=
      (conversation_spec hdraft (changes.map Twice.call)).2.close
    have htwins := (Ledger.Twins.refl ⟨map.toList, map.getNull?⟩).run changes
    exact ⟨kept, closed, _, hkept, hclosed, hkeeps.twins hcloses htwins⟩
  · intro said noted
    obtain ⟨hanswers, last, hlast, hcloses⟩ := conversation_spec hdraft calls
    refine ⟨hanswers, ?_, last, ⟨none⟩, ?_, hcloses.toList_inOrder,
      hcloses.stored?_eq, hcloses.null, hcloses.size, rfl,
      transcript_still respond_closed⟩
    · rw [show said.2 = last.draft from hlast]
      exact insertAll_eq last
    · rw [show said.2 = last.draft from hlast]
      rfl

/-- Two keys of one hash, a value that is no equal of itself and two that
are equal without being the same. -/
theorem course_draft_twins_nan :
    let nan : Float := 0.0 / 0.0
    (∃ kept closed ended,
        (empty : HashMap Nat Float).editAll [(1, .insert 1 0.0),
            (2, .insert 18446744073709551617 nan), (3, .insert 1 (-0.0)),
            (4, .insert 18446744073709551617 nan), (5, .erase 1),
            (6, .insertNull nan), (7, .insertNull nan),
            (8, .insert 1 0.0), (9, .insert 1 (-0.0))] = .ok kept
          ∧ (transcript Draft.respond (empty : HashMap Nat Float).draft
              [(1, .edit (.insert 1 0.0)),
                (1, .edit (.insert 18446744073709551617 nan)),
                (1, .edit (.insert 1 (-0.0))),
                (1, .edit (.insert 18446744073709551617 nan)),
                (1, .edit (.erase 1)), (1, .edit (.insertNull nan)),
                (1, .edit (.insertNull nan)), (1, .edit (.insert 1 0.0)),
                (1, .edit (.insert 1 (-0.0)))]).2.close
            = .ok (closed, ended)
          ∧ Twins kept closed)
      ∧ (transcript Draft.respond (empty : HashMap Nat Float).draft
          [(1, .edit (.insert 1 0.0)), (1, .edit (.insert 1 (-0.0))),
            (1, .edit (.insert 18446744073709551617 nan)),
            (1, .edit (.insertNull nan)), (1, .size), (1, .edit (.erase 1)),
            (1, .get? 1), (1, .contains 18446744073709551617)]).1
        = [.ok (.value none), .ok (.value (some 0.0)), .ok (.value none),
            .ok (.value none), .ok (.count 3), .ok (.value (some (-0.0))),
            .ok (.value none), .ok (.flag true)] := by
  intro nan
  obtain ⟨map, hmap, htwins, hcalls, -⟩ :=
    course_draft_twins (κ := Nat) (ν := Float) .empty
  cases hmap
  exact ⟨htwins [⟨.insert 1 0.0, 1, 1⟩,
      ⟨.insert 18446744073709551617 nan, 2, 1⟩, ⟨.insert 1 (-0.0), 3, 1⟩,
      ⟨.insert 18446744073709551617 nan, 4, 1⟩, ⟨.erase 1, 5, 1⟩,
      ⟨.insertNull nan, 6, 1⟩, ⟨.insertNull nan, 7, 1⟩,
      ⟨.insert 1 0.0, 8, 1⟩, ⟨.insert 1 (-0.0), 9, 1⟩],
    (hcalls _).1⟩

end PersistentCollections.HashMap
