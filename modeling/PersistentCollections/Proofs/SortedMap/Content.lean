/-
The content of a sorted map, and what edits and slices do to it.

A map is sound when its tree is red-black with a black root, its entries
stand in strict order, and its size counts them. Every operation keeps
this, and its entries are those of the map it reads, stored into,
filtered, or folded over in the same way. Nothing in an operation can
fail: the one edit that asks a tree for its shape, the erasure, finds
the shape it asks for. The count alone (`Counted`) is kept whatever the
comparison answers.
-/
import PersistentCollections.Proofs.SortedMap.Build
import PersistentCollections.Proofs.SortedMap.Range
import PersistentCollections.SortedMap.Basic
import PersistentCollections.SortedMap.Basic

namespace PersistentCollections

namespace SortedMap

open SortedMap.Tree (Balanced)

variable {κ ν : Type} {cmp : κ → κ → Ordering}
  {map left right : SortedMap κ ν cmp} {key : κ} {value : ν}
  {stamp : Stamp}

/-- The entries of a map in order. -/
def entries (map : SortedMap κ ν cmp) : List (κ × ν) := map.tree.entries

/-- A map as the edits build it. -/
structure Sound (map : SortedMap κ ν cmp) : Prop where
  balanced : ∃ n, Balanced .black n map.tree
  ordered : Ordered cmp map.entries
  size_eq : map.size = map.entries.length

-- ================================================================= sizes

/-- The size counts the entries. -/
def Counted (map : SortedMap κ ν cmp) : Prop :=
  map.size = map.entries.length

/-- The entries that a walk collects. -/
theorem Counted.toList_eq (h : Counted map) : map.toList = map.entries :=
  Steps.toList_eq Walk.both_ends.follows (Walk.start_pends h)
    (Nat.le_of_eq h.symm)

-- The edits and the slices keep the count, and the comparison need have
-- no laws for it: each of them counts what it does to the tree.

theorem counted_ofSorted (stamp : Stamp) (entries : List (κ × ν)) :
    Counted (ofSorted stamp entries : SortedMap κ ν cmp) := by
  show entries.length = (Tree.ofSorted entries).entries.length
  rw [Tree.entries_ofSorted]

theorem counted_put (h : Counted map) (stamp : Stamp) (key : κ)
    (value : ν) : Counted (map.put stamp key value) := by
  show map.size + _ = (Tree.blackened _).entries.length
  rw [Tree.entries_blackened, Tree.length_insert, h]
  rfl

theorem counted_insert [BEq ν] (h : Counted map) (stamp : Stamp)
    (key : κ) (value : ν) : Counted (map.insert stamp key value) := by
  have hput := counted_put h stamp key value
  unfold insert
  split
  · split
    · exact h
    · exact hput
  · exact hput

theorem counted_ofList (stamp : Stamp) (values : List (κ × ν)) :
    Counted (ofList stamp values : SortedMap κ ν cmp) :=
  List.foldlRecOn values _ rfl fun _ h x _ => counted_put h stamp x.1 x.2

theorem counted_merge [BEq ν] (h : Counted left) (stamp : Stamp)
    (right : SortedMap κ ν cmp) : Counted (left.merge stamp right) :=
  List.foldlRecOn right.toList _ h fun _ h x _ =>
    counted_insert h stamp x.1 x.2

theorem counted_erase {rest : SortedMap κ ν cmp} (h : Counted map)
    (herase : map.erase stamp key = .ok rest) : Counted rest := by
  unfold erase at herase
  split at herase
  case isTrue hstored =>
      cases hrest : map.tree.erase? cmp key with
      | none =>
          rw [hrest] at herase
          cases herase
      | some tree =>
          rw [hrest] at herase
          cases herase
          have hlen := Tree.length_erase? _ hrest
          have hfound : (map.tree.find? cmp key).isSome = true := hstored
          rw [hfound] at hlen
          show map.size - 1 = (Tree.blackened _).entries.length
          rw [Tree.entries_blackened, h]
          exact Nat.sub_eq_of_eq_add hlen
  case isFalse =>
      cases herase
      exact h

theorem counted_restrict (h : Counted map) (stamp : Stamp)
    (lower upper : Bound κ) :
    Counted (map.restrict stamp lower upper) := by
  unfold restrict
  dsimp only
  split
  · exact h
  · exact counted_ofSorted _ _

/-- A slice that tests its bounds against the outermost keys, before it
asks the entries one by one. -/
theorem counted_tested (h : Counted map) (stamp : Stamp)
    (lower upper : Bound κ) (inside outside : Prop) [Decidable inside]
    [Decidable outside] :
    Counted (if inside then map else if outside then empty
      else map.restrict stamp lower upper) := by
  by_cases hinside : inside
  · rw [if_pos hinside]
    exact h
  rw [if_neg hinside]
  by_cases houtside : outside
  · rw [if_pos houtside]
    rfl
  · rw [if_neg houtside]
    exact counted_restrict h stamp lower upper

theorem counted_segment (h : Counted map) (stamp : Stamp)
    (first stop : κ) : Counted (map.segment stamp first stop) := by
  unfold segment
  split
  · rfl
  split
  · exact counted_tested h stamp _ _ _ _
  · exact h

theorem counted_dropBefore (h : Counted map) (stamp : Stamp)
    (first : κ) : Counted (map.dropBefore stamp first) := by
  unfold dropBefore
  split
  · exact counted_tested h stamp _ _ _ _
  · exact h

theorem counted_takeBefore (h : Counted map) (stamp : Stamp)
    (stop : κ) : Counted (map.takeBefore stamp stop) := by
  unfold takeBefore
  split
  · exact counted_tested h stamp _ _ _ _
  · exact h

-- ========================================================== constructors

theorem sound_empty : Sound (empty : SortedMap κ ν cmp) where
  balanced := ⟨_, .leaf⟩
  ordered := List.Pairwise.nil
  size_eq := rfl

theorem sound_singleton : Sound (singleton stamp key value
    : SortedMap κ ν cmp) where
  balanced := ⟨_, .black .leaf .leaf⟩
  ordered := List.pairwise_singleton _ _
  size_eq := rfl

theorem sound_ofSorted {entries : List (κ × ν)}
    (h : Ordered cmp entries) :
    Sound (ofSorted stamp entries : SortedMap κ ν cmp) where
  balanced := Tree.balanced_ofSorted entries
  ordered := by
    show Ordered cmp (Tree.ofSorted entries).entries
    rwa [Tree.entries_ofSorted]
  size_eq := counted_ofSorted stamp entries

-- ================================================================= reads

theorem toList_eq (h : Sound map) : map.toList = map.entries :=
  Counted.toList_eq h.size_eq

-- ========================================================= runs of edits

/-- Edits one after the other, if each of them does to the entries what
is said. -/
theorem foldl_spec {α : Type}
    {edit : SortedMap κ ν cmp → α → SortedMap κ ν cmp}
    {change : List (κ × ν) → α → List (κ × ν)}
    (hedit : ∀ {map} x, Sound map →
      Sound (edit map x) ∧ (edit map x).entries = change map.entries x)
    (values : List α) (h : Sound map) :
    Sound (values.foldl edit map)
      ∧ (values.foldl edit map).entries
        = values.foldl change map.entries := by
  induction values generalizing map with
  | nil => exact ⟨h, rfl⟩
  | cons x values ih =>
      obtain ⟨hsound, hentries⟩ := hedit x h
      rw [List.foldl_cons, List.foldl_cons, ← hentries]
      exact ih hsound

-- ================================================================ bounds

/-- A slice of the whole map is the map. -/
theorem within_all {lower upper : Bound κ} (h : Sound map)
    (hlower : ∀ x ∈ map.entries, lower.admitsFrom cmp x.1 = true)
    (hupper : ∀ x ∈ map.entries, upper.admitsUpTo cmp x.1 = true) :
    Sound map ∧ map.entries = within cmp lower upper map.entries := by
  refine ⟨h, (List.filter_eq_self.mpr fun x hx => ?_).symm⟩
  rw [hlower x hx, hupper x hx]
  rfl

/-- A slice of nothing is the empty map. -/
theorem within_none {lower upper : Bound κ}
    (hnone : ∀ x ∈ map.entries, lower.admitsFrom cmp x.1 = true →
      upper.admitsUpTo cmp x.1 = true → False) :
    Sound (empty : SortedMap κ ν cmp)
      ∧ (empty : SortedMap κ ν cmp).entries
        = within cmp lower upper map.entries := by
  refine ⟨sound_empty, (List.filter_eq_nil_iff.mpr fun x hx hin => ?_).symm⟩
  rw [Bool.and_eq_true] at hin
  exact hnone x hx hin.1 hin.2

/-- A map without a first or a last entry has nothing to leave out. -/
theorem within_empty {lower upper : Bound κ} (h : Sound map)
    (hnone : ∀ least v greatest w, map.entries.head? = some (least, v) →
      map.entries.getLast? = some (greatest, w) → False) :
    Sound map ∧ map.entries = within cmp lower upper map.entries := by
  have hnil : map.entries = [] := by
    cases hfirst : map.entries.head? with
    | none => exact List.head?_eq_none_iff.mp hfirst
    | some first =>
        cases hlast : map.entries.getLast? with
        | none => exact List.getLast?_eq_none_iff.mp hlast
        | some last => exact (hnone _ _ _ _ hfirst hlast).elim
  refine ⟨h, ?_⟩
  rw [hnil]
  rfl

variable [Std.TransCmp cmp] {entries : List (κ × ν)} {x : κ × ν}
  {first stop : κ}

theorem from_all (h : Ordered cmp entries) (hleast : entries.head? = some x)
    (hle : (cmp first x.1).isLE) :
    ∀ y ∈ entries, (Bound.included first).admitsFrom cmp y.1 = true := by
  intro y hy
  have hy := Std.TransCmp.isLE_trans hle (Range.first_isLE h hleast y hy)
  have hge := Ordering.isGE_iff_ne_lt.mp (Std.OrientedCmp.isGE_of_isLE hy)
  simpa [Bound.admitsFrom] using hge

theorem from_none (h : Ordered cmp entries)
    (hgreatest : entries.getLast? = some x) (hgt : cmp first x.1 = .gt) :
    ∀ y ∈ entries, (Bound.included first).admitsFrom cmp y.1 = false := by
  intro y hy
  have hlt := Std.TransCmp.lt_of_isLE_of_lt
    (Range.isLE_last h hgreatest y hy) (Std.OrientedCmp.lt_of_gt hgt)
  simp [Bound.admitsFrom, hlt]

theorem upTo_all (h : Ordered cmp entries)
    (hgreatest : entries.getLast? = some x) (hgt : cmp stop x.1 = .gt) :
    ∀ y ∈ entries, (Bound.excluded stop).admitsUpTo cmp y.1 = true := by
  intro y hy
  have hlt := Std.TransCmp.lt_of_isLE_of_lt
    (Range.isLE_last h hgreatest y hy) (Std.OrientedCmp.lt_of_gt hgt)
  simp [Bound.admitsUpTo, hlt]

theorem upTo_none (h : Ordered cmp entries)
    (hleast : entries.head? = some x) (hle : (cmp stop x.1).isLE) :
    ∀ y ∈ entries, (Bound.excluded stop).admitsUpTo cmp y.1 = false := by
  intro y hy
  have hy := Std.TransCmp.isLE_trans hle (Range.first_isLE h hleast y hy)
  have hge := Ordering.isGE_iff_ne_lt.mp (Std.OrientedCmp.isGE_of_isLE hy)
  simpa [Bound.admitsUpTo] using hge

/-- Around a key there is an interval that is not inverted. -/
theorem lt_around (hfrom : cmp key first ≠ .lt) (hupTo : cmp key stop = .lt) :
    cmp first stop = .lt := by
  have hge := Ordering.isGE_iff_ne_lt.mpr hfrom
  exact Std.TransCmp.lt_of_isLE_of_lt (Std.OrientedCmp.isLE_of_isGE hge) hupTo

/-- The entries that a range collects. -/
theorem between_eq (h : Sound map) (lower upper : Bound κ) :
    map.between lower upper
      = map.entries.filter fun x =>
          lower.admitsFrom cmp x.1 && upper.admitsUpTo cmp x.1 := by
  refine Steps.toList_eq Range.both_ends.follows
    (Range.start_pends h.ordered lower upper) ?_
  rw [h.size_eq]
  exact List.length_filter_le _ _

theorem stored?_eq (h : Sound map) :
    map.stored? key = map.entries.find? (hasKey cmp key) :=
  Tree.find?_eq h.ordered

-- ================================================================= edits

/-- Storing a value. -/
theorem put_spec (h : Sound map) (stamp : Stamp) (key : κ) (value : ν) :
    Sound (map.put stamp key value)
      ∧ (map.put stamp key value).entries
        = store cmp key value map.entries := by
  obtain ⟨_, hbalanced⟩ := h.balanced
  have hentries : (map.put stamp key value).entries
      = store cmp key value map.entries :=
    (Tree.entries_blackened _).trans (Tree.entries_insert h.ordered)
  refine ⟨⟨?_, ?_, counted_put h.size_eq stamp key value⟩, hentries⟩
  · exact (Tree.insert_spec cmp key value hbalanced).1.blackened
  · rw [hentries]
    exact ordered_store h.ordered

/-- Entries with a value under a key; as they are if an equal value is
stored there. -/
def storeNew [BEq ν] (cmp : κ → κ → Ordering) (key : κ) (value : ν)
    (entries : List (κ × ν)) : List (κ × ν) :=
  match entries.find? (hasKey cmp key) with
  | some stored =>
    if stored.2 == value then entries else store cmp key value entries
  | none => store cmp key value entries

/-- Storing a value that is new. -/
theorem insert_spec [BEq ν] (h : Sound map) (stamp : Stamp) (key : κ)
    (value : ν) :
    Sound (map.insert stamp key value)
      ∧ (map.insert stamp key value).entries
        = storeNew cmp key value map.entries := by
  have hput := put_spec h stamp key value
  unfold insert storeNew
  rw [stored?_eq h]
  cases map.entries.find? (hasKey cmp key) with
  | none => exact hput
  | some stored =>
      cases hequal : stored.2 == value with
      | true => simpa [hequal] using h
      | false => simpa [hequal] using hput

theorem ofList_spec (stamp : Stamp) (values : List (κ × ν)) :
    Sound (ofList stamp values : SortedMap κ ν cmp)
      ∧ (ofList stamp values : SortedMap κ ν cmp).entries
        = values.foldl (fun entries x => store cmp x.1 x.2 entries) [] :=
  foldl_spec (fun x h => put_spec h stamp x.1 x.2) values sound_empty

theorem merge_spec [BEq ν] (hl : Sound left) (stamp : Stamp)
    (hr : Sound right) :
    Sound (left.merge stamp right)
      ∧ (left.merge stamp right).entries
        = right.entries.foldl
            (fun entries x => storeNew cmp x.1 x.2 entries)
            left.entries := by
  unfold merge
  rw [toList_eq hr]
  exact foldl_spec (fun x h => insert_spec h stamp x.1 x.2) right.entries hl

/-- Erasing goes through, and leaves the entries of other keys. -/
theorem erase_spec (h : Sound map) (stamp : Stamp) (key : κ) :
    ∃ rest, map.erase stamp key = .ok rest ∧ Sound rest
      ∧ rest.entries = map.entries.filter fun x => !hasKey cmp key x := by
  have hstored : map.stored? key = _ := stored?_eq h
  cases hfind : map.entries.find? (hasKey cmp key) with
  | none =>
      have herase : map.erase stamp key = .ok map := by
        unfold erase contains
        rw [hstored, hfind]
        rfl
      refine ⟨map, herase, h, ?_⟩
      refine (List.filter_eq_self.mpr fun x hx => ?_).symm
      simpa using List.find?_eq_none.mp hfind x hx
  | some stored =>
      obtain ⟨_, hbalanced⟩ := h.balanced
      obtain ⟨rest, n, hrest, hshape⟩ :=
        (Tree.erase?_spec cmp key hbalanced).blackened
      have hentries := (Tree.entries_blackened rest).trans
        (Tree.entries_erase? h.ordered hrest)
      have herase : map.erase stamp key
          = .ok ⟨rest.blackened, map.size - 1, stamp⟩ := by
        unfold erase contains
        rw [hstored, hfind, hrest]
        rfl
      refine ⟨_, herase, ⟨⟨n, hshape⟩, ?_, ?_⟩, hentries⟩
      · show Ordered cmp rest.blackened.entries
        rw [hentries]
        exact h.ordered.filter _
      · exact counted_erase h.size_eq herase

-- ================================================================ slices

theorem restrict_spec (h : Sound map) (stamp : Stamp)
    (lower upper : Bound κ) :
    Sound (map.restrict stamp lower upper)
      ∧ (map.restrict stamp lower upper).entries
        = within cmp lower upper map.entries := by
  unfold restrict
  simp only [between_eq h]
  split
  case isTrue hall =>
      rw [h.size_eq] at hall
      exact ⟨h, (List.filter_eq_self.mpr
        (List.length_filter_eq_length_iff.mp hall)).symm⟩
  case isFalse =>
      exact ⟨sound_ofSorted (h.ordered.filter _), Tree.entries_ofSorted _⟩

theorem dropBefore_spec (h : Sound map) (stamp : Stamp) (first : κ) :
    Sound (map.dropBefore stamp first)
      ∧ (map.dropBefore stamp first).entries
        = within cmp (.included first) .unbounded map.entries := by
  unfold dropBefore min? max?
  rw [Tree.min?_eq, Tree.max?_eq]
  split
  case h_1 hleast hgreatest =>
      split
      case isTrue hle =>
          have hle := Ordering.isLE_iff_ne_gt.mpr (bne_iff_ne.mp hle)
          exact within_all h (from_all h.ordered hleast hle) fun _ _ => rfl
      case isFalse =>
          split
          case isTrue hgt =>
              have hout := from_none h.ordered hgreatest (beq_iff_eq.mp hgt)
              apply within_none
              intro x hx hin _
              simp [hout x hx] at hin
          case isFalse => exact restrict_spec h stamp _ _
  case h_2 hnone =>
      exact within_empty h hnone

theorem takeBefore_spec (h : Sound map) (stamp : Stamp) (stop : κ) :
    Sound (map.takeBefore stamp stop)
      ∧ (map.takeBefore stamp stop).entries
        = within cmp .unbounded (.excluded stop) map.entries := by
  unfold takeBefore min? max?
  rw [Tree.min?_eq, Tree.max?_eq]
  split
  case h_1 hleast hgreatest =>
      split
      case isTrue hgt =>
          exact within_all h (fun _ _ => rfl)
            (upTo_all h.ordered hgreatest (beq_iff_eq.mp hgt))
      case isFalse =>
          split
          case isTrue hle =>
              have hle := Ordering.isLE_iff_ne_gt.mpr (bne_iff_ne.mp hle)
              have hout := upTo_none h.ordered hleast hle
              apply within_none
              intro x hx _ hin
              simp [hout x hx] at hin
          case isFalse => exact restrict_spec h stamp _ _
  case h_2 hnone => exact within_empty h hnone

theorem segment_spec (h : Sound map) (stamp : Stamp) (first stop : κ) :
    Sound (map.segment stamp first stop)
      ∧ (map.segment stamp first stop).entries
        = within cmp (.included first) (.excluded stop) map.entries := by
  unfold segment min? max?
  rw [Tree.min?_eq, Tree.max?_eq]
  split
  case isTrue hinverted =>
      apply within_none
      intro x _ hfrom hupTo
      simp only [Bound.admitsFrom, Bound.admitsUpTo, bne_iff_ne,
        beq_iff_eq] at hfrom hupTo hinverted
      exact hinverted (lt_around hfrom hupTo)
  case isFalse =>
      split
      case h_1 hleast hgreatest =>
          split
          case isTrue hwhole =>
              simp only [Bool.and_eq_true, bne_iff_ne, beq_iff_eq] at hwhole
              have hle := Ordering.isLE_iff_ne_gt.mpr hwhole.1
              exact within_all h (from_all h.ordered hleast hle)
                (upTo_all h.ordered hgreatest hwhole.2)
          case isFalse =>
              split
              case isTrue hout =>
                  simp only [Bool.or_eq_true, bne_iff_ne, beq_iff_eq]
                    at hout
                  apply within_none
                  intro x hx hfrom hupTo
                  rcases hout with hle | hgt
                  · have hle := Ordering.isLE_iff_ne_gt.mpr hle
                    simp [upTo_none h.ordered hleast hle x hx] at hupTo
                  · simp [from_none h.ordered hgreatest hgt x hx] at hfrom
              case isFalse => exact restrict_spec h stamp _ _
      case h_2 hnone => exact within_empty h hnone

end SortedMap

end PersistentCollections
