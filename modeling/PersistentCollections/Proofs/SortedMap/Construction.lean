/-
Three ways to build a sorted map from the same pairs.

A map is collected from pairs or read from a listing of them, and then
every pair is stored whatever is there. Or the pairs are inserted one by
one, and then a value that is equal to the stored one leaves the map as
it is, its tree included. The trees may differ in shape; the entries are
twins (`folded_twins`): they have the very same keys in the same places,
and the values are the same, or the kept one is equal to the one that
came last. Nothing is asked of the equality of values for it.
-/
import Mathlib.Data.List.Induction
import PersistentCollections.Proofs.HashMap.Twins
import PersistentCollections.Proofs.SortedMap.Reachable

namespace PersistentCollections.SortedMap

open HashMap (Agree Twin)

variable {κ ν : Type} {cmp : κ → κ → Ordering} {key : κ} {value : ν}

/-- What pairs that are stored in order leave under a key: the key of
the first pair that the comparison takes for it, and the value of the
last one. -/
def firstAndLast (cmp : κ → κ → Ordering) (key : κ)
    (pairs : List (κ × ν)) : Option (κ × ν) :=
  (pairs.find? (hasKey cmp key)).bind fun first =>
    (pairs.reverse.find? (hasKey cmp key)).map fun last => (first.1, last.2)

/-- Pairs of which the first one is found have a last one. -/
theorem findLast_isSome (cmp : κ → κ → Ordering) (key : κ)
    (pairs : List (κ × ν)) :
    (pairs.reverse.find? (hasKey cmp key)).isSome
      = (pairs.find? (hasKey cmp key)).isSome := by
  rw [Bool.eq_iff_iff, List.find?_isSome, List.find?_isSome]
  simp only [List.mem_reverse]

/-- One more pair brings its value, and its key if there was none. -/
theorem firstAndLast_concat (pairs : List (κ × ν)) (x : κ × ν) :
    firstAndLast cmp key (pairs ++ [x])
      = if hasKey cmp key x then
          some (((firstAndLast cmp key pairs).map (·.1)).getD x.1, x.2)
        else firstAndLast cmp key pairs := by
  have hlast := findLast_isSome cmp key pairs
  unfold firstAndLast
  rw [List.find?_append, List.reverse_concat, List.find?_singleton,
    List.find?_cons]
  cases hkey : hasKey cmp key x with
  | false =>
      rw [if_neg Bool.false_ne_true, Option.or_none,
        if_neg Bool.false_ne_true]
  | true =>
      cases hfirst : pairs.find? (hasKey cmp key) with
      | none => rfl
      | some first =>
          rw [hfirst] at hlast
          obtain ⟨last, hfound⟩ := Option.isSome_iff_exists.mp hlast
          rw [hfound]
          rfl

/-- Storing pairs in order leaves the first keys and the last values. -/
theorem find?_stored [Std.TransCmp cmp] (pairs : List (κ × ν)) (key : κ) :
    Ordered cmp (pairs.foldl (fun entries x => store cmp x.1 x.2 entries) [])
      ∧ (pairs.foldl (fun entries x => store cmp x.1 x.2 entries) []).find?
          (hasKey cmp key)
        = firstAndLast cmp key pairs := by
  induction pairs using List.reverseRecOn with
  | nil => exact ⟨List.Pairwise.nil, rfl⟩
  | append_singleton pairs x ih =>
      obtain ⟨hordered, hfound⟩ := ih
      rw [List.foldl_concat]
      refine ⟨ordered_store hordered, ?_⟩
      rw [hordered.find?_store, firstAndLast_concat, hfound]

-- ================================================================= twins

section

variable [BEq ν] {l r : List (κ × ν)}

theorem store_twins (h : List.Forall₂ Twin l r) (key : κ) (value : ν) :
    List.Forall₂ Twin (store cmp key value l) (store cmp key value r) := by
  induction h with
  | nil => exact HashMap.twins_refl _
  | @cons x y l r hxy hrest ih =>
      rw [store, store, ← hxy.1]
      cases cmp key x.1 with
      | lt => exact .cons ⟨rfl, .inl rfl⟩ (.cons hxy hrest)
      | eq => exact .cons ⟨rfl, .inl rfl⟩ hrest
      | gt => exact .cons hxy ih

theorem keys_twins (h : List.Forall₂ Twin l r) :
    l.map Prod.fst = r.map Prod.fst := by
  induction h with
  | nil => rfl
  | cons hxy _ ih => exact congrArg₂ List.cons hxy.1 ih

theorem find?_twins (h : List.Forall₂ Twin l r) (key : κ) :
    Option.Rel Twin (l.find? (hasKey cmp key))
      (r.find? (hasKey cmp key)) := by
  induction h with
  | nil => exact .none
  | @cons x y l r hxy _ ih =>
      have hkey : hasKey cmp key x = hasKey cmp key y := by
        unfold hasKey
        rw [hxy.1]
      rw [List.find?_cons, List.find?_cons, hkey]
      cases hasKey cmp key y with
      | true => exact .some hxy
      | false => exact ih

variable [Std.TransCmp cmp]

/-- A value that is kept agrees with the equal one that is stored. -/
theorem keep_twins (h : List.Forall₂ Twin l r) (hl : Ordered cmp l)
    {x : κ × ν} (hx : l.find? (hasKey cmp key) = some x)
    (hvalue : (x.2 == value) = true) :
    List.Forall₂ Twin l (store cmp key value r) := by
  induction h with
  | nil => cases hx
  | @cons y z l r hyz hrest ih =>
      rw [store, ← hyz.1]
      cases hcmp : cmp key y.1 with
      | lt =>
          -- the key is before all that are there, so none was found
          rw [hl.find?_before hcmp Std.ReflCmp.compare_self] at hx
          cases hx
      | eq =>
          have hfirst : hasKey cmp key y = true := beq_iff_eq.mpr hcmp
          rw [List.find?_cons, hfirst] at hx
          cases hx
          exact .cons ⟨rfl, .inr hvalue⟩ hrest
      | gt =>
          have hfirst : hasKey cmp key y = false := by simp [hasKey, hcmp]
          rw [List.find?_cons, hfirst] at hx
          exact .cons hyz (ih (List.pairwise_cons.mp hl).2 hx)

/-- Inserting on one side and storing on the other keeps twins. -/
theorem storeNew_twins (h : List.Forall₂ Twin l r) (hl : Ordered cmp l)
    (key : κ) (value : ν) :
    List.Forall₂ Twin (storeNew cmp key value l) (store cmp key value r) := by
  unfold storeNew
  cases hfound : l.find? (hasKey cmp key) with
  | none => exact store_twins h key value
  | some stored =>
      show List.Forall₂ Twin (if stored.2 == value then _ else _) _
      by_cases hequal : (stored.2 == value) = true
      · rw [if_pos hequal]
        exact keep_twins h hl hfound hequal
      · rw [if_neg hequal]
        exact store_twins h key value

end

-- ========================================================= constructions

variable [BEq ν]

/-- The map of pairs that are inserted one by one, each with its
stamp. -/
def insertAll (cmp : κ → κ → Ordering)
    (steps : List (Stamp × κ × ν)) : SortedMap κ ν cmp :=
  steps.foldl (fun map (stamp, key, value) => map.insert stamp key value)
    empty

variable [Std.TransCmp cmp]

/-- Inserting keeps a map in step with another one where the same is
stored. -/
theorem foldl_twins (steps : List (Stamp × κ × ν))
    {map : SortedMap κ ν cmp} (h : Sound map) {entries : List (κ × ν)}
    (htwins : List.Forall₂ Twin map.entries entries) :
    let after := steps.foldl (fun map (stamp, key, value) =>
      map.insert stamp key value) map
    Sound after
      ∧ List.Forall₂ Twin after.entries
          ((steps.map Prod.snd).foldl
            (fun entries x => store cmp x.1 x.2 entries) entries) := by
  induction steps generalizing map entries with
  | nil => exact ⟨h, htwins⟩
  | cons step steps ih =>
      obtain ⟨stamp, key, value⟩ := step
      obtain ⟨hsound, hentries⟩ := insert_spec h stamp key value
      refine ih hsound ?_
      rw [hentries]
      exact storeNew_twins htwins h.ordered key value

/-- The entries of pairs that are inserted and those of pairs that are
collected are twins. -/
theorem folded_twins (steps : List (Stamp × κ × ν)) (stamp : Stamp) :
    Sound (insertAll cmp steps)
      ∧ List.Forall₂ Twin (insertAll cmp steps).entries
          (ofList stamp (steps.map Prod.snd) :
            SortedMap κ ν cmp).entries := by
  rw [(ofList_spec stamp (steps.map Prod.snd)).2]
  exact foldl_twins steps sound_empty .nil

/-- Maps that are built from the same pairs: collected, read from a
listing, and inserted pair by pair. -/
structure BuiltAlike (pairs : List (κ × ν))
    (collected restored folded : SortedMap κ ν cmp) : Prop where
  /-- They have one size, -/
  size : restored.size = collected.size ∧ folded.size = collected.size
  /-- the number of their keys, -/
  counted : collected.size = collected.toList.length
  /-- which are the very same -/
  keys : restored.toList.map Prod.fst = collected.toList.map Prod.fst
    ∧ folded.toList.map Prod.fst = collected.toList.map Prod.fst
  /-- and increase. -/
  ordered : Ordered cmp collected.toList
  /-- Under every key the collected map has the key of the first pair and
  the value of the last one, -/
  collected : ∀ key, collected.stored? key = firstAndLast cmp key pairs
  /-- and so has the restored one. -/
  restored : ∀ key, restored.stored? key = firstAndLast cmp key pairs
  /-- The folded map has the key of the first pair, too, with the value of
  the last one or one that is equal to it. -/
  folded : ∀ key,
    Option.Rel Twin (folded.stored? key) (firstAndLast cmp key pairs)

/-- Whatever the order of the pairs and the keys that recur in them, the
three ways to build a map of them agree. -/
theorem constructions_agree (steps : List (Stamp × κ × ν))
    (stamp stamp' : Stamp) (announced : Nat) :
    let pairs := steps.map Prod.snd
    BuiltAlike pairs (ofList stamp pairs : SortedMap κ ν cmp)
      (ofListing stamp' ⟨announced, pairs⟩) (insertAll cmp steps) := by
  intro pairs
  obtain ⟨hcollected, hentries⟩ :=
    @ofList_spec κ ν cmp _ stamp pairs
  obtain ⟨hrestored, hentries'⟩ :=
    @ofList_spec κ ν cmp _ stamp' pairs
  obtain ⟨hfolded, htwins⟩ := @folded_twins κ ν cmp _ _ steps stamp
  have hstored : ∀ key, (ofList stamp pairs : SortedMap κ ν cmp).stored? key
      = firstAndLast cmp key pairs := by
    intro key
    rw [stored?_eq hcollected, hentries]
    exact (find?_stored pairs key).2
  constructor
  case size =>
      constructor
      · show (ofList stamp' pairs : SortedMap κ ν cmp).size = _
        rw [hrestored.size_eq, hcollected.size_eq, hentries, hentries']
      · rw [hfolded.size_eq, hcollected.size_eq]
        exact htwins.length_eq
  case counted =>
      rw [toList_eq hcollected]
      exact hcollected.size_eq
  case keys =>
      rw [toList_eq hcollected, toList_eq hfolded]
      refine ⟨?_, keys_twins htwins⟩
      show (ofList stamp' pairs : SortedMap κ ν cmp).toList.map _ = _
      rw [toList_eq hrestored, hentries, hentries']
  case ordered =>
      rw [toList_eq hcollected]
      exact hcollected.ordered
  case collected => exact hstored
  case restored =>
      intro key
      rw [← hstored key, stored?_eq hcollected, hentries, ← hentries']
      exact stored?_eq hrestored
  case folded =>
      intro key
      rw [← hstored key, stored?_eq hcollected, stored?_eq hfolded]
      exact find?_twins htwins key

/-- An order of the last digit alone, and values that count as equal by
their first parts, unless these are 0. Of 14 and 24 the first one stays,
and so does its value where pairs are inserted; 12 brings a value to 2
that is not even equal to itself. -/
theorem constructions_agree_mod :
    letI : BEq (Nat × Nat) := ⟨fun v w => v.1 != 0 && v.1 == w.1⟩
    let pairs : List (Nat × Nat × Nat) :=
      [(14, 1, 0), (2, 0, 0), (24, 1, 1), (12, 0, 5)]
    let steps : List (Stamp × Nat × Nat × Nat) := [1, 2, 3, 4].zip pairs
    ∃ collected restored folded :
        SortedMap Nat (Nat × Nat) (compareOn (· % 10)),
      collected = .ofList 0 pairs ∧ restored = .ofListing 0 ⟨9, pairs⟩
        ∧ folded = insertAll (compareOn (· % 10)) steps
        ∧ BuiltAlike pairs collected restored folded
        ∧ restored.toList = [(2, 0, 5), (14, 1, 1)]
        ∧ folded.toList = [(2, 0, 5), (14, 1, 0)] := by
  let beq : BEq (Nat × Nat) := ⟨fun v w => v.1 != 0 && v.1 == w.1⟩
  refine ⟨_, _, _, rfl, rfl, rfl, constructions_agree
    [(1, 14, 1, 0), (2, 2, 0, 0), (3, 24, 1, 1), (4, 12, 0, 5)] 0 0 9,
    ?_, ?_⟩
  all_goals decide

end PersistentCollections.SortedMap
