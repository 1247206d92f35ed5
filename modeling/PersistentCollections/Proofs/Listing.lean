/-
What a serial format hands back of a collection.

A collection gives a format its items in order, under their number. A
format carries listings if it hands back the items it was given, as long
as the number was announced rightly; what number comes back is left open,
since a reader of a collection does not need it (`Format.Carries`). The
shape of a tree is not carried. A sequence is restored by appending its
elements, and a sorted map by storing its entries, which need not come
in the order of the map that is built: as long as no two keys are equal
in that order, each entry is a new one (`storeAll_perm`), and none is
lost or taken for another.
-/
import PersistentCollections.Proofs.Sequence.Reachable
import PersistentCollections.Proofs.Sequence.Walk
import PersistentCollections.Proofs.SortedMap.Reachable

namespace PersistentCollections

-- =============================================================== formats

/-- A serial format for items of one type. -/
structure Format (α : Type) where
  /-- What is written. -/
  Document : Type
  /-- Writes the items of a listing. -/
  write : Listing α → Document
  /-- Reads a document, unless it is malformed. -/
  read : Document → Option (Listing α)

namespace Format

variable {α : Type}

/-- The format hands back the items of each listing that announces as
many as it has. -/
def Carries (format : Format α) : Prop :=
  ∀ sent : Listing α, sent.announced = sent.items.length →
    ∃ received, format.read (format.write sent) = some received
      ∧ received.items = sent.items

/-- What is sent is received, and is then as said. -/
def Delivers (format : Format α) (sent : Listing α)
    (P : Listing α → Prop) : Prop :=
  ∃ received, format.read (format.write sent) = some received
    ∧ P received

/-- The format that puts the announced number before the items, and
takes as many items as were announced. -/
def prefixed : Format α where
  Document := Nat × List α
  write listing := (listing.announced, listing.items)
  read document :=
    if document.1 ≤ document.2.length then
      some ⟨document.1, document.2.take document.1⟩
    else
      none

theorem prefixed_carries : (prefixed : Format α).Carries := by
  intro sent hannounced
  have hle : sent.announced ≤ sent.items.length := Nat.le_of_eq hannounced
  refine ⟨⟨sent.announced, sent.items.take sent.announced⟩,
    if_pos hle, ?_⟩
  show sent.items.take sent.announced = sent.items
  rw [hannounced, List.take_length]

theorem Carries.delivers {format : Format α} (h : format.Carries)
    {sent : Listing α} (hannounced : sent.announced = sent.items.length)
    {P : Listing α → Prop}
    (hP : ∀ received : Listing α, received.items = sent.items → P received) :
    format.Delivers sent P := by
  obtain ⟨received, hreceived, hitems⟩ := h sent hannounced
  exact ⟨received, hreceived, hP received hitems⟩

end Format

-- ============================================================= sequences

namespace Sequence

variable {α : Type} {seq : Sequence α}

/-- A sequence announces as many elements as it lists. -/
theorem listing_eq (h : Sound seq) :
    seq.listing = ⟨seq.contents.length, seq.contents⟩ := by
  unfold listing
  rw [toList_eq h, h.contents_eq, h.length_items]

/-- A sequence is restored from its elements, one after the other. -/
theorem ofListing_spec (h : Sound seq) {listing : Listing α}
    (hitems : listing.items = seq.contents) :
    Completes (ofListing listing) (crowd < seq.length) fun restored =>
      Reachable restored ∧ restored.contents = seq.contents := by
  have hbuilds := ofList_spec listing.items
  rw [hitems, h.contents_eq, h.length_items] at hbuilds
  rw [ofListing, hitems, h.contents_eq]
  cases hbuilds with
  | result answer_eq holds =>
      refine .result answer_eq ⟨.ofList answer_eq, ?_⟩
      rw [holds.1.contents_eq, holds.2]
  | overflow answer_eq crowded => exact .overflow answer_eq crowded

end Sequence

-- =========================================================== sorted maps

namespace SortedMap

variable {κ ν : Type} {cmp natural : κ → κ → Ordering}
  {map : SortedMap κ ν cmp} {key : κ} {value : ν}

/-- A map announces as many entries as it lists. -/
theorem length_toList (h : Sound map) : map.toList.length = map.size := by
  rw [toList_eq h, h.size_eq]

/-- An entry of a new key is put between the others. -/
theorem store_perm {entries : List (κ × ν)}
    (hnew : ∀ x ∈ entries, cmp key x.1 ≠ .eq) :
    (store cmp key value entries).Perm ((key, value) :: entries) := by
  induction entries with
  | nil => exact .refl _
  | cons x entries ih =>
      have hrest := ih fun y hy => hnew y (List.mem_cons_of_mem _ hy)
      unfold store
      cases hkey : cmp key x.1 with
      | lt => exact .refl _
      | eq => exact (hnew x List.mem_cons_self hkey).elim
      | gt => exact (hrest.cons x).trans (.swap _ _ _)

/-- Entries of different keys are all kept, in whatever order they
come. -/
theorem storeAll_perm [Std.TransCmp natural] :
    ∀ {values entries : List (κ × ν)},
      (entries ++ values).Pairwise (fun x y => natural x.1 y.1 ≠ .eq) →
      (values.foldl (fun entries x => store natural x.1 x.2 entries)
          entries).Perm (entries ++ values) := by
  intro values
  induction values with
  | nil =>
      intro entries _
      rw [List.append_nil]
      exact .refl _
  | cons x values ih =>
      intro entries hdistinct
      have hsymm : ∀ {x y : κ × ν}, natural x.1 y.1 ≠ .eq →
          natural y.1 x.1 ≠ .eq :=
        fun hne heq => hne (Std.OrientedCmp.eq_symm heq)
      have hnew : ∀ y ∈ entries, natural x.1 y.1 ≠ .eq := fun y hy =>
        hsymm ((List.pairwise_append.mp hdistinct).2.2 y hy x
          List.mem_cons_self)
      have hstored : (store natural x.1 x.2 entries ++ values).Perm
          (entries ++ x :: values) :=
        ((store_perm hnew).append_right values).trans List.perm_middle.symm
      rw [List.foldl_cons]
      exact (ih (hdistinct.perm hstored.symm hsymm)).trans hstored

variable [Std.TransCmp natural]

/-- A map is restored in an order that tells its keys apart. -/
theorem ofListing_spec (h : Sound map)
    (hcoarse : ∀ k k', natural k k' = .eq → cmp k k' = .eq)
    (stamp : Stamp) {listing : Listing (κ × ν)}
    (hitems : listing.items = map.toList) :
    let restored : SortedMap κ ν natural := ofListing stamp listing
    restored.toList.Perm map.toList ∧ restored.size = map.size
      ∧ Ordered natural restored.toList := by
  intro restored
  obtain ⟨hsound, hentries⟩ :
      Sound restored ∧ restored.entries = listing.items.foldl
        (fun entries x => store natural x.1 x.2 entries) [] :=
    ofList_spec stamp listing.items
  have hdistinct : map.toList.Pairwise fun x y =>
      natural x.1 y.1 ≠ .eq := by
    rw [toList_eq h]
    refine h.ordered.imp fun hlt heq => ?_
    rw [hcoarse _ _ heq] at hlt
    cases hlt
  have hrestored : restored.toList = restored.entries := toList_eq hsound
  have hperm : restored.toList.Perm map.toList := by
    rw [hrestored, hentries, hitems]
    exact storeAll_perm hdistinct
  refine ⟨hperm, ?_, ?_⟩
  · rw [← length_toList h, ← hperm.length_eq, length_toList hsound]
  · rw [hrestored]
    exact hsound.ordered

/-- Entries in strict order stand in no other order. -/
theorem Ordered.eq_of_perm [Std.OrientedCmp cmp] {left right : List (κ × ν)}
    (hl : Ordered cmp left) (hr : Ordered cmp right)
    (hperm : left.Perm right) : left = right := by
  apply hperm.eq_of_pairwise ?_ hl hr
  intro x y _ _ hxy hyx
  have hgt := Std.OrientedCmp.gt_of_lt hxy
  rw [hyx] at hgt
  cases hgt

end SortedMap

-- ======================================================== all collections

variable {α κ ν : Type} [BEq ν] {natural : κ → κ → Ordering}
  [Std.TransCmp natural] {format : Format α} {entryFormat : Format (κ × ν)}

end PersistentCollections
