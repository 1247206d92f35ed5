/-
The hash maps that a program has at hand.

A program makes its maps one after the other, each by an edit with a
stamp that no map at hand has. Such an edit leaves in the root and in
the null slot what one of the maps had there, nothing, or an instance of
its own (`put_instance`, `take_instance`), so what it makes agrees with
all maps at hand (`Makes.agrees`). By induction over the program, maps
at hand that are one instance are equal in every respect
(`AtHand.eq_of_same`).
-/
import PersistentCollections.Proofs.HashMap.WellFormed
import PersistentCollections.Proofs.Stamped

namespace PersistentCollections.HashMap

variable {κ ν : Type} {map left right after : HashMap κ ν}
  {maps : List (HashMap κ ν)} {stamp : Stamp} {key : κ} {value : ν}

-- ================================================================ stamps

/-- A map whose trie and null slot have other stamps. -/
structure Lacks (map : HashMap κ ν) (stamp : Stamp) : Prop where
  root : Stamped.Lacks map.root stamp
  nullSlot : Stamped.Lacks map.nullSlot stamp

instance : Decidable (map.Lacks stamp) :=
  decidable_of_iff
    (Stamped.Lacks map.root stamp ∧ Stamped.Lacks map.nullSlot stamp)
    ⟨fun ⟨root, nullSlot⟩ => ⟨root, nullSlot⟩, fun h => ⟨h.root, h.nullSlot⟩⟩

/-- A stamp that none of some maps has. -/
def Unused (stamp : Stamp) (maps : List (HashMap κ ν)) : Prop :=
  ∀ map ∈ maps, map.Lacks stamp

instance : Decidable (Unused stamp maps) :=
  inferInstanceAs (Decidable (∀ map ∈ maps, map.Lacks stamp))

/-- A map that shares what has one stamp with each of some maps. -/
structure Agrees (map : HashMap κ ν) (maps : List (HashMap κ ν)) :
    Prop where
  root : Stamped.Agrees map.root (maps.map (·.root))
  nullSlot : Stamped.Agrees map.nullSlot (maps.map (·.nullSlot))

/-- Maps of which any two agree. -/
structure Coherent (maps : List (HashMap κ ν)) : Prop where
  root : Stamped.Coherent (maps.map (·.root))
  nullSlot : Stamped.Coherent (maps.map (·.nullSlot))

theorem Coherent.agrees (h : Coherent maps) (hmap : map ∈ maps) :
    Agrees map maps where
  root := h.root _ (List.mem_map_of_mem hmap)
  nullSlot := h.nullSlot _ (List.mem_map_of_mem hmap)

theorem Coherent.add (h : Coherent maps) (hafter : Agrees after maps) :
    Coherent (after :: maps) where
  root := h.root.add hafter.root
  nullSlot := h.nullSlot.add hafter.nullSlot

theorem agrees_empty : Agrees (empty : HashMap κ ν) maps where
  root := Stamped.agrees_none
  nullSlot := Stamped.agrees_none

theorem Unused.agrees_root (h : Unused stamp maps) (node : Node κ ν) :
    Stamped.Agrees (some ⟨stamp, node⟩) (maps.map (·.root)) := by
  apply Stamped.agrees_new
  intro place hplace
  obtain ⟨map, hmap, rfl⟩ := List.mem_map.mp hplace
  exact (h map hmap).root

theorem Unused.agrees_null (h : Unused stamp maps) (value : ν) :
    Stamped.Agrees (some ⟨stamp, value⟩) (maps.map (·.nullSlot)) := by
  apply Stamped.agrees_new
  intro place hplace
  obtain ⟨map, hmap, rfl⟩ := List.mem_map.mp hplace
  exact (h map hmap).nullSlot

-- ============================================================ what is new

/-- A map whose trie is new or gone agrees as the map before it did. -/
theorem Agrees.of_root (h : Agrees map maps) (hstamp : Unused stamp maps)
    (hroot : after.root = none ∨ ∃ node, after.root = some ⟨stamp, node⟩)
    (hnull : after.nullSlot = map.nullSlot) : Agrees after maps where
  root := by
    rcases hroot with hnone | ⟨node, hmade⟩
    · rw [hnone]
      exact Stamped.agrees_none
    · rw [hmade]
      exact hstamp.agrees_root node
  nullSlot := by
    rw [hnull]
    exact h.nullSlot

theorem Agrees.putNull (h : Agrees map maps) {slot : Stamped ν}
    (hslot : Stamped.Agrees (some slot) (maps.map (·.nullSlot))) :
    Agrees (map.putNull slot) maps where
  root := h.root
  nullSlot := hslot

theorem Agrees.eraseNull (h : Agrees map maps) :
    Agrees map.eraseNull maps := by
  unfold HashMap.eraseNull
  by_cases hnull : map.hasNull = true
  · rw [if_pos hnull]
    exact ⟨h.root, Stamped.agrees_none⟩
  · rw [if_neg hnull]
    exact h

theorem Agrees.insertNull [BEq ν] (h : Agrees map maps)
    (hstamp : Unused stamp maps) (value : ν) :
    Agrees (map.insertNull stamp value) maps := by
  unfold HashMap.insertNull
  by_cases hequal : (map.getNull? == some value) = true
  · rw [if_pos hequal]
    exact h
  · rw [if_neg hequal]
    exact h.putNull (hstamp.agrees_null value)

section

variable [BEq κ] [Hashable κ]

/-- Putting makes a trie and leaves the null slot. -/
theorem put_instance (map : HashMap κ ν) (stamp : Stamp) (key : κ)
    (value : ν) :
    Gives (map.put stamp key value) fun answer =>
      (∃ node, answer.2.root = some ⟨stamp, node⟩)
        ∧ answer.2.nullSlot = map.nullSlot := by
  unfold put
  exact Gives.after fun _ => Gives.ok ⟨⟨_, rfl⟩, rfl⟩

/-- Taking makes a trie or gives it up, and leaves the null slot. -/
theorem take_instance (map : HashMap κ ν) (stamp : Stamp) (key : κ) :
    Gives (map.take stamp key) fun answer =>
      (answer.2.root = none ∨ ∃ node, answer.2.root = some ⟨stamp, node⟩)
        ∧ answer.2.nullSlot = map.nullSlot := by
  unfold take
  refine Gives.after fun ⟨entry, root⟩ => Gives.ok ⟨?_, rfl⟩
  show (if root.isEmpty then none else some _) = none ∨ ∃ node,
    (if root.isEmpty then none else some _) = some _
  by_cases hempty : root.isEmpty = true
  · rw [if_pos hempty]
    exact .inl rfl
  · rw [if_neg hempty]
    exact .inr ⟨root, rfl⟩

theorem Agrees.put (h : Agrees map maps) (hstamp : Unused stamp maps)
    (key : κ) (value : ν) :
    Gives (map.put stamp key value) fun answer => Agrees answer.2 maps := by
  intro answer hput
  obtain ⟨hroot, hnull⟩ := put_instance map stamp key value _ hput
  exact h.of_root hstamp (.inr hroot) hnull

theorem Agrees.take (h : Agrees map maps) (hstamp : Unused stamp maps)
    (key : κ) :
    Gives (map.take stamp key) fun answer => Agrees answer.2 maps := by
  intro answer htake
  obtain ⟨hroot, hnull⟩ := take_instance map stamp key _ htake
  exact h.of_root hstamp hroot hnull

theorem Agrees.putAll (h : Agrees map maps) (hstamp : Unused stamp maps)
    (entries : List (κ × ν)) :
    Gives (map.putAll stamp entries) fun after => Agrees after maps := by
  refine Gives.foldlM (P := fun map => Agrees map maps) ?_ h
  intro x _ state hstate
  refine (hstate.put hstamp x.1 x.2).bind ?_
  exact fun _ hafter => Gives.ok hafter

theorem Agrees.erase (h : Agrees map maps) (hstamp : Unused stamp maps)
    (key : κ) :
    Gives (map.erase stamp key) fun after => Agrees after maps := by
  unfold HashMap.erase
  refine Gives.after fun found => ?_
  cases found with
  | none => exact Gives.ok h
  | some x =>
      refine (h.take hstamp key).bind ?_
      exact fun _ hafter => Gives.ok hafter

/-- An edit of a draft makes a map that agrees with the others. -/
theorem Agrees.draft_edit (h : Agrees map maps)
    (hstamp : Unused stamp maps) (edit : Draft.Edit κ ν) :
    Gives (map.draft.edit stamp edit) fun draft =>
      ∃ after : HashMap κ ν, draft = after.draft ∧ Agrees after maps := by
  cases edit with
  | insert key value =>
      refine Gives.map ((h.put hstamp key value).bind ?_)
      exact fun _ hafter => Gives.ok ⟨_, rfl, hafter⟩
  | insertAll entries =>
      refine (h.putAll hstamp entries).bind ?_
      exact fun _ hafter => Gives.ok ⟨_, rfl, hafter⟩
  | erase key =>
      have hopened : Gives map.draft.opened fun map => Agrees map maps :=
        Gives.ok h
      refine Gives.map (hopened.bind fun opened hagrees => ?_)
      refine Gives.after fun found => ?_
      cases found with
      | none => exact Gives.ok ⟨map, rfl, h⟩
      | some x =>
          refine (hagrees.take hstamp key).bind ?_
          exact fun _ hafter => Gives.ok ⟨_, rfl, hafter⟩
  | insertNull value =>
      exact Gives.ok ⟨_, rfl, h.putNull (hstamp.agrees_null value)⟩
  | eraseNull => exact Gives.ok ⟨_, rfl, h.eraseNull⟩

theorem Agrees.batch (h : Agrees map maps)
    {edits : List (Stamp × Draft.Edit κ ν)}
    (hstamps : ∀ x ∈ edits, Unused x.1 maps) :
    Gives (map.batch edits) fun after => Agrees after maps := by
  refine Gives.bind (Gives.foldlM (P := fun draft =>
    ∃ after : HashMap κ ν, draft = after.draft ∧ Agrees after maps)
    ?_ ⟨map, rfl, h⟩) ?_
  · rintro x hx _ ⟨after, rfl, hafter⟩
    exact hafter.draft_edit (hstamps x hx) x.2
  · rintro _ ⟨after, rfl, hafter⟩
    exact Gives.ok hafter

/-- A merger has a trie of its own or that of one of the two, and one
of their null slots. -/
theorem Agrees.merge (hl : Agrees left maps) (hr : Agrees right maps)
    (hstamp : Unused stamp maps) :
    Gives (left.merge stamp right) fun after => Agrees after maps := by
  unfold HashMap.merge
  by_cases hempty : left.isEmpty = true
  · rw [if_pos hempty]
    exact Gives.ok hr
  · rw [if_neg hempty]
    refine (hl.putAll hstamp right.toList).bind fun merged hmerged => ?_
    cases hslot : right.nullSlot with
    | none => exact Gives.ok hmerged
    | some slot =>
        refine Gives.ok (hmerged.putNull ?_)
        rw [← hslot]
        exact hr.nullSlot

theorem Records.root_eq_none [LawfulHashable κ] [EquivBEq κ]
    {ledger : Ledger κ ν} (h : Records map ledger) :
    map.root = none ↔ map.toList = [] := by
  rw [h.toList_eq]
  exact h.wellFormed.absent

/-- A map of no size is the map without entries. -/
theorem Records.eq_empty [LawfulHashable κ] [EquivBEq κ]
    {ledger : Ledger κ ν} (h : Records map ledger)
    (hempty : map.isEmpty = true) : map = empty := by
  have hsize : map.size = 0 := eq_of_beq hempty
  have hcount := h.wellFormed.counted
  rw [hsize] at hcount
  obtain ⟨hlisted, hnull⟩ := Nat.add_eq_zero_iff.mp hcount.symm
  have hroot := h.wellFormed.absent.mpr (List.length_eq_zero_iff.mp hlisted)
  obtain ⟨root, size, nullSlot⟩ := map
  cases hroot
  cases hsize
  cases nullSlot with
  | none => rfl
  | some slot => cases hnull

variable [BEq ν]

theorem Agrees.insert (h : Agrees map maps) (hstamp : Unused stamp maps)
    (key : κ) (value : ν) :
    Gives (map.insert stamp key value) fun after => Agrees after maps := by
  have hput : Gives (do return (← map.put stamp key value).2)
      fun after => Agrees after maps :=
    (h.put hstamp key value).bind fun _ hafter => Gives.ok hafter
  unfold HashMap.insert
  refine Gives.after fun found => ?_
  cases found with
  | none => exact hput
  | some x =>
      show Gives (if x.2 == value then _ else _) _
      by_cases hequal : (x.2 == value) = true
      · rw [if_pos hequal]
        exact Gives.ok h
      · rw [if_neg hequal]
        exact hput

theorem Agrees.edit (h : Agrees map maps) (hstamp : Unused stamp maps)
    (change : Edit κ ν) :
    Gives (map.edit stamp change) fun after => Agrees after maps := by
  cases change with
  | insert key value => exact h.insert hstamp key value
  | erase key => exact h.erase hstamp key
  | insertNull value => exact Gives.ok (h.insertNull hstamp value)
  | eraseNull => exact Gives.ok h.eraseNull
  | ofList entries => exact agrees_empty.putAll hstamp entries
  | alter key change =>
      refine Gives.after fun found => ?_
      cases found with
      | none =>
          cases change none with
          | none => exact Gives.ok h
          | some value => exact h.insert hstamp key value
      | some x =>
          dsimp only
          cases change (some x.2) with
          | none => exact h.erase hstamp key
          | some value => exact h.insert hstamp x.1 value

-- ============================================================== programs

/-- What a program with some maps at hand makes next, with stamps that
none of these maps has. -/
inductive Makes (maps : List (HashMap κ ν)) : HashMap κ ν → Prop where
  /-- The map without entries. -/
  | empty : Makes maps empty
  /-- An edit of a map. -/
  | edit {map after : HashMap κ ν} {stamp : Stamp} {change : Edit κ ν}
      (hmap : map ∈ maps) (hstamp : Unused stamp maps)
      (hedit : map.edit stamp change = .ok after) : Makes maps after
  /-- A draft of a map that is edited and closed. -/
  | batch {map after : HashMap κ ν}
      {edits : List (Stamp × Draft.Edit κ ν)} (hmap : map ∈ maps)
      (hstamps : ∀ x ∈ edits, Unused x.1 maps)
      (hbatch : map.batch edits = .ok after) : Makes maps after
  /-- The entries of two maps. -/
  | merge {left right after : HashMap κ ν} {stamp : Stamp}
      (hleft : left ∈ maps) (hright : right ∈ maps)
      (hstamp : Unused stamp maps)
      (hmerge : left.merge stamp right = .ok after) : Makes maps after

/-- The maps that a program has at hand at some time. -/
inductive AtHand : List (HashMap κ ν) → Prop where
  /-- The program starts. -/
  | start : AtHand []
  /-- The program makes a map. -/
  | make {maps : List (HashMap κ ν)} {after : HashMap κ ν} :
      AtHand maps → Makes maps after → AtHand (after :: maps)
  /-- The program lets go of some maps. -/
  | drop {maps rest : List (HashMap κ ν)} :
      AtHand maps → rest ⊆ maps → AtHand rest

/-- What is made agrees with the maps at hand. -/
theorem Makes.agrees (h : Makes maps after) (hmaps : Coherent maps) :
    Agrees after maps := by
  cases h with
  | empty => exact agrees_empty
  | edit hmap hstamp hedit =>
      exact (hmaps.agrees hmap).edit hstamp _ _ hedit
  | batch hmap hstamps hbatch =>
      exact (hmaps.agrees hmap).batch hstamps _ hbatch
  | merge hleft hright hstamp hmerge =>
      exact (hmaps.agrees hleft).merge (hmaps.agrees hright) hstamp _ hmerge

theorem AtHand.coherent (h : AtHand maps) : Coherent maps := by
  induction h with
  | start => exact ⟨nofun, nofun⟩
  | make _ hmake ih => exact ih.add (hmake.agrees ih)
  | drop _ hrest ih =>
      exact ⟨ih.root.of_subset (List.map_subset _ hrest),
        ih.nullSlot.of_subset (List.map_subset _ hrest)⟩

variable [LawfulHashable κ] [EquivBEq κ]

/-- What is made records a ledger if the maps at hand do. -/
theorem Makes.records (h : Makes maps after)
    (hmaps : ∀ map ∈ maps, ∃ ledger, Records map ledger) :
    ∃ ledger, Records after ledger := by
  cases h with
  | empty => exact ⟨_, records_empty⟩
  | edit hmap _ hedit =>
      obtain ⟨ledger, hledger⟩ := hmaps _ hmap
      exact ⟨_, Gives.of_exists (edit_spec hledger _ _) _ hedit⟩
  | batch hmap _ hbatch =>
      obtain ⟨ledger, hledger⟩ := hmaps _ hmap
      exact ⟨_, Gives.of_exists (batch_spec hledger _) _ hbatch⟩
  | merge hleft hright _ hmerge =>
      obtain ⟨l, hl⟩ := hmaps _ hleft
      obtain ⟨r, hr⟩ := hmaps _ hright
      exact ⟨_, Gives.of_exists (merge_spec hl _ hr) _ hmerge⟩

theorem AtHand.records (h : AtHand maps) :
    ∀ map ∈ maps, ∃ ledger, Records map ledger := by
  induction h with
  | start => exact nofun
  | make _ hmake ih =>
      intro map hmap
      rcases List.mem_cons.mp hmap with rfl | hmap
      · exact hmake.records ih
      · exact ih map hmap
  | drop _ hrest ih => exact fun map hmap => ih map (hrest hmap)

-- ============================================================= instances

/-- Maps at hand that are one instance are equal in every respect. -/
theorem AtHand.eq_of_same (h : AtHand maps) (hl : left ∈ maps)
    (hr : right ∈ maps) (hsame : left.same right = true) :
    left = right := by
  obtain ⟨hroots, hnulls⟩ := Bool.and_eq_true_iff.mp hsame
  have hagrees := h.coherent.agrees hl
  have hroot := hagrees.root _ (List.mem_map_of_mem hr) hroots
  have hnull := hagrees.nullSlot _ (List.mem_map_of_mem hr) hnulls
  obtain ⟨_, hleft⟩ := h.records left hl
  obtain ⟨_, hright⟩ := h.records right hr
  have hsize := hleft.wellFormed.counted
  rw [trie, hasNull, hroot, hnull] at hsize
  replace hsize := hsize.trans hright.wellFormed.counted.symm
  cases left
  cases right
  cases hroot
  cases hnull
  cases hsize
  rfl

end

end PersistentCollections.HashMap
