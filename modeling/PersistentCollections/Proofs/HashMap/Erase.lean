/-
Taking an entry out of a trie takes it out of the entries listed.

A bucket loses the first entry of the key, which is the only one. In a
branch the cell of the digit loses the entry; when the node below is
left with a single entry, that entry is put in its place, and it stands
there because it stands on every path that leads to its hash. Whatever
stays below is a node of two entries or more (`pulled_up`).
-/
import PersistentCollections.HashMap.Node.Erase
import PersistentCollections.Proofs.HashMap.Search

namespace PersistentCollections.HashMap

open Node (At inUse)

variable {κ ν : Type} {path : List Nat} {node : Node κ ν}
  {slot : Slot κ ν} {key : κ} {left : Nat} {x : κ × ν}
  {cell : Option (Slot κ ν)}
  {before after cells : List (Option (Slot κ ν))}

theorem at_of_mem_inUse (h : slot ∈ inUse cells) :
    ∃ d, At cells d slot := by
  obtain ⟨cell, hmem, hcell⟩ := List.mem_filterMap.mp h
  obtain ⟨d, hd⟩ := List.mem_iff_getElem?.mp hmem
  exact ⟨d, by rw [At, hd, ← hcell]; rfl⟩

theorem erase?_branch [BEq κ] (lays : node.Lays cells) (h : UInt64) :
    node.erase? h key (left + 1) = (do
      match ← node.slot? (digit h (left + 1)) with
      | none => none
      | some (.entry stored storedKey value) =>
        if stored == h && storedKey == key then
          return ((storedKey, value), node.dropSlot (digit h (left + 1)))
        else
          none
      | some (.node child) =>
        let (taken, child) ← child.erase? h key left
        return (taken, node.setSlot (digit h (left + 1))
          (child.single?.getD (.node child)))) := by
  cases lays <;> rfl

-- =============================================================== buckets

/-- A key that occurs once is taken out where it stands. -/
theorem takeFirst?_eq [BEq κ] [EquivBEq κ] {entries : List (κ × ν)}
    (hdistinct : Distinct entries) (h : lookup key entries = some x) :
    Node.takeFirst? key entries = some (x, without key entries) := by
  induction entries with
  | nil => cases h
  | cons y rest ih =>
      obtain ⟨hy, hrest⟩ := List.pairwise_cons.mp hdistinct
      unfold lookup at h ih
      unfold Node.takeFirst? without
      rw [List.find?_cons] at h
      rw [List.filter_cons]
      cases hkey : y.1 == key with
      | true =>
          rw [hkey] at h
          cases h
          have hothers := without_behind hkey hy
          unfold without at hothers
          simp [hothers]
      | false =>
          rw [hkey] at h
          simp [ih hrest h, without]

-- ============================================================ pulling up

variable [BEq κ] [Hashable κ]

theorem listed_pos
    (slots : ∀ d slot, At cells d slot → slot.Sound (path ++ [d]))
    (hslot : slot ∈ inUse cells) : 0 < slot.listed.length := by
  obtain ⟨d, hd⟩ := at_of_mem_inUse hslot
  exact List.length_pos_iff.mpr (slots d slot hd).listed_ne_nil

/-- Every cell in use lists an entry. -/
theorem inUse_le_listed
    (slots : ∀ d slot, At cells d slot → slot.Sound (path ++ [d])) :
    (inUse cells).length ≤ (listedCells cells).length := by
  have hpos := fun slot => @listed_pos κ ν path slot cells _ _ slots
  rw [← listedSlots_inUse]
  generalize inUse cells = slots at hpos
  induction slots with
  | nil => exact Nat.zero_le _
  | cons slot slots ih =>
      have hslot := hpos slot List.mem_cons_self
      have hrest := ih fun other h => hpos other (List.mem_cons_of_mem _ h)
      rw [listedSlots_cons, List.length_append, List.length_cons]
      omega

/-- A single entry stands wherever its node does. -/
theorem single?_some (h : node.Sound path)
    (hsingle : node.single? = some slot) :
    slot.Sound path ∧ slot.listed = node.listed := by
  cases h with
  | @bucket _ stored entries leads hashes distinct =>
      rcases entries with _ | ⟨x, _ | ⟨y, rest⟩⟩
      · cases hsingle
      · cases hsingle
        refine ⟨⟨(hashes x List.mem_cons_self).symm, leads⟩, ?_⟩
        rw [listed_entry, listed_bucket]
      · cases hsingle
  | @branch _ _ cells room lays entries children many =>
      cases lays with
      | spread => cases hsingle
      | packed hlen htaken hfew =>
          rw [Node.listed]
          generalize hslots : inUse cells = slots at hsingle ⊢
          rcases slots with _ | ⟨only, _ | ⟨other, rest⟩⟩
          · cases hsingle
          · have honly : only ∈ inUse cells := hslots ▸ List.mem_cons_self
            obtain ⟨d, hd⟩ := at_of_mem_inUse honly
            cases only with
            | node child => cases hsingle
            | entry stored storedKey value =>
                cases hsingle
                obtain ⟨hhash, hleads⟩ := entries d _ _ _ hd
                exact ⟨⟨hhash, hleads.init⟩, by simp⟩
          · simp [Node.single?] at hsingle

/-- A node without a single entry has more of them or none. -/
theorem single?_none (h : node.Sound path)
    (hsingle : node.single? = none) (hne : node.listed ≠ []) :
    2 ≤ node.listed.length := by
  cases h with
  | @bucket _ stored entries leads hashes distinct =>
      rw [listed_bucket] at hne ⊢
      rcases entries with _ | ⟨x, _ | ⟨y, rest⟩⟩
      · exact (hne rfl).elim
      · cases hsingle
      · simp
  | @branch _ _ cells room lays entries children many =>
      have hslots := slots_sound entries children many
      have hcount := inUse_le_listed hslots
      rw [lays.listed_eq] at hne ⊢
      cases lays with
      | spread hlen hmany =>
          have hpack : packAt = 8 := rfl
          omega
      | packed hlen htaken hfew =>
          rw [← listedSlots_inUse] at hne hcount ⊢
          generalize hused : inUse cells = slots at hsingle hne hcount ⊢
          rcases slots with _ | ⟨only, _ | ⟨other, rest⟩⟩
          · exact (hne listedSlots_nil).elim
          · have honly : only ∈ inUse cells := hused ▸ List.mem_cons_self
            obtain ⟨d, hd⟩ := at_of_mem_inUse honly
            cases only with
            | entry => cases hsingle
            | node child => simpa using many d child hd
          · rw [List.length_cons, List.length_cons] at hcount
            omega

/-- What is left of a node below another one. -/
theorem pulled_up (h : node.Sound path) (hne : node.listed ≠ []) :
    (node.single?.getD (.node node)).Sound path
      ∧ (node.single?.getD (.node node)).listed = node.listed := by
  cases hsingle : node.single? with
  | some slot => exact single?_some h hsingle
  | none => exact ⟨⟨h, single?_none h hsingle hne⟩, listed_node⟩

/-- A branch is empty when it lists no entry. -/
theorem isEmpty_eq (h : node.Sound path) (hbranch : node.IsBranch) :
    node.isEmpty = node.listed.isEmpty := by
  cases h with
  | bucket =>
      obtain ⟨_, hlays⟩ := hbranch
      cases hlays
  | @branch _ _ cells room lays entries children many =>
      have hcount := inUse_le_listed (slots_sound entries children many)
      rw [lays.isEmpty_eq, lays.listed_eq]
      cases hslots : inUse cells with
      | nil =>
          rw [← listedSlots_inUse, hslots, listedSlots_nil]
          rfl
      | cons slot slots =>
          rw [hslots, List.length_cons] at hcount
          have hne : listedCells cells ≠ [] :=
            List.ne_nil_of_length_pos (by omega)
          rw [List.isEmpty_eq_false_iff.mpr hne]
          rfl

-- ================================================================ erasing

variable [LawfulHashable κ]

/-- What taking out a key answers: its entry, and a node that lists the
others. -/
def Erased (path : List Nat) (node : Node κ ν) (key : κ) (x : κ × ν)
    (answer : Option ((κ × ν) × Node κ ν)) : Prop :=
  ∃ changed, answer = some (x, changed)
    ∧ changed.Sound path
    ∧ changed.listed = without key node.listed
    ∧ (node.IsBranch → changed.IsBranch)

/-- Taking out of the cell of a hash is taking out of the branch. -/
theorem erased_in_cell {changed : Node κ ν} {other : Option (Slot κ ν)}
    (room : path.length < digitsPerHash)
    (lays : node.Lays (before ++ cell :: after))
    (slots : ∀ d slot, At (before ++ cell :: after) d slot →
      slot.Sound (path ++ [d]))
    (hleads : Leads (path ++ [before.length]) (hash key))
    (hchanged : changed.Lays (before ++ other :: after))
    (hother : ∀ slot, other = some slot →
      slot.Sound (path ++ [before.length]))
    (hwithout : listedCell other = without key (listedCell cell)) :
    Erased path node key x (some (x, changed)) := by
  obtain ⟨hbefore, hafter⟩ := elsewhere slots hleads
  refine ⟨changed, rfl, .change room slots hchanged hother, ?_,
    fun _ => ⟨_, hchanged⟩⟩
  rw [hchanged.listed_eq, lays.listed_eq, listedCells_append,
    listedCells_append, listedCells_cons, listedCells_cons, hwithout,
    ← List.append_assoc, ← List.append_assoc,
    without_middle hbefore hafter]

/-- A bucket loses the entry of a key. -/
theorem erased_from_bucket [EquivBEq κ] {stored : UInt64}
    {entries : List (κ × ν)} (leads : Leads path stored)
    (hashes : ∀ x ∈ entries, hash x.1 = stored)
    (distinct : Distinct entries)
    (hfound : lookup key entries = some x) :
    Erased path (.bucket stored entries) key x
      ((Node.bucket stored entries).erase? (hash key) key left) := by
  have hsame : stored = hash key := by
    rw [← hashes x (mem_of_lookup hfound),
      hash_eq (beq_of_lookup hfound)]
  refine ⟨.bucket stored (without key entries), ?_, ?_, ?_, ?_⟩
  · unfold Node.erase?
    simp [hsame, takeFirst?_eq distinct hfound]
  · exact .bucket leads
      (fun y hy => hashes y (List.mem_filter.mp hy).1)
      (distinct.sublist List.filter_sublist)
  · rw [listed_bucket, listed_bucket]
  · rintro ⟨_, hlays⟩
    cases hlays

theorem erase?_spec [EquivBEq κ] (h : node.Sound path) :
    ∀ {left : Nat}, lookup key node.listed = some x →
      Leads path (hash key) → path.length + left = digitsPerHash →
      Erased path node key x
        (node.erase? (hash key) key left) := by
  induction h with
  | bucket leads hashes distinct =>
      intro left hfound _ _
      rw [listed_bucket] at hfound
      exact erased_from_bucket leads hashes distinct hfound
  | @branch path node cells room lays entries children many ih =>
      intro left hfound hleads hleft
      obtain ⟨left, before, cell, after, rfl, rfl, hdigit, hnext, hlen⟩ :=
        branch_at room lays hleads hleft
      have hslots := slots_sound entries children many
      obtain ⟨hbefore, hafter⟩ := elsewhere hslots hnext
      rw [lays.listed_eq, listedCells_append, listedCells_cons,
        ← List.append_assoc, lookup_middle hbefore hafter] at hfound
      rw [erase?_branch lays, hdigit, lays.slot?_eq]
      cases cell with
      | none => cases hfound
      | some slot =>
          rw [listedCell_some] at hfound
          cases slot with
          | entry stored storedKey value =>
              obtain ⟨rfl, -⟩ := entries _ _ _ _ at_middle
              rw [listed_entry] at hfound
              have hx := List.mem_singleton.mp (mem_of_lookup hfound)
              have hkey := beq_of_lookup hfound
              subst hx
              have hcell := erased_in_cell room lays hslots hnext
                lays.dropSlot (by simp) (x := (storedKey, value))
                (by simp [without, hkey])
              simpa [hkey, hash_eq hkey] using hcell
          | node child =>
              -- a node of two entries or more keeps one at least
              rw [listed_node] at hfound
              obtain ⟨changed, herase, hsound, hlisted, -⟩ :=
                ih _ child at_middle hfound hnext hlen
              have hleft : changed.listed ≠ [] := by
                have hmany := many _ child at_middle
                have hless := length_without
                  (children _ child at_middle).distinct hfound
                apply List.ne_nil_of_length_pos
                rw [hlisted]
                omega
              obtain ⟨hpulled, hlisted'⟩ := pulled_up hsound hleft
              have hcell := erased_in_cell (x := x) room lays hslots hnext
                (lays.setSlot (changed.single?.getD (.node changed)))
                (by simpa using hpulled) (by simp [hlisted', hlisted])
              simpa [herase] using hcell

end PersistentCollections.HashMap
