/-
Putting an entry into a trie stores it among the entries listed.

Two slots of different hashes are kept apart below as many branches as
their digits agree on, and there is a digit on which they do not
(`fork?_spec`). In a branch the cell of the digit takes the entry; the
cells around it hold no entry of the hash, so storing into the list of
the cell is storing into the list of the branch, up to the order of
different hashes.
-/
import PersistentCollections.Proofs.HashMap.Search

namespace PersistentCollections.HashMap

open Node (At fork? two)

variable {κ ν : Type} [BEq κ] {path : List Nat}
  {node : Node κ ν} {slot other : Slot κ ν} {key : κ} {value : ν}
  {left : Nat} {h h' : UInt64} {cell : Option (Slot κ ν)}
  {before after cells : List (Option (Slot κ ν))}

/-- Putting into a bucket answers what was there and stores. -/
theorem putEntry_eq (key : κ) (value : ν) (entries : List (κ × ν)) :
    Node.putEntry key value entries
      = ((lookup key entries).map (·.2), store key value entries) := by
  induction entries with
  | nil => rfl
  | cons x rest ih =>
      unfold Node.putEntry lookup store
      unfold lookup at ih
      rw [List.find?_cons]
      cases x.1 == key with
      | true => rfl
      | false => simp [ih]

theorem insert?_branch (lays : node.Lays cells) (h : UInt64) :
    node.insert? h key value (left + 1) = (do
      match ← node.slot? (digit h (left + 1)) with
      | none =>
        return (none, node.addSlot (digit h (left + 1)) (.entry h key value))
      | some (.entry stored storedKey old) =>
        if stored == h && storedKey == key then
          return (some old, node.setSlot (digit h (left + 1))
            (.entry stored storedKey value))
        else
          let child ← Node.ofTwo? left stored storedKey old h key value
          return (none, node.setSlot (digit h (left + 1)) (.node child))
      | some (.node child) =>
        let (previous, child) ← child.insert? h key value left
        return (previous,
          node.setSlot (digit h (left + 1)) (.node child))) := by
  cases lays <;> rfl

-- =============================================================== forking

variable [Hashable κ]

/-- A node that stands here whatever path leads to its hash. -/
def Slot.StandsAt (h : UInt64) (slot : Slot κ ν) : Prop :=
  ∀ path, Leads path h → slot.Sound path

theorem standsAt_entry (key : κ) (value : ν) :
    (Slot.entry (hash key) key value).StandsAt (hash key) :=
  fun _ hleads => ⟨rfl, hleads⟩

theorem standsAt_bucket {entries : List (κ × ν)}
    (hashes : ∀ x ∈ entries, hash x.1 = h) (hdistinct : Distinct entries)
    (hmany : 2 ≤ entries.length) :
    (Slot.node (.bucket h entries)).StandsAt h := by
  intro path hleads
  refine ⟨.bucket hleads hashes hdistinct, ?_⟩
  rw [listed_bucket]
  exact hmany

theorem Slot.StandsAt.hash_eq (hslot : slot.StandsAt h) :
    ∀ x ∈ slot.listed, hash x.1 = h := by
  intro x hx
  have hleads := (hslot (digits h) (List.prefix_refl _)).leads x hx
  exact (digits_injective
    (List.IsPrefix.eq_of_length hleads (by simp))).symm

theorem Slot.StandsAt.listed_pos (hslot : slot.StandsAt h) :
    0 < slot.listed.length :=
  List.length_pos_iff.mpr (hslot [] (leads_nil h)).listed_ne_nil

/-- Two slots of different hashes part at a digit they have left. -/
theorem fork?_spec (hne : h ≠ h') (hslot : slot.StandsAt h)
    (hother : other.StandsAt h') :
    ∀ {left : Nat} {path : List Nat}, Leads path h → Leads path h' →
      path.length + left = digitsPerHash →
      ∃ fork, fork? h slot h' other left = some fork
        ∧ fork.Sound path
        ∧ Alike fork.listed (slot.listed ++ other.listed) := by
  intro left
  induction left with
  | zero =>
      intro path hleads hleads' hlen
      exact absurd (hleads.room hleads' hne) (by omega)
  | succ left ih =>
      intro path hleads hleads' hlen
      have hroom : path.length < digitsPerHash := by omega
      have hnext := hleads.step hlen
      have hnext' := hleads'.step hlen
      unfold fork?
      by_cases hsame : digit h (left + 1) = digit h' (left + 1)
      · -- the digits agree: one more branch of one slot
        rw [← hsame] at hnext'
        obtain ⟨child, hfork, hsound, halike⟩ := ih hnext hnext'
          (by rw [List.length_append, List.length_singleton]; omega)
        obtain ⟨cells, hlays, hcells⟩ :=
          Node.lays_only (digit_lt h (left + 1)) (Slot.node child)
        refine ⟨_, ?_, .of_slots hroom hlays ?_, ?_⟩
        · rw [if_pos (by simpa using hsame), hfork]
          rfl
        · intro d slot' hd
          rcases hcells d _ hd with hnone | ⟨rfl, hsome⟩
          · cases hnone
          · cases hsome
            have hlen := halike.perm.length_eq
            have hpos := hslot.listed_pos
            have hpos' := hother.listed_pos
            rw [List.length_append] at hlen
            exact ⟨hsound, by omega⟩
        · rw [Node.listed, listedSlots_cons, listedSlots_nil,
            List.append_nil, listed_node]
          exact halike
      · -- the digits differ: the slots part here
        obtain ⟨cells, hlays, hcells⟩ :=
          Node.lays_two (digit_lt h (left + 1)) (digit_lt h' (left + 1))
            hsame slot other
        refine ⟨_, ?_, .of_slots hroom hlays ?_, ?_⟩
        · rw [if_neg (by simpa using hsame)]
        · intro d slot' hd
          rcases hcells d _ hd with hnone | ⟨rfl, hsome⟩ | ⟨rfl, hsome⟩
          · cases hnone
          · cases hsome
            exact hslot _ hnext
          · cases hsome
            exact hother _ hnext'
        · unfold two
          rw [Node.listed]
          split
          · simpa using Alike.refl _
          · have hswap : Alike (other.listed ++ slot.listed)
                (slot.listed ++ other.listed) := by
              refine alike_swap fun x hx y hy heq => hne ?_
              rw [← hslot.hash_eq y hy, ← hother.hash_eq x hx, heq]
            simpa using hswap

/-- The node of two entries of different keys. -/
theorem ofTwo?_spec {storedKey : κ} (old value : ν)
    (hkey : (storedKey == key) = false)
    (hleads : Leads path (hash storedKey)) (hleads' : Leads path (hash key))
    (hlen : path.length + left = digitsPerHash) :
    ∃ child, Node.ofTwo? left (hash storedKey) storedKey old
          (hash key) key value = some child
        ∧ (Slot.node child).Sound path
        ∧ Alike child.listed [(storedKey, old), (key, value)] := by
  unfold Node.ofTwo?
  cases hhash : hash storedKey == hash key with
  | true =>
      have hsame := eq_of_beq hhash
      refine ⟨_, rfl, ⟨.bucket hleads ?_ ?_, Nat.le_refl _⟩, ?_⟩
      · intro x hx
        simp only [List.mem_cons, List.not_mem_nil, or_false] at hx
        rcases hx with rfl | rfl
        · rfl
        · exact hsame.symm
      · simpa using hkey
      · rw [listed_bucket]
        exact .refl _
  | false =>
      have hne : hash storedKey ≠ hash key := by simpa using hhash
      obtain ⟨child, hfork, hsound, halike⟩ :=
        fork?_spec hne (standsAt_entry storedKey old)
          (standsAt_entry key value) hleads hleads' hlen
      rw [listed_entry, listed_entry] at halike
      refine ⟨child, hfork, ⟨hsound, ?_⟩, halike⟩
      rw [halike.perm.length_eq]
      exact Nat.le_refl 2

-- ============================================================= inserting

/-- What inserting answers: the value that the key had, and a node that
lists the entries with the new value. -/
def Inserted (path : List Nat) (node : Node κ ν) (key : κ) (value : ν)
    (answer : Option (Option ν × Node κ ν)) : Prop :=
  ∃ changed, answer = some ((lookup key node.listed).map (·.2), changed)
    ∧ changed.Sound path
    ∧ Alike changed.listed (store key value node.listed)
    ∧ (node.IsBranch → changed.IsBranch)

/-- A bucket of the hash takes the entry in. -/
theorem inserted_in_bucket {entries : List (κ × ν)}
    (leads : Leads path (hash key))
    (hashes : ∀ x ∈ entries, hash x.1 = hash key)
    (distinct : Distinct entries) :
    Inserted path (.bucket (hash key) entries) key value
      ((Node.bucket (hash key) entries).insert? (hash key) key value
        left) := by
  refine ⟨.bucket (hash key) (store key value entries), ?_, ?_, ?_, ?_⟩
  · unfold Node.insert?
    rw [listed_bucket]
    simp [putEntry_eq]
  · refine .bucket leads (fun x hx => ?_) (distinct_store distinct)
    rcases mem_store hx with hkey | ⟨y, hy, hyx⟩
    · rw [hkey]
    · rw [← hyx]
      exact hashes y hy
  · rw [listed_bucket, listed_bucket]
    exact .refl _
  · rintro ⟨_, hlays⟩
    cases hlays

variable [LawfulHashable κ]

/-- Storing in the cell of a hash is storing in the branch. -/
theorem inserted_in_cell {changed : Node κ ν}
    {answer : Option (Option ν × Node κ ν)}
    (room : path.length < digitsPerHash)
    (lays : node.Lays (before ++ cell :: after))
    (slots : ∀ d slot, At (before ++ cell :: after) d slot →
      slot.Sound (path ++ [d]))
    (hleads : Leads (path ++ [before.length]) (hash key))
    (hchanged : changed.Lays (before ++ some slot :: after))
    (hslot : slot.Sound (path ++ [before.length]))
    (hstore : Alike slot.listed (store key value (listedCell cell)))
    (hanswer : answer
      = some ((lookup key (listedCell cell)).map (·.2), changed)) :
    Inserted path node key value answer := by
  obtain ⟨hbefore, hafter⟩ := elsewhere slots hleads
  have hlisted : node.listed
      = listedCells before ++ listedCell cell ++ listedCells after := by
    rw [lays.listed_eq, listedCells_append, listedCells_cons,
      List.append_assoc]
  refine ⟨changed, ?_, ?_, ?_, fun _ => ⟨_, hchanged⟩⟩
  · rw [hanswer, hlisted, lookup_middle hbefore hafter]
  · refine .change room slots hchanged fun s hs => ?_
    cases hs
    exact hslot
  · rw [hchanged.listed_eq, listedCells_append, listedCells_cons,
      listedCell_some, hlisted, ← List.append_assoc]
    exact (((Alike.refl _).append hstore).append (.refl _)).trans
      (store_middle hbefore hafter).symm

/-- A bucket that meets another hash moves down below a fork. -/
theorem inserted_beside {stored : UInt64} {entries : List (κ × ν)}
    (leads : Leads path stored) (hashes : ∀ x ∈ entries, hash x.1 = stored)
    (distinct : Distinct entries) (hmany : 2 ≤ entries.length)
    (hne : stored ≠ hash key) (hleads : Leads path (hash key))
    (hleft : path.length + left = digitsPerHash) :
    Inserted path (.bucket stored entries) key value
      ((Node.bucket stored entries).insert? (hash key) key value left) := by
  obtain ⟨fork, hfork, hsound, halike⟩ :=
    fork?_spec hne (standsAt_bucket hashes distinct hmany)
      (standsAt_entry key value) leads hleads hleft
  rw [listed_node, listed_bucket, listed_entry] at halike
  have hother : ∀ x ∈ entries, hash x.1 ≠ hash key := by
    intro x hx
    rw [hashes x hx]
    exact hne
  have hnone := lookup_elsewhere hother
  refine ⟨fork, ?_, hsound, ?_, ?_⟩
  · unfold Node.insert?
    rw [if_neg (by simpa using hne), hfork, listed_bucket, hnone]
    rfl
  · rw [listed_bucket, store_of_lookup hnone]
    exact halike
  · rintro ⟨_, hlays⟩
    cases hlays

/-- An entry in the cell of a hash gets the value, or makes room for a
node of both entries. -/
theorem inserted_at_entry {storedKey : κ} {old : ν}
    (room : path.length < digitsPerHash)
    (lays : node.Lays
      (before ++ some (.entry (hash storedKey) storedKey old) :: after))
    (slots : ∀ d slot,
      At (before ++ some (.entry (hash storedKey) storedKey old) :: after)
        d slot → slot.Sound (path ++ [d]))
    (hleads : Leads (path ++ [before.length]) (hash key))
    (hlen : (path ++ [before.length]).length + left = digitsPerHash) :
    Inserted path node key value
      (if hash storedKey == hash key && storedKey == key then
        some (some old, node.setSlot before.length
          (.entry (hash storedKey) storedKey value))
      else do
        let child ← Node.ofTwo? left (hash storedKey) storedKey old
          (hash key) key value
        return (none, node.setSlot before.length (.node child))) := by
  have hstored := (slots _ _ at_middle).2
  cases hkey : storedKey == key with
  | true =>
      refine inserted_in_cell room lays slots hleads (lays.setSlot _)
        (standsAt_entry storedKey value _ hstored) ?_ ?_
      · simpa [store, hkey] using Alike.refl [(storedKey, value)]
      · simp [lookup, hkey, hash_eq hkey]
  | false =>
      obtain ⟨child, htwo, hsound, halike⟩ :=
        ofTwo?_spec old value hkey hstored hleads hlen
      refine inserted_in_cell room lays slots hleads
        (lays.setSlot (.node child)) hsound ?_ ?_
      · simpa [store, hkey] using halike
      · simp [lookup, hkey, htwo]

theorem Node.Sound.insert?_spec (h : node.Sound path) (key : κ)
    (value : ν) :
    ∀ {left : Nat}, node.IsBranch ∨ 2 ≤ node.listed.length →
      Leads path (hash key) → path.length + left = digitsPerHash →
      Inserted path node key value
        (node.insert? (hash key) key value left) := by
  induction h with
  | @bucket path stored entries leads hashes distinct =>
      intro left hmany hleads hleft
      cases hstored : stored == hash key with
      | true =>
          cases eq_of_beq hstored
          exact inserted_in_bucket leads hashes distinct
      | false =>
          -- the bucket goes below a branch, so it has to be a child
          -- of two entries or more; the root is no bucket
          refine inserted_beside leads hashes distinct ?_
            (by simpa using hstored) hleads hleft
          rcases hmany with ⟨_, hlays⟩ | hmany
          · cases hlays
          · rwa [listed_bucket] at hmany
  | @branch path node cells room lays entries children many ih =>
      intro left _ hleads hleft
      obtain ⟨left, before, cell, after, rfl, rfl, hdigit, hnext, hlen⟩ :=
        branch_at room lays hleads hleft
      have hslots := slots_sound entries children many
      rw [insert?_branch lays, hdigit, lays.slot?_eq]
      cases cell with
      | none =>
          refine inserted_in_cell room lays hslots hnext (lays.addSlot _)
            (standsAt_entry key value _ hnext) ?_ rfl
          simpa [store] using Alike.refl [(key, value)]
      | some slot =>
          cases slot with
          | entry stored storedKey old =>
              obtain ⟨rfl, -⟩ := entries _ _ _ _ at_middle
              exact inserted_at_entry room lays hslots hnext hlen
          | node child =>
              obtain ⟨changed, hinsert, hsound, halike, -⟩ :=
                ih _ child at_middle (.inr (many _ child at_middle))
                  hnext hlen
              have hgrown : 2 ≤ changed.listed.length := by
                have hmany := many _ child at_middle
                rw [halike.perm.length_eq, length_store]
                omega
              refine inserted_in_cell room lays hslots hnext
                (lays.setSlot (.node changed)) ⟨hsound, hgrown⟩ ?_ ?_
              · rw [listedCell_some, listed_node, listed_node]
                exact halike
              · rw [listedCell_some, listed_node]
                simp [hinsert]

end PersistentCollections.HashMap
