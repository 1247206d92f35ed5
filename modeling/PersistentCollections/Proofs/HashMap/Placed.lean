/-
Where the entries of a trie stand, by the hashes that are stored there.

An entry and a bucket keep the hash that they were put in with. The trie
goes by these hashes alone: it is of no account here which function has
made them, whether equal keys have equal hashes, or which keys are
equal. Every entry and every bucket stands on the path that the digits
of its hash spell, and a path is no longer than a hash has digits
(`Placed`). Where that is so, a search, an insertion and a removal find
the digits they ask for, and leave it so.
-/
import PersistentCollections.Proofs.HashMap.Erase
import PersistentCollections.Proofs.HashMap.Insert

namespace PersistentCollections.HashMap

open Node (At fork? getElem?_other inUse ofTwo?)

variable {κ ν : Type}

/-- A node whose entries and buckets stand on the paths of their
hashes, the node itself being where a path leads. -/
inductive Node.Placed : List Nat → Node κ ν → Prop
  | branch {path : List Nat} {node : Node κ ν}
      {cells : List (Option (Slot κ ν))}
      (room : path.length < digitsPerHash) (lays : node.Lays cells)
      (entries : ∀ d h key value, At cells d (.entry h key value) →
        Leads (path ++ [d]) h)
      (children : ∀ d child, At cells d (.node child) →
        Node.Placed (path ++ [d]) child) :
      Node.Placed path node
  | bucket {path : List Nat} {h : UInt64} {entries : List (κ × ν)}
      (leads : Leads path h) : Node.Placed path (.bucket h entries)

/-- A slot whose entries and buckets stand on the paths of their
hashes. -/
def Slot.Placed (path : List Nat) : Slot κ ν → Prop
  | .entry h _ _ => Leads path h
  | .node child => child.Placed path

variable {path : List Nat} {node child : Node κ ν} {slot other : Slot κ ν}
  {cell cell' : Option (Slot κ ν)} {left : Nat} {h h' : UInt64}
  {before after cells : List (Option (Slot κ ν))} {key : κ} {value : ν}

-- ================================================================ shape

theorem placed_node :
    (Slot.node child).Placed path ↔ child.Placed path := Iff.rfl

theorem Node.Placed.of_slots (room : path.length < digitsPerHash)
    (lays : node.Lays cells)
    (slots : ∀ d slot, At cells d slot → slot.Placed (path ++ [d])) :
    node.Placed path :=
  .branch room lays (fun d h key value => slots d (.entry h key value))
    (fun d child => slots d (.node child))

theorem slots_placed
    (entries : ∀ d h key value, At cells d (.entry h key value) →
      Leads (path ++ [d]) h)
    (children : ∀ d child, At cells d (.node child) →
      child.Placed (path ++ [d])) :
    ∀ d slot, At cells d slot → slot.Placed (path ++ [d]) := by
  intro d slot hslot
  cases slot with
  | entry h key value => exact entries d h key value hslot
  | node child => exact children d child hslot

/-- A path to a node is no longer than a hash has digits. -/
theorem Node.Placed.length_le (hplaced : node.Placed path) :
    path.length ≤ digitsPerHash := by
  cases hplaced with
  | branch room => exact Nat.le_of_lt room
  | bucket leads => exact leads.length_le

theorem placed_nothing : (Node.empty : Node κ ν).Placed [] := by
  refine .of_slots (Nat.zero_lt_succ _) Node.lays_empty ?_
  intro d slot hslot
  have hnone := List.eq_of_mem_replicate (List.mem_of_getElem? hslot)
  cases hnone

/-- A branch of which one cell is changed, to a slot that stands there. -/
theorem Node.Placed.change {changed : Node κ ν}
    (room : path.length < digitsPerHash)
    (slots : ∀ d slot, At (before ++ cell :: after) d slot →
      slot.Placed (path ++ [d]))
    (lays : changed.Lays (before ++ cell' :: after))
    (hcell : ∀ slot, cell' = some slot →
      slot.Placed (path ++ [before.length])) :
    changed.Placed path := by
  refine .of_slots room lays fun d slot hslot => ?_
  by_cases hd : d = before.length
  · subst hd
    apply hcell slot
    simpa [At] using hslot
  · unfold At at hslot
    rw [getElem?_other hd] at hslot
    exact slots d slot hslot

/-- A branch in which a slot is put that stands there. -/
theorem Node.Placed.fill {changed : Node κ ν}
    (room : path.length < digitsPerHash)
    (slots : ∀ d slot, At (before ++ cell :: after) d slot →
      slot.Placed (path ++ [d]))
    (hslot : slot.Placed (path ++ [before.length]))
    (lays : changed.Lays (before ++ some slot :: after)) :
    changed.Placed path := by
  refine .change room slots lays fun s hs => ?_
  cases hs
  exact hslot

/-- A branch out of which a slot is taken. -/
theorem Node.Placed.clear {changed : Node κ ν}
    (room : path.length < digitsPerHash)
    (slots : ∀ d slot, At (before ++ cell :: after) d slot →
      slot.Placed (path ++ [d]))
    (lays : changed.Lays (before ++ none :: after)) :
    changed.Placed path := by
  refine .change room slots lays fun s hs => ?_
  cases hs

-- =============================================================== forking

/-- A slot that stands wherever a path leads to a hash. -/
def Slot.GoesBy (h : UInt64) (slot : Slot κ ν) : Prop :=
  ∀ path, Leads path h → slot.Placed path

theorem goesBy_entry (h : UInt64) (key : κ) (value : ν) :
    (Slot.entry h key value).GoesBy h := fun _ hleads => hleads

theorem goesBy_bucket (h : UInt64) (entries : List (κ × ν)) :
    (Slot.node (.bucket h entries)).GoesBy h := fun _ hleads =>
  .bucket hleads

/-- Slots of different hashes that have not parted yet part at a digit
that is left, and are in their places if they go by these hashes. -/
theorem fork?_placed (hne : h ≠ h') :
    ∀ {left : Nat} {path : List Nat}, Leads path h → Leads path h' →
      path.length + left = digitsPerHash →
      ∃ fork, fork? h slot h' other left = some fork
        ∧ (slot.GoesBy h → other.GoesBy h' → fork.Placed path) := by
  intro left
  induction left with
  | zero =>
      intro path hleads hleads' hlen
      have hroom := hleads.room hleads' hne
      omega
  | succ left ih =>
      intro path hleads hleads' hlen
      have hroom : path.length < digitsPerHash := by omega
      have hnext := hleads.step hlen
      have hnext' := hleads'.step hlen
      unfold fork?
      by_cases hsame : digit h (left + 1) = digit h' (left + 1)
      · rw [← hsame] at hnext'
        obtain ⟨child, hfork, hplaced⟩ := ih hnext hnext'
          (by rw [List.length_append, List.length_singleton]; omega)
        obtain ⟨cells, hlays, hcells⟩ :=
          Node.lays_only (digit_lt h (left + 1)) (Slot.node child)
        rw [if_pos (beq_iff_eq.mpr hsame), hfork]
        refine ⟨_, rfl, fun hslot hother => .of_slots hroom hlays ?_⟩
        intro d slot' hd
        rcases hcells d _ hd with hnone | ⟨rfl, hsome⟩
        · cases hnone
        · cases hsome
          exact hplaced hslot hother
      · obtain ⟨cells, hlays, hcells⟩ :=
          Node.lays_two (digit_lt h (left + 1)) (digit_lt h' (left + 1))
            hsame slot other
        rw [if_neg fun heq => hsame (beq_iff_eq.mp heq)]
        refine ⟨_, rfl, fun hslot hother => .of_slots hroom hlays ?_⟩
        intro d slot' hd
        rcases hcells d _ hd with hnone | ⟨rfl, hsome⟩ | ⟨rfl, hsome⟩
        · cases hnone
        · cases hsome
          exact hslot _ hnext
        · cases hsome
          exact hother _ hnext'

/-- Two entries get a node, whatever their hashes are. -/
theorem ofTwo?_placed (key : κ) (value : ν) (otherKey : κ) (otherValue : ν)
    (hleads : Leads path h) (hleads' : Leads path h')
    (hlen : path.length + left = digitsPerHash) :
    ∃ child, ofTwo? left h key value h' otherKey otherValue = some child
      ∧ child.Placed path := by
  unfold ofTwo?
  by_cases hsame : h = h'
  · rw [if_pos (beq_iff_eq.mpr hsame)]
    exact ⟨_, rfl, .bucket hleads⟩
  · rw [if_neg fun heq => hsame (beq_iff_eq.mp heq)]
    obtain ⟨fork, hfork, hplaced⟩ := fork?_placed hsame hleads hleads' hlen
    exact ⟨fork, hfork, hplaced (goesBy_entry h key value)
      (goesBy_entry h' otherKey otherValue)⟩

-- ================================================== searching and putting

section

variable [BEq κ]

/-- A search has an answer. -/
theorem find?_placed (hplaced : node.Placed path) (key : κ) :
    ∀ {left : Nat}, Leads path h → path.length + left = digitsPerHash →
      ∃ found, node.find? h key left = some found := by
  induction hplaced with
  | bucket leads =>
      intro left _ _
      unfold Node.find?
      exact ⟨_, rfl⟩
  | branch room lays entries children ih =>
      intro left hleads hleft
      obtain ⟨left, before, cell, after, rfl, rfl, hdigit, hnext, hlen⟩ :=
        branch_at room lays hleads hleft
      rw [find?_branch lays, hdigit, lays.slot?_eq]
      cases cell with
      | none => exact ⟨none, rfl⟩
      | some slot =>
          cases slot with
          | entry stored storedKey value => exact ⟨_, rfl⟩
          | node child => exact ih before.length child at_middle hnext hlen

/-- An insertion has an answer, and keeps all in place. -/
theorem insert?_placed (hplaced : node.Placed path) (key : κ) (value : ν) :
    ∀ {left : Nat}, Leads path h → path.length + left = digitsPerHash →
      ∃ previous changed,
        node.insert? h key value left = some (previous, changed)
          ∧ changed.Placed path := by
  induction hplaced with
  | @bucket path stored entries leads =>
      intro left hleads hleft
      unfold Node.insert?
      by_cases hsame : stored = h
      · rw [if_pos (beq_iff_eq.mpr hsame)]
        exact ⟨_, _, rfl, .bucket leads⟩
      · -- the bucket moves down until its hash parts from the other one
        obtain ⟨fork, hfork, hforked⟩ :=
          fork?_placed hsame leads hleads hleft
        rw [if_neg fun heq => hsame (beq_iff_eq.mp heq), hfork]
        exact ⟨none, fork, rfl, hforked (goesBy_bucket stored entries)
          (goesBy_entry h key value)⟩
  | branch room lays entries children ih =>
      intro left hleads hleft
      obtain ⟨left, before, cell, after, rfl, rfl, hdigit, hnext, hlen⟩ :=
        branch_at room lays hleads hleft
      have hslots := slots_placed entries children
      rw [insert?_branch lays, hdigit, lays.slot?_eq]
      cases cell with
      | none =>
          exact ⟨_, _, rfl, .fill room hslots
            (goesBy_entry h key value _ hnext) (lays.addSlot _)⟩
      | some slot =>
          cases slot with
          | entry stored storedKey old =>
              have hstored := entries _ _ _ _ at_middle
              dsimp only [bind, Option.bind]
              by_cases hequal : (stored == h && storedKey == key) = true
              · rw [if_pos hequal]
                exact ⟨_, _, rfl, .fill room hslots
                  (goesBy_entry stored storedKey value _ hstored)
                  (lays.setSlot _)⟩
              · obtain ⟨child, htwo, hchild⟩ :=
                  ofTwo?_placed storedKey old key value hstored hnext hlen
                rw [if_neg hequal, htwo]
                exact ⟨_, _, rfl, .fill room hslots
                  (placed_node.mpr hchild) (lays.setSlot _)⟩
          | node child =>
              obtain ⟨previous, changed, hinsert, hchild⟩ :=
                ih _ child at_middle hnext hlen
              dsimp only [bind, Option.bind]
              rw [hinsert]
              exact ⟨_, _, rfl, .fill room hslots
                (placed_node.mpr hchild) (lays.setSlot _)⟩

end

-- =============================================================== removing

/-- A single entry stands wherever its node does. -/
theorem single?_placed (hplaced : node.Placed path)
    (hsingle : node.single? = some slot) : slot.Placed path := by
  cases hplaced with
  | @bucket _ stored entries leads =>
      rcases entries with _ | ⟨x, _ | ⟨y, rest⟩⟩
      · cases hsingle
      · cases hsingle
        exact leads
      · cases hsingle
  | @branch _ _ cells room lays entries children =>
      cases lays with
      | spread => cases hsingle
      | packed hlen htaken hfew =>
          generalize hslots : inUse cells = slots at hsingle
          rcases slots with _ | ⟨only, _ | ⟨other, rest⟩⟩
          · cases hsingle
          · have honly : only ∈ inUse cells := hslots ▸ List.mem_cons_self
            obtain ⟨d, hd⟩ := at_of_mem_inUse honly
            cases only with
            | node child => cases hsingle
            | entry stored storedKey value =>
                cases hsingle
                have hleads := entries d _ _ _ hd
                exact hleads.init
          · simp [Node.single?] at hsingle

/-- What is left of a node below another one stands there. -/
theorem pulled_up_placed (hplaced : node.Placed path) :
    (node.single?.getD (.node node)).Placed path := by
  cases hsingle : node.single? with
  | some slot => exact single?_placed hplaced hsingle
  | none => exact hplaced

/-- A key that is found in a bucket can be taken out of it. -/
theorem takeFirst?_isSome [BEq κ] {entries : List (κ × ν)} {x : κ × ν}
    (hfound : entries.find? (·.1 == key) = some x) :
    ∃ taken rest, Node.takeFirst? key entries = some (taken, rest) := by
  induction entries with
  | nil => cases hfound
  | cons y rest ih =>
      rw [List.find?_cons] at hfound
      unfold Node.takeFirst?
      by_cases hkey : (y.1 == key) = true
      · rw [if_pos hkey]
        exact ⟨y, rest, rfl⟩
      · rw [Bool.eq_false_iff.mpr hkey] at hfound
        obtain ⟨taken, after, htake⟩ := ih hfound
        rw [if_neg hkey, htake]
        exact ⟨taken, y :: after, rfl⟩

variable [BEq κ] {x : κ × ν}

/-- A removal of what is found has an answer, and keeps all in place. -/
theorem erase?_placed (hplaced : node.Placed path) :
    ∀ {left : Nat}, node.find? h key left = some (some x) →
      Leads path h → path.length + left = digitsPerHash →
      ∃ taken changed, node.erase? h key left = some (taken, changed)
        ∧ changed.Placed path := by
  induction hplaced with
  | @bucket path stored entries leads =>
      intro left hfound _ _
      unfold Node.find? at hfound
      unfold Node.erase?
      by_cases hsame : (stored == h) = true
      · rw [if_pos hsame] at hfound ⊢
        obtain ⟨taken, rest, htake⟩ :=
          takeFirst?_isSome (Option.some.inj hfound)
        rw [htake]
        exact ⟨taken, _, rfl, .bucket leads⟩
      · rw [if_neg hsame] at hfound
        cases hfound
  | branch room lays entries children ih =>
      intro left hfound hleads hleft
      obtain ⟨left, before, cell, after, rfl, rfl, hdigit, hnext, hlen⟩ :=
        branch_at room lays hleads hleft
      have hslots := slots_placed entries children
      rw [find?_branch lays, hdigit, lays.slot?_eq] at hfound
      rw [erase?_branch lays, hdigit, lays.slot?_eq]
      cases cell with
      | none => cases hfound
      | some slot =>
          cases slot with
          | entry stored storedKey value =>
              dsimp only [bind, Option.bind, pure] at hfound ⊢
              by_cases hequal : (stored == h && storedKey == key) = true
              · rw [if_pos hequal]
                exact ⟨_, _, rfl, .clear room hslots lays.dropSlot⟩
              · rw [if_neg hequal] at hfound
                cases hfound
          | node child =>
              obtain ⟨taken, changed, herase, hchild⟩ :=
                ih _ child at_middle hfound hnext hlen
              dsimp only [bind, Option.bind]
              rw [herase]
              exact ⟨_, _, rfl, .fill room hslots (pulled_up_placed hchild)
                (lays.setSlot _)⟩

end PersistentCollections.HashMap
