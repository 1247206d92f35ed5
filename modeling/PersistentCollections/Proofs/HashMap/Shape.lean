/-
The shape that every edit of a trie keeps, and the entries it lists.

`Sound path node` says that the node stands where `path` leads: every
entry in a slot and every bucket below it lies on the path that the
digits of its hash spell, each entry goes by the hash of its key, no key
occurs twice, and a node below another one lists at least two entries.
So the entries of different cells have different hashes, and whatever an
edit does to the cell of a hash, the other cells take no part in it.
-/
import PersistentCollections.Proofs.HashMap.Branch
import PersistentCollections.Proofs.HashMap.Digit

namespace PersistentCollections.HashMap

variable {κ ν : Type}

open Node (At getElem?_other)

-- =============================================================== listing

mutual

/-- The entries below a node in the order of the trie. -/
def Node.listed : Node κ ν → List (κ × ν)
  | .packed _ slots => listedSlots slots
  | .spread _ cells => listedCells cells
  | .bucket _ entries => entries

/-- The entries of a slot. -/
def Slot.listed : Slot κ ν → List (κ × ν)
  | .entry _ key value => [(key, value)]
  | .node child => child.listed

/-- The entries of some slots. -/
def listedSlots : List (Slot κ ν) → List (κ × ν)
  | [] => []
  | slot :: slots => slot.listed ++ listedSlots slots

/-- The entries of a cell. -/
def listedCell : Option (Slot κ ν) → List (κ × ν)
  | none => []
  | some slot => slot.listed

/-- The entries of some cells. -/
def listedCells : List (Option (Slot κ ν)) → List (κ × ν)
  | [] => []
  | cell :: cells => listedCell cell ++ listedCells cells

end

section

variable {slot : Slot κ ν} {slots more : List (Slot κ ν)}
  {cell : Option (Slot κ ν)} {before after cells : List (Option (Slot κ ν))}
  {node : Node κ ν} {x : κ × ν}

@[simp] theorem listed_entry {hash : UInt64} {key : κ} {value : ν} :
    (Slot.entry hash key value).listed = [(key, value)] := by
  rw [Slot.listed]

@[simp] theorem listed_node : (Slot.node node).listed = node.listed := by
  rw [Slot.listed]

@[simp] theorem listed_bucket {hash : UInt64} {entries : List (κ × ν)} :
    (Node.bucket hash entries).listed = entries := by
  rw [Node.listed]

@[simp] theorem listedSlots_nil :
    listedSlots ([] : List (Slot κ ν)) = [] := by
  rw [listedSlots]

@[simp] theorem listedSlots_cons :
    listedSlots (slot :: slots) = slot.listed ++ listedSlots slots := by
  rw [listedSlots]

@[simp] theorem listedCell_none :
    listedCell (none : Option (Slot κ ν)) = [] := by
  rw [listedCell]

@[simp] theorem listedCell_some :
    listedCell (some slot) = slot.listed := by
  rw [listedCell]

@[simp] theorem listedCells_nil :
    listedCells ([] : List (Option (Slot κ ν))) = [] := by
  rw [listedCells]

@[simp] theorem listedCells_cons :
    listedCells (cell :: cells) = listedCell cell ++ listedCells cells := by
  rw [listedCells]

@[simp] theorem listedCells_append :
    listedCells (before ++ after)
      = listedCells before ++ listedCells after := by
  induction before with
  | nil => simp
  | cons cell before ih => simp [ih]

theorem listedSlots_inUse (cells : List (Option (Slot κ ν))) :
    listedSlots (Node.inUse cells) = listedCells cells := by
  induction cells with
  | nil => simp
  | cons cell cells ih => cases cell <;> simp [ih]

theorem at_middle : At (before ++ some slot :: after) before.length slot := by
  unfold At
  rw [List.getElem?_append_right (Nat.le_refl _), Nat.sub_self]
  rfl

theorem mem_listedCells (h : x ∈ listedCells cells) :
    ∃ d slot, At cells d slot ∧ x ∈ slot.listed := by
  induction cells with
  | nil => simp at h
  | cons cell cells ih =>
      rw [listedCells_cons, List.mem_append] at h
      cases h with
      | inl h =>
          cases cell with
          | none => simp at h
          | some slot => exact ⟨0, slot, rfl, by simpa using h⟩
      | inr h =>
          obtain ⟨d, slot, hslot, hx⟩ := ih h
          exact ⟨d + 1, slot, hslot, hx⟩

/-- The entries of a branch are those of its cells. -/
theorem Node.Lays.listed_eq (h : node.Lays cells) :
    node.listed = listedCells cells := by
  cases h with
  | packed => rw [Node.listed, listedSlots_inUse]
  | spread => rw [Node.listed]

/-- What holds between the entries of one cell, and from one cell to the
next, holds between all. -/
theorem pairwise_listedCells {R : κ × ν → κ × ν → Prop}
    (hwithin : ∀ d slot, At cells d slot → slot.listed.Pairwise R)
    (hacross : ∀ d e slot other, d < e → At cells d slot →
      At cells e other → ∀ x ∈ slot.listed, ∀ y ∈ other.listed, R x y) :
    (listedCells cells).Pairwise R := by
  induction cells with
  | nil => simp
  | cons cell cells ih =>
      rw [listedCells_cons, List.pairwise_append]
      refine ⟨?_, ?_, ?_⟩
      · cases cell with
        | none => simp
        | some slot => simpa using hwithin 0 slot rfl
      · refine ih (fun d slot h => hwithin (d + 1) slot h) ?_
        intro d e slot other hlt hd he
        exact hacross (d + 1) (e + 1) slot other (by omega) hd he
      · intro x hx y hy
        obtain ⟨e, other, he, hy⟩ := mem_listedCells hy
        cases cell with
        | none => simp at hx
        | some slot =>
            rw [listedCell_some] at hx
            exact hacross 0 (e + 1) slot other (by omega) rfl he x hx y hy

end

-- ================================================================= shape

variable [BEq κ] [Hashable κ]

/-- A node that stands where a path leads. -/
inductive Node.Sound : List Nat → Node κ ν → Prop
  | branch {path : List Nat} {node : Node κ ν}
      {cells : List (Option (Slot κ ν))}
      (room : path.length < digitsPerHash) (lays : node.Lays cells)
      (entries : ∀ d h key value, At cells d (.entry h key value) →
        h = hash key ∧ Leads (path ++ [d]) h)
      (children : ∀ d child, At cells d (.node child) →
        Node.Sound (path ++ [d]) child)
      (many : ∀ d child, At cells d (.node child) →
        2 ≤ child.listed.length) :
      Node.Sound path node
  | bucket {path : List Nat} {h : UInt64} {entries : List (κ × ν)}
      (leads : Leads path h) (hashes : ∀ x ∈ entries, hash x.1 = h)
      (distinct : entries.Pairwise fun x y => (x.1 == y.1) = false) :
      Node.Sound path (.bucket h entries)

/-- A slot that stands where a path leads. -/
def Slot.Sound (path : List Nat) : Slot κ ν → Prop
  | .entry h key _ => h = hash key ∧ Leads path h
  | .node child => child.Sound path ∧ 2 ≤ child.listed.length

variable {path : List Nat} {node : Node κ ν} {slot : Slot κ ν}
  {cell other : Option (Slot κ ν)}
  {before after cells : List (Option (Slot κ ν))}

theorem Node.Sound.of_slots (room : path.length < digitsPerHash)
    (lays : node.Lays cells)
    (slots : ∀ d slot, At cells d slot → slot.Sound (path ++ [d])) :
    node.Sound path :=
  .branch room lays (fun d h key value => slots d (.entry h key value))
    (fun d child hchild => (slots d (.node child) hchild).1)
    (fun d child hchild => (slots d (.node child) hchild).2)

theorem slots_sound
    (entries : ∀ d h key value, At cells d (.entry h key value) →
      h = hash key ∧ Leads (path ++ [d]) h)
    (children : ∀ d child, At cells d (.node child) →
      child.Sound (path ++ [d]))
    (many : ∀ d child, At cells d (.node child) →
      2 ≤ child.listed.length) :
    ∀ d slot, At cells d slot → slot.Sound (path ++ [d]) := by
  intro d slot hslot
  cases slot with
  | entry h key value => exact entries d h key value hslot
  | node child => exact ⟨children d child hslot, many d child hslot⟩

/-- All entries of a node lie on its path. -/
theorem Node.Sound.leads (h : Node.Sound path node) :
    ∀ x ∈ node.listed, Leads path (hash x.1) := by
  induction h with
  | bucket leads hashes distinct =>
      intro x hx
      rw [listed_bucket] at hx
      rw [hashes x hx]
      exact leads
  | branch room lays entries children many ih =>
      intro x hx
      rw [lays.listed_eq] at hx
      obtain ⟨d, slot, hslot, hx⟩ := mem_listedCells hx
      cases slot with
      | entry h key value =>
          obtain ⟨rfl, hleads⟩ := entries d h key value hslot
          rw [listed_entry, List.mem_singleton] at hx
          rw [hx]
          exact hleads.init
      | node child =>
          rw [listed_node] at hx
          exact (ih d child hslot x hx).init

/-- A path to a node is no longer than a hash has digits. -/
theorem Node.Sound.length_le (h : Node.Sound path node) :
    path.length ≤ digitsPerHash := by
  cases h with
  | branch room => exact Nat.le_of_lt room
  | bucket leads => exact leads.length_le

theorem Slot.Sound.leads (h : slot.Sound path) :
    ∀ x ∈ slot.listed, Leads path (hash x.1) := by
  cases slot with
  | entry h' key value =>
      obtain ⟨rfl, hleads⟩ := h
      intro x hx
      rw [listed_entry, List.mem_singleton] at hx
      rw [hx]
      exact hleads
  | node child =>
      rw [listed_node]
      exact h.1.leads

theorem Slot.Sound.listed_ne_nil (h : slot.Sound path) :
    slot.listed ≠ [] := by
  cases slot with
  | entry => simp
  | node child =>
      rw [listed_node]
      apply List.ne_nil_of_length_pos
      have := h.2
      omega

/-- No two entries of a node have one key. -/
theorem Node.Sound.distinct [EquivBEq κ] [LawfulHashable κ]
    (h : Node.Sound path node) :
    node.listed.Pairwise fun x y => (x.1 == y.1) = false := by
  induction h with
  | bucket leads hashes distinct =>
      rw [listed_bucket]
      exact distinct
  | branch room lays entries children many ih =>
      have hslots := slots_sound entries children many
      rw [lays.listed_eq]
      apply pairwise_listedCells
      · intro d slot hslot
        cases slot with
        | entry => simp
        | node child =>
            rw [listed_node]
            exact ih d child hslot
      · intro d e slot other hlt hd he x hx y hy
        have hxd := (hslots d slot hd).leads x hx
        have hye := (hslots e other he).leads y hy
        cases hkey : x.1 == y.1 with
        | false => rfl
        | true =>
            rw [hash_eq hkey] at hxd
            exact absurd (hxd.digit_eq hye) (Nat.ne_of_lt hlt)

-- ============================================================== changes

/-- A branch of which one cell is changed, to a slot that stands there. -/
theorem Node.Sound.change {changed : Node κ ν}
    (room : path.length < digitsPerHash)
    (slots : ∀ d slot, At (before ++ cell :: after) d slot →
      slot.Sound (path ++ [d]))
    (lays : changed.Lays (before ++ other :: after))
    (hother : ∀ slot, other = some slot →
      slot.Sound (path ++ [before.length])) :
    changed.Sound path := by
  refine .of_slots room lays fun d slot hslot => ?_
  by_cases hd : d = before.length
  · subst hd
    exact hother slot (by simpa [At] using hslot)
  · unfold At at hslot
    rw [getElem?_other hd] at hslot
    exact slots d slot hslot

/-- The entries of the other cells are of other hashes. -/
theorem elsewhere {h : UInt64}
    (slots : ∀ d slot, At (before ++ cell :: after) d slot →
      slot.Sound (path ++ [d]))
    (hleads : Leads (path ++ [before.length]) h) :
    (∀ x ∈ listedCells before, hash x.1 ≠ h)
      ∧ ∀ x ∈ listedCells after, hash x.1 ≠ h := by
  have hcell : ∀ d slot, d ≠ before.length →
      At (before ++ cell :: after) d slot → ∀ x ∈ slot.listed, hash x.1 ≠ h := by
    intro d slot hd hslot x hx heq
    have hx := (slots d slot hslot).leads x hx
    rw [heq] at hx
    exact hd (hx.digit_eq hleads)
  constructor
  · intro x hx
    obtain ⟨d, slot, hslot, hx⟩ := mem_listedCells hx
    have hlt : d < before.length := (List.getElem?_eq_some_iff.mp hslot).1
    refine hcell d slot (Nat.ne_of_lt hlt) ?_ x hx
    exact (List.getElem?_append_left hlt).trans hslot
  · intro x hx
    obtain ⟨d, slot, hslot, hx⟩ := mem_listedCells hx
    refine hcell (before.length + (d + 1)) slot (by omega) ?_ x hx
    unfold At
    rw [List.getElem?_append_right (Nat.le_add_right _ _),
      Nat.add_sub_cancel_left]
    exact hslot

end PersistentCollections.HashMap
