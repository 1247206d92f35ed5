/-
A walk over a trie hands out the entries that the trie lists.

What a walk has still to hand out is spread over its path: the slots
ahead in each node on the way (`ahead`). Each node on the way lies one
digit below the one before, so the path is as long as the digits read,
and the room for nodes is never used up (`descend?_spec`).
-/
import PersistentCollections.HashMap.Walk
import PersistentCollections.Proofs.HashMap.Erase
import PersistentCollections.Proofs.Steps

namespace PersistentCollections.HashMap

open Node (At inUse)

variable {κ ν : Type} {node child : Node κ ν} {slot : Slot κ ν}
  {x : κ × ν} {slots : List (Slot κ ν)}
  {path : List (List (Slot κ ν))}

namespace Walk

/-- What a path has still to hand out. -/
def ahead (path : List (List (Slot κ ν))) : List (κ × ν) :=
  path.flatMap listedSlots

@[simp] theorem ahead_nil : ahead ([] : List (List (Slot κ ν))) = [] :=
  rfl

@[simp] theorem ahead_cons :
    ahead (slots :: path) = listedSlots slots ++ ahead path := rfl

theorem ahead_dropUsed (path : List (List (Slot κ ν))) :
    ahead (dropUsed path) = ahead path := by
  induction path with
  | nil => rfl
  | cons slots path ih =>
      cases slots with
      | nil => simpa [dropUsed] using ih
      | cons slot slots => rfl

/-- What is left of a path has a slot ahead in the deepest node. -/
theorem dropUsed_cases (path : List (List (Slot κ ν))) :
    dropUsed path = []
      ∨ ∃ slot rest below, dropUsed path = (slot :: rest) :: below := by
  induction path with
  | nil => exact .inl rfl
  | cons slots path ih =>
      cases slots with
      | nil => exact ih
      | cons slot rest => exact .inr ⟨slot, rest, path, rfl⟩

theorem listedSlots_entries (h : UInt64) (entries : List (κ × ν)) :
    listedSlots (entries.map fun x => Slot.entry h x.1 x.2) = entries := by
  induction entries with
  | nil => simp
  | cons x entries ih => simp [ih]

variable [BEq κ] [Hashable κ]

/-- A slot that is met with so many nodes on the way to it. -/
def Deep (depth : Nat) : Slot κ ν → Prop
  | .entry _ _ _ => True
  | .node child =>
    ∃ digits, child.Sound digits ∧ digits.length = depth
      ∧ 2 ≤ child.listed.length

/-- Every slot ahead is as deep as the path below it is long. -/
def Stands : List (List (Slot κ ν)) → Prop
  | [] => True
  | slots :: path =>
    (∀ slot ∈ slots, Deep (path.length + 1) slot) ∧ Stands path

theorem Deep.listed_ne_nil {depth : Nat} (h : Deep depth slot) :
    slot.listed ≠ [] := by
  cases slot with
  | entry => simp
  | node child =>
      obtain ⟨_, _, _, hmany⟩ := h
      rw [listed_node]
      exact List.ne_nil_of_length_pos (by omega)

/-- The slots of a node lie one digit below it. -/
theorem slots_deep {digits : List Nat} (h : node.Sound digits) :
    ∀ slot ∈ node.slots, Deep (digits.length + 1) slot := by
  intro slot hslot
  cases h with
  | bucket =>
      unfold Node.slots at hslot
      obtain ⟨x, -, rfl⟩ := List.mem_map.mp hslot
      trivial
  | branch room lays entries children many =>
      rw [lays.slots_eq] at hslot
      obtain ⟨d, hd⟩ := at_of_mem_inUse hslot
      cases slot with
      | entry => trivial
      | node child =>
          exact ⟨digits ++ [d], children d child hd, by simp,
            many d child hd⟩

theorem listedSlots_slots {digits : List Nat} (h : node.Sound digits) :
    listedSlots node.slots = node.listed := by
  cases h with
  | branch room lays =>
      rw [lays.slots_eq, listedSlots_inUse, lays.listed_eq]
  | bucket => rw [listed_bucket, Node.slots, listedSlots_entries]

theorem dropUsed_stands (h : Stands path) : Stands (dropUsed path) := by
  induction path with
  | nil => trivial
  | cons slots path ih =>
      cases slots with
      | nil => exact ih h.2
      | cons slot slots => exact h

/-- Going down to the first entry of a slot takes it, and the nodes on
the way have the others ahead. -/
theorem descend?_spec : ∀ {room : Nat} {slot : Slot κ ν}
    {path : List (List (Slot κ ν))}, digitsPerHash < room + path.length →
    Deep path.length slot → Stands path →
    ∃ x after, descend? room slot path = some (x, after)
      ∧ x :: ahead after = slot.listed ++ ahead path ∧ Stands after := by
  intro room
  induction room with
  | zero =>
      intro slot path hroom hslot hpath
      cases slot with
      | entry h key value => exact ⟨(key, value), path, rfl, by simp, hpath⟩
      | node child =>
          -- no node lies deeper than a hash has digits
          obtain ⟨digits, hsound, hlen, -⟩ := hslot
          have hdepth := hsound.length_le
          omega
  | succ room ih =>
      intro slot path hroom hslot hpath
      cases slot with
      | entry h key value => exact ⟨(key, value), path, rfl, by simp, hpath⟩
      | node child =>
          obtain ⟨digits, hsound, hlen, hmany⟩ := hslot
          have hdeep := slots_deep hsound
          have hlisted := listedSlots_slots hsound
          unfold descend?
          rw [listed_node, ← hlisted]
          cases hslots : child.slots with
          | nil =>
              rw [hslots] at hlisted
              simp [← hlisted] at hmany
          | cons slot rest =>
              rw [hslots, hlen] at hdeep
              obtain ⟨x, after, hstep, hahead, hstands⟩ :=
                @ih slot (rest :: path) (by rw [List.length_cons]; omega)
                  (hdeep slot List.mem_cons_self)
                  ⟨fun other h => hdeep other (List.mem_cons_of_mem _ h),
                    hpath⟩
              refine ⟨x, after, hstep, ?_, hstands⟩
              rw [hahead, ahead_cons, listedSlots_cons, List.append_assoc]

-- ============================================================== the walk

/-- A walk with these entries still to hand out. -/
structure Holds (walk : Walk κ ν) (entries : List (κ × ν)) : Prop where
  stands : Stands walk.path
  ahead : ahead walk.path = entries
  remaining : walk.remaining = entries.length

theorem start_holds (h : node.Sound []) :
    Holds (start (some node) node.listed.length) node.listed where
  stands := ⟨slots_deep h, trivial⟩
  ahead := by
    show listedSlots node.slots ++ [] = _
    rw [List.append_nil, listedSlots_slots h]
  remaining := rfl

theorem start_none_holds :
    Holds (start (none : Option (Node κ ν)) 0) [] where
  stands := trivial
  ahead := rfl
  remaining := rfl

variable {walk : Walk κ ν} {rest : List (κ × ν)}

theorem Holds.used_up (h : Holds walk []) : dropUsed walk.path = [] := by
  have hstands := dropUsed_stands h.stands
  have hahead := h.ahead
  rw [← ahead_dropUsed] at hahead
  rcases dropUsed_cases walk.path with hnil | ⟨slot, rest, below, hcons⟩
  · exact hnil
  · rw [hcons] at hstands hahead
    rw [ahead_cons, listedSlots_cons, List.append_assoc] at hahead
    have hslot := hstands.1 slot List.mem_cons_self
    exact absurd (List.append_eq_nil_iff.mp hahead).1 hslot.listed_ne_nil

theorem next_follows :
    Steps.Follows (next (κ := κ) (ν := ν)) Holds where
  done := by
    intro walk h
    unfold next
    rw [h.used_up]
  next := by
    intro walk x rest h
    have hstands := dropUsed_stands h.stands
    have hahead := h.ahead
    rw [← ahead_dropUsed] at hahead
    rcases dropUsed_cases walk.path with hnil | ⟨slot, more, below, hcons⟩
    · rw [hnil] at hahead
      cases hahead
    · rw [hcons] at hstands hahead
      obtain ⟨hslots, hbelow⟩ := hstands
      have hroom : digitsPerHash
          < walkRoom - (below.length + 1) + (more :: below).length := by
        have hwalk : walkRoom = 16 := rfl
        have hdigits : digitsPerHash = 13 := rfl
        rw [List.length_cons]
        omega
      have hpath : Stands (more :: below) :=
        ⟨fun other h => hslots other (List.mem_cons_of_mem _ h), hbelow⟩
      obtain ⟨y, after, hstep, hafter, hdeep⟩ :=
        descend?_spec hroom (hslots slot List.mem_cons_self) hpath
      rw [ahead_cons, listedSlots_cons, List.append_assoc] at hahead
      rw [ahead_cons, hahead] at hafter
      obtain ⟨rfl, hrest⟩ := List.cons.inj hafter
      have hnext : walk.next = (some y, ⟨after, walk.remaining - 1⟩) := by
        unfold next
        rw [hcons]
        simp only [hstep]
      have hremaining := h.remaining
      rw [List.length_cons] at hremaining
      rw [hnext]
      exact ⟨rfl, hdeep, hrest, by show walk.remaining - 1 = _; omega⟩

/-- A walk at its end stays there. -/
theorem next_done (h : Holds walk []) : Holds walk.next.2 [] := by
  unfold next
  rw [h.used_up]
  exact ⟨trivial, rfl, h.remaining⟩

end Walk

end PersistentCollections.HashMap
