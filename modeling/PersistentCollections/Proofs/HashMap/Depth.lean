/-
How deep a trie is, and at which depths digits are read.

A depth is counted from the root, with no regard to how many digits a
hash has: the digit at a depth is the hash shifted by five bits for each
level above it (`digitAt`). A call with a key reads a digit in every
branch that the digits of its hash lead to; and an insertion that meets
another hash, in an entry or in a bucket, compares the digits of the two
from there on, as long as they agree (`Reads`). Where everything stands
on the path of its hash, no digit is read below depth 12, which has the
last of the thirteen (`Node.Placed.reads_le`), and a walk has no more
than 14 nodes on its way (`Walk.Fits`).
-/
import PersistentCollections.HashMap.Walk
import PersistentCollections.Proofs.HashMap.Placed
import PersistentCollections.Proofs.HashMap.Walk

namespace PersistentCollections.HashMap

open Node (At split_cells)

variable {κ ν : Type} {hash h h' : UInt64} {path : List Nat}
  {start depth m n : Nat}

-- ====================================================== digits by depth

/-- The digit of a hash at a depth. -/
def digitAt (hash : UInt64) (depth : Nat) : Nat :=
  (hash.toNat >>> (digitBits * depth)) % digitCount

/-- The digits of a hash above a depth. -/
def digitsTo (hash : UInt64) (depth : Nat) : List Nat :=
  (List.range depth).map (digitAt hash)

@[simp] theorem length_digitsTo (hash : UInt64) (depth : Nat) :
    (digitsTo hash depth).length = depth := by
  simp [digitsTo]

theorem digitsTo_succ (hash : UInt64) (depth : Nat) :
    digitsTo hash (depth + 1)
      = digitsTo hash depth ++ [digitAt hash depth] := by
  unfold digitsTo
  rw [List.range_succ, List.map_append]
  rfl

/-- A branch with so many digits left reads the digit at its depth. -/
theorem digit_eq_digitAt (hash : UInt64) (hdepth : depth ≤ digitsPerHash) :
    digit hash (digitsPerHash - depth) = digitAt hash depth := by
  unfold digit digitAt
  rw [Nat.sub_sub_self hdepth]

theorem digits_eq_digitsTo (hash : UInt64) :
    digits hash = digitsTo hash digitsPerHash := by
  unfold digits digitsTo
  apply List.map_congr_left
  intro depth hdepth
  exact digit_eq_digitAt hash (Nat.le_of_lt (List.mem_range.mp hdepth))

theorem digitsTo_prefix (hash : UInt64) (hle : m ≤ n) :
    digitsTo hash m <+: digitsTo hash n := by
  induction hle with
  | refl => exact List.prefix_refl _
  | step _ ih =>
      rw [digitsTo_succ]
      exact ih.trans (List.prefix_append _ _)

/-- The digits of a hash lead to it. -/
theorem leads_digitsTo (hash : UInt64) (hdepth : depth ≤ digitsPerHash) :
    Leads (digitsTo hash depth) hash := by
  unfold Leads
  rw [digits_eq_digitsTo]
  exact digitsTo_prefix hash hdepth

/-- A path to a hash has the digits of the hash. -/
theorem Leads.eq_digitsTo (hleads : Leads path hash) :
    path = digitsTo hash path.length := by
  have hdigits := leads_digitsTo hash hleads.length_le
  refine List.IsPrefix.eq_of_length ?_ (length_digitsTo _ _).symm
  exact List.prefix_of_prefix_length_le hleads hdigits (by simp)

/-- Hashes that agree up to a depth have one path down to it. -/
theorem digitsTo_congr (hagree : ∀ d < depth, digitAt h d = digitAt h' d) :
    digitsTo h depth = digitsTo h' depth :=
  List.map_congr_left fun d hd => hagree d (List.mem_range.mp hd)

/-- Different hashes part at one of their thirteen digits. -/
theorem eq_of_digitsTo (hdepth : digitsPerHash ≤ depth)
    (hsame : digitsTo h depth = digitsTo h' depth) : h = h' := by
  have hwhole := digitsTo_prefix h hdepth
  have hwhole' := digitsTo_prefix h' hdepth
  rw [hsame] at hwhole
  apply digits_injective
  rw [digits_eq_digitsTo, digits_eq_digitsTo]
  exact List.IsPrefix.eq_of_length
    (List.prefix_of_prefix_length_le hwhole hwhole' (by simp)) (by simp)

-- ============================================================== comparing

/-- The depths at which the digits of two hashes are compared: from
`start` on, one after the other, as long as they agree. -/
inductive Compares (h h' : UInt64) (start : Nat) : Nat → Prop
  /-- The first digits that are compared. -/
  | first : Compares h h' start start
  /-- The digits behind those that agree. -/
  | behind {depth : Nat} : Compares h h' start depth →
      digitAt h depth = digitAt h' depth → Compares h h' start (depth + 1)

/-- Hashes that are compared agree on all digits above. -/
theorem Compares.agree (hcompares : Compares h h' start depth)
    (hagree : digitsTo h start = digitsTo h' start) :
    digitsTo h depth = digitsTo h' depth := by
  induction hcompares with
  | first => exact hagree
  | behind _ hsame ih => rw [digitsTo_succ, digitsTo_succ, ih, hsame]

/-- Different hashes that agree above the start are not compared below
their last digit. -/
theorem Compares.le (hcompares : Compares h h' start depth)
    (hne : h ≠ h') (hagree : digitsTo h start = digitsTo h' start) :
    depth ≤ 12 := by
  apply Nat.le_of_not_lt
  intro hdeep
  exact hne (eq_of_digitsTo hdeep (hcompares.agree hagree))

/-- What it takes to keep two hashes apart below a depth. -/
structure Parts (κ ν : Type) (h h' : UInt64) (start : Nat) : Prop where
  /-- No digits are compared below the last ones. -/
  compares : ∀ {depth}, Compares h h' start depth → depth ≤ 12
  /-- Two slots get a node, -/
  fork : ∀ slot other : Slot κ ν,
    (Node.fork? h slot h' other (digitsPerHash - start)).isSome
  /-- and so do two entries. -/
  ofTwo : ∀ (key : κ) (value : ν) (otherKey : κ) (otherValue : ν),
    (Node.ofTwo? (digitsPerHash - start) h key value h' otherKey
      otherValue).isSome

/-- Different hashes that agree on all digits above a depth can be kept
apart there. -/
theorem parts_of_agree (hne : h ≠ h')
    (hagree : ∀ d < start, digitAt h d = digitAt h' d) :
    Parts κ ν h h' start := by
  have hsame := digitsTo_congr hagree
  have hstart : start < digitsPerHash := by
    apply Nat.lt_of_not_le
    intro hdeep
    exact hne (eq_of_digitsTo hdeep hsame)
  have hleads := leads_digitsTo h (Nat.le_of_lt hstart)
  have hleads' : Leads (digitsTo h start) h' := by
    rw [hsame]
    exact leads_digitsTo h' (Nat.le_of_lt hstart)
  have hlen : (digitsTo h start).length + (digitsPerHash - start)
      = digitsPerHash := by
    rw [length_digitsTo]
    omega
  constructor
  case compares => exact fun hcompares => hcompares.le hne hsame
  case fork =>
      intro slot other
      obtain ⟨child, hchild, -⟩ := fork?_placed hne hleads hleads' hlen
      rw [hchild]
      rfl
  case ofTwo =>
      intro key value otherKey otherValue
      obtain ⟨child, hchild, -⟩ :=
        ofTwo?_placed key value otherKey otherValue hleads hleads' hlen
      rw [hchild]
      rfl

-- ================================================================ reading

/-- The node that a path of digits leads to from another one. -/
def Node.at? : Node κ ν → List Nat → Option (Node κ ν)
  | node, [] => some node
  | node, d :: path =>
    match node.slot? d with
    | some (some (.node child)) => child.at? path
    | _ => none

/-- Whether a node reads a digit. -/
def Node.readsDigit : Node κ ν → Bool
  | .bucket _ _ => false
  | _ => true

/-- The depths at which calls with a key of hash `h` read a digit. -/
inductive Reads (h : UInt64) (root : Node κ ν) : Nat → Prop
  /-- A branch that the digits of the hash lead to. -/
  | branch {depth : Nat} {node : Node κ ν} :
      root.at? (digitsTo h depth) = some node → node.readsDigit = true →
      Reads h root depth
  /-- An entry of another hash, met by an insertion. -/
  | entry {depth d : Nat} {node : Node κ ν} {stored : UInt64} {key : κ}
      {value : ν} :
      root.at? (digitsTo h depth) = some node →
      node.slot? (digitAt h depth) = some (some (.entry stored key value)) →
      stored ≠ h → Compares stored h (depth + 1) d → Reads h root d
  /-- A bucket of another hash, met by an insertion. -/
  | bucket {depth d : Nat} {stored : UInt64} {entries : List (κ × ν)} :
      root.at? (digitsTo h depth) = some (.bucket stored entries) →
      stored ≠ h → Compares stored h depth d → Reads h root d

variable {node below root : Node κ ν} {slot : Slot κ ν}
  {cells : List (Option (Slot κ ν))} {d : Nat}

/-- A slot that a branch has for a digit is in the cell of the digit. -/
theorem Node.Lays.at_of_slot? (lays : node.Lays cells)
    (hslot : node.slot? d = some (some slot)) : At cells d slot := by
  cases hcell : cells[d]? with
  | some cell =>
      obtain ⟨before, after, rfl, rfl⟩ := split_cells hcell
      rw [lays.slot?_eq] at hslot
      cases hslot
      exact at_middle
  | none =>
      cases lays with
      | packed hlen htaken =>
          have hfree := htaken d
          unfold uses at hfree
          rw [hcell] at hfree
          dsimp only [Node.slot?] at hslot
          rw [hfree] at hslot
          cases hslot
      | spread =>
          dsimp only [Node.slot?] at hslot
          rw [hcell] at hslot
          cases hslot

/-- What stands in a slot of a node that is in its place. -/
theorem Node.Placed.slot? (hplaced : node.Placed path)
    (hslot : node.slot? d = some (some slot)) :
    slot.Placed (path ++ [d]) := by
  cases hplaced with
  | bucket => cases hslot
  | branch room lays entries children =>
      exact slots_placed entries children d slot (lays.at_of_slot? hslot)

/-- The nodes below a node that is in its place are in theirs. -/
theorem Node.Placed.at? {more : List Nat} (hplaced : node.Placed path)
    (hbelow : node.at? more = some below) : below.Placed (path ++ more) := by
  induction more generalizing node path with
  | nil =>
      cases hbelow
      rw [List.append_nil]
      exact hplaced
  | cons d more ih =>
      unfold Node.at? at hbelow
      split at hbelow
      case h_1 child hslot =>
          have hchild := hplaced.slot? hslot
          rw [List.append_cons]
          exact ih (placed_node.mp hchild) hbelow
      case h_2 => cases hbelow

/-- A branch has a digit to read. -/
theorem Node.Placed.room (hplaced : node.Placed path)
    (hreads : node.readsDigit = true) : path.length ≤ 12 := by
  cases hplaced with
  | bucket => cases hreads
  | branch room => exact Nat.le_of_lt_succ room

/-- Where a path has all digits stands a bucket of the hash that they
spell. -/
theorem Node.Placed.bucket_of_length (hplaced : node.Placed path)
    (hlen : path.length = 13) :
    ∃ stored entries, node = .bucket stored entries
      ∧ path = digits stored := by
  cases hplaced with
  | @bucket _ stored entries leads =>
      refine ⟨stored, entries, rfl, leads.eq_of_length ?_⟩
      rw [hlen, length_digits]
  | branch room =>
      have hdigits : digitsPerHash = 13 := rfl
      omega

/-- No digit is read below the last one. -/
theorem Node.Placed.reads_le (hplaced : root.Placed [])
    (hreads : Reads h root depth) : depth ≤ 12 := by
  cases hreads with
  | branch hnode hreads =>
      have hroom := (hplaced.at? hnode).room hreads
      simpa using hroom
  | entry hnode hslot hne hcompares =>
      have hleads : Leads _ _ := (hplaced.at? hnode).slot? hslot
      rw [List.nil_append, ← digitsTo_succ] at hleads
      have hsame := hleads.eq_digitsTo
      rw [length_digitsTo] at hsame
      exact hcompares.le hne hsame.symm
  | bucket hnode hne hcompares =>
      have hbelow := hplaced.at? hnode
      rw [List.nil_append] at hbelow
      cases hbelow with
      | bucket leads =>
          have hsame := leads.eq_digitsTo
          rw [length_digitsTo] at hsame
          exact hcompares.le hne hsame.symm
      | branch _ lays => cases lays

-- ================================================================ walking

namespace Walk

variable {room room' : Nat} {way : List (List (Slot κ ν))}
  {walk : Walk κ ν}

/-- A slot that is met with so many nodes on the way to it. -/
def Met (depth : Nat) : Slot κ ν → Prop
  | .entry _ _ _ => True
  | .node child => ∃ path, child.Placed path ∧ path.length = depth

/-- Nodes on a way that lie one below the other, none of them deeper than
a hash has digits. -/
structure Fits (way : List (List (Slot κ ν))) : Prop where
  length : way.length ≤ 14
  met : ∀ slots below, slots :: below <:+ way →
    ∀ slot ∈ slots, Met (below.length + 1) slot

theorem Fits.of_suffix {below : List (List (Slot κ ν))} (h : Fits way)
    (hbelow : below <:+ way) : Fits below where
  length := Nat.le_trans hbelow.length_le h.length
  met := fun slots rest hsuffix => h.met slots rest (hsuffix.trans hbelow)

/-- The slots of a node are met with it on the way. -/
theorem met_slots (hplaced : node.Placed path) :
    ∀ slot ∈ node.slots, Met (path.length + 1) slot := by
  intro slot hslot
  cases hplaced with
  | bucket =>
      unfold Node.slots at hslot
      obtain ⟨x, -, rfl⟩ := List.mem_map.mp hslot
      trivial
  | branch room lays entries children =>
      rw [lays.slots_eq] at hslot
      obtain ⟨d, hd⟩ := at_of_mem_inUse hslot
      cases slot with
      | entry => trivial
      | node child => exact ⟨path ++ [d], children d child hd, by simp⟩

/-- One more node fits on a way, if the slots of it are met there. -/
theorem Fits.cons {slots : List (Slot κ ν)} (h : Fits way)
    (hlength : way.length ≤ 13)
    (hslots : ∀ slot ∈ slots, Met (way.length + 1) slot) :
    Fits (slots :: way) where
  length := Nat.succ_le_succ hlength
  met := by
    intro other below hsuffix slot hslot
    rcases List.suffix_cons_iff.mp hsuffix with heq | hsuffix
    · cases heq
      exact hslots slot hslot
    · exact h.met other below hsuffix slot hslot

/-- Going down to the first entry of a slot leaves a way that fits, and
needs no more room than for 14 nodes. -/
theorem descend?_fits (hmet : Met way.length slot) (h : Fits way)
    (hroom : 14 ≤ room + way.length) (hroom' : 14 ≤ room' + way.length) :
    descend? room slot way = descend? room' slot way
      ∧ ∀ x after, descend? room slot way = some (x, after) →
        Fits after := by
  induction room generalizing room' slot way with
  | zero =>
      cases slot with
      | entry stored key value =>
          refine ⟨by unfold descend?; rfl, fun x after hdescend => ?_⟩
          cases hdescend
          exact h
      | node child =>
          -- 14 nodes are on the way, and none lies below them
          obtain ⟨path, hplaced, hlen⟩ := hmet
          have hdeep := hplaced.length_le
          have hdigits : digitsPerHash = 13 := rfl
          omega
  | succ room ih =>
      cases slot with
      | entry stored key value =>
          refine ⟨by unfold descend?; rfl, fun x after hdescend => ?_⟩
          cases hdescend
          exact h
      | node child =>
          obtain ⟨path, hplaced, hlen⟩ := hmet
          have hdeep := hplaced.length_le
          have hdigits : digitsPerHash = 13 := rfl
          have hslots := met_slots hplaced
          rw [hlen] at hslots
          obtain ⟨room', rfl⟩ :=
            Nat.exists_eq_succ_of_ne_zero (show room' ≠ 0 by omega)
          unfold descend?
          cases hchild : child.slots with
          | nil =>
              refine ⟨rfl, fun x after hdescend => ?_⟩
              cases hdescend
          | cons slot rest =>
              rw [hchild] at hslots
              have hway : Fits (rest :: way) :=
                h.cons (by omega) fun other hother =>
                  hslots other (List.mem_cons_of_mem _ hother)
              exact ih (hslots slot List.mem_cons_self) hway
                (by rw [List.length_cons]; omega)
                (by rw [List.length_cons]; omega)

theorem dropUsed_suffix (way : List (List (Slot κ ν))) :
    dropUsed way <:+ way := by
  induction way with
  | nil => exact List.suffix_refl _
  | cons slots below ih =>
      cases slots with
      | nil => exact ih.trans (List.suffix_cons _ _)
      | cons slot rest => exact List.suffix_refl _

/-- The step of a walk that has room for so many nodes. -/
def nextWithin (room : Nat) (walk : Walk κ ν) :
    Option (κ × ν) × Walk κ ν :=
  match dropUsed walk.path with
  | (slot :: rest) :: below =>
    match descend? (room - (below.length + 1)) slot (rest :: below) with
    | some (entry, path) => (some entry, ⟨path, walk.remaining - 1⟩)
    | none => (none, walk)
  | path => (none, { walk with path })

theorem nextWithin_walkRoom (walk : Walk κ ν) :
    walk.nextWithin walkRoom = walk.next := rfl

/-- A step leaves a way that fits, and is the same whatever more room
there is. -/
theorem next_fits (h : Fits walk.path) :
    Fits walk.next.2.path
      ∧ ∀ room, 14 ≤ room → walk.nextWithin room = walk.next := by
  have hdropped := h.of_suffix (dropUsed_suffix walk.path)
  rw [← nextWithin_walkRoom]
  unfold nextWithin
  rcases dropUsed_cases walk.path with hnil | ⟨slot, rest, below, hcons⟩
  · rw [hnil] at hdropped ⊢
    exact ⟨hdropped, fun _ _ => rfl⟩
  · rw [hcons] at hdropped ⊢
    have hmet := hdropped.met _ _ (List.suffix_refl _)
    have hway : Fits (rest :: below) :=
      (hdropped.of_suffix (List.suffix_cons _ _)).cons
        (Nat.le_of_succ_le_succ hdropped.length)
        fun other hother => hmet other (List.mem_cons_of_mem _ hother)
    have hmore : ∀ room, 14 ≤ room →
        14 ≤ room - (below.length + 1) + (rest :: below).length := by
      intro room hroom
      rw [List.length_cons]
      omega
    have hfirst : Met (rest :: below).length slot :=
      hmet slot List.mem_cons_self
    have hdescend := fun room hroom => descend?_fits hfirst hway
      (hmore walkRoom (by decide)) (hmore room hroom)
    constructor
    · obtain ⟨-, hfits⟩ := hdescend 14 (Nat.le_refl _)
      dsimp only
      split
      case h_1 x after hstep => exact hfits x after hstep
      case h_2 => exact h
    · intro room hroom
      dsimp only
      rw [(hdescend room hroom).1]

/-- A walk that fits goes on to fit. -/
theorem Fits.skip (h : Fits walk.path) (steps : Nat) :
    Fits (Steps.skip next steps walk).path := by
  induction steps generalizing walk with
  | zero => exact h
  | succ steps ih => exact ih (next_fits h).1

theorem fits_nil : Fits ([] : List (List (Slot κ ν))) := by
  refine ⟨Nat.zero_le _, fun slots below hsuffix => ?_⟩
  cases List.suffix_nil.mp hsuffix

/-- A walk over a trie in its place fits from the start on. -/
theorem start_fits (hplaced : root.Placed []) (count : Nat) :
    Fits (Walk.start (some root) count).path :=
  fits_nil.cons (Nat.zero_le _) (met_slots hplaced)

end Walk

end PersistentCollections.HashMap
