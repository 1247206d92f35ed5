/-
Putting a run into a tree keeps the tree sound and puts the elements of
the run at the position.

What comes back in place of a node is a row of one or two nodes of its
height (`Grown.nodes`); a parent that takes them in place of one child
has at most one child more, so it fits or is cut into halves that fit.
The short way of a full leaf rests on a count: where the size of a
packed branch is a multiple of 32, so is the size of its last child,
and a last child that is not full has room for 32 more. It asks for the
room of the branch it starts from, and words can count that room unless
the branch is tall; then it has one full child and elements beside it,
which makes a crowd (`size_of_tall`).
-/
import PersistentCollections.Proofs.Sequence.Access
import PersistentCollections.Proofs.Sequence.Overflow
import PersistentCollections.Sequence.Node.Insert

namespace PersistentCollections.Sequence.Node

variable {α : Type}

-- ================================================= one node, or two

/-- The nodes that stand in place of one. -/
def Grown.nodes : Grown α → List (Node α)
  | .one node => [node]
  | .two left right => [left, right]

theorem Grown.nodes_ne (grown : Grown α) : grown.nodes ≠ [] := by
  cases grown <;> simp [Grown.nodes]

theorem Grown.length_nodes (grown : Grown α) : grown.nodes.length ≤ 2 := by
  cases grown <;> simp [Grown.nodes]

theorem Grown.level_two {height : Nat} {left right : Node α}
    (hl : Sound height left) (hr : Sound height right) :
    Level height (left.elements ++ right.elements)
      (Grown.two left right).nodes :=
  (Level.one hl).append (Level.one hr)

/-- Children of one height make a branch, or two if they are too many
for one. -/
theorem divide?_spec {height : Nat} {items : List α}
    {children : List (Node α)} (h : Level height items children)
    (hne : children ≠ []) (hwide : Tall height → 2 ≤ children.length)
    (hfits : children.length ≤ 2 * mostWidth) :
    ∃ grown, divide? children = some grown
      ∧ Level (height + 1) items grown.nodes := by
  unfold divide?
  split
  case isTrue hle =>
    obtain ⟨node, hnode, hsound, rfl⟩ := branch?_spec h hne hwide hle
    refine ⟨.one node, ?_, Level.one hsound⟩
    rw [hnode, Option.map_some]
  case isFalse hover =>
    obtain ⟨left, right, hl, hr, hlevel⟩ :=
      branch?_halves h (Nat.lt_of_not_le hover) hfits
    refine ⟨.two left right, ?_, hlevel⟩
    simp only [hl, hr, Option.bind_eq_bind, Option.bind_some,
      Option.pure_def]

-- ========================================================== at a leaf

/-- A leaf takes in a run of at most its own width. -/
theorem insertIntoLeaf?_spec {values items : List α} {index : Nat}
    (hvalues : values.length ≤ mostWidth) (hindex : index ≤ values.length)
    (hne : items ≠ []) (hitems : items.length ≤ mostWidth) :
    ∃ grown, insertIntoLeaf? values index items = some grown
      ∧ Level 0 (values.take index ++ items ++ values.drop index)
          grown.nodes := by
  have hmost : mostWidth = 44 := rfl
  have hleast : leastWidth = 22 := rfl
  have hpos := List.length_pos_iff.mpr hne
  have hlen : (values.take index ++ items ++ values.drop index).length
      = values.length + items.length := by
    rw [List.length_append, List.length_append, List.length_take,
      List.length_drop]
    omega
  have hleaf : ∀ run : List α, 0 < run.length → run.length ≤ mostWidth →
      Sound 0 (leaf run) := fun run hp hf =>
    .leaf (List.ne_nil_of_length_pos hp) hf
  unfold insertIntoLeaf?
  rw [Run.insert?_eq hindex]
  split
  case isTrue hfits =>
    refine ⟨_, rfl, ?_⟩
    have := Level.one (hleaf _ (by omega) (hlen ▸ hfits))
    rwa [elements] at this
  case isFalse hover =>
    simp only [Bool.and_eq_true, decide_eq_true_eq, beq_iff_eq]
    split
    case isTrue hend =>
      obtain ⟨⟨hitem, hval⟩, rfl⟩ := hend
      refine ⟨_, rfl, ?_⟩
      rw [List.take_length, List.drop_length, List.append_nil]
      have := Grown.level_two (hleaf values (by omega) hvalues)
        (hleaf items hpos hitems)
      rwa [elements, elements] at this
    case isFalse =>
      split
      case isTrue hstart =>
        obtain ⟨⟨hitem, hval⟩, rfl⟩ := hstart
        refine ⟨_, rfl, ?_⟩
        rw [List.take_zero, List.nil_append, List.drop_zero]
        have := Grown.level_two (hleaf items hpos hitems)
          (hleaf values (by omega) hvalues)
        rwa [elements, elements] at this
      case isFalse =>
        refine ⟨_, rfl, ?_⟩
        obtain ⟨hleft, hright⟩ := Run.halves_length
          (values.take index ++ items ++ values.drop index)
        have := Grown.level_two
          (hleaf (Run.halves (values.take index ++ items
            ++ values.drop index)).1 (by omega) (by omega))
          (hleaf (Run.halves (values.take index ++ items
            ++ values.drop index)).2 (by omega) (by omega))
        rwa [elements, elements, Run.halves_append] at this

-- =========================================== a full leaf at the end

/-- A full leaf under branches of one child, up to a height whose room
words can count. -/
theorem raiseTo_leaf {items : List α} (height : Nat)
    (h : items.length = packedWidth) (hroom : capacity height < wordSize) :
    Sound height ((leaf items).raiseTo height)
      ∧ ((leaf items).raiseTo height).elements = items
      ∧ ((leaf items).raiseTo height).isRelaxed = false := by
  have hleaf : Sound 0 (leaf items) :=
    .leaf (List.ne_nil_of_length_pos (by rw [h]; decide))
      (by rw [h]; exact packedWidth_le_mostWidth)
  have hsize : (leaf items).size ≤ capacity 0 := by
    rw [Node.size, h]
    decide
  rw [← Nat.zero_add height] at hroom
  obtain ⟨hsound, helem, hrel⟩ := raise_spec height hleaf hsize rfl hroom
  rw [Nat.zero_add] at hsound
  rw [elements] at helem
  unfold raiseTo
  rw [Node.height, Nat.sub_zero]
  exact ⟨hsound, helem, hrel⟩

theorem appendLeafLast_cons_cons {shift : Nat} {first next newLeaf : Node α}
    {rest : List (Node α)} :
    appendLeafLast shift (first :: next :: rest) newLeaf
      = (appendLeafLast shift (next :: rest) newLeaf).map (first :: ·) := by
  rw [appendLeafLast.eq_3]
  cases appendLeafLast shift (next :: rest) newLeaf <;> rfl

/-- Appending a leaf below a row looks at the last node alone. -/
theorem appendLeafLast_concat (shift : Nat) (before : List (Node α))
    (last newLeaf : Node α) :
    appendLeafLast shift (before ++ [last]) newLeaf
      = (appendLeafLast shift [last] newLeaf).map (before ++ ·) := by
  induction before with
  | nil =>
      rw [List.nil_append]
      cases appendLeafLast shift [last] newLeaf <;> rfl
  | cons first before ih =>
      have hne : ∃ next rest, before ++ [last] = next :: rest := by
        cases before with
        | nil => exact ⟨last, [], rfl⟩
        | cons next rest => exact ⟨next, rest ++ [last], rfl⟩
      obtain ⟨next, rest, hnext⟩ := hne
      rw [List.cons_append, hnext, appendLeafLast_cons_cons, ← hnext, ih]
      cases appendLeafLast shift [last] newLeaf <;> rfl

theorem capacity_succ (height : Nat) :
    capacity (height + 1) = capacity height * packedWidth := by
  unfold capacity
  rw [Nat.add_mul (height + 1), Nat.shiftLeft_add, Nat.shiftLeft_eq]
  rfl

theorem packedWidth_le_capacity (height : Nat) :
    packedWidth ≤ capacity height := by
  have hroom : capacity 0 = packedWidth := rfl
  rw [← hroom]
  exact capacity_mono (Nat.zero_le _)

/-- The sizes of a row whose nodes but the last are full. -/
theorem sum_size_concat {room : Nat} {before : List (Node α)}
    {last : Node α} (h : ∀ child ∈ before, child.size = room) :
    SizeTable.sum ((before ++ [last]).map size)
      = before.length * room + last.size := by
  induction before with
  | nil => simp
  | cons first before ih =>
      rw [List.cons_append, List.map_cons, SizeTable.sum_cons,
        h first List.mem_cons_self,
        ih fun c hc => h c (List.mem_cons_of_mem _ hc), List.length_cons,
        Nat.add_mul]
      omega

/-- The last child of a packed branch whose size is a multiple of 32:
either all slots are taken by full children, or the last child is full
and there is another slot, or it has room for 32 elements more. -/
theorem room_at_end {height : Nat} {before : List (Node α)}
    {last : Node α} (hfits : (before ++ [last]).length ≤ packedWidth)
    (hfull : ∀ child ∈ before, child.size = capacity height)
    (hlast : last.size ≤ capacity height)
    (halign : SizeTable.sum ((before ++ [last]).map size) % packedWidth = 0)
    (hroom : SizeTable.sum ((before ++ [last]).map size)
      ≠ capacity (height + 1)) :
    last.size % packedWidth = 0
      ∧ (last.size = capacity height → before.length + 2 ≤ packedWidth)
      ∧ (last.size ≠ capacity height
        → last.size + packedWidth ≤ capacity height) := by
  rw [sum_size_concat hfull] at halign hroom
  rw [capacity_succ] at hroom
  obtain ⟨rest, hrest⟩ : ∃ rest, capacity height = packedWidth * rest :=
    ⟨1 <<< (height * levelBits), by
      unfold capacity
      rw [Nat.add_mul height, Nat.shiftLeft_add, Nat.shiftLeft_eq,
        Nat.mul_comm]
      rfl⟩
  rw [List.length_append, List.length_singleton] at hfits
  have hmod : last.size % packedWidth = 0 := by
    rw [hrest, Nat.mul_left_comm, Nat.mul_add_mod] at halign
    exact halign
  refine ⟨hmod, ?_, ?_⟩
  · intro heq
    rw [heq, Nat.mul_comm (capacity height)] at hroom
    rcases Nat.lt_or_ge (before.length + 1) packedWidth with hlt | hge
    · exact hlt
    · have hlen : packedWidth = before.length + 1 := by omega
      rw [hlen, Nat.add_mul, Nat.one_mul] at hroom
      exact absurd rfl hroom
  · intro hne
    obtain ⟨part, hpart⟩ := Nat.dvd_of_mod_eq_zero hmod
    have hlt : part < rest := by
      apply Nat.lt_of_mul_lt_mul_left (a := packedWidth)
      omega
    have := Nat.mul_le_mul_left packedWidth (Nat.succ_le_of_lt hlt)
    rw [Nat.mul_succ] at this
    omega

/-- A leaf that is not empty and holds a multiple of 32 elements is
full. -/
theorem full_of_aligned {size : Nat} (hpos : 0 < size)
    (hsize : size ≤ capacity 0) (hmod : size % packedWidth = 0) :
    size = capacity 0 := by
  have hroom : capacity 0 = packedWidth := rfl
  obtain ⟨part, hpart⟩ := Nat.dvd_of_mod_eq_zero hmod
  rw [hroom] at hsize ⊢
  cases part with
  | zero => omega
  | succ part =>
      rw [Nat.mul_succ] at hpart
      omega

/-- A packed row whose last node is full takes another node of at most
that size. -/
theorem packs_snoc {room : Nat} {before : List (Node α)}
    {last next : Node α} (h : packs room (before ++ [last]))
    (hfull : last.size = room) (hsize : next.size ≤ room)
    (hrel : next.isRelaxed = false) :
    packs room (before ++ [last, next]) := by
  obtain ⟨hbefore, -, hlast⟩ := (packs_concat before last).mp h
  have hsplit : before ++ [last, next] = (before ++ [last]) ++ [next] := by
    simp
  rw [hsplit, packs_concat]
  refine ⟨?_, hsize, hrel⟩
  intro child hmem
  rcases List.mem_append.mp hmem with hmem | hmem
  · exact hbefore child hmem
  · rw [List.mem_singleton.mp hmem]
    exact ⟨hfull, hlast⟩

/-- A row of children that a packed branch can hold. -/
structure Row (height : Nat) (items : List α) (children : List (Node α)) :
    Prop where
  nonempty : children ≠ []
  fits : children.length ≤ packedWidth
  packs : packs (capacity height) children
  level : Level height items children

/-- The packed branch over a row, where words can count its room. -/
theorem Row.packed {height : Nat} {items : List α}
    {children : List (Node α)} (h : Row height items children)
    (hwords : capacity (height + 1) < wordSize) :
    Sound (height + 1)
      (packed ((height + 1) * levelBits) items.length children) := by
  rw [← h.level.elements_eq, ← sum_size_of_sound h.level.sound]
  exact .packed h.nonempty h.fits
    (absurd · (Nat.not_le_of_lt hwords)) h.packs h.level.sound

/-- A node takes in a full leaf and stays one packed node. -/
structure TakesLeaf (height : Nat) (items : List α) (node : Node α)
    (grown : Grown α) : Prop where
  takes : node.appendLeaf (leaf items) = .ok grown
  level : Level height (node.elements ++ items) grown.nodes
  whole : node.size ≠ capacity height
    → ∃ single, grown = .one single ∧ single.isRelaxed = false

/-- A row takes in a full leaf at its end, if it has room and its last
child takes it in where it is not full. -/
theorem appendLeafLast_spec {height : Nat} {items held : List α}
    {before : List (Node α)} {last : Node α}
    (hitems : items.length = packedWidth)
    (hwords : capacity height < wordSize)
    (hrow : Row height held (before ++ [last]))
    (halign : held.length % packedWidth = 0)
    (hroom : held.length ≠ capacity (height + 1))
    (hlower : height ≠ 0 → last.size % packedWidth = 0 →
      ∃ grown, TakesLeaf height items last grown) :
    ∃ children,
      appendLeafLast ((height + 1) * levelBits) (before ++ [last])
          (leaf items) = .ok children
        ∧ Row height (held ++ items) children := by
  obtain ⟨hbefore, hsize, hrel⟩ := (packs_concat before last).mp hrow.packs
  have hsum := sum_size_of_sound hrow.level.sound
  rw [hrow.level.elements_eq] at hsum
  rw [← hsum] at halign hroom
  obtain ⟨hmod, hslot, hspace⟩ := room_at_end hrow.fits
    (fun c hc => (hbefore c hc).1) hsize halign hroom
  obtain ⟨hleft, hright⟩ := hrow.level.of_append
  obtain ⟨hlast, helast⟩ := hright.sound_one
  have hheld : held = elementsOf before ++ last.elements := by
    rw [← hrow.level.elements_eq, elementsOf_append, helast]
  have hlevel : (height + 1) * levelBits / levelBits = height + 1 :=
    Nat.mul_div_cancel _ (by decide)
  rw [appendLeafLast_concat, appendLeafLast]
  simp only [hlevel, Nat.add_sub_cancel, Bool.or_eq_true, beq_iff_eq]
  split
  case isTrue hdone =>
    -- a leaf that is not empty and holds a multiple of 32 is full
    have hfull : last.size = capacity height := by
      rcases hdone with hzero | hfull
      · have hzero : height = 0 := by omega
        subst hzero
        exact full_of_aligned hlast.size_pos hsize hmod
      · exact hfull
    obtain ⟨hraised, helem, hraisedrel⟩ := raiseTo_leaf height hitems hwords
    have hraisedsize : ((leaf items).raiseTo height).size
        ≤ capacity height := by
      rw [hraised.size_eq, helem, hitems]
      exact packedWidth_le_capacity height
    refine ⟨before ++ [last, (leaf items).raiseTo height], rfl, by simp,
      ?_, packs_snoc hrow.packs hfull hraisedsize hraisedrel, ?_⟩
    · rw [List.length_append]
      exact hslot hfull
    · have := hleft.append ((Level.one hlast).append (Level.one hraised))
      rwa [helem, ← List.append_assoc, ← hheld] at this
  case isFalse hmore =>
    rw [not_or] at hmore
    obtain ⟨hheight, hpart⟩ := hmore
    obtain ⟨grown, htakes, hgrown, hwhole⟩ := hlower (by omega) hmod
    obtain ⟨single, rfl, hsinglerel⟩ := hwhole hpart
    obtain ⟨hsingle, helem⟩ := hgrown.sound_one
    have hsinglesize : single.size ≤ capacity height := by
      have := hspace hpart
      rwa [hsingle.size_eq, helem, List.length_append, hitems,
        ← hlast.size_eq]
    rw [htakes]
    refine ⟨before ++ [single], rfl, by simp, ?_, ?_, ?_⟩
    · have := hrow.fits
      rwa [List.length_append] at this ⊢
    · exact (packs_concat before single).mpr
        ⟨hbefore, hsinglesize, hsinglerel⟩
    · have := hleft.append (Level.one hsingle)
      rwa [helem, ← List.append_assoc, ← hheld] at this

/-- A packed branch whose room words can count compares its size with
that room. -/
theorem appendLeaf_packed {height size : Nat} {children : List (Node α)}
    (newLeaf : Node α) (hwords : capacity (height + 1) < wordSize) :
    (packed ((height + 1) * levelBits) size children).appendLeaf newLeaf
      = if size = capacity (height + 1) then
          .ok (.two (packed ((height + 1) * levelBits) size children)
            (newLeaf.raiseTo (height + 1)))
        else
          (appendLeafLast ((height + 1) * levelBits) children newLeaf).map
            fun row => .one (packed ((height + 1) * levelBits)
              (size + packedWidth) row) := by
  have hlevel : (height + 1) * levelBits / levelBits = height + 1 :=
    Nat.mul_div_cancel _ (by decide)
  have hlow : capacity height < wordSize :=
    Nat.lt_of_le_of_lt (capacity_mono (Nat.le_succ _)) hwords
  have hshift : 1 <<< ((height + 1) * levelBits) = capacity height := rfl
  rw [appendLeaf, hlevel, hshift, inWord_of_lt _ hlow]
  show (do
    let most ← inWord "multiply" (capacity height * packedWidth)
    if size == most then _ else _) = _
  rw [← capacity_succ, inWord_of_lt _ hwords]
  show (if size == capacity (height + 1) then _ else _) = _
  simp only [beq_iff_eq]
  split
  · rfl
  · cases appendLeafLast ((height + 1) * levelBits) children newLeaf <;> rfl

/-- A tall packed branch of which words can count one full child stops
where it multiplies. -/
theorem appendLeaf_past {height size : Nat} {children : List (Node α)}
    (newLeaf : Node α) (hlow : capacity height < wordSize)
    (htall : Tall height) :
    (packed ((height + 1) * levelBits) size children).appendLeaf newLeaf
      = .error (.overflow "multiply") := by
  have hshift : 1 <<< ((height + 1) * levelBits) = capacity height := rfl
  rw [appendLeaf, hshift, inWord_of_lt _ hlow]
  show (do
    let most ← inWord "multiply" (capacity height * packedWidth)
    if size == most then _ else _) = _
  rw [← capacity_succ, inWord_of_le _ htall]
  rfl

/-- A tall packed branch stops at its room. -/
theorem appendLeaf_tall {height size : Nat} {children : List (Node α)}
    (newLeaf : Node α) (htall : Tall height) :
    ∃ operation, (packed ((height + 1) * levelBits) size children).appendLeaf
      newLeaf = .error (.overflow operation) := by
  rcases Nat.lt_or_ge (capacity height) wordSize with hlow | hpast
  · exact ⟨_, appendLeaf_past newLeaf hlow htall⟩
  · have hshift : 1 <<< ((height + 1) * levelBits) = capacity height := rfl
    refine ⟨"shift left", ?_⟩
    rw [appendLeaf, hshift, inWord_of_le _ hpast]
    rfl

/-- A full packed branch stays as it is, beside the leaf alone. -/
theorem takesLeaf_beside {height : Nat} {items held : List α}
    {children : List (Node α)} (hitems : items.length = packedWidth)
    (hwords : capacity (height + 1) < wordSize)
    (hrow : Row height held children)
    (hfull : held.length = capacity (height + 1)) :
    ∃ grown, TakesLeaf (height + 1) items
      (packed ((height + 1) * levelBits) held.length children) grown := by
  obtain ⟨hraised, helem, -⟩ := raiseTo_leaf (height + 1) hitems hwords
  refine ⟨.two (packed ((height + 1) * levelBits) held.length children)
    ((leaf items).raiseTo (height + 1)), ?_, ?_, ?_⟩
  · rw [appendLeaf_packed _ hwords, if_pos hfull]
  · have := Grown.level_two (hrow.packed hwords) hraised
    rwa [helem] at this
  · intro hnot
    exact absurd hfull hnot

/-- A packed branch with room takes in the leaf below or beside its last
child. -/
theorem takesLeaf_below {height : Nat} {items held : List α}
    {children row : List (Node α)} (hitems : items.length = packedWidth)
    (hwords : capacity (height + 1) < wordSize)
    (hroom : held.length ≠ capacity (height + 1))
    (hrow : Row height held children)
    (happend : appendLeafLast ((height + 1) * levelBits) children
      (leaf items) = .ok row)
    (hnew : Row height (held ++ items) row) :
    ∃ grown, TakesLeaf (height + 1) items
      (packed ((height + 1) * levelBits) held.length children) grown := by
  refine ⟨.one (packed ((height + 1) * levelBits)
    (held.length + packedWidth) row), ?_, ?_, ?_⟩
  · rw [appendLeaf_packed _ hwords, if_neg hroom, happend]
    rfl
  · have hpacked := hnew.packed hwords
    rw [List.length_append, hitems] at hpacked
    have := Level.one hpacked
    rw [elements, hnew.level.elements_eq] at this
    rwa [elements, hrow.level.elements_eq]
  · intro _
    exact ⟨_, rfl, rfl⟩

/-- A packed branch whose size is a multiple of 32 takes in a full leaf
at its end, as long as words can count its room, and stays one packed
node as long as it has room. -/
theorem appendLeaf_spec {items : List α}
    (hitems : items.length = packedWidth) :
    ∀ {height : Nat} {node : Node α}, Sound height node → height ≠ 0 →
      node.isRelaxed = false → node.size % packedWidth = 0 →
      capacity height < wordSize →
      ∃ grown, TakesLeaf height items node grown := by
  intro height
  induction height with
  | zero =>
      intro node _ hzero
      exact absurd rfl hzero
  | succ height ih =>
      intro node h _ hrel halign hwords
      cases h with
      | relaxed nonempty fits wide sound => cases hrel
      | @packed _ children nonempty fits wide packs sound =>
          obtain ⟨before, last, rfl⟩ : ∃ before last,
              children = before ++ [last] :=
            ⟨_, _, (List.dropLast_concat_getLast nonempty).symm⟩
          have hlow : capacity height < wordSize :=
            Nat.lt_of_le_of_lt (capacity_mono (Nat.le_succ _)) hwords
          have hrow : Row height (elementsOf (before ++ [last]))
              (before ++ [last]) := ⟨nonempty, fits, packs, .of_sound sound⟩
          rw [Node.size] at halign
          rw [sum_size_of_sound sound] at halign ⊢
          by_cases hfull : (elementsOf (before ++ [last])).length
              = capacity (height + 1)
          · exact takesLeaf_beside hitems hwords hrow hfull
          · have hlower : height ≠ 0 → last.size % packedWidth = 0 →
                ∃ grown, TakesLeaf height items last grown := by
              intro hpos hmod
              refine ih (sound last ?_) hpos ?_ hmod hlow
              · exact List.mem_append_right _ List.mem_cons_self
              · exact ((packs_concat before last).mp packs).2.2
            obtain ⟨row, happend, hnew⟩ :=
              appendLeafLast_spec hitems hlow hrow halign hfull hlower
            exact takesLeaf_below hitems hwords hfull hrow happend hnew

/-- A tall packed branch whose size is a multiple of 32 has a full child
and another leaf of elements at least. -/
theorem size_of_tall {height : Nat} {node : Node α}
    (h : Sound (height + 1) node) (htall : Tall height)
    (hrel : node.isRelaxed = false) (halign : node.size % packedWidth = 0) :
    (1 <<< 60) + packedWidth ≤ node.size := by
  cases h with
  | relaxed nonempty fits wide sound => cases hrel
  | @packed _ children nonempty fits wide packs sound =>
      match children, wide htall with
      | first :: second :: rest, _ =>
          have hfull := (packs_cons_cons.mp packs).1.1
          have hpos := (sound second (by simp)).size_pos
          have hlarge := htall.le_capacity
          rw [Node.size, List.map_cons, List.map_cons, SizeTable.sum_cons,
            SizeTable.sum_cons] at halign ⊢
          change _ % 32 = 0 at halign
          change _ + 32 ≤ _
          omega

/-- A full leaf goes to the end of a packed branch whose size is a
multiple of 32, unless there is a crowd. -/
theorem appendLeaf_completes {height : Nat} {node : Node α}
    {items : List α} (hitems : items.length = packedWidth)
    (h : Sound (height + 1) node) (hrel : node.isRelaxed = false)
    (halign : node.size % packedWidth = 0) :
    Completes (node.appendLeaf (leaf items))
      (crowd ≤ node.size + items.length) fun grown =>
        Level (height + 1) (node.elements ++ items) grown.nodes := by
  rcases Nat.lt_or_ge (capacity (height + 1)) wordSize with hwords | htall
  · obtain ⟨grown, htakes, hlevel, -⟩ :=
      appendLeaf_spec hitems h (Nat.succ_ne_zero _) hrel halign hwords
    exact .result htakes hlevel
  · have hsize := size_of_tall h htall hrel halign
    cases h with
    | relaxed nonempty fits wide sound => cases hrel
    | @packed _ children nonempty fits wide packs sound =>
        obtain ⟨operation, hstops⟩ := appendLeaf_tall (leaf items) htall
        refine .overflow hstops ?_
        rw [hitems]
        exact Nat.add_le_add_right hsize _

-- ======================================================= at a branch

/-- Inserting along a row replaces the child at the position by what
comes back for it. -/
theorem childInsertInto_eq (before : List (Node α)) (child : Node α)
    (after : List (Node α)) (index : Nat) (items : List α) :
    childInsertInto (before ++ child :: after) before.length index items
      = (child.insertInto index items).map
          fun grown => before ++ grown.nodes ++ after := by
  induction before with
  | nil =>
      rw [List.nil_append, List.length_nil, childInsertInto]
      cases child.insertInto index items with
      | error cause => rfl
      | ok grown => cases grown <;> rfl
  | cons first before ih =>
      rw [List.cons_append, List.length_cons, childInsertInto, ih]
      cases child.insertInto index items <;> rfl

/-- Whether a run goes the short way, as a leaf at the end. -/
def appends (node : Node α) (index : Nat) (items : List α) : Bool :=
  !node.isRelaxed && (index == node.size && items.length == packedWidth
    && node.size % packedWidth == 0)

/-- A branch inserts below the child that it leads to, unless the run
goes the short way. -/
theorem insertInto_branch {node : Node α} (h : node.isBranch)
    (index : Nat) (items : List α) :
    node.insertInto index items =
      if node.appends index items then node.appendLeaf (leaf items)
      else (do
        let (position, inner) ← Failure.ofShape (node.wayTo? index)
        let row ← childInsertInto node.children position inner items
        Failure.ofShape (divide? row)) := by
  cases node with
  | leaf values => cases h
  | packed shift size below =>
      rw [insertInto]
      rfl
  | relaxed table below =>
      rw [insertInto]
      rfl

/-- A branch takes in a run where each of its children does. -/
theorem insertBelow_spec {items : List α} {height : Nat}
    {node : Node α} (h : Sound (height + 1) node) {index : Nat}
    (hindex : index ≤ node.elements.length)
    (hbelow : ∀ child ∈ node.children, ∀ {inner : Nat},
      inner ≤ child.elements.length →
        Completes (child.insertInto inner items)
          (crowd ≤ child.elements.length + items.length) fun grown =>
            Level height (child.elements.take inner ++ items
              ++ child.elements.drop inner) grown.nodes) :
    Completes (do
        let (position, inner) ← Failure.ofShape (node.wayTo? index)
        let row ← childInsertInto node.children position inner items
        Failure.ofShape (divide? row))
      (crowd ≤ node.elements.length + items.length) fun grown =>
        Level (height + 1) (node.elements.take index ++ items
          ++ node.elements.drop index) grown.nodes := by
  obtain ⟨-, hwidth, hsound⟩ := h.children_sound
  have hwide := h.wide
  obtain ⟨before, child, after, inner, hto, hway⟩ := wayTo?_spec h hindex
  have htakes := hbelow child hway.mem hway.inner_le
  have hcount : child.elements.length
      ≤ (elementsOf node.children).length := by
    rw [hway.split]
    simp only [elementsOf_append, elementsOf_cons, List.length_append]
    omega
  rw [hway.split] at hsound hwidth hwide hcount
  rw [List.length_append, List.length_cons] at hwidth hwide
  obtain ⟨hleft, hright⟩ := (Level.of_sound hsound).of_append
  have hafter : Level height (elementsOf after) after :=
    .of_sound fun n hn => hright.sound n (List.mem_cons_of_mem _ hn)
  rw [hto, h.elements_eq, hway.take_eq, hway.drop_eq, hway.split]
  -- the child answers one node or two, which take its place in the row
  refine Completes.bind (P := fun row => ∃ below : Grown α,
    row = before ++ below.nodes ++ after
      ∧ Level height (child.elements.take inner ++ items
        ++ child.elements.drop inner) below.nodes) ?_ ?_
  · rw [childInsertInto_eq]
    refine (htakes.imp ?_ fun _ => id).map fun below hlevel =>
      ⟨below, rfl, hlevel⟩
    omega
  · rintro row ⟨below, rfl, hlevel⟩
    have hmost : mostWidth = 44 := rfl
    have hone := List.length_pos_iff.mpr below.nodes_ne
    have htwo := below.length_nodes
    have hlen : (before ++ below.nodes ++ after).length
        = before.length + below.nodes.length + after.length := by
      rw [List.length_append, List.length_append]
    obtain ⟨grown, hgrown, hdivided⟩ :=
      divide?_spec ((hleft.append hlevel).append hafter)
        (by simp [below.nodes_ne])
        (fun htall => by have := hwide htall; omega) (by omega)
    refine .of_some hgrown ?_
    simpa only [List.append_assoc] using hdivided

/-- A sound node takes in a run before any position up to its end. -/
theorem insertInto_spec {items : List α} (hne : items ≠ [])
    (hitems : items.length ≤ packedWidth) :
    ∀ {height : Nat} {node : Node α}, Sound height node →
      ∀ {index : Nat}, index ≤ node.elements.length →
        Completes (node.insertInto index items)
          (crowd ≤ node.elements.length + items.length) fun grown =>
            Level height (node.elements.take index ++ items
              ++ node.elements.drop index) grown.nodes := by
  intro height
  induction height with
  | zero =>
      intro node h index hindex
      cases h with
      | leaf nonempty fits =>
          rw [elements] at hindex ⊢
          rw [insertInto]
          obtain ⟨grown, hgrown, hlevel⟩ :=
            insertIntoLeaf?_spec fits hindex hne
              (Nat.le_trans hitems packedWidth_le_mostWidth)
          exact .of_some hgrown hlevel
  | succ height ih =>
      intro node h index hindex
      rw [insertInto_branch h.isBranch]
      split
      case isTrue hshort =>
        simp only [appends, Bool.and_eq_true, Bool.not_eq_true', beq_iff_eq]
          at hshort
        obtain ⟨hrel, ⟨hend, hfull⟩, halign⟩ := hshort
        have happend := appendLeaf_completes hfull h hrel halign
        rw [h.size_eq] at hend happend
        subst hend
        rwa [List.take_length, List.drop_length, List.append_nil]
      case isFalse =>
        exact insertBelow_spec h hindex fun child hchild _ hinner =>
          ih (h.children_sound.2.2 child hchild) hinner

/-- Putting a run into a tree before a position. -/
theorem insertRun_spec {root : Node α} {items : List α} {index : Nat}
    (h : Rooted root) (hitems : items.length ≤ packedWidth)
    (hindex : index ≤ root.elements.length) :
    Completes (root.insertRun index items)
      (crowd ≤ root.elements.length + items.length) fun grown =>
        Rooted grown ∧ grown.elements = root.elements.take index ++ items
          ++ root.elements.drop index := by
  unfold insertRun
  cases items with
  | nil =>
      refine .result rfl ⟨h, ?_⟩
      rw [List.append_nil, List.take_append_drop]
  | cons item rest =>
      -- an empty root is a leaf that takes in any run
      have hinto : Completes (root.insertInto index (item :: rest))
          (crowd ≤ root.elements.length + (item :: rest).length)
          fun grown => ∃ height, Level height (root.elements.take index
            ++ item :: rest ++ root.elements.drop index) grown.nodes := by
        cases h with
        | empty =>
            rw [empty, elements] at hindex ⊢
            rw [insertInto]
            obtain ⟨grown, hgrown, hlevel⟩ :=
              insertIntoLeaf?_spec (by simp) hindex (by simp)
                (Nat.le_trans hitems packedWidth_le_mostWidth)
            exact .of_some hgrown ⟨0, hlevel⟩
        | @sound height _ h =>
            exact (insertInto_spec (by simp) hitems h hindex).imp id
              fun _ hlevel => ⟨height, hlevel⟩
      rw [if_neg (by simp)]
      refine hinto.bind ?_
      rintro (node | ⟨left, right⟩) ⟨height, hlevel⟩
      · obtain ⟨hnode, helem⟩ := hlevel.sound_one
        exact .result rfl ⟨.sound hnode, helem⟩
      · obtain ⟨node, hnode, hs, helem⟩ := branch?_spec hlevel
          (Grown.nodes_ne _) (fun _ => Nat.le_refl _)
          (Nat.le_trans (Grown.length_nodes _) (by decide))
        exact .of_some hnode ⟨.sound hs, helem⟩

end PersistentCollections.Sequence.Node
