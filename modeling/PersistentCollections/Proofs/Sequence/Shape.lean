/-
The shape that every edit of a tree relies on and keeps, and the list
of elements that a tree stands for.

`Sound height node` says that all leaves lie `height` levels below
`node`, that no node is empty or wider than its layout allows, that a
packed branch is one that bits can address, and that the size and the
table which a branch records are the ones its children have. A branch
may have one child only, but not where it is so high that words cannot
count what it has room for (`Tall`): so high a branch has elements to
match. The tree without elements is the one tree that is no sound node
of any height; it occurs at the root alone (`Rooted`).

Every function on trees gets one lemma over this predicate: it answers,
the answer is sound again at a stated height, and its elements are the
stated list. So the layouts matter where a branch is read (`wayTo?`)
and where one is built (`branch?`), and nowhere else.
-/
import PersistentCollections.Edit
import PersistentCollections.Proofs.Run
import PersistentCollections.Proofs.Sequence.SizeTable
import PersistentCollections.Sequence.Node

namespace PersistentCollections.Sequence.Node

variable {α : Type}

-- ======================================================= the elements

mutual

/-- The elements below a node in order. -/
def elements : Node α → List α
  | leaf values => values
  | packed _ _ children => elementsOf children
  | relaxed _ children => elementsOf children

/-- The elements below some nodes in order. -/
def elementsOf : List (Node α) → List α
  | [] => []
  | node :: nodes => node.elements ++ elementsOf nodes

end

@[simp] theorem elementsOf_nil :
    elementsOf ([] : List (Node α)) = [] := by
  rw [elementsOf]

@[simp] theorem elementsOf_cons (node : Node α) (nodes : List (Node α)) :
    elementsOf (node :: nodes) = node.elements ++ elementsOf nodes := by
  rw [elementsOf]

@[simp] theorem elementsOf_append (left right : List (Node α)) :
    elementsOf (left ++ right) = elementsOf left ++ elementsOf right := by
  induction left with
  | nil => simp
  | cons node left ih => simp [ih]

theorem elementsOf_eq_flatMap (nodes : List (Node α)) :
    elementsOf nodes = nodes.flatMap elements := by
  induction nodes with
  | nil => simp
  | cons node nodes ih => simp [ih]

/-- The elements of a branch are those of its children. -/
theorem elements_of_isBranch {node : Node α} (h : node.isBranch) :
    node.elements = elementsOf node.children := by
  cases node with
  | leaf values => cases h
  | packed shift size below => rw [elements, children]
  | relaxed table below => rw [elements, children]

-- ========================================================== the shape

theorem packedWidth_le_mostWidth : packedWidth ≤ mostWidth := by decide

/-- The most elements below a packed node of so many levels. -/
def capacity (height : Nat) : Nat := 1 <<< ((height + 1) * levelBits)

theorem capacity_pos (height : Nat) : 0 < capacity height := by
  unfold capacity
  rw [Nat.one_shiftLeft]
  exact Nat.two_pow_pos _

theorem capacity_mono {height other : Nat} (h : height ≤ other) :
    capacity height ≤ capacity other := by
  unfold capacity
  rw [Nat.one_shiftLeft, Nat.one_shiftLeft]
  exact Nat.pow_le_pow_right (by decide)
    (Nat.mul_le_mul_right _ (Nat.succ_le_succ h))

/-- Whether a packed branch over nodes of a height has room for more
elements than a word can count. -/
def Tall (height : Nat) : Prop := wordSize ≤ capacity (height + 1)

/-- One full node of a height is large where a branch over such nodes is
tall. -/
theorem Tall.le_capacity {height : Nat} (h : Tall height) :
    1 <<< 60 ≤ capacity height := by
  have hheight : ¬ height + 1 ≤ 11 := by
    intro hlow
    exact absurd (Nat.le_trans h (capacity_mono hlow)) (by decide)
  have hfull : capacity 11 = 1 <<< 60 := rfl
  rw [← hfull]
  exact capacity_mono (by omega)

/-- No branch is tall below one that is not. -/
theorem not_tall_of_lt {height top : Nat} (h : height < top)
    (hroom : capacity top < wordSize) : ¬ Tall height := fun htall =>
  Nat.not_lt_of_le (Nat.le_trans htall (capacity_mono h)) hroom

/-- A node whose leaves all lie `height` levels down, and whose widths,
layouts and recorded sizes are right all the way. -/
inductive Sound : Nat → Node α → Prop where
  | leaf {values : List α} (nonempty : values ≠ [])
      (fits : values.length ≤ mostWidth) : Sound 0 (leaf values)
  | packed {height : Nat} {children : List (Node α)}
      (nonempty : children ≠ []) (fits : children.length ≤ packedWidth)
      (wide : Tall height → 2 ≤ children.length)
      (packs : packs (capacity height) children)
      (sound : ∀ child ∈ children, Sound height child) :
      Sound (height + 1)
        (packed ((height + 1) * levelBits)
          (SizeTable.sum (children.map size)) children)
  | relaxed {height : Nat} {children : List (Node α)}
      (nonempty : children ≠ []) (fits : children.length ≤ mostWidth)
      (wide : Tall height → 2 ≤ children.length)
      (sound : ∀ child ∈ children, Sound height child) :
      Sound (height + 1)
        (relaxed (SizeTable.totals 0 (children.map size)) children)

/-- The root of a tree: a sound node, or the tree without elements. -/
inductive Rooted : Node α → Prop where
  | empty : Rooted empty
  | sound {height : Nat} {node : Node α} (sound : Sound height node) :
      Rooted node

/-- The last total of the children of a branch is their common size. -/
theorem size_relaxed {children : List (Node α)} (h : children ≠ []) :
    (relaxed (SizeTable.totals 0 (children.map size)) children).size
      = SizeTable.sum (children.map size) := by
  cases children with
  | nil => exact absurd rfl h
  | cons child rest =>
      rw [List.map_cons, size, SizeTable.getLast?_totals, Nat.zero_add,
        Option.getD_some]

/-- Sizes add up to the number of elements where each node records its
own. -/
theorem sum_size {nodes : List (Node α)}
    (h : ∀ node ∈ nodes, node.size = node.elements.length) :
    SizeTable.sum (nodes.map size) = (elementsOf nodes).length := by
  induction nodes with
  | nil => simp
  | cons node nodes ih =>
      rw [List.map_cons, SizeTable.sum_cons, elementsOf_cons, List.length_append,
        h node List.mem_cons_self,
        ih fun n hn => h n (List.mem_cons_of_mem _ hn)]

/-- Some nodes of which one has elements have elements. -/
theorem elementsOf_ne_nil {nodes : List (Node α)} (hne : nodes ≠ [])
    (h : ∀ node ∈ nodes, node.elements ≠ []) : elementsOf nodes ≠ [] := by
  cases nodes with
  | nil => exact absurd rfl hne
  | cons node nodes =>
      rw [elementsOf_cons]
      intro hnil
      exact h node List.mem_cons_self (List.append_eq_nil_iff.mp hnil).1

namespace Sound

variable {height : Nat} {node : Node α}

/-- A sound node records the number of its elements. -/
theorem size_eq (h : Sound height node) :
    node.size = node.elements.length := by
  induction h with
  | leaf nonempty fits => rw [Node.size, Node.elements]
  | packed nonempty fits wide packs sound ih =>
      rw [Node.size, Node.elements, sum_size ih]
  | relaxed nonempty fits wide sound ih =>
      rw [size_relaxed nonempty, Node.elements, sum_size ih]

/-- A sound node has an element. -/
theorem elements_ne (h : Sound height node) : node.elements ≠ [] := by
  induction h with
  | leaf nonempty fits => rwa [Node.elements]
  | packed nonempty fits wide packs sound ih =>
      rw [Node.elements]
      exact elementsOf_ne_nil nonempty ih
  | relaxed nonempty fits wide sound ih =>
      rw [Node.elements]
      exact elementsOf_ne_nil nonempty ih

theorem size_pos (h : Sound height node) : 0 < node.size := by
  rw [h.size_eq]
  exact List.length_pos_iff.mpr h.elements_ne

/-- A sound node is as high as it says. -/
theorem height_eq (h : Sound height node) : node.height = height := by
  induction h with
  | leaf nonempty fits => rw [Node.height]
  | packed nonempty fits wide packs sound ih =>
      rw [Node.height, levelBits, Nat.mul_div_cancel _ (by omega)]
  | @relaxed height children nonempty fits wide sound ih =>
      cases children with
      | nil => exact absurd rfl nonempty
      | cons child rest =>
          rw [Node.height, ih child List.mem_cons_self]

/-- A sound node above the leaves is a branch over sound children. -/
theorem children_sound (h : Sound (height + 1) node) :
    node.children ≠ [] ∧ node.children.length ≤ mostWidth
      ∧ ∀ child ∈ node.children, Sound height child := by
  cases h with
  | packed nonempty fits wide packs sound =>
      exact ⟨nonempty, Nat.le_trans fits packedWidth_le_mostWidth, sound⟩
  | relaxed nonempty fits wide sound => exact ⟨nonempty, fits, sound⟩

/-- A tall branch has more than one child. -/
theorem wide (h : Sound (height + 1) node) (htall : Tall height) :
    2 ≤ node.children.length := by
  cases h with
  | packed nonempty fits wide packs sound => exact wide htall
  | relaxed nonempty fits wide sound => exact wide htall

theorem isBranch (h : Sound (height + 1) node) : node.isBranch := by
  cases h <;> rfl

/-- The elements of a sound node above the leaves are those of its
children. -/
theorem elements_eq (h : Sound (height + 1) node) :
    node.elements = elementsOf node.children :=
  elements_of_isBranch h.isBranch

end Sound

/-- Sound nodes of one height side by side, with their elements. -/
structure Level (height : Nat) (items : List α) (nodes : List (Node α)) :
    Prop where
  sound : ∀ node ∈ nodes, Sound height node
  elements_eq : elementsOf nodes = items

namespace Level

variable {height : Nat} {items more : List α}
  {node : Node α} {nodes others : List (Node α)}

theorem of_sound (h : ∀ node ∈ nodes, Sound height node) :
    Level height (elementsOf nodes) nodes :=
  ⟨h, rfl⟩

theorem nil : Level height ([] : List α) [] :=
  ⟨nofun, elementsOf_nil⟩

theorem cons (hnode : Sound height node) (h : Level height items nodes) :
    Level height (node.elements ++ items) (node :: nodes) := by
  refine ⟨?_, by rw [elementsOf_cons, h.elements_eq]⟩
  intro n hn
  rcases List.mem_cons.mp hn with rfl | hn
  · exact hnode
  · exact h.sound n hn

theorem one (hnode : Sound height node) :
    Level height node.elements [node] := by
  have := cons hnode nil
  rwa [List.append_nil] at this

theorem append (h : Level height items nodes)
    (hmore : Level height more others) :
    Level height (items ++ more) (nodes ++ others) := by
  refine ⟨?_, by rw [elementsOf_append, h.elements_eq, hmore.elements_eq]⟩
  intro n hn
  rcases List.mem_append.mp hn with hn | hn
  · exact h.sound n hn
  · exact hmore.sound n hn

/-- The nodes on either side of a cut. -/
theorem of_append (h : Level height items (nodes ++ others)) :
    Level height (elementsOf nodes) nodes
      ∧ Level height (elementsOf others) others :=
  ⟨of_sound fun n hn => h.sound n (List.mem_append_left _ hn),
    of_sound fun n hn => h.sound n (List.mem_append_right _ hn)⟩

theorem of_cons (h : Level height items (node :: others)) :
    Level height (elementsOf [node]) [node]
      ∧ Level height (elementsOf others) others :=
  of_append (show Level height items ([node] ++ others) from h)

theorem sound_one (h : Level height items [node]) :
    Sound height node ∧ node.elements = items := by
  refine ⟨h.sound node List.mem_cons_self, ?_⟩
  rw [← h.elements_eq, elementsOf_cons, elementsOf_nil, List.append_nil]

/-- A level of some nodes has elements. -/
theorem items_ne (h : Level height items nodes) (hne : nodes ≠ []) :
    items ≠ [] := by
  rw [← h.elements_eq]
  exact elementsOf_ne_nil hne fun n hn => (h.sound n hn).elements_ne

/-- A level of some elements has nodes. -/
theorem nodes_ne (h : Level height items nodes) (hne : items ≠ []) :
    nodes ≠ [] := by
  rintro rfl
  exact hne (h.elements_eq ▸ elementsOf_nil)

end Level

/-- Sizes of sound nodes add up to the number of their elements. -/
theorem sum_size_of_sound {height : Nat} {nodes : List (Node α)}
    (h : ∀ node ∈ nodes, Sound height node) :
    SizeTable.sum (nodes.map size) = (elementsOf nodes).length :=
  sum_size fun node hmem => (h node hmem).size_eq

/-- The root of a tree records the number of its elements. -/
theorem Rooted.size_eq {node : Node α} (h : Rooted node) :
    node.size = node.elements.length := by
  cases h with
  | empty => rw [Node.empty, Node.size, Node.elements]
  | sound h => exact h.size_eq

/-- A root with elements is a sound node. -/
theorem Rooted.sound_of_pos {node : Node α} (h : Rooted node)
    (hpos : 0 < node.size) : ∃ height, Sound height node := by
  cases h with
  | empty => rw [Node.empty, Node.size] at hpos; simp at hpos
  | sound h => exact ⟨_, h⟩

-- ======================================================== packed rows

theorem packs_cons_cons {room : Nat} {child next : Node α}
    {rest : List (Node α)} :
    packs room (child :: next :: rest) = true
      ↔ (child.size = room ∧ child.isRelaxed = false)
        ∧ packs room (next :: rest) = true := by
  rw [packs]
  · simp only [Bool.and_eq_true, beq_iff_eq, Bool.not_eq_true']
  · intro hnil
    cases hnil

/-- Children are addressed by bits exactly when all but the last are
full, the last is at most full, and none is relaxed. -/
theorem packs_concat {room : Nat} (before : List (Node α))
    (last : Node α) :
    packs room (before ++ [last]) = true
      ↔ (∀ child ∈ before, child.size = room ∧ child.isRelaxed = false)
        ∧ last.size ≤ room ∧ last.isRelaxed = false := by
  induction before with
  | nil => simp [packs]
  | cons child before ih =>
      have hne : ∃ next rest, before ++ [last] = next :: rest := by
        cases before with
        | nil => exact ⟨last, [], rfl⟩
        | cons next rest => exact ⟨next, rest ++ [last], rfl⟩
      obtain ⟨next, rest, hnext⟩ := hne
      rw [List.cons_append, hnext, packs_cons_cons, ← hnext, ih,
        List.forall_mem_cons]
      exact and_assoc.symm

/-- Bits address children by their sizes and layouts alone. -/
theorem packs_congr {room : Nat} {old new : Node α}
    (hsize : new.size = old.size) (hrel : new.isRelaxed = old.isRelaxed) :
    ∀ before after : List (Node α),
      packs room (before ++ old :: after)
        → packs room (before ++ new :: after) := by
  intro before after
  rcases List.eq_nil_or_concat after with rfl | ⟨init, last, rfl⟩
  · rw [packs_concat, packs_concat, hsize, hrel]
    exact id
  · have hshape : ∀ node : Node α,
        before ++ node :: (init ++ [last])
          = (before ++ node :: init) ++ [last] := by
      intro node
      simp
    rw [List.concat_eq_append, hshape, hshape, packs_concat, packs_concat]
    rintro ⟨hall, hlast⟩
    refine ⟨?_, hlast⟩
    intro child hmem
    rcases List.mem_append.mp hmem with hmem | hmem
    · exact hall child (List.mem_append_left _ hmem)
    · rcases List.mem_cons.mp hmem with rfl | hmem
      · rw [hsize, hrel]
        exact hall old (List.mem_append_right _ List.mem_cons_self)
      · exact hall child
          (List.mem_append_right _ (List.mem_cons_of_mem _ hmem))

-- ==================================================== building branches

/-- A branch over sound children of one height is sound one level up,
and it can always be built. -/
theorem branch?_spec {height : Nat} {items : List α}
    {children : List (Node α)} (h : Level height items children)
    (hne : children ≠ []) (hwide : Tall height → 2 ≤ children.length)
    (hfits : children.length ≤ mostWidth) :
    ∃ node, branch? children = some node ∧ Sound (height + 1) node
      ∧ node.elements = items := by
  obtain ⟨hsound, rfl⟩ := h
  obtain ⟨first, rest, rfl⟩ := List.exists_cons_of_ne_nil hne
  have hheight : first.height = height :=
    (hsound first List.mem_cons_self).height_eq
  unfold branch?
  simp only [hheight]
  split
  case isTrue hpacks =>
    rw [Bool.and_eq_true, decide_eq_true_eq] at hpacks
    refine ⟨_, rfl, .packed hne hpacks.1 hwide hpacks.2 hsound, ?_⟩
    rw [elements]
  case isFalse =>
    refine ⟨_, rfl, .relaxed hne hfits hwide hsound, ?_⟩
    rw [elements]

/-- Children of one height that are too many for one branch make two. -/
theorem branch?_halves {height : Nat} {items : List α}
    {children : List (Node α)} (h : Level height items children)
    (hover : mostWidth < children.length)
    (hfits : children.length ≤ 2 * mostWidth) :
    ∃ left right, branch? (Run.halves children).1 = some left
      ∧ branch? (Run.halves children).2 = some right
      ∧ Level (height + 1) items [left, right] := by
  obtain ⟨hleft, hright⟩ := Run.halves_length children
  have hboth : Level height items
      ((Run.halves children).1 ++ (Run.halves children).2) := by
    rwa [Run.halves_append]
  obtain ⟨hfirst, hsecond⟩ := hboth.of_append
  have hmost : mostWidth = 44 := rfl
  obtain ⟨left, hl, hls, hle⟩ := branch?_spec hfirst
    (List.ne_nil_of_length_pos (by omega)) (fun _ => by omega) (by omega)
  obtain ⟨right, hr, hrs, hre⟩ := branch?_spec hsecond
    (List.ne_nil_of_length_pos (by omega)) (fun _ => by omega) (by omega)
  refine ⟨left, right, hl, hr, ?_⟩
  have := (Level.one hls).append (Level.one hrs)
  rwa [hle, hre, ← elementsOf_append, hboth.elements_eq] at this

/-- A packed node that is not over its capacity stays so under any
number of branches of one child, as long as none of them is tall. -/
theorem raise_spec {height : Nat} {node : Node α} (levels : Nat)
    (h : Sound height node) (hsize : node.size ≤ capacity height)
    (hrel : node.isRelaxed = false)
    (hroom : capacity (height + levels) < wordSize) :
    Sound (height + levels) (node.raise levels)
      ∧ (node.raise levels).elements = node.elements
      ∧ (node.raise levels).isRelaxed = false := by
  induction levels with
  | zero => exact ⟨h, rfl, hrel⟩
  | succ levels ih =>
      obtain ⟨hsound, helem, hraised⟩ := ih
        (Nat.lt_of_le_of_lt (capacity_mono (by omega)) hroom)
      have hcapacity : (node.raise levels).size ≤ capacity (height + levels) := by
        rw [hsound.size_eq, helem, ← h.size_eq]
        exact Nat.le_trans hsize (capacity_mono (Nat.le_add_right _ _))
      have hpacks : packs (capacity (height + levels))
          [node.raise levels] := by
        rw [packs, hraised]
        simpa using hcapacity
      rw [raise]
      simp only [hsound.height_eq]
      refine ⟨?_, ?_, rfl⟩
      · have hfits : [node.raise levels].length ≤ packedWidth := by
          rw [List.length_singleton]
          decide
        have hlow : ¬ Tall (height + levels) :=
          not_tall_of_lt (Nat.lt_succ_self _) hroom
        have hone := Sound.packed (by simp) hfits (absurd · hlow) hpacks
          (fun child hmem => by
            rw [List.mem_singleton.mp hmem]
            exact hsound)
        rw [List.map_cons, List.map_nil, SizeTable.sum_cons, SizeTable.sum_nil,
          Nat.add_zero] at hone
        exact hone
      · rw [elements, elementsOf_cons, elementsOf_nil, List.append_nil,
          helem]

/-- Lowering a sound node changes neither its elements nor its
soundness. -/
theorem lowered_spec {height : Nat} {node : Node α}
    (h : Sound height node) :
    ∃ low ≤ height, Sound low node.lowered
      ∧ node.lowered.elements = node.elements := by
  induction h with
  | leaf nonempty fits =>
      exact ⟨0, Nat.le_refl _, .leaf nonempty fits, rfl⟩
  | @packed height children nonempty fits wide packs sound ih =>
      match children, nonempty with
      | [child], _ =>
          obtain ⟨low, hle, hlow, helem⟩ := ih child List.mem_cons_self
          refine ⟨low, by omega, ?_, ?_⟩
          · rwa [lowered]
          · rw [lowered, helem, elements, elementsOf_cons, elementsOf_nil,
              List.append_nil]
      | first :: second :: rest, hne =>
          exact ⟨height + 1, Nat.le_refl _, .packed hne fits wide packs sound,
            rfl⟩
  | @relaxed height children nonempty fits wide sound ih =>
      match children, nonempty with
      | [child], _ =>
          obtain ⟨low, hle, hlow, helem⟩ := ih child List.mem_cons_self
          refine ⟨low, by omega, ?_, ?_⟩
          · rwa [lowered]
          · rw [lowered, helem, elements, elementsOf_cons, elementsOf_nil,
              List.append_nil]
      | first :: second :: rest, hne =>
          exact ⟨height + 1, Nat.le_refl _, .relaxed hne fits wide sound,
            rfl⟩

end PersistentCollections.Sequence.Node
