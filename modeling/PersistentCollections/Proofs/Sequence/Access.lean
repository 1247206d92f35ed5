/-
Positions: the way from a position to a child, and what the reads and
the replacement of an element find there.

A way is stated by cutting the row of children at the child it enters
(`Way`): the elements before that child and the position inside it add
up to the position in the branch. Both layouts answer such a way
(`wayTo?_spec`); the bits of a packed branch do because all children
before the last are full, the table of a relaxed one because its totals
are the sizes of the children. What goes on below is then an induction
over heights, with one lemma per function for the walk along the row.
-/
import PersistentCollections.Proofs.Sequence.Shape

namespace PersistentCollections.Sequence.Node

variable {α : Type}

-- ==================================================== ways to a child

/-- The child of a row that a position leads to, and the position in
it. -/
structure Way (children : List (Node α)) (index : Nat)
    (before : List (Node α)) (child : Node α) (after : List (Node α))
    (inner : Nat) : Prop where
  /-- The child stands between the others. -/
  split : children = before ++ child :: after
  /-- The elements before the child are passed. -/
  index_eq : index = (elementsOf before).length + inner
  /-- The position lies in the child, or at its end. -/
  inner_le : inner ≤ child.elements.length
  /-- Only the end of the row lies at the end of a child. -/
  inner_lt : index < (elementsOf children).length
    → inner < child.elements.length
  /-- The end of the row is the end of the last child. -/
  last : index = (elementsOf children).length → after = []

namespace Way

variable {children before after : List (Node α)} {child : Node α}
  {index inner : Nat}

theorem mem (h : Way children index before child after inner) :
    child ∈ children := by
  rw [h.split]
  exact List.mem_append_right _ List.mem_cons_self

/-- The element at the position is the one in the child. -/
theorem getElem?_eq (h : Way children index before child after inner)
    (hindex : index < (elementsOf children).length) :
    (elementsOf children)[index]? = child.elements[inner]? := by
  have hinner := h.inner_lt hindex
  rw [h.split, elementsOf_append, elementsOf_cons, h.index_eq,
    List.getElem?_append_right (by omega), Nat.add_sub_cancel_left,
    List.getElem?_append_left hinner]

/-- The elements before the position. -/
theorem take_eq (h : Way children index before child after inner) :
    (elementsOf children).take index
      = elementsOf before ++ child.elements.take inner := by
  have hinner := h.inner_le
  rw [h.split, elementsOf_append, elementsOf_cons, h.index_eq,
    List.take_length_add_append, List.take_append_of_le_length hinner]

/-- The elements from the position on. -/
theorem drop_eq (h : Way children index before child after inner) :
    (elementsOf children).drop index
      = child.elements.drop inner ++ elementsOf after := by
  have hinner := h.inner_le
  rw [h.split, elementsOf_append, elementsOf_cons, h.index_eq,
    List.drop_length_add_append, List.drop_append_of_le_length hinner]

end Way

/-- The bits of a position lead along children of which all but the last
are full. -/
theorem way_of_packs {room index : Nat} (hroom : 0 < room) :
    ∀ {children : List (Node α)},
      packs room children →
      (∀ child ∈ children, child.size = child.elements.length) →
      index < (elementsOf children).length →
      ∃ before child after, Way children index before child after
          (index % room) ∧ before.length = index / room := by
  induction index using Nat.strongRecOn with
  | ind index ih =>
    intro children hpacks hsize hindex
    match children with
    | [] => simp at hindex
    | [last] =>
        rw [packs, Bool.and_eq_true, decide_eq_true_eq] at hpacks
        rw [elementsOf_cons, elementsOf_nil, List.append_nil] at hindex
        have hlast := hsize last List.mem_cons_self
        have hlt : index < room := by omega
        refine ⟨[], last, [], ?_, ?_⟩
        · rw [Nat.mod_eq_of_lt hlt]
          refine ⟨rfl, by simp, by omega, fun _ => hindex, fun _ => rfl⟩
        · rw [Nat.div_eq_of_lt hlt, List.length_nil]
    | child :: next :: rest =>
        obtain ⟨⟨hfull, -⟩, hpacks⟩ := packs_cons_cons.mp hpacks
        have hchild := hsize child List.mem_cons_self
        rw [elementsOf_cons, List.length_append] at hindex
        rcases Nat.lt_or_ge index room with hlt | hge
        · refine ⟨[], child, next :: rest, ?_, ?_⟩
          · rw [Nat.mod_eq_of_lt hlt]
            refine ⟨rfl, by simp, by omega, fun _ => by omega, ?_⟩
            rw [elementsOf_cons, List.length_append]
            intro heq
            omega
          · rw [Nat.div_eq_of_lt hlt, List.length_nil]
        · obtain ⟨before, found, after, hway, hlen⟩ :=
            ih (index - room) (by omega) hpacks
              (fun c hc => hsize c (List.mem_cons_of_mem _ hc)) (by omega)
          rw [← Nat.mod_eq_sub_mod hge] at hway
          refine ⟨child :: before, found, after, ?_, ?_⟩
          · refine ⟨?_, ?_, hway.inner_le, ?_, ?_⟩
            · rw [hway.split, List.cons_append]
            · rw [elementsOf_cons, List.length_append, Nat.add_assoc,
                ← hway.index_eq]
              omega
            · intro _
              exact hway.inner_lt (by omega)
            · rw [elementsOf_cons, List.length_append]
              intro heq
              exact hway.last (by omega)
          · rw [List.length_cons, hlen, Nat.div_eq_sub_div hroom hge]

/-- The search in the table of a relaxed branch leads to a child. -/
theorem way_of_table {index : Nat} {children : List (Node α)}
    (hsize : ∀ child ∈ children, child.size = child.elements.length)
    (hindex : index < (elementsOf children).length) :
    ∃ before child after start,
      SizeTable.part? (SizeTable.totals 0 (children.map size)) index
        = some before.length
      ∧ SizeTable.before? (SizeTable.totals 0 (children.map size))
          before.length = some start
      ∧ Way children index before child after (index - start) := by
  have hfound := hindex
  rw [← sum_size hsize] at hfound
  obtain ⟨sizes, size, rest, hsplit, hpart, hle, hlt⟩ :=
    SizeTable.part?_totals hfound
  obtain ⟨before, tail, rfl, rfl, htail⟩ := List.map_eq_append_iff.mp hsplit
  obtain ⟨child, after, rfl, rfl, rfl⟩ := List.map_eq_cons_iff.mp htail
  have hbefore : SizeTable.sum (before.map Node.size) = (elementsOf before).length :=
    sum_size fun c hc => hsize c (List.mem_append_left _ hc)
  have hchild : child.size = child.elements.length :=
    hsize child (List.mem_append_right _ List.mem_cons_self)
  rw [List.length_map] at hpart
  refine ⟨before, child, after, SizeTable.sum (before.map Node.size), hpart, ?_, ?_⟩
  · rw [SizeTable.before?_totals]
    · rw [hsplit, ← List.length_map Node.size, List.take_left]
    · rw [List.length_map, List.length_append, List.length_cons]
      omega
  · refine ⟨rfl, by omega, by omega, fun _ => by omega, ?_⟩
    intro heq
    omega

/-- The end of a row is the end of its last child. -/
theorem way_of_last {children : List (Node α)} {last : Node α}
    (hlast : children.getLast? = some last) :
    ∃ before, before.length = children.length - 1
      ∧ Way children (elementsOf children).length before last []
        last.elements.length := by
  obtain ⟨before, rfl⟩ := List.getLast?_eq_some_iff.mp hlast
  refine ⟨before, by simp, rfl, by simp, Nat.le_refl _, ?_, fun _ => rfl⟩
  intro hlt
  omega

theorem div_capacity (index height : Nat) :
    index / capacity height = index >>> ((height + 1) * levelBits) := by
  unfold capacity
  rw [Nat.one_shiftLeft, Nat.shiftRight_eq_div_pow]

/-- The end of a sound branch leads to the end of its last child. -/
theorem wayTo?_end {height : Nat} {node : Node α}
    (h : Sound (height + 1) node) :
    ∃ before child inner,
      node.wayTo? node.elements.length = some (before.length, inner)
        ∧ Way node.children node.elements.length before child [] inner := by
  obtain ⟨hne, -, hsound⟩ := h.children_sound
  have hlast := List.getLast?_eq_some_getLast hne
  obtain ⟨before, hbefore, hway⟩ := way_of_last hlast
  rw [← h.elements_eq] at hway
  have hsize := (hsound _ (List.getLast_mem hne)).size_eq
  have hnode := h.size_eq
  have hindex := hway.index_eq
  refine ⟨before, _, _, ?_, hway⟩
  unfold wayTo?
  simp only [hlast]
  rw [if_pos (by omega), if_pos (by omega), hbefore]
  congr 2
  omega

/-- A sound branch leads every position up to its end to a child. -/
theorem wayTo?_spec {height index : Nat} {node : Node α}
    (h : Sound (height + 1) node) (hindex : index ≤ node.elements.length) :
    ∃ before child after inner,
      node.wayTo? index = some (before.length, inner)
        ∧ Way node.children index before child after inner := by
  rcases Nat.lt_or_ge index node.elements.length with hlt | hge
  · have hinside : ¬ node.size ≤ index := by
      rw [h.size_eq]
      omega
    obtain ⟨hne, -, -⟩ := h.children_sound
    unfold wayTo?
    simp only [List.getLast?_eq_some_getLast hne, if_neg hinside]
    cases h with
    | packed nonempty fits wide packs sound =>
        obtain ⟨before, child, after, hway, hbefore⟩ :=
          way_of_packs (capacity_pos _) packs
            (fun c hc => (sound c hc).size_eq) hlt
        refine ⟨before, child, after, _, ?_, hway⟩
        rw [hbefore, div_capacity]
        rfl
    | relaxed nonempty fits wide sound =>
        obtain ⟨before, child, after, start, hpart, hstart, hway⟩ :=
          way_of_table (fun c hc => (sound c hc).size_eq) hlt
        refine ⟨before, child, after, _, ?_, hway⟩
        simp only [hpart, Option.bind_eq_bind, Option.bind_some, hstart]
  · have heq : index = node.elements.length := by omega
    subst heq
    obtain ⟨before, child, inner, hto, hway⟩ := wayTo?_end h
    exact ⟨before, child, [], inner, hto, hway⟩

-- ============================================================== reads

/-- Reading along a row enters the child at the position. -/
theorem childGet?_eq (before : List (Node α)) (child : Node α)
    (after : List (Node α)) (index : Nat) :
    childGet? (before ++ child :: after) before.length index
      = child.get? index := by
  induction before with
  | nil => rw [List.nil_append, List.length_nil, childGet?]
  | cons first before ih => rw [List.cons_append, List.length_cons, childGet?, ih]

/-- Reading a sound tree answers its elements. -/
theorem get?_spec {height : Nat} {node : Node α} (h : Sound height node) :
    ∀ {index : Nat}, index < node.elements.length →
      node.get? index = node.elements[index]? := by
  induction h with
  | leaf nonempty fits =>
      intro index _
      rw [get?, elements]
  | packed nonempty fits wide packs sound ih =>
      intro index hindex
      obtain ⟨before, child, after, hway, hbefore⟩ :=
        way_of_packs (capacity_pos _) packs
          (fun c hc => (sound c hc).size_eq) hindex
      have hread := ih child hway.mem (hway.inner_lt hindex)
      rw [get?, elements, hway.getElem?_eq hindex, ← hread,
        ← div_capacity, ← hbefore, hway.split]
      exact childGet?_eq before child after _
  | @relaxed height children nonempty fits wide sound ih =>
      intro index hindex
      obtain ⟨before, child, after, start, hpart, hstart, hway⟩ :=
        way_of_table (fun c hc => (sound c hc).size_eq) hindex
      have hread := ih child hway.mem (hway.inner_lt hindex)
      obtain ⟨first, rest, hcons⟩ := List.exists_cons_of_ne_nil nonempty
      have htotal : (SizeTable.totals 0 (children.map size)).getLast?
          = some (elementsOf children).length := by
        rw [hcons, List.map_cons, SizeTable.getLast?_totals, Nat.zero_add,
          ← List.map_cons, ← hcons, sum_size_of_sound sound]
      have hinside : ¬ (elementsOf children).length ≤ index :=
        Nat.not_le_of_lt hindex
      rw [get?, elements, hway.getElem?_eq hindex, ← hread]
      simp only [htotal, hpart, hstart, Option.bind_eq_bind,
        Option.bind_some, if_neg hinside]
      rw [hway.split, childGet?_eq]

/-- Looking for a leaf along a row enters the child at the position. -/
theorem childLeafAround?_eq (before : List (Node α)) (child : Node α)
    (after : List (Node α)) (index : Nat) :
    childLeafAround? (before ++ child :: after) before.length index
      = child.leafAround? index := by
  induction before with
  | nil => rw [List.nil_append, List.length_nil, childLeafAround?]
  | cons first before ih =>
      rw [List.cons_append, List.length_cons, childLeafAround?, ih]

/-- A branch looks for a leaf in the child that it leads to. -/
theorem leafAround?_branch {node : Node α} (h : node.isBranch)
    (index : Nat) :
    node.leafAround? index = (do
      let (position, inner) ← node.wayTo? index
      childLeafAround? node.children position inner) := by
  cases node with
  | leaf values => cases h
  | packed shift size below => rw [leafAround?, children]
  | relaxed table below => rw [leafAround?, children]

/-- The leaf around a position is a stretch of the elements, and holds
the position. -/
theorem leafAround?_spec {height : Nat} {node : Node α} :
    Sound height node → ∀ {index : Nat}, index < node.elements.length →
      ∃ before values after offset,
        node.leafAround? index = some (values, offset)
          ∧ node.elements = before ++ values ++ after
          ∧ index = before.length + offset ∧ offset < values.length := by
  induction height generalizing node with
  | zero =>
      intro h index hindex
      cases h with
      | @leaf values nonempty fits =>
          rw [elements] at hindex
          exact ⟨[], values, [], index, by rw [leafAround?],
            by rw [elements]; simp, by simp, hindex⟩
  | succ height ih =>
      intro h index hindex
      obtain ⟨-, -, hsound⟩ := h.children_sound
      obtain ⟨before, child, after, inner, hto, hway⟩ :=
        wayTo?_spec h (Nat.le_of_lt hindex)
      have hin := hway.inner_lt (by rwa [← h.elements_eq])
      obtain ⟨left, values, right, offset, hleaf, helem, hinner, hoff⟩ :=
        ih (hsound child hway.mem) hin
      refine ⟨elementsOf before ++ left, values,
        right ++ elementsOf after, offset, ?_, ?_, ?_, hoff⟩
      · rw [leafAround?_branch h.isBranch, hto]
        simp only [Option.bind_eq_bind, Option.bind_some]
        rw [hway.split, childLeafAround?_eq, hleaf]
      · rw [h.elements_eq, hway.split, elementsOf_append, elementsOf_cons,
          helem]
        simp only [List.append_assoc]
      · rw [hway.index_eq, hinner, List.length_append, Nat.add_assoc]

-- ======================================================== replacement

/-- Replacing an element along a row replaces the child at the
position. -/
theorem childSet?_eq (before : List (Node α)) (child : Node α)
    (after : List (Node α)) (index : Nat) (value : α) :
    childSet? (before ++ child :: after) before.length index value
      = (child.set? index value).map (before ++ · :: after) := by
  induction before with
  | nil =>
      rw [List.nil_append, List.length_nil, childSet?]
      cases child.set? index value <;> rfl
  | cons first before ih =>
      rw [List.cons_append, List.length_cons, childSet?, ih]
      cases child.set? index value <;> rfl

/-- A row keeps its sizes when a child is replaced by one of its size. -/
theorem map_size_congr {before after : List (Node α)} {old new : Node α}
    (h : new.size = old.size) :
    (before ++ new :: after).map size = (before ++ old :: after).map size := by
  rw [List.map_append, List.map_cons, List.map_append, List.map_cons, h]

/-- Replacing an element changes nothing else of a sound tree. -/
theorem set?_spec {height : Nat} {node : Node α} (value : α) :
    Sound height node → ∀ {index : Nat}, index < node.elements.length →
      ∃ changed, node.set? index value = some changed
        ∧ Sound height changed
        ∧ changed.elements = node.elements.set index value
        ∧ changed.isRelaxed = node.isRelaxed := by
  induction height generalizing node with
  | zero =>
      intro h index hindex
      cases h with
      | @leaf values nonempty fits =>
          rw [elements] at hindex
          refine ⟨leaf (values.set index value), ?_, ?_, ?_, rfl⟩
          · rw [set?, Run.set?_eq hindex, Option.map_some]
          · refine .leaf ?_ ?_
            · rw [ne_eq, List.set_eq_nil_iff]
              exact nonempty
            · rwa [List.length_set]
          · rw [elements, elements]
  | succ height ih =>
      intro h index hindex
      obtain ⟨before, child, after, inner, hto, hway⟩ :=
        wayTo?_spec h (Nat.le_of_lt hindex)
      have hin := hway.inner_lt (by rwa [← h.elements_eq])
      obtain ⟨-, -, hall⟩ := h.children_sound
      have hchild := hall child hway.mem
      obtain ⟨changed, hset, hchanged, helem, hrel⟩ := ih hchild hin
      have hsize : changed.size = child.size := by
        rw [hchanged.size_eq, hchild.size_eq, helem, List.length_set]
      have hnew : elementsOf (before ++ changed :: after)
          = (elementsOf (before ++ child :: after)).set index value := by
        rw [elementsOf_append, elementsOf_cons, elementsOf_append,
          elementsOf_cons, helem, hway.index_eq,
          List.set_append_right _ _ (by omega), Nat.add_sub_cancel_left,
          List.set_append_left _ _ hin]
      have hsound : ∀ c ∈ before ++ changed :: after, Sound height c := by
        rw [hway.split] at hall
        intro c hc
        rcases List.mem_append.mp hc with hc | hc
        · exact hall c (List.mem_append_left _ hc)
        · rcases List.mem_cons.mp hc with rfl | hc
          · exact hchanged
          · exact hall c (List.mem_append_right _ (List.mem_cons_of_mem _ hc))
      have hrow : childSet? (before ++ child :: after) before.length inner
          value = some (before ++ changed :: after) := by
        rw [childSet?_eq, hset, Option.map_some]
      have hsplit := hway.split
      cases h with
      | packed nonempty fits wide packs sound =>
          rw [children] at hsplit
          subst hsplit
          refine ⟨packed ((height + 1) * levelBits)
            (SizeTable.sum ((before ++ child :: after).map Node.size))
            (before ++ changed :: after), ?_, ?_, ?_, rfl⟩
          · simp only [set?, hto, hrow, Option.bind_eq_bind,
              Option.bind_some, Option.pure_def]
          · rw [← map_size_congr hsize]
            exact .packed (by simp) (by simpa using fits)
              (by simpa using wide) (packs_congr hsize hrel _ _ packs) hsound
          · rw [elements, hnew, elements]
      | relaxed nonempty fits wide sound =>
          rw [children] at hsplit
          subst hsplit
          refine ⟨relaxed
            (SizeTable.totals 0 ((before ++ child :: after).map Node.size))
            (before ++ changed :: after), ?_, ?_, ?_, rfl⟩
          · simp only [set?, hto, hrow, Option.bind_eq_bind,
              Option.bind_some, Option.pure_def]
          · rw [← map_size_congr hsize]
            exact .relaxed (by simp) (by simpa using fits)
              (by simpa using wide) hsound
          · rw [elements, hnew, elements]

end PersistentCollections.Sequence.Node
