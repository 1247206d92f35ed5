/-
Cutting a tree before a position answers two trees that divide its
elements there.

The pieces of a cut are trees in their own right. Left of the way they
come in the order of their elements, right of it in the opposite order,
as the way is followed from the root (`Pieces`). Joining them from the
root on the left, and from the leaves on the right, gives the halves.
-/
import PersistentCollections.Proofs.Sequence.Access
import PersistentCollections.Proofs.Sequence.Join
import PersistentCollections.Sequence.Node.Split

namespace PersistentCollections.Sequence.Node

variable {α : Type}

/-- Pieces of a tree on either side of a cut: trees that hold the
elements before and after it, those on the right in opposite order. -/
structure Pieces (before after : List α) (lefts rights : List (Node α)) :
    Prop where
  rooted_left : ∀ piece ∈ lefts, Rooted piece
  rooted_right : ∀ piece ∈ rights, Rooted piece
  before_eq : elementsOf lefts = before
  after_eq : elementsOf rights.reverse = after

/-- One child is a tree of its own, without a branch above it. -/
theorem subtree?_one (child : Node α) :
    subtree? [child] = some child.lowered := by
  unfold subtree?
  simp only [branch?]
  split <;> rw [Option.map_some, lowered]

/-- Some children of one height make a tree. -/
theorem subtree?_spec {height : Nat} {items : List α}
    {children : List (Node α)} (h : Level height items children)
    (hne : children ≠ []) (hfits : children.length ≤ mostWidth) :
    ∃ root, subtree? children = some root ∧ Rooted root
      ∧ root.elements = items := by
  match children with
  | [child] =>
      obtain ⟨hchild, helem⟩ := h.sound_one
      obtain ⟨low, -, hlow, hsame⟩ := lowered_spec hchild
      exact ⟨child.lowered, subtree?_one child, .sound hlow,
        hsame.trans helem⟩
  | first :: second :: rest =>
      obtain ⟨node, hnode, hsound, helem⟩ :=
        branch?_spec h hne (fun _ => by simp) hfits
      obtain ⟨low, -, hlow, hsame⟩ := lowered_spec hsound
      refine ⟨node.lowered, ?_, .sound hlow, hsame.trans helem⟩
      unfold subtree?
      rw [hnode, Option.map_some]

/-- Any children of one height make at most one piece. -/
theorem subtrees?_spec {height : Nat} {items : List α}
    {children : List (Node α)} (h : Level height items children)
    (hfits : children.length ≤ mostWidth) :
    ∃ pieces, subtrees? children = some pieces
      ∧ (∀ piece ∈ pieces, Rooted piece) ∧ elementsOf pieces = items
      ∧ pieces.reverse = pieces := by
  unfold subtrees?
  cases children with
  | nil => exact ⟨[], rfl, nofun, h.elements_eq, rfl⟩
  | cons child rest =>
      obtain ⟨root, hroot, hrooted, helem⟩ :=
        subtree?_spec h (by simp) hfits
      refine ⟨[root], ?_, ?_, ?_, rfl⟩
      · rw [if_neg (by simp), hroot]
        rfl
      · intro piece hpiece
        rw [List.mem_singleton.mp hpiece]
        exact hrooted
      · rw [elementsOf_cons, elementsOf_nil, List.append_nil, helem]

/-- The pieces around a way, given those of the child that it enters
inside. -/
theorem cutAround?_spec {height index inner : Nat}
    {children before after : List (Node α)} {child : Node α}
    (below : Unit → Option (List (Node α) × List (Node α)))
    (hway : Way children index before child after inner)
    (hsound : ∀ node ∈ children, Sound height node)
    (hfits : children.length ≤ mostWidth)
    (hbelow : inner ≠ 0 → ∃ lefts rights,
      below () = some (lefts, rights)
        ∧ Pieces (child.elements.take inner) (child.elements.drop inner)
            lefts rights) :
    ∃ lefts rights,
      cutAround? children before.length inner below = some (lefts, rights)
        ∧ Pieces ((elementsOf children).take index)
            ((elementsOf children).drop index) lefts rights := by
  rw [hway.take_eq, hway.drop_eq]
  have hlevel := Level.of_sound hsound
  obtain rfl := hway.split
  obtain ⟨hleft, hright⟩ := hlevel.of_append
  obtain ⟨-, hrest⟩ := hright.of_cons
  rw [List.length_append, List.length_cons] at hfits
  have hskip : (before ++ child :: after).drop (before.length + 1) = after := by
    rw [List.drop_length_add_append, List.drop_one, List.tail_cons]
  obtain ⟨pieces, hpieces, hrooted, helem, -⟩ :=
    subtrees?_spec hleft (by omega)
  unfold cutAround?
  rw [List.take_left, List.drop_left, hskip, hpieces]
  simp only [Option.bind_eq_bind, Option.bind_some]
  by_cases hedge : inner = 0
  · subst hedge
    obtain ⟨root, hroot, hrootrooted, hrootelem⟩ :=
      subtree?_spec hright (by simp) (by rw [List.length_cons]; omega)
    refine ⟨pieces, [root], ?_, hrooted, ?_, ?_, ?_⟩
    · rw [if_pos (beq_self_eq_true 0), hroot]
      rfl
    · intro piece hpiece
      rw [List.mem_singleton.mp hpiece]
      exact hrootrooted
    · rw [helem, List.take_zero, List.append_nil]
    · rw [List.reverse_singleton, elementsOf_cons, elementsOf_nil,
        List.append_nil, hrootelem, elementsOf_cons, List.drop_zero]
  · obtain ⟨lefts, rights, hcut, hpiecesbelow⟩ := hbelow hedge
    obtain ⟨others, hothers, hotherrooted, hotherelem, hreverse⟩ :=
      subtrees?_spec hrest (by omega)
    refine ⟨pieces ++ lefts, others ++ rights, ?_, ?_, ?_, ?_, ?_⟩
    · rw [if_neg (by simpa using hedge), hothers, hcut]
      rfl
    · intro piece hpiece
      rcases List.mem_append.mp hpiece with hpiece | hpiece
      · exact hrooted piece hpiece
      · exact hpiecesbelow.rooted_left piece hpiece
    · intro piece hpiece
      rcases List.mem_append.mp hpiece with hpiece | hpiece
      · exact hotherrooted piece hpiece
      · exact hpiecesbelow.rooted_right piece hpiece
    · rw [elementsOf_append, helem, hpiecesbelow.before_eq]
    · rw [List.reverse_append, hreverse, elementsOf_append, hotherelem,
        hpiecesbelow.after_eq]

/-- Cutting along a row enters the child at the position. -/
theorem childCut?_eq (before : List (Node α)) (child : Node α)
    (after : List (Node α)) (index : Nat) :
    childCut? (before ++ child :: after) before.length index
      = child.cut? index := by
  induction before with
  | nil => rw [List.nil_append, List.length_nil, childCut?]
  | cons first before ih =>
      rw [List.cons_append, List.length_cons, childCut?, ih]

/-- A branch is cut around the way to the position. -/
theorem cut?_branch {node : Node α} (h : node.isBranch) (index : Nat) :
    node.cut? index = (do
      let (position, inner) ← node.wayTo? index
      cutAround? node.children position inner fun _ =>
        childCut? node.children position inner) := by
  cases node with
  | leaf values => cases h
  | packed shift size below => rw [cut?, children]
  | relaxed table below => rw [cut?, children]

/-- A sound node can be cut anywhere between its ends. -/
theorem cut?_spec {height : Nat} {node : Node α} :
    Sound height node → ∀ {index : Nat}, 0 < index →
      index < node.elements.length →
      ∃ lefts rights, node.cut? index = some (lefts, rights)
        ∧ Pieces (node.elements.take index) (node.elements.drop index)
            lefts rights := by
  induction height generalizing node with
  | zero =>
      intro h index hpos hindex
      cases h with
      | @leaf values nonempty fits =>
          rw [elements] at hindex ⊢
          have hleaf : ∀ run : List α, 0 < run.length →
              run.length ≤ values.length → ∀ piece ∈ [leaf run],
                Rooted piece := by
            intro run hrun hle piece hpiece
            rw [List.mem_singleton.mp hpiece]
            exact .sound (.leaf (List.ne_nil_of_length_pos hrun)
              (Nat.le_trans hle fits))
          refine ⟨[leaf (values.take index)], [leaf (values.drop index)], ?_,
            hleaf _ ?_ ?_, hleaf _ ?_ ?_, ?_, ?_⟩
          · rw [cut?, Run.cut?_eq (Nat.le_of_lt hindex)]
            rfl
          · rw [List.length_take]
            omega
          · rw [List.length_take]
            omega
          · rw [List.length_drop]
            omega
          · rw [List.length_drop]
            omega
          · rw [elementsOf_cons, elementsOf_nil, elements, List.append_nil]
          · rw [List.reverse_singleton, elementsOf_cons, elementsOf_nil,
              elements, List.append_nil]
  | succ height ih =>
      intro h index hpos hindex
      obtain ⟨-, hfits, hsound⟩ := h.children_sound
      obtain ⟨before, child, after, inner, hto, hway⟩ :=
        wayTo?_spec h (Nat.le_of_lt hindex)
      rw [h.elements_eq] at hindex
      have hin := hway.inner_lt hindex
      obtain ⟨lefts, rights, hcut, hpieces⟩ := cutAround?_spec
        (fun _ => childCut? node.children before.length inner)
        hway hsound hfits (by
          intro hinner
          obtain ⟨lefts, rights, hcut, hpieces⟩ :=
            ih (hsound child hway.mem) (Nat.pos_of_ne_zero hinner) hin
          refine ⟨lefts, rights, ?_, hpieces⟩
          rw [hway.split, childCut?_eq, hcut])
      refine ⟨lefts, rights, ?_, ?_⟩
      · rw [cut?_branch h.isBranch, hto, Option.bind_eq_bind,
          Option.bind_some]
        exact hcut
      · rw [h.elements_eq]
        exact hpieces

/-- Splitting a tree before any position divides its elements there. -/
theorem split?_spec {root : Node α} (h : Rooted root) (index : Nat) :
    ∃ left right, root.split? index = some (left, right)
      ∧ Rooted left ∧ Rooted right
      ∧ left.elements = root.elements.take index
      ∧ right.elements = root.elements.drop index := by
  unfold split?
  by_cases hzero : index = 0
  · subst hzero
    refine ⟨empty, root, rfl, .empty, h, ?_, ?_⟩
    · rw [empty, elements, List.take_zero]
    · rw [List.drop_zero]
  rw [if_neg (by simpa using hzero)]
  by_cases hend : root.size ≤ index
  · refine ⟨root, empty, by rw [if_pos hend], h, .empty, ?_, ?_⟩
    · rw [h.size_eq] at hend
      rw [List.take_of_length_le hend]
    · rw [h.size_eq] at hend
      rw [empty, elements, List.drop_of_length_le hend]
  rw [if_neg hend]
  obtain ⟨height, hsound⟩ := h.sound_of_pos (by omega)
  rw [h.size_eq] at hend
  obtain ⟨lefts, rights, hcut, hpieces⟩ :=
    cut?_spec hsound (Nat.pos_of_ne_zero hzero) (Nat.lt_of_not_le hend)
  obtain ⟨left, hleft, hleftrooted, hleftelem⟩ :=
    joinAll?_spec hpieces.rooted_left
  have hreversed : ∀ piece ∈ rights.reverse, Rooted piece :=
    fun piece hpiece =>
      hpieces.rooted_right piece (List.mem_reverse.mp hpiece)
  obtain ⟨right, hright, hrightrooted, hrightelem⟩ :=
    joinAll?_spec hreversed
  refine ⟨left, right, ?_, hleftrooted, hrightrooted, ?_, ?_⟩
  · simp only [hcut, hleft, hright, Option.bind_eq_bind, Option.bind_some]
    rfl
  · rw [hleftelem, hpieces.before_eq]
  · rw [hrightelem, hpieces.after_eq]

end PersistentCollections.Sequence.Node
