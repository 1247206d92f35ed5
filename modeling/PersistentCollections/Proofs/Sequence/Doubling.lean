/-
Sequences joined with themselves, until they are a crowd.

A join evens out the nodes that are small and leaves the others as they
are. So two trees without a gap make a tree without a gap (`Filled`): its
root has the children of both, or, where that would be more than 32, two
full nodes one level up. A sequence of 64 elements that is doubled 54
times has 2 ^ 60 elements below a root of 32 full children
(`doubled_spec`). Another 32 elements make a leaf beside that root, one
level up, and 32 more fill the focus (`Brim`). From there on the tree
takes no leaf at its end, since words cannot count what its root has
room for, and every edit that has to put the focus away stops
(`Brim.flushed_eq`). So `crowd` is not only enough for an edit to stop:
it is met.
-/
import PersistentCollections.Proofs.Sequence.Reachable

namespace PersistentCollections

namespace Sequence

variable {α : Type}

namespace Node

-- ================================================= trees without a gap

/-- A node of so many slots and no gap below it: a leaf, or a packed
branch over full nodes. -/
inductive Filled : Nat → Nat → Node α → Prop where
  | leaf {count : Nat} {values : List α} (slots : values.length = count) :
      Filled 0 count (leaf values)
  | packed {height count : Nat} {children : List (Node α)}
      (slots : children.length = count)
      (full : ∀ child ∈ children, Filled height packedWidth child) :
      Filled (height + 1) count
        (packed ((height + 1) * levelBits) (count * capacity height)
          children)

/-- Nodes of a height that are full. -/
def AllFull (height : Nat) (nodes : List (Node α)) : Prop :=
  ∀ node ∈ nodes, Filled height packedWidth node

/-- Two nodes side by side. -/
theorem allFull_two {height : Nat} {left right : Node α}
    (hl : Filled height packedWidth left)
    (hr : Filled height packedWidth right) :
    AllFull height [left, right] := by
  intro node hnode
  rcases List.mem_cons.mp hnode with rfl | hnode
  · exact hl
  · rw [List.mem_singleton.mp hnode]
    exact hr

namespace Filled

variable {height count : Nat} {node : Node α}

theorem height_eq (h : Filled height count node) : node.height = height := by
  cases h with
  | leaf slots => rw [Node.height]
  | packed slots full =>
      rw [Node.height, levelBits, Nat.mul_div_cancel _ (by omega)]

theorem isRelaxed_eq (h : Filled height count node) :
    node.isRelaxed = false := by
  cases h <;> rfl

theorem size_eq (h : Filled (height + 1) count node) :
    node.size = count * capacity height := by
  cases h with
  | packed slots full => rw [Node.size]

/-- A full node has all the elements that its height has room for. -/
theorem size_full (h : Filled height packedWidth node) :
    node.size = capacity height := by
  cases height with
  | zero =>
      cases h with
      | leaf slots => exact slots
  | succ height => rw [h.size_eq, capacity_succ, Nat.mul_comm]

/-- A node of two slots or more is no mere way to a node below it. -/
theorem lowered_eq (h : Filled height count node) (hmany : 2 ≤ count) :
    node.lowered = node := by
  cases h with
  | leaf slots => rfl
  | @packed _ _ children slots full =>
      match children, slots with
      | [], slots => subst slots; cases hmany
      | [child], slots => subst slots; simp at hmany
      | first :: second :: rest, _ => rfl

end Filled

-- ========================================================== branches

variable {height : Nat} {nodes : List (Node α)}

/-- Nodes of one height that bits can address make a packed branch. -/
theorem branch?_packs (hne : nodes ≠ [])
    (hheight : ∀ node ∈ nodes, node.height = height)
    (hfits : nodes.length ≤ packedWidth)
    (hpacks : packs (capacity height) nodes) :
    branch? nodes = some (packed ((height + 1) * levelBits)
      (SizeTable.sum (nodes.map size)) nodes) := by
  obtain ⟨first, rest, rfl⟩ := List.exists_cons_of_ne_nil hne
  rw [branch?, hheight first List.mem_cons_self]
  exact if_pos (by
    rw [Bool.and_eq_true]
    exact ⟨by simpa using hfits, hpacks⟩)

/-- Full nodes that fit below a packed branch make one. -/
theorem branch?_full (h : AllFull height nodes) (hne : nodes ≠ [])
    (hfits : nodes.length ≤ packedWidth) :
    ∃ node, branch? nodes = some node
      ∧ Filled (height + 1) nodes.length node := by
  obtain ⟨before, last, rfl⟩ : ∃ before last, nodes = before ++ [last] :=
    ⟨_, _, (List.dropLast_concat_getLast hne).symm⟩
  have hbefore : ∀ child ∈ before,
      child.size = capacity height ∧ child.isRelaxed = false :=
    fun child hchild =>
      have hfull := h child (List.mem_append_left _ hchild)
      ⟨hfull.size_full, hfull.isRelaxed_eq⟩
  have hlast := h last (by simp)
  have hsum : SizeTable.sum ((before ++ [last]).map size)
      = (before ++ [last]).length * capacity height := by
    rw [sum_size_concat fun child hchild => (hbefore child hchild).1,
      hlast.size_full, List.length_append, List.length_singleton,
      Nat.add_mul, Nat.one_mul]
  have hbranch := branch?_packs hne
    (fun node hnode => (h node hnode).height_eq) hfits
    ((packs_concat before last).mpr
      ⟨hbefore, Nat.le_of_eq hlast.size_full, hlast.isRelaxed_eq⟩)
  rw [hsum] at hbranch
  exact ⟨_, hbranch, .packed rfl h⟩

/-- Full nodes are wide enough to be left as they are. -/
theorem evenOut?_full (h : AllFull height nodes) :
    evenOut? nodes = some nodes := by
  have hwide : leastWidth ≤ packedWidth := by decide
  match nodes, h with
  | [], _ => rfl
  | [node], _ => rfl
  | first :: second :: rest, h =>
      have hfirst := h first List.mem_cons_self
      cases height with
      | zero =>
          have heven : evenOut? (first :: second :: rest)
              = elementSlots.pour? (first :: second :: rest) := by
            cases hfirst; rfl
          rw [heven]
          refine Slots.pour?_wide fun node hnode => ?_
          cases h node hnode with
          | leaf slots => exact ⟨_, rfl, slots ▸ hwide⟩
      | succ height =>
          have heven : evenOut? (first :: second :: rest)
              = childSlots.pour? (first :: second :: rest) := by
            cases hfirst; rfl
          rw [heven]
          refine Slots.pour?_wide fun node hnode => ?_
          cases h node hnode with
          | packed slots full => exact ⟨_, rfl, slots ▸ hwide⟩

-- ============================================================== joins

/-- A result of two nodes is never low, so nothing is folded. -/
theorem foldLeft?_two (join : Node α → Node α → Option (List (Node α)))
    (height : Nat) (right left : List (Node α)) (first second : Node α) :
    foldLeft? join height right left [first, second]
      = some (left.reverse ++ [first, second] ++ right) := by
  cases left with
  | nil => cases right <;> rfl
  | cons next rest => rfl

/-- The row of full nodes that a join of two gapless trees of one height
gathers, if their edges are joined to two full nodes. -/
theorem joinWithin?_row {bound leftCount rightCount : Nat}
    {left right : Node α} (hl : Filled (height + 1) leftCount left)
    (hr : Filled (height + 1) rightCount right)
    (hleft : 0 < leftCount) (hright : 0 < rightCount)
    (hjoin : ∀ {l r : Node α}, Filled height packedWidth l →
      Filled height packedWidth r →
      ∃ middle, joinWithin? bound l r = some middle ∧ middle.length = 2
        ∧ AllFull height middle) :
    ∃ row, joinWithin? (bound + 1) left right = gatherRow? row
      ∧ row.length = leftCount + rightCount ∧ AllFull height row := by
  have hheightl := hl.height_eq
  have hheightr := hr.height_eq
  cases hl with
  | @packed _ _ lefts slotsl fulll =>
    cases hr with
    | @packed _ _ rights slotsr fullr =>
      obtain ⟨before, edge, rfl⟩ : ∃ before edge, lefts = before ++ [edge] :=
        ⟨_, _, (List.dropLast_concat_getLast
          (List.ne_nil_of_length_pos (by omega))).symm⟩
      obtain ⟨other, after, rfl⟩ := List.exists_cons_of_ne_nil
        (List.ne_nil_of_length_pos (by omega) : rights ≠ [])
      obtain ⟨middle, hmiddle, htwo, hfull⟩ :=
        hjoin (fulll edge (by simp)) (fullr other (by simp))
      obtain ⟨first, second, rfl⟩ := List.length_eq_two.mp htwo
      have hrow : AllFull height (before ++ [first, second] ++ after) := by
        intro node hnode
        simp only [List.append_assoc, List.mem_append] at hnode
        rcases hnode with hnode | hnode | hnode
        · exact fulll node (List.mem_append_left _ hnode)
        · exact hfull node hnode
        · exact fullr node (List.mem_cons_of_mem _ hnode)
      refine ⟨before ++ [first, second] ++ after, ?_, ?_, hrow⟩
      · rw [joinWithin?_succ (by rw [hheightl, hheightr, Nat.max_self]),
          leftEdge?, rightEdge?, hheightl, hheightr]
        simp only [beq_self_eq_true, if_true, children, List.reverse_concat,
          hmiddle, foldLeft?_two, List.reverse_reverse, evenOut?_full hrow,
          Option.bind_eq_bind, Option.bind_some]
      · simp only [List.length_append, List.length_cons, List.length_nil]
          at slotsl slotsr ⊢
        omega

/-- A row of full nodes that fits below one packed branch. -/
theorem gatherRow?_one (h : AllFull height nodes) (hmany : 2 ≤ nodes.length)
    (hfits : nodes.length ≤ packedWidth) :
    ∃ node, gatherRow? nodes = some [node]
      ∧ Filled (height + 1) nodes.length node := by
  obtain ⟨node, hnode, hfilled⟩ :=
    branch?_full h (List.ne_nil_of_length_pos (by omega)) hfits
  refine ⟨node, ?_, hfilled⟩
  have hmost : nodes.length ≤ mostWidth :=
    Nat.le_trans hfits packedWidth_le_mostWidth
  match nodes, hmany, hmost, hnode with
  | first :: second :: rest, _, hmost, hnode =>
      rw [gatherRow?.eq_2 _ (by simp), if_pos hmost, hnode]
      rfl

/-- A row of twice as many full nodes as fit below a packed branch. -/
theorem gatherRow?_two (h : AllFull height nodes)
    (hlength : nodes.length = packedWidth + packedWidth) :
    ∃ middle, gatherRow? nodes = some middle ∧ middle.length = 2
      ∧ AllFull (height + 1) middle := by
  have hleft : (Run.halves nodes).1.length = packedWidth := by
    rw [Run.halves, List.length_take, hlength]
    decide
  have hright : (Run.halves nodes).2.length = packedWidth := by
    rw [Run.halves, List.length_drop, hlength]
    decide
  obtain ⟨left, hl, hfulll⟩ := branch?_full
    (fun node hnode => h node (Run.mem_of_mem_halves (.inl hnode)))
    (List.ne_nil_of_length_pos (by rw [hleft]; decide)) (Nat.le_of_eq hleft)
  obtain ⟨right, hr, hfullr⟩ := branch?_full
    (fun node hnode => h node (Run.mem_of_mem_halves (.inr hnode)))
    (List.ne_nil_of_length_pos (by rw [hright]; decide))
    (Nat.le_of_eq hright)
  rw [hleft] at hfulll
  rw [hright] at hfullr
  have hover : ¬ nodes.length ≤ mostWidth := by
    rw [hlength]
    decide
  refine ⟨[left, right], ?_, rfl, allFull_two hfulll hfullr⟩
  match nodes, hlength with
  | first :: second :: rest, _ =>
      rw [gatherRow?.eq_2 _ (by simp), if_neg hover]
      simp only [hl, hr, Option.bind_eq_bind, Option.bind_some,
        Option.pure_def]

/-- Two full nodes of one height are joined to two full nodes. -/
theorem joinWithin?_full :
    ∀ {height bound : Nat} {left right : Node α},
      Filled height packedWidth left → Filled height packedWidth right →
      height ≤ bound →
      ∃ middle, joinWithin? bound left right = some middle
        ∧ middle.length = 2 ∧ AllFull height middle := by
  intro height
  induction height with
  | zero =>
      intro bound left right hl hr _
      have hboth := allFull_two hl hr
      refine ⟨[left, right], ?_, rfl, hboth⟩
      rw [joinWithin?_zero (by rw [hl.height_eq, hr.height_eq]; rfl)]
      exact evenOut?_full hboth
  | succ height ih =>
      intro bound left right hl hr hle
      cases bound with
      | zero => omega
      | succ bound =>
          obtain ⟨row, hrow, hlength, hfull⟩ := joinWithin?_row hl hr
            (by decide) (by decide)
            fun hl hr => ih hl hr (Nat.le_of_succ_le_succ hle)
          obtain ⟨middle, hmiddle, htwo, hmiddlefull⟩ :=
            gatherRow?_two hfull hlength
          exact ⟨middle, hrow.trans hmiddle, htwo, hmiddlefull⟩

/-- The height and the number of children that doubling leads to. -/
def Doubled (times : Nat) (root : Node α) : Prop :=
  Filled (times / 5 + 1) (2 <<< (times % 5)) root

/-- 64 children are two full nodes below a new root. -/
theorem doubled_over {times : Nat} {root : Node α} (hlast : times % 5 = 4)
    (h : Filled (times / 5 + 2) 2 root) : Doubled (times + 1) root := by
  have hheight : (times + 1) / 5 = times / 5 + 1 := by omega
  have hslots : (times + 1) % 5 = 0 := by omega
  rw [Doubled, hheight, hslots]
  exact h

/-- No more than 32 children stay below one root. -/
theorem doubled_within {times : Nat} {root : Node α}
    (hlast : times % 5 ≠ 4)
    (h : Filled (times / 5 + 1) (2 <<< (times % 5 + 1)) root) :
    Doubled (times + 1) root := by
  have hfive : times % 5 < 5 := Nat.mod_lt _ (by decide)
  have hheight : (times + 1) / 5 = times / 5 := by omega
  have hslots : (times + 1) % 5 = times % 5 + 1 := by omega
  rw [Doubled, hheight, hslots]
  exact h

/-- A tree that has been doubled has elements. -/
theorem Doubled.size_ne {times : Nat} {root : Node α}
    (h : Doubled times root) : (root.size == 0) = false := by
  have hslots : 0 < 2 <<< (times % 5) := by
    rw [Nat.shiftLeft_eq]
    exact Nat.mul_pos Nat.two_pos (Nat.two_pow_pos _)
  have hpos := Nat.mul_pos hslots (capacity_pos (times / 5))
  rw [h.size_eq]
  simpa using Nat.ne_of_gt hpos

/-- Two gapless trees of one shape are joined to the next one. -/
theorem join?_doubled {times : Nat} {left right : Node α}
    (hl : Doubled times left) (hr : Doubled times right) :
    ∃ root, join? left right = some root ∧ Doubled (times + 1) root := by
  have hfive : times % 5 < 5 := Nat.mod_lt _ (by decide)
  have htwo : 2 ≤ 2 <<< (times % 5) := by
    rw [Nat.shiftLeft_eq]
    exact Nat.le_mul_of_pos_right 2 (Nat.two_pow_pos _)
  obtain ⟨row, hrow, hlength, hfull⟩ := joinWithin?_row hl hr
    (by omega) (by omega)
    fun hl hr => joinWithin?_full hl hr (Nat.le_refl (times / 5))
  unfold join? joinSeam?
  rw [hl.size_ne, hr.size_ne, hl.height_eq, hr.height_eq, Nat.max_self, hrow]
  by_cases hlast : times % 5 = 4
  · rw [hlast] at hlength
    obtain ⟨middle, hmiddle, hlen, hmiddlefull⟩ :=
      gatherRow?_two hfull hlength
    obtain ⟨first, second, rfl⟩ := List.length_eq_two.mp hlen
    obtain ⟨root, hroot, hfilled⟩ :=
      branch?_full hmiddlefull (by simp) (show 2 ≤ packedWidth by decide)
    refine ⟨root, ?_, doubled_over hlast hfilled⟩
    rw [hmiddle]
    exact hroot
  · have hdouble : 2 <<< (times % 5) + 2 <<< (times % 5)
        = 2 <<< (times % 5 + 1) := by
      rw [Nat.shiftLeft_eq, Nat.shiftLeft_eq, Nat.pow_succ]
      omega
    rw [hdouble] at hlength
    have hfits : 2 <<< (times % 5 + 1) ≤ packedWidth := by
      have hfour : times % 5 + 1 ≤ 4 := by omega
      rw [Nat.shiftLeft_eq]
      exact Nat.mul_le_mul_left 2 (Nat.pow_le_pow_right Nat.two_pos hfour)
    obtain ⟨node, hnode, hfilled⟩ :=
      gatherRow?_one hfull (by omega) (by omega)
    rw [hlength] at hfilled
    refine ⟨node, ?_, doubled_within hlast hfilled⟩
    rw [hnode]
    exact congrArg some (hfilled.lowered_eq (by omega))

-- ================================================= a leaf at the end

/-- As many elements as fill a focus are some. -/
theorem not_isEmpty_of_full {items : List α}
    (h : items.length = packedWidth) : ¬ items.isEmpty := by
  rw [List.isEmpty_iff_length_eq_zero, h]
  decide

/-- A full leaf at the end of a packed branch takes the short way. -/
theorem insertInto_short {shift size : Nat} {children : List (Node α)}
    {items : List α} (halign : size % packedWidth = 0)
    (hitems : items.length = packedWidth) :
    (packed shift size children).insertInto size items
      = (packed shift size children).appendLeaf (leaf items) := by
  rw [insertInto_branch rfl, if_pos]
  simp only [appends, isRelaxed, Node.size, hitems, halign,
    beq_self_eq_true, Bool.not_false, Bool.and_self]

/-- A branch without a gap and without room gets a neighbour for a full
leaf, below a new root. -/
theorem insertRun_beside {root : Node α} {items : List α}
    (h : Filled (height + 1) packedWidth root)
    (hitems : items.length = packedWidth)
    (hwords : capacity (height + 1) < wordSize) :
    ∃ children, root.insertRun (capacity (height + 1)) items
      = .ok (packed ((height + 2) * levelBits)
          (capacity (height + 1) + packedWidth) children) := by
  have halign : capacity (height + 1) % packedWidth = 0 := by
    rw [capacity_succ]
    exact Nat.mul_mod_left _ _
  obtain ⟨hraised, helem, hrel⟩ := raiseTo_leaf (height + 1) hitems hwords
  have hsize : ((leaf items).raiseTo (height + 1)).size = packedWidth := by
    rw [hraised.size_eq, helem, hitems]
  -- the branch is as large as it has room, so the leaf goes beside it
  have hinto : root.insertInto (capacity (height + 1)) items
      = .ok (.two root ((leaf items).raiseTo (height + 1))) := by
    have hfull := h.size_full
    cases h with
    | packed slots full =>
        rw [Node.size] at hfull
        rw [hfull, insertInto_short halign hitems,
          appendLeaf_packed _ hwords, if_pos rfl]
  have hpacks : packs (capacity (height + 1))
      [root, (leaf items).raiseTo (height + 1)] := by
    refine packs_cons_cons.mpr ⟨⟨h.size_full, h.isRelaxed_eq⟩, ?_⟩
    rw [packs, hsize, hrel, Bool.not_false, Bool.and_true,
      decide_eq_true_eq]
    exact packedWidth_le_capacity _
  have hbranch := branch?_packs (by simp)
    (by simp [h.height_eq, hraised.height_eq])
    (Nat.le_of_ble_eq_true rfl) hpacks
  rw [List.map_cons, List.map_singleton, h.size_full, hsize] at hbranch
  refine ⟨[root, (leaf items).raiseTo (height + 1)], ?_⟩
  rw [insertRun, if_neg (not_isEmpty_of_full hitems), hinto]
  show Failure.ofShape (branch? _) = _
  rw [hbranch]
  rfl

/-- A tall branch of which words can count one full child stops at the
next full leaf. -/
theorem insertRun_past {size : Nat} {children : List (Node α)}
    {items : List α} (halign : size % packedWidth = 0)
    (hitems : items.length = packedWidth)
    (hlow : capacity height < wordSize) (htall : Tall height) :
    (packed ((height + 1) * levelBits) size children).insertRun size items
      = .error (.overflow "multiply") := by
  rw [insertRun, if_neg (not_isEmpty_of_full hitems),
    insertInto_short halign hitems, appendLeaf_past _ hlow htall]
  rfl

end Node

-- ============================================== doubling a sequence

/-- A sequence joined with itself, and again with what that gives. -/
def doubled (seq : Sequence α) : Nat → Except Failure (Sequence α)
  | 0 => .ok seq
  | times + 1 => do
    let long ← seq.doubled times
    long.append long

/-- A sequence of 64 elements doubled so many times. -/
structure Doubles (times : Nat) (seq : Sequence α) : Prop where
  flushes : ∃ root, seq.flushed = .ok root ∧ Node.Doubled times root
  length_eq : seq.length = 64 <<< times

/-- A sequence that is joined tree to tree is not empty. -/
theorem not_isEmpty_of_long {seq : Sequence α}
    (h : packedWidth ≤ seq.length) : ¬ seq.isEmpty = true := by
  rw [isEmpty, beq_iff_eq]
  exact Nat.ne_of_gt (Nat.lt_of_lt_of_le (by decide) h)

/-- Two long sequences that flush are joined tree to tree. -/
theorem append_joined {left right : Sequence α} {rootl rootr root : Node α}
    (hl : left.flushed = .ok rootl) (hr : right.flushed = .ok rootr)
    (hjoin : rootl.join? rootr = some root)
    (hlongl : packedWidth ≤ left.length)
    (hlongr : packedWidth ≤ right.length)
    (hwords : left.length + right.length < wordSize) :
    left.append right = .ok (ofRoot root (left.length + right.length)) := by
  unfold append
  rw [if_neg (not_isEmpty_of_long hlongr),
    if_neg (not_isEmpty_of_long hlongl),
    if_neg (Nat.not_lt_of_le hlongr), if_neg (Nat.not_lt_of_le hlongl),
    hl, hr]
  show (do
    let root ← Failure.ofShape (rootl.join? rootr)
    return ofRoot root (← inWord "add" (left.length + right.length))) = _
  rw [hjoin, inWord_of_lt _ hwords]
  rfl

namespace Doubles

variable {times : Nat} {seq : Sequence α}

/-- There are no fewer elements than at the start. -/
theorem le_length (h : Doubles times seq) : 64 ≤ seq.length := by
  rw [h.length_eq, Nat.shiftLeft_eq]
  exact Nat.le_mul_of_pos_right 64 (Nat.two_pow_pos times)

/-- Doubling the elements. -/
theorem twice (h : Doubles times seq) :
    seq.length + seq.length = 64 <<< (times + 1) := by
  rw [h.length_eq, Nat.shiftLeft_eq, Nat.shiftLeft_eq, Nat.pow_succ]
  omega

end Doubles

/-- Doubling more often leads to more elements. -/
theorem doubled_mono {times more : Nat} (h : times ≤ more) :
    64 <<< times ≤ 64 <<< more := by
  rw [Nat.shiftLeft_eq, Nat.shiftLeft_eq]
  exact Nat.mul_le_mul_left 64 (Nat.pow_le_pow_right Nat.two_pos h)

/-- Joining with itself, as long as words can count the elements. -/
theorem append_doubled {times : Nat} {seq : Sequence α}
    (h : Doubles times seq) (hwords : times < 57) :
    ∃ root, seq.append seq = .ok (ofRoot root (64 <<< (times + 1)))
      ∧ Node.Doubled (times + 1) root := by
  obtain ⟨root, hflush, hroot⟩ := h.flushes
  obtain ⟨joined, hjoin, hjoined⟩ := Node.join?_doubled hroot hroot
  have hfits : seq.length + seq.length < wordSize := by
    rw [h.twice]
    exact Nat.lt_of_le_of_lt (doubled_mono hwords) (by decide)
  have hlong : packedWidth ≤ seq.length :=
    Nat.le_trans (by decide) h.le_length
  have happend := append_joined hflush hflush hjoin hlong hlong hfits
  rw [h.twice] at happend
  exact ⟨joined, happend, hjoined⟩

/-- A sequence of a tree alone has nothing to put away. -/
theorem ofRoot_flushed (root : Node α) (length : Nat) :
    (ofRoot root length).flushed = .ok root := rfl

/-- Doubling again and again, as long as words can count the elements. -/
theorem doubled_spec {seq : Sequence α} (h : Doubles 0 seq) :
    ∀ {times : Nat}, times < 57 →
      ∃ root, seq.doubled (times + 1)
          = .ok (ofRoot root (64 <<< (times + 1)))
        ∧ Node.Doubled (times + 1) root := by
  intro times
  induction times with
  | zero => exact append_doubled h
  | succ times ih =>
      intro hwords
      obtain ⟨root, hlong, hroot⟩ := ih (by omega)
      rw [doubled, hlong]
      exact append_doubled ⟨⟨root, ofRoot_flushed _ _, hroot⟩, rfl⟩ hwords

/-- What doubling leads to can be doubled. -/
theorem doubled_doubles {seq : Sequence α} (h : Doubles 0 seq)
    {times : Nat} (hwords : times ≤ 57) :
    ∃ long, seq.doubled times = .ok long ∧ Doubles times long := by
  cases times with
  | zero => exact ⟨seq, rfl, h⟩
  | succ times =>
      obtain ⟨root, hlong, hroot⟩ := doubled_spec h hwords
      exact ⟨_, hlong, ⟨root, ofRoot_flushed _ _, hroot⟩, rfl⟩

/-- What doubling makes of a reachable sequence is reachable. -/
theorem Reachable.doubled {seq : Sequence α} (h : Reachable seq) :
    ∀ {times : Nat} {long : Sequence α},
      seq.doubled times = .ok long → Reachable long := by
  intro times
  induction times with
  | zero =>
      intro long hlong
      cases hlong
      exact h
  | succ times ih =>
      intro long hlong
      rw [Sequence.doubled] at hlong
      cases hhalf : seq.doubled times with
      | error cause =>
          rw [hhalf] at hlong
          cases hlong
      | ok half =>
          rw [hhalf] at hlong
          exact .append (ih hhalf) (ih hhalf) hlong

/-- And so is what appending makes of it. -/
theorem Reachable.pushAll {values : List α} :
    ∀ {seq pushed : Sequence α}, Reachable seq →
      values.foldlM Sequence.push seq = .ok pushed → Reachable pushed := by
  induction values with
  | nil =>
      intro seq pushed h hpushed
      cases hpushed
      exact h
  | cons value rest ih =>
      intro seq pushed h hpushed
      rw [List.foldlM_cons] at hpushed
      cases hpush : seq.push value with
      | error cause =>
          rw [hpush] at hpushed
          cases hpushed
      | ok next =>
          rw [hpush] at hpushed
          exact ih (.push h hpush) hpushed

-- ============================================ two focuses of elements

/-- Elements that the focus at the end has room for. -/
theorem pushAll_room {root : Node α} {start : Nat} (values : List α) :
    ∀ {focus : List α}, focus.length + values.length ≤ packedWidth →
      start + (focus.length + values.length) < wordSize →
      values.foldlM push ⟨root, focus, start, start + focus.length⟩
        = .ok ⟨root, focus ++ values, start,
            start + (focus.length + values.length)⟩ := by
  induction values with
  | nil =>
      intro focus _ _
      rw [List.append_nil]
      rfl
  | cons value rest ih =>
      intro focus hroom hwords
      rw [List.length_cons] at hroom hwords ⊢
      have hpush : push ⟨root, focus, start, start + focus.length⟩ value
          = .ok ⟨root, focus ++ [value], start,
              start + (focus ++ [value]).length⟩ := by
        unfold push focusEnd counted
        rw [if_pos (by simp; omega),
          inWord_of_lt _ (show start + focus.length + 1 < _ by omega),
          List.length_append]
        rfl
      have hone : (focus ++ [value]).length + rest.length
          = focus.length + (rest.length + 1) := by
        rw [List.length_append, List.length_singleton, Nat.add_assoc,
          Nat.add_comm 1]
      rw [List.foldlM_cons, hpush]
      refine (ih (by omega) (by omega)).trans ?_
      rw [hone, List.append_assoc]
      rfl

/-- Elements past a full focus at the end, which goes into the tree. -/
theorem pushAll_refocus {root flushed : Node α} {focus values : List α}
    {start : Nat} (hfocus : focus.length = packedWidth)
    (hflush : root.insertRun start focus = .ok flushed)
    (hvalues : values.length = packedWidth)
    (hwords : start + 64 < wordSize) :
    values.foldlM push ⟨root, focus, start, start + packedWidth⟩
      = .ok ⟨flushed, values, start + 32, start + 64⟩ := by
  obtain ⟨value, rest, rfl⟩ := List.exists_cons_of_ne_nil
    (List.ne_nil_of_length_pos (by rw [hvalues]; decide))
  have hpush : push ⟨root, focus, start, start + packedWidth⟩ value
      = .ok ⟨flushed, [value], start + packedWidth,
          start + packedWidth + 1⟩ := by
    unfold push refocus Sequence.flushed counted
    rw [if_neg (by simp [hfocus]), hflush,
      inWord_of_lt _ (show start + packedWidth + 1 < _ by
        change start + 32 + 1 < _
        omega)]
    rfl
  rw [List.length_cons] at hvalues
  have hcount : [value].length + rest.length = packedWidth := by
    rw [← hvalues, Nat.add_comm]
    rfl
  rw [List.foldlM_cons, hpush]
  refine (pushAll_room rest (Nat.le_of_eq hcount) ?_).trans ?_
  · rw [hcount]
    exact hwords
  · rw [hcount]
    rfl

/-- Twice as many elements as a focus has room for, behind a tree. -/
theorem pushAll_twice {root flushed : Node α} {front back : List α}
    {length : Nat} (hfront : front.length = packedWidth)
    (hflush : root.insertRun length front = .ok flushed)
    (hback : back.length = packedWidth) (hwords : length + 64 < wordSize) :
    (front ++ back).foldlM push (ofRoot root length)
      = .ok ⟨flushed, back, length + 32, length + 64⟩ := by
  have hcount : ([] : List α).length + front.length = packedWidth := by
    rw [hfront]
    rfl
  have hfill : front.foldlM push (ofRoot root length)
      = .ok ⟨root, front, length, length + packedWidth⟩ := by
    rw [← hcount]
    refine pushAll_room front (Nat.le_of_eq hcount) ?_
    rw [hcount]
    exact Nat.lt_of_le_of_lt (Nat.add_le_add_left (by decide) length) hwords
  rw [List.foldlM_append, hfill]
  exact pushAll_refocus hfront hflush hback hwords

-- ============================================================ the brim

/-- A sequence that has come to the edge: its tree takes no other leaf at
the end, and its focus no other element. -/
structure Brim (seq : Sequence α) : Prop where
  root_eq : ∃ children, seq.root
    = .packed (12 * levelBits) ((1 <<< 60) + packedWidth) children
  focus_full : seq.focus.length = packedWidth
  start_eq : seq.focusStart = (1 <<< 60) + packedWidth
  length_eq : seq.length = crowd

/-- At the brim the focus cannot be put away. -/
theorem Brim.flushed_eq {seq : Sequence α} (h : Brim seq) :
    seq.flushed = .error (.overflow "multiply") := by
  obtain ⟨⟨children, hroot⟩, hfocus, hstart, -⟩ := h
  rw [flushed, hroot, hstart]
  have htall : Node.Tall 11 := by
    unfold Node.Tall
    decide
  exact Node.insertRun_past (by decide) hfocus (by decide) htall

/-- Elements for two focuses. -/
theorem split_focuses {values : List α} (h : values.length = 64) :
    ∃ front back, values = front ++ back ∧ front.length = packedWidth
      ∧ back.length = packedWidth := by
  refine ⟨_, _, (List.take_append_drop packedWidth values).symm, ?_, ?_⟩
  · rw [List.length_take, h]
    rfl
  · rw [List.length_drop, h]
    rfl

namespace Brim

variable {seq : Sequence α}

/-- At the brim no other focus can be started. -/
theorem refocus_eq (h : Brim seq) (index : Nat) (value : α) :
    seq.refocus index value = .error (.overflow "multiply") := by
  rw [refocus, h.flushed_eq]
  rfl

/-- Nothing can be appended. -/
theorem push_eq (h : Brim seq) (value : α) :
    seq.push value = .error (.overflow "multiply") := by
  unfold push
  rw [if_neg (by simp [h.focus_full]), h.refocus_eq]

/-- Nothing can be inserted. -/
theorem insert_eq (h : Brim seq) (value : α) {index : Nat}
    (hindex : index ≤ seq.length) :
    seq.insert index value = .error (.overflow "multiply") := by
  unfold insert
  rw [if_neg (Nat.not_lt_of_le hindex), h.push_eq, h.refocus_eq]
  exact ite_self _

/-- No cut can be made in front of the focus. -/
theorem splitAt_eq (h : Brim seq) {index : Nat} (hpos : 0 < index)
    (hbefore : index < (1 <<< 60) + packedWidth) :
    seq.splitAt index = .error (.overflow "multiply") := by
  have hadmitted : ¬ (index == 0 || decide (seq.length < index)) = true := by
    have hlength : (1 <<< 60) + packedWidth ≤ crowd := by decide
    rw [h.length_eq, Bool.or_eq_true, beq_iff_eq, decide_eq_true_eq]
    omega
  have hoff : ¬ (decide (seq.focusStart ≤ index)
      && decide (index ≤ seq.focusEnd)) = true := by
    rw [h.start_eq, Bool.and_eq_true, decide_eq_true_eq]
    exact fun hinside => absurd hinside.1 (Nat.not_le_of_lt hbefore)
  unfold splitAt
  rw [if_neg hadmitted, if_neg hoff, h.flushed_eq]
  rfl

/-- The first element cannot be taken out. -/
theorem eraseAt_eq (h : Brim seq) :
    seq.eraseAt 0 = .error (.overflow "multiply") := by
  have hsome : ¬ seq.length ≤ 0 := by
    rw [h.length_eq]
    decide
  unfold eraseAt
  rw [if_neg hsome, if_pos (beq_self_eq_true 0),
    h.splitAt_eq Nat.one_pos (by decide)]
  rfl

/-- No long sequence can be joined to it. -/
theorem append_eq (h : Brim seq) {right : Sequence α}
    (hlong : packedWidth ≤ right.length) :
    seq.append right = .error (.overflow "multiply") := by
  have hleft : packedWidth ≤ seq.length := by
    rw [h.length_eq]
    decide
  unfold append
  rw [if_neg (not_isEmpty_of_long hlong),
    if_neg (not_isEmpty_of_long hleft),
    if_neg (Nat.not_lt_of_le hlong), if_neg (Nat.not_lt_of_le hleft),
    h.flushed_eq]
  rfl

end Brim

/-- The first 64 elements flush into a tree of two full leaves. -/
theorem ofList_doubles {values : List α} (h : values.length = 64) :
    ∃ seq, ofList values = .ok seq ∧ Doubles 0 seq := by
  obtain ⟨front, back, rfl, hfront, hback⟩ := split_focuses h
  have hfirst : Node.empty.insertRun 0 front = .ok (.leaf front) := by
    have hinto : Node.empty.insertInto 0 front
        = .ok (.one (.leaf front)) := by
      have hfits : ([] : List α).length + front.length ≤ mostWidth := by
        rw [hfront]
        exact Nat.le_of_ble_eq_true rfl
      rw [Node.empty, Node.insertInto, Node.insertIntoLeaf?, if_pos hfits,
        Run.insert?_eq (Nat.zero_le _)]
      simp [Failure.ofShape]
    rw [Node.insertRun, if_neg (Node.not_isEmpty_of_full hfront), hinto]
    rfl
  obtain ⟨root, hroot, hfilled⟩ := Node.branch?_full
    (Node.allFull_two (.leaf hfront) (.leaf hback)) (by simp)
    (Nat.le_of_ble_eq_true rfl)
  have hsecond : (Node.leaf front).insertRun packedWidth back
      = .ok root := by
    have hinto : (Node.leaf front).insertInto packedWidth back
        = .ok (.two (.leaf front) (.leaf back)) := by
      rw [Node.insertInto, Node.insertIntoLeaf?, hfront, hback,
        if_neg (by decide), if_pos (by decide)]
      rfl
    rw [Node.insertRun, if_neg (Node.not_isEmpty_of_full hback), hinto]
    show Failure.ofShape (Node.branch? _) = _
    rw [hroot]
    rfl
  refine ⟨_, pushAll_twice hfront hfirst hback (by decide),
    ⟨root, ?_, hfilled⟩, rfl⟩
  exact hsecond

/-- Doubling leads to a sequence that another 64 elements bring to the
brim. -/
theorem exists_brim {values : List α} (h : values.length = 64) :
    ∃ start long seq, ofList values = .ok start
      ∧ start.doubled 54 = .ok long ∧ values.foldlM push long = .ok seq
      ∧ Reachable seq ∧ Brim seq := by
  obtain ⟨start, hstart, hdoubles⟩ := ofList_doubles h
  obtain ⟨root, hlong, hroot⟩ := doubled_spec hdoubles (by decide : 53 < 57)
  obtain ⟨front, back, rfl, hfront, hback⟩ := split_focuses h
  -- 54 doublings fill a root of height eleven
  have hfull : Node.Filled 11 packedWidth root := hroot
  have hsize : 64 <<< (53 + 1) = Node.capacity 11 := by decide
  rw [hsize] at hlong
  obtain ⟨children, hbeside⟩ :=
    Node.insertRun_beside hfull hfront (by decide)
  have hseq := pushAll_twice hfront hbeside hback (by decide)
  exact ⟨start, _, _, hstart, hlong, hseq,
    .pushAll (.doubled (.ofList hstart) hlong) hseq,
    ⟨children, rfl⟩, hback, rfl, rfl⟩

end Sequence

end PersistentCollections
