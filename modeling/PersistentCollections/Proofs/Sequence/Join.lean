/-
Joining two trees goes through, whatever their heights are, and answers
their elements one after the other.

What a join of two nodes hands up is a level of one or two nodes at the
greater of their heights, or a single node below that height
(`Joined`). This is what the next join up needs: a result that is low
meets a sibling, and joining the two is a join at the level of the
sibling again, so folding ends in a row of one height, or in the low
node alone where there is no sibling. A row has at most 43 nodes from
either tree and two in the middle, so after evening out it fits below
two branches.

The bound of the recursion is a bound on the heights: the edges of two
trees lie below the taller of them.
-/
import PersistentCollections.Proofs.Sequence.Rebalance
import PersistentCollections.Sequence.Node.Join

namespace PersistentCollections.Sequence.Node

variable {α : Type}

-- ==================================================== what a join gives

/-- A row of nodes of one height, so many at most, or a single node
below that height. -/
inductive Joined (height most : Nat) (items : List α) :
    List (Node α) → Prop where
  | level {nodes : List (Node α)} (level : Level height items nodes)
      (nonempty : nodes ≠ []) (fits : nodes.length ≤ most) :
      Joined height most items nodes
  | low {node : Node α} {below : Nat} (sound : Sound below node)
      (low : below < height) (elements_eq : node.elements = items) :
      Joined height most items [node]

/-- A function that joins any two sound nodes whose greater height is
`height`. -/
def JoinsAt (join : Node α → Node α → Option (List (Node α)))
    (height : Nat) : Prop :=
  ∀ {leftHeight rightHeight : Nat} {left right : Node α},
    Sound leftHeight left → Sound rightHeight right →
    max leftHeight rightHeight = height →
    ∃ nodes, join left right = some nodes
      ∧ Joined height 2 (left.elements ++ right.elements) nodes

/-- No node of a level counts as low for it. -/
theorem low?_level {height : Nat} {items : List α}
    {nodes : List (Node α)} (h : Level height items nodes) :
    low? (height + 1) nodes = none := by
  match nodes with
  | [] => rfl
  | [node] =>
      obtain ⟨hnode, -⟩ := h.sound_one
      rw [low?, hnode.height_eq, if_neg (Nat.lt_irrefl _)]
  | first :: second :: rest => rfl

/-- A node below the level counts as low. -/
theorem low?_low {height below : Nat} {node : Node α}
    (h : Sound below node) (hlow : below < height) :
    low? (height + 1) [node] = some node := by
  rw [low?, h.height_eq, if_pos (Nat.succ_lt_succ hlow)]

-- =============================================================== folding

/-- Folding into the siblings on the right ends in a row of one height,
or in the low node alone where there are none. -/
theorem foldRight?_spec {height : Nat}
    {join : Node α → Node α → Option (List (Node α))}
    (hjoin : JoinsAt join height) :
    ∀ {right middle : List (Node α)} {items inner : List α},
      Joined height 2 inner middle → Level height items right →
      ∃ row, foldRight? join (height + 1) middle right = some row
        ∧ Joined height (2 + right.length) (inner ++ items) row := by
  intro right
  induction right with
  | nil =>
      intro middle items inner hmiddle hright
      have hnil : items = [] := by
        rw [← hright.elements_eq, elementsOf_nil]
      subst hnil
      rw [List.append_nil]
      exact ⟨middle, rfl, hmiddle⟩
  | cons next rest ih =>
      intro middle items inner hmiddle hright
      obtain ⟨hfirst, hrest⟩ := hright.of_cons
      obtain ⟨hnext, hitems⟩ := hfirst.sound_one
      have hsplit : items = next.elements ++ elementsOf rest := by
        rw [← hright.elements_eq, elementsOf_cons]
      cases hmiddle with
      | level hlevel hne hfits =>
          refine ⟨middle ++ next :: rest, ?_, ?_⟩
          · rw [foldRight?, low?_level hlevel]
          · refine .level (hlevel.append hright) (by simp) ?_
            rw [List.length_append]
            omega
      | @low single below hsingle hlow helem =>
          obtain ⟨nodes, hnodes, hjoined⟩ :=
            hjoin hsingle hnext (by omega)
          obtain ⟨row, hrow, hfolded⟩ := ih hjoined hrest
          refine ⟨row, ?_, ?_⟩
          · simp only [foldRight?, low?_low hsingle hlow, hnodes,
              Option.bind_eq_bind, Option.bind_some, hrow]
          · rw [helem, List.append_assoc, ← hsplit] at hfolded
            cases hfolded with
            | level hlevel hne hfits =>
                refine .level hlevel hne (Nat.le_trans hfits ?_)
                rw [List.length_cons]
                omega
            | low hsound hless heq => exact .low hsound hless heq

/-- Folding into the siblings on the left, nearest first, and then into
those on the right. -/
theorem foldLeft?_spec {height : Nat}
    {join : Node α → Node α → Option (List (Node α))}
    (hjoin : JoinsAt join height) {right : List (Node α)}
    {after : List α} (hright : Level height after right) :
    ∀ {left middle : List (Node α)} {before inner : List α},
      Level height before left.reverse → Joined height 2 inner middle →
      ∃ row, foldLeft? join (height + 1) right left middle = some row
        ∧ Joined height (left.length + 2 + right.length)
            (before ++ inner ++ after) row := by
  intro left
  induction left with
  | nil =>
      intro middle before inner hleft hmiddle
      have hnil : before = [] := by
        rw [← hleft.elements_eq, List.reverse_nil, elementsOf_nil]
      subst hnil
      obtain ⟨row, hrow, hfolded⟩ := foldRight?_spec hjoin hmiddle hright
      refine ⟨row, by rw [foldLeft?, hrow], ?_⟩
      rwa [List.length_nil, Nat.zero_add, List.nil_append]
  | cons next rest ih =>
      intro middle before inner hleft hmiddle
      rw [List.reverse_cons] at hleft
      obtain ⟨hrest, hlast⟩ := hleft.of_append
      obtain ⟨hnext, hitems⟩ := hlast.sound_one
      have hsplit : before = elementsOf rest.reverse ++ next.elements := by
        rw [← hleft.elements_eq, elementsOf_append, hitems]
      cases hmiddle with
      | level hlevel hne hfits =>
          refine ⟨(next :: rest).reverse ++ middle ++ right, ?_, ?_⟩
          · rw [foldLeft?, low?_level hlevel]
          · rw [List.reverse_cons]
            refine .level ((hleft.append hlevel).append hright)
              (by simp) ?_
            simp only [List.length_append, List.length_reverse,
              List.length_cons, List.length_nil]
            omega
      | @low single below hsingle hlow helem =>
          obtain ⟨nodes, hnodes, hjoined⟩ :=
            hjoin hnext hsingle (by omega)
          obtain ⟨row, hrow, hfolded⟩ := ih hrest hjoined
          refine ⟨row, ?_, ?_⟩
          · simp only [foldLeft?, low?_low hsingle hlow, hnodes,
              Option.bind_eq_bind, Option.bind_some, hrow]
          · rw [helem, ← List.append_assoc, ← hsplit] at hfolded
            cases hfolded with
            | level hlevel hne hfits =>
                refine .level hlevel hne (Nat.le_trans hfits ?_)
                rw [List.length_cons]
                omega
            | low hsound hless heq => exact .low hsound hless heq

-- ================================================================= edges

/-- The inner edge of the left tree: its last child if it is as high as
the join, the tree itself otherwise. -/
theorem leftEdge?_spec {height low : Nat} {node : Node α}
    (h : Sound low node) (hle : low ≤ height + 1) :
    ∃ rest edge items, leftEdge? (height + 1) node = some (rest, edge)
      ∧ Sound (min low height) edge ∧ Level height items rest.reverse
      ∧ rest.length < mostWidth
      ∧ node.elements = items ++ edge.elements := by
  unfold leftEdge?
  rw [h.height_eq]
  by_cases heq : low = height + 1
  · subst heq
    obtain ⟨hne, hfits, hsound⟩ := h.children_sound
    obtain ⟨rest, edge, hsplit⟩ : ∃ rest edge,
        node.children = rest ++ [edge] :=
      ⟨_, _, (List.dropLast_concat_getLast hne).symm⟩
    have hlevel := Level.of_sound hsound
    rw [hsplit] at hlevel hfits
    obtain ⟨hrest, hlast⟩ := hlevel.of_append
    rw [if_pos (by simp), hsplit, List.reverse_concat]
    refine ⟨rest.reverse, edge, elementsOf rest, rfl, ?_, ?_, ?_, ?_⟩
    · rw [Nat.min_eq_right (Nat.le_succ _)]
      exact hlast.sound_one.1
    · rw [List.reverse_reverse]
      exact hrest
    · rw [List.length_append, List.length_singleton] at hfits
      rw [List.length_reverse]
      omega
    · rw [h.elements_eq, hsplit, elementsOf_append, hlast.sound_one.2]
  · rw [if_neg (by simpa using heq)]
    refine ⟨[], node, [], rfl, ?_, Level.nil, Nat.succ_pos _, rfl⟩
    rwa [Nat.min_eq_left (by omega)]

/-- The inner edge of the right tree. -/
theorem rightEdge?_spec {height low : Nat} {node : Node α}
    (h : Sound low node) (hle : low ≤ height + 1) :
    ∃ edge rest items, rightEdge? (height + 1) node = some (edge, rest)
      ∧ Sound (min low height) edge ∧ Level height items rest
      ∧ rest.length < mostWidth
      ∧ node.elements = edge.elements ++ items := by
  unfold rightEdge?
  rw [h.height_eq]
  by_cases heq : low = height + 1
  · subst heq
    obtain ⟨hne, hfits, hsound⟩ := h.children_sound
    obtain ⟨edge, rest, hsplit⟩ := List.exists_cons_of_ne_nil hne
    have hlevel := Level.of_sound hsound
    rw [hsplit] at hlevel hfits
    obtain ⟨hedge, hrest⟩ := hlevel.of_cons
    rw [if_pos (by simp), hsplit]
    refine ⟨edge, rest, _, rfl, ?_, hrest, ?_, ?_⟩
    · rw [Nat.min_eq_right (Nat.le_succ _)]
      exact hedge.sound_one.1
    · rw [List.length_cons] at hfits
      omega
    · rw [h.elements_eq, hsplit, elementsOf_cons]
  · rw [if_neg (by simpa using heq)]
    refine ⟨node, [], [], rfl, ?_, Level.nil, Nat.succ_pos _, ?_⟩
    · rwa [Nat.min_eq_left (by omega)]
    · rw [List.append_nil]

-- =============================================================== the join

/-- A row that fits below two branches makes one or two nodes of the
level above, unless it is a single node, which is handed up as it is. -/
theorem gatherRow?_spec {height : Nat} {items : List α}
    {row : List (Node α)} (h : Level height items row) (hne : row ≠ [])
    (hfits : row.length ≤ 2 * mostWidth) :
    ∃ nodes, gatherRow? row = some nodes
      ∧ Joined (height + 1) 2 items nodes := by
  match row with
  | [node] =>
      obtain ⟨hnode, helem⟩ := h.sound_one
      exact ⟨[node], rfl, .low hnode (Nat.lt_succ_self _) helem⟩
  | first :: second :: rest =>
      rw [gatherRow?.eq_2 _ (by simp)]
      split
      case isTrue hle =>
        obtain ⟨node, hnode, hsound, rfl⟩ :=
          branch?_spec h hne (fun _ => by simp) hle
        refine ⟨[node], ?_, .level (Level.one hsound) (by simp) (by simp)⟩
        simp only [hnode, Option.bind_eq_bind, Option.bind_some,
          Option.pure_def]
      case isFalse hover =>
        obtain ⟨left, right, hl, hr, hlevel⟩ :=
          branch?_halves h (Nat.lt_of_not_le hover) hfits
        refine ⟨[left, right], ?_, .level hlevel (by simp) (by simp)⟩
        simp only [hl, hr, Option.bind_eq_bind, Option.bind_some,
          Option.pure_def]

/-- Evening out what was folded and gathering it below the level. -/
theorem gather_folded {height most : Nat} {items : List α}
    {row : List (Node α)} (h : Joined height most items row)
    (hmost : most ≤ 2 * mostWidth) :
    ∃ even nodes, evenOut? row = some even ∧ gatherRow? even = some nodes
      ∧ Joined (height + 1) 2 items nodes := by
  cases h with
  | level hlevel hne hfits =>
      obtain ⟨even, heven, hlevel, hne, hlen⟩ := evenOut?_spec hlevel hne
      obtain ⟨nodes, hnodes, hjoined⟩ :=
        gatherRow?_spec hlevel hne (by omega)
      exact ⟨even, nodes, heven, hnodes, hjoined⟩
  | @low node below hsound hlow helem =>
      exact ⟨[node], [node], rfl, rfl, .low hsound (by omega) helem⟩

/-- A join of leaves needs no bound. -/
theorem joinWithin?_zero {bound : Nat} {left right : Node α}
    (h : max left.height right.height = 0) :
    joinWithin? bound left right = evenOut? [left, right] := by
  rw [joinWithin?.eq_def]
  simp only [h]
  rfl

/-- A join above the leaves joins the edges first. -/
theorem joinWithin?_succ {bound height : Nat} {left right : Node α}
    (h : max left.height right.height = height + 1) :
    joinWithin? (bound + 1) left right = (do
      let (before, edgeLeft) ← leftEdge? (height + 1) left
      let (edgeRight, after) ← rightEdge? (height + 1) right
      let middle ← joinWithin? bound edgeLeft edgeRight
      let row ←
        foldLeft? (joinWithin? bound) (height + 1) after before middle
      gatherRow? (← evenOut? row)) := by
  rw [joinWithin?.eq_def]
  simp only [h]
  rfl

/-- Two leaves are joined by evening them out. -/
theorem joinWithin?_leaves {bound : Nat} {left right : Node α}
    (hl : Sound 0 left) (hr : Sound 0 right) :
    ∃ nodes, joinWithin? bound left right = some nodes
      ∧ Joined 0 2 (left.elements ++ right.elements) nodes := by
  obtain ⟨out, heven, hlevel, hne, hlen⟩ :=
    evenOut?_spec ((Level.one hl).append (Level.one hr)) (by simp)
  refine ⟨out, ?_, .level hlevel hne hlen⟩
  rw [joinWithin?_zero (by rw [hl.height_eq, hr.height_eq]; rfl)]
  exact heven

/-- Any two sound nodes can be joined, within any bound on their
heights. -/
theorem joinWithin?_spec :
    ∀ {bound leftHeight rightHeight : Nat} {left right : Node α},
      Sound leftHeight left → Sound rightHeight right →
      max leftHeight rightHeight ≤ bound →
      ∃ nodes, joinWithin? bound left right = some nodes
        ∧ Joined (max leftHeight rightHeight) 2
            (left.elements ++ right.elements) nodes := by
  intro bound
  induction bound with
  | zero =>
      intro leftHeight rightHeight left right hl hr hle
      have hl0 : leftHeight = 0 := by omega
      have hr0 : rightHeight = 0 := by omega
      subst hl0 hr0
      exact joinWithin?_leaves hl hr
  | succ bound ih =>
      intro leftHeight rightHeight left right hl hr hle
      cases hmax : max leftHeight rightHeight with
      | zero =>
          have hl0 : leftHeight = 0 := by omega
          have hr0 : rightHeight = 0 := by omega
          subst hl0 hr0
          exact joinWithin?_leaves hl hr
      | succ height =>
          have hlow : leftHeight ≤ height + 1 := by omega
          have hlow' : rightHeight ≤ height + 1 := by omega
          obtain ⟨rest, edge, before, hleft, hedge, hbefore, hrest, helem⟩ :=
            leftEdge?_spec hl hlow
          obtain ⟨other, others, after, hright, hother, hafter, hothers,
            helem'⟩ := rightEdge?_spec hr hlow'
          have hjoin : JoinsAt (joinWithin? (α := α) bound) height := by
            intro lh rh l r hls hrs hmaxs
            subst hmaxs
            exact ih hls hrs (by omega)
          obtain ⟨middle, hmiddle, hjoined⟩ := hjoin hedge hother (by omega)
          obtain ⟨row, hrow, hfolded⟩ :=
            foldLeft?_spec hjoin hafter hbefore hjoined
          have hmost : mostWidth = 44 := rfl
          obtain ⟨even, nodes, heven, hnodes, hresult⟩ :=
            gather_folded hfolded (by omega)
          refine ⟨nodes, ?_, ?_⟩
          · rw [joinWithin?_succ (by rw [hl.height_eq, hr.height_eq, hmax])]
            simp only [hleft, hright, hmiddle, hrow, heven, hnodes,
              Option.bind_eq_bind, Option.bind_some]
          · rw [helem, helem']
            simpa only [List.append_assoc] using hresult

/-- Any two trees can be joined below one root. -/
theorem join?_spec {left right : Node α} (hl : Rooted left)
    (hr : Rooted right) :
    ∃ root, join? left right = some root ∧ Rooted root
      ∧ root.elements = left.elements ++ right.elements := by
  unfold join?
  cases hl with
  | empty =>
      refine ⟨right, rfl, hr, ?_⟩
      rw [empty, elements, List.nil_append]
  | sound hl =>
      rw [if_neg (by simpa using Nat.ne_of_gt hl.size_pos)]
      cases hr with
      | empty =>
          refine ⟨left, rfl, .sound hl, ?_⟩
          rw [empty, elements, List.append_nil]
      | sound hr =>
          rw [if_neg (by simpa using Nat.ne_of_gt hr.size_pos)]
          obtain ⟨nodes, hnodes, hjoined⟩ :=
            joinWithin?_spec hl hr (Nat.le_refl _)
          unfold joinSeam?
          rw [hl.height_eq, hr.height_eq]
          simp only [hnodes, Option.bind_eq_bind, Option.bind_some]
          cases hjoined with
          | level hlevel hne hfits =>
              rcases nodes with _ | ⟨first, _ | ⟨second, rest⟩⟩
              · exact (hne rfl).elim
              · obtain ⟨hnode, helem⟩ := hlevel.sound_one
                obtain ⟨low, -, hlow, hsame⟩ := lowered_spec hnode
                exact ⟨_, rfl, .sound hlow, hsame.trans helem⟩
              · obtain ⟨node, hnode, hsound, helem⟩ := branch?_spec hlevel
                  hne (fun _ => by simp) (Nat.le_trans hfits (by decide))
                exact ⟨node, hnode, .sound hsound, helem⟩
          | low hnode hless helem =>
              obtain ⟨low, -, hlow, hsame⟩ := lowered_spec hnode
              exact ⟨_, rfl, .sound hlow, hsame.trans helem⟩

/-- Any number of trees can be joined. -/
theorem joinAll?_spec {pieces : List (Node α)}
    (h : ∀ piece ∈ pieces, Rooted piece) :
    ∃ root, joinAll? pieces = some root ∧ Rooted root
      ∧ root.elements = elementsOf pieces := by
  have hfold : ∀ {rest : List (Node α)} {first : Node α}, Rooted first →
      (∀ piece ∈ rest, Rooted piece) →
      ∃ root, rest.foldlM join? first = some root ∧ Rooted root
        ∧ root.elements = first.elements ++ elementsOf rest := by
    intro rest
    induction rest with
    | nil =>
        intro first hfirst _
        exact ⟨first, rfl, hfirst, by rw [elementsOf_nil, List.append_nil]⟩
    | cons next rest ih =>
        intro first hfirst hrest
        obtain ⟨joined, hjoin, hrooted, helem⟩ :=
          join?_spec hfirst (hrest next List.mem_cons_self)
        obtain ⟨root, hroot, hsound, hall⟩ :=
          ih hrooted fun p hp => hrest p (List.mem_cons_of_mem _ hp)
        refine ⟨root, ?_, hsound, ?_⟩
        · rw [List.foldlM_cons, hjoin, Option.bind_eq_bind, Option.bind_some,
            hroot]
        · rw [hall, helem, elementsOf_cons, List.append_assoc]
  cases pieces with
  | nil =>
      refine ⟨empty, rfl, .empty, ?_⟩
      rw [empty, elements, elementsOf_nil]
  | cons first rest =>
      rw [joinAll?, elementsOf_cons]
      exact hfold (h first List.mem_cons_self) fun p hp =>
        h p (List.mem_cons_of_mem _ hp)

end PersistentCollections.Sequence.Node
