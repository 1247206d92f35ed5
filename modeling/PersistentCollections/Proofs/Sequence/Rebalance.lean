/-
Evening out a level keeps its elements and its height, and never needs
more nodes than there were.

The pouring is the same for leaves and for branches, so it is proved
once, over any slots that a level can be taken apart into and put
together from (`Slots.Lawful`). A pending run is shorter than 22 and a
node has at most 44 slots, so no run that is put together is longer
than two nodes. The count goes by the pending run, which stands for one
node of those that went in (`pour?_spec`).
-/
import PersistentCollections.Proofs.Sequence.Shape
import PersistentCollections.Sequence.Node.Rebalance

namespace PersistentCollections.Sequence.Node

variable {α β : Type}

-- ============================================================== slots

/-- Slots that take every sound node of a height apart, and put any two
or more slots that fit together to such a node. -/
structure Slots.Lawful (level : Slots α β) (height : Nat)
    (below : β → List α) (allowed : β → Prop) : Prop where
  takes : ∀ {node : Node α}, Sound height node →
    ∃ run, level.taken? node = some run ∧ run ≠ []
      ∧ run.length ≤ mostWidth ∧ (∀ slot ∈ run, allowed slot)
      ∧ run.flatMap below = node.elements
  builds : ∀ (run : List β), 2 ≤ run.length → run.length ≤ mostWidth →
    (∀ slot ∈ run, allowed slot) →
    ∃ node, level.built? run = some node ∧ Sound height node
      ∧ node.elements = run.flatMap below

/-- Leaves are taken apart into their elements. -/
theorem elementSlots_lawful :
    (elementSlots (α := α)).Lawful 0 (fun x => [x]) fun _ => True where
  takes := by
    intro node h
    cases h with
    | @leaf values nonempty fits =>
        refine ⟨values, rfl, nonempty, fits, fun _ _ => trivial, ?_⟩
        rw [elements, List.flatMap_singleton']
  builds := by
    intro run hmany hfits _
    refine ⟨leaf run, rfl, .leaf ?_ hfits, ?_⟩
    · exact List.ne_nil_of_length_pos (by omega)
    · rw [elements, List.flatMap_singleton']

/-- Branches are taken apart into their children. -/
theorem childSlots_lawful (height : Nat) :
    (childSlots (α := α)).Lawful (height + 1) elements (Sound height) where
  takes := by
    intro node h
    obtain ⟨hne, hfits, hsound⟩ := h.children_sound
    refine ⟨node.children, ?_, hne, hfits, hsound, ?_⟩
    · cases h <;> rfl
    · rw [← elementsOf_eq_flatMap, h.elements_eq]
  builds := by
    intro run hmany hfits hsound
    obtain ⟨node, hnode, hs, helem⟩ := branch?_spec (.of_sound hsound)
      (List.ne_nil_of_length_pos (by omega)) (fun _ => hmany) hfits
    exact ⟨node, hnode, hs, by rw [helem, elementsOf_eq_flatMap]⟩

namespace Slots

variable {level : Slots α β} {height : Nat} {below : β → List α}
  {allowed : β → Prop}

-- ============================================================ pouring

/-- A run of slots makes one node, or two if it is too long for one. -/
theorem nodes?_spec (law : level.Lawful height below allowed)
    (run : List β) (hmany : 2 ≤ run.length) (hfits : run.length ≤ 2 * mostWidth)
    (hall : ∀ slot ∈ run, allowed slot) :
    ∃ nodes, level.nodes? run = some nodes
      ∧ Level height (run.flatMap below) nodes
      ∧ nodes.length = if mostWidth < run.length then 2 else 1 := by
  have hmost : mostWidth = 44 := rfl
  unfold nodes?
  by_cases hover : mostWidth < run.length
  · obtain ⟨hleft, hright⟩ := Run.halves_length run
    obtain ⟨left, hl, hls, hle⟩ := law.builds (Run.halves run).1
      (by omega) (by omega)
      fun slot hslot => hall slot (Run.mem_of_mem_halves (.inl hslot))
    obtain ⟨right, hr, hrs, hre⟩ := law.builds (Run.halves run).2
      (by omega) (by omega)
      fun slot hslot => hall slot (Run.mem_of_mem_halves (.inr hslot))
    refine ⟨[left, right], ?_, ?_, ?_⟩
    · rw [if_pos hover]
      simp only [hl, hr, Option.bind_eq_bind, Option.bind_some,
        Option.pure_def]
    · have := (Level.one hls).append (Level.one hrs)
      rwa [hle, hre, ← List.flatMap_append, Run.halves_append] at this
    · rw [if_pos hover, List.length_cons, List.length_singleton]
  · obtain ⟨node, hnode, hs, helem⟩ :=
      law.builds run hmany (Nat.le_of_not_lt hover) hall
    refine ⟨[node], ?_, ?_, ?_⟩
    · rw [if_neg hover]
      simp only [hnode, Option.bind_eq_bind, Option.bind_some,
        Option.pure_def]
    · rw [← helem]
      exact Level.one hs
    · rw [if_neg hover, List.length_singleton]

/-- What has been poured: the nodes put together so far hold the
elements that went in, but for the slots left over, which are too few
for a node; and they are no more than the nodes that went in. Every node
that went in has left a slot if no node has been put together. -/
structure Poured (height : Nat) (below : β → List α) (allowed : β → Prop)
    (pending : List β) (nodes : List (Node α)) (balanced : List (Node α))
    (left : List β) : Prop where
  sound : ∀ node ∈ balanced, Sound height node
  elements_eq : elementsOf balanced ++ left.flatMap below
    = pending.flatMap below ++ elementsOf nodes
  short : left.length < leastWidth
  allowed_left : ∀ slot ∈ left, allowed slot
  count : balanced.length + min left.length 1
    ≤ nodes.length + min pending.length 1
  spread : balanced = [] → nodes.length + pending.length ≤ left.length

/-- Pouring goes through, with any pending run too short for a node. -/
theorem gather?_spec (law : level.Lawful height below allowed)
    {nodes : List (Node α)} (hsound : ∀ node ∈ nodes, Sound height node) :
    ∀ (pending : List β), pending.length < leastWidth →
      (∀ slot ∈ pending, allowed slot) →
      ∃ balanced left, level.gather? pending nodes = some (balanced, left)
        ∧ Poured height below allowed pending nodes balanced left := by
  have hleast : leastWidth = 22 := rfl
  have hmost : mostWidth = 44 := rfl
  induction nodes with
  | nil =>
      intro pending hshort hall
      exact ⟨[], pending, rfl, nofun, by simp, hshort, hall, by simp,
        by simp⟩
  | cons node nodes ih =>
      intro pending hshort hall
      have hnode := hsound node List.mem_cons_self
      have hrest : ∀ n ∈ nodes, Sound height n := fun n hn =>
        hsound n (List.mem_cons_of_mem _ hn)
      obtain ⟨own, htaken, hne, hfits, hown, helem⟩ := law.takes hnode
      have hpos := List.length_pos_iff.mpr hne
      unfold gather?
      simp only [htaken, Option.bind_eq_bind, Option.bind_some]
      split
      case isTrue hkeep =>
        rw [Bool.and_eq_true, List.isEmpty_iff, decide_eq_true_eq] at hkeep
        obtain ⟨rfl, hwide⟩ := hkeep
        obtain ⟨balanced, left, hgather, hs, heq, hleft, hallowed, hcount,
          -⟩ := ih hrest [] (by simp [hleast]) nofun
        refine ⟨node :: balanced, left, ?_, ?_, ?_, hleft, hallowed, ?_,
          nofun⟩
        · simp only [hgather, Option.bind_some, Option.pure_def]
        · intro n hn
          rcases List.mem_cons.mp hn with rfl | hn
          · exact hnode
          · exact hs n hn
        · rw [elementsOf_cons, List.append_assoc, heq]
          simp
        · simp only [List.length_cons, List.length_nil] at hcount ⊢
          omega
      case isFalse hmerge =>
        have hrun : ∀ slot ∈ pending ++ own, allowed slot := by
          intro slot hslot
          rcases List.mem_append.mp hslot with hslot | hslot
          · exact hall slot hslot
          · exact hown slot hslot
        have hlen : (pending ++ own).length = pending.length + own.length :=
          List.length_append
        split
        case isTrue hwide =>
          obtain ⟨emitted, hemit, hlevel, hnumber⟩ :=
            nodes?_spec law (pending ++ own) (by omega) (by omega) hrun
          obtain ⟨balanced, left, hgather, hs, heq, hleft, hallowed, hcount,
            -⟩ := ih hrest [] (by simp [hleast]) nofun
          refine ⟨emitted ++ balanced, left, ?_, ?_, ?_, hleft, hallowed, ?_,
            ?_⟩
          · simp only [hemit, hgather, Option.bind_some, Option.pure_def]
          · exact (hlevel.append (.of_sound hs)).sound
          · rw [elementsOf_append, hlevel.elements_eq, List.append_assoc, heq,
              List.flatMap_append, helem, elementsOf_cons]
            simp
          · rw [hlen] at hnumber
            simp only [List.length_nil, List.length_append,
              List.length_cons] at hcount ⊢
            split at hnumber <;> omega
          · intro hnone
            rw [(List.append_eq_nil_iff.mp hnone).1] at hnumber
            split at hnumber <;> cases hnumber
        case isFalse hnarrow =>
          obtain ⟨balanced, left, hgather, hs, heq, hleft, hallowed, hcount,
            hspread⟩ := ih hrest _ (Nat.lt_of_not_le hnarrow) hrun
          refine ⟨balanced, left, hgather, hs, ?_, hleft, hallowed, ?_, ?_⟩
          · rw [heq, List.flatMap_append, helem, elementsOf_cons,
              List.append_assoc]
          · rw [hlen] at hcount
            rw [List.length_cons]
            omega
          · intro hnone
            have hmore := hspread hnone
            rw [hlen] at hmore
            rw [List.length_cons]
            omega

/-- A level of two nodes or more that has been poured is a level with the
same elements, of no more nodes. -/
theorem pour?_spec (law : level.Lawful height below allowed)
    {items : List α} {nodes : List (Node α)} (h : Level height items nodes)
    (hmany : 2 ≤ nodes.length) :
    ∃ out, level.pour? nodes = some out ∧ Level height items out
      ∧ out.length ≤ nodes.length := by
  have hmost : mostWidth = 44 := rfl
  have hleast : leastWidth = 22 := rfl
  obtain ⟨balanced, left, hgather, hs, heq, hshort, hallowed, hcount,
    hspread⟩ := gather?_spec law h.sound [] (by simp [hleast]) nofun
  rw [List.flatMap_nil, List.nil_append, h.elements_eq] at heq
  rw [List.length_nil, Nat.zero_min, Nat.add_zero] at hcount
  unfold pour?
  simp only [hgather, Option.bind_eq_bind, Option.bind_some]
  cases left with
  | nil =>
      rw [List.flatMap_nil, List.append_nil] at heq
      exact ⟨balanced, rfl, ⟨hs, heq⟩, by omega⟩
  | cons slot left =>
      rw [if_neg (by simp)]
      rw [List.length_cons, Nat.min_eq_right (by omega)] at hcount
      rcases List.eq_nil_or_concat balanced with rfl | ⟨before, last, hsplit⟩
      · have hslots : 2 ≤ (slot :: left).length :=
          Nat.le_trans hmany (hspread rfl)
        obtain ⟨node, hnode, hsnode, helem⟩ :=
          law.builds (slot :: left) hslots (by omega) hallowed
        refine ⟨[node], ?_, ?_, ?_⟩
        · simp only [List.getLast?_nil, hnode, Option.bind_some,
            Option.pure_def]
        · rw [← heq, elementsOf_nil, List.nil_append, ← helem]
          exact Level.one hsnode
        · rw [List.length_singleton]
          omega
      · rw [List.concat_eq_append] at hsplit
        subst hsplit
        have hlast := hs last (List.mem_append_right _ List.mem_cons_self)
        obtain ⟨own, htaken, hown, hfits, hownall, helem⟩ := law.takes hlast
        have hpos := List.length_pos_iff.mpr hown
        obtain ⟨emitted, hemit, hlevel, hnumber⟩ :=
          nodes?_spec law (own ++ slot :: left)
            (by rw [List.length_append, List.length_cons]; omega)
            (by rw [List.length_append]; omega)
            (by
              intro x hx
              rcases List.mem_append.mp hx with hx | hx
              · exact hownall x hx
              · exact hallowed x hx)
        refine ⟨before ++ emitted, ?_, ?_, ?_⟩
        · simp only [List.getLast?_concat, List.dropLast_concat, htaken,
            hemit, Option.bind_some, Option.pure_def]
        · have hbefore := (Level.of_sound hs).of_append.1
          have := hbefore.append hlevel
          rw [← heq, elementsOf_append, elementsOf_cons, elementsOf_nil,
            List.append_nil, ← helem, List.append_assoc,
            ← List.flatMap_append]
          exact this
        · rw [List.length_append, List.length_singleton] at hcount
          rw [List.length_append]
          split at hnumber <;> omega

/-- Pouring leaves a level as it is where every node is wide enough. -/
theorem pour?_wide {nodes : List (Node α)}
    (hwide : ∀ node ∈ nodes, ∃ run, level.taken? node = some run
      ∧ leastWidth ≤ run.length) : level.pour? nodes = some nodes := by
  have hgather : level.gather? [] nodes = some (nodes, []) := by
    induction nodes with
    | nil => rfl
    | cons node nodes ih =>
        obtain ⟨run, htaken, hlen⟩ := hwide node List.mem_cons_self
        have hrest := ih fun n hn => hwide n (List.mem_cons_of_mem _ hn)
        unfold gather?
        simp only [htaken, Option.bind_eq_bind, Option.bind_some]
        rw [if_pos (by simpa using hlen), hrest]
        rfl
  unfold pour?
  rw [hgather]
  rfl

end Slots

-- ======================================================== evening out

/-- Evening out a level answers a level with the same elements, of no
more nodes. -/
theorem evenOut?_spec {height : Nat} {items : List α}
    {nodes : List (Node α)} (h : Level height items nodes)
    (hne : nodes ≠ []) :
    ∃ out, evenOut? nodes = some out ∧ Level height items out
      ∧ out ≠ [] ∧ out.length ≤ nodes.length := by
  suffices hout : ∃ out, evenOut? nodes = some out
      ∧ Level height items out ∧ out.length ≤ nodes.length by
    obtain ⟨out, heven, hlevel, hlen⟩ := hout
    exact ⟨out, heven, hlevel, hlevel.nodes_ne (h.items_ne hne), hlen⟩
  match nodes with
  | [node] => exact ⟨[node], rfl, h, Nat.le_refl _⟩
  | first :: second :: rest =>
      have hfirst := h.sound first List.mem_cons_self
      have hmany : 2 ≤ (first :: second :: rest).length := by simp
      cases height with
      | zero =>
          cases hfirst with
          | leaf nonempty fits =>
              rw [evenOut?]
              · exact Slots.pour?_spec elementSlots_lawful h hmany
              · simp
      | succ height =>
          have heven : evenOut? (first :: second :: rest)
              = childSlots.pour? (first :: second :: rest) := by
            cases hfirst <;> rfl
          rw [heven]
          exact Slots.pour?_spec (childSlots_lawful height) h hmany

end PersistentCollections.Sequence.Node
