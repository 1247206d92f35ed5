/-
The shape of a red-black tree, and what insertion does to it.

`Balanced c n t` says that t has a root of color c, passes n black nodes
on every way down, and has no red node under a red one. Insertion and
erasure leave trees that may break the last of these at the root alone;
`Loose n t` is that weaker shape. A black node over loose subtrees is
balanced again (`balance_spec`), so the break travels up, and ends at
the root, where it is painted over (`Loose.blackened`).
-/
import PersistentCollections.SortedMap.Tree

namespace PersistentCollections.SortedMap.Tree

open Color

variable {κ ν : Type} {a b t : Tree κ ν} {x : κ × ν} {c d : Color}
  {n : Nat}

-- =============================================================== entries

/-- The entries in order. -/
def entries : Tree κ ν → List (κ × ν)
  | leaf => []
  | node _ before x after => before.entries ++ x :: after.entries

@[simp] theorem entries_leaf : (leaf : Tree κ ν).entries = [] := rfl

@[simp] theorem entries_node :
    (node c a x b).entries = a.entries ++ x :: b.entries := rfl

theorem entries_blackened (t : Tree κ ν) :
    t.blackened.entries = t.entries := by
  unfold blackened
  split <;> rfl

theorem entries_balance (a : Tree κ ν) (x : κ × ν) (b : Tree κ ν) :
    (balance a x b).entries = a.entries ++ x :: b.entries := by
  unfold balance
  split <;> simp

theorem entries_rebuild (c : Color) (a : Tree κ ν) (x : κ × ν)
    (b : Tree κ ν) :
    (rebuild c a x b).entries = a.entries ++ x :: b.entries := by
  cases c with
  | red => rfl
  | black => exact entries_balance a x b

-- ================================================================ shapes

/-- A red-black tree by the color of its root, a missing one black, and
the number of black nodes on every way down. -/
inductive Balanced : Color → Nat → Tree κ ν → Prop
  | leaf : Balanced black 0 leaf
  | red {n : Nat} {a b : Tree κ ν} {x : κ × ν} :
      Balanced black n a → Balanced black n b →
      Balanced red n (node red a x b)
  | black {c d : Color} {n : Nat} {a b : Tree κ ν} {x : κ × ν} :
      Balanced c n a → Balanced d n b →
      Balanced black (n + 1) (node black a x b)

/-- A tree that is balanced but for red children of a red root. -/
inductive Loose : Nat → Tree κ ν → Prop
  | black {n : Nat} {t : Tree κ ν} : Balanced black n t → Loose n t
  | red {c d : Color} {n : Nat} {a b : Tree κ ν} {x : κ × ν} :
      Balanced c n a → Balanced d n b → Loose n (node red a x b)

theorem Balanced.loose (h : Balanced c n t) : Loose n t := by
  cases h with
  | leaf => exact .black .leaf
  | red ha hb => exact .red ha hb
  | black ha hb => exact .black (.black ha hb)

/-- The red root of a loose tree stands over balanced trees. -/
theorem Loose.children (h : Loose n (node .red a x b)) :
    ∃ c d, Balanced c n a ∧ Balanced d n b := by
  cases h with
  | black h => cases h
  | red ha hb => exact ⟨_, _, ha, hb⟩

/-- A loose tree is balanced unless its root and a child are red. -/
theorem Loose.cases (h : Loose n t) :
    (∃ c, Balanced c n t)
      ∨ (∃ a x b y c, t = node .red (node .red a x b) y c)
      ∨ ∃ a x b y c, t = node .red a x (node .red b y c) := by
  cases h with
  | black h => exact .inl ⟨_, h⟩
  | red ha hb =>
      cases ha with
      | red => exact .inr (.inl ⟨_, _, _, _, _, rfl⟩)
      | leaf =>
          cases hb with
          | red => exact .inr (.inr ⟨_, _, _, _, _, rfl⟩)
          | leaf => exact .inl ⟨_, .red .leaf .leaf⟩
      | black ha hb' =>
          cases hb with
          | red => exact .inr (.inr ⟨_, _, _, _, _, rfl⟩)
          | black hc hd =>
              exact .inl ⟨_, .red (.black ha hb') (.black hc hd)⟩

/-- Painting the root black makes a loose tree balanced. -/
theorem Loose.blackened (h : Loose n t) :
    ∃ m, Balanced .black m t.blackened := by
  cases h with
  | black h =>
      cases h with
      | leaf => exact ⟨_, .leaf⟩
      | black ha hb => exact ⟨_, .black ha hb⟩
  | red ha hb => exact ⟨_, .black ha hb⟩

theorem Loose.of_not_red (h : Loose n t)
    (hred : ∀ a x b, t = node .red a x b → False) :
    Balanced .black n t := by
  cases h with
  | black h => exact h
  | red => exact (hred _ _ _ rfl).elim

-- ============================================================= insertion

/-- A black node over two loose trees, put right. -/
theorem balance_spec (ha : Loose n a) (x : κ × ν) (hb : Loose n b) :
    ∃ c, Balanced c (n + 1) (balance a x b) := by
  unfold balance
  split
  case h_1 =>
      obtain ⟨_, _, ha, hb⟩ := ha.children
      obtain ⟨_, _, hc, hd⟩ := Loose.children ‹_›
      exact ⟨_, .red (.black ha hb) (.black hc hd)⟩
  case h_2 =>
      obtain ⟨_, _, hleft, hc⟩ := ha.children
      cases hleft with
      | red ha hb' =>
          have hd := hb.of_not_red ‹_›
          exact ⟨_, .red (.black ha hb') (.black hc hd)⟩
  case h_3 =>
      obtain ⟨_, _, ha, hright⟩ := ha.children
      cases hright with
      | red hb' hc =>
          have hd := hb.of_not_red ‹_›
          exact ⟨_, .red (.black ha hb') (.black hc hd)⟩
  case h_4 =>
      obtain ⟨_, _, hb, hright⟩ := hb.children
      cases hright with
      | red hc hd =>
          have ha := ha.of_not_red ‹_›
          exact ⟨_, .red (.black ha hb) (.black hc hd)⟩
  case h_5 =>
      obtain ⟨_, _, hleft, hd⟩ := hb.children
      cases hleft with
      | red hb hc =>
          have ha := ha.of_not_red ‹_›
          exact ⟨_, .red (.black ha hb) (.black hc hd)⟩
  case h_6 hleft hright hleft' hright' _ =>
      rcases ha.cases with ⟨_, ha⟩ | ⟨_, _, _, _, _, rfl⟩
        | ⟨_, _, _, _, _, rfl⟩
      · rcases hb.cases with ⟨_, hb⟩ | ⟨_, _, _, _, _, rfl⟩
          | ⟨_, _, _, _, _, rfl⟩
        · exact ⟨_, .black ha hb⟩
        · exact (hright' _ _ _ _ _ rfl).elim
        · exact (hleft' _ _ _ _ _ rfl).elim
      · exact (hleft _ _ _ _ _ rfl).elim
      · exact (hright _ _ _ _ _ rfl).elim

/-- Insertion into a tree of a black root leaves it loose, and into one
of a red root even more so: a red root has black children, where only
balanced trees come back. -/
theorem insert_spec (cmp : κ → κ → Ordering) (key : κ) (value : ν)
    (h : Balanced c n t) :
    Loose n (t.insert cmp key value).1
      ∧ (c = black → ∃ d, Balanced d n (t.insert cmp key value).1) := by
  induction h with
  | leaf => exact ⟨.red .leaf .leaf, fun _ => ⟨_, .red .leaf .leaf⟩⟩
  | @red n a b x ha hb iha ihb =>
      refine ⟨?_, nofun⟩
      unfold insert
      cases cmp key x.1 with
      | lt =>
          obtain ⟨_, ha⟩ := iha.2 rfl
          exact .red ha hb
      | gt =>
          obtain ⟨_, hb⟩ := ihb.2 rfl
          exact .red ha hb
      | eq => exact .red ha hb
  | @black c d n a b x ha hb iha ihb =>
      have hnode : ∃ d, Balanced d (n + 1)
          ((node black a x b).insert cmp key value).1 := by
        unfold insert
        cases cmp key x.1 with
        | lt => exact balance_spec iha.1 x hb.loose
        | gt => exact balance_spec ha.loose x ihb.1
        | eq => exact ⟨_, .black ha hb⟩
      obtain ⟨d, hd⟩ := hnode
      exact ⟨hd.loose, fun _ => ⟨d, hd⟩⟩

end PersistentCollections.SortedMap.Tree
