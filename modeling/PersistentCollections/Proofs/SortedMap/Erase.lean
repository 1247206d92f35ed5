/-
Taking an entry out keeps a red-black tree in shape.

The erasure of a tree with a black root comes back one black node short
and loose; that of any other tree comes back balanced (`Erased`). A node
over a short subtree finds a black or red child to lend it a node
(`lendLeft?_spec`, `lendRight?_spec`), and two subtrees of one depth can
be fused at that depth (`fuse?_spec`), so no edit ever finds a shape it
has no answer for.
-/
import PersistentCollections.Proofs.SortedMap.Shape
import PersistentCollections.SortedMap.Tree.Erase

namespace PersistentCollections.SortedMap.Tree

open Color

variable {κ ν : Type} {a b t : Tree κ ν} {x : κ × ν} {c d : Color}
  {n : Nat}

-- =============================================================== entries

theorem entries_reddened? (h : reddened? a = some t) :
    t.entries = a.entries := by
  unfold reddened? at h
  split at h
  · cases h
    rfl
  · cases h

theorem entries_lendLeft? (h : lendLeft? a x b = some t) :
    t.entries = a.entries ++ x :: b.entries := by
  unfold lendLeft? at h
  split at h
  · cases h
    simp
  · cases h
    simp [entries_balance]
  · obtain ⟨far, hfar, h⟩ := Option.bind_eq_some_iff.mp h
    cases h
    simp [entries_balance, entries_reddened? hfar]
  · cases h

theorem entries_lendRight? (h : lendRight? a x b = some t) :
    t.entries = a.entries ++ x :: b.entries := by
  unfold lendRight? at h
  split at h
  · cases h
    simp
  · cases h
    simp [entries_balance]
  · obtain ⟨far, hfar, h⟩ := Option.bind_eq_some_iff.mp h
    cases h
    simp [entries_balance, entries_reddened? hfar]
  · cases h

theorem entries_fuseNode? {below : Tree κ ν → Option (Tree κ ν)}
    (hbelow : ∀ {right t}, below right = some t →
      t.entries = b.entries ++ right.entries) :
    ∀ {right t}, fuseNode? c a x b below right = some t →
      t.entries = a.entries ++ x :: b.entries ++ right.entries := by
  intro right
  induction right with
  | leaf =>
      intro t h
      cases h
      simp
  | node other e y f ihe _ =>
      intro t h
      have hmiddle : ∀ {middle}, below e = some middle →
          middle.entries ++ y :: f.entries
            = b.entries ++ (e.entries ++ y :: f.entries) := by
        intro middle hmiddle
        rw [hbelow hmiddle, List.append_assoc]
      cases c with
      | red =>
          cases other with
          | red =>
              obtain ⟨middle, hbelow, h⟩ := Option.bind_eq_some_iff.mp h
              have hentries := hmiddle hbelow
              split at h <;> cases h <;> simpa using hentries
          | black =>
              obtain ⟨rest, hrest, h⟩ := Option.bind_eq_some_iff.mp h
              cases h
              simp [hbelow hrest]
      | black =>
          cases other with
          | red =>
              obtain ⟨rest, hrest, h⟩ := Option.bind_eq_some_iff.mp h
              cases h
              simp [ihe hrest]
          | black =>
              obtain ⟨middle, hbelow, h⟩ := Option.bind_eq_some_iff.mp h
              have hentries := hmiddle hbelow
              split at h
              · cases h
                simpa using hentries
              · rw [entries_lendLeft? h]
                simpa using hentries

theorem entries_fuse? : ∀ {a b t : Tree κ ν}, fuse? a b = some t →
    t.entries = a.entries ++ b.entries := by
  intro a
  induction a with
  | leaf =>
      intro b t h
      cases h
      rfl
  | node color a x b _ ihb =>
      intro right t h
      exact entries_fuseNode? ihb h

-- =============================================================== lending

/-- A black tree that is not empty can be painted red. -/
theorem reddened?_spec (h : Balanced .black (n + 1) t) :
    ∃ far, reddened? t = some far ∧ Loose n far := by
  cases h with
  | black ha hb => exact ⟨_, rfl, .red ha hb⟩

/-- What lending answers: a loose tree, and a balanced one if the child
that lends is black. -/
def Lent (c : Color) (n : Nat) (answer : Option (Tree κ ν)) : Prop :=
  ∃ t, answer = some t ∧ Loose n t ∧ (c = black → ∃ d, Balanced d n t)

theorem lendLeft?_black (ha : Balanced black n a) {y : κ × ν}
    {e f : Tree κ ν} :
    lendLeft? a x (node black e y f)
      = some (balance a x (node red e y f)) := by
  cases ha <;> rfl

theorem lendLeft?_red (ha : Balanced black n a) {y z : κ × ν}
    {e f g far : Tree κ ν} (hfar : reddened? g = some far) :
    lendLeft? a x (node red (node black e y f) z g)
      = some (node red (node black a x e) y (balance f z far)) := by
  cases ha <;> simp [lendLeft?, hfar]

theorem lendRight?_black (hb : Balanced black n b) {y : κ × ν}
    {e f : Tree κ ν} :
    lendRight? (node black e y f) x b
      = some (balance (node red e y f) x b) := by
  cases hb <;> rfl

theorem lendRight?_red (hb : Balanced black n b) {y z : κ × ν}
    {e f g far : Tree κ ν} (hfar : reddened? e = some far) :
    lendRight? (node red e y (node black f z g)) x b
      = some (node red (balance far y f) z (node black g x b)) := by
  cases hb <;> simp [lendRight?, hfar]

/-- A left subtree that is one black node short is made up for. -/
theorem lendLeft?_spec (ha : Loose n a) (x : κ × ν)
    (hb : Balanced c (n + 1) b) : Lent c (n + 1) (lendLeft? a x b) := by
  cases ha with
  | red ha ha' =>
      refine ⟨_, rfl, .red (.black ha ha') hb, ?_⟩
      rintro rfl
      exact ⟨_, .red (.black ha ha') hb⟩
  | black ha =>
      cases hb with
      | black he hf =>
          obtain ⟨d, hd⟩ := balance_spec (.black ha) x (.red he hf)
          exact ⟨_, lendLeft?_black ha, hd.loose, fun _ => ⟨d, hd⟩⟩
      | red hleft hg =>
          cases hleft with
          | black he hf =>
              obtain ⟨far, hfar, hloose⟩ := reddened?_spec hg
              obtain ⟨d, hd⟩ := balance_spec hf.loose _ hloose
              exact ⟨_, lendLeft?_red ha hfar, .red (.black ha he) hd, nofun⟩

/-- A right subtree that is one black node short is made up for. -/
theorem lendRight?_spec (ha : Balanced c (n + 1) a) (x : κ × ν)
    (hb : Loose n b) : Lent c (n + 1) (lendRight? a x b) := by
  cases hb with
  | red hb hb' =>
      have hanswer : ∀ {e f y}, lendRight? a x (node red e y f)
          = some (node red a x (node black e y f)) := by
        intro e f y
        unfold lendRight?
        rfl
      refine ⟨_, hanswer, .red ha (.black hb hb'), ?_⟩
      rintro rfl
      exact ⟨_, .red ha (.black hb hb')⟩
  | black hb =>
      cases ha with
      | black he hf =>
          obtain ⟨d, hd⟩ := balance_spec (.red he hf) x (.black hb)
          exact ⟨_, lendRight?_black hb, hd.loose, fun _ => ⟨d, hd⟩⟩
      | red he hright =>
          cases hright with
          | black hf hg =>
              obtain ⟨far, hfar, hloose⟩ := reddened?_spec he
              obtain ⟨d, hd⟩ := balance_spec hloose _ hf.loose
              exact ⟨_, lendRight?_red hb hfar, .red hd (.black hg hb), nofun⟩

-- ================================================================ fusing

/-- What fusing answers: a loose tree, and a balanced one if both trees
are black. -/
def Fused (c d : Color) (n : Nat) (answer : Option (Tree κ ν)) : Prop :=
  ∃ t, answer = some t ∧ Loose n t
    ∧ (c = black → d = black → ∃ e, Balanced e n t)

/-- A black node keeps what the tree fused below it has lost. -/
theorem fused_below {y : κ × ν} {m f : Tree κ ν} (ha : Balanced c n a)
    (hm : Balanced black n m) (hf : Balanced d n f) :
    Fused black black (n + 1) (lendLeft? a x (node black m y f)) := by
  obtain ⟨t, ht, hloose, hbalanced⟩ :=
    lendLeft?_spec ha.loose x (.black hm hf)
  exact ⟨t, ht, hloose, fun _ _ => hbalanced rfl⟩

/-- Two trees of one depth can be fused at that depth. The trees between
the two entries are fused first; a red root of theirs parts the two
nodes, and any other is put below one of them. -/
theorem fuse?_spec : ∀ {a b : Tree κ ν} {c d : Color} {n : Nat},
    Balanced c n a → Balanced d n b → Fused c d n (fuse? a b) := by
  intro a
  induction a with
  | leaf =>
      intro right c d n ha hright
      exact ⟨right, rfl, hright.loose, fun _ _ => ⟨d, hright⟩⟩
  | node color a x b _ ih =>
      intro right
      induction right with
      | leaf =>
          intro c d n hleft _
          exact ⟨_, rfl, hleft.loose, fun _ _ => ⟨c, hleft⟩⟩
      | node other e y f ihe _ =>
          intro c d n hleft hright
          have hblack := hright
          cases hleft with
          | red ha hb =>
              cases hright with
              | red he hf =>
                  obtain ⟨middle, hmiddle, -, hbalanced⟩ := ih hb he
                  obtain ⟨_, hm⟩ := hbalanced rfl rfl
                  unfold fuse? fuseNode?
                  simp only [hmiddle, Option.bind_eq_bind, Option.bind_some]
                  cases hm with
                  | leaf => exact ⟨_, rfl, .red ha (.red .leaf hf), nofun⟩
                  | black hm hm' =>
                      exact ⟨_, rfl, .red ha (.red (.black hm hm') hf), nofun⟩
                  | red hm hm' =>
                      exact ⟨_, rfl, .red (.red ha hm) (.red hm' hf), nofun⟩
              | black he hf =>
                  obtain ⟨rest, hrest, -, hbalanced⟩ := ih hb hblack
                  obtain ⟨_, hr⟩ := hbalanced rfl rfl
                  unfold fuse? fuseNode?
                  simp only [hrest, Option.bind_eq_bind, Option.bind_some]
                  exact ⟨_, rfl, .red ha hr, nofun⟩
          | black ha hb =>
              cases hright with
              | red he hf =>
                  obtain ⟨rest, hrest, -, hbalanced⟩ :=
                    ihe (.black ha hb) he
                  obtain ⟨_, hr⟩ := hbalanced rfl rfl
                  unfold fuse? at hrest
                  unfold fuse? fuseNode?
                  simp only [hrest, Option.bind_eq_bind, Option.bind_some]
                  exact ⟨_, rfl, .red hr hf, nofun⟩
              | black he hf =>
                  obtain ⟨middle, hmiddle, hm, -⟩ := ih hb he
                  unfold fuse? fuseNode?
                  simp only [hmiddle, Option.bind_eq_bind, Option.bind_some]
                  cases hm with
                  | black hm =>
                      cases hm with
                      | leaf => exact fused_below ha .leaf hf
                      | black hm hm' =>
                          exact fused_below ha (.black hm hm') hf
                  | red hm hm' =>
                      refine ⟨_, rfl, .red (.black ha hm) (.black hm' hf), ?_⟩
                      intro _ _
                      exact ⟨_, .red (.black ha hm) (.black hm' hf)⟩

-- =============================================================== erasing

/-- What erasing leaves of a tree of `n` black nodes on every way: one
less if the root was black, and a loose tree then. -/
def Erased (n : Nat) (t : Tree κ ν) (answer : Option (Tree κ ν)) : Prop :=
  ∃ rest, answer = some rest
    ∧ (t.isBlack = true → ∃ m, n = m + 1 ∧ Loose m rest)
    ∧ (t.isBlack = false → ∃ d, Balanced d n rest)

/-- Erasing goes through in every red-black tree, for any comparison. -/
theorem erase?_spec (cmp : κ → κ → Ordering) (key : κ)
    (h : Balanced c n t) : Erased n t (t.erase? cmp key) := by
  induction h with
  | leaf => exact ⟨leaf, rfl, nofun, fun _ => ⟨_, .leaf⟩⟩
  | @red n a b x ha hb iha ihb =>
      suffices h : ∃ rest,
          (node red a x b).erase? cmp key = some rest
            ∧ ∃ d, Balanced d n rest by
        obtain ⟨rest, hrest, hbalanced⟩ := h
        exact ⟨rest, hrest, nofun, fun _ => hbalanced⟩
      unfold erase?
      cases cmp key x.1 with
      | lt =>
          cases ha with
          | leaf => exact ⟨_, rfl, _, .red .leaf hb⟩
          | black =>
              obtain ⟨rest, hrest, hshort, -⟩ := iha
              obtain ⟨_, hn, hloose⟩ := hshort rfl
              cases hn
              obtain ⟨t, ht, -, hbalanced⟩ := lendLeft?_spec hloose x hb
              simp only [hrest, Option.bind_eq_bind, Option.bind_some]
              exact ⟨t, ht, hbalanced rfl⟩
      | gt =>
          cases hb with
          | leaf => exact ⟨_, rfl, _, .red ha .leaf⟩
          | black =>
              obtain ⟨rest, hrest, hshort, -⟩ := ihb
              obtain ⟨_, hn, hloose⟩ := hshort rfl
              cases hn
              obtain ⟨t, ht, -, hbalanced⟩ := lendRight?_spec ha x hloose
              simp only [hrest, Option.bind_eq_bind, Option.bind_some]
              exact ⟨t, ht, hbalanced rfl⟩
      | eq =>
          obtain ⟨rest, hrest, -, hbalanced⟩ := fuse?_spec ha hb
          exact ⟨rest, hrest, hbalanced rfl rfl⟩
  | @black c d n a b x ha hb iha ihb =>
      suffices h : ∃ rest,
          (node black a x b).erase? cmp key = some rest ∧ Loose n rest by
        obtain ⟨rest, hrest, hloose⟩ := h
        exact ⟨rest, hrest, fun _ => ⟨n, rfl, hloose⟩, nofun⟩
      unfold erase?
      cases cmp key x.1 with
      | lt =>
          obtain ⟨rest, hrest, hshort, hbalanced⟩ := iha
          simp only [hrest, Option.bind_eq_bind, Option.bind_some]
          cases hblack : a.isBlack with
          | true =>
              obtain ⟨_, rfl, hloose⟩ := hshort hblack
              obtain ⟨t, ht, hloose, -⟩ := lendLeft?_spec hloose x hb
              exact ⟨t, ht, hloose⟩
          | false =>
              obtain ⟨_, hr⟩ := hbalanced hblack
              exact ⟨_, rfl, .red hr hb⟩
      | gt =>
          obtain ⟨rest, hrest, hshort, hbalanced⟩ := ihb
          simp only [hrest, Option.bind_eq_bind, Option.bind_some]
          cases hblack : b.isBlack with
          | true =>
              obtain ⟨_, rfl, hloose⟩ := hshort hblack
              obtain ⟨t, ht, hloose, -⟩ := lendRight?_spec ha x hloose
              exact ⟨t, ht, hloose⟩
          | false =>
              obtain ⟨_, hr⟩ := hbalanced hblack
              exact ⟨_, rfl, .red ha hr⟩
      | eq =>
          obtain ⟨rest, hrest, hloose, -⟩ := fuse?_spec ha hb
          exact ⟨rest, hrest, hloose⟩

/-- The tree without an entry, painted over at the root. -/
theorem Erased.blackened {answer : Option (Tree κ ν)}
    (h : Erased n t answer) :
    ∃ rest m, answer = some rest ∧ Balanced .black m rest.blackened := by
  obtain ⟨rest, hrest, hshort, hbalanced⟩ := h
  have hloose : ∃ m, Loose m rest := by
    cases hblack : t.isBlack with
    | true =>
        obtain ⟨m, -, hloose⟩ := hshort hblack
        exact ⟨m, hloose⟩
    | false =>
        obtain ⟨_, hr⟩ := hbalanced hblack
        exact ⟨n, hr.loose⟩
  obtain ⟨_, hloose⟩ := hloose
  obtain ⟨m, hm⟩ := hloose.blackened
  exact ⟨rest, m, hrest, hm⟩

end PersistentCollections.SortedMap.Tree
