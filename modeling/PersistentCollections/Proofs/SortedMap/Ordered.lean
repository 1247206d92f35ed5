/-
Trees in order, and what search and edits make of their entries.

In a tree whose entries stand in strict order the search meets the one
entry that the comparison takes for the key, if there is one. So a
lookup answers from the list of entries, an insertion stores into it
(`store`), and an erasure leaves the entries of all other keys.
-/
import PersistentCollections.Proofs.SortedMap.Erase

namespace PersistentCollections.SortedMap

variable {κ ν : Type} {cmp : κ → κ → Ordering} {key : κ} {value : ν}
  {before after entries : List (κ × ν)} {x : κ × ν}

-- ================================================================= order

/-- Entries in strict order. -/
def Ordered (cmp : κ → κ → Ordering) (entries : List (κ × ν)) : Prop :=
  entries.Pairwise fun x y => cmp x.1 y.1 = .lt

instance : Decidable (Ordered cmp entries) :=
  inferInstanceAs (Decidable (entries.Pairwise _))

/-- Whether the comparison takes the key of an entry for `key`. -/
def hasKey (cmp : κ → κ → Ordering) (key : κ) (entry : κ × ν) : Bool :=
  cmp key entry.1 == .eq

/-- Entries with a value under a key, put where the key belongs. -/
def store (cmp : κ → κ → Ordering) (key : κ) (value : ν) :
    List (κ × ν) → List (κ × ν)
  | [] => [(key, value)]
  | x :: rest =>
    match cmp key x.1 with
    | .lt => (key, value) :: x :: rest
    | .eq => (x.1, value) :: rest
    | .gt => x :: store cmp key value rest

theorem Ordered.left (h : Ordered cmp (before ++ x :: after)) :
    Ordered cmp before :=
  (List.pairwise_append.mp h).1

theorem Ordered.right (h : Ordered cmp (before ++ x :: after)) :
    Ordered cmp after :=
  (List.pairwise_cons.mp (List.pairwise_append.mp h).2.1).2

theorem Ordered.before_lt (h : Ordered cmp (before ++ x :: after)) :
    ∀ y ∈ before, cmp y.1 x.1 = .lt :=
  fun y hy => (List.pairwise_append.mp h).2.2 y hy x List.mem_cons_self

theorem Ordered.lt_after (h : Ordered cmp (before ++ x :: after)) :
    ∀ y ∈ after, cmp x.1 y.1 = .lt :=
  (List.pairwise_cons.mp (List.pairwise_append.mp h).2.1).1

theorem Ordered.filter {entries : List (κ × ν)} (h : Ordered cmp entries)
    (p : κ × ν → Bool) : Ordered cmp (entries.filter p) :=
  List.Pairwise.sublist List.filter_sublist h

section

variable [Std.TransCmp cmp]

/-- A key before an entry is before all that follow it. -/
theorem Ordered.key_lt (h : Ordered cmp (before ++ x :: after))
    (hkey : cmp key x.1 = .lt ∨ cmp key x.1 = .eq) :
    ∀ y ∈ after, cmp key y.1 = .lt := by
  intro y hy
  have hxy := h.lt_after y hy
  cases hkey with
  | inl hlt => exact Std.TransCmp.lt_trans hlt hxy
  | inr heq => exact Std.TransCmp.lt_of_eq_of_lt heq hxy

/-- A key behind an entry is behind all that come before it. -/
theorem Ordered.key_gt (h : Ordered cmp (before ++ x :: after))
    (hkey : cmp key x.1 = .gt ∨ cmp key x.1 = .eq) :
    ∀ y ∈ before, cmp key y.1 = .gt := by
  intro y hy
  have hxy := Std.OrientedCmp.gt_of_lt (h.before_lt y hy)
  cases hkey with
  | inl hgt => exact Std.TransCmp.gt_trans hgt hxy
  | inr heq => exact Std.TransCmp.gt_of_eq_of_gt heq hxy

theorem Ordered.no_key_before (h : Ordered cmp (before ++ x :: after))
    (hkey : cmp key x.1 = .gt ∨ cmp key x.1 = .eq) :
    ∀ y ∈ before, hasKey cmp key y = false := by
  intro y hy
  simp [hasKey, h.key_gt hkey y hy]

theorem Ordered.no_key_after (h : Ordered cmp (before ++ x :: after))
    (hkey : cmp key x.1 = .lt ∨ cmp key x.1 = .eq) :
    ∀ y ∈ after, hasKey cmp key y = false := by
  intro y hy
  simp [hasKey, h.key_lt hkey y hy]

/-- Searching finds the entry that the comparison takes for the key. -/
theorem Ordered.find?_eq_some (h : Ordered cmp entries) :
    entries.find? (hasKey cmp key) = some x
      ↔ x ∈ entries ∧ cmp key x.1 = .eq := by
  constructor
  · intro hfound
    have hkey := List.find?_some hfound
    exact ⟨List.mem_of_find?_eq_some hfound, eq_of_beq hkey⟩
  · intro ⟨hx, hkey⟩
    obtain ⟨before, after, rfl⟩ := List.append_of_mem hx
    have hnone : before.find? (hasKey cmp key) = none := by
      apply List.find?_eq_none.mpr
      intro y hy
      simp [h.no_key_before (.inr hkey) y hy]
    rw [List.find?_append, hnone, Option.none_or, List.find?_cons]
    simp [hasKey, hkey]

end

-- =============================================================== storing

theorem store_ne_nil : store cmp key value entries ≠ [] := by
  cases entries with
  | nil => exact List.cons_ne_nil _ _
  | cons x rest =>
      unfold store
      cases cmp key x.1 <;> exact List.cons_ne_nil _ _

theorem store_append_lt (hlt : cmp key x.1 = .lt) :
    store cmp key value (before ++ x :: after)
      = store cmp key value before ++ x :: after := by
  induction before with
  | nil => simp [store, hlt]
  | cons y before ih =>
      rw [List.cons_append, store, store]
      cases cmp key y.1 with
      | lt => rfl
      | eq => rfl
      | gt => exact congrArg (y :: ·) ih

theorem store_append_gt (hgt : ∀ y ∈ before, cmp key y.1 = .gt) :
    store cmp key value (before ++ after)
      = before ++ store cmp key value after := by
  induction before with
  | nil => rfl
  | cons y before ih =>
      have hy := hgt y List.mem_cons_self
      have hrest := ih fun z hz => hgt z (List.mem_cons_of_mem _ hz)
      simp [store, hy, hrest]

/-- Storing adds no key but the one that is stored. -/
theorem mem_store {y : κ × ν} (h : y ∈ store cmp key value entries) :
    y.1 = key ∨ ∃ z ∈ entries, z.1 = y.1 := by
  induction entries with
  | nil =>
      rw [store, List.mem_singleton] at h
      exact .inl (congrArg Prod.fst h)
  | cons x rest ih =>
      rw [store] at h
      cases hcmp : cmp key x.1 with
      | lt =>
          simp only [hcmp, List.mem_cons] at h
          rcases h with rfl | h
          · exact .inl rfl
          · exact .inr ⟨y, List.mem_cons.mpr h, rfl⟩
      | eq =>
          simp only [hcmp, List.mem_cons] at h
          rcases h with rfl | h
          · exact .inr ⟨x, List.mem_cons_self, rfl⟩
          · exact .inr ⟨y, List.mem_cons_of_mem _ h, rfl⟩
      | gt =>
          simp only [hcmp, List.mem_cons] at h
          rcases h with rfl | h
          · exact .inr ⟨y, List.mem_cons_self, rfl⟩
          · rcases ih h with hkey | ⟨z, hz, hzy⟩
            · exact .inl hkey
            · exact .inr ⟨z, List.mem_cons_of_mem _ hz, hzy⟩

theorem ordered_store [Std.TransCmp cmp] (h : Ordered cmp entries) :
    Ordered cmp (store cmp key value entries) := by
  induction entries with
  | nil => exact List.pairwise_singleton _ _
  | cons x rest ih =>
      have hwhole : Ordered cmp ([] ++ x :: rest) := h
      have hrest := hwhole.right
      rw [store]
      cases hcmp : cmp key x.1 with
      | lt =>
          refine List.pairwise_cons.mpr ⟨?_, h⟩
          intro y hy
          rcases List.mem_cons.mp hy with rfl | hy
          · exact hcmp
          · exact hwhole.key_lt (.inl hcmp) y hy
      | eq => exact List.pairwise_cons.mpr ⟨hwhole.lt_after, hrest⟩
      | gt =>
          refine List.pairwise_cons.mpr ⟨?_, ih hrest⟩
          intro y hy
          rcases mem_store hy with hkey | ⟨z, hz, hzy⟩
          · rw [hkey]
            exact Std.OrientedCmp.lt_of_gt hcmp
          · rw [← hzy]
            exact hwhole.lt_after z hz

section

variable [Std.TransCmp cmp] {other : κ}

/-- Entries of keys that are the same are found under the same keys. -/
theorem hasKey_congr (h : cmp key x.1 = .eq) (other : κ) :
    hasKey cmp other (key, value) = hasKey cmp other x := by
  show (cmp other key == .eq) = (cmp other x.1 == .eq)
  rw [Std.TransCmp.congr_right h]

/-- A key before all entries is found in none of them. -/
theorem Ordered.find?_before (h : Ordered cmp (x :: entries))
    (hlt : cmp key x.1 = .lt) (hkey : cmp other key = .eq) :
    (x :: entries).find? (hasKey cmp other) = none := by
  have hwhole : Ordered cmp ([] ++ x :: entries) := h
  have hfirst : cmp other x.1 = .lt := Std.TransCmp.lt_of_eq_of_lt hkey hlt
  apply List.find?_eq_none.mpr
  intro y hy
  rcases List.mem_cons.mp hy with rfl | hy
  · simp [hasKey, hfirst]
  · simp [hwhole.no_key_after (.inl hfirst) y hy]

/-- What is found after storing: under the keys that are the same, the
key that was there, or else the new one, with the new value. -/
theorem Ordered.find?_store (h : Ordered cmp entries) (other : κ) :
    (store cmp key value entries).find? (hasKey cmp other)
      = if hasKey cmp other (key, value) then
          some (((entries.find? (hasKey cmp other)).map (·.1)).getD key,
            value)
        else entries.find? (hasKey cmp other) := by
  induction entries with
  | nil =>
      rw [store, List.find?_singleton]
      rfl
  | cons x rest ih =>
      rw [store]
      cases hcmp : cmp key x.1 with
      | lt =>
          rw [List.find?_cons]
          cases hkey : hasKey cmp other (key, value) with
          | false => rfl
          | true =>
              rw [h.find?_before hcmp (eq_of_beq hkey)]
              rfl
      | eq =>
          have hstored : hasKey cmp other (x.1, value) = hasKey cmp other x :=
            rfl
          rw [hasKey_congr hcmp, List.find?_cons, List.find?_cons, hstored]
          cases hasKey cmp other x <;> rfl
      | gt =>
          have hrest : Ordered cmp rest := (List.pairwise_cons.mp h).2
          rw [List.find?_cons, List.find?_cons, ih hrest]
          cases hkey : hasKey cmp other x with
          | false => rfl
          | true =>
              have hne : hasKey cmp other (key, value) = false := by
                apply beq_eq_false_iff_ne.mpr
                intro heq
                have hsame := Std.TransCmp.congr_left heq (c := x.1)
                rw [hcmp, eq_of_beq hkey] at hsame
                cases hsame
              rw [hne]
              rfl

end

-- ================================================================= trees

namespace Tree

variable {tree : Tree κ ν}

/-- A node is added for a key that has none, whatever the order. -/
theorem length_insert (cmp : κ → κ → Ordering) (key : κ) (value : ν)
    (tree : Tree κ ν) :
    (tree.insert cmp key value).1.entries.length
      = tree.entries.length + (tree.insert cmp key value).2.toNat := by
  induction tree with
  | leaf => rfl
  | node color a x b iha ihb =>
      unfold insert
      cases cmp key x.1 with
      | lt =>
          simp only [entries_rebuild, entries_node, List.length_append,
            List.length_cons, iha]
          omega
      | gt =>
          simp only [entries_rebuild, entries_node, List.length_append,
            List.length_cons, ihb]
          omega
      | eq => simp

/-- An erasure goes on in the child that the comparison leads to, and
fuses the children of the node where it ends. -/
theorem erase?_node {c : Color} {a b rest : Tree κ ν} {x : κ × ν}
    (h : (node c a x b).erase? cmp key = some rest) :
    match cmp key x.1 with
    | .lt => ∃ below, a.erase? cmp key = some below
        ∧ rest.entries = below.entries ++ x :: b.entries
    | .gt => ∃ below, b.erase? cmp key = some below
        ∧ rest.entries = a.entries ++ x :: below.entries
    | .eq => rest.entries = a.entries ++ b.entries := by
  unfold erase? at h
  cases hcmp : cmp key x.1 with
  | lt =>
      simp only [hcmp] at h
      obtain ⟨below, hbelow, h⟩ := Option.bind_eq_some_iff.mp h
      refine ⟨below, hbelow, ?_⟩
      split at h
      · exact entries_lendLeft? h
      · cases h
        rfl
  | gt =>
      simp only [hcmp] at h
      obtain ⟨below, hbelow, h⟩ := Option.bind_eq_some_iff.mp h
      refine ⟨below, hbelow, ?_⟩
      split at h
      · exact entries_lendRight? h
      · cases h
        rfl
  | eq =>
      simp only [hcmp] at h
      exact entries_fuse? h

/-- A node is taken out for a key that has one, whatever the order. -/
theorem length_erase? (tree : Tree κ ν) :
    ∀ {rest : Tree κ ν}, tree.erase? cmp key = some rest →
      tree.entries.length
        = rest.entries.length + (tree.find? cmp key).isSome.toNat := by
  induction tree with
  | leaf =>
      intro rest hrest
      cases hrest
      rfl
  | node color a x b iha ihb =>
      intro rest hrest
      have hnode := erase?_node hrest
      unfold find?
      cases hcmp : cmp key x.1 with
      | lt =>
          rw [hcmp] at hnode
          obtain ⟨below, hbelow, hentries⟩ := hnode
          simp only [entries_node, hentries, List.length_append,
            List.length_cons, iha hbelow]
          omega
      | gt =>
          rw [hcmp] at hnode
          obtain ⟨below, hbelow, hentries⟩ := hnode
          simp only [entries_node, hentries, List.length_append,
            List.length_cons, ihb hbelow]
          omega
      | eq =>
          rw [hcmp] at hnode
          simp only [entries_node, hnode, List.length_append,
            List.length_cons]
          rfl

theorem min?_eq (tree : Tree κ ν) : tree.min? = tree.entries.head? := by
  induction tree with
  | leaf => rfl
  | node color a x b iha _ =>
      cases a with
      | leaf => rfl
      | node => rw [min?, iha] <;> simp

theorem max?_eq (tree : Tree κ ν) : tree.max? = tree.entries.getLast? := by
  induction tree with
  | leaf => rfl
  | node color a x b _ ihb =>
      cases b with
      | leaf => simp [max?]
      | node =>
          rw [max?, ihb] <;> simp [List.getLast?_append, List.getLast?_cons]

variable [Std.TransCmp cmp]

/-- The search finds the entry of the key. -/
theorem find?_eq (h : Ordered cmp tree.entries) :
    tree.find? cmp key = tree.entries.find? (hasKey cmp key) := by
  have hnone : ∀ {entries : List (κ × ν)},
      (∀ y ∈ entries, hasKey cmp key y = false) →
      entries.find? (hasKey cmp key) = none := by
    intro entries hentries
    apply List.find?_eq_none.mpr
    intro y hy
    simp [hentries y hy]
  induction tree with
  | leaf => rfl
  | node color a x b iha ihb =>
      rw [entries_node] at h ⊢
      unfold find?
      rw [List.find?_append, List.find?_cons]
      cases hcmp : cmp key x.1 with
      | lt =>
          rw [hnone (h.no_key_after (.inl hcmp)), ← iha h.left]
          simp [hasKey, hcmp]
      | gt =>
          rw [hnone (h.no_key_before (.inl hcmp)), ← ihb h.right]
          simp [hasKey, hcmp]
      | eq =>
          rw [hnone (h.no_key_before (.inr hcmp))]
          simp [hasKey, hcmp]

/-- Insertion stores among the entries. -/
theorem entries_insert (h : Ordered cmp tree.entries) :
    (tree.insert cmp key value).1.entries
      = store cmp key value tree.entries := by
  induction tree with
  | leaf => rfl
  | node color a x b iha ihb =>
      rw [entries_node] at h ⊢
      unfold insert
      cases hcmp : cmp key x.1 with
      | lt =>
          rw [store_append_lt hcmp, ← iha h.left]
          exact entries_rebuild _ _ _ _
      | gt =>
          rw [store_append_gt (h.key_gt (.inl hcmp)), store]
          simp only [hcmp]
          rw [← ihb h.right]
          exact entries_rebuild _ _ _ _
      | eq =>
          rw [store_append_gt (h.key_gt (.inr hcmp)), store]
          simp only [hcmp]
          rfl

/-- Erasing leaves the entries of other keys. -/
theorem entries_erase? (h : Ordered cmp tree.entries) :
    ∀ {rest : Tree κ ν}, tree.erase? cmp key = some rest →
      rest.entries
        = tree.entries.filter fun x => !hasKey cmp key x := by
  have hall : ∀ {entries : List (κ × ν)},
      (∀ y ∈ entries, hasKey cmp key y = false) →
      entries.filter (fun x => !hasKey cmp key x) = entries := by
    intro entries hentries
    apply List.filter_eq_self.mpr
    intro y hy
    simp [hentries y hy]
  induction tree with
  | leaf =>
      intro rest hrest
      cases hrest
      rfl
  | node color a x b iha ihb =>
      intro rest hrest
      rw [entries_node] at h ⊢
      have hnode := erase?_node hrest
      rw [List.filter_append, List.filter_cons]
      cases hcmp : cmp key x.1 with
      | lt =>
          rw [hcmp] at hnode
          obtain ⟨below, hbelow, hentries⟩ := hnode
          rw [hall (h.no_key_after (.inl hcmp)), ← iha h.left hbelow]
          simp [hasKey, hcmp, hentries]
      | gt =>
          rw [hcmp] at hnode
          obtain ⟨below, hbelow, hentries⟩ := hnode
          rw [hall (h.no_key_before (.inl hcmp)), ← ihb h.right hbelow]
          simp [hasKey, hcmp, hentries]
      | eq =>
          rw [hcmp] at hnode
          rw [hall (h.no_key_before (.inr hcmp)),
            hall (h.no_key_after (.inr hcmp)), hnode]
          simp [hasKey, hcmp]

end Tree

end PersistentCollections.SortedMap
