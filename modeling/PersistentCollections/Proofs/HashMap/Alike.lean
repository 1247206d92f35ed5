/-
Association lists, up to the order between entries of different hashes.

A list is searched, stored into and cut by key, and the first entry of a
key is the one that counts. Two lists are alike when they have the same
entries of every hash, in the same order. A trie keeps entries apart by
their hashes, so it cannot tell alike lists from each other, and neither
can a search: equal keys have equal hashes. Alike lists are permutations
of each other, and each edit of a list is compatible with likeness.
-/
namespace PersistentCollections.HashMap

variable {κ ν : Type}

-- ==================================================== association lists

section

variable [BEq κ]

/-- The first entry of a key. -/
def lookup (key : κ) (entries : List (κ × ν)) : Option (κ × ν) :=
  entries.find? fun x => x.1 == key

/-- The entries with a value under a key: in the place of the value that
was there, with the key that was there, or at the end. -/
def store (key : κ) (value : ν) : List (κ × ν) → List (κ × ν)
  | [] => [(key, value)]
  | x :: rest =>
    if x.1 == key then (x.1, value) :: rest else x :: store key value rest

/-- The entries of other keys. -/
def without (key : κ) (entries : List (κ × ν)) : List (κ × ν) :=
  entries.filter fun x => !(x.1 == key)

/-- No key occurs twice. -/
def Distinct (entries : List (κ × ν)) : Prop :=
  entries.Pairwise fun x y => (x.1 == y.1) = false

theorem mem_of_lookup {key : κ} {x : κ × ν} {entries : List (κ × ν)}
    (h : lookup key entries = some x) : x ∈ entries :=
  List.mem_of_find?_eq_some h

theorem beq_of_lookup {key : κ} {x : κ × ν} {entries : List (κ × ν)}
    (h : lookup key entries = some x) : (x.1 == key) = true :=
  (List.find?_eq_some_iff_append.mp h).1

theorem lookup_eq_none {key : κ} {entries : List (κ × ν)} :
    lookup key entries = none
      ↔ ∀ x ∈ entries, (x.1 == key) = false := by
  simp only [lookup, List.find?_eq_none, Bool.not_eq_true]

theorem length_store (key : κ) (value : ν) (entries : List (κ × ν)) :
    (store key value entries).length
      = entries.length + (lookup key entries).isNone.toNat := by
  induction entries with
  | nil => rfl
  | cons x rest ih =>
      unfold store
      unfold lookup at ih ⊢
      rw [List.find?_cons]
      cases x.1 == key with
      | true => simp
      | false =>
          simp only [Bool.false_eq_true, if_false, List.length_cons, ih]
          omega

theorem store_ne_nil {key : κ} {value : ν} {entries : List (κ × ν)} :
    store key value entries ≠ [] := by
  cases entries with
  | nil => exact List.cons_ne_nil _ _
  | cons x rest =>
      rw [store]
      split <;> exact List.cons_ne_nil _ _

theorem without_of_lookup {key : κ} {entries : List (κ × ν)}
    (h : lookup key entries = none) : without key entries = entries := by
  apply List.filter_eq_self.mpr
  intro x hx
  simpa using List.find?_eq_none.mp h x hx

/-- A key that is not there goes to the end. -/
theorem store_of_lookup {key : κ} {value : ν} {entries : List (κ × ν)}
    (h : lookup key entries = none) :
    store key value entries = entries ++ [(key, value)] := by
  induction entries with
  | nil => rfl
  | cons x rest ih =>
      unfold lookup at h ih
      rw [List.find?_cons] at h
      unfold store
      cases hkey : x.1 == key with
      | true => simp [hkey] at h
      | false =>
          rw [hkey] at h
          simp [ih h]

theorem mem_store {key : κ} {value : ν} {x : κ × ν}
    {entries : List (κ × ν)}
    (h : x ∈ store key value entries) :
    x.1 = key ∨ ∃ y ∈ entries, y.1 = x.1 := by
  induction entries with
  | nil =>
      rw [store, List.mem_singleton] at h
      exact .inl (congrArg Prod.fst h)
  | cons y rest ih =>
      rw [store] at h
      split at h
      · rcases List.mem_cons.mp h with rfl | h
        · exact .inr ⟨y, List.mem_cons_self, rfl⟩
        · exact .inr ⟨x, List.mem_cons_of_mem _ h, rfl⟩
      · rcases List.mem_cons.mp h with rfl | h
        · exact .inr ⟨x, List.mem_cons_self, rfl⟩
        · rcases ih h with hkey | ⟨z, hz, hzx⟩
          · exact .inl hkey
          · exact .inr ⟨z, List.mem_cons_of_mem _ hz, hzx⟩

theorem distinct_store {key : κ} {value : ν} {entries : List (κ × ν)}
    (h : Distinct entries) :
    Distinct (store key value entries) := by
  induction entries with
  | nil => exact List.pairwise_singleton _ _
  | cons x rest ih =>
      obtain ⟨hx, hrest⟩ := List.pairwise_cons.mp h
      rw [store]
      split
      case isTrue => exact List.pairwise_cons.mpr ⟨hx, hrest⟩
      case isFalse hkey =>
          refine List.pairwise_cons.mpr ⟨fun y hy => ?_, ih hrest⟩
          rcases mem_store hy with rfl | ⟨z, hz, hzy⟩
          · simpa using hkey
          · rw [← hzy]
            exact hx z hz

variable [EquivBEq κ]

/-- Behind an entry of the key there is no other. -/
theorem without_behind {key : κ} {x : κ × ν} {rest : List (κ × ν)}
    (hkey : (x.1 == key) = true) (h : ∀ y ∈ rest, (x.1 == y.1) = false) :
    without key rest = rest := by
  apply List.filter_eq_self.mpr
  intro y hy
  have hxy := h y hy
  rw [BEq.congr_left hkey, BEq.comm] at hxy
  rw [hxy]
  rfl

/-- Taking out a key that is there takes out one entry. -/
theorem length_without {key : κ} {entries : List (κ × ν)} {x : κ × ν}
    (hdistinct : Distinct entries) (h : lookup key entries = some x) :
    (without key entries).length + 1 = entries.length := by
  obtain ⟨hkey, before, after, rfl, hbefore⟩ :=
    List.find?_eq_some_iff_append.mp h
  have hrest := (List.pairwise_append.mp hdistinct).2.1
  have hafter := without_behind hkey (List.pairwise_cons.mp hrest).1
  unfold without at hafter ⊢
  rw [List.filter_append, List.filter_cons, hkey,
    List.filter_eq_self.mpr hbefore, hafter]
  simp
  omega

/-- Where no two members of a list are related, a member is related to
itself alone. -/
theorem eq_of_unrelated {α : Type} {R : α → α → Prop} {members : List α}
    (h : members.Pairwise fun x y => ¬ R x y)
    (hsymm : ∀ {x y}, R x y → R y x) {x y : α} (hx : x ∈ members)
    (hy : y ∈ members) (hxy : R x y) : x = y := by
  have hone : ∀ x ∈ members, ∀ y ∈ members, R x y → x = y :=
    List.Pairwise.forall_of_forall_of_flip (fun _ _ _ => rfl)
      (h.imp fun hne hxy => (hne hxy).elim)
      (h.imp fun hne hyx => (hne (hsymm hyx)).elim)
  exact hone x hx y hy hxy

/-- Entries with one key are one entry. -/
theorem Distinct.eq_of_beq {entries : List (κ × ν)} (h : Distinct entries)
    {x y : κ × ν} (hx : x ∈ entries) (hy : y ∈ entries)
    (hkey : (x.1 == y.1) = true) : x = y := by
  apply eq_of_unrelated (R := fun x y : κ × ν => (x.1 == y.1) = true) ?_
    BEq.symm hx hy hkey
  exact h.imp fun hne => Bool.eq_false_iff.mp hne

/-- Searching finds the entry that has the key. -/
theorem Distinct.lookup_eq_some {entries : List (κ × ν)}
    (h : Distinct entries) {key : κ} {x : κ × ν} :
    lookup key entries = some x ↔ x ∈ entries ∧ (x.1 == key) = true := by
  constructor
  · exact fun hfound => ⟨mem_of_lookup hfound, beq_of_lookup hfound⟩
  · intro ⟨hx, hkey⟩
    cases hfound : lookup key entries with
    | none => exact (List.find?_eq_none.mp hfound x hx hkey).elim
    | some y =>
        have hyx := BEq.trans (beq_of_lookup hfound) (BEq.symm hkey)
        rw [h.eq_of_beq (mem_of_lookup hfound) hx hyx]

end

-- ============================================================== likeness

section

variable [Hashable κ] {l r s t : List (κ × ν)}

/-- The entries of a hash. -/
def withHash (h : UInt64) (entries : List (κ × ν)) : List (κ × ν) :=
  entries.filter fun x => hash x.1 == h

/-- The same entries of every hash, in the same order. -/
def Alike (l r : List (κ × ν)) : Prop :=
  ∀ h, withHash h l = withHash h r

theorem withHash_append (h : UInt64) :
    withHash h (l ++ r) = withHash h l ++ withHash h r :=
  List.filter_append ..

theorem Alike.refl (l : List (κ × ν)) : Alike l l := fun _ => rfl

theorem Alike.symm (h : Alike l r) : Alike r l := fun hash => (h hash).symm

theorem Alike.trans (h : Alike l r) (h' : Alike r s) : Alike l s :=
  fun hash => (h hash).trans (h' hash)

theorem Alike.append (h : Alike l r) (h' : Alike s t) :
    Alike (l ++ s) (r ++ t) := by
  intro hash
  rw [withHash_append, withHash_append, h, h']

/-- Entries can be moved past entries of other hashes. -/
theorem alike_swap (h : ∀ x ∈ l, ∀ y ∈ r, hash x.1 ≠ hash y.1) :
    Alike (l ++ r) (r ++ l) := by
  intro key
  rw [withHash_append, withHash_append]
  by_cases hnone : withHash key l = []
  · rw [hnone, List.nil_append, List.append_nil]
  · obtain ⟨x, hx⟩ := List.exists_mem_of_ne_nil _ hnone
    obtain ⟨hxl, hxkey⟩ := List.mem_filter.mp hx
    have hother : withHash key r = [] := by
      apply List.filter_eq_nil_iff.mpr
      intro y hy hykey
      exact h x hxl y hy ((eq_of_beq hxkey).trans (eq_of_beq hykey).symm)
    rw [hother, List.nil_append, List.append_nil]

/-- Alike lists hold the same entries. -/
theorem Alike.perm (h : Alike l r) : l.Perm r := by
  induction l generalizing r with
  | nil =>
      cases r with
      | nil => exact .nil
      | cons y r =>
          have := h (hash y.1)
          simp [withHash] at this
  | cons x l ih =>
      have hx := h (hash x.1)
      unfold withHash at hx
      rw [List.filter_cons, if_pos (beq_self_eq_true _)] at hx
      obtain ⟨before, after, rfl, hbefore, -, hafter⟩ :=
        List.filter_eq_cons_iff.mp hx.symm
      have hnone : withHash (hash x.1) before = [] :=
        List.filter_eq_nil_iff.mpr hbefore
      have hrest : Alike l (before ++ after) := by
        intro key
        have hkey := h key
        rw [withHash_append] at hkey ⊢
        unfold withHash at hkey hnone ⊢
        rw [List.filter_cons, List.filter_cons] at hkey
        cases heq : hash x.1 == key with
        | true =>
            rw [← eq_of_beq heq, hnone, List.nil_append, hafter]
        | false => simpa [heq] using hkey
      exact (List.Perm.cons x (ih hrest)).trans List.perm_middle.symm

end

-- ================================================= edits and likeness

variable [BEq κ] [Hashable κ] {key : κ} {value : ν}
  {l r before middle after : List (κ × ν)}

theorem Alike.without (h : Alike l r) :
    Alike (without key l) (without key r) := by
  intro hash
  have hcomm : ∀ entries : List (κ × ν),
      withHash hash (HashMap.without key entries)
        = HashMap.without key (withHash hash entries) := by
    intro entries
    unfold withHash HashMap.without
    rw [List.filter_filter, List.filter_filter]
    simp only [Bool.and_comm]
  rw [hcomm, hcomm, h]

variable [LawfulHashable κ]

theorem lookup_withHash (key : κ) (entries : List (κ × ν)) :
    lookup key (withHash (hash key) entries) = lookup key entries := by
  unfold lookup withHash
  rw [List.find?_filter]
  congr 1
  funext x
  cases hkey : x.1 == key with
  | false => simp
  | true => simp [hash_eq hkey]

/-- A search finds the same in alike lists. -/
theorem Alike.lookup_eq (h : Alike l r) : lookup key l = lookup key r := by
  rw [← lookup_withHash key l, h, lookup_withHash]

theorem withHash_store (h : UInt64) (entries : List (κ × ν)) :
    withHash h (store key value entries)
      = if hash key == h then store key value (withHash h entries)
        else withHash h entries := by
  induction entries with
  | nil =>
      unfold withHash store
      rw [List.filter_cons]
      rfl
  | cons x rest ih =>
      unfold withHash at ih ⊢
      rw [store, List.filter_cons]
      cases hkey : x.1 == key with
      | true =>
          rw [if_pos rfl, List.filter_cons]
          simp only [hash_eq hkey]
          cases hash key == h with
          | true => simp [store, hkey]
          | false => simp
      | false =>
          rw [if_neg (by simp), List.filter_cons, ih]
          cases hash x.1 == h with
          | false => simp
          | true => cases hash key == h <;> simp [store, hkey]

theorem Alike.store (h : Alike l r) :
    Alike (store key value l) (store key value r) := by
  intro hash
  rw [withHash_store, withHash_store, h]

-- =============================================== entries of other hashes

theorem beq_of_hash_ne {x : κ} (h : hash x ≠ hash key) :
    (x == key) = false := by
  cases hkey : x == key with
  | false => rfl
  | true => exact (h (hash_eq hkey)).elim

theorem lookup_elsewhere (h : ∀ x ∈ l, hash x.1 ≠ hash key) :
    lookup key l = none := by
  apply List.find?_eq_none.mpr
  intro x hx
  rw [beq_of_hash_ne (h x hx)]
  exact Bool.false_ne_true

theorem lookup_middle (hbefore : ∀ x ∈ before, hash x.1 ≠ hash key)
    (hafter : ∀ x ∈ after, hash x.1 ≠ hash key) :
    lookup key (before ++ middle ++ after) = lookup key middle := by
  have hnone := lookup_elsewhere hbefore
  have hnone' := lookup_elsewhere hafter
  unfold lookup at hnone hnone' ⊢
  rw [List.find?_append, List.find?_append, hnone, hnone',
    Option.none_or, Option.or_none]

theorem without_middle (hbefore : ∀ x ∈ before, hash x.1 ≠ hash key)
    (hafter : ∀ x ∈ after, hash x.1 ≠ hash key) :
    without key (before ++ middle ++ after)
      = before ++ without key middle ++ after := by
  have hall : ∀ {entries : List (κ × ν)},
      (∀ x ∈ entries, hash x.1 ≠ hash key) →
      entries.filter (fun x => !(x.1 == key)) = entries := by
    intro entries h
    apply List.filter_eq_self.mpr
    intro x hx
    rw [beq_of_hash_ne (h x hx)]
    rfl
  unfold without
  rw [List.filter_append, List.filter_append, hall hbefore, hall hafter]

theorem store_append_left (h : ∀ x ∈ l, hash x.1 ≠ hash key) :
    store key value (l ++ r) = l ++ store key value r := by
  induction l with
  | nil => rfl
  | cons x l ih =>
      have hx := beq_of_hash_ne (h x List.mem_cons_self)
      have hl := ih fun y hy => h y (List.mem_cons_of_mem _ hy)
      simp [HashMap.store, hx, hl]

theorem store_append_right (h : ∀ x ∈ r, hash x.1 ≠ hash key) :
    Alike (store key value (l ++ r)) (store key value l ++ r) := by
  induction l with
  | nil =>
      rw [List.nil_append, store_of_lookup (lookup_elsewhere h)]
      apply alike_swap
      intro x hx y hy
      rw [List.mem_singleton.mp hy]
      exact h x hx
  | cons x l ih =>
      rw [List.cons_append, HashMap.store, HashMap.store]
      cases x.1 == key with
      | true => exact Alike.refl _
      | false => exact (Alike.refl [x]).append ih

theorem store_middle (hbefore : ∀ x ∈ before, hash x.1 ≠ hash key)
    (hafter : ∀ x ∈ after, hash x.1 ≠ hash key) :
    Alike (store key value (before ++ middle ++ after))
      (before ++ store key value middle ++ after) := by
  rw [List.append_assoc, store_append_left hbefore, List.append_assoc]
  exact (Alike.refl before).append (store_append_right hafter)

end PersistentCollections.HashMap
