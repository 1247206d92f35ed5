/-
What a hash map is to its callers: a ledger.

A ledger is a plain association list beside the value of the null slot.
Its entries stand in the order in which their keys last came to be
present: a new key goes to the end, a value that is replaced keeps its
place, and a key that is taken out and put back moves to the end. The
edits of a map are edits of its ledger, and no hash has a part in them.
-/
import PersistentCollections.Proofs.HashMap.Alike

namespace PersistentCollections.HashMap

/-- The entries that have a key, and the value of the null slot. -/
structure Ledger (κ ν : Type) where
  keyed : List (κ × ν)
  null : Option ν

namespace Ledger

variable {κ ν : Type}

def empty : Ledger κ ν := ⟨[], none⟩

/-- The number of entries, the null slot included. -/
def size (ledger : Ledger κ ν) : Nat :=
  ledger.keyed.length + ledger.null.isSome.toNat

def putNull (ledger : Ledger κ ν) (value : ν) : Ledger κ ν :=
  { ledger with null := some value }

def eraseNull (ledger : Ledger κ ν) : Ledger κ ν :=
  { ledger with null := none }

theorem eq_empty_of_size {ledger : Ledger κ ν} (h : ledger.size = 0) :
    ledger = empty := by
  obtain ⟨keyed, null⟩ := ledger
  obtain ⟨hkeyed, hnull⟩ := Nat.add_eq_zero_iff.mp h
  cases List.eq_nil_of_length_eq_zero hkeyed
  cases null with
  | none => rfl
  | some value => cases hnull

section

variable [BEq κ]

/-- The ledger with a value under a key, whatever is there. -/
def put (ledger : Ledger κ ν) (key : κ) (value : ν) : Ledger κ ν :=
  { ledger with keyed := store key value ledger.keyed }

/-- The ledger with one value after the other. -/
def putAll (ledger : Ledger κ ν) (entries : List (κ × ν)) : Ledger κ ν :=
  entries.foldl (fun ledger (key, value) => ledger.put key value) ledger

/-- The ledger without a key. -/
def erase (ledger : Ledger κ ν) (key : κ) : Ledger κ ν :=
  { ledger with keyed := without key ledger.keyed }

/-- The ledger with all of another one, which comes in this order; the
values of the other one count. -/
def merge (ledger : Ledger κ ν) (entries : List (κ × ν))
    (null : Option ν) : Ledger κ ν :=
  { ledger.putAll entries with null := null.or ledger.null }

end

section

variable [BEq ν]

/-- The ledger with a value in the null slot; an equal one stays. -/
def insertNull (ledger : Ledger κ ν) (value : ν) : Ledger κ ν :=
  if ledger.null == some value then ledger else ledger.putNull value

variable [BEq κ]

/-- The ledger with a value under a key; an equal one stays. -/
def insert (ledger : Ledger κ ν) (key : κ) (value : ν) : Ledger κ ν :=
  match lookup key ledger.keyed with
  | some (_, stored) =>
    if stored == value then ledger else ledger.put key value
  | none => ledger.put key value

/-- The ledger with what `change` makes of the value under a key. -/
def alter (ledger : Ledger κ ν) (key : κ)
    (change : Option ν → Option ν) : Ledger κ ν :=
  match lookup key ledger.keyed with
  | some (storedKey, stored) =>
    match change (some stored) with
    | some value => ledger.insert storedKey value
    | none => ledger.erase key
  | none =>
    match change none with
    | some value => ledger.insert key value
    | none => ledger

end

-- ============================================================== putting all

variable [BEq κ]

theorem putAll_null (ledger : Ledger κ ν) (entries : List (κ × ν)) :
    (ledger.putAll entries).null = ledger.null := by
  induction entries generalizing ledger with
  | nil => rfl
  | cons x entries ih => exact ih _

/-- Entries of different keys are put behind the others as they are. -/
theorem putAll_keyed {ledger : Ledger κ ν}
    {entries : List (κ × ν)}
    (h : Distinct (ledger.keyed ++ entries)) :
    (ledger.putAll entries).keyed = ledger.keyed ++ entries := by
  induction entries generalizing ledger with
  | nil => exact (List.append_nil _).symm
  | cons x entries ih =>
      have hrest := (List.pairwise_append.mp h).2.2
      have hnone : lookup x.1 ledger.keyed = none := by
        apply List.find?_eq_none.mpr
        intro y hy
        rw [hrest y hy x List.mem_cons_self]
        exact Bool.false_ne_true
      have hput : (ledger.put x.1 x.2).keyed = ledger.keyed ++ [x] :=
        store_of_lookup hnone
      rw [← List.singleton_append, ← List.append_assoc, ← hput] at h
      show ((ledger.put x.1 x.2).putAll entries).keyed = _
      rw [ih h, hput, List.append_assoc]
      rfl

theorem merge_none (ledger : Ledger κ ν) (entries : List (κ × ν)) :
    ledger.merge entries none = ledger.putAll entries := by
  rw [merge, Option.none_or, ← putAll_null ledger entries]

theorem empty_merge {entries : List (κ × ν)} (h : Distinct entries)
    (null : Option ν) : empty.merge entries null = ⟨entries, null⟩ := by
  have hkeyed : ((empty : Ledger κ ν).putAll entries).keyed = entries :=
    putAll_keyed h
  rw [merge, hkeyed]
  cases null <;> rfl

end Ledger

end PersistentCollections.HashMap
