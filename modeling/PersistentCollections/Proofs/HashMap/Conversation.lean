/-
Conversations with a draft.

A caller asks a draft for edits and for reads, one call after the other.
An open draft replies what the ledger of its map replies, so an edit
answers the value it displaces, a read knows of every edit before it,
and no call is refused (`conversation_spec`). The entries of a batch are
stored one after the other. Once a draft is closed, every call on it is
refused and leaves it closed.
-/
import PersistentCollections.Proofs.HashMap.Course

namespace PersistentCollections.HashMap

variable {κ ν : Type}

/-- What a caller may ask of a draft, but for closing it. -/
inductive Draft.Call (κ ν : Type) where
  /-- Make an edit. -/
  | edit (change : Draft.Edit κ ν)
  /-- Read the value of a key. -/
  | get? (key : κ)
  /-- Ask for a key. -/
  | contains (key : κ)
  /-- Read the null slot. -/
  | getNull?
  /-- Count the entries. -/
  | size
  /-- Ask for any entry. -/
  | isEmpty

/-- What a draft answers to a call. -/
inductive Draft.Answer (ν : Type) where
  /-- A batch of edits was made. -/
  | done
  /-- The value that a place has, or had before an edit. -/
  | value (found : Option ν)
  /-- Whether it is as asked. -/
  | flag (holds : Bool)
  /-- How many entries there are. -/
  | count (number : Nat)

section

variable [BEq κ]

/-- What a ledger answers to a call, and the ledger after it. -/
def Ledger.reply (ledger : Ledger κ ν) :
    Draft.Call κ ν → Draft.Answer ν × Ledger κ ν
  | .edit (.insert key value) =>
    (.value ((lookup key ledger.keyed).map (·.2)), ledger.put key value)
  | .edit (.insertAll entries) => (.done, ledger.putAll entries)
  | .edit (.erase key) =>
    (.value ((lookup key ledger.keyed).map (·.2)), ledger.erase key)
  | .edit (.insertNull value) => (.value ledger.null, ledger.putNull value)
  | .edit .eraseNull => (.value ledger.null, ledger.eraseNull)
  | .get? key => (.value ((lookup key ledger.keyed).map (·.2)), ledger)
  | .contains key => (.flag (lookup key ledger.keyed).isSome, ledger)
  | .getNull? => (.value ledger.null, ledger)
  | .size => (.count ledger.size, ledger)
  | .isEmpty => (.flag (ledger.size == 0), ledger)

variable [Hashable κ]

/-- What a draft answers to a call, and the draft after it. -/
def Draft.ask (draft : Draft κ ν) (stamp : Stamp) :
    Call κ ν → Except Failure (Answer ν × Draft κ ν)
  | .edit (.insert key value) => do
    let (previous, after) ← draft.insert stamp key value
    return (.value previous, after)
  | .edit (.insertAll entries) => do
    return (.done, ← draft.insertAll stamp entries)
  | .edit (.erase key) => do
    let (previous, after) ← draft.erase stamp key
    return (.value previous, after)
  | .edit (.insertNull value) => do
    let (previous, after) ← draft.insertNull stamp value
    return (.value previous, after)
  | .edit .eraseNull => do
    let (previous, after) ← draft.eraseNull
    return (.value previous, after)
  | .get? key => do return (.value (← draft.get? key), draft)
  | .contains key => do return (.flag (← draft.contains key), draft)
  | .getNull? => do return (.value (← draft.getNull?), draft)
  | .size => do return (.count (← draft.size), draft)
  | .isEmpty => do return (.flag (← draft.isEmpty), draft)

/-- The draft with one entry stored after the other. -/
def Draft.insertEach (draft : Draft κ ν) (stamp : Stamp)
    (entries : List (κ × ν)) : Except Failure (Draft κ ν) :=
  entries.foldlM (fun draft (key, value) =>
    (·.2) <$> draft.insert stamp key value) draft

/-- What a caller hears of a call, and the draft that is left. -/
def Draft.respond (draft : Draft κ ν) (call : Stamp × Call κ ν) :
    Except Failure (Answer ν) × Draft κ ν :=
  settle draft (draft.ask call.1 call.2)

end

variable [BEq κ] [Hashable κ] {map : HashMap κ ν} {ledger : Ledger κ ν}
  {draft : Draft κ ν}

-- =========================================================== open drafts

/-- An open draft closes, and hands out its map. -/
theorem Draft.Records.close (h : draft.Records ledger) :
    ∃ map : HashMap κ ν, draft.close = .ok (map, ⟨none⟩)
      ∧ HashMap.Records map ledger := by
  obtain ⟨map, rfl, hmap⟩ := h
  exact ⟨map, rfl, hmap⟩

section

variable [EquivBEq κ] [LawfulHashable κ]

/-- A draft answers a call from its ledger. -/
theorem ask_spec (h : Records map ledger) (stamp : Stamp)
    (call : Draft.Call κ ν) :
    ∃ after : HashMap κ ν,
      map.draft.ask stamp call = .ok ((ledger.reply call).1, after.draft)
        ∧ Records after (ledger.reply call).2 := by
  cases call with
  | edit change =>
      cases change with
      | insert key value =>
          obtain ⟨after, hinsert, hafter⟩ :=
            draft_insert_spec h stamp key value
          exact ⟨after, by rw [Draft.ask, hinsert]; rfl, hafter⟩
      | insertAll entries =>
          obtain ⟨after, hinsert, hafter⟩ :=
            draft_insertAll_spec h stamp entries
          exact ⟨after, by rw [Draft.ask, hinsert]; rfl, hafter⟩
      | erase key =>
          obtain ⟨after, herase, hafter⟩ := draft_erase_spec h stamp key
          exact ⟨after, by rw [Draft.ask, herase]; rfl, hafter⟩
      | insertNull value =>
          obtain ⟨after, hinsert, hafter⟩ :=
            draft_insertNull_spec h stamp value
          exact ⟨after, by rw [Draft.ask, hinsert]; rfl, hafter⟩
      | eraseNull =>
          obtain ⟨after, herase, hafter⟩ := draft_eraseNull_spec h
          exact ⟨after, by rw [Draft.ask, herase]; rfl, hafter⟩
  | get? key =>
      refine ⟨map, ?_, h⟩
      rw [Ledger.reply, ← h.get?_eq]
      rfl
  | contains key =>
      refine ⟨map, ?_, h⟩
      rw [Ledger.reply, ← Option.isSome_map (f := (·.2)), ← h.get?_eq]
      rfl
  | getNull? =>
      refine ⟨map, ?_, h⟩
      rw [Ledger.reply, ← h.null]
      rfl
  | size =>
      refine ⟨map, ?_, h⟩
      rw [Ledger.reply, ← h.size]
      rfl
  | isEmpty =>
      refine ⟨map, ?_, h⟩
      rw [Ledger.reply, ← h.size]
      rfl

/-- No call on an open draft is refused. -/
theorem respond_spec (h : draft.Records ledger)
    (call : Stamp × Draft.Call κ ν) :
    (draft.respond call).1 = .ok (ledger.reply call.2).1
      ∧ (draft.respond call).2.Records (ledger.reply call.2).2 := by
  obtain ⟨map, rfl, hmap⟩ := h
  obtain ⟨after, hask, hafter⟩ := ask_spec hmap call.1 call.2
  rw [Draft.respond, hask]
  exact ⟨rfl, after, rfl, hafter⟩

/-- A conversation with an open draft is one with its ledger. -/
theorem conversation_spec (h : draft.Records ledger)
    (calls : List (Stamp × Draft.Call κ ν)) :
    (transcript Draft.respond draft calls).1
        = (transcript Ledger.reply ledger (calls.map (·.2))).1.map .ok
      ∧ (transcript Draft.respond draft calls).2.Records
          (transcript Ledger.reply ledger (calls.map (·.2))).2 :=
  transcript_lockstep respond_spec calls h

end

-- ========================================================= closed drafts

/-- Every call on a closed draft is refused. -/
theorem respond_closed (call : Stamp × Draft.Call κ ν) :
    Draft.respond ⟨none⟩ call
      = (.error (.draftClosed "TransientHashMap"), ⟨none⟩) := by
  obtain ⟨stamp, call⟩ := call
  cases call with
  | edit change => cases change <;> rfl
  | _ => rfl

-- =============================================================== batches

theorem insertAll_eq_putAll (map : HashMap κ ν) (stamp : Stamp)
    (entries : List (κ × ν)) :
    map.draft.insertAll stamp entries
      = (do return (← map.putAll stamp entries).draft) := rfl

theorem insert_eq_put (map : HashMap κ ν) (stamp : Stamp) (key : κ)
    (value : ν) :
    (·.2) <$> map.draft.insert stamp key value
      = (do return (← map.put stamp key value).2.draft) := by
  unfold Draft.insert
  show (_ <$> (map.put stamp key value >>= _) : Except Failure _) = _
  cases map.put stamp key value with
  | error cause => rfl
  | ok step => rfl

/-- A batch stores its entries one after the other. -/
theorem insertAll_eq (map : HashMap κ ν) (stamp : Stamp)
    (entries : List (κ × ν)) :
    map.draft.insertAll stamp entries
      = map.draft.insertEach stamp entries := by
  induction entries generalizing map with
  | nil => rfl
  | cons x entries ih =>
      obtain ⟨key, value⟩ := x
      rw [Draft.insertEach, List.foldlM_cons, insertAll_eq_putAll, putAll,
        List.foldlM_cons]
      simp only [insert_eq_put]
      cases map.put stamp key value with
      | error cause => rfl
      | ok step => exact ih step.2

/-- The map of some entries is that of a draft that stores them. -/
theorem ofList_eq (stamp : Stamp) (entries : List (κ × ν)) :
    ofList stamp entries = (do
      let draft ← Draft.empty.insertEach stamp entries
      return (← draft.close).1) := by
  have hbatch : Draft.empty.insertEach stamp entries
      = (do return (← empty.putAll stamp entries).draft) :=
    (insertAll_eq empty stamp entries).symm
  rw [hbatch, ofList]
  cases empty.putAll stamp entries with
  | error cause => rfl
  | ok map => rfl

end PersistentCollections.HashMap
