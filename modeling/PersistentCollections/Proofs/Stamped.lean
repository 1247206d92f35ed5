/-
Stamps stand for instances.

A place holds an instance or nothing. Two places agree when having one
stamp means to hold one instance, and places are coherent when any two
of them agree, so that a comparison of stamps is one of instances. An
edit puts into a place what was there, nothing, or an instance with the
stamp of the edit; as long as no place at hand has that stamp yet, all
places at hand stay coherent.

What is asked of an edit of a collection is that it goes through, and
hands back the instance it was given in the case that it has nothing to
change, and in no other (`HandsBack`).
-/
import PersistentCollections.Edit

namespace PersistentCollections.Stamped

variable {α : Type} {places : List (Option (Stamped α))}
  {place left right : Option (Stamped α)} {stamp : Stamp}

-- ================================================================ places

/-- A place that has another stamp, or none. -/
def Lacks (place : Option (Stamped α)) (stamp : Stamp) : Prop :=
  ∀ held ∈ place, held.stamp ≠ stamp

instance : Decidable (Lacks place stamp) :=
  inferInstanceAs (Decidable (∀ held ∈ place, held.stamp ≠ stamp))

/-- A place that holds one instance with all that have its stamp. -/
def Agrees (place : Option (Stamped α))
    (places : List (Option (Stamped α))) : Prop :=
  ∀ other ∈ places, same place other = true → place = other

/-- Places with one stamp hold one instance. -/
def Coherent (places : List (Option (Stamped α))) : Prop :=
  ∀ place ∈ places, Agrees place places

theorem same_self (place : Option (Stamped α)) :
    same place place = true := by
  cases place with
  | none => rfl
  | some held => exact beq_self_eq_true held.stamp

theorem same_comm (left right : Option (Stamped α)) :
    same left right = same right left := by
  cases left with
  | none => cases right <;> rfl
  | some left =>
      cases right with
      | none => rfl
      | some right => exact BEq.comm

theorem none_same : same (none : Option (Stamped α)) place = true
    ↔ place = none := by
  cases place with
  | none => exact iff_of_true rfl rfl
  | some held => exact iff_of_false Bool.false_ne_true nofun

theorem same_none : same place (none : Option (Stamped α)) = true
    ↔ place = none := by
  rw [same_comm, none_same]

/-- An instance of an edit is in no place that lacks its stamp. -/
theorem not_same_of_lacks (h : Lacks place stamp) (value : α) :
    same (some ⟨stamp, value⟩) place = false := by
  cases place with
  | none => rfl
  | some held => exact beq_eq_false_iff_ne.mpr (h held rfl).symm

theorem agrees_none : Agrees none places :=
  fun _ _ hsame => (none_same.mp hsame).symm

theorem agrees_new (h : ∀ place ∈ places, Lacks place stamp) (value : α) :
    Agrees (some ⟨stamp, value⟩) places := by
  intro other hother hsame
  rw [not_same_of_lacks (h other hother)] at hsame
  cases hsame

theorem Coherent.add (h : Coherent places) (hplace : Agrees place places) :
    Coherent (place :: places) := by
  intro left hl right hr hsame
  rcases List.mem_cons.mp hl with hl | hl <;>
    rcases List.mem_cons.mp hr with hr | hr
  · rw [hl, hr]
  · rw [hl] at hsame ⊢
    exact hplace right hr hsame
  · rw [hr, same_comm] at hsame
    rw [hr]
    exact (hplace left hl hsame).symm
  · exact h left hl right hr hsame

theorem Coherent.of_subset {rest : List (Option (Stamped α))}
    (h : Coherent places) (hrest : rest ⊆ places) : Coherent rest :=
  fun left hl right hr => h left (hrest hl) right (hrest hr)

-- =============================================================== results

section

variable {σ : Type} {same : σ → σ → Bool} {alike : σ → σ → Prop}
  {before after : σ} {result : Except Failure σ} {idle idle' : Prop}

/-- An edit that goes through, and whose result is the same instance as
the collection before it in one case only, and then alike. -/
def HandsBack (same : σ → σ → Bool) (alike : σ → σ → Prop) (before : σ)
    (result : Except Failure σ) (idle : Prop) : Prop :=
  ∃ after, result = .ok after ∧ (same after before = true ↔ idle)
    ∧ (same after before = true → alike after before)

namespace HandsBack

theorem kept (hidle : idle) (hsame : same after before = true)
    (halike : alike after before) :
    HandsBack same alike before (.ok after) idle :=
  ⟨after, rfl, iff_of_true hsame hidle, fun _ => halike⟩

theorem changed (hbusy : ¬ idle) (hother : same after before = false) :
    HandsBack same alike before (.ok after) idle := by
  have hnot : ¬ same after before = true := Bool.eq_false_iff.mp hother
  exact ⟨after, rfl, iff_of_false hnot hbusy, fun hsame => (hnot hsame).elim⟩

theorem congr (h : HandsBack same alike before result idle)
    (hidle : idle ↔ idle') : HandsBack same alike before result idle' := by
  obtain ⟨after, hresult, hsame, halike⟩ := h
  exact ⟨after, hresult, hsame.trans hidle, halike⟩

theorem of_ok (h : HandsBack same alike before (.ok after) idle) :
    (same after before = true ↔ idle)
      ∧ (same after before = true → alike after before) := by
  obtain ⟨_, ⟨⟩, hafter⟩ := h
  exact hafter

/-- With something to change, the result is another instance. -/
theorem busy (h : HandsBack same alike before result idle)
    (hbusy : ¬ idle) :
    ∃ after, result = .ok after ∧ same after before = false := by
  obtain ⟨after, hresult, hsame, -⟩ := h
  exact ⟨after, hresult, Bool.eq_false_iff.mpr (mt hsame.mp hbusy)⟩

end HandsBack

end

end PersistentCollections.Stamped
