/-
A branch by its digits, whichever of its two forms it has.

A branch stands for 32 cells, one for each digit, of which some hold a
slot (`Lays`). The packed form keeps the slots of the cells in use and
marks their digits; the rank of a digit is the number of slots in the
cells before its own, so it is where the slot stands. Every edit of a
branch changes one cell, and goes over to the other form where the
number of cells in use calls for it.
-/
import PersistentCollections.HashMap.Node.Insert

namespace PersistentCollections.HashMap

variable {κ ν : Type} {taken : Taken} {d i : Nat}

-- ================================================================= marks

namespace Taken

theorem has_empty (i : Nat) : empty.has i = false := by
  simp [empty, has]

theorem has_only (h : d < digitCount) (i : Nat) :
    (only d).has i = decide (i = d) := by
  have hcount : digitCount = 32 := rfl
  unfold only has
  rw [BitVec.getLsbD_shiftLeft, BitVec.getLsbD_one]
  by_cases hi : i = d
  · subst hi
    simp
    omega
  · simp [hi]
    omega

theorem has_add (h : d < digitCount) (i : Nat) :
    (taken.add d).has i = (taken.has i || decide (i = d)) := by
  rw [← has_only h]
  exact BitVec.getLsbD_or

theorem has_drop (h : d < digitCount) (i : Nat) :
    (taken.drop d).has i = (taken.has i && !decide (i = d)) := by
  rw [← has_only h]
  unfold drop has
  rw [BitVec.getLsbD_and, BitVec.getLsbD_not]
  by_cases hi : i < 32
  · simp [hi]
  · simp [hi, BitVec.getLsbD_of_ge _ _ (Nat.le_of_not_lt hi)]

end Taken

-- ================================================================= cells

namespace Node

variable {before after cells : List (Option (Slot κ ν))}
  {cell : Option (Slot κ ν)} {slot old : Slot κ ν} {node : Node κ ν}

/-- The slots of the cells in use. -/
def inUse (cells : List (Option (Slot κ ν))) : List (Slot κ ν) :=
  cells.filterMap id

/-- Whether the cell of a digit is in use. -/
def uses (cells : List (Option (Slot κ ν))) (d : Nat) : Bool :=
  cells[d]?.join.isSome

/-- The cell of a digit holds this slot. -/
def At (cells : List (Option (Slot κ ν))) (d : Nat) (slot : Slot κ ν) :
    Prop :=
  cells[d]? = some (some slot)

@[simp] theorem inUse_nil : inUse ([] : List (Option (Slot κ ν))) = [] :=
  rfl

@[simp] theorem inUse_none :
    inUse (none :: cells) = inUse cells := rfl

@[simp] theorem inUse_some :
    inUse (some slot :: cells) = slot :: inUse cells := rfl

@[simp] theorem inUse_append :
    inUse (before ++ after) = inUse before ++ inUse after :=
  List.filterMap_append

theorem uses_append_cons (i : Nat) :
    uses (before ++ some slot :: after) i
      = (uses (before ++ none :: after) i || decide (i = before.length)) := by
  unfold uses
  rcases Nat.lt_trichotomy i before.length with hlt | rfl | hgt
  · rw [List.getElem?_append_left hlt, List.getElem?_append_left hlt]
    simp [Nat.ne_of_lt hlt]
  · simp
  · obtain ⟨k, hk⟩ := Nat.exists_eq_add_of_lt hgt
    have hsub : i - before.length = k + 1 := by omega
    have hne : i ≠ before.length := Nat.ne_of_gt hgt
    rw [List.getElem?_append_right (Nat.le_of_lt hgt),
      List.getElem?_append_right (Nat.le_of_lt hgt), hsub]
    simp [hne]

/-- The number of cells in use before a digit. -/
theorem rank_take (htaken : ∀ i, taken.has i = uses cells i) :
    ∀ d ≤ cells.length, taken.rank d = (inUse (cells.take d)).length := by
  intro d
  induction d with
  | zero => exact fun _ => rfl
  | succ d ih =>
      intro hd
      have hbefore := ih (Nat.le_of_succ_le hd)
      have hcell := htaken d
      unfold Taken.rank at hbefore ⊢
      rw [List.range_succ, List.countP_append, hbefore, List.take_add_one,
        inUse_append, List.length_append, List.countP_singleton, hcell]
      unfold uses
      cases cells[d]? with
      | none => rfl
      | some cell => cases cell <;> rfl

theorem rank_eq (htaken : ∀ i, taken.has i = uses (before ++ after) i) :
    taken.rank before.length = (inUse before).length := by
  rw [rank_take htaken _ (by simp), List.take_left]

/-- A branch that stands for these cells. -/
inductive Lays : Node κ ν → List (Option (Slot κ ν)) → Prop
  | packed {taken : Taken} {cells : List (Option (Slot κ ν))} :
      cells.length = digitCount → (∀ i, taken.has i = uses cells i) →
      (inUse cells).length < spreadAt →
      Lays (packed taken (inUse cells)) cells
  | spread {cells : List (Option (Slot κ ν))} :
      cells.length = digitCount → packAt < (inUse cells).length →
      Lays (spread (inUse cells).length cells) cells

/-- A node that reads a digit. -/
def IsBranch (node : Node κ ν) : Prop := ∃ cells, Lays node cells

theorem Lays.length (h : Lays node cells) : cells.length = digitCount := by
  cases h with
  | packed hlen => exact hlen
  | spread hlen => exact hlen

theorem Lays.slots_eq (h : Lays node cells) : node.slots = inUse cells := by
  cases h <;> rfl

theorem Lays.slot?_eq (h : Lays node (before ++ cell :: after)) :
    node.slot? before.length = some cell := by
  cases h with
  | spread => simp [slot?]
  | packed _ htaken =>
      have hrank := rank_eq htaken
      have hcell := htaken before.length
      simp only [slot?, hrank, hcell]
      cases cell <;> simp [uses]

theorem Lays.setSlot (h : Lays node (before ++ some old :: after))
    (slot : Slot κ ν) :
    Lays (node.setSlot before.length slot)
      (before ++ some slot :: after) := by
  cases h with
  | packed hlen htaken hfew =>
      have hrank := rank_eq htaken
      have hslots : (inUse (before ++ some old :: after)).set
            (inUse before).length slot
          = inUse (before ++ some slot :: after) := by simp
      simp only [Node.setSlot, hrank, hslots]
      refine .packed (by simpa using hlen) ?_ (by simpa using hfew)
      intro i
      rw [htaken, uses_append_cons, uses_append_cons]
  | spread hlen hmany =>
      have hcount : (inUse (before ++ some old :: after)).length
          = (inUse (before ++ some slot :: after)).length := by simp
      have hcells : (before ++ some old :: after).set before.length
          (some slot) = before ++ some slot :: after := by simp
      simp only [Node.setSlot, hcells, hcount]
      exact .spread (by simpa using hlen) (by simpa using hmany)

theorem cellsFrom_eq : ∀ {cells : List (Option (Slot κ ν))} {d : Nat},
    (∀ i, taken.has (d + i) = uses cells i) →
    cellsFrom taken d cells.length (inUse cells) = cells := by
  intro cells
  induction cells with
  | nil => exact fun _ => rfl
  | cons cell cells ih =>
      intro d htaken
      have hhead := htaken 0
      have hrest : ∀ i, taken.has (d + 1 + i) = uses cells i := by
        intro i
        have := htaken (i + 1)
        rw [Nat.add_assoc, Nat.add_comm 1 i]
        simpa [uses] using this
      rw [List.length_cons]
      cases cell with
      | none =>
          have hfree : taken.has d = false := by simpa [uses] using hhead
          rw [inUse_none]
          unfold cellsFrom
          simp [hfree, ih hrest]
      | some slot =>
          have hused : taken.has d = true := by simpa [uses] using hhead
          rw [inUse_some]
          unfold cellsFrom
          simp [hused, ih hrest]

theorem insertIdx_length {α : Type} (before after : List α) (x : α) :
    (before ++ after).insertIdx before.length x = before ++ x :: after := by
  induction before with
  | nil => rfl
  | cons y before ih => exact congrArg (y :: ·) ih

theorem eraseIdx_length {α : Type} (before after : List α) (x : α) :
    (before ++ x :: after).eraseIdx before.length = before ++ after := by
  induction before with
  | nil => rfl
  | cons y before ih => exact congrArg (y :: ·) ih

theorem Lays.addSlot (h : Lays node (before ++ none :: after))
    (slot : Slot κ ν) :
    Lays (node.addSlot before.length slot)
      (before ++ some slot :: after) := by
  have hlen : before.length < digitCount := by
    have := h.length
    rw [List.length_append, List.length_cons] at this
    omega
  have hlength : (before ++ some slot :: after).length = digitCount := by
    simpa using h.length
  have hcells : (before ++ none :: after).set before.length (some slot)
      = before ++ some slot :: after := by simp
  have hcount : (inUse (before ++ some slot :: after)).length
      = (inUse (before ++ none :: after)).length + 1 := by
    simp
    omega
  cases h with
  | spread hlen' hmany =>
      simp only [Node.addSlot, hcells, ← hcount]
      exact .spread hlength (by omega)
  | @packed taken _ hlen' htaken hfew =>
      have hrank := rank_eq htaken
      simp only [Node.addSlot]
      split
      case isTrue hroom =>
          have hslots : (inUse (before ++ none :: after)).insertIdx
                (inUse before).length slot
              = inUse (before ++ some slot :: after) := by
            simp [insertIdx_length]
          rw [hrank, hslots]
          refine .packed hlength ?_ (by omega)
          intro i
          rw [Taken.has_add hlen, htaken, uses_append_cons]
      case isFalse hroom =>
          have hlaid : cellsFrom taken 0 digitCount
                (inUse (before ++ none :: after))
              = before ++ none :: after := by
            rw [← hlen']
            exact cellsFrom_eq (by simpa using htaken)
          rw [hlaid, hcells, ← hcount]
          refine .spread hlength ?_
          have hspread : spreadAt = 16 := rfl
          have hpack : packAt = 8 := rfl
          omega

theorem has_takenFrom : ∀ {cells : List (Option (Slot κ ν))} {d : Nat},
    d + cells.length ≤ digitCount → ∀ i,
    (takenFrom d cells).has i = (decide (d ≤ i) && uses cells (i - d)) := by
  intro cells
  induction cells with
  | nil =>
      intro d _ i
      simp [takenFrom, uses, Taken.has_empty]
  | cons cell cells ih =>
      intro d hd i
      rw [List.length_cons] at hd
      have hnext : d + 1 + cells.length ≤ digitCount := by omega
      have hrest := ih hnext i
      have huses : (decide (d ≤ i) && uses (cell :: cells) (i - d))
          = (decide (d + 1 ≤ i) && uses cells (i - (d + 1))
            || decide (i = d) && cell.isSome) := by
        rcases Nat.lt_trichotomy i d with hlt | rfl | hgt
        · have hout : ¬d ≤ i := by omega
          have hout' : ¬d + 1 ≤ i := by omega
          simp [hout, hout', Nat.ne_of_lt hlt]
        · have hout : ¬i + 1 ≤ i := by omega
          simp [uses, hout]
        · obtain ⟨k, rfl⟩ := Nat.exists_eq_add_of_lt hgt
          have hsub : d + k + 1 - d = k + 1 := by omega
          have hsub' : d + k + 1 - (d + 1) = k := by omega
          have hne : d + k + 1 ≠ d := by omega
          have hle : d ≤ d + k + 1 := by omega
          simp [uses, hsub, hsub', hne, hle]
      rw [huses]
      cases cell with
      | none => simp [takenFrom, hrest]
      | some slot =>
          have hd' : d < digitCount := by omega
          simp [takenFrom, Taken.has_add hd', hrest]

theorem Lays.dropSlot (h : Lays node (before ++ some old :: after)) :
    Lays (node.dropSlot before.length) (before ++ none :: after) := by
  have hlen : before.length < digitCount := by
    have := h.length
    rw [List.length_append, List.length_cons] at this
    omega
  have hlength : (before ++ none :: after).length = digitCount := by
    simpa using h.length
  have hcells : (before ++ some old :: after).set before.length none
      = before ++ none :: after := by simp
  have hcount : (inUse (before ++ some old :: after)).length
      = (inUse (before ++ none :: after)).length + 1 := by
    simp
    omega
  cases h with
  | packed hlen' htaken hfew =>
      have hrank := rank_eq htaken
      have hslots : (inUse (before ++ some old :: after)).eraseIdx
            (inUse before).length
          = inUse (before ++ none :: after) := by
        simp [eraseIdx_length]
      simp only [Node.dropSlot, hrank, hslots]
      refine .packed hlength ?_ (by omega)
      intro i
      rw [Taken.has_drop hlen, htaken, uses_append_cons]
      by_cases hi : i = before.length
      · subst hi
        simp [uses]
      · simp [hi]
  | spread hlen' hmany =>
      simp only [Node.dropSlot, hcells, hcount, Nat.add_sub_cancel]
      split
      case isTrue hfew =>
          -- few enough to be packed again: the marks are read off
          have hspread : spreadAt = 16 := rfl
          have hpack : packAt = 8 := rfl
          refine .packed hlength (fun i => ?_) (by omega)
          rw [has_takenFrom (by omega)]
          simp
      case isFalse hmany => exact .spread hlength (by omega)

/-- A branch is empty when no cell is in use. -/
theorem Lays.isEmpty_eq (h : Lays node cells) :
    node.isEmpty = (inUse cells).isEmpty := by
  cases h with
  | spread _ hmany =>
      have hne : inUse cells ≠ [] := List.ne_nil_of_length_pos (by omega)
      rw [List.isEmpty_eq_false_iff.mpr hne]
      rfl
  | @packed taken _ _ htaken _ =>
      rw [Bool.eq_iff_iff, List.isEmpty_iff]
      constructor
      · intro hempty
        apply List.filterMap_eq_nil_iff.mpr
        intro cell hcell
        obtain ⟨i, hi⟩ := List.mem_iff_getElem?.mp hcell
        have hfree := htaken i
        rw [eq_of_beq hempty, Taken.has_empty, uses, hi] at hfree
        simpa using hfree.symm
      · intro hnone
        refine beq_iff_eq.mpr (BitVec.eq_of_getLsbD_eq fun i _ => ?_)
        refine (htaken i).trans (Eq.trans ?_ (Taken.has_empty i).symm)
        unfold uses
        cases hcell : cells[i]? with
        | none => rfl
        | some cell =>
            have hmem := List.mem_of_getElem? hcell
            simpa using List.filterMap_eq_nil_iff.mp hnone cell hmem

-- ========================================================== small branches

theorem lays_empty :
    Lays (empty : Node κ ν) (List.replicate digitCount none) := by
  have hnone : ∀ n, inUse (List.replicate n (none : Option (Slot κ ν)))
      = [] := by
    intro n
    simp [inUse]
  have hfew : ([] : List (Slot κ ν)).length < spreadAt := Nat.zero_lt_succ _
  unfold empty
  rw [← hnone digitCount]
  refine .packed List.length_replicate (fun i => ?_) (by rwa [hnone])
  rw [Taken.has_empty]
  unfold uses
  by_cases hi : i < digitCount
  · simp [hi]
  · simp [hi]

theorem split_cells (h : cells[d]? = some cell) :
    ∃ before after, cells = before ++ cell :: after
      ∧ d = before.length := by
  obtain ⟨hd, hcell⟩ := List.getElem?_eq_some_iff.mp h
  refine ⟨cells.take d, cells.drop (d + 1), ?_, ?_⟩
  · rw [← hcell, List.getElem_cons_drop, List.take_append_drop]
  · rw [List.length_take, Nat.min_eq_left (Nat.le_of_lt hd)]

theorem getElem?_other {other : Option (Slot κ ν)}
    (h : i ≠ before.length) :
    (before ++ cell :: after)[i]? = (before ++ other :: after)[i]? := by
  rcases Nat.lt_or_gt_of_ne h with hlt | hgt
  · rw [List.getElem?_append_left hlt, List.getElem?_append_left hlt]
  · obtain ⟨k, hk⟩ := Nat.exists_eq_add_of_lt hgt
    have hsub : i - before.length = k + 1 := by omega
    rw [List.getElem?_append_right (Nat.le_of_lt hgt),
      List.getElem?_append_right (Nat.le_of_lt hgt), hsub]
    rfl

/-- A branch of one slot. -/
theorem lays_only (hd : d < digitCount) (slot : Slot κ ν) :
    ∃ cells, Lays (packed (Taken.only d) [slot]) cells
      ∧ ∀ i cell, cells[i]? = some cell →
        cell = none ∨ i = d ∧ cell = some slot := by
  have hfree : (List.replicate digitCount (none : Option (Slot κ ν)))[d]?
      = some none := by simp [hd]
  obtain ⟨before, after, hcells, rfl⟩ := split_cells hfree
  have hlays := lays_empty (κ := κ) (ν := ν)
  rw [hcells] at hlays
  have hadd : (empty : Node κ ν).addSlot before.length slot
      = packed (Taken.only before.length) [slot] := by
    have hrank : Taken.empty.rank before.length = 0 :=
      List.countP_eq_zero.mpr fun i _ => by simp [Taken.has_empty]
    have hmark : Taken.empty.add before.length = Taken.only before.length :=
      BitVec.zero_or
    have hroom : ([] : List (Slot κ ν)).length + 1 < spreadAt :=
      show 1 < 16 by decide
    simp only [empty, Node.addSlot, if_pos hroom, hrank, hmark]
    rfl
  refine ⟨_, hadd ▸ hlays.addSlot slot, fun i cell hcell => ?_⟩
  by_cases hi : i = before.length
  · subst hi
    simp at hcell
    exact .inr ⟨rfl, hcell.symm⟩
  · rw [getElem?_other hi, ← hcells] at hcell
    exact .inl (List.eq_of_mem_replicate (List.mem_of_getElem? hcell))

theorem rank_only (hd : d < digitCount) :
    ∀ e, (Taken.only d).rank e = if d < e then 1 else 0 := by
  intro e
  induction e with
  | zero => rfl
  | succ e ih =>
      unfold Taken.rank at ih ⊢
      rw [List.range_succ, List.countP_append, ih, List.countP_singleton,
        Taken.has_only hd]
      by_cases he : e = d
      · subst he
        simp
      · simp only [he, decide_false, Bool.false_eq_true, if_false]
        split <;> split <;> omega

/-- A branch of two slots. -/
theorem lays_two {e : Nat} (hd : d < digitCount) (he : e < digitCount)
    (hne : d ≠ e) (slot other : Slot κ ν) :
    ∃ cells, Lays (two d slot e other) cells
      ∧ ∀ i cell, cells[i]? = some cell →
        cell = none ∨ i = d ∧ cell = some slot
          ∨ i = e ∧ cell = some other := by
  obtain ⟨cells, hlays, hcells⟩ := lays_only hd slot
  have hfree : cells[e]? = some none := by
    have hlen : e < cells.length := by
      rw [hlays.length]
      exact he
    rcases hcells e _ (List.getElem?_eq_getElem hlen) with hnone | ⟨rfl, -⟩
    · rw [List.getElem?_eq_getElem hlen, hnone]
    · exact (hne rfl).elim
  obtain ⟨before, after, rfl, rfl⟩ := split_cells hfree
  have hadd : (packed (Taken.only d) [slot]).addSlot before.length other
      = two d slot before.length other := by
    have hroom : [slot].length + 1 < spreadAt :=
      show 2 < 16 by decide
    simp only [Node.addSlot, rank_only hd, two, if_pos hroom]
    by_cases hbelow : d < before.length
    · simp [hbelow]
    · simp [hbelow]
  refine ⟨_, hadd ▸ hlays.addSlot other, fun i cell hcell => ?_⟩
  by_cases hi : i = before.length
  · subst hi
    simp at hcell
    exact .inr (.inr ⟨rfl, hcell.symm⟩)
  · rw [getElem?_other hi] at hcell
    rcases hcells i cell hcell with hnone | hslot
    · exact .inl hnone
    · exact .inr (.inl hslot)

end Node

end PersistentCollections.HashMap
