/-
A walk over a tree is a queue of its entries.

What an end still has to hand out is spread over its trail: each entry
of the trail and then the subtree beyond it (`ahead`, `behind`). Going
down to the first or the last entry only spreads out the entries of a
tree, so a step takes the first of what is on the trail and leaves the
rest.

The two ends of a walk go over the whole tree and never meet: it is the
count of what remains that stops them. Each end has ahead of it what is
still to come, and behind that what the other end has handed out
(`Walk.Pends`). So a step at one end takes an entry off what is to come,
and leaves it among what the other end would hand out again.
-/
import PersistentCollections.Proofs.BothEnds
import PersistentCollections.Proofs.SortedMap.Shape
import PersistentCollections.SortedMap.Walk

namespace PersistentCollections.SortedMap

open SortedMap.Tree (entries)

variable {κ ν : Type} {tree : Tree κ ν}
  {trail : Trail κ ν} {x : κ × ν} {rest : List (κ × ν)}

-- ================================================================ trails

namespace Trail

/-- What a trail of the front end has still to hand out. -/
def ahead (trail : Trail κ ν) : List (κ × ν) :=
  trail.flatMap fun step => step.1 :: step.2.entries

/-- What a trail of the back end has still to hand out, last entry
first. -/
def behind (trail : Trail κ ν) : List (κ × ν) :=
  trail.flatMap fun step => step.1 :: step.2.entries.reverse

@[simp] theorem ahead_nil : ahead ([] : Trail κ ν) = [] := rfl

@[simp] theorem ahead_cons {after : Tree κ ν} :
    ahead ((x, after) :: trail) = x :: (after.entries ++ trail.ahead) := rfl

@[simp] theorem behind_nil : behind ([] : Trail κ ν) = [] := rfl

@[simp] theorem behind_cons {before : Tree κ ν} :
    behind ((x, before) :: trail)
      = x :: (before.entries.reverse ++ trail.behind) := rfl

theorem ahead_toFirst (tree : Tree κ ν) (trail : Trail κ ν) :
    (toFirst tree trail).ahead = tree.entries ++ trail.ahead := by
  induction tree generalizing trail with
  | leaf => rfl
  | node color before x after ihbefore _ => simp [toFirst, ihbefore]

theorem advance?_eq_none (h : trail.ahead = []) :
    trail.advance? = none := by
  cases trail with
  | nil => rfl
  | cons step trail => cases h

theorem advance?_of_ahead (h : trail.ahead = x :: rest) :
    ∃ next, trail.advance? = some (x, next) ∧ next.ahead = rest := by
  cases trail with
  | nil => cases h
  | cons step trail =>
      obtain ⟨hx, hrest⟩ := List.cons.inj h
      subst hx
      exact ⟨_, rfl, (ahead_toFirst _ _).trans hrest⟩

theorem behind_toLast (tree : Tree κ ν) (trail : Trail κ ν) :
    (toLast tree trail).behind = tree.entries.reverse ++ trail.behind := by
  induction tree generalizing trail with
  | leaf => rfl
  | node color before x after _ ihafter => simp [toLast, ihafter]

theorem retreat?_eq_none (h : trail.behind = []) :
    trail.retreat? = none := by
  cases trail with
  | nil => rfl
  | cons step trail => cases h

theorem retreat?_of_behind (h : trail.behind = x :: rest) :
    ∃ next, trail.retreat? = some (x, next) ∧ next.behind = rest := by
  cases trail with
  | nil => cases h
  | cons step trail =>
      obtain ⟨hx, hrest⟩ := List.cons.inj h
      subst hx
      exact ⟨_, rfl, (behind_toLast _ _).trans hrest⟩

end Trail

-- ============================================================= both ends

namespace Walk

/-- A walk with these entries still to come. -/
structure Pends (walk : Walk κ ν) (entries : List (κ × ν)) : Prop where
  front : ∃ taken, walk.front.ahead = entries ++ taken
  back : ∃ taken, walk.back.behind = entries.reverse ++ taken
  remaining : walk.remaining = entries.length

/-- A walk starts with all entries to come, if the tree is counted. -/
theorem start_pends {count : Nat} (h : count = tree.entries.length) :
    Pends (start tree count) tree.entries where
  front := ⟨[], Trail.ahead_toFirst tree []⟩
  back := ⟨[], Trail.behind_toLast tree []⟩
  remaining := h

/-- Nothing is taken from a walk that is used up. -/
theorem step_done {walk : Walk κ ν} (h : walk.remaining = 0) :
    walk.next = (none, walk) ∧ walk.nextBack = (none, walk) := by
  unfold next nextBack
  rw [h]
  exact ⟨rfl, rfl⟩

/-- Each end takes what is still to come, and the other one leaves it
out. -/
theorem both_ends :
    Steps.BothEnds (Walk.next (κ := κ) (ν := ν)) Walk.nextBack Pends where
  next := by
    intro walk entries h
    cases entries with
    | nil =>
        rw [(step_done h.remaining).1]
        exact ⟨rfl, h⟩
    | cons x rest =>
        obtain ⟨taken, hfront⟩ := h.front
        obtain ⟨given, hback⟩ := h.back
        obtain ⟨after, hadvance, hrest⟩ := Trail.advance?_of_ahead hfront
        have hcount := h.remaining
        rw [List.length_cons] at hcount
        rw [List.reverse_cons, List.append_assoc] at hback
        unfold next
        rw [hcount, hadvance]
        exact ⟨rfl, ⟨taken, hrest⟩, ⟨_, hback⟩, rfl⟩
  nextBack := by
    intro walk entries h
    rcases List.eq_nil_or_concat entries with rfl | ⟨rest, x, hlast⟩
    · rw [(step_done h.remaining).2]
      exact ⟨rfl, h⟩
    · rw [List.concat_eq_append] at hlast
      subst hlast
      obtain ⟨taken, hfront⟩ := h.front
      obtain ⟨given, hback⟩ := h.back
      rw [List.reverse_concat] at hback
      obtain ⟨before, hretreat, hrest⟩ := Trail.retreat?_of_behind hback
      have hcount := h.remaining
      rw [List.length_append] at hcount
      rw [List.append_assoc] at hfront
      unfold nextBack
      rw [hcount, hretreat, Steps.popBack_concat]
      exact ⟨rfl, ⟨_, hfront⟩, ⟨given, hrest⟩, rfl⟩

end Walk

end PersistentCollections.SortedMap
