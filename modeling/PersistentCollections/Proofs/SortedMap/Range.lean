/-
A range is a queue of the entries inside its bounds.

On entries in order a bound admits all entries on one side of it, and a
search for the bound leaves just these on the trail. So either end of a
range starts at the outermost entry that both bounds admit, with more of
the tree on its trail than the range has to hand out. What makes an end
go on is said of the entry it meets alone (`GoesOn`): the entry does not
lie beyond the outermost one of the other side, and the other end has
not got to it. The entries still to come make both ends go on, and the
first ones behind them make them stop (`Side`); taking an entry at one
end only puts it where the other one stops.
-/
import PersistentCollections.Proofs.SortedMap.Ordered
import PersistentCollections.Proofs.SortedMap.Walk
import PersistentCollections.SortedMap.Range

namespace PersistentCollections.SortedMap

variable {κ ν : Type} {cmp : κ → κ → Ordering} [Std.TransCmp cmp]
  {tree : Tree κ ν} {trail : Trail κ ν} {x : κ × ν}
  {before after : List (κ × ν)} {bound lower upper : Bound κ}

-- =============================================================== bounds

namespace Bound

variable {key other : κ}

/-- What does not come before an admitted key is admitted from below. -/
theorem admitsFrom_mono (hle : (cmp key other).isLE)
    (h : bound.admitsFrom cmp key = true) :
    bound.admitsFrom cmp other = true := by
  have hge : (cmp other key).isGE := Std.OrientedCmp.isGE_of_isLE hle
  cases bound with
  | included least =>
      simp only [admitsFrom, bne_iff_ne] at h ⊢
      have hkey := Ordering.isGE_iff_ne_lt.mpr h
      exact Ordering.isGE_iff_ne_lt.mp (Std.TransCmp.isGE_trans hge hkey)
  | excluded below =>
      simp only [admitsFrom, beq_iff_eq] at h ⊢
      exact Std.TransCmp.gt_of_isGE_of_gt hge h
  | unbounded => rfl

/-- What does not come behind an admitted key is admitted from above. -/
theorem admitsUpTo_mono (hle : (cmp other key).isLE)
    (h : bound.admitsUpTo cmp key = true) :
    bound.admitsUpTo cmp other = true := by
  cases bound with
  | included greatest =>
      simp only [admitsUpTo, bne_iff_ne] at h ⊢
      have hkey := Ordering.isLE_iff_ne_gt.mpr h
      exact Ordering.isLE_iff_ne_gt.mp (Std.TransCmp.isLE_trans hle hkey)
  | excluded above =>
      simp only [admitsUpTo, beq_iff_eq] at h ⊢
      exact Std.TransCmp.lt_of_isLE_of_lt hle h
  | unbounded => rfl

end Bound

-- ============================================================== seeking

namespace Trail

theorem key?_of_ahead {entries : List (κ × ν)}
    (h : trail.ahead = entries) :
    trail.key? = entries.head?.map (·.1) := by
  subst h
  cases trail <;> rfl

theorem key?_of_behind {entries : List (κ × ν)}
    (h : trail.behind = entries.reverse) :
    trail.key? = entries.getLast?.map (·.1) := by
  rw [← List.head?_reverse, ← h]
  cases trail <;> rfl

/-- Seeking a bound from below leaves what it admits ahead. -/
theorem ahead_seekFirst (h : Ordered cmp tree.entries)
    (bound : Bound κ) (trail : Trail κ ν) :
    (seekFirst cmp bound tree trail).ahead
      = tree.entries.filter (fun x => bound.admitsFrom cmp x.1)
        ++ trail.ahead := by
  induction tree generalizing trail with
  | leaf => rfl
  | node color a x b iha ihb =>
      rw [Tree.entries_node] at h ⊢
      rw [seekFirst, List.filter_append, List.filter_cons]
      cases hx : bound.admitsFrom cmp x.1 with
      | true =>
          have hb : b.entries.filter (fun y => bound.admitsFrom cmp y.1)
              = b.entries := by
            apply List.filter_eq_self.mpr
            intro y hy
            have hlt := h.lt_after y hy
            exact Bound.admitsFrom_mono (Ordering.isLE_of_eq_lt hlt) hx
          simp [iha h.left, hb]
      | false =>
          have ha : a.entries.filter (fun y => bound.admitsFrom cmp y.1)
              = [] := by
            apply List.filter_eq_nil_iff.mpr
            intro y hy hadmits
            have hlt := h.before_lt y hy
            have := Bound.admitsFrom_mono (Ordering.isLE_of_eq_lt hlt) hadmits
            rw [hx] at this
            cases this
          simp [ihb h.right, ha]

/-- Seeking a bound from above leaves what it admits behind. -/
theorem behind_seekLast (h : Ordered cmp tree.entries)
    (bound : Bound κ) (trail : Trail κ ν) :
    (seekLast cmp bound tree trail).behind
      = (tree.entries.filter fun x => bound.admitsUpTo cmp x.1).reverse
        ++ trail.behind := by
  induction tree generalizing trail with
  | leaf => rfl
  | node color a x b iha ihb =>
      rw [Tree.entries_node] at h ⊢
      rw [seekLast, List.filter_append, List.filter_cons]
      cases hx : bound.admitsUpTo cmp x.1 with
      | true =>
          have ha : a.entries.filter (fun y => bound.admitsUpTo cmp y.1)
              = a.entries := by
            apply List.filter_eq_self.mpr
            intro y hy
            have hlt := h.before_lt y hy
            exact Bound.admitsUpTo_mono (Ordering.isLE_of_eq_lt hlt) hx
          simp [ihb h.right, ha]
      | false =>
          have hb : b.entries.filter (fun y => bound.admitsUpTo cmp y.1)
              = [] := by
            apply List.filter_eq_nil_iff.mpr
            intro y hy hadmits
            have hlt := h.lt_after y hy
            have := Bound.admitsUpTo_mono (Ordering.isLE_of_eq_lt hlt) hadmits
            rw [hx] at this
            cases this
          simp [iha h.left, hb]

end Trail

-- =============================================================== ranges

omit [Std.TransCmp cmp] in
/-- Entries in order are those of a part that has all entries before its
own, and then the others. -/
theorem Ordered.split {entries : List (κ × ν)} {p : κ × ν → Bool}
    (h : Ordered cmp entries)
    (hp : ∀ {x y : κ × ν}, cmp x.1 y.1 = .lt → p y = true → p x = true) :
    entries = entries.filter p ++ entries.filter (fun x => !p x) := by
  induction entries with
  | nil => rfl
  | cons x rest ih =>
      have hwhole : Ordered cmp ([] ++ x :: rest) := h
      rw [List.filter_cons, List.filter_cons]
      cases hx : p x with
      | true => exact congrArg (x :: ·) (ih hwhole.right)
      | false =>
          have hout : ∀ y ∈ rest, p y = false := by
            intro y hy
            apply Bool.eq_false_iff.mpr
            intro hin
            rw [hp (hwhole.lt_after y hy) hin] at hx
            cases hx
          have hnone : rest.filter p = [] := by
            apply List.filter_eq_nil_iff.mpr
            intro y hy
            simp [hout y hy]
          have hall : rest.filter (fun x => !p x) = rest := by
            apply List.filter_eq_self.mpr
            intro y hy
            simp [hout y hy]
          simp [hnone, hall]

/-- The entries that two bounds admit. -/
def within (cmp : κ → κ → Ordering) (lower upper : Bound κ)
    (entries : List (κ × ν)) : List (κ × ν) :=
  entries.filter fun x =>
    lower.admitsFrom cmp x.1 && upper.admitsUpTo cmp x.1

namespace Range

variable {range : Range κ ν} {low high outer : κ} {beyond : Ordering}
  {met : Option κ} {coming spread : List (κ × ν)}

-- ============================================================= one end

/-- Whether an end goes on at a key: the key does not lie beyond the
outermost one of the other side, and comes before the one that the other
end took last. Beyond is `.gt` for the front end and `.lt` for the back
end. -/
def GoesOn (cmp : κ → κ → Ordering) (beyond : Ordering) (outer : κ)
    (met : Option κ) (key : κ) : Prop :=
  cmp key outer ≠ beyond ∧ ∀ last ∈ met, cmp key last = beyond.swap

section

variable {next : Trail κ ν}

omit [Std.TransCmp cmp]

theorem next_of_goesOn (hopen : range.outermost = some (low, high))
    (hfront : range.front.advance? = some (x, next))
    (h : GoesOn cmp .gt high range.backLast x.1) :
    range.next cmp
      = (some x, { range with front := next, frontLast := some x.1 }) := by
  obtain ⟨hhigh, hmet⟩ := h
  unfold Range.next
  simp only [hopen, hfront]
  cases hback : range.backLast with
  | none => simp [hhigh]
  | some last => simp [hhigh, hmet last hback]

theorem next_of_not_goesOn (hopen : range.outermost = some (low, high))
    (hfront : range.front.advance? = some (x, next))
    (h : ¬GoesOn cmp .gt high range.backLast x.1) :
    range.next cmp = (none, { range with front := next, outermost := none }) := by
  unfold Range.next
  simp only [hopen, hfront]
  rw [if_pos]
  by_cases hhigh : cmp x.1 high = .gt
  · simp [hhigh]
  · cases hback : range.backLast with
    | none => exact (h ⟨hhigh, by simp [hback]⟩).elim
    | some last =>
        have hmet : cmp x.1 last ≠ .lt := by
          intro hlt
          exact h ⟨hhigh, by simpa [hback] using hlt⟩
        simp [hmet]

theorem nextBack_of_goesOn (hopen : range.outermost = some (low, high))
    (hback : range.back.retreat? = some (x, next))
    (h : GoesOn cmp .lt low range.frontLast x.1) :
    range.nextBack cmp
      = (some x, { range with back := next, backLast := some x.1 }) := by
  obtain ⟨hlow, hmet⟩ := h
  unfold nextBack
  simp only [hopen, hback]
  cases hfront : range.frontLast with
  | none => simp [hlow]
  | some last => simp [hlow, hmet last hfront]

theorem nextBack_of_not_goesOn (hopen : range.outermost = some (low, high))
    (hback : range.back.retreat? = some (x, next))
    (h : ¬GoesOn cmp .lt low range.frontLast x.1) :
    range.nextBack cmp
      = (none, { range with back := next, outermost := none }) := by
  unfold nextBack
  simp only [hopen, hback]
  rw [if_pos]
  by_cases hlow : cmp x.1 low = .lt
  · simp [hlow]
  · cases hfront : range.frontLast with
    | none => exact (h ⟨hlow, by simp [hfront]⟩).elim
    | some last =>
        have hmet : cmp x.1 last ≠ .gt := by
          intro hgt
          exact h ⟨hlow, by simpa [hfront] using hgt⟩
        simp [hmet]

end

/-- An end with these entries to come on its way, behind which it would
stop. -/
structure Side (cmp : κ → κ → Ordering) (beyond : Ordering) (outer : κ)
    (met : Option κ) (coming spread : List (κ × ν)) : Prop where
  order : coming.Pairwise fun x y => cmp x.1 y.1 = beyond.swap
  goes : ∀ x ∈ coming, GoesOn cmp beyond outer met x.1
  stops : ∃ rest, spread = coming ++ rest
    ∧ ∀ x ∈ rest.head?, ¬GoesOn cmp beyond outer met x.1

namespace Side

omit [Std.TransCmp cmp] in
/-- The end takes the first entry on its way. -/
theorem take (h : Side cmp beyond outer met (x :: coming) spread) :
    ∃ later, spread = x :: later
      ∧ Side cmp beyond outer met coming later := by
  obtain ⟨rest, hspread, hstop⟩ := h.stops
  refine ⟨coming ++ rest, hspread, ?_, ?_, rest, rfl, hstop⟩
  · exact (List.pairwise_cons.mp h.order).2
  · exact fun y hy => h.goes y (List.mem_cons_of_mem _ hy)

/-- The other end takes the last entry on the way, and this end stops
there from now on. -/
theorem meet (hbeyond : beyond ≠ .eq)
    (h : Side cmp beyond outer met (coming ++ [x]) spread) :
    Side cmp beyond outer (some x.1) coming spread := by
  obtain ⟨rest, hspread, -⟩ := h.stops
  obtain ⟨horder, -, hlast⟩ := List.pairwise_append.mp h.order
  refine ⟨horder, ?_, x :: rest, ?_, ?_⟩
  · intro y hy
    refine ⟨(h.goes y (List.mem_append_left _ hy)).1, ?_⟩
    intro last heq
    cases heq
    exact hlast y hy x List.mem_cons_self
  · rw [hspread, List.append_assoc]
    rfl
  · intro y hy hgoes
    cases hy
    have hself : cmp x.1 x.1 = .eq := Std.ReflCmp.compare_self
    rw [hgoes.2 x.1 rfl] at hself
    cases beyond
    case eq => exact hbeyond rfl
    all_goals cases hself

end Side

-- ============================================================ both ends

/-- A range with these entries still to hand out. -/
structure Pends (cmp : κ → κ → Ordering) (range : Range κ ν)
    (inside : List (κ × ν)) : Prop where
  finished : range.outermost = none → inside = []
  sides : ∀ {low high}, range.outermost = some (low, high) →
    Side cmp .gt high range.backLast inside range.front.ahead
      ∧ Side cmp .lt low range.frontLast inside.reverse range.back.behind

omit [Std.TransCmp cmp] in
/-- A range that is used up has nothing to hand out. -/
theorem pends_nil (h : range.outermost = none) : Pends cmp range [] where
  finished := fun _ => rfl
  sides := by
    intro low high hopen
    rw [h] at hopen
    cases hopen

omit [Std.TransCmp cmp] in
theorem step_none (h : range.outermost = none) :
    range.next cmp = (none, range) ∧ range.nextBack cmp = (none, range) := by
  unfold Range.next nextBack
  rw [h]
  exact ⟨rfl, rfl⟩

/-- Each end takes what is still to come, and the other one stops before
it from then on. -/
theorem both_ends :
    Steps.BothEnds (Range.next (ν := ν) cmp) (Range.nextBack cmp)
      (Pends cmp) where
  next := by
    intro range inside h
    cases hopen : range.outermost with
    | none =>
        cases h.finished hopen
        rw [(step_none hopen).1]
        exact ⟨rfl, h⟩
    | some ends =>
        obtain ⟨low, high⟩ := ends
        obtain ⟨hfront, hback⟩ := h.sides hopen
        cases inside with
        | nil =>
            obtain ⟨rest, hspread, hstop⟩ := hfront.stops
            cases rest with
            | nil =>
                have hnone := Trail.advance?_eq_none hspread
                have hdone : range.next cmp = (none, range) := by
                  unfold Range.next
                  rw [hopen, hnone]
                rw [hdone]
                exact ⟨rfl, h⟩
            | cons x rest =>
                obtain ⟨after, hadvance, -⟩ :=
                  Trail.advance?_of_ahead hspread
                rw [next_of_not_goesOn hopen hadvance (hstop x rfl)]
                exact ⟨rfl, pends_nil rfl⟩
        | cons x coming =>
            obtain ⟨later, hspread, hrest⟩ := hfront.take
            obtain ⟨after, hadvance, hahead⟩ :=
              Trail.advance?_of_ahead hspread
            have hgoes := hfront.goes x List.mem_cons_self
            rw [next_of_goesOn hopen hadvance hgoes]
            refine ⟨rfl, fun hnone => ?_, fun hagain => ?_⟩
            · rw [show range.outermost = none from hnone] at hopen
              cases hopen
            · rw [show range.outermost = _ from hagain] at hopen
              cases hopen
              rw [List.reverse_cons] at hback
              exact ⟨hahead ▸ hrest, hback.meet (by decide)⟩
  nextBack := by
    intro range inside h
    cases hopen : range.outermost with
    | none =>
        cases h.finished hopen
        rw [(step_none hopen).2]
        exact ⟨rfl, h⟩
    | some ends =>
        obtain ⟨low, high⟩ := ends
        obtain ⟨hfront, hback⟩ := h.sides hopen
        rcases List.eq_nil_or_concat inside with rfl | ⟨coming, x, hlast⟩
        · obtain ⟨rest, hspread, hstop⟩ := hback.stops
          cases rest with
          | nil =>
              have hnone := Trail.retreat?_eq_none hspread
              have hdone : range.nextBack cmp = (none, range) := by
                unfold nextBack
                rw [hopen, hnone]
              rw [hdone]
              exact ⟨rfl, h⟩
          | cons x rest =>
              obtain ⟨before, hretreat, -⟩ :=
                Trail.retreat?_of_behind hspread
              rw [nextBack_of_not_goesOn hopen hretreat (hstop x rfl)]
              exact ⟨rfl, pends_nil rfl⟩
        · rw [List.concat_eq_append] at hlast
          subst hlast
          rw [List.reverse_concat] at hback
          obtain ⟨later, hspread, hrest⟩ := hback.take
          obtain ⟨before, hretreat, hbehind⟩ :=
            Trail.retreat?_of_behind hspread
          have hgoes := hback.goes x List.mem_cons_self
          rw [nextBack_of_goesOn hopen hretreat hgoes, Steps.popBack,
            List.getLast?_concat, List.dropLast_concat]
          refine ⟨rfl, fun hnone => ?_, fun hagain => ?_⟩
          · rw [show range.outermost = none from hnone] at hopen
            cases hopen
          · rw [show range.outermost = _ from hagain] at hopen
            cases hopen
            exact ⟨hfront.meet (by decide), hbehind ▸ hrest⟩

-- ============================================================= the start

/-- The first entry in order comes behind no other. -/
theorem first_isLE {entries : List (κ × ν)} (h : Ordered cmp entries)
    (hfirst : entries.head? = some x) :
    ∀ y ∈ entries, (cmp x.1 y.1).isLE := by
  obtain ⟨after, rfl⟩ := List.head?_eq_some_iff.mp hfirst
  have hwhole : Ordered cmp ([] ++ x :: after) := h
  intro y hy
  rcases List.mem_cons.mp hy with rfl | hy
  · exact Std.ReflCmp.isLE_rfl
  · exact Ordering.isLE_of_eq_lt (hwhole.lt_after y hy)

/-- No entry in order comes behind the last one. -/
theorem isLE_last {entries : List (κ × ν)} (h : Ordered cmp entries)
    (hlast : entries.getLast? = some x) :
    ∀ y ∈ entries, (cmp y.1 x.1).isLE := by
  obtain ⟨before, rfl⟩ := List.getLast?_eq_some_iff.mp hlast
  intro y hy
  rcases List.mem_append.mp hy with hy | hy
  · exact Ordering.isLE_of_eq_lt (h.before_lt y hy)
  · rw [List.mem_singleton.mp hy]
    exact Std.ReflCmp.isLE_rfl

/-- The outermost keys of a range are those of the first entry inside
the lower bound and of the last one inside the upper bound. -/
theorem start_outermost (h : Ordered cmp tree.entries)
    (lower upper : Bound κ) :
    (start cmp tree lower upper).outermost
      = match (tree.entries.filter fun x => lower.admitsFrom cmp x.1).head?,
          (tree.entries.filter fun x =>
            upper.admitsUpTo cmp x.1).getLast? with
        | some x, some y =>
          if cmp x.1 y.1 != .gt then some (x.1, y.1) else none
        | _, _ => none := by
  have hahead := Trail.ahead_seekFirst h lower []
  have hbehind := Trail.behind_seekLast h upper []
  rw [Trail.ahead_nil, List.append_nil] at hahead
  rw [Trail.behind_nil, List.append_nil] at hbehind
  unfold start
  simp only [Trail.key?_of_ahead hahead, Trail.key?_of_behind hbehind]
  cases (tree.entries.filter fun x => lower.admitsFrom cmp x.1).head? with
  | none => rfl
  | some x =>
      cases (tree.entries.filter fun x =>
          upper.admitsUpTo cmp x.1).getLast? with
      | none => rfl
      | some y => rfl

omit [Std.TransCmp cmp] in
/-- An entry inside two bounds is inside each of them. -/
theorem mem_within {entries : List (κ × ν)}
    (hx : x ∈ within cmp lower upper entries) :
    x ∈ entries.filter (fun x => lower.admitsFrom cmp x.1)
      ∧ x ∈ entries.filter (fun x => upper.admitsUpTo cmp x.1) := by
  simp only [within, List.mem_filter, Bool.and_eq_true] at hx ⊢
  exact ⟨⟨hx.1, hx.2.1⟩, hx.1, hx.2.2⟩

/-- Without outermost keys there is no entry inside the bounds. -/
theorem start_closed (h : Ordered cmp tree.entries)
    (hnone : (start cmp tree lower upper).outermost = none) :
    within cmp lower upper tree.entries = [] := by
  apply List.eq_nil_iff_forall_not_mem.mpr
  intro x hx
  obtain ⟨hxlow, hxhigh⟩ := mem_within hx
  rw [start_outermost h] at hnone
  cases hfirst : (tree.entries.filter fun x =>
      lower.admitsFrom cmp x.1).head? with
  | none =>
      rw [List.head?_eq_none_iff.mp hfirst] at hxlow
      cases hxlow
  | some first =>
      cases hlast : (tree.entries.filter fun x =>
          upper.admitsUpTo cmp x.1).getLast? with
      | none =>
          rw [List.getLast?_eq_none_iff.mp hlast] at hxhigh
          cases hxhigh
      | some last =>
          have hle := Std.TransCmp.isLE_trans
            (first_isLE (h.filter _) hfirst x hxlow)
            (isLE_last (h.filter _) hlast x hxhigh)
          rw [hfirst, hlast] at hnone
          simp [Ordering.isLE_iff_ne_gt.mp hle] at hnone

/-- The outermost keys are those of the first entry inside the lower
bound and of the last one inside the upper bound. -/
theorem start_open (h : Ordered cmp tree.entries)
    (hopen : (start cmp tree lower upper).outermost = some (low, high)) :
    ∃ first last,
      (tree.entries.filter fun x => lower.admitsFrom cmp x.1).head?
          = some first
        ∧ (tree.entries.filter fun x =>
            upper.admitsUpTo cmp x.1).getLast? = some last
        ∧ first.1 = low ∧ last.1 = high := by
  rw [start_outermost h] at hopen
  split at hopen
  case h_2 => cases hopen
  case h_1 first last hfirst hlast =>
      split at hopen
      case isFalse => cases hopen
      case isTrue =>
          cases hopen
          exact ⟨first, last, hfirst, hlast, rfl, rfl⟩

/-- The front end starts at the first entry inside the bounds, and stops
behind the last entry that the upper bound admits. -/
theorem start_front (h : Ordered cmp tree.entries)
    (hlast : (tree.entries.filter fun x =>
      upper.admitsUpTo cmp x.1).getLast? = some x) :
    Side cmp .gt x.1 none (within cmp lower upper tree.entries)
      (start cmp tree lower upper).front.ahead where
  order := h.filter _
  goes := by
    intro y hy
    have hle := isLE_last (h.filter _) hlast y (mem_within hy).2
    exact ⟨Ordering.isLE_iff_ne_gt.mp hle, nofun⟩
  stops := by
    have hahead := Trail.ahead_seekFirst h lower []
    have hmono : ∀ {y z : κ × ν}, cmp y.1 z.1 = .lt →
        upper.admitsUpTo cmp z.1 = true → upper.admitsUpTo cmp y.1 = true :=
      fun hlt => Bound.admitsUpTo_mono (Ordering.isLE_of_eq_lt hlt)
    rw [Trail.ahead_nil, List.append_nil, (h.filter _).split hmono,
      List.filter_filter] at hahead
    simp only [Bool.and_comm (upper.admitsUpTo cmp _)] at hahead
    refine ⟨_, hahead, fun y hy hgoes => ?_⟩
    have hout := (List.mem_filter.mp (List.mem_of_head? hy)).2
    have hin := (List.mem_filter.mp (List.mem_of_getLast? hlast)).2
    have hle := Ordering.isLE_iff_ne_gt.mpr hgoes.1
    simp [Bound.admitsUpTo_mono hle hin] at hout

/-- The back end starts at the last entry inside the bounds, and stops
before the first entry that the lower bound admits. -/
theorem start_back (h : Ordered cmp tree.entries)
    (hfirst : (tree.entries.filter fun x =>
      lower.admitsFrom cmp x.1).head? = some x) :
    Side cmp .lt x.1 none (within cmp lower upper tree.entries).reverse
      (start cmp tree lower upper).back.behind where
  order := by
    apply List.pairwise_reverse.mpr
    exact (h.filter _).imp Std.OrientedCmp.gt_of_lt
  goes := by
    intro y hy
    have hin := (mem_within (List.mem_reverse.mp hy)).1
    have hle := first_isLE (h.filter _) hfirst y hin
    have hge := Std.OrientedCmp.isGE_of_isLE hle
    exact ⟨Ordering.isGE_iff_ne_lt.mp hge, nofun⟩
  stops := by
    have hbehind := Trail.behind_seekLast h upper []
    have hmono : ∀ {y z : κ × ν}, cmp y.1 z.1 = .lt →
        (!lower.admitsFrom cmp z.1) = true →
        (!lower.admitsFrom cmp y.1) = true := by
      intro y z hlt hout
      rw [Bool.not_eq_true'] at hout ⊢
      apply Bool.eq_false_iff.mpr
      intro hin
      have hle := Ordering.isLE_of_eq_lt hlt
      rw [Bound.admitsFrom_mono hle hin] at hout
      cases hout
    rw [Trail.behind_nil, List.append_nil, (h.filter _).split hmono,
      List.reverse_append, List.filter_filter] at hbehind
    simp only [Bool.not_not] at hbehind
    refine ⟨_, hbehind, fun y hy hgoes => ?_⟩
    have hout := (List.mem_filter.mp
      (List.mem_reverse.mp (List.mem_of_head? hy))).2
    have hin := (List.mem_filter.mp (List.mem_of_head? hfirst)).2
    have hge := Ordering.isGE_iff_ne_lt.mpr hgoes.1
    have hle := Std.OrientedCmp.isLE_of_isGE hge
    simp [Bound.admitsFrom_mono hle hin] at hout

/-- A range starts out with the entries that both bounds admit. -/
theorem start_pends (h : Ordered cmp tree.entries)
    (lower upper : Bound κ) :
    Pends cmp (start cmp tree lower upper)
      (within cmp lower upper tree.entries) where
  finished := start_closed h
  sides := by
    intro low high hopen
    obtain ⟨first, last, hfirst, hlast, rfl, rfl⟩ := start_open h hopen
    exact ⟨start_front h hlast, start_back h hfirst⟩

end Range

end PersistentCollections.SortedMap
