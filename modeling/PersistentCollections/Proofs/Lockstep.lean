/-
Runs in lockstep: what every step keeps, a run keeps.

A collection is compared with a picture of it, a list or a ledger, that
takes the same steps. A step of a run that has to go through answers the
state after it (`foldlM_lockstep`). A call may be refused as well: then
the state stays as it was, and the answers to a run of calls are noted
one by one (`transcript_lockstep`); if the steps agree unless one stops,
so do runs (`transcript_lockstep_unless`). Where it is known that a run goes
through, what is said of its result holds if every step passes it on
(`Gives`); and a run of steps that each go through and pass it on goes
through, too (`Succeeds`).
-/
import PersistentCollections.Edit

namespace PersistentCollections

variable {σ τ γ δ β β' : Type}

-- ================================================================ steps

/-- Steps that go through and keep a relation make a run that goes
through and keeps it. -/
theorem foldlM_lockstep {step : σ → γ → Except Failure σ}
    {draw : τ → γ → τ} {R : σ → τ → Prop}
    (h : ∀ {state picture}, R state picture → ∀ x,
      ∃ after, step state x = .ok after ∧ R after (draw picture x)) :
    ∀ (xs : List γ) {state : σ} {picture : τ}, R state picture →
      ∃ after, xs.foldlM step state = .ok after
        ∧ R after (xs.foldl draw picture) := by
  intro xs
  induction xs with
  | nil => exact fun hstart => ⟨_, rfl, hstart⟩
  | cons x xs ih =>
      intro state picture hstart
      obtain ⟨next, hnext, hrelated⟩ := h hstart x
      obtain ⟨after, hrest, hafter⟩ := ih hrelated
      refine ⟨after, ?_, hafter⟩
      rw [List.foldlM_cons, hnext]
      exact hrest

-- ============================================================== results

/-- A result, if there is one, is as said. -/
def Gives (answer : Except Failure β) (P : β → Prop) : Prop :=
  ∀ result, answer = .ok result → P result

namespace Gives

variable {answer : Except Failure β} {P : β → Prop} {Q : γ → Prop}

theorem ok {result : β} (h : P result) : Gives (.ok result) P := by
  intro other hother
  cases hother
  exact h

theorem of_exists (h : ∃ result, answer = .ok result ∧ P result) :
    Gives answer P := by
  obtain ⟨result, rfl, hresult⟩ := h
  exact ok hresult

/-- What is said of the first result carries over to the second. -/
theorem bind {next : β → Except Failure γ} (h : Gives answer P)
    (hnext : ∀ result, P result → Gives (next result) Q) :
    Gives (answer >>= next) Q := by
  intro last hlast
  cases hanswer : answer with
  | error cause =>
      rw [hanswer] at hlast
      cases hlast
  | ok result =>
      rw [hanswer] at hlast
      exact hnext result (h result hanswer) last hlast

/-- What is said of a result whatever came before it. -/
theorem after {next : β → Except Failure γ}
    (h : ∀ result, Gives (next result) Q) : Gives (answer >>= next) Q :=
  Gives.bind (P := fun _ => True) (fun _ _ => trivial) fun result _ =>
    h result

/-- What is said of a part of the result. -/
theorem map {read : β → γ} (h : Gives answer fun result => Q (read result)) :
    Gives (read <$> answer) Q := by
  intro last hlast
  cases hanswer : answer with
  | error cause =>
      rw [hanswer] at hlast
      cases hlast
  | ok result =>
      rw [hanswer] at hlast
      cases hlast
      exact h result hanswer

/-- A refusal gives nothing. -/
theorem refused {cause : Failure} : Gives (.error cause) P := by
  intro result hresult
  cases hresult

/-- What is said of any result and of the state before is said of the
state that is left. -/
theorem getD {before : β} (h : Gives answer P) (hbefore : P before) :
    P (answer.toOption.getD before) := by
  cases answer with
  | error cause => exact hbefore
  | ok result => exact h result rfl

/-- Steps that keep something make a run that keeps it. -/
theorem foldlM {step : σ → γ → Except Failure σ} {P : σ → Prop} :
    ∀ {xs : List γ},
      (∀ x ∈ xs, ∀ {state}, P state → Gives (step state x) P) →
      ∀ {state : σ}, P state → Gives (xs.foldlM step state) P := by
  intro xs
  induction xs with
  | nil => exact fun _ _ hstart => ok hstart
  | cons x xs ih =>
      intro h state hstart
      rw [List.foldlM_cons]
      refine (h x List.mem_cons_self hstart).bind fun _ hnext => ?_
      exact ih (fun y hy => h y (List.mem_cons_of_mem _ hy)) hnext

end Gives

/-- There is a result, and it is as said. -/
def Succeeds (answer : Except Failure β) (P : β → Prop) : Prop :=
  ∃ result, answer = .ok result ∧ P result

namespace Succeeds

variable {answer : Except Failure β} {P : β → Prop} {Q : γ → Prop}

theorem ok {result : β} (h : P result) : Succeeds (.ok result) P :=
  ⟨result, rfl, h⟩

theorem goes_through (h : Succeeds answer P) :
    ∃ result, answer = .ok result := by
  obtain ⟨result, hresult, -⟩ := h
  exact ⟨result, hresult⟩

/-- A second step goes through if it does for what is said of the first
result. -/
theorem bind {next : β → Except Failure γ} (h : Succeeds answer P)
    (hnext : ∀ result, P result → Succeeds (next result) Q) :
    Succeeds (answer >>= next) Q := by
  obtain ⟨result, rfl, hresult⟩ := h
  exact hnext result hresult

/-- What is said of a part of the result. -/
theorem map {read : β → γ}
    (h : Succeeds answer fun result => Q (read result)) :
    Succeeds (read <$> answer) Q := by
  obtain ⟨result, rfl, hresult⟩ := h
  exact ⟨read result, rfl, hresult⟩

/-- Steps that go through and keep something make a run that does. -/
theorem foldlM {step : σ → γ → Except Failure σ} {P : σ → Prop}
    (h : ∀ x {state}, P state → Succeeds (step state x) P)
    (xs : List γ) {state : σ} (hstate : P state) :
    Succeeds (xs.foldlM step state) P := by
  induction xs generalizing state with
  | nil => exact ok hstate
  | cons x xs ih =>
      rw [List.foldlM_cons]
      exact (h x hstate).bind fun _ hnext => ih hnext

end Succeeds

-- ================================================================ calls

/-- What a call answers, and the state after it; a call that is refused
leaves the state as it was. -/
def settle (state : σ) : Except Failure (β × σ) → Except Failure β × σ
  | .ok (answer, after) => (.ok answer, after)
  | .error cause => (.error cause, state)

/-- The answers to a run of calls, and the state after them. -/
def transcript (respond : σ → γ → β × σ) : σ → List γ → List β × σ
  | state, [] => ([], state)
  | state, call :: calls =>
    let (answer, after) := respond state call
    let (answers, last) := transcript respond after calls
    (answer :: answers, last)

/-- What every call keeps is kept by a run of calls. -/
theorem transcript_invariant {respond : σ → γ → β × σ} {Q : σ → Prop}
    (hkeep : ∀ {state} call, Q state → Q (respond state call).2) :
    ∀ (calls : List γ) {state : σ}, Q state →
      Q (transcript respond state calls).2 := by
  intro calls
  induction calls with
  | nil => exact id
  | cons call calls ih => exact fun hstart => ih (hkeep call hstart)

/-- Calls that are answered alike and keep a relation, unless one of them
stops, make a run of calls that is answered alike and keeps it, unless
one of them has stopped; and what is true of the picture when a call
stops is true of it in the end. -/
theorem transcript_lockstep_unless {respond : σ → γ → β × σ}
    {reply : τ → δ → β' × τ} {answer : β' → β} {spoken : γ → δ}
    {R : σ → τ → Prop} {S : β → Prop} {Q : τ → Prop}
    (h : ∀ {state picture}, R state picture → ∀ call,
      ((respond state call).1 = answer (reply picture (spoken call)).1
        ∧ R (respond state call).2 (reply picture (spoken call)).2)
      ∨ (S (respond state call).1 ∧ Q (reply picture (spoken call)).2))
    (hkeep : ∀ {picture} call, Q picture → Q (reply picture call).2) :
    ∀ (calls : List γ) {state : σ} {picture : τ}, R state picture →
      ((transcript respond state calls).1
          = (transcript reply picture (calls.map spoken)).1.map answer
        ∧ R (transcript respond state calls).2
            (transcript reply picture (calls.map spoken)).2)
      ∨ ((∃ said ∈ (transcript respond state calls).1, S said)
        ∧ Q (transcript reply picture (calls.map spoken)).2) := by
  intro calls
  induction calls with
  | nil => exact fun hstart => .inl ⟨rfl, hstart⟩
  | cons call calls ih =>
      intro state picture hstart
      rcases h hstart call with ⟨hanswer, hrelated⟩ | ⟨hstops, hthen⟩
      · rcases ih hrelated with ⟨hanswers, hlast⟩ | ⟨hlater, hlast⟩
        · refine .inl ⟨?_, hlast⟩
          show (respond state call).1
              :: (transcript respond (respond state call).2 calls).1 = _
          rw [hanswer, hanswers]
          rfl
        · obtain ⟨said, hsaid, hstops⟩ := hlater
          exact .inr ⟨⟨said, List.mem_cons_of_mem _ hsaid, hstops⟩, hlast⟩
      · exact .inr ⟨⟨_, List.mem_cons_self, hstops⟩,
          transcript_invariant hkeep (calls.map spoken) hthen⟩

/-- Calls that are answered alike and keep a relation make a run of
calls that is answered alike and keeps it. -/
theorem transcript_lockstep {respond : σ → γ → β × σ}
    {reply : τ → δ → β' × τ} {answer : β' → β} {spoken : γ → δ}
    {R : σ → τ → Prop}
    (h : ∀ {state picture}, R state picture → ∀ call,
      (respond state call).1 = answer (reply picture (spoken call)).1
        ∧ R (respond state call).2 (reply picture (spoken call)).2)
    (calls : List γ) {state : σ} {picture : τ} (hstart : R state picture) :
    (transcript respond state calls).1
        = (transcript reply picture (calls.map spoken)).1.map answer
      ∧ R (transcript respond state calls).2
          (transcript reply picture (calls.map spoken)).2 := by
  have hrun := transcript_lockstep_unless (R := R) (S := fun _ => False)
    (Q := fun _ => False) (fun hrelated call => .inl (h hrelated call))
    (fun _ => id) calls hstart
  exact hrun.resolve_right fun hstopped => hstopped.2

/-- Every answer of a run is that to one call. -/
theorem mem_transcript {respond : σ → γ → β × σ} {answer : β} :
    ∀ {calls : List γ} {state : σ},
      answer ∈ (transcript respond state calls).1 →
      ∃ state call, answer = (respond state call).1 := by
  intro calls
  induction calls with
  | nil => exact fun hnone => nomatch hnone
  | cons call calls ih =>
      intro state hanswer
      rcases List.mem_cons.mp hanswer with rfl | hlater
      · exact ⟨state, call, rfl⟩
      · exact ih hlater

/-- Where every call leaves the state as it is, each is answered by
itself. -/
theorem transcript_still {respond : σ → γ → β × σ} {state : σ}
    {answer : γ → β} (h : ∀ call, respond state call = (answer call, state))
    (calls : List γ) :
    transcript respond state calls = (calls.map answer, state) := by
  induction calls with
  | nil => rfl
  | cons call calls ih =>
      unfold transcript
      rw [h]
      simp only [ih, List.map_cons]

end PersistentCollections
