/-
`Standstill.lean` -- where a merge stands after a failure.

A seek that fails leaves a merge nowhere, and so does a child that steps back. Not so where
a child fails in its own words while it is moved on: that child stays off the queue, but the
others wait there still, and the merge goes on to stand where the first of them stands. Who
that can be is known before the step (`stands_after_failure_iff`): a child that the step has
not come to, or one that it has moved before and that has not come to its end.

To stand at an entry is to have someone waiting, and where nobody waits every `next` fails
until a seek succeeds.
-/
import CellScan.Proofs.Movers

set_option autoImplicit false

namespace CellScan

open CellScan.Action CellScan.Cursor

/-- Along the calls no seek succeeds. -/
def Cursor.Unsought {σ : Type} [Cursor σ] : σ → List Call → Prop
  | _, [] => True
  | s, call :: calls =>
      (∀ range families, call = .seek range families → (perform call s).result ≠ .ok ())
        ∧ Unsought (make s call) calls

namespace Merge

variable {σ : Type} [Cursor σ] {m : Merge σ} {c : Nat} {fault : Fault} {head : Head}
  {queue : List Head}

/-- A child that fails ends the step, and those that remain wait on. -/
theorem step_of_fails {before behind : List Nat} (h : Faithful [] m) (hq : m.queue = head :: queue)
    (hmovers : m.movers = before ++ c :: behind) (hon : ∀ b ∈ before, MovesOn m b head.key)
    (hfails : FailsAt m head.key c fault) :
    (step m).result = .error fault
      ∧ ∀ x, x ∈ (step m).state.queue ↔ Remains m head.key before c x := by
  obtain ⟨m', events, hmoved, hqueue, hends⟩ := step_of_movers h hq hmovers hon
  obtain ⟨s, hs, -, hfails⟩ := hfails
  have hs' : m'.children[c]? = some s :=
    (hmoved.children c (h.not_mem_before hmovers)).trans hs
  rcases hleave : leave m.dedupe head.key s with ⟨_ | _, t, es⟩
  · obtain rfl := Except.error.inj ((congrArg Outcome.result hleave).symm.trans hfails)
    rw [hends _ _ es (advance_of_stuck hs' (hmoved.dedupe.symm ▸ hleave))]
    exact ⟨rfl, hqueue⟩
  · rw [hleave] at hfails
    exact Except.noConfusion rfl rfl (heq_of_eq hfails)

/-- A step that fails leaves someone waiting only where a child has failed. -/
theorem fails_of_step (h : Faithful [] m) (hq : m.queue = head :: queue)
    (hfail : (step m).result = .error fault) (hne : (step m).state.queue ≠ []) :
    ∃ before failed behind, m.movers = before ++ failed :: behind
      ∧ (∀ b ∈ before, MovesOn m b head.key) ∧ FailsAt m head.key failed fault
      ∧ ∃ x, Remains m head.key before failed x := by
  rcases movers_cases h hq with hon | ⟨before, failed, behind, hmovers, hon, hcause⟩
  · have htop : topKey m = some head.key := by rw [h.topKey_eq, hq]; rfl
    obtain ⟨m', hstep⟩ := step_runs_of_movers h htop hon
    exact absurd (hstep.result.symm.trans hfail) (by simp)
  · rcases hcause with ⟨fault', hfails⟩ | ⟨k, hlands, hlt⟩
    · obtain ⟨hresult, hqueue⟩ := step_of_fails h hq hmovers hon hfails
      obtain rfl : fault' = fault := Except.error.inj (hresult.symm.trans hfail)
      obtain ⟨x, hx⟩ := List.exists_mem_of_ne_nil _ hne
      exact ⟨before, failed, behind, hmovers, hon, hfails, x, (hqueue x).mp hx⟩
    · obtain ⟨m', events, hstep, hnil, -⟩ := step_back h hq hmovers hon hlands hlt
      rw [hstep] at hne
      exact absurd hnil hne

/-- Where nobody waits every step fails until a seek succeeds. -/
theorem idle_after (hq : m.queue = []) {calls : List Call} (h : Unsought m calls) :
    (after m calls).queue = [] := by
  induction calls generalizing m with
  | nil => exact hq
  | cons call calls ih =>
      refine ih (m := make m call) ?_ h.2
      rcases call with ⟨range, families⟩ | _
      · rcases place_cases range families m with ⟨hok, -⟩ | hnil
        · exact absurd hok (h.1 range families rfl)
        · exact hnil
      · show (step m).state.queue = []
        rw [step_of_nil hq]
        exact hq

/-- After a failure a merge stands at an entry exactly if that was the failure of a child on its
way off the key the merge stood at, and another child remains: one that the step had not come
to, or one that it had moved before and that had come to a key. Where the merge stands at none,
it stays there, and every step fails for want of an entry to leave, until a seek succeeds. -/
theorem stands_after_failure_iff {children : List σ} {dedupe : Bool} {account : Option Account}
    (hm : Reached (ofChildren children dedupe account) m) {call : Call}
    (hfail : (perform call m).result = .error fault) :
    (Cursor.top (make m call) ≠ none
      ↔ call = .next ∧ ∃ key before failed behind, topKey m = some key
        ∧ m.movers = before ++ failed :: behind ∧ (∀ b ∈ before, MovesOn m b key)
        ∧ FailsAt m key failed fault ∧ ∃ x, Remains m key before failed x)
    ∧ (Cursor.top (make m call) = none → ∀ calls, Unsought (make m call) calls →
        Cursor.top (after (make m call) calls) = none
          ∧ (Cursor.next (after (make m call) calls)).result = .error .nothingToLeave) := by
  have hfaithful := faithful_of_reached hm
  have hmade := faithful_make hfaithful call
  rw [Ne, hmade.top_eq_none_iff]
  refine ⟨⟨?_, ?_⟩, ?_⟩
  · intro hne
    rcases call with ⟨range, families⟩ | _
    · rcases place_cases range families m with ⟨hok, -⟩ | hnil
      · exact absurd (hok.symm.trans hfail) (by simp)
      · exact absurd hnil hne
    · rcases hq : m.queue with _ | ⟨head, queue⟩
      · have hstep : make m .next = m := congrArg Outcome.state (step_of_nil hq)
        rw [hstep] at hne
        exact absurd hq hne
      · have htop : topKey m = some head.key := by rw [hfaithful.topKey_eq, hq]; rfl
        obtain ⟨before, failed, behind, hcause⟩ := fails_of_step hfaithful hq hfail hne
        exact ⟨rfl, head.key, before, failed, behind, htop, hcause⟩
  · rintro ⟨rfl, key, before, failed, behind, htop, hmovers, hon, hfails, x, hx⟩
    obtain ⟨head, queue, hq, rfl⟩ := hfaithful.exists_head htop
    obtain ⟨-, hqueue⟩ := step_of_fails hfaithful hq hmovers hon hfails
    exact List.ne_nil_of_mem ((hqueue x).mpr hx)
  · intro hnil calls hcalls
    have hidle := idle_after hnil hcalls
    have hnobody : Faithful [] (after (make m call) calls) := faithful_of_nil hidle
    refine ⟨hnobody.top_eq_none_iff.mpr hidle, ?_⟩
    exact congrArg Outcome.result (step_of_nil hidle)

/-! ### A merge of which one child fails -/

/-- A cell between the two of the tape below. -/
def between : Entry := (Key.ofRow [2], [])

/-- A merge of a tape that cannot be read beyond its first entry and a table. -/
def torn : Merge Source :=
  ofChildren
    [.tape (Tape.ofEntries [(Key.ofRow [1], []), (Key.ofRow [3], [])] (some 1) true),
      .table (Table.ofEntries [between])] false none

/-- The step that fails leaves the merge at the cell of the table, and the step after it
succeeds. -/
theorem stands_after_unreadable :
    (perform .next (after torn [.seek Range.all FamilyFilter.all])).result
        = .error (Tape.unreadableAt 1)
      ∧ Cursor.top (after torn [.seek Range.all FamilyFilter.all, .next]) = some between
      ∧ (perform .next (after torn [.seek Range.all FamilyFilter.all, .next])).result = .ok () := by
  refine ⟨rfl, ?_, rfl⟩
  decide +kernel

theorem stands_after_failure_torn :
    Cursor.top (make (after torn [.seek Range.all FamilyFilter.all]) .next) ≠ none := by
  have hfail : (perform .next (after torn [.seek Range.all FamilyFilter.all])).result
      = .error (Tape.unreadableAt 1) := rfl
  have hreached := (Reached.here (s := torn)).after [.seek Range.all FamilyFilter.all]
  refine (stands_after_failure_iff hreached hfail).1.mpr
    ⟨rfl, Key.ofRow [1], [], 0, [], rfl, rfl, List.forall_mem_nil _, ⟨_, rfl, rfl, rfl⟩,
      ⟨Key.ofRow [2], 1⟩, Or.inl ⟨?_, Nat.one_ne_zero, List.not_mem_nil⟩⟩
  decide +kernel

end Merge

end CellScan
