/-
`Violations.lean` -- a merge is in order, or it says who broke the order.

The children of a merge may be in any order. What they lead to is checked one child at a time:
a child that comes to a key before the one it has left is reported, and nobody checks what the
merge shows. That the keys shown are in order all the same follows from the queue, which holds
each child once and where it stands. The first child that steps back ends the step, empties the
queue and is counted once (`Merge.in_order_or_reported`).
-/
import CellScan.Proofs.Movers

set_option autoImplicit false

namespace CellScan

open CellScan.Action CellScan.Cursor
open scoped Linear

/-! ## Keys along a run -/

/-- After `n` steps. -/
def Cursor.stepped {σ : Type} [Cursor σ] (s : σ) (n : Nat) : σ := after s (List.replicate n .next)

namespace Cursor

variable {σ : Type} [Cursor σ] {s : σ} {r : Key → Key → Prop}

theorem stepped_succ (s : σ) (n : Nat) : stepped s (n + 1) = (Cursor.next (stepped s n)).state := by
  rw [stepped, List.replicate_succ', after_concat]
  rfl

theorem reached_stepped (s : σ) (n : Nat) : Reached s (stepped s n) := Reached.here.after _

/-- Where `next` leads from a key only to one that `r` holds of, and never from nowhere, `r`
holds of any two keys that the cursor comes to one after the other. -/
theorem Rises.along (h : Rises r s) (hr : ∀ {k k' k'' : Key}, r k k' → r k' k'' → r k k'')
    (hmust : ∀ t, Reached s t → (Cursor.next t).result = .ok () → top t ≠ none) {n : Nat}
    (hn : ∀ i < n, (Cursor.next (stepped s i)).result = .ok ()) {i j : Nat} (hij : i < j)
    (hj : j ≤ n) : ∀ k ∈ topKey (stepped s i), ∀ k' ∈ topKey (stepped s j), r k k' := by
  -- one step
  have hone : ∀ i < n, ∀ k ∈ topKey (stepped s i), ∀ k' ∈ topKey (stepped s (i + 1)), r k k' := by
    intro i hi k hk k' hk'
    obtain ⟨e, he, rfl⟩ := Option.map_eq_some_iff.mp hk
    obtain ⟨e', he', rfl⟩ := Option.map_eq_some_iff.mp hk'
    have hruns := runs_of_result (hn i hi)
    rw [← stepped_succ] at hruns
    exact h (reached_stepped s i) hruns he he'
  induction j with
  | zero => exact absurd hij (Nat.not_lt_zero i)
  | succ j ih =>
      intro k hk k' hk'
      rcases Nat.lt_succ_iff_lt_or_eq.mp hij with hlt | rfl
      · -- the cursor stood at a key in between, since it could be stepped from there
        obtain ⟨e, he⟩ := Option.ne_none_iff_exists'.mp
          (hmust _ (reached_stepped s j) (hn j (Nat.lt_of_succ_le hj)))
        have hbetween : e.1 ∈ topKey (stepped s j) := Option.map_eq_some_iff.mpr ⟨e, he, rfl⟩
        exact hr (ih hlt (Nat.le_of_succ_le hj) k hk e.1 hbetween)
          (hone j (Nat.lt_of_succ_le hj) e.1 hbetween k' hk')
      · exact hone i (Nat.lt_of_succ_le hj) k hk k' hk'

end Cursor

namespace Merge

variable {σ : Type} [Cursor σ] {m : Merge σ}

/-! ## What a merge shows, and what it reports -/

/-- A step from nowhere fails. -/
theorem top_of_step {children : List σ} {dedupe : Bool} {account : Option Account}
    (hm : Reached (ofChildren children dedupe account) m) (hok : (Cursor.next m).result = .ok ()) :
    Cursor.top m ≠ none := by
  intro hnone
  rw [(faithful_of_reached hm).top_eq_none_iff] at hnone
  rw [show Cursor.next m = Action.fail .nothingToLeave m from step_of_nil hnone] at hok
  exact absurd hok (by simp)

/-- Whatever its children do, and whatever calls have brought a merge where it is, the keys
that it shows from there on do not descend as long as steps succeed, and with `dedupe` they
ascend. No child waits twice, and each waits at the key where it stands. A step succeeds if
all children that it moves move on. As soon as one of them comes to a key before the one it has
left, the step fails with an ordering violation and the merge stands nowhere; and if it has an
account, and its children count no violations where they succeed, the violations of the account
have gone up by one. -/
theorem in_order_or_reported {children : List σ} {dedupe : Bool} {account : Option Account}
    (hm : Reached (ofChildren children dedupe account) m) :
    (∀ n, (∀ i < n, (Cursor.next (stepped m i)).result = .ok ()) →
      ∀ i j, i < j → j ≤ n → ∀ k ∈ topKey (stepped m i), ∀ k' ∈ topKey (stepped m j),
        Key.Follows dedupe k k')
    ∧ (m.queue.map Head.child).Nodup
    ∧ (∀ head ∈ m.queue, m.childKey head.child = some head.key)
    ∧ (∀ key, topKey m = some key → (∀ b ∈ m.movers, MovesOn m b key) →
      (Cursor.next m).result = .ok ())
    ∧ ∀ key before c behind k, topKey m = some key → m.movers = before ++ c :: behind →
      (∀ b ∈ before, MovesOn m b key) → Lands m c key (some k) → k < key →
      (Cursor.next m).result = .error (.steppedBack c key k)
        ∧ (Fault.steppedBack c key k).code = .failure .orderingViolation
        ∧ Cursor.top (Cursor.next m).state = none
        ∧ ∀ a, m.account = some a → (∀ s ∈ children, Silent (· = .count a .violation) s) →
          ∀ l : Ledger, ((l.enterAll (Cursor.next m).events).statistics a).violations
            = (l.statistics a).violations + 1 := by
  have hfaithful := faithful_of_reached hm
  refine ⟨?_, hfaithful.nodup, hfaithful.stands, ?_, ?_⟩
  · intro n hn i j hij hj
    exact ((rises children dedupe account).of_reached hm).along Key.Follows.trans
      (fun t ht hok => top_of_step (hm.trans ht) hok) hn hij hj
  · intro key htop hon
    obtain ⟨m', hstep⟩ := step_runs_of_movers hfaithful htop hon
    exact hstep.result
  · intro key before c behind k htop hmovers hon hlands hlt
    obtain ⟨head, queue, hq, rfl⟩ := hfaithful.exists_head htop
    obtain ⟨m', events, hstep, hnil, hevents⟩ := step_back hfaithful hq hmovers hon hlands hlt
    have hnext : Cursor.next m
        = ⟨.error (.steppedBack c head.key k), m', events ++ m.violation⟩ := hstep
    have hempty : Faithful [] m' := faithful_of_nil hnil
    rw [hnext]
    refine ⟨rfl, rfl, hempty.top_eq_none_iff.mpr hnil, ?_⟩
    intro a haccount hchildren l
    have hsilent := hevents _ (Upon.silent hchildren (upon_of_reached hm).1)
    -- the children have counted none, and the merge counts one
    have hnone : (Event.talliesOf a events).countP (· = .violation) = 0 := by
      rw [List.countP_eq_zero]
      intro t ht hviolation
      rw [of_decide_eq_true hviolation, Event.mem_talliesOf] at ht
      exact hsilent _ ht rfl
    have hone : Event.talliesOf a m.violation = [.violation] := by
      rw [violation, haccount]
      exact (Event.talliesOf_cons_count a a .violation []).trans (if_pos rfl)
    rw [Ledger.statistics_enterAll, Event.talliesOf_append, hone, Statistics.violations_tallyAll,
      List.countP_append, hnone]
    rfl

/-- Two tapes that begin at one row, of which the first then steps back, once it has passed a
repeat of that row. -/
def unsteady : Merge Tape :=
  ofChildren
    [Tape.ofEntries [(Key.ofRow [2], []), (Key.ofRow [2], []), (Key.ofRow [1], [])] none true,
      Tape.ofEntries [(Key.ofRow [2], []), (Key.ofRow [3], [])] none true] true (some 0)

/-- From the first row the second tape moves on, and the first one is reported. -/
theorem in_order_or_reported_unsteady :
    (Cursor.next (make unsteady (.seek Range.all FamilyFilter.all))).result
        = .error (.steppedBack 0 (Key.ofRow [2]) (Key.ofRow [1]))
      ∧ ((Ledger.empty.enterAll
          (Cursor.next (make unsteady (.seek Range.all FamilyFilter.all))).events).statistics
            0).violations = 1 := by
  obtain ⟨m, hm⟩ : ∃ m, m = make unsteady (.seek Range.all FamilyFilter.all) := ⟨_, rfl⟩
  have hreached : Reached unsteady m :=
    hm ▸ Reached.here.seek Range.all FamilyFilter.all
  obtain ⟨-, -, -, -, hback⟩ := in_order_or_reported hreached
  have hon : MovesOn m 1 (Key.ofRow [2]) := by
    subst hm
    refine ⟨some (Key.ofRow [3]), ⟨_, _, rfl, ⟨[], rfl⟩, rfl⟩, ?_⟩
    rintro _ ⟨⟩
    decide +kernel
  have hlands : Lands m 0 (Key.ofRow [2]) (some (Key.ofRow [1])) := by
    subst hm
    exact ⟨_, _, rfl, ⟨[], rfl⟩, rfl⟩
  have hstands : topKey m = some (Key.ofRow [2]) ∧ m.movers = [1, 0] ∧ m.account = some 0 := by
    subst hm
    exact ⟨rfl, rfl, rfl⟩
  obtain ⟨hresult, -, -, hcount⟩ := hback (Key.ofRow [2]) [1] 0 [] (Key.ofRow [1]) hstands.1
    hstands.2.1 (List.forall_mem_singleton.mpr hon) hlands (by decide +kernel)
  rw [← hm]
  exact ⟨hresult, hcount 0 hstands.2.2 (fun s _ => s.silent) Ledger.empty⟩

end Merge

end CellScan
