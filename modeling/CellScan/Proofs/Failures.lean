/-
`Failures.lean` -- what a scan comes to where sources fail.

A source may fail in any of its calls and in its own words. `Faulty` puts such failures
upon a source that has none of them: which call fails depends on all calls made before it,
and so it stands for every source that fails now and then.

A stack upon failing sources is in step with the same stack upon the sources alone, until
the first failure, and that is passed on by every stage as it is. So a scan comes to what it
comes to without the failures, or it ends with the report of a source
(`Stack.scan_eq_or_reported`): no stage takes a failure for the end of a source.
-/
import CellScan.Proofs.Stages

set_option autoImplicit false

namespace CellScan

open CellScan.Action CellScan.Cursor

/-! ## Sources that fail -/

/-- A source and the failures put upon it. -/
structure Faulty (σ : Type) where
  source : σ
  /-- Whether the last of some calls made from here on fails, with which report, and where
  the failure leaves the source. -/
  failures : List Call → Option (Status × σ)

namespace Faulty

variable {σ : Type} [Cursor σ]

/-- A call, which fails if it is due to. -/
def attempt (call : Call) : Action (Faulty σ) Unit := fun s =>
  let failures := fun later => s.failures (call :: later)
  match s.failures [call] with
  | some (status, left) => ⟨.error (.reported status), ⟨left, failures⟩, []⟩
  | none => (perform call s.source).within fun t => ⟨t, failures⟩

instance : Cursor (Faulty σ) where
  seek range families := attempt (.seek range families)
  top s := Cursor.top s.source
  next := attempt .next
  copy env s := (Cursor.copy env s.source).map fun t => ⟨t, s.failures⟩
  reach s := Cursor.reach s.source

/-- Some call ahead of the source fails with a report. -/
def Reports (s : Faulty σ) (status : Status) : Prop :=
  ∃ calls left, s.failures calls = some (status, left)

/-- A source with failures and the same without, where all failures to come are excused. -/
def Excused (E : Excuses) (s : Faulty σ) (t : σ) : Prop :=
  s.source = t ∧ ∀ status, s.Reports status → E.left (.reported status)

theorem inStep_attempt {E : Excuses} {s : Faulty σ} {t : σ} (h : Excused E s t) (call : Call) :
    InStep E (Excused E) (attempt call) s (perform call) t := by
  obtain ⟨rfl, hreports⟩ := h
  rcases hfails : s.failures [call] with _ | ⟨status, left⟩
  · -- the source itself answers, and its failures are those that were ahead of the call
    have hsame : InStep E (· = ·) (perform call) s.source (perform call) s.source := by
      rcases hres : (perform call s.source).result with fault | _
      · exact InStep.failed hres hres
      · exact InStep.done (runs_of_result hres) (runs_of_result hres) rfl
    refine hsame.within (f := fun t => ⟨t, fun later => s.failures (call :: later)⟩) (g := id)
      ?_ rfl ?_
    · simp only [attempt, hfails]
    · rintro t _ rfl
      refine ⟨rfl, ?_⟩
      rintro status ⟨calls, left, hcalls⟩
      exact hreports status ⟨call :: calls, left, hcalls⟩
  · have hs : (attempt call s).result = .error (.reported status) := by
      simp only [attempt, hfails]
    exact InStep.left hs (hreports status ⟨[call], left, hfails⟩)

theorem lockstep (E : Excuses) : Lockstep E (Excused E : Faulty σ → σ → Prop) where
  top h := congrArg Cursor.top h.1
  apart h := h
  turns h := Or.inl (congrArg Cursor.reach h.1)
  seek h range families := inStep_attempt h (.seek range families)
  next h := inStep_attempt h .next

end Faulty

/-! ## Stacks without their failures -/

section Map

variable {σ τ : Type}

/-- The merge with other children in the places of its own. -/
def Merge.map (f : σ → τ) (m : Merge σ) : Merge τ :=
  ⟨m.children.map f, m.queue, m.dedupe, m.account⟩

/-- The filter with another source. -/
def Filter.map (f : σ → τ) (x : Filter σ) : Filter τ := ⟨f x.source, x.predicates, x.account⟩

/-- The probe with another cursor. -/
def Probe.map (f : σ → τ) (p : Probe σ) : Probe τ := ⟨p.term, f p.cursor, p.placed⟩

/-- The intersection with other cursors in the places of its own. -/
def Intersection.map (f : σ → τ) (x : Intersection σ) : Intersection τ :=
  ⟨x.query, f x.source, x.positives.map (Probe.map f), x.negatives.map (Probe.map f),
    f x.documents, x.range, x.hit, x.shown, x.account⟩

/-- The layer with other cursors below it. -/
def Layer.map (f : σ → τ) : Layer σ → Layer τ
  | .bare s => .bare (f s)
  | .merge m => .merge (m.map f)
  | .filter x => .filter (x.map f)
  | .intersection x => .intersection (x.map f)

/-- The stack with other sources at its foot. -/
def Stack.map (f : σ → τ) : (n : Nat) → Stack σ n → Stack τ n
  | 0 => f
  | n + 1 => Layer.map (Stack.map f n)

/-- The cursors below a layer. -/
def Layer.cursors : Layer σ → List σ
  | .bare s => [s]
  | .merge m => m.children
  | .filter f => [f.source]
  | .intersection x => x.source :: x.documents :: (x.positives ++ x.negatives).map Probe.cursor

/-- The sources at the foot of a stack. -/
def Stack.sources : (n : Nat) → Stack σ n → List σ
  | 0, s => [s]
  | n + 1, layer => (Layer.cursors layer).flatMap (Stack.sources n)

variable [Cursor σ] [Cursor τ] {E : Excuses} {R : σ → τ → Prop} {f : σ → τ}

theorem Layer.twin_map (h : Sought E R) (layer : Layer σ) (hR : ∀ s ∈ layer.cursors, R s (f s)) :
    Layer.Twin E R R layer (layer.map f) := by
  rcases layer with s | m | g | x
  · exact .bare (hR s List.mem_cons_self)
  · refine .merge ⟨?_, rfl, rfl⟩
    rw [Merge.map, List.forall₂_map_right_iff, List.forall₂_same]
    exact hR
  · exact .filter ⟨hR g.source List.mem_cons_self, Or.inl rfl⟩
  · rw [Layer.cursors, List.forall_mem_cons, List.forall_mem_cons, List.forall_mem_map] at hR
    obtain ⟨hsource, hdocuments, hprobes⟩ := hR
    have hall : ∀ ps : List (Probe σ), ps ⊆ x.positives ++ x.negatives →
        List.Forall₂ (Probe.Twin R R) ps (ps.map (Probe.map f)) := by
      intro ps hps
      rw [List.forall₂_map_right_iff, List.forall₂_same]
      exact fun p hp => ⟨⟨rfl, hprobes p (hps hp)⟩, rfl, fun _ => hprobes p (hps hp)⟩
    exact .intersection ⟨rfl, rfl, h.turns hsource,
      hall x.positives (List.subset_append_left _ _),
      hall x.negatives (List.subset_append_right _ _), hdocuments, rfl, rfl⟩

theorem Stack.twin_map (h : Lockstep E R) (n : Nat) (x : Stack σ n)
    (hR : ∀ s ∈ Stack.sources n x, R s (f s)) : Stack.Twin E R n x (Stack.map f n x) := by
  induction n with
  | zero => exact hR x List.mem_cons_self
  | succ n ih =>
      refine Layer.twin_map (Stack.lockstep h n).toMeeting x fun y hy => ih y fun s hs => ?_
      exact hR s (List.mem_flatMap.mpr ⟨y, hy, hs⟩)

end Map

/-! ## Scans -/

/-- A scan of a stack comes to what it comes to when the failures of its sources are taken
away, or it ends with what one of the sources reports. -/
theorem Stack.scan_eq_or_reported {σ : Type} [Cursor σ] (n : Nat) (x : Stack (Faulty σ) n)
    (range : Range) (families : FamilyFilter) :
    (Scan.scan range families x).result
        = (Scan.scan range families (Stack.map Faulty.source n x)).result
      ∨ ∃ s ∈ Stack.sources n x, ∃ status, s.Reports status
        ∧ (Scan.scan range families x).result = .error (.reported status) := by
  -- on the left the reports of the sources are excused, on the right nothing is
  obtain ⟨E, hE⟩ : ∃ E : Excuses, E = ⟨fun fault => ∃ s ∈ Stack.sources n x, ∃ status,
      s.Reports status ∧ fault = .reported status, fun _ => False⟩ := ⟨_, rfl⟩
  have hlockstep : Lockstep E (Stack.Twin E (Faulty.Excused E : Faulty σ → σ → Prop) n) :=
    Stack.lockstep (Faulty.lockstep E) n
  have htwin : Stack.Twin E (Faulty.Excused E) n x (Stack.map Faulty.source n x) := by
    refine Stack.twin_map (Faulty.lockstep E) n x fun s hs => ⟨rfl, fun status hstatus => ?_⟩
    rw [hE]
    exact ⟨s, hs, status, hstatus, rfl⟩
  rcases (hlockstep.scan htwin range families).result with
    hsame | ⟨fault, hleft, hfault⟩ | ⟨fault, hright, -⟩
  · exact Or.inl hsame
  · rw [hE] at hleft
    obtain ⟨s, hs, status, hstatus, rfl⟩ := hleft
    exact Or.inr ⟨s, hs, status, hstatus, hfault⟩
  · rw [hE] at hright
    exact hright.elim

end CellScan
