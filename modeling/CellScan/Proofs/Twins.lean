/-
`Twins.lean` -- two intersections over sources that serve the same entries.

An intersection knows its source by seeks and tops alone. So where the cursors of two
intersections serve the same entries the two go through the same search, although below
them everything may differ, down to the number of turns that a search is given: that is
counted from `reach`.

Cursors that serve the same entries are in step when they are sought (`sought_same`), and
so are the intersections upon them, as far as both succeed. That both do is known from the
search for a hit, and then they visit the same hits (`visits_eq`).
-/
import CellScan.Proofs.Stages

set_option autoImplicit false

namespace CellScan

open CellScan.Action CellScan.Cursor CellScan.Entry
open List (Forall₂)

/-- Runs are compared only where both succeed. -/
def Excuses.all : Excuses := ⟨fun _ => True, fun _ => True⟩

/-- Two cursors that serve the same entries and stand at the same one. -/
structure Cursor.Same {σ τ : Type} [Cursor σ] [Cursor τ] (heeds : Bool) (es : List Entry) (s : σ)
    (t : τ) : Prop where
  left : Serves s heeds es
  right : Serves t heeds es
  top : Cursor.top s = Cursor.top t

theorem Cursor.sought_same {σ τ : Type} [Cursor σ] [Cursor τ] (heeds : Bool) (es : List Entry) :
    Sought Excuses.all (Same heeds es : σ → τ → Prop) where
  top h := h.top
  apart h := h
  turns _ := Or.inr ⟨trivial, trivial⟩
  seek := by
    intro s t h range families
    obtain ⟨u, hu, hl⟩ := h.left.lists.seek Reached.here range families
    obtain ⟨v, hv, hl'⟩ := h.right.lists.seek Reached.here range families
    refine InStep.done hu hv ⟨⟨h.left.lists.of_seek hu, h.left.ascending⟩,
      ⟨h.right.lists.of_seek hv, h.right.ascending⟩, hl.head?.trans hl'.head?.symm⟩

namespace Intersection

open CellScan.Probe

variable {σ τ : Type} [Cursor σ] [Cursor τ] {heeds : Bool} {es : List Entry}
  {x : Intersection σ} {y : Intersection τ}

/-! ## What twins visit -/

/-- Twins visit the same hits and show the same. -/
theorem visits_eq (h : Twin Excuses.all (Same heeds es) (Same heeds es) x y) {vs ws : List (Document × Entry)}
    (hx : Visits x vs) (hy : Visits y ws) : vs = ws := by
  induction hx generalizing y ws with
  | done hhit _ =>
      rcases hy with _ | ⟨hhit', -, -, -, -⟩
      · rfl
      · rw [← h.hit, hhit] at hhit'
        exact absurd hhit' (by simp)
  | @more x x' d e vs hhit htop hnext _ _ ih =>
      rcases hy with ⟨hhit', -⟩ | @⟨_, y', d', e', ws, hhit', htop', hnext', -, hrest⟩
      · rw [← h.hit, hhit] at hhit'
        exact absurd hhit' (by simp)
      · -- they stand at one hit, and step on from it as twins
        have hstep := (joining (sought_same heeds es)).next h
        have hshown : Cursor.top x = Cursor.top y := h.shown
        rw [← h.hit, hhit, Option.some.injEq] at hhit'
        rw [← hshown, htop, Option.some.injEq] at htop'
        have hvisits : vs = ws := ih (hstep.of_runs hnext hnext').2 hrest
        rw [hhit', htop', hvisits]

/-- A seek leads twins through the same hits. -/
theorem seek_twin (h : Twin Excuses.all (Same heeds es) (Same heeds es) x y) (hx : Ready heeds es x)
    (hy : Ready heeds es y) (range : Range) (families : FamilyFilter) :
    ∃ x' y' vs, Runs (Cursor.seek range families) x () x' ∧ Visits x' vs
      ∧ Runs (Cursor.seek range families) y () y' ∧ Visits y' vs := by
  by_cases hempty : range.isEmpty = true
  · obtain ⟨hseek, hvisits⟩ := seek_of_isEmpty hempty families x
    obtain ⟨hseek', hvisits'⟩ := seek_of_isEmpty hempty families y
    exact ⟨_, _, [], hseek, hvisits, hseek', hvisits'⟩
  · rw [Bool.not_eq_true] at hempty
    obtain ⟨x', vs, hseek, hvisits, -, -⟩ := visits_of_seek hx hempty families
    obtain ⟨y', ws, hseek', hvisits', -, -⟩ := visits_of_seek hy hempty families
    have hplaced := (joining (sought_same heeds es)).seek h.apart range families
    obtain rfl := visits_eq (hplaced.of_runs hseek hseek').2 hvisits hvisits'
    exact ⟨x', y', vs, hseek, hvisits, hseek', hvisits'⟩

/-! ## Building -/

theorem twin_opened {copied : σ} {copied' : τ} (h : Same heeds es copied copied') (source : σ)
    (source' : τ) (q : Query) (env : Environment) :
    Twin Excuses.all (Same heeds es) (Same heeds es) (opened source copied q env)
      (opened source' copied' q env) := by
  have hprobes : ∀ terms : List Bytes, Forall₂ (Probe.Twin (Same heeds es) (Same heeds es))
      (terms.map fun term => (⟨term, copied, false⟩ : Probe σ))
      (terms.map fun term => (⟨term, copied', false⟩ : Probe τ)) := by
    intro terms
    rw [List.forall₂_map_left_iff, List.forall₂_map_right_iff, List.forall₂_same]
    intro term _
    exact ⟨⟨rfl, h⟩, rfl, fun _ => h⟩
  exact ⟨rfl, rfl, Or.inr ⟨trivial, trivial⟩, hprobes q.positives, hprobes q.negatives, h, rfl,
    rfl⟩

/-- Over sources that serve the same entries an intersection is built on both, and a seek
leads the two through the same hits. -/
theorem seek_ofQuery {source : σ} {source' : τ} (h : Serves source heeds es)
    (h' : Serves source' heeds es) (q : Query) (env : Environment) :
    ∃ x y, ofQuery source q env = .ok x ∧ ofQuery source' q env = .ok y
      ∧ ∀ range families, ∃ x' y' vs, Runs (Cursor.seek range families) x () x' ∧ Visits x' vs
        ∧ Runs (Cursor.seek range families) y () y' ∧ Visits y' vs := by
  obtain ⟨c, hc, htop⟩ := h.lists.copy Reached.here env
  obtain ⟨d, hd, htop'⟩ := h'.lists.copy Reached.here env
  have hserves : Serves c heeds es := h.of_reached (Reached.here.copy env hc)
  have hserves' : Serves d heeds es := h'.of_reached (Reached.here.copy env hd)
  refine ⟨_, _, ofQuery_of_copy hc q, ofQuery_of_copy hd q, ?_⟩
  intro range families
  have hsame : Same heeds es c d := ⟨hserves, hserves', htop.trans htop'.symm⟩
  exact seek_twin (twin_opened hsame source source' q env) (ready_opened h hserves q env)
    (ready_opened h' hserves' q env) range families

end Intersection

end CellScan
