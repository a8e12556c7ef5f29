/-
`Wrapping.lean` -- one cursor inside another.

A layer of a stack, a source among several kinds and a tower hand all calls on to the one
cursor inside them. `Wraps` says so, and what is said of the cursor inside then holds of the
one outside: where calls bring it, what it leads to, what it lists.
-/
import CellScan.Proofs.Calls
import CellScan.Stack

set_option autoImplicit false

namespace CellScan

open CellScan.Action CellScan.Cursor

namespace Cursor

variable {σ τ : Type} [Cursor σ] [Cursor τ] {s : σ}

/-- The outer cursor does as the one that is put inside does. -/
structure Wraps (put : σ → τ) : Prop where
  seek : ∀ range families s,
    Cursor.seek range families (put s) = (Cursor.seek range families s).within put
  top : ∀ s, Cursor.top (put s) = Cursor.top s
  next : ∀ s, Cursor.next (put s) = (Cursor.next s).within put
  copy : ∀ env s, Cursor.copy env (put s) = (Cursor.copy env s).map put
  reach : ∀ s, Cursor.reach (put s) = Cursor.reach s

namespace Wraps

variable {put : σ → τ}

/-- All states of the outer cursor are states of the inner one, put inside. -/
theorem reached (h : Wraps put) {u : τ} (hu : Reached (put s) u) :
    ∃ t, Reached s t ∧ u = put t := by
  induction hu with
  | here => exact ⟨s, .here, rfl⟩
  | seek range families _ ih =>
      obtain ⟨t, ht, rfl⟩ := ih
      exact ⟨_, ht.seek range families, congrArg Outcome.state (h.seek range families t)⟩
  | next _ ih =>
      obtain ⟨t, ht, rfl⟩ := ih
      exact ⟨_, ht.next, congrArg Outcome.state (h.next t)⟩
  | copy env _ hcopy ih =>
      obtain ⟨t, ht, rfl⟩ := ih
      rw [h.copy] at hcopy
      obtain ⟨v, hv, rfl⟩ := exists_of_map_ok hcopy
      exact ⟨v, ht.copy env hv, rfl⟩

omit [Cursor σ] [Cursor τ] in
theorem runs {x : Action σ Unit} {y : Action τ Unit} {u : τ} (hy : y (put s) = (x s).within put)
    (hu : Runs y (put s) () u) : ∃ t, Runs x s () t ∧ u = put t := by
  have hx : (x s).result = .ok () := by
    rw [← hu.result, hy]
    rfl
  refine ⟨_, runs_of_result hx, ?_⟩
  rw [← hu.state, hy]
  rfl

theorem topKey (h : Wraps put) (s : σ) : Cursor.topKey (put s) = Cursor.topKey s :=
  congrArg (Option.map Prod.fst) (h.top s)

theorem leads (h : Wraps put) {es : List Entry} (hs : Leads s es) : Leads (put s) es := by
  induction hs with
  | done htop => exact .done ((h.top _).trans htop)
  | more htop hnext hlen _ ih =>
      exact .more ((h.top _).trans htop) (runs_within hnext (h.next _)) ((h.reach _).symm ▸ hlen) ih

theorem lists (h : Wraps put) {listing : Range → FamilyFilter → List Entry}
    (hs : Lists s listing) : Lists (put s) listing := by
  refine ⟨?_, ?_, ?_, ?_⟩
  · intro u hu range families
    obtain ⟨t, ht, rfl⟩ := h.reached hu
    obtain ⟨v, hv, hleads⟩ := hs.seek ht range families
    exact ⟨put v, runs_within hv (h.seek _ _ _), h.leads hleads⟩
  · intro u hu
    obtain ⟨t, ht, rfl⟩ := h.reached hu
    obtain ⟨es, hes, hasc⟩ := hs.stands ht
    exact ⟨es, h.leads hes, hasc⟩
  · intro u hu env
    obtain ⟨t, ht, rfl⟩ := h.reached hu
    obtain ⟨v, hv, hnone⟩ := hs.copy ht env
    refine ⟨put v, ?_, (h.top v).trans hnone⟩
    rw [h.copy, hv]
    rfl
  · intro u hu
    obtain ⟨t, ht, rfl⟩ := h.reached hu
    rw [h.reach, h.reach]
    exact hs.reach ht

end Wraps

end Cursor

/-! ## What wraps a cursor -/

section Layers

variable {σ : Type} [Cursor σ]

theorem Source.wraps_table : Wraps Source.table :=
  ⟨fun _ _ _ => rfl, fun _ => rfl, fun _ => rfl, fun _ _ => rfl, fun _ => rfl⟩

theorem Source.wraps_tape : Wraps Source.tape :=
  ⟨fun _ _ _ => rfl, fun _ => rfl, fun _ => rfl, fun _ _ => rfl, fun _ => rfl⟩

theorem Layer.wraps_bare : Wraps (Layer.bare : σ → Layer σ) :=
  ⟨fun _ _ _ => rfl, fun _ => rfl, fun _ => rfl, fun _ _ => rfl, fun _ => rfl⟩

theorem Layer.wraps_merge : Wraps (Layer.merge : Merge σ → Layer σ) :=
  ⟨fun _ _ _ => rfl, fun _ => rfl, fun _ => rfl, fun _ _ => rfl, fun _ => rfl⟩

theorem Layer.wraps_filter : Wraps (Layer.filter : Filter σ → Layer σ) :=
  ⟨fun _ _ _ => rfl, fun _ => rfl, fun _ => rfl, fun _ _ => rfl, fun _ => rfl⟩

theorem Layer.wraps_intersection : Wraps (Layer.intersection : Intersection σ → Layer σ) :=
  ⟨fun _ _ _ => rfl, fun _ => rfl, fun _ => rfl, fun _ _ => rfl, fun _ => rfl⟩

theorem Tower.wraps_mk (n : Nat) : Wraps (Tower.mk n : Stack σ n → Tower σ) :=
  ⟨fun _ _ _ => rfl, fun _ => rfl, fun _ => rfl, fun _ _ => rfl, fun _ => rfl⟩

end Layers

end CellScan
