/-
`Parallel.lean` -- lists side by side.

The children of a merge and what they lead to, the probes of an intersection and their
terms: such lists agree position by position (`List.Forall₂`). Beyond what the library
says of that relation, a position can be looked up on either side and be changed on
both, two relations to one list join, and mapping with a failure succeeds if it does at
every position.
-/
import CellScan.Action
import Mathlib.Data.List.Forall2

set_option autoImplicit false

namespace CellScan.Parallel

open List

variable {α β γ : Type} {R : α → β → Prop} {xs : List α} {ys : List β}

theorem exists_right (h : Forall₂ R xs ys) {i : Nat} {x : α} (hx : xs[i]? = some x) :
    ∃ y, ys[i]? = some y ∧ R x y := by
  induction h generalizing i with
  | nil => exact absurd hx (by simp)
  | @cons a b as bs hab _ ih =>
      rcases i with _ | i
      · rw [List.getElem?_cons_zero, Option.some.injEq] at hx
        exact ⟨b, List.getElem?_cons_zero, hx ▸ hab⟩
      · rw [List.getElem?_cons_succ] at hx ⊢
        exact ih hx

theorem exists_left (h : Forall₂ R xs ys) {i : Nat} {y : β} (hy : ys[i]? = some y) :
    ∃ x, xs[i]? = some x ∧ R x y := by
  obtain ⟨x, hx, hxy⟩ := exists_right h.flip hy
  exact ⟨x, hx, hxy⟩

/-- What is read off a position is the same on both sides. -/
theorem bind_getElem? {f : α → Option γ} {g : β → Option γ} (h : Forall₂ R xs ys)
    (hfg : ∀ x y, R x y → f x = g y) (i : Nat) : (xs[i]?).bind f = (ys[i]?).bind g := by
  rcases hx : xs[i]? with _ | x
  · rw [List.getElem?_eq_none_iff, h.length_eq, ← List.getElem?_eq_none_iff] at hx
    rw [hx]
    rfl
  · obtain ⟨y, hy, hxy⟩ := exists_right h hx
    rw [hy]
    exact hfg x y hxy

theorem set (h : Forall₂ R xs ys) {x : α} {y : β} (hxy : R x y) (i : Nat) :
    Forall₂ R (xs.set i x) (ys.set i y) := by
  induction h generalizing i with
  | nil => exact Forall₂.nil
  | @cons a b as bs hab hrest ih =>
      rcases i with _ | i
      · rw [List.set_cons_zero, List.set_cons_zero]
        exact Forall₂.cons hxy hrest
      · rw [List.set_cons_succ, List.set_cons_succ]
        exact Forall₂.cons hab (ih i)

/-- The side that stays may be related to what comes to the other one. -/
theorem set_right (h : Forall₂ R xs ys) {i : Nat} {x : α} {y : β} (hx : xs[i]? = some x)
    (hxy : R x y) : Forall₂ R xs (ys.set i y) := by
  obtain ⟨hi, rfl⟩ := List.getElem?_eq_some_iff.mp hx
  have hset := set h hxy i
  rwa [List.set_getElem_self] at hset

theorem join {S : α → γ → Prop} {T : β → γ → Prop} {zs : List γ} (h : Forall₂ R xs ys)
    (h' : Forall₂ S xs zs) (hT : ∀ x y z, R x y → S x z → T y z) : Forall₂ T ys zs := by
  induction h generalizing zs with
  | nil =>
      cases h'
      exact Forall₂.nil
  | cons hab _ ih =>
      cases h' with
      | cons hac hrest => exact Forall₂.cons (hT _ _ _ hab hac) (ih hrest)

theorem trans {S : β → γ → Prop} {T : α → γ → Prop} {zs : List γ} (h : Forall₂ R xs ys)
    (h' : Forall₂ S ys zs) (hT : ∀ x y z, R x y → S y z → T x z) : Forall₂ T xs zs := by
  induction h generalizing zs with
  | nil =>
      cases h'
      exact Forall₂.nil
  | cons hab _ ih =>
      cases h' with
      | cons hbc hrest => exact Forall₂.cons (hT _ _ _ hab hbc) (ih hrest)

theorem forall_right {P : β → Prop} (h : Forall₂ R xs ys) (hP : ∀ x y, R x y → P y) :
    ∀ y ∈ ys, P y := by
  intro y hy
  obtain ⟨i, hi⟩ := List.mem_iff_getElem?.mp hy
  obtain ⟨x, -, hxy⟩ := exists_left h hi
  exact hP x y hxy

/-- What exists at every position exists as a list. -/
theorem choose {S : α → γ → Prop} {T : γ → β → Prop} (h : Forall₂ R xs ys)
    (hR : ∀ x y, R x y → ∃ z, S x z ∧ T z y) : ∃ zs, Forall₂ S xs zs ∧ Forall₂ T zs ys := by
  induction h with
  | nil => exact ⟨[], Forall₂.nil, Forall₂.nil⟩
  | cons hab _ ih =>
      obtain ⟨z, hS, hT⟩ := hR _ _ hab
      obtain ⟨zs, hSs, hTs⟩ := ih
      exact ⟨z :: zs, Forall₂.cons hS hSs, Forall₂.cons hT hTs⟩

/-- What each item has a partner for, the list has a list of partners for. -/
theorem exists_of_forall (h : ∀ x ∈ xs, ∃ y, R x y) : ∃ ys, Forall₂ R xs ys := by
  induction xs with
  | nil => exact ⟨[], Forall₂.nil⟩
  | cons x xs ih =>
      obtain ⟨y, hy⟩ := h x List.mem_cons_self
      obtain ⟨ys, hys⟩ := ih fun x' hx' => h x' (List.mem_cons_of_mem x hx')
      exact ⟨y :: ys, Forall₂.cons hy hys⟩

theorem map_right {f : β → γ} {T : α → γ → Prop} (h : Forall₂ R xs ys)
    (hT : ∀ x y, R x y → T x (f y)) : Forall₂ T xs (ys.map f) := by
  induction h with
  | nil => exact Forall₂.nil
  | cons hab _ ih => exact Forall₂.cons (hT _ _ hab) ih

/-- Mapping with a failure succeeds if it does at every position. -/
theorem mapM_ok {ε : Type} {f : α → Except ε β} (h : Forall₂ (fun x y => f x = .ok y) xs ys) :
    xs.mapM f = .ok ys := by
  induction h with
  | nil => rfl
  | cons hab _ ih =>
      rw [List.mapM_cons, hab, ih]
      rfl

theorem of_mapM_ok {ε : Type} {f : α → Except ε β} (h : xs.mapM f = .ok ys) :
    Forall₂ (fun x y => f x = .ok y) xs ys := by
  induction xs generalizing ys with
  | nil =>
      rw [List.mapM_nil] at h
      rw [← Except.ok.inj h]
      exact Forall₂.nil
  | cons x xs ih =>
      rw [List.mapM_cons] at h
      rcases hx : f x with fault | y
      · rw [hx] at h
        exact Except.noConfusion rfl rfl (heq_of_eq h)
      · rcases hxs : xs.mapM f with fault | zs
        · rw [hx, hxs] at h
          exact Except.noConfusion rfl rfl (heq_of_eq h)
        · rw [hx, hxs] at h
          rw [← Except.ok.inj h]
          exact Forall₂.cons hx (ih hxs)

/-! ## Calls on items -/

/-- A call on each item keeps what the call keeps for one, however far it gets. -/
theorem onEach_state {x : Action β Unit} (h : Forall₂ R xs ys)
    (hx : ∀ a b, R a b → R a (x b).state) : Forall₂ R xs (Action.onEach x ys).state := by
  induction h with
  | nil => exact Forall₂.nil
  | @cons a b as bs hab hrest ih =>
      have hb := hx a b hab
      rcases hxb : x b with ⟨_ | _, t, events⟩
      · rw [hxb] at hb
        simp only [Action.onEach, hxb]
        exact Forall₂.cons hb hrest
      · rw [hxb] at hb
        simp only [Action.onEach, hxb]
        exact Forall₂.cons hb ih

/-- A call on one item keeps what it keeps for that one. -/
theorem onItem_state {δ : Type} {x : Action β δ} {absent : δ} (h : Forall₂ R xs ys) (i : Nat)
    (hx : ∀ a b, R a b → R a (x b).state) : Forall₂ R xs (Action.onItem i absent x ys).state := by
  rcases hy : ys[i]? with _ | y
  · simp only [Action.onItem, hy]
    exact h
  · obtain ⟨a, ha, hay⟩ := exists_left h hy
    simp only [Action.onItem, hy]
    exact set_right h ha (hx a y hay)

/-- Asking one item after the other keeps what the question keeps for one. -/
theorem anyItem_state {x : Action β Bool} (h : Forall₂ R xs ys)
    (hx : ∀ a b, R a b → R a (x b).state) : Forall₂ R xs (Action.anyItem x ys).state := by
  induction h with
  | nil => exact Forall₂.nil
  | @cons a b as bs hab hrest ih =>
      have hb := hx a b hab
      rcases hxb : x b with ⟨_ | _ | _, t, events⟩
      · rw [hxb] at hb
        simp only [Action.anyItem, hxb]
        exact Forall₂.cons hb hrest
      · rw [hxb] at hb
        simp only [Action.anyItem, hxb]
        exact Forall₂.cons hb ih
      · rw [hxb] at hb
        simp only [Action.anyItem, hxb]
        exact Forall₂.cons hb hrest

end CellScan.Parallel
