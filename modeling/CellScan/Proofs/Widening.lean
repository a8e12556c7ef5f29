/-
`Widening.lean` -- that who presents more tokens is shown no less.

Formulas have no negation, so what satisfies a label goes on satisfying it when tokens are
added, and whether a label can be read does not hang on tokens at all. The predicates that a
scan is built from are then met by whatever met them before (`PredicateSpec.wider_build`),
or cannot be built for the same reason. Merging does not ask who reads: which of several
repeats is kept is settled before any label is judged. So what the chain leaves of the merged
entries is left again, in the same order, with more among it (`ScanSpec.sublist_of_subset`).
-/
import CellScan.Proofs.Hidden

set_option autoImplicit false

namespace CellScan

open CellScan.Action CellScan.Cursor CellScan.Entry
open List (Forall₂)

/-! ## Labels -/

namespace Formula

variable {a b : Authorizations}

mutual

/-- More tokens satisfy what fewer did. -/
theorem holds_of_subset (h : a.tokens ⊆ b.tokens) :
    (f : Formula) → f.holds a = true → f.holds b = true
  | .token t => by
      intro ht
      have hmem : t ∈ a.tokens := List.contains_iff_mem.mp ht
      exact List.contains_iff_mem.mpr (h hmem)
  | .all fs => allHold_of_subset h fs
  | .any fs => anyHolds_of_subset h fs

theorem allHold_of_subset (h : a.tokens ⊆ b.tokens) :
    (fs : List Formula) → allHold a fs = true → allHold b fs = true
  | [] => id
  | f :: fs => by
      intro hall
      rw [allHold, Bool.and_eq_true] at hall ⊢
      exact ⟨holds_of_subset h f hall.1, allHold_of_subset h fs hall.2⟩

theorem anyHolds_of_subset (h : a.tokens ⊆ b.tokens) :
    (fs : List Formula) → anyHolds a fs = true → anyHolds b fs = true
  | [] => id
  | f :: fs => by
      intro hany
      rw [anyHolds, Bool.or_eq_true] at hany ⊢
      exact hany.imp (holds_of_subset h f) (anyHolds_of_subset h fs)

end

end Formula

/-- More tokens satisfy a label that fewer did. -/
theorem Label.holds_of_subset {a b : Authorizations} (h : a.tokens ⊆ b.tokens) {l : Label}
    (hl : l.holds a = true) : l.holds b = true := by
  rcases l with ⟨_ | f⟩
  · rfl
  · exact Formula.holds_of_subset h f hl

/-! ## Environments -/

/-- An environment in which more is presented: labels are read and default labels are
given in the same way, and no token is missing. -/
structure Environment.Presents (env more : Environment) : Prop where
  evaluator : env.evaluator = Evaluator.formula
  evaluator' : more.evaluator = Evaluator.formula
  defaultVisibility : env.defaultVisibility = more.defaultVisibility
  tokens : env.authorizations.tokens ⊆ more.authorizations.tokens

variable {env more : Environment}

/-- A cell that is shown is shown to who presents more. -/
theorem Environment.Presents.judge (h : env.Presents more) (label : Bytes) {k : Key}
    (hk : (Visibility.withDefault env label).judge k = true) :
    (Visibility.withDefault more label).judge k = true := by
  rw [(Visibility.bound_withDefault _ label).judge, Environment.shows] at hk ⊢
  have hgrants : ∀ l, env.grants l = true → more.grants l = true := by
    intro l hl
    simp only [Environment.grants, h.evaluator, h.evaluator', Evaluator.formula] at hl ⊢
    -- whether the label can be read is the same for both
    rcases hparse : Label.parse l with fault | label
    · rw [hparse] at hl
      exact Bool.noConfusion hl
    · rw [hparse] at hl
      exact Label.holds_of_subset h.tokens hl
  by_cases hown : k.visibility ≠ []
  · rw [if_pos hown] at hk ⊢
    exact hgrants _ hk
  · rw [if_neg hown] at hk ⊢
    by_cases hdefault : label ≠ []
    · rw [if_pos hdefault] at hk ⊢
      exact hgrants _ hk
    · rw [if_neg hdefault]

/-! ## Predicates -/

/-- Every entry that meets one condition meets the other. -/
def Predicate.Wider (p q : Predicate) : Prop := ∀ e, p.holds e = true → q.holds e = true

theorem Predicate.Wider.refl (p : Predicate) : p.Wider p := fun _ he => he

/-- Chains that are wider at every position leave whatever was left. -/
theorem Predicate.meets_of_wider {ps qs : List Predicate} (h : Forall₂ Wider ps qs) {e : Entry}
    (he : meets ps e = true) : meets qs e = true := by
  induction h with
  | nil => rfl
  | cons hpq _ ih =>
      rw [meets_cons, Bool.and_eq_true] at he ⊢
      exact ⟨hpq e he.1, ih he.2⟩

/-! ## Building -/

/-- Two attempts that fail for the same reason, or succeed with related results. -/
inductive Attempts {ε α β : Type} (R : α → β → Prop) : Except ε α → Except ε β → Prop
  | fail (fault : ε) : Attempts R (.error fault) (.error fault)
  | succeed {a : α} {b : β} : R a b → Attempts R (.ok a) (.ok b)

namespace Attempts

variable {ε α β γ δ : Type} {R : α → β → Prop} {x : Except ε α} {y : Except ε β}

theorem refl {R : α → α → Prop} (h : ∀ a, R a a) (x : Except ε α) : Attempts R x x := by
  cases x with
  | error fault => exact .fail fault
  | ok a => exact .succeed (h a)

theorem fail_or_succeed (h : Attempts R x y) :
    (∃ fault, x = .error fault ∧ y = .error fault) ∨ ∃ a b, x = .ok a ∧ y = .ok b ∧ R a b := by
  cases h with
  | fail fault => exact Or.inl ⟨fault, rfl, rfl⟩
  | succeed hab => exact Or.inr ⟨_, _, rfl, rfl, hab⟩

theorem bind {S : γ → δ → Prop} {f : α → Except ε γ} {g : β → Except ε δ} (h : Attempts R x y)
    (hfg : ∀ a b, R a b → Attempts S (f a) (g b)) : Attempts S (x >>= f) (y >>= g) := by
  cases h with
  | fail fault => exact .fail fault
  | succeed hab => exact hfg _ _ hab

/-- Lists of attempts fail for the first reason, or have related results at every position. -/
theorem mapM {f : γ → Except ε α} {g : γ → Except ε β} (xs : List γ)
    (h : ∀ x, Attempts R (f x) (g x)) : Attempts (Forall₂ R) (xs.mapM f) (xs.mapM g) := by
  induction xs with
  | nil => exact .succeed .nil
  | cons x xs ih =>
      rw [List.mapM_cons, List.mapM_cons]
      refine (h x).bind fun a b hab => ih.bind fun as bs habs => ?_
      exact .succeed (.cons hab habs)

end Attempts

/-- A predicate is built to be wider where more is presented, or not at all. -/
theorem PredicateSpec.wider_build (h : env.Presents more) (f : PredicateSpec) :
    Attempts Predicate.Wider (f.build env) (f.build more) := by
  cases f with
  | visibility label =>
      cases label with
      | none =>
          refine .succeed fun e he => ?_
          have hjudge := h.judge env.defaultVisibility he
          rw [h.defaultVisibility] at hjudge
          exact hjudge
      | some label => exact .succeed fun e he => h.judge (Bytes.ofString label) he
  | ranges rows =>
      -- the ranges are settled by the rows alone
      exact .refl Predicate.Wider.refl ((rows.mapM fun r => Fault.ofEnds r.range?).map .ranges)
  | labelled => exact .succeed (Predicate.Wider.refl _)
  | ageOff ttl now => exact .succeed (Predicate.Wider.refl _)
  | families names inclusive => exact .succeed (Predicate.Wider.refl _)

namespace ScanSpec

/-- The chain of a scan is wider at every position where more is presented. -/
theorem wider_predicates (spec : ScanSpec) (h : env.Presents more) :
    Attempts (Forall₂ Predicate.Wider) (spec.predicates env) (spec.predicates more) := by
  unfold predicates
  refine (Attempts.mapM spec.filters (PredicateSpec.wider_build h)).bind fun ps qs hpqs => ?_
  split
  · exact .succeed hpqs
  · refine .succeed (.cons (fun e he => ?_) hpqs)
    have hjudge := h.judge env.defaultVisibility he
    rw [h.defaultVisibility] at hjudge
    exact hjudge

/-- What remains of tables for a wider chain has what remains for the other one in it, in the
same order. -/
theorem remaining_sublist {ps qs : List Predicate} (h : Forall₂ Predicate.Wider ps qs)
    (spec : ScanSpec) (tables : List Table) :
    (spec.remaining tables ps).Sublist (spec.remaining tables qs) :=
  List.monotone_filter_right _ fun _ he => Predicate.meets_of_wider h he

/-- The scan for someone who presents other tokens. -/
def presenting (spec : ScanSpec) (auths : Authorizations) : ScanSpec :=
  { spec with authorizations := auths }

/-- Without an intersection the stack that is built lists what remains of the tables. -/
theorem lists_of_build (spec : ScanSpec) (hnone : spec.intersection = none) (tables : List Table)
    (env : Environment) {ps : List Predicate} (hps : spec.predicates env = .ok ps) :
    ∃ stack : Stack Table 3, (spec.build tables env).1 = .ok stack
      ∧ Lists stack (within true (spec.remaining tables ps)) := by
  refine ⟨.bare (spec.filtered tables env ps), ?_, ?_⟩
  · rw [build_of_predicates hps, intersected, hnone]
    rfl
  · exact Layer.wraps_bare.lists (spec.serves_filtered (sound_predicates hps) tables env).lists

/-- More tokens never hide an entry: without an intersection on top, the scan that a
specification describes cannot be built, for the same reason, for both of two who read, or
what it returns to the one is a part of what it returns to the other who presents the same
tokens and more, in the same order. That holds in every state that calls and copies bring the
two stacks to, whatever either remembers by then. -/
theorem sublist_of_subset (spec : ScanSpec) (hnone : spec.intersection = none)
    (auths : Authorizations) (hauths : spec.authorizations.tokens ⊆ auths.tokens)
    (tables : List Table) (account account' : Account) :
    Attempts
      (fun stack stack' : Stack Table 3 => ∀ t t', Reached stack t → Reached stack' t' →
        ∀ range families, ∃ es es', (Scan.scan range families t).result = .ok es
          ∧ (Scan.scan range families t').result = .ok es' ∧ es.Sublist es')
      (spec.build tables (spec.environment account)).1
      ((spec.presenting auths).build tables ((spec.presenting auths).environment account')).1 := by
  have hpresents : (spec.environment account).Presents
      ((spec.presenting auths).environment account') := ⟨rfl, rfl, rfl, hauths⟩
  have hchains : Attempts (Forall₂ Predicate.Wider) (spec.predicates (spec.environment account))
      ((spec.presenting auths).predicates ((spec.presenting auths).environment account')) :=
    spec.wider_predicates hpresents
  rcases hchains.fail_or_succeed with ⟨fault, hps, hqs⟩ | ⟨ps, qs, hps, hqs, hwider⟩
  · rw [build_of_fault hps, build_of_fault hqs]
    exact .fail fault
  · obtain ⟨stack, hstack, hlists⟩ := spec.lists_of_build hnone tables _ hps
    obtain ⟨stack', hstack', hlists'⟩ := (spec.presenting auths).lists_of_build hnone tables _ hqs
    rw [hstack, hstack']
    refine .succeed fun t t' ht ht' range families => ?_
    refine ⟨_, _, (hlists.of_reached ht).scan range families,
      (hlists'.of_reached ht').scan range families, ?_⟩
    exact (remaining_sublist hwider spec tables).filter _

/-- The token `s`. -/
def tokenS : Authorizations := Authorizations.ofList [[115]]

theorem sublist_secretTable :
    standard.intersection = none ∧ standard.authorizations.tokens ⊆ tokenS.tokens
      ∧ ∃ stack stack' es es',
        (standard.build [secretTable] (standard.environment 0)).1 = .ok stack
        ∧ ((standard.presenting tokenS).build [secretTable]
            ((standard.presenting tokenS).environment 0)).1 = .ok stack'
        ∧ (Scan.scan Range.all FamilyFilter.all stack).result = .ok es
        ∧ (Scan.scan Range.all FamilyFilter.all stack').result = .ok es' ∧ es.Sublist es' := by
  have htokens : standard.authorizations.tokens ⊆ tokenS.tokens := List.nil_subset _
  refine ⟨rfl, htokens, ?_⟩
  rcases (sublist_of_subset standard rfl tokenS htokens [secretTable] 0 0).fail_or_succeed with
    ⟨fault, hfault, -⟩ | ⟨stack, stack', hstack, hstack', hscan⟩
  · cases hfault
  · obtain ⟨es, es', hes, hes', hsub⟩ := hscan stack stack' .here .here Range.all FamilyFilter.all
    exact ⟨stack, stack', es, es', hstack, hstack', hes, hes', hsub⟩

end ScanSpec

end CellScan
