/-
`Stack.lean` -- what a stack of merges and filters over tables lists.

A `Plan` says how a stack is put together: tables at the bottom, merges and filters in
any nesting above them, and calls made on any part before it is built upon. Its
`listing` is read off the plan alone: the cells of a table that are sought, the
listings below a merge sorted into one, the entries below a filter that its conditions
leave. Whatever calls have been made, that is what the stack lists (`lists_stack`):
the laws of the three stages put together, by induction on the plan.
-/
import CellScan.Proofs.Filter
import CellScan.Proofs.Merge
import CellScan.Proofs.Sources
import CellScan.Proofs.Wrapping

set_option autoImplicit false

namespace CellScan

open CellScan.Action CellScan.Cursor CellScan.Entry
open List (Forall₂)

/-! ## The law through the wrappers -/

section Wrappers

variable {σ : Type} [Cursor σ] {listing : Range → FamilyFilter → List Entry}

omit [Cursor σ] in
theorem Source.serves_table (t : Table) : Serves (Source.table t) true t.entries :=
  ⟨Source.wraps_table.lists t.serves.lists, t.ascending⟩

theorem Layer.serves_bare {s : σ} {heeds : Bool} {es : List Entry} (h : Serves s heeds es) :
    Serves (Layer.bare s) heeds es := ⟨Layer.wraps_bare.lists h.lists, h.ascending⟩

/-- A merge serves the entries that its children serve, as one sequence. -/
theorem Layer.serves_merge {children : List σ} {lists : List (List Entry)}
    (h : Forall₂ (fun c es => Serves c true es) children lists) (dedupe : Bool)
    (account : Option Account) :
    Serves (Layer.merge (Merge.ofChildren children dedupe account)) true (merged dedupe lists) := by
  have hlists := Merge.lists_ofChildren
    (Parallel.map_right (f := within true) h fun _ _ hes => hes.lists) dedupe account
  have hlisting : within true (merged dedupe lists) = fun range families =>
      merged dedupe ((lists.map (within true)).map fun l => l range families) := by
    funext range families
    rw [within_merged, List.map_map]
    rfl
  refine ⟨?_, ascending_merged dedupe lists⟩
  rw [hlisting]
  exact Layer.wraps_merge.lists hlists

/-- A filter serves what its conditions leave of the entries below. -/
theorem Layer.serves_filter {s : σ} {es : List Entry} {ps : List Predicate} (h : Serves s true es)
    (hps : ∀ p ∈ ps, p.Sound) (env : Environment) :
    Serves (Layer.filter (Filter.ofPredicates s ps env)) true (es.filter (Predicate.meets ps)) := by
  have hlists := Filter.lists (Filter.decides_ofPredicates hps env) h.lists
  have hlisting : within true (es.filter (Predicate.meets ps)) = fun range families =>
      (within true es range families).filter (Predicate.meets ps) := by
    funext range families
    rw [within, within, filter_comm]
  refine ⟨?_, h.ascending.sublist List.filter_sublist⟩
  rw [hlisting]
  exact Layer.wraps_filter.lists hlists

omit [Cursor σ] in
/-- What an empty layer keeps holds of a stack at every greater height. -/
theorem Stack.of_raiseTo {P : (n : Nat) → Stack σ n → Prop}
    (hbare : ∀ (n : Nat) (s : Stack σ n), P n s → P (n + 1) (Layer.bare s)) {n m : Nat}
    {s : Stack σ n} (h : P n s) (hnm : n ≤ m) : P m (s.raiseTo hnm) := by
  have hraise : ∀ k, P (n + k) (s.raise k) := by
    intro k
    induction k with
    | zero => exact h
    | succ k ih => exact hbare (n + k) (s.raise k) ih
  have hcast : ∀ {k : Nat} (heq : n + (m - n) = k), P k (heq ▸ s.raise (m - n)) := by
    rintro k rfl
    exact hraise (m - n)
  exact hcast (Nat.add_sub_of_le hnm)

theorem Stack.lists_raiseTo {n m : Nat} {s : Stack σ n} (h : Lists s listing) (hnm : n ≤ m) :
    Lists (s.raiseTo hnm) listing :=
  Stack.of_raiseTo (P := fun n (s : Stack σ n) => Lists s listing)
    (fun _ _ hs => Layer.wraps_bare.lists hs) h hnm

theorem Tower.lists_of_stack {t : Tower σ} (h : Lists t.stack listing) : Lists t listing :=
  (Tower.wraps_mk t.height).lists h

/-- Towers brought to one height list what they listed. -/
theorem Tower.lists_level {ts : List (Tower σ)} {listings : List (Range → FamilyFilter → List Entry)}
    (h : Forall₂ (fun t l => Lists t.stack l) ts listings) : Forall₂ Lists (level ts) listings := by
  -- the common height is fixed before the induction goes down the list
  have hall : ∀ (m : Nat) (us : List (Tower σ)) (hus : ∀ t ∈ us, t.height ≤ m)
      (ls : List (Range → FamilyFilter → List Entry)),
      Forall₂ (fun t l => Lists t.stack l) us ls →
      Forall₂ Lists (us.pmap (fun t ht => t.stack.raiseTo ht) hus) ls := by
    intro m us hus ls hls
    induction hls with
    | nil => exact Forall₂.nil
    | cons hl _ ih =>
        rw [List.pmap_cons]
        exact Forall₂.cons (Stack.lists_raiseTo hl _) (ih _)
  have hlevel := hall (greatest ts) ts (fun _ ht => height_le_greatest ht) listings h
  rwa [List.pmap_eq_map_attach] at hlevel

end Wrappers

/-! ## Plans -/

/-- How a stack is put together. -/
inductive Plan where
  | table (t : Table)
  | merge (children : List Plan) (dedupe : Bool) (account : Option Account)
  | filter (source : Plan) (predicates : List Predicate) (sound : ∀ p ∈ predicates, p.Sound)
      (env : Environment)
  /-- A stack on which some calls have been made. -/
  | moved (plan : Plan) (calls : List Call)

namespace Plan

mutual

/-- The stack that is put together. -/
def stack : Plan → Tower Source
  | .table t => Tower.ofSource (.table t)
  | .merge children dedupe account =>
      ⟨Tower.greatest (stackEach children) + 1,
        .merge (Merge.ofChildren (Tower.level (stackEach children)) dedupe account)⟩
  | .filter source predicates _ env =>
      ⟨(stack source).height + 1, .filter (Filter.ofPredicates (stack source).stack predicates env)⟩
  | .moved plan calls => ⟨(stack plan).height, after (stack plan).stack calls⟩

/-- The stacks that are put together. -/
def stackEach : List Plan → List (Tower Source)
  | [] => []
  | plan :: plans => stack plan :: stackEach plans

end

mutual

/-- What a stack lists of a range and families: of a table the cells sought, of a merge
the listings below as one, of a filter the entries below that its conditions leave. -/
def listing : Plan → Range → FamilyFilter → List Entry
  | .table t => fun range families => t.within range families
  | .merge children dedupe _ => fun range families => merged dedupe (listingEach children range families)
  | .filter source predicates _ _ => fun range families =>
      (listing source range families).filter (Predicate.meets predicates)
  | .moved plan _ => listing plan

/-- What each of some stacks lists. -/
def listingEach : List Plan → Range → FamilyFilter → List (List Entry)
  | [] => fun _ _ => []
  | plan :: plans => fun range families => listing plan range families :: listingEach plans range families

end

theorem listingEach_eq (plans : List Plan) (range : Range) (families : FamilyFilter) :
    listingEach plans range families = (plans.map listing).map fun l => l range families := by
  induction plans with
  | nil => rw [listingEach, List.map_nil, List.map_nil]
  | cons plan plans ih =>
      rw [listingEach, List.map_cons, List.map_cons]
      exact congrArg _ ih

mutual

/-- A stack lists the listing of its plan. -/
theorem lists_stack : (plan : Plan) → Lists plan.stack.stack plan.listing
  | .table t => by
      rw [listing]
      exact Source.wraps_table.lists t.lists
  | .merge children dedupe account => by
      have hchildren := Tower.lists_level (lists_stackEach children)
      have hmerge := Merge.lists_ofChildren hchildren dedupe account
      rw [stack, listing]
      simp only [listingEach_eq]
      exact Layer.wraps_merge.lists hmerge
  | .filter source predicates sound env => by
      have hfilter := Filter.lists (Filter.decides_ofPredicates sound env) (lists_stack source)
      rw [stack, listing]
      exact Layer.wraps_filter.lists hfilter
  | .moved plan calls => by
      rw [stack, listing]
      exact (lists_stack plan).of_reached (Reached.here.after calls)

theorem lists_stackEach : (plans : List Plan) →
    Forall₂ (fun t l => Lists t.stack l) (stackEach plans) (plans.map listing)
  | [] => by
      rw [stackEach]
      exact Forall₂.nil
  | plan :: plans => by
      rw [stackEach, List.map_cons]
      exact Forall₂.cons (lists_stack plan) (lists_stackEach plans)

end

/-- Whatever calls have been made on a stack, a seek succeeds and leads through the
listing of its plan, a scan comes to that listing, and wherever the stack stands at an
entry it can be left. -/
theorem scan_stack (plan : Plan) (calls : List Call) (range : Range) (families : FamilyFilter) :
    (Cursor.seek range families (after plan.stack calls)).result = .ok ()
      ∧ Leads (Cursor.seek range families (after plan.stack calls)).state
          (plan.listing range families)
      ∧ (Scan.scan range families (after plan.stack calls)).result
          = .ok (plan.listing range families)
      ∧ (Cursor.top (after plan.stack calls) = none
          ∨ (Cursor.next (after plan.stack calls)).result = .ok ()) := by
  have hlists : Lists plan.stack plan.listing := Tower.lists_of_stack plan.lists_stack
  have hthere := hlists.of_reached (Reached.here.after calls)
  obtain ⟨t, ht, hl⟩ := hthere.seek Reached.here range families
  refine ⟨ht.result, ?_, hthere.scan range families, ?_⟩
  · rw [ht.state]
    exact hl
  · obtain ⟨es, hes, -⟩ := hthere.stands Reached.here
    by_cases htop : Cursor.top (after plan.stack calls) = none
    · exact Or.inl htop
    · exact Or.inr (hes.next_ok htop)

/-! ## Stacks as sources -/

mutual

/-- A stack lists of a range and families what it lists at all that is in them. -/
theorem listing_eq_within : (plan : Plan) → ∀ range families, plan.listing range families
    = within true (plan.listing Range.all FamilyFilter.all) range families
  | .table t => by
      intro range families
      simp only [listing]
      rw [t.within_eq, within_all]
  | .merge children dedupe account => by
      intro range families
      simp only [listing]
      rw [listingEach_eq_within children range families, within_merged]
  | .filter source predicates sound env => by
      intro range families
      simp only [listing]
      rw [listing_eq_within source range families, within, within, filter_comm]
  | .moved plan calls => by
      intro range families
      rw [listing]
      exact listing_eq_within plan range families

theorem listingEach_eq_within : (plans : List Plan) → ∀ range families,
    listingEach plans range families
      = (listingEach plans Range.all FamilyFilter.all).map fun es => within true es range families
  | [] => by
      intro range families
      simp only [listingEach, List.map_nil]
  | plan :: plans => by
      intro range families
      simp only [listingEach, List.map_cons]
      rw [← listing_eq_within plan range families, ← listingEach_eq_within plans range families]

end

/-- A stack serves one sequence of entries. -/
theorem serves_stack (plan : Plan) :
    Serves plan.stack true (plan.listing Range.all FamilyFilter.all) := by
  have hlists : Lists plan.stack plan.listing := Tower.lists_of_stack plan.lists_stack
  refine ⟨?_, hlists.ascending Range.all FamilyFilter.all⟩
  have hwithin : within true (plan.listing Range.all FamilyFilter.all) = plan.listing := by
    funext range families
    exact (listing_eq_within plan range families).symm
  rw [hwithin]
  exact hlists

end Plan

end CellScan
