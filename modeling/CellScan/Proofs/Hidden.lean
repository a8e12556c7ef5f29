/-
`Hidden.lean` -- that hidden cells never influence a scan.

A cell is hidden from a scan by its own label: one that cannot be read, or that the tokens
presented do not satisfy. Every chain of predicates that a scan is built with has a
visibility predicate somewhere, so what the chain leaves is not hidden. And whether a cell
is hidden is seen from its key, so hidden cells can be taken out before a merge as well as
behind it, also where the merge passes over repeats of a key. What comes out of the filter
is therefore the same for two sets of tables that differ in hidden cells only.

Below that the two scans may differ in much: in the children's queues, in what is
remembered and forgotten, in how far cursors move. With an intersection on top they are
twins (`Twins.lean`), and without one their listings are all there is to see.
-/
import CellScan.Proofs.Stack
import CellScan.Proofs.Twins
import CellScan.Proofs.Visibility
import CellScan.Spec.Scan

set_option autoImplicit false

namespace CellScan

open CellScan.Action CellScan.Cursor CellScan.Entry
open List (Forall₂)

/-! ## What is hidden -/

/-- Whether the label of a key cannot be read or is not satisfied. Cells without a label of
their own are not hidden by it. -/
def Authorizations.hides (auths : Authorizations) (k : Key) : Bool :=
  !k.visibility.isEmpty &&
    match Label.parse k.visibility with
    | .ok label => !label.holds auths
    | .error _ => true

/-- The entries that are not hidden. -/
def Authorizations.visible (auths : Authorizations) (es : List Entry) : List Entry :=
  es.filter fun e => !auths.hides e.1

/-- A filter that reads labels lets no hidden cell pass. -/
theorem Visibility.not_hides_of_judge {v : Visibility} (hv : v.evaluator = Evaluator.formula)
    {k : Key} (h : v.judge k = true) : v.authorizations.hides k = false := by
  by_cases hempty : k.visibility.isEmpty = true
  · rw [Authorizations.hides, hempty]
    rfl
  · rw [Bool.not_eq_true] at hempty
    have hlabel : v.effectiveLabel? k = some k.visibility := by
      rw [effectiveLabel?, hempty]
      rfl
    rw [Authorizations.hides, hempty]
    simp only [judge, hlabel, hv, Evaluator.formula] at h
    rcases hparse : Label.parse k.visibility with fault | label
    · rw [hparse] at h
      exact Bool.noConfusion h
    · rw [hparse] at h
      have hholds : label.holds v.authorizations = true := h
      simp only [hholds, Bool.not_true, Bool.and_false]

/-! ## Building -/

/-- An intersection is built in two steps: a query first, and then its cursors. -/
theorem IntersectionSpec.build_eq {σ : Type} [Cursor σ] (i : IntersectionSpec) (source : σ)
    (env : Environment) :
    i.build source env
      = (i.layout >>= fun layout => Query.ofTerms layout i.terms i.negated)
        >>= fun q => Intersection.ofQuery source q env := by
  rw [build]
  rcases i.layout with fault | layout
  · rfl
  · rfl

namespace ScanSpec

variable {spec : ScanSpec} {env : Environment} {ps : List Predicate}

/-- The chain of a scan: the predicates listed, and a visibility predicate before them if
there is none among them. -/
theorem of_predicates (h : spec.predicates env = .ok ps) :
    ∃ listed, Forall₂ (fun f p => PredicateSpec.build env f = .ok p) spec.filters listed
      ∧ ps = if spec.filters.any PredicateSpec.isVisibility then listed
        else .visibility (Visibility.ofEnvironment env) :: listed := by
  rw [predicates] at h
  rcases hlisted : spec.filters.mapM (·.build env) with fault | listed
  · rw [hlisted] at h
    exact Except.noConfusion rfl rfl (heq_of_eq h)
  · rw [hlisted] at h
    refine ⟨listed, Parallel.of_mapM_ok hlisted, ?_⟩
    by_cases hany : spec.filters.any PredicateSpec.isVisibility = true
    · rw [if_pos hany]
      simp only [hany, if_true] at h
      exact (Except.ok.inj h).symm
    · rw [if_neg hany]
      simp only [hany] at h
      exact (Except.ok.inj h).symm

/-- Every scan judges visibility. -/
theorem exists_visibility (h : spec.predicates env = .ok ps) :
    ∃ label, Predicate.visibility (Visibility.withDefault env label) ∈ ps := by
  obtain ⟨listed, hlisted, rfl⟩ := of_predicates h
  by_cases hany : spec.filters.any PredicateSpec.isVisibility = true
  · rw [if_pos hany]
    obtain ⟨f, hf, hvisibility⟩ := List.any_eq_true.mp hany
    obtain ⟨i, hi⟩ := List.mem_iff_getElem?.mp hf
    obtain ⟨p, hp, hbuild⟩ := Parallel.exists_right hlisted hi
    rcases f with label | _ | rows | ⟨ttl, now⟩ | ⟨names, inclusive⟩
    · rcases label with _ | label
      · obtain rfl := Except.ok.inj hbuild
        exact ⟨env.defaultVisibility, List.mem_of_getElem? hp⟩
      · obtain rfl := Except.ok.inj hbuild
        exact ⟨Bytes.ofString label, List.mem_of_getElem? hp⟩
    all_goals exact Bool.noConfusion hvisibility
  · rw [if_neg hany]
    exact ⟨env.defaultVisibility, List.mem_cons_self⟩

/-- The predicates of a scan remember nothing yet. -/
theorem sound_predicates (h : spec.predicates env = .ok ps) : ∀ p ∈ ps, p.Sound := by
  obtain ⟨listed, hlisted, rfl⟩ := of_predicates h
  have hsound : ∀ p ∈ listed, p.Sound :=
    Parallel.forall_right hlisted fun f p hbuild => PredicateSpec.sound_of_build hbuild
  by_cases hany : spec.filters.any PredicateSpec.isVisibility = true
  · rw [if_pos hany]
    exact hsound
  · rw [if_neg hany]
    exact List.forall_mem_cons.mpr ⟨Visibility.sound_withDefault env _, hsound⟩

/-- What the chain of a scan leaves is not hidden. -/
theorem not_hides_of_meets (henv : env.evaluator = Evaluator.formula)
    (h : spec.predicates env = .ok ps) {e : Entry} (he : Predicate.meets ps e = true) :
    env.authorizations.hides e.1 = false := by
  obtain ⟨label, hlabel⟩ := exists_visibility h
  exact Visibility.not_hides_of_judge (v := Visibility.withDefault env label) henv
    (List.all_eq_true.mp he _ hlabel)

/-! ## What the filter of a scan serves -/

/-- The entries of tables in one sequence, as far as a chain of predicates leaves them. -/
def remaining (spec : ScanSpec) (tables : List Table) (ps : List Predicate) : List Entry :=
  (Entry.merged spec.dedupe (tables.map Table.entries)).filter (Predicate.meets ps)

theorem serves_merged (spec : ScanSpec) (tables : List Table) (env : Environment) :
    Serves (spec.merged tables env) true
      (Entry.merged spec.dedupe (tables.map Table.entries)) := by
  have hmerge : Serves (Layer.merge (Merge.ofChildren tables spec.dedupe (some env.account))) true
      (Entry.merged spec.dedupe (tables.map Table.entries)) := by
    refine Layer.serves_merge ?_ _ _
    rw [List.forall₂_map_right_iff, List.forall₂_same]
    exact fun t _ => t.serves
  unfold merged
  split
  · -- a table alone, without a merge above it
    next t hdedupe =>
      have hentries : Entry.merged false [t.entries] = t.entries := by
        rw [merged_false, List.flatten_singleton]
        exact List.mergeSort_of_pairwise t.ascending
      rw [hdedupe, List.map_singleton, hentries]
      exact Layer.serves_bare t.serves
  · exact hmerge

/-- The filter of a scan, as the stage upon which an intersection is built. -/
def filtered (spec : ScanSpec) (tables : List Table) (env : Environment) (ps : List Predicate) :
    Layer (Layer Table) :=
  .filter (Filter.ofPredicates (spec.merged tables env) ps env)

/-- The filter of a scan serves what remains of the tables. -/
theorem serves_filtered (hps : ∀ p ∈ ps, p.Sound) (spec : ScanSpec) (tables : List Table)
    (env : Environment) :
    Serves (spec.filtered tables env ps) true (spec.remaining tables ps) :=
  Layer.serves_filter (spec.serves_merged tables env) hps env

/-- Tables that differ in hidden cells only leave the same entries. -/
theorem remaining_eq (henv : env.evaluator = Evaluator.formula)
    (hps : spec.predicates env = .ok ps) {tables tables' : List Table}
    (h : Forall₂ (fun t u => env.authorizations.visible t.entries
      = env.authorizations.visible u.entries) tables tables') :
    spec.remaining tables ps = spec.remaining tables' ps := by
  -- the chain sees the visible entries alone, and those are picked before merging
  have hvisible : ∀ ts : List Table, spec.remaining ts ps
      = (Entry.merged spec.dedupe
          (ts.map fun t => env.authorizations.visible t.entries)).filter (Predicate.meets ps) := by
    intro ts
    have hmerged := filter_merged (fun k => !env.authorizations.hides k) spec.dedupe
      (ts.map Table.entries)
    rw [List.map_map] at hmerged
    have hsame : (ts.map fun t => env.authorizations.visible t.entries)
        = ts.map ((fun es => es.filter fun e => !env.authorizations.hides e.1) ∘ Table.entries) :=
      rfl
    rw [hsame, ← hmerged, List.filter_filter, remaining]
    refine List.filter_congr ?_
    intro e _
    by_cases hmeets : Predicate.meets ps e = true
    · rw [not_hides_of_meets henv hps hmeets, Bool.not_false, Bool.and_true]
    · rw [Bool.not_eq_true] at hmeets
      rw [hmeets, Bool.false_and]
  have hmap : (tables.map fun t => env.authorizations.visible t.entries)
      = tables'.map fun t => env.authorizations.visible t.entries := by
    rw [← List.forall₂_eq_eq_eq, List.forall₂_map_left_iff, List.forall₂_map_right_iff]
    exact h
  rw [hvisible, hvisible, hmap]

/-! ## Scans -/

/-- What a scan that is built upon tables comes to: a failure to build it, or a list. -/
def outcome (spec : ScanSpec) (tables : List Table) (account : Account) (range : Range)
    (families : FamilyFilter) : Except Fault (Except Fault (List Entry)) :=
  (spec.build tables (spec.environment account)).1.map fun stack =>
    (Scan.scan range families stack).result

theorem build_of_predicates {σ : Type} [Cursor σ] {sources : List σ}
    (h : spec.predicates env = .ok ps) :
    (spec.build sources env).1 = spec.intersected
      (Layer.filter (Filter.ofPredicates (spec.merged sources env) ps env)) env := by
  have hstack : spec.stackOf sources env
      = (spec.intersected (Layer.filter (Filter.ofPredicates (spec.merged sources env) ps env))
          env).map fun stack => (ps.length, stack) := by
    rw [stackOf, h]
    rfl
  rw [build, hstack]
  rcases spec.intersected
    (Layer.filter (Filter.ofPredicates (spec.merged sources env) ps env)) env with fault | stack
  · rfl
  · rfl

theorem build_of_fault {σ : Type} [Cursor σ] {sources : List σ} {fault : Fault}
    (h : spec.predicates env = .error fault) : (spec.build sources env).1 = .error fault := by
  have hstack : spec.stackOf sources env = .error fault := by
    rw [stackOf, h]
    rfl
  rw [build, hstack]

/-- Both are the same failure to build, or both are the same list. -/
def Same (a b : Except Fault (Except Fault (List Entry))) : Prop :=
  (∃ fault, a = .error fault ∧ b = .error fault)
    ∨ ∃ entries, a = .ok (.ok entries) ∧ b = .ok (.ok entries)

/-- With or without an intersection on top, stacks upon sources that serve the same entries are
scanned alike. -/
theorem same_intersected {σ : Type} [Cursor σ] {source source' : σ} {es : List Entry}
    (h : Serves source true es) (h' : Serves source' true es) (range : Range)
    (families : FamilyFilter) :
    Same ((spec.intersected source env).map fun stack => (Scan.scan range families stack).result)
      ((spec.intersected source' env).map fun stack =>
        (Scan.scan range families stack).result) := by
  unfold intersected
  rcases spec.intersection with _ | i
  · refine Or.inr ⟨within true es range families, ?_, ?_⟩
    · exact congrArg Except.ok ((Layer.wraps_bare.lists h.lists).scan range families)
    · exact congrArg Except.ok ((Layer.wraps_bare.lists h'.lists).scan range families)
  · -- the layout and the terms are judged before the source is looked at
    simp only [i.build_eq]
    rcases i.layout >>= fun layout => Query.ofTerms layout i.terms i.negated with fault | q
    · exact Or.inl ⟨fault, rfl, rfl⟩
    · obtain ⟨x, y, hx, hy, hseek⟩ := Intersection.seek_ofQuery h h' q env
      obtain ⟨x', y', vs, hxs, hvisits, hys, hvisits'⟩ := hseek range families
      show Same (((Intersection.ofQuery source q env).map Layer.intersection).map _)
        (((Intersection.ofQuery source' q env).map Layer.intersection).map _)
      rw [hx, hy]
      refine Or.inr ⟨vs.map Prod.snd, ?_, ?_⟩
      · exact congrArg Except.ok
          ((Layer.wraps_intersection.leads hvisits.leads).scan (runs_within hxs rfl))
      · exact congrArg Except.ok
          ((Layer.wraps_intersection.leads hvisits'.leads).scan (runs_within hys rfl))

/-- Hidden cells never influence a scan: upon tables that differ in cells that are hidden from
the one who scans, and in nothing else, the scan that a specification describes comes to
the same list of entries, or cannot be built for the same reason. -/
theorem same_of_visible (spec : ScanSpec) (account : Account) {tables tables' : List Table}
    (h : Forall₂ (fun t u => spec.authorizations.visible t.entries
      = spec.authorizations.visible u.entries) tables tables')
    (range : Range) (families : FamilyFilter) :
    Same (spec.outcome tables account range families)
      (spec.outcome tables' account range families) := by
  unfold outcome
  rcases hps : spec.predicates (spec.environment account) with fault | ps
  · rw [build_of_fault hps, build_of_fault hps]
    exact Or.inl ⟨fault, rfl, rfl⟩
  · rw [build_of_predicates hps, build_of_predicates hps]
    have hsound := sound_predicates hps
    have hserves := serves_filtered hsound spec tables (spec.environment account)
    have hserves' := serves_filtered hsound spec tables' (spec.environment account)
    -- from here on the tables play no part but for what the chain leaves of them
    have hremaining : spec.remaining tables ps = spec.remaining tables' ps :=
      remaining_eq rfl hps h
    rw [← hremaining] at hserves'
    exact same_intersected hserves hserves' range families

/-- A table with one posting of the term `a`, which everyone may see. -/
def openTable : Table := Table.ofEntries [(⟨[5], [97], [7], [], 0, false⟩, [])]

/-- The table with a second posting, whose label `s` nobody without a token satisfies. -/
def secretTable : Table :=
  Table.ofEntries
    [(⟨[5], [97], [7], [], 0, false⟩, []), (⟨[5], [97], [8], [115], 0, false⟩, [])]

/-- A scan for the documents with the term `a`, by someone without a token. -/
def scanForTerm : ScanSpec := { standard with intersection := some (.termFamily ["a"] [] "e") }

theorem same_secretTable :
    secretTable.entries ≠ openTable.entries
      ∧ Same (scanForTerm.outcome [secretTable] 0 Range.all FamilyFilter.all)
        (scanForTerm.outcome [openTable] 0 Range.all FamilyFilter.all) := by
  have hvisible : Authorizations.empty.visible secretTable.entries
      = Authorizations.empty.visible openTable.entries := by cbv
  refine ⟨by decide +kernel, ?_⟩
  exact same_of_visible scanForTerm 0 (Forall₂.cons hvisible Forall₂.nil) Range.all
    FamilyFilter.all

end ScanSpec

end CellScan
