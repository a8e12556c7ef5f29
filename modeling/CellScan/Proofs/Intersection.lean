/-
`Intersection.lean` -- the hits that an intersection visits.

A search finds the first hit from a target on, and `next` searches from right after the
hit. So the states that an intersection goes through from a seek on (`Visits`) show the
hits one after the other, in ascending order and without a gap. The number of documents
still ahead bounds them, which is also why a visit ends.

What calls have been made before the seek does not matter: whatever they did, the cursors
still serve what they served (`ready_after`), and a seek forgets where the probes stand.
-/
import CellScan.Proofs.Clipping
import CellScan.Proofs.Search

set_option autoImplicit false

namespace CellScan

open CellScan.Action CellScan.Cursor CellScan.Entry
open List (Forall₂)
open scoped Linear

/-! ## The entry that shows a document -/

/-- The keys in the range of a column lie from its first live key on, in its row. -/
theorem Range.ofColumn_le_of_contains {row family qualifier : Bytes} {k : Key}
    (h : (Range.ofColumn row family qualifier).contains k = true) :
    Key.ofColumn row family qualifier ≤ k ∧ k.row = row := by
  obtain ⟨hstart, hstop⟩ := contains_iff.mp h
  have hfirst : Key.ofColumn row family qualifier ≤ k := hstart _ rfl
  have hlast : k < Key.ofColumn row family qualifier.successor := hstop _ rfl
  exact ⟨hfirst,
    le_antisymm (Key.row_le_of_le (le_of_lt hlast)) (Key.row_le_of_le hfirst)⟩

/-! ## Queries -/

theorem Query.ofTerms_ok {terms : List Bytes} {flags : List Bool} (layout : Layout)
    (hterms : terms ≠ []) (hflags : flags = [] ∨ flags.length = terms.length)
    (hasks : ∃ t ∈ withFlags terms flags, t.negated = false) :
    Query.ofTerms layout terms flags = .ok ⟨layout, withFlags terms flags, hasks⟩ := by
  have hcount : (!flags.isEmpty && flags.length != terms.length) = false := by
    rcases hflags with rfl | hlen
    · rfl
    · rw [hlen, bne_self_eq_false, Bool.and_false]
  rw [ofTerms, if_neg (by rwa [List.isEmpty_iff]), hcount, if_neg Bool.false_ne_true, dif_pos hasks]

namespace Intersection

open CellScan.Probe

variable {σ : Type} [Cursor σ] {heeds : Bool} {es : List Entry}

/-- The entries of a key's column. -/
def column (heeds : Bool) (es : List Entry) (k : Key) : List Entry :=
  within heeds es (Range.ofColumn k.row k.family k.qualifier) (FamilyFilter.only k.family)

/-- The entry that shows a document, and whether it is among the entries: the first one of
the document's column, or one made up. -/
def display (heeds : Bool) (es : List Entry) (layout : Layout) (d : Document) : Entry × Bool :=
  match (column heeds es (layout.documentKey d.row d.id)).head? with
  | some entry => (entry, true)
  | none => ((layout.documentKey d.row d.id, []), false)

/-- The key of a document's cell is the first live key of a column in the document's row. -/
theorem documentKey_eq_ofColumn (layout : Layout) (row doc : Bytes) :
    layout.documentKey row doc = Key.ofColumn row (layout.documentKey row doc).family
      (layout.documentKey row doc).qualifier := by
  rcases layout with documents | ⟨index, documents, segments, hpos⟩
  · rfl
  · rcases hcut : Bytes.cutAtZero? doc with _ | ⟨kind, name⟩
    · simp only [Layout.documentKey, hcut, Key.ofColumn]
    · simp only [Layout.documentKey, hcut, Key.ofColumn]

theorem documentKey_row (layout : Layout) (row doc : Bytes) :
    (layout.documentKey row doc).row = row :=
  congrArg Key.row (documentKey_eq_ofColumn layout row doc)

/-- A document is shown in its own column. -/
theorem display_column (hplain : Plain es) (layout : Layout) (d : Document) {e : Entry}
    (he : (display heeds es layout d).1 = e) :
    e.1.row = d.row ∧ e.1.family = (layout.documentKey d.row d.id).family
      ∧ e.1.qualifier = (layout.documentKey d.row d.id).qualifier := by
  have hrow := documentKey_row layout d.row d.id
  unfold display at he
  split at he
  · next x hhead =>
      obtain rfl : x = e := he
      obtain ⟨hmem, hin⟩ := List.mem_filter.mp (List.mem_of_mem_head? hhead)
      rw [Bool.and_eq_true] at hin
      obtain ⟨hr, hf, hq⟩ := (Range.contains_ofColumn_iff (hplain x hmem)).mp hin.1
      exact ⟨hr.trans hrow, hf, hq⟩
  · rw [← he]
    exact ⟨hrow, rfl, rfl⟩

theorem column_runs {x : Intersection σ} (h : Serves x.documents heeds es) (k : Key) :
    ∃ c, Runs (Action.on documents (fun (x : Intersection σ) c => { x with documents := c })
        (Cursor.seek (Range.ofColumn k.row k.family k.qualifier) (FamilyFilter.only k.family)))
        x () { x with documents := c }
      ∧ Cursor.top c = (column heeds es k).head? ∧ Serves c heeds es := by
  obtain ⟨c, hc, hl⟩ := h.lists.seek Reached.here
    (Range.ofColumn k.row k.family k.qualifier) (FamilyFilter.only k.family)
  exact ⟨c, hc.on, hl.head?, h.lists.of_seek hc, h.ascending⟩

theorem fetch_runs {x : Intersection σ} (h : Serves x.documents heeds es) (d : Document) :
    ∃ c, Runs (fetch d) x (display heeds es x.query.layout d) { x with documents := c }
      ∧ Serves c heeds es := by
  obtain ⟨c, hc, htop, hserves⟩ := column_runs h (x.query.layout.documentKey d.row d.id)
  refine ⟨c, ?_, hserves⟩
  refine (runs_look (fun x : Intersection σ => x.query.layout) x).bind (f := fun _ => _) ?_
  refine hc.bind (f := fun _ => _) ?_
  refine (runs_look (fun x : Intersection σ => Cursor.top x.documents) _).bind (f := fun _ => _) ?_
  show Runs (match Cursor.top c with
    | some entry => pure (entry, true)
    | none => pure ((_, []), false)) _ _ _
  rw [htop]
  unfold display
  split
  · exact runs_pure _ _
  · exact runs_pure _ _

/-! ## Searching and standing -/

theorem stand_runs {x : Intersection σ} (h : Serves x.documents heeds es) (d : Document) :
    ∃ c, Runs (stand d) x ()
        { x with documents := c, hit := some d, shown := some (display heeds es x.query.layout d).1 }
      ∧ Serves c heeds es := by
  obtain ⟨c, hc, hserves⟩ := fetch_runs h d
  refine ⟨c, hc.bind (f := fun _ => _) ?_, hserves⟩
  refine (runs_look Intersection.account { x with documents := c }).bind (f := fun _ => _) ?_
  refine (runs_record _ _).bind (f := fun _ => _) ?_
  exact runs_change _ _

/-- Where a search from a target on leaves an intersection: at the first hit, or at none. -/
structure Arrived (heeds : Bool) (es : List Entry) (t : Target) (x y : Intersection σ) : Prop where
  searched : Searched heeds es t x y y.hit
  query : y.query = x.query
  range : y.range = x.range
  shown : y.shown = y.hit.map fun d => (display heeds es y.query.layout d).1

theorem goTo_of_none {x y : Intersection σ} {t : Target}
    (h : Runs (nextHit x.situations t) { x with hit := none, shown := none } none y) :
    Runs (goTo t) x () y := by
  refine (runs_change (fun x : Intersection σ => { x with hit := none, shown := none }) x).bind
    (f := fun _ => _) ?_
  refine (runs_look situations _).bind (f := fun _ => _) ?_
  exact h.bind (f := fun _ => _) (runs_pure () y)

theorem goTo_of_some {x y z : Intersection σ} {t : Target} {d : Document}
    (h : Runs (nextHit x.situations t) { x with hit := none, shown := none } (some d) y)
    (hstand : Runs (stand d) y () z) : Runs (goTo t) x () z := by
  refine (runs_change (fun x : Intersection σ => { x with hit := none, shown := none }) x).bind
    (f := fun _ => _) ?_
  refine (runs_look situations _).bind (f := fun _ => _) ?_
  exact h.bind (f := fun _ => _) hstand

/-- A search that starts without a hit has turns enough. -/
theorem nextHit_ready {x : Intersection σ} (h : Ready heeds es x) (t : Target) :
    ∃ r ps ns, Runs (nextHit x.situations t) { x with hit := none, shown := none } r
        { x with hit := none, shown := none, positives := ps, negatives := ns }
      ∧ Searched heeds es t x
        { x with hit := none, shown := none, positives := ps, negatives := ns } r := by
  have hready : Ready heeds es { x with hit := none, shown := none } :=
    ⟨h.source, h.documents, h.positives, h.negatives⟩
  have hturns : ahead (posted x.query.layout es x.query.positives) t < x.situations := by
    obtain ⟨-, hposted, hturns⟩ := h.enough
    refine lt_of_le_of_lt (le_trans List.countP_le_length hposted) (lt_of_le_of_lt ?_ hturns)
    exact le_trans (Nat.le_succ _) (Nat.le_mul_of_pos_right _ (positives_ne_nil x.query))
  obtain ⟨r, ps, ns, hr, hfound⟩ := nextHit_runs hready hturns
  exact ⟨r, ps, ns, hr, hfound.ready, hfound.found, hfound.first⟩

theorem goTo_runs {x : Intersection σ} (h : Ready heeds es x) (t : Target) :
    ∃ y, Runs (goTo t) x () y ∧ Arrived heeds es t x y := by
  obtain ⟨r, ps, ns, hr, hsearched⟩ := nextHit_ready h t
  rcases r with _ | d
  · exact ⟨_, goTo_of_none hr, hsearched, rfl, rfl, rfl⟩
  · obtain ⟨c, hc, hserves⟩ := stand_runs hsearched.ready.documents d
    refine ⟨_, goTo_of_some hr hc, ?_, rfl, rfl, rfl⟩
    exact ⟨⟨hsearched.ready.source, hserves, hsearched.ready.positives,
      hsearched.ready.negatives⟩, hsearched.found, hsearched.first⟩

namespace Arrived

variable {x y : Intersection σ} {t : Target} {d : Document}

/-- A hit lies from the target on, and the terms asked for are posted for it. -/
theorem admits (h : Arrived heeds es t x y) (hhit : y.hit = some d) :
    t.admits d = true ∧ d ∈ posted x.query.layout es x.query.positives := by
  obtain ⟨term, hterm⟩ := List.exists_mem_of_length_pos (positives_ne_nil x.query)
  obtain ⟨hposts, hadmits, -⟩ := h.searched.found term hterm d hhit
  exact ⟨hadmits, mem_posted hterm hposts⟩

/-- The intersection as it goes on from a hit. -/
theorem ready (h : Arrived heeds es t x y) : Ready heeds es { y with hit := none } :=
  ⟨h.searched.ready.source, h.searched.ready.documents, h.searched.ready.positives,
    h.searched.ready.negatives⟩

theorem settled (h : Arrived heeds es t x y) (hplain : Plain es) (hsettled : Settled es t x)
    (hhit : y.hit = some d) : Settled es (Target.afterDocument d) { y with hit := none } := by
  obtain ⟨-, -, hset⟩ := h.searched.first hplain hsettled
  exact (hset d hhit).mono fun d' hd' => Target.admits_of_afterDocument hd'

/-- Where there is no hit nothing is due. -/
theorem not_due (h : Arrived heeds es t x y) (hplain : Plain es) (hsettled : Settled es t x)
    (hhit : y.hit = none) (d : Document) : ¬ Due x.query x.range es t d := by
  intro hd
  obtain ⟨-, hfirst, -⟩ := h.searched.first hplain hsettled
  obtain ⟨d₀, hd₀, -⟩ := hfirst d hd
  rw [hhit] at hd₀
  exact absurd hd₀ (by simp)

/-- What is due is the hit and what is due behind it. -/
theorem due_iff (h : Arrived heeds es t x y) (hplain : Plain es) (hsettled : Settled es t x)
    (hhit : y.hit = some d) (d' : Document) :
    d' = d ∨ Due x.query x.range es (Target.afterDocument d) d' ↔ Due x.query x.range es t d' := by
  obtain ⟨hdue, hfirst, -⟩ := h.searched.first hplain hsettled
  constructor
  · rintro (rfl | ⟨hmatch, hadmits, hwithin⟩)
    · exact hdue _ hhit
    · refine ⟨hmatch, ?_, hwithin⟩
      exact Target.admits_of_ofDocument (h.admits hhit).1 (Target.admits_of_afterDocument hadmits)
  · intro hd'
    obtain ⟨d₀, hd₀, hle⟩ := hfirst d' hd'
    rw [hhit, Option.some.injEq] at hd₀
    subst hd₀
    rcases eq_or_lt_of_le hle with heq | hlt
    · exact Or.inl heq.symm
    · exact Or.inr ⟨hd'.matching, (Target.admits_afterDocument d d').mpr hlt, hd'.within⟩

end Arrived

/-! ## Calls -/

/-- With all probes forgotten and the range changed. -/
def restart (range : Range) (x : Intersection σ) : Intersection σ :=
  { x with range, hit := none, shown := none, positives := unplaced x.positives,
           negatives := unplaced x.negatives }

theorem team_unplaced {terms : List Bytes} {ps : List (Probe σ)} (h : Team heeds es terms ps) :
    Team heeds es terms (unplaced ps) := by
  refine Parallel.map_right h ?_
  rintro term p ⟨hterm, hserves, -⟩
  exact ⟨hterm, hserves, fun hplaced => Bool.noConfusion hplaced⟩

theorem ready_restart {x : Intersection σ} (h : Ready heeds es x) (range : Range) :
    Ready heeds es (restart range x) :=
  ⟨h.source, h.documents, team_unplaced h.positives, team_unplaced h.negatives⟩

/-- Probes that are not placed stand beyond nothing. -/
theorem settled_restart (range : Range) (t : Target) (x : Intersection σ) :
    Settled es t (restart range x) := by
  have hunplaced : ∀ (s : Search) (ps : List (Probe σ)), AllSettled s es t (unplaced ps) := by
    intro s ps p hp hplaced
    obtain ⟨q, -, rfl⟩ := List.mem_map.mp hp
    exact Bool.noConfusion hplaced
  exact ⟨hunplaced _ _, hunplaced _ _⟩

theorem place_runs {x y : Intersection σ} {range : Range}
    (h : Runs (if range.isEmpty then pure () else goTo (Target.ofRange x.query.layout range))
      (restart range x) () y) : Runs (place range) x () y := by
  refine (runs_look Intersection.account x).bind (f := fun _ => _) ?_
  refine (runs_record _ x).bind (f := fun _ => _) ?_
  refine (runs_change (restart range) x).bind (f := fun _ => _) ?_
  exact (runs_look (fun x : Intersection σ => x.query.layout) _).bind
    (f := fun layout => if range.isEmpty then pure () else goTo (Target.ofRange layout range)) h

theorem step_of_hit {x : Intersection σ} {d : Document} (h : x.hit = some d) :
    step x = goTo (Target.afterDocument d) { x with hit := none } := by
  simp only [step, h]

theorem step_of_none {x : Intersection σ} (h : x.hit = none) :
    step x = Action.fail .nothingToLeave x := by
  simp only [step, h]

/-- What a seek comes to: it succeeds, and unless the range is empty it searches from where
the range starts. -/
theorem seek_cases {x : Intersection σ} (h : Ready heeds es x) (range : Range)
    (families : FamilyFilter) :
    ∃ y, Runs (Cursor.seek range families) x () y
      ∧ (range.isEmpty = true ∧ y = restart range x
        ∨ range.isEmpty = false
          ∧ Arrived heeds es (Target.ofRange x.query.layout range) (restart range x) y) := by
  rcases hempty : range.isEmpty with _ | _
  · obtain ⟨y, hy, harr⟩ := goTo_runs (ready_restart h range) (Target.ofRange x.query.layout range)
    refine ⟨y, place_runs ?_, Or.inr ⟨rfl, harr⟩⟩
    rw [hempty]
    exact hy
  · refine ⟨restart range x, place_runs ?_, Or.inl ⟨rfl, rfl⟩⟩
    rw [hempty]
    exact runs_pure () _

/-- What a step comes to: at a hit it succeeds and searches from right after it, and from
nowhere it fails and changes nothing. -/
theorem next_cases {x : Intersection σ} (h : Ready heeds es x) :
    (x.hit = none ∧ make x .next = x)
      ∨ ∃ d y, x.hit = some d ∧ Runs Cursor.next x () y
        ∧ Arrived heeds es (Target.afterDocument d) { x with hit := none } y := by
  rcases hhit : x.hit with _ | d
  · exact Or.inl ⟨rfl, congrArg Outcome.state (step_of_none hhit)⟩
  · have hready : Ready heeds es { x with hit := none } :=
      ⟨h.source, h.documents, h.positives, h.negatives⟩
    obtain ⟨y, hy, harr⟩ := goTo_runs hready (Target.afterDocument d)
    exact Or.inr ⟨d, y, rfl, hy.of_eq (step_of_hit hhit), harr⟩

/-- A seek succeeds. -/
theorem seek_ready {x : Intersection σ} (h : Ready heeds es x) (range : Range)
    (families : FamilyFilter) :
    ∃ y, Runs (Cursor.seek range families) x () y ∧ Ready heeds es y ∧ y.query = x.query := by
  obtain ⟨y, hy, ⟨-, rfl⟩ | ⟨-, harr⟩⟩ := seek_cases h range families
  · exact ⟨_, hy, ready_restart h range, rfl⟩
  · exact ⟨y, hy, harr.searched.ready, harr.query⟩

/-- Every call, whatever it comes to, leaves the cursors serving what they served. -/
theorem ready_make {x : Intersection σ} (h : Ready heeds es x) (call : Call) :
    Ready heeds es (make x call) ∧ (make x call).query = x.query := by
  rcases call with ⟨range, families⟩ | _
  · obtain ⟨y, hy, hready, hquery⟩ := seek_ready h range families
    have hmake : make x (.seek range families) = y := hy.state
    rw [hmake]
    exact ⟨hready, hquery⟩
  · obtain ⟨-, hmake⟩ | ⟨d, y, -, hy, harr⟩ := next_cases h
    · rw [hmake]
      exact ⟨h, rfl⟩
    · have hmake : make x .next = y := hy.state
      rw [hmake]
      exact ⟨harr.searched.ready, harr.query⟩

theorem ready_after {x : Intersection σ} (h : Ready heeds es x) (calls : List Call) :
    Ready heeds es (after x calls) ∧ (after x calls).query = x.query := by
  induction calls generalizing x with
  | nil => exact ⟨h, rfl⟩
  | cons call calls ih =>
      obtain ⟨hready, hquery⟩ := ready_make h call
      obtain ⟨hready', hquery'⟩ := ih hready
      exact ⟨hready', hquery'.trans hquery⟩

/-! ## Visits -/

/-- Going on from a state, the intersection stands at the hits of a list one after the other,
each with the entry that shows it, and then at none. -/
inductive Visits : Intersection σ → List (Document × Entry) → Prop
  | done {x : Intersection σ} : x.hit = none → Cursor.top x = none → Visits x []
  | more {x y : Intersection σ} {d : Document} {e : Entry} {vs : List (Document × Entry)} :
      x.hit = some d → Cursor.top x = some e → Runs Cursor.next x () y →
      vs.length < Cursor.reach x → Visits y vs → Visits x ((d, e) :: vs)

theorem Visits.leads {x : Intersection σ} {vs : List (Document × Entry)} (h : Visits x vs) :
    Leads x (vs.map Prod.snd) := by
  induction h with
  | done _ htop => exact Leads.done htop
  | more _ htop hnext hlen _ ih =>
      refine Leads.more htop hnext ?_ ih
      rw [List.length_map]
      exact hlen

/-- What is visited from a target on ascends, each document is shown by its entry, and there
are no more visits than documents ahead. -/
structure HitsFrom (heeds : Bool) (es : List Entry) (q : Query) (t : Target)
    (vs : List (Document × Entry)) : Prop where
  ascending : (vs.map Prod.fst).Pairwise (· < ·)
  admits : ∀ d ∈ vs.map Prod.fst, t.admits d = true
  shown : ∀ v ∈ vs, v.2 = (display heeds es q.layout v.1).1
  few : vs.length ≤ ahead (posted q.layout es q.positives) t

theorem HitsFrom.nil (q : Query) (t : Target) : HitsFrom heeds es q t [] where
  ascending := List.Pairwise.nil
  admits _ hd := absurd hd List.not_mem_nil
  shown _ hv := absurd hv List.not_mem_nil
  few := Nat.zero_le _

theorem HitsFrom.cons {q : Query} {t : Target} {d : Document} {vs : List (Document × Entry)}
    (h : HitsFrom heeds es q (Target.afterDocument d) vs) (hadmits : t.admits d = true)
    (hd : d ∈ posted q.layout es q.positives) :
    HitsFrom heeds es q t ((d, (display heeds es q.layout d).1) :: vs) := by
  have hlater : ∀ d' ∈ vs.map Prod.fst, d < d' :=
    fun d' hd' => (Target.admits_afterDocument d d').mp (h.admits d' hd')
  refine ⟨List.pairwise_cons.mpr ⟨hlater, h.ascending⟩, ?_, ?_, ?_⟩
  · rw [List.map_cons, List.forall_mem_cons]
    exact ⟨hadmits, fun d' hd' => Target.admits_of_le hadmits (le_of_lt (hlater d' hd'))⟩
  · rw [List.forall_mem_cons]
    exact ⟨rfl, h.shown⟩
  · rw [List.length_cons]
    exact Nat.succ_le_of_lt (lt_of_le_of_lt h.few (ahead_lt hd hadmits))

/-- After a search for a hit the intersection visits hits from there on, of plain entries all
that are due. -/
theorem visits_of_goTo {x : Intersection σ} (h : Ready heeds es x) {t : Target} {n : Nat}
    (hn : ahead (posted x.query.layout es x.query.positives) t < n) :
    ∃ y vs, Runs (goTo t) x () y ∧ Visits y vs ∧ HitsFrom heeds es x.query t vs
      ∧ (Plain es → Settled es t x →
          ∀ d, d ∈ vs.map Prod.fst ↔ Due x.query x.range es t d) := by
  induction n generalizing x t with
  | zero => exact absurd hn (Nat.not_lt_zero _)
  | succ n ih =>
      obtain ⟨y, hy, harr⟩ := goTo_runs h t
      rcases hhit : y.hit with _ | d
      · -- no hit, and nothing was due
        have htop : Cursor.top y = none := by
          show y.shown = none
          rw [harr.shown, hhit, Option.map_none]
        refine ⟨y, [], hy, Visits.done hhit htop, HitsFrom.nil x.query t, ?_⟩
        intro hplain hsettled d
        exact iff_of_false List.not_mem_nil (harr.not_due hplain hsettled hhit d)
      · have htop : Cursor.top y = some (display heeds es x.query.layout d).1 := by
          show y.shown = _
          rw [harr.shown, hhit, harr.query, Option.map_some]
        obtain ⟨hadmits, hmem⟩ := harr.admits hhit
        -- the visit goes on from right after the hit, and fewer documents are ahead there
        have hless : ahead (posted y.query.layout es y.query.positives) (Target.afterDocument d)
            < n := by
          rw [harr.query]
          exact lt_of_lt_of_le (ahead_lt hmem hadmits) (Nat.le_of_lt_succ hn)
        obtain ⟨z, vs, hz, hvisits, hhits, hall⟩ := ih harr.ready hless
        have hnext : Runs Cursor.next y () z := hz.of_eq (step_of_hit hhit)
        -- `reach` counts all documents that are posted, so it bounds the visits
        have hlen : vs.length < Cursor.reach y := by
          obtain ⟨-, hposted, -⟩ := harr.searched.ready.enough
          have hplacings : 0 < y.placings := Nat.pow_pos (Nat.succ_pos _)
          refine lt_of_lt_of_le ?_ (Nat.le_mul_of_pos_right _ hplacings)
          exact Nat.lt_succ_of_le (le_trans hhits.few (le_trans List.countP_le_length hposted))
        have hhits' : HitsFrom heeds es x.query (Target.afterDocument d) vs := by
          rw [← harr.query]
          exact hhits
        refine ⟨y, _ :: vs, hy, Visits.more hhit htop hnext hlen hvisits,
          hhits'.cons hadmits hmem, ?_⟩
        intro hplain hsettled d'
        have hrest : d' ∈ vs.map Prod.fst
            ↔ Due x.query x.range es (Target.afterDocument d) d' := by
          rw [← harr.query, ← harr.range]
          exact hall hplain (harr.settled hplain hsettled hhit) d'
        rw [List.map_cons, List.mem_cons, hrest]
        exact harr.due_iff hplain hsettled hhit d'

/-! ## Seeks -/

theorem visits_of_seek {x : Intersection σ} (h : Ready heeds es x) {range : Range}
    (hrange : range.isEmpty = false) (families : FamilyFilter) :
    ∃ y vs, Runs (Cursor.seek range families) x () y ∧ Visits y vs
      ∧ HitsFrom heeds es x.query (Target.ofRange x.query.layout range) vs
      ∧ (Plain es → ∀ d, d ∈ vs.map Prod.fst
          ↔ Due x.query range es (Target.ofRange x.query.layout range) d) := by
  obtain ⟨y, vs, hy, hvisits, hhits, hall⟩ :=
    visits_of_goTo (ready_restart h range) (t := Target.ofRange x.query.layout range)
      (Nat.lt_succ_self _)
  refine ⟨y, vs, place_runs ?_, hvisits, hhits, ?_⟩
  · rw [hrange]
    exact hy
  · intro hplain
    exact hall hplain (settled_restart range _ x)

/-- A seek in an empty range visits nothing. -/
theorem seek_of_isEmpty {range : Range} (hrange : range.isEmpty = true) (families : FamilyFilter)
    (x : Intersection σ) :
    Runs (Cursor.seek range families) x () (restart range x) ∧ Visits (restart range x) [] := by
  refine ⟨place_runs ?_, Visits.done rfl rfl⟩
  rw [if_pos hrange]
  exact runs_pure () _

/-! ## Building -/

/-- The intersection as it is built from one copy of the source. -/
def opened (source copied : σ) (q : Query) (env : Environment) : Intersection σ :=
  ⟨q, source, q.positives.map fun term => ⟨term, copied, false⟩,
    q.negatives.map fun term => ⟨term, copied, false⟩, copied, Range.all, none, none, env.account⟩

theorem ofQuery_of_copy {source copied : σ} {env : Environment}
    (h : Cursor.copy env source = .ok copied) (q : Query) :
    ofQuery source q env = .ok (opened source copied q env) := by
  have hprobes : ∀ terms : List Bytes, probesFor env source terms
      = .ok (terms.map fun term => (⟨term, copied, false⟩ : Probe σ)) := by
    intro terms
    refine Parallel.mapM_ok ?_
    rw [List.forall₂_map_right_iff, List.forall₂_same]
    intro term _
    rw [h]
    rfl
  rw [ofQuery, hprobes, hprobes, h]
  rfl

theorem ready_opened {source copied : σ} (hs : Serves source heeds es)
    (hc : Serves copied heeds es) (q : Query) (env : Environment) :
    Ready heeds es (opened source copied q env) := by
  have hteam : ∀ terms : List Bytes,
      Team heeds es terms (terms.map fun term => (⟨term, copied, false⟩ : Probe σ)) := by
    intro terms
    rw [Team, List.forall₂_map_right_iff, List.forall₂_same]
    intro term _
    exact ⟨rfl, hc, fun hplaced => Bool.noConfusion hplaced⟩
  exact ⟨hs, hc, hteam q.positives, hteam q.negatives⟩

/-- An intersection is built for terms of which one at least is asked for. -/
theorem ready_ofTerms {source : σ} (hsource : Serves source heeds es) (layout : Layout)
    {terms : List Bytes} {flags : List Bool} (hterms : terms ≠ [])
    (hflags : flags = [] ∨ flags.length = terms.length)
    (hasks : ∃ t ∈ Query.withFlags terms flags, t.negated = false) (env : Environment) :
    ∃ x, ofTerms source layout terms flags env = .ok x ∧ Ready heeds es x
      ∧ x.query = ⟨layout, Query.withFlags terms flags, hasks⟩ := by
  obtain ⟨c, hc, -⟩ := hsource.lists.copy Reached.here env
  refine ⟨_, ?_, ready_opened hsource (hsource.of_reached (Reached.here.copy env hc))
    ⟨layout, Query.withFlags terms flags, hasks⟩ env, rfl⟩
  rw [ofTerms, Query.ofTerms_ok layout hterms hflags hasks]
  exact ofQuery_of_copy hc _

/-! ## What a query asks for -/

/-- The document is one that a seek of a range is to visit: it has every term asked for and
none that is ruled out, its row is neither before nor after the range, and in the row of a
start key that names a document it is no earlier than that one, or later if the start is
excluded. -/
structure Answers (layout : Layout) (terms : List Query.Term) (es : List Entry) (range : Range)
    (d : Document) : Prop where
  asked : ∀ t ∈ terms, t.negated = false → Posts layout es t.term d
  spared : ∀ t ∈ terms, t.negated = true → ¬ Posts layout es t.term d
  row : range.containsRow d.row = true
  start : ∀ k, range.start = some k → k.row = d.row →
    ∀ id, layout.docId? k = some id → id ≠ [] →
      if range.startInclusive then id ≤ d.id else id < d.id

theorem matches_iff {q : Query} {d : Document} :
    Matches q es d ↔ (∀ t ∈ q.terms, t.negated = false → Posts q.layout es t.term d)
      ∧ ∀ t ∈ q.terms, t.negated = true → ¬ Posts q.layout es t.term d := by
  constructor
  · rintro ⟨hasked, hspared⟩
    refine ⟨?_, ?_⟩
    · intro t ht hnegated
      refine hasked t.term (List.mem_map_of_mem (List.mem_filter.mpr ⟨ht, ?_⟩))
      rw [hnegated]
      rfl
    · intro t ht hnegated
      exact hspared t.term (List.mem_map_of_mem (List.mem_filter.mpr ⟨ht, hnegated⟩))
  · rintro ⟨hasked, hspared⟩
    refine ⟨?_, ?_⟩
    · intro term hterm
      obtain ⟨t, ht, rfl⟩ := List.mem_map.mp hterm
      obtain ⟨hmem, hnegated⟩ := List.mem_filter.mp ht
      rw [Bool.not_eq_true'] at hnegated
      exact hasked t hmem hnegated
    · intro term hterm
      obtain ⟨t, ht, rfl⟩ := List.mem_map.mp hterm
      obtain ⟨hmem, hnegated⟩ := List.mem_filter.mp ht
      exact hspared t hmem hnegated

/-- A search starts in the start row of the range, and if the start key names a document at
that one or right after it. -/
theorem admits_ofRange {layout : Layout} {range : Range} {d : Document} :
    (Target.ofRange layout range).admits d = true
      ↔ range.isBeforeRow d.row = false
        ∧ ∀ k, range.start = some k → k.row = d.row →
          ∀ id, layout.docId? k = some id → id ≠ [] →
            if range.startInclusive then id ≤ d.id else id < d.id := by
  rw [Target.admits_iff, Target.ofRange, Range.isBeforeRow_eq_false_iff]
  rcases hstart : range.start with _ | k
  · -- without a start all rows are reached, from their first documents on
    refine iff_of_true ?_ ⟨fun k hk => absurd hk (by simp), fun k hk => absurd hk (by simp)⟩
    rcases eq_or_lt_of_le (List.nil_le d.row) with heq | hlt
    · exact Or.inr ⟨heq, fun id hid => absurd hid (by simp)⟩
    · exact Or.inl hlt
  · -- a start key that names no document, or the empty one, leaves the row whole
    have hid : (∀ id ∈ ((layout.docId? k).filter (!·.isEmpty)).map fun id =>
          if range.startInclusive then id else id.successor, id ≤ d.id)
        ↔ ∀ id, layout.docId? k = some id → id ≠ [] →
          if range.startInclusive then id ≤ d.id else id < d.id := by
      rcases layout.docId? k with _ | id
      · simp
      · by_cases hempty : id = []
        · simp [hempty]
        · have hfilter : (some id).filter (!·.isEmpty) = some id := by
            rw [Option.filter_some, if_pos]
            rwa [Bool.not_eq_true', ← Bool.not_eq_true, List.isEmpty_iff]
          rw [hfilter]
          by_cases hinclusive : range.startInclusive = true
          · simp [hinclusive, hempty]
          · simp [hinclusive, hempty, Bytes.successor_le_iff]
    simp only [hid, Option.some.injEq, forall_eq']
    constructor
    · rintro (hlt | ⟨heq, hall⟩)
      · exact ⟨le_of_lt hlt, fun hsame => absurd hlt (hsame ▸ lt_irrefl _)⟩
      · exact ⟨le_of_eq heq, fun _ => hall⟩
    · rintro ⟨hle, hall⟩
      rcases lt_or_eq_of_le hle with hlt | heq
      · exact Or.inl hlt
      · exact Or.inr ⟨heq, hall heq⟩

/-- What is due from where a range starts is what the seek is to visit. -/
theorem due_iff_answers {q : Query} {range : Range} {d : Document}
    (hrange : range.isEmpty = false) :
    Due q range es (Target.ofRange q.layout range) d ↔ Answers q.layout q.terms es range d := by
  have hrow : range.containsRow d.row = true
      ↔ range.isBeforeRow d.row = false ∧ range.isAfterRow d.row = false := by
    rw [Range.containsRow_iff, and_iff_right hrange]
  constructor
  · rintro ⟨hmatch, hadmits, hwithin⟩
    obtain ⟨hasked, hspared⟩ := matches_iff.mp hmatch
    obtain ⟨hbefore, hstart⟩ := admits_ofRange.mp hadmits
    exact ⟨hasked, hspared, hrow.mpr ⟨hbefore, hwithin⟩, hstart⟩
  · rintro ⟨hasked, hspared, hcontains, hstart⟩
    obtain ⟨hbefore, hwithin⟩ := hrow.mp hcontains
    exact ⟨matches_iff.mpr ⟨hasked, hspared⟩, admits_ofRange.mpr ⟨hbefore, hstart⟩, hwithin⟩

/-- An intersection visits the answers to its query. Whatever calls came before, a seek leads
through exactly the documents that have the terms asked for and none that is ruled out and
that lie where the range says, each once and in ascending order, and each is shown at the
key of its own column. -/
theorem visits_answers {source : σ} (hsource : Serves source heeds es) (hplain : Plain es)
    (layout : Layout) {terms : List Bytes} {flags : List Bool} (hterms : terms ≠ [])
    (hflags : flags = [] ∨ flags.length = terms.length)
    (hasks : ∃ t ∈ Query.withFlags terms flags, t.negated = false) (env : Environment)
    (calls : List Call) (range : Range) (families : FamilyFilter) :
    ∃ x y vs, ofTerms source layout terms flags env = .ok x
      ∧ Runs (Cursor.seek range families) (after x calls) () y ∧ Visits y vs
      ∧ (∀ d, d ∈ vs.map Prod.fst ↔ Answers layout (Query.withFlags terms flags) es range d)
      ∧ (vs.map Prod.fst).Pairwise (· < ·)
      ∧ (∀ v ∈ vs, v.2.1.row = v.1.row
          ∧ v.2.1.family = (layout.documentKey v.1.row v.1.id).family
          ∧ v.2.1.qualifier = (layout.documentKey v.1.row v.1.id).qualifier)
      ∧ (Scan.scan range families (after x calls)).result = .ok (vs.map Prod.snd) := by
  obtain ⟨x, hbuild, hready, hquery⟩ := ready_ofTerms hsource layout hterms hflags hasks env
  obtain ⟨hthere, hquery'⟩ := ready_after hready calls
  rw [hquery] at hquery'
  by_cases hrange : range.isEmpty = true
  · -- an empty range has no rows, and no search is made in it
    obtain ⟨hseek, hvisits⟩ := seek_of_isEmpty hrange families (after x calls)
    refine ⟨x, _, [], hbuild, hseek, hvisits, ?_, List.Pairwise.nil, ?_, hvisits.leads.scan hseek⟩
    · intro d
      refine iff_of_false List.not_mem_nil ?_
      intro hd
      have hrow := hd.row
      rw [Range.containsRow, hrange] at hrow
      exact Bool.noConfusion hrow
    · intro v hv
      exact absurd hv List.not_mem_nil
  · rw [Bool.not_eq_true] at hrange
    obtain ⟨y, vs, hseek, hvisits, hhits, hall⟩ := visits_of_seek hthere hrange families
    rw [hquery'] at hhits hall
    refine ⟨x, y, vs, hbuild, hseek, hvisits, ?_, hhits.ascending, ?_, hvisits.leads.scan hseek⟩
    · intro d
      rw [hall hplain d]
      exact due_iff_answers hrange
    · intro v hv
      exact display_column hplain layout v.1 (hhits.shown v hv).symm

/-- Postings of the terms `[1]` and `[2]` in one row: the first has the documents `[7]` and
`[8]`, the second has `[8]`. -/
def shelf : Table :=
  Table.ofEntries
    [(⟨[5], [1], [7], [], 0, false⟩, []), (⟨[5], [1], [8], [], 0, false⟩, []),
      (⟨[5], [2], [8], [], 0, false⟩, [])]

/-- The first term without the second: a seek of all leads through document `[7]`, also after
another seek and a step. -/
theorem visits_answers_shelf :
    ∃ x y vs, ofTerms shelf (Layout.standard .termFamily) [[1], [2]] [false, true]
        (Environment.ofAccount 0) = .ok x
      ∧ Runs (Cursor.seek Range.all FamilyFilter.all)
          (after x [.seek Range.all FamilyFilter.all, .next]) () y
      ∧ Visits y vs ∧ ⟨[5], [7]⟩ ∈ vs.map Prod.fst := by
  have hplain : Plain shelf.entries := by
    unfold Plain
    decide +kernel
  have hasks : ∃ t ∈ Query.withFlags [[1], [2]] [false, true], t.negated = false :=
    ⟨⟨[1], false⟩, List.mem_cons_self, rfl⟩
  obtain ⟨x, y, vs, hx, hseek, hvisits, hall, -⟩ :=
    visits_answers (Table.serves shelf) hplain (Layout.standard .termFamily)
      (List.cons_ne_nil [1] [[2]]) (Or.inr rfl) hasks (Environment.ofAccount 0)
      [.seek Range.all FamilyFilter.all, .next] Range.all FamilyFilter.all
  refine ⟨x, y, vs, hx, hseek, hvisits, (hall ⟨[5], [7]⟩).mpr ⟨?_, ?_, rfl, ?_⟩⟩
  · unfold Posts
    decide +kernel
  · unfold Posts
    decide +kernel
  · intro k hk
    exact absurd hk (by simp [Range.all])

end Intersection

end CellScan
