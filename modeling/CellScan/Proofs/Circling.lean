/-
`Circling.lean` -- when the search of an intersection ends.

A probe seeks from key to key, and each seek starts behind the key that the last one stopped
at. So it ends as long as no seek stops before its start, and then the probes end their turns
and the search passes each candidate once: over a bounded source no call on an intersection
goes round in a circle (`Intersection.ends_of_orderly`), however disordered the sources below
are and whatever they fail with.

A filter over a tape out of order stops before the start of a seek: behind an entry that it
passes over there comes an earlier one. Sought there again, the filter stops at that entry
again, and no number of seeks decides the search (`Intersection.look_ledOn`).
-/
import CellScan.Proofs.Draining
import CellScan.Proofs.Search

set_option autoImplicit false

namespace CellScan

open CellScan.Action CellScan.Cursor CellScan.Entry
open List (Forall₂)
open scoped Linear

namespace Probe

variable {σ : Type} [Cursor σ] {s : Search} {es : List Entry} {t : Target} {term : Bytes}
  {p : Probe σ} {n : Nat}

/-! ## A probe -/

/-- A probe for a term upon a cursor that comes to an end. -/
structure Stays (es : List Entry) (term : Bytes) (p : Probe σ) : Prop where
  term : p.term = term
  bounded : Bounded p.cursor es

/-- A seek stops at no entry before its start. -/
theorem ends_seekTo (h : Stays es term p) (start : Key) :
    Ends (Stays es term) (fun _ q => ∀ k, topKey q.cursor = some k → start ≤ k)
      (seekTo s start) p := by
  refine (ends_record _ h).bind fun _ q _ hsame => ?_
  rw [hsame]
  refine ends_look ?_
  have hseek : Ends (fun c => Bounded c es) (fun _ c => ∀ k, topKey c = some k → start ≤ k)
      (Cursor.seek (Range.startingAt start) (FamilyFilter.only (s.layout.postingFamily p.term)))
      p.cursor := by
    refine ⟨h.bounded.of_reached (Reached.here.seek _ _), h.bounded.seek_ends .here _ _, ?_⟩
    intro _ c hc k hk
    obtain ⟨e, he, rfl⟩ := Option.map_eq_some_iff.mp hk
    have hstop := h.bounded.stops .here hc e he
    rw [← Range.contains_startingAt, Range.contains, hstop]
    rfl
  have hmoved : Ends (Stays es term) (fun _ q => ∀ k, topKey q.cursor = some k → start ≤ k)
      (Action.on cursor (fun p c => { p with cursor := c }) (Cursor.seek (Range.startingAt start)
        (FamilyFilter.only (s.layout.postingFamily p.term)))) p :=
    hseek.on (fun _ hc => ⟨h.term, hc⟩) fun _ _ _ hq => hq
  refine hmoved.bind fun _ q hq hstop => ?_
  refine (ends_change (f := fun p : Probe σ => { p with placed := true }) ⟨hq.term, hq.bounded⟩).mono ?_
  rintro _ _ - rfl
  exact hstop

/-- With more seeks than there are entries ahead the search is decided, or a seek fails. -/
theorem ends_look_from (h : Stays es term p) {start : Key} (hrow : t.row ≤ start.row)
    (hn : ahead es start < n) :
    Ends (Stays es term) (fun r _ => Found s es t term r) (look s t n start) p := by
  induction n generalizing p start with
  | zero => omega
  | succ n ih =>
      refine (ends_seekTo h start).bind fun _ q hq hstop => ?_
      refine ends_look ?_
      rcases hk : topKey q.cursor with _ | k
      · exact ends_pure hq fun d hd => absurd hd (by simp)
      · have hstart := hstop k hk
        have hmem : ∃ e ∈ es, e.1 = k := by
          obtain ⟨e, he, rfl⟩ := Option.map_eq_some_iff.mp hk
          exact ⟨e, hq.bounded.tops .here e he, rfl⟩
        have hrowk : t.row ≤ k.row := le_trans hrow (Key.row_le_of_le hstart)
        rcases hj : judge s t q.term (some k) with d | _ | start'
        · refine ends_pure hq fun d' hd' => ?_
          obtain rfl := Option.some.inj hd'
          rw [hq.term] at hj
          exact (wanted_of_judge hmem hrowk hj).1
        · exact ends_pure hq fun d hd => absurd hd (by simp)
        · -- the next seek starts behind the entry that this one stopped at
          obtain ⟨hlt, hrow', -⟩ := @from_of_judge s es t q.term k start' hrowk hj
          have hless := ahead_lt hmem hstart hlt
          exact ih hq hrow' (by omega)

theorem ends_align (h : Stays es term p) (hn : es.length < n) :
    Ends (Stays es term) (fun r _ => Found s es t term r) (align s t n) p := by
  rcases hst : p.standing? s t with _ | d
  · have hahead : ahead es (s.layout.postingKey t.row p.term t.id) < n :=
      lt_of_le_of_lt List.countP_le_length hn
    refine (ends_look_from h (le_refl t.row) hahead).of_eq ?_
    simp only [align, hst]
  · refine (ends_pure (a := some d) h ?_).of_eq (by simp only [align, hst, pure_apply, give_apply])
    rintro d' hd'
    obtain rfl := Option.some.inj hd'
    obtain ⟨-, k, hk, hrow, hid, hadmits, hafter⟩ := standing?_eq_some hst
    obtain ⟨e, he, rfl⟩ := Option.map_eq_some_iff.mp hk
    rw [h.term] at hid
    exact ⟨⟨e, h.bounded.tops .here e he, hrow.symm, hid⟩, hadmits, hafter⟩

/-- What a search comes to that looks on from another key. -/
theorem look_of_lookOn {q : Probe σ} {start start' : Key} (h : Runs (seekTo s start) p () q)
    (hj : judge s t q.term (topKey q.cursor) = .lookOn start') (n : Nat) :
    (look s t (n + 1) start p).result = (look s t n start' q).result := by
  rw [look, (bind_of_ok _ h.result).1, h.state, (bind_of_ok _ rfl).1]
  simp only [Action.look, hj]

theorem ends_askFor (h : Stays es term p) (d : Document) (hn : es.length < n) :
    Ends (Stays es term) (fun _ _ => True) (askFor s n d) p :=
  (ends_align h hn).bind fun _ _ hq _ => ends_pure hq trivial

end Probe

namespace Intersection

open CellScan.Probe

variable {σ : Type} [Cursor σ] {q : Query} {es : List Entry} {x y : Intersection σ} {t : Target}
  {n agreed turn : Nat}

/-! ## The search -/

/-- All cursors of an intersection come to an end. -/
structure Stays (q : Query) (es : List Entry) (x : Intersection σ) : Prop where
  query : x.query = q
  source : Bounded x.source es
  documents : Bounded x.documents es
  positives : Forall₂ (Probe.Stays es) q.positives x.positives
  negatives : Forall₂ (Probe.Stays es) q.negatives x.negatives

theorem Stays.enough (h : Stays q es x) :
    es.length < x.seeks ∧ (posted q.layout es q.positives).length ≤ x.candidates
      ∧ (x.candidates + 1) * q.positives.length < x.situations := by
  have hcount := h.positives.length_eq
  obtain rfl := h.query
  exact enough_of_reach h.source.length_le hcount

/-- A document that one of the terms asked for is posted for, at or after the target. -/
def Candidate (q : Query) (es : List Entry) (t : Target) (d : Document) : Prop :=
  d ∈ posted q.layout es q.positives ∧ t.admits d = true

theorem ends_alignPositive (h : Stays q es x) (turn : Nat) (t : Target) :
    Ends (Stays q es) (fun r _ => ∀ d, r = some d → Candidate q es t d)
      (alignPositive turn t) x := by
  have hitem : Ends (Forall₂ (Probe.Stays es) q.positives)
      (fun r _ => ∀ d, r = some d → Candidate q es t d)
      (onItem turn none (align x.search t x.seeks)) x.positives := by
    refine ends_onItem (P := fun r => ∀ d, r = some d → Candidate q es t d) h.positives ?_ turn
      fun d hd => absurd hd (by simp)
    intro term hterm p hp
    refine (ends_align hp h.enough.1).mono fun r _ _ hfound d hd => ?_
    obtain ⟨hposts, hadmits, -⟩ := hfound d hd
    refine ⟨mem_posted hterm ?_, hadmits⟩
    rwa [← h.query]
  refine Ends.of_eq (hitem.on ?_ fun _ _ _ hr => hr) (alignPositive_apply turn t x)
  exact fun ps hps => ⟨h.query, h.source, h.documents, hps, h.negatives⟩

/-- Either one more probe agrees with every turn, or fewer candidates lie beyond the target. -/
theorem ends_agree (h : Stays q es x) (hagreed : agreed ≤ q.positives.length)
    (hturn : turn < q.positives.length)
    (hlast : agreed = 0 ∨ ∃ d, t = Target.ofDocument d ∧ Candidate q es t d)
    (hn : beyond (posted q.layout es q.positives) t * q.positives.length
      + (q.positives.length - agreed) < n) :
    Ends (Stays q es) (fun r _ => ∀ d, r = some d → Candidate q es t d) (agree n agreed turn t)
      x := by
  induction n generalizing x agreed turn t with
  | zero => omega
  | succ n ih =>
      have hcount : q.positives.length = x.positives.length := h.positives.length_eq
      by_cases hall : agreed = q.positives.length
      · -- the probes agree on the document that the last of them found
        rw [hall, hcount]
        obtain ⟨d, rfl, hd⟩ := hlast.resolve_left (by omega)
        refine (ends_pure (a := some d) h ?_).of_eq (agree_all n turn _)
        rintro d' hd'
        rwa [← Option.some.inj hd']
      · refine Ends.of_eq ?_ (agree_succ n agreed turn t (hcount ▸ hall))
        refine (ends_alignPositive h turn t).bind fun r y hy hr => ?_
        rcases r with _ | d
        · exact ends_pure hy fun d hd => absurd hd (by simp)
        · obtain ⟨hmem, hadmits⟩ := hr d rfl
          have hself : (Target.ofDocument d).admits d = true :=
            (Target.admits_ofDocument d d).mpr (le_refl d)
          have hagreed' : (if t.document? = some d then agreed + 1 else 1) ≤ q.positives.length := by
            split <;> omega
          have hn' := turns_lt hmem hadmits (lt_of_le_of_ne hagreed hall) hn
          rw [← hcount]
          refine (ih hy hagreed' (Nat.mod_lt _ (by omega)) (Or.inr ⟨d, rfl, hmem, hself⟩) hn').mono ?_
          intro r' _ _ hr' d' hd'
          obtain ⟨hmem', hadmits'⟩ := hr' d' hd'
          exact ⟨hmem', Target.admits_of_ofDocument hadmits hadmits'⟩

theorem ends_isRuledOut (h : Stays q es x) (d : Document) :
    Ends (Stays q es) (fun _ _ => True) (isRuledOut d) x := by
  have hany : Ends (Forall₂ (Probe.Stays es) q.negatives) (fun _ _ => True)
      (anyItem (askFor x.search x.seeks d)) x.negatives :=
    ends_anyItem h.negatives fun _ _ _ hp => ends_askFor hp d h.enough.1
  refine Ends.of_eq (hany.on ?_ fun _ _ _ _ => trivial) (isRuledOut_apply d x)
  exact fun ps hps => ⟨h.query, h.source, h.documents, h.positives, hps⟩

/-- Each candidate that is ruled out is left behind for good. -/
theorem ends_nextHit (h : Stays q es x) (hn : ahead (posted q.layout es q.positives) t < n) :
    Ends (Stays q es) (fun _ _ => True) (nextHit n t) x := by
  induction n generalizing x t with
  | zero => omega
  | succ n ih =>
      refine Ends.of_eq ?_ (nextHit_succ n t x)
      obtain ⟨-, hposted, hturns⟩ := h.enough
      have hfirst := ends_agree h (Nat.zero_le _) (positives_ne_nil q) (Or.inl rfl) (t := t)
        (n := x.situations) (by
          refine lt_of_le_of_lt ?_ hturns
          rw [Nat.add_mul, Nat.one_mul, Nat.sub_zero]
          exact Nat.add_le_add_right
            (Nat.mul_le_mul_right _ (le_trans List.countP_le_length hposted)) _)
      refine hfirst.bind fun r y hy hr => ?_
      rcases r with _ | d
      · exact ends_pure hy trivial
      · obtain ⟨hmem, hadmits⟩ := hr d rfl
        refine (ends_isRuledOut hy d).bind fun ruledOut z hz _ => ?_
        have hless := ahead_lt hmem hadmits
        split
        · exact ih hz (by omega)
        · exact ends_pure hz trivial

/-! ## Calls -/

theorem ends_fetch (h : Stays q es x) (d : Document) :
    Ends (Stays q es) (fun _ _ => True) (fetch d) x := by
  refine ends_look ?_
  have hseek : ∀ range families, Ends (Stays q es) (fun _ _ => True)
      (Action.on documents (fun (x : Intersection σ) c => { x with documents := c })
        (Cursor.seek range families)) x := by
    intro range families
    refine Ends.on (I := fun c => Bounded c es) (Q := fun _ _ => True)
      ⟨h.documents.of_reached (Reached.here.seek _ _), h.documents.seek_ends .here _ _,
        fun _ => trivial⟩ ?_ fun _ _ _ _ => trivial
    exact fun c hc => ⟨h.query, h.source, hc, h.positives, h.negatives⟩
  refine (hseek _ _).bind fun _ y hy _ => ends_look ?_
  rcases Cursor.top y.documents with _ | entry
  · exact ends_pure hy trivial
  · exact ends_pure hy trivial

theorem ends_stand (h : Stays q es x) (d : Document) :
    Ends (Stays q es) (fun _ _ => True) (stand d) x := by
  refine (ends_fetch h d).bind ?_
  rintro ⟨entry, fetched⟩ y hy -
  refine ends_look ((ends_record _ hy).bind ?_)
  rintro _ _ - rfl
  exact (ends_change (f := fun x : Intersection σ => { x with hit := some d, shown := some entry })
    ⟨hy.query, hy.source, hy.documents, hy.positives, hy.negatives⟩).mono fun _ _ _ _ => trivial

theorem ends_goTo (h : Stays q es x) (t : Target) :
    Ends (Stays q es) (fun _ _ => True) (goTo t) x := by
  refine (ends_change (f := fun x : Intersection σ => { x with hit := none, shown := none })
    (I := Stays q es) ⟨h.query, h.source, h.documents, h.positives, h.negatives⟩).bind ?_
  rintro _ y hy -
  refine ends_look ?_
  obtain ⟨-, hposted, hturns⟩ := hy.enough
  have hahead : ahead (posted q.layout es q.positives) t < y.situations := by
    have hle : ahead (posted q.layout es q.positives) t ≤ y.candidates :=
      le_trans List.countP_le_length hposted
    have hmul := Nat.le_mul_of_pos_right (y.candidates + 1) (positives_ne_nil q)
    omega
  refine (ends_nextHit hy hahead).bind fun r z hz _ => ?_
  rcases r with _ | d
  · exact ends_pure hz trivial
  · exact ends_stand hz d

theorem stays_unplaced {terms : List Bytes} {ps : List (Probe σ)}
    (h : Forall₂ (Probe.Stays es) terms ps) : Forall₂ (Probe.Stays es) terms (unplaced ps) := by
  rw [unplaced, List.forall₂_map_right_iff]
  exact h.imp fun _ _ hp => ⟨hp.term, hp.bounded⟩

theorem ends_place (h : Stays q es x) (range : Range) :
    Ends (Stays q es) (fun _ _ => True) (place range) x := by
  refine ends_look ((ends_record _ h).bind ?_)
  rintro _ _ - rfl
  refine (ends_change (f := fun x : Intersection σ =>
    { x with range, hit := none, shown := none, positives := unplaced x.positives,
             negatives := unplaced x.negatives }) (I := Stays q es) ?_).bind ?_
  · exact ⟨h.query, h.source, h.documents, stays_unplaced h.positives, stays_unplaced h.negatives⟩
  · rintro _ y hy -
    refine ends_look ?_
    split
    · exact ends_pure hy trivial
    · exact ends_goTo hy _

theorem ends_step (h : Stays q es x) : Ends (Stays q es) (fun _ _ => True) step x := by
  rcases hhit : x.hit with _ | d
  · have hfail : Ends (Stays q es) (fun (_ : Unit) _ => True) (fail .nothingToLeave) x :=
      ends_fail h (by simp)
    exact hfail.of_eq (by simp only [step, hhit])
  · have hgo := ends_goTo (x := { x with hit := none })
      ⟨h.query, h.source, h.documents, h.positives, h.negatives⟩ (Target.afterDocument d)
    refine ⟨?_, ?_, fun _ => trivial⟩
    · have hkeeps := hgo.keeps
      simpa only [step, hhit] using hkeeps
    · have hends := hgo.ends
      simpa only [step, hhit] using hends

/-! ## Built upon a source -/

theorem stays_probesFor {source : σ} {env : Environment} {terms : List Bytes} {ps : List (Probe σ)}
    (hs : Bounded source es) (h : probesFor env source terms = .ok ps) :
    Forall₂ (Probe.Stays es) terms ps := by
  refine (Parallel.of_mapM_ok h).imp fun term p hp => ?_
  rcases hc : Cursor.copy env source with fault | c
  · rw [hc] at hp
    exact Except.noConfusion rfl rfl (heq_of_eq hp)
  · rw [hc] at hp
    obtain rfl := Except.ok.inj hp
    exact ⟨rfl, hs.of_reached (Reached.here.copy env hc)⟩

/-- An intersection is built where all the copies it needs succeed. -/
theorem exists_of_ofQuery {source : σ} {env : Environment} (h : ofQuery source q env = .ok x) :
    ∃ ps ns c, probesFor env source q.positives = .ok ps ∧ probesFor env source q.negatives = .ok ns
      ∧ Cursor.copy env source = .ok c
      ∧ x = ⟨q, source, ps, ns, c, Range.all, none, none, env.account⟩ := by
  rw [ofQuery] at h
  rcases hps : probesFor env source q.positives with fault | ps
  · rw [hps] at h
    exact Except.noConfusion rfl rfl (heq_of_eq h)
  · rcases hns : probesFor env source q.negatives with fault | ns
    · rw [hps, hns] at h
      exact Except.noConfusion rfl rfl (heq_of_eq h)
    · rcases hc : Cursor.copy env source with fault | c
      · rw [hps, hns, hc] at h
        exact Except.noConfusion rfl rfl (heq_of_eq h)
      · rw [hps, hns, hc] at h
        exact ⟨ps, ns, c, rfl, rfl, rfl, (Except.ok.inj h).symm⟩

theorem stays_of_ofQuery {source : σ} {env : Environment} (hs : Bounded source es)
    (h : ofQuery source q env = .ok x) : Stays q es x := by
  obtain ⟨ps, ns, c, hps, hns, hc, rfl⟩ := exists_of_ofQuery h
  exact ⟨rfl, hs, hs.of_reached (Reached.here.copy env hc), stays_probesFor hs hps,
    stays_probesFor hs hns⟩

theorem stays_of_reached (h : Stays q es x) (hy : Reached x y) : Stays q es y := by
  induction hy with
  | here => exact h
  | seek range families _ ih => exact (ends_place ih range).keeps
  | next _ ih => exact (ends_step ih).keeps
  | @copy y z env _ hcopy ih =>
      -- a copy is built upon a copy of the source
      have hbuilt : ((Cursor.copy env y.source).bind fun source => ofQuery source y.query env)
          = .ok z := hcopy
      rcases hc : Cursor.copy env y.source with fault | source
      · rw [hc] at hbuilt
        exact Except.noConfusion rfl rfl (heq_of_eq hbuilt)
      · rw [hc, ih.query] at hbuilt
        exact stays_of_ofQuery (ih.source.of_reached (Reached.here.copy env hc)) hbuilt

/-- Over a stack of merges and filters in which no filter stands upon what leads back, every
call on an intersection ends: with a hit, at the end, or with a failure that is not that of
going round in a circle. -/
theorem ends_of_orderly {rises : Bool} {n : Nat} {s : Stack σ n} (hs : Stack.Orderly rises n s)
    {q : Query} {env : Environment} {x y : Intersection (Stack σ n)}
    (hx : ofQuery s q env = .ok x) (hy : Reached x y) (range : Range) (families : FamilyFilter) :
    (Cursor.seek range families y).result ≠ .error .endless
      ∧ (Cursor.next y).result ≠ .error .endless := by
  obtain ⟨⟨es, hes⟩, -⟩ := Stack.bounded_of_orderly hs
  have hstays := stays_of_reached (stays_of_ofQuery hes hx) hy
  exact ⟨(ends_place hstays range).ends, (ends_step hstays).ends⟩

/-! ### A filter upon a tape out of order -/

/-- The term that is looked for. -/
def lookedFor : Query := ⟨Layout.standard .termFamily, [⟨[116], false⟩], by decide⟩

/-- A tape whose first entry belongs behind its second. -/
def shuffled : Source :=
  .tape (Tape.ofEntries
    [(⟨[98], [100], [], [], 0, false⟩, []), (⟨[97], [122], [], [], 0, false⟩, [])] none true)

/-- The filter that passes over the first of the two entries. -/
def passingOver {n : Nat} (s : Stack Source n) : Stack Source (n + 1) :=
  Layer.filter
    (Filter.ofPredicates s [.families (FamilyFilter.only [122])] (Environment.ofAccount 0))

/-- The same with a merge between the filter and the tape. -/
def sortedFirst : Stack Source 2 :=
  passingOver (Layer.merge (Merge.ofChildren [(shuffled : Stack Source 0)] false none))

theorem ends_of_orderly_sortedFirst : ∃ x,
    ofQuery sortedFirst lookedFor (Environment.ofAccount 0) = .ok x
      ∧ (Cursor.seek Range.all FamilyFilter.all x).result ≠ .error .endless
      ∧ (Cursor.next x).result ≠ .error .endless := by
  have htape : Stack.Orderly false 0 (shuffled : Stack Source 0) := Stack.orderly_tape (by simp)
  have horderly : Stack.Orderly true 2 sortedFirst :=
    .filter _ _ (.merge false none (List.forall_mem_singleton.mpr htape))
  obtain ⟨x, hx⟩ : ∃ x, ofQuery sortedFirst lookedFor (Environment.ofAccount 0) = .ok x := ⟨_, rfl⟩
  exact ⟨x, hx, ends_of_orderly horderly hx .here Range.all FamilyFilter.all⟩

/-- The probe for the term, upon the filter upon the tape. -/
def ledBack : Probe (Stack Source 1) := ⟨[116], passingOver (n := 0) shuffled, false⟩

/-- A search for the term. -/
def forTerm : Probe.Search := ⟨lookedFor.layout, Range.all, 0⟩

/-- Where the postings begin in the row behind that of the entry accepted. -/
def onward : Key := lookedFor.layout.postingKey [97, 0] [116] none

/-- The probe once it has been sought from there. -/
def ledOn : Probe (Stack Source 1) := (seekTo forTerm onward ledBack).state

/-- Sought from there again it stops where it stands, and is to be sought from there again. -/
theorem look_ledOn (n : Nat) :
    (look forTerm ⟨[], none⟩ n onward ledOn).result = .error .endless := by
  have hseek : Runs (seekTo forTerm onward) ledOn () ledOn := ⟨_, rfl⟩
  have hjudge : judge forTerm ⟨[], none⟩ [116] (topKey ledOn.cursor) = .lookOn onward := rfl
  induction n with
  | zero => rfl
  | succ n ih => rw [look_of_lookOn hseek hjudge, ih]

/-- Right upon the tape the filter stops before the start of a seek, so the intersection goes
round in a circle: no number of seeks decides the search for the term. -/
theorem circles_shuffled : ∃ x,
    ofQuery (passingOver (n := 0) shuffled) lookedFor (Environment.ofAccount 0) = .ok x
      ∧ x.positives = [ledBack]
      ∧ (Cursor.seek Range.all FamilyFilter.all x).result = .error .endless
      ∧ ∀ n, (align x.search (Target.ofRange x.query.layout Range.all) n ledBack).result
          = .error .endless := by
  refine ⟨_, rfl, rfl, by decide +kernel, ?_⟩
  intro n
  -- from the first row on, and then from behind the entry accepted
  have hfirst : Runs (seekTo forTerm (lookedFor.layout.postingKey [] [116] none)) ledBack ()
      (seekTo forTerm (lookedFor.layout.postingKey [] [116] none) ledBack).state := ⟨_, rfl⟩
  have hsecond : Runs (seekTo forTerm onward)
      (seekTo forTerm (lookedFor.layout.postingKey [] [116] none) ledBack).state () ledOn := ⟨_, rfl⟩
  have hon : judge forTerm ⟨[], none⟩ [116] (topKey
      (seekTo forTerm (lookedFor.layout.postingKey [] [116] none) ledBack).state.cursor)
        = .lookOn onward := rfl
  have hagain : judge forTerm ⟨[], none⟩ [116] (topKey ledOn.cursor) = .lookOn onward := rfl
  show (look forTerm ⟨[], none⟩ n (lookedFor.layout.postingKey [] [116] none) ledBack).result = _
  rcases n with _ | _ | n
  · rfl
  · rw [look_of_lookOn hfirst hon]
    rfl
  · rw [look_of_lookOn hfirst hon, look_of_lookOn hsecond hagain]
    exact look_ledOn n

end Intersection

end CellScan
