/-
`Stages.lean` -- stages upon cursors in step are in step.

Each kind of stage has a relation `Twin` that says where two stages of that kind are in the
same place upon related cursors: the same query, queue or predicates, and part by part
cursors that are related. Its operations are in step from such a state, from the innermost
loop to the calls of a reader. A second relation, `Apart`, leaves out all that a seek puts
aside: where the stages stand, and what is queued or remembered. From there a seek brings
them together (`Intersection.joining`, `Merge.joining`, `Filter.joining`). Layer upon layer
this gives whole stacks (`Stack.exists_joining`, and `Stack.lockstep` for stacks that stand
together from the start).

An intersection seeks the cursors below it and never steps them on, so it asks less of them
(`Meeting`) than the other stages do.
-/
import CellScan.Proofs.Filter
import CellScan.Proofs.Intersection
import CellScan.Proofs.Lockstep
import CellScan.Proofs.Merge
import CellScan.Stack

set_option autoImplicit false

namespace CellScan

open CellScan.Action CellScan.Cursor
open List (Forall₂)

/-! ## Probes -/

namespace Probe

/-- Two searches that differ in nothing but the account they are counted on. -/
def Search.Alike (s s' : Search) : Prop := s.layout = s'.layout ∧ s.range = s'.range

variable {σ τ : Type} [Cursor σ] [Cursor τ] {E : Excuses} {A R : σ → τ → Prop} {s s' : Search}
  {t : Target} {p : Probe σ} {q : Probe τ}

/-- Two probes for one term. -/
structure Apart (A : σ → τ → Prop) (p : Probe σ) (q : Probe τ) : Prop where
  term : p.term = q.term
  cursor : A p.cursor q.cursor

/-- Two probes for one term that stand together if they have been placed. -/
structure Twin (A R : σ → τ → Prop) (p : Probe σ) (q : Probe τ) : Prop extends Apart A p q where
  placed : p.placed = q.placed
  together : q.placed = true → R p.cursor q.cursor

theorem judge_eq (hs : s.Alike s') (t : Target) : judge s t = judge s' t := by
  obtain ⟨layout, range, account⟩ := s
  obtain ⟨layout', range', account'⟩ := s'
  obtain ⟨rfl, rfl⟩ := hs
  rfl

theorem inStep_seekTo (h : Meeting E A R) (hs : s.Alike s') (hpq : Apart A p q) (start : Key) :
    InStep E (fun p q => Twin A R p q ∧ R p.cursor q.cursor) (seekTo s start) p (seekTo s' start)
      q := by
  refine (inStep_record hpq _ _).bind fun _ p q hpq => inStep_look ?_
  rw [hpq.term, hs.1]
  have hsought := h.seek hpq.cursor (Range.startingAt start)
    (FamilyFilter.only (s'.layout.postingFamily q.term))
  refine InStep.bind (R := Apart R) (hsought.on fun _ _ hcd => ⟨hpq.term, hcd⟩) fun _ p q hpq => ?_
  exact inStep_change
    ⟨⟨⟨hpq.term, h.apart hpq.cursor⟩, rfl, fun _ => hpq.cursor⟩, hpq.cursor⟩

theorem look_succ (n : Nat) (start : Key) (p : Probe σ) :
    look s t (n + 1) start p
      = (do
          seekTo s start
          match ← Action.look fun p => judge s t p.term (topKey p.cursor) with
          | .posting document => pure (some document)
          | .nothing => pure none
          | .lookOn start => look s t n start) p := rfl

/-- A search leaves the probes together. -/
theorem inStep_seeks (h : Meeting E A R) (hs : s.Alike s') (hpq : Apart A p q) {n m : Nat}
    (hn : E.Turns n m) (start : Key) :
    InStep E (Twin A R) (look s t n start) p (look s' t m start) q := by
  induction n generalizing m start p q with
  | zero => exact inStep_spent hn rfl (by rintro rfl; rfl)
  | succ n ih =>
      rcases m with _ | m
      · exact InStep.right rfl hn.right_of_zero
      · refine InStep.of_eq ?_ (look_succ n start p) (look_succ m start q)
        refine (inStep_seekTo h hs hpq start).bind fun _ p q hpq => inStep_look ?_
        rw [hpq.1.term, h.topKey hpq.2, judge_eq hs]
        rcases judge s' t q.term (topKey q.cursor) with d | _ | start'
        · exact inStep_pure hpq.1 (some d)
        · exact inStep_pure hpq.1 none
        · exact ih hpq.1.toApart hn.pred start'

theorem standing?_eq (h : Meeting E A R) (hs : s.Alike s') (hpq : Twin A R p q) :
    p.standing? s t = q.standing? s' t := by
  rw [standing?, standing?, hpq.placed, hpq.term, hs.1, hs.2]
  by_cases hplaced : q.placed = true
  · rw [h.topKey (hpq.together hplaced)]
  · simp only [if_neg hplaced]

theorem inStep_align (h : Meeting E A R) (hs : s.Alike s') (hpq : Twin A R p q) {n m : Nat}
    (hn : E.Turns n m) : InStep E (Twin A R) (align s t n) p (align s' t m) q := by
  rcases hst : q.standing? s' t with _ | d
  · have hst' : p.standing? s t = none := (standing?_eq h hs hpq).trans hst
    have hlook := inStep_seeks (t := t) h hs hpq.toApart hn (s.layout.postingKey t.row p.term t.id)
    refine hlook.of_eq ?_ ?_
    · simp only [align, hst']
    · simp only [align, hst, hpq.term, hs.1]
  · have hst' : p.standing? s t = some d := (standing?_eq h hs hpq).trans hst
    refine (inStep_pure hpq (some d)).of_eq ?_ ?_
    · simp only [align, hst', give_apply, pure_apply]
    · simp only [align, hst, give_apply, pure_apply]

theorem inStep_askFor (h : Meeting E A R) (hs : s.Alike s') (hpq : Twin A R p q) {n m : Nat}
    (hn : E.Turns n m) (d : Document) :
    InStep E (Twin A R) (askFor s n d) p (askFor s' m d) q :=
  (inStep_align h hs hpq hn).bind fun found _ _ hpq => inStep_pure hpq (found == some d)

end Probe

/-! ## Intersections -/

namespace Intersection

open CellScan.Probe

variable {σ τ : Type} [Cursor σ] [Cursor τ] {E : Excuses} {A R : σ → τ → Prop}
  {x : Intersection σ} {y : Intersection τ}

/-- Two intersections for one query, wherever they stand. -/
structure Apart (E : Excuses) (A : σ → τ → Prop) (x : Intersection σ) (y : Intersection τ) :
    Prop where
  query : x.query = y.query
  turns : E.Turns (Cursor.reach x.source) (Cursor.reach y.source)
  positives : Forall₂ (Probe.Apart A) x.positives y.positives
  negatives : Forall₂ (Probe.Apart A) x.negatives y.negatives
  documents : A x.documents y.documents

/-- Two intersections for one query in the same place upon related cursors. -/
structure Twin (E : Excuses) (A R : σ → τ → Prop) (x : Intersection σ) (y : Intersection τ) :
    Prop where
  query : x.query = y.query
  range : x.range = y.range
  turns : E.Turns (Cursor.reach x.source) (Cursor.reach y.source)
  positives : Forall₂ (Probe.Twin A R) x.positives y.positives
  negatives : Forall₂ (Probe.Twin A R) x.negatives y.negatives
  documents : A x.documents y.documents
  hit : x.hit = y.hit
  shown : x.shown = y.shown

/-- How long a search can take is counted from `reach` and the number of probes. -/
theorem Apart.counted (hxy : Apart E A x y) :
    E.Turns x.situations y.situations
      ∧ E.Turns ((x.candidates + 1) * x.placings) ((y.candidates + 1) * y.placings) := by
  unfold situations candidates placings
  rw [hxy.positives.length_eq, hxy.negatives.length_eq]
  generalize y.positives.length = p
  generalize y.negatives.length = n
  constructor
  · exact hxy.turns.map fun r =>
      (2 * ((p + n) * r) + 1) * ((p + 1) * (p + 1)) * Nat.pow (r + 2) (p + n) + 1
  · exact hxy.turns.map fun r => ((p + n) * r + 1) * Nat.pow (r + 2) (p + n)

namespace Twin

theorem apart (hxy : Twin E A R x y) : Apart E A x y where
  query := hxy.query
  turns := hxy.turns
  positives := hxy.positives.imp fun _ _ hpq => hpq.toApart
  negatives := hxy.negatives.imp fun _ _ hpq => hpq.toApart
  documents := hxy.documents

theorem search (hxy : Twin E A R x y) : x.search.Alike y.search :=
  ⟨congrArg Query.layout hxy.query, hxy.range⟩

theorem seeks (hxy : Twin E A R x y) : E.Turns x.seeks y.seeks := hxy.turns.map (· + 2)

theorem counted (hxy : Twin E A R x y) : E.Turns x.situations y.situations := hxy.apart.counted.1

end Twin

theorem inStep_alignPositive (h : Meeting E A R) (hxy : Twin E A R x y) (turn : Nat)
    (t : Target) : InStep E (Twin E A R) (alignPositive turn t) x (alignPositive turn t) y := by
  have hitem : InStep E (Forall₂ (Probe.Twin A R))
      (Action.onItem turn none (align x.search t x.seeks)) x.positives
      (Action.onItem turn none (align y.search t y.seeks)) y.positives :=
    inStep_onItem hxy.positives
      (fun _ _ hpq => inStep_align h hxy.search hpq hxy.seeks) turn none
  refine (hitem.on ?_).of_eq (alignPositive_apply turn t x) (alignPositive_apply turn t y)
  exact fun _ _ hall => { hxy with positives := hall }

theorem inStep_agree (h : Meeting E A R) (hxy : Twin E A R x y) {n m : Nat} (hn : E.Turns n m)
    (agreed turn : Nat) (t : Target) :
    InStep E (Twin E A R) (agree n agreed turn t) x (agree m agreed turn t) y := by
  induction n generalizing m agreed turn t x y with
  | zero => exact inStep_spent hn rfl (by rintro rfl; rfl)
  | succ n ih =>
      rcases m with _ | m
      · exact InStep.right rfl hn.right_of_zero
      · have hcount : x.positives.length = y.positives.length := hxy.positives.length_eq
        by_cases hall : agreed = x.positives.length
        · refine (inStep_pure hxy t.document?).of_eq ?_ ?_
          · rw [hall]
            exact agree_all n turn t
          · rw [hall, hcount]
            exact agree_all m turn t
        · refine InStep.of_eq ?_ (agree_succ n agreed turn t hall)
            (agree_succ m agreed turn t (hcount ▸ hall))
          refine (inStep_alignPositive h hxy turn t).bind fun r x' y' hxy' => ?_
          rcases r with _ | d
          · exact inStep_pure hxy' none
          · rw [hcount]
            exact ih hxy' hn.pred _ _ _

theorem inStep_isRuledOut (h : Meeting E A R) (hxy : Twin E A R x y) (d : Document) :
    InStep E (Twin E A R) (isRuledOut d) x (isRuledOut d) y := by
  have hany : InStep E (Forall₂ (Probe.Twin A R))
      (Action.anyItem (askFor x.search x.seeks d)) x.negatives
      (Action.anyItem (askFor y.search y.seeks d)) y.negatives :=
    inStep_anyItem hxy.negatives fun _ _ hpq => inStep_askFor h hxy.search hpq hxy.seeks d
  refine (hany.on ?_).of_eq (isRuledOut_apply d x) (isRuledOut_apply d y)
  exact fun _ _ hall => { hxy with negatives := hall }

theorem inStep_nextHit (h : Meeting E A R) (hxy : Twin E A R x y) {n m : Nat} (hn : E.Turns n m)
    (t : Target) : InStep E (Twin E A R) (nextHit n t) x (nextHit m t) y := by
  induction n generalizing m t x y with
  | zero => exact inStep_spent hn rfl (by rintro rfl; rfl)
  | succ n ih =>
      rcases m with _ | m
      · exact InStep.right rfl hn.right_of_zero
      · refine InStep.of_eq ?_ (nextHit_succ n t x) (nextHit_succ m t y)
        refine (inStep_agree h hxy hxy.counted 0 0 t).bind fun r x y hxy => ?_
        rcases r with _ | d
        · exact inStep_pure hxy none
        · refine (inStep_isRuledOut h hxy d).bind fun ruledOut x y hxy => ?_
          by_cases hout : ruledOut = true
          · rw [if_pos hout, if_pos hout]
            exact ih hxy hn.pred _
          · rw [if_neg hout, if_neg hout]
            exact inStep_pure hxy (some d)

theorem inStep_fetch (h : Meeting E A R) (hxy : Twin E A R x y) (d : Document) :
    InStep E (Twin E A R) (fetch d) x (fetch d) y := by
  refine inStep_look ?_
  rw [hxy.query]
  refine InStep.bind (R := fun x y => Twin E A R x y ∧ R x.documents y.documents)
    ((h.seek hxy.documents _ _).on fun _ _ hcd => ?_) fun _ x y hxy => inStep_look ?_
  · exact ⟨{ hxy with documents := h.apart hcd }, hcd⟩
  · rw [h.top hxy.2]
    rcases Cursor.top y.documents with _ | e
    · exact inStep_pure hxy.1 _
    · exact inStep_pure hxy.1 _

theorem inStep_stand (h : Meeting E A R) (hxy : Twin E A R x y) (d : Document) :
    InStep E (Twin E A R) (stand d) x (stand d) y := by
  refine (inStep_fetch h hxy d).bind fun shown x y hxy => inStep_look ?_
  refine (inStep_record hxy _ _).bind fun _ x y hxy => inStep_change ?_
  exact { hxy with hit := rfl, shown := rfl }

theorem inStep_goTo (h : Meeting E A R) (hxy : Twin E A R x y) (t : Target) :
    InStep E (Twin E A R) (goTo t) x (goTo t) y := by
  have hcleared : Twin E A R { x with hit := none, shown := none }
      { y with hit := none, shown := none } := { hxy with hit := rfl, shown := rfl }
  refine InStep.bind (inStep_change hcleared) fun _ x y hxy => inStep_look ?_
  refine (inStep_nextHit h hxy hxy.counted t).bind fun r x y hxy => ?_
  rcases r with _ | d
  · exact inStep_pure hxy ()
  · exact inStep_stand h hxy d

omit [Cursor σ] [Cursor τ] in
theorem twin_unplaced {ps : List (Probe σ)} {qs : List (Probe τ)}
    (h : Forall₂ (Probe.Apart A) ps qs) : Forall₂ (Probe.Twin A R) (unplaced ps) (unplaced qs) := by
  rw [unplaced, unplaced, List.forall₂_map_left_iff, List.forall₂_map_right_iff]
  exact h.imp fun _ _ hpq => ⟨⟨hpq.term, hpq.cursor⟩, rfl, fun h => Bool.noConfusion h⟩

/-- A seek brings intersections together, since it forgets where their probes stand. -/
theorem inStep_place (h : Meeting E A R) (hxy : Apart E A x y) (range : Range) :
    InStep E (Twin E A R) (place range) x (place range) y := by
  refine inStep_look ((inStep_record hxy _ _).bind fun _ x y hxy => ?_)
  have hstart : Twin E A R (restart range x) (restart range y) :=
    { query := hxy.query
      range := rfl
      turns := hxy.turns
      positives := twin_unplaced hxy.positives
      negatives := twin_unplaced hxy.negatives
      documents := hxy.documents
      hit := rfl
      shown := rfl }
  refine InStep.bind (inStep_change hstart) fun _ x y hxy => inStep_look ?_
  rw [hxy.query]
  by_cases hempty : range.isEmpty = true
  · rw [if_pos hempty, if_pos hempty]
    exact inStep_pure hxy ()
  · rw [if_neg hempty, if_neg hempty]
    exact inStep_goTo h hxy _

theorem inStep_step (h : Meeting E A R) (hxy : Twin E A R x y) : InStep E (Twin E A R) step x step y := by
  rcases hhit : y.hit with _ | d
  · exact (inStep_fail .nothingToLeave x y).of_eq (step_of_none (hxy.hit.trans hhit))
      (step_of_none hhit)
  · have hcleared : Twin E A R { x with hit := none } { y with hit := none } :=
      { hxy with hit := rfl }
    exact (inStep_goTo h hcleared _).of_eq (step_of_hit (hxy.hit.trans hhit)) (step_of_hit hhit)

/-- Intersections upon cursors that a seek brings together are brought together by one. -/
theorem joining (h : Meeting E A R) : Joining E (Apart E A) (Twin E A R) where
  top hxy := hxy.shown
  apart hxy := hxy.apart
  turns hxy := hxy.counted.2
  seek hxy range _ := inStep_place h hxy range
  next hxy := inStep_step h hxy

end Intersection

/-! ## Merges -/

namespace Merge

variable {σ τ : Type} [Cursor σ] [Cursor τ] {E : Excuses} {A R : σ → τ → Prop} {m : Merge σ}
  {n : Merge τ}

/-- Two merges of as many children, wherever they stand. -/
structure Apart (A : σ → τ → Prop) (m : Merge σ) (n : Merge τ) : Prop where
  children : Forall₂ A m.children n.children
  dedupe : m.dedupe = n.dedupe

/-- Two merges with one queue upon related children. -/
structure Twin (R : σ → τ → Prop) (m : Merge σ) (n : Merge τ) : Prop where
  children : Forall₂ R m.children n.children
  queue : m.queue = n.queue
  dedupe : m.dedupe = n.dedupe

theorem queueOf_eq (h : Meeting E A R) {cs : List σ} {ds : List τ} (hcs : Forall₂ R cs ds) :
    queueOf cs = queueOf ds := by
  have hheads : ∀ i, (cs.zipIdx i).filterMap (fun c => (topKey c.1).map fun k => Head.mk k c.2)
      = (ds.zipIdx i).filterMap fun d => (topKey d.1).map fun k => Head.mk k d.2 := by
    induction hcs with
    | nil => exact fun _ => rfl
    | @cons c d cs ds hcd _ ih =>
        intro i
        simp only [List.zipIdx_cons, List.filterMap_cons, h.topKey hcd, ih]
  exact congrArg (SortedList.insertAllBy id · []) (hheads 0)

theorem childKey_eq (h : Meeting E A R) (hmn : Twin R m n) (child : Nat) :
    m.childKey child = n.childKey child :=
  Parallel.bind_getElem? hmn.children (fun _ _ hcd => h.topKey hcd) child

/-- A seek brings merges together, whatever their queues. -/
theorem inStep_place (h : Meeting E A R) (hmn : Apart A m n) (range : Range)
    (families : FamilyFilter) :
    InStep E (Twin R) (place range families) m (place range families) n := by
  have hcleared : Apart A { m with queue := [] } { n with queue := [] } := ⟨hmn.children, hmn.dedupe⟩
  refine InStep.bind (inStep_change hcleared) fun _ m n hmn => ?_
  have hseeks := inStep_onEach hmn.children fun _ _ hcd => h.seek hcd range families
  refine InStep.bind (R := Apart R) (hseeks.on fun _ _ hall => ⟨hall, hmn.dedupe⟩)
    fun _ m n hmn => inStep_change ?_
  exact ⟨hmn.children, queueOf_eq h hmn.children, hmn.dedupe⟩

theorem inStep_passRepeats (h : Joining E A R) (key : Key) {s : σ} {t : τ} (hst : R s t)
    {k l : Nat} (hk : E.Turns k l) : InStep E R (passRepeats key k) s (passRepeats key l) t := by
  induction k generalizing l s t with
  | zero => exact inStep_spent hk rfl (by rintro rfl; rfl)
  | succ k ih =>
      rcases l with _ | l
      · exact InStep.right rfl hk.right_of_zero
      · by_cases hkey : topKey t = some key
        · refine ((h.next hst).bind fun _ _ _ hst => ih hst hk.pred).of_eq ?_ ?_
          · simp only [passRepeats, h.topKey hst, if_pos hkey]
          · simp only [passRepeats, if_pos hkey]
        · refine (inStep_pure hst ()).of_eq ?_ ?_
          · simp only [passRepeats, h.topKey hst, if_neg hkey, give_apply, pure_apply]
          · simp only [passRepeats, if_neg hkey, give_apply, pure_apply]

theorem inStep_leave (h : Joining E A R) (dedupe : Bool) (key : Key) {s : σ} {t : τ}
    (hst : R s t) : InStep E R (leave dedupe key) s (leave dedupe key) t := by
  by_cases hdedupe : dedupe = true
  · have hturns := (h.turns (h.apart hst)).map (· + 1)
    refine ((h.next hst).bind fun _ _ _ hst => inStep_passRepeats h key hst hturns).of_eq ?_ ?_
    · simp only [leave, if_pos hdedupe]
    · simp only [leave, if_pos hdedupe]
  · refine (h.next hst).of_eq ?_ ?_
    · simp only [leave, if_neg hdedupe]
    · simp only [leave, if_neg hdedupe]

theorem inStep_rejoin (h : Meeting E A R) (hmn : Twin R m n) (child : Nat) (key : Key) :
    InStep E (Twin R) (rejoin child key) m (rejoin child key) n := by
  rcases hk : n.childKey child with _ | k
  · refine (inStep_pure hmn ()).of_eq ?_ ?_
    · simp only [rejoin, childKey_eq h hmn, hk, pure_apply]
    · simp only [rejoin, hk, pure_apply]
  · by_cases hback : k < key
    · have hm : (rejoin child key m).result = .error (.steppedBack child key k) := by
        simp only [rejoin, childKey_eq h hmn, hk, if_pos hback]
      have hn : (rejoin child key n).result = .error (.steppedBack child key k) := by
        simp only [rejoin, hk, if_pos hback]
      exact InStep.failed hm hn
    · have hqueued : Twin R (m.enqueue k child) (n.enqueue k child) := by
        refine { hmn with queue := ?_ }
        rw [enqueue, enqueue, hmn.queue]
      refine InStep.done (a := ()) ⟨[], ?_⟩ ⟨[], ?_⟩ hqueued
      · simp only [rejoin, childKey_eq h hmn, hk, if_neg hback]
      · simp only [rejoin, hk, if_neg hback]

theorem inStep_advance (h : Joining E A R) (hmn : Twin R m n) (child : Nat) (key : Key) :
    InStep E (Twin R) (advance child key) m (advance child key) n := by
  refine inStep_look ?_
  rw [hmn.dedupe]
  have hmove := inStep_onItem hmn.children
    (fun _ _ hcd => inStep_leave h n.dedupe key hcd) child ()
  refine InStep.bind (R := Twin R) (hmove.on fun _ _ hall => { hmn with children := hall }) ?_
  exact fun _ _ _ hmn => inStep_rejoin h.toMeeting hmn child key

theorem inStep_advancePeers (h : Joining E A R) (hmn : Twin R m n) (key : Key) (count : Nat) :
    InStep E (Twin R) (advancePeers key count) m (advancePeers key count) n := by
  induction count generalizing m n with
  | zero => exact inStep_pure hmn ()
  | succ count ih =>
      rcases front_cases key n with hfront | ⟨head, queue, hq, rfl⟩
      · refine (inStep_pure hmn ()).of_eq ?_ ?_
        · rw [advancePeers_of_ne (hmn.queue ▸ hfront), give_apply, pure_apply]
        · rw [advancePeers_of_ne hfront, give_apply, pure_apply]
      · have htail : Twin R { m with queue } { n with queue } := { hmn with queue := rfl }
        have hmore := (inStep_advance h htail head.child head.key).bind fun _ _ _ hmn => ih hmn
        refine hmore.embed (f := id) (g := id) ?_ ?_ fun _ _ hmn => hmn
        · rw [advancePeers_of_cons (hmn.queue.trans hq)]
          exact ⟨rfl, rfl⟩
        · rw [advancePeers_of_cons hq]
          exact ⟨rfl, rfl⟩

theorem inStep_step (h : Joining E A R) (hmn : Twin R m n) : InStep E (Twin R) step m step n := by
  rcases hq : n.queue with _ | ⟨head, queue⟩
  · exact (inStep_fail .nothingToLeave m n).of_eq (step_of_nil (hmn.queue.trans hq))
      (step_of_nil hq)
  · have htail : Twin R { m with queue } { n with queue } := { hmn with queue := rfl }
    have hpeers : InStep E (Twin R)
        (if m.dedupe then advancePeers head.key queue.length else pure ()) { m with queue }
        (if n.dedupe then advancePeers head.key queue.length else pure ()) { n with queue } := by
      by_cases hdedupe : n.dedupe = true
      · rw [if_pos (hmn.dedupe.trans hdedupe), if_pos hdedupe]
        exact inStep_advancePeers h htail head.key queue.length
      · rw [if_neg (hmn.dedupe ▸ hdedupe), if_neg hdedupe]
        exact inStep_pure htail ()
    refine (hpeers.bind fun _ _ _ hmn => inStep_advance h hmn head.child head.key).embed
      (f := id) (g := id) ?_ ?_ fun _ _ hmn => hmn
    · rw [step_of_cons (hmn.queue.trans hq)]
      exact ⟨rfl, rfl⟩
    · rw [step_of_cons hq]
      exact ⟨rfl, rfl⟩

theorem current_eq (h : Meeting E A R) (hmn : Twin R m n) : m.current = n.current := by
  rw [current, current, hmn.queue]
  rcases n.queue.head? with _ | head
  · rfl
  · exact Parallel.bind_getElem? hmn.children (fun _ _ hcd => h.top hcd) head.child

/-- Merges upon children that a seek brings together are brought together by one. -/
theorem joining (h : Joining E A R) : Joining E (Apart A) (Twin R) where
  top hmn := current_eq h.toMeeting hmn
  apart hmn := ⟨hmn.children.imp fun _ _ hcd => h.apart hcd, hmn.dedupe⟩
  turns hmn := Excuses.turns_of_forall₂ (hmn.children.imp fun _ _ hcd => h.turns hcd)
    fun reaches => reaches.foldr (· + ·) 0
  seek hmn range families := inStep_place h.toMeeting hmn range families
  next hmn := inStep_step h hmn

end Merge

/-! ## Filters -/

namespace Filter

variable {σ τ : Type} [Cursor σ] [Cursor τ] {E : Excuses} {A R : σ → τ → Prop} {f : Filter σ}
  {g : Filter τ}

/-- Two filters by one condition upon related sources: by the same predicates, or by sound ones
that may remember different things. -/
structure Twin (R : σ → τ → Prop) (f : Filter σ) (g : Filter τ) : Prop where
  source : R f.source g.source
  predicates : f.predicates = g.predicates ∨ ∃ p, f.Decides p ∧ g.Decides p

omit [Cursor σ] [Cursor τ] in
theorem Twin.imp (hfg : Twin R f g) (h : R f.source g.source → A f.source g.source) :
    Twin A f g := ⟨h hfg.source, hfg.predicates⟩

omit [Cursor σ] [Cursor τ] in
theorem inStep_onSource {α : Type} {x : Action σ α} {y : Action τ α} (hfg : Twin A f g)
    (h : InStep E R x f.source y g.source) : InStep E (Twin R) (onSource x) f (onSource y) g :=
  h.on fun _ _ hst => ⟨hst, hfg.predicates⟩

omit [Cursor σ] [Cursor τ] in
theorem inStep_decideOn (hfg : Twin R f g) (e : Entry) :
    InStep E (Twin R) (decideOn e) f (decideOn e) g := by
  rcases hfg.predicates with hsame | ⟨p, hf, hg⟩
  · have hsource := hfg.source
    obtain ⟨source, predicates, account⟩ := f
    obtain rfl : predicates = g.predicates := hsame
    exact InStep.done ⟨_, rfl⟩ ⟨_, rfl⟩ ⟨hsource, Or.inl rfl⟩
  · obtain ⟨f', hf', hsource, hdec⟩ := decideOn_runs hf e
    obtain ⟨g', hg', hsource', hdec'⟩ := decideOn_runs hg e
    refine InStep.done hf' hg' ⟨?_, Or.inr ⟨p, hdec, hdec'⟩⟩
    rw [hsource, hsource']
    exact hfg.source

theorem inStep_passRejected (h : Joining E A R) (hfg : Twin R f g) {n m : Nat}
    (hn : E.Turns n m) : InStep E (Twin R) (passRejected n) f (passRejected m) g := by
  induction n generalizing m f g with
  | zero => exact inStep_spent hn rfl (by rintro rfl; rfl)
  | succ n ih =>
      rcases m with _ | m
      · exact InStep.right rfl hn.right_of_zero
      · rcases htop : Cursor.top g.source with _ | e
        · exact (inStep_pure hfg ()).of_eq
            (passRejected_of_none ((h.top hfg.source).trans htop) n) (passRejected_of_none htop m)
        · refine InStep.of_eq ?_ (passRejected_of_some ((h.top hfg.source).trans htop) n)
            (passRejected_of_some htop m)
          refine (inStep_decideOn hfg e).bind fun accepted f g hfg => ?_
          by_cases haccepted : accepted = true
          · rw [if_pos haccepted, if_pos haccepted]
            exact inStep_pure hfg ()
          · rw [if_neg haccepted, if_neg haccepted]
            exact (inStep_onSource hfg (h.next hfg.source)).bind fun _ _ _ hfg => ih hfg hn.pred

theorem inStep_settle (h : Joining E A R) (hfg : Twin R f g) :
    InStep E (Twin R) settle f settle g :=
  (inStep_passRejected h hfg ((h.turns (h.apart hfg.source)).map (· + 1))).of_eq rfl rfl

/-- Filters upon sources that a seek brings together are brought together by one. -/
theorem joining (h : Joining E A R) : Joining E (Twin A) (Twin R) where
  top hfg := h.top hfg.source
  apart hfg := hfg.imp h.apart
  turns hfg := h.turns hfg.source
  seek hfg range families := ((inStep_record hfg _ _).bind fun _ _ _ hfg =>
    (inStep_onSource hfg (h.seek hfg.source range families)).bind fun _ _ _ hfg =>
      inStep_settle h hfg).of_eq (place_apply range families _) (place_apply range families _)
  next hfg := (inStep_onSource hfg (h.next hfg.source)).bind fun _ _ _ hfg => inStep_settle h hfg

end Filter

/-! ## Layers and stacks -/

/-- Two layers of one kind upon related cursors, wherever they stand. -/
inductive Layer.Apart {σ τ : Type} [Cursor σ] [Cursor τ] (E : Excuses) (A : σ → τ → Prop) :
    Layer σ → Layer τ → Prop
  | bare {s : σ} {t : τ} : A s t → Apart E A (.bare s) (.bare t)
  | merge {m : Merge σ} {n : Merge τ} : Merge.Apart A m n → Apart E A (.merge m) (.merge n)
  | filter {f : Filter σ} {g : Filter τ} : Filter.Twin A f g → Apart E A (.filter f) (.filter g)
  | intersection {x : Intersection σ} {y : Intersection τ} : Intersection.Apart E A x y →
      Apart E A (.intersection x) (.intersection y)

/-- Two layers of one kind that are in the same place upon related cursors. -/
inductive Layer.Twin {σ τ : Type} [Cursor σ] [Cursor τ] (E : Excuses) (A R : σ → τ → Prop) :
    Layer σ → Layer τ → Prop
  | bare {s : σ} {t : τ} : R s t → Twin E A R (.bare s) (.bare t)
  | merge {m : Merge σ} {n : Merge τ} : Merge.Twin R m n → Twin E A R (.merge m) (.merge n)
  | filter {f : Filter σ} {g : Filter τ} : Filter.Twin R f g → Twin E A R (.filter f) (.filter g)
  | intersection {x : Intersection σ} {y : Intersection τ} : Intersection.Twin E A R x y →
      Twin E A R (.intersection x) (.intersection y)

/-- Layers upon cursors that a seek brings together are brought together by one. -/
theorem Layer.joining {σ τ : Type} [Cursor σ] [Cursor τ] {E : Excuses} {A R : σ → τ → Prop}
    (h : Joining E A R) : Joining E (Layer.Apart E A) (Layer.Twin E A R) where
  top := by
    rintro _ _ (hst | hmn | hfg | hxy)
    · exact h.top hst
    · exact (Merge.joining h).top hmn
    · exact (Filter.joining h).top hfg
    · exact (Intersection.joining h.toMeeting).top hxy
  apart := by
    rintro _ _ (hst | hmn | hfg | hxy)
    · exact .bare (h.apart hst)
    · exact .merge ((Merge.joining h).apart hmn)
    · exact .filter ((Filter.joining h).apart hfg)
    · exact .intersection ((Intersection.joining h.toMeeting).apart hxy)
  turns := by
    rintro _ _ (hst | hmn | hfg | hxy)
    · exact h.turns hst
    · exact (Merge.joining h).turns hmn
    · exact (Filter.joining h).turns hfg
    · exact (Intersection.joining h.toMeeting).turns hxy
  seek := by
    rintro _ _ (hst | hmn | hfg | hxy) range families
    · exact (h.seek hst range families).within rfl rfl fun _ _ => .bare
    · exact ((Merge.joining h).seek hmn range families).within rfl rfl fun _ _ => .merge
    · exact ((Filter.joining h).seek hfg range families).within rfl rfl fun _ _ => .filter
    · exact ((Intersection.joining h.toMeeting).seek hxy range families).within rfl rfl
        fun _ _ => .intersection
  next := by
    rintro _ _ (hst | hmn | hfg | hxy)
    · exact (h.next hst).within rfl rfl fun _ _ => .bare
    · exact ((Merge.joining h).next hmn).within rfl rfl fun _ _ => .merge
    · exact ((Filter.joining h).next hfg).within rfl rfl fun _ _ => .filter
    · exact ((Intersection.joining h.toMeeting).next hxy).within rfl rfl fun _ _ => .intersection

/-- Two stacks of one shape upon related sources, wherever their layers stand. -/
def Stack.Apart {σ τ : Type} [Cursor σ] [Cursor τ] (E : Excuses) (A : σ → τ → Prop) :
    (n : Nat) → Stack σ n → Stack τ n → Prop
  | 0 => A
  | n + 1 => Layer.Apart E (Apart E A n)

/-- Stacks upon sources that a seek brings together are brought together by one. -/
theorem Stack.exists_joining {σ τ : Type} [Cursor σ] [Cursor τ] {E : Excuses} {A R : σ → τ → Prop}
    (h : Joining E A R) (n : Nat) : ∃ together, Joining E (Stack.Apart E A n) together := by
  induction n with
  | zero => exact ⟨R, h⟩
  | succ n ih =>
      obtain ⟨together, hjoining⟩ := ih
      exact ⟨_, Layer.joining hjoining⟩

/-- Two stacks of one shape, layer by layer in the same place, upon related sources. -/
def Stack.Twin {σ τ : Type} [Cursor σ] [Cursor τ] (E : Excuses) (R : σ → τ → Prop) :
    (n : Nat) → Stack σ n → Stack τ n → Prop
  | 0 => R
  | n + 1 => Layer.Twin E (Twin E R n) (Twin E R n)

/-- Stacks upon sources in step are in step. -/
theorem Stack.lockstep {σ τ : Type} [Cursor σ] [Cursor τ] {E : Excuses} {R : σ → τ → Prop}
    (h : Lockstep E R) : (n : Nat) → Lockstep E (Stack.Twin E R n)
  | 0 => h
  | n + 1 => (Layer.joining (Stack.lockstep h n)).lockstep

end CellScan
