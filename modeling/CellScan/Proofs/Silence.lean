/-
`Silence.lean` -- what is counted, and what a call that succeeds does not count.

The counters of an account are sums over the tallies that events bring to it
(`Ledger.statistics_enterAll`, `Statistics.counter_tallyAll`). So a claim about a counter is
one about the events that calls record.

`Silent p` says of a cursor that no call on it that succeeds records an event that `p` holds
of, wherever earlier calls have brought it. Tables and tapes record nothing at all. A merge
that succeeds records nothing of its own, and what filters and intersections record of their
own is little: so the stack that a scan is built from is silent about everything else
(`ScanSpec.silent_of_build`). In particular a scan that succeeds counts no ordering violation
(`ScanSpec.violations_of_scan`).
-/
import CellScan.Proofs.Circling
import CellScan.Proofs.Copying
import CellScan.Proofs.Ordered

set_option autoImplicit false

namespace CellScan

open CellScan.Action CellScan.Cursor
open List (Forall₂)

/-! ## Counters -/

namespace Event

variable {a : Account} {events : List Event}

theorem talliesOf_append (a : Account) (es fs : List Event) :
    talliesOf a (es ++ fs) = talliesOf a es ++ talliesOf a fs := List.filterMap_append

theorem talliesOf_cons_count (a b : Account) (t : Tally) (es : List Event) :
    talliesOf a (.count b t :: es) = if b = a then t :: talliesOf a es else talliesOf a es := by
  rw [talliesOf, List.filterMap_cons]
  by_cases hb : b = a
  · simp only [if_pos hb, talliesOf]
  · simp only [if_neg hb, talliesOf]

/-- A tally is counted on the account of its event. -/
theorem mem_talliesOf {t : Tally} : t ∈ talliesOf a events ↔ .count a t ∈ events := by
  rw [talliesOf, List.mem_filterMap]
  constructor
  · rintro ⟨e, he, htally⟩
    rcases e with ⟨a', t'⟩ | _
    · obtain ⟨rfl, rfl⟩ : a' = a ∧ t' = t := by simpa using htally
      exact he
    · exact absurd htally (by simp)
  · exact fun h => ⟨_, h, by simp⟩

end Event

namespace Ledger

theorem statistics_setStatistics (l : Ledger) (a b : Account) (s : Statistics) :
    (l.setStatistics a s).statistics b = if a = b then s else l.statistics b := by
  rw [statistics, setStatistics]
  dsimp only
  rw [SortedList.find?_insertBy]
  split
  · rfl
  · rfl

/-- Events bring an account the tallies that are meant for it. -/
theorem statistics_enterAll (l : Ledger) (events : List Event) (a : Account) :
    (l.enterAll events).statistics a = (l.statistics a).tallyAll (Event.talliesOf a events) := by
  induction events generalizing l with
  | nil => rfl
  | cons e events ih =>
      rw [enterAll, List.foldl_cons]
      refine (ih (l.enter e)).trans ?_
      rcases e with ⟨b, t⟩ | ⟨level, text⟩
      · rw [enter, statistics_setStatistics, Event.talliesOf_cons_count]
        by_cases hb : b = a
        · subst hb
          rw [if_pos rfl, if_pos rfl]
          rfl
        · rw [if_neg hb, if_neg hb]
      · rfl

end Ledger

namespace Statistics

/-- A counter that goes up by one with some tallies counts those. -/
theorem counter_tallyAll {f : Statistics → UInt64} {p : Tally → Bool}
    (h : ∀ s t, f (s.tally t) = f s + if p t then 1 else 0) (s : Statistics) (ts : List Tally) :
    f (s.tallyAll ts) = f s + UInt64.ofNat (ts.countP p) := by
  induction ts generalizing s with
  | nil => simp
  | cons t ts ih =>
      rw [tallyAll, List.foldl_cons]
      refine (ih (s.tally t)).trans ?_
      rw [h, List.countP_cons, UInt64.ofNat_add, UInt64.add_assoc]
      split
      · rw [UInt64.add_comm (UInt64.ofNat _)]
        rfl
      · rw [UInt64.add_comm (UInt64.ofNat _)]
        rfl

theorem violations_tallyAll (s : Statistics) (ts : List Tally) :
    (s.tallyAll ts).violations = s.violations + UInt64.ofNat (ts.countP (· = .violation)) := by
  refine counter_tallyAll ?_ s ts
  intro s t
  rcases t with _ | _ | (_ | _) | (_ | _) | _ | (_ | _) | _ <;> simp [tally]

end Statistics

/-! ## Calls that omit events -/

namespace Action

variable {σ τ α β : Type} {P Q : σ → Prop} {p : Event → Prop}

/-- From a state with `P` the call, if it succeeds, records no event that `p` holds of. -/
def Omits (P : σ → Prop) (p : Event → Prop) (x : Action σ α) : Prop :=
  ∀ s, P s → ∀ a, (x s).result = .ok a → ∀ e ∈ (x s).events, ¬ p e

theorem Omits.mono {x : Action σ α} (h : Omits P p x) (hQ : ∀ s, Q s → P s) : Omits Q p x :=
  fun s hs => h s (hQ s hs)

theorem omits_of_nil {x : Action σ α} (h : ∀ s, P s → (x s).events = []) : Omits P p x := by
  intro s hs a _ e he
  rw [h s hs] at he
  exact absurd he List.not_mem_nil

theorem omits_pure (a : α) : Omits P p (pure a : Action σ α) := omits_of_nil fun _ _ => rfl

theorem omits_fail (fault : Fault) : Omits P p (fail fault : Action σ α) :=
  omits_of_nil fun _ _ => rfl

theorem omits_look (f : σ → α) : Omits P p (look f) := omits_of_nil fun _ _ => rfl

theorem omits_change (f : σ → σ) : Omits P p (change f) := omits_of_nil fun _ _ => rfl

theorem omits_record {events : List Event} (h : ∀ e ∈ events, ¬ p e) :
    Omits P p (record events) := fun _ _ _ _ => h

theorem Omits.bind {x : Action σ α} {f : α → Action σ β} (hx : Omits P p x) (hk : Keeps P x)
    (hf : ∀ a, Omits P p (f a)) : Omits P p (x >>= f) := by
  intro s hs b hb e he
  have ht := hk s hs
  have hes := hx s hs
  rcases hxs : x s with ⟨fault | a, t, events⟩
  · rw [bind_apply_error hxs] at hb
    exact absurd hb (by simp)
  · rw [hxs] at ht hes
    rw [bind_apply_ok hxs] at hb he
    -- the second call goes on from a state that the first one has kept
    rcases List.mem_append.mp he with he | he
    · exact hes a rfl e he
    · exact hf a t ht b hb e he

/-- To give something else for a result is not to record anything. -/
theorem Omits.map {x : Action σ α} (hx : Omits P p x) (g : α → β) :
    Omits P p (do let a ← x; pure (g a)) := by
  intro s hs b hb e he
  have hes := hx s hs
  rcases hxs : x s with ⟨fault | a, t, events⟩
  · rw [bind_apply_error hxs] at hb
    exact absurd hb (by simp)
  · rw [hxs] at hes
    rw [bind_apply_ok hxs, pure_apply, List.append_nil] at he
    exact hes a rfl e he

theorem omits_on {x : Action σ α} {part : τ → σ} {put : τ → σ → τ} {Q : τ → Prop}
    (h : Omits P p x) (hpart : ∀ t, Q t → P (part t)) : Omits Q p (on part put x) :=
  fun t ht => h (part t) (hpart t ht)

theorem omits_onEach {x : Action σ Unit} (h : Omits P p x) :
    Omits (fun ss : List σ => ∀ s ∈ ss, P s) p (onEach x) := by
  intro ss hss
  induction ss with
  | nil => exact fun _ _ e he => absurd he List.not_mem_nil
  | cons s ss ih =>
      rw [List.forall_mem_cons] at hss
      intro a ha e he
      have hes := h s hss.1
      rcases hx : x s with ⟨fault | _, t, events⟩
      · simp [onEach, hx] at ha
      · rw [hx] at hes
        simp only [onEach, hx] at ha he
        rcases List.mem_append.mp he with he | he
        · exact hes () rfl e he
        · exact ih hss.2 a ha e he

theorem omits_onItem {x : Action σ α} (h : Omits P p x) (i : Nat) (absent : α) :
    Omits (fun ss : List σ => ∀ s ∈ ss, P s) p (onItem i absent x) := by
  intro ss hss a ha e he
  rcases hs : ss[i]? with _ | s
  · simp only [onItem, hs] at he
    exact absurd he List.not_mem_nil
  · simp only [onItem, hs] at ha he
    exact h s (hss s (List.mem_of_getElem? hs)) a ha e he

theorem omits_anyItem {x : Action σ Bool} (h : Omits P p x) :
    Omits (fun ss : List σ => ∀ s ∈ ss, P s) p (anyItem x) := by
  intro ss hss
  induction ss with
  | nil => exact fun _ _ e he => absurd he List.not_mem_nil
  | cons s ss ih =>
      rw [List.forall_mem_cons] at hss
      intro a ha e he
      have hes := h s hss.1
      rcases hx : x s with ⟨fault | _ | _, t, events⟩
      · simp [anyItem, hx] at ha
      · rw [hx] at hes
        simp only [anyItem, hx] at ha he
        rcases List.mem_append.mp he with he | he
        · exact hes _ rfl e he
        · exact ih hss.2 a ha e he
      · rw [hx] at hes
        simp only [anyItem, hx] at he
        exact hes _ rfl e he

end Action

/-! ## Silent cursors -/

namespace Cursor

variable {σ τ : Type} [Cursor σ] [Cursor τ] {s t : σ} {p : Event → Prop}

/-- Wherever calls bring the cursor, no call that succeeds records an event that `p` holds of. -/
structure Silent (p : Event → Prop) (s : σ) : Prop where
  seek : ∀ range families, Omits (Reached s) p (Cursor.seek range families)
  next : Omits (Reached s) p Cursor.next

theorem Silent.of_reached (h : Silent p s) (ht : Reached s t) : Silent p t where
  seek range families := (h.seek range families).mono fun _ hu => ht.trans hu
  next := h.next.mono fun _ hu => ht.trans hu

theorem Silent.of_seek (h : Silent p s) (range : Range) (families : FamilyFilter) :
    Silent p (Cursor.seek range families s).state :=
  h.of_reached (Reached.here.seek range families)

theorem omits_seek (range : Range) (families : FamilyFilter) :
    Omits (Silent p : σ → Prop) p (Cursor.seek range families) :=
  fun s h => h.seek range families s .here

theorem omits_next : Omits (Silent p : σ → Prop) p Cursor.next := fun s h => h.next s .here

/-- What is said of the cursor inside holds of the one outside. -/
theorem Wraps.silent {put : σ → τ} (h : Wraps put) (hs : Silent p s) : Silent p (put s) := by
  refine ⟨?_, ?_⟩
  · intro range families u hu a ha
    obtain ⟨t, ht, rfl⟩ := h.reached hu
    rw [h.seek] at ha ⊢
    exact hs.seek range families t ht a ha
  · intro u hu a ha
    obtain ⟨t, ht, rfl⟩ := h.reached hu
    rw [h.next] at ha ⊢
    exact hs.next t ht a ha

end Cursor

/-! ## Sources -/

section Sources

variable {p : Event → Prop}

theorem Table.silent (t : Table) : Silent p t := by
  refine ⟨fun _ _ => omits_of_nil fun _ _ => rfl, omits_of_nil fun u _ => ?_⟩
  show (advance u).events = []
  rw [advance]
  split
  · rfl
  · rfl

theorem Tape.events_moveTo (position : Nat) (t : Tape) : (moveTo position t).events = [] := by
  rw [moveTo]
  split
  · rfl
  · rfl

theorem Tape.silent (t : Tape) : Silent p t := by
  refine ⟨fun _ _ => omits_of_nil fun _ _ => events_moveTo _ _, omits_of_nil fun u _ => ?_⟩
  show (advance u).events = []
  rw [advance]
  split
  · rfl
  · exact events_moveTo _ _

theorem Source.silent : (s : Source) → Silent p s
  | .table t => Source.wraps_table.silent t.silent
  | .tape t => Source.wraps_tape.silent t.silent

end Sources

/-! ## Merges -/

namespace Merge

variable {σ : Type} [Cursor σ] {p : Event → Prop} {cs : List σ} {m : Merge σ}

theorem omits_passRepeats (key : Key) (n : Nat) :
    Omits (Silent p : σ → Prop) p (passRepeats key n) := by
  induction n with
  | zero => exact omits_fail _
  | succ n ih =>
      intro s hs
      simp only [passRepeats]
      split
      · exact omits_next.bind (fun t ht => ht.of_reached Reached.here.next) (fun _ => ih) s hs
      · exact omits_pure () s hs

theorem omits_leave (dedupe : Bool) (key : Key) :
    Omits (Silent p : σ → Prop) p (leave dedupe key) := by
  intro s hs
  simp only [leave]
  split
  · exact omits_next.bind (fun t ht => ht.of_reached Reached.here.next)
      (fun _ => omits_passRepeats key _) s hs
  · exact omits_next s hs

section Upon

variable (hcs : ∀ c ∈ cs, Silent p c)

include hcs

theorem Upon.silent (hm : Upon cs m) : ∀ c ∈ m.children, Silent p c := by
  intro c hc
  obtain ⟨i, hi⟩ := List.mem_iff_getElem?.mp hc
  obtain ⟨c₀, hc₀, hreached⟩ := Parallel.exists_left hm hi
  exact (hcs c₀ (List.mem_of_getElem? hc₀)).of_reached hreached

theorem omits_advance (child : Nat) (key : Key) : Omits (Upon cs) p (advance child key) := by
  refine (omits_look _).bind (keeps_look _) fun dedupe =>
    Omits.bind (omits_on (omits_onItem (omits_leave dedupe key) child ()) ?_)
      (kept_upon.leave child dedupe key) fun _ => ?_
  · exact fun m hm => hm.silent hcs
  · -- what a merge records itself, it records when it fails
    intro m _ a ha
    rw [rejoin] at ha ⊢
    split
    · exact fun e he => absurd he List.not_mem_nil
    · next k hk =>
        rw [hk] at ha
        split
        · next hlt =>
            simp [hlt] at ha
        · exact fun e he => absurd he List.not_mem_nil

theorem omits_advancePeers (key : Key) (n : Nat) : Omits (Upon cs) p (advancePeers key n) := by
  induction n with
  | zero => exact omits_pure ()
  | succ n ih =>
      intro m hm
      rcases front_cases key m with hfront | ⟨head, queue, hq, rfl⟩
      · rw [advancePeers_of_ne hfront]
        exact omits_pure () m hm
      · rw [advancePeers_of_cons hq]
        exact (omits_advance hcs head.child head.key).bind (kept_upon.advance head.child head.key)
          (fun _ => ih) _ hm

theorem omits_step : Omits (Upon cs) p (step : Action (Merge σ) Unit) := by
  intro m hm
  rcases hq : m.queue with _ | ⟨head, queue⟩
  · rw [step_of_nil hq]
    exact omits_fail _ m hm
  · rw [step_of_cons hq]
    refine Omits.bind (P := Upon cs) ?_ ?_ (fun _ => omits_advance hcs head.child head.key) _ hm
    · split
      · exact omits_advancePeers hcs head.key queue.length
      · exact omits_pure ()
    · split
      · exact kept_upon.advancePeers head.key queue.length
      · exact keeps_pure ()

theorem omits_place (range : Range) (families : FamilyFilter) :
    Omits (Upon cs) p (place range families) := by
  refine (omits_change _).bind (keeps_change fun m hm => hm) fun _ =>
    Omits.bind (omits_on (omits_onEach (omits_seek range families)) ?_)
      (kept_upon.seek range families) fun _ => omits_change _
  exact fun m hm => hm.silent hcs

end Upon

/-- A merge over silent children is silent. -/
theorem silent (h : ∀ c ∈ m.children, Silent p c) : Silent p m where
  seek range families := (omits_place h range families).mono fun _ hm => (upon_reached hm).1
  next := (omits_step h).mono fun _ hm => (upon_reached hm).1

end Merge

/-! ## Filters -/

/-- The events that a filter records itself. -/
def Filter.Records : Event → Prop
  | .count _ .seek => True
  | .count _ (.decision _) => True
  | .count _ (.lookup _) => True
  | .count _ .parseError => True
  | .log _ _ => True
  | _ => False

theorem Visibility.records_accept (v : Visibility) (k : Key) :
    ∀ e ∈ (v.accept k).2.2, Filter.Records e := by
  intro e he
  rcases hlabel : v.effectiveLabel? k with _ | label
  · simp only [accept, hlabel] at he
    exact absurd he List.not_mem_nil
  · rcases hget : v.cache.get label with ⟨_ | visible, cache⟩
    · rcases heval : v.evaluator label v.authorizations with fault | visible
      · simp only [accept, hlabel, hget, heval, List.mem_cons, List.not_mem_nil, or_false] at he
        rcases he with rfl | rfl | rfl <;> trivial
      · simp only [accept, hlabel, hget, heval, List.mem_singleton] at he
        subst he
        trivial
    · simp only [accept, hlabel, hget, List.mem_singleton] at he
      subst he
      trivial

theorem Predicate.records_accept (q : Predicate) (x : Entry) :
    ∀ e ∈ (q.accept x).2.2, Filter.Records e := by
  cases q with
  | visibility filter => exact filter.records_accept x.1
  | _ => exact fun e he => absurd he List.not_mem_nil

theorem Predicate.records_acceptAll (ps : List Predicate) (x : Entry) :
    ∀ e ∈ (acceptAll ps x).2.2, Filter.Records e := by
  induction ps with
  | nil => exact fun e he => absurd he List.not_mem_nil
  | cons q ps ih =>
      have hq := q.records_accept x
      rcases haccept : q.accept x with ⟨_ | _, q', events⟩
      · rw [haccept] at hq
        simp only [acceptAll, haccept]
        exact hq
      · rw [haccept] at hq
        simp only [acceptAll, haccept]
        intro e he
        rcases List.mem_append.mp he with he | he
        · exact hq e he
        · exact ih e he

namespace Filter

variable {σ : Type} [Cursor σ] {p : Event → Prop} {s : σ} {f : Filter σ}

section

variable (hp : ∀ e, p e → ¬ Records e)

include hp

omit [Cursor σ] in
theorem omits_decideOn (P : Filter σ → Prop) (x : Entry) : Omits P p (decideOn x) := by
  intro f _ _ _ e he hpe
  rcases List.mem_append.mp he with he | he
  · exact hp e hpe (Predicate.records_acceptAll f.predicates x e he)
  · obtain rfl := List.mem_singleton.mp he
    exact hp _ hpe trivial

theorem omits_settle (hs : Silent p s) :
    Omits (fun f : Filter σ => Reached s f.source) p (settle : Action (Filter σ) Unit) := by
  have hpass : ∀ n, Omits (fun f : Filter σ => Reached s f.source) p (passRejected n) := by
    intro n
    induction n with
    | zero => exact omits_fail _
    | succ n ih =>
        intro f hf
        rcases htop : Cursor.top f.source with _ | x
        · rw [passRejected_of_none htop]
          exact omits_pure (P := fun f => Reached s f.source) () f hf
        · rw [passRejected_of_some htop]
          refine Omits.bind (omits_decideOn hp _ x) (kept_reached.decide x) (fun accepted => ?_) f hf
          split
          · exact omits_pure ()
          · exact (omits_on hs.next fun _ hf => hf).bind kept_reached.next fun _ => ih
  exact fun f hf => hpass _ f hf

/-- A filter over a silent source is silent about what it does not record itself. -/
theorem silent (hs : Silent p f.source) : Silent p f where
  seek range families := by
    refine Omits.mono (P := fun g => Reached f.source g.source) ?_ fun _ hg => reached_source hg
    refine (omits_look _).bind (keeps_look _) fun account => Omits.bind (omits_record ?_)
      (keeps_record _) fun _ => Omits.bind (omits_on (hs.seek range families) fun _ hf => hf)
        (kept_reached.seek range families) fun _ => omits_settle hp hs
    intro e he hpe
    obtain rfl := List.mem_singleton.mp he
    exact hp _ hpe trivial
  next := by
    refine Omits.mono (P := fun g => Reached f.source g.source) ?_ fun _ hg => reached_source hg
    exact (omits_on hs.next fun _ hf => hf).bind kept_reached.next fun _ => omits_settle hp hs

end

end Filter

/-! ## Intersections -/

namespace Probe

variable {σ : Type} [Cursor σ] {p : Event → Prop} (hp : ∀ a, ¬ p (.count a .termSeek))

include hp

theorem omits_seekTo (s : Search) (start : Key) (term : Bytes) :
    Omits (Keeping (Silent p : σ → Prop) term) p (seekTo s start) := by
  refine Omits.bind (omits_record ?_) (keeps_record _) fun _ =>
    (omits_look _).bind (keeps_look _) fun _ =>
      Omits.bind (omits_on (omits_seek _ _) fun _ hq => hq.cursor)
        (keeps_on fun _ hq => ⟨hq.term, hq.cursor.of_seek _ _⟩) fun _ => omits_change _
  intro e he
  obtain rfl := List.mem_singleton.mp he
  exact hp s.account

theorem omits_seeks (s : Search) (t : Target) (n : Nat) (start : Key) (term : Bytes) :
    Omits (Keeping (Silent p : σ → Prop) term) p (look s t n start) := by
  induction n generalizing start with
  | zero => exact omits_fail _
  | succ n ih =>
      refine (omits_seekTo hp s start term).bind
        (keeps_seekTo (fun _ range families h => h.of_seek range families) s start) fun _ =>
          (omits_look _).bind (keeps_look _) fun found => ?_
      rcases found with d | _ | start'
      · exact omits_pure _
      · exact omits_pure _
      · exact ih start'

theorem omits_align (s : Search) (t : Target) (n : Nat) :
    Omits (fun q : Probe σ => Silent p q.cursor) p (align s t n) := by
  intro q hq
  rcases hst : q.standing? s t with _ | d
  · simp only [align, hst]
    exact omits_seeks hp s t n _ q.term q ⟨rfl, hq⟩
  · simp only [align, hst]
    exact omits_pure (P := fun q => Silent p q.cursor) _ q hq

end Probe

namespace Intersection

open CellScan.Probe

variable {σ : Type} [Cursor σ] {p : Event → Prop} {q : Query} {x y : Intersection σ}

/-- The events that an intersection records itself. -/
def Records : Event → Prop
  | .count _ .seek => True
  | .count _ .termSeek => True
  | .count _ (.hit _) => True
  | _ => False

/-- Seeks leave a silent cursor silent. -/
theorem silent_seeks (s : σ) (range : Range) (families : FamilyFilter) (h : Silent p s) :
    Silent p (Cursor.seek range families s).state := h.of_seek range families

section Search

variable (hp : ∀ a, ¬ p (.count a .termSeek))

include hp

theorem omits_alignPositive (turn : Nat) (t : Target) :
    Omits (Keeping (Silent p : σ → Prop) q) p (alignPositive turn t) := by
  intro x hx
  have hcursors := Parallel.forall_right hx.positives fun _ _ h => h.cursor
  exact omits_onItem (omits_align hp x.search t x.seeks) turn none x.positives hcursors

theorem omits_agree (n agreed turn : Nat) (t : Target) :
    Omits (Keeping (Silent p : σ → Prop) q) p (agree n agreed turn t) := by
  induction n generalizing agreed turn t with
  | zero => exact omits_fail _
  | succ n ih =>
      intro x hx
      by_cases hall : agreed = x.positives.length
      · rw [hall, agree_all n turn t]
        exact omits_pure _ x hx
      · rw [agree_succ n agreed turn t hall]
        refine (omits_alignPositive hp turn t).bind (keeps_alignPositive silent_seeks turn t)
          (fun r => ?_) x hx
        rcases r with _ | d
        · exact omits_pure none
        · exact ih _ _ _

theorem omits_isRuledOut (d : Document) :
    Omits (Keeping (Silent p : σ → Prop) q) p (isRuledOut d) := by
  intro x hx
  have hcursors := Parallel.forall_right hx.negatives fun _ _ h => h.cursor
  have hask : Omits (fun pr : Probe σ => Silent p pr.cursor) p (askFor x.search x.seeks d) := by
    intro pr hpr
    refine Omits.bind (P := Probe.Keeping (Silent p) pr.term) ?_
      (keeps_align silent_seeks _ _ _) (fun _ => omits_pure _) pr ⟨rfl, hpr⟩
    exact (omits_align hp _ _ _).mono fun _ h => h.cursor
  rw [isRuledOut_apply]
  exact omits_anyItem hask x.negatives hcursors

theorem omits_nextHit (n : Nat) (t : Target) :
    Omits (Keeping (Silent p : σ → Prop) q) p (nextHit n t) := by
  induction n generalizing t with
  | zero => exact omits_fail _
  | succ n ih =>
      intro x hx
      rw [nextHit_succ]
      refine (omits_agree hp _ 0 0 t).bind (keeps_agree silent_seeks _ 0 0 t) (fun r => ?_) x hx
      rcases r with _ | d
      · exact omits_pure none
      · refine (omits_isRuledOut hp d).bind (keeps_isRuledOut silent_seeks d) fun ruledOut => ?_
        split
        · exact ih _
        · exact omits_pure _

omit hp in
theorem omits_fetch (d : Document) : Omits (Keeping (Silent p : σ → Prop) q) p (fetch d) := by
  refine (omits_look _).bind (keeps_look _) fun layout =>
    Omits.bind (omits_on (omits_seek _ _) fun _ hx => hx.documents)
      (keeps_on fun x hx => ⟨hx.query, hx.source, hx.documents.of_seek _ _, hx.positives,
        hx.negatives⟩) fun _ => (omits_look _).bind (keeps_look _) fun top => ?_
  rcases top with _ | e
  · exact omits_pure _
  · exact omits_pure _

end Search

section Calls

variable (hp : ∀ e, p e → ¬ Records e)

include hp

theorem omits_goTo (t : Target) : Omits (Keeping (Silent p : σ → Prop) q) p (goTo t) := by
  have hterm : ∀ a, ¬ p (.count a .termSeek) := fun a h => hp _ h trivial
  have hstand : ∀ d, Omits (Keeping (Silent p : σ → Prop) q) p (stand d) := by
    intro d
    refine (omits_fetch d).bind (keeps_fetch silent_seeks d) fun r =>
      (omits_look _).bind (keeps_look _) fun account => Omits.bind (omits_record ?_)
        (keeps_record _) fun _ => omits_change _
    intro e he hpe
    obtain rfl := List.mem_singleton.mp he
    exact hp _ hpe trivial
  refine (omits_change _).bind (keeps_change fun _ hx =>
    ⟨hx.query, hx.source, hx.documents, hx.positives, hx.negatives⟩) fun _ =>
      (omits_look _).bind (keeps_look _) fun _ =>
        (omits_nextHit hterm _ t).bind (keeps_nextHit silent_seeks _ t) fun r => ?_
  rcases r with _ | d
  · exact omits_pure ()
  · exact hstand d

theorem omits_place (range : Range) : Omits (Keeping (Silent p : σ → Prop) q) p (place range) := by
  refine (omits_look _).bind (keeps_look _) fun account => Omits.bind (omits_record ?_)
    (keeps_record _) fun _ => (omits_change _).bind (keeps_change fun _ hx => hx.restart range)
      fun _ => (omits_look _).bind (keeps_look _) fun _ => ?_
  · intro e he hpe
    obtain rfl := List.mem_singleton.mp he
    exact hp _ hpe trivial
  · split
    · exact omits_pure ()
    · exact omits_goTo hp _

theorem omits_step :
    Omits (Keeping (Silent p : σ → Prop) q) p (step : Action (Intersection σ) Unit) := by
  intro x hx
  rcases hhit : x.hit with _ | d
  · rw [step_of_none hhit]
    exact omits_fail _ x hx
  · rw [step_of_hit hhit]
    exact omits_goTo hp _ _ ⟨hx.query, hx.source, hx.documents, hx.positives, hx.negatives⟩

end Calls

theorem keeping_of_ofQuery {source : σ} {env : Environment} (hs : Silent p source)
    (h : ofQuery source q env = .ok x) : Keeping (Silent p) q x := by
  obtain ⟨ps, ns, c, hps, hns, hc, rfl⟩ := exists_of_ofQuery h
  have hprobes : ∀ {terms : List Bytes} {qs : List (Probe σ)},
      probesFor env source terms = .ok qs → Forall₂ (Probe.Keeping (Silent p)) terms qs := by
    intro terms qs hqs
    refine (Parallel.of_mapM_ok hqs).imp fun term pr hpr => ?_
    obtain ⟨c', hc', rfl⟩ := exists_of_map_ok hpr
    exact ⟨rfl, hs.of_reached (Reached.here.copy env hc')⟩
  exact ⟨rfl, hs, hs.of_reached (Reached.here.copy env hc), hprobes hps, hprobes hns⟩

/-- Calls and copies leave the cursors of an intersection silent. -/
theorem keeping_reached (h : Keeping (Silent p) q x) (hy : Reached x y) :
    Keeping (Silent p) q y := by
  induction hy with
  | here => exact h
  | seek range families _ ih => exact keeps_place silent_seeks range _ ih
  | next _ ih => exact keeps_step silent_seeks _ ih
  | @copy y z env _ hcopy ih =>
      have hbuilt : ((Cursor.copy env y.source).bind fun source => ofQuery source y.query env)
          = .ok z := hcopy
      rcases hc : Cursor.copy env y.source with fault | source
      · rw [hc] at hbuilt
        exact Except.noConfusion rfl rfl (heq_of_eq hbuilt)
      · rw [hc, ih.query] at hbuilt
        exact keeping_of_ofQuery (ih.source.of_reached (Reached.here.copy env hc)) hbuilt

/-- An intersection over silent cursors is silent about what it does not record itself. -/
theorem silent (hp : ∀ e, p e → ¬ Records e) (hx : Keeping (Silent p) q x) : Silent p x where
  seek range _ := (omits_place hp range).mono fun _ hy => keeping_reached hx hy
  next := (omits_step hp).mono fun _ hy => keeping_reached hx hy

end Intersection

/-! ## Scans -/

namespace Scan

variable {σ : Type} [Cursor σ] {p : Event → Prop} {s : σ}

theorem omits_collect (h : Silent p s) (n : Nat) : Omits (Reached s) p (collect n) := by
  induction n with
  | zero => exact omits_fail _
  | succ n ih =>
      intro t ht
      rcases htop : Cursor.top t with _ | e
      · simp only [collect, htop]
        exact omits_pure (P := Reached s) [] t ht
      · simp only [collect, htop]
        exact h.next.bind (fun _ hu => hu.next) (fun _ => ih.map (e :: ·)) t ht

/-- A scan records nothing that its cursor is silent about, if it succeeds. -/
theorem omits_scan (h : Silent p s) (range : Range) (families : FamilyFilter) :
    Omits (Reached s) p (scan range families) :=
  (h.seek range families).bind (fun _ ht => ht.seek range families)
    fun _ t ht => omits_collect h _ t ht

end Scan

namespace ScanSpec

variable {σ : Type} [Cursor σ] {p : Event → Prop} {spec : ScanSpec} {sources : List σ}
  {env : Environment} {t₀ t : Stack σ 3}

theorem silent_merged (h : ∀ s ∈ sources, Silent p s) : Silent p (spec.merged sources env) := by
  unfold merged
  split
  · exact Layer.wraps_bare.silent (h _ List.mem_cons_self)
  · exact Layer.wraps_merge.silent (Merge.silent h)

/-- A stack over silent sources is silent about what its stages do not record themselves. -/
theorem silent_of_build (h : ∀ s ∈ sources, Silent p s) (hfilter : ∀ e, p e → ¬ Filter.Records e)
    (hintersection : ∀ e, p e → ¬ Intersection.Records e)
    (hbuild : (spec.build sources env).1 = .ok t₀) : Silent p t₀ := by
  rcases hps : spec.predicates env with fault | ps
  · rw [build_of_fault hps] at hbuild
    exact Except.noConfusion rfl rfl (heq_of_eq hbuild)
  · rw [build_of_predicates hps] at hbuild
    have hsource : Silent p
        (Layer.filter (Filter.ofPredicates (spec.merged sources env) ps env) : Stack σ 2) :=
      Layer.wraps_filter.silent (Filter.silent hfilter (silent_merged h))
    unfold intersected at hbuild
    split at hbuild
    · obtain rfl := Except.ok.inj hbuild
      exact Layer.wraps_bare.silent hsource
    · next i _ =>
        -- an intersection is built upon copies of the filter
        obtain ⟨x, hx, rfl⟩ := exists_of_map_ok hbuild
        rw [IntersectionSpec.build_eq] at hx
        rcases hq : (i.layout >>= fun layout => Query.ofTerms layout i.terms i.negated) with
          fault | q
        · rw [hq] at hx
          exact Except.noConfusion rfl rfl (heq_of_eq hx)
        · rw [hq] at hx
          exact Layer.wraps_intersection.silent
            (Intersection.silent hintersection (Intersection.keeping_of_ofQuery hsource hx))

/-- A scan over tables and tapes that succeeds counts no ordering violation. -/
theorem violations_of_scan {sources : List Source} {t₀ t : Stack Source 3}
    (hbuild : (spec.build sources env).1 = .ok t₀) (ht : Reached t₀ t) {range : Range}
    {families : FamilyFilter} {es : List Entry}
    (h : (Scan.scan range families t).result = .ok es) (l : Ledger) (a : Account) :
    ((l.enterAll (Scan.scan range families t).events).statistics a).violations
      = (l.statistics a).violations := by
  have hsilent : Silent (· = .count a .violation) t₀ := by
    refine silent_of_build (fun s _ => s.silent) ?_ ?_ hbuild
    · rintro _ rfl
      exact id
    · rintro _ rfl
      exact id
  have hnone : (Event.talliesOf a (Scan.scan range families t).events).countP (· = .violation)
      = 0 := by
    rw [List.countP_eq_zero]
    intro tally htally hviolation
    rw [of_decide_eq_true hviolation, Event.mem_talliesOf] at htally
    exact Scan.omits_scan hsilent range families t ht es h _ htally rfl
  rw [Ledger.statistics_enterAll, Statistics.violations_tallyAll, hnone]
  exact UInt64.add_zero _

end ScanSpec

end CellScan
