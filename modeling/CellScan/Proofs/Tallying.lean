/-
`Tallying.lean` -- what a filter counts in a scan.

What a question records depends on what the label filter of the chain remembers, but how much it
counts does not. A sound filter remembers judgements only, so a label that cannot be evaluated is
never found and is counted each time it is met (`Visibility.times_accept`). A scan asks about each
entry of its source once (`Filter.events_scan`), so its counts are numbers of entries
(`Chain.times_entries`). They are the same after any calls and in any copy, for those leave the
chain as it was but for what it remembers and where it counts (`Filter.events_reached`).
-/
import CellScan.Proofs.Asking
import CellScan.Proofs.Stack

set_option autoImplicit false

namespace CellScan

open CellScan.Action CellScan.Cursor CellScan.Predicate

/-! ## Counters of a ledger -/

namespace Tally

/-- Whether a look-up in a cache is counted. -/
def isLookup : Tally → Bool
  | .lookup _ => true
  | _ => false

end Tally

namespace Event

variable {a b : Account} {q : Tally → Bool}

/-- How many tallies of a kind events bring to an account. -/
def times (a : Account) (q : Tally → Bool) (events : List Event) : Nat :=
  (talliesOf a events).countP q

@[simp] theorem times_nil : times a q [] = 0 := rfl

@[simp] theorem times_cons_count (t : Tally) (es : List Event) :
    times a q (.count b t :: es) = (if b = a ∧ q t then 1 else 0) + times a q es := by
  rw [times, talliesOf_cons_count]
  by_cases hb : b = a
  · rw [if_pos hb, List.countP_cons, Nat.add_comm]
    simp only [hb, true_and, times]
  · rw [if_neg hb, if_neg (fun h => hb h.1), Nat.zero_add, times]

@[simp] theorem times_cons_log (level : Level) (text : String) (es : List Event) :
    times a q (.log level text :: es) = times a q es := rfl

@[simp] theorem times_append (es fs : List Event) :
    times a q (es ++ fs) = times a q es + times a q fs := by
  rw [times, talliesOf_append, List.countP_append, times, times]

end Event

/-- A counter that goes up by one with some tallies goes up by the number of those. -/
theorem Ledger.counter_enterAll {f : Statistics → UInt64} {q : Tally → Bool}
    (h : ∀ s t, f (s.tally t) = f s + if q t then 1 else 0) (l : Ledger) (events : List Event)
    (a : Account) :
    f ((l.enterAll events).statistics a)
      = f (l.statistics a) + UInt64.ofNat (Event.times a q events) := by
  rw [statistics_enterAll, Statistics.counter_tallyAll h, Event.times]

/-- The counters that a filter has to do with. -/
theorem Ledger.counters_enterAll (l : Ledger) (events : List Event) (a : Account) :
    ((l.enterAll events).statistics a).seeks
        = (l.statistics a).seeks + UInt64.ofNat (Event.times a (· = .seek) events)
      ∧ ((l.enterAll events).statistics a).accepted
        = (l.statistics a).accepted + UInt64.ofNat (Event.times a (· = .decision true) events)
      ∧ ((l.enterAll events).statistics a).rejected
        = (l.statistics a).rejected + UInt64.ofNat (Event.times a (· = .decision false) events)
      ∧ ((l.enterAll events).statistics a).parseErrors
        = (l.statistics a).parseErrors + UInt64.ofNat (Event.times a (· = .parseError) events)
      ∧ ((l.enterAll events).statistics a).cacheHits
          + ((l.enterAll events).statistics a).cacheMisses
        = (l.statistics a).cacheHits + (l.statistics a).cacheMisses
          + UInt64.ofNat (Event.times a Tally.isLookup events) := by
  refine ⟨counter_enterAll ?_ l events a, counter_enterAll ?_ l events a,
    counter_enterAll ?_ l events a, counter_enterAll ?_ l events a,
    counter_enterAll (f := fun s => s.cacheHits + s.cacheMisses) ?_ l events a⟩
  case refine_5 =>
    -- a look-up goes to one of the two counters of the sum
    intro s t
    rcases t with _ | _ | (_ | _) | (_ | _) | _ | (_ | _) | _ <;>
      simp [Statistics.tally, Tally.isLookup, UInt64.add_assoc, UInt64.add_comm (1 : UInt64)]
  all_goals
    intro s t
    rcases t with _ | _ | (_ | _) | (_ | _) | _ | (_ | _) | _ <;> simp [Statistics.tally]

/-! ## Chains with one visibility filter -/

/-- Whether a predicate looks at the labels of cells. -/
def Predicate.isVisibility : Predicate → Bool
  | .visibility _ => true
  | _ => false

/-- A predicate without a memory decides by its condition and records nothing. -/
theorem Predicate.accept_of_plain {q : Predicate} (h : q.isVisibility = false) (e : Entry) :
    q.accept e = (q.holds e, q, []) := by
  cases q with
  | visibility filter => exact Bool.noConfusion h
  | _ => rfl

theorem Predicate.copy_of_plain {q : Predicate} (h : q.isVisibility = false) (env : Environment) :
    q.copy env = q := by
  cases q with
  | visibility filter => exact Bool.noConfusion h
  | _ => rfl

/-- Predicates without a memory are asked one after the other, and the ones behind them where
all of them say yes. -/
theorem Predicate.acceptAll_append {ps : List Predicate} (h : ∀ q ∈ ps, q.isVisibility = false)
    (qs : List Predicate) (e : Entry) :
    acceptAll (ps ++ qs) e = if meets ps e
      then ((acceptAll qs e).1, ps ++ (acceptAll qs e).2.1, (acceptAll qs e).2.2)
      else (false, ps ++ qs, []) := by
  induction ps with
  | nil => rfl
  | cons q ps ih =>
      obtain ⟨hq, hps⟩ := List.forall_mem_cons.mp h
      rw [List.cons_append, acceptAll, accept_of_plain hq, meets_cons]
      cases hholds : q.holds e with
      | false => rfl
      | true =>
          simp only [ih hps, Bool.true_and]
          split
          · rfl
          · rfl

theorem Predicate.acceptAll_of_plain {ps : List Predicate} (h : ∀ q ∈ ps, q.isVisibility = false)
    (e : Entry) : acceptAll ps e = (meets ps e, ps, []) := by
  have happend := acceptAll_append h [] e
  rw [List.append_nil] at happend
  rw [happend]
  cases hmeets : meets ps e with
  | false => rfl
  | true => simp [acceptAll]

/-- A visibility filter at the head of a chain is asked, and what is behind it records nothing. -/
theorem Predicate.acceptAll_visibility {qs : List Predicate}
    (h : ∀ q ∈ qs, q.isVisibility = false) (v : Visibility) (e : Entry) :
    (acceptAll (.visibility v :: qs) e).2
      = (.visibility (v.accept e.1).2.1 :: qs, (v.accept e.1).2.2) := by
  rcases haccept : v.accept e.1 with ⟨_ | _, w, events⟩
  · simp only [acceptAll, accept, haccept]
  · simp only [acceptAll, accept, haccept, acceptAll_of_plain h, List.append_nil]

namespace Visibility

/-- Whether a cell has a label to be judged by that cannot be evaluated. -/
def isUnreadable (v : Visibility) (k : Key) : Bool :=
  match v.effectiveLabel? k with
  | none => false
  | some label => !(v.evaluator label v.authorizations).toBool

variable {v : Visibility}

/-- A filter that is sound looks up the label of each cell that has one, and counts an error for
each label that cannot be evaluated: no judgement on such a label is ever remembered. -/
theorem times_accept (h : v.Sound) (k : Key) :
    Event.times v.account Tally.isLookup (v.accept k).2.2
        = (if (v.effectiveLabel? k).isSome then 1 else 0)
      ∧ Event.times v.account (· = .parseError) (v.accept k).2.2
        = if v.isUnreadable k then 1 else 0 := by
  rw [accept, isUnreadable]
  rcases v.effectiveLabel? k with _ | label
  · exact ⟨rfl, rfl⟩
  · rcases hc : v.cache.get label with ⟨_ | visible, cache⟩
    · cases he : v.evaluator label v.authorizations with
      | ok visible => simp [hc, he, Tally.isLookup, Except.toBool]
      | error fault => simp [hc, he, Tally.isLookup, Except.toBool]
    · -- what was found is a judgement, so the label can be evaluated
      have hval : (v.cache.get label).1 = some visible := by rw [hc]
      have he := Cache.Keeps.of_get h hval
      simp [hc, he, Tally.isLookup, Except.toBool]

/-- Look-ups and errors are all that a filter counts. -/
theorem times_accept_other {q : Tally → Bool} (hlookup : ∀ found, q (.lookup found) = false)
    (herror : q .parseError = false) (a : Account) (k : Key) :
    Event.times a q (v.accept k).2.2 = 0 := by
  rw [accept]
  rcases v.effectiveLabel? k with _ | label
  · rfl
  · rcases hc : v.cache.get label with ⟨_ | visible, cache⟩
    · cases he : v.evaluator label v.authorizations with
      | ok visible => simp [hc, he, hlookup]
      | error fault => simp [hc, he, hlookup, herror]
    · simp [hc, hlookup]

end Visibility

/-- A chain of predicates, one of which looks at the labels of cells. -/
structure Chain where
  before : List Predicate
  filter : Visibility
  behind : List Predicate
  plain : ∀ q ∈ before ++ behind, q.isVisibility = false
  sound : filter.Sound

namespace Chain

/-- The predicates in their order. -/
def predicates (c : Chain) : List Predicate := c.before ++ .visibility c.filter :: c.behind

variable {c d : Chain}

theorem sound_predicates (c : Chain) : ∀ q ∈ c.predicates, q.Sound := by
  have hsound : ∀ q : Predicate, q.isVisibility = false → q.Sound := by
    intro q hq
    cases q with
    | visibility filter => exact Bool.noConfusion hq
    | _ => trivial
  intro q hq
  rcases List.mem_append.mp hq with hq | hq
  · exact hsound q (c.plain q (List.mem_append_left _ hq))
  · rcases List.mem_cons.mp hq with rfl | hq
    · exact c.sound
    · exact hsound q (c.plain q (List.mem_append_right _ hq))

/-- Predicates of which one looks at labels are such a chain. -/
theorem exists_predicates {ps : List Predicate} (hone : ps.countP Predicate.isVisibility = 1)
    (hsound : ∀ q ∈ ps, q.Sound) : ∃ c : Chain, c.predicates = ps := by
  induction ps with
  | nil => exact absurd hone (by simp)
  | cons q ps ih =>
      obtain ⟨hq, hps⟩ := List.forall_mem_cons.mp hsound
      cases hvisibility : q.isVisibility with
      | true =>
          -- the one that looks at labels, so none behind it does
          rw [List.countP_cons_of_pos hvisibility, Nat.add_eq_right, List.countP_eq_zero] at hone
          cases q with
          | visibility filter =>
              exact ⟨⟨[], filter, ps, fun q hq => by simpa using hone q hq, hq⟩, rfl⟩
          | _ => exact Bool.noConfusion hvisibility
      | false =>
          rw [List.countP_cons_of_neg (by simp [hvisibility])] at hone
          obtain ⟨c, hc⟩ := ih hone hps
          have hplain : ∀ r ∈ (q :: c.before) ++ c.behind, r.isVisibility = false :=
            List.forall_mem_cons.mpr ⟨hvisibility, c.plain⟩
          exact ⟨⟨q :: c.before, c.filter, c.behind, hplain, c.sound⟩, congrArg (q :: ·) hc⟩

/-! ### One question -/

/-- The chain to ask next. -/
def ask (c : Chain) (e : Entry) : Chain :=
  if meets c.before e then
    { c with
      filter := (c.filter.accept e.1).2.1
      sound := (Visibility.accept_spec c.sound e.1).2.1 }
  else c

/-- What a question records. -/
def recorded (c : Chain) (e : Entry) : List Event :=
  if meets c.before e then (c.filter.accept e.1).2.2 else []

theorem acceptAll_predicates (c : Chain) (e : Entry) :
    acceptAll c.predicates e = (meets c.predicates e, (c.ask e).predicates, c.recorded e) := by
  have hfst := (acceptAll_spec c.sound_predicates e).1
  rw [← hfst, predicates, acceptAll_append fun q hq => c.plain q (List.mem_append_left _ hq), ask,
    recorded]
  split
  · -- the ones in front say yes, so the label is looked at
    rw [acceptAll_visibility fun q hq => c.plain q (List.mem_append_right _ hq)]
    rfl
  · rfl

/-- The chains differ in what they remember and in where they count, and in nothing else. -/
structure Alike (c d : Chain) : Prop where
  before : d.before = c.before
  behind : d.behind = c.behind
  filter : ∃ cache account, d.filter = { c.filter with cache := cache, account := account }

theorem Alike.refl (c : Chain) : c.Alike c := ⟨rfl, rfl, c.filter.cache, c.filter.account, rfl⟩

theorem Alike.ask (h : c.Alike d) (e : Entry) : c.Alike (d.ask e) := by
  rw [Chain.ask]
  split
  · obtain ⟨cache, account, hfilter⟩ := h.filter
    obtain ⟨cache', hcache⟩ := d.filter.accept_eq e.1
    refine ⟨h.before, h.behind, cache', account, ?_⟩
    show (d.filter.accept e.1).2.1 = _
    rw [hcache, hfilter]
  · exact h

/-- The chain for an independent reader. -/
def copy (c : Chain) (env : Environment) : Chain :=
  { c with filter := c.filter.copy env, sound := c.filter.sound_copy env }

theorem predicates_copy (c : Chain) (env : Environment) :
    (c.copy env).predicates = c.predicates.map (·.copy env) := by
  have hplain : ∀ qs : List Predicate, (∀ q ∈ qs, q.isVisibility = false) →
      qs.map (·.copy env) = qs := by
    intro qs hqs
    exact (List.map_congr_left fun q hq => copy_of_plain (hqs q hq) env).trans qs.map_id'
  rw [predicates, predicates, List.map_append, List.map_cons,
    hplain c.before fun q hq => c.plain q (List.mem_append_left _ hq),
    hplain c.behind fun q hq => c.plain q (List.mem_append_right _ hq)]
  rfl

theorem Alike.copy (h : c.Alike d) (env : Environment) : c.Alike (d.copy env) := by
  obtain ⟨cache, account, hfilter⟩ := h.filter
  refine ⟨h.before, h.behind, Cache.ofCapacity d.filter.cache.capacity, env.account, ?_⟩
  show d.filter.copy env = _
  rw [Visibility.copy, hfilter]

theorem account_ask (c : Chain) (e : Entry) : (c.ask e).filter.account = c.filter.account := by
  rw [ask]
  split
  · obtain ⟨cache, hcache⟩ := c.filter.accept_eq e.1
    show (c.filter.accept e.1).2.1.account = _
    rw [hcache]
  · rfl

theorem Alike.meets (h : c.Alike d) : meets d.predicates = meets c.predicates := by
  obtain ⟨cache, account, hfilter⟩ := h.filter
  funext e
  rw [predicates, predicates, Predicate.meets, Predicate.meets, List.all_append, List.all_append,
    List.all_cons, List.all_cons, h.before, h.behind, hfilter]
  rfl

/-! ### Many questions -/

/-- A tally that each question counts for an entry or does not is counted for as many entries. -/
theorem times_decisions {a b : Account} {q : Tally → Bool} {w : Entry → Bool}
    (h : ∀ d, c.Alike d → d.filter.account = c.filter.account → ∀ e,
      Event.times b q (d.recorded e)
        + (if a = b ∧ q (.decision (Predicate.meets c.predicates e)) then 1 else 0)
        = if w e then 1 else 0) (es : List Entry) :
    Event.times b q (decisions a c.predicates es) = es.countP w := by
  -- the chain is another one at each entry, and never one that decides or counts elsewhere
  have hall : ∀ d, c.Alike d → d.filter.account = c.filter.account →
      Event.times b q (decisions a d.predicates es) = es.countP w := by
    induction es with
    | nil => exact fun _ _ _ => rfl
    | cons e es ih =>
        intro d hd haccount
        have hask := ih (d.ask e) (hd.ask e) ((d.account_ask e).trans haccount)
        rw [decisions, acceptAll_predicates, Event.times_append, Event.times_cons_count, hask,
          List.countP_cons, ← Nat.add_assoc, hd.meets, h d hd haccount e, Nat.add_comm]
  exact hall c (.refl c) rfl

/-- The numbers of decisions, of errors and of look-ups are numbers of entries. -/
theorem times_entries (c : Chain) (a : Account) (es : List Entry) :
    Event.times a (· = .seek) (decisions a c.predicates es) = 0
      ∧ Event.times a (· = .decision true) (decisions a c.predicates es)
        = es.countP (Predicate.meets c.predicates)
      ∧ Event.times a (· = .decision false) (decisions a c.predicates es)
        = es.countP (fun e => !Predicate.meets c.predicates e)
      ∧ Event.times c.filter.account (· = .parseError) (decisions a c.predicates es)
        = es.countP (fun e => c.filter.isUnreadable e.1 && Predicate.meets c.before e)
      ∧ Event.times c.filter.account Tally.isLookup (decisions a c.predicates es)
        = es.countP fun e =>
          (c.filter.effectiveLabel? e.1).isSome && Predicate.meets c.before e := by
  -- the label filter has no part in the first three
  have hother : ∀ {q : Tally → Bool}, (∀ found, q (.lookup found) = false) →
      q .parseError = false → ∀ (d : Chain) e, Event.times a q (d.recorded e) = 0 := by
    intro q hlookup herror d e
    rw [recorded]
    split
    · exact Visibility.times_accept_other hlookup herror a e.1
    · rfl
  have hlabel : ∀ d, c.Alike d → d.filter.account = c.filter.account → ∀ e,
      Event.times c.filter.account (· = .parseError) (d.recorded e)
          = (if c.filter.isUnreadable e.1 && Predicate.meets c.before e then 1 else 0)
        ∧ Event.times c.filter.account Tally.isLookup (d.recorded e)
          = if (c.filter.effectiveLabel? e.1).isSome && Predicate.meets c.before e then 1
            else 0 := by
    intro d hd haccount e
    obtain ⟨hlookup, herror⟩ := Visibility.times_accept d.sound e.1
    obtain ⟨cache, account, hfilter⟩ := hd.filter
    have hunreadable : d.filter.isUnreadable e.1 = c.filter.isUnreadable e.1 := by
      rw [hfilter]
      rfl
    have heffective : d.filter.effectiveLabel? e.1 = c.filter.effectiveLabel? e.1 := by
      rw [hfilter]
      rfl
    rw [recorded, hd.before, ← haccount]
    cases hmeets : Predicate.meets c.before e with
    | false => simp
    | true =>
        rw [hunreadable] at herror
        rw [heffective] at hlookup
        simpa using ⟨herror, hlookup⟩
  refine ⟨?_, times_decisions ?_ es, times_decisions ?_ es, times_decisions ?_ es,
    times_decisions ?_ es⟩
  · rw [times_decisions (w := fun _ => false) ?_ es]
    · simp
    · intro d _ _ e
      rw [hother (fun _ => rfl) rfl]
      simp
  · intro d _ _ e
    rw [hother (fun _ => rfl) rfl]
    simp
  · intro d _ _ e
    rw [hother (fun _ => rfl) rfl]
    cases Predicate.meets c.predicates e <;> simp
  · intro d hd haccount e
    rw [(hlabel d hd haccount e).1]
    simp
  · intro d hd haccount e
    rw [(hlabel d hd haccount e).2]
    simp [Tally.isLookup]

end Chain

/-! ## After any history -/

namespace Filter

variable {σ : Type} [Cursor σ] {c : Chain} {env : Environment} {source : σ} {f g : Filter σ}

/-- No call changes the account that a filter counts on; a copy may count elsewhere. -/
theorem kept_account (a : Account) : Kept fun f : Filter σ => f.account = a :=
  ⟨fun _ _ hf => hf, fun _ _ => keeps_on fun _ hf => hf, keeps_on fun _ hf => hf⟩

/-- A filter by a chain, as calls and copying can leave it. Where it counts on the account of its
chain's label filter at first, it still does. -/
def Carries (c : Chain) (env : Environment) (f : Filter σ) : Prop :=
  ∃ d, c.Alike d ∧ f.predicates = d.predicates
    ∧ (c.filter.account = env.account → d.filter.account = f.account)

omit [Cursor σ] in
theorem Carries.decides (h : Carries c env f) : f.Decides (meets c.predicates) := by
  obtain ⟨d, hd, hpredicates, -⟩ := h
  rw [Decides, hpredicates]
  exact ⟨d.sound_predicates, hd.meets⟩

theorem kept_carries : Kept (Carries c env : Filter σ → Prop) := by
  refine ⟨?_, fun _ _ => keeps_on fun _ hf => hf, keeps_on fun _ hf => hf⟩
  rintro e f ⟨d, hd, hpredicates, haccount⟩
  refine ⟨d.ask e, hd.ask e, ?_, ?_⟩
  · show (acceptAll f.predicates e).2.1 = _
    rw [hpredicates, Chain.acceptAll_predicates]
  · rw [Chain.account_ask]
    exact haccount

theorem carries_reached (h : Reached (ofPredicates source c.predicates env) g) :
    Carries c env g := by
  induction h with
  | here => exact ⟨c, .refl c, rfl, id⟩
  | seek range families _ ih => exact kept_carries.place range families _ ih
  | next _ ih => exact kept_carries.step _ ih
  | copy env' _ hcopy ih =>
      obtain ⟨t, -, rfl⟩ := exists_of_copy hcopy
      obtain ⟨d, hd, hpredicates, -⟩ := ih
      refine ⟨d.copy env', hd.copy env', ?_, fun _ => rfl⟩
      show List.map _ _ = _
      rw [hpredicates, Chain.predicates_copy]

/-- Whatever has been asked of a filter before, a scan asks its chain about each entry of the
source once, and the chain is the one it was made with but for what it remembers. -/
theorem events_reached {listing : Range → FamilyFilter → List Entry} (hs : Lists source listing)
    (hquiet : Quiet source) (hg : Reached (ofPredicates source c.predicates env) g)
    (range : Range) (families : FamilyFilter) :
    ∃ d : Chain, c.Alike d ∧ g.predicates = d.predicates
      ∧ (c.filter.account = env.account → d.filter.account = g.account)
      ∧ (Scan.scan range families g).events
        = .count g.account .seek :: decisions g.account d.predicates (listing range families) := by
  have hcarries := carries_reached hg
  have hsource := reached_source hg
  have hevents := events_scan hcarries.decides (hs.of_reached hsource) (hquiet.of_reached hsource)
    range families
  obtain ⟨d, hd, hpredicates, haccount⟩ := hcarries
  rw [hpredicates] at hevents
  exact ⟨d, hd, hpredicates, haccount, hevents⟩

end Filter

/-! ## Tables and merges of tables -/

namespace Plan

/-- A stack of tables and merges alone. -/
inductive Unfiltered : Plan → Prop
  | table (t : Table) : Unfiltered (.table t)
  | merge {children : List Plan} (dedupe : Bool) (account : Option Account) :
      (∀ child ∈ children, Unfiltered child) → Unfiltered (.merge children dedupe account)
  | moved {plan : Plan} (calls : List Call) : Unfiltered plan → Unfiltered (.moved plan calls)

theorem stackEach_eq (plans : List Plan) : stackEach plans = plans.map stack := by
  induction plans with
  | nil => rw [stackEach, List.map_nil]
  | cons plan plans ih => rw [stackEach, List.map_cons, ih]

/-- Tables and merges of tables record nothing. -/
theorem Unfiltered.quiet {plan : Plan} (h : plan.Unfiltered) : Quiet plan.stack.stack := by
  induction h with
  | table t =>
      rw [stack]
      exact Source.silent (.table t)
  | @merge children dedupe account _ ih =>
      rw [stack]
      refine Layer.wraps_merge.silent (Merge.silent ?_)
      intro s hs
      obtain ⟨⟨t, ht⟩, -, rfl⟩ := List.mem_map.mp hs
      rw [stackEach_eq] at ht
      obtain ⟨child, hchild, rfl⟩ := List.mem_map.mp ht
      exact Stack.of_raiseTo (P := fun n (s : Stack Source n) => Quiet s)
        (fun _ _ hs => Layer.wraps_bare.silent hs) (ih child hchild) _
  | moved calls _ ih =>
      rw [stack]
      exact ih.of_reached (Reached.here.after calls)

end Plan

namespace Filter

/-- A scan of a filter over a table or over merges of tables, whatever calls have been made on it
and whatever its label filter remembers, returns the entries of the source that meet its
conditions, and it accounts for each entry once. On the filter's account it counts one seek, as
many entries accepted as it returns, and as many rejected as it does not. On the account of the
label filter, which is the same if it was at first, it counts those entries that get as far as the
label filter: one look-up for each that has a label or is given one, found or not, and one error for
each of them whose label cannot be evaluated. -/
theorem tallies_each_entry_once {plan : Plan} (hplan : plan.Unfiltered) (c : Chain)
    (env : Environment) {g : Filter (Tower Source)}
    (hg : Reached (ofPredicates plan.stack c.predicates env) g) (range : Range)
    (families : FamilyFilter) :
    (Scan.scan range families g).result
        = .ok ((plan.listing range families).filter (meets c.predicates))
      ∧ ∃ d : Chain, c.Alike d ∧ g.predicates = d.predicates
        ∧ (c.filter.account = env.account → d.filter.account = g.account)
        ∧ ∀ l : Ledger,
          let es := plan.listing range families
          let now := l.enterAll (Scan.scan range families g).events
          let own := g.account
          let labels := d.filter.account
          (now.statistics own).seeks = (l.statistics own).seeks + 1
            ∧ (now.statistics own).accepted
              = (l.statistics own).accepted + UInt64.ofNat (es.filter (meets c.predicates)).length
            ∧ (now.statistics own).rejected
              = (l.statistics own).rejected
                + UInt64.ofNat (es.filter fun e => !meets c.predicates e).length
            ∧ (now.statistics labels).parseErrors
              = (l.statistics labels).parseErrors + UInt64.ofNat
                ((es.filter (meets c.before)).countP fun e => c.filter.isUnreadable e.1)
            ∧ (now.statistics labels).cacheHits + (now.statistics labels).cacheMisses
              = (l.statistics labels).cacheHits + (l.statistics labels).cacheMisses + UInt64.ofNat
                ((es.filter (meets c.before)).countP fun e =>
                  (c.filter.effectiveLabel? e.1).isSome) := by
  have hlists : Lists plan.stack plan.listing := Tower.lists_of_stack plan.lists_stack
  have hquiet : Quiet plan.stack := (Tower.wraps_mk _).silent hplan.quiet
  obtain ⟨d, hd, hpredicates, haccount, hevents⟩ := events_reached hlists hquiet hg range families
  have hdecides : (ofPredicates plan.stack c.predicates env).Decides (meets c.predicates) :=
    decides_ofPredicates c.sound_predicates env
  refine ⟨((Filter.lists hdecides hlists).of_reached hg).scan range families, d, hd, hpredicates,
    haccount, fun l => ?_⟩
  obtain ⟨hseek, haccepted, hrejected, herrors, hlookups⟩ :=
    d.times_entries g.account (plan.listing range families)
  obtain ⟨cache, account, hfilter⟩ := hd.filter
  have hunreadable : d.filter.isUnreadable = c.filter.isUnreadable := by
    rw [hfilter]
    rfl
  have hlabel : d.filter.effectiveLabel? = c.filter.effectiveLabel? := by
    rw [hfilter]
    rfl
  rw [hd.meets] at haccepted hrejected
  rw [hd.before, hunreadable] at herrors
  rw [hd.before, hlabel] at hlookups
  obtain ⟨hseeks, haccept, hreject, -, -⟩ :=
    l.counters_enterAll (Scan.scan range families g).events g.account
  obtain ⟨-, -, -, hparse, hcache⟩ :=
    l.counters_enterAll (Scan.scan range families g).events d.filter.account
  dsimp only
  rw [hseeks, haccept, hreject, hparse, hcache, hevents, Event.times_cons_count,
    Event.times_cons_count, Event.times_cons_count, Event.times_cons_count, Event.times_cons_count,
    hseek, haccepted, hrejected, herrors, hlookups, List.countP_filter, List.countP_filter,
    ← List.countP_eq_length_filter, ← List.countP_eq_length_filter]
  simp [Tally.isLookup]

/-! ### A merge with labels that cannot be read -/

/-- Six cells in key order. Those of the rows 2, 3 and 5 have a label that is no formula, that of
row 4 has none, and that of row 5 is in a family of its own. -/
def sixCells : List Entry :=
  [(⟨[1], [], [], [115], 9, false⟩, []), (⟨[2], [], [], [40], 9, false⟩, []),
    (⟨[3], [], [], [40], 9, false⟩, []), (⟨[4], [], [], [], 9, false⟩, []),
    (⟨[5], [1], [], [40], 9, false⟩, []), (⟨[6], [], [], [116], 9, false⟩, [])]

/-- The six cells in two tables, read as one after a first look at them. -/
def halves : Plan :=
  .moved
    (.merge [.table (Table.ofEntries (sixCells.take 2 ++ sixCells.drop 4)),
      .table (Table.ofEntries ((sixCells.drop 2).take 2))] false none)
    [.seek Range.all FamilyFilter.all]

/-- Someone with the token `s`, which cells without a label ask for, and a memory for one label. -/
def reader : Environment :=
  { Environment.ofAccount 7 with
    authorizations := ⟨[[115]], List.pairwise_singleton _ _⟩, defaultVisibility := [115]
    cacheCapacity := 1 }

/-- Cells in no family that the reader may see, and that have a label of their own. -/
def forReader : Chain where
  before := [.families (FamilyFilter.only [])]
  filter := Visibility.ofEnvironment reader
  behind := [.labelled]
  plain := by decide
  sound := Visibility.sound_withDefault reader _

/-- The filter in the midst of a scan. -/
def halfway : Filter (Tower Source) :=
  after (ofPredicates halves.stack forReader.predicates reader)
    [.seek Range.all FamilyFilter.all, .next]

theorem listing_halves : halves.listing Range.all FamilyFilter.all = sixCells := by
  have hscan := (halves.scan_stack [] Range.all FamilyFilter.all).2.2.1
  have hread : (Scan.scan Range.all FamilyFilter.all (after halves.stack [])).result
      = .ok sixCells := by
    decide +kernel
  exact Except.ok.inj (hscan.symm.trans hread)

/-- Another scan returns one of the six cells. Five of them get as far as their labels, two with
a label that cannot be read. -/
theorem tallies_halves :
    (Scan.scan Range.all FamilyFilter.all halfway).result = .ok (sixCells.take 1)
      ∧ ∀ l : Ledger,
        let before := l.statistics 7
        let now := (l.enterAll (Scan.scan Range.all FamilyFilter.all halfway).events).statistics 7
        now.seeks = before.seeks + 1 ∧ now.accepted = before.accepted + 1
          ∧ now.rejected = before.rejected + 5 ∧ now.parseErrors = before.parseErrors + 2
          ∧ now.cacheHits + now.cacheMisses = before.cacheHits + before.cacheMisses + 5 := by
  have hplan : halves.Unfiltered := by
    refine .moved _ (.merge false none ?_)
    exact List.forall_mem_cons.mpr ⟨.table _, List.forall_mem_singleton.mpr (.table _)⟩
  have hreached : Reached (ofPredicates halves.stack forReader.predicates reader) halfway :=
    Reached.here.after _
  obtain ⟨hresult, d, -, -, haccount, hcounts⟩ :=
    tallies_each_entry_once hplan forReader reader hreached Range.all FamilyFilter.all
  have hown : halfway.account = 7 :=
    (kept_account 7).step _ ((kept_account 7).place Range.all FamilyFilter.all _ rfl)
  have hlabels : d.filter.account = 7 := (haccount rfl).trans hown
  have hreturned : sixCells.filter (meets forReader.predicates) = sixCells.take 1 := by cbv
  have hrejected : (sixCells.filter fun e => !meets forReader.predicates e).length = 5 := by cbv
  have hunreadable : (sixCells.filter (meets forReader.before)).countP
      (fun e => forReader.filter.isUnreadable e.1) = 2 := by cbv
  have hlabelled : (sixCells.filter (meets forReader.before)).countP
      (fun e => (forReader.filter.effectiveLabel? e.1).isSome) = 5 := by cbv
  simp only [listing_halves, hown, hlabels, hreturned, hrejected, hunreadable, hlabelled]
    at hresult hcounts
  exact ⟨hresult, hcounts⟩

end Filter

end CellScan
