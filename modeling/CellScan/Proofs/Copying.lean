/-
`Copying.lean` -- copies that a seek brings together with their original.

A copy shares the cells and the conditions of its original and nothing else: it stands at no
entry, its queue is empty and its predicates remember nothing. All of that a seek puts aside.
So what matters of a cursor is kept by every call and by every copy: `Coherent` says that all
states that calls and copies bring it to are related, and that each of them can be copied.

Tables are coherent, and so are stages upon coherent cursors: a merge keeps its children, a
filter its source and what it decides by, an intersection its query and the source that all
its cursors are copies of (`Intersection.Keeping`). Layer upon layer this gives every stack that
is put together from tables (`Stack.coherent_of_assembled`).
-/
import CellScan.Proofs.Playing
import CellScan.Proofs.Stages

set_option autoImplicit false

namespace CellScan

open CellScan.Action CellScan.Cursor
open List (Forall₂)

/-! ## The law -/

/-- All states that calls and copies bring the cursor to are related, and each of them has
copies, which stand at no entry. -/
structure Cursor.Coherent {σ : Type} [Cursor σ] (A : σ → σ → Prop) (s : σ) : Prop where
  apart : ∀ {t u : σ}, Reached s t → Reached s u → A t u
  copy : ∀ {t : σ}, Reached s t → ∀ env, ∃ c, Cursor.copy env t = .ok c ∧ Cursor.top c = none

namespace Cursor

variable {σ τ : Type} [Cursor σ] [Cursor τ] {A : σ → σ → Prop} {B : τ → τ → Prop} {s t : σ}

theorem Coherent.of_reached (h : Coherent A s) (ht : Reached s t) : Coherent A t where
  apart hu hv := h.apart (ht.trans hu) (ht.trans hv)
  copy hu := h.copy (ht.trans hu)

theorem Wraps.coherent {put : σ → τ} (h : Wraps put) (hs : Coherent A s)
    (hput : ∀ t u, A t u → B (put t) (put u)) : Coherent B (put s) := by
  refine ⟨?_, ?_⟩
  · intro t' u' ht' hu'
    obtain ⟨t, ht, rfl⟩ := h.reached ht'
    obtain ⟨u, hu, rfl⟩ := h.reached hu'
    exact hput t u (hs.apart ht hu)
  · intro t' ht' env
    obtain ⟨t, ht, rfl⟩ := h.reached ht'
    obtain ⟨c, hc, htop⟩ := hs.copy ht env
    refine ⟨put c, ?_, (h.top c).trans htop⟩
    rw [h.copy, hc]
    rfl

end Cursor

/-! ## Tables -/

namespace Table

/-- Two tables of the same cells. -/
def Alike (t u : Table) : Prop := t.entries = u.entries

theorem coherent (t : Table) : Coherent Alike t where
  apart hu hv := (entries_of_reached hu).trans (entries_of_reached hv).symm
  copy _ _ := ⟨_, rfl, rfl⟩

theorem placed_eq {t u : Table} (h : Alike t u) (range : Range) (families : FamilyFilter) :
    t.placed range families = u.placed range families := by
  obtain ⟨entries, sorted, range₀, families₀, current, held⟩ := t
  obtain ⟨entries', sorted', range₁, families₁, current', held'⟩ := u
  obtain rfl : entries = entries' := h
  rfl

/-- A seek brings tables of the same cells to the same place. -/
theorem joining (E : Excuses) : Joining E Alike (· = · : Table → Table → Prop) where
  top h := congrArg Cursor.top h
  apart h := congrArg Table.entries h
  turns h := Or.inl (congrArg List.length h)
  seek h range families := InStep.done (runs_change _ _) (runs_change _ _) (placed_eq h range families)
  next := by
    rintro t _ rfl
    rcases hres : (Cursor.next t).result with fault | _
    · exact InStep.failed hres hres
    · exact InStep.done (runs_of_result hres) (runs_of_result hres) rfl

end Table

/-! ## Merges -/

theorem Merge.coherent {σ : Type} [Cursor σ] {A : σ → σ → Prop} {children : List σ}
    (h : ∀ c ∈ children, Coherent A c) (dedupe : Bool) (account : Option Account) :
    Coherent (Merge.Apart A) (Merge.ofChildren children dedupe account) := by
  have hupon : ∀ {m : Merge σ}, Reached (ofChildren children dedupe account) m →
      Forall₂ (fun c s => Coherent A c ∧ Reached c s) children m.children :=
    fun hm => (List.forall₂_and_left _ _).mpr ⟨h, (upon_of_reached hm).1⟩
  refine ⟨?_, ?_⟩
  · intro m n hm hn
    refine ⟨?_, (upon_of_reached hm).2.trans (upon_of_reached hn).2.symm⟩
    exact Parallel.join (hupon hm) (hupon hn) fun _ _ _ hs ht => hs.1.apart hs.2 ht.2
  · intro m hm env
    have hcopies : ∀ s ∈ m.children, ∃ c, Cursor.copy env s = .ok c := by
      intro s hs
      obtain ⟨i, hi⟩ := List.mem_iff_getElem?.mp hs
      obtain ⟨c, -, hcoherent, hreached⟩ := Parallel.exists_left (hupon hm) hi
      obtain ⟨copied, hcopied, -⟩ := hcoherent.copy hreached env
      exact ⟨copied, hcopied⟩
    obtain ⟨copies, hall⟩ := Parallel.exists_of_forall hcopies
    exact ⟨_, copy_of_forall₂ hall, rfl⟩

/-! ## Filters -/

theorem Filter.coherent {σ : Type} [Cursor σ] {A : σ → σ → Prop} {f : Filter σ}
    {p : Entry → Bool} (h : Coherent A f.source) (hdec : f.Decides p) :
    Coherent (Filter.Twin A) f := by
  refine ⟨?_, ?_⟩
  · intro g g' hg hg'
    exact ⟨h.apart (reached_source hg) (reached_source hg'),
      Or.inr ⟨p, hdec.of_reached hg, hdec.of_reached hg'⟩⟩
  · intro g hg env
    obtain ⟨c, hc, htop⟩ := h.copy (reached_source hg) env
    exact ⟨_, copy_of_source hc, htop⟩

/-! ## Intersections

All that an intersection does to its cursors is to seek them, so every call keeps what seeks
keep of a cursor. -/

section Keeping

variable {σ : Type} [Cursor σ] {P : σ → Prop}
  (hP : ∀ s range families, P s → P (Cursor.seek range families s).state)

namespace Probe

variable {term : Bytes}

/-- The probe is for the term, and its cursor has the property. -/
structure Keeping (P : σ → Prop) (term : Bytes) (p : Probe σ) : Prop where
  term : p.term = term
  cursor : P p.cursor

include hP

theorem keeps_seekTo (s : Search) (start : Key) : Keeps (Keeping P term) (seekTo s start) :=
  (keeps_record _).bind fun _ => (keeps_look _).bind fun _ =>
    (keeps_on fun _ hp => ⟨hp.term, hP _ _ _ hp.cursor⟩).bind fun _ =>
      keeps_change fun _ hp => ⟨hp.term, hp.cursor⟩

theorem keeps_seeks (s : Search) (t : Target) (n : Nat) (start : Key) :
    Keeps (Keeping P term) (look s t n start) := by
  induction n generalizing start with
  | zero => exact keeps_fail _
  | succ n ih =>
      refine (keeps_seekTo hP s start).bind fun _ => (keeps_look _).bind fun found => ?_
      rcases found with d | _ | start'
      · exact keeps_pure _
      · exact keeps_pure _
      · exact ih start'

theorem keeps_align (s : Search) (t : Target) (n : Nat) : Keeps (Keeping P term) (align s t n) := by
  intro p hp
  rcases hst : p.standing? s t with _ | d
  · simp only [align, hst]
    exact keeps_seeks hP s t n _ p hp
  · simp only [align, hst]
    exact hp

end Probe

namespace Intersection

open CellScan.Probe

variable {q : Query} {x : Intersection σ}

/-- The intersection is for the query, and all its cursors have the property. -/
structure Keeping (P : σ → Prop) (q : Query) (x : Intersection σ) : Prop where
  query : x.query = q
  source : P x.source
  documents : P x.documents
  positives : Forall₂ (Probe.Keeping P) q.positives x.positives
  negatives : Forall₂ (Probe.Keeping P) q.negatives x.negatives

omit [Cursor σ] in
/-- To forget where the probes stand is not to touch their cursors. -/
theorem Keeping.restart (h : Keeping P q x) (range : Range) : Keeping P q (restart range x) := by
  have hunplaced : ∀ {terms : List Bytes} {ps : List (Probe σ)},
      Forall₂ (Probe.Keeping P) terms ps → Forall₂ (Probe.Keeping P) terms (unplaced ps) := by
    intro terms ps hps
    rw [unplaced, List.forall₂_map_right_iff]
    exact hps.imp fun _ _ hp => ⟨hp.term, hp.cursor⟩
  exact ⟨h.query, h.source, h.documents, hunplaced h.positives, hunplaced h.negatives⟩

omit [Cursor σ] in
theorem keeping_opened {source copied : σ} (hs : P source) (hc : P copied) (env : Environment) :
    Keeping P q (opened source copied q env) := by
  have hprobes : ∀ terms : List Bytes,
      Forall₂ (Probe.Keeping P) terms (terms.map fun term => (⟨term, copied, false⟩ : Probe σ)) := by
    intro terms
    rw [List.forall₂_map_right_iff, List.forall₂_same]
    exact fun _ _ => ⟨rfl, hc⟩
  exact ⟨rfl, hs, hc, hprobes q.positives, hprobes q.negatives⟩

include hP

theorem keeps_alignPositive (turn : Nat) (t : Target) :
    Keeps (Keeping P q) (alignPositive turn t) := by
  intro x hx
  have hall : Forall₂ (Probe.Keeping P) q.positives
      (onItem turn none (align x.search t x.seeks) x.positives).state :=
    Parallel.onItem_state hx.positives turn fun _ p hp => keeps_align hP _ t _ p hp
  exact ⟨hx.query, hx.source, hx.documents, hall, hx.negatives⟩

theorem keeps_agree (n agreed turn : Nat) (t : Target) :
    Keeps (Keeping P q) (agree n agreed turn t) := by
  induction n generalizing agreed turn t with
  | zero => exact keeps_fail _
  | succ n ih =>
      intro x hx
      by_cases hall : agreed = x.positives.length
      · rw [hall, agree_all n turn t]
        exact hx
      · rw [agree_succ n agreed turn t hall]
        refine (keeps_alignPositive hP turn t).bind (fun r => ?_) x hx
        rcases r with _ | d
        · exact keeps_pure none
        · exact ih _ _ _

theorem keeps_isRuledOut (d : Document) : Keeps (Keeping P q) (isRuledOut d) := by
  intro x hx
  rw [isRuledOut_apply]
  have hask : ∀ term p, Probe.Keeping P term p →
      Probe.Keeping P term (askFor x.search x.seeks d p).state :=
    fun _ p hp => (keeps_align hP _ _ _).bind (fun _ => keeps_pure _) p hp
  exact ⟨hx.query, hx.source, hx.documents, hx.positives, Parallel.anyItem_state hx.negatives hask⟩

theorem keeps_nextHit (n : Nat) (t : Target) : Keeps (Keeping P q) (nextHit n t) := by
  induction n generalizing t with
  | zero => exact keeps_fail _
  | succ n ih =>
      intro x hx
      rw [nextHit_succ]
      refine (keeps_agree hP _ 0 0 t).bind (fun r => ?_) x hx
      rcases r with _ | d
      · exact keeps_pure none
      · refine (keeps_isRuledOut hP d).bind fun ruledOut => ?_
        split
        · exact ih _
        · exact keeps_pure _

theorem keeps_fetch (d : Document) : Keeps (Keeping P q) (fetch d) := by
  refine (keeps_look _).bind fun layout => Keeps.bind (keeps_on fun x hx => ?_) fun _ =>
    (keeps_look _).bind fun top => ?_
  · exact ⟨hx.query, hx.source, hP _ _ _ hx.documents, hx.positives, hx.negatives⟩
  · rcases top with _ | e
    · exact keeps_pure _
    · exact keeps_pure _

theorem keeps_goTo (t : Target) : Keeps (Keeping P q) (goTo t) := by
  have hstand : ∀ d, Keeps (Keeping P q) (stand d) := fun d => (keeps_fetch hP d).bind fun _ =>
    (keeps_look _).bind fun _ => (keeps_record _).bind fun _ => keeps_change fun _ hx =>
      ⟨hx.query, hx.source, hx.documents, hx.positives, hx.negatives⟩
  refine (keeps_change fun _ hx =>
    ⟨hx.query, hx.source, hx.documents, hx.positives, hx.negatives⟩).bind fun _ =>
      (keeps_look _).bind fun _ => (keeps_nextHit hP _ t).bind fun r => ?_
  rcases r with _ | d
  · exact keeps_pure ()
  · exact hstand d

theorem keeps_place (range : Range) : Keeps (Keeping P q) (place range) := by
  refine (keeps_look _).bind fun _ => (keeps_record _).bind fun _ =>
    Keeps.bind (keeps_change fun _ hx => hx.restart range) fun _ => (keeps_look _).bind fun _ => ?_
  split
  · exact keeps_pure ()
  · exact keeps_goTo hP _

theorem keeps_step : Keeps (Keeping P q) (step : Action (Intersection σ) Unit) := by
  intro x hx
  rcases hhit : x.hit with _ | d
  · rw [step_of_none hhit]
    exact hx
  · rw [step_of_hit hhit]
    exact keeps_goTo hP _ _ ⟨hx.query, hx.source, hx.documents, hx.positives, hx.negatives⟩

end Intersection

end Keeping

namespace Intersection

variable {σ : Type} [Cursor σ] {A : σ → σ → Prop} {E : Excuses} {source : σ} {q : Query}
  {x y : Intersection σ} {env : Environment}

/-- A copy is the intersection for the same query, built anew from a copy of the source. -/
theorem exists_copy (h : Coherent A source) (hx : Keeping (Reached source) q x)
    (env : Environment) : ∃ s c, copyFor env x = .ok (opened s c q env) ∧ Reached source s
      ∧ Reached source c := by
  obtain ⟨s, hs, -⟩ := h.copy hx.source env
  have hreached := hx.source.copy env hs
  obtain ⟨c, hc, -⟩ := h.copy hreached env
  refine ⟨s, c, ?_, hreached, hreached.copy env hc⟩
  rw [copyFor, hs, hx.query]
  exact ofQuery_of_copy hc q

/-- Whatever calls and copies have been made, all cursors are brought from one source. -/
theorem keeping_of_reached (h : Coherent A source) (hx : ofQuery source q env = .ok x)
    (hy : Reached x y) : Keeping (Reached source) q y := by
  induction hy with
  | here =>
      obtain ⟨c, hc, -⟩ := h.copy .here env
      rw [ofQuery_of_copy hc] at hx
      rw [← Except.ok.inj hx]
      exact keeping_opened .here (Reached.here.copy env hc) env
  | seek range families _ ih =>
      exact keeps_place (fun _ range families hs => hs.seek range families) range _ ih
  | next _ ih => exact keeps_step (fun _ range families hs => hs.seek range families) _ ih
  | copy env' _ hcopy ih =>
      obtain ⟨s, c, hc, hs, hreached⟩ := exists_copy h ih env'
      rw [Except.ok.inj (hcopy.symm.trans hc)]
      exact keeping_opened hs hreached env'

theorem apart_of_keeping (h : Coherent A source)
    (hturns : ∀ t u, A t u → E.Turns (Cursor.reach t) (Cursor.reach u))
    (hx : Keeping (Reached source) q x) (hy : Keeping (Reached source) q y) : Apart E A x y := by
  have hprobes : ∀ {terms : List Bytes} {ps qs : List (Probe σ)},
      Forall₂ (Probe.Keeping (Reached source)) terms ps →
      Forall₂ (Probe.Keeping (Reached source)) terms qs → Forall₂ (Probe.Apart A) ps qs :=
    fun hps hqs => Parallel.join hps hqs fun _ _ _ hp hq =>
      ⟨hp.term.trans hq.term.symm, h.apart hp.cursor hq.cursor⟩
  exact ⟨hx.query.trans hy.query.symm, hturns _ _ (h.apart hx.source hy.source),
    hprobes hx.positives hy.positives, hprobes hx.negatives hy.negatives,
    h.apart hx.documents hy.documents⟩

theorem coherent (h : Coherent A source)
    (hturns : ∀ t u, A t u → E.Turns (Cursor.reach t) (Cursor.reach u))
    (hx : ofQuery source q env = .ok x) : Coherent (Apart E A) x where
  apart hy hy' := apart_of_keeping h hturns (keeping_of_reached h hx hy) (keeping_of_reached h hx hy')
  copy hy env := by
    obtain ⟨s, c, hc, -, -⟩ := exists_copy h (keeping_of_reached h hx hy) env
    exact ⟨_, hc, rfl⟩

end Intersection

/-! ## Stacks -/

/-- No fault is excused. -/
def Excuses.none : Excuses := ⟨fun _ => False, fun _ => False⟩

/-- Two tables of the same cells, as sources. -/
inductive Source.Alike : Source → Source → Prop
  | table {t u : Table} : Table.Alike t u → Alike (.table t) (.table u)

/-- Two tables, as sources, that are the same. -/
inductive Source.Same : Source → Source → Prop
  | table (t : Table) : Same (.table t) (.table t)

theorem Source.joining (E : Excuses) : Joining E Source.Alike Source.Same where
  top := by
    rintro _ _ ⟨t⟩
    rfl
  apart := by
    rintro _ _ ⟨t⟩
    exact .table rfl
  turns := by
    rintro _ _ ⟨h⟩
    exact (Table.joining E).turns h
  seek := by
    rintro _ _ ⟨h⟩ range families
    refine ((Table.joining E).seek h range families).within rfl rfl ?_
    rintro t _ rfl
    exact .table t
  next := by
    rintro _ _ ⟨t⟩
    refine ((Table.joining E).next (rfl : t = t)).within rfl rfl ?_
    rintro t _ rfl
    exact .table t

namespace Stack

/-- The stack is put together from tables by merges, filters and intersections, in any nesting,
and calls may have been made on any part of it and copies taken before it was built upon. The
flag says whether intersections are allowed. -/
inductive Assembled : Bool → (n : Nat) → Stack Source n → Prop
  | table (searches : Bool) (t : Table) : Assembled searches 0 (Source.table t)
  | bare {searches : Bool} {n : Nat} {s : Stack Source n} : Assembled searches n s →
      Assembled searches (n + 1) (Layer.bare s)
  | merge {searches : Bool} {n : Nat} {children : List (Stack Source n)} (dedupe : Bool)
      (account : Option Account) : (∀ c ∈ children, Assembled searches n c) →
      Assembled searches (n + 1) (Layer.merge (Merge.ofChildren children dedupe account))
  | filter {searches : Bool} {n : Nat} {s : Stack Source n} {ps : List Predicate}
      (env : Environment) : Assembled searches n s → (∀ p ∈ ps, p.Sound) →
      Assembled searches (n + 1) (Layer.filter (Filter.ofPredicates s ps env))
  | intersection {n : Nat} {s : Stack Source n} {q : Query} {env : Environment}
      {x : Intersection (Stack Source n)} : Assembled true n s →
      Intersection.ofQuery s q env = .ok x → Assembled true (n + 1) (Layer.intersection x)
  | moved {searches : Bool} {n : Nat} {s t : Stack Source n} : Assembled searches n s →
      Reached s t → Assembled searches n t

/-- All states of a stack that is put together from tables are brought together by a seek. -/
theorem coherent_of_assembled {searches : Bool} {n : Nat} {s : Stack Source n}
    (h : Assembled searches n s) : Coherent (Stack.Apart Excuses.none Source.Alike n) s := by
  induction h with
  | table _ t => exact Source.wraps_table.coherent t.coherent fun _ _ => .table
  | bare _ ih => exact Layer.wraps_bare.coherent ih fun _ _ => .bare
  | merge dedupe account _ ih =>
      exact Layer.wraps_merge.coherent (Merge.coherent ih dedupe account) fun _ _ => .merge
  | filter env _ hsound ih =>
      exact Layer.wraps_filter.coherent (Filter.coherent ih (Filter.decides_ofPredicates hsound env))
        fun _ _ => .filter
  | @intersection n s q env x _ hx ih =>
      obtain ⟨_, hjoining⟩ := Stack.exists_joining (Source.joining Excuses.none) n
      exact Layer.wraps_intersection.coherent
        (Intersection.coherent ih (fun _ _ => hjoining.turns) hx) fun _ _ => .intersection
  | moved _ ht ih => exact ih.of_reached ht

end Stack

end CellScan
