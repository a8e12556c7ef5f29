/-
`Search.lean` -- what the search for a hit comes to.

The probes of the terms asked for take turns until all of them stand at one document.
Two things are followed along the loop. The last probes that had their turns have all
found the document that is the target (`behind` counts the turns back), so when they are
all of the probes, every term asked for is posted for it. And every document that would
do lies at or after the target, because each turn moves the target to the *first* posting
of a term.

The loop ends because the target moves up through the documents that are posted: as long
as it stays, one more probe agrees; when it moves, fewer documents lie beyond it
(`beyond`). The outer loop passes over documents that are ruled out, and each is left
behind for good.

As for a single probe, what is found is right for every sequence of entries, and that
nothing is missed for plain ones.
-/
import CellScan.Intersection
import CellScan.Proofs.Parallel
import CellScan.Proofs.Probe

set_option autoImplicit false

namespace CellScan

open CellScan.Action CellScan.Cursor CellScan.Entry
open List (Forall₂)
open scoped Linear

namespace Probe

variable {σ : Type} [Cursor σ] {s : Search} {heeds : Bool} {es : List Entry} {t : Target}
  {terms : List Bytes} {ps : List (Probe σ)}

/-! ## Probes side by side with their terms -/

/-- Probes for some terms over a source that serves some entries. -/
def Team (heeds : Bool) (es : List Entry) (terms : List Bytes) (ps : List (Probe σ)) : Prop :=
  Forall₂ (fun term p => p.term = term ∧ Upon heeds es p) terms ps

/-- Every probe stands at or before all that is wanted of its term. -/
def AllSettled (s : Search) (es : List Entry) (t : Target) (ps : List (Probe σ)) : Prop :=
  ∀ p ∈ ps, Settled s es t p

theorem AllSettled.mono (h : AllSettled s es t ps) {t' : Target}
    (ht : ∀ d, t'.admits d = true → t.admits d = true) : AllSettled s es t' ps :=
  fun p hp => (h p hp).mono ht

theorem AllSettled.set (h : AllSettled s es t ps) {p : Probe σ} (hp : Settled s es t p) (i : Nat) :
    AllSettled s es t (ps.set i p) := by
  intro q hq
  rcases List.mem_or_eq_of_mem_set hq with hmem | rfl
  · exact h q hmem
  · exact hp

/-- One probe of a team is aligned. -/
theorem alignItem_runs (h : Team heeds es terms ps) {i : Nat} {term : Bytes}
    (hi : terms[i]? = some term) {n : Nat} (hn : es.length < n) :
    ∃ r qs, Runs (Action.onItem i none (align s t n)) ps r qs ∧ Team heeds es terms qs
      ∧ Found s es t term r
      ∧ (Plain es → AllSettled s es t ps → First s es t term r ∧ AllSettled s es t qs) := by
  obtain ⟨p, hp, hterm, hupon⟩ := Parallel.exists_right h hi
  obtain ⟨r, q, hq, hal⟩ := align_runs (s := s) (t := t) hupon hn
  refine ⟨r, ps.set i q, runs_onItem hp hq, ?_, hterm ▸ hal.found, ?_⟩
  · exact Parallel.set_right h hi ⟨hal.term.trans hterm, hal.upon⟩
  · intro hplain hsettled
    obtain ⟨hfirst, hq⟩ := hal.first hplain (hsettled p (List.mem_of_getElem? hp))
    exact ⟨hterm ▸ hfirst, hsettled.set hq i⟩

/-- Asking the probes about one document, up to the first that has it. -/
def askFor (s : Search) (n : Nat) (d : Document) : Action (Probe σ) Bool := do
  let found ← align s (Target.ofDocument d) n
  pure (found == some d)

theorem askFor_runs {p : Probe σ} (h : Upon heeds es p) (d : Document) {n : Nat}
    (hn : es.length < n) :
    ∃ b q, Runs (askFor s n d) p b q ∧ q.term = p.term ∧ Upon heeds es q
      ∧ (b = true → Posts s.layout es p.term d)
      ∧ (Plain es → s.range.isAfterRow d.row = false → Settled s es (Target.ofDocument d) p →
          (b = false → ¬ Posts s.layout es p.term d) ∧ Settled s es (Target.ofDocument d) q) := by
  obtain ⟨r, q, hq, hal⟩ := align_runs (s := s) (t := Target.ofDocument d) h hn
  refine ⟨r == some d, q, hq.bind (f := fun found => pure (found == some d)) (runs_pure _ q),
    hal.term, hal.upon, ?_, ?_⟩
  · intro hb
    exact (hal.found d (beq_iff_eq.mp hb)).posts
  · intro hplain hwithin hsettled
    obtain ⟨hfirst, hsettled'⟩ := hal.first hplain hsettled
    refine ⟨?_, hsettled'⟩
    intro hb hposts
    -- the first posting at or after the document is of the document itself
    obtain ⟨d₀, hd₀, hle⟩ := hfirst d ⟨hposts, (Target.admits_ofDocument d d).mpr (le_refl d), hwithin⟩
    have hge : d ≤ d₀ := (Target.admits_ofDocument d d₀).mp (hal.found d₀ hd₀).admits
    obtain rfl : d₀ = d := le_antisymm hle hge
    rw [hd₀, beq_self_eq_true] at hb
    exact Bool.noConfusion hb

theorem anyItem_runs (h : Team heeds es terms ps) (d : Document) {n : Nat} (hn : es.length < n) :
    ∃ b qs, Runs (Action.anyItem (askFor s n d)) ps b qs ∧ Team heeds es terms qs
      ∧ (b = true → ∃ term ∈ terms, Posts s.layout es term d)
      ∧ (Plain es → s.range.isAfterRow d.row = false → AllSettled s es (Target.ofDocument d) ps →
          (b = false → ∀ term ∈ terms, ¬ Posts s.layout es term d)
            ∧ AllSettled s es (Target.ofDocument d) qs) := by
  induction h with
  | nil =>
      refine ⟨false, [], ⟨[], rfl⟩, Forall₂.nil, fun hb => Bool.noConfusion hb, ?_⟩
      intro _ _ _
      exact ⟨fun _ term hterm => absurd hterm List.not_mem_nil,
        fun p hp => absurd hp List.not_mem_nil⟩
  | @cons term p terms ps hp hps ih =>
      obtain ⟨hterm, hupon⟩ := hp
      obtain ⟨b, q, ⟨events, hq⟩, hterm', hupon', hposts, hmiss⟩ := askFor_runs (s := s) hupon d hn
      rw [hterm] at hposts hmiss
      by_cases hb : b = true
      · -- the first that has it answers for all, and the others are not asked
        subst hb
        refine ⟨true, q :: ps, ⟨events, ?_⟩, Forall₂.cons ⟨hterm'.trans hterm, hupon'⟩ hps, ?_, ?_⟩
        · simp only [Action.anyItem, hq]
        · intro _
          exact ⟨term, List.mem_cons_self, hposts rfl⟩
        · intro hplain hwithin hsettled
          refine ⟨fun hb => Bool.noConfusion hb, ?_⟩
          obtain ⟨hsettled₀, hsettled'⟩ := List.forall_mem_cons.mp hsettled
          exact List.forall_mem_cons.mpr ⟨(hmiss hplain hwithin hsettled₀).2, hsettled'⟩
      · -- it has it not, so the answer is that of the others
        rw [Bool.not_eq_true] at hb
        subst hb
        obtain ⟨b, qs, ⟨more, hqs⟩, hteam, hposts', hmiss'⟩ := ih
        refine ⟨b, q :: qs, ⟨events ++ more, ?_⟩,
          Forall₂.cons ⟨hterm'.trans hterm, hupon'⟩ hteam, ?_, ?_⟩
        · simp only [Action.anyItem, hq, hqs]
        · intro hb
          obtain ⟨term', hmem, hterm'⟩ := hposts' hb
          exact ⟨term', List.mem_cons_of_mem term hmem, hterm'⟩
        · intro hplain hwithin hsettled
          obtain ⟨hsettled₀, hsettled'⟩ := List.forall_mem_cons.mp hsettled
          obtain ⟨hnone, hq'⟩ := hmiss hplain hwithin hsettled₀
          obtain ⟨hnones, hqs'⟩ := hmiss' hplain hwithin hsettled'
          refine ⟨?_, List.forall_mem_cons.mpr ⟨hq', hqs'⟩⟩
          intro hb
          exact List.forall_mem_cons.mpr ⟨hnone rfl, hnones hb⟩

end Probe

namespace Intersection

open CellScan.Probe

/-! ## How far a search has come -/

/-- How many turns ago the probe at a position had its last one. -/
def behind (count turn i : Nat) : Nat :=
  if i < turn then turn - 1 - i else turn + count - 1 - i

theorem behind_lt {count turn i : Nat} (hturn : turn < count) (hi : i < count) :
    behind count turn i < count := by
  unfold behind
  split <;> omega

/-- With the next turn the one that had it is the last, and the others are one further back. -/
theorem behind_next {count turn i : Nat} (hturn : turn < count) (hi : i < count) (hne : i ≠ turn) :
    behind count ((turn + 1) % count) i = behind count turn i + 1 := by
  unfold behind
  -- behind the last position the turns begin anew
  by_cases hround : turn + 1 = count
  · rw [hround, Nat.mod_self, if_neg (Nat.not_lt_zero i), if_pos (by omega)]
    omega
  · rw [Nat.mod_eq_of_lt (by omega)]
    by_cases hlt : i < turn
    · rw [if_pos hlt, if_pos (by omega)]
      omega
    · rw [if_neg hlt, if_neg (by omega)]
      omega

/-- The documents that some of the terms are posted for. -/
def posted (layout : Layout) (es : List Entry) (terms : List Bytes) : List Document :=
  terms.flatMap fun term =>
    es.filterMap fun e => (layout.postingDoc? term e.1).map fun id => ⟨e.1.row, id⟩

theorem mem_posted {layout : Layout} {es : List Entry} {terms : List Bytes} {term : Bytes}
    {d : Document} (hterm : term ∈ terms) (h : Posts layout es term d) :
    d ∈ posted layout es terms := by
  obtain ⟨e, he, hrow, hid⟩ := h
  refine List.mem_flatMap.mpr ⟨term, hterm, List.mem_filterMap.mpr ⟨e, he, ?_⟩⟩
  rw [hid, hrow]
  rfl

theorem length_posted_le (layout : Layout) (es : List Entry) (terms : List Bytes) :
    (posted layout es terms).length ≤ terms.length * es.length := by
  induction terms with
  | nil => exact Nat.zero_le _
  | cons term terms ih =>
      rw [posted, List.flatMap_cons, List.length_append, List.length_cons, Nat.succ_mul,
        Nat.add_comm]
      exact Nat.add_le_add ih (List.length_filterMap_le _ es)

/-- How many documents lie from a target on. -/
def ahead (docs : List Document) (t : Target) : Nat := docs.countP t.admits

/-- How many documents lie beyond a target. -/
def beyond (docs : List Document) (t : Target) : Nat :=
  docs.countP fun d => t.admits d && decide (t.document? ≠ some d)

/-- Behind a document there are fewer than from it on. -/
theorem ahead_lt {docs : List Document} {t : Target} {d : Document} (hd : d ∈ docs)
    (hadmits : t.admits d = true) : ahead docs (Target.afterDocument d) < ahead docs t := by
  refine countP_lt_countP ?_ hd hadmits ?_
  · intro d' _ hd'
    exact Target.admits_of_ofDocument hadmits (Target.admits_of_afterDocument hd')
  · rw [← Bool.not_eq_true, Target.admits_afterDocument]
    exact lt_irrefl d

/-- When the target moves on to a document, fewer lie beyond it. -/
theorem beyond_lt {docs : List Document} {t : Target} {d : Document} (hd : d ∈ docs)
    (hadmits : t.admits d = true) (hne : t.document? ≠ some d) :
    beyond docs (Target.ofDocument d) < beyond docs t := by
  refine countP_lt_countP ?_ hd (by rw [hadmits, decide_eq_true hne]; rfl) ?_
  · intro d' _ hd'
    rw [Bool.and_eq_true, Target.admits_ofDocument, decide_eq_true_iff] at hd'
    obtain ⟨hle, hne'⟩ := hd'
    rw [Bool.and_eq_true, decide_eq_true_iff]
    refine ⟨Target.admits_of_le hadmits hle, ?_⟩
    intro hsame
    -- a target that is a document before `d` does not admit it
    obtain rfl : t = Target.ofDocument d' := Target.document?_eq_some_iff.mp hsame
    rw [Target.admits_ofDocument] at hadmits
    obtain rfl := le_antisymm hle hadmits
    exact hne hsame
  · rw [Bool.and_eq_false_iff]
    refine Or.inr (decide_eq_false ?_)
    rw [not_not]
    exact Target.document?_eq_some_iff.mpr rfl

variable {σ : Type} [Cursor σ] {heeds : Bool} {es : List Entry} {terms : List Bytes}

/-! ## Agreeing on a document -/

/-- The probes that had the last turns have found the document that is the target now. -/
def Lately (s : Search) (es : List Entry) (t : Target) (terms : List Bytes) (agreed turn : Nat) :
    Prop :=
  ∀ i term, terms[i]? = some term → behind terms.length turn i < agreed →
    ∃ d, t = Target.ofDocument d ∧ Wanted s es t term d

/-- One more probe has found a document: it is the target, or it becomes the target. -/
theorem Lately.next {s : Search} {t : Target} {agreed turn : Nat} {term : Bytes} {d : Document}
    (h : Lately s es t terms agreed turn) (hturn : terms[turn]? = some term)
    (hd : Wanted s es t term d) :
    Lately s es (Target.ofDocument d) terms (if t.document? = some d then agreed + 1 else 1)
      ((turn + 1) % terms.length) := by
  have hlt : turn < terms.length := (List.getElem?_eq_some_iff.mp hturn).1
  have hself : (Target.ofDocument d).admits d = true :=
    (Target.admits_ofDocument d d).mpr (le_refl d)
  intro i term' hi hbehind
  -- the probe that had this turn, or one that had an earlier one
  by_cases hsame : i = turn
  · rw [hsame, hturn, Option.some.injEq] at hi
    exact ⟨d, rfl, hi ▸ hd.posts, hself, hd.within⟩
  · rw [behind_next hlt (List.getElem?_eq_some_iff.mp hi).1 hsame] at hbehind
    by_cases hstays : t.document? = some d
    · rw [if_pos hstays] at hbehind
      obtain rfl := Target.document?_eq_some_iff.mp hstays
      exact h i term' hi (Nat.lt_of_succ_lt_succ hbehind)
    · -- the target has moved, and one probe alone has found it
      rw [if_neg hstays] at hbehind
      omega

/-- What the probes of the terms asked for come to with a target. -/
structure Agreement (s : Search) (heeds : Bool) (es : List Entry) (t : Target)
    (terms : List Bytes) (ps qs : List (Probe σ)) (r : Option Document) : Prop where
  team : Team heeds es terms qs
  found : ∀ term ∈ terms, Found s es t term r
  first : Plain es → AllSettled s es t ps →
    (∀ d, (∀ term ∈ terms, Wanted s es t term d) → ∃ d₀, r = some d₀ ∧ d₀ ≤ d)
      ∧ ∀ d ∈ r, AllSettled s es (Target.ofDocument d) qs

/-- What the turn of one probe comes to with a target. -/
structure Turn (s : Search) (heeds : Bool) (es : List Entry) (t : Target) (terms : List Bytes)
    (term : Bytes) (ps qs : List (Probe σ)) (r : Option Document) : Prop where
  team : Team heeds es terms qs
  found : Found s es t term r
  first : Plain es → AllSettled s es t ps → First s es t term r ∧ AllSettled s es t qs

section Agreement

variable {s : Search} {t : Target} {term : Bytes} {ps qs rs : List (Probe σ)} {d : Document}

/-- When the last turns were those of all probes, they agree on the target. -/
theorem Lately.agreement {turn : Nat} (h : Lately s es t terms terms.length turn)
    (hturn : turn < terms.length) (hteam : Team heeds es terms ps) :
    ∃ d, t.document? = some d ∧ Agreement s heeds es t terms ps ps (some d) := by
  have hsame : ∀ term ∈ terms, ∃ d, t = Target.ofDocument d ∧ Wanted s es t term d := by
    intro term hterm
    obtain ⟨i, hi⟩ := List.mem_iff_getElem?.mp hterm
    exact h i term hi (behind_lt hturn (List.getElem?_eq_some_iff.mp hi).1)
  obtain ⟨d, rfl, -⟩ := hsame _ (List.getElem_mem hturn)
  refine ⟨d, rfl, hteam, ?_, ?_⟩
  · intro term hterm d' hd'
    obtain ⟨d'', hd'', hwanted⟩ := hsame term hterm
    obtain rfl := Option.some.inj hd'
    have hd : d = d'' := Option.some.inj (congrArg Target.document? hd'')
    rwa [← hd] at hwanted
  · intro _ hsettled
    refine ⟨?_, ?_⟩
    · intro d' hd'
      refine ⟨d, rfl, ?_⟩
      exact (Target.admits_ofDocument d d').mp (hd' _ (List.getElem_mem hturn)).admits
    · intro d' hd'
      rwa [← Option.some.inj hd']

/-- Where one term has nothing more, the terms agree on nothing. -/
theorem Turn.agreement_none (h : Turn s heeds es t terms term ps qs none) (hterm : term ∈ terms) :
    Agreement s heeds es t terms ps qs none := by
  refine ⟨h.team, ?_, ?_⟩
  · intro term' _ d hd
    exact absurd hd (by simp)
  · intro hplain hsettled
    refine ⟨?_, fun d hd => absurd hd (by simp)⟩
    intro d hd
    obtain ⟨d₀, hd₀, -⟩ := (h.first hplain hsettled).1 d (hd term hterm)
    exact absurd hd₀ (by simp)

/-- What the terms agree on from the document on that one of them has found, they agree on. -/
theorem Turn.agreement {r : Option Document} (h : Turn s heeds es t terms term ps qs (some d))
    (hterm : term ∈ terms) (hrest : Agreement s heeds es (Target.ofDocument d) terms qs rs r) :
    Agreement s heeds es t terms ps rs r := by
  have hlater : ∀ d', (Target.ofDocument d).admits d' = true → t.admits d' = true :=
    fun d' hd' => Target.admits_of_ofDocument (h.found d rfl).admits hd'
  refine ⟨hrest.team, ?_, ?_⟩
  · intro term' hterm' d' hd'
    obtain ⟨hposts, hadmits, hwithin⟩ := hrest.found term' hterm' d' hd'
    exact ⟨hposts, hlater d' hadmits, hwithin⟩
  · intro hplain hsettled
    obtain ⟨hfirst, hsettled'⟩ := h.first hplain hsettled
    obtain ⟨hall, hend⟩ := hrest.first hplain (hsettled'.mono hlater)
    refine ⟨?_, hend⟩
    intro d' hd'
    -- what all terms are posted for lies from the document on that one of them has found first
    obtain ⟨d₀, hd₀, hle⟩ := hfirst d' (hd' term hterm)
    obtain rfl := Option.some.inj hd₀
    apply hall d'
    intro term' hterm'
    obtain ⟨hposts, -, hwithin⟩ := hd' term' hterm'
    exact ⟨hposts, (Target.admits_ofDocument d d').mpr hle, hwithin⟩

end Agreement

/-- With every turn either one more probe has found the target, or fewer documents lie beyond
it. -/
theorem turns_lt {docs : List Document} {t : Target} {d : Document} {count agreed n : Nat}
    (hd : d ∈ docs) (hadmits : t.admits d = true) (hagreed : agreed < count)
    (hn : beyond docs t * count + (count - agreed) < n + 1) :
    beyond docs (Target.ofDocument d) * count
      + (count - if t.document? = some d then agreed + 1 else 1) < n := by
  by_cases hstays : t.document? = some d
  · -- the target stays, and one more probe agrees on it
    rw [if_pos hstays]
    obtain rfl := Target.document?_eq_some_iff.mp hstays
    omega
  · rw [if_neg hstays]
    -- a whole round is made up for by one document less beyond the target
    have hfewer := beyond_lt hd hadmits hstays
    have hmul := Nat.mul_le_mul_right count (Nat.succ_le_of_lt hfewer)
    rw [Nat.succ_mul] at hmul
    omega

theorem alignPositive_apply (turn : Nat) (t : Target) (x : Intersection σ) :
    alignPositive turn t x
      = Action.on positives (fun (x : Intersection σ) ps => { x with positives := ps })
        (Action.onItem turn none (align x.search t x.seeks)) x := rfl

theorem alignPositive_runs {x : Intersection σ} (h : Team heeds es terms x.positives)
    (hseeks : es.length < x.seeks) {turn : Nat} {term : Bytes} (hturn : terms[turn]? = some term)
    (t : Target) :
    ∃ r ps, Runs (alignPositive turn t) x r { x with positives := ps }
      ∧ Turn x.search heeds es t terms term x.positives ps r := by
  obtain ⟨r, ps, hps, hteam, hfound, hfirst⟩ :=
    alignItem_runs (s := x.search) (t := t) h hturn hseeks
  exact ⟨r, ps, hps.on.of_eq (alignPositive_apply turn t x), hteam, hfound, hfirst⟩

theorem agree_all (n turn : Nat) (t : Target) {x : Intersection σ} :
    agree (n + 1) x.positives.length turn t x = give t.document? x :=
  if_pos rfl

theorem agree_succ (n agreed turn : Nat) (t : Target) {x : Intersection σ}
    (h : agreed ≠ x.positives.length) :
    agree (n + 1) agreed turn t x
      = (do
          match ← alignPositive turn t with
          | none => pure none
          | some document =>
              agree n (if t.document? = some document then agreed + 1 else 1)
                ((turn + 1) % x.positives.length) (Target.ofDocument document)) x :=
  if_neg h

theorem agree_runs {x : Intersection σ} (hteam : Team heeds es terms x.positives)
    (hseeks : es.length < x.seeks) {n agreed turn : Nat} {t : Target}
    (hagreed : agreed ≤ terms.length) (hturn : turn < terms.length)
    (hlately : Lately x.search es t terms agreed turn)
    (hn : beyond (posted x.query.layout es terms) t * terms.length + (terms.length - agreed) < n) :
    ∃ r ps, Runs (agree n agreed turn t) x r { x with positives := ps }
      ∧ Agreement x.search heeds es t terms x.positives ps r := by
  induction n generalizing x agreed turn t with
  | zero => exact absurd hn (Nat.not_lt_zero _)
  | succ n ih =>
      have hcount : terms.length = x.positives.length := hteam.length_eq
      -- either the last turns were those of all probes, or the next one has its turn
      by_cases hall : agreed = terms.length
      · subst hall
        obtain ⟨d, hd, hagreement⟩ := hlately.agreement hturn hteam
        refine ⟨some d, x.positives, ?_, hagreement⟩
        unfold Runs
        rw [hcount, agree_all, hd]
        exact runs_give (some d) x
      · have hne : agreed ≠ x.positives.length := hcount ▸ hall
        obtain ⟨term, hterm⟩ : ∃ term, terms[turn]? = some term :=
          ⟨_, List.getElem?_eq_getElem hturn⟩
        have hmem : term ∈ terms := List.mem_of_getElem? hterm
        obtain ⟨r, ps, hps, hstep⟩ := alignPositive_runs hteam hseeks hterm t
        rcases r with _ | d
        · -- a term with nothing more ends the loop
          refine ⟨none, ps, ?_, hstep.agreement_none hmem⟩
          unfold Runs
          rw [agree_succ n agreed turn t hne]
          exact hps.bind (f := fun _ => _) (runs_pure none _)
        · have hwanted : Wanted x.search es t term d := hstep.found d rfl
          have hagreed' : (if t.document? = some d then agreed + 1 else 1) ≤ terms.length := by
            split
            · omega
            · omega
          have hn' := turns_lt (mem_posted hmem hwanted.posts) hwanted.admits
            (lt_of_le_of_ne hagreed hall) hn
          obtain ⟨r, qs, hqs, hagreement⟩ :=
            ih (x := { x with positives := ps }) hstep.team hseeks hagreed'
              (Nat.mod_lt (turn + 1) (Nat.zero_lt_of_lt hturn)) (hlately.next hterm hwanted) hn'
          refine ⟨r, qs, ?_, hstep.agreement hmem hagreement⟩
          unfold Runs
          rw [agree_succ n agreed turn t hne, ← hcount]
          exact hps.bind (f := fun _ => _) hqs

/-! ## Passing over what is ruled out -/

theorem isRuledOut_apply (d : Document) (x : Intersection σ) :
    isRuledOut d x
      = Action.on negatives (fun (x : Intersection σ) ps => { x with negatives := ps })
        (Action.anyItem (askFor x.search x.seeks d)) x := rfl

theorem isRuledOut_runs {x : Intersection σ} (h : Team heeds es terms x.negatives)
    (hseeks : es.length < x.seeks) (d : Document) :
    ∃ b ns, Runs (isRuledOut d) x b { x with negatives := ns } ∧ Team heeds es terms ns
      ∧ (b = true → ∃ term ∈ terms, Posts x.query.layout es term d)
      ∧ (Plain es → x.range.isAfterRow d.row = false →
          AllSettled x.search es (Target.ofDocument d) x.negatives →
            (b = false → ∀ term ∈ terms, ¬ Posts x.query.layout es term d)
              ∧ AllSettled x.search es (Target.ofDocument d) ns) := by
  obtain ⟨b, ns, hns, hspec⟩ := anyItem_runs (s := x.search) h d hseeks
  exact ⟨b, ns, hns.on.of_eq (isRuledOut_apply d x), hspec⟩

/-- The query asks for a document: it has every term asked for and none that is ruled out. -/
structure Matches (q : Query) (es : List Entry) (d : Document) : Prop where
  asked : ∀ term ∈ q.positives, Posts q.layout es term d
  spared : ∀ term ∈ q.negatives, ¬ Posts q.layout es term d

/-- An intersection whose cursors all serve the same entries. -/
structure Ready (heeds : Bool) (es : List Entry) (x : Intersection σ) : Prop where
  source : Serves x.source heeds es
  documents : Serves x.documents heeds es
  positives : Team heeds es x.query.positives x.positives
  negatives : Team heeds es x.query.negatives x.negatives

theorem positives_ne_nil (q : Query) : 0 < q.positives.length := by
  obtain ⟨t, ht, hasked⟩ := q.asks
  refine List.length_pos_of_mem (a := t.term) (List.mem_map_of_mem (List.mem_filter.mpr ⟨ht, ?_⟩))
  rw [hasked]
  rfl

/-- Where the source reaches as many entries there are enough seeks for a probe and enough
turns for a search. -/
theorem enough_of_reach {x : Intersection σ} (hreach : es.length ≤ Cursor.reach x.source)
    (hcount : x.query.positives.length = x.positives.length) :
    es.length < x.seeks
      ∧ (posted x.query.layout es x.query.positives).length ≤ x.candidates
      ∧ (x.candidates + 1) * x.query.positives.length < x.situations := by
  -- all three numbers are counted from what the source reaches
  have hposted := length_posted_le x.query.layout es x.query.positives
  rw [hcount] at hposted ⊢
  refine ⟨by rw [seeks]; omega, ?_, ?_⟩
  · rw [candidates, Nat.add_mul]
    exact le_trans hposted (le_trans (Nat.mul_le_mul_left _ hreach) (Nat.le_add_right _ _))
  · have hplacings : 0 < x.placings := Nat.pow_pos (Nat.succ_pos _)
    have hsquare : x.positives.length ≤ (x.positives.length + 1) * (x.positives.length + 1) :=
      le_trans (Nat.le_succ _) (Nat.le_mul_of_pos_left _ (Nat.succ_pos _))
    unfold situations
    refine Nat.lt_succ_of_le (le_trans ?_ (Nat.le_mul_of_pos_right _ hplacings))
    exact Nat.mul_le_mul (by omega) hsquare

theorem Ready.enough {x : Intersection σ} (h : Ready heeds es x) :
    es.length < x.seeks
      ∧ (posted x.query.layout es x.query.positives).length ≤ x.candidates
      ∧ (x.candidates + 1) * x.query.positives.length < x.situations :=
  enough_of_reach h.source.length_le h.positives.length_eq

/-- What the search is for: a document that the query asks for, from the target on and in a
row that the range reaches. -/
structure Due (q : Query) (range : Range) (es : List Entry) (t : Target) (d : Document) : Prop where
  matching : Matches q es d
  admits : t.admits d = true
  within : range.isAfterRow d.row = false

/-- No probe stands beyond what is wanted of its term. -/
def Settled (es : List Entry) (t : Target) (x : Intersection σ) : Prop :=
  AllSettled x.search es t x.positives ∧ AllSettled x.search es t x.negatives

theorem Settled.mono {x : Intersection σ} {t t' : Target} (h : Settled es t x)
    (ht : ∀ d, t'.admits d = true → t.admits d = true) : Settled es t' x :=
  ⟨h.1.mono ht, h.2.mono ht⟩

/-- What a search from a target on comes to. -/
structure Searched (heeds : Bool) (es : List Entry) (t : Target) (x y : Intersection σ)
    (r : Option Document) : Prop where
  ready : Ready heeds es y
  found : ∀ term ∈ x.query.positives, Found x.search es t term r
  first : Plain es → Settled es t x →
    (∀ d ∈ r, Due x.query x.range es t d) ∧ (∀ d, Due x.query x.range es t d → ∃ d₀, r = some d₀ ∧ d₀ ≤ d)
      ∧ ∀ d ∈ r, Settled es (Target.ofDocument d) y

/-- The first time round, the probes have found nothing yet. -/
theorem agree_start {x : Intersection σ} (h : Ready heeds es x) (t : Target) :
    ∃ r ps, Runs (agree x.situations 0 0 t) x r { x with positives := ps }
      ∧ Agreement x.search heeds es t x.query.positives x.positives ps r := by
  obtain ⟨hseeks, hposted, hturns⟩ := h.enough
  refine agree_runs h.positives hseeks (Nat.zero_le _) (positives_ne_nil x.query) ?_ ?_
  · intro i term _ hbehind
    exact absurd hbehind (Nat.not_lt_zero _)
  · have hbeyond : beyond (posted x.query.layout es x.query.positives) t ≤ x.candidates :=
      le_trans List.countP_le_length hposted
    refine lt_of_le_of_lt ?_ hturns
    rw [Nat.add_mul, Nat.one_mul, Nat.sub_zero]
    exact Nat.add_le_add_right (Nat.mul_le_mul_right _ hbeyond) _

/-- One round of the search: a document that the terms asked for agree on, and whether it is
ruled out. -/
structure Round (heeds : Bool) (es : List Entry) (t : Target) (x y : Intersection σ)
    (d : Document) (ruledOut : Bool) : Prop where
  ready : Ready heeds es y
  wanted : ∀ term ∈ x.query.positives, Wanted x.search es t term d
  out : ruledOut = true → ∃ term ∈ x.query.negatives, Posts x.query.layout es term d
  first : Plain es → Settled es t x →
    (∀ d', Due x.query x.range es t d' → d ≤ d')
      ∧ (ruledOut = false → ∀ term ∈ x.query.negatives, ¬ Posts x.query.layout es term d)
      ∧ Settled es (Target.ofDocument d) y

namespace Round

variable {x : Intersection σ} {ps ns : List (Probe σ)} {t : Target} {d : Document}

theorem admits {y : Intersection σ} {b : Bool} (h : Round heeds es t x y d b) :
    t.admits d = true ∧ d ∈ posted x.query.layout es x.query.positives := by
  obtain ⟨term, hterm⟩ := List.exists_mem_of_length_pos (positives_ne_nil x.query)
  obtain ⟨hposts, hadmits, -⟩ := h.wanted term hterm
  exact ⟨hadmits, mem_posted hterm hposts⟩

/-- A document that is not ruled out is the hit. -/
theorem searched {y : Intersection σ} (h : Round heeds es t x y d false) :
    Searched heeds es t x y (some d) := by
  refine ⟨h.ready, ?_, ?_⟩
  · intro term hterm d' hd'
    rw [← Option.some.inj hd']
    exact h.wanted term hterm
  · intro hplain hsettled
    obtain ⟨hle, hspared, hset⟩ := h.first hplain hsettled
    obtain ⟨term, hterm⟩ := List.exists_mem_of_length_pos (positives_ne_nil x.query)
    obtain ⟨-, hadmits, hwithin⟩ := h.wanted term hterm
    refine ⟨?_, fun d' hd' => ⟨d, rfl, hle d' hd'⟩, ?_⟩
    · intro d' hd'
      obtain rfl := Option.some.inj hd'
      exact ⟨⟨fun term hterm => (h.wanted term hterm).posts, hspared rfl⟩, hadmits, hwithin⟩
    · intro d' hd'
      rw [← Option.some.inj hd']
      exact hset

/-- Nothing is missed by leaving a document behind that is ruled out. -/
theorem passOver {z : Intersection σ} {r : Option Document}
    (h : Round heeds es t x { x with positives := ps, negatives := ns } d true)
    (hrest : Searched heeds es (Target.afterDocument d)
      { x with positives := ps, negatives := ns } z r) :
    Searched heeds es t x z r := by
  have hbehind : ∀ d', (Target.afterDocument d).admits d' = true → t.admits d' = true :=
    fun d' hd' => Target.admits_of_ofDocument h.admits.1 (Target.admits_of_afterDocument hd')
  refine ⟨hrest.ready, ?_, ?_⟩
  · intro term hterm d' hd'
    obtain ⟨hposts, hadmits, hwithin⟩ := hrest.found term hterm d' hd'
    exact ⟨hposts, hbehind d' hadmits, hwithin⟩
  · intro hplain hsettled
    obtain ⟨hle, -, hset⟩ := h.first hplain hsettled
    have hset' : Settled es (Target.afterDocument d)
        { x with positives := ps, negatives := ns } :=
      hset.mono fun d' hd' => Target.admits_of_afterDocument hd'
    obtain ⟨hdue, hfirst, hend⟩ := hrest.first hplain hset'
    refine ⟨?_, ?_, hend⟩
    · intro d' hd'
      obtain ⟨hmatch, hadmits, hwithin⟩ := hdue d' hd'
      exact ⟨hmatch, hbehind d' hadmits, hwithin⟩
    · intro d' hd'
      refine hfirst d' ⟨hd'.matching, ?_, hd'.within⟩
      rw [Target.admits_afterDocument]
      refine lt_of_le_of_ne (hle d' hd') ?_
      rintro rfl
      obtain ⟨term, hterm, hposts⟩ := h.out rfl
      exact hd'.matching.spared term hterm hposts

end Round

theorem searched_none {x y : Intersection σ} {ps : List (Probe σ)} {t : Target}
    (hready : Ready heeds es y)
    (h : Agreement x.search heeds es t x.query.positives x.positives ps none) :
    Searched heeds es t x y none := by
  refine ⟨hready, ?_, ?_⟩
  · intro term _ d hd
    exact absurd hd (by simp)
  · intro hplain hsettled
    refine ⟨fun d hd => absurd hd (by simp), ?_, fun d hd => absurd hd (by simp)⟩
    intro d hd
    obtain ⟨d₀, hd₀, -⟩ := (h.first hplain hsettled.1).1 d
      (fun term hterm => ⟨hd.matching.asked term hterm, hd.admits, hd.within⟩)
    exact absurd hd₀ (by simp)

/-- The terms ruled out are asked about the document agreed on. -/
theorem round_runs {x : Intersection σ} (h : Ready heeds es x) {t : Target} {d : Document}
    {ps : List (Probe σ)}
    (hagr : Agreement x.search heeds es t x.query.positives x.positives ps (some d)) :
    ∃ b ns, Runs (isRuledOut d) { x with positives := ps } b
        { x with positives := ps, negatives := ns }
      ∧ Round heeds es t x { x with positives := ps, negatives := ns } d b := by
  obtain ⟨b, ns, hns, hteam, hout, hspared⟩ :=
    isRuledOut_runs (x := { x with positives := ps }) h.negatives h.enough.1 d
  have hwanted : ∀ term ∈ x.query.positives, Wanted x.search es t term d :=
    fun term hterm => hagr.found term hterm d rfl
  refine ⟨b, ns, hns, ⟨h.source, h.documents, hagr.team, hteam⟩, hwanted, hout, ?_⟩
  intro hplain hsettled
  obtain ⟨term, hterm⟩ := List.exists_mem_of_length_pos (positives_ne_nil x.query)
  obtain ⟨-, hadmits, hwithin⟩ := hwanted term hterm
  have hfrom : ∀ d', (Target.ofDocument d).admits d' = true → t.admits d' = true :=
    fun d' hd' => Target.admits_of_ofDocument hadmits hd'
  obtain ⟨hfirst, hps⟩ := hagr.first hplain hsettled.1
  obtain ⟨hnone, hns'⟩ := hspared hplain hwithin (hsettled.2.mono hfrom)
  refine ⟨?_, hnone, hps d rfl, hns'⟩
  intro d' hd'
  obtain ⟨d₀, hd₀, hle⟩ := hfirst d'
    (fun term hterm => ⟨hd'.matching.asked term hterm, hd'.admits, hd'.within⟩)
  rwa [Option.some.inj hd₀]

theorem nextHit_succ (n : Nat) (t : Target) (x : Intersection σ) :
    nextHit (n + 1) t x
      = (do
          match ← agree x.situations 0 0 t with
          | none => pure none
          | some document =>
              if ← isRuledOut document then nextHit n (Target.afterDocument document)
              else pure (some document)) x := rfl

theorem nextHit_runs {x : Intersection σ} (h : Ready heeds es x) {n : Nat} {t : Target}
    (hn : ahead (posted x.query.layout es x.query.positives) t < n) :
    ∃ r ps ns, Runs (nextHit n t) x r { x with positives := ps, negatives := ns }
      ∧ Searched heeds es t x { x with positives := ps, negatives := ns } r := by
  induction n generalizing x t with
  | zero => exact absurd hn (Nat.not_lt_zero _)
  | succ n ih =>
      obtain ⟨r, ps, hps, hagr⟩ := agree_start h t
      unfold Runs
      simp only [nextHit_succ]
      rcases r with _ | d
      · refine ⟨none, ps, x.negatives, hps.bind (f := fun _ => _) (runs_pure none _), ?_⟩
        exact searched_none ⟨h.source, h.documents, hagr.team, h.negatives⟩ hagr
      · obtain ⟨b, ns, hns, hround⟩ := round_runs h hagr
        by_cases hb : b = true
        · -- left behind for good, so fewer documents are ahead
          subst hb
          have hless : ahead (posted x.query.layout es x.query.positives) (Target.afterDocument d)
              < n :=
            lt_of_lt_of_le (ahead_lt hround.admits.2 hround.admits.1) (Nat.le_of_lt_succ hn)
          obtain ⟨r, qs, ms, hqs, hrest⟩ := ih hround.ready hless
          refine ⟨r, qs, ms, hps.bind (f := fun _ => _) ?_, hround.passOver hrest⟩
          exact hns.bind (f := fun ruledOut => if ruledOut then nextHit n (Target.afterDocument d)
            else pure (some d)) hqs
        · -- not ruled out, so this is the hit
          rw [Bool.not_eq_true] at hb
          subst hb
          refine ⟨some d, ps, ns, hps.bind (f := fun _ => _) ?_, hround.searched⟩
          exact hns.bind (f := fun ruledOut => if ruledOut then nextHit n (Target.afterDocument d)
            else pure (some d)) (runs_pure (some d) _)

end Intersection

end CellScan
