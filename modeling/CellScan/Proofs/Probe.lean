/-
`Probe.lean` -- what aligning a probe comes to.

A probe over a source that serves one sequence of entries finds a posting of its term
that the target admits, or none (`Found`), in at most as many seeks as there are
entries: each seek starts behind the key that the last one stopped at. That much holds
of every sequence.

That it is the *first* such posting (`First`) rests on two things. No posting that is
wanted may lie before the key where a seek starts, which the laws of the layout give as
long as no deletion marker stands in front of a whole column. And a probe that stays
where it is must have been brought there for an earlier target: all that is wanted then
lies at or after where it stands (`Settled`), and with later targets less is wanted.
-/
import CellScan.Probe
import CellScan.Proofs.Posting
import CellScan.Proofs.Sources

set_option autoImplicit false

namespace CellScan

open CellScan.Action CellScan.Cursor CellScan.Entry
open scoped Linear

/-- Where one condition implies another and does not hold of a member that the other one
holds of, it holds of fewer. -/
theorem countP_lt_countP {α : Type} {p q : α → Bool} {xs : List α}
    (h : ∀ x ∈ xs, p x = true → q x = true) {a : α} (ha : a ∈ xs) (hq : q a = true)
    (hp : p a = false) : xs.countP p < xs.countP q := by
  -- both are counted within what the wider condition holds of
  have hsame : xs.countP p = (xs.filter q).countP p := by
    rw [List.countP_filter]
    refine List.countP_congr ?_
    intro x hx
    rw [Bool.and_eq_true]
    exact ⟨fun hpx => ⟨hpx, h x hx hpx⟩, And.left⟩
  rw [hsame, List.countP_eq_length_filter, List.countP_eq_length_filter (p := q)]
  refine List.length_filter_lt_length_iff_exists.mpr ⟨a, List.mem_filter.mpr ⟨ha, hq⟩, ?_⟩
  rw [hp]
  exact Bool.false_ne_true

/-! ## Where a seek stops -/

section Seek

variable {σ : Type} [Cursor σ] {c : σ} {heeds : Bool} {es : List Entry} {start : Key}
  {family : Bytes}

/-- A seek for a family from a key on stops at an entry from that key on. -/
theorem Cursor.top_of_seek (h : Leads c (within heeds es (Range.startingAt start)
    (FamilyFilter.only family))) {k : Key} (hk : topKey c = some k) :
    start ≤ k ∧ ∃ e ∈ es, e.1 = k := by
  rw [h.topKey] at hk
  obtain ⟨e, he, rfl⟩ := Option.map_eq_some_iff.mp hk
  obtain ⟨hmem, hin⟩ := List.mem_filter.mp (List.mem_of_mem_head? he)
  rw [Bool.and_eq_true] at hin
  exact ⟨Range.contains_startingAt.mp hin.1, e, hmem, rfl⟩

/-- It stops no later than at any entry of the family from that key on. -/
theorem Cursor.top_le_of_seek (hasc : Ascending es)
    (h : Leads c (within heeds es (Range.startingAt start) (FamilyFilter.only family)))
    {e : Entry} (he : e ∈ es) (hstart : start ≤ e.1) (hfam : e.1.family = family) :
    ∃ k, topKey c = some k ∧ k ≤ e.1 := by
  have hmem : e ∈ within heeds es (Range.startingAt start) (FamilyFilter.only family) := by
    refine List.mem_filter.mpr ⟨he, ?_⟩
    rw [Range.contains_startingAt.mpr hstart, FamilyFilter.accepts_only, hfam]
    simp
  rw [h.topKey]
  -- the seek stops at the first of a sorted list that has the entry
  rcases hlist : within heeds es (Range.startingAt start) (FamilyFilter.only family) with _ | ⟨x, xs⟩
  · rw [hlist] at hmem
    exact absurd hmem List.not_mem_nil
  · refine ⟨x.1, rfl, ?_⟩
    have hsub : Ascending (x :: xs) := by
      rw [← hlist]
      exact hasc.sublist List.filter_sublist
    rw [hlist] at hmem
    rcases List.mem_cons.mp hmem with rfl | hmem
    · exact le_refl _
    · exact (ascending_cons.mp hsub).1 e hmem

end Seek

namespace Probe

variable {σ : Type} [Cursor σ] {s : Search} {es : List Entry} {t : Target} {term : Bytes}

/-! ## What is wanted and what is found -/

/-- The term is posted for a document. -/
def Posts (layout : Layout) (es : List Entry) (term : Bytes) (d : Document) : Prop :=
  ∃ e ∈ es, e.1.row = d.row ∧ layout.postingDoc? term e.1 = some d.id

/-- The term is posted for a document that the target admits, in a row that the range
reaches. -/
structure Wanted (s : Search) (es : List Entry) (t : Target) (term : Bytes) (d : Document) :
    Prop where
  posts : Posts s.layout es term d
  admits : t.admits d = true
  within : s.range.isAfterRow d.row = false

/-- What has been found is wanted. -/
def Found (s : Search) (es : List Entry) (t : Target) (term : Bytes) (r : Option Document) : Prop :=
  ∀ d ∈ r, Wanted s es t term d

/-- Nothing that is wanted lies before what has been found. -/
def First (s : Search) (es : List Entry) (t : Target) (term : Bytes) (r : Option Document) : Prop :=
  ∀ d, Wanted s es t term d → ∃ d₀, r = some d₀ ∧ d₀ ≤ d

/-- The postings that are wanted lie at or after a key. -/
def From (s : Search) (es : List Entry) (t : Target) (term : Bytes) (k : Key) : Prop :=
  ∀ e ∈ es, ∀ id, s.layout.postingDoc? term e.1 = some id → t.admits ⟨e.1.row, id⟩ = true →
    s.range.isAfterRow e.1.row = false → k ≤ e.1

/-- A probe that has been placed stands at or before all postings that are wanted. -/
def Settled (s : Search) (es : List Entry) (t : Target) (p : Probe σ) : Prop :=
  p.placed = true → ∀ e ∈ es, ∀ id, s.layout.postingDoc? p.term e.1 = some id →
    t.admits ⟨e.1.row, id⟩ = true → s.range.isAfterRow e.1.row = false →
      ∃ k, topKey p.cursor = some k ∧ k ≤ e.1

/-- No deletion marker stands in front of a whole column. -/
def Plain (es : List Entry) : Prop := ∀ e ∈ es, e.1.isForemost = false

/-- With a later target less is wanted. -/
theorem Settled.mono {p : Probe σ} (h : Settled s es t p) {t' : Target}
    (ht : ∀ d, t'.admits d = true → t.admits d = true) : Settled s es t' p := by
  intro hplaced e he id hid hadmits hafter
  exact h hplaced e he id hid (ht _ hadmits) hafter

/-- A posting at or before all that are wanted is of a document before theirs. -/
theorem first_of_from {k : Key} {id : Bytes} (hid : s.layout.postingDoc? term k = some id)
    (h : From s es t term k) : First s es t term (some ⟨k.row, id⟩) := by
  rintro d ⟨⟨e, he, hrow, hd⟩, hadmits, hafter⟩
  have hdoc : (⟨e.1.row, d.id⟩ : Document) = d := by rw [hrow]
  have hle : k ≤ e.1 := h e he d.id hd (hdoc ▸ hadmits) (hrow ▸ hafter)
  refine ⟨_, rfl, Document.le_iff.mpr ?_⟩
  rcases lt_or_eq_of_le (Key.row_le_of_le hle) with hlt | heq
  · exact Or.inl (hrow ▸ hlt)
  · exact Or.inr ⟨heq.trans hrow, Layout.id_le hid hd heq hle⟩

/-- Behind a row that the range does not reach nothing is wanted. -/
theorem first_of_isAfterRow {k : Key} (hk : s.range.isAfterRow k.row = true)
    (h : From s es t term k) : First s es t term none := by
  rintro d ⟨⟨e, he, hrow, hd⟩, hadmits, hafter⟩
  have hdoc : (⟨e.1.row, d.id⟩ : Document) = d := by rw [hrow]
  have hle : k ≤ e.1 := h e he d.id hd (hdoc ▸ hadmits) (hrow ▸ hafter)
  have hafter' := Range.isAfterRow_of_le hk (Key.row_le_of_le hle)
  rw [hrow, hafter] at hafter'
  exact Bool.noConfusion hafter'

/-! ## Judging the key that a seek stopped at -/

section Judge

variable {k : Key}

theorem judge_of_isAfterRow (h : s.range.isAfterRow k.row = true) :
    judge s t term (some k) = .nothing := by
  simp only [judge, h, if_true]

theorem judge_of_posting {id : Bytes} (h : s.range.isAfterRow k.row = false)
    (hid : s.layout.postingDoc? term k = some id) :
    judge s t term (some k)
      = if k.row = t.row ∧ ¬ t.admits ⟨k.row, id⟩ then
          .lookOn (s.layout.postingKeyAfter t.row term id)
        else .posting ⟨k.row, id⟩ := by
  simp only [judge, h, hid, Bool.false_eq_true, if_false]

theorem judge_of_none (h : s.range.isAfterRow k.row = false)
    (hid : s.layout.postingDoc? term k = none) :
    judge s t term (some k)
      = if k < s.layout.postingKey k.row term none then
          .lookOn (s.layout.postingKey k.row term none)
        else .lookOn (s.layout.postingKey k.row.successor term none) := by
  simp only [judge, h, hid, Bool.false_eq_true, if_false]

theorem isAfterRow_of_judge (h : judge s t term (some k) = .nothing) :
    s.range.isAfterRow k.row = true := by
  by_contra hafter
  rw [Bool.not_eq_true] at hafter
  rcases hid : s.layout.postingDoc? term k with _ | id
  · rw [judge_of_none hafter hid] at h
    split at h <;> exact Finding.noConfusion h
  · rw [judge_of_posting hafter hid] at h
    split at h <;> exact Finding.noConfusion h

/-- A posting found is wanted, and it is the first if all that is wanted lies from it on. -/
theorem wanted_of_judge {d : Document} (hk : ∃ e ∈ es, e.1 = k) (hrow : t.row ≤ k.row)
    (h : judge s t term (some k) = .posting d) :
    Wanted s es t term d ∧ (From s es t term k → First s es t term (some d)) := by
  by_cases hafter : s.range.isAfterRow k.row = true
  · rw [judge_of_isAfterRow hafter] at h
    exact Finding.noConfusion h
  · rw [Bool.not_eq_true] at hafter
    rcases hid : s.layout.postingDoc? term k with _ | id
    · rw [judge_of_none hafter hid] at h
      split at h <;> exact Finding.noConfusion h
    · rw [judge_of_posting hafter hid] at h
      split at h
      · exact Finding.noConfusion h
      · next hadmits =>
          obtain rfl := Finding.posting.inj h
          obtain ⟨e, he, rfl⟩ := hk
          refine ⟨⟨⟨e, he, rfl, hid⟩, ?_, hafter⟩, first_of_from hid⟩
          -- in the row of the target it has been compared, and later rows are admitted anyway
          by_cases hsame : e.1.row = t.row
          · by_contra hn
            exact hadmits ⟨hsame, hn⟩
          · exact Target.admits_iff.mpr (Or.inl (lt_of_le_of_ne hrow (Ne.symm hsame)))

/-- Where to look on lies behind the key, and nothing that is wanted lies between. -/
theorem from_of_judge {start : Key} (hrow : t.row ≤ k.row)
    (h : judge s t term (some k) = .lookOn start) :
    k < start ∧ t.row ≤ start.row
      ∧ (Plain es → From s es t term k → From s es t term start) := by
  by_cases hafter : s.range.isAfterRow k.row = true
  · rw [judge_of_isAfterRow hafter] at h
    exact Finding.noConfusion h
  · rw [Bool.not_eq_true] at hafter
    rcases hid : s.layout.postingDoc? term k with _ | id
    · rw [judge_of_none hafter hid] at h
      by_cases hlt : k < s.layout.postingKey k.row term none
      · -- where the postings of the row begin
        rw [if_pos hlt] at h
        obtain rfl := Finding.lookOn.inj h
        refine ⟨hlt, hrow, ?_⟩
        intro hplain hfrom e he id hid' hadmits hafter'
        have hle := hfrom e he id hid' hadmits hafter'
        refine Layout.postingKey_le (t := ⟨k.row, none⟩) hid' (hplain e he) ?_
        rw [Target.admits_iff]
        rcases lt_or_eq_of_le (Key.row_le_of_le hle) with hrow' | hrow'
        · exact Or.inl hrow'
        · exact Or.inr ⟨hrow', fun _ hn => absurd hn (by simp)⟩
      · -- the row has no postings any more
        rw [if_neg hlt] at h
        obtain rfl := Finding.lookOn.inj h
        refine ⟨Key.lt_of_row_lt (Bytes.lt_successor k.row),
          le_trans hrow (le_of_lt (Bytes.lt_successor k.row)), ?_⟩
        intro hplain hfrom e he id hid' hadmits hafter'
        have hle := hfrom e he id hid' hadmits hafter'
        have hrow' : k.row < e.1.row := by
          refine lt_of_le_of_ne (Key.row_le_of_le hle) ?_
          intro hsame
          have hnone := Layout.postingDoc?_eq_none hid (not_lt.mp hlt) hsame.symm hle
          rw [hid'] at hnone
          exact absurd hnone (Option.some_ne_none id)
        refine Layout.postingKey_le (t := ⟨k.row.successor, none⟩) hid' (hplain e he) ?_
        rw [Target.admits_iff]
        rcases lt_or_eq_of_le (Bytes.successor_le_iff.mpr hrow') with hlt' | heq
        · exact Or.inl hlt'
        · exact Or.inr ⟨heq, fun _ hn => absurd hn (by simp)⟩
    · rw [judge_of_posting hafter hid] at h
      split at h
      · next hbefore =>
          -- a posting of a document before the target
          obtain ⟨hsame, hadmits⟩ := hbefore
          obtain rfl := Finding.lookOn.inj h
          refine ⟨hsame ▸ Layout.lt_postingKeyAfter hid, le_refl _, ?_⟩
          intro hplain _ e he id' hid' hadmits' hafter'
          refine Layout.postingKeyAfter_le hid' (hplain e he) ?_
          rcases Target.admits_iff.mp hadmits' with hlt | ⟨heq, hids⟩
          · exact Or.inl hlt
          · refine Or.inr ⟨heq, ?_⟩
            rw [Target.admits_iff, not_or, not_and] at hadmits
            have hbelow := hadmits.2 hsame.symm
            rw [not_forall] at hbelow
            obtain ⟨tid, hn⟩ := hbelow
            rw [Classical.not_imp, not_le] at hn
            exact lt_of_lt_of_le hn.2 (hids tid hn.1)
      · exact Finding.noConfusion h

end Judge

/-! ## Seeking from key to key -/

variable {heeds : Bool}

/-- A probe over a source that serves some entries; once placed it stands at one of them
or at none. -/
structure Upon (heeds : Bool) (es : List Entry) (p : Probe σ) : Prop where
  serves : Serves p.cursor heeds es
  held : p.placed = true → ∀ k, topKey p.cursor = some k → ∃ e ∈ es, e.1 = k

theorem seekTo_runs {p : Probe σ} (h : Serves p.cursor heeds es) (start : Key) :
    ∃ c, Runs (seekTo s start) p () ⟨p.term, c, true⟩ ∧ Serves c heeds es
      ∧ Leads c (within heeds es (Range.startingAt start)
          (FamilyFilter.only (s.layout.postingFamily p.term))) := by
  obtain ⟨c, hc, hl⟩ := h.lists.seek Reached.here (Range.startingAt start)
    (FamilyFilter.only (s.layout.postingFamily p.term))
  have hserves : Serves c heeds es := ⟨h.lists.of_seek hc, h.ascending⟩
  have hmove : Runs (Action.on cursor (fun p c => { p with cursor := c })
      (Cursor.seek (Range.startingAt start)
        (FamilyFilter.only (s.layout.postingFamily p.term)))) p () { p with cursor := c } := hc.on
  have hplaced := hmove.bind (f := fun _ => _)
    (runs_change (fun p : Probe σ => { p with placed := true }) { p with cursor := c })
  have hterm := (runs_look Probe.term p).bind (f := fun term =>
    Action.on cursor (fun p c => { p with cursor := c })
      (Cursor.seek (Range.startingAt start) (FamilyFilter.only (s.layout.postingFamily term)))
      >>= fun _ => Action.change fun p : Probe σ => { p with placed := true }) hplaced
  exact ⟨c, (runs_record [.count s.account .termSeek] p).bind (f := fun _ => _) hterm, hserves, hl⟩

/-- The entries from a key on. -/
def ahead (es : List Entry) (k : Key) : Nat := es.countP fun e => decide (k ≤ e.1)

/-- Behind an entry there are fewer than from any key before it on. -/
theorem ahead_lt {k start start' : Key} (hk : ∃ e ∈ es, e.1 = k) (hle : start ≤ k)
    (hlt : k < start') : ahead es start' < ahead es start := by
  obtain ⟨e, he, rfl⟩ := hk
  refine countP_lt_countP ?_ he (decide_eq_true hle) (decide_eq_false (not_le.mpr hlt))
  intro x _ hx
  exact decide_eq_true (le_trans hle (le_trans (le_of_lt hlt) (of_decide_eq_true hx)))

/-- The search ends as soon as the key found is decided. -/
theorem look_runs_of_judge {p q q' : Probe σ} {start : Key} {n : Nat} {r : Option Document}
    (h : Runs (seekTo s start) p () q)
    (hr : Runs (match judge s t q.term (topKey q.cursor) with
      | .posting document => pure (some document)
      | .nothing => pure none
      | .lookOn start => look s t n start) q r q') :
    Runs (look s t (n + 1) start) p r q' := by
  have hjudge := (runs_look (fun p : Probe σ => judge s t p.term (topKey p.cursor)) q).bind
    (f := fun finding => match finding with
      | .posting document => pure (some document)
      | .nothing => pure none
      | .lookOn start => look s t n start) hr
  exact h.bind (f := fun _ => _) hjudge

/-- With as many seeks as there are entries ahead, and one more, the search is decided. -/
theorem look_runs {p : Probe σ} (h : Serves p.cursor heeds es) {start : Key}
    (hrow : t.row ≤ start.row) {n : Nat} (hn : ahead es start < n) :
    ∃ r q, Runs (look s t n start) p r q ∧ q.term = p.term ∧ Upon heeds es q
      ∧ Found s es t p.term r
      ∧ (Plain es → From s es t p.term start → First s es t p.term r ∧ Settled s es t q) := by
  induction n generalizing p start with
  | zero => exact absurd hn (Nat.not_lt_zero _)
  | succ n ih =>
      obtain ⟨c, hc, hserves, hl⟩ := seekTo_runs (s := s) h start
      -- what is wanted lies at or after the entry that the seek stops at
      have hstop : From s es t p.term start → ∀ e ∈ es, ∀ id,
          s.layout.postingDoc? p.term e.1 = some id → t.admits ⟨e.1.row, id⟩ = true →
          s.range.isAfterRow e.1.row = false → ∃ k, topKey c = some k ∧ k ≤ e.1 := by
        intro hfrom e he id hid hadmits hafter
        exact top_le_of_seek h.ascending hl he (hfrom e he id hid hadmits hafter)
          (Layout.postingDoc?_eq_some_iff.mp hid).1
      rcases hk : topKey c with _ | k
      · -- the family has nothing more
        refine ⟨none, ⟨p.term, c, true⟩, look_runs_of_judge hc ?_, rfl, ⟨hserves, ?_⟩, ?_, ?_⟩
        · rw [hk]
          exact runs_pure none _
        · intro _ k hk'
          rw [hk] at hk'
          exact absurd hk' (by simp)
        · intro d hd
          exact absurd hd (by simp)
        · intro _ hfrom
          refine ⟨?_, fun _ => hstop hfrom⟩
          rintro d ⟨⟨e, he, hrow', hd⟩, hadmits, hafter⟩
          have hdoc : (⟨e.1.row, d.id⟩ : Document) = d := by rw [hrow']
          obtain ⟨k, hk', -⟩ := hstop hfrom e he d.id hd (hdoc ▸ hadmits) (hrow' ▸ hafter)
          rw [hk] at hk'
          exact absurd hk' (by simp)
      · obtain ⟨hstart, hmem⟩ := top_of_seek hl hk
        have hrowk : t.row ≤ k.row := le_trans hrow (Key.row_le_of_le hstart)
        have hupon : Upon heeds es (⟨p.term, c, true⟩ : Probe σ) := by
          refine ⟨hserves, ?_⟩
          intro _ k' hk'
          rw [hk, Option.some.injEq] at hk'
          exact hk' ▸ hmem
        have hfromk : From s es t p.term start → From s es t p.term k := by
          intro hfrom e he id hid hadmits hafter
          obtain ⟨k', hk', hle⟩ := hstop hfrom e he id hid hadmits hafter
          rw [hk, Option.some.injEq] at hk'
          exact hk' ▸ hle
        rcases hj : judge s t p.term (some k) with d | _ | start'
        · -- a posting that will do
          obtain ⟨hwanted, hfirst⟩ := wanted_of_judge hmem hrowk hj
          refine ⟨some d, ⟨p.term, c, true⟩, look_runs_of_judge hc ?_, rfl, hupon, ?_, ?_⟩
          · rw [hk, hj]
            exact runs_pure (some d) _
          · intro d' hd'
            rw [← Option.some.inj hd']
            exact hwanted
          · intro _ hfrom
            exact ⟨hfirst (hfromk hfrom), fun _ => hstop hfrom⟩
        · -- a row behind the range
          refine ⟨none, ⟨p.term, c, true⟩, look_runs_of_judge hc ?_, rfl, hupon, ?_, ?_⟩
          · rw [hk, hj]
            exact runs_pure none _
          · intro d hd
            exact absurd hd (by simp)
          · intro _ hfrom
            exact ⟨first_of_isAfterRow (isAfterRow_of_judge hj) (hfromk hfrom), fun _ => hstop hfrom⟩
        · -- something else: the next seek starts behind it
          obtain ⟨hlt, hrow', hon⟩ := from_of_judge hrowk hj
          have hfewer : ahead es start' < n :=
            Nat.lt_of_lt_of_le (ahead_lt hmem hstart hlt) (Nat.le_of_lt_succ hn)
          obtain ⟨r, q, hq, hterm, hupon', hfound, hfirst⟩ :=
            ih (p := ⟨p.term, c, true⟩) hserves hrow' hfewer
          refine ⟨r, q, look_runs_of_judge hc ?_, hterm, hupon', hfound, ?_⟩
          · rw [hk, hj]
            exact hq
          · intro hplain hfrom
            exact hfirst hplain (hon hplain (hfromk hfrom))

/-! ## Aligning -/

/-- What bringing a probe to a target comes to. -/
structure Aligned (s : Search) (heeds : Bool) (es : List Entry) (t : Target) (p q : Probe σ)
    (r : Option Document) : Prop where
  term : q.term = p.term
  upon : Upon heeds es q
  found : Found s es t p.term r
  first : Plain es → Settled s es t p → First s es t p.term r ∧ Settled s es t q

theorem standing?_eq_some {p : Probe σ} {d : Document} (h : p.standing? s t = some d) :
    p.placed = true ∧ ∃ k, topKey p.cursor = some k ∧ d.row = k.row
      ∧ s.layout.postingDoc? p.term k = some d.id ∧ t.admits d = true
      ∧ s.range.isAfterRow d.row = false := by
  rw [standing?] at h
  by_cases hplaced : p.placed = true
  · rw [if_pos hplaced] at h
    obtain ⟨k, hk, h⟩ := Option.bind_eq_some_iff.mp h
    obtain ⟨id, hid, h⟩ := Option.bind_eq_some_iff.mp h
    split at h
    · next hok =>
        obtain rfl := Option.some.inj h
        rw [Bool.and_eq_true, Bool.not_eq_true'] at hok
        exact ⟨hplaced, k, hk, rfl, hid, hok.1, hok.2⟩
    · exact absurd h (by simp)
  · rw [if_neg hplaced] at h
    exact absurd h (by simp)

/-- Aligning succeeds, and what it finds is wanted; of plain entries it is the first. -/
theorem align_runs {p : Probe σ} (h : Upon heeds es p) {n : Nat} (hn : es.length < n) :
    ∃ r q, Runs (align s t n) p r q ∧ Aligned s heeds es t p q r := by
  rcases hst : p.standing? s t with _ | d
  · -- the probe seeks from the least key of the target's postings
    have hahead : ahead es (s.layout.postingKey t.row p.term t.id) < n :=
      Nat.lt_of_le_of_lt List.countP_le_length hn
    obtain ⟨r, q, hq, hterm, hupon, hfound, hfirst⟩ :=
      look_runs (s := s) (t := t) h.serves (le_refl t.row) hahead
    refine ⟨r, q, hq.of_eq ?_, hterm, hupon, hfound, ?_⟩
    · simp only [align, hst]
    · intro hplain _
      refine hfirst hplain ?_
      intro e he id hid hadmits _
      exact Layout.postingKey_le hid (hplain e he) hadmits
  · -- the probe stays, at or before all postings that are wanted now
    obtain ⟨hplaced, k, hk, hrow, hid, hadmits, hafter⟩ := standing?_eq_some hst
    obtain ⟨e, he, rfl⟩ := h.held hplaced k hk
    refine ⟨some d, p, (runs_give (some d) p).of_eq ?_, rfl, h, ?_, ?_⟩
    · simp only [align, hst]
    · intro d' hd'
      rw [← Option.some.inj hd']
      exact ⟨⟨e, he, hrow.symm, hid⟩, hadmits, hafter⟩
    · intro _ hsettled
      refine ⟨?_, hsettled⟩
      have hdoc : (⟨e.1.row, d.id⟩ : Document) = d := by rw [← hrow]
      rw [← hdoc]
      -- it stands at or before all that was wanted when it was brought here
      refine first_of_from hid ?_
      intro x hx id hid' hadmits' hafter'
      obtain ⟨k', hk', hle⟩ := hsettled hplaced x hx id hid' hadmits' hafter'
      rw [hk, Option.some.injEq] at hk'
      exact hk' ▸ hle

end Probe

end CellScan
