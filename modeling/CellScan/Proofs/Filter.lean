/-
`Filter.lean` -- what a filter lists, and when it shows only what it has checked.

A filter has no top of its own: it shows the entry its source stands at. After a
call that succeeds that entry meets all conditions (`Filter.meets_of_perform`). After a
call that fails, and before the first call, nothing is said about it, so over a
source that stands at a rejected entry there the filter shows that entry.

Over a source that never fails a filter never fails either, and it lists what the
source lists and the chain accepts (`Filter.lists`). Where the source was already
placed the entry shown at first is the one exception (`Filter.leads`).
-/
import CellScan.Proofs.Calls
import CellScan.Proofs.Visibility
import CellScan.Stack

set_option autoImplicit false

namespace CellScan.Filter

open CellScan.Action CellScan.Cursor CellScan.Entry CellScan.Predicate

variable {σ : Type} [Cursor σ]

/-! ## What every call keeps -/

/-- The chain of the filter is sound and decides by the condition `p`. -/
def Decides (f : Filter σ) (p : Entry → Bool) : Prop :=
  (∀ q ∈ f.predicates, q.Sound) ∧ meets f.predicates = p

omit [Cursor σ] in
theorem decides_ofPredicates {source : σ} {ps : List Predicate} (h : ∀ q ∈ ps, q.Sound)
    (env : Environment) : (ofPredicates source ps env).Decides (meets ps) := ⟨h, rfl⟩

/-- A filter over another source, by predicates that remember nothing. -/
def copied (f : Filter σ) (source : σ) (env : Environment) : Filter σ :=
  ⟨source, f.predicates.map (·.copy env), env.account⟩

theorem copy_of_source {f : Filter σ} {env : Environment} {t : σ}
    (h : Cursor.copy env f.source = .ok t) : Cursor.copy env f = .ok (f.copied t env) := by
  show (Cursor.copy env f.source).map _ = _
  rw [h]
  rfl

/-- What is copied is the source. -/
theorem exists_of_copy {f u : Filter σ} {env : Environment} (h : Cursor.copy env f = .ok u) :
    ∃ t, Cursor.copy env f.source = .ok t ∧ u = f.copied t env :=
  exists_of_map_ok (x := Cursor.copy env f.source) h

omit [Cursor σ] in
/-- A copy decides as the filter does. -/
theorem Decides.copied {f : Filter σ} {p : Entry → Bool} (h : f.Decides p) (t : σ)
    (env : Environment) : (f.copied t env).Decides p := by
  refine ⟨?_, (meets_copy f.predicates env).trans h.2⟩
  intro q hq
  obtain ⟨q', hq', rfl⟩ := List.mem_map.mp hq
  exact q'.sound_copy env (h.1 q' hq')

/-- The states of a filter over what calls on `s` lead to. -/
def Upon (s : σ) (p : Entry → Bool) (f : Filter σ) : Prop := Reached s f.source ∧ f.Decides p

variable {s : σ} {p : Entry → Bool}

omit [Cursor σ] in
theorem decideOn_runs {f : Filter σ} (h : f.Decides p) (e : Entry) :
    ∃ g, Runs (decideOn e) f (p e) g ∧ g.source = f.source ∧ g.Decides p := by
  obtain ⟨hsound, rfl⟩ := h
  obtain ⟨hfst, hkept, hmeets⟩ := acceptAll_spec hsound e
  rw [← hfst]
  exact ⟨_, ⟨_, rfl⟩, rfl, hkept, hmeets⟩

/-- Kept by deciding and by calls on the source. -/
structure Kept (I : Filter σ → Prop) : Prop where
  decide : ∀ e, Keeps I (decideOn e)
  seek : ∀ range families, Keeps I (onSource (Cursor.seek range families))
  next : Keeps I (onSource Cursor.next)

theorem passRejected_of_none {f : Filter σ} (h : Cursor.top f.source = none) (fuel : Nat) :
    passRejected (fuel + 1) f = give () f := by
  simp only [passRejected, h]

theorem passRejected_of_some {f : Filter σ} {e : Entry} (h : Cursor.top f.source = some e)
    (fuel : Nat) :
    passRejected (fuel + 1) f = (decideOn e >>= fun accepted =>
      if accepted then pure () else onSource Cursor.next >>= fun _ => passRejected fuel) f := by
  simp only [passRejected, h]

/-- A seek, without the look at the account. -/
theorem place_apply (range : Range) (families : FamilyFilter) (f : Filter σ) :
    place range families f = (record [.count f.account .seek] >>= fun _ =>
      onSource (Cursor.seek range families) >>= fun _ => settle) f := rfl

namespace Kept

variable {I : Filter σ → Prop}

theorem passRejected (h : Kept I) (fuel : Nat) : Keeps I (Filter.passRejected fuel) := by
  induction fuel with
  | zero => exact keeps_fail _
  | succ fuel ih =>
      intro f hf
      rcases htop : Cursor.top f.source with _ | e
      · rw [passRejected_of_none htop]
        exact hf
      · rw [passRejected_of_some htop]
        refine Keeps.bind (h.decide e) ?_ f hf
        intro accepted
        split
        · exact keeps_pure _
        · exact h.next.bind fun _ => ih

theorem settle (h : Kept I) : Keeps I Filter.settle := fun f hf => h.passRejected _ f hf

theorem place (h : Kept I) (range : Range) (families : FamilyFilter) :
    Keeps I (Filter.place range families) :=
  (keeps_look _).bind fun _ => (keeps_record _).bind fun _ =>
    (h.seek range families).bind fun _ => h.settle

theorem step (h : Kept I) : Keeps I Filter.step := h.next.bind fun _ => h.settle

end Kept

theorem kept_upon : Kept (Upon s p) := by
  refine ⟨?_, ?_, ?_⟩
  · rintro e f ⟨hreached, hdec⟩
    obtain ⟨g, hg, hsource, hdec'⟩ := decideOn_runs hdec e
    rw [hg.state]
    exact ⟨hsource ▸ hreached, hdec'⟩
  · exact fun range families => keeps_on fun f hf => ⟨hf.1.seek range families, hf.2⟩
  · exact keeps_on fun f hf => ⟨hf.1.next, hf.2⟩

/-- Whatever the chain, the source is where calls on it lead to. -/
theorem kept_reached : Kept fun f : Filter σ => Reached s f.source :=
  ⟨fun _ _ hf => hf, fun range families => keeps_on fun _ hf => hf.seek range families,
    keeps_on fun _ hf => hf.next⟩

theorem reached_source {f g : Filter σ} (h : Reached f g) : Reached f.source g.source := by
  induction h with
  | here => exact .here
  | seek range families _ ih => exact kept_reached.place range families _ ih
  | next _ ih => exact kept_reached.step _ ih
  | @copy g u env _ hcopy ih =>
      obtain ⟨t, ht, rfl⟩ := exists_of_copy hcopy
      exact ih.copy env ht

/-! ## What is shown has been checked

That holds after every call that succeeds. -/

theorem meets_of_passRejected {fuel : Nat} {f : Filter σ} (h : f.Decides p)
    (hok : (passRejected fuel f).result = .ok ()) :
    ∀ e ∈ Cursor.top (passRejected fuel f).state, p e = true := by
  induction fuel generalizing f with
  | zero => exact absurd hok (by simp [passRejected])
  | succ fuel ih =>
      intro e he
      rcases htop : Cursor.top f.source with _ | top
      · rw [passRejected_of_none htop] at he
        have hnone : Cursor.top f.source = some e := he
        rw [htop] at hnone
        exact absurd hnone (Option.some_ne_none e).symm
      · rw [passRejected_of_some htop] at hok he
        obtain ⟨accepted, g, hg, hrest, hstate⟩ := ok_of_bind hok
        rw [hstate] at he
        obtain ⟨g', hg', hsource, hdec⟩ := decideOn_runs h top
        obtain rfl : accepted = p top := by
          have hres := hg.result
          rw [hg'.result] at hres
          exact (Except.ok.inj hres).symm
        obtain rfl : g' = g := hg'.state.symm.trans hg.state
        by_cases hp : p top = true
        · -- the source stays where it is, at an entry that was accepted
          rw [if_pos hp] at he
          have htop' : Cursor.top g'.source = some e := he
          rw [hsource, htop] at htop'
          rwa [← Option.some.inj htop']
        · -- the entry is left, and the loop goes on from the next
          rw [if_neg hp] at hrest he
          obtain ⟨_, t, ht, hrest, hstate⟩ := ok_of_bind hrest
          rw [hstate] at he
          refine ih ?_ hrest e he
          rw [← ht.state]
          exact hdec

theorem meets_of_settle {f : Filter σ} (h : f.Decides p) (hok : (settle f).result = .ok ()) :
    ∀ e ∈ Cursor.top (settle f).state, p e = true := meets_of_passRejected h hok

/-- After a call that succeeds a filter shows only what meets its conditions. -/
theorem meets_of_perform {f : Filter σ} (h : f.Decides p) {call : Call}
    (hok : (perform call f).result = .ok ()) :
    ∀ e ∈ Cursor.top (perform call f).state, p e = true := by
  have hdec : ∀ {x : Action σ Unit} {t : Filter σ}, Runs (onSource x) f () t → t.Decides p := by
    intro x t ht
    rw [← ht.state]
    exact h
  cases call with
  | seek range families =>
      have hplace : perform (.seek range families) f = place range families f := rfl
      rw [hplace, place_apply] at hok ⊢
      obtain ⟨_, t, ht, hrest, hstate⟩ := ok_of_bind hok
      obtain rfl : f = t := ht.state
      obtain ⟨_, u, hu, hrest, hstate'⟩ := ok_of_bind hrest
      intro e he
      refine meets_of_settle (hdec hu) hrest e ?_
      rw [← hstate', ← hstate]
      exact he
  | next =>
      obtain ⟨_, t, ht, hrest, hstate⟩ := ok_of_bind hok
      intro e he
      refine meets_of_settle (hdec ht) hrest e ?_
      rw [← hstate]
      exact he

/-! A filter adds no failure of its own: what it fails with is the failure of a call
on its source, whose state it keeps, or the source has served more than it reaches. -/

/-- The source has failed with `fault`, in a call that left it in the state `u`. -/
def Failed (s : σ) (fault : Fault) (u : σ) : Prop :=
  ∃ t call, Reached s t ∧ (perform call t).result = .error fault ∧ (perform call t).state = u

theorem failed_of_onSource {f : Filter σ} (call : Call) {fault : Fault}
    (h : (onSource (perform call) f).result = .error fault) :
    Failed f.source fault (onSource (perform call) f).state.source :=
  ⟨f.source, call, Reached.here, h, rfl⟩

theorem Failed.of_reached {s t u : σ} {fault : Fault} (h : Failed t fault u) (ht : Reached s t) :
    Failed s fault u := by
  obtain ⟨v, call, hv, hfail, hstate⟩ := h
  exact ⟨v, call, ht.trans hv, hfail, hstate⟩

theorem failed_of_passRejected {fuel : Nat} {f : Filter σ} {fault : Fault} (h : f.Decides p)
    (hfail : (passRejected fuel f).result = .error fault) :
    fault = .endless ∨ Failed f.source fault (passRejected fuel f).state.source := by
  induction fuel generalizing f with
  | zero => exact Or.inl (Except.error.inj hfail).symm
  | succ fuel ih =>
      rcases htop : Cursor.top f.source with _ | e
      · rw [passRejected_of_none htop] at hfail
        exact absurd hfail (by simp)
      · rw [passRejected_of_some htop] at hfail ⊢
        obtain ⟨g, hg, hsource, hdec⟩ := decideOn_runs h e
        -- deciding does not fail, so the failure is that of `next` or of the loop behind it
        rcases error_of_bind hfail with ⟨hdecide, -⟩ | ⟨accepted, t, ht, hrest, hstate⟩
        · rw [hg.result] at hdecide
          exact absurd hdecide (by simp)
        · obtain rfl : g = t := hg.state.symm.trans ht.state
          rw [hstate]
          by_cases hacc : accepted = true
          · rw [if_pos hacc] at hrest
            exact absurd hrest (by simp)
          · rw [if_neg hacc] at hrest ⊢
            rcases error_of_bind hrest with ⟨hnext, hstate'⟩ | ⟨_, u, hu, hrest', hstate'⟩
            · rw [hstate', ← hsource]
              exact Or.inr (failed_of_onSource .next hnext)
            · rw [hstate']
              have hdec' : u.Decides p := by
                rw [← hu.state]
                exact hdec
              have hreached : Reached f.source u.source := by
                rw [← hu.state, ← hsource]
                exact Reached.here.next
              rcases ih hdec' hrest' with hend | hfailed
              · exact Or.inl hend
              · exact Or.inr (hfailed.of_reached hreached)

theorem failed_of_perform {f : Filter σ} {call : Call} {fault : Fault} (h : f.Decides p)
    (hfail : (perform call f).result = .error fault) :
    fault = .endless ∨ Failed f.source fault (perform call f).state.source := by
  -- a seek and a step both move the source by one call and settle
  have hsettled : ∀ {g : Filter σ}, g.source = f.source → g.Decides p →
      ((onSource (perform call) >>= fun _ => settle) g).result = .error fault →
      fault = .endless
        ∨ Failed f.source fault ((onSource (perform call) >>= fun _ => settle) g).state.source := by
    intro g hsource hdec hg
    rcases error_of_bind hg with ⟨hmove, hstate⟩ | ⟨_, t, ht, hrest, hstate⟩
    · rw [hstate, ← hsource]
      exact Or.inr (failed_of_onSource call hmove)
    · rw [hstate]
      have hdec' : t.Decides p := by
        rw [← ht.state]
        exact hdec
      have hreached : Reached f.source t.source := by
        rw [← ht.state, ← hsource]
        exact Reached.here.after [call]
      rcases failed_of_passRejected hdec' hrest with hend | hfailed
      · exact Or.inl hend
      · exact Or.inr (hfailed.of_reached hreached)
  cases call with
  | next => exact hsettled rfl h hfail
  | seek range families =>
      have hplace : perform (.seek range families) f = place range families f := rfl
      rw [hplace, place_apply] at hfail ⊢
      rcases error_of_bind hfail with ⟨hrecord, -⟩ | ⟨_, t, ht, hrest, hstate⟩
      · exact absurd hrecord (by simp [record])
      · obtain rfl : f = t := ht.state
        rw [hstate]
        exact hsettled rfl h hrest

theorem decides_after {f : Filter σ} (h : f.Decides p) (calls : List Call) :
    (after f calls).Decides p := by
  have hupon : ∀ g : Filter σ, Upon f.source p g → Upon f.source p (after g calls) := by
    induction calls with
    | nil => exact fun g hg => hg
    | cons call calls ih =>
        intro g hg
        cases call with
        | seek range families => exact ih _ (kept_upon.place range families g hg)
        | next => exact ih _ (kept_upon.step g hg)
  exact (hupon f ⟨Reached.here, h⟩).2

/-- The entry shown fails a condition exactly if the source stands at an entry that
fails one and was not brought there by a call that succeeded: there was no call yet,
or the source failed in the last one, or the last one gave up on a source that serves
more than it reaches. -/
theorem shows_rejected_iff (f : Filter σ) (h : ∀ q ∈ f.predicates, q.Sound) (calls : List Call) :
    (∃ e ∈ Cursor.top (after f calls), meets f.predicates e = false)
      ↔ (∃ e ∈ Cursor.top (after f calls).source, meets f.predicates e = false)
        ∧ (calls = [] ∨ ∃ earlier call fault, calls = earlier ++ [call]
            ∧ (perform call (after f earlier)).result = .error fault
            ∧ (fault = .endless
              ∨ Failed (after f earlier).source fault (after f calls).source)) := by
  constructor
  · rintro ⟨e, he, hrejected⟩
    refine ⟨⟨e, he, hrejected⟩, ?_⟩
    rcases List.eq_nil_or_concat calls with rfl | ⟨earlier, call, rfl⟩
    · exact Or.inl rfl
    · -- the last call failed, for after a success what is shown has been checked
      have hdec := decides_after ⟨h, rfl⟩ earlier
      rw [List.concat_eq_append, after_concat] at he ⊢
      refine Or.inr ⟨earlier, call, ?_⟩
      cases hres : (perform call (after f earlier)).result with
      | error fault => exact ⟨fault, rfl, rfl, failed_of_perform hdec hres⟩
      | ok _ =>
          have hmeets := meets_of_perform hdec hres e he
          rw [hrejected] at hmeets
          exact Bool.noConfusion hmeets
  · rintro ⟨⟨e, he, hrejected⟩, -⟩
    exact ⟨e, he, hrejected⟩

/-! ### The two ways to show what is rejected

A table that stands at a hidden cell before a filter is put upon it, and a merge of
which one child fails while another one stands at such a cell. -/

/-- A cell with a label that a reader without tokens does not satisfy. -/
def hiddenCell : Entry := (⟨[2], [], [], [115], 0, false⟩, [])

/-- The chain of a reader without tokens. -/
def strangers : List Predicate := [.visibility (Visibility.ofEnvironment (Environment.ofAccount 0))]

theorem sound_strangers : ∀ q ∈ strangers, q.Sound := by
  intro q hq
  obtain rfl := List.mem_singleton.mp hq
  exact Visibility.sound_withDefault _ _

theorem strangers_reject : meets strangers hiddenCell = false := by cbv

/-- A filter over a table that has been placed before. -/
def uponPlaced : Filter Table :=
  ofPredicates ((Table.ofEntries [hiddenCell]).placed Range.all FamilyFilter.all) strangers
    (Environment.ofAccount 0)

/-- A filter over a merge with a tape that cannot be read beyond its first entry. -/
def uponFailing : Filter (Merge Source) :=
  ofPredicates
    (Merge.ofChildren
      [.tape (Tape.ofEntries [(Key.ofRow [1], []), (Key.ofRow [3], [])] (some 1) true),
        .table (Table.ofEntries [hiddenCell])] false none)
    strangers (Environment.ofAccount 0)

/-- Neither before the first call nor after a failure can the entry shown be relied
upon to meet the conditions. -/
theorem shows_rejected :
    (∃ e ∈ Cursor.top (after uponPlaced []), meets uponPlaced.predicates e = false)
      ∧ ∃ e ∈ Cursor.top (after uponFailing [.seek Range.all FamilyFilter.all, .next]),
          meets uponFailing.predicates e = false := by
  refine ⟨⟨hiddenCell, ?_, strangers_reject⟩, hiddenCell, ?_, strangers_reject⟩
  · decide +kernel
  · decide +kernel

theorem shows_rejected_of_placed :
    ∃ e ∈ Cursor.top (after uponPlaced []), meets uponPlaced.predicates e = false := by
  refine (shows_rejected_iff uponPlaced sound_strangers []).mpr
    ⟨⟨hiddenCell, ?_, strangers_reject⟩, Or.inl rfl⟩
  decide +kernel

/-! ## What a filter lists -/

/-- What a filter leads to that stands at the first of some entries, checked or not. -/
def remaining (p : Entry → Bool) : List Entry → List Entry
  | [] => []
  | e :: es => e :: es.filter p

theorem remaining_dropWhile (p : Entry → Bool) (es : List Entry) :
    remaining p (es.dropWhile fun e => !p e) = es.filter p := by
  induction es with
  | nil => rfl
  | cons e es ih =>
      by_cases hp : p e = true
      · rw [List.dropWhile_cons_of_neg (by simp [hp]), List.filter_cons_of_pos hp, remaining]
      · rw [List.dropWhile_cons_of_pos (by simp [hp]), List.filter_cons_of_neg hp, ih]

theorem remaining_sublist (p : Entry → Bool) (es : List Entry) : (remaining p es).Sublist es := by
  cases es with
  | nil => exact List.Sublist.slnil
  | cons e es => exact List.filter_sublist.cons_cons e

/-- Over entries to come without a failure the filter passes those that fail. -/
theorem passRejected_runs {f : Filter σ} (h : f.Decides p) {es : List Entry}
    (hl : Leads f.source es) {fuel : Nat} (hfuel : es.length < fuel) :
    ∃ g, Runs (passRejected fuel) f () g ∧ Leads g.source (es.dropWhile fun e => !p e) := by
  induction es generalizing f fuel with
  | nil =>
      obtain ⟨n, rfl⟩ : ∃ n, fuel = n + 1 := ⟨fuel - 1, by omega⟩
      exact ⟨f, (runs_give () f).of_eq (passRejected_of_none hl.head? n), hl⟩
  | cons e es ih =>
      obtain ⟨n, rfl⟩ : ∃ n, fuel = n + 1 := ⟨fuel - 1, by omega⟩
      obtain ⟨g, hg, hsource, hdec⟩ := decideOn_runs h e
      have hfrom : ∀ {u : Filter σ}, Runs (if p e then pure () else
          onSource Cursor.next >>= fun _ => passRejected n) g () u →
          Runs (passRejected (n + 1)) f () u := by
        intro u hu
        exact (hg.bind (f := fun accepted : Bool => if accepted then pure () else
          onSource Cursor.next >>= fun _ => passRejected n) hu).of_eq
            (passRejected_of_some hl.head? n)
      by_cases hp : p e = true
      · -- accepted: the source stays where it is
        refine ⟨g, hfrom ?_, ?_⟩
        · rw [if_pos hp]
          exact runs_pure () g
        · rw [hsource, List.dropWhile_cons_of_neg (by simp [hp])]
          exact hl
      · -- rejected: the source goes on to the rest
        obtain ⟨t, ht, hlt⟩ := hl.tail
        rw [← hsource] at ht
        obtain ⟨u, hu, hlu⟩ := ih (f := { g with source := t }) hdec hlt (Nat.lt_of_succ_lt_succ hfuel)
        refine ⟨u, hfrom ?_, ?_⟩
        · rw [if_neg hp]
          exact ht.on.bind hu
        · rw [List.dropWhile_cons_of_pos (by simp [hp])]
          exact hlu

theorem settle_runs {f : Filter σ} (h : f.Decides p) {es : List Entry} (hl : Leads f.source es) :
    ∃ g, Runs settle f () g ∧ Leads g.source (es.dropWhile fun e => !p e) ∧ g.Decides p
      ∧ Reached f.source g.source := by
  obtain ⟨g, hg, hlg⟩ := passRejected_runs h hl (Nat.lt_succ_of_le hl.length_le)
  have hkept := kept_upon.passRejected (Cursor.reach f.source + 1) f ⟨Reached.here, h⟩
  rw [hg.state] at hkept
  exact ⟨g, hg, hlg, hkept.2, hkept.1⟩

/-- A filter shows the entry its source stands at, and after it what its conditions
leave of the source. -/
theorem leads {f : Filter σ} (h : f.Decides p) {es : List Entry} (hl : Leads f.source es) :
    Leads f (remaining p es) := by
  generalize hn : es.length = n
  induction n using Nat.strongRecOn generalizing f es with
  | ind n ih =>
      rcases es with _ | ⟨e, es⟩
      · exact Leads.done hl.head?
      · obtain ⟨t, ht, hlt⟩ := hl.tail
        obtain ⟨g, hg, hlg, hdec, -⟩ := settle_runs (f := { f with source := t }) h hlt
        -- settling drops entries only, so fewer are to come
        have hlen : (es.dropWhile fun e => !p e).length < n := by
          have hle := (List.dropWhile_sublist (l := es) fun e => !p e).length_le
          rw [List.length_cons] at hn
          omega
        have hrest := ih _ hlen hdec hlg rfl
        rw [remaining_dropWhile] at hrest
        have hbound : (es.filter p).length < Cursor.reach f.source :=
          Nat.lt_of_le_of_lt (List.length_filter_le p es) hl.length_le
        exact Leads.more hl.head? (ht.on.bind hg) hbound hrest

/-- Over a source that never fails a filter never fails, and it lists what its
conditions leave of the source. -/
theorem lists {listing : Range → FamilyFilter → List Entry} {f : Filter σ} (h : f.Decides p)
    (hs : Lists f.source listing) :
    Lists f fun range families => (listing range families).filter p := by
  refine Lists.of_invariant
    (fun g => g.Decides p ∧ Lists g.source listing ∧ Cursor.reach g.source = Cursor.reach f.source)
    ⟨h, hs, rfl⟩ ?_ ?_ ?_ ?_ ?_
  · -- a seek of the source, and then what it leads to is settled
    rintro g ⟨hdec, hg, hreach⟩ range families
    obtain ⟨t, ht, hlt⟩ := hg.seek Reached.here range families
    obtain ⟨u, hu, hlu, hdec', hreached⟩ := settle_runs (f := { g with source := t }) hdec hlt
    have htl : Lists t listing := hg.of_seek ht
    have hrest := leads hdec' hlu
    rw [remaining_dropWhile] at hrest
    refine ⟨u, ?_, ⟨hdec', htl.of_reached hreached, ?_⟩, hrest⟩
    · have hmove : Runs (onSource (Cursor.seek range families) >>= fun _ => settle) g () u :=
        ht.on.bind hu
      exact ((runs_record [.count g.account .seek] g).bind (f := fun _ => _) hmove).of_eq
        (place_apply range families g)
    · rw [htl.reach hreached, ← ht.state, hg.reach (Reached.here.seek range families), hreach]
  · rintro g ⟨hdec, hg, hreach⟩
    have hkept := kept_upon.step g ⟨Reached.here, hdec⟩
    exact ⟨hkept.2, hg.of_reached hkept.1, (hg.reach hkept.1).trans hreach⟩
  · -- a copy, whose predicates remember nothing
    rintro g env ⟨hdec, hg, hreach⟩
    obtain ⟨t, ht, hnone⟩ := hg.copy Reached.here env
    refine ⟨g.copied t env, copy_of_source ht, ⟨hdec.copied t env, hg.of_copy ht, ?_⟩, hnone⟩
    exact (hg.reach (Reached.here.copy env ht)).trans hreach
  · rintro g ⟨hdec, hg, -⟩
    obtain ⟨es, hes, hasc⟩ := hg.stands Reached.here
    exact ⟨remaining p es, leads hdec hes, hasc.sublist (remaining_sublist p es)⟩
  · rintro g ⟨-, -, hreach⟩
    exact hreach

end CellScan.Filter
