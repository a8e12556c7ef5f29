/-
`Asking.lean` -- what a scan of a filter asks its chain.

A filter moves its source by `seek` and `next`, and after each move it asks its chain about entries
until one is accepted. The moves of a scan together ask about every entry of the source once, in
the order of the source (`Filter.events_scan`): one induction on the entries to come goes through
`passRejected` and `collect` at the same time. What is recorded of it is `Predicate.decisions`,
which knows nothing of moves any more. The source is quiet here, that is, it records nothing of
its own where it succeeds.
-/
import CellScan.Proofs.Silence

set_option autoImplicit false

namespace CellScan

open CellScan.Action CellScan.Cursor CellScan.Predicate

namespace Predicate

/-- What is recorded when a chain is asked about entries in turn and each decision is counted. -/
def decisions (a : Account) : List Predicate → List Entry → List Event
  | _, [] => []
  | ps, e :: es =>
      (acceptAll ps e).2.2 ++ .count a (.decision (acceptAll ps e).1)
        :: decisions a (acceptAll ps e).2.1 es

end Predicate

namespace Cursor

variable {σ : Type} [Cursor σ] {s t : σ}

/-- No call that succeeds records anything. -/
abbrev Quiet (s : σ) : Prop := Silent (fun _ => True) s

omit [Cursor σ] in
/-- A call that omits all events and succeeds comes to its result and state alone. -/
theorem eq_of_omits {P : σ → Prop} {x : Action σ Unit} (h : Omits P (fun _ => True) x) (hs : P s)
    (hx : Runs x s () t) : x s = ⟨.ok (), t, []⟩ := by
  have hnone := h s hs () hx.result
  obtain ⟨events, he⟩ := hx
  have hnil : events = [] := by
    refine List.eq_nil_iff_forall_not_mem.mpr fun e hmem => hnone e ?_ trivial
    rw [he]
    exact hmem
  rw [he, hnil]

end Cursor

/-- To leave an entry and to list the rest records what either does. -/
theorem Scan.events_collect_succ {σ : Type} [Cursor σ] {s t : σ} {e : Entry}
    (htop : Cursor.top s = some e) (hnext : Runs Cursor.next s () t) (n : Nat) :
    (collect (n + 1) s).events = (Cursor.next s).events ++ (collect n t).events := by
  obtain ⟨events, he⟩ := hnext
  simp only [collect, htop]
  rw [bind_apply_ok he, he]
  rcases hrest : collect n t with ⟨fault | rest, u, more⟩
  · rw [bind_apply_error hrest]
  · rw [bind_apply_ok hrest, pure_apply, List.append_nil]

namespace Filter

variable {σ : Type} [Cursor σ] {p : Entry → Bool} {f : Filter σ} {es : List Entry}

omit [Cursor σ] in
theorem onSource_eq {x : Action σ Unit} {t : σ} (h : x f.source = ⟨.ok (), t, []⟩) :
    onSource x f = ⟨.ok (), { f with source := t }, []⟩ := by
  rw [onSource, Action.on, h]
  rfl

/-- The filter, its source moved on and its chain asked about an entry. -/
def asked (f : Filter σ) (e : Entry) (source : σ) : Filter σ :=
  { f with source := source, predicates := (acceptAll f.predicates e).2.1 }

omit [Cursor σ] in
theorem fst_acceptAll (h : f.Decides p) (e : Entry) : (acceptAll f.predicates e).1 = p e := by
  rw [(acceptAll_spec h.1 e).1, h.2]

omit [Cursor σ] in
theorem decideOn_eq (h : f.Decides p) (e : Entry) :
    decideOn e f = ⟨.ok (p e), f.asked e f.source,
      (acceptAll f.predicates e).2.2 ++ [.count f.account (.decision (p e))]⟩ := by
  rw [← fst_acceptAll h]
  rfl

omit [Cursor σ] in
theorem decides_asked (h : f.Decides p) (e : Entry) (source : σ) :
    (f.asked e source).Decides p := by
  obtain ⟨-, hsound, hmeets⟩ := acceptAll_spec h.1 e
  exact ⟨hsound, hmeets.trans h.2⟩

/-- Where the source stands at an entry that is accepted the filter stays. -/
theorem passRejected_of_accepted (h : f.Decides p) {e : Entry} (htop : Cursor.top f.source = some e)
    (hp : p e = true) (n : Nat) :
    passRejected (n + 1) f = ⟨.ok (), f.asked e f.source,
      (acceptAll f.predicates e).2.2 ++ [.count f.account (.decision true)]⟩ := by
  rw [passRejected_of_some htop, bind_apply_ok (decideOn_eq h e), hp, if_pos rfl, pure_apply,
    List.append_nil]

/-- Where the entry is rejected the filter goes on from the next. -/
theorem passRejected_of_rejected (h : f.Decides p) {e : Entry} (htop : Cursor.top f.source = some e)
    (hp : p e = false) {t : σ} (ht : Cursor.next f.source = ⟨.ok (), t, []⟩) (n : Nat) :
    passRejected (n + 1) f = ⟨(passRejected n (f.asked e t)).result,
      (passRejected n (f.asked e t)).state, (acceptAll f.predicates e).2.2
        ++ .count f.account (.decision false) :: (passRejected n (f.asked e t)).events⟩ := by
  have hmove : onSource Cursor.next (f.asked e f.source) = ⟨.ok (), f.asked e t, []⟩ :=
    onSource_eq ht
  rw [passRejected_of_some htop, bind_apply_ok (decideOn_eq h e), hp, if_neg Bool.false_ne_true,
    bind_apply_ok hmove, List.nil_append, List.append_assoc, List.singleton_append]

/-- To move on is to move the source on and to pass the entries that are rejected there. -/
theorem next_eq {t : σ} (ht : Cursor.next f.source = ⟨.ok (), t, []⟩) :
    Cursor.next f = passRejected (Cursor.reach t + 1) { f with source := t } := by
  show (onSource Cursor.next >>= fun _ => settle) f = _
  rw [bind_apply_ok (onSource_eq ht), List.nil_append]
  rfl

/-- To seek is to count that and to pass the entries that are rejected where the source stands. -/
theorem seek_eq {range : Range} {families : FamilyFilter} {t : σ}
    (ht : Cursor.seek range families f.source = ⟨.ok (), t, []⟩) :
    Cursor.seek range families f
      = ⟨(passRejected (Cursor.reach t + 1) { f with source := t }).result,
        (passRejected (Cursor.reach t + 1) { f with source := t }).state, .count f.account .seek
          :: (passRejected (Cursor.reach t + 1) { f with source := t }).events⟩ := by
  show place range families f = _
  rw [place_apply, bind_apply_ok (x := record _) rfl, bind_apply_ok (onSource_eq ht),
    List.nil_append]
  rfl

/-- To go on to the next entry accepted and to list the rest is to ask about all entries that are
still to come. -/
theorem events_collect (h : f.Decides p) (hquiet : Quiet f.source) (hl : Leads f.source es)
    {fuel n : Nat} (hfuel : es.length < fuel) (hn : (es.filter p).length < n) :
    (passRejected fuel f).events ++ (Scan.collect n (passRejected fuel f).state).events
      = decisions f.account f.predicates es := by
  induction es generalizing f fuel n with
  | nil =>
      obtain ⟨k, rfl⟩ : ∃ k, fuel = k + 1 := ⟨fuel - 1, by omega⟩
      obtain ⟨m, rfl⟩ : ∃ m, n = m + 1 := ⟨n - 1, by omega⟩
      have hnone : Cursor.top f = none := hl.head?
      rw [passRejected_of_none hl.head?, give_apply]
      simp only [Scan.collect, hnone, give_apply, List.nil_append, decisions]
  | cons e es ih =>
      obtain ⟨k, rfl⟩ : ∃ k, fuel = k + 1 := ⟨fuel - 1, by omega⟩
      rw [List.length_cons] at hfuel
      obtain ⟨t, ht, hlt⟩ := hl.tail
      have hnext := eq_of_omits hquiet.next .here ht
      have hquiet' : Quiet t := by
        rw [← ht.state]
        exact hquiet.of_reached Reached.here.next
      have hdec := decides_asked h e t
      rw [decisions, fst_acceptAll h]
      cases hp : p e with
      | false =>
          rw [List.filter_cons_of_neg (by simp [hp])] at hn
          have hrest := ih hdec hquiet' hlt (Nat.lt_of_succ_lt_succ hfuel) hn
          rw [passRejected_of_rejected h hl.head? hp hnext, List.append_assoc, List.cons_append,
            hrest]
          rfl
      | true =>
          -- the filter shows the entry, and `next` asks about those behind it
          obtain ⟨m, rfl⟩ : ∃ m, n = m + 1 := ⟨n - 1, by omega⟩
          rw [List.filter_cons_of_pos hp, List.length_cons] at hn
          have hrest := ih hdec hquiet' hlt (Nat.lt_succ_of_le hlt.length_le)
            (Nat.lt_of_succ_lt_succ hn)
          obtain ⟨u, hu, -⟩ := settle_runs hdec hlt
          have hstep : Cursor.next (f.asked e f.source)
              = passRejected (Cursor.reach t + 1) (f.asked e t) := next_eq hnext
          rw [passRejected_of_accepted h hl.head? hp,
            Scan.events_collect_succ (s := f.asked e f.source) hl.head? (hu.of_eq hstep), hstep,
            ← hu.state, List.append_assoc, List.cons_append, List.nil_append]
          exact congrArg (fun events => _ ++ _ :: events) hrest

/-- A scan records that it seeks, and then what it takes to ask about each entry of the source
that is in the range and the families. -/
theorem events_scan {listing : Range → FamilyFilter → List Entry} (h : f.Decides p)
    (hs : Lists f.source listing) (hquiet : Quiet f.source) (range : Range)
    (families : FamilyFilter) :
    (Scan.scan range families f).events = .count f.account .seek
      :: decisions f.account f.predicates (listing range families) := by
  obtain ⟨t, ht, hlt⟩ := hs.seek Reached.here range families
  have hquiet' : Quiet t := by
    rw [← ht.state]
    exact hquiet.of_seek range families
  have hdec : ({ f with source := t } : Filter σ).Decides p := h
  obtain ⟨u, hu, hlu, hdec', -⟩ := settle_runs hdec hlt
  -- what the seek has come to leads through the entries that are accepted
  have hrest := (leads hdec' hlu).length_le
  rw [remaining_dropWhile] at hrest
  have hall := events_collect hdec hquiet' hlt (Nat.lt_succ_of_le hlt.length_le)
    (Nat.lt_succ_of_le hrest)
  have hplace := seek_eq (eq_of_omits (hquiet.seek range families) .here ht)
  have hseek : Runs (Cursor.seek range families) f () u := by
    obtain ⟨events, he⟩ := hu
    have hpass : passRejected (Cursor.reach t + 1) { f with source := t } = ⟨.ok (), u, events⟩ :=
      he
    refine ⟨.count f.account .seek :: events, hplace.trans ?_⟩
    rw [hpass]
  refine (hseek.events_bind fun _ s => Scan.collect (Cursor.reach s + 1) s).trans ?_
  rw [hplace, ← hall, ← hu.state]
  rfl

end Filter

end CellScan
