/-
`Ordered.lean` -- scans that come out in order, or fail.

Without an intersection on top a scan is a filter over the merge of its sources, or over a
source alone that needs no merge. Whatever the sources are, a merge puts their entries in
order as long as none of them steps back, and fails as soon as one does: so what a scan
through a merge returns is in key order, and a source that falls back behind a seek makes the
scan fail (`ScanSpec.ordered_or_fails`). Nothing checks a source that is alone. What is
returned then is what it has played, as far as the predicates accept it, in its own order
(`ScanSpec.lone_out_of_order`).
-/
import CellScan.Proofs.Failures
import CellScan.Proofs.Hidden
import CellScan.Proofs.Playing

set_option autoImplicit false

namespace CellScan

open CellScan.Action CellScan.Cursor CellScan.Entry
open scoped Linear

theorem Merge.SteppedBack.code {fault : Fault} (h : SteppedBack fault) :
    fault.code = .failure .orderingViolation := by
  obtain ⟨child, k, k', -, rfl⟩ := h
  rfl

namespace ScanSpec

variable {σ : Type} [Cursor σ] {spec : ScanSpec} {sources : List σ} {env : Environment}
  {t₀ t : Stack σ 3} {f : Filter (Layer σ)} {range : Range} {families : FamilyFilter}
  {es : List Entry} {F : Fault → Prop} {fault : Fault}

/-! ## What is built -/

/-- The stack without an intersection. -/
def stackUpon (f : Filter (Layer σ)) : Stack σ 3 := Layer.bare (Layer.filter f)

theorem wraps_stackUpon : Wraps (stackUpon : Filter (Layer σ) → Stack σ 3) :=
  ⟨fun _ _ _ => rfl, fun _ => rfl, fun _ => rfl, fun env f => by
    show ((Cursor.copy env f).map Layer.filter).map Layer.bare = (Cursor.copy env f).map stackUpon
    rcases Cursor.copy env f with fault | g
    · rfl
    · rfl, fun _ => rfl⟩

omit [Cursor σ] in
theorem sources_stackUpon (f : Filter (Layer σ)) :
    Stack.sources 3 (stackUpon f) = f.source.cursors := by
  calc Stack.sources 3 (stackUpon f)
      = ([f.source] : List (Stack σ 1)).flatMap (Stack.sources 1) ++ [] := rfl
    _ = Stack.sources 1 f.source ++ [] ++ [] := rfl
    _ = Stack.sources 1 f.source := by rw [List.append_nil, List.append_nil]
    _ = f.source.cursors := List.flatMap_singleton' f.source.cursors

/-- Without an intersection calls and copies leave the stack that is built a filter over what
they make of the sources in one sequence. -/
theorem filter_of_build (hnone : spec.intersection = none)
    (hbuild : (spec.build sources env).1 = .ok t₀) (ht : Reached t₀ t) :
    ∃ ps f, spec.predicates env = .ok ps ∧ t = stackUpon f
      ∧ f.Decides (Predicate.meets ps) ∧ Reached (spec.merged sources env) f.source := by
  rcases hps : spec.predicates env with fault | ps
  · rw [build_of_fault hps] at hbuild
    exact Except.noConfusion rfl rfl (heq_of_eq hbuild)
  · rw [build_of_predicates hps, intersected, hnone] at hbuild
    obtain rfl : stackUpon (Filter.ofPredicates (spec.merged sources env) ps env) = t₀ :=
      Except.ok.inj hbuild
    obtain ⟨f, hf, rfl⟩ := wraps_stackUpon.reached ht
    have hdec : (Filter.ofPredicates (spec.merged sources env) ps env).Decides (Predicate.meets ps) :=
      Filter.decides_ofPredicates (sound_predicates hps) env
    exact ⟨ps, f, rfl, rfl, hdec.of_reached hf, Filter.reached_source hf⟩

theorem merged_of_merge (h : sources.length ≠ 1 ∨ spec.dedupe = true) :
    spec.merged sources env
      = .merge (Merge.ofChildren sources spec.dedupe (some env.account)) := by
  unfold merged
  split
  · next source hdedupe =>
      rcases h with hlength | hd
      · exact absurd rfl hlength
      · exact absurd (hdedupe.symm.trans hd) (by simp)
  · rfl

theorem merged_of_lone (hlength : sources.length = 1) (hdedupe : spec.dedupe = false)
    (env : Environment) : ∃ s, sources = [s] ∧ spec.merged sources env = .bare s := by
  obtain ⟨s, rfl⟩ := List.length_eq_one_iff.mp hlength
  refine ⟨s, rfl, ?_⟩
  simp only [merged, hdedupe]

/-! ## What a scan comes to -/

/-- What the filter returns its source has played. -/
theorem plays_of_scan_filter {p : Entry → Bool} (hdec : f.Decides p)
    (h : (Scan.scan range families (stackUpon f)).result = .ok es) :
    ∃ u d, Runs (Cursor.seek range families) f.source () u ∧ Plays u d ∧ es = d.filter p := by
  obtain ⟨v, hseek, hplays⟩ := plays_of_scan h
  obtain ⟨g, hplace, rfl⟩ := Wraps.runs (wraps_stackUpon.seek range families f) hseek
  exact Filter.plays_of_place hdec hplace (wraps_stackUpon.plays hplays)

theorem scan_filter_fails (hsweeps : Sweeps F False range families f.source)
    (h : (Scan.scan range families (stackUpon f)).result = .error fault) : F fault :=
  (wraps_stackUpon.sweeps (Filter.sweeps hsweeps)).scan_fails h

section Merged

variable {m : Merge σ} {p : Entry → Bool}

theorem plays_of_scan_merge (hf : f.source = .merge m) (hdec : f.Decides p)
    (h : (Scan.scan range families (stackUpon f)).result = .ok es) :
    ∃ m' d, Runs (Cursor.seek range families) m () m' ∧ Plays m' d ∧ es = d.filter p := by
  obtain ⟨u, d, hseek, hd, rfl⟩ := plays_of_scan_filter hdec h
  rw [hf] at hseek
  obtain ⟨m', hplace, rfl⟩ := Wraps.runs (Layer.wraps_merge.seek _ _ _) hseek
  exact ⟨m', d, hplace, Layer.wraps_merge.plays hd, rfl⟩

/-- Had the scan come to an end, all sources would have been in order. -/
theorem scan_merge_fails_of_falls (hf : f.source = .merge m) (hdec : f.Decides p) {s u : σ}
    (hs : s ∈ m.children) (hu : Runs (Cursor.seek range families) s () u) (hfalls : Falls u) :
    ∃ fault, (Scan.scan range families (stackUpon f)).result = .error fault := by
  rcases hres : (Scan.scan range families (stackUpon f)).result with fault | es
  · exact ⟨fault, rfl⟩
  · obtain ⟨m', d, hplace, hd, -⟩ := plays_of_scan_merge hf hdec hres
    obtain ⟨v, d', hv, hplays, hasc⟩ := Merge.inOrder_of_place hplace hd s hs
    obtain rfl : u = v := hu.state.symm.trans hv.state
    exact absurd hfalls (hplays.not_falls hasc)

theorem scan_merge_fails (hf : f.source = .merge m)
    (hsweeps : ∀ s ∈ m.children, Sweeps F True range families s)
    (h : (Scan.scan range families (stackUpon f)).result = .error fault) :
    F fault ∨ Merge.SteppedBack fault := by
  have hmerged := Layer.wraps_merge.sweeps (Merge.sweeps hsweeps)
  rw [← hf] at hmerged
  exact scan_filter_fails hmerged h

theorem pairwise_of_scan_merge (hf : f.source = .merge m) (hdec : f.Decides p)
    {account : Option Account} (hm : Reached (Merge.ofChildren sources spec.dedupe account) m)
    (h : (Scan.scan range families (stackUpon f)).result = .ok es) :
    es.Pairwise fun a b => Key.Follows spec.dedupe a.1 b.1 := by
  obtain ⟨m', d, hplace, hd, rfl⟩ := plays_of_scan_merge hf hdec h
  have hreached : Reached (Merge.ofChildren sources spec.dedupe account) m' :=
    hplace.state ▸ hm.seek range families
  have hrises := (Merge.rises sources spec.dedupe account).of_reached hreached
  have hpairwise := hd.pairwise (r := Key.Follows spec.dedupe) Key.Follows.trans hrises
  exact hpairwise.sublist List.filter_sublist

end Merged

section Lone

variable {s : σ} {p : Entry → Bool}

theorem plays_of_scan_lone (hf : f.source = .bare s) (hdec : f.Decides p)
    (h : (Scan.scan range families (stackUpon f)).result = .ok es) :
    ∃ u d, Runs (Cursor.seek range families) s () u ∧ Plays u d ∧ es = d.filter p := by
  obtain ⟨u, d, hseek, hd, rfl⟩ := plays_of_scan_filter hdec h
  rw [hf] at hseek
  obtain ⟨v, hv, rfl⟩ := Wraps.runs (Layer.wraps_bare.seek _ _ _) hseek
  exact ⟨v, d, hv, Layer.wraps_bare.plays hd, rfl⟩

theorem scan_lone_fails (hf : f.source = .bare s) (hsweeps : Sweeps F False range families s)
    (h : (Scan.scan range families (stackUpon f)).result = .error fault) : F fault := by
  have hlone := Layer.wraps_bare.sweeps hsweeps
  rw [← hf] at hlone
  exact scan_filter_fails hlone h

end Lone

/-- A scan without an intersection is in order or fails, if it goes through a merge: what it
returns is in key order, without repeats if those are passed over; a source that falls back
behind the seek makes it fail; and it fails with an ordering violation, unless one of the
sources fails before it falls back. A source alone, with repeats, is not checked, and what a
scan returns is what the source has played and the predicates accept. -/
theorem ordered_or_fails (spec : ScanSpec) (sources : List σ) (env : Environment)
    (hnone : spec.intersection = none) (hbuild : (spec.build sources env).1 = .ok t₀)
    (ht : Reached t₀ t) (range : Range) (families : FamilyFilter) :
    (sources.length ≠ 1 ∨ spec.dedupe = true →
      (∀ es, (Scan.scan range families t).result = .ok es →
        es.Pairwise fun a b => Key.Follows spec.dedupe a.1 b.1)
      ∧ ((∃ s ∈ Stack.sources 3 t, ∃ u, Runs (Cursor.seek range families) s () u ∧ Falls u) →
        ∃ fault, (Scan.scan range families t).result = .error fault)
      ∧ ∀ F, (∀ s ∈ Stack.sources 3 t, Sweeps F True range families s) →
        ∀ fault, (Scan.scan range families t).result = .error fault →
          F fault ∨ (Merge.SteppedBack fault ∧ fault.code = .failure .orderingViolation))
    ∧ (sources.length = 1 → spec.dedupe = false →
      ∃ s ps, Stack.sources 3 t = [s] ∧ spec.predicates env = .ok ps
        ∧ (∀ es, (Scan.scan range families t).result = .ok es →
          ∃ u d, Runs (Cursor.seek range families) s () u ∧ Plays u d
            ∧ es = d.filter (Predicate.meets ps))
        ∧ ∀ F, Sweeps F False range families s →
          ∀ fault, (Scan.scan range families t).result = .error fault → F fault) := by
  obtain ⟨ps, f, hps, rfl, hdec, hsource⟩ := filter_of_build hnone hbuild ht
  rw [sources_stackUpon]
  refine ⟨?_, ?_⟩
  · intro hmerge
    rw [merged_of_merge hmerge] at hsource
    obtain ⟨m, hm, hf⟩ := Layer.wraps_merge.reached hsource
    rw [hf]
    refine ⟨fun es hes => pairwise_of_scan_merge hf hdec hm hes, ?_, ?_⟩
    · rintro ⟨s, hs, u, hu, hfalls⟩
      exact scan_merge_fails_of_falls hf hdec hs hu hfalls
    · intro F hsweeps fault hfail
      exact (scan_merge_fails hf hsweeps hfail).imp_right fun hback => ⟨hback, hback.code⟩
  · intro hlength hdedupe
    obtain ⟨s₀, rfl, hmerged⟩ := merged_of_lone hlength hdedupe env
    rw [hmerged] at hsource
    obtain ⟨s, -, hf⟩ := Layer.wraps_bare.reached hsource
    rw [hf]
    exact ⟨s, ps, rfl, hps, fun es hes => plays_of_scan_lone hf hdec hes,
      fun F hsweeps fault hfail => scan_lone_fails hf hsweeps hfail⟩

/-! ### A tape that is played backwards -/

/-- A tape with two cells, the later one first. -/
def backwards : Tape := Tape.ofEntries [(Key.ofRow [98], []), (Key.ofRow [97], [])] none true

/-- A tape with one cell. -/
def single : Tape := Tape.ofEntries [(Key.ofRow [97], [])] none true

/-- With another tape beside it, it makes the scan fail. -/
theorem fails_backwards :
    ∃ t fault, (standard.build [backwards, single] (Environment.ofAccount 0)).1 = .ok t
      ∧ (Scan.scan Range.all FamilyFilter.all t).result = .error fault
      ∧ fault.code = .failure .orderingViolation := by
  obtain ⟨t, hbuild, hsources⟩ : ∃ t,
      (standard.build [backwards, single] (Environment.ofAccount 0)).1 = .ok t
        ∧ Stack.sources 3 t = [backwards, single] := ⟨_, rfl, rfl⟩
  have hscan := (ordered_or_fails standard [backwards, single] (Environment.ofAccount 0) rfl hbuild
    .here Range.all FamilyFilter.all).1 (Or.inl (by decide))
  rw [hsources] at hscan
  obtain ⟨-, hback, hcause⟩ := hscan
  -- the tape is placed at its first cell, and the step off that cell falls back
  have hseek : Runs (Cursor.seek Range.all FamilyFilter.all) backwards ()
      { backwards with position := some 0 } := ⟨[], rfl⟩
  have hnext : Runs Cursor.next { backwards with position := some 0 } ()
      { backwards with position := some 1 } := ⟨[], rfl⟩
  have hlt : Key.ofRow [97] < Key.ofRow [98] := by decide +kernel
  obtain ⟨fault, hfail⟩ := hback
    ⟨backwards, List.mem_cons_self, _, hseek, .here hnext rfl rfl hlt⟩
  have hfirst : Sweeps (fun _ => False) True Range.all FamilyFilter.all backwards := by
    refine ⟨fun hfail => absurd (hseek.result.symm.trans hfail) (by simp), fun hu => ⟨1, ?_⟩⟩
    rw [← hu.state, hseek.state]
    exact .fallen trivial hnext rfl rfl hlt (by decide) (by decide)
  have hsecond : Sweeps (fun _ => False) True Range.all FamilyFilter.all single := by
    obtain ⟨u, hu, hes⟩ := (Tape.serves (t := single) (List.pairwise_singleton _ _) rfl rfl).lists.seek
      .here Range.all FamilyFilter.all
    exact .of_leads hu hes
  refine ⟨t, fault, hbuild, hfail, ?_⟩
  refine ((hcause (fun _ => False) ?_ fault hfail).resolve_left id).2
  exact List.forall_mem_cons.mpr ⟨hfirst, List.forall_mem_singleton.mpr hsecond⟩

/-- Alone, it is returned as it is played. -/
theorem lone_out_of_order :
    standard.intersection = none
      ∧ ∃ t, (standard.build [backwards] (Environment.ofAccount 0)).1 = .ok t
        ∧ (Scan.scan Range.all FamilyFilter.all t).result
          = .ok [(Key.ofRow [98], []), (Key.ofRow [97], [])]
        ∧ Key.ofRow [97] < Key.ofRow [98] := by
  refine ⟨rfl, _, rfl, ?_, by decide +kernel⟩
  rfl

end ScanSpec

end CellScan
