/-
`Playing.lean` -- what a scan that succeeds says about the sources.

`Plays` follows a cursor whose steps all succeed up to its end, whatever its order and its
reach. A list that a scan returns has been played, and from what a stage has played one reads
back what is below it. A filter has played what its source has, less what is rejected
(`Filter.plays_of_place`). A merge that has played to the end has seen each child move to the
end without stepping back: so each child has played its entries in key order
(`Merge.inOrder_of_plays`), for any child that stands at an entry waits for its turn
(`Merge.Complete`).

A scan that fails is the other half. `Sweeps` says with which faults a seek and the steps
behind it may fail, and that they come to an end; to the faults of its children a merge adds
that one of them has stepped back, and a filter adds nothing.
-/
import CellScan.Proofs.Draining

set_option autoImplicit false

namespace CellScan

open CellScan.Action CellScan.Cursor CellScan.Entry
open List (Forall₂)
open scoped Linear

/-! ## Scans -/

namespace Cursor

variable {σ τ : Type} [Cursor σ] [Cursor τ] {s u : σ} {es fs : List Entry} {k n : Nat}
  {F : Fault → Prop} {fault : Fault} {range : Range} {families : FamilyFilter}

/-- Going on from the state all steps succeed, and the cursor stands at the entries one after
the other and then at none. -/
inductive Plays : σ → List Entry → Prop
  | done {s : σ} : top s = none → Plays s []
  | more {s t : σ} {e : Entry} {es : List Entry} : top s = some e → Runs next s () t →
      Plays t es → Plays s (e :: es)

namespace Plays

theorem head? (h : Plays s es) : top s = es.head? := by
  cases h with
  | done htop => exact htop
  | more htop _ _ => exact htop

/-- What is played by a cursor that does not lead back is in order. -/
theorem pairwise {r : Key → Key → Prop} (hr : ∀ {k k' k'' : Key}, r k k' → r k' k'' → r k k'')
    (h : Plays s es) (hs : Rises r s) : es.Pairwise fun a b => r a.1 b.1 := by
  induction h with
  | done _ => exact List.Pairwise.nil
  | @more s t e es htop hnext hrest ih =>
      have hsorted := ih (hs.of_reached (hnext.state ▸ Reached.here.next))
      refine List.pairwise_cons.mpr ⟨?_, hsorted⟩
      rcases es with _ | ⟨e', es⟩
      · exact fun _ hx => absurd hx List.not_mem_nil
      · have hfirst := hs .here hnext htop hrest.head?
        intro x hx
        rcases List.mem_cons.mp hx with rfl | hx
        · exact hfirst
        · exact hr hfirst ((List.pairwise_cons.mp hsorted).1 x hx)

end Plays

theorem plays_of_collect (h : (Scan.collect n s).result = .ok es) : Plays s es := by
  induction n generalizing s es with
  | zero => exact absurd h (by simp [Scan.collect])
  | succ n ih =>
      rcases htop : top s with _ | e
      · simp only [Scan.collect, htop, give_apply, Except.ok.injEq] at h
        exact h ▸ .done htop
      · simp only [Scan.collect, htop] at h
        obtain ⟨_, t, hnext, hrest, -⟩ := ok_of_bind h
        obtain ⟨fs, u, hcollect, hpure, -⟩ := ok_of_bind hrest
        obtain rfl : e :: fs = es := Except.ok.inj hpure
        exact .more htop hnext (ih hcollect.result)

/-- What a scan returns has been played behind a seek. -/
theorem plays_of_scan (h : (Scan.scan range families s).result = .ok es) :
    ∃ u, Runs (Cursor.seek range families) s () u ∧ Plays u es := by
  obtain ⟨_, u, hseek, hcollect, -⟩ := ok_of_bind h
  exact ⟨u, hseek, plays_of_collect hcollect⟩

theorem Drains.collect_fails (h : Drains F False k s) (hk : k < n)
    (hfail : (Scan.collect n s).result = .error fault) : F fault := by
  induction n generalizing s k with
  | zero => omega
  | succ n ih =>
      rcases htop : top s with _ | e
      · simp [Scan.collect, htop] at hfail
      · have htop' : top s ≠ none := by simp [htop]
        simp only [Scan.collect, htop] at hfail
        rcases error_of_bind hfail with ⟨hnext, -⟩ | ⟨_, t, hnext, hrest, -⟩
        · exact h.next_fails htop' hnext
        · obtain ⟨j, hj, hdrains⟩ := h.step htop' hnext
          rcases error_of_bind hrest with ⟨hcollect, -⟩ | ⟨_, _, -, hpure, -⟩
          · exact ih hdrains (by omega) hcollect
          · exact absurd hpure (by simp)

/-- A seek, and the steps behind it up to the end, fail only with faults that `F` holds of. Where
the cursor may fall, that is up to where it falls back to an earlier key. -/
structure Sweeps (F : Fault → Prop) (falls : Prop) (range : Range) (families : FamilyFilter)
    (s : σ) : Prop where
  seek_fails : ∀ {fault : Fault}, (Cursor.seek range families s).result = .error fault → F fault
  drains : ∀ {u : σ}, Runs (Cursor.seek range families) s () u → ∃ n, Drains F falls n u

theorem Sweeps.of_leads {falls : Prop} (hu : Runs (Cursor.seek range families) s () u)
    (hes : Leads u es) : Sweeps F falls range families s := by
  refine ⟨fun hfail => absurd (hu.result.symm.trans hfail) (by simp), fun hv => ?_⟩
  rw [← hv.state, hu.state]
  exact ⟨es.length, hes.drains⟩

theorem Sweeps.scan_fails (h : Sweeps F False range families s)
    (hfail : (Scan.scan range families s).result = .error fault) : F fault := by
  rcases error_of_bind hfail with ⟨hseek, -⟩ | ⟨_, u, hseek, hcollect, -⟩
  · exact h.seek_fails hseek
  · obtain ⟨n, hn⟩ := h.drains hseek
    obtain ⟨k, -, hk, hdrains⟩ := hn.trim
    exact hdrains.collect_fails (Nat.lt_succ_of_le hk) hcollect

/-- On from the state, one of the steps off an entry leads back to an earlier key. -/
inductive Falls : σ → Prop
  | here {s t : σ} {k k' : Key} : Runs next s () t → topKey s = some k → topKey t = some k' →
      k' < k → Falls s
  | later {s t : σ} : top s ≠ none → Runs next s () t → Falls t → Falls s

/-- What is played in key order has not fallen back. -/
theorem Plays.not_falls (h : Plays s es) (hasc : Ascending es) : ¬ Falls s := by
  intro hfalls
  induction hfalls generalizing es with
  | @here s t k k' hnext hk hk' hlt =>
      cases h with
      | done hnone => simp [topKey, hnone] at hk
      | @more _ u e es htop hnext' hrest =>
          obtain rfl : u = t := hnext'.state.symm.trans hnext.state
          rw [topKey, htop] at hk
          rw [topKey, hrest.head?] at hk'
          obtain ⟨x, hx, rfl⟩ := Option.map_eq_some_iff.mp hk'
          have hle := (ascending_cons.mp hasc).1 x (List.mem_of_mem_head? hx)
          exact absurd (Option.some.inj hk ▸ hlt) (not_lt_of_ge hle)
  | @later s t hsome hnext _ ih =>
      cases h with
      | done hnone => exact hsome hnone
      | @more _ u e es htop hnext' hrest =>
          obtain rfl : u = t := hnext'.state.symm.trans hnext.state
          exact ih hrest (ascending_cons.mp hasc).2

namespace Wraps

variable {put : σ → τ}

theorem plays (h : Wraps put) (hs : Plays (put s) es) : Plays s es := by
  generalize hv : put s = v at hs
  induction hs generalizing s with
  | done htop =>
      subst hv
      exact .done ((h.top s).symm.trans htop)
  | more htop hnext _ ih =>
      subst hv
      obtain ⟨t, ht, rfl⟩ := runs (h.next s) hnext
      exact .more ((h.top s).symm.trans htop) ht (ih rfl)

theorem sweeps (h : Wraps put) {falls : Prop} (hs : Sweeps F falls range families s) :
    Sweeps F falls range families (put s) := by
  refine ⟨?_, ?_⟩
  · intro fault hfail
    rw [h.seek] at hfail
    exact hs.seek_fails hfail
  · intro v hv
    obtain ⟨u, hu, rfl⟩ := runs (h.seek range families s) hv
    obtain ⟨n, hn⟩ := hs.drains hu
    exact ⟨n, h.drains hn⟩

end Wraps

end Cursor

/-! ## Filters -/

namespace Filter

variable {σ : Type} [Cursor σ] {f g : Filter σ} {p : Entry → Bool} {d es : List Entry} {n : Nat}
  {F : Fault → Prop} {range : Range} {families : FamilyFilter}

/-- A filter decides by one condition wherever calls and copies bring it. -/
theorem Decides.of_reached (h : f.Decides p) (hg : Reached f g) : g.Decides p := by
  induction hg with
  | here => exact h
  | seek range families _ ih => exact (kept_upon.place range families _ ⟨.here, ih⟩).2
  | next _ ih => exact (kept_upon.step _ ⟨.here, ih⟩).2
  | @copy g u env _ hcopy ih =>
      obtain ⟨t, -, rfl⟩ := exists_of_copy hcopy
      exact ih.copied t env

/-- What the source has played before it comes to the accepted entry was rejected. -/
theorem plays_of_passRejected (hdec : f.Decides p) (h : Runs (passRejected n) f () g)
    (hg : Plays g.source d) : ∃ d', Plays f.source d' ∧ d'.filter p = d.filter p := by
  induction n generalizing f with
  | zero => exact absurd h.result (by simp [passRejected])
  | succ n ih =>
      rcases htop : Cursor.top f.source with _ | e
      · have hstay := h.state
        rw [passRejected_of_none htop] at hstay
        obtain rfl : f = g := hstay
        exact ⟨d, hg, rfl⟩
      · have hloop := h.of_eq (passRejected_of_some htop n).symm
        obtain ⟨accepted, f₁, hdecide, hrest, hstate⟩ := ok_of_bind hloop.result
        obtain ⟨f₁', hdecide', hsource, hdec'⟩ := decideOn_runs hdec e
        obtain rfl : f₁' = f₁ := hdecide'.state.symm.trans hdecide.state
        obtain rfl : p e = accepted := Except.ok.inj (hdecide'.result.symm.trans hdecide.result)
        have hstop := hloop.state.symm.trans hstate
        by_cases hp : p e = true
        · -- accepted, and the source stays
          rw [if_pos hp] at hstop
          obtain rfl : g = f₁' := hstop
          exact ⟨d, hsource ▸ hg, rfl⟩
        · rw [if_neg hp] at hrest hstop
          obtain ⟨_, f₂, hmove, hrest', hstate'⟩ := ok_of_bind hrest
          have hmoved : Runs Cursor.next f.source () f₂.source := by
            rw [← hmove.state, ← hsource]
            exact runs_of_result hmove.result
          have hdec₂ : f₂.Decides p := hmove.state ▸ hdec'
          obtain ⟨d', hd', hfilter⟩ := ih hdec₂ (by
            rw [hstop, hstate']
            exact runs_of_result hrest')
          refine ⟨e :: d', .more htop hmoved hd', ?_⟩
          rw [List.filter_cons_of_neg hp, hfilter]

theorem plays_of_settle (hdec : f.Decides p) (h : Runs settle f () g) (hg : Plays g.source d) :
    ∃ d', Plays f.source d' ∧ d'.filter p = d.filter p := plays_of_passRejected hdec h hg

theorem decides_of_settle (hdec : f.Decides p) (h : Runs settle f () g) :
    g.Decides p ∧ ∀ e ∈ Cursor.top g, p e = true := by
  rw [← h.state]
  exact ⟨(kept_upon.settle f ⟨.here, hdec⟩).2, meets_of_settle hdec h.result⟩

/-- A filter that stands at what it accepts plays what its source does, less what is rejected. -/
theorem plays (hdec : f.Decides p) (htop : ∀ e ∈ Cursor.top f, p e = true) (h : Plays f es) :
    ∃ d, Plays f.source d ∧ es = d.filter p := by
  induction h with
  | done hnone => exact ⟨[], .done hnone, rfl⟩
  | @more f g e es hsome hnext _ ih =>
      obtain ⟨u, hmove, hsettle⟩ := step_of_runs hnext
      have hdec' : { f with source := u }.Decides p := hdec
      obtain ⟨hdecg, htopg⟩ := decides_of_settle hdec' hsettle
      obtain ⟨d, hd, rfl⟩ := ih hdecg htopg
      obtain ⟨d', hd', hfilter⟩ := plays_of_settle hdec' hsettle hd
      refine ⟨e :: d', .more hsome hmove hd', ?_⟩
      rw [List.filter_cons_of_pos (htop e hsome), hfilter]

theorem plays_of_place (hdec : f.Decides p) (h : Runs (place range families) f () g)
    (hg : Plays g es) :
    ∃ u d, Runs (Cursor.seek range families) f.source () u ∧ Plays u d ∧ es = d.filter p := by
  obtain ⟨u, hseek, hsettle⟩ := place_of_runs h
  have hdec' : { f with source := u }.Decides p := hdec
  obtain ⟨hdecg, htopg⟩ := decides_of_settle hdec' hsettle
  obtain ⟨d, hd, rfl⟩ := plays hdecg htopg hg
  obtain ⟨d', hd', hfilter⟩ := plays_of_settle hdec' hsettle hd
  exact ⟨u, d', hseek, hd', hfilter.symm⟩

theorem sweeps (h : Sweeps F False range families f.source) :
    Sweeps F False range families f := by
  refine ⟨?_, ?_⟩
  · intro fault hfail
    rw [show Cursor.seek range families f = _ from place_apply range families f] at hfail
    rcases error_of_bind hfail with ⟨hrecord, -⟩ | ⟨_, f₀, hrecord, hrest, -⟩
    · exact absurd hrecord (by simp [record])
    · obtain rfl : f = f₀ := hrecord.state
      rcases error_of_bind hrest with ⟨hseek, -⟩ | ⟨_, f₁, hseek, hsettle, -⟩
      · exact h.seek_fails hseek
      · obtain rfl := hseek.state
        obtain ⟨n, hn⟩ := h.drains (runs_of_result hseek.result)
        exact settle_fails (f := { f with source := _ }) hn hsettle
  · intro g hg
    obtain ⟨u, hseek, hsettle⟩ := place_of_runs hg
    obtain ⟨n, hn⟩ := h.drains hseek
    obtain ⟨j, -, hj⟩ := drains_of_settle (f := { f with source := u }) hn hsettle
    obtain ⟨i, -, hi⟩ := drains hj
    exact ⟨i, hi⟩

end Filter

/-! ## Merges -/

namespace Merge

variable {σ : Type} [Cursor σ] {m m₁ m' : Merge σ} {out : List Nat} {key : Key} {child c n : Nat}
  {s t : σ} {d es : List Entry} {head : Head} {queue : List Head} {F : Fault → Prop}
  {range : Range} {families : FamilyFilter}

/-! ### Who waits -/

/-- All children that stand at an entry wait for their turn, but for some. -/
def Complete (out : List Nat) (m : Merge σ) : Prop :=
  ∀ ⦃i : Nat⦄ ⦃c : σ⦄, m.children[i]? = some c → topKey c ≠ none → i ∉ out → Waits m i

theorem complete_queueOf (h : m.queue = queueOf m.children) : Complete [] m := by
  intro i c hc htop _
  obtain ⟨k, hk⟩ := Option.ne_none_iff_exists'.mp htop
  refine ⟨⟨k, i⟩, ?_, rfl⟩
  rw [h, queueOf, mem_insertAll_iff List.Pairwise.nil, List.mem_filterMap]
  refine Or.inl ⟨(c, i), List.mk_mem_zipIdx_iff_getElem?.mpr hc, ?_⟩
  simp only [hk, Option.map_some]

theorem Complete.tail (h : Complete out m) (hq : m.queue = head :: queue) :
    Complete (head.child :: out) { m with queue } := by
  intro i c hc htop hout
  rw [List.mem_cons, not_or] at hout
  obtain ⟨x, hx, hchild⟩ := h hc htop hout.2
  rw [hq] at hx
  rcases List.mem_cons.mp hx with rfl | hx
  · exact absurd hchild.symm hout.1
  · exact ⟨x, hx, hchild⟩

/-- A child that has moved waits again unless it is at its end. -/
theorem Advanced.complete (h : Advanced child key m m' s t) (hm : Complete (child :: out) m)
    (hsorted : SortedList.Sorted id m.queue) : Complete out m' := by
  have hkeep : ∀ x ∈ m.queue, x ∈ m'.queue := by
    intro x hx
    rcases h.queue with ⟨-, hq⟩ | ⟨k, -, -, hq⟩
    · rwa [hq]
    · rw [hq]
      exact (mem_insert_iff hsorted).mpr (Or.inr hx)
  intro i c hc htop hout
  rw [h.children] at hc
  by_cases hi : child = i
  · subst hi
    have hlen := (List.getElem?_eq_some_iff.mp hc).1
    rw [List.length_set] at hlen
    rw [List.getElem?_set_self hlen, Option.some.injEq] at hc
    subst hc
    rcases h.queue with ⟨hnone, -⟩ | ⟨k, -, -, hq⟩
    · exact absurd hnone htop
    · refine ⟨⟨k, child⟩, ?_, rfl⟩
      rw [hq]
      exact (mem_insert_iff hsorted).mpr (Or.inl rfl)
  · rw [List.getElem?_set_ne hi] at hc
    have haway : i ∉ child :: out := by
      rw [List.mem_cons, not_or]
      exact ⟨fun h' => hi h'.symm, hout⟩
    obtain ⟨x, hx, hchild⟩ := hm hc htop haway
    exact ⟨x, hkeep x hx, hchild⟩

theorem Passes.complete (h : Passes key m m') (hf : Faithful [c] m) (hm : Complete [c] m) :
    Complete [c] m' := by
  induction h with
  | done _ => exact hm
  | @more m m₁ m' head queue s t hq _ hadv _ ih =>
      have htail := hf.tail hq
      have haway : head.child ∉ [c] := hf.away head (by rw [hq]; exact List.mem_cons_self)
      exact ih (hadv.faithful htail haway) (hadv.complete (hm.tail hq) htail.sorted)

theorem Stepped.faithful (h : Stepped m m₁ m' head queue s t) : Faithful [] m' :=
  h.advanced.faithful h.away List.not_mem_nil

theorem Stepped.complete (h : Stepped m m₁ m' head queue s t) (hf : Faithful [] m)
    (hm : Complete [] m) : Complete [] m' := by
  refine h.advanced.complete ?_ h.away.sorted
  have hpeers := h.peers
  split at hpeers
  · exact hpeers.complete (hf.tail h.front) (hm.tail h.front)
  · rw [hpeers]
    exact hm.tail h.front

/-! ### What the children have played -/

/-- All the way to its end the cursor plays entries in key order. -/
def InOrder (s : σ) : Prop := ∃ d, Plays s d ∧ Ascending d

theorem plays_of_passRepeats (h : Runs (passRepeats key n) s () t) (ht : Plays t d) :
    ∃ repeats, (∀ e ∈ repeats, e.1 = key) ∧ Plays s (repeats ++ d) := by
  induction n generalizing s with
  | zero => exact absurd h.result (by simp [passRepeats])
  | succ n ih =>
      by_cases hkey : topKey s = some key
      · have hloop : Runs (Cursor.next >>= fun _ => passRepeats key n) s () t :=
          h.of_eq (by simp only [passRepeats, if_pos hkey])
        obtain ⟨_, u, hnext, hrest, hstate⟩ := ok_of_bind hloop.result
        have hpass := runs_of_result hrest
        rw [← hstate, hloop.state] at hpass
        obtain ⟨repeats, hrepeats, hplays⟩ := ih hpass
        obtain ⟨e, he, hek⟩ := Option.map_eq_some_iff.mp hkey
        exact ⟨e :: repeats, List.forall_mem_cons.mpr ⟨hek, hrepeats⟩, .more he hnext hplays⟩
      · have hstay := h.state
        simp only [passRepeats, if_neg hkey] at hstay
        obtain rfl : s = t := hstay
        exact ⟨[], List.forall_mem_nil _, ht⟩

/-- To leave a key is to play its entries. -/
theorem plays_of_leave {dedupe : Bool} (hkey : topKey s = some key)
    (h : Runs (leave dedupe key) s () t) (ht : Plays t d) :
    ∃ repeats, (∀ e ∈ repeats, e.1 = key) ∧ Plays s (repeats ++ d) := by
  obtain ⟨e, he, hek⟩ := Option.map_eq_some_iff.mp hkey
  by_cases hd : dedupe = true
  · have hboth : Runs (Cursor.next >>= fun _ => passRepeats key (Cursor.reach s + 1)) s () t :=
      h.of_eq (by simp only [leave, if_pos hd])
    obtain ⟨_, u, hnext, hrest, hstate⟩ := ok_of_bind hboth.result
    have hpass := runs_of_result hrest
    rw [← hstate, hboth.state] at hpass
    obtain ⟨repeats, hrepeats, hplays⟩ := plays_of_passRepeats hpass ht
    exact ⟨e :: repeats, List.forall_mem_cons.mpr ⟨hek, hrepeats⟩, .more he hnext hplays⟩
  · have hnext : Runs Cursor.next s () t := h.of_eq (by simp only [leave, if_neg hd])
    exact ⟨[e], List.forall_mem_singleton.mpr hek, .more he hnext ht⟩

/-- Where all children are in order behind a move, the one that has moved was so before: it
has not come to an earlier key. -/
theorem Advanced.inOrder (h : Advanced child key m m' s t) (hall : ∀ c ∈ m'.children, InOrder c) :
    ∀ c ∈ m.children, InOrder c := by
  have hlen : child < m.children.length := (List.getElem?_eq_some_iff.mp h.stood).1
  intro c hc
  obtain ⟨i, hi⟩ := List.mem_iff_getElem?.mp hc
  by_cases hchild : child = i
  · subst hchild
    obtain rfl : s = c := Option.some.inj (h.stood.symm.trans hi)
    obtain ⟨d, hd, hasc⟩ : InOrder t := by
      refine hall t ?_
      rw [h.children]
      exact List.mem_of_getElem? (List.getElem?_set_self hlen)
    obtain ⟨repeats, hrepeats, hplays⟩ := plays_of_leave h.leaves h.moved hd
    refine ⟨_, hplays, List.pairwise_append.mpr ⟨?_, hasc, ?_⟩⟩
    · refine List.pairwise_of_forall_mem_list fun a ha b hb => ?_
      rw [hrepeats a ha, hrepeats b hb]
    · -- the first entry that is left does not lie before the key, nor do the others
      intro a ha b hb
      rw [hrepeats a ha]
      rcases d with _ | ⟨x, d⟩
      · exact absurd hb List.not_mem_nil
      · have htop : topKey t = some x.1 := congrArg (Option.map Prod.fst) hd.head?
        have hle : key ≤ x.1 := by
          rcases h.queue with ⟨hnone, -⟩ | ⟨k, hk, hle, -⟩
          · exact absurd (hnone.symm.trans htop) (by simp)
          · rwa [Option.some.inj (hk.symm.trans htop)] at hle
        rcases List.mem_cons.mp hb with rfl | hb
        · exact hle
        · exact le_trans hle ((ascending_cons.mp hasc).1 b hb)
  · refine hall c ?_
    rw [h.children]
    refine List.mem_of_getElem? (i := i) ?_
    rwa [List.getElem?_set_ne hchild]

theorem Passes.inOrder (h : Passes key m m') (hall : ∀ c ∈ m'.children, InOrder c) :
    ∀ c ∈ m.children, InOrder c := by
  induction h with
  | done _ => exact hall
  | more _ _ hadv _ ih => exact hadv.inOrder (ih hall)

theorem Stepped.inOrder (h : Stepped m m₁ m' head queue s t)
    (hall : ∀ c ∈ m'.children, InOrder c) : ∀ c ∈ m.children, InOrder c := by
  have hbefore := h.advanced.inOrder hall
  have hpeers := h.peers
  split at hpeers
  · exact hpeers.inOrder hbefore
  · rw [hpeers] at hbefore
    exact hbefore

/-- A merge that comes to its end without a failure has brought all its children to theirs,
and none of them has stepped back. -/
theorem inOrder_of_plays (hf : Faithful [] m) (hc : Complete [] m) (h : Plays m es) :
    ∀ c ∈ m.children, InOrder c := by
  induction h with
  | @done m hnone =>
      -- nobody waits, so every child stands at its end
      intro c hmem
      obtain ⟨i, hi⟩ := List.mem_iff_getElem?.mp hmem
      refine ⟨[], .done ?_, List.Pairwise.nil⟩
      by_contra htop
      have hkey : topKey c ≠ none := fun hnone => htop (Option.map_eq_none_iff.mp hnone)
      obtain ⟨x, hx, -⟩ := hc hi hkey List.not_mem_nil
      rw [hf.top_eq_none_iff.mp hnone] at hx
      exact List.not_mem_nil hx
  | more _ hnext _ ih =>
      obtain ⟨m₁, head, queue, s, t, hstepped⟩ := stepped_of_runs hf hnext
      exact hstepped.inOrder (ih hstepped.faithful (hstepped.complete hf hc))

theorem inOrder_of_place (h : Runs (place range families) m () m') (hplays : Plays m' es) :
    ∀ c ∈ m.children, ∃ u d, Runs (Cursor.seek range families) c () u ∧ Plays u d
      ∧ Ascending d := by
  obtain ⟨hseeks, hqueue, -⟩ := placed_of_runs h
  have hall := inOrder_of_plays (faithful_queueOf hqueue) (complete_queueOf hqueue) hplays
  intro c hc
  obtain ⟨i, hi⟩ := List.mem_iff_getElem?.mp hc
  obtain ⟨u, hu, hseek⟩ := Parallel.exists_right hseeks hi
  obtain ⟨d, hd, hasc⟩ := hall u (List.mem_of_getElem? hu)
  exact ⟨u, d, hseek, hd, hasc⟩

theorem sweeps {falls : Prop} (h : ∀ c ∈ m.children, Sweeps F falls range families c) :
    Sweeps (fun fault => F fault ∨ SteppedBack fault) False range families m := by
  refine ⟨?_, ?_⟩
  · intro fault hfail
    obtain ⟨c, hc, hseek⟩ := place_fails hfail
    exact Or.inl ((h c hc).seek_fails hseek)
  · intro m' hm'
    obtain ⟨hseeks, hqueue, -⟩ := placed_of_runs hm'
    obtain ⟨ns, hns⟩ : ∃ ns, Forall₂ (fun u n => Drains F falls n u) m'.children ns := by
      refine Parallel.exists_of_forall fun u hu => ?_
      obtain ⟨i, hi⟩ := List.mem_iff_getElem?.mp hu
      obtain ⟨c, hc, hseek⟩ := Parallel.exists_left hseeks hi
      exact (h c (List.mem_of_getElem? hc)).drains hseek
    obtain ⟨k, -, hk⟩ := drains (faithful_queueOf hqueue) hns.flip
    exact ⟨k, hk⟩

end Merge

end CellScan
