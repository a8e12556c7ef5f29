/-
`Batches.lean` -- a batch reads what the stack itself reads.

A batch gives each range a copy of its own. A copy is one of the states that calls and copies
bring a stack to, and a seek brings all of those together (`Copying.lean`), so a scan of the
copy comes to what a scan of the stack itself comes to, wherever either of them stands
(`batch_eq`).

Without intersections a stack serves one sequence of entries in key order
(`Stack.exists_serves`), and keys that do not descend cut that sequence into pieces
(`Range.pieces?`): entries of one key lie on one side of every cut, so the scans of the pieces
put together are the scan of all of it (`Range.exists_pieces`).
-/
import CellScan.Proofs.Copying
import CellScan.Proofs.Stack
import CellScan.Scan

set_option autoImplicit false

namespace CellScan

open CellScan.Action CellScan.Cursor CellScan.Entry
open List (Forall₂)
open scoped Linear

/-! ## Batches -/

namespace Scan

variable {σ : Type} [Cursor σ] {A R : σ → σ → Prop} {s t u : σ}

/-- What comes of scans one after the other is what comes of each, up to the first failure. -/
theorem scanEach_eq (families : FamilyFilter) (copies : List (σ × Range)) :
    (scanEach families copies).1
      = copies.mapM fun copy => (scan copy.2 families copy.1).result := by
  induction copies with
  | nil => rfl
  | cons copy rest ih =>
      obtain ⟨s, range⟩ := copy
      rw [List.mapM_cons, ← ih, scanEach]
      rcases scan range families s with ⟨fault | es, _, _⟩
      · rfl
      · rcases scanEach families rest with ⟨fault | others, _⟩ <;> rfl

/-- A batch is what the scans of copies come to, one after the other. -/
theorem batch_of_copy {env : Environment} {c : σ} (h : Cursor.copy env s = .ok c)
    (ranges : List Range) (families : FamilyFilter) :
    (batch env ranges families s).1
      = (ranges.mapM fun range => (scan range families c).result).map List.flatten := by
  have hcopies : ranges.mapM (fun range => (Cursor.copy env s).map (·, range))
      = .ok (ranges.map fun range => (c, range)) := by
    refine Parallel.mapM_ok ?_
    rw [List.forall₂_map_right_iff, List.forall₂_same]
    intro range _
    rw [h]
    rfl
  have hscans : (scanEach families (ranges.map fun range => (c, range))).1
      = ranges.mapM fun range => (scan range families c).result := by
    rw [scanEach_eq, List.mapM_map]
    rfl
  rw [← hscans]
  simp only [batch, hcopies]
  rcases scanEach families (ranges.map fun range => (c, range)) with ⟨fault | lists, _⟩ <;> rfl

/-- Wherever calls and copies have brought a cursor, it is scanned alike. -/
theorem scan_eq (h : Joining Excuses.none A R) (hs : Coherent A s) (ht : Reached s t)
    (hu : Reached s u) (range : Range) (families : FamilyFilter) :
    (scan range families t).result = (scan range families u).result := by
  rcases (h.scan (hs.apart ht hu) range families).result with heq | ⟨_, hnone, -⟩ | ⟨_, hnone, -⟩
  · exact heq
  · exact hnone.elim
  · exact hnone.elim

/-- A batch is what scans of the cursor itself come to. -/
theorem batch_eq (h : Joining Excuses.none A R) (hs : Coherent A s) (ht : Reached s t)
    (hu : Reached s u) (env : Environment) (ranges : List Range) (families : FamilyFilter) :
    (batch env ranges families t).1
      = (ranges.mapM fun range => (scan range families u).result).map List.flatten := by
  obtain ⟨c, hc, -⟩ := hs.copy ht env
  have hscans : (fun range => (scan range families c).result)
      = fun range => (scan range families u).result :=
    funext fun range => scan_eq h hs (ht.copy env hc) hu range families
  rw [batch_of_copy hc, hscans]

end Scan

/-! ## Cutting a range -/

namespace Range

/-- The range from a start on, if there is one. -/
def onward (start : Option Key) : Range := ⟨start, true, none, true, by simp⟩

/-- The pieces that keys cut the range from a start into: one up to each key, and the rest from
the last key on. If a key lies before the one it follows, the two that are the wrong way round. -/
def pieces? : Option Key → List Key → Except (Key × Key) (List Range)
  | start, [] => (ofKeys? start true none true).map ([·])
  | start, k :: ks => do
      let piece ← ofKeys? start true (some k) false
      let rest ← pieces? (some k) ks
      pure (piece :: rest)

variable {start : Option Key} {k : Key} {ks : List Key}

/-- The range from a start, if there is one, up to a key that is not before it. -/
def upTo (start : Option Key) (k : Key) (h : ∀ s ∈ start, s ≤ k) : Range :=
  ⟨start, true, some k, false, fun s hs _ hk => Option.some.inj hk ▸ h s hs⟩

theorem ofKeys?_upTo (h : ∀ s ∈ start, s ≤ k) :
    ofKeys? start true (some k) false = .ok (upTo start k h) :=
  ofKeys?_eq_ok_iff.mpr ⟨rfl, rfl, rfl, rfl⟩

theorem ofKeys?_onward (start : Option Key) : ofKeys? start true none true = .ok (onward start) :=
  ofKeys?_eq_ok_iff.mpr ⟨rfl, rfl, rfl, rfl⟩

/-- Up to a key is what does not come before the start, and comes before the key. -/
theorem contains_upTo (h : ∀ s ∈ start, s ≤ k) (k' : Key) :
    (upTo start k h).contains k' = ((onward start).contains k' && (startingAt k).isBefore k') := by
  have hafter : (upTo start k h).isAfter k' = !(startingAt k).isBefore k' := by
    show (compare k' k).isGE = !(compare k' k).isLT
    cases compare k' k <;> rfl
  have hbefore : (upTo start k h).isBefore k' = (onward start).isBefore k' := rfl
  have hnone : (onward start).isAfter k' = false := rfl
  rw [contains, contains, hbefore, hafter, hnone, Bool.not_not, Bool.not_false, Bool.and_true]

/-- From a key on is what does not come before the start, nor before the key. -/
theorem contains_startingAt_of_le (h : ∀ s ∈ start, s ≤ k) (k' : Key) :
    (startingAt k).contains k' = ((onward start).contains k' && !(startingAt k).isBefore k') := by
  have himp : (onward start).isBefore k' = true → (startingAt k).isBefore k' = true := by
    intro hbefore
    obtain ⟨s, hs, hlt⟩ := isBefore_iff.mp hbefore
    exact isBefore_iff.mpr ⟨k, rfl, lt_of_lt_of_le hlt (h s hs)⟩
  show (!(startingAt k).isBefore k' && true) = ((!(onward start).isBefore k' && true) && _)
  cases hk : (startingAt k).isBefore k'
  · have hs : (onward start).isBefore k' = false := by
      rw [← Bool.not_eq_true]
      intro hbefore
      exact Bool.noConfusion (hk.symm.trans (himp hbefore))
    rw [hs]
    rfl
  · rw [Bool.not_true, Bool.and_false, Bool.false_and]

/-- A key cuts entries in key order in two. -/
theorem within_cut {es : List Entry} (hes : Ascending es) (h : ∀ s ∈ start, s ≤ k) (heeds : Bool)
    (families : FamilyFilter) :
    within heeds es (upTo start k h) families ++ within heeds es (startingAt k) families
      = within heeds es (onward start) families := by
  have hasc : Ascending (within heeds es (onward start) families) := hes.sublist List.filter_sublist
  have hdown : ∀ a b : Entry, a.1 ≤ b.1 → (startingAt k).isBefore b.1 = true →
      (startingAt k).isBefore a.1 = true := fun a b hab hb => isBefore_of_le hb hab
  have hfirst : within heeds es (upTo start k h) families
      = (within heeds es (onward start) families).takeWhile fun e => (startingAt k).isBefore e.1 := by
    rw [takeWhile_eq_filter hasc hdown, within, within, List.filter_filter]
    refine List.filter_congr fun e _ => ?_
    rw [contains_upTo h, Bool.and_assoc, Bool.and_left_comm]
  have hrest : within heeds es (startingAt k) families
      = (within heeds es (onward start) families).dropWhile fun e => (startingAt k).isBefore e.1 := by
    rw [dropWhile_eq_filter hasc hdown, within, within, List.filter_filter]
    refine List.filter_congr fun e _ => ?_
    rw [contains_startingAt_of_le h, Bool.and_assoc, Bool.and_left_comm]
  rw [hfirst, hrest, List.takeWhile_append_dropWhile]

/-- Keys that do not descend cut the entries from a start into pieces that put together are
all of them again. -/
theorem exists_pieces (hstart : ∀ s ∈ start, ∀ k ∈ ks, s ≤ k) (hks : ks.Pairwise (· ≤ ·)) :
    ∃ pieces, pieces? start ks = .ok pieces ∧ ∀ heeds es families, Ascending es →
      (pieces.map fun piece => within heeds es piece families).flatten
        = within heeds es (onward start) families := by
  induction ks generalizing start with
  | nil =>
      refine ⟨[onward start], ?_, fun heeds es families _ => ?_⟩
      · rw [pieces?, ofKeys?_onward]
        rfl
      · rw [List.map_singleton, List.flatten_singleton]
  | cons k ks ih =>
      have hk : ∀ s ∈ start, s ≤ k := fun s hs => hstart s hs k List.mem_cons_self
      obtain ⟨hle, hks⟩ := List.pairwise_cons.mp hks
      have hrest : ∀ s ∈ some k, ∀ k' ∈ ks, s ≤ k' := by
        rintro s hs k' hk'
        rw [← Option.mem_some.mp hs]
        exact hle k' hk'
      obtain ⟨pieces, hpieces, hflat⟩ := ih hrest hks
      refine ⟨upTo start k hk :: pieces, ?_, fun heeds es families hes => ?_⟩
      · rw [pieces?, ofKeys?_upTo hk, hpieces]
        rfl
      · rw [List.map_cons, List.flatten_cons, hflat heeds es families hes]
        exact within_cut hes hk heeds families

end Range

/-! ## Stacks -/

namespace Stack

/-- Without intersections, a stack that is put together from tables serves one sequence of
entries. -/
theorem exists_serves {searches : Bool} {n : Nat} {s : Stack Source n}
    (h : Assembled searches n s) (hplain : searches = false) : ∃ es, Serves s true es := by
  induction h with
  | table _ t => exact ⟨t.entries, Source.serves_table t⟩
  | bare _ ih =>
      obtain ⟨es, hes⟩ := ih hplain
      exact ⟨es, Layer.serves_bare hes⟩
  | merge dedupe account _ ih =>
      obtain ⟨lists, hall⟩ := Parallel.exists_of_forall fun c hc => ih c hc hplain
      exact ⟨merged dedupe lists, Layer.serves_merge hall dedupe account⟩
  | @filter _ _ _ ps env _ hsound ih =>
      obtain ⟨es, hes⟩ := ih hplain
      exact ⟨es.filter (Predicate.meets ps), Layer.serves_filter hes hsound env⟩
  | intersection _ _ _ => exact Bool.noConfusion hplain
  | moved _ ht ih =>
      obtain ⟨es, hes⟩ := ih hplain
      exact ⟨es, hes.of_reached ht⟩

/-- However a stack is put together from tables, and wherever calls and copies have brought it,
it can be copied for any environment; the copy stands at no entry, and its scans come to what
those of the stack come to. A batch is the scans of the stack itself, one range after the
other. Without intersections, a batch of the pieces that keys in order cut all keys into is the
scan of all keys. -/
theorem batch_reads_stack {searches : Bool} {n : Nat} {s t : Stack Source n}
    (h : Assembled searches n s) (ht : Reached s t) (env : Environment) (families : FamilyFilter) :
    (∃ c, Cursor.copy env t = .ok c ∧ Cursor.top c = none
        ∧ ∀ u, Reached s u → ∀ range families,
          (Scan.scan range families c).result = (Scan.scan range families u).result)
      ∧ (∀ u, Reached s u → ∀ ranges, (Scan.batch env ranges families t).1
          = (ranges.mapM fun range => (Scan.scan range families u).result).map List.flatten)
      ∧ (searches = false → ∀ ks : List Key, ks.Pairwise (· ≤ ·) →
          ∃ pieces es, Range.pieces? none ks = .ok pieces
            ∧ (Scan.batch env pieces families t).1 = .ok es
            ∧ ∀ u, Reached s u → (Scan.scan Range.all families u).result = .ok es) := by
  have hcoherent := coherent_of_assembled h
  obtain ⟨_, hjoining⟩ := Stack.exists_joining (Source.joining Excuses.none) n
  have hbatch : ∀ u, Reached s u → ∀ ranges, (Scan.batch env ranges families t).1
      = (ranges.mapM fun range => (Scan.scan range families u).result).map List.flatten :=
    fun u hu ranges => Scan.batch_eq hjoining hcoherent ht hu env ranges families
  refine ⟨?_, hbatch, fun hplain ks hks => ?_⟩
  · obtain ⟨c, hc, htop⟩ := hcoherent.copy ht env
    exact ⟨c, hc, htop, fun u hu range families =>
      Scan.scan_eq hjoining hcoherent (ht.copy env hc) hu range families⟩
  · obtain ⟨es, hserves⟩ := exists_serves h hplain
    have hstart : ∀ s ∈ (none : Option Key), ∀ k ∈ ks, s ≤ k := fun s hs => absurd hs (by simp)
    obtain ⟨pieces, hpieces, hflat⟩ := Range.exists_pieces hstart hks
    have hscans : pieces.mapM (fun range => (Scan.scan range families s).result)
        = .ok (pieces.map fun range => within true es range families) := by
      refine Parallel.mapM_ok ?_
      rw [List.forall₂_map_right_iff, List.forall₂_same]
      exact fun range _ => hserves.lists.scan range families
    refine ⟨pieces, within true es Range.all families, hpieces, ?_, fun u hu => ?_⟩
    · rw [hbatch s .here pieces, hscans]
      exact congrArg Except.ok (hflat true es families hserves.ascending)
    · exact (hserves.of_reached hu).lists.scan Range.all families

/-- A table of two rows; the second row is for those who know the token `s`. -/
def upper : Table := Table.ofEntries [(Key.ofRow [1], [10]), (⟨[2], [], [], [115], 0, false⟩, [20])]

/-- A table of two rows, the first of which `upper` has as well. -/
def lower : Table := Table.ofEntries [(Key.ofRow [1], [11]), (Key.ofRow [3], [30])]

/-- The two tables as one. -/
def both : Stack Source 1 :=
  .merge (Merge.ofChildren [Source.table upper, Source.table lower] true none)

/-- What someone without tokens may see of the two tables. -/
def shared : Stack Source 2 :=
  .filter (Filter.ofPredicates
    (.merge (Merge.ofChildren [Source.table upper, Source.table lower] true none))
    Filter.strangers (Environment.ofAccount 0))

/-- The environment of someone who knows the token `s`. -/
def insider : Environment :=
  { Environment.ofAccount 1 with authorizations := Authorizations.ofList [[115]] }

/-- Cut at two keys in the middle of a scan, the two tables are still read for someone without
tokens. -/
theorem batch_reads_shared :
    Assembled false 2 shared
      ∧ ∃ pieces, Range.pieces? none [Key.ofRow [1], Key.ofRow [2]] = .ok pieces
        ∧ (Scan.batch insider pieces FamilyFilter.all
            (Cursor.seek Range.all FamilyFilter.all shared).state).1
          = .ok [(Key.ofRow [1], [10]), (Key.ofRow [3], [30])] := by
  have hshared : Assembled false 2 shared := by
    refine .filter (Environment.ofAccount 0) (.merge true none ?_) Filter.sound_strangers
    exact List.forall_mem_cons.mpr ⟨.table false upper,
      List.forall_mem_singleton.mpr (.table false lower)⟩
  have hkeys : [Key.ofRow [1], Key.ofRow [2]].Pairwise (· ≤ ·) := by decide +kernel
  obtain ⟨pieces, es, hpieces, hbatch, hscan⟩ :=
    (batch_reads_stack hshared (.seek Range.all FamilyFilter.all .here) insider FamilyFilter.all).2.2
      rfl [Key.ofRow [1], Key.ofRow [2]] hkeys
  have hserves : Serves both true (merged true [upper.entries, lower.entries]) :=
    Layer.serves_merge (.cons (Source.serves_table upper) (.cons (Source.serves_table lower) .nil))
      true none
  have hmerged : merged true [upper.entries, lower.entries]
      = [(Key.ofRow [1], [10]), (Filter.hiddenCell.1, [20]), (Key.ofRow [3], [30])] := by
    have hread : (Scan.scan Range.all FamilyFilter.all both).result
        = .ok [(Key.ofRow [1], [10]), (Filter.hiddenCell.1, [20]), (Key.ofRow [3], [30])] := by
      decide +kernel
    rw [hserves.lists.scan, within_all] at hread
    exact Except.ok.inj hread
  have hhidden : Predicate.meets Filter.strangers (Filter.hiddenCell.1, [20]) = false :=
    Filter.strangers_reject
  have hall : (Scan.scan Range.all FamilyFilter.all shared).result
      = .ok [(Key.ofRow [1], [10]), (Key.ofRow [3], [30])] := by
    have hfiltered := Layer.serves_filter hserves Filter.sound_strangers (Environment.ofAccount 0)
    have hscanned := hfiltered.lists.scan Range.all FamilyFilter.all
    rwa [within_all, hmerged, List.filter_cons_of_pos (by rfl),
      List.filter_cons_of_neg (by simp [hhidden]), List.filter_cons_of_pos (by rfl)] at hscanned
  refine ⟨hshared, pieces, hpieces, ?_⟩
  rw [hbatch, ← hscan shared .here, hall]

end Stack

end CellScan
