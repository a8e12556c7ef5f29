/-
`Sources.lean` -- what tables and tapes list.

A table lists its cells of the range and of the families sought, though it looks them up
anew at every step. One step comes to the first of the cells ahead
(`Table.current_advanceFrom`), and behind that cell there are the others
(`Table.ahead_excluded`), so the steps lead through all of them (`Table.leads_advanceFrom`).
A tape lists its entries of the range whatever the families, provided that they are in key
order, all readable and can be copied.

Both are cases of `Serves`: one fixed sequence of entries in key order, of which a seek leads
through those in the range; `heeds` says whether the source heeds the families too.
-/
import CellScan.Proofs.Calls
import CellScan.Proofs.Ranges
import CellScan.Table
import CellScan.Tape

set_option autoImplicit false

namespace CellScan

open CellScan.Action CellScan.Cursor CellScan.Entry
open scoped Linear

/-- The entries of a range, and of the families asked for if those are heeded. -/
def Entry.within (heeds : Bool) (es : List Entry) (range : Range) (families : FamilyFilter) :
    List Entry :=
  es.filter fun e => range.contains e.1 && (families.accepts e.1.family || !heeds)

/-- All entries are in the range of all keys. -/
theorem Entry.within_all (heeds : Bool) (es : List Entry) :
    within heeds es Range.all FamilyFilter.all = es :=
  List.filter_eq_self.mpr fun _ _ => rfl

/-- The entries of a range in a merge are those of the lists. -/
theorem Entry.within_merged (dedupe : Bool) (lists : List (List Entry)) (range : Range)
    (families : FamilyFilter) :
    within true (merged dedupe lists) range families
      = merged dedupe (lists.map fun es => within true es range families) :=
  filter_merged (fun k => range.contains k && (families.accepts k.family || !true)) dedupe lists

/-- A cursor that never fails and serves the entries of one sequence in key order. -/
structure Cursor.Serves {σ : Type} [Cursor σ] (s : σ) (heeds : Bool) (es : List Entry) : Prop where
  lists : Lists s (Entry.within heeds es)
  ascending : Ascending es

namespace Cursor.Serves

variable {σ : Type} [Cursor σ] {s t : σ} {heeds : Bool} {es : List Entry}

theorem of_reached (h : Serves s heeds es) (ht : Reached s t) : Serves t heeds es :=
  ⟨h.lists.of_reached ht, h.ascending⟩

theorem length_le (h : Serves s heeds es) : es.length ≤ Cursor.reach s := by
  rw [← within_all heeds es]
  exact h.lists.length_le Range.all FamilyFilter.all

end Cursor.Serves

/-! ## Cells in key order -/

/-- On a sorted list a condition closed downwards holds of a beginning. -/
theorem Entry.takeWhile_eq_filter {p : Entry → Bool} {es : List Entry} (h : Ascending es)
    (hp : ∀ a b : Entry, a.1 ≤ b.1 → p b = true → p a = true) : es.takeWhile p = es.filter p := by
  induction es with
  | nil => rfl
  | cons e es ih =>
      obtain ⟨he, hes⟩ := ascending_cons.mp h
      by_cases hpe : p e = true
      · rw [List.takeWhile_cons_of_pos hpe, List.filter_cons_of_pos hpe, ih hes]
      · rw [List.takeWhile_cons_of_neg hpe, List.filter_cons_of_neg hpe, eq_comm,
          List.filter_eq_nil_iff]
        intro x hx hpx
        exact hpe (hp e x (he x hx) hpx)

/-- On a sorted list what fails a condition closed downwards is an ending. -/
theorem Entry.dropWhile_eq_filter {p : Entry → Bool} {es : List Entry} (h : Ascending es)
    (hp : ∀ a b : Entry, a.1 ≤ b.1 → p b = true → p a = true) :
    es.dropWhile p = es.filter fun e => !p e := by
  induction es with
  | nil => rfl
  | cons e es ih =>
      obtain ⟨he, hes⟩ := ascending_cons.mp h
      by_cases hpe : p e = true
      · rw [List.dropWhile_cons_of_pos hpe, List.filter_cons_of_neg (by simp [hpe]), ih hes]
      · rw [List.dropWhile_cons_of_neg hpe, List.filter_cons_of_pos (by simp [hpe]), eq_comm]
        refine congrArg (e :: ·) (List.filter_eq_self.mpr ?_)
        intro x hx
        rw [Bool.not_eq_true', ← Bool.not_eq_true]
        intro hpx
        exact hpe (hp e x (he x hx) hpx)

/-! ## Tables -/

theorem LowerBound.admits_excluded {k k' : Key} :
    (LowerBound.excluded k).admits k' = true ↔ k < k' := by
  rw [Key.lt_iff_compare, ← Std.OrientedCmp.gt_iff_lt]
  exact Ordering.isGT_iff_eq_gt

/-- A walk comes to every key behind one that it comes to. -/
theorem LowerBound.admits_of_le {lower : LowerBound} {k k' : Key} (h : lower.admits k = true)
    (hle : k ≤ k') : lower.admits k' = true := by
  cases lower with
  | unbounded => rfl
  | included s =>
      have hs : s ≤ k := Std.OrientedCmp.isGE_iff_isLE.mp h
      exact Std.OrientedCmp.isGE_iff_isLE.mpr (le_trans hs hle)
  | excluded s =>
      rw [admits_excluded] at h ⊢
      exact lt_of_lt_of_le h hle

/-- A walk from the start of a range leaves out what lies before the range. -/
theorem LowerBound.admits_lower (range : Range) (k : Key) :
    range.lower.admits k = !range.isBefore k := by
  obtain ⟨start, startInclusive, stop, stopInclusive, ordered⟩ := range
  cases start with
  | none => rfl
  | some s =>
      cases startInclusive
      · show (compare k s).isGT = !(compare k s).isLE
        cases compare k s <;> rfl
      · show (compare k s).isGE = !(compare k s).isLT
        cases compare k s <;> rfl

namespace Table

/-- The cells of a range and of the families asked for, in key order. -/
def within (t : Table) (range : Range) (families : FamilyFilter) : List Entry :=
  t.entries.filter fun e => range.contains e.1 && families.accepts e.1.family

/-- The cells from a bound on that are asked for. -/
def ahead (t : Table) (lower : LowerBound) : List Entry :=
  t.entries.filter fun e =>
    lower.admits e.1 && (!t.range.isAfter e.1 && t.families.accepts e.1.family)

theorem ascending (t : Table) : Ascending t.entries :=
  List.Pairwise.imp (fun h => le_of_lt (Key.lt_iff_compare.mpr h)) t.sorted

/-! ### One step -/

/-- Looking cells up from a bound leaves out those that lie before it. -/
theorem behind_eq_filter (t : Table) (lower : LowerBound) :
    t.behind lower = t.entries.filter fun e => lower.admits e.1 := by
  have hclosed : ∀ a b : Entry, a.1 ≤ b.1 → (!lower.admits b.1) = true →
      (!lower.admits a.1) = true := by
    intro a b hab hb
    rw [Bool.not_eq_true', ← Bool.not_eq_true] at hb ⊢
    exact fun ha => hb (LowerBound.admits_of_le ha hab)
  rw [behind, dropWhile_eq_filter t.ascending hclosed]
  simp only [Bool.not_not]

/-- Of cells in key order a walk stops at the first that is asked for: where it ends
before, all that is left lies after the range. -/
theorem walk_eq_head? {es : List Entry} (h : Ascending es) (range : Range)
    (families : FamilyFilter) :
    walk range families es
      = (es.filter fun e => !range.isAfter e.1 && families.accepts e.1.family).head? := by
  induction es with
  | nil => rfl
  | cons e es ih =>
      obtain ⟨he, hes⟩ := ascending_cons.mp h
      rw [walk]
      by_cases hafter : range.isAfter e.1 = true
      · have hnone : (e :: es).filter
            (fun x => !range.isAfter x.1 && families.accepts x.1.family) = [] := by
          rw [List.filter_eq_nil_iff]
          intro x hx
          have hle : e.1 ≤ x.1 := by
            rcases List.mem_cons.mp hx with rfl | hx
            · exact le_refl _
            · exact he x hx
          simp [Range.isAfter_of_le hafter hle]
        rw [if_pos hafter, hnone, List.head?_nil]
      · rw [if_neg hafter]
        by_cases haccepts : families.accepts e.1.family = true
        · rw [if_pos haccepts, List.filter_cons_of_pos (by simp [hafter, haccepts]),
            List.head?_cons]
        · rw [if_neg haccepts, List.filter_cons_of_neg (by simp [haccepts]), ih hes]

/-- An advance comes to the first cell ahead. -/
theorem current_advanceFrom (t : Table) (lower : LowerBound) :
    (t.advanceFrom lower).current = (t.ahead lower).head? := by
  have hbehind : Ascending (t.behind lower) := t.ascending.sublist (List.dropWhile_sublist _)
  show walk t.range t.families (t.behind lower) = _
  rw [walk_eq_head? hbehind, behind_eq_filter, List.filter_filter, ahead]
  simp only [Bool.and_comm]

/-- Behind the first cell ahead there are the others. -/
theorem ahead_excluded {t : Table} {lower : LowerBound} {e : Entry} {es : List Entry}
    (h : t.ahead lower = e :: es) : t.ahead (.excluded e.1) = es := by
  have hsorted : (e :: es).Pairwise fun x y => x.1 < y.1 := by
    rw [← h]
    exact (t.sorted.imp Key.lt_iff_compare.mpr).sublist List.filter_sublist
  have hlater : ∀ x ∈ es, e.1 < x.1 := (List.pairwise_cons.mp hsorted).1
  have hadmits : lower.admits e.1 = true := by
    have hmem : e ∈ t.ahead lower := h ▸ List.mem_cons_self
    exact (Bool.and_eq_true_iff.mp (List.mem_filter.mp hmem).2).1
  -- what the key of the first cell admits, the bound before it admits as well
  have hahead : t.ahead (.excluded e.1)
      = (t.ahead lower).filter fun x => (LowerBound.excluded e.1).admits x.1 := by
    rw [ahead, ahead, List.filter_filter]
    refine List.filter_congr ?_
    intro x _
    by_cases hx : (LowerBound.excluded e.1).admits x.1 = true
    · have hlt : e.1 < x.1 := LowerBound.admits_excluded.mp hx
      rw [hx, LowerBound.admits_of_le hadmits (le_of_lt hlt), Bool.true_and, Bool.true_and]
    · rw [Bool.not_eq_true] at hx
      rw [hx, Bool.false_and, Bool.false_and]
  have hself : (LowerBound.excluded e.1).admits e.1 = false := by
    rw [← Bool.not_eq_true, LowerBound.admits_excluded]
    exact lt_irrefl _
  have hothers : es.filter (fun x => (LowerBound.excluded e.1).admits x.1) = es :=
    List.filter_eq_self.mpr fun x hx => LowerBound.admits_excluded.mpr (hlater x hx)
  rw [hahead, h, List.filter_cons_of_neg (by simp [hself]), hothers]

/-! ### All steps -/

/-- A table leaves the cell it stands at by an advance from its key. -/
theorem runs_next {t : Table} {e : Entry} (h : t.current = some e) :
    Runs Cursor.next t () (t.advanceFrom (.excluded e.1)) := by
  refine ⟨[], ?_⟩
  show advance t = _
  rw [advance]
  split
  · next hnone => exact absurd (hnone.symm.trans h) (by simp)
  · next e' he' =>
      obtain rfl : e' = e := Option.some.inj (he'.symm.trans h)
      rfl

/-- An advance leads through the cells ahead. -/
theorem leads_advanceFrom (t : Table) (lower : LowerBound) :
    Leads (t.advanceFrom lower) (t.ahead lower) := by
  generalize hahead : t.ahead lower = es
  induction es generalizing lower with
  | nil =>
      refine Leads.done ((t.current_advanceFrom lower).trans ?_)
      rw [hahead, List.head?_nil]
  | cons e es ih =>
      have hcurrent : (t.advanceFrom lower).current = some e := by
        rw [current_advanceFrom, hahead, List.head?_cons]
      have hlen : (e :: es).length ≤ t.entries.length := by
        rw [← hahead]
        exact List.filter_sublist.length_le
      -- the cells are looked up from the key that is left, not from the bound before it
      exact Leads.more hcurrent (runs_next hcurrent) hlen
        (ih (.excluded e.1) (ahead_excluded hahead))

/-- A seek leads through the cells of the range and of the families asked for. -/
theorem leads_placed (t : Table) (range : Range) (families : FamilyFilter) :
    Leads (t.placed range families) (t.within range families) := by
  rw [placed]
  split
  · next hempty =>
      have hnone : t.within range families = [] := by
        rw [within, List.filter_eq_nil_iff]
        intro e _
        simp [Range.not_contains_of_isEmpty hempty]
      rw [hnone]
      exact Leads.done rfl
  · have hahead : ahead { t.cleared with range, families } range.lower
        = t.within range families := by
      refine List.filter_congr ?_
      intro e _
      rw [LowerBound.admits_lower, ← Bool.and_assoc, Range.contains]
    rw [← hahead]
    exact leads_advanceFrom _ _

/-- The cells that a table has still to come to, from wherever it stands. -/
def remaining (t : Table) : List Entry :=
  match t.current with
  | none => []
  | some e => e :: t.ahead (.excluded e.1)

theorem leads (t : Table) : Leads t t.remaining := by
  rw [remaining]
  split
  · next hnone => exact Leads.done hnone
  · next e he =>
      -- the cell stood at is a cell of the table and not one of those ahead
      have hlen : (t.ahead (.excluded e.1)).length < t.entries.length := by
        refine List.length_filter_lt_length_iff_exists.mpr ⟨e, t.held e he, ?_⟩
        rw [Bool.and_eq_true, LowerBound.admits_excluded]
        exact fun h => lt_irrefl _ h.1
      exact Leads.more he (runs_next he) hlen (leads_advanceFrom t _)

theorem ascending_remaining (t : Table) : Ascending t.remaining := by
  rw [remaining]
  split
  · exact List.Pairwise.nil
  · next e _ =>
      refine ascending_cons.mpr ⟨?_, t.ascending.sublist List.filter_sublist⟩
      intro x hx
      have hx' := (Bool.and_eq_true_iff.mp (List.mem_filter.mp hx).2).1
      exact le_of_lt (LowerBound.admits_excluded.mp hx')

theorem entries_placed (t : Table) (range : Range) (families : FamilyFilter) :
    (t.placed range families).entries = t.entries := by
  rw [placed]
  split
  · rfl
  · rfl

theorem entries_advance (t : Table) : (advance t).state.entries = t.entries := by
  rw [advance]
  split
  · rfl
  · rfl

/-- A table lists its cells of what is sought. -/
theorem lists (t : Table) : Lists t t.within := by
  refine Lists.of_invariant (fun u => u.entries = t.entries) rfl ?_ ?_ ?_ ?_ ?_
  · intro u hu range families
    have hwithin : u.within range families = t.within range families := by
      rw [within, within, hu]
    have hentries : (u.placed range families).entries = t.entries :=
      (u.entries_placed range families).trans hu
    refine ⟨u.placed range families, runs_change _ u, hentries, ?_⟩
    rw [← hwithin]
    exact u.leads_placed range families
  · exact fun u hu => u.entries_advance.trans hu
  · exact fun u env hu => ⟨fresh u.entries u.sorted, rfl, hu, rfl⟩
  · exact fun u _ => ⟨u.remaining, u.leads, u.ascending_remaining⟩
  · exact fun u hu => congrArg List.length hu

theorem within_eq (t : Table) : t.within = Entry.within true t.entries := by
  funext range families
  refine List.filter_congr ?_
  intro e _
  rw [Bool.not_true, Bool.or_false]

theorem serves (t : Table) : Serves t true t.entries := by
  refine ⟨?_, t.ascending⟩
  rw [← t.within_eq]
  exact t.lists

end Table

/-! ## Tapes -/

namespace Tape

/-- The entries that a tape has still to play. -/
def remaining (t : Tape) : List Entry :=
  match t.position with
  | none => []
  | some p => (t.entries.drop p).takeWhile fun e => !t.range.isAfter e.1

theorem moveTo_runs {t : Tape} (h : t.unreadable = none) (p : Nat) :
    Runs (moveTo p) t () { t with position := some p } := by
  refine ⟨[], ?_⟩
  have hne : ¬ t.unreadable = some p := by
    rw [h]
    exact Option.some_ne_none p ∘ Eq.symm
  rw [moveTo, if_neg hne]

/-- A tape that can be read throughout plays what remains. -/
theorem leads {t : Tape} (h : t.unreadable = none) : Leads t t.remaining := by
  obtain ⟨es, unreadable, copyable, range, position⟩ := t
  subst h
  cases position with
  | none => exact Leads.done rfl
  | some p =>
      generalize hrest : es.drop p = rest
      induction rest generalizing p with
      | nil =>
          -- the tape has come to its end
          have hget : es[p]? = none := by rw [← List.head?_drop, hrest]; rfl
          rw [remaining]
          simp only [hrest, List.takeWhile_nil]
          refine Leads.done ?_
          show (es[p]?).filter _ = none
          rw [hget]
          rfl
      | cons e rest ih =>
          have hget : es[p]? = some e := by rw [← List.head?_drop, hrest]; rfl
          have hdrop : es.drop (p + 1) = rest := by
            rw [← List.drop_drop, hrest, List.drop_one, List.tail_cons]
          have hlen : rest.length < es.length := by
            have hl := congrArg List.length hrest
            rw [List.length_drop, List.length_cons] at hl
            omega
          rw [remaining]
          simp only [hrest]
          by_cases hafter : range.isAfter e.1 = true
          · -- an entry after the range ends the tape
            rw [List.takeWhile_cons_of_neg (by simp [hafter])]
            refine Leads.done ?_
            show (es[p]?).filter _ = none
            rw [hget, Option.filter_some, if_neg (by simp [hafter])]
          · rw [List.takeWhile_cons_of_pos (by simp [hafter])]
            have htop : current ⟨es, none, copyable, range, some p⟩ = some e := by
              show (es[p]?).filter _ = some e
              rw [hget, Option.filter_some, if_pos (by simp [hafter])]
            have htail := ih (p + 1) hdrop
            rw [remaining] at htail
            simp only [hdrop] at htail
            exact Leads.more htop (moveTo_runs (t := ⟨es, none, copyable, range, some p⟩) rfl (p + 1))
              (lt_of_le_of_lt (List.takeWhile_sublist _).length_le hlen) htail

/-- A seek passes over the entries before the first one that does not lie before the range. -/
theorem drop_startOf (t : Tape) (range : Range) :
    t.entries.drop (t.startOf range) = t.entries.dropWhile fun e => range.isBefore e.1 := by
  have hleft : (t.entries.takeWhile (fun e => range.isBefore e.1)
      ++ t.entries.dropWhile fun e => range.isBefore e.1).drop (t.startOf range)
        = t.entries.dropWhile fun e => range.isBefore e.1 := List.drop_left
  rwa [List.takeWhile_append_dropWhile] at hleft

/-- A seek brings a sorted tape to its entries of the range. -/
theorem remaining_startOf {t : Tape} (h : Ascending t.entries) (range : Range) :
    remaining { t with range, position := some (t.startOf range) }
      = t.entries.filter fun e => range.contains e.1 := by
  have hbefore : ∀ a b : Entry, a.1 ≤ b.1 → range.isBefore b.1 = true → range.isBefore a.1 = true :=
    fun a b hab hb => Range.isBefore_of_le hb hab
  have hafter : ∀ a b : Entry, a.1 ≤ b.1 → (!range.isAfter b.1) = true →
      (!range.isAfter a.1) = true := by
    intro a b hab hb
    rw [Bool.not_eq_true', ← Bool.not_eq_true] at hb ⊢
    exact fun ha => hb (Range.isAfter_of_le ha hab)
  show ((t.entries.drop (t.startOf range)).takeWhile fun e => !range.isAfter e.1) = _
  rw [drop_startOf, dropWhile_eq_filter h hbefore,
    takeWhile_eq_filter (h.sublist List.filter_sublist) hafter, List.filter_filter]
  refine List.filter_congr ?_
  intro e _
  rw [Range.contains, Bool.and_comm]

/-- A sorted tape without a fault serves its entries, of every family. -/
theorem serves {t : Tape} (hasc : Ascending t.entries) (hread : t.unreadable = none)
    (hcopy : t.copyable = true) : Serves t false t.entries := by
  refine ⟨?_, hasc⟩
  have hwithin : ∀ range families, Entry.within false t.entries range families
      = t.entries.filter fun e => range.contains e.1 := by
    intro range families
    refine List.filter_congr ?_
    intro e _
    rw [Bool.not_false, Bool.or_true, Bool.and_true]
  refine Lists.of_invariant
    (fun u => u.entries = t.entries ∧ u.unreadable = none ∧ u.copyable = true)
    ⟨rfl, hread, hcopy⟩ ?_ ?_ ?_ ?_ ?_
  · -- a seek
    rintro u ⟨hes, hr, hc⟩ range families
    refine ⟨{ u with range, position := some (u.startOf range) },
      moveTo_runs (t := { u with range }) hr _, ⟨hes, hr, hc⟩, ?_⟩
    rw [hwithin, ← hes, ← remaining_startOf (by rw [hes]; exact hasc)]
    exact leads hr
  · -- a step, which does nothing at the end
    rintro u ⟨hes, hr, hc⟩
    show (advance u).state.entries = t.entries ∧ (advance u).state.unreadable = none
      ∧ (advance u).state.copyable = true
    rw [advance]
    split
    · exact ⟨hes, hr, hc⟩
    · rw [(moveTo_runs hr _).state]
      exact ⟨hes, hr, hc⟩
  · -- a copy, unplaced
    rintro u env ⟨hes, hr, hc⟩
    refine ⟨{ u with range := Range.all, position := none }, ?_, ⟨hes, hr, hc⟩, rfl⟩
    show (if u.copyable then _ else _) = _
    rw [if_pos hc]
  · rintro u ⟨hes, hr, -⟩
    refine ⟨u.remaining, leads hr, ?_⟩
    rw [remaining]
    split
    · exact List.Pairwise.nil
    · refine Ascending.sublist hasc ?_
      rw [← hes]
      exact (List.takeWhile_sublist _).trans (List.drop_sublist _ _)
  · rintro u ⟨hes, -, -⟩
    show u.entries.length = t.entries.length
    rw [hes]

end Tape

end CellScan
