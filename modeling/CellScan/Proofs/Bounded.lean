/-
`Bounded.lean` -- cursors that come to an end.

What keeps the stages above a cursor from going round in circles is said in two laws.
`Bounded`: what the cursor stands at is one of finitely many entries, `next` comes to an end
within `reach`, and a seek does not stop before the range. `Rises`: `next` does not lead
back. Tables keep both. A tape is bounded in whatever order its entries are, and it rises
if they are in key order.
-/
import CellScan.Proofs.Ending
import CellScan.Proofs.Sources
import CellScan.Proofs.Wrapping

set_option autoImplicit false

namespace CellScan

open CellScan.Action CellScan.Cursor CellScan.Entry
open scoped Linear

/-! ## The laws -/

namespace Cursor

variable {σ τ : Type} [Cursor σ] [Cursor τ] {s t : σ} {n m : Nat}

/-- From the state `next` comes to an end within `n` steps, and `reach` bounds them: the cursor
stands at no entry, or `next` fails with a fault that `F` holds of, or, where it may fall, it
falls back to an earlier key. -/
inductive Drains (F : Fault → Prop) (falls : Prop) : Nat → σ → Prop
  | done {n : Nat} {s : σ} : top s = none → Drains F falls n s
  | broken {n : Nat} {s : σ} {fault : Fault} : (next s).result = .error fault → F fault →
      Drains F falls n s
  | fallen {n : Nat} {s t : σ} {k k' : Key} : falls → Runs next s () t → topKey s = some k →
      topKey t = some k' → k' < k → 0 < n → n ≤ Cursor.reach s → Drains F falls n s
  | more {k n : Nat} {s t : σ} : Runs next s () t → k < n → n ≤ Cursor.reach s →
      Drains F falls k t → Drains F falls n s

namespace Drains

variable {F G : Fault → Prop} {falls : Prop}

theorem imp (h : Drains F falls n s) (hF : ∀ fault, F fault → G fault) : Drains G falls n s := by
  induction h with
  | done htop => exact .done htop
  | broken hfail hfault => exact .broken hfail (hF _ hfault)
  | fallen hfalls hnext hk hk' hlt h0 hn => exact .fallen hfalls hnext hk hk' hlt h0 hn
  | more hnext hk hn _ ih => exact .more hnext hk hn ih

theorem mono (h : Drains F falls n s) (hnm : n ≤ m) (hm : m ≤ Cursor.reach s) :
    Drains F falls m s := by
  cases h with
  | done htop => exact .done htop
  | broken hfail hfault => exact .broken hfail hfault
  | fallen hfalls hnext hk hk' hlt h0 _ =>
      exact .fallen hfalls hnext hk hk' hlt (by omega) hm
  | more hnext hk _ ht => exact .more hnext (by omega) hm ht

/-- There are no more steps than the cursor reaches. -/
theorem trim (h : Drains F falls n s) :
    ∃ k, k ≤ n ∧ k ≤ Cursor.reach s ∧ Drains F falls k s := by
  cases h with
  | done htop => exact ⟨0, Nat.zero_le _, Nat.zero_le _, .done htop⟩
  | broken hfail hfault => exact ⟨0, Nat.zero_le _, Nat.zero_le _, .broken hfail hfault⟩
  | fallen hfalls hnext hk hk' hlt h0 hn =>
      exact ⟨n, le_refl _, hn, .fallen hfalls hnext hk hk' hlt h0 hn⟩
  | more hnext hk hn ht => exact ⟨n, le_refl _, hn, .more hnext hk hn ht⟩

/-- Each step takes one off at least, unless it falls back. -/
theorem step_or (h : Drains F falls n s) (htop : top s ≠ none) (hnext : Runs next s () t) :
    0 < n ∧ ((∃ k, k < n ∧ Drains F falls k t)
      ∨ (falls ∧ ∃ k k', topKey s = some k ∧ topKey t = some k' ∧ k' < k)) := by
  cases h with
  | done hnone => exact absurd hnone htop
  | broken hfail _ =>
      rw [hnext.result] at hfail
      exact absurd hfail (by simp)
  | fallen hfalls hnext' hk hk' hlt h0 _ =>
      rw [← hnext'.state, hnext.state] at hk'
      exact ⟨h0, Or.inr ⟨hfalls, _, _, hk, hk', hlt⟩⟩
  | more hnext' hk _ ht =>
      rw [← hnext.state, hnext'.state]
      exact ⟨by omega, Or.inl ⟨_, hk, ht⟩⟩

theorem step (h : Drains F False n s) (htop : top s ≠ none) (hnext : Runs next s () t) :
    ∃ k, k < n ∧ Drains F False k t := (h.step_or htop hnext).2.resolve_right And.left

theorem next_fails (h : Drains F falls n s) (htop : top s ≠ none) {fault : Fault}
    (hfail : (next s).result = .error fault) : F fault := by
  cases h with
  | done hnone => exact absurd hnone htop
  | broken hfail' hfault =>
      rw [hfail'] at hfail
      exact Except.error.inj hfail ▸ hfault
  | fallen _ hnext _ _ _ _ _ =>
      rw [hnext.result] at hfail
      exact absurd hfail (by simp)
  | more hnext _ _ _ =>
      rw [hnext.result] at hfail
      exact absurd hfail (by simp)

end Drains

theorem Leads.drains {F : Fault → Prop} {falls : Prop} {es : List Entry} (h : Leads s es) :
    Drains F falls es.length s := by
  induction h with
  | done htop => exact .done htop
  | more _ hnext hlen _ ih => exact .more hnext (Nat.lt_succ_self _) hlen ih

/-- Wherever calls bring the cursor: it stands at one of the entries of `es`, of which there
are no more than it reaches, or at none; `next` comes to an end within what it reaches; and a
seek stops at no entry before the range. No call goes round in a circle. -/
structure Bounded (s : σ) (es : List Entry) : Prop where
  tops : ∀ {t : σ}, Reached s t → ∀ e ∈ top t, e ∈ es
  length_le : es.length ≤ Cursor.reach s
  reach : ∀ {t : σ}, Reached s t → Cursor.reach t = Cursor.reach s
  drains : ∀ {t : σ}, Reached s t → Drains (· ≠ .endless) False (Cursor.reach t) t
  seek_ends : ∀ {t : σ}, Reached s t → ∀ range families,
    (Cursor.seek range families t).result ≠ .error .endless
  stops : ∀ {t : σ}, Reached s t → ∀ {range : Range} {families : FamilyFilter} {u : σ},
    Runs (Cursor.seek range families) t () u → ∀ e ∈ top u, range.isBefore e.1 = false
  next_ends : ∀ {t : σ}, Reached s t → (next t).result ≠ .error .endless

/-- Wherever calls bring the cursor, `next` goes from a key only to one that `r` holds of. -/
def Rises (r : Key → Key → Prop) (s : σ) : Prop :=
  ∀ ⦃t u : σ⦄, Reached s t → Runs next t () u →
    ∀ ⦃e e' : Entry⦄, top t = some e → top u = some e' → r e.1 e'.1

theorem Bounded.of_reached {es : List Entry} (h : Bounded s es) (ht : Reached s t) :
    Bounded t es where
  tops hu := h.tops (ht.trans hu)
  length_le := (h.reach ht).symm ▸ h.length_le
  reach hu := (h.reach (ht.trans hu)).trans (h.reach ht).symm
  drains hu := h.drains (ht.trans hu)
  seek_ends hu := h.seek_ends (ht.trans hu)
  stops hu := h.stops (ht.trans hu)
  next_ends hu := h.next_ends (ht.trans hu)

theorem Rises.of_reached {r : Key → Key → Prop} (h : Rises r s) (ht : Reached s t) :
    Rises r t := fun _ _ hu => h (ht.trans hu)

theorem Rises.imp {r r' : Key → Key → Prop} (h : Rises r s) (hr : ∀ k k', r k k' → r' k k') :
    Rises r' s := fun _ _ ht hnext _ _ he he' => hr _ _ (h ht hnext he he')

/-- A cursor that never fails rises. -/
theorem Lists.rises {listing : Range → FamilyFilter → List Entry} (h : Lists s listing) :
    Rises (· ≤ ·) s := by
  intro t u ht hnext e e' he he'
  obtain ⟨es, hl, hasc⟩ := h.stands ht
  cases hl with
  | done hnone =>
      rw [he] at hnone
      exact absurd hnone (Option.some_ne_none e)
  | @more _ v _ es htop hnext' _ hl =>
      obtain rfl : e = _ := Option.some.inj (he.symm.trans htop)
      obtain rfl : v = u := hnext'.state.symm.trans hnext.state
      refine (ascending_cons.mp hasc).1 e' (List.mem_of_mem_head? ?_)
      rw [← hl.head?, he']
      rfl

/-! ### One cursor inside another -/

namespace Wraps

variable {put : σ → τ}

theorem drains (h : Wraps put) {F : Fault → Prop} {falls : Prop} (hs : Drains F falls n s) :
    Drains F falls n (put s) := by
  induction hs with
  | done htop => exact .done ((h.top _).trans htop)
  | broken hfail hfault => exact .broken ((congrArg Outcome.result (h.next _)).trans hfail) hfault
  | fallen hfalls hnext hk hk' hlt h0 hn =>
      exact .fallen hfalls (runs_within hnext (h.next _)) ((h.topKey _).trans hk)
        ((h.topKey _).trans hk') hlt h0 ((h.reach _).symm ▸ hn)
  | more hnext hk hn _ ih =>
      exact .more (runs_within hnext (h.next _)) hk ((h.reach _).symm ▸ hn) ih

theorem bounded (h : Wraps put) {es : List Entry} (hs : Bounded s es) : Bounded (put s) es := by
  refine ⟨?_, ?_, ?_, ?_, ?_, ?_, ?_⟩
  · intro u hu
    obtain ⟨t, ht, rfl⟩ := h.reached hu
    rw [h.top]
    exact hs.tops ht
  · rw [h.reach]
    exact hs.length_le
  · intro u hu
    obtain ⟨t, ht, rfl⟩ := h.reached hu
    rw [h.reach, h.reach]
    exact hs.reach ht
  · intro u hu
    obtain ⟨t, ht, rfl⟩ := h.reached hu
    rw [h.reach]
    exact h.drains (hs.drains ht)
  · intro u hu range families
    obtain ⟨t, ht, rfl⟩ := h.reached hu
    rw [h.seek]
    exact hs.seek_ends ht range families
  · intro u hu range families v hv
    obtain ⟨t, ht, rfl⟩ := h.reached hu
    obtain ⟨w, hw, rfl⟩ := runs (h.seek range families t) hv
    rw [h.top]
    exact hs.stops ht hw
  · intro u hu
    obtain ⟨t, ht, rfl⟩ := h.reached hu
    rw [h.next]
    exact hs.next_ends ht

theorem rises (h : Wraps put) {r : Key → Key → Prop} (hs : Rises r s) : Rises r (put s) := by
  intro u v hu hv e e' he he'
  obtain ⟨t, ht, rfl⟩ := h.reached hu
  obtain ⟨w, hw, rfl⟩ := runs (h.next t) hv
  rw [h.top] at he he'
  exact hs ht hw he he'

end Wraps

end Cursor

/-! ## Tables -/

theorem Table.entries_of_reached {t u : Table} (h : Reached t u) : u.entries = t.entries := by
  induction h with
  | here => rfl
  | seek range families _ ih => exact (entries_placed _ range families).trans ih
  | next _ ih => exact (entries_advance _).trans ih
  | copy env _ hcopy ih => exact (congrArg Table.entries (Except.ok.inj hcopy)).symm.trans ih

/-- A table stands at its own cells, and a seek goes to one of the range. -/
theorem Table.bounded (t : Table) : Bounded t t.entries := by
  have hdrains : ∀ u : Table, Drains (· ≠ .endless) False (Cursor.reach u) u := fun u =>
    (leads u).drains.mono (leads u).length_le (le_refl _)
  refine ⟨?_, le_refl _, ?_, fun _ => hdrains _, ?_, ?_, ?_⟩
  · intro u hu e he
    rw [← entries_of_reached hu]
    exact u.held e he
  · exact fun hu => congrArg List.length (entries_of_reached hu)
  · intro u _ range families h
    exact Except.noConfusion rfl rfl (heq_of_eq h)
  · intro u _ range families v hv e he
    obtain rfl : u.placed range families = v := hv.state
    rw [(u.leads_placed range families).head?] at he
    have hmem := (List.mem_filter.mp (List.mem_of_mem_head? he)).2
    rw [Bool.and_eq_true, Range.contains, Bool.and_eq_true, Bool.not_eq_true'] at hmem
    exact hmem.1.1
  · intro u _
    show (advance u).result ≠ .error .endless
    rw [advance]
    split
    · simp
    · simp

theorem Table.rises (t : Table) : Rises (· ≤ ·) t := t.lists.rises

/-! ## Tapes -/

namespace Tape

theorem entries_moveTo (p : Nat) (t : Tape) : (moveTo p t).state.entries = t.entries := by
  rw [moveTo]
  split
  · rfl
  · rfl

theorem moveTo_cases (p : Nat) (t : Tape) :
    (moveTo p t).result = .error (unreadableAt p)
      ∨ Runs (moveTo p) t () { t with position := some p } := by
  by_cases h : t.unreadable = some p
  · left
    rw [moveTo, if_pos h]
  · right
    refine ⟨[], ?_⟩
    rw [moveTo, if_neg h]

theorem unreadableAt_ne (p : Nat) : unreadableAt p ≠ .endless := Fault.noConfusion

theorem moveTo_ends (p : Nat) (t : Tape) : (moveTo p t).result ≠ .error .endless := by
  rcases moveTo_cases p t with h | h
  · rw [h]
    exact fun h' => unreadableAt_ne p (Except.error.inj h')
  · rw [h.result]
    simp

theorem advance_of_position {t : Tape} {p : Nat} (h : t.position = some p) :
    Cursor.next t = moveTo (p + 1) t := by
  show advance t = _
  simp only [advance, h]

theorem entries_of_reached {t u : Tape} (h : Reached t u) : u.entries = t.entries := by
  induction h with
  | here => rfl
  | @seek u range families _ ih => exact (entries_moveTo _ { u with range }).trans ih
  | @next u _ ih =>
      show (advance u).state.entries = t.entries
      rw [advance]
      split
      · exact ih
      · exact (entries_moveTo _ u).trans ih
  | @copy u v env _ hcopy ih =>
      have hcopied : (if u.copyable then Except.ok { u with range := Range.all, position := none }
          else .error notCopyable) = Except.ok v := hcopy
      split at hcopied
      · exact (congrArg Tape.entries (Except.ok.inj hcopied)).symm.trans ih
      · exact absurd hcopied (by simp)

theorem current_of_position {t : Tape} {p : Nat} (h : t.position = some p) :
    Cursor.top t = (t.entries[p]?).filter fun e => !t.range.isAfter e.1 := by
  show t.current = _
  simp only [current, h]

/-- A tape stands at an entry only at a position, and the entry is the one there. -/
theorem getElem?_of_top {t : Tape} {e : Entry} (h : Cursor.top t = some e) :
    ∃ p, t.position = some p ∧ t.entries[p]? = some e := by
  rcases hp : t.position with _ | p
  · have hnone : t.current = none := by
      simp only [current, hp]
    exact absurd (h.symm.trans hnone) (Option.some_ne_none e)
  · rw [current_of_position hp] at h
    exact ⟨p, rfl, Option.eq_some_of_filter_eq_some h⟩

/-- With every step fewer entries remain, whether or not it can be read. -/
theorem drains_of_position {t : Tape} {p n : Nat} (hp : t.position = some p)
    (hn : t.entries.length ≤ p + n) (hle : n ≤ t.entries.length) :
    Drains (· ≠ .endless) False n t := by
  induction n generalizing t p with
  | zero =>
      refine .done ?_
      rw [current_of_position hp, List.getElem?_eq_none (by omega)]
      rfl
  | succ n ih =>
      have hnext := advance_of_position hp
      rcases moveTo_cases (p + 1) t with hfail | hok
      · exact .broken ((congrArg Outcome.result hnext).trans hfail) (unreadableAt_ne _)
      · refine .more (hok.of_eq hnext) (Nat.lt_succ_self n) hle (ih (p := p + 1) rfl ?_ ?_)
        · show t.entries.length ≤ p + 1 + n
          omega
        · show n ≤ t.entries.length
          omega

/-- In whatever order they are, a tape plays its entries and comes to an end. -/
theorem bounded (t : Tape) : Bounded t t.entries := by
  refine ⟨?_, le_refl _, ?_, ?_, ?_, ?_, ?_⟩
  · intro u hu e he
    obtain ⟨p, -, hget⟩ := getElem?_of_top he
    rw [← entries_of_reached hu]
    exact List.mem_of_getElem? hget
  · exact fun hu => congrArg List.length (entries_of_reached hu)
  · intro u _
    rcases hp : u.position with _ | p
    · refine .done ?_
      show u.current = none
      simp only [current, hp]
    · exact drains_of_position hp (Nat.le_add_left _ _) (le_refl _)
  · intro u _ range families
    exact moveTo_ends _ { u with range }
  · -- the first position whose key does not lie before the range
    intro u _ range families v hv e he
    rcases moveTo_cases (u.startOf range) { u with range } with hfail | hok
    · exact absurd (hv.result.symm.trans hfail) (by simp)
    · obtain rfl := hv.state.symm.trans hok.state
      obtain ⟨p, hp, hget⟩ := getElem?_of_top he
      obtain rfl : u.startOf range = p := Option.some.inj hp
      have hget' : u.entries[u.startOf range]? = some e := hget
      have hnot := List.head?_dropWhile_not (fun e : Entry => range.isBefore e.1) u.entries
      rwa [← u.drop_startOf, List.head?_drop, hget'] at hnot
  · intro u _
    show (advance u).result ≠ .error .endless
    rw [advance]
    split
    · simp
    · exact moveTo_ends _ u

/-- A tape in key order does not lead back. -/
theorem rises {t : Tape} (h : Ascending t.entries) : Rises (· ≤ ·) t := by
  intro u v hu hnext e e' he he'
  rw [← entries_of_reached hu] at h
  obtain ⟨p, hp, hget⟩ := getElem?_of_top he
  have hmove : Runs (moveTo (p + 1)) u () v := hnext.of_eq (advance_of_position hp).symm
  rcases moveTo_cases (p + 1) u with hfail | hok
  · exact absurd (hmove.result.symm.trans hfail) (by simp)
  · obtain rfl := hmove.state.symm.trans hok.state
    obtain ⟨q, hq, hget'⟩ := getElem?_of_top he'
    obtain rfl : p + 1 = q := Option.some.inj hq
    obtain ⟨hlt, rfl⟩ := List.getElem?_eq_some_iff.mp hget
    obtain ⟨hlt', rfl⟩ := List.getElem?_eq_some_iff.mp hget'
    exact List.pairwise_iff_getElem.mp h p (p + 1) hlt hlt' (Nat.lt_succ_self p)

end Tape

end CellScan
