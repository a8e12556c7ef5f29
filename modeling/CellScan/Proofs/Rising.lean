/-
`Rising.lean` -- stages that do not lead back.

A merge puts a child back only where it does not stand before the key that it comes from,
and it always moves the one that waits at the least key. So whatever its children do, a step
that succeeds does not lead to an earlier key, and with `dedupe` it leads to a later one
(`Merge.rises`). A filter does not lead back where its source does not (`Filter.rises`).

What a step of a merge does where it succeeds is said once: `Advanced` for one child that
moves off a key and waits again, `Passes` for the children at the front of the queue that do
so one after the other.
-/
import CellScan.Proofs.Bounded
import CellScan.Proofs.Filter
import CellScan.Proofs.Waiting

set_option autoImplicit false

namespace CellScan

open CellScan.Action CellScan.Cursor CellScan.Entry
open List (Forall₂)
open scoped Linear

/-- The key comes behind another one, or is the same unless repeats are to be left out. -/
def Key.Follows (strictly : Bool) (k k' : Key) : Prop := k ≤ k' ∧ (strictly = true → k ≠ k')

namespace Key.Follows

variable {strictly : Bool} {k k' k'' : Key}

theorem trans (h : Follows strictly k k') (h' : Follows strictly k' k'') :
    Follows strictly k k'' := by
  refine ⟨le_trans h.1 h'.1, ?_⟩
  rintro hs rfl
  exact h.2 hs (le_antisymm h.1 h'.1)

end Key.Follows

/-! ## Merges -/

namespace Merge

variable {σ : Type} [Cursor σ] {m m₁ m' : Merge σ} {out : List Nat} {key : Key} {child c n : Nat}
  {cs : List σ}

/-- The child has moved off the key, and waits again where it stands now unless it is at its
end. -/
structure Advanced (child : Nat) (key : Key) (m m' : Merge σ) (s t : σ) : Prop where
  stood : m.children[child]? = some s
  leaves : topKey s = some key
  moved : Runs (leave m.dedupe key) s () t
  children : m'.children = m.children.set child t
  dedupe : m'.dedupe = m.dedupe
  queue : (topKey t = none ∧ m'.queue = m.queue)
    ∨ ∃ k, topKey t = some k ∧ key ≤ k ∧ m'.queue = SortedList.insertBy id ⟨k, child⟩ m.queue

/-- What it takes for a child to be moved on: it comes to no key before the one it left. -/
theorem advanced_of_runs {s : σ} (hs : m.children[child]? = some s) (hleaves : topKey s = some key)
    (h : Runs (advance child key) m () m') : ∃ t, Advanced child key m m' s t := by
  rcases hleave : leave m.dedupe key s with ⟨fault | _, t, events⟩
  · have hresult := h.result
    rw [advance_of_stuck hs hleave] at hresult
    exact absurd hresult (by simp)
  · have hresult := h.result
    have hstate := h.state
    rw [advance_of_moved hs hleave] at hresult hstate
    rw [rejoin, childKey_set hs t] at hresult hstate
    refine ⟨t, ?_⟩
    have hmoved : Runs (leave m.dedupe key) s () t := ⟨events, hleave⟩
    rcases htop : topKey t with _ | k
    · rw [htop] at hstate
      subst hstate
      exact ⟨hs, hleaves, hmoved, rfl, rfl, Or.inl ⟨htop, rfl⟩⟩
    · rw [htop] at hresult hstate
      by_cases hlt : k < key
      · simp [hlt] at hresult
      · simp only [hlt, if_false] at hstate
        subst hstate
        exact ⟨hs, hleaves, hmoved, rfl, rfl, Or.inr ⟨k, htop, not_lt.mp hlt, rfl⟩⟩

namespace Advanced

variable {s t : σ}

/-- Where the child waits again its key follows the one it left. -/
theorem follows (h : Advanced child key m m' s t) {x : Merge.Head} (hx : x ∈ m'.queue) :
    x ∈ m.queue ∨ (x.child = child ∧ topKey t = some x.key ∧ key.Follows m.dedupe x.key) := by
  rcases h.queue with ⟨-, hq⟩ | ⟨k, hk, hle, hq⟩
  · rw [hq] at hx
    exact Or.inl hx
  · rw [hq] at hx
    rcases SortedList.eq_or_mem_of_mem_insertBy id hx with rfl | hmem
    · refine Or.inr ⟨rfl, hk, hle, ?_⟩
      rintro hdedupe rfl
      have hmoved := h.moved
      rw [hdedupe] at hmoved
      exact topKey_of_leave hmoved.result (hmoved.state ▸ hk)
    · exact Or.inl hmem

theorem faithful (h : Advanced child key m m' s t) (hm : Faithful (child :: out) m)
    (hout : child ∉ out) : Faithful out m' := by
  have hset := hm.set t
  have hlen : child < m.children.length := (List.getElem?_eq_some_iff.mp h.stood).1
  obtain ⟨children, queue, dedupe, account⟩ := m'
  obtain rfl : children = m.children.set child t := h.children
  rcases h.queue with ⟨-, rfl⟩ | ⟨k, hk, -, rfl⟩
  · exact ⟨hset.sorted, hset.stands, (hset.mono (List.subset_cons_self child out)).away⟩
  · have hkey : childKey { m with children := m.children.set child t } child = some k := by
      rw [childKey, List.getElem?_set_self hlen]
      exact hk
    have hput := hset.enqueue hout hkey
    exact ⟨hput.sorted, hput.stands, hput.away⟩

/-- With `dedupe` as many wait at the key as waited there beside the child. -/
theorem waiting_eq (h : Advanced child key m m' s t) (hdedupe : m.dedupe = true) :
    waiting key m'.queue = waiting key m.queue := by
  rcases h.queue with ⟨-, hq⟩ | ⟨k, hk, -, hq⟩
  · rw [hq]
  · have hmoved := h.moved
    rw [hdedupe] at hmoved
    have hne : k ≠ key := by
      rintro rfl
      exact topKey_of_leave hmoved.result (hmoved.state ▸ hk)
    rw [hq, waiting, filter_insert (decide_eq_false hne), waiting]

end Advanced

/-- The children at the front of the queue that stand at the key have moved off it, one after
the other. -/
inductive Passes (key : Key) : Merge σ → Merge σ → Prop
  | done {m : Merge σ} : (∀ head ∈ m.queue.head?, head.key ≠ key) → Passes key m m
  | more {m m₁ m' : Merge σ} {head : Merge.Head} {queue : List Merge.Head} {s t : σ} :
      m.queue = head :: queue → head.key = key →
      Advanced head.child key { m with queue } m₁ s t → Passes key m₁ m' → Passes key m m'

/-- A head that waits has a child that stands where it says. -/
theorem Faithful.exists_child (h : Faithful out m) {x : Merge.Head} (hx : x ∈ m.queue) :
    ∃ s, m.children[x.child]? = some s ∧ topKey s = some x.key :=
  Option.bind_eq_some_iff.mp (h.stands x hx)

theorem passes_of_runs (hdedupe : m.dedupe = true) (h : Faithful [c] m)
    (hn : waiting key m.queue ≤ n) (hm : Runs (advancePeers key n) m () m') : Passes key m m' := by
  induction n generalizing m with
  | zero =>
      obtain rfl : m = m' := hm.state
      exact .done fun head hhead =>
        ne_of_waiting (Nat.le_zero.mp hn) head (List.mem_of_mem_head? hhead)
  | succ n ih =>
      rcases front_cases key m with hfront | ⟨head, queue, hq, rfl⟩
      · have hstay := hm.state
        rw [advancePeers_of_ne hfront] at hstay
        obtain rfl : m = m' := hstay
        exact .done hfront
      · have hhead : head ∈ m.queue := by rw [hq]; exact List.mem_cons_self
        obtain ⟨s, hs, hkey⟩ := h.exists_child hhead
        have hboth := hm.of_eq (advancePeers_of_cons hq n).symm
        obtain ⟨_, m₁, hadv, hrest, hstate⟩ := ok_of_bind hboth.result
        obtain ⟨t, ht⟩ := advanced_of_runs (m := { m with queue }) hs hkey hadv
        have hfaithful := ht.faithful (h.tail hq) (h.away head hhead)
        refine .more hq rfl ht (ih (ht.dedupe.trans hdedupe) hfaithful ?_ ?_)
        · rw [ht.waiting_eq hdedupe]
          rw [hq, waiting_cons rfl] at hn
          exact Nat.le_of_succ_le_succ hn
        · rw [← hboth.state, hstate]
          exact runs_of_result hrest

namespace Passes

theorem dedupe (h : Passes key m m') : m'.dedupe = m.dedupe := by
  induction h with
  | done _ => rfl
  | more _ _ hadv _ ih => exact ih.trans hadv.dedupe

/-- A child that does not wait stays where it is. -/
theorem faithful (h : Passes key m m') (hm : Faithful [c] m) :
    Faithful [c] m' ∧ m'.children[c]? = m.children[c]? := by
  induction h with
  | done _ => exact ⟨hm, rfl⟩
  | @more m m₁ m' head queue s t hq _ hadv _ ih =>
      have hout : head.child ∉ [c] := hm.away head (by rw [hq]; exact List.mem_cons_self)
      obtain ⟨hfaithful, hsame⟩ := ih (hadv.faithful (hm.tail hq) hout)
      have hne : head.child ≠ c := by simpa using hout
      refine ⟨hfaithful, hsame.trans ?_⟩
      rw [hadv.children, List.getElem?_set_ne hne]

/-- Behind the children at the least key the others wait at later ones. -/
theorem lt (h : Passes key m m') (hm : Faithful [c] m) (hle : ∀ x ∈ m.queue, key ≤ x.key) :
    ∀ x ∈ m'.queue, key < x.key := by
  induction h with
  | @done m hfront =>
      intro x hx
      rcases hq : m.queue with _ | ⟨head, queue⟩
      · rw [hq] at hx
        exact absurd hx List.not_mem_nil
      · -- the head in front waits at the least key of all
        have hsorted := hm.sorted
        rw [hq] at hx hfront hle hsorted
        have hhead : key < head.key :=
          lt_of_le_of_ne (hle head List.mem_cons_self) (hfront head rfl).symm
        rcases List.mem_cons.mp hx with rfl | hx
        · exact hhead
        · rcases compare_eq_lt_iff.mp ((List.pairwise_cons.mp hsorted).1 x hx) with hlt | ⟨heq, -⟩
          · exact lt_trans hhead hlt
          · exact heq ▸ hhead
  | @more m m₁ m' head queue s t hq _ hadv _ ih =>
      have hout : head.child ∉ [c] := hm.away head (by rw [hq]; exact List.mem_cons_self)
      refine ih (hadv.faithful (hm.tail hq) hout) fun x hx => ?_
      rcases hadv.follows hx with hmem | ⟨-, -, hfollows⟩
      · exact hle x (by rw [hq]; exact List.mem_cons_of_mem head hmem)
      · exact hfollows.1

end Passes

/-- What a step has done that succeeds: with `dedupe` the other children at the key have moved
off it, and then the one in front has. -/
structure Stepped (m m₁ m' : Merge σ) (head : Merge.Head) (queue : List Merge.Head) (s t : σ) :
    Prop where
  front : m.queue = head :: queue
  peers : if m.dedupe then Passes head.key { m with queue } m₁ else m₁ = { m with queue }
  away : Faithful [head.child] m₁
  advanced : Advanced head.child head.key m₁ m' s t

theorem stepped_of_runs (h : Faithful [] m) (hm : Runs step m () m') :
    ∃ m₁ head queue s t, Stepped m m₁ m' head queue s t := by
  rcases hq : m.queue with _ | ⟨head, queue⟩
  · have hfail := hm.result
    rw [step_of_nil hq] at hfail
    exact absurd hfail (by simp)
  · have htail := h.tail hq
    obtain ⟨s, hs, hkey⟩ := h.exists_child (List.mem_of_mem_head? (by rw [hq]; rfl))
    have hboth := hm.of_eq (step_of_cons hq).symm
    obtain ⟨_, m₁, hpeers, hlast, hstate⟩ := ok_of_bind hboth.result
    have hadv : Runs (advance head.child head.key) m₁ () m' := by
      rw [← hboth.state, hstate]
      exact runs_of_result hlast
    by_cases hdedupe : m.dedupe = true
    · rw [if_pos hdedupe] at hpeers
      have hpasses := passes_of_runs (m := { m with queue }) hdedupe htail
        (List.length_filter_le _ queue) hpeers
      obtain ⟨haway, hsame⟩ := hpasses.faithful htail
      obtain ⟨t, ht⟩ := advanced_of_runs (hsame.trans hs) hkey hadv
      refine ⟨m₁, head, queue, s, t, hq, ?_, haway, ht⟩
      rwa [if_pos hdedupe]
    · rw [if_neg hdedupe] at hpeers
      obtain rfl : { m with queue } = m₁ := hpeers.state
      obtain ⟨t, ht⟩ := advanced_of_runs (m := { m with queue }) hs hkey hadv
      refine ⟨_, head, queue, s, t, hq, ?_, htail, ht⟩
      rw [if_neg hdedupe]

namespace Stepped

variable {head : Merge.Head} {queue : List Merge.Head} {s t : σ}

theorem dedupe (h : Stepped m m₁ m' head queue s t) : m₁.dedupe = m.dedupe := by
  have hpeers := h.peers
  split at hpeers
  · exact hpeers.dedupe
  · rw [hpeers]

theorem least (h : Stepped m m₁ m' head queue s t) (hm : Faithful [] m) :
    ∀ x ∈ queue, head.key ≤ x.key := by
  intro x hx
  have hsorted := hm.sorted
  rw [h.front] at hsorted
  rcases compare_eq_lt_iff.mp ((List.pairwise_cons.mp hsorted).1 x hx) with hlt | ⟨heq, -⟩
  · exact le_of_lt hlt
  · exact le_of_eq heq

/-- All that waits after a step waits at keys that follow the one left. -/
theorem follows (h : Stepped m m₁ m' head queue s t) (hm : Faithful [] m) :
    ∀ x ∈ m'.queue, head.key.Follows m.dedupe x.key := by
  intro x hx
  rcases h.advanced.follows hx with hmem | ⟨-, -, hfollows⟩
  · have hpeers := h.peers
    split at hpeers
    · have hlt := hpeers.lt (hm.tail h.front) (h.least hm) x hmem
      exact ⟨le_of_lt hlt, fun _ => ne_of_lt hlt⟩
    · next hdedupe =>
        rw [hpeers] at hmem
        exact ⟨h.least hm x hmem, fun hd => absurd hd hdedupe⟩
  · rwa [h.dedupe] at hfollows

end Stepped

/-- A merge stands at the key that waits first. -/
theorem Faithful.topKey_eq (h : Faithful out m) :
    topKey m = m.queue.head?.map Merge.Head.key := by
  show (m.queue.head?.bind fun head => (m.children[head.child]?).bind Cursor.top).map Prod.fst = _
  rcases hq : m.queue with _ | ⟨head, queue⟩
  · rfl
  · obtain ⟨s, hs, htop⟩ := h.exists_child (List.mem_of_mem_head? (by rw [hq]; rfl))
    rw [List.head?_cons, Option.bind_some, hs, Option.bind_some]
    exact htop

/-- A step that succeeds leads to a key that follows. -/
theorem rises (children : List σ) (dedupe : Bool) (account : Option Account) :
    Rises (Key.Follows dedupe) (ofChildren children dedupe account) := by
  intro m m' hm hnext e e' he he'
  have hfaithful := faithful_of_reached hm
  have hfaithful' := faithful_of_reached hm.next
  rw [hnext.state] at hfaithful'
  obtain ⟨m₁, head, queue, s, t, hstepped⟩ := stepped_of_runs hfaithful hnext
  have hkey := hfaithful.topKey_eq
  have hkey' := hfaithful'.topKey_eq
  rw [topKey, he, hstepped.front] at hkey
  rw [topKey, he'] at hkey'
  obtain ⟨head', hhead', hkey'⟩ := Option.map_eq_some_iff.mp hkey'.symm
  have hfollows := hstepped.follows hfaithful head' (List.mem_of_mem_head? hhead')
  rw [(upon_of_reached hm).2, hkey'] at hfollows
  rwa [Option.some.inj hkey]

end Merge

/-! ## Filters -/

namespace Filter

variable {σ : Type} [Cursor σ] {s : σ} {f g : Filter σ} {n : Nat} {P : σ → Prop}

/-- What each step of the source keeps, passing over rejected entries keeps. -/
theorem of_passRejected
    (hP : ∀ {t u : σ}, Reached s t → Cursor.top t ≠ none → Runs Cursor.next t () u → P t → P u)
    (hf : Reached s f.source) (hPf : P f.source) (h : Runs (passRejected n) f () g) :
    P g.source := by
  induction n generalizing f with
  | zero => exact absurd h.result (by simp [passRejected])
  | succ n ih =>
      rcases htop : Cursor.top f.source with _ | e
      · have hstay := h.state
        rw [passRejected_of_none htop] at hstay
        obtain rfl : f = g := hstay
        exact hPf
      · have hloop := h.of_eq (passRejected_of_some htop n).symm
        obtain ⟨accepted, f₁, hdecide, hrest, hstate⟩ := ok_of_bind hloop.result
        have hsource : f₁.source = f.source := by
          rw [← hdecide.state]
          rfl
        have hg := hloop.state.symm.trans hstate
        by_cases hacc : accepted = true
        · -- accepted, and the source stays
          rw [if_pos hacc] at hg
          obtain rfl : g = f₁ := hg
          rwa [hsource]
        · rw [if_neg hacc] at hrest hg
          obtain ⟨_, f₂, hmove, hrest', hstate'⟩ := ok_of_bind hrest
          have hsource' : Runs Cursor.next f.source () f₂.source := by
            rw [← hmove.state, ← hsource]
            exact runs_of_result hmove.result
          refine ih (f := f₂) ?_ ?_ ?_
          · rw [← hsource'.state]
            exact hf.next
          · exact hP hf (by rw [htop]; exact Option.some_ne_none e) hsource' hPf
          · rw [hg, hstate']
            exact runs_of_result hrest'

theorem of_settle
    (hP : ∀ {t u : σ}, Reached s t → Cursor.top t ≠ none → Runs Cursor.next t () u → P t → P u)
    (hf : Reached s f.source) (hPf : P f.source) (h : Runs settle f () g) : P g.source :=
  of_passRejected hP hf hPf h

/-- A step that succeeds is a step of the source that succeeds, and what is rejected is passed
over. -/
theorem step_of_runs (h : Runs step f () g) :
    ∃ u, Runs Cursor.next f.source () u ∧ Runs settle { f with source := u } () g := by
  obtain ⟨_, f₁, hmove, hrest, hstate⟩ := ok_of_bind h.result
  obtain rfl := hmove.state
  refine ⟨_, runs_of_result hmove.result, ?_⟩
  rw [← h.state, show (step f).state = _ from hstate]
  exact runs_of_result hrest

/-- Over a source that does not lead back a filter does not either. -/
theorem rises {r : Key → Key → Prop} (hr : ∀ {k k' k'' : Key}, r k k' → r k' k'' → r k k'')
    (h : Rises r f.source) : Rises r f := by
  intro g g' hg hnext e e' he he'
  have hreached := reached_source hg
  obtain ⟨u, hmove, hsettle⟩ := step_of_runs hnext
  -- all that the source stands at behind the entry follows it
  refine of_settle (s := f.source) (P := fun t => ∀ x ∈ Cursor.top t, r e.1 x.1) ?_ ?_ ?_ hsettle e' he'
  · intro t u ht htop hu hall x hx
    obtain ⟨y, hy⟩ := Option.ne_none_iff_exists'.mp htop
    exact hr (hall y hy) (h ht hu hy hx)
  · rw [← hmove.state]
    exact hreached.next
  · intro x hx
    exact h hreached hmove he hx

end Filter

end CellScan
