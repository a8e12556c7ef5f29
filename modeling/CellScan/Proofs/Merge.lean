/-
`Merge.lean` -- what a merge lists.

A merge over children that never fail never fails either, and it lists what its
children list as one (`Merge.lists`).

The state of a merge is described by the lists that its children lead to: the queue
holds the head of each of them, in order (`Queued`), except for the children that have
just been taken off. Moving one such child on and putting it back leaves a queue of
the same kind (`advance_runs`), so the loop over the children at one key and the step
that uses it keep that description, and what a step does to the lists are the two
equations `merged_step` and `merged_dedupe_step`. Whether calls succeed or fail, the
children stay within what calls on them lead to (`upon_of_reached`).
-/
import CellScan.Merge
import CellScan.Proofs.Calls
import CellScan.Proofs.Parallel

set_option autoImplicit false

namespace CellScan.Merge

open CellScan.Action CellScan.Cursor CellScan.Entry
open List (Forall₂)
open scoped Linear

variable {σ : Type} [Cursor σ]

/-! ## The queue -/

instance : Std.LawfulEqOrd Head where
  compare_self := fun {h} => by
    show (compare h.key h.key).then (compare h.child h.child) = .eq
    rw [Std.ReflOrd.compare_self, Std.ReflOrd.compare_self]
    rfl
  eq_of_compare := by
    intro a b h
    have hboth : compare a.key b.key = .eq ∧ compare a.child b.child = .eq :=
      Ordering.then_eq_eq.mp h
    cases a
    cases b
    rw [Head.mk.injEq]
    exact ⟨Std.LawfulEqOrd.eq_of_compare hboth.1, Std.LawfulEqOrd.eq_of_compare hboth.2⟩

/-- Which of two heads comes first. -/
theorem compare_eq_lt_iff {a b : Head} :
    compare a b = .lt ↔ a.key < b.key ∨ (a.key = b.key ∧ a.child < b.child) := by
  show (compare a.key b.key).then (compare a.child b.child) = .lt ↔ _
  rw [Ordering.then_eq_lt, Std.compare_eq_lt, Std.compare_eq_lt,
    Std.LawfulEqOrd.compare_eq_iff_eq]

theorem mem_insert_iff {x y : Head} {queue : List Head} (h : SortedList.Sorted id queue) :
    y ∈ SortedList.insertBy id x queue ↔ y = x ∨ y ∈ queue := by
  rw [SortedList.mem_insertBy id h]
  constructor
  · rintro (hyx | ⟨hy, -⟩)
    · exact Or.inl hyx
    · exact Or.inr hy
  · intro hy
    by_cases hyx : y = x
    · exact Or.inl hyx
    · refine Or.inr ⟨hy.resolve_left hyx, ?_⟩
      intro heq
      exact hyx (Std.LawfulEqOrd.eq_of_compare heq).symm

theorem mem_insertAll_iff {y : Head} {xs queue : List Head} (h : SortedList.Sorted id queue) :
    y ∈ SortedList.insertAllBy id xs queue ↔ y ∈ xs ∨ y ∈ queue := by
  induction xs generalizing queue with
  | nil => simp [SortedList.insertAllBy]
  | cons x xs ih =>
      -- the fold puts the first in, and the others into what that gives
      have hins := ih (SortedList.sorted_insertBy id x h)
      rw [SortedList.insertAllBy, List.foldl_cons] at *
      rw [hins, mem_insert_iff h, List.mem_cons]
      constructor
      · rintro (hy | hy | hy)
        · exact Or.inl (Or.inr hy)
        · exact Or.inl (Or.inl hy)
        · exact Or.inr hy
      · rintro ((hy | hy) | hy)
        · exact Or.inr (Or.inl hy)
        · exact Or.inl hy
        · exact Or.inr (Or.inr hy)

/-- Putting in what a condition does not hold of leaves the same that it does hold of. -/
theorem filter_insert {p : Head → Bool} {x : Head} (hx : p x = false) (queue : List Head) :
    (SortedList.insertBy id x queue).filter p = queue.filter p := by
  have hx' : ¬ p x = true := by rw [hx]; exact Bool.false_ne_true
  induction queue with
  | nil => rw [SortedList.insertBy_nil, List.filter_cons_of_neg hx']
  | cons y queue ih =>
      rw [SortedList.insertBy]
      split
      · rw [List.filter_cons_of_neg hx']
      · next heq =>
          obtain rfl : x = y := Std.LawfulEqOrd.eq_of_compare heq
          rw [List.filter_cons_of_neg hx']
      · rw [List.filter_cons, List.filter_cons, ih]

/-- The queue holds the head of each list, in order, but for the positions left out. -/
structure Queued (out : List Nat) (ds : List (List Entry)) (queue : List Head) : Prop where
  sorted : SortedList.Sorted id queue
  mem_iff : ∀ h, h ∈ queue ↔ h.child ∉ out ∧ ∃ e es, ds[h.child]? = some (e :: es) ∧ e.1 = h.key

theorem queued_queueOf {children : List σ} {ds : List (List Entry)}
    (h : Forall₂ Leads children ds) : Queued [] ds (queueOf children) := by
  refine ⟨SortedList.sorted_insertAllBy id _ List.Pairwise.nil, ?_⟩
  intro hd
  rw [queueOf, mem_insertAll_iff List.Pairwise.nil, List.mem_filterMap]
  constructor
  · -- a head on the queue is where its child stands
    rintro (⟨⟨c, i⟩, hmem, hkey⟩ | hnil)
    · obtain ⟨k, hk, rfl⟩ := Option.map_eq_some_iff.mp hkey
      obtain ⟨d, hd, hl⟩ := Parallel.exists_right h (List.mk_mem_zipIdx_iff_getElem?.mp hmem)
      rw [hl.topKey] at hk
      rcases d with _ | ⟨e, es⟩
      · exact absurd hk (by simp)
      · exact ⟨List.not_mem_nil, e, es, hd, Option.some.inj hk⟩
    · exact absurd hnil List.not_mem_nil
  · -- and every child that stands at an entry is on it
    rintro ⟨-, e, es, hd', hkey⟩
    obtain ⟨c, hc, hl⟩ := Parallel.exists_left h hd'
    refine Or.inl ⟨(c, hd.child), List.mk_mem_zipIdx_iff_getElem?.mpr hc, ?_⟩
    show (topKey c).map (fun k => Head.mk k hd.child) = some hd
    rw [hl.topKey]
    show some (Head.mk e.1 hd.child) = some hd
    rw [hkey]

/-! ## Leaving a key -/

/-- What is left of a child's list behind a head with a key. -/
def rest (dedupe : Bool) (key : Key) (es : List Entry) : List Entry :=
  if dedupe then es.dropWhile (·.1 = key) else es

theorem rest_sublist (dedupe : Bool) (key : Key) (es : List Entry) :
    (rest dedupe key es).Sublist es := by
  rw [rest]
  split
  · exact List.dropWhile_sublist _
  · exact List.Sublist.refl es

@[simp] theorem rest_true (key : Key) (es : List Entry) :
    rest true key es = es.dropWhile (·.1 = key) := rfl

theorem rest_true_cons (e : Entry) (es : List Entry) :
    rest true e.1 (e :: es) = rest true e.1 es := by
  rw [rest_true, List.dropWhile_cons_of_pos (by simp), rest_true]

/-- What is left does not begin with the key. -/
theorem ne_of_rest_true {key : Key} {es fs : List Entry} {x : Entry}
    (h : rest true key es = x :: fs) : x.1 ≠ key := by
  have hnot := List.head?_dropWhile_not (fun e : Entry => decide (e.1 = key)) es
  rw [rest_true] at h
  rw [h] at hnot
  exact of_decide_eq_false hnot

/-- Where the key does not come first, nothing is left out. -/
theorem rest_true_of_ne {key : Key} {es : List Entry} (h : ∀ x ∈ es.head?, x.1 ≠ key) :
    rest true key es = es := by
  rcases es with _ | ⟨x, es⟩
  · rfl
  · rw [rest_true, List.dropWhile_cons_of_neg (by simpa using h x rfl)]

theorem rest_true_rest_true (key : Key) (es : List Entry) :
    rest true key (rest true key es) = rest true key es := by
  refine rest_true_of_ne ?_
  intro x hx
  obtain ⟨fs, hfs⟩ := List.head?_eq_some_iff.mp hx
  exact ne_of_rest_true hfs

theorem passRepeats_runs {s : σ} {es : List Entry} (h : Leads s es) (key : Key) {n : Nat}
    (hn : es.length < n) :
    ∃ t, Runs (passRepeats key n) s () t ∧ Leads t (es.dropWhile (·.1 = key)) := by
  induction es generalizing s n with
  | nil =>
      obtain ⟨n, rfl⟩ : ∃ k, n = k + 1 := ⟨n - 1, by omega⟩
      have hne : ¬ topKey s = some key := by rw [h.topKey]; simp
      refine ⟨s, (runs_give () s).of_eq ?_, h⟩
      simp only [passRepeats, if_neg hne]
  | cons e es ih =>
      obtain ⟨n, rfl⟩ : ∃ k, n = k + 1 := ⟨n - 1, by omega⟩
      have htop : topKey s = some e.1 := by rw [h.topKey]; rfl
      by_cases hkey : e.1 = key
      · -- a repeat of the key is left, and the others after it
        obtain ⟨t, ht, hlt⟩ := h.tail
        obtain ⟨u, hu, hlu⟩ := ih hlt (Nat.lt_of_succ_lt_succ hn)
        rw [hkey] at htop
        refine ⟨u, (ht.bind (f := fun _ => _) hu).of_eq ?_, ?_⟩
        · simp only [passRepeats, if_pos htop]
        · rw [List.dropWhile_cons_of_pos (by simp [hkey])]
          exact hlu
      · -- a later key: the child stays where it is
        have hne : ¬ topKey s = some key := by
          rw [htop, Option.some.injEq]
          exact hkey
        refine ⟨s, (runs_give () s).of_eq ?_, ?_⟩
        · simp only [passRepeats, if_neg hne]
        · rw [List.dropWhile_cons_of_neg (by simp [hkey])]
          exact h

theorem leave_runs {s : σ} {e : Entry} {es : List Entry} (h : Leads s (e :: es)) (dedupe : Bool)
    (key : Key) : ∃ t, Runs (leave dedupe key) s () t ∧ Leads t (rest dedupe key es) := by
  obtain ⟨t, ht, hlt⟩ := h.tail
  by_cases hd : dedupe = true
  · have hlen : es.length < Cursor.reach s + 1 := Nat.lt_succ_of_lt h.length_le
    obtain ⟨u, hu, hlu⟩ := passRepeats_runs hlt key hlen
    refine ⟨u, (ht.bind (f := fun _ => _) hu).of_eq ?_, ?_⟩
    · simp only [leave, if_pos hd]
    · rw [rest, if_pos hd]
      exact hlu
  · refine ⟨t, ht.of_eq ?_, ?_⟩
    · simp only [leave, if_neg hd]
    · rw [rest, if_neg hd]
      exact hlt

/-! ## Taking children off the queue and putting them back -/

theorem Queued.least {out : List Nat} {ds : List (List Entry)} {head : Head} {queue : List Head}
    (h : Queued out ds (head :: queue)) {x : Head} (hx : x ∈ head :: queue) :
    head.key ≤ x.key ∧ (x.child < head.child → head.key < x.key) := by
  rcases List.mem_cons.mp hx with rfl | hx
  · exact ⟨le_refl _, fun hlt => absurd hlt (lt_irrefl _)⟩
  · rcases compare_eq_lt_iff.mp ((List.pairwise_cons.mp h.sorted).1 x hx) with hlt | ⟨heq, hchild⟩
    · exact ⟨le_of_lt hlt, fun _ => hlt⟩
    · exact ⟨le_of_eq heq, fun hgt => absurd hgt (lt_asymm hchild)⟩

/-- Where the heads of one child have one key, no child waits twice: a head does not come
before itself. -/
theorem child_ne_of_sorted {head : Head} {queue : List Head}
    (h : SortedList.Sorted id (head :: queue)) {x : Head} (hx : x ∈ queue)
    (hkey : x.child = head.child → x.key = head.key) : x.child ≠ head.child := by
  intro heq
  have hlt := (List.pairwise_cons.mp h).1 x hx
  rw [id, id, compare_eq_lt_iff, heq, hkey heq] at hlt
  rcases hlt with hlt | ⟨-, hlt⟩
  · exact lt_irrefl _ hlt
  · exact lt_irrefl _ hlt

/-- Two children do not wait under one number. -/
theorem Queued.child_ne {out : List Nat} {ds : List (List Entry)} {head : Head}
    {queue : List Head} (h : Queued out ds (head :: queue)) {x : Head} (hx : x ∈ queue) :
    x.child ≠ head.child := by
  refine child_ne_of_sorted h.sorted hx fun heq => ?_
  -- both would be the head of one list
  obtain ⟨-, e, es, hd, hk⟩ := (h.mem_iff head).mp List.mem_cons_self
  obtain ⟨-, f, fs, hf, hkf⟩ := (h.mem_iff x).mp (List.mem_cons_of_mem head hx)
  rw [heq, hd, Option.some.injEq, List.cons.injEq] at hf
  rw [← hk, ← hkf, hf.1]

/-- Taking the first head off leaves its child out. -/
theorem Queued.tail {out : List Nat} {ds : List (List Entry)} {head : Head} {queue : List Head}
    (h : Queued out ds (head :: queue)) : Queued (head.child :: out) ds queue := by
  refine ⟨(List.pairwise_cons.mp h.sorted).2, ?_⟩
  intro x
  constructor
  · intro hx
    obtain ⟨hout, hd⟩ := (h.mem_iff x).mp (List.mem_cons_of_mem head hx)
    refine ⟨?_, hd⟩
    rw [List.mem_cons]
    rintro (heq | hin)
    · exact h.child_ne hx heq
    · exact hout hin
  · rintro ⟨hout, hd⟩
    rw [List.mem_cons, not_or] at hout
    have hx := (h.mem_iff x).mpr ⟨hout.2, hd⟩
    refine (List.mem_cons.mp hx).resolve_left ?_
    rintro rfl
    exact hout.1 rfl

/-- The queue with a child put back that leads to some entries. -/
def requeue (child : Nat) (d : List Entry) (queue : List Head) : List Head :=
  match d with
  | [] => queue
  | e :: _ => SortedList.insertBy id ⟨e.1, child⟩ queue

/-- A child that is put back waits with the others. -/
theorem Queued.requeue {child : Nat} {out : List Nat} {ds : List (List Entry)} {queue : List Head}
    (h : Queued (child :: out) ds queue) (hout : child ∉ out) (hlen : child < ds.length)
    (d : List Entry) : Queued out (ds.set child d) (requeue child d queue) := by
  have haway : ∀ y ∈ queue, y.child ≠ child := by
    intro y hy heq
    exact ((h.mem_iff y).mp hy).1 (heq ▸ List.mem_cons_self)
  -- the queue as it was, for the other children
  have hothers : ∀ y : Head, y.child ≠ child → (y ∈ queue ↔ y.child ∉ out
      ∧ ∃ e es, (ds.set child d)[y.child]? = some (e :: es) ∧ e.1 = y.key) := by
    intro y hne
    rw [h.mem_iff y, List.getElem?_set_ne (Ne.symm hne), List.mem_cons, not_or]
    exact and_congr_left fun _ => and_iff_right hne
  -- a child with nothing left does not come back, any other waits at its next key
  rcases d with _ | ⟨x, xs⟩
  · refine ⟨h.sorted, ?_⟩
    intro y
    by_cases hy : y.child = child
    · rw [hy, List.getElem?_set_self hlen]
      constructor
      · intro hmem
        exact absurd hy (haway y hmem)
      · rintro ⟨-, e, es, hd, -⟩
        exact absurd hd (by simp)
    · exact hothers y hy
  · refine ⟨SortedList.sorted_insertBy id _ h.sorted, ?_⟩
    intro y
    rw [Merge.requeue, mem_insert_iff h.sorted]
    by_cases hy : y.child = child
    · rw [hy, List.getElem?_set_self hlen]
      constructor
      · rintro (rfl | hmem)
        · exact ⟨hout, x, xs, rfl, rfl⟩
        · exact absurd hy (haway y hmem)
      · rintro ⟨-, e, es, hd, hkey⟩
        rw [Option.some.injEq, List.cons.injEq] at hd
        left
        rw [hd.1, hkey, ← hy]
    · rw [← hothers y hy]
      refine or_iff_right ?_
      rintro rfl
      exact hy rfl

/-! ## Moving a child -/

/-- A child is moved where it stands. -/
theorem move_apply {m : Merge σ} {child : Nat} {s : σ} (hs : m.children[child]? = some s)
    (key : Key) :
    (Action.on children (fun m cs => { m with children := cs })
        (Action.onItem child () (leave m.dedupe key))) m
      = (leave m.dedupe key s).within fun t => { m with children := m.children.set child t } := by
  simp only [Action.on, Action.onItem, hs]
  rfl

/-- A child that can be moved off the key is put back where it has come to. -/
theorem advance_of_moved {m : Merge σ} {child : Nat} {key : Key} {s t : σ} {events : List Event}
    (hs : m.children[child]? = some s) (hleave : leave m.dedupe key s = ⟨.ok (), t, events⟩) :
    advance child key m
      = ⟨(rejoin child key { m with children := m.children.set child t }).result,
          (rejoin child key { m with children := m.children.set child t }).state,
          events ++ (rejoin child key { m with children := m.children.set child t }).events⟩ := by
  have hmove := move_apply hs key
  rw [hleave] at hmove
  exact bind_apply_ok (f := fun _ => rejoin child key) hmove

/-- A child that fails stays off the queue, and the others are left where they are. -/
theorem advance_of_stuck {m : Merge σ} {child : Nat} {key : Key} {s t : σ} {fault : Fault}
    {events : List Event} (hs : m.children[child]? = some s)
    (hleave : leave m.dedupe key s = ⟨.error fault, t, events⟩) :
    advance child key m
      = ⟨.error fault, { m with children := m.children.set child t }, events⟩ := by
  have hmove := move_apply hs key
  rw [hleave] at hmove
  exact bind_apply_error (f := fun _ => rejoin child key) hmove

theorem childKey_set {m : Merge σ} {child : Nat} {s : σ} (hs : m.children[child]? = some s)
    (t : σ) : childKey { m with children := m.children.set child t } child = topKey t := by
  have hlen : child < m.children.length := (List.getElem?_eq_some_iff.mp hs).1
  rw [childKey, List.getElem?_set_self hlen, Option.bind_some]

/-- A merge that stands where its children lead to some lists, with some of them off the
queue. -/
structure Standing (out : List Nat) (m : Merge σ) (ds : List (List Entry)) : Prop where
  leads : Forall₂ Leads m.children ds
  ascending : ∀ d ∈ ds, Ascending d
  queued : Queued out ds m.queue

/-- A child that is off the queue moves on from the key it stands at and is put back. -/
theorem advance_runs {out : List Nat} {m : Merge σ} {ds : List (List Entry)} {child : Nat}
    {e : Entry} {es : List Entry} (h : Standing (child :: out) m ds) (hout : child ∉ out)
    (hd : ds[child]? = some (e :: es)) :
    ∃ m', Runs (advance child e.1) m () m' ∧ m'.dedupe = m.dedupe
      ∧ Standing out m' (ds.set child (rest m.dedupe e.1 es))
      ∧ m'.queue = requeue child (rest m.dedupe e.1 es) m.queue := by
  obtain ⟨c, hc, hl⟩ := Parallel.exists_left h.leads hd
  obtain ⟨t, ht, hlt⟩ := leave_runs hl m.dedupe e.1
  have hlen : child < ds.length := (List.getElem?_eq_some_iff.mp hd).1
  have hasc := ascending_cons.mp (h.ascending _ (List.mem_of_getElem? hd))
  have hleads := Parallel.set h.leads hlt child
  have hqueued := h.queued.requeue hout hlen (rest m.dedupe e.1 es)
  have hascs : ∀ d ∈ ds.set child (rest m.dedupe e.1 es), Ascending d := by
    intro d hmem
    rcases List.mem_or_eq_of_mem_set hmem with hmem | rfl
    · exact h.ascending d hmem
    · exact hasc.2.sublist (rest_sublist _ _ _)
  -- the key that it is put back under is where it stands now
  have hkey : childKey { m with children := m.children.set child t } child
      = (rest m.dedupe e.1 es).head?.map Prod.fst := (childKey_set hc t).trans hlt.topKey
  have hjoin : rejoin child e.1 { m with children := m.children.set child t }
      = ⟨.ok (), { m with
          children := m.children.set child t
          queue := requeue child (rest m.dedupe e.1 es) m.queue }, []⟩ := by
    rw [rejoin, hkey]
    -- what the child leads to does not lie before the key, so it may go on
    rcases hrest : rest m.dedupe e.1 es with _ | ⟨x, xs⟩
    · rfl
    · have hmem : x ∈ es := (rest_sublist m.dedupe e.1 es).mem (by rw [hrest]; exact List.mem_cons_self)
      show (if x.1 < e.1 then _ else _) = _
      rw [if_neg (not_lt.mpr (hasc.1 x hmem))]
      rfl
  obtain ⟨events, hleave⟩ := ht
  have hadvance := advance_of_moved hc hleave
  rw [hjoin] at hadvance
  exact ⟨{ m with
    children := m.children.set child t
    queue := requeue child (rest m.dedupe e.1 es) m.queue },
    ⟨_, hadvance⟩, rfl, ⟨hleads, hascs, hqueued⟩, rfl⟩

/-! ## Leaving a key with all children that stand at it -/

/-- How many heads wait at a key. -/
def waiting (key : Key) (queue : List Head) : Nat := (queue.filter (·.key = key)).length

theorem waiting_cons {key : Key} {head : Head} (h : head.key = key) (queue : List Head) :
    waiting key (head :: queue) = waiting key queue + 1 := by
  rw [waiting, List.filter_cons_of_pos (by simp [h]), List.length_cons, waiting]

theorem waiting_requeue {key : Key} {child : Nat} {es : List Entry} {queue : List Head} :
    waiting key (requeue child (rest true key es) queue) = waiting key queue := by
  rcases h : rest true key es with _ | ⟨x, xs⟩
  · rfl
  · rw [requeue, waiting, filter_insert (decide_eq_false (ne_of_rest_true h)), waiting]

/-- Once no head waits at the key, or none is left, the children at a key are done. -/
theorem ne_of_waiting {key : Key} {queue : List Head} (h : waiting key queue = 0) :
    ∀ x ∈ queue, x.key ≠ key := by
  intro x hx heq
  have hmem : x ∈ queue.filter (·.key = key) := List.mem_filter.mpr ⟨hx, decide_eq_true heq⟩
  rw [waiting, List.length_eq_zero_iff] at h
  rw [h] at hmem
  exact List.not_mem_nil hmem

theorem least_of_mem_requeue {child : Nat} {d : List Entry} {queue : List Head} {x : Head}
    (h : x ∈ requeue child d queue) : (∃ y ∈ d, x.key = y.1) ∨ x ∈ queue := by
  rcases d with _ | ⟨y, d⟩
  · exact Or.inr h
  · rcases SortedList.eq_or_mem_of_mem_insertBy id h with rfl | hmem
    · exact Or.inl ⟨y, List.mem_cons_self, rfl⟩
    · exact Or.inr hmem

/-- Passing the key in one list does not show once it is passed in all of them. -/
theorem map_rest_set {ds : List (List Entry)} {i : Nat} {e : Entry} {es : List Entry}
    (hd : ds[i]? = some (e :: es)) :
    (ds.set i (rest true e.1 es)).map (rest true e.1) = ds.map (rest true e.1) := by
  obtain ⟨hi, heq⟩ := List.getElem?_eq_some_iff.mp hd
  have hi' : i < (ds.map (rest true e.1)).length := by rw [List.length_map]; exact hi
  have hself := List.set_getElem_self hi'
  rw [List.getElem_map, heq, rest_true_cons] at hself
  rw [List.map_set, rest_true_rest_true, hself]

omit [Cursor σ] in
/-- Either a head waits at the key in front, or the queue is empty or starts elsewhere. -/
theorem front_cases (key : Key) (m : Merge σ) :
    (∀ head ∈ m.queue.head?, head.key ≠ key)
      ∨ ∃ head queue, m.queue = head :: queue ∧ head.key = key := by
  rcases hq : m.queue with _ | ⟨head, queue⟩
  · exact Or.inl fun head hhead => absurd hhead (Option.not_mem_none head)
  · by_cases hkey : head.key = key
    · exact Or.inr ⟨head, queue, rfl, hkey⟩
    · left
      rintro _ ⟨⟩
      exact hkey

/-- Where no head waits at the key in front, no child moves. -/
theorem advancePeers_of_ne {key : Key} {m : Merge σ} (h : ∀ head ∈ m.queue.head?, head.key ≠ key)
    (n : Nat) : advancePeers key n m = Action.give () m := by
  rcases n with _ | n
  · rfl
  · rcases hq : m.queue with _ | ⟨head, queue⟩
    · simp only [advancePeers, hq]
    · rw [hq] at h
      simp only [advancePeers, hq, if_neg (h head rfl)]

/-- The child in front moves past its key before the others at that key do. -/
theorem advancePeers_of_cons {m : Merge σ} {head : Head} {queue : List Head}
    (h : m.queue = head :: queue) (n : Nat) :
    advancePeers head.key (n + 1) m
      = (advance head.child head.key >>= fun _ => advancePeers head.key n) { m with queue } := by
  simp only [advancePeers, h, if_true]

/-- With `c` off the queue the other children at the least key all move past it. -/
theorem advancePeers_runs {c : Nat} {key : Key} {m : Merge σ} {ds : List (List Entry)}
    (hdedupe : m.dedupe = true) (h : Standing [c] m ds) (hleast : ∀ x ∈ m.queue, key ≤ x.key)
    {n : Nat} (hn : waiting key m.queue ≤ n) :
    ∃ m' ds', Runs (advancePeers key n) m () m' ∧ m'.dedupe = true ∧ Standing [c] m' ds'
      ∧ (∀ x ∈ m'.queue, x.key ≠ key) ∧ ds'[c]? = ds[c]?
      ∧ ds'.map (rest true key) = ds.map (rest true key) := by
  induction n generalizing m ds with
  | zero =>
      -- no head waits at the key any more
      refine ⟨m, ds, runs_give () m, hdedupe, h, ?_, rfl, rfl⟩
      exact ne_of_waiting (Nat.le_zero.mp hn)
  | succ n ih =>
      rcases front_cases key m with hfront | ⟨head, queue, hq, rfl⟩
      · refine ⟨m, ds, (runs_give () m).of_eq (advancePeers_of_ne hfront _), hdedupe, h, ?_, rfl, rfl⟩
        -- the first head waits at a later key, and with it all the others
        intro x hx heq
        obtain ⟨head, queue, hq⟩ := List.exists_cons_of_ne_nil (List.ne_nil_of_mem hx)
        have hqueued := h.queued
        rw [hq] at hx hfront hleast hqueued
        have hle := (hqueued.least hx).1
        rw [heq] at hle
        exact hfront head rfl (le_antisymm hle (hleast head List.mem_cons_self))
      · have hqueued := h.queued
        rw [hq] at hn hleast hqueued
        obtain ⟨hout, e, es, hd, he⟩ := (hqueued.mem_iff head).mp List.mem_cons_self
        have htail : Standing [head.child, c] { m with queue } ds :=
          ⟨h.leads, h.ascending, hqueued.tail⟩
        obtain ⟨m₁, hm₁, hdedupe₁, hst₁, hq₁⟩ := advance_runs htail hout hd
        rw [hdedupe] at hst₁ hq₁
        have hasc := ascending_cons.mp (h.ascending _ (List.mem_of_getElem? hd))
        -- the child waits at a later key now, so there is one less to wait for
        have hleast₁ : ∀ x ∈ m₁.queue, head.key ≤ x.key := by
          intro x hx
          rw [hq₁] at hx
          rcases least_of_mem_requeue hx with ⟨y, hy, hyx⟩ | hmem
          · rw [hyx, ← he]
            exact hasc.1 y ((rest_sublist _ _ _).mem hy)
          · exact hleast x (List.mem_cons_of_mem head hmem)
        have hn₁ : waiting head.key m₁.queue ≤ n := by
          rw [hq₁, he, waiting_requeue]
          exact Nat.le_of_succ_le_succ ((waiting_cons rfl queue).symm.trans_le hn)
        obtain ⟨m', ds', hm', hdedupe', hst', hne, hc, hmap⟩ :=
          ih (hdedupe₁.trans hdedupe) hst₁ hleast₁ hn₁
        have hne_c : head.child ≠ c := fun heq => hout (heq ▸ List.mem_cons_self)
        refine ⟨m', ds', ?_, hdedupe', hst', hne, ?_, ?_⟩
        · rw [he] at hm₁
          exact (hm₁.bind (f := fun _ => advancePeers head.key n) hm').of_eq
            (advancePeers_of_cons hq n)
        · rw [hc, List.getElem?_set_ne hne_c]
        · rw [hmap, ← he, map_rest_set hd]

/-! ## A step -/

theorem step_of_nil {m : Merge σ} (h : m.queue = []) : step m = Action.fail .nothingToLeave m := by
  simp only [step, h]

theorem step_of_cons {m : Merge σ} {head : Head} {queue : List Head} (h : m.queue = head :: queue) :
    step m = ((if m.dedupe then advancePeers head.key queue.length else pure ()) >>= fun _ =>
      advance head.child head.key) { m with queue } := by
  simp only [step, h]
  by_cases hd : m.dedupe = true
  · rw [if_pos hd, if_pos hd]
  · rw [if_neg hd, if_neg hd]
    rfl

/-- The first head waits at the least key, and at one before those of earlier lists. -/
theorem Standing.least {m : Merge σ} {ds : List (List Entry)} (h : Standing [] m ds) {head : Head}
    {queue : List Head} (hq : m.queue = head :: queue) {j : Nat} {d : List Entry}
    (hd : ds[j]? = some d) {x : Entry} (hx : x ∈ d) :
    head.key ≤ x.1 ∧ (j < head.child → head.key < x.1) := by
  have hqueued := h.queued
  rw [hq] at hqueued
  rcases d with _ | ⟨y, d⟩
  · exact absurd hx List.not_mem_nil
  · have hyx : y.1 ≤ x.1 := by
      rcases List.mem_cons.mp hx with rfl | hx
      · exact le_refl _
      · exact (ascending_cons.mp (h.ascending _ (List.mem_of_getElem? hd))).1 x hx
    have hmem : Head.mk y.1 j ∈ head :: queue :=
      (hqueued.mem_iff ⟨y.1, j⟩).mpr ⟨List.not_mem_nil, y, d, hd, rfl⟩
    obtain ⟨hle, hlt⟩ := hqueued.least hmem
    exact ⟨le_trans hle hyx, fun hj => lt_of_lt_of_le (hlt hj) hyx⟩

/-- The lists before that of the first head have later keys only. -/
theorem Standing.lt_of_mem_take {m : Merge σ} {ds : List (List Entry)} (h : Standing [] m ds)
    {head : Head} {queue : List Head} (hq : m.queue = head :: queue) :
    ∀ x ∈ (ds.take head.child).flatten, head.key < x.1 := by
  intro x hx
  obtain ⟨d, hdm, hxd⟩ := List.mem_flatten.mp hx
  obtain ⟨j, hj, hdj⟩ := List.mem_take_iff_getElem.mp hdm
  have hj' : j < head.child ∧ j < ds.length := by omega
  exact (h.least hq (List.getElem?_eq_some_iff.mpr ⟨hj'.2, hdj⟩) hxd).2 hj'.1

/-- The lists after it have no earlier ones. -/
theorem Standing.le_of_mem_drop {m : Merge σ} {ds : List (List Entry)} (h : Standing [] m ds)
    {head : Head} {queue : List Head} (hq : m.queue = head :: queue) :
    ∀ x ∈ (ds.drop (head.child + 1)).flatten, head.key ≤ x.1 := by
  intro x hx
  obtain ⟨d, hdm, hxd⟩ := List.mem_flatten.mp hx
  obtain ⟨j, hj, hdj⟩ := List.mem_iff_getElem.mp (List.mem_of_mem_drop hdm)
  exact (h.least hq (List.getElem?_eq_some_iff.mpr ⟨hj, hdj⟩) hxd).1

/-- Once the others have passed the key, the child that is off the queue is the only one
that still stands at it. -/
theorem Standing.set_rest {c : Nat} {m : Merge σ} {ds : List (List Entry)} (h : Standing [c] m ds)
    {e : Entry} {es : List Entry} (hne : ∀ x ∈ m.queue, x.key ≠ e.1)
    (hc : ds[c]? = some (e :: es)) :
    ds.set c (rest true e.1 es) = ds.map (rest true e.1) := by
  apply List.ext_getElem?
  intro j
  rw [List.getElem?_map]
  by_cases hj : j = c
  · obtain ⟨hlen, -⟩ := List.getElem?_eq_some_iff.mp hc
    rw [hj, List.getElem?_set_self hlen, hc, Option.map_some, rest_true_cons]
  · rw [List.getElem?_set_ne (Ne.symm hj)]
    rcases hd : ds[j]? with _ | d
    · rfl
    · rw [Option.map_some, rest_true_of_ne]
      intro y hy
      obtain ⟨d', rfl⟩ := List.head?_eq_some_iff.mp hy
      have hout : j ∉ [c] := by
        rw [List.mem_singleton]
        exact hj
      exact hne ⟨y.1, j⟩ ((h.queued.mem_iff ⟨y.1, j⟩).mpr ⟨hout, y, d', hd, rfl⟩)

/-- A merge with a head on its queue stands at an entry, and a step leads from there to
what the merge of the lists leaves. -/
theorem step_runs {m : Merge σ} {ds : List (List Entry)} (h : Standing [] m ds) {head : Head}
    {queue : List Head} (hq : m.queue = head :: queue) :
    ∃ e m' ds', Cursor.top m = some e ∧ Runs step m () m' ∧ m'.dedupe = m.dedupe
      ∧ Standing [] m' ds' ∧ merged m.dedupe ds = e :: merged m.dedupe ds' := by
  have hqueued := h.queued
  rw [hq] at hqueued
  obtain ⟨-, e, es, hd, he⟩ := (hqueued.mem_iff head).mp List.mem_cons_self
  obtain ⟨hi, hget⟩ := List.getElem?_eq_some_iff.mp hd
  have htop : Cursor.top m = some e := by
    obtain ⟨c, hc, hl⟩ := Parallel.exists_left h.leads hd
    show m.queue.head?.bind (fun head => (m.children[head.child]?).bind Cursor.top) = _
    rw [hq, List.head?_cons, Option.bind_some, hc, Option.bind_some, hl.head?, List.head?_cons]
  have htail : Standing [head.child] { m with queue } ds := ⟨h.leads, h.ascending, hqueued.tail⟩
  -- the lists before that of the head, that list, and those after it
  have hset : ∀ d, ds.set head.child d
      = ds.take head.child ++ d :: ds.drop (head.child + 1) := by
    intro d
    rw [List.set_eq_take_append_cons_drop, if_pos hi]
  have hsplit : ds = ds.take head.child ++ (e :: es) :: ds.drop (head.child + 1) := by
    rw [← hset, ← hget, List.set_getElem_self]
  have hpre : ∀ x ∈ (ds.take head.child).flatten, e.1 < x.1 := by
    rw [he]
    exact h.lt_of_mem_take hq
  have hpost : ∀ x ∈ (ds.drop (head.child + 1)).flatten, e.1 ≤ x.1 := by
    rw [he]
    exact h.le_of_mem_drop hq
  have hasc := ascending_cons.mp (h.ascending _ (List.mem_of_getElem? hd))
  by_cases hdedupe : m.dedupe = true
  · -- first the other children pass the key, then the one that shows it
    have hleast : ∀ x ∈ queue, e.1 ≤ x.key := by
      intro x hx
      rw [he]
      exact (hqueued.least (List.mem_cons_of_mem head hx)).1
    obtain ⟨m₁, ds₁, hm₁, hded₁, hst₁, hne, hc, hmap⟩ :=
      advancePeers_runs (m := { m with queue }) hdedupe htail hleast (List.length_filter_le _ queue)
    rw [hd] at hc
    obtain ⟨m', hm', hded', hst', -⟩ := advance_runs hst₁ List.not_mem_nil hc
    rw [hded₁] at hst' hded'
    have hall := hst₁.set_rest hne hc
    refine ⟨e, m', _, htop, ?_, hded'.trans hdedupe.symm, hst', ?_⟩
    · refine (hm₁.bind (f := fun _ => advance head.child e.1) hm').of_eq ?_
      rw [step_of_cons hq, if_pos hdedupe, ← he]
    · rw [hall, hmap, hdedupe]
      exact merged_dedupe_step hsplit h.ascending hpre hasc.1 hpost
  · obtain ⟨m', hm', hded', hst', -⟩ := advance_runs htail List.not_mem_nil hd
    have hfalse : m.dedupe = false := Bool.eq_false_of_not_eq_true hdedupe
    refine ⟨e, m', _, htop, ?_, hded', hst', ?_⟩
    · rw [he] at hm'
      refine ((runs_pure () _).bind (f := fun _ => advance head.child head.key) hm').of_eq ?_
      rw [step_of_cons hq, if_neg hdedupe]
    · show merged m.dedupe ds = e :: merged m.dedupe (ds.set head.child (rest m.dedupe e.1 es))
      rw [hfalse, hset, rest, if_neg Bool.false_ne_true, ← merged_step hpre hasc.1 hpost, ← hsplit]

/-! ## Copies -/

/-- A merge of other children that has not been placed. -/
def copied (m : Merge σ) (children : List σ) (env : Environment) : Merge σ :=
  ⟨children, [], m.dedupe, m.account.map fun _ => env.account⟩

theorem copy_of_forall₂ {m : Merge σ} {env : Environment} {us : List σ}
    (h : Forall₂ (fun c u => Cursor.copy env c = .ok u) m.children us) :
    Cursor.copy env m = .ok (m.copied us env) := by
  show (m.children.mapM (Cursor.copy env)).map _ = _
  rw [Parallel.mapM_ok h]
  rfl

/-- What is copied is the children. -/
theorem exists_of_copy {m u : Merge σ} {env : Environment} (h : Cursor.copy env m = .ok u) :
    ∃ us, Forall₂ (fun c u => Cursor.copy env c = .ok u) m.children us ∧ u = m.copied us env := by
  obtain ⟨us, hus, rfl⟩ := exists_of_map_ok (x := m.children.mapM (Cursor.copy env)) h
  exact ⟨us, Parallel.of_mapM_ok hus, rfl⟩

/-! ## What every call keeps -/

/-- The children are where calls on those of `cs` lead to. -/
def Upon (cs : List σ) (m : Merge σ) : Prop := Forall₂ Reached cs m.children

variable {cs : List σ}

theorem keeps_passRepeats {s : σ} (key : Key) (n : Nat) : Keeps (Reached s) (passRepeats key n) := by
  induction n with
  | zero => exact keeps_fail _
  | succ n ih =>
      intro t ht
      simp only [passRepeats]
      split
      · exact Keeps.bind (fun _ hu => hu.next) (fun _ => ih) t ht
      · exact ht

theorem keeps_leave {s : σ} (dedupe : Bool) (key : Key) : Keeps (Reached s) (leave dedupe key) := by
  intro t ht
  simp only [leave]
  split
  · exact Keeps.bind (fun _ hu => hu.next) (fun _ => keeps_passRepeats key _) t ht
  · exact ht.next

/-- Kept whatever the queue, and by calls on the children. -/
structure Kept (I : Merge σ → Prop) : Prop where
  queue : ∀ m queue, I m → I { m with queue }
  seek : ∀ range families, Keeps I (Action.on children (fun m cs => { m with children := cs })
    (Action.onEach (Cursor.seek range families)))
  leave : ∀ child dedupe key, Keeps I (Action.on children (fun m cs => { m with children := cs })
    (Action.onItem child () (leave dedupe key)))

namespace Kept

variable {I : Merge σ → Prop}

theorem rejoin (h : Kept I) (child : Nat) (key : Key) : Keeps I (Merge.rejoin child key) := by
  intro m hm
  rw [Merge.rejoin]
  split
  · exact hm
  · split
    · exact h.queue m [] hm
    · exact h.queue m _ hm

theorem advance (h : Kept I) (child : Nat) (key : Key) : Keeps I (Merge.advance child key) :=
  (keeps_look _).bind fun dedupe => (h.leave child dedupe key).bind fun _ => h.rejoin child key

theorem advancePeers (h : Kept I) (key : Key) (n : Nat) : Keeps I (Merge.advancePeers key n) := by
  induction n with
  | zero => exact keeps_give ()
  | succ n ih =>
      intro m hm
      rcases front_cases key m with hfront | ⟨head, queue, hq, rfl⟩
      · rw [advancePeers_of_ne hfront]
        exact hm
      · rw [advancePeers_of_cons hq]
        exact (h.advance head.child head.key).bind (fun _ => ih) _ (h.queue m queue hm)

theorem step (h : Kept I) : Keeps I (Merge.step : Action (Merge σ) Unit) := by
  intro m hm
  rcases hq : m.queue with _ | ⟨head, queue⟩
  · rw [step_of_nil hq]
    exact hm
  · rw [step_of_cons hq]
    refine Keeps.bind ?_ (fun _ => h.advance head.child head.key) _ (h.queue m queue hm)
    split
    · exact h.advancePeers head.key queue.length
    · exact keeps_pure ()

theorem place (h : Kept I) (range : Range) (families : FamilyFilter) :
    Keeps I (Merge.place range families) := by
  have hclear : Keeps I (change fun m : Merge σ => { m with queue := [] }) :=
    keeps_change fun m hm => h.queue m [] hm
  have hqueue : Keeps I (change fun m : Merge σ => { m with queue := queueOf m.children }) :=
    keeps_change fun m hm => h.queue m _ hm
  exact hclear.bind fun _ => (h.seek range families).bind fun _ => hqueue

end Kept

theorem kept_upon : Kept (Upon cs) where
  queue _ _ hm := hm
  seek range families _ hm := Parallel.onEach_state hm fun _ _ ht => ht.seek range families
  leave child dedupe key _ hm :=
    Parallel.onItem_state hm child fun _ t ht => keeps_leave dedupe key t ht

theorem kept_dedupe (dedupe : Bool) : Kept fun m : Merge σ => m.dedupe = dedupe where
  queue _ _ hm := hm
  seek _ _ _ hm := hm
  leave _ _ _ _ hm := hm

/-- Calls and copies leave the children where calls and copies on them lead to. -/
theorem upon_reached {m m' : Merge σ} (h : Reached m m') :
    Upon m.children m' ∧ m'.dedupe = m.dedupe := by
  induction h with
  | here => exact ⟨List.forall₂_same.mpr fun _ _ => .here, rfl⟩
  | seek range families _ ih =>
      exact ⟨kept_upon.place range families _ ih.1, (kept_dedupe m.dedupe).place range families _ ih.2⟩
  | next _ ih => exact ⟨kept_upon.step _ ih.1, (kept_dedupe m.dedupe).step _ ih.2⟩
  | @copy m u env _ hcopy ih =>
      obtain ⟨us, hus, rfl⟩ := exists_of_copy hcopy
      exact ⟨Parallel.trans ih.1 hus fun _ _ _ hc hu => hc.copy env hu, ih.2⟩

theorem upon_of_reached {children : List σ} {dedupe : Bool} {account : Option Account}
    {m : Merge σ} (h : Reached (ofChildren children dedupe account) m) :
    Upon children m ∧ m.dedupe = dedupe := upon_reached h

/-! ## What a merge lists -/

theorem length_flatten_le {children : List σ} {ds : List (List Entry)}
    (h : Forall₂ Leads children ds) :
    ds.flatten.length ≤ (children.map Cursor.reach).foldr (· + ·) 0 := by
  induction h with
  | nil => exact Nat.zero_le _
  | cons hl _ ih =>
      rw [List.flatten_cons, List.length_append, List.map_cons, List.foldr_cons]
      exact Nat.add_le_add hl.length_le ih

/-- A merge leads through what its children lead through, as one. -/
theorem leads {m : Merge σ} {ds : List (List Entry)} (h : Standing [] m ds) :
    Leads m (merged m.dedupe ds) := by
  generalize hn : (merged m.dedupe ds).length = n
  induction n using Nat.strongRecOn generalizing m ds with
  | ind n ih =>
      rcases hq : m.queue with _ | ⟨head, queue⟩
      · -- an empty queue: every child has come to its end
        have hnil : ∀ d ∈ ds, d = [] := by
          intro d hd
          obtain ⟨j, hj⟩ := List.mem_iff_getElem?.mp hd
          rcases d with _ | ⟨e, es⟩
          · rfl
          · have hmem := (h.queued.mem_iff ⟨e.1, j⟩).mpr ⟨List.not_mem_nil, e, es, hj, rfl⟩
            rw [hq] at hmem
            exact absurd hmem List.not_mem_nil
        rw [merged_nil hnil]
        refine Leads.done ?_
        show m.queue.head?.bind _ = none
        rw [hq]
        rfl
      · obtain ⟨e, m', ds', htop, hstep, hdedupe, hst, hmerged⟩ := step_runs h hq
        have hlen := (length_merged_le m.dedupe ds).trans (length_flatten_le h.leads)
        rw [hmerged, List.length_cons] at hn hlen
        have hrest := ih (merged m.dedupe ds').length (by omega) hst (by rw [hdedupe])
        rw [hdedupe] at hrest
        rw [hmerged]
        exact Leads.more htop hstep hlen hrest

/-- Where calls do not change what a cursor reaches, they do not change what all reach. -/
theorem map_reach {cs' : List σ} (h : ∀ c ∈ cs, ∀ t, Reached c t → Cursor.reach t = Cursor.reach c)
    (hcs : Forall₂ Reached cs cs') : cs'.map Cursor.reach = cs.map Cursor.reach := by
  induction hcs with
  | nil => rfl
  | @cons c t cs cs' ht _ ih =>
      rw [List.map_cons, List.map_cons, h c List.mem_cons_self t ht,
        ih fun c hc => h c (List.mem_cons_of_mem _ hc)]

/-- A merge is standing wherever its children stand. -/
theorem standing_queueOf {m : Merge σ} {ds : List (List Entry)}
    (h : Forall₂ (fun c d => Leads c d ∧ Ascending d) m.children ds)
    (hq : m.queue = queueOf m.children) : Standing [] m ds := by
  have hleads : Forall₂ Leads m.children ds := h.imp fun _ _ => And.left
  refine ⟨hleads, Parallel.forall_right h fun _ _ => And.right, ?_⟩
  rw [hq]
  exact queued_queueOf hleads

/-- A merge is standing where its children stand at nothing and nobody waits. -/
theorem standing_of_idle {m : Merge σ} {ds : List (List Entry)}
    (h : Forall₂ (fun c d => Cursor.top c = none ∧ d = []) m.children ds) (hq : m.queue = []) :
    Standing [] m ds := by
  have hnil : ∀ d ∈ ds, d = [] := Parallel.forall_right h fun _ _ => And.right
  refine ⟨h.imp ?_, ?_, hq ▸ List.Pairwise.nil, ?_⟩
  · rintro c _ ⟨htop, rfl⟩
    exact Leads.done htop
  · intro d hd
    rw [hnil d hd]
    exact List.Pairwise.nil
  · intro x
    rw [hq]
    refine iff_of_false List.not_mem_nil ?_
    rintro ⟨-, e, es, hd, -⟩
    exact absurd (hnil _ (List.mem_of_getElem? hd)) (List.cons_ne_nil e es)

/-- A seek places all children and the queue. -/
theorem place_runs {m : Merge σ} {range : Range} {families : FamilyFilter} {us : List σ}
    (h : Forall₂ (fun c u => Runs (Cursor.seek range families) c () u) m.children us) :
    Runs (place range families) m () { m with children := us, queue := queueOf us } := by
  have hseeks : Runs (Action.on children (fun m cs => { m with children := cs })
      (Action.onEach (Cursor.seek range families))) { m with queue := [] } ()
      { m with children := us, queue := [] } := Runs.on (runs_onEach h)
  have hqueue := runs_change (fun m : Merge σ => { m with queue := queueOf m.children })
    { m with children := us, queue := [] }
  exact Runs.bind (f := fun _ => _) (runs_change _ m) (hseeks.bind (f := fun _ => _) hqueue)

/-- Over children that never fail a merge never fails, and it lists what they list as one. -/
theorem lists {m : Merge σ} {listings : List (Range → FamilyFilter → List Entry)}
    (h : Forall₂ Lists m.children listings) (hst : ∃ ds, Standing [] m ds) :
    Lists m fun range families => merged m.dedupe (listings.map fun l => l range families) := by
  refine Lists.of_invariant
    (fun m' => Upon m.children m' ∧ m'.dedupe = m.dedupe ∧ ∃ ds, Standing [] m' ds)
    ⟨List.forall₂_same.mpr fun _ _ => Reached.here, rfl, hst⟩ ?_ ?_ ?_ ?_ ?_
  · -- a seek
    rintro m' ⟨hupon, hdedupe, -⟩ range families
    have hlists : Forall₂ Lists m'.children listings :=
      Parallel.join hupon h fun c c' l hreached hl => hl.of_reached hreached
    have hplaced : ∀ (c : σ) l, Lists c l → ∃ u, Runs (Cursor.seek range families) c () u
        ∧ (Leads u (l range families) ∧ Ascending (l range families)) := by
      intro c l hl
      obtain ⟨u, hu, hlu⟩ := hl.seek Reached.here range families
      exact ⟨u, hu, hlu, hl.ascending range families⟩
    obtain ⟨us, hus, hleads⟩ := Parallel.choose hlists hplaced
    have hrun := place_runs hus
    have hst' : Standing [] { m' with children := us, queue := queueOf us }
        (listings.map fun l => l range families) :=
      standing_queueOf (Parallel.map_right hleads fun _ _ hl => hl) rfl
    have hkept := kept_upon.place range families m' hupon
    rw [hrun.state] at hkept
    refine ⟨_, hrun, ⟨hkept, hdedupe, _, hst'⟩, ?_⟩
    rw [← hdedupe]
    exact leads hst'
  · -- a step, which fails where there is nothing to leave
    rintro m' ⟨hupon, hdedupe, ds, hds⟩
    refine ⟨kept_upon.step m' hupon, ?_⟩
    rcases hq : m'.queue with _ | ⟨head, queue⟩
    · have hstep : Cursor.next m' = Action.fail .nothingToLeave m' := step_of_nil hq
      rw [hstep]
      exact ⟨hdedupe, ds, hds⟩
    · obtain ⟨-, m'', ds', -, hstep, hdedupe', hst', -⟩ := step_runs hds hq
      rw [show (Cursor.next m').state = m'' from hstep.state]
      exact ⟨hdedupe'.trans hdedupe, ds', hst'⟩
  · -- a copy, whose children stand at nothing
    rintro m' env ⟨hupon, hdedupe, -⟩
    have hlists : Forall₂ Lists m'.children listings :=
      Parallel.join hupon h fun c c' l hreached hl => hl.of_reached hreached
    have hcopied : ∀ (c : σ) l, Lists c l → ∃ u, (Reached c u ∧ Cursor.copy env c = .ok u)
        ∧ Cursor.top u = none := by
      intro c l hl
      obtain ⟨u, hu, hnone⟩ := hl.copy Reached.here env
      exact ⟨u, ⟨Reached.here.copy env hu, hu⟩, hnone⟩
    obtain ⟨us, hus, hnone⟩ := Parallel.choose hlists hcopied
    refine ⟨m'.copied us env, copy_of_forall₂ (hus.imp fun _ _ => And.right), ⟨?_, hdedupe, ?_⟩, rfl⟩
    · exact Parallel.trans hupon hus fun _ _ _ hc hu => hc.trans hu.1
    · exact ⟨listings.map fun _ => [],
        standing_of_idle (Parallel.map_right hnone fun _ _ htop => ⟨htop, rfl⟩) rfl⟩
  · rintro m' ⟨-, -, ds, hds⟩
    exact ⟨_, leads hds, ascending_merged _ _⟩
  · rintro m' ⟨hupon, -, -⟩
    show (m'.children.map Cursor.reach).foldr (· + ·) 0 = (m.children.map Cursor.reach).foldr (· + ·) 0
    have hreach := Parallel.forall_right h.flip fun _ c hl t ht => Lists.reach hl (t := t) ht
    rw [map_reach hreach hupon]

theorem lists_ofChildren {children : List σ} {listings : List (Range → FamilyFilter → List Entry)}
    (h : Forall₂ Lists children listings) (dedupe : Bool) (account : Option Account) :
    Lists (ofChildren children dedupe account)
      fun range families => merged dedupe (listings.map fun l => l range families) := by
  refine lists h ?_
  -- wherever the children stand when they are put together
  have hstands : ∀ (c : σ) l, Lists c l → ∃ d, (Leads c d ∧ Ascending d) ∧ True := by
    intro c l hl
    obtain ⟨d, hd, hasc⟩ := hl.stands Reached.here
    exact ⟨d, ⟨hd, hasc⟩, trivial⟩
  obtain ⟨ds, hds, -⟩ := Parallel.choose (T := fun _ _ => True) h hstands
  exact ⟨ds, standing_queueOf hds rfl⟩

end CellScan.Merge
