/-
`Movers.lean` -- the children that a step of a merge moves.

Which children a step moves can be read off the queue before it (`movers`): with `dedupe` a
child that moves off the key in front is put back behind all that still wait at it. So the
step goes through those one after the other (`advancePeers_append`). As long as they move on,
it comes to the next of them, and who waits then is known: the children that have not been
moved, where they were, and those that have, where they have come to (`step_of_movers`).
Either all of them move on, or the first that does not fails or steps back (`movers_cases`).
-/
import CellScan.Proofs.Silence

set_option autoImplicit false

namespace CellScan

open CellScan.Action CellScan.Cursor
open scoped Linear

namespace Merge

variable {σ : Type} [Cursor σ] {m m' : Merge σ} {out : List Nat} {key k : Key} {child c : Nat}
  {s t : σ} {fault : Fault} {events : List Event} {before rest queue : List Head} {head : Head}

/-! ## The queue -/

/-- No child waits twice. -/
theorem Faithful.nodup (h : Faithful out m) : (m.queue.map Head.child).Nodup := by
  refine List.pairwise_map.mpr (h.sorted.imp_of_mem ?_)
  intro a b ha hb hlt hsame
  -- a child that waited twice would wait at one key, and a head does not come before itself
  have hkey : a.key = b.key := by
    have hstands := h.stands a ha
    rw [hsame, h.stands b hb] at hstands
    exact (Option.some.inj hstands).symm
  rcases compare_eq_lt_iff.mp hlt with hlt | ⟨-, hlt⟩
  · exact absurd hkey (ne_of_lt hlt)
  · exact absurd hsame (ne_of_lt hlt)

/-- A merge that stands at a key has a head waiting at it in front. -/
theorem Faithful.exists_head (h : Faithful out m) (htop : topKey m = some key) :
    ∃ head queue, m.queue = head :: queue ∧ head.key = key := by
  rw [h.topKey_eq] at htop
  obtain ⟨head, hhead, rfl⟩ := Option.map_eq_some_iff.mp htop
  obtain ⟨queue, hq⟩ := List.head?_eq_some_iff.mp hhead
  exact ⟨head, queue, hq, rfl⟩

/-! ## Moving a child -/

/-- Moved off the key, the child comes to stand at `k?`. -/
def Lands (m : Merge σ) (child : Nat) (key : Key) (k? : Option Key) : Prop :=
  ∃ s t, m.children[child]? = some s ∧ Runs (leave m.dedupe key) s () t ∧ topKey t = k?

/-- Moved off the key, the child comes to no key before it. -/
def MovesOn (m : Merge σ) (child : Nat) (key : Key) : Prop :=
  ∃ k?, Lands m child key k? ∧ ∀ k ∈ k?, key ≤ k

theorem Lands.congr {k? : Option Key} (h : Lands m child key k?)
    (hchildren : m'.children[child]? = m.children[child]?) (hdedupe : m'.dedupe = m.dedupe) :
    Lands m' child key k? := by
  obtain ⟨s, t, hs, ht, hk⟩ := h
  exact ⟨s, t, hchildren.trans hs, hdedupe.symm ▸ ht, hk⟩

/-- A child comes to one place only. -/
theorem Lands.unique {k? k?' : Option Key} (h : Lands m child key k?)
    (h' : Lands m child key k?') : k? = k?' := by
  obtain ⟨s, t, hs, ht, rfl⟩ := h
  obtain ⟨s', t', hs', ht', rfl⟩ := h'
  obtain rfl : s = s' := Option.some.inj (hs.symm.trans hs')
  rw [← ht.state, ← ht'.state]

theorem MovesOn.congr (h : MovesOn m child key)
    (hchildren : m'.children[child]? = m.children[child]?) (hdedupe : m'.dedupe = m.dedupe) :
    MovesOn m' child key := by
  obtain ⟨k?, hlands, hle⟩ := h
  exact ⟨k?, hlands.congr hchildren hdedupe, hle⟩

/-- A child that comes to no earlier key waits there, if it comes to one. -/
theorem advance_of_le (hs : m.children[child]? = some s)
    (hleave : leave m.dedupe key s = ⟨.ok (), t, events⟩) (hle : ∀ k ∈ topKey t, key ≤ k) :
    advance child key m
      = ⟨.ok (), { m with
          children := m.children.set child t
          queue := (topKey t).elim m.queue
            fun k => SortedList.insertBy id ⟨k, child⟩ m.queue }, events⟩ := by
  have hkey := childKey_set hs t
  rw [advance_of_moved hs hleave]
  rcases htop : topKey t with _ | k
  · simp only [rejoin, hkey, htop, Option.elim_none, List.append_nil]
  · have hnot : ¬ k < key := not_lt.mpr (hle k htop)
    simp only [rejoin, hkey, htop, if_neg hnot, Option.elim_some, List.append_nil]
    rfl

/-- A child that comes to an earlier key is reported, and nobody waits any more. -/
theorem advance_of_lt (hs : m.children[child]? = some s)
    (hleave : leave m.dedupe key s = ⟨.ok (), t, events⟩) (htop : topKey t = some k)
    (hlt : k < key) :
    advance child key m
      = ⟨.error (.steppedBack child key k), { m with
          children := m.children.set child t
          queue := [] }, events ++ m.violation⟩ := by
  have hkey := childKey_set hs t
  rw [advance_of_moved hs hleave]
  simp only [rejoin, hkey, htop, if_pos hlt]
  rfl

/-- The events are such as the children record: what all of them are silent about is not among
these. -/
def OfChildren (m : Merge σ) (events : List Event) : Prop :=
  ∀ p : Event → Prop, (∀ s ∈ m.children, Silent p s) → ∀ e ∈ events, ¬ p e

theorem ofChildren_leave (hs : m.children[child]? = some s)
    (hleave : leave m.dedupe key s = ⟨.ok (), t, events⟩) : OfChildren m events := by
  intro p hcs
  have homits := omits_leave m.dedupe key s (hcs s (List.mem_of_getElem? hs)) ()
  rw [hleave] at homits
  exact homits rfl

/-! ## Moving the children at a key -/

/-- What moving some children leaves of a merge: the others stand where they stood. -/
structure Moved (moved : List Nat) (m m' : Merge σ) (events : List Event) : Prop where
  dedupe : m'.dedupe = m.dedupe
  account : m'.account = m.account
  children : ∀ c, c ∉ moved → m'.children[c]? = m.children[c]?
  upon : ∀ cs, Upon cs m → Upon cs m'
  events : OfChildren m events

namespace Moved

variable {m'' : Merge σ} {moved : List Nat} {es : List Event}

theorem refl (m : Merge σ) : Moved [] m m [] :=
  ⟨rfl, rfl, fun _ _ => rfl, fun _ => id, fun _ _ => List.forall_mem_nil _⟩

/-- What the children record later is also such as they do from here on. -/
theorem ofChildren_append (h : Moved moved m m' events) (hes : OfChildren m' es) :
    OfChildren m (events ++ es) := by
  intro p hcs
  have hupon := h.upon m.children (List.forall₂_same.mpr fun _ _ => .here)
  exact List.forall_mem_append.mpr ⟨h.events p hcs, hes p (hupon.silent hcs)⟩

theorem trans (h : Moved [child] m m' es) (h' : Moved moved m' m'' events) :
    Moved (child :: moved) m m'' (es ++ events) where
  dedupe := h'.dedupe.trans h.dedupe
  account := h'.account.trans h.account
  children := by
    intro c hc
    rw [List.mem_cons, not_or] at hc
    exact (h'.children c hc.2).trans (h.children c (by rw [List.mem_singleton]; exact hc.1))
  upon cs hcs := h'.upon cs (h.upon cs hcs)
  events := h.ofChildren_append h'.events

/-- The queue apart, only where the children stand matters. -/
theorem of_queue (h : Moved moved { m with queue } m' events) : Moved moved m m' events :=
  ⟨h.dedupe, h.account, h.children, fun cs hcs => h.upon cs (kept_upon.queue m queue hcs),
    h.events⟩

end Moved

/-- Where the children that have been moved off the key wait, if they have come to a key: at
later keys, each where it has come to. -/
structure Landed (moved : List Nat) (key : Key) (m : Merge σ) (xs : List Head) : Prop where
  later : ∀ x ∈ xs, key < x.key
  mem_iff : ∀ x, x ∈ xs ↔ x.child ∈ moved ∧ Lands m x.child key (some x.key)

theorem landed_nil (key : Key) (m : Merge σ) : Landed [] key m [] :=
  ⟨List.forall_mem_nil _, fun _ =>
    iff_of_false List.not_mem_nil fun h => absurd h.1 List.not_mem_nil⟩

/-- With `dedupe` a child that moves on waits at a later key, or it has come to its end. -/
theorem landed_of_lands (hdedupe : m.dedupe = true) {k? : Option Key}
    (hlands : Lands m child key k?) (hle : ∀ k ∈ k?, key ≤ k) :
    Landed [child] key m (k?.map fun k => ⟨k, child⟩).toList := by
  refine ⟨?_, ?_⟩
  · intro x hx
    obtain ⟨k, hk, rfl⟩ := Option.map_eq_some_iff.mp (Option.mem_toList.mp hx)
    refine lt_of_le_of_ne (hle k hk) ?_
    rintro rfl
    -- past its repeats the child stands elsewhere
    obtain ⟨s, t, -, ht, rfl⟩ := hlands
    rw [hdedupe] at ht
    exact topKey_of_leave ht.result (ht.state ▸ hk)
  · intro x
    rw [Option.mem_toList, Option.map_eq_some_iff, List.mem_singleton]
    constructor
    · rintro ⟨k, rfl, rfl⟩
      exact ⟨rfl, hlands⟩
    · rintro ⟨rfl, hx⟩
      exact ⟨x.key, hlands.unique hx, rfl⟩

/-- With `dedupe` a child that moves on from the key goes behind all that wait at it. -/
theorem advance_behind (hdedupe : m.dedupe = true) (hon : MovesOn m child key)
    (hkey : ∀ x ∈ before, x.key = key) (rest : List Head) :
    ∃ m' events xs, advance child key { m with queue := before ++ rest } = ⟨.ok (), m', events⟩
      ∧ m'.queue = before ++ SortedList.insertAllBy id xs rest ∧ Landed [child] key m xs
      ∧ Moved [child] m m' events := by
  obtain ⟨k?, hlands, hle⟩ := hon
  have hlanded := landed_of_lands hdedupe hlands hle
  obtain ⟨s, t, hs, ⟨events, hleave⟩, rfl⟩ := hlands
  have hadvance := advance_of_le (m := { m with queue := before ++ rest }) hs hleave hle
  have hqueue : ((topKey t).elim (before ++ rest)
      fun k => SortedList.insertBy id ⟨k, child⟩ (before ++ rest))
        = before ++ SortedList.insertAllBy id
            ((topKey t).map fun k => (⟨k, child⟩ : Head)).toList rest := by
    rcases htop : topKey t with _ | k
    · rfl
    · refine SortedList.insertBy_append id (x := ⟨k, child⟩) (fun y hy => ?_) rest
      have hlt : key < k := hlanded.later ⟨k, child⟩ (by rw [htop]; exact List.mem_cons_self)
      exact compare_eq_lt_iff.mpr (Or.inl (hkey y hy ▸ hlt))
  refine ⟨_, events, _, hadvance, hqueue, hlanded, rfl, rfl, fun c hc => ?_, fun cs hcs => ?_, ?_⟩
  · rw [List.mem_singleton] at hc
    exact List.getElem?_set_ne (Ne.symm hc)
  · have hkept := kept_upon.advance child key _ (kept_upon.queue m (before ++ rest) hcs)
    rwa [hadvance] at hkept
  · exact ofChildren_leave hs hleave

theorem Landed.of_queue {moved : List Nat} {xs : List Head}
    (h : Landed moved key { m with queue } xs) : Landed moved key m xs :=
  ⟨h.later, h.mem_iff⟩

/-- What has been moved earlier does not change where the others come to. -/
theorem Landed.append {moved : List Nat} {xs ys : List Head} (h : Landed [child] key m ys)
    (h' : Landed moved key m' xs) (hmoved : Moved [child] m m' events) (hnot : child ∉ moved) :
    Landed (child :: moved) key m (ys ++ xs) := by
  refine ⟨List.forall_mem_append.mpr ⟨h.later, h'.later⟩, fun x => ?_⟩
  have hsame : x.child ∈ moved → m'.children[x.child]? = m.children[x.child]? := by
    intro hx
    refine hmoved.children x.child ?_
    rw [List.mem_singleton]
    exact fun heq => hnot (heq ▸ hx)
  rw [List.mem_append, h.mem_iff, h'.mem_iff, List.mem_singleton, List.mem_cons, or_and_right]
  refine or_congr Iff.rfl (and_congr_right fun hx => ⟨?_, ?_⟩)
  · exact fun hlands => hlands.congr (hsame hx).symm hmoved.dedupe.symm
  · exact fun hlands => hlands.congr (hsame hx) hmoved.dedupe

/-- With `dedupe` the children in front that wait at the key are moved, one after the other,
if each moves on. Those that wait behind them still do, and later keys have come in. -/
theorem advancePeers_append (hdedupe : m.dedupe = true) (hq : m.queue = before ++ rest)
    (hkey : ∀ x ∈ before, x.key = key) (hnodup : (before.map Head.child).Nodup)
    (hon : ∀ x ∈ before, MovesOn m x.child key) :
    ∃ m' events xs, (∀ n, advancePeers key (before.length + n) m
        = ⟨(advancePeers key n m').result, (advancePeers key n m').state,
            events ++ (advancePeers key n m').events⟩)
      ∧ m'.queue = SortedList.insertAllBy id xs rest ∧ Landed (before.map Head.child) key m xs
      ∧ Moved (before.map Head.child) m m' events := by
  induction before generalizing m rest with
  | nil =>
      refine ⟨m, [], [], fun n => ?_, hq, landed_nil key m, Moved.refl m⟩
      rw [List.length_nil, Nat.zero_add, List.nil_append]
  | cons x before ih =>
      rw [List.cons_append] at hq
      obtain ⟨rfl, hkey⟩ := List.forall_mem_cons.mp hkey
      obtain ⟨hx, hnodup⟩ := List.nodup_cons.mp hnodup
      obtain ⟨honx, hon⟩ := List.forall_mem_cons.mp hon
      obtain ⟨m₁, es, ys, hadvance, hqueue, hys, hmoved₁⟩ := advance_behind hdedupe honx hkey rest
      -- the others at the key do not notice
      have hon₁ : ∀ y ∈ before, MovesOn m₁ y.child x.key := by
        intro y hy
        refine (hon y hy).congr (hmoved₁.children y.child ?_) hmoved₁.dedupe
        rw [List.mem_singleton]
        intro hsame
        exact hx (hsame ▸ List.mem_map_of_mem hy)
      obtain ⟨m', events, xs, hpeers, hqueue', hxs, hmoved⟩ :=
        ih (hmoved₁.dedupe.trans hdedupe) hqueue hkey hnodup hon₁
      refine ⟨m', es ++ events, ys ++ xs, fun n => ?_, ?_, hys.append hxs hmoved₁ hx,
        hmoved₁.trans hmoved⟩
      · rw [List.length_cons, Nat.add_right_comm, advancePeers_of_cons hq, bind_apply_ok hadvance,
          hpeers, List.append_assoc]
      · rw [hqueue', SortedList.insertAllBy, SortedList.insertAllBy, SortedList.insertAllBy,
          List.foldl_append]

/-! ## A step -/

/-- With `dedupe` the children that wait at the key in front too. -/
def peers (m : Merge σ) (head : Head) (queue : List Head) : List Nat :=
  if m.dedupe then (queue.takeWhile (·.key = head.key)).map Head.child else []

/-- The children that a step moves, one after the other: the one in front is the last. -/
def movers (m : Merge σ) : List Nat :=
  match m.queue with
  | [] => []
  | head :: queue => m.peers head queue ++ [head.child]

/-- The children at the key in front, and those that wait behind them at later keys. -/
theorem Faithful.peers (h : Faithful [] m) (hq : m.queue = head :: queue) :
    (∀ x ∈ queue.takeWhile (·.key = head.key), x.key = head.key)
      ∧ SortedList.Sorted id (queue.dropWhile (·.key = head.key))
      ∧ (∀ x ∈ queue.dropWhile (·.key = head.key), head.key < x.key)
      ∧ (head.child :: (queue.takeWhile (·.key = head.key)).map Head.child).Nodup := by
  have hsorted := h.sorted
  have hnodup := h.nodup
  rw [hq] at hsorted hnodup
  obtain ⟨hhead, htail⟩ := List.pairwise_cons.mp hsorted
  have hrest : SortedList.Sorted id (queue.dropWhile (·.key = head.key)) :=
    htail.sublist (List.dropWhile_sublist _)
  refine ⟨fun x hx => ?_, hrest, ?_, ?_⟩
  · exact of_decide_eq_true (List.all_eq_true.mp List.all_takeWhile x hx)
  · intro x hx
    -- the first of them waits at another key, and that comes after the one in front
    rcases hd : queue.dropWhile (·.key = head.key) with _ | ⟨y, ys⟩
    · rw [hd] at hx
      exact absurd hx List.not_mem_nil
    · have hne : y.key ≠ head.key := by
        have hnot := List.head?_dropWhile_not (fun z : Head => decide (z.key = head.key)) queue
        rw [hd] at hnot
        exact of_decide_eq_false hnot
      have hy : y ∈ queue := (List.dropWhile_sublist _).mem (by rw [hd]; exact List.mem_cons_self)
      have hlt : head.key < y.key := by
        rcases compare_eq_lt_iff.mp (hhead y hy) with hlt | ⟨heq, -⟩
        · exact hlt
        · exact absurd heq.symm hne
      rw [hd] at hx hrest
      rcases List.mem_cons.mp hx with rfl | hx
      · exact hlt
      · rcases compare_eq_lt_iff.mp ((List.pairwise_cons.mp hrest).1 x hx) with hlt' | ⟨heq, -⟩
        · exact lt_trans hlt hlt'
        · exact heq ▸ hlt
  · exact hnodup.sublist (((List.takeWhile_sublist _).map _).cons_cons _)

omit [Cursor σ] in
theorem peers_of_dedupe (hdedupe : m.dedupe = true) :
    m.peers head queue = (queue.takeWhile (·.key = head.key)).map Head.child := if_pos hdedupe

/-- The one in front is not among the others at its key. -/
theorem Faithful.nodup_peers (h : Faithful [] m) (hq : m.queue = head :: queue) :
    head.child ∉ m.peers head queue ∧ (m.peers head queue).Nodup := by
  rw [Merge.peers]
  split
  · exact List.nodup_cons.mp (h.peers hq).2.2.2
  · exact ⟨List.not_mem_nil, List.nodup_nil⟩

/-- Who waits once some children have been moved off the key and another one has been taken off
the queue: those that have not been moved, where they were, and those that have, where they
have come to. -/
def Remains (m : Merge σ) (key : Key) (moved : List Nat) (child : Nat) (x : Head) : Prop :=
  (x ∈ m.queue.tail ∧ x.child ≠ child ∧ x.child ∉ moved)
    ∨ (x.child ∈ moved ∧ Lands m x.child key (some x.key))

omit [Cursor σ] in
theorem mem_behind_iff {before rest : List Head} {x : Head}
    (h : ((before ++ rest).map Head.child).Nodup) :
    x ∈ rest ↔ x ∈ before ++ rest ∧ x.child ∉ before.map Head.child := by
  rw [List.map_append] at h
  have hdisjoint := (List.nodup_append.mp h).2.2
  constructor
  · intro hx
    exact ⟨List.mem_append_right before hx,
      fun hmem => hdisjoint _ hmem _ (List.mem_map_of_mem hx) rfl⟩
  · rintro ⟨hx, hnot⟩
    exact (List.mem_append.mp hx).resolve_left fun hmem => hnot (List.mem_map_of_mem hmem)

/-- Those that have come to a key are put among those that have not been moved. -/
theorem mem_insertAll_iff_remains {moved : List Nat} {xs : List Head}
    (hq : m.queue = head :: queue) (hsorted : SortedList.Sorted id rest)
    (hrest : ∀ x, x ∈ rest ↔ x ∈ queue ∧ x.child ≠ c ∧ x.child ∉ moved)
    (hlanded : Landed moved key m xs) (x : Head) :
    x ∈ SortedList.insertAllBy id xs rest ↔ Remains m key moved c x := by
  rw [mem_insertAll_iff hsorted, hlanded.mem_iff, hrest, Remains, hq, List.tail_cons, or_comm]

/-- No child is moved twice. -/
theorem Faithful.not_mem_before {before behind : List Nat} (h : Faithful [] m)
    (hmovers : m.movers = before ++ c :: behind) : c ∉ before := by
  have hnodup : m.movers.Nodup := by
    rcases hq : m.queue with _ | ⟨head, queue⟩
    · simp only [movers, hq]
      exact List.nodup_nil
    · simp only [movers, hq]
      obtain ⟨hnot, hpeers⟩ := h.nodup_peers hq
      refine List.nodup_append.mpr ⟨hpeers, List.pairwise_singleton _ _, ?_⟩
      rintro a ha b hb rfl
      exact hnot (List.mem_singleton.mp hb ▸ ha)
  rw [hmovers] at hnodup
  exact fun hc => (List.nodup_append.mp hnodup).2.2 c hc c List.mem_cons_self rfl

/-- With `dedupe` the others at the key in front have moved, if each moves on, and then nobody
waits at the key any more. -/
theorem advancePeers_all (h : Faithful [] m) (hdedupe : m.dedupe = true)
    (hq : m.queue = head :: queue) (hon : ∀ b ∈ m.peers head queue, MovesOn m b head.key) :
    ∃ m' events xs, advancePeers head.key queue.length { m with queue } = ⟨.ok (), m', events⟩
      ∧ m'.queue = SortedList.insertAllBy id xs (queue.dropWhile (·.key = head.key))
      ∧ Landed (m.peers head queue) head.key m xs ∧ Moved (m.peers head queue) m m' events := by
  rw [peers_of_dedupe hdedupe] at hon ⊢
  obtain ⟨hkey, hrest, hlater, hnodup⟩ := h.peers hq
  have hon' : ∀ x ∈ queue.takeWhile (·.key = head.key),
      MovesOn { m with queue } x.child head.key :=
    fun x hx => (hon x.child (List.mem_map_of_mem hx)).congr rfl rfl
  obtain ⟨m', events, xs, hpeers, hqueue, hxs, hmoved⟩ := advancePeers_append
    (m := { m with queue }) hdedupe List.takeWhile_append_dropWhile.symm hkey
    (List.nodup_cons.mp hnodup).2 hon'
  -- those that have come in wait at later keys, and so do those that were behind
  have hdone : ∀ n, advancePeers head.key n m' = Action.give () m' := by
    refine fun n => advancePeers_of_ne (fun x hx => ?_) n
    have hmem := List.mem_of_mem_head? hx
    rw [hqueue, mem_insertAll_iff hrest] at hmem
    rcases hmem with hmem | hmem
    · exact ne_of_gt (hxs.later x hmem)
    · exact ne_of_gt (hlater x hmem)
  obtain ⟨n, hn⟩ : ∃ n, queue.length = (queue.takeWhile (·.key = head.key)).length + n :=
    Nat.exists_eq_add_of_le (List.takeWhile_sublist _).length_le
  refine ⟨m', events, xs, ?_, hqueue, hxs.of_queue, hmoved.of_queue⟩
  rw [hn, hpeers n, hdone n]
  exact congrArg _ (List.append_nil events)

/-- The one in front moves once the others at its key have moved on. -/
theorem step_of_peers (h : Faithful [] m) (hq : m.queue = head :: queue)
    (hon : ∀ b ∈ m.peers head queue, MovesOn m b head.key) :
    ∃ m' events, step m = ⟨(advance head.child head.key m').result,
          (advance head.child head.key m').state, events ++ (advance head.child head.key m').events⟩
      ∧ Moved (m.peers head queue) m m' events
      ∧ ∀ x, x ∈ m'.queue ↔ Remains m head.key (m.peers head queue) head.child x := by
  have hnodup := h.nodup
  rw [hq, List.map_cons, List.nodup_cons] at hnodup
  have hothers : ∀ x ∈ queue, x.child ≠ head.child := fun x hx hsame =>
    hnodup.1 (hsame ▸ List.mem_map_of_mem hx)
  by_cases hdedupe : m.dedupe = true
  · obtain ⟨m', events, xs, hrun, hqueue, hxs, hmoved⟩ := advancePeers_all h hdedupe hq hon
    have hrest : ∀ x, x ∈ queue.dropWhile (·.key = head.key)
        ↔ x ∈ queue ∧ x.child ≠ head.child ∧ x.child ∉ m.peers head queue := by
      intro x
      have hsplit := List.takeWhile_append_dropWhile (p := (·.key = head.key)) (l := queue)
      rw [peers_of_dedupe hdedupe, mem_behind_iff (by rw [hsplit]; exact hnodup.2), hsplit]
      exact and_congr_right fun hx => (and_iff_right (hothers x hx)).symm
    refine ⟨m', events, ?_, hmoved, fun x => ?_⟩
    · rw [step_of_cons hq, if_pos hdedupe, bind_apply_ok hrun]
    · rw [hqueue]
      exact mem_insertAll_iff_remains hq (h.peers hq).2.1 hrest hxs x
  · rw [Merge.peers, if_neg hdedupe]
    refine ⟨{ m with queue }, [], ?_, (Moved.refl _).of_queue, fun x => ?_⟩
    · rw [step_of_cons hq, if_neg hdedupe]
      exact bind_apply_ok (pure_apply () _)
    · rw [Remains, hq, List.tail_cons]
      constructor
      · exact fun hx => Or.inl ⟨hx, hothers x hx, List.not_mem_nil⟩
      · rintro (⟨hx, -⟩ | ⟨hx, -⟩)
        · exact hx
        · exact absurd hx List.not_mem_nil

/-- The queue at one of the others that wait at the key in front: those that move before it,
the one itself, and the rest. -/
theorem Faithful.queue_split {before behind : List Nat} (h : Faithful [] m)
    (hdedupe : m.dedupe = true) (hq : m.queue = head :: queue)
    (hpeers : m.peers head queue = before ++ c :: behind) :
    ∃ xs x rest, before = xs.map Head.child ∧ c = x.child ∧ queue = xs ++ x :: rest
      ∧ (∀ y ∈ xs, y.key = head.key) ∧ x.key = head.key ∧ (xs.map Head.child).Nodup
      ∧ SortedList.Sorted id rest
      ∧ ∀ y, y ∈ rest ↔ y ∈ queue ∧ y.child ≠ x.child ∧ y.child ∉ xs.map Head.child := by
  obtain ⟨hkey, -⟩ := h.peers hq
  rw [peers_of_dedupe hdedupe] at hpeers
  obtain ⟨xs, zs, htake, rfl, hzs⟩ := List.map_eq_append_iff.mp hpeers
  obtain ⟨x, ys, rfl, rfl, -⟩ := List.map_eq_cons_iff.mp hzs
  rw [htake] at hkey
  have hqueue : queue = xs ++ x :: (ys ++ queue.dropWhile (·.key = head.key)) := by
    rw [← List.cons_append, ← List.append_assoc, ← htake]
    exact List.takeWhile_append_dropWhile.symm
  generalize ys ++ queue.dropWhile (·.key = head.key) = rest at hqueue
  have hsorted := h.sorted
  have hnodup := h.nodup
  rw [hq, hqueue] at hsorted hnodup
  have hqueueNodup := (List.nodup_cons.mp hnodup).2
  have hqueueSorted := (List.pairwise_cons.mp hsorted).2
  refine ⟨xs, x, rest, rfl, rfl, hqueue, fun y hy => hkey y (List.mem_append_left _ hy),
    hkey x (List.mem_append_right _ List.mem_cons_self),
    hqueueNodup.sublist ((List.sublist_append_left xs _).map _),
    (List.pairwise_cons.mp (List.pairwise_append.mp hqueueSorted).2.1).2, fun y => ?_⟩
  -- the one itself counts among those in front of the rest
  rw [List.append_cons] at hqueue hqueueNodup
  rw [mem_behind_iff hqueueNodup, ← hqueue]
  refine and_congr_right fun _ => ?_
  rw [List.map_append, List.mem_append, List.map_singleton, List.mem_singleton, not_or]
  exact and_comm

/-- With `dedupe` the move of a child at the key in front comes once those before it have moved
on. -/
theorem advancePeers_of_peers {before behind : List Nat} (h : Faithful [] m)
    (hdedupe : m.dedupe = true) (hq : m.queue = head :: queue)
    (hpeers : m.peers head queue = before ++ c :: behind)
    (hon : ∀ b ∈ before, MovesOn m b head.key) :
    ∃ m' events n, advancePeers head.key queue.length { m with queue }
        = ⟨((advance c head.key >>= fun _ => advancePeers head.key n) m').result,
            ((advance c head.key >>= fun _ => advancePeers head.key n) m').state,
            events ++ ((advance c head.key >>= fun _ => advancePeers head.key n) m').events⟩
      ∧ Moved before m m' events ∧ ∀ x, x ∈ m'.queue ↔ Remains m head.key before c x := by
  obtain ⟨xs, x, rest, rfl, rfl, hqueue, hkey, hx, hnodup, hsorted, hrest⟩ :=
    h.queue_split hdedupe hq hpeers
  obtain ⟨m₁, events, later, hrun, hqueue₁, hlater, hmoved⟩ := advancePeers_append
    (m := { m with queue }) hdedupe hqueue hkey hnodup
    (fun y hy => (hon y.child (List.mem_map_of_mem hy)).congr rfl rfl)
  -- it is in front now, since what has come in waits at later keys
  have hfront : m₁.queue = x :: SortedList.insertAllBy id later rest := by
    have hbehind : ∀ z ∈ later, ∀ y ∈ [x], compare (id y) (id z) = .lt := by
      intro z hz
      have hlt : x.key < z.key := hx.symm ▸ hlater.later z hz
      exact List.forall_mem_singleton.mpr (compare_eq_lt_iff.mpr (Or.inl hlt))
    exact hqueue₁.trans (SortedList.insertAllBy_append id hbehind rest)
  obtain ⟨n, hn⟩ : ∃ n, queue.length = xs.length + (n + 1) := by
    rw [hqueue, List.length_append, List.length_cons]
    exact ⟨_, rfl⟩
  refine ⟨{ m₁ with queue := SortedList.insertAllBy id later rest }, events, n, ?_,
    ⟨hmoved.dedupe, hmoved.account, hmoved.children, fun cs hcs => ?_, hmoved.events⟩, ?_⟩
  · rw [hn, hrun, ← hx, advancePeers_of_cons hfront]
  · exact kept_upon.queue m₁ _ (hmoved.upon cs (kept_upon.queue m queue hcs))
  · exact mem_insertAll_iff_remains hq hsorted hrest hlater.of_queue

/-- As long as the children that it moves move on, a step comes to the next of them: where that
one fails, or steps back, the step ends. -/
theorem step_of_movers {before behind : List Nat} (h : Faithful [] m)
    (hq : m.queue = head :: queue) (hmovers : m.movers = before ++ c :: behind)
    (hon : ∀ b ∈ before, MovesOn m b head.key) :
    ∃ m' events, Moved before m m' events ∧ (∀ x, x ∈ m'.queue ↔ Remains m head.key before c x)
      ∧ ∀ fault m'' es, advance c head.key m' = ⟨.error fault, m'', es⟩ →
          step m = ⟨.error fault, m'', events ++ es⟩ := by
  simp only [movers, hq] at hmovers
  rcases List.eq_nil_or_concat' behind with rfl | ⟨behind, last, rfl⟩
  · -- it is the one in front, and the others have moved on
    obtain ⟨rfl, hsingle⟩ := List.append_inj' hmovers rfl
    obtain rfl : head.child = c := List.head_eq_of_cons_eq hsingle
    obtain ⟨m', events, hstep, hmoved, hqueue⟩ := step_of_peers h hq hon
    refine ⟨m', events, hmoved, hqueue, fun fault m'' es hfails => ?_⟩
    rw [hstep, hfails]
  · -- it is one of those that move before, so there are such
    rw [← List.cons_append, ← List.append_assoc] at hmovers
    obtain ⟨hpeers, -⟩ := List.append_inj' hmovers rfl
    have hdedupe : m.dedupe = true := by
      by_contra hno
      rw [Merge.peers, if_neg hno] at hpeers
      exact absurd hpeers (by simp)
    obtain ⟨m', events, n, hrun, hmoved, hqueue⟩ := advancePeers_of_peers h hdedupe hq hpeers hon
    refine ⟨m', events, hmoved, hqueue, fun fault m'' es hfails => ?_⟩
    rw [bind_apply_error hfails] at hrun
    rw [step_of_cons hq, if_pos hdedupe, bind_apply_error hrun]

/-- If all children that a step is to move do move on, it succeeds. -/
theorem step_runs_of_movers (h : Faithful [] m) (htop : topKey m = some key)
    (hon : ∀ b ∈ m.movers, MovesOn m b key) : ∃ m', Runs step m () m' := by
  obtain ⟨head, queue, hq, rfl⟩ := h.exists_head htop
  simp only [movers, hq] at hon
  obtain ⟨hon, honLast⟩ := List.forall_mem_append.mp hon
  obtain ⟨m', events, hstep, hmoved, -⟩ := step_of_peers h hq hon
  obtain ⟨k?, hlands, hle⟩ := (List.forall_mem_singleton.mp honLast).congr
    (hmoved.children _ (h.nodup_peers hq).1) hmoved.dedupe
  obtain ⟨s, t, hs, ⟨es, hleave⟩, rfl⟩ := hlands
  rw [advance_of_le hs hleave hle] at hstep
  exact ⟨_, _, hstep⟩

/-! ## A child that steps back -/

/-- Once some others have moved, a child that steps back is reported. -/
theorem advance_back {moved : List Nat} (h : Moved moved m m' events) (hc : c ∉ moved)
    (hlands : Lands m c key (some k)) (hlt : k < key) :
    ∃ m'' es, advance c key m' = ⟨.error (.steppedBack c key k), m'', es ++ m.violation⟩
      ∧ m''.queue = [] ∧ OfChildren m (events ++ es) := by
  obtain ⟨s, t, hs, ⟨es, hleave⟩, htop⟩ := hlands.congr (h.children c hc) h.dedupe
  have hviolation : m.violation = m'.violation := by rw [violation, violation, h.account]
  rw [hviolation]
  exact ⟨_, es, advance_of_lt hs hleave htop hlt, rfl,
    h.ofChildren_append (ofChildren_leave hs hleave)⟩

/-- The first child that steps back ends the step: it is reported and counted, and nobody
waits any more. -/
theorem step_back {before behind : List Nat} (h : Faithful [] m) (hq : m.queue = head :: queue)
    (hmovers : m.movers = before ++ c :: behind) (hon : ∀ b ∈ before, MovesOn m b head.key)
    (hlands : Lands m c head.key (some k)) (hlt : k < head.key) :
    ∃ m' events, step m = ⟨.error (.steppedBack c head.key k), m', events ++ m.violation⟩
      ∧ m'.queue = [] ∧ OfChildren m events := by
  obtain ⟨m₁, events, hmoved, -, hends⟩ := step_of_movers h hq hmovers hon
  obtain ⟨m', es, hback, hnil, hevents⟩ :=
    advance_back hmoved (h.not_mem_before hmovers) hlands hlt
  refine ⟨m', events ++ es, ?_, hnil, hevents⟩
  rw [hends _ _ _ hback, List.append_assoc]

/-! ## What a step can come to -/

/-- A child that a step moves stands at the key in front. -/
theorem Faithful.stands_of_mem_movers (h : Faithful [] m) (hq : m.queue = head :: queue)
    (hc : c ∈ m.movers) : m.childKey c = some head.key := by
  simp only [movers, hq, List.mem_append, List.mem_singleton] at hc
  rcases hc with hc | rfl
  · rw [Merge.peers] at hc
    split at hc
    · obtain ⟨x, hx, rfl⟩ := List.mem_map.mp hc
      have hmem : x ∈ m.queue := by
        rw [hq]
        exact List.mem_cons_of_mem head ((List.takeWhile_sublist _).mem hx)
      rw [h.stands x hmem, (h.peers hq).1 x hx]
    · exact absurd hc List.not_mem_nil
  · exact h.stands head (by rw [hq]; exact List.mem_cons_self)

/-- A child that stands at a key moves on from it, or it fails, or it comes to a key before. -/
theorem movesOn_or (hc : m.childKey c = some key) :
    MovesOn m c key ∨ (∃ fault, FailsAt m key c fault)
      ∨ ∃ k, Lands m c key (some k) ∧ k < key := by
  obtain ⟨s, hs, hkey⟩ := Option.bind_eq_some_iff.mp hc
  rcases hleave : (leave m.dedupe key s).result with fault | _
  · exact Or.inr (Or.inl ⟨fault, s, hs, hkey, hleave⟩)
  · have hlands : Lands m c key (topKey (leave m.dedupe key s).state) :=
      ⟨s, _, hs, runs_of_result hleave, rfl⟩
    rcases htop : topKey (leave m.dedupe key s).state with _ | k
    · rw [htop] at hlands
      exact Or.inl ⟨none, hlands, fun k hk => absurd hk (Option.not_mem_none k)⟩
    · rw [htop] at hlands
      by_cases hlt : k < key
      · exact Or.inr (Or.inr ⟨k, hlands, hlt⟩)
      · exact Or.inl ⟨some k, hlands, fun k' hk' => Option.some.inj hk' ▸ not_lt.mp hlt⟩

open Classical in
/-- Either all children that a step is to move do move on, or the first that does not fails, or
it comes to a key before the one in front. -/
theorem movers_cases (h : Faithful [] m) (hq : m.queue = head :: queue) :
    (∀ b ∈ m.movers, MovesOn m b head.key)
      ∨ ∃ before c behind, m.movers = before ++ c :: behind
        ∧ (∀ b ∈ before, MovesOn m b head.key)
        ∧ ((∃ fault, FailsAt m head.key c fault)
          ∨ ∃ k, Lands m c head.key (some k) ∧ k < head.key) := by
  rcases hfirst : m.movers.find? (fun b => ¬ MovesOn m b head.key) with _ | c
  · refine Or.inl fun b hb => ?_
    have hnot := List.find?_eq_none.mp hfirst b hb
    exact of_not_not fun hno => hnot (decide_eq_true hno)
  · obtain ⟨hc, before, behind, hmovers, hbefore⟩ := List.find?_eq_some_iff_append.mp hfirst
    have hmem : c ∈ m.movers := by
      rw [hmovers]
      exact List.mem_append_right before List.mem_cons_self
    refine Or.inr ⟨before, c, behind, hmovers, fun b hb => ?_, ?_⟩
    · have hnot := hbefore b hb
      exact of_not_not fun hno => by simp [hno] at hnot
    · exact (movesOn_or (h.stands_of_mem_movers hq hmem)).resolve_left (of_decide_eq_true hc)

end Merge

end CellScan
