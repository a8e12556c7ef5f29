/-
`Waiting.lean` -- who waits on the queue of a merge.

Every head on the queue is where its child stands (`Faithful`), in all states there are
(`faithful_of_reached`), so to stand at an entry is to have someone waiting. A seek empties
the queue before it places the children, and a child that steps back empties it as well.
Not so where a child fails in its own words while it is moved on: that child has been taken
off the queue, and so it stays off, but the others are left where they are (`step_torn`).
-/
import CellScan.Proofs.Merge

set_option autoImplicit false

namespace CellScan

open CellScan.Action CellScan.Cursor

namespace Merge

variable {σ : Type} [Cursor σ] {m m' : Merge σ} {out : List Nat} {key : Key} {child : Nat}
  {fault : Fault}

/-! ## Heads that are where their children stand -/

/-- Every head on the queue is where its child stands, and some children do not wait. -/
structure Faithful (out : List Nat) (m : Merge σ) : Prop where
  sorted : SortedList.Sorted id m.queue
  stands : ∀ head ∈ m.queue, m.childKey head.child = some head.key
  away : ∀ head ∈ m.queue, head.child ∉ out

/-- The child waits its turn. -/
def Waits (m : Merge σ) (child : Nat) : Prop := ∃ head ∈ m.queue, head.child = child

theorem faithful_of_nil (h : m.queue = []) : Faithful out m := by
  refine ⟨?_, ?_, ?_⟩
  · rw [h]
    exact List.Pairwise.nil
  · rw [h]
    exact List.forall_mem_nil _
  · rw [h]
    exact List.forall_mem_nil _

theorem faithful_queueOf (h : m.queue = queueOf m.children) : Faithful [] m := by
  refine ⟨?_, ?_, fun _ _ => List.not_mem_nil⟩
  · rw [h]
    exact SortedList.sorted_insertAllBy id _ List.Pairwise.nil
  · intro head hhead
    rw [h, queueOf, mem_insertAll_iff List.Pairwise.nil, List.mem_filterMap] at hhead
    rcases hhead with ⟨⟨c, i⟩, hmem, hkey⟩ | hnil
    · obtain ⟨k, hk, rfl⟩ := Option.map_eq_some_iff.mp hkey
      have hc : m.children[i]? = some c := List.mk_mem_zipIdx_iff_getElem?.mp hmem
      show (m.children[i]?).bind topKey = some k
      rw [hc, Option.bind_some, hk]
    · exact absurd hnil List.not_mem_nil

namespace Faithful

theorem mono (h : Faithful out m) {out' : List Nat} (hout : out' ⊆ out) : Faithful out' m :=
  ⟨h.sorted, h.stands, fun head hhead hin => h.away head hhead (hout hin)⟩

/-- Taking the first head off leaves its child out. -/
theorem tail (h : Faithful out m) {head : Head} {queue : List Head}
    (hq : m.queue = head :: queue) : Faithful (head.child :: out) { m with queue } := by
  obtain ⟨hsorted, hstands, haway⟩ := h
  rw [hq] at hsorted hstands haway
  refine ⟨(List.pairwise_cons.mp hsorted).2,
    fun x hx => hstands x (List.mem_cons_of_mem head hx), ?_⟩
  intro x hx
  rw [List.mem_cons, not_or]
  refine ⟨child_ne_of_sorted hsorted hx fun hsame => ?_, haway x (List.mem_cons_of_mem head hx)⟩
  have hkey := hstands x (List.mem_cons_of_mem head hx)
  rw [hsame, hstands head List.mem_cons_self, Option.some.injEq] at hkey
  exact hkey.symm

/-- A child that does not wait may move. -/
theorem set (h : Faithful (child :: out) m) (t : σ) :
    Faithful (child :: out) { m with children := m.children.set child t } := by
  refine ⟨h.sorted, ?_, h.away⟩
  intro head hhead
  have hne : child ≠ head.child := fun hsame => h.away head hhead (hsame ▸ List.mem_cons_self)
  show ((m.children.set child t)[head.child]?).bind topKey = some head.key
  rw [List.getElem?_set_ne hne]
  exact h.stands head hhead

/-- A child waits again where it stands. -/
theorem enqueue (h : Faithful (child :: out) m) (hout : child ∉ out)
    (hkey : m.childKey child = some key) : Faithful out (m.enqueue key child) := by
  refine ⟨SortedList.sorted_insertBy id _ h.sorted, ?_, ?_⟩
  · intro head hhead
    rcases (mem_insert_iff h.sorted).mp hhead with rfl | hmem
    · exact hkey
    · exact h.stands head hmem
  · intro head hhead
    rcases (mem_insert_iff h.sorted).mp hhead with rfl | hmem
    · exact hout
    · exact fun hin => h.away head hmem (List.mem_cons_of_mem child hin)

/-- To stand at an entry is to have someone waiting. -/
theorem top_eq_none_iff (h : Faithful out m) : Cursor.top m = none ↔ m.queue = [] := by
  show m.queue.head?.bind (fun head => (m.children[head.child]?).bind Cursor.top) = none ↔ _
  rcases hq : m.queue with _ | ⟨head, queue⟩
  · exact iff_of_true rfl rfl
  · refine iff_of_false ?_ (List.cons_ne_nil head queue)
    intro hnone
    have hkey := h.stands head (by rw [hq]; exact List.mem_cons_self)
    rw [List.head?_cons, Option.bind_some] at hnone
    rw [childKey] at hkey
    rcases hc : m.children[head.child]? with _ | c
    · rw [hc] at hkey
      exact absurd hkey (by simp)
    · rw [hc, Option.bind_some] at hkey hnone
      rw [topKey, hnone] at hkey
      exact absurd hkey (by simp)

end Faithful

/-! ## How a child fails -/

/-- The child stands at the key, and fails when it is to be moved off it. -/
def FailsAt (m : Merge σ) (key : Key) (child : Nat) (fault : Fault) : Prop :=
  ∃ c, m.children[child]? = some c ∧ topKey c = some key
    ∧ (leave m.dedupe key c).result = .error fault

/-- A merge reports that a child has stepped back behind the key it came from. -/
def SteppedBack (fault : Fault) : Prop :=
  ∃ (child : Nat) (k k' : Key), k' < k ∧ fault = .steppedBack child k k'

/-- How a step comes to fail: a child has stepped back and the queue has been emptied, or a
child fails on its way off the key and stays away from the queue. -/
def Torn (m : Merge σ) (key : Key) (fault : Fault) (m' : Merge σ) : Prop :=
  (SteppedBack fault ∧ m'.queue = []) ∨ ∃ child, FailsAt m key child fault ∧ Faithful [child] m'

theorem Torn.faithful (h : Torn m key fault m') : Faithful [] m' := by
  rcases h with ⟨-, hnil⟩ | ⟨child, -, hfaithful⟩
  · exact faithful_of_nil hnil
  · exact hfaithful.mono (List.nil_subset _)

/-- Past the repeats of a key a child stands elsewhere. -/
theorem topKey_of_passRepeats {s : σ} {n : Nat} (h : (passRepeats key n s).result = .ok ()) :
    topKey (passRepeats key n s).state ≠ some key := by
  induction n generalizing s with
  | zero => exact Except.noConfusion rfl rfl (heq_of_eq h)
  | succ n ih =>
      by_cases hkey : topKey s = some key
      · simp only [passRepeats, if_pos hkey] at h ⊢
        obtain ⟨_, t, -, hrest, hstate⟩ := ok_of_bind h
        rw [hstate]
        exact ih hrest
      · simp only [passRepeats, if_neg hkey] at h ⊢
        exact hkey

theorem topKey_of_leave {s : σ} (h : (leave true key s).result = .ok ()) :
    topKey (leave true key s).state ≠ some key := by
  simp only [leave, if_true] at h ⊢
  obtain ⟨_, t, -, hrest, hstate⟩ := ok_of_bind h
  rw [hstate]
  exact topKey_of_passRepeats hrest

/-- Where another child has moved past the key, those that fail at it stood there before. -/
theorem FailsAt.of_set {other : Nat} {t : σ} (h : FailsAt m' key child fault)
    (hchildren : m'.children = m.children.set other t) (hdedupe : m'.dedupe = m.dedupe)
    (ht : topKey t ≠ some key) : FailsAt m key child fault := by
  obtain ⟨c, hc, htop, hfails⟩ := h
  rw [hdedupe] at hfails
  refine ⟨c, ?_, htop, hfails⟩
  rw [hchildren] at hc
  by_cases hsame : other = child
  · -- the one that has moved does not stand at the key
    subst hsame
    have hlen := (List.getElem?_eq_some_iff.mp hc).1
    rw [List.length_set] at hlen
    rw [List.getElem?_set_self hlen, Option.some.injEq] at hc
    exact absurd htop (hc ▸ ht)
  · rwa [List.getElem?_set_ne hsame] at hc

/-! ## What a step can come to -/

/-- A child is put back, stays away at its end, or has stepped back and all is off. -/
theorem rejoin_cases (h : Faithful (child :: out) m) (hout : child ∉ out) (key : Key) :
    ((rejoin child key m).result = .ok () ∧ Faithful out (rejoin child key m).state
        ∧ (rejoin child key m).state.children = m.children
        ∧ (rejoin child key m).state.dedupe = m.dedupe)
      ∨ ∃ fault, (rejoin child key m).result = .error fault ∧ SteppedBack fault
        ∧ (rejoin child key m).state.queue = [] := by
  rw [rejoin]
  split
  · exact Or.inl ⟨rfl, h.mono (List.subset_cons_self child out), rfl, rfl⟩
  · next k hk =>
      split
      · next hlt => exact Or.inr ⟨_, rfl, ⟨child, key, k, hlt, rfl⟩, rfl⟩
      · exact Or.inl ⟨rfl, h.enqueue hout hk, rfl, rfl⟩

/-- A child moves on and waits again, or it fails, or it has stepped back and all is off. -/
theorem advance_cases (h : Faithful (child :: out) m) (hout : child ∉ out) {c : σ}
    (hc : m.children[child]? = some c) (key : Key) :
    ((advance child key m).result = .ok () ∧ Faithful out (advance child key m).state
        ∧ (leave m.dedupe key c).result = .ok ()
        ∧ (advance child key m).state.children
          = m.children.set child (leave m.dedupe key c).state
        ∧ (advance child key m).state.dedupe = m.dedupe)
      ∨ (∃ fault, (advance child key m).result = .error fault
        ∧ ((SteppedBack fault ∧ (advance child key m).state.queue = [])
          ∨ ((leave m.dedupe key c).result = .error fault
            ∧ Faithful (child :: out) (advance child key m).state))) := by
  have hset := h.set (leave m.dedupe key c).state
  rcases hleave : leave m.dedupe key c with ⟨fault | _, t, events⟩
  · rw [hleave] at hset
    rw [advance_of_stuck hc hleave]
    exact Or.inr ⟨fault, rfl, Or.inr ⟨rfl, hset⟩⟩
  · rw [hleave] at hset
    rw [advance_of_moved hc hleave]
    rcases rejoin_cases hset hout key with
      ⟨hok, hfaithful, hchildren, hdedupe⟩ | ⟨fault, hfault, hback, hnil⟩
    · exact Or.inl ⟨hok, hfaithful, rfl, hchildren, hdedupe⟩
    · exact Or.inr ⟨fault, hfault, Or.inl ⟨hback, hnil⟩⟩

/-- The children at a key move past it one after the other, or one fails, or one has stepped
back and all is off. -/
theorem advancePeers_cases {c : Nat} (hdedupe : m.dedupe = true) (h : Faithful [c] m)
    (key : Key) (n : Nat) :
    ((advancePeers key n m).result = .ok () ∧ Faithful [c] (advancePeers key n m).state
        ∧ (advancePeers key n m).state.children[c]? = m.children[c]?
        ∧ (advancePeers key n m).state.dedupe = true)
      ∨ (∃ fault, (advancePeers key n m).result = .error fault
        ∧ Torn m key fault (advancePeers key n m).state) := by
  induction n generalizing m with
  | zero => exact Or.inl ⟨rfl, h, rfl, hdedupe⟩
  | succ n ih =>
      rcases front_cases key m with hfront | ⟨head, queue, hq, rfl⟩
      · rw [advancePeers_of_ne hfront]
        exact Or.inl ⟨rfl, h, rfl, hdedupe⟩
      · have hhead : head ∈ m.queue := by rw [hq]; exact List.mem_cons_self
        have hout : head.child ∉ [c] := h.away head hhead
        obtain ⟨s, hs, htop⟩ := Option.bind_eq_some_iff.mp (h.stands head hhead)
        rw [advancePeers_of_cons hq]
        rcases advance_cases (h.tail hq) hout hs head.key with
          ⟨hok, hfaithful, hleave, hchildren, hdedupe'⟩ | ⟨fault, hfault, hcause⟩
        · -- it has moved past the key, and the others are next
          obtain ⟨hresult, hstate⟩ := bind_of_ok (fun _ => advancePeers head.key n) hok
          rw [hresult, hstate]
          rcases ih (hdedupe'.trans hdedupe) hfaithful with
            ⟨hok', hfaithful', hsame, hdedupe''⟩ | ⟨fault, hfault, htorn⟩
          · refine Or.inl ⟨hok', hfaithful', ?_, hdedupe''⟩
            have hne : head.child ≠ c := by rwa [List.mem_singleton] at hout
            rw [hsame, hchildren, List.getElem?_set_ne hne]
          · refine Or.inr ⟨fault, hfault, htorn.imp_right ?_⟩
            rintro ⟨i, hfails, haway⟩
            refine ⟨i, hfails.of_set hchildren hdedupe' ?_, haway⟩
            rw [hdedupe] at hleave ⊢
            exact topKey_of_leave hleave
        · obtain ⟨hresult, hstate⟩ := bind_of_error (fun _ => advancePeers head.key n) hfault
          rw [hresult, hstate]
          refine Or.inr ⟨fault, rfl, hcause.imp_right ?_⟩
          rintro ⟨hleave, hfaithful⟩
          exact ⟨head.child, ⟨s, hs, htop, hleave⟩,
            hfaithful.mono (List.cons_subset_cons _ (List.nil_subset _))⟩

/-- The child at the head of the queue moves on once the others at its key have. -/
theorem step_torn (h : Faithful [] m) {head : Head} {queue : List Head}
    (hq : m.queue = head :: queue) :
    ((step m).result = .ok () ∧ Faithful [] (step m).state)
      ∨ ∃ fault, (step m).result = .error fault ∧ Torn m head.key fault (step m).state := by
  have hhead : head ∈ m.queue := by rw [hq]; exact List.mem_cons_self
  obtain ⟨c, hc, htop⟩ := Option.bind_eq_some_iff.mp (h.stands head hhead)
  -- whatever the others did, the child at the head of the queue has not moved
  have hlast : ∀ m' : Merge σ, Faithful [head.child] m' → m'.children[head.child]? = some c →
      m'.dedupe = m.dedupe →
      ((advance head.child head.key m').result = .ok ()
          ∧ Faithful [] (advance head.child head.key m').state)
        ∨ ∃ fault, (advance head.child head.key m').result = .error fault
          ∧ Torn m head.key fault (advance head.child head.key m').state := by
    intro m' hfaithful hc' hdedupe
    rcases advance_cases hfaithful List.not_mem_nil hc' head.key with
      ⟨hok, hfaithful', -⟩ | ⟨fault, hfault, hcause⟩
    · exact Or.inl ⟨hok, hfaithful'⟩
    · refine Or.inr ⟨fault, hfault, hcause.imp_right ?_⟩
      rintro ⟨hleave, haway⟩
      rw [hdedupe] at hleave
      exact ⟨head.child, ⟨c, hc, htop, hleave⟩, haway⟩
  rw [step_of_cons hq]
  by_cases hdedupe : m.dedupe = true
  · rw [if_pos hdedupe]
    rcases advancePeers_cases (m := { m with queue }) hdedupe (h.tail hq) head.key queue.length with
      ⟨hok, hfaithful, hsame, hdedupe'⟩ | ⟨fault, hfault, htorn⟩
    · obtain ⟨hresult, hstate⟩ := bind_of_ok (fun _ => advance head.child head.key) hok
      rw [hresult, hstate]
      exact hlast _ hfaithful (hsame.trans hc) (hdedupe'.trans hdedupe.symm)
    · obtain ⟨hresult, hstate⟩ := bind_of_error (fun _ => advance head.child head.key) hfault
      rw [hresult, hstate]
      exact Or.inr ⟨fault, rfl, htorn⟩
  · rw [if_neg hdedupe]
    exact hlast _ (h.tail hq) hc rfl

/-- A seek stands where its children stand, or it fails and stands nowhere. -/
theorem place_cases (range : Range) (families : FamilyFilter) (m : Merge σ) :
    ((place range families m).result = .ok () ∧ Faithful [] (place range families m).state)
      ∨ (place range families m).state.queue = [] := by
  have happly : place range families m
      = ((Action.on children (fun m cs => { m with children := cs })
          (Action.onEach (Cursor.seek range families))) >>= fun _ =>
        change fun m => { m with queue := queueOf m.children }) { m with queue := [] } := rfl
  rw [happly]
  rcases hseeks : ((Action.on children (fun (m : Merge σ) cs => { m with children := cs })
      (Action.onEach (Cursor.seek range families))) { m with queue := [] }).result with fault | _
  · obtain ⟨-, hstate⟩ := bind_of_error
      (fun _ => change fun m : Merge σ => { m with queue := queueOf m.children }) hseeks
    rw [hstate]
    exact Or.inr rfl
  · obtain ⟨hresult, hstate⟩ := bind_of_ok
      (fun _ => change fun m : Merge σ => { m with queue := queueOf m.children }) hseeks
    rw [hresult, hstate]
    exact Or.inl ⟨rfl, faithful_queueOf rfl⟩

/-! ## In all states -/

theorem faithful_make (h : Faithful [] m) (call : Call) : Faithful [] (make m call) := by
  rcases call with ⟨range, families⟩ | _
  · rcases place_cases range families m with ⟨-, hfaithful⟩ | hnil
    · exact hfaithful
    · exact faithful_of_nil hnil
  · show Faithful [] (step m).state
    rcases hq : m.queue with _ | ⟨head, queue⟩
    · rw [step_of_nil hq]
      exact h
    · rcases step_torn h hq with ⟨-, hfaithful⟩ | ⟨fault, -, htorn⟩
      · exact hfaithful
      · exact htorn.faithful

theorem faithful_of_reached {children : List σ} {dedupe : Bool} {account : Option Account}
    (h : Reached (ofChildren children dedupe account) m) : Faithful [] m := by
  induction h with
  | here => exact faithful_queueOf rfl
  | seek range families _ ih => exact faithful_make ih (.seek range families)
  | next _ ih => exact faithful_make ih .next
  | @copy m u env _ hcopy _ =>
      -- a copy's children are not placed, and nobody waits
      obtain ⟨_, -, rfl⟩ := exists_of_copy hcopy
      exact faithful_of_nil rfl

end Merge

end CellScan
