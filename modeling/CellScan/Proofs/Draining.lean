/-
`Draining.lean` -- stages that come to an end.

A filter comes to an end where its source does: each entry that it passes over is a step of
the source. It stops at no entry before the range if its source does not lead back; a source
that does may bring it there behind an entry that is passed over. A merge comes to an end
where its children do, whatever their order, and it never leads back.

So where every filter stands upon something that does not lead back, a merge or a source in
order, a stack of merges and filters is bounded (`Stack.bounded_of_orderly`).
-/
import CellScan.Proofs.Rising
import Mathlib.Algebra.GroupWithZero.Nat

set_option autoImplicit false

namespace CellScan

open CellScan.Action CellScan.Cursor CellScan.Entry
open List (Forall₂)
open scoped Linear

/-! ## Filters -/

namespace Filter

variable {σ : Type} [Cursor σ] {s : σ} {f g : Filter σ} {es : List Entry} {k n : Nat}
  {F : Fault → Prop} {fault : Fault}

omit [Cursor σ] in
theorem onSource_ends {x : Action σ Unit} (h : (x f.source).result ≠ .error .endless) :
    (onSource x f).result ≠ .error .endless := h

/-- With more turns than the source has steps ahead a filter fails only as the source does. -/
theorem passRejected_fails (h : Drains F False k f.source) (hk : k < n)
    (hfail : (passRejected n f).result = .error fault) : F fault := by
  induction n generalizing f k with
  | zero => omega
  | succ n ih =>
      rcases htop : Cursor.top f.source with _ | e
      · rw [passRejected_of_none htop] at hfail
        exact absurd hfail (by simp)
      · have htop' : Cursor.top f.source ≠ none := by simp [htop]
        rw [passRejected_of_some htop] at hfail
        rcases error_of_bind hfail with ⟨hdecide, -⟩ | ⟨accepted, f₁, hdecide, hrest, -⟩
        · simp [decideOn] at hdecide
        · have hsource : f₁.source = f.source := by
            rw [← hdecide.state]
            rfl
          by_cases hacc : accepted = true
          · simp [hacc] at hrest
          · rw [if_neg hacc] at hrest
            -- the source goes on by one step, and then there are fewer ahead
            rcases error_of_bind hrest with ⟨hmove, -⟩ | ⟨_, f₂, hmove, hrest', -⟩
            · exact h.next_fails htop' (hsource ▸ hmove : (Cursor.next f.source).result = _)
            · have hnext : Runs Cursor.next f.source () f₂.source := by
                rw [← hmove.state, ← hsource]
                exact runs_of_result hmove.result
              obtain ⟨j, hj, hdrains⟩ := h.step htop' hnext
              exact ih hdrains (by omega) hrest'

theorem settle_fails (h : Drains F False k f.source) (hfail : (settle f).result = .error fault) :
    F fault := by
  obtain ⟨j, -, hj, hdrains⟩ := h.trim
  exact passRejected_fails hdrains (Nat.lt_succ_of_le hj) hfail

/-- What settles has no more steps ahead than before. -/
theorem drains_of_settle (h : Drains F False k f.source) (hg : Runs settle f () g) :
    ∃ j, j ≤ k ∧ Drains F False j g.source := by
  refine of_settle (s := f.source) (P := fun t => ∃ j, j ≤ k ∧ Drains F False j t) ?_ .here
    ⟨k, le_refl k, h⟩ hg
  rintro t u - htop hu ⟨j, hj, ht⟩
  obtain ⟨i, hi, hdrains⟩ := ht.step htop hu
  exact ⟨i, by omega, hdrains⟩

/-- A step fails where the source fails, in its own step or where rejected entries are passed
over. -/
theorem step_fails (h : Drains F False k f.source) (htop : Cursor.top f.source ≠ none)
    (hfail : (step f).result = .error fault) : F fault := by
  rcases error_of_bind (x := onSource Cursor.next) hfail with
    ⟨hmove, -⟩ | ⟨_, f₁, hmove, hrest, -⟩
  · exact h.next_fails htop hmove
  · have hnext : Runs Cursor.next f.source () f₁.source := by
      rw [← hmove.state]
      exact runs_of_result hmove.result
    obtain ⟨j, -, hdrains⟩ := h.step htop hnext
    exact settle_fails hdrains hrest

/-- A filter has no more steps ahead than its source. -/
theorem drains (h : Drains F False k f.source) : ∃ j, j ≤ k ∧ Drains F False j f := by
  induction k using Nat.strongRecOn generalizing f with
  | ind k ih =>
      by_cases htop : Cursor.top f.source = none
      · exact ⟨0, Nat.zero_le k, .done htop⟩
      · rcases hstep : (step f).result with fault | _
        · exact ⟨0, Nat.zero_le k, .broken hstep (step_fails h htop hstep)⟩
        · obtain ⟨n, hnk, hreach, hn⟩ := h.trim
          obtain ⟨u, hmove, hsettle⟩ := step_of_runs (runs_of_result hstep)
          obtain ⟨j, hj, hsource⟩ := hn.step htop hmove
          obtain ⟨i, hi, hsettled⟩ := drains_of_settle hsource hsettle
          obtain ⟨l, hl, hrest⟩ := ih i (by omega) hsettled
          exact ⟨n, hnk, .more (runs_of_result hstep) (by omega) hreach hrest⟩

/-! ### The law -/

theorem step_ends (h : Bounded f.source es) : (step f).result ≠ .error .endless := by
  intro hstep
  rcases error_of_bind (x := onSource Cursor.next) hstep with ⟨hmove, -⟩ | ⟨_, f₁, hmove, hrest, -⟩
  · exact onSource_ends (h.next_ends .here) hmove
  · have hreached : Reached f.source f₁.source := by
      rw [← hmove.state]
      exact Reached.here.next
    exact settle_fails (h.drains hreached) hrest rfl

theorem place_ends (h : Bounded f.source es) (range : Range) (families : FamilyFilter) :
    (place range families f).result ≠ .error .endless := by
  rw [place_apply, (bind_of_ok _ rfl).1]
  intro hplace
  rcases error_of_bind hplace with ⟨hmove, -⟩ | ⟨_, f₁, hmove, hrest, -⟩
  · exact onSource_ends (h.seek_ends .here range families) hmove
  · have hreached : Reached f.source f₁.source := by
      rw [← hmove.state]
      exact Reached.here.seek range families
    exact settle_fails (h.drains hreached) hrest rfl

/-- A seek that succeeds is a seek of the source that succeeds, and what is rejected is passed
over. -/
theorem place_of_runs {range : Range} {families : FamilyFilter}
    (h : Runs (place range families) f () g) :
    ∃ u, Runs (Cursor.seek range families) f.source () u
      ∧ Runs settle { f with source := u } () g := by
  have hplace := h.of_eq (place_apply range families f).symm
  obtain ⟨_, f₀, hrecord, hrest, hstate⟩ := ok_of_bind hplace.result
  obtain rfl : f = f₀ := hrecord.state
  obtain ⟨_, f₁, hmove, hsettle, hstate'⟩ := ok_of_bind hrest
  obtain rfl := hmove.state
  refine ⟨_, runs_of_result hmove.result, ?_⟩
  rw [← hplace.state, hstate, hstate']
  exact runs_of_result hsettle

/-- A filter stops at no entry before the range, since its source does not lead back. -/
theorem bounded (h : Bounded f.source es) (hrises : Rises (· ≤ ·) f.source) : Bounded f es := by
  refine ⟨?_, h.length_le, ?_, ?_, ?_, ?_, ?_⟩
  · exact fun hg => h.tops (reached_source hg)
  · exact fun hg => h.reach (reached_source hg)
  · intro g hg
    obtain ⟨j, hj, hdrains⟩ := drains (h.drains (reached_source hg))
    exact hdrains.mono hj (le_refl _)
  · exact fun hg => place_ends (h.of_reached (reached_source hg))
  · intro g hg range families g' hg' e he
    have hreached := reached_source hg
    obtain ⟨u, hseek, hsettle⟩ := place_of_runs hg'
    have hreached₁ : Reached f.source u := by
      rw [← hseek.state]
      exact hreached.seek range families
    refine of_settle (s := f.source)
      (P := fun t => ∀ x ∈ Cursor.top t, range.isBefore x.1 = false) ?_ hreached₁
      (h.stops hreached hseek) hsettle e he
    -- what lies before a range is closed downwards
    intro t u ht htop hu hall x hx
    obtain ⟨y, hy⟩ := Option.ne_none_iff_exists'.mp htop
    have hle := hrises ht hu hy hx
    by_contra hbefore
    rw [Bool.not_eq_false] at hbefore
    have hyback := hall y hy
    rw [Range.isBefore_of_le hbefore hle] at hyback
    exact Bool.noConfusion hyback
  · exact fun hg => step_ends (h.of_reached (reached_source hg))

end Filter

/-! ## Merges -/

namespace Merge

variable {σ : Type} [Cursor σ] {m m₁ m' : Merge σ} {cs : List σ} {s t : σ} {es : List Entry}
  {key : Key} {child k n : Nat} {dedupe : Bool} {F : Fault → Prop} {falls : Prop} {fault : Fault}

/-! ### One child -/

theorem top_ne_none (h : topKey s = some key) : Cursor.top s ≠ none := by
  intro hnone
  simp [topKey, hnone] at h

/-- The cursor stands behind the key. -/
def Behind (key : Key) (s : σ) : Prop := ∃ k, topKey s = some k ∧ k < key

/-- A step off the key takes one off what is ahead, unless it falls back behind it. -/
theorem drains_of_next (h : Drains F falls k s) (hkey : topKey s = some key)
    (hnext : Runs Cursor.next s () t) :
    0 < k ∧ ((∃ j, j < k ∧ Drains F falls j t) ∨ Behind key t) := by
  refine (h.step_or (top_ne_none hkey) hnext).imp_right (Or.imp_right ?_)
  rintro ⟨-, x, x', hx, hx', hlt⟩
  exact ⟨x', hx', Option.some.inj (hx.symm.trans hkey) ▸ hlt⟩

theorem Behind.ne (h : Behind key s) : topKey s ≠ some key := by
  obtain ⟨k, hk, hlt⟩ := h
  intro hkey
  exact ne_of_lt hlt (Option.some.inj (hk.symm.trans hkey))

theorem passRepeats_of_ne (h : topKey s ≠ some key) (n : Nat) :
    Runs (passRepeats key (n + 1)) s () s :=
  (runs_give () s).of_eq (by simp only [passRepeats, if_neg h])

theorem passRepeats_fails (h : Drains F falls k s) (hk : k < n)
    (hfail : (passRepeats key n s).result = .error fault) : F fault := by
  induction n generalizing s k with
  | zero => omega
  | succ n ih =>
      by_cases hkey : topKey s = some key
      · simp only [passRepeats, if_pos hkey] at hfail
        rcases error_of_bind hfail with ⟨hnext, -⟩ | ⟨_, t, hnext, hrest, -⟩
        · exact h.next_fails (top_ne_none hkey) hnext
        · obtain ⟨h0, ⟨j, hj, hdrains⟩ | hbehind⟩ := drains_of_next h hkey hnext
          · exact ih hdrains (by omega) hrest
          · -- one that has fallen back is not passed on any further
            obtain ⟨n, rfl⟩ : ∃ j, n = j + 1 := ⟨n - 1, by omega⟩
            exact absurd ((passRepeats_of_ne hbehind.ne n).result.symm.trans hrest) (by simp)
      · exact absurd ((passRepeats_of_ne hkey n).result.symm.trans hfail) (by simp)

theorem drains_of_passRepeats (h : Drains F falls k s) (hs : Runs (passRepeats key n) s () t) :
    (∃ j, j ≤ k ∧ Drains F falls j t) ∨ Behind key t := by
  induction n generalizing s k with
  | zero => exact absurd hs.result (by simp [passRepeats])
  | succ n ih =>
      by_cases hkey : topKey s = some key
      · have hloop : Runs (Cursor.next >>= fun _ => passRepeats key n) s () t :=
          hs.of_eq (by simp only [passRepeats, if_pos hkey])
        obtain ⟨_, u, hnext, hrest, hstate⟩ := ok_of_bind hloop.result
        have hpass := runs_of_result hrest
        rw [← hstate, hloop.state] at hpass
        obtain ⟨-, ⟨j, hj, hdrains⟩ | hbehind⟩ := drains_of_next h hkey hnext
        · refine (ih hdrains hpass).imp_left ?_
          rintro ⟨i, hi, ht⟩
          exact ⟨i, by omega, ht⟩
        · rcases n with _ | n
          · exact absurd hpass.result (by simp [passRepeats])
          · obtain rfl : u = t := (passRepeats_of_ne hbehind.ne n).state.symm.trans hpass.state
            exact Or.inr hbehind
      · obtain rfl : s = t := (passRepeats_of_ne hkey n).state.symm.trans hs.state
        exact Or.inl ⟨k, le_refl k, h⟩

/-- A child fails only as it is known to while it leaves a key. -/
theorem leave_fails (h : Drains F falls k s) (hkey : topKey s = some key)
    (hfail : (leave dedupe key s).result = .error fault) : F fault := by
  by_cases hd : dedupe = true
  · simp only [leave, if_pos hd] at hfail
    rcases error_of_bind hfail with ⟨hnext, -⟩ | ⟨_, t, hnext, hrest, -⟩
    · exact h.next_fails (top_ne_none hkey) hnext
    · obtain ⟨n, -, hreach, hn⟩ := h.trim
      obtain ⟨-, ⟨j, hj, hdrains⟩ | hbehind⟩ := drains_of_next hn hkey hnext
      · exact passRepeats_fails hdrains (by omega) hrest
      · exact absurd ((passRepeats_of_ne hbehind.ne _).result.symm.trans hrest) (by simp)
  · simp only [leave, if_neg hd] at hfail
    exact h.next_fails (top_ne_none hkey) hfail

/-- To leave a key takes a step off what is ahead, unless it leads back behind the key. -/
theorem drains_of_leave (h : Drains F falls k s) (hkey : topKey s = some key)
    (hs : Runs (leave dedupe key) s () t) :
    (∃ j, j < k ∧ Drains F falls j t) ∨ Behind key t := by
  by_cases hd : dedupe = true
  · have hboth : Runs (Cursor.next >>= fun _ => passRepeats key (Cursor.reach s + 1)) s () t :=
      hs.of_eq (by simp only [leave, if_pos hd])
    obtain ⟨_, u, hnext, hrest, hstate⟩ := ok_of_bind hboth.result
    have hpass := runs_of_result hrest
    rw [← hstate, hboth.state] at hpass
    obtain ⟨-, ⟨j, hj, hdrains⟩ | hbehind⟩ := drains_of_next h hkey hnext
    · refine (drains_of_passRepeats hdrains hpass).imp_left ?_
      rintro ⟨i, hi, ht⟩
      exact ⟨i, by omega, ht⟩
    · obtain rfl : u = t := (passRepeats_of_ne hbehind.ne _).state.symm.trans hpass.state
      exact Or.inr hbehind
  · exact (drains_of_next h hkey (hs.of_eq (by simp only [leave, if_neg hd]))).2

/-! ### How much is ahead -/

/-- As many steps are ahead of the children. -/
def Ahead (F : Fault → Prop) (falls : Prop) (ns : List Nat) (m : Merge σ) : Prop :=
  Forall₂ (Drains F falls) ns m.children

theorem Ahead.trim {ns : List Nat} (h : Ahead F falls ns m) :
    ∃ ns', ns'.sum ≤ ns.sum ∧ ns'.sum ≤ Cursor.reach m ∧ Ahead F falls ns' m := by
  have hall : ∀ {ns : List Nat} {cs : List σ}, Forall₂ (Drains F falls) ns cs →
      ∃ ns', ns'.sum ≤ ns.sum ∧ ns'.sum ≤ (cs.map Cursor.reach).foldr (· + ·) 0
        ∧ Forall₂ (Drains F falls) ns' cs := by
    intro ns cs hns
    induction hns with
    | nil => exact ⟨[], le_refl _, le_refl _, .nil⟩
    | cons hs _ ih =>
        obtain ⟨k, hk, hreach, hdrains⟩ := hs.trim
        obtain ⟨ks, hks, hreach', hdrains'⟩ := ih
        refine ⟨k :: ks, ?_, ?_, .cons hdrains hdrains'⟩
        · simp only [List.sum_cons]
          omega
        · simp only [List.sum_cons, List.map_cons, List.foldr_cons]
          omega
  exact hall h

theorem sum_set_lt {ns : List Nat} {i a b : Nat} (h : ns[i]? = some a) (hba : b < a) :
    (ns.set i b).sum < ns.sum := by
  induction ns generalizing i with
  | nil => simp at h
  | cons x ns ih =>
      rcases i with _ | i
      · simp only [List.getElem?_cons_zero, Option.some.injEq] at h
        simp [h, hba]
      · simp only [List.getElem?_cons_succ] at h
        have hless := ih h
        simp only [List.set_cons_succ, List.sum_cons]
        omega

theorem Advanced.not_behind (h : Advanced child key m m' s t) : ¬ Behind key t := by
  rintro ⟨k, hk, hlt⟩
  rcases h.queue with ⟨hnone, -⟩ | ⟨k', hk', hle, -⟩
  · exact absurd (hnone.symm.trans hk) (by simp)
  · exact absurd (Option.some.inj (hk'.symm.trans hk) ▸ hle) (not_le_of_gt hlt)

theorem Advanced.ahead {ns : List Nat} (h : Advanced child key m m' s t) (hns : Ahead F falls ns m) :
    ∃ ns', ns'.sum < ns.sum ∧ Ahead F falls ns' m' := by
  obtain ⟨a, ha, hdrains⟩ := Parallel.exists_left hns h.stood
  obtain ⟨b, hba, hb⟩ := (drains_of_leave hdrains h.leaves h.moved).resolve_right h.not_behind
  refine ⟨ns.set child b, sum_set_lt ha hba, ?_⟩
  rw [Ahead, h.children]
  exact Parallel.set hns hb child

theorem Passes.ahead {ns : List Nat} (h : Passes key m m') (hns : Ahead F falls ns m) :
    ∃ ns', ns'.sum ≤ ns.sum ∧ Ahead F falls ns' m' := by
  induction h generalizing ns with
  | done _ => exact ⟨ns, le_refl _, hns⟩
  | more _ _ hadv _ ih =>
      obtain ⟨ns₁, hless, hns₁⟩ := hadv.ahead hns
      obtain ⟨ns', hle, hns'⟩ := ih hns₁
      exact ⟨ns', by omega, hns'⟩

/-- With every step there is less ahead of the children. -/
theorem Stepped.ahead {head : Head} {queue : List Head} {ns : List Nat}
    (h : Stepped m m₁ m' head queue s t) (hns : Ahead F falls ns m) :
    ∃ ns', ns'.sum < ns.sum ∧ Ahead F falls ns' m' := by
  obtain ⟨ns₁, hle, hns₁⟩ : ∃ ns₁, ns₁.sum ≤ ns.sum ∧ Ahead F falls ns₁ m₁ := by
    have hpeers := h.peers
    split at hpeers
    · exact hpeers.ahead hns
    · rw [hpeers]
      exact ⟨ns, le_refl _, hns⟩
  obtain ⟨ns', hless, hns'⟩ := h.advanced.ahead hns₁
  exact ⟨ns', by omega, hns'⟩

theorem SteppedBack.ne_endless (h : SteppedBack fault) : fault ≠ .endless := by
  obtain ⟨child, k, k', -, rfl⟩ := h
  exact Fault.noConfusion

/-- A child that waits fails only as it is known to. -/
theorem FailsAt.of_ahead {ns : List Nat} (h : FailsAt m key child fault) (hns : Ahead F falls ns m) :
    F fault := by
  obtain ⟨s, hs, hkey, hfail⟩ := h
  obtain ⟨k, -, hdrains⟩ := Parallel.exists_left hns hs
  exact leave_fails hdrains hkey hfail

/-- A merge has no more steps ahead than its children. It fails as one of them does, or one of
them has stepped back. -/
theorem drains {ns : List Nat} (h : Faithful [] m) (hns : Ahead F falls ns m) :
    ∃ k, k ≤ ns.sum ∧ Drains (fun fault => F fault ∨ SteppedBack fault) False k m := by
  generalize hn : ns.sum = n
  induction n using Nat.strongRecOn generalizing m ns with
  | ind n ih =>
      rcases hq : m.queue with _ | ⟨head, queue⟩
      · exact ⟨0, Nat.zero_le n, .done (h.top_eq_none_iff.mpr hq)⟩
      · rcases step_torn h hq with ⟨hok, hfaithful⟩ | ⟨fault, hfail, htorn⟩
        · obtain ⟨ns₀, hle, hreach, hns₀⟩ := hns.trim
          have hruns := runs_of_result hok
          obtain ⟨m₁, head, queue, s, t, hstepped⟩ := stepped_of_runs h hruns
          obtain ⟨ns', hless, hns'⟩ := hstepped.ahead hns₀
          obtain ⟨k, hk, hrest⟩ := ih ns'.sum (by omega) hfaithful hns' rfl
          exact ⟨ns₀.sum, by omega, .more hruns (by omega) hreach hrest⟩
        · refine ⟨0, Nat.zero_le n, .broken hfail ?_⟩
          rcases htorn with ⟨hback, -⟩ | ⟨child, hfails, -⟩
          · exact Or.inr hback
          · exact Or.inl (hfails.of_ahead hns)

/-! ### The law -/

/-- A seek that succeeds has placed all children. -/
theorem placed_of_runs {range : Range} {families : FamilyFilter}
    (h : Runs (place range families) m () m') :
    Forall₂ (fun c u => Runs (Cursor.seek range families) c () u) m.children m'.children
      ∧ m'.queue = queueOf m'.children ∧ m'.dedupe = m.dedupe := by
  have happly : place range families m
      = ((Action.on children (fun m cs => { m with children := cs })
          (Action.onEach (Cursor.seek range families))) >>= fun _ =>
        change fun m => { m with queue := queueOf m.children }) { m with queue := [] } := rfl
  obtain ⟨_, m₁, hseeks, -, hstate⟩ := ok_of_bind (happly ▸ h.result)
  have hm' : m' = { m₁ with queue := queueOf m₁.children } := by
    rw [← h.state, happly, hstate]
    rfl
  have heach : (onEach (Cursor.seek range families) m.children).result = .ok () := hseeks.result
  obtain rfl := hseeks.state
  subst hm'
  exact ⟨forall_runs_of_onEach heach, rfl, rfl⟩

/-- A seek fails only as that of a child does. -/
theorem place_fails {range : Range} {families : FamilyFilter}
    (h : (place range families m).result = .error fault) :
    ∃ c ∈ m.children, (Cursor.seek range families c).result = .error fault := by
  have happly : place range families m
      = ((Action.on children (fun m cs => { m with children := cs })
          (Action.onEach (Cursor.seek range families))) >>= fun _ =>
        change fun m => { m with queue := queueOf m.children }) { m with queue := [] } := rfl
  rcases error_of_bind (happly ▸ h) with ⟨hseeks, -⟩ | ⟨_, _, -, hchange, -⟩
  · exact exists_error_of_onEach hseeks
  · exact absurd hchange (by simp [change])

theorem length_flatten_le_reach {ess : List (List Entry)} (h : Forall₂ Bounded cs ess) :
    ess.flatten.length ≤ (cs.map Cursor.reach).foldr (· + ·) 0 := by
  induction h with
  | nil => exact Nat.zero_le _
  | cons hc _ ih =>
      rw [List.flatten_cons, List.length_append, List.map_cons, List.foldr_cons]
      exact Nat.add_le_add hc.length_le ih

/-- The entry that a merge stands at is that of a child. -/
theorem exists_child_of_top {e : Entry} (h : Cursor.top m = some e) :
    ∃ (i : Nat) (c : σ), m.children[i]? = some c ∧ Cursor.top c = some e := by
  have hcurrent : (m.queue.head?.bind fun head => (m.children[head.child]?).bind Cursor.top)
      = some e := h
  obtain ⟨head, -, hc⟩ := Option.bind_eq_some_iff.mp hcurrent
  obtain ⟨c, hc, he⟩ := Option.bind_eq_some_iff.mp hc
  exact ⟨head.child, c, hc, he⟩

/-- Wherever calls and copies bring a merge, its children are bounded there. -/
theorem exists_bounded {children : List σ} {ess : List (List Entry)} {dedupe : Bool}
    {account : Option Account} (h : Forall₂ Bounded children ess)
    (hm : Reached (ofChildren children dedupe account) m) :
    ∀ s ∈ m.children, ∃ es ∈ ess, Bounded s es := by
  intro s hs
  obtain ⟨i, hi⟩ := List.mem_iff_getElem?.mp hs
  obtain ⟨c, hc, hreached⟩ := Parallel.exists_left (upon_of_reached hm).1 hi
  obtain ⟨es, hes, hbounded⟩ := Parallel.exists_right h hc
  exact ⟨es, List.mem_of_getElem? hes, hbounded.of_reached hreached⟩

/-- Bounded children have no more ahead than they reach. -/
theorem ahead_of_bounded {ess : List (List Entry)} (h : ∀ s ∈ m.children, ∃ es ∈ ess, Bounded s es) :
    Ahead (· ≠ .endless) False (m.children.map Cursor.reach) m := by
  rw [Ahead, List.forall₂_map_left_iff, List.forall₂_same]
  intro s hs
  obtain ⟨es, -, hes⟩ := h s hs
  exact hes.drains .here

theorem step_ends {ns : List Nat} (hm : Faithful [] m) (h : Ahead (· ≠ .endless) False ns m) :
    (step m).result ≠ .error .endless := by
  rcases hq : m.queue with _ | ⟨head, queue⟩
  · rw [step_of_nil hq]
    exact fun hstep => Fault.noConfusion (Except.error.inj hstep)
  · rcases step_torn hm hq with ⟨hok, -⟩ | ⟨fault, hfail, hback | ⟨_, hfails, -⟩⟩
    · rw [hok]
      simp
    · rw [hfail]
      exact fun hstep => hback.1.ne_endless (Except.error.inj hstep)
    · rw [hfail]
      exact fun hstep => hfails.of_ahead h (Except.error.inj hstep)

/-- In whatever order its children are, a merge of children that come to an end does so. -/
theorem bounded {children : List σ} {ess : List (List Entry)} (h : Forall₂ Bounded children ess)
    (dedupe : Bool) (account : Option Account) :
    Bounded (ofChildren children dedupe account) ess.flatten := by
  refine ⟨?_, length_flatten_le_reach h, ?_, ?_, ?_, ?_, ?_⟩
  · intro m hm e he
    obtain ⟨i, s, hs, htop⟩ := exists_child_of_top he
    obtain ⟨es, hmem, hes⟩ := exists_bounded h hm s (List.mem_of_getElem? hs)
    exact List.mem_flatten.mpr ⟨es, hmem, hes.tops .here e htop⟩
  · intro m hm
    refine congrArg (List.foldr (· + ·) 0) (map_reach ?_ (upon_of_reached hm).1)
    intro c hc t ht
    obtain ⟨es, hes⟩ : ∃ es, Bounded c es := by
      obtain ⟨i, hi⟩ := List.mem_iff_getElem?.mp hc
      obtain ⟨es, -, hes⟩ := Parallel.exists_right h hi
      exact ⟨es, hes⟩
    exact hes.reach ht
  · intro m hm
    obtain ⟨k, hk, hdrains⟩ := drains (faithful_of_reached hm) (ahead_of_bounded (exists_bounded h hm))
    refine (hdrains.imp ?_).mono (hk.trans (List.sum_eq_foldr (l := _)).le) (le_refl _)
    rintro fault (hfault | hback)
    · exact hfault
    · exact hback.ne_endless
  · intro m hm range families hplace
    obtain ⟨s, hs, hseek⟩ := place_fails hplace
    obtain ⟨es, -, hes⟩ := exists_bounded h hm s hs
    exact hes.seek_ends .here range families hseek
  · intro m hm range families m' hm' e he
    obtain ⟨hseeks, -, -⟩ := placed_of_runs hm'
    obtain ⟨i, s', hs', htop⟩ := exists_child_of_top he
    obtain ⟨s, hs, hseek⟩ := Parallel.exists_left hseeks hs'
    obtain ⟨es, -, hes⟩ := exists_bounded h hm s (List.mem_of_getElem? hs)
    exact hes.stops .here hseek e htop
  · intro m hm
    exact step_ends (faithful_of_reached hm) (ahead_of_bounded (exists_bounded h hm))

end Merge

/-! ## Stacks -/

/-- A stack of merges and filters, on which calls may have been made, over sources that come
to an end. Every filter in it stands upon something that does not lead back: a merge, a source
that does not, or another such filter. The flag says whether the stack does not lead back. -/
inductive Stack.Orderly {σ : Type} [Cursor σ] : Bool → (n : Nat) → Stack σ n → Prop
  | source {rises : Bool} {s : σ} {es : List Entry} : Bounded s es →
      (rises = true → Rises (· ≤ ·) s) → Orderly rises 0 s
  | bare {rises : Bool} {n : Nat} {s : Stack σ n} : Orderly rises n s →
      Orderly rises (n + 1) (Layer.bare s)
  | merge {rises : Bool} {n : Nat} {children : List (Stack σ n)} (dedupe : Bool)
      (account : Option Account) : (∀ c ∈ children, Orderly false n c) →
      Orderly rises (n + 1) (Layer.merge (Merge.ofChildren children dedupe account))
  | filter {rises : Bool} {n : Nat} {s : Stack σ n} (predicates : List Predicate)
      (env : Environment) : Orderly true n s →
      Orderly rises (n + 1) (Layer.filter (Filter.ofPredicates s predicates env))
  | moved {rises : Bool} {n : Nat} {s t : Stack σ n} : Orderly rises n s → Reached s t →
      Orderly rises n t

theorem Stack.bounded_of_orderly {σ : Type} [Cursor σ] {rises : Bool} {n : Nat} {s : Stack σ n}
    (h : Orderly rises n s) :
    (∃ es, Bounded s es) ∧ (rises = true → Rises (· ≤ ·) s) := by
  induction h with
  | source hbounded hrises => exact ⟨⟨_, hbounded⟩, hrises⟩
  | bare _ ih =>
      obtain ⟨⟨es, hes⟩, hrises⟩ := ih
      exact ⟨⟨es, Layer.wraps_bare.bounded hes⟩, fun hr => Layer.wraps_bare.rises (hrises hr)⟩
  | @merge _ n children dedupe account _ ih =>
      obtain ⟨ess, hess⟩ := Parallel.exists_of_forall fun c hc => (ih c hc).1
      refine ⟨⟨_, Layer.wraps_merge.bounded (Merge.bounded hess dedupe account)⟩, fun _ => ?_⟩
      exact Layer.wraps_merge.rises ((Merge.rises children dedupe account).imp fun _ _ hk => hk.1)
  | filter predicates env _ ih =>
      obtain ⟨⟨es, hes⟩, hrises⟩ := ih
      have hsource := hrises rfl
      exact ⟨⟨es, Layer.wraps_filter.bounded (Filter.bounded hes hsource)⟩,
        fun _ => Layer.wraps_filter.rises (Filter.rises (fun hk hk' => le_trans hk hk') hsource)⟩
  | moved _ hreached ih =>
      obtain ⟨⟨es, hes⟩, hrises⟩ := ih
      exact ⟨⟨es, hes.of_reached hreached⟩, fun hr => (hrises hr).of_reached hreached⟩

/-- A table may stand anywhere in such a stack. -/
theorem Stack.orderly_table (rises : Bool) (t : Table) :
    Orderly rises 0 (Source.table t : Stack Source 0) :=
  .source (Source.wraps_table.bounded t.bounded) fun _ => Source.wraps_table.rises t.rises

/-- A tape may stand in one, below a filter only if it is in key order or a merge is between. -/
theorem Stack.orderly_tape {rises : Bool} {t : Tape} (h : rises = true → Ascending t.entries) :
    Orderly rises 0 (Source.tape t : Stack Source 0) :=
  .source (Source.wraps_tape.bounded t.bounded) fun hr => Source.wraps_tape.rises (Tape.rises (h hr))

end CellScan
