/-
`Calls.lean` -- what a cursor comes to over many calls.

`Runs` says that a call succeeds, with which result and in which state; what it
records is left open. `Leads` follows `next` from a state to the end: each `next` on
the way succeeds, and `reach` does bound what is still to come. `Lists` is the law
of a cursor that never fails: from wherever earlier calls have brought it, a seek
succeeds and leads through one fixed list for the range and the families sought.

Stages are shown to keep that law by an invariant of their states
(`Lists.of_invariant`), so what they list is said once and not once for each history.
-/
import CellScan.Proofs.Entries
import CellScan.Scan

set_option autoImplicit false

namespace CellScan

open Entry

/-! ## Calls that succeed -/

namespace Action

variable {σ τ α β : Type}

/-- The call succeeds from `s` with `a` and leaves `t`. -/
def Runs (x : Action σ α) (s : σ) (a : α) (t : σ) : Prop := ∃ events, x s = ⟨.ok a, t, events⟩

theorem Runs.result {x : Action σ α} {s t : σ} {a : α} (h : Runs x s a t) :
    (x s).result = .ok a := by
  obtain ⟨events, he⟩ := h
  rw [he]

theorem Runs.state {x : Action σ α} {s t : σ} {a : α} (h : Runs x s a t) : (x s).state = t := by
  obtain ⟨events, he⟩ := h
  rw [he]

theorem runs_of_result {x : Action σ α} {s : σ} {a : α} (h : (x s).result = .ok a) :
    Runs x s a (x s).state := ⟨(x s).events, by rw [← h]⟩

theorem Runs.of_eq {x y : Action σ α} {s t u : σ} {a : α} (h : Runs y t a u) (hxy : x s = y t) :
    Runs x s a u := by
  obtain ⟨events, he⟩ := h
  exact ⟨events, hxy.trans he⟩

theorem runs_give (a : α) (s : σ) : Runs (give a) s a s := ⟨[], rfl⟩

theorem runs_pure (a : α) (s : σ) : Runs (pure a) s a s := ⟨[], rfl⟩

theorem runs_look (f : σ → α) (s : σ) : Runs (look f) s (f s) s := ⟨[], rfl⟩

theorem runs_change (f : σ → σ) (s : σ) : Runs (change f) s () (f s) := ⟨[], rfl⟩

theorem runs_record (events : List Event) (s : σ) : Runs (record events) s () s := ⟨events, rfl⟩

theorem Runs.bind {x : Action σ α} {f : α → Action σ β} {s t u : σ} {a : α} {b : β}
    (hx : Runs x s a t) (hf : Runs (f a) t b u) : Runs (x >>= f) s b u := by
  obtain ⟨es, he⟩ := hx
  obtain ⟨fs, hfs⟩ := hf
  refine ⟨es ++ fs, ?_⟩
  rw [bind_apply_ok he, hfs]

/-- What a sequence of calls records when the first of them succeeds. -/
theorem Runs.events_bind {x : Action σ α} {s t : σ} {a : α} (h : Runs x s a t)
    (f : α → Action σ β) : ((x >>= f) s).events = (x s).events ++ (f a t).events := by
  obtain ⟨events, he⟩ := h
  rw [bind_apply_ok he, he]

theorem Runs.on {x : Action σ α} {part : τ → σ} {put : τ → σ → τ} {t : τ} {a : α} {s : σ}
    (h : Runs x (part t) a s) : Runs (on part put x) t a (put t s) := by
  obtain ⟨events, he⟩ := h
  refine ⟨events, ?_⟩
  rw [Action.on, he]
  rfl

theorem runs_within {x : Action σ α} {y : Action τ α} {put : σ → τ} {s t : σ} {u : τ} {a : α}
    (h : Runs x s a t) (hy : y u = (x s).within put) : Runs y u a (put t) := by
  obtain ⟨events, he⟩ := h
  refine ⟨events, ?_⟩
  rw [hy, he]
  rfl

theorem runs_onItem {x : Action σ α} {ss : List σ} {i : Nat} {s t : σ} {a absent : α}
    (hs : ss[i]? = some s) (h : Runs x s a t) :
    Runs (onItem i absent x) ss a (ss.set i t) := by
  obtain ⟨events, he⟩ := h
  refine ⟨events, ?_⟩
  simp only [onItem, hs, he]
  rfl

theorem runs_onEach {x : Action σ Unit} {ss ts : List σ}
    (h : List.Forall₂ (fun s t => Runs x s () t) ss ts) : Runs (onEach x) ss () ts := by
  induction h with
  | nil => exact ⟨[], rfl⟩
  | cons hs _ ih =>
      -- the events of the first item come before those of the others
      obtain ⟨es, he⟩ := hs
      obtain ⟨fs, hfs⟩ := ih
      refine ⟨es ++ fs, ?_⟩
      simp only [onEach, he, hfs]

/-- A call on each item succeeds only if it does on all of them. -/
theorem forall_runs_of_onEach {x : Action σ Unit} {ss : List σ}
    (h : (onEach x ss).result = .ok ()) :
    List.Forall₂ (fun s t => Runs x s () t) ss (onEach x ss).state := by
  induction ss with
  | nil => exact .nil
  | cons s ss ih =>
      rcases hx : x s with ⟨fault | _, t, events⟩
      · simp [onEach, hx] at h
      · simp only [onEach, hx] at h ⊢
        exact .cons ⟨events, hx⟩ (ih h)

/-- A call on each item fails as it does on one of them. -/
theorem exists_error_of_onEach {x : Action σ Unit} {ss : List σ} {fault : Fault}
    (h : (onEach x ss).result = .error fault) : ∃ s ∈ ss, (x s).result = .error fault := by
  induction ss with
  | nil => exact absurd h (by simp [onEach])
  | cons s ss ih =>
      rcases hx : x s with ⟨fault' | _, t, events⟩
      · simp only [onEach, hx] at h
        refine ⟨s, List.mem_cons_self, ?_⟩
        rw [hx]
        exact h
      · simp only [onEach, hx] at h
        obtain ⟨s', hs', hfail⟩ := ih h
        exact ⟨s', List.mem_cons_of_mem s hs', hfail⟩

/-- What follows a success goes on from the state it left. -/
theorem bind_of_ok {x : Action σ α} (f : α → Action σ β) {s : σ} {a : α}
    (h : (x s).result = .ok a) :
    ((x >>= f) s).result = (f a (x s).state).result
      ∧ ((x >>= f) s).state = (f a (x s).state).state := by
  obtain ⟨events, he⟩ := runs_of_result h
  rw [bind_apply_ok he]
  exact ⟨rfl, rfl⟩

/-- Nothing follows a failure. -/
theorem bind_of_error {x : Action σ α} (f : α → Action σ β) {s : σ} {fault : Fault}
    (h : (x s).result = .error fault) :
    ((x >>= f) s).result = .error fault ∧ ((x >>= f) s).state = (x s).state := by
  rcases hx : x s with ⟨_ | a, t, events⟩
  · rw [hx] at h
    rw [bind_apply_error hx]
    exact ⟨congrArg Except.error (Except.error.inj h), rfl⟩
  · rw [hx] at h
    exact Except.noConfusion rfl rfl (heq_of_eq h)

/-- What is read off a result is there only if the result is. -/
theorem exists_of_map_ok {f : α → β} {x : Except Fault α} {b : β} (h : x.map f = .ok b) :
    ∃ a, x = .ok a ∧ b = f a := by
  rcases x with fault | a
  · exact Except.noConfusion rfl rfl (heq_of_eq h)
  · exact ⟨a, rfl, (Except.ok.inj h).symm⟩

/-- What a sequence of calls comes to when it succeeds. -/
theorem ok_of_bind {x : Action σ α} {f : α → Action σ β} {s : σ} {b : β}
    (h : ((x >>= f) s).result = .ok b) :
    ∃ a t, Runs x s a t ∧ (f a t).result = .ok b ∧ ((x >>= f) s).state = (f a t).state := by
  rcases hx : x s with ⟨_ | a, t, events⟩
  · rw [bind_apply_error hx] at h
    exact absurd h (by simp)
  · rw [bind_apply_ok hx] at h ⊢
    exact ⟨a, t, ⟨events, hx⟩, h, rfl⟩

/-- What a sequence of calls comes to when it fails. -/
theorem error_of_bind {x : Action σ α} {f : α → Action σ β} {s : σ} {fault : Fault}
    (h : ((x >>= f) s).result = .error fault) :
    ((x s).result = .error fault ∧ ((x >>= f) s).state = (x s).state)
      ∨ ∃ a t, Runs x s a t ∧ (f a t).result = .error fault
        ∧ ((x >>= f) s).state = (f a t).state := by
  rcases hx : x s with ⟨_ | a, t, events⟩
  · rw [bind_apply_error hx] at h ⊢
    exact Or.inl ⟨congrArg Except.error (Except.error.inj h), rfl⟩
  · rw [bind_apply_ok hx] at h ⊢
    exact Or.inr ⟨a, t, ⟨events, hx⟩, h, rfl⟩

/-! ## What calls keep, whatever they come to -/

/-- Whether it succeeds or fails, the call keeps a property of the state. -/
def Keeps (P : σ → Prop) (x : Action σ α) : Prop := ∀ s, P s → P (x s).state

section Keeps

variable {P : σ → Prop}

theorem keeps_give (a : α) : Keeps P (give a) := fun _ h => h

theorem keeps_pure (a : α) : Keeps P (pure a : Action σ α) := fun _ h => h

theorem keeps_fail (fault : Fault) : Keeps P (fail fault : Action σ α) := fun _ h => h

theorem keeps_look (f : σ → α) : Keeps P (look f) := fun _ h => h

theorem keeps_record (events : List Event) : Keeps P (record events) := fun _ h => h

theorem keeps_change {f : σ → σ} (h : ∀ s, P s → P (f s)) : Keeps P (change f) := h

theorem Keeps.bind {x : Action σ α} {f : α → Action σ β} (hx : Keeps P x)
    (hf : ∀ a, Keeps P (f a)) : Keeps P (x >>= f) := by
  intro s hs
  have ht := hx s hs
  rcases hxs : x s with ⟨_ | a, t, events⟩
  · rw [hxs] at ht
    rw [bind_apply_error hxs]
    exact ht
  · rw [hxs] at ht
    rw [bind_apply_ok hxs]
    exact hf a t ht

theorem keeps_on {x : Action σ α} {part : τ → σ} {put : τ → σ → τ} {Q : τ → Prop}
    (h : ∀ t, Q t → Q (put t (x (part t)).state)) : Keeps Q (on part put x) := h

end Keeps

end Action

open CellScan.Action

/-! ## Histories -/

/-- A call by a reader. -/
inductive Call where
  | seek (range : Range) (families : FamilyFilter)
  | next

namespace Cursor

variable {σ : Type} [Cursor σ]

/-- What a call does. -/
def perform : Call → Action σ Unit
  | .seek range families => Cursor.seek range families
  | .next => Cursor.next

/-- The state that a call leaves, whatever it comes to. -/
def make (s : σ) (call : Call) : σ := (perform call s).state

/-- The state after calls in turn. -/
def after (s : σ) (calls : List Call) : σ := calls.foldl make s

theorem after_concat (s : σ) (calls : List Call) (call : Call) :
    after s (calls ++ [call]) = (perform call (after s calls)).state := by
  rw [after, List.foldl_append]
  rfl

/-- The states that calls and copying bring a cursor to. -/
inductive Reached (s : σ) : σ → Prop
  | here : Reached s s
  | seek {t : σ} (range : Range) (families : FamilyFilter) :
      Reached s t → Reached s (Cursor.seek range families t).state
  | next {t : σ} : Reached s t → Reached s (Cursor.next t).state
  | copy {t u : σ} (env : Environment) :
      Reached s t → Cursor.copy env t = .ok u → Reached s u

theorem Reached.trans {s t u : σ} (hst : Reached s t) (htu : Reached t u) : Reached s u := by
  induction htu with
  | here => exact hst
  | seek range families _ ih => exact ih.seek range families
  | next _ ih => exact ih.next
  | copy env _ hcopy ih => exact ih.copy env hcopy

theorem Reached.after {s t : σ} (h : Reached s t) (calls : List Call) :
    Reached s (after t calls) := by
  induction calls generalizing t with
  | nil => exact h
  | cons call calls ih =>
      cases call with
      | seek range families => exact ih (h.seek range families)
      | next => exact ih h.next

/-! ## What a state leads to -/

/-- Going on from `s`, the cursor stands at the entries of `es` one after the other
and then at none. -/
inductive Leads : σ → List Entry → Prop
  | done {s : σ} : top s = none → Leads s []
  | more {s t : σ} {e : Entry} {es : List Entry} : top s = some e → Runs next s () t →
      es.length < reach s → Leads t es → Leads s (e :: es)

theorem Leads.head? {s : σ} {es : List Entry} (h : Leads s es) : top s = es.head? := by
  cases h with
  | done htop => exact htop
  | more htop _ _ _ => exact htop

theorem Leads.topKey {s : σ} {es : List Entry} (h : Leads s es) :
    Cursor.topKey s = es.head?.map Prod.fst := by
  rw [Cursor.topKey, h.head?]

theorem Leads.length_le {s : σ} {es : List Entry} (h : Leads s es) : es.length ≤ reach s := by
  cases h with
  | done _ => exact Nat.zero_le _
  | more _ _ hlen _ => exact hlen

/-- Where there is an entry, `next` goes on to the rest. -/
theorem Leads.tail {s : σ} {e : Entry} {es : List Entry} (h : Leads s (e :: es)) :
    ∃ t, Runs next s () t ∧ Leads t es := by
  cases h with
  | more _ hnext _ ht => exact ⟨_, hnext, ht⟩

theorem Leads.eq {s : σ} {es fs : List Entry} (he : Leads s es) (hf : Leads s fs) : es = fs := by
  induction he generalizing fs with
  | done htop =>
      cases hf with
      | done _ => rfl
      | more htop' _ _ _ => rw [htop] at htop'; exact absurd htop' (by simp)
  | more htop hnext _ _ ih =>
      cases hf with
      | done htop' => rw [htop] at htop'; exact absurd htop' (by simp)
      | more htop' hnext' _ ht' =>
          -- `next` leads to one state only, so the rests agree too
          rw [htop, Option.some.injEq] at htop'
          rw [← hnext.state, hnext'.state] at ih
          rw [htop', ih ht']

/-- Where the cursor stands at an entry, `next` succeeds. -/
theorem Leads.next_ok {s : σ} {es : List Entry} (h : Leads s es) (htop : top s ≠ none) :
    (next s).result = .ok () := by
  cases h with
  | done hnone => exact absurd hnone htop
  | more _ hnext _ _ => exact hnext.result

/-- Collecting lists what the state leads to. -/
theorem Leads.collect {s : σ} {es : List Entry} (h : Leads s es) {n : Nat}
    (hn : es.length < n) : (Scan.collect n s).result = .ok es := by
  -- the state reached at the end is needed for the induction only
  have hruns : ∃ t, Runs (Scan.collect n) s es t := by
    induction h generalizing n with
    | @done s htop =>
        obtain ⟨n, rfl⟩ : ∃ k, n = k + 1 := ⟨n - 1, by omega⟩
        refine ⟨s, (runs_give [] s).of_eq ?_⟩
        simp only [Scan.collect, htop]
    | @more s t e es htop hnext _ _ ih =>
        obtain ⟨n, rfl⟩ : ∃ k, n = k + 1 := ⟨n - 1, by omega⟩
        obtain ⟨u, hu⟩ := ih (n := n) (by rw [List.length_cons] at hn; omega)
        have hrest : Runs (do let rest ← Scan.collect n; pure (e :: rest)) t (e :: es) u :=
          hu.bind (runs_pure (e :: es) u)
        refine ⟨u, (hnext.bind (f := fun _ => _) hrest).of_eq ?_⟩
        simp only [Scan.collect, htop]
  obtain ⟨t, ht⟩ := hruns
  exact ht.result

/-- A scan lists what a seek leads to. -/
theorem Leads.scan {s u : σ} {es : List Entry} {range : Range} {families : FamilyFilter}
    (h : Leads u es) (hu : Runs (Cursor.seek range families) s () u) :
    (Scan.scan range families s).result = .ok es := by
  have hc := runs_of_result (h.collect (Nat.lt_succ_of_le h.length_le))
  exact (hu.bind (f := fun _ v => Scan.collect (Cursor.reach v + 1) v) hc).result

/-! ## Cursors that never fail -/

/-- From wherever calls have brought the cursor, it leads on without a failure and
in key order, and a seek succeeds and leads through the list for what is sought. -/
structure Lists (s : σ) (listing : Range → FamilyFilter → List Entry) : Prop where
  seek : ∀ {t : σ}, Reached s t → ∀ range families,
    ∃ u, Runs (Cursor.seek range families) t () u ∧ Leads u (listing range families)
  stands : ∀ {t : σ}, Reached s t → ∃ es, Leads t es ∧ Ascending es
  copy : ∀ {t : σ}, Reached s t → ∀ env, ∃ u, Cursor.copy env t = .ok u ∧ top u = none
  reach : ∀ {t : σ}, Reached s t → Cursor.reach t = Cursor.reach s

namespace Lists

variable {s : σ} {listing : Range → FamilyFilter → List Entry}

/-- An invariant of all calls under which a cursor never fails. -/
theorem of_invariant (P : σ → Prop) (hs : P s)
    (hseek : ∀ t, P t → ∀ range families,
      ∃ u, Runs (Cursor.seek range families) t () u ∧ P u ∧ Leads u (listing range families))
    (hnext : ∀ t, P t → P (Cursor.next t).state)
    (hcopy : ∀ t env, P t → ∃ u, Cursor.copy env t = .ok u ∧ P u ∧ top u = none)
    (hstands : ∀ t, P t → ∃ es, Leads t es ∧ Ascending es)
    (hreach : ∀ t, P t → Cursor.reach t = Cursor.reach s) : Lists s listing := by
  -- the invariant holds wherever calls and copying lead
  have hall : ∀ t, Reached s t → P t := by
    intro t ht
    induction ht with
    | here => exact hs
    | seek range families _ ih =>
        obtain ⟨u, hu, hPu, -⟩ := hseek _ ih range families
        rw [hu.state]
        exact hPu
    | next _ ih => exact hnext _ ih
    | copy env _ hu ih =>
        obtain ⟨v, hv, hPv, -⟩ := hcopy _ env ih
        rw [hu, Except.ok.injEq] at hv
        rw [hv]
        exact hPv
  refine ⟨?_, fun ht => hstands _ (hall _ ht), ?_, fun ht => hreach _ (hall _ ht)⟩
  · intro t ht range families
    obtain ⟨u, hu, -, hl⟩ := hseek t (hall t ht) range families
    exact ⟨u, hu, hl⟩
  · intro t ht env
    obtain ⟨u, hu, -, htop⟩ := hcopy t env (hall t ht)
    exact ⟨u, hu, htop⟩

/-- The law holds on from every state reached. -/
theorem of_reached (h : Lists s listing) {t : σ} (ht : Reached s t) : Lists t listing where
  seek hu := h.seek (ht.trans hu)
  stands hu := h.stands (ht.trans hu)
  copy hu := h.copy (ht.trans hu)
  reach hu := (h.reach (ht.trans hu)).trans (h.reach ht).symm

theorem of_seek (h : Lists s listing) {range : Range} {families : FamilyFilter} {u : σ}
    (hu : Runs (Cursor.seek range families) s () u) : Lists u listing := by
  rw [← hu.state]
  exact h.of_reached (Reached.here.seek range families)

theorem of_copy (h : Lists s listing) {env : Environment} {u : σ}
    (hu : Cursor.copy env s = .ok u) : Lists u listing :=
  h.of_reached (Reached.here.copy env hu)

theorem ascending_of_leads (h : Lists s listing) {es : List Entry} (hes : Leads s es) :
    Ascending es := by
  obtain ⟨fs, hfs, hasc⟩ := h.stands Reached.here
  rw [hes.eq hfs]
  exact hasc

theorem ascending (h : Lists s listing) (range : Range) (families : FamilyFilter) :
    Ascending (listing range families) := by
  obtain ⟨u, hu, hl⟩ := h.seek Reached.here range families
  exact (h.of_seek hu).ascending_of_leads hl

theorem length_le (h : Lists s listing) (range : Range) (families : FamilyFilter) :
    (listing range families).length ≤ Cursor.reach s := by
  obtain ⟨u, hu, hl⟩ := h.seek Reached.here range families
  rw [← h.reach (Reached.here.seek range families), hu.state]
  exact hl.length_le

/-- A scan lists the entries of the range and the families. -/
theorem scan (h : Lists s listing) (range : Range) (families : FamilyFilter) :
    (Scan.scan range families s).result = .ok (listing range families) := by
  obtain ⟨u, hu, hl⟩ := h.seek Reached.here range families
  exact hl.scan hu

end Lists

end Cursor

end CellScan
