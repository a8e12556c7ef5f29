/-
`Lockstep.lean` -- two runs of one program on different cursors.

A stage does not see what is below it, only what calls come to. So where the cursors below
two stages answer alike the stages answer alike, and one follows this down the program, one
operation after the other. `InStep` says it of one call on each side: both succeed with one
result and leave states that belong together again, or both fail alike. A failure that is
on one side only, or that is another one there, has to be *excused*: `Excuses` says which
failures on the left and on the right are.

A cursor below a stage is in `Lockstep` with another if all of its calls are. Two cursors
that do not stand together may be brought together by a seek, and that is all a scan needs
(`Joining.scan`). The number of turns that a loop is given comes from `reach`: it has to be
the same on both sides, unless running out of turns is excused (`Excuses.Turns`).
-/
import CellScan.Proofs.Calls
import CellScan.Proofs.Parallel

set_option autoImplicit false

namespace CellScan

open CellScan.Action CellScan.Cursor
open List (Forall₂)

/-- Which failures excuse a difference between two runs. -/
structure Excuses where
  left : Fault → Prop
  right : Fault → Prop

namespace Excuses

variable {E : Excuses} {n m : Nat}

/-- The turns given to a loop are the same on both sides, or to run out of them is excused. -/
def Turns (E : Excuses) (n m : Nat) : Prop := n = m ∨ (E.left .endless ∧ E.right .endless)

theorem Turns.map (h : E.Turns n m) (f : Nat → Nat) : E.Turns (f n) (f m) :=
  h.imp_left (congrArg f)

theorem Turns.pred (h : E.Turns (n + 1) (m + 1)) : E.Turns n m := h.imp_left Nat.succ.inj

theorem Turns.left_of_zero (h : E.Turns 0 (m + 1)) : E.left .endless :=
  (h.resolve_left (Nat.succ_ne_zero m).symm).1

theorem Turns.right_of_zero (h : E.Turns (n + 1) 0) : E.right .endless :=
  (h.resolve_left (Nat.succ_ne_zero n)).2

/-- The turns of many loops, taken together. -/
theorem turns_of_forall₂ {σ τ : Type} {f : σ → Nat} {g : τ → Nat} {ss : List σ} {ts : List τ}
    (h : Forall₂ (fun s t => E.Turns (f s) (g t)) ss ts) (k : List Nat → Nat) :
    E.Turns (k (ss.map f)) (k (ts.map g)) := by
  by_cases hE : E.left .endless ∧ E.right .endless
  · exact Or.inr hE
  · refine Or.inl (congrArg k ?_)
    induction h with
    | nil => rfl
    | cons hst _ ih => rw [List.map_cons, List.map_cons, hst.resolve_right hE, ih]

end Excuses

/-! ## Calls in step -/

namespace Action

variable {σ τ σ' τ' α β : Type} {E : Excuses} {R : σ → τ → Prop}

/-- Two calls in step: both succeed with one result and leave states that are related, both
fail alike, or one of them fails with an excuse. -/
inductive InStep (E : Excuses) (R : σ → τ → Prop) (x : Action σ α) (s : σ) (y : Action τ α)
    (t : τ) : Prop
  | done {a : α} {s' : σ} {t' : τ} : Runs x s a s' → Runs y t a t' → R s' t' → InStep E R x s y t
  | failed {fault : Fault} : (x s).result = .error fault → (y t).result = .error fault →
      InStep E R x s y t
  | left {fault : Fault} : (x s).result = .error fault → E.left fault → InStep E R x s y t
  | right {fault : Fault} : (y t).result = .error fault → E.right fault → InStep E R x s y t

namespace InStep

variable {x : Action σ α} {y : Action τ α} {s : σ} {t : τ}

/-- What comes of the two calls: one result, or an excuse. -/
theorem result (h : InStep E R x s y t) :
    (x s).result = (y t).result ∨ (∃ fault, E.left fault ∧ (x s).result = .error fault)
      ∨ ∃ fault, E.right fault ∧ (y t).result = .error fault := by
  cases h with
  | done hx hy _ => exact Or.inl (hx.result.trans hy.result.symm)
  | failed hx hy => exact Or.inl (hx.trans hy.symm)
  | left hx hE => exact Or.inr (Or.inl ⟨_, hE, hx⟩)
  | right hy hE => exact Or.inr (Or.inr ⟨_, hE, hy⟩)

/-- Where both calls succeed, they give the same and leave states that are related. -/
theorem of_runs (h : InStep E R x s y t) {a b : α} {s' : σ} {t' : τ} (hx : Runs x s a s')
    (hy : Runs y t b t') : a = b ∧ R s' t' := by
  cases h with
  | done hx' hy' hR =>
      obtain rfl : a = _ := Except.ok.inj (hx.result.symm.trans hx'.result)
      obtain rfl : b = _ := Except.ok.inj (hy.result.symm.trans hy'.result)
      rw [← hx.state, ← hy.state, hx'.state, hy'.state]
      exact ⟨rfl, hR⟩
  | failed hx' _ => exact absurd (hx.result.symm.trans hx') (by simp)
  | left hx' _ => exact absurd (hx.result.symm.trans hx') (by simp)
  | right hy' _ => exact absurd (hy.result.symm.trans hy') (by simp)

/-- Calls inside larger states, with what else they record. -/
theorem embed {Q : σ' → τ' → Prop} {x' : Action σ' α} {y' : Action τ' α} {u : σ'} {v : τ'}
    {f : σ → σ'} {g : τ → τ'} (h : InStep E R x s y t)
    (hx : (x' u).result = (x s).result ∧ (x' u).state = f (x s).state)
    (hy : (y' v).result = (y t).result ∧ (y' v).state = g (y t).state)
    (hput : ∀ a b, R a b → Q (f a) (g b)) : InStep E Q x' u y' v := by
  cases h with
  | done hs ht hR =>
      have hu := runs_of_result (hx.1.trans hs.result)
      have hv := runs_of_result (hy.1.trans ht.result)
      refine InStep.done hu hv ?_
      rw [hx.2, hy.2, hs.state, ht.state]
      exact hput _ _ hR
  | failed hs ht => exact InStep.failed (hx.1.trans hs) (hy.1.trans ht)
  | left hs hE => exact InStep.left (hx.1.trans hs) hE
  | right ht hE => exact InStep.right (hy.1.trans ht) hE

theorem of_eq {x' : Action σ α} {y' : Action τ α} {u : σ} {v : τ} (h : InStep E R x s y t)
    (hx : x' u = x s) (hy : y' v = y t) : InStep E R x' u y' v :=
  h.embed (f := id) (g := id) (by rw [hx]; exact ⟨rfl, rfl⟩) (by rw [hy]; exact ⟨rfl, rfl⟩)
    fun _ _ hR => hR

theorem within {Q : σ' → τ' → Prop} {x' : Action σ' α} {y' : Action τ' α} {u : σ'} {v : τ'}
    {f : σ → σ'} {g : τ → τ'} (h : InStep E R x s y t) (hx : x' u = (x s).within f)
    (hy : y' v = (y t).within g) (hput : ∀ a b, R a b → Q (f a) (g b)) :
    InStep E Q x' u y' v :=
  h.embed (by rw [hx]; exact ⟨rfl, rfl⟩) (by rw [hy]; exact ⟨rfl, rfl⟩) hput

theorem on {Q : σ' → τ' → Prop} {part : σ' → σ} {put : σ' → σ → σ'} {part' : τ' → τ}
    {put' : τ' → τ → τ'} {u : σ'} {v : τ'} (h : InStep E R x (part u) y (part' v))
    (hput : ∀ a b, R a b → Q (put u a) (put' v b)) :
    InStep E Q (Action.on part put x) u (Action.on part' put' y) v :=
  h.within rfl rfl hput

theorem bind {S : σ → τ → Prop} {f : α → Action σ β} {g : α → Action τ β}
    (h : InStep E R x s y t) (hf : ∀ a s' t', R s' t' → InStep E S (f a) s' (g a) t') :
    InStep E S (x >>= f) s (y >>= g) t := by
  cases h with
  | @done a s' t' hx hy hR =>
      have hrest := hf a s' t' hR
      refine hrest.embed (f := id) (g := id) ?_ ?_ fun _ _ hS => hS
      · rw [← hx.state]
        exact bind_of_ok f hx.result
      · rw [← hy.state]
        exact bind_of_ok g hy.result
  | failed hx hy => exact InStep.failed (bind_of_error f hx).1 (bind_of_error g hy).1
  | left hx hE => exact InStep.left (bind_of_error f hx).1 hE
  | right hy hE => exact InStep.right (bind_of_error g hy).1 hE

end InStep

theorem inStep_pure {s : σ} {t : τ} (h : R s t) (a : α) : InStep E R (pure a) s (pure a) t :=
  InStep.done (runs_pure a s) (runs_pure a t) h

theorem inStep_fail (fault : Fault) (s : σ) (t : τ) :
    InStep E R (fail fault : Action σ α) s (fail fault) t := InStep.failed rfl rfl

/-- A loop that has run out of turns on the left, and on the right too unless that is excused. -/
theorem inStep_spent {x : Action σ α} {y : Action τ α} {s : σ} {t : τ} {m : Nat}
    (h : E.Turns 0 m) (hx : (x s).result = .error .endless)
    (hy : m = 0 → (y t).result = .error .endless) : InStep E R x s y t := by
  rcases m with _ | m
  · exact InStep.failed hx (hy rfl)
  · exact InStep.left hx h.left_of_zero

theorem inStep_change {f : σ → σ} {g : τ → τ} {s : σ} {t : τ} (h : R (f s) (g t)) :
    InStep E R (change f) s (change g) t := InStep.done (runs_change f s) (runs_change g t) h

theorem inStep_record {s : σ} {t : τ} (h : R s t) (events events' : List Event) :
    InStep E R (record events) s (record events') t :=
  InStep.done (runs_record events s) (runs_record events' t) h

theorem look_bind (f : σ → α) (x : α → Action σ β) (s : σ) : (look f >>= x) s = x (f s) s :=
  bind_apply_ok (x := look f) (f := x) rfl

/-- What is looked up may differ, as the number of turns of a search does. -/
theorem inStep_look {γ : Type} {f : σ → α} {g : τ → γ} {x : α → Action σ β} {y : γ → Action τ β}
    {s : σ} {t : τ} (h : InStep E R (x (f s)) s (y (g t)) t) :
    InStep E R (look f >>= x) s (look g >>= y) t :=
  h.of_eq (look_bind f x s) (look_bind g y t)

/-! ## Calls on items -/

section Items

variable {ss : List σ} {ts : List τ}

theorem inStep_onItem {x : Action σ α} {y : Action τ α} (h : Forall₂ R ss ts)
    (hxy : ∀ s t, R s t → InStep E R x s y t) (i : Nat) (absent : α) :
    InStep E (Forall₂ R) (onItem i absent x) ss (onItem i absent y) ts := by
  rcases hi : ss[i]? with _ | s
  · have hi' : ts[i]? = none := by
      rw [List.getElem?_eq_none_iff] at hi ⊢
      rwa [← h.length_eq]
    refine (inStep_pure h absent).of_eq ?_ ?_
    · simp only [onItem, hi, pure_apply]
    · simp only [onItem, hi', pure_apply]
  · obtain ⟨t, hi', hst⟩ := Parallel.exists_right h hi
    refine (hxy s t hst).within (f := (ss.set i ·)) (g := (ts.set i ·)) ?_ ?_ ?_
    · simp only [onItem, hi]
    · simp only [onItem, hi']
    · exact fun _ _ hab => Parallel.set h hab i

theorem onEach_of_error {x : Action σ Unit} {s : σ} {fault : Fault}
    (h : (x s).result = .error fault) : (onEach x (s :: ss)).result = .error fault := by
  rcases hx : x s with ⟨fault' | _, s', events⟩
  · rw [hx] at h
    simp only [onEach, hx]
    exact h
  · rw [hx] at h
    exact absurd h (by simp)

theorem inStep_onEach {A : σ → τ → Prop} {x : Action σ Unit} {y : Action τ Unit}
    (h : Forall₂ A ss ts) (hxy : ∀ s t, A s t → InStep E R x s y t) :
    InStep E (Forall₂ R) (onEach x) ss (onEach y) ts := by
  induction h with
  | nil => exact (inStep_pure Forall₂.nil ()).of_eq rfl rfl
  | @cons s t ss ts hst hrest ih =>
      cases hxy s t hst with
      | @done _ s' t' hx hy hR =>
          -- the first has moved, and the others are in step
          obtain ⟨_, hx⟩ := hx
          obtain ⟨_, hy⟩ := hy
          refine ih.embed (f := (s' :: ·)) (g := (t' :: ·)) ?_ ?_ ?_
          · simp only [onEach, hx, and_self]
          · simp only [onEach, hy, and_self]
          · exact fun _ _ hall => Forall₂.cons hR hall
      | failed hx hy => exact InStep.failed (onEach_of_error hx) (onEach_of_error hy)
      | left hx hE => exact InStep.left (onEach_of_error hx) hE
      | right hy hE => exact InStep.right (onEach_of_error hy) hE

theorem anyItem_of_error {x : Action σ Bool} {s : σ} {fault : Fault}
    (h : (x s).result = .error fault) : (anyItem x (s :: ss)).result = .error fault := by
  rcases hx : x s with ⟨fault' | _, s', events⟩
  · rw [hx] at h
    simp only [anyItem, hx]
    exact h
  · rw [hx] at h
    exact absurd h (by simp)

theorem inStep_anyItem {x : Action σ Bool} {y : Action τ Bool} (h : Forall₂ R ss ts)
    (hxy : ∀ s t, R s t → InStep E R x s y t) :
    InStep E (Forall₂ R) (anyItem x) ss (anyItem y) ts := by
  induction h with
  | nil => exact (inStep_pure Forall₂.nil false).of_eq rfl rfl
  | @cons s t ss ts hst hrest ih =>
      cases hxy s t hst with
      | @done answer s' t' hx hy hR =>
          obtain ⟨es, hx⟩ := hx
          obtain ⟨fs, hy⟩ := hy
          rcases answer with _ | _
          · refine ih.embed (f := (s' :: ·)) (g := (t' :: ·)) ?_ ?_ ?_
            · simp only [anyItem, hx, and_self]
            · simp only [anyItem, hy, and_self]
            · exact fun _ _ hall => Forall₂.cons hR hall
          · -- one says yes, and so does the other
            refine InStep.done (a := true) ⟨es, ?_⟩ ⟨fs, ?_⟩ (Forall₂.cons hR hrest)
            · simp only [anyItem, hx]
            · simp only [anyItem, hy]
      | failed hx hy => exact InStep.failed (anyItem_of_error hx) (anyItem_of_error hy)
      | left hx hE => exact InStep.left (anyItem_of_error hx) hE
      | right hy hE => exact InStep.right (anyItem_of_error hy) hE

end Items

end Action

/-! ## Cursors in step -/

namespace Cursor

variable {σ τ : Type} [Cursor σ] [Cursor τ] {E : Excuses} {A R : σ → τ → Prop} {s : σ} {t : τ}

/-- Cursors that are brought together by a seek: those that `A` relates are in step when they
are sought, and stand at the same entry then, where `R` relates them. -/
structure Meeting (E : Excuses) (A R : σ → τ → Prop) : Prop where
  top : ∀ {s t}, R s t → Cursor.top s = Cursor.top t
  apart : ∀ {s t}, R s t → A s t
  turns : ∀ {s t}, A s t → E.Turns (Cursor.reach s) (Cursor.reach t)
  seek : ∀ {s t}, A s t → ∀ range families,
    InStep E R (Cursor.seek range families) s (Cursor.seek range families) t

/-- Cursors that are brought together by a seek and stay together in every step. -/
structure Joining (E : Excuses) (A R : σ → τ → Prop) : Prop extends Meeting E A R where
  next : ∀ {s t}, R s t → InStep E R Cursor.next s Cursor.next t

/-- Cursors that stand at the same entries and are in step when they are sought. -/
abbrev Sought (E : Excuses) (R : σ → τ → Prop) : Prop := Meeting E R R

/-- Cursors that are in step with every call. -/
abbrev Lockstep (E : Excuses) (R : σ → τ → Prop) : Prop := Joining E R R

theorem Meeting.topKey (h : Meeting E A R) (hst : R s t) : Cursor.topKey s = Cursor.topKey t := by
  rw [Cursor.topKey, Cursor.topKey, h.top hst]

namespace Joining

/-- Once together, the cursors are in step with every call. -/
theorem lockstep (h : Joining E A R) : Lockstep E R where
  top hst := h.top hst
  apart hst := hst
  turns hst := h.turns (h.apart hst)
  seek hst := h.seek (h.apart hst)
  next hst := h.next hst

theorem collect (h : Joining E A R) (hst : R s t) {n m : Nat} (hn : E.Turns n m) :
    InStep E R (Scan.collect n) s (Scan.collect m) t := by
  induction n generalizing m s t with
  | zero => exact inStep_spent hn rfl (by rintro rfl; rfl)
  | succ n ih =>
      rcases m with _ | m
      · exact InStep.right rfl hn.right_of_zero
      · rcases htop : Cursor.top t with _ | e
        · refine (inStep_pure hst []).of_eq ?_ ?_
          · simp only [Scan.collect, (h.top hst).trans htop]
            rfl
          · simp only [Scan.collect, htop]
            rfl
        · -- both leave the entry, and list it before the others
          have hmore := (h.next hst).bind fun _ _ _ hst' =>
            (ih hst' hn.pred).bind fun es _ _ hst'' => inStep_pure hst'' (e :: es)
          refine hmore.of_eq ?_ ?_
          · simp only [Scan.collect, (h.top hst).trans htop]
          · simp only [Scan.collect, htop]

theorem scan (h : Joining E A R) (hst : A s t) (range : Range) (families : FamilyFilter) :
    InStep E R (Scan.scan range families) s (Scan.scan range families) t :=
  (h.seek hst range families).bind fun _ _ _ hst' =>
    (h.collect hst' ((h.turns (h.apart hst')).map (· + 1))).of_eq rfl rfl

end Joining

end Cursor

end CellScan
