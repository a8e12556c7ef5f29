/-
`Ending.lean` -- calls that do not go round in circles.

A loop that has used up its turns ends with `Fault.endless`: it went round in a circle.
`Ends` says that a call does not end so, whatever else it comes to, and with it which
property every state has that the call leaves. It follows the sequence of the calls that a
stage makes, and its calls on the items of a list.
-/
import CellScan.Proofs.Calls
import CellScan.Proofs.Parallel

set_option autoImplicit false

namespace CellScan

open List (Forall₂)

namespace Action

variable {σ τ α β γ : Type} {I : σ → Prop} {J : τ → Prop} {Q : α → σ → Prop} {R : β → σ → Prop}
  {x : Action σ α} {s : σ}

/-- The call does not go round in a circle. Whether it succeeds or fails the state it leaves
has `I`, and if it succeeds the state and the result have `Q`. -/
structure Ends (I : σ → Prop) (Q : α → σ → Prop) (x : Action σ α) (s : σ) : Prop where
  keeps : I (x s).state
  ends : (x s).result ≠ .error .endless
  gives : ∀ {a : α} {t : σ}, Runs x s a t → Q a t

theorem ends_pure {a : α} (hI : I s) (hQ : Q a s) : Ends I Q (pure a) s := by
  refine ⟨hI, by simp, ?_⟩
  rintro b t ⟨events, hb⟩
  rw [pure_apply, Outcome.mk.injEq, Except.ok.injEq] at hb
  obtain ⟨rfl, rfl, -⟩ := hb
  exact hQ

theorem ends_record (events : List Event) (hI : I s) :
    Ends I (fun _ t => t = s) (record events) s :=
  ⟨hI, by simp [record], fun h => h.state.symm⟩

theorem ends_change {f : σ → σ} (hI : I (f s)) : Ends I (fun _ t => t = f s) (change f) s :=
  ⟨hI, by simp [change], fun h => h.state.symm⟩

theorem ends_fail {fault : Fault} (hI : I s) (h : fault ≠ .endless) :
    Ends I Q (fail fault) s := by
  refine ⟨hI, fun h' => h (Except.error.inj h'), fun h' => ?_⟩
  exact absurd h'.result (by simp)

namespace Ends

theorem mono {Q' : α → σ → Prop} (h : Ends I Q x s) (hQ : ∀ a t, I t → Q a t → Q' a t) :
    Ends I Q' x s := by
  refine ⟨h.keeps, h.ends, fun {a t} ht => hQ a t ?_ (h.gives ht)⟩
  rw [← ht.state]
  exact h.keeps

/-- A call that comes to the same ends as well, also within a larger state. -/
theorem embed (put : σ → τ) {y : Action τ α} {u : τ} {Q' : α → τ → Prop} (h : Ends I Q x s)
    (hy : (y u).result = (x s).result ∧ (y u).state = put (x s).state)
    (hI : ∀ t, I t → J (put t)) (hQ : ∀ a t, I t → Q a t → Q' a (put t)) : Ends J Q' y u := by
  obtain ⟨hresult, hstate⟩ := hy
  refine ⟨?_, ?_, ?_⟩
  · rw [hstate]
    exact hI _ h.keeps
  · rw [hresult]
    exact h.ends
  · intro a t ht
    have hx := runs_of_result (hresult.symm.trans ht.result)
    rw [← ht.state, hstate]
    exact hQ a _ h.keeps (h.gives hx)

theorem of_eq {y : Action σ α} {u : σ} (h : Ends I Q x s) (hy : y u = x s) : Ends I Q y u :=
  h.embed id (by rw [hy]; exact ⟨rfl, rfl⟩) (fun _ ht => ht) fun _ _ _ hQ => hQ

theorem on {part : τ → σ} {put : τ → σ → τ} {u : τ} {Q' : α → τ → Prop}
    (h : Ends I Q x (part u)) (hI : ∀ t, I t → J (put u t))
    (hQ : ∀ a t, I t → Q a t → Q' a (put u t)) : Ends J Q' (Action.on part put x) u :=
  h.embed (put u) ⟨rfl, rfl⟩ hI hQ

theorem bind {f : α → Action σ β} (hx : Ends I Q x s)
    (hf : ∀ a t, I t → Q a t → Ends I R (f a) t) : Ends I R (x >>= f) s := by
  rcases hres : (x s).result with fault | a
  · obtain ⟨hresult, hstate⟩ := bind_of_error f hres
    refine ⟨hstate ▸ hx.keeps, ?_, fun hb => ?_⟩
    · rw [hresult]
      exact fun h => hx.ends (hres.trans (congrArg _ (Except.error.inj h)))
    · rw [hb.result] at hresult
      exact absurd hresult (by simp)
  · exact (hf a _ hx.keeps (hx.gives (runs_of_result hres))).embed id
      (bind_of_ok f hres) (fun _ ht => ht) fun _ _ _ hR => hR

end Ends

/-- What is looked up leaves the state as it is. -/
theorem ends_look {f : σ → α} {g : α → Action σ β} (h : Ends I R (g (f s)) s) :
    Ends I R (look f >>= g) s :=
  h.embed id (bind_of_ok g rfl) (fun _ ht => ht) fun _ _ _ hR => hR

/-! ### On items

The items belong to those of another list, one by one, and go on to do so. -/

section Items

variable {S : γ → σ → Prop} {cs : List γ} {ss : List σ}

theorem ends_onItem {P : α → Prop} {absent : α} (h : Forall₂ S cs ss)
    (hx : ∀ c ∈ cs, ∀ s, S c s → Ends (S c) (fun a _ => P a) x s) (i : Nat) (habsent : P absent) :
    Ends (Forall₂ S cs) (fun a _ => P a) (onItem i absent x) ss := by
  rcases hi : ss[i]? with _ | s
  · refine (ends_pure (I := Forall₂ S cs) (Q := fun a _ => P a) h habsent).of_eq ?_
    simp only [onItem, hi, pure_apply]
  · obtain ⟨c, hc, hcs⟩ := Parallel.exists_left h hi
    refine (hx c (List.mem_of_getElem? hc) s hcs).embed (ss.set i ·) ?_ ?_ ?_
    · simp only [onItem, hi]
      exact ⟨rfl, rfl⟩
    · intro t ht
      exact Parallel.set_right h hc ht
    · exact fun _ _ _ hP => hP

theorem ends_anyItem {y : Action σ Bool} (h : Forall₂ S cs ss)
    (hy : ∀ c ∈ cs, ∀ s, S c s → Ends (S c) (fun _ _ => True) y s) :
    Ends (Forall₂ S cs) (fun _ _ => True) (anyItem y) ss := by
  induction h with
  | nil => exact ⟨Forall₂.nil, by simp [anyItem], fun _ => trivial⟩
  | @cons c s cs ss hcs hrest ih =>
      have hs := hy c List.mem_cons_self s hcs
      have hmore := ih fun c' hc' => hy c' (List.mem_cons_of_mem c hc')
      rcases hys : y s with ⟨fault | _ | _, t, events⟩
      · -- the first item fails, and the others are not asked
        obtain ⟨hkeeps, hends, -⟩ := hs
        rw [hys] at hkeeps hends
        refine ⟨?_, ?_, fun _ => trivial⟩
        · simp only [anyItem, hys]
          exact Forall₂.cons hkeeps hrest
        · simp only [anyItem, hys]
          exact fun h' => hends (congrArg _ (Except.error.inj h'))
      · have hkeeps := hs.keeps
        rw [hys] at hkeeps
        refine hmore.embed (t :: ·) ?_ (fun _ hts => Forall₂.cons hkeeps hts)
          fun _ _ _ _ => trivial
        simp only [anyItem, hys, and_self]
      · have hkeeps := hs.keeps
        rw [hys] at hkeeps
        refine ⟨?_, ?_, fun _ => trivial⟩
        · simp only [anyItem, hys]
          exact Forall₂.cons hkeeps hrest
        · simp [anyItem, hys]

end Items

end Action

end CellScan
