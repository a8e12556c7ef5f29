/-
`Visibility.lean` -- that remembering changes no decision.

A visibility filter answers from its cache where it can. Every judgement in the
cache is one that the evaluator gave (`Visibility.Sound`), a look-up and an
insertion keep that, whatever is forgotten on the way, and so the filter decides as
`judge` does without a cache. Over any history of questions and copies it decides by the
environment it was made in (`Visibility.accept_afterUses`). What a chain of predicates
decides is then a fixed condition on entries, `Predicate.meets`, however often the chain
has been asked.
-/
import CellScan.Spec.Predicate

set_option autoImplicit false

namespace CellScan

/-! ## What a cache holds -/

namespace Cache

variable {κ ν : Type} [DecidableEq κ] {P : κ → ν → Prop} {c : Cache κ ν}

/-- Every value that is held stands in a relation to its key. -/
def Keeps (P : κ → ν → Prop) (c : Cache κ ν) : Prop := ∀ s ∈ c.slots, P s.key s.value

omit [DecidableEq κ] in
theorem keeps_ofCapacity (capacity : Nat) : Keeps P (ofCapacity capacity) := by
  intro s hs
  exact absurd hs List.not_mem_nil

/-- What a look-up finds was held. -/
theorem Keeps.of_get (h : Keeps P c) {key : κ} {value : ν} (hv : (c.get key).1 = some value) :
    P key value := by
  rw [get] at hv
  cases hs : c.slot? key with
  | none =>
      rw [hs] at hv
      exact absurd hv (Option.some_ne_none value).symm
  | some s =>
      rw [hs] at hv
      have hkey : s.key = key := by simpa using List.find?_some hs
      have hval : s.value = value := Option.some.inj hv
      rw [← hkey, ← hval]
      exact h s (List.mem_of_find?_eq_some hs)

/-- Slots that are used again keep their keys and values. -/
theorem Keeps.get (h : Keeps P c) (key : κ) : Keeps P (c.get key).2 := by
  rw [Cache.get]
  split
  · exact h
  · intro t ht
    obtain ⟨s, hs, rfl⟩ := List.mem_map.mp ht
    split
    · exact h s hs
    · exact h s hs

theorem Keeps.makeRoom (h : Keeps P c) : Keeps P c.makeRoom := by
  rw [Cache.makeRoom]
  split
  · exact h
  · split
    · exact h
    · intro s hs
      exact h s (List.mem_filter.mp hs).1

theorem Keeps.insert (h : Keeps P c) {key : κ} {value : ν} (hv : P key value) :
    Keeps P (c.insert key value) := by
  rw [Cache.insert]
  split
  · intro t ht
    obtain ⟨s, hs, rfl⟩ := List.mem_map.mp ht
    split
    · exact hv
    · exact h s hs
  · intro t ht
    rcases List.mem_cons.mp ht with rfl | ht
    · exact hv
    · exact h.makeRoom t ht

end Cache

/-! ## Decisions from a cache -/

namespace Visibility

variable {v : Visibility}

/-- What the filter remembers are judgements of its evaluator. -/
def Sound (v : Visibility) : Prop :=
  v.cache.Keeps fun label visible => v.evaluator label v.authorizations = .ok visible

theorem sound_withDefault (env : Environment) (label : Bytes) : (withDefault env label).Sound :=
  Cache.keeps_ofCapacity _

theorem sound_copy (v : Visibility) (env : Environment) : (v.copy env).Sound :=
  Cache.keeps_ofCapacity _

theorem judge_copy (v : Visibility) (env : Environment) (k : Key) :
    (v.copy env).judge k = v.judge k := rfl

/-- A filter decides as it would without its cache, and stays sound and as it was
but for the cache. -/
theorem accept_spec (h : v.Sound) (k : Key) :
    (v.accept k).1 = v.judge k ∧ (v.accept k).2.1.Sound
      ∧ (v.accept k).2.1.judge = v.judge := by
  rw [accept, judge]
  cases v.effectiveLabel? k with
  | none => exact ⟨rfl, h, rfl⟩
  | some label =>
      have hget := Cache.Keeps.get h label
      rcases hc : v.cache.get label with ⟨_ | visible, cache⟩
      · -- not remembered: the evaluator is asked, and only a judgement is put in
        rw [hc] at hget
        cases he : v.evaluator label v.authorizations with
        | ok visible =>
            simp only [hc, he]
            exact ⟨trivial, hget.insert he, rfl⟩
        | error fault =>
            simp only [hc, he]
            exact ⟨trivial, hget, rfl⟩
      · -- remembered, and what is remembered is what the evaluator would say
        rw [hc] at hget
        have hval : (v.cache.get label).1 = some visible := by rw [hc]
        have he := Cache.Keeps.of_get h hval
        simp only [hc, he]
        exact ⟨trivial, hget, rfl⟩

/-! ### Over any history -/

/-- What is done with a filter: it is asked about a cell, or it is copied and the copy is
used from then on. -/
inductive Use where
  | ask (k : Key)
  | copy (env : Environment)

/-- The filter to use next. -/
def use (v : Visibility) : Use → Visibility
  | .ask k => (v.accept k).2.1
  | .copy env => v.copy env

/-- The filter after some uses in turn. -/
def afterUses (v : Visibility) (uses : List Use) : Visibility := uses.foldl use v

/-- The filter judges as one that was made in an environment with a default label, and is
sound. -/
structure Bound (env : Environment) (label : Bytes) (v : Visibility) : Prop where
  authorizations : v.authorizations = env.authorizations
  defaultVisibility : v.defaultVisibility = label
  evaluator : v.evaluator = env.evaluator
  sound : v.Sound

/-- Being asked changes nothing but the cache. -/
theorem accept_eq (v : Visibility) (k : Key) :
    ∃ cache, (v.accept k).2.1 = { v with cache := cache } := by
  rw [accept]
  rcases v.effectiveLabel? k with _ | label
  · exact ⟨v.cache, rfl⟩
  · rcases hc : v.cache.get label with ⟨_ | visible, cache⟩
    · simp only [hc]
      rcases v.evaluator label v.authorizations with fault | visible
      · exact ⟨cache, rfl⟩
      · exact ⟨cache.insert label visible, rfl⟩
    · simp only [hc]
      exact ⟨cache, rfl⟩

theorem bound_withDefault (env : Environment) (label : Bytes) :
    Bound env label (withDefault env label) := ⟨rfl, rfl, rfl, sound_withDefault env label⟩

theorem Bound.use {env : Environment} {label : Bytes} (h : Bound env label v) (u : Use) :
    Bound env label (v.use u) := by
  cases u with
  | ask k =>
      have hsound := (accept_spec h.sound k).2.1
      obtain ⟨cache, hcache⟩ := v.accept_eq k
      rw [hcache] at hsound
      show Bound env label (v.accept k).2.1
      rw [hcache]
      exact ⟨h.authorizations, h.defaultVisibility, h.evaluator, hsound⟩
  | copy env' =>
      exact ⟨h.authorizations, h.defaultVisibility, h.evaluator, v.sound_copy env'⟩

theorem Bound.afterUses {env : Environment} {label : Bytes} (h : Bound env label v)
    (uses : List Use) : Bound env label (v.afterUses uses) := by
  induction uses generalizing v with
  | nil => exact h
  | cons u uses ih => exact ih (h.use u)

end Visibility

/-- Whether the evaluator says yes to a label. A label that it cannot evaluate is refused. -/
def Environment.grants (env : Environment) (label : Bytes) : Bool :=
  match env.evaluator label env.authorizations with
  | .ok visible => visible
  | .error _ => false

/-- Whether a cell is shown: by its own label, or by a default label where it has none, and
with neither to everyone. -/
def Environment.shows (env : Environment) (label : Bytes) (k : Key) : Bool :=
  if k.visibility ≠ [] then env.grants k.visibility
  else if label ≠ [] then env.grants label
  else true

namespace Visibility

variable {v : Visibility}

/-- Without its cache a filter decides by the environment it was made in. -/
theorem Bound.judge {env : Environment} {label : Bytes} (h : Bound env label v) (k : Key) :
    v.judge k = env.shows label k := by
  rw [Visibility.judge, effectiveLabel?, Environment.shows, h.authorizations,
    h.defaultVisibility, h.evaluator]
  rcases k.visibility with _ | ⟨byte, bytes⟩
  · rcases label with _ | ⟨byte, bytes⟩
    · rfl
    · rfl
  · rfl

/-- Whatever a filter has been asked before, and into whatever environments it has been
copied, it decides by the environment it was made in, and remembers only what the
evaluator says there. -/
theorem accept_afterUses (env : Environment) (label : Bytes) (uses : List Use) (k : Key) :
    (((withDefault env label).afterUses uses).accept k).1 = env.shows label k
      ∧ ∀ s ∈ ((withDefault env label).afterUses uses).cache.slots,
          env.evaluator s.key env.authorizations = .ok s.value := by
  have hbound := (bound_withDefault env label).afterUses uses
  refine ⟨?_, ?_⟩
  · rw [(accept_spec hbound.sound k).1]
    exact hbound.judge k
  · intro s hs
    have hs' := hbound.sound s hs
    rwa [hbound.evaluator, hbound.authorizations] at hs'

end Visibility

/-! ## Decisions of a chain -/

namespace Predicate

/-- Whether what a predicate remembers is sound. -/
def Sound : Predicate → Prop
  | .visibility filter => filter.Sound
  | _ => True

/-- Whether an entry meets all conditions of a chain. -/
def meets (ps : List Predicate) (e : Entry) : Bool := ps.all (·.holds e)

theorem meets_cons (p : Predicate) (ps : List Predicate) (e : Entry) :
    meets (p :: ps) e = (p.holds e && meets ps e) := List.all_cons

theorem accept_spec {p : Predicate} (h : p.Sound) (e : Entry) :
    (p.accept e).1 = p.holds e ∧ (p.accept e).2.1.Sound ∧ (p.accept e).2.1.holds = p.holds := by
  cases p with
  | visibility filter =>
      obtain ⟨hfst, hsound, hjudge⟩ := Visibility.accept_spec h e.1
      refine ⟨hfst, hsound, ?_⟩
      funext e'
      exact congrFun hjudge e'.1
  | _ => exact ⟨rfl, trivial, rfl⟩

theorem sound_copy (p : Predicate) (env : Environment) (h : p.Sound) : (p.copy env).Sound := by
  cases p with
  | visibility filter => exact filter.sound_copy env
  | _ => exact h

theorem holds_copy (p : Predicate) (env : Environment) : (p.copy env).holds = p.holds := by
  cases p with
  | visibility filter => exact funext fun e => filter.judge_copy env e.1
  | _ => rfl

theorem meets_copy (ps : List Predicate) (env : Environment) :
    meets (ps.map (·.copy env)) = meets ps := by
  funext e
  rw [meets, meets, List.all_map]
  refine congrArg (List.all ps) (funext fun p => ?_)
  rw [Function.comp_apply, holds_copy]

/-- A chain decides by its conditions, and being asked leaves it sound and with the
same conditions. -/
theorem acceptAll_spec {ps : List Predicate} (h : ∀ p ∈ ps, p.Sound) (e : Entry) :
    (acceptAll ps e).1 = meets ps e ∧ (∀ p ∈ (acceptAll ps e).2.1, p.Sound)
      ∧ meets (acceptAll ps e).2.1 = meets ps := by
  induction ps with
  | nil => exact ⟨rfl, h, rfl⟩
  | cons p ps ih =>
      obtain ⟨hp, hps⟩ := List.forall_mem_cons.mp h
      obtain ⟨hfst, hsound, hholds⟩ := accept_spec hp e
      rw [acceptAll]
      rcases hacc : p.accept e with ⟨_ | _, q, events⟩
      · -- the first that says no decides, and the others are not asked
        rw [hacc] at hfst hsound hholds
        refine ⟨?_, List.forall_mem_cons.mpr ⟨hsound, hps⟩, ?_⟩
        · rw [meets_cons, ← hfst, Bool.false_and]
        · funext e'
          rw [meets_cons, meets_cons]
          exact congrArg (· && _) (congrFun hholds e')
      · rw [hacc] at hfst hsound hholds
        obtain ⟨ihfst, ihsound, ihmeets⟩ := ih hps
        refine ⟨?_, List.forall_mem_cons.mpr ⟨hsound, ihsound⟩, ?_⟩
        · rw [meets_cons, ← hfst, Bool.true_and]
          exact ihfst
        · funext e'
          rw [meets_cons, meets_cons, ihmeets]
          exact congrArg (· && _) (congrFun hholds e')

end Predicate

/-- Predicates as they are built remember nothing yet. -/
theorem PredicateSpec.sound_of_build {spec : PredicateSpec} {env : Environment} {p : Predicate}
    (h : spec.build env = .ok p) : p.Sound := by
  cases spec with
  | visibility label =>
      cases label with
      | none =>
          rw [build, Except.ok.injEq] at h
          rw [← h]
          exact Visibility.sound_withDefault env _
      | some label =>
          rw [build, Except.ok.injEq] at h
          rw [← h]
          exact Visibility.sound_withDefault env _
  | ranges rows =>
      rw [build] at h
      cases hr : rows.mapM fun r => Fault.ofEnds r.range? with
      | error fault => rw [hr] at h; exact Except.noConfusion rfl rfl (heq_of_eq h)
      | ok spans =>
          rw [hr] at h
          rw [← Except.ok.inj h]
          trivial
  | labelled => rw [← Except.ok.inj h]; trivial
  | ageOff ttl now => rw [← Except.ok.inj h]; trivial
  | families names inclusive => rw [← Except.ok.inj h]; trivial

end CellScan
