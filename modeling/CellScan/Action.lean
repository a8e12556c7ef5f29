/-
`Action.lean` -- calls on a state that may fail and that record what they do.

A call comes to an *outcome*: a result, the state it leaves, and the events it
recorded. A call that fails leaves the state as far as it got; what it recorded
up to there is kept too. Calls follow one another by `do`: the first failure ends
the sequence. `on` makes a call on a part of a state a call on the whole.
-/
import CellScan.Fault
import CellScan.Journal

set_option autoImplicit false

namespace CellScan

/-- What a call comes to. -/
structure Outcome (σ α : Type) where
  result : Except Fault α
  state : σ
  events : List Event

/-- The outcome with its state put into a larger one. -/
def Outcome.within {σ τ α : Type} (put : σ → τ) (o : Outcome σ α) : Outcome τ α :=
  ⟨o.result, put o.state, o.events⟩

/-- A call on a state. -/
def Action (σ α : Type) : Type := σ → Outcome σ α

namespace Action

variable {σ τ α β : Type}

/-- Does nothing and gives a value. -/
def give (a : α) : Action σ α := fun s => ⟨.ok a, s, []⟩

/-- One call, and if it succeeds the next one with its result. -/
def andThen (x : Action σ α) (f : α → Action σ β) : Action σ β := fun s =>
  match x s with
  | ⟨.error fault, s, events⟩ => ⟨.error fault, s, events⟩
  | ⟨.ok a, s, events⟩ =>
      let o := f a s
      ⟨o.result, o.state, events ++ o.events⟩

instance : Monad (Action σ) where
  pure := give
  bind := andThen

/-- Fails. -/
def fail (fault : Fault) : Action σ α := fun s => ⟨.error fault, s, []⟩

/-- Gives what `f` sees in the state. -/
def look (f : σ → α) : Action σ α := fun s => ⟨.ok (f s), s, []⟩

/-- Changes the state. -/
def change (f : σ → σ) : Action σ Unit := fun s => ⟨.ok (), f s, []⟩

/-- Records events. -/
def record (events : List Event) : Action σ Unit := fun s => ⟨.ok (), s, events⟩

/-- The call on a part of a state, as a call on the whole. -/
def on (part : τ → σ) (put : τ → σ → τ) (x : Action σ α) : Action τ α := fun t =>
  (x (part t)).within (put t)

/-- The call on each item of a list in turn, up to the first that fails. -/
def onEach (x : Action σ Unit) : Action (List σ) Unit
  | [] => ⟨.ok (), [], []⟩
  | s :: rest =>
      match x s with
      | ⟨.error fault, s, events⟩ => ⟨.error fault, s :: rest, events⟩
      | ⟨.ok (), s, events⟩ =>
          let o := onEach x rest
          ⟨o.result, s :: o.state, events ++ o.events⟩

/-- The call on the item at a position of a list, and `absent` where there is none. -/
def onItem (i : Nat) (absent : α) (x : Action σ α) : Action (List σ) α := fun ss =>
  match ss[i]? with
  | none => ⟨.ok absent, ss, []⟩
  | some s => (x s).within (ss.set i ·)

/-- Whether the call says yes on some item of a list, each asked in turn up to the
first that says yes. -/
def anyItem (x : Action σ Bool) : Action (List σ) Bool
  | [] => ⟨.ok false, [], []⟩
  | s :: rest =>
      match x s with
      | ⟨.error fault, s, events⟩ => ⟨.error fault, s :: rest, events⟩
      | ⟨.ok true, s, events⟩ => ⟨.ok true, s :: rest, events⟩
      | ⟨.ok false, s, events⟩ =>
          let o := anyItem x rest
          ⟨o.result, s :: o.state, events ++ o.events⟩

/-! ## Sequences of calls -/

@[simp] theorem give_apply (a : α) (s : σ) : give a s = ⟨.ok a, s, []⟩ := rfl

@[simp] theorem pure_apply (a : α) (s : σ) : (pure a : Action σ α) s = ⟨.ok a, s, []⟩ := rfl

@[simp] theorem fail_apply (fault : Fault) (s : σ) :
    (fail fault : Action σ α) s = ⟨.error fault, s, []⟩ := rfl

/-- After a success the next call goes on from the state it left. -/
theorem bind_apply_ok {x : Action σ α} {f : α → Action σ β} {s s' : σ} {a : α}
    {events : List Event} (h : x s = ⟨.ok a, s', events⟩) :
    (x >>= f) s = ⟨(f a s').result, (f a s').state, events ++ (f a s').events⟩ := by
  show andThen x f s = _
  simp only [andThen, h]

/-- After a failure nothing else is called. -/
theorem bind_apply_error {x : Action σ α} {f : α → Action σ β} {s s' : σ} {fault : Fault}
    {events : List Event} (h : x s = ⟨.error fault, s', events⟩) :
    (x >>= f) s = ⟨.error fault, s', events⟩ := by
  show andThen x f s = _
  simp only [andThen, h]

end Action

end CellScan
