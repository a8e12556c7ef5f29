/-
`Merge.lean` -- several cursors as one in key order.

The keys the children stand at wait in a queue, the least first; of equal keys
that of the earlier child. The merge stands where the child at the head of the
queue stands. Leaving it takes the head off the queue, moves that child on and puts
its new key where it belongs. With `dedupe` a key is shown once: the other
children that stand at it move on first, and every child that moves passes over
repeats of the key it leaves.

A child that steps back would break the order, so the merge then gives up: the
queue is emptied, the violation is counted and the call fails. A child's own
failure is passed on as it is.
-/
import CellScan.Cursor

set_option autoImplicit false

namespace CellScan

/-- The key a child stands at, waiting its turn. -/
structure Merge.Head where
  key : Key
  child : Nat
deriving DecidableEq

namespace Merge.Head

/-- By key, then the earlier child first. -/
def order : Head → Head → Ordering := compareLex (compareOn key) (compareOn child)

instance : Ord Head := ⟨order⟩

instance : Std.TransOrd Head := inferInstanceAs (Std.TransCmp (compareLex _ _))

end Merge.Head

/-- Children and the queue of the keys they stand at. -/
structure Merge (σ : Type) where
  children : List σ
  queue : List Merge.Head
  dedupe : Bool
  /-- On whose account violations are counted, if on anyone's. -/
  account : Option Account

namespace Merge

variable {σ : Type} [Cursor σ]

/-- The key a child stands at. -/
def childKey (m : Merge σ) (child : Nat) : Option Key := (m.children[child]?).bind Cursor.topKey

/-- Puts the key of a child into the queue. -/
def enqueue (m : Merge σ) (key : Key) (child : Nat) : Merge σ :=
  { m with queue := SortedList.insertBy id ⟨key, child⟩ m.queue }

/-- The queue of the keys that children stand at. -/
def queueOf (children : List σ) : List Head :=
  let heads := children.zipIdx.filterMap fun (c, i) => (Cursor.topKey c).map fun k => Head.mk k i
  SortedList.insertAllBy id heads []

/-- A merge of children, wherever they stand. -/
def ofChildren (children : List σ) (dedupe : Bool) (account : Option Account) : Merge σ :=
  ⟨children, queueOf children, dedupe, account⟩

/-- Places all children, the first one first. If one fails the merge stands nowhere. -/
def place (range : Range) (families : FamilyFilter) : Action (Merge σ) Unit := do
  Action.change fun m => { m with queue := [] }
  Action.on children (fun m cs => { m with children := cs })
    (Action.onEach (Cursor.seek range families))
  Action.change fun m => { m with queue := queueOf m.children }

/-- Moves a child on until it stands at another key than `key`. -/
def passRepeats (key : Key) : Nat → Action σ Unit
  | 0 => Action.fail .endless
  | fuel + 1 => fun s =>
      if Cursor.topKey s = some key then (do Cursor.next; passRepeats key fuel) s
      else Action.give () s

/-- Moves a child off `key`, and with `dedupe` past its repeats. -/
def leave (dedupe : Bool) (key : Key) : Action σ Unit := fun s =>
  if dedupe then (do Cursor.next; passRepeats key (Cursor.reach s + 1)) s else Cursor.next s

/-- The count of a violation. -/
def violation (m : Merge σ) : List Event :=
  m.account.toList.map fun account => .count account .violation

/-- Puts a child that came from `key` back into the queue, unless it is at its end. -/
def rejoin (child : Nat) (key : Key) : Action (Merge σ) Unit := fun m =>
  match m.childKey child with
  | none => ⟨.ok (), m, []⟩
  | some k =>
      if k < key then
        ⟨.error (.steppedBack child key k), { m with queue := [] }, m.violation⟩
      else ⟨.ok (), m.enqueue k child, []⟩

/-- Moves a child that is off the queue on from `key` and puts it back. -/
def advance (child : Nat) (key : Key) : Action (Merge σ) Unit := do
  let dedupe ← Action.look Merge.dedupe
  Action.on children (fun m cs => { m with children := cs })
    (Action.onItem child () (leave dedupe key))
  rejoin child key

/-- Moves on the children at the front of the queue that stand at `key`, at most
`count` of them. -/
def advancePeers (key : Key) : Nat → Action (Merge σ) Unit
  | 0 => Action.give ()
  | count + 1 => fun m =>
      match m.queue with
      | [] => Action.give () m
      | head :: queue =>
          if head.key = key then
            (do advance head.child head.key; advancePeers key count) { m with queue }
          else Action.give () m

/-- Leaves the key the merge stands at. -/
def step : Action (Merge σ) Unit := fun m =>
  match m.queue with
  | [] => Action.fail .nothingToLeave m
  | head :: queue =>
      (do
        if m.dedupe then advancePeers head.key queue.length
        advance head.child head.key) { m with queue }

/-- The entry of the child at the head of the queue. -/
def current (m : Merge σ) : Option Entry :=
  m.queue.head?.bind fun head => (m.children[head.child]?).bind Cursor.top

/-- A merge of copies of the children, with an account if this one has one. -/
def copyFor (env : Environment) (m : Merge σ) : Except Fault (Merge σ) :=
  (m.children.mapM (Cursor.copy env)).map fun children =>
    ⟨children, [], m.dedupe, m.account.map fun _ => env.account⟩

instance : Cursor (Merge σ) where
  seek := place
  top := current
  next := step
  copy := copyFor
  reach m := (m.children.map Cursor.reach).foldr (· + ·) 0

end Merge

end CellScan
