/-
`Cache.lean` -- a cache of fixed capacity that forgets what was used longest ago.

Two indexes are kept side by side. `slots` holds each key's value and the tick
of its last use; `recency` lists the same keys by that tick, so the key to
forget is the first of it. Every call takes the next tick of the clock, misses
included. Hits and misses are counted from the first call on; `clear` forgets
the entries and starts the clock again, and keeps the counts.
-/
import CellScan.SortedList

set_option autoImplicit false

namespace CellScan

/-- A value with the tick of its last use. -/
structure Cache.Slot (κ ν : Type) where
  key : κ
  value : ν
  lastUse : UInt64

/-- A cache from keys to values. -/
structure Cache (κ ν : Type) where
  capacity : Nat
  slots : List (Cache.Slot κ ν)
  recency : List (UInt64 × κ)
  clock : UInt64
  hits : UInt64
  misses : UInt64

namespace Cache

variable {κ ν : Type} [DecidableEq κ]

/-- An empty cache. A capacity of zero counts as one. -/
def ofCapacity (capacity : Nat) : Cache κ ν := ⟨max capacity 1, [], [], 0, 0, 0⟩

/-- How many entries there are. -/
def size (c : Cache κ ν) : Nat := c.slots.length

/-- Whether there is no entry. -/
def isEmpty (c : Cache κ ν) : Bool := c.slots.isEmpty

/-- The slot of a key. -/
def slot? (c : Cache κ ν) (key : κ) : Option (Slot κ ν) := c.slots.find? (·.key = key)

/-- Moves the key used at tick `before` to tick `now`. -/
def moveUse (before now : UInt64) (recency : List (UInt64 × κ)) : List (UInt64 × κ) :=
  match recency.find? (·.1 = before) with
  | none => recency
  | some (_, key) =>
      SortedList.insertBy Prod.fst (now, key) (recency.filter (·.1 ≠ before))

/-- Looks a key up. A key that is there has been used now. -/
def get (c : Cache κ ν) (key : κ) : Option ν × Cache κ ν :=
  let now := c.clock + 1
  match c.slot? key with
  | none => (none, { c with clock := now, misses := c.misses + 1 })
  | some s =>
      (some s.value,
        { c with
          slots := c.slots.map fun t => if t.key = key then { t with lastUse := now } else t
          recency := moveUse s.lastUse now c.recency
          clock := now
          hits := c.hits + 1 })

/-- Forgets the entry used longest ago, if the cache is full. -/
def makeRoom (c : Cache κ ν) : Cache κ ν :=
  if c.size < c.capacity then c
  else match c.recency with
    | [] => c
    | (_, oldest) :: rest =>
        { c with slots := c.slots.filter (·.key ≠ oldest), recency := rest }

/-- Stores a value under a key, which has been used now. -/
def insert (c : Cache κ ν) (key : κ) (value : ν) : Cache κ ν :=
  let now := c.clock + 1
  match c.slot? key with
  | some s =>
      { c with
        slots := c.slots.map fun t => if t.key = key then ⟨key, value, now⟩ else t
        recency := SortedList.insertBy Prod.fst (now, key) (c.recency.filter (·.1 ≠ s.lastUse))
        clock := now }
  | none =>
      let room := c.makeRoom
      { room with
        slots := ⟨key, value, now⟩ :: room.slots
        recency := SortedList.insertBy Prod.fst (now, key) room.recency
        clock := now }

/-- Forgets all entries. -/
def clear (c : Cache κ ν) : Cache κ ν := { c with slots := [], recency := [], clock := 0 }

/-- The part of the look-ups that found something. -/
def hitRate (c : Cache κ ν) : Float :=
  let total := c.hits + c.misses
  if total = 0 then 0 else c.hits.toFloat / total.toFloat

end Cache

end CellScan
