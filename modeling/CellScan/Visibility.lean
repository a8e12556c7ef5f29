/-
`Visibility.lean` -- the filter that hides cells a caller may not see.

A cell is judged by its own label, or by the default label if it has none; with
neither, everyone sees it. Judgements are remembered by label in a recency
cache. A label that cannot be evaluated hides the cell, is counted and logged,
and is never remembered. `judge` is the same decision without the cache.
-/
import CellScan.Cache
import CellScan.Environment

set_option autoImplicit false

namespace CellScan

/-- A visibility filter, bound to one set of authorizations. -/
structure Visibility where
  authorizations : Authorizations
  defaultVisibility : Bytes
  evaluator : Evaluator
  cache : Cache Bytes Bool
  account : Account

namespace Visibility

/-- The filter of an environment with a default label of its own. -/
def withDefault (env : Environment) (defaultVisibility : Bytes) : Visibility :=
  ⟨env.authorizations, defaultVisibility, env.evaluator, Cache.ofCapacity env.cacheCapacity,
    env.account⟩

/-- The filter of an environment. -/
def ofEnvironment (env : Environment) : Visibility := withDefault env env.defaultVisibility

/-- The label that a cell is judged by, if any. -/
def effectiveLabel? (v : Visibility) (k : Key) : Option Bytes :=
  if !k.visibility.isEmpty then some k.visibility
  else if !v.defaultVisibility.isEmpty then some v.defaultVisibility
  else none

/-- The decision on a cell as the evaluator alone makes it. -/
def judge (v : Visibility) (k : Key) : Bool :=
  match v.effectiveLabel? k with
  | none => true
  | some label =>
      match v.evaluator label v.authorizations with
      | .ok visible => visible
      | .error _ => false

/-- The line logged for a label that cannot be evaluated. -/
def rejectionLine (k : Key) (fault : Fault) : String :=
  "rejecting cell " ++ k.display ++ ": visibility parse error: " ++ fault.display

/-- The decision on a cell, the filter that remembers it, and what was recorded. -/
def accept (v : Visibility) (k : Key) : Bool × Visibility × List Event :=
  match v.effectiveLabel? k with
  | none => (true, v, [])
  | some label =>
      match v.cache.get label with
      | (some visible, cache) => (visible, { v with cache }, [.count v.account (.lookup true)])
      | (none, cache) =>
          match v.evaluator label v.authorizations with
          | .ok visible =>
              (visible, { v with cache := cache.insert label visible },
                [.count v.account (.lookup false)])
          | .error fault =>
              (false, { v with cache },
                [.count v.account (.lookup false), .count v.account .parseError,
                  .log .error (rejectionLine k fault)])

/-- A filter with the same authorizations, default label, evaluator and capacity
that remembers nothing yet and counts on the account of `env`. -/
def copy (v : Visibility) (env : Environment) : Visibility :=
  { v with cache := Cache.ofCapacity v.cache.capacity, account := env.account }

end Visibility

end CellScan
