/-
`Authorizations.lean` -- the tokens a caller presents to satisfy labels.

A set of tokens is a list of byte strings in strictly ascending order, so two
sets with the same members are equal. `ofList` collects tokens in any order,
and `mem_ofList` says that it neither adds nor loses one.
-/
import CellScan.Bytes.Display
import CellScan.SortedList
import CellScan.Text.Blank

set_option autoImplicit false

namespace CellScan

open CellScan.Text

/-- A set of tokens. -/
structure Authorizations where
  tokens : List Bytes
  sorted : SortedList.Sorted id tokens

namespace Authorizations

instance : DecidableEq Authorizations := fun a b =>
  decidable_of_iff (a.tokens = b.tokens) (by cases a; cases b; simp)

/-- No tokens. -/
def empty : Authorizations := ⟨[], List.Pairwise.nil⟩

/-- The set of the listed tokens. -/
def ofList (tokens : List Bytes) : Authorizations :=
  ⟨SortedList.insertAllBy id tokens [], SortedList.sorted_insertAllBy id tokens List.Pairwise.nil⟩

/-- Whether a token is presented. -/
def contains (a : Authorizations) (token : Bytes) : Bool := a.tokens.contains token

/-- How many tokens there are. -/
def size (a : Authorizations) : Nat := a.tokens.length

/-- Whether there is no token. -/
def isEmpty (a : Authorizations) : Bool := a.tokens.isEmpty

/-- Reads a comma separated list. White space around a token does not count and
empty tokens are dropped. -/
def parse (list : String) : Authorizations :=
  ofList ((((list.toList.splitOn ',').map trim).filter fun t => !t.isEmpty).map
    fun t => Bytes.ofString (String.ofList t))

/-- The tokens as texts, with replacement characters where they are not UTF-8. -/
def texts (a : Authorizations) : List String := a.tokens.map Bytes.toLossy

/-- The set of the tokens with the given texts. -/
def ofTexts (texts : List String) : Authorizations := ofList (texts.map Bytes.ofString)

/-- The set shown as a value. -/
def literal (a : Authorizations) : String :=
  "\x7b" ++ ", ".intercalate (a.tokens.map Bytes.literal) ++ "\x7d"

/-! ## Members -/

/-- Collecting tokens on top of a set adds exactly those. -/
theorem mem_insertAll (token : Bytes) (tokens : List Bytes) {start : List Bytes}
    (h : SortedList.Sorted id start) :
    token ∈ SortedList.insertAllBy id tokens start ↔ token ∈ tokens ∨ token ∈ start := by
  induction tokens generalizing start with
  | nil => simp [SortedList.insertAllBy]
  | cons t ts ih =>
      have step := SortedList.mem_insertBy (id : Bytes → Bytes) (x := t) (y := token) h
      rw [SortedList.insertAllBy, List.foldl_cons, ← SortedList.insertAllBy,
        ih (SortedList.sorted_insertBy id t h), step, List.mem_cons]
      by_cases ht : token = t
      · simp [ht]
      · have hne : ¬t = token := fun h => ht h.symm
        simp [ht, hne]

/-- The set of the listed tokens has these members. -/
theorem mem_ofList (token : Bytes) (tokens : List Bytes) :
    token ∈ (ofList tokens).tokens ↔ token ∈ tokens := by
  simp [ofList, mem_insertAll token tokens List.Pairwise.nil]

@[simp] theorem contains_ofList (token : Bytes) (tokens : List Bytes) :
    (ofList tokens).contains token = tokens.contains token := by
  simp [contains, mem_ofList]

end Authorizations

end CellScan
