/-
`Label.lean` -- visibility labels as formulas over tokens.

A label is either empty, which everyone may see, or a formula of tokens joined
by "and" and "or". Whether a set of authorizations satisfies a formula is the
boolean value of the formula where exactly the presented tokens are true.
-/
import CellScan.Authorizations

set_option autoImplicit false

namespace CellScan

/-- A formula of tokens. -/
inductive Formula where
  | token (bytes : Bytes)
  | all (parts : List Formula)
  | any (parts : List Formula)

namespace Formula

mutual
/-- Whether presented tokens satisfy a formula. -/
def holds (auths : Authorizations) : Formula → Bool
  | .token t => auths.contains t
  | .all parts => allHold auths parts
  | .any parts => anyHolds auths parts

/-- Whether all of the formulas are satisfied. -/
def allHold (auths : Authorizations) : List Formula → Bool
  | [] => true
  | f :: fs => f.holds auths && allHold auths fs

/-- Whether one of the formulas is satisfied. -/
def anyHolds (auths : Authorizations) : List Formula → Bool
  | [] => false
  | f :: fs => f.holds auths || anyHolds auths fs
end

mutual
/-- Whether two formulas are written alike, parts in order. -/
def same : Formula → Formula → Bool
  | .token s, .token t => s == t
  | .all fs, .all gs => sameList fs gs
  | .any fs, .any gs => sameList fs gs
  | _, _ => false

/-- Whether two lists of formulas are written alike. -/
def sameList : List Formula → List Formula → Bool
  | [], [] => true
  | f :: fs, g :: gs => f.same g && sameList fs gs
  | _, _ => false
end

mutual
/-- Formulas written alike are equal. -/
theorem same_iff (f g : Formula) : f.same g = true ↔ f = g := by
  cases f with
  | token s => cases g <;> simp [same]
  | all fs =>
      cases g with
      | all gs => simpa [same] using sameList_iff fs gs
      | token t => simp [same]
      | any gs => simp [same]
  | any fs =>
      cases g with
      | any gs => simpa [same] using sameList_iff fs gs
      | token t => simp [same]
      | all gs => simp [same]

/-- Lists of formulas written alike are equal. -/
theorem sameList_iff (fs gs : List Formula) : sameList fs gs = true ↔ fs = gs := by
  match fs, gs with
  | [], [] => simp [sameList]
  | [], g :: gs => simp [sameList]
  | f :: fs, [] => simp [sameList]
  | f :: fs, g :: gs => simp [sameList, same_iff f g, sameList_iff fs gs]
end

instance : DecidableEq Formula := fun f g => decidable_of_iff _ (same_iff f g)

mutual
/-- A formula shown as a value. -/
def literal : Formula → String
  | .token t => "Token(" ++ t.literal ++ ")"
  | .all parts => "And([" ++ ", ".intercalate (literals parts) ++ "])"
  | .any parts => "Or([" ++ ", ".intercalate (literals parts) ++ "])"

/-- Formulas shown as values. -/
def literals : List Formula → List String
  | [] => []
  | f :: fs => f.literal :: literals fs
end

end Formula

/-- A visibility label: empty, or a formula. -/
structure Label where
  formula : Option Formula
deriving DecidableEq

namespace Label

/-- The empty label. -/
def empty : Label := ⟨none⟩

/-- Whether presented tokens satisfy a label. Everyone satisfies the empty one. -/
def holds (l : Label) (auths : Authorizations) : Bool :=
  match l.formula with
  | none => true
  | some f => f.holds auths

/-- A label shown as a value. -/
def literal (l : Label) : String :=
  let root := match l.formula with
    | none => "None"
    | some f => "Some(" ++ f.literal ++ ")"
  "ColumnVisibility \x7b root: " ++ root ++ " \x7d"

end Label

end CellScan
