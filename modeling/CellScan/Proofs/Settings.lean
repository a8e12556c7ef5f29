/-
`Settings.lean` -- that a scan is read back from its own text.

A record that is written with known fields gives those fields back, with a tag or without
(`fields?_ofMembers`, `tagged?_ofMembers`); so every predicate and every intersection is read
back from its own record (`PredicateSpec.ofJson?_toJson`, `IntersectionSpec.ofJson?_toJson`).
Of a whole scan only tokens can be lost: they are written as texts, with replacement
characters where they are none (`ScanSpec.ofJson?_toJson`). A token that was read from a
text is one, so a scan that was read at all is read back (`ScanSpec.ofText_toText_iff`).
-/
import CellScan.Proofs.Rereading
import CellScan.Spec.Scan
import Mathlib.Data.List.Sort

set_option autoImplicit false

namespace CellScan

namespace Json

/-! ## Plain values -/

section plain

variable {α β : Type}

/-- What is written by `f` and read by `read`, one item after the other, is read back. -/
theorem mapM_map_eq_some {f : α → β} {read : β → Option α} (h : ∀ a, read (f a) = some a)
    (xs : List α) : (xs.map f).mapM read = some xs := by
  induction xs with
  | nil => rfl
  | cons x xs ih => simp [List.mapM_cons, h, ih]

theorem list?_map {f : α → Json} {read : Json → Option α} (h : ∀ a, read (f a) = some a)
    (xs : List α) : list? read (.list (xs.map f)) = some xs :=
  mapM_map_eq_some h xs

/-- What may be null is read back if what is there is, and is not written as null. -/
theorem nullable?_getD {f : α → Json} {read : Json → Option α} (h : ∀ a, read (f a) = some a)
    (hnull : ∀ a, f a ≠ .null) (o : Option α) : nullable? read ((o.map f).getD .null) = some o := by
  cases o with
  | none => rfl
  | some a =>
      rw [Option.map_some, Option.getD_some, nullable?.eq_def]
      split
      · next hf => exact absurd hf (hnull a)
      · rw [h, Option.map_some]

end plain

theorem asText?_ofString (s : String) : (ofString s).asText? = some s := rfl

theorem flag?_bool (b : Bool) : (Json.bool b).flag? = some b := rfl

theorem int64?_toInt (n : Int64) : (ofInt n.toInt).int64? = some n := by
  have hrange : Int64.minValue.toInt ≤ n.toInt ∧ n.toInt ≤ Int64.maxValue.toInt :=
    ⟨n.minValue_le_toInt, n.toInt_le⟩
  rw [int64?, ofInt, whole?]
  dsimp only
  rw [if_pos hrange, Int64.ofInt_toInt]

theorem size?_toNat (n : UInt64) : (ofInt n.toNat).size? = some n := by
  have hrange : (0 : Int) ≤ n.toNat ∧ (n.toNat : Int) < UInt64.size := by
    exact ⟨Int.natCast_nonneg _, Int.ofNat_lt.mpr n.toNat_lt⟩
  rw [size?, ofInt, whole?]
  dsimp only
  rw [if_pos hrange, Int.toNat_natCast, UInt64.ofNat_toNat]

/-! ## Records -/

/-- A member with the name that it is spelled by. -/
def named? (m : Option String × Json) : Option (String × Json) := m.1.map fun name => (name, m.2)

theorem ofMembers_eq (ms : List (String × Json)) :
    ofMembers ms = .record (ms.map fun m => (some m.1, m.2)) := rfl

theorem knownMembers?_eq (known : List String) (ms : List (Option String × Json)) :
    knownMembers? known ms = (ms.mapM named?).bind fun fs =>
      if ((fs.filter fun f => known.contains f.1).map Prod.fst).Nodup then
        some (fs.filter fun f => known.contains f.1)
      else none := rfl

/-- A record of the known fields, each once, gives those fields. -/
theorem fields?_ofMembers {known : List String} {ms : List (String × Json)}
    (hnames : ms.map Prod.fst = known) (hnodup : known.Nodup) :
    (ofMembers ms).fields? known = some ms := by
  have hname : ∀ m : String × Json, named? (some m.1, m.2) = some m := fun _ => rfl
  have hnamed : (ms.map fun m => (some m.1, m.2)).mapM named? = some ms :=
    mapM_map_eq_some hname ms
  have hfilter : (ms.filter fun f => known.contains f.1) = ms := by
    rw [List.filter_eq_self]
    intro m hm
    simpa [← hnames] using ⟨m.2, hm⟩
  rw [ofMembers_eq, fields?, knownMembers?_eq, hnamed, Option.bind_some, hfilter, hnames,
    if_pos hnodup]

namespace Fields

variable {α : Type} {fs : Fields} {name : String} {read : Json → Option α} {a : α} {v : Json}

/-- A field that is there and is read is given, whatever its default. -/
theorem value?_eq_some (hlookup : fs.lookup name = some v) (hread : read v = some a) (default : α) :
    fs.value? name default read = some a := by
  rw [value?, hlookup]
  exact hread

theorem required?_eq_some (hlookup : fs.lookup name = some v) (hread : read v = some a) :
    fs.required? name read = some a := by
  rw [required?, hlookup]
  exact hread

end Fields

/-- A tagged record gives its kind and the rest of its fields. -/
theorem tagged?_ofMembers {tag kind : String} {levels : Nat} {ms : List (String × Json)}
    (hsound : (ofMembers ((tag, ofString kind) :: ms)).isSound = true)
    (hdepth : levels + (ofMembers ((tag, ofString kind) :: ms)).depth ≤ depthLimit)
    (htag : ∀ m ∈ ms, m.1 ≠ tag) :
    (ofMembers ((tag, ofString kind) :: ms)).tagged? tag levels = some (kind, ofMembers ms) := by
  -- the tag is the only member of its name
  have htagged : (ms.map fun m => (some m.1, m.2)).filter (·.1 = some tag) = [] := by
    simp only [List.filter_eq_nil_iff, List.mem_map]
    rintro _ ⟨m, hm, rfl⟩
    simpa using htag m hm
  have hothers : (ms.map fun m => (some m.1, m.2)).filter (·.1 ≠ some tag) =
      ms.map fun m => (some m.1, m.2) := by
    simp only [List.filter_eq_self, List.mem_map]
    rintro _ ⟨m, hm, rfl⟩
    simpa using htag m hm
  rw [tagged?.eq_def, if_pos ⟨hsound, hdepth⟩, ofMembers_eq, List.map_cons]
  dsimp only
  rw [List.filter_cons_of_pos (by simp), htagged, List.filter_cons_of_neg (by simp), hothers]
  rfl

/-! ## Values that are written -/

/-- Whether a value is exact and has at most so many lists and records open at once: it can
be written and read, and be kept inside a few others. -/
def Fits (n : Nat) (v : Json) : Prop := v.isExact = true ∧ v.depth ≤ n

theorem allExact_and_depth_le {n : Nat} {vs : List Json} (h : ∀ v ∈ vs, Fits n v) :
    allExact vs = true ∧ listDepth vs ≤ n := by
  induction vs with
  | nil => exact ⟨rfl, Nat.zero_le n⟩
  | cons v vs ih =>
      obtain ⟨⟨hexact, hdepth⟩, hvs⟩ := List.forall_mem_cons.mp h
      obtain ⟨hexacts, hdepths⟩ := ih hvs
      exact ⟨by rw [allExact, hexact, hexacts]; rfl, Nat.max_le.mpr ⟨hdepth, hdepths⟩⟩

/-- A list fits with one level more than its items. -/
theorem fits_map {α : Type} {f : α → Json} {n : Nat} (h : ∀ a, Fits n (f a)) (xs : List α) :
    Fits (n + 1) (.list (xs.map f)) := by
  have hall : ∀ v ∈ xs.map f, Fits n v := by simpa using fun a _ => h a
  obtain ⟨hexact, hdepth⟩ := allExact_and_depth_le hall
  exact ⟨hexact, Nat.succ_le_succ hdepth⟩

/-- A record fits with one level more than its values. -/
theorem fits_ofMembers {n : Nat} {ms : List (String × Json)} (h : ∀ m ∈ ms, Fits n m.2) :
    Fits (n + 1) (ofMembers ms) := by
  have hall : membersExact (ms.map fun m => (some m.1, m.2)) = true ∧
      membersDepth (ms.map fun m => (some m.1, m.2)) ≤ n := by
    induction ms with
    | nil => exact ⟨rfl, Nat.zero_le n⟩
    | cons m ms ih =>
        obtain ⟨⟨hexact, hdepth⟩, hms⟩ := List.forall_mem_cons.mp h
        obtain ⟨hexacts, hdepths⟩ := ih hms
        refine ⟨?_, Nat.max_le.mpr ⟨hdepth, hdepths⟩⟩
        rw [List.map_cons, membersExact, hexact, hexacts]
        rfl
  exact ⟨hall.1, Nat.succ_le_succ hall.2⟩

theorem fits_getD {α : Type} {f : α → Json} {n : Nat} (h : ∀ a, Fits n (f a)) (o : Option α) :
    Fits n ((o.map f).getD .null) := by
  cases o with
  | none => exact ⟨rfl, Nat.zero_le n⟩
  | some a => exact h a

theorem fits_ofString {n : Nat} (s : String) : Fits n (ofString s) := ⟨rfl, Nat.zero_le n⟩

theorem fits_bool {n : Nat} (b : Bool) : Fits n (.bool b) := ⟨rfl, Nat.zero_le n⟩

theorem fits_toInt {n : Nat} (i : Int64) : Fits n (ofInt i.toInt) := by
  have hmost : Int64.maxValue.toInt < (UInt64.size : Int) := by decide
  refine ⟨?_, Nat.zero_le n⟩
  simp only [ofInt, isExact, Number.isExact, Bool.and_eq_true, decide_eq_true_eq]
  exact ⟨i.minValue_le_toInt, lt_of_le_of_lt i.toInt_le hmost⟩

theorem fits_toNat {n : Nat} (i : UInt64) : Fits n (ofInt i.toNat) := by
  have hleast : Int64.minValue.toInt ≤ 0 := by decide
  refine ⟨?_, Nat.zero_le n⟩
  simp only [ofInt, isExact, Number.isExact, Bool.and_eq_true, decide_eq_true_eq]
  exact ⟨hleast.trans (Int.natCast_nonneg _), Int.ofNat_lt.mpr i.toNat_lt⟩

end Json

open Json

/-! ## Predicates -/

namespace RowInterval

theorem fits_toJson (rows : RowInterval) : Fits 1 rows.toJson := by
  refine fits_ofMembers ?_
  simpa using ⟨fits_getD fits_ofString rows.start, fits_getD fits_ofString rows.stop⟩

theorem ofJson?_toJson (rows : RowInterval) : ofJson? rows.toJson = some rows := by
  have hstart := nullable?_getD asText?_ofString nofun rows.start
  have hstop := nullable?_getD asText?_ofString nofun rows.stop
  rw [ofJson?, toJson, fields?_ofMembers (by rfl) (by decide)]
  simp only [Option.bind_eq_bind, Option.bind_some]
  rw [Fields.value?_eq_some (by rfl) hstart, Option.bind_some,
    Fields.value?_eq_some (by rfl) hstop]
  rfl

end RowInterval

namespace PredicateSpec

theorem fits_toJson (p : PredicateSpec) : Fits 3 p.toJson := by
  cases p with
  | visibility label =>
      refine fits_ofMembers ?_
      simpa using ⟨fits_ofString _, fits_getD fits_ofString label⟩
  | labelled =>
      refine fits_ofMembers ?_
      simpa using fits_ofString _
  | ranges rows =>
      refine fits_ofMembers ?_
      simpa using ⟨fits_ofString _, fits_map RowInterval.fits_toJson rows⟩
  | ageOff ttl now =>
      refine fits_ofMembers ?_
      simpa using ⟨fits_ofString _, fits_toInt ttl, fits_toInt now⟩
  | families names inclusive =>
      refine fits_ofMembers ?_
      simpa using ⟨fits_ofString _, fits_map fits_ofString names, fits_bool inclusive⟩

/-- A predicate is read back from its own record. -/
theorem ofJson?_toJson (p : PredicateSpec) {levels : Nat} (hlevels : levels + 3 ≤ depthLimit) :
    ofJson? levels p.toJson = some p := by
  obtain ⟨hexact, hdepth⟩ := fits_toJson p
  have hsound := isSound_of_isExact _ hexact
  have hlevels : levels + p.toJson.depth ≤ depthLimit := by omega
  rw [ofJson?]
  cases p with
  | visibility label =>
      have hlabel := nullable?_getD asText?_ofString nofun label
      rw [toJson, tagged?_ofMembers hsound hlevels (by simp)]
      dsimp only
      rw [ofKind?, fields?_ofMembers (by rfl) (by decide)]
      simp only [Option.bind_eq_bind, Option.bind_some]
      rw [Fields.value?_eq_some (by rfl) hlabel]
      rfl
  | labelled =>
      rw [toJson, tagged?_ofMembers hsound hlevels (by simp)]
      rfl
  | ranges rows =>
      have hrows := list?_map RowInterval.ofJson?_toJson rows
      rw [toJson, tagged?_ofMembers hsound hlevels (by simp)]
      dsimp only
      rw [ofKind?, fields?_ofMembers (by rfl) (by decide)]
      simp only [Option.bind_eq_bind, Option.bind_some]
      rw [Fields.required?_eq_some (by rfl) hrows]
      rfl
  | ageOff ttl now =>
      rw [toJson, tagged?_ofMembers hsound hlevels (by simp)]
      dsimp only
      rw [ofKind?, fields?_ofMembers (by rfl) (by decide)]
      simp only [Option.bind_eq_bind, Option.bind_some]
      rw [Fields.required?_eq_some (by rfl) (int64?_toInt ttl), Option.bind_some,
        Fields.required?_eq_some (by rfl) (int64?_toInt now)]
      rfl
  | families names inclusive =>
      have hnames := list?_map asText?_ofString names
      rw [toJson, tagged?_ofMembers hsound hlevels (by simp)]
      dsimp only
      rw [ofKind?, fields?_ofMembers (by rfl) (by decide)]
      simp only [Option.bind_eq_bind, Option.bind_some]
      rw [Fields.required?_eq_some (by rfl) hnames, Option.bind_some,
        Fields.value?_eq_some (by rfl) (flag?_bool inclusive)]
      rfl

end PredicateSpec

/-! ## Intersections -/

namespace IntersectionSpec

theorem fits_toJson (i : IntersectionSpec) : Fits 2 i.toJson := by
  cases i with
  | termFamily terms negated documents =>
      refine fits_ofMembers ?_
      simpa using ⟨fits_ofString _, fits_map fits_ofString terms, fits_map fits_bool negated,
        fits_ofString documents⟩
  | indexFamily terms negated index documents segments =>
      refine fits_ofMembers ?_
      simpa using ⟨fits_ofString _, fits_map fits_ofString terms, fits_map fits_bool negated,
        fits_ofString index, fits_ofString documents, fits_toNat segments⟩

theorem toJson_ne_null (i : IntersectionSpec) : i.toJson ≠ .null := by
  cases i <;> exact nofun

/-- An intersection is read back from its own record. -/
theorem ofJson?_toJson (i : IntersectionSpec) {levels : Nat} (hlevels : levels + 2 ≤ depthLimit) :
    ofJson? levels i.toJson = some i := by
  obtain ⟨hexact, hdepth⟩ := fits_toJson i
  have hsound := isSound_of_isExact _ hexact
  have hlevels : levels + i.toJson.depth ≤ depthLimit := by omega
  rw [ofJson?]
  cases i with
  | termFamily terms negated documents =>
      have hterms := list?_map asText?_ofString terms
      rw [toJson, tagged?_ofMembers hsound hlevels (by simp)]
      dsimp only
      rw [ofLayout?, fields?_ofMembers (by rfl) (by decide)]
      simp only [Option.bind_eq_bind, Option.bind_some]
      rw [Fields.required?_eq_some (by rfl) hterms, Option.bind_some,
        Fields.value?_eq_some (by rfl) (list?_map flag?_bool negated), Option.bind_some,
        Fields.value?_eq_some (by rfl) (asText?_ofString documents)]
      rfl
  | indexFamily terms negated index documents segments =>
      have hterms := list?_map asText?_ofString terms
      rw [toJson, tagged?_ofMembers hsound hlevels (by simp)]
      dsimp only
      rw [ofLayout?, fields?_ofMembers (by rfl) (by decide)]
      simp only [Option.bind_eq_bind, Option.bind_some]
      rw [Fields.required?_eq_some (by rfl) hterms, Option.bind_some,
        Fields.value?_eq_some (by rfl) (list?_map flag?_bool negated), Option.bind_some,
        Fields.value?_eq_some (by rfl) (asText?_ofString index), Option.bind_some,
        Fields.value?_eq_some (by rfl) (asText?_ofString documents), Option.bind_some,
        Fields.value?_eq_some (by rfl) (size?_toNat segments)]
      rfl

end IntersectionSpec

/-! ## Tokens -/

/-- Two lists in ascending order with the same members are one. -/
theorem SortedList.Sorted.eq_of_mem_iff {α β : Type} [Ord β] [Std.TransOrd β] {f : α → β}
    {xs ys : List α} (hxs : SortedList.Sorted f xs) (hys : SortedList.Sorted f ys)
    (h : ∀ x, x ∈ xs ↔ x ∈ ys) : xs = ys := by
  have : Std.Irrefl fun x y : α => compare (f x) (f y) = .lt := by
    refine ⟨fun x (hlt : compare (f x) (f x) = .lt) => ?_⟩
    have heq : compare (f x) (f x) = .eq := Std.ReflCmp.compare_self
    rw [heq] at hlt
    cases hlt
  have : Std.Antisymm fun x y : α => compare (f x) (f y) = .lt := by
    refine ⟨fun x y (hlt : compare (f x) (f y) = .lt) (hgt : compare (f y) (f x) = .lt) => ?_⟩
    rw [Std.OrientedCmp.gt_of_lt hlt] at hgt
    cases hgt
  exact List.Pairwise.eq_of_mem_iff hxs hys h

namespace Authorizations

theorem eq_of_tokens {a b : Authorizations} (h : a.tokens = b.tokens) : a = b := by
  cases a
  cases b
  cases h
  rfl

/-- Collecting the tokens of a set gives the set. -/
theorem ofList_tokens (a : Authorizations) : ofList a.tokens = a :=
  eq_of_tokens ((ofList a.tokens).sorted.eq_of_mem_iff a.sorted fun t => mem_ofList t a.tokens)

/-- The tokens of a set of texts are well formed. -/
theorem isSome_of_mem_ofTexts {texts : List String} {t : Bytes} (ht : t ∈ (ofTexts texts).tokens) :
    t.toString?.isSome = true := by
  rw [ofTexts, mem_ofList, List.mem_map] at ht
  obtain ⟨s, -, rfl⟩ := ht
  rw [Bytes.toString?_ofString]
  rfl

/-- A set comes back from its texts exactly if all of its tokens are well formed. -/
theorem ofTexts_texts_iff (a : Authorizations) :
    ofTexts a.texts = a ↔ ∀ t ∈ a.tokens, t.toString?.isSome = true := by
  constructor
  · intro h t ht
    rw [← h] at ht
    exact isSome_of_mem_ofTexts ht
  · intro h
    -- nothing is replaced in a token that is well formed
    have htexts : a.texts.map Bytes.ofString = a.tokens := by
      rw [texts, List.map_map]
      conv_rhs => rw [← List.map_id a.tokens]
      refine List.map_congr_left fun t ht => ?_
      obtain ⟨s, hs⟩ := Option.isSome_iff_exists.mp (h t ht)
      rw [Function.comp_apply, Bytes.eq_ofString_of_toString? hs, Bytes.toLossy_ofString, id_eq]
    rw [ofTexts, htexts, ofList_tokens]

end Authorizations

/-! ## Scans -/

namespace ScanSpec

theorem fits_toJson (spec : ScanSpec) : Fits 5 spec.toJson := by
  refine fits_ofMembers ?_
  simp only [List.forall_mem_cons]
  refine ⟨fits_map fits_ofString _, fits_getD fits_ofString _, fits_toNat _, fits_bool _,
    fits_map PredicateSpec.fits_toJson _, fits_getD ?_ _, nofun⟩
  exact fun i => ⟨i.fits_toJson.1, i.fits_toJson.2.trans (by decide)⟩

/-- Of a scan as JSON all is read back, tokens that are no texts apart. -/
theorem ofJson?_toJson (spec : ScanSpec) : ofJson? spec.toJson =
    some { spec with authorizations := .ofTexts spec.authorizations.texts } := by
  have htokens := list?_map asText?_ofString spec.authorizations.texts
  have hlabel := nullable?_getD asText?_ofString nofun spec.defaultVisibility
  -- two levels are open around a predicate: the scan and the list; one around an intersection
  have hfilters := list?_map
    (fun p => PredicateSpec.ofJson?_toJson p (by decide : 2 + 3 ≤ depthLimit)) spec.filters
  have hintersection := nullable?_getD
    (fun i => IntersectionSpec.ofJson?_toJson i (by decide : 1 + 2 ≤ depthLimit))
    IntersectionSpec.toJson_ne_null spec.intersection
  rw [ofJson?, toJson, fields?_ofMembers (by rfl) (by decide)]
  simp only [Option.bind_eq_bind, Option.bind_some]
  rw [Fields.value?_eq_some (by rfl) htokens,
    Option.bind_some, Fields.value?_eq_some (by rfl) hlabel,
    Option.bind_some, Fields.value?_eq_some (by rfl) (size?_toNat _),
    Option.bind_some, Fields.value?_eq_some (by rfl) (flag?_bool _),
    Option.bind_some, Fields.value?_eq_some (by rfl) hfilters,
    Option.bind_some, Fields.value?_eq_some (by rfl) hintersection]
  rfl

/-- A scan's own text is read as the scan, but for tokens that are no texts. -/
theorem ofText_toText (spec : ScanSpec) : ofText spec.toText =
    .ok { spec with authorizations := .ofTexts spec.authorizations.texts } := by
  rw [ofText, toText, parse?_pretty spec.fits_toJson.1, Option.bind_some, ofJson?_toJson]

/-- What a scan is read from names its tokens by texts. -/
theorem isSome_of_ofText {text : String} {spec : ScanSpec} (h : ofText text = .ok spec) :
    ∀ t ∈ spec.authorizations.tokens, t.toString?.isSome = true := by
  rw [ofText] at h
  split at h
  · next hread =>
      cases h
      obtain ⟨v, -, hv⟩ := Option.bind_eq_some_iff.mp hread
      simp only [ofJson?, Option.bind_eq_bind, Option.bind_eq_some_iff] at hv
      obtain ⟨_, -, texts, -, _, -, _, -, _, -, _, -, _, -, hspec⟩ := hv
      cases hspec
      -- whatever else was read, the set is collected from texts
      exact fun t => Authorizations.isSome_of_mem_ofTexts
  · cases h

/-- A scan is read back from its own text exactly if its tokens are well formed UTF-8, and
that is so exactly if it is what some text is read as. -/
theorem ofText_toText_iff (spec : ScanSpec) :
    (ofText spec.toText = .ok spec ↔
      ∀ t ∈ spec.authorizations.tokens, t.toString?.isSome = true) ∧
    (ofText spec.toText = .ok spec ↔ ∃ text, ofText text = .ok spec) := by
  have hutf8 : ofText spec.toText = .ok spec ↔
      ∀ t ∈ spec.authorizations.tokens, t.toString?.isSome = true := by
    rw [ofText_toText, ← Authorizations.ofTexts_texts_iff]
    constructor
    · intro h
      exact congrArg authorizations (Except.ok.inj h)
    · intro h
      rw [h]
  refine ⟨hutf8, fun h => ⟨_, h⟩, ?_⟩
  rintro ⟨text, htext⟩
  exact hutf8.mpr (isSome_of_ofText htext)

end ScanSpec

end CellScan
