/-
`Building.lean` -- that an intersection is the same one however it is described.

There are three descriptions: a layout with terms and flags, options, and a setting. Each has its
own defaults and its own way to write things down. What options say is read off a list of named
texts of which the last one counts (`Options.get?_ofList`); the terms and the flags come back from
their own texts, the number of segments comes back from its decimal digits
(`Decimal.size?_toString`), and so options and setting lead to the one query for the terms
(`Query.ofOptions_eq`). Whether that query is refused depends on the flags alone
(`Query.ofTerms_of_refuses`, `Query.asks_of_not_refuses`). A query that is not refused still needs
copies of the source, and a source that cannot be copied fails it in its own words.
-/
import CellScan.Proofs.Encodings
import CellScan.Proofs.Intersection
import CellScan.Spec.Intersection
import Mathlib.Data.List.Induction

set_option autoImplicit false

namespace CellScan

open CellScan.Text

/-! ## Options -/

namespace Options

theorem get?_eq (o : Options) (name : String) :
    o.get? name = (o.entries.find? (·.1 = name)).map Prod.snd := by
  rw [get?]
  induction o.entries with
  | nil => rfl
  | cons entry entries ih =>
      rw [List.lookup_cons, List.find?_cons, ih]
      by_cases hname : entry.1 = name
      · simp [hname]
      · have hne : (name == entry.1) = false := beq_false_of_ne (Ne.symm hname)
        simp [hname, hne]

/-- Of several texts for a name the last one is found. -/
theorem get?_ofList (entries : List (String × String)) (name : String) :
    (ofList entries).get? name = entries.reverse.lookup name := by
  induction entries using List.reverseRecOn with
  | nil => rfl
  | append_singleton entries entry ih =>
      rw [get?_eq] at ih
      rw [get?_eq, ofList, SortedList.insertAllBy, List.foldl_append, List.foldl_cons,
        List.foldl_nil, SortedList.find?_insertBy, List.reverse_append, List.reverse_singleton,
        List.singleton_append, List.lookup_cons]
      by_cases hname : entry.1 = name
      · simp [hname]
      · have hne : (name == entry.1) = false := beq_false_of_ne (Ne.symm hname)
        rw [if_neg hname, ← ih, hne]
        rfl

/-- What is said last is found, whatever was said before. -/
theorem get?_ofList_append {others given : List (String × String)} {name text : String}
    (h : given.reverse.lookup name = some text) :
    (ofList (others ++ given)).get? name = some text := by
  rw [get?_ofList, List.reverse_append, List.lookup_append, h, Option.some_or]

end Options

/-! ## Decimal digits -/

namespace Text.Decimal

theorem digit?_of_isDigit {c : Char} (h : c.isDigit = true) :
    digit? c = some (c.toNat - '0'.toNat) := by
  rw [Char.isDigit, Bool.and_eq_true, decide_eq_true_iff, decide_eq_true_iff] at h
  exact if_pos h

/-- Digits are read as the number that they spell. -/
theorem continue?_eq {ds : List Char} (h : ∀ d ∈ ds, d.isDigit = true) (start : Nat) :
    continue? start ds = some (Nat.ofDigitChars 10 ds start) := by
  induction ds generalizing start with
  | nil => rfl
  | cons d ds ih =>
      obtain ⟨hd, hds⟩ := List.forall_mem_cons.mp h
      simp only [continue?, digit?_of_isDigit hd, Nat.ofDigitChars_cons]
      exact ih hds _

/-- A number below `2 ^ 64` is read back from its decimal digits. -/
theorem size?_toString {n : Nat} (h : n < UInt64.size) : size? (toString n) = some n := by
  have hdigits : ∀ d ∈ Nat.toDigits 10 n, d.isDigit = true :=
    fun _ hd => Nat.isDigit_of_mem_toDigits (by decide) (by decide) hd
  have hlist : (toString n).toList = Nat.toDigits 10 n := Nat.toList_repr
  have hread : (number? (Nat.toDigits 10 n)).filter (· < UInt64.size) = some n := by
    rw [number?, List.isEmpty_eq_false_iff.mpr Nat.toDigits_ne_nil, if_neg Bool.false_ne_true,
      continue?_eq hdigits, Nat.ofDigitChars_ten_toDigits]
    simp [h]
  rw [size?, hlist]
  split
  · next heq =>
      -- no digit is a plus sign
      rw [heq] at hdigits
      exact absurd (hdigits '+' List.mem_cons_self) (by decide)
  · exact hread

end Text.Decimal

/-! ## Queries -/

namespace Query

variable {terms : List Bytes} {flags : List Bool} {layout : Layout}

/-- The flags do not go with the terms: there are some, but not one for each term, or every term
is ruled out. -/
def Refuses (terms : List Bytes) (flags : List Bool) : Prop :=
  (flags ≠ [] ∧ flags.length ≠ terms.length)
    ∨ (flags.length = terms.length ∧ ∀ f ∈ flags, f = true)

instance (terms : List Bytes) (flags : List Bool) : Decidable (Refuses terms flags) :=
  inferInstanceAs (Decidable (_ ∨ _))

/-- Each term has the flag at its place. -/
theorem negated_withFlags (hflags : flags ≠ []) (hlength : flags.length = terms.length) :
    (withFlags terms flags).map Term.negated = flags := by
  rw [withFlags, if_neg (by rwa [List.isEmpty_iff])]
  clear hflags
  induction terms generalizing flags with
  | nil => rw [List.length_eq_zero_iff.mp hlength, List.zipWith_nil_left, List.map_nil]
  | cons term terms ih =>
      obtain ⟨f, fs, rfl⟩ := List.exists_cons_of_length_eq_add_one hlength
      rw [List.zipWith_cons_cons, List.map_cons, ih (Nat.succ.inj hlength)]

/-- Unless the flags are refused, some term is asked for. -/
theorem asks_of_not_refuses (hterms : terms ≠ []) (h : ¬ Refuses terms flags) :
    (flags = [] ∨ flags.length = terms.length)
      ∧ ∃ t ∈ withFlags terms flags, t.negated = false := by
  obtain ⟨hcount, hall⟩ := not_or.mp h
  rcases flags with _ | ⟨f, fs⟩
  · obtain ⟨term, ts, rfl⟩ := List.exists_cons_of_ne_nil hterms
    exact ⟨Or.inl rfl, ⟨term, false⟩, List.mem_cons_self, rfl⟩
  · have hlength : (f :: fs).length = terms.length :=
      of_not_not fun hne => hcount ⟨List.cons_ne_nil f fs, hne⟩
    -- the flags are one for each term, so it is one of the flags that is not set
    obtain ⟨g, hg⟩ := not_forall.mp fun hforall => hall ⟨hlength, hforall⟩
    obtain ⟨hg, hset⟩ := Classical.not_imp.mp hg
    obtain rfl : g = false := Bool.eq_false_of_not_eq_true hset
    rw [← negated_withFlags (List.cons_ne_nil f fs) hlength] at hg
    obtain ⟨t, ht, hnegated⟩ := List.mem_map.mp hg
    exact ⟨Or.inr hlength, t, ht, hnegated⟩

/-- Flags that are refused fail the query, for the configuration is at fault. -/
theorem ofTerms_of_refuses (hterms : terms ≠ []) (h : Refuses terms flags) (layout : Layout) :
    ∃ fault, ofTerms layout terms flags = .error fault ∧ fault.code = .failure .configuration := by
  rw [ofTerms, if_neg (by rwa [List.isEmpty_iff])]
  rcases h with ⟨hflags, hcount⟩ | ⟨hlength, hall⟩
  · have hrefused : (!flags.isEmpty && flags.length != terms.length) = true := by
      simp [hflags, hcount]
    rw [if_pos hrefused]
    exact ⟨_, rfl, rfl⟩
  · have hflags : flags ≠ [] := by
      rintro rfl
      exact hterms (List.length_eq_zero_iff.mp hlength.symm)
    have hnone : ¬ ∃ t ∈ withFlags terms flags, t.negated = false := by
      rintro ⟨t, ht, hnegated⟩
      have hflag := hall t.negated (negated_withFlags hflags hlength ▸ List.mem_map_of_mem ht)
      rw [hnegated] at hflag
      exact Bool.noConfusion hflag
    rw [hlength, bne_self_eq_false, Bool.and_false, if_neg Bool.false_ne_true, dif_neg hnone]
    exact ⟨_, rfl, rfl⟩

/-- Options that list the terms and the flags as they are written lead to the query for them in
the layout that the options describe. -/
theorem ofOptions_eq {kind : Layout.Kind} {o : Options} (hterms : terms ≠ [])
    (ht : o.get? termsOption = some (TermList.encode terms))
    (hf : o.get? flagsOption = some (TermList.encodeFlags flags))
    (hl : Layout.ofOptions kind o = .ok layout) :
    ofOptions kind o = ofTerms layout terms flags := by
  have hdecoded : TermList.decode (TermList.encode terms) = .ok terms :=
    TermList.decode_eq_ok_iff.mpr ⟨hterms, rfl⟩
  have hflags : flagsOf o = .ok flags := by
    rw [flagsOf, hf]
    exact TermList.decodeFlags_eq_ok_iff.mpr rfl
  rw [ofOptions, Options.required, ht, hflags, hl]
  show (TermList.decode (TermList.encode terms)).bind _ = _
  rw [hdecoded]
  rfl

end Query

/-! ## Sources that cannot be copied -/

/-- Where the source cannot be copied no intersection is built over it. -/
theorem Intersection.ofQuery_of_copy_error {σ : Type} [Cursor σ] {source : σ} {env : Environment}
    {fault : Fault} (h : Cursor.copy env source = .error fault) (q : Query) :
    ofQuery source q env = .error fault := by
  -- some term is asked for, and its probe is the first thing to need a copy
  obtain ⟨term, terms, hterms⟩ := List.exists_cons_of_length_pos (positives_ne_nil q)
  have hprobes : probesFor env source q.positives = .error fault := by
    rw [probesFor, hterms, List.mapM_cons, h]
    rfl
  rw [ofQuery, hprobes]
  rfl

/-! ## Settings -/

namespace IntersectionSpec

/-- The kind of layout. -/
def kind : IntersectionSpec → Layout.Kind
  | .termFamily _ _ _ => .termFamily
  | .indexFamily _ _ _ _ _ => .indexFamily

/-- The number of segments of an identity, where that is part of the layout. -/
def segments? : IntersectionSpec → Option UInt64
  | .termFamily _ _ _ => none
  | .indexFamily _ _ _ _ segments => some segments

/-- The layout, made directly. -/
def arrangement : IntersectionSpec → Layout
  | .termFamily _ _ documents => .termFamily (Bytes.ofString documents)
  | .indexFamily _ _ index documents segments =>
      Layout.ofSegments (Bytes.ofString index) (Bytes.ofString documents) segments.toNat

/-- The options that say the same as a setting, after some others. -/
def options (others : List (String × String)) : IntersectionSpec → Options
  | .termFamily terms negated documents =>
      Options.ofList (others ++
        [(Query.termsOption, TermList.encode (terms.map Bytes.ofString)),
          (Query.flagsOption, TermList.encodeFlags negated),
          (Layout.documentsOption, documents)])
  | .indexFamily terms negated index documents segments =>
      Options.ofList (others ++
        [(Query.termsOption, TermList.encode (terms.map Bytes.ofString)),
          (Query.flagsOption, TermList.encodeFlags negated),
          (Layout.indexOption, index), (Layout.documentsOption, documents),
          (Layout.segmentsOption, toString segments.toNat)])

theorem layout_eq {i : IntersectionSpec} (h : i.segments? ≠ some 0) :
    i.layout = .ok i.arrangement := by
  cases i with
  | termFamily terms negated documents => rfl
  | indexFamily terms negated index documents segments =>
      have hsegments : segments ≠ 0 := fun hzero => h (congrArg some hzero)
      rw [layout, if_neg hsegments, arrangement]

/-- The terms and the flags are found in the options. -/
theorem get?_options (others : List (String × String)) (i : IntersectionSpec) :
    (i.options others).get? Query.termsOption = some (TermList.encode i.terms)
      ∧ (i.options others).get? Query.flagsOption = some (TermList.encodeFlags i.negated) := by
  cases i with
  | termFamily terms negated documents =>
      exact ⟨Options.get?_ofList_append rfl, Options.get?_ofList_append rfl⟩
  | indexFamily terms negated index documents segments =>
      exact ⟨Options.get?_ofList_append rfl, Options.get?_ofList_append rfl⟩

/-- The layout is the one that the options describe. -/
theorem layout_ofOptions {i : IntersectionSpec} (h : i.segments? ≠ some 0)
    (others : List (String × String)) :
    Layout.ofOptions i.kind (i.options others) = .ok i.arrangement := by
  cases i with
  | termFamily terms negated documents =>
      have hdocuments : (options others (.termFamily terms negated documents)).get?
          Layout.documentsOption = some documents := Options.get?_ofList_append rfl
      rw [kind, Layout.ofOptions, Layout.familyOption, hdocuments]
      rfl
  | indexFamily terms negated index documents segments =>
      have hindex : (options others (.indexFamily terms negated index documents segments)).get?
          Layout.indexOption = some index := Options.get?_ofList_append rfl
      have hdocuments : (options others (.indexFamily terms negated index documents segments)).get?
          Layout.documentsOption = some documents := Options.get?_ofList_append rfl
      have hdigits : (options others (.indexFamily terms negated index documents segments)).get?
          Layout.segmentsOption = some (toString segments.toNat) := Options.get?_ofList_append rfl
      have hpositive : 0 < segments.toNat := by
        refine Nat.pos_of_ne_zero fun hzero => h (congrArg some ?_)
        exact UInt64.toNat_inj.mp hzero
      have hcount : Layout.segmentCount (options others
          (.indexFamily terms negated index documents segments))
          = .ok ⟨segments.toNat, hpositive⟩ := by
        simp only [Layout.segmentCount, hdigits, Decimal.size?_toString segments.toNat_lt,
          dif_pos hpositive]
      -- a number of segments that is positive is used as it is
      have hmax : max segments.toNat 1 = segments.toNat := Nat.max_eq_left hpositive
      simp only [kind, Layout.ofOptions, hcount, Layout.familyOption, hindex, hdocuments,
        arrangement, Layout.ofSegments, hmax, Except.map, Option.getD_some]

variable {σ : Type} [Cursor σ]

/-- However an intersection is described -- by a layout with terms and flags, by options that may
say other things before, or by a setting -- it is the same one, or it fails in the same way. It
fails for its configuration if there are flags, but not one for each term, or if every term is ruled
out. Otherwise it fails only if the source cannot be copied, and then in the words of the source. -/
theorem builds_agree (i : IntersectionSpec) (hterms : i.terms ≠ [])
    (hsegments : i.segments? ≠ some 0) (others : List (String × String)) (source : σ) (env : Environment) :
    let built := Intersection.ofTerms source i.arrangement i.terms i.negated env
    (Intersection.ofOptions source i.kind (i.options others) env).1 = built
      ∧ i.build source env = built
      ∧ (Query.Refuses i.terms i.negated →
        ∃ fault, built = .error fault ∧ fault.code = .failure .configuration)
      ∧ (¬ Query.Refuses i.terms i.negated →
        (∀ fault, Cursor.copy env source = .error fault → built = .error fault)
          ∧ ∀ copied, Cursor.copy env source = .ok copied → ∃ x, built = .ok x) := by
  intro built
  obtain ⟨hencoded, hflags⟩ := get?_options others i
  have hbuilt : built = (Query.ofTerms i.arrangement i.terms i.negated).bind
      fun q => Intersection.ofQuery source q env := rfl
  refine ⟨?_, ?_, ?_, ?_⟩
  · rw [hbuilt, ← Query.ofOptions_eq hterms hencoded hflags (layout_ofOptions hsegments others)]
    rfl
  · rw [build, layout_eq hsegments]
    rfl
  · intro hrefused
    obtain ⟨fault, hfault, hcode⟩ := Query.ofTerms_of_refuses hterms hrefused i.arrangement
    rw [hbuilt, hfault]
    exact ⟨fault, rfl, hcode⟩
  · intro hfit
    obtain ⟨hcount, hasks⟩ := Query.asks_of_not_refuses hterms hfit
    rw [hbuilt, Query.ofTerms_ok i.arrangement hterms hcount hasks]
    refine ⟨fun fault hcopy => Intersection.ofQuery_of_copy_error hcopy _, fun copied hcopy => ?_⟩
    exact ⟨_, Intersection.ofQuery_of_copy hcopy _⟩

/-! ### A posting, and a tape that cannot be copied -/

/-- Documents with the term `cat`, and with the flags given for it and for `dog`. -/
def cats (negated : List Bool) : IntersectionSpec := .indexFamily ["cat", "dog"] negated "i" "e" 2

/-- A table with one posting, of the term `cat` for a document with two segments. -/
def shelter : Table :=
  Table.ofEntries [(Key.ofColumn [1] [105] ([99, 97, 116] ++ 0 :: [7] ++ 0 :: [8]), [])]

/-- The environment of nobody in particular. -/
def anyone : Environment := Environment.ofAccount 0

/-- Asked for cats that are no dogs, all three ways come to one intersection, which finds the
document; asked for neither of them, all three are refused. -/
theorem builds_agree_shelter :
    (∃ x, Intersection.ofTerms shelter (Layout.ofSegments [105] [101] 2)
          [[99, 97, 116], [100, 111, 103]] [false, true] anyone = .ok x
        ∧ (Intersection.ofOptions shelter .indexFamily
            ((cats [false, true]).options [("docFamily", "f")]) anyone).1 = .ok x
        ∧ (cats [false, true]).build shelter anyone = .ok x
        ∧ (Scan.scan Range.all FamilyFilter.all x).result
          = .ok [(Key.ofColumn [1] ([101] ++ 0 :: [7]) [8], [])])
      ∧ ∃ fault, (Intersection.ofOptions shelter .indexFamily
            ((cats [true, true]).options []) anyone).1 = .error fault
        ∧ (cats [true, true]).build shelter anyone = .error fault
        ∧ fault.code = .failure .configuration := by
  obtain ⟨hoptions, hbuild, -, hfits⟩ := builds_agree (cats [false, true]) (by decide) (by decide)
    [("docFamily", "f")] shelter anyone
  obtain ⟨hoptions', hbuild', hrefuses, -⟩ := builds_agree (cats [true, true]) (by decide)
    (by decide) [] shelter anyone
  refine ⟨?_, ?_⟩
  · obtain ⟨x, hx⟩ := (hfits (by decide)).2 shelter rfl
    -- the scan is evaluated over whatever is built
    have hread : (Intersection.ofTerms shelter (cats [false, true]).arrangement
          (cats [false, true]).terms (cats [false, true]).negated anyone).map
          (fun x => (Scan.scan Range.all FamilyFilter.all x).result)
        = .ok (.ok [(Key.ofColumn [1] ([101] ++ 0 :: [7]) [8], [])]) := by decide +kernel
    rw [hx] at hread
    exact ⟨x, hx, hoptions.trans hx, hbuild.trans hx, Except.ok.inj hread⟩
  · obtain ⟨fault, hfault, hcode⟩ := hrefuses (by decide)
    exact ⟨fault, hoptions'.trans hfault, hbuild'.trans hfault, hcode⟩

/-- A tape without entries that cannot be copied. -/
def sealed : Tape := Tape.ofEntries [] none false

/-- Documents with the term `cat`, and no flags. -/
def cat : IntersectionSpec := .termFamily ["cat"] [] "e"

/-- Over a source that cannot be copied an intersection neither fails for its configuration nor
succeeds, though there is nothing wrong with its flags. -/
theorem neither_over_sealed :
    ¬ Query.Refuses cat.terms cat.negated
      ∧ ¬ ((∃ fault, Intersection.ofTerms sealed cat.arrangement cat.terms cat.negated anyone
              = .error fault
            ∧ (Intersection.ofOptions sealed cat.kind (cat.options []) anyone).1 = .error fault
            ∧ cat.build sealed anyone = .error fault ∧ fault.code = .failure .configuration)
          ∨ ∃ x y z,
            Intersection.ofTerms sealed cat.arrangement cat.terms cat.negated anyone = .ok x
            ∧ (Intersection.ofOptions sealed cat.kind (cat.options []) anyone).1 = .ok y
            ∧ cat.build sealed anyone = .ok z) := by
  have hbuild : cat.build sealed anyone = .error Tape.notCopyable := rfl
  refine ⟨by decide, ?_⟩
  rintro (⟨fault, -, -, hfault, hcode⟩ | ⟨-, -, z, -, -, hz⟩)
  · rw [hbuild] at hfault
    obtain rfl := Except.error.inj hfault
    exact absurd hcode (by decide)
  · rw [hbuild] at hz
    exact Except.noConfusion rfl rfl (heq_of_eq hz)

end IntersectionSpec

end CellScan
