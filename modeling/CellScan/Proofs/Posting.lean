/-
`Posting.lean` -- where postings lie in key order.

The search for documents rests on four facts about a layout. Postings of one term and
row are ordered as their documents are (`Layout.id_le`); none lies before the key that
is sought for its document (`Layout.postingKey_le`), with the one exception of a
deletion marker in front of a whole column; the key after a document lies after its
postings and before those of later documents (`Layout.lt_postingKeyAfter`,
`Layout.postingKeyAfter_le`); and behind a cell that is no posting, at or after where
postings may begin, the row has none (`Layout.postingDoc?_eq_none`). The first three together
say that the keys of postings are ordered as the identities are that they are for
(`Layout.keys_ordered_as_identities`).

In an index family an identity is the beginning of what follows the term, up to a
number of segments. What that costs is in the first section: `Bytes.segments` keeps the
order, and an identity either is all there was or has as many segments as it may have.
-/
import CellScan.Proofs.Following

set_option autoImplicit false

namespace CellScan

open scoped Linear

/-! ## Segments -/

namespace Bytes

@[simp] theorem segments_zero (b : Bytes) : segments 0 b = [] := by
  rw [segments]

@[simp] theorem segments_nil (n : Nat) : segments n [] = [] := by
  cases n
  · rw [segments]
  · rw [segments]
    exact Nat.succ_ne_zero _

theorem segments_succ_cons (n : Nat) (x : UInt8) (b : Bytes) :
    segments (n + 1) (x :: b)
      = if x = 0 then (if n = 0 then [] else x :: segments n b) else x :: segments (n + 1) b := by
  rw [segments]

/-- Either all of the byte string is taken, or the segments asked for end at a zero byte. -/
theorem segments_spec {n : Nat} (hn : 0 < n) (b : Bytes) :
    segments n b = b ∨ ((segments n b).count 0 + 1 = n ∧ ∃ r, b = segments n b ++ 0 :: r) := by
  induction b generalizing n with
  | nil => exact Or.inl (segments_nil n)
  | cons x b ih =>
      obtain ⟨n, rfl⟩ : ∃ k, n = k + 1 := ⟨n - 1, by omega⟩
      rw [segments_succ_cons]
      by_cases hx : x = 0
      · rw [if_pos hx]
        -- a zero byte ends a segment: the last one, or one of those asked for
        by_cases hz : n = 0
        · rw [if_pos hz]
          exact Or.inr ⟨by rw [hz]; rfl, b, by rw [hx]; rfl⟩
        · rw [if_neg hz]
          rcases ih (Nat.pos_of_ne_zero hz) with hall | ⟨hcount, r, hr⟩
          · exact Or.inl (by rw [hall])
          · refine Or.inr ⟨?_, r, ?_⟩
            · rw [hx, List.count_cons_self]
              omega
            · rw [List.cons_append, ← hr]
      · rw [if_neg hx]
        rcases ih hn with hall | ⟨hcount, r, hr⟩
        · exact Or.inl (by rw [hall])
        · refine Or.inr ⟨?_, r, ?_⟩
          · rw [List.count_cons_of_ne hx]
            exact hcount
          · rw [List.cons_append, ← hr]

/-- No more segments are taken than asked for. -/
theorem count_segments_lt {n : Nat} (hn : 0 < n) (b : Bytes) : (segments n b).count 0 < n := by
  induction b generalizing n with
  | nil =>
      rw [segments_nil]
      exact hn
  | cons x b ih =>
      obtain ⟨n, rfl⟩ : ∃ k, n = k + 1 := ⟨n - 1, by omega⟩
      rw [segments_succ_cons]
      by_cases hx : x = 0
      · rw [if_pos hx]
        by_cases hz : n = 0
        · rw [if_pos hz]
          exact Nat.succ_pos n
        · rw [if_neg hz, hx, List.count_cons_self]
          exact Nat.succ_lt_succ (ih (Nat.pos_of_ne_zero hz))
      · rw [if_neg hx, List.count_cons_of_ne hx]
        exact ih hn

/-- What is taken is a beginning. -/
theorem segments_le (n : Nat) (b : Bytes) : segments n b ≤ b := by
  by_cases hn : n = 0
  · rw [hn, segments_zero]
    exact List.nil_le b
  · rcases segments_spec (Nat.pos_of_ne_zero hn) b with hall | ⟨-, r, hr⟩
    · exact le_of_eq hall
    · calc segments n b ≤ segments n b ++ 0 :: r := le_append _ _
        _ = b := hr.symm

theorem segments_mono (n : Nat) {a b : Bytes} (h : a ≤ b) : segments n a ≤ segments n b := by
  induction a generalizing n b with
  | nil =>
      rw [segments_nil]
      exact List.nil_le _
  | cons x a ih =>
      rcases n with _ | n
      · rw [segments_zero, segments_zero]
      · rcases b with _ | ⟨y, b⟩
        · exact absurd h (not_le.mpr (List.nil_lt_cons x a))
        · rw [segments_succ_cons, segments_succ_cons]
          rcases List.cons_le_cons_iff.mp h with hxy | ⟨rfl, hab⟩
          · -- the first bytes decide, and the later one is no zero byte
            have hy : ¬ y = 0 := by
              rintro rfl
              exact UInt8.not_lt_zero hxy
            rw [if_neg hy]
            by_cases hx : x = 0
            · rw [if_pos hx]
              split
              · exact List.nil_le _
              · exact List.cons_le_cons_iff.mpr (Or.inl hxy)
            · rw [if_neg hx]
              exact List.cons_le_cons_iff.mpr (Or.inl hxy)
          · by_cases hx : x = 0
            · rw [if_pos hx, if_pos hx]
              split
              · exact le_refl _
              · exact List.cons_le_cons_iff.mpr (Or.inr ⟨rfl, ih n hab⟩)
            · rw [if_neg hx, if_neg hx]
              exact List.cons_le_cons_iff.mpr (Or.inr ⟨rfl, ih (n + 1) hab⟩)

end Bytes

/-! ## Postings -/

namespace Layout

/-- The identity that stands behind a term in the qualifier of a posting. -/
def identity (l : Layout) (rest : Bytes) : Bytes :=
  match l with
  | .termFamily _ => rest
  | .indexFamily _ _ segments _ => Bytes.segments segments rest

theorem identity_le (l : Layout) (rest : Bytes) : l.identity rest ≤ rest := by
  cases l with
  | termFamily documents => exact le_refl rest
  | indexFamily index documents n hn => exact Bytes.segments_le n rest

theorem identity_mono (l : Layout) {a b : Bytes} (h : a ≤ b) : l.identity a ≤ l.identity b := by
  cases l with
  | termFamily documents => exact h
  | indexFamily index documents n hn => exact Bytes.segments_mono n h

/-- Every qualifier of an identity lies before the end put behind it. -/
theorem lt_identityEnd (l : Layout) (rest : Bytes) :
    rest < l.identity rest ++ l.identityEnd (l.identity rest) := by
  cases l with
  | termFamily documents => exact Bytes.lt_append_cons rest 0 []
  | indexFamily index documents n hn =>
      rw [identity, identityEnd]
      rcases Bytes.segments_spec hn rest with hall | ⟨hcount, r, hr⟩
      · rw [hall]
        split
        · exact Bytes.lt_append_cons rest 1 []
        · exact Bytes.lt_append_cons rest 0 []
      · -- the identity ends at a zero byte, and the byte put there lies behind it
        rw [if_pos (le_of_eq hcount.symm)]
        calc rest = Bytes.segments n rest ++ 0 :: r := hr
          _ < Bytes.segments n rest ++ [1] :=
            Bytes.append_lt_append_iff.mpr (List.cons_lt_cons_iff.mpr (Or.inl (by decide)))

/-- The end put behind an identity lies before every qualifier of a later identity. -/
theorem identityEnd_le (l : Layout) {id rest : Bytes} (h : id < l.identity rest) :
    id ++ l.identityEnd id ≤ rest := by
  have hsucc : id ++ [0] ≤ rest := le_trans (Bytes.successor_le_iff.mpr h) (l.identity_le rest)
  cases l with
  | termFamily documents => exact hsucc
  | indexFamily index documents n hn =>
      rw [identityEnd]
      split
      · next hfull =>
          have hlt : id < Bytes.segments n rest := h
          refine le_trans ?_ (Bytes.segments_le n rest)
          rcases Bytes.beginning_or_before hlt with ⟨x, r, hr⟩ | hall
          · -- the identity is complete, so a later one cannot go on with another segment
            have hx : x ≠ 0 := by
              rintro rfl
              have hcount := Bytes.count_segments_lt hn rest
              rw [hr, List.count_append, List.count_cons_self] at hcount
              omega
            rw [hr]
            refine Bytes.append_le_append_iff.mpr ?_
            by_cases hone : x = 1
            · rw [hone]
              exact Bytes.le_append [1] r
            · refine le_of_lt (List.cons_lt_cons_iff.mpr (Or.inl ?_))
              have h0 : x.toNat ≠ 0 := fun h0 => hx (UInt8.toNat_inj.mp h0)
              have h1 : x.toNat ≠ 1 := fun h1 => hone (UInt8.toNat_inj.mp h1)
              rw [UInt8.lt_iff_toNat_lt]
              show 1 < x.toNat
              omega
          · have hend := hall [1] []
            rw [List.append_nil] at hend
            exact le_of_lt hend
      · exact hsucc

/-- Which cells are postings of a term, and for which identity. -/
theorem postingDoc?_eq_some_iff {l : Layout} {term id : Bytes} {k : Key} :
    l.postingDoc? term k = some id
      ↔ k.family = l.postingFamily term
        ∧ ∃ rest, k.qualifier = l.postingStart term ++ rest ∧ l.identity rest = id := by
  unfold postingDoc?
  by_cases hf : k.family = l.postingFamily term
  · rw [if_pos hf, and_iff_right hf]
    cases l with
    | termFamily documents => simp [postingStart, identity]
    | indexFamily index documents n hn =>
        simp only [Option.map_eq_some_iff, Bytes.after?_eq_some_iff, identity]
  · rw [if_neg hf]
    simp [hf]

variable {l : Layout} {term id id' : Bytes} {k k' : Key}

/-- Postings of one term and row are ordered as their documents are. -/
theorem id_le (hid : l.postingDoc? term k = some id) (hid' : l.postingDoc? term k' = some id')
    (hrow : k.row = k'.row) (h : k ≤ k') : id ≤ id' := by
  obtain ⟨hf, rest, hq, rfl⟩ := postingDoc?_eq_some_iff.mp hid
  obtain ⟨hf', rest', hq', rfl⟩ := postingDoc?_eq_some_iff.mp hid'
  -- both qualifiers begin with the term, so what follows it decides
  have hle := Key.qualifier_le_of_le h hrow (hf.trans hf'.symm)
  rw [hq, hq', Bytes.append_le_append_iff] at hle
  exact l.identity_mono hle

/-- The key sought for a target lies before the postings of the documents it admits. -/
theorem postingKey_le {t : Target} (hid : l.postingDoc? term k = some id)
    (hk : k.isForemost = false) (h : t.admits ⟨k.row, id⟩ = true) :
    l.postingKey t.row term t.id ≤ k := by
  obtain ⟨hf, rest, hq, rfl⟩ := postingDoc?_eq_some_iff.mp hid
  refine le_trans ?_ (Key.ofColumn_le hk)
  rw [postingKey]
  apply Key.ofColumn_le_ofColumn
  rcases Target.admits_iff.mp h with hrow | ⟨hrow, hadmits⟩
  · exact Or.inl hrow
  · refine Or.inr ⟨hrow, Or.inr ⟨hf.symm, ?_⟩⟩
    rw [hq, Bytes.append_le_append_iff]
    rcases hdoc : t.id with _ | doc
    · exact List.nil_le rest
    · exact le_trans (hadmits doc hdoc) (l.identity_le rest)

/-- A posting lies before the key after its document. -/
theorem lt_postingKeyAfter (hid : l.postingDoc? term k = some id) :
    k < l.postingKeyAfter k.row term id := by
  obtain ⟨hf, rest, hq, rfl⟩ := postingDoc?_eq_some_iff.mp hid
  refine Key.lt_of_qualifier_lt rfl hf ?_
  show k.qualifier < l.postingStart term ++ l.identity rest ++ l.identityEnd (l.identity rest)
  rw [hq, List.append_assoc, Bytes.append_lt_append_iff]
  exact l.lt_identityEnd rest

/-- The key after a document lies before the postings of later documents. -/
theorem postingKeyAfter_le {row doc : Bytes} (hid : l.postingDoc? term k = some id)
    (hk : k.isForemost = false) (h : row < k.row ∨ (row = k.row ∧ doc < id)) :
    l.postingKeyAfter row term doc ≤ k := by
  obtain ⟨hf, rest, hq, rfl⟩ := postingDoc?_eq_some_iff.mp hid
  refine le_trans ?_ (Key.ofColumn_le hk)
  rw [postingKeyAfter]
  apply Key.ofColumn_le_ofColumn
  rcases h with hrow | ⟨hrow, hdoc⟩
  · exact Or.inl hrow
  · refine Or.inr ⟨hrow, Or.inr ⟨hf.symm, ?_⟩⟩
    rw [hq, List.append_assoc, Bytes.append_le_append_iff]
    exact l.identityEnd_le hdoc

/-- A cell that is no posting, at or after where the row's postings may begin, has none of
them behind it. -/
theorem postingDoc?_eq_none (hnone : l.postingDoc? term k = none)
    (hk : l.postingKey k.row term none ≤ k) (hrow : k'.row = k.row) (h : k ≤ k') :
    l.postingDoc? term k' = none := by
  rw [Option.eq_none_iff_forall_ne_some]
  intro id hid
  obtain ⟨hf, rest, hq, -⟩ := postingDoc?_eq_some_iff.mp hid
  have hfam : l.postingFamily term ≤ k.family := Key.family_le_of_le hk rfl
  have hfam' : k.family ≤ l.postingFamily term := by
    rw [← hf]
    exact Key.family_le_of_le h hrow.symm
  have heq : k.family = l.postingFamily term := le_antisymm hfam' hfam
  have hstart : l.postingStart term ≤ k.qualifier := by
    have hle := Key.qualifier_le_of_le hk rfl heq.symm
    rwa [show (l.postingKey k.row term none).qualifier = l.postingStart term ++ [] from rfl,
      List.append_nil] at hle
  have hstop : k.qualifier ≤ l.postingStart term ++ rest := by
    rw [← hq]
    exact Key.qualifier_le_of_le h hrow.symm (heq.trans hf.symm)
  -- what lies between a beginning and an extension of it extends the beginning
  have hbegins : ∃ r, k.qualifier = l.postingStart term ++ r := by
    rcases lt_or_eq_of_le hstart with hlt | hsame
    · rcases Bytes.beginning_or_before hlt with ⟨x, r, hr⟩ | hall
      · exact ⟨x :: r, hr⟩
      · have hafter := hall rest []
        rw [List.append_nil] at hafter
        exact absurd hafter (not_lt.mpr hstop)
    · exact ⟨[], by rw [← hsame, List.append_nil]⟩
  obtain ⟨r, hr⟩ := hbegins
  have hposting := postingDoc?_eq_some_iff.mpr ⟨heq, r, hr, rfl⟩
  rw [hnone] at hposting
  exact absurd hposting (Option.some_ne_none _).symm

/-! ## Keys and identities -/

/-- The keys of a term's postings in a row are ordered as the identities that they are for. A
live posting lies at or after the key where the term's postings begin, after that of every
identity up to its own, and at or after the key behind every identity before its own; and
every posting lies before the key behind its identity. -/
theorem keys_ordered_as_identities (l : Layout) (row term : Bytes) :
    (∀ a b x y, a.row = row → b.row = row → l.postingDoc? term a = some x →
        l.postingDoc? term b = some y → a ≤ b → x ≤ y)
      ∧ (∀ c x, c.row = row → c.deleted = false → l.postingDoc? term c = some x →
          l.postingKey row term none ≤ c ∧ (∀ t ≤ x, l.postingKey row term (some t) ≤ c)
            ∧ ∀ t < x, l.postingKeyAfter row term t ≤ c)
      ∧ ∀ c x, c.row = row → l.postingDoc? term c = some x →
          c < l.postingKeyAfter row term x := by
  refine ⟨?_, ?_, ?_⟩
  · intro a b x y ha hb hx hy h
    exact id_le hx hy (ha.trans hb.symm) h
  · rintro c x rfl hlive hx
    have hforemost : c.isForemost = false := by
      rw [Key.isForemost, hlive]
      rfl
    refine ⟨?_, ?_, ?_⟩
    · apply postingKey_le (t := ⟨c.row, none⟩) hx hforemost
      exact Target.admits_iff.mpr (Or.inr ⟨rfl, fun id hid => absurd hid (by simp)⟩)
    · intro t ht
      apply postingKey_le (t := ⟨c.row, some t⟩) hx hforemost
      refine Target.admits_iff.mpr (Or.inr ⟨rfl, ?_⟩)
      rintro id ⟨⟩
      exact ht
    · intro t ht
      exact postingKeyAfter_le hx hforemost (Or.inr ⟨rfl, ht⟩)
  · rintro c x rfl hx
    exact lt_postingKeyAfter hx

/-- An index family with identities of two segments. -/
def pairs : Layout := .indexFamily [105] [101] 2 (by decide)

/-- A key of the index family of `pairs`, with the term `[67]`. -/
def ofPair (rest : Bytes) (deleted : Bool) : Key := ⟨[1], [105], [67, 0] ++ rest, [], 4, deleted⟩

/-- An identity that is cut short ends before the identities that it begins, and a complete one
behind all that follows it in its postings. -/
theorem keys_ordered_as_identities_pairs :
    ofPair [7] true < pairs.postingKeyAfter [1] [67] [7]
      ∧ pairs.postingKeyAfter [1] [67] [7] ≤ ofPair [7, 0, 8, 0, 9] false
      ∧ ofPair [7, 0, 8, 0, 9] false < pairs.postingKeyAfter [1] [67] [7, 0, 8]
      ∧ pairs.postingKey [1] [67] (some [7, 0, 8]) ≤ ofPair [7, 0, 8, 0, 9] false
      ∧ ([7] : Bytes) ≤ [7, 0, 8] := by
  obtain ⟨hordered, hlive, hall⟩ := keys_ordered_as_identities pairs [1] [67]
  have hshort : pairs.postingDoc? [67] (ofPair [7] true) = some [7] := by decide
  have hlong : pairs.postingDoc? [67] (ofPair [7, 0, 8, 0, 9] false) = some [7, 0, 8] := by decide
  obtain ⟨-, hfrom, hbehind⟩ := hlive _ _ rfl rfl hlong
  refine ⟨hall _ _ rfl hshort, hbehind _ ?_, hall _ _ rfl hlong, hfrom _ (le_refl _),
    hordered _ _ _ _ rfl rfl hshort hlong ?_⟩ <;> decide

end Layout

end CellScan
