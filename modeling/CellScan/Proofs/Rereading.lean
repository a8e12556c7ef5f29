/-
`Rereading.lean` -- that a JSON value is read back from its text.

A value is *exact* if its text can hold all of it: its texts are spelled and its numbers
are whole and in range. Every form of value is read back from the front of its text,
whatever stands before it that is white space and after it that cannot go on with a
number (`value_reads`, by induction on the value, with one statement for the items of a
list and one for the members of a record). A whole text is then read as the value that
it was written for (`parse?_pretty`).
-/
import CellScan.Proofs.Spelling

set_option autoImplicit false

namespace CellScan.Json

/-! ## Exact values -/

mutual
/-- Whether the text of a value holds all of it: its texts are spelled, its numbers exact. -/
def isExact : Json → Bool
  | .null => true
  | .bool _ => true
  | .number n => n.isExact
  | .text s => s.isSome
  | .list items => allExact items
  | .record members => membersExact members

/-- Whether all of the values are exact. -/
def allExact : List Json → Bool
  | [] => true
  | v :: vs => v.isExact && allExact vs

/-- Whether all of the members are exact, names included. -/
def membersExact : List (Option String × Json) → Bool
  | [] => true
  | (name, v) :: ms => name.isSome && v.isExact && membersExact ms
end

mutual
/-- An exact value can be kept. -/
theorem isSound_of_isExact : ∀ (v : Json), v.isExact = true → v.isSound = true
  | .null, _ => rfl
  | .bool _, _ => rfl
  | .number (.whole _), _ => rfl
  | .number (.other _), h => by cases h
  | .text _, h => h
  | .list items, h => allSound_of_allExact items h
  | .record members, h => membersSound_of_membersExact members h

theorem allSound_of_allExact : ∀ (vs : List Json), allExact vs = true → allSound vs = true
  | [], _ => rfl
  | v :: vs, h => by
      simp only [allExact, Bool.and_eq_true] at h
      simp only [allSound, isSound_of_isExact v h.1, allSound_of_allExact vs h.2, Bool.and_self]

theorem membersSound_of_membersExact :
    ∀ (ms : List (Option String × Json)), membersExact ms = true → membersSound ms = true
  | [], _ => rfl
  | (name, v) :: ms, h => by
      simp only [membersExact, Bool.and_eq_true] at h
      simp only [membersSound, h.1.1, isSound_of_isExact v h.1.2,
        membersSound_of_membersExact ms h.2, Bool.and_self]
end

/-! ## Tokens -/

/-- White space is passed over. -/
theorem skipSpace_append {sp cs : List Char} (hsp : ∀ c ∈ sp, isSpace c = true) :
    skipSpace (sp ++ cs) = skipSpace cs :=
  List.dropWhile_append_of_pos hsp

theorem skipSpace_cons {c : Char} (cs : List Char) (hc : isSpace c = false) :
    skipSpace (c :: cs) = c :: cs := by
  simp [skipSpace, hc]

/-- A mark is found where it comes next. -/
theorem mark?_eq_some {mark : Char} {cs left : List Char} (h : skipSpace cs = mark :: left) :
    ∃ less, mark? mark cs = some ⟨left, less⟩ := by
  have less : left.length < cs.length := by
    have := length_skipSpace_le cs
    rw [h, List.length_cons] at this
    omega
  rw [mark?]
  split
  · next heq _ => cases h.symm.trans heq
  · next heq _ =>
      obtain ⟨rfl, rfl⟩ := List.cons.inj (h.symm.trans heq)
      rw [if_pos rfl]
      exact ⟨less, rfl⟩

/-- A mark is not found where another character comes next. -/
theorem mark?_eq_none {mark c : Char} {cs left : List Char} (h : skipSpace cs = c :: left)
    (hc : c ≠ mark) : mark? mark cs = none := by
  rw [mark?]
  split
  · rfl
  · next heq _ =>
      obtain ⟨rfl, rfl⟩ := List.cons.inj (h.symm.trans heq)
      rw [if_neg hc]

/-! ## Forms of values

One lemma for each way that the reader can go on from the next character. -/

/-- What is read is `a`, and `left` is left. -/
def Gives {α : Type} {cs : List Char} (r : Option (α × Fewer cs)) (a : α) (left : List Char) :
    Prop :=
  ∃ less, r = some (a, ⟨left, less⟩)

section forms

variable {cs body left : List Char}

theorem value?_text {s : Option String} (h : skipSpace cs = '"' :: body)
    (hs : Gives (text? body) s left) : Gives (value? cs) (.text s) left := by
  obtain ⟨less, hs⟩ := hs
  rw [value?.eq_def]
  split
  · next heq =>
      obtain ⟨-, rfl⟩ := List.cons.inj (h.symm.trans heq)
      rw [hs]
      exact ⟨_, rfl⟩
  · next heq => cases h.symm.trans heq
  · next heq => cases h.symm.trans heq
  · next hquote _ _ => exact absurd h (hquote body)

theorem value?_emptyList (h : skipSpace cs = '[' :: body)
    (hclose : skipSpace body = ']' :: left) : Gives (value? cs) (.list []) left := by
  obtain ⟨less, hmark⟩ := mark?_eq_some hclose
  rw [value?.eq_def]
  split
  · next heq => cases h.symm.trans heq
  · next heq =>
      obtain ⟨-, rfl⟩ := List.cons.inj (h.symm.trans heq)
      rw [hmark]
      exact ⟨_, rfl⟩
  · next heq => cases h.symm.trans heq
  · next hlist _ => exact absurd h (hlist body)

theorem value?_list {c : Char} {first : List Char} {vs : List Json} (h : skipSpace cs = '[' :: body)
    (hopen : skipSpace body = c :: first) (hc : c ≠ ']') (hvs : Gives (items? body) vs left) :
    Gives (value? cs) (.list vs) left := by
  have hmark := mark?_eq_none hopen hc
  obtain ⟨less, hvs⟩ := hvs
  rw [value?.eq_def]
  split
  · next heq => cases h.symm.trans heq
  · next heq =>
      obtain ⟨-, rfl⟩ := List.cons.inj (h.symm.trans heq)
      rw [hmark]
      dsimp only
      rw [hvs]
      exact ⟨_, rfl⟩
  · next heq => cases h.symm.trans heq
  · next hlist _ => exact absurd h (hlist body)

theorem value?_emptyRecord (h : skipSpace cs = '\x7b' :: body)
    (hclose : skipSpace body = '\x7d' :: left) : Gives (value? cs) (.record []) left := by
  obtain ⟨less, hmark⟩ := mark?_eq_some hclose
  rw [value?.eq_def]
  split
  · next heq => cases h.symm.trans heq
  · next heq => cases h.symm.trans heq
  · next heq =>
      obtain ⟨-, rfl⟩ := List.cons.inj (h.symm.trans heq)
      rw [hmark]
      exact ⟨_, rfl⟩
  · next hrecord => exact absurd h (hrecord body)

theorem value?_record {c : Char} {first : List Char} {ms : List (Option String × Json)}
    (h : skipSpace cs = '\x7b' :: body) (hopen : skipSpace body = c :: first) (hc : c ≠ '\x7d')
    (hms : Gives (members? body) ms left) : Gives (value? cs) (.record ms) left := by
  have hmark := mark?_eq_none hopen hc
  obtain ⟨less, hms⟩ := hms
  rw [value?.eq_def]
  split
  · next heq => cases h.symm.trans heq
  · next heq => cases h.symm.trans heq
  · next heq =>
      obtain ⟨-, rfl⟩ := List.cons.inj (h.symm.trans heq)
      rw [hmark]
      dsimp only
      rw [hms]
      exact ⟨_, rfl⟩
  · next hrecord => exact absurd h (hrecord body)

/-- A word or number begins with none of the characters that open another value. -/
theorem value?_scalar {c : Char} {v : Json} (h : skipSpace cs = c :: body)
    (hquote : c ≠ '"') (hlist : c ≠ '[') (hrecord : c ≠ '\x7b')
    (hv : scalar? (c :: body) = some (v, left)) (less : left.length < (c :: body).length) :
    Gives (value? cs) v left := by
  rw [value?.eq_def]
  split
  · next heq => exact absurd (List.cons.inj (h.symm.trans heq)).1 hquote
  · next heq => exact absurd (List.cons.inj (h.symm.trans heq)).1 hlist
  · next heq => exact absurd (List.cons.inj (h.symm.trans heq)).1 hrecord
  -- a word or number takes one character at least, which the reader asks for
  · have hread : fewer? (skipSpace cs) (scalar? (skipSpace cs)) = some (v, ⟨left, h ▸ less⟩) := by
      simp only [h, hv, fewer?, dif_pos less]
    rw [hread]
    exact ⟨_, rfl⟩

theorem items?_last {v : Json} (hv : Gives (value? cs) v body)
    (hclose : skipSpace body = ']' :: left) : Gives (items? cs) [v] left := by
  obtain ⟨less, hv⟩ := hv
  obtain ⟨lessClose, hmark⟩ := mark?_eq_some hclose
  rw [items?, hv]
  dsimp only
  rw [hmark]
  exact ⟨_, rfl⟩

theorem items?_cons {more : List Char} {v : Json} {vs : List Json} (hv : Gives (value? cs) v body)
    (hnext : skipSpace body = ',' :: more) (hvs : Gives (items? more) vs left) :
    Gives (items? cs) (v :: vs) left := by
  obtain ⟨less, hv⟩ := hv
  obtain ⟨lessNext, hcomma⟩ := mark?_eq_some hnext
  have hclose : mark? ']' body = none := mark?_eq_none hnext (by decide)
  obtain ⟨lessMore, hvs⟩ := hvs
  rw [items?, hv]
  dsimp only
  rw [hclose, hcomma]
  dsimp only
  rw [hvs]
  exact ⟨_, rfl⟩

/-- Whether a member stands at the front: the quote that opens its name, the name, a colon
and a value, with white space before each, up to `left`. -/
inductive MemberAt (cs : List Char) (name : Option String) (v : Json) (left : List Char) : Prop
  | intro {start afterName inner : List Char} (hquote : skipSpace cs = '"' :: start)
      (hname : Gives (text? start) name afterName) (hcolon : skipSpace afterName = ':' :: inner)
      (hv : Gives (value? inner) v left)

theorem members?_last {name : Option String} {v : Json} (hm : MemberAt cs name v body)
    (hclose : skipSpace body = '\x7d' :: left) : Gives (members? cs) [(name, v)] left := by
  obtain ⟨hquote, ⟨lessName, hname⟩, hcolon, ⟨less, hv⟩⟩ := hm
  obtain ⟨lessQuote, hquote⟩ := mark?_eq_some hquote
  obtain ⟨lessColon, hcolon⟩ := mark?_eq_some hcolon
  obtain ⟨lessClose, hclose⟩ := mark?_eq_some hclose
  rw [members?, hquote]
  dsimp only
  rw [hname]
  dsimp only
  rw [hcolon]
  dsimp only
  rw [hv]
  dsimp only
  rw [hclose]
  exact ⟨_, rfl⟩

theorem members?_cons {more : List Char} {name : Option String} {v : Json}
    {ms : List (Option String × Json)} (hm : MemberAt cs name v body)
    (hnext : skipSpace body = ',' :: more) (hms : Gives (members? more) ms left) :
    Gives (members? cs) ((name, v) :: ms) left := by
  have hclose : mark? '\x7d' body = none := mark?_eq_none hnext (by decide)
  obtain ⟨hquote, ⟨lessName, hname⟩, hcolon, ⟨less, hv⟩⟩ := hm
  obtain ⟨lessQuote, hquote⟩ := mark?_eq_some hquote
  obtain ⟨lessColon, hcolon⟩ := mark?_eq_some hcolon
  obtain ⟨lessNext, hcomma⟩ := mark?_eq_some hnext
  obtain ⟨lessMore, hms⟩ := hms
  rw [members?, hquote]
  dsimp only
  rw [hname]
  dsimp only
  rw [hcolon]
  dsimp only
  rw [hv]
  dsimp only
  rw [hclose, hcomma]
  dsimp only
  rw [hms]
  exact ⟨_, rfl⟩

end forms

/-! ## Layout -/

/-- The start of a line after the end of the one before it. -/
def newline (level : Nat) : List Char := '\n' :: (indent level).toList

/-- The lines of the parts of a block up to its closing bracket. -/
def lines (level : Nat) (closing : String) : List String → List Char
  | [] => closing.toList
  | [p] => newline (level + 1) ++ (p.toList ++ (newline level ++ closing.toList))
  | p :: q :: ps => newline (level + 1) ++ (p.toList ++ ',' :: lines level closing (q :: ps))

theorem lines_last (level : Nat) (closing p : String) (rest : List Char) :
    lines level closing [p] ++ rest =
      newline (level + 1) ++ (p.toList ++ (newline level ++ (closing.toList ++ rest))) := by
  simp [lines]

theorem lines_more (level : Nat) (closing p q : String) (ps : List String) (rest : List Char) :
    lines level closing (p :: q :: ps) ++ rest =
      newline (level + 1) ++ (p.toList ++ ',' :: (lines level closing (q :: ps) ++ rest)) := by
  simp [lines]

theorem isSpace_newline (level : Nat) : ∀ c ∈ newline level, isSpace c = true := by
  have spaces : ∀ n, ∀ c ∈ ("".pushn ' ' n).toList, c = ' ' := by
    intro n
    induction n with
    | zero =>
        intro c hc
        cases hc
    | succ n ih =>
        intro c hc
        rw [String.pushn_eq_repeat_push, Nat.repeat, ← String.pushn_eq_repeat_push,
          String.toList_push, List.mem_append, List.mem_singleton] at hc
        exact hc.elim (ih c) id
  intro c hc
  rcases List.mem_cons.mp hc with rfl | hc
  · rfl
  · rw [spaces (2 * level) c hc]
    rfl

/-- A block is its opening bracket and its lines. -/
theorem toList_block (level : Nat) (opening closing : String) (parts : List String) :
    (block level opening closing parts).toList = opening.toList ++ lines level closing parts := by
  rw [block]
  split
  · next hnil =>
      rw [List.isEmpty_iff.mp hnil, String.toList_append]
      rfl
  · next hne =>
      induction parts with
      | nil => exact absurd rfl hne
      | cons p ps ih =>
          cases ps with
          | nil => simp [lines, newline]
          | cons q ps =>
              -- the other parts end as they do in a block of their own
              have ih := ih (by simp)
              simp only [String.toList_append, List.map_cons, String.intercalate_cons_cons,
                List.append_assoc, List.append_cancel_left_eq] at ih ⊢
              rw [lines, ← ih]
              simp [newline]

/-! ## Reading back -/

/-- A digit or a minus sign opens nothing but a number. -/
theorem ne_of_digit {c : Char} (hc : c.isDigit = true ∨ c = '-') :
    isSpace c = false ∧ c ≠ ']' ∧ c ≠ '"' ∧ c ≠ '[' ∧ c ≠ '\x7b' := by
  rcases hc with hc | rfl
  · have hne : ∀ d : Char, d.isDigit = false → c ≠ d := by
      rintro d hd rfl
      rw [hc] at hd
      cases hd
    have hspace : isSpace c = false := by
      simp only [isSpace, Bool.or_eq_false_iff, beq_eq_false_iff_ne]
      exact ⟨⟨⟨hne _ rfl, hne _ rfl⟩, hne _ rfl⟩, hne _ rfl⟩
    exact ⟨hspace, hne _ rfl, hne _ rfl, hne _ rfl, hne _ rfl⟩
  · decide

/-- The text of an exact value begins with no white space, and with no closing bracket: a
list with something in it is told from an empty one. -/
theorem exists_start {v : Json} (hv : v.isExact = true) (level : Nat) :
    ∃ c cs, (v.prettyAt level).toList = c :: cs ∧ isSpace c = false ∧ c ≠ ']' := by
  cases v with
  | null =>
      have htext : prettyAt level .null = "null" := rfl
      exact ⟨'n', ['u', 'l', 'l'], by rw [htext]; rfl, rfl, by decide⟩
  | bool b =>
      cases b with
      | false =>
          have htext : prettyAt level (.bool false) = "false" := rfl
          exact ⟨'f', ['a', 'l', 's', 'e'], by rw [htext]; rfl, rfl, by decide⟩
      | true =>
          have htext : prettyAt level (.bool true) = "true" := rfl
          exact ⟨'t', ['r', 'u', 'e'], by rw [htext]; rfl, rfl, by decide⟩
  | number n =>
      cases n with
      | whole i =>
          obtain ⟨c, cs, htext, hc⟩ := exists_start_toString i
          exact ⟨c, cs, htext, (ne_of_digit hc).1, (ne_of_digit hc).2.1⟩
      | other finite => cases hv
  | text s => exact ⟨'"', _, toList_writeText (s.getD ""), rfl, by decide⟩
  | list items =>
      refine ⟨'[', lines level "]" (prettyItems (level + 1) items), ?_, rfl, by decide⟩
      rw [prettyAt, toList_block]
      rfl
  | record members =>
      refine ⟨'\x7b', lines level "\x7d" (prettyMembers (level + 1) members), ?_, rfl, by decide⟩
      rw [prettyAt, toList_block]
      rfl

theorem skipSpace_newline (level : Nat) {c : Char} (rest : List Char) (hc : isSpace c = false) :
    skipSpace (newline level ++ c :: rest) = c :: rest := by
  rw [skipSpace_append (isSpace_newline level), skipSpace_cons _ hc]

theorem stops_newline (level : Nat) (rest : List Char) : Stops (newline level ++ rest) :=
  stops_cons _ rfl (by decide) (by decide) (by decide)

theorem stops_comma (rest : List Char) : Stops (',' :: rest) :=
  stops_cons _ rfl (by decide) (by decide) (by decide)

section reads

variable {level : Nat} {sp rest : List Char}

/-- A word or number is read from its own text. -/
theorem scalar_reads {v : Json} (c : Char) (cs : List Char)
    (hsp : ∀ c ∈ sp, isSpace c = true) (hspace : isSpace c = false)
    (hquote : c ≠ '"') (hlist : c ≠ '[') (hrecord : c ≠ '\x7b')
    (hv : scalar? (c :: (cs ++ rest)) = some (v, rest)) :
    Gives (value? (sp ++ (c :: cs ++ rest))) v rest := by
  have hskip : skipSpace (sp ++ (c :: cs ++ rest)) = c :: (cs ++ rest) := by
    rw [skipSpace_append hsp, List.cons_append, skipSpace_cons _ hspace]
  refine value?_scalar hskip hquote hlist hrecord hv ?_
  simp only [List.length_cons, List.length_append]
  omega

theorem null_reads (hsp : ∀ c ∈ sp, isSpace c = true) :
    Gives (value? (sp ++ ((prettyAt level .null).toList ++ rest))) .null rest := by
  have htext : prettyAt level .null = "null" := rfl
  rw [htext]
  exact scalar_reads 'n' ['u', 'l', 'l'] hsp rfl (by decide) (by decide) (by decide) rfl

theorem bool_reads (b : Bool) (hsp : ∀ c ∈ sp, isSpace c = true) :
    Gives (value? (sp ++ ((prettyAt level (.bool b)).toList ++ rest))) (.bool b) rest := by
  cases b with
  | false =>
      have htext : prettyAt level (.bool false) = "false" := rfl
      rw [htext]
      exact scalar_reads 'f' ['a', 'l', 's', 'e'] hsp rfl (by decide) (by decide) (by decide) rfl
  | true =>
      have htext : prettyAt level (.bool true) = "true" := rfl
      rw [htext]
      exact scalar_reads 't' ['r', 'u', 'e'] hsp rfl (by decide) (by decide) (by decide) rfl

theorem whole_reads {i : Int} (hi : (Number.whole i).isExact = true)
    (hsp : ∀ c ∈ sp, isSpace c = true) (hrest : Stops rest) :
    Gives (value? (sp ++ ((prettyAt level (.number (.whole i))).toList ++ rest)))
      (.number (.whole i)) rest := by
  have hread := scalar?_toString hi hrest
  obtain ⟨c, cs, htext, hc⟩ := exists_start_toString i
  obtain ⟨hspace, -, hquote, hlist, hrecord⟩ := ne_of_digit hc
  have hpretty : (prettyAt level (.number (.whole i))).toList = c :: cs := htext
  rw [htext] at hread
  rw [hpretty]
  exact scalar_reads c cs hsp hspace hquote hlist hrecord hread

theorem text_reads (s : String) (hsp : ∀ c ∈ sp, isSpace c = true) :
    Gives (value? (sp ++ ((prettyAt level (.text (some s))).toList ++ rest))) (.text (some s))
      rest := by
  have htext : prettyAt level (.text (some s)) = writeText s := rfl
  refine value?_text ?_ (text?_writeText s rest)
  rw [skipSpace_append hsp, htext, toList_writeText, List.cons_append, skipSpace_cons _ rfl,
    List.append_assoc, List.singleton_append]

/-- The lines of a block go on, white space apart, with the text of its first part. -/
theorem skipSpace_lines (level : Nat) (closing : String) {c : Char} {cs : List Char} {p : String}
    (hp : p.toList = c :: cs) (hc : isSpace c = false) (ps : List String) (rest : List Char) :
    ∃ first, skipSpace (lines level closing (p :: ps) ++ rest) = c :: first := by
  cases ps with
  | nil =>
      rw [lines_last, skipSpace_append (isSpace_newline _), hp]
      exact ⟨_, skipSpace_cons _ hc⟩
  | cons q ps =>
      rw [lines_more, skipSpace_append (isSpace_newline _), hp]
      exact ⟨_, skipSpace_cons _ hc⟩

theorem emptyList_reads (hsp : ∀ c ∈ sp, isSpace c = true) :
    Gives (value? (sp ++ ((prettyAt level (.list [])).toList ++ rest))) (.list []) rest := by
  have hclose : skipSpace (']' :: rest) = ']' :: rest := skipSpace_cons _ rfl
  refine value?_emptyList ?_ hclose
  rw [skipSpace_append hsp, prettyAt, toList_block]
  exact skipSpace_cons _ rfl

theorem list_reads {v : Json} {vs : List Json} (hv : v.isExact = true)
    (hsp : ∀ c ∈ sp, isSpace c = true)
    (hvs : Gives (items? (lines level "]" (prettyItems (level + 1) (v :: vs)) ++ rest)) (v :: vs)
      rest) :
    Gives (value? (sp ++ ((prettyAt level (.list (v :: vs))).toList ++ rest))) (.list (v :: vs))
      rest := by
  obtain ⟨c, cs, htext, hspace, hclose⟩ := exists_start hv (level + 1)
  obtain ⟨first, hfirst⟩ := skipSpace_lines level "]" htext hspace (prettyItems (level + 1) vs) rest
  refine value?_list ?_ hfirst hclose hvs
  rw [skipSpace_append hsp, prettyAt, toList_block]
  exact skipSpace_cons _ rfl

theorem emptyRecord_reads (hsp : ∀ c ∈ sp, isSpace c = true) :
    Gives (value? (sp ++ ((prettyAt level (.record [])).toList ++ rest))) (.record []) rest := by
  have hclose : skipSpace ('\x7d' :: rest) = '\x7d' :: rest := skipSpace_cons _ rfl
  refine value?_emptyRecord ?_ hclose
  rw [skipSpace_append hsp, prettyAt, toList_block]
  exact skipSpace_cons _ rfl

/-- The text of a member begins with the quote of its name. -/
theorem toList_member (level : Nat) (name : String) (v : Json) :
    (writeText name ++ ": " ++ v.prettyAt level).toList =
      '"' :: (name.toList.flatMap (fun c => (writeChar c).toList) ++
        '"' :: ':' :: ' ' :: (v.prettyAt level).toList) := by
  rw [String.toList_append, String.toList_append, toList_writeText]
  simp

/-- A member is read from its own text if its value is, after the space behind the colon. -/
theorem member_reads {name : String} {v : Json}
    (hv : Gives (value? ([' '] ++ ((v.prettyAt level).toList ++ rest))) v rest)
    (hsp : ∀ c ∈ sp, isSpace c = true) :
    MemberAt (sp ++ ((writeText name ++ ": " ++ v.prettyAt level).toList ++ rest)) (some name) v
      rest := by
  have hname := text?_writeText name (':' :: ([' '] ++ ((v.prettyAt level).toList ++ rest)))
  refine .intro ?_ hname (skipSpace_cons _ rfl) hv
  rw [skipSpace_append hsp, toList_member, List.cons_append, skipSpace_cons _ rfl,
    List.append_assoc]
  rfl

theorem record_reads {m : Option String × Json} {ms : List (Option String × Json)}
    (hsp : ∀ c ∈ sp, isSpace c = true)
    (hms : Gives (members? (lines level "\x7d" (prettyMembers (level + 1) (m :: ms)) ++ rest))
      (m :: ms) rest) :
    Gives (value? (sp ++ ((prettyAt level (.record (m :: ms))).toList ++ rest)))
      (.record (m :: ms)) rest := by
  have htext := toList_member (level + 1) (m.1.getD "") m.2
  obtain ⟨first, hfirst⟩ := skipSpace_lines level "\x7d" htext rfl
    (prettyMembers (level + 1) ms) rest
  refine value?_record ?_ hfirst (by decide) hms
  rw [skipSpace_append hsp, prettyAt, toList_block]
  exact skipSpace_cons _ rfl

end reads

-- The induction is over the value. What stands before a value inside another one is the
-- start of its line, or the space behind a colon; what stands after it is a comma or the
-- start of the line of the closing bracket.
mutual
/-- An exact value is read from its own text, whatever stands before it that is white space
and after it that cannot go on with a number. -/
theorem value_reads : ∀ (v : Json), v.isExact = true → ∀ (level : Nat) (sp rest : List Char),
    (∀ c ∈ sp, isSpace c = true) → Stops rest →
    Gives (value? (sp ++ ((v.prettyAt level).toList ++ rest))) v rest
  | .null, _, _, _, _, hsp, _ => null_reads hsp
  | .bool b, _, _, _, _, hsp, _ => bool_reads b hsp
  | .number (.whole _), hi, _, _, _, hsp, hrest => whole_reads hi hsp hrest
  | .number (.other _), hv, _, _, _, _, _ => by cases hv
  | .text none, hv, _, _, _, _, _ => by cases hv
  | .text (some s), _, _, _, _, hsp, _ => text_reads s hsp
  | .list [], _, _, _, _, hsp, _ => emptyList_reads hsp
  | .list (v :: vs), hv, level, _, rest, hsp, _ =>
      list_reads (Bool.and_eq_true _ _ ▸ hv).1 hsp (items_read (v :: vs) nofun hv level rest)
  | .record [], _, _, _, _, hsp, _ => emptyRecord_reads hsp
  | .record (m :: ms), hv, level, _, rest, hsp, _ =>
      record_reads hsp (members_read (m :: ms) nofun hv level rest)

/-- The items of a list are read from their lines. -/
theorem items_read : ∀ (vs : List Json), vs ≠ [] → allExact vs = true →
    ∀ (level : Nat) (rest : List Char),
    Gives (items? (lines level "]" (prettyItems (level + 1) vs) ++ rest)) vs rest
  | [], hne, _, _, _ => absurd rfl hne
  | [v], _, hvs, level, rest => by
      rw [allExact, Bool.and_eq_true] at hvs
      rw [prettyItems, prettyItems, lines_last]
      exact items?_last
        (value_reads v hvs.1 (level + 1) _ _ (isSpace_newline _) (stops_newline _ _))
        (skipSpace_newline level rest rfl)
  | v :: w :: ws, _, hvs, level, rest => by
      rw [allExact, Bool.and_eq_true] at hvs
      have hws := items_read (w :: ws) nofun hvs.2 level rest
      rw [prettyItems, prettyItems, lines_more, ← prettyItems]
      exact items?_cons
        (value_reads v hvs.1 (level + 1) _ _ (isSpace_newline _) (stops_comma _))
        (skipSpace_cons _ rfl) hws

/-- The members of a record are read from their lines. -/
theorem members_read : ∀ (ms : List (Option String × Json)), ms ≠ [] → membersExact ms = true →
    ∀ (level : Nat) (rest : List Char),
    Gives (members? (lines level "\x7d" (prettyMembers (level + 1) ms) ++ rest)) ms rest
  | [], hne, _, _, _ => absurd rfl hne
  | (none, _) :: _, _, hms, _, _ => by cases hms
  | [(some name, v)], _, hms, level, rest => by
      rw [membersExact, Bool.and_eq_true, Bool.and_eq_true] at hms
      rw [prettyMembers, prettyMembers, lines_last]
      have hv := value_reads v hms.1.2 (level + 1) [' '] (newline level ++ '\x7d' :: rest)
        (List.forall_mem_singleton.mpr rfl) (stops_newline _ _)
      exact members?_last (member_reads hv (isSpace_newline _)) (skipSpace_newline level rest rfl)
  | (some name, v) :: (other, w) :: ms, _, hms, level, rest => by
      rw [membersExact, Bool.and_eq_true, Bool.and_eq_true] at hms
      have hmore := members_read ((other, w) :: ms) nofun hms.2 level rest
      rw [prettyMembers, prettyMembers, lines_more, ← prettyMembers]
      have hv := value_reads v hms.1.2 (level + 1) [' ']
        (',' :: (lines level "\x7d" (prettyMembers (level + 1) ((other, w) :: ms)) ++ rest))
        (List.forall_mem_singleton.mpr rfl) (stops_comma _)
      exact members?_cons (member_reads hv (isSpace_newline _)) (skipSpace_cons _ rfl) hmore
end

/-- A text on lines of its own is read as the value that it was written for. -/
theorem parse?_pretty {v : Json} (hv : v.isExact = true) : parse? v.pretty = some v := by
  have hread := value_reads v hv 0 [] [] nofun stops_nil
  rw [List.nil_append, List.append_nil] at hread
  obtain ⟨less, hread⟩ := hread
  rw [parse?, pretty, hread]
  rfl

end CellScan.Json
