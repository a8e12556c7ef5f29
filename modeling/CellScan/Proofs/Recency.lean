/-
`Recency.lean` -- that a cache forgets what was used longest ago.

What a cache does can be said without ticks and without a second index: it is a list of
entries, of which the first was used longest ago and the last was used last
(`RecencyList`). Every answer of the cache and all of its counts are those of such a list,
over any number of requests that the clock can tell apart (`refines_recencyList`).

The two indexes agree at all times because both are read off one line of slots, in the
order of their last uses (`Line`): the recency index lists the line's ticks and keys, and
the slots are the line in some order. A use takes a slot out of its place and puts it at the
end with the next tick, and a slot that has to go is the first one (`Line.append`).
-/
import CellScan.Cache
import Mathlib.Data.List.Nodup
import Mathlib.Order.Basic

set_option autoImplicit false

namespace CellScan

/-! ## Lists by last use -/

/-- Entries from the one used longest ago to the one used last, how many there may be, and
how many look-ups have found their key and how many have not. -/
structure RecencyList (κ ν : Type) where
  capacity : Nat
  entries : List (κ × ν)
  hits : Nat
  misses : Nat

/-- What a cache is asked for. -/
inductive Cache.Request (κ ν : Type) where
  | get (key : κ)
  | insert (key : κ) (value : ν)
  | clear

namespace RecencyList

variable {κ ν : Type} [DecidableEq κ]

/-- An empty list. A capacity of zero counts as one. -/
def ofCapacity (capacity : Nat) : RecencyList κ ν := ⟨max capacity 1, [], 0, 0⟩

/-- The value of a key. -/
def find? (r : RecencyList κ ν) (key : κ) : Option ν :=
  (r.entries.find? (·.1 = key)).map Prod.snd

/-- The entries with that of a key, which has been used now, at the end. -/
def used (r : RecencyList κ ν) (key : κ) (value : ν) : List (κ × ν) :=
  r.entries.filter (·.1 ≠ key) ++ [(key, value)]

/-- Looks a key up: one that is there moves to the end, one that is not changes nothing. -/
def get (r : RecencyList κ ν) (key : κ) : Option ν × RecencyList κ ν :=
  match r.find? key with
  | some value => (some value, { r with entries := r.used key value, hits := r.hits + 1 })
  | none => (none, { r with misses := r.misses + 1 })

/-- Stores a value: under a key that is there in the place of the old value, which moves to
the end; under a new one at the end, and without the first entry if the list was full. -/
def insert (r : RecencyList κ ν) (key : κ) (value : ν) : RecencyList κ ν :=
  match r.find? key with
  | some _ => { r with entries := r.used key value }
  | none =>
      let kept := if r.entries.length = r.capacity then r.entries.tail else r.entries
      { r with entries := kept ++ [(key, value)] }

/-- Forgets all entries. -/
def clear (r : RecencyList κ ν) : RecencyList κ ν := { r with entries := [] }

/-- The answer to a request and the list it leaves. -/
def serve (r : RecencyList κ ν) : Cache.Request κ ν → Option ν × RecencyList κ ν
  | .get key => r.get key
  | .insert key value => (none, r.insert key value)
  | .clear => (none, r.clear)

end RecencyList

/-! ## Requests in turn -/

namespace Cache

variable {κ ν : Type} [DecidableEq κ]

/-- The answer to a request and the cache it leaves. -/
def serve (c : Cache κ ν) : Request κ ν → Option ν × Cache κ ν
  | .get key => c.get key
  | .insert key value => (none, c.insert key value)
  | .clear => (none, c.clear)

/-- The answers to requests in turn, and what they leave. -/
def Request.serveAll {α : Type} (serve : α → Request κ ν → Option ν × α) :
    α → List (Request κ ν) → List (Option ν) × α
  | a, [] => ([], a)
  | a, request :: requests =>
      let (answer, next) := serve a request
      let (answers, last) := serveAll serve next requests
      (answer :: answers, last)

/-! ## One line of slots -/

/-- The entry that a slot holds. -/
def Slot.entry (s : Slot κ ν) : κ × ν := (s.key, s.value)

/-- The tick and the key by which the recency index lists a slot. -/
def Slot.use (s : Slot κ ν) : UInt64 × κ := (s.lastUse, s.key)

/-- Both indexes of the cache are those of one line of slots with different keys, in the
order of their last uses. -/
structure Line (c : Cache κ ν) (line : List (Slot κ ν)) : Prop where
  slots : c.slots.Perm line
  recency : c.recency = line.map Slot.use
  keys : line.Pairwise fun s t => s.key ≠ t.key
  rising : line.Pairwise fun s t => s.lastUse < t.lastUse
  clock : ∀ s ∈ line, s.lastUse ≤ c.clock

omit [DecidableEq κ] in
/-- The line of an empty cache. -/
theorem line_nil {c : Cache κ ν} (hslots : c.slots = []) (hrecency : c.recency = []) :
    Line c [] :=
  ⟨hslots ▸ List.Perm.nil, hrecency, List.Pairwise.nil, List.Pairwise.nil,
    fun _ ht => absurd ht List.not_mem_nil⟩

namespace Line

variable {c c' : Cache κ ν} {line line₀ pre post : List (Slot κ ν)} {key : κ} {s u : Slot κ ν}

omit [DecidableEq κ] in
theorem length_eq (h : Line c line) : c.size = line.length := h.slots.length_eq

theorem slot?_eq_none_iff (h : Line c line) : c.slot? key = none ↔ ∀ t ∈ line, t.key ≠ key := by
  rw [slot?, List.find?_eq_none]
  simp only [h.slots.mem_iff, decide_eq_true_eq]

/-- The slot of a key has its place in the line, and no other slot has that key. -/
theorem exists_split (h : Line c line) (hs : c.slot? key = some s) :
    s.key = key ∧ ∃ pre post, line = pre ++ s :: post ∧ ∀ t ∈ pre ++ post, t.key ≠ s.key := by
  have hkey : s.key = key := by simpa using List.find?_some hs
  have hmem : s ∈ line := h.slots.mem_iff.mp (List.mem_of_find?_eq_some hs)
  obtain ⟨pre, post, rfl⟩ := List.append_of_mem hmem
  obtain ⟨-, hpost, hpre⟩ := List.pairwise_append.mp h.keys
  refine ⟨hkey, pre, post, rfl, ?_⟩
  intro t ht
  rcases List.mem_append.mp ht with ht | ht
  · exact hpre t ht s List.mem_cons_self
  · exact ((List.pairwise_cons.mp hpost).1 t ht).symm

/-- Looking a key up in the line finds what the slots hold under it. -/
theorem find?_entry (h : Line c line) (key : κ) :
    (line.map Slot.entry).find? (·.1 = key) = (c.slot? key).map Slot.entry := by
  rcases hs : c.slot? key with _ | s
  · rw [Option.map_none, List.find?_eq_none]
    intro e he
    obtain ⟨t, ht, rfl⟩ := List.mem_map.mp he
    rw [decide_eq_true_iff]
    exact h.slot?_eq_none_iff.mp hs t ht
  · obtain ⟨hkey, pre, post, rfl, hothers⟩ := h.exists_split hs
    rw [Option.map_some, List.find?_eq_some_iff_append]
    refine ⟨by simp [Slot.entry, hkey], pre.map Slot.entry, post.map Slot.entry, ?_, ?_⟩
    · rw [List.map_append, List.map_cons]
    · intro e he
      obtain ⟨t, ht, rfl⟩ := List.mem_map.mp he
      have hne : t.key ≠ key := hkey ▸ hothers t (List.mem_append_left post ht)
      rw [Bool.not_eq_true', decide_eq_false_iff_not]
      exact hne

omit [DecidableEq κ] in
/-- A slot that is used now comes to the end of the line, whatever has been left out before. -/
theorem append (h : Line c line) (hline : line₀.Sublist line) (hnew : ∀ t ∈ line₀, t.key ≠ u.key)
    (hnow : c.clock < u.lastUse) (hslots : c'.slots.Perm (line₀ ++ [u]))
    (hrecency : c'.recency = SortedList.insertBy Prod.fst u.use (line₀.map Slot.use))
    (hclock : c'.clock = u.lastUse) : Line c' (line₀ ++ [u]) := by
  have hearlier : ∀ t ∈ line₀, t.lastUse < u.lastUse :=
    fun t ht => UInt64.lt_of_le_of_lt (h.clock t (hline.mem ht)) hnow
  refine ⟨hslots, ?_, ?_, ?_, ?_⟩
  · have hlast : ∀ p ∈ line₀.map Slot.use, compare p.1 u.use.1 = .lt := by
      intro p hp
      obtain ⟨t, ht, rfl⟩ := List.mem_map.mp hp
      exact Std.compare_eq_lt.mpr (hearlier t ht)
    have hend := SortedList.insertBy_append Prod.fst hlast []
    rw [List.append_nil] at hend
    rw [hrecency, hend, List.map_append]
    rfl
  · rw [List.pairwise_append]
    refine ⟨h.keys.sublist hline, List.pairwise_singleton _ u, fun t ht t' ht' => ?_⟩
    rw [List.mem_singleton.mp ht']
    exact hnew t ht
  · rw [List.pairwise_append]
    refine ⟨h.rising.sublist hline, List.pairwise_singleton _ u, fun t ht t' ht' => ?_⟩
    rw [List.mem_singleton.mp ht']
    exact hearlier t ht
  · intro t ht
    rw [hclock]
    rcases List.mem_append.mp ht with ht | ht
    · exact UInt64.le_of_lt (hearlier t ht)
    · rw [List.mem_singleton.mp ht]
      exact UInt64.le_refl _

omit [DecidableEq κ] in
/-- Changing the one slot of a key and none of the others moves it to the end, in some order. -/
theorem slots_map (h : Line c (pre ++ s :: post)) (hothers : ∀ t ∈ pre ++ post, t.key ≠ s.key)
    {f : Slot κ ν → Slot κ ν} (hf : ∀ t, t.key ≠ s.key → f t = t) :
    (c.slots.map f).Perm (pre ++ post ++ [f s]) := by
  have hfix : (pre ++ post).map f = pre ++ post := by
    rw [List.map_congr_left fun t ht => hf t (hothers t ht)]
    exact List.map_id' _
  have hmiddle : (pre ++ s :: post).Perm (pre ++ post ++ [s]) :=
    List.perm_middle.trans (List.perm_append_singleton s (pre ++ post)).symm
  have hmapped := (h.slots.trans hmiddle).map f
  rwa [List.map_append, hfix, List.map_singleton] at hmapped

omit [DecidableEq κ] in
/-- Without the tick of a slot the recency index is that of the other slots. -/
theorem recency_filter (h : Line c (pre ++ s :: post)) :
    c.recency.filter (·.1 ≠ s.lastUse) = (pre ++ post).map Slot.use := by
  obtain ⟨-, hpost, hpre⟩ := List.pairwise_append.mp h.rising
  have hkeep : ∀ t ∈ pre ++ post, t.lastUse ≠ s.lastUse := by
    intro t ht
    rcases List.mem_append.mp ht with ht | ht
    · exact UInt64.ne_of_lt (hpre t ht s List.mem_cons_self)
    · exact (UInt64.ne_of_lt ((List.pairwise_cons.mp hpost).1 t ht)).symm
  have hall : ((pre ++ post).map Slot.use).filter (·.1 ≠ s.lastUse) = (pre ++ post).map Slot.use := by
    rw [List.filter_eq_self]
    intro p hp
    obtain ⟨t, ht, rfl⟩ := List.mem_map.mp hp
    exact decide_eq_true (hkeep t ht)
  rw [h.recency, List.map_append, List.map_cons, List.filter_append,
    List.filter_cons_of_neg (by simp [Slot.use]), ← List.filter_append, ← List.map_append, hall]

omit [DecidableEq κ] in
/-- The recency index finds a slot by its tick. -/
theorem recency_find? (h : Line c (pre ++ s :: post)) :
    c.recency.find? (·.1 = s.lastUse) = some s.use := by
  obtain ⟨-, -, hpre⟩ := List.pairwise_append.mp h.rising
  rw [h.recency, List.find?_eq_some_iff_append]
  refine ⟨decide_eq_true rfl, pre.map Slot.use, post.map Slot.use, ?_, ?_⟩
  · rw [List.map_append, List.map_cons]
  · intro p hp
    obtain ⟨t, ht, rfl⟩ := List.mem_map.mp hp
    have hne : t.lastUse ≠ s.lastUse := UInt64.ne_of_lt (hpre t ht s List.mem_cons_self)
    rw [Bool.not_eq_true', decide_eq_false_iff_not]
    exact hne

/-- The entries of the other slots are those of other keys. -/
theorem filter_entry (hothers : ∀ t ∈ pre ++ post, t.key ≠ s.key) :
    ((pre ++ s :: post).map Slot.entry).filter (·.1 ≠ s.key) = (pre ++ post).map Slot.entry := by
  have hall : ((pre ++ post).map Slot.entry).filter (·.1 ≠ s.key) = (pre ++ post).map Slot.entry := by
    rw [List.filter_eq_self]
    intro e he
    obtain ⟨t, ht, rfl⟩ := List.mem_map.mp he
    exact decide_eq_true (hothers t ht)
  rw [List.map_append, List.map_cons, List.filter_append,
    List.filter_cons_of_neg (by simp [Slot.entry]), ← List.filter_append, ← List.map_append, hall]

/-- Making room takes the first slot off the line of a full cache. -/
theorem makeRoom (h : Line c line) (hpositive : 0 < c.capacity) :
    Line c.makeRoom (if c.size < c.capacity then line else line.tail)
      ∧ ∃ slots recency, c.makeRoom = { c with slots, recency } := by
  rw [Cache.makeRoom]
  by_cases hroom : c.size < c.capacity
  · rw [if_pos hroom, if_pos hroom]
    exact ⟨h, c.slots, c.recency, rfl⟩
  · rw [if_neg hroom, if_neg hroom]
    rcases line with _ | ⟨s, line⟩
    · rw [h.length_eq] at hroom
      exact absurd hpositive hroom
    · have hrecency : c.recency = s.use :: line.map Slot.use := h.recency
      obtain ⟨hkey, hkeys⟩ := List.pairwise_cons.mp h.keys
      simp only [hrecency]
      refine ⟨⟨?_, rfl, hkeys, (List.pairwise_cons.mp h.rising).2, fun t ht => ?_⟩, _, _, rfl⟩
      · -- no other slot has the key that is forgotten
        have hothers : (s :: line).filter (·.key ≠ s.key) = line := by
          rw [List.filter_cons_of_neg (by simp), List.filter_eq_self]
          intro t ht
          exact decide_eq_true (hkey t ht).symm
        have hfilter := h.slots.filter (·.key ≠ s.key)
        rwa [hothers] at hfilter
      · exact h.clock t (List.mem_cons_of_mem s ht)

end Line

/-! ## The cache beside the list -/

/-- After `n` requests the cache holds the entries of the list, in the order of the list, and
has counted what the list has. -/
structure Refines (n : Nat) (c : Cache κ ν) (r : RecencyList κ ν) : Prop where
  line : ∃ line, Line c line ∧ r.entries = line.map Slot.entry
  capacity : c.capacity = r.capacity
  positive : 0 < r.capacity
  length_le : r.entries.length ≤ r.capacity
  hits : c.hits.toNat = r.hits
  misses : c.misses.toNat = r.misses
  looked : r.hits + r.misses ≤ n
  clock : c.clock.toNat ≤ n

/-- A counter that has room counts one more. -/
theorem toNat_succ {x : UInt64} {n : Nat} (hx : x.toNat ≤ n) (hn : n + 1 < UInt64.size) :
    (x + 1).toNat = x.toNat + 1 := by
  have hone : (1 : UInt64).toNat = 1 := rfl
  have hroom : x.toNat + 1 < UInt64.size := Nat.lt_of_le_of_lt (Nat.succ_le_succ hx) hn
  rw [UInt64.toNat_add, hone]
  exact Nat.mod_eq_of_lt hroom

theorem lt_succ {x : UInt64} {n : Nat} (hx : x.toNat ≤ n) (hn : n + 1 < UInt64.size) : x < x + 1 := by
  rw [UInt64.lt_iff_toNat_lt, toNat_succ hx hn]
  exact Nat.lt_succ_self _

namespace Refines

variable {n : Nat} {c : Cache κ ν} {r : RecencyList κ ν} {key : κ} {value : ν}

omit [DecidableEq κ] in
theorem size_eq (h : Refines n c r) : c.size = r.entries.length := by
  obtain ⟨line, hline, hentries⟩ := h.line
  rw [hline.length_eq, hentries, List.length_map]

theorem find?_eq (h : Refines n c r) (key : κ) : r.find? key = (c.slot? key).map Slot.value := by
  obtain ⟨line, hline, hentries⟩ := h.line
  rw [RecencyList.find?, hentries, hline.find?_entry, Option.map_map]
  rfl

/-- Using a key that is there moves its slot to the end and changes no length. -/
theorem exists_line_used (h : Refines n c r) (hn : n + 1 < UInt64.size) {s : Slot κ ν}
    (hs : c.slot? key = some s) (value : ν) {d : Cache κ ν} {f : Slot κ ν → Slot κ ν}
    (hf : ∀ t, t.key ≠ key → f t = t) (hfs : f s = ⟨key, value, c.clock + 1⟩)
    (hslots : d.slots = c.slots.map f)
    (hrecency : d.recency
      = SortedList.insertBy Prod.fst (c.clock + 1, key) (c.recency.filter (·.1 ≠ s.lastUse)))
    (hclock : d.clock = c.clock + 1) :
    ∃ line, Line d line ∧ r.used key value = line.map Slot.entry
      ∧ (r.used key value).length = r.entries.length := by
  obtain ⟨line, hline, hentries⟩ := h.line
  obtain ⟨rfl, pre, post, rfl, hothers⟩ := hline.exists_split hs
  have hperm := hline.slots_map hothers hf
  rw [hfs, ← hslots] at hperm
  rw [hline.recency_filter] at hrecency
  have hused : r.used s.key value
      = (pre ++ post ++ [Slot.mk s.key value (c.clock + 1)]).map Slot.entry := by
    rw [RecencyList.used, hentries, Line.filter_entry hothers, List.map_append, List.map_append,
      List.map_append]
    rfl
  refine ⟨_, ?_, hused, ?_⟩
  · refine hline.append ?_ hothers (lt_succ h.clock hn) hperm hrecency hclock
    exact List.Sublist.append (List.Sublist.refl pre) (List.sublist_cons_self s post)
  · rw [hused, hentries, List.length_map, List.length_map]
    simp only [List.length_append, List.length_cons, List.length_nil]
    omega

theorem get (h : Refines n c r) (hn : n + 1 < UInt64.size) (key : κ) :
    (c.get key).1 = (r.get key).1 ∧ Refines (n + 1) (c.get key).2 (r.get key).2 := by
  have hfind := h.find?_eq key
  have hclock : (c.clock + 1).toNat ≤ n + 1 :=
    Nat.le_trans (Nat.le_of_eq (toNat_succ h.clock hn)) (Nat.succ_le_succ h.clock)
  have hlooked := h.looked
  have hhits := h.hits
  have hmisses := h.misses
  rcases hs : c.slot? key with _ | s
  · -- a miss takes a tick and is counted
    rw [hs, Option.map_none] at hfind
    have hcount := toNat_succ (x := c.misses) (n := n) (by omega) hn
    obtain ⟨line, hline, hentries⟩ := h.line
    simp only [Cache.get, RecencyList.get, hs, hfind]
    refine ⟨trivial, ⟨line, ⟨hline.slots, hline.recency, hline.keys, hline.rising, ?_⟩, hentries⟩,
      h.capacity, h.positive, h.length_le, hhits, ?_, ?_, hclock⟩
    · intro t ht
      exact UInt64.le_trans (hline.clock t ht) (UInt64.le_of_lt (lt_succ h.clock hn))
    · rw [hcount, hmisses]
    · show r.hits + (r.misses + 1) ≤ n + 1
      omega
  · rw [hs, Option.map_some] at hfind
    have hcount := toNat_succ (x := c.hits) (n := n) (by omega) hn
    have hkey : s.key = key := by simpa using List.find?_some hs
    have hmove : moveUse s.lastUse (c.clock + 1) c.recency
        = SortedList.insertBy Prod.fst (c.clock + 1, key) (c.recency.filter (·.1 ≠ s.lastUse)) := by
      obtain ⟨line, hline, -⟩ := h.line
      obtain ⟨-, pre, post, rfl, -⟩ := hline.exists_split hs
      rw [moveUse, hline.recency_find?, ← hkey]
      rfl
    have hfs : (if s.key = key then { s with lastUse := c.clock + 1 } else s)
        = ⟨key, s.value, c.clock + 1⟩ := by
      rw [if_pos hkey, hkey]
    have hget : (c.get key).2 = { c with
        slots := c.slots.map fun t => if t.key = key then { t with lastUse := c.clock + 1 } else t
        recency := moveUse s.lastUse (c.clock + 1) c.recency
        clock := c.clock + 1
        hits := c.hits + 1 } := by
      simp only [Cache.get, hs]
    obtain ⟨line, hline, hused, hlength⟩ := h.exists_line_used hn hs s.value (d := (c.get key).2)
      (f := fun t => if t.key = key then { t with lastUse := c.clock + 1 } else t)
      (fun t ht => if_neg ht) hfs (by rw [hget]) (by rw [hget]; exact hmove) (by rw [hget])
    rw [hget] at hline
    simp only [Cache.get, RecencyList.get, hs, hfind]
    refine ⟨trivial, ⟨line, hline, hused⟩, h.capacity, h.positive,
      Nat.le_trans (Nat.le_of_eq hlength) h.length_le, ?_, hmisses, ?_, hclock⟩
    · rw [hcount, hhits]
    · show r.hits + 1 + r.misses ≤ n + 1
      omega

omit [DecidableEq κ] in
/-- What stays of the list when there has to be room for one more is what stays of the line. -/
theorem kept_eq (h : Refines n c r) {line : List (Slot κ ν)}
    (hentries : r.entries = line.map Slot.entry) :
    (if r.entries.length = r.capacity then r.entries.tail else r.entries)
        = (if c.size < c.capacity then line else line.tail).map Slot.entry
      ∧ (if c.size < c.capacity then line else line.tail).length < r.capacity := by
  have hsize := h.size_eq
  have hcapacity := h.capacity
  have hle := h.length_le
  have hpositive := h.positive
  have hlength : r.entries.length = line.length := by rw [hentries, List.length_map]
  by_cases hfull : r.entries.length = r.capacity
  · rw [if_pos hfull, if_neg (by omega), hentries, List.length_tail, List.map_tail]
    exact ⟨rfl, by omega⟩
  · rw [if_neg hfull, if_pos (by omega), hentries]
    exact ⟨rfl, by omega⟩

theorem insert (h : Refines n c r) (hn : n + 1 < UInt64.size) (key : κ) (value : ν) :
    Refines (n + 1) (c.insert key value) (r.insert key value) := by
  have hfind := h.find?_eq key
  have hclock : (c.clock + 1).toNat ≤ n + 1 :=
    Nat.le_trans (Nat.le_of_eq (toNat_succ h.clock hn)) (Nat.succ_le_succ h.clock)
  have hlooked : r.hits + r.misses ≤ n + 1 := Nat.le_succ_of_le h.looked
  rcases hs : c.slot? key with _ | s
  · -- a new key goes behind the others, of which the first may have to go
    rw [hs, Option.map_none] at hfind
    obtain ⟨line, hline, hentries⟩ := h.line
    obtain ⟨heq, hlength⟩ := h.kept_eq hentries
    obtain ⟨hkept, slots, recency, hroom⟩ := hline.makeRoom (h.capacity.symm ▸ h.positive)
    have hsub : (if c.size < c.capacity then line else line.tail).Sublist line := by
      split
      · exact List.Sublist.refl line
      · exact List.tail_sublist line
    have hnew := fun t ht => hline.slot?_eq_none_iff.mp hs t (hsub.mem ht)
    rw [hroom] at hkept
    simp only [Cache.insert, RecencyList.insert, hs, hfind, hroom]
    refine ⟨⟨_, hkept.append (u := ⟨key, value, c.clock + 1⟩) (List.Sublist.refl _) hnew
      (lt_succ h.clock hn) ?_ ?_ rfl, ?_⟩, h.capacity, h.positive, ?_, h.hits, h.misses, hlooked,
      hclock⟩
    · exact (List.Perm.cons _ hkept.slots).trans (List.perm_append_singleton _ _).symm
    · exact congrArg _ hkept.recency
    · rw [heq, List.map_append]
      rfl
    · rw [heq, List.length_append, List.length_map]
      exact hlength
  · rw [hs, Option.map_some] at hfind
    have hkey : s.key = key := by simpa using List.find?_some hs
    have hinsert : c.insert key value = { c with
        slots := c.slots.map fun t => if t.key = key then ⟨key, value, c.clock + 1⟩ else t
        recency := SortedList.insertBy Prod.fst (c.clock + 1, key)
          (c.recency.filter (·.1 ≠ s.lastUse))
        clock := c.clock + 1 } := by
      simp only [Cache.insert, hs]
    obtain ⟨line, hline, hused, hlength⟩ := h.exists_line_used hn hs value
      (d := c.insert key value) (f := fun t => if t.key = key then ⟨key, value, c.clock + 1⟩ else t)
      (fun t ht => if_neg ht) (if_pos hkey) (by rw [hinsert]) (by rw [hinsert]) (by rw [hinsert])
    rw [hinsert] at hline
    simp only [Cache.insert, RecencyList.insert, hs, hfind]
    exact ⟨⟨line, hline, hused⟩, h.capacity, h.positive,
      Nat.le_trans (Nat.le_of_eq hlength) h.length_le, h.hits, h.misses, hlooked, hclock⟩

omit [DecidableEq κ] in
theorem clear (h : Refines n c r) : Refines (n + 1) c.clear r.clear :=
  ⟨⟨[], line_nil rfl rfl, rfl⟩, h.capacity, h.positive, Nat.zero_le _, h.hits, h.misses,
    Nat.le_succ_of_le h.looked, Nat.zero_le _⟩

theorem serve (h : Refines n c r) (hn : n + 1 < UInt64.size) (request : Request κ ν) :
    (c.serve request).1 = (r.serve request).1
      ∧ Refines (n + 1) (c.serve request).2 (r.serve request).2 := by
  cases request with
  | get key => exact h.get hn key
  | insert key value => exact ⟨rfl, h.insert hn key value⟩
  | clear => exact ⟨rfl, h.clear⟩

theorem serveAll (h : Refines n c r) (requests : List (Request κ ν))
    (hn : n + requests.length < UInt64.size) :
    (Request.serveAll Cache.serve c requests).1 = (Request.serveAll RecencyList.serve r requests).1
      ∧ Refines (n + requests.length) (Request.serveAll Cache.serve c requests).2
        (Request.serveAll RecencyList.serve r requests).2 := by
  induction requests generalizing n c r with
  | nil => exact ⟨rfl, h⟩
  | cons request requests ih =>
      rw [List.length_cons] at hn ⊢
      obtain ⟨hanswer, hnext⟩ := h.serve (by omega) request
      obtain ⟨hanswers, hlast⟩ := ih hnext (by omega)
      rw [Nat.add_right_comm, Nat.add_assoc] at hlast
      exact ⟨congrArg₂ List.cons hanswer hanswers, hlast⟩

end Refines

omit [DecidableEq κ] in
theorem refines_ofCapacity (capacity : Nat) :
    Refines 0 (ofCapacity capacity : Cache κ ν) (RecencyList.ofCapacity capacity) :=
  ⟨⟨[], line_nil rfl rfl, rfl⟩, rfl, Nat.lt_of_lt_of_le Nat.one_pos (Nat.le_max_right _ _),
    Nat.zero_le _, rfl, rfl, Nat.le_refl 0, Nat.le_refl 0⟩

/-! ## What callers see -/

/-- The cache shows what the list does: its size, its counts, its capacity, what is stored
under each key, and which keys will be forgotten first. -/
structure Agrees (c : Cache κ ν) (r : RecencyList κ ν) : Prop where
  size : c.size = r.entries.length
  hits : c.hits.toNat = r.hits
  misses : c.misses.toNat = r.misses
  capacity : c.capacity = r.capacity
  value : ∀ key, (c.slot? key).map Slot.value = r.find? key
  order : c.recency.map Prod.snd = r.entries.map Prod.fst

/-- The recency index lists the keys of the slots one to one, each by the tick of its last
use. The ticks are different and none is ahead of the clock, and there are no more slots than
the capacity allows. -/
structure Indexed (c : Cache κ ν) : Prop where
  mem_recency_iff : ∀ tick key,
    (tick, key) ∈ c.recency ↔ ∃ s ∈ c.slots, s.lastUse = tick ∧ s.key = key
  slots_nodup : (c.slots.map Slot.key).Nodup
  keys_nodup : (c.recency.map Prod.snd).Nodup
  ticks_nodup : (c.recency.map Prod.fst).Nodup
  le_clock : ∀ p ∈ c.recency, p.1 ≤ c.clock
  length_eq : c.recency.length = c.size
  size_le : c.size ≤ c.capacity

namespace Refines

variable {n : Nat} {c : Cache κ ν} {r : RecencyList κ ν}

theorem agrees (h : Refines n c r) : Agrees c r := by
  obtain ⟨line, hline, hentries⟩ := h.line
  refine ⟨h.size_eq, h.hits, h.misses, h.capacity, fun key => (h.find?_eq key).symm, ?_⟩
  rw [hline.recency, hentries, List.map_map, List.map_map]
  rfl

omit [DecidableEq κ] in
theorem indexed (h : Refines n c r) : Indexed c := by
  obtain ⟨line, hline, hentries⟩ := h.line
  have hkeys : (line.map Slot.key).Nodup := List.pairwise_map.mpr hline.keys
  have hticks : (line.map Slot.lastUse).Nodup :=
    List.pairwise_map.mpr (hline.rising.imp UInt64.ne_of_lt)
  refine ⟨?_, ?_, ?_, ?_, ?_, ?_, ?_⟩
  · intro tick key
    rw [hline.recency, List.mem_map]
    simp only [hline.slots.mem_iff, Slot.use, Prod.mk.injEq]
  · exact (hline.slots.map Slot.key).nodup_iff.mpr hkeys
  · rw [hline.recency, List.map_map]
    exact hkeys
  · rw [hline.recency, List.map_map]
    exact hticks
  · intro p hp
    rw [hline.recency] at hp
    obtain ⟨s, hs, rfl⟩ := List.mem_map.mp hp
    exact hline.clock s hs
  · rw [hline.recency, List.length_map, hline.length_eq]
  · rw [h.size_eq, h.capacity]
    exact h.length_le

end Refines

/-- A cache answers as the list of its entries by last use does, and shows what that list
does, after any requests that the clock can count; and its two indexes agree. -/
theorem refines_recencyList (capacity : Nat) (requests : List (Request κ ν))
    (h : requests.length < UInt64.size) :
    ∃ answers c r, Request.serveAll serve (ofCapacity capacity) requests = (answers, c)
      ∧ Request.serveAll RecencyList.serve (RecencyList.ofCapacity capacity) requests = (answers, r)
      ∧ Agrees c r ∧ Indexed c := by
  have hfirst : Refines 0 (ofCapacity capacity : Cache κ ν) (RecencyList.ofCapacity capacity) :=
    refines_ofCapacity capacity
  obtain ⟨hanswers, hlast⟩ := hfirst.serveAll requests (by omega)
  exact ⟨_, _, _, rfl, Prod.ext hanswers.symm rfl, hlast.agrees, hlast.indexed⟩

/-- In a cache of two a look-up saves an entry from being forgotten. -/
theorem refines_recencyList_two :
    ∃ answers c r, Request.serveAll serve (ofCapacity 2)
        [.insert 1 10, .insert 2 20, .get 1, .insert 3 30, .get 2, .get 1] = (answers, c)
      ∧ Request.serveAll RecencyList.serve (RecencyList.ofCapacity 2)
        [.insert 1 10, .insert 2 20, .get 1, .insert 3 30, .get 2, .get 1] = (answers, r)
      ∧ answers = [none, none, some 10, none, none, some 10] ∧ r.entries = [(3, 30), (1, 10)]
      ∧ Agrees c r ∧ Indexed c := by
  obtain ⟨answers, c, r, hc, hr, hagrees, hindexed⟩ := refines_recencyList 2
    ([.insert 1 10, .insert 2 20, .get 1, .insert 3 30, .get 2, .get 1] : List (Request Nat Nat))
    (by decide)
  have hlist : Request.serveAll RecencyList.serve (RecencyList.ofCapacity 2)
      ([.insert 1 10, .insert 2 20, .get 1, .insert 3 30, .get 2, .get 1] : List (Request Nat Nat))
      = ([none, none, some 10, none, none, some 10], ⟨2, [(3, 30), (1, 10)], 2, 1⟩) := rfl
  obtain ⟨rfl, rfl⟩ := Prod.mk.inj (hr.symm.trans hlist)
  exact ⟨_, c, _, hc, hr, rfl, rfl, hagrees, hindexed⟩

end Cache

end CellScan
