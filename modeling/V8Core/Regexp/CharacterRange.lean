import V8Core.Lib.Intervals

/-!
# Character ranges

The lists of `CharacterRange` of `regexp-compiler-tonode.cc`. `Canonicalize` works in place: the
list starts with a canonical part, into which the next range is inserted. `Negate`, `Intersect`
and `Subtract` read canonical lists and give the ranges that they add to their result.

`Negate` adds no range for the last code point alone.
-/

namespace V8Core.Regexp

open Intervals

/-- A range with its `from` and `to`. -/
abbrev CharacterRange := Intervals.Interval

def kMaxCodePoint : Nat := 0x10FFFF

variable {c count : Nat} {range insert : CharacterRange} {ranges list : List CharacterRange}

/-- The elements of a `ZoneList`. -/
def rangeAt (list : List CharacterRange) (i : Nat) : CharacterRange := list.getD i ⟨0, 0⟩

/-! ## `Canonicalize` -/

/-- The number of ranges from the next one on that keep a list canonical whose last range ends at `max`. -/
def canonicalLength (max : Nat) : List CharacterRange → Nat
  | [] => 0
  | current :: rest => if current.lo ≤ max + 1 then 0 else canonicalLength current.hi rest + 1

/-- `IsCanonical`. -/
def isCanonical : List CharacterRange → Bool
  | [] => true
  | range :: rest => canonicalLength range.hi rest = rest.length

/-- `MoveRanges` with `from < to`: the loop that runs down. -/
def moveUp (src dst : Nat) : Nat → List CharacterRange → List CharacterRange
  | 0, list => list
  | i + 1, list => moveUp src dst i (list.set (dst + i) (rangeAt list (src + i)))

/-- `MoveRanges` otherwise: the loop at `i`, with `left` ranges to move. -/
def moveDown (src dst i : Nat) : Nat → List CharacterRange → List CharacterRange
  | 0, list => list
  | left + 1, list => moveDown src dst (i + 1) left (list.set (dst + i) (rangeAt list (src + i)))

/-- `MoveRanges`. -/
def moveRanges (list : List CharacterRange) (src dst count : Nat) : List CharacterRange :=
  if src < dst then moveUp src dst count list else moveDown src dst 0 count list

/-- The positions of the ranges that the inserted range overlaps or is adjacent to. -/
def insertPositions (list : List CharacterRange) (insert : CharacterRange) : Nat → Nat → Nat × Nat
  | 0, endPos => (0, endPos)
  | i + 1, endPos =>
    let current := rangeAt list i
    if current.lo > insert.hi + 1 then insertPositions list insert i i
    else if current.hi + 1 < insert.lo then (i + 1, endPos)
    else insertPositions list insert i endPos

def insertRangeInCanonicalList (list : List CharacterRange) (count : Nat) (insert : CharacterRange) :
    List CharacterRange × Nat :=
  let startPos := (insertPositions list insert count count).1
  let endPos := (insertPositions list insert count count).2
  if startPos = endPos then
    let list := if startPos < count then moveRanges list startPos (startPos + 1) (count - startPos) else list
    (list.set startPos insert, count + 1)
  else if startPos + 1 = endPos then
    let toReplace := rangeAt list startPos
    (list.set startPos ⟨min toReplace.lo insert.lo, max toReplace.hi insert.hi⟩, count)
  else
    let newFrom := min (rangeAt list startPos).lo insert.lo
    let newTo := max (rangeAt list (endPos - 1)).hi insert.hi
    let list := if endPos < count then moveRanges list endPos (startPos + 1) (count - endPos) else list
    (list.set startPos ⟨newFrom, newTo⟩, count - (endPos - startPos) + 1)

/-- The loop of `Canonicalize` that inserts the ranges from `read` on, and the `Rewind` behind it. -/
def insertLoop : Nat → Nat → Nat → List CharacterRange → List CharacterRange
  | 0, _, numCanonical, list => list.take numCanonical
  | left + 1, read, numCanonical, list =>
    let inserted := insertRangeInCanonicalList list numCanonical (rangeAt list read)
    insertLoop left (read + 1) inserted.2 inserted.1

def canonicalize (characterRanges : List CharacterRange) : List CharacterRange :=
  match characterRanges with
  | [] => []
  | range :: rest =>
    let i := canonicalLength range.hi rest + 1
    if i = characterRanges.length then characterRanges
    else insertLoop (characterRanges.length - i) i i characterRanges

/-! ## `Negate`, `Intersect` and `Subtract` -/

/-- The loop of `Negate`, and the range that may follow it. -/
def negateLoop (start : Nat) : List CharacterRange → List CharacterRange
  | [] => if start < kMaxCodePoint then [⟨start, kMaxCodePoint⟩] else []
  | range :: rest => ⟨start, range.lo - 1⟩ :: negateLoop (range.hi + 1) rest

def negate : List CharacterRange → List CharacterRange
  | [] => negateLoop 0 []
  | range :: rest => if range.lo = 0 then negateLoop (range.hi + 1) rest else negateLoop 0 (range :: rest)

def intersect (lhs rhs : List CharacterRange) : List CharacterRange :=
  match lhs, rhs with
  | l :: ls, r :: rs =>
    if l.hi < r.lo then intersect ls (r :: rs)
    else if r.hi < l.lo then intersect (l :: ls) rs
    else
      let stop := min l.hi r.hi
      ⟨max l.lo r.lo, stop⟩ :: if stop = l.hi then intersect ls (r :: rs) else intersect (l :: ls) rs
  | _, _ => []
termination_by lhs.length + rhs.length

/-- `SafeAdvanceRange`, with the ranges from the index on: the range is beyond the code points behind the last. -/
def safeAdvanceRange (ranges : List CharacterRange) (stop : Nat) : List CharacterRange × CharacterRange :=
  match ranges.tail with
  | [] => ([], ⟨kMaxCodePoint + 1, stop⟩)
  | next :: rest => (next :: rest, next)

theorem safeAdvanceRange_length (stop : Nat) :
    (safeAdvanceRange (range :: ranges) stop).1.length < (range :: ranges).length := by
  cases ranges <;> simp [safeAdvanceRange]

/-- The loop of `Subtract` at a part of the current range, and what follows it. -/
def subtractLoop (src toRemove : List CharacterRange) (current : CharacterRange) : List CharacterRange :=
  match src, toRemove with
  | first :: src, remove :: rest =>
    let next := safeAdvanceRange (first :: src) current.hi
    if remove.hi < current.lo then subtractLoop (first :: src) rest current
    else if current.hi < remove.lo then current :: subtractLoop next.1 (remove :: rest) next.2
    else if current.lo ≥ remove.lo ∧ current.hi ≤ remove.hi then subtractLoop next.1 (remove :: rest) next.2
    else if current.lo < remove.lo ∧ current.hi > remove.hi then
      ⟨current.lo, remove.lo - 1⟩ :: subtractLoop (first :: src) rest ⟨remove.hi + 1, current.hi⟩
    else if current.lo < remove.lo then
      let next := safeAdvanceRange (first :: src) (remove.lo - 1)
      ⟨current.lo, remove.lo - 1⟩ :: subtractLoop next.1 (remove :: rest) next.2
    -- here `current.hi > remove.hi`, and the source's last branch is not reached
    else subtractLoop (first :: src) rest ⟨remove.hi + 1, current.hi⟩
  | src, _ => (if current.lo ≤ current.hi then [current] else []) ++ src.tail
termination_by src.length + toRemove.length
decreasing_by
  all_goals
    have := @safeAdvanceRange_length first src current.hi
    have := @safeAdvanceRange_length first src (remove.lo - 1)
    simp only [List.length_cons] at *
    omega

def subtract : List CharacterRange → List CharacterRange → List CharacterRange
  | [], _ => []
  | range :: src, toRemove => subtractLoop (range :: src) toRemove range

/-! ## The results of `Negate` -/

/-- The sweep from `start` on covers all but the ranges, and but the last code point where it comes to it alone. -/
theorem negateLoop_spec {start : Nat} (h : Canonical kMaxCodePoint ranges) (hgap : ∀ c, Mem c ranges → start < c) :
    Denotes kMaxCodePoint (negateLoop start ranges) fun c => start ≤ c ∧ c ≤ kMaxCodePoint ∧ ¬ Mem c ranges ∧
      ¬ (c = kMaxCodePoint ∧ (start = kMaxCodePoint ∨ Mem (kMaxCodePoint - 1) ranges)) := by
  induction ranges generalizing start with
  | nil =>
    rw [negateLoop]
    split
    · refine (Denotes.nil (P := fun _ => False) (by simp)).cons ⟨by grind, Nat.le_refl _⟩ (fun c => ?_) (by simp)
      simp only [Interval.Contains, not_mem_nil]
      grind
    · exact Denotes.nil fun c => by grind
  | cons range rest ih =>
    obtain ⟨⟨hle, hmax⟩, -, hrest⟩ := Canonical.cons_iff.1 h
    have hlow := hgap range.lo (mem_cons.2 (.inl ⟨Nat.le_refl _, hle⟩))
    have hgap' : ∀ c, Mem c rest → range.hi + 1 < c := fun c => h.lt_of_mem
    refine (ih hrest hgap').cons ⟨by dsimp only; omega, by dsimp only; omega⟩ (fun c => ?_) fun c hc => ?_
    · have := hgap' c
      have := hgap' (kMaxCodePoint - 1)
      grind
    · show range.lo - 1 + 1 < c
      omega

theorem negate_denotes (h : Canonical kMaxCodePoint ranges) : Denotes kMaxCodePoint (negate ranges) fun c =>
    c ≤ kMaxCodePoint ∧ ¬ Mem c ranges ∧ ¬ (c = kMaxCodePoint ∧ Mem (kMaxCodePoint - 1) ranges) := by
  have hpos : 0 < kMaxCodePoint := by decide
  cases ranges with
  | nil =>
    refine (negateLoop_spec h (by simp)).congr fun c => ?_
    grind
  | cons range rest =>
    rw [negate]
    split
    · have hgap : ∀ c, Mem c rest → range.hi + 1 < c := fun c => h.lt_of_mem
      refine (negateLoop_spec h.tail hgap).congr fun c => ?_
      have := hgap c
      have := hgap (kMaxCodePoint - 1)
      grind
    · refine (negateLoop_spec h fun c hc => ?_).congr fun c => ?_
      · have := h.head_le hc
        omega
      · grind

/-- A list is negated by a canonical list for the other code points. -/
def Negates (ranges negated : List CharacterRange) : Prop :=
  Denotes kMaxCodePoint negated fun c => c ≤ kMaxCodePoint ∧ ¬ Mem c ranges

/-- The negation is the complement, and gives back the list when it is negated, exactly when the last two
code points are both in the list or both not in it. -/
theorem negate_spec (ranges : { ranges // Canonical kMaxCodePoint ranges }) :
    (Negates ranges.1 (negate ranges.1) ∧ negate (negate ranges.1) = ranges.1) ↔
      (Mem 0x10FFFE ranges.1 ↔ Mem 0x10FFFF ranges.1) := by
  obtain ⟨ranges, h⟩ := ranges
  have hneg := negate_denotes h
  have hneg2 := negate_denotes hneg.canonical
  change _ ↔ (Mem (kMaxCodePoint - 1) ranges ↔ Mem kMaxCodePoint ranges)
  constructor
  · rintro ⟨hnegates, htwice⟩
    have hlast := hnegates.mem kMaxCodePoint
    have hprev := hnegates.mem (kMaxCodePoint - 1)
    have hlast2 := hneg2.mem kMaxCodePoint
    rw [htwice] at hlast2
    have := hneg.mem kMaxCodePoint
    grind
  · intro hends
    refine ⟨hneg.congr fun c => ?_, hneg2.canonical.ext h fun c => ?_⟩
    · grind
    · have hle : Mem c ranges → c ≤ kMaxCodePoint := h.le_of_mem
      rw [hneg2.mem, hneg.mem, hneg.mem]
      grind

theorem negate_all_but_last : Canonical kMaxCodePoint [⟨0, 0x10FFFE⟩] ∧
    negate [⟨0, 0x10FFFE⟩] = [] ∧ ¬ Mem 0x10FFFF [⟨0, 0x10FFFE⟩] :=
  ⟨Canonical.nil.cons ⟨by decide, by decide⟩ (by simp), by decide, by decide⟩

/-! ## The results of `Intersect` and `Subtract` -/

variable {lhs rhs src toRemove : List CharacterRange}

theorem intersect_denotes (hl : Canonical kMaxCodePoint lhs) (hr : Canonical kMaxCodePoint rhs) :
    Denotes kMaxCodePoint (intersect lhs rhs) fun c => Mem c lhs ∧ Mem c rhs := by
  fun_induction intersect lhs rhs with
  | case1 l ls r rs hlt ih =>
    refine (ih hl.tail hr).congr fun c => ?_
    have : Mem c (r :: rs) → r.lo ≤ c := hr.head_le
    grind
  | case2 l ls r rs _ hlt ih =>
    refine (ih hl hr.tail).congr fun c => ?_
    have : Mem c (l :: ls) → l.lo ≤ c := hl.head_le
    grind
  | case3 l ls r rs hlr hrl stop ih1 ih2 =>
    have hvalid := (Canonical.cons_iff.1 hl).1
    have hvalid' := (Canonical.cons_iff.1 hr).1
    have hgap : ∀ {c}, Mem c ls → l.hi + 1 < c := hl.lt_of_mem
    have hgap' : ∀ {c}, Mem c rs → r.hi + 1 < c := hr.lt_of_mem
    have hrest : Denotes kMaxCodePoint (if stop = l.hi then intersect ls (r :: rs) else intersect (l :: ls) rs)
        fun c => stop + 1 < c ∧ Mem c (l :: ls) ∧ Mem c (r :: rs) := by
      split
      · refine (ih1 hl.tail hr).congr fun c => ?_
        grind
      · refine (ih2 hl hr.tail).congr fun c => ?_
        grind
    refine hrest.cons ⟨by dsimp only; omega, by dsimp only; omega⟩ (fun c => ?_) fun c hc => hc.1
    grind
  | case4 lhs rhs hne =>
    refine Denotes.nil fun c => ?_
    cases lhs with
    | nil => simp
    | cons l ls =>
      cases rhs with
      | nil => simp
      | cons r rs => exact absurd rfl (hne l ls r rs rfl)

/-- The loop of `Subtract` at the next range of `src`. -/
theorem subtractLoop_next {first : CharacterRange} {stop : Nat} (hstop : stop ≤ kMaxCodePoint)
    (hs : Canonical kMaxCodePoint src)
    (ih : let next := safeAdvanceRange (first :: src) stop
      next.1 ≠ [] → Canonical kMaxCodePoint (next.2 :: next.1.tail) →
        Denotes kMaxCodePoint (subtractLoop next.1 toRemove next.2) fun c =>
          Mem c (next.2 :: next.1.tail) ∧ ¬ Mem c toRemove) :
    let next := safeAdvanceRange (first :: src) stop
    Denotes kMaxCodePoint (subtractLoop next.1 toRemove next.2) fun c => Mem c src ∧ ¬ Mem c toRemove := by
  cases src with
  | nil =>
    have hlt : ¬ kMaxCodePoint + 1 ≤ stop := by omega
    simpa [safeAdvanceRange, subtractLoop, hlt] using Denotes.nil (by simp)
  | cons next rest => exact ih (by simp [safeAdvanceRange]) hs

/-- The loop of `Subtract` at a part of the first range of `src`. -/
theorem subtractLoop_spec {current : CharacterRange} (hne : src ≠ [])
    (hs : Canonical kMaxCodePoint (current :: src.tail)) (hr : Canonical kMaxCodePoint toRemove) :
    Denotes kMaxCodePoint (subtractLoop src toRemove current) fun c =>
      Mem c (current :: src.tail) ∧ ¬ Mem c toRemove := by
  fun_induction subtractLoop src toRemove current with
  | case1 current first src remove rest hlt ih =>
    refine (ih hne hs hr.tail).congr fun c => ?_
    have hlow : Mem c (current :: src) → current.lo ≤ c := hs.head_le
    grind
  | case2 current first src remove rest next _ hlt ih =>
    have hvalid := (Canonical.cons_iff.1 hs).1
    have hgap : ∀ {c}, Mem c src → current.hi + 1 < c := hs.lt_of_mem
    have hlow : ∀ {c}, Mem c (remove :: rest) → remove.lo ≤ c := hr.head_le
    refine (subtractLoop_next hvalid.2 hs.tail fun hne' hs' => ih hne' hs' hr).cons hvalid (fun c => ?_)
      fun c hc => hgap hc.1
    grind
  | case3 current first src remove rest next _ _ hcovers ih =>
    refine (subtractLoop_next (Canonical.cons_iff.1 hs).1.2 hs.tail fun hne' hs' => ih hne' hs' hr).congr fun c => ?_
    grind
  | case4 current first src remove rest _ _ _ hsplit ih =>
    have hvalid := (Canonical.cons_iff.1 hs).1
    have hgap : ∀ {c}, Mem c src → current.hi + 1 < c := hs.lt_of_mem
    have hgap' : ∀ {c}, Mem c rest → remove.hi + 1 < c := hr.lt_of_mem
    have hremove := (Canonical.cons_iff.1 hr).1
    refine (ih hne (hs.shrink (s := ⟨remove.hi + 1, current.hi⟩) (by grind) (Nat.le_refl _)) hr.tail).cons
      ⟨by dsimp only; omega, by dsimp only; omega⟩ (fun c => ?_) fun c hc => ?_
    · grind
    · show remove.lo - 1 + 1 < c
      grind
  | case5 current first src remove rest _ _ _ _ hlt next ih =>
    have hvalid := (Canonical.cons_iff.1 hs).1
    have hgap : ∀ {c}, Mem c src → current.hi + 1 < c := hs.lt_of_mem
    have hgap' : ∀ {c}, Mem c rest → remove.hi + 1 < c := hr.lt_of_mem
    refine (subtractLoop_next (by omega) hs.tail fun hne' hs' => ih hne' hs' hr).cons
      ⟨by dsimp only; omega, by dsimp only; omega⟩ (fun c => ?_) fun c hc => ?_
    · grind
    · show remove.lo - 1 + 1 < c
      have := hgap hc.1
      omega
  | case6 current first src remove rest _ _ _ _ _ ih =>
    have hgap : ∀ {c}, Mem c src → current.hi + 1 < c := hs.lt_of_mem
    refine (ih hne (hs.shrink (s := ⟨remove.hi + 1, current.hi⟩) (by grind) (Nat.le_refl _)) hr.tail).congr fun c => ?_
    grind
  | case7 src toRemove current hne' =>
    have hvalid := (Canonical.cons_iff.1 hs).1
    cases src with
    | nil => exact absurd rfl hne
    | cons first src =>
      cases toRemove with
      | nil =>
        rw [if_pos hvalid.1]
        exact ⟨hs, fun c => by simp⟩
      | cons remove rest => exact absurd rfl (hne' first src remove rest rfl)

theorem subtract_denotes (hs : Canonical kMaxCodePoint src) (hr : Canonical kMaxCodePoint toRemove) :
    Denotes kMaxCodePoint (subtract src toRemove) fun c => Mem c src ∧ ¬ Mem c toRemove := by
  cases src with
  | nil => exact Denotes.nil (by simp)
  | cons range src => exact subtractLoop_spec (by simp) hs hr

/-! ## The result of `Canonicalize` -/

variable {i j src' dst : Nat}

theorem getElem?_eq_rangeAt (h : i < list.length) : list[i]? = some (rangeAt list i) := by
  simp [rangeAt, h]

theorem mem_take_drop {a n : Nat} :
    range ∈ (list.drop a).take n ↔ ∃ k, a ≤ k ∧ k < a + n ∧ k < list.length ∧ range = rangeAt list k := by
  rw [List.mem_iff_getElem?]
  constructor
  · rintro ⟨k, hk⟩
    rw [List.getElem?_take, List.getElem?_drop] at hk
    split at hk
    · have hlt := (List.getElem?_eq_some_iff.1 hk).1
      rw [getElem?_eq_rangeAt hlt, Option.some.injEq] at hk
      exact ⟨a + k, by omega, by omega, hlt, hk.symm⟩
    · cases hk
  · rintro ⟨k, hk, hlt, hlen, rfl⟩
    refine ⟨k - a, ?_⟩
    rw [List.getElem?_take_of_lt (by omega), List.getElem?_drop, Nat.add_sub_cancel' hk, getElem?_eq_rangeAt hlen]

theorem getElem?_moveUp (hlt : src' < dst) (hlen : dst + i ≤ list.length) :
    (moveUp src' dst i list)[j]? = if dst ≤ j ∧ j < dst + i then list[src' + (j - dst)]? else list[j]? := by
  induction i generalizing list with
  | zero => grind [moveUp]
  | succ i ih =>
    have hat := @getElem?_eq_rangeAt list (src' + i) (by omega)
    rw [moveUp, ih (by rw [List.length_set]; omega)]
    grind

theorem getElem?_moveDown {left : Nat} (hle : dst ≤ src') (hlen : src' + i + left ≤ list.length) :
    (moveDown src' dst i left list)[j]? =
      if dst + i ≤ j ∧ j < dst + i + left then list[src' + (j - dst)]? else list[j]? := by
  induction left generalizing list i with
  | zero => grind [moveDown]
  | succ left ih =>
    have hat := @getElem?_eq_rangeAt list (src' + i) (by omega)
    rw [moveDown, ih (by rw [List.length_set]; omega)]
    grind

theorem getElem?_moveRanges (hsrc : src' + count ≤ list.length) (hdst : dst + count ≤ list.length) :
    (moveRanges list src' dst count)[j]? = if dst ≤ j ∧ j < dst + count then list[src' + (j - dst)]? else list[j]? := by
  rw [moveRanges]
  split
  · exact getElem?_moveUp ‹_› hdst
  · simpa using getElem?_moveDown (i := 0) (j := j) (by omega) hsrc

/-- The ranges before `startPos` are below the inserted one, those from `endPos` on above it. -/
structure Positions (list : List CharacterRange) (insert : CharacterRange) (count startPos endPos : Nat) : Prop where
  start_le : startPos ≤ endPos
  end_le : endPos ≤ count
  below : ∀ k < startPos, (rangeAt list k).hi + 1 < insert.lo
  between : ∀ k, startPos ≤ k → k < endPos → (rangeAt list k).lo ≤ insert.hi + 1 ∧ insert.lo ≤ (rangeAt list k).hi + 1
  above : ∀ k, endPos ≤ k → k < count → insert.hi + 1 < (rangeAt list k).lo

/-- The bounds of the first `count` ranges increase. -/
def Increasing (list : List CharacterRange) (count : Nat) : Prop :=
  ∀ k l, k < l → l < count → (rangeAt list k).lo < (rangeAt list l).lo ∧ (rangeAt list k).hi < (rangeAt list l).hi

/-- The scan from the end: so far the ranges from `i` to `endPos` touch the inserted one. -/
theorem insertPositions_spec {endPos : Nat} (hsorted : Increasing list count) (hle : i ≤ endPos) (hcount : endPos ≤ count)
    (hbetween : ∀ k, i ≤ k → k < endPos →
      (rangeAt list k).lo ≤ insert.hi + 1 ∧ insert.lo ≤ (rangeAt list k).hi + 1)
    (habove : ∀ k, endPos ≤ k → k < count → insert.hi + 1 < (rangeAt list k).lo) :
    Positions list insert count (insertPositions list insert i endPos).1 (insertPositions list insert i endPos).2 := by
  induction i generalizing endPos with
  | zero => exact ⟨hle, hcount, by simp [insertPositions], hbetween, habove⟩
  | succ i ih =>
    rw [insertPositions]
    split
    · refine ih (Nat.le_refl _) (by omega) (fun k hk hlt => by omega) fun k hk hlt => ?_
      obtain rfl | hk := Nat.eq_or_lt_of_le hk
      · assumption
      · have := (hsorted i k hk hlt).1
        omega
    · split
      · refine ⟨hle, hcount, fun k hk => ?_, hbetween, habove⟩
        obtain rfl | hk := Nat.eq_or_lt_of_le (Nat.le_of_lt_succ hk)
        · assumption
        · have := (hsorted k i hk (by omega)).2
          omega
      · refine ih (by omega) hcount (fun k hk hlt => ?_) habove
        obtain rfl | hk := Nat.eq_or_lt_of_le hk
        · omega
        · exact hbetween k hk hlt

@[simp] theorem length_moveUp : (moveUp src' dst i list).length = list.length := by
  induction i generalizing list with
  | zero => rfl
  | succ i ih => rw [moveUp, ih, List.length_set]

@[simp] theorem length_moveDown {left : Nat} : (moveDown src' dst i left list).length = list.length := by
  induction left generalizing list i with
  | zero => rfl
  | succ left ih => rw [moveDown, ih, List.length_set]

/-- The ranges from `endPos` on are moved behind `startPos`, and what follows `count` stays. -/
structure Moved (list moved : List CharacterRange) (count startPos endPos : Nat) : Prop where
  length : moved.length = list.length
  before : ∀ k < startPos, moved[k]? = list[k]?
  behind : ∀ k < count - endPos, moved[startPos + 1 + k]? = list[endPos + k]?
  after : ∀ k > count, moved[k]? = list[k]?

variable {startPos endPos : Nat}

theorem moved_moveRanges (hlen : count < list.length) (hle : startPos ≤ endPos) (hcount : endPos ≤ count) :
    Moved list (if endPos < count then moveRanges list endPos (startPos + 1) (count - endPos) else list)
      count startPos endPos := by
  split
  · have hmove : ∀ j, (moveRanges list endPos (startPos + 1) (count - endPos))[j]? = _ := fun j =>
      getElem?_moveRanges (by omega) (by omega)
    refine ⟨?_, fun k hk => ?_, fun k hk => ?_, fun k hk => ?_⟩
    · rw [moveRanges]
      split <;> simp
    · rw [hmove, if_neg (by omega)]
    · rw [hmove, if_pos ⟨by omega, by omega⟩, Nat.add_sub_cancel_left]
    · rw [hmove, if_neg (by omega)]
  · exact ⟨rfl, by simp, fun k hk => by omega, by simp⟩

/-- The range that stands for the inserted one and those that it touches. -/
def mergedRange (list : List CharacterRange) (insert : CharacterRange) (startPos endPos : Nat) : CharacterRange :=
  if startPos = endPos then insert
  else ⟨min (rangeAt list startPos).lo insert.lo, max (rangeAt list (endPos - 1)).hi insert.hi⟩

/-- The three cases of an insertion. -/
theorem insertRangeInCanonicalList_eq (hlen : count < list.length) (hle : startPos ≤ endPos) (hcount : endPos ≤ count)
    (heq : insertPositions list insert count count = (startPos, endPos)) :
    ∃ moved, Moved list moved count startPos endPos ∧ insertRangeInCanonicalList list count insert =
      (moved.set startPos (mergedRange list insert startPos endPos), startPos + 1 + (count - endPos)) := by
  have hmoved := moved_moveRanges hlen hle hcount
  simp only [insertRangeInCanonicalList, heq, mergedRange]
  split
  · subst endPos
    exact ⟨_, hmoved, by rw [show count + 1 = startPos + 1 + (count - startPos) by omega]⟩
  · split
    · subst endPos
      refine ⟨list, ⟨rfl, by simp, by simp, by simp⟩, ?_⟩
      rw [Nat.add_sub_cancel, show startPos + 1 + (count - (startPos + 1)) = count by omega]
    · exact ⟨_, hmoved, by rw [show count - (endPos - startPos) + 1 = startPos + 1 + (count - endPos) by omega]⟩

theorem take_set_moved {moved : List CharacterRange} (hlen : count < list.length)
    (hmoved : Moved list moved count startPos endPos) (hle : startPos ≤ endPos) (hcount : endPos ≤ count) :
    (moved.set startPos range).take (startPos + 1 + (count - endPos)) =
      list.take startPos ++ range :: (list.drop endPos).take (count - endPos) := by
  obtain ⟨hlength, hbefore, hbehind, -⟩ := hmoved
  have htake : (list.take startPos).length = startPos := List.length_take_of_le (by omega)
  refine List.ext_getElem? fun j => ?_
  rcases Nat.lt_trichotomy j startPos with hj | rfl | hj
  · rw [List.getElem?_take_of_lt (by omega), List.getElem?_set_ne (by omega), hbefore j hj,
      List.getElem?_append_left (by omega), List.getElem?_take_of_lt hj]
  · rw [List.getElem?_take_of_lt (by omega), List.getElem?_set_self (by omega),
      List.getElem?_append_right (by omega), htake, Nat.sub_self, List.getElem?_cons_zero]
  · obtain ⟨k, rfl⟩ := Nat.exists_eq_add_of_lt hj
    rw [List.getElem?_append_right (by omega), htake, show startPos + k + 1 - startPos = k + 1 by omega,
      List.getElem?_cons_succ]
    by_cases hk : k < count - endPos
    · rw [List.getElem?_take_of_lt (by omega), List.getElem?_set_ne (by omega), Nat.add_right_comm, hbehind k hk,
        List.getElem?_take_of_lt hk, List.getElem?_drop]
    · rw [List.getElem?_take_eq_none (by omega), List.getElem?_take_eq_none (by omega)]

theorem contains_mergedRange (hsorted : Increasing list count) (hp : Positions list insert count startPos endPos) :
    (mergedRange list insert startPos endPos).Contains c ↔
      insert.Contains c ∨ ∃ k, startPos ≤ k ∧ k < endPos ∧ (rangeAt list k).Contains c := by
  obtain ⟨hle, hcount, -, hbetween, -⟩ := hp
  rw [mergedRange]
  split
  · exact ⟨.inl, fun h => h.resolve_right fun ⟨k, hk⟩ => by omega⟩
  · have hfirst := hbetween startPos (Nat.le_refl _) (by omega)
    have hlast := hbetween (endPos - 1) (by omega) (by omega)
    simp only [Interval.Contains]
    constructor
    · intro hc
      by_cases hlo : c < insert.lo
      · exact .inr ⟨startPos, Nat.le_refl _, by omega, by omega, by omega⟩
      · by_cases hhi : insert.hi < c
        · exact .inr ⟨endPos - 1, by omega, by omega, by omega, by omega⟩
        · exact .inl ⟨by omega, by omega⟩
    · rintro (hc | ⟨k, hk, hlt, hc⟩)
      · omega
      · have := hsorted startPos k
        have := hsorted k (endPos - 1)
        grind

/-- The result is the part below, the merged range and the part above, and what follows stays as it is. -/
theorem insertRangeInCanonicalList_spec (hlen : count < list.length) (h : Canonical kMaxCodePoint (list.take count))
    (hx : insert.lo ≤ insert.hi ∧ insert.hi ≤ kMaxCodePoint) :
    let result := insertRangeInCanonicalList list count insert
    Denotes kMaxCodePoint (result.1.take result.2) (fun c => insert.Contains c ∨ Mem c (list.take count)) ∧
      result.1.drop (count + 1) = list.drop (count + 1) ∧ result.1.length = list.length ∧ result.2 ≤ count + 1 := by
  have hvalid : ∀ k < count, (rangeAt list k).lo ≤ (rangeAt list k).hi ∧ (rangeAt list k).hi ≤ kMaxCodePoint :=
    fun k hk => h.valid _ (mem_take_drop (a := 0).2 ⟨k, by omega, by omega, by omega, rfl⟩)
  have hsorted : Increasing list count := by
    intro k l hkl hl
    have := hvalid k (by omega)
    have := hvalid l hl
    have := List.pairwise_iff_getElem.1 h.gaps k l (by grind) (by grind) hkl
    grind [rangeAt]
  have hp := @insertPositions_spec count insert list _ _ hsorted (Nat.le_refl count) (Nat.le_refl _)
    (fun k hk hlt => by omega) fun k hk hlt => by omega
  generalize hpos : insertPositions list insert count count = pos at hp
  obtain ⟨startPos, endPos⟩ := pos
  have hle := hp.start_le
  have hcount := hp.end_le
  obtain ⟨moved, hmoved, heq⟩ := insertRangeInCanonicalList_eq hlen hle hcount hpos
  have hsplit : list.take count = list.take startPos ++
      ((list.drop startPos).take (endPos - startPos) ++ (list.drop endPos).take (count - endPos)) := by
    rw [← List.take_append_drop startPos (list.take count), List.take_take, Nat.min_eq_left (by omega), List.drop_take,
      ← List.take_append_drop (endPos - startPos) ((list.drop startPos).take (count - startPos)), List.take_take,
      Nat.min_eq_left (by omega), List.drop_take, List.drop_drop, Nat.add_sub_cancel' hle,
      Nat.sub_sub_sub_cancel_right hle]
  have hbetween : ∀ k, startPos ≤ k → k < endPos → rangeAt list k ∈ (list.drop startPos).take (endPos - startPos) :=
    fun k hk hlt => mem_take_drop.2 ⟨k, hk, by omega, by omega, rfl⟩
  rw [heq]
  refine ⟨?_, ?_, ?_, ?_⟩
  · rw [take_set_moved hlen hmoved hle hcount, hsplit]
    refine Denotes.merge (hsplit ▸ h) ?_ (fun r hr => ?_) (fun r hr => ?_) ?_ ?_ fun c => ?_
    · have := hvalid startPos
      have := hvalid (endPos - 1)
      have := hsorted startPos (endPos - 1)
      grind [mergedRange]
    · obtain ⟨k, -, hk, -, rfl⟩ := mem_take_drop (a := 0).1 hr
      exact hp.below k (by omega)
    · obtain ⟨k, hk, hlt, -, rfl⟩ := mem_take_drop.1 hr
      exact hp.above k hk (by omega)
    · have := hbetween startPos
      grind [mergedRange]
    · have := hbetween (endPos - 1)
      grind [mergedRange]
    · rw [contains_mergedRange hsorted hp]
      refine or_congr_right ⟨fun ⟨k, hk, hlt, hc⟩ => ⟨_, hbetween k hk hlt, hc⟩, fun ⟨r, hr, hc⟩ => ?_⟩
      obtain ⟨k, hk, hlt, -, rfl⟩ := mem_take_drop.1 hr
      exact ⟨k, hk, by omega, hc⟩
  · refine List.ext_getElem? fun j => ?_
    rw [List.getElem?_drop, List.getElem?_drop, List.getElem?_set_ne (by omega), hmoved.after _ (by omega)]
  · rw [List.length_set, hmoved.length]
  · show startPos + 1 + (count - endPos) ≤ count + 1
    omega

/-- The loop keeps a canonical part for the ranges that it has read. -/
theorem insertLoop_spec {left read numCanonical : Nat} (hlen : read + left = list.length)
    (hnum : numCanonical ≤ read) (h : Canonical kMaxCodePoint (list.take numCanonical))
    (hvalid : ∀ r ∈ list.drop read, r.lo ≤ r.hi ∧ r.hi ≤ kMaxCodePoint) :
    Denotes kMaxCodePoint (insertLoop left read numCanonical list) fun c =>
      Mem c (list.take numCanonical) ∨ Mem c (list.drop read) := by
  induction left generalizing read numCanonical list with
  | zero =>
    rw [List.drop_of_length_le (by omega)]
    exact ⟨h, fun c => by simp [insertLoop]⟩
  | succ left ih =>
    have hlt : read < list.length := by omega
    have hat : rangeAt list read = list[read] := by simp [rangeAt, hlt]
    have hnext : list.drop read = rangeAt list read :: list.drop (read + 1) := by
      rw [hat, List.drop_eq_getElem_cons hlt]
    rw [hnext, List.forall_mem_cons] at hvalid
    obtain ⟨hden, hdrop, hlength, hle⟩ := @insertRangeInCanonicalList_spec _ (rangeAt list read) _
      (Nat.lt_of_le_of_lt hnum hlt) h hvalid.1
    have hrest : (insertRangeInCanonicalList list numCanonical (rangeAt list read)).1.drop (read + 1) =
        list.drop (read + 1) := by
      rw [show read + 1 = numCanonical + 1 + (read - numCanonical) by omega, ← List.drop_drop, hdrop, List.drop_drop]
    rw [insertLoop]
    refine (ih (by omega) (by omega) hden.canonical (by rw [hrest]; exact hvalid.2)).congr fun c => ?_
    rw [hden.mem, hrest, hnext, mem_cons]
    grind

theorem canonicalLength_le {max : Nat} : canonicalLength max ranges ≤ ranges.length := by
  induction ranges generalizing max with
  | nil => exact Nat.le_refl _
  | cons range rest ih =>
    rw [canonicalLength]
    split
    · exact Nat.zero_le _
    · exact Nat.succ_le_succ ih

/-- The scan finds a canonical part. -/
theorem canonical_take (hvalid : ∀ r ∈ range :: ranges, r.lo ≤ r.hi ∧ r.hi ≤ kMaxCodePoint) :
    Canonical kMaxCodePoint (range :: ranges.take (canonicalLength range.hi ranges)) := by
  induction ranges generalizing range with
  | nil => exact Canonical.nil.cons (hvalid range (by simp)) (by simp)
  | cons next rest ih =>
    obtain ⟨hrange, hvalid⟩ := List.forall_mem_cons.1 hvalid
    rw [canonicalLength]
    split
    · exact Canonical.nil.cons hrange (by simp)
    · have hnext := ih hvalid
      refine hnext.cons hrange fun c hc => ?_
      have := hnext.head_le hc
      omega

theorem isCanonical_iff (hvalid : ∀ r ∈ ranges, r.lo ≤ r.hi ∧ r.hi ≤ kMaxCodePoint) :
    isCanonical ranges = true ↔ Canonical kMaxCodePoint ranges := by
  cases ranges with
  | nil => simp [isCanonical, Canonical.nil]
  | cons range rest =>
    rw [isCanonical, decide_eq_true_iff]
    constructor
    · intro h
      have := canonical_take hvalid
      rwa [h, List.take_length] at this
    · intro h
      induction rest generalizing range with
      | nil => rfl
      | cons next rest ih =>
        have := (Canonical.cons_iff.1 h).2.1 next (by simp)
        rw [canonicalLength, if_neg (by omega), ih next (fun r hr => hvalid r (by simp_all)) h.tail, List.length_cons]

theorem canonicalize_denotes (hvalid : ∀ r ∈ ranges, r.lo ≤ r.hi ∧ r.hi ≤ kMaxCodePoint) :
    Denotes kMaxCodePoint (canonicalize ranges) fun c => Mem c ranges := by
  cases ranges with
  | nil => exact Denotes.nil (by simp)
  | cons range rest =>
    have htake := canonical_take hvalid
    have hle := @canonicalLength_le rest range.hi
    rw [canonicalize]
    split
    · rename_i hall
      rw [List.length_cons, Nat.add_right_cancel_iff] at hall
      rw [hall, List.take_length] at htake
      exact ⟨htake, fun c => Iff.rfl⟩
    · rw [← List.take_succ_cons] at htake
      refine (insertLoop_spec ?_ (Nat.le_refl _) htake fun r hr => hvalid r (List.mem_of_mem_drop hr)).congr fun c => ?_
      · rw [List.length_cons]
        omega
      · rw [← mem_append, List.take_append_drop]

/-- Ranges of code points. -/
abbrev CodePointRanges := { ranges : List CharacterRange // ∀ r ∈ ranges, r.lo ≤ r.hi ∧ r.hi ≤ kMaxCodePoint }

/-- Canonical lists of ranges of code points. -/
abbrev CanonicalRanges := { ranges : List CharacterRange // Canonical kMaxCodePoint ranges }

/-- `Canonicalize` gives the canonical list of the same set, and `Intersect` and `Subtract` those of the
intersection and the difference. -/
theorem ranges_spec :
    (∀ ranges : CodePointRanges, Denotes kMaxCodePoint (canonicalize ranges.1) fun c => Mem c ranges.1) ∧
      ∀ lhs rhs : CanonicalRanges,
        Denotes kMaxCodePoint (intersect lhs.1 rhs.1) (fun c => Mem c lhs.1 ∧ Mem c rhs.1) ∧
          Denotes kMaxCodePoint (subtract lhs.1 rhs.1) fun c => Mem c lhs.1 ∧ ¬ Mem c rhs.1 :=
  ⟨fun ranges => canonicalize_denotes ranges.2, fun lhs rhs =>
    ⟨intersect_denotes lhs.2 rhs.2, subtract_denotes lhs.2 rhs.2⟩⟩

end V8Core.Regexp
