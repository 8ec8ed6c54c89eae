import V8Core.Strings.Horspool

/-!
# Boyer-Moore search

`PopulateBoyerMooreTable` finds the longest border of every suffix of the pattern, from
the shortest suffix to the one that starts at `start`. On the way it meets the places
where a suffix occurs again behind another character, and takes the shift to the last of
them. A shift that is still missing is then one to a border of the whole part from `start`
on. The entries are never larger than a shift that agrees with what has matched, so that
no occurrence is skipped.
-/

namespace V8Core.Strings

open Matching

variable {pw sw : CharWidth} {pattern : Text pw} {start : ℤ}
variable {s : SuffixState} {suffix : ℤ}

/-! ## The invariant of the table -/

section Invariant
variable (pattern start)

/-- The suffix table has the longest border of the suffixes from `i` on. -/
def Longests (table : Table ℤ (kBMMaxShift + 1)) (i : ℤ) : Prop :=
  ∀ k, i ≤ k → k ≤ pattern.length → Longest pattern.char pattern.length k (table.val (k - start))

/-- The shift table when the suffixes behind `i` have been compared: an entry is not set, or is the shift to a place not
before `i`, and no larger than the shift to any place behind `i` where the suffix occurs after another character. -/
structure Shifts (table : Table ℤ (kBMMaxShift + 1)) (i : ℤ) : Prop where
  pos : ∀ b, start ≤ b → b ≤ pattern.length → 0 < table.val (b - start)
  value : ∀ b, start ≤ b → b < pattern.length →
    table.val (b - start) = pattern.length - start ∨ table.val (b - start) ≤ b - i
  last : table.val (pattern.length - start) = 1
  shift : ∀ k b, i < k → Border pattern.char pattern.length k b → pattern.char (k - 1) ≠ pattern.char (b - 1) →
    table.val (b - start) ≤ b - k

/-- The borders of the suffix from `i` on that are longer than `suffix` do not extend to the left. -/
structure Candidate (table : Table ℤ (kBMMaxShift + 1)) (i suffix : ℤ) : Prop where
  lt : i < suffix
  le : suffix ≤ pattern.length + 1
  border : suffix ≤ pattern.length → Border pattern.char pattern.length i suffix
  longer : ∀ b, Border pattern.char pattern.length i b → b < suffix →
    pattern.char (i - 1) ≠ pattern.char (b - 1) ∧ table.val (b - start) ≤ b - i

end Invariant

variable {table : Table ℤ (kBMMaxShift + 1)}

section Facts
variable {shiftTable suffixTable : Table ℤ (kBMMaxShift + 1)} {i : ℤ}

/-- The longest border is the first candidate. -/
theorem Longests.candidate (h : Longests pattern start suffixTable i) (hi : i ≤ pattern.length) :
    Candidate pattern start shiftTable i (suffixTable.val (i - start)) := by
  have hlongest := h i (Int.le_refl _) hi
  exact ⟨hlongest.lt, hlongest.le, hlongest.border, fun b hb hlt => absurd (hlongest.least b hb) (by omega)⟩

/-- A candidate that extends to the left gives the next suffix. -/
theorem Shifts.pred (hs : Shifts pattern start shiftTable i) (hc : Candidate pattern start shiftTable i suffix)
    (hext : suffix ≤ pattern.length → pattern.char (i - 1) = pattern.char (suffix - 1)) :
    Shifts pattern start shiftTable (i - 1) := by
  refine ⟨hs.pos, fun b hb hb' => (hs.value b hb hb').imp_right fun h => by omega, hs.last, fun k b hk hb hdiff => ?_⟩
  rcases Int.lt_or_eq_of_le (show i ≤ k by omega) with hlt | rfl
  · exact hs.shift k b hlt hb hdiff
  · rcases Int.lt_or_le b suffix with hlt | hge
    · exact (hc.longer b hb hlt).2
    · -- a border that is shorter than the candidate has been met behind it
      have hle := hb.le
      have heq := hext (by omega)
      rcases Int.lt_or_eq_of_le hge with hlt | rfl
      · have hlt' := hc.lt
        have := hs.shift suffix b hc.lt ((hc.border (by omega)).of_lt hb hlt) (by rwa [← heq])
        omega
      · exact absurd heq hdiff

theorem Longests.pred (h : Longests pattern start suffixTable i) (hi : i ≤ pattern.length)
    (hc : Candidate pattern start shiftTable i suffix)
    (hext : suffix ≤ pattern.length → pattern.char (i - 1) = pattern.char (suffix - 1))
    (htable : ∀ j, table.val j = if j = i - 1 - start then suffix - 1 else suffixTable.val j) :
    Longests pattern start table (i - 1) := by
  intro k hk hkm
  rw [htable]
  rcases Int.lt_or_eq_of_le hk with hlt | rfl
  · rw [if_neg (by omega)]
    exact h k (by omega) hkm
  · rw [if_pos rfl]
    exact Longest.pred hi hc.lt hc.le (fun hle => ⟨hc.border hle, hext hle⟩) fun b hb hlt => (hc.longer b hb hlt).1

variable (shiftTable) in
theorem setIfUnset_spec (length shift : ℤ) {b : ℤ} (hb : start ≤ b) (hb' : b - start ≤ kBMMaxShift) :
    ∃ t, setIfUnset start shiftTable length b shift = some t ∧
      ∀ j, t.val j = if j = b - start ∧ shiftTable.val j = length then shift else shiftTable.val j := by
  unfold setIfUnset
  rw [shiftTable.get_eq (by omega) (by omega)]
  simp only [bind, Option.bind]
  by_cases hunset : shiftTable.val (b - start) = length
  · rw [if_pos hunset]
    obtain ⟨t, hset, ht⟩ := shiftTable.set_eq shift (i := b - start) (by omega) (by omega)
    refine ⟨t, hset, fun j => ?_⟩
    rw [ht]
    by_cases hj : j = b - start
    · rw [if_pos hj, if_pos ⟨hj, by rw [hj]; exact hunset⟩]
    · rw [if_neg hj, if_neg fun h => hj h.1]
  · rw [if_neg hunset]
    refine ⟨shiftTable, rfl, fun j => ?_⟩
    by_cases hj : j = b - start
    · rw [if_neg fun h => hunset (by rw [← hj]; exact h.2)]
    · rw [if_neg fun h => hj h.1]

/-- The shift to `i` for a candidate. -/
theorem Shifts.set (hs : Shifts pattern start shiftTable i) (hlen : 1 < pattern.length - start) (hi : start < i) {b : ℤ}
    (hlt : i < b) (hle : b ≤ pattern.length) {t : Table ℤ (kBMMaxShift + 1)}
    (ht : ∀ j, t.val j = if j = b - start ∧ shiftTable.val j = pattern.length - start then b - i else shiftTable.val j) :
    Shifts pattern start t i ∧ t.val (b - start) ≤ b - i ∧ ∀ j, t.val j ≤ shiftTable.val j := by
  have hle' : ∀ j, t.val j ≤ shiftTable.val j := by
    intro j
    rw [ht]
    split <;> omega
  refine ⟨⟨fun j hj hj' => ?_, fun j hj hj' => ?_, ?_, fun k j hk hj hdiff => ?_⟩, ?_, hle'⟩
  · have := hs.pos j hj hj'
    rw [ht]
    split <;> omega
  · have := hs.value j hj hj'
    rw [ht]
    split <;> omega
  · have := hs.last
    rw [ht, if_neg (by omega)]
    exact this
  · exact Int.le_trans (hle' _) (hs.shift k j hk hj hdiff)
  · rw [ht]
    rcases Int.lt_or_eq_of_le hle with hlt' | rfl
    · have := hs.value b (by omega) hlt'
      split <;> omega
    · rw [hs.last]
      omega

end Facts

/-! ## Finding the suffixes -/

section Find
variable (hlen : 1 < pattern.length - start) (hmax : pattern.length - start ≤ kBMMaxShift) (hstart : 0 ≤ start)

/-- The invariant of the loop. -/
structure Suffixes (pattern : Text pw) (start : ℤ) (s : SuffixState) : Prop where
  low : start ≤ s.i
  high : s.i ≤ pattern.length
  suffix : s.suffix = s.suffixTable.val (s.i - start)
  longests : Longests pattern start s.suffixTable s.i
  shifts : Shifts pattern start s.shiftTable s.i

theorem Suffixes.candidate (h : Suffixes pattern start s) : Candidate pattern start s.shiftTable s.i s.suffix := by
  rw [h.suffix]
  exact h.longests.candidate h.high

include hlen hmax hstart in
/-- The candidates in turn, until one extends to the left. -/
theorem suffixLoop_spec (fuel : Nat) (hi : start < s.i) (hi' : s.i ≤ pattern.length)
    (hl : Longests pattern start s.suffixTable s.i) (hs : Shifts pattern start s.shiftTable s.i)
    (hc : Candidate pattern start s.shiftTable s.i s.suffix) (hfuel : pattern.length + 1 - s.suffix < fuel) :
    ∃ s', suffixLoop pattern start (pattern.length - start) (pattern.char (s.i - 1)) fuel s = some s' ∧ s'.i = s.i ∧
      s'.suffixTable = s.suffixTable ∧ Shifts pattern start s'.shiftTable s.i ∧
      Candidate pattern start s'.shiftTable s.i s'.suffix ∧
      (s'.suffix ≤ pattern.length → pattern.char (s.i - 1) = pattern.char (s'.suffix - 1)) := by
  induction fuel generalizing s with
  | zero =>
    have := hc.le
    omega
  | succ fuel ih =>
    have hlt := hc.lt
    unfold suffixLoop
    by_cases hle : s.suffix ≤ pattern.length
    · rw [if_pos hle, pattern.get_eq (by omega) (by omega)]
      simp only [bind, Option.bind]
      by_cases hext : pattern.char (s.i - 1) = pattern.char (s.suffix - 1)
      · rw [if_neg (not_not.2 hext)]
        exact ⟨s, rfl, rfl, rfl, hs, hc, fun _ => hext⟩
      · rw [if_pos hext]
        obtain ⟨t, hset, ht⟩ := setIfUnset_spec s.shiftTable (pattern.length - start) (s.suffix - s.i)
          (show start ≤ s.suffix by omega) (by omega)
        obtain ⟨hs', hval, hmono⟩ := hs.set hlen hi hlt hle ht
        have hnext := hl s.suffix (by omega) hle
        have hborder := hc.border hle
        have hc' : Candidate pattern start t s.i (s.suffixTable.val (s.suffix - start)) := by
          refine ⟨Int.lt_trans hlt hnext.lt, hnext.le, fun h => hborder.trans (hnext.border h), fun b hb hb' => ?_⟩
          rcases Int.lt_trichotomy b s.suffix with hlt' | rfl | hgt
          · exact ⟨(hc.longer b hb hlt').1, Int.le_trans (hmono _) (hc.longer b hb hlt').2⟩
          · exact ⟨hext, hval⟩
          · -- a border behind the candidate is one of the candidate
            have := hnext.least b (hborder.of_lt hb hgt)
            omega
        have hnextlt := hnext.lt
        obtain ⟨s', hrun, hi1, htable, hs1, hc1, hext1⟩ :=
          ih (s := ⟨s.i, s.suffixTable.val (s.suffix - start), t, s.suffixTable⟩) hi hi' hl hs' hc' (by simp only; omega)
        refine ⟨s', ?_, hi1, htable, hs1, hc1, hext1⟩
        rw [hset]
        rw [s.suffixTable.get_eq (by omega) (by omega)]
        exact hrun
    · rw [if_neg hle]
      exact ⟨s, rfl, rfl, rfl, hs, hc, fun h => absurd h hle⟩

include hmax in
/-- The assignment to the suffix table, when a candidate extends to the left. -/
theorem SuffixState.push_spec (hi : start < s.i) (hi' : s.i ≤ pattern.length)
    (hl : Longests pattern start s.suffixTable s.i) (hs : Shifts pattern start s.shiftTable s.i)
    (hc : Candidate pattern start s.shiftTable s.i s.suffix)
    (hext : s.suffix ≤ pattern.length → pattern.char (s.i - 1) = pattern.char (s.suffix - 1)) :
    ∃ s', s.push start = some s' ∧ s'.i = s.i - 1 ∧ Suffixes pattern start s' := by
  obtain ⟨t, hset, ht⟩ := s.suffixTable.set_eq (s.suffix - 1) (i := s.i - 1 - start) (by omega) (by omega)
  refine ⟨{ s with i := s.i - 1, suffix := s.suffix - 1, suffixTable := t }, ?_, rfl, ?_⟩
  · simp only [SuffixState.push, hset, bind, Option.bind]
    rfl
  · refine ⟨by simp only; omega, by simp only; omega, ?_, hl.pred hi' hc hext ht, hs.pred hc hext⟩
    rw [ht, if_pos rfl]

/-- Where the longest border is empty, it is the only one. -/
theorem Longests.candidate_of_empty {suffixTable shiftTable : Table ℤ (kBMMaxShift + 1)} {i : ℤ}
    (h : Longests pattern start suffixTable i) (hi : i < pattern.length) (hempty : suffixTable.val (i - start) = pattern.length)
    (hs : Shifts pattern start shiftTable i) (hdiff : pattern.char (i - 1) ≠ pattern.char (pattern.length - 1)) :
    Candidate pattern start shiftTable i (pattern.length + 1) := by
  refine ⟨by omega, Int.le_refl _, fun hle => by omega, fun b hb hlt => ?_⟩
  have hleast := (h i (Int.le_refl _) (by omega)).least b hb
  obtain rfl : b = pattern.length := by omega
  refine ⟨hdiff, ?_⟩
  rw [hs.last]
  omega

include hlen hmax hstart in
theorem lastCharLoop_spec (fuel : Nat) (h : Suffixes pattern start s) (hsuffix : s.suffix = pattern.length)
    (hfuel : s.i - start < fuel) :
    ∃ s', lastCharLoop pattern start (pattern.length - start) (pattern.char (pattern.length - 1)) fuel s = some s' ∧
      s'.i ≤ s.i ∧ s'.suffix = pattern.length ∧ Suffixes pattern start s' ∧
      (start < s'.i → pattern.char (s'.i - 1) = pattern.char (pattern.length - 1)) := by
  induction fuel generalizing s with
  | zero =>
    have := h.low
    omega
  | succ fuel ih =>
    unfold lastCharLoop
    have hempty := h.suffix.symm.trans hsuffix
    have hlt : s.i < pattern.length := by
      have := (h.longests s.i (Int.le_refl _) h.high).lt
      omega
    by_cases hi : s.i > start
    · rw [if_pos hi, pattern.get_eq (by omega) (by omega)]
      simp only [bind, Option.bind]
      by_cases hlast : pattern.char (s.i - 1) = pattern.char (pattern.length - 1)
      · rw [if_neg (not_not.2 hlast)]
        exact ⟨s, rfl, Int.le_refl _, hsuffix, h, fun _ => hlast⟩
      · rw [if_pos hlast]
        obtain ⟨t, hset, ht⟩ := setIfUnset_spec s.shiftTable (pattern.length - start) (pattern.length - s.i)
          (show start ≤ pattern.length by omega) (by omega)
        obtain ⟨hs, _⟩ := h.shifts.set hlen hi hlt (Int.le_refl _) ht
        have hc := h.longests.candidate_of_empty hlt hempty hs hlast
        obtain ⟨g, hpush, hg⟩ := s.suffixTable.set_eq pattern.length (i := s.i - 1 - start) (by omega) (by omega)
        have hl : Longests pattern start g (s.i - 1) :=
          h.longests.pred h.high hc (fun hle => by omega) (by simpa using hg)
        obtain ⟨s', hrun, hle, hsuffix', h', hlast'⟩ := ih (s := ⟨s.i - 1, s.suffix, t, g⟩)
          ⟨by simp only; omega, by simp only; omega, by simp only; rw [hg, if_pos rfl, hsuffix], hl,
            hs.pred hc fun hle => by omega⟩ hsuffix (by simp only; omega)
        refine ⟨s', ?_, by simp only at hle; omega, hsuffix', h', hlast'⟩
        rw [hset]
        rw [hpush]
        exact hrun
    · rw [if_neg hi]
      exact ⟨s, rfl, Int.le_refl _, hsuffix, h, fun h' => absurd h' hi⟩

include hlen hmax hstart in
theorem findSuffixesLoop_spec (fuel : Nat) (h : Suffixes pattern start s) (hfuel : s.i - start < fuel) :
    ∃ s', findSuffixesLoop pattern start (pattern.length - start) (pattern.char (pattern.length - 1)) fuel s = some s' ∧
      s'.i = start ∧ Suffixes pattern start s' := by
  induction fuel generalizing s with
  | zero =>
    have := h.low
    omega
  | succ fuel ih =>
    have hlow := h.low
    have hhigh := h.high
    unfold findSuffixesLoop
    by_cases hi : s.i > start
    · have hlt := h.candidate.lt
      obtain ⟨s1, hrun1, hi1, htable1, hs1, hc1, hext1⟩ := suffixLoop_spec hlen hmax hstart
        ((pattern.length - start).toNat + 2) hi hhigh h.longests h.shifts h.candidate (by omega)
      rw [← hi1] at hs1 hc1 hext1
      obtain ⟨s2, hpush, hi2, h2⟩ := s1.push_spec hmax (by omega) (by omega) (by rw [hi1, htable1]; exact h.longests) hs1 hc1 hext1
      rw [if_pos hi, pattern.get_eq (by omega) (by omega)]
      simp only [bind, Option.bind, hrun1, hpush]
      by_cases hempty : s2.suffix = pattern.length
      · obtain ⟨s3, hrun3, hi3, hsuffix3, h3, hlast3⟩ := lastCharLoop_spec hlen hmax hstart
          ((pattern.length - start).toNat + 1) h2 hempty (by omega)
        simp only [if_pos hempty, hrun3]
        by_cases hmore : s3.i > start
        · obtain ⟨s4, hpush4, hi4, h4⟩ := s3.push_spec hmax hmore h3.high h3.longests h3.shifts h3.candidate
            (fun _ => by rw [hsuffix3]; exact hlast3 hmore)
          simp only [if_pos hmore, hpush4]
          exact ih h4 (by omega)
        · rw [if_neg hmore]
          exact ih h3 (by omega)
      · rw [if_neg hempty]
        exact ih h2 (by omega)
    · rw [if_neg hi]
      exact ⟨s, rfl, by omega, h⟩

end Find

/-! ## Building the shift table -/

/-- What the search needs of the table: no entry is larger than a shift that agrees with what has matched. -/
def GoodSuffix (pattern : Text pw) (start : ℤ) (table : Table ℤ (kBMMaxShift + 1)) : Prop :=
  ∀ i, start < i → i < pattern.length → 0 < table.val (i - start) ∧
    ∀ s, Agrees pattern.char start pattern.length i s → table.val (i - start) ≤ s

section Build
variable {shiftTable suffixTable : Table ℤ (kBMMaxShift + 1)}

/-- An entry that no suffix has set is at most the shift to a border of the whole part. -/
structure Built (pattern : Text pw) (start : ℤ) (old new : ℤ) (i : ℤ) : Prop where
  pos : 0 < new
  le : new ≤ old
  border : old = pattern.length - start → ∀ b, Border pattern.char pattern.length start b → i ≤ b → new ≤ b - start

theorem goodSuffix_of_built (hs : Shifts pattern start shiftTable start)
    (h : ∀ i, start ≤ i → i < pattern.length → Built pattern start (shiftTable.val (i - start)) (table.val (i - start)) i) :
    GoodSuffix pattern start table := by
  intro i hi hi'
  have hbuilt := h i (by omega) hi'
  refine ⟨hbuilt.pos, fun s hs' => ?_⟩
  have hle := hbuilt.le
  have hpos := hs'.pos
  have hvalue := hs.value i (by omega) hi'
  by_cases hinside : start < i - s
  · -- the suffix occurs at the shifted place, after another character
    have hborder : Border pattern.char pattern.length (i - s) i := ⟨by omega, by omega, fun k hk hk' => by
      rw [show k - (i - (i - s)) = k - s by omega]
      exact hs'.suffix k hk hk' (by omega)⟩
    have := hs.shift (i - s) i hinside hborder (by
      rw [show i - s - 1 = i - 1 - s by omega]
      exact hs'.before (by omega))
    omega
  · by_cases hlong : pattern.length - start ≤ s
    · omega
    · have hborder : Border pattern.char pattern.length start (start + s) := ⟨by omega, by omega, fun k hk hk' => by
        rw [show k - (start + s - start) = k - s by omega]
        exact hs'.suffix k (by omega) hk' (by omega)⟩
      rcases hvalue with hunset | hset
      · have := hbuilt.border hunset (start + s) hborder (by omega)
        omega
      · omega

/-- The border that is used for the entry `i`. -/
structure NextBorder (pattern : Text pw) (start i suffix : ℤ) : Prop where
  le : i ≤ suffix
  border : Border pattern.char pattern.length start suffix
  least : ∀ b, Border pattern.char pattern.length start b → i ≤ b → suffix ≤ b

theorem buildShiftLoop_spec (hmax : pattern.length - start ≤ kBMMaxShift)
    (hl : Longests pattern start suffixTable start) (n : Nat) {i : ℤ} (hi : start ≤ i)
    (hn : i + n = pattern.length + 1) (hnext : i ≤ pattern.length → NextBorder pattern start i suffix)
    (hs : ∀ k, start ≤ k → k ≤ pattern.length → 0 < table.val (k - start) ∧ table.val (k - start) ≤ pattern.length - start) :
    ∃ t, buildShiftLoop start (pattern.length - start) suffixTable n i suffix table = some t ∧
      (∀ k, start ≤ k → k < i → t.val (k - start) = table.val (k - start)) ∧
      ∀ k, i ≤ k → k ≤ pattern.length → Built pattern start (table.val (k - start)) (t.val (k - start)) k := by
  induction n generalizing i suffix table with
  | zero => exact ⟨table, rfl, fun k hk hk' => rfl, fun k hk hk' => by omega⟩
  | succ n ih =>
    have hnext' := hnext (by omega)
    have hlt := hnext'.border.lt
    have hle := hnext'.border.le
    have hinext := hnext'.le
    obtain ⟨t1, hset, ht1⟩ := setIfUnset_spec table (pattern.length - start) (suffix - start) hi (by omega)
    have hsuffix : ∃ suffix', nextSuffix start suffixTable i suffix = some suffix' ∧
        (i + 1 ≤ pattern.length → NextBorder pattern start (i + 1) suffix') := by
      unfold nextSuffix
      by_cases heq : i = suffix
      · rw [if_pos heq, suffixTable.get_eq (by omega) (by omega)]
        refine ⟨_, rfl, fun hlast => ?_⟩
        have hlongest := hl suffix (by omega) hle
        have hlongestlt := hlongest.lt
        have hle' : suffixTable.val (suffix - start) ≤ pattern.length := by
          by_contra hgt
          have := hlongest.past (by omega)
          omega
        exact ⟨by omega, hnext'.border.trans (hlongest.border hle'), fun b hb hib =>
          hlongest.least b (hnext'.border.of_lt hb (by omega))⟩
      · rw [if_neg heq]
        exact ⟨suffix, rfl, fun _ => ⟨by omega, hnext'.border, fun b hb hib => hnext'.least b hb (by omega)⟩⟩
    obtain ⟨suffix', hsuffix', hnext1⟩ := hsuffix
    have hs1 : ∀ k, start ≤ k → k ≤ pattern.length → 0 < t1.val (k - start) ∧ t1.val (k - start) ≤ pattern.length - start := by
      intro k hk hk'
      have := hs k hk hk'
      rw [ht1]
      split <;> omega
    obtain ⟨t, hrun, hbefore, hbuilt⟩ := ih (by omega) (by omega) hnext1 hs1
    refine ⟨t, ?_, fun k hk hk' => ?_, fun k hk hk' => ?_⟩
    · simp only [buildShiftLoop, hset, bind, hsuffix']
      exact hrun
    · rw [hbefore k hk (by omega), ht1, if_neg (by omega)]
    · rcases Int.lt_or_eq_of_le hk with hlt' | rfl
      · have := hbuilt k (by omega) hk'
        rwa [ht1, if_neg (by omega)] at this
      · have hk1 := hs1 i hi hk'
        have hk0 := hs i hi hk'
        rw [hbefore i hi (by omega)]
        rw [ht1] at hk1 ⊢
        by_cases hunset : table.val (i - start) = pattern.length - start
        · exact ⟨hk1.1, by omega, fun _ b hb hib => by have := hnext'.least b hb hib; omega⟩
        · rw [if_neg fun h => hunset h.2]
          exact ⟨hk0.1, Int.le_refl _, fun h => absurd h hunset⟩

end Build

section Populate
variable (hlen : 1 < pattern.length - start) (hmax : pattern.length - start ≤ kBMMaxShift) (hstart : 0 ≤ start)

include hlen in
/-- The tables before the suffixes are found. -/
theorem suffixes_start {shiftTable suffixTable : Table ℤ (kBMMaxShift + 1)}
    (hshift : ∀ b, start ≤ b → b < pattern.length → shiftTable.val (b - start) = pattern.length - start)
    (hlast : shiftTable.val (pattern.length - start) = 1)
    (hsuffix : suffixTable.val (pattern.length - start) = pattern.length + 1) :
    Suffixes pattern start ⟨pattern.length, pattern.length + 1, shiftTable, suffixTable⟩ := by
  refine ⟨by simp only; omega, Int.le_refl _, hsuffix.symm, fun k hk hk' => ?_, fun b hb hb' => ?_,
    fun b hb hb' => .inl (hshift b hb hb'), hlast, fun k b hk hb => ?_⟩
  · obtain rfl : k = pattern.length := Int.le_antisymm hk' hk
    rw [hsuffix]
    refine ⟨by omega, fun h => by omega, fun _ => ⟨rfl, rfl⟩, fun b hb => ?_⟩
    have hlt := hb.lt
    have hle := hb.le
    omega
  · rcases Int.lt_or_eq_of_le hb' with hlt | rfl
    · rw [hshift b hb hlt]
      omega
    · rw [hlast]
      omega
  · have hlt := hb.lt
    have hle := hb.le
    simp only at hk
    omega

include hlen hmax hstart in
theorem populateBoyerMooreTable_spec (isolate : Isolate) :
    ∃ isolate', populateBoyerMooreTable pattern start isolate = some isolate' ∧
      isolate'.badCharShiftTable = isolate.badCharShiftTable ∧ GoodSuffix pattern start isolate'.goodSuffixShiftTable := by
  obtain ⟨t0, hfill, ht0⟩ := fillLoop_spec (pattern.length - start) (pattern.length - start).toNat (Int.le_refl 0)
    isolate.goodSuffixShiftTable (by omega)
  obtain ⟨t1, hset1, ht1⟩ := t0.set_eq 1 (i := pattern.length - start) (by omega) (by omega)
  obtain ⟨g1, hset2, hg1⟩ := isolate.suffixTable.set_eq (pattern.length + 1) (i := pattern.length - start) (by omega) (by omega)
  have hfirst : Suffixes pattern start ⟨pattern.length, pattern.length + 1, t1, g1⟩ := suffixes_start hlen
    (fun b hb hb' => by rw [ht1, if_neg (by omega), ht0, if_pos (by omega)]) (by rw [ht1, if_pos rfl]) (by rw [hg1, if_pos rfl])
  obtain ⟨s, hfind, hi, hs⟩ := findSuffixesLoop_spec hlen hmax hstart ((pattern.length - start).toNat + 1) hfirst
    (by simp only; omega)
  have hlongests := hs.longests
  have hshifts := hs.shifts
  have hsuffix := hs.suffix
  rw [hi] at hlongests hshifts hsuffix
  have hlongest := hlongests start (Int.le_refl _) (by omega)
  rw [← hsuffix] at hlongest
  have hvalues : ∀ k, start ≤ k → k ≤ pattern.length →
      0 < s.shiftTable.val (k - start) ∧ s.shiftTable.val (k - start) ≤ pattern.length - start := by
    intro k hk hk'
    refine ⟨hshifts.pos k hk hk', ?_⟩
    rcases Int.lt_or_eq_of_le hk' with hlt | rfl
    · have := hshifts.value k hk hlt
      omega
    · rw [hshifts.last]
      omega
  have hbuild : ∃ t, buildShiftTable pattern start (pattern.length - start) s = some t ∧
      ∀ i, start ≤ i → i < pattern.length → Built pattern start (s.shiftTable.val (i - start)) (t.val (i - start)) i := by
    unfold buildShiftTable
    by_cases hborder : s.suffix < pattern.length
    · rw [if_pos hborder]
      obtain ⟨t, hrun, _, hbuilt⟩ := buildShiftLoop_spec hmax hlongests ((pattern.length - start).toNat + 1) (Int.le_refl start)
        (by omega) (fun _ => ⟨Int.le_of_lt hlongest.lt, hlongest.border (by omega), fun b hb _ => hlongest.least b hb⟩) hvalues
      exact ⟨t, hrun, fun i hi hi' => hbuilt i hi (by omega)⟩
    · -- without a border of the whole part the missing shifts stay as they are
      rw [if_neg hborder]
      refine ⟨s.shiftTable, rfl, fun i hi hi' => ⟨(hvalues i hi (by omega)).1, Int.le_refl _, fun hunset b hb _ => ?_⟩⟩
      have := hlongest.least b hb
      omega
  obtain ⟨t, hrun, hbuilt⟩ := hbuild
  refine ⟨{ isolate with goodSuffixShiftTable := t, suffixTable := s.suffixTable }, ?_, rfl, goodSuffix_of_built hshifts hbuilt⟩
  unfold populateBoyerMooreTable
  simp only [hfill, bind, Option.bind, hset1, hset2]
  rw [if_neg (by omega), pattern.get_eq (by omega) (by omega)]
  simp only [hfind, hrun]
  rfl

end Populate

/-! ## The search -/

section Search
variable {subject : Text sw} {table : Table ℤ kUC16AlphabetSize} {goodSuffixShift : Table ℤ (kBMMaxShift + 1)}

theorem boyerMooreLoop_spec (subject : Text sw) (hbad : BadChar sw pattern table)
    (hgood : GoodSuffix pattern start goodSuffixShift) (hlen : 0 < pattern.length)
    (hmax : pattern.length - start ≤ kBMMaxShift) (hstart : 0 ≤ start)
    (hfits : pattern.char (pattern.length - 1) < 256 ^ sw.size) (fuel : Nat) {index : ℤ} (hindex : 0 ≤ index) (hpos : 0 < fuel)
    (hfuel : subject.length - pattern.length - index + 1 < fuel) :
    ∃ r, boyerMooreLoop pattern subject table goodSuffixShift start (pattern.char (pattern.length - 1)) fuel index = some r ∧
      FirstFrom (Occurs pattern subject) index r := by
  induction fuel generalizing index with
  | zero => omega
  | succ fuel ih =>
    unfold boyerMooreLoop
    by_cases hle : index ≤ subject.length - pattern.length
    · rw [if_pos hle]
      obtain ⟨r, hskip, hr⟩ := boyerMooreSkipLoop_spec subject hbad hlen (fuel + 1) hindex hle (by omega)
      rw [hskip]
      cases r with
      | none => exact ⟨-1, rfl, .none hr⟩
      | some i =>
        obtain ⟨hi, hile, hchar, hbefore⟩ := hr
        obtain ⟨j, hmatch, hjlow, hjhigh, hall, hmis⟩ := matchLoop_spec pattern subject (show 0 ≤ i by omega) (by omega)
          (pattern.length.toNat + 1) (j := pattern.length - 1) (by omega) (by omega) (by omega)
        simp only [bind, Option.bind, hmatch]
        by_cases hj : j < 0
        · rw [if_pos hj]
          exact ⟨i, rfl, .skip hi hbefore (.here ⟨by omega, by omega, fun k hk hk' => hall k (by omega) (by omega)⟩)⟩
        · rw [if_neg hj]
          have hmis' := hmis (by omega)
          have hnot := not_occurs_of_mismatch (by omega) (by omega) hmis'
          -- a shift that skips no occurrence
          have hshift : ∀ shift, 0 < shift → NoneIn (Occurs pattern subject) i (i + shift) →
              ∃ r, boyerMooreLoop pattern subject table goodSuffixShift start (pattern.char (pattern.length - 1)) fuel
                (i + shift) = some r ∧ FirstFrom (Occurs pattern subject) index r := by
            intro shift hpos' hskip
            obtain ⟨r, hrun, hr⟩ := @ih (i + shift) (by omega) (by omega) (by omega)
            exact ⟨r, hrun, .skip (by omega) (hbefore.trans hskip) hr⟩
          by_cases hjs : j < start
          · obtain ⟨occ, hocc, hlow, hhigh, hskip⟩ := hbad.skip (show 0 ≤ i by omega) (j := pattern.length - 1) (by omega)
              (by omega) (by omega) hnot
            rw [hchar] at hocc
            rw [if_pos hjs, castChar, Nat.mod_eq_of_lt hfits, hocc]
            exact hshift _ (by omega) hskip
          · obtain ⟨occ, hocc, hlow, hhigh, hskip⟩ := hbad.skip (show 0 ≤ i by omega) (j := j) (by omega) (by omega)
              (by omega) hnot
            have hjlast : j ≠ pattern.length - 1 := by
              rintro rfl
              exact hmis' hchar
            obtain ⟨hgpos, hagrees⟩ := hgood (j + 1) (by omega) (by omega)
            rw [if_neg hjs, goodSuffixShift.get_eq (by omega) (by omega), subject.get_eq (by omega) (by omega)]
            simp only [hocc]
            refine hshift _ (by split <;> omega) fun k hk hk' hoccurs => ?_
            rcases Int.lt_or_le k (i + (j - occ)) with hlt | hge
            · exact hskip k hk hlt hoccurs
            · rcases Int.lt_or_eq_of_le hk with hlt' | rfl
              · have := hagrees (k - i) (agrees_of_occursAt hstart (by omega) (fun m hm hm' => hall m hm (by omega)) hmis' (by omega)
                  (by rw [show i + (k - i) = k by omega]; exact hoccurs))
                split at hk' <;> omega
              · exact hnot hoccurs
    · rw [if_neg hle]
      exact ⟨-1, rfl, .none fun k hk => not_occurs_of_lt (by omega)⟩

theorem boyerMooreSearch_spec (subject : Text sw) (hbad : BadChar sw pattern table)
    (hgood : GoodSuffix pattern start goodSuffixShift) (hlen : 0 < pattern.length)
    (hmax : pattern.length - start ≤ kBMMaxShift) (hstart : 0 ≤ start)
    (hfits : pattern.char (pattern.length - 1) < 256 ^ sw.size) {index : ℤ} (hindex : 0 ≤ index) :
    ∃ r, boyerMooreSearch pattern subject table goodSuffixShift start index = some r ∧
      FirstFrom (Occurs pattern subject) index r := by
  unfold boyerMooreSearch
  rw [pattern.get_eq (by omega) (by omega)]
  exact boyerMooreLoop_spec subject hbad hgood hlen hmax hstart hfits _ hindex (by omega) (by omega)

end Search

end V8Core.Strings
