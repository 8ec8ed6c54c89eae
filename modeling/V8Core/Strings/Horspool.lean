import V8Core.Strings.LinearSearch

/-!
# Boyer-Moore-Horspool search

The table has, for each class of characters, the last place in the pattern where a
character of the class stands, without the last character and for the characters from
`start` on. A shift to that place skips no occurrence.
-/

namespace V8Core.Strings

open Matching

variable {pw sw : CharWidth} {pattern : Text pw}
variable {i j index : ℤ}

/-! ## The table -/

/-- The entry under which a character of the pattern is registered. -/
def bucket (pw : CharWidth) (c : Nat) : Nat := if pw.size = 1 then c else c % alphabetSize pw

theorem alphabetSize_eq (w : CharWidth) : alphabetSize w = kUC16AlphabetSize := by cases w <;> rfl

theorem bucket_lt {c : Nat} (hc : c < 256 ^ pw.size) : bucket pw c < kUC16AlphabetSize := by
  cases pw with
  | oneByte => exact hc
  | twoByte => exact Nat.mod_lt _ (by decide)

/-- The entries after the characters before `i` are registered. -/
def Registered (pattern : Text pw) (start i : ℤ) (table : Table ℤ kUC16AlphabetSize) : Prop :=
  ∀ b : Nat, b < kUC16AlphabetSize → start - 1 ≤ table.val b ∧ table.val b < i ∧
    ∀ j, table.val b < j → j < i → bucket pw (pattern.char j) ≠ b

theorem fillLoop_spec {size : Nat} (x : ℤ) (n : Nat) (hi : 0 ≤ i) (table : Table ℤ size) (hle : i + n ≤ size) :
    ∃ table', fillLoop x n i table = some table' ∧
      ∀ k, table'.val k = if i ≤ k ∧ k < i + n then x else table.val k := by
  induction n generalizing i table with
  | zero => exact ⟨table, rfl, fun k => by rw [if_neg (by omega)]⟩
  | succ n ih =>
    obtain ⟨t, hset, ht⟩ := table.set_eq x hi (by omega)
    obtain ⟨t', hrun, ht'⟩ := ih (i := i + 1) (by omega) t (by omega)
    refine ⟨t', by simp only [fillLoop, hset, bind]; exact hrun, fun k => ?_⟩
    rw [ht', ht]
    by_cases hk : k = i
    · rw [if_neg (by omega), if_pos hk, if_pos (by omega)]
    · by_cases hk' : i + 1 ≤ k ∧ k < i + 1 + n
      · rw [if_pos hk', if_pos (by omega)]
      · rw [if_neg hk', if_neg hk, if_neg (by omega)]

theorem registerLoop_spec (n : Nat) {start : ℤ} (hi : 0 ≤ i) (hstart : start ≤ i) {table : Table ℤ kUC16AlphabetSize}
    (hle : i + n ≤ pattern.length) (h : Registered pattern start i table) :
    ∃ table', registerLoop pattern n i table = some table' ∧ Registered pattern start (i + n) table' := by
  induction n generalizing i table with
  | zero => exact ⟨table, rfl, by simpa using h⟩
  | succ n ih =>
    have hbucket := bucket_lt (pattern.char_lt hi (by omega))
    obtain ⟨t, hset, ht⟩ := table.set_eq i (i := (bucket pw (pattern.char i) : ℤ)) (by omega) (by omega)
    have ht' : Registered pattern start (i + 1) t := by
      intro b hb
      obtain ⟨hlow, hlt, hnone⟩ := h b hb
      rw [ht]
      by_cases heq : (b : ℤ) = bucket pw (pattern.char i)
      · rw [if_pos heq]
        exact ⟨by omega, by omega, fun j hj hj' => by omega⟩
      · rw [if_neg heq]
        refine ⟨hlow, by omega, fun j hj hj' hb' => ?_⟩
        rcases Int.lt_or_eq_of_le (Int.le_of_lt_add_one hj') with hlt' | rfl
        · exact hnone j hj hlt' hb'
        · omega
    obtain ⟨table', hrun, htable'⟩ := ih (by omega) (by omega) (by omega) ht'
    refine ⟨table', ?_, ?_⟩
    · rw [registerLoop, pattern.get_eq hi (by omega)]
      simp only [bind, Option.bind]
      rw [show ((if pw.size = 1 then pattern.char i else pattern.char i % alphabetSize pw : Nat) : ℤ) =
        bucket pw (pattern.char i) from rfl, hset]
      exact hrun
    · rwa [show i + (n + 1 : Nat) = i + 1 + n by omega]

/-- What the searches need of the table: the last place before the end where the character may stand. -/
def BadChar (sw : CharWidth) (pattern : Text pw) (table : Table ℤ kUC16AlphabetSize) : Prop :=
  ∀ c < 256 ^ sw.size, ∃ occ, charOccurrence pw sw table c = some occ ∧ -1 ≤ occ ∧ occ < pattern.length - 1 ∧
    ∀ j, occ < j → j < pattern.length - 1 → pattern.char j ≠ c

theorem Registered.badChar (hlen : 0 < pattern.length) {start : ℤ} (hstart : 0 ≤ start) {table : Table ℤ kUC16AlphabetSize}
    (h : Registered pattern start (pattern.length - 1) table) : BadChar sw pattern table := by
  -- an entry that is reached by a character stands for all places of the character
  have hentry : ∀ c b : Nat, b < kUC16AlphabetSize → (∀ c', c' < 256 ^ pw.size → c' = c → bucket pw c' = b) →
      table.get b = some (table.val b) ∧ -1 ≤ table.val b ∧ table.val b < pattern.length - 1 ∧
        ∀ j, table.val b < j → j < pattern.length - 1 → pattern.char j ≠ c := by
    intro c b hb hbucket
    obtain ⟨hlow, hlt, hnone⟩ := h b hb
    exact ⟨table.get_eq (by omega) (by omega), by omega, hlt, fun j hj hj' hc =>
      hnone j hj hj' (hbucket _ (pattern.char_lt (by omega) (by omega)) hc)⟩
  intro c hc
  unfold charOccurrence
  by_cases hs : sw.size = 1
  · rw [if_pos hs]
    rw [hs] at hc
    refine ⟨_, hentry c c hc fun c' hc' heq => ?_⟩
    unfold bucket
    split
    · exact heq
    · rw [heq, alphabetSize_eq]
      exact Nat.mod_eq_of_lt hc
  · rw [if_neg hs]
    by_cases hp : pw.size = 1
    · rw [if_pos hp]
      by_cases hexceeds : exceedsOneByte c = true
      · rw [if_pos hexceeds]
        refine ⟨-1, rfl, Int.le_refl _, by omega, fun j hj hj' heq => ?_⟩
        have := pattern.char_lt (i := j) (by omega) (by omega)
        simp only [exceedsOneByte, decide_eq_true_eq] at hexceeds
        rw [hp] at this
        omega
      · rw [if_neg hexceeds]
        refine ⟨_, hentry c c (by simp [exceedsOneByte] at hexceeds; unfold kUC16AlphabetSize; omega) fun c' hc' heq => ?_⟩
        rw [bucket, if_pos hp, heq]
    · rw [if_neg hp]
      refine ⟨_, hentry c (c % kUC16AlphabetSize) (Nat.mod_lt _ (by decide)) fun c' hc' heq => ?_⟩
      rw [bucket, if_neg hp, heq, alphabetSize_eq]

variable (sw) in
theorem populateBoyerMooreHorspoolTable_spec (hlen : 0 < pattern.length) {start : ℤ} (hstart : 0 ≤ start)
    (hlt : start < pattern.length) (isolate : Isolate) :
    ∃ isolate', populateBoyerMooreHorspoolTable pattern start isolate = some isolate' ∧
      BadChar sw pattern isolate'.badCharShiftTable := by
  obtain ⟨t, hfill, ht⟩ := fillLoop_spec (start - 1) (alphabetSize pw) (Int.le_refl 0) isolate.badCharShiftTable
    (by rw [alphabetSize_eq]; omega)
  have hfilled : Registered pattern start start t := by
    intro b hb
    rw [ht, if_pos (by rw [alphabetSize_eq]; omega)]
    exact ⟨Int.le_refl _, by omega, fun j hj hj' => by omega⟩
  obtain ⟨t', hregister, ht'⟩ := registerLoop_spec (pattern.length - 1 - start).toNat hstart (Int.le_refl _) (by omega) hfilled
  rw [show start + ((pattern.length - 1 - start).toNat : ℤ) = pattern.length - 1 by omega] at ht'
  refine ⟨{ isolate with badCharShiftTable := t' }, ?_, ht'.badChar hlen hstart⟩
  have hempty : (if start = 0 then -1 else start - 1) = start - 1 := by
    split <;> omega
  unfold populateBoyerMooreHorspoolTable
  simp only [hempty, hfill, bind, Option.bind, hregister]
  rfl

/-! ## The loops -/

section Loops
variable {subject : Text sw} {table : Table ℤ kUC16AlphabetSize}

/-- A shift by the bad character at `j`, which is not where the pattern occurs. -/
theorem BadChar.skip (h : BadChar sw pattern table) (hindex : 0 ≤ index) (hj : 0 ≤ j) (hjm : j < pattern.length)
    (hle : index + pattern.length ≤ subject.length) (hnot : ¬ Occurs pattern subject index) :
    ∃ occ, charOccurrence pw sw table (subject.char (index + j)) = some occ ∧ -1 ≤ occ ∧ occ < pattern.length - 1 ∧
      NoneIn (Occurs pattern subject) index (index + (j - occ)) := by
  obtain ⟨occ, hocc, hlow, hhigh, hnone⟩ := h _ (subject.char_lt (i := index + j) (by omega) (by omega))
  refine ⟨occ, hocc, hlow, hhigh, fun k hk hk' => ?_⟩
  rcases Int.lt_or_eq_of_le hk with hlt | rfl
  · have := not_occursAt_of_badChar (n := subject.length) hlow hjm (fun j' hj' hj'' => hnone j' hj' (by omega))
      (s := k - index) (by omega) (by omega)
    rwa [show index + (k - index) = k by omega] at this
  · exact hnot

variable (subject) in
theorem boyerMooreSkipLoop_spec (hbad : BadChar sw pattern table) (hlen : 0 < pattern.length) (fuel : Nat)
    (hindex : 0 ≤ index) (hle : index ≤ subject.length - pattern.length)
    (hfuel : subject.length - pattern.length - index + 1 < fuel) :
    ∃ r, boyerMooreSkipLoop pattern subject table (pattern.char (pattern.length - 1)) fuel index = some r ∧
      match r with
      | none => ∀ k, index ≤ k → ¬ Occurs pattern subject k
      | some i => index ≤ i ∧ i ≤ subject.length - pattern.length ∧
          subject.char (i + (pattern.length - 1)) = pattern.char (pattern.length - 1) ∧
          NoneIn (Occurs pattern subject) index i := by
  induction fuel generalizing index with
  | zero => omega
  | succ fuel ih =>
    unfold boyerMooreSkipLoop
    simp only [subject.get_eq (i := index + (pattern.length - 1)) (by omega) (by omega), bind, Option.bind]
    by_cases hlast : pattern.char (pattern.length - 1) = subject.char (index + (pattern.length - 1))
    · rw [if_neg (not_not.2 hlast)]
      exact ⟨some index, rfl, Int.le_refl _, hle, hlast.symm, fun k hk hk' => by omega⟩
    · have hnot : ¬ Occurs pattern subject index := fun h => hlast (h.eq (pattern.length - 1) (by omega) (by omega)).symm
      obtain ⟨occ, hocc, hlow, hhigh, hskip⟩ := hbad.skip hindex (j := pattern.length - 1) (by omega) (by omega) (by omega) hnot
      rw [if_pos hlast, hocc]
      simp only
      by_cases hpast : index + (pattern.length - 1 - occ) > subject.length - pattern.length
      · rw [if_pos hpast]
        exact ⟨none, rfl, hskip.all fun k hk => not_occurs_of_lt (by omega)⟩
      · rw [if_neg hpast]
        obtain ⟨r, hrun, hr⟩ := @ih (index + (pattern.length - 1 - occ)) (by omega) (by omega) (by omega)
        refine ⟨r, hrun, ?_⟩
        cases r with
        | none => exact hskip.all hr
        | some i =>
          obtain ⟨hi, hile, hchar, hskip'⟩ := hr
          exact ⟨by omega, hile, hchar, hskip.trans hskip'⟩

/-- Counting the badness does not change where the loop stops. -/
theorem horspoolSkipLoop_eq (lastChar : Nat) (fuel : Nat) (index badness : ℤ) :
    (horspoolSkipLoop pattern subject table lastChar fuel index badness).map (Option.map Prod.fst) =
      boyerMooreSkipLoop pattern subject table lastChar fuel index := by
  induction fuel generalizing index badness with
  | zero => rfl
  | succ fuel ih =>
    unfold horspoolSkipLoop boyerMooreSkipLoop
    simp only [bind, Option.bind]
    cases subject.get (index + (pattern.length - 1)) with
    | none => rfl
    | some c =>
      simp only
      split
      · cases charOccurrence pw sw table c with
        | none => rfl
        | some occ =>
          simp only
          split
          · rfl
          · exact ih _ _
      · rfl

variable (pattern subject) in
theorem matchLoop_spec (hindex : 0 ≤ index) (hle : index + pattern.length ≤ subject.length) (fuel : Nat) (hj : -1 ≤ j)
    (hlt : j < pattern.length) (hfuel : j + 1 < fuel) :
    ∃ r, matchLoop pattern subject index fuel j = some r ∧ -1 ≤ r ∧ r ≤ j ∧
      (∀ k, r < k → k ≤ j → subject.char (index + k) = pattern.char k) ∧
      (0 ≤ r → subject.char (index + r) ≠ pattern.char r) := by
  induction fuel generalizing j with
  | zero => omega
  | succ fuel ih =>
    unfold matchLoop
    by_cases hnonneg : 0 ≤ j
    · rw [if_pos hnonneg, pattern.get_eq hnonneg hlt, subject.get_eq (by omega) (by omega)]
      simp only [bind, Option.bind]
      by_cases heq : pattern.char j = subject.char (index + j)
      · rw [if_pos heq]
        obtain ⟨r, hrun, hlow, hhigh, hall, hmis⟩ := ih (j := j - 1) (by omega) (by omega) (by omega)
        refine ⟨r, hrun, hlow, by omega, fun k hk hkj => ?_, hmis⟩
        rcases Int.lt_or_eq_of_le hkj with hlt' | rfl
        · exact hall k hk (by omega)
        · exact heq.symm
      · rw [if_neg heq]
        exact ⟨j, rfl, hj, Int.le_refl _, fun k hk hk' => by omega, fun _ h => heq h.symm⟩
    · rw [if_neg hnonneg]
      exact ⟨j, rfl, hj, Int.le_refl _, fun k hk hk' => by omega, fun h => absurd h hnonneg⟩

/-- A mismatch, or all characters match. -/
theorem not_occurs_of_mismatch (hj : 0 ≤ j) (hlt : j < pattern.length)
    (hmis : subject.char (index + j) ≠ pattern.char j) : ¬ Occurs pattern subject index :=
  fun h => hmis (h.eq j hj hlt)

variable (subject) in
theorem horspoolLoop_spec (hbad : BadChar sw pattern table) (hlen : 0 < pattern.length) {lastCharShift : ℤ}
    (hshift : ∃ occ, charOccurrence pw sw table (pattern.char (pattern.length - 1)) = some occ ∧ lastCharShift = pattern.length - 1 - occ)
    (fuel : Nat) (badness : ℤ) (hindex : 0 ≤ index) (hpos : 0 < fuel)
    (hfuel : subject.length - pattern.length - index + 1 < fuel) :
    ∃ o, horspoolLoop pattern subject table (pattern.char (pattern.length - 1)) lastCharShift fuel index badness = some o ∧
      o.Right (Occurs pattern subject) index := by
  induction fuel generalizing index badness with
  | zero => omega
  | succ fuel ih =>
    unfold horspoolLoop
    by_cases hle : index ≤ subject.length - pattern.length
    · rw [if_pos hle]
      obtain ⟨r, hskip, hr⟩ := boyerMooreSkipLoop_spec subject hbad hlen (fuel + 1) hindex hle (by omega)
      rw [← horspoolSkipLoop_eq _ _ _ badness, Option.map_eq_some_iff] at hskip
      obtain ⟨r', hrun, rfl⟩ := hskip
      rw [hrun]
      cases r' with
      | none => exact ⟨.done (-1), rfl, FirstFrom.none hr⟩
      | some state =>
        obtain ⟨i, badness'⟩ := state
        obtain ⟨hi, hile, hchar, hbefore⟩ := hr
        obtain ⟨j, hmatch, hjlow, hjhigh, hall, hmis⟩ := matchLoop_spec pattern subject (show 0 ≤ i by omega) (by omega)
          pattern.length.toNat (j := pattern.length - 2) (by omega) (by omega) (by omega)
        simp only [bind, Option.bind, hmatch]
        by_cases hj : j < 0
        · rw [if_pos hj]
          refine ⟨.done i, rfl, FirstFrom.skip hi hbefore (.here ⟨by omega, by omega, fun k hk hk' => ?_⟩)⟩
          rcases Int.lt_or_le k (pattern.length - 1) with hlt | hge
          · exact hall k (by omega) (by omega)
          · rw [show k = pattern.length - 1 by omega]
            exact hchar
        · rw [if_neg hj]
          have hnot := not_occurs_of_mismatch (by omega) (by omega) (hmis (by omega))
          obtain ⟨occ, hocc, hlow, hhigh, hskip⟩ := hbad.skip (show 0 ≤ i by omega) (j := pattern.length - 1) (by omega)
            (by omega) (by omega) hnot
          obtain ⟨occ', hocc', hshift'⟩ := hshift
          rw [hchar, hocc'] at hocc
          obtain rfl := Option.some.inj hocc
          rw [← hshift'] at hskip
          have hruled := hbefore.trans hskip
          split
          · exact ⟨.bailOut (i + lastCharShift), rfl, by omega, hruled⟩
          · obtain ⟨o, hrun', ho⟩ := @ih (i + lastCharShift) (badness' + (pattern.length - j - lastCharShift)) (by omega)
              (by omega) (by omega)
            exact ⟨o, hrun', ho.skip (by omega) hruled⟩
    · rw [if_neg hle]
      exact ⟨.done (-1), rfl, FirstFrom.none fun k hk => not_occurs_of_lt (by omega)⟩

variable (subject) in
theorem horspoolSearch_spec (hbad : BadChar sw pattern table) (hlen : 0 < pattern.length)
    (hfits : pattern.char (pattern.length - 1) < 256 ^ sw.size) (hindex : 0 ≤ index) :
    ∃ o, horspoolSearch pattern subject table index = some o ∧ o.Right (Occurs pattern subject) index := by
  obtain ⟨occ, hocc, _⟩ := hbad _ hfits
  obtain ⟨o, hrun, ho⟩ := horspoolLoop_spec subject hbad hlen ⟨occ, hocc, rfl⟩
    ((subject.length - pattern.length - index).toNat + 2) (-pattern.length) hindex (by omega) (by omega)
  refine ⟨o, ?_, ho⟩
  unfold horspoolSearch
  rw [pattern.get_eq (by omega) (by omega)]
  simp only [bind, Option.bind, castChar, Nat.mod_eq_of_lt hfits, hocc]
  exact hrun

end Loops

end V8Core.Strings
