import V8Core.Strings.BoyerMoore
import Mathlib.Data.List.Forall2

/-!
# Every call of a search object finds the first occurrence

A search object is ready if the tables that its strategy uses belong to its pattern. A
call leaves it ready, whichever strategy it switches to. Between two calls no other object
may fill the tables, which belong to the isolate.
-/

namespace V8Core.Strings

open Matching

variable {pw sw : CharWidth}

/-- The characters of the pattern are characters of subjects. -/
def Fits (sw : CharWidth) (pattern : Text pw) : Prop := ∀ i, 0 ≤ i → i < pattern.length → pattern.char i < 256 ^ sw.size

/-- What a strategy relies on. -/
def Strategy.Ready (sw : CharWidth) (pattern : Text pw) (start : ℤ) (isolate : Isolate) : Strategy → Prop
  | .failSearch => ¬ Fits sw pattern
  | .singleCharSearch => Fits sw pattern ∧ pattern.length = 1
  | .linearSearch => Fits sw pattern ∧ 1 < pattern.length
  | .initialSearch => Fits sw pattern ∧ 1 < pattern.length
  | .boyerMooreHorspoolSearch => Fits sw pattern ∧ 1 < pattern.length ∧ BadChar sw pattern isolate.badCharShiftTable
  | .boyerMooreSearch => Fits sw pattern ∧ 1 < pattern.length ∧ BadChar sw pattern isolate.badCharShiftTable ∧
      GoodSuffix pattern start isolate.goodSuffixShiftTable

/-- A search object between two calls. -/
structure StringSearch.Ready (search : StringSearch pw sw) (isolate : Isolate) : Prop where
  nonempty : 0 < search.pattern.length
  start : search.start = max 0 (search.pattern.length - kBMMaxShift)
  strategy : search.strategy.Ready sw search.pattern search.start isolate

/-! ## The constructor -/

theorem fits_iff (pattern : Text pw) : Fits sw pattern ↔ ∀ c ∈ pattern.chars, c < 256 ^ sw.size := by
  constructor
  · intro h c hc
    obtain ⟨i, hi, rfl⟩ := List.mem_iff_getElem.1 hc
    have := h i (Int.natCast_nonneg _) (Int.ofNat_lt.2 hi)
    simpa [Text.char, valueAt, readAt, hi] using this
  · exact fun h i h0 hi => h _ (valueAt_mem h0 hi)

theorem fits_of_size_le (hsize : pw.size ≤ sw.size) (pattern : Text pw) : Fits sw pattern :=
  fun i h0 hi => Nat.lt_of_lt_of_le (pattern.char_lt h0 hi) (Nat.pow_le_pow_right (by decide) hsize)

theorem fits_iff_isOneByteString (hsize : pw.size > sw.size) (pattern : Text pw) :
    Fits sw pattern ↔ pattern.isOneByteString = true := by
  have hone : sw.size = 1 := by
    cases pw <;> cases sw <;> simp [CharWidth.size] at hsize ⊢
  rw [fits_iff, Text.isOneByteString, List.all_eq_true, hone]
  exact forall₂_congr fun c _ => by simp; omega

theorem StringSearch.new_ready (sw : CharWidth) (pattern : Text pw) (hne : pattern.chars ≠ []) (isolate : Isolate) :
    (StringSearch.new sw pattern).Ready isolate ∧ (StringSearch.new sw pattern).pattern = pattern := by
  have hpos : 0 < pattern.length := Int.natCast_pos.2 (List.length_pos_iff.2 hne)
  unfold StringSearch.new
  by_cases hfail : pw.size > sw.size ∧ pattern.isOneByteString = false
  · rw [if_pos hfail]
    refine ⟨⟨hpos, rfl, fun hfits => ?_⟩, rfl⟩
    exact Bool.false_ne_true (hfail.2.symm.trans ((fits_iff_isOneByteString hfail.1 pattern).1 hfits))
  · rw [if_neg hfail]
    have hfits : Fits sw pattern := by
      by_cases hsize : pw.size > sw.size
      · refine (fits_iff_isOneByteString hsize pattern).2 ?_
        by_contra hnot
        exact hfail ⟨hsize, by simpa using hnot⟩
      · exact fits_of_size_le (by omega) pattern
    by_cases hshort : pattern.length < kBMMinPatternLength
    · rw [if_pos hshort]
      by_cases hone : pattern.length = 1
      · rw [if_pos hone]
        exact ⟨⟨hpos, rfl, hfits, hone⟩, rfl⟩
      · rw [if_neg hone]
        exact ⟨⟨hpos, rfl, hfits, by simp only; omega⟩, rfl⟩
    · rw [if_neg hshort]
      unfold kBMMinPatternLength at hshort
      exact ⟨⟨hpos, rfl, hfits, by simp only; omega⟩, rfl⟩

/-! ## One call -/

namespace StringSearch
variable {search : StringSearch pw sw} {isolate : Isolate}

/-- The part of the pattern that the tables cover. -/
theorem Ready.start_bounds (h : search.Ready isolate) :
    0 ≤ search.start ∧ search.start < search.pattern.length ∧ search.pattern.length - search.start ≤ kBMMaxShift ∧
      (1 < search.pattern.length → 1 < search.pattern.length - search.start) := by
  have hpos := h.nonempty
  have hstart := h.start
  have hmax : (kBMMaxShift : ℤ) = 250 := rfl
  omega

theorem boyerMooreHorspoolSearch_spec (subject : Text sw) (h : search.Ready isolate)
    (hstrategy : search.strategy = .boyerMooreHorspoolSearch) {index : ℤ} (hindex : 0 ≤ index) :
    ∃ r search' isolate', search.boyerMooreHorspoolSearch isolate subject index = some (r, search', isolate') ∧
      FirstFrom (Occurs search.pattern subject) index r ∧ search'.pattern = search.pattern ∧ search'.Ready isolate' := by
  obtain ⟨hlow, hhigh, hmax, hlen⟩ := h.start_bounds
  have hready := h.strategy
  rw [hstrategy] at hready
  obtain ⟨hfits, hone, hbad⟩ := hready
  have hlast := hfits (search.pattern.length - 1) (by omega) (by omega)
  obtain ⟨o, hrun, ho⟩ := horspoolSearch_spec subject hbad h.nonempty hlast hindex
  unfold boyerMooreHorspoolSearch
  rw [hrun]
  simp only [bind, Option.bind]
  cases o with
  | done r => exact ⟨r, search, isolate, rfl, ho, rfl, h⟩
  | bailOut i =>
    obtain ⟨hle, hskip⟩ := ho
    obtain ⟨isolate', hpopulate, hsame, hgood⟩ := populateBoyerMooreTable_spec (hlen hone) hmax hlow isolate
    rw [← hsame] at hbad
    obtain ⟨r, hrun', hr⟩ := boyerMooreSearch_spec subject hbad hgood h.nonempty hmax hlow hlast (show 0 ≤ i by omega)
    simp only [hpopulate, hrun']
    exact ⟨r, _, isolate', rfl, .skip hle hskip hr, rfl, h.nonempty, h.start, hfits, hone, hbad, hgood⟩

/-- A call returns the first place, and the object stays ready. -/
theorem searchFrom_spec (subject : Text sw) (h : search.Ready isolate) {index : ℤ} (hindex : 0 ≤ index)
    (hle : index ≤ subject.length) :
    ∃ r search' isolate', search.searchFrom isolate subject index = some (r, search', isolate') ∧
      FirstFrom (Occurs search.pattern subject) index r ∧ search'.pattern = search.pattern ∧ search'.Ready isolate' := by
  have hpos := h.nonempty
  have hready := h.strategy
  unfold searchFrom
  cases hstrategy : search.strategy with
  | failSearch =>
    rw [hstrategy] at hready
    -- the subject has no character that is too large for it
    refine ⟨-1, search, isolate, rfl, .none fun k hk hocc => hready fun i hi hi' => ?_, rfl, h⟩
    have hfits := hocc.fits
    rw [← hocc.eq i hi hi']
    exact subject.char_lt (by omega) (by omega)
  | singleCharSearch =>
    rw [hstrategy] at hready
    obtain ⟨r, hrun, hr⟩ := singleCharSearch_spec subject hready.2 (hready.1 0 (Int.le_refl 0) hpos) hindex hle
    exact ⟨r, search, isolate, by simp only [hrun]; rfl, hr, rfl, h⟩
  | linearSearch =>
    rw [hstrategy] at hready
    obtain ⟨r, hrun, hr⟩ := linearSearch_spec subject hready.2 (hready.1 0 (Int.le_refl 0) hpos) hindex
    exact ⟨r, search, isolate, by simp only [hrun]; rfl, hr, rfl, h⟩
  | initialSearch =>
    rw [hstrategy] at hready
    obtain ⟨o, hrun, ho⟩ := initialSearch_spec subject hready.2 (hready.1 0 (Int.le_refl 0) hpos) hindex
    simp only [bind, Option.bind, hrun]
    cases o with
    | done r => exact ⟨r, search, isolate, rfl, ho, rfl, h⟩
    | bailOut i =>
      obtain ⟨hle', hskip⟩ := ho
      obtain ⟨hlow, hhigh, _, _⟩ := h.start_bounds
      obtain ⟨isolate', hpopulate, hbad⟩ := populateBoyerMooreHorspoolTable_spec sw hpos hlow hhigh isolate
      simp only [hpopulate]
      have hswitched : StringSearch.Ready { search with strategy := .boyerMooreHorspoolSearch } isolate' :=
        ⟨hpos, h.start, hready.1, hready.2, hbad⟩
      obtain ⟨r, search', isolate'', hrun', hr, hpattern, hready'⟩ :=
        boyerMooreHorspoolSearch_spec subject hswitched rfl (show 0 ≤ i by omega)
      exact ⟨r, search', isolate'', hrun', .skip hle' hskip hr, hpattern, hready'⟩
  | boyerMooreHorspoolSearch => exact boyerMooreHorspoolSearch_spec subject h hstrategy hindex
  | boyerMooreSearch =>
    rw [hstrategy] at hready
    obtain ⟨hfits, hone, hbad, hgood⟩ := hready
    obtain ⟨hlow, _, hmax, _⟩ := h.start_bounds
    obtain ⟨r, hrun, hr⟩ := boyerMooreSearch_spec subject hbad hgood hpos hmax hlow (hfits _ (by omega) (by omega)) hindex
    exact ⟨r, search, isolate, by simp only [hrun]; rfl, hr, rfl, h⟩

end StringSearch

/-! ## All calls -/

/-- The smallest index from `index` on at which the pattern occurs, or `-1`. -/
def IsFirstOccurrence (pattern : Text pw) (subject : Text sw) (index r : ℤ) : Prop :=
  FirstFrom (fun k => pattern.chars <+: subject.chars.drop k.toNat) index r

theorem occurs_iff_isPrefix {pattern : Text pw} (hne : pattern.chars ≠ []) (subject : Text sw) {k : ℤ} (hk : 0 ≤ k) :
    Occurs pattern subject k ↔ pattern.chars <+: subject.chars.drop k.toNat := by
  have hlen : (pattern.chars.length : ℤ) = pattern.length := rfl
  have hlen' : (subject.chars.length : ℤ) = subject.length := rfl
  have hchar : ∀ {w : CharWidth} (v : Text w) (i : Nat), i < v.chars.length → v.chars[i]? = some (v.char i) := by
    intro w v i hi
    simp [Text.char, valueAt, readAt, hi]
  rw [List.prefix_iff_getElem?]
  constructor
  · intro h i hi
    have hfits := h.fits
    rw [List.getElem?_drop, ← List.getElem?_eq_getElem hi, hchar pattern i hi, hchar subject _ (by omega),
      ← h.eq i (by omega) (by omega), show ((k.toNat + i : Nat) : ℤ) = k + i by omega]
  · intro h
    have hpos := List.length_pos_iff.2 hne
    have hfits : k.toNat + pattern.chars.length ≤ subject.chars.length := by
      have := h (pattern.chars.length - 1) (by omega)
      rw [List.getElem?_drop] at this
      have := (List.getElem?_eq_some_iff.1 this).1
      omega
    refine ⟨hk, by omega, fun j hj hj' => ?_⟩
    have := h j.toNat (by omega)
    rw [List.getElem?_drop, ← List.getElem?_eq_getElem, hchar pattern _ (by omega), hchar subject _ (by omega),
      Option.some.injEq, show ((k.toNat + j.toNat : Nat) : ℤ) = k + j by omega, show (j.toNat : ℤ) = j by omega] at this
    exact this

/-- Every call of `Search` on one object returns the smallest index from the start index on at which the pattern
occurs, or `-1`. -/
theorem StringSearch.searchAll_first_occurrence (sw : CharWidth) (pattern : Text pw) (hne : pattern.chars ≠ [])
    (isolate : Isolate) (calls : List (Text sw × ℤ)) (hcalls : ∀ c ∈ calls, 0 ≤ c.2 ∧ c.2 ≤ c.1.length) :
    ∃ results, (StringSearch.new sw pattern).searchAll isolate calls = some results ∧
      List.Forall₂ (fun c r => IsFirstOccurrence pattern c.1 c.2 r) calls results := by
  obtain ⟨hready, hpattern⟩ := StringSearch.new_ready sw pattern hne isolate
  generalize StringSearch.new sw pattern = search at hready hpattern
  induction calls generalizing search isolate with
  | nil => exact ⟨[], rfl, .nil⟩
  | cons c calls ih =>
    obtain ⟨subject, index⟩ := c
    obtain ⟨hindex, hle⟩ := hcalls _ List.mem_cons_self
    obtain ⟨r, search', isolate', hrun, hr, hpattern', hready'⟩ := searchFrom_spec subject hready hindex hle
    obtain ⟨results, hruns, hresults⟩ := ih isolate' (fun c hc => hcalls c (List.mem_cons_of_mem _ hc)) search'
      hready' (hpattern'.trans hpattern)
    refine ⟨r :: results, ?_, .cons (hr.congr fun k hk => ?_) hresults⟩
    · simp only [searchAll, hrun, bind, Option.bind, hruns]
      rfl
    · rw [hpattern]
      exact occurs_iff_isPrefix hne subject (by omega)

/-- The tables of a new isolate. -/
def Isolate.init : Isolate :=
  ⟨⟨List.replicate kUC16AlphabetSize 0, List.length_replicate⟩, ⟨List.replicate (kBMMaxShift + 1) 0, List.length_replicate⟩,
    ⟨List.replicate (kBMMaxShift + 1) 0, List.length_replicate⟩⟩

/-- `aab` in `aaab` and, from the second character on, in `aabab`. -/
theorem StringSearch.searchAll_aab :
    ∃ results, (StringSearch.new .twoByte (⟨[97, 97, 98], by decide⟩ : Text .oneByte)).searchAll Isolate.init
        [(⟨[97, 97, 97, 98], by decide⟩, 0), (⟨[97, 97, 98, 97, 98], by decide⟩, 1)] = some results ∧
      List.Forall₂ (fun (c : Text .twoByte × ℤ) r => IsFirstOccurrence (⟨[97, 97, 98], by decide⟩ : Text .oneByte) c.1 c.2 r)
        [(⟨[97, 97, 97, 98], by decide⟩, 0), (⟨[97, 97, 98, 97, 98], by decide⟩, 1)] results :=
  StringSearch.searchAll_first_occurrence .twoByte _ (by decide) Isolate.init _ (by
    decide)

end V8Core.Strings
