import V8Core.Strings.StringSearch
import V8Core.Lib.Matching

/-!
# The linear strategies

`FindFirstCharacter` looks for the byte of the first character that is rarer in text, and
checks the character around it. `LinearSearch` compares the rest of the pattern wherever
the first character occurs; `InitialSearch` does the same until it bails out.
-/

namespace V8Core.Strings

open Matching

variable {pw sw : CharWidth}
variable {i index pos : ℤ}

/-! ## Characters -/

/-- The pattern occurs in the subject at `i`. -/
def Occurs (pattern : Text pw) (subject : Text sw) (i : ℤ) : Prop :=
  OccursAt pattern.char pattern.length subject.char subject.length i

/-- The bytes of a character. -/
def charBytes (w : CharWidth) (c : Nat) : List Nat :=
  match w with
  | .oneByte => [c]
  | .twoByte => [c % 256, c / 256]

theorem length_charBytes (w : CharWidth) (c : Nat) : (charBytes w c).length = w.size := by cases w <;> rfl

theorem Text.bytes_eq {w : CharWidth} (v : Text w) : v.bytes = v.chars.flatMap (charBytes w) := by
  cases w with
  | oneByte => exact (List.flatMap_singleton' v.chars).symm
  | twoByte => rfl

/-- `memchr` finds the first character that has the byte. -/
theorem Text.memchr_spec {w : CharWidth} (v : Text w) {count : ℤ} (byte : Nat) (hpos : 0 ≤ pos) (hcount : 0 ≤ count)
    (hle : pos + count ≤ v.length) :
    ∃ r, v.memchr pos byte count = some r ∧
      (∀ q, r = some q → pos ≤ q ∧ q < pos + count ∧ ∀ k, pos ≤ k → k < q → byte ∉ charBytes w (v.char k)) ∧
      (r = none → ∀ k, pos ≤ k → k < pos + count → byte ∉ charBytes w (v.char k)) := by
  have hlen : (v.chars.length : ℤ) = v.length := rfl
  -- the characters of the window, and the first of them that has the byte
  have hwindow : (((v.bytes.drop (pos.toNat * w.size)).take (count.toNat * w.size)).findIdx? (· == byte)).map (· / w.size) =
      ((v.chars.drop pos.toNat).take count.toNat).findIdx? fun c => (charBytes w c).any (· == byte) := by
    rw [v.bytes_eq, drop_flatMap (length_charBytes w), take_flatMap (length_charBytes w),
      findIdx?_flatMap_div (length_charBytes w)]
  have hchar : ∀ k : Nat, k < count.toNat →
      ((v.chars.drop pos.toNat).take count.toNat)[k]? = some (v.char (pos + k)) := by
    intro k hk
    rw [List.getElem?_take_of_lt hk, List.getElem?_drop, Text.char, valueAt, readAt, if_pos (by omega),
      show (pos + k).toNat = pos.toNat + k by omega, List.getElem?_eq_getElem (by omega)]
    rfl
  have hrun : v.memchr pos byte count = some ((((v.chars.drop pos.toNat).take count.toNat).findIdx?
      fun c => (charBytes w c).any (· == byte)).map fun k => pos + (k : Nat)) := by
    rw [memchr, if_pos ⟨hpos, hcount, hle⟩, ← hwindow, Option.map_map]
    rfl
  refine ⟨_, hrun, fun q hq => ?_, fun hnone k hk hk' hmem => ?_⟩
  · obtain ⟨n, hn, rfl⟩ := Option.map_eq_some_iff.1 hq
    obtain ⟨hlt, _, hbefore⟩ := List.findIdx?_eq_some_iff_getElem.1 hn
    rw [List.length_take] at hlt
    refine ⟨by omega, by omega, fun k hk hk' hmem => ?_⟩
    have := hchar (k - pos).toNat (by omega)
    rw [List.getElem?_eq_getElem (by rw [List.length_take, List.length_drop]; omega)] at this
    refine hbefore (k - pos).toNat (by omega) ?_
    rw [Option.some.inj this, show pos + ((k - pos).toNat : ℤ) = k by omega]
    exact List.any_eq_true.2 ⟨byte, hmem, by simp⟩
  · have hall := List.findIdx?_eq_none_iff.1 (Option.map_eq_none_iff.1 hnone)
    have := hchar (k - pos).toNat (by omega)
    rw [show pos + ((k - pos).toNat : ℤ) = k by omega] at this
    have hfalse := hall _ (List.mem_of_getElem? this)
    exact Bool.false_ne_true (hfalse.symm.trans (List.any_eq_true.2 ⟨byte, hmem, by simp⟩))

/-! ## The first character -/

section First
variable {pattern : Text pw} {subject : Text sw}

theorem getHighestValueByte_mem {c : Nat} (hp : c < 256 ^ pw.size) (hs : c < 256 ^ sw.size) :
    getHighestValueByte pw c ∈ charBytes sw c := by
  cases pw <;> cases sw <;> simp only [getHighestValueByte, charBytes, CharWidth.size] at * <;> simp <;> omega

theorem findZeroLoop_spec {maxN : ℤ} (hmax : maxN ≤ subject.length) (fuel : Nat) (hi : 0 ≤ i)
    (hfuel : (maxN - i).toNat < fuel) :
    ∃ r, findZeroLoop subject maxN fuel i = some r ∧ FirstFrom (fun k => k < maxN ∧ subject.char k = 0) i r := by
  induction fuel generalizing i with
  | zero => omega
  | succ fuel ih =>
    unfold findZeroLoop
    by_cases hlt : i < maxN
    · rw [if_pos hlt, subject.get_eq hi (by omega)]
      simp only [bind, Option.bind]
      by_cases hzero : subject.char i = 0
      · rw [if_pos hzero]
        exact ⟨i, rfl, .here ⟨hlt, hzero⟩⟩
      · rw [if_neg hzero]
        obtain ⟨r, hrun, hr⟩ := ih (i := i + 1) (by omega) (by omega)
        exact ⟨r, hrun, hr.skip (by omega) (.succ (fun k hk hk' => by omega) fun hocc => hzero hocc.2)⟩
    · rw [if_neg hlt]
      exact ⟨-1, rfl, .none fun k hk hocc => hlt (by omega)⟩

theorem findCharLoop_spec {searchByte searchChar : Nat} (hbyte : searchByte ∈ charBytes sw searchChar) {maxN : ℤ}
    (hmax : maxN ≤ subject.length) (fuel : Nat) (hpos : 0 ≤ pos) (hle : pos ≤ maxN)
    (hfuel : (maxN - pos).toNat < fuel) :
    ∃ r, findCharLoop subject searchByte searchChar maxN fuel pos = some r ∧
      FirstFrom (fun k => k < maxN ∧ subject.char k = searchChar) pos r := by
  induction fuel generalizing pos with
  | zero => omega
  | succ fuel ih =>
    obtain ⟨found, hrun, hsome, hnone⟩ := subject.memchr_spec searchByte hpos (show 0 ≤ maxN - pos by omega)
      (by omega)
    unfold findCharLoop
    rw [hrun]
    simp only [bind, Option.bind]
    cases found with
    | none =>
      refine ⟨-1, rfl, .none fun k hk hocc => hnone rfl k hk (by omega) ?_⟩
      rw [hocc.2]
      exact hbyte
    | some q =>
      obtain ⟨hq, hqn, hbefore⟩ := hsome q rfl
      have hskip : NoneIn (fun k => k < maxN ∧ subject.char k = searchChar) pos q := fun k hk hkq hocc =>
        hbefore k hk hkq (by rw [hocc.2]; exact hbyte)
      simp only
      rw [subject.get_eq (by omega) (by omega)]
      simp only
      by_cases heq : subject.char q = searchChar
      · rw [if_pos heq]
        exact ⟨q, rfl, .skip hq hskip (.here ⟨by omega, heq⟩)⟩
      · rw [if_neg heq]
        have hskip' := hskip.succ fun hocc => heq hocc.2
        by_cases hmore : q + 1 < maxN
        · rw [if_pos hmore]
          obtain ⟨r, hrun', hr⟩ := @ih (q + 1) (by omega) (by omega) (by omega)
          exact ⟨r, hrun', .skip (by omega) hskip' hr⟩
        · rw [if_neg hmore]
          exact ⟨-1, rfl, .none (hskip'.all fun k hk hocc => by omega)⟩

variable (pattern subject) in
/-- The first place of the first character of the pattern. -/
theorem findFirstCharacter_spec (hlen : 0 < pattern.length) (hfits : pattern.char 0 < 256 ^ sw.size)
    (hindex : 0 ≤ index) (hle : index ≤ subject.length - pattern.length + 1) :
    ∃ r, findFirstCharacter pattern subject index = some r ∧
      FirstFrom (fun k => k < subject.length - pattern.length + 1 ∧ subject.char k = pattern.char 0) index r := by
  unfold findFirstCharacter
  rw [pattern.get_eq (Int.le_refl 0) hlen]
  simp only [bind, Option.bind]
  by_cases hzero : sw.size = 2 ∧ pattern.char 0 = 0
  · rw [if_pos hzero, hzero.2]
    exact findZeroLoop_spec (by omega) _ hindex (Nat.lt_succ_self _)
  · rw [if_neg hzero, castChar, Nat.mod_eq_of_lt hfits]
    exact findCharLoop_spec (getHighestValueByte_mem (pattern.char_lt (Int.le_refl 0) hlen) hfits) (by omega) _ hindex hle
      (Nat.lt_succ_self _)

theorem Occurs.first (hlen : 0 < pattern.length) (h : Occurs pattern subject i) :
    i < subject.length - pattern.length + 1 ∧ subject.char i = pattern.char 0 := by
  have hfits := h.fits
  have heq := h.eq 0 (Int.le_refl 0) hlen
  rw [Int.add_zero] at heq
  exact ⟨by omega, heq⟩

theorem not_occurs_of_lt (hlt : subject.length - pattern.length < i) : ¬ Occurs pattern subject i := by
  intro h
  have := h.fits
  omega

variable (subject) in
theorem singleCharSearch_spec (hlen : pattern.length = 1) (hfits : pattern.char 0 < 256 ^ sw.size)
    (hindex : 0 ≤ index) (hle : index ≤ subject.length) :
    ∃ r, singleCharSearch pattern subject index = some r ∧ FirstFrom (Occurs pattern subject) index r := by
  obtain ⟨r, hrun, hr⟩ := findFirstCharacter_spec pattern subject (by omega) hfits hindex (by omega)
  refine ⟨r, ?_, hr.congr fun k hk => ⟨fun hocc => ?_, fun hocc => hocc.first (by omega)⟩⟩
  · unfold singleCharSearch
    rw [pattern.get_eq (Int.le_refl 0) (by omega)]
    simp only [bind, Option.bind]
    rw [if_neg, hrun]
    rintro ⟨hsize, hexceeds⟩
    have hone : sw = .oneByte := by
      cases pw <;> cases sw <;> simp [CharWidth.size] at hsize ⊢
    subst hone
    simp [exceedsOneByte, CharWidth.size] at hexceeds hfits
    omega
  · refine ⟨by omega, by omega, fun j hj hj' => ?_⟩
    rw [show j = 0 by omega, Int.add_zero]
    exact hocc.2

end First

/-! ## Linear search -/

section Linear
variable {pattern : Text pw} {subject : Text sw}

variable (pattern subject) in
theorem charCompare_spec (hi : 0 ≤ i) (hfits : i + pattern.length ≤ subject.length) (length : Nat) (hpos : 0 ≤ pos)
    (hlen : 0 < length) (hend : pos + length = pattern.length) :
    ∃ b, charCompare pattern subject i length pos = some b ∧
      (b = true ↔ ∀ j, pos ≤ j → j < pattern.length → subject.char (i + j) = pattern.char j) := by
  induction length generalizing pos with
  | zero => omega
  | succ length ih =>
    unfold charCompare
    rw [pattern.get_eq hpos (by omega), subject.get_eq (by omega) (by omega)]
    simp only [bind, Option.bind]
    by_cases heq : pattern.char pos = subject.char (i + pos)
    · rw [if_neg (not_not.2 heq)]
      by_cases hzero : length = 0
      · rw [if_pos hzero]
        refine ⟨true, rfl, fun _ j hj hj' => ?_, fun _ => rfl⟩
        rw [show j = pos by omega, heq]
      · rw [if_neg hzero]
        obtain ⟨b, hrun, hb⟩ := @ih (pos + 1) (by omega) (by omega) (by omega)
        exact ⟨b, hrun, hb.trans (forall_succ_iff heq.symm)⟩
    · rw [if_pos heq]
      exact ⟨false, rfl, fun h => absurd h Bool.false_ne_true, fun h => absurd (h pos (Int.le_refl _) (by omega)).symm heq⟩

/-- The first character and the rest of the pattern. -/
theorem occurs_iff (hi : 0 ≤ i) (hfits : i + pattern.length ≤ subject.length)
    (hfirst : subject.char i = pattern.char 0) :
    Occurs pattern subject i ↔ ∀ j, 1 ≤ j → j < pattern.length → subject.char (i + j) = pattern.char j := by
  refine ⟨fun h j hj hj' => h.eq j (by omega) hj', fun h => ⟨hi, hfits, (forall_succ_iff ?_).1 h⟩⟩
  rw [Int.add_zero, hfirst]

theorem linearSearchLoop_spec (hlen : 1 < pattern.length) (hfits : pattern.char 0 < 256 ^ sw.size) (fuel : Nat)
    (hi : 0 ≤ i) (hpos : 0 < fuel) (hfuel : subject.length - pattern.length - i + 1 < fuel) :
    ∃ r, linearSearchLoop pattern subject (subject.length - pattern.length) fuel i = some r ∧
      FirstFrom (Occurs pattern subject) i r := by
  induction fuel generalizing i with
  | zero => omega
  | succ fuel ih =>
    unfold linearSearchLoop
    by_cases hle : i ≤ subject.length - pattern.length
    · rw [if_pos hle]
      obtain ⟨q, hrun, hq⟩ := findFirstCharacter_spec pattern subject (by omega) hfits hi (by omega)
      rw [hrun]
      simp only [bind, Option.bind]
      rcases hq with ⟨rfl, hnone⟩ | ⟨hiq, hocc, hbefore⟩
      · rw [if_pos rfl]
        exact ⟨-1, rfl, .none fun k hk h => hnone k hk (h.first (by omega))⟩
      · rw [if_neg (by omega)]
        have hskip : NoneIn (Occurs pattern subject) i q := fun k hk hkq h => hbefore k hk hkq (h.first (by omega))
        obtain ⟨b, hcompare, hb⟩ := charCompare_spec pattern subject (i := q) (by omega) (by omega)
          (pattern.length - 1).toNat (show 0 ≤ (1 : ℤ) by omega) (by omega) (by omega)
        rw [hcompare]
        rw [← occurs_iff (by omega) (by omega) hocc.2] at hb
        cases b with
        | true => exact ⟨q, rfl, .skip hiq hskip (.here (hb.1 rfl))⟩
        | false =>
          obtain ⟨r, hrun', hr⟩ := ih (i := q + 1) (by omega) (by omega) (by omega)
          exact ⟨r, hrun', .skip (by omega) (hskip.succ fun h => Bool.false_ne_true (hb.2 h)) hr⟩
    · rw [if_neg hle]
      exact ⟨-1, rfl, .none fun k hk => not_occurs_of_lt (by omega)⟩

variable (subject) in
theorem linearSearch_spec (hlen : 1 < pattern.length) (hfits : pattern.char 0 < 256 ^ sw.size) (hindex : 0 ≤ index) :
    ∃ r, linearSearch pattern subject index = some r ∧ FirstFrom (Occurs pattern subject) index r :=
  linearSearchLoop_spec hlen hfits _ hindex (by omega) (by omega)

end Linear

/-! ## Initial search -/

/-- A result is right for the search from `i` on; a search that bails out has ruled out the places before. -/
def Outcome.Right (occ : ℤ → Prop) (i : ℤ) : Outcome → Prop
  | .done r => FirstFrom occ i r
  | .bailOut i' => i ≤ i' ∧ ∀ k, i ≤ k → k < i' → ¬ occ k

theorem Outcome.Right.skip {occ : ℤ → Prop} {i' : ℤ} {o : Outcome} (hle : i ≤ i') (hskip : NoneIn occ i i')
    (h : Outcome.Right occ i' o) : Outcome.Right occ i o := by
  cases o with
  | done r => exact FirstFrom.skip hle hskip h
  | bailOut i'' =>
    obtain ⟨hle', hskip'⟩ := h
    exact ⟨by omega, hskip.trans hskip'⟩

section Initial
variable {pattern : Text pw} {subject : Text sw}

variable (pattern subject) in
theorem prefixLoop_spec (hi : 0 ≤ i) (hfits : i + pattern.length ≤ subject.length) (fuel : Nat) {j : ℤ} (hj : 0 ≤ j)
    (hlt : j < pattern.length) (hfuel : pattern.length - j < fuel) :
    ∃ r, prefixLoop pattern subject i fuel j = some r ∧
      (r = pattern.length ↔ ∀ k, j ≤ k → k < pattern.length → subject.char (i + k) = pattern.char k) := by
  induction fuel generalizing j with
  | zero => omega
  | succ fuel ih =>
    unfold prefixLoop
    rw [pattern.get_eq hj hlt, subject.get_eq (by omega) (by omega)]
    simp only [bind, Option.bind]
    by_cases heq : pattern.char j = subject.char (i + j)
    · rw [if_neg (not_not.2 heq)]
      by_cases hmore : j + 1 < pattern.length
      · rw [if_pos hmore]
        obtain ⟨r, hrun, hr⟩ := ih (by omega) hmore (by omega)
        exact ⟨r, hrun, hr.trans (forall_succ_iff heq.symm)⟩
      · rw [if_neg hmore]
        refine ⟨j + 1, rfl, fun _ k hk hk' => ?_, fun _ => by omega⟩
        rw [show k = j by omega, heq]
    · rw [if_pos heq]
      exact ⟨j, rfl, fun h => by omega, fun h => absurd (h j (Int.le_refl _) hlt).symm heq⟩

theorem initialSearchLoop_spec (hlen : 1 < pattern.length) (hfits : pattern.char 0 < 256 ^ sw.size) (fuel : Nat)
    (badness : ℤ) (hi : 0 ≤ i) (hpos : 0 < fuel) (hfuel : subject.length - pattern.length - i + 1 < fuel) :
    ∃ o, initialSearchLoop pattern subject (subject.length - pattern.length) fuel i badness = some o ∧
      o.Right (Occurs pattern subject) i := by
  induction fuel generalizing i badness with
  | zero => omega
  | succ fuel ih =>
    unfold initialSearchLoop
    by_cases hle : i ≤ subject.length - pattern.length
    · rw [if_pos hle]
      by_cases hbad : badness + 1 ≤ 0
      · simp only [if_pos hbad]
        obtain ⟨q, hrun, hq⟩ := findFirstCharacter_spec pattern subject (by omega) hfits hi (by omega)
        rw [hrun]
        simp only [bind, Option.bind]
        rcases hq with ⟨rfl, hnone⟩ | ⟨hiq, hocc, hbefore⟩
        · rw [if_pos rfl]
          exact ⟨.done (-1), rfl, FirstFrom.none fun k hk h => hnone k hk (h.first (by omega))⟩
        · rw [if_neg (by omega)]
          have hskip : NoneIn (Occurs pattern subject) i q := fun k hk hkq h => hbefore k hk hkq (h.first (by omega))
          obtain ⟨j, hmatched, hj⟩ := prefixLoop_spec pattern subject (i := q) (by omega) (by omega)
            (pattern.length.toNat + 1) (j := 1) (by omega) (by omega) (by omega)
          rw [hmatched]
          rw [← occurs_iff (by omega) (by omega) hocc.2] at hj
          simp only
          by_cases hall : j = pattern.length
          · rw [if_pos hall]
            exact ⟨.done q, rfl, FirstFrom.skip hiq hskip (.here (hj.1 hall))⟩
          · rw [if_neg hall]
            obtain ⟨o, hrun', ho⟩ := ih (i := q + 1) (badness + 1 + j) (by omega) (by omega) (by omega)
            exact ⟨o, hrun', ho.skip (by omega) (hskip.succ fun h => hall (hj.2 h))⟩
      · simp only [if_neg hbad]
        exact ⟨.bailOut i, rfl, Int.le_refl _, fun k hk hk' => by omega⟩
    · rw [if_neg hle]
      exact ⟨.done (-1), rfl, FirstFrom.none fun k hk => not_occurs_of_lt (by omega)⟩

variable (subject) in
theorem initialSearch_spec (hlen : 1 < pattern.length) (hfits : pattern.char 0 < 256 ^ sw.size) (hindex : 0 ≤ index) :
    ∃ o, initialSearch pattern subject index = some o ∧ o.Right (Occurs pattern subject) index :=
  initialSearchLoop_spec hlen hfits _ _ hindex (by omega) (by omega)

end Initial

end V8Core.Strings
