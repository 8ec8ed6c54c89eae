import V8Core.Json.JsonScanner

/-!
# String literals

`ScanJsonString` accepts the characters of the grammar up to the closing quote, and
records how many code units they denote and whether all of them fit in one byte.
`DecodeString` writes these code units and reads nothing beyond the quote.
-/

namespace V8Core.Json

open Base Strings

variable {c1 c2 c3 c4 : Nat} {cs : List Nat} {d1 d2 d3 d4 u : Nat}

/-! ## Characters of escapes -/

variable {c value : Nat} {rest units : List Nat} {w : CharWidth}

/-- An escape of two characters. -/
theorem escaped_spec (h : escaped c = some u) :
    c ≤ kMaxChar ∧ u ≤ kMaxChar ∧ getEscapeKind c ≠ .kUnicode ∧ getEscapeKind c ≠ .kIllegal ∧
      ∀ rest, decodeEscape (c :: rest) = some ([u], rest) := by
  unfold escaped at h
  split at h
  · rename_i hc
    cases h
    rcases hc with rfl | rfl | rfl <;> refine ⟨by decide, by decide, by decide, by decide, fun rest => rfl⟩
  · repeat'
      split at h
      · subst_vars
        cases h
        exact ⟨by decide, by decide, by decide, by decide, fun rest => rfl⟩
    cases h

theorem exists_escaped (hu : getEscapeKind c ≠ .kUnicode) (hi : getEscapeKind c ≠ .kIllegal) :
    ∃ u, escaped c = some u := by
  rcases Nat.lt_or_ge c 0x76 with hlt | hge
  · have hall : ∀ c < 0x76, getEscapeKind c ≠ .kUnicode → getEscapeKind c ≠ .kIllegal → (escaped c).isSome := by
      decide +kernel
    exact Option.isSome_iff_exists.1 (hall c hlt hu hi)
  · exfalso
    apply hi
    unfold getEscapeKind quote backslash
    repeat rw [if_neg (by omega)]

theorem getEscapeKind_eq_unicode (h : getEscapeKind c = .kUnicode) : c = 0x75 := by
  unfold getEscapeKind at h
  by_contra hne
  repeat
    split at h
    · cases h
  cases h

/-- The four digits of a unicode escape, when the cursor is at the letter before them. -/
theorem scanUnicodeCharacter_digits (h1 : hexDigit c1 = some d1) (h2 : hexDigit c2 = some d2)
    (h3 : hexDigit c3 = some d3) (h4 : hexDigit c4 = some d4) (u : Nat) (rest : List Nat) :
    scanUnicodeCharacter 4 0 (u :: c1 :: c2 :: c3 :: c4 :: rest) = (((d1 * 16 + d2) * 16 + d3) * 16 + d4, c4 :: rest) := by
  obtain ⟨h1, _⟩ := hexValue_of_hexDigit h1
  obtain ⟨h2, _⟩ := hexValue_of_hexDigit h2
  obtain ⟨h3, _⟩ := hexValue_of_hexDigit h3
  obtain ⟨h4, _⟩ := hexValue_of_hexDigit h4
  have hnonneg : ∀ d : Nat, ¬ (d : ℤ) < 0 := fun d => by omega
  simp [scanUnicodeCharacter, h1, h2, h3, h4, hnonneg]

theorem decodeUnicode_succ {d : Nat} (h : hexDigit c = some d) (n : Nat) (hvalue : value < 2 ^ 12)
    (rest : List Nat) :
    decodeUnicode (n + 1) value (c :: rest) = decodeUnicode n (value * 16 + d) rest := by
  obtain ⟨h, hd⟩ := hexValue_of_hexDigit h
  have hvalue' : ((value * 16 : ℤ) + d) % 2 ^ 32 = (value * 16 + d : Nat) := by omega
  rw [decodeUnicode, h, hvalue', Int.toNat_natCast]

theorem decodeEscape_unicode {rest' : List Nat} (h : decodeUnicode 4 0 rest = some (value, rest'))
    (hvalue : value ≤ 0xFFFF) : decodeEscape (0x75 :: rest) = some ([value], rest') := by
  rw [decodeEscape, if_neg (by decide)]
  simp only [h, bind, Option.bind, if_pos hvalue]
  rfl

theorem decodeUnicode_digits (h1 : hexDigit c1 = some d1) (h2 : hexDigit c2 = some d2) (h3 : hexDigit c3 = some d3)
    (h4 : hexDigit c4 = some d4) (rest : List Nat) :
    decodeEscape (0x75 :: c1 :: c2 :: c3 :: c4 :: rest) = some ([((d1 * 16 + d2) * 16 + d3) * 16 + d4], rest) ∧
      ((d1 * 16 + d2) * 16 + d3) * 16 + d4 < 2 ^ 16 := by
  have hd1 := (hexValue_of_hexDigit h1).2
  have hd2 := (hexValue_of_hexDigit h2).2
  have hd3 := (hexValue_of_hexDigit h3).2
  have hd4 := (hexValue_of_hexDigit h4).2
  have hvalue : ((d1 * 16 + d2) * 16 + d3) * 16 + d4 < 2 ^ 16 := by omega
  refine ⟨decodeEscape_unicode ?_ (by omega), hvalue⟩
  rw [decodeUnicode_succ h1 3 (by omega), decodeUnicode_succ h2 2 (by omega), decodeUnicode_succ h3 1 (by omega),
    decodeUnicode_succ h4 0 (by omega), decodeUnicode, Nat.zero_add]

theorem hexValue_kEndOfString : hexValue kEndOfString < 0 := by decide +kernel

theorem scanUnicodeCharacter_cons (n value u : Nat) (rest : List Nat) :
    scanUnicodeCharacter (n + 1) value (u :: rest) =
      if hexValue (rest.headD kEndOfString) < 0 then (kInvalidUnicodeCharacter, rest)
      else scanUnicodeCharacter n (value * 16 + (hexValue (rest.headD kEndOfString)).toNat) rest := rfl

/-- One more digit, or none. -/
theorem scanUnicodeCharacter_succ (hrest : ∀ c ∈ rest, c < 2 ^ 16) (n value u : Nat) :
    (∃ c d rest', rest = c :: rest' ∧ hexDigit c = some d ∧
      scanUnicodeCharacter (n + 1) value (u :: rest) = scanUnicodeCharacter n (value * 16 + d) (c :: rest')) ∨
    (scanUnicodeCharacter (n + 1) value (u :: rest)).1 = kInvalidUnicodeCharacter := by
  rw [scanUnicodeCharacter_cons]
  by_cases hneg : hexValue (rest.headD kEndOfString) < 0
  · rw [if_pos hneg]
    exact .inr rfl
  · rw [if_neg hneg]
    cases rest with
    | nil => exact absurd hexValue_kEndOfString hneg
    | cons c rest' =>
      rw [List.headD_cons] at hneg ⊢
      obtain ⟨d, hd⟩ := hexDigit_of_hexValue (by have := hrest c List.mem_cons_self; omega) hneg
      rw [(hexValue_of_hexDigit hd).1]
      exact .inl ⟨c, d, rest', rfl, hd, rfl⟩

/-- Four digits, or not. -/
theorem scanUnicodeCharacter_cases (hrest : ∀ c ∈ rest, c < 2 ^ 16) (u : Nat) :
    (∃ c1 c2 c3 c4 d1 d2 d3 d4 rest', rest = c1 :: c2 :: c3 :: c4 :: rest' ∧ hexDigit c1 = some d1 ∧ hexDigit c2 = some d2 ∧
      hexDigit c3 = some d3 ∧ hexDigit c4 = some d4) ∨
    (scanUnicodeCharacter 4 0 (u :: rest)).1 = kInvalidUnicodeCharacter := by
  rcases scanUnicodeCharacter_succ hrest 3 0 u with ⟨c1, d1, r1, rfl, h1, hrun1⟩ | hinvalid
  · have hr1 : ∀ c ∈ r1, c < 2 ^ 16 := fun c hc => hrest c (List.mem_cons_of_mem _ hc)
    rw [hrun1]
    rcases scanUnicodeCharacter_succ hr1 2 (0 * 16 + d1) c1 with ⟨c2, d2, r2, rfl, h2, hrun2⟩ | hinvalid
    · have hr2 : ∀ c ∈ r2, c < 2 ^ 16 := fun c hc => hr1 c (List.mem_cons_of_mem _ hc)
      rw [hrun2]
      rcases scanUnicodeCharacter_succ hr2 1 ((0 * 16 + d1) * 16 + d2) c2 with ⟨c3, d3, r3, rfl, h3, hrun3⟩ | hinvalid
      · have hr3 : ∀ c ∈ r3, c < 2 ^ 16 := fun c hc => hr2 c (List.mem_cons_of_mem _ hc)
        rw [hrun3]
        rcases scanUnicodeCharacter_succ hr3 0 (((0 * 16 + d1) * 16 + d2) * 16 + d3) c3 with
          ⟨c4, d4, r4, rfl, h4, _⟩ | hinvalid
        · exact .inl ⟨c1, c2, c3, c4, d1, d2, d3, d4, r4, rfl, h1, h2, h3, h4⟩
        · exact .inr hinvalid
      · exact .inr hinvalid
    · exact .inr hinvalid
  · exact .inr hinvalid

/-! ## Decoding -/

section Decode
variable {sink : CharWidth}

/-- A character that is copied. -/
theorem decodeLoop_plain (hc : c ≠ backslash) (fuel n : Nat) (rest : List Nat) :
    decodeLoop sink (fuel + 1) (n + 1) (c :: rest) =
      (decodeLoop sink (fuel + 1) n rest).map (c % 256 ^ sink.size :: ·) := by
  simp only [decodeLoop, copyToBackslash, if_neg hc, bind, Option.bind, pure]
  cases copyToBackslash n rest with
  | none => rfl
  | some r =>
    obtain ⟨copied, n', rest'⟩ := r
    simp only [List.map_cons]
    split
    · rfl
    · cases decodeEscape rest'.tail with
      | none => rfl
      | some e =>
        obtain ⟨units, rest''⟩ := e
        simp only
        split
        · rfl
        · cases decodeLoop sink fuel (n' - units.length) rest'' with
          | none => rfl
          | some written => simp

/-- An escape that stands for one code unit. -/
theorem decodeLoop_escape {rest' : List Nat} (h : decodeEscape rest = some ([u], rest')) (fuel n : Nat) :
    decodeLoop sink (fuel + 1) (n + 1) (backslash :: rest) = (decodeLoop sink fuel n rest').map (u % 256 ^ sink.size :: ·) := by
  simp only [decodeLoop, copyToBackslash, if_pos, bind, Option.bind, pure, List.tail_cons, h,
    List.length_singleton, Nat.add_sub_cancel]
  rw [if_neg (by omega)]
  cases decodeLoop sink fuel n rest' with
  | none => rfl
  | some written => rfl

/-- The characters are decoded without a look at what stands behind them. -/
theorem decodeLoop_chars (h : IsChars cs units) (rest : List Nat) (fuel : Nat)
    (hfuel : units.length < fuel) :
    decodeLoop sink fuel units.length (cs ++ rest) = some (units.map (· % 256 ^ sink.size)) := by
  induction h generalizing fuel with
  | nil =>
    obtain ⟨fuel, rfl⟩ : ∃ k, fuel = k + 1 := ⟨fuel - 1, by simp at hfuel; omega⟩
    simp [decodeLoop, copyToBackslash]
  | plain hlow hquote hback _ ih =>
    obtain ⟨fuel, rfl⟩ : ∃ k, fuel = k + 1 := ⟨fuel - 1, by simp at hfuel; omega⟩
    rw [List.length_cons, List.cons_append, decodeLoop_plain hback, ih (fuel + 1) (by simp at hfuel; omega)]
    rfl
  | escape hu _ ih =>
    obtain ⟨fuel, rfl⟩ : ∃ k, fuel = k + 1 := ⟨fuel - 1, by simp at hfuel; omega⟩
    obtain ⟨_, _, _, _, hdecode⟩ := escaped_spec hu
    rw [List.length_cons, List.cons_append, List.cons_append, decodeLoop_escape (hdecode _), ih fuel (by simp at hfuel; omega)]
    rfl
  | unicode h1 h2 h3 h4 _ ih =>
    obtain ⟨fuel, rfl⟩ : ∃ k, fuel = k + 1 := ⟨fuel - 1, by simp at hfuel; omega⟩
    simp only [List.cons_append]
    rw [List.length_cons, decodeLoop_escape (decodeUnicode_digits h1 h2 h3 h4 _).1, ih fuel (by simp at hfuel; omega)]
    rfl

end Decode

/-! ## Scanning -/

section Scan
variable {w : CharWidth} {need : Bool} {start : Nat}

/-- The bits after a character that is not escaped. -/
def addBits (w : CharWidth) (bits c : Nat) : Nat := if w.size = 2 ∧ c > kMaxChar then bits ||| c else bits

/-- Whether the result has characters of the other type than the source. -/
def convert (w : CharWidth) (bits : Nat) : Bool := if w.size = 1 then decide (bits > kMaxChar) else decide (bits ≤ kMaxChar)

theorem mayTerminateJsonString_plain (hlow : 0x20 ≤ c) (hquote : c ≠ quote) (hback : c ≠ backslash) :
    mayTerminateJsonString c = false := by
  simp [mayTerminateJsonString, hquote, hback]
  omega

theorem findStringEnd_plain (hlow : 0x20 ≤ c) (hquote : c ≠ quote) (hback : c ≠ backslash) (rest : List Nat)
    (bits : Nat) : findStringEnd w (c :: rest) bits = findStringEnd w rest (addBits w bits c) := by
  rw [findStringEnd, mayTerminateJsonString_plain hlow hquote hback, addBits]
  split <;> rfl

theorem findStringEnd_stop (hc : mayTerminateJsonString c = true) (rest : List Nat) (bits : Nat) :
    findStringEnd w (c :: rest) bits = (c :: rest, bits) := by
  have hle : c ≤ kMaxChar := by
    simp only [mayTerminateJsonString, Bool.or_eq_true, decide_eq_true_eq, beq_iff_eq, quote, backslash] at hc
    unfold kMaxChar
    omega
  rw [findStringEnd, if_neg (by omega), hc, if_pos rfl]

variable (p : JsonParser w) (offset : Nat) (esc : Bool) (bits fuel : Nat) {c : Nat} (rest : List Nat)

theorem scanStep_plain (hlow : 0x20 ≤ c) (hquote : c ≠ quote) (hback : c ≠ backslash) :
    JsonParser.scanStringStep need start offset esc bits { p with rest := c :: rest } =
      JsonParser.scanStringStep need start offset esc (addBits w bits c) { p with rest := rest } := by
  unfold JsonParser.scanStringStep
  simp only [findStringEnd_plain hlow hquote hback]

theorem scanStep_quote :
    JsonParser.scanStringStep need start offset esc bits { p with rest := quote :: rest } =
      .done (.new start (p.source.chars.length - (rest.length + 1) - offset) (convert w bits) need esc)
        { p with rest := rest } := by
  unfold JsonParser.scanStringStep
  simp only [findStringEnd_stop (show mayTerminateJsonString quote = true by decide), if_pos]
  rfl

theorem scanStep_backslash :
    JsonParser.scanStringStep need start offset esc bits { p with rest := backslash :: rest } =
      JsonParser.scanEscape offset bits { p with rest := rest } := by
  unfold JsonParser.scanStringStep
  simp only [findStringEnd_stop (show mayTerminateJsonString backslash = true by decide),
    if_neg (show backslash ≠ quote by decide), if_pos]

theorem scanEscape_escaped (h : escaped c = some u) :
    JsonParser.scanEscape offset bits { p with rest := c :: rest } = .more (offset + 1) bits { p with rest := rest } := by
  obtain ⟨hle, _, hunicode, hillegal, _⟩ := escaped_spec h
  unfold JsonParser.scanEscape
  simp only [if_neg (show ¬ c > kMaxChar by omega)]

theorem scanEscape_unicode {tail : List Nat}
    (h : scanUnicodeCharacter 4 0 (0x75 :: tail) = (value, u :: rest)) (hvalue : value < 2 ^ 16) :
    JsonParser.scanEscape offset bits { p with rest := 0x75 :: tail } =
      .more (offset + 5) (bits ||| value) { p with rest := rest } := by
  have hinvalid : value ≠ kInvalidUnicodeCharacter := by
    unfold kInvalidUnicodeCharacter
    omega
  unfold JsonParser.scanEscape
  rw [h, JsonParser.scanUnicodeEscape, if_neg hinvalid, if_neg (show ¬ value > 0xFFFF by omega)]
  rfl

theorem scanLoop_plain (hlow : 0x20 ≤ c) (hquote : c ≠ quote) (hback : c ≠ backslash) :
    JsonParser.scanJsonStringLoop need start (fuel + 1) offset esc bits { p with rest := c :: rest } =
      JsonParser.scanJsonStringLoop need start (fuel + 1) offset esc (addBits w bits c) { p with rest := rest } := by
  rw [JsonParser.scanJsonStringLoop, JsonParser.scanJsonStringLoop, scanStep_plain p offset esc bits rest hlow hquote hback]

theorem scanLoop_quote :
    JsonParser.scanJsonStringLoop need start (fuel + 1) offset esc bits { p with rest := quote :: rest } =
      some (.new start (p.source.chars.length - (rest.length + 1) - offset) (convert w bits) need esc, { p with rest := rest }) := by
  rw [JsonParser.scanJsonStringLoop, scanStep_quote]

theorem scanLoop_escape (h : escaped c = some u) :
    JsonParser.scanJsonStringLoop need start (fuel + 1) offset esc bits { p with rest := backslash :: c :: rest } =
      JsonParser.scanJsonStringLoop need start fuel (offset + 1) true bits { p with rest := rest } := by
  rw [JsonParser.scanJsonStringLoop, scanStep_backslash, scanEscape_escaped p offset bits rest h]

theorem scanLoop_unicode (h1 : hexDigit c1 = some d1) (h2 : hexDigit c2 = some d2) (h3 : hexDigit c3 = some d3)
    (h4 : hexDigit c4 = some d4) :
    JsonParser.scanJsonStringLoop need start (fuel + 1) offset esc bits
        { p with rest := backslash :: 0x75 :: c1 :: c2 :: c3 :: c4 :: rest } =
      JsonParser.scanJsonStringLoop need start fuel (offset + 5) true (bits ||| (((d1 * 16 + d2) * 16 + d3) * 16 + d4))
        { p with rest := rest } := by
  rw [JsonParser.scanJsonStringLoop, scanStep_backslash,
    scanEscape_unicode p offset bits rest (scanUnicodeCharacter_digits h1 h2 h3 h4 0x75 rest)
      (decodeUnicode_digits h1 h2 h3 h4 rest).2]

theorem isChars_length_le (h : IsChars cs units) : units.length ≤ cs.length := by
  induction h with
  | nil => exact Nat.le_refl _
  | plain _ _ _ _ ih => exact Nat.succ_le_succ ih
  | escape _ _ ih =>
    simp only [List.length_cons]
    omega
  | unicode _ _ _ _ _ ih =>
    simp only [List.length_cons]
    omega

variable (need start) in
/-- The characters of the grammar are accepted up to the closing quote. -/
theorem scanLoop_chars (h : IsChars cs units) (r : List Nat) (hfuel : units.length < fuel)
    (hbound : ∀ c ∈ cs, c < 256 ^ w.size) :
    ∃ bits' esc', JsonParser.scanJsonStringLoop need start fuel offset esc bits { p with rest := cs ++ quote :: r } =
        some (.new start (p.source.chars.length - (r.length + 1) - (offset + (cs.length - units.length))) (convert w bits') need
          esc', { p with rest := r }) ∧
      bits ≤ bits' ∧ (∀ u ∈ units, u ≤ kMaxChar ∨ u ≤ bits') ∧
      (esc' = false → esc = false ∧ units = cs) := by
  induction h generalizing offset esc bits fuel with
  | nil =>
    obtain ⟨fuel, rfl⟩ : ∃ k, fuel = k + 1 := ⟨fuel - 1, by simp at hfuel; omega⟩
    exact ⟨bits, esc, scanLoop_quote p offset esc bits fuel r, Nat.le_refl _, by simp, fun h => ⟨h, rfl⟩⟩
  | @plain c cs units hlow hquote hback hcs ih =>
    obtain ⟨fuel, rfl⟩ : ∃ k, fuel = k + 1 := ⟨fuel - 1, by simp at hfuel; omega⟩
    rw [List.cons_append, scanLoop_plain p offset esc bits fuel _ hlow hquote hback]
    obtain ⟨bits', esc', hrun, hbits, hunits, hesc⟩ := ih offset esc (addBits w bits c) (fuel + 1)
      (by simp at hfuel; omega) (fun c hc => hbound c (List.mem_cons_of_mem _ hc))
    have hle : bits ≤ addBits w bits c := by
      unfold addBits
      split
      · exact Nat.left_le_or
      · exact Nat.le_refl _
    refine ⟨bits', esc', ?_, Nat.le_trans hle hbits, ?_, fun h => ⟨(hesc h).1, by rw [(hesc h).2]⟩⟩
    · rw [hrun, List.length_cons, List.length_cons, Nat.add_sub_add_right]
    · intro u hu
      rcases List.mem_cons.1 hu with rfl | hu
      · by_cases hwide : u ≤ kMaxChar
        · exact .inl hwide
        · right
          have hsize : w.size = 2 := by
            have := hbound u List.mem_cons_self
            cases w with
            | oneByte =>
              simp only [CharWidth.size, kMaxChar] at this hwide
              omega
            | twoByte => rfl
          rw [addBits, if_pos ⟨hsize, by omega⟩] at hbits
          exact Nat.le_trans Nat.right_le_or hbits
      · exact hunits u hu
  | @escape c u cs units hu hcs ih =>
    obtain ⟨fuel, rfl⟩ : ∃ k, fuel = k + 1 := ⟨fuel - 1, by simp at hfuel; omega⟩
    rw [List.cons_append, List.cons_append, scanLoop_escape p offset esc bits fuel _ hu]
    obtain ⟨bits', esc', hrun, hbits, hunits, hesc⟩ := ih (offset + 1) true bits fuel (by simp at hfuel; omega)
      (fun c hc => hbound c (List.mem_cons_of_mem _ (List.mem_cons_of_mem _ hc)))
    refine ⟨bits', esc', ?_, hbits, ?_, fun h => absurd (hesc h).1 (by decide)⟩
    · have hlen := isChars_length_le hcs
      rw [hrun]
      congr 4
      simp only [List.length_cons]
      omega
    · intro u' hu'
      rcases List.mem_cons.1 hu' with rfl | hu'
      · exact .inl (escaped_spec hu).2.1
      · exact hunits u' hu'
  | @unicode c1 c2 c3 c4 d1 d2 d3 d4 cs units h1 h2 h3 h4 hcs ih =>
    obtain ⟨fuel, rfl⟩ : ∃ k, fuel = k + 1 := ⟨fuel - 1, by simp at hfuel; omega⟩
    simp only [List.cons_append]
    rw [scanLoop_unicode p offset esc bits fuel _ h1 h2 h3 h4]
    obtain ⟨bits', esc', hrun, hbits, hunits, hesc⟩ := ih (offset + 5) true
      (bits ||| (((d1 * 16 + d2) * 16 + d3) * 16 + d4)) fuel (by simp at hfuel; omega)
      (fun c hc => hbound c (by simp [hc]))
    refine ⟨bits', esc', ?_, Nat.le_trans Nat.left_le_or hbits, ?_, fun h => absurd (hesc h).1 (by decide)⟩
    · have hlen := isChars_length_le hcs
      rw [hrun]
      congr 4
      simp only [List.length_cons]
      omega
    · intro u' hu'
      rcases List.mem_cons.1 hu' with rfl | hu'
      · exact .inr (Nat.le_trans Nat.right_le_or hbits)
      · exact hunits u' hu'

/-! ## What is accepted -/

theorem exception_reportUnexpectedToken (token : JsonToken) (message : Option MessageTemplate) :
    (p.reportUnexpectedToken token message).exception.isSome := by
  unfold JsonParser.reportUnexpectedToken
  split
  · assumption
  · rfl

theorem exception_reportUnexpectedCharacter (c : Option Nat) : (p.reportUnexpectedCharacter c).exception.isSome := by
  cases c with
  | none => exact exception_reportUnexpectedToken p _ _
  | some c => exact exception_reportUnexpectedToken p _ _

/-- An escape is one of the grammar, or an error. -/
theorem scanEscape_cases (hrest : ∀ c ∈ rest, c < 2 ^ 16) :
    (∃ s p', JsonParser.scanEscape offset bits { p with rest := rest } = .done s p' ∧ p'.exception.isSome) ∨
    (∃ c u tail, rest = c :: tail ∧ escaped c = some u) ∨
    ∃ c1 c2 c3 c4 d1 d2 d3 d4 tail, rest = 0x75 :: c1 :: c2 :: c3 :: c4 :: tail ∧ hexDigit c1 = some d1 ∧
      hexDigit c2 = some d2 ∧ hexDigit c3 = some d3 ∧ hexDigit c4 = some d4 := by
  cases rest with
  | nil => exact .inl ⟨_, _, rfl, exception_reportUnexpectedCharacter _ _⟩
  | cons c tail =>
    unfold JsonParser.scanEscape
    simp only
    by_cases hc : c > kMaxChar
    · rw [if_pos hc]
      exact .inl ⟨_, _, rfl, exception_reportUnexpectedCharacter _ _⟩
    · rw [if_neg hc]
      by_cases hunicode : getEscapeKind c = .kUnicode
      · obtain rfl := getEscapeKind_eq_unicode hunicode
        rcases scanUnicodeCharacter_cases (fun c hc => hrest c (List.mem_cons_of_mem _ hc)) 0x75 with
          ⟨c1, c2, c3, c4, d1, d2, d3, d4, tail', rfl, h1, h2, h3, h4⟩ | hinvalid
        · exact .inr (.inr ⟨c1, c2, c3, c4, d1, d2, d3, d4, tail', rfl, h1, h2, h3, h4⟩)
        · left
          rw [hinvalid, JsonParser.scanUnicodeEscape]
          exact ⟨_, _, rfl, exception_reportUnexpectedToken _ _ _⟩
      · by_cases hillegal : getEscapeKind c = .kIllegal
        · simp only [hillegal]
          exact .inl ⟨_, _, rfl, exception_reportUnexpectedToken _ _ _⟩
        · obtain ⟨u, hu⟩ := exists_escaped hunicode hillegal
          exact .inr (.inl ⟨c, u, tail, rfl, hu⟩)

variable (need start) in
/-- The scanner always ends. Without an error it has read the characters of a literal. -/
theorem scanLoop_total (hrest : ∀ c ∈ rest, c < 2 ^ 16) (hfuel : rest.length < fuel) :
    ∃ s p', JsonParser.scanJsonStringLoop need start fuel offset esc bits { p with rest := rest } = some (s, p') ∧
      (p'.exception.isSome ∨ ∃ cs units r, rest = cs ++ quote :: r ∧ IsChars cs units) := by
  induction hn : rest.length using Nat.strongRecOn generalizing rest offset esc bits fuel with
  | ind n ih =>
    obtain ⟨fuel, rfl⟩ : ∃ k, fuel = k + 1 := ⟨fuel - 1, by omega⟩
    cases rest with
    | nil =>
      rw [JsonParser.scanJsonStringLoop]
      exact ⟨_, _, rfl, .inl (exception_reportUnexpectedToken _ _ _)⟩
    | cons c tail =>
      have htail : ∀ c ∈ tail, c < 2 ^ 16 := fun c hc => hrest c (List.mem_cons_of_mem _ hc)
      simp only [List.length_cons] at hn hfuel
      by_cases hquote : c = quote
      · subst hquote
        exact ⟨_, _, scanLoop_quote p offset esc bits fuel tail, .inr ⟨[], [], tail, rfl, .nil⟩⟩
      · by_cases hback : c = backslash
        · subst hback
          rcases scanEscape_cases p offset bits tail htail with ⟨s, p', hdone, herror⟩ | ⟨c, u, tail', rfl, hu⟩ |
            ⟨c1, c2, c3, c4, d1, d2, d3, d4, tail', rfl, h1, h2, h3, h4⟩
          · rw [JsonParser.scanJsonStringLoop, scanStep_backslash, hdone]
            exact ⟨s, p', rfl, .inl herror⟩
          · rw [scanLoop_escape p offset esc bits fuel tail' hu]
            simp only [List.length_cons] at hn hfuel
            obtain ⟨s, p', hrun, hres⟩ := ih tail'.length (by omega) (offset + 1) true bits fuel tail'
              (fun c hc => htail c (List.mem_cons_of_mem _ hc)) (by omega) rfl
            refine ⟨s, p', hrun, hres.imp_right ?_⟩
            rintro ⟨cs, units, r, rfl, hchars⟩
            exact ⟨_, _, r, rfl, .escape hu hchars⟩
          · rw [scanLoop_unicode p offset esc bits fuel tail' h1 h2 h3 h4]
            simp only [List.length_cons] at hn hfuel
            obtain ⟨s, p', hrun, hres⟩ := ih tail'.length (by omega) (offset + 5) true _ fuel tail'
              (fun c hc => htail c (by simp [hc])) (by omega) rfl
            refine ⟨s, p', hrun, hres.imp_right ?_⟩
            rintro ⟨cs, units, r, rfl, hchars⟩
            exact ⟨_, _, r, rfl, .unicode h1 h2 h3 h4 hchars⟩
        · by_cases hlow : 0x20 ≤ c
          · rw [scanLoop_plain p offset esc bits fuel tail hlow hquote hback]
            obtain ⟨s, p', hrun, hres⟩ := ih tail.length (by omega) offset esc (addBits w bits c) (fuel + 1) tail htail
              (by omega) rfl
            refine ⟨s, p', hrun, hres.imp_right ?_⟩
            rintro ⟨cs, units, r, rfl, hchars⟩
            exact ⟨_, _, r, rfl, .plain hlow hquote hback hchars⟩
          · -- a control character ends the search, and is an error
            have hstop : mayTerminateJsonString c = true := by
              simp only [mayTerminateJsonString, Bool.or_eq_true, decide_eq_true_eq]
              exact .inl (.inl (by omega))
            rw [JsonParser.scanJsonStringLoop, JsonParser.scanStringStep]
            simp only [findStringEnd_stop hstop, if_neg hquote, if_neg hback]
            exact ⟨_, _, rfl, .inl (exception_reportUnexpectedToken _ _ _)⟩

end Scan

/-! ## Literals of a source text -/

theorem isChars_lt (h : IsChars cs units) (hcs : ∀ c ∈ cs, c < 2 ^ 16) :
    ∀ u ∈ units, u < 2 ^ 16 := by
  induction h with
  | nil => exact fun u hu => absurd hu List.not_mem_nil
  | plain _ _ _ _ ih =>
    intro u hu
    rcases List.mem_cons.1 hu with rfl | hu
    · exact hcs u List.mem_cons_self
    · exact ih (fun c hc => hcs c (List.mem_cons_of_mem _ hc)) u hu
  | escape hescaped _ ih =>
    intro u hu
    rcases List.mem_cons.1 hu with rfl | hu
    · have := (escaped_spec hescaped).2.1
      unfold kMaxChar at this
      omega
    · exact ih (fun c hc => hcs c (by simp [hc])) u hu
  | unicode h1 h2 h3 h4 _ ih =>
    intro u hu
    rcases List.mem_cons.1 hu with rfl | hu
    · exact (decodeUnicode_digits h1 h2 h3 h4 []).2
    · exact ih (fun c hc => hcs c (by simp [hc])) u hu

/-- The type of the characters of the result. -/
def sinkOf (w : CharWidth) (needsConversion : Bool) : CharWidth :=
  if w.size = 1 then if needsConversion then .twoByte else .oneByte
  else if needsConversion then .oneByte else .twoByte

theorem char_lt_two_pow (h : c < 256 ^ w.size) : c < 2 ^ 16 := by
  cases w with
  | oneByte =>
    simp only [CharWidth.size] at h
    omega
  | twoByte =>
    simp only [CharWidth.size] at h
    omega

/-- The bits that were collected tell whether all code units fit. -/
theorem unit_lt_sinkOf {bits : Nat} (hu : u < 2 ^ 16) (hbits : u ≤ kMaxChar ∨ u ≤ bits) :
    u < 256 ^ (sinkOf w (convert w bits)).size := by
  have htwo : 256 ^ CharWidth.twoByte.size = 2 ^ 16 := by decide
  have hone : 256 ^ CharWidth.oneByte.size = kMaxChar + 1 := by decide
  unfold sinkOf convert
  split
  · split
    · rwa [htwo]
    · rename_i h
      rw [hone]
      simp only [decide_eq_true_eq] at h
      omega
  · split
    · rename_i h
      rw [hone]
      simp only [decide_eq_true_eq] at h
      omega
    · rwa [htwo]

theorem map_mod_of_lt {m : Nat} (h : ∀ u ∈ units, u < m) : units.map (· % m) = units := by
  conv_rhs => rw [← List.map_id units]
  exact List.map_congr_left fun u hu => Nat.mod_eq_of_lt (h u hu)

theorem makeString_span (w : CharWidth) (source : List Nat) (start length : Nat) (needsConversion internalize esc : Bool) :
    makeString w source (.span start length needsConversion internalize esc) =
      if length = 0 then some ⟨.oneByte, []⟩
      else if esc then (decodeString source (sinkOf w needsConversion) start length).map (⟨sinkOf w needsConversion, ·⟩)
      else (copyChars source (sinkOf w needsConversion) start length).map (⟨sinkOf w needsConversion, ·⟩) := rfl

theorem decodeString_chars {source r : List Nat} {start : Nat} {sink : CharWidth} (h : IsChars cs units)
    (hsource : source.drop start = cs ++ r) (hfits : ∀ u ∈ units, u < 256 ^ sink.size) :
    decodeString source sink start units.length = some units := by
  rw [decodeString, hsource, decodeLoop_chars h r _ (Nat.lt_succ_self _), map_mod_of_lt hfits]

/-- A string is made from the characters of its literal alone. -/
theorem makeString_chars {source r : List Nat} {start : Nat} {needsConversion esc : Bool}
    (internalize : Bool) (h : IsChars cs units) (hsource : source.drop start = cs ++ r)
    (hstart : start ≤ source.length) (hfits : ∀ u ∈ units, u < 256 ^ (sinkOf w needsConversion).size)
    (hesc : esc = false → units = cs) :
    makeString w source (.span start units.length needsConversion internalize esc) =
      some ⟨if units.length = 0 then .oneByte else sinkOf w needsConversion, units⟩ := by
  rw [makeString_span]
  by_cases hzero : units.length = 0
  · obtain rfl := List.length_eq_zero_iff.1 hzero
    rfl
  · rw [if_neg hzero, if_neg hzero]
    cases esc with
    | true =>
      rw [decodeString_chars h hsource hfits]
      rfl
    | false =>
      obtain rfl := hesc rfl
      have hlen : start + units.length ≤ source.length := by
        have := congrArg List.length hsource
        simp only [List.length_drop, List.length_append] at this
        omega
      rw [copyChars, if_pos hlen, hsource, List.take_left, map_mod_of_lt hfits]
      rfl

/-- A literal that the scanner accepts has the recorded length, its code units fit in the type that is chosen for them,
and they are decoded from what stands before the closing quote. -/
theorem scanJsonString_literal {w : CharWidth} (source : Text w) {start : Nat} (hstart : start ≤ source.chars.length)
    (next : JsonToken) (need : Bool) {s : JsonString} {p : JsonParser w}
    (hscan : JsonParser.scanJsonString ⟨source, source.chars.drop start, next, none⟩ need = some (s, p))
    (haccepts : p.exception = none) :
    ∃ cs units convert internalize hasEscape, source.chars.drop start = cs ++ quote :: p.rest ∧ IsChars cs units ∧
      s = .span start units.length convert internalize hasEscape ∧
      (∃ width, makeString w source.chars s = some ⟨width, units⟩ ∧ ∀ u ∈ units, u < 256 ^ width.size) ∧
      decodeString source.chars (sinkOf w convert) start units.length = some units ∧
      decodeString (source.chars.take (start + cs.length)) (sinkOf w convert) start units.length = some units ∧
      makeString w (source.chars.take (start + cs.length)) s = makeString w source.chars s := by
  have hchar : ∀ c ∈ source.chars.drop start, c < 256 ^ w.size := fun c hc => source.bounded c (List.mem_of_mem_drop hc)
  have hposition : JsonParser.position ⟨source, source.chars.drop start, next, none⟩ = start := by
    simp only [JsonParser.position, List.length_drop]
    omega
  unfold JsonParser.scanJsonString at hscan
  rw [hposition] at hscan
  obtain ⟨s', p', hrun, hres⟩ := scanLoop_total need start ⟨source, [], next, none⟩ start false 0
    ((source.chars.drop start).length + 1) _ (fun c hc => char_lt_two_pow (hchar c hc)) (Nat.lt_succ_self _)
  rw [hrun] at hscan
  cases hscan
  rcases hres with herror | ⟨cs, units, r, hsource, hchars⟩
  · rw [haccepts] at herror
    cases herror
  have hlength : (source.chars.drop start).length = cs.length + (r.length + 1) := by
    rw [hsource, List.length_append, List.length_cons]
  have hcs : ∀ c ∈ cs, c < 256 ^ w.size := fun c hc => hchar c (by rw [hsource]; exact List.mem_append_left _ hc)
  have hle := isChars_length_le hchars
  obtain ⟨bits, esc, hrun', _, hbits, hesc⟩ := scanLoop_chars need start ⟨source, [], next, none⟩ start false 0
    ((cs ++ quote :: r).length + 1) hchars r (by rw [← hsource]; omega) hcs
  rw [hsource] at hrun
  obtain ⟨hs, hp⟩ := Prod.mk.inj (Option.some.inj (hrun.symm.trans hrun'))
  have hlen : source.chars.length - (r.length + 1) - (start + (cs.length - units.length)) = units.length := by
    rw [List.length_drop] at hlength
    omega
  have hfits : ∀ u ∈ units, u < 256 ^ (sinkOf w (convert w bits)).size := fun u hu =>
    unit_lt_sinkOf (isChars_lt hchars (fun c hc => char_lt_two_pow (hcs c hc)) u hu) (hbits u hu)
  have htake : (source.chars.take (start + cs.length)).drop start = cs ++ [] := by
    rw [List.drop_take, hsource, Nat.add_sub_cancel_left, List.take_left, List.append_nil]
  have htakeLength : start ≤ (source.chars.take (start + cs.length)).length := by
    rw [List.length_take]
    omega
  rw [hlen] at hs
  subst hs hp
  have hmake := fun internalize => makeString_chars internalize hchars hsource hstart hfits fun h => (hesc h).2
  refine ⟨cs, units, _, _, esc, hsource, hchars, rfl, ⟨_, hmake _, ?_⟩, decodeString_chars hchars hsource hfits,
    decodeString_chars hchars htake hfits, ?_⟩
  · intro u hu
    rw [if_neg (fun h => List.ne_nil_of_mem hu (List.length_eq_zero_iff.1 h))]
    exact hfits u hu
  · rw [JsonString.new, hmake]
    exact makeString_chars _ hchars htake htakeLength hfits fun h => (hesc h).2

/-- The literal of an `a` and an escaped `b`. -/
def literalAB : Text .oneByte := ⟨[0x22, 0x61, 0x5C, 0x75, 0x30, 0x30, 0x36, 0x32, 0x22], by decide⟩

theorem scanJsonString_literalAB :
    ∃ cs units : List Nat, literalAB.chars.drop 1 = cs ++ [quote] ∧ IsChars cs units ∧
      decodeString literalAB.chars .oneByte 1 units.length = some units := by
  obtain ⟨cs, units, conv, _, _, hsource, hchars, hs, _, hdecode, _⟩ :=
    scanJsonString_literal literalAB (show 1 ≤ literalAB.chars.length by decide) .string false
      (show JsonParser.scanJsonString ⟨literalAB, literalAB.chars.drop 1, .string, none⟩ false =
        some (.span 1 2 false true true, ⟨literalAB, [], .string, none⟩) from rfl) rfl
  obtain ⟨_, _, rfl, _⟩ := JsonString.span.inj hs
  exact ⟨cs, units, hsource, hchars, hdecode⟩

end V8Core.Json
