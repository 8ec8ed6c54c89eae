import V8Core.Lib.UnsignedWord

/-!
# The field offsets of a Wasm struct

`StructType::InitializeOffsets` walks over the fields once. A field goes into the last gap that alignment
left behind if it fits there, and else behind the fields placed so far. All numbers are 32-bit words.

`Layout` is the same walk over unbounded numbers. `Room` says where later fields can still go, and `place_spec`
that a field takes its bytes out of that room, so two fields never meet. `placeFields_eq` carries this over to the
words: they are the unbounded numbers as long as the whole layout ends below `2 ^ 32`.
-/

namespace V8Core.Wasm

open UnsignedWord

/-- The variables of the loop. -/
structure Offsets where
  offset : Nat
  gapPosition : Nat
  gapSize : Nat

/-- `Align`. -/
def align (kTaggedSize offset alignment : Nat) : Nat := roundUp 32 offset (min alignment kTaggedSize)

/-- One iteration: the offset of the field, and the variables after it. -/
def placeField (kTaggedSize : Nat) (s : Offsets) (fieldSize : Nat) : Nat × Offsets :=
  let alignedGap := align kTaggedSize s.gapPosition fieldSize
  let gapBefore := subWord 32 alignedGap s.gapPosition
  let alignedGapSize := subWord 32 s.gapSize gapBefore
  if fieldSize ≤ s.gapSize ∧ fieldSize ≤ alignedGapSize then
    let gapAfter := subWord 32 alignedGapSize fieldSize
    if gapBefore > gapAfter then (alignedGap, ⟨s.offset, s.gapPosition, gapBefore⟩)
    else (alignedGap, ⟨s.offset, addWord 32 alignedGap fieldSize, gapAfter⟩)
  else
    let offset := align kTaggedSize s.offset fieldSize
    let gap := subWord 32 offset s.offset
    if gap > s.gapSize then (offset, ⟨addWord 32 offset fieldSize, s.offset, gap⟩)
    else (offset, ⟨addWord 32 offset fieldSize, s.gapPosition, s.gapSize⟩)

/-- The loop: the offsets of the remaining fields, and the total size behind them. -/
def placeFields (kTaggedSize : Nat) (s : Offsets) : List Nat → List Nat
  | [] => [roundUp 32 s.offset kTaggedSize]
  | fieldSize :: rest =>
    (placeField kTaggedSize s fieldSize).1 :: placeFields kTaggedSize (placeField kTaggedSize s fieldSize).2 rest

/-- `InitializeOffsets`: the array `field_offsets_`, for the sizes of the fields. -/
def initializeOffsets (kTaggedSize : Nat) : List Nat → List Nat
  | [] => []
  | first :: rest => placeFields kTaggedSize ⟨first, 0, 0⟩ rest

/-- `field_offset` of every field, with the size of the field. -/
def fieldRanges (kTaggedSize : Nat) (sizes : List Nat) : List (Nat × Nat) :=
  (0 :: initializeOffsets kTaggedSize sizes).zip sizes

def totalFieldsSize (kTaggedSize : Nat) (sizes : List Nat) : Nat :=
  (initializeOffsets kTaggedSize sizes).getLastD 0

def Apart (f g : Nat × Nat) : Prop := f.1 + f.2 ≤ g.1 ∨ g.1 + g.2 ≤ f.1

/-- The range lies in the gap or behind all fields. -/
def Offsets.Room (s : Offsets) (f : Nat × Nat) : Prop :=
  s.gapPosition ≤ f.1 ∧ f.1 + f.2 ≤ s.gapPosition + s.gapSize ∨ s.offset ≤ f.1

def fieldSizes : List Nat := [1, 2, 4, 8, 16]

/-! ## The layout over unbounded numbers -/

namespace Layout

/-- The next offset that a field may have. -/
def align (kTaggedSize offset alignment : Nat) : Nat :=
  (offset + (min alignment kTaggedSize - 1)) / min alignment kTaggedSize * min alignment kTaggedSize

/-- A field goes into the gap if it fits there, and else behind all fields. -/
def place (kTaggedSize : Nat) (s : Offsets) (fieldSize : Nat) : Nat × Offsets :=
  let alignedGap := align kTaggedSize s.gapPosition fieldSize
  let gapBefore := alignedGap - s.gapPosition
  let gapAfter := s.gapPosition + s.gapSize - (alignedGap + fieldSize)
  if alignedGap + fieldSize ≤ s.gapPosition + s.gapSize then
    if gapBefore > gapAfter then (alignedGap, ⟨s.offset, s.gapPosition, gapBefore⟩)
    else (alignedGap, ⟨s.offset, alignedGap + fieldSize, gapAfter⟩)
  else
    let offset := align kTaggedSize s.offset fieldSize
    if offset - s.offset > s.gapSize then (offset, ⟨offset + fieldSize, s.offset, offset - s.offset⟩)
    else (offset, ⟨offset + fieldSize, s.gapPosition, s.gapSize⟩)

def endOffset (kTaggedSize : Nat) : Offsets → List Nat → Nat
  | s, [] => align kTaggedSize s.offset kTaggedSize
  | s, fieldSize :: rest => endOffset kTaggedSize (place kTaggedSize s fieldSize).2 rest

/-- The size that all fields take up, with the padding between them. -/
def totalSize (kTaggedSize : Nat) : List Nat → Nat
  | [] => 0
  | first :: rest => endOffset kTaggedSize ⟨first, 0, 0⟩ rest

section
variable {kTaggedSize fieldSize : Nat}

theorem alignment_pow (ht : kTaggedSize ∈ [4, 8]) (hf : fieldSize ∈ fieldSizes) :
    ∃ k ≤ 3, min fieldSize kTaggedSize = 2 ^ k := by
  have hpow : ∀ t ∈ [4, 8], ∀ n ∈ fieldSizes, ∃ k ≤ 3, min n t = 2 ^ k := by decide
  exact hpow _ ht _ hf

theorem tagged_mem (ht : kTaggedSize ∈ [4, 8]) : kTaggedSize ∈ fieldSizes := by
  have h : ∀ t ∈ [4, 8], t ∈ fieldSizes := by decide
  exact h _ ht

theorem align_spec (ht : kTaggedSize ∈ [4, 8]) (hf : fieldSize ∈ fieldSizes) (offset : Nat) :
    offset ≤ align kTaggedSize offset fieldSize ∧ align kTaggedSize offset fieldSize < offset + min fieldSize kTaggedSize ∧
      min fieldSize kTaggedSize ∣ align kTaggedSize offset fieldSize := by
  obtain ⟨k, -, hk⟩ := alignment_pow ht hf
  have hdiv := Nat.div_add_mod' (offset + (2 ^ k - 1)) (2 ^ k)
  have hmod := Nat.mod_lt (offset + (2 ^ k - 1)) (Nat.two_pow_pos k)
  rw [align, hk]
  exact ⟨by omega, by omega, Nat.dvd_mul_left _ _⟩

/-- A placed field lies in the room there was, and the room left is apart from it. -/
theorem place_spec (ht : kTaggedSize ∈ [4, 8]) (hf : fieldSize ∈ fieldSizes) {s : Offsets}
    (hgap : s.gapPosition + s.gapSize ≤ s.offset) :
    let r := place kTaggedSize s fieldSize
    s.Room (r.1, fieldSize) ∧ r.1 + fieldSize ≤ r.2.offset ∧ s.offset ≤ r.2.offset ∧
      r.2.gapPosition + r.2.gapSize ≤ r.2.offset ∧ ∀ f, r.2.Room f → s.Room f ∧ Apart (r.1, fieldSize) f := by
  obtain ⟨hg, -, -⟩ := align_spec ht hf s.gapPosition
  obtain ⟨ho, -, -⟩ := align_spec ht hf s.offset
  dsimp only [place]
  generalize align kTaggedSize s.gapPosition fieldSize = alignedGap at hg
  generalize align kTaggedSize s.offset fieldSize = offset at ho
  split
  · -- in the gap, which keeps its larger part
    split <;> refine ⟨.inl ⟨hg, ?_⟩, ?_, ?_, ?_, fun f hroom => ⟨?_, ?_⟩⟩ <;>
      simp only [Offsets.Room, Apart] at * <;> omega
  · -- behind all fields; the new gap replaces a smaller one
    split <;> refine ⟨.inr ho, ?_, ?_, ?_, fun f hroom => ⟨?_, ?_⟩⟩ <;>
      simp only [Offsets.Room, Apart] at * <;> omega

theorem le_endOffset (ht : kTaggedSize ∈ [4, 8]) {sizes : List Nat} (hsizes : ∀ n ∈ sizes, n ∈ fieldSizes)
    {s : Offsets} (hgap : s.gapPosition + s.gapSize ≤ s.offset) : s.offset ≤ endOffset kTaggedSize s sizes := by
  induction sizes generalizing s with
  | nil => exact (align_spec ht (tagged_mem ht) s.offset).1
  | cons fieldSize rest ih =>
    rw [List.forall_mem_cons] at hsizes
    obtain ⟨-, -, hoff, hgap', -⟩ := place_spec ht hsizes.1 hgap
    exact hoff.trans (ih hsizes.2 hgap')
end

end Layout

/-! ## The words -/

section
variable {kTaggedSize fieldSize : Nat}

/-- Rounding up does not wrap around if its result is a word. -/
theorem align_eq (ht : kTaggedSize ∈ [4, 8]) (hf : fieldSize ∈ fieldSizes) {offset : Nat}
    (hlt : Layout.align kTaggedSize offset fieldSize < 2 ^ 32) :
    align kTaggedSize offset fieldSize = Layout.align kTaggedSize offset fieldSize := by
  obtain ⟨hle, hup, hdvd⟩ := Layout.align_spec ht hf offset
  obtain ⟨k, hk, hmin⟩ := Layout.alignment_pow ht hf
  have hpow : 2 ^ k ≤ 8 := Nat.pow_le_pow_right (by decide) hk
  have hpos := Nat.two_pow_pos k
  rw [hmin] at hup hdvd
  -- the last multiple below the end of the words leaves room for the alignment
  have hend : Layout.align kTaggedSize offset fieldSize + 2 ^ k ≤ 2 ^ 32 := by
    have hword : 2 ^ k ∣ 2 ^ 32 := Nat.pow_dvd_pow 2 (by omega)
    have hrest := Nat.le_of_dvd (by omega) (Nat.dvd_sub hword hdvd)
    omega
  obtain ⟨-, hge, hlt', hdvd'⟩ := roundUp_spec (w := 32) (x := offset) hpos (by omega) (by omega) (dvd_refl (2 ^ k))
  rw [align, hmin]
  -- two multiples of the alignment less than one alignment behind the offset
  obtain ⟨c, hc⟩ := hdvd
  obtain ⟨d, hd⟩ := hdvd'
  rw [hc] at hle hup ⊢
  rw [hd] at hge hlt' ⊢
  have hcd : 2 ^ k * c < 2 ^ k * (d + 1) := by rw [Nat.mul_add_one]; omega
  have hdc : 2 ^ k * d < 2 ^ k * (c + 1) := by rw [Nat.mul_add_one]; omega
  have hcd' := Nat.lt_of_mul_lt_mul_left hcd
  have hdc' := Nat.lt_of_mul_lt_mul_left hdc
  rw [show c = d by omega]

/-- Every offset is aligned, also behind a wrap-around. -/
theorem dvd_align (ht : kTaggedSize ∈ [4, 8]) (hf : fieldSize ∈ fieldSizes) (offset : Nat) :
    min fieldSize kTaggedSize ∣ align kTaggedSize offset fieldSize := by
  obtain ⟨k, hk, hmin⟩ := Layout.alignment_pow ht hf
  have hpow : 2 ^ k ≤ 8 := Nat.pow_le_pow_right (by decide) hk
  rw [align, hmin]
  exact dvd_roundUp (Nat.two_pow_pos k) (by omega) (dvd_refl _)

theorem dvd_placeField (ht : kTaggedSize ∈ [4, 8]) (hf : fieldSize ∈ fieldSizes) (s : Offsets) :
    min fieldSize kTaggedSize ∣ (placeField kTaggedSize s fieldSize).1 := by
  dsimp only [placeField]
  split <;> split <;> exact dvd_align ht hf _

/-- The gap is below the end of the fields, so the test whether a field fits there is the one of the layout. -/
theorem fits_gap_iff (ht : kTaggedSize ∈ [4, 8]) (hf : fieldSize ∈ fieldSizes) {s : Offsets}
    (hgap : s.gapPosition + s.gapSize < 2 ^ 32) :
    (fieldSize ≤ s.gapSize ∧
        fieldSize ≤ subWord 32 s.gapSize (subWord 32 (align kTaggedSize s.gapPosition fieldSize) s.gapPosition)) ↔
      Layout.align kTaggedSize s.gapPosition fieldSize + fieldSize ≤ s.gapPosition + s.gapSize := by
  obtain ⟨hg, hup, -⟩ := Layout.align_spec ht hf s.gapPosition
  have hmin : min fieldSize kTaggedSize ≤ fieldSize := min_le_left ..
  by_cases hsize : fieldSize ≤ s.gapSize
  · rw [align_eq ht hf (by omega), subWord_of_le hg (by omega), subWord_of_le (by omega) (by omega)]
    omega
  · omega

/-- A field is placed as in the layout if it ends below `2 ^ 32`. -/
theorem placeField_eq (ht : kTaggedSize ∈ [4, 8]) (hf : fieldSize ∈ fieldSizes) {s : Offsets}
    (hgap : s.gapPosition + s.gapSize ≤ s.offset) (hend : (Layout.place kTaggedSize s fieldSize).2.offset < 2 ^ 32) :
    placeField kTaggedSize s fieldSize = Layout.place kTaggedSize s fieldSize := by
  obtain ⟨-, -, hoff, -, -⟩ := Layout.place_spec ht hf hgap
  have hfits := fits_gap_iff ht hf (s := s) (by omega)
  obtain ⟨hg, -, -⟩ := Layout.align_spec ht hf s.gapPosition
  obtain ⟨ho, -, -⟩ := Layout.align_spec ht hf s.offset
  by_cases hfit : Layout.align kTaggedSize s.gapPosition fieldSize + fieldSize ≤ s.gapPosition + s.gapSize
  · have halign := @align_eq _ _ ht hf s.gapPosition (by omega)
    have hafter : s.gapSize - (Layout.align kTaggedSize s.gapPosition fieldSize - s.gapPosition) - fieldSize =
        s.gapPosition + s.gapSize - (Layout.align kTaggedSize s.gapPosition fieldSize + fieldSize) := by omega
    simp only [placeField, Layout.place, if_pos hfit, halign]
    rw [subWord_of_le hg (by omega), subWord_of_le (a := s.gapSize) (by omega) (by omega),
      subWord_of_le (b := fieldSize) (by omega) (by omega), addWord_of_lt (by omega), hafter, if_pos (by omega)]
  · have hlast : Layout.align kTaggedSize s.offset fieldSize + fieldSize < 2 ^ 32 := by
      simp only [Layout.place, if_neg hfit] at hend
      split at hend <;> exact hend
    simp only [placeField, Layout.place, if_neg (hfits.not.2 hfit), if_neg hfit, @align_eq _ _ ht hf s.offset (by omega)]
    rw [subWord_of_le ho (by omega), addWord_of_lt hlast]

theorem getLastD_placeFields (s : Offsets) (sizes : List Nat) (d : Nat) :
    (placeFields kTaggedSize s sizes).getLastD d = (placeFields kTaggedSize s sizes).getLastD 0 := by
  cases sizes <;> rfl

/-- The remaining fields lie in the room left, apart from each other and before the end. -/
theorem placeFields_spec (ht : kTaggedSize ∈ [4, 8]) {sizes : List Nat} (hsizes : ∀ n ∈ sizes, n ∈ fieldSizes)
    {s : Offsets} (hgap : s.gapPosition + s.gapSize ≤ s.offset) (hend : Layout.endOffset kTaggedSize s sizes < 2 ^ 32) :
    let offsets := placeFields kTaggedSize s sizes
    offsets.getLastD 0 = Layout.endOffset kTaggedSize s sizes ∧ (offsets.zip sizes).Pairwise Apart ∧
      ∀ f ∈ offsets.zip sizes, s.Room f ∧ f.1 + f.2 ≤ Layout.endOffset kTaggedSize s sizes := by
  induction sizes generalizing s with
  | nil =>
    rw [Layout.endOffset] at hend
    have htotal := align_eq ht (Layout.tagged_mem ht) hend
    rw [align, min_self] at htotal
    simp only [placeFields, Layout.endOffset, List.getLastD_cons, List.getLastD_nil, htotal]
    exact ⟨trivial, .nil, by simp⟩
  | cons fieldSize rest ih =>
    rw [List.forall_mem_cons] at hsizes
    obtain ⟨hroom, hfield, -, hgap', hleft⟩ := Layout.place_spec ht hsizes.1 hgap
    have hle := Layout.le_endOffset ht hsizes.2 hgap'
    rw [Layout.endOffset] at hend
    have hplace := placeField_eq ht hsizes.1 hgap (hle.trans_lt hend)
    obtain ⟨hlast, hapart, hrest⟩ := ih hsizes.2 hgap' hend
    simp only [placeFields, hplace, Layout.endOffset, List.getLastD_cons, getLastD_placeFields, List.zip_cons_cons,
      List.pairwise_cons, List.forall_mem_cons]
    refine ⟨hlast, ⟨fun f hf => (hleft f (hrest f hf).1).2, hapart⟩, ⟨hroom, hfield.trans hle⟩, ?_⟩
    intro f hf
    exact ⟨(hleft f (hrest f hf).1).1, (hrest f hf).2⟩

theorem length_placeFields (s : Offsets) (sizes : List Nat) :
    (placeFields kTaggedSize s sizes).length = sizes.length + 1 := by
  induction sizes generalizing s with
  | nil => rfl
  | cons fieldSize rest ih => simp [placeFields, ih]

theorem dvd_placeFields (ht : kTaggedSize ∈ [4, 8]) {sizes : List Nat} (hsizes : ∀ n ∈ sizes, n ∈ fieldSizes)
    (s : Offsets) : ∀ f ∈ (placeFields kTaggedSize s sizes).zip sizes, min f.2 kTaggedSize ∣ f.1 := by
  induction sizes generalizing s with
  | nil => simp
  | cons fieldSize rest ih =>
    rw [List.forall_mem_cons] at hsizes
    rw [placeFields, List.zip_cons_cons, List.forall_mem_cons]
    exact ⟨dvd_placeField ht hsizes.1 s, ih hsizes.2 _⟩

theorem take_zip_placeFields (s : Offsets) (sizes rest : List Nat) :
    ((placeFields kTaggedSize s (sizes ++ rest)).zip (sizes ++ rest)).take sizes.length =
      (placeFields kTaggedSize s sizes).zip sizes := by
  induction sizes generalizing s with
  | nil => simp
  | cons fieldSize sizes ih => simp [placeFields, ih]

/-- Fields of sixteen bytes follow each other without gaps, modulo the size of a word. -/
theorem total_of_sixteen (n o : Nat) :
    (placeFields 8 ⟨16 * o % 2 ^ 32, 0, 0⟩ (List.replicate n 16)).getLastD 0 = 16 * (o + n) % 2 ^ 32 := by
  have halign : ∀ o, ∀ f ∈ fieldSizes, min f 8 = 8 → align 8 (16 * o % 2 ^ 32) f = 16 * o % 2 ^ 32 := by
    intro o f hf hmin
    have hstay : Layout.align 8 (16 * o % 2 ^ 32) f = 16 * o % 2 ^ 32 := by
      rw [Layout.align, hmin]
      omega
    rw [align_eq (by decide) hf (by omega), hstay]
  induction n generalizing o with
  | zero => exact halign o 8 (by decide) rfl
  | succ n ih =>
    have hstep : placeField 8 ⟨16 * o % 2 ^ 32, 0, 0⟩ 16 = (16 * o % 2 ^ 32, ⟨16 * (o + 1) % 2 ^ 32, 0, 0⟩) := by
      have hword : 16 * o % 2 ^ 32 < 2 ^ 32 := Nat.mod_lt _ (by decide)
      have hadd : addWord 32 (16 * o % 2 ^ 32) 16 = 16 * (o + 1) % 2 ^ 32 := by
        rw [addWord, Nat.mod_add_mod, Nat.mul_add_one]
      simp only [placeField, halign o 16 (by decide) rfl, hadd, subWord_of_le (Nat.le_refl _) hword, Nat.sub_self]
      rfl
    rw [List.replicate_succ, placeFields, hstep, List.getLastD_cons, getLastD_placeFields, ih, Nat.add_right_comm,
      Nat.add_assoc]
end

/-- The fields are aligned and the offsets of a prefix do not depend on the fields behind it, for every list of
fields. They are apart from each other and within the total size if the layout ends below `2 ^ 32`. -/
theorem initializeOffsets_correct {kTaggedSize : Nat} (ht : kTaggedSize ∈ [4, 8]) {sizes : List Nat}
    (hsizes : ∀ n ∈ sizes, n ∈ fieldSizes) :
    (fieldRanges kTaggedSize sizes).map Prod.snd = sizes ∧
      (∀ f ∈ fieldRanges kTaggedSize sizes, min f.2 kTaggedSize ∣ f.1) ∧
      (∀ rest, (fieldRanges kTaggedSize (sizes ++ rest)).take sizes.length = fieldRanges kTaggedSize sizes) ∧
      (Layout.totalSize kTaggedSize sizes < 2 ^ 32 →
        (fieldRanges kTaggedSize sizes).Pairwise Apart ∧ totalFieldsSize kTaggedSize sizes = Layout.totalSize kTaggedSize sizes ∧
          ∀ f ∈ fieldRanges kTaggedSize sizes, f.1 + f.2 ≤ totalFieldsSize kTaggedSize sizes) := by
  cases sizes with
  | nil => simp [fieldRanges, totalFieldsSize, initializeOffsets, Layout.totalSize]
  | cons first sizes =>
    rw [List.forall_mem_cons] at hsizes
    simp only [fieldRanges, totalFieldsSize, initializeOffsets, Layout.totalSize, List.zip_cons_cons, List.map_cons,
      List.cons_append, List.length_cons, List.take_succ_cons, List.pairwise_cons, List.forall_mem_cons, List.cons.injEq,
      true_and]
    refine ⟨?_, ⟨Nat.dvd_zero _, dvd_placeFields ht hsizes.2 _⟩, fun rest => take_zip_placeFields _ _ _, ?_⟩
    · exact List.map_snd_zip (by simp [length_placeFields])
    intro hend
    have hgap : (⟨first, 0, 0⟩ : Offsets).gapPosition + (⟨first, 0, 0⟩ : Offsets).gapSize ≤ first := Nat.zero_le _
    obtain ⟨hlast, hapart, hrest⟩ := placeFields_spec ht hsizes.2 hgap hend
    have hfirst := Layout.le_endOffset ht hsizes.2 hgap
    rw [hlast]
    refine ⟨⟨?_, hapart⟩, rfl, by simpa using hfirst, fun f hf => (hrest f hf).2⟩
    intro f hf
    have hroom := (hrest f hf).1
    simp only [Offsets.Room, Apart] at hroom ⊢
    omega

/-- The offset behind `2 ^ 28` fields of sixteen bytes is zero again. -/
theorem initializeOffsets_wraps : ∃ sizes, (∀ n ∈ sizes, n ∈ fieldSizes) ∧
    ∃ f ∈ fieldRanges 8 sizes, totalFieldsSize 8 sizes < f.1 + f.2 := by
  obtain ⟨n, hn⟩ : ∃ n, 1 + n = 2 ^ 28 := ⟨2 ^ 28 - 1, by omega⟩
  refine ⟨16 :: List.replicate n 16, by simp [fieldSizes], (0, 16), List.mem_cons_self, ?_⟩
  have htotal : totalFieldsSize 8 (16 :: List.replicate n 16) = 16 * (1 + n) % 2 ^ 32 := total_of_sixteen n 1
  rw [htotal, hn]
  decide

/-- A byte, an aligned word, and a second byte in the gap between them. -/
theorem initializeOffsets_gap : fieldRanges 8 [1, 8, 1] = [(0, 1), (8, 8), (1, 1)] ∧
    (fieldRanges 8 [1, 8, 1]).Pairwise Apart := by
  have hsizes : ∀ n ∈ [1, 8, 1], n ∈ fieldSizes := by decide
  exact ⟨by decide, ((initializeOffsets_correct (by decide) hsizes).2.2.2 (by decide)).1⟩
end V8Core.Wasm
