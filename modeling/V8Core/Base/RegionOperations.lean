import V8Core.Base.RegionSteps

/-!
# Operations of the region allocator

Every way to allocate carves a block out of one free region: what is left before and
after the block stays free, and the block gets a state that is not free. `Allocation`
says so once, for all of them. Freeing merges the freed region with its neighbours.
-/

namespace V8Core.Base

open UnsignedWord

variable {address : Nat} {state : RegionState}

/-- No two neighbours are both free. -/
def Coalesced (rs : List Region) : Prop := rs.IsChain fun r s => ¬ (r.state = .kFree ∧ s.state = .kFree)

/-- A free region may be carved up around a block that is not free. -/
theorem Coalesced.carve {L R head tail : List Region} {r block : Region} (h : Coalesced (L ++ r :: R))
    (hr : r.state = .kFree) (hblock : block.state ≠ .kFree) (hhead : head = [] ∨ ∃ s, head = [s])
    (htail : tail = [] ∨ ∃ s, tail = [s]) : Coalesced (L ++ head ++ block :: (tail ++ R)) := by
  unfold Coalesced at *
  rw [List.isChain_append] at h
  obtain ⟨hL, hrR, hmid⟩ := h
  have hlast : ∀ s ∈ L.getLast?, s.state ≠ .kFree := fun s hs hfree => hmid s hs r (by simp) ⟨hfree, hr⟩
  have hfirst : ∀ s ∈ R.head?, s.state ≠ .kFree := fun s hs hfree =>
    (List.isChain_cons.1 hrR).1 s hs ⟨hr, hfree⟩
  have hR := (List.isChain_cons.1 hrR).2
  have hright : (block :: (tail ++ R)).IsChain fun r s => ¬ (r.state = .kFree ∧ s.state = .kFree) := by
    refine List.isChain_cons.2 ⟨fun s _ hs => hblock hs.1, ?_⟩
    rcases htail with rfl | ⟨t, rfl⟩
    · exact hR
    · exact List.isChain_cons.2 ⟨fun s hs hfree => hfirst s hs hfree.2, hR⟩
  refine List.isChain_append.2 ⟨?_, hright, ?_⟩
  · rcases hhead with rfl | ⟨t, rfl⟩
    · simpa using hL
    · exact List.isChain_append.2 ⟨hL, List.isChain_singleton t, fun s hs _ _ hfree => hlast s hs hfree.1⟩
  · intro s _ t ht hfree
    obtain rfl : block = t := by simpa using ht
    exact hblock hfree.2

/-- Regions between which any region fits. -/
theorem Coalesced.join {L R : List Region} {r : Region} (hL : Coalesced L) (hR : Coalesced R)
    (hlast : ∀ s ∈ L.getLast?, s.state ≠ .kFree) (hfirst : ∀ s ∈ R.head?, s.state ≠ .kFree) :
    Coalesced (L ++ r :: R) := by
  refine List.isChain_append.2 ⟨hL, List.isChain_cons.2 ⟨fun s hs hfree => hfirst s hs hfree.2, hR⟩, ?_⟩
  intro s hs t _ hfree
  exact hlast s hs hfree.1

namespace RegionAllocator

variable {w : Nat} {a : RegionAllocator w} {L R : List Region} {r : Region} {p : RegionPtr}

/-- The invariant of the allocator between operations. -/
structure Inv (a : RegionAllocator w) : Prop extends Weak a where
  coalesced : Coalesced a.regions

/-! ## Finding regions -/

/-- `FindRegion` finds the region around an address of the whole region. -/
theorem findRegion_spec (h : Core a) (haddr : address < 2 ^ w) :
    if a.wholeRegion.contains w address then
      ∃ p L R, a.findRegion address = some p ∧ Focus a L p (a.heap p) R ∧ (a.heap p).address ≤ address ∧
        address < (a.heap p).address + (a.heap p).size
    else a.findRegion address = none := by
  split
  case isFalse hin => simp [findRegion, hin]
  case isTrue hin =>
    obtain ⟨hb, he⟩ := (h.contains_iff haddr).1 hin
    obtain ⟨pre, p, post, hall, hle, hlt⟩ := h.tiles.exists_mem hb he
    refine ⟨p, _, _, ?_, ⟨pre, post, hall, rfl, rfl, rfl⟩, hle, hlt⟩
    have htiles := h.tiles
    rw [hall] at htiles
    rw [findRegion, if_pos hin, hall]
    apply OrderedSet.upperBound_append
    · intro q hq
      rw [addressEndOrder, h.endAddress_eq' (by simp [hall, hq])]
      exact Nat.le_trans (htiles.split.1.mem hq).2.2 hle
    · rw [addressEndOrder, h.endAddress_eq' (by simp [hall])]
      exact hlt

/-- `FreeListFindRegion` finds a free region that is large enough. -/
theorem freeListFindRegion_spec (h : Weak a) {size : Nat} (hp : a.freeListFindRegion size = some p) :
    a.IsFree p ∧ size ≤ (a.heap p).size := by
  obtain ⟨hmem, hle⟩ := OrderedSet.lowerBound_some hp
  refine ⟨(h.free.mem p).1 hmem, ?_⟩
  rcases Prod.Lex.toLex_le_toLex.1 hle with hlt | ⟨heq, _⟩
  · exact Nat.le_of_lt hlt
  · exact Nat.le_of_eq heq

/-! ## Carving a block out of a free region -/

/-- What an allocation of a block does. -/
structure Allocation (a a' : RegionAllocator w) (address size : Nat) (state : RegionState) : Prop where
  inv : Inv a'
  same : Same a a'
  mem : ⟨address, size, state⟩ ∈ a'.regions
  inside : ∃ r ∈ a.regions, r.state = .kFree ∧ r.address ≤ address ∧ address + size ≤ r.address + r.size
  keeps : ∀ s ∈ a.regions, s.state ≠ .kFree → s ∈ a'.regions

/-- The first pieces of a region, up to the block that is carved out of it. -/
theorem Focus.skip (h : Focus a L p r R) (ha : Weak a) (hr : r.state = .kFree) {n : Nat} (hlt : n < r.size)
    (hdvd : a.pageSize ∣ n) :
    ∃ q a' head, (if n ≠ 0 then a.split p n else some (p, a)) = some (q, a') ∧ Weak a' ∧ Same a a' ∧
      Focus a' (L ++ head) q ⟨r.address + n, r.size - n, .kFree⟩ R ∧ (head = [] ∨ ∃ s, head = [s]) := by
  by_cases hn : n = 0
  · subst hn
    refine ⟨p, a, [], rfl, ha, Same.refl a, ?_, .inl rfl⟩
    rw [List.append_nil, ← hr]
    exact h
  · obtain ⟨q, a', hsplit, hweak, hsame, _, _, hfocus⟩ := h.split ha (Nat.pos_of_ne_zero hn) hlt hdvd
    rw [hr] at hfocus
    exact ⟨q, a', [_], by rw [if_pos hn, hsplit], hweak, hsame, hfocus, .inr ⟨_, rfl⟩⟩

/-- The block itself, at the start of a free region. -/
theorem Focus.take (h : Focus a L p r R) (ha : Weak a) (hr : r.state = .kFree) {size : Nat} (hpos : 0 < size)
    (hle : size ≤ r.size) (hdvd : a.pageSize ∣ size) (hstate : state ≠ .kFree) :
    ∃ a₁ a' tail, a.splitTail p size = some a₁ ∧ a₁.markRegion p state = some a' ∧ Weak a' ∧ Same a a' ∧
      Focus a' L p ⟨r.address, size, state⟩ (tail ++ R) ∧ (tail = [] ∨ ∃ s, tail = [s]) := by
  by_cases hsize : r.size = size
  · obtain ⟨a', hmark, hweak, hsame, hfocus⟩ := h.mark ha hr hstate
    subst hsize
    exact ⟨a, a', [], by simp [splitTail, h.heap], hmark, hweak, hsame, hfocus, .inl rfl⟩
  · obtain ⟨q, a₁, hsplit, hweak, hsame, _, hfocus, _⟩ := h.split ha hpos (by omega) hdvd
    obtain ⟨a', hmark, hweak', hsame', hfocus'⟩ := hfocus.mark hweak hr hstate
    exact ⟨a₁, a', [_], by simp [splitTail, h.heap, hsize, hsplit], hmark, hweak', hsame.trans hsame', hfocus',
      .inr ⟨_, rfl⟩⟩

/-- The two together are an allocation. -/
theorem Focus.carve (h : Focus a L p r R) (ha : Inv a) (hr : r.state = .kFree) {n size : Nat} (hpos : 0 < size)
    (hle : n + size ≤ r.size) (hn : a.pageSize ∣ n) (hdvd : a.pageSize ∣ size) (hstate : state ≠ .kFree) :
    ∃ q a₁ a₂ a', (if n ≠ 0 then a.split p n else some (p, a)) = some (q, a₁) ∧ a₁.splitTail q size = some a₂ ∧
      a₂.markRegion q state = some a' ∧ Allocation a a' (r.address + n) size state ∧
      a₁.heap q = ⟨r.address + n, r.size - n, .kFree⟩ ∧ a'.heap q = ⟨r.address + n, size, state⟩ := by
  obtain ⟨q, a₁, head, hskip, hweak, hsame, hfocus, hhead⟩ := h.skip ha.toWeak hr (show n < r.size by omega) hn
  obtain ⟨a₂, a', tail, htake, hmark, hweak', hsame', hfocus', htail⟩ :=
    hfocus.take hweak rfl hpos (show size ≤ r.size - n by omega) (hsame.pageSize ▸ hdvd) hstate
  refine ⟨q, a₁, a₂, a', hskip, htake, hmark, ?_, hfocus.heap, hfocus'.heap⟩
  have hregions := h.regions
  have hregions' := hfocus'.regions
  refine ⟨⟨hweak', ?_⟩, hsame.trans hsame', ?_, ⟨r, by simp [hregions], hr, ?_, ?_⟩, ?_⟩
  · rw [hregions']
    have hco := ha.coalesced
    rw [hregions] at hco
    exact hco.carve hr hstate hhead htail
  · simp [hregions']
  · exact Nat.le_add_right _ _
  · omega
  · intro s hs hfree
    rw [hregions] at hs
    rw [hregions']
    have hne : s ≠ r := by
      rintro rfl
      exact hfree hr
    simp only [List.mem_append, List.mem_cons] at hs ⊢
    tauto

/-! ## Allocating -/

section Allocate
variable {size : Nat}

theorem allocateRegion_spec (h : Inv a) (hpos : 0 < size) (hdvd : a.pageSize ∣ size) :
    a.allocateRegion size = some (none, a) ∨
      ∃ address a', a.allocateRegion size = some (some address, a') ∧ Allocation a a' address size .kAllocated := by
  cases hfind : a.freeListFindRegion size with
  | none => exact .inl (by simp [allocateRegion, hfind])
  | some p =>
    obtain ⟨⟨hmem, hfree⟩, hle⟩ := freeListFindRegion_spec h.toWeak hfind
    obtain ⟨L, R, hfocus⟩ := focus_of_mem hmem
    obtain ⟨q, a₁, a₂, a', hskip, htail, hmark, halloc, _, hheap⟩ :=
      hfocus.carve h hfree hpos (show 0 + size ≤ _ by omega) (Nat.dvd_zero _) hdvd (show RegionState.kAllocated ≠ .kFree by simp)
    obtain ⟨rfl, rfl⟩ : p = q ∧ a = a₁ := by simpa using hskip
    refine .inr ⟨_, a', ?_, halloc⟩
    simp [allocateRegion, hfind, htail, hmark, hheap]

/-- A block that starts in the whole region does not reach beyond the address space. -/
def NoWrap (a : RegionAllocator w) (address size : Nat) : Prop :=
  a.wholeRegion.contains w address → address + size < 2 ^ w

theorem allocateRegionAt_spec (h : Inv a) (haddr : address < 2 ^ w) (hwrap : NoWrap a address size) (hpos : 0 < size)
    (haddr_dvd : a.pageSize ∣ address) (hdvd : a.pageSize ∣ size) (hstate : state ≠ .kFree) :
    a.allocateRegionAt address size state = some (false, a) ∨
      ∃ a', a.allocateRegionAt address size state = some (true, a') ∧ Allocation a a' address size state := by
  have hfind := findRegion_spec h.toCore haddr
  split at hfind
  case isFalse => exact .inl (by simp [allocateRegionAt, hfind])
  case isTrue hin =>
    obtain ⟨p, L, R, hfind, hfocus, hle, hlt⟩ := hfind
    have hend := h.endAddress_eq' hfocus.mem
    have hreq : addWord w address size = address + size := addWord_of_lt (hwrap hin)
    have hplt := h.lt_pow' hfocus.mem
    by_cases hfail : (a.heap p).state ≠ .kFree ∨ (a.heap p).endAddress w < addWord w address size
    · exact .inl (by simp only [allocateRegionAt, hfind, if_pos hfail])
    · obtain ⟨hfree, hfits⟩ : (a.heap p).state = .kFree ∧ address + size ≤ (a.heap p).address + (a.heap p).size := by
        rw [hend, hreq] at hfail
        simpa using hfail
      have hn : a.pageSize ∣ address - (a.heap p).address := Nat.dvd_sub haddr_dvd (h.dvd_address hfocus.mem)
      obtain ⟨q, a₁, a₂, a', hskip, htail, hmark, halloc, hheap, _⟩ :=
        hfocus.carve h hfree hpos (n := address - (a.heap p).address) (by omega) hn hdvd hstate
      have hstart : (a.heap p).address + (address - (a.heap p).address) = address := Nat.add_sub_cancel' hle
      rw [hstart] at halloc hheap
      -- the conditions of the source are those of `carve`
      have hsplit : (if (a.heap p).address ≠ address then a.split p (subWord w address (a.heap p).address)
          else some (p, a)) = some (q, a₁) := by
        rw [← hskip, subWord_of_le hle haddr]
        exact if_congr (by omega) rfl rfl
      have hsplit' : (if (a₁.heap q).endAddress w ≠ addWord w address size then (a₁.split q size).map (·.2)
          else some a₁) = some a₂ := by
        rw [← htail, splitTail, hheap, hreq]
        refine if_congr ?_ rfl rfl
        rw [Region.endAddress, addWord_of_lt (by simp only; omega)]
        simp
      refine .inr ⟨a', ?_, halloc⟩
      simp only [allocateRegionAt, hfind, if_neg hfail, hsplit, hsplit', hmark, Option.bind_eq_bind, Option.bind_some]

/-- The random addresses are pages of the whole region. -/
theorem randomAddress_spec (h : Whole a) (random : Nat) :
    a.randomAddress random < 2 ^ w ∧ a.pageSize ∣ a.randomAddress random := by
  have hpage := h.pageSize_pos
  obtain ⟨k, hk⟩ := h.size_dvd
  have hpages : a.regionSizeInPages = k := by
    rw [h.pages, hk, Nat.mul_div_cancel_left _ hpage]
  have hkpos : 0 < k := by
    apply Nat.pos_of_ne_zero
    rintro rfl
    have := h.nonempty
    omega
  have hlt : a.pageSize * (random % k) < a.wholeRegion.size := by
    rw [hk]
    exact Nat.mul_lt_mul_of_pos_left (Nat.mod_lt _ hkpos) hpage
  have hbound := h.lt_pow
  have heq : a.randomAddress random = a.beginAddress + a.pageSize * (random % k) := by
    rw [randomAddress, hpages, Nat.mod_eq_of_lt (by omega), addWord_of_lt (by omega)]
  rw [heq]
  exact ⟨by omega, Nat.dvd_add h.begin_dvd (Nat.dvd_mul_right _ _)⟩

theorem allocateRegionAttempts_spec (h : Inv a) (hpos : 0 < size) (hdvd : a.pageSize ∣ size) (randoms : List Nat)
    (hwrap : ∀ random ∈ randoms, NoWrap a (a.randomAddress random) size) :
    a.allocateRegionAttempts size randoms = some (none, a) ∨
      ∃ address a', a.allocateRegionAttempts size randoms = some (some address, a') ∧
        Allocation a a' address size .kAllocated := by
  induction randoms with
  | nil => exact allocateRegion_spec h hpos hdvd
  | cons random rest ih =>
    obtain ⟨hlt, haddr⟩ := randomAddress_spec h.toWhole random
    rcases allocateRegionAt_spec h hlt (hwrap random (by simp)) hpos haddr hdvd
      (show RegionState.kAllocated ≠ .kFree by simp) with hat | ⟨a', hat, halloc⟩
    · -- a failed attempt leaves the allocator as it was
      have hrest := ih fun x hx => hwrap x (by simp [hx])
      simpa [allocateRegionAttempts, hat] using hrest
    · exact .inr ⟨_, a', by simp [allocateRegionAttempts, hat], halloc⟩

theorem allocateRegionRandom_spec (h : Inv a) {random : Nat → Nat} (hpos : 0 < size) (hdvd : a.pageSize ∣ size)
    (hwrap : ∀ i < kMaxRandomizationAttempts, NoWrap a (a.randomAddress (random i)) size) :
    a.allocateRegionRandom random size = some (none, a) ∨
      ∃ address a', a.allocateRegionRandom random size = some (some address, a') ∧
        Allocation a a' address size .kAllocated := by
  unfold allocateRegionRandom
  split
  · apply allocateRegionAttempts_spec h hpos hdvd
    simpa using hwrap
  · exact allocateRegion_spec h hpos hdvd

/-- The offset of an aligned block in a region. -/
theorem alignedOffset_spec (h : Weak a) (hp : p ∈ a.allRegions) {alignment : Nat} (hpos : 0 < size) (hdvd : a.pageSize ∣ size)
    (hal : a.pageSize ≤ alignment) (hald : a.pageSize ∣ alignment) (hsize : size + alignment - a.pageSize ≤ (a.heap p).size) :
    ∃ n, (if ¬ isAligned w (a.heap p).address alignment then
          a.split p (subWord w (roundUp w (a.heap p).address alignment) (a.heap p).address) else some (p, a)) =
        (if n ≠ 0 then a.split p n else some (p, a)) ∧
      n + size ≤ (a.heap p).size ∧ a.pageSize ∣ n ∧ isAligned w ((a.heap p).address + n) alignment := by
  have hpage := h.pageSize_pos
  have hplt := h.lt_pow' hp
  have hle := Nat.le_of_dvd hpos hdvd
  obtain ⟨k, hk⟩ := h.pageSize_pow
  by_cases haligned : isAligned w (a.heap p).address alignment
  · exact ⟨0, by simp [haligned], by omega, Nat.dvd_zero _, haligned⟩
  · obtain ⟨hstart, hge, hlt, hpow⟩ := roundUp_spec (w := w) (x := (a.heap p).address) (m := alignment) (k := k)
      (by omega) (by omega) (by omega) (hk ▸ hald)
    rw [← hk] at hpow
    have hn : a.pageSize ∣ roundUp w (a.heap p).address alignment - (a.heap p).address :=
      Nat.dvd_sub hpow (h.dvd_address hp)
    have hne : roundUp w (a.heap p).address alignment ≠ (a.heap p).address := by
      intro heq
      rw [heq] at hstart
      exact haligned hstart
    -- a multiple of a page below the alignment, which is one too
    have hpad : roundUp w (a.heap p).address alignment - (a.heap p).address + a.pageSize ≤ alignment := by
      obtain ⟨i, hi⟩ := hn
      obtain ⟨j, hj⟩ := hald
      have hij : a.pageSize * i < a.pageSize * j := by omega
      have := Nat.mul_le_mul_left a.pageSize (Nat.succ_le_of_lt (Nat.lt_of_mul_lt_mul_left hij))
      rw [Nat.mul_succ] at this
      omega
    refine ⟨_, ?_, ?_, hn, ?_⟩
    · rw [if_pos haligned, if_pos (by omega), subWord_of_le hge (by omega)]
    · omega
    · rw [Nat.add_sub_cancel' hge]
      exact hstart

theorem allocateAlignedRegion_spec (h : Inv a) {alignment : Nat} (hpos : 0 < size) (hdvd : a.pageSize ∣ size)
    (hal : a.pageSize ≤ alignment) (hald : a.pageSize ∣ alignment) (hwrap : size + alignment < 2 ^ w + a.pageSize) :
    a.allocateAlignedRegion size alignment = some (none, a) ∨
      ∃ address a', a.allocateAlignedRegion size alignment = some (some address, a') ∧ isAligned w address alignment ∧
        Allocation a a' address size .kAllocated := by
  have hpage := h.pageSize_lt
  have hpadded : subWord w (addWord w size alignment) a.pageSize = size + alignment - a.pageSize := by
    rcases Nat.lt_or_ge (size + alignment) (2 ^ w) with hlt | hge
    · rw [addWord_of_lt hlt, subWord_of_le (by omega) hlt]
    · have hadd : addWord w size alignment = size + alignment - 2 ^ w := by
        rw [addWord, Nat.mod_eq_sub_mod hge, Nat.mod_eq_of_lt (by omega)]
      rw [hadd, subWord_of_lt (by omega) (by omega)]
      omega
  cases hfind : a.freeListFindRegion (size + alignment - a.pageSize) with
  | none => exact .inl (by simp [allocateAlignedRegion, hpadded, hfind])
  | some p =>
    obtain ⟨⟨hmem, hfree⟩, hle⟩ := freeListFindRegion_spec h.toWeak hfind
    obtain ⟨L, R, hfocus⟩ := focus_of_mem hmem
    obtain ⟨n, hcode, hfits, hn, haligned⟩ := alignedOffset_spec h.toWeak hmem hpos hdvd hal hald hle
    obtain ⟨q, a₁, a₂, a', hskip, htail, hmark, halloc, _, hheap⟩ :=
      hfocus.carve h hfree hpos hfits hn hdvd (show RegionState.kAllocated ≠ .kFree by simp)
    refine .inr ⟨_, a', ?_, haligned, halloc⟩
    simp only [allocateAlignedRegion, hpadded, hfind, hcode, hskip, htail, hmark, hheap, Option.bind_eq_bind,
      Option.bind_some]

theorem Allocation.dvd {a' : RegionAllocator w} (h : Allocation a a' address size state) : a.pageSize ∣ address := by
  obtain ⟨p, hp, heq⟩ := List.mem_map.1 h.mem
  have := h.inv.dvd_address hp
  rwa [heq, h.same.pageSize] at this

theorem allocateRegionHint_spec (h : Inv a) {hint alignment : Nat} (hhint : hint < 2 ^ w) (hpos : 0 < size)
    (hhint_dvd : a.pageSize ∣ hint) (hdvd : a.pageSize ∣ size) (hald : a.pageSize ∣ alignment)
    (hhint_al : isAligned w hint alignment) (hwrap : NoWrap a hint size)
    (hpad : a.pageSize < alignment → size + alignment < 2 ^ w + a.pageSize) :
    a.allocateRegionHint hint size alignment = some (none, a) ∨
      ∃ address a', a.allocateRegionHint hint size alignment = some (some address, a') ∧
        (0 < alignment → isAligned w address alignment) ∧ Allocation a a' address size .kAllocated := by
  -- without the hint
  have hfallback : (if alignment ≤ a.pageSize then a.allocateRegion size else a.allocateAlignedRegion size alignment) =
        some (none, a) ∨
      ∃ address a', (if alignment ≤ a.pageSize then a.allocateRegion size
          else a.allocateAlignedRegion size alignment) = some (some address, a') ∧
        (0 < alignment → isAligned w address alignment) ∧ Allocation a a' address size .kAllocated := by
    by_cases hle : alignment ≤ a.pageSize
    · rw [if_pos hle]
      rcases allocateRegion_spec h hpos hdvd with hfail | ⟨address, a', hcode, halloc⟩
      · exact .inl hfail
      · refine .inr ⟨address, a', hcode, fun hne => ?_, halloc⟩
        obtain ⟨k, hk⟩ := h.pageSize_pow
        have heq : alignment = 2 ^ k := by
          rw [← hk]
          exact Nat.le_antisymm hle (Nat.le_of_dvd hne hald)
        rw [heq, isAligned_pow (hk ▸ h.pageSize_lt), ← hk]
        exact halloc.dvd
    · rw [if_neg hle]
      rcases allocateAlignedRegion_spec h hpos hdvd (by omega) hald (hpad (by omega)) with hfail | ⟨address, a', hcode, hal, halloc⟩
      · exact .inl hfail
      · exact .inr ⟨address, a', hcode, fun _ => hal, halloc⟩
  by_cases hin : hint ≠ 0 ∧ a.wholeRegion.containsRange w hint size
  · rcases allocateRegionAt_spec h hhint hwrap hpos hhint_dvd hdvd (show RegionState.kAllocated ≠ .kFree by simp)
      with hat | ⟨a', hat, halloc⟩
    · simpa [allocateRegionHint, hin, hat] using hfallback
    · refine .inr ⟨hint, a', ?_, fun _ => hhint_al, halloc⟩
      simp [allocateRegionHint, hin, hat]
  · simpa [allocateRegionHint, hin] using hfallback

end Allocate

/-! ## Freeing -/

section Trim

/-- A free neighbour leaves the free list and becomes part of the region before it. -/
theorem Focus.absorb {q x y : RegionPtr} {s : Region} (h : Focus a L x r (s :: R)) (h' : Focus a (L ++ [r]) y s R)
    (ha : WeakExcept a p) (hq : a.IsFree q) (hqp : q ≠ p) (hpair : ∀ z, (z ≠ p ∧ z ≠ q) ↔ (z ≠ x ∧ z ≠ y)) :
    ∃ a', a.freeListRemoveRegion q = some a' ∧ WeakExcept (a'.merge x y) x ∧ Same a (a'.merge x y) ∧
      Focus (a'.merge x y) L x { r with size := r.size + s.size } R := by
  have hlt := ha.lt_pow' hq.1
  obtain ⟨hrem, hfree⟩ := freeListRemoveRegion_spec ha.free ⟨hq, hqp⟩ (by omega)
  have hcore : Core (a.eraseFree q) := ha.congr ⟨rfl, rfl, rfl, rfl⟩ rfl (Nat.le_refl _) fun _ _ => ⟨rfl, rfl⟩
  have hf : Focus (a.eraseFree q) L x r (s :: R) := h
  have hf' : Focus (a.eraseFree q) (L ++ [r]) y s R := h'
  obtain ⟨hweak, hsame, hfocus⟩ := hf.merge hf' hcore (hfree.iff fun z => by
    rw [and_assoc, hpair z]
    exact Iff.rfl)
  exact ⟨_, hrem, hweak, ⟨hsame.1, hsame.2, hsame.3, hsame.4⟩, hfocus⟩

theorem mergeNext_spec (h : Focus a L p r R) (ha : WeakExcept a p) (hR : Coalesced R) :
    ∃ a' r' R', a.mergeNext p p = some a' ∧ WeakExcept a' p ∧ Same a a' ∧ Focus a' L p r' R' ∧ r'.state = r.state ∧
      Coalesced R' ∧ (∀ s ∈ R'.head?, s.state ≠ .kFree) ∧ ∀ s ∈ R, s.state ≠ .kFree → s ∈ R' := by
  have hend := h.endAddress_eq_iff ha.toCore
  cases R with
  | nil =>
    refine ⟨a, r, [], ?_, ha, Same.refl a, h, rfl, hR, by simp, by simp⟩
    simp [mergeNext, h.heap, hend.2 rfl]
  | cons s R =>
    obtain ⟨q, hq, hnext, hne⟩ := h.next ha.toCore
    have hlast : (a.heap p).endAddress w ≠ a.endAddress := by
      rw [h.heap]
      exact fun heq => List.cons_ne_nil _ _ (hend.1 heq)
    by_cases hs : s.state = .kFree
    · obtain ⟨b, hrem, hweak, hsame, hfocus⟩ :=
        h.absorb hq ha ⟨hq.mem, by rw [hq.heap]; exact hs⟩ hne (fun _ => Iff.rfl)
      obtain ⟨hhead, htail⟩ := List.isChain_cons.1 hR
      refine ⟨b.merge p q, _, R, ?_, hweak, hsame, hfocus, rfl, htail, fun t ht hfree => hhead t ht ⟨hs, hfree⟩, ?_⟩
      · simp [mergeNext, hlast, hnext, hq.heap, hs, hrem]
      · intro t ht hfree
        rcases List.mem_cons.1 ht with rfl | ht
        · exact absurd hs hfree
        · exact ht
    · refine ⟨a, r, s :: R, ?_, ha, Same.refl a, h, rfl, hR, by simpa using hs, fun t ht _ => ht⟩
      simp [mergeNext, hlast, hnext, hq.heap, hs]

theorem mergePrev_spec (h : Focus a L p r R) (ha : WeakExcept a p) (hr : r.state = .kFree) (hL : Coalesced L) :
    ∃ q a' L' r', a.mergePrev p p = some (q, a') ∧ WeakExcept a' q ∧ Same a a' ∧ Focus a' L' q r' R ∧
      r'.state = .kFree ∧ Coalesced L' ∧ (∀ s ∈ L'.getLast?, s.state ≠ .kFree) ∧
      ∀ s ∈ L, s.state ≠ .kFree → s ∈ L' := by
  have hbegin := h.address_eq_iff ha.toCore
  rcases List.eq_nil_or_concat L with rfl | ⟨L, s, rfl⟩
  · refine ⟨p, a, [], r, ?_, ha, Same.refl a, h, hr, hL, by simp, by simp⟩
    simp [mergePrev, h.heap, hbegin.2 rfl]
  · rw [List.concat_eq_append] at *
    obtain ⟨q, hq, hprev, hne⟩ := h.prev ha.toCore
    have hfirst : (a.heap p).address ≠ a.beginAddress := by
      rw [h.heap]
      exact fun heq => by simpa using hbegin.1 heq
    by_cases hs : s.state = .kFree
    · obtain ⟨b, hrem, hweak, hsame, hfocus⟩ :=
        hq.absorb h ha ⟨hq.mem, by rw [hq.heap]; exact hs⟩ hne (fun _ => and_comm)
      obtain ⟨htail, _, hhead⟩ := List.isChain_append.1 hL
      refine ⟨q, b.merge q p, L, _, ?_, hweak, hsame, hfocus, hs, htail, fun t ht hfree => hhead t ht s (by simp) ⟨hfree, hs⟩, ?_⟩
      · simp [mergePrev, hfirst, hprev, hq.heap, hs, hrem]
      · intro t ht hfree
        rcases List.mem_append.1 ht with ht | ht
        · exact ht
        · obtain rfl : t = s := by simpa using ht
          exact absurd hs hfree
    · refine ⟨p, a, L ++ [s], r, ?_, ha, Same.refl a, h, hr, hL, by simpa using hs, fun t ht _ => ht⟩
      simp [mergePrev, hfirst, hprev, hq.heap, hs]

theorem trimSplit_spec (h : Focus a L p r R) (ha : Weak a) {newSize : Nat} (hlt : newSize < r.size)
    (hdvd : a.pageSize ∣ newSize) :
    ∃ q a' head, a.trimSplit p newSize = some (q, q, a') ∧ Weak a' ∧ Same a a' ∧
      Focus a' (L ++ head) q ⟨r.address + newSize, r.size - newSize, r.state⟩ R ∧
      head = if newSize = 0 then [] else [⟨r.address, newSize, r.state⟩] := by
  by_cases hn : newSize = 0
  · subst hn
    refine ⟨p, a, [], rfl, ha, Same.refl a, ?_, rfl⟩
    rw [List.append_nil]
    exact h
  · obtain ⟨q, a', hsplit, hweak, hsame, hnext, _, hfocus⟩ := h.split ha (Nat.pos_of_ne_zero hn) hlt hdvd
    refine ⟨q, a', _, ?_, hweak, hsame, hfocus, by rw [if_neg hn]⟩
    simp [trimSplit, Nat.pos_of_ne_zero hn, hsplit, hnext]

/-- The freed region goes into the free list. -/
theorem freeListAddRegion_weak (h : Focus a L p r R) (ha : WeakExcept a p) (hr : r.state = .kFree) :
    Weak (a.freeListAddRegion p) := by
  have hfree := freeListAddRegion_spec ha.free (p := p) fun q hq heq => hq.2 (ha.eq_of_address hq.1.1 h.mem heq)
  refine ⟨ha.congr ⟨rfl, rfl, rfl, rfl⟩ rfl (Nat.le_refl _) fun _ _ => ⟨rfl, rfl⟩, hfree.iff fun q => ?_⟩
  have hp : a.IsFree p := ⟨h.mem, by rw [h.heap]; exact hr⟩
  show _ ↔ a.IsFree q
  by_cases hqp : q = p
  · subst hqp
    simp [hp]
  · simp [hqp]
/-- `TrimRegion` does nothing, or it frees what follows the first `newSize` bytes of an allocated region. -/
theorem trimRegion_spec (h : Inv a) {newSize : Nat} (haddr : address < 2 ^ w) (hdvd : a.pageSize ∣ newSize)
    (hsmaller : ∀ r ∈ a.regions, r.address = address → r.state = .kAllocated → newSize < r.size) :
    a.trimRegion address newSize = some (0, a) ∨
      ∃ r a', r ∈ a.regions ∧ r.address = address ∧ r.state = .kAllocated ∧
        a.trimRegion address newSize = some (r.size - newSize, a') ∧ Inv a' ∧ Same a a' ∧
        (newSize ≠ 0 → ⟨address, newSize, .kAllocated⟩ ∈ a'.regions) ∧
        ∀ s ∈ a.regions, s.state ≠ .kFree → s ≠ r → s ∈ a'.regions := by
  have hfind := findRegion_spec h.toCore haddr
  split at hfind
  case isFalse => exact .inl (by simp [trimRegion, hfind])
  case isTrue hin =>
    obtain ⟨p, L, R, hfind, hfocus, _, _⟩ := hfind
    generalize hr : a.heap p = r at *
    by_cases hfail : r.address ≠ address ∨ r.state ≠ .kAllocated
    · exact .inl (by simp only [trimRegion, hfind, hr, if_pos hfail])
    · obtain ⟨rfl, hstate⟩ : r.address = address ∧ r.state = .kAllocated := by
        simpa using hfail
      have hregions := hfocus.regions
      have hmem : r ∈ a.regions := by simp [hregions]
      have hco := h.coalesced
      rw [hregions] at hco
      obtain ⟨hL, hrR, _⟩ := List.isChain_append.1 hco
      have hR := (List.isChain_cons.1 hrR).2
      obtain ⟨q, a₁, head, hsplit, hweak₁, hsame₁, hfocus₁, hhead⟩ :=
        trimSplit_spec hfocus h.toWeak (hsmaller r hmem rfl hstate) hdvd
      have hweak₂ := setState_free hweak₁ (p := q) (by rw [hfocus₁.heap, hstate]; simp)
      have hfocus₂ := hfocus₁.setState hweak₁.toCore .kFree
      obtain ⟨a₃, r₃, R', hnext, hweak₃, hsame₃, hfocus₃, hfree₃, hR', hfirst, hkeepR⟩ := mergeNext_spec hfocus₂ hweak₂ hR
      -- a part that stays allocated stops the merging to the left
      have hleft : ∃ q' a₄ L' r₄, (if newSize = 0 then a₃.mergePrev q q else some (q, a₃)) = some (q', a₄) ∧
          WeakExcept a₄ q' ∧ Same a₃ a₄ ∧ Focus a₄ L' q' r₄ R' ∧ r₄.state = .kFree ∧ Coalesced L' ∧
          (∀ s ∈ L'.getLast?, s.state ≠ .kFree) ∧ ∀ s ∈ L ++ head, s.state ≠ .kFree → s ∈ L' := by
        by_cases hn : newSize = 0
        · rw [if_pos hn] at hhead
          subst hhead
          rw [List.append_nil] at *
          rw [if_pos hn]
          exact mergePrev_spec hfocus₃ hweak₃ hfree₃ hL
        · rw [if_neg hn] at hhead ⊢
          subst hhead
          refine ⟨q, a₃, _, r₃, rfl, hweak₃, Same.refl a₃, hfocus₃, hfree₃, ?_, by simp [hstate], fun s hs _ => hs⟩
          refine List.isChain_append.2 ⟨hL, List.isChain_singleton _, ?_⟩
          intro s _ t ht hfree
          obtain rfl : _ = t := by simpa using ht
          exact absurd (hstate.symm.trans hfree.2) (by simp)
      obtain ⟨q', a₄, L', r₄, hprev, hweak₄, hsame₄, hfocus₄, hfree₄, hL', hlast, hkeepL⟩ := hleft
      have hregions' : (a₄.freeListAddRegion q').regions = L' ++ r₄ :: R' := hfocus₄.regions
      have hsame : Same a (a₄.freeListAddRegion q') := by
        have := hsame₁.trans ((⟨rfl, rfl, rfl, rfl⟩ : Same a₁ (a₁.setState q .kFree)).trans (hsame₃.trans hsame₄))
        exact ⟨this.1, this.2, this.3, this.4⟩
      refine .inr ⟨r, a₄.freeListAddRegion q', hmem, rfl, hstate, ?_,
        ⟨freeListAddRegion_weak hfocus₄ hweak₄ hfree₄, ?_⟩, hsame, ?_, ?_⟩
      · simp [trimRegion, hfind, hr, hstate, hsplit, hfocus₁.heap, hnext, hprev]
      · rw [hregions']
        exact hL'.join hR' hlast hfirst
      · intro hn
        rw [if_neg hn] at hhead
        rw [hregions', List.mem_append]
        exact .inl (hkeepL _ (by simp [hhead, hstate]) (by simp))
      · intro s hs hfree hne
        rw [hregions] at hs
        rw [hregions']
        simp only [List.mem_append, List.mem_cons] at hs hkeepL ⊢
        rcases hs with hs | hs | hs
        · exact .inl (hkeepL s (.inl hs) hfree)
        · exact absurd hs hne
        · exact .inr (.inr (hkeepR s hs hfree))

end Trim

end RegionAllocator

end V8Core.Base
