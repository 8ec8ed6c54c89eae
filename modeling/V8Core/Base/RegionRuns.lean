import V8Core.Base.RegionOperations
import Mathlib.Data.Nat.Bitwise

/-!
# Runs of the region allocator

The operations as one step function, the states that a sequence of them reaches from a
new allocator, and what holds in all of these: the regions partition the whole region,
the free list is the list of free regions, and no two neighbours are free.
-/

namespace V8Core.Base

open UnsignedWord

namespace RegionAllocator

variable {w : Nat} {a : RegionAllocator w}

/-- The operations with their arguments; `random` are the numbers that the generator returns. -/
inductive Op (w : Nat)
  | allocateRegion (size : BitVec w)
  | allocateRegionRandom (random : Nat → Nat) (size : BitVec w)
  | allocateRegionAt (requestedAddress size : BitVec w) (state : RegionState)
  | allocateAlignedRegion (size alignment : BitVec w)
  | allocateRegionHint (hint size alignment : BitVec w)
  | freeRegion (address : BitVec w)
  | trimRegion (address newSize : BitVec w)

/-- What an operation returns: an allocated block or none, or the freed size. -/
inductive Outcome
  | allocated (address size : Nat) (state : RegionState)
  | failed
  | freed (size : Nat)
  deriving DecidableEq, Repr

/-- The outcome of an allocation that returns an address. -/
def outcome (size : Nat) : Option Nat → Outcome
  | some address => .allocated address size .kAllocated
  | none => .failed

def step (a : RegionAllocator w) : Op w → Option (Outcome × RegionAllocator w)
  | .allocateRegion size => (a.allocateRegion size.toNat).map (Prod.map (outcome size.toNat) id)
  | .allocateRegionRandom random size =>
    (a.allocateRegionRandom random size.toNat).map (Prod.map (outcome size.toNat) id)
  | .allocateRegionAt requestedAddress size state =>
    (a.allocateRegionAt requestedAddress.toNat size.toNat state).map
      (Prod.map (fun ok => if ok then .allocated requestedAddress.toNat size.toNat state else .failed) id)
  | .allocateAlignedRegion size alignment =>
    (a.allocateAlignedRegion size.toNat alignment.toNat).map (Prod.map (outcome size.toNat) id)
  | .allocateRegionHint hint size alignment =>
    (a.allocateRegionHint hint.toNat size.toNat alignment.toNat).map (Prod.map (outcome size.toNat) id)
  | .freeRegion address => (a.freeRegion address.toNat).map (Prod.map .freed id)
  | .trimRegion address newSize => (a.trimRegion address.toNat newSize.toNat).map (Prod.map .freed id)

/-- A multiple of a page, as the allocator checks it. -/
def PageAligned (a : RegionAllocator w) (value : BitVec w) : Prop := isAligned w value.toNat a.pageSize

instance (a : RegionAllocator w) (value : BitVec w) : Decidable (a.PageAligned value) :=
  inferInstanceAs (Decidable (isAligned ..))

/-- A size to allocate: some pages. -/
def Pages (a : RegionAllocator w) (size : BitVec w) : Prop := a.PageAligned size ∧ size ≠ 0

/-- The arguments are page aligned and meet the operation's own conditions. -/
def Op.Allowed (a : RegionAllocator w) : Op w → Prop
  | .allocateRegion size => a.Pages size
  | .allocateRegionRandom random size =>
    a.Pages size ∧ ∀ i < kMaxRandomizationAttempts, a.NoWrap (a.randomAddress (random i)) size.toNat
  | .allocateRegionAt requestedAddress size state =>
    a.PageAligned requestedAddress ∧ a.Pages size ∧ state ≠ .kFree ∧ a.NoWrap requestedAddress.toNat size.toNat
  | .allocateAlignedRegion size alignment =>
    a.Pages size ∧ a.PageAligned alignment ∧ a.pageSize ≤ alignment.toNat ∧
      size.toNat + alignment.toNat < 2 ^ w + a.pageSize
  | .allocateRegionHint hint size alignment =>
    a.PageAligned hint ∧ a.Pages size ∧ a.PageAligned alignment ∧ isAligned w hint.toNat alignment.toNat ∧
      a.NoWrap hint.toNat size.toNat ∧
      (a.pageSize < alignment.toNat → size.toNat + alignment.toNat < 2 ^ w + a.pageSize)
  | .freeRegion _ => True
  | .trimRegion address newSize =>
    a.PageAligned newSize ∧
      ∀ r ∈ a.regions, r.address = address.toNat → r.state = .kAllocated → newSize.toNat < r.size

/-- The alignment that an operation asks for. -/
def Op.alignment (a : RegionAllocator w) : Op w → Nat
  | .allocateAlignedRegion _ alignment => alignment.toNat
  | .allocateRegionHint _ _ alignment => if alignment = 0 then a.pageSize else alignment.toNat
  | _ => a.pageSize

/-- The states that operations lead to. -/
inductive Reaches (a₀ : RegionAllocator w) : RegionAllocator w → Prop
  | start : Reaches a₀ a₀
  | step {a a' : RegionAllocator w} {op : Op w} {result : Outcome} :
    Reaches a₀ a → op.Allowed a → a.step op = some (result, a') → Reaches a₀ a'

/-- What is promised about the state between operations. -/
structure Consistent (a : RegionAllocator w) : Prop where
  nonempty : ∀ r ∈ a.regions, 0 < r.size
  aligned : ∀ r ∈ a.regions, isAligned w r.address a.pageSize ∧ isAligned w r.size a.pageSize
  partition : Tiling.Tiles Region.address Region.size a.regions a.beginAddress a.endAddress
  free : a.freeRegions.Perm (a.allRegions.filter fun p => (a.heap p).state = .kFree)
  total : a.freeSize = ((a.regions.filter fun r => r.state = .kFree).map Region.size).sum
  coalesced : Coalesced a.regions

/-- What is promised about the outcome of an operation. -/
def Outcome.Sound (a a' : RegionAllocator w) (op : Op w) : Outcome → Prop
  | .allocated address size state =>
    isAligned w address (op.alignment a) ∧ ⟨address, size, state⟩ ∈ a'.regions ∧
      ∀ s ∈ a.regions, s.state ≠ .kFree → address + size ≤ s.address ∨ s.address + s.size ≤ address
  | .failed => a' = a
  | .freed _ => True

/-! ## The invariant says what is promised -/

theorem Whole.isAligned_iff (h : Whole a) {value : Nat} : isAligned w value a.pageSize ↔ a.pageSize ∣ value := by
  obtain ⟨k, hk⟩ := h.pageSize_pow
  have hlt := h.pageSize_lt
  rw [hk] at hlt ⊢
  exact isAligned_pow hlt

/-- The free list is the list of the free regions, in another order. -/
theorem Weak.free_perm (h : Weak a) : a.freeRegions.Perm (a.allRegions.filter fun p => (a.heap p).state = .kFree) := by
  refine (List.perm_ext_iff_of_nodup h.free.sorted.nodup (h.tiles.nodup.filter _)).2 fun p => ?_
  rw [h.free.mem, List.mem_filter, decide_eq_true_eq]
  exact Iff.rfl

theorem Weak.total_eq (h : Weak a) :
    a.freeSize = ((a.regions.filter fun r => r.state = .kFree).map Region.size).sum := by
  have hsum : ((a.regions.filter fun r => r.state = .kFree).map Region.size).sum = (a.freeRegions.map a.sizeOf).sum := by
    rw [(h.free_perm.map a.sizeOf).sum_eq, regions, List.filter_map, List.map_map]
    rfl
  have hle := h.tiles.sum_le h.free.sorted.nodup fun p hp => ((h.free.mem p).1 hp).1
  have hlt := h.lt_pow
  rw [h.free.total, hsum, Nat.mod_eq_of_lt (by omega)]

theorem Inv.consistent (h : Inv a) : Consistent a := by
  have hmem : ∀ r ∈ a.regions, 0 < r.size ∧ a.pageSize ∣ r.address ∧ a.pageSize ∣ r.size := by
    intro r hr
    obtain ⟨p, hp, rfl⟩ := List.mem_map.1 hr
    exact ⟨(h.mem hp).2.1, h.dvd_address hp, h.dvd p hp⟩
  refine ⟨fun r hr => (hmem r hr).1, fun r hr => ?_, ?_, h.free_perm, h.total_eq, h.coalesced⟩
  · rw [h.isAligned_iff, h.isAligned_iff]
    exact (hmem r hr).2
  · rw [h.endAddress_eq]
    exact Tiling.tiles_map.2 h.tiles

/-- A block inside a free region is disjoint from all regions that are not free. -/
theorem Allocation.disjoint {a' : RegionAllocator w} {address size : Nat} {state : RegionState}
    (h : Allocation a a' address size state) (ha : Core a) :
    ∀ s ∈ a.regions, s.state ≠ .kFree → address + size ≤ s.address ∨ s.address + s.size ≤ address := by
  intro s hs hfree
  obtain ⟨r, hr, hrfree, hle, hfits⟩ := h.inside
  have htiles : Tiling.Tiles Region.address Region.size a.regions a.beginAddress
      (a.beginAddress + a.wholeRegion.size) := Tiling.tiles_map.2 ha.tiles
  have hne : r ≠ s := by
    rintro rfl
    exact hfree hrfree
  rcases htiles.disjoint hr hs hne with hd | hd
  · exact .inl (by omega)
  · exact .inr (by omega)

/-! ## Steps and runs -/

/-- A single region that is not in the free list yet. -/
theorem single_weakExcept (h : Whole a) (hall : a.allRegions = [0]) (hheap : a.heap 0 = a.wholeRegion)
    (hptr : a.nextPtr = 1) (hfree : a.freeRegions = []) (htotal : a.freeSize = 0) : WeakExcept a 0 := by
  have hmem : ∀ p ∈ a.allRegions, p = 0 := by simp [hall]
  refine ⟨⟨h, ?_, ?_, ?_⟩, ⟨?_, ?_, ?_⟩⟩
  · rw [hall]
    simp only [Tiling.Tiles, start, sizeOf, hheap, and_true]
    exact ⟨rfl, h.nonempty⟩
  · intro p hp
    rw [hmem p hp, sizeOf, hheap]
    exact h.size_dvd
  · intro p hp
    rw [hmem p hp, hptr]
    exact Nat.one_pos
  · intro p
    rw [hfree]
    refine iff_of_false List.not_mem_nil ?_
    rintro ⟨⟨hp, _⟩, hne⟩
    exact hne (hmem p hp)
  · rw [hfree]
    exact List.Pairwise.nil
  · simp [hfree, htotal]

theorem new_inv {begin size pageSize : BitVec w} {maxLoad : Nat} {a₀ : RegionAllocator w}
    (h : new begin size pageSize maxLoad = some a₀) : Inv a₀ := by
  simp only [new] at h
  split at h
  case isFalse => cases h
  case isTrue hchecks =>
    obtain ⟨hlt, ⟨hpos, hpow⟩, hsize, hbegin⟩ := hchecks
    obtain rfl := Option.some.inj h
    simp only [Region.endAddress] at hlt
    have hend : begin.toNat + size.toNat < 2 ^ w := by
      by_contra hge
      rw [addWord, Nat.mod_eq_sub_mod (by omega), Nat.mod_eq_of_lt (by omega)] at hlt
      omega
    rw [addWord_of_lt hend] at hlt
    obtain ⟨k, hk⟩ := (Nat.and_sub_one_eq_zero_iff_isPowerOfTwo (Nat.ne_of_gt hpos)).1 hpow
    have hpage := pageSize.isLt
    rw [hk] at hpage hsize hbegin
    rw [isAligned_pow hpage, ← hk] at hsize hbegin
    rw [← hk] at hpage
    generalize hb : RegionAllocator.mk _ _ _ _ _ _ _ _ _ = b
    have hwhole : Whole b := by
      subst hb
      exact ⟨hend, ⟨k, hk⟩, hpage, hbegin, hsize, rfl, by simp only; omega⟩
    have hfocus : Focus b [] 0 b.wholeRegion [] := by
      subst hb
      exact ⟨[], [], rfl, rfl, rfl, rfl⟩
    have hweak : WeakExcept b 0 := by
      apply single_weakExcept hwhole <;> subst hb <;> rfl
    have hstate : b.wholeRegion.state = .kFree := by
      subst hb
      rfl
    refine ⟨freeListAddRegion_weak hfocus hweak hstate, ?_⟩
    rw [show (b.freeListAddRegion 0).regions = [b.wholeRegion] from hfocus.regions]
    exact List.isChain_singleton _

/-- An allocation that fails without a change, or returns an aligned block. -/
theorem sound_outcome (h : Inv a) {op : Op w} {size : Nat} {code : Option (Option Nat × RegionAllocator w)}
    (hcode : code = some (none, a) ∨ ∃ address a', code = some (some address, a') ∧
      isAligned w address (op.alignment a) ∧ Allocation a a' address size .kAllocated) :
    ∃ result a', code.map (Prod.map (outcome size) id) = some (result, a') ∧ Inv a' ∧ Same a a' ∧
      result.Sound a a' op := by
  rcases hcode with rfl | ⟨address, a', rfl, hal, halloc⟩
  · exact ⟨.failed, a, rfl, h, Same.refl a, rfl⟩
  · exact ⟨_, a', rfl, halloc.inv, halloc.same, hal, halloc.mem, halloc.disjoint h.toCore⟩

/-- Blocks of pages are aligned for the operations without an alignment. -/
theorem aligned_page (h : Inv a) {size : Nat} {code : Option (Option Nat × RegionAllocator w)}
    (hcode : code = some (none, a) ∨ ∃ address a', code = some (some address, a') ∧
      Allocation a a' address size .kAllocated) :
    code = some (none, a) ∨ ∃ address a', code = some (some address, a') ∧ isAligned w address a.pageSize ∧
      Allocation a a' address size .kAllocated := by
  rcases hcode with hfail | ⟨address, a', hok, halloc⟩
  · exact .inl hfail
  · exact .inr ⟨address, a', hok, h.isAligned_iff.2 halloc.dvd, halloc⟩

theorem Pages.spec (h : Inv a) {size : BitVec w} (hsize : a.Pages size) : 0 < size.toNat ∧ a.pageSize ∣ size.toNat := by
  refine ⟨Nat.pos_of_ne_zero fun hzero => hsize.2 (BitVec.eq_of_toNat_eq ?_), h.isAligned_iff.1 hsize.1⟩
  simpa using hzero

theorem step_trim (h : Inv a) {op : Op w} {address newSize : BitVec w} (hdvd : a.pageSize ∣ newSize.toNat)
    (hsmaller : ∀ r ∈ a.regions, r.address = address.toNat → r.state = .kAllocated → newSize.toNat < r.size) :
    ∃ result a', (a.trimRegion address.toNat newSize.toNat).map (Prod.map .freed id) = some (result, a') ∧ Inv a' ∧
      Same a a' ∧ Outcome.Sound a a' op result := by
  rcases trimRegion_spec h address.isLt hdvd hsmaller with hcode | ⟨r, a', _, _, _, hcode, hinv, hsame, _⟩
  · exact ⟨.freed 0, a, by rw [hcode]; rfl, h, Same.refl a, trivial⟩
  · exact ⟨.freed _, a', by rw [hcode]; rfl, hinv, hsame, trivial⟩

/-- Every allowed operation has a result, keeps the invariant, and does what is promised. -/
theorem step_spec (h : Inv a) {op : Op w} (hop : op.Allowed a) :
    ∃ result a', a.step op = some (result, a') ∧ Inv a' ∧ Same a a' ∧ result.Sound a a' op := by
  cases op with
  | allocateRegion size =>
    obtain ⟨hpos, hdvd⟩ := hop.spec h
    exact sound_outcome h (aligned_page h (allocateRegion_spec h hpos hdvd))
  | allocateRegionRandom random size =>
    obtain ⟨hpos, hdvd⟩ := hop.1.spec h
    exact sound_outcome h (aligned_page h (allocateRegionRandom_spec h hpos hdvd hop.2))
  | allocateRegionAt requestedAddress size state =>
    obtain ⟨haddr, hsize, hstate, hwrap⟩ := hop
    obtain ⟨hpos, hdvd⟩ := hsize.spec h
    rcases allocateRegionAt_spec h requestedAddress.isLt hwrap hpos (h.isAligned_iff.1 haddr) hdvd hstate
      with hcode | ⟨a', hcode, halloc⟩
    · exact ⟨.failed, a, by rw [step, hcode]; rfl, h, Same.refl a, rfl⟩
    · exact ⟨.allocated _ _ _, a', by rw [step, hcode]; rfl, halloc.inv, halloc.same, haddr, halloc.mem, halloc.disjoint h.toCore⟩
  | allocateAlignedRegion size alignment =>
    obtain ⟨hsize, hal, hle, hwrap⟩ := hop
    obtain ⟨hpos, hdvd⟩ := hsize.spec h
    exact sound_outcome h (allocateAlignedRegion_spec h hpos hdvd hle (h.isAligned_iff.1 hal) hwrap)
  | allocateRegionHint hint size alignment =>
    obtain ⟨hhint, hsize, hal, hhint_al, hwrap, hpad⟩ := hop
    obtain ⟨hpos, hdvd⟩ := hsize.spec h
    have hald := h.isAligned_iff.1 hal
    apply sound_outcome h
    rcases allocateRegionHint_spec h hint.isLt hpos (h.isAligned_iff.1 hhint) hdvd hald hhint_al hwrap hpad
      with hfail | ⟨address, a', hok, haligned, halloc⟩
    · exact .inl hfail
    · refine .inr ⟨address, a', hok, ?_, halloc⟩
      simp only [Op.alignment]
      split
      · exact h.isAligned_iff.2 halloc.dvd
      · rename_i hne
        exact haligned (Nat.pos_of_ne_zero fun hzero => hne (BitVec.eq_of_toNat_eq hzero))
  | freeRegion address =>
    have hzero : (0#w).toNat = 0 := BitVec.toNat_zero ..
    rw [step, freeRegion, ← hzero]
    apply step_trim h
    · rw [hzero]
      exact Nat.dvd_zero _
    · intro r hr _ _
      rw [hzero]
      exact h.consistent.nonempty r hr
  | trimRegion address newSize => exact step_trim h (h.isAligned_iff.1 hop.1) hop.2

theorem Reaches.inv {a₀ : RegionAllocator w} (h₀ : Inv a₀) (h : Reaches a₀ a) : Inv a ∧ Same a₀ a := by
  induction h with
  | start => exact ⟨h₀, Same.refl a₀⟩
  | step _ hop hstep ih =>
    obtain ⟨result, a', hstep', hinv, hsame, _⟩ := step_spec ih.1 hop
    rw [hstep] at hstep'
    obtain ⟨_, rfl⟩ := Prod.mk.inj (Option.some.inj hstep')
    exact ⟨hinv, ih.2.trans hsame⟩

/-- In every run of operations with arguments that they allow, the allocator stays consistent, no operation is
undefined, and every allocation returns an aligned block that was free, or leaves the state as it was. -/
theorem region_runs_consistent {begin size pageSize : BitVec w} {maxLoad : Nat} {a₀ a : RegionAllocator w}
    (hnew : new begin size pageSize maxLoad = some a₀) (hrun : Reaches a₀ a) :
    Same a₀ a ∧ Consistent a ∧ ∀ op : Op w, op.Allowed a →
      ∃ result a', a.step op = some (result, a') ∧ Consistent a' ∧ result.Sound a a' op := by
  obtain ⟨hinv, hsame⟩ := hrun.inv (new_inv hnew)
  refine ⟨hsame, hinv.consistent, fun op hop => ?_⟩
  obtain ⟨result, a', hstep, hinv', _, hsound⟩ := step_spec hinv hop
  exact ⟨result, a', hstep, hinv'.consistent, hsound⟩

/-- A run on four pages: the first is allocated, and the rest can be. -/
theorem region_runs_consistent_four_pages : ∃ a₀ a : RegionAllocator 64,
    new 0x10000#64 0x4000#64 0x1000#64 0x1999 = some a₀ ∧
      a₀.step (.allocateRegion 0x1000#64) = some (.allocated 0x10000 0x1000 .kAllocated, a) ∧ Consistent a ∧
      ∃ result a', a.step (.allocateAlignedRegion 0x2000#64 0x2000#64) = some (result, a') ∧ Consistent a' := by
  have hrun : ∀ a₀ a : RegionAllocator 64, new 0x10000#64 0x4000#64 0x1000#64 0x1999 = some a₀ →
      a₀.step (.allocateRegion 0x1000#64) = some (.allocated 0x10000 0x1000 .kAllocated, a) →
      (Op.allocateRegion 0x1000#64).Allowed a₀ → Consistent a ∧ ∀ op : Op 64, op.Allowed a →
        ∃ result a', a.step op = some (result, a') ∧ Consistent a' ∧ result.Sound a a' op :=
    fun a₀ a hnew hstep hop => (region_runs_consistent hnew (.step .start hop hstep)).2
  obtain ⟨hcons, hnext⟩ := hrun _ _ rfl rfl ⟨by decide, by decide⟩
  obtain ⟨result, a', hstep, hcons', _⟩ := hnext (.allocateAlignedRegion 0x2000#64 0x2000#64)
    ⟨⟨by decide, by decide⟩, by decide, by decide, by decide⟩
  exact ⟨_, _, rfl, rfl, hcons, result, a', hstep, hcons'⟩

/-- In every state of a run `AllocateRegion` fails only where no free region has the size, and regions that are all
free have become one. -/
theorem region_runs_coalesce {begin size pageSize : BitVec w} {maxLoad : Nat} {a₀ a : RegionAllocator w}
    (hnew : new begin size pageSize maxLoad = some a₀) (hrun : Reaches a₀ a) :
    (∀ n : BitVec w, a.step (.allocateRegion n) = some (.failed, a) ↔
      ∀ r ∈ a.regions, r.state = .kFree → r.size < n.toNat) ∧
    ((∀ r ∈ a.regions, r.state = .kFree) → a.regions = [⟨a₀.beginAddress, a₀.wholeRegion.size, .kFree⟩]) := by
  obtain ⟨h, hsame⟩ := hrun.inv (new_inv hnew)
  constructor
  · intro n
    have hnone : a.freeListFindRegion n.toNat = none ↔ ∀ r ∈ a.regions, r.state = .kFree → r.size < n.toNat := by
      simp [freeListFindRegion, OrderedSet.lowerBound, h.free.mem, IsFree, regions, sizeAddressOrder,
        Prod.Lex.toLex_lt_toLex]
    rw [← hnone]
    cases hfind : a.freeListFindRegion n.toNat <;>
      simp [step, allocateRegion, hfind, outcome, Option.bind_eq_some_iff]
  · intro hfree
    have htiles := h.consistent.partition
    have hpos := h.nonempty
    have hchain := h.coalesced
    rw [h.endAddress_eq] at htiles
    rw [beginAddress, ← hsame.wholeRegion]
    rcases hall : a.regions with _ | ⟨⟨address, size, state⟩, _ | ⟨s, rest⟩⟩ <;> rw [hall] at htiles hchain hfree
    · exact absurd htiles (by simp only [Tiling.Tiles]; omega)
    · obtain ⟨rfl, -, hsize⟩ := htiles
      obtain rfl : state = .kFree := hfree _ (List.mem_singleton_self _)
      rw [← Nat.add_left_cancel hsize]
      rfl
    · exact absurd ⟨hfree _ (by simp), hfree s (by simp)⟩ (List.isChain_cons_cons.1 hchain).1

/-- A page is allocated and freed. -/
theorem region_runs_coalesce_freed : ∃ a₀ a b : RegionAllocator 64,
    new 0x10000#64 0x4000#64 0x1000#64 0x1999 = some a₀ ∧
      a₀.step (.allocateRegion 0x1000#64) = some (.allocated 0x10000 0x1000 .kAllocated, a) ∧
      a.step (.freeRegion 0x10000#64) = some (.freed 0x1000, b) ∧ b.regions = [⟨0x10000, 0x4000, .kFree⟩] := by
  have hrun (a₀ a b : RegionAllocator 64) (hnew : new 0x10000#64 0x4000#64 0x1000#64 0x1999 = some a₀)
      (halloc : a₀.step (.allocateRegion 0x1000#64) = some (.allocated 0x10000 0x1000 .kAllocated, a))
      (hfree : a.step (.freeRegion 0x10000#64) = some (.freed 0x1000, b)) (hop : (Op.allocateRegion 0x1000#64).Allowed a₀) :=
    (region_runs_coalesce hnew (.step (.step .start hop halloc) (show (Op.freeRegion 0x10000#64).Allowed a from trivial) hfree)).2
  exact ⟨_, _, _, rfl, rfl, rfl, hrun _ _ _ rfl rfl rfl ⟨by decide, by decide⟩ (by decide)⟩

/-- An empty region is a multiple of a page. `AllocateRegion` allocates one, and then not all regions are nonempty. -/
theorem region_empty_not_consistent : ∃ a₀ a : RegionAllocator 64,
    new 0x10000#64 0x10000#64 0x1000#64 0x6666 = some a₀ ∧ a₀.PageAligned 0#64 ∧
      a₀.step (.allocateRegion 0#64) = some (.allocated 0x10000 0 .kAllocated, a) ∧ ¬ Consistent a := by
  refine ⟨_, _, rfl, by decide, rfl, ?_⟩
  intro h
  have := h.nonempty ⟨0x10000, 0, .kAllocated⟩ (by decide)
  exact absurd this (by decide)

end RegionAllocator

end V8Core.Base
