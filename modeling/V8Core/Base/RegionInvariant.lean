import V8Core.Base.RegionAllocator
import Mathlib.Data.List.Nodup

/-!
# The invariant of the region allocator

`Core` is about the regions: they tile the whole region in pages. `FreeList` is about
the free list: it holds a given set of regions, in order, with their total size.
`Weak` puts both together.

`split_spec`, `markRegion_spec` and `merge_spec` say that the steps of the operations
keep the invariant, and what they do to the regions.
-/

namespace V8Core.Base

open UnsignedWord

namespace RegionAllocator

variable {w : Nat}

def start (a : RegionAllocator w) (p : RegionPtr) : Nat := (a.heap p).address
def sizeOf (a : RegionAllocator w) (p : RegionPtr) : Nat := (a.heap p).size

/-- The regions in the order of their addresses. -/
def regions (a : RegionAllocator w) : List Region := a.allRegions.map a.heap

/-- The fields that no operation changes. -/
structure Same (a a' : RegionAllocator w) : Prop where
  wholeRegion : a'.wholeRegion = a.wholeRegion
  regionSizeInPages : a'.regionSizeInPages = a.regionSizeInPages
  maxLoadForRandomization : a'.maxLoadForRandomization = a.maxLoadForRandomization
  pageSize : a'.pageSize = a.pageSize

theorem Same.refl (a : RegionAllocator w) : Same a a := ⟨rfl, rfl, rfl, rfl⟩

theorem Same.trans {a b c : RegionAllocator w} (h : Same a b) (h' : Same b c) : Same a c :=
  ⟨h'.1.trans h.1, h'.2.trans h.2, h'.3.trans h.3, h'.4.trans h.4⟩

/-- The whole region: page aligned and below the end of the address space. -/
structure Whole (a : RegionAllocator w) : Prop where
  lt_pow : a.beginAddress + a.wholeRegion.size < 2 ^ w
  pageSize_pow : ∃ k, a.pageSize = 2 ^ k
  pageSize_lt : a.pageSize < 2 ^ w
  begin_dvd : a.pageSize ∣ a.beginAddress
  size_dvd : a.pageSize ∣ a.wholeRegion.size
  pages : a.regionSizeInPages = a.wholeRegion.size / a.pageSize
  nonempty : 0 < a.wholeRegion.size

/-- The regions tile the whole region in pages. -/
structure Core (a : RegionAllocator w) : Prop extends Whole a where
  tiles : Tiling.Tiles a.start a.sizeOf a.allRegions a.beginAddress (a.beginAddress + a.wholeRegion.size)
  dvd : ∀ p ∈ a.allRegions, a.pageSize ∣ a.sizeOf p
  fresh : ∀ p ∈ a.allRegions, p < a.nextPtr

/-- The free list holds the regions `S` in order, and their total size. -/
structure FreeList (a : RegionAllocator w) (S : RegionPtr → Prop) : Prop where
  mem : ∀ p, p ∈ a.freeRegions ↔ S p
  sorted : OrderedSet.Sorted a.sizeAddressOrder a.freeRegions
  total : a.freeSize = (a.freeRegions.map a.sizeOf).sum % 2 ^ w

/-- The free regions. -/
def IsFree (a : RegionAllocator w) (p : RegionPtr) : Prop := p ∈ a.allRegions ∧ (a.heap p).state = .kFree

/-- The invariant without the rule about neighbours. -/
structure Weak (a : RegionAllocator w) : Prop extends Core a where
  free : FreeList a a.IsFree

/-- All free regions but `p` are in the free list. -/
structure WeakExcept (a : RegionAllocator w) (p : RegionPtr) : Prop extends Core a where
  free : FreeList a fun q => a.IsFree q ∧ q ≠ p

variable {a' : RegionAllocator w} {p : RegionPtr}

theorem Same.whole {a : RegionAllocator w} (h : Same a a') (ha : Whole a) : Whole a' := by
  obtain ⟨hw, hp, hm, hs⟩ := h
  obtain ⟨h1, h2, h3, h4, h5, h6, h7⟩ := ha
  constructor <;> simp only [beginAddress, hw, hp, hs] at * <;> assumption

section Core
variable {a : RegionAllocator w}

theorem Whole.pageSize_pos (h : Whole a) : 0 < a.pageSize := by
  obtain ⟨k, hk⟩ := h.pageSize_pow
  rw [hk]
  exact Nat.two_pow_pos k

theorem Whole.endAddress_eq (h : Whole a) : a.endAddress = a.beginAddress + a.wholeRegion.size :=
  addWord_of_lt h.lt_pow

theorem Whole.contains_iff (h : Whole a) {address : Nat} (ha : address < 2 ^ w) :
    a.wholeRegion.contains w address ↔ a.beginAddress ≤ address ∧ address < a.beginAddress + a.wholeRegion.size := by
  have hlt := h.lt_pow
  simp only [Region.contains, beginAddress] at *
  by_cases hle : a.wholeRegion.address ≤ address
  · rw [subWord_of_le hle ha]
    omega
  · rw [subWord_of_lt (by omega) (by omega)]
    omega

/-- Bounds of the regions. -/
theorem Core.mem (h : Core a) (hp : p ∈ a.allRegions) :
    a.beginAddress ≤ (a.heap p).address ∧ 0 < (a.heap p).size ∧
      (a.heap p).address + (a.heap p).size ≤ a.beginAddress + a.wholeRegion.size :=
  h.tiles.mem hp

theorem Core.lt_pow' (h : Core a) (hp : p ∈ a.allRegions) :
    (a.heap p).address + (a.heap p).size < 2 ^ w :=
  Nat.lt_of_le_of_lt (h.mem hp).2.2 h.lt_pow

theorem Core.endAddress_eq' (h : Core a) (hp : p ∈ a.allRegions) :
    (a.heap p).endAddress w = (a.heap p).address + (a.heap p).size :=
  addWord_of_lt (h.lt_pow' hp)

/-- Regions are told apart by their addresses. -/
theorem Core.eq_of_address (h : Core a) {q : RegionPtr} (hp : p ∈ a.allRegions) (hq : q ∈ a.allRegions)
    (heq : (a.heap p).address = (a.heap q).address) : p = q := by
  by_contra hne
  have hp' := h.mem hp
  have hq' := h.mem hq
  rcases h.tiles.disjoint hp hq hne with hd | hd <;> simp only [start, sizeOf] at hd <;> omega

theorem Core.dvd_address (h : Core a) (hp : p ∈ a.allRegions) : a.pageSize ∣ (a.heap p).address :=
  h.tiles.dvd_start h.begin_dvd h.dvd p hp

/-- What `Core` says only depends on the addresses and sizes of the regions. -/
theorem Core.congr (h : Core a) (hsame : Same a a') (hall : a'.allRegions = a.allRegions)
    (hptr : a.nextPtr ≤ a'.nextPtr)
    (hheap : ∀ p ∈ a.allRegions, (a'.heap p).address = (a.heap p).address ∧ (a'.heap p).size = (a.heap p).size) :
    Core a' := by
  refine ⟨hsame.whole h.toWhole, ?_, ?_, ?_⟩
  · rw [hall]
    simp only [beginAddress, hsame.wholeRegion]
    exact h.tiles.congr hheap
  · intro p hp
    rw [hall] at hp
    rw [hsame.pageSize, sizeOf, (hheap p hp).2]
    exact h.dvd p hp
  · intro p hp
    rw [hall] at hp
    exact Nat.lt_of_lt_of_le (h.fresh p hp) hptr
end Core

/-! ## The free list -/

section FreeLists
variable {a : RegionAllocator w} {S : RegionPtr → Prop}

/-- The free list does not notice changes of regions that are not in it. -/
theorem FreeList.congr (h : FreeList a S) (hfree : a'.freeRegions = a.freeRegions)
    (hsize : a'.freeSize = a.freeSize)
    (hheap : ∀ p, S p → (a'.heap p).address = (a.heap p).address ∧ (a'.heap p).size = (a.heap p).size) :
    FreeList a' S := by
  refine ⟨fun p => by rw [hfree, h.mem], ?_, ?_⟩
  · rw [hfree]
    refine h.sorted.congr fun p hp => ?_
    obtain ⟨h1, h2⟩ := hheap p ((h.mem p).1 hp)
    simp only [sizeAddressOrder, h1, h2]
  · rw [hfree, hsize, h.total]
    congr 2
    apply List.map_congr_left
    intro p hp
    exact (hheap p ((h.mem p).1 hp)).2.symm

theorem FreeList.iff {S' : RegionPtr → Prop} (h : FreeList a S) (hS : ∀ p, S p ↔ S' p) : FreeList a S' :=
  ⟨fun p => (h.mem p).trans (hS p), h.sorted, h.total⟩

/-- The allocator without `p` in its free list. -/
def eraseFree (a : RegionAllocator w) (p : RegionPtr) : RegionAllocator w :=
  { a with freeSize := subWord w a.freeSize (a.heap p).size, freeRegions := a.freeRegions.erase p }

theorem freeListRemoveRegion_spec (h : FreeList a S) (hp : S p) (hsize : (a.heap p).size < 2 ^ w) :
    a.freeListRemoveRegion p = some (a.eraseFree p) ∧ FreeList (a.eraseFree p) fun q => S q ∧ q ≠ p := by
  have hmem := (h.mem p).2 hp
  refine ⟨by simp [freeListRemoveRegion, h.sorted.find_key hmem, eraseFree], fun q => ?_, h.sorted.erase p, ?_⟩
  · show q ∈ a.freeRegions.erase p ↔ _
    rw [h.sorted.nodup.mem_erase_iff, h.mem q]
    exact and_comm
  · -- the size of `p` is one of the summands
    have hperm := (List.perm_cons_erase hmem).map a.sizeOf
    have hsum := hperm.sum_eq
    simp only [List.map_cons, List.sum_cons] at hsum
    have hp' : a.sizeOf p < 2 ^ w := hsize
    show subWord w a.freeSize (a.sizeOf p) = ((a.freeRegions.erase p).map a.sizeOf).sum % 2 ^ w
    rw [subWord, h.total, hsum, Nat.mod_add_mod]
    have heq : a.sizeOf p + ((a.freeRegions.erase p).map a.sizeOf).sum + (2 ^ w - a.sizeOf p) =
        ((a.freeRegions.erase p).map a.sizeOf).sum + 2 ^ w := by omega
    rw [heq, Nat.add_mod_right]

theorem freeListAddRegion_spec (h : FreeList a S)
    (hp : ∀ q, S q → (a.heap q).address ≠ (a.heap p).address) :
    FreeList (a.freeListAddRegion p) fun q => S q ∨ q = p := by
  have hkey : ∀ q ∈ a.freeRegions, a.sizeAddressOrder q ≠ a.sizeAddressOrder p := by
    intro q hq heq
    have := congrArg (fun x => (ofLex x).2) heq
    exact hp q ((h.mem q).1 hq) this
  have hperm := OrderedSet.insert_perm hkey
  refine ⟨fun q => ?_, h.sorted.insert hkey, ?_⟩
  · show q ∈ OrderedSet.insert a.sizeAddressOrder p a.freeRegions ↔ _
    rw [hperm.mem_iff, List.mem_cons, h.mem q]
    exact or_comm
  · show addWord w a.freeSize (a.sizeOf p) =
      ((OrderedSet.insert a.sizeAddressOrder p a.freeRegions).map a.sizeOf).sum % 2 ^ w
    have hsum := (hperm.map a.sizeOf).sum_eq
    rw [addWord, h.total, hsum, Nat.mod_add_mod, List.map_cons, List.sum_cons, Nat.add_comm]

end FreeLists

/-! ## Splitting -/

section Split
variable {a a' : RegionAllocator w} {pre post : List RegionPtr} {p q : RegionPtr} {n : Nat}

theorem Core.not_mem (h : Core a) (hall : a.allRegions = pre ++ p :: post) : p ∉ pre ∧ p ∉ post := by
  have hnodup := h.tiles.nodup
  rw [hall] at hnodup
  have := List.nodup_middle.1 hnodup
  simpa using (List.nodup_cons.1 this).1

/-- Regions in the place of others that tile the same addresses. -/
theorem Core.replace (h : Core a) (mid mid' : List RegionPtr) (hall : a.allRegions = pre ++ (mid ++ post))
    (hsame : Same a a') (hall' : a'.allRegions = pre ++ (mid' ++ post)) (hptr : a.nextPtr ≤ a'.nextPtr)
    (hkeep : ∀ x, x ∈ pre ∨ x ∈ post → a'.heap x = a.heap x)
    (hmid : ∀ b e, Tiling.Tiles a.start a.sizeOf mid b e → Tiling.Tiles a'.start a'.sizeOf mid' b e)
    (hnew : ∀ x ∈ mid', a.pageSize ∣ (a'.heap x).size ∧ x < a'.nextPtr) : Core a' := by
  have htiles := h.tiles
  rw [hall] at htiles
  obtain ⟨_, hpre, hrest⟩ := Tiling.tiles_append.1 htiles
  obtain ⟨_, hold, hpost⟩ := Tiling.tiles_append.1 hrest
  have hcases : ∀ x ∈ a'.allRegions, (x ∈ a.allRegions ∧ a'.heap x = a.heap x) ∨ x ∈ mid' := by
    intro x hx
    simp only [hall, hall', List.mem_append] at hx ⊢
    rcases hx with hx | hx | hx
    · exact .inl ⟨.inl hx, hkeep x (.inl hx)⟩
    · exact .inr hx
    · exact .inl ⟨.inr (.inr hx), hkeep x (.inr hx)⟩
  refine ⟨hsame.whole h.toWhole, ?_, fun x hx => ?_, fun x hx => ?_⟩
  · rw [hall']
    simp only [beginAddress, hsame.wholeRegion]
    refine (hpre.congr fun x hx => ?_).replace (hmid _ _ hold) (hpost.congr fun x hx => ?_)
    · simp [start, sizeOf, hkeep x (.inl hx)]
    · simp [start, sizeOf, hkeep x (.inr hx)]
  · rw [hsame.pageSize, sizeOf]
    rcases hcases x hx with ⟨hx, heq⟩ | hx
    · exact heq ▸ h.dvd x hx
    · exact (hnew x hx).1
  · rcases hcases x hx with ⟨hx, _⟩ | hx
    · exact Nat.lt_of_lt_of_le (h.fresh x hx) hptr
    · exact (hnew x hx).2

/-- The first `n` bytes of `p` stay its own, the others belong to a new region. -/
structure Splits (a a' : RegionAllocator w) (p : RegionPtr) (n : Nat) : Prop where
  left : a'.heap p = { a.heap p with size := n }
  right : a'.heap a.nextPtr = ⟨(a.heap p).address + n, (a.heap p).size - n, (a.heap p).state⟩
  other : ∀ x, x ≠ p → x ≠ a.nextPtr → a'.heap x = a.heap x

theorem Splits.keep (hs : Splits a a' p n) (h : Core a) (hall : a.allRegions = pre ++ p :: post) (x : RegionPtr)
    (hx : x ∈ pre ∨ x ∈ post) : a'.heap x = a.heap x := by
  have hxall : x ∈ a.allRegions := by
    rw [hall]
    rcases hx with hx | hx <;> simp [hx]
  refine hs.other x ?_ (Nat.ne_of_lt (h.fresh x hxall))
  rintro rfl
  exact hx.elim (h.not_mem hall).1 (h.not_mem hall).2

/-- Two regions in the place of one. -/
theorem Core.split (h : Core a) (hall : a.allRegions = pre ++ p :: post) (hsame : Same a a')
    (hall' : a'.allRegions = pre ++ p :: a.nextPtr :: post) (hptr : a'.nextPtr = a.nextPtr + 1) (hn : 0 < n)
    (hlt : n < (a.heap p).size) (hdvd : a.pageSize ∣ n) (hs : Splits a a' p n) : Core a' := by
  have hpall : p ∈ a.allRegions := by simp [hall]
  refine h.replace [p] [p, a.nextPtr] hall hsame hall' (hptr ▸ Nat.le_succ _) (hs.keep h hall) ?_ ?_
  · rintro b e ⟨rfl, _, rfl⟩
    simp only [Tiling.Tiles, start, sizeOf, hs.left, hs.right, true_and]
    omega
  · intro x hx
    obtain rfl | rfl := List.mem_pair.1 hx
    · rw [hs.left, hptr]
      exact ⟨hdvd, Nat.lt_succ_of_lt (h.fresh x hpall)⟩
    · rw [hs.right, hptr]
      exact ⟨Nat.dvd_sub (h.dvd p hpall) hdvd, Nat.lt_succ_self _⟩

/-- The new region is inserted right after the one that is split. -/
theorem Core.insert_end (h : Core a) (hall : a.allRegions = pre ++ p :: post) (hlt : n < (a.heap p).size)
    (hs : Splits a a' p n) :
    OrderedSet.insert a'.addressEndOrder a.nextPtr (pre ++ p :: post) = pre ++ p :: a.nextPtr :: post := by
  have hpall : p ∈ a.allRegions := by simp [hall]
  have hplt := h.lt_pow' hpall
  have htiles := h.tiles
  rw [hall] at htiles
  obtain ⟨hpre, _, hpost⟩ := htiles.split
  have hend : ∀ x, x ∈ pre ∨ x ∈ post → a'.addressEndOrder x = a.start x + a.sizeOf x := by
    intro x hx
    rw [addressEndOrder, hs.keep h hall x hx]
    refine h.endAddress_eq' ?_
    rw [hall]
    rcases hx with hx | hx <;> simp [hx]
  have hendq : a'.addressEndOrder a.nextPtr = a.start p + a.sizeOf p := by
    rw [addressEndOrder, hs.right, Region.endAddress, addWord_of_lt (by simp only; omega)]
    simp only [start, sizeOf]
    omega
  have hendp : a'.addressEndOrder p = a.start p + n := by
    rw [addressEndOrder, hs.left, Region.endAddress, addWord_of_lt (by simp only; omega)]
    rfl
  have hsplit : pre ++ p :: post = (pre ++ [p]) ++ post := by simp
  rw [hsplit, OrderedSet.insert_between]
  · simp
  · intro y hy
    rcases List.mem_append.1 hy with hy | hy
    · rw [hend y (.inl hy), hendq]
      have := (hpre.mem hy).2.2
      omega
    · obtain rfl : y = p := by simpa using hy
      rw [hendp, hendq]
      simp only [sizeOf]
      omega
  · intro y hy
    rw [hend y (.inr hy), hendq]
    have := hpost.mem hy
    omega

/-- The part of `Split` between the changes of the free list. -/
theorem Core.setSize_insert (h : Core a) (hall : a.allRegions = pre ++ p :: post) (hn : 0 < n) (hlt : n < (a.heap p).size)
    (hdvd : a.pageSize ∣ n) {b : RegionAllocator w} (hsame : Same a b) (hb : b.allRegions = a.allRegions)
    (hptr : b.nextPtr = a.nextPtr + 1)
    (hheap : b.heap = Function.update a.heap a.nextPtr ⟨(a.heap p).address + n, (a.heap p).size - n, (a.heap p).state⟩)
    {S : RegionPtr → Prop} (hfree : FreeList b S) (hS : ∀ x, S x → x ≠ p ∧ x ≠ a.nextPtr) :
    Core ((b.setSize p n).allRegionsInsert a.nextPtr) ∧ FreeList ((b.setSize p n).allRegionsInsert a.nextPtr) S ∧
      ((b.setSize p n).allRegionsInsert a.nextPtr).allRegions = pre ++ p :: a.nextPtr :: post ∧
      Splits a ((b.setSize p n).allRegionsInsert a.nextPtr) p n := by
  have hpall : p ∈ a.allRegions := by simp [hall]
  have hpq : p ≠ a.nextPtr := Nat.ne_of_lt (h.fresh p hpall)
  have hs : Splits a ((b.setSize p n).allRegionsInsert a.nextPtr) p n := by
    refine ⟨?_, ?_, fun x hxp hxq => ?_⟩
    · simp [allRegionsInsert, setSize, hheap, Function.update_of_ne hpq]
    · simp [allRegionsInsert, setSize, hheap, Function.update_of_ne hpq.symm]
    · simp [allRegionsInsert, setSize, hheap, Function.update_of_ne hxp, Function.update_of_ne hxq]
  have hall' : ((b.setSize p n).allRegionsInsert a.nextPtr).allRegions = pre ++ p :: a.nextPtr :: post := by
    rw [← h.insert_end hall hlt hs, ← hall, ← hb]
    rfl
  refine ⟨h.split hall ⟨hsame.1, hsame.2, hsame.3, hsame.4⟩ hall' hptr hn hlt hdvd hs, ?_, hall', hs⟩
  refine hfree.congr rfl rfl fun x hx => ?_
  obtain ⟨hxp, hxq⟩ := hS x hx
  have heq : ((b.setSize p n).allRegionsInsert a.nextPtr).heap x = b.heap x := by
    simp [allRegionsInsert, setSize, Function.update_of_ne hxp]
  simp [heq]

/-- The free regions after a split. -/
theorem isFree_split (hall : a.allRegions = pre ++ p :: post) (hall' : a'.allRegions = pre ++ p :: a.nextPtr :: post)
    (hfresh : a.nextPtr ∉ a.allRegions) (hs : Splits a a' p n) (x : RegionPtr) :
    a'.IsFree x ↔ a.IsFree x ∨ (x = a.nextPtr ∧ (a.heap p).state = .kFree) := by
  have hmem : x ∈ a'.allRegions ↔ x ∈ a.allRegions ∨ x = a.nextPtr := by
    rw [hall, hall']
    simp only [List.mem_append, List.mem_cons]
    tauto
  have hstate : x ∈ a.allRegions → (a'.heap x).state = (a.heap x).state := by
    intro hx
    by_cases hxp : x = p
    · subst hxp
      rw [hs.left]
    · rw [hs.other x hxp (fun heq => hfresh (heq ▸ hx))]
  constructor
  · rintro ⟨hx, hfree⟩
    rcases hmem.1 hx with hx | rfl
    · exact .inl ⟨hx, by rw [← hstate hx]; exact hfree⟩
    · exact .inr ⟨rfl, by rwa [hs.right] at hfree⟩
  · rintro (⟨hx, hfree⟩ | ⟨rfl, hfree⟩)
    · exact ⟨hmem.2 (.inl hx), by rw [hstate hx]; exact hfree⟩
    · exact ⟨hmem.2 (.inr rfl), by rw [hs.right]; exact hfree⟩

/-- `Split` keeps the invariant and puts the new region after the old one. -/
theorem split_spec (h : Weak a) (hall : a.allRegions = pre ++ p :: post) (hn : 0 < n) (hlt : n < (a.heap p).size)
    (hdvd : a.pageSize ∣ n) :
    ∃ a', a.split p n = some (a.nextPtr, a') ∧ Weak a' ∧ Same a a' ∧ a'.allRegions = pre ++ p :: a.nextPtr :: post ∧
      Splits a a' p n := by
  have hpall : p ∈ a.allRegions := by simp [hall]
  have hplt := h.lt_pow' hpall
  have hpq : p ≠ a.nextPtr := Nat.ne_of_lt (h.fresh p hpall)
  have haddr : addWord w (a.heap p).address n = (a.heap p).address + n := addWord_of_lt (by omega)
  have hsize : subWord w (a.heap p).size n = (a.heap p).size - n := subWord_of_le (by omega) (by omega)
  let r : Region := ⟨(a.heap p).address + n, (a.heap p).size - n, (a.heap p).state⟩
  -- a free region is one of the old ones, so the new object does not disturb the free list
  have hold : ∀ x, a.IsFree x → x ≠ a.nextPtr := fun x hx => Nat.ne_of_lt (h.fresh x hx.1)
  have hfresh : a.nextPtr ∉ a.allRegions := fun hmem => Nat.lt_irrefl _ (h.fresh _ hmem)
  have hfree₀ : FreeList (a.newRegion r).2 a.IsFree := by
    refine h.free.congr rfl rfl fun x hx => ?_
    simp [newRegion, Function.update_of_ne (hold x hx)]
  by_cases hstate : (a.heap p).state = .kFree
  · have hheapp : (a.newRegion r).2.heap p = a.heap p := by simp [newRegion, Function.update_of_ne hpq]
    obtain ⟨hrem, hfree₁⟩ := freeListRemoveRegion_spec hfree₀ ⟨hpall, hstate⟩ (by rw [hheapp]; omega)
    obtain ⟨hcore, hfree₂, hall', hs⟩ := h.setSize_insert hall hn hlt hdvd
      (b := (a.newRegion r).2.eraseFree p) ⟨rfl, rfl, rfl, rfl⟩ rfl rfl rfl hfree₁ (fun x hx => ⟨hx.2, hold x hx.1⟩)
    generalize hc : (((a.newRegion r).2.eraseFree p).setSize p n).allRegionsInsert a.nextPtr = c at *
    -- `p` and the new region go into the free list, at addresses no other free region has
    have hcp : p ∈ c.allRegions := by simp [hall']
    have hcq : a.nextPtr ∈ c.allRegions := by simp [hall']
    have hcx : ∀ x, a.IsFree x → x ∈ c.allRegions := by
      intro x hx
      have := hx.1
      rw [hall] at this
      rw [hall']
      simp only [List.mem_append, List.mem_cons] at this ⊢
      tauto
    have hfree₃ := freeListAddRegion_spec hfree₂ (p := p) fun x hx heq => hx.2 (hcore.eq_of_address (hcx x hx.1) hcp heq)
    have hfree₄ := freeListAddRegion_spec hfree₃ (p := a.nextPtr) fun x hx heq => by
      rcases hx with hx | rfl
      · exact hold x hx.1 (hcore.eq_of_address (hcx x hx.1) hcq heq)
      · exact hpq (hcore.eq_of_address hcp hcq heq)
    have hcore' : Core ((c.freeListAddRegion p).freeListAddRegion a.nextPtr) :=
      hcore.congr ⟨rfl, rfl, rfl, rfl⟩ rfl (Nat.le_refl _) (fun _ _ => ⟨rfl, rfl⟩)
    refine ⟨(c.freeListAddRegion p).freeListAddRegion a.nextPtr, ?_, ⟨hcore', hfree₄.iff fun x => ?_⟩, ?_, hall',
      ⟨hs.left, hs.right, hs.other⟩⟩
    · simp only [split, hstate, haddr, hsize]
      rw [show a.newRegion ⟨(a.heap p).address + n, (a.heap p).size - n, .kFree⟩ = a.newRegion r by simp [r, hstate]]
      simp only [hrem, ← hc]
      rfl
    · show _ ↔ c.IsFree x
      rw [isFree_split hall hall' hfresh hs x]
      by_cases hxp : x = p
      · subst hxp
        simp [IsFree, hpall, hstate]
      · simp [hxp, hstate]
    · rw [← hc]
      exact ⟨rfl, rfl, rfl, rfl⟩
  · obtain ⟨hcore, hfree₂, hall', hs⟩ := h.setSize_insert hall hn hlt hdvd (b := (a.newRegion r).2)
      ⟨rfl, rfl, rfl, rfl⟩ rfl rfl rfl hfree₀ (fun x hx => ⟨fun heq => hstate (heq ▸ hx.2), hold x hx⟩)
    refine ⟨((a.newRegion r).2.setSize p n).allRegionsInsert a.nextPtr, ?_, ⟨hcore, hfree₂.iff fun x => ?_⟩,
      ⟨rfl, rfl, rfl, rfl⟩, hall', hs⟩
    · simp only [split, hstate, haddr, hsize]
      rfl
    · rw [isFree_split hall hall' hfresh hs x]
      simp [hstate]
end Split

/-! ## Changing the state of a region -/

section Mark
variable {a : RegionAllocator w} {p : RegionPtr} {state : RegionState}

@[simp] theorem setState_self : (a.setState p state).heap p = { a.heap p with state := state } := by
  simp [setState]

@[simp] theorem setState_other {x : RegionPtr} (h : x ≠ p) : (a.setState p state).heap x = a.heap x := by
  simp [setState, Function.update_of_ne h]

/-- Addresses and sizes do not change with the state. -/
theorem setState_region (x : RegionPtr) :
    ((a.setState p state).heap x).address = (a.heap x).address ∧ ((a.setState p state).heap x).size = (a.heap x).size := by
  by_cases h : x = p
  · subst h
    simp
  · simp [setState_other h]

theorem Core.setState (h : Core a) : Core (a.setState p state) :=
  h.congr ⟨rfl, rfl, rfl, rfl⟩ rfl (Nat.le_refl _) fun x _ => setState_region x

/-- A free region leaves the free list with its new state. -/
theorem markRegion_spec (h : Weak a) (hp : a.IsFree p) (hstate : state ≠ .kFree) :
    ∃ a', a.markRegion p state = some a' ∧ Weak a' ∧ Same a a' ∧ a'.allRegions = a.allRegions ∧
      a'.heap p = { a.heap p with state := state } ∧ ∀ x, x ≠ p → a'.heap x = a.heap x := by
  have hlt := h.lt_pow' hp.1
  obtain ⟨hrem, hfree⟩ := freeListRemoveRegion_spec h.free hp (by omega)
  have hheap : (a.eraseFree p).heap = a.heap := rfl
  have hcore : Core (a.eraseFree p) := h.congr ⟨rfl, rfl, rfl, rfl⟩ rfl (Nat.le_refl _) fun _ _ => ⟨rfl, rfl⟩
  have hfree' := (hfree.congr rfl rfl fun x _ => setState_region x : FreeList ((a.eraseFree p).setState p state) _)
  refine ⟨(a.eraseFree p).setState p state, ?_, ⟨hcore.setState, hfree'.iff fun x => ?_⟩, ⟨rfl, rfl, rfl, rfl⟩, rfl,
    setState_self, fun x hx => setState_other hx⟩
  · simp [markRegion, hrem]
  · by_cases hx : x = p
    · subst hx
      simp [IsFree, hheap, hstate]
    · simp only [IsFree, setState_other hx, hheap, hx, ne_eq, not_false_eq_true, and_true]
      rfl

/-- A region becomes free, not yet in the free list. -/
theorem setState_free (h : Weak a) (hp : (a.heap p).state ≠ .kFree) : WeakExcept (a.setState p .kFree) p := by
  have hfree : FreeList (a.setState p .kFree) a.IsFree := h.free.congr rfl rfl fun x _ => setState_region x
  refine ⟨h.setState, hfree.iff fun x => ?_⟩
  by_cases hx : x = p
  · subst hx
    simp [IsFree, hp]
  · simp only [IsFree, setState_other hx, hx, ne_eq, not_false_eq_true, and_true]
    rfl
end Mark

/-! ## Merging -/

section Merge
variable {a a' : RegionAllocator w} {pre post : List RegionPtr} {u v : RegionPtr}

theorem merge_heap_left : (a.merge u v).heap u = { a.heap u with size := addWord w (a.heap u).size (a.heap v).size } := by
  simp [merge, setSize]

theorem merge_heap_other {x : RegionPtr} (h : x ≠ u) : (a.merge u v).heap x = a.heap x := by
  simp [merge, setSize, Function.update_of_ne h]

/-- One region in the place of two neighbours; `S` are the free regions other than these. -/
theorem merge_spec (h : Core a) (hall : a.allRegions = pre ++ u :: v :: post)
    (hfree : FreeList a fun x => a.IsFree x ∧ x ≠ u ∧ x ≠ v) :
    WeakExcept (a.merge u v) u ∧ Same a (a.merge u v) ∧ (a.merge u v).allRegions = pre ++ u :: post ∧
      (a.merge u v).heap u = { a.heap u with size := (a.heap u).size + (a.heap v).size } ∧
      ∀ x, x ≠ u → (a.merge u v).heap x = a.heap x := by
  have huall : u ∈ a.allRegions := by simp [hall]
  have hvall : v ∈ a.allRegions := by simp [hall]
  have htiles := h.tiles
  rw [hall] at htiles
  obtain ⟨_, _, hvstart, _⟩ := htiles.split
  have hbound := h.lt_pow' hvall
  have hsize : addWord w (a.heap u).size (a.heap v).size = (a.heap u).size + (a.heap v).size := by
    apply addWord_of_lt
    simp only [start, sizeOf] at hvstart
    omega
  have hnot := h.not_mem hall
  have hnotv : v ∉ pre ∧ v ∉ u :: post ∧ v ≠ u := by
    have hall' : a.allRegions = (pre ++ [u]) ++ v :: post := by simp [hall]
    have := h.not_mem hall'
    simp only [List.mem_append, List.mem_cons, not_or] at this ⊢
    tauto
  have hall' : (a.merge u v).allRegions = pre ++ u :: post := by
    show a.allRegions.erase v = _
    rw [hall, List.erase_append_right _ hnotv.1, List.erase_cons_tail (by simpa using hnotv.2.2.symm)]
    simp
  have hu : (a.merge u v).heap u = { a.heap u with size := (a.heap u).size + (a.heap v).size } := by
    rw [merge_heap_left, hsize]
  have hother : ∀ x, x ≠ u → (a.merge u v).heap x = a.heap x := fun x hx => merge_heap_other hx
  have hcore : Core (a.merge u v) := by
    refine h.replace [u, v] [u] hall ⟨rfl, rfl, rfl, rfl⟩ hall' (Nat.le_refl _) (fun x hx => hother x ?_) ?_ ?_
    · rintro rfl
      exact hx.elim hnot.1 fun hx => hnot.2 (List.mem_cons_of_mem _ hx)
    · rintro b e ⟨rfl, hpos, hv, _, rfl⟩
      simp only [Tiling.Tiles, start, sizeOf, hu, true_and] at hpos hv ⊢
      omega
    · intro x hx
      obtain rfl := List.mem_singleton.1 hx
      rw [hu]
      exact ⟨Nat.dvd_add (h.dvd x huall) (h.dvd v hvall), h.fresh x huall⟩
  refine ⟨⟨hcore, ?_⟩, ⟨rfl, rfl, rfl, rfl⟩, hall', hu, hother⟩
  have hfree' : FreeList (a.merge u v) fun x => a.IsFree x ∧ x ≠ u ∧ x ≠ v := by
    refine hfree.congr rfl rfl fun x hx => ?_
    simp [hother x hx.2.1]
  refine hfree'.iff fun x => ?_
  by_cases hxu : x = u
  · simp [hxu]
  · have hmem : x ∈ (a.merge u v).allRegions ↔ x ∈ a.allRegions ∧ x ≠ v := by
      rw [hall', hall]
      simp only [List.mem_append, List.mem_cons]
      constructor
      · intro hx
        refine ⟨by tauto, ?_⟩
        rintro rfl
        exact hx.elim hnotv.1 (fun hx => hnotv.2.1 (List.mem_cons.2 hx))
      · tauto
    simp only [IsFree, hmem, hother x hxu]
    tauto
end Merge

end RegionAllocator

end V8Core.Base
