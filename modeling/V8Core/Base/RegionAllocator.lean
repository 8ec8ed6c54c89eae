import V8Core.Lib.OrderedSet
import V8Core.Lib.Tiling
import V8Core.Lib.UnsignedWord
import Mathlib.Data.Prod.Lex

/-!
# The region allocator

`RegionAllocator` of `base/region-allocator.cc`. Regions are objects behind pointers
(`heap`) that two ordered sets share: `allRegions`, ordered by the end addresses, and
`freeRegions`, ordered by sizes and addresses. Addresses and sizes are numbers below
`2 ^ w` with the wrap-around of `uintptr_t` and `size_t`.

Operations are the release build's. A `none` stands for undefined behaviour: a region
that is not found in the set it is removed from, or a neighbour that does not exist.
The split and merge callbacks do not touch the allocator and are left out.
-/

namespace V8Core.Base

open UnsignedWord

inductive RegionState
  | kFree | kExcluded | kAllocated
  deriving DecidableEq, Repr

structure Region where
  address : Nat
  size : Nat
  state : RegionState
  deriving DecidableEq, Repr

/-- Pointers to regions. -/
abbrev RegionPtr := Nat

section Words
variable (w : Nat)

def Region.endAddress (r : Region) : Nat := addWord w r.address r.size

/-- `contains` for an address. -/
def Region.contains (r : Region) (address : Nat) : Prop := subWord w address r.address < r.size

/-- `contains` for a range. -/
def Region.containsRange (r : Region) (address size : Nat) : Prop :=
  subWord w address r.address < r.size ∧ addWord w (subWord w address r.address) size ≤ r.size

instance (r : Region) (address : Nat) : Decidable (r.contains w address) := inferInstanceAs (Decidable (_ < _))

instance (r : Region) (address size : Nat) : Decidable (r.containsRange w address size) :=
  inferInstanceAs (Decidable (_ ∧ _))
end Words

/-- The allocator, with the region objects behind the pointers of its two sets. -/
structure RegionAllocator (w : Nat) where
  wholeRegion : Region
  regionSizeInPages : Nat
  maxLoadForRandomization : Nat
  freeSize : Nat
  pageSize : Nat
  heap : RegionPtr → Region
  nextPtr : RegionPtr
  allRegions : List RegionPtr
  freeRegions : List RegionPtr

namespace RegionAllocator

variable {w : Nat}

/-- The order of `allRegions`. -/
def addressEndOrder (a : RegionAllocator w) (p : RegionPtr) : Nat := (a.heap p).endAddress w

/-- The order of `freeRegions`. -/
def sizeAddressOrder (a : RegionAllocator w) (p : RegionPtr) : ℕ ×ₗ ℕ := toLex ((a.heap p).size, (a.heap p).address)

def beginAddress (a : RegionAllocator w) : Nat := a.wholeRegion.address
def endAddress (a : RegionAllocator w) : Nat := a.wholeRegion.endAddress w

/-- `FindRegion`: the region that contains the address. -/
def findRegion (a : RegionAllocator w) (address : Nat) : Option RegionPtr :=
  if a.wholeRegion.contains w address then OrderedSet.upperBound a.addressEndOrder address a.allRegions else none

def freeListAddRegion (a : RegionAllocator w) (p : RegionPtr) : RegionAllocator w :=
  { a with
    freeSize := addWord w a.freeSize (a.heap p).size
    freeRegions := OrderedSet.insert a.sizeAddressOrder p a.freeRegions }

/-- `FreeListFindRegion`: the smallest free region of at least this size. -/
def freeListFindRegion (a : RegionAllocator w) (size : Nat) : Option RegionPtr :=
  OrderedSet.lowerBound a.sizeAddressOrder (toLex (size, 0)) a.freeRegions

def freeListRemoveRegion (a : RegionAllocator w) (p : RegionPtr) : Option (RegionAllocator w) := do
  let q ← OrderedSet.find a.sizeAddressOrder (a.sizeAddressOrder p) a.freeRegions
  some { a with freeSize := subWord w a.freeSize (a.heap p).size, freeRegions := a.freeRegions.erase q }

def setSize (a : RegionAllocator w) (p : RegionPtr) (size : Nat) : RegionAllocator w :=
  { a with heap := Function.update a.heap p { a.heap p with size := size } }

def setState (a : RegionAllocator w) (p : RegionPtr) (state : RegionState) : RegionAllocator w :=
  { a with heap := Function.update a.heap p { a.heap p with state := state } }

/-- `new Region`. -/
def newRegion (a : RegionAllocator w) (r : Region) : RegionPtr × RegionAllocator w :=
  (a.nextPtr, { a with heap := Function.update a.heap a.nextPtr r, nextPtr := a.nextPtr + 1 })

def allRegionsInsert (a : RegionAllocator w) (p : RegionPtr) : RegionAllocator w :=
  { a with allRegions := OrderedSet.insert a.addressEndOrder p a.allRegions }

/-- `Split`: the region keeps the first `newSize` bytes, a new one gets the rest. -/
def split (a : RegionAllocator w) (p : RegionPtr) (newSize : Nat) : Option (RegionPtr × RegionAllocator w) := do
  let region := a.heap p
  let (q, a) := a.newRegion ⟨addWord w region.address newSize, subWord w region.size newSize, region.state⟩
  if region.state = .kFree then
    let a ← a.freeListRemoveRegion p
    let a := (a.setSize p newSize).allRegionsInsert q
    some (q, (a.freeListAddRegion p).freeListAddRegion q)
  else
    some (q, (a.setSize p newSize).allRegionsInsert q)

/-- `Merge`: the next region becomes part of the previous one. -/
def merge (a : RegionAllocator w) (prev next : RegionPtr) : RegionAllocator w :=
  let a := a.setSize prev (addWord w (a.heap prev).size (a.heap next).size)
  { a with allRegions := a.allRegions.erase next }

/-- Takes a free region out of the free list and gives it a new state. -/
def markRegion (a : RegionAllocator w) (p : RegionPtr) (state : RegionState) : Option (RegionAllocator w) := do
  let a ← a.freeListRemoveRegion p
  some (a.setState p state)

/-- Splits off what follows the first `size` bytes, if there is anything. -/
def splitTail (a : RegionAllocator w) (p : RegionPtr) (size : Nat) : Option (RegionAllocator w) :=
  if (a.heap p).size ≠ size then (a.split p size).map (·.2) else some a

/-- `AllocateRegion`; `none` for `kAllocationFailure`. -/
def allocateRegion (a : RegionAllocator w) (size : Nat) : Option (Option Nat × RegionAllocator w) :=
  match a.freeListFindRegion size with
  | none => some (none, a)
  | some p => do
    let a ← a.splitTail p size
    let a ← a.markRegion p .kAllocated
    some ((a.heap p).address, a)

/-- `AllocateRegionAt`. -/
def allocateRegionAt (a : RegionAllocator w) (requestedAddress size : Nat) (state : RegionState) :
    Option (Bool × RegionAllocator w) :=
  let requestedEnd := addWord w requestedAddress size
  match a.findRegion requestedAddress with
  | none => some (false, a)
  | some p =>
    if (a.heap p).state ≠ .kFree ∨ (a.heap p).endAddress w < requestedEnd then some (false, a)
    else do
      -- the part before the requested address stays free
      let (p, a) ←
        (if (a.heap p).address ≠ requestedAddress then a.split p (subWord w requestedAddress (a.heap p).address)
         else some (p, a))
      let a ← (if (a.heap p).endAddress w ≠ requestedEnd then (a.split p size).map (·.2) else some a)
      let a ← a.markRegion p state
      some (true, a)

def kMaxRandomizationAttempts : Nat := 3

/-- The address for a random number. -/
def randomAddress (a : RegionAllocator w) (random : Nat) : Nat :=
  addWord w a.beginAddress (a.pageSize * (random % a.regionSizeInPages) % 2 ^ w)

/-- The attempts at random addresses, then the free list. -/
def allocateRegionAttempts (a : RegionAllocator w) (size : Nat) : List Nat → Option (Option Nat × RegionAllocator w)
  | [] => a.allocateRegion size
  | random :: rest => do
    let (ok, a') ← a.allocateRegionAt (a.randomAddress random) size .kAllocated
    if ok then some (a.randomAddress random, a') else a'.allocateRegionAttempts size rest

/-- `AllocateRegion` with a random number generator, whose next numbers are `random`. -/
def allocateRegionRandom (a : RegionAllocator w) (random : Nat → Nat) (size : Nat) :
    Option (Option Nat × RegionAllocator w) :=
  if a.freeSize ≥ a.maxLoadForRandomization then
    a.allocateRegionAttempts size ((List.range kMaxRandomizationAttempts).map random)
  else a.allocateRegion size

/-- `AllocateAlignedRegion`. -/
def allocateAlignedRegion (a : RegionAllocator w) (size alignment : Nat) : Option (Option Nat × RegionAllocator w) :=
  let paddedSize := subWord w (addWord w size alignment) a.pageSize
  match a.freeListFindRegion paddedSize with
  | none => some (none, a)
  | some p => do
    let begin := (a.heap p).address
    let (p, a) ←
      (if ¬ isAligned w begin alignment then a.split p (subWord w (roundUp w begin alignment) begin) else some (p, a))
    let a ← a.splitTail p size
    let a ← a.markRegion p .kAllocated
    some ((a.heap p).address, a)

/-- `AllocateRegion` with a hint and an alignment. -/
def allocateRegionHint (a : RegionAllocator w) (hint size alignment : Nat) : Option (Option Nat × RegionAllocator w) := do
  let (ok, a') ←
    (if hint ≠ 0 ∧ a.wholeRegion.containsRange w hint size then a.allocateRegionAt hint size .kAllocated
     else some (false, a))
  if ok then some (some hint, a')
  else if alignment ≤ a.pageSize then a'.allocateRegion size
  else a'.allocateAlignedRegion size alignment

/-- Merges a region that has become free with the next one, if that is free. -/
def mergeNext (a : RegionAllocator w) (region iter : RegionPtr) : Option (RegionAllocator w) :=
  if (a.heap region).endAddress w ≠ a.endAddress then do
    let next ← OrderedSet.nextOf iter a.allRegions
    if (a.heap next).state = .kFree then
      let a ← a.freeListRemoveRegion next
      some (a.merge iter next)
    else some a
  else some a

/-- Merges a region that has become free with the previous one, if that is free. -/
def mergePrev (a : RegionAllocator w) (region iter : RegionPtr) : Option (RegionPtr × RegionAllocator w) :=
  if (a.heap region).address ≠ a.beginAddress then do
    let prev ← OrderedSet.prevOf iter a.allRegions
    if (a.heap prev).state = .kFree then
      let a ← a.freeListRemoveRegion prev
      some (prev, a.merge prev iter)
    else some (region, a)
  else some (region, a)

/-- The start of `TrimRegion`: the region to free, and the iterator that points at it. -/
def trimSplit (a : RegionAllocator w) (p : RegionPtr) (newSize : Nat) :
    Option (RegionPtr × RegionPtr × RegionAllocator w) :=
  if newSize > 0 then do
    let (region, a) ← a.split p newSize
    let iter ← OrderedSet.nextOf p a.allRegions
    some (region, iter, a)
  else some (p, p, a)

/-- `TrimRegion`; the result is the freed size. -/
def trimRegion (a : RegionAllocator w) (address newSize : Nat) : Option (Nat × RegionAllocator w) :=
  match a.findRegion address with
  | none => some (0, a)
  | some p =>
    if (a.heap p).address ≠ address ∨ (a.heap p).state ≠ .kAllocated then some (0, a)
    else do
      let (region, iter, a) ← a.trimSplit p newSize
      let size := (a.heap region).size
      let a ← (a.setState region .kFree).mergeNext region iter
      let (region, a) ← (if newSize = 0 then a.mergePrev region iter else some (region, a))
      some (size, a.freeListAddRegion region)

/-- `FreeRegion`. -/
def freeRegion (a : RegionAllocator w) (address : Nat) : Option (Nat × RegionAllocator w) := a.trimRegion address 0

/-- `IsPowerOfTwo`. -/
def isPowerOfTwo (value : Nat) : Prop := value > 0 ∧ value &&& (value - 1) = 0

instance (value : Nat) : Decidable (isPowerOfTwo value) := inferInstanceAs (Decidable (_ ∧ _))

/-- The constructor; `none` if one of its checks fails. The limit for randomization, a product of
doubles in the source, is a parameter. -/
def new (begin size pageSize : BitVec w) (maxLoadForRandomization : Nat) : Option (RegionAllocator w) :=
  let whole : Region := ⟨begin.toNat, size.toNat, .kFree⟩
  if whole.address < whole.endAddress w ∧ isPowerOfTwo pageSize.toNat ∧ isAligned w whole.size pageSize.toNat ∧
      isAligned w whole.address pageSize.toNat then
    let a : RegionAllocator w :=
      ⟨whole, whole.size / pageSize.toNat, maxLoadForRandomization, 0, pageSize.toNat, fun _ => whole, 1, [0], []⟩
    some (a.freeListAddRegion 0)
  else none

end RegionAllocator

end V8Core.Base
