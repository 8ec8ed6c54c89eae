import V8Core.Compiler.Comparisons
import V8Core.Compiler.ConstantDivision
import Mathlib.Logic.Relation
/-!
# Rewriting a graph

The graph reducer applies the reducers at any node of a graph, as often as one of them
has something to say. A step rewrites one node somewhere below the root; what the graph
says of use counts and shared nodes may change from step to step. However many steps are
made, the root keeps its word.

The reducers are those of words: addition, subtraction and multiplication, division and
remainder by constants, bitwise operations, shifts, rotation, equality, the order of 32-bit
words, and the conversions between the word sizes. Comparisons of 64-bit words in an order
are left out: their reducer does not always keep the outcome
(`reduceWord64Comparisons_correct_iff`).
-/

namespace V8Core.Compiler

open Node

/-- What a reducer of 32-bit words returns. -/
inductive Reduces32 (G : GraphInfo) (node r : Node 32) : Prop
  | word (h : reduceWord32 G node = some r)
  | division (op : Division) (left right : Node 32) (hnode : node = .binop op.binop left right)
      (h : reduceDivision G (word32Builders G) op left right = some r)
  | comparison (op : Comparison) (left right : Node 32) (hnode : node = .compare op left right)
      (h : reduceCompare32 G op left right = some r)

/-- What a reducer of 64-bit words returns. -/
inductive Reduces64 (G : GraphInfo) (node r : Node 64) : Prop
  | word (h : reduceWord64 G node = some r)
  | division (op : Division) (left right : Node 64) (hnode : node = .binop op.binop left right)
      (h : reduceDivision G (word64Builders G) op left right = some r)

/-- One node is rewritten, at the root or below it. -/
inductive Rewrites : {w : Nat} → Node w → Node w → Prop
  | at32 {G : GraphInfo} {node r : Node 32} (h : Reduces32 G node r) : Rewrites node r
  | at64 {G : GraphInfo} {node r : Node 64} (h : Reduces64 G node r) : Rewrites node r
  | typeGuard {w : Nat} {a a' : Node w} (h : Rewrites a a') : Rewrites (.typeGuard a) (.typeGuard a')
  | binopLeft {w : Nat} {op : Binop} {a a' b : Node w} (h : Rewrites a a') :
      Rewrites (.binop op a b) (.binop op a' b)
  | binopRight {w : Nat} {op : Binop} {a b b' : Node w} (h : Rewrites b b') :
      Rewrites (.binop op a b) (.binop op a b')
  | compareLeft {w : Nat} {op : Comparison} {a a' b : Node w} (h : Rewrites a a') :
      Rewrites (.compare op a b) (.compare op a' b)
  | compareRight {w : Nat} {op : Comparison} {a b b' : Node w} (h : Rewrites b b') :
      Rewrites (.compare op a b) (.compare op a b')
  | changeInt32ToInt64 {a a' : Node 32} (h : Rewrites a a') :
      Rewrites (.changeInt32ToInt64 a) (.changeInt32ToInt64 a')
  | changeUint32ToUint64 {a a' : Node 32} (h : Rewrites a a') :
      Rewrites (.changeUint32ToUint64 a) (.changeUint32ToUint64 a')
  | truncateInt64ToInt32 {a a' : Node 64} (h : Rewrites a a') :
      Rewrites (.truncateInt64ToInt32 a) (.truncateInt64ToInt32 a')
  | phiCondition {w : Nat} {c c' : Node 32} {a b : Node w} (h : Rewrites c c') : Rewrites (.phi c a b) (.phi c' a b)
  | phiTrue {w : Nat} {c : Node 32} {a a' b : Node w} (h : Rewrites a a') : Rewrites (.phi c a b) (.phi c a' b)
  | phiFalse {w : Nat} {c : Node 32} {a b b' : Node w} (h : Rewrites b b') : Rewrites (.phi c a b) (.phi c a b')

/-- Any number of steps. -/
def Run {w : Nat} : Node w → Node w → Prop := Relation.ReflTransGen Rewrites

theorem Reduces32.refines {G : GraphInfo} {node r : Node 32} (h : Reduces32 G node r) : node.Refines r := by
  cases h with
  | word h => exact reduceWord32_sound G node r h
  | division op left right hnode h => exact hnode ▸ reduceDivision_sound G _ op left right r h
  | comparison op left right hnode h => exact hnode ▸ reduceCompare32_sound G op left right r h

theorem Reduces64.refines {G : GraphInfo} {node r : Node 64} (h : Reduces64 G node r) : node.Refines r := by
  cases h with
  | word h => exact reduceWord64_sound G node r h
  | division op left right hnode h => exact hnode ▸ reduceDivision_sound G _ op left right r h

/-- A step keeps the word of the root, and the promises below it. -/
theorem Rewrites.refines {w : Nat} {a b : Node w} (h : Rewrites a b) : a.Refines b := by
  induction h with
  | at32 h => exact h.refines
  | at64 h => exact h.refines
  | typeGuard _ ih => exact fun env hv => ih env hv
  | binopLeft _ ih =>
    intro env hv
    obtain ⟨ha, he⟩ := ih env hv.1
    exact ⟨⟨ha, hv.2.1, fun hop => by rw [he]; exact hv.2.2 hop⟩, by rw [eval, eval, he]⟩
  | binopRight _ ih =>
    intro env hv
    obtain ⟨hb, he⟩ := ih env hv.2.1
    exact ⟨⟨hv.1, hb, fun hop => by rw [he]; exact hv.2.2 hop⟩, by rw [eval, eval, he]⟩
  | compareLeft _ ih =>
    intro env hv
    obtain ⟨ha, he⟩ := ih env hv.1
    exact ⟨⟨ha, hv.2⟩, by rw [eval, eval, he]⟩
  | compareRight _ ih =>
    intro env hv
    obtain ⟨hb, he⟩ := ih env hv.2
    exact ⟨⟨hv.1, hb⟩, by rw [eval, eval, he]⟩
  | changeInt32ToInt64 _ ih | changeUint32ToUint64 _ ih | truncateInt64ToInt32 _ ih =>
    intro env hv
    obtain ⟨ha, he⟩ := ih env hv
    exact ⟨ha, by rw [eval, eval, he]⟩
  | phiCondition _ ih =>
    intro env hv
    obtain ⟨hc, he⟩ := ih env hv.1
    exact ⟨⟨hc, hv.2⟩, by rw [eval, eval, he]⟩
  | phiTrue _ ih =>
    intro env hv
    obtain ⟨ha, he⟩ := ih env hv.2.1
    exact ⟨⟨hv.1, ha, hv.2.2⟩, by rw [eval, eval, he]⟩
  | phiFalse _ ih =>
    intro env hv
    obtain ⟨hb, he⟩ := ih env hv.2.2
    exact ⟨⟨hv.1, hv.2.1, hb⟩, by rw [eval, eval, he]⟩

/-- Any number of steps keeps the word of the root. -/
theorem run_refines {w : Nat} {a b : Node w} (h : Run a b) : a.Refines b := by
  induction h with
  | refl => exact Refines.refl a
  | tail _ hstep ih => exact ih.trans hstep.refines

/-- A step below the root and one at the root. -/
theorem run_refines_xor_zero :
    Refines (.binop .xor (.binop .xor (.leaf 0) (.constant 0)) (.constant (0 : BitVec 32))) (.leaf 0) := by
  have hstep : Rewrites (.binop .xor (.leaf 0) (.constant (0 : BitVec 32))) (.leaf 0) :=
    .at32 (.word (G := treeGraph) rfl)
  exact run_refines (.head (.binopLeft hstep) (.single hstep))

end V8Core.Compiler
