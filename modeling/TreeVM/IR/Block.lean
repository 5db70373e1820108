import Mathlib.Algebra.Group.Int.Defs
import Mathlib.Algebra.Group.Nat.Defs
import Mathlib.Data.List.Basic

/-!
# Blocks, operations and op ranges of the tree IR

The data model of `ir.h` that every later module works over:

* `OpKind`, `Op`: one IR operation with its 16-bit `extra` operand;
* `OpRange`: the half-open range of operations a basic block or a condition runs;
* `Block`: the tagged union of `ir.h`, one constructor for each `BLOCK_KIND`.

Blocks live in a flat array and name their children by index.  `BLOCK_INVALID`, the
end marker of a chain, is `none`.
-/

namespace TreeVM


inductive OpKind
  | null
  | call
  | callNativeOnStack
  | assign
  | addAssign
  | subAssign
  | mulAssign
  | divAssign
  | andAssign
  | orAssign
  | xorAssign
  | bitNotAssign
  | drop
  | pushVar
  | pushArg
  | pushGlobal
  | arrPush
  | arrAt
  | arrDrop
  | sliceFromAr
  | sliceAt
  | sliceInc
  | sliceDec
  | structAt
  | sliceFromOne
  deriving DecidableEq, Repr

structure Op where
  kind : OpKind
  extra : UInt16 := 0
  deriving DecidableEq, Repr

structure OpRange where
  start : Nat
  len : Nat
  deriving DecidableEq, Repr

inductive Block
  | basic (ops : OpRange)
  | defer (next defer : Nat)
  | many (cur next : Option Nat)
  | chain (cur next : Option Nat)
  | crash
  | hardCrash
  | crashPad (body pad : Nat)
  | branch (cond : OpRange) (yes no : Nat)
  | loop (body : Nat)
  | brk (level : Nat)
  | var (var : Nat) (body : Nat)
  deriving DecidableEq, Repr

/-- What a freshly extended slot holds until it is written: its bytes are never read. -/
def Block.unset : Block := .basic ⟨0, 0⟩

end TreeVM
