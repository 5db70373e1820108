import Mathlib.Algebra.Group.Int.Defs
import Mathlib.Algebra.Group.Nat.Defs
import Mathlib.Data.List.Basic

/-!
# Types and their layout

The type table of `ir.h` and `type_layout_all` of `ir.c`.

* `TypeKind`, `Ty`: one entry of the table; sizes, alignments and offsets are what layout fills in;
* `layoutOne`: `type_layout_one`, with the colours `LayoutState`;
* `layoutAll`: `type_layout_all`, the laid-out table or `none`.
-/

namespace TreeVM

structure Field where
  tid : Nat
  offset : UInt64 := 0
  deriving DecidableEq, Repr

structure SigInput where
  tid : Nat
  isMut : Bool := false
  deriving DecidableEq, Repr

structure Sig where
  ins : List SigInput
  outs : List Nat
  deriving DecidableEq, Repr

/-- The types of the arguments in the order of a call. -/
def Sig.args (s : Sig) : List Nat :=
  s.outs ++ s.ins.map SigInput.tid

/-- The number of entries a call takes. -/
def Sig.argc (s : Sig) : Nat :=
  s.outs.length + s.ins.length

inductive TypeKind
  | int
  | byte
  | array (elem : Nat) (capacity : UInt32) (dataOffset : UInt64)
  | slice (elem : Nat)
  | view (elem : Nat)
  | struct (fields : List Field)
  | nativeFunc (sig : Sig)
  deriving DecidableEq, Repr

structure Ty where
  kind : TypeKind
  isPortal : Bool := false
  payloadSize : UInt64 := 0
  size : UInt64 := 0
  align : UInt64 := 0
  deriving DecidableEq, Repr

/-- `TYPE_INT_ID` -/
def intId : Nat := 0

/-- `TYPE_BYTE_ID` -/
def byteId : Nat := 1

/-- `alignof(Cell)` -/
def cellAlign : UInt64 := 8

/-- `type_slice_len_offset()` -/
def sliceLenOffset : UInt64 := 8

/-- `type_slice_payload_size()` -/
def slicePayloadSize : UInt64 := 12

def alignUp (n align : UInt64) : UInt64 :=
  (n + align - 1) / align * align

inductive LayoutState
  | pending
  | active
  | done
  deriving DecidableEq, Repr

/-- The table and the colours of its entries. -/
structure Layouts where
  types : List Ty
  states : List LayoutState
  deriving DecidableEq, Repr

namespace Layouts

def setType (l : Layouts) (tid : Nat) (t : Ty) : Layouts :=
  { l with types := l.types.set tid t }

def mark (l : Layouts) (tid : Nat) (s : LayoutState) : Layouts :=
  { l with states := l.states.set tid s }

end Layouts

/-- Where the fields of a struct stand so far. -/
structure FieldScan where
  fields : List Field := []
  offset : UInt64 := 0
  maxAlign : UInt64 := 1
  isPortal : Bool := false

/-- The loop over the fields; `layout` lays out the type of one field. -/
def layoutFields (layout : Nat → Layouts → Option Layouts) :
    List Field → FieldScan → Layouts → Option (FieldScan × Layouts)
  | [], scan, l => some (scan, l)
  | f :: fs, scan, l => do
      let l ← layout f.tid l
      let t ← l.types[f.tid]?
      let offset := alignUp scan.offset t.align
      let scan := {
        fields := scan.fields ++ [{ f with offset := offset }]
        offset := offset + t.payloadSize
        maxAlign := if scan.maxAlign < t.align then t.align else scan.maxAlign
        isPortal := scan.isPortal || t.isPortal }
      layoutFields layout fs scan l

/-- The switch of `type_layout_one`: the entry `tid`, without its `size`. -/
def layoutKind (layout : Nat → Layouts → Option Layouts) (t : Ty) (l : Layouts) :
    Option (Ty × Layouts) :=
  match t.kind with
  | .int => some ({ t with payloadSize := 8, align := 8 }, l)
  | .byte => some ({ t with payloadSize := 1, align := 1 }, l)
  | .array elemTid capacity _ => do
      let l ← layout elemTid l
      let elem ← l.types[elemTid]?
      let dataOffset := alignUp 4 elem.align
      let align := if 4 < elem.align then elem.align else 4
      return ({ t with
        kind := .array elemTid capacity dataOffset
        isPortal := elem.isPortal
        align := align
        payloadSize := alignUp (dataOffset + elem.payloadSize * capacity.toUInt64) align }, l)
  | .slice elemTid => do
      let l ← layout elemTid l
      return ({ t with isPortal := true, payloadSize := slicePayloadSize, align := 8 }, l)
  | .view elemTid => do
      let l ← layout elemTid l
      return ({ t with isPortal := true, payloadSize := slicePayloadSize, align := 8 }, l)
  | .struct fields => do
      let (scan, l) ← layoutFields layout fields {} l
      return ({ t with
        kind := .struct scan.fields
        isPortal := scan.isPortal
        align := scan.maxAlign
        payloadSize := alignUp scan.offset scan.maxAlign }, l)
  | .nativeFunc sig =>
      if sig.args.all (· < l.types.length) then
        some ({ t with payloadSize := 8, align := 8 }, l)
      else none

/-- `type_layout_one`.  The recursion visits active entries only once, so one more than the
number of types is enough `fuel`. -/
def layoutOne : Nat → Nat → Layouts → Option Layouts
  | 0, _, _ => none
  | fuel + 1, tid, l =>
      match l.types[tid]?, l.states[tid]? with
      | some t, some .pending => do
          let (t, l) ← layoutKind (layoutOne fuel) t (l.mark tid .active)
          let t := { t with size := alignUp t.payloadSize cellAlign }
          return (l.setType tid t).mark tid .done
      | some _, some .done => some l
      | _, _ => none

/-- The loop of `type_layout_all` over the remaining entries. -/
def layoutFrom (fuel : Nat) : Nat → Nat → Layouts → Option Layouts
  | 0, _, l => some l
  | n + 1, tid, l => do
      let l ← layoutOne fuel tid l
      layoutFrom fuel n (tid + 1) l

/-- `type_layout_all` -/
def layoutAll (types : List Ty) : Option (List Ty) :=
  match types[intId]?, types[byteId]? with
  | some { kind := .int, .. }, some { kind := .byte, .. } =>
      (layoutFrom (types.length + 1) types.length 0
        ⟨types, List.replicate types.length .pending⟩).map Layouts.types
  | _, _ => none

end TreeVM
