import TreeVM.Memory.Bytes

/-!
# Bytecode

The instruction set of `ir.h` with operands of the widths that `vm.c` emits and reads, the byte
layout, and the reader of the machine.

* `Instr`: an opcode with its operands; the operations that only look at the two (or one) topmost
  entries of the parameter stack are grouped as `BinOp` and `UnOp`;
* `encode`: one opcode byte, then the operands, little-endian;
* `fetch`: the switch of `vm_run` together with the operand reads of its cases;
* `fetch_encode`: what was encoded is read back.
-/

namespace TreeVM

inductive ArithOp
  | add
  | sub
  | mul
  | div
  | and
  | or
  | xor
  deriving DecidableEq, Repr

/-- Operations on the two topmost entries; one entry remains. -/
inductive BinOp
  | copy (size : UInt64)
  | arith (op : ArithOp)
  | arrAt (dataOffset elemSize : UInt64) (capacity : UInt32)
  | arrPush (dataOffset elemSize : UInt64) (capacity : UInt32)
  | arrDrop
  | sliceFromArr (dataOffset elemSize lenOffset : UInt64)
  | sliceFromOne (lenOffset : UInt64)
  | sliceAt (elemSize lenOffset : UInt64)
  | sliceInc (elemSize lenOffset : UInt64)
  | sliceDec (elemSize lenOffset : UInt64)
  deriving DecidableEq, Repr

/-- Operations on the topmost entry. -/
inductive UnOp
  | bitNot
  | structAt (fieldOffset : UInt64)
  deriving DecidableEq, Repr

inductive Instr
  | done
  | ret
  | storageAdd (amount : Int16)
  | pushVar (offset : Int16)
  | pushArg (idx : UInt32)
  | dropN (n : UInt32)
  | binary (op : BinOp)
  | unary (op : UnOp)
  | jump (target : UInt16)
  | branch (cond : Int16) (yes no : UInt16)
  | branchTop (yes no : UInt16)
  | pushCrash (target : UInt16)
  | popCrash
  | crash
  | hardCrash
  | pushGlobal (ptr : UInt64)
  | call (target : UInt64) (argc : UInt32)
  | callNative (argc : UInt32)
  deriving DecidableEq, Repr

def ArithOp.opcode : ArithOp → Nat
  | add => 8
  | sub => 9
  | mul => 10
  | div => 11
  | and => 12
  | or => 13
  | xor => 14

def BinOp.opcode : BinOp → Nat
  | arrAt _ _ _ => 6
  | copy _ => 7
  | arith op => op.opcode
  | arrPush _ _ _ => 16
  | arrDrop => 17
  | sliceFromArr _ _ _ => 28
  | sliceAt _ _ => 29
  | sliceInc _ _ => 30
  | sliceDec _ _ => 31
  | sliceFromOne _ => 33

/-- The position in `enum ByteCode`. -/
def Instr.opcode : Instr → Nat
  | done => 0
  | ret => 1
  | storageAdd _ => 2
  | pushVar _ => 3
  | pushArg _ => 4
  | dropN _ => 5
  | binary op => op.opcode
  | unary .bitNot => 15
  | jump _ => 18
  | branch _ _ _ => 19
  | branchTop _ _ => 20
  | pushCrash _ => 21
  | popCrash => 22
  | crash => 23
  | hardCrash => 24
  | pushGlobal _ => 25
  | call _ _ => 26
  | callNative _ => 27
  | unary (.structAt _) => 32

/-- Operands as they follow the opcode: width in bytes, value. -/
def Instr.operands : Instr → List (Nat × Nat)
  | storageAdd amount => [(2, amount.toUInt16.toNat)]
  | pushVar offset => [(2, offset.toUInt16.toNat)]
  | pushArg idx => [(4, idx.toNat)]
  | dropN n => [(4, n.toNat)]
  | binary (.copy size) => [(8, size.toNat)]
  | binary (.arith _) => []
  | binary (.arrAt d e c) => [(8, d.toNat), (8, e.toNat), (4, c.toNat)]
  | binary (.arrPush d e c) => [(8, d.toNat), (8, e.toNat), (4, c.toNat)]
  | binary .arrDrop => []
  | binary (.sliceFromArr d e l) => [(8, d.toNat), (8, e.toNat), (8, l.toNat)]
  | binary (.sliceFromOne l) => [(8, l.toNat)]
  | binary (.sliceAt e l) => [(8, e.toNat), (8, l.toNat)]
  | binary (.sliceInc e l) => [(8, e.toNat), (8, l.toNat)]
  | binary (.sliceDec e l) => [(8, e.toNat), (8, l.toNat)]
  | unary .bitNot => []
  | unary (.structAt f) => [(8, f.toNat)]
  | jump t => [(2, t.toNat)]
  | branch c y n => [(2, c.toUInt16.toNat), (2, y.toNat), (2, n.toNat)]
  | branchTop y n => [(2, y.toNat), (2, n.toNat)]
  | pushCrash t => [(2, t.toNat)]
  | pushGlobal p => [(8, p.toNat)]
  | call t argc => [(8, t.toNat), (4, argc.toNat)]
  | callNative argc => [(4, argc.toNat)]
  | done => []
  | ret => []
  | popCrash => []
  | crash => []
  | hardCrash => []

def encodeOperands : List (Nat × Nat) → List UInt8
  | [] => []
  | (width, x) :: rest => bytesOf width x ++ encodeOperands rest

def encode (i : Instr) : List UInt8 :=
  UInt8.ofNat i.opcode :: encodeOperands i.operands

/-- The bytes an instruction takes. -/
def Instr.size (i : Instr) : Nat :=
  (encode i).length

section Fetch

variable (code : Nat → UInt8)

def readOffset (pc : Nat) : Int16 :=
  (UInt16.ofNat (readNat code pc 2)).toInt16

def readUOffset (pc : Nat) : UInt16 :=
  UInt16.ofNat (readNat code pc 2)

def readCount (pc : Nat) : UInt32 :=
  UInt32.ofNat (readNat code pc 4)

/-- `read_size`, `read_pointer` -/
def readSize (pc : Nat) : UInt64 :=
  UInt64.ofNat (readNat code pc 8)

def fetch (pc : Nat) : Option (Instr × Nat) :=
  match (code pc).toNat with
  | 0 => some (.done, pc + 1)
  | 1 => some (.ret, pc + 1)
  | 2 => some (.storageAdd (readOffset code (pc + 1)), pc + 3)
  | 3 => some (.pushVar (readOffset code (pc + 1)), pc + 3)
  | 4 => some (.pushArg (readCount code (pc + 1)), pc + 5)
  | 5 => some (.dropN (readCount code (pc + 1)), pc + 5)
  | 6 => some (.binary (.arrAt (readSize code (pc + 1)) (readSize code (pc + 9))
      (readCount code (pc + 17))), pc + 21)
  | 7 => some (.binary (.copy (readSize code (pc + 1))), pc + 9)
  | 8 => some (.binary (.arith .add), pc + 1)
  | 9 => some (.binary (.arith .sub), pc + 1)
  | 10 => some (.binary (.arith .mul), pc + 1)
  | 11 => some (.binary (.arith .div), pc + 1)
  | 12 => some (.binary (.arith .and), pc + 1)
  | 13 => some (.binary (.arith .or), pc + 1)
  | 14 => some (.binary (.arith .xor), pc + 1)
  | 15 => some (.unary .bitNot, pc + 1)
  | 16 => some (.binary (.arrPush (readSize code (pc + 1)) (readSize code (pc + 9))
      (readCount code (pc + 17))), pc + 21)
  | 17 => some (.binary .arrDrop, pc + 1)
  | 18 => some (.jump (readUOffset code (pc + 1)), pc + 3)
  | 19 => some (.branch (readOffset code (pc + 1)) (readUOffset code (pc + 3))
      (readUOffset code (pc + 5)), pc + 7)
  | 20 => some (.branchTop (readUOffset code (pc + 1)) (readUOffset code (pc + 3)), pc + 5)
  | 21 => some (.pushCrash (readUOffset code (pc + 1)), pc + 3)
  | 22 => some (.popCrash, pc + 1)
  | 23 => some (.crash, pc + 1)
  | 24 => some (.hardCrash, pc + 1)
  | 25 => some (.pushGlobal (readSize code (pc + 1)), pc + 9)
  | 26 => some (.call (readSize code (pc + 1)) (readCount code (pc + 9)), pc + 13)
  | 27 => some (.callNative (readCount code (pc + 1)), pc + 5)
  | 28 => some (.binary (.sliceFromArr (readSize code (pc + 1)) (readSize code (pc + 9))
      (readSize code (pc + 17))), pc + 25)
  | 29 => some (.binary (.sliceAt (readSize code (pc + 1)) (readSize code (pc + 9))), pc + 17)
  | 30 => some (.binary (.sliceInc (readSize code (pc + 1)) (readSize code (pc + 9))), pc + 17)
  | 31 => some (.binary (.sliceDec (readSize code (pc + 1)) (readSize code (pc + 9))), pc + 17)
  | 32 => some (.unary (.structAt (readSize code (pc + 1))), pc + 9)
  | 33 => some (.binary (.sliceFromOne (readSize code (pc + 1))), pc + 9)
  | _ => none

variable {code} {pc : Nat}

theorem readOffset_at {x : Int16} (h : At code pc (bytesOf 2 x.toUInt16.toNat)) :
    readOffset code pc = x := by
  have hx := x.toUInt16.toNat_lt
  rw [readOffset, h.readNat, Nat.mod_eq_of_lt (by simpa using hx)]
  simp

theorem readUOffset_at {x : UInt16} (h : At code pc (bytesOf 2 x.toNat)) :
    readUOffset code pc = x := by
  have hx := x.toNat_lt
  rw [readUOffset, h.readNat, Nat.mod_eq_of_lt (by simpa using hx)]
  simp

theorem readCount_at {x : UInt32} (h : At code pc (bytesOf 4 x.toNat)) :
    readCount code pc = x := by
  have hx := x.toNat_lt
  rw [readCount, h.readNat, Nat.mod_eq_of_lt (by simpa using hx)]
  simp

theorem readSize_at {x : UInt64} (h : At code pc (bytesOf 8 x.toNat)) :
    readSize code pc = x := by
  have hx := x.toNat_lt
  rw [readSize, h.readNat, Nat.mod_eq_of_lt (by simpa using hx)]
  simp

theorem ArithOp.opcode_lt (op : ArithOp) : op.opcode < 256 := by
  cases op <;> decide

theorem BinOp.opcode_lt (op : BinOp) : op.opcode < 256 := by
  cases op with
  | arith op => exact op.opcode_lt
  | _ => simp [opcode]

theorem Instr.opcode_lt (i : Instr) : i.opcode < 256 := by
  cases i with
  | binary op => exact op.opcode_lt
  | unary op => cases op <;> simp [opcode]
  | _ => simp [opcode]

/-- The machine reads back what was encoded, and its program counter moves to the next
instruction. -/
theorem fetch_encode {i : Instr} (h : At code pc (encode i)) :
    fetch code pc = some (i, pc + i.size) := by
  obtain ⟨hop, hargs⟩ := h
  have hcode : (code pc).toNat = i.opcode := by
    rw [hop]
    simpa using i.opcode_lt
  have hsize : i.size = 1 + (encodeOperands i.operands).length := by
    simp [Instr.size, encode, Nat.add_comm]
  rw [fetch, hcode, hsize]
  cases i with
  | binary op =>
      cases op with
      | arith op => cases op <;> rfl
      | _ =>
          simp only [Instr.operands, encodeOperands, At.append, length_bytesOf,
            Nat.add_assoc] at hargs
          simp only [Instr.opcode, BinOp.opcode, Instr.operands, encodeOperands]
          grind [→ readSize_at, → readCount_at, length_bytesOf]
  | unary op =>
      cases op with
      | bitNot => rfl
      | structAt f =>
          simp only [Instr.operands, encodeOperands, At.append, length_bytesOf,
            Nat.add_assoc] at hargs
          simp only [Instr.opcode, Instr.operands, encodeOperands]
          grind [→ readSize_at, length_bytesOf]
  | _ =>
      simp only [Instr.operands, encodeOperands, At.append, length_bytesOf, Nat.add_assoc] at hargs
      simp only [Instr.opcode, Instr.operands, encodeOperands]
      grind [→ readSize_at, → readCount_at, → readOffset_at, → readUOffset_at, length_bytesOf]

end Fetch

end TreeVM
