import TreeVM.VM.ByteCode

/-!
# The machine of `vm.c`

* `VM`: memory, the storage buffer, the parameter stack (top first) and the crash stack;
* `State`: the VM together with the local variables of `vm_run`;
* `Alloc`: what `realloc` answers during one instruction;
* `exec`: one case of the switch in `vm_run`; `unwind`: the code at the label `crash`;
* `step`: one round of the main loop.

Pointers are addresses below `2 ^ 64`; code stands in a memory of its own that nothing writes.
-/

namespace TreeVM

abbrev Mem := Nat → UInt8

inductive VmResult
  | ok
  | crash
  | hardCrash
  | oomParam
  | oomStorage
  | oomCrash
  | paramUnderflow
  | storageUnderflow
  | crashUnderflow
  | badCrashFrame
  | invalidStorageOffset
  | invalidArg
  | nullGlobal
  | arrayBounds
  | divByZero
  | arrayCapacity
  | arrayUnderflow
  | nullCallTarget
  | nullNativeFunc
  | invalidBytecode
  deriving DecidableEq, Repr

structure CrashFrame where
  pc : Nat
  base : Nat
  storageLen : Nat
  paramLen : Nat
  paramBase : Nat
  deriving DecidableEq, Repr

structure ReturnFrame where
  pc : Nat
  base : Nat
  paramBase : Nat
  deriving DecidableEq, Repr

/-- `STACK(char)`; its bytes are those of the memory from `data` on. -/
structure Storage where
  data : Nat
  len : Nat
  cap : Nat
  deriving DecidableEq, Repr

structure VM where
  mem : Mem
  storage : Storage
  params : List Nat
  paramCap : Nat
  crash : List CrashFrame
  crashCap : Nat

/-- Does `realloc` succeed for the parameter stack and the crash stack, and where does it put
the storage buffer? -/
structure Alloc where
  param : Bool := true
  crash : Bool := true
  storage : Option Nat := none
  deriving DecidableEq, Repr

/-! ## Values in memory -/

def ptrAdd (p : Nat) (n : UInt64) : Nat :=
  (p + n.toNat) % 2 ^ 64

section Memory

variable (mem : Mem)

def readInt (p : Nat) : Int64 :=
  (UInt64.ofNat (readNat mem p 8)).toInt64

def writeInt (p : Nat) (x : Int64) : Mem :=
  writeBytes mem p (bytesOf 8 x.toUInt64.toNat)

def readLen (p : Nat) : UInt32 :=
  UInt32.ofNat (readNat mem p 4)

def writeLen (p : Nat) (n : UInt32) : Mem :=
  writeBytes mem p (bytesOf 4 n.toNat)

def readPtr (p : Nat) : Nat :=
  readNat mem p 8

def writePtr (p x : Nat) : Mem :=
  writeBytes mem p (bytesOf 8 x)

def memmove (dst src : Nat) (size : UInt64) : Mem :=
  writeBytes mem dst (readBytes mem src size.toNat)

end Memory

/-- `(count_t)x` -/
def toCount (x : Int64) : UInt32 :=
  x.toUInt64.toUInt32

/-- `(size_t)x` -/
def toSize (x : Int64) : UInt64 :=
  x.toUInt64

def ArithOp.apply (op : ArithOp) (lhs rhs : Int64) : Except VmResult Int64 :=
  match op with
  | add => .ok (lhs + rhs)
  | sub => .ok (lhs - rhs)
  | mul => .ok (lhs * rhs)
  | div => if rhs = 0 then .error .divByZero else .ok (lhs / rhs)
  | and => .ok (lhs &&& rhs)
  | or => .ok (lhs ||| rhs)
  | xor => .ok (lhs ^^^ rhs)

/-- What an operation does with the topmost entry `rhs` and the one below it, `lhs`: the new
memory and the entry that remains, or the cause of a crash. -/
def BinOp.apply (mem : Mem) (lhs rhs : Nat) : BinOp → Except VmResult (Mem × Nat)
  | copy size => .ok (memmove mem lhs rhs size, lhs)
  | arith op => do
      let x ← op.apply (readInt mem lhs) (readInt mem rhs)
      return (writeInt mem lhs x, lhs)
  | arrAt dataOffset elemSize capacity =>
      let idx := readInt mem rhs
      let len := readLen mem lhs
      if idx < 0 ∨ len ≤ toCount idx ∨ capacity ≤ toCount idx then .error .arrayBounds
      else .ok (mem, ptrAdd (ptrAdd lhs dataOffset) (elemSize * toSize idx))
  | arrPush dataOffset elemSize capacity =>
      let len := readLen mem lhs
      if capacity ≤ len then .error .arrayCapacity
      else
        let mem := memmove mem (ptrAdd (ptrAdd lhs dataOffset) (elemSize * len.toUInt64)) rhs elemSize
        .ok (writeLen mem lhs (len + 1), lhs)
  | arrDrop =>
      let amount := readInt mem rhs
      let len := readLen mem lhs
      if amount < 0 ∨ len < toCount amount then .error .arrayUnderflow
      else .ok (writeLen mem lhs (len - toCount amount), lhs)
  | sliceFromArr dataOffset _ lenOffset =>
      let len := readLen mem rhs
      let mem := writePtr mem lhs (ptrAdd rhs dataOffset)
      .ok (writeLen mem (ptrAdd lhs lenOffset) len, lhs)
  | sliceFromOne lenOffset =>
      let mem := writePtr mem lhs rhs
      .ok (writeLen mem (ptrAdd lhs lenOffset) 1, lhs)
  | sliceAt elemSize lenOffset =>
      let idx := readInt mem rhs
      let data := readPtr mem lhs
      let len := readLen mem (ptrAdd lhs lenOffset)
      if idx < 0 ∨ len ≤ toCount idx then .error .arrayBounds
      else .ok (mem, ptrAdd data (elemSize * toSize idx))
  | sliceInc elemSize lenOffset =>
      let amount := readInt mem rhs
      if amount < 0 then .error .arrayBounds
      else
        let data := readPtr mem lhs
        let len := readLen mem (ptrAdd lhs lenOffset)
        if len < toCount amount then .error .arrayBounds
        else .ok (writePtr mem lhs (ptrAdd data (elemSize * toSize amount)), lhs)
  | sliceDec _ lenOffset =>
      let amount := readInt mem rhs
      if amount < 0 then .error .arrayBounds
      else
        let len := readLen mem (ptrAdd lhs lenOffset)
        if len < toCount amount then .error .arrayBounds
        else .ok (writeLen mem (ptrAdd lhs lenOffset) (len - toCount amount), lhs)

def UnOp.apply (mem : Mem) (p : Nat) : UnOp → Mem × Nat
  | bitNot => (writeInt mem p (~~~(readInt mem p)), p)
  | structAt fieldOffset => (mem, ptrAdd p fieldOffset)

/-! ## Stacks -/

namespace VM

/-- `push_param` -/
def pushParam (vm : VM) (a : Alloc) (p : Nat) : Option VM :=
  if vm.params.length = vm.paramCap then
    if a.param then
      some { vm with
        params := p :: vm.params
        paramCap := if vm.paramCap = 0 then 32 else vm.paramCap * 2 }
    else none
  else some { vm with params := p :: vm.params }

/-- `push_crash` -/
def pushCrash (vm : VM) (a : Alloc) (pc base paramBase : Nat) : Option VM :=
  let frame := ⟨pc, base, vm.storage.len, vm.params.length, paramBase⟩
  if vm.crash.length = vm.crashCap then
    if a.crash then
      some { vm with
        crash := frame :: vm.crash
        crashCap := if vm.crashCap = 0 then 16 else vm.crashCap * 2 }
    else none
  else some { vm with crash := frame :: vm.crash }

/-- `while(cap < need) cap *= 2`; `need` rounds are enough. -/
def doubleUntil (need : Nat) : Nat → Nat → Nat
  | 0, cap => cap
  | rounds + 1, cap => if cap < need then doubleUntil need rounds (cap * 2) else cap

/-- `realloc` of the storage buffer: its bytes move to the new address. -/
def reallocStorage (vm : VM) (data cap : Nat) : VM :=
  { vm with
    mem := writeBytes vm.mem data (readBytes vm.mem vm.storage.data vm.storage.len)
    storage := { vm.storage with data := data, cap := cap } }

/-- The growing half of `storage_resize`. -/
def storageGrow (vm : VM) (a : Alloc) (amount : Nat) : Option VM := do
  let need := vm.storage.len + amount
  let vm ←
    if vm.storage.cap < need then
      let cap := if vm.storage.cap = 0 then 64 else vm.storage.cap
      (a.storage).map fun data => vm.reallocStorage data (doubleUntil need need cap)
    else some vm
  return { vm with
    mem := writeBytes vm.mem (vm.storage.data + vm.storage.len) (List.replicate amount 0)
    storage := { vm.storage with len := need } }

/-- `storage_resize` -/
def storageResize (vm : VM) (a : Alloc) (amount : Int) : Option VM :=
  if amount < 0 then
    let n := (-amount).toNat
    if vm.storage.len < n then none
    else some { vm with storage := { vm.storage with len := vm.storage.len - n } }
  else vm.storageGrow a amount.toNat

/-- `sizeof(ReturnFrame)` -/
def returnSize : Nat := 24

/-- `storage_push_return` -/
def pushReturn (vm : VM) (a : Alloc) (r : ReturnFrame) : Option VM :=
  (vm.storageGrow a returnSize).map fun vm =>
    { vm with
      mem := writeBytes vm.mem (vm.storage.data + vm.storage.len - returnSize)
        (bytesOf 8 r.pc ++ bytesOf 8 r.base ++ bytesOf 8 r.paramBase) }

/-- The frame at storage offset `at`. -/
def savedReturn (vm : VM) (offset : Nat) : ReturnFrame :=
  let p := vm.storage.data + offset
  ⟨readPtr vm.mem p, readPtr vm.mem (p + 8), readPtr vm.mem (p + 16)⟩

/-- `storage_pop_return` -/
def popReturn (vm : VM) : Option (ReturnFrame × VM) :=
  if vm.storage.len < returnSize then none
  else
    let len := vm.storage.len - returnSize
    some (vm.savedReturn len, { vm with storage := { vm.storage with len := len } })

end VM

/-! ## One instruction -/

/-- What does not change during a run: the code, and the native functions by address. -/
structure Env where
  code : Nat → UInt8
  native : Nat → VM → VmResult × VM

/-- The VM and the local variables of `vm_run`. -/
structure State where
  vm : VM
  pc : Nat
  base : Nat
  paramBase : Nat
  ans : VmResult

/-- How one case of the switch ends: it goes on, it jumps to the label `crash` with a cause, or it
returns from `vm_run`. -/
inductive Exec
  | next (s : State)
  | fail (s : State) (cause : VmResult)
  | stop (r : VmResult) (vm : VM)

inductive Status
  | running (s : State)
  | done (r : VmResult) (vm : VM)

namespace State

def withParams (s : State) (params : List Nat) : State :=
  { s with vm := { s.vm with params := params } }

/-- Push, or crash when the parameter stack cannot grow. -/
def push (s : State) (a : Alloc) (p : Nat) : Exec :=
  match s.vm.pushParam a p with
  | some vm => .next { s with vm := vm }
  | none => .fail s .oomParam

end State

/-- Is `offset` outside the storage buffer, counted from its end? -/
def badOffset (s : State) (offset : Int) : Prop :=
  0 < offset ∨ (s.vm.storage.len : Int) < -offset

instance (s : State) (offset : Int) : Decidable (badOffset s offset) :=
  inferInstanceAs (Decidable (_ ∨ _))

/-- The address `offset` bytes from the end of the storage buffer. -/
def fromEnd (s : State) (offset : Int) : Nat :=
  s.vm.storage.data + (s.vm.storage.len - (-offset).toNat)

def execNative (env : Env) (argc : Nat) (s : State) : Exec :=
  match s.vm.params with
  | [] => .stop .paramUnderflow s.vm
  | p :: rest =>
      let fn := readPtr s.vm.mem p
      let s := s.withParams rest
      if rest.length < argc then .stop .paramUnderflow s.vm
      else if fn = 0 then .stop .nullNativeFunc s.vm
      else
        match env.native fn s.vm with
        | (.ok, vm) =>
            if vm.params.length < argc then .stop .paramUnderflow vm
            else .next { s with vm := { vm with params := vm.params.drop argc } }
        | (.hardCrash, vm) => .stop .hardCrash vm
        | (r, vm) => .fail { s with vm := vm } r

/-- The cases of the switch; `s.pc` already stands behind the operands. -/
def exec (env : Env) (a : Alloc) (s : State) : Instr → Exec
  | .done => .stop .ok s.vm
  | .ret =>
      match s.vm.popReturn with
      | none => .stop .storageUnderflow s.vm
      | some (r, vm) =>
          if r.pc = 0 then .stop .ok vm
          else .next { s with vm := vm, pc := r.pc, base := r.base, paramBase := r.paramBase }
  | .storageAdd amount =>
      match s.vm.storageResize a amount.toInt with
      | some vm => .next { s with vm := vm }
      | none => .fail s (if amount.toInt < 0 then .storageUnderflow else .oomStorage)
  | .pushVar offset =>
      if badOffset s offset.toInt then .stop .invalidStorageOffset s.vm
      else s.push a (fromEnd s offset.toInt)
  | .pushArg idx =>
      -- the stack is top first: entry `i` from the bottom
      match s.vm.params.reverse[s.paramBase + idx.toNat]? with
      | none => .stop .invalidArg s.vm
      | some p => s.push a p
  | .pushGlobal ptr =>
      if ptr = 0 then .stop .nullGlobal s.vm else s.push a ptr.toNat
  | .dropN n =>
      if s.vm.params.length < n.toNat then .stop .paramUnderflow s.vm
      else .next (s.withParams (s.vm.params.drop n.toNat))
  | .binary op =>
      match s.vm.params with
      | rhs :: lhs :: rest =>
          match op.apply s.vm.mem lhs rhs with
          | .ok (mem, p) => .next { s with vm := { s.vm with mem := mem, params := p :: rest } }
          | .error r => .fail (s.withParams (lhs :: rest)) r
      | _ => .stop .paramUnderflow s.vm
  | .unary op =>
      match s.vm.params with
      | p :: rest =>
          let (mem, p) := op.apply s.vm.mem p
          .next { s with vm := { s.vm with mem := mem, params := p :: rest } }
      | [] => .stop .paramUnderflow s.vm
  | .jump target => .next { s with pc := s.base + target.toNat }
  | .branch cond yes no =>
      if badOffset s cond.toInt then .stop .invalidStorageOffset s.vm
      else
        let target := if readInt s.vm.mem (fromEnd s cond.toInt) = 0 then no else yes
        .next { s with pc := s.base + target.toNat }
  | .branchTop yes no =>
      match s.vm.params with
      | [] => .stop .paramUnderflow s.vm
      | p :: rest =>
          let target := if readInt s.vm.mem p = 0 then no else yes
          .next { s.withParams rest with pc := s.base + target.toNat }
  | .pushCrash target =>
      match s.vm.pushCrash a (s.base + target.toNat) s.base s.paramBase with
      | some vm => .next { s with vm := vm }
      | none => .fail s .oomCrash
  | .popCrash =>
      match s.vm.crash with
      | [] => .stop .crashUnderflow s.vm
      | _ :: rest => .next { s with vm := { s.vm with crash := rest } }
  | .crash => .fail s .crash
  | .hardCrash => .stop .hardCrash s.vm
  | .call target argc =>
      if target = 0 then .stop .nullCallTarget s.vm
      else if s.vm.params.length < argc.toNat then .stop .paramUnderflow s.vm
      else
        match s.vm.pushReturn a ⟨s.pc, s.base, s.paramBase⟩ with
        | none => .fail s .oomStorage
        | some vm =>
            .next { s with
              vm := vm, pc := target.toNat, base := target.toNat,
              paramBase := vm.params.length - argc.toNat }
  | .callNative argc => execNative env argc.toNat s

/-! ## Crashes -/

/-- `if(ans == VM_OK) ans = r` -/
def VmResult.first (ans r : VmResult) : VmResult :=
  if ans = .ok then r else ans

/-- The loop at the label `crash`, on the frames of the crash stack: frames that do not fit are
skipped, the first one that fits is resumed. -/
def unwind (s : State) : List CrashFrame → Status
  | [] => .done (s.ans.first .crashUnderflow) { s.vm with crash := [] }
  | f :: rest =>
      if s.vm.storage.len < f.storageLen ∨ s.vm.params.length < f.paramLen then
        let ans := s.ans.first .badCrashFrame
        if rest = [] then .done ans { s.vm with crash := [] }
        else unwind { s with ans := ans } rest
      else
        .running
          { vm := { s.vm with
              crash := rest
              storage := { s.vm.storage with len := f.storageLen }
              params := s.vm.params.drop (s.vm.params.length - f.paramLen) }
            pc := f.pc, base := f.base, paramBase := f.paramBase, ans := s.ans }

/-- What `vm_run` does with the end of a case. -/
def Exec.status : Exec → Status
  | .next s => .running s
  | .fail s cause => unwind { s with ans := s.ans.first cause } s.vm.crash
  | .stop r vm => .done r vm

def step (env : Env) (a : Alloc) (s : State) : Status :=
  match fetch env.code s.pc with
  | none => .done .invalidBytecode s.vm
  | some (i, pc) => (exec env a { s with pc := pc } i).status

/-- The beginning of `vm_run`. -/
def enter (a : Alloc) (vm : VM) (code : Nat) : Status :=
  match vm.pushReturn a ⟨0, 0, 0⟩ with
  | none => .done .oomStorage vm
  | some vm => .running { vm := vm, pc := code, base := code, paramBase := 0, ans := .ok }

/-- `vm_run` for `n` rounds; `allocs` answers the allocations of each. -/
def run (env : Env) (allocs : Nat → Alloc) : Nat → Status → Status
  | 0, st => st
  | n + 1, .running s => run env (fun k => allocs (k + 1)) n (step env (allocs 0) s)
  | _ + 1, .done r vm => .done r vm

end TreeVM
