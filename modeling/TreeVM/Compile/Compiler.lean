import TreeVM.IR.Block
import TreeVM.IR.Layout
import TreeVM.VM.ByteCode

/-!
# The bytecode compiler

`vm_compile_no_defers` of `vm.c` and the functions below it, one definition for each.

* `Func`, `Context`: what is compiled; `Table`: the code of the callees compiled so far;
* `Compiler`: the state of one compilation, the type stack top first and the scopes innermost
  first; `Saved` is `CompilerState`;
* `compileOp`, `compileBlock`, `compileFunc`.

Every function returns the table also when it fails, because callees stay compiled.  What the
table is made of matters to the callees only: `τ` is its type.  Compile-time allocations succeed.  `fuel` bounds the recursion over blocks and over calls.
-/

namespace TreeVM

structure Func where
  sig : Sig
  types : List Ty
  blocks : List Block
  ops : List Op
  vars : List Nat
  deriving DecidableEq, Repr

structure Global where
  tid : Nat
  mem : UInt64
  deriving DecidableEq, Repr

/-- `CompileContext`, without the code.  A null context has no functions and no globals. -/
structure Context where
  funcs : List Func
  globals : List Global
  deriving DecidableEq, Repr

abbrev Code := List UInt8

/-- `CompileContext.code`: empty slots are `none`. -/
abbrev Table := List (Option Code)

structure VarLayout where
  tid : Nat
  base : Int16 := 0
  live : Bool := false
  deriving DecidableEq, Repr

structure Scope where
  patches : List Nat := []
  frameSize : Int16
  crashDepth : Nat
  deriving DecidableEq, Repr

/-- `log` has no counterpart in the source: the offset of every emitted instruction and the type
stack at that moment. -/
structure Compiler (τ : Type := Table) where
  code : Code := []
  log : List (Nat × List Nat) := []
  params : List Nat := []
  vars : List VarLayout
  scopes : List Scope := []
  frameSize : Int16 := 0
  crashDepth : Nat := 0
  table : τ
  deriving DecidableEq, Repr

/-- `COMPILE_REACHABLE`, `COMPILE_UNREACHABLE`; failure is an error. -/
inductive Reach
  | reachable
  | unreachable
  deriving DecidableEq, Repr

/-- What does not change while one function is compiled.  `place i` is where the code of function
`i` stands in memory, `callee` is `compile_context_func_code`. -/
structure CompileEnv (τ : Type := Table) where
  func : Func
  types : List Ty
  ctx : Context
  place : Nat → UInt64
  callee : Nat → τ → Except τ τ

variable {τ : Type}

namespace Compiler

def fail {α : Type} (c : Compiler τ) : Except τ α :=
  .error c.table

def emit (c : Compiler τ) (i : Instr) : Compiler τ :=
  { c with code := c.code ++ encode i, log := c.log ++ [(c.code.length, c.params)] }

def pushType (c : Compiler τ) (tid : Nat) : Compiler τ :=
  { c with params := tid :: c.params }

/-- `pop_types` -/
def popTypes (c : Compiler τ) (n : Nat) : Except τ (Compiler τ) :=
  if c.params.length < n then c.fail else .ok { c with params := c.params.drop n }

/-- `patch_uoffset` -/
def patch (c : Compiler τ) (pos target : Nat) : Except τ (Compiler τ) :=
  if 65535 < target then c.fail
  else .ok { c with code := c.code.take pos ++ bytesOf 2 target ++ c.code.drop (pos + 2) }

/-- `emit_storage_add` -/
def emitStorageAdd (c : Compiler τ) (amount : Int16) : Except τ (Compiler τ) :=
  let c := { c.emit (.storageAdd amount) with frameSize := c.frameSize + amount }
  if c.frameSize < 0 then c.fail else .ok c

/-- The types of the arguments of a call, in the order of the signature. -/
def argTypes (params : List Nat) (n : Nat) : List Nat :=
  (params.take n).reverse

end Compiler

/-- `CompilerState` -/
structure Saved where
  params : List Nat
  vars : List VarLayout
  frameSize : Int16
  crashDepth : Nat
  deriving DecidableEq, Repr

namespace Compiler

/-- `state_save` -/
def save (c : Compiler τ) : Saved :=
  ⟨c.params, c.vars, c.frameSize, c.crashDepth⟩

/-- `state_restore` -/
def restore (c : Compiler τ) (s : Saved) : Compiler τ :=
  { c with params := s.params, vars := s.vars, frameSize := s.frameSize, crashDepth := s.crashDepth }

/-- `scope_push` -/
def pushScope (c : Compiler τ) (frameSize : Int16) : Compiler τ :=
  { c with scopes := { frameSize := frameSize, crashDepth := c.crashDepth } :: c.scopes }

/-- The loop of `scope_finish` over the patches. -/
def patchAll (target : Nat) : List Nat → Compiler τ → Except τ (Compiler τ)
  | [], c => .ok c
  | pos :: rest, c => do
      let c ← c.patch pos target
      patchAll target rest c

/-- `scope_finish`: also tells whether there were patches. -/
def finishScope (c : Compiler τ) : Except τ (Bool × Compiler τ) :=
  match c.scopes with
  | [] => c.fail
  | s :: rest => do
      let c ← patchAll c.code.length s.patches c
      return (!s.patches.isEmpty, { c with scopes := rest })

/-- `scope_add_patch` for the scope `level` levels out. -/
def addPatch (c : Compiler τ) (level pos : Nat) : Compiler τ :=
  { c with scopes := c.scopes.modify (level - 1) fun s => { s with patches := s.patches ++ [pos] } }

end Compiler

/-! ## Operations -/

section Ops

variable (env : CompileEnv τ)

/-- `type_is_slice_or_view` and the element type. -/
def refElem : TypeKind → Option Nat
  | .slice elem => some elem
  | .view elem => some elem
  | _ => none

def elemSize (tid : Nat) : UInt64 :=
  match env.types[tid]? with
  | some t => t.payloadSize
  | none => 0

def kindOf (tid : Nat) : Option TypeKind :=
  (env.types[tid]?).map Ty.kind

/-- `compile_func_call` -/
def compileFuncCall (c : Compiler τ) (idx : Nat) : Except τ (Compiler τ) := do
  let table ← env.callee idx c.table
  let c := { c with table := table }
  match env.ctx.funcs[idx]? with
  | none => c.fail
  | some f =>
      let argc := f.sig.outs.length + f.sig.ins.length
      if c.params.length < argc then c.fail
      else if Compiler.argTypes c.params argc ≠ f.sig.args then c.fail
      else (c.emit (.call (env.place idx) (UInt32.ofNat argc))).popTypes f.sig.ins.length

/-- `compile_native_call` -/
def compileNativeCall (c : Compiler τ) : Except τ (Compiler τ) :=
  match c.params with
  | [] => c.fail
  | fn :: rest =>
      match kindOf env fn with
      | some (.nativeFunc sig) =>
          let argc := sig.outs.length + sig.ins.length
          if rest.length < argc then c.fail
          else if Compiler.argTypes rest argc ≠ sig.args then c.fail
          else if 2 ^ 32 ≤ sig.ins.length then c.fail
          else (c.emit (.callNative (UInt32.ofNat sig.ins.length))).popTypes (sig.ins.length + 1)
      | _ => c.fail

/-- `emit_push_var` -/
def emitPushVar (c : Compiler τ) (idx : Nat) : Except τ (Compiler τ) :=
  match c.vars[idx]? with
  | some v =>
      if v.live then .ok ((c.emit (.pushVar (v.base - c.frameSize))).pushType v.tid) else c.fail
  | none => c.fail

/-- `emit_push_arg` -/
def emitPushArg (c : Compiler τ) (idx : Nat) : Except τ (Compiler τ) :=
  match env.func.vars[idx]? with
  | some tid =>
      if tid < env.types.length then .ok ((c.emit (.pushArg (UInt32.ofNat idx))).pushType tid)
      else c.fail
  | none => c.fail

/-- An operation on the two topmost entries: their types (the topmost first) decide about the
instruction and the type that remains. -/
def compileBinary (c : Compiler τ) (f : Nat → Nat → Option (BinOp × Nat)) : Except τ (Compiler τ) :=
  match c.params with
  | rhs :: lhs :: rest =>
      match f lhs rhs with
      | some (op, tid) => .ok { c.emit (.binary op) with params := tid :: rest }
      | none => c.fail
  | _ => c.fail

def intArith (op : ArithOp) (lhs rhs : Nat) : Option (BinOp × Nat) :=
  if lhs = intId ∧ rhs = intId then some (.arith op, lhs) else none

def assignTypes (lhs rhs : Nat) : Option (BinOp × Nat) :=
  if lhs = rhs then some (.copy (elemSize env lhs), lhs) else none

def arrAtTypes (lhs rhs : Nat) : Option (BinOp × Nat) :=
  match kindOf env lhs with
  | some (.array elem capacity dataOffset) =>
      if rhs = intId then some (.arrAt dataOffset (elemSize env elem) capacity, elem) else none
  | _ => none

def arrPushTypes (lhs rhs : Nat) : Option (BinOp × Nat) :=
  match kindOf env lhs with
  | some (.array elem capacity dataOffset) =>
      if rhs = elem then some (.arrPush dataOffset (elemSize env elem) capacity, lhs) else none
  | _ => none

def arrDropTypes (lhs rhs : Nat) : Option (BinOp × Nat) :=
  match kindOf env lhs with
  | some (.array _ _ _) => if rhs = intId then some (.arrDrop, lhs) else none
  | _ => none

def sliceFromArrTypes (lhs rhs : Nat) : Option (BinOp × Nat) :=
  match kindOf env rhs, (kindOf env lhs).bind refElem with
  | some (.array elem _ dataOffset), some refTid =>
      if refTid = elem then
        some (.sliceFromArr dataOffset (elemSize env elem) sliceLenOffset, lhs)
      else none
  | _, _ => none

def sliceFromOneTypes (lhs rhs : Nat) : Option (BinOp × Nat) :=
  match kindOf env lhs with
  | some (.slice elem) => if elem = rhs then some (.sliceFromOne sliceLenOffset, lhs) else none
  | _ => none

def sliceAtTypes (lhs rhs : Nat) : Option (BinOp × Nat) :=
  match (kindOf env lhs).bind refElem with
  | some elem =>
      if rhs = intId then some (.sliceAt (elemSize env elem) sliceLenOffset, elem) else none
  | none => none

/-- `OP_SLICE_INC` and `OP_SLICE_DEC`: views do not move. -/
def sliceMoveTypes (op : UInt64 → UInt64 → BinOp) (lhs rhs : Nat) : Option (BinOp × Nat) :=
  match kindOf env lhs with
  | some (.slice elem) =>
      if rhs = intId then some (op (elemSize env elem) sliceLenOffset, lhs) else none
  | _ => none

/-- `OP_STRUCT_AT` -/
def compileStructAt (c : Compiler τ) (idx : Nat) : Except τ (Compiler τ) :=
  match c.params with
  | [] => c.fail
  | tid :: rest =>
      match kindOf env tid with
      | some (.struct fields) =>
          match fields[idx]? with
          | some f =>
              if f.tid < env.types.length then
                .ok { c.emit (.unary (.structAt f.offset)) with params := f.tid :: rest }
              else c.fail
          | none => c.fail
      | _ => c.fail

/-- `OP_PUSH_GLOBAL` -/
def compilePushGlobal (c : Compiler τ) (idx : Nat) : Except τ (Compiler τ) :=
  match env.ctx.globals[idx]? with
  | some g =>
      if g.tid < env.types.length then .ok ((c.emit (.pushGlobal g.mem)).pushType g.tid) else c.fail
  | none => c.fail

/-- `OP_BIT_NOT_ASSIGN` -/
def compileBitNot (c : Compiler τ) : Except τ (Compiler τ) :=
  match c.params with
  | tid :: _ => if tid = intId then .ok (c.emit (.unary .bitNot)) else c.fail
  | [] => c.fail

/-- `OP_DROP` -/
def compileDrop (c : Compiler τ) (n : UInt16) : Except τ (Compiler τ) := do
  let popped ← c.popTypes n.toNat
  return { c.emit (.dropN n.toUInt32) with params := popped.params }

def compileOp (c : Compiler τ) (op : Op) : Except τ (Compiler τ) :=
  match op.kind with
  | .null => .ok c
  | .call => compileFuncCall env c op.extra.toNat
  | .callNativeOnStack => compileNativeCall env c
  | .assign => compileBinary c (assignTypes env)
  | .addAssign => compileBinary c (intArith .add)
  | .subAssign => compileBinary c (intArith .sub)
  | .mulAssign => compileBinary c (intArith .mul)
  | .divAssign => compileBinary c (intArith .div)
  | .andAssign => compileBinary c (intArith .and)
  | .orAssign => compileBinary c (intArith .or)
  | .xorAssign => compileBinary c (intArith .xor)
  | .bitNotAssign => compileBitNot c
  | .drop => compileDrop c op.extra
  | .pushVar => emitPushVar c op.extra.toNat
  | .pushArg => emitPushArg env c op.extra.toNat
  | .pushGlobal => compilePushGlobal env c op.extra.toNat
  | .arrAt => compileBinary c (arrAtTypes env)
  | .arrPush => compileBinary c (arrPushTypes env)
  | .arrDrop => compileBinary c (arrDropTypes env)
  | .sliceFromAr => compileBinary c (sliceFromArrTypes env)
  | .sliceFromOne => compileBinary c (sliceFromOneTypes env)
  | .sliceAt => compileBinary c (sliceAtTypes env)
  | .sliceInc => compileBinary c (sliceMoveTypes env .sliceInc)
  | .sliceDec => compileBinary c (sliceMoveTypes env .sliceDec)
  | .structAt => compileStructAt env c op.extra.toNat

/-- The loops over the operations of a basic block or a condition. -/
def compileOps : List Op → Compiler τ → Except τ (Compiler τ)
  | [], c => .ok c
  | op :: ops, c => do
      let c ← compileOp env c op
      compileOps ops c

/-- The operations of a range, `none` if it leaves the array. -/
def opsIn (r : OpRange) : Option (List Op) :=
  if r.start + r.len ≤ env.func.ops.length then some ((env.func.ops.drop r.start).take r.len)
  else none

end Ops

/-! ## Blocks -/

section Blocks

variable (env : CompileEnv τ)

/-- `compile_basic`.  The source reads the range without a check; a range outside of the array
is rejected here. -/
def compileBasic (c : Compiler τ) (r : OpRange) : Except τ (Reach × Compiler τ) := do
  let start := c.params.length
  match opsIn env r with
  | none => c.fail
  | some ops =>
      let c ← compileOps env ops c
      if c.params.length < start then c.fail
      else
        let extra := UInt32.ofNat (c.params.length - start)
        if extra = 0 then return (.reachable, c)
        else
          let c ← (c.emit (.dropN extra)).popTypes extra.toNat
          return (.reachable, c)

/-- `compile_cond` -/
def compileCond (c : Compiler τ) (r : OpRange) : Except τ (Compiler τ) := do
  let start := c.params.length
  match opsIn env r with
  | none => c.fail
  | some ops =>
      let c ← compileOps env ops c
      if c.params.length ≠ start + 1 ∨ c.params.head? ≠ some intId then c.fail else return c

/-- `n` times `B_POP_CRASH` -/
def emitPops : Nat → Compiler τ → Compiler τ
  | 0, c => c
  | n + 1, c => emitPops n (c.emit .popCrash)

/-- `emit_jump_placeholder`: also tells where the operand stands. -/
def emitJump (c : Compiler τ) : Nat × Compiler τ :=
  (c.code.length + 1, c.emit (.jump 0))

/-- `compile_break` -/
def compileBreak (c : Compiler τ) (level : Nat) : Except τ (Reach × Compiler τ) :=
  match level with
  | 0 => c.fail
  | outer + 1 =>
      match c.scopes[outer]? with
      | none => c.fail
      | some target =>
          let c := emitPops (c.crashDepth - target.crashDepth) c
          let cleanup := target.frameSize - c.frameSize
          let c := if cleanup = 0 then c else c.emit (.storageAdd cleanup)
          let (pos, c) := emitJump c
          .ok (.unreachable, c.addPatch level pos)

/-- The `while` loop of `compile_many`: children behind an unreachable end are skipped. -/
def compileChildren (block : Nat → Compiler τ → Except τ (Reach × Compiler τ)) :
    Nat → Option Nat → Option Nat → Reach → Compiler τ → Except τ (Reach × Compiler τ)
  | _, none, _, r, c => .ok (r, c)
  | 0, some _, _, _, c => c.fail
  | fuel + 1, some child, link, r, c => do
      let (r, c) ← if r = .reachable then block child c else pure (r, c)
      match link with
      | none => return (r, c)
      | some l =>
          match env.func.blocks[l]? with
          | some (.chain cur next) => compileChildren block fuel cur next r c
          | _ => c.fail

/-- Leaving a scope: reachable by falling through or by a break. -/
def endScope (r : Reach) (c : Compiler τ) : Except τ (Reach × Compiler τ) := do
  let (hadBreaks, c) ← c.finishScope
  return (if r = .reachable ∨ hadBreaks then .reachable else .unreachable, c)

/-- `compile_many` -/
def compileMany (block : Nat → Compiler τ → Except τ (Reach × Compiler τ)) (fuel : Nat)
    (cur next : Option Nat) (c : Compiler τ) : Except τ (Reach × Compiler τ) := do
  let (r, c) ← compileChildren env block fuel cur next .reachable (c.pushScope c.frameSize)
  endScope r c

def setLive (c : Compiler τ) (idx : Nat) (live : Bool) : Compiler τ :=
  { c with vars := c.vars.modify idx fun v => { v with live := live } }

/-- `compile_var` -/
def compileVar (block : Nat → Compiler τ → Except τ (Reach × Compiler τ)) (idx body : Nat)
    (c : Compiler τ) : Except τ (Reach × Compiler τ) :=
  match env.func.vars[idx]? with
  | none => c.fail
  | some tid =>
      match env.types[tid]? with
      | none => c.fail
      | some t => do
          let oldFrame := c.frameSize
          if 32767 < t.size.toNat then c.fail
          else
            let size := Int16.ofNat t.size.toNat
            let c := c.pushScope oldFrame
            let c := { c with vars := c.vars.set idx ⟨tid, c.frameSize, true⟩ }
            let c ← c.emitStorageAdd size
            let (r, c) ← block body c
            let c ← if r = .reachable then (setLive c idx false).emitStorageAdd (-size) else pure c
            let (r, c) ← endScope r c
            return (r, { setLive c idx false with frameSize := oldFrame })

/-- `compile_branch` -/
def compileBranch (block : Nat → Compiler τ → Except τ (Reach × Compiler τ)) (cond : OpRange)
    (yes no : Nat) (c : Compiler τ) : Except τ (Reach × Compiler τ) := do
  let before := c.save
  let c ← compileCond env c cond
  let yesPatch := c.code.length + 1
  let noPatch := c.code.length + 3
  let c ← (c.emit (.branchTop 0 0)).popTypes 1
  let c ← c.patch yesPatch c.code.length
  let (yesR, c) ← block yes c
  let yesState := c.save
  let (endPatch, c) := if yesR = .reachable then emitJump c else (0, c)
  let c := c.restore before
  let c ← c.patch noPatch c.code.length
  let (noR, c) ← block no c
  let noState := c.save
  let c ← if yesR = .reachable then c.patch endPatch c.code.length else pure c
  match yesR, noR with
  | .reachable, .reachable =>
      let c := c.restore yesState
      if c.save = noState then return (.reachable, c) else c.fail
  | .reachable, .unreachable => return (.reachable, c.restore yesState)
  | .unreachable, .reachable => return (.reachable, c.restore noState)
  | .unreachable, .unreachable => return (.unreachable, c)

/-- `compile_loop` -/
def compileLoop (block : Nat → Compiler τ → Except τ (Reach × Compiler τ)) (body : Nat)
    (c : Compiler τ) : Except τ (Reach × Compiler τ) := do
  let start := c.code.length
  let head := c.save
  let (r, c) ← block body (c.pushScope c.frameSize)
  let c ←
    if r = .reachable then
      if c.save = head then pure (c.emit (.jump (UInt16.ofNat start))) else c.fail
    else pure c
  let (hadBreaks, c) ← c.finishScope
  return (if hadBreaks then .reachable else .unreachable, c.restore head)

/-- `compile_crash_pad` -/
def compileCrashPad (block : Nat → Compiler τ → Except τ (Reach × Compiler τ)) (body pad : Nat)
    (c : Compiler τ) : Except τ (Reach × Compiler τ) := do
  let before := c.save
  let padPatch := c.code.length + 1
  let c := { c.emit (.pushCrash 0) with crashDepth := c.crashDepth + 1 }
  let (bodyR, c) ← block body c
  let c := if bodyR = .reachable then { c.emit .popCrash with crashDepth := c.crashDepth - 1 } else c
  let bodyState := c.save
  let (endPatch, c) := if bodyR = .reachable then emitJump c else (0, c)
  let c := c.restore before
  let c ← c.patch padPatch c.code.length
  let (padR, c) ← block pad c
  let c := if padR = .reachable then c.emit .crash else c
  let c ← if bodyR = .reachable then c.patch endPatch c.code.length else pure c
  if bodyR = .reachable then return (.reachable, c.restore bodyState) else return (.unreachable, c)

/-- `compile_block` -/
def compileBlock : Nat → Nat → Compiler τ → Except τ (Reach × Compiler τ)
  | 0, _, c => c.fail
  | fuel + 1, idx, c =>
      match env.func.blocks[idx]? with
      | none => c.fail
      | some (.basic r) => compileBasic env c r
      | some (.many cur next) => compileMany env (compileBlock fuel) fuel cur next c
      | some (.chain _ _) => c.fail
      | some .crash => .ok (.unreachable, c.emit .crash)
      | some .hardCrash => .ok (.unreachable, c.emit .hardCrash)
      | some (.crashPad body pad) => compileCrashPad (compileBlock fuel) body pad c
      | some (.branch cond yes no) => compileBranch env (compileBlock fuel) cond yes no c
      | some (.loop body) => compileLoop (compileBlock fuel) body c
      | some (.brk level) => compileBreak c level
      | some (.var v body) => compileVar env (compileBlock fuel) v body c
      | some (.defer _ _) => c.fail

end Blocks

/-! ## Functions -/

/-- `ensure_code_slot` -/
def ensureSlot (table : Table) (idx : Nat) : Table :=
  table ++ List.replicate (idx + 1 - table.length) none

/-- `compile_context_func_code` -/
def contextFuncCode (ctx : Context) (compile : Func → Table → Except Table (Code × Table))
    (idx : Nat) (table : Table) : Except Table Table :=
  match ctx.funcs[idx]? with
  | none => .error table
  | some f =>
      let table := ensureSlot table idx
      match table[idx]? with
      | some (some _) => .ok table
      | _ => do
          let (code, table) ← compile f table
          return table.set idx (some code)

/-- The end of `vm_compile_no_defers`: the inputs are dropped, the function returns. -/
def finishFunc (f : Func) (c : Compiler τ) : Except τ (Compiler τ) :=
  if 2 ^ 32 ≤ f.sig.ins.length then c.fail
  else
    let c := if f.sig.ins = [] then c else c.emit (.dropN (UInt32.ofNat f.sig.ins.length))
    .ok (c.emit .ret)

/-- What is kept of the compiler. -/
def Compiler.result (c : Compiler τ) : Code × τ :=
  (c.code, c.table)

/-- `vm_compile_no_defers` up to the end, where the compiler is thrown away. -/
def compileBody (ctx : Context) (place : Nat → UInt64) (callee : Nat → τ → Except τ τ)
    (fuel : Nat) (f : Func) (table : τ) : Except τ (Compiler τ) :=
  match f.blocks, layoutAll f.types with
  | [], _ => .error table
  | _, none => .error table
  | _, some types => do
      let env : CompileEnv τ := ⟨f, types, ctx, place, callee⟩
      let c : Compiler τ := { vars := f.vars.map fun tid => { tid := tid }, table := table }
      let (_, c) ← compileBlock env fuel 0 c
      finishFunc f c

/-- `compileBody`, with the callees compiled on demand. -/
def compileState (ctx : Context) (place : Nat → UInt64) : Nat → Func → Table →
    Except Table Compiler
  | 0, _, table => .error table
  | fuel + 1, f, table =>
      let callee := contextFuncCode ctx fun f table =>
        (compileState ctx place fuel f table).map Compiler.result
      compileBody ctx place callee fuel f table

/-- `vm_compile_no_defers` -/
def compileFunc (ctx : Context) (place : Nat → UInt64) (fuel : Nat) (f : Func) (table : Table) :
    Except Table (Code × Table) :=
  (compileState ctx place fuel f table).map Compiler.result

end TreeVM
