import TreeVM.Compile.Compiler
import TreeVM.IR.Tree

/-!
# The shape of compiled code

What the compiler knows at a program point, and how the code of a block is laid out once every
jump has its target.  Nothing here mentions patches: the relations speak about the final bytes.

* `Slot`, `Pad`, `Ctx`: the locals, the crash pads and the scopes around a block;
* `OpInstr`: the instruction of one operation and its effect on the types of the temporaries;
* `CodeBlock`: the code of a block, from its offset to the offset behind it.

At the boundaries of blocks there are no temporaries.
-/

namespace TreeVM

/-- A local of the current activation: its variable, its offset from the start of the frame and
its type. -/
structure Slot where
  var : Nat
  base : Nat
  tid : Nat
  deriving DecidableEq, Repr

/-- An installed crash pad: the offset of its handler and the locals at the time. -/
structure Pad where
  handler : Nat
  slots : List Slot
  deriving DecidableEq, Repr

/-- A scope: the offset behind it, if a break needs it, and the state there. -/
structure ScopeAt where
  target : Option Nat
  slots : List Slot
  pads : List Pad
  floor : Option (List Pad)

/-- What surrounds a block, innermost first.  Inside the handler of a pad, `floor` are the pads
below that pad. -/
structure Ctx where
  slots : List Slot := []
  pads : List Pad := []
  scopes : List ScopeAt := []
  floor : Option (List Pad) := none

/-- A new scope around the block, with the offset behind it. -/
def Ctx.scope (Γ : Ctx) (target : Option Nat) : Ctx :=
  { Γ with scopes := ⟨target, Γ.slots, Γ.pads, Γ.floor⟩ :: Γ.scopes }

/-- The context of a protected body, and of its handler. -/
def Ctx.guarded (Γ : Ctx) (handler : Nat) : Ctx :=
  { Γ with pads := ⟨handler, Γ.slots⟩ :: Γ.pads }

def Ctx.handler (Γ : Ctx) : Ctx :=
  { Γ with floor := some Γ.pads }

section Frame

variable (types : List Ty)

/-- `type_stack_size` -/
def stackSize (tid : Nat) : Nat :=
  match types[tid]? with
  | some t => t.size.toNat
  | none => 0

/-- `frame_size`: the bytes of all slots. -/
def frameOf : List Slot → Nat
  | [] => 0
  | s :: _ => s.base + stackSize types s.tid

/-- Each slot begins where the ones below it end, and the frame fits `offset_t`. -/
def SlotsOk : List Slot → Prop
  | [] => True
  | s :: rest =>
      s.base = frameOf types rest ∧ s.base + stackSize types s.tid ≤ 32767 ∧ SlotsOk rest

/-- The context of the body of a local. -/
def Ctx.local (Γ : Ctx) (target : Option Nat) (v tid : Nat) : Ctx :=
  { Γ.scope target with slots := ⟨v, frameOf types Γ.slots, tid⟩ :: Γ.slots }

end Frame

/-- What is known in the end about the code of a function. -/
structure Image where
  /-- its bytes, from offset `0` on -/
  code : Nat → UInt8
  /-- the types of the temporaries that were recorded for the instruction at an offset -/
  temps : Nat → List Nat → Prop
  /-- the functions that are compiled -/
  ready : Nat → Prop

/-- The instruction `i` stands at offset `o`, recorded with the temporaries `ps`. -/
def InstrAt (I : Image) (o : Nat) (ps : List Nat) (i : Instr) : Prop :=
  At I.code o (encode i) ∧ I.temps o ps

section Ops

variable (env : CompileEnv) (I : Image)

/-- The check and the instruction of the operations on the two topmost entries. -/
def binaryTypes : OpKind → Option (Nat → Nat → Option (BinOp × Nat))
  | .assign => some (assignTypes env)
  | .addAssign => some (intArith .add)
  | .subAssign => some (intArith .sub)
  | .mulAssign => some (intArith .mul)
  | .divAssign => some (intArith .div)
  | .andAssign => some (intArith .and)
  | .orAssign => some (intArith .or)
  | .xorAssign => some (intArith .xor)
  | .arrAt => some (arrAtTypes env)
  | .arrPush => some (arrPushTypes env)
  | .arrDrop => some (arrDropTypes env)
  | .sliceFromAr => some (sliceFromArrTypes env)
  | .sliceFromOne => some (sliceFromOneTypes env)
  | .sliceAt => some (sliceAtTypes env)
  | .sliceInc => some (sliceMoveTypes env .sliceInc)
  | .sliceDec => some (sliceMoveTypes env .sliceDec)
  | _ => none

/-- The instruction of an operation, if it has one, with the types of the temporaries before and
after it, the topmost first.  Only compiled functions are called. -/
inductive OpInstr (slots : List Slot) : Op → List Nat → Option Instr → List Nat → Prop
  | null {x ps} : OpInstr slots ⟨.null, x⟩ ps none ps
  | call {x : UInt16} {ps f} : I.ready x.toNat → env.ctx.funcs[x.toNat]? = some f →
      f.sig.argc < 2 ^ 32 →
      f.sig.argc ≤ ps.length → Compiler.argTypes ps f.sig.argc = f.sig.args →
      OpInstr slots ⟨.call, x⟩ ps
        (some (.call (env.place x.toNat) (UInt32.ofNat f.sig.argc))) (ps.drop f.sig.ins.length)
  | native {x fn rest sig} : kindOf env fn = some (.nativeFunc sig) → sig.ins.length < 2 ^ 32 →
      sig.argc ≤ rest.length → Compiler.argTypes rest sig.argc = sig.args →
      OpInstr slots ⟨.callNativeOnStack, x⟩ (fn :: rest)
        (some (.callNative (UInt32.ofNat sig.ins.length))) (rest.drop sig.ins.length)
  | binary {op f lhs rhs rest b tid} : binaryTypes env op.kind = some f →
      f lhs rhs = some (b, tid) →
      OpInstr slots op (rhs :: lhs :: rest) (some (.binary b)) (tid :: rest)
  | bitNot {x rest} :
      OpInstr slots ⟨.bitNotAssign, x⟩ (intId :: rest) (some (.unary .bitNot)) (intId :: rest)
  | drop {x : UInt16} {ps} : x.toNat ≤ ps.length →
      OpInstr slots ⟨.drop, x⟩ ps (some (.dropN x.toUInt32)) (ps.drop x.toNat)
  | pushVar {x : UInt16} {ps s} {offset : Int16} :
      slots.find? (fun s => s.var == x.toNat) = some s →
      offset.toInt = (s.base : Int) - frameOf env.types slots →
      OpInstr slots ⟨.pushVar, x⟩ ps (some (.pushVar offset)) (s.tid :: ps)
  | pushArg {x : UInt16} {ps tid} : env.func.vars[x.toNat]? = some tid → tid < env.types.length →
      OpInstr slots ⟨.pushArg, x⟩ ps (some (.pushArg (UInt32.ofNat x.toNat))) (tid :: ps)
  | pushGlobal {x : UInt16} {ps g} : env.ctx.globals[x.toNat]? = some g →
      g.tid < env.types.length →
      OpInstr slots ⟨.pushGlobal, x⟩ ps (some (.pushGlobal g.mem)) (g.tid :: ps)
  | structAt {x : UInt16} {tid rest fields f} : kindOf env tid = some (.struct fields) →
      fields[x.toNat]? = some f → f.tid < env.types.length →
      OpInstr slots ⟨.structAt, x⟩ (tid :: rest) (some (.unary (.structAt f.offset)))
        (f.tid :: rest)

/-- The code of a list of operations from offset `o` to offset `o'`. -/
inductive CodeOps (slots : List Slot) :
    List Op → Nat → List Nat → Nat → List Nat → Prop
  | nil {o ps} : CodeOps slots [] o ps o ps
  | skip {op ops o ps o' ps' ps''} : OpInstr env I slots op ps none ps' →
      CodeOps slots ops o ps' o' ps'' → CodeOps slots (op :: ops) o ps o' ps''
  | emit {op ops o ps o' ps' ps'' i} : OpInstr env I slots op ps (some i) ps' → InstrAt I o ps i →
      CodeOps slots ops (o + i.size) ps' o' ps'' → CodeOps slots (op :: ops) o ps o' ps''

end Ops

/-- `n` times `B_POP_CRASH` from offset `o` on. -/
def PopsAt (I : Image) (o n : Nat) : Prop :=
  ∀ k < n, InstrAt I (o + k) [] .popCrash

/-- A jump to `target`, which fits the operand. -/
def JumpAt (I : Image) (o target : Nat) : Prop :=
  target ≤ 65535 ∧ InstrAt I o [] (.jump (UInt16.ofNat target))

/-- A `B_STORAGE_ADD` of `amount`. -/
def AddAt (I : Image) (o : Nat) (amount : Int) : Prop :=
  ∃ x : Int16, x.toInt = amount ∧ InstrAt I o [] (.storageAdd x)

/-- Reachable by falling through or by a break to `target`. -/
def Reach.orBreaks (r : Reach) (target : Option Nat) : Reach :=
  if r = .reachable ∨ target.isSome then .reachable else .unreachable

/-- The code of the block (or of the rest of a sequence) at a place, from offset `o` to offset
`o'`. -/
inductive CodeBlock (env : CompileEnv) (I : Image) :
    Ctx → Place → Nat → Reach → Nat → Prop
  | basic {Γ i r ops o o₁ ps} : env.func.blocks[i]? = some (.basic r) →
      opsIn env r = some ops → CodeOps env I Γ.slots ops o [] o₁ ps → ps.length < 2 ^ 32 →
      (ps ≠ [] → InstrAt I o₁ ps (.dropN (UInt32.ofNat ps.length))) →
      CodeBlock env I Γ (.node i) o .reachable (if ps = [] then o₁ else o₁ + 5)
  | many {Γ i cur next target o r o'} : env.func.blocks[i]? = some (.many cur next) →
      (∀ t, target = some t → t = o') →
      CodeBlock env I (Γ.scope target) (.seq cur next) o r o' →
      CodeBlock env I Γ (.node i) o (r.orBreaks target) o'
  | stop {Γ next o} : CodeBlock env I Γ (.seq none next) o .reachable o
  | last {Γ c o r o'} : CodeBlock env I Γ (.node c) o r o' →
      CodeBlock env I Γ (.seq (some c) none) o r o'
  | link {Γ c l cur next o o₁ r o'} : env.func.blocks[l]? = some (.chain cur next) →
      CodeBlock env I Γ (.node c) o .reachable o₁ → CodeBlock env I Γ (.seq cur next) o₁ r o' →
      CodeBlock env I Γ (.seq (some c) (some l)) o r o'
  | skip {Γ c l o o'} : CodeBlock env I Γ (.node c) o .unreachable o' →
      CodeBlock env I Γ (.seq (some c) (some l)) o .unreachable o'
  | crash {Γ i o} : env.func.blocks[i]? = some .crash → InstrAt I o [] .crash →
      CodeBlock env I Γ (.node i) o .unreachable (o + 1)
  | hardCrash {Γ i o} : env.func.blocks[i]? = some .hardCrash → InstrAt I o [] .hardCrash →
      CodeBlock env I Γ (.node i) o .unreachable (o + 1)
  | brk {Γ i level s target o o₁} : env.func.blocks[i]? = some (.brk (level + 1)) →
      Γ.scopes[level]? = some s → s.target = some target →
      PopsAt I o (Γ.pads.length - s.pads.length) →
      (if frameOf env.types s.slots = frameOf env.types Γ.slots then
          o₁ = o + (Γ.pads.length - s.pads.length)
        else AddAt I (o + (Γ.pads.length - s.pads.length))
            ((frameOf env.types s.slots : Int) - frameOf env.types Γ.slots) ∧
          o₁ = o + (Γ.pads.length - s.pads.length) + 3) →
      JumpAt I o₁ target → CodeBlock env I Γ (.node i) o .unreachable (o₁ + 3)
  | var {Γ i v body tid t target o r o₁ o'} : env.func.blocks[i]? = some (.var v body) →
      env.func.vars[v]? = some tid → env.types[tid]? = some t →
      frameOf env.types Γ.slots + t.size.toNat ≤ 32767 → AddAt I o t.size.toNat →
      (∀ x, target = some x → x = o') →
      CodeBlock env I (Γ.local env.types target v tid) (.node body) (o + 3) r o₁ →
      (r = .reachable → AddAt I o₁ (-(t.size.toNat : Int)) ∧ o' = o₁ + 3) →
      (r = .unreachable → o' = o₁) →
      CodeBlock env I Γ (.node i) o (r.orBreaks target) o'
  | branch {Γ i cond yes no ops o o₁ r₁ o₂ o₃ r₂ o'} :
      env.func.blocks[i]? = some (.branch cond yes no) → opsIn env cond = some ops →
      CodeOps env I Γ.slots ops o [] o₁ [intId] → o₃ ≤ 65535 → o₁ + 5 ≤ 65535 →
      InstrAt I o₁ [intId] (.branchTop (UInt16.ofNat (o₁ + 5)) (UInt16.ofNat o₃)) →
      CodeBlock env I Γ (.node yes) (o₁ + 5) r₁ o₂ →
      (r₁ = .reachable → JumpAt I o₂ o' ∧ o₃ = o₂ + 3) → (r₁ = .unreachable → o₃ = o₂) →
      CodeBlock env I Γ (.node no) o₃ r₂ o' →
      CodeBlock env I Γ (.node i) o
        (if r₁ = .reachable ∨ r₂ = .reachable then .reachable else .unreachable) o'
  | loop {Γ i body target o r o₁ o'} : env.func.blocks[i]? = some (.loop body) →
      (∀ t, target = some t → t = o') →
      CodeBlock env I (Γ.scope target) (.node body) o r o₁ →
      (r = .reachable → JumpAt I o₁ o ∧ o' = o₁ + 3) → (r = .unreachable → o' = o₁) →
      CodeBlock env I Γ (.node i) o (Reach.orBreaks .unreachable target) o'
  | crashPad {Γ i body pad handler o r₁ o₁ r₂ o₂ o'} :
      env.func.blocks[i]? = some (.crashPad body pad) → handler ≤ 65535 →
      InstrAt I o [] (.pushCrash (UInt16.ofNat handler)) →
      CodeBlock env I (Γ.guarded handler) (.node body) (o + 3) r₁ o₁ →
      (r₁ = .reachable → InstrAt I o₁ [] .popCrash ∧ JumpAt I (o₁ + 1) o' ∧ handler = o₁ + 4) →
      (r₁ = .unreachable → handler = o₁) →
      CodeBlock env I Γ.handler (.node pad) handler r₂ o₂ →
      (r₂ = .reachable → InstrAt I o₂ [] .crash ∧ o' = o₂ + 1) → (r₂ = .unreachable → o' = o₂) →
      CodeBlock env I Γ (.node i) o r₁ o'

end TreeVM
