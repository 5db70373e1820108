import TreeVM.Compile.Compiler
import TreeVM.Frontend.Text

/-!
# The frontend and the block tree it builds

The data of `frontend.h`, and the functions of `frontend.c` that write the function.

* `Draft`: the function under construction; `Frontend`: the state, scopes innermost first;
* `FrontStep`: a function of the source that can fail, with the state that it leaves also then;
* `emitOp`, `wrapCurrent`, `beginLoop` .. `emitLoopExit`, `handleDelimiter`, `declareVar`.

Memory suffices.  `M` is the state of the macro VM.
-/

namespace TreeVM

abbrev Name := List UInt8

structure NamedType where
  ty : Ty
  name : Option Name := none
  deriving DecidableEq, Repr

structure NamedVar where
  tid : Nat
  name : Option Name := none
  deriving DecidableEq, Repr

/-- `Func` while it is built -/
structure Draft where
  sig : Sig
  types : List NamedType
  blocks : List Block := []
  ops : List Op := []
  vars : List NamedVar
  deriving DecidableEq, Repr

inductive FrontendError
  | ok
  | oom
  | unknownWord
  | expectedName
  | badNumber
  | unknownType
  | duplicateVar
  | macroCompileFailed
  | macroRuntimeFailed
  | interpreterRuntimeFailed
  | badControlFlow
  deriving DecidableEq, Repr

/-- `FrontendImmediate` -/
inductive Immediate
  | func (idx : Nat)
  | var
  | loop
  | again
  | ifWord
  | elseWord
  | done
  | breakWord
  | continueWord
  | start
  | finallyWord
  | endWord
  | defer
  deriving DecidableEq, Repr

inductive WordKind
  | op (op : Op)
  | func (idx : UInt16)
  | native (global : UInt16)
  | immediate (word : Immediate)
  deriving DecidableEq, Repr

/-- `FrontendWord` -/
structure Word where
  name : Name
  kind : WordKind
  deriving DecidableEq, Repr

/-- `FrontendScopeKind` -/
inductive ScopeKind
  | loop
  | branch
  | epilogue
  deriving DecidableEq, Repr

/-- `FrontendScopePhase` -/
inductive ScopePhase
  | body
  | waitOpen
  | condition
  | elseBody
  | cleanup
  | cleanupWaitOpen
  deriving DecidableEq, Repr

structure FrontendScope where
  kind : ScopeKind
  phase : ScopePhase
  block : Nat
  first : Nat
  second : Nat := 0
  after : Nat
  parentDepth : Nat
  breakDepth : Nat := 0
  continueDepth : Nat := 0
  delimiterDepth : Nat := 0
  implicitEnd : Bool := false
  deriving DecidableEq, Repr

/-- The lengths of the stacks of a VM -/
structure StackLens where
  storage : Nat := 0
  params : Nat := 0
  crash : Nat := 0
  deriving DecidableEq, Repr

/-- `ownedGlobals` has the numbers of the globals of literals, with what their memory holds. -/
structure Frontend (M : Type) where
  ctx : Option Context
  func : Draft
  words : List Word := []
  macroVm : M
  interpreterVm : StackLens := {}
  cursor : Text := []
  currentToken : Token := ⟨[], 0⟩
  ownedGlobals : List (Nat × Int) := []
  scopes : List FrontendScope := []
  currentBasic : Nat := 0
  scopeDepth : Nat := 0
  error : FrontendError := .ok
  errorWord : Option Text := none

/-- A function of the source: what it returns, if it succeeds, and the state it leaves. -/
def FrontStep (M α : Type) : Type :=
  Frontend M → Option α × Frontend M

variable {M : Type}

instance : Monad (FrontStep M) where
  pure a := fun fe => (some a, fe)
  bind x f := fun fe =>
    match x fe with
    | (some a, fe) => f a fe
    | (none, fe) => (none, fe)

namespace FrontStep

def get : FrontStep M (Frontend M) :=
  fun fe => (some fe, fe)

def modify (f : Frontend M → Frontend M) : FrontStep M Unit :=
  fun fe => (some (), f fe)

/-- `return false`, without an error -/
def fail {α : Type} : FrontStep M α :=
  fun fe => (none, fe)

/-- `fe->error = error; return false` -/
def failWith {α : Type} (error : FrontendError) : FrontStep M α :=
  fun fe => (none, { fe with error := error })

/-- The same with `fe->error_word = word` -/
def failAt {α : Type} (error : FrontendError) (word : Text) : FrontStep M α :=
  fun fe => (none, { fe with error := error, errorWord := some word })

end FrontStep

/-- `BLOCK_INVALID` -/
def blockInvalid : Nat := 4294967295

/-- The largest `uoffset_t` and `var_idx` -/
def maxOffset : Nat := 65535

/-! ## Blocks -/

namespace Block

/-- A write to `data.basic.start`, the first number of every member of the union. -/
def setStart (x : Nat) : Block → Block
  | basic r => basic { r with start := x }
  | defer _ d => defer x d
  | many _ next => many (some x) next
  | chain _ next => chain (some x) next
  | crash => crash
  | hardCrash => hardCrash
  | crashPad _ pad => crashPad x pad
  | branch cond yes no => branch { cond with start := x } yes no
  | loop _ => loop x
  | brk _ => brk x
  | var _ body => var (x % 65536) body

/-- The range of a basic block ends before operation `x`. -/
def endBasic (x : Nat) : Block → Block
  | basic r => basic { r with len := x - r.start }
  | b => b

/-- The condition of a branch ends before operation `x`. -/
def endCond (x : Nat) : Block → Block
  | branch cond yes no => branch { cond with len := x - cond.start } yes no
  | b => b

end Block

namespace Frontend

def setBlocks (fe : Frontend M) (blocks : List Block) : Frontend M :=
  { fe with func := { fe.func with blocks := blocks } }

/-- `blocks.data[idx].data.basic.start = (op_idx)ops.len` -/
def startHere (fe : Frontend M) (idx : Nat) : Frontend M :=
  fe.setBlocks (fe.func.blocks.modify idx (Block.setStart fe.func.ops.length))

/-- `fe->current_basic = idx` for a block whose range starts here. -/
def enterBlock (fe : Frontend M) (idx : Nat) : Frontend M :=
  { fe.startHere idx with currentBasic := idx }

/-- The innermost scope after a change, when there is one. -/
def setTop (fe : Frontend M) (scope : FrontendScope) : Frontend M :=
  { fe with scopes := scope :: fe.scopes.tail }

def pushScope (fe : Frontend M) (scope : FrontendScope) : Frontend M :=
  { fe with scopes := scope :: fe.scopes }

end Frontend

/-- `frontend_prepare_func` -/
def prepareFunc : FrontStep M Unit := fun fe =>
  match fe.func.blocks with
  | [] => (some (), { fe.setBlocks [.basic ⟨0, 0⟩] with currentBasic := 0 })
  | entry :: _ =>
      match fe.func.blocks[fe.currentBasic]?, entry with
      | some (.basic _), _ => (some (), fe)
      | _, .basic _ => (some (), { fe with currentBasic := 0 })
      | _, _ => (none, fe)

/-- The innermost scope is an `If` whose condition is read. -/
def Frontend.inCondition (fe : Frontend M) : Prop :=
  ∃ scope rest, fe.scopes = scope :: rest ∧ scope.kind = .branch ∧ scope.phase = .condition

instance (fe : Frontend M) : Decidable fe.inCondition :=
  match h : fe.scopes with
  | [] => isFalse fun ⟨_, _, h', _⟩ => by simp [h] at h'
  | scope :: rest =>
      decidable_of_iff (scope.kind = .branch ∧ scope.phase = .condition)
        ⟨fun hs => ⟨scope, rest, h, hs⟩, fun ⟨_, _, h', hs⟩ => by
          rw [h] at h'
          cases h'
          exact hs⟩

/-- The range of the current block ends with the last operation. -/
def Frontend.extendBasic (fe : Frontend M) : Frontend M :=
  fe.setBlocks (fe.func.blocks.modify fe.currentBasic (Block.endBasic fe.func.ops.length))

/-- `frontend_emit_op` -/
def emitOp (op : Op) : FrontStep M Unit := do
  prepareFunc
  .modify fun fe =>
    let fe := { fe with func := { fe.func with ops := fe.func.ops ++ [op] } }
    if fe.inCondition then fe else fe.extendBasic

/-- `append_basic_block` -/
def appendBasicBlock : FrontStep M Nat := fun fe =>
  if blockInvalid ≤ fe.func.blocks.length + 1 then (none, fe)
  else
    (some fe.func.blocks.length,
      fe.setBlocks (fe.func.blocks ++ [.basic ⟨fe.func.ops.length, 0⟩]))

/-- `wrap_current`: the numbers of the middle block and of the one behind it -/
def wrapCurrent (middle : Block) : FrontStep M (Nat × Nat) := fun fe =>
  let len := fe.func.blocks.length
  let slot := fe.currentBasic
  if blockInvalid ≤ len + 5 then (none, fe)
  else
    let before := len
    let child := len + 1
    let childChain := len + 2
    let after := len + 3
    let afterChain := len + 4
    let blocks := fe.func.blocks ++ [(fe.func.blocks[slot]?).getD .unset, middle,
      .chain (some child) (some afterChain), .basic ⟨fe.func.ops.length, 0⟩,
      .chain (some after) none]
    (some (child, after), fe.setBlocks (blocks.set slot (.many (some before) (some childChain))))

/-- `bad_control` -/
def badControl {α : Type} : FrontStep M α := fun fe =>
  FrontStep.failAt .badControlFlow fe.currentToken.data fe

/-! ## Control flow -/

/-- `begin_loop` -/
def beginLoop : FrontStep M Unit := do
  let body ← appendBasicBlock
  let fe ← FrontStep.get
  let loopBody := fe.func.blocks.length
  if blockInvalid ≤ loopBody + 1 then FrontStep.fail
  else
    .modify fun fe => fe.setBlocks (fe.func.blocks ++ [.many (some body) none])
    let parentDepth := fe.scopeDepth
    let (loop, after) ← wrapCurrent (.loop loopBody)
    .modify fun fe => { fe.pushScope {
      kind := .loop, phase := .body, block := loop, first := loopBody, after := after,
      parentDepth := parentDepth, breakDepth := parentDepth + 2,
      continueDepth := parentDepth + 3 } with
        currentBasic := body, scopeDepth := parentDepth + 3 }

/-- The innermost scope is left: the current block is the one behind it. -/
def Frontend.leave (fe : Frontend M) (scope : FrontendScope) : Frontend M :=
  { { fe with scopes := fe.scopes.tail }.enterBlock scope.after with
    scopeDepth := scope.parentDepth + 1 }

/-- `end_loop` -/
def endLoop : FrontStep M Unit := fun fe =>
  match fe.scopes with
  | scope :: _ => if scope.kind = .loop then (some (), fe.leave scope) else badControl fe
  | [] => badControl fe

/-- `begin_if` -/
def beginIf : FrontStep M Unit := do
  let yes ← appendBasicBlock
  let no ← appendBasicBlock
  let fe ← FrontStep.get
  let parentDepth := fe.scopeDepth
  let (branch, after) ← wrapCurrent (.branch ⟨fe.func.ops.length, 0⟩ yes no)
  .modify fun fe => { fe.pushScope {
    kind := .branch, phase := .waitOpen, block := branch, first := yes, second := no,
    after := after, parentDepth := parentDepth } with
      currentBasic := yes, scopeDepth := parentDepth + 1 }

/-- `begin_else` -/
def beginElse : FrontStep M Unit := fun fe =>
  match fe.scopes with
  | scope :: _ =>
      if scope.kind = .branch ∧ scope.phase = .body then
        (some (), { (fe.setTop { scope with phase := .elseBody }).enterBlock scope.second with
          scopeDepth := scope.parentDepth + 1 })
      else badControl fe
  | [] => badControl fe

/-- `end_if` -/
def endIf : FrontStep M Unit := fun fe =>
  match fe.scopes with
  | scope :: _ =>
      if scope.kind = .branch ∧ (scope.phase = .body ∨ scope.phase = .elseBody) then
        let fe := if scope.phase = .body then fe.startHere scope.second else fe
        (some (), fe.leave scope)
      else badControl fe
  | [] => badControl fe

/-- `begin_epilogue` -/
def beginEpilogue (implicitEnd : Bool) : FrontStep M Unit := do
  let next ← appendBasicBlock
  let cleanup ← appendBasicBlock
  let fe ← FrontStep.get
  let parentDepth := fe.scopeDepth
  let (defer, after) ← wrapCurrent (.defer next cleanup)
  .modify fun fe => { fe.pushScope {
    kind := .epilogue, phase := if implicitEnd then .cleanupWaitOpen else .body, block := defer,
    first := next, second := cleanup, after := after, parentDepth := parentDepth,
    implicitEnd := implicitEnd } with
      currentBasic := if implicitEnd then cleanup else next, scopeDepth := parentDepth + 2 }

/-- `begin_cleanup` -/
def beginCleanup : FrontStep M Unit := fun fe =>
  match fe.scopes with
  | scope :: _ =>
      if scope.kind = .epilogue ∧ scope.implicitEnd = false ∧ scope.phase = .body then
        (some (), { (fe.setTop { scope with phase := .cleanup }).enterBlock scope.second with
          scopeDepth := scope.parentDepth + 2 })
      else badControl fe
  | [] => badControl fe

/-- `finish_epilogue` -/
def finishEpilogue : FrontStep M Unit := fun fe =>
  match fe.scopes with
  | scope :: _ =>
      if scope.kind = .epilogue ∧ scope.implicitEnd = false ∧ scope.phase = .cleanup then
        (some (), fe.leave scope)
      else badControl fe
  | [] => badControl fe

/-- The scope of a prefix `Defer` whose cleanup is complete. -/
def FrontendScope.endsImplicitly (scope : FrontendScope) : Prop :=
  scope.kind = .epilogue ∧ scope.implicitEnd = true ∧ scope.phase = .body

instance (scope : FrontendScope) : Decidable scope.endsImplicitly :=
  inferInstanceAs (Decidable (_ ∧ _))

/-- The loop of `finish_implicit_epilogues`, over the open scopes -/
def finishImplicitFrom : List FrontendScope → Frontend M → Frontend M
  | [], fe => fe
  | scope :: rest, fe => if scope.endsImplicitly then finishImplicitFrom rest (fe.leave scope) else fe

/-- `finish_implicit_epilogues` -/
def finishImplicitEpilogues (fe : Frontend M) : Frontend M :=
  finishImplicitFrom fe.scopes fe

/-- The scopes inside the innermost loop, and that loop. -/
def splitAtLoop : List FrontendScope → Option (List FrontendScope × FrontendScope)
  | [] => none
  | scope :: rest =>
      if scope.kind = .loop then some ([], scope)
      else (splitAtLoop rest).map fun (inner, loop) => (scope :: inner, loop)

/-- `cleanup_exit_is_legal`, for the scopes inside the loop -/
def cleanupExitIsLegal (inner : List FrontendScope) : Bool :=
  inner.all fun scope => !(scope.kind = .epilogue && scope.phase = .cleanup)

/-- `emit_loop_exit` -/
def emitLoopExit (isContinue : Bool) : FrontStep M Unit := fun fe =>
  match splitAtLoop fe.scopes with
  | none => badControl fe
  | some (inner, loop) =>
      if cleanupExitIsLegal inner = false then badControl fe
      else
        let targetDepth := if isContinue then loop.continueDepth else loop.breakDepth
        let breakDepth := fe.scopeDepth + 1
        if breakDepth < targetDepth then badControl fe
        else
          match wrapCurrent (.brk (breakDepth - targetDepth + 1)) fe with
          | (some (_, after), fe) =>
              (some (), { fe with currentBasic := after, scopeDepth := fe.scopeDepth + 1 })
          | (none, fe) => (none, fe)

/-- `handle_delimiter` -/
def handleDelimiter (opening : Bool) : FrontStep M Unit := fun fe =>
  match fe.scopes with
  | [] => (some (), fe)
  | scope :: _ =>
      if scope.phase = .waitOpen ∨ scope.phase = .cleanupWaitOpen then
        if opening = false then badControl fe
        else
          let phase := if scope.kind = .branch then .condition else .cleanup
          (some (), fe.setTop { scope with delimiterDepth := 1, phase := phase })
      else if scope.delimiterDepth = 0 then (some (), fe)
      else if opening then
        (some (), fe.setTop { scope with delimiterDepth := scope.delimiterDepth + 1 })
      else
        let depth := scope.delimiterDepth - 1
        if depth ≠ 0 then (some (), fe.setTop { scope with delimiterDepth := depth })
        else
          let fe := fe.setTop { scope with delimiterDepth := depth, phase := .body }
          let fe :=
            if scope.kind = .branch then
              fe.setBlocks (fe.func.blocks.modify scope.block (Block.endCond fe.func.ops.length))
            else fe
          (some (), fe.enterBlock scope.first)

/-! ## Variables -/

/-- `frontend_declare_var` -/
def declareVar (tid : Nat) (name : Name) : FrontStep M Unit := fun fe =>
  if fe.func.types.length ≤ tid then (none, fe)
  else if maxOffset < fe.func.vars.length then FrontStep.failWith .oom fe
  else if fe.func.vars.any (fun var => var.name = some name) then FrontStep.failWith .duplicateVar fe
  else
    let var := fe.func.vars.length
    let slot := fe.currentBasic
    let before := fe.func.blocks.length
    let varBlock := before + 1
    let chain := before + 2
    let body := before + 3
    let blocks := fe.func.blocks ++ [(fe.func.blocks[slot]?).getD .unset, .var var body,
      .chain (some varBlock) none, .basic ⟨fe.func.ops.length, 0⟩]
    let func := { fe.func with
      vars := fe.func.vars ++ [⟨tid, some name⟩]
      blocks := blocks.set slot (.many (some before) (some chain)) }
    (some (), { fe with
      func := func, currentBasic := body, scopeDepth := fe.scopeDepth + 2 })

end TreeVM
