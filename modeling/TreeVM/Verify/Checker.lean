import TreeVM.Compile.Compiler

/-!
# Places and the type checker

The first half of `verification.c`.

* `Par`, `Handle`, `Checker`: interned places and the stack of places (top first);
* `parType`: the type of a place; `typeCheckOp`: what `type_check_op` asks of one operation;
* `scanEffect`: the switch of `scan_ops`; `scanBlock`, `scanFuncs`: the walk over all operations.

A pass ends at its first error, as with a reporter that returns non-zero and with a null reporter.
The hash table of places is modelled by a search in the handles.  Places are interned after the
places they are part of, so `handles.length + 1` is enough fuel for walks to the root.
-/

namespace TreeVM

inductive ParKind
  | localVar
  | arg
  | global
  | structField
  | arrMember
  deriving DecidableEq, Repr

structure Par where
  kind : ParKind
  idx : Nat := 0
  parent : Nat := 0
  deriving DecidableEq, Repr

structure CodeLoc where
  block : Nat
  op : Nat
  deriving DecidableEq, Repr

structure HoldChain where
  par : Nat
  site : CodeLoc
  justConst : Bool
  deriving DecidableEq, Repr

inductive Life
  | free
  | unique
  | shared
  deriving DecidableEq, Repr

structure Handle where
  par : Par
  life : Life := .free
  holdsStart : Nat := 0
  numHolds : Nat := 0
  deriving DecidableEq, Repr

/-- `CompileContext` without functions, globals and code. -/
structure Checker where
  handles : List Handle := []
  holds : List HoldChain := []
  pars : List Nat := []
  deriving DecidableEq, Repr

/-- `TYPE_INVALID_ID` -/
def invalidId : Nat := 4294967295

/-! ## Errors -/

inductive TypeCheckErrorKind
  | portalNonLocal
  | portalBackingScope
  | stackUnderflow
  | invalidLocal
  | invalidGlobal
  | invalidFunc
  | invalidType
  | invalidField
  | invalidIndex
  | invalidCallTarget
  | typeMismatch
  | invalidCall
  deriving DecidableEq, Repr

inductive TypeCheckErrorData
  | none
  | portal (portal backing : Nat)
  | type (par : Option Nat) (expected actual : Nat)
  | stack (needed actual : Nat)
  | index (idx len : Nat)
  deriving DecidableEq, Repr

structure TypeCheckError where
  kind : TypeCheckErrorKind
  loc : CodeLoc
  op : Op
  data : TypeCheckErrorData
  deriving DecidableEq, Repr

structure AliasError where
  firstMut : Nat
  second : Nat
  call : CodeLoc
  deriving DecidableEq, Repr

/-- Why a pass returns non-zero.  `outOfFuel` stands for a recursion that has not ended. -/
inductive Fault
  | typeError (e : TypeCheckError)
  | aliasError (e : AliasError)
  | rejected
  | outOfFuel
  deriving DecidableEq, Repr

/-! ## Places -/

namespace Checker

/-- `comp_context_intern_par` -/
def intern (c : Checker) (par : Par) : Nat × Checker :=
  match c.handles.findIdx? fun h => h.par = par with
  | some idx => (idx, c)
  | none => (c.handles.length, { c with handles := c.handles ++ [{ par := par }] })

/-- `pars_push` of an interned place -/
def push (c : Checker) (par : Par) : Checker :=
  let (idx, c) := c.intern par
  { c with pars := idx :: c.pars }

/-- `pars_pop` -/
def pop (c : Checker) (n : Nat) : Except Fault Checker :=
  if c.pars.length < n then .error .rejected else .ok { c with pars := c.pars.drop n }

/-- The places of `n` arguments in the order of the signature, below `skip` entries. -/
def args (c : Checker) (skip n : Nat) : List Nat :=
  ((c.pars.drop skip).take n).reverse

def parOf (c : Checker) (idx : Nat) : Option Par :=
  (c.handles[idx]?).map Handle.par

end Checker

section Places

variable (ctx : Context) (func : Func)

def kindAt (tid : Nat) : Option TypeKind :=
  (func.types[tid]?).map Ty.kind

/-- The type of a field of a value of this kind. -/
def fieldType (kind : Option TypeKind) (field : Nat) : Nat :=
  match kind with
  | some (.struct fields) => ((fields[field]?).map Field.tid).getD invalidId
  | _ => invalidId

/-- The type of the elements of a value of this kind. -/
def memberType (kind : Option TypeKind) : Nat :=
  match kind with
  | some (.array elem _ _) => elem
  | some (.slice elem) => elem
  | some (.view elem) => elem
  | _ => invalidId

def parTypeAt (c : Checker) : Nat → Nat → Nat
  | 0, _ => invalidId
  | fuel + 1, idx =>
      match c.parOf idx with
      | none => invalidId
      | some ⟨.localVar, var, _⟩ => (func.vars[var]?).getD invalidId
      | some ⟨.arg, var, _⟩ => (func.vars[var]?).getD invalidId
      | some ⟨.global, global, _⟩ => ((ctx.globals[global]?).map Global.tid).getD invalidId
      | some ⟨.structField, field, parent⟩ =>
          fieldType (kindAt func (parTypeAt c fuel parent)) field
      | some ⟨.arrMember, _, parent⟩ => memberType (kindAt func (parTypeAt c fuel parent))

/-- `par_type` -/
def parType (c : Checker) (idx : Nat) : Nat :=
  parTypeAt ctx func c (c.handles.length + 1) idx

def parRootAt (c : Checker) : Nat → Nat → Option Par
  | 0, _ => none
  | fuel + 1, idx =>
      match c.parOf idx with
      | some ⟨.structField, _, parent⟩ => parRootAt c fuel parent
      | some ⟨.arrMember, _, parent⟩ => parRootAt c fuel parent
      | par => par

/-- `par_root` -/
def parRoot (c : Checker) (idx : Nat) : Option Par :=
  parRootAt c (c.handles.length + 1) idx

/-- `par_root_is_local` -/
def parRootIsLocal (c : Checker) (idx : Nat) : Bool :=
  match parRoot c idx with
  | some ⟨.localVar, _, _⟩ => true
  | _ => false

/-- `ScanState` -/
structure ScanState where
  scopeDepth : Nat := 0
  varDepths : List Nat
  deriving DecidableEq, Repr

/-- `par_scope_depth` -/
def parScopeDepth (c : Checker) (state : ScanState) (idx : Nat) : Nat :=
  match parRoot c idx with
  | some ⟨.localVar, var, _⟩ => (state.varDepths[var]?).getD 0
  | _ => 0

/-- `par_is_portal` -/
def parIsPortal (c : Checker) (idx : Nat) : Bool :=
  ((func.types[parType ctx func c idx]?).map Ty.isPortal).getD false

/-- `portal_retargetable` -/
def portalRetargetable (c : Checker) (idx : Nat) : Bool :=
  parIsPortal ctx func c idx && parRootIsLocal c idx

/-- `par_is_int` -/
def parIsInt (c : Checker) (idx : Nat) : Bool :=
  decide (parType ctx func c idx < func.types.length) && parType ctx func c idx == intId

/-- `native_sig_on_stack` -/
def nativeSigOnStack (c : Checker) : Option Sig :=
  match c.pars with
  | [] => none
  | fn :: _ =>
      match kindAt func (parType ctx func c fn) with
      | some (.nativeFunc sig) => some sig
      | _ => none

end Places

/-! ## Operations -/

section TypeCheck

variable (ctx : Context) (func : Func) (op : Op) (loc : CodeLoc)

def reportStackUnderflow {α : Type} (c : Checker) (needed : Nat) : Except Fault α :=
  .error (.typeError ⟨.stackUnderflow, loc, op, .stack needed c.pars.length⟩)

def reportIndexError {α : Type} (kind : TypeCheckErrorKind) (idx len : Nat) : Except Fault α :=
  .error (.typeError ⟨kind, loc, op, .index idx len⟩)

def reportTypeError {α : Type} (kind : TypeCheckErrorKind) (par : Option Nat)
    (expected actual : Nat) : Except Fault α :=
  .error (.typeError ⟨kind, loc, op, .type par expected actual⟩)

/-- The loops of `type_check_sig` over the outputs and the inputs. -/
def typeCheckSig (c : Checker) : List Nat → List Nat → Except Fault Unit
  | par :: pars, want :: wants =>
      let got := parType ctx func c par
      if func.types.length ≤ want then reportTypeError op loc .invalidType (some par) want got
      else if got ≠ want then reportTypeError op loc .invalidCall (some par) want got
      else typeCheckSig c pars wants
  | _, _ => .ok ()

/-- `OP_ASSIGN` and the arithmetic on two places -/
def checkAssign (c : Checker) : Except Fault Unit :=
  match c.pars with
  | src :: dst :: _ =>
      let dstTid := parType ctx func c dst
      let srcTid := parType ctx func c src
      if func.types.length ≤ dstTid then
        reportTypeError op loc .invalidType (some dst) dstTid dstTid
      else if dstTid ≠ srcTid then
        reportTypeError op loc .typeMismatch (some src) dstTid srcTid
      else if op.kind ≠ .assign ∧ dstTid ≠ intId then
        reportTypeError op loc .typeMismatch (some dst) intId dstTid
      else .ok ()
  | _ => reportStackUnderflow op loc c 2

def checkArrPush (c : Checker) : Except Fault Unit :=
  match c.pars with
  | elem :: arr :: _ =>
      let arrTid := parType ctx func c arr
      let elemTid := parType ctx func c elem
      match kindAt func arrTid with
      | some (.array want _ _) =>
          if want = elemTid then .ok ()
          else reportTypeError op loc .typeMismatch (some elem) want elemTid
      | _ => reportTypeError op loc .invalidIndex (some arr) invalidId arrTid
  | _ => reportStackUnderflow op loc c 2

def checkArrDrop (c : Checker) : Except Fault Unit :=
  match c.pars with
  | n :: arr :: _ =>
      if parIsInt ctx func c n then
        match kindAt func (parType ctx func c arr) with
        | some (.array _ _ _) => .ok ()
        | _ => reportTypeError op loc .invalidIndex (some arr) invalidId (parType ctx func c arr)
      else reportTypeError op loc .typeMismatch (some n) intId (parType ctx func c n)
  | _ => reportStackUnderflow op loc c 2

def checkSliceFromAr (c : Checker) : Except Fault Unit :=
  match c.pars with
  | arr :: ref :: _ =>
      let refTid := parType ctx func c ref
      let arrTid := parType ctx func c arr
      if func.types.length ≤ refTid then
        reportTypeError op loc .invalidType (some ref) refTid refTid
      else if func.types.length ≤ arrTid then
        reportTypeError op loc .invalidType (some arr) arrTid arrTid
      else
        match (kindAt func refTid).bind refElem with
        | none => reportTypeError op loc .typeMismatch (some ref) invalidId refTid
        | some elem =>
            match kindAt func arrTid with
            | some (.array elem' _ _) =>
                if elem' = elem then .ok ()
                else reportTypeError op loc .typeMismatch (some arr) elem arrTid
            | _ => reportTypeError op loc .typeMismatch (some arr) elem arrTid
  | _ => reportStackUnderflow op loc c 2

def checkSliceFromOne (c : Checker) : Except Fault Unit :=
  match c.pars with
  | elem :: ref :: _ =>
      let refTid := parType ctx func c ref
      let elemTid := parType ctx func c elem
      if func.types.length ≤ refTid then
        reportTypeError op loc .invalidType (some ref) refTid refTid
      else
        match kindAt func refTid with
        | some (.slice want) =>
            if want = elemTid then .ok ()
            else reportTypeError op loc .typeMismatch (some elem) want elemTid
        | _ => reportTypeError op loc .typeMismatch (some ref) invalidId refTid
  | _ => reportStackUnderflow op loc c 2

/-- `OP_SLICE_INC` and `OP_SLICE_DEC` -/
def checkSliceMove (c : Checker) : Except Fault Unit :=
  match c.pars with
  | n :: ref :: _ =>
      if parIsInt ctx func c n then
        match kindAt func (parType ctx func c ref) with
        | some (.slice _) => .ok ()
        | _ => reportTypeError op loc .typeMismatch (some ref) invalidId (parType ctx func c ref)
      else reportTypeError op loc .typeMismatch (some n) intId (parType ctx func c n)
  | _ => reportStackUnderflow op loc c 2

/-- `OP_ARR_AT` and `OP_SLICE_AT`; `indexable` says which types can be indexed. -/
def checkAt (indexable : TypeKind → Bool) (c : Checker) : Except Fault Unit :=
  match c.pars with
  | n :: arr :: _ =>
      if parIsInt ctx func c n then
        if ((kindAt func (parType ctx func c arr)).map indexable).getD false then .ok ()
        else reportTypeError op loc .invalidIndex (some arr) invalidId (parType ctx func c arr)
      else reportTypeError op loc .invalidIndex (some n) intId (parType ctx func c n)
  | _ => reportStackUnderflow op loc c 2

def TypeKind.isArray : TypeKind → Bool
  | .array _ _ _ => true
  | _ => false

def TypeKind.isRef (kind : TypeKind) : Bool :=
  (refElem kind).isSome

def checkStructAt (c : Checker) : Except Fault Unit :=
  match c.pars with
  | parent :: _ =>
      match kindAt func (parType ctx func c parent) with
      | some (.struct fields) =>
          if op.extra.toNat < fields.length then .ok ()
          else reportIndexError op loc .invalidField op.extra.toNat fields.length
      | _ =>
          reportTypeError op loc .typeMismatch (some parent) invalidId (parType ctx func c parent)
  | [] => reportStackUnderflow op loc c 1

def checkBitNot (c : Checker) : Except Fault Unit :=
  match c.pars with
  | par :: _ =>
      if parIsInt ctx func c par then .ok ()
      else reportTypeError op loc .typeMismatch (some par) intId (parType ctx func c par)
  | [] => reportStackUnderflow op loc c 1

/-- `OP_PUSH_VAR` and `OP_PUSH_ARG` -/
def checkPushVar : Except Fault Unit :=
  match func.vars[op.extra.toNat]? with
  | none => reportIndexError op loc .invalidLocal op.extra.toNat func.vars.length
  | some tid =>
      if tid < func.types.length then .ok ()
      else reportTypeError op loc .invalidType none tid invalidId

def checkPushGlobal : Except Fault Unit :=
  match ctx.globals[op.extra.toNat]? with
  | none => reportIndexError op loc .invalidGlobal op.extra.toNat ctx.globals.length
  | some g =>
      if g.tid < func.types.length then .ok ()
      else reportTypeError op loc .invalidType none g.tid invalidId

def checkCall (c : Checker) : Except Fault Unit :=
  match ctx.funcs[op.extra.toNat]? with
  | none => reportIndexError op loc .invalidFunc op.extra.toNat ctx.funcs.length
  | some callee =>
      let argc := callee.sig.outs.length + callee.sig.ins.length
      if c.pars.length < argc then reportStackUnderflow op loc c argc
      else typeCheckSig ctx func op loc c (c.args 0 argc) callee.sig.args

def checkCallNative (c : Checker) : Except Fault Unit :=
  match nativeSigOnStack ctx func c with
  | none =>
      reportTypeError op loc .invalidCallTarget c.pars.head? invalidId
        ((c.pars.head?.map (parType ctx func c)).getD invalidId)
  | some sig =>
      let argc := sig.outs.length + sig.ins.length
      if c.pars.length < argc + 1 then reportStackUnderflow op loc c (argc + 1)
      else typeCheckSig ctx func op loc c (c.args 1 argc) sig.args

/-- `type_check_op` -/
def typeCheckOp (c : Checker) : Except Fault Unit :=
  match op.kind with
  | .null => .ok ()
  | .drop => .ok ()
  | .pushVar => checkPushVar func op loc
  | .pushArg => checkPushVar func op loc
  | .pushGlobal => checkPushGlobal ctx func op loc
  | .assign => checkAssign ctx func op loc c
  | .addAssign => checkAssign ctx func op loc c
  | .subAssign => checkAssign ctx func op loc c
  | .mulAssign => checkAssign ctx func op loc c
  | .divAssign => checkAssign ctx func op loc c
  | .andAssign => checkAssign ctx func op loc c
  | .orAssign => checkAssign ctx func op loc c
  | .xorAssign => checkAssign ctx func op loc c
  | .bitNotAssign => checkBitNot ctx func op loc c
  | .arrPush => checkArrPush ctx func op loc c
  | .arrDrop => checkArrDrop ctx func op loc c
  | .sliceFromAr => checkSliceFromAr ctx func op loc c
  | .sliceFromOne => checkSliceFromOne ctx func op loc c
  | .sliceInc => checkSliceMove ctx func op loc c
  | .sliceDec => checkSliceMove ctx func op loc c
  | .arrAt => checkAt ctx func op loc TypeKind.isArray c
  | .sliceAt => checkAt ctx func op loc TypeKind.isRef c
  | .structAt => checkStructAt ctx func op loc c
  | .call => checkCall ctx func op loc c
  | .callNativeOnStack => checkCallNative ctx func op loc c

/-- Two entries, of which the first one stays. -/
def popSecond (c : Checker) : Except Fault Checker :=
  if c.pars.length < 2 then .error .rejected else c.pop 1

/-- The switch of `scan_ops` -/
def scanEffect (c : Checker) : Except Fault Checker :=
  match op.kind with
  | .null => .ok c
  | .pushVar => .ok (c.push ⟨.localVar, op.extra.toNat, 0⟩)
  | .pushArg => .ok (c.push ⟨.arg, op.extra.toNat, 0⟩)
  | .pushGlobal => .ok (c.push ⟨.global, op.extra.toNat, 0⟩)
  | .assign => popSecond c
  | .addAssign => popSecond c
  | .subAssign => popSecond c
  | .mulAssign => popSecond c
  | .divAssign => popSecond c
  | .andAssign => popSecond c
  | .orAssign => popSecond c
  | .xorAssign => popSecond c
  | .bitNotAssign => if c.pars.length < 1 then .error .rejected else .ok c
  | .drop => c.pop op.extra.toNat
  | .arrPush => popSecond c
  | .arrDrop => popSecond c
  | .sliceFromAr => popSecond c
  | .sliceFromOne => popSecond c
  | .sliceInc => c.pop 1
  | .sliceDec => c.pop 1
  | .arrAt =>
      match c.pars with
      | _ :: parent :: rest => .ok ({ c with pars := rest }.push ⟨.arrMember, 0, parent⟩)
      | _ => .error .rejected
  | .sliceAt =>
      match c.pars with
      | _ :: parent :: rest => .ok ({ c with pars := rest }.push ⟨.arrMember, 0, parent⟩)
      | _ => .error .rejected
  | .structAt =>
      match c.pars with
      | parent :: rest =>
          .ok ({ c with pars := rest }.push ⟨.structField, op.extra.toNat, parent⟩)
      | [] => .error .rejected
  | .call =>
      match ctx.funcs[op.extra.toNat]? with
      | none => .error .rejected
      | some callee =>
          if c.pars.length < callee.sig.ins.length + callee.sig.outs.length then .error .rejected
          else .ok { c with pars := c.pars.drop callee.sig.ins.length }
  | .callNativeOnStack =>
      match nativeSigOnStack ctx func c with
      | none => .error .rejected
      | some sig =>
          if c.pars.length < sig.outs.length + sig.ins.length + 1 then .error .rejected
          else .ok { c with pars := c.pars.drop (sig.ins.length + 1) }

end TypeCheck

/-! ## The walk over a function -/

/-- What a pass does in front of an operation; the number is that of the function. -/
abbrev ScanOp := Nat → ScanState → Op → CodeLoc → Checker → Except Fault Checker

section Scan

variable (ctx : Context) (handler : ScanOp) (current : Nat) (func : Func)

/-- The loop of `scan_ops` -/
def scanOpsFrom (state : ScanState) (block : Nat) : Nat → List Op → Checker →
    Except Fault Checker
  | _, [], c => .ok c
  | opi, op :: ops, c => do
      let c ← handler current state op ⟨block, opi⟩ c
      let c ← scanEffect ctx func op c
      scanOpsFrom state block (opi + 1) ops c

/-- `scan_ops` without the end of the stack -/
def scanOps (state : ScanState) (block : Nat) (r : OpRange) (c : Checker) :
    Except Fault Checker :=
  if func.ops.length < r.start ∨ func.ops.length - r.start < r.len then .error .rejected
  else do
    let start := c.pars.length
    let c ← scanOpsFrom ctx handler current func state block r.start
      ((func.ops.drop r.start).take r.len) c
    if c.pars.length < start then .error .rejected else return c

/-- `scan_basic` -/
def scanBasic (state : ScanState) (block : Nat) (r : OpRange) (c : Checker) :
    Except Fault Checker := do
  let start := c.pars.length
  let c ← scanOps ctx handler current func state block r c
  return { c with pars := c.pars.drop (c.pars.length - start) }

/-- `scan_condition` -/
def scanCondition (state : ScanState) (block : Nat) (cond : OpRange) (c : Checker) :
    Except Fault Checker := do
  let before := c.pars.length
  let c ← scanOps ctx handler current func state block cond c
  match c.pars with
  | par :: rest =>
      if rest.length ≠ before ∨ parIsInt ctx func c par = false then .error .rejected
      else return { c with pars := rest }
  | [] => .error .rejected

/-- The loop of `scan_block` over the children of a `BLOCK_MANY` -/
def scanChildren (block : Nat → Checker → Except Fault Checker) :
    Nat → Option Nat → Option Nat → Checker → Except Fault Checker
  | _, none, _, c => .ok c
  | 0, some _, _, _ => .error .outOfFuel
  | fuel + 1, some child, link, c => do
      let c ← block child c
      match link with
      | none => return c
      | some l =>
          match func.blocks[l]? with
          | some (.chain cur next) => scanChildren block fuel cur next c
          | _ => .error .rejected

/-- `BLOCK_VAR` of `scan_block` -/
def ScanState.enterVar (state : ScanState) (var : Nat) : ScanState where
  scopeDepth := state.scopeDepth + 1
  varDepths := state.varDepths.set var (state.scopeDepth + 1)

/-- The stack is cut back to the length `n`. -/
def Checker.cut (c : Checker) (n : Nat) : Checker :=
  { c with pars := c.pars.drop (c.pars.length - n) }

/-- `scan_block` -/
def scanBlock : Nat → ScanState → Nat → Checker → Except Fault Checker
  | 0, _, _, _ => .error .outOfFuel
  | fuel + 1, state, idx, c =>
      let before := c.pars.length
      match func.blocks[idx]? with
      | none => .error .rejected
      | some (.basic r) => scanBasic ctx handler current func state idx r c
      | some (.many cur next) => scanChildren func (scanBlock fuel state) fuel cur next c
      | some (.chain _ _) => .error .rejected
      | some (.defer next defer) => do
          let c ← scanBlock fuel state next c
          scanBlock fuel state defer (c.cut before)
      | some .crash => .ok c
      | some .hardCrash => .ok c
      | some (.brk _) => .ok c
      | some (.crashPad body pad) => do
          let c ← scanBlock fuel state body c
          scanBlock fuel state pad (c.cut before)
      | some (.branch cond yes no) => do
          let c ← scanCondition ctx handler current func state idx cond c
          let c ← scanBlock fuel state yes c
          scanBlock fuel state no (c.cut before)
      | some (.loop body) => scanBlock fuel state body c
      | some (.var v body) =>
          if func.vars.length ≤ v then .error .rejected
          else scanBlock fuel (state.enterVar v) body c

end Scan

section Functions

variable (ctx : Context) (handler : ScanOp) (fuel : Nat)

/-- One round of the loop of `scan_funcs` -/
def scanFunc (current : Nat) (func : Func) (c : Checker) : Except Fault Checker :=
  let c := { c with pars := [] }
  if func.blocks = [] then .ok c
  else scanBlock ctx handler current func fuel ⟨0, List.replicate func.vars.length 0⟩ 0 c

/-- The functions from number `current` on -/
def scanFuncsFrom : Nat → List Func → Checker → Except Fault Checker
  | _, [], c => .ok { c with pars := [] }
  | current, func :: funcs, c => do
      let c ← scanFunc ctx handler fuel current func c
      scanFuncsFrom (current + 1) funcs c

/-- `scan_funcs` -/
def scanFuncs (c : Checker) : Except Fault Checker :=
  scanFuncsFrom ctx handler fuel 0 ctx.funcs c

end Functions

end TreeVM
