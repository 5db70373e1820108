import TreeVM.Verify.Checker

/-!
# The two passes of the checker

The second half of `verification.c`.

* `addHold`: `handle_add_hold`; `firstPassOp`, `firstPass`: types, portals and hold edges;
* `borrowPar`: the recursive borrow of a place; `borrowCheckSig`: one call; `borrowCheck`.

Handles are read by their number throughout: the source keeps a pointer to a handle while new places
are interned.
-/

namespace TreeVM

/-! ## Hold edges -/

namespace Checker

/-- The hold edges of a handle. -/
def holdsOf (c : Checker) (h : Handle) : List HoldChain :=
  (c.holds.drop h.holdsStart).take h.numHolds

/-- `handle_add_hold` -/
def addHold (c : Checker) (owner held : Nat) (loc : CodeLoc) (justConst : Bool) :
    Except Fault Checker :=
  match c.handles[owner]? with
  | none => .error .rejected
  | some h =>
      if c.handles.length ≤ held then .error .rejected
      else if (c.holdsOf h).any fun old => old.par = held ∧ old.justConst = justConst then .ok c
      else
        let moved := h.numHolds ≠ 0 ∧ h.holdsStart + h.numHolds ≠ c.holds.length
        let start := if h.numHolds = 0 ∨ moved then c.holds.length else h.holdsStart
        let holds := if moved then c.holds ++ c.holdsOf h else c.holds
        .ok { c with
          holds := holds ++ [⟨held, loc, justConst⟩]
          handles := c.handles.set owner { h with holdsStart := start, numHolds := h.numHolds + 1 } }

/-- No hold edges are left. -/
def clearHolds (c : Checker) : Checker :=
  { c with
    holds := []
    handles := c.handles.map fun h => { h with holdsStart := 0, numHolds := 0 } }

end Checker

/-! ## The first pass -/

section FirstPass

variable (ctx : Context) (func : Func) (state : ScanState) (op : Op) (loc : CodeLoc)

def reportPortal {α : Type} (kind : TypeCheckErrorKind) (portal backing : Nat) : Except Fault α :=
  .error (.typeError ⟨kind, loc, op, .portal portal backing⟩)

/-- `check_portal_region` -/
def checkPortalRegion (c : Checker) (portal backing : Nat) : Except Fault Unit :=
  if portalRetargetable ctx func c portal = false then
    reportPortal op loc .portalNonLocal portal backing
  else if parScopeDepth c state portal < parScopeDepth c state backing then
    reportPortal op loc .portalBackingScope portal backing
  else .ok ()

/-- `OP_SLICE_FROM_AR`: a view holds the array as shared only. -/
def holdSliceFromAr (c : Checker) : Except Fault Checker :=
  match c.pars with
  | arr :: ref :: _ =>
      match kindAt func (parType ctx func c ref) with
      | some (.slice _) => do
          checkPortalRegion ctx func state op loc c ref arr
          c.addHold ref arr loc false
      | some (.view _) => do
          checkPortalRegion ctx func state op loc c ref arr
          c.addHold ref arr loc true
      | _ => .error .rejected
  | _ => .error .rejected

def holdSliceFromOne (c : Checker) : Except Fault Checker :=
  match c.pars with
  | elem :: ref :: _ => do
      checkPortalRegion ctx func state op loc c ref elem
      c.addHold ref elem loc false
  | _ => .error .rejected

/-- `OP_ASSIGN`: a portal that is assigned holds the one it is copied from. -/
def holdAssign (c : Checker) : Except Fault Checker :=
  match c.pars with
  | src :: dst :: _ =>
      if parIsPortal ctx func c dst = false then .ok c
      else if portalRetargetable ctx func c dst = false then
        reportPortal op loc .portalNonLocal dst src
      else if parIsPortal ctx func c src then do
        checkPortalRegion ctx func state op loc c dst src
        c.addHold dst src loc false
      else .ok c
  | _ => .error .rejected

/-- `type_check_first_pass_op` -/
def firstPassOp (c : Checker) : Except Fault Checker := do
  typeCheckOp ctx func op loc c
  match op.kind with
  | .sliceFromAr => holdSliceFromAr ctx func state op loc c
  | .sliceFromOne => holdSliceFromOne ctx func state op loc c
  | .assign => holdAssign ctx func state op loc c
  | _ => return c

end FirstPass

/-- A pass looks up the function it is in. -/
def inFunc (ctx : Context) (f : Func → ScanState → Op → CodeLoc → Checker → Except Fault Checker) :
    ScanOp :=
  fun current state op loc c =>
    match ctx.funcs[current]? with
    | none => .error .rejected
    | some func => f func state op loc c

/-- `type_check_first_pass` -/
def firstPass (ctx : Context) (fuel : Nat) (c : Checker) : Except Fault Checker :=
  scanFuncs ctx (inFunc ctx (firstPassOp ctx)) fuel c.clearHolds

/-! ## Borrows -/

/-- `PAR_IDX_INVALID` -/
def parIdxInvalid : Nat := 4294967295

/-- `BorrowCtx.first_mut` and the checker -/
structure Borrow where
  firstMut : Nat := parIdxInvalid
  checker : Checker
  deriving DecidableEq, Repr

section BorrowPar

variable (ctx : Context) (func : Func) (loc : CodeLoc)

/-- The place is in use in a way that excludes the new borrow. -/
def Life.excludes (life want : Life) : Prop :=
  life = .unique ∨ (life = .shared ∧ want = .unique)

instance (life want : Life) : Decidable (life.excludes want) :=
  inferInstanceAs (Decidable (_ ∨ _))

def Borrow.mark (b : Borrow) (idx : Nat) (h : Handle) (want : Life) : Borrow :=
  if want = .unique then
    { firstMut := idx
      checker := { b.checker with handles := b.checker.handles.set idx { h with life := .unique } } }
  else if h.life = .free then
    { b with
      checker := { b.checker with handles := b.checker.handles.set idx { h with life := .shared } } }
  else b

/-- `borrow_struct_fields` -/
def borrowStructFields (borrow : Nat → Life → Borrow → Except Fault Borrow) (idx : Nat)
    (want : Life) : List Nat → Borrow → Except Fault Borrow
  | [], b => .ok b
  | i :: fields, b => do
      let (field, c) := b.checker.intern ⟨.structField, i, idx⟩
      let b ← borrow field want { b with checker := c }
      borrowStructFields borrow idx want fields b

/-- The loop of `borrow_par` over the hold edges -/
def borrowHolds (borrow : Nat → Life → Borrow → Except Fault Borrow) (want : Life) :
    List HoldChain → Borrow → Except Fault Borrow
  | [], b => .ok b
  | hold :: holds, b => do
      let b ← borrow hold.par (if hold.justConst then .shared else want) b
      borrowHolds borrow want holds b

/-- `borrow_par` -/
def borrowPar : Nat → Nat → Life → Borrow → Except Fault Borrow
  | 0, _, _, _ => .error .outOfFuel
  | fuel + 1, idx, want, b =>
      match b.checker.handles[idx]? with
      | none => .error .rejected
      | some h =>
          if h.par.kind = .arrMember then borrowPar fuel h.par.parent want b
          else if h.life.excludes want then .error (.aliasError ⟨b.firstMut, idx, loc⟩)
          else do
            let b := b.mark idx h want
            let b ← borrowHolds (borrowPar fuel) want (b.checker.holdsOf h) b
            match kindAt func (parType ctx func b.checker idx) with
            | some (.struct fields) =>
                borrowStructFields (borrowPar fuel) idx want (List.range fields.length) b
            | _ => return b

/-- The loop of `borrow_check_sig` over the outputs -/
def borrowOuts (fuel : Nat) : List Nat → Borrow → Except Fault Borrow
  | [], b => .ok b
  | par :: pars, b => do
      let b ← borrowPar ctx func loc fuel par .unique { b with firstMut := par }
      borrowOuts fuel pars b

/-- The loop of `borrow_check_sig` over the inputs -/
def borrowIns (fuel : Nat) : List Nat → List SigInput → Borrow → Except Fault Borrow
  | par :: pars, input :: inputs, b => do
      if input.isMut then
        let tid := parType ctx func b.checker par
        if func.types.length ≤ tid ∨ ((func.types[tid]?).map Ty.isPortal).getD false then
          .error .rejected
        else
          let b ← borrowPar ctx func loc fuel par .unique { b with firstMut := par }
          borrowIns fuel pars inputs b
      else
        let b ← borrowPar ctx func loc fuel par .shared b
        borrowIns fuel pars inputs b
  | _, _, b => .ok b

/-- No place is in use. -/
def Checker.freeAll (c : Checker) : Checker :=
  { c with handles := c.handles.map fun h => { h with life := .free } }

/-- `borrow_check_sig`, with the places of the arguments in the order of the signature -/
def borrowCheckSig (fuel : Nat) (sig : Sig) (args : List Nat) (c : Checker) :
    Except Fault Checker := do
  let b ← borrowOuts ctx func loc fuel (args.take sig.outs.length) { checker := c.freeAll }
  let b ← borrowIns ctx func loc fuel (args.drop sig.outs.length) sig.ins b
  return b.checker

/-- `borrow_check_call` -/
def borrowCheckCall (fuel : Nat) (op : Op) (c : Checker) : Except Fault Checker :=
  match op.kind with
  | .call =>
      match ctx.funcs[op.extra.toNat]? with
      | none => .error .rejected
      | some callee =>
          let argc := callee.sig.outs.length + callee.sig.ins.length
          if c.pars.length < argc then .error .rejected
          else borrowCheckSig ctx func loc fuel callee.sig (c.args 0 argc) c
  | .callNativeOnStack =>
      match nativeSigOnStack ctx func c with
      | none => .error .rejected
      | some sig =>
          let argc := sig.outs.length + sig.ins.length
          if c.pars.length < argc + 1 then .error .rejected
          else borrowCheckSig ctx func loc fuel sig (c.args 1 argc) c
  | _ => .ok c

end BorrowPar

/-- The second pass of `borrow_check` -/
def borrowPass (ctx : Context) (fuel : Nat) (c : Checker) : Except Fault Checker :=
  scanFuncs ctx (inFunc ctx fun func _ op loc c => borrowCheckCall ctx func loc fuel op c) fuel c

/-- `borrow_check` -/
def borrowCheck (ctx : Context) (fuel : Nat) (c : Checker) : Except Fault Checker := do
  let c ← firstPass ctx fuel c
  borrowPass ctx fuel c

end TreeVM
