import TreeVM.Compile.Compiler
import TreeVM.Logic.Results

/-!
# The blocks that the compiler gets to

`compile_block` calls itself for the parts of a block.  The states in which it does so are those
of `Visits`; to name them, `compile_branch` and `compile_crash_pad` are cut where they call
`compile_block`.
-/

namespace TreeVM

/-! ## Branches and pads in parts -/

section Parts

variable {τ : Type} (env : CompileEnv τ)

/-- `compile_branch` up to the first arm: also tells where the operand for the second arm
stands. -/
def branchYes (cond : OpRange) (c : Compiler τ) : Except τ (Nat × Compiler τ) := do
  let c ← compileCond env c cond
  let tested ← (c.emit (.branchTop 0 0)).popTypes 1
  let entered ← tested.patch (c.code.length + 1) tested.code.length
  return (c.code.length + 3, entered)

/-- `compile_branch` between the arms: also tells where the operand of the jump over the second
arm stands. -/
def branchNo (before : Saved) (noPatch : Nat) (yesR : Reach) (c : Compiler τ) :
    Except τ (Nat × Compiler τ) := do
  let (endPatch, c) := if yesR = .reachable then emitJump c else (0, c)
  let c := c.restore before
  let entered ← c.patch noPatch c.code.length
  return (endPatch, entered)

/-- `compile_branch` behind the arms. -/
def branchJoin (endPatch : Nat) (yesR : Reach) (yesState : Saved) (noR : Reach) (c : Compiler τ) :
    Except τ (Reach × Compiler τ) := do
  let noState := c.save
  let c ← if yesR = .reachable then c.patch endPatch c.code.length else pure c
  match yesR, noR with
  | .reachable, .reachable =>
      let c := c.restore yesState
      if c.save = noState then return (.reachable, c) else c.fail
  | .reachable, .unreachable => return (.reachable, c.restore yesState)
  | .unreachable, .reachable => return (.reachable, c.restore noState)
  | .unreachable, .unreachable => return (.unreachable, c)

structure Arms (τ : Type := Table) where
  endPatch : Nat
  yesR : Reach
  yesState : Saved
  noR : Reach
  last : Compiler τ

/-- `compile_branch` up to the end of the second arm. -/
def compileArms (block : Nat → Compiler τ → Except τ (Reach × Compiler τ)) (cond : OpRange)
    (yes no : Nat) (c : Compiler τ) : Except τ (Arms τ) := do
  let (noPatch, c₁) ← branchYes env cond c
  let (yesR, c₂) ← block yes c₁
  let (endPatch, c₃) ← branchNo c.save noPatch yesR c₂
  let (noR, c₄) ← block no c₃
  return ⟨endPatch, yesR, c₂.save, noR, c₄⟩

theorem compileBranch_eq {block : Nat → Compiler τ → Except τ (Reach × Compiler τ)}
    {cond : OpRange} {yes no : Nat} {c : Compiler τ} :
    compileBranch env block cond yes no c =
      (compileArms env block cond yes no c >>= fun arms =>
        branchJoin arms.endPatch arms.yesR arms.yesState arms.noR arms.last) := by
  simp only [compileBranch, compileArms, branchYes, branchNo, bind_assoc, pure_bind]
  rfl

/-- `compile_crash_pad` up to the body. -/
def padBody (c : Compiler τ) : Compiler τ :=
  { c.emit (.pushCrash 0) with crashDepth := c.crashDepth + 1 }

/-- The state at the end of the body of a pad, the pad removed. -/
def padClosed (bodyR : Reach) (c : Compiler τ) : Compiler τ :=
  if bodyR = .reachable then { c.emit .popCrash with crashDepth := c.crashDepth - 1 } else c

/-- `compile_crash_pad` between the body and the handler: also tells where the operand of the jump
over the handler stands. -/
def padHandler (before : Saved) (padPatch : Nat) (bodyR : Reach) (c : Compiler τ) :
    Except τ (Nat × Compiler τ) := do
  let (endPatch, c) := if bodyR = .reachable then emitJump (padClosed bodyR c)
    else (0, padClosed bodyR c)
  let c := c.restore before
  let entered ← c.patch padPatch c.code.length
  return (endPatch, entered)

/-- `compile_crash_pad` behind the handler. -/
def padEnd (endPatch : Nat) (bodyR : Reach) (bodyState : Saved) (padR : Reach) (c : Compiler τ) :
    Except τ (Reach × Compiler τ) := do
  let c := if padR = .reachable then c.emit .crash else c
  let c ← if bodyR = .reachable then c.patch endPatch c.code.length else pure c
  if bodyR = .reachable then return (.reachable, c.restore bodyState) else return (.unreachable, c)

theorem compileCrashPad_eq {block : Nat → Compiler τ → Except τ (Reach × Compiler τ)}
    {body pad : Nat} {c : Compiler τ} :
    compileCrashPad block body pad c = (do
      let (bodyR, c₁) ← block body (padBody c)
      let (endPatch, c₂) ← padHandler c.save (c.code.length + 1) bodyR c₁
      let (padR, c₃) ← block pad c₂
      padEnd endPatch bodyR (padClosed bodyR c₁).save padR c₃) := by
  simp only [compileCrashPad, padHandler, bind_assoc, pure_bind]
  rfl

end Parts

/-! ## Visits -/

/-- The children that `compile_many` compiles, and their states. -/
inductive ChildAt (env : CompileEnv) (block : Nat → Compiler → Except Table (Reach × Compiler)) :
    Option Nat → Option Nat → Compiler → Nat → Compiler → Prop
  | here {child : Nat} {link : Option Nat} {c : Compiler} :
      ChildAt env block (some child) link c child c
  | later {child l j : Nat} {cur next : Option Nat} {c c₁ c' : Compiler}
      (hchild : block child c = .ok (.reachable, c₁))
      (hlink : env.func.blocks[l]? = some (.chain cur next))
      (hrest : ChildAt env block cur next c₁ j c') : ChildAt env block (some child) (some l) c j c'

/-- The compiler at the start of a function. -/
def Compiler.start (f : Func) (t : Table) : Compiler :=
  { vars := f.vars.map fun tid => { tid := tid }, table := t }

/-- `Visits env start t fuel i c`: when the function is compiled with the fuel `start` and the
table `t`, `compile_block` is called for block `i` in the state `c`. -/
inductive Visits (env : CompileEnv) (start : Nat) (t : Table) : Nat → Nat → Compiler → Prop
  | root : Visits env start t start 0 (.start env.func t)
  | child {fuel i j : Nat} {cur next : Option Nat} {c c' : Compiler}
      (h : Visits env start t (fuel + 1) i c) (hblock : env.func.blocks[i]? = some (.many cur next))
      (hchild : ChildAt env (compileBlock env fuel) cur next (c.pushScope c.frameSize) j c') :
      Visits env start t fuel j c'
  | varBody {fuel i v body tid : Nat} {ty : Ty} {c c' : Compiler}
      (h : Visits env start t (fuel + 1) i c) (hblock : env.func.blocks[i]? = some (.var v body))
      (htid : env.func.vars[v]? = some tid) (hty : env.types[tid]? = some ty)
      (hsize : ty.size.toNat ≤ 32767)
      (hadd : { c.pushScope c.frameSize with vars := c.vars.set v ⟨tid, c.frameSize, true⟩
        }.emitStorageAdd (Int16.ofNat ty.size.toNat) = .ok c') : Visits env start t fuel body c'
  | yes {fuel i yes no noPatch : Nat} {cond : OpRange} {c c' : Compiler}
      (h : Visits env start t (fuel + 1) i c)
      (hblock : env.func.blocks[i]? = some (.branch cond yes no))
      (hyes : branchYes env cond c = .ok (noPatch, c')) : Visits env start t fuel yes c'
  | no {fuel i yes no noPatch endPatch : Nat} {cond : OpRange} {r : Reach}
      {c c₁ c₂ c' : Compiler} (h : Visits env start t (fuel + 1) i c)
      (hblock : env.func.blocks[i]? = some (.branch cond yes no))
      (hyes : branchYes env cond c = .ok (noPatch, c₁))
      (harm : compileBlock env fuel yes c₁ = .ok (r, c₂))
      (hno : branchNo c.save noPatch r c₂ = .ok (endPatch, c')) : Visits env start t fuel no c'
  | loopBody {fuel i body : Nat} {c : Compiler} (h : Visits env start t (fuel + 1) i c)
      (hblock : env.func.blocks[i]? = some (.loop body)) :
      Visits env start t fuel body (c.pushScope c.frameSize)
  | padBody {fuel i body pad : Nat} {c : Compiler} (h : Visits env start t (fuel + 1) i c)
      (hblock : env.func.blocks[i]? = some (.crashPad body pad)) :
      Visits env start t fuel body (padBody c)
  | pad {fuel i body pad endPatch : Nat} {r : Reach} {c c₁ c' : Compiler}
      (h : Visits env start t (fuel + 1) i c)
      (hblock : env.func.blocks[i]? = some (.crashPad body pad))
      (hbody : compileBlock env fuel body (padBody c) = .ok (r, c₁))
      (hpad : padHandler c.save (c.code.length + 1) r c₁ = .ok (endPatch, c')) :
      Visits env start t fuel pad c'

end TreeVM
