import TreeVM.Compile.Visits

/-!
# What the compiler asks for

The compiler touches the table of callees only through `compile_context_func_code`.  So one
compilation asks for callees in a fixed order and ends in a fixed way, whatever the table is made
of and whatever the callees do to it.

* `askAll`: asking for callees one after the other, up to the first that is rejected;
* `Planned`: a piece of the compiler that asks for a fixed list and then has a fixed result;
* `Func.plan`: that list and that result for a whole function, read off a run that only records;
* `compileBody_eq_plan`: every compilation of the function carries out its plan.
-/

namespace TreeVM

/-- The same state over another table. -/
def Compiler.withTable {σ τ : Type} (c : Compiler σ) (t : τ) : Compiler τ :=
  ⟨c.code, c.log, c.params, c.vars, c.scopes, c.frameSize, c.crashDepth, t⟩

def CompileEnv.withCallee {σ τ : Type} (env : CompileEnv σ) (callee : Nat → τ → Except τ τ) :
    CompileEnv τ :=
  ⟨env.func, env.types, env.ctx, env.place, callee⟩

/-- Asking for callees one after the other. -/
def askAll {τ : Type} (callee : Nat → τ → Except τ τ) : List Nat → τ → Except τ τ
  | [], t => .ok t
  | i :: asks, t => do
      let t ← callee i t
      askAll callee asks t

/-- The end of a plan: the result over the table, or a rejection. -/
def endPlan {τ α β : Type} (fill : α → τ → β) (r : Option α) (t : τ) : Except τ β :=
  match r with
  | some a => .ok (fill a t)
  | none => .error t

/-- `x` asks for a fixed list of callees and then has a fixed result, which `fill` puts over the
table. -/
def Planned {α : Type} {β : Type → Type} (fill : ∀ τ, α → τ → β τ)
    (x : ∀ τ, (Nat → τ → Except τ τ) → τ → Except τ (β τ)) : Prop :=
  ∃ asks r, ∀ τ callee t, x τ callee t = askAll callee asks t >>= endPlan (fill τ) r

/-- States and results over a table. -/
def overTable (τ : Type) (c : Compiler Unit) (t : τ) : Compiler τ :=
  c.withTable t

def resultOver {α : Type} (τ : Type) (r : α × Compiler Unit) (t : τ) : α × Compiler τ :=
  (r.1, r.2.withTable t)

theorem askAll_append {τ : Type} {callee : Nat → τ → Except τ τ} (as bs : List Nat) (t : τ) :
    askAll callee (as ++ bs) t = askAll callee as t >>= askAll callee bs := by
  induction as generalizing t with
  | nil => rfl
  | cons a as ih =>
      simp only [List.cons_append, askAll, bind_assoc]
      cases callee a t with
      | error e => rfl
      | ok t => exact ih t

namespace Planned

variable {α α' : Type} {β β' : Type → Type} {fill : ∀ τ, α → τ → β τ} {fill' : ∀ τ, α' → τ → β' τ}
  {x : ∀ τ, (Nat → τ → Except τ τ) → τ → Except τ (β τ)}

theorem ok (a : α) (h : ∀ τ callee t, x τ callee t = .ok (fill τ a t)) : Planned fill x :=
  ⟨[], some a, h⟩

theorem error (h : ∀ τ callee t, x τ callee t = .error t) : Planned fill x :=
  ⟨[], none, h⟩

/-- Asking for one callee. -/
theorem ask (i : Nat) : Planned (fun _ (_ : Unit) t => t) fun _ callee t => callee i t := by
  refine ⟨[i], some (), fun τ callee t => ?_⟩
  simp only [askAll]
  cases callee i t <;> rfl

theorem bind {k : ∀ τ, (Nat → τ → Except τ τ) → β τ → Except τ (β' τ)} (hx : Planned fill x)
    (hk : ∀ a, Planned fill' fun τ callee t => k τ callee (fill τ a t)) :
    Planned fill' fun τ callee t => x τ callee t >>= fun b => k τ callee b := by
  obtain ⟨asks, r, hx⟩ := hx
  cases r with
  | none =>
      refine ⟨asks, none, fun τ callee t => ?_⟩
      simp only [hx]
      cases askAll callee asks t <;> rfl
  | some a =>
      obtain ⟨asks', r', hk⟩ := hk a
      refine ⟨asks ++ asks', r', fun τ callee t => ?_⟩
      simp only [hx, askAll_append]
      cases askAll callee asks t with
      | error e => rfl
      | ok t => exact hk τ callee t

theorem ite {p : Prop} [Decidable p] {y : ∀ τ, (Nat → τ → Except τ τ) → τ → Except τ (β τ)}
    (hx : p → Planned fill x) (hy : ¬ p → Planned fill y) :
    Planned fill fun τ callee t => if p then x τ callee t else y τ callee t := by
  by_cases hp : p
  · simp only [if_pos hp]
    exact hx hp
  · simp only [if_neg hp]
    exact hy hp

end Planned

/-! ## Operations -/

section Ops

variable {τ : Type} (env : CompileEnv Unit) (c : Compiler Unit) (callee : Nat → τ → Except τ τ) (t : τ)

/-- The outcome of a step that asks for no callee, over another table. -/
def outcomeOver (r : Except Unit (Compiler Unit)) (t : τ) : Except τ (Compiler τ) :=
  match r with
  | .ok c => .ok (c.withTable t)
  | .error _ => .error t

theorem Planned.quiet (r : Except Unit (Compiler Unit))
    {x : ∀ τ, (Nat → τ → Except τ τ) → τ → Except τ (Compiler τ)}
    (h : ∀ τ callee t, x τ callee t = outcomeOver r t) : Planned overTable x := by
  cases r with
  | ok c => exact .ok c h
  | error e => exact .error h

@[simp] theorem withTable_code : (c.withTable t).code = c.code :=
  rfl

@[simp] theorem withTable_params : (c.withTable t).params = c.params :=
  rfl

@[simp] theorem withTable_vars : (c.withTable t).vars = c.vars :=
  rfl

@[simp] theorem withTable_scopes : (c.withTable t).scopes = c.scopes :=
  rfl

@[simp] theorem withTable_save : (c.withTable t).save = c.save :=
  rfl

@[simp] theorem withTable_emit (i : Instr) : (c.withTable t).emit i = (c.emit i).withTable t :=
  rfl

@[simp] theorem withTable_restore (s : Saved) :
    (c.withTable t).restore s = (c.restore s).withTable t :=
  rfl

@[simp] theorem withTable_emitJump :
    emitJump (c.withTable t) = ((emitJump c).1, (emitJump c).2.withTable t) :=
  rfl

@[simp] theorem kindOf_withCallee (tid : Nat) : kindOf (env.withCallee callee) tid = kindOf env tid :=
  rfl

@[simp] theorem opsIn_withCallee (r : OpRange) : opsIn (env.withCallee callee) r = opsIn env r :=
  rfl

theorem outcomeOver_ite {p : Prop} [Decidable p] {x y : Except Unit (Compiler Unit)} :
    outcomeOver (if p then x else y) t = if p then outcomeOver x t else outcomeOver y t := by
  split <;> rfl

theorem compileBinary_over (f : Nat → Nat → Option (BinOp × Nat)) :
    compileBinary (c.withTable t) f = outcomeOver (compileBinary c f) t := by
  unfold compileBinary
  rw [withTable_params]
  rcases c.params with _ | ⟨rhs, _ | ⟨lhs, rest⟩⟩
  · rfl
  · rfl
  · simp only
    cases f lhs rhs <;> rfl

theorem compileNativeCall_over : compileNativeCall (env.withCallee callee) (c.withTable t) =
    outcomeOver (compileNativeCall env c) t := by
  unfold compileNativeCall
  rw [withTable_params]
  cases hparams : c.params with
  | nil => rfl
  | cons fn rest =>
      simp only [kindOf_withCallee]
      rcases kindOf env fn with _ | (_ | _ | _ | _ | _ | _ | sig)
      case some.nativeFunc =>
        simp only [outcomeOver_ite, Compiler.popTypes]
        rfl
      all_goals rfl

theorem emitPushVar_over (idx : Nat) :
    emitPushVar (c.withTable t) idx = outcomeOver (emitPushVar c idx) t := by
  unfold emitPushVar
  rw [withTable_vars]
  cases c.vars[idx]? with
  | none => rfl
  | some v =>
      simp only [outcomeOver_ite]
      rfl

theorem emitPushArg_over (idx : Nat) : emitPushArg (env.withCallee callee) (c.withTable t) idx =
    outcomeOver (emitPushArg env c idx) t := by
  unfold emitPushArg
  simp only [CompileEnv.withCallee]
  cases env.func.vars[idx]? with
  | none => rfl
  | some tid =>
      simp only [outcomeOver_ite]
      rfl

theorem compileStructAt_over (idx : Nat) :
    compileStructAt (env.withCallee callee) (c.withTable t) idx =
      outcomeOver (compileStructAt env c idx) t := by
  unfold compileStructAt
  rw [withTable_params]
  cases hparams : c.params with
  | nil => rfl
  | cons tid rest =>
      simp only [kindOf_withCallee]
      rcases kindOf env tid with _ | (_ | _ | _ | _ | _ | fields | _)
      case some.struct =>
        simp only
        cases fields[idx]? with
        | none => rfl
        | some x =>
            simp only [outcomeOver_ite]
            rfl
      all_goals rfl

theorem compilePushGlobal_over (idx : Nat) :
    compilePushGlobal (env.withCallee callee) (c.withTable t) idx =
      outcomeOver (compilePushGlobal env c idx) t := by
  unfold compilePushGlobal
  simp only [CompileEnv.withCallee]
  cases env.ctx.globals[idx]? with
  | none => rfl
  | some g =>
      simp only [outcomeOver_ite]
      rfl

theorem compileBitNot_over : compileBitNot (c.withTable t) = outcomeOver (compileBitNot c) t := by
  unfold compileBitNot
  rw [withTable_params]
  cases hparams : c.params with
  | nil => rfl
  | cons tid rest =>
      simp only [outcomeOver_ite]
      rfl

theorem popTypes_over (n : Nat) : (c.withTable t).popTypes n = outcomeOver (c.popTypes n) t := by
  simp only [Compiler.popTypes, withTable_params, outcomeOver_ite]
  rfl

theorem compileDrop_over (n : UInt16) :
    compileDrop (c.withTable t) n = outcomeOver (compileDrop c n) t := by
  unfold compileDrop
  rw [popTypes_over]
  cases c.popTypes n.toNat <;> rfl

theorem patch_over (pos target : Nat) :
    (c.withTable t).patch pos target = outcomeOver (c.patch pos target) t := by
  simp only [Compiler.patch, outcomeOver_ite]
  rfl

theorem emitStorageAdd_over (amount : Int16) :
    (c.withTable t).emitStorageAdd amount = outcomeOver (c.emitStorageAdd amount) t := by
  simp only [Compiler.emitStorageAdd, outcomeOver_ite]
  rfl

/-- `compile_func_call` behind the request for the callee. -/
def emitCall {σ : Type} (env : CompileEnv σ) (c : Compiler σ) (idx : Nat) :
    Except σ (Compiler σ) :=
  match env.ctx.funcs[idx]? with
  | none => c.fail
  | some f =>
      let argc := f.sig.outs.length + f.sig.ins.length
      if c.params.length < argc then c.fail
      else if Compiler.argTypes c.params argc ≠ f.sig.args then c.fail
      else (c.emit (.call (env.place idx) (UInt32.ofNat argc))).popTypes f.sig.ins.length

theorem emitCall_over (idx : Nat) : emitCall (env.withCallee callee) (c.withTable t) idx =
    outcomeOver (emitCall env c idx) t := by
  unfold emitCall
  simp only [CompileEnv.withCallee]
  cases env.ctx.funcs[idx]? with
  | none => rfl
  | some f =>
      simp only [outcomeOver_ite, Compiler.popTypes]
      rfl

theorem compileFuncCall_planned (idx : Nat) : Planned overTable fun _ callee t =>
    compileFuncCall (env.withCallee callee) (c.withTable t) idx := by
  change Planned overTable fun _ callee t =>
    callee idx t >>= fun t => emitCall (env.withCallee callee) (c.withTable t) idx
  exact .bind (.ask idx) fun _ => .quiet _ fun _ callee t => emitCall_over env c callee t idx

theorem compileOp_planned (op : Op) : Planned overTable fun _ callee t =>
    compileOp (env.withCallee callee) (c.withTable t) op := by
  obtain ⟨kind, extra⟩ := op
  cases kind with
  | null => exact .ok c fun _ _ _ => rfl
  | call => exact compileFuncCall_planned env c _
  | callNativeOnStack => exact .quiet _ fun _ callee t => compileNativeCall_over env c callee t
  | bitNotAssign => exact .quiet _ fun _ _ t => compileBitNot_over c t
  | drop => exact .quiet _ fun _ _ t => compileDrop_over c t extra
  | pushVar => exact .quiet _ fun _ _ t => emitPushVar_over c t _
  | pushArg => exact .quiet _ fun _ callee t => emitPushArg_over env c callee t _
  | pushGlobal => exact .quiet _ fun _ callee t => compilePushGlobal_over env c callee t _
  | structAt => exact .quiet _ fun _ callee t => compileStructAt_over env c callee t _
  | assign => exact .quiet _ fun _ _ t => compileBinary_over c t (assignTypes env)
  | arrAt => exact .quiet _ fun _ _ t => compileBinary_over c t (arrAtTypes env)
  | arrPush => exact .quiet _ fun _ _ t => compileBinary_over c t (arrPushTypes env)
  | arrDrop => exact .quiet _ fun _ _ t => compileBinary_over c t (arrDropTypes env)
  | sliceFromAr => exact .quiet _ fun _ _ t => compileBinary_over c t (sliceFromArrTypes env)
  | sliceFromOne => exact .quiet _ fun _ _ t => compileBinary_over c t (sliceFromOneTypes env)
  | sliceAt => exact .quiet _ fun _ _ t => compileBinary_over c t (sliceAtTypes env)
  | sliceInc => exact .quiet _ fun _ _ t => compileBinary_over c t (sliceMoveTypes env .sliceInc)
  | sliceDec => exact .quiet _ fun _ _ t => compileBinary_over c t (sliceMoveTypes env .sliceDec)
  | addAssign | subAssign | mulAssign | divAssign | andAssign | orAssign | xorAssign =>
      exact .quiet _ fun _ _ t => compileBinary_over c t (intArith _)

theorem compileOps_planned (ops : List Op) : Planned overTable fun _ callee t =>
    compileOps (env.withCallee callee) ops (c.withTable t) := by
  induction ops generalizing c with
  | nil => exact .ok c fun _ _ _ => rfl
  | cons op ops ih => exact .bind (compileOp_planned env c op) ih

end Ops

/-! ## Blocks -/

section Blocks

variable (env : CompileEnv Unit) (c : Compiler Unit)

theorem fail_planned {α : Type} {β : Type → Type} {fill : ∀ τ, α → τ → β τ} :
    Planned fill fun _ _ t => (c.withTable t).fail :=
  .error fun _ _ _ => rfl

/-- `compile_basic` behind the operations. -/
def basicEnd {τ : Type} (start : Nat) (c : Compiler τ) : Except τ (Reach × Compiler τ) :=
  if c.params.length < start then c.fail
  else
    let extra := UInt32.ofNat (c.params.length - start)
    if extra = 0 then return (.reachable, c)
    else do
      let c ← (c.emit (.dropN extra)).popTypes extra.toNat
      return (.reachable, c)

/-- `compile_cond` behind the operations. -/
def condEnd {τ : Type} (start : Nat) (c : Compiler τ) : Except τ (Compiler τ) :=
  if c.params.length ≠ start + 1 ∨ c.params.head? ≠ some intId then c.fail else return c

theorem basicEnd_planned (start : Nat) :
    Planned resultOver fun _ _ t => basicEnd start (c.withTable t) := by
  by_cases hshort : c.params.length < start
  · exact .error fun _ _ _ => if_pos hshort
  by_cases hextra : UInt32.ofNat (c.params.length - start) = 0
  · exact .ok (.reachable, c) fun _ _ _ => (if_neg hshort).trans (if_pos hextra)
  · have hdrop : Planned resultOver fun _ _ t =>
        (((c.emit (.dropN (UInt32.ofNat (c.params.length - start)))).withTable t).popTypes
          (UInt32.ofNat (c.params.length - start)).toNat) >>= fun c => pure (Reach.reachable, c) :=
      .bind (.quiet _ fun _ _ t => popTypes_over _ t _) fun c => .ok (.reachable, c) fun _ _ _ => rfl
    obtain ⟨asks, r, hdrop⟩ := hdrop
    exact ⟨asks, r, fun τ callee t =>
      ((if_neg hshort).trans (if_neg hextra)).trans (hdrop τ callee t)⟩

theorem condEnd_planned (start : Nat) :
    Planned overTable fun _ _ t => condEnd start (c.withTable t) := by
  by_cases h : c.params.length ≠ start + 1 ∨ c.params.head? ≠ some intId
  · exact .error fun _ _ _ => if_pos h
  · exact .ok c fun _ _ _ => if_neg h

theorem compileBasic_planned (r : OpRange) : Planned resultOver fun _ callee t =>
    compileBasic (env.withCallee callee) (c.withTable t) r := by
  unfold compileBasic
  simp only [opsIn_withCallee]
  cases opsIn env r with
  | none => exact fail_planned c
  | some ops =>
      change Planned resultOver fun _ callee t =>
        compileOps (env.withCallee callee) ops (c.withTable t) >>= fun c' =>
          basicEnd c.params.length c'
      exact .bind (compileOps_planned env c ops) fun c' => basicEnd_planned c' _

theorem compileCond_planned (r : OpRange) : Planned overTable fun _ callee t =>
    compileCond (env.withCallee callee) (c.withTable t) r := by
  unfold compileCond
  simp only [opsIn_withCallee]
  cases opsIn env r with
  | none => exact fail_planned c
  | some ops =>
      change Planned overTable fun _ callee t =>
        compileOps (env.withCallee callee) ops (c.withTable t) >>= fun c' =>
          condEnd c.params.length c'
      exact .bind (compileOps_planned env c ops) fun c' => condEnd_planned c' _

theorem patchAll_planned (target : Nat) (ps : List Nat) :
    Planned overTable fun _ _ t => Compiler.patchAll target ps (c.withTable t) := by
  induction ps generalizing c with
  | nil => exact .ok c fun _ _ _ => rfl
  | cons pos ps ih => exact .bind (.quiet _ fun _ _ t => patch_over c t pos target) ih

theorem finishScope_planned : Planned resultOver fun _ _ t => (c.withTable t).finishScope := by
  unfold Compiler.finishScope
  simp only [withTable_scopes]
  cases c.scopes with
  | nil => exact fail_planned c
  | cons s rest =>
      exact .bind (patchAll_planned c c.code.length s.patches) fun c' =>
        .ok (!s.patches.isEmpty, { c' with scopes := rest }) fun _ _ _ => rfl

theorem endScope_planned (r : Reach) :
    Planned resultOver fun _ _ t => endScope r (c.withTable t) :=
  .bind (finishScope_planned c) fun a =>
    .ok (if r = .reachable ∨ a.1 then .reachable else .unreachable, a.2) fun _ _ _ => rfl

theorem emitPops_over {τ : Type} (t : τ) (n : Nat) :
    emitPops n (c.withTable t) = (emitPops n c).withTable t := by
  induction n generalizing c with
  | zero => rfl
  | succ n ih => exact ih (c.emit .popCrash)

theorem compileBreak_planned (level : Nat) :
    Planned resultOver fun _ _ t => compileBreak (c.withTable t) level := by
  cases level with
  | zero => exact fail_planned c
  | succ outer =>
      simp only [compileBreak, withTable_scopes]
      cases c.scopes[outer]? with
      | none => exact fail_planned c
      | some target =>
          have hpops : ∀ {τ : Type} (t : τ),
              emitPops ((c.withTable t).crashDepth - target.crashDepth) (c.withTable t) =
                (emitPops (c.crashDepth - target.crashDepth) c).withTable t :=
            fun t => emitPops_over c t _
          simp only [hpops]
          generalize emitPops (c.crashDepth - target.crashDepth) c = c₁
          by_cases hcleanup : target.frameSize - c₁.frameSize = 0
          · refine .ok (.unreachable, (emitJump c₁).2.addPatch (outer + 1) (emitJump c₁).1)
              fun _ _ t => ?_
            have hcleanup : target.frameSize - (c₁.withTable t).frameSize = 0 := hcleanup
            simp only [if_pos hcleanup]
            rfl
          · refine .ok (.unreachable, (emitJump (c₁.emit (.storageAdd
              (target.frameSize - c₁.frameSize)))).2.addPatch (outer + 1) (emitJump (c₁.emit
                (.storageAdd (target.frameSize - c₁.frameSize)))).1) fun _ _ t => ?_
            have hcleanup : ¬ target.frameSize - (c₁.withTable t).frameSize = 0 := hcleanup
            simp only [if_neg hcleanup]
            rfl

/-- The recursive calls of `compile_block`, for every kind of table. -/
abbrev BlockFamily :=
  ∀ τ, (Nat → τ → Except τ τ) → Nat → Compiler τ → Except τ (Reach × Compiler τ)

variable {env c} {block : BlockFamily}
  (hblock : ∀ i (c : Compiler Unit), Planned resultOver fun τ callee t =>
    block τ callee i (c.withTable t))

include hblock

theorem compileChildren_planned (fuel : Nat) (cur next : Option Nat) (r : Reach) :
    Planned resultOver fun τ callee t =>
      compileChildren (env.withCallee callee) (block τ callee) fuel cur next r (c.withTable t) := by
  induction fuel generalizing cur next r c with
  | zero =>
      cases cur with
      | none => exact .ok (r, c) fun _ _ _ => rfl
      | some child => exact fail_planned c
  | succ fuel ih =>
      cases cur with
      | none => exact .ok (r, c) fun _ _ _ => rfl
      | some child =>
          have hchild : Planned resultOver fun τ callee t =>
              if r = .reachable then block τ callee child (c.withTable t)
              else pure (r, c.withTable t) :=
            .ite (fun _ => hblock child c) fun _ => .ok (r, c) fun _ _ _ => rfl
          simp only [compileChildren, ite_bind]
          refine hchild.bind fun a => ?_
          cases next with
          | none => exact .ok a fun _ _ _ => rfl
          | some l =>
              simp only [CompileEnv.withCallee, resultOver]
              rcases env.func.blocks[l]? with _ | (_ | _ | _ | ⟨cur, next⟩ | _ | _ | _ | _ | _ | _ | _)
              case some.chain => exact ih cur next a.1
              all_goals exact fail_planned a.2

theorem compileMany_planned (fuel : Nat) (cur next : Option Nat) :
    Planned resultOver fun τ callee t =>
      compileMany (env.withCallee callee) (block τ callee) fuel cur next (c.withTable t) :=
  .bind (compileChildren_planned hblock (c := c.pushScope c.frameSize) fuel cur next .reachable)
    fun a => endScope_planned a.2 a.1

/-- `compile_var` behind the body. -/
def varEnd {τ : Type} (v : Nat) (size oldFrame : Int16) (r : Reach) (c : Compiler τ) :
    Except τ (Reach × Compiler τ) := do
  let c ← if r = .reachable then (setLive c v false).emitStorageAdd (-size) else pure c
  let (r, c) ← endScope r c
  return (r, { setLive c v false with frameSize := oldFrame })

omit hblock in
theorem varEnd_planned (v : Nat) (size oldFrame : Int16) (r : Reach) (c : Compiler Unit) :
    Planned resultOver fun _ _ t => varEnd v size oldFrame r (c.withTable t) := by
  have hclose : Planned overTable fun _ _ t =>
      if r = .reachable then (setLive (c.withTable t) v false).emitStorageAdd (-size)
      else pure (c.withTable t) :=
    .ite (fun _ => .quiet _ fun _ _ t => emitStorageAdd_over (setLive c v false) t (-size))
      fun _ => .ok c fun _ _ _ => rfl
  simp only [varEnd, ite_bind]
  refine hclose.bind fun c => .bind (endScope_planned c r) fun a => ?_
  exact .ok (a.1, { setLive a.2 v false with frameSize := oldFrame }) fun _ _ _ => rfl

theorem compileVar_planned (v body : Nat) : Planned resultOver fun τ callee t =>
    compileVar (env.withCallee callee) (block τ callee) v body (c.withTable t) := by
  unfold compileVar
  simp only [CompileEnv.withCallee]
  cases env.func.vars[v]? with
  | none => exact fail_planned c
  | some tid =>
      simp only
      cases env.types[tid]? with
      | none => exact fail_planned c
      | some ty =>
          simp only
          refine .ite (fun _ => fail_planned c) fun _ => ?_
          let c₁ : Compiler Unit :=
            { c.pushScope c.frameSize with vars := c.vars.set v ⟨tid, c.frameSize, true⟩ }
          let size := Int16.ofNat ty.size.toNat
          change Planned resultOver fun τ callee t =>
            (c₁.withTable t).emitStorageAdd size >>= fun c' =>
              block τ callee body c' >>= fun a => varEnd v size c.frameSize a.1 a.2
          exact .bind (.quiet _ fun _ _ t => emitStorageAdd_over c₁ t size) fun c' =>
            .bind (hblock body c') fun a => varEnd_planned v size c.frameSize a.1 a.2

omit hblock in
theorem branchYes_planned (cond : OpRange) : Planned resultOver fun _ callee t =>
    branchYes (env.withCallee callee) cond (c.withTable t) := by
  refine .bind (compileCond_planned env c cond) fun c₁ => ?_
  simp only [overTable, withTable_emit, withTable_code]
  refine .bind (.quiet _ fun _ _ t => popTypes_over (c₁.emit (.branchTop 0 0)) t 1) fun c₂ => ?_
  simp only [overTable, withTable_code]
  exact .bind (.quiet _ fun _ _ t => patch_over c₂ t (c₁.code.length + 1) c₂.code.length)
    fun c₃ => .ok (c₁.code.length + 3, c₃) fun _ _ _ => rfl

omit hblock in
theorem branchNo_planned (before : Saved) (noPatch : Nat) (r : Reach) (c : Compiler Unit) :
    Planned resultOver fun _ _ t => branchNo before noPatch r (c.withTable t) := by
  cases r with
  | reachable =>
      simp only [branchNo, if_true, withTable_emitJump, withTable_restore, withTable_code]
      exact .bind (.quiet _ fun _ _ t => patch_over _ t _ _) fun c' =>
        .ok ((emitJump c).1, c') fun _ _ _ => rfl
  | unreachable =>
      simp only [branchNo, reduceCtorEq, if_false, withTable_restore, withTable_code]
      exact .bind (.quiet _ fun _ _ t => patch_over _ t _ _) fun c' => .ok (0, c') fun _ _ _ => rfl

omit hblock in
theorem branchJoin_planned (endPatch : Nat) (yesR : Reach) (yesState : Saved) (noR : Reach)
    (c : Compiler Unit) :
    Planned resultOver fun _ _ t => branchJoin endPatch yesR yesState noR (c.withTable t) := by
  have hpatch : Planned overTable fun _ _ t => (c.withTable t).patch endPatch c.code.length :=
    .quiet _ fun _ _ t => patch_over c t endPatch c.code.length
  cases yesR with
  | reachable =>
      cases noR with
      | reachable =>
          change Planned resultOver fun _ _ t =>
            (c.withTable t).patch endPatch c.code.length >>= fun c' =>
              if (c'.restore yesState).save = c.save then pure (Reach.reachable, c'.restore yesState)
              else (c'.restore yesState).fail
          refine hpatch.bind fun c' => ?_
          by_cases hsame : (c'.restore yesState).save = c.save
          · exact .ok (.reachable, c'.restore yesState) fun _ _ _ => if_pos hsame
          · exact .error fun _ _ _ => if_neg hsame
      | unreachable =>
          exact hpatch.bind fun c' => .ok (.reachable, c'.restore yesState) fun _ _ _ => rfl
  | unreachable =>
      cases noR with
      | reachable => exact .ok (.reachable, c.restore c.save) fun _ _ _ => rfl
      | unreachable => exact .ok (.unreachable, c) fun _ _ _ => rfl

theorem compileBranch_planned (cond : OpRange) (yes no : Nat) :
    Planned resultOver fun τ callee t =>
      compileBranch (env.withCallee callee) (block τ callee) cond yes no (c.withTable t) := by
  simp only [compileBranch_eq, compileArms, bind_assoc, pure_bind, withTable_save]
  refine .bind (branchYes_planned cond) fun a => ?_
  simp only [resultOver]
  refine .bind (hblock yes a.2) fun b => ?_
  simp only [resultOver, withTable_save]
  refine .bind (branchNo_planned c.save a.1 b.1 b.2) fun d => ?_
  simp only [resultOver]
  exact .bind (hblock no d.2) fun e => branchJoin_planned d.1 b.1 b.2.save e.1 e.2

/-- `compile_loop` behind the body. -/
def loopEnd {τ : Type} (start : Nat) (head : Saved) (r : Reach) (c : Compiler τ) :
    Except τ (Reach × Compiler τ) := do
  let c ←
    if r = .reachable then
      if c.save = head then pure (c.emit (.jump (UInt16.ofNat start))) else c.fail
    else pure c
  let (hadBreaks, c) ← c.finishScope
  return (if hadBreaks then .reachable else .unreachable, c.restore head)

omit hblock in
theorem loopEnd_planned (start : Nat) (head : Saved) (r : Reach) (c : Compiler Unit) :
    Planned resultOver fun _ _ t => loopEnd start head r (c.withTable t) := by
  have hback : Planned overTable fun _ _ t =>
      if r = .reachable then
        if (c.withTable t).save = head then pure ((c.withTable t).emit (.jump (UInt16.ofNat start)))
        else (c.withTable t).fail
      else pure (c.withTable t) := by
    refine .ite (fun _ => ?_) fun _ => .ok c fun _ _ _ => rfl
    by_cases hsave : c.save = head
    · exact .ok (c.emit (.jump (UInt16.ofNat start))) fun _ _ _ => if_pos hsave
    · exact .error fun _ _ _ => if_neg hsave
  simp only [loopEnd, ite_bind]
  refine hback.bind fun c => .bind (finishScope_planned c) fun a => ?_
  exact .ok (if a.1 then .reachable else .unreachable, a.2.restore head) fun _ _ _ => rfl

theorem compileLoop_planned (body : Nat) : Planned resultOver fun τ callee t =>
    compileLoop (block τ callee) body (c.withTable t) := by
  change Planned resultOver fun τ callee t =>
    block τ callee body ((c.pushScope c.frameSize).withTable t) >>= fun a =>
      loopEnd c.code.length c.save a.1 a.2
  exact .bind (hblock body (c.pushScope c.frameSize)) fun a =>
    loopEnd_planned c.code.length c.save a.1 a.2

omit hblock in
theorem padHandler_planned (before : Saved) (padPatch : Nat) (r : Reach) (c : Compiler Unit) :
    Planned resultOver fun _ _ t => padHandler before padPatch r (c.withTable t) := by
  have hclosed : ∀ {τ : Type} (t : τ),
      padClosed r (c.withTable t) = (padClosed r c).withTable t := by
    intro τ t
    cases r <;> rfl
  cases r with
  | reachable =>
      simp only [padHandler, hclosed, if_true, withTable_emitJump, withTable_restore, withTable_code]
      exact .bind (.quiet _ fun _ _ t => patch_over _ t _ _) fun c' =>
        .ok ((emitJump (padClosed .reachable c)).1, c') fun _ _ _ => rfl
  | unreachable =>
      simp only [padHandler, hclosed, reduceCtorEq, if_false, withTable_restore, withTable_code]
      exact .bind (.quiet _ fun _ _ t => patch_over _ t _ _) fun c' => .ok (0, c') fun _ _ _ => rfl

omit hblock in
theorem padEnd_planned (endPatch : Nat) (bodyR : Reach) (bodyState : Saved) (padR : Reach)
    (c : Compiler Unit) :
    Planned resultOver fun _ _ t => padEnd endPatch bodyR bodyState padR (c.withTable t) := by
  let c₁ := if padR = .reachable then c.emit .crash else c
  have hcrash : ∀ {τ : Type} (t : τ),
      (if padR = .reachable then (c.withTable t).emit .crash else c.withTable t) = c₁.withTable t := by
    intro τ t
    cases padR <;> rfl
  cases bodyR with
  | reachable =>
      simp only [padEnd, hcrash, if_true]
      exact .bind (.quiet _ fun _ _ t => patch_over c₁ t endPatch c₁.code.length) fun c' =>
        .ok (.reachable, c'.restore bodyState) fun _ _ _ => rfl
  | unreachable =>
      simp only [padEnd, hcrash, reduceCtorEq, if_false]
      exact .ok (.unreachable, c₁) fun _ _ _ => rfl

theorem compileCrashPad_planned (body pad : Nat) : Planned resultOver fun τ callee t =>
    compileCrashPad (block τ callee) body pad (c.withTable t) := by
  simp only [compileCrashPad_eq, withTable_save, withTable_code]
  refine .bind (hblock body (padBody c)) fun a => ?_
  simp only [resultOver]
  have hclosed : ∀ {τ : Type} (t : τ),
      (padClosed a.1 (a.2.withTable t)).save = (padClosed a.1 a.2).save := by
    intro τ t
    cases a.1 <;> rfl
  simp only [hclosed]
  refine .bind (padHandler_planned c.save (c.code.length + 1) a.1 a.2) fun d => ?_
  simp only [resultOver]
  exact .bind (hblock pad d.2) fun e => padEnd_planned d.1 a.1 (padClosed a.1 a.2).save e.1 e.2

end Blocks

theorem compileBlock_planned (env : CompileEnv Unit) (fuel i : Nat) (c : Compiler Unit) :
    Planned resultOver fun _ callee t =>
      compileBlock (env.withCallee callee) fuel i (c.withTable t) := by
  induction fuel generalizing i c with
  | zero => exact fail_planned c
  | succ fuel ih =>
      simp only [compileBlock, CompileEnv.withCallee]
      cases env.func.blocks[i]? with
      | none => exact fail_planned c
      | some b =>
          cases b with
          | basic r => exact compileBasic_planned env c r
          | many cur next => exact compileMany_planned ih fuel cur next
          | chain _ _ => exact fail_planned c
          | crash => exact .ok (.unreachable, c.emit .crash) fun _ _ _ => rfl
          | hardCrash => exact .ok (.unreachable, c.emit .hardCrash) fun _ _ _ => rfl
          | crashPad body pad => exact compileCrashPad_planned ih body pad
          | branch cond yes no => exact compileBranch_planned ih cond yes no
          | loop body => exact compileLoop_planned ih body
          | brk level => exact compileBreak_planned c level
          | var v body => exact compileVar_planned ih v body
          | defer _ _ => exact fail_planned c

/-! ## Functions -/

theorem finishFunc_over {τ : Type} (f : Func) (c : Compiler Unit) (t : τ) :
    finishFunc f (c.withTable t) = outcomeOver (finishFunc f c) t := by
  unfold finishFunc
  by_cases hins : 2 ^ 32 ≤ f.sig.ins.length
  · simp only [if_pos hins]
    rfl
  · simp only [if_neg hins]
    split <;> rfl

/-- What the compilation of a function asks for, and the compiler at its end unless the function
is rejected for another reason than a callee. -/
structure Plan where
  asks : List Nat
  ends : Option (Compiler Unit)

/-- A function compiled with callees that are only recorded. -/
def Func.plan (f : Func) (ctx : Context) (place : Nat → UInt64) (fuel : Nat) : Plan :=
  match compileBody ctx place (fun i asked => .ok (asked ++ [i])) fuel f [] with
  | .ok c => ⟨c.table, some (c.withTable ())⟩
  | .error asked => ⟨asked, none⟩

theorem compileBody_planned (f : Func) (ctx : Context) (place : Nat → UInt64) (fuel : Nat) :
    Planned overTable fun _ callee t => compileBody ctx place callee fuel f t := by
  unfold compileBody
  cases hblocks : f.blocks with
  | nil => exact .error fun _ _ _ => rfl
  | cons b bs =>
      cases htypes : layoutAll f.types with
      | none => exact .error fun _ _ _ => rfl
      | some types =>
          let env : CompileEnv Unit := ⟨f, types, ctx, place, fun _ t => .ok t⟩
          exact .bind (compileBlock_planned env fuel 0 
            { vars := f.vars.map fun tid => { tid := tid }, table := () }) fun a =>
            .quiet _ fun _ _ t => finishFunc_over f a.2 t

theorem askAll_record (asks asked : List Nat) :
    askAll (fun i asked => .ok (asked ++ [i])) asks asked = .ok (asked ++ asks) := by
  induction asks generalizing asked with
  | nil => simp [askAll]
  | cons i asks ih =>
      change askAll _ asks (asked ++ [i]) = _
      rw [ih, List.append_assoc, List.singleton_append]

/-- Every compilation of a function carries out its plan. -/
theorem compileBody_eq_plan {τ : Type} (f : Func) (ctx : Context) (place : Nat → UInt64)
    (fuel : Nat) (callee : Nat → τ → Except τ τ) (t : τ) :
    compileBody ctx place callee fuel f t =
      askAll callee (f.plan ctx place fuel).asks t >>=
        endPlan (overTable τ) (f.plan ctx place fuel).ends := by
  obtain ⟨asks, r, h⟩ := compileBody_planned f ctx place fuel
  simp only at h
  have hplan : f.plan ctx place fuel = ⟨asks, r⟩ := by
    rw [Func.plan, h, askAll_record]
    cases r <;> rfl
  rw [hplan]
  exact h τ callee t

end TreeVM
