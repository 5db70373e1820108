import TreeVM.Compile.FuncSound
import TreeVM.Compile.Recursion

/-!
# What a compilation reads of its context

The compiler looks up the callees of the calls of a function and the globals that it pushes, and
nothing else of the context.

* `Func.Calls`, `Func.Pushes`: the numbers of these callees and globals;
* `SameReads`: two contexts that look the same to a function;
* `compileBlock_congr`, `compileState_congr`: then it is compiled to the same code;
* `asks_calls`: the callees that the compiler asks for are called.
-/

namespace TreeVM

/-- An operation calls function `j`. -/
def Func.Calls (f : Func) (j : Nat) : Prop :=
  ∃ op ∈ f.ops, op.kind = .call ∧ op.extra.toNat = j

/-- An operation pushes global `g`. -/
def Func.Pushes (f : Func) (g : Nat) : Prop :=
  ∃ op ∈ f.ops, op.kind = .pushGlobal ∧ op.extra.toNat = g

/-- What `f` looks up is the same in both contexts. -/
structure SameReads (f : Func) (ctx ctx' : Context) : Prop where
  funcs : ∀ j, f.Calls j → ctx'.funcs[j]? = ctx.funcs[j]?
  globals : ∀ g, f.Pushes g → ctx'.globals[g]? = ctx.globals[g]?

namespace SameReads

variable {f : Func} {ctx ctx' ctx'' : Context}

theorem trans (h : SameReads f ctx ctx') (h' : SameReads f ctx' ctx'') : SameReads f ctx ctx'' where
  funcs j hj := (h'.funcs j hj).trans (h.funcs j hj)
  globals g hg := (h'.globals g hg).trans (h.globals g hg)

end SameReads

/-! ## Blocks -/

section Blocks

variable {τ : Type}

/-- The environment with another context and other callees -/
def CompileEnv.over (env : CompileEnv τ) (ctx : Context) (callee : Nat → τ → Except τ τ) :
    CompileEnv τ :=
  ⟨env.func, env.types, ctx, env.place, callee⟩

variable {env : CompileEnv τ} {ctx : Context} {callee : Nat → τ → Except τ τ}

theorem compileOp_congr (hreads : SameReads env.func env.ctx ctx)
    (hcallee : ∀ j, env.func.Calls j → ∀ t, callee j t = env.callee j t) {op : Op}
    (hop : op ∈ env.func.ops) (c : Compiler τ) :
    compileOp (env.over ctx callee) c op = compileOp env c op := by
  cases hkind : op.kind
  case call =>
    have hcalls : env.func.Calls op.extra.toNat := ⟨op, hop, hkind, rfl⟩
    simp only [compileOp, hkind, compileFuncCall, CompileEnv.over, hreads.funcs _ hcalls,
      hcallee _ hcalls]
  case pushGlobal =>
    have hglobal := hreads.globals _ ⟨op, hop, hkind, rfl⟩
    simp only [compileOp, hkind, compilePushGlobal]
    rw [show (env.over ctx callee).ctx.globals[op.extra.toNat]? = _ from hglobal]
    rfl
  -- the other operations read types and locals only
  all_goals simp only [compileOp, hkind] <;> rfl

theorem compileOps_congr (hreads : SameReads env.func env.ctx ctx)
    (hcallee : ∀ j, env.func.Calls j → ∀ t, callee j t = env.callee j t) {ops : List Op}
    (hops : ∀ op ∈ ops, op ∈ env.func.ops) (c : Compiler τ) :
    compileOps (env.over ctx callee) ops c = compileOps env ops c := by
  induction ops generalizing c with
  | nil => rfl
  | cons op ops ih =>
      rw [compileOps, compileOps, compileOp_congr hreads hcallee (hops op List.mem_cons_self)]
      exact congrArg _ (funext fun c => ih (fun o ho => hops o (List.mem_cons_of_mem op ho)) c)

theorem compileBasic_congr (hreads : SameReads env.func env.ctx ctx)
    (hcallee : ∀ j, env.func.Calls j → ∀ t, callee j t = env.callee j t) (r : OpRange)
    (c : Compiler τ) : compileBasic (env.over ctx callee) c r = compileBasic env c r := by
  have hrange : opsIn (env.over ctx callee) r = opsIn env r := rfl
  rw [compileBasic, compileBasic, hrange]
  cases hops : opsIn env r with
  | none => rfl
  | some ops =>
      simp only [compileOps_congr hreads hcallee (fun op hop => opsIn_mem hops hop)]

theorem compileCond_congr (hreads : SameReads env.func env.ctx ctx)
    (hcallee : ∀ j, env.func.Calls j → ∀ t, callee j t = env.callee j t) (r : OpRange)
    (c : Compiler τ) : compileCond (env.over ctx callee) c r = compileCond env c r := by
  have hrange : opsIn (env.over ctx callee) r = opsIn env r := rfl
  rw [compileCond, compileCond, hrange]
  cases hops : opsIn env r with
  | none => rfl
  | some ops =>
      simp only [compileOps_congr hreads hcallee (fun op hop => opsIn_mem hops hop)]

theorem compileChildren_over (block : Nat → Compiler τ → Except τ (Reach × Compiler τ)) (fuel : Nat)
    (cur next : Option Nat) (r : Reach) (c : Compiler τ) :
    compileChildren (env.over ctx callee) block fuel cur next r c =
      compileChildren env block fuel cur next r c := by
  induction fuel generalizing cur next r c with
  | zero => cases cur <;> rfl
  | succ fuel ih =>
      cases cur with
      | none => rfl
      | some child =>
          simp only [compileChildren, ih]
          rfl

/-- A block is compiled in the same way when what the function reads is the same. -/
theorem compileBlock_congr (hreads : SameReads env.func env.ctx ctx)
    (hcallee : ∀ j, env.func.Calls j → ∀ t, callee j t = env.callee j t) (fuel i : Nat)
    (c : Compiler τ) :
    compileBlock (env.over ctx callee) fuel i c = compileBlock env fuel i c := by
  induction fuel generalizing i c with
  | zero => rfl
  | succ fuel ih =>
      have hblock : compileBlock (env.over ctx callee) fuel = compileBlock env fuel :=
        funext fun i => funext (ih i)
      have hblocks : (env.over ctx callee).func.blocks[i]? = env.func.blocks[i]? := rfl
      rw [compileBlock, compileBlock, hblock, hblocks]
      cases env.func.blocks[i]? with
      | none => rfl
      | some b =>
          cases b with
          | basic r => exact compileBasic_congr hreads hcallee r c
          | many cur next =>
              simp only [compileMany, compileChildren_over]
          | branch cond yes no =>
              simp only [compileBranch, compileCond_congr hreads hcallee]
          | chain _ _ | crash | hardCrash | crashPad _ _ | loop _ | brk _ | var _ _ | defer _ _ => rfl

end Blocks

/-! ## Functions -/

section Functions

variable {ctx ctx' : Context} {place : Nat → UInt64} {f : Func} {fuel : Nat} {t t' T : Table}
  {code : Code} {i j : Nat}

theorem compileBody_congr {τ : Type} {callee callee' : Nat → τ → Except τ τ}
    (hreads : SameReads f ctx ctx') (hcallee : ∀ j, f.Calls j → ∀ t, callee' j t = callee j t)
    (fuel : Nat) (t : τ) :
    compileBody ctx' place callee' fuel f t = compileBody ctx place callee fuel f t := by
  unfold compileBody
  cases hblocks : f.blocks with
  | nil => rfl
  | cons b bs =>
      cases htypes : layoutAll f.types with
      | none => rfl
      | some types =>
          let env : CompileEnv τ := ⟨f, types, ctx, place, callee⟩
          let c : Compiler τ := { vars := f.vars.map fun tid => { tid := tid }, table := t }
          have hblock : compileBlock (env.over ctx' callee') fuel 0 c = compileBlock env fuel 0 c :=
            compileBlock_congr hreads hcallee fuel 0 c
          exact congrArg (fun r => r >>= fun rc => finishFunc f rc.2) hblock

/-- A function is compiled in the same way in a context that looks the same to it and to all
functions of its own context. -/
theorem compileState_congr (hall : ∀ g ∈ ctx.funcs, SameReads g ctx ctx') (hf : SameReads f ctx ctx')
    (fuel : Nat) (t : Table) : compileState ctx' place fuel f t = compileState ctx place fuel f t := by
  induction fuel generalizing f t with
  | zero => rfl
  | succ fuel ih =>
      refine compileBody_congr hf (fun j hj t => ?_) fuel t
      simp only [contextFuncCode, hf.funcs j hj]
      cases hg : ctx.funcs[j]? with
      | none => rfl
      | some g =>
          -- the callee is one of the functions of the context
          simp only [ih (hall g (List.mem_of_getElem? hg))]

theorem compileFunc_congr (hall : ∀ g ∈ ctx.funcs, SameReads g ctx ctx') (hf : SameReads f ctx ctx')
    (fuel : Nat) (t : Table) : compileFunc ctx' place fuel f t = compileFunc ctx place fuel f t := by
  rw [compileFunc, compileFunc, compileState_congr hall hf]

/-- A callee that is refused unless it is called -/
def refusing (called : Nat → Prop) [DecidablePred called] (i : Nat) (t : Bool) : Except Bool Bool :=
  if called i then .ok t else .error false

theorem askAll_refusing {called : Nat → Prop} [DecidablePred called] {asks : List Nat}
    (hj : j ∈ asks) (hcalled : ¬ called j) : askAll (refusing called) asks true = .error false := by
  induction asks with
  | nil => cases hj
  | cons i asks ih =>
      by_cases hi : called i
      · rcases List.mem_cons.mp hj with rfl | hj
        · exact absurd hi hcalled
        · simp only [askAll, refusing, if_pos hi]
          exact ih hj
      · simp only [askAll, refusing, if_neg hi]
        rfl

theorem askAll_willing (asks : List Nat) : askAll (fun _ t => .ok t) asks true = .ok true := by
  induction asks with
  | nil => rfl
  | cons i asks ih => exact ih

/-- The compiler asks for callees of the function only. -/
theorem asks_calls (hj : j ∈ (f.plan ctx place fuel).asks) : f.Calls j := by
  classical
  by_contra hcalled
  -- refusing all others makes no difference to the compilation
  have hsame : compileBody ctx place (refusing f.Calls) fuel f true =
      compileBody ctx place (fun _ t => .ok t) fuel f true :=
    compileBody_congr ⟨fun _ _ => rfl, fun _ _ => rfl⟩ (fun j hj t => if_pos hj) fuel true
  rw [compileBody_eq_plan, compileBody_eq_plan, askAll_refusing hj hcalled, askAll_willing] at hsame
  cases hends : (f.plan ctx place fuel).ends with
  | none =>
      rw [hends] at hsame
      cases hsame
  | some c =>
      rw [hends] at hsame
      cases hsame

end Functions

end TreeVM
