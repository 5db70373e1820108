import TreeVM.Compile.Entered
import TreeVM.Compile.Instructions

/-!
# The targets of calls

* `Func.calls`: the functions that the `OP_CALL`s of a function name, in the order in which
  `compile_block` comes to them;
* `WritesCalls`: a part of the compiler that writes the `B_CALL`s of a list of functions;
* `plan_calls`: the `B_CALL`s in the code of a function are those of its `OP_CALL`s, in their order.
-/

namespace TreeVM

/-! ## The calls of a function -/

/-- The functions that operations call. -/
def Op.calls (ops : List Op) : List Nat :=
  ops.filterMap fun op => if op.kind = .call then some op.extra.toNat else none

def Func.rangeCalls (f : Func) (r : OpRange) : List Nat :=
  Op.calls ((f.ops.drop r.start).take r.len)

section Calls

variable (env : CompileEnv)

/-- Children behind one whose end is not reached are not compiled. -/
def childrenCalls (block : Nat → List Nat) (blockOutline : Nat → Outline) :
    Nat → Option Nat → Option Nat → List Nat
  | _, none, _ => []
  | 0, some _, _ => []
  | fuel + 1, some child, link =>
      block child ++
        if (blockOutline child).reach = .reachable then
          match link.bind (env.func.blocks[·]?) with
          | some (.chain cur next) => childrenCalls block blockOutline fuel cur next
          | _ => []
        else []

def blockCalls : Nat → Nat → List Nat
  | 0, _ => []
  | fuel + 1, idx =>
      match env.func.blocks[idx]? with
      | some (.basic r) => env.func.rangeCalls r
      | some (.many cur next) => childrenCalls env (blockCalls fuel) (outline env fuel) fuel cur next
      | some (.crashPad body pad) => blockCalls fuel body ++ blockCalls fuel pad
      | some (.branch cond yes no) =>
          env.func.rangeCalls cond ++ blockCalls fuel yes ++ blockCalls fuel no
      | some (.loop body) => blockCalls fuel body
      | some (.var _ body) => blockCalls fuel body
      | _ => []

end Calls

/-- The functions that a function calls, in the order of its code; `fuel` bounds the depth of its
blocks. -/
def Func.calls (f : Func) (fuel : Nat) : List Nat :=
  blockCalls f.alone fuel 0

theorem childrenCalls_congr {env env' : CompileEnv} (hfunc : env.func = env'.func)
    (block : Nat → List Nat) (blockOutline : Nat → Outline) (n : Nat) (cur next : Option Nat) :
    childrenCalls env block blockOutline n cur next =
      childrenCalls env' block blockOutline n cur next := by
  induction n generalizing cur next with
  | zero => cases cur <;> rfl
  | succ n ih =>
      cases cur with
      | none => rfl
      | some child => simp only [childrenCalls, hfunc, ih]

theorem blockCalls_congr {env env' : CompileEnv} (hfunc : env.func = env'.func)
    (htypes : env.types = env'.types) (n : Nat) : blockCalls env n = blockCalls env' n := by
  induction n with
  | zero => rfl
  | succ n ih =>
      funext i
      simp only [blockCalls, ih, outline_congr hfunc htypes, childrenCalls_congr hfunc, hfunc]

/-! ## The calls in a sequence of instructions -/

def Instr.callTarget : Instr → Option UInt64
  | .call target _ => some target
  | _ => none

/-- The addresses that are called, in the order of the instructions -/
def callTargets (is : List Instr) : List UInt64 :=
  is.filterMap Instr.callTarget

theorem callTargets_append (is js : List Instr) :
    callTargets (is ++ js) = callTargets is ++ callTargets js :=
  List.filterMap_append

/-- Jump targets do not matter. -/
theorem callTargets_blank (is : List Instr) : callTargets (is.map Instr.blank) = callTargets is := by
  rw [callTargets, List.filterMap_map]
  refine List.filterMap_congr fun i _ => ?_
  cases i <;> rfl

/-- The `B_CALL`s that are appended are those of the functions `js`, and the callees are there. -/
structure WritesCalls (env : CompileEnv) (js ps : List Nat) (c : Compiler) (ps' : List Nat)
    (c' : Compiler) : Prop where
  asked : ∀ j ∈ js, ∃ t t', env.callee j t = .ok t'
  writes : ∀ sk, Listing sk ps c.output → ∃ new, callTargets new = js.map env.place ∧
    Listing (sk ++ new) ps' c'.output

namespace WritesCalls

variable {env : CompileEnv} {js js' ps ps₁ ps₂ : List Nat} {c c₁ c₂ : Compiler}

/-- Parts that ask for no callee write no `B_CALL`. -/
theorem quiet (h : WritesFrom env [] ps c ps₁ c₁) : WritesCalls env [] ps c ps₁ c₁ where
  asked j hj := absurd hj List.not_mem_nil
  writes sk hx := by
    obtain ⟨new, hnew, hx₁⟩ := h sk hx
    refine ⟨new, List.filterMap_eq_nil_iff.mpr fun i hi => ?_, hx₁⟩
    have hfrom := hnew i hi
    cases i with
    | call target argc =>
        obtain ⟨j, hj, -⟩ := hfrom
        exact absurd hj List.not_mem_nil
    | _ => rfl

theorem trans (h : WritesCalls env js ps c ps₁ c₁) (h' : WritesCalls env js' ps₁ c₁ ps₂ c₂) :
    WritesCalls env (js ++ js') ps c ps₂ c₂ where
  asked j hj := (List.mem_append.mp hj).elim (h.asked j) (h'.asked j)
  writes sk hx := by
    obtain ⟨new, hnew, hx₁⟩ := h.writes sk hx
    obtain ⟨new', hnew', hx₂⟩ := h'.writes _ hx₁
    refine ⟨new ++ new', ?_, ?_⟩
    · rw [callTargets_append, hnew, hnew', List.map_append]
    · rwa [← List.append_assoc]

theorem after (h : WritesFrom env [] ps c ps₁ c₁) (h' : WritesCalls env js ps₁ c₁ ps₂ c₂) :
    WritesCalls env js ps c ps₂ c₂ :=
  (quiet h).trans h'

theorem before (h : WritesCalls env js ps c ps₁ c₁) (h' : WritesFrom env [] ps₁ c₁ ps₂ c₂) :
    WritesCalls env js ps c ps₂ c₂ := by
  have hall := h.trans (quiet h')
  rwa [List.append_nil] at hall

/-- Other placeholders stay open. -/
theorem frame (h : WritesCalls env js [] c [] c₁) : WritesCalls env js ps c ps c₁ where
  asked := h.asked
  writes sk hx := by
    obtain ⟨new, hnew, hx₁⟩ := h.writes sk ⟨hx.code, by simp, hx.pending⟩
    exact ⟨new, hnew, hx₁.code, fun p hp => (hx.targets p hp).append new, hx₁.pending⟩

end WritesCalls

/-! ## The parts of the compiler -/

section Ops

variable {env : CompileEnv} {ps : List Nat} {c c' : Compiler}

theorem compileFuncCall_calls {idx : Nat} (h : compileFuncCall env c idx = .ok c') :
    WritesCalls env [idx] ps c ps c' := by
  obtain ⟨t, ht, h⟩ := bind_eq_ok.mp h
  simp only [Compiler.fail] at h
  split at h
  · cases h
  · split at h
    · cases h
    · split at h
      · cases h
      · obtain ⟨-, rfl⟩ := popTypes_eq_ok h
        refine ⟨fun j hj => ?_,
          fun sk hx => ⟨[.call (env.place idx) _], rfl, hx.emit (.call _ _) rfl ⟨_, rfl⟩ rfl⟩⟩
        obtain rfl := List.mem_singleton.mp hj
        exact ⟨_, _, ht⟩

theorem compileOp_calls {op : Op} (hop : op ∈ env.func.ops) (h : compileOp env c op = .ok c') :
    WritesCalls env (Op.calls [op]) ps c ps c' := by
  by_cases hcall : op.kind = .call
  · have hcalls : Op.calls [op] = [op.extra.toNat] := by simp [Op.calls, hcall]
    rw [hcalls]
    rw [compileOp, hcall] at h
    exact compileFuncCall_calls h
  · -- no callee is asked for
    have hcalls : Op.calls [op] = [] := by simp [Op.calls, hcall]
    rw [hcalls]
    let env₀ : CompileEnv := ⟨env.func, env.types, env.ctx, env.place, fun _ t => .error t⟩
    have hsame : compileOp env₀ c op = .ok c' := by
      rw [← h]
      obtain ⟨kind, x⟩ := op
      cases kind with
      | call => exact absurd rfl hcall
      | _ => rfl
    have hwrites : WritesFrom env₀ [] ps c ps c' :=
      compileOp_writes (fun _ _ _ hi => by cases hi) hop hsame
    exact .quiet hwrites

theorem compileOps_calls {ops : List Op} (hops : ∀ op ∈ ops, op ∈ env.func.ops)
    (h : compileOps env ops c = .ok c') : WritesCalls env (Op.calls ops) ps c ps c' := by
  induction ops generalizing c with
  | nil =>
      cases h
      exact .quiet .refl
  | cons op ops ih =>
      obtain ⟨c₁, hop, h⟩ := bind_eq_ok.mp h
      have hfirst : WritesCalls env (Op.calls [op]) ps c ps c₁ :=
        compileOp_calls (hops op List.mem_cons_self) hop
      have hrest := ih (fun o ho => hops o (List.mem_cons_of_mem op ho)) h
      have hcalls : Op.calls (op :: ops) = Op.calls [op] ++ Op.calls ops :=
        List.filterMap_append (l := [op])
      rw [hcalls]
      exact hfirst.trans hrest

theorem opsIn_calls {r : OpRange} {ops : List Op} (h : opsIn env r = some ops) :
    Op.calls ops = env.func.rangeCalls r := by
  rw [opsIn] at h
  split at h
  · cases h
    rfl
  · cases h

theorem compileBasic_calls {range : OpRange} {r : Reach}
    (h : compileBasic env c range = .ok (r, c')) :
    WritesCalls env (env.func.rangeCalls range) ps c ps c' := by
  simp only [compileBasic, Compiler.fail] at h
  split at h
  · cases h
  · rename_i l hl
    obtain ⟨c₁, hops, h⟩ := bind_eq_ok.mp h
    have hwrites : WritesCalls env (env.func.rangeCalls range) ps c ps c₁ :=
      opsIn_calls hl ▸ compileOps_calls (fun op hop => opsIn_mem hl hop) hops
    split at h
    · cases h
    · split at h
      · cases h
        exact hwrites
      · obtain ⟨c₂, hpop, h⟩ := bind_eq_ok.mp h
        obtain ⟨-, rfl⟩ := popTypes_eq_ok hpop
        cases h
        exact hwrites.before (.emit_plain rfl ⟨_, rfl⟩ rfl rfl trivial)

theorem branchYes_calls {cond : OpRange} {noPatch : Nat} (h : branchYes env cond c = .ok (noPatch, c')) :
    WritesCalls env (env.func.rangeCalls cond) [] c [noPatch] c' := by
  obtain ⟨c₁, hcond, h⟩ := bind_eq_ok.mp h
  obtain ⟨c₂, hpop, h⟩ := bind_eq_ok.mp h
  obtain ⟨c₃, hpatch, hc₃⟩ := bind_eq_ok.mp h
  obtain ⟨-, hc₂⟩ := popTypes_eq_ok hpop
  cases hc₃
  have hwrites : WritesCalls env (env.func.rangeCalls cond) [] c [] c₁ := by
    simp only [compileCond, Compiler.fail] at hcond
    split at hcond
    · cases hcond
    · rename_i l hl
      obtain ⟨c₀, hops, hcond⟩ := bind_eq_ok.mp hcond
      split at hcond
      · cases hcond
      · cases hcond
        exact opsIn_calls hl ▸ compileOps_calls (fun op hop => opsIn_mem hl hop) hops
  have hopen : WritesFrom env [] [] c₁ [c₁.code.length + 1, c₁.code.length + 3] c₂ := by
    rw [hc₂]
    exact .emit (.branchTop 0 0) trivial rfl ⟨_, rfl⟩ rfl
  exact (hwrites.before hopen).before
    (patch_writes hpatch List.mem_cons_self (List.subset_cons_self _ _))

end Ops

/-- What the lemmas about blocks with parts assume of the parts. -/
def CallsAll (env : CompileEnv) (fuel : Nat) : Prop :=
  ∀ i c r c', c.Typed env → compileBlock env fuel i c = .ok (r, c') →
    WritesCalls env (blockCalls env fuel i) [] c [] c'

section Blocks

variable {env : CompileEnv} {fuel : Nat} {c c' : Compiler} {r : Reach}

theorem compileChildren_calls (hblock : CallsAll env fuel) {n : Nat} {cur next : Option Nat}
    (htyped : c.Typed env)
    (h : compileChildren env (compileBlock env fuel) n cur next .reachable c = .ok (r, c')) :
    WritesCalls env (childrenCalls env (blockCalls env fuel) (outline env fuel) n cur next) [] c []
      c' := by
  induction n generalizing cur next c with
  | zero =>
      cases cur with
      | none =>
          cases h
          exact .quiet .refl
      | some child => cases h
  | succ n ih =>
      cases cur with
      | none =>
          cases h
          exact .quiet .refl
      | some child =>
          obtain ⟨⟨r₁, c₁⟩, hchild, h⟩ := bind_eq_ok.mp h
          have hfirst := hblock child c r₁ c₁ htyped hchild
          have hfollows := compileBlock_follows env fuel child c r₁ c₁ htyped hchild
          rw [childrenCalls, ← hfollows.reach]
          refine hfirst.trans ?_
          cases next with
          | none =>
              cases h
              rw [Option.bind_none, ite_self]
              exact .quiet .refl
          | some l =>
              simp only [Compiler.fail] at h
              split at h
              · rename_i cur next hlink
                rw [Option.bind_some, hlink]
                cases r₁ with
                | reachable => exact ih (hfollows.typed htyped) h
                | unreachable =>
                    -- the rest is skipped
                    obtain ⟨-, rfl⟩ := compileChildren_stays h
                    exact .quiet .refl
              · cases h

/-- Each kind of block writes the calls of its parts, in the order of the parts. -/
theorem compileBlock_calls (env : CompileEnv) (fuel : Nat) : CallsAll env fuel := by
  induction fuel with
  | zero =>
      intro i c r c' _ h
      cases h
  | succ fuel ih =>
      intro i c r c' htyped h
      have hpart : ∀ q : BlockCall, Enters env ⟨fuel + 1, i, c⟩ q → q.state.Typed env :=
        fun q hq => (hq.descends htyped).typed
      rw [compileBlock] at h
      rw [blockCalls]
      cases hblock : env.func.blocks[i]? with
      | none =>
          rw [hblock] at h
          cases h
      | some b =>
          rw [hblock] at h
          cases b with
          | basic range => exact compileBasic_calls h
          | defer next cleanup => cases h
          | many cur next =>
              obtain ⟨⟨r₁, c₁⟩, hinner, h⟩ := bind_eq_ok.mp h
              have htyped₀ : (c.pushScope c.frameSize).Typed env := htyped
              exact .after (pushScope_writes c.frameSize)
                ((compileChildren_calls ih htyped₀ hinner).before (endScope_writes h))
          | chain cur next => cases h
          | crash =>
              cases h
              exact .quiet (emit_writes rfl trivial)
          | hardCrash =>
              cases h
              exact .quiet (emit_writes rfl trivial)
          | crashPad body pad =>
              simp only [compileCrashPad_eq] at h
              obtain ⟨⟨bodyR, c₁⟩, hbody, h⟩ := bind_eq_ok.mp h
              obtain ⟨⟨endPatch, c₂⟩, hhandler, h⟩ := bind_eq_ok.mp h
              obtain ⟨⟨padR, c₃⟩, hpad, h⟩ := bind_eq_ok.mp h
              have hentered : WritesFrom env [] [] c [c.code.length + 1] (padBody c) :=
                .emit (.pushCrash 0) trivial rfl ⟨_, rfl⟩ rfl
              have hfirst := ih _ _ _ _ (hpart _ (.padBody hblock)) hbody
              have hsecond := ih _ _ _ _ (hpart _ (.pad hblock hbody hhandler)) hpad
              exact ((WritesCalls.after hentered (hfirst.frame.before (padHandler_writes hhandler))).trans
                hsecond.frame).before (padEnd_writes h)
          | branch cond yes no =>
              simp only [compileBranch_eq] at h
              obtain ⟨arms, harms, hjoin⟩ := bind_eq_ok.mp h
              obtain ⟨noPatch, c₁, c₂, c₃, hyes, hfirst, -, hno, hsecond⟩ := compileArms_eq_ok harms
              have hone := ih _ _ _ _ (hpart _ (.yes hblock hyes)) hfirst
              have htwo := ih _ _ _ _ (hpart _ (.no hblock hyes hfirst hno)) hsecond
              exact (((branchYes_calls hyes).trans (hone.frame.before (branchNo_writes hno))).trans
                htwo.frame).before (branchJoin_writes hjoin)
          | loop body =>
              obtain ⟨⟨r₁, c₁⟩, hbody, h⟩ := bind_eq_ok.mp h
              exact .after (pushScope_writes c.frameSize)
                ((ih _ _ _ _ (hpart _ (.loopBody hblock)) hbody).before (loopEnd_writes h))
          | brk level => exact .quiet (compileBreak_writes h)
          | var v body =>
              simp only [compileVar, Compiler.fail] at h
              split at h
              · cases h
              · rename_i tid hvar
                split at h
                · cases h
                · rename_i t ht
                  obtain ⟨hsize, h⟩ := ite_error_ok.mp h
                  obtain ⟨c₁, hadd, h⟩ := bind_eq_ok.mp h
                  obtain ⟨⟨r₂, c₂⟩, hbody, h⟩ := bind_eq_ok.mp h
                  have hadded : WritesFrom env [] [] _ [] c₁ := emitStorageAdd_writes hadd
                  have hadded : WritesFrom env [] [] (c.pushScope c.frameSize) [] c₁ := hadded
                  have hentered := hpart _ (.varBody hblock hvar ht (Nat.le_of_not_lt hsize) hadd)
                  exact .after ((pushScope_writes c.frameSize).trans hadded)
                    ((ih _ _ _ _ hentered hbody).before (varEnd_writes h))

end Blocks

/-! ## Functions -/

section Functions

variable {f : Func} {ctx : Context} {place : Nat → UInt64} {fuel : Nat}

theorem compileBody_calls {callee : Nat → Table → Except Table Table} {t : Table} {c : Compiler}
    (h : compileBody ctx place callee fuel f t = .ok c) :
    (∀ j ∈ f.calls fuel, ∃ t t', callee j t = .ok t') ∧
      ∃ is : List Instr, c.code = is.flatMap encode ∧ callTargets is = (f.calls fuel).map place := by
  rw [compileBody] at h
  split at h
  · cases h
  · cases h
  · rename_i types hlaid _
    obtain ⟨⟨r, c₁⟩, hblock, hfinish⟩ := bind_eq_ok.mp h
    let env : CompileEnv := ⟨f, types, ctx, place, callee⟩
    have htypes : types = (layoutAll f.types).getD [] := by
      rw [hlaid, Option.getD_some]
    have hcalls : f.calls fuel = blockCalls env fuel 0 := by
      rw [Func.calls, @blockCalls_congr env f.alone rfl htypes fuel]
    have hblock : WritesCalls env (blockCalls env fuel 0) [] (.start f t) [] c₁ :=
      compileBlock_calls env fuel 0 _ r c₁ (Compiler.typed_start env t) hblock
    have hwrites := hblock.before (finishFunc_writes hfinish)
    rw [hcalls]
    refine ⟨hwrites.asked, ?_⟩
    have hempty : Listing [] [] (Compiler.start f t).output :=
      ⟨⟨[], rfl, .start⟩, by simp, fun p hp => by cases hp⟩
    obtain ⟨new, hnew, ⟨is, his, hwritten⟩, -, -⟩ := hwrites.writes [] hempty
    rw [List.nil_append] at his
    exact ⟨is, hwritten.code_eq, by rw [← callTargets_blank, his, hnew]⟩

/-- The `B_CALL`s in the code of a function lead to the functions that its `OP_CALL`s name, in the
order of the `OP_CALL`s; these are callees that the compiler has asked for. -/
theorem plan_calls {c : Compiler Unit} (h : (f.plan ctx place fuel).ends = some c) :
    (∀ j ∈ f.calls fuel, j ∈ (f.plan ctx place fuel).asks) ∧
      ∃ is : List Instr, c.code = is.flatMap encode ∧ callTargets is = (f.calls fuel).map place := by
  obtain ⟨hasked, hcode⟩ := compileBody_calls (compileBody_of_plan h)
  refine ⟨fun j hj => ?_, hcode⟩
  obtain ⟨t, t', hcallee⟩ := hasked j hj
  exact mem_of_askedOnly hcallee

end Functions

end TreeVM
