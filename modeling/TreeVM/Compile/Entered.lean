import TreeVM.Compile.Recursion
import TreeVM.Compile.Joins
import TreeVM.Compile.BlockSound

/-!
# From block to block

* `Rests`: what a block that was compiled has left alone, whether or not its end is reached;
* `Enters`: one call of `compile_block` makes another one;
* `visits_iff`: the calls for a function are those that the first one leads to;
* `Enters.descends`: what a block passes on to the blocks in it.
-/

namespace TreeVM

/-! ## What a block leaves -/

/-- The frame size and the number of pads behind a scope. -/
def Scope.entry (s : Scope) : Int16 × Nat :=
  (s.frameSize, s.crashDepth)

def Compiler.entries (c : Compiler) : List (Int16 × Nat) :=
  c.scopes.map Scope.entry

/-- The lengths of operation ranges are `count_t`. -/
def Func.CountsFit (f : Func) : Prop :=
  ∀ r, .basic r ∈ f.blocks → r.len < 2 ^ 32

/-- `c'` has the scopes of `c`, and again no types on the stack. -/
structure Rests (env : CompileEnv) (c c' : Compiler) : Prop where
  entries : c'.entries = c.entries
  params : env.func.CountsFit → c.params = [] → c'.params = []

namespace Rests

variable {env : CompileEnv} {c c' c'' : Compiler}

theorem refl (c : Compiler) : Rests env c c :=
  ⟨rfl, fun _ h => h⟩

theorem trans (h : Rests env c c') (h' : Rests env c' c'') : Rests env c c'' where
  entries := h'.entries.trans h.entries
  params hcounts hparams := h'.params hcounts (h.params hcounts hparams)

end Rests

theorem SameFrame.entries {c c' : Compiler} (h : SameFrame c c') : c'.entries = c.entries := by
  rw [Compiler.entries, h.scopes]
  rfl

section Ops

variable {env : CompileEnv} {c c' : Compiler}

/-- What an operation does to the compiler.  Only `OP_PUSH_VAR` emits a `B_PUSH_VAR`. -/
inductive OpStep (c : Compiler) (op : Op) : Compiler → Prop
  | none : OpStep c op c
  | pushVar {x : VarLayout} (hkind : op.kind = .pushVar) (hx : c.vars[op.extra.toNat]? = some x)
      (hlive : x.live = true) :
      OpStep c op ((c.emit (.pushVar (x.base - c.frameSize))).pushType x.tid)
  | emit {i : Instr} {ps : List Nat} {t : Table} (hi : ∀ x, i ≠ .pushVar x)
      (hps : ps.length ≤ c.params.length + 1) :
      OpStep c op { ({ c with table := t } : Compiler).emit i with params := ps }

/-- An instruction that leaves the callees alone. -/
theorem OpStep.plain {op : Op} {i : Instr} {ps : List Nat} (hi : ∀ x, i ≠ .pushVar x)
    (hps : ps.length ≤ c.params.length + 1) : OpStep c op { c.emit i with params := ps } :=
  .emit (t := c.table) hi hps

theorem length_drop_le (n : Nat) (ps : List Nat) : (ps.drop n).length ≤ ps.length + 1 := by
  rw [List.length_drop]
  omega

theorem compileBinary_step {op : Op} {f : Nat → Nat → Option (BinOp × Nat)}
    (h : compileBinary c f = .ok c') : OpStep c op c' := by
  simp only [compileBinary, Compiler.fail] at h
  split at h
  · rename_i rhs lhs rest hparams
    split at h
    · cases h
      refine .plain (by simp) ?_
      rw [hparams]
      simp only [List.length_cons]
      omega
    · cases h
  · cases h

theorem compileOp_step {op : Op} (h : compileOp env c op = .ok c') : OpStep c op c' := by
  obtain ⟨kind, x⟩ := op
  cases kind with
  | null =>
      cases h
      exact .none
  | call =>
      obtain ⟨t, -, h⟩ := bind_eq_ok.mp h
      simp only [Compiler.fail] at h
      split at h
      · cases h
      · split at h
        · cases h
        · split at h
          · cases h
          · obtain ⟨-, rfl⟩ := popTypes_eq_ok h
            exact .emit (t := t) (by simp) (length_drop_le _ _)
  | callNativeOnStack =>
      simp only [compileOp, compileNativeCall, Compiler.fail] at h
      split at h
      · cases h
      · split at h
        · split at h
          · cases h
          · split at h
            · cases h
            · split at h
              · cases h
              · obtain ⟨-, rfl⟩ := popTypes_eq_ok h
                exact .plain (by simp) (length_drop_le _ _)
        · cases h
  | bitNotAssign =>
      simp only [compileOp, compileBitNot, Compiler.fail] at h
      split at h
      · split at h
        · cases h
          exact .plain (by simp) (Nat.le_succ _)
        · cases h
      · cases h
  | drop =>
      obtain ⟨popped, hpop, h⟩ := bind_eq_ok.mp h
      obtain ⟨-, rfl⟩ := popTypes_eq_ok hpop
      cases h
      exact .plain (by simp) (length_drop_le _ _)
  | pushVar =>
      simp only [compileOp, emitPushVar, Compiler.fail] at h
      split at h
      · rename_i y hy
        split at h
        · rename_i hlive
          cases h
          exact .pushVar rfl hy hlive
        · cases h
      · cases h
  | pushArg =>
      simp only [compileOp, emitPushArg, Compiler.fail] at h
      split at h
      · split at h
        · cases h
          exact .plain (by simp) (Nat.le_refl _)
        · cases h
      · cases h
  | pushGlobal =>
      simp only [compileOp, compilePushGlobal, Compiler.fail] at h
      split at h
      · split at h
        · cases h
          exact .plain (by simp) (Nat.le_refl _)
        · cases h
      · cases h
  | structAt =>
      simp only [compileOp, compileStructAt, Compiler.fail] at h
      split at h
      · cases h
      · rename_i tid rest hparams
        split at h
        · split at h
          · split at h
            · cases h
              refine .plain (by simp) ?_
              rw [hparams]
              exact Nat.le_succ _
            · cases h
          · cases h
        · cases h
  | _ => exact compileBinary_step h

/-- An operation adds one type at most. -/
theorem compileOp_params {op : Op} (h : compileOp env c op = .ok c') :
    c'.params.length ≤ c.params.length + 1 := by
  cases compileOp_step h with
  | none => exact Nat.le_succ _
  | pushVar _ _ _ => exact Nat.le_refl _
  | emit _ hps => exact hps

theorem compileOps_params {ops : List Op} (h : compileOps env ops c = .ok c') :
    c'.params.length ≤ c.params.length + ops.length := by
  induction ops generalizing c with
  | nil =>
      cases h
      exact Nat.le_refl _
  | cons op ops ih =>
      obtain ⟨c₁, hop, h⟩ := bind_eq_ok.mp h
      have hrest := ih h
      have hfirst := compileOp_params hop
      rw [List.length_cons]
      omega

theorem opsIn_length {r : OpRange} {ops : List Op} (h : opsIn env r = some ops) :
    ops.length ≤ r.len := by
  simp only [opsIn] at h
  split at h
  · cases h
    exact List.length_take_le _ _
  · cases h

theorem compileBasic_rests {i : Nat} {ops : OpRange} {r : Reach}
    (hblock : env.func.blocks[i]? = some (.basic ops)) (h : compileBasic env c ops = .ok (r, c')) :
    Rests env c c' := by
  refine ⟨(compileBasic_same h).2.entries, fun hcounts hempty => ?_⟩
  have hlen : ops.len < 2 ^ 32 := hcounts ops (List.mem_of_getElem? hblock)
  simp only [compileBasic, Compiler.fail] at h
  split at h
  · cases h
  · rename_i l hops
    obtain ⟨c₁, hcode, h⟩ := bind_eq_ok.mp h
    have hparams := compileOps_params hcode
    have hl := opsIn_length hops
    rw [hempty, List.length_nil] at hparams h
    have hextra : (UInt32.ofNat (c₁.params.length - 0)).toNat = c₁.params.length := by
      rw [Nat.sub_zero, UInt32.toNat_ofNat', Nat.mod_eq_of_lt (by omega)]
    split at h
    · cases h
    · split at h
      · rename_i hzero
        cases h
        rw [hzero] at hextra
        exact List.length_eq_zero_iff.mp hextra.symm
      · obtain ⟨c₂, hpop, h⟩ := bind_eq_ok.mp h
        obtain ⟨-, rfl⟩ := popTypes_eq_ok hpop
        cases h
        rw [hextra]
        exact List.drop_length

theorem compileCond_params {cond : OpRange} (h : compileCond env c cond = .ok c')
    (hempty : c.params = []) : c'.params.drop 1 = [] := by
  simp only [compileCond, Compiler.fail] at h
  split at h
  · cases h
  · obtain ⟨c₁, -, h⟩ := bind_eq_ok.mp h
    split at h
    · cases h
    · rename_i hone
      cases h
      rw [hempty] at hone
      have hlen : c'.params.length = 1 := by
        by_contra hne
        exact hone (.inl hne)
      exact List.drop_eq_nil_of_le (Nat.le_of_eq hlen)

theorem branchYes_rests {cond : OpRange} {noPatch : Nat}
    (h : branchYes env cond c = .ok (noPatch, c')) : Rests env c c' := by
  refine ⟨(branchYes_same h).entries, fun _ hempty => ?_⟩
  obtain ⟨c₁, hcond, h⟩ := bind_eq_ok.mp h
  obtain ⟨c₂, hpop, h⟩ := bind_eq_ok.mp h
  obtain ⟨c₃, hpatch, hc₃⟩ := bind_eq_ok.mp h
  cases hc₃
  obtain ⟨-, rfl⟩ := popTypes_eq_ok hpop
  obtain ⟨-, rfl⟩ := patch_eq_ok hpatch
  have hnone := compileCond_params hcond hempty
  exact hnone

theorem emitPops_rests (n : Nat) (c : Compiler) : Rests env c (emitPops n c) where
  entries := (emitPops_same n c).entries
  params _ h := (emitPops_params n c).trans h

theorem entries_addPatch (c : Compiler) (level pos : Nat) :
    (c.addPatch level pos).entries = c.entries := by
  apply List.ext_getElem?
  intro i
  simp only [Compiler.entries, Compiler.addPatch, List.getElem?_map, List.getElem?_modify]
  cases c.scopes[i]? with
  | none => rfl
  | some s =>
      simp only [Option.map_some]
      split <;> rfl

theorem compileBreak_rests {level : Nat} {r : Reach} (h : compileBreak c level = .ok (r, c')) :
    Rests env c c' := by
  cases level with
  | zero => cases h
  | succ outer =>
      simp only [compileBreak, Compiler.fail] at h
      split at h
      · cases h
      · rename_i s _
        have hpops : Rests env c _ := emitPops_rests (c.crashDepth - s.crashDepth) c
        generalize emitPops (c.crashDepth - s.crashDepth) c = c₁ at h hpops
        have hadd : Rests env c₁ (if s.frameSize - c₁.frameSize = 0 then c₁
            else c₁.emit (.storageAdd (s.frameSize - c₁.frameSize))) := by
          split
          · exact .refl _
          · exact ⟨rfl, fun _ h => h⟩
        generalize (if s.frameSize - c₁.frameSize = 0 then c₁
            else c₁.emit (.storageAdd (s.frameSize - c₁.frameSize))) = c₂ at h hadd
        cases h
        refine (hpops.trans hadd).trans ⟨entries_addPatch _ _ _, fun _ h => h⟩

end Ops

section Blocks

variable {env : CompileEnv} {block : Nat → Compiler → Except Table (Reach × Compiler)}
  {c c' c₁ : Compiler} {r r₁ : Reach}

/-- What the lemmas about blocks with parts assume of the parts. -/
def RestsAll (env : CompileEnv) (block : Nat → Compiler → Except Table (Reach × Compiler)) : Prop :=
  ∀ i c r c', block i c = .ok (r, c') → Rests env c c'

theorem entries_pushScope (c : Compiler) :
    (c.pushScope c.frameSize).entries = (c.frameSize, c.crashDepth) :: c.entries :=
  rfl

theorem finishScope_rests {broken : Bool} (h : c.finishScope = .ok (broken, c')) :
    c'.entries = c.entries.tail ∧ c'.params = c.params := by
  simp only [Compiler.finishScope, Compiler.fail] at h
  split at h
  · cases h
  · rename_i s rest hscopes
    obtain ⟨c₂, hpatch, h⟩ := bind_eq_ok.mp h
    obtain ⟨-, rfl⟩ := patchAll_eq_ok hpatch
    cases h
    exact ⟨by simp [Compiler.entries, hscopes], rfl⟩

theorem endScope_rests (h : endScope r₁ c₁ = .ok (r, c')) :
    c'.entries = c₁.entries.tail ∧ c'.params = c₁.params := by
  obtain ⟨⟨broken, c₂⟩, hfinish, h⟩ := bind_eq_ok.mp h
  cases h
  exact finishScope_rests hfinish

theorem compileChildren_rests {fuel : Nat} {cur next : Option Nat} (hblock : RestsAll env block)
    (h : compileChildren env block fuel cur next r₁ c = .ok (r, c')) : Rests env c c' := by
  induction fuel generalizing cur next r₁ c with
  | zero =>
      cases cur with
      | none =>
          cases h
          exact .refl _
      | some child => cases h
  | succ fuel ih =>
      cases cur with
      | none =>
          cases h
          exact .refl _
      | some child =>
          rw [compileChildren] at h
          simp only [ite_bind, Compiler.fail] at h
          obtain ⟨⟨r₂, c₂⟩, hchild, h⟩ := bind_eq_ok.mp h
          have hfirst : Rests env c c₂ := by
            split at hchild
            · exact hblock _ _ _ _ hchild
            · cases hchild
              exact .refl _
          simp only at h
          split at h
          · cases h
            exact hfirst
          · split at h
            · exact hfirst.trans (ih h)
            · cases h

theorem compileMany_rests {fuel : Nat} {cur next : Option Nat} (hblock : RestsAll env block)
    (h : compileMany env block fuel cur next c = .ok (r, c')) : Rests env c c' := by
  obtain ⟨⟨r₁, c₁⟩, hinner, hend⟩ := bind_eq_ok.mp h
  have hchildren := compileChildren_rests hblock hinner
  obtain ⟨hentries, hparams⟩ := endScope_rests hend
  refine ⟨?_, fun hcounts hempty => ?_⟩
  · rw [hentries, hchildren.entries, entries_pushScope, List.tail_cons]
  · rw [hparams]
    exact hchildren.params hcounts hempty

/-- The state in which the body of a local is compiled. -/
theorem emitStorageAdd_enters {v tid : Nat} {amount : Int16}
    (h : { c.pushScope c.frameSize with vars := c.vars.set v ⟨tid, c.frameSize, true⟩
      }.emitStorageAdd amount = .ok c') :
    c' = c.enterVar v tid amount ∧ 0 ≤ (c.frameSize + amount).toInt := by
  obtain ⟨hnonneg, rfl⟩ := emitStorageAdd_eq_ok h
  exact ⟨rfl, hnonneg⟩

theorem compileVar_rests {v body : Nat} (hblock : RestsAll env block)
    (h : compileVar env block v body c = .ok (r, c')) : Rests env c c' := by
  simp only [compileVar, Compiler.fail] at h
  split at h
  · cases h
  · rename_i tid hvar
    split at h
    · cases h
    · rename_i t ht
      split at h
      · cases h
      · obtain ⟨c₁, hadd, h⟩ := bind_eq_ok.mp h
        obtain ⟨⟨r₂, c₂⟩, hbody, h⟩ := bind_eq_ok.mp h
        simp only [ite_bind] at h
        obtain ⟨c₃, hsub, h⟩ := bind_eq_ok.mp h
        obtain ⟨⟨r₄, c₄⟩, hend, h⟩ := bind_eq_ok.mp h
        cases h
        obtain ⟨rfl, -⟩ := emitStorageAdd_enters hadd
        have hinner := hblock _ _ _ _ hbody
        have hlast : Rests env c₂ c₃ := by
          split at hsub
          · obtain ⟨-, rfl⟩ := emitStorageAdd_eq_ok hsub
            exact ⟨rfl, fun _ h => h⟩
          · cases hsub
            exact .refl _
        have hbodyEnd := hinner.trans hlast
        obtain ⟨hentries, hparams⟩ := endScope_rests hend
        refine ⟨?_, fun hcounts hempty => ?_⟩
        · have htail : c₃.entries.tail = c.entries := by
            rw [hbodyEnd.entries]
            rfl
          exact hentries.trans htail
        · exact hparams.trans (hbodyEnd.params hcounts hempty)

theorem Restored.entries {before : Saved} (h : Restored before c c') : c'.entries = c.entries := by
  rw [Compiler.entries, h.scopes]
  rfl

theorem Restored.params {before : Saved} (h : Restored before c c') :
    c'.params = before.params :=
  congrArg Saved.params h.save

theorem compileBranch_rests {cond : OpRange} {yes no : Nat} (hblock : RestsAll env block)
    (h : compileBranch env block cond yes no c = .ok (r, c')) : Rests env c c' := by
  rw [compileBranch_eq] at h
  obtain ⟨arms, harms, h⟩ := bind_eq_ok.mp h
  obtain ⟨noPatch, c₁, c₂, c₃, hyes, hfirst, hstate, hno, hsecond⟩ := compileArms_eq_ok harms
  have hjoined := branchJoin_joined h
  have hyesRests := (branchYes_rests hyes).trans (hblock _ _ _ _ hfirst)
  have hnoRests := hblock _ _ _ _ hsecond
  have hrestored := branchNo_restored hno
  refine ⟨?_, fun hcounts hempty => ?_⟩
  · calc c'.entries = arms.last.entries := by
          rw [Compiler.entries, hjoined.scopes]
          rfl
      _ = c₃.entries := hnoRests.entries
      _ = c₂.entries := hrestored.entries
      _ = c.entries := hyesRests.entries
  · have hyesParams : arms.yesState.params = [] := by
      rw [hstate]
      exact hyesRests.params hcounts hempty
    have hnoParams : arms.last.save.params = [] :=
      hnoRests.params hcounts (hrestored.params.trans hempty)
    have hparams : c'.params = c'.save.params := rfl
    rw [hparams, hjoined.save]
    split
    · exact hyesParams
    · exact hnoParams

theorem compileLoop_rests {body : Nat} (hblock : RestsAll env block)
    (h : compileLoop block body c = .ok (r, c')) : Rests env c c' := by
  obtain ⟨⟨r₁, c₁⟩, hbody, h⟩ := bind_eq_ok.mp h
  simp only [ite_bind] at h
  obtain ⟨c₂, hback, h⟩ := bind_eq_ok.mp h
  obtain ⟨⟨broken, c₃⟩, hfinish, h⟩ := bind_eq_ok.mp h
  cases h
  have hinner := hblock _ _ _ _ hbody
  have hentries₂ : c₂.entries = c₁.entries := by
    simp only [Compiler.fail] at hback
    split at hback
    · split at hback
      · cases hback
        rfl
      · cases hback
    · cases hback
      rfl
  refine ⟨?_, fun _ hempty => hempty⟩
  have htail : c₃.entries = c.entries := by
    rw [(finishScope_rests hfinish).1, hentries₂, hinner.entries, entries_pushScope,
      List.tail_cons]
  exact htail

theorem compileCrashPad_rests {body pad : Nat} (hblock : RestsAll env block)
    (h : compileCrashPad block body pad c = .ok (r, c')) : Rests env c c' := by
  rw [compileCrashPad_eq] at h
  obtain ⟨⟨bodyR, c₁⟩, hbody, h⟩ := bind_eq_ok.mp h
  obtain ⟨⟨endPatch, c₂⟩, hpad, h⟩ := bind_eq_ok.mp h
  obtain ⟨⟨padR, c₃⟩, hhandler, h⟩ := bind_eq_ok.mp h
  simp only at hpad h
  have hbodyRests := hblock _ _ _ _ hbody
  have hpadRests := hblock _ _ _ _ hhandler
  have hrestored := padHandler_restored hpad
  simp only [padEnd, ite_bind] at h
  obtain ⟨c₄, hend, h⟩ := bind_eq_ok.mp h
  have hlast : Rests env c₃ c₄ := by
    have hcrash : Rests env c₃ (if padR = .reachable then c₃.emit .crash else c₃) := by
      split
      · exact ⟨rfl, fun _ h => h⟩
      · exact .refl _
    split at hend
    · obtain ⟨-, rfl⟩ := patch_eq_ok hend
      exact ⟨hcrash.entries, hcrash.params⟩
    · cases hend
      exact hcrash
  have hentries : c₄.entries = c.entries := by
    calc c₄.entries = c₃.entries := hlast.entries
      _ = c₂.entries := hpadRests.entries
      _ = c₁.entries := hrestored.entries
      _ = c.entries := hbodyRests.entries
  have hparams (hcounts : env.func.CountsFit) (hempty : c.params = []) : c₄.params = [] :=
    (hpadRests.trans hlast).params hcounts (hrestored.params.trans hempty)
  cases bodyR with
  | reachable =>
      cases h
      exact ⟨hentries, fun hcounts hempty => hbodyRests.params hcounts hempty⟩
  | unreachable =>
      cases h
      exact ⟨hentries, hparams⟩

end Blocks

theorem compileBlock_rests (env : CompileEnv) (fuel : Nat) : RestsAll env (compileBlock env fuel) := by
  induction fuel with
  | zero =>
      intro i c r c' h
      cases h
  | succ fuel ih =>
      intro i c r c' h
      rw [compileBlock] at h
      cases hblock : env.func.blocks[i]? with
      | none =>
          rw [hblock] at h
          cases h
      | some b =>
          rw [hblock] at h
          cases b with
          | basic ops => exact compileBasic_rests hblock h
          | defer next cleanup => cases h
          | many cur next => exact compileMany_rests ih h
          | chain cur next => cases h
          | crash =>
              cases h
              exact ⟨rfl, fun _ h => h⟩
          | hardCrash =>
              cases h
              exact ⟨rfl, fun _ h => h⟩
          | crashPad body pad => exact compileCrashPad_rests ih h
          | branch cond yes no => exact compileBranch_rests ih h
          | loop body => exact compileLoop_rests ih h
          | brk level => exact compileBreak_rests h
          | var v body => exact compileVar_rests ih h

/-! ## Calls of `compile_block` -/

/-- A call of `compile_block`, with the fuel that is left inside. -/
structure BlockCall where
  fuel : Nat
  idx : Nat
  state : Compiler

/-- Compiling the block of `p` calls `compile_block` for the block of `q`. -/
inductive Enters (env : CompileEnv) : BlockCall → BlockCall → Prop
  | child {fuel i j : Nat} {cur next : Option Nat} {c c' : Compiler}
      (hblock : env.func.blocks[i]? = some (.many cur next))
      (hchild : ChildAt env (compileBlock env fuel) cur next (c.pushScope c.frameSize) j c') :
      Enters env ⟨fuel + 1, i, c⟩ ⟨fuel, j, c'⟩
  | varBody {fuel i v body tid : Nat} {ty : Ty} {c c' : Compiler}
      (hblock : env.func.blocks[i]? = some (.var v body))
      (htid : env.func.vars[v]? = some tid) (hty : env.types[tid]? = some ty)
      (hsize : ty.size.toNat ≤ 32767)
      (hadd : { c.pushScope c.frameSize with vars := c.vars.set v ⟨tid, c.frameSize, true⟩
        }.emitStorageAdd (Int16.ofNat ty.size.toNat) = .ok c') :
      Enters env ⟨fuel + 1, i, c⟩ ⟨fuel, body, c'⟩
  | yes {fuel i yes no noPatch : Nat} {cond : OpRange} {c c' : Compiler}
      (hblock : env.func.blocks[i]? = some (.branch cond yes no))
      (hyes : branchYes env cond c = .ok (noPatch, c')) :
      Enters env ⟨fuel + 1, i, c⟩ ⟨fuel, yes, c'⟩
  | no {fuel i yes no noPatch endPatch : Nat} {cond : OpRange} {r : Reach}
      {c c₁ c₂ c' : Compiler} (hblock : env.func.blocks[i]? = some (.branch cond yes no))
      (hyes : branchYes env cond c = .ok (noPatch, c₁))
      (harm : compileBlock env fuel yes c₁ = .ok (r, c₂))
      (hno : branchNo c.save noPatch r c₂ = .ok (endPatch, c')) :
      Enters env ⟨fuel + 1, i, c⟩ ⟨fuel, no, c'⟩
  | loopBody {fuel i body : Nat} {c : Compiler} (hblock : env.func.blocks[i]? = some (.loop body)) :
      Enters env ⟨fuel + 1, i, c⟩ ⟨fuel, body, c.pushScope c.frameSize⟩
  | padBody {fuel i body pad : Nat} {c : Compiler}
      (hblock : env.func.blocks[i]? = some (.crashPad body pad)) :
      Enters env ⟨fuel + 1, i, c⟩ ⟨fuel, body, padBody c⟩
  | pad {fuel i body pad endPatch : Nat} {r : Reach} {c c₁ c' : Compiler}
      (hblock : env.func.blocks[i]? = some (.crashPad body pad))
      (hbody : compileBlock env fuel body (padBody c) = .ok (r, c₁))
      (hpad : padHandler c.save (c.code.length + 1) r c₁ = .ok (endPatch, c')) :
      Enters env ⟨fuel + 1, i, c⟩ ⟨fuel, pad, c'⟩

/-- The call for block `0` of a function. -/
def BlockCall.root (env : CompileEnv) (start : Nat) (t : Table) : BlockCall :=
  ⟨start, 0, .start env.func t⟩

section Calls

variable {env : CompileEnv} {start : Nat} {t : Table}

theorem Visits.enters {p q : BlockCall} (h : Visits env start t p.fuel p.idx p.state)
    (hq : Enters env p q) : Visits env start t q.fuel q.idx q.state := by
  cases hq with
  | child hblock hchild => exact .child h hblock hchild
  | varBody hblock htid hty hsize hadd => exact .varBody h hblock htid hty hsize hadd
  | yes hblock hyes => exact .yes h hblock hyes
  | no hblock hyes harm hno => exact .no h hblock hyes harm hno
  | loopBody hblock => exact .loopBody h hblock
  | padBody hblock => exact .padBody h hblock
  | pad hblock hbody hpad => exact .pad h hblock hbody hpad

theorem visits_iff {fuel i : Nat} {c : Compiler} : Visits env start t fuel i c ↔
    Relation.ReflTransGen (Enters env) (.root env start t) ⟨fuel, i, c⟩ := by
  constructor
  · intro h
    induction h with
    | root => exact .refl
    | child _ hblock hchild ih => exact ih.tail (.child hblock hchild)
    | varBody _ hblock htid hty hsize hadd ih =>
        exact ih.tail (.varBody hblock htid hty hsize hadd)
    | yes _ hblock hyes ih => exact ih.tail (.yes hblock hyes)
    | no _ hblock hyes harm hno ih => exact ih.tail (.no hblock hyes harm hno)
    | loopBody _ hblock ih => exact ih.tail (.loopBody hblock)
    | padBody _ hblock ih => exact ih.tail (.padBody hblock)
    | pad _ hblock hbody hpad ih => exact ih.tail (.pad hblock hbody hpad)
  · intro h
    suffices hall : ∀ q, Relation.ReflTransGen (Enters env) (.root env start t) q →
        Visits env start t q.fuel q.idx q.state from hall _ h
    intro q hq
    induction hq with
    | refl => exact .root
    | tail _ hstep ih => exact ih.enters hstep

end Calls

/-! ## The locals of a block -/

/-- Block `j` stands under block `i`. -/
def Under (blocks : List Block) (j i : Nat) : Prop :=
  Relation.TransGen (Below blocks) j i

/-- The local is declared by the block at `i` or under it. -/
def Declares (blocks : List Block) (i v : Nat) : Prop :=
  ∃ j body, blocks[j]? = some (.var v body) ∧ (j = i ∨ Under blocks j i)

def Compiler.Live (c : Compiler) (v : Nat) : Prop :=
  ∃ x, c.vars[v]? = some x ∧ x.live = true

/-- A block names what a list of children starts with. -/
structure Block.Lists (b : Block) (cur next : Option Nat) : Prop where
  first : ∀ j, cur = some j → b.Names j
  rest : ∀ j l, cur = some j → next = some l → b.Names l

theorem Block.lists_many (cur next : Option Nat) : (Block.many cur next).Lists cur next where
  first j hj := by
    subst hj
    exact .manyCur
  rest j l hj hl := by
    subst hj hl
    exact .manyNext

theorem Block.lists_chain (cur next : Option Nat) : (Block.chain cur next).Lists cur next where
  first j hj := by
    subst hj
    exact .chainCur
  rest j l hj hl := by
    subst hj hl
    exact .chainNext

section Locals

variable {env : CompileEnv} {i j k v : Nat}

theorem Under.of_names {b : Block} (hi : env.func.blocks[i]? = some b) (hj : b.Names j) :
    Under env.func.blocks j i :=
  .single ⟨b, hi, hj⟩

theorem Declares.up (h : Declares env.func.blocks j v) (hji : Under env.func.blocks j i) :
    Declares env.func.blocks i v := by
  obtain ⟨k, body, hk, hkj⟩ := h
  refine ⟨k, body, hk, .inr ?_⟩
  rcases hkj with rfl | hkj
  · exact hji
  · exact Relation.TransGen.trans hkj hji

theorem declares_of_children {fuel n : Nat} {cur next : Option Nat} {d : Nat × Int16} {b : Block}
    (hblock : ∀ j, ∀ d ∈ (outline env fuel j).decls, Declares env.func.blocks j d.1)
    (hi : env.func.blocks[i]? = some b) (hlists : b.Lists cur next)
    (hd : d ∈ (outlineChildren env (outline env fuel) n cur next).decls) :
    Declares env.func.blocks i d.1 := by
  induction n generalizing i b cur next with
  | zero =>
      cases cur with
      | none => cases hd
      | some child => cases hd
  | succ n ih =>
      cases cur with
      | none => cases hd
      | some child =>
          have hchild : ∀ d ∈ (outline env fuel child).decls, Declares env.func.blocks i d.1 :=
            fun d hd => (hblock child d hd).up (.of_names hi (hlists.first child rfl))
          rw [outlineChildren] at hd
          split at hd
          · split at hd
            · rename_i cur' next' hlink
              obtain ⟨l, rfl, hl⟩ := Option.bind_eq_some_iff.mp hlink
              rcases List.mem_append.mp hd with hd | hd
              · refine (ih hl (Block.lists_chain cur' next') hd).up ?_
                exact .of_names hi (hlists.rest child l rfl rfl)
              · exact hchild d hd
            · exact hchild d hd
          · exact hchild d hd

/-- The records that a block leaves behind are those of locals declared in it. -/
theorem declares_of_decls {fuel : Nat} {d : Nat × Int16} (hd : d ∈ (outline env fuel i).decls) :
    Declares env.func.blocks i d.1 := by
  induction fuel generalizing i d with
  | zero => cases hd
  | succ fuel ih =>
      rw [outline] at hd
      split at hd
      · rename_i cur next hi
        exact declares_of_children (fun j d hd => ih hd) hi (Block.lists_many cur next) hd
      · cases hd
      · cases hd
      · rename_i body pad hi
        simp only [Outline.crashPad] at hd
        split at hd
        · exact (ih hd).up (.of_names hi .padBody)
        · exact (ih hd).up (.of_names hi .pad)
      · rename_i cond yes no hi
        simp only [Outline.branch] at hd
        split at hd
        · exact (ih hd).up (.of_names hi .yes)
        · exact (ih hd).up (.of_names hi .no)
      · cases hd
      · cases hd
      · rename_i w body hi
        rcases List.mem_append.mp hd with hd | hd
        · obtain ⟨d', hd', rfl⟩ := List.mem_map.mp hd
          exact (ih hd').up (.of_names hi .var)
        · rw [List.mem_singleton.mp hd]
          exact ⟨i, body, hi, .inl rfl⟩
      · cases hd

/-- The frame is as large as before, and the locals that are live were so before. -/
structure Inherits (c c' : Compiler) : Prop where
  frameSize : c'.frameSize = c.frameSize
  live : ∀ (v : Nat) (x : VarLayout), c'.vars[v]? = some x → x.live = true → c.vars[v]? = some x

theorem SameFrame.inherits {c c' : Compiler} (h : SameFrame c c') : Inherits c c' where
  frameSize := h.frameSize
  live _ _ hx _ := h.vars ▸ hx

/-- Moreover the records of locals that are not declared in the block are the same. -/
structure Keeps (env : CompileEnv) (i : Nat) (c c' : Compiler) : Prop extends Inherits c c' where
  kept : ∀ v, ¬ Declares env.func.blocks i v → c'.vars[v]? = c.vars[v]?

theorem Keeps.trans {c c' c'' : Compiler} (h : Keeps env i c c') (h' : Keeps env i c' c'') :
    Keeps env i c c'' where
  frameSize := h'.frameSize.trans h.frameSize
  live v x hx hlive := h.live v x (h'.live v x hx hlive) hlive
  kept v hv := (h'.kept v hv).trans (h.kept v hv)

theorem Keeps.of_vars {c c' : Compiler} (hframe : c'.frameSize = c.frameSize)
    (hvars : c'.vars = c.vars) : Keeps env i c c' where
  frameSize := hframe
  live _ _ hx _ := hvars ▸ hx
  kept v _ := by rw [hvars]

theorem Keeps.up {c c' : Compiler} (h : Keeps env j c c') (hji : Under env.func.blocks j i) :
    Keeps env i c c' where
  toInherits := h.toInherits
  kept v hv := h.kept v fun hdecl => hv (hdecl.up hji)

theorem Inherits.isLive {c c' : Compiler} (h : Inherits c c') {v : Nat} (hv : c'.Live v) :
    c.Live v := by
  obtain ⟨x, hx, hlive⟩ := hv
  exact ⟨x, h.live v x hx hlive, hlive⟩

theorem compileBlock_keeps {fuel : Nat} {c c' : Compiler} {r : Reach} (htyped : c.Typed env)
    (h : compileBlock env fuel i c = .ok (r, c')) : Keeps env i c c' := by
  have hfollows := compileBlock_follows env fuel i c r c' htyped h
  refine ⟨⟨hfollows.frameSize, fun v x hx hlive => ?_⟩, fun v hv => ?_⟩
  · rw [hfollows.vars, getElem?_settle, Option.map_eq_some_iff] at hx
    obtain ⟨y, hy, rfl⟩ := hx
    -- the record of a local that has ended is dead
    split at hlive
    · cases hlive
    · exact hy
  · have hnone : (outline env fuel i).decls.lookup v = none := by
      rw [List.lookup_eq_none_iff]
      intro d hd
      rw [bne_iff_ne]
      rintro rfl
      exact hv (declares_of_decls hd)
    rw [hfollows.vars, getElem?_settle, hnone]
    simp

end Locals

/-! ## What is passed on -/

/-- The scope that a block opens around its parts. -/
def Block.opened (b : Block) (c : Compiler) : List (Int16 × Nat) :=
  match b with
  | .many _ _ => [(c.frameSize, c.crashDepth)]
  | .loop _ => [(c.frameSize, c.crashDepth)]
  | .var _ _ => [(c.frameSize, c.crashDepth)]
  | _ => []

theorem Block.mem_opened {b : Block} {c : Compiler} {e : Int16 × Nat} (he : e ∈ b.opened c) :
    b.opened c = [(c.frameSize, c.crashDepth)] ∧ e = (c.frameSize, c.crashDepth) := by
  cases b with
  | many | loop | var => exact ⟨rfl, List.mem_singleton.mp he⟩
  | _ => cases he

/-- What the body of a local is compiled with. -/
structure Declared (env : CompileEnv) (p q : BlockCall) (v body tid : Nat) (ty : Ty) : Prop where
  block : env.func.blocks[p.idx]? = some (.var v body)
  var : env.func.vars[v]? = some tid
  type : env.types[tid]? = some ty
  size : ty.size.toNat ≤ 32767
  nonneg : 0 ≤ (p.state.frameSize + Int16.ofNat ty.size.toNat).toInt
  state : q.state = p.state.enterVar v tid (Int16.ofNat ty.size.toNat)

/-- What the state of a call has from the state of the call around it. -/
structure Descends (env : CompileEnv) (p q : BlockCall) : Prop where
  under : Under env.func.blocks q.idx p.idx
  typed : q.state.Typed env
  entries : ∀ b, env.func.blocks[p.idx]? = some b →
    q.state.entries = b.opened p.state ++ p.state.entries
  params : env.func.CountsFit → p.state.params = [] → q.state.params = []
  depth : p.state.crashDepth ≤ q.state.crashDepth
  kept : ∀ v, ¬ Declares env.func.blocks p.idx v → q.state.vars[v]? = p.state.vars[v]?
  locals : Inherits p.state q.state ∨ ∃ v body tid ty, Declared env p q v body tid ty

section Descends

variable {env : CompileEnv}

theorem enterVar_vars {c : Compiler} {v w tid : Nat} {size : Int16} (hne : v ≠ w) :
    (c.enterVar v tid size).vars[w]? = c.vars[w]? :=
  List.getElem?_set_ne hne

/-- The frame grows by the size of the local, without overflow. -/
theorem Declared.frame {p q : BlockCall} {v body tid : Nat} {ty : Ty}
    (h : Declared env p q v body tid ty) (hlow : 0 ≤ p.state.frameSize.toInt) :
    q.state.frameSize.toInt = p.state.frameSize.toInt + ty.size.toNat := by
  have hsize := h.size
  have hsizeInt : (Int16.ofNat ty.size.toNat).toInt = ty.size.toNat :=
    Int16.toInt_ofNat_of_lt (by omega)
  rw [h.state, ← hsizeInt]
  exact toInt_add_of_nonneg hlow (by omega) h.nonneg

theorem Descends.frame {p q : BlockCall} (h : Descends env p q) (hlow : 0 ≤ p.state.frameSize.toInt) :
    p.state.frameSize.toInt ≤ q.state.frameSize.toInt := by
  rcases h.locals with hinherits | ⟨v, body, tid, ty, hdecl⟩
  · exact le_of_eq (congrArg Int16.toInt hinherits.frameSize).symm
  · have hsum := hdecl.frame hlow
    omega

theorem Descends.live {p q : BlockCall} (h : Descends env p q) {v : Nat} (hv : q.state.Live v) :
    p.state.Live v ∨ ∃ body, env.func.blocks[p.idx]? = some (.var v body) := by
  rcases h.locals with hinherits | ⟨w, body, tid, ty, hdecl⟩
  · exact .inl (hinherits.isLive hv)
  · by_cases hw : w = v
    · subst hw
      exact .inr ⟨body, hdecl.block⟩
    · obtain ⟨x, hx, hlive⟩ := hv
      rw [hdecl.state, enterVar_vars hw] at hx
      exact .inl ⟨x, hx, hlive⟩

/-- The children before the one that is called have left the state as it was. -/
structure LedTo (env : CompileEnv) (i j : Nat) (c c' : Compiler) : Prop where
  under : Under env.func.blocks j i
  rests : Rests env c c'
  keeps : Keeps env i c c'
  crashDepth : c'.crashDepth = c.crashDepth

theorem ChildAt.ledTo {fuel i j : Nat} {cur next : Option Nat} {b : Block} {c c' : Compiler}
    (h : ChildAt env (compileBlock env fuel) cur next c j c')
    (hi : env.func.blocks[i]? = some b) (hlists : b.Lists cur next) (htyped : c.Typed env) :
    LedTo env i j c c' := by
  induction h generalizing i b with
  | here => exact ⟨.of_names hi (hlists.first _ rfl), .refl _, .of_vars rfl rfl, rfl⟩
  | @later child l j cur' next' c c₁ c' hchild hlink _ ih =>
      have hfollows := compileBlock_follows env fuel _ _ _ _ htyped hchild
      obtain ⟨hunder, hrests, hkeeps, hdepth⟩ :=
        ih hlink (Block.lists_chain cur' next') (hfollows.typed htyped)
      have hl : Under env.func.blocks l i := .of_names hi (hlists.rest child l rfl rfl)
      have hkept := (compileBlock_keeps htyped hchild).up
        (Under.of_names hi (hlists.first child rfl))
      exact ⟨Relation.TransGen.trans hunder hl, (compileBlock_rests env fuel _ _ _ _ hchild).trans hrests,
        hkept.trans (hkeeps.up hl), hdepth.trans hfollows.crashDepth⟩

/-- A part that is compiled in the state of the block around it, but for its scopes. -/
theorem descends_of_keeps {p q : BlockCall} {b : Block} (hi : env.func.blocks[p.idx]? = some b)
    (hunder : Under env.func.blocks q.idx p.idx) (htyped : q.state.Typed env)
    (hentries : q.state.entries = b.opened p.state ++ p.state.entries)
    (hparams : env.func.CountsFit → p.state.params = [] → q.state.params = [])
    (hdepth : p.state.crashDepth ≤ q.state.crashDepth) (hkeeps : Keeps env p.idx p.state q.state) :
    Descends env p q := by
  refine ⟨hunder, htyped, fun b' hb' => ?_, hparams, hdepth, hkeeps.kept, .inl hkeeps.toInherits⟩
  cases hi.symm.trans hb'
  exact hentries

theorem descends_of_restored {p q : BlockCall} {b : Block} (hi : env.func.blocks[p.idx]? = some b)
    (hnames : b.Names q.idx) (hopened : b.opened p.state = []) (htyped : p.state.Typed env)
    (hsave : q.state.save = p.state.save) (hentries : q.state.entries = p.state.entries) :
    Descends env p q := by
  have hvars : q.state.vars = p.state.vars := congrArg Saved.vars hsave
  refine descends_of_keeps hi (.of_names hi hnames) ?_ ?_ (fun _ h => ?_) ?_
    (.of_vars (congrArg Saved.frameSize hsave) hvars)
  · rw [Compiler.Typed, hvars]
    exact htyped
  · rw [hentries, hopened, List.nil_append]
  · exact (congrArg Saved.params hsave).trans h
  · exact Nat.le_of_eq (congrArg Saved.crashDepth hsave).symm

theorem Declared.descends {p q : BlockCall} {v body tid : Nat} {ty : Ty}
    (h : Declared env p q v body tid ty) (hidx : q.idx = body) (htyped : p.state.Typed env) :
    Descends env p q := by
  have hstate := h.state
  refine ⟨?_, ?_, fun b' hb' => ?_, fun _ hempty => ?_, ?_, fun w hw => ?_,
    .inr ⟨v, body, tid, ty, h⟩⟩
  · rw [hidx]
    exact .of_names h.block .var
  · rw [hstate]
    exact (map_tid_set htyped h.var).trans htyped
  · cases h.block.symm.trans hb'
    rw [hstate]
    rfl
  · rw [hstate]
    exact hempty
  · rw [hstate]
    exact Nat.le_refl _
  · rw [hstate]
    refine enterVar_vars ?_
    rintro rfl
    exact hw ⟨p.idx, body, h.block, .inl rfl⟩

theorem Enters.descends {p q : BlockCall} (h : Enters env p q) (htyped : p.state.Typed env) :
    Descends env p q := by
  cases h with
  | @child fuel i j cur next c c' hi hchild =>
      have htyped₀ : (c.pushScope c.frameSize).Typed env := htyped
      obtain ⟨hunder, hrests, hkeeps, hdepth⟩ :=
        hchild.ledTo hi (Block.lists_many cur next) htyped₀
      have hkeeps' : Keeps env i c c' := ⟨⟨hkeeps.frameSize, hkeeps.live⟩, hkeeps.kept⟩
      exact descends_of_keeps hi hunder (hchild.typed (compileBlock_follows env fuel) htyped₀)
        hrests.entries hrests.params (Nat.le_of_eq hdepth.symm) hkeeps'
  | @varBody fuel i v body tid ty c c' hi htid hty hsize hadd =>
      obtain ⟨hstate, hnonneg⟩ := emitStorageAdd_enters hadd
      have hdecl : Declared env ⟨fuel + 1, i, c⟩ ⟨fuel, body, c'⟩ v body tid ty :=
        ⟨hi, htid, hty, hsize, hnonneg, hstate⟩
      exact hdecl.descends rfl htyped
  | @yes fuel i yes no noPatch cond c c' hi hyes =>
      have hsame := branchYes_same hyes
      refine descends_of_keeps hi (.of_names hi .yes) ?_ hsame.entries (branchYes_rests hyes).params
        (Nat.le_of_eq hsame.crashDepth.symm) (.of_vars hsame.frameSize hsame.vars)
      rw [Compiler.Typed, hsame.vars]
      exact htyped
  | no hi hyes harm hno =>
      have hrestored := branchNo_restored hno
      refine descends_of_restored hi .no rfl htyped hrestored.save ?_
      rw [hrestored.entries, (compileBlock_rests env _ _ _ _ _ harm).entries,
        (branchYes_same hyes).entries]
  | loopBody hi =>
      exact descends_of_keeps hi (.of_names hi .loop) htyped rfl (fun _ h => h) (Nat.le_refl _)
        (.of_vars rfl rfl)
  | padBody hi =>
      exact descends_of_keeps hi (.of_names hi .padBody) htyped rfl (fun _ h => h) (Nat.le_succ _)
        (.of_vars rfl rfl)
  | pad hi hbody hpad =>
      have hrestored := padHandler_restored hpad
      refine descends_of_restored hi .pad rfl htyped hrestored.save ?_
      rw [hrestored.entries, (compileBlock_rests env _ _ _ _ _ hbody).entries]
      rfl

end Descends

end TreeVM
