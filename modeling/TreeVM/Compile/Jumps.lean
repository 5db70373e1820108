import TreeVM.Compile.LaidOut

/-!
# Jump targets

`JumpTo` says what every 16-bit operand of a jump is meant to be: the start of its loop, the end of
the scope that is left, the first instruction of an arm or a handler, the end of the arm that is
jumped over.  It follows the recursion of the compiler and does not look at the operands.

* `compileBlock_laid`: what `compile_block` writes into these operands, for code of any size;
* `jumps_exact_iff`: when no operand is truncated.
-/

namespace TreeVM

/-- `JumpTo env fuel ends b c edge p t`: the code that `compile_block` emits for the block `b` in the
state `c`, the open scopes ending at `ends`, has a jump operand at `p` which is meant to be `t`. -/
inductive JumpTo (env : CompileEnv) :
    Nat → List Nat → Option Block → Compiler → Edge → Nat → Nat → Prop
  | child {fuel j p t : Nat} {ends : List Nat} {cur next : Option Nat} {c c₁ c' : Compiler}
      {r : Reach} {edge : Edge}
      (hall : compileChildren env (compileBlock env fuel) fuel cur next .reachable
        (c.pushScope c.frameSize) = .ok (r, c₁))
      (hchild : ChildAt env (compileBlock env fuel) cur next (c.pushScope c.frameSize) j c')
      (h : JumpTo env fuel (c₁.code.length :: ends) env.func.blocks[j]? c' edge p t) :
      JumpTo env (fuel + 1) ends (some (.many cur next)) c edge p t
  | varBody {fuel v body tid p t : Nat} {ends : List Nat} {ty : Ty} {c c₁ c₂ c₃ : Compiler}
      {r : Reach} {edge : Edge}
      (htid : env.func.vars[v]? = some tid) (hty : env.types[tid]? = some ty)
      (hadd : { c.pushScope c.frameSize with vars := c.vars.set v ⟨tid, c.frameSize, true⟩
        }.emitStorageAdd (Int16.ofNat ty.size.toNat) = .ok c₁)
      (hbody : compileBlock env fuel body c₁ = .ok (r, c₂))
      (hrelease : (if r = .reachable then
        (setLive c₂ v false).emitStorageAdd (-Int16.ofNat ty.size.toNat) else pure c₂) = .ok c₃)
      (h : JumpTo env fuel (c₃.code.length :: ends) env.func.blocks[body]? c₁ edge p t) :
      JumpTo env (fuel + 1) ends (some (.var v body)) c edge p t
  /-- The first operand of `B_BRANCH_TOP`. -/
  | toYes {fuel yes no noPatch : Nat} {ends : List Nat} {cond : OpRange} {c c₁ : Compiler}
      (hyes : branchYes env cond c = .ok (noPatch, c₁)) :
      JumpTo env (fuel + 1) ends (some (.branch cond yes no)) c .forward (noPatch - 2)
        c₁.code.length
  | inYes {fuel yes no noPatch p t : Nat} {ends : List Nat} {cond : OpRange} {c c₁ : Compiler}
      {edge : Edge} (hyes : branchYes env cond c = .ok (noPatch, c₁))
      (h : JumpTo env fuel ends env.func.blocks[yes]? c₁ edge p t) :
      JumpTo env (fuel + 1) ends (some (.branch cond yes no)) c edge p t
  /-- The second operand of `B_BRANCH_TOP`. -/
  | toNo {fuel yes no noPatch endPatch : Nat} {ends : List Nat} {cond : OpRange} {r : Reach}
      {c c₁ c₂ c₃ : Compiler} (hyes : branchYes env cond c = .ok (noPatch, c₁))
      (hfirst : compileBlock env fuel yes c₁ = .ok (r, c₂))
      (hno : branchNo c.save noPatch r c₂ = .ok (endPatch, c₃)) :
      JumpTo env (fuel + 1) ends (some (.branch cond yes no)) c .forward noPatch c₃.code.length
  | inNo {fuel yes no noPatch endPatch p t : Nat} {ends : List Nat} {cond : OpRange} {r : Reach}
      {c c₁ c₂ c₃ : Compiler} {edge : Edge} (hyes : branchYes env cond c = .ok (noPatch, c₁))
      (hfirst : compileBlock env fuel yes c₁ = .ok (r, c₂))
      (hno : branchNo c.save noPatch r c₂ = .ok (endPatch, c₃))
      (h : JumpTo env fuel ends env.func.blocks[no]? c₃ edge p t) :
      JumpTo env (fuel + 1) ends (some (.branch cond yes no)) c edge p t
  /-- The jump at the end of the first arm, over the second one. -/
  | overNo {fuel yes no noPatch endPatch : Nat} {ends : List Nat} {cond : OpRange} {r : Reach}
      {c c₁ c₂ c₃ c₄ : Compiler} (hyes : branchYes env cond c = .ok (noPatch, c₁))
      (hfirst : compileBlock env fuel yes c₁ = .ok (.reachable, c₂))
      (hno : branchNo c.save noPatch .reachable c₂ = .ok (endPatch, c₃))
      (hsecond : compileBlock env fuel no c₃ = .ok (r, c₄)) :
      JumpTo env (fuel + 1) ends (some (.branch cond yes no)) c .forward endPatch c₄.code.length
  | loopBody {fuel body p t : Nat} {ends : List Nat} {c c₁ : Compiler} {r : Reach} {edge : Edge}
      (hbody : compileBlock env fuel body (c.pushScope c.frameSize) = .ok (r, c₁))
      (h : JumpTo env fuel ((c₁.code.length + if r = .reachable then 3 else 0) :: ends)
        env.func.blocks[body]? (c.pushScope c.frameSize) edge p t) :
      JumpTo env (fuel + 1) ends (some (.loop body)) c edge p t
  | toHead {fuel body : Nat} {ends : List Nat} {c c₁ : Compiler}
      (hbody : compileBlock env fuel body (c.pushScope c.frameSize) = .ok (.reachable, c₁)) :
      JumpTo env (fuel + 1) ends (some (.loop body)) c .back (c₁.code.length + 1) c.code.length
  | padBody {fuel body pad p t : Nat} {ends : List Nat} {c : Compiler} {edge : Edge}
      (h : JumpTo env fuel ends env.func.blocks[body]? (padBody c) edge p t) :
      JumpTo env (fuel + 1) ends (some (.crashPad body pad)) c edge p t
  /-- The operand of `B_PUSH_CRASH`. -/
  | toPad {fuel body pad endPatch : Nat} {ends : List Nat} {r : Reach} {c c₁ c₂ : Compiler}
      (hbody : compileBlock env fuel body (padBody c) = .ok (r, c₁))
      (hpad : padHandler c.save (c.code.length + 1) r c₁ = .ok (endPatch, c₂)) :
      JumpTo env (fuel + 1) ends (some (.crashPad body pad)) c .forward (c.code.length + 1)
        c₂.code.length
  | inPad {fuel body pad endPatch p t : Nat} {ends : List Nat} {r : Reach} {c c₁ c₂ : Compiler}
      {edge : Edge} (hbody : compileBlock env fuel body (padBody c) = .ok (r, c₁))
      (hpad : padHandler c.save (c.code.length + 1) r c₁ = .ok (endPatch, c₂))
      (h : JumpTo env fuel ends env.func.blocks[pad]? c₂ edge p t) :
      JumpTo env (fuel + 1) ends (some (.crashPad body pad)) c edge p t
  /-- The jump at the end of the body of a pad, over the handler and its `B_CRASH`. -/
  | overPad {fuel body pad endPatch : Nat} {ends : List Nat} {r : Reach} {c c₁ c₂ c₃ : Compiler}
      (hbody : compileBlock env fuel body (padBody c) = .ok (.reachable, c₁))
      (hpad : padHandler c.save (c.code.length + 1) .reachable c₁ = .ok (endPatch, c₂))
      (hhandler : compileBlock env fuel pad c₂ = .ok (r, c₃)) :
      JumpTo env (fuel + 1) ends (some (.crashPad body pad)) c .forward endPatch
        (c₃.code.length + if r = .reachable then 1 else 0)
  /-- The jump of a break, to the end of the scope that it names. -/
  | toEnd {fuel level t : Nat} {ends : List Nat} {c c' : Compiler} {r : Reach}
      (hbreak : compileBreak c level = .ok (r, c')) (hend : ends[level - 1]? = some t) :
      JumpTo env (fuel + 1) ends (some (.brk level)) c .forward (c'.code.length - 2) t

/-! ## Operations -/

section Ops

variable {env : CompileEnv} {hs : List Nat} {c c' : Compiler}

theorem LaidOut.of_eq {x x' : Output} (hcode : x'.code = x.code) (hlog : x'.log = x.log)
    (hscopes : x'.scopes = x.scopes) : LaidOut .none hs x hs x' := by
  obtain ⟨code, log, scopes, table⟩ := x
  obtain ⟨code', log', scopes', table'⟩ := x'
  cases hcode
  cases hlog
  cases hscopes
  exact ⟨fun ht => ⟨ht.inside, ht.apart⟩, fun _ hK => ⟨hK.agree, hK.targets⟩,
    fun _ _ _ _ _ h => h.elim, fun _ _ _ he => .inl he, fun _ _ hp => .inl hp, Nat.le_refl _⟩

/-- Parts without jumps. -/
theorem LaidOut.and_then {J : Jumps} {hs₁ hs₂ : List Nat} {x x₁ x₂ : Output}
    (h : LaidOut J hs x hs₁ x₁) (h' : LaidOut .none hs₁ x₁ hs₂ x₂) : LaidOut J hs x hs₂ x₂ :=
  (h.trans h').congr fun _ _ _ _ => or_iff_left id

theorem LaidOut.before {J : Jumps} {hs₁ hs₂ : List Nat} {x x₁ x₂ : Output}
    (h : LaidOut .none hs x hs₁ x₁) (h' : LaidOut J hs₁ x₁ hs₂ x₂) : LaidOut J hs x hs₂ x₂ :=
  (h.trans h').congr fun _ _ _ _ => or_iff_right id

/-- An instruction that is no jump. -/
theorem emit_laid {i : Instr} (hi : i.targetsAt = []) (hs : List Nat) (c : Compiler) :
    LaidOut .none hs c.output hs (c.emit i).output := by
  have h : LaidOut .none hs c.output (i.targetsAt.map (c.output.code.length + ·) ++ hs)
      (c.emit i).output := .emit i rfl rfl rfl
  rwa [hi] at h

theorem Issues.laid (h : Issues c c') : LaidOut .none hs c.output hs c'.output := by
  cases h with
  | none => exact .of_eq rfl rfl rfl
  | @some i ps t hi =>
      have htable : LaidOut .none hs c.output hs ({ c with table := t } : Compiler).output :=
        .of_eq rfl rfl rfl
      exact (htable.and_then (emit_laid hi hs _)).and_then (.of_eq rfl rfl rfl)

theorem compileOps_laid {ops : List Op} (h : compileOps env ops c = .ok c') :
    LaidOut .none hs c.output hs c'.output := by
  induction ops generalizing c with
  | nil =>
      cases h
      exact .refl _ _
  | cons op ops ih =>
      obtain ⟨c₁, hop, h⟩ := bind_eq_ok.mp h
      exact (compileOp_issues hop).laid.and_then (ih h)

theorem compileBasic_laid {ops : OpRange} {r : Reach} (h : compileBasic env c ops = .ok (r, c')) :
    LaidOut .none hs c.output hs c'.output := by
  simp only [compileBasic, Compiler.fail] at h
  split at h
  · cases h
  · obtain ⟨c₁, hops, h⟩ := bind_eq_ok.mp h
    have hlaid : LaidOut .none hs c.output hs c₁.output := compileOps_laid hops
    split at h
    · cases h
    · split at h
      · cases h
        exact hlaid
      · obtain ⟨c₂, hpop, h⟩ := bind_eq_ok.mp h
        obtain ⟨-, rfl⟩ := popTypes_eq_ok hpop
        cases h
        exact (hlaid.and_then (emit_laid rfl hs _)).and_then (.of_eq rfl rfl rfl)

theorem compileCond_laid {cond : OpRange} (h : compileCond env c cond = .ok c') :
    LaidOut .none hs c.output hs c'.output := by
  simp only [compileCond, Compiler.fail] at h
  split at h
  · cases h
  · obtain ⟨c₁, hops, h⟩ := bind_eq_ok.mp h
    split at h
    · cases h
    · cases h
      exact compileOps_laid hops

theorem emitPops_laid (n : Nat) (hs : List Nat) (c : Compiler) :
    LaidOut .none hs c.output hs (emitPops n c).output := by
  induction n generalizing c with
  | zero => exact .refl _ _
  | succ n ih => exact (emit_laid rfl hs c).and_then (ih _)

theorem emitStorageAdd_laid {amount : Int16} (h : c.emitStorageAdd amount = .ok c') :
    LaidOut .none hs c.output hs c'.output := by
  simp only [Compiler.emitStorageAdd, Compiler.fail] at h
  split at h
  · cases h
  · cases h
    exact (emit_laid rfl hs c).and_then (.of_eq rfl rfl rfl)

end Ops

/-! ## Blocks -/

section Blocks

variable {env : CompileEnv} {fuel : Nat} {c c' c₁ : Compiler} {r r₁ : Reach}

/-- The jumps of a block. -/
def blockJumps (env : CompileEnv) (fuel : Nat) (b : Option Block) (c : Compiler) : Jumps :=
  fun ends => JumpTo env fuel ends b c

/-- What the lemmas about blocks with parts assume of the parts. -/
def LaidOutAll (env : CompileEnv) (fuel : Nat) : Prop :=
  ∀ i c r c', compileBlock env fuel i c = .ok (r, c') →
    LaidOut (blockJumps env fuel env.func.blocks[i]? c) [] c.output [] c'.output

theorem finishScope_laid {J : Jumps} {broken : Bool}
    (h : LaidOut J [] (c.pushScope c.frameSize).output [] c₁.output)
    (hfinish : c₁.finishScope = .ok (broken, c')) :
    LaidOut (J.inside c₁.code.length) [] c.output [] c'.output := by
  obtain ⟨s, rest, hscopes, hsmall, houtput⟩ := finishScope_output hfinish
  rw [houtput]
  have hsmall' : s.patches ≠ [] → c₁.output.code.length ≤ 65535 := hsmall
  have hempty : Scope.patches { frameSize := c.frameSize, crashDepth := c.crashDepth } = [] := rfl
  exact LaidOut.scope hempty h hscopes hsmall'

def childJumps (env : CompileEnv) (fuel : Nat) (cur next : Option Nat) (c : Compiler) : Jumps :=
  fun ends edge p t => ∃ j c', ChildAt env (compileBlock env fuel) cur next c j c' ∧
    JumpTo env fuel ends env.func.blocks[j]? c' edge p t

theorem compileChildren_laid {n : Nat} {cur next : Option Nat} (hblock : LaidOutAll env fuel)
    (h : compileChildren env (compileBlock env fuel) n cur next .reachable c = .ok (r, c')) :
    LaidOut (childJumps env fuel cur next c) [] c.output [] c'.output := by
  have hempty : ∀ {next c}, LaidOut (childJumps env fuel none next c) [] c.output [] c.output := by
    intro next c
    refine (LaidOut.refl [] c.output).congr fun ends edge p t => ⟨fun h => h.elim, ?_⟩
    rintro ⟨j, c', hchild, -⟩
    cases hchild
  induction n generalizing cur next c with
  | zero =>
      cases cur with
      | none =>
          cases h
          exact hempty
      | some child => cases h
  | succ n ih =>
      cases cur with
      | none =>
          cases h
          exact hempty
      | some child =>
          obtain ⟨⟨r₁, c₁⟩, hchild, h⟩ := bind_eq_ok.mp h
          have hchild : compileBlock env fuel child c = .ok (r₁, c₁) := hchild
          have hfirst := hblock _ _ _ _ hchild
          -- nothing is compiled behind the first child
          have hlast : (∀ l cur' next', next = some l → r₁ = .reachable →
              env.func.blocks[l]? ≠ some (.chain cur' next')) →
              LaidOut (childJumps env fuel (some child) next c) [] c.output [] c₁.output := by
            intro hstop
            refine hfirst.congr fun ends edge p t => ⟨fun hj => ⟨child, c, .here, hj⟩, ?_⟩
            rintro ⟨j, c', hat, hj⟩
            cases hat with
            | here => exact hj
            | later hok hlink hrest =>
                cases hchild.symm.trans hok
                exact (hstop _ _ _ rfl rfl hlink).elim
          cases next with
          | none =>
              cases h
              exact hlast fun _ _ _ hl => by cases hl
          | some l =>
              simp only [Compiler.fail] at h
              split at h
              · rename_i cur next hlink
                cases r₁ with
                | reachable =>
                    refine (hfirst.trans (ih h)).congr fun ends edge p t => ⟨?_, ?_⟩
                    · rintro (hj | ⟨j, c', hat, hj⟩)
                      · exact ⟨child, c, .here, hj⟩
                      · exact ⟨j, c', .later hchild hlink hat, hj⟩
                    · rintro ⟨j, c', hat, hj⟩
                      cases hat with
                      | here => exact .inl hj
                      | later hok hlink' hrest =>
                          cases hchild.symm.trans hok
                          cases hlink.symm.trans hlink'
                          exact .inr ⟨j, c', hrest, hj⟩
                | unreachable =>
                    obtain ⟨rfl, rfl⟩ := compileChildren_stays h
                    exact hlast fun _ _ _ _ hr => by cases hr
              · cases h

theorem compileMany_laid {cur next : Option Nat} (hblock : LaidOutAll env fuel)
    (h : compileMany env (compileBlock env fuel) fuel cur next c = .ok (r, c')) :
    LaidOut (blockJumps env (fuel + 1) (some (.many cur next)) c) [] c.output [] c'.output := by
  obtain ⟨⟨r₁, c₁⟩, hinner, h⟩ := bind_eq_ok.mp h
  obtain ⟨⟨broken, c₂⟩, hfinish, h⟩ := bind_eq_ok.mp h
  cases h
  refine (finishScope_laid (compileChildren_laid hblock hinner) hfinish).congr
    fun ends edge p t => ⟨?_, fun hj => ?_⟩
  · rintro ⟨j, c', hat, hj⟩
    exact .child hinner hat hj
  · cases hj with
    | child hall hat hj =>
        cases hinner.symm.trans hall
        exact ⟨_, _, hat, hj⟩

theorem compileVar_laid {v body : Nat} (hblock : LaidOutAll env fuel)
    (h : compileVar env (compileBlock env fuel) v body c = .ok (r, c')) :
    LaidOut (blockJumps env (fuel + 1) (some (.var v body)) c) [] c.output [] c'.output := by
  simp only [compileVar, Compiler.fail] at h
  split at h
  · cases h
  · rename_i tid htid
    split at h
    · cases h
    · rename_i ty hty
      split at h
      · cases h
      · obtain ⟨c₁, hadd, h⟩ := bind_eq_ok.mp h
        obtain ⟨⟨r₂, c₂⟩, hbody, h⟩ := bind_eq_ok.mp h
        simp only [ite_bind] at h
        obtain ⟨c₃, hrelease, h⟩ := bind_eq_ok.mp h
        obtain ⟨⟨r₄, c₄⟩, hend, h⟩ := bind_eq_ok.mp h
        obtain ⟨⟨broken, c₅⟩, hfinish, hend⟩ := bind_eq_ok.mp hend
        cases hend
        cases h
        have hleave : LaidOut .none [] c₂.output [] c₃.output := by
          split at hrelease
          · have hdead : LaidOut .none [] (setLive c₂ v false).output [] c₃.output :=
              emitStorageAdd_laid hrelease
            exact hdead
          · cases hrelease
            exact .refl _ _
        have hadded : LaidOut .none [] _ [] c₁.output := emitStorageAdd_laid hadd
        have henter : LaidOut .none [] (c.pushScope c.frameSize).output [] c₁.output := hadded
        have hinner := (henter.before (hblock _ _ _ _ hbody)).and_then hleave
        refine (finishScope_laid hinner hfinish).congr fun ends edge p t => ⟨fun hj => ?_, fun hj => ?_⟩
        · exact .varBody htid hty hadd hbody hrelease hj
        · cases hj with
          | varBody htid' hty' hadd' hbody' hrelease' hj =>
              cases htid.symm.trans htid'
              cases hty.symm.trans hty'
              cases hadd.symm.trans hadd'
              cases hbody.symm.trans hbody'
              cases hrelease.symm.trans hrelease'
              exact hj

theorem compileBreak_laid {level : Nat} (h : compileBreak c level = .ok (r, c')) :
    LaidOut (blockJumps env (fuel + 1) (some (.brk level)) c) [] c.output [] c'.output := by
  have hbreak := h
  cases level with
  | zero => cases h
  | succ outer =>
      simp only [compileBreak, Compiler.fail] at h
      split at h
      · cases h
      · rename_i s hs
        have hpops := emitPops_laid (c.crashDepth - s.crashDepth) [] c
        have hsame := emitPops_same (c.crashDepth - s.crashDepth) c
        generalize emitPops (c.crashDepth - s.crashDepth) c = c₁ at h hpops hsame
        generalize hc₂ : (if s.frameSize - c₁.frameSize = 0 then c₁
          else c₁.emit (.storageAdd (s.frameSize - c₁.frameSize))) = c₂ at h
        have hclean : LaidOut .none [] c₁.output [] c₂.output ∧ c₂.scopes = c₁.scopes := by
          subst hc₂
          split
          · exact ⟨.refl _ _, rfl⟩
          · exact ⟨emit_laid rfl _ _, rfl⟩
        have hjump : BreakJump outer s c₂.params c₂.output
            ((c₂.emit (.jump 0)).addPatch (outer + 1) (c₂.code.length + 1)).output := by
          refine ⟨?_, rfl⟩
          rw [c₂.output_scopes, hclean.2, hsame.scopes]
          exact hs
        have hplace : ((c₂.emit (.jump 0)).addPatch (outer + 1) (c₂.code.length + 1)).code.length - 2 =
            c₂.code.length + 1 := by
          have hlength := hjump.length
          simp only [Compiler.output_code] at hlength
          omega
        cases h
        refine ((hpops.and_then hclean.1).before (.leave hjump)).congr fun ends edge p t => ⟨?_, ?_⟩
        · rintro ⟨rfl, rfl, hend⟩
          rw [c₂.output_code, ← hplace]
          exact .toEnd hbreak hend
        · intro hj
          cases hj with
          | toEnd hbreak' hend =>
              cases hbreak.symm.trans hbreak'
              exact ⟨rfl, hplace, hend⟩

theorem compileLoop_laid {body : Nat} (hblock : LaidOutAll env fuel)
    (h : compileLoop (compileBlock env fuel) body c = .ok (r, c')) :
    LaidOut (blockJumps env (fuel + 1) (some (.loop body)) c) [] c.output [] c'.output := by
  obtain ⟨⟨r₁, c₁⟩, hbody, h⟩ := bind_eq_ok.mp h
  simp only [ite_bind] at h
  obtain ⟨c₂, hback, h⟩ := bind_eq_ok.mp h
  obtain ⟨⟨broken, c₃⟩, hfinish, h⟩ := bind_eq_ok.mp h
  cases h
  have hinner := hblock _ _ _ _ hbody
  cases r₁ with
  | reachable =>
      have hc₂ : c₂ = c₁.emit (.jump (UInt16.ofNat c.code.length)) := by
        rw [if_pos rfl] at hback
        simp only [Compiler.fail] at hback
        split at hback
        · cases hback
          rfl
        · cases hback
      have hjump : LaidOut (.one .back (c₁.code.length + 1) c.code.length) [] c₁.output []
          c₂.output := by
        have hlog : (c₁.emit (.jump (UInt16.ofNat c.code.length))).output.log =
            c₁.output.log ++ [(c₁.output.code.length, c₁.params)] := rfl
        rw [hc₂]
        exact .jumpBack rfl hlog rfl
      have hlength : c₂.code.length = c₁.code.length + 3 := by
        rw [hc₂]
        simp [Compiler.emit, encode, Instr.operands, encodeOperands]
      refine (finishScope_laid (hinner.trans hjump) hfinish).congr fun ends edge p t => ⟨?_, ?_⟩
      · rintro (hj | ⟨rfl, rfl, rfl⟩)
        · exact .loopBody hbody (by rwa [if_pos rfl, ← hlength])
        · exact .toHead hbody
      · intro hj
        cases hj with
        | loopBody hbody' hj =>
            cases hbody.symm.trans hbody'
            rw [if_pos rfl, ← hlength] at hj
            exact .inl hj
        | toHead hbody' =>
            cases hbody.symm.trans hbody'
            exact .inr ⟨rfl, rfl, rfl⟩
  | unreachable =>
      cases hback
      refine (finishScope_laid hinner hfinish).congr fun ends edge p t => ⟨fun hj => ?_, fun hj => ?_⟩
      · exact .loopBody hbody hj
      · cases hj with
        | loopBody hbody' hj =>
            cases hbody.symm.trans hbody'
            exact hj
        | toHead hbody' => cases hbody.symm.trans hbody'

/-! ## Branches and pads -/

/-- The operand of a jump is patched with the end of the code. -/
theorem patch_laid {p : Nat} {hs : List Nat} (hpatch : c.patch p c.code.length = .ok c')
    (hinside : p + 2 ≤ c.code.length) :
    LaidOut (.one .forward p c'.code.length) (p :: hs) c.output hs c'.output ∧
      c'.code.length = c.code.length := by
  obtain ⟨hsmall, rfl⟩ := patch_eq_ok hpatch
  have hlength := Output.length_patch (x := c.output) (t := c.code.length) hinside
  refine ⟨?_, hlength⟩
  have hlaid : LaidOut (.one .forward p c.code.length) (p :: hs) c.output hs
      (c.output.patch p c.code.length) := .patch hsmall
  rw [show Compiler.code _ = (c.output.patch p c.code.length).code from rfl, hlength]
  exact hlaid

theorem branchYes_laid {cond : OpRange} {noPatch : Nat}
    (h : branchYes env cond c = .ok (noPatch, c')) :
    LaidOut (.one .forward (noPatch - 2) c'.code.length) [] c.output [noPatch] c'.output ∧
      noPatch + 2 ≤ c'.code.length := by
  obtain ⟨c₁, hcond, h⟩ := bind_eq_ok.mp h
  obtain ⟨c₂, hpop, h⟩ := bind_eq_ok.mp h
  obtain ⟨c₃, hpatch, hc₃⟩ := bind_eq_ok.mp h
  obtain ⟨-, hc₂⟩ := popTypes_eq_ok hpop
  cases hc₃
  have hlength : c₂.code.length = c₁.code.length + 5 := by
    rw [hc₂]
    simp [Compiler.emit, encode, Instr.operands, encodeOperands]
  have hopen : LaidOut .none [] c₁.output [c₁.code.length + 1, c₁.code.length + 3] c₂.output := by
    have hlog : (c₁.emit (.branchTop 0 0)).output.log =
        c₁.output.log ++ [(c₁.output.code.length, c₁.params)] := rfl
    rw [hc₂]
    exact LaidOut.emit (.branchTop 0 0) rfl hlog rfl
  obtain ⟨hclosed, hlength'⟩ := patch_laid hpatch (by omega)
  exact ⟨((compileCond_laid hcond).and_then hopen).before hclosed, by omega⟩

/-- The jump behind a reachable arm. -/
theorem emitEnd_laid {endPatch : Nat} {hs : List Nat}
    (h : (if r = .reachable then emitJump c else (0, c)) = (endPatch, c')) :
    LaidOut .none hs c.output (openEnd r endPatch ++ hs) c'.output := by
  cases r with
  | reachable =>
      cases h
      exact LaidOut.emit (.jump 0) rfl rfl rfl
  | unreachable =>
      cases h
      exact .refl _ _

theorem branchNo_laid {before : Saved} {noPatch endPatch : Nat}
    (h : branchNo before noPatch r c = .ok (endPatch, c')) (hinside : noPatch + 2 ≤ c.code.length) :
    LaidOut (.one .forward noPatch c'.code.length) [noPatch] c.output (openEnd r endPatch) c'.output := by
  generalize hend : (if r = .reachable then emitJump c else (0, c)) = pair at h
  obtain ⟨p, c₁⟩ := pair
  simp only [branchNo, hend] at h
  obtain ⟨c₂, hpatch, h⟩ := bind_eq_ok.mp h
  cases h
  have hopen : LaidOut .none [noPatch] c.output (openEnd r endPatch ++ [noPatch]) c₁.output :=
    emitEnd_laid hend
  have hopen : LaidOut .none [noPatch] c.output (noPatch :: openEnd r endPatch) c₁.output :=
    hopen.perm (@List.perm_append_comm _ [noPatch] _)
  have hle := hopen.length_le
  obtain ⟨hclosed, -⟩ := patch_laid (c := c₁.restore before) hpatch
    (Nat.le_trans hinside hle)
  exact hopen.before hclosed

theorem branchJoin_laid {endPatch : Nat} {yesR noR : Reach} {yesState : Saved}
    (h : branchJoin endPatch yesR yesState noR c = .ok (r, c')) :
    LaidOut (fun _ edge p t => yesR = .reachable ∧ edge = .forward ∧ p = endPatch ∧ t = c.code.length)
      (openEnd yesR endPatch) c.output [] c'.output := by
  simp only [branchJoin, ite_bind] at h
  obtain ⟨c₁, hend, h⟩ := bind_eq_ok.mp h
  have houtput : c'.output = c₁.output := by
    cases yesR <;> cases noR <;> simp only [Compiler.fail] at h
    · split at h
      · cases h
        rfl
      · cases h
    all_goals
      cases h
      rfl
  rw [houtput]
  cases yesR with
  | reachable =>
      obtain ⟨hsmall, rfl⟩ := patch_eq_ok hend
      have hlaid : LaidOut (.one .forward endPatch c.code.length) [endPatch] c.output []
          (c.output.patch endPatch c.code.length) := .patch hsmall
      exact hlaid.congr fun _ _ _ _ => (and_iff_right rfl).symm
  | unreachable =>
      cases hend
      refine (LaidOut.refl _ _).congr fun _ _ _ _ => ⟨fun h => h.elim, ?_⟩
      rintro ⟨hr, -⟩
      cases hr

theorem compileBranch_laid {cond : OpRange} {yes no : Nat} (hblock : LaidOutAll env fuel)
    (h : compileBranch env (compileBlock env fuel) cond yes no c = .ok (r, c')) :
    LaidOut (blockJumps env (fuel + 1) (some (.branch cond yes no)) c) [] c.output [] c'.output := by
  rw [compileBranch_eq] at h
  obtain ⟨arms, harms, h⟩ := bind_eq_ok.mp h
  obtain ⟨noPatch, c₁, c₂, c₃, hyes, hfirst, -, hno, hsecond⟩ := compileArms_eq_ok harms
  obtain ⟨endPatch, yesR, yesState, noR, c₄⟩ := arms
  simp only at hfirst hno hsecond h
  obtain ⟨hentered, hinside⟩ := branchYes_laid hyes
  have hyesLaid := (hblock _ _ _ _ hfirst).frame [noPatch]
  have hnoLaid := branchNo_laid hno (Nat.le_trans hinside hyesLaid.length_le)
  have hsecondLaid := (hblock _ _ _ _ hsecond).frame (openEnd yesR endPatch)
  have hjoin := branchJoin_laid h
  refine ((((hentered.trans hyesLaid).trans hnoLaid).trans hsecondLaid).trans hjoin).congr
    fun ends edge p t => ⟨?_, fun hj => ?_⟩
  · rintro ((((⟨rfl, rfl, rfl⟩ | hj) | ⟨rfl, rfl, rfl⟩) | hj) | ⟨rfl, rfl, rfl, rfl⟩)
    · exact .toYes hyes
    · exact .inYes hyes hj
    · exact .toNo hyes hfirst hno
    · exact .inNo hyes hfirst hno hj
    · exact .overNo hyes hfirst hno hsecond
  · cases hj with
    | toYes hyes' =>
        cases hyes.symm.trans hyes'
        exact .inl (.inl (.inl (.inl ⟨rfl, rfl, rfl⟩)))
    | inYes hyes' hj =>
        cases hyes.symm.trans hyes'
        exact .inl (.inl (.inl (.inr hj)))
    | toNo hyes' hfirst' hno' =>
        cases hyes.symm.trans hyes'
        cases hfirst.symm.trans hfirst'
        cases hno.symm.trans hno'
        exact .inl (.inl (.inr ⟨rfl, rfl, rfl⟩))
    | inNo hyes' hfirst' hno' hj =>
        cases hyes.symm.trans hyes'
        cases hfirst.symm.trans hfirst'
        cases hno.symm.trans hno'
        exact .inl (.inr hj)
    | overNo hyes' hfirst' hno' hsecond' =>
        cases hyes.symm.trans hyes'
        cases hfirst.symm.trans hfirst'
        cases hno.symm.trans hno'
        cases hsecond.symm.trans hsecond'
        exact .inr ⟨rfl, rfl, rfl, rfl⟩

theorem padHandler_laid {before : Saved} {padPatch endPatch : Nat}
    (h : padHandler before padPatch r c = .ok (endPatch, c'))
    (hinside : padPatch + 2 ≤ c.code.length) :
    LaidOut (.one .forward padPatch c'.code.length) [padPatch] c.output (openEnd r endPatch)
      c'.output := by
  generalize hend : (if r = .reachable then emitJump (padClosed r c) else (0, padClosed r c)) =
    pair at h
  obtain ⟨p, c₁⟩ := pair
  simp only [padHandler, hend] at h
  obtain ⟨c₂, hpatch, h⟩ := bind_eq_ok.mp h
  cases h
  have hclose : LaidOut .none [padPatch] c.output [padPatch] (padClosed r c).output := by
    cases r with
    | reachable => exact emit_laid rfl _ _
    | unreachable => exact .refl _ _
  have hopen : LaidOut .none [padPatch] c.output (openEnd r endPatch ++ [padPatch]) c₁.output :=
    hclose.and_then (emitEnd_laid hend)
  have hopen : LaidOut .none [padPatch] c.output (padPatch :: openEnd r endPatch) c₁.output :=
    hopen.perm (@List.perm_append_comm _ [padPatch] _)
  have hle := hopen.length_le
  obtain ⟨hclosed, -⟩ := patch_laid (c := c₁.restore before) hpatch
    (Nat.le_trans hinside hle)
  exact hopen.before hclosed

theorem padEnd_laid {endPatch : Nat} {bodyR padR : Reach} {bodyState : Saved}
    (h : padEnd endPatch bodyR bodyState padR c = .ok (r, c')) :
    LaidOut (fun _ edge p t => bodyR = .reachable ∧ edge = .forward ∧ p = endPatch ∧
      t = c.code.length + if padR = .reachable then 1 else 0)
      (openEnd bodyR endPatch) c.output [] c'.output := by
  have hcrash : LaidOut .none (openEnd bodyR endPatch) c.output (openEnd bodyR endPatch)
      (if padR = .reachable then c.emit .crash else c).output ∧
      (if padR = .reachable then c.emit .crash else c).code.length =
        c.code.length + if padR = .reachable then 1 else 0 := by
    cases padR with
    | reachable =>
        refine ⟨emit_laid rfl _ _, ?_⟩
        simp [Compiler.emit, encode, Instr.operands, encodeOperands]
    | unreachable => exact ⟨.refl _ _, rfl⟩
  simp only [padEnd, ite_bind] at h
  generalize (if padR = .reachable then c.emit .crash else c) = c₀ at h hcrash
  obtain ⟨hlaid, hlength⟩ := hcrash
  obtain ⟨c₁, hend, h⟩ := bind_eq_ok.mp h
  cases bodyR with
  | reachable =>
      obtain ⟨hsmall, rfl⟩ := patch_eq_ok hend
      cases h
      have hpatch : LaidOut (.one .forward endPatch c₀.code.length) [endPatch] c₀.output []
          (c₀.output.patch endPatch c₀.code.length) := .patch hsmall
      rw [← hlength]
      exact (hlaid.before hpatch).congr fun _ _ _ _ => (and_iff_right rfl).symm
  | unreachable =>
      cases hend
      cases h
      refine hlaid.congr fun _ _ _ _ => ⟨fun h => h.elim, ?_⟩
      rintro ⟨hr, -⟩
      cases hr

theorem compileCrashPad_laid {body pad : Nat} (hblock : LaidOutAll env fuel)
    (h : compileCrashPad (compileBlock env fuel) body pad c = .ok (r, c')) :
    LaidOut (blockJumps env (fuel + 1) (some (.crashPad body pad)) c) [] c.output [] c'.output := by
  rw [compileCrashPad_eq] at h
  obtain ⟨⟨bodyR, c₁⟩, hbody, h⟩ := bind_eq_ok.mp h
  obtain ⟨⟨endPatch, c₂⟩, hpad, h⟩ := bind_eq_ok.mp h
  obtain ⟨⟨padR, c₃⟩, hhandler, h⟩ := bind_eq_ok.mp h
  simp only at hpad hhandler h
  have hentered : LaidOut .none [] c.output [c.code.length + 1] (padBody c).output := by
    have hlog : (padBody c).output.log = c.output.log ++ [(c.output.code.length, c.params)] := rfl
    exact LaidOut.emit (.pushCrash 0) rfl hlog rfl
  have hinside : c.code.length + 1 + 2 ≤ (padBody c).code.length := by
    simp [padBody, Compiler.emit, encode, Instr.operands, encodeOperands]
  have hbodyLaid := (hblock _ _ _ _ hbody).frame [c.code.length + 1]
  have hpadLaid := padHandler_laid hpad (Nat.le_trans hinside hbodyLaid.length_le)
  have hhandlerLaid := (hblock _ _ _ _ hhandler).frame (openEnd bodyR endPatch)
  have hend := padEnd_laid h
  refine ((((hentered.before hbodyLaid).trans hpadLaid).trans hhandlerLaid).trans hend).congr
    fun ends edge p t => ⟨?_, fun hj => ?_⟩
  · rintro (((hj | ⟨rfl, rfl, rfl⟩) | hj) | ⟨rfl, rfl, rfl, rfl⟩)
    · exact .padBody hj
    · exact .toPad hbody hpad
    · exact .inPad hbody hpad hj
    · exact .overPad hbody hpad hhandler
  · cases hj with
    | padBody hj => exact .inl (.inl (.inl hj))
    | toPad hbody' hpad' =>
        cases hbody.symm.trans hbody'
        cases hpad.symm.trans hpad'
        exact .inl (.inl (.inr ⟨rfl, rfl, rfl⟩))
    | inPad hbody' hpad' hj =>
        cases hbody.symm.trans hbody'
        cases hpad.symm.trans hpad'
        exact .inl (.inr hj)
    | overPad hbody' hpad' hhandler' =>
        cases hbody.symm.trans hbody'
        cases hpad.symm.trans hpad'
        cases hhandler.symm.trans hhandler'
        exact .inr ⟨rfl, rfl, rfl, rfl⟩

end Blocks

/-- Blocks without jumps. -/
theorem LaidOut.plain {env : CompileEnv} {fuel : Nat} {b : Block} {c : Compiler} {x : Output}
    (h : LaidOut .none [] c.output [] x)
    (hnone : ∀ ends edge p t, ¬ JumpTo env (fuel + 1) ends (some b) c edge p t) :
    LaidOut (blockJumps env (fuel + 1) (some b) c) [] c.output [] x :=
  h.congr fun ends edge p t => ⟨fun hj => hj.elim, fun hj => hnone ends edge p t hj⟩

/-- What `compile_block` writes into the operands of its jumps. -/
theorem compileBlock_laid (env : CompileEnv) (fuel : Nat) : LaidOutAll env fuel := by
  induction fuel with
  | zero =>
      intro i c r c' h
      cases h
  | succ fuel ih =>
      intro i c r c' h
      rw [compileBlock] at h
      cases hblock : env.func.blocks[i]? with
      | none =>
          rw [hblock] at h
          cases h
      | some b =>
          rw [hblock] at h
          cases b with
          | basic ops => exact (compileBasic_laid h).plain fun _ _ _ _ hj => by cases hj
          | defer next cleanup => cases h
          | many cur next => exact compileMany_laid ih h
          | chain cur next => cases h
          | crash =>
              cases h
              exact (emit_laid rfl _ _).plain fun _ _ _ _ hj => by cases hj
          | hardCrash =>
              cases h
              exact (emit_laid rfl _ _).plain fun _ _ _ _ hj => by cases hj
          | crashPad body pad => exact compileCrashPad_laid ih h
          | branch cond yes no => exact compileBranch_laid ih h
          | loop body => exact compileLoop_laid ih h
          | brk level => exact compileBreak_laid h
          | var v body => exact compileVar_laid ih h

/-! ## Functions -/

section Functions

variable {ctx : Context} {place : Nat → UInt64} {fuel : Nat} {f : Func} {types : List Ty} {t : Table}
  {c : Compiler}

/-- What does not change while `f` is compiled. -/
def Func.env (f : Func) (ctx : Context) (place : Nat → UInt64) (fuel : Nat) (types : List Ty) :
    CompileEnv :=
  ⟨f, types, ctx, place, contextFuncCode ctx fun f table =>
    (compileState ctx place fuel f table).map Compiler.result⟩

/-- The jump operands of a function and the offsets that they are meant to be. -/
def Func.JumpTo (f : Func) (ctx : Context) (place : Nat → UInt64) (fuel : Nat) (types : List Ty)
    (t : Table) : Edge → Nat → Nat → Prop :=
  TreeVM.JumpTo (f.env ctx place fuel types) fuel [] f.blocks[0]? (.start f t)

theorem finishFunc_laid {c' : Compiler} (h : finishFunc f c = .ok c') :
    LaidOut .none [] c.output [] c'.output ∧ c'.scopes = c.scopes := by
  simp only [finishFunc, Compiler.fail] at h
  split at h
  · cases h
  · cases h
    split
    · exact ⟨emit_laid rfl _ _, rfl⟩
    · exact ⟨(emit_laid rfl _ c).and_then (emit_laid rfl _ _), rfl⟩

/-- What the code of a function has in its jump operands. -/
theorem compileState_jumps (htypes : layoutAll f.types = some types)
    (h : compileState ctx place (fuel + 1) f t = .ok c) :
    (∀ edge p s, f.JumpTo ctx place fuel types t edge p s →
      At (c.code.getD · 0) p (bytesOf 2 s) ∧ (edge = .forward → s ≤ 65535)) ∧
    ∀ o ps, (o, ps) ∈ c.log → ∀ d ∈ targetsOf (c.code.getD o 0),
      ∃ edge s, f.JumpTo ctx place fuel types t edge (o + d) s := by
  rw [compileState, compileBody, htypes] at h
  split at h
  · cases h
  · cases h
  · rename_i types' htypes' _
    cases htypes'
    obtain ⟨⟨r, c₁⟩, hblock, hfinish⟩ := bind_eq_ok.mp h
    have hblock : compileBlock (f.env ctx place fuel types) fuel 0 (.start f t) = .ok (r, c₁) :=
      hblock
    have htyped := Compiler.typed_start (f.env ctx place fuel types) t
    obtain ⟨hend, hscopes⟩ := finishFunc_laid hfinish
    have hlaid := (compileBlock_laid _ _ _ _ _ _ hblock).and_then hend
    have hnil : c.scopes = [] := by
      have hlength := (compileBlock_follows _ _ _ _ _ _ htyped hblock).scopes
      rw [hscopes]
      exact List.eq_nil_of_length_eq_zero hlength
    have ht : Tidy ([] ++ []) (Compiler.start f t).output := ⟨by simp [Output.pending,
      Compiler.output, Compiler.start], by simp [Output.pending, Compiler.output, Compiler.start]⟩
    have hK : Agrees (c.code.getD · 0) [] ([] ++ []) c.output := by
      refine ⟨fun i hi _ => ?_, by rw [c.output_scopes, hnil]; exact .nil⟩
      have hi : i < c.code.length := hi
      simp [hi]
    refine ⟨fun edge p s hj => hlaid.exact ht hK edge p s hj, fun o ps ho d hd => ?_⟩
    rcases hlaid.known ht hK _ ho with hold | hnew
    · cases hold
    · rcases hnew d hd with hopen | hj
      · cases hopen
      · exact hj

theorem readUOffset_eq {code : Nat → UInt8} {p s : Nat} (h : At code p (bytesOf 2 s)) :
    (readUOffset code p).toNat = s % 65536 := by
  rw [readUOffset, h.readNat, UInt16.toNat_ofNat']
  omega

/-- **Jump targets.**  Every 16-bit target in the code of an accepted function has an offset that it
is meant to be.  All of them are exact, and below 65536, if and only if no jump leads back to a loop
that starts behind the offset 65535. -/
theorem jumps_exact_iff (htypes : layoutAll f.types = some types)
    (h : compileState ctx place (fuel + 1) f t = .ok c) :
    (∀ o ps, (o, ps) ∈ c.log → ∀ d ∈ targetsOf (c.code.getD o 0),
      ∃ edge s, f.JumpTo ctx place fuel types t edge (o + d) s) ∧
    ((∀ edge p s, f.JumpTo ctx place fuel types t edge p s →
      s ≤ 65535 ∧ (readUOffset (c.code.getD · 0) p).toNat = s) ↔
        ∀ p s, f.JumpTo ctx place fuel types t .back p s → s ≤ 65535) := by
  obtain ⟨hexact, hknown⟩ := compileState_jumps htypes h
  refine ⟨hknown, fun hall p s hj => (hall .back p s hj).1, fun hback edge p s hj => ?_⟩
  obtain ⟨hat, hforward⟩ := hexact edge p s hj
  have hsmall : s ≤ 65535 := by
    cases edge with
    | back => exact hback p s hj
    | forward => exact hforward rfl
  refine ⟨hsmall, ?_⟩
  rw [readUOffset_eq hat]
  omega

end Functions

/-! ## Samples -/

/-- `f(in x : int) { PUSH_ARG 0, .. ; LOOP {} }`, with a number of pushes in front of the loop. -/
def lateLoop (pushes : Nat) : Func where
  sig := ⟨[⟨0, false⟩], []⟩
  types := [{ kind := .int }, { kind := .byte }]
  blocks := [.many (some 1) (some 2), .basic ⟨0, pushes⟩, .chain (some 3) none, .loop 4,
    .basic ⟨0, 0⟩]
  ops := List.replicate pushes ⟨.pushArg, 0⟩
  vars := [0]

section Samples

variable {env : CompileEnv} {n : Nat}

theorem compileOps_pushes (hvar : env.func.vars[0]? = some 0) (hty : 0 < env.types.length)
    (c : Compiler) : ∃ c', compileOps env (List.replicate n ⟨.pushArg, 0⟩) c = .ok c' ∧
      c'.code.length = c.code.length + 5 * n ∧ c'.params.length = c.params.length + n := by
  induction n generalizing c with
  | zero => exact ⟨c, rfl, rfl, rfl⟩
  | succ n ih =>
      obtain ⟨c', hops, hcode, hparams⟩ := ih ((c.emit (.pushArg 0)).pushType 0)
      have hop : compileOp env c ⟨.pushArg, 0⟩ = .ok ((c.emit (.pushArg 0)).pushType 0) := by
        have hidx : UInt16.toNat 0 = 0 := rfl
        simp only [compileOp, emitPushArg, hidx, hvar, if_pos hty]
        rfl
      refine ⟨c', ?_, ?_, ?_⟩
      · rw [List.replicate_succ, compileOps, hop]
        exact hops
      · rw [hcode]
        simp [Compiler.pushType, Compiler.emit, encode, Instr.operands, encodeOperands]
        omega
      · rw [hparams]
        simp [Compiler.pushType, Compiler.emit]
        omega

/-- The block of pushes, which drops what it pushed. -/
theorem compileBasic_pushes (hvar : env.func.vars[0]? = some 0) (hty : 0 < env.types.length)
    (hops : opsIn env ⟨0, n⟩ = some (List.replicate n ⟨.pushArg, 0⟩)) (hn : 0 < n ∧ n < 2 ^ 32)
    (c : Compiler) : ∃ c', compileBasic env c ⟨0, n⟩ = .ok (.reachable, c') ∧
      c'.code.length = c.code.length + 5 * n + 5 ∧ SameFrame c c' := by
  obtain ⟨c₁, hcompiled, hcode, hparams⟩ := compileOps_pushes (n := n) hvar hty c
  have hextra : (UInt32.ofNat (c₁.params.length - c.params.length)).toNat = n := by
    rw [hparams, Nat.add_sub_cancel_left, UInt32.toNat_ofNat']
    omega
  have hne : UInt32.ofNat (c₁.params.length - c.params.length) ≠ 0 := by
    intro hzero
    rw [hzero] at hextra
    have : n = 0 := hextra.symm
    omega
  have hpop : ∀ c₂ : Compiler, c₂.params = c₁.params →
      c₂.popTypes n = .ok { c₂ with params := c₂.params.drop n } := by
    intro c₂ hc₂
    rw [Compiler.popTypes, if_neg]
    rw [hc₂, hparams]
    omega
  have hresult : compileBasic env c ⟨0, n⟩ = .ok (.reachable,
      { c₁.emit (.dropN (UInt32.ofNat (c₁.params.length - c.params.length))) with
        params := c₁.params.drop n }) := by
    simp only [compileBasic, hops, hcompiled, bind, Except.bind, hextra, hne, if_false]
    rw [if_neg (by omega), hpop (c₁.emit _) rfl]
    rfl
  refine ⟨_, hresult, ?_, (compileBasic_same hresult).2⟩
  simp [Compiler.emit, encode, Instr.operands, encodeOperands, hcode]

theorem compileBasic_empty (c : Compiler) : compileBasic env c ⟨0, 0⟩ = .ok (.reachable, c) := by
  simp [compileBasic, opsIn, compileOps, bind, Except.bind, pure, Except.pure]

/-- The loop starts behind the pushes and the `B_DROP_N`. -/
theorem lateLoop_compiles (hn : 0 < n ∧ n < 2 ^ 32) : ∃ types c p,
    layoutAll (lateLoop n).types = some types ∧
    compileState ⟨[], []⟩ (fun _ => 0) (3 + 1) (lateLoop n) [] = .ok c ∧
    (lateLoop n).JumpTo ⟨[], []⟩ (fun _ => 0) 3 types [] .back p (5 * n + 5) := by
  obtain ⟨types, htypes, hlength⟩ : ∃ types, layoutAll (lateLoop n).types = some types ∧
      0 < types.length := ⟨_, rfl, Nat.zero_lt_succ _⟩
  let env := (lateLoop n).env ⟨[], []⟩ (fun _ => 0) 3 types
  let c₀ : Compiler := (Compiler.start (lateLoop n) []).pushScope 0
  have hops : opsIn env ⟨0, n⟩ = some (List.replicate n ⟨.pushArg, 0⟩) := by
    have hfit : 0 + n ≤ (List.replicate n (⟨.pushArg, 0⟩ : Op)).length := by simp
    change (if 0 + n ≤ (List.replicate n (⟨.pushArg, 0⟩ : Op)).length then _ else none) = _
    rw [if_pos hfit]
    have htake : List.take n (List.drop 0 (List.replicate n (⟨.pushArg, 0⟩ : Op))) =
        List.replicate n ⟨.pushArg, 0⟩ := by simp
    exact congrArg some htake
  obtain ⟨c₁, hbasic, hcode, hsame⟩ := compileBasic_pushes rfl hlength hops hn c₀
  have hfirst : compileBlock env 2 1 c₀ = .ok (.reachable, c₁) := hbasic
  have hbody : compileBlock env 1 4 (c₁.pushScope c₁.frameSize) =
      .ok (.reachable, c₁.pushScope c₁.frameSize) := compileBasic_empty _
  -- the jump back, and the two scopes without breaks
  let c₂ := (c₁.pushScope c₁.frameSize).emit (.jump (UInt16.ofNat c₁.code.length))
  have hloop : compileBlock env 2 3 c₁ = .ok (.unreachable, { c₂ with scopes := c₁.scopes }) := by
    change compileLoop (compileBlock env 1) 4 c₁ = _
    have hsave : (c₁.pushScope c₁.frameSize).save = c₁.save := rfl
    simp only [compileLoop, hbody, bind, Except.bind, hsave, if_true]
    rfl
  have hscopes : c₁.scopes = [{ frameSize := 0, crashDepth := 0 }] := hsame.scopes
  have hchildren : compileChildren env (compileBlock env 2) 2 (some 1) (some 2) .reachable c₀ =
      .ok (.unreachable, { c₂ with scopes := c₁.scopes }) := by
    have hlink : env.func.blocks[2]? = some (.chain (some 3) none) := rfl
    simp only [compileChildren, if_true, hfirst, hlink, hloop, bind, Except.bind]
    rfl
  have hroot : ∃ c₃, compileBlock env 3 0 (.start (lateLoop n) []) = .ok (.unreachable, c₃) := by
    change ∃ c₃, compileMany env (compileBlock env 2) 2 (some 1) (some 2)
      (.start (lateLoop n) []) = .ok (.unreachable, c₃)
    have hchildren : compileChildren env (compileBlock env 2) 2 (some 1) (some 2) .reachable
        ((Compiler.start (lateLoop n) []).pushScope (Compiler.start (lateLoop n) []).frameSize) =
        .ok (.unreachable, { c₂ with scopes := c₁.scopes }) := hchildren
    simp only [compileMany, hchildren, bind, Except.bind, endScope, Compiler.finishScope, hscopes]
    exact ⟨_, rfl⟩
  obtain ⟨c₃, hroot⟩ := hroot
  refine ⟨types, (c₃.emit (.dropN 1)).emit .ret, (c₁.pushScope c₁.frameSize).code.length + 1,
    htypes, ?_, ?_⟩
  · rw [compileState, compileBody, htypes]
    change (compileBlock env 3 0 (.start (lateLoop n) []) >>= fun x => finishFunc (lateLoop n) x.2) =
      _
    rw [hroot]
    have hfinish : finishFunc (lateLoop n) c₃ = .ok ((c₃.emit (.dropN 1)).emit .ret) := by
      simp [finishFunc, lateLoop]
    exact hfinish
  · have hlength₁ : c₁.code.length = 5 * n + 5 := by
      have hzero : c₀.code.length = 0 := rfl
      omega
    rw [← hlength₁]
    have hlast : ChildAt env (compileBlock env 2) (some 1) (some 2) c₀ 3 c₁ :=
      .later hfirst rfl .here
    exact .child hchildren hlast (.toHead hbody)

end Samples

/-- The loop starts at 70005, and its jump back goes to 4469. -/
theorem lateLoop_truncates : ∃ types c p s, layoutAll (lateLoop 14000).types = some types ∧
    compileState ⟨[], []⟩ (fun _ => 0) (3 + 1) (lateLoop 14000) [] = .ok c ∧
    (lateLoop 14000).JumpTo ⟨[], []⟩ (fun _ => 0) 3 types [] .back p s ∧
    (readUOffset (c.code.getD · 0) p).toNat ≠ s := by
  obtain ⟨types, c, p, htypes, hcompiled, hjump⟩ := lateLoop_compiles (n := 14000) (by decide)
  refine ⟨types, c, p, 5 * 14000 + 5, htypes, hcompiled, hjump, ?_⟩
  have hat := ((compileState_jumps htypes hcompiled).1 _ _ _ hjump).1
  rw [readUOffset_eq hat]
  decide

/-- `f() { LOOP {} }` -/
def idleLoop : Func where
  sig := ⟨[], []⟩
  types := [{ kind := .int }, { kind := .byte }]
  blocks := [.loop 1, .basic ⟨0, 0⟩]
  ops := []
  vars := []

/-- The loop starts at 0. -/
theorem jumps_exact_iff_idleLoop : ∃ types c, layoutAll idleLoop.types = some types ∧
    compileState ⟨[], []⟩ (fun _ => 0) (2 + 1) idleLoop [] = .ok c ∧
    ∀ edge p s, idleLoop.JumpTo ⟨[], []⟩ (fun _ => 0) 2 types [] edge p s →
      s ≤ 65535 ∧ (readUOffset (c.code.getD · 0) p).toNat = s := by
  refine ⟨_, _, rfl, rfl, (jumps_exact_iff rfl rfl).2.mpr fun p s hj => ?_⟩
  have hj : TreeVM.JumpTo _ 2 [] (some (.loop 1)) (.start idleLoop []) .back p s := hj
  cases hj with
  | loopBody _ hj =>
      have hj : TreeVM.JumpTo _ 1 _ (some (.basic ⟨0, 0⟩)) _ .back p s := hj
      cases hj
  | toHead _ => decide

end TreeVM
