import TreeVM.Compile.Outline

/-!
# Joins

`compile_branch` and `compile_loop` accept a join only when `state_equal` holds, which compares the
records of dead locals as well.

* `SameLive`: the states agree in everything that code behind the join depends on;
* `Compiler.baseAfter`: the base in the record of a local behind a block;
* `joins_accept_iff`: when states that agree so are joined.
-/

namespace TreeVM

/-- The place of a local that is live. -/
def Saved.place (s : Saved) (v : Nat) : Option Int16 :=
  (s.vars[v]?).bind fun x => if x.live then some x.base else none

structure SameLive (s s' : Saved) : Prop where
  params : s.params = s'.params
  places : ∀ v, s.place v = s'.place v
  frameSize : s.frameSize = s'.frameSize
  crashDepth : s.crashDepth = s'.crashDepth

/-- The base recorded for a local behind a block with these declarations, entered in the state
`c`. -/
def Compiler.baseAfter (c : Compiler) (decls : List (Nat × Int16)) (v : Nat) : Int16 :=
  match decls.lookup v with
  | some offset => c.frameSize + offset
  | none => ((c.vars[v]?).map VarLayout.base).getD 0

section Records

variable {c : Compiler} {decls decls' : List (Nat × Int16)} {v : Nat} {x : VarLayout}

theorem getElem?_settle (frame : Int16) (vars : List VarLayout) :
    (settle frame decls vars)[v]? = (vars[v]?).map fun x =>
      match decls.lookup v with
      | some offset => x.ended (frame + offset)
      | none => x := by
  induction decls with
  | nil => simp [settle]
  | cons d decls ih =>
      obtain ⟨w, offset⟩ := d
      rw [settle, List.getElem?_modify, ih]
      by_cases hw : w = v
      · subst hw
        cases vars[w]? with
        | none => simp
        | some x => cases hlookup : decls.lookup w <;> simp [VarLayout.ended]
      · have hne : (v == w) = false := by simpa using Ne.symm hw
        simp [hw, List.lookup_cons, hne]

/-- The record of a local behind a block. -/
theorem settle_base (hx : (settle c.frameSize decls c.vars)[v]? = some x) :
    x.base = c.baseAfter decls v ∧ ∃ y, c.vars[v]? = some y ∧ x.tid = y.tid := by
  rw [getElem?_settle, Option.map_eq_some_iff] at hx
  obtain ⟨y, hy, rfl⟩ := hx
  rw [Compiler.baseAfter, hy]
  cases decls.lookup v with
  | none => exact ⟨rfl, y, rfl, rfl⟩
  | some offset => exact ⟨rfl, y, rfl, rfl⟩

theorem exists_settle (decls : List (Nat × Int16)) (frame : Int16) {vars : List VarLayout} (hv : v < vars.length) :
    ∃ x, (settle frame decls vars)[v]? = some x := by
  have hlen : v < (settle frame decls vars).length := by
    rw [length_settle]
    exact hv
  exact ⟨_, List.getElem?_eq_getElem hlen⟩

/-- Records that agree where they are live are equal when the recorded bases are. -/
theorem settle_eq_iff
    (hplaces : ∀ v, (Saved.mk [] (settle c.frameSize decls c.vars) 0 0).place v =
      (Saved.mk [] (settle c.frameSize decls' c.vars) 0 0).place v) :
    settle c.frameSize decls c.vars = settle c.frameSize decls' c.vars ↔
      ∀ v < c.vars.length, c.baseAfter decls v = c.baseAfter decls' v := by
  constructor
  · intro heq v hv
    obtain ⟨x, hx⟩ := exists_settle decls c.frameSize hv
    rw [← (settle_base hx).1]
    rw [heq] at hx
    exact (settle_base hx).1
  · intro hbase
    apply List.ext_getElem?
    intro v
    by_cases hv : v < c.vars.length
    · obtain ⟨x, hx⟩ := exists_settle decls c.frameSize hv
      obtain ⟨x', hx'⟩ := exists_settle decls' c.frameSize hv
      obtain ⟨hxbase, y, hy, htid⟩ := settle_base hx
      obtain ⟨hxbase', y', hy', htid'⟩ := settle_base hx'
      have hplace := hplaces v
      simp only [Saved.place, hx, hx', Option.bind_some] at hplace
      cases hy.symm.trans hy'
      obtain ⟨tid, base, live⟩ := x
      obtain ⟨tid', base', live'⟩ := x'
      have hlive : live = live' := by
        cases live <;> cases live' <;> simp at hplace ⊢
      rw [hx, hx']
      simp only at hxbase hxbase' htid htid'
      rw [hxbase, hxbase', htid, htid', hlive, hbase v hv]
    · have hvars : c.vars.length ≤ v := Nat.le_of_not_lt hv
      rw [getElem?_settle, getElem?_settle, List.getElem?_eq_none hvars]
      rfl

end Records

/-! ## The records at every visit -/

section Visits

variable {env : CompileEnv} {start fuel i : Nat} {t : Table} {c c' : Compiler}

theorem ChildAt.typed {block : Nat → Compiler → Except Table (Reach × Compiler)}
    {blockOutline : Nat → Outline} {cur next : Option Nat} {j : Nat}
    (hblock : FollowsAll env block blockOutline) (h : ChildAt env block cur next c j c')
    (htyped : c.Typed env) : c'.Typed env := by
  induction h with
  | here => exact htyped
  | later hchild _ _ ih => exact ih ((hblock _ _ _ _ htyped hchild).typed htyped)

theorem Restored.typed {before c₁ : Compiler} (h : Restored before.save c₁ c')
    (htyped : before.Typed env) : c'.Typed env := by
  have hvars : c'.vars = before.vars := congrArg Saved.vars h.save
  rw [Compiler.Typed, hvars]
  exact htyped

/-- The recorded types are those of the function whenever `compile_block` is called. -/
theorem Visits.typed (h : Visits env start t fuel i c) : c.Typed env := by
  induction h with
  | root => exact Compiler.typed_start env t
  | child _ _ hchild ih => exact hchild.typed (compileBlock_follows env _) ih
  | varBody _ _ htid _ _ hadd ih =>
      obtain ⟨-, -, hvars, -⟩ := emitStorageAdd_follows hadd
      rw [Compiler.Typed, hvars]
      exact (map_tid_set ih htid).trans ih
  | yes _ _ hyes ih =>
      rw [Compiler.Typed, (branchYes_same hyes).vars]
      exact ih
  | no _ _ _ _ hno ih => exact (branchNo_restored hno).typed ih
  | loopBody _ _ ih => exact ih
  | padBody _ _ ih => exact ih
  | pad _ _ _ hpad ih => exact (padHandler_restored hpad).typed ih

end Visits

/-! ## Accepted joins -/

section Joins

variable {env : CompileEnv} {c c₁ : Compiler}

/-- `state_equal` in terms of the recorded bases. -/
theorem save_eq_iff {s s' : Saved} {decls decls' : List (Nat × Int16)} (h : SameLive s s')
    (hs : s.vars = settle c.frameSize decls c.vars)
    (hs' : s'.vars = settle c.frameSize decls' c.vars) :
    s = s' ↔ ∀ v < c.vars.length, c.baseAfter decls v = c.baseAfter decls' v := by
  obtain ⟨params, vars, frameSize, crashDepth⟩ := s
  obtain ⟨params', vars', frameSize', crashDepth'⟩ := s'
  obtain ⟨rfl, hplaces, rfl, rfl⟩ := h
  simp only at hs hs'
  subst hs hs'
  rw [← settle_eq_iff hplaces]
  simp

theorem patch_accepts (c : Compiler) (p : Nat) {target : Nat} (hsmall : target ≤ 65535) :
    ∃ c', c.patch p target = .ok c' := by
  rw [Compiler.patch, if_neg (by omega)]
  exact ⟨_, rfl⟩

theorem branchJoin_accepts {endPatch : Nat} {yesState : Saved}
    (hsmall : c.code.length ≤ 65535) :
    (∃ r c', branchJoin endPatch .reachable yesState .reachable c = .ok (r, c')) ↔
      yesState = c.save := by
  obtain ⟨c₁, hpatch⟩ := patch_accepts c endPatch hsmall
  simp only [branchJoin, if_pos, hpatch, Compiler.fail]
  constructor
  · rintro ⟨r, c', h⟩
    by_contra hne
    have hne' : ¬ (c₁.restore yesState).save = c.save := hne
    simp [hne', bind, Except.bind] at h
  · intro heq
    have heq' : (c₁.restore yesState).save = c.save := heq
    simp [heq', bind, Except.bind, pure, Except.pure]

/-- The join of a branch. -/
theorem branch_accepts_iff {block : Nat → Compiler → Except Table (Reach × Compiler)}
    {blockOutline : Nat → Outline} {cond : OpRange} {yes no : Nat} {arms : Arms}
    (hblock : FollowsAll env block blockOutline) (htyped : c.Typed env)
    (harms : compileArms env block cond yes no c = .ok arms)
    (hyes : arms.yesR = .reachable) (hno : arms.noR = .reachable)
    (hsame : SameLive arms.yesState arms.last.save) (hsmall : arms.last.code.length ≤ 65535) :
    (∃ r c', compileBranch env block cond yes no c = .ok (r, c')) ↔
      ∀ v < c.vars.length,
        c.baseAfter (blockOutline yes).decls v = c.baseAfter (blockOutline no).decls v := by
  have hfollow := compileArms_follow hblock htyped harms
  have hjoin : compileBranch env block cond yes no c =
      branchJoin arms.endPatch .reachable arms.yesState .reachable arms.last := by
    rw [compileBranch_eq, harms]
    change branchJoin arms.endPatch arms.yesR arms.yesState arms.noR arms.last = _
    rw [hyes, hno]
  rw [hjoin, branchJoin_accepts hsmall, save_eq_iff hsame]
  · exact congrArg Saved.vars hfollow.yesState
  · exact congrArg Saved.vars hfollow.noState

theorem patchAll_accepts {target : Nat} (ps : List Nat) (hsmall : target ≤ 65535) :
    ∃ c', c.patchAll target ps = .ok c' := by
  induction ps generalizing c with
  | nil => exact ⟨c, rfl⟩
  | cons p ps ih =>
      obtain ⟨c₁, hpatch⟩ := patch_accepts c p hsmall
      obtain ⟨c', hrest⟩ := ih (c := c₁)
      exact ⟨c', by rw [Compiler.patchAll, hpatch]; exact hrest⟩

theorem finishScope_accepts (hscopes : c.scopes ≠ []) (hsmall : c.code.length ≤ 65535) :
    ∃ broken c', c.finishScope = .ok (broken, c') := by
  obtain ⟨s, rest, hcons⟩ := List.exists_cons_of_ne_nil hscopes
  obtain ⟨c', hpatch⟩ := patchAll_accepts (c := c) s.patches hsmall
  refine ⟨!s.patches.isEmpty, { c' with scopes := rest }, ?_⟩
  simp only [Compiler.finishScope, hcons, hpatch]
  rfl

/-- The join of a loop with its head. -/
theorem loop_accepts_iff {block : Nat → Compiler → Except Table (Reach × Compiler)}
    {blockOutline : Nat → Outline} {body : Nat}
    (hblock : FollowsAll env block blockOutline) (htyped : c.Typed env)
    (hbody : block body (c.pushScope c.frameSize) = .ok (.reachable, c₁))
    (hsame : SameLive c₁.save c.save) (hsmall : c₁.code.length + 3 ≤ 65535) :
    (∃ r c', compileLoop block body c = .ok (r, c')) ↔
      ∀ v < c.vars.length, c.baseAfter (blockOutline body).decls v = c.baseAfter [] v := by
  have hhead : (c.pushScope c.frameSize).Typed env := htyped
  have hfollows := hblock _ _ _ _ hhead hbody
  have hvars : c₁.save.vars = settle c.frameSize (blockOutline body).decls c.vars := hfollows.vars
  have hvars₀ : c.save.vars = settle c.frameSize [] c.vars := rfl
  rw [← save_eq_iff hsame hvars hvars₀]
  constructor
  · rintro ⟨r, c', h⟩
    by_contra hne
    simp [compileLoop, hbody, hne, bind, Except.bind, Compiler.fail] at h
  · intro heq
    obtain ⟨broken, c', hfinish⟩ := finishScope_accepts
      (c := c₁.emit (.jump (UInt16.ofNat c.code.length)))
      (by
        have hlength : c₁.scopes.length = c.scopes.length + 1 := hfollows.scopes
        exact List.ne_nil_of_length_pos (Nat.lt_of_lt_of_eq (Nat.succ_pos _) hlength.symm))
      (by simpa [Compiler.emit, encode, Instr.operands, encodeOperands] using hsmall)
    refine ⟨if broken then .reachable else .unreachable, c'.restore c.save, ?_⟩
    simp [compileLoop, hbody, heq, hfinish, bind, Except.bind, pure, Except.pure]

end Joins

/-- **Accepted joins.**  Arms of a branch that both reach their end and agree in everything that
is live are joined if and only if they leave the same bases in the records of all locals, dead ones
included; the body of a loop is joined with its head if and only if it leaves every record at the
base it had. -/
theorem joins_accept_iff {env : CompileEnv} {start fuel i : Nat} {t : Table} {c : Compiler}
    (h : Visits env start t (fuel + 1) i c) :
    (∀ cond yes no arms, env.func.blocks[i]? = some (.branch cond yes no) →
      compileArms env (compileBlock env fuel) cond yes no c = .ok arms →
      arms.yesR = .reachable → arms.noR = .reachable →
      SameLive arms.yesState arms.last.save → arms.last.code.length ≤ 65535 →
      ((∃ r c', compileBlock env (fuel + 1) i c = .ok (r, c')) ↔
        ∀ v < env.func.vars.length, c.baseAfter (outline env fuel yes).decls v =
          c.baseAfter (outline env fuel no).decls v)) ∧
    (∀ body c₁, env.func.blocks[i]? = some (.loop body) →
      compileBlock env fuel body (c.pushScope c.frameSize) = .ok (.reachable, c₁) →
      SameLive c₁.save c.save → c₁.code.length + 3 ≤ 65535 →
      ((∃ r c', compileBlock env (fuel + 1) i c = .ok (r, c')) ↔
        ∀ v < env.func.vars.length,
          c.baseAfter (outline env fuel body).decls v = c.baseAfter [] v)) := by
  have htyped := h.typed
  have hlength : env.func.vars.length = c.vars.length := by
    rw [← htyped, List.length_map]
  have hfollows := compileBlock_follows env fuel
  rw [hlength]
  constructor
  · intro cond yes no arms hblock harms hyes hno hsame hsmall
    rw [compileBlock, hblock]
    exact branch_accepts_iff hfollows htyped harms hyes hno hsame hsmall
  · intro body c₁ hblock hbody hsame hsmall
    rw [compileBlock, hblock]
    exact loop_accepts_iff hfollows htyped hbody hsame hsmall

/-! ## Functions on their own -/

/-- The compiler's view of a function that calls nothing. -/
def Func.alone (f : Func) : CompileEnv :=
  ⟨f, (layoutAll f.types).getD [], ⟨[], []⟩, fun _ => 0, fun _ t => .ok t⟩

section Congr

variable {env env' : CompileEnv}

theorem outlineChildren_congr (hfunc : env.func = env'.func) (block : Nat → Outline) (n : Nat)
    (cur next : Option Nat) :
    outlineChildren env block n cur next = outlineChildren env' block n cur next := by
  induction n generalizing cur next with
  | zero => cases cur <;> rfl
  | succ n ih =>
      cases cur with
      | none => rfl
      | some child => simp only [outlineChildren, hfunc, ih]

/-- Outlines do not depend on the callees. -/
theorem outline_congr (hfunc : env.func = env'.func) (htypes : env.types = env'.types) (n : Nat) :
    outline env n = outline env' n := by
  induction n with
  | zero => rfl
  | succ n ih =>
      funext i
      simp only [outline, ih, outlineChildren_congr hfunc, varSize, hfunc, htypes]

end Congr

/-! ## Samples -/

/-- `f(in x : int) { VAR a { BRANCH x { VAR b {} } {} } }` -/
def localInArm : Func where
  sig := ⟨[⟨0, false⟩], []⟩
  types := [{ kind := .int }, { kind := .byte }]
  blocks := [.var 1 1, .branch ⟨0, 1⟩ 2 3, .var 2 3, .basic ⟨0, 0⟩]
  ops := [⟨.pushArg, 0⟩]
  vars := [0, 0, 0]

/-- Both arms end in the state of their start but for the record of `b`, and the branch is
rejected. -/
theorem localInArm_rejected : ∃ c arms, Visits localInArm.alone 5 [] (3 + 1) 1 c ∧
    localInArm.blocks[1]? = some (.branch ⟨0, 1⟩ 2 3) ∧
    compileArms localInArm.alone (compileBlock localInArm.alone 3) ⟨0, 1⟩ 2 3 c = .ok arms ∧
    arms.yesR = .reachable ∧ arms.noR = .reachable ∧ SameLive arms.yesState arms.last.save ∧
    arms.last.code.length ≤ 65535 ∧
    ¬ ∃ r c', compileBlock localInArm.alone (3 + 1) 1 c = .ok (r, c') := by
  refine ⟨_, _, .varBody .root (by rfl) (by rfl) (by rfl) (by decide) (by rfl), by rfl, by rfl, by rfl, by rfl,
    ⟨by rfl, fun v => ?_, by rfl, by rfl⟩, by decide, ?_⟩
  · rcases v with _ | _ | _ | v <;> rfl
  · rintro ⟨r, c', h⟩
    cases h

/-- `f(in x : int) { BRANCH x { VAR b {} } { VAR b {} } }` -/
def localInArms : Func where
  sig := ⟨[⟨0, false⟩], []⟩
  types := [{ kind := .int }, { kind := .byte }]
  blocks := [.branch ⟨0, 1⟩ 1 1, .var 1 2, .basic ⟨0, 0⟩]
  ops := [⟨.pushArg, 0⟩]
  vars := [0, 0]

/-- Both arms leave the same record of `b`. -/
theorem joins_accept_iff_localInArms : ∃ r c',
    compileBlock localInArms.alone (3 + 1) 0 (.start localInArms []) = .ok (r, c') := by
  have hroot : Visits localInArms.alone 4 [] (3 + 1) 0 (.start localInArms []) := .root
  refine ((joins_accept_iff hroot).1 ⟨0, 1⟩ 1 1 _ (by rfl) (by rfl) (by rfl) (by rfl)
    ⟨by rfl, fun v => ?_, by rfl, by rfl⟩ (by decide)).mpr (by decide)
  rcases v with _ | _ | v <;> rfl

end TreeVM
