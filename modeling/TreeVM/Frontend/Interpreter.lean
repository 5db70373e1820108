import TreeVM.Compile.Decoding

/-!
# The program of the outer interpreter

`compile_interpreter` builds the outer interpreter out of two variables, a loop and four native
functions.

* `interpreterFunc`, `interpreterContext`: the function and its globals;
* `interpreterListing`: its instructions; `compile_interpreter_eq`: the compiler emits them.
-/

namespace TreeVM

/-- The native functions of the outer interpreter; each is called through a global. -/
inductive InterpreterNative
  | nextToken
  | lookupWord
  | engageWord
  | fallback
  deriving DecidableEq, Repr

def interpreterFunc : Func where
  sig := ⟨[], []⟩
  types := [
    { kind := .int },
    { kind := .byte },
    { kind := .nativeFunc ⟨[], [intId]⟩ },
    { kind := .nativeFunc ⟨[], [intId]⟩ },
    { kind := .nativeFunc ⟨[⟨intId, false⟩], []⟩ },
    { kind := .nativeFunc ⟨[], []⟩ }]
  vars := [intId, intId]
  ops := [
    ⟨.pushVar, 0⟩, ⟨.pushGlobal, 0⟩, ⟨.callNativeOnStack, 0⟩,
    ⟨.pushVar, 0⟩,
    ⟨.pushVar, 1⟩, ⟨.pushGlobal, 1⟩, ⟨.callNativeOnStack, 0⟩,
    ⟨.pushVar, 1⟩,
    ⟨.pushVar, 1⟩, ⟨.pushGlobal, 2⟩, ⟨.callNativeOnStack, 0⟩,
    ⟨.pushGlobal, 3⟩, ⟨.callNativeOnStack, 0⟩]
  blocks := [
    .var 0 1,
    .var 1 2,
    .loop 3,
    .many (some 4) (some 5),
    .basic ⟨0, 3⟩,
    .chain (some 6) none,
    .branch ⟨3, 1⟩ 7 13,
    .many (some 8) (some 9),
    .basic ⟨4, 3⟩,
    .chain (some 10) none,
    .branch ⟨7, 1⟩ 11 12,
    .basic ⟨8, 3⟩,
    .basic ⟨11, 2⟩,
    .brk 2]

section Listing

-- `cell k` is the address of the static variable with the pointer to the native function `k`
variable (cell : InterpreterNative → UInt64)

def interpreterContext : Context where
  funcs := []
  globals := [⟨2, cell .nextToken⟩, ⟨3, cell .lookupWord⟩, ⟨4, cell .engageWord⟩, ⟨5, cell .fallback⟩]

/-- Two variables, the loop with `next_token` and its test, `lookup_word` and its test, the two
ways to go on, and the way out. -/
def interpreterListing : List Instr := [
  .storageAdd 8, .storageAdd 8,
  .pushVar (-16), .pushGlobal (cell .nextToken), .callNative 0, .dropN 1,
  .pushVar (-16), .branchTop 36 103,
  .pushVar (-8), .pushGlobal (cell .lookupWord), .callNative 0, .dropN 1,
  .pushVar (-8), .branchTop 66 86,
  .pushVar (-8), .pushGlobal (cell .engageWord), .callNative 1, .jump 100,
  .pushGlobal (cell .fallback), .callNative 0,
  .jump 106, .jump 109, .jump 6,
  .storageAdd (-8), .storageAdd (-8), .ret]

/-! ## Compiling -/

def interpreterTypes : List Ty := [
  ⟨.int, false, 8, 8, 8⟩,
  ⟨.byte, false, 1, 8, 1⟩,
  ⟨.nativeFunc ⟨[], [intId]⟩, false, 8, 8, 8⟩,
  ⟨.nativeFunc ⟨[], [intId]⟩, false, 8, 8, 8⟩,
  ⟨.nativeFunc ⟨[⟨intId, false⟩], []⟩, false, 8, 8, 8⟩,
  ⟨.nativeFunc ⟨[], []⟩, false, 8, 8, 8⟩]

theorem interpreter_layout : layoutAll interpreterFunc.types = some interpreterTypes := by
  decide +kernel

variable (place : Nat → UInt64) (callee : Nat → Table → Except Table Table)

def interpreterEnv : CompileEnv :=
  ⟨interpreterFunc, interpreterTypes, interpreterContext cell, place, callee⟩

/-- The compiler inside of the two variables, behind the instructions `is`. -/
def insideLoop (is : List Instr) (log : List (Nat × List Nat)) (params : List Nat)
    (scopes : List Scope) (table : Table) : Compiler where
  code := is.flatMap encode
  log := log
  params := params
  vars := [⟨intId, 0, true⟩, ⟨intId, 8, true⟩]
  scopes := scopes
  frameSize := 16
  table := table

/-- The scopes of the variables and of the loop -/
def loopScopes (patches : List Nat) : List Scope :=
  [⟨patches, 16, 0⟩, ⟨[], 8, 0⟩, ⟨[], 0, 0⟩]

/-- The scope of a `BLOCK_MANY` inside of the loop -/
def manyScope : Scope :=
  ⟨[], 16, 0⟩

/-- The code in front of the test for a token -/
def readCode : List Instr := [
  .storageAdd 8, .storageAdd 8,
  .pushVar (-16), .pushGlobal (cell .nextToken), .callNative 0, .dropN 1]

/-- The code in front of the test for a word -/
def lookupCode : List Instr := [
  .storageAdd 8, .storageAdd 8,
  .pushVar (-16), .pushGlobal (cell .nextToken), .callNative 0, .dropN 1,
  .pushVar (-16), .branchTop 36 0,
  .pushVar (-8), .pushGlobal (cell .lookupWord), .callNative 0, .dropN 1]

/-- The arms of the test for a word -/
def armsCode : List Instr := [
  .pushVar (-8), .branchTop 66 86,
  .pushVar (-8), .pushGlobal (cell .engageWord), .callNative 1, .jump 100,
  .pushGlobal (cell .fallback), .callNative 0]

variable (log : List (Nat × List Nat)) (table : Table)

theorem engage_compiles : ∃ log', compileBlock (interpreterEnv cell place callee) 4 11
    (insideLoop (lookupCode cell ++ [.pushVar (-8), .branchTop 66 0]) log []
      (manyScope :: manyScope :: loopScopes []) table) =
    .ok (.reachable, insideLoop (lookupCode cell ++
      [.pushVar (-8), .branchTop 66 0, .pushVar (-8), .pushGlobal (cell .engageWord), .callNative 1])
      log' [] (manyScope :: manyScope :: loopScopes []) table) :=
  ⟨_, rfl⟩

theorem fallback_compiles : ∃ log', compileBlock (interpreterEnv cell place callee) 4 12
    (insideLoop (lookupCode cell ++
      [.pushVar (-8), .branchTop 66 86, .pushVar (-8), .pushGlobal (cell .engageWord), .callNative 1,
        .jump 0])
      log [] (manyScope :: manyScope :: loopScopes []) table) =
    .ok (.reachable, insideLoop (lookupCode cell ++
      [.pushVar (-8), .branchTop 66 86, .pushVar (-8), .pushGlobal (cell .engageWord), .callNative 1,
        .jump 0, .pushGlobal (cell .fallback), .callNative 0])
      log' [] (manyScope :: manyScope :: loopScopes []) table) :=
  ⟨_, rfl⟩

theorem wordFound_compiles : ∃ log', compileBlock (interpreterEnv cell place callee) 5 10
    (insideLoop (lookupCode cell) log [] (manyScope :: manyScope :: loopScopes []) table) =
    .ok (.reachable, insideLoop (lookupCode cell ++ armsCode cell) log' [] (manyScope :: manyScope :: loopScopes []) table) := by
  obtain ⟨log₁, hengage⟩ := engage_compiles cell place callee (log ++ [(58, [])] ++ [(61, [intId])]) table
  obtain ⟨log₂, hfallback⟩ := fallback_compiles cell place callee (log₁ ++ [(83, [])]) table
  refine ⟨log₂, ?_⟩
  show compileBranch _ (compileBlock (interpreterEnv cell place callee) 4) ⟨7, 1⟩ 11 12 _ = _
  unfold compileBranch
  -- the condition, and the operand of the jump to the first arm
  refine bind_eq_ok.mpr ⟨insideLoop (lookupCode cell ++ [.pushVar (-8)]) (log ++ [(58, [])]) [intId]
    (manyScope :: manyScope :: loopScopes []) table, rfl, ?_⟩
  refine bind_eq_ok.mpr ⟨insideLoop (lookupCode cell ++ [.pushVar (-8), .branchTop 0 0])
    (log ++ [(58, [])] ++ [(61, [intId])]) [] (manyScope :: manyScope :: loopScopes []) table, rfl, ?_⟩
  refine bind_eq_ok.mpr ⟨_, rfl, ?_⟩
  refine bind_eq_ok.mpr ⟨_, hengage, ?_⟩
  -- the jump behind the first arm, and the operand of the jump to the second one
  refine bind_eq_ok.mpr ⟨insideLoop (lookupCode cell ++
    [.pushVar (-8), .branchTop 66 86, .pushVar (-8), .pushGlobal (cell .engageWord), .callNative 1,
      .jump 0]) (log₁ ++ [(83, [])]) [] (manyScope :: manyScope :: loopScopes []) table, rfl, ?_⟩
  refine bind_eq_ok.mpr ⟨_, hfallback, ?_⟩
  refine bind_eq_ok.mpr ⟨insideLoop (lookupCode cell ++ armsCode cell) log₂ []
    (manyScope :: manyScope :: loopScopes []) table, rfl, ?_⟩
  rfl

theorem lookup_compiles : ∃ log', compileBlock (interpreterEnv cell place callee) 6 7
    (insideLoop (readCode cell ++ [.pushVar (-16), .branchTop 36 0]) log []
      (manyScope :: loopScopes []) table) =
    .ok (.reachable, insideLoop (lookupCode cell ++ armsCode cell) log' []
      (manyScope :: loopScopes []) table) := by
  obtain ⟨log₁, hcall⟩ : ∃ log₁, compileBlock (interpreterEnv cell place callee) 5 8
      (insideLoop (readCode cell ++ [.pushVar (-16), .branchTop 36 0]) log []
        (manyScope :: manyScope :: loopScopes []) table) =
      .ok (.reachable, insideLoop (lookupCode cell) log₁ []
        (manyScope :: manyScope :: loopScopes []) table) := ⟨_, rfl⟩
  obtain ⟨log₂, hfound⟩ := wordFound_compiles cell place callee log₁ table
  refine ⟨log₂, ?_⟩
  show compileMany _ (compileBlock (interpreterEnv cell place callee) 5) 5 (some 8) (some 9) _ = _
  refine bind_eq_ok.mpr ⟨(.reachable, insideLoop (lookupCode cell ++ armsCode cell) log₂ []
    (manyScope :: manyScope :: loopScopes []) table), ?_, rfl⟩
  exact bind_eq_ok.mpr ⟨_, hcall, bind_eq_ok.mpr ⟨_, hfound, rfl⟩⟩

/-- A break of level 2 jumps behind the loop. -/
theorem break_compiles (is : List Instr) : compileBlock (interpreterEnv cell place callee) 6 13
    (insideLoop is log [] (manyScope :: loopScopes []) table) =
    .ok (.unreachable, insideLoop (is ++ [.jump 0]) (log ++ [((is.flatMap encode).length, [])]) []
      (manyScope :: loopScopes [(is.flatMap encode).length + 1]) table) := by
  generalize hc : insideLoop is log [] (manyScope :: loopScopes []) table = c
  have hframe : (16 : Int16) - c.frameSize = 0 := by
    rw [← hc]
    show (16 : Int16) - 16 = 0
    rfl
  have htarget : c.scopes[1]? = some ⟨[], 16, 0⟩ := by
    rw [← hc]
    rfl
  have hpops : emitPops (c.crashDepth - 0) c = c := by
    rw [← hc]
    rfl
  have hbreak : compileBlock (interpreterEnv cell place callee) 6 13 c = compileBreak c 2 := rfl
  rw [hbreak]
  simp only [compileBreak, htarget, hpops, hframe, if_true]
  rw [← hc, insideLoop, insideLoop, List.flatMap_append]
  rfl

theorem hasToken_compiles : ∃ log', compileBlock (interpreterEnv cell place callee) 7 6
    (insideLoop (readCode cell) log [] (manyScope :: loopScopes []) table) =
    .ok (.reachable, insideLoop (readCode cell ++ [.pushVar (-16), .branchTop 36 103] ++
      (lookupCode cell).drop 8 ++ armsCode cell ++ [.jump 106, .jump 0])
      log' [] (manyScope :: loopScopes [104]) table) := by
  obtain ⟨log₁, hlookup⟩ :=
    lookup_compiles cell place callee (log ++ [(28, [])] ++ [(31, [intId])]) table
  refine ⟨log₁ ++ [(100, [])] ++ [(103, [])], ?_⟩
  show compileBranch _ (compileBlock (interpreterEnv cell place callee) 6) ⟨3, 1⟩ 7 13 _ = _
  unfold compileBranch
  refine bind_eq_ok.mpr ⟨insideLoop (readCode cell ++ [.pushVar (-16)]) (log ++ [(28, [])]) [intId]
    (manyScope :: loopScopes []) table, rfl, ?_⟩
  refine bind_eq_ok.mpr ⟨insideLoop (readCode cell ++ [.pushVar (-16), .branchTop 0 0])
    (log ++ [(28, [])] ++ [(31, [intId])]) [] (manyScope :: loopScopes []) table, rfl, ?_⟩
  refine bind_eq_ok.mpr ⟨_, rfl, ?_⟩
  refine bind_eq_ok.mpr ⟨_, hlookup, ?_⟩
  refine bind_eq_ok.mpr ⟨insideLoop (readCode cell ++ [.pushVar (-16), .branchTop 36 103] ++
    (lookupCode cell).drop 8 ++ armsCode cell ++ [.jump 0]) (log₁ ++ [(100, [])]) []
    (manyScope :: loopScopes []) table, rfl, ?_⟩
  -- the second arm leaves the loop
  refine bind_eq_ok.mpr ⟨_, break_compiles cell place callee _ table _, ?_⟩
  refine bind_eq_ok.mpr ⟨insideLoop (readCode cell ++ [.pushVar (-16), .branchTop 36 103] ++
    (lookupCode cell).drop 8 ++ armsCode cell ++ [.jump 106, .jump 0])
    (log₁ ++ [(100, [])] ++ [(103, [])]) [] (manyScope :: loopScopes [104]) table, rfl, ?_⟩
  rfl

theorem body_compiles : ∃ log', compileBlock (interpreterEnv cell place callee) 8 3
    (insideLoop [.storageAdd 8, .storageAdd 8] log [] (loopScopes []) table) =
    .ok (.reachable, insideLoop (readCode cell ++ [.pushVar (-16), .branchTop 36 103] ++
      (lookupCode cell).drop 8 ++ armsCode cell ++ [.jump 106, .jump 0])
      log' [] (loopScopes [104]) table) := by
  obtain ⟨log₁, hread⟩ : ∃ log₁, compileBlock (interpreterEnv cell place callee) 7 4
      (insideLoop [.storageAdd 8, .storageAdd 8] log [] (manyScope :: loopScopes []) table) =
      .ok (.reachable, insideLoop (readCode cell) log₁ [] (manyScope :: loopScopes []) table) :=
    ⟨_, rfl⟩
  obtain ⟨log₂, htest⟩ := hasToken_compiles cell place callee log₁ table
  refine ⟨log₂, ?_⟩
  show compileMany _ (compileBlock (interpreterEnv cell place callee) 7) 7 (some 4) (some 5) _ = _
  refine bind_eq_ok.mpr ⟨(.reachable, insideLoop (readCode cell ++
    [.pushVar (-16), .branchTop 36 103] ++ (lookupCode cell).drop 8 ++ armsCode cell ++
    [.jump 106, .jump 0]) log₂ [] (manyScope :: loopScopes [104]) table), ?_, rfl⟩
  exact bind_eq_ok.mpr ⟨_, hread, bind_eq_ok.mpr ⟨_, htest, rfl⟩⟩

/-- The listing up to the end of the loop -/
def loopCode : List Instr :=
  (interpreterListing cell).take 23

/-- The compiler inside of the first variable only -/
def insideFirst (is : List Instr) (log : List (Nat × List Nat)) (base : Int16) (table : Table) :
    Compiler where
  code := is.flatMap encode
  log := log
  vars := [⟨intId, 0, true⟩, ⟨intId, base, false⟩]
  scopes := [⟨[], 0, 0⟩]
  frameSize := 8
  table := table

set_option maxRecDepth 2000 in
theorem loop_compiles : ∃ log', compileBlock (interpreterEnv cell place callee) 9 2
    (insideLoop [.storageAdd 8, .storageAdd 8] log [] (loopScopes []).tail table) =
    .ok (.reachable, insideLoop (loopCode cell) log' [] (loopScopes []).tail table) := by
  obtain ⟨log₁, hbody⟩ := body_compiles cell place callee log table
  refine ⟨log₁ ++ [(106, [])], ?_⟩
  have hblock : ∀ c, compileBlock (interpreterEnv cell place callee) 9 2 c =
      compileLoop (compileBlock (interpreterEnv cell place callee) 8) 3 c := fun _ => rfl
  rw [hblock]
  unfold compileLoop
  refine bind_eq_ok.mpr ⟨_, hbody, ?_⟩
  refine bind_eq_ok.mpr ⟨insideLoop (readCode cell ++ [.pushVar (-16), .branchTop 36 103] ++
    (lookupCode cell).drop 8 ++ armsCode cell ++ [.jump 106, .jump 0, .jump 6])
    (log₁ ++ [(106, [])]) [] (loopScopes [104]) table, rfl, ?_⟩
  refine bind_eq_ok.mpr ⟨(true, insideLoop (loopCode cell) (log₁ ++ [(106, [])]) []
    (loopScopes []).tail table), rfl, ?_⟩
  rfl

/-- A variable whose body ends reachably -/
theorem compileVar_reachable {env : CompileEnv} {block : Nat → Compiler → Except Table (Reach × Compiler)}
    {idx body tid : Nat} {t : Ty} {c c₁ c₂ c₃ c₄ : Compiler} (hvar : env.func.vars[idx]? = some tid)
    (htype : env.types[tid]? = some t) (hsize : ¬ 32767 < t.size.toNat)
    (henter : ({ c.pushScope c.frameSize with
      vars := c.vars.set idx ⟨tid, c.frameSize, true⟩ } : Compiler).emitStorageAdd
        (Int16.ofNat t.size.toNat) = .ok c₁)
    (hbody : block body c₁ = .ok (.reachable, c₂))
    (hleave : (setLive c₂ idx false).emitStorageAdd (-Int16.ofNat t.size.toNat) = .ok c₃)
    (hend : endScope .reachable c₃ = .ok (.reachable, c₄)) :
    compileVar env block idx body c =
      .ok (.reachable, { setLive c₄ idx false with frameSize := c.frameSize }) := by
  simp only [compileVar, hvar, htype, if_neg hsize]
  refine bind_eq_ok.mpr ⟨_, henter, bind_eq_ok.mpr ⟨_, hbody, ?_⟩⟩
  exact bind_eq_ok.mpr ⟨_, hleave, bind_eq_ok.mpr ⟨_, hend, rfl⟩⟩

theorem emitStorageAdd_ok {c : Compiler} {amount frame : Int16} (h : c.frameSize + amount = frame)
    (hpos : ¬ frame < 0) :
    c.emitStorageAdd amount = .ok { c.emit (.storageAdd amount) with frameSize := frame } := by
  subst h
  simp only [Compiler.emitStorageAdd, Compiler.emit, if_neg hpos]

/-- The operand of the `B_STORAGE_ADD` behind a variable -/
theorem int_size : -Int16.ofNat (8 : UInt64).toNat = -8 := by decide

/-- The end of the second variable -/
theorem second_leaves (is : List Instr) : (setLive (insideLoop is log [] (loopScopes []).tail table) 1
    false).emitStorageAdd (-Int16.ofNat (8 : UInt64).toNat) =
    .ok { insideFirst (is ++ [.storageAdd (-8)]) (log ++ [((is.flatMap encode).length, [])]) 8 table with
      scopes := (loopScopes []).tail } := by
  have hframe : (setLive (insideLoop is log [] (loopScopes []).tail table) 1 false).frameSize + -8 = 8 := by
    show (16 : Int16) + -8 = 8
    decide
  rw [int_size, emitStorageAdd_ok hframe (by decide), insideLoop, insideFirst, List.flatMap_append]
  rfl

theorem second_compiles : ∃ log', compileBlock (interpreterEnv cell place callee) 10 1
    (insideFirst [.storageAdd 8] log 0 table) =
    .ok (.reachable, insideFirst (loopCode cell ++ [.storageAdd (-8)]) log' 8 table) := by
  obtain ⟨log₁, hloop⟩ := loop_compiles cell place callee (log ++ [(3, [])]) table
  have hblock : ∀ c, compileBlock (interpreterEnv cell place callee) 10 1 c =
      compileVar (interpreterEnv cell place callee) (compileBlock (interpreterEnv cell place callee) 9)
        1 2 c := fun _ => rfl
  rw [hblock]
  have hvar : (interpreterEnv cell place callee).func.vars[1]? = some intId := rfl
  have htype : (interpreterEnv cell place callee).types[intId]? = some ⟨.int, false, 8, 8, 8⟩ := rfl
  have henter : ({ (insideFirst [.storageAdd 8] log 0 table).pushScope 8 with
      vars := [⟨intId, 0, true⟩, ⟨intId, 8, true⟩] } : Compiler).emitStorageAdd
        (Int16.ofNat (8 : UInt64).toNat) =
      .ok (insideLoop [.storageAdd 8, .storageAdd 8] (log ++ [(3, [])]) [] (loopScopes []).tail table) :=
    rfl
  exact ⟨_, compileVar_reachable hvar htype (by decide) henter hloop (second_leaves _ _ _) rfl⟩

/-- The end of the first variable -/
theorem first_leaves (is : List Instr) : (setLive (insideFirst is log 8 table) 0 false).emitStorageAdd
    (-Int16.ofNat (8 : UInt64).toNat) =
    .ok { code := (is ++ [Instr.storageAdd (-8)]).flatMap encode
          log := log ++ [((is.flatMap encode).length, [])]
          vars := [⟨intId, 0, false⟩, ⟨intId, 8, false⟩]
          scopes := [⟨[], 0, 0⟩]
          table := table } := by
  have hframe : (setLive (insideFirst is log 8 table) 0 false).frameSize + -8 = 0 := by
    show (8 : Int16) + -8 = 0
    decide
  rw [int_size, emitStorageAdd_ok hframe (by decide), insideFirst, List.flatMap_append]
  rfl

/-- The compiler emits the listing. -/
theorem compile_interpreter_eq : compileFunc (interpreterContext cell) place 12 interpreterFunc [] =
    .ok ((interpreterListing cell).flatMap encode, []) := by
  let callee := contextFuncCode (interpreterContext cell) fun f table =>
    (compileState (interpreterContext cell) place 11 f table).map Compiler.result
  obtain ⟨log₁, hsecond⟩ := second_compiles cell place callee [(0, [])] []
  have hblock : ∀ c, compileBlock (interpreterEnv cell place callee) 11 0 c =
      compileVar (interpreterEnv cell place callee) (compileBlock (interpreterEnv cell place callee) 10)
        0 1 c := fun _ => rfl
  have hvar : (interpreterEnv cell place callee).func.vars[0]? = some intId := rfl
  have htype : (interpreterEnv cell place callee).types[intId]? = some ⟨.int, false, 8, 8, 8⟩ := rfl
  let c₀ : Compiler := { vars := [⟨intId, 0, false⟩, ⟨intId, 0, false⟩], table := [] }
  have henter : ({ c₀.pushScope 0 with vars := [⟨intId, 0, true⟩, ⟨intId, 0, false⟩] } :
      Compiler).emitStorageAdd (Int16.ofNat (8 : UInt64).toNat) =
      .ok (insideFirst [.storageAdd 8] [(0, [])] 0 []) := rfl
  have hroot : compileBlock (interpreterEnv cell place callee) 11 0 c₀ = .ok (.reachable, _) :=
    (hblock c₀).trans (compileVar_reachable hvar htype (by decide) henter hsecond (first_leaves _ _ _) rfl)
  have hlisting : (interpreterListing cell).flatMap encode =
      (loopCode cell ++ [Instr.storageAdd (-8)] ++ [Instr.storageAdd (-8)]).flatMap encode ++
        encode .ret := by
    have hsplit : interpreterListing cell =
        (loopCode cell ++ [Instr.storageAdd (-8)] ++ [Instr.storageAdd (-8)]) ++ [.ret] := rfl
    rw [hsplit, List.flatMap_append]
    rfl
  have hbody : compileBody (interpreterContext cell) place callee 11 interpreterFunc [] =
      (compileBlock (interpreterEnv cell place callee) 11 0 c₀).bind
        fun x => finishFunc interpreterFunc x.2 := by
    rw [compileBody, interpreter_layout]
    rfl
  rw [hlisting, compileFunc, compileState]
  show (compileBody (interpreterContext cell) place callee 11 interpreterFunc []).map _ = _
  rw [hbody, hroot]
  rfl

end Listing

end TreeVM
