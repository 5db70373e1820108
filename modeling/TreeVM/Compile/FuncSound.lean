import TreeVM.Compile.BlockSound

/-!
# The code of functions

* `FuncCode`: the shape of the code of one function;
* `compileState_sound`: what `vm_compile_no_defers` accepts has that shape, and so have the callees
  that were compiled on the way;
* `Program`: an accepted function with its callees, and where their code stands.
-/

namespace TreeVM

/-- The code behind the body: the inputs are dropped, the function returns. -/
def EndAt (I : Image) (o ins : Nat) : Prop :=
  if ins = 0 then InstrAt I o [] .ret
  else InstrAt I o [] (.dropN (UInt32.ofNat ins)) ∧ InstrAt I (o + 5) [] .ret

/-- The code of a function from offset `0` on. -/
structure FuncCode (env : CompileEnv) (I : Image) : Prop where
  types : layoutAll env.func.types = some env.types
  ins : env.func.sig.ins.length < 2 ^ 32
  body : ∃ r o, CodeBlock env I {} (.node 0) 0 r o ∧ EndAt I o env.func.sig.ins.length

/-- The code of the function `f` of a context. -/
def CodeOf (ctx : Context) (place : Nat → UInt64) (f : Func) (I : Image) : Prop :=
  ∃ env : CompileEnv, env.func = f ∧ env.ctx = ctx ∧ env.place = place ∧ FuncCode env I

/-- The type stack of the compiler when it emitted the instruction at offset `o` of `code`. -/
def Recorded (ctx : Context) (place : Nat → UInt64) (f : Func) (code : Code) (o : Nat)
    (ps : List Nat) : Prop :=
  ∃ fuel t c, compileState ctx place fuel f t = .ok c ∧ c.code = code ∧ (o, ps) ∈ c.log

section

variable {ctx : Context} {place : Nat → UInt64}

theorem Grows.ensureSlot (ctx : Context) (place : Nat → UInt64) (t : Table) (i : Nat) : Grows ctx place t (ensureSlot t i) where
  length := by simp [TreeVM.ensureSlot]
  has j hj := by
    obtain ⟨code, hcode⟩ := hj
    refine ⟨code, ?_⟩
    rw [TreeVM.ensureSlot, List.getElem?_append_left (List.getElem?_eq_some_iff.mp hcode).1]
    exact hcode
  entry j code hj := by
    rw [TreeVM.ensureSlot, List.getElem?_append] at hj
    split at hj
    · exact .inl hj
    · rw [List.getElem?_replicate] at hj
      split at hj <;> cases hj

/-- Asking for a callee compiles it unless that has been done. -/
theorem contextFuncCode_ok {fuel : Nat}
    (hcompile : ∀ {f t code t'}, compileFunc ctx place fuel f t = .ok (code, t') →
      Grows ctx place t t') {i : Nat} {t t' : Table}
    (h : contextFuncCode ctx (compileFunc ctx place fuel) i t = .ok t') :
    Grows ctx place t t' ∧ t'.Has i := by
  simp only [contextFuncCode] at h
  split at h
  · cases h
  · rename_i f hf
    have hslot := Grows.ensureSlot ctx place t i
    split at h
    · rename_i code hcode
      cases h
      exact ⟨hslot, code, hcode⟩
    · obtain ⟨⟨code, t₁⟩, hcode, h⟩ := bind_eq_ok.mp h
      cases h
      have hgrows := hcompile hcode
      have hi : i < t₁.length := by
        refine Nat.lt_of_lt_of_le ?_ hgrows.length
        simp [ensureSlot]
        omega
      have hset : ∀ j, t₁.Has j → Table.Has (t₁.set i (some code)) j := by
        rintro j ⟨c, hc⟩
        by_cases hj : i = j
        · exact ⟨code, by rw [← hj, List.getElem?_set_self hi]⟩
        · exact ⟨c, by rw [List.getElem?_set_ne hj, hc]⟩
      refine ⟨(hslot.trans hgrows).trans ⟨by simp, hset, fun j c hc => ?_⟩,
        code, List.getElem?_set_self hi⟩
      by_cases hj : i = j
      · subst hj
        rw [List.getElem?_set_self hi] at hc
        cases hc
        exact .inr ⟨fuel, f, _, t₁, hf, hcode, hset⟩
      · rw [List.getElem?_set_ne hj] at hc
        exact .inl hc

/-- What an accepted function and the table behind it look like. -/
structure FuncSound (ctx : Context) (place : Nat → UInt64) (f : Func) (t : Table) (c : Compiler) :
    Prop where
  grows : Grows ctx place t c.table
  code : ∀ {I : Image}, c.code.length ≤ 65535 → At I.code 0 c.code →
    (∀ e ∈ c.log, I.temps e.1 e.2) → (∀ i, c.table.Has i → I.ready i) → CodeOf ctx place f I

theorem boundary_start (env : CompileEnv) (t : Table) :
    Boundary env {} { vars := env.func.vars.map fun tid => { tid := tid }, table := t } where
  frames := by
    refine ⟨rfl, trivial, rfl, by simp, fun i v hv hlive => ?_, .nil⟩
    rw [List.getElem?_map] at hv
    obtain ⟨tid, -, rfl⟩ := Option.map_eq_some_iff.mp hv
    cases hlive
  tidy := ⟨by simp [Output.pending, Compiler.output], by simp [Output.pending, Compiler.output]⟩
  params _ := rfl

/-- The instructions that `finishFunc` appends. -/
theorem finishFunc_sound {env : CompileEnv} {I : Image} {c c' : Compiler}
    (hB : Boundary env {} c) (h : finishFunc env.func c = .ok c') :
    Extends env c.output c'.output ∧ env.func.sig.ins.length < 2 ^ 32 ∧
      (FitsImage env I [] [] c'.output → EndAt I c.code.length env.func.sig.ins.length) := by
  simp only [finishFunc, Compiler.fail] at h
  split at h
  · cases h
  · rename_i hins
    split at h
    · rename_i hnil
      cases h
      have happ := (Emitted.emit env c .ret).appends
      refine ⟨happ.toExtends, by omega, fun hfits => ?_⟩
      rw [EndAt, if_pos (by simp [hnil])]
      have hlog := c.mem_log_emit .ret
      rw [hB.params_of happ.toExtends.length_le hfits.small] at hlog
      exact hfits.instr happ hB.tidy hlog
    · rename_i hcons
      cases h
      have happ := (Emitted.emit env c
        (.dropN (UInt32.ofNat env.func.sig.ins.length))).appends
      generalize hc₁ : c.emit (.dropN (UInt32.ofNat env.func.sig.ins.length)) = c₁ at happ
      have happ₁ := (Emitted.emit env c₁ .ret).appends
      have hgrows := happ.toExtends.trans happ₁.toExtends
      refine ⟨hgrows, by omega, fun hfits => ?_⟩
      have hparams := hB.params_of hgrows.length_le hfits.small
      have hlog : (c.code.length, []) ∈ c₁.output.log := by
        rw [← hc₁, ← hparams]
        exact c.mem_log_emit _
      have hlog₁ : (c₁.code.length, []) ∈ (c₁.emit .ret).output.log := by
        have hmem := c₁.mem_log_emit .ret
        rw [show c₁.params = [] by rw [← hc₁]; exact hparams] at hmem
        exact hmem
      have hlen : c₁.code.length = c.code.length + 5 := by
        rw [← hc₁]
        simp [Compiler.emit, encode, Instr.operands, encodeOperands]
      rw [EndAt, if_neg (by simpa using hcons), ← hlen]
      exact ⟨(hfits.before happ₁.toExtends).instr happ hB.tidy hlog,
        hfits.instr happ₁ (happ.tidy hB.tidy) hlog₁⟩

theorem compileState_sound {fuel : Nat} {f : Func} {t : Table} {c : Compiler}
    (h : compileState ctx place fuel f t = .ok c) : FuncSound ctx place f t c := by
  induction fuel generalizing f t c with
  | zero => cases h
  | succ fuel ih =>
      rw [compileState, compileBody] at h
      split at h
      · cases h
      · cases h
      · rename_i types htypes _
        obtain ⟨⟨r, c₁⟩, hblock, hfinish⟩ := bind_eq_ok.mp h
        obtain ⟨env, henv⟩ : ∃ env : CompileEnv, env = ⟨f, types, ctx, place,
            contextFuncCode ctx (compileFunc ctx place fuel)⟩ := ⟨_, rfl⟩
        have hcallee : CalleeOk env := by
          subst henv
          refine fun i t t' h => contextFuncCode_ok (fun {f t code t'} h => ?_) h
          obtain ⟨c, hc, hresult⟩ := map_eq_ok.mp h
          cases hresult
          exact (ih hc).grows
        have hblock : compileBlock env fuel 0
            { vars := env.func.vars.map fun tid => { tid := tid }, table := t } = .ok (r, c₁) := by
          subst henv
          exact hblock
        have hsound := compileBlock_sound hcallee fuel (boundary_start env t) hblock
        have hfinish : finishFunc env.func c₁ = .ok c := by
          subst henv
          exact hfinish
        refine ⟨?_, fun {I} hsmall hat hlog hready => ?_⟩
        · obtain ⟨hgrows, -, -⟩ := finishFunc_sound (I := ⟨fun _ => 0, fun _ _ => True,
            fun _ => True⟩) hsound.boundary hfinish
          have htable := (hsound.grows.trans hgrows).table
          subst henv
          exact htable
        · obtain ⟨hgrows, hins, hend⟩ := finishFunc_sound (I := I) hsound.boundary hfinish
          have hscopes : c.scopes = [] := by
            have h₁ := hgrows.scopes
            rw [c₁.output_scopes, List.forall₂_nil_right_iff.mp hsound.boundary.frames.scopes] at h₁
            exact List.forall₂_nil_left_iff.mp h₁
          have hfits : FitsImage env I [] [] c.output :=
            ⟨(AtExcept.of_at hat).mono (by simp), hlog,
              by rw [c.output_scopes, hscopes]; exact .nil, hready, hsmall⟩
          have hcode := hsound.code (boundary_start env t).tidy (hfits.before hgrows)
          subst henv
          exact ⟨_, rfl, rfl, rfl, htypes, hins, r, c₁.code.length, hcode, hend hfits⟩

end

end TreeVM
