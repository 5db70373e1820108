import TreeVM.Compile.Patches

/-!
# The code of blocks

`compileBlock_sound`: what `compile_block` accepts has, in the final code, the shape `CodeBlock`.
The induction is on the recursion of the compiler, one lemma for each kind of block.

* `Boundary`: the state of the compiler between two blocks;
* `BlockSound`: what one call of `compile_block` establishes.
-/

namespace TreeVM

variable {env : CompileEnv} {Γ : Ctx}

/-- The state of the compiler between two blocks.  A function with more code than an operand can
reach is out of scope, so nothing is said about its temporaries. -/
structure Boundary (env : CompileEnv) (Γ : Ctx) (c : Compiler) : Prop where
  frames : Frames env Γ c
  tidy : Tidy [] c.output
  params : c.code.length ≤ 65535 → c.params = []

structure BlockSound (env : CompileEnv) (Γ : Ctx) (p : Place) (c : Compiler) (r : Reach)
    (c' : Compiler) : Prop where
  boundary : Boundary env Γ c'
  grows : Extends env c.output c'.output
  code : ∀ {I holes}, Tidy holes c.output → FitsImage env I Γ.scopes holes c'.output →
    CodeBlock env I Γ p c.code.length r c'.code.length

theorem BlockSound.length_le {p : Place} {c c' : Compiler} {r : Reach}
    (h : BlockSound env Γ p c r c') : c.code.length ≤ c'.code.length :=
  h.grows.length_le

/-- What the lemmas about blocks with parts assume of the parts. -/
def BlockOk (env : CompileEnv) (block : Nat → Compiler → Except Table (Reach × Compiler)) : Prop :=
  ∀ {Γ i c r c'}, Boundary env Γ c → block i c = .ok (r, c') → BlockSound env Γ (.node i) c r c'

/-- Later states have more code, so temporaries are gone at earlier ones as well. -/
theorem Boundary.params_of {c c' : Compiler} (h : Boundary env Γ c)
    (hlen : c.code.length ≤ c'.code.length) (hsmall : c'.code.length ≤ 65535) : c.params = [] :=
  h.params (Nat.le_trans hlen hsmall)

/-! ## Basic blocks and conditions -/

section Basic

variable {c c' : Compiler} {r : Reach} {i : Nat}

theorem compileBasic_sound (hcallee : CalleeOk env) {ops : OpRange} (hB : Boundary env Γ c)
    (hblock : env.func.blocks[i]? = some (.basic ops))
    (h : compileBasic env c ops = .ok (r, c')) : BlockSound env Γ (.node i) c r c' := by
  simp only [compileBasic, Compiler.fail] at h
  split at h
  · cases h
  · rename_i l hops
    obtain ⟨c₁, hcode, h⟩ := bind_eq_ok.mp h
    obtain ⟨⟨bs, hemit⟩, hle, hsound⟩ := compileOps_sound hcallee hB.frames hcode
    have hframes₁ := hemit.frames hB.frames
    have hext₁ := hemit.appends.toExtends
    split at h
    · cases h
    · rename_i hlow
      -- the number of temporaries, as it is counted in the instruction
      have hcount : c₁.code.length ≤ 65535 →
          c.params = [] ∧ c₁.params.length < 2 ^ 32 ∧
            (UInt32.ofNat (c₁.params.length - c.params.length)).toNat = c₁.params.length := by
        intro hsmall
        have hparams := hB.params_of hext₁.length_le hsmall
        have hlen := hle hsmall (by simp [hparams])
        refine ⟨hparams, by omega, ?_⟩
        simp only [hparams, List.length_nil, Nat.sub_zero, UInt32.toNat_ofNat']
        omega
      split at h
      · rename_i hextra
        cases h
        have hempty : c'.code.length ≤ 65535 → c'.params = [] := by
          intro hsmall
          obtain ⟨-, -, hnat⟩ := hcount hsmall
          rw [hextra] at hnat
          exact List.length_eq_zero_iff.mp hnat.symm
        refine ⟨⟨hframes₁, hemit.appends.tidy hB.tidy, hempty⟩, hext₁, fun ht hfits => ?_⟩
        have hsmall := hfits.small
        have hparams := (hcount hsmall).1
        have hops' := hsound (by simp [hparams]) ht hfits
        rw [hparams, hempty hsmall] at hops'
        exact .basic hblock hops hops' (by simp) (by simp)
      · rename_i hextra
        obtain ⟨c₂, hpop, h⟩ := bind_eq_ok.mp h
        obtain ⟨-, rfl⟩ := popTypes_eq_ok hpop
        cases h
        have happ := (Emitted.emit env c₁
          (.dropN (UInt32.ofNat (c₁.params.length - c.params.length)))).appends
        have hlen : (c₁.emit (.dropN (UInt32.ofNat
            (c₁.params.length - c.params.length)))).code.length = c₁.code.length + 5 := by
          simp [Compiler.emit, encode, Instr.operands, encodeOperands]
        refine ⟨⟨⟨hframes₁.frame, hframes₁.slots, hframes₁.depth, hframes₁.vars, hframes₁.live,
          hframes₁.scopes⟩, happ.tidy (hemit.appends.tidy hB.tidy), ?_⟩,
          hext₁.trans happ.toExtends, fun ht hfits => ?_⟩
        · intro hsmall
          obtain ⟨-, -, hnat⟩ := hcount (by simp only at hsmall; omega)
          simp [hnat, Compiler.emit]
        · have hfits₁ := hfits.before happ.toExtends
          obtain ⟨hparams, hlt, hnat⟩ := hcount hfits₁.small
          have hops' := hsound (by simp [hparams]) ht hfits₁
          have hne : c₁.params ≠ [] := by
            intro hnil
            rw [hnil, hparams] at hextra
            exact hextra rfl
          rw [hparams] at hops'
          have hinstr := hfits.instr happ (hemit.appends.tidy ht) (c₁.mem_log_emit _)
          have hend := CodeBlock.basic hblock hops hops' hlt fun _ => by
            simpa [hparams] using hinstr
          rw [if_neg hne] at hend
          simp only [hlen]
          exact hend

/-- The operations of a condition leave one integer. -/
structure CondSound (env : CompileEnv) (Γ : Ctx) (ops : OpRange) (c c' : Compiler) : Prop where
  emitted : ∃ bs, Emitted env c bs c'
  code : ∀ {I holes}, Tidy holes c.output → FitsImage env I Γ.scopes holes c'.output →
    ∃ l, opsIn env ops = some l ∧
      CodeOps env I Γ.slots l c.code.length [] c'.code.length [intId]
  params : c'.code.length ≤ 65535 → c'.params = [intId]

theorem compileCond_sound (hcallee : CalleeOk env) {ops : OpRange} (hB : Boundary env Γ c)
    (h : compileCond env c ops = .ok c') : CondSound env Γ ops c c' := by
  simp only [compileCond, Compiler.fail] at h
  split at h
  · cases h
  · rename_i l hops
    obtain ⟨c₁, hcode, h⟩ := bind_eq_ok.mp h
    obtain ⟨⟨bs, hemit⟩, -, hsound⟩ := compileOps_sound hcallee hB.frames hcode
    have hlen := hemit.appends.toExtends.length_le
    split at h
    · cases h
    · rename_i hone
      cases h
      have hparams : c'.code.length ≤ 65535 → c.params = [] ∧ c'.params = [intId] := by
        intro hsmall
        have hnil := hB.params_of hlen hsmall
        rw [hnil] at hone
        cases hp : c'.params with
        | nil => simp [hp] at hone
        | cons tid rest =>
            simp only [hp, List.length_cons, List.length_nil, List.head?_cons] at hone
            have hrest : rest = [] := List.length_eq_zero_iff.mp (by omega)
            have htid : tid = intId := by
              by_contra hne
              exact hone (.inr (by simpa using hne))
            rw [hrest, htid]
            exact ⟨hnil, rfl⟩
      refine ⟨⟨bs, hemit⟩, fun ht hfits => ⟨l, hops, ?_⟩, fun hsmall => (hparams hsmall).2⟩
      obtain ⟨hnil, hint⟩ := hparams hfits.small
      have hops' := hsound (by simp [hnil]) ht hfits
      rwa [hnil, hint] at hops'

end Basic

/-! ## Breaks -/

section Break

variable {c c' : Compiler} {r : Reach} {i : Nat}

theorem emitPops_emitted (env : CompileEnv) (n : Nat) (c : Compiler) :
    Emitted env c ((List.replicate n (encode .popCrash)).flatten) (emitPops n c) := by
  induction n generalizing c with
  | zero => exact ⟨by simp [emitPops], List.Subset.refl _, .refl _⟩
  | succ n ih => exact (Emitted.emit env c .popCrash).trans (ih _)

theorem emitPops_params (n : Nat) (c : Compiler) : (emitPops n c).params = c.params := by
  induction n generalizing c with
  | zero => rfl
  | succ n ih => exact ih _

theorem length_emitPops (n : Nat) (c : Compiler) :
    (emitPops n c).code.length = c.code.length + n := by
  induction n generalizing c with
  | zero => rfl
  | succ n ih =>
      rw [emitPops, ih]
      simp [Compiler.emit, encode, Instr.operands, encodeOperands]
      omega

theorem popsAt {I : Image} {scopes : List ScopeAt} {holes : List Nat}
    {n : Nat} {c : Compiler} (hparams : c.params = []) (ht : Tidy holes c.output)
    (hfits : FitsImage env I scopes holes (emitPops n c).output) : PopsAt I c.code.length n := by
  induction n generalizing c with
  | zero => intro k hk; omega
  | succ n ih =>
      have happ := (Emitted.emit env c .popCrash).appends
      have hrest := ih (c := c.emit .popCrash) hparams (happ.tidy ht) hfits
      have hfirst := (hfits.before (emitPops_emitted env n _).appends.toExtends).instr happ ht
        (hparams ▸ c.mem_log_emit _)
      have hlen : (c.emit .popCrash).code.length = c.code.length + 1 := by
        simp [Compiler.emit, encode, Instr.operands, encodeOperands]
      intro k hk
      cases k with
      | zero => exact hfirst
      | succ k =>
          have hk := hrest k (by omega)
          rw [hlen, Nat.add_assoc, Nat.add_comm 1 k] at hk
          exact hk

theorem forall₂_addPatchAt {n p : Nat} {l : List Scope} {g : List ScopeAt}
    (h : List.Forall₂ (ScopeMatches env) l g) :
    List.Forall₂ (ScopeMatches env) (addPatchAt n p l) g := by
  induction h generalizing n with
  | nil => cases n <;> exact .nil
  | cons hs hrest ih =>
      cases n with
      | zero => exact .cons hs hrest
      | succ n => exact .cons hs ih

/-- The `B_STORAGE_ADD` of a break, which is left out when the frame keeps its size. -/
theorem cleanup_sound {f : Int16} {slots : List Slot} (hframe : c.frameSize.toInt =
      frameOf env.types Γ.slots) (hf : f.toInt = frameOf env.types slots)
    (hc' : (if f - c.frameSize = 0 then c else c.emit (.storageAdd (f - c.frameSize))) = c') :
    (∃ bs, Emitted env c bs c') ∧ c'.params = c.params ∧
      ∀ {I scopes holes}, c.params = [] → Tidy holes c.output →
        FitsImage env I scopes holes c'.output →
        if frameOf env.types slots = frameOf env.types Γ.slots then
          c'.code.length = c.code.length
        else AddAt I c.code.length ((frameOf env.types slots : Int) - frameOf env.types Γ.slots) ∧
          c'.code.length = c.code.length + 3 := by
  have hdiff : (f - c.frameSize).toInt =
      (frameOf env.types slots : Int) - frameOf env.types Γ.slots := by
    have hlow := f.toInt_lt
    have hhigh := c.frameSize.toInt_lt
    rw [Int16.toInt_sub, hf, hframe, Int.bmod_eq_of_le] <;> omega
  have hzero : f - c.frameSize = 0 ↔
      frameOf env.types slots = frameOf env.types Γ.slots := by
    rw [← Int16.toInt_inj, hdiff, Int16.toInt_zero]
    omega
  simp only [hzero] at hc'
  subst hc'
  split
  · exact ⟨⟨[], by simp, List.Subset.refl _, .refl _⟩, rfl, fun _ _ _ => rfl⟩
  · refine ⟨⟨_, Emitted.emit env c _⟩, rfl, fun hparams ht hfits => ⟨⟨_, hdiff, ?_⟩, ?_⟩⟩
    · exact hfits.instr (Emitted.emit env c _).appends ht (hparams ▸ c.mem_log_emit _)
    · simp [Compiler.emit, encode, Instr.operands, encodeOperands]

theorem compileBreak_sound {level : Nat} (hB : Boundary env Γ c)
    (hblock : env.func.blocks[i]? = some (.brk level))
    (h : compileBreak c level = .ok (r, c')) : BlockSound env Γ (.node i) c r c' := by
  cases level with
  | zero => cases h
  | succ outer =>
      simp only [compileBreak, Compiler.fail] at h
      split at h
      · cases h
      · rename_i s hs
        obtain ⟨s', hs', hsframe, hsdepth⟩ := forall₂_getElem? hB.frames.scopes hs
        have hpops := emitPops_emitted env (c.crashDepth - s.crashDepth) c
        have hpopsLen := length_emitPops (c.crashDepth - s.crashDepth) c
        have hpopsParams := emitPops_params (c.crashDepth - s.crashDepth) c
        generalize hc₁ : emitPops (c.crashDepth - s.crashDepth) c = c₁ at h hpops hpopsLen hpopsParams
        have hframe₁ : c₁.frameSize = c.frameSize := by
          rw [hpops.state]
        generalize hc₂ : (if s.frameSize - c₁.frameSize = 0 then c₁
          else c₁.emit (.storageAdd (s.frameSize - c₁.frameSize))) = c₂ at h
        obtain ⟨⟨bs, hclean⟩, hparams, hadd⟩ := cleanup_sound (hframe₁ ▸ hB.frames.frame)
          hsframe hc₂
        cases h
        have hemit := hpops.trans hclean
        have hjump : BreakJump outer s c₂.params c₂.output
            ((c₂.emit (.jump 0)).addPatch (outer + 1) (c₂.code.length + 1)).output := by
          refine ⟨?_, rfl⟩
          rw [hemit.appends.scopes]
          exact hs
        have hF := (hemit.trans (Emitted.emit env c₂ (.jump 0))).frames hB.frames
        have hgrows := hemit.appends.toExtends.trans hjump.grows
        refine ⟨⟨⟨hF.frame, hF.slots, hF.depth, hF.vars, hF.live, forall₂_addPatchAt hF.scopes⟩,
          hgrows.tidy _ hB.tidy, fun hsmall => ?_⟩, hgrows, fun {I holes} ht hfits => ?_⟩
        · exact hparams.trans (hpopsParams.trans (hB.params_of hgrows.length_le hsmall))
        · have hnil := hB.params_of hgrows.length_le hfits.small
          rw [hparams, hpopsParams, hnil] at hjump
          have ht₂ := hemit.appends.tidy ht
          have hfits₂ := hfits.before hjump.grows
          obtain ⟨target, htarget, hjumpAt⟩ := hjump.jumpAt ht₂ hfits hs'
          have hpopsAt := popsAt hnil ht (hc₁ ▸ hfits₂.before hclean.appends.toExtends)
          have hadd := hadd (hpopsParams.trans hnil) (hpops.appends.tidy ht) hfits₂
          have hlen : ((c₂.emit (.jump 0)).addPatch (outer + 1) (c₂.code.length + 1)).code.length =
              c₂.code.length + 3 := hjump.length
          rw [hB.frames.depth, hsdepth] at hpopsLen hpopsAt
          rw [hpopsLen] at hadd
          have hcode : CodeBlock env I Γ (.node i) c.code.length .unreachable
              (c₂.code.length + 3) := .brk hblock hs' htarget hpopsAt hadd hjumpAt
          rw [← hlen] at hcode
          exact hcode

end Break

/-! ## Scopes and sequences -/

section Scope

variable {c c' c₁ : Compiler} {r r₁ : Reach} {i : Nat} {holes : List Nat}

theorem Tidy.pushScope {frameSize : Int16} (h : Tidy holes c.output) :
    Tidy holes (c.pushScope frameSize).output :=
  ⟨h.inside, h.apart⟩

theorem Boundary.pushScope (h : Boundary env Γ c) (target : Option Nat) :
    Boundary env (Γ.scope target) (c.pushScope c.frameSize) where
  frames := ⟨h.frames.frame, h.frames.slots, h.frames.depth, h.frames.vars, h.frames.live,
    .cons ⟨h.frames.frame, h.frames.depth⟩ h.frames.scopes⟩
  tidy := h.tidy.pushScope
  params := h.params

/-- The end of the scope that was pushed at `c`. -/
theorem endScope_of {frameSize : Int16}
    (hext : Extends env (c.pushScope frameSize).output c₁.output) (ht : Tidy [] c₁.output)
    (h : endScope r₁ c₁ = .ok (r, c')) :
    EndsScope env r₁ c₁ r c' ∧ Extends env c.output c'.output := by
  have hscopes := hext.scopes
  cases hc : c₁.scopes with
  | nil =>
      rw [c₁.output_scopes, hc] at hscopes
      cases hscopes
  | cons s rest =>
      have hend := endScope_sound env hc ht h
      exact ⟨hend, hend.grows (x := c.output) rfl hext⟩

/-- Behind the end of a scope only the scope is gone. -/
theorem EndsScope.frames (h : EndsScope env r₁ c₁ r c') {target : Option Nat}
    (hF : Frames env (Γ.scope target) c₁) : Frames env Γ c' := by
  rw [h.state]
  refine ⟨hF.frame, hF.slots, hF.depth, hF.vars, hF.live, ?_⟩
  have hscopes := hF.scopes
  rw [h.scopes]
  generalize c₁.scopes = l at hscopes ⊢
  cases hscopes with
  | cons _ hrest => exact hrest

theorem compileMany_sound {block : Nat → Compiler → Except Table (Reach × Compiler)} {fuel : Nat}
    {cur next : Option Nat}
    (hchildren : ∀ {Γ c r c'}, Boundary env Γ c →
      compileChildren env block fuel cur next .reachable c = .ok (r, c') →
      BlockSound env Γ (.seq cur next) c r c')
    (hB : Boundary env Γ c) (hblock : env.func.blocks[i]? = some (.many cur next))
    (h : compileMany env block fuel cur next c = .ok (r, c')) :
    BlockSound env Γ (.node i) c r c' := by
  obtain ⟨⟨r₁, c₁⟩, hinner, hend⟩ := bind_eq_ok.mp h
  have hsound := hchildren (hB.pushScope c₁.endTarget) hinner
  obtain ⟨hends, hgrows⟩ := endScope_of hsound.grows hsound.boundary.tidy hend
  refine ⟨⟨hends.frames hsound.boundary.frames, hgrows.tidy _ hB.tidy, fun hsmall => ?_⟩, hgrows,
    fun ht hfits => ?_⟩
  · rw [hends.state]
    exact hsound.boundary.params (hends.length ▸ hsmall)
  · have ht₁ := hsound.grows.tidy _ ht.pushScope
    have hcode := hsound.code ht.pushScope (hends.fits rfl ht₁ hfits)
    rw [← hends.length] at hcode
    rw [hends.reach]
    refine .many hblock (fun t htarget => ?_) hcode
    rw [Compiler.endTarget] at htarget
    split at htarget
    · cases htarget
    · rw [hends.length]
      exact (Option.some.inj htarget).symm

/-- Behind an unreachable end nothing is compiled. -/
theorem compileChildren_unreachable {block : Nat → Compiler → Except Table (Reach × Compiler)}
    {fuel : Nat} {cur next : Option Nat}
    (h : compileChildren env block fuel cur next .unreachable c = .ok (r, c')) :
    r = .unreachable ∧ c' = c := by
  induction fuel generalizing cur next with
  | zero =>
      cases cur with
      | none =>
          cases h
          exact ⟨rfl, rfl⟩
      | some child => cases h
  | succ fuel ih =>
      cases cur with
      | none =>
          cases h
          exact ⟨rfl, rfl⟩
      | some child =>
          obtain ⟨⟨r₁, c₁⟩, hchild, h⟩ := bind_eq_ok.mp h
          cases hchild
          cases next with
          | none =>
              cases h
              exact ⟨rfl, rfl⟩
          | some l =>
              simp only [Compiler.fail] at h
              split at h
              · exact ih h
              · cases h

theorem compileChildren_sound {block : Nat → Compiler → Except Table (Reach × Compiler)}
    {fuel : Nat} {cur next : Option Nat} (hblocks : BlockOk env block) (hB : Boundary env Γ c)
    (h : compileChildren env block fuel cur next .reachable c = .ok (r, c')) :
    BlockSound env Γ (.seq cur next) c r c' := by
  induction fuel generalizing cur next c with
  | zero =>
      cases cur with
      | none =>
          cases h
          exact ⟨hB, .refl _, fun _ _ => .stop⟩
      | some child => cases h
  | succ fuel ih =>
      cases cur with
      | none =>
          cases h
          exact ⟨hB, .refl _, fun _ _ => .stop⟩
      | some child =>
          obtain ⟨⟨r₁, c₁⟩, hchild, h⟩ := bind_eq_ok.mp h
          have hfirst := hblocks hB hchild
          cases next with
          | none =>
              cases h
              exact ⟨hfirst.boundary, hfirst.grows, fun ht hfits => .last (hfirst.code ht hfits)⟩
          | some l =>
              simp only [Compiler.fail] at h
              split at h
              · rename_i cur next hlink
                cases r₁ with
                | reachable =>
                    have hrest := ih hfirst.boundary h
                    refine ⟨hrest.boundary, hfirst.grows.trans hrest.grows, fun ht hfits => ?_⟩
                    exact .link hlink (hfirst.code ht (hfits.before hrest.grows))
                      (hrest.code (hfirst.grows.tidy _ ht) hfits)
                | unreachable =>
                    obtain ⟨rfl, rfl⟩ := compileChildren_unreachable h
                    exact ⟨hfirst.boundary, hfirst.grows,
                      fun ht hfits => .skip (hfirst.code ht hfits)⟩
              · cases h

/-! ## Loops -/

theorem Frames.restore {Γ' : Ctx} (h : Frames env Γ c) (h' : Frames env Γ' c')
    (hscopes : Γ'.scopes = Γ.scopes) : Frames env Γ (c'.restore c.save) :=
  ⟨h.frame, h.slots, h.depth, h.vars, h.live, hscopes ▸ h'.scopes⟩

theorem compileLoop_sound {block : Nat → Compiler → Except Table (Reach × Compiler)} {body : Nat}
    (hblocks : BlockOk env block) (hB : Boundary env Γ c)
    (hblock : env.func.blocks[i]? = some (.loop body))
    (h : compileLoop block body c = .ok (r, c')) : BlockSound env Γ (.node i) c r c' := by
  obtain ⟨⟨r₁, c₁⟩, hbody, h⟩ := bind_eq_ok.mp h
  simp only [ite_bind] at h
  obtain ⟨c₂, hback, h⟩ := bind_eq_ok.mp h
  obtain ⟨⟨hadBreaks, c₃⟩, hfinish, h⟩ := bind_eq_ok.mp h
  cases h
  have hend : endScope .unreachable c₂ =
      .ok (if hadBreaks then .reachable else .unreachable, c₃) := by
    rw [endScope, hfinish]
    simp [bind, Except.bind, pure, Except.pure]
  have hsound := hblocks (hB.pushScope c₂.endTarget) hbody
  -- the jump back to the start of the body
  have hback : c₂ = (if r₁ = .reachable then
      c₁.emit (.jump (UInt16.ofNat c.code.length)) else c₁) := by
    split at hback
    · rename_i hr
      split at hback
      · cases hback
        rw [if_pos hr]
      · cases hback
    · rename_i hr
      cases hback
      rw [if_neg hr]
  have happ : Appends env c₁.output
      (if r₁ = .reachable then encode (.jump (UInt16.ofNat c.code.length)) else []) c₂.output := by
    rw [hback]
    split
    · exact (Emitted.emit env c₁ _).appends
    · exact ⟨by simp, rfl, List.Subset.refl _, .refl _⟩
  have hframes₂ : ∀ {Γ' : Ctx}, Frames env Γ' c₁ → Frames env Γ' c₂ := by
    intro Γ' hF
    have hstate : c₂ = { c₁ with code := c₂.code, log := c₂.log } := by
      rw [hback]
      split <;> rfl
    rw [hstate]
    exact ⟨hF.frame, hF.slots, hF.depth, hF.vars, hF.live, hF.scopes⟩
  have hext₂ := hsound.grows.trans happ.toExtends
  obtain ⟨hends, hgrows⟩ := endScope_of hext₂ (happ.tidy hsound.boundary.tidy) hend
  refine ⟨⟨hB.frames.restore (hends.frames (hframes₂ hsound.boundary.frames)) rfl,
    hgrows.tidy _ hB.tidy, fun hsmall => ?_⟩, hgrows, fun {I holes} ht hfits => ?_⟩
  · exact hB.params_of hgrows.length_le hsmall
  · have ht₁ := hsound.grows.tidy _ ht.pushScope
    have hfits₂ := hends.fits (s := ⟨c₂.endTarget, Γ.slots, Γ.pads, Γ.floor⟩) rfl (happ.tidy ht₁) hfits
    have hcode := hsound.code ht.pushScope (hfits₂.before happ.toExtends)
    have hsmall : c.code.length ≤ 65535 := Nat.le_trans hgrows.length_le hfits.small
    have hjump : r₁ = .reachable → JumpAt I c₁.code.length c.code.length ∧
        c₂.code.length = c₁.code.length + 3 := by
      intro hr
      rw [if_pos hr] at happ
      have hlog : (c₁.code.length, []) ∈ c₂.output.log := by
        have hmem := c₁.mem_log_emit (.jump (UInt16.ofNat c.code.length))
        rw [hsound.boundary.params (hfits₂.before happ.toExtends).small] at hmem
        rwa [hback, if_pos hr]
      refine ⟨⟨hsmall, hfits₂.instr happ ht₁ hlog⟩, ?_⟩
      rw [← c₂.output_code, happ.code]
      simp [encode, Instr.operands, encodeOperands]
    have hstop : r₁ = .unreachable → c₂.code.length = c₁.code.length := by
      intro hr
      rw [hback, if_neg (by simp [hr])]
    have hlen : (c₃.restore c.save).code.length = c₂.code.length := hends.length
    rw [hends.reach, hlen]
    refine .loop hblock (fun t htarget => ?_) hcode hjump hstop
    rw [Compiler.endTarget] at htarget
    split at htarget
    · cases htarget
    · exact (Option.some.inj htarget).symm

/-! ## Locals -/

theorem emitStorageAdd_eq_ok {amount : Int16} (h : c.emitStorageAdd amount = .ok c') :
    0 ≤ (c.frameSize + amount).toInt ∧
      c' = { c.emit (.storageAdd amount) with frameSize := c.frameSize + amount } := by
  simp only [Compiler.emitStorageAdd, Compiler.fail] at h
  split at h
  · cases h
  · rename_i hneg
    cases h
    rw [Int16.lt_iff_toInt_lt, Int16.toInt_zero] at hneg
    exact ⟨Int.not_lt.mp hneg, rfl⟩

/-- The sum of two frame sizes that did not overflow. -/
theorem toInt_add_of_nonneg {a b : Int16} (ha : 0 ≤ a.toInt) (hb : 0 ≤ b.toInt)
    (h : 0 ≤ (a + b).toInt) : (a + b).toInt = a.toInt + b.toInt := by
  have hlow := a.toInt_lt
  have hhigh := b.toInt_lt
  rw [Int16.toInt_add, Int.bmod_def] at h ⊢
  omega

/-- The state behind the `B_STORAGE_ADD` of a local. -/
def Compiler.enterVar (c : Compiler) (v tid : Nat) (size : Int16) : Compiler :=
  { ({ c.pushScope c.frameSize with vars := c.vars.set v ⟨tid, c.frameSize, true⟩ }).emit
      (.storageAdd size) with frameSize := c.frameSize + size }

theorem Boundary.enterVar {v tid : Nat} {t : Ty} (hB : Boundary env Γ c)
    (hvar : env.func.vars[v]? = some tid) (ht : env.types[tid]? = some t)
    (hsize : t.size.toNat ≤ 32767)
    (hnonneg : 0 ≤ (c.frameSize + Int16.ofNat t.size.toNat).toInt) (target : Option Nat) :
    frameOf env.types Γ.slots + t.size.toNat ≤ 32767 ∧
      Boundary env (Γ.local env.types target v tid) (c.enterVar v tid (Int16.ofNat t.size.toNat)) := by
  have hF := hB.frames
  have hsizeInt : (Int16.ofNat t.size.toNat).toInt = t.size.toNat :=
    Int16.toInt_ofNat_of_lt (by omega)
  have hstack : stackSize env.types tid = t.size.toNat := by
    simp [stackSize, ht]
  have hsum := toInt_add_of_nonneg (hF.frame ▸ Int.natCast_nonneg _) (by omega) hnonneg
  rw [hF.frame, hsizeInt] at hsum
  have hlt := (c.frameSize + Int16.ofNat t.size.toNat).toInt_lt
  have happ : Appends env (c.pushScope c.frameSize).output
      (encode (.storageAdd (Int16.ofNat t.size.toNat)))
      (c.enterVar v tid (Int16.ofNat t.size.toNat)).output :=
    ⟨rfl, rfl, List.subset_append_left _ _, .refl _⟩
  have hv : v < c.vars.length := by
    rw [hF.vars]
    exact (List.getElem?_eq_some_iff.mp hvar).1
  refine ⟨by omega, ⟨?_, ?_, hF.depth, ?_, ?_, .cons ⟨hF.frame, hF.depth⟩ hF.scopes⟩,
    happ.tidy hB.tidy.pushScope, fun hsmall => ?_⟩
  · simp only [Compiler.enterVar, Ctx.local, frameOf, hstack, hsum]
    omega
  · have hend : frameOf env.types Γ.slots + stackSize env.types tid ≤ 32767 := by
      rw [hstack]
      omega
    exact ⟨rfl, hend, hF.slots⟩
  · simpa [Compiler.enterVar, Compiler.emit] using hF.vars
  · intro j x hx hlive
    simp only [Compiler.enterVar, Compiler.emit, List.getElem?_set] at hx
    split at hx
    · rename_i hj
      cases hj
      cases hx
      exact ⟨_, List.find?_cons_of_pos (by simp), hF.frame, rfl⟩
    · rename_i hj
      obtain ⟨s, hs, hbase, htid⟩ := hF.live j x hx hlive
      refine ⟨s, ?_, hbase, htid⟩
      simp only [Ctx.local]
      rwa [List.find?_cons_of_neg (by simpa using hj)]
  · have hparams : c.params = [] := hB.params_of happ.toExtends.length_le hsmall
    exact hparams

/-- A dead local is not in the way of the others. -/
theorem live_setLive {v : Nat} {P : Nat → VarLayout → Prop}
    (h : ∀ j x, j ≠ v → c.vars[j]? = some x → x.live = true → P j x) :
    ∀ j x, (setLive c v false).vars[j]? = some x → x.live = true → P j x := by
  intro j x hx hlive
  simp only [setLive, List.getElem?_modify] at hx
  split at hx
  · obtain ⟨y, -, rfl⟩ := Option.map_eq_some_iff.mp hx
    cases hlive
  · rename_i hne
    exact h j x (Ne.symm hne) (by simpa using hx) hlive

theorem compileVar_sound {block : Nat → Compiler → Except Table (Reach × Compiler)}
    {v body : Nat} (hblocks : BlockOk env block) (hB : Boundary env Γ c)
    (hblock : env.func.blocks[i]? = some (.var v body))
    (h : compileVar env block v body c = .ok (r, c')) : BlockSound env Γ (.node i) c r c' := by
  simp only [compileVar, Compiler.fail] at h
  split at h
  · cases h
  · rename_i tid hvar
    split at h
    · cases h
    · rename_i t ht
      split at h
      · cases h
      · rename_i hsize
        obtain ⟨c₃, hadd, h⟩ := bind_eq_ok.mp h
        obtain ⟨⟨r₁, c₄⟩, hbody, h⟩ := bind_eq_ok.mp h
        simp only [ite_bind] at h
        obtain ⟨c₅, hrelease, h⟩ := bind_eq_ok.mp h
        obtain ⟨⟨r₂, c₆⟩, hend, h⟩ := bind_eq_ok.mp h
        cases h
        obtain ⟨hnonneg, hc₃⟩ := emitStorageAdd_eq_ok hadd
        have hc₃ : c₃ = c.enterVar v tid (Int16.ofNat t.size.toNat) := hc₃
        have happ₃ : Appends env (c.pushScope c.frameSize).output
            (encode (.storageAdd (Int16.ofNat t.size.toNat))) c₃.output := by
          rw [hc₃]
          exact ⟨rfl, rfl, List.subset_append_left _ _, .refl _⟩
        obtain ⟨hfit, hB₃⟩ := hB.enterVar hvar ht (by omega) hnonneg c₅.endTarget
        rw [← hc₃] at hB₃
        have hsound := hblocks hB₃ hbody
        -- releasing the local on the normal path
        have hrelease : c₅ = c₄ ∧ r₁ ≠ .reachable ∨ r₁ = .reachable ∧
            c₅ = { (setLive c₄ v false).emit (.storageAdd (-Int16.ofNat t.size.toNat)) with
              frameSize := c₄.frameSize + -Int16.ofNat t.size.toNat } := by
          split at hrelease
          · rename_i hr
            exact .inr ⟨hr, (emitStorageAdd_eq_ok hrelease).2⟩
          · rename_i hr
            cases hrelease
            exact .inl ⟨rfl, hr⟩
        have happ₅ : Appends env c₄.output (if r₁ = .reachable then
            encode (.storageAdd (-Int16.ofNat t.size.toNat)) else []) c₅.output := by
          rcases hrelease with ⟨rfl, hr⟩ | ⟨hr, rfl⟩
          · rw [if_neg hr]
            exact ⟨by simp, rfl, List.Subset.refl _, .refl _⟩
          · rw [if_pos hr]
            exact ⟨rfl, rfl, List.subset_append_left _ _, .refl _⟩
        have hext₅ := (happ₃.toExtends.trans hsound.grows).trans happ₅.toExtends
        obtain ⟨hends, hgrows⟩ := endScope_of hext₅ (happ₅.tidy hsound.boundary.tidy) hend
        have hF₄ := hsound.boundary.frames
        -- the other locals are where they were
        have hothers : ∀ j x, j ≠ v → c₄.vars[j]? = some x → x.live = true →
            ∃ s, Γ.slots.find? (fun s => s.var == j) = some s ∧
              x.base.toInt = (s.base : Int) ∧ x.tid = s.tid := by
          intro j x hj hx hlive
          obtain ⟨s, hs, hslot⟩ := hF₄.live j x hx hlive
          simp only [Ctx.local] at hs
          rw [List.find?_cons_of_neg (by simpa using Ne.symm hj)] at hs
          exact ⟨s, hs, hslot⟩
        have hlive₅ : ∀ j x, j ≠ v → c₅.vars[j]? = some x → x.live = true →
            ∃ s, Γ.slots.find? (fun s => s.var == j) = some s ∧
              x.base.toInt = (s.base : Int) ∧ x.tid = s.tid := by
          rcases hrelease with ⟨rfl, -⟩ | ⟨-, rfl⟩
          · exact hothers
          · intro j x _ hx hlive
            exact live_setLive hothers j x hx hlive
        have hvars₅ : c₅.vars.length = c₄.vars.length ∧ c₅.crashDepth = c₄.crashDepth ∧
            c₅.scopes = c₄.scopes ∧ c₅.params = c₄.params := by
          rcases hrelease with ⟨rfl, -⟩ | ⟨-, rfl⟩
          · exact ⟨rfl, rfl, rfl, rfl⟩
          · exact ⟨by simp [Compiler.emit, setLive], rfl, rfl, rfl⟩
        have hvars₆ : c₆.vars = c₅.vars := by
          rw [hends.state]
        have hdepth₆ : c₆.crashDepth = c₅.crashDepth := by
          rw [hends.state]
        have hparams₆ : c₆.params = c₅.params := by
          rw [hends.state]
        refine ⟨⟨⟨hB.frames.frame, hB.frames.slots, ?_, ?_, live_setLive (hvars₆ ▸ hlive₅), ?_⟩,
          hgrows.tidy _ hB.tidy, fun hsmall => ?_⟩, hgrows, fun {I holes} ht' hfits => ?_⟩
        · exact hdepth₆.trans (hvars₅.2.1.trans hF₄.depth)
        · have hlen : c₆.vars.length = env.func.vars.length := by
            rw [hvars₆, hvars₅.1, hF₄.vars]
          simpa [setLive] using hlen
        · have hscopes := hF₄.scopes
          rw [← hvars₅.2.2.1] at hscopes
          show List.Forall₂ (ScopeMatches env) c₆.scopes Γ.scopes
          rw [hends.scopes]
          generalize c₅.scopes = l at hscopes ⊢
          cases hscopes with
          | cons _ hrest => exact hrest
        · have hsmall : c₄.code.length ≤ 65535 := by
            have hle := happ₅.toExtends.length_le
            rw [c₄.output_code, c₅.output_code, ← hends.length] at hle
            exact Nat.le_trans hle hsmall
          exact hparams₆.trans (hvars₅.2.2.2.trans (hsound.boundary.params hsmall))
        · have ht₃ := happ₃.tidy ht'.pushScope
          have ht₄ := hsound.grows.tidy _ ht₃
          have hfits₅ := hends.fits (s := ⟨c₅.endTarget, Γ.slots, Γ.pads, Γ.floor⟩) rfl
            (happ₅.tidy ht₄) hfits
          have hfits₄ := hfits₅.before happ₅.toExtends
          have hcode := hsound.code ht₃ hfits₄
          have hsizeInt : (Int16.ofNat t.size.toNat).toInt = t.size.toNat :=
            Int16.toInt_ofNat_of_lt (by omega)
          have hlog₃ : (c.code.length, []) ∈ c₃.output.log := by
            have hmem := c.mem_log_emit (.storageAdd (Int16.ofNat t.size.toNat))
            rw [hB.params_of hgrows.length_le hfits.small] at hmem
            rw [hc₃]
            exact hmem
          have henter : AddAt I c.code.length t.size.toNat :=
            ⟨_, hsizeInt, (hfits₄.before hsound.grows).instr happ₃ ht'.pushScope hlog₃⟩
          have hlen₃ : c₃.code.length = c.code.length + 3 := by
            rw [← c₃.output_code, happ₃.code]
            simp [encode, Instr.operands, encodeOperands, Compiler.pushScope]
          have hleave : r₁ = .reachable → AddAt I c₄.code.length (-(t.size.toNat : Int)) ∧
              c₅.code.length = c₄.code.length + 3 := by
            intro hr
            rw [if_pos hr] at happ₅
            have hlog₅ : (c₄.code.length, []) ∈ c₅.output.log := by
              have hmem := c₄.mem_log_emit (.storageAdd (-Int16.ofNat t.size.toNat))
              rw [hsound.boundary.params hfits₄.small] at hmem
              rcases hrelease with ⟨-, hne⟩ | ⟨-, rfl⟩
              · exact absurd hr hne
              · exact hmem
            refine ⟨⟨-Int16.ofNat t.size.toNat, ?_, hfits₅.instr happ₅ ht₄ hlog₅⟩, ?_⟩
            · rw [Int16.toInt_neg, hsizeInt, Int.bmod_eq_of_le] <;> omega
            · rw [← c₅.output_code, happ₅.code]
              simp [encode, Instr.operands, encodeOperands]
          have hstay : r₁ = .unreachable → c₅.code.length = c₄.code.length := by
            intro hr
            rw [← c₅.output_code, happ₅.code, if_neg (by simp [hr])]
            simp
          have hlen : ({ setLive c₆ v false with frameSize := c.frameSize } :
              Compiler).code.length = c₅.code.length := hends.length
          rw [hends.reach, hlen]
          refine .var hblock hvar ht hfit henter (fun x htarget => ?_) (hlen₃ ▸ hcode) hleave hstay
          rw [Compiler.endTarget] at htarget
          split at htarget
          · cases htarget
          · exact (Option.some.inj htarget).symm

/-! ## Branches -/

theorem restore_boundary (h : Boundary env Γ c) {Γ' : Ctx} (h' : Frames env Γ' c')
    (hscopes : Γ'.scopes = Γ.scopes) (ht : Tidy [] c'.output)
    (hlen : c.code.length ≤ c'.code.length) : Boundary env Γ (c'.restore c.save) where
  frames := h.frames.restore h' hscopes
  tidy := ht
  params hsmall := h.params_of hlen hsmall

/-- A test whose second target, at `n`, is still open. -/
structure TestSound (env : CompileEnv) (Γ : Ctx) (cond : OpRange) (c : Compiler) (n : Nat)
    (c' : Compiler) : Prop where
  boundary : Boundary env Γ c'
  grows : Extends env c.output c'.output
  behind : c.code.length ≤ n
  tidy : ∀ {holes}, Tidy holes c.output → Tidy (n :: holes) c'.output
  code : ∀ {I holes t}, Tidy holes c.output →
    FitsImage env I Γ.scopes (n :: holes) c'.output → t ≤ 65535 → At I.code n (bytesOf 2 t) →
    ∃ l o, opsIn env cond = some l ∧ CodeOps env I Γ.slots l c.code.length [] o [intId] ∧
      c'.code.length = o + 5 ∧
      InstrAt I o [intId] (.branchTop (UInt16.ofNat (o + 5)) (UInt16.ofNat t))

theorem compileTest_sound (hcallee : CalleeOk env) {cond : OpRange} {c₂ c₃ : Compiler}
    (hB : Boundary env Γ c) (hcond : compileCond env c cond = .ok c₁)
    (htest : (c₁.emit (.branchTop 0 0)).popTypes 1 = .ok c₂)
    (hpatch : c₂.patch (c₁.code.length + 1) c₂.code.length = .ok c₃) :
    TestSound env Γ cond c (c₁.code.length + 3) c₃ := by
  obtain ⟨⟨bs, hemit⟩, hcode, hparams⟩ := compileCond_sound hcallee hB hcond
  obtain ⟨-, hc₂⟩ := popTypes_eq_ok htest
  obtain ⟨hsmall, hc₃⟩ := patch_eq_ok hpatch
  have happ : Appends env c₁.output (encode (.branchTop 0 0)) c₂.output := by
    rw [hc₂]
    exact (Emitted.emit env c₁ _).appends
  have hlen₂ : c₂.output.code.length = c₁.output.code.length + 5 := by
    rw [happ.code]
    simp [encode, Instr.operands, encodeOperands]
  have hlen₁ : c.output.code.length ≤ c₁.output.code.length := hemit.appends.toExtends.length_le
  have hout₃ : c₃.output = c₂.output.patch (c₁.code.length + 1) c₂.code.length := by
    rw [hc₃]
    rfl
  have hyesIn : c₁.code.length + 1 + 2 ≤ c₂.output.code.length := by
    rw [hlen₂, c₁.output_code]
    omega
  have hlen₃ : c₃.output.code.length = c₁.output.code.length + 5 := by
    rw [hout₃, Output.length_patch hyesIn, hlen₂]
  -- both targets are open in front of the patch
  have htidy₂ : ∀ {holes}, Tidy holes c.output →
      Tidy ((c₁.code.length + 1) :: (c₁.code.length + 3) :: holes) c₂.output := by
    intro holes ht
    have ht₁ := hemit.appends.tidy ht
    have hno := happ.opens ht₁ (p := c₁.code.length + 3) (Nat.le_add_right _ _)
      (Nat.le_of_eq hlen₂.symm)
    refine hno.cons hyesIn fun q hq => ?_
    rcases List.mem_cons.mp hq with rfl | hq
    · exact .inl (Nat.le_refl _)
    · rw [happ.pending] at hq
      have hq := ht₁.inside q hq
      rw [c₁.output_code] at hq
      exact .inr (by omega)
  have htidy₃ : ∀ {holes}, Tidy holes c.output →
      Tidy ((c₁.code.length + 3) :: holes) c₃.output := by
    intro holes ht
    rw [hout₃]
    exact (htidy₂ ht).tail.patch hyesIn
  have hgrows : Extends env c.output c₃.output := by
    rw [hout₃]
    exact (hemit.appends.toExtends.trans happ.toExtends).patch hyesIn
      (Nat.le_trans hlen₁ (Nat.le_succ _))
  have hF₃ : Frames env Γ c₃ := by
    have hF := hemit.frames hB.frames
    rw [hc₃, hc₂]
    exact ⟨hF.frame, hF.slots, hF.depth, hF.vars, hF.live, hF.scopes⟩
  refine ⟨⟨hF₃, (htidy₃ hB.tidy).nil, fun hle => ?_⟩, hgrows,
    Nat.le_trans hlen₁ (Nat.le_add_right _ 3), htidy₃, ?_⟩
  · rw [← c₃.output_code, hlen₃] at hle
    have hone := hparams (by rw [← c₁.output_code]; omega)
    rw [hc₃, hc₂]
    simp [Compiler.emit, hone]
  · intro I holes t ht hfits hle hno
    rw [hout₃] at hfits
    have hyes := hfits.patched (htidy₂ ht)
    have hfits₂ := hfits.patch hyesIn
    have hop := happ.opcode (hemit.appends.tidy ht) hfits₂.agree fun q hq => by
      simp only [List.cons_append, List.mem_cons] at hq
      rcases hq with rfl | rfl | hq
      · exact .inr (Nat.lt_succ_self _)
      · exact .inr (by rw [c₁.output_code]; omega)
      · exact .inl (happ.pending ▸ hq)
    have hfits₁ := (hfits₂.before happ.toExtends).mono fun q hq => by
      simp only [List.mem_cons] at hq
      rcases hq with rfl | rfl | hq
      · exact .inr (by rw [c₁.output_code]; omega)
      · exact .inr (by rw [c₁.output_code]; omega)
      · exact .inl hq
    obtain ⟨l, hl, hops⟩ := hcode ht hfits₁
    have htarget : ∀ {u}, u ≤ 65535 → (UInt16.ofNat u).toNat = u := by
      intro u hu
      simp
      omega
    have hlog : (c₁.code.length, [intId]) ∈ c₂.output.log := by
      have hmem := c₁.mem_log_emit (.branchTop 0 0)
      rw [hparams hfits₁.small] at hmem
      rw [hc₂]
      exact hmem
    refine ⟨l, c₁.code.length, hl, hops, hlen₃, ⟨hop, ?_⟩, hfits₂.log _ hlog⟩
    rw [c₂.output_code, c₁.output_code] at hlen₂
    simp only [Instr.operands, encodeOperands, List.append_nil, At.append, length_bytesOf]
    rw [htarget (hlen₂ ▸ hsmall), htarget hle, ← hlen₂]
    exact ⟨hyes, hno⟩

/-- Between the arms of a branch or of a crash pad: the jump over the second arm is open, and the
first arm's target `n` has become the second arm. -/
structure SecondArm (env : CompileEnv) (Γ : Ctx) (c : Compiler) (r : Reach) (n p : Nat)
    (c₁ c' : Compiler) : Prop where
  boundary : Boundary env Γ c'
  grows : Extends env c.output c'.output
  length : c'.code.length = c₁.code.length + if r = .reachable then 3 else 0
  behind : r = .reachable → c.code.length ≤ p
  tidy : ∀ {holes}, Tidy (n :: holes) c₁.output → Tidy (openEnd r p ++ holes) c'.output
  fits : ∀ {I holes}, Tidy (n :: holes) c₁.output →
    FitsImage env I Γ.scopes (openEnd r p ++ holes) c'.output →
    FitsImage env I Γ.scopes (n :: holes) c₁.output ∧ At I.code n (bytesOf 2 c'.code.length) ∧
      (r = .reachable → ∀ {t}, t ≤ 65535 → At I.code p (bytesOf 2 t) → JumpAt I c₁.code.length t)

theorem secondArm_sound {Γ' : Ctx} {n p : Nat} {c₂ : Compiler} (hB : Boundary env Γ c)
    (hext : Extends env c.output c₁.output) (hF : Frames env Γ' c₁)
    (hscopes : Γ'.scopes = Γ.scopes) (hn : c.code.length ≤ n) (ht : Tidy [n] c₁.output)
    (hnil : r = .reachable → c₁.code.length ≤ 65535 → c₁.params = [])
    (hopen : (if r = .reachable then emitJump c₁ else (0, c₁)) = (p, c₂))
    (hpatch : (c₂.restore c.save).patch n (c₂.restore c.save).code.length = .ok c') :
    SecondArm env Γ c r n p c₁ c' := by
  obtain ⟨hopens, hc₂⟩ := emitEnd_eq env hopen
  obtain ⟨hsmall, hc'⟩ := patch_eq_ok hpatch
  have hout : c'.output = c₂.output.patch n c₂.code.length := by
    rw [hc']
    rfl
  have hnIn : n + 2 ≤ c₂.output.code.length :=
    Nat.le_trans (ht.inside n (by simp)) hopens.appends.toExtends.length_le
  have hlen : c'.output.code.length = c₂.output.code.length := by
    rw [hout, Output.length_patch hnIn]
  have hF₂ : Frames env Γ' c₂ := by
    rw [hc₂]
    exact ⟨hF.frame, hF.slots, hF.depth, hF.vars, hF.live, hF.scopes⟩
  -- two holes are open here: the place in the test, and the end of the first arm
  have hperm : ∀ {holes : List Nat}, (n :: (openEnd r p ++ holes)).Perm
      (openEnd r p ++ n :: holes) := List.perm_middle.symm
  have htidy₂ : ∀ {holes}, Tidy (n :: holes) c₁.output →
      Tidy (n :: (openEnd r p ++ holes)) c₂.output := fun ht => (hopens.tidy ht).perm hperm
  have htidy : ∀ {holes}, Tidy (n :: holes) c₁.output →
      Tidy (openEnd r p ++ holes) c'.output := by
    intro holes ht
    rw [hout]
    exact (htidy₂ ht).tail.patch hnIn
  have hgrows : Extends env c.output c'.output := by
    rw [hout]
    exact (hext.trans hopens.appends.toExtends).patch hnIn hn
  have hF' : Frames env Γ c' := by
    have hF := hB.frames.restore hF₂ hscopes
    rw [hc']
    exact ⟨hF.frame, hF.slots, hF.depth, hF.vars, hF.live, hF.scopes⟩
  refine ⟨⟨hF', (htidy ht).nil, fun hle => ?_⟩, hgrows, hlen.trans hopens.length, fun hr => ?_,
    htidy, ?_⟩
  · have hparams := hB.params_of hgrows.length_le hle
    rw [hc']
    exact hparams
  · rw [hopens.place hr]
    exact Nat.le_succ_of_le hext.length_le
  · intro I holes ht hfits
    rw [hout] at hfits
    have hfits₂ := hfits.patch hnIn
    refine ⟨?_, ?_, fun hr t hle hp => ?_⟩
    -- what was written last is taken back: first the patch, then the jump
    · refine (hfits₂.before hopens.appends.toExtends).mono fun q hq => ?_
      simp only [List.mem_cons, List.mem_append] at hq
      rcases hq with rfl | hq | hq
      · exact .inl (by simp)
      · unfold openEnd at hq
        split at hq
        · rename_i hr
          rw [List.mem_singleton] at hq
          rw [hq, hopens.place hr]
          exact .inr (Nat.le_succ _)
        · simp at hq
      · exact .inl (by simp [hq])
    · rw [show c'.code.length = c₂.code.length from hlen]
      exact hfits.patched (htidy₂ ht)
    · have hfits₁ := hfits₂.before hopens.appends.toExtends
      have hopens := hopens
      rw [hnil hr hfits₁.small] at hopens
      refine hopens.jumpAt hr ht hfits₂ (fun q hq => ?_) hle hp
      simp only [openEnd, if_pos hr, List.mem_cons, List.mem_append, List.not_mem_nil,
        or_false] at hq
      rcases hq with rfl | rfl | hq
      · exact .inl (by simp)
      · rw [hopens.place hr]
        exact .inr (Nat.lt_succ_self _)
      · exact .inl (by simp [hq])

/-- The end of the second arm: the jump over it gets its target. -/
theorem SecondArm.close {c₁ c₂ c₃ c₄ : Compiler} {n p : Nat} (h : SecondArm env Γ c r n p c₁ c₂)
    (hext : Extends env c₂.output c₃.output) (ht : Tidy [n] c₁.output)
    (hclose : ClosesEnd r p c₃.output c₄.output) :
    Extends env c.output c₄.output ∧ c₄.code.length = c₃.code.length ∧
      ∀ {I holes}, Tidy (n :: holes) c₁.output →
        FitsImage env I Γ.scopes holes c₄.output →
        Tidy (openEnd r p ++ holes) c₂.output ∧
          FitsImage env I Γ.scopes (openEnd r p ++ holes) c₃.output ∧
          (r = .reachable → c₃.code.length ≤ 65535 ∧ At I.code p (bytesOf 2 c₃.code.length)) := by
  have ht₃ : Tidy (openEnd r p) c₃.output := by
    have ht₂ := h.tidy ht
    rw [List.append_nil] at ht₂
    exact hext.tidy _ ht₂
  refine ⟨hclose.grows ht₃ (h.grows.trans hext) h.behind, hclose.length ht₃, ?_⟩
  intro I holes hth hfits
  have ht₂ := h.tidy hth
  obtain ⟨hfits₃, hp⟩ := hclose.fits (hext.tidy _ ht₂) hfits
  exact ⟨ht₂, hfits₃, fun hr => ⟨hclose.small hr, hp hr⟩⟩

theorem compileBranch_sound (hcallee : CalleeOk env)
    {block : Nat → Compiler → Except Table (Reach × Compiler)} {cond : OpRange} {yes no : Nat}
    (hblocks : BlockOk env block) (hB : Boundary env Γ c)
    (hblock : env.func.blocks[i]? = some (.branch cond yes no))
    (h : compileBranch env block cond yes no c = .ok (r, c')) :
    BlockSound env Γ (.node i) c r c' := by
  obtain ⟨c₁, hcond, h⟩ := bind_eq_ok.mp h
  obtain ⟨c₂, htest, h⟩ := bind_eq_ok.mp h
  obtain ⟨c₃, hyesPatch, h⟩ := bind_eq_ok.mp h
  obtain ⟨⟨r₁, c₄⟩, hyes, h⟩ := bind_eq_ok.mp h
  dsimp only at h
  generalize hopen : (if r₁ = .reachable then emitJump c₄ else (0, c₄)) = opened at h
  obtain ⟨p, c₅⟩ := opened
  obtain ⟨c₇, hnoPatch, h⟩ := bind_eq_ok.mp h
  obtain ⟨⟨r₂, c₈⟩, hno, h⟩ := bind_eq_ok.mp h
  simp only [ite_bind] at h
  obtain ⟨c₉, hclose, h⟩ := bind_eq_ok.mp h
  have htestSound := compileTest_sound hcallee hB hcond htest hyesPatch
  have hyesSound := hblocks htestSound.boundary hyes
  have hgrows₄ := htestSound.grows.trans hyesSound.grows
  have ht₄ := hyesSound.grows.tidy _ (htestSound.tidy hB.tidy)
  have harm := secondArm_sound hB hgrows₄ hyesSound.boundary.frames rfl htestSound.behind ht₄
    (fun _ => hyesSound.boundary.params) hopen hnoPatch
  have hnoSound := hblocks harm.boundary hno
  obtain ⟨hcloses, hc₉⟩ := patchEnd_eq_ok hclose
  obtain ⟨hgrows, hlen₉, hfitsBack⟩ := harm.close hnoSound.grows ht₄ hcloses
  have hF₉ : Frames env Γ c₉ := by
    have hF := hnoSound.boundary.frames
    rw [hc₉]
    exact ⟨hF.frame, hF.slots, hF.depth, hF.vars, hF.live, hF.scopes⟩
  have ht₉ := hgrows.tidy _ hB.tidy
  -- whichever arm ends, its state is the state behind the branch
  have hle₄ : c₄.code.length ≤ c₉.code.length := by
    have := hnoSound.length_le
    have := harm.length
    omega
  have hle₈ : c₈.code.length ≤ c₉.code.length := Nat.le_of_eq hlen₉.symm
  have hfinal : Boundary env Γ c' ∧ c'.output = c₉.output ∧
      r = if r₁ = .reachable ∨ r₂ = .reachable then .reachable else .unreachable := by
    cases r₁ <;> cases r₂ <;> simp only [Compiler.fail] at h
    · split at h
      · cases h
        exact ⟨restore_boundary hyesSound.boundary hF₉ rfl ht₉ hle₄, rfl, by simp⟩
      · cases h
    · cases h
      exact ⟨restore_boundary hyesSound.boundary hF₉ rfl ht₉ hle₄, rfl, by simp⟩
    · cases h
      exact ⟨restore_boundary hnoSound.boundary hF₉ rfl ht₉ hle₈, rfl, by simp⟩
    · cases h
      refine ⟨⟨hF₉, ht₉, fun hsmall => ?_⟩, rfl, by simp⟩
      rw [hc₉]
      exact hnoSound.boundary.params_of hle₈ hsmall
  obtain ⟨hB', hout, rfl⟩ := hfinal
  refine ⟨hB', hout ▸ hgrows, fun {I holes} ht hfits => ?_⟩
  rw [hout] at hfits
  have ht₃ := htestSound.tidy ht
  obtain ⟨ht₇, hfits₈, hp⟩ := hfitsBack (hyesSound.grows.tidy _ ht₃) hfits
  obtain ⟨hfits₄, hn, hjump⟩ := harm.fits (hyesSound.grows.tidy _ ht₃)
    (hfits₈.before hnoSound.grows)
  have hnoSmall : c₇.code.length ≤ 65535 :=
    Nat.le_trans hnoSound.length_le hfits₈.small
  obtain ⟨l, o, hl, hops, hlen₃, hinstr⟩ := htestSound.code ht
    (hfits₄.before hyesSound.grows) hnoSmall hn
  have hlen' : c'.code.length = c₈.code.length := by
    rw [← c'.output_code, hout]
    exact hlen₉
  have hsmall₃ : o + 5 ≤ 65535 := by
    rw [← hlen₃]
    exact Nat.le_trans hyesSound.length_le hfits₄.small
  have hyesCode := hyesSound.code ht₃ hfits₄
  rw [hlen₃] at hyesCode
  rw [hlen']
  refine .branch hblock hl hops hnoSmall hsmall₃ hinstr hyesCode (fun hr => ?_) (fun hr => ?_)
    (hnoSound.code ht₇ hfits₈)
  · obtain ⟨hle, hp⟩ := hp hr
    exact ⟨hjump hr hle hp, by rw [harm.length, if_pos hr]⟩
  · rw [harm.length, if_neg (by simp [hr])]
    rfl

/-! ## Crash pads -/

theorem Reach.unreachable_of (h : r ≠ .reachable) : r = .unreachable := by
  cases r with
  | reachable => exact absurd rfl h
  | unreachable => rfl

theorem Boundary.handler (h : Boundary env Γ c) : Boundary env Γ.handler c :=
  ⟨⟨h.frames.frame, h.frames.slots, h.frames.depth, h.frames.vars, h.frames.live,
    h.frames.scopes⟩, h.tidy, h.params⟩

/-- A crash pad whose handler, at `n`, is still open. -/
theorem Boundary.pushCrash (hB : Boundary env Γ c) (handler : Nat) :
    Boundary env (Γ.guarded handler)
      { c.emit (.pushCrash 0) with crashDepth := c.crashDepth + 1 } where
  frames := ⟨hB.frames.frame, hB.frames.slots, by simp [Ctx.guarded, hB.frames.depth],
    hB.frames.vars, hB.frames.live, hB.frames.scopes⟩
  tidy := (Emitted.emit env c _).appends.tidy hB.tidy
  params hsmall := hB.params_of (Emitted.emit env c _).appends.toExtends.length_le hsmall

/-- The end of a protected body. -/
structure BodyEnd (env : CompileEnv) (Γ : Ctx) (r : Reach) (c c' : Compiler) : Prop where
  appends : Appends env c.output (if r = .reachable then encode .popCrash else []) c'.output
  frames : ∃ Γ' : Ctx, Γ'.scopes = Γ.scopes ∧ Frames env Γ' c'
  boundary : r = .reachable → Boundary env Γ c'

theorem bodyEnd_of {handler : Nat} (hB : Boundary env (Γ.guarded handler) c)
    (hc' : (if r = .reachable then
      { c.emit .popCrash with crashDepth := c.crashDepth - 1 } else c) = c') :
    BodyEnd env Γ r c c' := by
  have hF := hB.frames
  split at hc'
  · rename_i hr
    subst hc'
    have happ := (Emitted.emit env c .popCrash).appends
    have hdepth : c.crashDepth - 1 = Γ.pads.length := by
      rw [hF.depth]
      rfl
    have hF' : Frames env Γ { c.emit .popCrash with crashDepth := c.crashDepth - 1 } :=
      ⟨hF.frame, hF.slots, hdepth, hF.vars, hF.live, hF.scopes⟩
    refine ⟨by rw [if_pos hr]; exact happ, ⟨Γ, rfl, hF'⟩, fun _ => ⟨hF', happ.tidy hB.tidy, ?_⟩⟩
    exact fun hsmall => hB.params_of happ.toExtends.length_le hsmall
  · rename_i hr
    subst hc'
    refine ⟨by rw [if_neg hr]; exact ⟨by simp, rfl, List.Subset.refl _, .refl _⟩,
      ⟨Γ.guarded handler, rfl, hF⟩, fun h => absurd h hr⟩

theorem compileCrashPad_sound {block : Nat → Compiler → Except Table (Reach × Compiler)}
    {body pad : Nat} (hblocks : BlockOk env block) (hB : Boundary env Γ c)
    (hblock : env.func.blocks[i]? = some (.crashPad body pad))
    (h : compileCrashPad block body pad c = .ok (r, c')) :
    BlockSound env Γ (.node i) c r c' := by
  obtain ⟨⟨r₁, c₂⟩, hbody, h⟩ := bind_eq_ok.mp h
  dsimp only at h
  generalize hc₃ : (if r₁ = .reachable then
    { c₂.emit .popCrash with crashDepth := c₂.crashDepth - 1 } else c₂) = c₃ at h
  generalize hopen : (if r₁ = .reachable then emitJump c₃ else (0, c₃)) = opened at h
  obtain ⟨p, c₄⟩ := opened
  obtain ⟨c₆, hpadPatch, h⟩ := bind_eq_ok.mp h
  obtain ⟨⟨r₂, c₇⟩, hpad, h⟩ := bind_eq_ok.mp h
  simp only [ite_bind] at h
  obtain ⟨c₉, hclose, h⟩ := bind_eq_ok.mp h
  have happ₁ := (Emitted.emit env c (.pushCrash 0)).appends
  have hB₁ := hB.pushCrash c₆.code.length
  have hbodySound := hblocks hB₁ hbody
  have hbodyEnd := bodyEnd_of hbodySound.boundary hc₃
  obtain ⟨Γ₃, hscopes₃, hF₃⟩ := hbodyEnd.frames
  have hgrows₃ := (happ₁.toExtends.trans hbodySound.grows).trans hbodyEnd.appends.toExtends
  have htidy₁ : ∀ {holes}, Tidy holes c.output →
      Tidy ((c.code.length + 1) :: holes) (c.emit (.pushCrash 0)).output := fun ht =>
    happ₁.opens ht (Nat.le_succ _) (by
      rw [happ₁.code]
      simp [encode, Instr.operands, encodeOperands])
  have htidy₃ : ∀ {holes}, Tidy holes c.output →
      Tidy ((c.code.length + 1) :: holes) c₃.output := fun ht =>
    hbodyEnd.appends.tidy (hbodySound.grows.tidy _ (htidy₁ ht))
  have harm := secondArm_sound hB hgrows₃ hF₃ hscopes₃ (Nat.le_succ _) (htidy₃ hB.tidy)
    (fun hr => (hbodyEnd.boundary hr).params) hopen hpadPatch
  have hpadSound := hblocks harm.boundary.handler hpad
  -- the re-raise behind the handler
  generalize hc₈ : (if r₂ = .reachable then c₇.emit .crash else c₇) = c₈ at h hclose
  have happ₈ : Appends env c₇.output (if r₂ = .reachable then encode .crash else [])
      c₈.output := by
    subst hc₈
    split
    · exact (Emitted.emit env c₇ _).appends
    · exact ⟨by simp, rfl, List.Subset.refl _, .refl _⟩
  have hparams₈ : c₈.params = c₇.params := by
    subst hc₈
    split <;> rfl
  have hF₈ : Frames env Γ c₈ := by
    have hF := hpadSound.boundary.frames
    subst hc₈
    split <;> exact ⟨hF.frame, hF.slots, hF.depth, hF.vars, hF.live, hF.scopes⟩
  obtain ⟨hcloses, hc₉⟩ := patchEnd_eq_ok hclose
  obtain ⟨hgrows, hlen₉, hfitsBack⟩ :=
    harm.close (hpadSound.grows.trans happ₈.toExtends) (htidy₃ hB.tidy) hcloses
  have hF₉ : Frames env Γ c₉ := by
    rw [hc₉]
    exact ⟨hF₈.frame, hF₈.slots, hF₈.depth, hF₈.vars, hF₈.live, hF₈.scopes⟩
  have ht₉ := hgrows.tidy _ hB.tidy
  have hle₈ : c₇.code.length ≤ c₉.code.length := by
    rw [hlen₉]
    exact happ₈.toExtends.length_le
  have hle₃ : c₃.code.length ≤ c₉.code.length := by
    have := hpadSound.length_le
    have := harm.length
    omega
  have hfinal : Boundary env Γ c' ∧ c'.output = c₉.output ∧ r = r₁ := by
    split at h
    · rename_i hr
      cases h
      exact ⟨restore_boundary (hbodyEnd.boundary hr) hF₉ rfl ht₉ hle₃, rfl, hr.symm⟩
    · rename_i hr
      cases h
      refine ⟨⟨hF₉, ht₉, fun hsmall => ?_⟩, rfl, (Reach.unreachable_of hr).symm⟩
      rw [hc₉]
      exact hparams₈.trans (hpadSound.boundary.params_of hle₈ hsmall)
  obtain ⟨hB', hout, rfl⟩ := hfinal
  refine ⟨hB', hout ▸ hgrows, fun {I holes} ht hfits => ?_⟩
  rw [hout] at hfits
  obtain ⟨ht₆, hfits₈, hp⟩ := hfitsBack (htidy₃ ht) hfits
  have hfits₇ := hfits₈.before happ₈.toExtends
  obtain ⟨hfits₃, hn, hjump⟩ := harm.fits (htidy₃ ht) (hfits₇.before hpadSound.grows)
  have hfits₂ := hfits₃.before hbodyEnd.appends.toExtends
  have hbodyCode := hbodySound.code (htidy₁ ht) hfits₂
  have hhandlerSmall : c₆.code.length ≤ 65535 :=
    Nat.le_trans hpadSound.length_le hfits₇.small
  have hpadCode := hpadSound.code ht₆ hfits₇
  have hpush : InstrAt I c.code.length [] (.pushCrash (UInt16.ofNat c₆.code.length)) := by
    have hfits₁ := hfits₂.before hbodySound.grows
    have hop := happ₁.opcode ht hfits₁.agree fun q hq => by
      simp only [List.cons_append, List.mem_cons] at hq
      rcases hq with rfl | hq
      · exact .inr (Nat.lt_succ_self _)
      · exact .inl hq
    have hhandler : (UInt16.ofNat c₆.code.length).toNat = c₆.code.length := by
      simp
      omega
    have hlog := c.mem_log_emit (.pushCrash 0)
    rw [hB.params_of (happ₁.toExtends.length_le) hfits₁.small] at hlog
    refine ⟨⟨hop, ?_⟩, hfits₁.log _ hlog⟩
    simpa [Instr.operands, encodeOperands, hhandler] using hn
  have hlen₁ : (c.emit (.pushCrash 0)).code.length = c.code.length + 3 := by
    simp [Compiler.emit, encode, Instr.operands, encodeOperands]
  have hlen₃ : c₃.code.length = c₂.code.length + if r = .reachable then 1 else 0 := by
    rw [← c₃.output_code, hbodyEnd.appends.code, List.length_append]
    split <;> simp [encode, Instr.operands, encodeOperands]
  have hlen₈ : c₈.code.length = c₇.code.length + if r₂ = .reachable then 1 else 0 := by
    rw [← c₈.output_code, happ₈.code, List.length_append]
    split <;> simp [encode, Instr.operands, encodeOperands]
  have hlen' : c'.code.length = c₈.code.length := by
    rw [← c'.output_code, hout]
    exact hlen₉
  have hlen₆ := harm.length
  rw [hlen']
  refine .crashPad hblock hhandlerSmall hpush (hlen₁ ▸ hbodyCode) (fun hr => ?_) (fun hr => ?_)
    hpadCode (fun hr => ?_) (fun hr => ?_)
  · rw [if_pos hr] at hlen₃ hlen₆
    obtain ⟨hle, hp⟩ := hp hr
    have happ₃ := hbodyEnd.appends
    rw [if_pos hr] at happ₃
    have ht₂ := hbodySound.grows.tidy _ (htidy₁ ht)
    have hlog : (c₂.code.length, []) ∈ c₃.output.log := by
      have hmem := c₂.mem_log_emit .popCrash
      rw [hbodySound.boundary.params hfits₂.small] at hmem
      rw [← hc₃, if_pos hr]
      exact hmem
    exact ⟨hfits₃.instr happ₃ ht₂ hlog, hlen₃ ▸ hjump hr hle hp, by omega⟩
  · rw [if_neg (by simp [hr])] at hlen₃ hlen₆
    omega
  · rw [if_pos hr] at hlen₈ happ₈
    have hlog : (c₇.code.length, []) ∈ c₈.output.log := by
      have hmem := c₇.mem_log_emit .crash
      rw [hpadSound.boundary.params hfits₇.small] at hmem
      rw [← hc₈, if_pos hr]
      exact hmem
    exact ⟨hfits₈.instr happ₈ (hpadSound.grows.tidy _ ht₆) hlog, hlen₈⟩
  · rw [if_neg (by simp [hr])] at hlen₈
    exact hlen₈

/-- A block that is one byte of code and does not end. -/
theorem emitLast_sound {instr : Instr} (hsize : (encode instr).length = 1)
    (hcode : ∀ {I o}, InstrAt I o [] instr →
      CodeBlock env I Γ (.node i) o .unreachable (o + 1))
    (hB : Boundary env Γ c) : BlockSound env Γ (.node i) c .unreachable (c.emit instr) := by
  have hemit := Emitted.emit env c instr
  have happ := hemit.appends
  refine ⟨⟨hemit.frames hB.frames, happ.tidy hB.tidy,
    fun hsmall => hB.params_of happ.toExtends.length_le hsmall⟩, happ.toExtends, ?_⟩
  intro I holes ht hfits
  have hlen : (c.emit instr).code.length = c.code.length + 1 := by
    rw [hemit.code, List.length_append, hsize]
  have hlog := c.mem_log_emit instr
  rw [hB.params_of happ.toExtends.length_le hfits.small] at hlog
  rw [hlen]
  exact hcode (hfits.instr happ ht hlog)

end Scope

theorem compileBlock_sound (hcallee : CalleeOk env) (fuel : Nat) :
    BlockOk env (compileBlock env fuel) := by
  induction fuel with
  | zero =>
      intro Γ i c r c' _ h
      cases h
  | succ fuel ih =>
      intro Γ i c r c' hB h
      rw [compileBlock] at h
      cases hblock : env.func.blocks[i]? with
      | none =>
          rw [hblock] at h
          cases h
      | some b =>
          rw [hblock] at h
          cases b with
          | basic ops => exact compileBasic_sound hcallee hB hblock h
          | defer next cleanup => cases h
          | many cur next =>
              exact compileMany_sound (fun hB h => compileChildren_sound ih hB h) hB hblock h
          | chain cur next => cases h
          | crash =>
              cases h
              exact emitLast_sound rfl (.crash hblock) hB
          | hardCrash =>
              cases h
              exact emitLast_sound rfl (.hardCrash hblock) hB
          | crashPad body pad => exact compileCrashPad_sound ih hB hblock h
          | branch cond yes no => exact compileBranch_sound hcallee ih hB hblock h
          | loop body => exact compileLoop_sound ih hB hblock h
          | brk level => exact compileBreak_sound hB hblock h
          | var v body => exact compileVar_sound ih hB hblock h

end TreeVM
