import TreeVM.Compile.Code
import TreeVM.Memory.Holes
import TreeVM.Logic.Results

/-!
# What the compiler keeps, and the code of operations

* `Grows`: the table of callees only gains code, and only code that the compiler produced;
* `Frames`: the compiler's own account of locals, pads and scopes agrees with a context;
* `Extends`: later code is appended, only placeholders are overwritten;
* `compileOp_sound`, `compileOps_sound`: the code of operations is what `CodeOps` says.
-/

namespace TreeVM

/-! ## The table -/

/-- The function has been compiled. -/
def Table.Has (t : Table) (i : Nat) : Prop :=
  ∃ code, t[i]? = some (some code)

/-- Functions stay compiled, and each new entry is the result of a compilation whose callees are
compiled as well. -/
structure Grows (ctx : Context) (place : Nat → UInt64) (t t' : Table) : Prop where
  length : t.length ≤ t'.length
  has : ∀ i, t.Has i → t'.Has i
  entry : ∀ (i : Nat) (code : Code), t'[i]? = some (some code) → t[i]? = some (some code) ∨
    ∃ fuel f t₀ t₁, ctx.funcs[i]? = some f ∧ compileFunc ctx place fuel f t₀ = .ok (code, t₁) ∧
      ∀ j, t₁.Has j → t'.Has j

namespace Grows

variable {ctx : Context} {place : Nat → UInt64} {t t' t'' : Table}

theorem refl (t : Table) : Grows ctx place t t :=
  ⟨Nat.le_refl _, fun _ h => h, fun _ _ h => .inl h⟩

theorem trans (h : Grows ctx place t t') (h' : Grows ctx place t' t'') :
    Grows ctx place t t'' := by
  refine ⟨Nat.le_trans h.length h'.length, fun i hi => h'.has i (h.has i hi), fun i code hi => ?_⟩
  rcases h'.entry i code hi with hi | hnew
  · rcases h.entry i code hi with hi | ⟨fuel, f, t₀, t₁, hf, hcode, hcallees⟩
    · exact .inl hi
    · exact .inr ⟨fuel, f, t₀, t₁, hf, hcode, fun j hj => h'.has j (hcallees j hj)⟩
  · exact .inr hnew

end Grows

/-- A callee that was asked for is compiled afterwards. -/
def CalleeOk (env : CompileEnv) : Prop :=
  ∀ i t t', env.callee i t = .ok t' → Grows env.ctx env.place t t' ∧ t'.Has i

/-! ## Contexts and compiler states -/

/-- Frame size and number of pads behind a scope. -/
def ScopeMatches (env : CompileEnv) (s : Scope) (s' : ScopeAt) : Prop :=
  s.frameSize.toInt = frameOf env.types s'.slots ∧ s.crashDepth = s'.pads.length

/-- The compiler's account of locals, pads and scopes. -/
structure Frames (env : CompileEnv) (Γ : Ctx) (c : Compiler) : Prop where
  frame : c.frameSize.toInt = frameOf env.types Γ.slots
  slots : SlotsOk env.types Γ.slots
  depth : c.crashDepth = Γ.pads.length
  vars : c.vars.length = env.func.vars.length
  live : ∀ i v, c.vars[i]? = some v → v.live = true →
    ∃ s, Γ.slots.find? (fun s => s.var == i) = some s ∧
      v.base.toInt = (s.base : Int) ∧ v.tid = s.tid
  scopes : List.Forall₂ (ScopeMatches env) c.scopes Γ.scopes

/-- What a compilation has produced so far. -/
structure Output where
  code : Code
  log : List (Nat × List Nat)
  scopes : List Scope
  table : Table

def Compiler.output (c : Compiler) : Output :=
  ⟨c.code, c.log, c.scopes, c.table⟩

@[simp] theorem Compiler.output_code (c : Compiler) : c.output.code = c.code :=
  rfl

@[simp] theorem Compiler.output_scopes (c : Compiler) : c.output.scopes = c.scopes :=
  rfl

/-- The open placeholders of the jumps behind the scopes. -/
def Output.pending (x : Output) : List Nat :=
  x.scopes.flatMap Scope.patches

/-- Open placeholders lie in the code and do not overlap. -/
structure Tidy (holes : List Nat) (x : Output) : Prop where
  inside : ∀ p ∈ holes ++ x.pending, p + 2 ≤ x.code.length
  apart : (holes ++ x.pending).Pairwise (Apart 2)

/-- What any part of the compiler does to the output: code is appended, and new placeholders lie
in the new code. -/
structure Extends (env : CompileEnv) (x x' : Output) : Prop where
  code : x.code <+: x'.code
  scopes : List.Forall₂ (fun s s' => s.patches ⊆ s'.patches ∧
    ∀ p ∈ s'.patches, p ∈ s.patches ∨ x.code.length ≤ p) x.scopes x'.scopes
  tidy : ∀ holes, Tidy holes x → Tidy holes x'
  log : x.log ⊆ x'.log
  table : Grows env.ctx env.place x.table x'.table

/-- The image of the function, seen from the middle of the compilation: every open placeholder has
the target that its scope gets in the end. -/
structure FitsImage (env : CompileEnv) (I : Image) (scopes : List ScopeAt) (holes : List Nat)
    (x : Output) : Prop where
  agree : AtExcept 2 (holes ++ x.pending) I.code x.code
  log : ∀ e ∈ x.log, I.temps e.1 e.2
  targets : List.Forall₂ (fun (s : Scope) (s' : ScopeAt) => ∀ p ∈ s.patches, ∃ t, t ≤ 65535 ∧
    s'.target = some t ∧ At I.code p (bytesOf 2 t)) x.scopes scopes
  ready : ∀ i, x.table.Has i → I.ready i
  small : x.code.length ≤ 65535

namespace Extends

variable {env : CompileEnv} {x x' x'' : Output}

theorem refl (x : Output) : Extends env x x where
  code := List.prefix_rfl
  scopes := List.forall₂_same.mpr fun _ _ => ⟨List.Subset.refl _, fun _ hp => .inl hp⟩
  tidy _ h := h
  log := List.Subset.refl _
  table := .refl _

theorem length_le (h : Extends env x x') : x.code.length ≤ x'.code.length :=
  h.code.length_le

theorem trans (h : Extends env x x') (h' : Extends env x' x'') : Extends env x x'' where
  code := h.code.trans h'.code
  scopes := by
    refine forall₂_comp h.scopes h'.scopes ?_
    rintro s s' s'' ⟨hkept, hnew⟩ ⟨hkept', hnew'⟩
    refine ⟨List.Subset.trans hkept hkept', fun p hp => ?_⟩
    have hlen := h.length_le
    rcases hnew' p hp with hp | hp
    · exact hnew p hp
    · exact .inr (by omega)
  tidy holes ht := h'.tidy holes (h.tidy holes ht)
  log := List.Subset.trans h.log h'.log
  table := h.table.trans h'.table

/-- A placeholder of a later state was open before or lies in the new code. -/
theorem newer (h : Extends env x x') : ∀ p ∈ x'.pending, p ∈ x.pending ∨ x.code.length ≤ p := by
  have hscopes := h.scopes
  simp only [Output.pending]
  generalize x.scopes = l at hscopes ⊢
  generalize x'.scopes = l' at hscopes ⊢
  induction hscopes with
  | nil => simp
  | cons hs _ ih =>
      intro p hp
      simp only [List.flatMap_cons, List.mem_append] at hp ⊢
      rcases hp with hp | hp
      · rcases hs.2 p hp with hp | hp
        · exact .inl (.inl hp)
        · exact .inr hp
      · rcases ih p hp with hp | hp
        · exact .inl (.inr hp)
        · exact .inr hp

end Extends

/-- What the final code says about a state it also says about earlier ones. -/
theorem FitsImage.before {env : CompileEnv} {I : Image}
    {scopes : List ScopeAt} {holes : List Nat} {x x' : Output}
    (h : FitsImage env I scopes holes x') (hext : Extends env x x') :
    FitsImage env I scopes holes x where
  agree := by
    obtain ⟨bs, hbs⟩ := hext.code
    have hagree := h.agree
    rw [← hbs] at hagree
    refine hagree.of_append.mono fun p hp => ?_
    rcases List.mem_append.mp hp with hp | hp
    · exact .inl (List.mem_append_left _ hp)
    · rcases hext.newer p hp with hp | hp
      · exact .inl (List.mem_append_right _ hp)
      · exact .inr hp
  log e he := h.log e (hext.log he)
  targets := forall₂_comp hext.scopes h.targets fun _ _ _ hs ht p hp => ht p (hs.1 hp)
  ready i hi := h.ready i (hext.table.has i hi)
  small := Nat.le_trans hext.length_le h.small

/-! ## Emitting code -/

/-- Code was appended; no scope was touched. -/
structure Appends (env : CompileEnv) (x : Output) (bs : List UInt8) (x' : Output) : Prop where
  code : x'.code = x.code ++ bs
  scopes : x'.scopes = x.scopes
  log : x.log ⊆ x'.log
  table : Grows env.ctx env.place x.table x'.table

namespace Appends

variable {env : CompileEnv} {x x' : Output} {bs : List UInt8}

theorem pending (h : Appends env x bs x') : x'.pending = x.pending := by
  rw [Output.pending, h.scopes, Output.pending]

theorem tidy (h : Appends env x bs x') {holes : List Nat} (ht : Tidy holes x) : Tidy holes x' where
  inside p hp := by
    rw [h.pending] at hp
    have hlen := ht.inside p hp
    rw [h.code, List.length_append]
    omega
  apart := by
    rw [h.pending]
    exact ht.apart

theorem toExtends (h : Appends env x bs x') : Extends env x x' where
  code := ⟨bs, h.code.symm⟩
  scopes := by
    rw [h.scopes]
    exact List.forall₂_same.mpr fun _ _ => ⟨List.Subset.refl _, fun _ hp => .inl hp⟩
  tidy _ ht := h.tidy ht
  log := h.log
  table := h.table

end Appends

/-- The state after code was appended: only the output and the temporaries differ. -/
structure Emitted (env : CompileEnv) (c : Compiler) (bs : List UInt8) (c' : Compiler) : Prop where
  state : c' =
    { c with code := c.code ++ bs, log := c'.log, params := c'.params, table := c'.table }
  log : c.log ⊆ c'.log
  table : Grows env.ctx env.place c.table c'.table

namespace Emitted

variable {env : CompileEnv} {c c' c'' : Compiler} {bs bs' : List UInt8}

theorem appends (h : Emitted env c bs c') : Appends env c.output bs c'.output := by
  refine ⟨?_, ?_, h.log, h.table⟩ <;>
  · rw [h.state]
    rfl

theorem code (h : Emitted env c bs c') : c'.code = c.code ++ bs :=
  h.appends.code

theorem trans (h : Emitted env c bs c') (h' : Emitted env c' bs' c'') :
    Emitted env c (bs ++ bs') c'' where
  state := by
    rw [h'.state, h.state]
    simp
  log := List.Subset.trans h.log h'.log
  table := h.table.trans h'.table

theorem emit (env : CompileEnv) (c : Compiler) (i : Instr) : Emitted env c (encode i) (c.emit i) :=
  ⟨rfl, List.subset_append_left _ _, .refl _⟩

theorem frames (h : Emitted env c bs c') {Γ : Ctx} (hF : Frames env Γ c) : Frames env Γ c' := by
  rw [h.state]
  exact ⟨hF.frame, hF.slots, hF.depth, hF.vars, hF.live, hF.scopes⟩

end Emitted

/-- What the ghost record says about an emitted instruction. -/
theorem Compiler.mem_log_emit (c : Compiler) (i : Instr) :
    (c.code.length, c.params) ∈ (c.emit i).output.log := by
  simp [Compiler.emit, Compiler.output]

/-- An instruction that was emitted stands in the final code. -/
theorem FitsImage.instr {env : CompileEnv} {I : Image}
    {scopes : List ScopeAt} {holes ps : List Nat} {x x' : Output} {i : Instr}
    (h : FitsImage env I scopes holes x') (happ : Appends env x (encode i) x')
    (ht : Tidy holes x) (hlog : (x.code.length, ps) ∈ x'.log) :
    InstrAt I x.code.length ps i := by
  have hagree := h.agree
  rw [happ.pending, happ.code] at hagree
  exact ⟨hagree.emitted fun p hp => .inl (ht.inside p hp), h.log _ hlog⟩

theorem encode_pos (i : Instr) : 0 < (encode i).length := by
  simp [encode]

/-! ## Operations -/

section Ops

variable {env : CompileEnv} {Γ : Ctx} {op : Op} {c c' : Compiler}

/-- The code of an operation and its effect on the temporaries. -/
structure OpSound (env : CompileEnv) (Γ : Ctx) (op : Op) (c : Compiler) (i : Option Instr)
    (c' : Compiler) : Prop where
  emitted : Emitted env c (i.elim [] encode) c'
  log : i.isSome → (c.code.length, c.params) ∈ c'.output.log
  instr : ∀ I : Image, (∀ j, c'.table.Has j → I.ready j) → c.params.length < 2 ^ 32 →
    OpInstr env I Γ.slots op c.params i c'.params

/-- An operation that emits one instruction. -/
theorem OpSound.emit {t : Table} {i : Instr} {ps : List Nat}
    (ht : Grows env.ctx env.place c.table t)
    (hc' : c' = { ({ c with table := t } : Compiler).emit i with params := ps })
    (hinstr : ∀ I : Image, (∀ j, t.Has j → I.ready j) → c.params.length < 2 ^ 32 →
      OpInstr env I Γ.slots op c.params (some i) ps) : OpSound env Γ op c (some i) c' := by
  subst hc'
  exact ⟨⟨rfl, List.subset_append_left _ _, ht⟩, fun _ => c.mem_log_emit i, hinstr⟩

theorem opsIn_mem {τ : Type} {env : CompileEnv τ} {r : OpRange} {ops : List Op} (h : opsIn env r = some ops) {op : Op}
    (hop : op ∈ ops) : op ∈ env.func.ops := by
  rw [opsIn] at h
  split at h
  · cases h
    exact List.mem_of_mem_drop (List.mem_of_mem_take hop)
  · cases h

theorem popTypes_eq_ok {n : Nat} (h : c.popTypes n = .ok c') :
    n ≤ c.params.length ∧ c' = { c with params := c.params.drop n } := by
  simp only [Compiler.popTypes, Compiler.fail] at h
  split at h
  · cases h
  · cases h
    exact ⟨by omega, rfl⟩

theorem compileBinary_sound {f : Nat → Nat → Option (BinOp × Nat)}
    (hf : binaryTypes env op.kind = some f) (h : compileBinary c f = .ok c') :
    ∃ i, OpSound env Γ op c i c' := by
  simp only [compileBinary, Compiler.fail] at h
  split at h
  · rename_i rhs lhs rest hparams
    split at h
    · rename_i b tid hb
      cases h
      refine ⟨some (.binary b), .emit (.refl _) rfl fun I _ _ => ?_⟩
      rw [hparams]
      exact .binary hf hb
    · cases h
  · cases h

theorem compileFuncCall_sound (hcallee : CalleeOk env) {x : UInt16}
    (h : compileFuncCall env c x.toNat = .ok c') : ∃ i, OpSound env Γ ⟨.call, x⟩ c i c' := by
  obtain ⟨t, ht, h⟩ := bind_eq_ok.mp h
  obtain ⟨hgrows, hhas⟩ := hcallee _ _ _ ht
  split at h
  · cases h
  · rename_i f hfunc
    simp only [Compiler.fail] at h
    split at h
    · cases h
    · split at h
      · cases h
      · rename_i hlen htypes
        obtain ⟨-, rfl⟩ := popTypes_eq_ok h
        refine ⟨some (.call (env.place x.toNat) (UInt32.ofNat f.sig.argc)), .emit hgrows rfl ?_⟩
        intro I hready hsmall
        have hargc : f.sig.argc ≤ c.params.length := by
          simpa [Sig.argc] using hlen
        exact .call (hready _ hhas) hfunc (by omega) hargc (by simpa [Sig.argc] using htypes)

theorem compileNativeCall_sound {x : UInt16} (h : compileNativeCall env c = .ok c') :
    ∃ i, OpSound env Γ ⟨.callNativeOnStack, x⟩ c i c' := by
  simp only [compileNativeCall, Compiler.fail] at h
  split at h
  · cases h
  · rename_i fn rest hparams
    split at h
    · rename_i sig hsig
      split at h
      · cases h
      · split at h
        · cases h
        · split at h
          · cases h
          · rename_i hlen htypes hins
            obtain ⟨-, rfl⟩ := popTypes_eq_ok h
            refine ⟨some (.callNative (UInt32.ofNat sig.ins.length)), .emit (.refl _) rfl ?_⟩
            intro I _ _
            have hargc : sig.argc ≤ rest.length := by
              simpa [Sig.argc] using hlen
            have hdrop : (rest.drop sig.ins.length) =
                (fn :: rest).drop (sig.ins.length + 1) := rfl
            simp only [Compiler.emit, hparams]
            rw [← hdrop]
            exact .native hsig (by omega) hargc (by simpa [Sig.argc] using htypes)
    · cases h

theorem compilePushVar_sound (hF : Frames env Γ c) {x : UInt16}
    (h : emitPushVar c x.toNat = .ok c') : ∃ i, OpSound env Γ ⟨.pushVar, x⟩ c i c' := by
  simp only [emitPushVar, Compiler.fail] at h
  split at h
  · rename_i v hv
    split at h
    · rename_i hlive
      cases h
      obtain ⟨s, hs, hbase, htid⟩ := hF.live _ _ hv hlive
      refine ⟨some (.pushVar (v.base - c.frameSize)), .emit (.refl _) rfl fun I _ _ => ?_⟩
      rw [htid]
      refine .pushVar hs ?_
      have hlow := v.base.toInt_lt
      have hhigh := c.frameSize.toInt_lt
      have hframe := hF.frame
      rw [Int16.toInt_sub, hbase, hF.frame, Int.bmod_eq_of_le] <;> omega
    · cases h
  · cases h

theorem compilePushArg_sound {x : UInt16} (h : emitPushArg env c x.toNat = .ok c') :
    ∃ i, OpSound env Γ ⟨.pushArg, x⟩ c i c' := by
  simp only [emitPushArg, Compiler.fail] at h
  split at h
  · rename_i tid hvar
    split at h
    · rename_i htid
      cases h
      exact ⟨some _, .emit (.refl _) rfl fun I _ _ => .pushArg hvar htid⟩
    · cases h
  · cases h

theorem compilePushGlobal_sound {x : UInt16} (h : compilePushGlobal env c x.toNat = .ok c') :
    ∃ i, OpSound env Γ ⟨.pushGlobal, x⟩ c i c' := by
  simp only [compilePushGlobal, Compiler.fail] at h
  split at h
  · rename_i g hglobal
    split at h
    · rename_i htid
      cases h
      exact ⟨some _, .emit (.refl _) rfl fun I _ _ => .pushGlobal hglobal htid⟩
    · cases h
  · cases h

theorem compileStructAt_sound {x : UInt16} (h : compileStructAt env c x.toNat = .ok c') :
    ∃ i, OpSound env Γ ⟨.structAt, x⟩ c i c' := by
  simp only [compileStructAt, Compiler.fail] at h
  split at h
  · cases h
  · rename_i tid rest hparams
    split at h
    · rename_i fields hkind
      split at h
      · rename_i f hfield
        split at h
        · rename_i htid
          cases h
          refine ⟨some _, .emit (.refl _) rfl fun I _ _ => ?_⟩
          rw [hparams]
          exact .structAt hkind hfield htid
        · cases h
      · cases h
    · cases h

theorem compileBitNot_sound {x : UInt16} (h : compileBitNot c = .ok c') :
    ∃ i, OpSound env Γ ⟨.bitNotAssign, x⟩ c i c' := by
  simp only [compileBitNot, Compiler.fail] at h
  split at h
  · rename_i tid rest hparams
    split at h
    · rename_i htid
      cases h
      refine ⟨some _, .emit (.refl _) rfl fun I _ _ => ?_⟩
      rw [hparams, htid]
      exact .bitNot
    · cases h
  · cases h

theorem compileDrop_sound {x : UInt16} (h : compileDrop c x = .ok c') :
    ∃ i, OpSound env Γ ⟨.drop, x⟩ c i c' := by
  obtain ⟨c₁, hpop, h⟩ := bind_eq_ok.mp h
  obtain ⟨hlen, rfl⟩ := popTypes_eq_ok hpop
  cases h
  exact ⟨some _, .emit (.refl _) rfl fun I _ _ => .drop hlen⟩

theorem compileOp_sound (hcallee : CalleeOk env) (hF : Frames env Γ c)
    (h : compileOp env c op = .ok c') : ∃ i, OpSound env Γ op c i c' := by
  obtain ⟨kind, x⟩ := op
  cases kind with
  | null =>
      cases h
      exact ⟨none, ⟨by simp, List.Subset.refl _, .refl _⟩, by simp, fun _ _ _ => .null⟩
  | call => exact compileFuncCall_sound hcallee h
  | callNativeOnStack => exact compileNativeCall_sound h
  | bitNotAssign => exact compileBitNot_sound h
  | drop => exact compileDrop_sound h
  | pushVar => exact compilePushVar_sound hF h
  | pushArg => exact compilePushArg_sound h
  | pushGlobal => exact compilePushGlobal_sound h
  | structAt => exact compileStructAt_sound h
  | _ => exact compileBinary_sound rfl h

/-- An operation pushes at most one entry, and only with an instruction. -/
theorem OpInstr.length_le {I : Image} {slots : List Slot} {ps ps' : List Nat}
    {i : Option Instr} (h : OpInstr env I slots op ps i ps') :
    ps'.length ≤ ps.length + (i.elim [] encode).length := by
  cases h with
  | pushVar => exact Nat.add_le_add_left (encode_pos _) _
  | pushArg => exact Nat.add_le_add_left (encode_pos _) _
  | pushGlobal => exact Nat.add_le_add_left (encode_pos _) _
  | _ => simp <;> omega

/-- The code of a list of operations. -/
structure OpsSound (env : CompileEnv) (Γ : Ctx) (ops : List Op) (c c' : Compiler) : Prop where
  emitted : ∃ bs, Emitted env c bs c'
  length_le : c'.code.length ≤ 65535 → c.params.length ≤ c.code.length →
    c'.params.length ≤ c'.code.length
  code : ∀ {I holes}, c.params.length ≤ c.code.length → Tidy holes c.output →
    FitsImage env I Γ.scopes holes c'.output →
    CodeOps env I Γ.slots ops c.code.length c.params c'.code.length c'.params

theorem compileOps_sound (hcallee : CalleeOk env) {ops : List Op} (hF : Frames env Γ c)
    (h : compileOps env ops c = .ok c') : OpsSound env Γ ops c c' := by
  induction ops generalizing c with
  | nil =>
      cases h
      exact ⟨⟨[], by simp, List.Subset.refl _, .refl _⟩, fun _ hlen => hlen, fun _ _ _ => .nil⟩
  | cons op ops ih =>
      obtain ⟨c₁, hop, hrest⟩ := bind_eq_ok.mp h
      obtain ⟨i, hsound⟩ := compileOp_sound hcallee hF hop
      have hemit := hsound.emitted
      have hrest := ih (hemit.frames hF) hrest
      obtain ⟨bs, hemit'⟩ := hrest.emitted
      have hcode₁ := hemit.code
      have hle₁ : c'.code.length ≤ 65535 → c.params.length ≤ c.code.length →
          c.params.length < 2 ^ 32 ∧ c₁.params.length ≤ c₁.code.length := by
        intro hsmall hlen
        have hle := (hemit.appends.toExtends.trans hemit'.appends.toExtends).length_le
        simp only [Compiler.output] at hle
        have hparams : c.params.length < 2 ^ 32 := by omega
        have hgrow := (hsound.instr ⟨fun _ => 0, fun _ _ => True, c₁.table.Has⟩ (fun _ hj => hj)
          hparams).length_le
        rw [hcode₁, List.length_append]
        exact ⟨hparams, by omega⟩
      refine ⟨⟨_, hemit.trans hemit'⟩, fun hsmall hlen => ?_, fun {I holes} hlen ht hfits => ?_⟩
      · exact hrest.length_le hsmall (hle₁ hsmall hlen).2
      · obtain ⟨hparams, hlen₁⟩ := hle₁ hfits.small hlen
        have hfits₁ := hfits.before hemit'.appends.toExtends
        have hinstr := hsound.instr I hfits₁.ready hparams
        have hcode := hrest.code hlen₁ (hemit.appends.tidy ht) hfits
        cases i with
        | none =>
            simp only [Option.elim_none, List.append_nil] at hcode₁
            rw [hcode₁] at hcode
            exact .skip hinstr hcode
        | some i =>
            have hoff : c₁.code.length = c.code.length + i.size := by
              simp [hcode₁, Instr.size]
            rw [hoff] at hcode
            exact .emit hinstr (hfits₁.instr hemit.appends ht (hsound.log rfl)) hcode

end Ops

end TreeVM
