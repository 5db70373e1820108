import TreeVM.Compile.OpSound
import TreeVM.Compile.Outline
import TreeVM.Verify.Aliases
import TreeVM.Verify.Typing

/-!
# The compiler follows the typing rules

* `kindOf_shape`: the compiler reads the table after layout, the checker may read it before;
* `compileOp_typing`, `OpTyping.compiles`: what `compile_op` accepts, and what it has to accept;
* `checkers_agree`: the two checkers accept the same operations and find the same types.
-/

namespace TreeVM

/-! ## Kinds before and after layout -/

section Kinds

variable {env : CompileEnv} {tid elem : Nat}

/-- Layout changes offsets only. -/
theorem kindOf_shape (hlaid : layoutAll env.func.types = some env.types) (tid : Nat) :
    (kindOf env tid).map TypeKind.shape = (kindAt env.func tid).map TypeKind.shape := by
  have hentries := entries_of_layoutAll hlaid
  rw [kindOf, kindAt]
  cases ht : env.func.types[tid]? with
  | none =>
      have hlen := List.getElem?_eq_none_iff.mp ht
      rw [List.getElem?_eq_none (by rw [← hentries.length_eq]; exact hlen)]
  | some t =>
      obtain ⟨u, hu, hsame⟩ := forall₂_getElem? hentries ht
      rw [hu]
      exact congrArg some hsame.shape

theorem kindOf_array (hlaid : layoutAll env.func.types = some env.types) {capacity : UInt32} :
    (∃ offset, kindOf env tid = some (.array elem capacity offset)) ↔
      ∃ offset, kindAt env.func tid = some (.array elem capacity offset) := by
  have hshape := kindOf_shape hlaid tid
  cases hk : kindOf env tid with
  | none => cases hk' : kindAt env.func tid <;> simp_all
  | some k =>
      cases hk' : kindAt env.func tid with
      | none => simp_all
      | some k' => cases k <;> cases k' <;> simp_all [TypeKind.shape]

theorem kindOf_slice (hlaid : layoutAll env.func.types = some env.types) :
    kindOf env tid = some (.slice elem) ↔ kindAt env.func tid = some (.slice elem) := by
  have hshape := kindOf_shape hlaid tid
  cases hk : kindOf env tid with
  | none => cases hk' : kindAt env.func tid <;> simp_all
  | some k =>
      cases hk' : kindAt env.func tid with
      | none => simp_all
      | some k' => cases k <;> cases k' <;> simp_all [TypeKind.shape]

theorem kindOf_native (hlaid : layoutAll env.func.types = some env.types) {sig : Sig} :
    kindOf env tid = some (.nativeFunc sig) ↔ kindAt env.func tid = some (.nativeFunc sig) := by
  have hshape := kindOf_shape hlaid tid
  cases hk : kindOf env tid with
  | none => cases hk' : kindAt env.func tid <;> simp_all
  | some k =>
      cases hk' : kindAt env.func tid with
      | none => simp_all
      | some k' => cases k <;> cases k' <;> simp_all [TypeKind.shape]

theorem refElem_shape (kind : TypeKind) : refElem kind.shape = refElem kind := by
  cases kind <;> rfl

theorem kindOf_ref (hlaid : layoutAll env.func.types = some env.types) (tid : Nat) :
    (kindOf env tid).bind refElem = (kindAt env.func tid).bind refElem := by
  have hshape := congrArg (Option.bind · refElem) (kindOf_shape hlaid tid)
  simpa only [Option.bind_map, Function.comp_def, refElem_shape] using hshape

theorem kindOf_struct (hlaid : layoutAll env.func.types = some env.types) {i r : Nat} :
    (∃ fields f, kindOf env tid = some (.struct fields) ∧ fields[i]? = some f ∧ f.tid = r) ↔
      ∃ fields f, kindAt env.func tid = some (.struct fields) ∧ fields[i]? = some f ∧ f.tid = r := by
  have hfields : ∀ k : Option TypeKind,
      (∃ fields f, k = some (.struct fields) ∧ fields[i]? = some f ∧ f.tid = r) ↔
        ∃ fields f, k.map TypeKind.shape = some (.struct fields) ∧ fields[i]? = some f ∧ f.tid = r := by
    intro k
    cases k with
    | none => simp
    | some k => cases k <;> simp [TypeKind.shape]
  rw [hfields (kindOf env tid), hfields (kindAt env.func tid), kindOf_shape hlaid]

end Kinds

/-! ## Operations -/

section Compiled

variable {env : CompileEnv} {op : Op} {c c' : Compiler} {ts ts' : List Nat}

/-- The function that `OP_CALL` names compiles, if there is one. -/
def CalleeCompiles (env : CompileEnv) (op : Op) : Prop :=
  op.kind = .call → op.extra.toNat < env.ctx.funcs.length →
    ∀ t, ∃ t', env.callee op.extra.toNat t = .ok t'

/-- The arguments of native functions can be counted in 32 bits. -/
def NativesFit (func : Func) : Prop :=
  ∀ tid sig, kindAt func tid = some (.nativeFunc sig) → sig.ins.length < 2 ^ 32

/-- The local that `OP_PUSH_VAR` names is in scope. -/
def LivePush (c : Compiler) (op : Op) : Prop :=
  op.kind = .pushVar → ∃ v, c.vars[op.extra.toNat]? = some v ∧ v.live = true

theorem argsOk_iff {func : Func} {sig : Sig} (hts : TypesIn func ts) : ArgsOk func sig ts ↔
    sig.argc ≤ ts.length ∧ Compiler.argTypes ts sig.argc = sig.args := by
  rw [ArgsOk, Compiler.argTypes]
  constructor
  · exact fun h => ⟨h.1, h.2.1⟩
  · rintro ⟨hlen, hargs⟩
    refine ⟨hlen, hargs, fun tid htid => ?_⟩
    rw [← hargs, List.mem_reverse] at htid
    exact hts tid (List.mem_of_mem_take htid)

theorem compileBinary_typing {f : Nat → Nat → Option (BinOp × Nat)}
    (hts : TypesIn env.func c.params)
    (hf : ∀ rhs lhs b tid rest, f lhs rhs = some (b, tid) → lhs < env.func.types.length →
      rhs < env.func.types.length → OpTyping env.ctx env.func op (rhs :: lhs :: rest) (tid :: rest))
    (h : compileBinary c f = .ok c') : OpTyping env.ctx env.func op c.params c'.params := by
  simp only [compileBinary, Compiler.fail] at h
  split at h
  · rename_i rhs lhs rest hparams
    rw [hparams] at hts
    split at h
    · rename_i b tid hb
      cases h
      rw [hparams]
      exact hf rhs lhs b tid rest hb (hts lhs (by simp)) (hts rhs (by simp))
    · cases h
  · cases h

theorem compileBinary_accepts {f : Nat → Nat → Option (BinOp × Nat)} {rhs lhs tid : Nat}
    (hparams : c.params = rhs :: lhs :: ts) (hf : (f lhs rhs).map Prod.snd = some tid) :
    ∃ c', compileBinary c f = .ok c' ∧ c'.params = tid :: ts := by
  obtain ⟨⟨b, r⟩, hb, rfl⟩ := Option.map_eq_some_iff.mp hf
  simp only [compileBinary, hparams, hb]
  exact ⟨_, rfl, rfl⟩

theorem intArith_typing {arith : ArithOp} {rhs lhs tid : Nat} {b : BinOp} (hop : op.kind.IsArith)
    (hf : intArith arith lhs rhs = some (b, tid)) (hlhs : lhs < env.func.types.length) :
    OpTyping env.ctx env.func op (rhs :: lhs :: ts) (tid :: ts) := by
  rw [intArith] at hf
  split at hf
  · rename_i hint
    cases hf
    obtain ⟨rfl, rfl⟩ := hint
    exact .arith hop hlhs
  · cases hf

theorem sliceMove_typing (hlaid : layoutAll env.func.types = some env.types)
    {move : UInt64 → UInt64 → BinOp} {rhs lhs tid : Nat} {b : BinOp}
    (hop : op.kind = .sliceInc ∨ op.kind = .sliceDec)
    (hf : sliceMoveTypes env move lhs rhs = some (b, tid)) (hrhs : rhs < env.func.types.length) :
    OpTyping env.ctx env.func op (rhs :: lhs :: ts) (tid :: ts) := by
  rw [sliceMoveTypes] at hf
  split at hf
  · rename_i elem hkind
    split at hf
    · rename_i hint
      cases hf
      subst hint
      exact .sliceMove hop hrhs ((kindOf_slice hlaid).mp hkind)
    · cases hf
  · cases hf

/-- The locals that are in scope have types in the table. -/
def LiveTyped (env : CompileEnv) (c : Compiler) : Prop :=
  ∀ (i : Nat) (v : VarLayout), c.vars[i]? = some v → v.live = true → v.tid < env.func.types.length

theorem typed_var (htyped : c.Typed env) {i : Nat} {v : VarLayout} (hv : c.vars[i]? = some v) :
    env.func.vars[i]? = some v.tid := by
  rw [Compiler.Typed] at htyped
  rw [← htyped, List.getElem?_map, hv]
  rfl

/-- What `compile_op` accepts follows the rules. -/
theorem compileOp_typing (hlaid : layoutAll env.func.types = some env.types)
    (hlive : LiveTyped env c) (htyped : c.Typed env) (hts : TypesIn env.func c.params)
    (h : compileOp env c op = .ok c') : OpTyping env.ctx env.func op c.params c'.params := by
  have hlength := (entries_of_layoutAll hlaid).length_eq
  rw [compileOp] at h
  cases hop : op.kind with
  | null =>
      rw [hop] at h
      cases h
      exact .null hop
  -- each case reads the tests of the compiler off its run and hands them to the rule
  | call =>
      simp only [hop, compileFuncCall, Compiler.fail] at h
      obtain ⟨t, -, h⟩ := bind_eq_ok.mp h
      split at h
      · cases h
      · rename_i callee hcallee
        obtain ⟨hlen, h⟩ := ite_error_ok.mp h
        obtain ⟨hargs, h⟩ := ite_error_ok.mp h
        obtain ⟨-, rfl⟩ := popTypes_eq_ok h
        refine .call hop hcallee ((argsOk_iff hts).mpr ⟨?_, ?_⟩)
        · exact Nat.le_of_not_lt hlen
        · exact Decidable.not_not.mp hargs
  -- the pointer to the native function lies above its arguments
  | callNativeOnStack =>
      simp only [hop, compileNativeCall, Compiler.fail] at h
      split at h
      · cases h
      · rename_i fn rest hparams
        split at h
        · rename_i sig hkind
          obtain ⟨hlen, h⟩ := ite_error_ok.mp h
          obtain ⟨hargs, h⟩ := ite_error_ok.mp h
          obtain ⟨-, h⟩ := ite_error_ok.mp h
          obtain ⟨-, rfl⟩ := popTypes_eq_ok h
          rw [hparams] at hts
          have hrule : OpTyping env.ctx env.func op (fn :: rest) (rest.drop sig.ins.length) := by
            refine .callNative hop ((kindOf_native hlaid).mp hkind) ((argsOk_iff hts.tail).mpr ⟨?_, ?_⟩)
            · exact Nat.le_of_not_lt hlen
            · exact Decidable.not_not.mp hargs
          simpa only [Compiler.emit, hparams, List.drop_succ_cons] using hrule
        · cases h
  | drop =>
      simp only [hop, compileDrop] at h
      obtain ⟨popped, hpop, h⟩ := bind_eq_ok.mp h
      obtain ⟨hlen, rfl⟩ := popTypes_eq_ok hpop
      cases h
      exact .drop hop hlen
  | pushVar =>
      simp only [hop, emitPushVar, Compiler.fail] at h
      split at h
      · rename_i v hv
        split at h
        · rename_i hlivev
          cases h
          exact .pushLocal (.inl hop) (typed_var htyped hv) (hlive _ v hv hlivev)
        · cases h
      · cases h
  | pushArg =>
      simp only [hop, emitPushArg, Compiler.fail] at h
      split at h
      · rename_i tid hvar
        split at h
        · rename_i htid
          cases h
          exact .pushLocal (.inr hop) hvar (hlength ▸ htid)
        · cases h
      · cases h
  | pushGlobal =>
      simp only [hop, compilePushGlobal, Compiler.fail] at h
      split at h
      · rename_i g hg
        split at h
        · rename_i htid
          cases h
          exact .pushGlobal hop hg (hlength ▸ htid)
        · cases h
      · cases h
  | bitNotAssign =>
      simp only [hop, compileBitNot, Compiler.fail] at h
      split at h
      · rename_i tid rest hparams
        split at h
        · rename_i hint
          cases h
          subst hint
          have hrule : OpTyping env.ctx env.func op (intId :: rest) (intId :: rest) :=
            .bitNot hop (hts _ (by rw [hparams]; exact List.mem_cons_self))
          simpa only [Compiler.emit, hparams] using hrule
        · cases h
      · cases h
  | structAt =>
      simp only [hop, compileStructAt, Compiler.fail] at h
      split at h
      · cases h
      · rename_i tid rest hparams
        split at h
        · rename_i fields hkind
          split at h
          · rename_i f hf
            split at h
            · cases h
              obtain ⟨fields', f', hkind', hf', heq⟩ :=
                (kindOf_struct hlaid).mp ⟨fields, f, hkind, hf, rfl⟩
              rw [hparams]
              exact heq ▸ .structAt hop hkind' hf'
            · cases h
          · cases h
        · cases h
  -- binary operations: two operands are popped, then the test on their types decides
  | assign =>
      rw [hop] at h
      refine compileBinary_typing hts (fun rhs lhs b tid rest hf hlhs _ => ?_) h
      rw [assignTypes] at hf
      split at hf
      · rename_i heq
        cases hf
        exact heq ▸ .assign hop hlhs
      · cases hf
  | arrPush =>
      rw [hop] at h
      refine compileBinary_typing hts (fun rhs lhs b tid rest hf _ _ => ?_) h
      rw [arrPushTypes] at hf
      split at hf
      · rename_i elem capacity offset hkind
        split at hf
        · rename_i heq
          cases hf
          obtain ⟨offset', hkind'⟩ := (kindOf_array hlaid).mp ⟨offset, hkind⟩
          exact heq ▸ .arrPush hop hkind'
        · cases hf
      · cases hf
  | arrDrop =>
      rw [hop] at h
      refine compileBinary_typing hts (fun rhs lhs b tid rest hf _ hrhs => ?_) h
      rw [arrDropTypes] at hf
      split at hf
      · rename_i elem capacity offset hkind
        split at hf
        · rename_i hint
          cases hf
          subst hint
          obtain ⟨offset', hkind'⟩ := (kindOf_array hlaid).mp ⟨offset, hkind⟩
          exact .arrDrop hop hrhs hkind'
        · cases hf
      · cases hf
  | arrAt =>
      rw [hop] at h
      refine compileBinary_typing hts (fun rhs lhs b tid rest hf _ hrhs => ?_) h
      rw [arrAtTypes] at hf
      split at hf
      · rename_i elem capacity offset hkind
        split at hf
        · rename_i hint
          cases hf
          subst hint
          obtain ⟨offset', hkind'⟩ := (kindOf_array hlaid).mp ⟨offset, hkind⟩
          exact .arrAt hop hrhs hkind'
        · cases hf
      · cases hf
  | sliceFromAr =>
      rw [hop] at h
      refine compileBinary_typing hts (fun rhs lhs b tid rest hf _ _ => ?_) h
      rw [sliceFromArrTypes] at hf
      split at hf
      · rename_i elem capacity offset refTid hkind href
        split at hf
        · rename_i heq
          cases hf
          subst heq
          obtain ⟨offset', hkind'⟩ := (kindOf_array hlaid).mp ⟨offset, hkind⟩
          exact .sliceFromAr hop (kindOf_ref hlaid _ ▸ href) hkind'
        · cases hf
      · cases hf
  | sliceFromOne =>
      rw [hop] at h
      refine compileBinary_typing hts (fun rhs lhs b tid rest hf _ _ => ?_) h
      rw [sliceFromOneTypes] at hf
      split at hf
      · rename_i elem hkind
        split at hf
        · rename_i heq
          cases hf
          subst heq
          exact .sliceFromOne hop ((kindOf_slice hlaid).mp hkind)
        · cases hf
      · cases hf
  | sliceAt =>
      rw [hop] at h
      refine compileBinary_typing hts (fun rhs lhs b tid rest hf _ hrhs => ?_) h
      rw [sliceAtTypes] at hf
      split at hf
      · rename_i elem helem
        split at hf
        · rename_i hint
          cases hf
          subst hint
          exact .sliceAt hop hrhs (kindOf_ref hlaid _ ▸ helem)
        · cases hf
      · cases hf
  | sliceInc =>
      rw [hop] at h
      exact compileBinary_typing hts
        (fun _ _ _ _ _ hf _ hrhs => sliceMove_typing hlaid (.inl hop) hf hrhs) h
  | sliceDec =>
      rw [hop] at h
      exact compileBinary_typing hts
        (fun _ _ _ _ _ hf _ hrhs => sliceMove_typing hlaid (.inr hop) hf hrhs) h
  -- the arithmetic operations share the one test on integers
  | addAssign | subAssign | mulAssign | divAssign | andAssign | orAssign | xorAssign =>
      rw [hop] at h
      have harith : op.kind.IsArith := hop ▸ trivial
      exact compileBinary_typing hts
        (fun _ _ _ _ _ hf hlhs _ => intArith_typing harith hf hlhs) h

theorem popTypes_accepts {n : Nat} (h : n ≤ c.params.length) :
    ∃ c', c.popTypes n = .ok c' ∧ c'.params = c.params.drop n := by
  rw [Compiler.popTypes, if_neg (Nat.not_lt.mpr h)]
  exact ⟨_, rfl, rfl⟩

theorem compileFuncCall_accepts {idx : Nat} {callee : Func} {t : Table}
    (ht : env.callee idx c.table = .ok t) (hcallee : env.ctx.funcs[idx]? = some callee)
    (hlen : callee.sig.argc ≤ c.params.length)
    (hargs : Compiler.argTypes c.params callee.sig.argc = callee.sig.args) :
    ∃ c', compileFuncCall env c idx = .ok c' ∧ c'.params = c.params.drop callee.sig.ins.length := by
  rw [Sig.argc] at hlen hargs
  let argc := callee.sig.outs.length + callee.sig.ins.length
  obtain ⟨c', hpop, hdrop⟩ := popTypes_accepts (n := callee.sig.ins.length)
    (c := ({ c with table := t } : Compiler).emit (.call (env.place idx) (UInt32.ofNat argc)))
    (Nat.le_trans (Nat.le_add_left _ _) hlen)
  refine ⟨c', bind_eq_ok.mpr ⟨t, ht, ?_⟩, hdrop⟩
  simp only [hcallee]
  rw [if_neg (Nat.not_lt.mpr hlen), if_neg (not_not.mpr hargs)]
  exact hpop

theorem compileNativeCall_accepts {fn : Nat} {sig : Sig} (hparams : c.params = fn :: ts)
    (hkind : kindOf env fn = some (.nativeFunc sig)) (hlen : sig.argc ≤ ts.length)
    (hargs : Compiler.argTypes ts sig.argc = sig.args) (hfit : sig.ins.length < 2 ^ 32) :
    ∃ c', compileNativeCall env c = .ok c' ∧ c'.params = ts.drop sig.ins.length := by
  rw [Sig.argc] at hlen hargs
  have hroom : sig.ins.length + 1 ≤ c.params.length := by
    rw [hparams, List.length_cons]
    omega
  obtain ⟨c', hpop, hdrop⟩ := popTypes_accepts (n := sig.ins.length + 1)
    (c := c.emit (.callNative (UInt32.ofNat sig.ins.length))) hroom
  refine ⟨c', ?_, hdrop.trans (by simp only [Compiler.emit, hparams, List.drop_succ_cons])⟩
  simp only [compileNativeCall, hparams, hkind]
  rw [if_neg (Nat.not_lt.mpr hlen), if_neg (not_not.mpr hargs), if_neg (Nat.not_le.mpr hfit)]
  exact hpop

/-- What follows the rules is accepted, if the locals are in scope and the callees compile. -/
theorem OpTyping.compiles (h : OpTyping env.ctx env.func op c.params ts')
    (hlaid : layoutAll env.func.types = some env.types) (hcallee : CalleeCompiles env op)
    (hnatives : NativesFit env.func) (hlive : LivePush c op) (htyped : c.Typed env)
    (hts : TypesIn env.func c.params) : ∃ c', compileOp env c op = .ok c' ∧ c'.params = ts' := by
  have hlength := (entries_of_layoutAll hlaid).length_eq
  rw [compileOp]
  generalize hparams : c.params = ts at h hts
  have hrule := h
  cases h with
  | null hop =>
      rw [hop]
      exact ⟨c, rfl, hparams⟩
  | pushLocal hop hvar htid =>
      rcases hop with hop | hop
      · obtain ⟨v, hv, hvlive⟩ := hlive hop
        rw [typed_var htyped hv] at hvar
        cases hvar
        simp only [hop, emitPushVar, hv, hvlive, if_true]
        exact ⟨_, rfl, by simp only [Compiler.pushType, Compiler.emit, hparams]⟩
      · rw [hlength] at htid
        simp only [hop, emitPushArg, hvar, if_pos htid]
        exact ⟨_, rfl, by simp only [Compiler.pushType, Compiler.emit, hparams]⟩
  | pushGlobal hop hg htid =>
      rw [hlength] at htid
      simp only [hop, compilePushGlobal, hg, if_pos htid]
      exact ⟨_, rfl, by simp only [Compiler.pushType, Compiler.emit, hparams]⟩
  | drop hop hlen =>
      obtain ⟨popped, hpop, hdrop⟩ := popTypes_accepts (hparams ▸ hlen)
      simp only [hop, compileDrop, hpop]
      exact ⟨_, rfl, hparams ▸ hdrop⟩
  | assign hop _ =>
      rw [hop]
      exact compileBinary_accepts hparams (by simp only [assignTypes, if_true, Option.map_some])
  | arith hop _ =>
      cases hkind : op.kind <;> rw [hkind] at hop <;> cases hop <;>
        exact compileBinary_accepts hparams (by simp only [intArith, and_self, if_true, Option.map_some])
  | bitNot hop _ =>
      simp only [hop, compileBitNot, hparams, if_true]
      exact ⟨_, rfl, hparams⟩
  | arrPush hop hkind =>
      obtain ⟨offset, hkind⟩ := (kindOf_array hlaid).mpr ⟨_, hkind⟩
      rw [hop]
      exact compileBinary_accepts hparams (by simp only [arrPushTypes, hkind, if_true, Option.map_some])
  | arrDrop hop _ hkind =>
      obtain ⟨offset, hkind⟩ := (kindOf_array hlaid).mpr ⟨_, hkind⟩
      rw [hop]
      exact compileBinary_accepts hparams (by simp only [arrDropTypes, hkind, if_true, Option.map_some])
  | sliceFromAr hop href hkind =>
      obtain ⟨offset, hkind⟩ := (kindOf_array hlaid).mpr ⟨_, hkind⟩
      rw [← kindOf_ref hlaid] at href
      rw [hop]
      exact compileBinary_accepts hparams (by simp only [sliceFromArrTypes, hkind, href, if_true, Option.map_some])
  | sliceFromOne hop hkind =>
      rw [hop]
      refine compileBinary_accepts hparams ?_
      simp only [sliceFromOneTypes, (kindOf_slice hlaid).mpr hkind, if_true, Option.map_some]
  | sliceMove hop _ hkind =>
      rcases hop with hop | hop <;>
      · rw [hop]
        refine compileBinary_accepts hparams ?_
        simp only [sliceMoveTypes, (kindOf_slice hlaid).mpr hkind, if_true, Option.map_some]
  | arrAt hop _ hkind =>
      obtain ⟨offset, hkind⟩ := (kindOf_array hlaid).mpr ⟨_, hkind⟩
      rw [hop]
      exact compileBinary_accepts hparams (by simp only [arrAtTypes, hkind, if_true, Option.map_some])
  | sliceAt hop _ helem =>
      rw [← kindOf_ref hlaid] at helem
      rw [hop]
      exact compileBinary_accepts hparams (by simp only [sliceAtTypes, helem, if_true, Option.map_some])
  | structAt hop hkind hf =>
      obtain ⟨fields, f, hkind, hf, heq⟩ := (kindOf_struct hlaid).mpr ⟨_, _, hkind, hf, rfl⟩
      have hlt : f.tid < env.types.length :=
        hlength ▸ heq ▸ hrule.typesIn (wellFormed_of_layoutAll hlaid) hts _ List.mem_cons_self
      simp only [hop, compileStructAt, hparams, hkind, hf, if_pos hlt]
      exact ⟨_, rfl, by rw [heq]⟩
  | @call _ callee hop hfound hargs =>
      obtain ⟨t, ht⟩ := hcallee hop (List.getElem?_eq_some_iff.mp hfound).1 c.table
      obtain ⟨hlen, hargs⟩ := (argsOk_iff hts).mp hargs
      rw [hop, ← hparams]
      exact compileFuncCall_accepts ht hfound (hparams ▸ hlen) (hparams ▸ hargs)
  | callNative hop hkind hargs =>
      obtain ⟨hlen, hargs⟩ := (argsOk_iff hts.tail).mp hargs
      rw [hop]
      exact compileNativeCall_accepts hparams ((kindOf_native hlaid).mpr hkind) hlen hargs
        (hnatives _ _ hkind)

theorem SameFrame.liveTyped (h : SameFrame c c') (hlive : LiveTyped env c) : LiveTyped env c' := by
  rw [LiveTyped, h.vars]
  exact hlive

theorem SameFrame.typed (h : SameFrame c c') (htyped : c.Typed env) : c'.Typed env := by
  rw [Compiler.Typed, h.vars]
  exact htyped

theorem compileOps_typing {ops : List Op} (hlaid : layoutAll env.func.types = some env.types)
    (hlive : LiveTyped env c) (htyped : c.Typed env) (hts : TypesIn env.func c.params)
    (h : compileOps env ops c = .ok c') : OpsTyping env.ctx env.func ops c.params c'.params := by
  induction ops generalizing c with
  | nil =>
      cases h
      exact .nil
  | cons op ops ih =>
      obtain ⟨c₁, hop, h⟩ := bind_eq_ok.mp h
      have hsame := (compileOp_issues hop).same
      have hrule := compileOp_typing hlaid hlive htyped hts hop
      have hts₁ := hrule.typesIn (wellFormed_of_layoutAll hlaid) hts
      exact .cons hrule (ih (hsame.liveTyped hlive) (hsame.typed htyped) hts₁ h)

theorem OpsTyping.compiles {ops : List Op} (h : OpsTyping env.ctx env.func ops c.params ts')
    (hlaid : layoutAll env.func.types = some env.types) (hcallees : ∀ op ∈ ops, CalleeCompiles env op)
    (hnatives : NativesFit env.func) (hlive : ∀ op ∈ ops, LivePush c op) (htyped : c.Typed env)
    (hts : TypesIn env.func c.params) : ∃ c', compileOps env ops c = .ok c' ∧ c'.params = ts' := by
  induction ops generalizing c with
  | nil =>
      cases h
      exact ⟨c, rfl, rfl⟩
  | cons op ops ih =>
      cases h with
      | cons hrule hrest =>
          obtain ⟨c₁, hop, rfl⟩ := hrule.compiles hlaid
            (hcallees op List.mem_cons_self) hnatives (hlive op List.mem_cons_self) htyped hts
          have hsame := (compileOp_issues hop).same
          have hlive₁ : ∀ op ∈ ops, LivePush c₁ op := by
            intro op' hop'
            rw [LivePush, hsame.vars]
            exact hlive op' (List.mem_cons_of_mem _ hop')
          obtain ⟨c', hc', hparams⟩ := ih hrest
            (fun op' hop' => hcallees op' (List.mem_cons_of_mem _ hop')) hlive₁ (hsame.typed htyped)
            (hrule.typesIn (wellFormed_of_layoutAll hlaid) hts)
          exact ⟨c', bind_eq_ok.mpr ⟨c₁, hop, hc'⟩, hparams⟩

end Compiled

/-! ## Both checkers -/

/-- From equal stacks, `type_check_op` with `scan_ops` and `compile_op` accept the same lists of
operations, and the types of the places are those that the compiler has recorded. -/
theorem checkers_agree {env : CompileEnv} {ops : List Op} {c : Compiler} {d : Checker} {E : Holds}
    {ps : List Lval} (hlaid : layoutAll env.func.types = some env.types)
    (hcallees : ∀ op ∈ ops, CalleeCompiles env op) (hnatives : NativesFit env.func) (htyped : c.Typed env)
    (hlivetyped : LiveTyped env c) (hlive : ∀ op ∈ ops, LivePush c op) (hrep : Rep d E)
    (hs : d.Stack ps) (hsame : d.types env.ctx env.func = c.params)
    (hts : TypesIn env.func c.params) (current block opi : Nat) (state : ScanState) (ts : List Nat) :
    (∃ d', scanOpsFrom env.ctx (checkTypes env.ctx env.func) current env.func state block opi ops d =
        .ok d' ∧ d'.types env.ctx env.func = ts) ↔
      ∃ c', compileOps env ops c = .ok c' ∧ c'.params = ts := by
  rw [scanOpsFrom_typed hrep hs, hsame]
  constructor
  · intro hrules
    exact hrules.compiles hlaid hcallees hnatives hlive htyped hts
  · rintro ⟨c', hc', rfl⟩
    exact compileOps_typing hlaid hlivetyped htyped hts hc'

/-- The caller of `sharedBacking`, in the middle of its body -/
def sharedEnv : CompileEnv where
  func := sharedCaller
  types := sharedTypes
  ctx := sharedBacking
  place _ := 0
  callee := contextFuncCode sharedBacking (compileFunc sharedBacking (fun _ => 0) 2)

theorem sharedEnv_callees : ∀ op ∈ sharedCaller.ops, CalleeCompiles sharedEnv op := by
  have hzero : ∀ op ∈ sharedCaller.ops, op.kind = .call → op.extra.toNat = 0 := by decide
  intro op hop hkind _ t
  rw [hzero op hop hkind]
  show ∃ t', contextFuncCode sharedBacking (compileFunc sharedBacking (fun _ => 0) 2) 0 t = .ok t'
  rw [contextFuncCode]
  simp only [sharedBacking, List.getElem?_cons_zero]
  split
  · exact ⟨_, rfl⟩
  · exact ⟨_, rfl⟩

/-- The locals of `sharedCaller` are in scope. -/
def sharedLocals : Compiler where
  vars := sharedCaller.vars.map fun tid => ⟨tid, 0, true⟩
  table := []

theorem sharedCaller_natives : NativesFit sharedCaller := by
  intro tid sig hkind
  have hkinds : sharedCaller.types.map Ty.kind = [.int, .byte, .slice intId] := by rfl
  rw [kindAt, ← List.getElem?_map, hkinds] at hkind
  have hmem := List.mem_of_getElem? hkind
  simp at hmem

theorem sharedLocals_typed : LiveTyped sharedEnv sharedLocals := by
  have hall : ∀ v ∈ sharedLocals.vars, v.tid < sharedEnv.func.types.length := by decide
  exact fun _ v hv _ => hall v (List.mem_of_getElem? hv)

theorem sharedLocals_live : ∀ op ∈ sharedCaller.ops, LivePush sharedLocals op := by
  have hall : ∀ op ∈ sharedCaller.ops, op.kind = .pushVar →
      (sharedLocals.vars[op.extra.toNat]?).map VarLayout.live = some true := by decide
  exact fun op hop hkind => Option.map_eq_some_iff.mp (hall op hop hkind)

theorem checkers_agree_shared : ∃ d', scanOpsFrom sharedBacking (checkTypes sharedBacking sharedCaller)
    1 sharedCaller ⟨3, [3, 1, 2]⟩ 3 0 sharedCaller.ops {} = .ok d' ∧
      d'.types sharedBacking sharedCaller = [2] :=
  (@checkers_agree sharedEnv sharedCaller.ops sharedLocals {} (fun _ => []) [] (by decide)
    sharedEnv_callees sharedCaller_natives rfl sharedLocals_typed sharedLocals_live
    (rep_clearHolds ok_empty) .nil rfl (fun _ h => absurd h List.not_mem_nil) 1 3 0 _ [2]).mpr
    ⟨_, rfl, rfl⟩

end TreeVM
