import TreeVM.Run.Activation

/-!
# What one round does

A round of the machine, seen from the activation whose code it runs.

* `Move`: the ways a case of the switch can end at a known point of compiled code;
* `move_of_stateAt`: there are no others.
-/

namespace TreeVM

/-- The results that `vm_run` keeps for corrupted stacks and code. -/
def VmResult.Internal : VmResult → Prop
  | .paramUnderflow => True
  | .storageUnderflow => True
  | .crashUnderflow => True
  | .badCrashFrame => True
  | .invalidStorageOffset => True
  | .invalidArg => True
  | .invalidBytecode => True
  | _ => False

/-- The instruction leaves calls and pads alone. -/
def Instr.Quiet : Instr → Prop
  | .call _ _ => False
  | .ret => False
  | .pushCrash _ => False
  | .popCrash => False
  | _ => True

/-- The native function on top of the parameter stack returns `r`. -/
def NativeReturns (env : Env) (s : State) (r : VmResult) : Prop :=
  ∃ p rest, s.vm.params = p :: rest ∧
    (env.native (readPtr s.vm.mem p) (s.withParams rest).vm).1 = r

/-- The native function on top of the parameter stack is null. -/
def NullNative (s : State) : Prop :=
  ∃ p rest, s.vm.params = p :: rest ∧ readPtr s.vm.mem p = 0

namespace Program

variable (P : Program)

/-- `OP_PUSH_ARG` names arguments only. -/
def ArgsInRange : Prop :=
  ∀ base f bytes, P.Has base f bytes → ∀ op ∈ f.ops, op.kind = .pushArg →
    op.extra.toNat < f.sig.argc

/-- No break leaves the handler of a crash pad. -/
def KeepsHandlers : Prop :=
  ∀ base f bytes, P.Has base f bytes → HandlersKept f.blocks none (.node 0)

end Program

section Move

variable (P : Program) (env : Env) (strict : Prop)

/-- The activation stands at a known point. -/
structure Stands (a : Act) (p : Point) (s : State) : Prop where
  state : StateAt a p s
  point : PointOk P env.code strict a p

/-- How the case of the instruction `i` ends in the state `s`, whose `pc` stands behind the
operands, when the activation `a` was at the point `p`. -/
inductive Move (a : Act) (p : Point) (s : State) : Instr → Exec → Prop
  /-- an operation other than a call -/
  | op {op i temps s'} : op ∈ a.env.func.ops → p.dropped = 0 →
      OpInstr a.env (a.image P env.code) p.slots op p.temps (some i) temps → i.Quiet →
      Stands P env strict a { p with pc := p.pc + i.size, temps := temps } s' → s'.ans = s.ans →
      Move a p s i (.next s')
  /-- a jump, or storage or temporaries that come and go -/
  | goes {i q s'} : i.Quiet → ¬ i.stores → q.pads = p.pads → q.temps = [] →
      (q.slots <:+ p.slots ∨
        ∃ v tid, q.slots = ⟨v, frameOf a.types p.slots, tid⟩ :: p.slots) →
      (strict → q.floor = p.floor) → Stands P env strict a q s' → s'.ans = s.ans →
      Move a p s i (.next s')
  | guard {target pc s'} : p.temps = [] → p.dropped = 0 →
      PointOk P env.code strict a (Pad.point ⟨target.toNat, p.slots⟩ p.pads) →
      StateAt a { p with pc := pc } s →
      Stands P env strict a { p with pc := pc, pads := ⟨target.toNat, p.slots⟩ :: p.pads } s' →
      s'.ans = s.ans → Move a p s (.pushCrash target) (.next s')
  | unguard {pad pads pc s'} : p.pads = pad :: pads →
      Stands P env strict a { p with pc := pc, pads := pads } s' →
      s'.ans = s.ans → Move a p s .popCrash (.next s')
  | call {op a' s' pc target argc} : op ∈ a.env.func.ops → p.dropped = 0 → op.kind = .call →
      P.ctx.funcs[op.extra.toNat]? = some a'.env.func →
      PointOk P env.code strict a { p with pc := pc, temps := p.temps.drop a'.sig.ins.length } →
      StateAt a { p with pc := pc } s → a'.Ok P → Calls p.temps s a' → Stands P env strict a' { pc := 0, slots := [] } s' →
      s'.vm.savedReturn s.vm.storage.len = ⟨s.pc, s.base, s.paramBase⟩ → s'.ans = s.ans →
      Move a p s (.call target argc) (.next s')
  | ret {e} : p.pads = [] → p.floor = none → s.vm.storage.len = a.start →
      s.vm.params = a.args.drop a.sig.ins.length → s.vm.crash = a.crash → Move a p s .ret e
  | fail {i s' cause} : p.dropped = 0 → s'.vm.storage.len = s.vm.storage.len →
      s'.vm.crash = s.vm.crash → (∃ temps, s'.vm.params = temps ++ a.args) → s'.ans = s.ans →
      cause ≠ .ok →
      (cause.Internal → (∃ argc, i = .callNative argc) ∧ NativeReturns env s cause) →
      Move a p s i (.fail s' cause)
  | hardCrash {i vm} :
      i = .hardCrash ∨ (∃ argc, i = .callNative argc) ∧ NativeReturns env s .hardCrash →
      Move a p s i (.stop .hardCrash vm)
  | nullGlobal {vm} : Move a p s (.pushGlobal 0) (.stop .nullGlobal vm)
  /-- the operand of `OP_PUSH_ARG` names a variable that is not an argument -/
  | invalidArg {op idx vm} : op ∈ a.env.func.ops → op.kind = .pushArg →
      a.sig.argc ≤ op.extra.toNat → Move a p s (.pushArg idx) (.stop .invalidArg vm)
  | nullNative {argc vm} : NullNative s → Move a p s (.callNative argc) (.stop .nullNativeFunc vm)

end Move

/-! ## Operations -/

theorem ArithOp.apply_error {op : ArithOp} {x y : Int64} {r : VmResult}
    (h : op.apply x y = .error r) : r = .divByZero := by
  cases op <;> simp only [apply, reduceCtorEq] at h
  split at h <;> cases h
  rfl

/-- The causes of crashes that depend on values. -/
theorem BinOp.apply_error {mem : Mem} {lhs rhs : Nat} {op : BinOp} {r : VmResult}
    (h : op.apply mem lhs rhs = .error r) : r ≠ .ok ∧ ¬ r.Internal := by
  cases op with
  | copy size => cases h
  | sliceFromArr d e l => cases h
  | sliceFromOne l => cases h
  | arith op =>
      simp only [apply, bind, Except.bind] at h
      split at h
      · rename_i hop
        cases h
        rw [ArithOp.apply_error hop]
        exact ⟨by decide, id⟩
      · cases h
  | sliceInc e l =>
      simp only [apply] at h
      split at h
      · cases h
        exact ⟨by decide, id⟩
      · split at h <;> cases h
        exact ⟨by decide, id⟩
  | sliceDec e l =>
      simp only [apply] at h
      split at h
      · cases h
        exact ⟨by decide, id⟩
      · split at h <;> cases h
        exact ⟨by decide, id⟩
  | _ =>
      simp only [apply] at h
      split at h <;> cases h
      exact ⟨by decide, id⟩

section Exec

variable {P : Program} {env : Env} {strict : Prop} {a : Act} {p : Point}

theorem fetch_of_instrAt {ps : List Nat} {i : Instr} {pc : Nat}
    (h : InstrAt (a.image P env.code) p.pc ps i) (hpc : pc = a.base + p.pc) :
    fetch env.code pc = some (i, a.base + (p.pc + i.size)) := by
  rw [hpc, fetch_encode (Program.at_shift.mp h.1), Nat.add_assoc]

/-- The state of a case, from the state before the instruction was read. -/
theorem StateAt.read {s : State} (h : StateAt a p s) (pc : Nat) :
    StateAt a { p with pc := pc } { s with pc := a.base + pc } :=
  ⟨rfl, h.base, h.paramBase, h.storage, h.params, h.crash⟩

/-- Other temporaries. -/
theorem StateAt.withTemps {s s' : State} (h : StateAt a p s) (hdropped : p.dropped = 0)
    {temps : List Nat} {ps : List Nat} (hlen : temps.length = ps.length)
    (hparams : s'.vm.params = temps ++ a.args) (hpc : s'.pc = s.pc) (hbase : s'.base = s.base)
    (hparamBase : s'.paramBase = s.paramBase) (hstorage : s'.vm.storage.len = s.vm.storage.len)
    (hcrash : s'.vm.crash = s.vm.crash) : StateAt a { p with temps := ps } s' where
  pc := hpc.trans h.pc
  base := hbase.trans h.base
  paramBase := hparamBase.trans h.paramBase
  storage := hstorage.trans h.storage
  params := ⟨temps, hlen, by rw [hparams, hdropped, List.drop_zero]⟩
  crash := hcrash.trans h.crash

/-- The temporaries lie on the arguments. -/
theorem StateAt.temps {s : State} (h : StateAt a p s) (hdropped : p.dropped = 0) :
    ∃ temps, temps.length = p.temps.length ∧ s.vm.params = temps ++ a.args := by
  obtain ⟨temps, hlen, hparams⟩ := h.params
  rw [hdropped, List.drop_zero] at hparams
  exact ⟨temps, hlen, hparams⟩

theorem PointOk.moved {P : Program} {code : Nat → UInt8} {q : Point}
    (h : PointOk P code strict a p) (hslots : q.slots = p.slots) (hpads : q.pads = p.pads)
    (hfloor : q.floor = p.floor) (hsafe : Safe a.env (a.image P code) strict q) :
    PointOk P code strict a q where
  slots := by rw [hslots]; exact h.slots
  pads := by rw [hslots, hpads]; exact h.pads
  floor := by rw [hfloor, hpads]; exact h.floor
  safe := hsafe

theorem toNat_ofNat_uint32 {n : Nat} (h : n < 2 ^ 32) : (UInt32.ofNat n).toNat = n := by
  simp only [UInt32.toNat_ofNat']
  omega

section Op

variable {s : State} {op : Op} {i : Instr} {ps : List Nat}

/-- What `Move.op` asks for, from the new temporaries. -/
theorem move_op_next (hop : op ∈ a.env.func.ops) (hdropped : p.dropped = 0)
    (hinstr : OpInstr a.env (a.image P env.code) p.slots op p.temps (some i) ps) (hquiet : i.Quiet)
    (hat : StateAt a { p with pc := p.pc + i.size } s) (hpoint : PointOk P env.code strict a p)
    (hsafe : Safe a.env (a.image P env.code) strict
      { p with pc := p.pc + i.size, temps := ps }) {vm : VM} (temps : List Nat)
    (hlen : temps.length = ps.length) (hparams : vm.params = temps ++ a.args)
    (hstorage : vm.storage.len = s.vm.storage.len) (hcrash : vm.crash = s.vm.crash) :
    Move P env strict a p s i (.next { s with vm := vm }) :=
  .op hop hdropped hinstr hquiet
    ⟨hat.withTemps hdropped hlen hparams rfl rfl rfl hstorage hcrash,
      hpoint.moved rfl rfl rfl hsafe⟩ rfl

theorem move_push (hop : op ∈ a.env.func.ops) (hdropped : p.dropped = 0) {tid : Nat}
    (hinstr : OpInstr a.env (a.image P env.code) p.slots op p.temps (some i) (tid :: p.temps))
    (hquiet : i.Quiet) (hat : StateAt a { p with pc := p.pc + i.size } s)
    (hpoint : PointOk P env.code strict a p)
    (hsafe : Safe a.env (a.image P env.code) strict
      { p with pc := p.pc + i.size, temps := tid :: p.temps }) (al : Alloc) (ptr : Nat) :
    Move P env strict a p s i (s.push al ptr) := by
  obtain ⟨temps, hlen, hparams⟩ := hat.temps hdropped
  rcases s.push_spec al ptr with ⟨vm, hpushed, hpush⟩ | hpush
  · rw [hpush]
    refine move_op_next hop hdropped hinstr hquiet hat hpoint hsafe (ptr :: temps)
      (by simpa using hlen) ?_ (by rw [hpushed.storage]) hpushed.crash
    rw [hpushed.params, hparams, List.cons_append]
  · rw [hpush]
    exact .fail hdropped rfl rfl ⟨temps, hparams⟩ rfl (by decide) (fun h => h.elim)

/-- There is a parameter for each one that the compiler counts. -/
theorem pop_of_length {α β : Type} {temps : List α} {n : β} {rest : List β}
    (h : temps.length = (n :: rest).length) : ∃ t ts, temps = t :: ts ∧ ts.length = rest.length := by
  cases temps with
  | nil => cases h
  | cons t ts => exact ⟨t, ts, rfl, Nat.succ.inj h⟩

/-- The cases of the operations other than calls. -/
theorem move_op (hok : a.Ok P) (hnative : NativesKeep env) (hop : op ∈ a.env.func.ops)
    (hdropped : p.dropped = 0)
    (hinstr : OpInstr a.env (a.image P env.code) p.slots op p.temps (some i) ps) (hquiet : i.Quiet)
    (hat : StateAt a { p with pc := p.pc + i.size } s) (hpoint : PointOk P env.code strict a p)
    (hsafe : Safe a.env (a.image P env.code) strict
      { p with pc := p.pc + i.size, temps := ps }) (al : Alloc) :
    Move P env strict a p s i (exec env al s i) := by
  obtain ⟨temps, hlen, hparams⟩ := hat.temps hdropped
  have hinstr' := hinstr
  generalize hps : p.temps = before at hinstr' hlen
  cases hinstr' with
  | call => exact hquiet.elim
  -- the pointer is popped first; what the native function answers decides how the run goes on
  | @native x fn rest sig hkind hins hcount htypes =>
      obtain ⟨t, ts, rfl, hts⟩ := pop_of_length hlen
      have hcount : sig.ins.length ≤ ts.length := by
        rw [Sig.argc] at hcount
        omega
      simp only [exec, execNative, toNat_ofNat_uint32 hins, hparams, List.cons_append]
      rw [if_neg (by simp only [List.length_append]; omega)]
      split
      · rename_i hnull
        exact .nullNative ⟨t, _, hparams, hnull⟩
      · have hkeep := hnative (readPtr s.vm.mem t) (s.withParams (ts ++ a.args)).vm
        have hreturns : ∀ r, (env.native (readPtr s.vm.mem t) (s.withParams (ts ++ a.args)).vm).1 =
            r → NativeReturns env s r := fun r hr => ⟨t, _, hparams, hr⟩
        split
        · rename_i vm hcall
          obtain ⟨hp, hc, hl⟩ := hkeep (by rw [hcall]; exact VmResult.noConfusion)
          rw [hcall] at hp hc hl
          simp only [State.withParams] at hp hc hl
          rw [if_neg (by rw [hp, List.length_append]; omega)]
          refine move_op_next hop hdropped hinstr hquiet hat hpoint
            hsafe (ts.drop sig.ins.length) (by simp [hts]) ?_ hl hc
          rw [hp]
          exact List.drop_append_of_le_length hcount
        · rename_i vm hcall
          exact .hardCrash (.inr ⟨⟨_, rfl⟩, hreturns _ (by rw [hcall])⟩)
        · rename_i r vm hok hhard hcall
          obtain ⟨hp, hc, hl⟩ := hkeep (by rw [hcall]; exact hhard)
          rw [hcall] at hp hc hl
          exact .fail hdropped hl hc ⟨ts, hp⟩ rfl hok fun _ => ⟨⟨_, rfl⟩, hreturns _ (by rw [hcall])⟩
  -- two operands are popped; the result, if any, takes their place
  | @binary op f lhs rhs rest b tid hf htid =>
      obtain ⟨x, more, rfl, hmore⟩ := pop_of_length hlen
      obtain ⟨y, ts, rfl, hts⟩ := pop_of_length hmore
      simp only [exec, hparams, List.cons_append]
      split
      · exact move_op_next hop hdropped hinstr hquiet hat hpoint hsafe (_ :: ts)
          (by simpa using hts) rfl rfl rfl
      · rename_i r hr
        obtain ⟨hne, hinternal⟩ := BinOp.apply_error hr
        exact .fail hdropped rfl rfl ⟨y :: ts, rfl⟩ rfl hne fun h => (hinternal h).elim
  | @bitNot x rest =>
      obtain ⟨x, ts, rfl, hts⟩ := pop_of_length hlen
      simp only [exec, hparams, List.cons_append]
      exact move_op_next hop hdropped hinstr hquiet hat hpoint hsafe (_ :: ts)
        (by simpa using hts) rfl rfl rfl
  | @structAt x tid rest fields f hkind hfield hlt =>
      obtain ⟨x, ts, rfl, hts⟩ := pop_of_length hlen
      simp only [exec, hparams, List.cons_append]
      exact move_op_next hop hdropped hinstr hquiet hat hpoint hsafe (_ :: ts)
        (by simpa using hts) rfl rfl rfl
  | @drop x ps hcount =>
      have hx : x.toUInt32.toNat = x.toNat := by simp
      simp only [exec, hx, hparams, List.length_append]
      rw [if_neg (by omega)]
      refine move_op_next hop hdropped hinstr hquiet hat hpoint hsafe (temps.drop x.toNat)
        (by simp [hlen]) ?_ rfl rfl
      exact List.drop_append_of_le_length (by omega)
  | @pushVar x ps sl offset hfind hoffset => 
      subst hps
      simp only [exec]
      rw [if_neg]
      · exact move_push hop hdropped hinstr hquiet hat hpoint hsafe al _
      -- the local lies in the frame, so the offset is no bad one
      · have hle := hpoint.slots.mem_le (List.mem_of_find?_eq_some hfind)
        have hlen : s.vm.storage.len = a.start + frameOf a.env.types p.slots := hat.storage
        simp only [badOffset, Act.types] at hle ⊢
        omega
  | @pushArg x ps tid hvar htid =>
      subst hps
      simp only [exec]
      have hx : (UInt32.ofNat x.toNat).toNat = x.toNat :=
        toNat_ofNat_uint32 (Nat.lt_trans x.toNat_lt (by decide))
      split
      · rename_i hnone
        refine .invalidArg hop rfl (Nat.le_of_not_lt fun harg => ?_)
        have harg : x.toNat < a.sig.argc := harg
        have hroom := hok.room
        have hbase : s.paramBase = a.paramBase := hat.paramBase
        rw [List.getElem?_eq_none_iff, List.length_reverse, hparams, List.length_append, hx,
          hbase] at hnone
        omega
      · exact move_push hop hdropped hinstr hquiet hat hpoint hsafe al _
  | @pushGlobal x ps g hg htid =>
      subst hps
      simp only [exec]
      split
      · rename_i hnull
        rw [hnull]
        exact .nullGlobal
      · exact move_push hop hdropped hinstr hquiet hat hpoint hsafe al _

end Op

theorem OpInstr.quiet_or_call {ce : CompileEnv} {I : Image} {slots : List Slot} {op : Op}
    {ps ps' : List Nat} {i : Instr} (h : OpInstr ce I slots op ps (some i) ps') :
    i.Quiet ∨ ∃ target argc, i = .call target argc := by
  cases h with
  | call => exact .inr ⟨_, _, rfl⟩
  | _ => exact .inl trivial

/-! ## Calls -/

/-- The function at a place of the table starts at known points. -/
theorem callee_safe (hP : P.Accepted) (hload : P.Loaded env.code) (hshort : P.Short)
    (hkeeps : strict → P.KeepsHandlers) {base : Nat} {f : Func} {bytes : Code}
    (hhas : P.Has base f bytes) : ∃ e : CompileEnv, e.func = f ∧ e.ctx = P.ctx ∧ e.place = P.place ∧
      Safe e (P.image env.code base f bytes) strict { pc := 0, slots := [] } := by
  obtain ⟨e, rfl, hctx, hplace, hcode⟩ := Program.code_of hP hload hshort hhas
  exact ⟨e, rfl, hctx, hplace, funcCode_safe hcode fun hstrict => hkeeps hstrict _ _ _ hhas⟩

theorem move_call (hP : P.Accepted) (hload : P.Loaded env.code) (hshort : P.Short)
    (hkeeps : strict → P.KeepsHandlers) (hok : a.Ok P) {s : State} {op : Op} {target : UInt64}
    {argc : UInt32} {ps : List Nat} (hop : op ∈ a.env.func.ops) (hdropped : p.dropped = 0)
    (hinstr : OpInstr a.env (a.image P env.code) p.slots op p.temps (some (.call target argc)) ps)
    (hat : StateAt a { p with pc := p.pc + (Instr.call target argc).size } s)
    (hpoint : PointOk P env.code strict a p)
    (hsafe : Safe a.env (a.image P env.code) strict
      { p with pc := p.pc + (Instr.call target argc).size, temps := ps })
    (hpc : s.pc < 2 ^ 64) (hparamsFit : s.vm.params.length < 2 ^ 64) (al : Alloc) :
    Move P env strict a p s (.call target argc) (exec env al s (.call target argc)) := by
  obtain ⟨temps, hlen, hparams⟩ := hat.temps hdropped
  have hlen : temps.length = p.temps.length := hlen
  generalize hps : p.temps = before at hinstr hlen
  cases hinstr with
  | @call x ps f hready hf hargc hcount htypes =>
      obtain ⟨bytes, hbytes⟩ : P.table.Has x.toNat := hready
      rw [hok.ctx] at hf
      rw [hok.place]
      rw [hok.place] at hat hsafe
      have hhas : P.Has (P.place x.toNat).toNat f bytes := .callee hf hbytes
      obtain ⟨e, rfl, hctx, hplace, hstart⟩ := callee_safe hP hload hshort hkeeps hhas
      obtain ⟨hpos, hinside⟩ := hload.inside _ _ _ hhas
      have hbase : a.base < 2 ^ 64 := by
        have := hload.inside _ _ _ hok.has
        omega
      have htarget : P.place x.toNat ≠ 0 := by
        intro hzero
        rw [hzero] at hpos
        exact absurd hpos (by decide)
      simp only [exec, toNat_ofNat_uint32 hargc]
      rw [if_neg htarget, if_neg (by rw [hparams, List.length_append]; omega)]
      split
      · exact .fail hdropped rfl rfl ⟨temps, hparams⟩ rfl (by decide) (fun h => h.elim)
      · rename_i vm hvm
        have hreturns := VM.pushReturn_returns hvm
        have hroom : e.func.sig.argc ≤ s.vm.params.length := by
          rw [hparams, List.length_append]
          omega
        let a' : Act := {
          env := e
          bytes := bytes
          base := (P.place x.toNat).toNat
          start := s.vm.storage.len + VM.returnSize
          args := s.vm.params
          paramBase := s.vm.params.length - e.func.sig.argc
          crash := s.vm.crash }
        have hstate : StateAt a' { pc := 0, slots := [] } { s with
            vm := vm
            pc := (P.place x.toNat).toNat
            base := (P.place x.toNat).toNat
            paramBase := vm.params.length - e.func.sig.argc } := by
          refine ⟨rfl, rfl, ?_, hreturns.len, ⟨[], rfl, hreturns.params⟩, hreturns.crash⟩
          rw [hreturns.params]
        have hstands : Stands P env strict a' { pc := 0, slots := [] } _ :=
          ⟨hstate, ⟨trivial, by simp, by simp, hstart⟩⟩
        have hcalls : Calls before s a' :=
          ⟨rfl, rfl, Nat.sub_add_cancel hroom, rfl, hcount, htypes⟩
        have hok' : a'.Ok P := ⟨hhas, hctx, hplace, Nat.le_of_eq (Nat.sub_add_cancel hroom)⟩
        rw [← hps] at hcalls hsafe
        refine .call hop hdropped rfl hf (hpoint.moved rfl rfl rfl hsafe) hat hok' hcalls hstands ?_
          rfl
        have hsbase : s.base = a.base := hat.base
        have hsparam : s.paramBase = a.paramBase := hat.paramBase
        have hroom' := hok.room
        refine hreturns.saved hpc (by rw [hsbase]; exact hbase) ?_
        show s.paramBase < 2 ^ 64
        rw [hparams, List.length_append] at hparamsFit
        omega

/-! ## The code between operations -/

section Goes

variable {s : State} {o : Nat}

/-- There are no temporaries: the parameter stack is the arguments. -/
theorem StateAt.args (h : StateAt a p s) (hdropped : p.dropped = 0) (htemps : p.temps = []) :
    s.vm.params = a.args := by
  obtain ⟨temps, hlen, hparams⟩ := h.temps hdropped
  rw [htemps] at hlen
  rw [hparams, List.eq_nil_of_length_eq_zero hlen, List.nil_append]

theorem move_storageAdd {x : Int16} (hdropped : p.dropped = 0) (htemps : p.temps = [])
    (hat : StateAt a { p with pc := o } s) {slots : List Slot}
    (hx : x.toInt = (frameOf a.types slots : Int) - frameOf a.types p.slots)
    (hslots : slots <:+ p.slots ∨ ∃ v tid, slots = ⟨v, frameOf a.types p.slots, tid⟩ :: p.slots)
    (hpoint : PointOk P env.code strict a { p with pc := o, slots := slots }) (al : Alloc) :
    Move P env strict a p s (.storageAdd x) (exec env al s (.storageAdd x)) := by
  have hstorage : s.vm.storage.len = a.start + frameOf a.types p.slots := hat.storage
  have hargs := hat.args hdropped htemps
  have hgoes : ∀ vm : VM, vm.params = s.vm.params → vm.crash = s.vm.crash →
      vm.storage.len = a.start + frameOf a.types slots →
      Move P env strict a p s (.storageAdd x) (.next { s with vm := vm }) := by
    intro vm hparams hcrash hlen
    refine .goes (q := { p with pc := o, slots := slots }) trivial id rfl htemps hslots (fun _ => rfl)
      ⟨⟨hat.pc, hat.base, hat.paramBase, hlen, ?_, hcrash.trans hat.crash⟩, hpoint⟩ rfl
    obtain ⟨temps, hlen, htail⟩ := hat.params
    exact ⟨temps, hlen, hparams.trans htail⟩
  simp only [exec]
  split
  · rename_i vm hvm
    rcases VM.storageResize_spec hvm with ⟨hneg, hle, rfl⟩ | ⟨hpos, hgrown⟩
    · refine hgoes _ rfl rfl ?_
      show s.vm.storage.len - (-x.toInt).toNat = _
      omega
    · refine hgoes vm hgrown.params hgrown.crash ?_
      rw [hgrown.len]
      omega
  · rename_i hnone
    have hcause : ¬ x.toInt < 0 := by
      intro hneg
      rw [VM.storageResize, if_pos hneg, if_neg (by omega)] at hnone
      cases hnone
    rw [if_neg hcause]
    exact .fail hdropped rfl rfl ⟨[], hargs⟩ rfl (by decide) (fun h => h.elim)

end Goes

/-- What one round does at a known point. -/
theorem move_of_stateAt (hP : P.Accepted) (hload : P.Loaded env.code) (hshort : P.Short)
    (hkeeps : strict → P.KeepsHandlers) (hnative : NativesKeep env)
    (hok : a.Ok P) (hpoint : PointOk P env.code strict a p) {c : Config}
    (hat : StateAt a p c.state) (al : Alloc) :
    ∃ i pc, fetch env.code c.state.pc = some (i, pc) ∧
      Move P env strict a p (c.fetched pc) i (exec env al (c.fetched pc) i) := by
  have hread : ∀ {i : Instr} {ps}, InstrAt (a.image P env.code) p.pc ps i →
      fetch env.code c.state.pc = some (i, a.base + (p.pc + i.size)) ∧
        StateAt a { p with pc := p.pc + i.size } (c.fetched (a.base + (p.pc + i.size))) :=
    fun hi => ⟨fetch_of_instrAt hi hat.pc, hat.read _⟩
  -- what the code at a safe point can do, one case for each rule of the flow
  cases hpoint.safe.unfold (Flow.mono _ _ _) with
  | @op op i temps hop hdropped hinstr hi hsafe =>
      obtain ⟨hfetch, hat'⟩ := hread hi
      refine ⟨i, _, hfetch, ?_⟩
      rcases hinstr.quiet_or_call with hquiet | ⟨target, argc, rfl⟩
      · exact move_op hok hnative hop hdropped hinstr hquiet hat' hpoint hsafe al
      · refine move_call hP hload hshort hkeeps hok hop hdropped hinstr hat' hpoint hsafe ?_
          c.fits.2 al
        have hsize : (Instr.call target argc).size = 13 := by
          simp [Instr.size, encode, Instr.operands, encodeOperands]
        have hfits := c.fits.1
        have hpc := hat.pc
        simp only [Config.fetched_pc, hsize]
        omega
  | discard hdropped hlt hi hsafe =>
      obtain ⟨hfetch, hat'⟩ := hread hi
      refine ⟨_, _, hfetch, ?_⟩
      obtain ⟨temps, hlen, hparams⟩ := hat'.temps hdropped
      have hlen : temps.length = p.temps.length := hlen
      simp only [exec, toNat_ofNat_uint32 hlt]
      rw [if_neg (by rw [hparams, List.length_append]; omega)]
      refine .goes (q := { p with pc := p.pc + 5, temps := [] }) trivial id rfl rfl
        (.inl (List.suffix_refl _)) (fun _ => rfl)
        ⟨hat'.withTemps hdropped rfl ?_ rfl rfl rfl rfl rfl,
          hpoint.moved rfl rfl rfl hsafe⟩ rfl
      rw [← hlen]
      exact (congrArg _ hparams).trans (List.drop_left ..)
  | @test yes no hdropped htemps hi hyes hno =>
      obtain ⟨hfetch, hat'⟩ := hread hi
      refine ⟨_, _, hfetch, ?_⟩
      obtain ⟨temps, hlen, hparams⟩ := hat'.temps hdropped
      have hlen : temps.length = p.temps.length := hlen
      rw [htemps] at hlen
      obtain ⟨x, rfl⟩ := List.length_eq_one_iff.mp hlen
      simp only [exec, hparams, List.cons_append, List.nil_append]
      -- both branches leave the same state but for the program counter
      have hbranch : ∀ target : UInt16,
          Safe a.env (a.image P env.code) strict { p with pc := target.toNat, temps := [] } →
          Move P env strict a p (c.fetched (a.base + (p.pc + (Instr.branchTop yes no).size)))
            (.branchTop yes no) (.next { (c.fetched (a.base + (p.pc +
              (Instr.branchTop yes no).size))).withParams a.args with
                pc := c.state.base + target.toNat }) := by
        intro target hsafe
        refine .goes (q := { p with pc := target.toNat, temps := [] }) trivial id rfl rfl
          (.inl (List.suffix_refl _)) (fun _ => rfl) ⟨⟨?_, hat'.base, hat'.paramBase, hat'.storage,
            ⟨[], rfl, ?_⟩, hat'.crash⟩, hpoint.moved rfl rfl rfl hsafe⟩ rfl
        · show c.state.base + target.toNat = a.base + target.toNat
          rw [hat.base]
        · show a.args = [] ++ a.args.drop p.dropped
          rw [hdropped, List.drop_zero, List.nil_append]
      split
      · exact hbranch no hno
      · exact hbranch yes hyes
  -- a break jumps to a scope further out, where the frame has this size already
  | @jump target slots floor hdropped htemps hi hslots hpads hframe hfloor hsafe =>
      obtain ⟨hfetch, hat'⟩ := hread hi
      refine ⟨_, _, hfetch, ?_⟩
      refine .goes (q := { p with pc := target.toNat, slots := slots, floor := floor }) trivial id rfl
        htemps (.inl hslots) hfloor ⟨⟨?_, hat'.base, hat'.paramBase, ?_, hat'.params, hat'.crash⟩,
          ⟨hpoint.slots.of_suffix hslots, hpads, ?_, hsafe⟩⟩ rfl
      · show c.state.base + target.toNat = a.base + target.toNat
        rw [hat.base]
      · exact hat'.storage.trans (congrArg (a.start + ·) hframe.symm)
      · intro hstrict below hbelow
        exact hpoint.floor hstrict below ((hfloor hstrict).symm.trans hbelow)
  -- BLOCK_VAR: the local lies on top of the frame
  | alloc hdropped htemps hi hx hfit hsafe =>
      obtain ⟨hfetch, hat'⟩ := hread hi
      refine ⟨_, _, hfetch, ?_⟩
      refine move_storageAdd hdropped htemps hat' ?_ (.inr ⟨_, _, rfl⟩) ⟨?_, ?_, hpoint.floor, hsafe⟩ al
      · rw [hx]
        simp only [Act.types, frameOf]
        omega
      · exact ⟨rfl, hfit, hpoint.slots⟩
      · exact fun pad hpad => (hpoint.pads pad hpad).trans (List.suffix_cons _ _)
  | release hdropped htemps hi hslots hpads hx hsafe =>
      obtain ⟨hfetch, hat'⟩ := hread hi
      refine ⟨_, _, hfetch, ?_⟩
      exact move_storageAdd hdropped htemps hat' hx (.inl hslots)
        ⟨hpoint.slots.of_suffix hslots, hpads, hpoint.floor, hsafe⟩ al
  -- the frame pushed holds the registers and lengths with which the handler starts
  | @guard handler hdropped htemps hi hpad hsafe =>
      obtain ⟨hfetch, hat'⟩ := hread hi
      refine ⟨_, _, hfetch, ?_⟩
      have hargs := hat'.args hdropped htemps
      simp only [exec]
      split
      · rename_i vm hvm
        have hguarded := VM.pushCrash_spec hvm
        refine .guard htemps hdropped ⟨hpoint.slots, hpoint.pads, ?_, hpad⟩ hat'
          ⟨⟨hat'.pc, hat'.base, hat'.paramBase, ?_, ?_, ?_⟩, ⟨hpoint.slots, ?_, ?_, hsafe⟩⟩ rfl
        · intro _ below hbelow
          cases hbelow
          exact List.suffix_refl _
        · show vm.storage.len = _
          rw [hguarded.storage]
          exact hat'.storage
        · obtain ⟨temps, hlen, hparams⟩ := hat'.params
          exact ⟨temps, hlen, hguarded.params.trans hparams⟩
        · show vm.crash = _
          rw [hguarded.crash, hat'.crash, hat'.base, hat'.paramBase, hat'.storage, hargs]
          rfl
        · exact List.forall_mem_cons.mpr ⟨List.suffix_refl _, hpoint.pads⟩
        · exact fun hstrict below hbelow =>
            (hpoint.floor hstrict below hbelow).trans (List.suffix_cons _ _)
      · exact .fail hdropped rfl rfl ⟨[], hargs⟩ rfl (by decide) (fun h => h.elim)
  | @unguard pad pads hdropped htemps hi hpads hfloor hsafe =>
      obtain ⟨hfetch, hat'⟩ := hread hi
      refine ⟨_, _, hfetch, ?_⟩
      have hcrash : c.state.vm.crash = a.frame pad :: (pads.map a.frame ++ a.crash) := by
        rw [hat.crash, hpads, List.map_cons, List.cons_append]
      have hbelow := hpoint.pads
      rw [hpads] at hbelow
      simp only [exec, Config.fetched_vm, hcrash]
      exact .unguard hpads ⟨⟨hat'.pc, hat'.base, hat'.paramBase, hat'.storage, hat'.params, rfl⟩,
        ⟨hpoint.slots, fun pad hpad => hbelow pad (List.mem_cons_of_mem _ hpad), hfloor, hsafe⟩⟩ rfl
  | crash hdropped htemps hi =>
      obtain ⟨hfetch, hat'⟩ := hread hi
      refine ⟨_, _, hfetch, ?_⟩
      exact .fail hdropped rfl rfl ⟨[], hat'.args hdropped htemps⟩ rfl (by decide) (fun h => h.elim)
  | hardCrash hdropped htemps hi =>
      obtain ⟨hfetch, hat'⟩ := hread hi
      exact ⟨_, _, hfetch, .hardCrash (.inl rfl)⟩
  | dropArgs hslots htemps hpads hfloor hdropped hins hi hsafe =>
      obtain ⟨hfetch, hat'⟩ := hread hi
      refine ⟨_, _, hfetch, ?_⟩
      have hargs := hat'.args hdropped htemps
      have hroom := hok.room
      simp only [exec, toNat_ofNat_uint32 hins]
      rw [if_neg (by rw [hargs]; simp only [Act.sig, Sig.argc] at hroom; omega)]
      refine .goes (q := { p with pc := p.pc + 5, dropped := a.sig.ins.length }) trivial id rfl htemps
        (.inl (List.suffix_refl _)) (fun _ => rfl)
        ⟨⟨hat'.pc, hat'.base, hat'.paramBase, hat'.storage, ⟨[], ?_, ?_⟩, hat'.crash⟩,
          hpoint.moved rfl rfl rfl hsafe⟩ rfl
      · exact (congrArg List.length htemps).symm
      · exact congrArg _ hargs
  -- no local, pad or temporary is left at the return
  | ret hslots htemps hpads hfloor hdropped hi =>
      obtain ⟨hfetch, hat'⟩ := hread hi
      refine ⟨_, _, hfetch, .ret hpads hfloor ?_ ?_ ?_⟩
      · rw [hat'.storage, hslots]
        rfl
      · obtain ⟨temps, hlen, hparams⟩ := hat'.params
        rw [htemps] at hlen
        rw [hparams, List.eq_nil_of_length_eq_zero hlen, hdropped]
        rfl
      · rw [hat'.crash, hpads]
        rfl

end Exec

end TreeVM
