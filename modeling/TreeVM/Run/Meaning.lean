import TreeVM.Run.Agreement

/-!
# Operations on the machine

The instruction of an operation does what the operation means.

* `Journey`: what is assumed of a run, and of the host with which it is compared;
* `op_tracks`: operations other than calls; `ops_track`: lists of operations, if calls do as they
  mean.
-/

namespace TreeVM

/-- The program is run from `st` on, and compared with its functions on the host `H`: the trees of
the functions and the native functions are those of the program, the answers of `realloc` and the
return frames are those of the run. -/
structure Journey (P : Program) (env : Env) (allocs : Nat → Alloc) (H : Direct.Host) (st : Status) :
    Prop where
  accepted : P.Accepted
  loaded : P.Loaded env.code
  short : P.Short
  keeps : NativesKeep env
  blind : NativesBlind env
  roomy : NativesRoomy env
  ctx : H.ctx = P.ctx
  native : H.native = env.native
  crash : ∀ n, (allocs n).crash = true
  trees : ∀ {base f bytes}, P.Has base f bytes → RepresentsTree f.blocks (H.tree f)
  alloc : ∀ {n s i pc}, run env allocs n st = .running s → fetch env.code s.pc = some (i, pc) →
    i.asks = true → H.alloc (asksBefore env allocs st n) = allocs n
  link : ∀ {n s i pc}, run env allocs n st = .running s → fetch env.code s.pc = some (i, pc) →
    i.asks = true → H.link (asksBefore env allocs st n) = ⟨pc, s.base, s.paramBase⟩

/-- An activation of the program, as the direct semantics sees it. -/
def Act.activation (a : Act) : Direct.Activation :=
  ⟨a.env.func, a.start, a.paramBase⟩

/-- A point inside of a block, with temporaries -/
def Ctx.inside (Γ : Ctx) (o : Nat) (ps : List Nat) : Point :=
  { Γ.point o with temps := ps }

theorem binaryTypes_congr {ce ce' : CompileEnv} (h : ce.types = ce'.types) (kind : OpKind) :
    binaryTypes ce kind = binaryTypes ce' kind := by
  obtain ⟨f, types, ctx, place, callee⟩ := ce
  obtain ⟨f', types', ctx', place', callee'⟩ := ce'
  cases h
  cases kind <;> rfl

theorem kindOf_congr {ce ce' : CompileEnv} (h : ce.types = ce'.types) (tid : Nat) :
    kindOf ce tid = kindOf ce' tid := by
  rw [kindOf, kindOf, h]

section Operations

variable {P : Program} {env : Env} {allocs : Nat → Alloc} {H : Direct.Host} {st : Status} {a : Act}
  {Γ : Ctx} {n k o : Nat} {ps ps' : List Nat} {s : State} {d : Direct.State} {op : Op} {i : Instr}

/-! ## States that agree -/

namespace Corresponds

variable {p : Point} (hc : Corresponds a p s d)

include hc

theorem mem_eq : d.vm.mem = s.vm.mem := by
  rw [← hc.vm]
  rfl

theorem params_eq : d.vm.params = s.vm.params := by
  rw [← hc.vm]
  rfl

theorem storage_eq : d.vm.storage = s.vm.storage := by
  rw [← hc.vm]
  rfl

/-- The parameters of the machine are the temporaries on the arguments. -/
theorem params : ∃ temps, temps.length = p.temps.length ∧ s.vm.params = temps ++ a.args :=
  hc.state.temps hc.dropped

/-- The topmost temporary -/
theorem pop {tid : Nat} {rest : List Nat} (htemps : p.temps = tid :: rest) :
    ∃ x ts, ts.length = rest.length ∧ s.vm.params = x :: (ts ++ a.args) := by
  obtain ⟨temps, hlen, hparams⟩ := hc.params
  rw [htemps] at hlen
  obtain ⟨x, ts, rfl, hts⟩ := pop_of_length hlen
  exact ⟨x, ts, hts, hparams⟩

/-- The state behind an instruction that changes temporaries. -/
theorem retemp (o' : Nat) {vm : VM} {d' : Direct.State} (temps : List Nat)
    (hlen : temps.length = ps'.length) (hparams : vm.params = temps ++ a.args)
    (hstorage : vm.storage.len = s.vm.storage.len) (hroom : vm.Roomy) (hcrash : vm.crash = s.vm.crash)
    (hvm : vm.bare = d'.vm) (hans : d'.ans = d.ans) (hslots : d'.slots = d.slots)
    (htemps : d'.temps = ps') (htrouble : d'.trouble = d.trouble) :
    Corresponds a { p with pc := o', temps := ps' } { s with pc := a.base + o', vm := vm } d' where
  state := (hc.state.read o').withTemps hc.dropped hlen hparams rfl rfl rfl hstorage hcrash
  dropped := hc.dropped
  room := hroom
  vm := hvm
  ans := hc.ans.trans hans.symm
  slots := hslots.trans hc.slots
  temps := htemps
  trouble := htrouble.trans hc.trouble

end Corresponds

/-! ## Operations other than calls -/

theorem push_tracks (journey : Journey P env allocs H st) {p : Point}
    (harrives : Arrives env allocs st n s d) (hfetch : fetch env.code s.pc = some (i, a.base + o))
    (hasks : i.asks = true) (hc : Corresponds a p s d) (hslots : p.slots = Γ.slots)
    (hpads : p.pads = Γ.pads) {ptr tid : Nat}
    (hexec : exec env (allocs n) { s with pc := a.base + o } i =
      State.push { s with pc := a.base + o } (allocs n) ptr) :
    Tracks env allocs st a Γ n k (Corresponds a { p with pc := o, temps := tid :: p.temps })
      ((H.push ptr tid d).outcome .normal) := by
  obtain ⟨temps, hlen, hparams⟩ := hc.params
  have halloc : H.alloc d.asks = allocs n :=
    harrives.asks ▸ journey.alloc harrives.run hfetch hasks
  have hbare : d.vm.pushParam (allocs n) ptr = (s.vm.pushParam (allocs n) ptr).map VM.bare := by
    rw [← hc.vm]
    exact VM.pushParam_bare s.vm (allocs n) ptr
  have hcount : d.asks + 1 = d.asks + if i.asks then 1 else 0 := by
    rw [hasks]
    rfl
  rw [State.push] at hexec
  rw [Direct.Host.push, halloc, hbare]
  cases hpush : s.vm.pushParam (allocs n) ptr with
  | some vm =>
      simp only [hpush] at hexec
      have hpushed := VM.pushParam_spec hpush
      have hroom : vm.Roomy := by
        rw [VM.Roomy, hpushed.storage]
        exact hc.room
      refine .next harrives hfetch hexec hcount ?_
      refine hc.retemp o (ptr :: temps) (by simpa using hlen) ?_ (by rw [hpushed.storage]) hroom
        hpushed.crash rfl rfl rfl ?_ rfl
      · rw [hpushed.params, hparams, List.cons_append]
      · rw [hc.temps]
  | none =>
      simp only [hpush] at hexec
      exact .fail harrives hfetch hexec hc hslots hpads rfl hc.room rfl ⟨temps, hparams⟩ rfl
        (by decide) hc.vm rfl hcount rfl

theorem unary_tracks {u : UnOp} {f : Nat → Option (UnOp × Nat)} {tid tid' : Nat} {rest : List Nat}
    (hfetch : fetch env.code s.pc = some (.unary u, a.base + (o + (Instr.unary u).size)))
    (harrives : Arrives env allocs st n s d) (hc : Corresponds a (Γ.inside o (tid :: rest)) s d)
    (hf : f tid = some (u, tid')) :
    Tracks env allocs st a Γ n k (Corresponds a (Γ.inside (o + (Instr.unary u).size) (tid' :: rest)))
      ((Direct.Host.unary f d).outcome .normal) := by
  obtain ⟨x, ts, hts, hparams⟩ := hc.pop rfl
  have htemps : d.temps = tid :: rest := hc.temps
  rw [Direct.Host.unary, htemps, hc.params_eq, hparams]
  simp only [hf, hc.mem_eq]
  rcases happly : u.apply s.vm.mem x with ⟨mem, p⟩
  have hexec : exec env (allocs n) { s with pc := a.base + (o + (Instr.unary u).size) } (.unary u) =
      .next { s with
        pc := a.base + (o + (Instr.unary u).size)
        vm := { s.vm with mem := mem, params := p :: (ts ++ a.args) } } := by
    simp only [exec, hparams, happly]
  refine .next harrives hfetch hexec rfl ?_
  refine hc.retemp _ (p :: ts) (by simpa using hts) rfl rfl hc.room rfl ?_ rfl rfl rfl rfl
  rw [← hc.vm]
  rfl

theorem binary_tracks {ce : CompileEnv} {kind : OpKind} {f : Nat → Nat → Option (BinOp × Nat)}
    {lhs rhs tid : Nat} {rest : List Nat} {b : BinOp} (hkind : binaryTypes ce kind = some f)
    (hfetch : fetch env.code s.pc = some (.binary b, a.base + (o + (Instr.binary b).size)))
    (harrives : Arrives env allocs st n s d) (hc : Corresponds a (Γ.inside o (rhs :: lhs :: rest)) s d)
    (hf : f lhs rhs = some (b, tid)) :
    Tracks env allocs st a Γ n k (Corresponds a (Γ.inside (o + (Instr.binary b).size) (tid :: rest)))
      ((Direct.Host.binary ce kind d).outcome .normal) := by
  obtain ⟨temps, hlen, hparams⟩ := hc.params
  obtain ⟨x, more, rfl, hmore⟩ := pop_of_length hlen
  obtain ⟨y, ts, rfl, hts⟩ := pop_of_length hmore
  have htemps : d.temps = rhs :: lhs :: rest := hc.temps
  rw [Direct.Host.binary, hkind, htemps, hc.params_eq, hparams]
  simp only [List.cons_append, hf, hc.mem_eq]
  cases happly : b.apply s.vm.mem y x with
  | ok r =>
      obtain ⟨mem, p⟩ := r
      have hexec : exec env (allocs n) { s with pc := a.base + (o + (Instr.binary b).size) } (.binary b) =
          .next { s with
            pc := a.base + (o + (Instr.binary b).size)
            vm := { s.vm with mem := mem, params := p :: (ts ++ a.args) } } := by
        simp only [exec, hparams, List.cons_append, happly]
      refine .next harrives hfetch hexec rfl ?_
      refine hc.retemp _ (p :: ts) (by simpa using hts) rfl rfl hc.room rfl ?_ rfl rfl rfl rfl
      rw [← hc.vm]
      rfl
  | error r =>
      have hexec : exec env (allocs n) { s with pc := a.base + (o + (Instr.binary b).size) } (.binary b) =
          .fail (State.withParams { s with pc := a.base + (o + (Instr.binary b).size) }
            (y :: (ts ++ a.args))) r := by
        simp only [exec, hparams, List.cons_append, happly]
      refine .fail harrives hfetch hexec hc rfl rfl rfl hc.room rfl ⟨y :: ts, rfl⟩ rfl
        (BinOp.apply_error happly).1 ?_ rfl rfl rfl
      rw [← hc.vm]
      rfl

section Native

variable {t fn argc : Nat} {rest : List Nat} {vm : VM} {r : VmResult} (hparams : s.vm.params = t :: rest)
  (hcount : argc ≤ rest.length) (hfn : readPtr s.vm.mem t = fn)

include hparams hcount hfn

theorem execNative_null (hnull : fn = 0) :
    execNative env argc s = .stop .nullNativeFunc (s.withParams rest).vm := by
  simp only [execNative, hparams, hfn, if_neg (Nat.not_lt.mpr hcount), if_pos hnull]

theorem execNative_ok (hsome : fn ≠ 0) (hcall : env.native fn (s.withParams rest).vm = (.ok, vm))
    (hkept : argc ≤ vm.params.length) : execNative env argc s =
      .next { s with vm := { vm with params := vm.params.drop argc } } := by
  simp only [execNative, hparams, hfn, if_neg (Nat.not_lt.mpr hcount), if_neg hsome, hcall,
    if_neg (Nat.not_lt.mpr hkept)]
  rfl

theorem execNative_hard (hsome : fn ≠ 0)
    (hcall : env.native fn (s.withParams rest).vm = (.hardCrash, vm)) :
    execNative env argc s = .stop .hardCrash vm := by
  simp only [execNative, hparams, hfn, if_neg (Nat.not_lt.mpr hcount), if_neg hsome, hcall]

theorem execNative_fail (hsome : fn ≠ 0) (hcall : env.native fn (s.withParams rest).vm = (r, vm))
    (hok : r ≠ .ok) (hhard : r ≠ .hardCrash) : execNative env argc s = .fail { s with vm := vm } r := by
  simp only [execNative, hparams, hfn, if_neg (Nat.not_lt.mpr hcount), if_neg hsome, hcall]
  cases r <;> rfl

end Native

theorem native_tracks (journey : Journey P env allocs H st) {ce : CompileEnv}
    (htyped : ce.types = a.env.types) {fn : Nat} {rest : List Nat} {sig : Sig}
    (hkind : kindOf a.env fn = some (.nativeFunc sig)) (hins : sig.ins.length < 2 ^ 32)
    (htakes : Direct.Host.takes rest sig)
    (hfetch : fetch env.code s.pc = some (.callNative (UInt32.ofNat sig.ins.length),
      a.base + (o + (Instr.callNative (UInt32.ofNat sig.ins.length)).size)))
    (harrives : Arrives env allocs st n s d) (hc : Corresponds a (Γ.inside o (fn :: rest)) s d) :
    Tracks env allocs st a Γ n k (Corresponds a
      (Γ.inside (o + (Instr.callNative (UInt32.ofNat sig.ins.length)).size) (rest.drop sig.ins.length)))
      ((H.callNative ce d).outcome .normal) := by
  obtain ⟨t, ts, hts, hparams⟩ := hc.pop rfl
  have htemps : d.temps = fn :: rest := hc.temps
  have hcount : sig.ins.length ≤ ts.length := by
    have hle := htakes.1
    rw [Sig.argc] at hle
    omega
  have hcount' : sig.ins.length ≤ (ts ++ a.args).length := by
    rw [List.length_append]
    omega
  -- the state behind the instruction, and the VM that the function gets
  obtain ⟨m, hm⟩ : ∃ m : State, m = { s with
      pc := a.base + (o + (Instr.callNative (UInt32.ofNat sig.ins.length)).size) } := ⟨_, rfl⟩
  obtain ⟨vm, hvm⟩ : ∃ vm, vm = (m.withParams (ts ++ a.args)).vm := ⟨_, rfl⟩
  have hmparams : m.vm.params = t :: (ts ++ a.args) := by
    rw [hm]
    exact hparams
  have hmfn : readPtr m.vm.mem t = readPtr s.vm.mem t := by
    rw [hm]
  have hgets : { d.vm with params := ts ++ a.args } = vm.bare := by
    rw [hvm, hm, ← hc.vm]
    rfl
  have hroom : vm.Roomy := by
    rw [hvm, hm]
    exact hc.room
  have hexec : exec env (allocs n) m (.callNative (UInt32.ofNat sig.ins.length)) =
      execNative env sig.ins.length m := by
    rw [exec, toNat_ofNat_uint32 hins]
  rw [Direct.Host.callNative, htemps, hc.params_eq, hparams]
  simp only [kindOf_congr htyped, hkind, if_neg (not_not.mpr htakes), hgets]
  rw [hc.mem_eq, journey.native]
  by_cases hnull : readPtr s.vm.mem t = 0
  · rw [if_pos hnull]
    rw [execNative_null hmparams hcount' hmfn hnull, ← hvm, hm] at hexec
    exact .stop harrives hfetch hexec rfl rfl hc.trouble
  · rw [if_neg hnull]
    have hsame := journey.blind (readPtr s.vm.mem t) vm
    have hkeep := journey.keeps (readPtr s.vm.mem t) vm
    have hroom' := journey.roomy (readPtr s.vm.mem t) vm hroom
    rcases hcall : env.native (readPtr s.vm.mem t) vm with ⟨r, vm'⟩
    rw [hcall] at hkeep hsame hroom'
    obtain ⟨hr', hvm'⟩ := hsame
    rw [show env.native (readPtr s.vm.mem t) vm.bare = (r, vm'.bare) from
      Prod.ext hr'.symm hvm'.symm]
    rw [hvm] at hcall
    by_cases hhard : r = .hardCrash
    · subst hhard
      rw [execNative_hard hmparams hcount' hmfn hnull hcall, hm] at hexec
      exact .stop harrives hfetch hexec rfl rfl hc.trouble
    · obtain ⟨hp, hcrash, hlen'⟩ := hkeep hhard
      have hparams' : vm'.params = ts ++ a.args := hp.trans (by rw [hvm]; rfl)
      have hcrash' : vm'.crash = s.vm.crash := hcrash.trans (by rw [hvm, hm]; rfl)
      have hstorage' : vm'.storage.len = s.vm.storage.len := hlen'.trans (by rw [hvm, hm]; rfl)
      by_cases hok : r = .ok
      · subst hok
        have hkept : sig.ins.length ≤ vm'.params.length := by
          rw [hparams']
          exact hcount'
        rw [execNative_ok hmparams hcount' hmfn hnull hcall hkept, hm] at hexec
        refine .next harrives hfetch hexec rfl ?_
        refine hc.retemp _ (ts.drop sig.ins.length) (by simp [hts]) ?_ hstorage' hroom' hcrash' rfl rfl
          rfl rfl rfl
        show vm'.params.drop sig.ins.length = _
        rw [hparams']
        exact List.drop_append_of_le_length hcount
      · rw [execNative_fail hmparams hcount' hmfn hnull hcall hok hhard, hm] at hexec
        have hreturned : Direct.Host.returned d rest sig (r, vm'.bare) =
            Direct.State.fail { d with vm := vm'.bare } r := by
          cases r <;> first | rfl | exact absurd rfl hok | exact absurd rfl hhard
        rw [hreturned]
        exact .fail harrives hfetch hexec hc rfl rfl hstorage' hroom' hcrash' ⟨ts, hparams'⟩ rfl hok
          rfl rfl rfl rfl

/-- The operations other than calls -/
theorem op_tracks (journey : Journey P env allocs H st)
    (htypes : layoutAll a.env.func.types = some a.env.types) (hctx : a.env.ctx = P.ctx)
    (hinstr : OpInstr a.env (a.image P env.code) Γ.slots op ps (some i) ps') (hquiet : i.Quiet)
    (hat : InstrAt (a.image P env.code) o ps i) (hok : SlotsOk a.types Γ.slots)
    (harrives : Arrives env allocs st n s d) (hc : Corresponds a (Γ.inside o ps) s d)
    (run : Direct.Activation → Direct.State → Outcome Direct.State) :
    Tracks env allocs st a Γ n k (Corresponds a (Γ.inside (o + i.size) ps'))
      ((H.op (H.typed a.env.func) a.activation run op d).outcome .normal) := by
  have hfetch : fetch env.code s.pc = some (i, a.base + (o + i.size)) :=
    fetch_of_instrAt (p := Γ.inside o ps) hat hc.state.pc
  have htyped : (H.typed a.env.func).types = a.env.types := by
    rw [Direct.Host.typed, htypes]
    rfl
  have htemps : d.temps = ps := hc.temps
  cases hinstr with
  | call => exact hquiet.elim
  | @native x fn rest sig hkind hins hcount hargs =>
      exact native_tracks journey htyped hkind hins ⟨hcount, hargs⟩ hfetch harrives hc
  | @binary op f lhs rhs rest b tid hf htid =>
      have hop : H.op (H.typed a.env.func) a.activation run op d =
          Direct.Host.binary (H.typed a.env.func) op.kind d := by
        obtain ⟨kind, extra⟩ := op
        cases kind <;> first | rfl | cases hf
      rw [hop]
      exact binary_tracks ((binaryTypes_congr htyped _).trans hf) hfetch harrives hc htid
  | @bitNot x rest =>
      have hop : H.op (H.typed a.env.func) a.activation run ⟨.bitNotAssign, x⟩ d =
          Direct.Host.unary Direct.Host.bitNotType d := rfl
      rw [hop]
      exact unary_tracks hfetch harrives hc (by simp [Direct.Host.bitNotType])
  | @structAt x tid rest fields f hkind hfield hlt =>
      have hop : H.op (H.typed a.env.func) a.activation run ⟨.structAt, x⟩ d =
          Direct.Host.unary (Direct.Host.structAtType (H.typed a.env.func) x.toNat) d := rfl
      rw [hop]
      refine unary_tracks hfetch harrives hc ?_
      simp only [Direct.Host.structAtType, kindOf_congr htyped, hkind, hfield, htyped, if_pos hlt]
  | @drop x ps hcount =>
      obtain ⟨temps, hlen, hparams⟩ := hc.params
      have hop : H.op (H.typed a.env.func) a.activation run ⟨.drop, x⟩ d =
          if d.temps.length < x.toNat then d.illTyped else .ok (d.drop x.toNat) := rfl
      rw [hop, htemps, if_neg (Nat.not_lt.mpr hcount)]
      have hx : x.toUInt32.toNat = x.toNat := by simp
      have hlen : temps.length = ps.length := hlen
      have hdrop : s.vm.params.drop x.toNat = temps.drop x.toNat ++ a.args := by
        rw [hparams]
        exact List.drop_append_of_le_length (by omega)
      have hexec : exec env (allocs n)
          { s with pc := a.base + (o + (Instr.dropN x.toUInt32).size) } (.dropN x.toUInt32) =
          .next { s with
            pc := a.base + (o + (Instr.dropN x.toUInt32).size)
            vm := { s.vm with params := s.vm.params.drop x.toNat } } := by
        simp only [exec, hx]
        rw [if_neg (by rw [hparams, List.length_append]; omega)]
        rfl
      refine .next harrives hfetch hexec rfl ?_
      refine hc.retemp _ (temps.drop x.toNat) (by simp [hlen]) hdrop rfl hc.room rfl ?_ rfl rfl ?_ rfl
      · rw [Direct.State.drop, ← hc.vm]
        rfl
      · rw [Direct.State.drop, htemps]
  | @pushVar x ps sl offset hfind hoffset =>
      have hop : H.op (H.typed a.env.func) a.activation run ⟨.pushVar, x⟩ d =
          H.pushVar a.activation x.toNat d := rfl
      have hslots : d.slots = Γ.slots := hc.slots
      rw [hop, Direct.Host.pushVar, hslots, hfind]
      refine push_tracks journey harrives hfetch rfl hc rfl rfl ?_
      -- the local lies in the frame
      have hle := hok.mem_le (List.mem_of_find?_eq_some hfind)
      have hlen : s.vm.storage.len = a.start + frameOf a.env.types Γ.slots := hc.state.storage
      have hgood : ¬ badOffset { s with pc := a.base + (o + (Instr.pushVar offset).size) } offset.toInt := by
        simp only [badOffset, Act.types] at hle ⊢
        omega
      have hplace : fromEnd { s with pc := a.base + (o + (Instr.pushVar offset).size) } offset.toInt =
          d.vm.storage.data + (a.start + sl.base) := by
        rw [hc.storage_eq]
        show s.vm.storage.data + (s.vm.storage.len - (-offset.toInt).toNat) =
          s.vm.storage.data + (a.start + sl.base)
        simp only [Act.types] at hle
        omega
      simp only [exec, if_neg hgood, hplace]
      rfl
  | @pushArg x ps tid hvar htid =>
      have hop : H.op (H.typed a.env.func) a.activation run ⟨.pushArg, x⟩ d =
          H.pushArg a.activation x.toNat d := rfl
      have hvar : a.activation.func.vars[x.toNat]? = some tid := hvar
      have hx : (UInt32.ofNat x.toNat).toNat = x.toNat :=
        toNat_ofNat_uint32 (Nat.lt_trans x.toNat_lt (by decide))
      have hbase : s.paramBase = a.activation.paramBase := hc.state.paramBase
      rw [hop, Direct.Host.pushArg, hvar, hc.params_eq]
      simp only [← hbase]
      cases harg : s.vm.params.reverse[s.paramBase + x.toNat]? with
      | none =>
          have hexec : exec env (allocs n)
              { s with pc := a.base + (o + (Instr.pushArg (UInt32.ofNat x.toNat)).size) }
              (.pushArg (UInt32.ofNat x.toNat)) = .stop .invalidArg s.vm := by
            simp only [exec, hx, harg]
          exact .stop harrives hfetch hexec hc.vm rfl hc.trouble
      | some p =>
          refine push_tracks journey harrives hfetch rfl hc rfl rfl ?_
          simp only [exec, hx, harg]
  | @pushGlobal x ps g hg htid =>
      have hop : H.op (H.typed a.env.func) a.activation run ⟨.pushGlobal, x⟩ d =
          H.pushGlobal x.toNat d := rfl
      rw [hctx] at hg
      rw [hop, Direct.Host.pushGlobal, journey.ctx, hg]
      by_cases hnull : g.mem = 0
      · simp only [if_pos hnull]
        have hexec : exec env (allocs n)
            { s with pc := a.base + (o + (Instr.pushGlobal g.mem).size) } (.pushGlobal g.mem) =
            .stop .nullGlobal s.vm := by
          simp only [exec, if_pos hnull]
        exact .stop harrives hfetch hexec hc.vm rfl hc.trouble
      · simp only [if_neg hnull]
        refine push_tracks journey harrives hfetch rfl hc rfl rfl ?_
        simp only [exec, if_neg hnull]

/-! ## Lists of operations -/

variable (P env allocs H st a) in
/-- Calls do on the machine what they mean, when callees are run by `run`. -/
def CallsTrack (run : Direct.Activation → Direct.State → Outcome Direct.State) (k : Nat) : Prop :=
  ∀ {Γ : Ctx} {n o : Nat} {op : Op} {ps ps' : List Nat} {target : UInt64} {argc : UInt32} {s : State}
    {d : Direct.State}, SlotsOk a.types Γ.slots →
    OpInstr a.env (a.image P env.code) Γ.slots op ps (some (.call target argc)) ps' →
    InstrAt (a.image P env.code) o ps (.call target argc) → Arrives env allocs st n s d →
    Corresponds a (Γ.inside o ps) s d →
    Tracks env allocs st a Γ n k
      (Corresponds a (Γ.inside (o + (Instr.call target argc).size) ps'))
      ((H.op (H.typed a.env.func) a.activation run op d).outcome .normal)

theorem Step.outcome_andThen {σ : Type} (x : Step σ) (f : σ → Outcome σ) :
    x.outcome f = (x.outcome .normal).andThen f := by
  cases x <;> rfl

theorem ops_track (journey : Journey P env allocs H st) (htypes : layoutAll a.env.func.types = some a.env.types)
    (hctx : a.env.ctx = P.ctx) {run : Direct.Activation → Direct.State → Outcome Direct.State}
    (hcalls : CallsTrack P env allocs H st a run k) {ops : List Op} {o' : Nat}
    (hcode : CodeOps a.env (a.image P env.code) Γ.slots ops o ps o' ps')
    (hok : SlotsOk a.types Γ.slots) (harrives : Arrives env allocs st n s d)
    (hc : Corresponds a (Γ.inside o ps) s d) :
    Tracks env allocs st a Γ n k (Corresponds a (Γ.inside o' ps'))
      (((H.machineWith run a.activation).runOps ops d).outcome .normal) := by
  induction hcode generalizing n s d with
  | nil => exact .normal (Nat.le_refl n) harrives hc
  | skip hinstr _ ih =>
      cases hinstr with
      | null => exact ih harrives hc
  | @emit op ops o ps o' ps' ps'' i hinstr hat _ ih =>
      have hfirst : Tracks env allocs st a Γ n k (Corresponds a (Γ.inside (o + i.size) ps'))
          ((H.op (H.typed a.env.func) a.activation run op d).outcome .normal) := by
        rcases hinstr.quiet_or_call with hquiet | ⟨target, argc, rfl⟩
        · exact op_tracks journey htypes hctx hinstr hquiet hat hok harrives hc run
        · exact hcalls hok hinstr hat harrives hc
      have hrest : ((H.machineWith run a.activation).runOps (op :: ops) d).outcome .normal =
          ((H.op (H.typed a.env.func) a.activation run op d).outcome .normal).andThen fun d =>
            ((H.machineWith run a.activation).runOps ops d).outcome .normal := by
        have hop : (H.machineWith run a.activation).op op d =
            H.op (H.typed a.env.func) a.activation run op d := rfl
        rw [Machine.runOps, hop]
        cases H.op (H.typed a.env.func) a.activation run op d <;> rfl
      rw [hrest]
      exact hfirst.andThen fun _ harrives' hc' => ih harrives' hc'

end Operations

end TreeVM
