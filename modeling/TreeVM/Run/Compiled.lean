import TreeVM.Run.Blocks
import TreeVM.Run.Unwinding

/-!
# Compiled functions on the machine

What compiled functions do is what their trees mean.

* `end_reached`, `back_tracks`: the code behind the body of a function, and its caller;
* `call_tracks`: calls, if callees do as they mean;
* `func_means`: all functions, by induction on the depth of calls;
* `compiled_meets`: a run of the machine ends as the direct semantics does, and the other way round.
-/

namespace TreeVM

section Compiled

variable {P : Program} {env : Env} {allocs : Nat → Alloc} {H : Direct.Host} {st : Status} {a a' : Act}
  {Γ : Ctx} {n k k' o : Nat} {r : Reach} {ps : List Nat} {s : State} {d : Direct.State}

/-! ## The end of a function -/

/-- The activation stands at its `B_RET`, with its inputs dropped. -/
structure Returning (P : Program) (env : Env) (allocs : Nat → Alloc) (st : Status) (a : Act) (n o : Nat)
    (s : State) (d : Direct.State) : Prop where
  arrives : Arrives env allocs st n s d
  state : StateAt a { pc := o, slots := [], dropped := a.sig.ins.length } s
  code : InstrAt (a.image P env.code) o [] .ret
  room : s.vm.Roomy
  vm : s.vm.bare = { d.vm with params := d.vm.params.drop a.sig.ins.length }
  ans : s.ans = d.ans

theorem end_reached (hend : EndAt (a.image P env.code) o a.sig.ins.length)
    (hins : a.sig.ins.length < 2 ^ 32) (hroom : a.sig.ins.length ≤ a.args.length)
    (harrives : Arrives env allocs st n s d) (hc : Corresponds a (({} : Ctx).point o) s d) :
    ∃ m o' s', n ≤ m ∧ Returning P env allocs st a m o' s' d := by
  have hargs : s.vm.params = a.args := hc.args rfl
  rw [EndAt] at hend
  split at hend
  · rename_i hnone
    refine ⟨n, o, s, Nat.le_refl n, harrives, ⟨hc.state.pc, hc.state.base, hc.state.paramBase,
      hc.state.storage, ⟨[], rfl, ?_⟩, hc.state.crash⟩, hend, hc.room, ?_, hc.ans⟩
    · rw [hnone]
      exact hargs
    · rw [hnone]
      exact hc.vm
  · obtain ⟨hdrop, hret⟩ := hend
    have hfetch : fetch env.code s.pc = some (.dropN (UInt32.ofNat a.sig.ins.length), a.base + (o + 5)) :=
      fetch_of_instrAt (p := ({} : Ctx).point o) hdrop hc.state.pc
    have hexec : exec env (allocs n) { s with pc := a.base + (o + 5) }
        (.dropN (UInt32.ofNat a.sig.ins.length)) =
        .next { s with
          pc := a.base + (o + 5)
          vm := { s.vm with params := s.vm.params.drop a.sig.ins.length } } := by
      simp only [exec, toNat_ofNat_uint32 hins]
      rw [if_neg (by rw [hargs]; omega)]
      rfl
    have harrives' : Arrives env allocs st (n + 1) _ d := harrives.next hfetch hexec rfl
    refine ⟨n + 1, o + 5, _, Nat.le_succ n, harrives', ⟨rfl, hc.state.base, hc.state.paramBase,
      hc.state.storage, ⟨[], rfl, ?_⟩, hc.state.crash⟩, hret, hc.room, ?_, hc.ans⟩
    · exact congrArg (List.drop a.sig.ins.length) hargs
    · rw [← hc.vm]
      rfl

/-- What `B_RET` takes off the storage buffer is what the direct semantics compares. -/
theorem Returning.pop (h : Returning P env allocs st a n o s d) (hstart : VM.returnSize ≤ a.start) :
    ∃ vm, s.vm.popReturn = some (s.vm.savedReturn (a.start - VM.returnSize), vm) ∧
      vm.storage = { s.vm.storage with len := a.start - VM.returnSize } ∧ vm.params = s.vm.params ∧
      vm.crash = s.vm.crash ∧ ∀ frame, Direct.leave a.env.func frame d.vm =
        if s.vm.savedReturn (a.start - VM.returnSize) = frame then some vm.bare else none := by
  have hlen : s.vm.storage.len = a.start := h.state.storage
  have hpop : s.vm.popReturn = some (s.vm.savedReturn (a.start - VM.returnSize),
      { s.vm with storage := { s.vm.storage with len := a.start - VM.returnSize } }) := by
    rw [VM.popReturn, hlen, if_neg (Nat.not_lt.mpr hstart)]
  refine ⟨_, hpop, rfl, rfl, rfl, fun frame => ?_⟩
  have hbare := VM.popReturn_bare s.vm
  rw [h.vm, hpop] at hbare
  have hdirect : VM.popReturn { d.vm with params := d.vm.params.drop a.env.func.sig.ins.length } = _ :=
    hbare
  rw [Direct.leave, hdirect]
  rfl

/-! ## Calls -/

/-- The activation `a` has called `a'` in the state `s`, with the temporaries `ps`. -/
structure Called (P : Program) (a a' : Act) (ps : List Nat) (s : State) (pc : Nat) : Prop where
  ok : a.Ok P
  ok' : a'.Ok P
  inside : 0 < a.base
  calls : Calls ps s a'

theorem Called.ins_le {pc : Nat} (h : Called P a a' ps s pc) : a'.sig.ins.length ≤ ps.length := by
  have hcount := h.calls.count
  rw [Sig.argc] at hcount
  omega

/-- The caller goes on when the callee has ended. -/
theorem back_tracks (h : Called P a a' ps s o) (hc : Corresponds a (Γ.inside o ps) s d)
    {size oe : Nat} (hend : EndAt (a'.image P env.code) oe a'.sig.ins.length)
    (hins : a'.sig.ins.length < 2 ^ 32) (hk : k ≤ k' + 1) {out : Outcome Direct.State}
    (hout : Tracks env allocs st a' {} (n + 1) k' (Lands a' {} r oe) out) :
    Tracks env allocs st a Γ n k (Corresponds a (Γ.inside (o + size) (ps.drop a'.sig.ins.length)))
      ((Direct.Host.back d a'.env.func ⟨a.base + (o + size), s.base, s.paramBase⟩ out).outcome
        .normal) := by
  have hlen : s.vm.storage.len = a.start + frameOf a.types Γ.slots := hc.state.storage
  have hstart := h.calls.start
  obtain ⟨temps, htemps, hparams⟩ := hc.params
  have htemps : temps.length = ps.length := htemps
  have hins' := h.ins_le
  cases hout with
  -- the callee came to its end: its inputs are dropped and `B_RET` reads the saved frame
  | @normal m s₁ d₁ hle harrives hlands =>
      have hargs : a'.sig.ins.length ≤ a'.args.length := by
        have hroom := h.ok'.room
        rw [Sig.argc] at hroom
        omega
      obtain ⟨m₂, o₂, s₂, hm₂, hleaves⟩ := end_reached hend hins hargs harrives hlands.2
      obtain ⟨vm, hpop, hstorage, hvmparams, hvmcrash, hleave⟩ := hleaves.pop (by omega)
      rw [Direct.Host.back, hleave]
      -- the direct semantics halts where the saved frame is no longer the one of the call
      by_cases hframe : s₂.vm.savedReturn (a'.start - VM.returnSize) =
          ⟨a.base + (o + size), s.base, s.paramBase⟩
      · rw [if_pos hframe]
        have hfetch := fetch_of_instrAt (p := { pc := o₂, slots := [] }) hleaves.code hleaves.state.pc
        rw [hframe] at hpop
        have hexec : exec env (allocs m₂) { s₂ with pc := a'.base + (o₂ + Instr.ret.size) } .ret =
            .next { s₂ with
              vm := vm, pc := a.base + (o + size), base := s.base, paramBase := s.paramBase } := by
          simp only [exec, hpop]
          rw [if_neg (by have := h.inside; omega)]
        refine .normal (by omega) (hleaves.arrives.next hfetch hexec rfl) ?_
        have hvmlen : vm.storage.len = s.vm.storage.len := by
          rw [hstorage]
          show a'.start - VM.returnSize = _
          omega
        refine ⟨⟨rfl, hc.state.base, hc.state.paramBase, hvmlen.trans hc.state.storage, ?_, ?_⟩, rfl, ?_,
          rfl, hleaves.ans, hc.slots, ?_, hlands.2.trouble⟩
        · refine ⟨temps.drop a'.sig.ins.length, by simp [Ctx.inside, htemps], ?_⟩
          obtain ⟨rest, hrest, hdropped⟩ := hleaves.state.params
          obtain rfl := List.eq_nil_of_length_eq_zero hrest
          show vm.params = _
          rw [hvmparams, hdropped]
          show a'.args.drop a'.sig.ins.length = _ ++ a.args
          rw [h.calls.args, hparams]
          exact List.drop_append_of_le_length (by omega)
        · show vm.crash = _
          rw [hvmcrash, hleaves.state.crash]
          show a'.crash = _
          rw [h.calls.crash, hc.state.crash]
          rfl
        · have hroom : s₂.vm.storage.len ≤ s₂.vm.storage.cap := hleaves.room
          have hlen₂ : s₂.vm.storage.len = a'.start := hleaves.state.storage
          show vm.storage.len ≤ vm.storage.cap
          rw [hstorage]
          show a'.start - VM.returnSize ≤ s₂.vm.storage.cap
          omega
        · show d.temps.drop _ = _
          rw [hc.temps]
          rfl
      · rw [if_neg hframe]
        exact .overwritten rfl
  | brk _ _ hscope => cases hscope
  -- a crash of the callee is one of the caller, whose operands are all still there
  | @crash m s₁ d₁ hlt hfails =>
      have hup : a.start + frameOf a.types Γ.slots ≤ a'.start := by omega
      obtain ⟨rest, hrest⟩ := hfails.params
      refine .crash (by omega) ⟨hfails.run, hfails.asks, hfails.room, hfails.vm, hfails.ans,
        hfails.cause, ?_, Nat.le_trans hup (Nat.le_trans (Nat.le_add_right _ _) hfails.storage),
        ⟨rest ++ temps, ?_⟩, hfails.trouble⟩
      · rw [hfails.crash]
        show a'.crash = _
        rw [h.calls.crash, hc.state.crash]
        rfl
      · rw [hrest, h.calls.args, hparams, List.append_assoc]
  | halt hlt hrun hvm htrouble => exact .halt (by omega) hrun hvm htrouble
  | overwritten htrouble => exact .overwritten htrouble
  | timeout hle hrun => exact .timeout (by omega) hrun

variable (P env allocs H st) in
/-- Callees do on the machine what `run` says. -/
def CalleesMean (run : Direct.Activation → Direct.State → Outcome Direct.State) (k : Nat) : Prop :=
  ∀ a : Act, a.Ok P → FuncCode a.env (a.image P env.code) → ∀ r o,
    CodeBlock a.env (a.image P env.code) {} (.node 0) 0 r o →
    Means env allocs st a {} k 0 r o (run a.activation)

section Exec

variable {al : Alloc} {target : UInt64} {argc : UInt32} (htarget : target ≠ 0)
  (hcount : argc.toNat ≤ s.vm.params.length)

include htarget hcount

theorem exec_call_none (hpush : s.vm.pushReturn al ⟨s.pc, s.base, s.paramBase⟩ = none) :
    exec env al s (.call target argc) = .fail s .oomStorage := by
  simp only [exec, hpush, if_neg htarget, if_neg (Nat.not_lt.mpr hcount)]

theorem exec_call_some {vm : VM} (hpush : s.vm.pushReturn al ⟨s.pc, s.base, s.paramBase⟩ = some vm) :
    exec env al s (.call target argc) = .next { s with
      vm := vm
      pc := target.toNat
      base := target.toNat
      paramBase := vm.params.length - argc.toNat } := by
  simp only [exec, hpush, if_neg htarget, if_neg (Nat.not_lt.mpr hcount)]

end Exec

/-- Calls do as they mean, if callees do. -/
theorem call_tracks (journey : Journey P env allocs H st) (hok : a.Ok P)
    {run : Direct.Activation → Direct.State → Outcome Direct.State}
    (hcallees : CalleesMean P env allocs st run k') (hk : k ≤ k' + 1) :
    CallsTrack P env allocs H st a run k := by
  intro Γ n o op ps ps' target argc s d hΓ hinstr hat harrives hc
  have hfetch : fetch env.code s.pc =
      some (.call target argc, a.base + (o + (Instr.call target argc).size)) :=
    fetch_of_instrAt (p := Γ.inside o ps) hat hc.state.pc
  -- the direct semantics asks for the same storage and links the same return address
  have halloc : H.alloc d.asks = allocs n :=
    harrives.asks ▸ journey.alloc harrives.run hfetch rfl
  have hlink := journey.link harrives.run hfetch rfl
  rw [harrives.asks] at hlink
  obtain ⟨temps, hlen, hparams⟩ := hc.params
  have hlen : temps.length = ps.length := hlen
  cases hinstr with
  | @call x _ f hready hf hargc hcount htypes =>
      obtain ⟨bytes, hbytes⟩ : P.table.Has x.toNat := hready
      rw [hok.ctx] at hf
      rw [hok.place] at hfetch hlink ⊢
      have hhas : P.Has (P.place x.toNat).toNat f bytes := .callee hf hbytes
      obtain ⟨e, rfl, hectx, heplace, hcode⟩ :=
        Program.code_of journey.accepted journey.loaded journey.short hhas
      obtain ⟨hpos, -⟩ := journey.loaded.inside _ _ _ hhas
      have htarget : P.place x.toNat ≠ 0 := by
        intro hzero
        rw [hzero] at hpos
        exact absurd hpos (by decide)
      have hop : H.op (H.typed a.env.func) a.activation run ⟨.call, x⟩ d = H.call run x.toNat d := rfl
      have htakes : Direct.Host.takes d.temps e.func.sig := by
        rw [hc.temps]
        exact ⟨hcount, htypes⟩
      -- the direct state is the machine's but for the crash stack
      have hbare : d.vm.pushReturn (allocs n) (H.link d.asks) =
          (s.vm.pushReturn (allocs n) (H.link d.asks)).map VM.bare := by
        rw [← hc.vm]
        exact VM.pushReturn_bare s.vm _ _
      have henough : e.func.sig.argc ≤ s.vm.params.length := by
        rw [hparams, List.length_append]
        omega
      have hcounted : (UInt32.ofNat e.func.sig.argc).toNat ≤ s.vm.params.length := by
        rw [toNat_ofNat_uint32 hargc]
        exact henough
      rw [hop, Direct.Host.call, journey.ctx, hf]
      simp only [if_neg (not_not.mpr htakes), halloc, hbare]
      cases hpush : s.vm.pushReturn (allocs n) (H.link d.asks) with
      | none =>
          rw [hlink] at hpush
          exact .fail harrives hfetch (exec_call_none htarget hcounted hpush) hc rfl rfl rfl hc.room rfl
            ⟨temps, hparams⟩ rfl (by decide) hc.vm rfl rfl rfl
      | some vm =>
          have hreturns := VM.pushReturn_returns hpush
          obtain ⟨m, hm⟩ : ∃ m : State, m = { s with
              pc := a.base + (o + (Instr.call (P.place x.toNat) (UInt32.ofNat e.func.sig.argc)).size) } :=
            ⟨_, rfl⟩
          have hmpush : m.vm.pushReturn (allocs n) ⟨m.pc, m.base, m.paramBase⟩ = some vm := by
            rw [← hpush, hlink, hm]
          have hmcounted : (UInt32.ofNat e.func.sig.argc).toNat ≤ m.vm.params.length := by
            rw [hm]
            exact hcounted
          have hexec : exec env (allocs n) m _ = _ := exec_call_some htarget hmcounted hmpush
          rw [hm] at hexec
          -- the activation of the callee
          let a' : Act := {
            env := e
            bytes := bytes
            base := (P.place x.toNat).toNat
            start := s.vm.storage.len + VM.returnSize
            args := s.vm.params
            paramBase := s.vm.params.length - e.func.sig.argc
            crash := s.vm.crash }
          have hroom : s.vm.params.length - e.func.sig.argc + e.func.sig.argc = s.vm.params.length :=
            Nat.sub_add_cancel henough
          have hok' : a'.Ok P := ⟨hhas, hectx, heplace, Nat.le_of_eq hroom⟩
          have hcalled : Called P a a' ps s o :=
            ⟨hok, hok', (journey.loaded.inside _ _ _ hok.has).1, rfl, rfl, hroom, rfl, hcount, htypes⟩
          have hactivation : (⟨e.func, vm.bare.storage.len, d.vm.params.length - e.func.sig.argc⟩ :
              Direct.Activation) = a'.activation := by
            rw [hc.params_eq]
            show (⟨e.func, vm.storage.len, s.vm.params.length - e.func.sig.argc⟩ :
              Direct.Activation) = _
            rw [hreturns.len]
            rfl
          obtain ⟨r, oe, hbody, hend⟩ := hcode.body
          simp only [Option.map_some, hactivation]
          rw [hlink]
          refine back_tracks (r := r) hcalled hc hend hcode.ins hk ?_
          refine hcallees a' hok' hcode r oe hbody _ _ _ (harrives.next hfetch hexec rfl) ?_
          refine ⟨⟨rfl, rfl, ?_, hreturns.len, ⟨[], rfl, hreturns.params⟩, hreturns.crash⟩, rfl,
            VM.pushReturn_roomy hpush, rfl, hc.ans, rfl, rfl, hc.trouble⟩
          show vm.params.length - (UInt32.ofNat e.func.sig.argc).toNat = _
          rw [hreturns.params, toNat_ofNat_uint32 hargc]

/-! ## Functions -/

theorem func_means (journey : Journey P env allocs H st) (depth : Nat) :
    CalleesMean P env allocs st
      (fun a d => (H.tree a.func).eval (H.machine depth a) depth d) depth := by
  induction depth with
  | zero =>
      have hnever : CalleesMean P env allocs st (fun _ d => .timeout d) 0 :=
        fun _ _ _ _ _ _ n _ _ harrives _ => .timeout (Nat.le_refl n) harrives.run
      intro a hok hcode r o hblock
      have hcalls : CallsTrack P env allocs H st a (fun _ d => .timeout d) 0 :=
        call_tracks journey hok hnever (Nat.zero_le 1)
      exact block_means journey hcode.types hok.ctx hcalls (journey.trees hok.has) hblock
        (Ctx.nested_empty _)
  | succ depth ih =>
      intro a hok hcode r o hblock
      have hcalls : CallsTrack P env allocs H st a
          (fun a d => (H.tree a.func).eval (H.machine depth a) depth d) (depth + 1) :=
        call_tracks journey hok ih (Nat.le_refl (depth + 1))
      exact block_means journey hcode.types hok.ctx hcalls (journey.trees hok.has) hblock
        (Ctx.nested_empty _)

/-! ## Runs -/

/-- How the direct semantics ends with the bound `depth`, the machine does; where it does not end, the
machine goes on for `depth` rounds. -/
inductive Results (env : Env) (allocs : Nat → Alloc) (st : Status) (depth : Nat) :
    Option Direct.Finish → Prop
  | ends {m : Nat} {result : VmResult} {vm : VM} : run env allocs m st = .done result vm →
      Results env allocs st depth (some (.ends result vm.bare))
  | overwritten : Results env allocs st depth (some (.trouble .overwritten))
  | goes {m : Nat} {s : State} : depth ≤ m → run env allocs m st = .running s →
      Results env allocs st depth none

theorem finish_results (journey : Journey P env allocs H st) (hok : a.Ok P)
    (hcode : FuncCode a.env (a.image P env.code)) (hstart : VM.returnSize ≤ a.start)
    (hcrash : a.crash = []) (depth : Nat) (harrives : Arrives env allocs st 0 s d)
    (hc : Corresponds a (({} : Ctx).point 0) s d) :
    Results env allocs st depth (Direct.finish a.env.func ⟨0, 0, 0⟩
      ((H.tree a.env.func).eval (H.machine depth a.activation) depth d)) := by
  obtain ⟨r, o, hbody, hend⟩ := hcode.body
  have htracks := func_means journey depth a hok hcode r o hbody 0 s d harrives hc
  have hfunc : a.activation.func = a.env.func := rfl
  beta_reduce at htracks
  rw [hfunc] at htracks
  generalize (H.tree a.env.func).eval (H.machine depth a.activation) depth d = out at htracks ⊢
  cases htracks with
  | @normal m s₁ d₁ hle harrives₁ hlands =>
      have hargs : a.sig.ins.length ≤ a.args.length := by
        have hroom := hok.room
        rw [Sig.argc] at hroom
        omega
      obtain ⟨m₂, o₂, s₂, -, hleaves⟩ := end_reached hend hcode.ins hargs harrives₁ hlands.2
      obtain ⟨vm, hpop, -, -, -, hleave⟩ := hleaves.pop hstart
      rw [Direct.finish, hleave]
      by_cases hframe : s₂.vm.savedReturn (a.start - VM.returnSize) = ⟨0, 0, 0⟩
      · rw [if_pos hframe]
        have hfetch := fetch_of_instrAt (p := { pc := o₂, slots := [] }) hleaves.code hleaves.state.pc
        rw [hframe] at hpop
        have hexec : exec env (allocs m₂) { s₂ with pc := a.base + (o₂ + Instr.ret.size) } .ret =
            .stop .ok vm := by
          simp only [exec, hpop]
          rfl
        refine .ends (m := m₂ + 1) ?_
        rw [hleaves.arrives.step hfetch, hexec, Exec.status]
      · rw [if_neg hframe]
        exact .overwritten
  | brk _ _ hscope => cases hscope
  | @crash m s₁ d₁ _ hfails =>
      have hrun := hfails.run
      have hnone : s₁.vm.crash = [] := by
        rw [hfails.crash, hcrash]
        rfl
      have hans : s₁.ans.first .crashUnderflow = d₁.ans := by
        rw [VmResult.first, if_neg hfails.cause, hfails.ans]
      have hbare : VM.bare { s₁.vm with crash := [] } = d₁.vm := by
        rw [← hfails.vm]
        rfl
      rw [hnone, unwind, hans] at hrun
      rw [Direct.finish, ← hbare]
      exact .ends hrun
  | @halt m vm d₁ _ hrun hvm htrouble =>
      rw [Direct.finish, htrouble, ← hvm]
      exact .ends hrun
  | @overwritten d₁ htrouble =>
      rw [Direct.finish, htrouble]
      exact .overwritten
  | timeout hle hrun => exact .goes (by omega) hrun

/-- The run of a program from a VM, and the meaning of its functions, whose trees are `tree`.
* How the direct semantics ends, with any bound on the depth of calls and on the rounds of loops, the
  run ends, with the same VM but for the crash stack, unless a division ends the process before.
* How the run ends, the direct semantics does with every larger bound, unless the program has stored
  into one of its return frames.
* The direct semantics meets no type error. -/
structure RunMeans (P : Program) (env : Env) (allocs : Nat → Alloc) (al : Alloc) (vm : VM)
    (tree : Func → Tree) : Prop where
  ends : ∀ depth r vm',
    (hostOf env allocs (enter al vm P.start.toNat) P tree).result al P.func depth vm =
      some (.ends r vm') →
    ∃ n, Survives env allocs n (enter al vm P.start.toNat) ∧
      ((∃ s, run env allocs n (enter al vm P.start.toNat) = .running s ∧ s.Traps env) ∨
        ∃ vm₁, run env allocs n (enter al vm P.start.toNat) = .done r vm₁ ∧ vm₁.bare = vm')
  ended : ∀ n r vm₁, Survives env allocs n (enter al vm P.start.toNat) →
    run env allocs n (enter al vm P.start.toNat) = .done r vm₁ → ∀ depth, n ≤ depth →
    (hostOf env allocs (enter al vm P.start.toNat) P tree).result al P.func depth vm =
        some (.ends r vm₁.bare) ∨
      (hostOf env allocs (enter al vm P.start.toNat) P tree).result al P.func depth vm =
        some (.trouble .overwritten)
  typed : ∀ depth, (hostOf env allocs (enter al vm P.start.toNat) P tree).result al P.func depth vm ≠
    some (.trouble .illTyped)

theorem RunMeans.of_results {vm : VM} {al : Alloc} {tree : Func → Tree}
    (hall : ∀ depth, Results env allocs (enter al vm P.start.toNat) depth
      ((hostOf env allocs (enter al vm P.start.toNat) P tree).result al P.func depth vm)) :
    RunMeans P env allocs al vm tree := by
  constructor
  case ends =>
    intro depth r vm' hresult
    have hends := hall depth
    rw [hresult] at hends
    cases hends with
    | @ends m _ _ hrun =>
        rcases survives_or_traps env allocs m (enter al vm P.start.toNat) with
          hsurvives | ⟨n, s, -, hsurvives, htrapped⟩
        · exact ⟨m, hsurvives, .inr ⟨_, hrun, rfl⟩⟩
        · exact ⟨n, hsurvives, .inl ⟨s, htrapped⟩⟩
  case ended =>
    intro n r vm₁ _ hrun depth hdepth
    have hends := hall depth
    generalize (hostOf env allocs (enter al vm P.start.toNat) P tree).result al P.func depth vm =
      result at hends ⊢
    cases hends with
    | @ends m r₂ vm₂ hrun₂ =>
        -- a run ends once
        have hsame : run env allocs (max n m) (enter al vm P.start.toNat) = .done r vm₁ :=
          run_ended (Nat.le_max_left n m) hrun
        rw [run_ended (Nat.le_max_right n m) hrun₂] at hsame
        cases hsame
        exact .inl rfl
    | overwritten => exact .inr rfl
    | @goes m s hle hrunning =>
        rw [run_ended (Nat.le_trans hdepth hle) hrun] at hrunning
        cases hrunning
  case typed =>
    intro depth hresult
    have hends := hall depth
    rw [hresult] at hends
    cases hends

section Main

variable {vm : VM} {al : Alloc} {tree : Func → Tree} (haccepted : P.Accepted)
  (hloaded : P.Loaded env.code) (hshort : P.Short) (hkeeps : NativesKeep env)
  (hblind : NativesBlind env) (hroomy : NativesRoomy env) (hanswers : ∀ n, (allocs n).crash = true)
  (hcrash : vm.crash = []) (hargs : P.func.sig.argc ≤ vm.params.length)
  (htrees : ∀ {base f bytes}, P.Has base f bytes → RepresentsTree f.blocks (tree f))

include haccepted hloaded hshort hkeeps hblind hroomy hanswers hcrash hargs htrees

theorem result_results (depth : Nat) :
    Results env allocs (enter al vm P.start.toNat) depth
      ((hostOf env allocs (enter al vm P.start.toNat) P tree).result al P.func depth vm) := by
  have journey : Journey P env allocs (hostOf env allocs (enter al vm P.start.toNat) P tree)
      (enter al vm P.start.toNat) :=
    ⟨haccepted, hloaded, hshort, hkeeps, hblind, hroomy, rfl, rfl, hanswers, htrees, hostOf_alloc,
      hostOf_link⟩
  obtain ⟨e, hfunc, hctx, hplace, hcode⟩ := Program.code_of haccepted hloaded hshort .main
  let a : Act := {
    env := e
    bytes := P.code
    base := P.start.toNat
    start := vm.storage.len + VM.returnSize
    args := vm.params
    paramBase := 0
    crash := vm.crash }
  have hbare := VM.pushReturn_bare vm al ⟨0, 0, 0⟩
  rw [Direct.Host.result, hbare]
  cases hpush : vm.pushReturn al ⟨0, 0, 0⟩ with
  | none =>
      refine .ends (m := 0) ?_
      rw [run, TreeVM.enter, hpush]
  | some vm₁ =>
      have hreturns := VM.pushReturn_returns hpush
      have hok : a.Ok P := by
        refine ⟨?_, hctx, hplace, ?_⟩
        · show P.Has P.start.toNat e.func P.code
          rw [hfunc]
          exact .main
        · show 0 + e.func.sig.argc ≤ vm.params.length
          rw [hfunc, Nat.zero_add]
          exact hargs
      have hrun : run env allocs 0 (TreeVM.enter al vm P.start.toNat) =
          .running { vm := vm₁, pc := P.start.toNat, base := P.start.toNat, paramBase := 0, ans := .ok } := by
        rw [run, TreeVM.enter, hpush]
      have hresults := finish_results (a := a) (d := { vm := vm₁.bare }) journey hok
        (by rw [← hfunc] at hcode; exact hcode) (Nat.le_add_left _ _) hcrash depth
        ⟨hrun, Nat.count_zero _⟩
        ⟨⟨rfl, rfl, rfl, hreturns.len, ⟨[], rfl, hreturns.params⟩, hreturns.crash⟩, rfl,
          VM.pushReturn_roomy hpush, rfl, rfl, rfl, rfl, rfl⟩
      have hactivation : (⟨P.func, vm₁.storage.len, 0⟩ : Direct.Activation) = a.activation := by
        rw [hreturns.len, ← hfunc]
        rfl
      simp only [Option.map_some]
      show Results _ _ _ _ (Direct.finish P.func ⟨0, 0, 0⟩ (Tree.eval _ _ _ _))
      rw [show vm₁.bare.storage.len = vm₁.storage.len from rfl, hactivation, ← hfunc]
      exact hresults

end Main

end Compiled

/-! ## A crash in a handler, run -/

theorem Program.env_blind (P : Program) : NativesBlind P.env :=
  fun _ _ => ⟨rfl, rfl⟩

theorem Program.env_roomy (P : Program) : NativesRoomy P.env :=
  fun _ _ h => h

end TreeVM
