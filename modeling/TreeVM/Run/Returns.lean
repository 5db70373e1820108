import TreeVM.Run.Balance

/-!
# Balance of the stacks

* `KeepsBalance`: what one round of compiled code never does, and what returns restore;
* `run_keepsBalance`: every round of a run whose stores stay away from the return frames;
* `danglingSlice_unbalances`: a store through a slice of a dead local reaches a return frame, and
  the run ends too early.
-/

namespace TreeVM

/-- The calls and returns of one round are balanced, and `vm_run` raises no internal error. -/
structure KeepsBalance (P : Program) (env : Env) (vm : VM) (al : Alloc) (c : Config) : Prop where
  decodes : ∃ i pc, fetch env.code c.state.pc = some (i, pc)
  stops : ∀ i pc r vm', fetch env.code c.state.pc = some (i, pc) →
    exec env al (c.fetched pc) i = .stop r vm' → ¬ r.Internal
  fails : ∀ i pc s cause, fetch env.code c.state.pc = some (i, pc) →
    exec env al (c.fetched pc) i = .fail s cause → cause.Internal →
      (∃ argc, i = .callNative argc) ∧ NativeReturns env (c.fetched pc) cause
  /-- unwinding resumes a pad of the run, or ends with the first cause if there is none -/
  unwinds : ∀ i pc s cause, fetch env.code c.state.pc = some (i, pc) →
    exec env al (c.fetched pc) i = .fail s cause →
      (c.pads ≠ [] → ∃ s', (Exec.fail s cause).status = .running s' ∧
        s'.ans = c.state.ans.first cause) ∧
      (c.pads = [] → vm.crash = [] →
        ∃ vm', (Exec.fail s cause).status = .done (c.state.ans.first cause) vm')
  returns : ∀ pc s', fetch env.code c.state.pc = some (.ret, pc) →
    exec env al (c.fetched pc) .ret = .next s' → ∃ t f bytes, c.calls = t :: c.calls.tail ∧
      P.Has c.state.base f bytes ∧ BackTo f.sig.ins.length s' t
  ends : ∀ vm', step env al c.state = .done .ok vm' →
    EndsBalanced P.func.sig.ins.length vm vm'

theorem VmResult.first_ne_ok (ans : VmResult) {cause : VmResult} (h : cause ≠ .ok) : ans.first cause ≠ .ok := by
  rw [first]
  split
  · exact h
  · assumption

/-- The loop at the label `crash` does not forget the first cause. -/
theorem unwind_done {s : State} {frames : List CrashFrame} (hans : s.ans ≠ .ok) {r : VmResult}
    {vm : VM} (h : unwind s frames = .done r vm) : r = s.ans := by
  have hfirst : ∀ q, s.ans.first q = s.ans := fun q => if_neg hans
  induction frames generalizing s with
  | nil =>
      rw [unwind] at h
      cases h
      exact hfirst _
  | cons f rest ih =>
      rw [unwind] at h
      split at h
      · simp only [hfirst] at h
        split at h
        · cases h
          rfl
        · exact ih hans h hfirst
      · cases h

section Balance

variable {P : Program} {env : Env} {strict : Prop} {vm : VM} {c : Config} {a : Act} {p : Point}
  {levels : List (Act × Point)}

/-- `B_RET` is either the end of the run or goes back to the caller. -/
theorem Balanced.ret (hR : P.Ready env strict) (h : Balanced P env strict vm c a p levels) {pc : Nat}
    (hfetch : fetch env.code c.state.pc = some (.ret, pc)) (al : Alloc) :
    RetOutcome P env strict vm c a levels (c.fetched pc) (exec env al (c.fetched pc) .ret) := by
  obtain ⟨i, q, hfetch', hmove⟩ := move_of_stateAt hR.accepted hR.loaded hR.short hR.keeps
    hR.natives h.world.ok h.stands.point h.stands.state al
  rw [hfetch] at hfetch'
  obtain ⟨rfl, rfl⟩ := Prod.mk.inj (Option.some.inj hfetch')
  generalize hexec : exec env al (c.fetched pc) .ret = e at hmove
  cases hmove with
  | op _ _ _ hquiet => exact hquiet.elim
  | goes hquiet => exact hquiet.elim
  | ret hpads _ hlen hparams hcrash =>
      rw [← hexec]
      exact h.returns hR.loaded hpads (s := c.fetched pc) rfl hlen hparams hcrash al
  | fail =>
      simp only [exec] at hexec
      split at hexec
      · cases hexec
      · split at hexec <;> cases hexec
  | hardCrash hi => rcases hi with hi | ⟨⟨_, hi⟩, -⟩ <;> cases hi

/-- A crash keeps the stacks, and has a cause; only natives can give an internal one. -/
structure Crashed (env : Env) (c : Config) (a : Act) (i : Instr) (pc : Nat) (s : State)
    (cause : VmResult) : Prop where
  storage : s.vm.storage.len = c.state.vm.storage.len
  crash : s.vm.crash = c.state.vm.crash
  params : ∃ temps, s.vm.params = temps ++ a.args
  ans : s.ans = c.state.ans
  ne_ok : cause ≠ .ok
  internal : cause.Internal → (∃ argc, i = .callNative argc) ∧
    NativeReturns env (c.fetched pc) cause

theorem Balanced.crashed (hR : P.Ready env strict) (h : Balanced P env strict vm c a p levels)
    {al : Alloc} {i : Instr} {pc : Nat} (hfetch : fetch env.code c.state.pc = some (i, pc))
    {s : State} {cause : VmResult} (hexec : exec env al (c.fetched pc) i = .fail s cause) :
    Crashed env c a i pc s cause := by
  obtain ⟨j, q, hfetch', hmove⟩ := move_of_stateAt hR.accepted hR.loaded hR.short hR.keeps
    hR.natives h.world.ok h.stands.point h.stands.state al
  rw [hfetch] at hfetch'
  obtain ⟨rfl, rfl⟩ := Prod.mk.inj (Option.some.inj hfetch')
  change Move P env strict a p (c.fetched pc) i (exec env al (c.fetched pc) i) at hmove
  rw [hexec] at hmove
  cases hmove with
  | ret =>
      have hret := h.ret hR hfetch al
      rw [hexec] at hret
      cases hret
  | fail _ hlen hcrash hparams hans hne hinternal =>
      exact ⟨hlen, hcrash, hparams, hans, hne, hinternal⟩

theorem Balanced.keepsBalance (hR : P.Ready env strict) (hargs : P.ArgsInRange)
    (h : Balanced P env strict vm c a p levels) (al : Alloc) : KeepsBalance P env vm al c := by
  obtain ⟨i, pc, hfetch, hmove⟩ := move_of_stateAt hR.accepted hR.loaded hR.short hR.keeps hR.natives
    h.world.ok h.stands.point h.stands.state al
  have hsame : ∀ {j q}, fetch env.code c.state.pc = some (j, q) → j = i ∧ q = pc := by
    intro j q hj
    rw [hfetch] at hj
    obtain ⟨rfl, rfl⟩ := Prod.mk.inj (Option.some.inj hj)
    exact ⟨rfl, rfl⟩
  refine ⟨⟨i, pc, hfetch⟩, ?_, ?_, ?_, ?_, ?_⟩
  · intro j q r vm' hj hexec
    obtain ⟨rfl, rfl⟩ := hsame hj
    rw [hexec] at hmove
    cases hmove with
    | ret =>
        have hret := h.ret hR hfetch al
        rw [hexec] at hret
        cases hret
        exact id
    | hardCrash => exact id
    | nullGlobal => exact id
    | invalidArg hop hkind hle =>
        exact absurd (hargs _ _ _ h.world.ok.has _ hop hkind) (Nat.not_lt.mpr hle)
    | nullNative => exact id
  · exact fun j q s cause hj hexec => (h.crashed hR hj hexec).internal
  · intro j q s cause hj hexec
    obtain ⟨hlen, hcrash, hparams, hans, hne, -⟩ := h.crashed hR hj hexec
    rw [← hans]
    rcases h.caught (c := c) hlen hcrash hparams with ⟨hnone, hframes⟩ |
      ⟨_, _, _, _, _, _, s', hinner, hrun, -, hans', -⟩
    · refine ⟨fun hpads => absurd hnone hpads, fun _ hvm => ?_⟩
      rw [Exec.status, hframes, hvm, unwind]
      have hfirst : (s.ans.first cause).first .crashUnderflow = s.ans.first cause :=
        if_neg (VmResult.first_ne_ok _ hne)
      exact ⟨_, by rw [hfirst]⟩
    · refine ⟨fun _ => ⟨s', hrun, hans'⟩, fun hnone => ?_⟩
      rw [hinner.installed] at hnone
      cases hnone
  · intro q s' hj hexec
    have hret := h.ret hR hj al
    rw [hexec] at hret
    cases hret with
    | back _ hcalls _ _ _ hback =>
        refine ⟨_, _, a.bytes, ?_, ?_, hback⟩
        · rw [hcalls]
          rfl
        · rw [h.stands.state.base]
          exact h.world.ok.has
  · intro vm' hstep
    rw [step_fetched hfetch] at hstep
    generalize hexec : exec env al (c.fetched pc) i = e at hstep hmove
    cases e with
    | next s => cases hstep
    | fail s cause =>
        have hne := (h.crashed hR hfetch hexec).ne_ok
        exact absurd (unwind_done (VmResult.first_ne_ok _ hne) hstep).symm (VmResult.first_ne_ok _ hne)
    | stop r vm'' =>
        cases hstep
        cases hmove with
        | ret =>
            have hret := h.ret hR hfetch al
            rw [hexec] at hret
            cases hret with
            | out _ _ _ hends => exact hends

end Balance

/-- Compiled code keeps the VM balanced: every round of every run from a VM that holds the
arguments, as long as no store reaches a return frame. -/
theorem run_keepsBalance (P : Program) (env : Env) (vm : VM) (haccepted : P.Accepted)
    (hloaded : P.Loaded env.code) (hshort : P.Short) (hargs : P.ArgsInRange)
    (hnatives : NativesKeep env) (hcount : P.func.sig.argc ≤ vm.params.length) {al : Alloc}
    {c c' : Config} (hstarts : Starts al vm P.start.toNat c)
    (hrun : Leads env (Contained env vm.storage.len) c c') (al' : Alloc) :
    KeepsBalance P env vm al' c' := by
  have hR : P.Ready env False := ⟨haccepted, hloaded, hshort, False.elim, hnatives⟩
  obtain ⟨a, p, h⟩ := balanced_of_starts hR hstarts hcount
  obtain ⟨a', p', levels', h'⟩ := balanced_of_leads hR (fun _ _ hgood => hgood) h hrun
  exact h'.keepsBalance hR hargs al'

/-! ## A slice of a local that is gone -/

/-- What a program needs to run, checked by evaluation. -/
def Program.check (P : Program) (code : Nat → UInt8) : Bool :=
  P.entries.all fun e =>
    decide (At code e.1 e.2.2) && decide (0 < e.1) && decide (e.1 + e.2.2.length < 2 ^ 64) &&
      decide (e.2.2.length ≤ 65535) &&
      e.2.1.ops.all fun op => op.kind ≠ .pushArg ∨ op.extra.toNat < e.2.1.sig.argc

theorem Program.ready_of_check (P : Program) (code : Nat → UInt8) (h : P.check code = true) :
    P.Loaded code ∧ P.Short ∧ P.ArgsInRange := by
  have hall : ∀ e ∈ P.entries, ((At code e.1 e.2.2 ∧ 0 < e.1) ∧ e.1 + e.2.2.length < 2 ^ 64) ∧
      e.2.2.length ≤ 65535 ∧ ∀ op ∈ e.2.1.ops, op.kind ≠ .pushArg ∨ op.extra.toNat < e.2.1.sig.argc := by
    intro e he
    have hcheck := List.all_eq_true.mp h e he
    simp only [Bool.and_eq_true, decide_eq_true_eq, List.all_eq_true, and_assoc] at hcheck ⊢
    exact hcheck
  refine ⟨Program.loaded_of_entries fun e he => ?_, Program.short_of_entries fun e he => ?_, ?_⟩
  · obtain ⟨⟨⟨hat, hpos⟩, hinside⟩, -⟩ := hall e he
    exact ⟨hat, hpos, hinside⟩
  · exact (hall e he).2.1
  · intro base f bytes hhas op hop hkind
    exact ((hall _ (Program.mem_entries hhas)).2.2 op hop).resolve_left fun hne => hne hkind

/-- Int, byte and slices of int. -/
def sliceTypes : List Ty :=
  [⟨.int, false, 0, 0, 0⟩, ⟨.byte, false, 0, 0, 0⟩, ⟨.slice 0, false, 0, 0, 0⟩]

/-- Sets the first element of its argument to zero, which is also the value of its local. -/
def clearFirst : Func where
  sig := ⟨[⟨2, false⟩], []⟩
  types := sliceTypes
  blocks := [.var 1 1, .basic ⟨0, 5⟩]
  ops := [⟨.pushArg, 0⟩, ⟨.pushVar, 1⟩, ⟨.sliceAt, 0⟩, ⟨.pushVar, 1⟩, ⟨.assign, 0⟩]
  vars := [2, 0]

/-- Takes a slice of a local, leaves the local and calls `clearFirst`: the slice now points to the
return frame of the call. -/
def danglingSlice : Func where
  sig := ⟨[], []⟩
  types := sliceTypes
  blocks := [.var 0 1, .many (some 2) (some 4), .var 1 3, .basic ⟨0, 3⟩, .chain (some 5) none,
    .basic ⟨3, 2⟩]
  ops := [⟨.pushVar, 0⟩, ⟨.pushVar, 1⟩, ⟨.sliceFromOne, 0⟩, ⟨.pushVar, 0⟩, ⟨.call, 0⟩]
  vars := [2, 0]

/-- Calls `clearFirst` while the local is there. -/
def livingSlice : Func where
  sig := ⟨[], []⟩
  types := sliceTypes
  blocks := [.var 0 1, .var 1 2, .basic ⟨0, 5⟩]
  ops := [⟨.pushVar, 0⟩, ⟨.pushVar, 1⟩, ⟨.sliceFromOne, 0⟩, ⟨.call, 0⟩, ⟨.null, 0⟩]
  vars := [2, 0]

/-- The code of a program, and natives that do nothing. -/
def Program.env (P : Program) : Env :=
  ⟨P.memory, fun _ vm => (.ok, vm)⟩

theorem Program.env_natives (P : Program) : NativesKeep P.env :=
  fun _ _ _ => ⟨rfl, rfl, rfl⟩

/-- An empty VM with a storage buffer of 1024 bytes. -/
def freshVM : VM where
  mem _ := 0
  storage := ⟨1000, 0, 1024⟩
  params := []
  paramCap := 0
  crash := []
  crashCap := 0

/-- `B_RET` of the callee finds a zero in its return frame and ends the run: the local of the
caller is left on the storage buffer. -/
theorem danglingSlice_unbalances : ¬ ∀ (P : Program) (env : Env) (vm : VM), P.Accepted →
    P.Loaded env.code → P.Short → P.ArgsInRange → NativesKeep env →
    P.func.sig.argc ≤ vm.params.length → ∀ al c c', Starts al vm P.start.toNat c →
    Leads env (fun _ _ => True) c c' → ∀ al', KeepsBalance P env vm al' c' := by
  intro hall
  let P := Program.assemble ⟨[clearFirst], []⟩ 10 danglingSlice
  obtain ⟨hloaded, hshort, hargs⟩ := Program.ready_of_check P P.env.code (by
    decide)
  obtain ⟨c, c', hstarts, hrun, hend⟩ := reached_of_check P.env freshVM 5000 18
    (fun _ c => (step P.env {} c.state).endsWith .ok fun vm => vm.storage.len == 40) (by decide)
  have hkeeps := hall P P.env freshVM (Program.assemble_accepted (by decide)) hloaded hshort
    hargs P.env_natives (Nat.zero_le _) {} c c' hstarts
    (leads_of_advances hrun fun _ _ _ _ => trivial) {}
  obtain ⟨vm, hstep, hlong⟩ := Status.endsWith_iff.mp hend
  have hlen : vm.storage.len = 0 := (hkeeps.ends vm hstep).storage
  rw [hlen] at hlong
  cases hlong

/-- With the local alive the same call and return are balanced. -/
theorem run_keepsBalance_livingSlice : ∃ (P : Program) (env : Env) (vm : VM) (c c' : Config),
    P.func = livingSlice ∧
    Starts {} vm P.start.toNat c ∧ c'.calls.length = 1 ∧ KeepsBalance P env vm {} c' := by
  let P := Program.assemble ⟨[clearFirst], []⟩ 10 livingSlice
  obtain ⟨hloaded, hshort, hargs⟩ := Program.ready_of_check P P.env.code (by
    decide)
  obtain ⟨c, c', hstarts, hrun, hend⟩ := reached_of_check P.env freshVM 5000 15
    (fun c c' => c'.calls.length == 1 &&
      (List.range 15).all fun k => (c.advances P.env k).all (Config.contained P.env 0))
    (by decide +kernel)
  rw [Bool.and_eq_true] at hend
  exact ⟨P, P.env, freshVM, c, c', rfl, hstarts, by simpa using hend.1,
    run_keepsBalance P P.env freshVM (Program.assemble_accepted (by decide)) hloaded hshort
      hargs P.env_natives (Nat.zero_le _) hstarts (leads_contained hrun hend.2) {}⟩

end TreeVM
