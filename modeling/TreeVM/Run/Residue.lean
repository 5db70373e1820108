import TreeVM.Frontend.Counters
import TreeVM.Run.Capacities
import TreeVM.Run.Returns
import Mathlib.Data.List.Induction

/-!
# Forms on one VM

`run_anonymous` runs the forms of the REPL one after the other on `repl.vm`.

* `CompiledForm`, `Attempt`: a form that was compiled, and what happens to a form;
* `Attempt.runAnonymous`, `runForms`: the VM behind one form, and behind one form after the other;
* `Attempt.Returns`: the run of the form ends with `B_RET`;
* `Attempt.InPlace`: `realloc` leaves the storage buffer where it is;
* `forms_start_empty_iff`: the stacks are empty at the beginning of every run, if and only if the
  runs before it return; and then forms run as on a new VM.
-/

namespace TreeVM

/-- `print_int`, without the output -/
def printInt (vm : VM) : VmResult × VM :=
  (if vm.params = [] then .paramUnderflow else .ok, vm)

/-- What `run_anonymous` makes of a source: the function and the context that it is compiled in. -/
def anonymousFunc (literalAt : Nat → UInt64) (fuel : Nat) (names : List Name) (ctx : Context)
    (source : Text) : Option (Context × Func) := do
  let fe ← buildFrontend ctx names ctx.funcs.length
  let (built, fe) ← compileSource (fun _ fe => (none, fe)) literalAt fuel source fe
  let func ← lowerFuncDefers fuel fe.func.toFunc
  let ctx ← fe.ctx
  if built then some (ctx, func) else none

/-- A form that is compiled, and the memory with its code while it runs.  The function of
`run_anonymous` has no arguments. -/
structure CompiledForm where
  source : Text
  program : Program
  memory : Nat → UInt8
  built : ∃ literalAt fuel names ctx,
    anonymousFunc literalAt fuel names ctx source = some (program.ctx, program.func)
  noArgs : program.func.sig = ⟨[], []⟩
  accepted : program.Accepted
  loaded : program.Loaded memory
  short : program.Short

def CompiledForm.env (f : CompiledForm) : Env :=
  ⟨f.memory, fun _ => printInt⟩

/-- A form, if the frontend and the compiler accept it, and what `realloc` answers during its run
of at most `rounds` rounds. -/
structure Attempt where
  form : Option CompiledForm
  entry : Alloc
  allocs : Nat → Alloc
  rounds : Nat

namespace Attempt

variable (a : Attempt)

/-- `vm_run` after `n` rounds -/
def status (f : CompiledForm) (vm : VM) (n : Nat) : Status :=
  run f.env a.allocs n (enter a.entry vm f.program.start.toNat)

/-- The state after `n` rounds, with the history of the run -/
def config (f : CompiledForm) (vm : VM) : Nat → Option Config
  | 0 =>
      match enter a.entry vm f.program.start.toNat with
      | .running s => Config.make? s [] [] 0 []
      | .done _ _ => none
  | n + 1 => (config f vm n).bind fun c => c.advance f.env (a.allocs n)

/-- `run_anonymous`: the VM that it leaves behind -/
def runAnonymous (vm : VM) : Option VM :=
  match a.form with
  | none => some vm
  | some f =>
      match a.status f vm a.rounds with
      | .done _ vm' => some vm'
      | .running _ => none

/-- If the run of the form ends, it ends with `B_RET`. -/
def Returns (vm : VM) : Prop :=
  ∀ f, a.form = some f → ∀ n s r vm', a.status f vm n = .running s →
    a.status f vm (n + 1) = .done r vm' → ∃ pc, fetch f.memory s.pc = some (.ret, pc)

/-- Addresses and lengths are numbers of 64 bits, and no store reaches a return frame in use. -/
structure Sound (vm : VM) : Prop where
  fits : ∀ f, a.form = some f → ∀ n s, a.status f vm n = .running s →
    s.pc + 32 ≤ 2 ^ 64 ∧ s.vm.params.length < 2 ^ 64
  contained : ∀ f, a.form = some f → ∀ n c, a.config f vm n = some c →
    Contained f.env vm.storage.len (a.allocs n) c

/-- There is always memory, and the storage buffer stays at `data`, or begins there. -/
structure InPlace (vm : VM) (data : Nat) : Prop where
  buffer : vm.storage.data = data ∨ vm.storage.cap = 0
  entry : a.entry = .inPlace data
  allocs : a.allocs = fun _ => .inPlace data

end Attempt

/-- The forms one after the other -/
def runForms (vm : VM) : List Attempt → Option VM
  | [] => some vm
  | a :: rest => (a.runAnonymous vm).bind fun vm' => runForms vm' rest

/-- The stacks are as in a new VM. -/
structure VM.Empty (vm : VM) : Prop where
  storage : vm.storage.len = 0
  params : vm.params = []
  crash : vm.crash = []

/-! ## Rounds -/

/-- A run that ends has not begun, or it has a last round. -/
theorem run_last {env : Env} {allocs : Nat → Alloc} {n : Nat} {st : Status} {r : VmResult} {vm : VM}
    (h : run env allocs n st = .done r vm) :
    st = .done r vm ∨ ∃ k s, run env allocs k st = .running s ∧
      run env allocs (k + 1) st = .done r vm ∧ step env (allocs k) s = .done r vm := by
  induction n with
  | zero => exact .inl h
  | succ n ih =>
      cases hn : run env allocs n st with
      | running s =>
          have hstep := run_next env allocs n st
          rw [h, hn] at hstep
          exact .inr ⟨n, s, hn, h, hstep.symm⟩
      | done r' vm' =>
          rw [run_ended (Nat.le_succ n) hn] at h
          exact ih (hn.trans h)

/-- What ends a run, apart from `B_RET` and native functions, keeps the storage. -/
theorem exec_stop_storage {env : Env} {al : Alloc} {s : State} {i : Instr} {r : VmResult} {vm : VM}
    (hnative : ∀ fn vm, (env.native fn vm).2.storage = vm.storage) (hi : i ≠ .ret)
    (h : exec env al s i = .stop r vm) : vm.storage = s.vm.storage := by
  cases i with
  | ret => exact absurd rfl hi
  -- the one case with an assumption: native functions keep the storage
  | callNative argc =>
      simp only [exec, execNative] at h
      split at h
      · cases h
        rfl
      · rename_i p rest _
        have hkeep := hnative (readPtr s.vm.mem p) (s.withParams rest).vm
        split at h
        · cases h
          rfl
        split at h
        · cases h
          rfl
        split at h <;> rename_i hreturn <;> rw [hreturn] at hkeep
        · split at h <;> cases h
          exact hkeep
        · cases h
          exact hkeep
        · cases h
  -- every other instruction that ends the run does so before it has changed anything
  | done =>
      cases h
      rfl
  | hardCrash =>
      cases h
      rfl
  | jump target => cases h
  | crash => cases h
  | storageAdd amount =>
      simp only [exec] at h
      split at h <;> cases h
  | pushVar offset =>
      simp only [exec] at h
      split at h
      · cases h
        rfl
      · rw [State.push] at h
        split at h <;> cases h
  | pushArg idx =>
      simp only [exec] at h
      split at h
      · cases h
        rfl
      · rw [State.push] at h
        split at h <;> cases h
  | pushGlobal ptr =>
      simp only [exec] at h
      split at h
      · cases h
        rfl
      · rw [State.push] at h
        split at h <;> cases h
  | dropN n =>
      simp only [exec] at h
      split at h <;> cases h
      rfl
  | binary op =>
      simp only [exec] at h
      split at h
      · split at h <;> cases h
      · cases h
        rfl
  | unary op =>
      simp only [exec] at h
      split at h <;> cases h
      rfl
  | branch cond yes no =>
      simp only [exec] at h
      split at h <;> cases h
      rfl
  | branchTop yes no =>
      simp only [exec] at h
      split at h <;> cases h
      rfl
  | pushCrash target =>
      simp only [exec] at h
      split at h <;> cases h
  | popCrash =>
      simp only [exec] at h
      split at h <;> cases h
      rfl
  | call target argc =>
      simp only [exec] at h
      split at h
      · cases h
        rfl
      split at h
      · cases h
        rfl
      split at h <;> cases h

theorem unwind_storage {s : State} {frames : List CrashFrame} {r : VmResult} {vm : VM}
    (h : unwind s frames = .done r vm) : vm.storage = s.vm.storage := by
  induction frames generalizing s with
  | nil =>
      rw [unwind] at h
      cases h
      rfl
  | cons f rest ih =>
      rw [unwind] at h
      split at h
      · simp only at h
        split at h
        · cases h
          rfl
        · have hrest := ih h
          exact hrest
      · cases h

section Balance

variable {P : Program} {env : Env} {strict : Prop} {vm : VM} {c : Config} {a : Act} {p : Point}
  {levels : List (Act × Point)}

/-- With no crash frame from before the run, a round that goes on is one with a history: a crash
resumes a pad of the run. -/
theorem Balanced.round_of_step (hR : P.Ready env strict) (h : Balanced P env strict vm c a p levels)
    (hcrash : vm.crash = []) {al : Alloc} {s : State} (hstep : step env al c.state = .running s)
    (hfits : s.pc + 32 ≤ 2 ^ 64 ∧ s.vm.params.length < 2 ^ 64) :
    ∃ c', Round env al c c' ∧ c'.state = s := by
  obtain ⟨i, pc, hfetch, -⟩ := move_of_stateAt hR.accepted hR.loaded hR.short hR.keeps hR.natives
    h.world.ok h.stands.point h.stands.state al
  rw [step_fetched hfetch] at hstep
  cases hexec : exec env al (c.fetched pc) i with
  | next s' =>
      rw [hexec] at hstep
      cases hstep
      exact ⟨⟨s, c.callsAfter pc i, c.padsAfter pc i, c.countAfter i, c.started, hfits⟩,
        .next hfetch hexec rfl rfl rfl rfl, rfl⟩
  | fail s' cause =>
      rw [hexec] at hstep
      obtain ⟨hlen, hframes, hparams, -, -, -⟩ := h.crashed hR hfetch hexec
      rcases h.caught (c := c) hlen hframes hparams with ⟨-, hnone⟩ |
        ⟨_, _, _, _, i, rest, s'', hinner, hrun, -, -, -, -, hpopped⟩
      · -- no pad is installed
        rw [Exec.status, hnone, hcrash, unwind] at hstep
        cases hstep
      · rw [hstep] at hrun
        cases hrun
        refine ⟨⟨s, i.calls, rest, c.count, i :: c.started, hfits⟩,
          .fail hfetch hexec hstep ?_ rfl rfl rfl, rfl⟩
        rw [hpopped, Nat.add_sub_cancel_left, Nat.sub_self, List.drop_zero]
        exact hinner.installed
  | stop r vm' =>
      rw [hexec] at hstep
      cases hstep

/-- A run ends with a `B_RET` that leaves the stacks as it found them, or with a return frame on
the storage buffer. -/
theorem Balanced.ends (hR : P.Ready env strict) (h : Balanced P env strict vm c a p levels)
    (hnative : ∀ fn vm, (env.native fn vm).2.storage = vm.storage) {al : Alloc} {r : VmResult}
    {vm' : VM} (hstep : step env al c.state = .done r vm') :
    (∃ pc, fetch env.code c.state.pc = some (.ret, pc)) ∧
      EndsBalanced P.func.sig.ins.length vm vm' ∨
    (∀ pc, fetch env.code c.state.pc ≠ some (.ret, pc)) ∧
      vm.storage.len + VM.returnSize ≤ vm'.storage.len := by
  obtain ⟨i, pc, hfetch, -⟩ := move_of_stateAt hR.accepted hR.loaded hR.short hR.keeps hR.natives
    h.world.ok h.stands.point h.stands.state al
  rw [step_fetched hfetch] at hstep
  by_cases hi : i = .ret
  · subst hi
    refine .inl ⟨⟨pc, hfetch⟩, ?_⟩
    have hret := h.ret hR hfetch al
    generalize exec env al (c.fetched pc) .ret = e at hstep hret
    cases hret with
    | out _ _ _ hends =>
        cases hstep
        exact hends
    | back => cases hstep
  · -- the return frame of the run is still there
    have hlen : c.state.vm.storage.len = a.start + frameOf a.types p.slots := h.stands.state.storage
    have hstart := h.world.frames_le.1
    refine .inr ⟨fun q hq => ?_, ?_⟩
    · rw [hfetch] at hq
      exact hi (Prod.mk.inj (Option.some.inj hq)).1
    have hkept : vm'.storage.len = c.state.vm.storage.len := by
      cases hexec : exec env al (c.fetched pc) i with
      | next s =>
          rw [hexec] at hstep
          cases hstep
      | fail s cause =>
          rw [hexec] at hstep
          rw [unwind_storage hstep]
          exact (h.crashed hR hfetch hexec).storage
      | stop r' vm'' =>
          rw [hexec] at hstep
          cases hstep
          rw [exec_stop_storage hnative hi hexec]
          rfl
    rw [hkept, hlen]
    exact Nat.le_trans hstart (Nat.le_add_right _ _)

end Balance

/-! ## Forms -/

theorem CompiledForm.uncapped (f : CompiledForm) : NativesUncapped f.env where
  same _ _ _ := rfl
  data _ _ := rfl

theorem CompiledForm.ready (f : CompiledForm) : f.program.Ready f.env False :=
  ⟨f.accepted, f.loaded, f.short, False.elim, fun _ _ _ => ⟨rfl, rfl, rfl⟩⟩

namespace Attempt

variable {a : Attempt} {f : CompiledForm} {vm : VM}

theorem status_of_config {n : Nat} {c : Config} (h : a.config f vm n = some c) :
    a.status f vm n = .running c.state := by
  induction n generalizing c with
  | zero =>
      rw [config] at h
      split at h
      · rename_i s hs
        obtain ⟨hstate, -⟩ := Config.make?_eq_some h
        rw [status, run, hs, hstate]
      · cases h
  | succ n ih =>
      obtain ⟨d, hd, hadvance⟩ := Option.bind_eq_some_iff.mp h
      have hbefore : run f.env a.allocs n (enter a.entry vm f.program.start.toNat) = .running d.state := ih hd
      rw [status, run_next, hbefore]
      exact (round_of_advance hadvance).step

theorem leads_of_config {n : Nat} {c : Config} (h : a.config f vm n = some c) :
    ∃ start, Starts a.entry vm f.program.start.toNat start ∧ Leads f.env (fun _ _ => True) start c := by
  induction n generalizing c with
  | zero =>
      rw [config] at h
      split at h
      · rename_i s hs
        obtain ⟨rfl, hcalls, hpads, -, hstarted⟩ := Config.make?_eq_some h
        exact ⟨c, ⟨hs, hcalls, hpads, hstarted⟩, .refl⟩
      · cases h
  | succ n ih =>
      obtain ⟨d, hd, hadvance⟩ := Option.bind_eq_some_iff.mp h
      obtain ⟨start, hstarts, hleads⟩ := ih hd
      exact ⟨start, hstarts, hleads.tail ⟨_, trivial, round_of_advance hadvance⟩⟩

/-- Each state of a run from empty stacks has a history, in which a crash resumes a pad of the
run. -/
theorem history (hsound : a.Sound vm) (hempty : vm.Empty) (hform : a.form = some f) {n : Nat}
    {s : State} (h : a.status f vm n = .running s) :
    ∃ c act p levels, a.config f vm n = some c ∧ c.state = s ∧
      Balanced f.program f.env False vm c act p levels := by
  have hfits := hsound.fits f hform n s h
  induction n generalizing s with
  | zero =>
      let c : Config := ⟨s, [], [], 0, [], hfits⟩
      have henter : enter a.entry vm f.program.start.toNat = .running s := h
      have hstarts : Starts a.entry vm f.program.start.toNat c := ⟨henter, rfl, rfl, rfl⟩
      have hargs : f.program.func.sig.argc ≤ vm.params.length := by
        rw [f.noArgs]
        exact Nat.zero_le _
      obtain ⟨act, p, hbalanced⟩ := balanced_of_starts f.ready hstarts hargs
      refine ⟨c, act, p, [], ?_, rfl, hbalanced⟩
      rw [config, henter]
      exact dif_pos hfits
  | succ n ih =>
      rw [status, run_next] at h
      split at h
      · rename_i s' hbefore
        obtain ⟨c, act, p, levels, hconfig, rfl, hbalanced⟩ := ih hbefore
          (hsound.fits f hform n s' hbefore)
        obtain ⟨c', hround, hstate⟩ := hbalanced.round_of_step f.ready hempty.crash h hfits
        have hcontained := hsound.contained f hform n c hconfig
        obtain ⟨act', p', levels', hbalanced', -⟩ := hbalanced.round f.ready hcontained hround
        refine ⟨c', act', p', levels', ?_, hstate, hbalanced'⟩
        rw [config, hconfig]
        exact advance_of_round hround
      · cases h

/-- A form runs on empty stacks as it does on a new VM, as long as the storage buffer does not
move. -/
theorem status_anew {data : Nat} (hempty : vm.Empty) (hplace : a.InPlace vm data) (n : Nat) :
    ∃ k, a.status f vm.anew n = (a.status f vm n).withCaps k := by
  obtain ⟨k, henter, hdata⟩ := enter_anew hempty.storage hempty.params hempty.crash hplace.buffer
    f.program.start.toNat
  obtain ⟨k', hrun⟩ := run_withCaps f.uncapped n hdata k
  refine ⟨k', ?_⟩
  rw [status, status, hplace.entry, hplace.allocs, henter, hrun]

/-- From empty stacks, a form leaves empty stacks if and only if its run returns. -/
theorem empty_iff (hsound : a.Sound vm) (hempty : vm.Empty) {vm' : VM}
    (h : a.runAnonymous vm = some vm') : vm'.Empty ↔ a.Returns vm := by
  rw [runAnonymous] at h
  split at h
  · rename_i hnone
    cases h
    refine ⟨fun _ f hform => ?_, fun _ => hempty⟩
    rw [hnone] at hform
    cases hform
  rename_i f hform
  split at h
  · rename_i r vm'' hdone
    cases h
    rcases run_last hdone with hentry | ⟨k, s, hbefore, hlast, hstep⟩
    · -- there is no room for the return frame
      have hsame : vm' = vm := by
        rw [enter] at hentry
        split at hentry <;> cases hentry
        rfl
      subst hsame
      refine ⟨fun _ g hg n s q v hrun => ?_, fun _ => hempty⟩
      rw [hform] at hg
      cases hg
      rw [status, hentry, run_of_done] at hrun
      cases hrun
    obtain ⟨c, act, p, levels, -, rfl, hbalanced⟩ := history hsound hempty hform hbefore
    have hends := hbalanced.ends f.ready (fun _ _ => rfl) hstep
    constructor
    · intro hempty' g hg n s q v hrun hnext
      rw [hform] at hg
      cases hg
      -- there is only one last round
      obtain rfl : n = k := by
        rcases Nat.lt_trichotomy n k with hlt | heq | hlt
        · rw [run_ended (Nat.succ_le_of_lt hlt) hnext] at hbefore
          cases hbefore
        · exact heq
        · rw [status, run_ended (Nat.succ_le_of_lt hlt) hlast] at hrun
          cases hrun
      rw [status, hbefore] at hrun
      cases hrun
      rcases hends with ⟨hret, -⟩ | ⟨-, hlen⟩
      · exact hret
      · rw [hempty'.storage, hempty.storage] at hlen
        exact absurd hlen (by decide)
    · intro hreturns
      obtain ⟨pc, hret⟩ := hreturns f hform k _ r vm' hbefore hlast
      rcases hends with ⟨-, hends⟩ | ⟨hno, -⟩
      · refine ⟨hends.storage.trans hempty.storage, ?_, hends.crash.trans hempty.crash⟩
        rw [hends.params, hempty.params, List.drop_nil]
      · exact absurd hret (hno pc)
  · cases h

end Attempt

theorem runForms_append (vm : VM) (pre post : List Attempt) :
    runForms vm (pre ++ post) = (runForms vm pre).bind fun vm' => runForms vm' post := by
  induction pre generalizing vm with
  | nil => rfl
  | cons a pre ih =>
      rw [List.cons_append, runForms, runForms, Option.bind_assoc]
      exact congrArg _ (funext ih)

theorem runForms_concat {vm vm' : VM} {pre : List Attempt} {a : Attempt} :
    runForms vm (pre ++ [a]) = some vm' ↔ ∃ v, runForms vm pre = some v ∧ a.runAnonymous v = some vm' := by
  rw [runForms_append, Option.bind_eq_some_iff]
  simp [runForms]

/-- Every form that is run finds the stacks empty, and so does the next one, if and only if the runs
of the forms return.  A form that finds them empty runs with its own pads only, and it does what it
does on a new VM, as long as `realloc` does not move the storage buffer. -/
theorem forms_start_empty_iff {vm₀ vm : VM} (hempty : vm₀.Empty) {attempts : List Attempt}
    (hrun : runForms vm₀ attempts = some vm)
    (hsound : ∀ pre a post v, attempts = pre ++ a :: post → runForms vm₀ pre = some v → v.Empty →
      a.Sound v) :
    ((∀ pre post v, attempts = pre ++ post → runForms vm₀ pre = some v → v.Empty) ↔
      ∀ pre a post v, attempts = pre ++ a :: post → runForms vm₀ pre = some v → a.Returns v) ∧
    (∀ pre a post v, attempts = pre ++ a :: post → runForms vm₀ pre = some v → v.Empty →
      ∀ f n s, a.form = some f → a.status f v n = .running s →
        ∃ c c', Starts a.entry v f.program.start.toNat c ∧ Leads f.env (fun _ _ => True) c c' ∧
          c'.state = s) ∧
    ∀ pre a post v, attempts = pre ++ a :: post → runForms vm₀ pre = some v → v.Empty →
      ∀ f data n, a.form = some f → a.InPlace v data →
        ∃ k, a.status f v.anew n = (a.status f v n).withCaps k := by
  refine ⟨⟨?_, ?_⟩, ?_, fun _ _ _ _ _ _ hstart _ _ n _ hplace => Attempt.status_anew hstart hplace n⟩
  · intro hall pre a post v hsplit hv
    have hstart := hall pre (a :: post) v hsplit hv
    rw [hsplit, runForms_append, hv, Option.bind_some, runForms] at hrun
    obtain ⟨v', hv', -⟩ := Option.bind_eq_some_iff.mp hrun
    have hend := hall (pre ++ [a]) post v' (by rw [hsplit, List.append_assoc]; rfl)
      (runForms_concat.mpr ⟨v, hv, hv'⟩)
    exact (Attempt.empty_iff (hsound pre a post v hsplit hv hstart) hstart hv').mp hend
  · intro hreturns pre
    -- by induction on the forms that have been run
    induction pre using List.reverseRecOn with
    | nil =>
        intro post v _ hv
        cases hv
        exact hempty
    | append_singleton pre a ih =>
        intro post v hsplit hv
        have hsplit' : attempts = pre ++ a :: post := by rw [hsplit, List.append_assoc]; rfl
        obtain ⟨u, hu, hv⟩ := runForms_concat.mp hv
        have hstart := ih (a :: post) u hsplit' hu
        exact (Attempt.empty_iff (hsound pre a post u hsplit' hu hstart) hstart hv).mpr
          (hreturns pre a post u hsplit' hu)
  · intro pre a post v hsplit hv hstart f n s hform hstatus
    obtain ⟨c, -, -, -, hconfig, hstate, -⟩ :=
      Attempt.history (hsound pre a post v hsplit hv hstart) hstart hform hstatus
    obtain ⟨start, hstarts, hleads⟩ := Attempt.leads_of_config hconfig
    exact ⟨start, c, hstarts, hleads, hstate⟩

/-! ## A handler that is left behind -/

section LeftBehind

/-- The global `Print`, and the address of every literal -/
def printContext : Context where
  funcs := []
  globals := [⟨2, 20000⟩]

/-- The form of a source, its function and the context with its literals, by evaluation -/
def CompiledForm.assemble (source : Text) (f : Func) (ctx : Context)
    (hbuilt : anonymousFunc (fun _ => 30000) 100 [] printContext source = some (ctx, f))
    (hnone : f.sig = ⟨[], []⟩)
    (hcompile : (compileFunc ctx (Program.assemble ctx 10 f).place 10 f []).isOk = true)
    (hcheck : (Program.assemble ctx 10 f).check (Program.assemble ctx 10 f).memory = true) :
    CompiledForm where
  source := source
  program := Program.assemble ctx 10 f
  memory := (Program.assemble ctx 10 f).memory
  built := ⟨_, _, _, _, hbuilt⟩
  noArgs := hnone
  accepted := Program.assemble_accepted hcompile
  loaded := ((Program.assemble ctx 10 f).ready_of_check _ hcheck).1
  short := ((Program.assemble ctx 10 f).ready_of_check _ hcheck).2.1

/-- Calls a function pointer that is null while a deferred handler is installed. -/
def nullCall : Func :=
  { replDraft.toFunc with
    blocks := [.many (some 1) (some 3), .basic ⟨0, 0⟩, .var 0 4, .chain (some 2) none,
      .many (some 5) (some 7), .basic ⟨0, 0⟩, .many (some 8) (some 9), .chain (some 6) (some 13),
      .crashPad 11 10, .chain (some 10) none, .basic ⟨0, 0⟩, .basic ⟨0, 3⟩, .basic ⟨3, 0⟩,
      .chain (some 12) none]
    ops := [⟨.pushGlobal, 1⟩, ⟨.pushVar, 0⟩, ⟨.callNativeOnStack, 0⟩]
    vars := [2] }

def nullCallForm : CompiledForm :=
  .assemble (utf8 "Var print_int p Defer () (0 p CallNative)\n") nullCall
    { printContext with globals := [⟨2, 20000⟩, ⟨0, 30000⟩] }
    (by decide) rfl (by decide) (by decide)

/-- Divides by zero, without any handler. -/
def zeroDivision : Func :=
  { replDraft.toFunc with
    blocks := [.many (some 1) (some 3), .basic ⟨0, 0⟩, .var 0 4, .chain (some 2) none, .basic ⟨0, 3⟩]
    ops := [⟨.pushVar, 0⟩, ⟨.pushVar, 0⟩, ⟨.divAssign, 0⟩]
    vars := [0] }

def zeroDivisionForm : CompiledForm :=
  .assemble (utf8 "Var int x x x Div\n") zeroDivision printContext
    (by decide) rfl (by decide) (by decide)

/-- A form that is run for at most eight rounds, with memory as it needs it -/
def CompiledForm.attempt (f : CompiledForm) : Attempt where
  form := some f
  entry := {}
  allocs _ := {}
  rounds := 8

/-- Is the machine at `pc`? -/
def Status.isAt (pc : Nat) : Status → Bool
  | .running s => s.pc = pc
  | .done _ _ => false

/-- The first form leaves the pad of its handler, and the crash of the second form resumes it: it
stood behind the end of the code that is there now. -/
theorem nullCallForm_leaves : (runForms freshVM [nullCallForm.attempt]).any (fun v =>
    v.storage.len == 32 && v.crash.length == 1 && zeroDivisionForm.program.code.length == 19 &&
      (zeroDivisionForm.attempt.status zeroDivisionForm v 4).isAt 5027) = true := by
  decide

theorem crash_resumes_earlier_form : ¬ ∀ (vm₀ : VM) (attempts : List Attempt) (vm : VM), vm₀.Empty →
    runForms vm₀ attempts = some vm → vm.Empty := by
  intro hall
  obtain ⟨v, hv, hcheck⟩ := (Option.any_eq_true _ _).mp nullCallForm_leaves
  have hempty := hall freshVM [nullCallForm.attempt] v ⟨rfl, rfl, rfl⟩ hv
  rw [hempty.storage] at hcheck
  cases hcheck

end LeftBehind

/-! ## A form that is run twice -/

section Twice

/-- The run ends within `rounds` rounds, at a `B_RET`, and its addresses and stores are as in
`Attempt.Sound`. -/
def Attempt.check (a : Attempt) (f : CompiledForm) (vm : VM) : Bool :=
  (a.status f vm a.rounds).endsWith .ok (fun _ => true) && (List.range a.rounds).all fun n =>
    match a.status f vm n with
    | .done _ _ => true
    | .running s => (s.pc + 32 ≤ 2 ^ 64 && s.vm.params.length < 2 ^ 64) &&
        ((a.config f vm n).all (Config.containedWith f.env (a.allocs n) vm.storage.len) &&
          match a.status f vm (n + 1) with
          | .running _ => true
          | .done _ _ => (fetch f.memory s.pc).any fun i => i.1 = .ret)

namespace Attempt

variable {a : Attempt} {f : CompiledForm} {vm : VM}

/-- The rounds of a run that passes the check -/
theorem check_round (h : a.check f vm = true) {n : Nat} {s : State} (hs : a.status f vm n = .running s) :
    (s.pc + 32 ≤ 2 ^ 64 ∧ s.vm.params.length < 2 ^ 64) ∧
      (∀ c, a.config f vm n = some c → Contained f.env vm.storage.len (a.allocs n) c) ∧
      ∀ r vm', a.status f vm (n + 1) = .done r vm' → ∃ pc, fetch f.memory s.pc = some (.ret, pc) := by
  rw [check, Bool.and_eq_true, List.all_eq_true] at h
  obtain ⟨hend, hall⟩ := h
  have hn : n < a.rounds := by
    by_contra hn
    obtain ⟨vm', hdone, -⟩ := Status.endsWith_iff.mp hend
    rw [status, run_ended (Nat.le_of_not_lt hn) hdone] at hs
    cases hs
  have hround := hall n (List.mem_range.mpr hn)
  simp only [hs, Bool.and_eq_true, decide_eq_true_eq] at hround
  obtain ⟨hfits, hcontained, hlast⟩ := hround
  refine ⟨hfits, fun c hc => ?_, fun r vm' hdone => ?_⟩
  · rw [hc, Option.all_some] at hcontained
    exact contained_of_check hcontained
  · rw [hdone] at hlast
    obtain ⟨⟨i, pc⟩, hfetch, hi⟩ := (Option.any_eq_true _ _).mp hlast
    obtain rfl : i = .ret := of_decide_eq_true hi
    exact ⟨pc, hfetch⟩

theorem sound_of_check (h : a.check f vm = true) (hform : a.form = some f) : a.Sound vm where
  fits g hg n s hs := by
    cases hform.symm.trans hg
    exact (check_round h hs).1
  contained g hg n c hc := by
    cases hform.symm.trans hg
    exact (check_round h (status_of_config hc)).2.1 c hc

theorem returns_of_check (h : a.check f vm = true) (hform : a.form = some f) : a.Returns vm := by
  intro g hg n s r vm' hs hdone
  cases hform.symm.trans hg
  exact (check_round h hs).2.2 r vm' hdone

end Attempt

/-- Adds a local to itself. -/
def doubling : Func :=
  { zeroDivision with ops := [⟨.pushVar, 0⟩, ⟨.pushVar, 0⟩, ⟨.addAssign, 0⟩] }

def doublingForm : CompiledForm :=
  .assemble (utf8 "Var int x x x Add\n") doubling printContext
    (by rfl) rfl (by decide) (by decide)

/-- The form with the storage buffer at 1000 -/
def doublingAttempt : Attempt where
  form := some doublingForm
  entry := .inPlace 1000
  allocs _ := .inPlace 1000
  rounds := 7

/-- The form is run on a new VM, and then on the buffer that the first run has left. -/
theorem doublingForm_runs : (doublingAttempt.check doublingForm freshVM.anew &&
    (runForms freshVM.anew [doublingAttempt]).any fun v => v.storage.data = 1000 && v.storage.cap = 64 &&
      doublingAttempt.check doublingForm v &&
      (runForms freshVM.anew [doublingAttempt, doublingAttempt]).isSome) = true := by
  decide +kernel

/-- The second form finds the stacks empty but not new, and runs as on new ones. -/
theorem forms_start_empty_iff_twice : ∃ v, runForms freshVM.anew [doublingAttempt] = some v ∧ v.Empty ∧
    v.storage.cap = 64 ∧ ∀ n, ∃ k, doublingAttempt.status doublingForm v.anew n =
      (doublingAttempt.status doublingForm v n).withCaps k := by
  have hcheck := doublingForm_runs
  rw [Bool.and_eq_true, Option.any_eq_true] at hcheck
  obtain ⟨hfirst, v, hv, hsecond⟩ := hcheck
  simp only [Bool.and_eq_true, decide_eq_true_eq] at hsecond
  obtain ⟨⟨⟨hdata, hcap⟩, hagain⟩, htwice⟩ := hsecond
  obtain ⟨vm, hrun⟩ := Option.isSome_iff_exists.mp htwice
  -- each run of the session is one of the two
  have hruns : ∀ pre a post u, [doublingAttempt, doublingAttempt] = pre ++ a :: post →
      runForms freshVM.anew pre = some u → a = doublingAttempt ∧ a.check doublingForm u = true := by
    intro pre a post u hsplit hu
    rcases pre with _ | ⟨b, _ | ⟨b', pre⟩⟩
    · cases hsplit
      cases hu
      exact ⟨rfl, hfirst⟩
    · cases hsplit
      rw [hv] at hu
      cases hu
      exact ⟨rfl, hagain⟩
    · simp at hsplit
  obtain ⟨hiff, -, hanew⟩ := forms_start_empty_iff ⟨rfl, rfl, rfl⟩ hrun
    (fun pre a post u hsplit hu _ => by
      obtain ⟨rfl, ha⟩ := hruns pre a post u hsplit hu
      exact Attempt.sound_of_check ha rfl)
  have hempty : v.Empty := hiff.mpr (fun pre a post u hsplit hu => by
      obtain ⟨rfl, ha⟩ := hruns pre a post u hsplit hu
      exact Attempt.returns_of_check ha rfl) [doublingAttempt] [doublingAttempt] v rfl hv
  exact ⟨v, hv, hempty, hcap, fun n => hanew [doublingAttempt] doublingAttempt [] v rfl hv hempty doublingForm
    1000 n rfl ⟨.inl hdata, rfl, rfl⟩⟩

end Twice

end TreeVM
