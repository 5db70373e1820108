import TreeVM.VM.Stacks
import Mathlib.Logic.Relation

/-!
# Runs with their history

The machine keeps return frames among the bytes of the storage buffer and crash frames as numbers.
A `Config` adds what a run knows about them: the calls that have not returned, the pads that the
run has installed, and the handlers that it has started.

* `Round`: one round of the main loop that goes on, with the history after it;
* `Leads`: rounds one after the other, each under a condition;
* `Contained`: what a store does to the return frames.

Rounds end where a crash would resume a frame that was on the crash stack before the run.
-/

namespace TreeVM

/-- A pad on the crash stack: how many were installed before it, the state that installed it, and
the calls at that moment. -/
structure Installed where
  id : Nat
  state : State
  calls : List State

/-- The calls that have not returned are states behind `B_CALL`, the innermost first; so are the
pads on the crash stack.  `started` are the pads whose handlers were started, the latest first, and
`count` says how many pads have been installed.  Addresses and lengths are numbers of 64 bits, also
the address behind the instruction. -/
structure Config where
  state : State
  calls : List State
  pads : List Installed
  count : Nat
  started : List Installed
  fits : state.pc + 32 ≤ 2 ^ 64 ∧ state.vm.params.length < 2 ^ 64

namespace Config

/-- The state of the cases of the switch. -/
def fetched (c : Config) (pc : Nat) : State :=
  { c.state with pc := pc }

@[simp] theorem fetched_vm (c : Config) (pc : Nat) : (c.fetched pc).vm = c.state.vm :=
  rfl

@[simp] theorem fetched_pc (c : Config) (pc : Nat) : (c.fetched pc).pc = pc :=
  rfl

@[simp] theorem fetched_base (c : Config) (pc : Nat) : (c.fetched pc).base = c.state.base :=
  rfl

@[simp] theorem fetched_paramBase (c : Config) (pc : Nat) :
    (c.fetched pc).paramBase = c.state.paramBase :=
  rfl

@[simp] theorem fetched_ans (c : Config) (pc : Nat) : (c.fetched pc).ans = c.state.ans :=
  rfl

def callsAfter (c : Config) (pc : Nat) : Instr → List State
  | .call _ _ => c.fetched pc :: c.calls
  | .ret => c.calls.tail
  | _ => c.calls

def padsAfter (c : Config) (pc : Nat) : Instr → List Installed
  | .pushCrash _ => ⟨c.count, c.fetched pc, c.calls⟩ :: c.pads
  | .popCrash => c.pads.tail
  | _ => c.pads

def countAfter (c : Config) : Instr → Nat
  | .pushCrash _ => c.count + 1
  | _ => c.count

end Config

/-- The configuration at the beginning of `vm_run`. -/
structure Starts (a : Alloc) (vm : VM) (code : Nat) (c : Config) : Prop where
  enter : enter a vm code = .running c.state
  calls : c.calls = []
  pads : c.pads = []
  started : c.started = []

/-! ## Numbers of rounds -/

theorem run_of_done (env : Env) (allocs : Nat → Alloc) (n : Nat) (r : VmResult) (vm : VM) :
    run env allocs n (.done r vm) = .done r vm := by
  cases n <;> rfl

theorem run_next (env : Env) (allocs : Nat → Alloc) (n : Nat) (st : Status) :
    run env allocs (n + 1) st =
      match run env allocs n st with
      | .running s => step env (allocs n) s
      | .done r vm => .done r vm := by
  induction n generalizing allocs st with
  | zero => cases st <;> rfl
  | succ n ih =>
      cases st with
      | done r vm => rfl
      | running s =>
          show run env (fun k => allocs (k + 1)) (n + 1) (step env (allocs 0) s) = _
          rw [ih]
          rfl

/-- A run that has ended stays as it is. -/
theorem run_ended {env : Env} {allocs : Nat → Alloc} {n m : Nat} (hle : n ≤ m) {st : Status}
    {r : VmResult} {vm : VM} (h : run env allocs n st = .done r vm) :
    run env allocs m st = .done r vm := by
  induction hle with
  | refl => exact h
  | step _ ih => rw [run_next, ih]

/-! ## Rounds with their history -/

section Rounds

variable (env : Env)

/-- One round.  A crash resumes one of the pads of the run. -/
inductive Round (a : Alloc) (c : Config) (c' : Config) : Prop
  | next {i pc} : fetch env.code c.state.pc = some (i, pc) →
      exec env a (c.fetched pc) i = .next c'.state → c'.calls = c.callsAfter pc i →
      c'.pads = c.padsAfter pc i → c'.count = c.countAfter i → c'.started = c.started →
      Round a c c'
  | fail {i pc s cause pad} : fetch env.code c.state.pc = some (i, pc) →
      exec env a (c.fetched pc) i = .fail s cause → (Exec.fail s cause).status = .running c'.state →
      c.pads.drop (s.vm.crash.length - c'.state.vm.crash.length - 1) = pad :: c'.pads →
      c'.calls = pad.calls → c'.count = c.count → c'.started = pad :: c.started → Round a c c'

/-- Rounds from `c` on that satisfy a condition on the allocations and the configuration before
the round. -/
def Leads (good : Alloc → Config → Prop) : Config → Config → Prop :=
  Relation.ReflTransGen fun c c' => ∃ a, good a c ∧ Round env a c c'

theorem step_fetched {env : Env} {a : Alloc} {c : Config} {i : Instr} {pc : Nat}
    (h : fetch env.code c.state.pc = some (i, pc)) :
    step env a c.state = (exec env a (c.fetched pc) i).status := by
  rw [step, h]
  rfl

theorem Round.step {env : Env} {a : Alloc} {c c' : Config} (h : Round env a c c') :
    step env a c.state = .running c'.state := by
  cases h with
  | next hfetch hexec => rw [step_fetched hfetch, hexec, Exec.status]
  | fail hfetch hexec hrun => rw [step_fetched hfetch, hexec, hrun]

/-! ## Rounds by evaluation -/

/-- The configuration, if its numbers fit. -/
def Config.make? (state : State) (calls : List State) (pads : List Installed) (count : Nat)
    (started : List Installed) : Option Config :=
  if h : state.pc + 32 ≤ 2 ^ 64 ∧ state.vm.params.length < 2 ^ 64 then
    some ⟨state, calls, pads, count, started, h⟩
  else none

def Config.advance (c : Config) (a : Alloc) : Option Config :=
  match fetch env.code c.state.pc with
  | none => none
  | some (i, pc) =>
      match exec env a (c.fetched pc) i with
      | .next s =>
          Config.make? s (c.callsAfter pc i) (c.padsAfter pc i) (c.countAfter i) c.started
      | .fail s cause =>
          match (Exec.fail s cause).status with
          | .running s' =>
              match c.pads.drop (s.vm.crash.length - s'.vm.crash.length - 1) with
              | pad :: pads => Config.make? s' pad.calls pads c.count (pad :: c.started)
              | [] => none
          | .done _ _ => none
      | .stop _ _ => none

/-- `n` rounds without any growth of the stacks failing or moving. -/
def Config.advances (c : Config) : Nat → Option Config
  | 0 => some c
  | n + 1 => (c.advance env {}).bind fun c => c.advances n

theorem Config.make?_eq_some {state : State} {calls : List State} {pads : List Installed}
    {count : Nat} {started : List Installed} {c : Config}
    (h : make? state calls pads count started = some c) :
    c.state = state ∧ c.calls = calls ∧ c.pads = pads ∧ c.count = count ∧ c.started = started := by
  rw [make?] at h
  split at h
  · cases h
    exact ⟨rfl, rfl, rfl, rfl, rfl⟩
  · cases h

theorem round_of_advance {env : Env} {c c' : Config} {a : Alloc} (h : c.advance env a = some c') :
    Round env a c c' := by
  rw [Config.advance] at h
  split at h
  · cases h
  · rename_i i pc hfetch
    split at h
    · rename_i s hexec
      obtain ⟨rfl, hcalls, hpads, hcount, hstarted⟩ := Config.make?_eq_some h
      exact .next hfetch hexec hcalls hpads hcount hstarted
    · rename_i s cause hexec
      split at h
      · rename_i s' hrun
        split at h
        · rename_i pad pads hdrop
          obtain ⟨rfl, hcalls, rfl, hcount, hstarted⟩ := Config.make?_eq_some h
          exact .fail hfetch hexec hrun hdrop hcalls hcount hstarted
        · cases h
      · cases h
    · cases h

/-- A round is determined by what it begins with. -/
theorem advance_of_round {env : Env} {c c' : Config} {a : Alloc} (h : Round env a c c') :
    c.advance env a = some c' := by
  have hmake : Config.make? c'.state c'.calls c'.pads c'.count c'.started = some c' := dif_pos c'.fits
  cases h with
  | next hfetch hexec hcalls hpads hcount hstarted =>
      simp only [Config.advance, hfetch, hexec]
      rwa [← hcalls, ← hpads, ← hcount, ← hstarted]
  | fail hfetch hexec hrun hdrop hcalls hcount hstarted =>
      simp only [Config.advance, hfetch, hexec, hrun, hdrop]
      rwa [← hcalls, ← hcount, ← hstarted]

theorem leads_of_advances {env : Env} {good : Alloc → Config → Prop} {c c' : Config} {n : Nat}
    (h : c.advances env n = some c')
    (hgood : ∀ k d, k < n → c.advances env k = some d → good {} d) : Leads env good c c' := by
  induction n generalizing c with
  | zero =>
      cases h
      exact .refl
  | succ n ih =>
      obtain ⟨d, hd, h⟩ := Option.bind_eq_some_iff.mp h
      refine .head ⟨{}, hgood 0 c (Nat.succ_pos n) rfl, round_of_advance hd⟩ (ih h fun k e hk he => ?_)
      refine hgood (k + 1) e (Nat.succ_lt_succ hk) ?_
      rw [Config.advances, hd]
      exact he

/-- The configuration in which `vm_run` begins, when the storage buffer has room. -/
def Config.start (vm : VM) (code : Nat) : Option Config :=
  match enter {} vm code with
  | .running s => Config.make? s [] [] 0 []
  | .done _ _ => none

theorem starts_of_start {vm : VM} {code : Nat} {c : Config} (h : Config.start vm code = some c) :
    Starts {} vm code c := by
  rw [Config.start] at h
  split at h
  · rename_i s hs
    obtain ⟨rfl, hcalls, hpads, -, hstarted⟩ := Config.make?_eq_some h
    exact ⟨hs, hcalls, hpads, hstarted⟩
  · cases h

/-- The run ends with `r`, and the VM passes a check. -/
def Status.endsWith (r : VmResult) (check : VM → Bool) : Status → Bool
  | .running _ => false
  | .done r' vm => r' = r && check vm

theorem Status.endsWith_iff {r : VmResult} {check : VM → Bool} {s : Status} :
    s.endsWith r check = true ↔ ∃ vm, s = .done r vm ∧ check vm = true := by
  cases s with
  | running s => simp [Status.endsWith]
  | done r' vm => simp [Status.endsWith]

/-- A run of `n` rounds that passes a check, from the beginning of `vm_run` on. -/
theorem reached_of_check (env : Env) (vm : VM) (code n : Nat) (check : Config → Config → Bool)
    (h : ((Config.start vm code).bind fun c => (c.advances env n).map (c, ·)).any
      (fun c => check c.1 c.2) = true) :
    ∃ c c', Starts {} vm code c ∧ c.advances env n = some c' ∧ check c c' = true := by
  obtain ⟨⟨c, c'⟩, hc', hcheck⟩ := (Option.any_eq_true _ _).mp h
  obtain ⟨c₀, hstart, hrun⟩ := Option.bind_eq_some_iff.mp hc'
  obtain ⟨c₁, hrun, hpair⟩ := Option.map_eq_some_iff.mp hrun
  cases hpair
  exact ⟨c, c', starts_of_start hstart, hrun, hcheck⟩

/-! ## Conditions on rounds -/

/-- The next instruction divides `INT64_MIN` by -1: the processor ends the process, and the round
with it. -/
def State.Traps (s : State) : Prop :=
  ∃ pc rhs lhs rest, fetch env.code s.pc = some (.binary (.arith .div), pc) ∧
    s.vm.params = rhs :: lhs :: rest ∧ readInt s.vm.mem lhs = Int64.minValue ∧
    readInt s.vm.mem rhs = -1

/-- `n` rounds, none of which ends the process. -/
def Survives (allocs : Nat → Alloc) (n : Nat) (st : Status) : Prop :=
  ∀ m < n, ∀ s, run env allocs m st = .running s → ¬ s.Traps env

/-- Is `State.Traps` true of the state? -/
def State.traps (s : State) : Bool :=
  match fetch env.code s.pc, s.vm.params with
  | some (.binary (.arith .div), _), rhs :: lhs :: _ =>
      readInt s.vm.mem lhs = Int64.minValue && readInt s.vm.mem rhs = -1
  | _, _ => false

theorem State.not_traps_of_check {env : Env} {s : State} (h : s.traps env = false) : ¬ s.Traps env := by
  rintro ⟨pc, rhs, lhs, rest, hfetch, hparams, hlhs, hrhs⟩
  rw [State.traps, hfetch, hparams] at h
  simp [hlhs, hrhs] at h

/-- A run that ends after `n` rounds, by evaluation. -/
theorem survives_of_check {env : Env} {allocs : Nat → Alloc} {n : Nat} {st : Status} {r : VmResult}
    (hend : (run env allocs n st).endsWith r (fun _ => true) = true)
    (hall : ((List.range n).all fun m =>
      match run env allocs m st with
      | .running s => !s.traps env
      | .done _ _ => true) = true) (k : Nat) : Survives env allocs k st := by
  intro m _ s hrun
  by_cases hm : m < n
  · have hcheck := List.all_eq_true.mp hall m (List.mem_range.mpr hm)
    rw [hrun] at hcheck
    exact State.not_traps_of_check (by simpa using hcheck)
  · -- the run has ended before
    obtain ⟨vm, hdone, -⟩ := Status.endsWith_iff.mp hend
    rw [run_ended (Nat.le_of_not_lt hm) hdone] at hrun
    cases hrun

/-- The process is ended by one of `n` rounds, or by none. -/
theorem survives_or_traps (allocs : Nat → Alloc) (n : Nat) (st : Status) :
    Survives env allocs n st ∨ ∃ m s, m < n ∧ Survives env allocs m st ∧
      run env allocs m st = .running s ∧ s.Traps env := by
  induction n with
  | zero => exact .inl fun m hm => absurd hm (Nat.not_lt_zero m)
  | succ n ih =>
      rcases ih with hsurvives | ⟨m, s, hm, htrapped⟩
      · by_cases htraps : ∃ s, run env allocs n st = .running s ∧ s.Traps env
        · obtain ⟨s, hrun, htraps⟩ := htraps
          exact .inr ⟨n, s, Nat.lt_succ_self n, hsurvives, hrun, htraps⟩
        · refine .inl fun m hm s hrun => ?_
          rcases Nat.lt_succ_iff_lt_or_eq.mp hm with hlt | rfl
          · exact hsurvives m hlt s hrun
          · exact fun h => htraps ⟨s, hrun, h⟩
      · exact .inr ⟨m, s, Nat.lt_succ_of_lt hm, htrapped⟩

/-- The instructions that store through pointers. -/
def Instr.stores : Instr → Prop
  | .binary _ => True
  | .unary _ => True
  | .callNative _ => True
  | _ => False

/-- Where the return frames in use stand, by their offset in the storage buffer; `entry` is the
one of `vm_run` itself. -/
def Config.frames (entry : Nat) (c : Config) : List Nat :=
  c.calls.map (fun s => s.vm.storage.len) ++ [entry]

/-- The state behind a case of the switch that does not return from `vm_run`. -/
def Exec.state? : Exec → Option State
  | .next s => some s
  | .fail s _ => some s
  | .stop _ _ => none

/-- No store of this round reaches a return frame in use. -/
def Contained (entry : Nat) (a : Alloc) (c : Config) : Prop :=
  ∀ i pc s, fetch env.code c.state.pc = some (i, pc) → i.stores →
    (exec env a (c.fetched pc) i).state? = some s →
    ∀ offset ∈ c.frames entry, s.vm.savedReturn offset = c.state.vm.savedReturn offset

theorem savedReturn_push {a : Alloc} {s s' : State} {p offset : Nat}
    (h : (s.push a p).state? = some s') : s'.vm.savedReturn offset = s.vm.savedReturn offset := by
  rcases s.push_spec a p with ⟨vm, hpushed, hpush⟩ | hpush
  · rw [hpush] at h
    cases h
    exact VM.savedReturn_eq hpushed.mem (by rw [hpushed.storage])
  · rw [hpush] at h
    cases h
    rfl

/-- The other instructions keep the return frames. -/
theorem exec_savedReturn {env : Env} {a : Alloc} {s s' : State} {i : Instr} (hi : ¬ i.stores)
    (h : (exec env a s i).state? = some s') {offset : Nat}
    (hoffset : offset + VM.returnSize ≤ s.vm.storage.len) :
    s'.vm.savedReturn offset = s.vm.savedReturn offset := by
  cases i with
  | binary op => exact absurd trivial hi
  | unary op => exact absurd trivial hi
  | callNative argc => exact absurd trivial hi
  | done => cases h
  | hardCrash => cases h
  | dropN n =>
      simp only [exec] at h
      split at h <;> cases h
      rfl
  | jump target =>
      cases h
      rfl
  | crash =>
      cases h
      rfl
  | popCrash =>
      simp only [exec] at h
      split at h <;> cases h
      rfl
  | branch cond yes no =>
      simp only [exec] at h
      split at h <;> cases h
      rfl
  | branchTop yes no =>
      simp only [exec] at h
      split at h <;> cases h
      rfl
  -- returning only makes the storage shorter
  | ret =>
      simp only [exec] at h
      split at h
      · cases h
      · rename_i r vm hpop
        split at h <;> cases h
        obtain ⟨-, -, rfl⟩ := VM.popReturn_spec hpop
        rfl
  | storageAdd amount =>
      simp only [exec] at h
      split at h <;> cases h
      · rename_i vm hvm
        rcases VM.storageResize_spec hvm with ⟨-, -, rfl⟩ | ⟨-, hgrown⟩
        · rfl
        -- the buffer may have moved; the bytes in use were copied
        · exact hgrown.savedReturn hoffset
      · rfl
  | call target argc =>
      simp only [exec] at h
      split at h
      · cases h
      · split at h
        · cases h
        · split at h <;> cases h
          · rfl
          · rename_i vm hvm
            exact (VM.pushReturn_returns hvm).kept offset hoffset
  | pushVar offset' =>
      simp only [exec] at h
      split at h
      · cases h
      · exact savedReturn_push h
  | pushArg idx =>
      simp only [exec] at h
      split at h
      · cases h
      · exact savedReturn_push h
  | pushGlobal ptr =>
      simp only [exec] at h
      split at h
      · cases h
      · exact savedReturn_push h
  | pushCrash target =>
      simp only [exec] at h
      split at h <;> cases h
      · rename_i vm hvm
        have hguarded := VM.pushCrash_spec hvm
        exact VM.savedReturn_eq hguarded.mem (by rw [hguarded.storage])
      · rfl

/-- Does no store of the next round reach a return frame in use? -/
def Config.containedWith (a : Alloc) (entry : Nat) (c : Config) : Bool :=
  match fetch env.code c.state.pc with
  | none => true
  | some (i, pc) =>
      match (exec env a (c.fetched pc) i).state? with
      | none => true
      | some s =>
          (c.frames entry).all fun offset => s.vm.savedReturn offset = c.state.vm.savedReturn offset

def Config.contained (entry : Nat) (c : Config) : Bool :=
  c.containedWith env {} entry

theorem contained_of_check {env : Env} {a : Alloc} {entry : Nat} {c : Config}
    (h : c.containedWith env a entry = true) : Contained env entry a c := by
  intro i pc s hfetch _ hs offset hoffset
  simp only [Config.containedWith, hfetch, hs, List.all_eq_true] at h
  exact of_decide_eq_true (h offset hoffset)

theorem leads_contained {env : Env} {entry n : Nat} {c c' : Config}
    (h : c.advances env n = some c')
    (hall : ((List.range n).all fun k =>
      (c.advances env k).all (Config.contained env entry)) = true) :
    Leads env (Contained env entry) c c' := by
  refine leads_of_advances h fun k d hk hd => contained_of_check ?_
  have hcheck := List.all_eq_true.mp hall k (List.mem_range.mpr hk)
  rw [hd] at hcheck
  exact hcheck

/-- Native functions that return leave the stacks and the length of the storage buffer as they
find them. -/
def NativesKeep : Prop :=
  ∀ fn vm, (env.native fn vm).1 ≠ .hardCrash →
    (env.native fn vm).2.params = vm.params ∧ (env.native fn vm).2.crash = vm.crash ∧
      (env.native fn vm).2.storage.len = vm.storage.len

end Rounds

end TreeVM
