import TreeVM.VM.Stacks

/-!
# Capacities

The capacities of the three stacks decide when `realloc` is called.  While it finds memory and leaves
the storage buffer where it is, nothing else depends on them.

* `Caps`, `VM.withCaps`: the same stacks with other capacities;
* `Alloc.inPlace`: the answer of such a `realloc`;
* `run_withCaps`: a run with other capacities is the same run.
-/

namespace TreeVM

structure Caps where
  storage : Nat
  params : Nat
  crash : Nat

def VM.withCaps (vm : VM) (k : Caps) : VM :=
  { vm with
    storage := { vm.storage with cap := k.storage }
    paramCap := k.params
    crashCap := k.crash }

def VM.caps (vm : VM) : Caps :=
  ⟨vm.storage.cap, vm.paramCap, vm.crashCap⟩

def State.withCaps (s : State) (k : Caps) : State :=
  { s with vm := s.vm.withCaps k }

section Fields

variable (s : State) (k : Caps)

@[simp] theorem State.withCaps_params : (s.withCaps k).vm.params = s.vm.params := rfl
@[simp] theorem State.withCaps_mem : (s.withCaps k).vm.mem = s.vm.mem := rfl
@[simp] theorem State.withCaps_crash : (s.withCaps k).vm.crash = s.vm.crash := rfl
@[simp] theorem State.withCaps_len : (s.withCaps k).vm.storage.len = s.vm.storage.len := rfl
@[simp] theorem State.withCaps_pc : (s.withCaps k).pc = s.pc := rfl
@[simp] theorem State.withCaps_base : (s.withCaps k).base = s.base := rfl
@[simp] theorem State.withCaps_paramBase : (s.withCaps k).paramBase = s.paramBase := rfl

@[simp] theorem badOffset_withCaps (offset : Int) :
    badOffset (s.withCaps k) offset ↔ badOffset s offset := Iff.rfl

end Fields

def Exec.withCaps (k : Caps) : Exec → Exec
  | .next s => .next (s.withCaps k)
  | .fail s cause => .fail (s.withCaps k) cause
  | .stop r vm => .stop r (vm.withCaps k)

def Status.withCaps (k : Caps) : Status → Status
  | .running s => .running (s.withCaps k)
  | .done r vm => .done r (vm.withCaps k)

/-- The VM that a status is about. -/
def Exec.vm : Exec → VM
  | .next s => s.vm
  | .fail s _ => s.vm
  | .stop _ vm => vm

def Status.vm : Status → VM
  | .running s => s.vm
  | .done _ vm => vm

/-- `realloc` finds memory, and the storage buffer stands at `data` afterwards. -/
def Alloc.inPlace (data : Nat) : Alloc :=
  ⟨true, true, some data⟩

/-- Native functions do not look at capacities, and leave the storage buffer where it is. -/
structure NativesUncapped (env : Env) : Prop where
  same : ∀ fn vm k, env.native fn (vm.withCaps k) = ((env.native fn vm).1, (env.native fn vm).2.withCaps k)
  data : ∀ fn vm, (env.native fn vm).2.storage.data = vm.storage.data

/-! ## The stacks -/

/-- Bytes that are written where they were read. -/
theorem writeBytes_readBytes (mem : Nat → UInt8) (a n : Nat) :
    writeBytes mem a (readBytes mem a n) = mem := by
  funext x
  by_cases hbefore : x < a
  · exact writeBytes_before hbefore
  by_cases hbehind : a + n ≤ x
  · exact writeBytes_behind (by simpa using hbehind)
  · obtain ⟨k, rfl⟩ : ∃ k, x = a + k := ⟨x - a, by omega⟩
    have hk : k < (readBytes mem a n).length := by
      rw [length_readBytes]
      omega
    rw [writeBytes_getElem hk, getElem_readBytes]

namespace VM

variable {vm vm' : VM} {data : Nat}

/-- The VM behind the growing half of `storage_resize`, but for the capacity -/
def grown (vm : VM) (data amount : Nat) : VM :=
  { vm with
    mem := writeBytes vm.mem (data + vm.storage.len) (List.replicate amount 0)
    storage := { vm.storage with data := data, len := vm.storage.len + amount } }

theorem storageGrow_inPlace (vm : VM) {amount : Nat}
    (hdata : vm.storage.data = data ∨ vm.storage.len = 0 ∧ vm.storage.cap = 0 ∧ 0 < amount) :
    ∃ k, vm.storageGrow (.inPlace data) amount = some ((vm.grown data amount).withCaps k) := by
  by_cases hcap : vm.storage.cap < vm.storage.len + amount
  · -- the bytes are copied to where they are, if there are any
    have hmem : writeBytes vm.mem data (readBytes vm.mem vm.storage.data vm.storage.len) = vm.mem := by
      rcases hdata with rfl | ⟨hlen, -, -⟩
      · exact writeBytes_readBytes _ _ _
      · rw [hlen]
        exact writeBytes_readBytes vm.mem data 0
    refine ⟨⟨doubleUntil (vm.storage.len + amount) (vm.storage.len + amount)
      (if vm.storage.cap = 0 then 64 else vm.storage.cap), vm.paramCap, vm.crashCap⟩, ?_⟩
    simp only [storageGrow, if_pos hcap, Alloc.inPlace, Option.map_some, Option.bind_eq_bind,
      Option.bind_some, Option.pure_def, reallocStorage, hmem]
    rfl
  · have hsame : vm.storage.data = data := hdata.resolve_right fun hfresh => by omega
    refine ⟨vm.caps, ?_⟩
    simp only [storageGrow, if_neg hcap, Option.bind_eq_bind, Option.bind_some, Option.pure_def, grown,
      ← hsame]
    rfl

theorem storageResize_withCaps (hdata : vm.storage.data = data) (amount : Int) (k : Caps) :
    ∃ k', (vm.withCaps k).storageResize (.inPlace data) amount =
      (vm.storageResize (.inPlace data) amount).map (·.withCaps k') := by
  rw [storageResize, storageResize]
  split
  · refine ⟨k, ?_⟩
    simp only
    by_cases hlen : vm.storage.len < (-amount).toNat
    · rw [if_pos hlen, if_pos (by exact hlen)]
      rfl
    · rw [if_neg hlen, if_neg (by exact hlen)]
      rfl
  · have hgrow : ∀ v : VM, v.storage.data = data → ∃ k, v.storageGrow (.inPlace data) amount.toNat =
        some ((v.grown data amount.toNat).withCaps k) := fun v hv => storageGrow_inPlace v (.inl hv)
    obtain ⟨k₁, h₁⟩ := hgrow vm hdata
    obtain ⟨k₂, h₂⟩ := hgrow (vm.withCaps k) hdata
    exact ⟨k₂, by rw [h₁, h₂]; rfl⟩

theorem storageResize_data (hdata : vm.storage.data = data) {amount : Int}
    (h : vm.storageResize (.inPlace data) amount = some vm') : vm'.storage.data = data := by
  rw [storageResize] at h
  split at h
  · simp only at h
    split at h
    · cases h
    · cases h
      exact hdata
  · obtain ⟨k, hgrow⟩ : ∃ k, vm.storageGrow (.inPlace data) amount.toNat =
        some ((vm.grown data amount.toNat).withCaps k) := storageGrow_inPlace vm (.inl hdata)
    rw [hgrow] at h
    cases h
    rfl

/-- The frame of a call, also on the first buffer of a VM -/
theorem pushReturn_inPlace (vm : VM) (r : ReturnFrame)
    (hdata : vm.storage.data = data ∨ vm.storage.len = 0 ∧ vm.storage.cap = 0) :
    ∃ k, vm.pushReturn (.inPlace data) r = some (VM.withCaps { vm.grown data returnSize with
      mem := writeBytes (vm.grown data returnSize).mem (data + (vm.storage.len + returnSize) - returnSize)
        (bytesOf 8 r.pc ++ bytesOf 8 r.base ++ bytesOf 8 r.paramBase) } k) := by
  obtain ⟨k, hgrow⟩ : ∃ k, vm.storageGrow (.inPlace data) returnSize =
      some ((vm.grown data returnSize).withCaps k) :=
    storageGrow_inPlace vm (hdata.imp_right fun h => ⟨h.1, h.2, by decide⟩)
  exact ⟨k, by rw [pushReturn, hgrow]; rfl⟩

theorem pushParam_withCaps (vm : VM) (data p : Nat) (k : Caps) : ∃ k',
    (vm.withCaps k).pushParam (.inPlace data) p = (vm.pushParam (.inPlace data) p).map (·.withCaps k') := by
  have hpush : ∀ v : VM, ∃ cap, v.pushParam (.inPlace data) p =
      some { v with params := p :: v.params, paramCap := cap } := by
    intro v
    rw [pushParam]
    split
    · exact ⟨_, rfl⟩
    · exact ⟨v.paramCap, rfl⟩
  obtain ⟨cap, h₁⟩ := hpush vm
  obtain ⟨cap', h₂⟩ := hpush (vm.withCaps k)
  exact ⟨{ k with params := cap' }, by rw [h₁, h₂]; rfl⟩

theorem pushCrash_withCaps (vm : VM) (data pc base paramBase : Nat) (k : Caps) : ∃ k',
    (vm.withCaps k).pushCrash (.inPlace data) pc base paramBase =
      (vm.pushCrash (.inPlace data) pc base paramBase).map (·.withCaps k') := by
  have hpush : ∀ v : VM, ∃ cap, v.pushCrash (.inPlace data) pc base paramBase =
      some { v with
        crash := ⟨pc, base, v.storage.len, v.params.length, paramBase⟩ :: v.crash, crashCap := cap } := by
    intro v
    simp only [pushCrash]
    split
    · exact ⟨_, rfl⟩
    · exact ⟨v.crashCap, rfl⟩
  obtain ⟨cap, h₁⟩ := hpush vm
  obtain ⟨cap', h₂⟩ := hpush (vm.withCaps k)
  exact ⟨{ k with crash := cap' }, by rw [h₁, h₂]; rfl⟩

end VM

/-! ## Rounds -/

section Rounds

variable {env : Env} {data : Nat} {s : State}

theorem push_withCaps (s : State) (data p : Nat) (k : Caps) : ∃ k',
    (s.withCaps k).push (.inPlace data) p = (s.push (.inPlace data) p).withCaps k' := by
  obtain ⟨k', hpush⟩ := VM.pushParam_withCaps s.vm data p k
  refine ⟨k', ?_⟩
  have hpush : (s.withCaps k).vm.pushParam (.inPlace data) p = _ := hpush
  rw [State.push, State.push, hpush]
  cases hs : s.vm.pushParam (.inPlace data) p with
  | some vm => rfl
  | none =>
      -- there is always room
      rw [VM.pushParam] at hs
      split at hs <;> cases hs

theorem push_data (hdata : s.vm.storage.data = data) (a : Alloc) (p : Nat) :
    (s.push a p).vm.storage.data = data := by
  rcases s.push_spec a p with ⟨vm, hpushed, hpush⟩ | hpush
  · rw [hpush]
    show vm.storage.data = data
    rw [hpushed.storage, hdata]
  · rw [hpush]
    exact hdata

/-- One instruction does the same, whatever the capacities are. -/
theorem exec_withCaps (hnatives : NativesUncapped env) (hdata : s.vm.storage.data = data) (i : Instr)
    (k : Caps) : ∃ k', exec env (.inPlace data) (s.withCaps k) i =
      (exec env (.inPlace data) s i).withCaps k' := by
  cases i with
  | storageAdd amount =>
      obtain ⟨k', hresize⟩ := VM.storageResize_withCaps hdata amount.toInt k
      have hresize : (s.withCaps k).vm.storageResize (.inPlace data) amount.toInt = _ := hresize
      simp only [exec, hresize]
      cases s.vm.storageResize (.inPlace data) amount.toInt with
      | some vm => exact ⟨k', rfl⟩
      | none => exact ⟨k, rfl⟩
  | pushVar offset =>
      simp only [exec, badOffset_withCaps]
      split
      · exact ⟨k, rfl⟩
      · exact push_withCaps s data (fromEnd s offset.toInt) k
  | pushArg idx =>
      simp only [exec, State.withCaps_params, State.withCaps_paramBase]
      cases s.vm.params.reverse[s.paramBase + idx.toNat]? with
      | none => exact ⟨k, rfl⟩
      | some p => exact push_withCaps s data p k
  | pushGlobal ptr =>
      simp only [exec]
      split
      · exact ⟨k, rfl⟩
      · exact push_withCaps s data ptr.toNat k
  | pushCrash target =>
      obtain ⟨k', hpush⟩ := VM.pushCrash_withCaps s.vm data (s.base + target.toNat) s.base
        s.paramBase k
      have hpush : (s.withCaps k).vm.pushCrash (.inPlace data) (s.base + target.toNat) s.base
        s.paramBase = _ := hpush
      simp only [exec, State.withCaps_base, State.withCaps_paramBase, hpush]
      cases s.vm.pushCrash (.inPlace data) (s.base + target.toNat) s.base s.paramBase with
      | some vm => exact ⟨k', rfl⟩
      | none => exact ⟨k, rfl⟩
  | call target argc =>
      -- both frames stand at the same place, and hold the same
      obtain ⟨k₁, h₁⟩ := VM.pushReturn_inPlace s.vm ⟨s.pc, s.base, s.paramBase⟩ (.inl hdata)
      obtain ⟨k₂, h₂⟩ := VM.pushReturn_inPlace (s.vm.withCaps k)
        ⟨s.pc, s.base, s.paramBase⟩ (.inl hdata)
      have h₂ : (s.withCaps k).vm.pushReturn (.inPlace data) ⟨s.pc, s.base, s.paramBase⟩ = _ := h₂
      simp only [exec, State.withCaps_pc, State.withCaps_base, State.withCaps_paramBase,
        State.withCaps_params, h₁, h₂]
      split
      · exact ⟨k, rfl⟩
      split
      · exact ⟨k, rfl⟩
      · exact ⟨k₂, rfl⟩
  | callNative argc =>
      refine ⟨k, ?_⟩
      simp only [exec, execNative, State.withCaps_params, State.withCaps_mem]
      cases s.vm.params with
      | nil => rfl
      | cons p rest =>
          have hnative := hnatives.same (readPtr s.vm.mem p) (s.withParams rest).vm k
          have hnative : env.native (readPtr s.vm.mem p) ((s.withCaps k).withParams rest).vm = _ := hnative
          simp only [hnative]
          split
          · rfl
          split
          · rfl
          -- the parameters behind the call have to be as many as before
          rcases env.native (readPtr s.vm.mem p) (s.withParams rest).vm with ⟨r, vm⟩
          cases r with
          | ok =>
              have hlen : (vm.withCaps k).params = vm.params := rfl
              simp only [hlen]
              split <;> rfl
          | _ => rfl
  | ret =>
      refine ⟨k, ?_⟩
      have hpop : (s.withCaps k).vm.popReturn = s.vm.popReturn.map fun r => (r.1, r.2.withCaps k) := by
        rw [VM.popReturn, VM.popReturn, State.withCaps_len]
        split <;> rfl
      simp only [exec, hpop]
      cases s.vm.popReturn with
      | none => rfl
      | some r =>
          simp only [Option.map_some]
          split <;> rfl
  | binary op =>
      refine ⟨k, ?_⟩
      simp only [exec, State.withCaps_params, State.withCaps_mem]
      split
      · split <;> rfl
      · rfl
  | branch cond yes no =>
      refine ⟨k, ?_⟩
      simp only [exec, badOffset_withCaps]
      split <;> rfl
  | dropN | unary | branchTop =>
      refine ⟨k, ?_⟩
      simp only [exec]
      rw [State.withCaps_params]
      split <;> rfl
  | popCrash =>
      refine ⟨k, ?_⟩
      simp only [exec, State.withCaps_crash]
      split <;> rfl
  | done | jump | crash | hardCrash => exact ⟨k, rfl⟩

/-- The storage buffer stays where it is. -/
theorem exec_data (hnatives : NativesUncapped env) (hdata : s.vm.storage.data = data) (i : Instr) :
    (exec env (.inPlace data) s i).vm.storage.data = data := by
  cases i with
  | storageAdd amount =>
      simp only [exec]
      split
      · rename_i vm hvm
        exact VM.storageResize_data hdata hvm
      · exact hdata
  | pushVar offset =>
      simp only [exec]
      split
      · exact hdata
      · exact push_data hdata _ _
  | pushArg idx =>
      simp only [exec]
      split
      · exact hdata
      · exact push_data hdata _ _
  | pushGlobal ptr =>
      simp only [exec]
      split
      · exact hdata
      · exact push_data hdata _ _
  | pushCrash target =>
      simp only [exec]
      split
      · rename_i vm hvm
        show vm.storage.data = data
        rw [(VM.pushCrash_spec hvm).storage, hdata]
      · exact hdata
  | call target argc =>
      obtain ⟨k, hpush⟩ := VM.pushReturn_inPlace s.vm ⟨s.pc, s.base, s.paramBase⟩ (.inl hdata)
      simp only [exec, hpush]
      split
      · exact hdata
      split
      · exact hdata
      · rfl
  | callNative argc =>
      simp only [exec, execNative]
      split
      · exact hdata
      · rename_i p rest _
        have hkept := hnatives.data (readPtr s.vm.mem p) (s.withParams rest).vm
        split
        · exact hdata
        split
        · exact hdata
        rcases hnative : env.native (readPtr s.vm.mem p) (s.withParams rest).vm with ⟨r, vm⟩
        rw [hnative] at hkept
        have hvm : vm.storage.data = data := hkept.trans hdata
        cases r with
        | ok =>
            simp only
            split <;> exact hvm
        | _ => exact hvm
  | ret =>
      simp only [exec]
      split
      · exact hdata
      · rename_i r vm hpop
        obtain ⟨-, -, rfl⟩ := VM.popReturn_spec hpop
        split <;> exact hdata
  | binary op =>
      simp only [exec]
      split
      · split <;> exact hdata
      · exact hdata
  | dropN | unary | branch | branchTop | popCrash =>
      simp only [exec]
      split <;> exact hdata
  | done | jump | crash | hardCrash => exact hdata

theorem unwind_withCaps (k : Caps) (frames : List CrashFrame) :
    unwind (s.withCaps k) frames = (unwind s frames).withCaps k := by
  induction frames generalizing s with
  | nil => rfl
  | cons f rest ih =>
      rw [unwind, unwind, State.withCaps_len, State.withCaps_params]
      split
      · simp only
        split
        · rfl
        · exact ih (s := { s with ans := s.ans.first .badCrashFrame })
      · rfl

theorem unwind_data (hdata : s.vm.storage.data = data) (frames : List CrashFrame) :
    (unwind s frames).vm.storage.data = data := by
  induction frames generalizing s with
  | nil => exact hdata
  | cons f rest ih =>
      rw [unwind]
      split
      · simp only
        split
        · exact hdata
        · exact ih (s := { s with ans := s.ans.first .badCrashFrame }) hdata
      · exact hdata

theorem Exec.status_withCaps (e : Exec) (k : Caps) : (e.withCaps k).status = e.status.withCaps k := by
  cases e with
  | next s => rfl
  | stop r vm => rfl
  | fail s cause => exact unwind_withCaps (s := { s with ans := s.ans.first cause }) k s.vm.crash

theorem Exec.status_data {e : Exec} (hdata : e.vm.storage.data = data) :
    e.status.vm.storage.data = data := by
  cases e with
  | next s => exact hdata
  | stop r vm => exact hdata
  | fail s cause => exact unwind_data (s := { s with ans := s.ans.first cause }) hdata s.vm.crash

theorem step_withCaps (hnatives : NativesUncapped env) (hdata : s.vm.storage.data = data) (k : Caps) :
    ∃ k', step env (.inPlace data) (s.withCaps k) = (step env (.inPlace data) s).withCaps k' := by
  rw [step, step, State.withCaps_pc]
  split
  · exact ⟨k, rfl⟩
  · rename_i i pc _
    obtain ⟨k', hexec⟩ := exec_withCaps (s := { s with pc := pc }) hnatives hdata i k
    refine ⟨k', ?_⟩
    rw [← Exec.status_withCaps, ← hexec]
    rfl

theorem step_data (hnatives : NativesUncapped env) (hdata : s.vm.storage.data = data) :
    (step env (.inPlace data) s).vm.storage.data = data := by
  rw [step]
  split
  · exact hdata
  · rename_i i pc _
    exact Exec.status_data (exec_data (s := { s with pc := pc }) hnatives hdata i)

/-! ## Runs -/

/-- The same run with other capacities, whatever the capacities are at the beginning -/
theorem run_withCaps (hnatives : NativesUncapped env) (n : Nat) {st : Status}
    (hdata : st.vm.storage.data = data) (k : Caps) : ∃ k',
      run env (fun _ => .inPlace data) n (st.withCaps k) =
        (run env (fun _ => .inPlace data) n st).withCaps k' := by
  induction n generalizing st k with
  | zero => exact ⟨k, rfl⟩
  | succ n ih =>
      cases st with
      | done r vm => exact ⟨k, rfl⟩
      | running s =>
          obtain ⟨k₁, hstep⟩ := step_withCaps (s := s) hnatives hdata k
          obtain ⟨k₂, hrest⟩ := ih (step_data hnatives hdata) k₁
          refine ⟨k₂, ?_⟩
          rw [run, ← hrest, ← hstep]
          rfl

/-- A VM as `main` has it at the beginning, beside the memory of another one. -/
def VM.anew (vm : VM) : VM :=
  { vm with storage := ⟨0, 0, 0⟩, params := [], paramCap := 0, crash := [], crashCap := 0 }

/-- The frame of `vm_run` itself stands at the beginning of the buffer, be it new or not. -/
theorem enter_anew {vm : VM} (hlen : vm.storage.len = 0) (hparams : vm.params = []) (hcrash : vm.crash = [])
    (hdata : vm.storage.data = data ∨ vm.storage.cap = 0) (code : Nat) :
    ∃ k, enter (.inPlace data) vm.anew code = (enter (.inPlace data) vm code).withCaps k ∧
      (enter (.inPlace data) vm code).vm.storage.data = data := by
  obtain ⟨k₁, h₁⟩ := VM.pushReturn_inPlace vm ⟨0, 0, 0⟩ (hdata.imp_right fun hcap => ⟨hlen, hcap⟩)
  obtain ⟨k₂, h₂⟩ := @VM.pushReturn_inPlace data vm.anew ⟨0, 0, 0⟩ (.inr ⟨rfl, rfl⟩)
  refine ⟨k₂, ?_, ?_⟩
  · rw [enter, enter, h₁, h₂]
    obtain ⟨mem, ⟨d, len, cap⟩, params, paramCap, crash, crashCap⟩ := vm
    cases hlen
    cases hparams
    cases hcrash
    rfl
  · rw [enter, h₁]
    rfl

end Rounds

end TreeVM
