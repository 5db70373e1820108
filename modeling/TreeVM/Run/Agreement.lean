import Mathlib.Data.Nat.Nth
import TreeVM.Run.Direct
import TreeVM.Run.Move

/-!
# The machine follows the direct semantics

The relation between a run of the machine and the direct semantics of the same functions.

* `hostOf`: the host of a run, with the answers of `realloc` and the return frames that it sees;
* `Corresponds`: the states of both agree at a point of compiled code; `Fails`: at a soft crash;
* `Tracks`: what the machine does when the direct semantics ends in a given way;
* `Tracks.andThen`: one piece after another.
-/

namespace TreeVM

/-- Native functions do not look at the crash stack. -/
def NativesBlind (env : Env) : Prop :=
  ∀ fn vm, (env.native fn vm).1 = (env.native fn vm.bare).1 ∧
    (env.native fn vm).2.bare = (env.native fn vm.bare).2

/-- The storage buffer lies in its memory. -/
def VM.Roomy (vm : VM) : Prop :=
  vm.storage.len ≤ vm.storage.cap

/-- Native functions keep that. -/
def NativesRoomy (env : Env) : Prop :=
  ∀ fn vm, vm.Roomy → (env.native fn vm).2.Roomy

/-! ## The crash stack aside -/

namespace VM

variable (vm : VM) (al : Alloc)

theorem pushParam_bare (p : Nat) : vm.bare.pushParam al p = (vm.pushParam al p).map bare := by
  rw [pushParam, pushParam]
  by_cases hfull : vm.params.length = vm.paramCap
  · have hbare : vm.bare.params.length = vm.bare.paramCap := hfull
    rw [if_pos hfull, if_pos hbare]
    split <;> rfl
  · have hbare : ¬ vm.bare.params.length = vm.bare.paramCap := hfull
    rw [if_neg hfull, if_neg hbare]
    rfl

theorem storageGrow_bare (amount : Nat) :
    vm.bare.storageGrow al amount = (vm.storageGrow al amount).map bare := by
  simp only [storageGrow, Option.bind_eq_bind, Option.pure_def]
  by_cases hcap : vm.storage.cap < vm.storage.len + amount
  · have hbare : vm.bare.storage.cap < vm.bare.storage.len + amount := hcap
    rw [if_pos hcap, if_pos hbare]
    cases al.storage <;> rfl
  · have hbare : ¬ vm.bare.storage.cap < vm.bare.storage.len + amount := hcap
    rw [if_neg hcap, if_neg hbare]
    rfl

theorem pushReturn_bare (r : ReturnFrame) :
    vm.bare.pushReturn al r = (vm.pushReturn al r).map bare := by
  rw [pushReturn, pushReturn, storageGrow_bare]
  cases vm.storageGrow al returnSize <;> rfl

theorem popReturn_bare : vm.bare.popReturn = vm.popReturn.map fun x => (x.1, x.2.bare) := by
  rw [popReturn, popReturn]
  by_cases hlen : vm.storage.len < returnSize
  · have hbare : vm.bare.storage.len < returnSize := hlen
    rw [if_pos hlen, if_pos hbare]
    rfl
  · have hbare : ¬ vm.bare.storage.len < returnSize := hlen
    rw [if_neg hlen, if_neg hbare]
    rfl

end VM

/-! ## The requests of a run -/

/-- The instruction asks for memory. -/
def Instr.asks : Instr → Bool
  | .pushVar _ => true
  | .pushArg _ => true
  | .pushGlobal _ => true
  | .storageAdd amount => 0 < amount.toInt
  | .call _ _ => true
  | _ => false

section Requests

variable (env : Env) (allocs : Nat → Alloc) (st : Status)

/-- What the machine runs in round `n`: the instruction, and the state with `pc` behind it. -/
def roundAt (n : Nat) : Option (Instr × State) :=
  match run env allocs n st with
  | .running s => (fetch env.code s.pc).map fun x => (x.1, { s with pc := x.2 })
  | .done _ _ => none

def AsksAt (n : Nat) : Prop :=
  (roundAt env allocs st n).any fun x => x.1.asks

instance : DecidablePred (AsksAt env allocs st) :=
  fun n => inferInstanceAs (Decidable ((roundAt env allocs st n).any _ = true))

/-- How often the first `n` rounds have asked for memory. -/
def asksBefore (n : Nat) : Nat :=
  Nat.count (AsksAt env allocs st) n

/-- The functions of the program, with the answers and the return frames of the run. -/
noncomputable def hostOf (P : Program) (tree : Func → Tree) : Direct.Host where
  ctx := P.ctx
  tree := tree
  native := env.native
  alloc k := allocs (Nat.nth (AsksAt env allocs st) k)
  link k :=
    match roundAt env allocs st (Nat.nth (AsksAt env allocs st) k) with
    | some (_, s) => ⟨s.pc, s.base, s.paramBase⟩
    | none => ⟨0, 0, 0⟩

variable {env allocs st} {n : Nat} {s : State} {i : Instr} {pc : Nat}

theorem roundAt_eq (hrun : run env allocs n st = .running s) (hfetch : fetch env.code s.pc = some (i, pc)) :
    roundAt env allocs st n = some (i, { s with pc := pc }) := by
  rw [roundAt, hrun]
  show (fetch env.code s.pc).map _ = _
  rw [hfetch]
  rfl

theorem asksAt_iff (hrun : run env allocs n st = .running s) (hfetch : fetch env.code s.pc = some (i, pc)) :
    AsksAt env allocs st n ↔ i.asks = true := by
  rw [AsksAt, roundAt_eq hrun hfetch]
  rfl

theorem asksBefore_next (hrun : run env allocs n st = .running s)
    (hfetch : fetch env.code s.pc = some (i, pc)) :
    asksBefore env allocs st (n + 1) = asksBefore env allocs st n + if i.asks then 1 else 0 := by
  rw [asksBefore, Nat.count_succ]
  simp only [asksAt_iff hrun hfetch]
  rfl

section Host

variable {P : Program} {tree : Func → Tree} (hrun : run env allocs n st = .running s)
  (hfetch : fetch env.code s.pc = some (i, pc)) (hasks : i.asks = true)

include hrun hfetch hasks in
theorem hostOf_alloc : (hostOf env allocs st P tree).alloc (asksBefore env allocs st n) = allocs n :=
  congrArg allocs (Nat.nth_count ((asksAt_iff hrun hfetch).mpr hasks))

include hrun hfetch hasks in
theorem hostOf_link :
    (hostOf env allocs st P tree).link (asksBefore env allocs st n) = ⟨pc, s.base, s.paramBase⟩ := by
  have hround := roundAt_eq hrun hfetch
  rw [← Nat.nth_count ((asksAt_iff hrun hfetch).mpr hasks)] at hround
  show (match roundAt env allocs st (Nat.nth (AsksAt env allocs st)
    (Nat.count (AsksAt env allocs st) n)) with
    | some (_, s) => (⟨s.pc, s.base, s.paramBase⟩ : ReturnFrame)
    | none => ⟨0, 0, 0⟩) = _
  rw [hround]

end Host

end Requests

/-! ## Agreement -/

section Agreement

variable (env : Env) (allocs : Nat → Alloc) (st : Status) (a : Act)

/-- The machine has come to `s` in `n` rounds, with as many requests as the direct semantics. -/
structure Arrives (n : Nat) (s : State) (d : Direct.State) : Prop where
  run : run env allocs n st = .running s
  asks : asksBefore env allocs st n = d.asks

/-- The activation stands at the point, and the states agree but for the crash stack. -/
structure Corresponds (p : Point) (s : State) (d : Direct.State) : Prop where
  state : StateAt a p s
  dropped : p.dropped = 0
  room : s.vm.Roomy
  vm : s.vm.bare = d.vm
  ans : s.ans = d.ans
  slots : d.slots = p.slots
  temps : d.temps = p.temps
  trouble : d.trouble = none

/-- After `n` rounds the machine is at the label `crash`, with the pads of the activation. -/
structure Fails (slots : List Slot) (pads : List Pad) (n : Nat) (s : State) (d : Direct.State) :
    Prop where
  run : run env allocs n st = unwind s s.vm.crash
  asks : asksBefore env allocs st n = d.asks
  room : s.vm.Roomy
  vm : s.vm.bare = d.vm
  ans : s.ans = d.ans
  cause : s.ans ≠ .ok
  crash : s.vm.crash = pads.map a.frame ++ a.crash
  storage : a.start + frameOf a.types slots ≤ s.vm.storage.len
  params : ∃ temps, s.vm.params = temps ++ a.args
  trouble : d.trouble = none

/-- What the machine does from round `n` on, when the direct semantics of a part of the function
ends with an outcome: `Q` holds behind the part, and a break leads to the end of its scope.  Where
the direct semantics runs out of its bound, the machine goes on for `k` rounds. -/
inductive Tracks (Γ : Ctx) (n k : Nat) (Q : State → Direct.State → Prop) :
    Outcome Direct.State → Prop
  | normal {m s d} : n ≤ m → Arrives env allocs st m s d → Q s d → Tracks Γ n k Q (.normal d)
  | brk {m s d level scope target} : n < m → Arrives env allocs st m s d →
      Γ.scopes[level]? = some scope → scope.target = some target → d.slots = Γ.slots →
      d.vm.storage.len = a.start + frameOf a.types Γ.slots →
      Corresponds a (scope.point target) s
        (d.cut (a.start + frameOf a.types scope.slots) scope.slots) →
      Tracks Γ n k Q (.brk (level + 1) d)
  | crash {m s d} : n < m → Fails env allocs st a Γ.slots Γ.pads m s d → Tracks Γ n k Q (.crash d)
  | halt {m vm d} : n < m → run env allocs m st = .done d.ans vm → vm.bare = d.vm →
      d.trouble = none → Tracks Γ n k Q (.halt d)
  | overwritten {d} : d.trouble = some .overwritten → Tracks Γ n k Q (.halt d)
  | timeout {m s d} : n + k ≤ m → run env allocs m st = .running s → Tracks Γ n k Q (.timeout d)

end Agreement

section Tracks

variable {env : Env} {allocs : Nat → Alloc} {st : Status} {a : Act} {Γ : Ctx} {n m k : Nat}
  {Q Q' : State → Direct.State → Prop} {s s' : State} {d d' : Direct.State}

/-- What comes behind a normal end -/
def Outcome.andThen {σ : Type} (o : Outcome σ) (f : σ → Outcome σ) : Outcome σ :=
  match o with
  | .normal s => f s
  | .brk level s => .brk level s
  | .crash s => .crash s
  | .halt s => .halt s
  | .timeout s => .timeout s

namespace Tracks

/-- Earlier rounds and another bound. -/
theorem earlier {n' k' : Nat} {o : Outcome Direct.State} (h : Tracks env allocs st a Γ n k Q o)
    (hn : n' ≤ n) (hk : n' + k' ≤ n + k) : Tracks env allocs st a Γ n' k' Q o := by
  cases h with
  | normal hle hat hq => exact .normal (Nat.le_trans hn hle) hat hq
  | brk hlt hat hscope htarget hslots hlen hc =>
      exact .brk (Nat.lt_of_le_of_lt hn hlt) hat hscope htarget hslots hlen hc
  | crash hlt hfails => exact .crash (Nat.lt_of_le_of_lt hn hlt) hfails
  | halt hlt hrun hvm htrouble => exact .halt (Nat.lt_of_le_of_lt hn hlt) hrun hvm htrouble
  | overwritten htrouble => exact .overwritten htrouble
  | timeout hle hrun => exact .timeout (Nat.le_trans hk hle) hrun

theorem andThen {o : Outcome Direct.State} {f : Direct.State → Outcome Direct.State}
    (h : Tracks env allocs st a Γ n k Q o)
    (hf : ∀ {m s d}, n ≤ m → Arrives env allocs st m s d → Q s d →
      Tracks env allocs st a Γ m k Q' (f d)) :
    Tracks env allocs st a Γ n k Q' (o.andThen f) := by
  cases h with
  | @normal m s d hle hat hq => exact (hf hle hat hq).earlier hle (Nat.add_le_add_right hle k)
  | brk hlt hat hscope htarget hslots hlen hc =>
      exact .brk hlt hat hscope htarget hslots hlen hc
  | crash hlt hfails => exact .crash hlt hfails
  | halt hlt hrun hvm htrouble => exact .halt hlt hrun hvm htrouble
  | overwritten htrouble => exact .overwritten htrouble
  | timeout hle hrun => exact .timeout hle hrun

end Tracks

/-! ## One round -/

section Round

variable {i : Instr} {pc : Nat} (hat : Arrives env allocs st n s d)
  (hfetch : fetch env.code s.pc = some (i, pc))

include hat hfetch in
theorem Arrives.step :
    TreeVM.run env allocs (n + 1) st = (exec env (allocs n) { s with pc := pc } i).status := by
  rw [run_next, hat.run]
  show TreeVM.step env (allocs n) s = _
  rw [TreeVM.step, hfetch]

include hat hfetch in
theorem Arrives.asked (hasks : d'.asks = d.asks + if i.asks then 1 else 0) :
    asksBefore env allocs st (n + 1) = d'.asks := by
  rw [asksBefore_next hat.run hfetch, hat.asks, hasks]

include hat hfetch in
theorem Arrives.next (hexec : exec env (allocs n) { s with pc := pc } i = .next s')
    (hasks : d'.asks = d.asks + if i.asks then 1 else 0) : Arrives env allocs st (n + 1) s' d' where
  run := by rw [hat.step hfetch, hexec, Exec.status]
  asks := hat.asked hfetch hasks

include hat hfetch in
theorem Tracks.next (hexec : exec env (allocs n) { s with pc := pc } i = .next s')
    (hasks : d'.asks = d.asks + if i.asks then 1 else 0) (hq : Q s' d') :
    Tracks env allocs st a Γ n k Q (.normal d') :=
  .normal (Nat.le_succ n) (hat.next hfetch hexec hasks) hq

include hat hfetch in
theorem Tracks.stop {r : VmResult} {vm : VM}
    (hexec : exec env (allocs n) { s with pc := pc } i = .stop r vm) (hvm : vm.bare = d'.vm)
    (hans : d'.ans = r) (htrouble : d'.trouble = none) : Tracks env allocs st a Γ n k Q (.halt d') := by
  refine .halt (Nat.lt_succ_self n) ?_ hvm htrouble
  rw [hat.step hfetch, hexec, Exec.status, hans]

include hat hfetch in
theorem Tracks.fail {cause : VmResult} {p : Point}
    (hexec : exec env (allocs n) { s with pc := pc } i = .fail s' cause) (hc : Corresponds a p s d)
    (hslots : p.slots = Γ.slots) (hpads : p.pads = Γ.pads)
    (hstorage : s'.vm.storage.len = s.vm.storage.len) (hroom : s'.vm.Roomy)
    (hcrash : s'.vm.crash = s.vm.crash) (hparams : ∃ temps, s'.vm.params = temps ++ a.args)
    (hans : s'.ans = s.ans) (hcause : cause ≠ .ok) (hvm : s'.vm.bare = d'.vm)
    (hans' : d'.ans = d.ans.first cause) (hasks : d'.asks = d.asks + if i.asks then 1 else 0)
    (htrouble : d'.trouble = d.trouble) : Tracks env allocs st a Γ n k Q (.crash d') := by
  refine .crash (m := n + 1) (s := { s' with ans := s'.ans.first cause }) (Nat.lt_succ_self n)
    ⟨?_, hat.asked hfetch hasks, hroom, hvm, ?_, ?_, ?_, ?_, hparams, htrouble.trans hc.trouble⟩
  · rw [hat.step hfetch, hexec, Exec.status]
  · show s'.ans.first cause = d'.ans
    rw [hans', hans, hc.ans]
  · show s'.ans.first cause ≠ .ok
    rw [VmResult.first]
    split
    · exact hcause
    · assumption
  · show s'.vm.crash = _
    rw [hcrash, hc.state.crash, hpads]
  · show _ ≤ s'.vm.storage.len
    rw [hstorage, hc.state.storage, hslots]

end Round

end Tracks

end TreeVM
