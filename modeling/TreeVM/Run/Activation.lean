import TreeVM.Compile.Program
import TreeVM.Run.Trace

/-!
# Activations

How the stacks of the machine are divided among the functions that are running.

* `Act`: one activation, with what it found when it was entered;
* `StateAt`: the state of the machine when an activation stands at a point of its code;
* `World`: the pads of the current activation, its callers with theirs, and the history that
  belongs to them;
* `World.innermost`: the innermost pad, wherever it was installed.
-/

namespace TreeVM

/-- An activation.  `start` is the length of the storage buffer behind its return frame; `args`
and `crash` are the parameter stack and the crash stack at its entry. -/
structure Act where
  env : CompileEnv
  bytes : Code
  base : Nat
  start : Nat
  args : List Nat
  paramBase : Nat
  crash : List CrashFrame

namespace Act

variable (a : Act)

def types : List Ty :=
  a.env.types

def sig : Sig :=
  a.env.func.sig

/-- The crash frame of a pad. -/
def frame (pad : Pad) : CrashFrame where
  pc := a.base + pad.handler
  base := a.base
  storageLen := a.start + frameOf a.types pad.slots
  paramLen := a.args.length
  paramBase := a.paramBase

end Act

/-- The activation stands at the point `p`. -/
structure StateAt (a : Act) (p : Point) (s : State) : Prop where
  pc : s.pc = a.base + p.pc
  base : s.base = a.base
  paramBase : s.paramBase = a.paramBase
  storage : s.vm.storage.len = a.start + frameOf a.types p.slots
  params : ∃ temps, temps.length = p.temps.length ∧ s.vm.params = temps ++ a.args.drop p.dropped
  crash : s.vm.crash = p.pads.map a.frame ++ a.crash

/-- The activation `a'` that a call in the state `s` enters; `ps` are the temporaries of the
caller. -/
structure Calls (ps : List Nat) (s : State) (a' : Act) : Prop where
  start : a'.start = s.vm.storage.len + VM.returnSize
  args : a'.args = s.vm.params
  paramBase : a'.paramBase + a'.sig.argc = s.vm.params.length
  crash : a'.crash = s.vm.crash
  count : a'.sig.argc ≤ ps.length
  types : Compiler.argTypes ps a'.sig.argc = a'.sig.args

section World

variable (P : Program) (code : Nat → UInt8) (strict : Prop)

/-- An activation of a function of the program. -/
structure Act.Ok (a : Act) : Prop where
  has : P.Has a.base a.env.func a.bytes
  ctx : a.env.ctx = P.ctx
  place : a.env.place = P.place
  room : a.paramBase + a.sig.argc ≤ a.args.length

def Act.image (a : Act) : Image :=
  P.image code a.base a.env.func a.bytes

/-- A known point of the code of the activation. -/
structure PointOk (a : Act) (p : Point) : Prop where
  slots : SlotsOk a.types p.slots
  pads : ∀ pad ∈ p.pads, pad.slots <:+ p.slots
  floor : strict → ∀ below, p.floor = some below → below <:+ p.pads
  safe : Safe a.env (a.image P code) strict p

/-- The activation of the function that the program is about. -/
structure Main (vm : VM) (a : Act) : Prop where
  ok : a.Ok P
  start : a.start = vm.storage.len + VM.returnSize
  args : a.args = vm.params
  paramBase : a.paramBase = 0
  crash : a.crash = vm.crash
  base : a.base = P.start.toNat
  func : a.env.func = P.func

/-- The current activation with its pads, the callers with the points where they go on, the calls
and the installed pads; `vm` is the VM before the run. -/
inductive World (vm : VM) :
    Act → List Pad → List (Act × Point) → List State → List Installed → Prop
  | main {a} : Main P vm a → World vm a [] [] [] []
  | pad {a pads levels installed pad pc} {i : Installed} :
      World vm a pads levels i.calls installed → PointOk P code strict a (pad.point pads) →
      StateAt a { pad.point pads with pc := pc } i.state →
      World vm a (pad :: pads) levels i.calls (i :: installed)
  | call {a p ps levels calls installed s a'} : World vm a p.pads levels calls installed →
      PointOk P code strict a p → p.dropped = 0 → StateAt a { p with temps := ps } s →
      p.temps = ps.drop a'.sig.ins.length → a'.Ok P → Calls ps s a' →
      World vm a' [] ((a, p) :: levels) (s :: calls) installed

end World

namespace World

variable {P : Program} {code : Nat → UInt8} {strict : Prop} {vm : VM} {a : Act} {pads : List Pad}
  {levels : List (Act × Point)} {calls : List State} {installed : List Installed}

theorem ok (h : World P code strict vm a pads levels calls installed) : a.Ok P := by
  induction h with
  | main hmain => exact hmain.ok
  | pad _ _ _ ih => exact ih
  | call _ _ _ _ _ hok _ _ => exact hok

/-- The return frames in use lie below the locals of the activation. -/
theorem frames_le (h : World P code strict vm a pads levels calls installed) :
    vm.storage.len + VM.returnSize ≤ a.start ∧
      ∀ s ∈ calls, s.vm.storage.len + VM.returnSize ≤ a.start := by
  induction h with
  | main hmain => exact ⟨Nat.le_of_eq hmain.start.symm, fun s hs => by cases hs⟩
  | pad _ _ _ ih => exact ih
  | call _ _ _ hat _ _ hcalls ih =>
      have hup : _ ≤ _ := hat.storage ▸ Nat.le_add_right _ _
      rw [hcalls.start]
      refine ⟨by omega, fun s hs => ?_⟩
      rcases List.mem_cons.mp hs with rfl | hs
      · exact Nat.le_refl _
      · have := ih.2 s hs
        omega

/-- Where the innermost pad was installed. -/
structure Innermost (P : Program) (code : Nat → UInt8) (strict : Prop) (vm : VM)
    (frames : List CrashFrame) (installed : List Installed) (a : Act) (pad : Pad)
    (below : List Pad) (levels : List (Act × Point)) (i : Installed) (rest : List Installed) :
    Prop where
  installed : installed = i :: rest
  world : World P code strict vm a below levels i.calls rest
  point : PointOk P code strict a (pad.point below)
  state : ∃ pc, StateAt a { pad.point below with pc := pc } i.state
  frames : frames = a.frame pad :: (below.map a.frame ++ a.crash)

/-- The innermost pad is one of the activation, or else one of its callers; it was installed with
less storage and fewer parameters. -/
theorem innermost (h : World P code strict vm a pads levels calls installed) {size : Nat}
    (hsize : ∀ pad ∈ pads, frameOf a.types pad.slots ≤ size) :
    (installed = [] ∧ pads.map a.frame ++ a.crash = vm.crash) ∨
      ∃ a' pad below levels' i rest,
        Innermost P code strict vm (pads.map a.frame ++ a.crash) installed a' pad below levels' i
          rest ∧
        a'.start + frameOf a'.types pad.slots ≤ a.start + size ∧ a'.args <:+ a.args := by
  induction h generalizing size with
  | main hmain => exact .inl ⟨rfl, hmain.crash⟩
  | @pad a pads levels installed pad pc i hworld hpoint hstate _ =>
      refine .inr ⟨a, pad, pads, levels, i, installed,
        ⟨rfl, hworld, hpoint, ⟨pc, hstate⟩, rfl⟩, ?_, List.suffix_refl _⟩
      exact Nat.add_le_add_left (hsize pad List.mem_cons_self) _
  | @call a p ps levels calls installed s a' hworld hpoint hdropped hstate _ _ hcalls ih =>
      have hcrash : ([] : List Pad).map a'.frame ++ a'.crash = p.pads.map a.frame ++ a.crash := by
        rw [List.map_nil, List.nil_append, hcalls.crash, hstate.crash]
      rw [hcrash]
      have hbelow : ∀ pad ∈ p.pads, frameOf a.types pad.slots ≤ frameOf a.types p.slots :=
        fun pad hpad => frameOf_le_of_suffix hpoint.slots (hpoint.pads pad hpad)
      rcases ih hbelow with hnone | ⟨a'', pad, below, levels', i, rest, hinner, hstart, hargs⟩
      · exact .inl hnone
      · refine .inr ⟨a'', pad, below, levels', i, rest, hinner, ?_, hargs.trans ?_⟩
        · have hlen : s.vm.storage.len = a.start + frameOf a.types p.slots := hstate.storage
          have hstart' := hcalls.start
          omega
        · obtain ⟨temps, -, hparams⟩ := hstate.params
          rw [hcalls.args, hparams, hdropped]
          exact List.suffix_append _ _

end World

end TreeVM
