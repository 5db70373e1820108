import TreeVM.Compile.Code
import TreeVM.IR.Semantics
import TreeVM.VM.Machine

/-!
# What functions mean

A direct semantics of functions: their block trees are run on a VM that has no code, no program
counter and no crash stack.

* `Direct.State`: the VM with the locals and the types of the temporaries;
* `Host.op`: what an operation does; a call runs the tree of the callee;
* `Host.machine`: the machine on which `Tree.eval` runs the tree of a function;
* `Host.result`: what a function leaves.

Return frames lie in the storage buffer, where the program and the native functions can read them,
and hold addresses of code.  `Host.link` says what the frame of each call holds, `Host.alloc` what
`realloc` answers.  Both are asked in the order in which the functions need memory.
-/

namespace TreeVM

/-- The VM without its crash stack -/
def VM.bare (vm : VM) : VM :=
  { vm with crash := [], crashCap := 0 }

namespace Direct

/-- `overwritten` is a return frame that the program has stored into. -/
inductive Trouble
  | illTyped
  | overwritten
  deriving DecidableEq, Repr

/-- `temps` are the types of the temporaries, the topmost first; `ans` is the cause of the first
soft crash, or what the run ends with; `asks` counts what has needed memory. -/
structure State where
  vm : VM
  slots : List Slot := []
  temps : List Nat := []
  ans : VmResult := .ok
  asks : Nat := 0
  trouble : Option Trouble := none

structure Host where
  ctx : Context
  tree : Func → Tree
  native : Nat → VM → VmResult × VM
  alloc : Nat → Alloc
  link : Nat → ReturnFrame

/-- A function that is running: where its locals begin in the storage buffer, and its arguments on
the parameter stack. -/
structure Activation where
  func : Func
  start : Nat
  paramBase : Nat

namespace State

def fail (s : State) (cause : VmResult) : Step State :=
  .crash { s with ans := s.ans.first cause }

def stop (s : State) (r : VmResult) : Step State :=
  .halt { s with ans := r }

def illTyped (s : State) : Step State :=
  .halt { s with trouble := some .illTyped }

/-- The topmost `n` temporaries go. -/
def drop (s : State) (n : Nat) : State :=
  { s with vm := { s.vm with params := s.vm.params.drop n }, temps := s.temps.drop n }

/-- The storage buffer is cut. -/
def cut (s : State) (len : Nat) (slots : List Slot) : State :=
  { s with vm := { s.vm with storage := { s.vm.storage with len := len } }, slots := slots }

end State

/-- The end of a function: its inputs are dropped, and its return frame is taken off. -/
def leave (f : Func) (frame : ReturnFrame) (vm : VM) : Option VM :=
  match VM.popReturn { vm with params := vm.params.drop f.sig.ins.length } with
  | some (r, vm) => if r = frame then some vm else none
  | none => none

namespace Host

variable (H : Host)

/-- What the types of the operands are looked up in. -/
def typed (f : Func) : CompileEnv :=
  ⟨f, (layoutAll f.types).getD [], H.ctx, fun _ => 0, fun _ table => .error table⟩

section Ops

variable (ce : CompileEnv) (a : Activation)

def push (p tid : Nat) (s : State) : Step State :=
  match s.vm.pushParam (H.alloc s.asks) p with
  | some vm => .ok { s with vm := vm, temps := tid :: s.temps, asks := s.asks + 1 }
  | none => State.fail { s with asks := s.asks + 1 } .oomParam

def binary (kind : OpKind) (s : State) : Step State :=
  match binaryTypes ce kind, s.temps, s.vm.params with
  | some types, rhs :: lhs :: rest, y :: x :: params =>
      match types lhs rhs with
      | none => s.illTyped
      | some (op, tid) =>
          match op.apply s.vm.mem x y with
          | .ok (mem, p) =>
              .ok { s with vm := { s.vm with mem := mem, params := p :: params }, temps := tid :: rest }
          | .error r => State.fail { s with vm := { s.vm with params := x :: params } } r
  | _, _, _ => s.illTyped

def unary (f : Nat → Option (UnOp × Nat)) (s : State) : Step State :=
  match s.temps, s.vm.params with
  | tid :: rest, p :: params =>
      match f tid with
      | none => s.illTyped
      | some (op, tid) =>
          let (mem, p) := op.apply s.vm.mem p
          .ok { s with vm := { s.vm with mem := mem, params := p :: params }, temps := tid :: rest }
  | _, _ => s.illTyped

def bitNotType (tid : Nat) : Option (UnOp × Nat) :=
  if tid = intId then some (.bitNot, tid) else none

def structAtType (idx tid : Nat) : Option (UnOp × Nat) :=
  match kindOf ce tid with
  | some (.struct fields) =>
      match fields[idx]? with
      | some f => if f.tid < ce.types.length then some (.structAt f.offset, f.tid) else none
      | none => none
  | _ => none

def pushVar (idx : Nat) (s : State) : Step State :=
  match s.slots.find? fun slot => slot.var == idx with
  | some slot => H.push (s.vm.storage.data + (a.start + slot.base)) slot.tid s
  | none => s.illTyped

def pushArg (idx : Nat) (s : State) : Step State :=
  match a.func.vars[idx]? with
  | none => s.illTyped
  | some tid =>
      match s.vm.params.reverse[a.paramBase + idx]? with
      | none => s.stop .invalidArg
      | some p => H.push p tid s

def pushGlobal (idx : Nat) (s : State) : Step State :=
  match H.ctx.globals[idx]? with
  | none => s.illTyped
  | some g => if g.mem = 0 then s.stop .nullGlobal else H.push g.mem.toNat g.tid s

/-- The arguments on top of the stack are those of the signature. -/
def takes (temps : List Nat) (sig : Sig) : Prop :=
  sig.argc ≤ temps.length ∧ Compiler.argTypes temps sig.argc = sig.args

instance (temps : List Nat) (sig : Sig) : Decidable (takes temps sig) :=
  inferInstanceAs (Decidable (_ ∧ _))

/-- What a native function with this signature leaves of the temporaries -/
def returned (s : State) (rest : List Nat) (sig : Sig) : VmResult × VM → Step State
  | (.ok, vm) =>
      .ok { s with
        vm := { vm with params := vm.params.drop sig.ins.length }
        temps := rest.drop sig.ins.length }
  | (.hardCrash, vm) => State.stop { s with vm := vm } .hardCrash
  | (r, vm) => State.fail { s with vm := vm } r

def callNative (s : State) : Step State :=
  match s.temps, s.vm.params with
  | fn :: rest, p :: params =>
      match kindOf ce fn with
      | some (.nativeFunc sig) =>
          if ¬ takes rest sig then s.illTyped
          else
            let fn := readPtr s.vm.mem p
            let vm := { s.vm with params := params }
            if fn = 0 then State.stop { s with vm := vm } .nullNativeFunc
            else returned s rest sig (H.native fn vm)
      | _ => s.illTyped
  | _, _ => s.illTyped

/-- How the tree of the callee ends, for the caller in the state `s` -/
def back (s : State) (f : Func) (frame : ReturnFrame) : Outcome State → Step State
  | .normal s' =>
      match leave f frame s'.vm with
      | some vm =>
          .ok { s' with vm := vm, slots := s.slots, temps := s.temps.drop f.sig.ins.length }
      | none => .halt { s' with trouble := some .overwritten }
  | .brk _ s' => s'.illTyped
  | .crash s' => .crash s'
  | .halt s' => .halt s'
  | .timeout s' => .timeout s'

def call (run : Activation → State → Outcome State) (idx : Nat) (s : State) : Step State :=
  match H.ctx.funcs[idx]? with
  | none => s.illTyped
  | some f =>
      if ¬ takes s.temps f.sig then s.illTyped
      else
        let frame := H.link s.asks
        match s.vm.pushReturn (H.alloc s.asks) frame with
        | none => State.fail { s with asks := s.asks + 1 } .oomStorage
        | some vm =>
            back s f frame <|
              run ⟨f, vm.storage.len, s.vm.params.length - f.sig.argc⟩
                { s with vm := vm, slots := [], temps := [], asks := s.asks + 1 }

def op (run : Activation → State → Outcome State) (o : Op) (s : State) : Step State :=
  match o.kind with
  | .null => .ok s
  | .call => H.call run o.extra.toNat s
  | .callNativeOnStack => H.callNative ce s
  | .bitNotAssign => unary bitNotType s
  | .drop => if s.temps.length < o.extra.toNat then s.illTyped else .ok (s.drop o.extra.toNat)
  | .pushVar => H.pushVar a o.extra.toNat s
  | .pushArg => H.pushArg a o.extra.toNat s
  | .pushGlobal => H.pushGlobal o.extra.toNat s
  | .structAt => unary (structAtType ce o.extra.toNat) s
  | kind => binary ce kind s

/-- A local is the next part of the storage buffer, cleared.  One without bytes needs no memory. -/
def enter (v : Nat) (s : State) : Step State :=
  match a.func.vars[v]? with
  | none => s.illTyped
  | some tid =>
      let size := stackSize ce.types tid
      let asks := if 0 < size then s.asks + 1 else s.asks
      match s.vm.storageGrow (H.alloc s.asks) size with
      | some vm =>
          .ok { s with
            vm := vm
            slots := ⟨v, frameOf ce.types s.slots, tid⟩ :: s.slots
            asks := asks }
      | none => State.fail { s with asks := asks } .oomStorage

end Ops

/-- The value of a condition -/
def test (s : State) : Bool × State :=
  match s.vm.params with
  | p :: _ => (readInt s.vm.mem p ≠ 0, s.drop 1)
  | [] => (false, s)

def machineWith (run : Activation → State → Outcome State) (a : Activation) : Machine State where
  ops := a.func.ops
  op := H.op (H.typed a.func) a run
  discard s s' := s'.drop (s'.temps.length - s.temps.length)
  test := test
  enter := H.enter (H.typed a.func) a
  leave s s' := s'.cut s.vm.storage.len s.slots
  restore s s' :=
    { s'.cut s.vm.storage.len s.slots with
      vm := { (s'.cut s.vm.storage.len s.slots).vm with params := s.vm.params }
      temps := s.temps }
  raise s := { s with ans := s.ans.first .crash }
  hard s := { s with ans := .hardCrash }
  note _ s := s

/-- The machine of a function whose calls are nested up to `depth` levels; `depth` also bounds the
rounds of the loops. -/
def machine : Nat → Activation → Machine State
  | 0 => H.machineWith fun _ s => .timeout s
  | depth + 1 =>
      H.machineWith fun a s => (H.tree a.func).eval (machine depth a) depth s

end Host

/-- How a function ends -/
inductive Finish
  | ends (r : VmResult) (vm : VM)
  | trouble (t : Trouble)

/-- What a function leaves whose tree has run; nothing stands for a run that has not ended. -/
def finish (f : Func) (frame : ReturnFrame) : Outcome State → Option Finish
  | .normal s =>
      match leave f frame s.vm with
      | some vm => some (.ends .ok vm)
      | none => some (.trouble .overwritten)
  | .brk _ _ => some (.trouble .illTyped)
  | .crash s => some (.ends s.ans s.vm)
  | .halt s =>
      match s.trouble with
      | none => some (.ends s.ans s.vm)
      | some t => some (.trouble t)
  | .timeout _ => none

/-- The function `f`, called from outside; `al` answers for its return frame. -/
def Host.result (H : Host) (al : Alloc) (f : Func) (depth : Nat) (vm : VM) : Option Finish :=
  match vm.bare.pushReturn al ⟨0, 0, 0⟩ with
  | none => some (.ends .oomStorage vm.bare)
  | some vm =>
      finish f ⟨0, 0, 0⟩ <|
        (H.tree f).eval (H.machine depth ⟨f, vm.storage.len, 0⟩) depth { vm := vm }

end Direct

end TreeVM
