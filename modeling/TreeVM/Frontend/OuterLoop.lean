import TreeVM.Frontend.Additions
import TreeVM.Frontend.Interpreter
import TreeVM.VM.Stacks

/-!
# The outer interpreter on its machine

* `interpreterCall`: the native functions of the outer interpreter;
* `InterpreterHost`, `outerRun`: the machine that runs the code of `compile_interpreter`;
* `plainTurn`, `plainLoop`: the loop that it stands for;
* `LoopSpot`: where the machine can stand during one round of the loop;
* `LoopSpot.turn`: one round of the machine goes on to the next place, or ends as the loop does.

Memory suffices: `realloc` finds room, away from the static variables.
-/

namespace TreeVM

variable {M : Type}

/-! ## The native functions -/

/-- A step of the frontend that is run by a native function -/
def outcome (vm : VM) : Option Unit × Frontend M → (VmResult × VM) × Frontend M
  | (some (), fe) => ((.ok, vm), fe)
  | (none, fe) => ((.hardCrash, vm), fe)

/-- A store of an `int` through a pointer -/
def VM.store (vm : VM) (p : Nat) (x : Int64) : VM :=
  { vm with mem := writeInt vm.mem p x }

/-- What `interpreter_lookup_word` finds -/
def Frontend.wordHandle (fe : Frontend M) : Int64 :=
  let token := fe.currentToken
  if token.isParen then (if isOpening (byteAt token.data 0) then -1 else -2)
  else
    match fe.words.findIdx? fun word => word.name = token.bytes with
    | some i => Int64.ofNat i + 1
    | none => 0

section Natives

variable (macros : Nat → Frontend M → Option VmResult × Frontend M) (literalAt : Nat → UInt64)

/-- `interpreter_engage_word`, with the handle that it reads -/
def engageHandle (handle : Int64) (vm : VM) (fe : Frontend M) : (VmResult × VM) × Frontend M :=
  if handle = -1 ∨ handle = -2 then outcome vm (handleDelimiter (handle = -1) fe)
  else if handle ≤ 0 then ((.invalidArg, vm), fe)
  else
    match fe.words[(handle - 1).toUInt64.toNat]? with
    | some word => outcome vm (engageWord macros word fe)
    | none => ((.invalidArg, vm), fe)

/-- `interpreter_next_token`, `interpreter_lookup_word`, `interpreter_engage_word`,
`interpreter_fallback` -/
def interpreterCall (k : InterpreterNative) (fe : Frontend M) (vm : VM) :
    (VmResult × VM) × Frontend M :=
  match k, vm.params with
  | .nextToken, p :: _ =>
      match nextToken fe with
      | (some token, fe) => ((.ok, vm.store p 1), { fe with currentToken := token })
      | (none, fe) => ((.ok, vm.store p 0), fe)
  | .lookupWord, p :: _ => ((.ok, vm.store p fe.wordHandle), fe)
  | .engageWord, p :: _ => engageHandle macros (readInt vm.mem p) vm fe
  | .fallback, _ => outcome vm (compileFallback literalAt fe.currentToken fe)
  | _, [] => ((.invalidArg, vm), fe)

/-! ## The loop -/

/-- The calls of native functions, each with the state of the frontend before it -/
abbrev CallLog (M : Type) : Type :=
  List (InterpreterNative × Frontend M)

/-- One round of the plain loop: its calls, how it ends, if it does, and the frontend behind it -/
def plainTurn (fe : Frontend M) : CallLog M × Option Bool × Frontend M :=
  match nextToken fe with
  | (none, fe') => ([(.nextToken, fe)], some true, fe')
  | (some token, fe') =>
      let fe₁ := { fe' with currentToken := token }
      let last :=
        if token.isParen ∨ (findWord fe₁.words token.bytes).isSome then .engageWord
        else InterpreterNative.fallback
      let calls := [(.nextToken, fe), (.lookupWord, fe₁), (last, fe₁)]
      match engageToken macros literalAt fe₁ with
      | (some (), fe₂) => (calls, none, fe₂)
      | (none, fe₂) => (calls, some false, fe₂)

/-- The plain loop for `n` rounds -/
def plainLoop (fe : Frontend M) : Nat → CallLog M × Option Bool × Frontend M
  | 0 => ([], none, fe)
  | n + 1 =>
      match plainLoop fe n with
      | (calls, none, fe') =>
          let (more, stop, fe'') := plainTurn macros literalAt fe'
          (calls ++ more, stop, fe'')
      | ended => ended

end Natives

/-! ## The machine -/

/-- Where the code of the outer interpreter, its static variables and its native functions stand. -/
structure InterpreterHost where
  code : Nat → UInt8
  base : Nat
  cell : InterpreterNative → UInt64
  fn : InterpreterNative → Nat
  place : Nat → UInt64
  bytes : Code
  table : Table
  compiled : compileFunc (interpreterContext cell) place 12 interpreterFunc [] = .ok (bytes, table)
  stands : At code base bytes
  cell_ne : ∀ k, cell k ≠ 0
  fn_ne : ∀ k, fn k ≠ 0
  fn_inj : Function.Injective fn

/-- The machine together with the frontend, and the calls so far -/
structure Interpreter (M : Type) where
  state : State
  fe : Frontend M
  calls : CallLog M

inductive Turn (M : Type)
  | running (x : Interpreter M)
  | done (r : VmResult) (vm : VM) (fe : Frontend M) (calls : CallLog M)

namespace InterpreterHost

variable (h : InterpreterHost) (macros : Nat → Frontend M → Option VmResult × Frontend M)
  (literalAt : Nat → UInt64)

/-- The native function at an address -/
def native? (fn : Nat) : Option InterpreterNative :=
  [.nextToken, .lookupWord, .engageWord, .fallback].find? fun k => h.fn k = fn

def env (fe : Frontend M) : Env where
  code := h.code
  native fn vm :=
    match h.native? fn with
    | some k => (interpreterCall macros literalAt k fe vm).1
    | none => (.ok, vm)

/-- The native function that the next round calls, and the VM that it gets -/
def called (s : State) : Option (InterpreterNative × VM) :=
  match fetch h.code s.pc, s.vm.params with
  | some (.callNative argc, _), p :: rest =>
      if rest.length < argc.toNat then none
      else (h.native? (readPtr s.vm.mem p)).map (·, (s.withParams rest).vm)
  | _, _ => none

/-- One round of `vm_run` -/
def turn (al : Alloc) (x : Interpreter M) : Turn M :=
  let (fe, calls) :=
    match h.called x.state with
    | some (k, vm) => ((interpreterCall macros literalAt k x.fe vm).2, x.calls ++ [(k, x.fe)])
    | none => (x.fe, x.calls)
  match step (h.env macros literalAt x.fe) al x.state with
  | .running s => .running ⟨s, fe, calls⟩
  | .done r vm => .done r vm fe calls

/-- `vm_run` on the code of the outer interpreter, after `n` rounds -/
def outerRun (entry : Alloc) (allocs : Nat → Alloc) (vm : VM) (fe : Frontend M) : Nat → Turn M
  | 0 =>
      match enter entry vm h.base with
      | .running s => .running ⟨s, fe, []⟩
      | .done r vm => .done r vm fe []
  | n + 1 =>
      match outerRun entry allocs vm fe n with
      | .running x => h.turn macros literalAt (allocs n) x
      | ended => ended

end InterpreterHost

/-! ## Memory -/

section Memory

variable {mem : Mem}

theorem readInt_writeInt (p : Nat) (x : Int64) : readInt (writeInt mem p x) p = x := by
  have hlt : x.toUInt64.toNat < 256 ^ 8 := x.toUInt64.toNat_lt
  rw [readInt, writeInt, (at_writeBytes mem p _).readNat, Nat.mod_eq_of_lt hlt, UInt64.ofNat_toNat]
  rfl

/-- A store changes eight bytes. -/
theorem writeInt_outside {p q : Nat} (x : Int64) (h : q < p ∨ p + 8 ≤ q) :
    writeInt mem p x q = mem q := by
  rcases h with h | h
  · exact writeBytes_before h
  · exact writeBytes_behind (by rwa [length_bytesOf])

theorem readPtr_writeInt {p q : Nat} (x : Int64) (h : q + 8 ≤ p ∨ p + 8 ≤ q) :
    readPtr (writeInt mem p x) q = readPtr mem q :=
  readNat_congr fun k hk => writeInt_outside x (by omega)

end Memory

/-! ## Handles -/

section Handles

variable {macros : Nat → Frontend M → Option VmResult × Frontend M} {literalAt : Nat → UInt64}
  {fe : Frontend M}

theorem handle_toInt {i : Nat} (hi : i + 1 < 2 ^ 63) : (Int64.ofNat i + 1).toInt = i + 1 := by
  have hofNat : (Int64.ofNat i).toInt = i := Int64.toInt_ofNat_of_lt (by omega)
  have hone : (1 : Int64).toInt = 1 := by decide
  rw [Int64.toInt_add, hofNat, hone, Int.bmod_eq_of_le (by omega) (by omega)]

/-- The number of a word as a handle, and back -/
theorem handle_of_word {i : Nat} (hi : i + 1 < 2 ^ 63) :
    ¬ (Int64.ofNat i + 1 = -1 ∨ Int64.ofNat i + 1 = -2) ∧ ¬ Int64.ofNat i + 1 ≤ 0 ∧
      (Int64.ofNat i + 1 - 1).toUInt64.toNat = i := by
  have htoInt := handle_toInt hi
  refine ⟨?_, fun hle => ?_, ?_⟩
  · rintro (heq | heq) <;> rw [heq] at htoInt
    · have hminus : (-1 : Int64).toInt = -1 := by decide
      omega
    · have hminus : (-2 : Int64).toInt = -2 := by decide
      omega
  · have hle := Int64.le_iff_toInt_le.mp hle
    have hzero : (0 : Int64).toInt = 0 := by decide
    omega
  · rw [Int64.add_sub_cancel]
    show (UInt64.ofNat i).toNat = i
    exact UInt64.toNat_ofNat_of_lt' (by change i < 2 ^ 64; omega)

/-- What the handle says about a token that is not a parenthesis -/
theorem wordHandle_cases (hparen : fe.currentToken.isParen = false) :
    (fe.wordHandle = 0 ∧ findWord fe.words fe.currentToken.bytes = none) ∨
    ∃ i word, fe.wordHandle = Int64.ofNat i + 1 ∧ i < fe.words.length ∧ fe.words[i]? = some word ∧
      findWord fe.words fe.currentToken.bytes = some word := by
  have hfind : findWord fe.words fe.currentToken.bytes = _ := List.find?_eq_bind_findIdx?_getElem?
  simp only [Frontend.wordHandle, hparen, Bool.false_eq_true, if_false]
  cases hidx : fe.words.findIdx? fun word => word.name = fe.currentToken.bytes with
  | none =>
      rw [hidx] at hfind
      exact .inl ⟨rfl, hfind⟩
  | some i =>
      obtain ⟨hi, -⟩ := List.findIdx?_eq_some_iff_getElem.mp hidx
      rw [hidx] at hfind
      exact .inr ⟨i, fe.words[i], rfl, hi, List.getElem?_eq_getElem hi,
        hfind.trans (List.getElem?_eq_getElem hi)⟩

variable (macros literalAt)

/-- A handle that is not zero stands for a parenthesis or a word. -/
theorem engageHandle_eq (hwords : fe.words.length < 2 ^ 63) (hne : fe.wordHandle ≠ 0) (vm : VM) :
    (fe.currentToken.isParen = true ∨ (findWord fe.words fe.currentToken.bytes).isSome = true) ∧
      engageHandle macros fe.wordHandle vm fe = outcome vm (engageToken macros literalAt fe) := by
  cases hparen : fe.currentToken.isParen with
  | true =>
      refine ⟨.inl rfl, ?_⟩
      simp only [Frontend.wordHandle, engageToken, hparen, if_true]
      cases isOpening (byteAt fe.currentToken.data 0) <;> rfl
  | false =>
      obtain ⟨hzero, -⟩ | ⟨i, word, hhandle, hi, hword, hfind⟩ := wordHandle_cases hparen
      · exact absurd hzero hne
      obtain ⟨hnot, hpos, hback⟩ := handle_of_word (i := i) (by omega)
      refine ⟨.inr (by rw [hfind]; rfl), ?_⟩
      rw [engageHandle, hhandle, if_neg hnot, if_neg hpos, hback, hword]
      simp only [engageToken, hparen, hfind, Bool.false_eq_true, if_false]

/-- The handle zero stands for a token that is neither. -/
theorem fallback_eq (hwords : fe.words.length < 2 ^ 63) (hzero : fe.wordHandle = 0) :
    ¬ (fe.currentToken.isParen = true ∨ (findWord fe.words fe.currentToken.bytes).isSome = true) ∧
      compileFallback literalAt fe.currentToken fe = engageToken macros literalAt fe := by
  cases hparen : fe.currentToken.isParen with
  | true =>
      simp only [Frontend.wordHandle, hparen, if_true] at hzero
      split at hzero <;> exact absurd hzero (by decide)
  | false =>
      obtain ⟨-, hfind⟩ | ⟨i, word, hhandle, hi, -, -⟩ := wordHandle_cases hparen
      · refine ⟨by simp [hfind], ?_⟩
        simp only [engageToken, hparen, hfind, Bool.false_eq_true, if_false]
      · obtain ⟨-, hpos, -⟩ := handle_of_word (i := i) (by omega)
        rw [← hhandle, hzero] at hpos
        exact absurd (by decide) hpos

end Handles

/-! ## Instructions -/

section Instructions

variable {h : InterpreterHost}

set_option maxRecDepth 4000 in
/-- The instruction at an offset -/
theorem InterpreterHost.fetch_at (h : InterpreterHost) (k o o' : Nat) {i : Instr}
    (hi : (interpreterListing h.cell)[k]? = some i)
    (ho : (((interpreterListing h.cell).take k).flatMap encode).length = o)
    (ho' : (((interpreterListing h.cell).take (k + 1)).flatMap encode).length = o') :
    fetch h.code (h.base + o) = some (i, h.base + o') := by
  have hcompiled := (compile_interpreter_eq h.cell h.place).symm.trans h.compiled
  have hat := h.stands
  rw [← (Prod.mk.inj (Except.ok.inj hcompiled)).1] at hat
  rw [← ho, ← ho']
  exact fetch_listing hat hi

variable (h) in
/-- The machine stands at an offset, with the storage buffer at `D` and its return frame in front
of the two variables. -/
structure Placed (D o len : Nat) (ps : List Nat) (s : State) : Prop where
  pc : s.pc = h.base + o
  base : s.base = h.base
  params : s.vm.params = ps
  crash : s.vm.crash = []
  data : s.vm.storage.data = D
  len : s.vm.storage.len = len
  entry : s.vm.savedReturn 0 = ⟨0, 0, 0⟩
  cells : ∀ k, readPtr s.vm.mem (h.cell k).toNat = h.fn k

variable {D o o' len : Nat} {ps : List Nat} {s : State} {env : Env} {al : Alloc}

theorem Placed.next (hp : Placed h D o len ps s) {i : Instr} (henv : env.code = h.code)
    (hfetch : fetch h.code (h.base + o) = some (i, h.base + o')) :
    step env al s = (exec env al { s with pc := h.base + o' } i).status := by
  rw [step, henv, hp.pc, hfetch]

theorem Placed.push (hp : Placed h D o len ps s) {i : Instr} (henv : env.code = h.code)
    (hfetch : fetch h.code (h.base + o) = some (i, h.base + o')) (hal : al.param = true) {p : Nat}
    (hexec : exec env al { s with pc := h.base + o' } i = State.push { s with pc := h.base + o' } al p) :
    ∃ s', step env al s = .running s' ∧ Placed h D o' len (p :: ps) s' ∧ s'.vm.mem = s.vm.mem := by
  obtain ⟨vm, hvm⟩ : ∃ vm, s.vm.pushParam al p = some vm := by
    rw [VM.pushParam, hal]
    split <;> exact ⟨_, rfl⟩
  have hpushed := VM.pushParam_spec hvm
  refine ⟨{ s with pc := h.base + o', vm := vm }, ?_, ⟨rfl, hp.base, ?_, ?_, ?_, ?_, ?_, ?_⟩, hpushed.mem⟩
  · rw [hp.next henv hfetch, hexec, State.push]
    simp only [hvm, Exec.status]
  · rw [hpushed.params, hp.params]
  · rw [hpushed.crash, hp.crash]
  · rw [hpushed.storage, hp.data]
  · rw [hpushed.storage, hp.len]
  · rw [VM.savedReturn_eq hpushed.mem (by rw [hpushed.storage]), hp.entry]
  · rw [hpushed.mem]
    exact hp.cells

theorem Placed.pushVar (hp : Placed h D o len ps s) {offset : Int16} (henv : env.code = h.code)
    (hfetch : fetch h.code (h.base + o) = some (.pushVar offset, h.base + o')) (hal : al.param = true)
    {d : Nat} (hoffset : offset.toInt = -(d : Int)) (hd : d ≤ len) :
    ∃ s', step env al s = .running s' ∧ Placed h D o' len ((D + (len - d)) :: ps) s' ∧
      s'.vm.mem = s.vm.mem := by
  refine hp.push henv hfetch hal ?_
  have hgood : ¬ badOffset { s with pc := h.base + o' } offset.toInt := by
    rw [badOffset, hoffset]
    show ¬ (0 < -(d : Int) ∨ (s.vm.storage.len : Int) < - -(d : Int))
    rw [hp.len]
    omega
  have hplace : fromEnd { s with pc := h.base + o' } offset.toInt = D + (len - d) := by
    rw [fromEnd, hoffset, neg_neg, Int.toNat_natCast]
    show s.vm.storage.data + (s.vm.storage.len - d) = _
    rw [hp.data, hp.len]
  simp only [exec, if_neg hgood, hplace]

theorem Placed.pushGlobal (hp : Placed h D o len ps s) (henv : env.code = h.code) (k : InterpreterNative)
    (hfetch : fetch h.code (h.base + o) = some (.pushGlobal (h.cell k), h.base + o'))
    (hal : al.param = true) :
    ∃ s', step env al s = .running s' ∧ Placed h D o' len ((h.cell k).toNat :: ps) s' ∧
      s'.vm.mem = s.vm.mem := by
  refine hp.push henv hfetch hal ?_
  simp only [exec, if_neg (h.cell_ne k)]

/-- The stacks are cut, and the machine goes somewhere else. -/
def State.cut (s : State) (pc len : Nat) (ps : List Nat) : State :=
  { s with pc := pc, vm := { s.vm with params := ps, storage := { s.vm.storage with len := len } } }

theorem Placed.goes (hp : Placed h D o len ps s) (henv : env.code = h.code) {i : Instr}
    (hfetch : fetch h.code (h.base + o) = some (i, h.base + o')) {target len' : Nat} {ps' : List Nat}
    (hexec : exec env al { s with pc := h.base + o' } i = .next (s.cut (h.base + target) len' ps')) :
    ∃ s', step env al s = .running s' ∧ Placed h D target len' ps' s' ∧ s'.vm.mem = s.vm.mem :=
  ⟨s.cut (h.base + target) len' ps', by rw [hp.next henv hfetch, hexec, Exec.status],
    ⟨rfl, hp.base, rfl, hp.crash, hp.data, rfl, hp.entry, hp.cells⟩, rfl⟩

theorem Placed.cut_self (hp : Placed h D o len ps s) (pc : Nat) : s.cut pc len ps = { s with pc := pc } := by
  rw [State.cut, ← hp.len, ← hp.params]

theorem Placed.drop {p : Nat} {rest : List Nat} (hp : Placed h D o len (p :: rest) s)
    (henv : env.code = h.code)
    (hfetch : fetch h.code (h.base + o) = some (.dropN 1, h.base + o')) :
    ∃ s', step env al s = .running s' ∧ Placed h D o' len rest s' ∧ s'.vm.mem = s.vm.mem := by
  refine hp.goes henv hfetch ?_
  have hone : (1 : UInt32).toNat = 1 := rfl
  simp only [exec, hp.params, hone, List.length_cons]
  rw [if_neg (by omega), State.cut, State.withParams, ← hp.len]
  rfl

theorem Placed.jump (hp : Placed h D o len ps s) (henv : env.code = h.code) {target : UInt16}
    (hfetch : fetch h.code (h.base + o) = some (.jump target, h.base + o')) :
    ∃ s', step env al s = .running s' ∧ Placed h D target.toNat len ps s' ∧ s'.vm.mem = s.vm.mem := by
  refine hp.goes henv hfetch ?_
  rw [hp.cut_self]
  simp only [exec, hp.base]

theorem Placed.branchTop {p : Nat} {rest : List Nat} (hp : Placed h D o len (p :: rest) s)
    (henv : env.code = h.code) {yes no : UInt16}
    (hfetch : fetch h.code (h.base + o) = some (.branchTop yes no, h.base + o')) :
    ∃ s', step env al s = .running s' ∧
      Placed h D (if readInt s.vm.mem p = 0 then no else yes).toNat len rest s' ∧
      s'.vm.mem = s.vm.mem := by
  refine hp.goes henv hfetch ?_
  simp only [exec, hp.params, hp.base]
  rw [State.cut, State.withParams, ← hp.len, ← hp.base]

theorem Placed.shrink (hp : Placed h D o len ps s) (henv : env.code = h.code) (hlen : 8 ≤ len)
    (hfetch : fetch h.code (h.base + o) = some (.storageAdd (-8), h.base + o')) :
    ∃ s', step env al s = .running s' ∧ Placed h D o' (len - 8) ps s' ∧ s'.vm.mem = s.vm.mem := by
  refine hp.goes henv hfetch ?_
  have hamount : (-8 : Int16).toInt = -8 := by decide
  have hneg : (-8 : Int) < 0 := by decide
  have hn : (- -8 : Int).toNat = 8 := rfl
  simp only [exec, VM.storageResize, hamount, if_pos hneg, hn, hp.len, if_neg (Nat.not_lt.mpr hlen)]
  rw [State.cut, ← hp.params]

/-- The return frame of the run ends it. -/
theorem Placed.ret (hp : Placed h D o 24 ps s) (henv : env.code = h.code)
    (hfetch : fetch h.code (h.base + o) = some (.ret, h.base + o')) :
    ∃ vm, step env al s = .done .ok vm := by
  have hpop : s.vm.popReturn = some (⟨0, 0, 0⟩, { s.vm with storage := { s.vm.storage with len := 0 } }) := by
    rw [VM.popReturn, if_neg (by rw [hp.len]; decide), hp.len, ← hp.entry]
    rfl
  rw [hp.next henv hfetch]
  simp only [exec, hpop, if_true, Exec.status]
  exact ⟨_, rfl⟩

end Instructions

/-! ## Calls -/

section Calls

variable {h : InterpreterHost} {macros : Nat → Frontend M → Option VmResult × Frontend M}
  {literalAt : Nat → UInt64} {D o o' len : Nat} {s : State} {al : Alloc} {fe fe' : Frontend M}
  {calls : CallLog M}

def Instr.isCall : Instr → Bool
  | .callNative _ => true
  | _ => false

/-- A round without a call keeps the frontend. -/
theorem turn_of_step {ps : List Nat} {i : Instr} (hp : Placed h D o len ps s)
    (hfetch : fetch h.code (h.base + o) = some (i, h.base + o')) (hi : i.isCall = false)
    {s' : State} (hstep : step (h.env macros literalAt fe) al s = .running s') :
    h.turn macros literalAt al ⟨s, fe, calls⟩ = .running ⟨s', fe, calls⟩ := by
  have hnone : h.called s = none := by
    rw [InterpreterHost.called, hp.pc, hfetch]
    split
    · rename_i argc _ _ _ heq _
      rw [(Prod.mk.inj (Option.some.inj heq)).1] at hi
      cases hi
    · rfl
  simp only [InterpreterHost.turn, hnone, hstep]

theorem InterpreterHost.native_fn (h : InterpreterHost) (k : InterpreterNative) :
    h.native? (h.fn k) = some k := by
  cases k <;> simp [InterpreterHost.native?, List.find?, h.fn_inj.eq_iff]

/-- The native function that stands on the stack is called with the rest of it. -/
theorem turn_of_call {k : InterpreterNative} {rest : List Nat} {argc : UInt32}
    (hp : Placed h D o len ((h.cell k).toNat :: rest) s) (hargc : argc.toNat ≤ rest.length)
    (hfetch : fetch h.code (h.base + o) = some (.callNative argc, h.base + o')) {vm : VM}
    (hvm : (s.withParams rest).vm = vm) {r : VmResult} {vm' : VM}
    (hcall : interpreterCall macros literalAt k fe vm = ((r, vm'), fe')) :
    (r = .ok → argc.toNat ≤ vm'.params.length →
      h.turn macros literalAt al ⟨s, fe, calls⟩ = .running ⟨{ s with
        pc := h.base + o', vm := { vm' with params := vm'.params.drop argc.toNat } }, fe',
        calls ++ [(k, fe)]⟩) ∧
    (r = .hardCrash →
      h.turn macros literalAt al ⟨s, fe, calls⟩ = .done .hardCrash vm' fe' (calls ++ [(k, fe)])) := by
  have hcalled : h.called s = some (k, vm) := by
    rw [InterpreterHost.called, hp.pc, hfetch, hp.params]
    simp only [if_neg (Nat.not_lt.mpr hargc), hp.cells, h.native_fn, hvm, Option.map_some]
  have hstep : step (h.env macros literalAt fe) al s =
      (execNative (h.env macros literalAt fe) argc.toNat { s with pc := h.base + o' }).status :=
    hp.next rfl hfetch
  have hnative : (h.env macros literalAt fe).native (h.fn k) vm = (r, vm') := by
    simp only [InterpreterHost.env, h.native_fn, hcall]
  have hvm' : ({ s with pc := h.base + o' } : State).withParams rest =
      { s with pc := h.base + o', vm := vm } := by
    rw [← hvm]
    rfl
  constructor
  · rintro rfl hlen
    simp only [execNative, hp.params, hp.cells, hvm', if_neg (Nat.not_lt.mpr hargc), if_neg (h.fn_ne k),
      hnative, if_neg (Nat.not_lt.mpr hlen), Exec.status] at hstep
    simp only [InterpreterHost.turn, hcalled, hstep, hcall]
  · rintro rfl
    simp only [execNative, hp.params, hp.cells, hvm', if_neg (Nat.not_lt.mpr hargc), if_neg (h.fn_ne k),
      hnative, Exec.status] at hstep
    simp only [InterpreterHost.turn, hcalled, hstep, hcall]

/-- A native function stores into one of the two variables. -/
theorem Placed.stores {ps ps' : List Nat} (hp : Placed h D o 40 ps s)
    (hapart : ∀ k, (h.cell k).toNat + 8 ≤ D ∨ D + 40 ≤ (h.cell k).toNat) {p : Nat}
    (hlow : D + 24 ≤ p) (hhigh : p + 8 ≤ D + 40) (x : Int64) :
    Placed h D o' 40 ps' { s with
      pc := h.base + o', vm := { s.vm with mem := writeInt s.vm.mem p x, params := ps' } } := by
  refine ⟨rfl, hp.base, rfl, hp.crash, hp.data, hp.len, ?_, fun k => ?_⟩
  · rw [← hp.entry]
    refine VM.savedReturn_congr fun k hk => writeInt_outside x (.inl ?_)
    have hdata : s.vm.storage.data = D := hp.data
    have hsize : VM.returnSize = 24 := rfl
    show s.vm.storage.data + 0 + k < p
    omega
  · rw [← hp.cells k]
    refine readPtr_writeInt x ?_
    have := hapart k
    omega

end Calls

/-! ## One round of the loop -/

section Spots

variable (h : InterpreterHost) (macros : Nat → Frontend M → Option VmResult × Frontend M)
  (literalAt : Nat → UInt64)

/-- The frontend with a token, if there is one -/
def Frontend.take (fe : Frontend M) : Option Token → Frontend M
  | some token => { fe with currentToken := token }
  | none => fe

/-- Where the machine stands in a round of the loop that begins with the frontend `fe₀`, and the
calls of this round so far. -/
inductive LoopSpot (D : Nat) (fe₀ : Frontend M) : Nat → State → Frontend M → CallLog M → Prop
  | read {o ps s} :
      (o, ps) ∈ [(6, []), (9, [D + 24]), (18, [(h.cell .nextToken).toNat, D + 24])] →
      Placed h D o 40 ps s → LoopSpot D fe₀ o s fe₀ []
  | test {o ps s t fe'} : (o, ps) ∈ [(23, [D + 24]), (28, []), (31, [D + 24])] →
      Placed h D o 40 ps s → nextToken fe₀ = (t, fe') →
      readInt s.vm.mem (D + 24) = (if t.isSome then 1 else 0) →
      LoopSpot D fe₀ o s (fe'.take t) [(.nextToken, fe₀)]
  | lookup {o ps s token fe'} :
      (o, ps) ∈ [(36, []), (39, [D + 32]), (48, [(h.cell .lookupWord).toNat, D + 32])] →
      Placed h D o 40 ps s → nextToken fe₀ = (some token, fe') →
      LoopSpot D fe₀ o s (fe'.take (some token)) [(.nextToken, fe₀)]
  | found {o ps s token fe' fe₁} : (o, ps) ∈ [(53, [D + 32]), (58, []), (61, [D + 32])] →
      Placed h D o 40 ps s → nextToken fe₀ = (some token, fe') → fe₁ = fe'.take (some token) →
      readInt s.vm.mem (D + 32) = fe₁.wordHandle →
      LoopSpot D fe₀ o s fe₁ [(.nextToken, fe₀), (.lookupWord, fe₁)]
  | engage {o ps s token fe' fe₁} :
      (o, ps) ∈ [(66, []), (69, [D + 32]), (78, [(h.cell .engageWord).toNat, D + 32])] →
      Placed h D o 40 ps s → nextToken fe₀ = (some token, fe') → fe₁ = fe'.take (some token) →
      readInt s.vm.mem (D + 32) = fe₁.wordHandle → fe₁.wordHandle ≠ 0 →
      LoopSpot D fe₀ o s fe₁ [(.nextToken, fe₀), (.lookupWord, fe₁)]
  | fallback {o ps s token fe' fe₁} :
      (o, ps) ∈ [(86, []), (95, [(h.cell .fallback).toNat])] →
      Placed h D o 40 ps s → nextToken fe₀ = (some token, fe') → fe₁ = fe'.take (some token) →
      fe₁.wordHandle = 0 →
      LoopSpot D fe₀ o s fe₁ [(.nextToken, fe₀), (.lookupWord, fe₁)]
  | again {o s calls fe₂} : o ∈ [83, 100, 106] → Placed h D o 40 [] s →
      plainTurn macros literalAt fe₀ = (calls, none, fe₂) → LoopSpot D fe₀ o s fe₂ calls
  | leave {o len s fe'} : (o, len) ∈ [(103, 40), (109, 40), (112, 32), (115, 24)] →
      Placed h D o len [] s → nextToken fe₀ = (none, fe') →
      LoopSpot D fe₀ o s fe' [(.nextToken, fe₀)]

/-- The next spot, the next round of the loop, or the end -/
inductive Turned (D : Nat) (fe₀ : Frontend M) (before : CallLog M) (o : Nat) : Turn M → Prop
  | on {o' s fe calls} : o < o' → LoopSpot h macros literalAt D fe₀ o' s fe calls →
      Turned D fe₀ before o (.running ⟨s, fe, before ++ calls⟩)
  | again {s fe calls} : plainTurn macros literalAt fe₀ = (calls, none, fe) → Placed h D 6 40 [] s →
      Turned D fe₀ before o (.running ⟨s, fe, before ++ calls⟩)
  | ends {vm fe calls ok} : plainTurn macros literalAt fe₀ = (calls, some ok, fe) →
      Turned D fe₀ before o (.done (if ok then .ok else .hardCrash) vm fe (before ++ calls))

variable {h macros literalAt} {D o o' len len' : Nat} {ps ps' : List Nat} {s : State} {al : Alloc}
  {fe₀ fe fe' fe₁ : Frontend M} {before calls : CallLog M}

theorem Turned.of_step {i : Instr} (hp : Placed h D o len ps s)
    (hfetch : fetch h.code (h.base + o) = some (i, h.base + o')) (hi : i.isCall = false)
    {o₁ : Nat} (hstep : ∃ s', step (h.env macros literalAt fe) al s = .running s' ∧
      Placed h D o₁ len' ps' s' ∧ s'.vm.mem = s.vm.mem) (hlt : o < o₁)
    (hspot : ∀ s', Placed h D o₁ len' ps' s' → s'.vm.mem = s.vm.mem →
      LoopSpot h macros literalAt D fe₀ o₁ s' fe calls) :
    Turned h macros literalAt D fe₀ before o (h.turn macros literalAt al ⟨s, fe, before ++ calls⟩) := by
  obtain ⟨s', hstep, hplaced, hmem⟩ := hstep
  rw [turn_of_step hp hfetch hi hstep]
  exact .on hlt (hspot s' hplaced hmem)

variable (hapart : ∀ k, (h.cell k).toNat + 8 ≤ D ∨ D + 40 ≤ (h.cell k).toNat) (hal : al.param = true)

theorem minus_sixteen : (-16 : Int16).toInt = -(16 : Nat) := by decide

theorem minus_eight : (-8 : Int16).toInt = -(8 : Nat) := by decide

include hapart hal in
set_option maxRecDepth 4000 in
/-- `next_token` -/
theorem turn_read {ps : List Nat}
    (hmem : (o, ps) ∈ [(6, []), (9, [D + 24]), (18, [(h.cell .nextToken).toNat, D + 24])])
    (hp : Placed h D o 40 ps s) :
    Turned h macros literalAt D fe₀ before o (h.turn macros literalAt al ⟨s, fe₀, before ++ []⟩) := by
  simp only [List.mem_cons, Prod.mk.injEq, List.not_mem_nil, or_false] at hmem
  rcases hmem with ⟨rfl, rfl⟩ | ⟨rfl, rfl⟩ | ⟨rfl, rfl⟩
  · have hfetch := h.fetch_at 2 6 9 rfl rfl rfl
    exact .of_step hp hfetch rfl (hp.pushVar rfl hfetch hal minus_sixteen (by decide))
      (by decide) fun s' hp' _ => .read (by simp) hp'
  · have hfetch := h.fetch_at 3 9 18 rfl rfl rfl
    exact .of_step hp hfetch rfl (hp.pushGlobal rfl .nextToken hfetch hal)
      (by decide) fun s' hp' _ => .read (by simp) hp'
  · have hfetch := h.fetch_at 4 18 23 rfl rfl rfl
    obtain ⟨t, fe', hnext⟩ : ∃ t fe', nextToken fe₀ = (t, fe') := ⟨_, _, rfl⟩
    have hcall : interpreterCall macros literalAt .nextToken fe₀ (s.withParams [D + 24]).vm =
        ((.ok, (s.withParams [D + 24]).vm.store (D + 24) (if t.isSome then 1 else 0)), fe'.take t) := by
      simp only [interpreterCall, State.withParams, hnext]
      cases t <;> rfl
    rw [(turn_of_call hp (Nat.zero_le _) hfetch rfl hcall).1 rfl (Nat.zero_le _), List.append_nil]
    have hstored : (23, [D + 24]) ∈ [(23, [D + 24]), (28, []), (31, [D + 24])] := by simp
    exact .on (by decide) (.test hstored (hp.stores hapart (by omega) (by omega) _) hnext
      (readInt_writeInt _ _))

include hal in
set_option maxRecDepth 4000 in
/-- The test for a token -/
theorem turn_test {t : Option Token} (hmem : (o, ps) ∈ [(23, [D + 24]), (28, []), (31, [D + 24])])
    (hp : Placed h D o 40 ps s) (hnext : nextToken fe₀ = (t, fe'))
    (hread : readInt s.vm.mem (D + 24) = (if t.isSome then 1 else 0)) :
    Turned h macros literalAt D fe₀ before o
      (h.turn macros literalAt al ⟨s, fe'.take t, before ++ [(.nextToken, fe₀)]⟩) := by
  simp only [List.mem_cons, Prod.mk.injEq, List.not_mem_nil, or_false] at hmem
  rcases hmem with ⟨rfl, rfl⟩ | ⟨rfl, rfl⟩ | ⟨rfl, rfl⟩
  · have hfetch := h.fetch_at 5 23 28 rfl rfl rfl
    exact .of_step hp hfetch rfl (hp.drop rfl hfetch) (by decide)
      fun s' hp' hmem => .test (by simp) hp' hnext (by rw [hmem, hread])
  · have hfetch := h.fetch_at 6 28 31 rfl rfl rfl
    exact .of_step hp hfetch rfl (hp.pushVar rfl hfetch hal minus_sixteen (by decide)) (by decide)
      fun s' hp' hmem => .test (by simp) hp' hnext (by rw [hmem, hread])
  · have hfetch := h.fetch_at 7 31 36 rfl rfl rfl
    cases t with
    | none =>
        have hzero : (if readInt s.vm.mem (D + 24) = 0 then (103 : UInt16) else 36).toNat = 103 := by
          rw [hread]
          rfl
        exact .of_step hp hfetch rfl (hzero ▸ hp.branchTop rfl hfetch) (by decide)
          fun s' hp' _ => .leave (by decide) hp' hnext
    | some token =>
        have hone : (if readInt s.vm.mem (D + 24) = 0 then (103 : UInt16) else 36).toNat = 36 := by
          rw [hread]
          rfl
        exact .of_step hp hfetch rfl (hone ▸ hp.branchTop rfl hfetch) (by decide)
          fun s' hp' _ => .lookup (by simp) hp' hnext

variable (macros literalAt) in
theorem plainTurn_none (hnext : nextToken fe₀ = (none, fe')) :
    plainTurn macros literalAt fe₀ = ([(.nextToken, fe₀)], some true, fe') := by
  rw [plainTurn, hnext]

variable (macros literalAt) in
theorem plainTurn_some {token : Token} (hnext : nextToken fe₀ = (some token, fe'))
    (hfe : fe₁ = fe'.take (some token)) :
    plainTurn macros literalAt fe₀ =
      ([(.nextToken, fe₀), (.lookupWord, fe₁),
        (if fe₁.currentToken.isParen ∨ (findWord fe₁.words fe₁.currentToken.bytes).isSome then
          .engageWord else .fallback, fe₁)],
        (match (engageToken macros literalAt fe₁).1 with | some () => none | none => some false),
        (engageToken macros literalAt fe₁).2) := by
  subst hfe
  simp only [plainTurn, hnext, Frontend.take]
  split
  · rename_i heq
    simp only [heq]
    rfl
  · rename_i heq
    simp only [heq]
    rfl

include hapart hal in
set_option maxRecDepth 4000 in
/-- `lookup_word` -/
theorem turn_lookup {token : Token}
    (hmem : (o, ps) ∈ [(36, []), (39, [D + 32]), (48, [(h.cell .lookupWord).toNat, D + 32])])
    (hp : Placed h D o 40 ps s) (hnext : nextToken fe₀ = (some token, fe')) :
    Turned h macros literalAt D fe₀ before o
      (h.turn macros literalAt al ⟨s, fe'.take (some token), before ++ [(.nextToken, fe₀)]⟩) := by
  simp only [List.mem_cons, Prod.mk.injEq, List.not_mem_nil, or_false] at hmem
  rcases hmem with ⟨rfl, rfl⟩ | ⟨rfl, rfl⟩ | ⟨rfl, rfl⟩
  · have hfetch := h.fetch_at 8 36 39 rfl rfl rfl
    exact .of_step hp hfetch rfl (hp.pushVar rfl hfetch hal minus_eight (by decide)) (by decide)
      fun s' hp' _ => .lookup (by simp) hp' hnext
  · have hfetch := h.fetch_at 9 39 48 rfl rfl rfl
    exact .of_step hp hfetch rfl (hp.pushGlobal rfl .lookupWord hfetch hal) (by decide)
      fun s' hp' _ => .lookup (by simp) hp' hnext
  · have hfetch := h.fetch_at 10 48 53 rfl rfl rfl
    have hcall : interpreterCall macros literalAt .lookupWord (fe'.take (some token))
        (s.withParams [D + 32]).vm =
        ((.ok, (s.withParams [D + 32]).vm.store (D + 32) (fe'.take (some token)).wordHandle),
          fe'.take (some token)) := rfl
    rw [(turn_of_call hp (Nat.zero_le _) hfetch rfl hcall).1 rfl (Nat.zero_le _), List.append_assoc]
    have hstored : (53, [D + 32]) ∈ [(53, [D + 32]), (58, []), (61, [D + 32])] := by simp
    exact .on (by decide) (.found hstored (hp.stores hapart (by omega) (by omega) _) hnext rfl
      (readInt_writeInt _ _))

include hal in
set_option maxRecDepth 4000 in
/-- The test for a word -/
theorem turn_found {token : Token} (hmem : (o, ps) ∈ [(53, [D + 32]), (58, []), (61, [D + 32])])
    (hp : Placed h D o 40 ps s) (hnext : nextToken fe₀ = (some token, fe'))
    (hfe : fe₁ = fe'.take (some token)) (hread : readInt s.vm.mem (D + 32) = fe₁.wordHandle) :
    Turned h macros literalAt D fe₀ before o
      (h.turn macros literalAt al ⟨s, fe₁, before ++ [(.nextToken, fe₀), (.lookupWord, fe₁)]⟩) := by
  simp only [List.mem_cons, Prod.mk.injEq, List.not_mem_nil, or_false] at hmem
  rcases hmem with ⟨rfl, rfl⟩ | ⟨rfl, rfl⟩ | ⟨rfl, rfl⟩
  · have hfetch := h.fetch_at 11 53 58 rfl rfl rfl
    exact .of_step hp hfetch rfl (hp.drop rfl hfetch) (by decide)
      fun s' hp' hmem => .found (by simp) hp' hnext hfe (by rw [hmem, hread])
  · have hfetch := h.fetch_at 12 58 61 rfl rfl rfl
    exact .of_step hp hfetch rfl (hp.pushVar rfl hfetch hal minus_eight (by decide)) (by decide)
      fun s' hp' hmem => .found (by simp) hp' hnext hfe (by rw [hmem, hread])
  · have hfetch := h.fetch_at 13 61 66 rfl rfl rfl
    have hgoes : ∃ s', step (h.env macros literalAt fe₁) al s = .running s' ∧
        Placed h D (if readInt s.vm.mem (D + 32) = 0 then (86 : UInt16) else 66).toNat 40 [] s' ∧
        s'.vm.mem = s.vm.mem := hp.branchTop rfl hfetch
    by_cases hzero : fe₁.wordHandle = 0
    · rw [hread, if_pos hzero] at hgoes
      exact .of_step hp hfetch rfl hgoes (by decide)
        fun s' hp' _ => .fallback (List.mem_cons_self ..) hp' hnext hfe hzero
    · rw [hread, if_neg hzero] at hgoes
      exact .of_step hp hfetch rfl hgoes (by decide)
        fun s' hp' hmem => .engage (by simp) hp' hnext hfe (by rw [hmem, hread]) hzero

include hal in
set_option maxRecDepth 4000 in
/-- `engage_word` -/
theorem turn_engage {token : Token} (hwords : fe₁.words.length < 2 ^ 63)
    (hmem : (o, ps) ∈ [(66, []), (69, [D + 32]), (78, [(h.cell .engageWord).toNat, D + 32])])
    (hp : Placed h D o 40 ps s) (hnext : nextToken fe₀ = (some token, fe'))
    (hfe : fe₁ = fe'.take (some token)) (hread : readInt s.vm.mem (D + 32) = fe₁.wordHandle)
    (hne : fe₁.wordHandle ≠ 0) :
    Turned h macros literalAt D fe₀ before o
      (h.turn macros literalAt al ⟨s, fe₁, before ++ [(.nextToken, fe₀), (.lookupWord, fe₁)]⟩) := by
  simp only [List.mem_cons, Prod.mk.injEq, List.not_mem_nil, or_false] at hmem
  rcases hmem with ⟨rfl, rfl⟩ | ⟨rfl, rfl⟩ | ⟨rfl, rfl⟩
  · have hfetch := h.fetch_at 14 66 69 rfl rfl rfl
    exact .of_step hp hfetch rfl (hp.pushVar rfl hfetch hal minus_eight (by decide)) (by decide)
      fun s' hp' hmem => .engage (by simp) hp' hnext hfe (by rw [hmem, hread]) hne
  · have hfetch := h.fetch_at 15 69 78 rfl rfl rfl
    exact .of_step hp hfetch rfl (hp.pushGlobal rfl .engageWord hfetch hal) (by decide)
      fun s' hp' hmem => .engage (by simp) hp' hnext hfe (by rw [hmem, hread]) hne
  · have hfetch := h.fetch_at 16 78 83 rfl rfl rfl
    have hargc : (1 : UInt32).toNat ≤ [D + 32].length := Nat.le_refl 1
    obtain ⟨hword, hengage⟩ := engageHandle_eq macros literalAt hwords hne
      (s.withParams [D + 32]).vm
    have hturn := plainTurn_some macros literalAt hnext hfe
    rw [if_pos hword] at hturn
    have hcall : interpreterCall macros literalAt .engageWord fe₁ (s.withParams [D + 32]).vm =
        outcome (s.withParams [D + 32]).vm (engageToken macros literalAt fe₁) := by
      rw [← hengage, ← hread]
      rfl
    cases htoken : engageToken macros literalAt fe₁ with
    | mk r fe₂ =>
        rw [htoken] at hcall hturn
        cases r with
        | some u =>
            rw [(turn_of_call hp hargc hfetch rfl hcall).1 rfl hargc,
              List.append_assoc]
            refine .on (show 78 < 83 by decide) (.again (by decide) ?_ hturn)
            exact ⟨rfl, hp.base, rfl, hp.crash, hp.data, hp.len, hp.entry, hp.cells⟩
        | none =>
            rw [(turn_of_call hp hargc hfetch rfl hcall).2 rfl, List.append_assoc]
            exact .ends hturn

include hal in
set_option maxRecDepth 4000 in
/-- `fallback` -/
theorem turn_fallback {token : Token} (hwords : fe₁.words.length < 2 ^ 63)
    (hmem : (o, ps) ∈ [(86, []), (95, [(h.cell .fallback).toNat])])
    (hp : Placed h D o 40 ps s) (hnext : nextToken fe₀ = (some token, fe'))
    (hfe : fe₁ = fe'.take (some token)) (hzero : fe₁.wordHandle = 0) :
    Turned h macros literalAt D fe₀ before o
      (h.turn macros literalAt al ⟨s, fe₁, before ++ [(.nextToken, fe₀), (.lookupWord, fe₁)]⟩) := by
  simp only [List.mem_cons, Prod.mk.injEq, List.not_mem_nil, or_false] at hmem
  rcases hmem with ⟨rfl, rfl⟩ | ⟨rfl, rfl⟩
  · have hfetch := h.fetch_at 18 86 95 rfl rfl rfl
    exact .of_step hp hfetch rfl (hp.pushGlobal rfl .fallback hfetch hal) (by decide)
      fun s' hp' _ => .fallback (by simp) hp' hnext hfe hzero
  · have hfetch := h.fetch_at 19 95 100 rfl rfl rfl
    have hargc : (0 : UInt32).toNat ≤ ([] : List Nat).length := Nat.le_refl 0
    obtain ⟨hword, hfallback⟩ := fallback_eq macros literalAt hwords hzero
    have hturn := plainTurn_some macros literalAt hnext hfe
    rw [if_neg hword] at hturn
    have hcall : interpreterCall macros literalAt .fallback fe₁ (s.withParams []).vm =
        outcome (s.withParams []).vm (engageToken macros literalAt fe₁) := by
      rw [← hfallback]
      rfl
    cases htoken : engageToken macros literalAt fe₁ with
    | mk r fe₂ =>
        rw [htoken] at hcall hturn
        cases r with
        | some u =>
            rw [(turn_of_call hp hargc hfetch rfl hcall).1 rfl hargc,
              List.append_assoc]
            refine .on (show 95 < 100 by decide) (.again (by decide) ?_ hturn)
            exact ⟨rfl, hp.base, rfl, hp.crash, hp.data, hp.len, hp.entry, hp.cells⟩
        | none =>
            rw [(turn_of_call hp hargc hfetch rfl hcall).2 rfl, List.append_assoc]
            exact .ends hturn

set_option maxRecDepth 4000 in
/-- The jumps back to the head of the loop -/
theorem turn_again (hmem : o ∈ [83, 100, 106]) (hp : Placed h D o 40 [] s)
    (hturn : plainTurn macros literalAt fe₀ = (calls, none, fe)) :
    Turned h macros literalAt D fe₀ before o (h.turn macros literalAt al ⟨s, fe, before ++ calls⟩) := by
  simp only [List.mem_cons, List.not_mem_nil, or_false] at hmem
  rcases hmem with rfl | rfl | rfl
  · have hfetch := h.fetch_at 17 83 86 rfl rfl rfl
    exact .of_step hp hfetch rfl (hp.jump rfl hfetch) (by decide)
      fun s' hp' _ => .again (by decide) hp' hturn
  · have hfetch := h.fetch_at 20 100 103 rfl rfl rfl
    exact .of_step hp hfetch rfl (hp.jump rfl hfetch) (by decide)
      fun s' hp' _ => .again (by decide) hp' hturn
  · have hfetch := h.fetch_at 22 106 109 rfl rfl rfl
    obtain ⟨s', hstep, hp', -⟩ : ∃ s', step (h.env macros literalAt fe) al s = .running s' ∧
        Placed h D (6 : UInt16).toNat 40 [] s' ∧ s'.vm.mem = s.vm.mem := hp.jump rfl hfetch
    rw [turn_of_step hp hfetch rfl hstep]
    exact .again hturn hp'

set_option maxRecDepth 4000 in
/-- The way out of the loop -/
theorem turn_leave (hmem : (o, len) ∈ [(103, 40), (109, 40), (112, 32), (115, 24)])
    (hp : Placed h D o len [] s) (hnext : nextToken fe₀ = (none, fe)) :
    Turned h macros literalAt D fe₀ before o
      (h.turn macros literalAt al ⟨s, fe, before ++ [(.nextToken, fe₀)]⟩) := by
  simp only [List.mem_cons, Prod.mk.injEq, List.not_mem_nil, or_false] at hmem
  rcases hmem with ⟨rfl, rfl⟩ | ⟨rfl, rfl⟩ | ⟨rfl, rfl⟩ | ⟨rfl, rfl⟩
  · have hfetch := h.fetch_at 21 103 106 rfl rfl rfl
    exact .of_step hp hfetch rfl (hp.jump rfl hfetch) (by decide)
      fun s' hp' _ => .leave (by decide) hp' hnext
  · have hfetch := h.fetch_at 23 109 112 rfl rfl rfl
    exact .of_step hp hfetch rfl (hp.shrink rfl (by decide) hfetch) (by decide)
      fun s' hp' _ => .leave (by decide) hp' hnext
  · have hfetch := h.fetch_at 24 112 115 rfl rfl rfl
    exact .of_step hp hfetch rfl (hp.shrink rfl (by decide) hfetch) (by decide)
      fun s' hp' _ => .leave (by decide) hp' hnext
  · have hfetch := h.fetch_at 25 115 116 rfl rfl rfl
    obtain ⟨vm, hret⟩ : ∃ vm, step (h.env macros literalAt fe) al s = .done .ok vm :=
      hp.ret rfl hfetch
    have hnone : h.called s = none := by
      rw [InterpreterHost.called, hp.pc, hfetch]
    simp only [InterpreterHost.turn, hnone, hret]
    exact .ends (plainTurn_none macros literalAt hnext)

variable (before) in
include hapart hal in
/-- Every round keeps to the loop. -/
theorem LoopSpot.turn (hwords : fe.words.length < 2 ^ 63) (hspot : LoopSpot h macros literalAt D fe₀ o s fe calls) :
    Turned h macros literalAt D fe₀ before o (h.turn macros literalAt al ⟨s, fe, before ++ calls⟩) := by
  cases hspot with
  | read hmem hp => exact turn_read hapart hal hmem hp
  | test hmem hp hnext hread => exact turn_test hal hmem hp hnext hread
  | lookup hmem hp hnext => exact turn_lookup hapart hal hmem hp hnext
  | found hmem hp hnext hfe hread => exact turn_found hal hmem hp hnext hfe hread
  | engage hmem hp hnext hfe hread hne => exact turn_engage hal hwords hmem hp hnext hfe hread hne
  | fallback hmem hp hnext hfe hzero => exact turn_fallback hal hwords hmem hp hnext hfe hzero
  | again hmem hp hturn => exact turn_again hmem hp hturn
  | leave hmem hp hnext => exact turn_leave hmem hp hnext

end Spots

/-! ## Room for the words -/

section WordsFit

variable {macros : Nat → Frontend M → Option VmResult × Frontend M} {literalAt : Nat → UInt64}

/-- A handle can stand for each word. -/
def Frontend.WordsFit (fe : Frontend M) : Prop :=
  fe.words.length < 2 ^ 63

theorem Frontend.WordsFit.of_words {x : FrontStep M Unit} (hx : x.Preserves Frontend.words) {fe : Frontend M}
    (hfe : fe.WordsFit) : (x fe).2.WordsFit := by
  rwa [Frontend.WordsFit, hx fe]

theorem Frontend.WordsFit.take {fe : Frontend M} (hfe : fe.WordsFit) (t : Option Token) :
    (fe.take t).WordsFit := by
  cases t <;> exact hfe

variable (hmacros : ∀ idx fe, fe.WordsFit → (macros idx fe).2.WordsFit)

include hmacros in
theorem runImmediate_fits (idx : Nat) {fe : Frontend M} (hfe : fe.WordsFit) :
    (runImmediate macros idx fe).2.WordsFit := by
  rw [runImmediate]
  split
  · exact hfe
  · split
    · exact hfe
    · have hmacro := hmacros idx fe hfe
      split
      · rename_i heq
        rwa [heq] at hmacro
      · rename_i heq
        rwa [heq] at hmacro
      · rename_i heq
        rw [heq] at hmacro
        split
        · exact hmacro
        · exact hmacro

include hmacros in
theorem engageKind_fits (kind : WordKind) {fe : Frontend M} (hfe : fe.WordsFit) :
    (engageKind macros kind fe).2.WordsFit := by
  cases kind with
  | op op => exact .of_words (emitOp_words op) hfe
  | func idx => exact .of_words (emitOp_words _) hfe
  | native global => exact .of_words ((emitOp_words _).bind fun _ => emitOp_words _) hfe
  | immediate word =>
      cases word with
      | var => exact .of_words runVar_kept.words hfe
      | func idx => exact runImmediate_fits hmacros idx hfe
      | loop => exact .of_words (runControl_kept .loop).words hfe
      | again => exact .of_words (runControl_kept .again).words hfe
      | ifWord => exact .of_words (runControl_kept .ifWord).words hfe
      | elseWord => exact .of_words (runControl_kept .elseWord).words hfe
      | done => exact .of_words (runControl_kept .done).words hfe
      | breakWord => exact .of_words (runControl_kept .breakWord).words hfe
      | continueWord => exact .of_words (runControl_kept .continueWord).words hfe
      | start => exact .of_words (runControl_kept .start).words hfe
      | finallyWord => exact .of_words (runControl_kept .finallyWord).words hfe
      | endWord => exact .of_words (runControl_kept .endWord).words hfe
      | defer => exact .of_words (runControl_kept .defer).words hfe

include hmacros in
theorem engageToken_fits {fe : Frontend M} (hfe : fe.WordsFit) :
    (engageToken macros literalAt fe).2.WordsFit := by
  simp only [engageToken]
  split
  · exact .of_words (handleDelimiter_kept _).words hfe
  · split
    · rename_i word _
      rw [engageWord]
      split
      · exact engageKind_fits hmacros word.kind hfe
      · exact hfe
    · exact .of_words (compileFallback_words literalAt _) hfe

theorem nextToken_fits {fe fe' : Frontend M} {t : Option Token} (hfe : fe.WordsFit)
    (hnext : nextToken fe = (t, fe')) : fe'.WordsFit := by
  rwa [Frontend.WordsFit, nextToken_kept.words.run hnext]

variable (literalAt)

include hmacros in
theorem plainTurn_fits {fe : Frontend M} (hfe : fe.WordsFit) :
    (plainTurn macros literalAt fe).2.2.WordsFit := by
  rcases hnext : nextToken fe with ⟨_ | token, fe'⟩
  · rw [plainTurn, hnext]
    exact nextToken_fits hfe hnext
  · rw [plainTurn_some _ _ hnext rfl]
    exact engageToken_fits hmacros ((nextToken_fits hfe hnext).take _)

include hmacros in
theorem plainLoop_fits {fe : Frontend M} (hfe : fe.WordsFit) (k : Nat) :
    (plainLoop macros literalAt fe k).2.2.WordsFit := by
  induction k with
  | zero => exact hfe
  | succ k ih =>
      simp only [plainLoop]
      split
      · rename_i heq
        rw [heq] at ih
        exact plainTurn_fits literalAt hmacros ih
      · exact ih

variable {literalAt} in
/-- The frontend of a spot has the words of the round, or those behind it. -/
theorem LoopSpot.fits {h : InterpreterHost} {D o : Nat} {s : State} {fe₀ fe : Frontend M} {calls : CallLog M}
    (hmacros : ∀ idx fe, fe.WordsFit → (macros idx fe).2.WordsFit) (hfe : fe₀.WordsFit)
    (hspot : LoopSpot h macros literalAt D fe₀ o s fe calls) : fe.WordsFit := by
  cases hspot with
  | read => exact hfe
  | test _ _ hnext => exact (nextToken_fits hfe hnext).take _
  | lookup _ _ hnext => exact (nextToken_fits hfe hnext).take _
  | found _ _ hnext hfe' =>
      rw [hfe']
      exact (nextToken_fits hfe hnext).take _
  | engage _ _ hnext hfe' =>
      rw [hfe']
      exact (nextToken_fits hfe hnext).take _
  | fallback _ _ hnext hfe' =>
      rw [hfe']
      exact (nextToken_fits hfe hnext).take _
  | again _ _ hturn =>
      have hfits := plainTurn_fits literalAt hmacros hfe
      rwa [hturn] at hfits
  | leave _ _ hnext => exact nextToken_fits hfe hnext

end WordsFit

end TreeVM
