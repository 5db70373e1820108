import TreeVM.Frontend.State
import TreeVM.IR.TypeTable
import TreeVM.VM.Machine

/-!
# Words and the outer interpreter

The functions of `frontend.c` that read the source.

* `nextToken`, `parseName`, `parseNumber`, `parseType`: what the parser consumes;
* `engageWord`, `compileFallback`: what one token does;
* `interpret`: the outer interpreter as a plain loop; `compileSource`: `frontend_compile_source`.

The macro VM runs native functions that are not part of the repository: `macros idx` is the run of
function `idx`, which gives no result when the function does not compile.  `literalAt i` is where
the memory of literal global `i` is allocated.
-/

namespace TreeVM

variable {M : Type}

/-- The bytes of a C string. -/
def utf8 (s : String) : Name :=
  s.toByteArray.data.toList

/-- `next_token` -/
def nextToken : FrontStep M Token := fun fe =>
  match scanToken fe.cursor with
  | none => (none, fe)
  | some (token, cursor) => (some token, { fe with cursor := cursor })

/-- A token that is not a parenthesis. -/
def nextName (error : FrontendError) : FrontStep M Token := fun fe =>
  match nextToken fe with
  | (some token, fe) => if token.isParen then FrontStep.failWith error fe else (some token, fe)
  | (none, fe) => FrontStep.failWith error fe

/-- `frontend_parse_name` -/
def parseName : FrontStep M Token :=
  nextName .expectedName

/-- `frontend_parse_number` -/
def parseNumber : FrontStep M Int := do
  let token ← nextName .badNumber
  let number := strtoll token.data
  if number.range = true ∨ number.len ≠ token.len then FrontStep.failAt .badNumber token.data
  else return number.value

/-! ## Types -/

/-- `type_matches`, for arrays, slices and views -/
def typeMatches (t : NamedType) (kind : TypeKind) : Bool :=
  t.ty.kind.shape = kind

/-- `append_type` -/
def appendType (t : NamedType) : FrontStep M Nat := fun fe =>
  (some fe.func.types.length, { fe with func := { fe.func with types := fe.func.types ++ [t] } })

/-- `type_array`, `type_slice`, `type_view` -/
def compositeType (kind : TypeKind) : NamedType :=
  match kind with
  | .slice _ => ⟨{ kind := kind, isPortal := true }, some (utf8 "Slice")⟩
  | .view _ => ⟨{ kind := kind, isPortal := true }, some (utf8 "View")⟩
  | _ => ⟨{ kind := kind }, none⟩

/-- The end of `frontend_parse_type`: a composite type is interned. -/
def internType (kind : TypeKind) : FrontStep M Nat := do
  let fe ← FrontStep.get
  match fe.func.types.findIdx? (typeMatches · kind) with
  | some tid => return tid
  | none => appendType (compositeType kind)

/-- The types of the function by name -/
def namedType (name : Token) : FrontStep M Nat := do
  let fe ← FrontStep.get
  match fe.func.types.findIdx? fun t => t.name = some name.bytes with
  | some tid => return tid
  | none => FrontStep.failAt .unknownType name.data

/-- `frontend_parse_type`.  Every round consumes a token, so one more than the length of the source
is enough. -/
def parseTypeFrom : Nat → FrontStep M Nat
  | 0 => FrontStep.fail
  | rounds + 1 => do
      let token ← parseName
      let name := token.bytes
      if name = utf8 "Int" ∨ name = utf8 "int" then return intId
      else if name = utf8 "Byte" ∨ name = utf8 "byte" then return byteId
      else if name = utf8 "Slice" then do
        let elem ← parseTypeFrom rounds
        internType (.slice elem)
      else if name = utf8 "View" then do
        let elem ← parseTypeFrom rounds
        internType (.view elem)
      else if name = utf8 "Array" then do
        let parsed ← parseNumber
        if parsed < 0 ∨ 2 ^ 32 - 1 < parsed then FrontStep.failWith .badNumber
        else
          let elem ← parseTypeFrom rounds
          internType (.array elem (UInt32.ofNat parsed.toNat) 0)
      else namedType token

def parseType : FrontStep M Nat := fun fe =>
  parseTypeFrom (fe.cursor.length + 1) fe

/-! ## Words -/

section Words

variable (macros : Nat → Frontend M → Option VmResult × Frontend M) (literalAt : Nat → UInt64)

/-- `append_owned_global`, for a literal -/
def appendLiteral (value : Int) : FrontStep M Nat := fun fe =>
  match fe.ctx with
  | none => FrontStep.failWith .oom fe
  | some ctx =>
      let idx := ctx.globals.length
      if maxOffset < idx then FrontStep.failWith .oom fe
      else
        let global : Global := ⟨intId, literalAt idx⟩
        (some idx, { fe with
          ctx := some { ctx with globals := ctx.globals ++ [global] }
          ownedGlobals := fe.ownedGlobals ++ [(idx, value)] })

/-- `emit_number` -/
def emitNumber (token : Token) : FrontStep M Unit :=
  let number := strtoll token.data
  if number.len = 0 then FrontStep.fail
  else if number.range = true ∨ number.len ≠ token.len then FrontStep.failAt .badNumber token.data
  else do
    let global ← appendLiteral literalAt number.value
    emitOp ⟨.pushGlobal, UInt16.ofNat global⟩

/-- `find_word` -/
def findWord (words : List Word) (name : Name) : Option Word :=
  words.find? fun word => word.name = name

/-- `emit_named_var`, for the variable that `findVar` finds -/
def emitVar (idx : Nat) : FrontStep M Unit := do
  let fe ← FrontStep.get
  let argc := fe.func.sig.outs.length + fe.func.sig.ins.length
  emitOp ⟨if idx < argc then .pushArg else .pushVar, UInt16.ofNat idx⟩

def findVar (func : Draft) (name : Name) : Option Nat :=
  func.vars.findIdx? fun var => var.name = some name

/-- `run_immediate` -/
def runImmediate (idx : Nat) : FrontStep M Unit := fun fe =>
  match fe.ctx with
  | none => FrontStep.failWith .macroCompileFailed fe
  | some ctx =>
      if ctx.funcs.length ≤ idx then FrontStep.failWith .macroCompileFailed fe
      else
        match macros idx fe with
        | (none, fe) => FrontStep.failWith .macroCompileFailed fe
        | (some .ok, fe) => (some (), fe)
        | (some _, fe) =>
            if fe.error = .ok then FrontStep.failWith .macroRuntimeFailed fe else (none, fe)

/-- `run_var` -/
def runVar : FrontStep M Unit := do
  let tid ← parseType
  let name ← parseName
  declareVar tid name.bytes

/-- A control word cannot stand here: a parenthesis is expected, or a condition is read. -/
def Frontend.closedToControl (fe : Frontend M) : Bool :=
  match fe.scopes with
  | [] => false
  | scope :: _ =>
      scope.phase = .waitOpen || scope.phase = .condition || scope.phase = .cleanupWaitOpen

/-- Words that end prefix `Defer`s -/
def Immediate.endsDefers : Immediate → Bool
  | .again => true
  | .elseWord => true
  | .done => true
  | .finallyWord => true
  | .endWord => true
  | _ => false

/-- The switch of `run_control` -/
def control : Immediate → FrontStep M Unit
  | .loop => beginLoop
  | .again => endLoop
  | .ifWord => beginIf
  | .elseWord => beginElse
  | .done => endIf
  | .breakWord => emitLoopExit false
  | .continueWord => emitLoopExit true
  | .start => beginEpilogue false
  | .finallyWord => beginCleanup
  | .endWord => finishEpilogue
  | .defer => beginEpilogue true
  | .func _ => FrontStep.fail
  | .var => FrontStep.fail

/-- `run_control` -/
def runControl (word : Immediate) : FrontStep M Unit := fun fe =>
  if fe.closedToControl then badControl fe
  else control word (if word.endsDefers then finishImplicitEpilogues fe else fe)

/-- `ready_for_word` -/
def Frontend.readyForWord (fe : Frontend M) : Bool :=
  match fe.scopes with
  | [] => true
  | scope :: _ => scope.phase ≠ .waitOpen && scope.phase ≠ .cleanupWaitOpen

/-- The switch of `engage_word` -/
def engageKind : WordKind → FrontStep M Unit
  | .op op => emitOp op
  | .func idx => emitOp ⟨.call, idx⟩
  | .native global => do
      emitOp ⟨.pushGlobal, global⟩
      emitOp ⟨.callNativeOnStack, 0⟩
  | .immediate .var => runVar
  | .immediate (.func idx) => runImmediate macros idx
  | .immediate word => runControl word

/-- `engage_word` -/
def engageWord (word : Word) : FrontStep M Unit := fun fe =>
  if fe.readyForWord then engageKind macros word.kind fe else badControl fe

/-- `compile_fallback`.  When the variable cannot be pushed, the token is tried as a number. -/
def compileFallback (token : Token) : FrontStep M Unit := fun fe =>
  if fe.readyForWord then
    let pushed := (findVar fe.func token.bytes).map fun idx => emitVar idx fe
    match pushed with
    | some (some (), fe) => (some (), fe)
    | _ =>
        let fe := (pushed.map Prod.snd).getD fe
        let b := byteAt token.data 0
        if isDigit b ∨ b = 0x2d ∨ b = 0x2b then emitNumber literalAt token fe
        else FrontStep.failAt .unknownWord token.data fe
  else badControl fe

/-- What the outer interpreter does with the current token. -/
def engageToken : FrontStep M Unit := fun fe =>
  let token := fe.currentToken
  if token.isParen then handleDelimiter (isOpening (byteAt token.data 0)) fe
  else
    match findWord fe.words token.bytes with
    | some word => engageWord macros word fe
    | none => compileFallback literalAt token fe

/-- The outer interpreter as a plain loop: did all steps succeed up to the end of the source? -/
def interpret : Nat → Frontend M → Option (Bool × Frontend M)
  | 0, _ => none
  | fuel + 1, fe =>
      match nextToken fe with
      | (none, fe) => some (true, fe)
      | (some token, fe) =>
          match engageToken macros literalAt { fe with currentToken := token } with
          | (some (), fe) => interpret fuel fe
          | (none, fe) => some (false, fe)

/-- The beginning of `frontend_compile_source`, once the function has its entry block. -/
def Frontend.begin (fe : Frontend M) (source : Text) : Frontend M :=
  { fe with
    error := .ok, errorWord := none, cursor := source, currentToken := ⟨[], 0⟩
    interpreterVm := {} }

/-- The end of `frontend_compile_source`, behind the outer interpreter -/
def Frontend.conclude (ok : Bool) (fe : Frontend M) : Bool × Frontend M :=
  let fe := { fe with interpreterVm := {} }
  if ok = false then
    (false, if fe.error = .ok then { fe with error := .interpreterRuntimeFailed } else fe)
  else
    let fe := finishImplicitEpilogues fe
    if fe.scopes = [] then (true, fe) else (false, { fe with error := .badControlFlow })

/-- `frontend_compile_source`; no result stands for a run that has not ended. -/
def compileSource (fuel : Nat) (source : Text) (fe : Frontend M) : Option (Bool × Frontend M) :=
  match prepareFunc fe with
  | (none, fe) => some (false, fe)
  | (some (), fe) =>
      (interpret macros literalAt fuel (fe.begin source)).map fun (ok, fe) => fe.conclude ok

end Words

/-- `frontend_add_core_words` -/
def coreWords : List Word :=
  [⟨utf8 "Var", .immediate .var⟩,
    ⟨utf8 "Assign", .op ⟨.assign, 0⟩⟩,
    ⟨utf8 "Add", .op ⟨.addAssign, 0⟩⟩,
    ⟨utf8 "Sub", .op ⟨.subAssign, 0⟩⟩,
    ⟨utf8 "Mul", .op ⟨.mulAssign, 0⟩⟩,
    ⟨utf8 "Div", .op ⟨.divAssign, 0⟩⟩,
    ⟨utf8 "And", .op ⟨.andAssign, 0⟩⟩,
    ⟨utf8 "Or", .op ⟨.orAssign, 0⟩⟩,
    ⟨utf8 "Xor", .op ⟨.xorAssign, 0⟩⟩,
    ⟨utf8 "BitNot", .op ⟨.bitNotAssign, 0⟩⟩,
    ⟨utf8 "CallNative", .op ⟨.callNativeOnStack, 0⟩⟩,
    ⟨utf8 "Loop", .immediate .loop⟩,
    ⟨utf8 "Again", .immediate .again⟩,
    ⟨utf8 "If", .immediate .ifWord⟩,
    ⟨utf8 "Else", .immediate .elseWord⟩,
    ⟨utf8 "Done", .immediate .done⟩,
    ⟨utf8 "Break", .immediate .breakWord⟩,
    ⟨utf8 "Continue", .immediate .continueWord⟩,
    ⟨utf8 "Start", .immediate .start⟩,
    ⟨utf8 "Finally", .immediate .finallyWord⟩,
    ⟨utf8 "End", .immediate .endWord⟩,
    ⟨utf8 "Defer", .immediate .defer⟩]

end TreeVM
