import TreeVM.Frontend.Sessions

/-!
# What a token adds to a function

A word that emits operations adds them behind the others, and no token changes the table of words.

* `FrontStep.Preserves`: a part of the state that a step leaves alone;
* `WordKind.ops`: the operations of a word; `engageWord_ops`: a word adds them;
* `engageToken_words`, `Engages.words`: the words during a form.
-/

namespace TreeVM

/-! ## Steps that add nothing -/

/-- The words and the operations -/
def Frontend.code {M : Type} (fe : Frontend M) : List Word × List Op :=
  (fe.words, fe.func.ops)

/-- What only operations and literals change -/
def Frontend.kept {M : Type} (fe : Frontend M) : (List Word × List Op) × Option Context × List (Nat × Int) :=
  (fe.code, fe.ctx, fe.ownedGlobals)

/-- The step leaves `p` of the state alone, also when it fails. -/
def FrontStep.Preserves {M α β : Type} (p : Frontend M → β) (x : FrontStep M α) : Prop :=
  ∀ fe, p (x fe).2 = p fe

namespace FrontStep.Preserves

variable {M α β γ : Type} {p : Frontend M → γ}

theorem pure (a : α) : Preserves p (pure a : FrontStep M α) :=
  fun _ => rfl

theorem run {x : FrontStep M α} (h : x.Preserves p) {fe fe' : Frontend M} {a : Option α}
    (hrun : x fe = (a, fe')) : p fe' = p fe := by
  have hkept := h fe
  rwa [hrun] at hkept

theorem bind {x : FrontStep M α} {f : α → FrontStep M β} (hx : x.Preserves p)
    (hf : ∀ a, (f a).Preserves p) : (x >>= f).Preserves p := by
  intro fe
  rcases hrun : x fe with ⟨_ | a, fe₁⟩
  · rw [bind_none hrun]
    exact hx.run hrun
  · rw [bind_some hrun]
    exact (hf a fe₁).trans (hx.run hrun)

theorem get : Preserves p (FrontStep.get : FrontStep M (Frontend M)) :=
  fun _ => rfl

theorem modify {f : Frontend M → Frontend M} (hf : ∀ fe, p (f fe) = p fe) :
    Preserves p (FrontStep.modify f) :=
  hf

theorem fail : Preserves p (FrontStep.fail : FrontStep M α) :=
  fun _ => rfl

theorem ite {c : Prop} [Decidable c] {x y : FrontStep M α} (hx : x.Preserves p) (hy : y.Preserves p) :
    Preserves p (if c then x else y) := by
  split
  · exact hx
  · exact hy

theorem failWith (error : FrontendError) :
    Preserves Frontend.kept (FrontStep.failWith error : FrontStep M α) :=
  fun _ => rfl

theorem failAt (error : FrontendError) (word : Text) :
    Preserves Frontend.kept (FrontStep.failAt error word : FrontStep M α) :=
  fun _ => rfl

theorem words {x : FrontStep M α} (h : x.Preserves Frontend.kept) : x.Preserves Frontend.words :=
  fun fe => congrArg (fun kept => kept.1.1) (h fe)

theorem ops {x : FrontStep M α} (h : x.Preserves Frontend.kept) {fe fe' : Frontend M} {a : Option α}
    (hrun : x fe = (a, fe')) : fe'.func.ops = fe.func.ops :=
  congrArg (fun kept => kept.1.2) (h.run hrun)

end FrontStep.Preserves

section Code

open FrontStep FrontStep.Preserves

variable {M : Type}

theorem nextToken_kept : (nextToken : FrontStep M Token).Preserves Frontend.kept := by
  intro fe
  rw [nextToken]
  split <;> rfl

theorem nextName_kept (error : FrontendError) :
    (nextName error : FrontStep M Token).Preserves Frontend.kept := by
  intro fe
  have hnext := nextToken_kept fe
  rw [nextName]
  split
  · rename_i token fe' hrun
    rw [hrun] at hnext
    split
    · exact hnext
    · exact hnext
  · rename_i fe' hrun
    rw [hrun] at hnext
    exact hnext

theorem parseNumber_kept : (parseNumber : FrontStep M Int).Preserves Frontend.kept :=
  (nextName_kept _).bind fun _ => ite (failAt _ _) (pure _)

theorem internType_kept (kind : TypeKind) : (internType kind : FrontStep M Nat).Preserves Frontend.kept := by
  refine get.bind fun fe => ?_
  split
  · exact pure _
  · exact fun _ => rfl

theorem parseTypeFrom_kept (rounds : Nat) :
    (parseTypeFrom rounds : FrontStep M Nat).Preserves Frontend.kept := by
  induction rounds with
  | zero => exact fail
  | succ rounds ih =>
      refine (nextName_kept _).bind fun token => ?_
      refine ite (pure _) (ite (pure _) (ite (ih.bind fun _ => internType_kept _)
        (ite (ih.bind fun _ => internType_kept _) (ite ?_ ?_))))
      · refine parseNumber_kept.bind fun parsed => ite (failWith _) ?_
        exact ih.bind fun _ => internType_kept _
      · refine get.bind fun fe => ?_
        split
        · exact pure _
        · exact failAt _ _

theorem prepareFunc_kept : (prepareFunc : FrontStep M Unit).Preserves Frontend.kept := by
  intro fe
  rw [prepareFunc]
  split
  · rfl
  · split <;> rfl

theorem appendBasicBlock_kept : (appendBasicBlock : FrontStep M Nat).Preserves Frontend.kept := by
  intro fe
  rw [appendBasicBlock]
  split <;> rfl

theorem wrapCurrent_kept (middle : Block) :
    (wrapCurrent middle : FrontStep M (Nat × Nat)).Preserves Frontend.kept := by
  intro fe
  rw [wrapCurrent]
  dsimp only
  split <;> rfl

theorem finishImplicitFrom_kept (scopes : List FrontendScope) (fe : Frontend M) :
    (finishImplicitFrom scopes fe).kept = fe.kept := by
  induction scopes generalizing fe with
  | nil => rfl
  | cons scope rest ih =>
      rw [finishImplicitFrom]
      split
      · exact ih _
      · rfl

theorem emitLoopExit_kept (isContinue : Bool) :
    (emitLoopExit isContinue : FrontStep M Unit).Preserves Frontend.kept := by
  intro fe
  rw [emitLoopExit]
  split
  · rfl
  · rename_i inner loop hsplit
    dsimp only
    generalize (if isContinue = true then loop.continueDepth else loop.breakDepth) = target
    have hwrap := wrapCurrent_kept (.brk (fe.scopeDepth + 1 - target + 1)) fe
    split
    · rfl
    split
    · rfl
    split
    · rename_i hrun
      rwa [hrun] at hwrap
    · rename_i hrun
      rwa [hrun] at hwrap

theorem beginEpilogue_kept (implicitEnd : Bool) :
    (beginEpilogue implicitEnd : FrontStep M Unit).Preserves Frontend.kept :=
  appendBasicBlock_kept.bind fun _ => appendBasicBlock_kept.bind fun _ =>
    get.bind fun _ => (wrapCurrent_kept _).bind fun _ => modify fun _ => rfl

theorem control_kept (word : Immediate) : (control word : FrontStep M Unit).Preserves Frontend.kept := by
  cases word with
  | func _ | var => exact fail
  | loop =>
      refine appendBasicBlock_kept.bind fun body => get.bind fun fe => ite fail ?_
      refine Preserves.bind ?_ fun _ => (wrapCurrent_kept _).bind fun _ => modify fun _ => rfl
      exact modify fun _ => rfl
  | ifWord =>
      exact appendBasicBlock_kept.bind fun _ => appendBasicBlock_kept.bind fun _ =>
        get.bind fun _ => (wrapCurrent_kept _).bind fun _ => modify fun _ => rfl
  | start => exact beginEpilogue_kept false
  | defer => exact beginEpilogue_kept true
  | breakWord => exact emitLoopExit_kept false
  | continueWord => exact emitLoopExit_kept true
  | again =>
      intro fe
      simp only [control, endLoop]
      split
      · split <;> rfl
      · rfl
  | elseWord =>
      intro fe
      simp only [control, beginElse]
      split
      · split <;> rfl
      · rfl
  | done =>
      intro fe
      simp only [control, endIf]
      split
      · split
        · dsimp only
          split <;> rfl
        · rfl
      · rfl
  | finallyWord =>
      intro fe
      simp only [control, beginCleanup]
      split
      · split <;> rfl
      · rfl
  | endWord =>
      intro fe
      simp only [control, finishEpilogue]
      split
      · split <;> rfl
      · rfl

theorem runControl_kept (word : Immediate) :
    (runControl word : FrontStep M Unit).Preserves Frontend.kept := by
  intro fe
  rw [runControl]
  split
  · rfl
  · rw [control_kept word]
    split
    · exact finishImplicitFrom_kept _ _
    · rfl

theorem declareVar_kept (tid : Nat) (name : Name) :
    (declareVar tid name : FrontStep M Unit).Preserves Frontend.kept := by
  intro fe
  rw [declareVar]
  split
  · rfl
  split
  · rfl
  split
  · rfl
  · rfl

theorem handleDelimiter_kept (opening : Bool) :
    (handleDelimiter opening : FrontStep M Unit).Preserves Frontend.kept := by
  intro fe
  rw [handleDelimiter]
  split
  · rfl
  split
  · split
    · rfl
    · rfl
  split
  · rfl
  split
  · rfl
  · dsimp only
    split
    · rfl
    · split
      · rfl
      · rfl

theorem runVar_kept : (runVar : FrontStep M Unit).Preserves Frontend.kept := by
  have hparse : (parseType : FrontStep M Nat).Preserves Frontend.kept := fun fe =>
    parseTypeFrom_kept (fe.cursor.length + 1) fe
  exact hparse.bind fun tid => (nextName_kept _).bind fun name => declareVar_kept tid name.bytes

end Code

/-! ## Operations -/

section Operations

open FrontStep

variable {M : Type} {fe fe' : Frontend M} {literalAt : Nat → UInt64}

theorem emitOp_words (op : Op) : (emitOp op : FrontStep M Unit).Preserves Frontend.words := by
  refine prepareFunc_kept.words.bind fun _ => Preserves.modify fun fe => ?_
  dsimp only
  split <;> rfl

theorem emitOp_ops {op : Op} (h : emitOp op fe = (some (), fe')) :
    fe'.func.ops = fe.func.ops ++ [op] := by
  rcases hrun : prepareFunc fe with ⟨_ | _, fe₁⟩
  · rw [emitOp, bind_none hrun] at h
    cases h
  · rw [emitOp, bind_some hrun] at h
    have hkept := prepareFunc_kept.ops hrun
    cases h
    dsimp only
    split <;> exact congrArg (· ++ [op]) hkept

/-- The operations of a word; the control words have none. -/
def WordKind.ops : WordKind → List Op
  | op single => [single]
  | func idx => [⟨.call, idx⟩]
  | native global => [⟨.pushGlobal, global⟩, ⟨.callNativeOnStack, 0⟩]
  | immediate _ => []

theorem runImmediate_kept (idx : Nat) :
    (runImmediate noMacros idx).Preserves Frontend.kept := by
  intro fe
  rw [runImmediate]
  split
  · rfl
  split
  · rfl
  · rfl

theorem immediate_kept (word : Immediate) :
    (engageKind noMacros (.immediate word)).Preserves Frontend.kept := by
  cases word with
  | var => exact runVar_kept
  | func idx => exact runImmediate_kept idx
  | loop => exact runControl_kept .loop
  | again => exact runControl_kept .again
  | ifWord => exact runControl_kept .ifWord
  | elseWord => exact runControl_kept .elseWord
  | done => exact runControl_kept .done
  | breakWord => exact runControl_kept .breakWord
  | continueWord => exact runControl_kept .continueWord
  | start => exact runControl_kept .start
  | finallyWord => exact runControl_kept .finallyWord
  | endWord => exact runControl_kept .endWord
  | defer => exact runControl_kept .defer

theorem engageKind_words (kind : WordKind) : (engageKind noMacros kind).Preserves Frontend.words := by
  cases kind with
  | op op => exact emitOp_words op
  | func idx => exact emitOp_words _
  | native global => exact (emitOp_words _).bind fun _ => emitOp_words _
  | immediate word => exact (immediate_kept word).words

theorem engageWord_words (word : Word) : (engageWord noMacros word).Preserves Frontend.words := by
  intro fe
  rw [engageWord]
  split
  · exact engageKind_words word.kind fe
  · rfl

/-- A word that is not refused adds its operations. -/
theorem engageWord_ops {fe fe' : Frontend Unit} {word : Word}
    (h : engageWord noMacros word fe = (some (), fe')) :
    fe'.func.ops = fe.func.ops ++ word.kind.ops := by
  rw [engageWord] at h
  split at h
  · obtain ⟨name, kind⟩ := word
    cases kind with
    | op op => exact emitOp_ops h
    | func idx => exact emitOp_ops h
    | native global =>
        rcases hpush : emitOp ⟨.pushGlobal, global⟩ fe with ⟨_ | _, fe₁⟩
        · rw [engageKind, bind_none hpush] at h
          cases h
        · rw [engageKind, bind_some hpush] at h
          rw [emitOp_ops h, emitOp_ops hpush, List.append_assoc]
          rfl
    | immediate word => exact ((immediate_kept word).ops h).trans (List.append_nil _).symm
  · cases h

theorem emitNumber_words (literalAt : Nat → UInt64) (token : Token) :
    (emitNumber literalAt token : FrontStep M Unit).Preserves Frontend.words := by
  refine Preserves.ite Preserves.fail (Preserves.ite (Preserves.failAt _ _).words ?_)
  refine Preserves.bind ?_ fun _ => emitOp_words _
  intro fe
  rw [appendLiteral]
  split
  · rfl
  · dsimp only
    split <;> rfl

theorem emitVar_words (idx : Nat) : (emitVar idx : FrontStep M Unit).Preserves Frontend.words :=
  Preserves.get.bind fun _ => emitOp_words _

theorem compileFallback_words (literalAt : Nat → UInt64) (token : Token) :
    (compileFallback literalAt token : FrontStep M Unit).Preserves Frontend.words := by
  intro fe
  -- the state in which the token is tried as a number
  have hnumber : ∀ fe' : Frontend M, fe'.words = fe.words →
      ((if isDigit (byteAt token.data 0) ∨ byteAt token.data 0 = 0x2d ∨ byteAt token.data 0 = 0x2b
        then emitNumber literalAt token fe'
        else FrontStep.failAt .unknownWord token.data fe') : Option Unit × Frontend M).2.words = fe.words := by
    intro fe' hfe'
    split
    · exact (emitNumber_words literalAt token fe').trans hfe'
    · exact hfe'
  rw [compileFallback]
  split
  · cases hfound : findVar fe.func token.bytes with
    | none => exact hnumber fe rfl
    | some idx =>
        rcases hrun : emitVar idx fe with ⟨_ | _, fe'⟩
        · simp only [Option.map_some, hrun]
          exact hnumber fe' ((emitVar_words idx).run hrun)
        · simp only [Option.map_some, hrun]
          exact (emitVar_words idx).run hrun
  · rfl

theorem engageToken_words (literalAt : Nat → UInt64) :
    (engageToken noMacros literalAt).Preserves Frontend.words := by
  intro fe
  simp only [engageToken]
  split
  · exact (handleDelimiter_kept _).words fe
  · split
    · exact engageWord_words _ fe
    · exact compileFallback_words literalAt _ fe

/-- The words during a form are those at its start. -/
theorem Engages.words {fe st : Frontend Unit} (h : Engages noMacros literalAt fe st) :
    st.words = fe.words := by
  induction h with
  | here htoken =>
      have hnext := nextToken_kept.words.run htoken
      exact hnext
  | later htoken hengage _ ih =>
      have hnext := nextToken_kept.words.run htoken
      have hstep := (engageToken_words literalAt).run hengage
      exact (ih.trans hstep).trans hnext

theorem EngagedBy.words {fe st : Frontend Unit} {source : Text}
    (h : EngagedBy noMacros literalAt source fe st) : st.words = fe.words := by
  obtain ⟨fe₁, hprepare, hst⟩ := h
  have hkept := prepareFunc_kept.words.run hprepare
  exact (Engages.words hst).trans hkept

end Operations

end TreeVM
