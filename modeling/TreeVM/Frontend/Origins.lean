import TreeVM.Frontend.Callable

/-!
# Where operations come from

The calls of a function go to words for functions, and the globals that it pushes are those of
native words, or literals of its own frontend.

* `Origin`: the operations that a token can add;
* `Frontend.Builds`: the state of a frontend with such operations, and with the globals of its
  literals behind those of the context;
* `compileSource_builds`: so `frontend_compile_source` leaves it, also when it fails.
-/

namespace TreeVM

/-- An operation of a word, of a local or an argument, or of a literal -/
inductive Origin (words : List Word) (owned : List (Nat × Int)) (op : Op) : Prop
  | word {w : Word} : w ∈ words → op ∈ w.kind.ops → Origin words owned op
  | named : op.kind = .pushVar ∨ op.kind = .pushArg → Origin words owned op
  | literal {idx : Nat} {value : Int} : (idx, value) ∈ owned → idx ≤ maxOffset →
      op = ⟨.pushGlobal, UInt16.ofNat idx⟩ → Origin words owned op

theorem Origin.mono {words : List Word} {owned owned' : List (Nat × Int)} {op : Op}
    (h : Origin words owned op) (hle : ∀ x ∈ owned, x ∈ owned') : Origin words owned' op := by
  cases h with
  | word hw hop => exact .word hw hop
  | named hkind => exact .named hkind
  | literal hmem hle' hop => exact .literal (hle _ hmem) hle' hop

/-- The globals of literals -/
def literals (literalAt : Nat → UInt64) (first count : Nat) : List Global :=
  (List.range' first count).map fun idx => ⟨intId, literalAt idx⟩

/-- The frontend has these words, and was set up on the context `ctx`. -/
structure Frontend.Builds (literalAt : Nat → UInt64) (ctx : Context) (words : List Word)
    (fe : Frontend Unit) : Prop where
  known : fe.words = words
  globals : fe.ctx = some ⟨ctx.funcs,
    ctx.globals ++ literals literalAt ctx.globals.length fe.ownedGlobals.length⟩
  owned : fe.ownedGlobals.map Prod.fst = List.range' ctx.globals.length fe.ownedGlobals.length
  ops : ∀ op ∈ fe.func.ops, Origin words fe.ownedGlobals op

section Steps

open FrontStep

variable {literalAt : Nat → UInt64} {ctx : Context} {words : List Word} {fe fe' : Frontend Unit}

theorem Frontend.Builds.of_kept (h : fe.Builds literalAt ctx words) (hkept : fe'.kept = fe.kept) :
    fe'.Builds literalAt ctx words := by
  simp only [Frontend.kept, Frontend.code, Prod.mk.injEq] at hkept
  obtain ⟨⟨hwords, hops⟩, hctx, howned⟩ := hkept
  refine ⟨?_, ?_, ?_, ?_⟩
  · rw [hwords, h.known]
  · rw [hctx, howned, h.globals]
  · rw [howned, h.owned]
  · rw [hops, howned]
    exact h.ops

theorem Frontend.Builds.step {α : Type} {x : FrontStep Unit α} (h : fe.Builds literalAt ctx words)
    (hx : x.Preserves Frontend.kept) : (x fe).2.Builds literalAt ctx words :=
  h.of_kept (hx fe)

theorem emitOp_builds {op : Op} (h : fe.Builds literalAt ctx words)
    (hop : Origin words fe.ownedGlobals op) : (emitOp op fe).2.Builds literalAt ctx words := by
  rcases hrun : prepareFunc fe with ⟨_ | _, fe₁⟩
  · rw [emitOp, bind_none hrun]
    exact h.of_kept (prepareFunc_kept.run hrun)
  · have hkept := prepareFunc_kept.run hrun
    have howned : fe₁.ownedGlobals = fe.ownedGlobals := congrArg (fun kept => kept.2.2) hkept
    have h₁ := h.of_kept hkept
    -- the operation behind the others
    have hadded : ({ fe₁ with func := { fe₁.func with ops := fe₁.func.ops ++ [op] } } :
        Frontend Unit).Builds literalAt ctx words := by
      refine ⟨h₁.known, h₁.globals, h₁.owned, fun o ho => ?_⟩
      rcases List.mem_append.mp ho with ho | ho
      · exact h₁.ops o ho
      · rw [List.mem_singleton.mp ho, howned]
        exact hop
    rw [emitOp, bind_some hrun, FrontStep.modify]
    dsimp only
    split
    · exact hadded
    · exact hadded.of_kept rfl

theorem appendLiteral_builds (value : Int) (h : fe.Builds literalAt ctx words) :
    (appendLiteral literalAt value fe).2.Builds literalAt ctx words ∧
    ∀ idx, (appendLiteral literalAt value fe).1 = some idx →
      (idx, value) ∈ (appendLiteral literalAt value fe).2.ownedGlobals ∧ idx ≤ maxOffset := by
  have hlen : (ctx.globals ++ literals literalAt ctx.globals.length fe.ownedGlobals.length).length =
      ctx.globals.length + fe.ownedGlobals.length := by
    rw [List.length_append, literals, List.length_map, List.length_range']
  simp only [appendLiteral, h.globals, hlen]
  by_cases hfull : maxOffset < ctx.globals.length + fe.ownedGlobals.length
  · rw [if_pos hfull]
    exact ⟨h.of_kept rfl, fun idx hidx => by cases hidx⟩
  · rw [if_neg hfull]
    refine ⟨⟨h.known, ?_, ?_, fun op hop => ?_⟩, fun idx hidx => ?_⟩
    · simp only [List.length_append, List.length_singleton, literals, List.range'_1_concat,
        List.map_append, List.map_cons, List.map_nil, List.append_assoc]
    · simp only [List.length_append, List.length_singleton, List.range'_1_concat, List.map_append,
        List.map_cons, List.map_nil, h.owned]
    · exact (h.ops op hop).mono fun x hx => List.mem_append_left _ hx
    · cases hidx
      exact ⟨List.mem_append_right _ (List.mem_singleton.mpr rfl), Nat.le_of_not_lt hfull⟩

theorem emitNumber_builds (token : Token) (h : fe.Builds literalAt ctx words) :
    (emitNumber literalAt token fe).2.Builds literalAt ctx words := by
  simp only [emitNumber]
  split
  · exact h
  split
  · exact h.of_kept rfl
  · obtain ⟨hbuilds, hliteral⟩ := appendLiteral_builds (strtoll token.data).value h
    rcases hrun : appendLiteral literalAt (strtoll token.data).value fe with ⟨_ | idx, fe₁⟩
    · rw [bind_none hrun]
      rwa [hrun] at hbuilds
    · rw [bind_some hrun]
      rw [hrun] at hbuilds hliteral
      obtain ⟨hmem, hle⟩ := hliteral idx rfl
      exact emitOp_builds hbuilds (.literal hmem hle rfl)

theorem emitVar_builds (idx : Nat) (h : fe.Builds literalAt ctx words) :
    (emitVar idx fe).2.Builds literalAt ctx words := by
  refine emitOp_builds h (.named ?_)
  dsimp only
  split
  · exact .inr rfl
  · exact .inl rfl

theorem compileFallback_builds (token : Token) (h : fe.Builds literalAt ctx words) :
    (compileFallback literalAt token fe).2.Builds literalAt ctx words := by
  -- the state in which the token is tried as a number
  have hnumber : ∀ fe' : Frontend Unit, fe'.Builds literalAt ctx words →
      ((if isDigit (byteAt token.data 0) ∨ byteAt token.data 0 = 0x2d ∨ byteAt token.data 0 = 0x2b
        then emitNumber literalAt token fe'
        else FrontStep.failAt .unknownWord token.data fe') :
          Option Unit × Frontend Unit).2.Builds literalAt ctx words := by
    intro fe' hfe'
    split
    · exact emitNumber_builds token hfe'
    · exact hfe'.of_kept rfl
  rw [compileFallback]
  split
  · cases hfound : findVar fe.func token.bytes with
    | none => exact hnumber fe h
    | some idx =>
        have hvar := emitVar_builds idx h
        rcases hrun : emitVar idx fe with ⟨_ | _, fe'⟩
        · rw [hrun] at hvar
          simp only [Option.map_some, hrun]
          exact hnumber fe' hvar
        · rw [hrun] at hvar
          simp only [Option.map_some, hrun]
          exact hvar
  · exact h.of_kept rfl

theorem engageKind_builds {w : Word} (hw : w ∈ words) (h : fe.Builds literalAt ctx words) :
    (engageKind noMacros w.kind fe).2.Builds literalAt ctx words := by
  have horigin : ∀ op ∈ w.kind.ops, ∀ owned, Origin words owned op :=
    fun op hop _ => .word hw hop
  cases hkind : w.kind with
  | op op => exact emitOp_builds h (horigin op (by simp [hkind, WordKind.ops]) _)
  | func idx => exact emitOp_builds h (horigin _ (by simp [hkind, WordKind.ops]) _)
  | native global =>
      have hpush := emitOp_builds h
        (horigin ⟨.pushGlobal, global⟩ (by simp [hkind, WordKind.ops]) fe.ownedGlobals)
      rcases hrun : emitOp ⟨.pushGlobal, global⟩ fe with ⟨_ | _, fe₁⟩
      · rw [engageKind, bind_none hrun]
        rwa [hrun] at hpush
      · rw [engageKind, bind_some hrun]
        rw [hrun] at hpush
        exact emitOp_builds hpush (horigin _ (by simp [hkind, WordKind.ops]) _)
  | immediate word => exact h.step (immediate_kept word)

theorem engageToken_builds (h : fe.Builds literalAt ctx words) :
    (engageToken noMacros literalAt fe).2.Builds literalAt ctx words := by
  simp only [engageToken]
  split
  · exact h.step (handleDelimiter_kept _)
  · split
    · rename_i word hfind
      rw [engageWord]
      split
      · refine engageKind_builds ?_ h
        rw [← h.known]
        exact List.mem_of_find?_eq_some hfind
      · exact h.of_kept rfl
    · exact compileFallback_builds _ h

theorem interpret_builds {fuel : Nat} {ok : Bool} (h : fe.Builds literalAt ctx words)
    (hrun : interpret noMacros literalAt fuel fe = some (ok, fe')) : fe'.Builds literalAt ctx words := by
  induction fuel generalizing fe with
  | zero => cases hrun
  | succ fuel ih =>
      have hnext := h.step (x := nextToken) nextToken_kept
      rw [interpret] at hrun
      rcases htoken : nextToken fe with ⟨_ | token, fe₁⟩
      · rw [htoken] at hrun hnext
        cases hrun
        exact hnext
      · rw [htoken] at hrun hnext
        have hcurrent : ({ fe₁ with currentToken := token } : Frontend Unit).Builds literalAt ctx words :=
          hnext.of_kept rfl
        have hengage := engageToken_builds hcurrent
        simp only at hrun
        rcases hstep : engageToken noMacros literalAt { fe₁ with currentToken := token } with ⟨_ | _, fe₂⟩
        · rw [hstep] at hrun hengage
          cases hrun
          exact hengage
        · rw [hstep] at hrun hengage
          exact ih hengage hrun

theorem conclude_builds (ok : Bool) (h : fe.Builds literalAt ctx words) :
    (fe.conclude ok).2.Builds literalAt ctx words := by
  cases ok with
  | false =>
      simp only [Frontend.conclude, if_true]
      split
      · exact h.of_kept rfl
      · exact h.of_kept rfl
  | true =>
      have hfinish : (finishImplicitEpilogues { fe with interpreterVm := {} }).Builds literalAt ctx words :=
        (h.of_kept rfl : ({ fe with interpreterVm := {} } : Frontend Unit).Builds literalAt ctx words).of_kept
          (finishImplicitFrom_kept _ _)
      simp only [Frontend.conclude, reduceCtorEq, if_false]
      split
      · exact hfinish
      · exact hfinish.of_kept rfl

/-- What a call leaves, whether it fails or not -/
theorem compileSource_builds {fuel : Nat} {source : Text} {ok : Bool} (h : fe.Builds literalAt ctx words)
    (hrun : compileSource noMacros literalAt fuel source fe = some (ok, fe')) :
    fe'.Builds literalAt ctx words := by
  have hprepare := h.step (x := prepareFunc) prepareFunc_kept
  rw [compileSource] at hrun
  rcases hstart : prepareFunc fe with ⟨_ | _, fe₁⟩
  · rw [hstart] at hrun hprepare
    cases hrun
    exact hprepare
  · rw [hstart] at hrun hprepare
    obtain ⟨⟨ok', fe₂⟩, hinterpret, hconclude⟩ := Option.map_eq_some_iff.mp hrun
    have hbegin : (fe₁.begin source).Builds literalAt ctx words := hprepare.of_kept rfl
    have hinner := interpret_builds hbegin hinterpret
    have hend := conclude_builds ok' hinner
    rw [show fe₂.conclude ok' = (ok, fe') from hconclude] at hend
    exact hend

end Steps

end TreeVM
