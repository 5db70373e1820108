import TreeVM.IR.SameType
import TreeVM.Verify.OpTypes
import TreeVM.Verify.Passes

/-!
# Type indices across functions

Functions have their own type tables, and calls and globals hand over type indices.

* `Handed`: an index that an accepted operation reads in one table and hands to another one;
* `Fits`: the value that is handed over has the type, and the size, that is expected;
* `handed_fits_iff`: it does if and only if the tables describe the same type at that index.
-/

namespace TreeVM

/-- The type at `want` of the second table describes the value of type `got` of the first. -/
structure Fits (types types' : List Ty) (got want : Nat) : Prop where
  same : SameType types types' got want
  size : ∀ t t', types[got]? = some t → types'[want]? = some t' → t'.payloadSize = t.payloadSize

/-- `gots` are read in the table `types`, and the other side reads `wants` in `types'`: arguments of
a call that the compiler or the first pass accepts, or a global that two functions push. -/
inductive Handed (ctx : Context) : List Ty → List Ty → List Nat → List Nat → Prop
  | compiled {env : CompileEnv} {c c' : Compiler} {op : Op} {callee : Func} {types' : List Ty} :
      env.ctx = ctx → layoutAll env.func.types = some env.types →
      op.kind = .call → ctx.funcs[op.extra.toNat]? = some callee →
      layoutAll callee.types = some types' → compileOp env c op = .ok c' →
      Handed ctx env.types types' (Compiler.argTypes c.params callee.sig.argc) callee.sig.args
  | checked {func callee : Func} {types types' : List Ty} {state : ScanState} {op : Op}
      {loc : CodeLoc} {c c' : Checker} :
      layoutAll func.types = some types →
      op.kind = .call → ctx.funcs[op.extra.toNat]? = some callee →
      layoutAll callee.types = some types' → firstPassOp ctx func state op loc c = .ok c' →
      Handed ctx types types' ((c.args 0 callee.sig.argc).map (parType ctx func c)) callee.sig.args
  | global {env env' : CompileEnv} {c c' d d' : Compiler} {op : Op} :
      env.ctx = ctx → layoutAll env.func.types = some env.types →
      env'.ctx = ctx → layoutAll env'.func.types = some env'.types →
      op.kind = .pushGlobal → compileOp env c op = .ok c' → compileOp env' d op = .ok d' →
      Handed ctx env.types env'.types (c'.params.take 1) (d'.params.take 1)

section Handed

variable {ctx : Context} {types types' : List Ty} {gots wants : List Nat}

theorem compileFuncCall_args {env : CompileEnv} {c c' : Compiler} {idx : Nat} {callee : Func}
    (hcallee : env.ctx.funcs[idx]? = some callee) (h : compileFuncCall env c idx = .ok c') :
    Compiler.argTypes c.params callee.sig.argc = callee.sig.args := by
  obtain ⟨table, -, h⟩ := bind_eq_ok.mp h
  simp only [hcallee] at h
  split at h
  · cases h
  · split at h
    · cases h
    · rename_i _ hargs
      exact not_not.mp hargs

theorem compilePushGlobal_params {env : CompileEnv} {c c' : Compiler} {idx : Nat}
    (h : compilePushGlobal env c idx = .ok c') :
    ∃ g, env.ctx.globals[idx]? = some g ∧ c'.params = g.tid :: c.params := by
  rw [compilePushGlobal] at h
  split at h
  · rename_i g hg
    split at h
    · cases h
      exact ⟨g, hg, rfl⟩
    · cases h
  · cases h

/-- The indices are compared as they are. -/
theorem Handed.eq (h : Handed ctx types types' gots wants) : gots = wants := by
  cases h with
  | compiled henv _ hop hcallee _ hok =>
      rw [compileOp, hop] at hok
      exact compileFuncCall_args (henv ▸ hcallee) hok
  | @checked func callee _ _ _ op loc c _ _ hop hcallee _ hok =>
      obtain ⟨_, hcheck, -⟩ := bind_eq_ok.mp hok
      have htypes := typeCheckOp_ok.mp hcheck
      rw [TypesOk, hop] at htypes
      obtain ⟨callee', hcallee', -, hargs, -⟩ := htypes
      rw [hcallee] at hcallee'
      cases hcallee'
      rw [args_map]
      exact hargs
  | global henv _ henv' _ hop hok hok' =>
      rw [compileOp, hop] at hok hok'
      obtain ⟨g, hg, hparams⟩ := compilePushGlobal_params hok
      obtain ⟨g', hg', hparams'⟩ := compilePushGlobal_params hok'
      rw [henv] at hg
      rw [henv', hg] at hg'
      cases hg'
      rw [hparams, hparams']
      rfl

theorem Handed.laid (h : Handed ctx types types' gots wants) :
    (∃ rank, Laid types rank) ∧ ∃ rank, Laid types' rank := by
  cases h with
  | compiled _ hlaid _ _ hlaid' _ => exact ⟨(laid_of_layoutAll hlaid).1, (laid_of_layoutAll hlaid').1⟩
  | checked hlaid _ _ hlaid' _ => exact ⟨(laid_of_layoutAll hlaid).1, (laid_of_layoutAll hlaid').1⟩
  | global _ hlaid _ hlaid' _ _ _ =>
      exact ⟨(laid_of_layoutAll hlaid).1, (laid_of_layoutAll hlaid').1⟩

theorem handed_fits_iff (h : Handed ctx types types' gots wants) :
    List.Forall₂ (Fits types types') gots wants ↔
      ∀ tid ∈ wants, SameType types types' tid tid := by
  obtain ⟨⟨rank, hlaid⟩, rank', hlaid'⟩ := h.laid
  rw [h.eq, List.forall₂_same]
  constructor
  · exact fun hfits tid htid => (hfits tid htid).same
  · exact fun hsame tid htid => ⟨hsame tid htid, fun t t' ht ht' =>
      ((hsame tid htid).layout hlaid hlaid' ht ht').payloadSize⟩

end Handed

/-! ## Two functions with an array at index 2 -/

section Arrays

/-- A function with these types whose only argument has type 2. -/
def arrayCallee (types : List Ty) : Func where
  sig := ⟨[], [2]⟩
  types := types
  blocks := [.basic ⟨0, 0⟩]
  ops := []
  vars := [2]

/-- A function with these types that calls function 0 with a local of type 2. -/
def arrayCaller (types : List Ty) : Func where
  sig := ⟨[], []⟩
  types := types
  blocks := [.var 0 1, .basic ⟨0, 2⟩]
  ops := [⟨.pushVar, 0⟩, ⟨.call, 0⟩]
  vars := [2]

def arrayCall (types types' : List Ty) : Context where
  funcs := [arrayCallee types', arrayCaller types]
  globals := []

/-- The table with an array of integers at index 2. -/
def arrayTypes (capacity : UInt32) : List Ty :=
  [{ kind := .int }, { kind := .byte }, { kind := .array intId capacity 0 }]

/-- The tables with an array of views, where the view stands before or after a slice. -/
def viewTypes (view : Nat) : List Ty :=
  [{ kind := .int }, { kind := .byte }, { kind := .array view 4 0 }] ++
    if view = 3 then [{ kind := .view intId }, { kind := .slice intId }]
    else [{ kind := .slice intId }, { kind := .view intId }]

/-- While `arrayCaller` is compiled. -/
def arrayEnv (types laid types' : List Ty) : CompileEnv where
  func := arrayCaller types
  types := laid
  ctx := arrayCall types types'
  place := fun _ => 8192
  callee := fun _ table => .ok table

/-- The argument of `arrayCaller` is handed over at index 2. -/
theorem arrayCall_handed {types laid types' laid' : List Ty} (h : layoutAll types = some laid)
    (h' : layoutAll types' = some laid') : Handed (arrayCall types types') laid laid' [2] [2] :=
  @Handed.compiled _ (arrayEnv types laid types') { params := [2], vars := [], table := [] } _
    ⟨.call, 0⟩ (arrayCallee types') laid' rfl h rfl rfl h' rfl

theorem exists_of_isSome {α : Type} {x : Option α} (h : x.isSome = true) : x = some (x.get h) :=
  (Option.some_get h).symm

/-- The callee expects 100 integers where the caller has room for 4. -/
theorem longerArray_overreads :
    (compileFunc (arrayCall (arrayTypes 4) (arrayTypes 100)) (fun _ => 8192) 20
      (arrayCaller (arrayTypes 4)) []).isOk = true ∧
    (firstPass (arrayCall (arrayTypes 4) (arrayTypes 100)) 20 {}).isOk = true ∧
    ∃ types types' gots wants,
      Handed (arrayCall (arrayTypes 4) (arrayTypes 100)) types types' gots wants ∧
      ¬ List.Forall₂ (Fits types types') gots wants := by
  refine ⟨by decide, by decide, _, _, [2], [2],
    arrayCall_handed (exists_of_isSome (by decide)) (exists_of_isSome (by decide)),
    fun h => ?_⟩
  rw [List.forall₂_cons] at h
  have hsize := h.1.size _ _ rfl rfl
  revert hsize
  decide

/-- The elements stand at different indices, and are the same views. -/
theorem handed_fits_iff_movedView :
    ∃ types types', layoutAll (viewTypes 3) = some types ∧ layoutAll (viewTypes 4) = some types' ∧
      types ≠ types' ∧ List.Forall₂ (Fits types types') [2] [2] := by
  refine ⟨_, _, exists_of_isSome (by decide), exists_of_isSome (by decide),
    by decide, (handed_fits_iff (arrayCall_handed
      (exists_of_isSome (by decide)) (exists_of_isSome (by decide)))).mpr ?_⟩
  intro tid htid
  rw [List.mem_singleton.mp htid]
  refine ⟨fun i j => (i = 2 ∧ j = 2) ∨ (i = 3 ∧ j = 4) ∨ (i = 0 ∧ j = 0), .inl ⟨rfl, rfl⟩, ?_⟩
  rintro i j (⟨rfl, rfl⟩ | ⟨rfl, rfl⟩ | ⟨rfl, rfl⟩)
  · exact ⟨_, _, rfl, rfl, .array (.inr (.inl ⟨rfl, rfl⟩))⟩
  · exact ⟨_, _, rfl, rfl, .view (.inr (.inr ⟨rfl, rfl⟩))⟩
  · exact ⟨_, _, rfl, rfl, .int⟩

end Arrays

end TreeVM
