import TreeVM.Frontend.Words
import TreeVM.Compile.Compiler
import TreeVM.IR.RemoveDefers
import TreeVM.Logic.Counted
import TreeVM.Verify.Checker
import Mathlib.Data.Nat.Digits.Defs
import Mathlib.Logic.Relation

/-!
# Counters of variables and functions

`var_idx` and `func_idx` have 16 bits, and four loops count with them.

* `initVars`, `stateEqualAt`, `scanFuncAt`, `addFunctionWord`: the bodies of these loops;
* `defineNamed`: `define_named` of `repl.c`;
* `VarStep`, `FuncStep`: how the tables grow, as far as the checks let them;
* `counters_end_iff`: the loops end, unless a table is full.
-/

namespace TreeVM

open Counted

/-! ## The loops -/

/-- `c.vars[i].tid = func->vars.data[i].tid` in `vm_compile_no_defers`; this loop is never left. -/
def initVars (vars : List Nat) (i : Nat) (layouts : List VarLayout) :
    Except Empty (List VarLayout) :=
  .ok (layouts.modify i fun v => { v with tid := vars.getD i 0 })

/-- A round of the last loop of `state_equal`; it is left with `false`. -/
def stateEqualAt (vars saved : List VarLayout) (i : Nat) (_ : Unit) : Except Unit Unit :=
  match vars[i]?, saved[i]? with
  | some v, some v' =>
      if v.tid ≠ v'.tid then .error ()
      else if v.base ≠ v'.base then .error ()
      else if v.live ≠ v'.live then .error ()
      else .ok ()
  | _, _ => .error ()

/-- A round of `scan_funcs`; it is left when the scan of a function fails. -/
def scanFuncAt (ctx : Context) (handler : ScanOp) (fuel i : Nat) (c : Checker) :
    Except Fault Checker :=
  match ctx.funcs[i]? with
  | some func => scanFunc ctx handler fuel i func c
  | none => .ok c

/-- A round of `add_function_words`; memory suffices, and the loop is never left. -/
def addFunctionWord (names : List Name) (i : Nat) (words : List Word) : Except Empty (List Word) :=
  .ok (words ++ [⟨names.getD i [], .func (UInt16.ofNat i)⟩])

/-! ## What the loops do -/

/-- The record of variable `k` when the counter is at `i` -/
def layoutAt (vars : List Nat) (i k : Nat) : Option VarLayout :=
  (vars[k]?).map fun tid => { tid := if k < i then tid else 0 }

/-- The records that `compileBody` starts with -/
theorem initVars_visit (vars : List Nat) :
    visit (initVars vars) vars.length 0 (List.replicate vars.length { tid := 0 }) =
      .ok (vars.map fun tid => { tid := tid }) := by
  have hstart : ∀ k, (List.replicate vars.length ({ tid := 0 } : VarLayout))[k]? =
      layoutAt vars 0 k := by
    intro k
    rw [List.getElem?_replicate, layoutAt]
    split
    · rename_i hk
      rw [List.getElem?_eq_getElem hk]
      rfl
    · rename_i hk
      rw [List.getElem?_eq_none (Nat.le_of_not_lt hk)]
      rfl
  have hstep : ∀ (i : Nat) (layouts : List VarLayout), 0 ≤ i → i < 0 + vars.length →
      (∀ k, layouts[k]? = layoutAt vars i k) → ∃ layouts', initVars vars i layouts = .ok layouts' ∧
        ∀ k, layouts'[k]? = layoutAt vars (i + 1) k := by
    intro i layouts _ _ h
    refine ⟨_, rfl, fun k => ?_⟩
    rw [List.getElem?_modify, h k, layoutAt, layoutAt]
    cases hk : vars[k]? with
    | none => rfl
    | some tid =>
        by_cases hik : i = k
        · subst hik
          simp [hk]
        · have hlt : k < i + 1 ↔ k < i := by omega
          simp [hik, hlt]
  obtain ⟨layouts, hvisit, hend⟩ := visit_invariant hstart hstep
  rw [hvisit]
  refine congrArg Except.ok (List.ext_getElem? fun k => ?_)
  rw [hend, List.getElem?_map, layoutAt]
  cases hk : vars[k]? with
  | none => rfl
  | some tid => simp [(List.getElem?_eq_some_iff.mp hk).1]

theorem stateEqualAt_iff {vars saved : List VarLayout} {i : Nat} (hi : i < vars.length)
    (hlen : vars.length = saved.length) :
    (∃ e, stateEqualAt vars saved i () = .error e) ↔ vars[i]? ≠ saved[i]? := by
  have hi' := hlen ▸ hi
  rw [stateEqualAt, List.getElem?_eq_getElem hi, List.getElem?_eq_getElem hi']
  obtain ⟨tid, base, live⟩ := vars[i]
  obtain ⟨tid', base', live'⟩ := saved[i]
  by_cases htid : tid = tid' <;> by_cases hbase : base = base' <;> by_cases hlive : live = live' <;>
    simp [htid, hbase, hlive]

/-- The comparison of the variables in `compileBranch` and `compileLoop` -/
theorem stateEqualAt_visit {vars saved : List VarLayout} (hlen : vars.length = saved.length) :
    (∃ e, visit (stateEqualAt vars saved) vars.length 0 () = .error e) ↔ vars ≠ saved := by
  rw [visit_leaves_iff]
  constructor
  · rintro ⟨i, hi, hleaves⟩ rfl
    exact (stateEqualAt_iff (by omega) rfl).mp hleaves rfl
  · intro hne
    by_contra hnone
    refine hne (List.ext_getElem? fun i => ?_)
    by_cases hi : i < vars.length
    · by_contra hdiffer
      exact hnone ⟨i, by omega, (stateEqualAt_iff hi hlen).mpr hdiffer⟩
    · rw [List.getElem?_eq_none (by omega), List.getElem?_eq_none (by omega)]

/-- `scanFuncs` of the checker -/
theorem scanFuncAt_visit (ctx : Context) (handler : ScanOp) (fuel : Nat) (c : Checker) :
    scanFuncs ctx handler fuel c = (visit (scanFuncAt ctx handler fuel) ctx.funcs.length 0 c).map
      fun c => { c with pars := [] } := by
  have hfrom : ∀ (count i : Nat) (c : Checker), i + count = ctx.funcs.length →
      scanFuncsFrom ctx handler fuel i (ctx.funcs.drop i) c =
        (visit (scanFuncAt ctx handler fuel) count i c).map fun c => { c with pars := [] } := by
    intro count
    induction count with
    | zero =>
        intro i c hi
        rw [List.drop_eq_nil_of_le (by omega)]
        rfl
    | succ count ih =>
        intro i c hi
        have hlt : i < ctx.funcs.length := by omega
        rw [List.drop_eq_getElem_cons hlt, scanFuncsFrom, visit, scanFuncAt,
          List.getElem?_eq_getElem hlt]
        dsimp only
        cases scanFunc ctx handler fuel i ctx.funcs[i] c with
        | error e => rfl
        | ok c => exact ih (i + 1) c (by omega)
  exact hfrom ctx.funcs.length 0 c (Nat.zero_add _)

/-- The words of functions with these names -/
def functionWords (names : List Name) : List Word :=
  names.mapIdx fun i name => ⟨name, .func (UInt16.ofNat i)⟩

/-- The words of the first functions -/
theorem addFunctionWord_visit (names : List Name) (words : List Word) {count : Nat}
    (hcount : count ≤ names.length) :
    visit (addFunctionWord names) count 0 words = .ok (words ++ functionWords (names.take count)) := by
  have hstep : ∀ (i : Nat) (ws : List Word), 0 ≤ i → i < 0 + count →
      ws = words ++ functionWords (names.take i) →
      ∃ ws', addFunctionWord names i ws = .ok ws' ∧ ws' = words ++ functionWords (names.take (i + 1)) := by
    rintro i ws - hi rfl
    have hlt : i < names.length := by omega
    have hname : names.getD i [] = names[i] := by simp [hlt]
    refine ⟨_, rfl, ?_⟩
    rw [functionWords, functionWords, List.take_add_one, List.getElem?_eq_getElem hlt,
      Option.toList_some, List.mapIdx_concat, List.append_assoc, List.length_take,
      Nat.min_eq_left (Nat.le_of_lt hlt), hname]
  obtain ⟨ws, hvisit, rfl⟩ := visit_invariant (i := 0) (s := words) (by simp [functionWords]) hstep
  rw [hvisit, Nat.zero_add]

/-! ## How the tables grow -/

/-- Some call of `frontend_declare_var` takes one table of variables to the other. -/
def VarStep (M : Type) (vars vars' : List NamedVar) : Prop :=
  ∃ (fe : Frontend M) (tid : Nat) (name : Name), fe.func.vars = vars ∧
    (declareVar tid name fe).2.func.vars = vars'

/-- `repl_types` -/
def replTypes : List NamedType :=
  [⟨{ kind := .int, payloadSize := 8, size := 8, align := 8 }, some (utf8 "int")⟩,
    ⟨{ kind := .byte, payloadSize := 1, size := 1, align := 1 }, some (utf8 "byte")⟩,
    ⟨{ kind := .nativeFunc ⟨[⟨intId, false⟩], []⟩, payloadSize := 8, size := 8, align := 8 },
      some (utf8 "print_int")⟩]

def replDraft : Draft :=
  { sig := ⟨[], []⟩, types := replTypes, vars := [] }

/-- The function without its names -/
def Draft.toFunc (d : Draft) : Func :=
  ⟨d.sig, d.types.map NamedType.ty, d.blocks, d.ops, d.vars.map NamedVar.tid⟩

/-- `repl->ctx`; the functions have names. -/
structure ReplContext where
  names : List Name := []
  funcs : List Func := []
  globals : List Global
  table : Table := []
  deriving DecidableEq, Repr

/-- `build_frontend`; a loop over fewer than `2 ^ 16` names needs one round more than names. -/
def buildFrontend (ctx : Context) (names : List Name) (wordCount : Nat) : Option (Frontend Unit) :=
  let words := coreWords ++ [⟨utf8 "Print", .native 0⟩]
  match countLoop wordCount (addFunctionWord names) (1 + wordCount) (0 : BitVec 16) words with
  | some (.ok words) => some { ctx := some ctx, func := replDraft, macroVm := (), words := words }
  | _ => none

def Block.isDefer : Block → Bool
  | .defer _ _ => true
  | _ => false

/-- `lower_func_defers` -/
def lowerFuncDefers (fuel : Nat) (f : Func) : Option Func :=
  if f.blocks.any Block.isDefer then (removeDefers fuel f.blocks).map fun blocks => { f with blocks := blocks }
  else some f

/-- What `frontend_free` does to the globals of literals -/
def freeGlobals (globals : List Global) (owned : List (Nat × Int)) : List Global :=
  owned.foldl (fun globals x => globals.modify x.1 fun global => { global with mem := 0 }) globals

/-- `define_named`: is the function defined, and what becomes of the context?  The words of the REPL
run no macros.  No result stands for a run that has not ended. -/
def defineNamed (literalAt place : Nat → UInt64) (fuel : Nat) (name : Name) (source : Text)
    (c : ReplContext) : Option (Bool × ReplContext) :=
  if name ∈ c.names then some (false, c)
  else if maxOffset < c.funcs.length then some (false, c)
  else do
    let idx := c.funcs.length
    let fe ← buildFrontend ⟨c.funcs ++ [replDraft.toFunc], c.globals⟩ (c.names ++ [name]) idx
    let (built, fe) ← compileSource (fun _ fe => (none, fe)) literalAt fuel source fe
    let globals := (fe.ctx.map Context.globals).getD c.globals
    let freed := freeGlobals globals fe.ownedGlobals
    if built = false then return (false, { c with globals := freed })
    else
      let f ← lowerFuncDefers fuel fe.func.toFunc
      match compileFunc ⟨c.funcs ++ [f], globals⟩ place fuel f c.table with
      | .error table => return (false, { c with globals := freed, table := table })
      | .ok (_, table) => return (true, ⟨c.names ++ [name], c.funcs ++ [f], globals, table⟩)

/-- Some call of `define_named` takes one context to the other. -/
def FuncStep (c c' : ReplContext) : Prop :=
  ∃ literalAt place fuel name source ok, defineNamed literalAt place fuel name source c = some (ok, c')

/-! ## Full tables -/

section Growth

variable {M : Type} {vars vars' : List NamedVar} {c c' : ReplContext}

theorem VarStep.le (h : VarStep M vars vars') (hlen : vars.length ≤ 2 ^ 16) :
    vars'.length ≤ 2 ^ 16 := by
  obtain ⟨fe, tid, name, rfl, rfl⟩ := h
  rw [declareVar]
  split
  · exact hlen
  split
  · exact hlen
  split
  · exact hlen
  · rename_i hfull _
    simp only [maxOffset, List.length_append, List.length_singleton] at hfull ⊢
    omega

theorem varSteps_le {args : List NamedVar} (h : Relation.ReflTransGen (VarStep M) args vars)
    (hlen : args.length ≤ 2 ^ 16) : vars.length ≤ 2 ^ 16 := by
  induction h with
  | refl => exact hlen
  | tail _ hstep ih => exact hstep.le ih

/-- One name for each function, and never more than the check lets in -/
def ReplContext.Fits (c : ReplContext) : Prop :=
  c.names.length = c.funcs.length ∧ c.funcs.length ≤ 2 ^ 16

/-- A definition is refused, or its name and its function come behind the others. -/
theorem defineNamed_cases {literalAt place : Nat → UInt64} {fuel : Nat} {name : Name} {source : Text}
    {ok : Bool} (h : defineNamed literalAt place fuel name source c = some (ok, c')) :
    (ok = false ∧ c'.names = c.names ∧ c'.funcs = c.funcs) ∨
    (ok = true ∧ name ∉ c.names ∧ c.funcs.length ≤ maxOffset ∧
      c'.names = c.names ++ [name] ∧ ∃ f, c'.funcs = c.funcs ++ [f]) := by
  rw [defineNamed] at h
  split at h
  · cases h
    exact .inl ⟨rfl, rfl, rfl⟩
  rename_i hfresh
  split at h
  · cases h
    exact .inl ⟨rfl, rfl, rfl⟩
  rename_i hfull
  obtain ⟨fe, -, h⟩ := Option.bind_eq_some_iff.mp h
  obtain ⟨⟨built, fe'⟩, -, h⟩ := Option.bind_eq_some_iff.mp h
  dsimp only at h
  split at h
  · cases h
    exact .inl ⟨rfl, rfl, rfl⟩
  obtain ⟨f, -, h⟩ := Option.bind_eq_some_iff.mp h
  split at h
  · cases h
    exact .inl ⟨rfl, rfl, rfl⟩
  · cases h
    exact .inr ⟨rfl, hfresh, Nat.le_of_not_lt hfull, rfl, f, rfl⟩

theorem FuncStep.fits (h : FuncStep c c') (hfits : c.Fits) : c'.Fits := by
  obtain ⟨literalAt, place, fuel, name, source, ok, hdefine⟩ := h
  obtain ⟨hnames, hlen⟩ := hfits
  obtain ⟨-, hnames', hfuncs'⟩ | ⟨-, -, hroom, hnames', f, hfuncs'⟩ := defineNamed_cases hdefine
  · rw [ReplContext.Fits, hnames', hfuncs']
    exact ⟨hnames, hlen⟩
  · rw [ReplContext.Fits, hnames', hfuncs', List.length_append, List.length_append, hnames]
    exact ⟨rfl, Nat.succ_le_succ hroom⟩

theorem funcSteps_fit {globals : List Global}
    (h : Relation.ReflTransGen FuncStep { globals := globals } c) : c.Fits := by
  induction h with
  | refl => exact ⟨rfl, Nat.zero_le _⟩
  | tail _ hstep ih => exact hstep.fits ih

end Growth

/-- A name of letters for each number -/
def letters (n : Nat) : Name :=
  (Nat.digits 26 n).map fun d => UInt8.ofNat (0x61 + d)

theorem digits_of_letters (n : Nat) :
    (letters n).map (fun b => b.toNat - 0x61) = Nat.digits 26 n := by
  rw [letters, List.map_map]
  refine (List.map_congr_left fun d hd => ?_).trans (List.map_id _)
  have hlt : d < 26 := Nat.digits_lt_base (by decide) hd
  have htoNat : (UInt8.ofNat (0x61 + d)).toNat = 0x61 + d :=
    UInt8.toNat_ofNat_of_lt' (by change 0x61 + d < 2 ^ 8; omega)
  rw [Function.comp_apply, htoNat, Nat.add_sub_cancel_left]
  rfl

theorem letters_injective {n m : Nat} (h : letters n = letters m) : n = m := by
  rw [← Nat.digits_inj_iff (b := 26), ← digits_of_letters n, h, digits_of_letters]

theorem declareVar_appends {M : Type} {fe : Frontend M} {tid : Nat} {name : Name}
    (htid : tid < fe.func.types.length) (hroom : fe.func.vars.length ≤ maxOffset)
    (hfresh : ∀ var ∈ fe.func.vars, var.name ≠ some name) :
    (declareVar tid name fe).2.func.vars = fe.func.vars ++ [⟨tid, some name⟩] := by
  have hnone : fe.func.vars.any (fun var => var.name = some name) = false := by
    rw [List.any_eq_false]
    exact fun var hvar hname => hfresh var hvar (of_decide_eq_true hname)
  rw [declareVar, if_neg (Nat.not_le.mpr htid), if_neg (Nat.not_lt.mpr hroom),
    if_neg (by rw [hnone]; decide)]

/-- Any number of variables with different names is declared, as long as the check lets them in. -/
theorem vars_reached {n : Nat} (hn : n ≤ 2 ^ 16) : Relation.ReflTransGen (VarStep Unit) []
    ((List.range n).map fun i => ⟨intId, some (letters i)⟩) := by
  induction n with
  | zero => exact .refl
  | succ n ih =>
      refine (ih (by omega)).tail ⟨{
        ctx := none, macroVm := ()
        func := { replDraft with vars := (List.range n).map fun i => ⟨intId, some (letters i)⟩ } },
        intId, letters n, rfl, ?_⟩
      rw [declareVar_appends (show 0 < 3 by decide), List.range_succ, List.map_append]
      · rfl
      · rw [List.length_map, List.length_range, maxOffset]
        omega
      · intro var hvar hname
        obtain ⟨i, hi, rfl⟩ := List.mem_map.mp hvar
        have hin : i < n := List.mem_range.mp hi
        have heq := letters_injective (Option.some.inj hname)
        omega

/-- The function of a form without words -/
def emptyFunc : Func :=
  { replDraft.toFunc with blocks := [.basic ⟨0, 0⟩] }

theorem buildFrontend_eq (ctx : Context) (names : List Name) {wordCount : Nat}
    (h : wordCount < 2 ^ 16) : ∃ words, buildFrontend ctx names wordCount =
      some { ctx := some ctx, func := replDraft, macroVm := (), words := words } := by
  rw [buildFrontend, countLoop_ends _ h]
  cases visit (addFunctionWord names) wordCount 0 (coreWords ++ [⟨utf8 "Print", .native 0⟩]) with
  | error e => cases e
  | ok words => exact ⟨words, rfl⟩

theorem defineNamed_empty {c : ReplContext} {name : Name} (hfresh : name ∉ c.names)
    (hroom : c.funcs.length ≤ maxOffset) :
    defineNamed (fun _ => 0) (fun _ => 0) 2 name [] c =
      some (true, ⟨c.names ++ [name], c.funcs ++ [emptyFunc], c.globals, c.table⟩) := by
  obtain ⟨words, hbuild⟩ := buildFrontend_eq ⟨c.funcs ++ [replDraft.toFunc], c.globals⟩
    (c.names ++ [name]) (Nat.lt_succ_of_le hroom)
  rw [defineNamed, if_neg hfresh, if_neg (Nat.not_lt.mpr hroom)]
  dsimp only
  rw [hbuild]
  rfl

/-- Any number of functions with different names is defined, as long as the check lets them in. -/
theorem funcs_reached {n : Nat} (globals : List Global) (hn : n ≤ 2 ^ 16) :
    Relation.ReflTransGen FuncStep { globals := globals }
      { names := (List.range n).map letters
        funcs := List.replicate n emptyFunc
        globals := globals } := by
  induction n with
  | zero => exact .refl
  | succ n ih =>
      refine (ih (by omega)).tail ⟨fun _ => 0, fun _ => 0, 2, letters n, [], true, ?_⟩
      rw [defineNamed_empty, List.range_succ, List.map_append, List.replicate_succ']
      · rfl
      · intro hmem
        obtain ⟨i, hi, hname⟩ := List.mem_map.mp hmem
        have hin : i < n := List.mem_range.mp hi
        have heq := letters_injective hname
        omega
      · rw [List.length_replicate, maxOffset]
        omega

/-! ## The loops over reachable tables -/

theorem initVars_ends_iff {vars : List Nat} (hlen : vars.length ≤ 2 ^ 16) :
    EndsOnce 16 vars.length (initVars vars) (List.replicate vars.length { tid := 0 }) ↔
      vars.length < 2 ^ 16 := by
  rw [endsOnce_iff _ hlen]
  exact or_iff_left fun ⟨e, _⟩ => e.elim

theorem stateEqual_ends_iff {vars saved : List VarLayout} (hlen : vars.length ≤ 2 ^ 16)
    (hsame : vars.length = saved.length) :
    EndsOnce 16 vars.length (stateEqualAt vars saved) () ↔ vars.length < 2 ^ 16 ∨ vars ≠ saved := by
  rw [endsOnce_iff _ hlen, stateEqualAt_visit hsame]

theorem addFunctionWords_end_iff {names : List Name} {words : List Word}
    (hlen : names.length ≤ 2 ^ 16) :
    EndsOnce 16 names.length (addFunctionWord names) words ↔ names.length < 2 ^ 16 := by
  rw [endsOnce_iff _ hlen]
  exact or_iff_left fun ⟨e, _⟩ => e.elim

theorem scanFuncs_ends_iff {ctx : Context} {handler : ScanOp} {fuel : Nat} {c : Checker}
    (hlen : ctx.funcs.length ≤ 2 ^ 16) :
    EndsOnce 16 ctx.funcs.length (scanFuncAt ctx handler fuel) c ↔
      ctx.funcs.length < 2 ^ 16 ∨ ∃ e, scanFuncs ctx handler fuel c = .error e := by
  rw [endsOnce_iff _ hlen, scanFuncAt_visit]
  refine or_congr_right ?_
  cases visit (scanFuncAt ctx handler fuel) ctx.funcs.length 0 c with
  | error e => exact iff_of_true ⟨e, rfl⟩ ⟨e, rfl⟩
  | ok c => simp [Except.map]

/-- Over every table that the checks let grow, the loops end and visit each entry once, if and only if
the counter can pass the last entry or the loop is left before. -/
theorem counters_end_iff (M : Type) :
    (∀ args vars : List NamedVar, args.length ≤ 2 ^ 16 →
      Relation.ReflTransGen (VarStep M) args vars →
      (EndsOnce 16 vars.length (initVars (vars.map NamedVar.tid))
        (List.replicate vars.length { tid := 0 }) ↔ vars.length < 2 ^ 16) ∧
      ∀ layouts saved : List VarLayout, layouts.length = vars.length → saved.length = vars.length →
        (EndsOnce 16 vars.length (stateEqualAt layouts saved) () ↔
          vars.length < 2 ^ 16 ∨ layouts ≠ saved)) ∧
    ∀ (globals : List Global) (c : ReplContext),
      Relation.ReflTransGen FuncStep { globals := globals } c →
      (∀ words, EndsOnce 16 c.funcs.length (addFunctionWord c.names) words ↔
        c.funcs.length < 2 ^ 16) ∧
      ∀ handler fuel checker,
        (EndsOnce 16 c.funcs.length (scanFuncAt ⟨c.funcs, c.globals⟩ handler fuel) checker ↔
          c.funcs.length < 2 ^ 16 ∨ ∃ e, scanFuncs ⟨c.funcs, c.globals⟩ handler fuel checker = .error e) := by
  refine ⟨fun args vars hargs hsteps => ?_, fun globals c hsteps => ?_⟩
  · have hlen := varSteps_le hsteps hargs
    refine ⟨?_, fun layouts saved hlayouts hsaved => ?_⟩
    · have hmap : (vars.map NamedVar.tid).length = vars.length := List.length_map _
      rw [← hmap] at hlen ⊢
      exact initVars_ends_iff hlen
    · rw [← hlayouts] at hlen ⊢
      exact stateEqual_ends_iff hlen (hlayouts.trans hsaved.symm)
  · obtain ⟨hnames, hlen⟩ := funcSteps_fit hsteps
    refine ⟨fun words => ?_, fun handler fuel checker => ?_⟩
    · rw [← hnames] at hlen ⊢
      exact addFunctionWords_end_iff hlen
    · exact @scanFuncs_ends_iff ⟨c.funcs, c.globals⟩ handler fuel checker hlen

/-- The loop over a full table of variables is the one that does not end. -/
theorem counters_end_iff_tables :
    (∃ vars : List NamedVar, Relation.ReflTransGen (VarStep Unit) [] vars ∧ vars.length = 2 ^ 16 - 1 ∧
      EndsOnce 16 vars.length (initVars (vars.map NamedVar.tid)) (List.replicate vars.length { tid := 0 })) ∧
    (∃ vars : List NamedVar, Relation.ReflTransGen (VarStep Unit) [] vars ∧ vars.length = 2 ^ 16 ∧
      ¬ EndsOnce 16 vars.length (initVars (vars.map NamedVar.tid))
        (List.replicate vars.length { tid := 0 })) ∧
    ∃ c : ReplContext, Relation.ReflTransGen FuncStep { globals := [] } c ∧ c.funcs.length = 5 ∧
      ∀ words, EndsOnce 16 c.funcs.length (addFunctionWord c.names) words := by
  obtain ⟨hvars, hfuncs⟩ := counters_end_iff Unit
  have hlen : ∀ n, ((List.range n).map fun i => (⟨intId, some (letters i)⟩ : NamedVar)).length = n := by
    intro n
    rw [List.length_map, List.length_range]
  refine ⟨?_, ?_, ?_⟩
  · have hsteps := vars_reached (Nat.sub_le (2 ^ 16) 1)
    exact ⟨_, hsteps, hlen _, (hvars _ _ (Nat.zero_le _) hsteps).1.mpr (by rw [hlen]; decide)⟩
  · have hsteps := vars_reached (Nat.le_refl (2 ^ 16))
    refine ⟨_, hsteps, hlen _, fun hends => ?_⟩
    have hlt := (hvars _ _ (Nat.zero_le _) hsteps).1.mp hends
    rw [hlen] at hlt
    exact absurd hlt (Nat.lt_irrefl _)
  · have hsteps := funcs_reached [] (show 5 ≤ 2 ^ 16 by decide)
    exact ⟨_, hsteps, rfl, fun words => ((hfuncs _ _ hsteps).1 words).mpr (by decide)⟩

/-- The checks let in `2 ^ 16` variables and `2 ^ 16` functions, and the loops over them go on for
ever. -/
theorem fullTables_endless :
    (∃ vars : List NamedVar, Relation.ReflTransGen (VarStep Unit) [] vars ∧
      ∀ rounds, countLoop vars.length (initVars (vars.map NamedVar.tid)) rounds (0 : BitVec 16)
        (List.replicate vars.length { tid := 0 }) = none) ∧
    ∃ c : ReplContext, Relation.ReflTransGen FuncStep { globals := [] } c ∧
      ∀ rounds words,
        countLoop c.funcs.length (addFunctionWord c.names) rounds (0 : BitVec 16) words = none := by
  have hendless : ∀ {σ : Type} {body : Nat → σ → Except Empty σ} {len rounds : Nat} {s : σ},
      2 ^ 16 ≤ len → countLoop len body rounds (0 : BitVec 16) s = none := by
    intro σ body len rounds s hlen
    cases hrun : countLoop len body rounds (0 : BitVec 16) s with
    | none => rfl
    | some x =>
        cases x with
        | error e => exact e.elim
        | ok s' => exact absurd hrun (countLoop_never hlen rounds 0 s s')
  refine ⟨⟨_, vars_reached (Nat.le_refl (2 ^ 16)), fun rounds => hendless ?_⟩,
    ⟨_, funcs_reached [] (Nat.le_refl (2 ^ 16)), fun rounds words => hendless ?_⟩⟩
  · rw [List.length_map, List.length_range]
  · rw [List.length_replicate]

end TreeVM
