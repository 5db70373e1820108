import TreeVM.Logic.Results
import TreeVM.Verify.Checker

/-!
# What the type checker accepts

* `ArgsOk`, `TypesOk`: what `type_check_op` asks of the types of the stack;
* `typeCheckOp_ok`: the operations that `type_check_op` accepts.
-/

namespace TreeVM

section Types

variable (ctx : Context) (func : Func)

/-- The types of the arguments are those of the signature, and valid. -/
def ArgsOk (sig : Sig) (tids : List Nat) : Prop :=
  sig.argc ≤ tids.length ∧ (tids.take sig.argc).reverse = sig.args ∧
    ∀ tid ∈ sig.args, tid < func.types.length

/-- `type_check_op` on the types of the stack, the topmost first -/
def TypesOk (op : Op) (tids : List Nat) : Prop :=
  match op.kind with
  | .null => True
  | .drop => True
  | .pushVar => ∃ tid, func.vars[op.extra.toNat]? = some tid ∧ tid < func.types.length
  | .pushArg => ∃ tid, func.vars[op.extra.toNat]? = some tid ∧ tid < func.types.length
  | .pushGlobal => ∃ g, ctx.globals[op.extra.toNat]? = some g ∧ g.tid < func.types.length
  | .assign => ∃ tid rest, tids = tid :: tid :: rest ∧ tid < func.types.length
  | .bitNotAssign => ∃ rest, tids = intId :: rest ∧ intId < func.types.length
  | .arrPush => ∃ elem arr rest capacity offset, tids = elem :: arr :: rest ∧
      kindAt func arr = some (.array elem capacity offset)
  | .arrDrop => ∃ arr rest elem capacity offset, tids = intId :: arr :: rest ∧
      intId < func.types.length ∧ kindAt func arr = some (.array elem capacity offset)
  | .sliceFromAr => ∃ arr ref rest elem capacity offset, tids = arr :: ref :: rest ∧
      (kindAt func ref).bind refElem = some elem ∧
      kindAt func arr = some (.array elem capacity offset)
  | .sliceFromOne => ∃ elem ref rest, tids = elem :: ref :: rest ∧
      kindAt func ref = some (.slice elem)
  | .sliceInc => ∃ ref rest elem, tids = intId :: ref :: rest ∧ intId < func.types.length ∧
      kindAt func ref = some (.slice elem)
  | .sliceDec => ∃ ref rest elem, tids = intId :: ref :: rest ∧ intId < func.types.length ∧
      kindAt func ref = some (.slice elem)
  | .arrAt => ∃ arr rest elem capacity offset, tids = intId :: arr :: rest ∧
      intId < func.types.length ∧ kindAt func arr = some (.array elem capacity offset)
  | .sliceAt => ∃ ref rest elem, tids = intId :: ref :: rest ∧ intId < func.types.length ∧
      (kindAt func ref).bind refElem = some elem
  | .structAt => ∃ tid rest fields, tids = tid :: rest ∧ kindAt func tid = some (.struct fields) ∧
      op.extra.toNat < fields.length
  | .call => ∃ callee, ctx.funcs[op.extra.toNat]? = some callee ∧ ArgsOk func callee.sig tids
  | .callNativeOnStack => ∃ fn rest sig, tids = fn :: rest ∧
      kindAt func fn = some (.nativeFunc sig) ∧ ArgsOk func sig rest
  | _ => ∃ rest, tids = intId :: intId :: rest ∧ intId < func.types.length

variable {ctx func} {op : Op} {loc : CodeLoc} {c : Checker}

theorem kindAt_lt {tid : Nat} {kind : TypeKind} (h : kindAt func tid = some kind) :
    tid < func.types.length := by
  obtain ⟨t, ht, -⟩ := Option.map_eq_some_iff.mp h
  exact (List.getElem?_eq_some_iff.mp ht).1

theorem parIsInt_iff {idx : Nat} : parIsInt ctx func c idx = true ↔
    parType ctx func c idx = intId ∧ intId < func.types.length := by
  rw [parIsInt, Bool.and_eq_true, decide_eq_true_eq, beq_iff_eq]
  constructor
  · rintro ⟨hlt, heq⟩
    exact ⟨heq, heq ▸ hlt⟩
  · rintro ⟨heq, hlt⟩
    exact ⟨heq ▸ hlt, heq⟩

theorem typeCheckSig_ok {pars wants : List Nat} (hlen : pars.length = wants.length) :
    typeCheckSig ctx func op loc c pars wants = .ok () ↔
      pars.map (parType ctx func c) = wants ∧ ∀ tid ∈ wants, tid < func.types.length := by
  induction pars generalizing wants with
  | nil =>
      cases wants with
      | nil => simp [typeCheckSig]
      | cons want wants => cases hlen
  | cons par pars ih =>
      cases wants with
      | nil => cases hlen
      | cons want wants =>
          have hlen := Nat.succ.inj hlen
          rw [typeCheckSig, List.map_cons, List.cons.injEq, List.forall_mem_cons]
          by_cases hvalid : func.types.length ≤ want
          · simp only [hvalid, if_true, reportTypeError, reduceCtorEq, false_iff]
            omega
          · by_cases hgot : parType ctx func c par = want
            · simp only [hvalid, if_false, hgot, ne_eq, not_true_eq_false, true_and, ih hlen]
              constructor
              · rintro ⟨hpars, hwants⟩
                exact ⟨hpars, by omega, hwants⟩
              · rintro ⟨hpars, -, hwants⟩
                exact ⟨hpars, hwants⟩
            · simp [hvalid, hgot, reportTypeError]

theorem args_map (c : Checker) (f : Nat → Nat) (skip n : Nat) :
    (c.args skip n).map f = (((c.pars.map f).drop skip).take n).reverse := by
  rw [Checker.args, List.map_reverse, List.map_take, List.map_drop]

theorem length_args {skip n : Nat} (h : skip + n ≤ c.pars.length) : (c.args skip n).length = n := by
  rw [Checker.args, List.length_reverse, List.length_take, List.length_drop]
  omega

theorem Sig.length_args (sig : Sig) : sig.args.length = sig.argc := by
  rw [Sig.args, Sig.argc, List.length_append, List.length_map]

section Reports

variable {α : Type} {kind : TypeCheckErrorKind} {x : α}

@[simp] theorem reportTypeError_eq {par : Option Nat} {expected actual : Nat} :
    (reportTypeError op loc kind par expected actual : Except Fault α) ≠ .ok x :=
  nofun

@[simp] theorem reportIndexError_eq {idx len : Nat} :
    (reportIndexError op loc kind idx len : Except Fault α) ≠ .ok x :=
  nofun

@[simp] theorem reportStackUnderflow_eq {needed : Nat} :
    (reportStackUnderflow op loc c needed : Except Fault α) ≠ .ok x :=
  nofun

end Reports

theorem checkAssign_ok : checkAssign ctx func op loc c = .ok () ↔
    ∃ tid rest, c.pars.map (parType ctx func c) = tid :: tid :: rest ∧ tid < func.types.length ∧
      (op.kind ≠ .assign → tid = intId) := by
  rw [checkAssign]
  match hpars : c.pars with
  | [] => simp
  | [_] => simp
  | src :: dst :: rest =>
      simp only [ite_error_ok, reportTypeError]
      grind

theorem checkArith_ok (hop : op.kind ≠ .assign) : checkAssign ctx func op loc c = .ok () ↔
    ∃ rest, c.pars.map (parType ctx func c) = intId :: intId :: rest ∧
      intId < func.types.length := by
  rw [checkAssign_ok]
  constructor
  · rintro ⟨tid, rest, hmap, hlt, hint⟩
    rw [hint hop] at hmap hlt
    exact ⟨rest, hmap, hlt⟩
  · rintro ⟨rest, hmap, hlt⟩
    exact ⟨intId, rest, hmap, hlt, fun _ => rfl⟩

theorem checkBitNot_ok : checkBitNot ctx func op loc c = .ok () ↔
    ∃ rest, c.pars.map (parType ctx func c) = intId :: rest ∧ intId < func.types.length := by
  rw [checkBitNot]
  match hpars : c.pars with
  | [] => simp
  | par :: rest =>
      simp only [reportTypeError, List.map_cons, List.cons.injEq]
      split
      · grind [parIsInt_iff]
      · grind [parIsInt_iff]

theorem checkArrPush_ok : checkArrPush ctx func op loc c = .ok () ↔
    ∃ elem arr rest capacity offset, c.pars.map (parType ctx func c) = elem :: arr :: rest ∧
      kindAt func arr = some (.array elem capacity offset) := by
  rw [checkArrPush]
  match hpars : c.pars with
  | [] => simp
  | [_] => simp
  | elem :: arr :: rest =>
      simp only [reportTypeError, List.map_cons, List.cons.injEq]
      split
      · grind
      · grind

theorem checkArrDrop_ok : checkArrDrop ctx func op loc c = .ok () ↔
    ∃ arr rest elem capacity offset, c.pars.map (parType ctx func c) = intId :: arr :: rest ∧
      intId < func.types.length ∧ kindAt func arr = some (.array elem capacity offset) := by
  rw [checkArrDrop]
  match hpars : c.pars with
  | [] => simp
  | [_] => simp
  | n :: arr :: rest =>
      simp only [reportTypeError, List.map_cons, List.cons.injEq]
      split
      · split
        · grind [parIsInt_iff]
        · grind
      · grind [parIsInt_iff]

theorem checkSliceFromAr_ok : checkSliceFromAr ctx func op loc c = .ok () ↔
    ∃ arr ref rest elem capacity offset,
      c.pars.map (parType ctx func c) = arr :: ref :: rest ∧
      (kindAt func ref).bind refElem = some elem ∧
      kindAt func arr = some (.array elem capacity offset) := by
  rw [checkSliceFromAr]
  match hpars : c.pars with
  | [] => simp
  | [_] => simp
  | arr :: ref :: rest =>
      have hlt := @kindAt_lt func
      simp only [ite_error_ok, reportTypeError, List.map_cons]
      constructor
      · grind
      · rintro ⟨arrTid, refTid, rest, elem, capacity, offset, hmap, href, harr⟩
        obtain ⟨kind, hkind, -⟩ := Option.bind_eq_some_iff.mp href
        have := hlt hkind
        have := hlt harr
        grind

theorem checkSliceFromOne_ok : checkSliceFromOne ctx func op loc c = .ok () ↔
    ∃ elem ref rest, c.pars.map (parType ctx func c) = elem :: ref :: rest ∧
      kindAt func ref = some (.slice elem) := by
  rw [checkSliceFromOne]
  match hpars : c.pars with
  | [] => simp
  | [_] => simp
  | elem :: ref :: rest =>
      have hlt := @kindAt_lt func
      simp only [ite_error_ok, reportTypeError, List.map_cons]
      grind

theorem checkSliceMove_ok : checkSliceMove ctx func op loc c = .ok () ↔
    ∃ ref rest elem, c.pars.map (parType ctx func c) = intId :: ref :: rest ∧
      intId < func.types.length ∧ kindAt func ref = some (.slice elem) := by
  rw [checkSliceMove]
  match hpars : c.pars with
  | [] => simp
  | [_] => simp
  | n :: ref :: rest =>
      simp only [reportTypeError, List.map_cons, List.cons.injEq]
      split
      · split
        · grind [parIsInt_iff]
        · grind
      · grind [parIsInt_iff]

theorem checkAt_ok {indexable : TypeKind → Bool} :
    checkAt ctx func op loc indexable c = .ok () ↔
      ∃ arr rest kind, c.pars.map (parType ctx func c) = intId :: arr :: rest ∧
        intId < func.types.length ∧ kindAt func arr = some kind ∧ indexable kind = true := by
  rw [checkAt]
  match hpars : c.pars with
  | [] => simp
  | [_] => simp
  | n :: arr :: rest =>
      by_cases hint : parIsInt ctx func c n = true
      · obtain ⟨hn, hlt⟩ := parIsInt_iff.mp hint
        cases hkind : kindAt func (parType ctx func c arr) with
        | none => simp [hint, hn, hkind]
        | some kind => by_cases hindex : indexable kind = true <;> simp [hint, hn, hlt, hkind, hindex]
      · simp only [hint]
        grind [parIsInt_iff, reportTypeError_eq]

theorem checkStructAt_ok : checkStructAt ctx func op loc c = .ok () ↔
    ∃ tid rest fields, c.pars.map (parType ctx func c) = tid :: rest ∧
      kindAt func tid = some (.struct fields) ∧ op.extra.toNat < fields.length := by
  rw [checkStructAt]
  match hpars : c.pars with
  | [] => simp
  | parent :: rest =>
      simp only [List.map_cons, List.cons.injEq]
      split
      · rename_i fields hkind
        by_cases hlt : op.extra.toNat < fields.length
        · simp only [hlt, if_true, true_iff]
          exact ⟨_, _, fields, ⟨rfl, rfl⟩, hkind, hlt⟩
        · rw [if_neg hlt]
          simp only [reportIndexError_eq, false_iff]
          rintro ⟨_, _, fields', ⟨rfl, rfl⟩, hkind', hlt'⟩
          rw [hkind] at hkind'
          cases hkind'
          exact hlt hlt'
      · rename_i hkind
        simp only [reportTypeError_eq, false_iff]
        rintro ⟨_, _, fields, ⟨rfl, rfl⟩, hkind', -⟩
        exact hkind fields hkind'

theorem checkPushVar_ok : checkPushVar func op loc = .ok () ↔
    ∃ tid, func.vars[op.extra.toNat]? = some tid ∧ tid < func.types.length := by
  rw [checkPushVar]
  cases hvar : func.vars[op.extra.toNat]? with
  | none => simp
  | some tid => by_cases hlt : tid < func.types.length <;> simp [hlt]

theorem checkPushGlobal_ok : checkPushGlobal ctx func op loc = .ok () ↔
    ∃ g, ctx.globals[op.extra.toNat]? = some g ∧ g.tid < func.types.length := by
  rw [checkPushGlobal]
  cases hglobal : ctx.globals[op.extra.toNat]? with
  | none => simp
  | some g => by_cases hlt : g.tid < func.types.length <;> simp [hlt]

/-- The arguments of a call, `skip` entries below the top -/
theorem typeCheckSig_argsOk {sig : Sig} {skip : Nat} (hlen : skip + sig.argc ≤ c.pars.length) :
    typeCheckSig ctx func op loc c (c.args skip sig.argc) sig.args = .ok () ↔
      ArgsOk func sig ((c.pars.map (parType ctx func c)).drop skip) := by
  rw [typeCheckSig_ok (by rw [length_args hlen, sig.length_args]), args_map, ArgsOk]
  have hlen : sig.argc ≤ ((c.pars.map (parType ctx func c)).drop skip).length := by
    rw [List.length_drop, List.length_map]
    omega
  exact (and_iff_right hlen).symm

theorem checkCall_ok : checkCall ctx func op loc c = .ok () ↔
    ∃ callee, ctx.funcs[op.extra.toNat]? = some callee ∧
      ArgsOk func callee.sig (c.pars.map (parType ctx func c)) := by
  rw [checkCall]
  cases hcallee : ctx.funcs[op.extra.toNat]? with
  | none => simp
  | some callee =>
      show (if c.pars.length < callee.sig.argc then _ else _) = _ ↔ _
      by_cases hlen : c.pars.length < callee.sig.argc
      · rw [if_pos hlen]
        simp only [reportStackUnderflow_eq, false_iff]
        rintro ⟨callee', hcallee', hargs, -⟩
        cases hcallee'
        rw [List.length_map] at hargs
        omega
      · rw [if_neg hlen]
        refine (typeCheckSig_argsOk (by omega)).trans ?_
        simp

theorem nativeSigOnStack_eq {sig : Sig} : nativeSigOnStack ctx func c = some sig ↔
    ∃ fn rest, c.pars.map (parType ctx func c) = fn :: rest ∧
      kindAt func fn = some (.nativeFunc sig) := by
  rw [nativeSigOnStack]
  match c.pars with
  | [] => simp
  | fn :: rest =>
      simp only [List.map_cons, List.cons.injEq]
      split
      · rename_i sig' hkind
        constructor
        · rintro ⟨rfl⟩
          exact ⟨_, _, ⟨rfl, rfl⟩, hkind⟩
        · rintro ⟨_, _, ⟨rfl, rfl⟩, hkind'⟩
          rw [hkind] at hkind'
          cases hkind'
          rfl
      · rename_i hkind
        constructor
        · nofun
        · rintro ⟨_, _, ⟨rfl, rfl⟩, hkind'⟩
          exact absurd hkind' (hkind sig)

theorem checkCallNative_ok : checkCallNative ctx func op loc c = .ok () ↔
    ∃ fn rest sig, c.pars.map (parType ctx func c) = fn :: rest ∧
      kindAt func fn = some (.nativeFunc sig) ∧ ArgsOk func sig rest := by
  rw [checkCallNative]
  cases hsig : nativeSigOnStack ctx func c with
  | none =>
      simp only [reportTypeError_eq, false_iff]
      rintro ⟨fn, rest, sig, hmap, hkind, -⟩
      rw [nativeSigOnStack_eq.mpr ⟨fn, rest, hmap, hkind⟩] at hsig
      cases hsig
  | some sig =>
      obtain ⟨fn, rest, hmap, hkind⟩ := nativeSigOnStack_eq.mp hsig
      have hrest : (c.pars.map (parType ctx func c)).drop 1 = rest := by
        rw [hmap]
        rfl
      have hcall : (∃ fn rest sig, c.pars.map (parType ctx func c) = fn :: rest ∧
          kindAt func fn = some (.nativeFunc sig) ∧ ArgsOk func sig rest) ↔
          ArgsOk func sig rest := by
        constructor
        · rintro ⟨fn', rest', sig', hmap', hkind', hargs⟩
          rw [hmap] at hmap'
          cases hmap'
          rw [hkind] at hkind'
          cases hkind'
          exact hargs
        · exact fun hargs => ⟨fn, rest, sig, hmap, hkind, hargs⟩
      have hlength : c.pars.length = rest.length + 1 := by
        rw [← List.length_map (f := parType ctx func c), hmap, List.length_cons]
      rw [hcall, ← hrest]
      show (if c.pars.length < sig.argc + 1 then _ else _) = _ ↔ _
      by_cases hlen : c.pars.length < sig.argc + 1
      · rw [if_pos hlen]
        simp only [reportStackUnderflow_eq, false_iff]
        rintro ⟨hargs, -⟩
        rw [hrest] at hargs
        omega
      · rw [if_neg hlen]
        exact typeCheckSig_argsOk (by omega)

theorem typeCheckOp_ok : typeCheckOp ctx func op loc c = .ok () ↔
    TypesOk ctx func op (c.pars.map (parType ctx func c)) := by
  rw [typeCheckOp, TypesOk]
  cases hkind : op.kind with
  | null => simp
  | drop => simp
  | pushVar => exact checkPushVar_ok
  | pushArg => exact checkPushVar_ok
  | pushGlobal => exact checkPushGlobal_ok
  | assign => simp [checkAssign_ok, hkind]
  | bitNotAssign => exact checkBitNot_ok
  | arrPush => exact checkArrPush_ok
  | arrDrop => exact checkArrDrop_ok
  | sliceFromAr => exact checkSliceFromAr_ok
  | sliceFromOne => exact checkSliceFromOne_ok
  | sliceInc => exact checkSliceMove_ok
  | sliceDec => exact checkSliceMove_ok
  | arrAt =>
      refine checkAt_ok.trans ?_
      constructor
      · rintro ⟨arr, rest, kind, hmap, hint, hkind, hindex⟩
        cases kind with
        | array elem capacity offset => exact ⟨arr, rest, elem, capacity, offset, hmap, hint, hkind⟩
        | _ => cases hindex
      · rintro ⟨arr, rest, elem, capacity, offset, hmap, hint, hkind⟩
        exact ⟨arr, rest, _, hmap, hint, hkind, rfl⟩
  | sliceAt =>
      refine checkAt_ok.trans ?_
      constructor
      · rintro ⟨ref, rest, kind, hmap, hint, hkind, hindex⟩
        obtain ⟨elem, helem⟩ := Option.isSome_iff_exists.mp hindex
        exact ⟨ref, rest, elem, hmap, hint, Option.bind_eq_some_iff.mpr ⟨kind, hkind, helem⟩⟩
      · rintro ⟨ref, rest, elem, hmap, hint, hbind⟩
        obtain ⟨kind, hkind, helem⟩ := Option.bind_eq_some_iff.mp hbind
        exact ⟨ref, rest, kind, hmap, hint, hkind, Option.isSome_iff_exists.mpr ⟨elem, helem⟩⟩
  | structAt => exact checkStructAt_ok
  | call => exact checkCall_ok
  | callNativeOnStack => exact checkCallNative_ok
  | addAssign => exact checkArith_ok (by simp [hkind])
  | subAssign => exact checkArith_ok (by simp [hkind])
  | mulAssign => exact checkArith_ok (by simp [hkind])
  | divAssign => exact checkArith_ok (by simp [hkind])
  | andAssign => exact checkArith_ok (by simp [hkind])
  | orAssign => exact checkArith_ok (by simp [hkind])
  | xorAssign => exact checkArith_ok (by simp [hkind])

end Types

end TreeVM
