import TreeVM.IR.LayoutOrder
import TreeVM.Verify.Scans

/-!
# Typing rules for operations

One rule for each operation, on the types of the stack before and after it.  The checker of places
and the compiler are two implementations of these rules.

* `OpTyping`, `OpsTyping`: the rules, for one operation and for several in a row;
* `OpTyping.typesIn`: the types of the stack stay in the table;
* `opTyping_iff`: `type_check_op` and the switch of `scan_ops`, on paths;
* `scanOpsFrom_typed`: the loop of `scan_ops` with `type_check_op` in front of each operation.
-/

namespace TreeVM

/-- The operations on two `int`s -/
def OpKind.IsArith : OpKind → Prop
  | .addAssign | .subAssign | .mulAssign | .divAssign | .andAssign | .orAssign | .xorAssign => True
  | _ => False

section Rules

variable (ctx : Context) (func : Func)

/-- The types of the stack before and after an operation, the topmost first. -/
inductive OpTyping (op : Op) : List Nat → List Nat → Prop
  | null {ts} : op.kind = .null → OpTyping op ts ts
  | pushLocal {ts tid} : op.kind = .pushVar ∨ op.kind = .pushArg →
      func.vars[op.extra.toNat]? = some tid → tid < func.types.length → OpTyping op ts (tid :: ts)
  | pushGlobal {ts g} : op.kind = .pushGlobal → ctx.globals[op.extra.toNat]? = some g →
      g.tid < func.types.length → OpTyping op ts (g.tid :: ts)
  | drop {ts} : op.kind = .drop → op.extra.toNat ≤ ts.length →
      OpTyping op ts (ts.drop op.extra.toNat)
  | assign {ts tid} : op.kind = .assign → tid < func.types.length →
      OpTyping op (tid :: tid :: ts) (tid :: ts)
  | arith {ts} : op.kind.IsArith → intId < func.types.length →
      OpTyping op (intId :: intId :: ts) (intId :: ts)
  | bitNot {ts} : op.kind = .bitNotAssign → intId < func.types.length →
      OpTyping op (intId :: ts) (intId :: ts)
  | arrPush {ts arr elem capacity offset} : op.kind = .arrPush →
      kindAt func arr = some (.array elem capacity offset) → OpTyping op (elem :: arr :: ts) (arr :: ts)
  | arrDrop {ts arr elem capacity offset} : op.kind = .arrDrop → intId < func.types.length →
      kindAt func arr = some (.array elem capacity offset) →
      OpTyping op (intId :: arr :: ts) (arr :: ts)
  | sliceFromAr {ts arr ref elem capacity offset} : op.kind = .sliceFromAr →
      (kindAt func ref).bind refElem = some elem →
      kindAt func arr = some (.array elem capacity offset) → OpTyping op (arr :: ref :: ts) (ref :: ts)
  | sliceFromOne {ts ref elem} : op.kind = .sliceFromOne → kindAt func ref = some (.slice elem) →
      OpTyping op (elem :: ref :: ts) (ref :: ts)
  | sliceMove {ts ref elem} : op.kind = .sliceInc ∨ op.kind = .sliceDec →
      intId < func.types.length → kindAt func ref = some (.slice elem) →
      OpTyping op (intId :: ref :: ts) (ref :: ts)
  | arrAt {ts arr elem capacity offset} : op.kind = .arrAt → intId < func.types.length →
      kindAt func arr = some (.array elem capacity offset) →
      OpTyping op (intId :: arr :: ts) (elem :: ts)
  | sliceAt {ts ref elem} : op.kind = .sliceAt → intId < func.types.length →
      (kindAt func ref).bind refElem = some elem → OpTyping op (intId :: ref :: ts) (elem :: ts)
  | structAt {ts tid fields f} : op.kind = .structAt → kindAt func tid = some (.struct fields) →
      fields[op.extra.toNat]? = some f → OpTyping op (tid :: ts) (f.tid :: ts)
  | call {ts callee} : op.kind = .call → ctx.funcs[op.extra.toNat]? = some callee →
      ArgsOk func callee.sig ts → OpTyping op ts (ts.drop callee.sig.ins.length)
  | callNative {ts fn sig} : op.kind = .callNativeOnStack →
      kindAt func fn = some (.nativeFunc sig) → ArgsOk func sig ts →
      OpTyping op (fn :: ts) (ts.drop sig.ins.length)

/-- The types of the stack before and after a list of operations -/
inductive OpsTyping : List Op → List Nat → List Nat → Prop
  | nil {ts} : OpsTyping [] ts ts
  | cons {op ops ts ts₁ ts'} : OpTyping ctx func op ts ts₁ → OpsTyping ops ts₁ ts' →
      OpsTyping (op :: ops) ts ts'

end Rules

/-! ## The types stay in the table -/

section Valid

variable {ctx : Context} {func : Func} {op : Op} {ts ts' : List Nat}

/-- The types of the stack are in the table. -/
def TypesIn (func : Func) (ts : List Nat) : Prop :=
  ∀ tid ∈ ts, tid < func.types.length

theorem TypesIn.drop (h : TypesIn func ts) (n : Nat) : TypesIn func (ts.drop n) :=
  fun tid htid => h tid (List.mem_of_mem_drop htid)

theorem TypesIn.tail {tid : Nat} (h : TypesIn func (tid :: ts)) : TypesIn func ts :=
  fun tid' htid' => h tid' (List.mem_cons_of_mem _ htid')

theorem TypesIn.cons {tid : Nat} (htid : tid < func.types.length) (h : TypesIn func ts) :
    TypesIn func (tid :: ts) :=
  List.forall_mem_cons.mpr ⟨htid, h⟩

/-- What a type refers to is in the table. -/
theorem WellFormed.ref_lt (h : WellFormed func.types) {tid r : Nat} {kind : TypeKind}
    (hkind : kindAt func tid = some kind) (hr : r ∈ kind.refs) : r < func.types.length := by
  obtain ⟨t, ht, rfl⟩ := Option.map_eq_some_iff.mp hkind
  exact h.ids t (List.mem_of_getElem? ht) r (refs_subset_ids _ hr)

theorem OpTyping.typesIn (h : OpTyping ctx func op ts ts') (hwell : WellFormed func.types)
    (hts : TypesIn func ts) : TypesIn func ts' := by
  cases h with
  | null _ => exact hts
  | pushLocal _ _ htid => exact hts.cons htid
  | pushGlobal _ _ htid => exact hts.cons htid
  | drop _ _ => exact hts.drop _
  | assign _ _ => exact hts.tail
  | arith _ _ => exact hts.tail
  | bitNot _ _ => exact hts
  | arrPush _ _ => exact hts.tail
  | arrDrop _ _ _ => exact hts.tail
  | sliceFromAr _ _ _ => exact hts.tail
  | sliceFromOne _ _ => exact hts.tail
  | sliceMove _ _ _ => exact hts.tail
  | arrAt _ _ hkind => exact hts.tail.tail.cons (hwell.ref_lt hkind (by simp [TypeKind.refs]))
  | sliceAt _ _ helem =>
      obtain ⟨kind, hkind, helem⟩ := Option.bind_eq_some_iff.mp helem
      refine hts.tail.tail.cons (hwell.ref_lt hkind ?_)
      cases kind <;> simp_all [refElem, TypeKind.refs]
  | structAt _ hkind hf =>
      refine hts.tail.cons (hwell.ref_lt hkind ?_)
      exact List.mem_map.mpr ⟨_, List.mem_of_getElem? hf, rfl⟩
  | call _ _ _ => exact hts.drop _
  | callNative _ _ _ => exact hts.tail.drop _

end Valid

/-! ## The checker of places -/

section Paths

variable {ctx : Context} {func : Func} {op : Op} {ps ps' : List Lval} {ts ts' : List Nat}

theorem memberType_ref {kind : TypeKind} {elem : Nat} (h : refElem kind = some elem) :
    memberType (some kind) = elem := by
  cases kind <;> simp_all [refElem, memberType]

/-- The types of the places on the stack -/
def lvalTypes (ctx : Context) (func : Func) (ps : List Lval) : List Nat :=
  ps.map (lvalType ctx func)

@[simp] theorem lvalTypes_cons (p : Lval) : lvalTypes ctx func (p :: ps) =
    lvalType ctx func p :: lvalTypes ctx func ps :=
  rfl

@[simp] theorem length_lvalTypes : (lvalTypes ctx func ps).length = ps.length :=
  List.length_map ..

theorem lvalTypes_drop (n : Nat) : lvalTypes ctx func (ps.drop n) =
    (lvalTypes ctx func ps).drop n :=
  List.map_drop ..

theorem lvalTypes_eq_cons {tid : Nat} (h : lvalTypes ctx func ps = tid :: ts) :
    ∃ p ps₁, ps = p :: ps₁ ∧ lvalType ctx func p = tid ∧ lvalTypes ctx func ps₁ = ts :=
  List.map_eq_cons_iff.mp h

theorem lvalTypes_eq_cons_cons {tid tid' : Nat} (h : lvalTypes ctx func ps = tid :: tid' :: ts) :
    ∃ p q ps₁, ps = p :: q :: ps₁ ∧ lvalType ctx func p = tid ∧ lvalType ctx func q = tid' ∧
      lvalTypes ctx func ps₁ = ts := by
  obtain ⟨p, ps₁, rfl, hp, h⟩ := lvalTypes_eq_cons h
  obtain ⟨q, ps₂, rfl, hq, h⟩ := lvalTypes_eq_cons h
  exact ⟨p, q, ps₂, rfl, hp, hq, h⟩

theorem OpTyping.typesOk (h : OpTyping ctx func op ts ts') : TypesOk ctx func op ts := by
  cases h with
  | null hop => simp only [TypesOk, hop]
  | pushLocal hop hvar htid =>
      rcases hop with hop | hop <;>
      · simp only [TypesOk, hop]
        exact ⟨_, hvar, htid⟩
  | pushGlobal hop hg htid =>
      simp only [TypesOk, hop]
      exact ⟨_, hg, htid⟩
  | drop hop _ => simp only [TypesOk, hop]
  | assign hop htid =>
      simp only [TypesOk, hop]
      exact ⟨_, _, rfl, htid⟩
  | arith hop hint =>
      rw [TypesOk]
      cases hkind : op.kind <;> rw [hkind] at hop <;> cases hop <;> exact ⟨_, rfl, hint⟩
  | bitNot hop hint =>
      simp only [TypesOk, hop]
      exact ⟨_, rfl, hint⟩
  | arrPush hop hkind =>
      simp only [TypesOk, hop]
      exact ⟨_, _, _, _, _, rfl, hkind⟩
  | arrDrop hop hint hkind =>
      simp only [TypesOk, hop]
      exact ⟨_, _, _, _, _, rfl, hint, hkind⟩
  | sliceFromAr hop href hkind =>
      simp only [TypesOk, hop]
      exact ⟨_, _, _, _, _, _, rfl, href, hkind⟩
  | sliceFromOne hop hkind =>
      simp only [TypesOk, hop]
      exact ⟨_, _, _, rfl, hkind⟩
  | sliceMove hop hint hkind =>
      rcases hop with hop | hop <;>
      · simp only [TypesOk, hop]
        exact ⟨_, _, _, rfl, hint, hkind⟩
  | arrAt hop hint hkind =>
      simp only [TypesOk, hop]
      exact ⟨_, _, _, _, _, rfl, hint, hkind⟩
  | sliceAt hop hint helem =>
      simp only [TypesOk, hop]
      exact ⟨_, _, _, rfl, hint, helem⟩
  | structAt hop hkind hf =>
      simp only [TypesOk, hop]
      exact ⟨_, _, _, rfl, hkind, (List.getElem?_eq_some_iff.mp hf).1⟩
  | call hop hcallee hargs =>
      simp only [TypesOk, hop]
      exact ⟨_, hcallee, hargs⟩
  | callNative hop hkind hargs =>
      simp only [TypesOk, hop]
      exact ⟨_, _, _, rfl, hkind, hargs⟩

/-- The second entry goes, the first one stays. -/
theorem lvalEffect_second {rhs lhs : Nat} (h : lvalTypes ctx func ps = rhs :: lhs :: ts) :
    ¬ ps.length < 2 ∧ lvalTypes ctx func (ps.drop 1) = lhs :: ts := by
  obtain ⟨p, q, ps₁, rfl, -, hq, hps₁⟩ := lvalTypes_eq_cons_cons h
  refine ⟨by simp, ?_⟩
  rw [List.drop_one, List.tail_cons, lvalTypes_cons, hq, hps₁]

theorem OpTyping.effect (h : OpTyping ctx func op (lvalTypes ctx func ps) ts') :
    ∃ ps', lvalEffect ctx func op ps = some ps' ∧ lvalTypes ctx func ps' = ts' := by
  generalize hts : lvalTypes ctx func ps = ts at h
  cases h with
  | null hop =>
      simp only [lvalEffect, hop]
      exact ⟨ps, rfl, hts⟩
  | pushLocal hop hvar _ =>
      rcases hop with hop | hop <;>
      · simp only [lvalEffect, hop]
        refine ⟨_, rfl, ?_⟩
        rw [lvalTypes_cons, lvalType, hvar, hts]
        rfl
  | pushGlobal hop hg _ =>
      simp only [lvalEffect, hop]
      refine ⟨_, rfl, ?_⟩
      rw [lvalTypes_cons, lvalType, hg, hts]
      rfl
  | drop hop hlen =>
      rw [← hts, length_lvalTypes] at hlen
      simp only [lvalEffect, hop, if_neg (Nat.not_lt.mpr hlen)]
      exact ⟨_, rfl, by rw [lvalTypes_drop, hts]⟩
  | assign hop _ =>
      obtain ⟨hlen, hrest⟩ := lvalEffect_second hts
      simp only [lvalEffect, hop, if_neg hlen]
      exact ⟨_, rfl, hrest⟩
  | arith hop _ =>
      obtain ⟨hlen, hrest⟩ := lvalEffect_second hts
      rw [lvalEffect.eq_def]
      cases hkind : op.kind <;> rw [hkind] at hop <;> cases hop <;>
        exact ⟨_, if_neg hlen, hrest⟩
  | bitNot hop _ =>
      obtain ⟨p, ps₁, rfl, -, -⟩ := lvalTypes_eq_cons hts
      simp only [lvalEffect, hop]
      exact ⟨_, if_neg (by simp), hts⟩
  | arrPush hop _ =>
      obtain ⟨hlen, hrest⟩ := lvalEffect_second hts
      simp only [lvalEffect, hop, if_neg hlen]
      exact ⟨_, rfl, hrest⟩
  | arrDrop hop _ _ =>
      obtain ⟨hlen, hrest⟩ := lvalEffect_second hts
      simp only [lvalEffect, hop, if_neg hlen]
      exact ⟨_, rfl, hrest⟩
  | sliceFromAr hop _ _ =>
      obtain ⟨hlen, hrest⟩ := lvalEffect_second hts
      simp only [lvalEffect, hop, if_neg hlen]
      exact ⟨_, rfl, hrest⟩
  | sliceFromOne hop _ =>
      obtain ⟨hlen, hrest⟩ := lvalEffect_second hts
      simp only [lvalEffect, hop, if_neg hlen]
      exact ⟨_, rfl, hrest⟩
  | sliceMove hop _ _ =>
      obtain ⟨hlen, hrest⟩ := lvalEffect_second hts
      have hone : ¬ ps.length < 1 := by omega
      rcases hop with hop | hop <;>
      · simp only [lvalEffect, hop, if_neg hone]
        exact ⟨_, rfl, hrest⟩
  | arrAt hop _ hkind =>
      obtain ⟨p, q, ps₁, rfl, -, rfl, hps₁⟩ := lvalTypes_eq_cons_cons hts
      simp only [lvalEffect, hop]
      refine ⟨_, rfl, ?_⟩
      rw [lvalTypes_cons, lvalType, hkind, hps₁]
      rfl
  | sliceAt hop _ helem =>
      obtain ⟨p, q, ps₁, rfl, -, rfl, hps₁⟩ := lvalTypes_eq_cons_cons hts
      obtain ⟨kind, hkind, helem⟩ := Option.bind_eq_some_iff.mp helem
      simp only [lvalEffect, hop]
      refine ⟨_, rfl, ?_⟩
      rw [lvalTypes_cons, lvalType, hkind, hps₁, memberType_ref helem]
  | structAt hop hkind hf =>
      obtain ⟨p, ps₁, rfl, rfl, hps₁⟩ := lvalTypes_eq_cons hts
      simp only [lvalEffect, hop]
      refine ⟨_, rfl, ?_⟩
      rw [lvalTypes_cons, lvalType, hkind, hps₁, fieldType, hf]
      rfl
  | call hop hcallee hargs =>
      have hlen := hargs.1
      rw [← hts, length_lvalTypes, Sig.argc] at hlen
      simp only [lvalEffect, hop, hcallee]
      exact ⟨_, if_neg (by omega), by rw [lvalTypes_drop, hts]⟩
  | callNative hop hkind hargs =>
      obtain ⟨p, ps₁, rfl, rfl, rfl⟩ := lvalTypes_eq_cons hts
      have hlen := hargs.1
      rw [length_lvalTypes, Sig.argc] at hlen
      simp only [lvalEffect, hop, nativeSigOf, hkind, List.length_cons]
      exact ⟨_, if_neg (by omega), lvalTypes_drop _⟩

/-- The effect is determined, so it is the one of the rule. -/
theorem OpTyping.result (h : OpTyping ctx func op (lvalTypes ctx func ps) ts')
    (heffect : lvalEffect ctx func op ps = some ps') :
    OpTyping ctx func op (lvalTypes ctx func ps) (lvalTypes ctx func ps') := by
  obtain ⟨ps₁, heffect₁, rfl⟩ := h.effect
  rw [heffect] at heffect₁
  cases heffect₁
  exact h

/-- Only `OP_DROP` can fail although `type_check_op` has accepted it. -/
theorem TypesOk.typing (h : TypesOk ctx func op ts)
    (hdrop : op.kind = .drop → op.extra.toNat ≤ ts.length) : ∃ ts', OpTyping ctx func op ts ts' := by
  rw [TypesOk] at h
  cases hop : op.kind with
  | null => exact ⟨_, .null hop⟩
  | drop => exact ⟨_, .drop hop (hdrop hop)⟩
  | pushVar =>
      rw [hop] at h
      obtain ⟨tid, hvar, htid⟩ := h
      exact ⟨_, .pushLocal (.inl hop) hvar htid⟩
  | pushArg =>
      rw [hop] at h
      obtain ⟨tid, hvar, htid⟩ := h
      exact ⟨_, .pushLocal (.inr hop) hvar htid⟩
  | pushGlobal =>
      rw [hop] at h
      obtain ⟨g, hg, htid⟩ := h
      exact ⟨_, .pushGlobal hop hg htid⟩
  | assign =>
      rw [hop] at h
      obtain ⟨tid, rest, rfl, htid⟩ := h
      exact ⟨_, .assign hop htid⟩
  | bitNotAssign =>
      rw [hop] at h
      obtain ⟨rest, rfl, hint⟩ := h
      exact ⟨_, .bitNot hop hint⟩
  | arrPush =>
      rw [hop] at h
      obtain ⟨elem, arr, rest, capacity, offset, rfl, hkind⟩ := h
      exact ⟨_, .arrPush hop hkind⟩
  | arrDrop =>
      rw [hop] at h
      obtain ⟨arr, rest, elem, capacity, offset, rfl, hint, hkind⟩ := h
      exact ⟨_, .arrDrop hop hint hkind⟩
  | sliceFromAr =>
      rw [hop] at h
      obtain ⟨arr, ref, rest, elem, capacity, offset, rfl, href, hkind⟩ := h
      exact ⟨_, .sliceFromAr hop href hkind⟩
  | sliceFromOne =>
      rw [hop] at h
      obtain ⟨elem, ref, rest, rfl, hkind⟩ := h
      exact ⟨_, .sliceFromOne hop hkind⟩
  | sliceInc =>
      rw [hop] at h
      obtain ⟨ref, rest, elem, rfl, hint, hkind⟩ := h
      exact ⟨_, .sliceMove (.inl hop) hint hkind⟩
  | sliceDec =>
      rw [hop] at h
      obtain ⟨ref, rest, elem, rfl, hint, hkind⟩ := h
      exact ⟨_, .sliceMove (.inr hop) hint hkind⟩
  | arrAt =>
      rw [hop] at h
      obtain ⟨arr, rest, elem, capacity, offset, rfl, hint, hkind⟩ := h
      exact ⟨_, .arrAt hop hint hkind⟩
  | sliceAt =>
      rw [hop] at h
      obtain ⟨ref, rest, elem, rfl, hint, helem⟩ := h
      exact ⟨_, .sliceAt hop hint helem⟩
  | structAt =>
      rw [hop] at h
      obtain ⟨tid, rest, fields, rfl, hkind, hlt⟩ := h
      exact ⟨_, .structAt hop hkind (List.getElem?_eq_getElem hlt)⟩
  | call =>
      rw [hop] at h
      obtain ⟨callee, hcallee, hargs⟩ := h
      exact ⟨_, .call hop hcallee hargs⟩
  | callNativeOnStack =>
      rw [hop] at h
      obtain ⟨fn, rest, sig, rfl, hkind, hargs⟩ := h
      exact ⟨_, .callNative hop hkind hargs⟩
  | addAssign | subAssign | mulAssign | divAssign | andAssign | orAssign | xorAssign =>
      rw [hop] at h
      obtain ⟨rest, rfl, hint⟩ := h
      exact ⟨_, .arith (hop ▸ trivial) hint⟩

/-- `type_check_op` and the switch of `scan_ops` on paths -/
theorem opTyping_iff : OpTyping ctx func op (lvalTypes ctx func ps) ts' ↔
    TypesOk ctx func op (lvalTypes ctx func ps) ∧
      ∃ ps', lvalEffect ctx func op ps = some ps' ∧ lvalTypes ctx func ps' = ts' := by
  constructor
  · exact fun h => ⟨h.typesOk, h.effect⟩
  · rintro ⟨htypes, ps', heffect, rfl⟩
    have hdrop : op.kind = .drop → op.extra.toNat ≤ (lvalTypes ctx func ps).length := by
      intro hop
      simp only [lvalEffect, hop] at heffect
      split at heffect
      · cases heffect
      · rw [length_lvalTypes]
        omega
    obtain ⟨ts, hrule⟩ := htypes.typing hdrop
    exact hrule.result heffect

end Paths

section Checked

variable {ctx : Context} {func : Func} {op : Op} {E : Holds} {c c' : Checker} {ps : List Lval}
  {ts' : List Nat}

/-- The types of the places on the stack of the checker -/
def Checker.types (ctx : Context) (func : Func) (c : Checker) : List Nat :=
  c.pars.map (parType ctx func c)

theorem types_stack (hs : c.Stack ps) : c.types ctx func = lvalTypes ctx func ps := by
  rw [Checker.types, lvalTypes]
  rw [Checker.Stack] at hs
  generalize c.pars = pars at hs
  induction hs with
  | nil => rfl
  | cons hp _ ih => rw [List.map_cons, List.map_cons, parType_eq hp, ih]

/-- `type_check_op` in front of each operation, without the rules for portals -/
def checkTypes (ctx : Context) (func : Func) : ScanOp :=
  fun _ _ op loc c => do
    typeCheckOp ctx func op loc c
    return c

theorem scanEffect_eq_ok (hrep : Rep c E) (hs : c.Stack ps) (h : scanEffect ctx func op c = .ok c') :
    ∃ ps', lvalEffect ctx func op ps = some ps' ∧ Rep c' E ∧ c'.Stack ps' := by
  have hshows := @scanEffect_shows ctx func op _ _ _ hrep hs
  rw [h] at hshows
  generalize lvalEffect ctx func op ps = o at hshows
  cases hshows with
  | ok hrep' hs' _ => exact ⟨_, rfl, hrep', hs'⟩

theorem scanEffect_of_lvalEffect (hrep : Rep c E) (hs : c.Stack ps) {ps' : List Lval}
    (h : lvalEffect ctx func op ps = some ps') :
    ∃ c', scanEffect ctx func op c = .ok c' ∧ c'.Stack ps' := by
  have hshows := @scanEffect_shows ctx func op _ _ _ hrep hs
  rw [h] at hshows
  generalize scanEffect ctx func op c = r at hshows
  cases hshows with
  | ok _ hs' _ => exact ⟨_, rfl, hs'⟩

/-- One round of the loop of `scan_ops` -/
theorem scanOp_typed (hrep : Rep c E) (hs : c.Stack ps) (loc : CodeLoc) :
    (∃ c', typeCheckOp ctx func op loc c = .ok () ∧ scanEffect ctx func op c = .ok c' ∧
      c'.types ctx func = ts') ↔ OpTyping ctx func op (c.types ctx func) ts' := by
  have hok := @typeCheckOp_ok ctx func op loc c
  rw [← Checker.types] at hok
  rw [types_stack hs] at hok ⊢
  rw [opTyping_iff, ← hok]
  constructor
  · rintro ⟨c', htypes, heffect, rfl⟩
    obtain ⟨ps', hps', -, hs'⟩ := scanEffect_eq_ok hrep hs heffect
    exact ⟨htypes, ps', hps', (types_stack hs').symm⟩
  · rintro ⟨htypes, ps', heffect, rfl⟩
    obtain ⟨c', hc', hs'⟩ := scanEffect_of_lvalEffect hrep hs heffect
    exact ⟨c', htypes, hc', types_stack hs'⟩

theorem scanOpsFrom_typed {current block opi : Nat} {state : ScanState} {ops : List Op}
    (hrep : Rep c E) (hs : c.Stack ps) :
    (∃ c', scanOpsFrom ctx (checkTypes ctx func) current func state block opi ops c = .ok c' ∧
      c'.types ctx func = ts') ↔ OpsTyping ctx func ops (c.types ctx func) ts' := by
  induction ops generalizing c ps opi with
  | nil =>
      constructor
      · rintro ⟨c', h, rfl⟩
        cases h
        exact .nil
      · intro h
        cases h
        exact ⟨c, rfl, rfl⟩
  | cons op ops ih =>
      constructor
      · rintro ⟨c', h, hts'⟩
        obtain ⟨c₀, hcheck, h⟩ := bind_eq_ok.mp h
        obtain ⟨⟨⟩, htypes, hc₀⟩ := bind_eq_ok.mp hcheck
        cases hc₀
        obtain ⟨c₁, heffect, h⟩ := bind_eq_ok.mp h
        obtain ⟨ps₁, -, hrep₁, hs₁⟩ := scanEffect_eq_ok hrep hs heffect
        exact .cons ((scanOp_typed hrep hs _).mp ⟨c₁, htypes, heffect, rfl⟩)
          ((ih hrep₁ hs₁).mp ⟨c', h, hts'⟩)
      · intro h
        cases h with
        | cons hop hops =>
            obtain ⟨c₁, htypes, heffect, rfl⟩ := (scanOp_typed hrep hs ⟨block, opi⟩).mpr hop
            obtain ⟨ps₁, -, hrep₁, hs₁⟩ := scanEffect_eq_ok hrep hs heffect
            obtain ⟨c', hrest, hts'⟩ := (ih hrep₁ hs₁).mpr hops
            refine ⟨c', bind_eq_ok.mpr ⟨c, bind_eq_ok.mpr ⟨(), htypes, rfl⟩, ?_⟩, hts'⟩
            exact bind_eq_ok.mpr ⟨c₁, heffect, hrest⟩

end Checked

end TreeVM
