import TreeVM.Verify.Passes
import TreeVM.Logic.Results
import TreeVM.Logic.Segments
import Mathlib.Tactic.Cases

/-!
# Places as paths

* `Lval`: a place as a path from a local, an argument or a global, array indices unknown;
* `Denotes`: the path that an interned place stands for; `Checker.Ok`: what interning keeps;
* `lvalType`, `Lval.rootVar`: types and roots of paths, and that `par_type` and `par_root` compute
  them;
* `Rep`: the hold edges between paths that the handles record.
-/

namespace TreeVM

inductive Lval
  | var (i : Nat)
  | arg (i : Nat)
  | global (i : Nat)
  | field (p : Lval) (i : Nat)
  | elem (p : Lval)
  deriving DecidableEq, Repr

namespace Checker

/-- The interned place `idx` is the path `p`. -/
inductive Denotes (c : Checker) : Nat → Lval → Prop
  | var {idx i} : c.parOf idx = some ⟨.localVar, i, 0⟩ → Denotes c idx (.var i)
  | arg {idx i} : c.parOf idx = some ⟨.arg, i, 0⟩ → Denotes c idx (.arg i)
  | global {idx i} : c.parOf idx = some ⟨.global, i, 0⟩ → Denotes c idx (.global i)
  | field {idx i parent p} : c.parOf idx = some ⟨.structField, i, parent⟩ → parent < idx →
      Denotes c parent p → Denotes c idx (.field p i)
  | elem {idx parent p} : c.parOf idx = some ⟨.arrMember, 0, parent⟩ → parent < idx →
      Denotes c parent p → Denotes c idx (.elem p)

/-- Places are interned once and after their parents; hold edges lie in the array and lead to
interned places. -/
structure Ok (c : Checker) : Prop where
  distinct : ∀ i j par, c.parOf i = some par → c.parOf j = some par → i = j
  denotes : ∀ i, i < c.handles.length → ∃ p, c.Denotes i p
  segments : ∀ h ∈ c.handles, h.holdsStart + h.numHolds ≤ c.holds.length
  held : ∀ hold ∈ c.holds, hold.par < c.handles.length

/-- More places are interned. -/
structure Extends (c c' : Checker) : Prop where
  pars : ∀ i par, c.parOf i = some par → c'.parOf i = some par
  length : c.handles.length ≤ c'.handles.length

variable {c c' c'' : Checker} {idx : Nat} {p q : Lval}

theorem parOf_lt {par : Par} (h : c.parOf idx = some par) : idx < c.handles.length := by
  obtain ⟨handle, hh, -⟩ := Option.map_eq_some_iff.mp h
  exact (List.getElem?_eq_some_iff.mp hh).1

theorem parOf_of_handle {h : Handle} (hh : c.handles[idx]? = some h) : c.parOf idx = some h.par := by
  rw [parOf, hh]
  rfl

theorem handle_of_parOf {par : Par} (h : c.parOf idx = some par) :
    ∃ handle, c.handles[idx]? = some handle ∧ handle.par = par :=
  Option.map_eq_some_iff.mp h

namespace Denotes

theorem lt (h : c.Denotes idx p) : idx < c.handles.length := by
  cases h with
  | var h => exact parOf_lt h
  | arg h => exact parOf_lt h
  | global h => exact parOf_lt h
  | field h _ _ => exact parOf_lt h
  | elem h _ _ => exact parOf_lt h

theorem unique (h : c.Denotes idx p) (h' : c.Denotes idx q) : p = q := by
  induction h generalizing q with
  | var h => cases h' <;> simp_all
  | arg h => cases h' <;> simp_all
  | global h => cases h' <;> simp_all
  | field h _ _ ih =>
      cases h' with
      | field h' _ hparent =>
          rw [h] at h'
          cases h'
          rw [ih hparent]
      | _ => simp_all
  | elem h _ _ ih =>
      cases h' with
      | elem h' _ hparent =>
          rw [h] at h'
          cases h'
          rw [ih hparent]
      | _ => simp_all

theorem inj (hok : c.Ok) {j : Nat} (h : c.Denotes idx p) (h' : c.Denotes j p) : idx = j := by
  induction p generalizing idx j with
  | var i =>
      cases h with | var h =>
      cases h' with | var h' => exact hok.distinct _ _ _ h h'
  | arg i =>
      cases h with | arg h =>
      cases h' with | arg h' => exact hok.distinct _ _ _ h h'
  | global i =>
      cases h with | global h =>
      cases h' with | global h' => exact hok.distinct _ _ _ h h'
  | field p i ih =>
      cases h with | field h _ hp =>
      cases h' with | field h' _ hp' =>
      rw [ih hp hp'] at h
      exact hok.distinct _ _ _ h h'
  | elem p ih =>
      cases h with | elem h _ hp =>
      cases h' with | elem h' _ hp' =>
      rw [ih hp hp'] at h
      exact hok.distinct _ _ _ h h'

theorem mono (hext : c.Extends c') (h : c.Denotes idx p) : c'.Denotes idx p := by
  induction h with
  | var h => exact .var (hext.pars _ _ h)
  | arg h => exact .arg (hext.pars _ _ h)
  | global h => exact .global (hext.pars _ _ h)
  | field h hlt _ ih => exact .field (hext.pars _ _ h) hlt ih
  | elem h hlt _ ih => exact .elem (hext.pars _ _ h) hlt ih

/-- Old numbers mean what they meant. -/
theorem of_extends (hok : c.Ok) (hext : c.Extends c') (hlt : idx < c.handles.length)
    (h : c'.Denotes idx p) : c.Denotes idx p := by
  obtain ⟨q, hq⟩ := hok.denotes idx hlt
  rw [h.unique (hq.mono hext)]
  exact hq

end Denotes

theorem Extends.refl (c : Checker) : c.Extends c :=
  ⟨fun _ _ h => h, Nat.le_refl _⟩

theorem Extends.trans (h : c.Extends c') (h' : c'.Extends c'') : c.Extends c'' :=
  ⟨fun i par hi => h'.pars i par (h.pars i par hi), Nat.le_trans h.length h'.length⟩

/-- The interned form of a path, given the number of its parent. -/
inductive ParFor (c : Checker) : Par → Lval → Prop
  | var {i} : ParFor c ⟨.localVar, i, 0⟩ (.var i)
  | arg {i} : ParFor c ⟨.arg, i, 0⟩ (.arg i)
  | global {i} : ParFor c ⟨.global, i, 0⟩ (.global i)
  | field {i parent p} : c.Denotes parent p → ParFor c ⟨.structField, i, parent⟩ (.field p i)
  | elem {parent p} : c.Denotes parent p → ParFor c ⟨.arrMember, 0, parent⟩ (.elem p)

/-- What interning does to the checker. -/
structure Interned (c : Checker) (par : Par) (p : Lval) (idx : Nat) (c' : Checker) : Prop where
  denotes : c'.Denotes idx p
  extends_ : c.Extends c'
  ok : c'.Ok
  same : c'.pars = c.pars ∧ c'.holds = c.holds
  handles : c' = c ∨ (idx = c.handles.length ∧ (∀ i, ¬ c.Denotes i p) ∧
    c'.handles = c.handles ++ [{ par := par }])

theorem denotes_of_parFor {par : Par} (hfor : ParFor c par p) (hext : c.Extends c')
    (hpar : c'.parOf idx = some par) (hnew : c.handles.length ≤ idx) : c'.Denotes idx p := by
  cases hfor with
  | var => exact .var hpar
  | arg => exact .arg hpar
  | global => exact .global hpar
  | field h => exact .field hpar (Nat.lt_of_lt_of_le h.lt hnew) (h.mono hext)
  | elem h => exact .elem hpar (Nat.lt_of_lt_of_le h.lt hnew) (h.mono hext)

/-- An interned place with this form denotes the path. -/
theorem denotes_of_parOf (hok : c.Ok) {par : Par} (hfor : ParFor c par p)
    (hpar : c.parOf idx = some par) : c.Denotes idx p := by
  obtain ⟨q, hq⟩ := hok.denotes idx (parOf_lt hpar)
  cases hfor with
  | var => exact .var hpar
  | arg => exact .arg hpar
  | global => exact .global hpar
  | field h =>
      cases hq with
      | field h' hlt _ =>
          rw [hpar] at h'
          cases h'
          exact .field hpar hlt h
      | _ => simp_all
  | elem h =>
      cases hq with
      | elem h' hlt _ =>
          rw [hpar] at h'
          cases h'
          exact .elem hpar hlt h
      | _ => simp_all

theorem parOf_of_denotes {par : Par} (hok : c.Ok) (hfor : ParFor c par p) (h : c.Denotes idx p) :
    c.parOf idx = some par := by
  cases hfor with
  | var => cases h with | var h => exact h
  | arg => cases h with | arg h => exact h
  | global => cases h with | global h => exact h
  | field hp =>
      cases h with | field h _ hp' =>
      rw [hp.inj hok hp']
      exact h
  | elem hp =>
      cases h with | elem h _ hp' =>
      rw [hp.inj hok hp']
      exact h

theorem intern_spec (hok : c.Ok) {par : Par} (hfor : ParFor c par p) :
    Interned c par p (c.intern par).1 (c.intern par).2 := by
  rw [intern]
  split
  · rename_i idx hfind
    obtain ⟨hlt, hpar, -⟩ := List.findIdx?_eq_some_iff_getElem.mp hfind
    have hpar : c.parOf idx = some par := by
      rw [parOf, List.getElem?_eq_getElem hlt]
      simpa using hpar
    exact ⟨denotes_of_parOf hok hfor hpar, .refl c, hok, ⟨rfl, rfl⟩, .inl rfl⟩
  · rename_i hfind
    have hnew : ∀ i, c.parOf i ≠ some par := by
      intro i hi
      obtain ⟨h, hh, hpar⟩ := handle_of_parOf hi
      have := List.findIdx?_eq_none_iff.mp hfind h (List.mem_of_getElem? hh)
      simp [hpar] at this
    let c' : Checker := { c with handles := c.handles ++ [{ par := par }] }
    have hold : ∀ i, i < c.handles.length → c'.parOf i = c.parOf i := by
      intro i hi
      simp only [parOf, c', List.getElem?_append_left hi]
    have hlast : c'.parOf c.handles.length = some par := by simp [parOf, c']
    have hext : c.Extends c' := by
      refine ⟨fun i par' hi => ?_, by simp [c']⟩
      rw [hold i (parOf_lt hi)]
      exact hi
    have hlength : c'.handles.length = c.handles.length + 1 := by simp [c']
    have hdenotes := denotes_of_parFor hfor hext hlast (Nat.le_refl _)
    refine ⟨hdenotes, hext, ⟨?_, ?_, ?_, ?_⟩, ⟨rfl, rfl⟩, .inr ⟨rfl, fun i hi => ?_, rfl⟩⟩
    · intro i j par' hi hj
      have hi' := parOf_lt hi
      have hj' := parOf_lt hj
      rw [hlength] at hi' hj'
      rcases Nat.lt_succ_iff_lt_or_eq.mp hi' with hilt | rfl
      · rcases Nat.lt_succ_iff_lt_or_eq.mp hj' with hjlt | rfl
        · rw [hold i hilt] at hi
          rw [hold j hjlt] at hj
          exact hok.distinct i j par' hi hj
        · rw [hlast] at hj
          rw [hold i hilt, ← hj] at hi
          exact absurd hi (hnew i)
      · rcases Nat.lt_succ_iff_lt_or_eq.mp hj' with hjlt | rfl
        · rw [hlast] at hi
          rw [hold j hjlt, ← hi] at hj
          exact absurd hj (hnew j)
        · rfl
    · intro i hi
      rw [hlength] at hi
      rcases Nat.lt_succ_iff_lt_or_eq.mp hi with hlt | rfl
      · obtain ⟨q, hq⟩ := hok.denotes i hlt
        exact ⟨q, hq.mono hext⟩
      · exact ⟨p, hdenotes⟩
    · intro h hh
      rcases List.mem_append.mp hh with hh | hh
      · exact hok.segments h hh
      · rw [List.mem_singleton.mp hh]
        exact Nat.zero_le _
    · intro hold hh
      rw [hlength]
      exact Nat.lt_succ_of_lt (hok.held hold hh)
    · exact hnew i (parOf_of_denotes hok hfor hi)

end Checker

/-! ## Types and roots -/

section Types

variable (ctx : Context) (func : Func)

def lvalType : Lval → Nat
  | .var i => (func.vars[i]?).getD invalidId
  | .arg i => (func.vars[i]?).getD invalidId
  | .global i => ((ctx.globals[i]?).map Global.tid).getD invalidId
  | .field p i => fieldType (kindAt func (lvalType p)) i
  | .elem p => memberType (kindAt func (lvalType p))

/-- The local that the path starts from. -/
def Lval.rootVar : Lval → Option Nat
  | .var i => some i
  | .arg _ => none
  | .global _ => none
  | .field p _ => p.rootVar
  | .elem p => p.rootVar

variable {ctx func} {c : Checker} {idx : Nat} {p : Lval}

theorem parTypeAt_eq (h : c.Denotes idx p) {fuel : Nat} (hfuel : idx < fuel) :
    parTypeAt ctx func c fuel idx = lvalType ctx func p := by
  induction h generalizing fuel with
  | var hpar =>
      obtain ⟨fuel, rfl⟩ := Nat.exists_eq_succ_of_ne_zero (Nat.ne_of_gt (Nat.zero_lt_of_lt hfuel))
      rw [parTypeAt, hpar]
      rfl
  | arg hpar =>
      obtain ⟨fuel, rfl⟩ := Nat.exists_eq_succ_of_ne_zero (Nat.ne_of_gt (Nat.zero_lt_of_lt hfuel))
      rw [parTypeAt, hpar]
      rfl
  | global hpar =>
      obtain ⟨fuel, rfl⟩ := Nat.exists_eq_succ_of_ne_zero (Nat.ne_of_gt (Nat.zero_lt_of_lt hfuel))
      rw [parTypeAt, hpar]
      rfl
  | field hpar hlt _ ih =>
      obtain ⟨fuel, rfl⟩ := Nat.exists_eq_succ_of_ne_zero (Nat.ne_of_gt (Nat.zero_lt_of_lt hfuel))
      rw [parTypeAt, hpar]
      simp only [lvalType, ih (Nat.lt_of_lt_of_le hlt (Nat.le_of_lt_succ hfuel))]
  | elem hpar hlt _ ih =>
      obtain ⟨fuel, rfl⟩ := Nat.exists_eq_succ_of_ne_zero (Nat.ne_of_gt (Nat.zero_lt_of_lt hfuel))
      rw [parTypeAt, hpar]
      simp only [lvalType, ih (Nat.lt_of_lt_of_le hlt (Nat.le_of_lt_succ hfuel))]

@[simp] theorem parType_eq (h : c.Denotes idx p) : parType ctx func c idx = lvalType ctx func p :=
  parTypeAt_eq h (Nat.lt_succ_of_lt h.lt)

theorem parRootAt_eq (h : c.Denotes idx p) {fuel : Nat} (hfuel : idx < fuel) :
    ∃ par, parRootAt c fuel idx = some par ∧
      (par.kind = .localVar → p.rootVar = some par.idx) ∧
      (par.kind ≠ .localVar → p.rootVar = none) := by
  induction h generalizing fuel with
  | var hpar =>
      obtain ⟨fuel, rfl⟩ := Nat.exists_eq_succ_of_ne_zero (Nat.ne_of_gt (Nat.zero_lt_of_lt hfuel))
      rw [parRootAt, hpar]
      exact ⟨_, rfl, fun _ => rfl, fun h => absurd rfl h⟩
  | arg hpar =>
      obtain ⟨fuel, rfl⟩ := Nat.exists_eq_succ_of_ne_zero (Nat.ne_of_gt (Nat.zero_lt_of_lt hfuel))
      rw [parRootAt, hpar]
      exact ⟨_, rfl, nofun, fun _ => rfl⟩
  | global hpar =>
      obtain ⟨fuel, rfl⟩ := Nat.exists_eq_succ_of_ne_zero (Nat.ne_of_gt (Nat.zero_lt_of_lt hfuel))
      rw [parRootAt, hpar]
      exact ⟨_, rfl, nofun, fun _ => rfl⟩
  | field hpar hlt _ ih =>
      obtain ⟨fuel, rfl⟩ := Nat.exists_eq_succ_of_ne_zero (Nat.ne_of_gt (Nat.zero_lt_of_lt hfuel))
      rw [parRootAt, hpar]
      exact ih (Nat.lt_of_lt_of_le hlt (Nat.le_of_lt_succ hfuel))
  | elem hpar hlt _ ih =>
      obtain ⟨fuel, rfl⟩ := Nat.exists_eq_succ_of_ne_zero (Nat.ne_of_gt (Nat.zero_lt_of_lt hfuel))
      rw [parRootAt, hpar]
      exact ih (Nat.lt_of_lt_of_le hlt (Nat.le_of_lt_succ hfuel))

/-- `par_root_is_local` and `par_scope_depth` of a path -/
theorem parRoot_eq (h : c.Denotes idx p) :
    parRootIsLocal c idx = p.rootVar.isSome ∧
      ∀ state, parScopeDepth c state idx =
        (p.rootVar.map fun v => (state.varDepths[v]?).getD 0).getD 0 := by
  obtain ⟨⟨kind, i, parent⟩, hroot, hlocal, hother⟩ :=
    parRootAt_eq h (Nat.lt_succ_of_lt h.lt)
  rw [parRootIsLocal, parRoot, hroot]
  cases kind with
  | localVar =>
      have hvar : p.rootVar = some i := hlocal rfl
      refine ⟨by rw [hvar]; rfl, fun state => ?_⟩
      rw [parScopeDepth, parRoot, hroot, hvar]
      rfl
  | _ =>
      have hvar : p.rootVar = none := hother (by simp)
      refine ⟨by rw [hvar]; rfl, fun state => ?_⟩
      rw [parScopeDepth, parRoot, hroot, hvar]
      rfl

/-- Types do not depend on what else is interned. -/
theorem parIsPortal_eq (h : c.Denotes idx p) : parIsPortal ctx func c idx =
    ((func.types[lvalType ctx func p]?).map Ty.isPortal).getD false := by
  rw [parIsPortal, parType_eq h]

end Types

/-! ## Hold edges -/

/-- The places that a place holds, each with the mark for shared only. -/
abbrev Holds := Lval → List (Lval × Bool)

/-- A new edge goes behind the others. -/
def Holds.add (E : Holds) (owner : Lval) (e : Lval × Bool) : Holds :=
  fun p => if p = owner ∧ e ∉ E p then E p ++ [e] else E p

/-- The edge in the holds array stands for the edge between paths. -/
def HoldChain.Is (c : Checker) (hold : HoldChain) (e : Lval × Bool) : Prop :=
  c.Denotes hold.par e.1 ∧ hold.justConst = e.2

/-- The handles record the edges `E`. -/
structure Rep (c : Checker) (E : Holds) : Prop where
  ok : c.Ok
  edges : ∀ (idx : Nat) (h : Handle) (p : Lval), c.handles[idx]? = some h → c.Denotes idx p →
    List.Forall₂ (HoldChain.Is c) (c.holdsOf h) (E p)
  unknown : ∀ p, (∀ idx, ¬ c.Denotes idx p) → E p = []

section Rep

variable {c c' : Checker} {E : Holds} {idx : Nat} {p : Lval}

theorem HoldChain.Is.mono {hold : HoldChain} {e : Lval × Bool} (h : hold.Is c e)
    (hext : c.Extends c') : hold.Is c' e :=
  ⟨h.1.mono hext, h.2⟩

theorem Rep.intern (h : Rep c E) {par : Par} {idx : Nat} (hi : Checker.Interned c par p idx c') :
    Rep c' E := by
  rcases hi.handles with rfl | ⟨hidx, hnew, hhandles⟩
  · exact h
  · refine ⟨hi.ok, fun j handle q hj hq => ?_, fun q hq => h.unknown q fun j hj => ?_⟩
    · have hsame : c'.holdsOf handle = c.holdsOf handle := by
        rw [Checker.holdsOf, Checker.holdsOf, hi.same.2]
      rw [hsame]
      rw [hhandles] at hj
      by_cases hlt : j < c.handles.length
      · rw [List.getElem?_append_left hlt] at hj
        exact (h.edges j handle q hj (hq.of_extends h.ok hi.extends_ hlt)).imp
          fun _ _ he => he.mono hi.extends_
      · -- the new handle holds nothing yet
        have hj' : j = c.handles.length := by
          have := (List.getElem?_eq_some_iff.mp hj).1
          rw [List.length_append, List.length_singleton] at this
          omega
        subst hj'
        rw [List.getElem?_concat_length] at hj
        cases hj
        have hqp : q = p := hq.unique (hidx ▸ hi.denotes)
        rw [hqp, h.unknown p hnew]
        simp [Checker.holdsOf]
    · exact hq j (hj.mono hi.extends_)

/-- The same places are interned. -/
structure SamePars (c c' : Checker) : Prop where
  pars : ∀ i, c'.parOf i = c.parOf i
  length : c'.handles.length = c.handles.length

theorem SamePars.extends_ (h : SamePars c c') : c.Extends c' :=
  ⟨fun i _ hi => (h.pars i).trans hi, Nat.le_of_eq h.length.symm⟩

theorem SamePars.symm (h : SamePars c c') : SamePars c' c :=
  ⟨fun i => (h.pars i).symm, h.length.symm⟩

theorem SamePars.denotes (h : SamePars c c') : c'.Denotes idx p ↔ c.Denotes idx p :=
  ⟨fun hp => hp.mono h.symm.extends_, fun hp => hp.mono h.extends_⟩

/-- Adding a hold edge. -/
theorem Rep.addHold (h : Rep c E) {owner held : Nat} {q : Lval} (howner : c.Denotes owner p)
    (hheld : c.Denotes held q) (loc : CodeLoc) (const : Bool) :
    ∃ c', c.addHold owner held loc const = .ok c' ∧ Rep c' (E.add p (q, const)) ∧
      c'.pars = c.pars ∧ SamePars c c' := by
  obtain ⟨handle, hhandle⟩ : ∃ handle, c.handles[owner]? = some handle :=
    ⟨_, List.getElem?_eq_getElem howner.lt⟩
  have hedges := h.edges owner handle p hhandle howner
  have hmem : (c.holdsOf handle).any (fun old => old.par = held ∧ old.justConst = const) = true ↔
      (q, const) ∈ E p := by
    rw [List.any_eq_true]
    constructor
    · rintro ⟨old, hold, heq⟩
      obtain ⟨hpar, hconst⟩ := of_decide_eq_true heq
      obtain ⟨e, he, hdenotes, hjust⟩ := forall₂_left hedges hold
      have hq : e.1 = q := hdenotes.unique (hpar ▸ hheld)
      rw [← hq, ← hconst, hjust]
      exact he
    · intro hq
      obtain ⟨old, hold, hdenotes, hjust⟩ := forall₂_right hedges hq
      exact ⟨old, hold, decide_eq_true ⟨hdenotes.inj h.ok hheld, hjust⟩⟩
  rw [Checker.addHold, hhandle]
  simp only
  rw [if_neg (Nat.not_le.mpr hheld.lt)]
  split
  · rename_i hany
    have hsame : E.add p (q, const) = E := by
      funext r
      rw [Holds.add]
      split
      · rename_i hr
        exact absurd (hr.1 ▸ hmem.mp hany) hr.2
      · rfl
    rw [hsame]
    exact ⟨c, rfl, h, rfl, fun _ => rfl, rfl⟩
  · rename_i hany
    have hnot : (q, const) ∉ E p := fun hq => hany (hmem.mpr hq)
    obtain ⟨start, holds, hstart, hholds⟩ : ∃ start holds,
        start = (if handle.numHolds = 0 ∨ (handle.numHolds ≠ 0 ∧
          handle.holdsStart + handle.numHolds ≠ c.holds.length) then c.holds.length
          else handle.holdsStart) ∧
        holds = if handle.numHolds ≠ 0 ∧ handle.holdsStart + handle.numHolds ≠ c.holds.length then
          c.holds ++ c.holdsOf handle else c.holds := ⟨_, _, rfl, rfl⟩
    rw [← hstart, ← hholds]
    refine ⟨_, rfl, ?_⟩
    generalize hhandle' : { handle with holdsStart := start, numHolds := handle.numHolds + 1 } =
      handle'
    generalize hnew : (⟨held, loc, const⟩ : HoldChain) = new
    have hle := h.ok.segments handle (List.mem_of_getElem? hhandle)
    have hshape : (handle.numHolds = 0 ∧ start = c.holds.length ∧ holds = c.holds) ∨
        (start = c.holds.length ∧ holds = c.holds ++ c.holdsOf handle) ∨
        (start = handle.holdsStart ∧ handle.holdsStart + handle.numHolds = c.holds.length ∧
          holds = c.holds) := by
      by_cases hzero : handle.numHolds = 0
      · simp [hstart, hholds, hzero]
      · by_cases hend : handle.holdsStart + handle.numHolds = c.holds.length
        · simp [hstart, hholds, hzero, hend]
        · simp [hstart, hholds, hzero, hend]
    obtain ⟨hsegment, hinside⟩ := drop_take_add c.holds handle.holdsStart handle.numHolds
      new hle hshape
    obtain ⟨moved, hmoved, hcopied⟩ : ∃ moved, holds = c.holds ++ moved ∧
        ∀ hold ∈ moved, hold ∈ c.holds := by
      rcases hshape with ⟨-, -, rfl⟩ | ⟨-, rfl⟩ | ⟨-, -, rfl⟩
      · exact ⟨[], by simp, nofun⟩
      · exact ⟨_, rfl, fun hold hh => List.mem_of_mem_drop (List.mem_of_mem_take hh)⟩
      · exact ⟨[], by simp, nofun⟩
    have hset : ∀ i : Nat, i ≠ owner → (c.handles.set owner handle')[i]? = c.handles[i]? :=
      fun i hi => List.getElem?_set_ne hi.symm
    have hself : (c.handles.set owner handle')[owner]? = some handle' :=
      List.getElem?_set_self howner.lt
    generalize hc' : (⟨c.handles.set owner handle', holds ++ [new], c.pars⟩ : Checker) = c'
    have hhandles : c'.handles = c.handles.set owner handle' := by rw [← hc']
    have hcholds : c'.holds = holds ++ [new] := by rw [← hc']
    have hsame : SamePars c c' := by
      refine ⟨fun i => ?_, by rw [hhandles, List.length_set]⟩
      rw [Checker.parOf, Checker.parOf, hhandles]
      by_cases hi : i = owner
      · rw [hi, hself, hhandle, ← hhandle']
        rfl
      · rw [hset i hi]
    -- segments of other handles stay where they are
    have hother : ∀ h' : Handle, h'.holdsStart + h'.numHolds ≤ c.holds.length →
        c'.holdsOf h' = c.holdsOf h' := by
      intro h' hle'
      rw [Checker.holdsOf, Checker.holdsOf, hcholds, hmoved, List.append_assoc,
        take_drop_append hle']
    have howned : c'.holdsOf handle' = c.holdsOf handle ++ [new] := by
      rw [Checker.holdsOf, hcholds, ← hhandle']
      exact hsegment
    have hok : c'.Ok := by
      refine ⟨fun i j par hi hj => ?_, fun i hi => ?_, fun h' hh' => ?_, fun hold hh => ?_⟩
      · rw [hsame.pars] at hi hj
        exact h.ok.distinct i j par hi hj
      · rw [hsame.length] at hi
        obtain ⟨r, hr⟩ := h.ok.denotes i hi
        exact ⟨r, hsame.denotes.mpr hr⟩
      · rw [hhandles] at hh'
        rw [hcholds]
        rcases List.mem_or_eq_of_mem_set hh' with hold | rfl
        · have := h.ok.segments h' hold
          rw [hmoved, List.length_append, List.length_append]
          omega
        · rw [← hhandle']
          exact hinside
      · rw [hcholds, hmoved, List.mem_append, List.mem_append, List.mem_singleton] at hh
        rw [hsame.length]
        rcases hh with (hh | hh) | rfl
        · exact h.ok.held hold hh
        · exact h.ok.held hold (hcopied hold hh)
        · rw [← hnew]
          exact hheld.lt
    refine ⟨⟨hok, fun i h' r hi hr => ?_, fun r hr => ?_⟩, by rw [← hc'], hsame⟩
    · have hr' := hsame.denotes.mp hr
      rw [hhandles] at hi
      by_cases howner' : i = owner
      · subst howner'
        rw [hself] at hi
        cases hi
        have hrp : r = p := hr'.unique howner
        subst hrp
        rw [howned, Holds.add, if_pos ⟨rfl, hnot⟩]
        refine List.rel_append (hedges.imp fun _ _ he => he.mono hsame.extends_) ?_
        refine .cons ⟨hsame.denotes.mpr ?_, ?_⟩ .nil
        · rw [← hnew]
          exact hheld
        · rw [← hnew]
      · rw [hset i howner'] at hi
        have hrp : r ≠ p := fun heq => howner' (hr'.inj h.ok (heq ▸ howner))
        rw [hother h' (h.ok.segments h' (List.mem_of_getElem? hi)), Holds.add,
          if_neg (fun hand => hrp hand.1)]
        exact (h.edges i h' r hi hr').imp fun _ _ he => he.mono hsame.extends_
    · have hrp : r ≠ p := fun heq => hr owner (hsame.denotes.mpr (heq ▸ howner))
      rw [Holds.add, if_neg (fun hand => hrp hand.1)]
      exact h.unknown r fun i hi => hr i (hsame.denotes.mpr hi)

theorem rep_clearHolds (h : c.Ok) : Rep c.clearHolds fun _ => [] := by
  have hsame : SamePars c c.clearHolds := by
    refine ⟨fun i => ?_, by simp [Checker.clearHolds]⟩
    simp only [Checker.parOf, Checker.clearHolds, List.getElem?_map, Option.map_map]
    rfl
  refine ⟨⟨fun i j par hi hj => ?_, fun i hi => ?_, fun h' hh' => ?_, nofun⟩, fun i h' q hi hq => ?_,
    fun _ _ => rfl⟩
  · rw [hsame.pars] at hi hj
    exact h.distinct i j par hi hj
  · rw [hsame.length] at hi
    obtain ⟨q, hq⟩ := h.denotes i hi
    exact ⟨q, hsame.denotes.mpr hq⟩
  · obtain ⟨old, -, rfl⟩ := List.mem_map.mp hh'
    exact Nat.zero_le _
  · simp [Checker.holdsOf, Checker.clearHolds]

end Rep

end TreeVM
