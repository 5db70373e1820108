import TreeVM.Verify.Borrows
import TreeVM.Verify.Scans

/-!
# The calls of an accepted function

Before `borrow_check` looks at the calls, the first pass has accepted every operation.

* `firstPassOp_keeps`, `borrowCheckCall_keeps`: what a step of either pass keeps;
* `Meets.typed`: at every operation the second pass comes to, the types of the stack have been
  checked and the hold edges are those at the end of the first pass;
* `calledSig`, `borrowCheckCall_mirrors`: the borrows of a call are a walk from its arguments.
-/

namespace TreeVM

section Steps

variable {ctx : Context} {func : Func} {state : ScanState} {op : Op} {loc : CodeLoc} {E : Holds}
  {c c' : Checker} {ps : List Lval}

theorem Checker.Stack.of_samePars (h : c.Stack ps) (hsame : SamePars c c')
    (hpars : c'.pars = c.pars) : c'.Stack ps := by
  rw [Checker.Stack, hpars]
  exact h.imp fun _ _ hp => hsame.denotes.mpr hp

/-! ## The first pass -/

/-- A new hold edge between two entries of the stack -/
theorem addHold_keeps (hrep : Rep c E) (hs : c.Stack ps) {owner held : Nat} {p q : Lval}
    {const : Bool} (howner : c.Denotes owner p) (hheld : c.Denotes held q)
    (h : c.addHold owner held loc const = .ok c') : (∃ E', Rep c' E') ∧ c'.Stack ps := by
  obtain ⟨c₁, hadd, hrep', hpars, hsame⟩ := hrep.addHold howner hheld loc const
  rw [h] at hadd
  cases hadd
  exact ⟨⟨_, hrep'⟩, hs.of_samePars hsame hpars⟩

theorem holdSliceFromAr_keeps (hrep : Rep c E) (hs : c.Stack ps)
    (h : holdSliceFromAr ctx func state op loc c = .ok c') :
    (∃ E', Rep c' E') ∧ c'.Stack ps := by
  rw [holdSliceFromAr] at h
  split at h
  · rename_i arr ref rest hpars
    have hstack := hs
    rw [Checker.Stack, hpars] at hstack
    obtain - | ⟨harr, hstack⟩ := hstack
    obtain - | ⟨href, -⟩ := hstack
    split at h
    · obtain ⟨_, -, h⟩ := bind_eq_ok.mp h
      exact addHold_keeps hrep hs href harr h
    · obtain ⟨_, -, h⟩ := bind_eq_ok.mp h
      exact addHold_keeps hrep hs href harr h
    · cases h
  · cases h

theorem holdSliceFromOne_keeps (hrep : Rep c E) (hs : c.Stack ps)
    (h : holdSliceFromOne ctx func state op loc c = .ok c') :
    (∃ E', Rep c' E') ∧ c'.Stack ps := by
  rw [holdSliceFromOne] at h
  split at h
  · rename_i elem ref rest hpars
    have hstack := hs
    rw [Checker.Stack, hpars] at hstack
    obtain - | ⟨helem, hstack⟩ := hstack
    obtain - | ⟨href, -⟩ := hstack
    obtain ⟨_, -, h⟩ := bind_eq_ok.mp h
    exact addHold_keeps hrep hs href helem h
  · cases h

theorem holdAssign_keeps (hrep : Rep c E) (hs : c.Stack ps)
    (h : holdAssign ctx func state op loc c = .ok c') : (∃ E', Rep c' E') ∧ c'.Stack ps := by
  rw [holdAssign] at h
  split at h
  · rename_i src dst rest hpars
    have hstack := hs
    rw [Checker.Stack, hpars] at hstack
    obtain - | ⟨hsrc, hstack⟩ := hstack
    obtain - | ⟨hdst, -⟩ := hstack
    split at h
    · cases h
      exact ⟨⟨E, hrep⟩, hs⟩
    · split at h
      · cases h
      · split at h
        · obtain ⟨_, -, h⟩ := bind_eq_ok.mp h
          exact addHold_keeps hrep hs hdst hsrc h
        · cases h
          exact ⟨⟨E, hrep⟩, hs⟩
  · cases h

/-- A step of the first pass has checked the types, and only adds hold edges. -/
theorem firstPassOp_keeps (hrep : Rep c E) (hs : c.Stack ps)
    (h : firstPassOp ctx func state op loc c = .ok c') :
    typeCheckOp ctx func op loc c = .ok () ∧ (∃ E', Rep c' E') ∧ c'.Stack ps := by
  rw [firstPassOp] at h
  obtain ⟨⟨⟩, htypes, h⟩ := bind_eq_ok.mp h
  refine ⟨htypes, ?_⟩
  split at h
  · exact holdSliceFromAr_keeps hrep hs h
  · exact holdSliceFromOne_keeps hrep hs h
  · exact holdAssign_keeps hrep hs h
  · cases h
    exact ⟨⟨E, hrep⟩, hs⟩

/-! ## The second pass -/

/-- The signature of a call, and how many entries are above its arguments. -/
def calledSig (ctx : Context) (func : Func) (op : Op) (c : Checker) : Option (Sig × Nat) :=
  match op.kind with
  | .call => (ctx.funcs[op.extra.toNat]?).map fun callee => (callee.sig, 0)
  | .callNativeOnStack => (nativeSigOnStack ctx func c).map fun sig => (sig, 1)
  | _ => none

theorem borrowCheckCall_eq {fuel : Nat} {sig : Sig} {skip : Nat}
    (h : calledSig ctx func op c = some (sig, skip)) :
    borrowCheckCall ctx func loc fuel op c =
      if c.pars.length < skip + sig.argc then .error .rejected
      else borrowCheckSig ctx func loc fuel sig (c.args skip sig.argc) c := by
  rw [calledSig] at h
  rw [borrowCheckCall]
  split at h
  · rename_i hkind
    obtain ⟨callee, hcallee, heq⟩ := Option.map_eq_some_iff.mp h
    cases heq
    simp only [hkind, hcallee, Nat.zero_add]
    rfl
  · rename_i hkind
    obtain ⟨sig', hsig, heq⟩ := Option.map_eq_some_iff.mp h
    cases heq
    simp only [hkind, hsig, Nat.add_comm 1]
    rfl
  · cases h

theorem borrowCheckCall_none {fuel : Nat} (h : calledSig ctx func op c = none)
    (hok : borrowCheckCall ctx func loc fuel op c = .ok c') : c' = c := by
  rw [calledSig] at h
  rw [borrowCheckCall] at hok
  split at h
  · rename_i hkind
    simp only [hkind, Option.map_eq_none_iff.mp h] at hok
    cases hok
  · rename_i hkind
    simp only [hkind, Option.map_eq_none_iff.mp h] at hok
    cases hok
  · rename_i hcall hnative
    split at hok
    · rename_i hkind
      exact absurd hkind hcall
    · rename_i hkind
      exact absurd hkind hnative
    · cases hok
      rfl

theorem args_stack (hs : c.Stack ps) (skip n : Nat) :
    List.Forall₂ c.Denotes (c.args skip n) ((ps.drop skip).take n).reverse := by
  rw [Checker.args, List.forall₂_reverse_iff]
  exact List.forall₂_take n (List.forall₂_drop skip hs)

theorem length_args_stack (hs : c.Stack ps) {skip n : Nat} (hlen : skip + n ≤ c.pars.length) :
    ((ps.drop skip).take n).reverse.length = n := by
  have := (args_stack hs skip n).length_eq
  rw [← this]
  exact length_args hlen

theorem borrowCheckCall_keeps {fuel : Nat} (hrep : Rep c E) (hs : c.Stack ps)
    (h : borrowCheckCall ctx func loc fuel op c = .ok c') : Rep c' E ∧ c'.Stack ps := by
  cases hcalled : calledSig ctx func op c with
  | none =>
      rw [borrowCheckCall_none hcalled h]
      exact ⟨hrep, hs⟩
  | some called =>
      obtain ⟨sig, skip⟩ := called
      rw [borrowCheckCall_eq hcalled] at h
      split at h
      · cases h
      · rename_i hlen
        obtain ⟨⟨hrep', hext, hpars⟩, -⟩ := borrowCheckSig_keeps hrep (args_stack hs skip sig.argc)
          (length_args_stack hs (Nat.not_lt.mp hlen)) h
        refine ⟨hrep', ?_⟩
        rw [Checker.Stack, hpars]
        exact hs.imp fun _ _ hp => hp.mono hext

/-! ## The arguments of a call -/

theorem calledSig_argsOk (hs : c.Stack ps) {sig : Sig} {skip : Nat}
    (hcalled : calledSig ctx func op c = some (sig, skip))
    (htypes : TypesOk ctx func op (ps.map (lvalType ctx func))) :
    ArgsOk func sig ((ps.map (lvalType ctx func)).drop skip) := by
  rw [calledSig] at hcalled
  split at hcalled
  · rename_i hkind
    obtain ⟨callee, hcallee, heq⟩ := Option.map_eq_some_iff.mp hcalled
    cases heq
    simp only [TypesOk, hkind] at htypes
    obtain ⟨callee', hcallee', hargs⟩ := htypes
    rw [hcallee] at hcallee'
    cases hcallee'
    exact hargs
  · rename_i hkind
    obtain ⟨sig', hsig, heq⟩ := Option.map_eq_some_iff.mp hcalled
    cases heq
    simp only [TypesOk, hkind] at htypes
    obtain ⟨fn, rest, sig', hfn, hkind', hargs⟩ := htypes
    rw [nativeSigOnStack_stack hs] at hsig
    cases ps with
    | nil => cases hfn
    | cons p ps =>
        cases hfn
        simp only [nativeSigOf, hkind', Option.some.injEq] at hsig
        subst hsig
        exact hargs
  · cases hcalled

theorem calledSig_skip {sig : Sig} {skip : Nat}
    (hcalled : calledSig ctx func op c = some (sig, skip)) :
    skip ≤ c.pars.length := by
  rw [calledSig] at hcalled
  split at hcalled
  · obtain ⟨callee, -, heq⟩ := Option.map_eq_some_iff.mp hcalled
    cases heq
    exact Nat.zero_le _
  · obtain ⟨sig', hsig, heq⟩ := Option.map_eq_some_iff.mp hcalled
    cases heq
    rw [nativeSigOnStack] at hsig
    cases hpars : c.pars with
    | nil =>
        rw [hpars] at hsig
        cases hsig
    | cons fn rest => exact Nat.le_add_left 1 _
  · cases hcalled

/-- The places of the arguments of a call -/
def argPlaces (ps : List Lval) (sig : Sig) (skip : Nat) : List Lval :=
  ((ps.drop skip).take sig.argc).reverse

theorem argPlaces_types {sig : Sig} {skip : Nat}
    (hargs : ArgsOk func sig ((ps.map (lvalType ctx func)).drop skip)) :
    (argPlaces ps sig skip).map (lvalType ctx func) = sig.args := by
  rw [argPlaces, List.map_reverse, List.map_take, List.map_drop]
  exact hargs.2.1

/-- Nothing is interned in the beginning. -/
theorem ok_empty : ({} : Checker).Ok where
  distinct := by simp [Checker.parOf]
  denotes := by simp
  segments := by simp
  held := by simp

end Steps

/-! ## From the first pass to the second -/

section Sites

variable {ctx : Context} {fuel n : Nat} {c c' : Checker} {site : Site}

/-- What the second pass does in front of an operation. -/
def borrowHandler (ctx : Context) (fuel : Nat) : ScanOp :=
  inFunc ctx fun func _ op loc c => borrowCheckCall ctx func loc fuel op c

theorem scanFuncs_clear (h : ScanOp) :
    scanFuncs ctx h fuel { c with pars := [] } = scanFuncs ctx h fuel c := by
  rw [scanFuncs, scanFuncs]
  cases ctx.funcs with
  | nil => rfl
  | cons func funcs => rfl

theorem scanFuncsFrom_pars {h : ScanOp} {current : Nat} {funcs : List Func}
    (hc : scanFuncsFrom ctx h fuel current funcs c = .ok c') : c'.pars = [] := by
  induction funcs generalizing current c with
  | nil =>
      cases hc
      rfl
  | cons func funcs ih =>
      rw [scanFuncsFrom] at hc
      obtain ⟨_, -, hc⟩ := bind_eq_ok.mp hc
      exact ih hc

theorem firstPass_alike :
    HandlersAlike OneTable (inFunc ctx (firstPassOp ctx)) (inFunc ctx (firstPassOp ctx))
      (inFunc ctx (firstPassOp ctx)) := by
  intro current state op loc c d hR c' hc'
  obtain ⟨rfl, ⟨E, hrep⟩, ps, hs⟩ := hR
  refine ⟨rfl, fun d' hd' => ?_⟩
  rw [hc'] at hd'
  cases hd'
  rw [inFunc] at hc'
  split at hc'
  · cases hc'
  · obtain ⟨-, hrep', hs'⟩ := firstPassOp_keeps hrep hs hc'
    exact ⟨rfl, hrep', ps, hs'⟩

/-- The first pass leaves a table of places with hold edges. -/
theorem firstPass_oneTable (h₀ : c.Ok) (h : firstPass ctx fuel c = .ok c') :
    (∃ E, Rep c' E) ∧ c'.pars = [] := by
  rw [firstPass, ← scanFuncs_clear] at h
  have hstart : OneTable { c.clearHolds with pars := [] } { c.clearHolds with pars := [] } :=
    ⟨rfl, ⟨_, (rep_clearHolds h₀).setPars []⟩, [], .nil⟩
  obtain ⟨-, hkeep⟩ := scanFuncs_alike scanRel_oneTable firstPass_alike hstart c' h
  exact ⟨(hkeep c' h).rep, scanFuncsFrom_pars h⟩

theorem passes_alike {F : Holds} : HandlersAlike (Paired F) (inFunc ctx (firstPassOp ctx))
    (borrowHandler ctx n) (borrowHandler ctx n) := by
  intro current state op loc c d hR c' hc'
  refine ⟨rfl, fun d' hd' => ?_⟩
  obtain ⟨⟨E, hrep⟩, hrep', ps, hs, hs'⟩ := hR
  rw [inFunc] at hc'
  rw [borrowHandler, inFunc] at hd'
  split at hc'
  · cases hc'
  · rename_i func hfunc
    simp only [hfunc] at hd'
    obtain ⟨-, hleft, hs⟩ := firstPassOp_keeps hrep hs hc'
    obtain ⟨hright, hs'⟩ := borrowCheckCall_keeps hrep' hs' hd'
    exact ⟨hleft, hright, ps, hs, hs'⟩

/-- Wherever the second pass comes to, the first one has checked the types of the same places, and
the handles record the hold edges of the first pass. -/
theorem Meets.typed (h₀ : c.Ok) (hfirst : firstPass ctx fuel c = .ok c')
    (hmeets : Meets ctx (borrowHandler ctx n) fuel c' site) :
    ∃ func E ps, ctx.funcs[site.current]? = some func ∧ Rep c' E ∧ Rep site.checker E ∧
      site.checker.Stack ps ∧ TypesOk ctx func site.op (ps.map (lvalType ctx func)) := by
  obtain ⟨⟨E, hrep⟩, hpars⟩ := firstPass_oneTable h₀ hfirst
  rw [firstPass, ← scanFuncs_clear] at hfirst
  have hstart : Paired E { c.clearHolds with pars := [] } c' := by
    refine ⟨⟨_, (rep_clearHolds h₀).setPars []⟩, hrep, [], .nil, ?_⟩
    rw [Checker.Stack, hpars]
    exact .nil
  obtain ⟨e, e', hR, he⟩ := hmeets.related scanRel_paired passes_alike hstart hfirst
  obtain ⟨⟨E', hleft⟩, hright, ps, hs, hs'⟩ := hR
  rw [inFunc] at he
  split at he
  · cases he
  · rename_i func hfunc
    obtain ⟨htypes, -, -⟩ := firstPassOp_keeps hleft hs he
    refine ⟨func, E, ps, hfunc, hrep, hright, hs', ?_⟩
    have hmap : e.pars.map (parType ctx func e) = ps.map (lvalType ctx func) := by
      refine List.forall₂_eq_eq_eq ▸ ?_
      rw [List.forall₂_map_left_iff, List.forall₂_map_right_iff]
      exact hs.imp fun _ _ hp => parType_eq hp
    rw [← hmap]
    exact typeCheckOp_ok.mp htypes

end Sites

end TreeVM
