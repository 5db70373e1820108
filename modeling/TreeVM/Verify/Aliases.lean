import TreeVM.Verify.CallSites

/-!
# What a rejected call has in common

`borrow_check` rejects a call when its walk comes to a place that is in use.

* `Touches`: what a place is part of, has or holds; `Crosses`: two arguments touch one place;
* `Doubles`: one argument comes to a place twice;
* `rejects_iff`: a rejection is a clash of the walk; `rejects_cases`: why it is one;
* `rejection_crosses_iff`: when a rejection involves two arguments.
-/

namespace TreeVM

section Reach

variable (ctx : Context) (func : Func) (E : Holds)

/-- A place reaches its fields, the array it is a member of, and what it holds. -/
inductive Touches : Lval → Lval → Prop
  | refl (p) : Touches p p
  | field {p q r} : Touches p q → r ∈ lvalFields ctx func q → Touches p r
  | member {p q} : Touches p (.elem q) → Touches p q
  | hold {p q e} : Touches p q → e ∈ E q → Touches p e.1

/-- Two positions, of which the first is an output or a mut input, reach a common place. -/
def Crosses (places : List Lval) (alone : List Bool) : Prop :=
  ∃ (i j : Nat) (p q r : Lval), i ≠ j ∧ places[i]? = some p ∧ alone[i]? = some true ∧
    places[j]? = some q ∧ Touches ctx func E p r ∧ Touches ctx func E q r

/-- The borrow of an output or a mut input on its own comes to one place twice, and not only
through views. -/
def Doubles (places : List Lval) (alone : List Bool) : Prop :=
  ∃ (i : Nat) (p : Lval) (V : List Visit) (u v : Visit), places[i]? = some p ∧
    alone[i]? = some true ∧
    Walks.Into Visit.redirect (Visit.kids ctx func E) [⟨i, p, true⟩] V v ∧ u ∈ V ∧ u.clash v

end Reach

/-! ## Visits and positions -/

section Positions

variable {ctx : Context} {func : Func} {E : Holds} {places : List Lval} {alone : List Bool}

/-- What a visit has from the argument it belongs to. -/
def Visit.From (ctx : Context) (func : Func) (E : Holds) (x v : Visit) : Prop :=
  v.arg = x.arg ∧ Touches ctx func E x.place v.place ∧ (v.unique = true → x.unique = true)

theorem Visit.From.kids {x v : Visit} (h : v.From ctx func E x) :
    ∀ w ∈ Visit.kids ctx func E x, v.From ctx func E w := by
  obtain ⟨harg, hreach, hunique⟩ := h
  intro w hw
  rcases List.mem_append.mp hw with hw | hw
  · obtain ⟨e, he, rfl⟩ := List.mem_map.mp hw
    refine ⟨harg, hreach.hold he, fun hand => ?_⟩
    exact hunique (Bool.and_eq_true_iff.mp hand).1
  · obtain ⟨q, hq, rfl⟩ := List.mem_map.mp hw
    exact ⟨harg, hreach.field hq, hunique⟩

theorem Visit.From.redirect {x v w : Visit} (hr : Visit.redirect x = some w)
    (h : v.From ctx func E x) : v.From ctx func E w := by
  obtain ⟨harg, hreach, hunique⟩ := h
  rw [Visit.redirect] at hr
  split at hr
  · rename_i p hplace
    cases hr
    rw [hplace] at hreach
    exact ⟨harg, hreach.member, hunique⟩
  · cases hr

/-- A visit on the way from a list of arguments comes from one of them. -/
theorem into_from {xs V : List Visit} {v : Visit}
    (h : Walks.Into Visit.redirect (Visit.kids ctx func E) xs V v) :
    ∀ u ∈ v :: V, ∃ x ∈ xs, x.From ctx func E u := by
  have hkids : ∀ u, (∃ x ∈ xs, x.From ctx func E u) → ∀ w ∈ Visit.kids ctx func E u,
      ∃ x ∈ xs, x.From ctx func E w := fun u ⟨x, hx, hfrom⟩ w hw => ⟨x, hx, hfrom.kids w hw⟩
  have hredirect : ∀ u w, Visit.redirect u = some w → (∃ x ∈ xs, x.From ctx func E u) →
      ∃ x ∈ xs, x.From ctx func E w := fun u w hr ⟨x, hx, hfrom⟩ => ⟨x, hx, hfrom.redirect hr⟩
  have hxs : ∀ x ∈ xs, ∃ y ∈ xs, y.From ctx func E x := fun x hx =>
    ⟨x, hx, rfl, .refl x.place, id⟩
  exact List.forall_mem_cons.mpr
    ⟨h.forall_target hkids hredirect hxs, h.forall hkids hredirect hxs⟩

theorem visits_from {xs V : List Visit}
    (h : Walks.Visits Visit.redirect (Visit.kids ctx func E) xs V) :
    ∀ u ∈ V, ∃ x ∈ xs, x.From ctx func E u :=
  h.forall (fun _ ⟨x, hx, hfrom⟩ w hw => ⟨x, hx, hfrom.kids w hw⟩)
    (fun _ _ hr ⟨x, hx, hfrom⟩ => ⟨x, hx, hfrom.redirect hr⟩)
    fun x hx => ⟨x, hx, rfl, .refl x.place, id⟩

/-- A clash within one argument -/
theorem doubles_of_clash {V : List Visit} {u v : Visit}
    (h : Walks.Into Visit.redirect (Visit.kids ctx func E) (argVisits 0 places alone) V v)
    (hu : u ∈ V) (hclash : u.clash v) (harg : u.arg = v.arg) : Doubles ctx func E places alone := by
  obtain ⟨x, hx, hxarg, -, hxunique⟩ := into_from h v List.mem_cons_self
  obtain ⟨k, hk, hp, hw⟩ := mem_argVisits hx
  obtain ⟨A, B, heq, hA, hB⟩ := argVisits_split (i := 0) hp hw
  rw [Nat.zero_add] at hk heq hA hB
  -- the first part of the walk belongs to other arguments
  have hone : ∀ W, Walks.Into Visit.redirect (Visit.kids ctx func E)
      [⟨k, x.place, x.unique⟩] W v → u ∈ W → Doubles ctx func E places alone := by
    intro W hW huW
    obtain ⟨y, hy, -, -, hyunique⟩ := into_from hW u (List.mem_cons_of_mem _ huW)
    rw [List.mem_singleton.mp hy] at hyunique
    have halone : x.unique = true := hclash.2.elim hyunique hxunique
    rw [halone] at hw hW
    exact ⟨k, x.place, W, u, v, hp, hw, hW, huW, hclash⟩
  rw [heq] at h
  rcases h.split with hleft | ⟨U, W, hU, hright, rfl⟩
  · obtain ⟨y, hy, hyarg, -⟩ := into_from hleft v List.mem_cons_self
    have := hA y hy
    omega
  · have huW : u ∈ W := by
      rcases List.mem_append.mp hu with hu | hu
      · obtain ⟨y, hy, hyarg, -⟩ := visits_from hU u hu
        have := hA y hy
        omega
      · exact hu
    rw [← List.singleton_append] at hright
    rcases hright.split with hself | ⟨U', W', -, hrest, -⟩
    · exact hone W hself huW
    · obtain ⟨y, hy, hyarg, -⟩ := into_from hrest v List.mem_cons_self
      have := hB y hy
      omega

/-- A clash between two arguments -/
theorem crosses_of_clash {V : List Visit} {u v : Visit}
    (h : Walks.Into Visit.redirect (Visit.kids ctx func E) (argVisits 0 places alone) V v)
    (hu : u ∈ V) (hclash : u.clash v) (harg : u.arg ≠ v.arg) : Crosses ctx func E places alone := by
  obtain ⟨x, hx, hxarg, hxreach, hxunique⟩ := into_from h v List.mem_cons_self
  obtain ⟨y, hy, hyarg, hyreach, hyunique⟩ := into_from h u (List.mem_cons_of_mem _ hu)
  obtain ⟨k, hk, hp, hw⟩ := mem_argVisits hx
  obtain ⟨l, hl, hq, hz⟩ := mem_argVisits hy
  rw [hclash.1] at hyreach
  have hne : k ≠ l := by omega
  rcases hclash.2 with hunique | hunique
  · rw [hyunique hunique] at hz
    exact ⟨l, k, y.place, x.place, v.place, hne.symm, hq, hz, hp, hyreach, hxreach⟩
  · rw [hxunique hunique] at hw
    exact ⟨k, l, x.place, y.place, v.place, hne, hp, hw, hq, hxreach, hyreach⟩

/-- An argument that comes to a place twice makes the whole walk clash. -/
theorem doubles_not_clear {V : List Visit}
    (hV : Walks.Visits Visit.redirect (Visit.kids ctx func E) (argVisits 0 places alone) V)
    (hclear : Walks.Clear Visit.clash [] V) : ¬ Doubles ctx func E places alone := by
  rintro ⟨i, p, W, u, v, hp, hw, hinto, hu, hclash⟩
  obtain ⟨A, B, heq, -, -⟩ := argVisits_split (i := 0) hp hw
  rw [Nat.zero_add] at heq
  rw [heq] at hV
  obtain ⟨U, V', -, hV', rfl⟩ := hV.split
  rw [← List.singleton_append] at hV'
  obtain ⟨X, Y, hX, -, rfl⟩ := hV'.split
  obtain ⟨R, rfl⟩ := hinto.split_visits hX
  have hpair := hclear.2
  rw [List.pairwise_append, List.pairwise_append, List.pairwise_append] at hpair
  exact hpair.2.1.1.2.2 u hu v List.mem_cons_self hclash

end Positions

/-! ## The check of a call -/

section Check

variable (ctx : Context) (func : Func) (loc : CodeLoc) (op : Op) (c : Checker)

/-- The check of the call ends with an error. -/
def Rejects : Prop :=
  ∃ fuel f, borrowCheckCall ctx func loc fuel op c = .error f ∧ f ≠ .outOfFuel

/-- The mut inputs of the call are no portals. -/
def MutNoPortals (sig : Sig) (skip : Nat) : Prop :=
  ∀ (i par : Nat) (input : SigInput), (c.args skip sig.argc)[sig.outs.length + i]? = some par →
    sig.ins[i]? = some input → input.isMut = true → parIsPortal ctx func c par = false

variable {ctx func loc op c} {E : Holds} {ps : List Lval} {sig : Sig} {skip : Nat}

theorem noPortals (hs : c.Stack ps) (hmut : MutNoPortals ctx func c sig skip)
    (hargs : ArgsOk func sig ((ps.map (lvalType ctx func)).drop skip)) :
    List.Forall₂ (fun p (input : SigInput) => input.isMut = true → NoPortal ctx func p)
      ((argPlaces ps sig skip).drop sig.outs.length) sig.ins := by
  have htypes := argPlaces_types hargs
  have hlen : (argPlaces ps sig skip).length = sig.argc := by
    rw [← sig.length_args, ← htypes, List.length_map]
  refine List.forall₂_iff_get.mpr ⟨by rw [List.length_drop, hlen, Sig.argc]; omega, ?_⟩
  intro i hi hi' hin
  rw [List.length_drop] at hi
  have hp : (argPlaces ps sig skip)[sig.outs.length + i]? =
      some (((argPlaces ps sig skip).drop sig.outs.length).get ⟨i, by simpa using hi⟩) := by
    rw [List.get_eq_getElem, List.getElem_drop]
    exact List.getElem?_eq_getElem (by omega)
  generalize ((argPlaces ps sig skip).drop sig.outs.length).get ⟨i, by simpa using hi⟩ = p at hp ⊢
  obtain ⟨par, hpar, hdenotes⟩ := forall₂_getElem? (args_stack hs skip sig.argc).flip hp
  have hportal := hmut i par _ hpar (List.getElem?_eq_getElem hi') hin
  -- the type is one of the signature, and valid
  have hvalid : lvalType ctx func p < func.types.length := by
    refine hargs.2.2 _ ?_
    rw [← htypes]
    exact List.mem_map_of_mem (List.mem_of_getElem? hp)
  refine ⟨_, List.getElem?_eq_getElem hvalid, ?_⟩
  rw [parIsPortal_eq hdenotes, List.getElem?_eq_getElem hvalid] at hportal
  exact hportal

/-- The check of a call is the walk from its arguments. -/
theorem borrowCheckCall_mirrors {fuel : Nat} (hrep : Rep c E) (hs : c.Stack ps)
    (hcalled : calledSig ctx func op c = some (sig, skip))
    (hargs : ArgsOk func sig ((ps.map (lvalType ctx func)).drop skip))
    (hmut : MutNoPortals ctx func c sig skip) :
    ∃ s, borrowCheckCall ctx func loc fuel op c = s.map Borrow.checker ∧
      Mirrors E c (Walks.walkAll (borrowWalk E ctx func fuel)
        (argVisits 0 (argPlaces ps sig skip) sig.alone) []) s := by
  have henough := hargs.1
  rw [List.length_drop, List.length_map, ← hs.length_eq] at henough
  have hlen : (argPlaces ps sig skip).length = sig.argc := by
    rw [← sig.length_args, ← argPlaces_types hargs, List.length_map]
  have hskip := calledSig_skip hcalled
  rw [borrowCheckCall_eq hcalled, if_neg (by omega)]
  exact borrowCheckSig_mirrors hrep (args_stack hs skip sig.argc) hlen (noPortals hs hmut hargs)

/-- The check of a call ends with an error where the walk clashes. -/
theorem rejects_iff (hrep : Rep c E) (hs : c.Stack ps)
    (hcalled : calledSig ctx func op c = some (sig, skip))
    (hargs : ArgsOk func sig ((ps.map (lvalType ctx func)).drop skip))
    (hmut : MutNoPortals ctx func c sig skip) :
    Rejects ctx func loc op c ↔ ∃ fuel, Walks.walkAll (borrowWalk E ctx func fuel)
      (argVisits 0 (argPlaces ps sig skip) sig.alone) [] = .error .clash := by
  constructor
  · rintro ⟨fuel, f, h, hf⟩
    refine ⟨fuel, ?_⟩
    obtain ⟨s, hs, hmirrors⟩ := @borrowCheckCall_mirrors ctx func loc op c E ps sig skip fuel hrep hs
      hcalled hargs hmut
    rw [hs] at h
    generalize Walks.walkAll _ _ _ = r at hmirrors ⊢
    cases hmirrors with
    | ok _ _ _ => cases h
    | clash => rfl
    | outOfFuel =>
        cases h
        exact absurd rfl hf
  · rintro ⟨fuel, h⟩
    obtain ⟨s, hs, hmirrors⟩ := @borrowCheckCall_mirrors ctx func loc op c E ps sig skip fuel hrep hs
      hcalled hargs hmut
    rw [h] at hmirrors
    cases hmirrors with
    | @clash e => exact ⟨fuel, .aliasError e, hs, by simp⟩

/-- A call is rejected if two arguments have a place in common, or one comes to a place twice. -/
theorem rejects_cases (hrep : Rep c E) (hs : c.Stack ps)
    (hcalled : calledSig ctx func op c = some (sig, skip))
    (hargs : ArgsOk func sig ((ps.map (lvalType ctx func)).drop skip))
    (hmut : MutNoPortals ctx func c sig skip) (h : Rejects ctx func loc op c) :
    ¬ Unending ctx func E (argVisits 0 (argPlaces ps sig skip) sig.alone) ∧ (Crosses ctx func E (argPlaces ps sig skip) sig.alone ∨
      Doubles ctx func E (argPlaces ps sig skip) sig.alone) := by
  obtain ⟨fuel, hclash⟩ := (rejects_iff hrep hs hcalled hargs hmut).mp h
  refine ⟨(Walks.ends_iff_not_endless redirect_size).mp ⟨fuel, ?_⟩, ?_⟩
  · rw [borrowWalk] at hclash
    rw [hclash]
    intro hfuel
    cases hfuel
  · obtain ⟨V, v, hinto, u, hu, hclash⟩ := Walks.into_of_clash hclash
    rw [List.append_nil, List.mem_reverse] at hu
    by_cases harg : u.arg = v.arg
    · exact .inr (doubles_of_clash hinto hu hclash harg)
    · exact .inl (crosses_of_clash hinto hu hclash harg)

theorem rejects_of_doubles (hrep : Rep c E) (hs : c.Stack ps)
    (hcalled : calledSig ctx func op c = some (sig, skip))
    (hargs : ArgsOk func sig ((ps.map (lvalType ctx func)).drop skip))
    (hmut : MutNoPortals ctx func c sig skip)
    (hends : ¬ Unending ctx func E (argVisits 0 (argPlaces ps sig skip) sig.alone))
    (h : Doubles ctx func E (argPlaces ps sig skip) sig.alone) : Rejects ctx func loc op c := by
  obtain ⟨fuel, hfuel⟩ := (Walks.ends_iff_not_endless redirect_size).mpr hends
  refine (rejects_iff hrep hs hcalled hargs hmut).mpr ⟨fuel, ?_⟩
  rw [borrowWalk]
  cases hwalk : Walks.walkAll (Walks.walk Visit.redirect (Visit.kids ctx func E) Visit.clash fuel)
      (argVisits 0 (argPlaces ps sig skip) sig.alone) [] with
  | ok log =>
      obtain ⟨V, hV, hclear, -⟩ := Walks.visits_of_walk hwalk
      exact absurd h (doubles_not_clear hV hclear)
  | error e =>
      cases e with
      | clash => rfl
      | outOfFuel => exact absurd hwalk hfuel

end Check

/-- In a function that the first pass accepts, a call without portals as mut inputs is rejected
only for two arguments that reach a common place, exactly if they do in case the walk from the
arguments is finite and some output or mut input comes to one place twice. -/
theorem rejection_crosses_iff {ctx : Context} {fuel n : Nat} {c₀ c : Checker} (h₀ : c₀.Ok)
    (hfirst : firstPass ctx fuel c₀ = .ok c) {site : Site}
    (hmeets : Meets ctx (borrowHandler ctx n) fuel c site) {func : Func}
    (hfunc : ctx.funcs[site.current]? = some func) {sig : Sig} {skip : Nat}
    (hcalled : calledSig ctx func site.op site.checker = some (sig, skip))
    (hmut : MutNoPortals ctx func site.checker sig skip) :
    ∃ E places, Rep site.checker E ∧
      List.Forall₂ site.checker.Denotes (site.checker.args skip sig.argc) places ∧
      ((Rejects ctx func site.loc site.op site.checker → Crosses ctx func E places sig.alone) ↔
        (¬ Unending ctx func E (argVisits 0 places sig.alone) →
          Doubles ctx func E places sig.alone → Crosses ctx func E places sig.alone)) := by
  obtain ⟨func', E, ps, hfunc', -, hrep, hs, htypes⟩ := hmeets.typed h₀ hfirst
  rw [hfunc] at hfunc'
  cases hfunc'
  have hargs := calledSig_argsOk hs hcalled htypes
  refine ⟨E, argPlaces ps sig skip, hrep, args_stack hs skip sig.argc, fun h hends hdoubles => ?_,
    fun h hrejects => ?_⟩
  · exact h (rejects_of_doubles hrep hs hcalled hargs hmut hends hdoubles)
  · obtain ⟨hends, hcrosses | hdoubles⟩ := rejects_cases hrep hs hcalled hargs hmut hrejects
    · exact hcrosses
    · exact h hends hdoubles

/-! ## A slice that holds its backing twice -/

section SharedBacking

def sharedTypes : List Ty :=
  (layoutAll [{ kind := .int }, { kind := .byte }, { kind := .slice intId }]).getD []

/-- A function with a slice as output. -/
def sliceCallee : Func where
  sig := ⟨[], [2]⟩
  types := sharedTypes
  blocks := [.basic ⟨0, 0⟩]
  ops := []
  vars := [2]

/-- Two slices are made of local 1, and one is assigned to the other, which is the only argument of
a call. -/
def sharedCaller : Func where
  sig := ⟨[], []⟩
  types := sharedTypes
  blocks := [.var 1 1, .var 2 2, .var 0 3, .basic ⟨0, 8⟩]
  ops := [⟨.pushVar, 0⟩, ⟨.pushVar, 1⟩, ⟨.sliceFromOne, 0⟩, ⟨.pushVar, 2⟩, ⟨.pushVar, 1⟩,
    ⟨.sliceFromOne, 0⟩, ⟨.assign, 0⟩, ⟨.call, 0⟩]
  vars := [2, 0, 2]

def sharedBacking : Context where
  funcs := [sliceCallee, sharedCaller]
  globals := []

/-- The checker after the first pass. -/
def sharedChecker : Checker where
  handles := [⟨⟨.localVar, 0, 0⟩, .free, 2, 2⟩, ⟨⟨.localVar, 1, 0⟩, .free, 0, 0⟩,
    ⟨⟨.localVar, 2, 0⟩, .free, 1, 1⟩]
  holds := [⟨1, ⟨3, 2⟩, false⟩, ⟨1, ⟨3, 5⟩, false⟩, ⟨1, ⟨3, 2⟩, false⟩, ⟨2, ⟨3, 6⟩, false⟩]
  pars := []

/-- The call of `sliceCallee` -/
def sharedSite : Site where
  current := 1
  state := ⟨3, [3, 1, 2]⟩
  op := ⟨.call, 0⟩
  loc := ⟨3, 7⟩
  checker := { sharedChecker with pars := [0] }

theorem sharedBacking_firstPass : firstPass sharedBacking 20 {} = .ok sharedChecker := by
  decide

theorem sharedSite_meets : Meets sharedBacking (borrowHandler sharedBacking 20) 20 sharedChecker
    sharedSite :=
  ⟨.error .rejected, by decide⟩

theorem sharedSite_mut : MutNoPortals sharedBacking sharedCaller sharedSite.checker ⟨[], [2]⟩ 0 := by
  intro i par input _ hinput
  cases hinput

/-- A call with one argument is rejected, and there is no second one. -/
theorem sharedBacking_rejected : ∃ c site func sig skip,
    firstPass sharedBacking 20 {} = .ok c ∧
      Meets sharedBacking (borrowHandler sharedBacking 20) 20 c site ∧
      sharedBacking.funcs[site.current]? = some func ∧
      calledSig sharedBacking func site.op site.checker = some (sig, skip) ∧
      MutNoPortals sharedBacking func site.checker sig skip ∧
      Rejects sharedBacking func site.loc site.op site.checker ∧
      ∀ E places, List.Forall₂ site.checker.Denotes (site.checker.args skip sig.argc) places →
        ¬ Crosses sharedBacking func E places sig.alone := by
  refine ⟨sharedChecker, sharedSite, sharedCaller, ⟨[], [2]⟩, 0, sharedBacking_firstPass,
    sharedSite_meets, rfl, rfl, sharedSite_mut,
    ⟨20, .aliasError ⟨2, 1, ⟨3, 7⟩⟩, by decide, by decide⟩, fun E places hplaces => ?_⟩
  rintro ⟨i, j, p, q, r, hne, hp, -, hq, -, -⟩
  have hlen : places.length = 1 := hplaces.length_eq.symm
  have hi := (List.getElem?_eq_some_iff.mp hp).1
  have hj := (List.getElem?_eq_some_iff.mp hq).1
  omega

end SharedBacking

/-! ## One local for two outputs -/

section TwiceHanded

/-- A function with two `int`s as outputs -/
def twoOutputs : Func where
  sig := ⟨[], [intId, intId]⟩
  types := sharedTypes
  blocks := [.basic ⟨0, 0⟩]
  ops := []
  vars := [intId, intId]

def twiceCaller : Func where
  sig := ⟨[], []⟩
  types := sharedTypes
  blocks := [.var 0 1, .basic ⟨0, 3⟩]
  ops := [⟨.pushVar, 0⟩, ⟨.pushVar, 0⟩, ⟨.call, 0⟩]
  vars := [intId]

def twiceHanded : Context where
  funcs := [twoOutputs, twiceCaller]
  globals := []

def twiceChecker (pars : List Nat) : Checker where
  handles := [⟨⟨.localVar, 0, 0⟩, .free, 0, 0⟩]
  pars := pars

/-- The call of `twoOutputs` -/
def twiceSite : Site where
  current := 1
  state := ⟨1, [1]⟩
  op := ⟨.call, 0⟩
  loc := ⟨1, 2⟩
  checker := twiceChecker [0, 0]

theorem twiceHanded_firstPass : firstPass twiceHanded 20 {} = .ok (twiceChecker []) := by
  decide

theorem twiceSite_meets : Meets twiceHanded (borrowHandler twiceHanded 20) 20 (twiceChecker []) twiceSite :=
  ⟨.error .rejected, by decide⟩

theorem twiceSite_mut :
    MutNoPortals twiceHanded twiceCaller twiceSite.checker ⟨[], [intId, intId]⟩ 0 := by
  intro i par input _ hinput
  cases hinput

/-- The local holds nothing and has no fields, so its borrow comes to one place only. -/
theorem twice_not_doubles {E : Holds} {places : List Lval} (hrep : Rep twiceSite.checker E)
    (hplaces : List.Forall₂ twiceSite.checker.Denotes (twiceSite.checker.args 0 2) places) :
    ¬ Doubles twiceHanded twiceCaller E places [true, true] := by
  have hvar : twiceSite.checker.Denotes 0 (.var 0) := .var rfl
  have hall : ∀ p ∈ places, p = .var 0 := by
    intro p hp
    obtain ⟨idx, hidx, hdenotes⟩ := forall₂_right hplaces hp
    obtain rfl : idx = 0 := by simpa [twiceSite, twiceChecker, Checker.args] using hidx
    exact hdenotes.unique hvar
  have hholds : E (.var 0) = [] := List.forall₂_nil_left_iff.mp (hrep.edges 0 _ _ rfl hvar)
  rintro ⟨i, p, V, u, v, hp, -, hinto, hu, -⟩
  obtain rfl := hall p (List.mem_of_getElem? hp)
  have hkids : Visit.kids twiceHanded twiceCaller E ⟨i, .var 0, true⟩ = [] := by
    rw [Visit.kids, hholds]
    rfl
  cases hinto with
  | here => cases hu
  | redirect hr => cases hr
  | down _ hinto =>
      rw [hkids] at hinto
      cases hinto
  | next _ _ hinto => cases hinto

theorem rejection_crosses_iff_twice :
    Rejects twiceHanded twiceCaller ⟨1, 2⟩ ⟨.call, 0⟩ twiceSite.checker ∧
      ∃ E places, Rep twiceSite.checker E ∧
        List.Forall₂ twiceSite.checker.Denotes (twiceSite.checker.args 0 2) places ∧
        Crosses twiceHanded twiceCaller E places [true, true] := by
  have hcalled : calledSig twiceHanded twiceCaller twiceSite.op twiceSite.checker =
      some (⟨[], [intId, intId]⟩, 0) := rfl
  have hrejects : Rejects twiceHanded twiceCaller ⟨1, 2⟩ ⟨.call, 0⟩ twiceSite.checker :=
    ⟨20, .aliasError ⟨0, 0, ⟨1, 2⟩⟩, by decide, by decide⟩
  obtain ⟨E, places, hrep, hplaces, hiff⟩ := rejection_crosses_iff ok_empty twiceHanded_firstPass
    twiceSite_meets rfl hcalled twiceSite_mut
  exact ⟨hrejects, E, places, hrep, hplaces,
    hiff.mpr (fun _ hdoubles => absurd hdoubles (twice_not_doubles hrep hplaces)) hrejects⟩

end TwiceHanded

end TreeVM
