import TreeVM.IR.TypeTable
import TreeVM.Verify.CallSites
import Mathlib.Data.Set.Finite.Lattice
import Mathlib.Data.Set.Finite.List

/-!
# Checks that do not end

`borrow_par` goes on below a place that is shared already, so a cycle of hold edges that it walks
with a shared borrow has no end.

* `checkedArgs`: the arguments that `borrow_check_sig` comes to;
* `checkEnds_iff_walk`: the check of a call ends if the walk from them does;
* `known_finite`: over a table that is laid out the walk has finitely many places;
* `check_ends_iff`: which checks end.
-/

namespace TreeVM

/-! ## The arguments that are borrowed -/

section Checked

variable {ctx : Context} {func : Func} {loc : CodeLoc} {E : Holds} {c : Checker} {fuel : Nat}
  {sig : Sig}

/-- A mut input that has no type or is a portal is refused. -/
def refused (ctx : Context) (func : Func) (sig : Sig) (v : Visit) : Bool :=
  decide (sig.outs.length ≤ v.arg) && v.unique &&
    ((func.types[lvalType ctx func v.place]?).map Ty.isPortal).getD true

/-- `borrow_check_sig` borrows the arguments before the first one it refuses. -/
def checkedArgs (ctx : Context) (func : Func) (sig : Sig) (places : List Lval) : List Visit :=
  (argVisits 0 places sig.alone).takeWhile fun v => !refused ctx func sig v

/-- The walk of the inputs runs out of fuel where the code does. -/
theorem borrowIns_outOfFuel {pars : List Nat} {ps : List Lval}
    (hps : List.Forall₂ c.Denotes pars ps) {inputs : List SigInput}
    (hlen : ps.length = inputs.length) {i : Nat} (hi : sig.outs.length ≤ i) {b : Borrow}
    {log : List Visit} (hm : Marked b.checker E log) (hext : c.Extends b.checker) :
    borrowIns ctx func loc fuel pars inputs b = .error .outOfFuel ↔
      Walks.walkAll (borrowWalk E ctx func fuel)
        ((argVisits i ps (inputs.map SigInput.isMut)).takeWhile fun v => !refused ctx func sig v)
        log = .error .outOfFuel := by
  induction hps generalizing i b log inputs with
  | nil =>
      rw [List.length_eq_zero_iff.mp hlen.symm]
      exact ⟨nofun, nofun⟩
  | @cons par p pars ps hp _ ih =>
      cases inputs with
      | nil => cases hlen
      | cons input inputs =>
          have hp := hp.mono hext
          have hlen := Nat.succ.inj hlen
          -- the first input, borrowed, and then the rest
          have hfirst : ∀ b₀ : Borrow, b₀.checker = b.checker →
              ((borrowPar ctx func loc fuel par (Life.ofUnique input.isMut) b₀ >>=
                borrowIns ctx func loc fuel pars inputs) = .error .outOfFuel ↔
              Walks.walkAll (borrowWalk E ctx func fuel) (⟨i, p, input.isMut⟩ ::
                (argVisits (i + 1) ps (inputs.map SigInput.isMut)).takeWhile
                  fun v => !refused ctx func sig v) log = .error .outOfFuel) := by
            intro b₀ hb₀
            have hmirrors : Mirrors E b₀.checker (borrowWalk E ctx func fuel ⟨i, p, input.isMut⟩ log)
                (borrowPar ctx func loc fuel par (Life.ofUnique input.isMut) b₀) :=
              borrowPar_mirrors ⟨i, p, input.isMut⟩ log b₀ par (hb₀ ▸ hm) (hb₀ ▸ hp)
            rw [Walks.walkAll]
            generalize borrowWalk E ctx func fuel ⟨i, p, input.isMut⟩ log = r at hmirrors ⊢
            generalize borrowPar ctx func loc fuel par (Life.ofUnique input.isMut) b₀ = s
              at hmirrors ⊢
            cases hmirrors with
            | ok hm' hext' _ =>
                exact ih hlen (Nat.le_succ_of_le hi) hm' (hext.trans (hb₀ ▸ hext'))
            | clash => exact iff_of_false (fun h => by cases h) fun h => by cases h
            | outOfFuel => exact ⟨fun _ => rfl, fun _ => rfl⟩
          rw [List.map_cons, argVisits, borrowIns, List.takeWhile_cons, refused]
          cases hisMut : input.isMut with
          | false =>
              rw [hisMut] at hfirst
              simp only [Bool.and_false, Bool.false_and, Bool.not_false, if_true, Bool.false_eq_true,
                if_false]
              exact hfirst b rfl
          | true =>
              rw [hisMut] at hfirst
              simp only [parType_eq hp, hi, decide_true, Bool.and_self, Bool.true_and, if_true]
              cases hty : func.types[lvalType ctx func p]? with
              | none =>
                  have hle := List.getElem?_eq_none_iff.mp hty
                  simp [hle, Walks.walkAll]
              | some ty =>
                  have hlt := (List.getElem?_eq_some_iff.mp hty).1
                  cases hportal : ty.isPortal with
                  | true => simp [Walks.walkAll, hportal]
                  | false =>
                      simp only [Nat.not_le.mpr hlt, Option.map_some, hportal, Option.getD_some,
                        Bool.false_eq_true, or_self, if_false, Bool.not_false, if_true]
                      exact hfirst { b with firstMut := par } rfl

/-- `borrow_check_sig` runs out of fuel where the walk from the checked arguments does. -/
theorem borrowCheckSig_outOfFuel {args : List Nat} {ps : List Lval} (hrep : Rep c E)
    (hargs : List.Forall₂ c.Denotes args ps) (hlen : ps.length = sig.argc) :
    borrowCheckSig ctx func loc fuel sig args c = .error .outOfFuel ↔
      Walks.walkAll (borrowWalk E ctx func fuel) (checkedArgs ctx func sig ps) [] =
        .error .outOfFuel := by
  have hsame := samePars_freeAll c
  have hargs : List.Forall₂ c.freeAll.Denotes args ps := hargs.imp fun _ _ h => hsame.denotes.mpr h
  -- an output is never refused
  have houts : ∀ v ∈ argVisits 0 (ps.take sig.outs.length)
      ((ps.take sig.outs.length).map fun _ => true), (!refused ctx func sig v) = true := by
    intro v hv
    obtain ⟨k, hk, hp, -⟩ := mem_argVisits hv
    have hlt := (List.getElem?_eq_some_iff.mp hp).1
    rw [List.length_take] at hlt
    have hnot : ¬ sig.outs.length ≤ v.arg := by omega
    simp [refused, hnot]
  have hchecked : checkedArgs ctx func sig ps =
      argVisits 0 (ps.take sig.outs.length) ((ps.take sig.outs.length).map fun _ => true) ++
        (argVisits sig.outs.length (ps.drop sig.outs.length) (sig.ins.map SigInput.isMut)).takeWhile
          fun v => !refused ctx func sig v := by
    rw [checkedArgs, argVisits_sig hlen, List.takeWhile_append_of_pos houts]
  have hmap : ∀ s : Except Fault Borrow,
      s.map Borrow.checker = .error .outOfFuel ↔ s = .error .outOfFuel := by
    intro s
    cases s <;> simp [Except.map]
  have hmirrors := @borrowOuts_mirrors E _ ctx func loc fuel _ _
    (List.forall₂_take sig.outs.length hargs) 0 ⟨parIdxInvalid, c.freeAll⟩ [] (marked_freeAll hrep)
    (.refl _)
  rw [borrowCheckSig_eq, hmap, hchecked, walkAll_append]
  generalize Walks.walkAll _ (argVisits 0 _ _) [] = r at hmirrors ⊢
  generalize borrowOuts ctx func loc fuel _ _ = s at hmirrors ⊢
  cases hmirrors with
  | ok hm hext _ =>
      refine borrowIns_outOfFuel (List.forall₂_drop sig.outs.length hargs) ?_ (Nat.le_refl _) hm hext
      rw [List.length_drop, hlen, Sig.argc]
      omega
  | clash => exact iff_of_false (fun h => by cases h) fun h => by cases h
  | outOfFuel => exact ⟨fun _ => rfl, fun _ => rfl⟩

end Checked

/-! ## The places of a walk -/

section Places

variable {ctx : Context} {func : Func} {E : Holds} {c : Checker}

/-- The fields of a place, their fields, and so on -/
def Subtree (ctx : Context) (func : Func) (p q : Lval) : Prop :=
  Relation.ReflTransGen (fun a b => b ∈ lvalFields ctx func a) p q

theorem type_of_field {p q : Lval} (h : q ∈ lvalFields ctx func p) :
    ∃ ty, func.types[lvalType ctx func p]? = some ty ∧ lvalType ctx func q ∈ ty.kind.refs := by
  rw [lvalFields] at h
  split at h
  · rename_i fields hkind
    obtain ⟨i, hi, rfl⟩ := List.mem_map.mp h
    obtain ⟨ty, hty, hstruct⟩ := Option.map_eq_some_iff.mp hkind
    refine ⟨ty, hty, ?_⟩
    have hlt := List.mem_range.mp hi
    rw [lvalType, hkind, hstruct, fieldType, List.getElem?_eq_getElem hlt]
    exact List.mem_map_of_mem (List.getElem_mem hlt)
  · cases h

/-- Over a table that is laid out, structs do not contain themselves. -/
theorem subtree_finite {rank : Nat → Nat} (hlaid : Laid func.types rank) (p : Lval) :
    {q | Subtree ctx func p q}.Finite := by
  have hall : ∀ n p, rank (lvalType ctx func p) = n → {q | Subtree ctx func p q}.Finite := by
    intro n
    induction n using Nat.strong_induction_on with
    | _ n ih =>
        intro p hp
        have hsplit : {q | Subtree ctx func p q} =
            {p} ∪ ⋃ r ∈ {r | r ∈ lvalFields ctx func p}, {q | Subtree ctx func r q} := by
          ext q
          simp only [Set.mem_ofPred_eq, Set.singleton_union, Set.mem_insert_iff, Set.mem_iUnion,
            exists_prop]
          exact Relation.ReflTransGen.cases_head_iff.trans (or_congr_left eq_comm)
        rw [hsplit]
        refine (Set.finite_singleton p).union ((List.finite_toSet _).biUnion fun r hr => ?_)
        obtain ⟨ty, hty, href⟩ := type_of_field hr
        exact ih _ (hp ▸ (hlaid.refs _ ty hty _ href).2) r rfl
  exact hall _ p rfl

/-- The interned places with their subtrees -/
def Known (ctx : Context) (func : Func) (c : Checker) (q : Lval) : Prop :=
  ∃ p idx, c.Denotes idx p ∧ Subtree ctx func p q

theorem known_finite {rank : Nat → Nat} (hlaid : Laid func.types rank) :
    {q | Known ctx func c q}.Finite := by
  have hsplit : {q | Known ctx func c q} ⊆
      ⋃ idx ∈ {i | i < c.handles.length}, ⋃ p ∈ {p | c.Denotes idx p}, {q | Subtree ctx func p q} := by
    rintro q ⟨p, idx, hp, hq⟩
    simp only [Set.mem_iUnion]
    exact ⟨idx, hp.lt, p, hp, hq⟩
  refine Set.Finite.subset ?_ hsplit
  refine (Set.finite_lt_nat _).biUnion fun idx _ => ?_
  have hone : {p | c.Denotes idx p}.Subsingleton := fun p hp q hq => hp.unique hq
  exact hone.finite.biUnion fun p _ => subtree_finite hlaid p

/-- The walk stays among the known places. -/
theorem Known.kids (hrep : Rep c E) {v w : Visit} (hv : Known ctx func c v.place)
    (hw : w ∈ Visit.kids ctx func E v) : w.arg = v.arg ∧ Known ctx func c w.place := by
  rcases List.mem_append.mp hw with hw | hw
  · obtain ⟨e, he, rfl⟩ := List.mem_map.mp hw
    refine ⟨rfl, ?_⟩
    -- what holds something is interned, and so is what it holds
    obtain ⟨idx, hidx⟩ : ∃ idx, c.Denotes idx v.place := by
      by_contra hnot
      rw [hrep.unknown v.place fun idx hidx => hnot ⟨idx, hidx⟩] at he
      cases he
    obtain ⟨h, hh⟩ : ∃ h, c.handles[idx]? = some h := ⟨_, List.getElem?_eq_getElem hidx.lt⟩
    obtain ⟨hold, -, hdenotes, -⟩ := forall₂_right (hrep.edges idx h _ hh hidx) he
    exact ⟨e.1, hold.par, hdenotes, .refl⟩
  · obtain ⟨q, hq, rfl⟩ := List.mem_map.mp hw
    obtain ⟨p, idx, hp, htree⟩ := hv
    exact ⟨rfl, p, idx, hp, htree.tail hq⟩

theorem Known.redirect {v w : Visit} (hv : Known ctx func c v.place) (hr : v.redirect = some w) :
    w.arg = v.arg ∧ Known ctx func c w.place := by
  rw [Visit.redirect] at hr
  split at hr
  · rename_i p hplace
    cases hr
    refine ⟨rfl, ?_⟩
    obtain ⟨q, idx, hq, htree⟩ := hv
    rw [hplace] at htree
    -- a member is no field
    rcases Relation.ReflTransGen.cases_tail htree with heq | ⟨r, -, hr⟩
    · rw [← heq] at hq
      cases hq with
      | elem _ _ hp => exact ⟨p, _, hp, .refl⟩
    · rw [lvalFields] at hr
      split at hr
      · obtain ⟨i, -, hi⟩ := List.mem_map.mp hr
        cases hi
      · cases hr
  · cases hr

theorem weak_iff {v : Visit} : Walks.Weak Visit.clash v ↔ v.unique = false := by
  rw [Walks.Weak, Visit.clash]
  simp

/-- The walk gets to a place, and from there back to it. -/
def ComesBack (ctx : Context) (func : Func) (E : Holds) (xs : List Visit) : Prop :=
  Walks.Returns Visit.redirect (Visit.kids ctx func E) Visit.clash xs []

/-- Over a table that is laid out, only a walk that comes back to a place goes on for ever. -/
theorem unending_iff {rank : Nat → Nat} (hlaid : Laid func.types rank) (hrep : Rep c E)
    {xs : List Visit} (hxs : ∀ v ∈ xs, Known ctx func c v.place) :
    Unending ctx func E xs ↔ ComesBack ctx func E xs := by
  obtain ⟨n, hn⟩ : ∃ n, ∀ v ∈ xs, v.arg < n := by
    refine ⟨(xs.map Visit.arg).toFinset.sup id + 1, fun v hv => Nat.lt_succ_of_le ?_⟩
    exact Finset.le_sup (f := id) (List.mem_toFinset.mpr (List.mem_map_of_mem hv))
  have hfinite : {v : Visit | v.arg < n ∧ Known ctx func c v.place}.Finite := by
    have hknown : {q | Known ctx func c q}.Finite := known_finite hlaid
    have hprod := (Set.finite_lt_nat n).prod (hknown.prod (Set.finite_univ (α := Bool)))
    refine (hprod.image fun t => (⟨t.1, t.2.1, t.2.2⟩ : Visit)).subset ?_
    rintro ⟨arg, place, unique⟩ ⟨harg, hplace⟩
    exact ⟨(arg, place, unique), ⟨harg, hplace, trivial⟩, rfl⟩
  rw [Unending, ComesBack, ← not_iff_not, ← Walks.ends_iff_not_endless redirect_size]
  refine Walks.ends_iff (S := hfinite.toFinset) ?_ ?_ ?_ redirect_size ?_ ?_ ?_
  · rintro u v ⟨-, hu | hv⟩
    · exact .inl fun hweak => by rw [weak_iff.mp hweak] at hu; cases hu
    · exact .inr fun hweak => by rw [weak_iff.mp hweak] at hv; cases hv
  · intro v hv w hw
    rw [weak_iff] at hv ⊢
    rcases List.mem_append.mp hw with hw | hw
    · obtain ⟨e, -, rfl⟩ := List.mem_map.mp hw
      rw [hv]
      rfl
    · obtain ⟨q, -, rfl⟩ := List.mem_map.mp hw
      exact hv
  · intro v w hr hv
    rw [weak_iff] at hv ⊢
    rw [Visit.redirect] at hr
    split at hr
    · cases hr
      exact hv
    · cases hr
  · intro v hv w hw
    rw [Set.Finite.mem_toFinset] at hv ⊢
    obtain ⟨harg, hknown⟩ := hv.2.kids hrep hw
    exact ⟨harg ▸ hv.1, hknown⟩
  · intro v hv w hr
    rw [Set.Finite.mem_toFinset] at hv ⊢
    obtain ⟨harg, hknown⟩ := hv.2.redirect hr
    exact ⟨harg ▸ hv.1, hknown⟩
  · intro v hv
    rw [Set.Finite.mem_toFinset]
    exact ⟨hn v hv, hxs v hv⟩

end Places

/-! ## Which checks end -/

/-- The check of the call ends. -/
def CheckEnds (ctx : Context) (func : Func) (loc : CodeLoc) (op : Op) (c : Checker) : Prop :=
  ∃ fuel, borrowCheckCall ctx func loc fuel op c ≠ .error .outOfFuel

section Ends

variable {ctx : Context} {func : Func} {loc : CodeLoc} {op : Op} {E : Holds} {c : Checker}
  {ps : List Lval} {sig : Sig} {skip : Nat}

theorem checkEnds_iff_walk (hrep : Rep c E) (hs : c.Stack ps)
    (hcalled : calledSig ctx func op c = some (sig, skip))
    (hargs : ArgsOk func sig ((ps.map (lvalType ctx func)).drop skip)) :
    CheckEnds ctx func loc op c ↔
      ¬ Unending ctx func E (checkedArgs ctx func sig (argPlaces ps sig skip)) := by
  have henough := hargs.1
  rw [List.length_drop, List.length_map, ← hs.length_eq] at henough
  have hskip := calledSig_skip hcalled
  have hlen : (argPlaces ps sig skip).length = sig.argc := by
    rw [← sig.length_args, ← argPlaces_types hargs, List.length_map]
  rw [Unending, ← Walks.ends_iff_not_endless redirect_size]
  refine exists_congr fun fuel => not_congr ?_
  rw [borrowCheckCall_eq hcalled, if_neg (by omega)]
  exact borrowCheckSig_outOfFuel hrep (args_stack hs skip sig.argc) hlen

/-- The arguments are interned. -/
theorem known_args (hs : c.Stack ps) :
    ∀ v ∈ checkedArgs ctx func sig (argPlaces ps sig skip), Known ctx func c v.place := by
  intro v hv
  obtain ⟨k, -, hp, -⟩ := mem_argVisits (List.takeWhile_subset _ hv)
  obtain ⟨idx, -, hidx⟩ := forall₂_right (args_stack hs skip sig.argc) (List.mem_of_getElem? hp)
  exact ⟨v.place, idx, hidx, .refl⟩

end Ends

/-- In a function that the first pass accepts, the check of a call ends if and only if the walk from
its arguments does not go on for ever; over a table that is laid out, if and only if it does not
come back to a place that it is still walking from. -/
theorem check_ends_iff {ctx : Context} {fuel n : Nat} {c₀ c : Checker} (h₀ : c₀.Ok)
    (hfirst : firstPass ctx fuel c₀ = .ok c) {site : Site}
    (hmeets : Meets ctx (borrowHandler ctx n) fuel c site) {func : Func}
    (hfunc : ctx.funcs[site.current]? = some func) {sig : Sig} {skip : Nat}
    (hcalled : calledSig ctx func site.op site.checker = some (sig, skip)) :
    ∃ E places, Rep site.checker E ∧
      List.Forall₂ site.checker.Denotes (site.checker.args skip sig.argc) places ∧
      (CheckEnds ctx func site.loc site.op site.checker ↔
        ¬ Unending ctx func E (checkedArgs ctx func sig places)) ∧
      ∀ types, layoutAll types = some func.types →
        (CheckEnds ctx func site.loc site.op site.checker ↔
          ¬ ComesBack ctx func E (checkedArgs ctx func sig places)) := by
  obtain ⟨func', E, ps, hfunc', -, hrep, hs, htypes⟩ := hmeets.typed h₀ hfirst
  rw [hfunc] at hfunc'
  cases hfunc'
  have hends := @checkEnds_iff_walk ctx func site.loc site.op E _ ps sig skip hrep hs hcalled
    (calledSig_argsOk hs hcalled htypes)
  refine ⟨E, argPlaces ps sig skip, hrep, args_stack hs skip sig.argc, hends, fun types hlaid => ?_⟩
  obtain ⟨⟨rank, hlaid⟩, -, -⟩ := laid_of_layoutAll hlaid
  rw [hends, unending_iff hlaid hrep (known_args hs)]

/-! ## A slice that holds itself -/

section SelfHeld

def readTypes : List Ty :=
  (layoutAll [{ kind := .int }, { kind := .byte }, { kind := .slice intId }]).getD []

/-- A function that reads a slice. -/
def readCallee : Func where
  sig := ⟨[⟨2, false⟩], []⟩
  types := readTypes
  blocks := [.basic ⟨0, 0⟩]
  ops := []
  vars := [2]

/-- A slice is assigned to itself and handed over. -/
def selfCaller : Func where
  sig := ⟨[], []⟩
  types := readTypes
  blocks := [.var 0 1, .basic ⟨0, 4⟩]
  ops := [⟨.pushVar, 0⟩, ⟨.pushVar, 0⟩, ⟨.assign, 0⟩, ⟨.call, 0⟩]
  vars := [2]

def selfHeld : Context where
  funcs := [readCallee, selfCaller]
  globals := []

/-- The slice with its mark. -/
def selfChecker (life : Life) (pars : List Nat) : Checker where
  handles := [⟨⟨.localVar, 0, 0⟩, life, 0, 1⟩]
  holds := [⟨0, ⟨1, 2⟩, false⟩]
  pars := pars

/-- The call of `readCallee` -/
def selfSite : Site where
  current := 1
  state := ⟨1, [1]⟩
  op := ⟨.call, 0⟩
  loc := ⟨1, 3⟩
  checker := selfChecker .free [0]

theorem selfHeld_firstPass : firstPass selfHeld 20 {} = .ok (selfChecker .free []) := by
  decide

theorem selfSite_meets :
    Meets selfHeld (borrowHandler selfHeld 20) 20 (selfChecker .free []) selfSite :=
  ⟨.error .rejected, by decide⟩

/-- Below the slice there is the slice again. -/
theorem selfHeld_shared (fuel m : Nat) (pars : List Nat) :
    borrowPar selfHeld selfCaller ⟨1, 3⟩ fuel 0 .shared ⟨m, selfChecker .shared pars⟩ =
      .error .outOfFuel := by
  induction fuel with
  | zero => rfl
  | succ fuel ih =>
      show (borrowPar selfHeld selfCaller ⟨1, 3⟩ fuel 0 .shared ⟨m, selfChecker .shared pars⟩ >>= _)
        >>= _ = _
      rw [ih]
      rfl

theorem selfSite_endless :
    ¬ CheckEnds selfHeld selfCaller selfSite.loc selfSite.op selfSite.checker := by
  rintro ⟨fuel, hends⟩
  refine hends ?_
  cases fuel with
  | zero => rfl
  | succ fuel =>
      show (((borrowPar selfHeld selfCaller ⟨1, 3⟩ fuel 0 .shared
        ⟨parIdxInvalid, selfChecker .shared [0]⟩ >>= _) >>= _) >>= _) >>= _ = _
      rw [selfHeld_shared]
      rfl

/-- The first pass accepts the functions, and the check of the call goes on for ever. -/
theorem selfHeld_endless : ∃ c site func sig skip, firstPass selfHeld 20 {} = .ok c ∧
    Meets selfHeld (borrowHandler selfHeld 20) 20 c site ∧
    selfHeld.funcs[site.current]? = some func ∧
    calledSig selfHeld func site.op site.checker = some (sig, skip) ∧
    ¬ CheckEnds selfHeld func site.loc site.op site.checker :=
  ⟨_, selfSite, selfCaller, ⟨[⟨2, false⟩], []⟩, 0, selfHeld_firstPass, selfSite_meets, rfl, rfl,
    selfSite_endless⟩

end SelfHeld

/-! ## A slice of another local -/

section HeldOnce

/-- A slice is made of local 1 and handed over. -/
def heldCaller : Func where
  sig := ⟨[], []⟩
  types := readTypes
  blocks := [.var 1 1, .var 0 2, .basic ⟨0, 4⟩]
  ops := [⟨.pushVar, 0⟩, ⟨.pushVar, 1⟩, ⟨.sliceFromOne, 0⟩, ⟨.call, 0⟩]
  vars := [2, intId]

def heldOnce : Context where
  funcs := [readCallee, heldCaller]
  globals := []

def heldChecker (pars : List Nat) : Checker where
  handles := [⟨⟨.localVar, 0, 0⟩, .free, 0, 1⟩, ⟨⟨.localVar, 1, 0⟩, .free, 0, 0⟩]
  holds := [⟨1, ⟨2, 2⟩, false⟩]
  pars := pars

/-- The call of `readCallee` -/
def heldSite : Site where
  current := 1
  state := ⟨2, [2, 1]⟩
  op := ⟨.call, 0⟩
  loc := ⟨2, 3⟩
  checker := heldChecker [0]

theorem heldOnce_firstPass : firstPass heldOnce 20 {} = .ok (heldChecker []) := by
  decide

theorem heldSite_meets : Meets heldOnce (borrowHandler heldOnce 20) 20 (heldChecker []) heldSite :=
  ⟨.error .rejected, by decide⟩

/-- The walk from the slice that holds itself comes back to it, the walk from the other one ends. -/
theorem check_ends_iff_slices :
    (∃ E places, Rep selfSite.checker E ∧
      List.Forall₂ selfSite.checker.Denotes (selfSite.checker.args 0 1) places ∧
      ComesBack selfHeld selfCaller E (checkedArgs selfHeld selfCaller ⟨[⟨2, false⟩], []⟩ places)) ∧
    CheckEnds heldOnce heldCaller ⟨2, 3⟩ ⟨.call, 0⟩ heldSite.checker ∧
      ∃ E places, Rep heldSite.checker E ∧
        List.Forall₂ heldSite.checker.Denotes (heldSite.checker.args 0 1) places ∧
        ¬ Unending heldOnce heldCaller E (checkedArgs heldOnce heldCaller ⟨[⟨2, false⟩], []⟩ places) ∧
        ¬ ComesBack heldOnce heldCaller E
          (checkedArgs heldOnce heldCaller ⟨[⟨2, false⟩], []⟩ places) := by
  have hlaid : layoutAll [{ kind := .int }, { kind := .byte }, { kind := .slice intId }] = some readTypes :=
    rfl
  have hself : calledSig selfHeld selfCaller selfSite.op selfSite.checker =
      some (⟨[⟨2, false⟩], []⟩, 0) := rfl
  have hheld : calledSig heldOnce heldCaller heldSite.op heldSite.checker =
      some (⟨[⟨2, false⟩], []⟩, 0) := rfl
  have hends : CheckEnds heldOnce heldCaller ⟨2, 3⟩ ⟨.call, 0⟩ heldSite.checker :=
    ⟨20, by decide⟩
  obtain ⟨E, places, hrep, hplaces, -, hback⟩ :=
    check_ends_iff ok_empty selfHeld_firstPass selfSite_meets rfl hself
  refine ⟨⟨E, places, hrep, hplaces, ?_⟩, hends, ?_⟩
  · by_contra hnot
    exact selfSite_endless ((hback _ hlaid).mpr hnot)
  · obtain ⟨E, places, hrep, hplaces, hwalk, hback⟩ :=
      check_ends_iff ok_empty heldOnce_firstPass heldSite_meets rfl hheld
    exact ⟨E, places, hrep, hplaces, hwalk.mp hends, (hback _ hlaid).mp hends⟩

end HeldOnce

end TreeVM
