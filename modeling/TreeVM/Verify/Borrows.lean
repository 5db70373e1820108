import TreeVM.Logic.Walks
import TreeVM.Verify.Lval

/-!
# Borrows as walks

`borrow_par` walks from a place to everything that is borrowed with it and marks what it has seen.
Here the marks are a log of visits to paths.

* `Visit`: a place that is borrowed for an argument; `Visit.kids`, `Visit.redirect`, `Visit.clash`;
* `Unending`: from here the walk goes on for ever;
* `Marked`: the lives of the handles are those of a log;
* `borrowPar_mirrors`, `borrowCheckSig_mirrors`: the walk of the code is the walk with a log.
-/

namespace TreeVM

/-- A place on the way of `borrow_par` from the argument at a position. -/
structure Visit where
  arg : Nat
  place : Lval
  unique : Bool
  deriving DecidableEq, Repr

namespace Visit

/-- An array member stands for the whole array. -/
def redirect (v : Visit) : Option Visit :=
  match v.place with
  | .elem p => some { v with place := p }
  | _ => none

/-- One of two visits to a place asks for it alone. -/
def clash (u v : Visit) : Prop :=
  u.place = v.place ∧ (u.unique = true ∨ v.unique = true)

instance : DecidableRel clash := fun _ _ => inferInstanceAs (Decidable (_ ∧ _))

end Visit

section Graph

variable (ctx : Context) (func : Func) (E : Holds)

def lvalFields (p : Lval) : List Lval :=
  match kindAt func (lvalType ctx func p) with
  | some (.struct fields) => (List.range fields.length).map (.field p)
  | _ => []

/-- What is borrowed with a place: what it holds, and its fields. -/
def Visit.kids (v : Visit) : List Visit :=
  ((E v.place).map fun e => ⟨v.arg, e.1, v.unique && !e.2⟩) ++
    (lvalFields ctx func v.place).map fun p => ⟨v.arg, p, v.unique⟩

/-- From these places the walk goes on for ever. -/
def Unending (xs : List Visit) : Prop :=
  Walks.Endless Visit.redirect (Visit.kids ctx func E) Visit.clash xs []

theorem redirect_size (v w : Visit) (h : v.redirect = some w) : sizeOf w.place < sizeOf v.place := by
  rw [Visit.redirect] at h
  split at h
  · rename_i p hplace
    cases h
    rw [hplace]
    exact Nat.lt_add_of_pos_left Nat.one_pos
  · cases h

end Graph

/-! ## Marks -/

/-- `LIFE_UNIQUE` or `LIFE_SHARED` -/
def Life.ofUnique (unique : Bool) : Life :=
  if unique then .unique else .shared

/-- The mark that the visits leave on a place. -/
def lifeIn (log : List Visit) (p : Lval) : Life :=
  if ∃ v ∈ log, v.place = p ∧ v.unique = true then .unique
  else if ∃ v ∈ log, v.place = p then .shared
  else .free

/-- The handles record the edges `E`, and their marks are those of the visits. -/
structure Marked (c : Checker) (E : Holds) (log : List Visit) : Prop where
  rep : Rep c E
  lives : ∀ (idx : Nat) (h : Handle) (p : Lval), c.handles[idx]? = some h → c.Denotes idx p →
    h.life = lifeIn log p
  known : ∀ v ∈ log, ∃ idx, c.Denotes idx v.place

section Marks

variable {c c' : Checker} {E : Holds} {log : List Visit} {idx : Nat} {h : Handle} {v : Visit}
  {p : Lval}

theorem excludes_iff : (lifeIn log v.place).excludes (Life.ofUnique v.unique) ↔
    ∃ u ∈ log, u.clash v := by
  rw [Life.excludes, lifeIn]
  by_cases hunique : ∃ u ∈ log, u.place = v.place ∧ u.unique = true
  · rw [if_pos hunique]
    obtain ⟨u, hu, hplace, hu'⟩ := hunique
    exact ⟨fun _ => ⟨u, hu, hplace, .inl hu'⟩, fun _ => .inl rfl⟩
  · rw [if_neg hunique]
    by_cases hshared : ∃ u ∈ log, u.place = v.place
    · rw [if_pos hshared]
      obtain ⟨u, hu, hplace⟩ := hshared
      cases hv : v.unique with
      | true => exact ⟨fun _ => ⟨u, hu, hplace, .inr hv⟩, fun _ => .inr ⟨rfl, rfl⟩⟩
      | false =>
          simp only [Life.ofUnique, Bool.false_eq_true, if_false, reduceCtorEq, and_false, or_false,
            false_iff]
          rintro ⟨w, hw, hplace, hor⟩
          rcases hor with hw' | hv'
          · exact hunique ⟨w, hw, hplace, hw'⟩
          · rw [hv] at hv'
            cases hv'
    · rw [if_neg hshared]
      simp only [reduceCtorEq, false_and, or_false, false_iff]
      rintro ⟨w, hw, hplace, -⟩
      exact hshared ⟨w, hw, hplace⟩

theorem lifeIn_of_ne (h : p ≠ v.place) : lifeIn (v :: log) p = lifeIn log p := by
  simp [lifeIn, h.symm]

theorem lifeIn_unique (h : v.unique = true) : lifeIn (v :: log) v.place = .unique :=
  if_pos ⟨v, List.mem_cons_self, rfl, h⟩

theorem lifeIn_shared (h : v.unique = false) (hfree : ∀ u ∈ log, ¬ u.clash v) :
    lifeIn (v :: log) v.place = .shared := by
  rw [lifeIn, if_neg, if_pos ⟨v, List.mem_cons_self, rfl⟩]
  rintro ⟨u, hu, hplace, hu'⟩
  rcases List.mem_cons.mp hu with rfl | hu
  · rw [h] at hu'
    cases hu'
  · exact hfree u hu ⟨hplace, .inl hu'⟩

/-! ## Lives and hold edges -/

/-- Checkers that differ only in the marks. -/
theorem handle_of_freeAll (h : c'.freeAll = c.freeAll) {i : Nat} {h' : Handle}
    (hi : c'.handles[i]? = some h') : ∃ old, c.handles[i]? = some old ∧
      ({ h' with life := .free } : Handle) = { old with life := .free } := by
  have hhandles : c'.freeAll.handles[i]? = c.freeAll.handles[i]? := by rw [h]
  simp only [Checker.freeAll, List.getElem?_map, hi, Option.map_some] at hhandles
  obtain ⟨old, hold, heq⟩ := Option.map_eq_some_iff.mp hhandles.symm
  exact ⟨old, hold, heq.symm⟩

theorem samePars_of_freeAll (h : c'.freeAll = c.freeAll) : SamePars c c' := by
  have hmap : ∀ d : Checker, ∀ i, d.parOf i = d.freeAll.parOf i := by
    intro d i
    simp only [Checker.parOf, Checker.freeAll, List.getElem?_map, Option.map_map]
    rfl
  have hlength : ∀ d : Checker, d.handles.length = d.freeAll.handles.length := by
    intro d
    simp [Checker.freeAll]
  exact ⟨fun i => by rw [hmap c', hmap c, h], by rw [hlength c', hlength c, h]⟩

theorem Rep.of_freeAll (hrep : Rep c E) (h : c'.freeAll = c.freeAll) : Rep c' E := by
  have hsame := samePars_of_freeAll h
  have hholds : c'.holds = c.holds := by
    have : c'.freeAll.holds = c.freeAll.holds := by rw [h]
    exact this
  refine ⟨⟨fun i j par hi hj => ?_, fun i hi => ?_, fun h' hh' => ?_, fun hold hh => ?_⟩,
    fun i h' q hi hq => ?_, fun q hq => hrep.unknown q fun i hi => hq i (hsame.denotes.mpr hi)⟩
  · rw [hsame.pars] at hi hj
    exact hrep.ok.distinct i j par hi hj
  · rw [hsame.length] at hi
    obtain ⟨q, hq⟩ := hrep.ok.denotes i hi
    exact ⟨q, hsame.denotes.mpr hq⟩
  · obtain ⟨i, hi⟩ := List.mem_iff_getElem?.mp hh'
    obtain ⟨old, hold, heq⟩ := handle_of_freeAll h hi
    injection heq with _ _ hstart hnum
    rw [hstart, hnum, hholds]
    exact hrep.ok.segments old (List.mem_of_getElem? hold)
  · rw [hholds] at hh
    rw [hsame.length]
    exact hrep.ok.held hold hh
  · obtain ⟨old, hold, heq⟩ := handle_of_freeAll h hi
    injection heq with _ _ hstart hnum
    have hsegment : c'.holdsOf h' = c.holdsOf old := by
      rw [Checker.holdsOf, Checker.holdsOf, hstart, hnum, hholds]
    rw [hsegment]
    exact (hrep.edges i old q hold (hsame.denotes.mp hq)).imp fun _ _ he => he.mono hsame.extends_

theorem freeAll_set {life : Life} (hh : c.handles[idx]? = some h) :
    ({ c with handles := c.handles.set idx { h with life := life } } : Checker).freeAll =
      c.freeAll := by
  simp only [Checker.freeAll, List.map_set]
  congr 1
  refine List.ext_getElem? fun i => ?_
  by_cases hi : i = idx
  · have hlt : i < c.handles.length := hi ▸ (List.getElem?_eq_some_iff.mp hh).1
    rw [← hi, List.getElem?_set_self (by simpa using hlt), List.getElem?_map, hi, hh]
    rfl
  · rw [List.getElem?_set_ne (Ne.symm hi)]

/-- Nothing is borrowed in the beginning. -/
theorem marked_freeAll (h : Rep c E) : Marked c.freeAll E [] := by
  refine ⟨h.of_freeAll ?_, fun i h' q hi _ => ?_, nofun⟩
  · simp [Checker.freeAll]
  · simp only [Checker.freeAll, List.getElem?_map, Option.map_eq_some_iff] at hi
    obtain ⟨old, -, rfl⟩ := hi
    rfl

theorem Marked.intern (hm : Marked c E log) {par : Par} (hi : Checker.Interned c par p idx c') :
    Marked c' E log := by
  refine ⟨hm.rep.intern hi, fun j h' q hj hq => ?_, fun u hu => ?_⟩
  · rcases hi.handles with rfl | ⟨hidx, hnew, hhandles⟩
    · exact hm.lives j h' q hj hq
    · rw [hhandles] at hj
      by_cases hlt : j < c.handles.length
      · rw [List.getElem?_append_left hlt] at hj
        exact hm.lives j h' q hj (hq.of_extends hm.rep.ok hi.extends_ hlt)
      · -- a new place has not been visited
        have hlast : j = c.handles.length := by
          have := (List.getElem?_eq_some_iff.mp hj).1
          rw [List.length_append, List.length_singleton] at this
          omega
        subst hlast
        rw [List.getElem?_concat_length] at hj
        cases hj
        have hqp : q = p := hq.unique (hidx ▸ hi.denotes)
        have hnone : ¬ ∃ u ∈ log, u.place = q := by
          rintro ⟨u, hu, hplace⟩
          obtain ⟨i, hi⟩ := hm.known u hu
          exact hnew i (hqp ▸ hplace ▸ hi)
        rw [lifeIn, if_neg fun ⟨u, hu, hplace, _⟩ => hnone ⟨u, hu, hplace⟩, if_neg hnone]
  · obtain ⟨i, hu⟩ := hm.known u hu
    exact ⟨i, hu.mono hi.extends_⟩

/-- One visit: the handle gets its mark. -/
theorem Marked.mark {b : Borrow} (hm : Marked b.checker E log) (hh : b.checker.handles[idx]? = some h)
    (hv : b.checker.Denotes idx v.place) (hfree : ∀ u ∈ log, ¬ u.clash v) :
    (b.mark idx h (Life.ofUnique v.unique)).checker.freeAll = b.checker.freeAll ∧
      Marked (b.mark idx h (Life.ofUnique v.unique)).checker E (v :: log) := by
  have hlife := hm.lives idx h v.place hh hv
  -- the handle becomes `h'`, which has the mark of the longer log
  have hset : ∀ b' : Borrow, ∀ life, life = lifeIn (v :: log) v.place → b'.checker =
      { b.checker with handles := b.checker.handles.set idx { h with life := life } } →
      b'.checker.freeAll = b.checker.freeAll ∧ Marked b'.checker E (v :: log) := by
    intro b' life hnew hb'
    have hsame : b'.checker.freeAll = b.checker.freeAll := by
      rw [hb']
      exact freeAll_set hh
    have hpars := samePars_of_freeAll hsame
    refine ⟨hsame, hm.rep.of_freeAll hsame, fun i h' q hi hq => ?_, fun u hu => ?_⟩
    · have hq := hpars.denotes.mp hq
      rw [hb'] at hi
      by_cases hidx : i = idx
      · subst hidx
        rw [List.getElem?_set_self hv.lt] at hi
        cases hi
        rw [hq.unique hv]
        exact hnew
      · rw [List.getElem?_set_ne (Ne.symm hidx)] at hi
        have hne : q ≠ v.place := fun heq => hidx (hq.inj hm.rep.ok (heq ▸ hv))
        rw [lifeIn_of_ne hne]
        exact hm.lives i h' q hi hq
    · rcases List.mem_cons.mp hu with rfl | hu
      · exact ⟨idx, hpars.denotes.mpr hv⟩
      · obtain ⟨i, hi⟩ := hm.known u hu
        exact ⟨i, hpars.denotes.mpr hi⟩
  cases hu : v.unique with
  | true => exact hset _ .unique (lifeIn_unique hu).symm rfl
  | false =>
      have hshared := lifeIn_shared hu hfree
      have hwant : Life.ofUnique false = .shared := rfl
      rw [hwant, Borrow.mark, if_neg (by simp)]
      by_cases hzero : h.life = .free
      · rw [if_pos hzero]
        exact hset _ .shared hshared.symm rfl
      · rw [if_neg hzero]
        -- already shared
        have hsame : h.life = .shared := by
          have hnot : ¬ (lifeIn log v.place).excludes (Life.ofUnique v.unique) := by
            rw [excludes_iff]
            exact fun ⟨u, hu, hclash⟩ => hfree u hu hclash
          rw [← hlife] at hnot
          cases hl : h.life with
          | free => exact absurd hl hzero
          | unique => exact absurd (.inl hl) hnot
          | shared => rfl
        refine hset _ .shared hshared.symm ?_
        have hself := List.set_getElem_self hv.lt
        rw [(List.getElem?_eq_some_iff.mp hh).2] at hself
        rw [← hsame, hself]

end Marks

/-! ## The walk of the code -/

/-- What the code returns when the walk with a log returns `r`. -/
inductive Mirrors (E : Holds) (c : Checker) :
    Except Walks.Stop (List Visit) → Except Fault Borrow → Prop
  | ok {log b} : Marked b.checker E log → c.Extends b.checker → b.checker.pars = c.pars →
      Mirrors E c (.ok log) (.ok b)
  | clash {e} : Mirrors E c (.error .clash) (.error (.aliasError e))
  | outOfFuel : Mirrors E c (.error .outOfFuel) (.error .outOfFuel)

section Mirrors

variable {E : Holds} {c c' : Checker}

theorem Mirrors.weaken {r : Except Walks.Stop (List Visit)} {s : Except Fault Borrow}
    (h : Mirrors E c' r s) (hext : c.Extends c') (hpars : c'.pars = c.pars) : Mirrors E c r s := by
  cases h with
  | ok hm hext' hpars' => exact .ok hm (hext.trans hext') (hpars'.trans hpars)
  | clash => exact .clash
  | outOfFuel => exact .outOfFuel

theorem Mirrors.bind {r : Except Walks.Stop (List Visit)} {s : Except Fault Borrow}
    {f : List Visit → Except Walks.Stop (List Visit)} {g : Borrow → Except Fault Borrow}
    (h : Mirrors E c r s) (hnext : ∀ log b, Marked b.checker E log → c.Extends b.checker →
      Mirrors E b.checker (f log) (g b)) : Mirrors E c (r >>= f) (s >>= g) := by
  cases h with
  | ok hm hext hpars => exact (hnext _ _ hm hext).weaken hext hpars
  | clash => exact .clash
  | outOfFuel => exact .outOfFuel

variable (ctx : Context) (func : Func) (loc : CodeLoc) (E)

/-- The walk of `borrow_par` with a log -/
def borrowWalk (fuel : Nat) : Visit → List Visit → Except Walks.Stop (List Visit) :=
  Walks.walk Visit.redirect (Visit.kids ctx func E) Visit.clash fuel

/-- `borrow_par` with this much fuel follows the walk. -/
def ParMirrors (fuel : Nat) : Prop :=
  ∀ (v : Visit) (log : List Visit) (b : Borrow) (idx : Nat), Marked b.checker E log →
    b.checker.Denotes idx v.place → Mirrors E b.checker (borrowWalk E ctx func fuel v log)
      (borrowPar ctx func loc fuel idx (Life.ofUnique v.unique) b)

variable {ctx func loc E} {fuel : Nat}

theorem walkAll_append {f : Visit → List Visit → Except Walks.Stop (List Visit)}
    (xs ys log : List Visit) :
    Walks.walkAll f (xs ++ ys) log = Walks.walkAll f xs log >>= Walks.walkAll f ys := by
  induction xs generalizing log with
  | nil => rfl
  | cons x xs ih =>
      rw [List.cons_append, Walks.walkAll, Walks.walkAll, bind_assoc]
      exact congrArg _ (funext fun log' => ih log')

theorem borrowHolds_mirrors (hpar : ParMirrors E ctx func loc fuel) (v : Visit)
    {holds : List HoldChain} {es : List (Lval × Bool)} (hes : List.Forall₂ (HoldChain.Is c) holds es)
    {b : Borrow} {log : List Visit} (hm : Marked b.checker E log) (hext : c.Extends b.checker) :
    Mirrors E b.checker
      (Walks.walkAll (borrowWalk E ctx func fuel)
        (es.map fun e => ⟨v.arg, e.1, v.unique && !e.2⟩) log)
      (borrowHolds (borrowPar ctx func loc fuel) (Life.ofUnique v.unique) holds b) := by
  induction hes generalizing b log with
  | nil => exact .ok hm (.refl _) rfl
  | @cons hold e holds es he _ ih =>
      have hwant : (if hold.justConst then Life.shared else Life.ofUnique v.unique) =
          Life.ofUnique (v.unique && !e.2) := by
        rw [he.2]
        cases e.2 <;> simp [Life.ofUnique]
      rw [List.map_cons, Walks.walkAll, borrowHolds, hwant]
      refine (hpar ⟨v.arg, e.1, v.unique && !e.2⟩ log b hold.par hm (he.1.mono hext)).bind ?_
      exact fun log' b' hm' hext' => ih hm' (hext.trans hext')

theorem borrowStructFields_mirrors (hpar : ParMirrors E ctx func loc fuel) (v : Visit) {idx : Nat}
    (fields : List Nat) {b : Borrow} {log : List Visit} (hm : Marked b.checker E log)
    (hidx : b.checker.Denotes idx v.place) :
    Mirrors E b.checker
      (Walks.walkAll (borrowWalk E ctx func fuel)
        (fields.map fun i => ⟨v.arg, .field v.place i, v.unique⟩) log)
      (borrowStructFields (borrowPar ctx func loc fuel) idx (Life.ofUnique v.unique) fields b) := by
  induction fields generalizing b log with
  | nil => exact .ok hm (.refl _) rfl
  | cons i fields ih =>
      have hi := Checker.intern_spec hm.rep.ok (Checker.ParFor.field (i := i) hidx)
      rw [List.map_cons, Walks.walkAll, borrowStructFields]
      generalize b.checker.intern ⟨.structField, i, idx⟩ = interned at hi
      obtain ⟨field, c'⟩ := interned
      refine (?_ : Mirrors E c' _ _).weaken hi.extends_ hi.same.1
      refine (hpar ⟨v.arg, .field v.place i, v.unique⟩ log { b with checker := c' } field
        (hm.intern hi) hi.denotes).bind ?_
      exact fun log' b' hm' hext' => ih hm' ((hidx.mono hi.extends_).mono hext')

/-- Only a member stands for another place. -/
theorem redirect_of_denotes {idx : Nat} {h : Handle} {v : Visit} (hh : c.handles[idx]? = some h)
    (hv : c.Denotes idx v.place) :
    (h.par.kind = .arrMember ∧ ∃ p, v.redirect = some { v with place := p } ∧
      c.Denotes h.par.parent p) ∨ (h.par.kind ≠ .arrMember ∧ v.redirect = none) := by
  have hpar : ∀ par, c.parOf idx = some par → h.par = par := fun par h' =>
    Option.some.inj ((Checker.parOf_of_handle hh).symm.trans h')
  rw [Visit.redirect]
  generalize v.place = q at hv
  cases hv with
  | var h' => exact .inr ⟨by simp [hpar _ h'], rfl⟩
  | arg h' => exact .inr ⟨by simp [hpar _ h'], rfl⟩
  | global h' => exact .inr ⟨by simp [hpar _ h'], rfl⟩
  | field h' _ _ => exact .inr ⟨by simp [hpar _ h'], rfl⟩
  | elem h' _ hp =>
      rw [hpar _ h']
      exact .inl ⟨rfl, _, rfl, hp⟩

theorem borrowPar_mirrors : ParMirrors E ctx func loc fuel := by
  induction fuel with
  | zero => exact fun _ _ _ _ _ _ => .outOfFuel
  | succ fuel ih =>
      intro v log b idx hm hv
      obtain ⟨h, hh⟩ : ∃ h, b.checker.handles[idx]? = some h :=
        ⟨_, List.getElem?_eq_getElem hv.lt⟩
      rw [borrowPar, hh]
      rcases redirect_of_denotes hh hv with ⟨hkind, p, hr, hp⟩ | ⟨hkind, hr⟩
      · rw [borrowWalk, Walks.walk_redirect hr]
        simp only [hkind, if_true]
        exact ih _ log b _ hm hp
      · simp only [hkind, if_false]
        have hexcludes : h.life.excludes (Life.ofUnique v.unique) ↔ ∃ u ∈ log, u.clash v := by
          rw [hm.lives idx h v.place hh hv]
          exact excludes_iff
        by_cases hclash : ∃ u ∈ log, u.clash v
        · rw [borrowWalk, Walks.walk_clash hr hclash, if_pos (hexcludes.mpr hclash)]
          exact .clash
        · rw [if_neg fun hex => hclash (hexcludes.mp hex)]
          have hfree : ∀ u ∈ log, ¬ u.clash v := fun u hu hc => hclash ⟨u, hu, hc⟩
          obtain ⟨hsame, hmark⟩ := hm.mark hh hv hfree
          have hpars := samePars_of_freeAll hsame
          have hold : (b.mark idx h (Life.ofUnique v.unique)).checker.holdsOf h =
              b.checker.holdsOf h := by
            have : (b.mark idx h (Life.ofUnique v.unique)).checker.freeAll.holds =
                b.checker.freeAll.holds := by rw [hsame]
            rw [Checker.holdsOf, Checker.holdsOf]
            exact congrArg (fun l => (l.drop h.holdsStart).take h.numHolds) this
          have hstack : (b.mark idx h (Life.ofUnique v.unique)).checker.pars = b.checker.pars := by
            have : (b.mark idx h (Life.ofUnique v.unique)).checker.freeAll.pars =
                b.checker.freeAll.pars := by rw [hsame]
            exact this
          rw [borrowWalk, Walks.walk_visit hr hfree, Visit.kids, walkAll_append]
          simp only [hold]
          refine Mirrors.weaken ?_ hpars.extends_ hstack
          refine (borrowHolds_mirrors ih v (hm.rep.edges idx h v.place hh hv) hmark
            hpars.extends_).bind fun log' b' hm' hext' => ?_
          have hv' := (hpars.denotes.mpr hv).mono hext'
          rw [lvalFields, parType_eq hv']
          cases kindAt func (lvalType ctx func v.place) with
          | none => exact .ok hm' (.refl _) rfl
          | some kind =>
              cases kind with
              | struct fields =>
                  rw [List.map_map]
                  exact borrowStructFields_mirrors ih v (List.range fields.length) hm' hv'
              | _ => exact .ok hm' (.refl _) rfl

end Mirrors

/-! ## The arguments of a call -/

/-- Which arguments are outputs or mut inputs. -/
def Sig.alone (sig : Sig) : List Bool :=
  sig.outs.map (fun _ => true) ++ sig.ins.map SigInput.isMut

/-- The arguments of a call, the first of them at position `i`. -/
def argVisits : Nat → List Lval → List Bool → List Visit
  | i, p :: ps, w :: ws => ⟨i, p, w⟩ :: argVisits (i + 1) ps ws
  | _, _, _ => []

/-- The place has a type, and its values are no portals. -/
def NoPortal (ctx : Context) (func : Func) (p : Lval) : Prop :=
  ∃ ty, func.types[lvalType ctx func p]? = some ty ∧ ty.isPortal = false

section Args

variable {E : Holds} {c : Checker} {ctx : Context} {func : Func} {loc : CodeLoc} {fuel : Nat}

theorem mem_argVisits {i : Nat} {ps : List Lval} {ws : List Bool} {v : Visit}
    (h : v ∈ argVisits i ps ws) : ∃ k, v.arg = i + k ∧ ps[k]? = some v.place ∧
      ws[k]? = some v.unique := by
  induction ps generalizing i ws with
  | nil => cases h
  | cons p ps ih =>
      cases ws with
      | nil => cases h
      | cons w ws =>
          rcases List.mem_cons.mp h with rfl | h
          · exact ⟨0, rfl, rfl, rfl⟩
          · obtain ⟨k, hk, hp, hw⟩ := ih h
            exact ⟨k + 1, by omega, hp, hw⟩

/-- The arguments before a position, the one at it, and those behind it. -/
theorem argVisits_split {i k : Nat} {places : List Lval} {alone : List Bool} {p : Lval} {w : Bool}
    (hp : places[k]? = some p) (hw : alone[k]? = some w) :
    ∃ A B, argVisits i places alone = A ++ ⟨i + k, p, w⟩ :: B ∧ (∀ x ∈ A, x.arg < i + k) ∧
      ∀ x ∈ B, i + k < x.arg := by
  induction places generalizing i k alone with
  | nil => cases hp
  | cons q places ih =>
      cases alone with
      | nil => cases hw
      | cons u alone =>
          cases k with
          | zero =>
              cases hp
              cases hw
              refine ⟨[], argVisits (i + 1) places alone, rfl, nofun, fun x hx => ?_⟩
              obtain ⟨n, hn, -⟩ := mem_argVisits hx
              omega
          | succ k =>
              obtain ⟨A, B, heq, hA, hB⟩ := ih (i := i + 1) hp hw
              have hk : i + 1 + k = i + (k + 1) := by omega
              rw [hk] at heq hA hB
              refine ⟨⟨i, q, u⟩ :: A, B, by rw [argVisits, heq]; rfl, ?_, hB⟩
              exact List.forall_mem_cons.mpr ⟨by show i < i + (k + 1); omega, hA⟩

theorem argVisits_append {i : Nat} {ps qs : List Lval} {ws us : List Bool}
    (h : ps.length = ws.length) : argVisits i (ps ++ qs) (ws ++ us) =
      argVisits i ps ws ++ argVisits (i + ps.length) qs us := by
  induction ps generalizing i ws with
  | nil =>
      cases ws with
      | nil => rfl
      | cons w ws => cases h
  | cons p ps ih =>
      cases ws with
      | nil => cases h
      | cons w ws =>
          have hi : i + (p :: ps).length = i + 1 + ps.length := by
            rw [List.length_cons]
            omega
          rw [List.cons_append, List.cons_append, argVisits, argVisits, ih (Nat.succ.inj h), hi,
            List.cons_append]

theorem Marked.firstMut {b : Borrow} {log : List Visit} (h : Marked b.checker E log) (par : Nat) :
    Marked ({ b with firstMut := par } : Borrow).checker E log :=
  h

theorem borrowOuts_mirrors {pars : List Nat} {ps : List Lval}
    (hps : List.Forall₂ c.Denotes pars ps) (i : Nat) {b : Borrow} {log : List Visit}
    (hm : Marked b.checker E log) (hext : c.Extends b.checker) :
    Mirrors E b.checker
      (Walks.walkAll (borrowWalk E ctx func fuel) (argVisits i ps (ps.map fun _ => true)) log)
      (borrowOuts ctx func loc fuel pars b) := by
  induction hps generalizing i b log with
  | nil => exact .ok hm (.refl _) rfl
  | @cons par p pars ps hp _ ih =>
      rw [List.map_cons, argVisits, Walks.walkAll, borrowOuts]
      refine (borrowPar_mirrors ⟨i, p, true⟩ log { b with firstMut := par } par hm
        (hp.mono hext)).bind fun log' b' hm' hext' => ?_
      exact ih (i + 1) hm' (hext.trans hext')

theorem borrowIns_mirrors {pars : List Nat} {ps : List Lval}
    (hps : List.Forall₂ c.Denotes pars ps) {inputs : List SigInput}
    (hmut : List.Forall₂ (fun p (input : SigInput) => input.isMut = true → NoPortal ctx func p)
      ps inputs) (i : Nat) {b : Borrow} {log : List Visit} (hm : Marked b.checker E log)
    (hext : c.Extends b.checker) :
    Mirrors E b.checker
      (Walks.walkAll (borrowWalk E ctx func fuel) (argVisits i ps (inputs.map SigInput.isMut)) log)
      (borrowIns ctx func loc fuel pars inputs b) := by
  induction hps generalizing i b log inputs with
  | nil =>
      cases hmut
      exact .ok hm (.refl _) rfl
  | @cons par p pars ps hp _ ih =>
      cases hmut with
      | @cons _ input _ inputs hin hmut =>
          have hp := hp.mono hext
          rw [List.map_cons, argVisits, Walks.walkAll, borrowIns]
          cases hisMut : input.isMut with
          | true =>
              obtain ⟨ty, hty, hportal⟩ := hin hisMut
              have hlt : ¬ func.types.length ≤ lvalType ctx func p :=
                Nat.not_le.mpr (List.getElem?_eq_some_iff.mp hty).1
              simp only [if_true, parType_eq hp, hty, hlt, Option.map_some, hportal, Option.getD_some,
                Bool.false_eq_true, or_self, if_false]
              refine (borrowPar_mirrors ⟨i, p, true⟩ log { b with firstMut := par } par hm
                hp).bind fun log' b' hm' hext' => ?_
              exact ih hmut (i + 1) hm' (hext.trans hext')
          | false =>
              simp only [Bool.false_eq_true, if_false]
              refine (borrowPar_mirrors ⟨i, p, false⟩ log b par hm hp).bind
                fun log' b' hm' hext' => ?_
              exact ih hmut (i + 1) hm' (hext.trans hext')

/-- The outputs come before the inputs. -/
theorem argVisits_sig {sig : Sig} {ps : List Lval} (hlen : ps.length = sig.argc) :
    argVisits 0 ps sig.alone =
      argVisits 0 (ps.take sig.outs.length) ((ps.take sig.outs.length).map fun _ => true) ++
        argVisits sig.outs.length (ps.drop sig.outs.length) (sig.ins.map SigInput.isMut) := by
  have hcount : (ps.take sig.outs.length).length = sig.outs.length := by
    rw [List.length_take, hlen, Sig.argc]
    omega
  have houts : (ps.take sig.outs.length).map (fun _ => true) = sig.outs.map fun _ => true := by
    rw [List.map_const', List.map_const', hcount]
  have happend := @argVisits_append 0 (ps.take sig.outs.length) (ps.drop sig.outs.length)
    (sig.outs.map fun _ => true) (sig.ins.map SigInput.isMut) (by rw [hcount, List.length_map])
  rw [List.take_append_drop, hcount, Nat.zero_add] at happend
  rw [houts, Sig.alone, happend]

theorem borrowCheckSig_eq {sig : Sig} {args : List Nat} :
    borrowCheckSig ctx func loc fuel sig args c =
      (borrowOuts ctx func loc fuel (args.take sig.outs.length) { checker := c.freeAll } >>=
        borrowIns ctx func loc fuel (args.drop sig.outs.length) sig.ins).map Borrow.checker := by
  rw [borrowCheckSig]
  cases borrowOuts ctx func loc fuel (args.take sig.outs.length) { checker := c.freeAll } with
  | error e => rfl
  | ok b =>
      show (borrowIns ctx func loc fuel (args.drop sig.outs.length) sig.ins b >>= _) =
        (borrowIns ctx func loc fuel (args.drop sig.outs.length) sig.ins b).map Borrow.checker
      cases borrowIns ctx func loc fuel (args.drop sig.outs.length) sig.ins b with
      | error e => rfl
      | ok b => rfl

theorem samePars_freeAll (c : Checker) : SamePars c c.freeAll :=
  samePars_of_freeAll (by simp [Checker.freeAll])

/-- `borrow_check_sig` follows the walk from the arguments. -/
theorem borrowCheckSig_mirrors {sig : Sig} {args : List Nat} {ps : List Lval} (hrep : Rep c E)
    (hargs : List.Forall₂ c.Denotes args ps) (hlen : ps.length = sig.argc)
    (hmut : List.Forall₂ (fun p (input : SigInput) => input.isMut = true → NoPortal ctx func p)
      (ps.drop sig.outs.length) sig.ins) :
    ∃ s, borrowCheckSig ctx func loc fuel sig args c = s.map Borrow.checker ∧
      Mirrors E c (Walks.walkAll (borrowWalk E ctx func fuel) (argVisits 0 ps sig.alone) []) s := by
  have hsame := samePars_freeAll c
  have hargs : List.Forall₂ c.freeAll.Denotes args ps := hargs.imp fun _ _ h => hsame.denotes.mpr h
  refine ⟨_, borrowCheckSig_eq, ?_⟩
  rw [argVisits_sig hlen, walkAll_append]
  refine (?_ : Mirrors E c.freeAll _ _).weaken hsame.extends_ rfl
  refine (borrowOuts_mirrors (b := { checker := c.freeAll })
    (List.forall₂_take sig.outs.length hargs) 0 (marked_freeAll hrep) (.refl _)).bind
    fun log b hm hext => ?_
  exact borrowIns_mirrors (List.forall₂_drop sig.outs.length hargs) hmut _ hm hext

/-- The mut inputs of a call that is accepted are no portals. -/
theorem borrowIns_noPortal {pars : List Nat} {ps : List Lval}
    (hps : List.Forall₂ c.Denotes pars ps) {inputs : List SigInput}
    (hlen : ps.length = inputs.length) {b b' : Borrow} {log : List Visit}
    (hm : Marked b.checker E log) (hext : c.Extends b.checker)
    (h : borrowIns ctx func loc fuel pars inputs b = .ok b') :
    List.Forall₂ (fun p (input : SigInput) => input.isMut = true → NoPortal ctx func p)
      ps inputs := by
  induction hps generalizing b log inputs with
  | nil =>
      rw [List.length_eq_zero_iff.mp hlen.symm]
      exact .nil
  | @cons par p pars ps hp _ ih =>
      cases inputs with
      | nil => cases hlen
      | cons input inputs =>
          have hp := hp.mono hext
          -- the rest of the inputs, after the borrow of the first one
          have hrest : ∀ b₀ : Borrow, b₀.checker = b.checker →
              (borrowPar ctx func loc fuel par (Life.ofUnique input.isMut) b₀ >>=
                borrowIns ctx func loc fuel pars inputs) = .ok b' →
              List.Forall₂ (fun p (input : SigInput) => input.isMut = true → NoPortal ctx func p)
                ps inputs := by
            intro b₀ hb₀ h
            obtain ⟨b₁, hb₁, h⟩ := bind_eq_ok.mp h
            have hmirrors : Mirrors E b₀.checker _ (borrowPar ctx func loc fuel par _ b₀) :=
              borrowPar_mirrors ⟨0, p, input.isMut⟩ log b₀ par (hb₀ ▸ hm) (hb₀ ▸ hp)
            rw [hb₁] at hmirrors
            generalize borrowWalk E ctx func fuel ⟨0, p, input.isMut⟩ log = r at hmirrors
            cases hmirrors with
            | ok hm' hext' _ => exact ih (Nat.succ.inj hlen) hm' (hext.trans (hb₀ ▸ hext')) h
          rw [borrowIns] at h
          cases hisMut : input.isMut with
          | true =>
              rw [hisMut, if_pos rfl] at h
              simp only at h
              split at h
              · cases h
              · rename_i hportal
                obtain ⟨hlt, hportal⟩ := not_or.mp hportal
                rw [parType_eq hp] at hlt hportal
                have hty := List.getElem?_eq_getElem (Nat.not_le.mp hlt)
                refine .cons (fun _ => ⟨_, hty, ?_⟩)
                  (hrest { b with firstMut := par } rfl (by rw [hisMut]; exact h))
                rw [hty] at hportal
                exact Bool.not_eq_true _ ▸ hportal
          | false =>
              rw [hisMut, if_neg Bool.false_ne_true] at h
              refine .cons (fun hin => ?_) (hrest b rfl (by rw [hisMut]; exact h))
              rw [hisMut] at hin
              cases hin

/-- The mut inputs of an accepted call are no portals. -/
theorem borrowCheckSig_noPortal {sig : Sig} {args : List Nat} {ps : List Lval} (hrep : Rep c E)
    (hargs : List.Forall₂ c.Denotes args ps) (hlen : ps.length = sig.argc) {c' : Checker}
    (h : borrowCheckSig ctx func loc fuel sig args c = .ok c') :
    List.Forall₂ (fun p (input : SigInput) => input.isMut = true → NoPortal ctx func p)
      (ps.drop sig.outs.length) sig.ins := by
  have hsame := samePars_freeAll c
  have hfree : List.Forall₂ c.freeAll.Denotes args ps := hargs.imp fun _ _ h => hsame.denotes.mpr h
  rw [borrowCheckSig] at h
  obtain ⟨b, houts, h⟩ := bind_eq_ok.mp h
  obtain ⟨b', hins, -⟩ := bind_eq_ok.mp h
  have hmirrors := @borrowOuts_mirrors E _ ctx func loc fuel _ _
    (List.forall₂_take sig.outs.length hfree) 0 ⟨parIdxInvalid, c.freeAll⟩ [] (marked_freeAll hrep)
    (.refl _)
  rw [houts] at hmirrors
  generalize Walks.walkAll _ _ _ = r at hmirrors
  cases hmirrors with
  | ok hm hext _ =>
      refine borrowIns_noPortal (List.forall₂_drop sig.outs.length hfree) ?_ hm hext hins
      rw [List.length_drop, hlen, Sig.argc]
      omega

/-- A call that is accepted keeps the hold edges and the stack, and the walk from its arguments has
come to its end. -/
theorem borrowCheckSig_keeps {sig : Sig} {args : List Nat} {ps : List Lval} (hrep : Rep c E)
    (hargs : List.Forall₂ c.Denotes args ps) (hlen : ps.length = sig.argc) {c' : Checker}
    (h : borrowCheckSig ctx func loc fuel sig args c = .ok c') :
    (Rep c' E ∧ c.Extends c' ∧ c'.pars = c.pars) ∧
      ∃ log, Walks.walkAll (borrowWalk E ctx func fuel) (argVisits 0 ps sig.alone) [] = .ok log := by
  obtain ⟨s, hs, hmirrors⟩ := @borrowCheckSig_mirrors E c ctx func loc fuel _ _ _ hrep hargs hlen
    (borrowCheckSig_noPortal hrep hargs hlen h)
  rw [hs] at h
  obtain ⟨b, rfl, rfl⟩ := map_eq_ok.mp h
  generalize Walks.walkAll _ _ _ = r at hmirrors ⊢
  cases hmirrors with
  | ok hm hext hpars => exact ⟨⟨hm.rep, hext, hpars⟩, _, rfl⟩

end Args

end TreeVM
