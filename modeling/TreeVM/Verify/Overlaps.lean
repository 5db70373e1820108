import TreeVM.Verify.Cycles

/-!
# Overlapping arguments

`borrow_par` marks the fields below a place and takes an array for its elements.  It never goes down
from an array to its elements.

* `HasPart`: the fields of structs and the elements of arrays in a place; `Overlaps`: one way or
  the other;
* `Lval.whole`: the place without the array steps at its end;
* `FieldsApart`: no field of an array element lies between two places;
* `accepted_overlap_iff`: in an accepted call, the overlaps that this hides.
-/

namespace TreeVM

section Places

variable (ctx : Context) (func : Func)

/-- The places in a place: fields of structs and elements of arrays, at any depth. -/
inductive HasPart (p : Lval) : Lval → Prop
  | self : HasPart p p
  | field {q r} : HasPart p q → r ∈ lvalFields ctx func q → HasPart p r
  | element {q} : HasPart p q → ((kindAt func (lvalType ctx func q)).map TypeKind.isArray).getD false →
      HasPart p (.elem q)

/-- One of the places is part of the other. -/
def Overlaps (p q : Lval) : Prop :=
  HasPart ctx func p q ∨ HasPart ctx func q p

end Places

/-- The place without the array steps at its end -/
def Lval.whole : Lval → Lval
  | elem p => p.whole
  | p => p

/-- Apart from array steps at their ends, only struct fields lie between the places. -/
def FieldsApart (ctx : Context) (func : Func) (p q : Lval) : Prop :=
  Subtree ctx func p.whole q.whole ∨ Subtree ctx func q.whole p.whole

section Walk

variable {ctx : Context} {func : Func} {E : Holds} {places : List Lval} {alone : List Bool}
  {V : List Visit}

theorem Visit.standsFor (v : Visit) :
    Walks.StandsFor Visit.redirect v ⟨v.arg, v.place.whole, v.unique⟩ := by
  obtain ⟨arg, place, unique⟩ := v
  induction place with
  | elem p ih => exact .step rfl ih
  | var i => exact .self rfl
  | arg i => exact .self rfl
  | global i => exact .self rfl
  | field p i _ => exact .self rfl

theorem field_parent {p q : Lval} (h : q ∈ lvalFields ctx func p) : ∃ i, q = .field p i := by
  rw [lvalFields] at h
  split at h
  · obtain ⟨i, -, rfl⟩ := List.mem_map.mp h
    exact ⟨i, rfl⟩
  · cases h

theorem field_whole {p q : Lval} (h : q ∈ lvalFields ctx func p) : q.whole = q := by
  obtain ⟨i, rfl⟩ := field_parent h
  rfl

/-- A complete walk has visited the fields below an argument. -/
theorem subtree_visited (hV : Walks.Visits Visit.redirect (Visit.kids ctx func E)
    (argVisits 0 places alone) V) {i : Nat} {p q : Lval} {unique : Bool} (hp : places[i]? = some p)
    (hi : alone[i]? = some unique) (htree : Subtree ctx func p.whole q) : ⟨i, q, unique⟩ ∈ V := by
  induction htree with
  | refl =>
      obtain ⟨A, B, heq, -, -⟩ := argVisits_split (i := 0) hp hi
      rw [Nat.zero_add] at heq
      have hmem : ⟨i, p, unique⟩ ∈ argVisits 0 places alone := by
        rw [heq]
        exact List.mem_append_right _ List.mem_cons_self
      exact hV.mem hmem (Visit.standsFor _)
  | @tail q r _ hr ih =>
      have hkid : ⟨i, r, unique⟩ ∈ Visit.kids ctx func E ⟨i, q, unique⟩ :=
        List.mem_append_right _ (List.mem_map.mpr ⟨r, hr, rfl⟩)
      have hvisit := hV.mem_kids ih hkid (Visit.standsFor _)
      rwa [field_whole hr] at hvisit

/-- An argument below another one clashes with it, if one of them is borrowed alone. -/
theorem subtree_clashes (hV : Walks.Visits Visit.redirect (Visit.kids ctx func E)
    (argVisits 0 places alone) V) (hclear : Walks.Clear Visit.clash [] V) {i j : Nat} {p q : Lval}
    {a b : Bool} (hne : i ≠ j) (hp : places[i]? = some p) (hi : alone[i]? = some a)
    (hq : places[j]? = some q) (hj : alone[j]? = some b) (hunique : a = true ∨ b = true) :
    ¬ Subtree ctx func p.whole q.whole := by
  intro htree
  have hu := subtree_visited hV hp hi htree
  have hv := subtree_visited hV hq hj (Relation.ReflTransGen.refl)
  have hsymm : Std.Symm fun u v : Visit => ¬ u.clash v :=
    ⟨fun u v h hclash => h ⟨hclash.1.symm, hclash.2.symm⟩⟩
  refine hclear.2.forall hu hv (fun heq => hne ?_) ⟨rfl, hunique⟩
  exact congrArg Visit.arg heq

end Walk

/-- Two places have a field in common only if one of them is below the other. -/
theorem subtree_common {ctx : Context} {func : Func} {p q r : Lval} (hp : Subtree ctx func p r)
    (hq : Subtree ctx func q r) : Subtree ctx func p q ∨ Subtree ctx func q p := by
  induction r generalizing p q with
  | field r i ih =>
      -- the last step is the same for both
      have hlast : ∀ {t}, Subtree ctx func t (.field r i) → t = .field r i ∨ Subtree ctx func t r := by
        intro t ht
        rcases Relation.ReflTransGen.cases_tail ht with heq | ⟨u, hu, hfield⟩
        · exact .inl heq.symm
        · obtain ⟨k, hk⟩ := field_parent hfield
          cases hk
          exact .inr hu
      rcases hlast hp with rfl | hp'
      · exact .inr hq
      rcases hlast hq with rfl | hq'
      · exact .inl hp
      exact ih hp' hq'
  | _ =>
      rcases Relation.ReflTransGen.cases_tail hp with rfl | ⟨u, -, hfield⟩
      · exact .inr hq
      · exact absurd (field_parent hfield) (by simp)

/-- Nothing is part of the place. -/
def Lval.Leaf (ctx : Context) (func : Func) (p : Lval) : Prop :=
  lvalFields ctx func p = [] ∧ ((kindAt func (lvalType ctx func p)).map TypeKind.isArray).getD false = false

theorem HasPart.of_leaf {ctx : Context} {func : Func} {p q : Lval} (hp : p.Leaf ctx func)
    (h : HasPart ctx func p q) : q = p := by
  induction h with
  | self => rfl
  | field _ hr ih =>
      rw [ih, hp.1] at hr
      cases hr
  | element _ harray ih =>
      rw [ih, hp.2] at harray
      cases harray

/-- Places without parts overlap only if they are the same. -/
theorem overlaps_leaves {ctx : Context} {func : Func} {p q : Lval} (hp : p.Leaf ctx func)
    (hq : q.Leaf ctx func) : Overlaps ctx func p q → FieldsApart ctx func p q := by
  rintro (h | h)
  · obtain rfl := h.of_leaf hp
    exact .inl .refl
  · obtain rfl := h.of_leaf hq
    exact .inl .refl

/-- In a call of accepted functions, two arguments of which one is an output or a mut input do not
overlap, if and only if overlapping ones have only struct fields between them.  Where something else
is between them, their borrows have no field in common. -/
theorem accepted_overlap_iff {ctx : Context} {fuel : Nat} {c₀ c c' : Checker} (h₀ : c₀.Ok)
    (hfirst : firstPass ctx fuel c₀ = .ok c) (hsecond : borrowPass ctx fuel c = .ok c') {site : Site}
    (hmeets : Meets ctx (borrowHandler ctx fuel) fuel c site) {func : Func}
    (hfunc : ctx.funcs[site.current]? = some func) {sig : Sig} {skip : Nat}
    (hcalled : calledSig ctx func site.op site.checker = some (sig, skip)) :
    ∃ places, List.Forall₂ site.checker.Denotes (site.checker.args skip sig.argc) places ∧
      ∀ (i j : Nat) (p q : Lval) (a b : Bool), i ≠ j → places[i]? = some p → places[j]? = some q →
        sig.alone[i]? = some a → sig.alone[j]? = some b → (a = true ∨ b = true) →
        (¬ Overlaps ctx func p q ↔ (Overlaps ctx func p q → FieldsApart ctx func p q)) ∧
        (¬ FieldsApart ctx func p q →
          ∀ r, Subtree ctx func p.whole r → ¬ Subtree ctx func q.whole r) := by
  obtain ⟨func', E, ps, hfunc', -, hrep, hs, htypes⟩ := hmeets.typed h₀ hfirst
  rw [hfunc] at hfunc'
  cases hfunc'
  have hargs := calledSig_argsOk hs hcalled htypes
  have hlen : (argPlaces ps sig skip).length = sig.argc := by
    rw [← sig.length_args, ← argPlaces_types hargs, List.length_map]
  -- the call is accepted, so the walk from its arguments has come to an end
  obtain ⟨d, hd⟩ := hmeets.accepts hsecond
  rw [borrowHandler, inFunc] at hd
  simp only [hfunc] at hd
  rw [borrowCheckCall_eq hcalled] at hd
  split at hd
  · cases hd
  obtain ⟨-, log, hwalk⟩ := borrowCheckSig_keeps hrep (args_stack hs skip sig.argc) hlen hd
  obtain ⟨V, hV, hclear, -⟩ := Walks.visits_of_walk hwalk
  refine ⟨argPlaces ps sig skip, args_stack hs skip sig.argc, ?_⟩
  intro i j p q a b hne hp hq hi hj hunique
  refine ⟨?_, fun hapart r hpr hqr => hapart (subtree_common hpr hqr)⟩
  constructor
  · intro hnot hoverlaps
    exact absurd hoverlaps hnot
  · intro hfields hoverlaps
    rcases hfields hoverlaps with htree | htree
    · exact subtree_clashes hV hclear hne hp hi hq hj hunique htree
    · exact subtree_clashes hV hclear hne.symm hq hj hp hi hunique.symm htree

/-! ## A field of an array element -/

section HiddenField

def pairTypes : List Ty :=
  (layoutAll [{ kind := .int }, { kind := .byte }, { kind := .struct [⟨intId, 0⟩] },
    { kind := .array 2 4 0 }]).getD []

/-- A function with an array of structs and an `int` as outputs -/
def pairCallee : Func where
  sig := ⟨[], [3, intId]⟩
  types := pairTypes
  blocks := [.basic ⟨0, 0⟩]
  ops := []
  vars := [3, intId]

/-- Hands over an array, and a field of one of its elements. -/
def pairCaller : Func where
  sig := ⟨[], []⟩
  types := pairTypes
  blocks := [.var 0 1, .var 1 2, .basic ⟨0, 6⟩]
  ops := [⟨.pushVar, 0⟩, ⟨.pushVar, 0⟩, ⟨.pushVar, 1⟩, ⟨.arrAt, 0⟩, ⟨.structAt, 0⟩, ⟨.call, 0⟩]
  vars := [3, intId]

def hiddenField : Context where
  funcs := [pairCallee, pairCaller]
  globals := []

/-- The checker after either pass -/
def hiddenChecker (pars : List Nat) : Checker where
  handles := [⟨⟨.localVar, 0, 0⟩, .free, 0, 0⟩, ⟨⟨.localVar, 1, 0⟩, .free, 0, 0⟩,
    ⟨⟨.arrMember, 0, 0⟩, .free, 0, 0⟩, ⟨⟨.structField, 0, 2⟩, .free, 0, 0⟩]
  pars := pars

/-- The call of `pairCallee` -/
def hiddenSite : Site where
  current := 1
  state := ⟨2, [1, 2]⟩
  op := ⟨.call, 0⟩
  loc := ⟨2, 5⟩
  checker := hiddenChecker [3, 0]

theorem hiddenField_firstPass : firstPass hiddenField 20 {} = .ok (hiddenChecker []) := by
  decide

theorem hiddenSite_meets :
    Meets hiddenField (borrowHandler hiddenField 20) 20 (hiddenChecker []) hiddenSite :=
  ⟨.error .rejected, by decide⟩

theorem hiddenField_secondPass : ∃ c', borrowPass hiddenField 20 (hiddenChecker []) = .ok c' :=
  ⟨{ hiddenChecker [] with
    handles := (hiddenChecker []).handles.mapIdx fun i h =>
      { h with life := if i = 0 ∨ i = 3 then .unique else .free } }, by decide⟩

/-- The places of the arguments are the array and a field of its elements. -/
theorem hidden_places {places : List Lval}
    (h : List.Forall₂ hiddenSite.checker.Denotes (hiddenSite.checker.args 0 2) places) :
    places = [.var 0, .field (.elem (.var 0)) 0] := by
  have hvar : hiddenSite.checker.Denotes 0 (.var 0) := .var rfl
  have hfield : hiddenSite.checker.Denotes 3 (.field (.elem (.var 0)) 0) :=
    .field rfl (by decide) (.elem rfl (by decide) hvar)
  obtain - | ⟨hfirst, h⟩ := h
  obtain - | ⟨hsecond, h⟩ := h
  obtain - | - := h
  rw [← hvar.unique hfirst, ← hfield.unique hsecond]

/-- The functions are accepted, and one of the outputs of the call is part of the other. -/
theorem hiddenField_accepted : ∃ c c' site func sig skip, firstPass hiddenField 20 {} = .ok c ∧
    borrowPass hiddenField 20 c = .ok c' ∧
    Meets hiddenField (borrowHandler hiddenField 20) 20 c site ∧
    hiddenField.funcs[site.current]? = some func ∧
    calledSig hiddenField func site.op site.checker = some (sig, skip) ∧
    ∀ places, List.Forall₂ site.checker.Denotes (site.checker.args skip sig.argc) places →
      ∃ (i j : Nat) (p q : Lval), i ≠ j ∧ places[i]? = some p ∧ places[j]? = some q ∧
        sig.alone[i]? = some true ∧ sig.alone[j]? = some true ∧ Overlaps hiddenField func p q := by
  obtain ⟨c', hsecond⟩ := hiddenField_secondPass
  refine ⟨_, c', hiddenSite, pairCaller, ⟨[], [3, intId]⟩, 0, hiddenField_firstPass, hsecond,
    hiddenSite_meets, rfl, rfl, fun places hplaces => ?_⟩
  obtain rfl := hidden_places hplaces
  refine ⟨0, 1, _, _, by decide, rfl, rfl, rfl, rfl, .inl (.field (.element .self ?_) ?_)⟩
  · decide
  · decide

end HiddenField

/-! ## The fields of a struct -/

section Halves

def halvesTypes : List Ty :=
  (layoutAll [{ kind := .int }, { kind := .byte }, { kind := .struct [⟨intId, 0⟩, ⟨intId, 0⟩] }]).getD []

/-- A function with two `int`s as outputs -/
def halvesCallee : Func where
  sig := ⟨[], [intId, intId]⟩
  types := halvesTypes
  blocks := [.basic ⟨0, 0⟩]
  ops := []
  vars := [intId, intId]

/-- Hands over both fields of a struct. -/
def halvesCaller : Func where
  sig := ⟨[], []⟩
  types := halvesTypes
  blocks := [.var 0 1, .basic ⟨0, 5⟩]
  ops := [⟨.pushVar, 0⟩, ⟨.structAt, 0⟩, ⟨.pushVar, 0⟩, ⟨.structAt, 1⟩, ⟨.call, 0⟩]
  vars := [2]

def halves : Context where
  funcs := [halvesCallee, halvesCaller]
  globals := []

/-- The checker after a pass, with the marks of the fields -/
def halvesChecker (life : Life) (pars : List Nat) : Checker where
  handles := [⟨⟨.localVar, 0, 0⟩, .free, 0, 0⟩, ⟨⟨.structField, 0, 0⟩, life, 0, 0⟩,
    ⟨⟨.structField, 1, 0⟩, life, 0, 0⟩]
  pars := pars

/-- The call of `halvesCallee` -/
def halvesSite : Site where
  current := 1
  state := ⟨1, [1]⟩
  op := ⟨.call, 0⟩
  loc := ⟨1, 4⟩
  checker := halvesChecker .free [2, 1]

theorem halves_firstPass : firstPass halves 20 {} = .ok (halvesChecker .free []) := by
  decide

theorem halves_secondPass : borrowPass halves 20 (halvesChecker .free []) = .ok (halvesChecker .unique []) := by
  decide

theorem halvesSite_meets : Meets halves (borrowHandler halves 20) 20 (halvesChecker .free []) halvesSite :=
  ⟨.error .rejected, by decide⟩

theorem halves_places {places : List Lval}
    (h : List.Forall₂ halvesSite.checker.Denotes (halvesSite.checker.args 0 2) places) :
    places = [.field (.var 0) 0, .field (.var 0) 1] := by
  have hfield : ∀ i < 2, halvesSite.checker.Denotes (i + 1) (.field (.var 0) i) := by
    intro i hi
    have hcases : i = 0 ∨ i = 1 := by omega
    rcases hcases with rfl | rfl <;> exact .field rfl (by decide) (.var rfl)
  obtain - | ⟨hfirst, h⟩ := h
  obtain - | ⟨hsecond, h⟩ := h
  obtain - | - := h
  rw [← (hfield 0 (by decide)).unique hfirst, ← (hfield 1 (by decide)).unique hsecond]

end Halves

/-- Neither of the first two places is reached from the other by fields; the fields of a struct do not
overlap. -/
theorem accepted_overlap_iff_fields :
    ¬ FieldsApart hiddenField pairCaller (.var 0) (.field (.elem (.var 0)) 0) ∧
      ¬ Overlaps halves halvesCaller (.field (.var 0) 0) (.field (.var 0) 1) := by
  constructor
  · obtain ⟨c', hsecond⟩ := hiddenField_secondPass
    obtain ⟨places, hplaces, hall⟩ := accepted_overlap_iff ok_empty hiddenField_firstPass hsecond
      hiddenSite_meets (show hiddenField.funcs[1]? = some pairCaller from rfl)
      (show calledSig hiddenField pairCaller hiddenSite.op hiddenSite.checker =
        some (⟨[], [3, intId]⟩, 0) from rfl)
    obtain rfl := hidden_places hplaces
    obtain ⟨hiff, -⟩ := hall 0 1 _ _ true true (by decide) rfl rfl rfl rfl (.inl rfl)
    intro hfields
    refine hiff.mpr (fun _ => hfields) (.inl (.field (.element .self ?_) ?_))
    · decide
    · decide
  · obtain ⟨places, hplaces, hall⟩ := accepted_overlap_iff ok_empty halves_firstPass halves_secondPass
      halvesSite_meets (show halves.funcs[1]? = some halvesCaller from rfl)
      (show calledSig halves halvesCaller halvesSite.op halvesSite.checker =
        some (⟨[], [intId, intId]⟩, 0) from rfl)
    obtain rfl := halves_places hplaces
    obtain ⟨hiff, -⟩ := hall 0 1 _ _ true true (by decide) rfl rfl rfl rfl (.inl rfl)
    refine hiff.mpr (overlaps_leaves ?_ ?_)
    · exact ⟨by decide, by decide⟩
    · exact ⟨by decide, by decide⟩

end TreeVM
