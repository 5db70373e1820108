import TreeVM.Compile.Reads

/-!
# The cache of callees

Between two compilations of the REPL the context changes.  The table of callees is kept.

* `Table.Fresh`: each entry is what compiling its function now would give, with no callee to
  compile; `fresh_iff`: the same in terms of `Grows`;
* `Table.behind`, `Table.Fresh.compile`: the table behind a compilation, also a failed one;
* `Table.Fresh.congr`: in another context that looks the same to the functions.
-/

namespace TreeVM

/-- Compiling the function of an entry now gives the entry, and finds all callees in the table. -/
def Table.Fresh (t : Table) (ctx : Context) (place : Nat → UInt64) : Prop :=
  ∀ (i : Nat) (code : Code), t[i]? = some (some code) → ∃ f fuel, ctx.funcs[i]? = some f ∧
    compileFunc ctx place fuel f t = .ok (code, t)

/-- What is in the table stays there. -/
def Table.Keeps (t t' : Table) : Prop :=
  ∀ (i : Nat) (code : Code), t[i]? = some (some code) → t'[i]? = some (some code)

/-- The table behind a fallible step -/
def Table.behind {α : Type} (table : α → Table) : Except Table α → Table
  | .ok a => table a
  | .error t => t

namespace Table

variable {ctx ctx' : Context} {place : Nat → UInt64} {f : Func} {fuel : Nat} {t t' t'' : Table}
  {code : Code} {i j : Nat}

theorem Keeps.refl (t : Table) : t.Keeps t :=
  fun _ _ h => h

theorem Keeps.trans (h : t.Keeps t') (h' : t'.Keeps t'') : t.Keeps t'' :=
  fun i code hi => h' i code (h i code hi)

theorem keeps_ensureSlot (t : Table) (i : Nat) : t.Keeps (ensureSlot t i) := by
  intro j code hj
  rw [ensureSlot, List.getElem?_append_left (List.getElem?_eq_some_iff.mp hj).1]
  exact hj

theorem Has.ensureSlot (h : t.Has i) : TreeVM.ensureSlot t i = t := by
  obtain ⟨code, hcode⟩ := h
  have hlt : i < t.length := (List.getElem?_eq_some_iff.mp hcode).1
  rw [TreeVM.ensureSlot, Nat.sub_eq_zero_of_le (Nat.succ_le_of_lt hlt), List.replicate_zero,
    List.append_nil]

theorem compileFunc_grows (h : compileFunc ctx place fuel f t = .ok (code, t')) :
    Grows ctx place t t' := by
  obtain ⟨c, hc, hresult⟩ := map_eq_ok.mp h
  cases hresult
  exact (compileState_sound hc).grows

/-! ### The table behind a compilation -/

/-- The entries stay as they are, and new ones are code. -/
structure Fills (ctx : Context) (place : Nat → UInt64) (t t' : Table) : Prop where
  grows : Grows ctx place t t'
  keeps : t.Keeps t'

theorem Fills.refl (t : Table) : Fills ctx place t t :=
  ⟨.refl t, .refl t⟩

theorem Fills.trans (h : Fills ctx place t t') (h' : Fills ctx place t' t'') : Fills ctx place t t'' :=
  ⟨h.grows.trans h'.grows, h.keeps.trans h'.keeps⟩

theorem fills_ensureSlot (t : Table) (i : Nat) : Fills ctx place t (ensureSlot t i) :=
  ⟨.ensureSlot ctx place t i, keeps_ensureSlot t i⟩

/-- Asking for a callee, given what compiling it does to the table -/
theorem fills_callee (hcompile : ∀ f t, Fills ctx place t (behind Prod.snd (compileFunc ctx place fuel f t)))
    (i : Nat) (t : Table) :
    Fills ctx place t (behind id (contextFuncCode ctx (compileFunc ctx place fuel) i t)) := by
  cases hf : ctx.funcs[i]? with
  | none =>
      rw [contextFuncCode_none hf]
      exact .refl t
  | some f =>
      have hslot : Fills ctx place t (ensureSlot t i) := fills_ensureSlot t i
      by_cases hhas : t.Has i
      · rw [contextFuncCode_has hf hhas]
        exact hslot
      · have hinner := hcompile f (ensureSlot t i)
        cases hrun : compileFunc ctx place fuel f (ensureSlot t i) with
        | error t₁ =>
            rw [contextFuncCode_compiles hf hhas, hrun]
            rw [hrun] at hinner
            exact hslot.trans hinner
        | ok result =>
            obtain ⟨code, t₁⟩ := result
            rw [hrun] at hinner
            have hask : contextFuncCode ctx (compileFunc ctx place fuel) i t = .ok (t₁.set i (some code)) := by
              rw [contextFuncCode_compiles hf hhas, hrun]
              rfl
            rw [hask]
            refine ⟨(contextFuncCode_ok (fun h => compileFunc_grows h) hask).1, fun j c hj => ?_⟩
            -- the slot that is written was empty
            have hne : i ≠ j := by
              rintro rfl
              exact hhas ⟨c, hj⟩
            rw [behind, id, List.getElem?_set_ne hne]
            exact hinner.keeps j c (keeps_ensureSlot t i j c hj)

theorem fills_askAll {callee : Nat → Table → Except Table Table}
    (hcallee : ∀ i t, Fills ctx place t (behind id (callee i t))) (asks : List Nat) (t : Table) :
    Fills ctx place t (behind id (askAll callee asks t)) := by
  induction asks generalizing t with
  | nil => exact .refl t
  | cons i asks ih =>
      have hfirst := hcallee i t
      rw [askAll]
      cases hrun : callee i t with
      | error t₁ =>
          rw [hrun] at hfirst
          exact hfirst
      | ok t₁ =>
          rw [hrun] at hfirst
          exact hfirst.trans (ih t₁)

theorem compileFunc_eq_plan : compileFunc ctx place (fuel + 1) f t =
    (f.plan ctx place fuel).carryOut ctx (compileFunc ctx place fuel) t := by
  rw [Plan.carryOut, ← compileBody_eq_plan]
  rfl

/-- A compilation keeps what is in the table, and adds code only, whether it succeeds or not. -/
theorem compileFunc_fills (fuel : Nat) (f : Func) (t : Table) :
    Fills ctx place t (behind Prod.snd (compileFunc ctx place fuel f t)) := by
  induction fuel generalizing f t with
  | zero => exact .refl t
  | succ fuel ih =>
      have hasks := fills_askAll (fills_callee ih) (f.plan ctx place fuel).asks t
      rw [compileFunc_eq_plan, Plan.carryOut]
      cases hrun : askAll (contextFuncCode ctx (compileFunc ctx place fuel))
          (f.plan ctx place fuel).asks t with
      | error t₁ =>
          rw [hrun] at hasks
          exact hasks
      | ok t₁ =>
          rw [hrun] at hasks
          cases (f.plan ctx place fuel).ends with
          | none => exact hasks
          | some c => exact hasks

/-! ### Compiling again -/

/-- The callees that were asked for are in the table. -/
theorem askAll_has {asks : List Nat}
    (h : askAll (contextFuncCode ctx (compileFunc ctx place fuel)) asks t = .ok t') (hj : j ∈ asks) :
    t'.Has j ∧ ∃ g, ctx.funcs[j]? = some g := by
  induction asks generalizing t with
  | nil => cases hj
  | cons i asks ih =>
      obtain ⟨t₁, hask, hrest⟩ := bind_eq_ok.mp h
      rcases List.mem_cons.mp hj with rfl | hj
      · have hhas := (contextFuncCode_ok (fun h => compileFunc_grows h) hask).2
        have hfills : Fills ctx place t₁ _ := fills_askAll (fills_callee (compileFunc_fills fuel)) asks t₁
        rw [hrest] at hfills
        refine ⟨hfills.grows.has j hhas, ?_⟩
        cases hg : ctx.funcs[j]? with
        | none =>
            rw [contextFuncCode_none hg] at hask
            cases hask
        | some g => exact ⟨g, rfl⟩
      · exact ih hrest hj

theorem askAll_cached {asks : List Nat} {compile : Func → Table → Except Table (Code × Table)}
    (hhas : ∀ j ∈ asks, t.Has j ∧ ∃ g, ctx.funcs[j]? = some g) :
    askAll (contextFuncCode ctx compile) asks t = .ok t := by
  induction asks with
  | nil => rfl
  | cons i asks ih =>
      obtain ⟨hi, g, hg⟩ := hhas i List.mem_cons_self
      rw [askAll, contextFuncCode_has hg hi, hi.ensureSlot]
      exact ih fun j hj => hhas j (List.mem_cons_of_mem i hj)

/-- With its callees in the table a function is compiled to the same code again, and nothing else
is. -/
theorem recompiled (h : compileFunc ctx place fuel f t = .ok (code, t'))
    (hhas : ∀ j, t'.Has j → t''.Has j) : compileFunc ctx place fuel f t'' = .ok (code, t'') := by
  cases fuel with
  | zero => cases h
  | succ fuel =>
      rw [compileFunc_eq_plan, Plan.carryOut] at h ⊢
      obtain ⟨c, hc, hresult⟩ := map_eq_ok.mp h
      obtain ⟨t₁, hasks, hends⟩ := bind_eq_ok.mp hc
      cases hplan : (f.plan ctx place fuel).ends with
      | none =>
          rw [hplan] at hends
          cases hends
      | some c₀ =>
          rw [hplan] at hends
          cases hends
          cases hresult
          rw [askAll_cached fun j hj => ⟨hhas j (askAll_has hasks hj).1, (askAll_has hasks hj).2⟩]
          rfl

/-! ### Fresh tables -/

theorem fresh_iff : t.Fresh ctx place ↔ Grows ctx place [] t := by
  constructor
  · intro hfresh
    refine ⟨Nat.zero_le _, fun i => by rintro ⟨_, ⟨⟩⟩, fun i code hi => .inr ?_⟩
    obtain ⟨f, fuel, hf, hcode⟩ := hfresh i code hi
    exact ⟨fuel, f, t, t, hf, hcode, fun _ hj => hj⟩
  · intro hgrows i code hi
    rcases hgrows.entry i code hi with ⟨⟨⟩⟩ | ⟨fuel, f, t₀, t₁, hf, hcode, hhas⟩
    exact ⟨f, fuel, hf, recompiled hcode hhas⟩

theorem fresh_nil : Fresh [] ctx place :=
  fresh_iff.mpr (.refl [])

theorem Fresh.compile (h : t.Fresh ctx place) (fuel : Nat) (f : Func) :
    (behind Prod.snd (compileFunc ctx place fuel f t)).Fresh ctx place :=
  fresh_iff.mpr ((fresh_iff.mp h).trans (compileFunc_fills fuel f t).grows)

/-- The context may change where no function looks. -/
theorem Fresh.congr (h : t.Fresh ctx place) (hall : ∀ g ∈ ctx.funcs, SameReads g ctx ctx')
    (hfuncs : ∀ (i : Nat) (g : Func), ctx.funcs[i]? = some g → ctx'.funcs[i]? = some g) :
    t.Fresh ctx' place := by
  intro i code hi
  obtain ⟨f, fuel, hf, hcode⟩ := h i code hi
  refine ⟨f, fuel, hfuncs i f hf, ?_⟩
  rw [compileFunc_congr hall (hall f (List.mem_of_getElem? hf))]
  exact hcode

end Table

end TreeVM
