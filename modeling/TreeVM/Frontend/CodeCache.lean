import TreeVM.Compile.Cache
import TreeVM.Frontend.Origins

/-!
# The code cache of the REPL

`define_named` takes an index, and gives it back when the definition fails.  Callees are compiled
inside of other compilations, failed ones included, and their code stays in `ctx.code`.  The
literals of a form live in its frontend.

* `ReplContext.Uses`: the globals that defined functions push;
* `ReplContext.Current`: the cache holds the code of the functions that are defined;
* `finishForm_current`: a form keeps it so, however it ends;
* `PlacedRun`, `session_current`: the cache in every session.
-/

namespace TreeVM

namespace ReplContext

/-- `repl->ctx` for the compiler -/
def compiled (c : ReplContext) : Context :=
  ⟨c.funcs, c.globals⟩

/-- Global `g` is `Print`, or a defined function pushes it. -/
def Uses (c : ReplContext) (g : Nat) : Prop :=
  g = 0 ∨ ∃ f ∈ c.funcs, f.Pushes g

/-- The cache is up to date, functions call earlier ones only, and their globals have not been
freed. -/
structure Current (c : ReplContext) (place : Nat → UInt64) : Prop where
  slots : c.table.Fresh c.compiled place
  calls : ∀ (i : Nat) (f : Func), c.funcs[i]? = some f → ∀ j, f.Calls j → j < i
  alive : ∀ g, c.Uses g → ∃ global, c.globals[g]? = some global ∧ global.mem ≠ 0

/-- Cached code and the globals of functions stay as they are. -/
structure Evolves (c c' : ReplContext) : Prop where
  slots : c.table.Keeps c'.table
  globals : ∀ g, c.Uses g → c'.globals[g]? = c.globals[g]?

end ReplContext

/-! ## The globals of a form -/

section Globals

variable {globals : List Global} {owned : List (Nat × Int)} {g : Nat}

theorem freeGlobals_others (h : ∀ x ∈ owned, x.1 ≠ g) : (freeGlobals globals owned)[g]? = globals[g]? := by
  rw [freeGlobals]
  induction owned generalizing globals with
  | nil => rfl
  | cons x owned ih =>
      rw [List.foldl_cons, ih fun y hy => h y (List.mem_cons_of_mem x hy),
        List.getElem?_modify_ne _ _ (h x List.mem_cons_self)]

end Globals

namespace ReplContext.Evolves

variable {c c' c'' : ReplContext}

theorem refl (c : ReplContext) : c.Evolves c :=
  ⟨.refl _, fun _ _ => rfl⟩

theorem trans (h : c.Evolves c') (hext : c.Extends c') (h' : c'.Evolves c'') : c.Evolves c'' where
  slots := h.slots.trans h'.slots
  globals g hg := by
    have huses : c'.Uses g := by
      rcases hg with hzero | ⟨f, hf, hpush⟩
      · exact .inl hzero
      · exact .inr ⟨f, hext.funcs.subset hf, hpush⟩
    rw [h'.globals g huses, h.globals g hg]

end ReplContext.Evolves

/-! ## What a form builds -/

section Built

variable {literalAt : Nat → UInt64} {ctx : Context} {names : List Name} {n : Nat} {fe : Frontend Unit}
  {f : Func}

theorem buildFrontend_builds (h : buildFrontend ctx names n = some fe) :
    fe.Builds literalAt ctx fe.words := by
  rw [buildFrontend] at h
  split at h
  · cases h
    refine ⟨rfl, ?_, rfl, fun op hop => by cases hop⟩
    rw [show (literals literalAt ctx.globals.length ([] : List (Nat × Int)).length) = [] from rfl,
      List.append_nil]
  · cases h

theorem lowerFuncDefers_ops {fuel : Nat} {source : Func} (h : lowerFuncDefers fuel source = some f) :
    f.ops = source.ops := by
  rw [lowerFuncDefers] at h
  split at h
  · obtain ⟨blocks, -, rfl⟩ := Option.map_eq_some_iff.mp h
    rfl
  · cases h
    rfl

/-- The words of a form -/
def formWords (names : List Name) : List Word :=
  builtinWords ++ functionWords names

theorem mem_functionWords {names : List Name} {w : Word} (h : w ∈ functionWords names) :
    ∃ i < names.length, w.kind = .func (UInt16.ofNat i) := by
  obtain ⟨i, hi, rfl⟩ := List.mem_mapIdx.mp h
  exact ⟨i, hi, rfl⟩

/-- Calls go to the functions that have words. -/
theorem built_calls (hfe : fe.Builds literalAt ctx (formWords names)) (hops : f.ops = fe.func.ops)
    (hroom : names.length ≤ 2 ^ 16) {j : Nat} (hj : f.Calls j) : j < names.length := by
  obtain ⟨op, hop, hkind, rfl⟩ := hj
  rw [hops] at hop
  cases hfe.ops op hop with
  | named hnamed => rcases hnamed with h | h <;> cases hkind.symm.trans h
  | literal _ _ heq =>
      rw [heq] at hkind
      cases hkind
  | @word w hw hmem =>
      rcases List.mem_append.mp hw with hw | hw
      · have hbuiltin : ∀ w ∈ builtinWords, ∀ op ∈ w.kind.ops, op.kind ≠ .call := by decide
        exact absurd hkind (hbuiltin w hw op hmem)
      · obtain ⟨i, hi, hfunc⟩ := mem_functionWords hw
        rw [hfunc] at hmem
        rw [List.mem_singleton.mp hmem]
        have hlt : i < UInt16.size := Nat.lt_of_lt_of_le hi hroom
        rw [UInt16.toNat_ofNat_of_lt' hlt]
        exact hi

/-- The globals that are pushed are `Print` and literals of the form. -/
theorem built_pushes (hfe : fe.Builds literalAt ctx (formWords names)) (hops : f.ops = fe.func.ops)
    {g : Nat} (hg : f.Pushes g) : g = 0 ∨ ∃ x ∈ fe.ownedGlobals, x.1 = g := by
  obtain ⟨op, hop, hkind, rfl⟩ := hg
  rw [hops] at hop
  cases hfe.ops op hop with
  | named hnamed => rcases hnamed with h | h <;> cases hkind.symm.trans h
  | @literal idx value hmem hle heq =>
      refine .inr ⟨_, hmem, ?_⟩
      rw [heq]
      exact (UInt16.toNat_ofNat_of_lt' (Nat.lt_succ_of_le hle)).symm
  | @word w hw hmem =>
      rcases List.mem_append.mp hw with hw | hw
      · have hbuiltin : ∀ w ∈ builtinWords, ∀ op ∈ w.kind.ops, op.kind = .pushGlobal → op.extra = 0 := by
          decide
        rw [hbuiltin w hw op hmem hkind]
        exact .inl rfl
      · obtain ⟨i, -, hfunc⟩ := mem_functionWords hw
        rw [hfunc] at hmem
        rw [List.mem_singleton.mp hmem] at hkind
        cases hkind

/-- The literals of a form come behind the other globals. -/
theorem owned_fresh (hfe : fe.Builds literalAt ctx (formWords names)) {x : Nat × Int}
    (hx : x ∈ fe.ownedGlobals) : ctx.globals.length ≤ x.1 ∧
      ((fe.ctx.map Context.globals).getD ctx.globals)[x.1]? = some ⟨intId, literalAt x.1⟩ := by
  have hmem := List.mem_map_of_mem (f := Prod.fst) hx
  rw [hfe.owned, List.mem_range'_1] at hmem
  refine ⟨hmem.1, ?_⟩
  rw [hfe.globals]
  simp only [Option.map_some, Option.getD_some]
  rw [List.getElem?_append_right hmem.1, literals, List.getElem?_map, List.getElem?_range' (by omega)]
  have hidx : ctx.globals.length + 1 * (x.1 - ctx.globals.length) = x.1 := by omega
  rw [Option.map_some, hidx]

theorem globals_old (hfe : fe.Builds literalAt ctx (formWords names)) {g : Nat} (hg : g < ctx.globals.length) :
    ((fe.ctx.map Context.globals).getD ctx.globals)[g]? = ctx.globals[g]? := by
  rw [hfe.globals]
  exact List.getElem?_append_left hg

end Built

/-! ## Sessions -/

namespace ReplContext.Current

variable {c : ReplContext} {place : Nat → UInt64} {globals : List Global} {f : Func} {fuel : Nat}

/-- The globals that no function uses may change. -/
theorem withGlobals (h : c.Current place) (hsame : ∀ g, c.Uses g → globals[g]? = c.globals[g]?) :
    { c with globals := globals }.Current place where
  slots := h.slots.congr (fun f hf => ⟨fun _ _ => rfl, fun g hg => hsame g (.inr ⟨f, hf, hg⟩)⟩)
    fun _ _ hi => hi
  calls := h.calls
  alive g hg := by
    obtain ⟨global, hglobal, hmem⟩ := h.alive g hg
    exact ⟨global, (hsame g hg).trans hglobal, hmem⟩

/-- The table behind a compilation of any function -/
theorem withTable (h : c.Current place) (fuel : Nat) (f : Func) :
    { c with table := Table.behind Prod.snd (compileFunc c.compiled place fuel f c.table) }.Current place where
  slots := h.slots.compile fuel f
  calls := h.calls
  alive := h.alive

/-- No function looks at what comes behind the functions. -/
theorem sameReads (h : c.Current place) {g : Func} (hg : g ∈ c.funcs) :
    SameReads g c.compiled ⟨c.funcs ++ [f], c.globals⟩ where
  funcs j hj := by
    obtain ⟨i, hi⟩ := List.mem_iff_getElem?.mp hg
    have hlt : i < c.funcs.length := (List.getElem?_eq_some_iff.mp hi).1
    exact List.getElem?_append_left (Nat.lt_trans (h.calls i g hi j hj) hlt)
  globals _ _ := rfl

/-- A function that calls earlier ones is compiled as if it were not in the context. -/
theorem compileFunc_own (h : c.Current place) (hcalls : ∀ j, f.Calls j → j < c.funcs.length) (t : Table) :
    compileFunc ⟨c.funcs ++ [f], c.globals⟩ place fuel f t = compileFunc c.compiled place fuel f t := by
  have hown : SameReads f c.compiled ⟨c.funcs ++ [f], c.globals⟩ :=
    ⟨fun j hj => List.getElem?_append_left (hcalls j hj), fun _ _ => rfl⟩
  exact compileFunc_congr (fun g hg => h.sameReads hg) hown fuel t

theorem append (h : c.Current place) (hcalls : ∀ j, f.Calls j → j < c.funcs.length)
    (halive : ∀ g, f.Pushes g → ∃ global, c.globals[g]? = some global ∧ global.mem ≠ 0)
    (names : List Name) : { c with names := names, funcs := c.funcs ++ [f] }.Current place where
  slots := h.slots.congr (fun g hg => h.sameReads hg) fun i g hi =>
    (List.getElem?_append_left (List.getElem?_eq_some_iff.mp hi).1).trans hi
  calls i g hi j hj := by
    rw [List.getElem?_append] at hi
    split at hi
    · exact h.calls i g hi j hj
    · rename_i hge
      obtain ⟨hlt, hg⟩ := List.getElem?_eq_some_iff.mp hi
      rw [List.length_singleton] at hlt
      rw [List.getElem_singleton] at hg
      subst hg
      have := hcalls j hj
      omega
  alive g hg := by
    rcases hg with hzero | ⟨f', hf', hg⟩
    · exact h.alive g (.inl hzero)
    · rcases List.mem_append.mp hf' with hf' | hf'
      · exact h.alive g (.inr ⟨f', hf', hg⟩)
      · rw [List.mem_singleton.mp hf'] at hg
        exact halive g hg

end ReplContext.Current

section Forms

variable {literalAt place : Nat → UInt64} {fuel : Nat} {c c' : ReplContext} {ok : Bool}
  {fe : Frontend Unit} {funcs : List Func} {f : Func} {source : Text} {name : Name}

/-- `ctx.globals` with the literals of the form, before its frontend is freed -/
def Frontend.globalsOr (fe : Frontend Unit) (globals : List Global) : List Global :=
  (fe.ctx.map Context.globals).getD globals

theorem uses_lt (hcur : c.Current place) {g : Nat} (hg : c.Uses g) : g < c.globals.length := by
  obtain ⟨global, hglobal, -⟩ := hcur.alive g hg
  exact (List.getElem?_eq_some_iff.mp hglobal).1

/-- While the form is compiled its literals are there. -/
theorem current_read (hcur : c.Current place)
    (hfe : fe.Builds literalAt ⟨funcs, c.globals⟩ (formWords c.names)) :
    { c with globals := fe.globalsOr c.globals }.Current place :=
  hcur.withGlobals fun _ hg => globals_old hfe (uses_lt hcur hg)

/-- Compiling a function fills the table, also when it fails. -/
theorem current_compiled (hcur : c.Current place)
    (hfe : fe.Builds literalAt ⟨funcs, c.globals⟩ (formWords c.names)) {r : Except Table (Code × Table)}
    (hrun : compileFunc ⟨c.funcs, fe.globalsOr c.globals⟩ place fuel f c.table = r) :
    { c with globals := fe.globalsOr c.globals, table := Table.behind Prod.snd r }.Current place ∧
      c.table.Keeps (Table.behind Prod.snd r) := by
  subst hrun
  exact ⟨(current_read hcur hfe).withTable fuel f, (Table.compileFunc_fills fuel f c.table).keeps⟩

/-- Then the literals are freed. -/
theorem current_freed (hcur : c.Current place)
    (hfe : fe.Builds literalAt ⟨funcs, c.globals⟩ (formWords c.names)) {t : Table}
    (ht : { c with globals := fe.globalsOr c.globals, table := t }.Current place)
    (hkeeps : c.table.Keeps t) :
    { c with globals := freeGlobals (fe.globalsOr c.globals) fe.ownedGlobals, table := t }.Current place ∧
      c.Evolves { c with globals := freeGlobals (fe.globalsOr c.globals) fe.ownedGlobals, table := t } := by
  have hsame : ∀ g, c.Uses g →
      (freeGlobals (fe.globalsOr c.globals) fe.ownedGlobals)[g]? = (fe.globalsOr c.globals)[g]? := by
    refine fun g hg => freeGlobals_others fun x hx heq => ?_
    have hlt : g < c.globals.length := uses_lt hcur hg
    have hge : c.globals.length ≤ x.1 := (owned_fresh hfe hx).1
    omega
  exact ⟨ht.withGlobals hsame, hkeeps, fun g hg => (hsame g hg).trans (globals_old hfe (uses_lt hcur hg))⟩

theorem built_alive (hcur : c.Current place) (hliteral : ∀ i, literalAt i ≠ 0)
    (hfe : fe.Builds literalAt ⟨funcs, c.globals⟩ (formWords c.names)) (hops : f.ops = fe.func.ops)
    {g : Nat} (hg : f.Pushes g) :
    ∃ global, (fe.globalsOr c.globals)[g]? = some global ∧ global.mem ≠ 0 := by
  rcases built_pushes hfe hops hg with rfl | ⟨x, hx, rfl⟩
  · exact (current_read hcur hfe).alive 0 (.inl rfl)
  · exact ⟨_, (owned_fresh hfe hx).2, hliteral x.1⟩

/-- `run_anonymous` -/
theorem runAnonymous_current (hlisted : c.Listed) (hcur : c.Current place)
    (h : runAnonymous literalAt place fuel source c = some (ok, c')) :
    c'.Current place ∧ c.Evolves c' := by
  rw [runAnonymous] at h
  obtain ⟨fe₀, hbuild, h⟩ := Option.bind_eq_some_iff.mp h
  obtain ⟨⟨built, fe⟩, hcompile, h⟩ := Option.bind_eq_some_iff.mp h
  have hread : HandedForm.ReadBy ⟨none, source⟩ c fe₀ := hbuild
  obtain ⟨-, hwords⟩ := readBy_words hlisted.fits hread
  have hfe : fe.Builds literalAt ⟨c.funcs, c.globals⟩ fe₀.words :=
    compileSource_builds (buildFrontend_builds hbuild) hcompile
  rw [hwords] at hfe
  dsimp only at h
  split at h
  · cases h
    exact current_freed hcur hfe (current_read hcur hfe) (.refl _)
  obtain ⟨f, hlower, h⟩ := Option.bind_eq_some_iff.mp h
  split at h
  · rename_i t hrun
    obtain ⟨htable, hkeeps⟩ := current_compiled hcur hfe hrun
    cases h
    exact current_freed hcur hfe htable hkeeps
  · rename_i code t hrun
    obtain ⟨htable, hkeeps⟩ := current_compiled hcur hfe hrun
    cases h
    exact current_freed hcur hfe htable hkeeps

/-- `define_named` -/
theorem defineNamed_current (hlisted : c.Listed) (hcur : c.Current place) (hliteral : ∀ i, literalAt i ≠ 0)
    (h : defineNamed literalAt place fuel name source c = some (ok, c')) :
    c'.Current place ∧ c.Evolves c' := by
  rw [defineNamed] at h
  split at h
  · cases h
    exact ⟨hcur, .refl c⟩
  rename_i hfresh
  split at h
  · cases h
    exact ⟨hcur, .refl c⟩
  rename_i hfull
  obtain ⟨fe₀, hbuild, h⟩ := Option.bind_eq_some_iff.mp h
  obtain ⟨⟨built, fe⟩, hcompile, h⟩ := Option.bind_eq_some_iff.mp h
  have hread : HandedForm.ReadBy ⟨some name, source⟩ c fe₀ :=
    ⟨hfresh, Nat.le_of_not_lt hfull, hbuild⟩
  obtain ⟨hroom, hwords⟩ := readBy_words hlisted.fits hread
  have hfe : fe.Builds literalAt ⟨c.funcs ++ [replDraft.toFunc], c.globals⟩ fe₀.words :=
    compileSource_builds (buildFrontend_builds hbuild) hcompile
  rw [hwords] at hfe
  dsimp only at h
  split at h
  · cases h
    exact current_freed hcur hfe (current_read hcur hfe) (.refl _)
  obtain ⟨f, hlower, h⟩ := Option.bind_eq_some_iff.mp h
  have hops : f.ops = fe.func.ops := lowerFuncDefers_ops hlower
  have hnames : c.names.length = c.funcs.length := hlisted.fits.1
  have hcalls : ∀ j, f.Calls j → j < c.funcs.length := fun j hj =>
    hnames ▸ built_calls hfe hops (hnames ▸ Nat.le_of_lt hroom) hj
  -- the function does not call itself, so it need not be in the context yet
  have hown : compileFunc ⟨c.funcs ++ [f], fe.globalsOr c.globals⟩ place fuel f c.table =
      compileFunc ⟨c.funcs, fe.globalsOr c.globals⟩ place fuel f c.table :=
    (current_read hcur hfe).compileFunc_own hcalls c.table
  split at h
  · rename_i t hrun
    obtain ⟨htable, hkeeps⟩ := current_compiled hcur hfe (hown.symm.trans hrun)
    cases h
    exact current_freed hcur hfe htable hkeeps
  · rename_i code t hrun
    obtain ⟨htable, hkeeps⟩ := current_compiled hcur hfe (hown.symm.trans hrun)
    cases h
    refine ⟨htable.append hcalls (fun g hg => ?_) _, hkeeps, fun g hg => ?_⟩
    · exact built_alive hcur hliteral hfe hops hg
    · exact globals_old hfe (uses_lt hcur hg)

theorem finishForm_current {form : HandedForm} (hlisted : c.Listed) (hcur : c.Current place)
    (hliteral : ∀ i, literalAt i ≠ 0) (h : finishForm literalAt place fuel form c = some (ok, c')) :
    c'.Current place ∧ c.Evolves c' := by
  rw [finishForm] at h
  split at h
  · exact defineNamed_current hlisted hcur hliteral h
  · exact runAnonymous_current hlisted hcur h

end Forms

/-- The forms take one context to the other.  The code of function `i` is stored once at most, and
`place i` says where; the literals of a form are in memory. -/
inductive PlacedRun (place : Nat → UInt64) : ReplContext → List HandedForm → ReplContext → Prop
  | nil {c : ReplContext} : PlacedRun place c [] c
  | cons {c c₁ c₂ : ReplContext} {form : HandedForm} {forms : List HandedForm} {literalAt fuel ok} :
      (∀ i, literalAt i ≠ 0) → finishForm literalAt place fuel form c = some (ok, c₁) →
      PlacedRun place c₁ forms c₂ → PlacedRun place c (form :: forms) c₂

section Session

variable {place : Nat → UInt64} {c c' : ReplContext} {forms : List HandedForm}

theorem PlacedRun.formsRun (h : PlacedRun place c forms c') : FormsRun c forms c' := by
  induction h with
  | nil => exact .nil
  | cons _ hform _ ih => exact .cons hform ih

/-- Over one form after the other -/
theorem PlacedRun.current (h : PlacedRun place c forms c') (hlisted : c.Listed) (hcur : c.Current place) :
    c'.Current place ∧ c.Evolves c' := by
  induction h with
  | nil => exact ⟨hcur, .refl _⟩
  | cons hliteral hform _ ih =>
      obtain ⟨hcur₁, hstep⟩ := finishForm_current hlisted hcur hliteral hform
      obtain ⟨hcur₂, hrest⟩ := ih (finishForm_listed hlisted hform) hcur₁
      exact ⟨hcur₂, hstep.trans (finishForm_extends hform) hrest⟩

theorem current_start {print : Global} (hprint : print.mem ≠ 0) :
    ({ globals := [print] } : ReplContext).Current place where
  slots := Table.fresh_nil
  calls i f hi := by cases hi
  alive g hg := by
    rcases hg with rfl | ⟨f, hf, -⟩
    · exact ⟨print, rfl, hprint⟩
    · cases hf

/-- In a session of any forms, failed ones included, a filled slot belongs to a defined function and
holds what compiling it now gives, with all callees found in the table.  The function calls earlier
functions only and pushes globals that are not freed.  Later forms change none of this. -/
theorem session_current {print : Global} (hprint : print.mem ≠ 0)
    (h : PlacedRun place { globals := [print] } forms c) :
    (∀ i code, c.table[i]? = some (some code) → ∃ f fuel, c.funcs[i]? = some f ∧
      compileFunc ⟨c.funcs, c.globals⟩ place fuel f c.table = .ok (code, c.table) ∧
      (∀ j, f.Calls j → j < i) ∧
      ∀ g, f.Pushes g → ∃ global, c.globals[g]? = some global ∧ global.mem ≠ 0) ∧
    ∀ later c', PlacedRun place c later c' → c.Extends c' ∧ c.Evolves c' := by
  have hlisted := h.formsRun.listed (listed_start [print])
  obtain ⟨hcur, -⟩ := h.current (listed_start [print]) (current_start hprint)
  constructor
  · intro i code hi
    obtain ⟨f, fuel, hf, hcode⟩ := hcur.slots i code hi
    exact ⟨f, fuel, hf, hcode, hcur.calls i f hf, fun g hg =>
      hcur.alive g (.inr ⟨f, List.mem_of_getElem? hf, hg⟩)⟩
  · intro later c' hlater
    exact ⟨hlater.formsRun.extends, (hlater.current hlisted hcur).2⟩

end Session

/-! ## A session -/

/-- The forms, with literals at given addresses -/
def runPlaced (literalAt place : Nat → UInt64) (fuel : Nat) : List HandedForm → ReplContext → Option ReplContext
  | [], c => some c
  | form :: forms, c => do
      let (_, c) ← finishForm literalAt place fuel form c
      runPlaced literalAt place fuel forms c

theorem placedRun_of_runPlaced {literalAt place : Nat → UInt64} {fuel : Nat} {forms : List HandedForm}
    {c c' : ReplContext} (hliteral : ∀ i, literalAt i ≠ 0)
    (h : runPlaced literalAt place fuel forms c = some c') : PlacedRun place c forms c' := by
  induction forms generalizing c with
  | nil =>
      cases h
      exact .nil
  | cons form forms ih =>
      obtain ⟨⟨ok, c₁⟩, hform, hrest⟩ := Option.bind_eq_some_iff.mp h
      exact .cons hliteral hform (ih hrest)

/-- `g` is defined after a definition of `g` that failed behind a call of `f`. -/
def sampleForms : List HandedForm :=
  [⟨some (utf8 "f"), utf8 "5 Print"⟩, ⟨some (utf8 "g"), utf8 "f Nope"⟩,
    ⟨some (utf8 "g"), utf8 "f 7 Print"⟩, ⟨none, utf8 "g"⟩]

def samplePlace (i : Nat) : UInt64 :=
  UInt64.ofNat (10000 + 1000 * i)

theorem session_current_sampleForms : ∃ c code f fuel,
    PlacedRun samplePlace { globals := [⟨2, 500⟩] } sampleForms c ∧
    c.names = [utf8 "f", utf8 "g"] ∧ c.table[1]? = some (some code) ∧ c.funcs[1]? = some f ∧
    compileFunc ⟨c.funcs, c.globals⟩ samplePlace fuel f c.table = .ok (code, c.table) := by
  have hend : ((runPlaced (fun _ => 600) samplePlace 10 sampleForms { globals := [⟨2, 500⟩] }).map
      fun c => (c.names, (c.table[1]?.join).isSome)) = some ([utf8 "f", utf8 "g"], true) := by
    decide
  obtain ⟨c, hc, hfacts⟩ := Option.map_eq_some_iff.mp hend
  obtain ⟨hnames, hslot⟩ := Prod.mk.inj hfacts
  obtain ⟨code, hcode⟩ := Option.isSome_iff_exists.mp hslot
  have hrun := placedRun_of_runPlaced (fun _ => by decide) hc
  have hcode : c.table[1]? = some (some code) := Option.join_eq_some_iff.mp hcode
  obtain ⟨f, fuel, hf, hcompile, -⟩ := (session_current (by decide) hrun).1 1 code hcode
  exact ⟨c, code, f, fuel, hrun, hnames, hcode, hf, hcompile⟩

end TreeVM
