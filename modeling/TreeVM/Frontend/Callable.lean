import TreeVM.Frontend.Additions
import TreeVM.Frontend.Counters
import TreeVM.Frontend.Repl

/-!
# Calling a function by its name

`find_word` takes the first word with the spelling of the token: the core words and `Print` come
first, then the functions in the order of their definitions.  `name_exists` looks at the functions
alone.

* `finishForm`, `FormsRun`: what the forms of a session do to the context;
* `HandedForm.ReadBy`: the frontend of a form; `readBy_words`: its words;
* `CallsFunc`: a token calls the function;
* `defined_calls_iff`: when the later tokens with the name of a function do.
-/

namespace TreeVM

open Counted

/-! ## The forms of a session -/

/-- `run_anonymous`: does the function compile, and what becomes of the context?  `vm_run` leaves the
context alone.  No result stands for a run that has not ended. -/
def runAnonymous (literalAt place : Nat → UInt64) (fuel : Nat) (source : Text) (c : ReplContext) :
    Option (Bool × ReplContext) := do
  let fe ← buildFrontend ⟨c.funcs, c.globals⟩ c.names c.funcs.length
  let (built, fe) ← compileSource noMacros literalAt fuel source fe
  let globals := (fe.ctx.map Context.globals).getD c.globals
  let freed := freeGlobals globals fe.ownedGlobals
  if built = false then return (false, { c with globals := freed })
  else
    let f ← lowerFuncDefers fuel fe.func.toFunc
    match compileFunc ⟨c.funcs, globals⟩ place fuel f c.table with
    | .error table => return (false, { c with globals := freed, table := table })
    | .ok (_, table) => return (true, { c with globals := freed, table := table })

/-- `finish_form` -/
def finishForm (literalAt place : Nat → UInt64) (fuel : Nat) (form : HandedForm) (c : ReplContext) :
    Option (Bool × ReplContext) :=
  match form.name with
  | some name => defineNamed literalAt place fuel name form.source c
  | none => runAnonymous literalAt place fuel form.source c

/-- The forms take one context to the other. -/
inductive FormsRun : ReplContext → List HandedForm → ReplContext → Prop
  | nil {c : ReplContext} : FormsRun c [] c
  | cons {c c₁ c₂ : ReplContext} {form : HandedForm} {forms : List HandedForm} {literalAt place fuel ok} :
      finishForm literalAt place fuel form c = some (ok, c₁) → FormsRun c₁ forms c₂ →
      FormsRun c (form :: forms) c₂

/-- What the lines of a session hand over -/
def handedForms (lines : List Text) : List HandedForm :=
  (session {} lines).filterMap id

/-- `fe` is the frontend that reads a form; a definition can be refused before. -/
def HandedForm.ReadBy (form : HandedForm) (c : ReplContext) (fe : Frontend Unit) : Prop :=
  match form.name with
  | some name => name ∉ c.names ∧ c.funcs.length ≤ maxOffset ∧
      buildFrontend ⟨c.funcs ++ [replDraft.toFunc], c.globals⟩ (c.names ++ [name]) c.funcs.length = some fe
  | none => buildFrontend ⟨c.funcs, c.globals⟩ c.names c.funcs.length = some fe

/-! ### The tables between the forms -/

section Tables

variable {c c' c₁ c₂ : ReplContext} {form : HandedForm} {forms : List HandedForm}
  {literalAt place : Nat → UInt64} {fuel : Nat} {ok : Bool}

theorem runAnonymous_tables {source : Text}
    (h : runAnonymous literalAt place fuel source c = some (ok, c')) :
    c'.names = c.names ∧ c'.funcs = c.funcs := by
  rw [runAnonymous] at h
  obtain ⟨fe, -, h⟩ := Option.bind_eq_some_iff.mp h
  obtain ⟨⟨built, fe'⟩, -, h⟩ := Option.bind_eq_some_iff.mp h
  dsimp only at h
  split at h
  · cases h
    exact ⟨rfl, rfl⟩
  obtain ⟨f, -, h⟩ := Option.bind_eq_some_iff.mp h
  split at h
  · cases h
    exact ⟨rfl, rfl⟩
  · cases h
    exact ⟨rfl, rfl⟩

/-- The names are different, one for each function. -/
structure ReplContext.Listed (c : ReplContext) : Prop where
  fits : c.Fits
  nodup : c.names.Nodup

/-- The tables of one context begin with those of the other. -/
structure ReplContext.Extends (c c' : ReplContext) : Prop where
  names : c.names <+: c'.names
  funcs : c.funcs <+: c'.funcs

theorem listed_start (globals : List Global) : ({ globals := globals } : ReplContext).Listed where
  fits := ⟨rfl, Nat.zero_le _⟩
  nodup := List.nodup_nil

theorem defineNamed_listed {name : Name} {source : Text} (hlisted : c.Listed)
    (h : defineNamed literalAt place fuel name source c = some (ok, c')) : c'.Listed where
  fits := FuncStep.fits ⟨literalAt, place, fuel, name, source, ok, h⟩ hlisted.fits
  nodup := by
    obtain ⟨-, hnames, -⟩ | ⟨-, hfresh, -, hnames, -⟩ := defineNamed_cases h
    · rw [hnames]
      exact hlisted.nodup
    · rw [hnames]
      have hnodup := hlisted.nodup.concat hfresh
      rwa [List.concat_eq_append] at hnodup

theorem finishForm_listed (hlisted : c.Listed)
    (h : finishForm literalAt place fuel form c = some (ok, c')) : c'.Listed := by
  rw [finishForm] at h
  split at h
  · exact defineNamed_listed hlisted h
  · obtain ⟨hnames, hfuncs⟩ := runAnonymous_tables h
    refine ⟨?_, ?_⟩
    · rw [ReplContext.Fits, hnames, hfuncs]
      exact hlisted.fits
    · rw [hnames]
      exact hlisted.nodup

theorem finishForm_extends (h : finishForm literalAt place fuel form c = some (ok, c')) :
    c.Extends c' := by
  rw [finishForm] at h
  split at h
  · obtain ⟨-, hnames, hfuncs⟩ | ⟨-, -, -, hnames, f, hfuncs⟩ := defineNamed_cases h
    · exact ⟨hnames ▸ List.prefix_rfl, hfuncs ▸ List.prefix_rfl⟩
    · exact ⟨hnames ▸ List.prefix_append _ _, hfuncs ▸ List.prefix_append _ _⟩
  · obtain ⟨hnames, hfuncs⟩ := runAnonymous_tables h
    exact ⟨hnames ▸ List.prefix_rfl, hfuncs ▸ List.prefix_rfl⟩

theorem FormsRun.listed (h : FormsRun c forms c') (hlisted : c.Listed) : c'.Listed := by
  induction h with
  | nil => exact hlisted
  | cons hform _ ih => exact ih (finishForm_listed hlisted hform)

theorem FormsRun.extends (h : FormsRun c forms c') : c.Extends c' := by
  induction h with
  | nil => exact ⟨List.prefix_rfl, List.prefix_rfl⟩
  | cons hform _ ih =>
      have hfirst := finishForm_extends hform
      exact ⟨hfirst.names.trans ih.names, hfirst.funcs.trans ih.funcs⟩

end Tables

/-! ### The names of definitions -/

/-- The name does not begin with a parenthesis. -/
def Wordlike (name : Name) : Prop :=
  isOpening (byteAt name 0) = false ∧ isClosing (byteAt name 0) = false

theorem wordlike_take {text : Text} (h : wordLen text ≠ 0) : Wordlike (text.take (wordLen text)) := by
  cases text with
  | nil => exact absurd rfl h
  | cons b rest =>
      rw [wordLen] at h ⊢
      split at h
      · exact absurd rfl h
      · rename_i hword
        rw [if_neg hword, List.take_succ_cons]
        simp only [not_or, Bool.not_eq_true] at hword
        exact ⟨hword.2.2.1, hword.2.2.2⟩

theorem beginDefinition_wordlike {line name body : Text} (h : beginDefinition line = .named name body) :
    Wordlike name := by
  rw [beginDefinition] at h
  split at h
  · cases h
  · by_cases hlen : wordLen (trim (line.drop 4)) = 0
    · simp only [if_pos hlen] at h
      cases h
    · simp only [if_neg hlen] at h
      cases h
      exact wordlike_take hlen

theorem startLine_wordlike {repl : Repl} {input : Text} {name : Name}
    (hpending : ∀ name, repl.pendingName = some name → Wordlike name)
    (h : (repl.startLine input).pendingName = some name) : Wordlike name := by
  rw [Repl.startLine] at h
  dsimp only at h
  split at h
  · split at h
    · exact hpending name h
    · exact hpending name h
  · exact hpending name h
  · rename_i found body hbeginning
    have hname : Wordlike found := by
      split at hbeginning
      · exact beginDefinition_wordlike hbeginning
      · cases hbeginning
    split at h
    · cases h
      exact hname
    · cases h
      exact hname

theorem session_wordlike {lines : List Text} {repl : Repl} {form : HandedForm} {name : Name}
    (hpending : ∀ name, repl.pendingName = some name → Wordlike name)
    (h : some form ∈ session repl lines) (hname : form.name = some name) : Wordlike name := by
  induction lines generalizing repl with
  | nil => cases h
  | cons line lines ih =>
      rw [session] at h
      split at h
      · cases h
      have hstart : ∀ input name, (repl.startLine input).pendingName = some name → Wordlike name :=
        fun _ _ => startLine_wordlike hpending
      simp only [List.mem_cons, Repl.takeLine] at h
      split at h
      · obtain heq | hmem := h
        · cases heq
          exact hstart _ name hname
        · refine ih (fun name hnone => ?_) hmem
          cases hnone
      · obtain heq | hmem := h
        · cases heq
        · exact ih (hstart _) hmem

theorem handedForms_wordlike {lines : List Text} {form : HandedForm} {name : Name}
    (h : form ∈ handedForms lines) (hname : form.name = some name) : Wordlike name := by
  obtain ⟨handed, hmem, hform⟩ := List.mem_filterMap.mp h
  obtain rfl : handed = some form := hform
  refine session_wordlike (fun name hnone => ?_) hmem hname
  cases hnone

/-! ## The words of a form -/

/-- The words before the functions -/
def builtinWords : List Word :=
  coreWords ++ [⟨utf8 "Print", .native 0⟩]

def reservedNames : List Name :=
  builtinWords.map Word.name

theorem buildFrontend_words {ctx : Context} {names : List Name} {wordCount : Nat} {fe : Frontend Unit}
    (hcount : wordCount ≤ names.length) (h : buildFrontend ctx names wordCount = some fe) :
    wordCount < 2 ^ 16 ∧ fe.words = builtinWords ++ functionWords (names.take wordCount) := by
  have hroom : wordCount < 2 ^ 16 := by
    by_contra hfull
    rw [buildFrontend] at h
    split at h
    · rename_i hrun
      exact countLoop_never (Nat.le_of_not_lt hfull) _ _ _ _ hrun
    · cases h
  refine ⟨hroom, ?_⟩
  rw [buildFrontend, countLoop_ends _ hroom, addFunctionWord_visit _ _ hcount] at h
  cases h
  rfl

/-- The words of a form are the builtin ones and the functions defined before. -/
theorem readBy_words {form : HandedForm} {c : ReplContext} {fe : Frontend Unit} (hfits : c.Fits)
    (h : form.ReadBy c fe) :
    c.funcs.length < 2 ^ 16 ∧ fe.words = builtinWords ++ functionWords c.names := by
  obtain ⟨hnames, -⟩ := hfits
  rw [HandedForm.ReadBy] at h
  split at h
  · obtain ⟨-, -, hbuild⟩ := h
    obtain ⟨hroom, hwords⟩ := buildFrontend_words (by simp [hnames]) hbuild
    rw [← hnames, List.take_left] at hwords
    exact ⟨hroom, hwords⟩
  · obtain ⟨hroom, hwords⟩ := buildFrontend_words (Nat.le_of_eq hnames.symm) h
    rw [← hnames, List.take_length] at hwords
    exact ⟨hroom, hwords⟩

theorem findWord_builtin (names : List Name) {name : Name} (h : name ∈ reservedNames) :
    ∃ word ∈ builtinWords, findWord (builtinWords ++ functionWords names) name = some word := by
  obtain ⟨word, hword, hname⟩ := List.mem_map.mp h
  rw [findWord, List.find?_append]
  cases hfind : builtinWords.find? (fun word => word.name = name) with
  | none =>
      rw [List.find?_eq_none] at hfind
      exact absurd (decide_eq_true hname) (hfind word hword)
  | some found => exact ⟨found, List.mem_of_find?_eq_some hfind, rfl⟩

theorem findWord_function {names : List Name} {name : Name} {idx : Nat} (hnodup : names.Nodup)
    (hidx : names[idx]? = some name) (h : name ∉ reservedNames) :
    findWord (builtinWords ++ functionWords names) name = some ⟨name, .func (UInt16.ofNat idx)⟩ := by
  obtain ⟨hlt, hget⟩ := List.getElem?_eq_some_iff.mp hidx
  have hnone : builtinWords.find? (fun word => word.name = name) = none := by
    rw [List.find?_eq_none]
    exact fun word hword hname => h (List.mem_map.mpr ⟨word, hword, of_decide_eq_true hname⟩)
  rw [findWord, List.find?_append, hnone, Option.none_or, List.find?_eq_some_iff_getElem]
  refine ⟨decide_eq_true rfl, idx, by rw [functionWords, List.length_mapIdx]; exact hlt, ?_, ?_⟩
  · simp only [functionWords, List.getElem_mapIdx, hget]
  · intro j hj
    simp only [functionWords, List.getElem_mapIdx, Bool.not_eq_true', decide_eq_false_iff_not]
    rintro heq
    have hsame := (List.Nodup.getElem_inj_iff hnodup).mp (heq.trans hget.symm)
    omega

/-! ## Tokens that call a function -/

/-- The token is accepted, and it adds a call of function `idx`. -/
def CallsFunc (literalAt : Nat → UInt64) (idx : Nat) (st : Frontend Unit) : Prop :=
  ∃ st', engageToken noMacros literalAt st = (some (), st') ∧
    st'.func.ops = st.func.ops ++ [⟨.call, UInt16.ofNat idx⟩]

section Tokens

variable {literalAt : Nat → UInt64} {fe fe' st : Frontend Unit} {fuel : Nat} {source : Text}

/-- The outer interpreter goes to the end of the source only over accepted tokens. -/
theorem interpret_accepts (h : interpret noMacros literalAt fuel fe = some (true, fe'))
    (hst : Engages noMacros literalAt fe st) :
    ∃ st', engageToken noMacros literalAt st = (some (), st') := by
  induction fuel generalizing fe with
  | zero => cases h
  | succ fuel ih =>
      rw [interpret] at h
      split at h
      · rename_i hnext
        cases hst with
        | here htoken => cases hnext.symm.trans htoken
        | later htoken _ _ => cases hnext.symm.trans htoken
      · rename_i token fe₁ hnext
        split at h
        · rename_i fe₂ hengage
          obtain rfl | ⟨fe₂', hengage', hst⟩ := hst.cases hnext
          · exact ⟨fe₂, hengage⟩
          · rw [hengage] at hengage'
            cases hengage'
            exact ih h hst
        · cases h

theorem compileSource_accepts (h : compileSource noMacros literalAt fuel source fe = some (true, fe'))
    (hst : EngagedBy noMacros literalAt source fe st) :
    ∃ st', engageToken noMacros literalAt st = (some (), st') := by
  obtain ⟨fe₁, hprepare, hst⟩ := hst
  rw [compileSource, hprepare] at h
  obtain ⟨⟨ok, fe₂⟩, hrun, hconclude⟩ := Option.map_eq_some_iff.mp h
  cases ok with
  | true => exact interpret_accepts hrun hst
  | false =>
      simp only [Frontend.conclude, if_true] at hconclude
      cases hconclude

theorem engageToken_word {name : Name} {word : Word} (hname : st.currentToken.bytes = name)
    (hwordlike : Wordlike name) (hfind : findWord st.words name = some word) :
    engageToken noMacros literalAt st = engageWord noMacros word st := by
  have hparen : st.currentToken.isParen = false := by
    subst hname
    rw [Token.isParen, Bool.and_eq_false_iff]
    by_cases hlen : st.currentToken.len = 1
    · right
      obtain ⟨hopen, hclose⟩ := hwordlike
      have hbyte : byteAt st.currentToken.bytes 0 = byteAt st.currentToken.data 0 := by
        rw [Token.bytes, hlen]
        cases st.currentToken.data <;> rfl
      rw [hbyte] at hopen hclose
      rw [hopen, hclose]
      rfl
    · left
      exact beq_false_of_ne hlen
  simp only [engageToken, hparen, hname, hfind, Bool.false_eq_true, if_false]

/-- No builtin word is a call. -/
theorem builtin_ops {word : Word} (h : word ∈ builtinWords) (idx : UInt16) :
    word.kind.ops ≠ [⟨.call, idx⟩] := by
  have hkinds : ∀ word ∈ builtinWords, word.kind.ops.map Op.kind ≠ [.call] := by decide
  exact fun heq => hkinds word h (by rw [heq]; rfl)

end Tokens

/-- Every form that is accepted was read by its frontend. -/
theorem finishForm_compiles {literalAt place : Nat → UInt64} {fuel : Nat} {form : HandedForm}
    {c c' : ReplContext} (h : finishForm literalAt place fuel form c = some (true, c')) :
    ∃ fe fe', form.ReadBy c fe ∧
      compileSource noMacros literalAt fuel form.source fe = some (true, fe') := by
  rw [finishForm] at h
  simp only [HandedForm.ReadBy]
  split at h
  · rw [defineNamed] at h
    split at h
    · cases h
    rename_i hfresh
    split at h
    · cases h
    rename_i hfull
    obtain ⟨fe, hbuild, h⟩ := Option.bind_eq_some_iff.mp h
    obtain ⟨⟨built, fe'⟩, hcompile, h⟩ := Option.bind_eq_some_iff.mp h
    dsimp only at h
    split at h
    · cases h
    rename_i hbuilt
    obtain rfl : built = true := Bool.eq_true_of_not_eq_false hbuilt
    exact ⟨fe, fe', ⟨hfresh, Nat.le_of_not_lt hfull, hbuild⟩, hcompile⟩
  · obtain ⟨fe, hbuild, h⟩ := Option.bind_eq_some_iff.mp h
    obtain ⟨⟨built, fe'⟩, hcompile, h⟩ := Option.bind_eq_some_iff.mp h
    dsimp only at h
    split at h
    · cases h
    rename_i hbuilt
    obtain rfl : built = true := Bool.eq_true_of_not_eq_false hbuilt
    exact ⟨fe, fe', hbuild, hcompile⟩

/-- A function keeps its number in every session, and the later tokens with its name call it, if and
only if no word of the core and not `Print` has that name. -/
theorem defined_calls_iff {globals : List Global} {lines : List Text}
    {before between after : List HandedForm} {form : HandedForm} {name : Name} {source : Text}
    {c c₁ c₂ : ReplContext} {literalAt place : Nat → UInt64} {fuel : Nat}
    (hlines : handedForms lines = before ++ ⟨some name, source⟩ :: (between ++ form :: after))
    (hbefore : FormsRun { globals := globals } before c)
    (hdefine : defineNamed literalAt place fuel name source c = some (true, c₁))
    (hbetween : FormsRun c₁ between c₂) :
    (∃ f, c₁.funcs = c.funcs ++ [f] ∧ c₂.funcs[c.funcs.length]? = some f) ∧
    ∀ literalAt fe st, form.ReadBy c₂ fe →
      EngagedBy noMacros literalAt form.source fe st → st.currentToken.bytes = name →
      c.funcs.length < 2 ^ 16 ∧
      (∀ fuel fe', compileSource noMacros literalAt fuel form.source fe = some (true, fe') →
        (CallsFunc literalAt c.funcs.length st ↔ name ∉ reservedNames)) ∧
      (name ∉ reservedNames → engageToken noMacros literalAt st =
        if st.readyForWord then emitOp ⟨.call, UInt16.ofNat c.funcs.length⟩ st else badControl st) := by
  have hlisted := hbefore.listed (listed_start globals)
  have hlisted₂ := hbetween.listed (defineNamed_listed hlisted hdefine)
  obtain ⟨⟨⟩, -⟩ | ⟨-, -, hroom, hnames₁, f, hfuncs₁⟩ := defineNamed_cases hdefine
  obtain ⟨hnames, hfuncs⟩ := hbetween.extends
  rw [hnames₁] at hnames
  rw [hfuncs₁] at hfuncs
  obtain ⟨moreFuncs, hfuncs₂⟩ := hfuncs
  obtain ⟨moreNames, hnames₂⟩ := hnames
  have hidx : c₂.names[c.funcs.length]? = some name := by
    rw [← hnames₂, ← hlisted.fits.1, List.append_assoc]
    simp
  refine ⟨⟨f, hfuncs₁, by rw [← hfuncs₂, List.append_assoc]; simp⟩, ?_⟩
  intro literalAt fe st hfe hst hname
  obtain ⟨-, hwords⟩ := readBy_words hlisted₂.fits hfe
  have hwordlike : Wordlike name := by
    have hmem : ⟨some name, source⟩ ∈ handedForms lines := by
      rw [hlines]
      simp
    exact handedForms_wordlike hmem rfl
  -- the word that the token engages
  have hengage : ∀ word, findWord (builtinWords ++ functionWords c₂.names) name = some word →
      engageToken noMacros literalAt st = engageWord noMacros word st := by
    intro word hfind
    refine engageToken_word hname hwordlike ?_
    rwa [EngagedBy.words hst, hwords]
  refine ⟨Nat.lt_succ_of_le hroom, fun fuel fe' haccepted => ?_, fun hfree => ?_⟩
  · obtain ⟨st', haccept⟩ := compileSource_accepts haccepted hst
    constructor
    · rintro ⟨st'', hcall, hops⟩ hreserved
      obtain ⟨word, hbuiltin, hfind⟩ := findWord_builtin c₂.names hreserved
      rw [hengage word hfind] at hcall
      rw [engageWord_ops hcall] at hops
      exact builtin_ops hbuiltin _ (List.append_cancel_left hops)
    · intro hfree
      refine ⟨st', haccept, ?_⟩
      rw [hengage _ (findWord_function hlisted₂.nodup hidx hfree)] at haccept
      exact engageWord_ops haccept
  · rw [hengage _ (findWord_function hlisted₂.nodup hidx hfree)]
    rfl

/-- The frontend of a form without a name, once a function without operations is defined -/
def oneFunction (name : Name) : Frontend Unit where
  ctx := some ⟨[emptyFunc], [⟨2, 0⟩]⟩
  func := replDraft
  words := builtinWords ++ functionWords [name]
  macroVm := ()

/-- The state that engages the first token of `source` -/
def firstToken (name : Name) (source : Text) (token : Token) (cursor : Text) : Frontend Unit :=
  { ((oneFunction name).setBlocks [.basic ⟨0, 0⟩]).begin source with
    cursor := cursor, currentToken := token }

theorem engaged_firstToken {name : Name} {source cursor : Text} {token : Token}
    (h : scanToken source = some (token, cursor)) :
    EngagedBy noMacros (fun _ => 0) source (oneFunction name) (firstToken name source token cursor) := by
  have hnext : nextToken (((oneFunction name).setBlocks [.basic ⟨0, 0⟩]).begin source) =
      (some token, { ((oneFunction name).setBlocks [.basic ⟨0, 0⟩]).begin source with
        cursor := cursor }) := by
    rw [nextToken]
    simp only [Frontend.begin, h]
  exact ⟨_, rfl, .here hnext⟩

/-- `f` is defined and then called. -/
theorem defined_calls_iff_f :
    CallsFunc (fun _ => 0) 0 (firstToken (utf8 "f") (utf8 "f\n") ⟨utf8 "f\n", 1⟩ (utf8 "\n")) := by
  have hlines : handedForms [utf8 "Func f Ret", utf8 "f Ret"] =
      [] ++ ⟨some (utf8 "f"), []⟩ :: ([] ++ ⟨none, utf8 "f\n"⟩ :: []) := by decide
  have hst := @engaged_firstToken (utf8 "f") (utf8 "f\n") (utf8 "\n") ⟨utf8 "f\n", 1⟩ (by decide)
  have hdefine := @defineNamed_empty { globals := [⟨2, 0⟩] } (utf8 "f") (by decide) (by decide)
  obtain ⟨-, hall⟩ := defined_calls_iff hlines .nil hdefine .nil
  obtain ⟨-, hcalls, -⟩ := hall (fun _ => 0) (oneFunction (utf8 "f")) _ rfl hst (by decide)
  exact (hcalls 3 _ rfl).mpr (by decide)

/-- `Print` is defined, but the later `Print` runs the function of the host. -/
theorem defined_print_is_not_called :
    handedForms [utf8 "Func Print Ret", utf8 "Print Ret"] =
      [⟨some (utf8 "Print"), []⟩, ⟨none, utf8 "Print\n"⟩] ∧
    ∃ c₁ fe st, defineNamed (fun _ => 0) (fun _ => 0) 2 (utf8 "Print") [] { globals := [⟨2, 0⟩] } =
        some (true, c₁) ∧
      HandedForm.ReadBy ⟨none, utf8 "Print\n"⟩ c₁ fe ∧
      EngagedBy noMacros (fun _ => 0) (utf8 "Print\n") fe st ∧
      st.currentToken.bytes = utf8 "Print" ∧
      (∃ fe', compileSource noMacros (fun _ => 0) 3 (utf8 "Print\n") fe = some (true, fe')) ∧
      ¬ CallsFunc (fun _ => 0) 0 st := by
  refine ⟨by decide, _, oneFunction (utf8 "Print"),
    firstToken (utf8 "Print") (utf8 "Print\n") ⟨utf8 "Print\n", 5⟩ (utf8 "\n"),
    defineNamed_empty (by decide) (by decide), rfl, engaged_firstToken (by decide), by decide,
    ⟨_, rfl⟩, ?_⟩
  rintro ⟨st', hengage, hops⟩
  cases hengage
  exact absurd hops (by decide)

end TreeVM
