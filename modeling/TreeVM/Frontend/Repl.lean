import TreeVM.Frontend.Tokens

/-!
# Lines of the REPL

The loop of `main` in `repl.c` cuts each line three times before the frontend scans it.

* `trim`, `takeFinalRet`, `beginDefinition`: the functions of the source, on the bytes of a line;
* `Repl.takeLine`, `session`: the body of the loop of `main`, and the lines one after the other;
* `formsOf`, `handedTokens`: the forms among the lines, and the tokens that the frontend should get;
* `session_hands`: it gets them, unless a parenthesis stands directly behind the name.

Memory suffices.
-/

namespace TreeVM

/-! ## The source -/

/-- The second loop of `trim`: where the last byte that is no white space ends -/
def trimEnd : Nat → Text → Nat → Nat → Nat
  | 0, _, _, stop => stop
  | rounds + 1, p, pos, stop =>
      let whitespace := whitespaceLen p
      if byteAt p 0 = 0 then stop
      else if whitespace ≠ 0 then trimEnd rounds (p.drop whitespace) (pos + whitespace) stop
      else trimEnd rounds (p.drop 1) (pos + 1) (pos + 1)

def trim (line : Text) : Text :=
  let line := skipWhitespace line.length line
  line.take (trimEnd line.length line 0 0)

/-- `Func` -/
def funcBytes : Text :=
  [0x46, 0x75, 0x6e, 0x63]

/-- `Ret` -/
def retBytes : Text :=
  [0x52, 0x65, 0x74]

/-- `:quit` -/
def quitBytes : Text :=
  [0x3a, 0x71, 0x75, 0x69, 0x74]

/-- The loop of `take_final_ret`; each round scans as `next_token` does. -/
def lastToken : Nat → Text → Option Token → Option Token
  | 0, _, last => last
  | rounds + 1, p, last =>
      match scanToken p with
      | none => last
      | some (t, rest) => lastToken rounds rest (some t)

/-- `take_final_ret`: the input up to a final `Ret` -/
def takeFinalRet (input : Text) : Option Text :=
  match lastToken input.length input none with
  | none => none
  | some last =>
      if last.len = 3 ∧ last.bytes = retBytes then
        some (input.take (input.length - last.data.length))
      else none

/-- What `begin_definition` finds: no definition, one without a name, or a name and the rest of
the line -/
inductive Beginning
  | none
  | nameless
  | named (name body : Text)
  deriving DecidableEq, Repr

/-- `begin_definition` -/
def beginDefinition (line : Text) : Beginning :=
  if line.take 4 ≠ funcBytes ∨ (byteAt line 4 ≠ 0 ∧ whitespaceLen (line.drop 4) = 0) then .none
  else
    let name := trim (line.drop 4)
    let len := wordLen name
    let body := name.drop len
    let separator := whitespaceLen body
    let rest :=
      if separator ≠ 0 then body.drop separator
      -- the byte here is a parenthesis, and it is overwritten
      else body.drop 1
    if len = 0 then .nameless else .named (name.take len) rest

structure Repl where
  source : Text := []
  defining : Bool := false
  pendingName : Option Text := none
  deriving DecidableEq, Repr

/-- A form that is handed to `define_named` or, without a name, to `run_anonymous` -/
structure HandedForm where
  name : Option Text
  source : Text
  deriving DecidableEq, Repr

namespace Repl

/-- `append_source` -/
def appendSource (repl : Repl) (line : Text) : Repl :=
  { repl with source := repl.source ++ line ++ [0x0a] }

/-- The call of `begin_definition` in `main`, and the line that is appended without one -/
def startLine (repl : Repl) (input : Text) : Repl :=
  let beginning :=
    if ¬ repl.defining ∧ repl.source.length = 0 then beginDefinition input else .none
  match beginning with
  | .none => if byteAt input 0 ≠ 0 then repl.appendSource input else repl
  | .nameless => repl
  | .named name body =>
      let repl := { repl with pendingName := some name, defining := true }
      if byteAt body 0 ≠ 0 then repl.appendSource (trim body) else repl

/-- The body of the loop of `main` behind the test for `:quit`, and what `finish_form` hands over -/
def takeLine (repl : Repl) (input : Text) : Repl × Option HandedForm :=
  let cut := takeFinalRet input
  let complete := cut.isSome
  let input := trim (cut.getD input)
  let repl := repl.startLine input
  if complete ∧ (repl.defining ∨ repl.source.length ≠ 0 ∨ byteAt input 0 = 0) then
    ({}, some ⟨repl.pendingName, repl.source⟩)
  else (repl, none)

end Repl

/-- The loop of `main`: what each line hands over -/
def session (repl : Repl) : List Text → List (Option HandedForm)
  | [] => []
  | line :: lines =>
      let input := trim line
      if input = quitBytes then []
      else (repl.takeLine input).2 :: session (repl.takeLine input).1 lines

/-! ## Trimming -/

/-- A text without the white space at its ends -/
def strip (chars : List Char) : List Char :=
  (chars.dropWhile isWhiteSpace).rdropWhile isWhiteSpace

theorem rdropWhile_cons (p : Char → Bool) (c : Char) (chars : List Char) :
    (c :: chars).rdropWhile p =
      if chars.rdropWhile p = [] then if p c then [] else [c] else c :: chars.rdropWhile p := by
  simp only [List.rdropWhile, List.reverse_cons, List.reverse_eq_nil_iff, List.dropWhile_append]
  by_cases h : chars.reverse.dropWhile p = []
  · cases hc : p c <;> simp [h, hc]
  · simp [h]

theorem trimEnd_continuations {tail : List UInt8} (h : ∀ b ∈ tail, Continuation b) (p : Text)
    (pos rounds : Nat) (hrounds : tail.length + p.length ≤ rounds) :
    ∃ left, p.length ≤ left ∧
      trimEnd rounds (tail ++ p) pos pos = trimEnd left p (pos + tail.length) (pos + tail.length) := by
  induction tail generalizing pos rounds with
  | nil => exact ⟨rounds, by simpa using hrounds, rfl⟩
  | cons b tail ih =>
      obtain ⟨hb, htail⟩ := List.forall_mem_cons.mp h
      rw [List.length_cons] at hrounds
      obtain _ | rounds := rounds
      · omega
      obtain ⟨left, hleft, hrun⟩ := ih htail (pos + 1) rounds (by omega)
      refine ⟨left, hleft, ?_⟩
      have hzero : ¬ b = 0 := by
        rintro rfl
        simp [Continuation] at hb
      rw [List.cons_append, trimEnd, whitespaceLen_continuation hb, byteAt_cons_zero,
        if_neg hzero, if_neg (by simp), List.drop_one, List.tail_cons, hrun, List.length_cons,
        Nat.add_assoc, Nat.add_comm 1]

theorem trimEnd_utf8 (chars : List Char) {rounds pos stop : Nat}
    (hrounds : (encoded chars).length ≤ rounds) :
    trimEnd rounds (encoded chars) pos stop =
      if (visible chars).rdropWhile isWhiteSpace = [] then stop
      else pos + (encoded ((visible chars).rdropWhile isWhiteSpace)).length := by
  induction chars generalizing rounds pos stop with
  | nil => cases rounds <;> rfl
  | cons c chars ih =>
      obtain ⟨lead, tail, hbytes, htail, hzero, -⟩ := utf8EncodeChar_lead c
      have hwhite := whitespaceLen_char c (encoded chars)
      rw [← encoded_cons] at hwhite
      have hlen : (encoded (c :: chars)).length = tail.length + 1 + (encoded chars).length := by
        rw [encoded_cons, hbytes, List.length_append, List.length_cons]
      obtain _ | rounds := rounds
      · omega
      have hbyte : byteAt (encoded (c :: chars)) 0 = lead := by
        rw [encoded_cons, hbytes]
        rfl
      rw [trimEnd, hwhite, hbyte]
      by_cases hc : c = '\x00'
      · rw [if_pos (hzero.mpr hc), hc]
        rfl
      rw [if_neg (mt hzero.mp hc), visible_cons hc, rdropWhile_cons]
      cases hblank : isWhiteSpace c with
      | true =>
          have hne : (String.utf8EncodeChar c).length ≠ 0 := by rw [hbytes]; simp
          rw [if_pos rfl, if_pos hne, encoded_cons, List.drop_left, ih (by omega)]
          split
          · rfl
          · rw [if_neg (List.cons_ne_nil _ _), encoded_cons, List.length_append, Nat.add_assoc]
      | false =>
          -- the bytes of the code point, one after the other
          obtain ⟨left, hleft, hrun⟩ := trimEnd_continuations htail (encoded chars) (pos + 1)
            rounds (by omega)
          have hdrop : (encoded (c :: chars)).drop 1 = tail ++ encoded chars := by
            rw [encoded_cons, hbytes]
            rfl
          have hone : (encoded [c]).length = tail.length + 1 := by
            rw [encoded_cons, hbytes, encoded_nil, List.append_nil, List.length_cons]
          rw [if_neg Bool.false_ne_true, if_neg (by simp), hdrop, hrun, ih hleft]
          split
          · rw [if_neg Bool.false_ne_true, if_neg (List.cons_ne_nil _ _), hone]
            omega
          · rw [if_neg (List.cons_ne_nil _ _), ← List.singleton_append, encoded_append,
              List.length_append, hone]
            omega

theorem visible_dropWhile (chars : List Char) :
    visible (chars.dropWhile isWhiteSpace) = (visible chars).dropWhile isWhiteSpace := by
  induction chars with
  | nil => rfl
  | cons c chars ih =>
      by_cases hc : c = '\x00'
      · rw [hc]
        rfl
      cases hwhite : isWhiteSpace c with
      | true =>
          rw [visible_cons hc, List.dropWhile_cons_of_pos hwhite, List.dropWhile_cons_of_pos hwhite, ih]
      | false =>
          rw [visible_cons hc, List.dropWhile_cons_of_neg (by simp [hwhite]),
            List.dropWhile_cons_of_neg (by simp [hwhite]), visible_cons hc]

/-- `trim` takes the white space off both ends. -/
theorem trim_utf8 (chars : List Char) : trim (encoded chars) = encoded (strip (visible chars)) := by
  rw [trim, skipWhitespace_utf8 (length_le_encoded chars), strip, ← visible_dropWhile]
  generalize chars.dropWhile isWhiteSpace = text
  rw [trimEnd_utf8 text (Nat.le_refl _), Nat.zero_add]
  obtain ⟨more, hmore, -⟩ := visible_split text
  obtain ⟨blanks, hblanks⟩ := List.rdropWhile_prefix isWhiteSpace (l := visible text)
  split
  · rename_i hnil
    rw [hnil, List.take_zero, encoded_nil]
  · have htext : encoded text = encoded ((visible text).rdropWhile isWhiteSpace) ++ encoded (blanks ++ more) := by
      rw [← encoded_append, ← List.append_assoc, hblanks, ← hmore]
    rw [htext, List.take_left]

/-! ## The final `Ret` -/

theorem encoded_injective {chars chars' : List Char} (h : encoded chars = encoded chars') : chars = chars' := by
  have hdecode := decode_encoded chars
  rw [h, decode_encoded chars'] at hdecode
  simpa using hdecode.symm

/-- The loop ends with the last token, and only white space is behind it. -/
theorem lastToken_utf8 {chars : List Char} (hzero : '\x00' ∉ chars) {rounds : Nat}
    (hrounds : chars.length ≤ rounds) (last : Option Token) :
    ((∀ c ∈ chars, isWhiteSpace c = true) ∧ lastToken rounds (encoded chars) last = last) ∨
    ∃ before piece after, chars = before ++ (piece ++ after) ∧
      splitTokens chars = splitTokens before ++ [piece] ∧ (∀ c ∈ after, isWhiteSpace c = true) ∧
      lastToken rounds (encoded chars) last = some ⟨encoded (piece ++ after), (encoded piece).length⟩ := by
  induction rounds generalizing chars last with
  | zero =>
      obtain rfl : chars = [] := List.length_eq_zero_iff.mp (Nat.le_zero.mp hrounds)
      exact .inl ⟨nofun, rfl⟩
  | succ rounds ih =>
      obtain ⟨hblank, hscan⟩ | ⟨white, piece, rest, hchars, -, hwhite, hpiece, hscan⟩ :=
        scanToken_utf8 chars
      · rw [visible_eq_self hzero] at hblank
        exact .inl ⟨hblank, by simp only [lastToken, hscan]⟩
      · right
        subst hchars
        rw [List.mem_append, List.mem_append, not_or, not_or] at hzero
        rw [visible_eq_self hzero.2.2] at hpiece
        have hpos := List.length_pos_iff.mpr hpiece.ne_nil
        rw [List.length_append, List.length_append] at hrounds
        have hfirst := splitTokens_first hwhite hpiece
        obtain ⟨hblank, hlast⟩ | ⟨before, final, after, rfl, hsplit, hafter, hlast⟩ :=
          ih hzero.2.2 (by omega) (some ⟨encoded (piece ++ rest), (encoded piece).length⟩)
        · refine ⟨white, piece, rest, rfl, ?_, hblank, by simp only [lastToken, hscan, hlast]⟩
          rw [hfirst, splitTokens, splitTokens, pieces_eq_nil hblank, pieces_eq_nil hwhite]
          rfl
        · refine ⟨white ++ (piece ++ before), final, after, by simp, ?_, hafter,
            by simp only [lastToken, hscan, hlast]⟩
          rw [hfirst, splitTokens_first hwhite hpiece.cut, hsplit, List.cons_append]

def retToken : List Char :=
  ['R', 'e', 't']

theorem takeFinalRet_utf8 {chars : List Char} (hzero : '\x00' ∉ chars) :
    (∃ before after, chars = before ++ (retToken ++ after) ∧
      splitTokens chars = splitTokens before ++ [retToken] ∧
      (∀ c ∈ after, isWhiteSpace c = true) ∧ takeFinalRet (encoded chars) = some (encoded before)) ∨
    ((splitTokens chars).getLast? ≠ some retToken ∧ takeFinalRet (encoded chars) = none) := by
  have hret : encoded retToken = retBytes := rfl
  obtain ⟨hblank, hlast⟩ | ⟨before, piece, after, hchars, hsplit, hafter, hlast⟩ :=
    lastToken_utf8 hzero (length_le_encoded chars) none
  · refine .inr ⟨?_, by simp only [takeFinalRet, hlast]⟩
    rw [splitTokens, pieces_eq_nil hblank]
    intro hlast
    cases hlast
  · have hbytes := bytes_utf8 piece after
    by_cases hpiece : piece = retToken
    · subst hpiece
      refine .inl ⟨before, after, hchars, hsplit, hafter, ?_⟩
      have hcut : (encoded chars).take ((encoded chars).length - (encoded (retToken ++ after)).length) =
          encoded before := by
        rw [hchars, encoded_append before, List.length_append, Nat.add_sub_cancel, List.take_left]
      simp only [takeFinalRet, hlast, hret, hcut]
      rfl
    · refine .inr ⟨?_, ?_⟩
      · rw [hsplit, List.getLast?_concat]
        exact fun h => hpiece (Option.some.inj h)
      · have hne : ¬ encoded piece = retBytes := fun h => hpiece (encoded_injective (h.trans hret.symm))
        simp only [takeFinalRet, hlast, hbytes, hne, and_false, if_false]

/-! ## Definitions -/

def funcToken : List Char :=
  ['F', 'u', 'n', 'c']

/-- A text begins with an ASCII character if its bytes do. -/
theorem ascii_cons {d : Char} (hd : d.toNat < 0x80) {chars : List Char} {b : UInt8} {q : Text}
    (hb : b.toNat = d.toNat) (h : encoded chars = b :: q) : ∃ rest, chars = d :: rest ∧ q = encoded rest := by
  cases chars with
  | nil => cases h
  | cons c rest =>
      obtain ⟨lead, tail, hbytes, htail, hascii, hhigh⟩ := utf8EncodeChar_cons c
      rw [encoded_cons, hbytes, List.cons_append, List.cons.injEq] at h
      obtain ⟨rfl, rfl⟩ := h
      have hc : c.toNat < 0x80 := by
        by_contra hc
        have := hhigh (by omega)
        omega
      obtain rfl : c = d := toNat_injective (by rw [← hascii hc, hb])
      have hone : String.utf8EncodeChar c = [lead] := by
        have hval : c.toNat = c.val.toNat := rfl
        have hle : c.val.toNat ≤ 0x7f := by omega
        have hencode : String.utf8EncodeChar c = [UInt8.ofNat c.val.toNat] := by
          simp only [String.utf8EncodeChar, if_pos hle]
        rw [hencode] at hbytes ⊢
        cases hbytes
        rfl
      rw [hone] at hbytes
      cases hbytes
      exact ⟨rest, rfl, rfl⟩

theorem funcBytes_prefix {chars : List Char} (h : (encoded chars).take 4 = funcBytes) :
    ∃ rest, chars = funcToken ++ rest := by
  have hsplit := List.take_append_drop 4 (encoded chars)
  rw [h] at hsplit
  obtain ⟨chars, rfl, hq⟩ := ascii_cons (d := 'F') (by decide) rfl hsplit.symm
  obtain ⟨chars, rfl, hq⟩ := ascii_cons (d := 'u') (by decide) rfl hq.symm
  obtain ⟨chars, rfl, hq⟩ := ascii_cons (d := 'n') (by decide) rfl hq.symm
  obtain ⟨chars, rfl, hq⟩ := ascii_cons (d := 'c') (by decide) rfl hq.symm
  exact ⟨chars, rfl⟩

theorem wordLen_utf8 {chars : List Char} (hzero : '\x00' ∉ chars) :
    wordLen (encoded chars) = (encoded (chars.takeWhile inWord)).length := by
  have hparts := List.takeWhile_append_dropWhile (p := inWord) (l := chars)
  have htake : '\x00' ∉ chars.takeWhile inWord := fun h => hzero (List.takeWhile_subset _ h)
  have hdrop : '\x00' ∉ chars.dropWhile inWord := fun h => hzero (List.dropWhile_subset _ h)
  have hstop : ∀ c ∈ (visible (chars.dropWhile inWord)).head?, inWord c = false := by
    rw [visible_eq_self hdrop]
    intro c hc
    have h := List.head?_dropWhile_not inWord chars
    rwa [Option.mem_def.mp hc] at h
  conv_lhs => rw [← hparts, encoded_append]
  rw [wordLen_run (fun c hc => List.mem_takeWhile_imp hc) htake, wordLen_stop hstop, Nat.add_zero]

/-- The code point behind the name is cut off, whatever it is. -/
theorem drop_separator {body : List Char} (h : ∀ c ∈ body.head?, inWord c = false) :
    (if whitespaceLen (encoded body) ≠ 0 then (encoded body).drop (whitespaceLen (encoded body))
      else (encoded body).drop 1) = encoded body.tail := by
  cases body with
  | nil => rfl
  | cons c body =>
      have hwhite := whitespaceLen_char c (encoded body)
      rw [← encoded_cons] at hwhite
      rw [hwhite]
      cases hc : isWhiteSpace c with
      | true =>
          have hne : (String.utf8EncodeChar c).length ≠ 0 :=
            mt List.length_eq_zero_iff.mp String.utf8EncodeChar_ne_nil
          rw [if_pos rfl, if_pos hne, encoded_cons, List.drop_left, List.tail_cons]
      | false =>
          have hparen : isParenthesis c = true := by
            simpa [ordinary, hc] using h c rfl
          rw [if_neg Bool.false_ne_true, if_neg (by simp), List.tail_cons]
          simp only [isParenthesis, Bool.or_eq_true, beq_iff_eq] at hparen
          obtain rfl | rfl := hparen <;> rfl

/-- The text behind `Func` and its white space, in a line that begins so -/
def afterFunc (chars : List Char) : Option (List Char) :=
  if funcToken.isPrefixOf chars && (chars.drop 4).head?.all isWhiteSpace then some (chars.drop 4)
  else none

theorem afterFunc_eq_some {chars rest : List Char} (h : afterFunc chars = some rest) :
    chars = funcToken ++ rest ∧ ∀ c ∈ rest.head?, isWhiteSpace c = true := by
  rw [afterFunc] at h
  split at h
  · rename_i hboth
    cases h
    rw [Bool.and_eq_true, List.isPrefixOf_iff_prefix] at hboth
    obtain ⟨⟨rest, rfl⟩, hwhite⟩ := hboth
    refine ⟨rfl, fun c hc => ?_⟩
    rw [Option.mem_def.mp hc] at hwhite
    exact hwhite
  · cases h

theorem strip_subset (chars : List Char) : strip chars ⊆ chars := fun _ h =>
  List.dropWhile_subset _ ((List.rdropWhile_prefix _ _).subset h)

/-- The bytes behind `Func` end there or are white space, if the code points are. -/
theorem separated_utf8 {rest : List Char} (hzero : '\x00' ∉ rest) :
    (byteAt (encoded rest) 0 ≠ 0 ∧ whitespaceLen (encoded rest) = 0) ↔
      ¬ ∀ c ∈ rest.head?, isWhiteSpace c = true := by
  cases rest with
  | nil => simp [byteAt]
  | cons c rest =>
      rw [List.mem_cons, not_or] at hzero
      obtain ⟨lead, tail, hbytes, -, hnul, -⟩ := utf8EncodeChar_lead c
      have hwhite := whitespaceLen_char c (encoded rest)
      rw [← encoded_cons] at hwhite
      have hbyte : byteAt (encoded (c :: rest)) 0 = lead := by
        rw [encoded_cons, hbytes]
        rfl
      have hlead : lead ≠ 0 := fun h => hzero.1 (hnul.mp h).symm
      have hlen : (String.utf8EncodeChar c).length ≠ 0 :=
        mt List.length_eq_zero_iff.mp String.utf8EncodeChar_ne_nil
      rw [hbyte, hwhite, List.head?_cons]
      cases hc : isWhiteSpace c with
      | true =>
          rw [if_pos rfl]
          exact iff_of_false (fun h => hlen h.2) (fun h => h fun d hd => by cases hd; exact hc)
      | false =>
          refine iff_of_true ⟨hlead, rfl⟩ fun h => ?_
          exact absurd ((h c rfl).symm.trans hc) (by simp)

theorem beginDefinition_none {chars : List Char} (hzero : '\x00' ∉ chars)
    (h : afterFunc chars = none) : beginDefinition (encoded chars) = .none := by
  rw [beginDefinition, if_pos]
  by_cases hfunc : (encoded chars).take 4 = funcBytes
  · obtain ⟨rest, rfl⟩ := funcBytes_prefix hfunc
    have hdrop : (encoded (funcToken ++ rest)).drop 4 = encoded rest := rfl
    have hbyte : byteAt (encoded (funcToken ++ rest)) 4 = byteAt (encoded rest) 0 := rfl
    have hrest : '\x00' ∉ rest := fun hmem => hzero (List.mem_append_right _ hmem)
    rw [hdrop, hbyte, separated_utf8 hrest]
    refine .inr fun hwhite => ?_
    rw [afterFunc, if_pos] at h
    · cases h
    · rw [Bool.and_eq_true, List.isPrefixOf_iff_prefix]
      refine ⟨List.prefix_append _ _, ?_⟩
      have hhead : (funcToken ++ rest).drop 4 = rest := rfl
      rw [hhead]
      cases rest with
      | nil => rfl
      | cons c rest => exact hwhite c rfl
  · exact .inl hfunc

theorem beginDefinition_some {chars rest : List Char} (hzero : '\x00' ∉ chars)
    (h : afterFunc chars = some rest) :
    beginDefinition (encoded chars) = if (strip rest).takeWhile inWord = [] then .nameless
      else .named (encoded ((strip rest).takeWhile inWord))
        (encoded ((strip rest).dropWhile inWord).tail) := by
  obtain ⟨rfl, hwhite⟩ := afterFunc_eq_some h
  have hrest : '\x00' ∉ rest := fun hmem => hzero (List.mem_append_right _ hmem)
  have htext : '\x00' ∉ strip rest := fun hmem => hrest (strip_subset rest hmem)
  have htake : (encoded (funcToken ++ rest)).take 4 = funcBytes := rfl
  have hdrop : (encoded (funcToken ++ rest)).drop 4 = encoded rest := rfl
  have hbyte : byteAt (encoded (funcToken ++ rest)) 4 = byteAt (encoded rest) 0 := rfl
  have hparts := List.takeWhile_append_dropWhile (p := inWord) (l := strip rest)
  have hcut : encoded (strip rest) =
      encoded ((strip rest).takeWhile inWord) ++ encoded ((strip rest).dropWhile inWord) := by
    rw [← encoded_append, hparts]
  have hname : (encoded (strip rest)).take (encoded ((strip rest).takeWhile inWord)).length =
      encoded ((strip rest).takeWhile inWord) := by
    rw [hcut, List.take_left]
  have hbody : (encoded (strip rest)).drop (encoded ((strip rest).takeWhile inWord)).length =
      encoded ((strip rest).dropWhile inWord) := by
    rw [hcut, List.drop_left]
  have hhead : ∀ c ∈ ((strip rest).dropWhile inWord).head?, inWord c = false := by
    intro c hc
    have hstop := List.head?_dropWhile_not inWord (strip rest)
    rwa [Option.mem_def.mp hc] at hstop
  have hempty : ((encoded ((strip rest).takeWhile inWord)).length = 0) ↔
      (strip rest).takeWhile inWord = [] := by
    rw [List.length_eq_zero_iff]
    exact ⟨fun h => encoded_injective (h.trans encoded_nil.symm), fun h => by rw [h, encoded_nil]⟩
  have hdefinition : ¬ ((encoded (funcToken ++ rest)).take 4 ≠ funcBytes ∨
      (byteAt (encoded (funcToken ++ rest)) 4 ≠ 0 ∧
        whitespaceLen ((encoded (funcToken ++ rest)).drop 4) = 0)) := by
    rw [hdrop, hbyte, separated_utf8 hrest, not_or, not_not, not_not]
    exact ⟨htake, hwhite⟩
  rw [beginDefinition, if_neg hdefinition, hdrop]
  simp only [trim_utf8, visible_eq_self hrest, wordLen_utf8 htext, hbody, hname, hempty,
    drop_separator hhead]

/-! ## Forms -/

def lineTokens (line : List Char) : List (List Char) :=
  splitTokens (visible line)

def endsInRet (line : List Char) : Bool :=
  (lineTokens line).getLast? = some retToken

/-- `Func` and a name -/
def startsDefinition : List (List Char) → Bool
  | word :: name :: _ => word == funcToken && name != ['('] && name != [')']
  | _ => false

/-- The text of a line up to its final `Ret` -/
def lineText (line : List Char) : List Char :=
  let text := strip (visible line)
  strip (if endsInRet line then text.take (text.length - 3) else text)

/-- `Func` without a name, which is refused with a message -/
def nameless (line : List Char) : Bool :=
  match afterFunc (lineText line) with
  | some rest => !startsDefinition (funcToken :: splitTokens rest)
  | none => false

/-- `Func` and a name with a parenthesis directly behind it -/
def glued (line : List Char) : Bool :=
  match afterFunc (lineText line) with
  | some rest => startsDefinition (funcToken :: splitTokens rest) &&
      ((strip rest).dropWhile inWord).head?.any isParenthesis
  | none => false

/-- A line that opens no form: it has no tokens, or it is refused -/
abbrev skipped (line : List Char) : Prop :=
  lineTokens line = [] ∨ nameless line = true

/-- The forms of a session, each at the line that ends it -/
def formsOf : List (List Char) → List (List Char) → List (Option (List (List Char)))
  | _, [] => []
  | opened, line :: lines =>
      if opened = [] ∧ skipped line then none :: formsOf [] lines
      else if endsInRet line then some (opened ++ [line]) :: formsOf [] lines
      else none :: formsOf (opened ++ [line]) lines

/-- The tokens of a form before the final `Ret`, without `Func` and the name of a definition -/
def handedTokens (form : List (List Char)) : List (List Char) :=
  let tokens := (form.flatMap lineTokens).dropLast
  if form.head?.any fun first => startsDefinition (lineTokens first) then tokens.drop 2 else tokens

/-! ### One line -/

theorem splitTokens_strip (chars : List Char) : splitTokens (strip chars) = splitTokens chars := by
  rw [splitTokens, strip, pieces_rdropWhile, pieces_dropWhile, splitTokens]

/-- The tokens of a line that are not its final `Ret` -/
def formTokens (line : List Char) : List (List Char) :=
  if endsInRet line then (lineTokens line).dropLast else lineTokens line

theorem strip_zero {chars : List Char} (h : '\x00' ∉ chars) : '\x00' ∉ strip chars := fun hmem =>
  h (strip_subset chars hmem)

theorem blanks_behind_strip {chars before after : List Char} (h : strip chars = before ++ after)
    (hafter : ∀ c ∈ after, isWhiteSpace c = true) : after = [] := by
  have hidem : (strip chars).rdropWhile isWhiteSpace = strip chars :=
    List.rdropWhile_idempotent _ _
  rw [List.rdropWhile_eq_self_iff, h] at hidem
  by_contra hne
  have hlast := hidem (by simp [hne])
  rw [List.getLast_append_of_ne_nil (by simp [hne]) hne] at hlast
  exact hlast (hafter _ (List.getLast_mem hne))

/-- `take_final_ret` and `trim` leave the text up to a final `Ret`. -/
theorem takeFinalRet_line (line : List Char) :
    (takeFinalRet (trim (encoded line))).isSome = endsInRet line ∧
    trim ((takeFinalRet (trim (encoded line))).getD (trim (encoded line))) = encoded (lineText line) ∧
    splitTokens (lineText line) = formTokens line ∧ '\x00' ∉ lineText line := by
  have hzero := strip_zero (zero_notMem_visible line)
  have htokens : splitTokens (strip (visible line)) = lineTokens line := splitTokens_strip _
  rw [trim_utf8]
  obtain ⟨before, after, hchars, hsplit, hafter, hcut⟩ | ⟨hlast, hcut⟩ := takeFinalRet_utf8 hzero
  · rw [← List.append_assoc] at hchars
    obtain rfl := blanks_behind_strip hchars hafter
    rw [List.append_nil] at hchars
    rw [htokens] at hsplit
    have hret : endsInRet line = true := by
      rw [endsInRet, hsplit, List.getLast?_concat, decide_eq_true rfl]
    have hbefore : '\x00' ∉ before := fun hmem => hzero (by simp [hchars, hmem])
    have htext : lineText line = strip before := by
      have htake : (strip (visible line)).take ((strip (visible line)).length - 3) = before := by
        rw [hchars, List.length_append, show retToken.length = 3 from rfl, Nat.add_sub_cancel,
          List.take_left]
      simp only [lineText, hret, if_true, htake]
    refine ⟨by rw [hcut, hret]; rfl, ?_, ?_, ?_⟩
    · rw [hcut, Option.getD_some, trim_utf8, visible_eq_self hbefore, htext]
    · rw [htext, splitTokens_strip, formTokens, if_pos hret, hsplit, List.dropLast_concat]
    · rw [htext]
      exact strip_zero hbefore
  · rw [htokens] at hlast
    have hret : endsInRet line = false := by
      rw [endsInRet, decide_eq_false hlast]
    have htext : lineText line = strip (strip (visible line)) := by
      simp only [lineText, hret, Bool.false_eq_true, if_false]
    refine ⟨by rw [hcut, hret]; rfl, ?_, ?_, ?_⟩
    · rw [hcut, Option.getD_none, trim_utf8, visible_eq_self hzero, htext]
    · rw [htext, splitTokens_strip, htokens, formTokens, hret, if_neg Bool.false_ne_true]
    · rw [htext]
      exact strip_zero hzero

/-! ### The first line of a form -/

theorem startsDefinition_iff {tokens : List (List Char)} : startsDefinition tokens = true ↔
    ∃ name more, tokens = funcToken :: name :: more ∧ name ≠ ['('] ∧ name ≠ [')'] := by
  obtain _ | ⟨word, _ | ⟨name, more⟩⟩ := tokens
  · simp [startsDefinition]
  · simp [startsDefinition]
  · simp only [startsDefinition, Bool.and_eq_true, beq_iff_eq, bne_iff_ne, List.cons.injEq]
    constructor
    · rintro ⟨⟨hword, hopen⟩, hclose⟩
      exact ⟨name, more, ⟨hword, rfl, rfl⟩, hopen, hclose⟩
    · rintro ⟨_, _, ⟨hword, rfl, rfl⟩, hopen, hclose⟩
      exact ⟨⟨hword, hopen⟩, hclose⟩

theorem strip_head {chars text : List Char} {c : Char} (h : strip chars = c :: text) :
    isWhiteSpace c = false := by
  obtain ⟨blanks, hblanks⟩ := List.rdropWhile_prefix isWhiteSpace (chars.dropWhile isWhiteSpace)
  rw [strip] at h
  rw [h, List.cons_append] at hblanks
  have hhead := List.head?_dropWhile_not isWhiteSpace chars
  rwa [← hblanks] at hhead

theorem not_ordinary {c : Char} (h : inWord c = false) (hwhite : isWhiteSpace c = false) :
    isParenthesis c = true := by
  simpa [ordinary, hwhite] using h

theorem splitTokens_funcToken {rest : List Char} (h : ∀ c ∈ rest.head?, isWhiteSpace c = true) :
    splitTokens (funcToken ++ rest) = funcToken :: splitTokens rest := by
  have hfirst : FirstPiece isWhiteSpace isParenthesis funcToken rest := by
    refine .inr ⟨by decide, List.all_eq_true.mp rfl, fun c hc => ?_⟩
    rw [ordinary, h c hc]
    rfl
  exact hfirst.pieces

/-- A line with the token `Func` and no parenthesis behind it is a definition, if it has a name. -/
theorem afterFunc_of_tokens {chars : List Char} {more : List (List Char)}
    (h : splitTokens (strip chars) = funcToken :: more)
    (hmore : ∀ token ∈ more.head?, token ≠ ['('] ∧ token ≠ [')']) :
    ∃ rest, afterFunc (strip chars) = some rest ∧ splitTokens rest = more := by
  obtain hblank | ⟨white, piece, rest, htext, hwhite, hpiece⟩ :=
    blank_or_firstPiece isWhiteSpace isParenthesis (strip chars)
  · rw [splitTokens, pieces_eq_nil hblank] at h
    cases h
  obtain _ | ⟨c, white⟩ := white
  · have hfirst := splitTokens_first hwhite hpiece
    rw [← htext, h, List.cons.injEq] at hfirst
    obtain ⟨rfl, hrest⟩ := hfirst
    refine ⟨rest, ?_, hrest.symm⟩
    rw [htext, List.nil_append, afterFunc, if_pos]
    · rfl
    rw [Bool.and_eq_true, List.isPrefixOf_iff_prefix]
    refine ⟨List.prefix_append _ _, ?_⟩
    rw [show (funcToken ++ rest).drop 4 = rest from rfl]
    obtain ⟨a, ha, -⟩ | ⟨-, -, hstop⟩ := hpiece
    · cases ha
    cases rest with
    | nil => rfl
    | cons c rest =>
        by_contra hblack
        have hc : isWhiteSpace c = false := by simpa using hblack
        have hparen := not_ordinary (hstop c rfl) hc
        rw [splitTokens, pieces_alone hc hparen] at hrest
        rw [hrest] at hmore
        have hnot := hmore [c] rfl
        simp only [isParenthesis, Bool.or_eq_true, beq_iff_eq] at hparen
        obtain rfl | rfl := hparen
        · exact hnot.1 rfl
        · exact hnot.2 rfl
  · have hc := strip_head htext
    exact absurd ((hwhite c List.mem_cons_self).symm.trans hc) (by simp)

/-- The name behind `Func`, and what follows it -/
theorem name_behind_func (rest : List Char) :
    (startsDefinition (funcToken :: splitTokens rest) = true ↔ (strip rest).takeWhile inWord ≠ []) ∧
    ((strip rest).takeWhile inWord ≠ [] → splitTokens rest = (strip rest).takeWhile inWord ::
      splitTokens ((strip rest).dropWhile inWord)) := by
  rw [← splitTokens_strip rest]
  cases htext : strip rest with
  | nil => exact ⟨by simp [startsDefinition, splitTokens], fun h => absurd rfl h⟩
  | cons c text =>
      have hc := strip_head htext
      cases hword : inWord c with
      | true =>
          have hne : (c :: text).takeWhile inWord ≠ [] := by simp [hword]
          have hsplit := (firstPiece_run text hword).pieces
          rw [List.takeWhile_append_dropWhile] at hsplit
          refine ⟨iff_of_true ?_ hne, fun _ => hsplit⟩
          have hparen : ∀ d, isParenthesis d = true → (c :: text).takeWhile inWord ≠ [d] := by
            intro d hd hname
            rw [List.takeWhile_cons_of_pos hword, List.cons.injEq] at hname
            rw [hname.1, inWord, ordinary, hd] at hword
            simp at hword
          rw [startsDefinition_iff]
          exact ⟨_, _, congrArg (List.cons funcToken) hsplit, hparen '(' rfl, hparen ')' rfl⟩
      | false =>
          have hparen := not_ordinary hword hc
          rw [List.takeWhile_cons_of_neg (by simp [hword])]
          refine ⟨iff_of_false ?_ (by simp), fun h => absurd rfl h⟩
          rw [startsDefinition_iff, splitTokens, pieces_alone hc hparen]
          rintro ⟨name, more, h, hopen, hclose⟩
          simp only [List.cons.injEq, true_and] at h
          simp only [isParenthesis, Bool.or_eq_true, beq_iff_eq] at hparen
          obtain rfl | rfl := hparen
          · exact hopen h.1.symm
          · exact hclose h.1.symm

theorem splitTokens_tail {body : List Char} (h : ∀ c ∈ body.head?, inWord c = false) :
    splitTokens body.tail = (splitTokens body).drop (if body.head?.any isParenthesis then 1 else 0) := by
  cases body with
  | nil => rfl
  | cons c body =>
      rw [List.tail_cons, List.head?_cons, Option.any_some]
      cases hc : isWhiteSpace c with
      | true =>
          have hparen : isParenthesis c = false := by
            by_contra hparen
            simp only [Bool.not_eq_false, isParenthesis, Bool.or_eq_true, beq_iff_eq] at hparen
            obtain rfl | rfl := hparen <;> cases hc
          rw [hparen, if_neg Bool.false_ne_true, List.drop_zero, splitTokens, splitTokens,
            pieces_blank hc]
      | false =>
          have hparen := not_ordinary (h c rfl) hc
          rw [hparen, if_pos rfl, splitTokens, splitTokens, pieces_alone hc hparen, List.drop_one,
            List.tail_cons]

/-! ### The state between the lines -/

/-- The tokens that the first line of a form leaves in the source -/
def firstGiven (line : List Char) : List (List Char) :=
  if glued line then (formTokens line).drop 3
  else if startsDefinition (formTokens line) then (formTokens line).drop 2
  else formTokens line

/-- The tokens of the source, when these lines are read -/
def givenTokens : List (List Char) → List (List Char)
  | [] => []
  | first :: lines => firstGiven first ++ lines.flatMap formTokens

/-- A source whose last character, a line feed, is white space -/
def SourceHas (repl : Repl) (tokens : List (List Char)) : Prop :=
  ∃ chars, repl.source = encoded chars ∧ '\x00' ∉ chars ∧
    (∀ c ∈ chars.getLast?, isWhiteSpace c = true) ∧ splitTokens chars = tokens

theorem SourceHas.append {repl : Repl} {tokens : List (List Char)} (h : SourceHas repl tokens)
    {text : List Char} (hzero : '\x00' ∉ text) :
    SourceHas (repl.appendSource (encoded text)) (tokens ++ splitTokens text) := by
  obtain ⟨chars, hsource, hchars, hlast, rfl⟩ := h
  refine ⟨chars ++ (text ++ ['\n']), ?_, ?_, ?_, ?_⟩
  · rw [Repl.appendSource, hsource, encoded_append, encoded_append, List.append_assoc]
    rfl
  · simp only [List.mem_append, not_or]
    exact ⟨hchars, hzero, by decide⟩
  · intro c hc
    rw [← List.append_assoc, List.getLast?_concat] at hc
    cases hc
    rfl
  · have hline : splitTokens (text ++ ['\n']) = splitTokens text := by
      rw [splitTokens, pieces_append, pieces_blank rfl, pieces_nil, List.append_nil, splitTokens]
      intro c _ d hd
      cases hd
      rw [Bool.and_comm]
      rfl
    rw [← hline, splitTokens, splitTokens, pieces_append, splitTokens]
    intro c hc d _
    rw [ordinary, hlast c hc]
    rfl

theorem byteAt_utf8 {text : List Char} (hzero : '\x00' ∉ text) :
    byteAt (encoded text) 0 = 0 ↔ text = [] := by
  cases text with
  | nil => exact iff_of_true rfl rfl
  | cons c text =>
      obtain ⟨lead, tail, hbytes, -, hnul, -⟩ := utf8EncodeChar_lead c
      rw [encoded_cons, hbytes, List.cons_append, byteAt_cons_zero]
      exact iff_of_false (fun h => hzero (by simp [hnul.mp h])) (List.cons_ne_nil c text)

/-- A line that is appended unless it is empty -/
theorem SourceHas.appendLine {repl : Repl} {tokens : List (List Char)} (h : SourceHas repl tokens)
    {text : List Char} (hzero : '\x00' ∉ text) :
    SourceHas (if byteAt (encoded text) 0 ≠ 0 then repl.appendSource (encoded text) else repl)
      (tokens ++ splitTokens text) := by
  by_cases htext : text = []
  · rw [if_neg (not_not.mpr ((byteAt_utf8 hzero).mpr htext)), htext]
    simpa [splitTokens] using h
  · rw [if_pos (mt (byteAt_utf8 hzero).mp htext)]
    exact h.append hzero

/-- The REPL between two lines, with these lines of an open form -/
structure Repl.Holds (repl : Repl) (opened : List (List Char)) : Prop where
  source : SourceHas repl (givenTokens opened)
  idle : opened = [] → repl = {}
  busy : opened ≠ [] → repl.defining = true ∨ repl.source.length ≠ 0

theorem holds_start : Repl.Holds {} [] where
  source := ⟨[], rfl, by simp, nofun, rfl⟩
  idle _ := rfl
  busy h := absurd rfl h

/-- A line inside a form -/
theorem startLine_inside {repl : Repl} {opened : List (List Char)} (h : repl.Holds opened)
    (hopened : opened ≠ []) (line : List Char) :
    (repl.startLine (encoded (lineText line))).Holds (opened ++ [line]) := by
  obtain ⟨-, -, hsplit, hzero⟩ := takeFinalRet_line line
  have hbusy : ¬ (¬ repl.defining = true ∧ repl.source.length = 0) := by
    rintro ⟨hdefining, hempty⟩
    exact (h.busy hopened).elim hdefining fun hsource => hsource hempty
  have hrun : repl.startLine (encoded (lineText line)) =
      if byteAt (encoded (lineText line)) 0 ≠ 0 then repl.appendSource (encoded (lineText line)) else repl := by
    rw [Repl.startLine, if_neg hbusy]
  have hgiven : givenTokens (opened ++ [line]) = givenTokens opened ++ splitTokens (lineText line) := by
    obtain ⟨first, more, rfl⟩ := List.exists_cons_of_ne_nil hopened
    rw [hsplit, givenTokens, List.cons_append, givenTokens]
    simp
  refine ⟨?_, fun hnil => by simp at hnil, fun _ => ?_⟩
  · rw [hrun, hgiven]
    exact h.source.appendLine hzero
  · rw [hrun]
    split
    · right
      simp [Repl.appendSource]
    · exact h.busy hopened

/-- The REPL behind `Func` and a name -/
def Repl.begun (name : Text) : Repl :=
  { pendingName := some name, defining := true }

theorem startLine_idle (input : Text) : Repl.startLine {} input =
    match beginDefinition input with
    | .none => if byteAt input 0 ≠ 0 then Repl.appendSource {} input else {}
    | .nameless => {}
    | .named name body =>
        if byteAt body 0 ≠ 0 then (Repl.begun name).appendSource (trim body) else Repl.begun name :=
  rfl

theorem startLine_nameless {line : List Char} (h : nameless line = true) :
    Repl.startLine {} (encoded (lineText line)) = {} ∧ lineText line ≠ [] := by
  obtain ⟨-, -, -, hzero⟩ := takeFinalRet_line line
  cases hafter : afterFunc (lineText line) with
  | none => simp [nameless, hafter] at h
  | some rest =>
      have hname : (strip rest).takeWhile inWord = [] := by
        by_contra hne
        simp [nameless, hafter, (name_behind_func rest).1.mpr hne] at h
      refine ⟨?_, ?_⟩
      · rw [startLine_idle, beginDefinition_some hzero hafter, if_pos hname]
      · rw [(afterFunc_eq_some hafter).1]
        exact List.cons_ne_nil _ _

theorem lineText_eq_strip (line : List Char) : ∃ text, lineText line = strip text :=
  ⟨_, rfl⟩

/-- The first line of a form, when it does not start a definition -/
theorem startLine_plain {line : List Char} (h : afterFunc (lineText line) = none) :
    SourceHas (Repl.startLine {} (encoded (lineText line))) (givenTokens [line]) ∧
    Repl.startLine {} (encoded (lineText line)) =
      if byteAt (encoded (lineText line)) 0 ≠ 0 then Repl.appendSource {} (encoded (lineText line))
      else {} := by
  obtain ⟨-, -, hsplit, hzero⟩ := takeFinalRet_line line
  have hrun : Repl.startLine {} (encoded (lineText line)) =
      if byteAt (encoded (lineText line)) 0 ≠ 0 then Repl.appendSource {} (encoded (lineText line))
      else {} := by
    rw [startLine_idle, beginDefinition_none hzero h]
  have hglued : glued line = false := by simp [glued, h]
  have hstarts : startsDefinition (formTokens line) = false := by
    by_contra hstarts
    rw [Bool.not_eq_false, startsDefinition_iff, ← hsplit] at hstarts
    obtain ⟨name, more, htokens, hopen, hclose⟩ := hstarts
    obtain ⟨text, htext⟩ := lineText_eq_strip line
    rw [htext] at htokens h
    have hnot : ∀ token ∈ (name :: more).head?, token ≠ ['('] ∧ token ≠ [')'] := by
      rintro _ ⟨⟩
      exact ⟨hopen, hclose⟩
    obtain ⟨rest, hrest, -⟩ := afterFunc_of_tokens htokens hnot
    cases h.symm.trans hrest
  have hgiven : givenTokens [line] = [] ++ splitTokens (lineText line) := by
    rw [givenTokens, firstGiven, hglued, hstarts, hsplit]
    simp
  refine ⟨?_, hrun⟩
  rw [hrun, hgiven]
  exact SourceHas.appendLine ⟨[], rfl, by simp, nofun, rfl⟩ hzero

/-- The first line of a definition: what stands behind the name, without the character there -/
theorem startLine_definition {line rest : List Char} (h : afterFunc (lineText line) = some rest)
    (hname : nameless line = false) :
    SourceHas (Repl.startLine {} (encoded (lineText line))) (givenTokens [line]) ∧
    (Repl.startLine {} (encoded (lineText line))).defining = true := by
  obtain ⟨-, -, hsplit, hzero⟩ := takeFinalRet_line line
  obtain ⟨htext, hwhite⟩ := afterFunc_eq_some h
  have hstarts : startsDefinition (funcToken :: splitTokens rest) = true := by
    simpa [nameless, h] using hname
  obtain ⟨hiff, hrest⟩ := name_behind_func rest
  have hne := hiff.mp hstarts
  have hline : formTokens line = funcToken :: (strip rest).takeWhile inWord ::
      splitTokens ((strip rest).dropWhile inWord) := by
    rw [← hsplit, htext, splitTokens_funcToken hwhite, hrest hne]
  have hstop : ∀ c ∈ ((strip rest).dropWhile inWord).head?, inWord c = false := by
    intro c hc
    have hhead := List.head?_dropWhile_not inWord (strip rest)
    rwa [Option.mem_def.mp hc] at hhead
  have hgiven : givenTokens [line] = splitTokens ((strip rest).dropWhile inWord).tail := by
    have hstarts' : startsDefinition (formTokens line) = true := by
      rw [hline, ← hrest hne]
      exact hstarts
    have hglued : glued line = ((strip rest).dropWhile inWord).head?.any isParenthesis := by
      simp only [glued, h, hstarts, Bool.true_and]
    rw [splitTokens_tail hstop, givenTokens, firstGiven, hstarts', hglued, hline]
    cases ((strip rest).dropWhile inWord).head?.any isParenthesis <;> simp
  generalize hbody : ((strip rest).dropWhile inWord).tail = body at hgiven
  have hzeros : '\x00' ∉ body := by
    have hrestZero : '\x00' ∉ strip rest :=
      strip_zero fun hmem => hzero (by rw [htext]; exact List.mem_append_right _ hmem)
    rw [← hbody]
    exact fun hmem => hrestZero (List.dropWhile_subset _ (List.mem_of_mem_tail hmem))
  obtain ⟨repl, hrepl, hempty⟩ : ∃ repl, Repl.begun (encoded ((strip rest).takeWhile inWord)) = repl ∧
      SourceHas repl [] := ⟨_, rfl, [], rfl, by simp, nofun, rfl⟩
  have hdefining : repl.defining = true := by rw [← hrepl]; rfl
  have hrun : Repl.startLine {} (encoded (lineText line)) =
      if byteAt (encoded body) 0 ≠ 0 then repl.appendSource (encoded (strip body)) else repl := by
    rw [startLine_idle, beginDefinition_some hzero h, if_neg hne, hbody]
    simp only [trim_utf8, visible_eq_self hzeros, hrepl]
  rw [hrun, hgiven]
  split
  · refine ⟨?_, hdefining⟩
    have happend := hempty.append (strip_zero hzeros)
    rwa [splitTokens_strip, List.nil_append] at happend
  · rename_i hbyte
    rw [(byteAt_utf8 hzeros).mp (not_not.mp hbyte)]
    exact ⟨hempty, hdefining⟩

theorem takeLine_eq (repl : Repl) (line : List Char) :
    repl.takeLine (trim (encoded line)) =
      if endsInRet line = true ∧ ((repl.startLine (encoded (lineText line))).defining = true ∨
        (repl.startLine (encoded (lineText line))).source.length ≠ 0 ∨ lineText line = []) then
        ({}, some ⟨(repl.startLine (encoded (lineText line))).pendingName,
          (repl.startLine (encoded (lineText line))).source⟩)
      else (repl.startLine (encoded (lineText line)), none) := by
  obtain ⟨hcomplete, hinput, -, hzero⟩ := takeFinalRet_line line
  simp only [Repl.takeLine, hcomplete, hinput, byteAt_utf8 hzero]

theorem lineText_eq_nil {line : List Char} (h : formTokens line = []) : lineText line = [] := by
  obtain ⟨-, -, hsplit, -⟩ := takeFinalRet_line line
  obtain ⟨text, htext⟩ := lineText_eq_strip line
  rw [h, htext] at hsplit
  cases hchars : strip text with
  | nil => rw [htext, hchars]
  | cons c chars =>
      rw [hchars] at hsplit
      have hflat := flatten_pieces isWhiteSpace isParenthesis (c :: chars)
      rw [show pieces isWhiteSpace isParenthesis (c :: chars) = [] from hsplit,
        List.filter_cons_of_pos (by simp [strip_head hchars])] at hflat
      cases hflat

theorem takeLine_skipped {line : List Char} (h : skipped line) :
    Repl.takeLine {} (trim (encoded line)) = ({}, none) := by
  rw [takeLine_eq]
  obtain hblank | hnameless := h
  · have hret : endsInRet line = false := by
      rw [endsInRet, hblank]
      rfl
    have htext : lineText line = [] :=
      lineText_eq_nil (by rw [formTokens, hret, if_neg Bool.false_ne_true, hblank])
    rw [hret, if_neg (by simp), htext]
    rfl
  · obtain ⟨hrun, htext⟩ := startLine_nameless hnameless
    rw [hrun, if_neg]
    rintro ⟨-, hdefining | hsource | hempty⟩
    · cases hdefining
    · exact hsource rfl
    · exact htext hempty

/-- The first line of a form, or one more -/
theorem startLine_holds {repl : Repl} {opened : List (List Char)} (h : repl.Holds opened)
    {line : List Char} (hskipped : ¬ (opened = [] ∧ skipped line)) :
    SourceHas (repl.startLine (encoded (lineText line))) (givenTokens (opened ++ [line])) ∧
    ((repl.startLine (encoded (lineText line))).defining = true ∨
      (repl.startLine (encoded (lineText line))).source.length ≠ 0 ∨ lineText line = []) := by
  by_cases hopened : opened = []
  · obtain rfl := h.idle hopened
    subst hopened
    have hname : nameless line = false := by
      rw [← Bool.not_eq_true]
      exact fun hname => hskipped ⟨rfl, .inr hname⟩
    cases hafter : afterFunc (lineText line) with
    | none =>
        obtain ⟨hsource, hrun⟩ := startLine_plain hafter
        refine ⟨hsource, .inr ?_⟩
        rw [hrun]
        by_cases htext : lineText line = []
        · exact .inr htext
        · obtain ⟨-, -, -, hzero⟩ := takeFinalRet_line line
          rw [if_pos (mt (byteAt_utf8 hzero).mp htext)]
          exact .inl (by simp [Repl.appendSource])
    | some rest =>
        obtain ⟨hsource, hdefining⟩ := startLine_definition hafter hname
        exact ⟨hsource, .inl hdefining⟩
  · have hinside := startLine_inside h hopened line
    refine ⟨hinside.source, ?_⟩
    obtain hdefining | hsource := hinside.busy (by simp)
    · exact .inl hdefining
    · exact .inr (.inl hsource)

theorem takeLine_last {repl : Repl} {opened : List (List Char)} (h : repl.Holds opened)
    {line : List Char} (hskipped : ¬ (opened = [] ∧ skipped line)) (hret : endsInRet line = true) :
    ∃ handed, repl.takeLine (trim (encoded line)) = ({}, some handed) ∧
      tokensOf handed.source = (givenTokens (opened ++ [line])).map encoded := by
  obtain ⟨⟨chars, hsource, hzero, -, htokens⟩, hbusy⟩ := startLine_holds h hskipped
  refine ⟨_, by rw [takeLine_eq, if_pos ⟨hret, hbusy⟩], ?_⟩
  rw [hsource, tokensOf_utf8, visible_eq_self hzero, htokens]

theorem takeLine_more {repl : Repl} {opened : List (List Char)} (h : repl.Holds opened)
    {line : List Char} (hskipped : ¬ (opened = [] ∧ skipped line)) (hret : endsInRet line = false) :
    ∃ repl', repl.takeLine (trim (encoded line)) = (repl', none) ∧ repl'.Holds (opened ++ [line]) := by
  obtain ⟨hsource, hbusy⟩ := startLine_holds h hskipped
  refine ⟨_, by rw [takeLine_eq, hret, if_neg (by simp)], hsource, fun hnil => by simp at hnil, ?_⟩
  intro _
  obtain hdefining | hlength | hempty := hbusy
  · exact .inl hdefining
  · exact .inr hlength
  · -- a line without text opens no form, and it does not change an open one
    obtain ⟨-, -, hsplit, -⟩ := takeFinalRet_line line
    have hline : lineTokens line = [] := by
      rw [hempty, formTokens, hret, if_neg Bool.false_ne_true] at hsplit
      exact hsplit.symm
    have hopened : opened ≠ [] := fun hnil => hskipped ⟨hnil, .inl hline⟩
    exact (startLine_inside h hopened line).busy (by simp)

/-! ## Sessions of lines -/

/-- What the source holds when a form is handed over -/
theorem session_gives {repl : Repl} {opened : List (List Char)} (h : repl.Holds opened)
    {lines : List (List Char)} (hquit : ∀ line ∈ lines, trim (encoded line) ≠ quitBytes) :
    (session repl (lines.map encoded)).map (Option.map fun handed => tokensOf handed.source) =
      (formsOf opened lines).map (Option.map fun form => (givenTokens form).map encoded) := by
  induction lines generalizing repl opened with
  | nil => rfl
  | cons line lines ih =>
      obtain ⟨hline, hquit⟩ := List.forall_mem_cons.mp hquit
      rw [List.map_cons, session, if_neg hline, formsOf]
      by_cases hskipped : opened = [] ∧ skipped line
      · obtain rfl := h.idle hskipped.1
        rw [if_pos hskipped, takeLine_skipped hskipped.2, List.map_cons, List.map_cons,
          ih holds_start hquit]
        rfl
      rw [if_neg hskipped]
      cases hret : endsInRet line with
      | true =>
          obtain ⟨handed, hrun, htokens⟩ := takeLine_last h hskipped hret
          rw [hrun, if_pos rfl, List.map_cons, List.map_cons, ih holds_start hquit, Option.map_some,
            Option.map_some, htokens]
      | false =>
          obtain ⟨repl', hrun, hholds⟩ := takeLine_more h hskipped hret
          rw [hrun, if_neg Bool.false_ne_true, List.map_cons, List.map_cons, ih hholds hquit]
          rfl

/-- The lines of an open form -/
structure OpenForm (opened : List (List Char)) : Prop where
  rets : ∀ line ∈ opened, endsInRet line = false
  first : ∀ line ∈ opened.head?, nameless line = false

/-- The first line of a form, the lines behind it, and the `Ret` of the last one -/
structure IsForm (form : List (List Char)) : Prop where
  tokens : (form.flatMap lineTokens).dropLast = form.flatMap formTokens
  first : ∃ line lines, form = line :: lines ∧ nameless line = false

theorem formTokens_append {line : List Char} (h : endsInRet line = true) :
    lineTokens line = formTokens line ++ [retToken] := by
  rw [formTokens, if_pos h]
  simp only [endsInRet, decide_eq_true_eq] at h
  exact (List.dropLast_append_getLast? retToken h).symm

theorem OpenForm.form {opened : List (List Char)} (h : OpenForm opened) {line : List Char}
    (hskipped : ¬ (opened = [] ∧ skipped line)) (hret : endsInRet line = true) :
    IsForm (opened ++ [line]) := by
  have hopened : opened.flatMap lineTokens = opened.flatMap formTokens := by
    refine List.flatMap_congr fun l hl => ?_
    rw [formTokens, h.rets l hl, if_neg Bool.false_ne_true]
  constructor
  · rw [List.flatMap_append, List.flatMap_append, hopened, List.flatMap_singleton,
      List.flatMap_singleton, formTokens_append hret, ← List.append_assoc, List.dropLast_concat]
  · cases opened with
    | nil =>
        refine ⟨line, [], rfl, ?_⟩
        rw [← Bool.not_eq_true]
        exact fun hname => hskipped ⟨rfl, .inr hname⟩
    | cons first opened => exact ⟨first, opened ++ [line], rfl, h.first first rfl⟩

theorem isForm_of_mem {opened lines form : List (List Char)} (h : OpenForm opened)
    (hform : some form ∈ formsOf opened lines) : IsForm form := by
  induction lines generalizing opened with
  | nil => cases hform
  | cons line lines ih =>
      have hnil : OpenForm [] := ⟨nofun, nofun⟩
      rw [formsOf] at hform
      by_cases hskipped : opened = [] ∧ skipped line
      · rw [if_pos hskipped, List.mem_cons] at hform
        exact hform.elim nofun (ih hnil)
      rw [if_neg hskipped] at hform
      cases hret : endsInRet line with
      | true =>
          rw [hret, if_pos rfl, List.mem_cons, Option.some.injEq] at hform
          obtain rfl | hform := hform
          · exact h.form hskipped hret
          · exact ih hnil hform
      | false =>
          rw [hret, if_neg Bool.false_ne_true, List.mem_cons] at hform
          refine hform.elim nofun (ih ⟨?_, ?_⟩)
          · intro l hl
            obtain hl | hl := List.mem_append.mp hl
            · exact h.rets l hl
            · rwa [List.mem_singleton.mp hl]
          · intro l hl
            cases opened with
            | nil =>
                cases hl
                rw [← Bool.not_eq_true]
                exact fun hname => hskipped ⟨rfl, .inr hname⟩
            | cons first opened => exact h.first l hl

theorem starts_lineTokens {line : List Char} (h : nameless line = false) :
    startsDefinition (lineTokens line) = startsDefinition (formTokens line) := by
  cases hret : endsInRet line with
  | false => rw [formTokens, hret, if_neg Bool.false_ne_true]
  | true =>
      rw [formTokens_append hret]
      cases htokens : formTokens line with
      | nil => rfl
      | cons word more =>
          obtain _ | ⟨name, more⟩ := more
          · -- `Func` alone would be refused
            by_cases hword : word = funcToken
            · obtain ⟨-, -, hsplit, -⟩ := takeFinalRet_line line
              obtain ⟨text, htext⟩ := lineText_eq_strip line
              rw [htokens, hword, htext] at hsplit
              obtain ⟨rest, hafter, hrest⟩ := afterFunc_of_tokens hsplit nofun
              rw [← htext] at hafter
              simp [nameless, hafter, hrest, startsDefinition] at h
            · simp [startsDefinition, hword]
          · rfl

theorem glued_tokens {line : List Char} (h : glued line = true) :
    startsDefinition (formTokens line) = true ∧ 3 ≤ (formTokens line).length := by
  obtain ⟨-, -, hsplit, -⟩ := takeFinalRet_line line
  cases hafter : afterFunc (lineText line) with
  | none => simp [glued, hafter] at h
  | some rest =>
      simp only [glued, hafter, Bool.and_eq_true] at h
      obtain ⟨hstarts, hparen⟩ := h
      obtain ⟨htext, hwhite⟩ := afterFunc_eq_some hafter
      obtain ⟨hiff, hrest⟩ := name_behind_func rest
      have htokens := hrest (hiff.mp hstarts)
      rw [← hsplit, htext, splitTokens_funcToken hwhite]
      refine ⟨hstarts, ?_⟩
      cases hbody : (strip rest).dropWhile inWord with
      | nil => simp [hbody] at hparen
      | cons c body =>
          rw [hbody, List.head?_cons, Option.any_some] at hparen
          have hc : isWhiteSpace c = false := by
            simp only [isParenthesis, Bool.or_eq_true, beq_iff_eq] at hparen
            obtain rfl | rfl := hparen <;> rfl
          rw [htokens, hbody, splitTokens, pieces_alone hc hparen]
          simp

/-- The tokens of a form are handed over unless one is cut off behind the name. -/
theorem IsForm.given_iff {form : List (List Char)} (h : IsForm form) :
    givenTokens form = handedTokens form ↔ ∀ line ∈ form.head?, glued line = false := by
  obtain ⟨first, lines, rfl, hname⟩ := h.first
  have hstarts := starts_lineTokens hname
  rw [handedTokens, h.tokens, List.head?_cons, Option.any_some, hstarts, givenTokens, firstGiven,
    List.flatMap_cons]
  cases hglued : glued first with
  | true =>
      obtain ⟨hdefinition, hlength⟩ := glued_tokens hglued
      rw [if_pos rfl, if_pos hdefinition]
      refine iff_of_false (fun heq => ?_) fun hall => ?_
      · have hlengths := congrArg List.length heq
        rw [List.length_append, List.length_drop, List.length_drop, List.length_append] at hlengths
        omega
      · exact absurd ((hall first rfl).symm.trans hglued) (by simp)
  | false =>
      rw [if_neg Bool.false_ne_true]
      refine iff_of_true ?_ fun line hline => by cases hline; exact hglued
      cases hdefinition : startsDefinition (formTokens first) with
      | false => rw [if_neg Bool.false_ne_true, if_neg Bool.false_ne_true]
      | true =>
          rw [if_pos rfl, if_pos rfl]
          obtain ⟨name, more, htokens, -⟩ := startsDefinition_iff.mp hdefinition
          rw [htokens]
          rfl

/-- Every form is handed over at the line that ends it, with its tokens, if and only if no name of a
definition has a parenthesis directly behind it. -/
theorem session_hands {lines : List (List Char)}
    (hquit : ∀ line ∈ lines, trim (encoded line) ≠ quitBytes) :
    (session {} (lines.map encoded)).map (Option.map fun handed => tokensOf handed.source) =
        (formsOf [] lines).map (Option.map fun form => (handedTokens form).map encoded) ↔
      ∀ form, some form ∈ formsOf [] lines → ∀ line ∈ form.head?, glued line = false := by
  rw [session_gives holds_start hquit, List.map_inj_left]
  have hforms : ∀ form, some form ∈ formsOf [] lines → IsForm form := fun form =>
    isForm_of_mem ⟨nofun, nofun⟩
  constructor
  · intro h form hform
    rw [← (hforms form hform).given_iff]
    exact List.map_injective_iff.mpr (fun _ _ => encoded_injective) (Option.some.inj (h _ hform))
  · intro h form hform
    cases form with
    | none => rfl
    | some form =>
        rw [Option.map_some, Option.map_some, (hforms form hform).given_iff.mpr (h form hform)]

/-- `Func f (1) Ret`, and `Func f(1) Ret` -/
def spacedLine : List Char :=
  "Func f (1) Ret\n".toList

def gluedLine : List Char :=
  "Func f(1) Ret\n".toList

theorem session_hands_spaced :
    (session {} [encoded spacedLine]).map (Option.map fun handed => tokensOf handed.source) =
      [some [encoded ['('], encoded ['1'], encoded [')']]] := by
  have hforms : formsOf [] [spacedLine] = [some [spacedLine]] := by decide
  have hquit : ∀ line ∈ [spacedLine], trim (encoded line) ≠ quitBytes := by decide
  refine (session_hands hquit).mpr ?_
  rw [hforms]
  intro form hform line hline
  cases List.mem_singleton.mp hform
  cases hline
  decide

/-- The parenthesis is overwritten. -/
theorem gluedLine_loses :
    (session {} [encoded gluedLine]).map (Option.map fun handed => tokensOf handed.source) =
      [some [encoded ['1'], encoded [')']]] ∧
    (session {} [encoded gluedLine]).map (Option.map fun handed => tokensOf handed.source) ≠
      (formsOf [] [gluedLine]).map (Option.map fun form => (handedTokens form).map encoded) := by
  decide

end TreeVM
