import TreeVM.Frontend.Advance
import TreeVM.Frontend.Tokens

/-!
# Words and numerals

What the parser functions of the frontend find at the cursor.

* `Words`: the text starts with these words, and goes on at another place;
* `Numeral`: a decimal number with an optional sign;
* `nextName_iff`, `parseNumber_iff`: the words that are taken for names and numbers.
-/

namespace TreeVM

variable {M : Type}

/-! ## Words -/

/-- The next tokens are these words; a parenthesis is not a word. -/
inductive Words : Text → List Name → Text → Prop
  | nil (p : Text) : Words p [] p
  | cons {p p' q : Text} {token : Token} {ws : List Name} : scanToken p = some (token, p') →
      token.isParen = false → Words p' ws q → Words p (token.bytes :: ws) q

theorem skipWhitespace_stops {p : Text} {rounds : Nat} (h : p.length ≤ rounds) :
    whitespaceLen (skipWhitespace rounds p) = 0 ∧ (skipWhitespace rounds p).length ≤ p.length := by
  induction rounds generalizing p with
  | zero =>
      have hnil := List.length_eq_zero_iff.mp (Nat.le_zero.mp h)
      subst hnil
      exact ⟨by decide, Nat.le_refl _⟩
  | succ rounds ih =>
      rw [skipWhitespace]
      split
      · exact ⟨by assumption, Nat.le_refl _⟩
      · rename_i hwhite
        have hlen := whitespaceLen_le p
        have hdrop : (p.drop (whitespaceLen p)).length = p.length - whitespaceLen p :=
          List.length_drop
        obtain ⟨hstop, hle⟩ := ih (p := p.drop (whitespaceLen p)) (by omega)
        exact ⟨hstop, by omega⟩

/-- A token is not empty, and stands where the scanner has skipped the whitespace. -/
theorem scanToken_shape {p p' : Text} {token : Token} (h : scanToken p = some (token, p'))
    (hparen : token.isParen = false) :
    0 < token.len ∧ token.len = wordLen token.data ∧ p' = token.data.drop token.len ∧
      p'.length < p.length := by
  obtain ⟨hstop, hle⟩ := skipWhitespace_stops (Nat.le_refl p.length)
  simp only [scanToken] at h
  split at h
  · cases h
  · rename_i hzero
    simp only [Option.some.injEq, Prod.mk.injEq] at h
    obtain ⟨rfl, rfl⟩ := h
    have hword : ¬ (isOpening (byteAt (skipWhitespace p.length p) 0) = true ∨
        isClosing (byteAt (skipWhitespace p.length p) 0) = true) := by
      intro hparen'
      simp only [Token.isParen, if_pos hparen', decide_true, Bool.true_and,
        Bool.or_eq_false_iff] at hparen
      rcases hparen' with hopen | hclose
      · rw [hparen.1] at hopen; cases hopen
      · rw [hparen.2] at hclose; cases hclose
    simp only [if_neg hword]
    cases htext : skipWhitespace p.length p with
    | nil => simp [htext, byteAt] at hzero
    | cons b rest =>
        rw [htext] at hstop hzero hword hle
        rw [byteAt_cons_zero] at hzero hword
        have hstep : wordLen (b :: rest) = wordLen rest + 1 :=
          wordLen_step fun h => h.elim hzero fun h => h.elim (fun h => h hstop) hword
        refine ⟨by omega, trivial, trivial, ?_⟩
        rw [List.length_drop, hstep]
        rw [List.length_cons] at hle ⊢
        omega

theorem Words.length_le {p q : Text} {ws : List Name} (h : Words p ws q) :
    ws.length + q.length ≤ p.length := by
  induction h with
  | nil => simp
  | cons hscan hparen _ ih =>
      obtain ⟨-, -, -, hlt⟩ := scanToken_shape hscan hparen
      rw [List.length_cons]
      omega

/-! ## Numerals -/

theorem isDigit_iff {b : UInt8} : isDigit b = true ↔ 0x30 ≤ b.toNat ∧ b.toNat ≤ 0x39 := by
  rw [isDigit, Bool.and_eq_true, decide_eq_true_eq, decide_eq_true_eq, UInt8.le_iff_toNat_le,
    UInt8.le_iff_toNat_le]
  rfl

/-- A digit or a sign belongs to a word. -/
theorem wordByte_numeral {b : UInt8} (h : isDigit b = true ∨ b = 0x2b ∨ b = 0x2d) (p : Text) :
    wordByte b p := by
  rw [isDigit_iff, ← UInt8.toNat_inj, ← UInt8.toNat_inj] at h
  simp only [UInt8.reduceToNat] at h
  rw [wordByte, whitespaceLen_cons, if_neg (by omega), if_neg (by omega), if_neg (by omega),
    if_neg (by omega), if_neg (by omega)]
  simp only [isOpening, isClosing, ← UInt8.toNat_inj, UInt8.reduceToNat, decide_eq_true_eq]
  omega

/-- No digit stands behind a word. -/
theorem wordLen_stops {p rest : Text} {b : UInt8} (h : p.drop (wordLen p) = b :: rest) :
    isDigit b = false := by
  induction p with
  | nil => cases h
  | cons c p ih =>
      by_cases hword : wordByte c p
      · rw [wordLen_step hword, List.drop_succ_cons] at h
        exact ih h
      · rw [wordLen, if_pos (not_not.mp hword), List.drop_zero] at h
        obtain ⟨rfl, rfl⟩ := List.cons.inj h
        by_contra hdigit
        exact hword (wordByte_numeral (.inl (by simpa using hdigit)) _)

/-- The digits of a number, most significant first -/
def digitsValue (ds : List UInt8) : Nat :=
  ds.foldl (fun value b => value * 10 + (b.toNat - 0x30)) 0

/-- A sign or none; is it a minus? -/
inductive Sign : List UInt8 → Bool → Prop
  | absent : Sign [] false
  | plus : Sign [0x2b] false
  | minus : Sign [0x2d] true

def signedValue (negative : Bool) (ds : List UInt8) : Int :=
  if negative then -(digitsValue ds : Int) else digitsValue ds

/-- A decimal number with an optional sign -/
def Numeral (name : Name) (z : Int) : Prop :=
  ∃ sign negative ds, Sign sign negative ∧ ds ≠ [] ∧ (∀ b ∈ ds, isDigit b = true) ∧
    name = sign ++ ds ∧ z = signedValue negative ds

theorem readDigits_eq (p : Text) (value count : Nat) :
    readDigits p (value, count) =
      ((p.takeWhile isDigit).foldl (fun value b => value * 10 + (b.toNat - 0x30)) value,
        count + (p.takeWhile isDigit).length) := by
  induction p generalizing value count with
  | nil => rfl
  | cons b rest ih =>
      rw [readDigits]
      split
      · rename_i hdigit
        rw [ih, List.takeWhile_cons_of_pos hdigit, List.foldl_cons, List.length_cons]
        congr 1
        omega
      · rename_i hdigit
        rw [List.takeWhile_cons_of_neg hdigit]
        rfl

/-- The digits at the beginning of a text belong to one word. -/
theorem wordLen_digits {ds : List UInt8} (h : ∀ b ∈ ds, isDigit b = true) (rest : Text) :
    wordLen (ds ++ rest) = ds.length + wordLen rest := by
  induction ds with
  | nil => simp
  | cons b ds ih =>
      obtain ⟨hb, hds⟩ := List.forall_mem_cons.mp h
      rw [List.cons_append, wordLen_step (wordByte_numeral (.inl hb) _), ih hds, List.length_cons]
      omega

/-- The end of `strtoll` -/
def clamped (value : Int) (len : Nat) : Number :=
  if value < -(2 ^ 63) then ⟨-(2 ^ 63), len, true⟩
  else if 2 ^ 63 - 1 < value then ⟨2 ^ 63 - 1, len, true⟩
  else ⟨value, len, false⟩

theorem clamped_iff {value z : Int} {len : Nat} :
    (clamped value len).range = false ∧ (clamped value len).value = z ↔
      value = z ∧ -(2 ^ 63) ≤ z ∧ z ≤ 2 ^ 63 - 1 := by
  rw [clamped]
  split
  · simp only [Bool.true_eq_false, false_and, false_iff]
    omega
  · split
    · simp only [Bool.true_eq_false, false_and, false_iff]
      omega
    · simp only [true_and]
      omega

theorem clamped_len (value : Int) (len : Nat) : (clamped value len).len = len := by
  rw [clamped]
  split
  · rfl
  · split <;> rfl

theorem strtoll_eq {sign : List UInt8} {q : Text} {magnitude count : Nat}
    (hsign : sign.length = if byteAt (sign ++ q) 0 = 0x2d ∨ byteAt (sign ++ q) 0 = 0x2b then 1 else 0)
    (h : readDigits q (0, 0) = (magnitude, count)) :
    strtoll (sign ++ q) = if count = 0 then ⟨0, 0, false⟩
      else clamped (if byteAt (sign ++ q) 0 = 0x2d then -(magnitude : Int) else magnitude)
        (sign.length + count) := by
  have hread : readDigits ((sign ++ q).drop sign.length) (0, 0) = (magnitude, count) := by
    rw [List.drop_left, h]
  rw [hsign] at hread ⊢
  simp only [strtoll, hread]
  rfl

/-- `strtoll` on a sign, digits, and something that does not go on with a digit -/
theorem strtoll_digits {sign ds : List UInt8} {rest : Text} {negative : Bool} (hsign : Sign sign negative)
    (hds : ds ≠ []) (hdigits : ∀ b ∈ ds, isDigit b = true)
    (hstop : ∀ b ∈ rest.head?, isDigit b = false) :
    strtoll (sign ++ (ds ++ rest)) = clamped (signedValue negative ds) (sign.length + ds.length) := by
  have htake : (ds ++ rest).takeWhile isDigit = ds := by
    rw [List.takeWhile_append_of_pos hdigits]
    cases rest with
    | nil => simp
    | cons b rest => rw [List.takeWhile_cons_of_neg (by simp [hstop b rfl]), List.append_nil]
  have hread : readDigits (ds ++ rest) (0, 0) = (digitsValue ds, ds.length) := by
    rw [readDigits_eq, htake, Nat.zero_add]
    rfl
  have hcount : ds.length ≠ 0 := by simpa using hds
  cases hsign with
  | absent =>
      obtain ⟨b, ds, rfl⟩ := List.exists_cons_of_ne_nil hds
      have hb := isDigit_iff.mp (hdigits b List.mem_cons_self)
      have hplus : b ≠ 0x2b := by
        rintro rfl
        exact absurd hb (by decide)
      have hminus : b ≠ 0x2d := by
        rintro rfl
        exact absurd hb (by decide)
      have hbyte : byteAt ([] ++ (b :: ds ++ rest)) 0 = b := rfl
      rw [strtoll_eq (by rw [hbyte, if_neg (by simp [hplus, hminus])]; rfl) hread, if_neg hcount,
        hbyte, if_neg hminus]
      rfl
  | plus | minus =>
      rw [strtoll_eq rfl hread, if_neg hcount]
      rfl

/-- Every text is a sign, digits, and something that does not go on with a digit. -/
theorem exists_digits (p : Text) : ∃ sign negative ds rest, p = sign ++ (ds ++ rest) ∧
    Sign sign negative ∧ (∀ b ∈ ds, isDigit b = true) ∧ (∀ b ∈ rest.head?, isDigit b = false) ∧
    (ds = [] → (strtoll p).len = 0) := by
  have hsplit : ∃ sign negative q, p = sign ++ q ∧ Sign sign negative ∧
      sign.length = if byteAt p 0 = 0x2d ∨ byteAt p 0 = 0x2b then 1 else 0 := by
    cases p with
    | nil => exact ⟨[], false, [], rfl, .absent, rfl⟩
    | cons b q =>
        by_cases hminus : b = 0x2d
        · exact ⟨[0x2d], true, q, by rw [hminus]; rfl, .minus, by rw [hminus]; rfl⟩
        · by_cases hplus : b = 0x2b
          · exact ⟨[0x2b], false, q, by rw [hplus]; rfl, .plus, by rw [hplus]; rfl⟩
          · refine ⟨[], false, b :: q, rfl, .absent, ?_⟩
            rw [byteAt_cons_zero, if_neg (by simp [hminus, hplus])]
            rfl
  obtain ⟨sign, negative, q, rfl, hsign, hlen⟩ := hsplit
  refine ⟨sign, negative, q.takeWhile isDigit, q.dropWhile isDigit, ?_, hsign, ?_, ?_, fun hnil => ?_⟩
  · rw [List.takeWhile_append_dropWhile]
  · exact fun b hb => List.mem_takeWhile_imp hb
  · intro b hb
    have hstop := List.head?_dropWhile_not isDigit q
    rw [Option.mem_def.mp hb] at hstop
    exact hstop
  · have hread : readDigits q (0, 0) = (0, 0) := by
      rw [readDigits_eq, hnil]
      rfl
    rw [strtoll_eq hlen hread]
    rfl

theorem Sign.wordLen {sign : List UInt8} {negative : Bool} (h : Sign sign negative) (q : Text) :
    wordLen (sign ++ q) = sign.length + wordLen q := by
  cases h with
  | absent => simp
  | plus => rw [List.singleton_append, wordLen_step (wordByte_numeral (by decide) q), Nat.add_comm]; rfl
  | minus => rw [List.singleton_append, wordLen_step (wordByte_numeral (by decide) q), Nat.add_comm]; rfl

/-- The whole token is a number for `strtoll`, if and only if it is a numeral that `long long` holds. -/
theorem strtoll_iff {p p' : Text} {token : Token} {z : Int} (h : scanToken p = some (token, p'))
    (hparen : token.isParen = false) :
    ((strtoll token.data).range = false ∧ (strtoll token.data).len = token.len) ∧
      (strtoll token.data).value = z ↔
    Numeral token.bytes z ∧ -(2 ^ 63) ≤ z ∧ z ≤ 2 ^ 63 - 1 := by
  obtain ⟨hpos, hlen, -, -⟩ := scanToken_shape h hparen
  obtain ⟨sign, negative, ds, rest, htext, hsign, hdigits, hstop, hempty⟩ := exists_digits token.data
  have hword : token.len = sign.length + (ds.length + wordLen rest) := by
    rw [hlen, htext, hsign.wordLen, wordLen_digits hdigits]
  constructor
  · rintro ⟨⟨hrange, hall⟩, hvalue⟩
    have hds : ds ≠ [] := fun hnil => by
      have := hempty hnil
      omega
    have heq := strtoll_digits hsign hds hdigits hstop
    rw [← htext] at heq
    rw [heq, clamped_len] at hall
    rw [heq] at hrange hvalue
    obtain ⟨hz, hlow, hhigh⟩ := clamped_iff.mp ⟨hrange, hvalue⟩
    refine ⟨⟨sign, negative, ds, hsign, hds, hdigits, ?_, hz.symm⟩, hlow, hhigh⟩
    rw [Token.bytes, htext, ← hall, ← List.append_assoc, ← List.length_append, List.take_left]
  · rintro ⟨⟨sign', negative', ds', hsign', hds', hdigits', hbytes, hz⟩, hlow, hhigh⟩
    have hsplit : token.data = sign' ++ (ds' ++ token.data.drop token.len) := by
      rw [← List.append_assoc, ← hbytes, Token.bytes, List.take_append_drop]
    have hstop' : ∀ b ∈ (token.data.drop token.len).head?, isDigit b = false := by
      intro b hb
      obtain ⟨rest', hrest⟩ := List.head?_eq_some_iff.mp (Option.mem_def.mp hb)
      rw [hlen] at hrest
      exact wordLen_stops hrest
    have heq := strtoll_digits hsign' hds' hdigits' hstop'
    rw [← hsplit] at heq
    have htoken : token.len = sign'.length + ds'.length := by
      have hbytes' := congrArg List.length hbytes
      rw [Token.bytes, List.length_take, List.length_append] at hbytes'
      have hle := wordLen_le token.data
      omega
    rw [heq, clamped_len, and_right_comm]
    exact ⟨clamped_iff.mpr ⟨hz.symm, hlow, hhigh⟩, htoken.symm⟩

/-! ## Names and numbers -/

section Parsers

variable {fe fe' : Frontend M} {token : Token} {error : FrontendError}

theorem nextName_iff : nextName error fe = (some token, fe') ↔
    ∃ p', scanToken fe.cursor = some (token, p') ∧ token.isParen = false ∧
      fe' = { fe with cursor := p' } := by
  rw [nextName, nextToken]
  cases hscan : scanToken fe.cursor with
  | none => simp [FrontStep.failWith]
  | some x =>
      obtain ⟨token', p'⟩ := x
      by_cases hparen : token'.isParen = true
      · simp only [if_pos hparen, FrontStep.failWith, Prod.mk.injEq, reduceCtorEq, false_and,
          Option.some.injEq, false_iff]
        rintro ⟨_, ⟨rfl, -⟩, hword, -⟩
        rw [hparen] at hword
        cases hword
      · simp only [if_neg hparen, Prod.mk.injEq, Option.some.injEq]
        constructor
        · rintro ⟨rfl, rfl⟩
          exact ⟨p', ⟨rfl, rfl⟩, by simpa using hparen, rfl⟩
        · rintro ⟨_, ⟨rfl, rfl⟩, -, rfl⟩
          exact ⟨rfl, rfl⟩

theorem nextName_func (error : FrontendError) (fe : Frontend M) :
    (nextName error fe).2.func = fe.func := by
  rw [nextName, nextToken]
  cases scanToken fe.cursor with
  | none => rfl
  | some x =>
      dsimp only
      split <;> rfl

theorem parseNumber_eq {fe₁ : Frontend M} (h : nextName .badNumber fe = (some token, fe₁)) :
    parseNumber fe =
      if (strtoll token.data).range = true ∨ (strtoll token.data).len ≠ token.len
      then FrontStep.failAt .badNumber token.data fe₁ else (some (strtoll token.data).value, fe₁) := by
  rw [parseNumber, FrontStep.bind_some h]
  by_cases hbad : (strtoll token.data).range = true ∨ (strtoll token.data).len ≠ token.len
  · exact (congrFun (if_pos hbad) fe₁).trans (if_pos hbad).symm
  · exact (congrFun (if_neg hbad) fe₁).trans (if_neg hbad).symm

theorem parseNumber_iff {z : Int} : parseNumber fe = (some z, fe') ↔
    ∃ token p', scanToken fe.cursor = some (token, p') ∧ token.isParen = false ∧
      (Numeral token.bytes z ∧ -(2 ^ 63) ≤ z ∧ z ≤ 2 ^ 63 - 1) ∧ fe' = { fe with cursor := p' } := by
  rcases hname : nextName .badNumber fe with ⟨_ | token, fe₁⟩
  · rw [parseNumber, FrontStep.bind_none hname]
    simp only [Prod.mk.injEq, reduceCtorEq, false_and, false_iff]
    rintro ⟨token, p', hscan, hparen, -⟩
    rw [nextName_iff.mpr ⟨p', hscan, hparen, rfl⟩] at hname
    cases hname
  · rw [parseNumber_eq hname]
    obtain ⟨p', hscan, hparen, rfl⟩ := nextName_iff.mp hname
    have hiff := strtoll_iff (z := z) hscan hparen
    by_cases hbad : (strtoll token.data).range = true ∨ (strtoll token.data).len ≠ token.len
    · simp only [if_pos hbad, FrontStep.failAt, Prod.mk.injEq, reduceCtorEq, false_and, false_iff]
      rintro ⟨token', p'', hscan', -, hnumeral, -⟩
      cases hscan.symm.trans hscan'
      obtain ⟨⟨hrange, hlen⟩, -⟩ := hiff.mpr hnumeral
      rw [hrange] at hbad
      simp [hlen] at hbad
    · have hgood : (strtoll token.data).range = false ∧ (strtoll token.data).len = token.len := by
        simpa using hbad
      simp only [if_neg hbad, Prod.mk.injEq, Option.some.injEq]
      constructor
      · rintro ⟨hz, rfl⟩
        exact ⟨token, p', hscan, hparen, hiff.mp ⟨hgood, hz⟩, rfl⟩
      · rintro ⟨token', p'', hscan', -, hnumeral, rfl⟩
        cases hscan.symm.trans hscan'
        exact ⟨(hiff.mpr hnumeral).2, rfl⟩

theorem parseNumber_func : (parseNumber fe).2.func = fe.func := by
  have hfunc := nextName_func .badNumber fe
  rcases hname : nextName .badNumber fe with ⟨_ | token, fe₁⟩
  · rw [hname] at hfunc
    rw [parseNumber, FrontStep.bind_none hname]
    exact hfunc
  · rw [hname] at hfunc
    rw [parseNumber_eq hname]
    split <;> exact hfunc

end Parsers

end TreeVM
