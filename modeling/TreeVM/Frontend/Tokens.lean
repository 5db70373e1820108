import TreeVM.Frontend.Text
import TreeVM.Logic.Pieces

/-!
# Tokens of UTF-8 text

`next_token` reads bytes.  On UTF-8 it splits the code points at Unicode white space.

* `isWhiteSpace`, `splitTokens`: the property `White_Space`, and the tokens of decoded text;
* `encoded`: the bytes of a list of code points;
* `scanToken_utf8`: the scanner takes the first token off, and stops behind a code point;
* `nextTokenAt`, `TokenRun`: `next_token` over memory that ends at the zero byte, and its calls one
  after the other;
* `tokenRun_iff`: the calls yield the tokens of the decoded text, and read nothing else.
-/

namespace TreeVM

/-! ## Code points -/

/-- The code points with the Unicode property `White_Space` -/
def isWhiteSpace (c : Char) : Bool :=
  let v := c.toNat
  (0x09 ≤ v && v ≤ 0x0d) || v == 0x20 || v == 0x85 || v == 0xa0 || v == 0x1680 ||
    (0x2000 ≤ v && v ≤ 0x200a) || v == 0x2028 || v == 0x2029 || v == 0x202f || v == 0x205f ||
    v == 0x3000

def isParenthesis (c : Char) : Bool :=
  c == '(' || c == ')'

abbrev inWord : Char → Bool :=
  ordinary isWhiteSpace isParenthesis

def splitTokens (chars : List Char) : List (List Char) :=
  pieces isWhiteSpace isParenthesis chars

def encoded (chars : List Char) : Text :=
  chars.flatMap String.utf8EncodeChar

@[simp] theorem encoded_nil : encoded [] = [] := rfl

@[simp] theorem encoded_cons (c : Char) (chars : List Char) :
    encoded (c :: chars) = String.utf8EncodeChar c ++ encoded chars := rfl

@[simp] theorem encoded_append (chars more : List Char) :
    encoded (chars ++ more) = encoded chars ++ encoded more :=
  List.flatMap_append

theorem encoded_flatten (parts : List (List Char)) : encoded parts.flatten = (parts.map encoded).flatten := by
  induction parts with
  | nil => rfl
  | cons part parts ih => rw [List.flatten_cons, encoded_append, ih, List.map_cons, List.flatten_cons]

/-- Decoding inverts `encoded`. -/
theorem eq_encoded_of_decode {source : Text} {chars : List Char}
    (h : source.toByteArray.utf8Decode? = some chars.toArray) : source = encoded chars := by
  have hencode : chars.utf8Encode = source.toByteArray := by
    have hget := ByteArray.utf8Encode_get_utf8Decode? (b := source.toByteArray) (h := by rw [h]; rfl)
    simpa [h] using hget
  have hdata := congrArg (fun b => b.data.toList) hencode
  simpa [encoded, List.utf8Encode] using hdata.symm

theorem decode_encoded (chars : List Char) :
    (encoded chars).toByteArray.utf8Decode? = some chars.toArray :=
  List.utf8Decode?_utf8Encode

/-! ## The bytes of a code point -/

/-- A byte inside a code point -/
def Continuation (b : UInt8) : Prop :=
  0x80 ≤ b.toNat ∧ b.toNat ≤ 0xbf

theorem toNat_le_max (c : Char) : c.toNat ≤ 0x10ffff := by
  have h := c.valid
  simp only [UInt32.isValidChar, Nat.isValidChar] at h
  have hval : c.toNat = c.val.toNat := rfl
  omega

/-- A first byte that tells about the parentheses and zero, and continuation bytes -/
theorem utf8EncodeChar_cons (c : Char) : ∃ lead tail, String.utf8EncodeChar c = lead :: tail ∧
    (∀ b ∈ tail, Continuation b) ∧ (c.toNat < 0x80 → lead.toNat = c.toNat) ∧
    (0x80 ≤ c.toNat → 0xc0 ≤ lead.toNat) := by
  have hmax := toNat_le_max c
  have hval : c.toNat = c.val.toNat := rfl
  rw [hval] at hmax ⊢
  simp only [String.utf8EncodeChar]
  split
  · exact ⟨_, _, rfl, nofun, fun _ => by simp; omega, fun _ => by omega⟩
  · split
    · refine ⟨_, _, rfl, ?_, fun _ => by omega, fun _ => by simp; omega⟩
      simp [Continuation]
      omega
    · split
      · refine ⟨_, _, rfl, ?_, fun _ => by omega, fun _ => by simp; omega⟩
        simp [Continuation]
        omega
      · refine ⟨_, _, rfl, ?_, fun _ => by omega, fun _ => by simp; omega⟩
        simp [Continuation]
        omega

theorem byteAt_cons_zero (b : UInt8) (p : Text) : byteAt (b :: p) 0 = b := rfl

theorem byteAt_cons_succ (b : UInt8) (p : Text) (k : Nat) : byteAt (b :: p) (k + 1) = byteAt p k :=
  rfl

/-- White space by its first byte -/
theorem whitespaceLen_cons (b : UInt8) (p : Text) :
    whitespaceLen (b :: p) =
      if b.toNat = 0x20 ∨ (0x09 ≤ b.toNat ∧ b.toNat ≤ 0x0d) then 1
      else if b.toNat = 0xc2 then
        if (byteAt p 0).toNat = 0x85 ∨ (byteAt p 0).toNat = 0xa0 then 2 else 0
      else if b.toNat = 0xe1 then
        if (byteAt p 0).toNat = 0x9a ∧ (byteAt p 1).toNat = 0x80 then 3 else 0
      else if b.toNat = 0xe2 then
        if ((byteAt p 0).toNat = 0x80 ∧ ((0x80 ≤ (byteAt p 1).toNat ∧ (byteAt p 1).toNat ≤ 0x8a) ∨
            (byteAt p 1).toNat = 0xa8 ∨ (byteAt p 1).toNat = 0xa9 ∨ (byteAt p 1).toNat = 0xaf)) ∨
          ((byteAt p 0).toNat = 0x81 ∧ (byteAt p 1).toNat = 0x9f) then 3 else 0
      else if b.toNat = 0xe3 then
        if (byteAt p 0).toNat = 0x80 ∧ (byteAt p 1).toNat = 0x80 then 3 else 0
      else 0 := by
  simp only [whitespaceLen, byteAt_cons_zero, byteAt_cons_succ, ← UInt8.toNat_inj,
    UInt8.le_iff_toNat_le, UInt8.reduceToNat]
  generalize b.toNat = x, (byteAt p 0).toNat = y, (byteAt p 1).toNat = z
  by_cases hascii : x = 0x20 ∨ (0x09 ≤ x ∧ x ≤ 0x0d)
  · rw [if_pos hascii, if_pos hascii]
  rw [if_neg hascii, if_neg hascii]
  by_cases hc2 : x = 0xc2
  · simp [hc2]
  by_cases he1 : x = 0xe1
  · simp [he1]
  by_cases he2 : x = 0xe2
  · by_cases hy : y = 0x80 <;> simp [he2, hy]
  by_cases he3 : x = 0xe3
  · simp [he3]
  simp [hc2, he1, he2, he3]

/-- No white space starts inside a code point. -/
theorem whitespaceLen_continuation {b : UInt8} (h : Continuation b) (p : Text) :
    whitespaceLen (b :: p) = 0 := by
  obtain ⟨hlow, hhigh⟩ := h
  rw [whitespaceLen_cons, if_neg (by omega), if_neg (by omega), if_neg (by omega),
    if_neg (by omega), if_neg (by omega)]

/-- The bytes of a code point tell whether it is white space; what follows does not matter. -/
theorem whitespaceLen_char (c : Char) (p : Text) :
    whitespaceLen (String.utf8EncodeChar c ++ p) =
      if isWhiteSpace c then (String.utf8EncodeChar c).length else 0 := by
  have hmax := toNat_le_max c
  have hval : c.toNat = c.val.toNat := rfl
  simp only [isWhiteSpace, hval, Bool.or_eq_true, Bool.and_eq_true, decide_eq_true_eq, beq_iff_eq]
  rw [hval] at hmax
  simp only [String.utf8EncodeChar]
  generalize c.val.toNat = v at hmax
  by_cases h1 : v ≤ 0x7f
  · have hb : (UInt8.ofNat v).toNat = v := by simp; omega
    rw [if_pos h1, List.cons_append, whitespaceLen_cons, hb, if_neg (show ¬ v = 0xc2 by omega),
      if_neg (show ¬ v = 0xe1 by omega), if_neg (show ¬ v = 0xe2 by omega),
      if_neg (show ¬ v = 0xe3 by omega)]
    exact if_congr (by omega) rfl rfl
  rw [if_neg h1]
  by_cases h2 : v ≤ 0x7ff
  · have hb : (UInt8.ofNat (v / 64 % 0x20 + 0xc0)).toNat = v / 64 + 0xc0 := by simp; omega
    have hb1 : (UInt8.ofNat (v % 0x40 + 0x80)).toNat = v % 64 + 0x80 := by simp; omega
    rw [if_pos h2, List.cons_append, List.cons_append, whitespaceLen_cons, hb, byteAt_cons_zero,
      hb1, if_neg (by omega)]
    by_cases hc2 : v / 64 + 0xc0 = 0xc2
    · rw [if_pos hc2]
      exact if_congr (by omega) rfl rfl
    · rw [if_neg hc2, if_neg (by omega), if_neg (by omega), if_neg (by omega), if_neg (by omega)]
  rw [if_neg h2]
  by_cases h3 : v ≤ 0xffff
  · have hb : (UInt8.ofNat (v / 4096 % 0x10 + 0xe0)).toNat = v / 4096 + 0xe0 := by simp; omega
    have hb1 : (UInt8.ofNat (v / 64 % 0x40 + 0x80)).toNat = v / 64 % 64 + 0x80 := by simp; omega
    have hb2 : (UInt8.ofNat (v % 0x40 + 0x80)).toNat = v % 64 + 0x80 := by simp; omega
    rw [if_pos h3, List.cons_append, List.cons_append, List.cons_append, whitespaceLen_cons, hb,
      byteAt_cons_zero, byteAt_cons_succ, byteAt_cons_zero, hb1, hb2, if_neg (by omega),
      if_neg (by omega)]
    by_cases he1 : v / 4096 + 0xe0 = 0xe1
    · rw [if_pos he1]
      exact if_congr (by omega) rfl rfl
    rw [if_neg he1]
    by_cases he2 : v / 4096 + 0xe0 = 0xe2
    · rw [if_pos he2]
      exact if_congr (by omega) rfl rfl
    rw [if_neg he2]
    by_cases he3 : v / 4096 + 0xe0 = 0xe3
    · rw [if_pos he3]
      exact if_congr (by omega) rfl rfl
    · rw [if_neg he3, if_neg (by omega)]
  · have hb : (UInt8.ofNat (v / 262144 % 0x08 + 0xf0)).toNat = v / 262144 + 0xf0 := by simp; omega
    rw [if_neg h3, List.cons_append, whitespaceLen_cons, hb, if_neg (by omega), if_neg (by omega),
      if_neg (by omega), if_neg (by omega), if_neg (by omega), if_neg (by omega)]

/-! ## The scanner -/

theorem skipWhitespace_utf8 {chars : List Char} {rounds : Nat} (h : chars.length ≤ rounds) :
    skipWhitespace rounds (encoded chars) = encoded (chars.dropWhile isWhiteSpace) := by
  induction chars generalizing rounds with
  | nil => cases rounds <;> simp [skipWhitespace, whitespaceLen, byteAt]
  | cons c chars ih =>
      obtain _ | rounds := rounds
      · simp at h
      have hlen := whitespaceLen_char c (encoded chars)
      rw [← encoded_cons] at hlen
      rw [skipWhitespace, hlen]
      cases hwhite : isWhiteSpace c with
      | false => simp [hwhite]
      | true =>
          have hne : (String.utf8EncodeChar c).length ≠ 0 :=
            mt List.length_eq_zero_iff.mp String.utf8EncodeChar_ne_nil
          rw [if_pos rfl, if_neg hne, List.dropWhile_cons_of_pos hwhite, encoded_cons,
            List.drop_left]
          exact ih (by simpa using h)

theorem length_le_encoded (chars : List Char) : chars.length ≤ (encoded chars).length := by
  induction chars with
  | nil => exact Nat.le_refl _
  | cons c chars ih =>
      have hpos : 0 < (String.utf8EncodeChar c).length := by
        rw [List.length_pos_iff]
        exact String.utf8EncodeChar_ne_nil
      rw [encoded_cons, List.length_append, List.length_cons]
      omega

/-- A byte of a word, as the loop of `next_token` tests it -/
def wordByte (b : UInt8) (p : Text) : Prop :=
  ¬ (b = 0 ∨ whitespaceLen (b :: p) ≠ 0 ∨ isOpening b = true ∨ isClosing b = true)

theorem wordLen_step {b : UInt8} {p : Text} (h : wordByte b p) :
    wordLen (b :: p) = wordLen p + 1 := by
  rw [wordLen, if_neg h]

theorem wordByte_continuation {b : UInt8} (h : Continuation b) (p : Text) : wordByte b p := by
  have hwhite := whitespaceLen_continuation h p
  obtain ⟨hlow, hhigh⟩ := h
  simp only [wordByte, isOpening, isClosing, ← UInt8.toNat_inj, UInt8.reduceToNat,
    decide_eq_true_eq]
  omega

theorem wordLen_continuations {tail : List UInt8} (h : ∀ b ∈ tail, Continuation b) (p : Text) :
    wordLen (tail ++ p) = tail.length + wordLen p := by
  induction tail with
  | nil => simp
  | cons b tail ih =>
      obtain ⟨hb, htail⟩ := List.forall_mem_cons.mp h
      rw [List.cons_append, wordLen_step (wordByte_continuation hb _), ih htail, List.length_cons]
      omega

theorem toNat_injective {c d : Char} (h : c.toNat = d.toNat) : c = d := by
  exact Char.ext (UInt32.toNat_inj.mp h)

/-- What the first byte of a code point says about it -/
theorem utf8EncodeChar_lead (c : Char) : ∃ lead tail, String.utf8EncodeChar c = lead :: tail ∧
    (∀ b ∈ tail, Continuation b) ∧ (lead = 0 ↔ c = '\x00') ∧
    ((isOpening lead || isClosing lead) = isParenthesis c) := by
  obtain ⟨lead, tail, hbytes, htail, hascii, hhigh⟩ := utf8EncodeChar_cons c
  have hchar : ∀ d : Char, d.toNat < 0x80 → (lead.toNat = d.toNat ↔ c = d) := by
    intro d hd
    constructor
    · intro h
      refine toNat_injective ?_
      by_cases hc : c.toNat < 0x80
      · rw [← hascii hc, h]
      · have := hhigh (by omega)
        omega
    · rintro rfl
      exact hascii hd
  refine ⟨lead, tail, hbytes, htail, ?_, ?_⟩
  · rw [← UInt8.toNat_inj]
    exact hchar '\x00' (by decide)
  · have hopen := hchar '(' (by decide)
    have hclose := hchar ')' (by decide)
    rw [Bool.eq_iff_iff]
    simp only [isOpening, isClosing, isParenthesis, Bool.or_eq_true, decide_eq_true_eq, beq_iff_eq,
      ← UInt8.toNat_inj]
    exact or_congr hopen hclose

/-- The first byte of a code point goes on with a word as the code point does. -/
theorem wordByte_lead {c : Char} {lead : UInt8} {tail : List UInt8}
    (hbytes : String.utf8EncodeChar c = lead :: tail) (p : Text) :
    wordByte lead (tail ++ p) ↔ inWord c = true ∧ c ≠ '\x00' := by
  obtain ⟨lead', tail', hbytes', -, hzero, hparen⟩ := utf8EncodeChar_lead c
  cases hbytes.symm.trans hbytes'
  have hwhite := whitespaceLen_char c p
  rw [hbytes, List.cons_append] at hwhite
  have hlen : (whitespaceLen (lead :: (tail ++ p)) = 0) ↔ isWhiteSpace c = false := by
    rw [hwhite]
    cases isWhiteSpace c <;> simp
  simp only [wordByte, inWord, ordinary, Bool.and_eq_true, Bool.not_eq_true', not_or, ne_eq,
    not_not, hlen, hzero, ← hparen, Bool.or_eq_false_iff, Bool.not_eq_true]
  exact ⟨fun hword => ⟨hword.2, hword.1⟩, fun hword => ⟨hword.2, hword.1⟩⟩

theorem wordLen_run {word : List Char} (hword : ∀ c ∈ word, inWord c = true)
    (hzero : '\x00' ∉ word) (p : Text) :
    wordLen (encoded word ++ p) = (encoded word).length + wordLen p := by
  induction word with
  | nil => simp
  | cons c word ih =>
      obtain ⟨hc, hrest⟩ := List.forall_mem_cons.mp hword
      rw [List.mem_cons, not_or] at hzero
      obtain ⟨hne, hzero⟩ := hzero
      obtain ⟨lead, tail, hbytes, htail, -⟩ := utf8EncodeChar_cons c
      have hlead := (wordByte_lead hbytes (encoded word ++ p)).mpr ⟨hc, Ne.symm hne⟩
      rw [encoded_cons, hbytes, List.cons_append, List.cons_append, List.append_assoc,
        wordLen_step hlead, wordLen_continuations htail, ih hrest hzero, List.length_cons,
        List.length_append]
      omega

/-- The code points before a zero -/
def visible (chars : List Char) : List Char :=
  chars.takeWhile (· != '\x00')

theorem visible_cons {c : Char} (h : c ≠ '\x00') (chars : List Char) :
    visible (c :: chars) = c :: visible chars :=
  List.takeWhile_cons_of_pos (by simpa using h)

theorem visible_append {xs : List Char} (h : '\x00' ∉ xs) (ys : List Char) :
    visible (xs ++ ys) = xs ++ visible ys := by
  induction xs with
  | nil => rfl
  | cons c xs ih =>
      rw [List.mem_cons, not_or] at h
      obtain ⟨hne, hxs⟩ := h
      rw [List.cons_append, visible_cons (Ne.symm hne), ih hxs, List.cons_append]

theorem visible_eq_self {chars : List Char} (h : '\x00' ∉ chars) : visible chars = chars := by
  rw [← List.append_nil chars, visible_append h]
  rfl

theorem zero_notMem_visible (chars : List Char) : '\x00' ∉ visible chars := by
  intro h
  simpa using List.mem_takeWhile_imp h

/-- Behind the visible code points, a text ends or has a zero byte. -/
theorem visible_split (chars : List Char) : ∃ more, chars = visible chars ++ more ∧
    visible more = [] ∧ byteAt (encoded more) 0 = 0 ∧ more.dropWhile isWhiteSpace = more := by
  refine ⟨chars.dropWhile (· != '\x00'), List.takeWhile_append_dropWhile.symm, ?_⟩
  have hhead := List.head?_dropWhile_not (· != '\x00') chars
  cases hmore : chars.dropWhile (· != '\x00') with
  | nil => exact ⟨rfl, rfl, rfl⟩
  | cons c more =>
      rw [hmore] at hhead
      obtain rfl : c = '\x00' := by simpa using hhead
      exact ⟨rfl, rfl, rfl⟩

/-- A word ends where the visible text does, or before a code point that is not of a word. -/
theorem wordLen_stop {chars : List Char} (h : ∀ c ∈ (visible chars).head?, inWord c = false) :
    wordLen (encoded chars) = 0 := by
  cases chars with
  | nil => rfl
  | cons c chars =>
      obtain ⟨lead, tail, hbytes, -⟩ := utf8EncodeChar_cons c
      have hlead : ¬ wordByte lead (tail ++ encoded chars) := by
        rw [wordByte_lead hbytes]
        rintro ⟨hc, hne⟩
        rw [visible_cons hne] at h
        exact absurd (hc.symm.trans (h c rfl)) (by simp)
      rw [encoded_cons, hbytes, List.cons_append, wordLen, if_pos (not_not.mp hlead)]

/-- The scanner cuts the text behind the bytes of `word`. -/
theorem scanToken_word {p : Text} (word after : List Char)
    (hskip : skipWhitespace p.length p = encoded (word ++ after))
    (hbyte : byteAt (encoded (word ++ after)) 0 ≠ 0)
    (hlen : (if isOpening (byteAt (encoded (word ++ after)) 0) ∨
      isClosing (byteAt (encoded (word ++ after)) 0) then 1
      else wordLen (encoded (word ++ after))) = (encoded word).length) :
    scanToken p = some (⟨encoded (word ++ after), (encoded word).length⟩, encoded after) := by
  simp only [scanToken, hskip, if_neg hbyte, hlen]
  rw [encoded_append, List.drop_left]

/-- The scanner takes the first token off, and the cursor stands between two code points. -/
theorem scanToken_utf8 (chars : List Char) :
    ((∀ c ∈ visible chars, isWhiteSpace c = true) ∧ scanToken (encoded chars) = none) ∨
    ∃ white piece rest, chars = white ++ (piece ++ rest) ∧
      visible chars = white ++ (piece ++ visible rest) ∧
      (∀ c ∈ white, isWhiteSpace c = true) ∧
      FirstPiece isWhiteSpace isParenthesis piece (visible rest) ∧
      scanToken (encoded chars) = some (⟨encoded (piece ++ rest), (encoded piece).length⟩, encoded rest) := by
  have hskip := skipWhitespace_utf8 (length_le_encoded chars)
  have hzero := zero_notMem_visible chars
  obtain ⟨more, hchars, hmore, hend, hstop⟩ := visible_split chars
  obtain hblank | ⟨white, piece, rest, hvisible, hwhite, hpiece⟩ :=
    blank_or_firstPiece isWhiteSpace isParenthesis (visible chars)
  · refine .inl ⟨hblank, ?_⟩
    have hrest : chars.dropWhile isWhiteSpace = more := by
      rw [hchars, List.dropWhile_append_of_pos hblank, hstop]
    rw [hrest] at hskip
    simp only [scanToken, hskip, hend, if_true]
  · rw [hvisible, List.mem_append, List.mem_append, not_or, not_or] at hzero
    obtain ⟨-, hzero, hzeros⟩ := hzero
    have hrest : visible (rest ++ more) = rest := by
      rw [visible_append hzeros, hmore, List.append_nil]
    have hcut : chars = white ++ (piece ++ (rest ++ more)) := by
      rw [hchars, hvisible, List.append_assoc, List.append_assoc]
    -- the scanner stops at the first code point of the piece
    obtain ⟨c, tail, rfl⟩ := List.exists_cons_of_ne_nil hpiece.ne_nil
    have hc : isWhiteSpace c = false := hpiece.not_blank c List.mem_cons_self
    have hskip : skipWhitespace (encoded chars).length (encoded chars) =
        encoded ((c :: tail) ++ (rest ++ more)) := by
      rw [hskip, hcut, List.dropWhile_append_of_pos hwhite, List.cons_append,
        List.dropWhile_cons_of_neg (by simp [hc])]
    obtain ⟨lead, bytes, hbytes, -, hnul, hparen⟩ := utf8EncodeChar_lead c
    have hbyte : byteAt (encoded ((c :: tail) ++ (rest ++ more))) 0 = lead := by
      rw [List.cons_append, encoded_cons, hbytes]
      rfl
    have hlead : lead ≠ 0 := fun h => hzero (by simp [hnul.mp h])
    refine .inr ⟨white, c :: tail, rest ++ more, hcut, by rw [hrest, hvisible], hwhite,
      by rwa [hrest], scanToken_word _ _ hskip (by rwa [hbyte]) ?_⟩
    rw [hbyte]
    obtain ⟨d, hd, -, halone⟩ | ⟨-, hrun, hrunStop⟩ := hpiece
    · -- a parenthesis is one byte
      cases hd
      have hone : (encoded [c]).length = 1 := by
        simp only [isParenthesis, Bool.or_eq_true, beq_iff_eq] at halone
        obtain rfl | rfl := halone <;> rfl
      rw [if_pos (by rw [← Bool.or_eq_true, hparen, halone]), hone]
    · have hword := hrun c List.mem_cons_self
      simp only [ordinary, Bool.and_eq_true, Bool.not_eq_true'] at hword
      rw [if_neg (by rw [← Bool.or_eq_true, hparen, hword.2]; exact Bool.false_ne_true),
        encoded_append, wordLen_run hrun hzero, wordLen_stop (by rwa [hrest]), Nat.add_zero]

/-- The tokens that `rounds` calls of the scanner find -/
def tokensIn : Nat → Text → List Text
  | 0, _ => []
  | rounds + 1, p =>
      match scanToken p with
      | none => []
      | some (t, rest) => t.bytes :: tokensIn rounds rest

/-- The tokens of a text; a byte is enough for each of them. -/
def tokensOf (p : Text) : List Text :=
  tokensIn p.length p

theorem bytes_utf8 (piece rest : List Char) :
    Token.bytes ⟨encoded (piece ++ rest), (encoded piece).length⟩ = encoded piece := by
  rw [Token.bytes, encoded_append, List.take_left]

theorem splitTokens_first {white piece rest : List Char} (hwhite : ∀ c ∈ white, isWhiteSpace c = true)
    (hpiece : FirstPiece isWhiteSpace isParenthesis piece rest) :
    splitTokens (white ++ (piece ++ rest)) = piece :: splitTokens rest := by
  rw [splitTokens, pieces_blanks hwhite, hpiece.pieces]
  rfl

theorem tokensIn_utf8 {chars : List Char} {rounds : Nat} (hrounds : chars.length ≤ rounds) :
    tokensIn rounds (encoded chars) = (splitTokens (visible chars)).map encoded := by
  induction rounds generalizing chars with
  | zero =>
      obtain rfl : chars = [] := List.length_eq_zero_iff.mp (Nat.le_zero.mp hrounds)
      rfl
  | succ rounds ih =>
      obtain ⟨hblank, hscan⟩ | ⟨white, piece, rest, hchars, hvisible, hwhite, hpiece, hscan⟩ :=
        scanToken_utf8 chars
      · simp only [tokensIn, hscan, splitTokens, pieces_eq_nil hblank, List.map_nil]
      · have hpos := List.length_pos_iff.mpr hpiece.ne_nil
        have hshort := congrArg List.length hchars
        rw [List.length_append, List.length_append] at hshort
        simp only [tokensIn, hscan]
        rw [hvisible, splitTokens_first hwhite hpiece, List.map_cons, bytes_utf8, ih (by omega)]

/-- The tokens of a text are those of its code points. -/
theorem tokensOf_utf8 (chars : List Char) :
    tokensOf (encoded chars) = (splitTokens (visible chars)).map encoded :=
  tokensIn_utf8 (length_le_encoded chars)

/-! ## Calls over memory -/

section Calls

variable (memory : Text)

/-- The bytes from `p` on pass the tests.  As with `&&`, nothing is read behind one that fails, and
a read outside the memory has no result. -/
def reads (p : Nat) : List (UInt8 → Bool) → Option Bool
  | [] => some true
  | test :: tests => do
      let b ← memory[p]?
      if test b then reads (p + 1) tests else some false

/-- `frontend_whitespace_len` -/
def whitespaceLenAt (p : Nat) : Option Nat := do
  if ← reads memory p [fun b => b = 0x20 || (0x09 ≤ b && b ≤ 0x0d)] then return 1
  if ← reads memory p [(· = 0xc2), fun b => b = 0x85 || b = 0xa0] then return 2
  if ← reads memory p [(· = 0xe1), (· = 0x9a), (· = 0x80)] then return 3
  if ← reads memory p [(· = 0xe2), (· = 0x80),
    fun b => (0x80 ≤ b && b ≤ 0x8a) || b = 0xa8 || b = 0xa9 || b = 0xaf] then return 3
  if ← reads memory p [(· = 0xe2), (· = 0x81), (· = 0x9f)] then return 3
  if ← reads memory p [(· = 0xe3), (· = 0x80), (· = 0x80)] then return 3
  return 0

/-- The first loop of `next_token` -/
def skipWhitespaceAt : Nat → Nat → Option Nat
  | 0, _ => none
  | rounds + 1, p => do
      let whitespace ← whitespaceLenAt memory p
      if whitespace = 0 then return p else skipWhitespaceAt rounds (p + whitespace)

/-- The second loop of `next_token` -/
def wordEndAt : Nat → Nat → Option Nat
  | 0, _ => none
  | rounds + 1, p => do
      let b ← memory[p]?
      if b = 0 then return p
      let whitespace ← whitespaceLenAt memory p
      if whitespace ≠ 0 ∨ isOpening b ∨ isClosing b then return p else wordEndAt rounds (p + 1)

/-- `next_token`: where the token starts and ends, unless there is none -/
def nextTokenAt (cursor : Nat) : Option (Option (Nat × Nat)) := do
  let start ← skipWhitespaceAt memory memory.length cursor
  let b ← memory[start]?
  if b = 0 then return none
  let stop ← (if isOpening b ∨ isClosing b then some (start + 1)
    else wordEndAt memory memory.length start)
  return some (start, stop)

/-- The calls of `next_token` from `cursor` up to the one that fails, and the tokens -/
inductive TokenRun : Nat → List Text → Prop
  | stop {cursor} : nextTokenAt memory cursor = some none → TokenRun cursor []
  | next {cursor start stop tokens} : nextTokenAt memory cursor = some (some (start, stop)) →
      TokenRun stop tokens →
      TokenRun cursor ((memory.drop start).take (stop - start) :: tokens)

end Calls

section Terminated

variable {source : Text} {p : Nat}

/-- Zero-terminated text -/
def terminated (source : Text) : Text :=
  source ++ [0]

theorem terminated_getElem? (hp : p ≤ source.length) :
    (terminated source)[p]? = some (byteAt (source.drop p) 0) := by
  rw [terminated, byteAt, List.getD_eq_getElem?_getD, List.getElem?_drop, Nat.add_zero]
  by_cases h : p < source.length
  · rw [List.getElem?_append_left h, List.getElem?_eq_getElem h, Option.getD_some]
  · obtain rfl : p = source.length := by omega
    rw [List.getElem?_concat_length, List.getElem?_eq_none (Nat.le_refl _), Option.getD_none]

/-- Bytes that pass, one test each -/
def passes (q : Text) : List (UInt8 → Bool) → Bool
  | [] => true
  | test :: tests => test (byteAt q 0) && passes q.tail tests

/-- Tests that the zero byte does not pass keep the reads inside the text and its zero byte. -/
theorem reads_terminated {tests : List (UInt8 → Bool)} (hzero : ∀ test ∈ tests, test 0 = false)
    (hp : p ≤ source.length) : reads (terminated source) p tests = some (passes (source.drop p) tests) := by
  induction tests generalizing p with
  | nil => rfl
  | cons test tests ih =>
      obtain ⟨htest, hrest⟩ := List.forall_mem_cons.mp hzero
      rw [reads, terminated_getElem? hp, passes]
      cases hb : test (byteAt (source.drop p) 0) with
      | false => simp [hb]
      | true =>
          have hinside : p < source.length := by
            by_contra hout
            rw [List.drop_eq_nil_of_le (by omega)] at hb
            exact absurd (hb.symm.trans htest) (by simp)
          have hnext := ih hrest (p := p + 1) hinside
          simp [hb, hnext, List.tail_drop]

theorem whitespaceLenAt_terminated (hp : p ≤ source.length) :
    whitespaceLenAt (terminated source) p = some (whitespaceLen (source.drop p)) := by
  have hread := fun tests hzero => @reads_terminated source p tests hzero hp
  have htail : ∀ (q : Text) (k : Nat), byteAt q.tail k = byteAt q (k + 1) := by
    intro q k
    cases q <;> simp [byteAt]
  simp only [whitespaceLenAt]
  rw [hread _ (by simp), hread _ (by simp), hread _ (by simp), hread _ (by simp), hread _ (by simp),
    hread _ (by simp)]
  simp only [passes, htail, whitespaceLen, Option.bind_eq_bind, Option.bind_some, Option.pure_def,
    Bool.and_true, Bool.and_eq_true, Bool.or_eq_true, decide_eq_true_eq, or_assoc, Nat.zero_add,
    Nat.reduceAdd, apply_ite some]

theorem whitespaceLen_le (q : Text) : whitespaceLen q ≤ q.length := by
  obtain _ | ⟨b, _ | ⟨c, _ | ⟨d, q⟩⟩⟩ := q
  · exact Nat.le_refl _
  all_goals
    rw [whitespaceLen_cons]
    simp only [byteAt, List.getD_nil, List.getD_cons_zero, List.getD_cons_succ, UInt8.toNat_zero,
      List.length_cons, List.length_nil]
    repeat' split
    all_goals omega

theorem wordLen_le (q : Text) : wordLen q ≤ q.length := by
  induction q with
  | nil => exact Nat.le_refl _
  | cons b q ih =>
      rw [wordLen, List.length_cons]
      split <;> omega

theorem skipWhitespaceAt_terminated {m n : Nat} (hp : p ≤ source.length)
    (hm : source.length - p < m) (hn : source.length - p ≤ n) :
    ∃ q, skipWhitespaceAt (terminated source) m p = some q ∧ q ≤ source.length ∧
      source.drop q = skipWhitespace n (source.drop p) := by
  induction m generalizing n p with
  | zero => omega
  | succ m ih =>
      have hlen := whitespaceLen_le (source.drop p)
      rw [List.length_drop] at hlen
      rw [skipWhitespaceAt, whitespaceLenAt_terminated hp, Option.bind_eq_bind, Option.bind_some]
      by_cases hstop : whitespaceLen (source.drop p) = 0
      · refine ⟨p, by rw [if_pos hstop]; rfl, hp, ?_⟩
        cases n <;> simp [skipWhitespace, hstop]
      · rw [if_neg hstop]
        obtain _ | n := n
        · omega
        rw [skipWhitespace, if_neg hstop, List.drop_drop]
        exact ih (by omega) (by omega) (by omega)

theorem wordEndAt_terminated {m : Nat} (hp : p ≤ source.length) (hm : source.length - p < m) :
    wordEndAt (terminated source) m p = some (p + wordLen (source.drop p)) := by
  induction m generalizing p with
  | zero => omega
  | succ m ih =>
      rw [wordEndAt, terminated_getElem? hp, Option.bind_eq_bind, Option.bind_some,
        whitespaceLenAt_terminated hp, Option.bind_eq_bind, Option.bind_some]
      cases hrest : source.drop p with
      | nil => rfl
      | cons b rest =>
          have hinside : p < source.length := by
            have h := congrArg List.length hrest
            rw [List.length_drop, List.length_cons] at h
            omega
          have hnext : source.drop (p + 1) = rest := by
            rw [← List.tail_drop, hrest, List.tail_cons]
          rw [byteAt_cons_zero, wordLen]
          by_cases hzero : b = 0
          · simp [hzero]
          by_cases hstop : whitespaceLen (b :: rest) ≠ 0 ∨ isOpening b ∨ isClosing b
          · rw [if_neg hzero, if_pos hstop, if_pos (.inr hstop)]
            rfl
          · rw [if_neg hzero, if_neg hstop, if_neg (not_or.mpr ⟨hzero, hstop⟩),
              ih hinside (by omega), hnext]
            congr 1
            omega

/-- `next_token` reads the text and its zero byte only, and does what `scanToken` says. -/
theorem nextTokenAt_terminated (hp : p ≤ source.length) :
    (scanToken (source.drop p) = none ∧ nextTokenAt (terminated source) p = some none) ∨
    ∃ start stop, nextTokenAt (terminated source) p = some (some (start, stop)) ∧
      stop ≤ source.length ∧
      scanToken (source.drop p) = some (⟨source.drop start, stop - start⟩, source.drop stop) := by
  have hmemory : (terminated source).length = source.length + 1 := by simp [terminated]
  obtain ⟨start, hstart, hle, hskip⟩ := skipWhitespaceAt_terminated hp
    (m := (terminated source).length) (n := (source.drop p).length) (by omega) (by simp)
  rw [nextTokenAt, hstart, Option.bind_eq_bind, Option.bind_some, terminated_getElem? hle,
    Option.bind_eq_bind, Option.bind_some, scanToken, ← hskip]
  by_cases hend : byteAt (source.drop start) 0 = 0
  · exact .inl ⟨by simp [hend], by simp [hend]⟩
  have hinside : start < source.length := by
    by_contra hout
    rw [List.drop_eq_nil_of_le (by omega)] at hend
    exact hend rfl
  obtain ⟨len, hlen, hstop, hfits⟩ : ∃ len,
      (if isOpening (byteAt (source.drop start) 0) ∨ isClosing (byteAt (source.drop start) 0) then 1
        else wordLen (source.drop start)) = len ∧
      (if isOpening (byteAt (source.drop start) 0) ∨ isClosing (byteAt (source.drop start) 0) then
        some (start + 1) else wordEndAt (terminated source) (terminated source).length start) =
        some (start + len) ∧ start + len ≤ source.length := by
    have hword := wordLen_le (source.drop start)
    rw [List.length_drop] at hword
    split
    · exact ⟨1, rfl, rfl, hinside⟩
    · exact ⟨_, rfl, wordEndAt_terminated hle (by omega), by omega⟩
  refine .inr ⟨start, start + len, ?_, hfits, ?_⟩
  · simp only [if_neg hend, hstop, Option.bind_some, Option.pure_def]
  · simp only [if_neg hend, hlen, List.drop_drop, Nat.add_sub_cancel_left]

theorem TokenRun.unique {memory : Text} {cursor : Nat} {tokens tokens' : List Text}
    (h : TokenRun memory cursor tokens) (h' : TokenRun memory cursor tokens') :
    tokens = tokens' := by
  induction h generalizing tokens' with
  | stop hstop =>
      cases h' with
      | stop _ => rfl
      | next hnext _ => cases hstop.symm.trans hnext
  | next hnext _ ih =>
      cases h' with
      | stop hstop => cases hstop.symm.trans hnext
      | next hnext' hrun =>
          cases hnext.symm.trans hnext'
          rw [ih hrun]

theorem tokenRun_utf8 {chars : List Char} (hp : p ≤ source.length)
    (hchars : source.drop p = encoded chars) :
    TokenRun (terminated source) p ((splitTokens (visible chars)).map encoded) := by
  induction hn : chars.length using Nat.strongRecOn generalizing chars p with
  | ind n ih =>
      subst hn
      obtain ⟨hblank, hscan⟩ | ⟨white, piece, rest, hcut, hvisible, hwhite, hpiece, hscan⟩ :=
        scanToken_utf8 chars
      · rw [← hchars] at hscan
        obtain ⟨-, hstop⟩ | ⟨start, stop, -, -, hscan'⟩ := nextTokenAt_terminated hp
        · rw [splitTokens, pieces_eq_nil hblank]
          exact .stop hstop
        · cases hscan.symm.trans hscan'
      · rw [← hchars] at hscan
        obtain ⟨hscan', -⟩ | ⟨start, stop, hnext, hstop, hscan'⟩ := nextTokenAt_terminated hp
        · cases hscan.symm.trans hscan'
        have htoken := hscan.symm.trans hscan'
        simp only [Option.some.injEq, Prod.mk.injEq, Token.mk.injEq] at htoken
        obtain ⟨⟨hdata, hlen⟩, hdrop⟩ := htoken
        have hpos := List.length_pos_iff.mpr hpiece.ne_nil
        have hshort := congrArg List.length hcut
        rw [List.length_append, List.length_append] at hshort
        have hrest := ih rest.length (by omega) hstop hdrop.symm rfl
        have hword : ((terminated source).drop start).take (stop - start) = encoded piece := by
          rw [← List.drop_take, terminated, List.take_append_of_le_length hstop, List.drop_take,
            ← hdata, ← hlen, encoded_append, List.take_left]
        rw [hvisible, splitTokens_first hwhite hpiece, List.map_cons, ← hword]
        exact .next hnext hrest

/-- On a terminated text of UTF-8, the calls of `next_token` yield the tokens of the decoded text.
A call that reads behind the zero byte would have no result. -/
theorem tokenRun_iff {chars : List Char} (hdecode : source.toByteArray.utf8Decode? = some chars.toArray)
    (hzero : 0 ∉ source) :
    (∀ tokens, TokenRun (terminated source) 0 tokens ↔ tokens = (splitTokens chars).map encoded) ∧
    (∀ token ∈ (splitTokens chars).map encoded, token ≠ []) ∧
    ((splitTokens chars).map encoded).flatten = encoded (chars.filter fun c => !isWhiteSpace c) := by
  obtain rfl := eq_encoded_of_decode hdecode
  have hchars : '\x00' ∉ chars := fun hmem => hzero (List.mem_flatMap.mpr ⟨_, hmem, by decide⟩)
  have hrun := tokenRun_utf8 (Nat.zero_le (encoded chars).length) List.drop_zero
  rw [visible_eq_self hchars] at hrun
  refine ⟨fun tokens => ⟨fun h => h.unique hrun, ?_⟩, ?_, ?_⟩
  · rintro rfl
    exact hrun
  · intro token htoken
    obtain ⟨piece, hpiece, rfl⟩ := List.mem_map.mp htoken
    obtain _ | ⟨c, piece⟩ := piece
    · exact absurd rfl (ne_nil_of_mem_pieces hpiece)
    · simp
  · rw [← flatten_pieces isWhiteSpace isParenthesis]
    exact (encoded_flatten _).symm

end Terminated

/-- `Var`, an ideographic space, a name of two bytes, a parenthesis and a no-break space -/
def wideSource : List Char :=
  ['V', 'a', 'r', '\u3000', '\u00e9', '(', '\u00a0']

theorem tokenRun_iff_wideSource : TokenRun (terminated (encoded wideSource)) 0
    [encoded ['V', 'a', 'r'], encoded ['\u00e9'], encoded ['(']] := by
  have hdecode := decode_encoded wideSource
  have hzero : 0 ∉ encoded wideSource := by decide
  exact ((tokenRun_iff hdecode hzero).1 _).mpr (by decide)

end TreeVM
