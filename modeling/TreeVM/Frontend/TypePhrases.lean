import TreeVM.Frontend.Numerals
import TreeVM.IR.LayoutOrder
import TreeVM.Logic.Interned

/-!
# Phrases for types

What `frontend_parse_type` reads, and how it keeps the types of a function apart.

* `Phrase`: the grammar of types, with the type that a phrase denotes in a table;
* `Interned.Denotes` at type tables: references and arrays are labels, other entries stand for
  themselves;
* `TypeTable`: accepted tables without two equal arrays, slices or views;
* `parseType_spec`: the phrases that are accepted, and the ids that they get.
-/

namespace TreeVM

open Interned

variable {M : Type}

/-! ## Tables -/

/-- What the parser puts on a type -/
inductive Wrapper
  | slice
  | view
  | array (capacity : UInt32)
  deriving DecidableEq, Repr

def TypeKind.wrapped : TypeKind → Option (Wrapper × Nat)
  | .slice elem => some (.slice, elem)
  | .view elem => some (.view, elem)
  | .array elem capacity _ => some (.array capacity, elem)
  | _ => none

def NamedType.wrapped (t : NamedType) : Option (Wrapper × Nat) :=
  t.ty.kind.wrapped

/-- A table that `type_layout_all` accepts, without two equal arrays, slices or views -/
structure TypeTable (types : List NamedType) : Prop where
  accepted : ∃ types', layoutAll (types.map NamedType.ty) = some types'
  noTwins : NoTwins NamedType.wrapped types

/-- The kind that the parser gives to a new entry -/
def Wrapper.kind (wrapper : Wrapper) (elem : Nat) : TypeKind :=
  match wrapper with
  | .slice => .slice elem
  | .view => .view elem
  | .array capacity => .array elem capacity 0

theorem typeMatches_iff (t : NamedType) (wrapper : Wrapper) (elem : Nat) :
    typeMatches t (wrapper.kind elem) = true ↔ t.wrapped = some (wrapper, elem) := by
  rw [typeMatches, decide_eq_true_eq, NamedType.wrapped]
  cases t.ty.kind <;> cases wrapper <;>
    simp [TypeKind.shape, TypeKind.wrapped, Wrapper.kind, and_comm]

theorem compositeType_wrapped (wrapper : Wrapper) (elem : Nat) :
    (compositeType (wrapper.kind elem)).wrapped = some (wrapper, elem) := by
  cases wrapper <;> rfl

section Tables

variable {types : List Ty} {i j : Nat} {t : Ty}

theorem refers_append (hids : ∀ r ∈ t.kind.ids, r < types.length)
    (hwell : WellFormed types) (h : Refers (types ++ [t]) i j) :
    j < types.length ∧ (i < types.length → Refers types i j) := by
  obtain ⟨u, hu, hj⟩ := h
  by_cases hi : i < types.length
  · rw [List.getElem?_append_left hi] at hu
    refine ⟨hwell.ids u (List.mem_of_getElem? hu) j (refs_subset_ids _ hj), fun _ => ⟨u, hu, hj⟩⟩
  · rw [List.getElem?_append_right (Nat.le_of_not_lt hi), List.getElem?_singleton] at hu
    split at hu
    · cases hu
      exact ⟨hids j (refs_subset_ids _ hj), fun h => absurd h hi⟩
    · cases hu

/-- A new entry that mentions entries of the table -/
theorem WellFormed.append (hwell : WellFormed types) (hids : ∀ r ∈ t.kind.ids, r < types.length) :
    WellFormed (types ++ [t]) := by
  have hkeep : ∀ {i : Nat} {kind : TypeKind}, (types[i]?).map Ty.kind = some kind →
      ((types ++ [t])[i]?).map Ty.kind = some kind := by
    intro i kind h
    obtain ⟨u, hu, hkind⟩ := Option.map_eq_some_iff.mp h
    rw [List.getElem?_append_left (List.getElem?_eq_some_iff.mp hu).1, hu, Option.map_some, hkind]
  refine ⟨hkeep hwell.int, hkeep hwell.byte, fun u hu r hr => ?_, fun i hcycle => ?_⟩
  · rw [List.length_append, List.length_singleton]
    rcases List.mem_append.mp hu with hu | hu
    · exact Nat.lt_succ_of_lt (hwell.ids u hu r hr)
    · rw [List.mem_singleton.mp hu] at hr
      exact Nat.lt_succ_of_lt (hids r hr)
  · -- the cycle ends at an old entry, and old entries refer to old ones
    have hold : ∀ {i j : Nat}, Relation.TransGen (Refers (types ++ [t])) i j →
        j < types.length ∧ (i < types.length → Relation.TransGen (Refers types) i j) := by
      intro i j h
      induction h with
      | single h =>
          obtain ⟨hlt, hrefers⟩ := refers_append hids hwell h
          exact ⟨hlt, fun hi => .single (hrefers hi)⟩
      | tail _ h ih =>
          obtain ⟨hlt, hrefers⟩ := refers_append hids hwell h
          exact ⟨hlt, fun hi => (ih.2 hi).tail (hrefers ih.1)⟩
    obtain ⟨hlt, hrefers⟩ := hold hcycle
    exact hwell.acyclic i (hrefers hlt)

end Tables

theorem TypeTable.append {types : List NamedType} {wrapper : Wrapper} {elem : Nat}
    (h : TypeTable types) (helem : elem < types.length)
    (hnew : ∀ t ∈ types, t.wrapped ≠ some (wrapper, elem)) :
    TypeTable (types ++ [compositeType (wrapper.kind elem)]) := by
  obtain ⟨⟨types', haccepted⟩, htwins⟩ := h
  refine ⟨?_, htwins.append fun t ht => ?_⟩
  · rw [List.map_append]
    refine layoutAll_of_wellFormed ((wellFormed_of_layoutAll haccepted).append fun r hr => ?_)
    have hr : r = elem := by
      cases wrapper <;> simpa [compositeType, Wrapper.kind, TypeKind.ids, TypeKind.refs] using hr
    rw [hr, List.length_map]
    exact helem
  · rw [compositeType_wrapped]
    exact hnew t ht

theorem wrapped_mem_refs {kind : TypeKind} {wrapper : Wrapper} {elem : Nat}
    (h : kind.wrapped = some (wrapper, elem)) : elem ∈ kind.refs := by
  cases kind <;> cases h <;> exact List.mem_singleton_self _

/-- Every entry of an accepted table denotes a type. -/
theorem TypeTable.denotes {types : List NamedType} (h : TypeTable types) {i : Nat}
    (hi : i < types.length) : ∃ ks n, Denotes NamedType.wrapped types i ks n := by
  obtain ⟨⟨types', haccepted⟩, -⟩ := h
  obtain ⟨⟨rank, hlaid⟩, hlength, hshape⟩ := laid_of_layoutAll haccepted
  refine exists_denotes rank (fun i j t wrapper ht hwrapped => ?_) hi
  have hsame := hshape i
  rw [List.getElem?_map, ht, Option.map_some, Option.map_some] at hsame
  obtain ⟨u, hu, hkind⟩ := Option.map_eq_some_iff.mp hsame
  obtain ⟨hlt, hrank⟩ := hlaid.refs i u hu j
    (by rw [← u.kind.refs_shape, hkind, TypeKind.refs_shape]; exact wrapped_mem_refs hwrapped)
  rw [hlength, List.length_map] at hlt
  exact ⟨hlt, hrank⟩

theorem TypeTable.int_byte {types : List NamedType} (h : TypeTable types) :
    Denotes NamedType.wrapped types intId [] intId ∧
      Denotes NamedType.wrapped types byteId [] byteId := by
  obtain ⟨⟨types', haccepted⟩, -⟩ := h
  have hwell := wellFormed_of_layoutAll haccepted
  have hleaf : ∀ {i : Nat} {kind : TypeKind}, kind.wrapped = none →
      ((types.map NamedType.ty)[i]?).map Ty.kind = some kind →
      Denotes NamedType.wrapped types i [] i := by
    intro i kind hwrapped h
    rw [List.getElem?_map, Option.map_map] at h
    obtain ⟨t, ht, hkind⟩ := Option.map_eq_some_iff.mp h
    exact .leaf ht (by rw [NamedType.wrapped, ← hwrapped, ← hkind]; rfl)
  exact ⟨hleaf rfl hwell.int, hleaf rfl hwell.byte⟩

/-! ## The grammar -/

/-- Words with a meaning of their own -/
def typeKeywords : List Name :=
  [utf8 "Int", utf8 "int", utf8 "Byte", utf8 "byte", utf8 "Slice", utf8 "View", utf8 "Array"]

/-- `T ::= Int | int | Byte | byte | Slice T | View T | Array n T | name of an entry`.  The phrase
denotes the wrappers `ks` on the entry `n`, which is not an array, a slice or a view. -/
inductive Phrase (types : List NamedType) : List Name → List Wrapper → Nat → Prop
  | int {w : Name} : w = utf8 "Int" ∨ w = utf8 "int" → Phrase types [w] [] intId
  | byte {w : Name} : w = utf8 "Byte" ∨ w = utf8 "byte" → Phrase types [w] [] byteId
  | slice {ws : List Name} {ks : List Wrapper} {n : Nat} : Phrase types ws ks n →
      Phrase types (utf8 "Slice" :: ws) (.slice :: ks) n
  | view {ws : List Name} {ks : List Wrapper} {n : Nat} : Phrase types ws ks n →
      Phrase types (utf8 "View" :: ws) (.view :: ks) n
  | array {w : Name} {capacity : UInt32} {ws : List Name} {ks : List Wrapper} {n : Nat} :
      Numeral w (capacity.toNat : Int) → Phrase types ws ks n →
      Phrase types (utf8 "Array" :: w :: ws) (.array capacity :: ks) n
  | named {w : Name} {i n : Nat} {ks : List Wrapper} : w ∉ typeKeywords →
      types.findIdx? (fun t => t.name = some w) = some i → Denotes NamedType.wrapped types i ks n →
      Phrase types [w] ks n

/-! ## Parsing -/

theorem FrontStep.ite_apply {α : Type} {c : Prop} [Decidable c] (x y : FrontStep M α)
    (fe : Frontend M) : (if c then x else y) fe = if c then x fe else y fe := by
  by_cases hc : c
  · rw [if_pos hc, if_pos hc]
  · rw [if_neg hc, if_neg hc]

/-- The state with more types -/
def Frontend.growTypes (fe : Frontend M) (more : List NamedType) : Frontend M :=
  { fe with func := { fe.func with types := fe.func.types ++ more } }

/-- The end of `frontend_parse_type` behind `Slice`, `View`, or `Array` and a number -/
def parseElem (rounds : Nat) (wrapper : Wrapper) : FrontStep M Nat := do
  let elem ← parseTypeFrom rounds
  internType (wrapper.kind elem)

section Parsing

variable {fe fe₁ fe' : Frontend M} {token : Token} {rounds : Nat}

theorem parseTypeFrom_word (h : parseName fe = (some token, fe₁)) :
    parseTypeFrom (rounds + 1) fe =
      if token.bytes = utf8 "Int" ∨ token.bytes = utf8 "int" then (some intId, fe₁)
      else if token.bytes = utf8 "Byte" ∨ token.bytes = utf8 "byte" then (some byteId, fe₁)
      else if token.bytes = utf8 "Slice" then parseElem rounds .slice fe₁
      else if token.bytes = utf8 "View" then parseElem rounds .view fe₁
      else if token.bytes = utf8 "Array" then
        (parseNumber >>= fun parsed =>
          if parsed < 0 ∨ 2 ^ 32 - 1 < parsed then FrontStep.failWith .badNumber
          else parseElem rounds (.array (UInt32.ofNat parsed.toNat))) fe₁
      else namedType token fe₁ := by
  rw [parseTypeFrom, FrontStep.bind_some h]
  simp only [FrontStep.ite_apply]
  rfl

theorem internType_eq (kind : TypeKind) :
    internType kind fe = match fe.func.types.findIdx? (typeMatches · kind) with
      | some tid => (some tid, fe)
      | none => (some fe.func.types.length, fe.growTypes [compositeType kind]) := by
  rw [internType, FrontStep.bind_get]
  cases fe.func.types.findIdx? (typeMatches · kind) <;> rfl

/-- An entry is found or appended. -/
theorem internType_denotes {wrapper : Wrapper} {elem n : Nat} {ks : List Wrapper}
    (h : TypeTable fe.func.types) (helem : Denotes NamedType.wrapped fe.func.types elem ks n) :
    ∃ tid more, internType (wrapper.kind elem) fe = (some tid, fe.growTypes more) ∧
      TypeTable (fe.func.types ++ more) ∧
      Denotes NamedType.wrapped (fe.func.types ++ more) tid (wrapper :: ks) n := by
  rw [internType_eq]
  cases hfind : fe.func.types.findIdx? (typeMatches · (wrapper.kind elem)) with
  | some tid =>
      obtain ⟨hlt, hmatch, -⟩ := List.findIdx?_eq_some_iff_getElem.mp hfind
      refine ⟨tid, [], by simp [Frontend.growTypes], ?_, ?_⟩
      · rwa [List.append_nil]
      · rw [List.append_nil]
        exact .label (List.getElem?_eq_getElem hlt) ((typeMatches_iff _ _ _).mp hmatch) helem
  | none =>
      refine ⟨_, _, rfl, h.append helem.lt fun t ht hwrapped => ?_, ?_⟩
      · have hmatch := List.findIdx?_eq_none_iff.mp hfind t ht
        rw [(typeMatches_iff t wrapper elem).mpr hwrapped] at hmatch
        cases hmatch
      · exact helem.new (compositeType_wrapped wrapper elem)

theorem namedType_eq : namedType token fe =
    match fe.func.types.findIdx? fun t => t.name = some token.bytes with
    | some tid => (some tid, fe)
    | none => FrontStep.failAt .unknownType token.data fe := by
  rw [namedType, FrontStep.bind_get]
  cases fe.func.types.findIdx? fun t => t.name = some token.bytes <;> rfl

/-! ## Phrases are accepted -/

theorem parseElem_denotes (wrapper : Wrapper) {tid n : Nat} {ks : List Wrapper}
    (hparse : parseTypeFrom rounds fe = (some tid, fe'))
    (h : TypeTable fe'.func.types) (htid : Denotes NamedType.wrapped fe'.func.types tid ks n) :
    ∃ tid' more, parseElem rounds wrapper fe = (some tid', fe'.growTypes more) ∧
      TypeTable (fe'.func.types ++ more) ∧
      Denotes NamedType.wrapped (fe'.func.types ++ more) tid' (wrapper :: ks) n := by
  rw [parseElem, FrontStep.bind_some hparse]
  exact internType_denotes h htid

theorem Words.first (fe : Frontend M) {w : Name} {ws : List Name} {q : Text}
    (h : Words fe.cursor (w :: ws) q) :
    ∃ token p', token.bytes = w ∧ scanToken fe.cursor = some (token, p') ∧ token.isParen = false ∧
      parseName fe = (some token, { fe with cursor := p' }) ∧ Words p' ws q := by
  cases h with
  | cons hscan hparen hrest =>
      exact ⟨_, _, rfl, hscan, hparen, nextName_iff.mpr ⟨_, hscan, hparen, rfl⟩, hrest⟩

theorem exists_rounds {w : Name} {ws : List Name} (h : (w :: ws).length ≤ rounds) :
    ∃ rounds', rounds = rounds' + 1 ∧ ws.length ≤ rounds' := by
  rw [List.length_cons] at h
  exact ⟨rounds - 1, by omega, by omega⟩

/-- The parser ends at `q` with an id for the wrappers `ks` on the entry `n`; entries are only
appended. -/
def ParsesTo (x : FrontStep M Nat) (fe : Frontend M) (q : Text) (ks : List Wrapper) (n : Nat) : Prop :=
  ∃ tid more, x fe = (some tid, { fe with cursor := q }.growTypes more) ∧
    TypeTable (fe.func.types ++ more) ∧ Denotes NamedType.wrapped (fe.func.types ++ more) tid ks n

theorem ParsesTo.leaf {x : FrontStep M Nat} {q : Text} {ks : List Wrapper} {tid n : Nat}
    (htable : TypeTable fe.func.types) (htid : Denotes NamedType.wrapped fe.func.types tid ks n)
    (h : x fe = (some tid, { fe with cursor := q })) : ParsesTo x fe q ks n := by
  refine ⟨tid, [], by simp [h, Frontend.growTypes], ?_, htid.append []⟩
  rwa [List.append_nil]

/-- The type of the elements is parsed before the entry is looked up or appended. -/
theorem ParsesTo.elem (wrapper : Wrapper) {q p' : Text} {ks : List Wrapper} {n : Nat}
    (h : ParsesTo (parseTypeFrom rounds) { fe with cursor := p' } q ks n) {x : FrontStep M Nat}
    (hx : x fe = parseElem rounds wrapper { fe with cursor := p' }) :
    ParsesTo x fe q (wrapper :: ks) n := by
  obtain ⟨tid, more, hparse, htable, htid⟩ := h
  obtain ⟨tid', more', helem, htable', htid'⟩ := parseElem_denotes wrapper hparse htable htid
  refine ⟨tid', more ++ more', ?_, ?_, ?_⟩
  · rw [hx, helem]
    simp [Frontend.growTypes]
  · rw [← List.append_assoc]
    exact htable'
  · rw [← List.append_assoc]
    exact htid'

/-- A phrase is parsed, up to its end. -/
theorem Phrase.parses {types : List NamedType} {ws : List Name} {ks : List Wrapper} {n : Nat} {q : Text}
    (h : Phrase types ws ks n) (htypes : fe.func.types = types) (hwords : Words fe.cursor ws q)
    (htable : TypeTable types) (hrounds : ws.length ≤ rounds) :
    ParsesTo (parseTypeFrom rounds) fe q ks n := by
  induction h generalizing fe rounds with
  | int hw =>
      obtain ⟨rounds, rfl, -⟩ := exists_rounds hrounds
      obtain ⟨token, p', rfl, -, -, hname, hrest⟩ := hwords.first fe
      cases hrest
      subst htypes
      refine .leaf htable htable.int_byte.1 ?_
      rw [parseTypeFrom_word hname, if_pos hw]
  | byte hw =>
      obtain ⟨rounds, rfl, -⟩ := exists_rounds hrounds
      obtain ⟨token, p', rfl, -, -, hname, hrest⟩ := hwords.first fe
      cases hrest
      subst htypes
      refine .leaf htable htable.int_byte.2 ?_
      have hnot : ¬ (token.bytes = utf8 "Int" ∨ token.bytes = utf8 "int") := by
        rcases hw with hw | hw <;> rw [hw] <;> decide
      rw [parseTypeFrom_word hname, if_neg hnot, if_pos hw]
  | slice _ ih =>
      obtain ⟨rounds, rfl, hlen⟩ := exists_rounds hrounds
      obtain ⟨token, p', hw, -, -, hname, hrest⟩ := hwords.first fe
      refine (@ih { fe with cursor := p' } rounds htypes hrest hlen).elem .slice ?_
      rw [parseTypeFrom_word hname, hw, if_neg (by decide), if_neg (by decide), if_pos rfl]
  | view _ ih =>
      obtain ⟨rounds, rfl, hlen⟩ := exists_rounds hrounds
      obtain ⟨token, p', hw, -, -, hname, hrest⟩ := hwords.first fe
      refine (@ih { fe with cursor := p' } rounds htypes hrest hlen).elem .view ?_
      rw [parseTypeFrom_word hname, hw, if_neg (by decide), if_neg (by decide), if_neg (by decide),
        if_pos rfl]
  | @array w capacity ws ks n hnumeral _ ih =>
      obtain ⟨rounds, rfl, hlen⟩ := exists_rounds hrounds
      obtain ⟨token, p₁, hw, -, -, hname, hrest⟩ := hwords.first fe
      obtain ⟨number, p₂, hw', hscan, hparen, -, hrest⟩ := hrest.first { fe with cursor := p₁ }
      have hcapacity := capacity.toNat_lt
      have hnumber := parseNumber_iff.mpr ⟨number, p₂, hscan, hparen,
        ⟨hw'.symm ▸ hnumeral, by omega, by omega⟩, rfl⟩
      have hlen' : ws.length ≤ rounds := Nat.le_of_succ_le hlen
      refine (@ih { fe with cursor := p₂ } rounds htypes hrest hlen').elem (.array capacity) ?_
      have hfits : ¬ ((capacity.toNat : Int) < 0 ∨ 2 ^ 32 - 1 < (capacity.toNat : Int)) := by omega
      rw [parseTypeFrom_word hname, hw, if_neg (by decide), if_neg (by decide), if_neg (by decide),
        if_neg (by decide), if_pos rfl, FrontStep.bind_some hnumber, if_neg hfits, Int.toNat_natCast,
        UInt32.ofNat_toNat]
  | named hkeyword hfind hdenotes =>
      obtain ⟨rounds, rfl, -⟩ := exists_rounds hrounds
      obtain ⟨token, p', rfl, -, -, hname, hrest⟩ := hwords.first fe
      cases hrest
      subst htypes
      refine .leaf htable hdenotes ?_
      simp only [typeKeywords, List.mem_cons, List.not_mem_nil, or_false, not_or] at hkeyword
      obtain ⟨hInt, hint, hByte, hbyte, hSlice, hView, hArray⟩ := hkeyword
      rw [parseTypeFrom_word hname, if_neg (by simp [hInt, hint]), if_neg (by simp [hByte, hbyte]),
        if_neg hSlice, if_neg hView, if_neg hArray, namedType_eq]
      dsimp only
      rw [hfind]

/-! ## Only phrases are accepted -/

/-- The elements are parsed first; what follows does not fail. -/
theorem parseElem_iff (wrapper : Wrapper) :
    ((parseElem rounds wrapper fe).1 = none ↔ (parseTypeFrom rounds fe).1 = none) ∧
      ((parseTypeFrom rounds fe).1 = none → parseElem rounds wrapper fe = parseTypeFrom rounds fe) := by
  rcases hparse : parseTypeFrom rounds fe with ⟨_ | tid, fe₁⟩
  · rw [parseElem, FrontStep.bind_none hparse]
    exact ⟨Iff.rfl, fun _ => rfl⟩
  · rw [parseElem, FrontStep.bind_some hparse, internType_eq]
    split
    · exact ⟨by simp, nofun⟩
    · exact ⟨by simp, nofun⟩

theorem Words.of_parseName (h : parseName fe = (some token, fe₁)) {ws : List Name} {q : Text}
    (hrest : Words fe₁.cursor ws q) : Words fe.cursor (token.bytes :: ws) q := by
  obtain ⟨p', hscan, hparen, rfl⟩ := nextName_iff.mp h
  exact .cons hscan hparen hrest

/-- Where the parser succeeds, there is a phrase. -/
theorem phrase_of_parses {types : List NamedType} (htable : TypeTable types) {tid : Nat}
    (htypes : fe.func.types = types) (h : parseTypeFrom rounds fe = (some tid, fe')) :
    ∃ ws ks n q, Phrase types ws ks n ∧ Words fe.cursor ws q := by
  induction rounds generalizing fe fe' tid with
  | zero => cases h
  | succ rounds ih =>
      rcases hname : parseName fe with ⟨_ | token, fe₁⟩
      · rw [parseTypeFrom, FrontStep.bind_none hname] at h
        cases h
      have hfe : fe₁.func.types = types := by
        obtain ⟨p', -, -, rfl⟩ := nextName_iff.mp hname
        exact htypes
      -- a phrase for the elements behind what has been read
      have helem : ∀ {wrapper : Wrapper} {fe₂ : Frontend M}, fe₂.func.types = types →
          parseElem rounds wrapper fe₂ = (some tid, fe') →
          ∃ ws ks n q, Phrase types ws ks n ∧ Words fe₂.cursor ws q := by
        intro wrapper fe₂ hfe₂ helem
        rcases hparse : parseTypeFrom rounds fe₂ with ⟨_ | tid', fe₃⟩
        · have hnone := (parseElem_iff wrapper).2 (congrArg Prod.fst hparse)
          rw [helem, hparse] at hnone
          cases hnone
        · exact ih hfe₂ hparse
      rw [parseTypeFrom_word hname] at h
      by_cases hint : token.bytes = utf8 "Int" ∨ token.bytes = utf8 "int"
      · exact ⟨_, _, _, _, .int hint, .of_parseName hname (.nil _)⟩
      by_cases hbyte : token.bytes = utf8 "Byte" ∨ token.bytes = utf8 "byte"
      · exact ⟨_, _, _, _, .byte hbyte, .of_parseName hname (.nil _)⟩
      rw [if_neg hint, if_neg hbyte] at h
      by_cases hslice : token.bytes = utf8 "Slice"
      · rw [if_pos hslice] at h
        obtain ⟨ws, ks, n, q, hphrase, hwords⟩ := helem hfe h
        exact ⟨_, _, _, q, .slice hphrase, hslice ▸ .of_parseName hname hwords⟩
      rw [if_neg hslice] at h
      by_cases hview : token.bytes = utf8 "View"
      · rw [if_pos hview] at h
        obtain ⟨ws, ks, n, q, hphrase, hwords⟩ := helem hfe h
        exact ⟨_, _, _, q, .view hphrase, hview ▸ .of_parseName hname hwords⟩
      rw [if_neg hview] at h
      by_cases harray : token.bytes = utf8 "Array"
      · rw [if_pos harray] at h
        rcases hnumber : parseNumber fe₁ with ⟨_ | z, fe₂⟩
        · rw [FrontStep.bind_none hnumber] at h
          cases h
        obtain ⟨number, p', hscan, hparen, ⟨hnumeral, -, -⟩, rfl⟩ := parseNumber_iff.mp hnumber
        rw [FrontStep.bind_some hnumber, FrontStep.ite_apply] at h
        by_cases hbad : z < 0 ∨ 2 ^ 32 - 1 < z
        · rw [if_pos hbad] at h
          cases h
        rw [if_neg hbad] at h
        have hfe' : ({ fe₁ with cursor := p' } : Frontend M).func.types = types := hfe
        obtain ⟨ws, ks, n, q, hphrase, hwords⟩ := helem hfe' h
        have hcapacity : ((UInt32.ofNat z.toNat).toNat : Int) = z := by
          rw [UInt32.toNat_ofNat_of_lt' (by change z.toNat < 2 ^ 32; omega)]
          omega
        rw [← hcapacity] at hnumeral
        exact ⟨_, _, _, q, .array hnumeral hphrase,
          harray ▸ .of_parseName hname (.cons hscan hparen hwords)⟩
      · rw [if_neg harray, namedType_eq] at h
        cases hfind : fe₁.func.types.findIdx? fun t => t.name = some token.bytes with
        | none =>
            rw [hfind] at h
            cases h
        | some i =>
            rw [hfe] at hfind
            obtain ⟨hlt, -⟩ := List.findIdx?_eq_some_iff_getElem.mp hfind
            obtain ⟨ks, n, hdenotes⟩ := htable.denotes hlt
            have hkeyword : token.bytes ∉ typeKeywords := by
              simp only [typeKeywords, List.mem_cons, List.not_mem_nil, or_false]
              tauto
            exact ⟨_, _, _, _, .named hkeyword hfind hdenotes, .of_parseName hname (.nil _)⟩

/-- Nothing is appended when the parser fails. -/
theorem parseTypeFrom_fails (h : (parseTypeFrom rounds fe).1 = none) :
    (parseTypeFrom rounds fe).2.func = fe.func := by
  induction rounds generalizing fe with
  | zero => rfl
  | succ rounds ih =>
      have hfunc : (parseName fe).2.func = fe.func := nextName_func _ _
      rcases hname : parseName fe with ⟨_ | token, fe₁⟩
      · rw [hname] at hfunc
        rw [parseTypeFrom, FrontStep.bind_none hname]
        exact hfunc
      have helem : ∀ {wrapper : Wrapper} {fe₂ : Frontend M}, (parseElem rounds wrapper fe₂).1 = none →
          (parseElem rounds wrapper fe₂).2.func = fe₂.func := by
        intro wrapper fe₂ helem
        have hparse := (parseElem_iff wrapper).1.mp helem
        rw [(parseElem_iff wrapper).2 hparse]
        exact ih hparse
      rw [hname] at hfunc
      rw [parseTypeFrom_word hname] at h ⊢
      rw [← hfunc]
      by_cases hint : token.bytes = utf8 "Int" ∨ token.bytes = utf8 "int"
      · rw [if_pos hint]
      by_cases hbyte : token.bytes = utf8 "Byte" ∨ token.bytes = utf8 "byte"
      · rw [if_neg hint, if_pos hbyte]
      rw [if_neg hint, if_neg hbyte] at h ⊢
      by_cases hslice : token.bytes = utf8 "Slice"
      · rw [if_pos hslice] at h ⊢
        exact helem h
      rw [if_neg hslice] at h ⊢
      by_cases hview : token.bytes = utf8 "View"
      · rw [if_pos hview] at h ⊢
        exact helem h
      rw [if_neg hview] at h ⊢
      by_cases harray : token.bytes = utf8 "Array"
      · rw [if_pos harray] at h ⊢
        have hnumber : (parseNumber fe₁).2.func = fe₁.func := parseNumber_func
        rcases hparsed : parseNumber fe₁ with ⟨_ | z, fe₂⟩
        · rw [hparsed] at hnumber
          rw [FrontStep.bind_none hparsed]
          exact hnumber
        rw [hparsed] at hnumber
        rw [FrontStep.bind_some hparsed, FrontStep.ite_apply] at h ⊢
        by_cases hbad : z < 0 ∨ 2 ^ 32 - 1 < z
        · rw [if_pos hbad]
          exact hnumber
        · rw [if_neg hbad] at h ⊢
          exact (helem h).trans hnumber
      · rw [if_neg harray, namedType_eq]
        split <;> rfl

end Parsing

/-! ## Sequences of parses -/

section Sequences

variable {fe fe' : Frontend M}

/-- A call of the parser in some state of the frontend takes one table to the other. -/
def TypeStep (M : Type) (types types' : List NamedType) : Prop :=
  ∃ fe : Frontend M, fe.func.types = types ∧ (parseType fe).2.func.types = types'

/-- A phrase at the cursor is the one that the parser reads. -/
theorem parsesTo_of_phrase (h : TypeTable fe.func.types) {ws : List Name} {ks : List Wrapper} {n : Nat}
    {q : Text} (hwords : Words fe.cursor ws q) (hphrase : Phrase fe.func.types ws ks n) :
    ParsesTo parseType fe q ks n := by
  have hlen := hwords.length_le
  exact hphrase.parses rfl hwords h (by omega)

/-- The outcomes of a call: a phrase and an id that denotes its type, or no phrase and nothing
appended. -/
theorem parseType_outcome (h : TypeTable fe.func.types) :
    (∃ ws ks n q, Phrase fe.func.types ws ks n ∧ Words fe.cursor ws q ∧ ParsesTo parseType fe q ks n) ∨
    ((parseType fe).1 = none ∧ (parseType fe).2.func = fe.func ∧
      ∀ ws ks n q, Words fe.cursor ws q → ¬ Phrase fe.func.types ws ks n) := by
  cases hparse : (parseType fe).1 with
  | none =>
      refine .inr ⟨rfl, parseTypeFrom_fails hparse, fun ws ks n q hwords hphrase => ?_⟩
      obtain ⟨tid, more, hrun, -⟩ := parsesTo_of_phrase h hwords hphrase
      rw [hrun] at hparse
      cases hparse
  | some tid =>
      obtain ⟨ws, ks, n, q, hphrase, hwords⟩ := phrase_of_parses h rfl (Prod.ext hparse rfl)
      exact .inl ⟨ws, ks, n, q, hphrase, hwords, parsesTo_of_phrase h hwords hphrase⟩

theorem TypeStep.grows {types types' : List NamedType} (hstep : TypeStep M types types')
    (h : TypeTable types) : TypeTable types' ∧ types <+: types' := by
  obtain ⟨fe, rfl, rfl⟩ := hstep
  rcases parseType_outcome h with ⟨ws, ks, n, q, -, -, tid, more, hrun, htable, -⟩ | ⟨-, hfunc, -⟩
  · rw [hrun]
    exact ⟨htable, List.prefix_append _ _⟩
  · rw [hfunc]
    exact ⟨h, List.prefix_rfl⟩

theorem typeSteps_grow {types types' : List NamedType}
    (hsteps : Relation.ReflTransGen (TypeStep M) types types') (h : TypeTable types) :
    TypeTable types' ∧ types <+: types' := by
  induction hsteps with
  | refl => exact ⟨h, List.prefix_rfl⟩
  | tail _ hstep ih =>
      obtain ⟨htable, hkept⟩ := hstep.grows ih.1
      exact ⟨htable, List.IsPrefix.trans ih.2 hkept⟩

/-- The id of a phrase denotes its type in every later table. -/
theorem denotes_later (h : TypeTable fe.func.types) {ws : List Name} {ks : List Wrapper} {n tid : Nat}
    {q : Text} (hid : (parseType fe).1 = some tid) (hwords : Words fe.cursor ws q)
    (hphrase : Phrase fe.func.types ws ks n) {types : List NamedType}
    (hlater : (parseType fe).2.func.types <+: types) :
    Denotes NamedType.wrapped types tid ks n := by
  obtain ⟨tid', more, hrun, -, hdenotes⟩ := parsesTo_of_phrase h hwords hphrase
  obtain ⟨rest, rfl⟩ := hlater
  rw [hrun] at hid ⊢
  cases hid
  exact hdenotes.append rest

/-- The parser succeeds exactly at phrases and consumes just them; the table keeps its entries, and
gets none when the parser fails; the id denotes the type of the phrase; two ids are the same, if and
only if the types are. -/
theorem parseType_spec (h : TypeTable fe.func.types) :
    (∀ q, (∃ tid, (parseType fe).1 = some tid ∧ (parseType fe).2.cursor = q) ↔
      ∃ ws ks n, Words fe.cursor ws q ∧ Phrase fe.func.types ws ks n) ∧
    (TypeTable (parseType fe).2.func.types ∧ fe.func.types <+: (parseType fe).2.func.types ∧
      ((parseType fe).1 = none → (parseType fe).2.func.types = fe.func.types)) ∧
    ∀ tid ws ks n q, (parseType fe).1 = some tid → Words fe.cursor ws q →
      Phrase fe.func.types ws ks n → Denotes NamedType.wrapped (parseType fe).2.func.types tid ks n ∧
      ∀ (fe' : Frontend M) (tid' : Nat) (ws' : List Name) (ks' : List Wrapper) (n' : Nat) (q' : Text),
        Relation.ReflTransGen (TypeStep M) (parseType fe).2.func.types fe'.func.types →
        (parseType fe').1 = some tid' → Words fe'.cursor ws' q' → Phrase fe'.func.types ws' ks' n' →
        (tid = tid' ↔ ks = ks' ∧ n = n') := by
  have hgrows := TypeStep.grows (M := M) ⟨fe, rfl, rfl⟩ h
  refine ⟨fun q => ⟨?_, ?_⟩, ⟨hgrows.1, hgrows.2, fun hfail => ?_⟩, ?_⟩
  · rintro ⟨tid, hid, hq⟩
    rcases parseType_outcome h with ⟨ws, ks, n, q', hphrase, hwords, tid', more, hrun, -⟩ | ⟨hnone, -⟩
    · rw [hrun] at hq
      exact ⟨ws, ks, n, hq ▸ hwords, hphrase⟩
    · rw [hnone] at hid
      cases hid
  · rintro ⟨ws, ks, n, hwords, hphrase⟩
    obtain ⟨tid, more, hrun, -⟩ := parsesTo_of_phrase h hwords hphrase
    exact ⟨tid, by rw [hrun], by rw [hrun]; rfl⟩
  · exact congrArg Draft.types (parseTypeFrom_fails hfail)
  · intro tid ws ks n q hid hwords hphrase
    refine ⟨denotes_later h hid hwords hphrase List.prefix_rfl, ?_⟩
    intro fe' tid' ws' ks' n' q' hsteps hid' hwords' hphrase'
    obtain ⟨htable', hkept⟩ := typeSteps_grow hsteps hgrows.1
    have hgrows' := TypeStep.grows (M := M) ⟨fe', rfl, rfl⟩ htable'
    have hdenotes := denotes_later h hid hwords hphrase (List.IsPrefix.trans hkept hgrows'.2)
    have hdenotes' := denotes_later htable' hid' hwords' hphrase' List.prefix_rfl
    constructor
    · rintro rfl
      exact hdenotes.unique hdenotes'
    · rintro ⟨rfl, rfl⟩
      exact hdenotes.injective hgrows'.1.noTwins hdenotes'

end Sequences

/-- `Slice Array +3 byte x`, in a function with `int` and `byte` -/
def sliceOfArray : Frontend Unit where
  ctx := none
  func := {
    sig := { outs := [], ins := [] }
    types := [⟨{ kind := .int }, some (utf8 "int")⟩, ⟨{ kind := .byte }, some (utf8 "byte")⟩]
    vars := [] }
  macroVm := ()
  cursor := utf8 "Slice Array +3 byte x"

theorem sliceOfArray_table : TypeTable sliceOfArray.func.types := by
  refine ⟨⟨_, rfl⟩, fun i j t u x ht hu hview hview' => ?_⟩
  have hleaf : ∀ t ∈ sliceOfArray.func.types, t.wrapped = none := by decide
  rw [hleaf t (List.mem_of_getElem? ht)] at hview
  cases hview

theorem parseType_spec_sliceOfArray : (parseType sliceOfArray).1 = some 3 ∧
    Denotes NamedType.wrapped (parseType sliceOfArray).2.func.types 3 [.slice, .array 3] byteId := by
  have hword : ∀ {p p' q : Text} {token : Token} {w : Name} {ws : List Name},
      scanToken p = some (token, p') → token.bytes = w ∧ token.isParen = false → Words p' ws q →
      Words p (w :: ws) q := by
    rintro p p' q token w ws hscan ⟨rfl, hparen⟩ hrest
    exact .cons hscan hparen hrest
  have hwords : Words sliceOfArray.cursor [utf8 "Slice", utf8 "Array", utf8 "+3", utf8 "byte"]
      (utf8 " x") := by
    have hscan : scanToken sliceOfArray.cursor = some (⟨_, 5⟩, utf8 " Array +3 byte x") := rfl
    have hscan₁ : scanToken (utf8 " Array +3 byte x") = some (⟨_, 5⟩, utf8 " +3 byte x") := rfl
    have hscan₂ : scanToken (utf8 " +3 byte x") = some (⟨_, 2⟩, utf8 " byte x") := rfl
    have hscan₃ : scanToken (utf8 " byte x") = some (⟨_, 4⟩, utf8 " x") := rfl
    refine hword hscan (by decide) (hword hscan₁ (by decide) (hword hscan₂ (by decide) ?_))
    exact hword hscan₃ (by decide) (.nil _)
  have hnumeral : Numeral (utf8 "+3") ((3 : UInt32).toNat : Int) :=
    ⟨[0x2b], false, [0x33], .plus, by simp, by simp [isDigit], by decide, by decide⟩
  have hphrase : Phrase sliceOfArray.func.types
      [utf8 "Slice", utf8 "Array", utf8 "+3", utf8 "byte"] [.slice, .array 3] byteId :=
    .slice (.array hnumeral (.byte (.inr rfl)))
  have hid : (parseType sliceOfArray).1 = some 3 := by decide
  exact ⟨hid, ((parseType_spec sliceOfArray_table).2.2 3 _ _ _ _ hid hwords hphrase).1⟩

end TreeVM
