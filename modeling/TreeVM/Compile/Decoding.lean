import TreeVM.Compile.Instructions

/-!
# Reading the code back

The machine reads instruction after instruction what the compiler has written.

* `starts`: the offsets of the instructions of a listing; `Written.offsets_eq`: these are logged;
* `decode`: the instructions from an offset on, read with `fetch`;
* `decode_encode`: any sequence of instructions is read back;
* `compileState_decodes`: the code of an accepted function.
-/

namespace TreeVM

/-- The offsets at which the instructions begin. -/
def starts : Nat → List Instr → List Nat
  | _, [] => []
  | o, i :: is => o :: starts (o + i.size) is

theorem Instr.size_pos (i : Instr) : 0 < i.size :=
  Nat.succ_pos _

theorem starts_append (o : Nat) (is js : List Instr) :
    starts o (is ++ js) = starts o is ++ starts (o + (is.flatMap encode).length) js := by
  induction is generalizing o with
  | nil => simp [starts]
  | cons i is ih =>
      rw [List.cons_append, starts, ih, starts, List.flatMap_cons, List.length_append,
        ← Nat.add_assoc]
      rfl

/-- Patching an operand moves nothing. -/
theorem Instr.size_setTarget (t d : Nat) (i : Instr) : (i.setTarget t d).size = i.size := by
  have hblank := congrArg (fun j => (encode j).length) (i.blank_setTarget t d)
  simp only [Instr.length_blank] at hblank
  exact hblank

/-- The log has the offsets of the instructions. -/
theorem Written.offsets_eq {is : List Instr} {code : Code} {offsets : List Nat}
    (h : Written is code offsets) : offsets = starts 0 is := by
  induction h with
  | start => rfl
  | emit i h ih => rw [starts_append, ih, Nat.zero_add, h.code_eq, starts, starts]
  | patch t h hd hp ih =>
      rename_i pre post i code offsets d p
      rw [ih, starts_append, starts_append, starts, starts, Instr.size_setTarget]

theorem getElem?_starts {o k : Nat} {is : List Instr} {i : Instr} (h : is[k]? = some i) :
    (starts o is)[k]? = some (o + ((is.take k).flatMap encode).length) := by
  induction is generalizing o k with
  | nil => cases h
  | cons j is ih =>
      cases k with
      | zero => rfl
      | succ k =>
          rw [starts, List.getElem?_cons_succ, ih h, List.take_succ_cons, List.flatMap_cons,
            List.length_append, ← Nat.add_assoc]
          rfl

/-! ## Decoding -/

/-- The instructions from `pc` up to `stop`, none if one of them is not read or goes too far. -/
def decode (code : Nat → UInt8) (stop : Nat) : Nat → Nat → Option (List Instr)
  | 0, pc => if pc = stop then some [] else none
  | fuel + 1, pc =>
      if pc = stop then some []
      else
        match fetch code pc with
        | none => none
        | some (i, next) => (decode code stop fuel next).map (i :: ·)

/-- A sequence of instructions is read back. -/
theorem decode_encode {code : Nat → UInt8} {is : List Instr} {pc fuel : Nat}
    (hat : At code pc (is.flatMap encode)) (hfuel : is.length ≤ fuel) :
    decode code (pc + (is.flatMap encode).length) fuel pc = some is := by
  induction is generalizing pc fuel with
  | nil => cases fuel <;> simp [decode]
  | cons i is ih =>
      cases fuel with
      | zero => cases hfuel
      | succ fuel =>
          rw [List.flatMap_cons, At.append] at hat
          rw [List.flatMap_cons, List.length_append, ← Nat.add_assoc, decode, if_neg]
          · rw [fetch_encode hat.1]
            have hrest := ih hat.2 (Nat.le_of_succ_le_succ hfuel)
            simp only [Instr.size, hrest, Option.map_some]
          · have hpos : 0 < (encode i).length := i.size_pos
            omega

/-- What is read at the start of one instruction. -/
theorem fetch_listing {code : Nat → UInt8} {is : List Instr} {base k : Nat} {i : Instr}
    (hat : At code base (is.flatMap encode)) (hi : is[k]? = some i) :
    fetch code (base + ((is.take k).flatMap encode).length) =
      some (i, base + ((is.take (k + 1)).flatMap encode).length) := by
  have hsplit : is = is.take k ++ i :: is.drop (k + 1) := by
    obtain ⟨hk, hget⟩ := List.getElem?_eq_some_iff.mp hi
    rw [← hget, ← List.drop_eq_getElem_cons hk, List.take_append_drop]
  rw [hsplit, List.flatMap_append, At.append, List.flatMap_cons, At.append] at hat
  rw [fetch_encode hat.2.1, List.take_add_one, hi, Option.toList_some, List.flatMap_append,
    List.length_append, ← Nat.add_assoc]
  simp [Instr.size]

theorem length_le_flatMap (is : List Instr) : is.length ≤ (is.flatMap encode).length := by
  induction is with
  | nil => exact Nat.le_refl 0
  | cons i is ih =>
      have hpos : 0 < (encode i).length := i.size_pos
      rw [List.flatMap_cons, List.length_append, List.length_cons]
      omega

/-! ## Accepted functions -/

section

variable {ctx : Context} {place : Nat → UInt64} {fuel base : Nat} {f : Func} {table : Table}
  {c : Compiler} {K : Nat → UInt8}

theorem compileState_written (h : compileState ctx place fuel f table = .ok c) :
    ∃ is, Written is c.code (c.log.map Prod.fst) := by
  cases fuel with
  | zero => cases h
  | succ fuel =>
      have hcallee : ∀ (i : Nat) (t t' : Table), contextFuncCode ctx
          (fun f table => (compileState ctx place fuel f table).map Compiler.result) i t = .ok t' →
          i ∈ List.range ctx.funcs.length := by
        intro i t t' hi
        rw [contextFuncCode] at hi
        split at hi
        · cases hi
        · rename_i g hg
          exact List.mem_range.mpr (List.getElem?_eq_some_iff.mp hg).1
      obtain ⟨is, hwritten, -⟩ := compileBody_written hcallee h
      exact ⟨is, hwritten⟩

/-- Wherever the code of an accepted function stands, the machine reads at the start of each emitted
instruction this instruction, and its program counter moves to the next one. -/
theorem compileState_decodes (h : compileState ctx place fuel f table = .ok c)
    (hat : At K base c.code) :
    ∃ is, Written is c.code (c.log.map Prod.fst) ∧
      decode K (base + c.code.length) c.code.length base = some is ∧
      c.log.length = is.length ∧
      ∀ (k : Nat) (i : Instr) (o : Nat), is[k]? = some i → (c.log.map Prod.fst)[k]? = some o →
        fetch K (base + o) =
          some (i, base + ((c.log.map Prod.fst)[k + 1]?).getD c.code.length) := by
  obtain ⟨is, hwritten⟩ := compileState_written h
  have hcode := hwritten.code_eq
  have hoffsets := hwritten.offsets_eq
  rw [hcode] at hat
  have hlength : ∀ o : Nat, (starts o is).length = is.length := by
    clear hwritten hcode hoffsets hat
    induction is with
    | nil => exact fun _ => rfl
    | cons i is ih => exact fun o => congrArg Nat.succ (ih (o + i.size))
  refine ⟨is, hwritten, ?_, ?_, fun k i o hi ho => ?_⟩
  · rw [hcode]
    exact decode_encode hat (length_le_flatMap is)
  · rw [← hlength 0, ← hoffsets, List.length_map]
  · rw [hoffsets, getElem?_starts hi, Nat.zero_add] at ho
    cases ho
    rw [fetch_listing hat hi, hoffsets]
    cases hnext : is[k + 1]? with
    | some j => rw [getElem?_starts hnext, Nat.zero_add, Option.getD_some]
    | none =>
        have hend : is.length ≤ k + 1 := List.getElem?_eq_none_iff.mp hnext
        rw [List.getElem?_eq_none (by rw [hlength]; exact hend), Option.getD_none, hcode,
          List.take_of_length_le hend]

/-- `f() { Var int y { y y add } }` -/
def addToSelf : Func where
  sig := ⟨[], []⟩
  types := [{ kind := .int }, { kind := .byte }]
  blocks := [.var 0 1, .basic ⟨0, 3⟩]
  ops := [⟨.pushVar, 0⟩, ⟨.pushVar, 0⟩, ⟨.addAssign, 0⟩]
  vars := [0]

/-- Storage is added, the local is pushed twice, added and dropped, storage is released, and the
function returns. -/
theorem compileState_decodes_addToSelf : ∃ c,
    compileState ⟨[], []⟩ (fun _ => 0) 3 addToSelf [] = .ok c ∧
    ∃ is, decode (c.code.getD · 0) c.code.length c.code.length 0 = some is ∧
      is.length = 7 ∧ fetch (c.code.getD · 0) 3 = some (.pushVar (-8), 6) := by
  obtain ⟨c, hc⟩ : ∃ c, compileState ⟨[], []⟩ (fun _ => 0) 3 addToSelf [] = .ok c := ⟨_, rfl⟩
  have hat : At (c.code.getD · 0) 0 c.code := by
    cases hc
    decide
  obtain ⟨is, -, hdecode, hlength, -⟩ := compileState_decodes hc hat
  rw [Nat.zero_add] at hdecode
  refine ⟨c, hc, is, hdecode, ?_, ?_⟩
  · rw [← hlength]
    cases hc
    rfl
  · cases hc
    rfl

end

end TreeVM
