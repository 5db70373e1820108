import TreeVM.Compile.LaidOut
import TreeVM.Compile.Plans

/-!
# The instructions of a function

The bytes that the compiler produces are a sequence of instructions, also after the jump targets
have been patched, and the addresses in them come from the operations of the function.

* `Instr.blank`: an instruction without its jump targets;
* `Listing`: the code is a sequence of instructions, the open placeholders are targets of jumps;
* `Writes`: a part of the compiler that appends instructions and patches targets;
* `Instr.From`: where the addresses in an instruction come from;
* `Written`: code that was written instruction by instruction, with patches;
* `compileBody_listing`: the code of an accepted function.
-/

namespace TreeVM

/-! ## Sequences of instructions -/

def Instr.blank : Instr → Instr
  | .jump _ => .jump 0
  | .branchTop _ _ => .branchTop 0 0
  | .pushCrash _ => .pushCrash 0
  | i => i

theorem Instr.length_blank (i : Instr) : (encode i.blank).length = (encode i).length := by
  cases i <;> simp [blank, encode, operands, encodeOperands]

theorem Instr.targetsAt_blank (i : Instr) : i.blank.targetsAt = i.targetsAt := by
  cases i <;> rfl

theorem length_encodes {is js : List Instr} (h : is.map Instr.blank = js.map Instr.blank) :
    (is.flatMap encode).length = (js.flatMap encode).length := by
  have hsum : ∀ l : List Instr, (l.flatMap encode).length =
      ((l.map Instr.blank).map fun i => (encode i).length).sum := by
    intro l
    induction l with
    | nil => rfl
    | cons i l ih =>
        rw [List.flatMap_cons, List.length_append, ih]
        simp [Instr.length_blank]
  rw [hsum, hsum, h]

/-- `p` is the position of a jump target in the code of `is`. -/
def TargetAt (is : List Instr) (p : Nat) : Prop :=
  ∃ pre i post, is = pre ++ i :: post ∧ ∃ d ∈ i.targetsAt, p = (pre.flatMap encode).length + d

theorem TargetAt.append {is : List Instr} {p : Nat} (h : TargetAt is p) (js : List Instr) :
    TargetAt (is ++ js) p := by
  obtain ⟨pre, i, post, rfl, hd⟩ := h
  exact ⟨pre, i, post ++ js, by rw [List.append_assoc, List.cons_append], hd⟩

/-- The operand `d` bytes into a jump is overwritten. -/
def Instr.setTarget (t : Nat) : Nat → Instr → Instr
  | _, .jump _ => .jump (UInt16.ofNat t)
  | _, .pushCrash _ => .pushCrash (UInt16.ofNat t)
  | d, .branchTop yes no =>
      if d = 1 then .branchTop (UInt16.ofNat t) no else .branchTop yes (UInt16.ofNat t)
  | _, i => i

theorem Instr.blank_setTarget (t d : Nat) (i : Instr) : (i.setTarget t d).blank = i.blank := by
  cases i with
  | branchTop yes no =>
      rw [setTarget]
      split <;> rfl
  | _ => rfl

/-- A patched instruction is an instruction. -/
theorem Instr.encode_setTarget {i : Instr} {d : Nat} (hd : d ∈ i.targetsAt) (t : Nat) :
    encode (i.setTarget t d) = (encode i).take d ++ bytesOf 2 t ++ (encode i).drop (d + 2) := by
  cases i with
  | jump x =>
      obtain rfl : d = 1 := List.mem_singleton.mp hd
      simp only [setTarget, encode, operands, encodeOperands, bytesOf_offset]
      rfl
  | pushCrash x =>
      obtain rfl : d = 1 := List.mem_singleton.mp hd
      simp only [setTarget, encode, operands, encodeOperands, bytesOf_offset]
      rfl
  | branchTop x y =>
      rcases List.mem_cons.mp hd with rfl | hd
      · simp only [setTarget, if_true, encode, operands, encodeOperands, bytesOf_offset]
        rfl
      · obtain rfl : d = 3 := List.mem_singleton.mp hd
        have hne : ¬ (3 = 1) := by decide
        simp only [setTarget, if_neg hne, encode, operands, encodeOperands, bytesOf_offset]
        rfl
  | _ => cases hd

/-- How the compiler writes: instructions are emitted one after the other, each is logged with its
offset, and 16-bit operands of jumps are overwritten in place. -/
inductive Written : List Instr → Code → List Nat → Prop
  | start : Written [] [] []
  | emit {is : List Instr} {code : Code} {offsets : List Nat} (i : Instr)
      (h : Written is code offsets) :
      Written (is ++ [i]) (code ++ encode i) (offsets ++ [code.length])
  | patch {pre post : List Instr} {i : Instr} {code : Code} {offsets : List Nat} {d p : Nat}
      (t : Nat) (h : Written (pre ++ i :: post) code offsets) (hd : d ∈ i.targetsAt)
      (hp : p = (pre.flatMap encode).length + d) :
      Written (pre ++ i.setTarget t d :: post) (code.take p ++ bytesOf 2 t ++ code.drop (p + 2))
        offsets

/-- Overwriting an operand in the middle of a sequence of instructions. -/
theorem patch_flatMap {pre post : List Instr} {i : Instr} {d p : Nat} (hd : d ∈ i.targetsAt)
    (hp : p = (pre.flatMap encode).length + d) (t : Nat) :
    ((pre ++ i :: post).flatMap encode).take p ++ bytesOf 2 t ++
        ((pre ++ i :: post).flatMap encode).drop (p + 2) =
      (pre ++ i.setTarget t d :: post).flatMap encode := by
  subst hp
  obtain ⟨-, hinside⟩ := i.targetsAt_inside d hd
  simp only [List.flatMap_append, List.flatMap_cons, Instr.encode_setTarget hd]
  rw [List.take_append, List.drop_append]
  have htake : (pre.flatMap encode).take ((pre.flatMap encode).length + d) =
      pre.flatMap encode := List.take_of_length_le (Nat.le_add_right _ _)
  have hdrop : (pre.flatMap encode).drop ((pre.flatMap encode).length + d + 2) = [] :=
    List.drop_of_length_le (by omega)
  have hd₂ : (pre.flatMap encode).length + d + 2 - (pre.flatMap encode).length = d + 2 := by omega
  rw [htake, hdrop, Nat.add_sub_cancel_left, hd₂, List.take_append_of_le_length (by omega),
    List.drop_append_of_le_length (by omega)]
  simp

theorem Written.code_eq {is : List Instr} {code : Code} {offsets : List Nat}
    (h : Written is code offsets) : code = is.flatMap encode := by
  induction h with
  | start => rfl
  | emit i h ih => simp [ih]
  | patch t h hd hp ih => rw [ih, patch_flatMap hd hp]

/-- The code is a sequence of instructions that are `sk` up to their jump targets; the placeholders
`ps` and those of the open scopes are targets of jumps. -/
structure Listing (sk : List Instr) (ps : List Nat) (x : Output) : Prop where
  code : ∃ is : List Instr, is.map Instr.blank = sk ∧ Written is x.code (x.log.map Prod.fst)
  targets : ∀ p ∈ ps, TargetAt sk p
  pending : ∀ p ∈ x.pending, TargetAt sk p

/-- The targets of an emitted jump are new placeholders. -/
theorem Listing.emit {sk : List Instr} {ps : List Nat} {x x₁ : Output} (h : Listing sk ps x) (i : Instr)
    (hcode : x₁.code = x.code ++ encode i)
    (hlog : ∃ types, x₁.log = x.log ++ [(x.code.length, types)]) (hscopes : x₁.scopes = x.scopes) :
    Listing (sk ++ [i.blank]) (i.targetsAt.map (x.code.length + ·) ++ ps) x₁ := by
  obtain ⟨⟨is, rfl, his⟩, htargets, hpending⟩ := h
  obtain ⟨types, hlog⟩ := hlog
  have hemitted : Written (is ++ [i]) x₁.code (x₁.log.map Prod.fst) := by
    rw [hcode, hlog, List.map_append]
    exact .emit i his
  refine ⟨⟨is ++ [i], by simp, hemitted⟩, fun p hp => ?_, fun p hp => ?_⟩
  · rcases List.mem_append.mp hp with hp | hp
    · obtain ⟨d, hd, rfl⟩ := List.mem_map.mp hp
      refine ⟨is.map Instr.blank, i.blank, [], rfl, d, by rwa [Instr.targetsAt_blank], ?_⟩
      have hblank : is.map Instr.blank = (is.map Instr.blank).map Instr.blank := by
        rw [List.map_map]
        refine List.map_congr_left fun j _ => ?_
        cases j <;> rfl
      rw [his.code_eq, length_encodes hblank]
    · exact (htargets p hp).append _
  · rw [Output.pending, hscopes] at hp
    exact (hpending p hp).append _

/-- Instructions are appended, and placeholders become jump targets or are filled. -/
def Writes (Good : Instr → Prop) (ps : List Nat) (x : Output) (ps' : List Nat) (x' : Output) :
    Prop :=
  ∀ sk, Listing sk ps x → ∃ new, (∀ i ∈ new, Good i) ∧ Listing (sk ++ new) ps' x'

namespace Writes

variable {Good : Instr → Prop} {ps ps₁ ps₂ : List Nat} {x x₁ x₂ : Output}

theorem refl : Writes Good ps x ps x := by
  intro sk h
  refine ⟨[], by simp, ?_⟩
  rwa [List.append_nil]

theorem trans (h : Writes Good ps x ps₁ x₁) (h' : Writes Good ps₁ x₁ ps₂ x₂) :
    Writes Good ps x ps₂ x₂ := by
  intro sk hx
  obtain ⟨new, hnew, hx₁⟩ := h sk hx
  obtain ⟨new', hnew', hx₂⟩ := h' _ hx₁
  refine ⟨new ++ new', fun i hi => ?_, ?_⟩
  · exact (List.mem_append.mp hi).elim (hnew i) (hnew' i)
  · rwa [← List.append_assoc]

/-- Other placeholders stay open. -/
theorem frame (h : Writes Good [] x [] x₁) : Writes Good ps x ps x₁ := by
  intro sk hx
  obtain ⟨new, hnew, hx₁⟩ := h sk ⟨hx.code, by simp, hx.pending⟩
  exact ⟨new, hnew, hx₁.code, fun p hp => (hx.targets p hp).append new, hx₁.pending⟩

theorem of_eq (hcode : x₁.code = x.code) (hlog : x₁.log = x.log) (hscopes : x₁.scopes = x.scopes) :
    Writes Good ps x ps x₁ := by
  intro sk hx
  refine ⟨[], by simp, ?_⟩
  rw [List.append_nil]
  refine ⟨hcode ▸ hlog ▸ hx.code, hx.targets, fun p hp => hx.pending p ?_⟩
  rwa [Output.pending, hscopes] at hp

/-- An emitted jump opens its targets. -/
theorem emit (i : Instr) (hgood : Good i.blank) (hcode : x₁.code = x.code ++ encode i)
    (hlog : ∃ types, x₁.log = x.log ++ [(x.code.length, types)]) (hscopes : x₁.scopes = x.scopes) :
    Writes Good ps x (i.targetsAt.map (x.code.length + ·) ++ ps) x₁ :=
  fun _ hx => ⟨[i.blank], by simpa using hgood, hx.emit i hcode hlog hscopes⟩

theorem emit_plain {i : Instr} (hcode : x₁.code = x.code ++ encode i)
    (hlog : ∃ types, x₁.log = x.log ++ [(x.code.length, types)]) (hscopes : x₁.scopes = x.scopes) (hi : i.targetsAt = []) (hgood : Good i.blank) :
    Writes Good ps x ps x₁ := by
  have h : Writes Good ps x (i.targetsAt.map (x.code.length + ·) ++ ps) x₁ :=
    emit i hgood hcode hlog hscopes
  rwa [hi] at h

end Writes

/-- Overwriting a jump target leaves a sequence of instructions. -/
theorem Listing.patch {sk : List Instr} {ps : List Nat} {x : Output} {p : Nat}
    (h : Listing sk ps x) (hp : TargetAt sk p) (t : Nat) : Listing sk ps (x.patch p t) := by
  obtain ⟨⟨is, rfl, his⟩, htargets, hpending⟩ := h
  refine ⟨?_, htargets, hpending⟩
  obtain ⟨pre, i, post, hsk, d, hd, rfl⟩ := hp
  obtain ⟨pre', rest, rfl, hpre, hrest⟩ := List.map_eq_append_iff.mp hsk
  obtain ⟨i', post', rfl, rfl, hpost⟩ := List.map_eq_cons_iff.mp hrest
  have hlength : (pre.flatMap encode).length = (pre'.flatMap encode).length := by
    refine length_encodes ?_
    rw [← hpre, List.map_map]
    refine List.map_congr_left fun j _ => ?_
    cases j <;> rfl
  rw [Instr.targetsAt_blank] at hd
  refine ⟨pre' ++ i'.setTarget t d :: post', by simp [Instr.blank_setTarget], ?_⟩
  exact .patch t his hd (by rw [hlength])

/-- A placeholder is filled. -/
theorem Writes.patch {Good : Instr → Prop} {ps ps' : List Nat} {x : Output} {p : Nat} (t : Nat)
    (hp : p ∈ ps) (hsub : ps' ⊆ ps) : Writes Good ps x ps' (x.patch p t) := by
  intro sk h
  refine ⟨[], by simp, ?_⟩
  rw [List.append_nil]
  have hrest : Listing sk ps' x := ⟨h.code, fun q hq => h.targets q (hsub hq), h.pending⟩
  exact hrest.patch (h.targets p hp) t

theorem Listing.patches {sk : List Instr} {ps qs : List Nat} {x : Output}
    (h : Listing sk ps x) (hqs : ∀ q ∈ qs, TargetAt sk q) (t : Nat) :
    Listing sk ps (x.patches t qs) := by
  induction qs generalizing x with
  | nil => exact h
  | cons q qs ih =>
      exact ih (h.patch (hqs q List.mem_cons_self) t) fun r hr => hqs r (List.mem_cons_of_mem q hr)

/-! ## Operations -/

/-- The addresses in an instruction are those of the callees `asks` and of the globals that the
operations of the function push. -/
def Instr.From (f : Func) (ctx : Context) (place : Nat → UInt64) (asks : List Nat) : Instr → Prop
  | .call target _ => ∃ i ∈ asks, target = place i
  | .pushGlobal mem => ∃ op ∈ f.ops, op.kind = .pushGlobal ∧
      ∃ g, ctx.globals[op.extra.toNat]? = some g ∧ mem = g.mem
  | _ => True

section Ops

variable {env : CompileEnv} {asks ps : List Nat} {c c' : Compiler}

/-- A part of the compilation of a function whose callees are among `asks`. -/
abbrev WritesFrom (env : CompileEnv) (asks ps : List Nat) (c : Compiler) (ps' : List Nat)
    (c' : Compiler) : Prop :=
  Writes (Instr.From env.func env.ctx env.place asks) ps c.output ps' c'.output

theorem emit_writes {i : Instr} (hi : i.targetsAt = [])
    (hfrom : i.blank.From env.func env.ctx env.place asks) :
    WritesFrom env asks ps c ps (c.emit i) :=
  .emit_plain rfl ⟨_, rfl⟩ rfl hi hfrom

theorem compileBinary_writes {f : Nat → Nat → Option (BinOp × Nat)}
    (h : compileBinary c f = .ok c') : WritesFrom env asks ps c ps c' := by
  simp only [compileBinary, Compiler.fail] at h
  split at h
  · split at h
    · cases h
      exact .emit_plain rfl ⟨_, rfl⟩ rfl rfl trivial
    · cases h
  · cases h

theorem compileFuncCall_writes {idx : Nat}
    (hcallee : ∀ i t t', env.callee i t = .ok t' → i ∈ asks)
    (h : compileFuncCall env c idx = .ok c') : WritesFrom env asks ps c ps c' := by
  obtain ⟨t, ht, h⟩ := bind_eq_ok.mp h
  simp only [Compiler.fail] at h
  split at h
  · cases h
  · split at h
    · cases h
    · split at h
      · cases h
      · obtain ⟨-, rfl⟩ := popTypes_eq_ok h
        exact .emit_plain rfl ⟨_, rfl⟩ rfl rfl ⟨idx, hcallee _ _ _ ht, rfl⟩

theorem compileNativeCall_writes (h : compileNativeCall env c = .ok c') :
    WritesFrom env asks ps c ps c' := by
  simp only [compileNativeCall, Compiler.fail] at h
  split at h
  · cases h
  · split at h
    · split at h
      · cases h
      · split at h
        · cases h
        · split at h
          · cases h
          · obtain ⟨-, rfl⟩ := popTypes_eq_ok h
            exact .emit_plain rfl ⟨_, rfl⟩ rfl rfl trivial
    · cases h

theorem compileOp_writes (hcallee : ∀ i t t', env.callee i t = .ok t' → i ∈ asks) {op : Op}
    (hop : op ∈ env.func.ops) (h : compileOp env c op = .ok c') :
    WritesFrom env asks ps c ps c' := by
  obtain ⟨kind, x⟩ := op
  cases kind with
  | null =>
      cases h
      exact .refl
  | call => exact compileFuncCall_writes hcallee h
  | callNativeOnStack => exact compileNativeCall_writes h
  | bitNotAssign =>
      simp only [compileOp, compileBitNot, Compiler.fail] at h
      split at h
      · split at h
        · cases h
          exact emit_writes rfl trivial
        · cases h
      · cases h
  | drop =>
      obtain ⟨popped, -, h⟩ := bind_eq_ok.mp h
      cases h
      exact .emit_plain rfl ⟨_, rfl⟩ rfl rfl trivial
  | pushVar =>
      simp only [compileOp, emitPushVar, Compiler.fail] at h
      split at h
      · split at h
        · cases h
          exact .emit_plain rfl ⟨_, rfl⟩ rfl rfl trivial
        · cases h
      · cases h
  | pushArg =>
      simp only [compileOp, emitPushArg, Compiler.fail] at h
      split at h
      · split at h
        · cases h
          exact .emit_plain rfl ⟨_, rfl⟩ rfl rfl trivial
        · cases h
      · cases h
  | pushGlobal =>
      simp only [compileOp, compilePushGlobal, Compiler.fail] at h
      split at h
      · rename_i g hg
        split at h
        · cases h
          exact .emit_plain rfl ⟨_, rfl⟩ rfl rfl ⟨_, hop, rfl, g, hg, rfl⟩
        · cases h
      · cases h
  | structAt =>
      simp only [compileOp, compileStructAt, Compiler.fail] at h
      split at h
      · cases h
      · split at h
        · split at h
          · split at h
            · cases h
              exact .emit_plain rfl ⟨_, rfl⟩ rfl rfl trivial
            · cases h
          · cases h
        · cases h
  | assign | addAssign | subAssign | mulAssign | divAssign | andAssign | orAssign | xorAssign
  | arrAt | arrPush | arrDrop | sliceFromAr | sliceFromOne | sliceAt | sliceInc | sliceDec =>
      exact compileBinary_writes h

theorem compileOps_writes (hcallee : ∀ i t t', env.callee i t = .ok t' → i ∈ asks) {ops : List Op}
    (hops : ∀ op ∈ ops, op ∈ env.func.ops) (h : compileOps env ops c = .ok c') :
    WritesFrom env asks ps c ps c' := by
  induction ops generalizing c with
  | nil =>
      cases h
      exact .refl
  | cons op ops ih =>
      obtain ⟨c₁, hop, h⟩ := bind_eq_ok.mp h
      exact (compileOp_writes hcallee (hops op List.mem_cons_self) hop).trans
        (ih (fun o ho => hops o (List.mem_cons_of_mem op ho)) h)

end Ops

/-! ## Blocks -/

section Blocks

variable {env : CompileEnv} {asks ps : List Nat} {fuel : Nat} {c c' c₁ : Compiler} {r r₁ : Reach}

theorem emitPops_writes (n : Nat) (c : Compiler) :
    WritesFrom env asks ps c ps (emitPops n c) := by
  induction n generalizing c with
  | zero => exact .refl
  | succ n ih =>
      have hpop : WritesFrom env asks ps c ps (c.emit .popCrash) := emit_writes rfl trivial
      exact hpop.trans (ih (c.emit .popCrash))

theorem emitStorageAdd_writes {amount : Int16} (h : c.emitStorageAdd amount = .ok c') :
    WritesFrom env asks ps c ps c' := by
  simp only [Compiler.emitStorageAdd, Compiler.fail] at h
  split at h
  · cases h
  · cases h
    exact .emit_plain rfl ⟨_, rfl⟩ rfl rfl trivial

theorem patch_writes {p t : Nat} {ps' : List Nat} (h : c.patch p t = .ok c') (hp : p ∈ ps)
    (hsub : ps' ⊆ ps) : WritesFrom env asks ps c ps' c' := by
  obtain ⟨-, rfl⟩ := patch_eq_ok h
  exact .patch t hp hsub

/-- The jump behind a reachable end. -/
theorem emitEnd_writes {p : Nat}
    (h : (if r = .reachable then emitJump c else (0, c)) = (p, c')) :
    WritesFrom env asks ps c (openEnd r p ++ ps) c' := by
  cases r with
  | reachable =>
      cases h
      exact .emit (.jump 0) trivial rfl ⟨_, rfl⟩ rfl
  | unreachable =>
      cases h
      exact .refl

theorem patchEnd_writes {p : Nat}
    (h : (if r = .reachable then c.patch p c.code.length else pure c) = .ok c') :
    WritesFrom env asks (openEnd r p) c [] c' := by
  cases r with
  | reachable => exact patch_writes h (List.mem_singleton.mpr rfl) (List.nil_subset _)
  | unreachable =>
      cases h
      exact .refl

/-- The jumps out of a scope are filled when it ends. -/
theorem finishScope_writes {broken : Bool} (h : c.finishScope = .ok (broken, c')) :
    WritesFrom env asks ps c ps c' := by
  obtain ⟨s, rest, hscopes, -, houtput⟩ := finishScope_output h
  have hpending : ∀ p, p ∈ c.output.pending ↔ p ∈ s.patches ∨ p ∈ rest.flatMap Scope.patches := by
    intro p
    rw [Output.pending, c.output_scopes, hscopes, List.flatMap_cons, List.mem_append]
  intro sk hx
  refine ⟨[], by simp, ?_⟩
  have hpatches : ∀ q ∈ s.patches, TargetAt sk q := fun q hq =>
    hx.pending q ((hpending q).mpr (.inl hq))
  have hfilled := hx.patches hpatches c.code.length
  rw [List.append_nil, houtput]
  exact ⟨hfilled.code, hfilled.targets, fun p hp => hx.pending p ((hpending p).mpr (.inr hp))⟩

theorem endScope_writes (h : endScope r₁ c = .ok (r, c')) : WritesFrom env asks ps c ps c' := by
  obtain ⟨⟨broken, c₂⟩, hfinish, h⟩ := bind_eq_ok.mp h
  cases h
  exact finishScope_writes hfinish

theorem pushScope_writes (frameSize : Int16) : WritesFrom env asks ps c ps (c.pushScope frameSize) := by
  intro sk hx
  refine ⟨[], by simp, ?_⟩
  rw [List.append_nil]
  exact ⟨hx.code, hx.targets, hx.pending⟩

variable (hcallee : ∀ i t t', env.callee i t = .ok t' → i ∈ asks)
include hcallee

theorem compileBasic_writes {ops : OpRange} (h : compileBasic env c ops = .ok (r, c')) :
    WritesFrom env asks ps c ps c' := by
  simp only [compileBasic, Compiler.fail] at h
  split at h
  · cases h
  · rename_i l hl
    obtain ⟨c₁, hops, h⟩ := bind_eq_ok.mp h
    have hwrites : WritesFrom env asks ps c ps c₁ :=
      compileOps_writes hcallee (fun op hop => opsIn_mem hl hop) hops
    split at h
    · cases h
    · split at h
      · cases h
        exact hwrites
      · obtain ⟨c₂, hpop, h⟩ := bind_eq_ok.mp h
        obtain ⟨-, rfl⟩ := popTypes_eq_ok hpop
        cases h
        exact hwrites.trans (.emit_plain rfl ⟨_, rfl⟩ rfl rfl trivial)

theorem compileCond_writes {cond : OpRange} (h : compileCond env c cond = .ok c') :
    WritesFrom env asks ps c ps c' := by
  simp only [compileCond, Compiler.fail] at h
  split at h
  · cases h
  · rename_i l hl
    obtain ⟨c₁, hops, h⟩ := bind_eq_ok.mp h
    split at h
    · cases h
    · cases h
      exact compileOps_writes hcallee (fun op hop => opsIn_mem hl hop) hops

theorem branchYes_writes {cond : OpRange} {noPatch : Nat}
    (h : branchYes env cond c = .ok (noPatch, c')) :
    WritesFrom env asks [] c [noPatch] c' := by
  obtain ⟨c₁, hcond, h⟩ := bind_eq_ok.mp h
  obtain ⟨c₂, hpop, h⟩ := bind_eq_ok.mp h
  obtain ⟨c₃, hpatch, hc₃⟩ := bind_eq_ok.mp h
  obtain ⟨-, hc₂⟩ := popTypes_eq_ok hpop
  cases hc₃
  have hopen : WritesFrom env asks [] c₁ [c₁.code.length + 1, c₁.code.length + 3] c₂ := by
    rw [hc₂]
    exact .emit (.branchTop 0 0) trivial rfl ⟨_, rfl⟩ rfl
  exact ((compileCond_writes hcallee hcond).trans hopen).trans
    (patch_writes hpatch List.mem_cons_self (List.subset_cons_self _ _))

omit hcallee in
theorem branchNo_writes {before : Saved} {noPatch endPatch : Nat}
    (h : branchNo before noPatch r c = .ok (endPatch, c')) :
    WritesFrom env asks [noPatch] c (openEnd r endPatch) c' := by
  generalize hend : (if r = .reachable then emitJump c else (0, c)) = pair at h
  obtain ⟨p, c₁⟩ := pair
  simp only [branchNo, hend] at h
  obtain ⟨c₂, hpatch, h⟩ := bind_eq_ok.mp h
  cases h
  have hopen : WritesFrom env asks [noPatch] c (openEnd r endPatch ++ [noPatch]) c₁ :=
    emitEnd_writes hend
  have hopen : WritesFrom env asks [noPatch] c (openEnd r endPatch ++ [noPatch])
      (c₁.restore before) := hopen
  exact hopen.trans (patch_writes hpatch (List.mem_append_right _ List.mem_cons_self)
    (List.subset_append_left _ _))

omit hcallee in
theorem branchJoin_writes {endPatch : Nat} {yesR noR : Reach} {yesState : Saved}
    (h : branchJoin endPatch yesR yesState noR c = .ok (r, c')) :
    WritesFrom env asks (openEnd yesR endPatch) c [] c' := by
  simp only [branchJoin, ite_bind] at h
  obtain ⟨c₁, hend, h⟩ := bind_eq_ok.mp h
  have houtput : c'.output = c₁.output := by
    cases yesR <;> cases noR <;> simp only [Compiler.fail] at h
    · split at h
      · cases h
        rfl
      · cases h
    all_goals
      cases h
      rfl
  have hpatch : WritesFrom env asks (openEnd yesR endPatch) c [] c₁ := patchEnd_writes hend
  rw [WritesFrom, houtput]
  exact hpatch

omit hcallee in
theorem padHandler_writes {before : Saved} {padPatch endPatch : Nat}
    (h : padHandler before padPatch r c = .ok (endPatch, c')) :
    WritesFrom env asks [padPatch] c (openEnd r endPatch) c' := by
  generalize hend : (if r = .reachable then emitJump (padClosed r c) else (0, padClosed r c)) =
    pair at h
  obtain ⟨p, c₁⟩ := pair
  simp only [padHandler, hend] at h
  obtain ⟨c₂, hpatch, h⟩ := bind_eq_ok.mp h
  cases h
  have hclose : WritesFrom env asks [padPatch] c [padPatch] (padClosed r c) := by
    cases r with
    | reachable => exact .emit_plain rfl ⟨_, rfl⟩ rfl rfl trivial
    | unreachable => exact .refl
  have hopen : WritesFrom env asks [padPatch] (padClosed r c) (openEnd r endPatch ++ [padPatch]) c₁ :=
    emitEnd_writes hend
  have hopen : WritesFrom env asks [padPatch] (padClosed r c) (openEnd r endPatch ++ [padPatch])
      (c₁.restore before) := hopen
  exact (hclose.trans hopen).trans (patch_writes hpatch
    (List.mem_append_right _ List.mem_cons_self) (List.subset_append_left _ _))

omit hcallee in
theorem padEnd_writes {endPatch : Nat} {bodyR padR : Reach} {bodyState : Saved}
    (h : padEnd endPatch bodyR bodyState padR c = .ok (r, c')) :
    WritesFrom env asks (openEnd bodyR endPatch) c [] c' := by
  have hcrash : WritesFrom env asks (openEnd bodyR endPatch) c (openEnd bodyR endPatch)
      (if padR = .reachable then c.emit .crash else c) := by
    cases padR with
    | reachable => exact .emit_plain rfl ⟨_, rfl⟩ rfl rfl trivial
    | unreachable => exact .refl
  simp only [padEnd, ite_bind] at h
  generalize (if padR = .reachable then c.emit .crash else c) = c₀ at h hcrash
  obtain ⟨c₁, hend, h⟩ := bind_eq_ok.mp h
  have hpatch : WritesFrom env asks (openEnd bodyR endPatch) c₀ [] c₁ := patchEnd_writes hend
  have houtput : c'.output = c₁.output := by
    cases bodyR <;>
      cases h <;> rfl
  rw [WritesFrom, houtput]
  exact hcrash.trans hpatch

omit hcallee in
theorem compileBreak_writes {level : Nat} (h : compileBreak c level = .ok (r, c')) :
    WritesFrom env asks [] c [] c' := by
  cases level with
  | zero => cases h
  | succ outer =>
      simp only [compileBreak, Compiler.fail] at h
      split at h
      · cases h
      · rename_i s hs
        have hpops : WritesFrom env asks [] c [] (emitPops (c.crashDepth - s.crashDepth) c) :=
          emitPops_writes _ c
        have hsame := emitPops_same (c.crashDepth - s.crashDepth) c
        generalize emitPops (c.crashDepth - s.crashDepth) c = c₁ at h hpops hsame
        generalize hc₂ : (if s.frameSize - c₁.frameSize = 0 then c₁
          else c₁.emit (.storageAdd (s.frameSize - c₁.frameSize))) = c₂ at h
        have hclean : WritesFrom env asks [] c₁ [] c₂ ∧ c₂.scopes = c₁.scopes := by
          subst hc₂
          split
          · exact ⟨.refl, rfl⟩
          · exact ⟨emit_writes rfl trivial, rfl⟩
        cases h
        have hjump : WritesFrom env asks [] c₂ [c₂.code.length + 1] (c₂.emit (.jump 0)) :=
          .emit (.jump 0) trivial rfl ⟨_, rfl⟩ rfl
        refine ((hpops.trans hclean.1).trans hjump).trans ?_
        -- the operand becomes a placeholder of the scope
        intro sk hx
        refine ⟨[], by simp, ?_⟩
        rw [List.append_nil]
        refine ⟨hx.code, by simp, fun p hp => ?_⟩
        have hn : outer < c₂.scopes.length := by
          rw [hclean.2, hsame.scopes]
          exact (List.getElem?_eq_some_iff.mp hs).1
        rcases List.mem_cons.mp ((pending_addPatchAt hn).mem_iff.mp hp) with rfl | hp
        · exact hx.targets _ (List.mem_singleton.mpr rfl)
        · exact hx.pending p hp

end Blocks

/-- What the lemmas about blocks with parts assume of the parts. -/
def WritesAll (env : CompileEnv) (asks : List Nat) (fuel : Nat) : Prop :=
  ∀ i c r c', compileBlock env fuel i c = .ok (r, c') → WritesFrom env asks [] c [] c'

section Parts

variable {env : CompileEnv} {asks : List Nat} {fuel : Nat} {c c' : Compiler} {r r₁ : Reach}
  (hcallee : ∀ i t t', env.callee i t = .ok t' → i ∈ asks) (hblock : WritesAll env asks fuel)
include hblock

theorem compileChildren_writes {n : Nat} {cur next : Option Nat}
    (h : compileChildren env (compileBlock env fuel) n cur next r₁ c = .ok (r, c')) :
    WritesFrom env asks [] c [] c' := by
  induction n generalizing cur next r₁ c with
  | zero =>
      cases cur with
      | none =>
          cases h
          exact .refl
      | some child => cases h
  | succ n ih =>
      cases cur with
      | none =>
          cases h
          exact .refl
      | some child =>
          simp only [compileChildren, ite_bind] at h
          obtain ⟨⟨r₂, c₂⟩, hchild, h⟩ := bind_eq_ok.mp h
          have hfirst : WritesFrom env asks [] c [] c₂ := by
            split at hchild
            · exact hblock _ _ _ _ hchild
            · cases hchild
              exact .refl
          cases next with
          | none =>
              cases h
              exact hfirst
          | some l =>
              simp only [Compiler.fail] at h
              split at h
              · exact hfirst.trans (ih h)
              · cases h

theorem compileMany_writes {cur next : Option Nat}
    (h : compileMany env (compileBlock env fuel) fuel cur next c = .ok (r, c')) :
    WritesFrom env asks [] c [] c' := by
  obtain ⟨⟨r₁, c₁⟩, hinner, h⟩ := bind_eq_ok.mp h
  exact ((pushScope_writes c.frameSize).trans (compileChildren_writes hblock hinner)).trans
    (endScope_writes h)

omit hblock in
theorem varEnd_writes {v : Nat} {size oldFrame : Int16}
    (h : varEnd v size oldFrame r₁ c = .ok (r, c')) : WritesFrom env asks [] c [] c' := by
  simp only [varEnd, ite_bind] at h
  obtain ⟨c₁, hrelease, h⟩ := bind_eq_ok.mp h
  obtain ⟨⟨r₂, c₂⟩, hend, h⟩ := bind_eq_ok.mp h
  cases h
  have hleave : WritesFrom env asks [] c [] c₁ := by
    split at hrelease
    · exact emitStorageAdd_writes (c := setLive c v false) hrelease
    · cases hrelease
      exact .refl
  have hended : WritesFrom env asks [] c₁ [] c₂ := endScope_writes hend
  exact hleave.trans hended

theorem compileVar_writes {v body : Nat}
    (h : compileVar env (compileBlock env fuel) v body c = .ok (r, c')) :
    WritesFrom env asks [] c [] c' := by
  simp only [compileVar, Compiler.fail] at h
  split at h
  · cases h
  · split at h
    · cases h
    · split at h
      · cases h
      · obtain ⟨c₁, hadd, h⟩ := bind_eq_ok.mp h
        obtain ⟨⟨r₂, c₂⟩, hbody, h⟩ := bind_eq_ok.mp h
        have hadded : WritesFrom env asks [] _ [] c₁ := emitStorageAdd_writes hadd
        have hadded : WritesFrom env asks [] (c.pushScope c.frameSize) [] c₁ := hadded
        exact (((pushScope_writes c.frameSize).trans hadded).trans (hblock _ _ _ _ hbody)).trans
          (varEnd_writes h)

omit hblock in
theorem loopEnd_writes {start : Nat} {head : Saved} (h : loopEnd start head r₁ c = .ok (r, c')) :
    WritesFrom env asks [] c [] c' := by
  simp only [loopEnd, ite_bind] at h
  obtain ⟨c₁, hback, h⟩ := bind_eq_ok.mp h
  obtain ⟨⟨broken, c₂⟩, hfinish, h⟩ := bind_eq_ok.mp h
  cases h
  have hjump : WritesFrom env asks [] c [] c₁ := by
    split at hback
    · split at hback
      · cases hback
        -- the target of the jump back is known, it is no placeholder
        have hemit : WritesFrom env asks [] c [c.code.length + 1]
            (c.emit (.jump (UInt16.ofNat start))) :=
          .emit (.jump (UInt16.ofNat start)) trivial rfl ⟨_, rfl⟩ rfl
        intro sk hx
        obtain ⟨new, hnew, hx'⟩ := hemit sk hx
        exact ⟨new, hnew, hx'.code, by simp, hx'.pending⟩
      · cases hback
    · cases hback
      exact .refl
  have hfinished : WritesFrom env asks [] c₁ [] c₂ := finishScope_writes hfinish
  exact hjump.trans hfinished

theorem compileLoop_writes {body : Nat}
    (h : compileLoop (compileBlock env fuel) body c = .ok (r, c')) :
    WritesFrom env asks [] c [] c' := by
  obtain ⟨⟨r₁, c₁⟩, hbody, h⟩ := bind_eq_ok.mp h
  exact ((pushScope_writes c.frameSize).trans (hblock _ _ _ _ hbody)).trans (loopEnd_writes h)

theorem compileCrashPad_writes {body pad : Nat}
    (h : compileCrashPad (compileBlock env fuel) body pad c = .ok (r, c')) :
    WritesFrom env asks [] c [] c' := by
  rw [compileCrashPad_eq] at h
  obtain ⟨⟨bodyR, c₁⟩, hbody, h⟩ := bind_eq_ok.mp h
  obtain ⟨⟨endPatch, c₂⟩, hpad, h⟩ := bind_eq_ok.mp h
  obtain ⟨⟨padR, c₃⟩, hhandler, h⟩ := bind_eq_ok.mp h
  have hentered : WritesFrom env asks [] c [c.code.length + 1] (padBody c) :=
    .emit (.pushCrash 0) trivial rfl ⟨_, rfl⟩ rfl
  exact (((hentered.trans (hblock _ _ _ _ hbody).frame).trans (padHandler_writes hpad)).trans
    (hblock _ _ _ _ hhandler).frame).trans (padEnd_writes h)

include hcallee

theorem compileBranch_writes {cond : OpRange} {yes no : Nat}
    (h : compileBranch env (compileBlock env fuel) cond yes no c = .ok (r, c')) :
    WritesFrom env asks [] c [] c' := by
  rw [compileBranch_eq] at h
  obtain ⟨arms, harms, hjoin⟩ := bind_eq_ok.mp h
  obtain ⟨⟨noPatch, c₁⟩, hyes, harms⟩ := bind_eq_ok.mp harms
  obtain ⟨⟨yesR, c₂⟩, hfirst, harms⟩ := bind_eq_ok.mp harms
  obtain ⟨⟨endPatch, c₃⟩, hno, harms⟩ := bind_eq_ok.mp harms
  obtain ⟨⟨noR, c₄⟩, hsecond, harms⟩ := bind_eq_ok.mp harms
  cases harms
  have hyes : WritesFrom env asks [] c [noPatch] c₁ := branchYes_writes hcallee hyes
  exact (((hyes.trans (hblock _ _ _ _ hfirst).frame).trans (branchNo_writes hno)).trans
    (hblock _ _ _ _ hsecond).frame).trans (branchJoin_writes hjoin)

omit hblock in
theorem compileBlock_writes (fuel : Nat) : WritesAll env asks fuel := by
  induction fuel with
  | zero =>
      intro i c r c' h
      cases h
  | succ fuel ih =>
      intro i c r c' h
      rw [compileBlock] at h
      cases hblock : env.func.blocks[i]? with
      | none =>
          rw [hblock] at h
          cases h
      | some b =>
          rw [hblock] at h
          cases b with
          | basic ops => exact compileBasic_writes hcallee h
          | defer next cleanup => cases h
          | many cur next => exact compileMany_writes ih h
          | chain cur next => cases h
          | crash =>
              cases h
              exact emit_writes rfl trivial
          | hardCrash =>
              cases h
              exact emit_writes rfl trivial
          | crashPad body pad => exact compileCrashPad_writes ih h
          | branch cond yes no => exact compileBranch_writes hcallee ih h
          | loop body => exact compileLoop_writes ih h
          | brk level => exact compileBreak_writes h
          | var v body => exact compileVar_writes ih h

end Parts

/-! ## Functions -/

theorem finishFunc_writes {env : CompileEnv} {asks : List Nat} {c c' : Compiler}
    (h : finishFunc env.func c = .ok c') : WritesFrom env asks [] c [] c' := by
  simp only [finishFunc, Compiler.fail] at h
  split at h
  · cases h
  · cases h
    split
    · exact emit_writes rfl trivial
    · have hdrop : WritesFrom env asks [] c [] (c.emit (.dropN (UInt32.ofNat env.func.sig.ins.length))) :=
        emit_writes rfl trivial
      exact hdrop.trans (emit_writes rfl trivial)

section Functions

variable {f : Func} {ctx : Context} {place : Nat → UInt64} {fuel : Nat} {asks : List Nat}

/-- The code of an accepted function is written instruction by instruction. -/
theorem compileBody_written {callee : Nat → Table → Except Table Table} {t : Table} {c : Compiler}
    (hcallee : ∀ i t t', callee i t = .ok t' → i ∈ asks)
    (h : compileBody ctx place callee fuel f t = .ok c) :
    ∃ is : List Instr, Written is c.code (c.log.map Prod.fst) ∧ ∀ i ∈ is, i.From f ctx place asks := by
  rw [compileBody] at h
  split at h
  · cases h
  · cases h
  · rename_i types _ _
    obtain ⟨⟨r, c₁⟩, hblock, hfinish⟩ := bind_eq_ok.mp h
    let env : CompileEnv := ⟨f, types, ctx, place, callee⟩
    have hblock : WritesFrom env asks [] (.start f t) [] c₁ :=
      compileBlock_writes hcallee fuel _ _ _ _ hblock
    have hwrites := hblock.trans (finishFunc_writes hfinish)
    have hempty : Listing [] [] (Compiler.start f t).output :=
      ⟨⟨[], rfl, .start⟩, by simp, fun p hp => by cases hp⟩
    obtain ⟨new, hnew, ⟨is, his, hwritten⟩, -, -⟩ := hwrites [] hempty
    refine ⟨is, hwritten, fun i hi => ?_⟩
    have hblank := hnew i.blank (by
      rw [List.nil_append] at his
      rw [← his]
      exact List.mem_map_of_mem hi)
    cases i with
    | jump | branchTop | pushCrash => trivial
    | _ => exact hblank

/-- The code of an accepted function is a sequence of instructions. -/
theorem compileBody_listing {callee : Nat → Table → Except Table Table} {t : Table} {c : Compiler}
    (hcallee : ∀ i t t', callee i t = .ok t' → i ∈ asks)
    (h : compileBody ctx place callee fuel f t = .ok c) :
    ∃ is : List Instr, c.code = is.flatMap encode ∧ ∀ i ∈ is, i.From f ctx place asks := by
  obtain ⟨is, hwritten, hfrom⟩ := compileBody_written hcallee h
  exact ⟨is, hwritten.code_eq, hfrom⟩

/-- Callees are there if they are among `asks`. -/
def askedOnly (asks : List Nat) (i : Nat) (t : Table) : Except Table Table :=
  if i ∈ asks then .ok t else .error t

theorem mem_of_askedOnly {i : Nat} {t t' : Table} (h : askedOnly asks i t = .ok t') : i ∈ asks := by
  by_contra hnot
  have herror : askedOnly asks i t = .error t := if_neg hnot
  rw [herror] at h
  cases h

/-- The plan carried out with callees that change nothing. -/
theorem compileBody_of_plan {c : Compiler Unit} (h : (f.plan ctx place fuel).ends = some c) :
    compileBody ctx place (askedOnly (f.plan ctx place fuel).asks) fuel f [] = .ok (c.withTable []) := by
  let asks := (f.plan ctx place fuel).asks
  have hasks : ∀ js ⊆ asks, ∀ t, askAll (askedOnly asks) js t = .ok t := by
    intro js hjs t
    induction js with
    | nil => rfl
    | cons j js ih =>
        have hj : askedOnly asks j t = .ok t := if_pos (hjs List.mem_cons_self)
        rw [askAll, hj]
        exact ih fun i hi => hjs (List.mem_cons_of_mem j hi)
  rw [compileBody_eq_plan, hasks _ (List.Subset.refl _), h]
  rfl

/-- The addresses in the code are those of callees that the function asks for and of globals that it
pushes. -/
theorem plan_listing {c : Compiler Unit} (h : (f.plan ctx place fuel).ends = some c) :
    ∃ is : List Instr, c.code = is.flatMap encode ∧
      ∀ i ∈ is, i.From f ctx place (f.plan ctx place fuel).asks :=
  compileBody_listing (fun _ _ _ hi => mem_of_askedOnly hi) (compileBody_of_plan h)

end Functions

end TreeVM
