import TreeVM.Compile.Patches
import TreeVM.Compile.Visits

/-!
# The outline of a block

What `compile_block` does to the bookkeeping of the compiler can be read off the blocks alone.

* `Outline`: whether the end is reached, the scopes that are broken out of, and the records of
  locals that are left behind, each with its distance from the frame size at the entry;
* `outline`: the outline of a block, by recursion on the blocks;
* `compileBlock_follows`: an accepted block has done to the state what its outline says, whatever
  the callees are.
-/

namespace TreeVM

/-- `breaks` holds levels counted from outside of the block, `decls` the latest record first. -/
structure Outline where
  reach : Reach
  breaks : List Nat := []
  decls : List (Nat × Int16) := []
  deriving DecidableEq, Repr

namespace Outline

def andThen (o o' : Outline) : Outline :=
  ⟨o'.reach, o.breaks ++ o'.breaks, o'.decls ++ o.decls⟩

/-- Leaving a scope. -/
def leave (o : Outline) : Outline :=
  { o with
    reach := if o.reach = .reachable ∨ 1 ∈ o.breaks then .reachable else .unreachable
    breaks := (o.breaks.filter (1 < ·)).map (· - 1) }

/-- The local is recorded before its body, and stays recorded when it is dead. -/
def var (o : Outline) (v : Nat) (size : Int16) : Outline :=
  { o.leave with decls := o.decls.map (fun d => (d.1, size + d.2)) ++ [(v, 0)] }

/-- A loop ends in the state of its head. -/
def loop (o : Outline) : Outline :=
  ⟨if 1 ∈ o.breaks then .reachable else .unreachable, o.leave.breaks, []⟩

def branch (yes no : Outline) : Outline :=
  ⟨if yes.reach = .reachable then .reachable else no.reach, yes.breaks ++ no.breaks,
    if yes.reach = .reachable then yes.decls else no.decls⟩

def crashPad (body pad : Outline) : Outline :=
  ⟨body.reach, body.breaks ++ pad.breaks,
    if body.reach = .reachable then body.decls else pad.decls⟩

end Outline

section

variable (env : CompileEnv)

/-- The size of a local as `compile_var` adds it to the frame. -/
def varSize (v : Nat) : Int16 :=
  match (env.func.vars[v]?).bind (env.types[·]?) with
  | some t => Int16.ofNat t.size.toNat
  | none => 0

def outlineChildren (block : Nat → Outline) : Nat → Option Nat → Option Nat → Outline
  | _, none, _ => { reach := .reachable }
  | 0, some _, _ => { reach := .unreachable }
  | fuel + 1, some child, link =>
      let o := block child
      if o.reach = .reachable then
        match link.bind (env.func.blocks[·]?) with
        | some (.chain cur next) => o.andThen (outlineChildren block fuel cur next)
        | _ => o
      else o

def outline : Nat → Nat → Outline
  | 0, _ => { reach := .unreachable }
  | fuel + 1, idx =>
      match env.func.blocks[idx]? with
      | some (.many cur next) => (outlineChildren env (outline fuel) fuel cur next).leave
      | some .crash => { reach := .unreachable }
      | some .hardCrash => { reach := .unreachable }
      | some (.crashPad body pad) => (outline fuel body).crashPad (outline fuel pad)
      | some (.branch _ yes no) => (outline fuel yes).branch (outline fuel no)
      | some (.loop body) => (outline fuel body).loop
      | some (.brk level) => { reach := .unreachable, breaks := [level] }
      | some (.var v body) => (outline fuel body).var v (varSize env v)
      | _ => { reach := .reachable }

end

/-! ## The records of locals -/

/-- The record of a local that has ended. -/
def VarLayout.ended (base : Int16) (x : VarLayout) : VarLayout :=
  { x with base := base, live := false }

/-- The records behind a block that was entered with the given frame size. -/
def settle (frame : Int16) : List (Nat × Int16) → List VarLayout → List VarLayout
  | [], vars => vars
  | (v, offset) :: decls, vars =>
      (settle frame decls vars).modify v (VarLayout.ended (frame + offset))

def dead (v : Nat) (vars : List VarLayout) : List VarLayout :=
  vars.modify v fun x => { x with live := false }

/-- The types that the compiler records for the locals are those of the function. -/
def Compiler.Typed (env : CompileEnv) (c : Compiler) : Prop :=
  c.vars.map VarLayout.tid = env.func.vars

theorem Compiler.typed_start (env : CompileEnv) (t : Table) :
    (Compiler.start env.func t).Typed env := by
  simp [Compiler.Typed, Compiler.start, Function.comp_def]

section Records

variable {frame : Int16} {decls : List (Nat × Int16)} {vars : List VarLayout} {v : Nat}

theorem settle_append (decls' : List (Nat × Int16)) :
    settle frame (decls ++ decls') vars = settle frame decls (settle frame decls' vars) := by
  induction decls with
  | nil => rfl
  | cons d decls ih => rw [List.cons_append, settle, settle, ih]

theorem settle_shift (size : Int16) :
    settle frame (decls.map fun d => (d.1, size + d.2)) vars =
      settle (frame + size) decls vars := by
  induction decls with
  | nil => rfl
  | cons d decls ih => rw [List.map_cons, settle, settle, ih, Int16.add_assoc]

theorem map_tid_settle (frame : Int16) (decls : List (Nat × Int16)) (vars : List VarLayout) :
    (settle frame decls vars).map VarLayout.tid = vars.map VarLayout.tid := by
  induction decls with
  | nil => rfl
  | cons d decls ih =>
      rw [settle, ← ih]
      apply List.ext_getElem?
      intro j
      simp only [List.getElem?_map, List.getElem?_modify]
      cases (settle frame decls vars)[j]? with
      | none => rfl
      | some x => by_cases hj : d.1 = j <;> simp [hj, VarLayout.ended]

theorem length_settle : (settle frame decls vars).length = vars.length := by
  have h := congrArg List.length (map_tid_settle frame decls vars)
  simpa using h

/-- A record that has ended is dead already. -/
theorem dead_settle : dead v (settle frame decls vars) = settle frame decls (dead v vars) := by
  induction decls with
  | nil => rfl
  | cons d decls ih =>
      rw [settle, settle, ← ih]
      apply List.ext_getElem?
      intro j
      simp only [dead, List.getElem?_modify]
      cases (settle frame decls vars)[j]? with
      | none => rfl
      | some x => by_cases hd : d.1 = j <;> by_cases hv : v = j <;> simp [hd, hv, VarLayout.ended]

theorem dead_dead : dead v (dead v vars) = dead v vars := by
  apply List.ext_getElem?
  intro j
  simp only [dead, List.getElem?_modify]
  cases vars[j]? with
  | none => rfl
  | some x => by_cases hv : v = j <;> simp [hv]

theorem map_tid_set {types : List Nat} (htyped : vars.map VarLayout.tid = types) {x : VarLayout}
    (htid : types[v]? = some x.tid) : (vars.set v x).map VarLayout.tid = vars.map VarLayout.tid := by
  subst htyped
  obtain ⟨hlen, hv⟩ := List.getElem?_eq_some_iff.mp htid
  rw [List.map_set, ← hv, List.set_getElem_self]

/-- What remains of the record that `compile_var` writes. -/
theorem dead_set {types : List Nat} (htyped : vars.map VarLayout.tid = types) {tid : Nat}
    (htid : types[v]? = some tid) :
    dead v (vars.set v ⟨tid, frame, true⟩) = settle frame [(v, 0)] vars := by
  subst htyped
  apply List.ext_getElem?
  intro j
  simp only [settle, dead, List.getElem?_modify, List.getElem?_set]
  by_cases hv : v = j
  · subst hv
    rw [List.getElem?_map, Option.map_eq_some_iff] at htid
    obtain ⟨x, hx, rfl⟩ := htid
    obtain ⟨hlen, rfl⟩ := List.getElem?_eq_some_iff.mp hx
    simp [hlen, VarLayout.ended]
  · simp [hv]

end Records

/-! ## What an accepted block has done -/

/-- Some break leaves the scope. -/
def Compiler.Broken (c : Compiler) (i : Nat) : Prop :=
  ∃ s, c.scopes[i]? = some s ∧ s.patches ≠ []

structure Follows (o : Outline) (c : Compiler) (r : Reach) (c' : Compiler) : Prop where
  reach : r = o.reach
  frameSize : c'.frameSize = c.frameSize
  crashDepth : c'.crashDepth = c.crashDepth
  vars : c'.vars = settle c.frameSize o.decls c.vars
  scopes : c'.scopes.length = c.scopes.length
  broken : ∀ i, c'.Broken i ↔ c.Broken i ∨ i + 1 ∈ o.breaks

theorem Follows.typed {env : CompileEnv} {o : Outline} {c c' : Compiler} {r : Reach}
    (h : Follows o c r c') (htyped : c.Typed env) : c'.Typed env := by
  rw [Compiler.Typed, h.vars, map_tid_settle]
  exact htyped

/-- The compiler emits code, counts types and compiles callees; the rest stays. -/
structure SameFrame (c c' : Compiler) : Prop where
  frameSize : c'.frameSize = c.frameSize
  crashDepth : c'.crashDepth = c.crashDepth
  vars : c'.vars = c.vars
  scopes : c'.scopes = c.scopes

namespace SameFrame

variable {c c' c'' : Compiler}

theorem refl (c : Compiler) : SameFrame c c :=
  ⟨rfl, rfl, rfl, rfl⟩

theorem trans (h : SameFrame c c') (h' : SameFrame c' c'') : SameFrame c c'' where
  frameSize := h'.frameSize.trans h.frameSize
  crashDepth := h'.crashDepth.trans h.crashDepth
  vars := h'.vars.trans h.vars
  scopes := h'.scopes.trans h.scopes

theorem broken (h : SameFrame c c') (i : Nat) : c'.Broken i ↔ c.Broken i := by
  rw [Compiler.Broken, Compiler.Broken, h.scopes]

theorem follows (h : SameFrame c c') {r : Reach} : Follows { reach := r } c r c' where
  reach := rfl
  frameSize := h.frameSize
  crashDepth := h.crashDepth
  vars := h.vars
  scopes := congrArg List.length h.scopes
  broken i := by simp [h.broken]

end SameFrame

/-- The positions of the jump targets in an instruction, counted from its opcode. -/
def Instr.targetsAt : Instr → List Nat
  | .jump _ => [1]
  | .branchTop _ _ => [1, 3]
  | .pushCrash _ => [1]
  | _ => []

/-- What an operation does to the compiler: at most one instruction is emitted, and no jump. -/
inductive Issues : Compiler → Compiler → Prop
  | none {c : Compiler} {ps : List Nat} {t : Table} : Issues c { c with params := ps, table := t }
  | some {c : Compiler} {i : Instr} {ps : List Nat} {t : Table} (h : i.targetsAt = []) :
      Issues c { ({ c with table := t } : Compiler).emit i with params := ps }

section Ops

variable {env : CompileEnv} {c c' : Compiler}

theorem Issues.same (h : Issues c c') : SameFrame c c' := by
  cases h with
  | none => exact ⟨rfl, rfl, rfl, rfl⟩
  | some h => exact ⟨rfl, rfl, rfl, rfl⟩

/-- An instruction that leaves the callees alone. -/
theorem Issues.emit {i : Instr} {ps : List Nat} (h : i.targetsAt = []) :
    Issues c { c.emit i with params := ps } :=
  .some (t := c.table) h

theorem compileBinary_issues {f : Nat → Nat → Option (BinOp × Nat)}
    (h : compileBinary c f = .ok c') : Issues c c' := by
  simp only [compileBinary, Compiler.fail] at h
  split at h
  · split at h
    · cases h
      exact .emit rfl
    · cases h
  · cases h

theorem compileFuncCall_issues {idx : Nat} (h : compileFuncCall env c idx = .ok c') :
    Issues c c' := by
  obtain ⟨t, -, h⟩ := bind_eq_ok.mp h
  simp only [Compiler.fail] at h
  split at h
  · cases h
  · split at h
    · cases h
    · split at h
      · cases h
      · obtain ⟨-, rfl⟩ := popTypes_eq_ok h
        exact .some (t := t) rfl

theorem compileNativeCall_issues (h : compileNativeCall env c = .ok c') : Issues c c' := by
  simp only [compileNativeCall, Compiler.fail] at h
  split at h
  · cases h
  · split at h
    · split at h
      · cases h
      · split at h
        · cases h
        · split at h
          · cases h
          · obtain ⟨-, rfl⟩ := popTypes_eq_ok h
            exact .emit rfl
    · cases h

theorem compileOp_issues {op : Op} (h : compileOp env c op = .ok c') : Issues c c' := by
  obtain ⟨kind, x⟩ := op
  cases kind with
  | null =>
      cases h
      exact .none (t := c.table)
  | call => exact compileFuncCall_issues h
  | callNativeOnStack => exact compileNativeCall_issues h
  | bitNotAssign =>
      simp only [compileOp, compileBitNot, Compiler.fail] at h
      split at h
      · split at h
        · cases h
          exact .emit rfl
        · cases h
      · cases h
  | drop =>
      obtain ⟨popped, -, h⟩ := bind_eq_ok.mp h
      cases h
      exact .emit rfl
  | pushVar =>
      simp only [compileOp, emitPushVar, Compiler.fail] at h
      split at h
      · split at h
        · cases h
          exact .emit rfl
        · cases h
      · cases h
  | pushArg =>
      simp only [compileOp, emitPushArg, Compiler.fail] at h
      split at h
      · split at h
        · cases h
          exact .emit rfl
        · cases h
      · cases h
  | pushGlobal =>
      simp only [compileOp, compilePushGlobal, Compiler.fail] at h
      split at h
      · split at h
        · cases h
          exact .emit rfl
        · cases h
      · cases h
  | structAt =>
      simp only [compileOp, compileStructAt, Compiler.fail] at h
      split at h
      · cases h
      · split at h
        · split at h
          · split at h
            · cases h
              exact .emit rfl
            · cases h
          · cases h
        · cases h
  | _ => exact compileBinary_issues h

theorem compileOps_same {ops : List Op} (h : compileOps env ops c = .ok c') : SameFrame c c' := by
  induction ops generalizing c with
  | nil =>
      cases h
      exact .refl _
  | cons op ops ih =>
      obtain ⟨c₁, hop, h⟩ := bind_eq_ok.mp h
      exact (compileOp_issues hop).same.trans (ih h)

theorem compileBasic_same {ops : OpRange} {r : Reach} (h : compileBasic env c ops = .ok (r, c')) :
    r = .reachable ∧ SameFrame c c' := by
  simp only [compileBasic, Compiler.fail] at h
  split at h
  · cases h
  · obtain ⟨c₁, hops, h⟩ := bind_eq_ok.mp h
    have hsame := compileOps_same hops
    split at h
    · cases h
    · split at h
      · cases h
        exact ⟨rfl, hsame⟩
      · obtain ⟨c₂, hpop, h⟩ := bind_eq_ok.mp h
        obtain ⟨-, rfl⟩ := popTypes_eq_ok hpop
        cases h
        exact ⟨rfl, hsame.trans ⟨rfl, rfl, rfl, rfl⟩⟩

theorem compileCond_same {cond : OpRange} (h : compileCond env c cond = .ok c') :
    SameFrame c c' := by
  simp only [compileCond, Compiler.fail] at h
  split at h
  · cases h
  · obtain ⟨c₁, hops, h⟩ := bind_eq_ok.mp h
    split at h
    · cases h
    · cases h
      exact compileOps_same hops

theorem emitPops_same (n : Nat) (c : Compiler) : SameFrame c (emitPops n c) := by
  induction n generalizing c with
  | zero => exact .refl c
  | succ n ih =>
      have hemit : SameFrame c (c.emit .popCrash) := ⟨rfl, rfl, rfl, rfl⟩
      exact hemit.trans (ih (c.emit .popCrash))

theorem patch_same {p t : Nat} (h : c.patch p t = .ok c') : SameFrame c c' := by
  obtain ⟨-, rfl⟩ := patch_eq_ok h
  exact ⟨rfl, rfl, rfl, rfl⟩

end Ops

/-! ## Blocks -/

theorem Outline.mem_leave {o : Outline} {i : Nat} :
    i + 1 ∈ o.leave.breaks ↔ i + 2 ∈ o.breaks := by
  simp only [leave, List.mem_map, List.mem_filter, decide_eq_true_eq]
  constructor
  · rintro ⟨j, ⟨hj, hlt⟩, hji⟩
    have hj' : j = i + 2 := by omega
    exact hj' ▸ hj
  · intro h
    exact ⟨i + 2, ⟨h, by omega⟩, by omega⟩

section Blocks

variable {env : CompileEnv} {c c' c₁ : Compiler} {r r₁ : Reach} {o o' : Outline}

theorem Follows.trans {c'' : Compiler} {r' : Reach} (h : Follows o c r c')
    (h' : Follows o' c' r' c'') : Follows (o.andThen o') c r' c'' where
  reach := h'.reach
  frameSize := h'.frameSize.trans h.frameSize
  crashDepth := h'.crashDepth.trans h.crashDepth
  vars := by
    rw [h'.vars, h.vars, h.frameSize, Outline.andThen, settle_append]
  scopes := h'.scopes.trans h.scopes
  broken i := by
    rw [h'.broken, h.broken, Outline.andThen, List.mem_append, or_assoc]

theorem broken_pushScope (c : Compiler) (frameSize : Int16) (i : Nat) :
    (c.pushScope frameSize).Broken i ↔ ∃ j, i = j + 1 ∧ c.Broken j := by
  cases i with
  | zero => simp [Compiler.Broken, Compiler.pushScope]
  | succ i => simp [Compiler.Broken, Compiler.pushScope]

theorem patchAll_same {t : Nat} {ps : List Nat} (h : c.patchAll t ps = .ok c') :
    SameFrame c c' := by
  obtain ⟨-, rfl⟩ := patchAll_eq_ok h
  exact ⟨rfl, rfl, rfl, rfl⟩

/-- The end of a scope removes the scope and tells whether it was broken out of. -/
theorem finishScope_eq_ok {broken : Bool} (h : c.finishScope = .ok (broken, c')) :
    (broken = true ↔ c.Broken 0) ∧ c'.frameSize = c.frameSize ∧ c'.crashDepth = c.crashDepth ∧
      c'.vars = c.vars ∧ c'.scopes.length + 1 = c.scopes.length ∧
      ∀ i, c'.Broken i ↔ c.Broken (i + 1) := by
  simp only [Compiler.finishScope, Compiler.fail] at h
  split at h
  · cases h
  · rename_i s rest hscopes
    obtain ⟨c₁, hpatch, h⟩ := bind_eq_ok.mp h
    have hsame := patchAll_same hpatch
    cases h
    refine ⟨?_, hsame.frameSize, hsame.crashDepth, hsame.vars, by simp [hscopes], fun i => ?_⟩
    · simp [Compiler.Broken, hscopes]
    · simp [Compiler.Broken, hscopes]

open Classical in
theorem endScope_eq_ok (h : endScope r₁ c₁ = .ok (r, c')) :
    r = (if r₁ = .reachable ∨ c₁.Broken 0 then .reachable else .unreachable) ∧
      c'.frameSize = c₁.frameSize ∧ c'.crashDepth = c₁.crashDepth ∧ c'.vars = c₁.vars ∧
      c'.scopes.length + 1 = c₁.scopes.length ∧ ∀ i, c'.Broken i ↔ c₁.Broken (i + 1) := by
  obtain ⟨⟨broken, c₂⟩, hfinish, h⟩ := bind_eq_ok.mp h
  obtain ⟨hbroken, hstate⟩ := finishScope_eq_ok hfinish
  cases h
  refine ⟨?_, hstate⟩
  simp only [hbroken]

/-- The scopes inside of a new scope, seen from outside. -/
theorem reach_leave (hreach : r₁ = o.reach)
    (hbroken : ∀ i, c₁.Broken i ↔ (c.pushScope c.frameSize).Broken i ∨ i + 1 ∈ o.breaks)
    (hend : endScope r₁ c₁ = .ok (r, c')) :
    r = o.leave.reach ∧ ∀ i, c'.Broken i ↔ c.Broken i ∨ i + 1 ∈ o.leave.breaks := by
  obtain ⟨hr, -, -, -, -, hscopes⟩ := endScope_eq_ok hend
  have hzero : c₁.Broken 0 ↔ 1 ∈ o.breaks := by
    rw [hbroken, broken_pushScope]
    simp
  constructor
  · simp only [hr, hreach, hzero, Outline.leave]
  · intro i
    rw [hscopes, hbroken, broken_pushScope, Outline.mem_leave]
    simp

theorem endScope_follows (h : Follows o (c.pushScope c.frameSize) r₁ c₁)
    (hend : endScope r₁ c₁ = .ok (r, c')) : Follows o.leave c r c' := by
  obtain ⟨hr, hbroken⟩ := reach_leave h.reach h.broken hend
  obtain ⟨-, hframe, hdepth, hvars, hlength, -⟩ := endScope_eq_ok hend
  have hscopes : c₁.scopes.length = c.scopes.length + 1 := h.scopes
  exact ⟨hr, hframe.trans h.frameSize, hdepth.trans h.crashDepth, hvars.trans h.vars, by omega,
    hbroken⟩

/-- What the lemmas about blocks with parts assume of the parts. -/
def FollowsAll (env : CompileEnv) (block : Nat → Compiler → Except Table (Reach × Compiler))
    (blockOutline : Nat → Outline) : Prop :=
  ∀ i c r c', c.Typed env → block i c = .ok (r, c') → Follows (blockOutline i) c r c'

variable {block : Nat → Compiler → Except Table (Reach × Compiler)} {blockOutline : Nat → Outline}

/-- Behind an unreachable end nothing is compiled. -/
theorem compileChildren_stays {fuel : Nat} {cur next : Option Nat}
    (h : compileChildren env block fuel cur next .unreachable c = .ok (r, c')) :
    r = .unreachable ∧ c' = c := by
  induction fuel generalizing cur next with
  | zero =>
      cases cur with
      | none =>
          cases h
          exact ⟨rfl, rfl⟩
      | some child => cases h
  | succ fuel ih =>
      cases cur with
      | none =>
          cases h
          exact ⟨rfl, rfl⟩
      | some child =>
          obtain ⟨⟨r₁, c₁⟩, hchild, h⟩ := bind_eq_ok.mp h
          cases hchild
          cases next with
          | none =>
              cases h
              exact ⟨rfl, rfl⟩
          | some l =>
              simp only [Compiler.fail] at h
              split at h
              · exact ih h
              · cases h

theorem compileChildren_follows {fuel : Nat} {cur next : Option Nat}
    (hblock : FollowsAll env block blockOutline) (htyped : c.Typed env)
    (h : compileChildren env block fuel cur next .reachable c = .ok (r, c')) :
    Follows (outlineChildren env blockOutline fuel cur next) c r c' := by
  induction fuel generalizing cur next c with
  | zero =>
      cases cur with
      | none =>
          cases h
          exact (SameFrame.refl _).follows
      | some child => cases h
  | succ fuel ih =>
      cases cur with
      | none =>
          cases h
          exact (SameFrame.refl _).follows
      | some child =>
          obtain ⟨⟨r₁, c₁⟩, hchild, h⟩ := bind_eq_ok.mp h
          have hfirst := hblock _ _ _ _ htyped hchild
          simp only [outlineChildren]
          cases next with
          | none =>
              cases h
              rw [← hfirst.reach]
              simpa using hfirst
          | some l =>
              simp only [Compiler.fail] at h
              split at h
              · rename_i cur next hlink
                rw [← hfirst.reach]
                cases r₁ with
                | reachable =>
                    have hrest := ih (hfirst.typed htyped) h
                    simpa [hlink] using hfirst.trans hrest
                | unreachable =>
                    obtain ⟨rfl, rfl⟩ := compileChildren_stays h
                    simpa using hfirst
              · cases h

theorem compileBreak_follows {level : Nat} (h : compileBreak c level = .ok (r, c')) :
    Follows { reach := .unreachable, breaks := [level] } c r c' := by
  cases level with
  | zero => cases h
  | succ outer =>
      simp only [compileBreak, Compiler.fail] at h
      split at h
      · cases h
      · rename_i target htarget
        cases h
        have hpops := emitPops_same (c.crashDepth - target.crashDepth) c
        generalize emitPops (c.crashDepth - target.crashDepth) c = c₁ at hpops ⊢
        generalize hc₂ : (if target.frameSize - c₁.frameSize = 0 then c₁
            else c₁.emit (.storageAdd (target.frameSize - c₁.frameSize))) = c₂
        have hcleanup : SameFrame c₁ c₂ := by
          subst hc₂
          split
          · exact .refl _
          · exact ⟨rfl, rfl, rfl, rfl⟩
        have hsame := hpops.trans hcleanup
        refine ⟨rfl, hsame.frameSize, hsame.crashDepth, hsame.vars, ?_, fun i => ?_⟩
        · simp [Compiler.addPatch, emitJump, Compiler.emit, hsame.scopes]
        simp only [Compiler.Broken, Compiler.addPatch, emitJump, Compiler.emit, hsame.scopes,
          List.getElem?_modify]
        by_cases hi : outer = i
        · subst hi
          simp [htarget]
        · simp [hi, Ne.symm hi]

theorem emitStorageAdd_follows {amount : Int16} (h : c.emitStorageAdd amount = .ok c') :
    c'.frameSize = c.frameSize + amount ∧ c'.crashDepth = c.crashDepth ∧ c'.vars = c.vars ∧
      c'.scopes = c.scopes := by
  simp only [Compiler.emitStorageAdd, Compiler.fail] at h
  split at h
  · cases h
  · cases h
    exact ⟨rfl, rfl, rfl, rfl⟩

theorem compileVar_follows {v body : Nat} (hblock : FollowsAll env block blockOutline)
    (htyped : c.Typed env) (h : compileVar env block v body c = .ok (r, c')) :
    Follows ((blockOutline body).var v (varSize env v)) c r c' := by
  simp only [compileVar, Compiler.fail] at h
  split at h
  · cases h
  · rename_i tid hvar
    split at h
    · cases h
    · rename_i t ht
      split at h
      · cases h
      · have hsize : varSize env v = Int16.ofNat t.size.toNat := by
          simp [varSize, hvar, ht]
        rw [← hsize] at h
        obtain ⟨c₁, hadd, h⟩ := bind_eq_ok.mp h
        obtain ⟨⟨r₂, c₂⟩, hbody, h⟩ := bind_eq_ok.mp h
        simp only [ite_bind] at h
        obtain ⟨c₃, hrelease, h⟩ := bind_eq_ok.mp h
        obtain ⟨⟨r₄, c₄⟩, hend, h⟩ := bind_eq_ok.mp h
        cases h
        obtain ⟨hframe₁, hdepth₁, hvars₁, hscopes₁⟩ := emitStorageAdd_follows hadd
        have htyped₁ : c₁.Typed env := by
          rw [Compiler.Typed, hvars₁]
          exact (map_tid_set htyped hvar).trans htyped
        have hinner := hblock _ _ _ _ htyped₁ hbody
        have hrelease : c₃.crashDepth = c₂.crashDepth ∧ c₃.scopes = c₂.scopes ∧
            dead v c₃.vars = dead v c₂.vars := by
          split at hrelease
          · obtain ⟨-, hdepth, hvars, hscopes⟩ := emitStorageAdd_follows hrelease
            rw [hdepth, hvars, hscopes]
            exact ⟨rfl, rfl, dead_dead⟩
          · cases hrelease
            exact ⟨rfl, rfl, rfl⟩
        obtain ⟨hdepth₃, hscopes₃, hvars₃⟩ := hrelease
        have hbroken₃ : ∀ i, c₃.Broken i ↔ (c.pushScope c.frameSize).Broken i ∨
            i + 1 ∈ (blockOutline body).breaks := by
          intro i
          have hc₁ : c₁.Broken i ↔ (c.pushScope c.frameSize).Broken i := by
            rw [Compiler.Broken, Compiler.Broken, hscopes₁]
          rw [← hc₁, ← hinner.broken, Compiler.Broken, Compiler.Broken, hscopes₃]
        obtain ⟨hr, hbroken⟩ := reach_leave hinner.reach hbroken₃ hend
        obtain ⟨-, -, hdepth₄, hvars₄, hlength, -⟩ := endScope_eq_ok hend
        refine ⟨hr, rfl, ?_, ?_, ?_, hbroken⟩
        · exact ((hdepth₄.trans hdepth₃).trans hinner.crashDepth).trans hdepth₁
        · calc dead v c₄.vars
              = dead v (settle c₁.frameSize (blockOutline body).decls c₁.vars) := by
                rw [hvars₄, hvars₃, hinner.vars]
            _ = settle c₁.frameSize (blockOutline body).decls
                  (settle c.frameSize [(v, 0)] c.vars) := by
                rw [dead_settle, hvars₁]
                exact congrArg _ (dead_set htyped hvar)
            _ = settle c.frameSize ((blockOutline body).var v (varSize env v)).decls c.vars := by
                rw [hframe₁, Outline.var, settle_append, settle_shift]
                rfl
        · have hscopes : c₂.scopes.length = c₁.scopes.length := hinner.scopes
          rw [hscopes₃, hscopes, hscopes₁] at hlength
          exact Nat.succ.inj hlength

/-! ## Branches, pads and loops -/

theorem branchYes_same {cond : OpRange} {noPatch : Nat}
    (h : branchYes env cond c = .ok (noPatch, c')) : SameFrame c c' := by
  obtain ⟨c₁, hcond, h⟩ := bind_eq_ok.mp h
  obtain ⟨c₂, hpop, h⟩ := bind_eq_ok.mp h
  obtain ⟨c₃, hpatch, hc₃⟩ := bind_eq_ok.mp h
  obtain ⟨-, hc₂⟩ := popTypes_eq_ok hpop
  have hemit : SameFrame c₁ c₂ := by
    rw [hc₂]
    exact ⟨rfl, rfl, rfl, rfl⟩
  cases hc₃
  exact ((compileCond_same hcond).trans hemit).trans (patch_same hpatch)

/-- `c'` is in the saved state, with the scopes of `c`. -/
structure Restored (before : Saved) (c c' : Compiler) : Prop where
  save : c'.save = before
  scopes : c'.scopes = c.scopes

theorem patch_restored {before : Saved} {p t : Nat} (hscopes : c₁.scopes = c.scopes)
    (hpatch : (c₁.restore before).patch p t = .ok c') : Restored before c c' := by
  obtain ⟨-, rfl⟩ := patch_eq_ok hpatch
  exact ⟨rfl, hscopes⟩

theorem branchNo_restored {before : Saved} {noPatch endPatch : Nat}
    (h : branchNo before noPatch r c = .ok (endPatch, c')) : Restored before c c' := by
  cases r with
  | reachable =>
      obtain ⟨c₁, hpatch, h⟩ := bind_eq_ok.mp h
      cases h
      exact patch_restored (by rfl) hpatch
  | unreachable =>
      obtain ⟨c₁, hpatch, h⟩ := bind_eq_ok.mp h
      cases h
      exact patch_restored (by rfl) hpatch

theorem padHandler_restored {before : Saved} {padPatch endPatch : Nat}
    (h : padHandler before padPatch r c = .ok (endPatch, c')) : Restored before c c' := by
  cases r with
  | reachable =>
      obtain ⟨c₁, hpatch, h⟩ := bind_eq_ok.mp h
      cases h
      exact patch_restored (by rfl) hpatch
  | unreachable =>
      obtain ⟨c₁, hpatch, h⟩ := bind_eq_ok.mp h
      cases h
      exact patch_restored (by rfl) hpatch

/-- A part that is compiled in a saved state, and what was compiled before it. -/
theorem Follows.after {before : Compiler} {c₁ c₂ c₃ : Compiler} {r₂ : Reach}
    (hscopes : ∀ i, c₁.Broken i ↔ before.Broken i ∨ i + 1 ∈ o.breaks)
    (hrestored : Restored before.save c₁ c₂) (h : Follows o' c₂ r₂ c₃) :
    c₃.frameSize = before.frameSize ∧ c₃.crashDepth = before.crashDepth ∧
      c₃.vars = settle before.frameSize o'.decls before.vars ∧
      c₃.scopes.length = c₁.scopes.length ∧ ∀ i, c₃.Broken i ↔ before.Broken i ∨ i + 1 ∈ o.breaks ++ o'.breaks := by
  have hframe : c₂.frameSize = before.frameSize := congrArg Saved.frameSize hrestored.save
  have hdepth : c₂.crashDepth = before.crashDepth := congrArg Saved.crashDepth hrestored.save
  have hvars : c₂.vars = before.vars := congrArg Saved.vars hrestored.save
  refine ⟨h.frameSize.trans hframe, h.crashDepth.trans hdepth, ?_, ?_, fun i => ?_⟩
  · rw [h.vars, hframe, hvars]
  · rw [h.scopes, hrestored.scopes]
  · have hbroken : c₂.Broken i ↔ c₁.Broken i := by
      rw [Compiler.Broken, Compiler.Broken, hrestored.scopes]
    rw [h.broken, hbroken, hscopes, List.mem_append, or_assoc]

theorem compileArms_eq_ok {cond : OpRange} {yes no : Nat} {arms : Arms}
    (h : compileArms env block cond yes no c = .ok arms) :
    ∃ noPatch c₁ c₂ c₃, branchYes env cond c = .ok (noPatch, c₁) ∧
      block yes c₁ = .ok (arms.yesR, c₂) ∧ arms.yesState = c₂.save ∧
      branchNo c.save noPatch arms.yesR c₂ = .ok (arms.endPatch, c₃) ∧
      block no c₃ = .ok (arms.noR, arms.last) := by
  obtain ⟨⟨noPatch, c₁⟩, hyes, h⟩ := bind_eq_ok.mp h
  obtain ⟨⟨yesR, c₂⟩, hfirst, h⟩ := bind_eq_ok.mp h
  obtain ⟨⟨endPatch, c₃⟩, hno, h⟩ := bind_eq_ok.mp h
  obtain ⟨⟨noR, c₄⟩, hsecond, h⟩ := bind_eq_ok.mp h
  cases h
  exact ⟨noPatch, c₁, c₂, c₃, hyes, hfirst, rfl, hno, hsecond⟩

/-- What both arms have done, the first one saved and the second one last. -/
structure ArmsFollow (yes no : Outline) (c : Compiler) (arms : Arms) : Prop where
  yesR : arms.yesR = yes.reach
  noR : arms.noR = no.reach
  yesState : arms.yesState = ⟨arms.yesState.params, settle c.frameSize yes.decls c.vars,
    c.frameSize, c.crashDepth⟩
  noState : arms.last.save = ⟨arms.last.params, settle c.frameSize no.decls c.vars,
    c.frameSize, c.crashDepth⟩
  scopes : arms.last.scopes.length = c.scopes.length
  broken : ∀ i, arms.last.Broken i ↔ c.Broken i ∨ i + 1 ∈ yes.breaks ++ no.breaks

theorem compileArms_follow {cond : OpRange} {yes no : Nat} {arms : Arms}
    (hblock : FollowsAll env block blockOutline) (htyped : c.Typed env)
    (h : compileArms env block cond yes no c = .ok arms) :
    ArmsFollow (blockOutline yes) (blockOutline no) c arms := by
  obtain ⟨noPatch, c₁, c₂, c₃, hyes, hfirst, hstate, hno, hsecond⟩ := compileArms_eq_ok h
  have hsame := branchYes_same hyes
  have htyped₁ : c₁.Typed env := by
    rw [Compiler.Typed, hsame.vars]
    exact htyped
  have hfollows := hblock _ _ _ _ htyped₁ hfirst
  have hrestored := branchNo_restored hno
  have htyped₃ : c₃.Typed env := by
    have hvars : c₃.vars = c.vars := congrArg Saved.vars hrestored.save
    rw [Compiler.Typed, hvars]
    exact htyped
  have hfollows' := hblock _ _ _ _ htyped₃ hsecond
  have hbroken₂ : ∀ i, c₂.Broken i ↔ c.Broken i ∨ i + 1 ∈ (blockOutline yes).breaks := by
    intro i
    rw [hfollows.broken, hsame.broken]
  obtain ⟨hframe, hdepth, hvars, hlength, hbroken⟩ := hfollows'.after hbroken₂ hrestored
  refine ⟨hfollows.reach, hfollows'.reach, ?_, ?_, ?_, hbroken⟩
  · rw [hstate, Compiler.save, hfollows.vars, hfollows.frameSize, hfollows.crashDepth,
      hsame.vars, hsame.frameSize, hsame.crashDepth]
  · rw [Compiler.save, hvars, hframe, hdepth]
  · rw [hlength, hfollows.scopes, hsame.scopes]

theorem Follows.of_save (ps : List Nat) (hreach : r = o.reach)
    (hsave : c'.save = ⟨ps, settle c.frameSize o.decls c.vars, c.frameSize, c.crashDepth⟩)
    (hscopes : c'.scopes.length = c.scopes.length)
    (hbroken : ∀ i, c'.Broken i ↔ c.Broken i ∨ i + 1 ∈ o.breaks) : Follows o c r c' where
  reach := hreach
  frameSize := congrArg Saved.frameSize hsave
  crashDepth := congrArg Saved.crashDepth hsave
  vars := congrArg Saved.vars hsave
  scopes := hscopes
  broken := hbroken

/-- The state behind a branch is that of an arm that reaches its end. -/
structure Joined (yesR : Reach) (yesState : Saved) (noR : Reach) (c : Compiler) (r : Reach)
    (c' : Compiler) : Prop where
  reach : r = if yesR = .reachable then .reachable else noR
  save : c'.save = if yesR = .reachable then yesState else c.save
  scopes : c'.scopes = c.scopes

theorem branchJoin_joined {endPatch : Nat} {yesR noR : Reach} {yesState : Saved}
    (h : branchJoin endPatch yesR yesState noR c = .ok (r, c')) :
    Joined yesR yesState noR c r c' := by
  simp only [branchJoin, ite_bind] at h
  cases yesR with
  | reachable =>
      obtain ⟨c₁, hpatch, h⟩ := bind_eq_ok.mp h
      have hsame := patch_same hpatch
      cases noR with
      | reachable =>
          simp only [Compiler.fail] at h
          split at h
          · cases h
            exact ⟨rfl, rfl, hsame.scopes⟩
          · cases h
      | unreachable =>
          cases h
          exact ⟨rfl, rfl, hsame.scopes⟩
  | unreachable =>
      obtain ⟨c₁, hc₁, h⟩ := bind_eq_ok.mp h
      cases hc₁
      cases noR with
      | reachable =>
          cases h
          exact ⟨rfl, rfl, rfl⟩
      | unreachable =>
          cases h
          exact ⟨rfl, rfl, rfl⟩

theorem compileBranch_follows {cond : OpRange} {yes no : Nat}
    (hblock : FollowsAll env block blockOutline) (htyped : c.Typed env)
    (h : compileBranch env block cond yes no c = .ok (r, c')) :
    Follows ((blockOutline yes).branch (blockOutline no)) c r c' := by
  rw [compileBranch_eq] at h
  obtain ⟨arms, harms, h⟩ := bind_eq_ok.mp h
  have hfollow := compileArms_follow hblock htyped harms
  have hjoined := branchJoin_joined h
  refine .of_save (if arms.yesR = .reachable then arms.yesState.params else
    arms.last.params) ?_ ?_ ?_ fun i => ?_
  · rw [hjoined.reach, hfollow.yesR, hfollow.noR, Outline.branch]
  · rw [hjoined.save, hfollow.yesState, hfollow.noState, Outline.branch, hfollow.yesR]
    split <;> rfl
  · rw [hjoined.scopes, hfollow.scopes]
  · rw [Compiler.Broken, hjoined.scopes]
    exact hfollow.broken i

theorem compileCrashPad_follows {body pad : Nat} (hblock : FollowsAll env block blockOutline)
    (htyped : c.Typed env) (h : compileCrashPad block body pad c = .ok (r, c')) :
    Follows ((blockOutline body).crashPad (blockOutline pad)) c r c' := by
  rw [compileCrashPad_eq] at h
  obtain ⟨⟨bodyR, c₁⟩, hbody, h⟩ := bind_eq_ok.mp h
  obtain ⟨⟨endPatch, c₂⟩, hpad, h⟩ := bind_eq_ok.mp h
  obtain ⟨⟨padR, c₃⟩, hhandler, h⟩ := bind_eq_ok.mp h
  simp only at hpad h
  have hentry : (padBody c).Typed env := htyped
  have hfollows := hblock _ _ _ _ hentry hbody
  have hrestored := padHandler_restored hpad
  have htyped₂ : c₂.Typed env := by
    have hvars : c₂.vars = c.vars := congrArg Saved.vars hrestored.save
    rw [Compiler.Typed, hvars]
    exact htyped
  have hfollows' := hblock _ _ _ _ htyped₂ hhandler
  have hbroken₁ : ∀ i, c₁.Broken i ↔ c.Broken i ∨ i + 1 ∈ (blockOutline body).breaks :=
    hfollows.broken
  obtain ⟨hframe, hdepth, hvars, hlength, hbroken⟩ := hfollows'.after hbroken₁ hrestored
  simp only [padEnd, ite_bind] at h
  obtain ⟨c₄, hend, h⟩ := bind_eq_ok.mp h
  have hlast : SameFrame c₃ c₄ := by
    have hcrash : SameFrame c₃ (if padR = .reachable then c₃.emit .crash else c₃) := by
      split
      · exact ⟨rfl, rfl, rfl, rfl⟩
      · exact .refl _
    split at hend
    · exact hcrash.trans (patch_same hend)
    · cases hend
      exact hcrash
  have hlength₄ : c₄.scopes.length = c.scopes.length := by
    rw [hlast.scopes, hlength]
    exact hfollows.scopes
  have hscopes : ∀ i, c₄.Broken i ↔ c.Broken i ∨
      i + 1 ∈ (blockOutline body).breaks ++ (blockOutline pad).breaks := by
    intro i
    rw [hlast.broken, hbroken]
  cases bodyR with
  | reachable =>
      cases h
      refine .of_save c₁.params hfollows.reach ?_ hlength₄ hscopes
      have hframe₁ : c₁.frameSize = c.frameSize := hfollows.frameSize
      have hdepth₁ : c₁.crashDepth = c.crashDepth + 1 := hfollows.crashDepth
      have hvars₁ : c₁.vars = settle c.frameSize (blockOutline body).decls c.vars := hfollows.vars
      simp only [padClosed, Compiler.save, Compiler.restore, Compiler.emit, Outline.crashPad,
        ← hfollows.reach, if_pos, hframe₁, hdepth₁, hvars₁, Nat.add_sub_cancel]
  | unreachable =>
      cases h
      refine .of_save c'.params hfollows.reach ?_ hlength₄ hscopes
      rw [Outline.crashPad, ← hfollows.reach, Compiler.save, hlast.frameSize, hlast.crashDepth,
        hlast.vars, hframe, hdepth, hvars]
      rfl

theorem compileLoop_follows {body : Nat} (hblock : FollowsAll env block blockOutline)
    (htyped : c.Typed env) (h : compileLoop block body c = .ok (r, c')) :
    Follows (blockOutline body).loop c r c' := by
  obtain ⟨⟨r₁, c₁⟩, hbody, h⟩ := bind_eq_ok.mp h
  simp only [ite_bind] at h
  obtain ⟨c₂, hback, h⟩ := bind_eq_ok.mp h
  obtain ⟨⟨broken, c₃⟩, hfinish, h⟩ := bind_eq_ok.mp h
  cases h
  have hhead : (c.pushScope c.frameSize).Typed env := htyped
  have hfollows := hblock _ _ _ _ hhead hbody
  have hsame : SameFrame c₁ c₂ := by
    simp only [Compiler.fail] at hback
    split at hback
    · split at hback
      · cases hback
        exact ⟨rfl, rfl, rfl, rfl⟩
      · cases hback
    · cases hback
      exact .refl _
  obtain ⟨hbroken, -, -, -, hlength, hscopes⟩ := finishScope_eq_ok hfinish
  have hinner : ∀ i, c₂.Broken i ↔ (c.pushScope c.frameSize).Broken i ∨
      i + 1 ∈ (blockOutline body).breaks := by
    intro i
    rw [hsame.broken, hfollows.broken]
  have hlength₁ : c₁.scopes.length = c.scopes.length + 1 := hfollows.scopes
  have hlength₃ : c₃.scopes.length = c.scopes.length := by
    rw [hsame.scopes, hlength₁] at hlength
    exact Nat.succ.inj hlength
  refine .of_save _ ?_ rfl hlength₃ fun i => ?_
  · have hzero : broken = true ↔ 1 ∈ (blockOutline body).breaks := by
      rw [hbroken, hinner, broken_pushScope]
      simp
    simp only [hzero, Outline.loop]
  · have hi : c₃.Broken i ↔ c.Broken i ∨ i + 2 ∈ (blockOutline body).breaks := by
      rw [hscopes, hinner, broken_pushScope]
      simp
    rw [Outline.loop, Outline.mem_leave]
    exact hi

end Blocks

/-- What an accepted block does to the state, whatever the callees are. -/
theorem compileBlock_follows (env : CompileEnv) (fuel : Nat) :
    FollowsAll env (compileBlock env fuel) (outline env fuel) := by
  induction fuel with
  | zero =>
      intro i c r c' _ h
      cases h
  | succ fuel ih =>
      intro i c r c' htyped h
      rw [compileBlock] at h
      rw [outline]
      cases hblock : env.func.blocks[i]? with
      | none =>
          rw [hblock] at h
          cases h
      | some b =>
          rw [hblock] at h
          cases b with
          | basic ops =>
              obtain ⟨rfl, hsame⟩ := compileBasic_same h
              exact hsame.follows
          | defer next cleanup => cases h
          | many cur next =>
              obtain ⟨⟨r₁, c₁⟩, hinner, hend⟩ := bind_eq_ok.mp h
              have htyped₀ : (c.pushScope c.frameSize).Typed env := htyped
              exact endScope_follows (compileChildren_follows ih htyped₀ hinner) hend
          | chain cur next => cases h
          | crash =>
              cases h
              have hsame : SameFrame c (c.emit .crash) := ⟨rfl, rfl, rfl, rfl⟩
              exact hsame.follows
          | hardCrash =>
              cases h
              have hsame : SameFrame c (c.emit .hardCrash) := ⟨rfl, rfl, rfl, rfl⟩
              exact hsame.follows
          | crashPad body pad => exact compileCrashPad_follows ih htyped h
          | branch cond yes no => exact compileBranch_follows ih htyped h
          | loop body => exact compileLoop_follows ih htyped h
          | brk level => exact compileBreak_follows h
          | var v body => exact compileVar_follows ih htyped h

end TreeVM
