import TreeVM.Compile.Neutral

/-!
# The layout of the frame

`frame_size` and the bases of the locals are 16-bit numbers.

* `Passes`: the states in which `compile_block` and `compile_op` are called and return;
* `FrameOk`: the live locals lie side by side in the frame;
* `Reads`: what the operand of a `B_PUSH_VAR` addresses;
* `frame_layout`: in every state that the compiler passes no number has wrapped around.
-/

namespace TreeVM

/-- `compile_op` is called in this state, for an operation of a basic block or of a condition. -/
inductive Operates (env : CompileEnv) (start : Nat) (t : Table) (op : Op) (c' : Compiler) : Prop
  | basic {fuel i : Nat} {range : OpRange} {before behind : List Op} {c : Compiler}
      (h : Visits env start t (fuel + 1) i c)
      (hblock : env.func.blocks[i]? = some (.basic range))
      (hops : opsIn env range = some (before ++ op :: behind))
      (hbefore : compileOps env before c = .ok c')
  | test {fuel i yes no : Nat} {range : OpRange} {before behind : List Op} {c : Compiler}
      (h : Visits env start t (fuel + 1) i c)
      (hblock : env.func.blocks[i]? = some (.branch range yes no))
      (hops : opsIn env range = some (before ++ op :: behind))
      (hbefore : compileOps env before c = .ok c')

/-- `compile_block` or `compile_op` is called in this state, or returns with it. -/
inductive Passes (env : CompileEnv) (start : Nat) (t : Table) : Compiler → Prop
  | entry {fuel i : Nat} {c : Compiler} (h : Visits env start t fuel i c) : Passes env start t c
  | exit {fuel i : Nat} {c c' : Compiler} {r : Reach} (h : Visits env start t fuel i c)
      (hc : compileBlock env fuel i c = .ok (r, c')) : Passes env start t c'
  | opEntry {op : Op} {c : Compiler} (h : Operates env start t op c) : Passes env start t c
  | opExit {op : Op} {c c' : Compiler} (h : Operates env start t op c)
      (hc : compileOp env c op = .ok c') : Passes env start t c'

/-- The ranges `[a, a + m)` and `[b, b + n)` do not meet. -/
def RangesApart (a : Int) (m : Nat) (b : Int) (n : Nat) : Prop :=
  a + m ≤ b ∨ b + n ≤ a

theorem RangesApart.symm {a b : Int} {m n : Nat} (h : RangesApart a m b n) : RangesApart b n a m :=
  Or.symm h

/-- The live locals have disjoint ranges in the frame, and the scopes have smaller frames. -/
structure FrameOk (env : CompileEnv) (c : Compiler) : Prop where
  frame : 0 ≤ c.frameSize.toInt ∧ c.frameSize.toInt ≤ 32767
  inside : ∀ (v : Nat) (x : VarLayout), c.vars[v]? = some x → x.live = true →
    0 ≤ x.base.toInt ∧ x.base.toInt + stackSize env.types x.tid ≤ c.frameSize.toInt
  apart : ∀ (v w : Nat) (x y : VarLayout), v ≠ w → c.vars[v]? = some x → x.live = true → c.vars[w]? = some y →
    y.live = true →
    RangesApart x.base.toInt (stackSize env.types x.tid) y.base.toInt (stackSize env.types y.tid)
  scopes : ∀ s ∈ c.scopes, 0 ≤ s.frameSize.toInt ∧ s.frameSize.toInt ≤ c.frameSize.toInt

namespace FrameOk

variable {env : CompileEnv} {c c' : Compiler}

theorem le_max (x : Int16) : x.toInt ≤ 32767 := by
  have hlt := x.toInt_lt
  omega

theorem entries (h : FrameOk env c) :
    ∀ e ∈ c.entries, 0 ≤ e.1.toInt ∧ e.1.toInt ≤ c.frameSize.toInt :=
  List.forall_mem_map.mpr h.scopes

/-- The frame and the locals are those of another state, or fewer. -/
theorem of_inherits (h : FrameOk env c) (hinherits : Inherits c c')
    (hentries : ∀ e ∈ c'.entries, e ∈ c.entries ∨ e.1 = c.frameSize) : FrameOk env c' where
  frame := hinherits.frameSize.symm ▸ h.frame
  inside v x hx hlive := hinherits.frameSize.symm ▸ h.inside v x (hinherits.live v x hx hlive) hlive
  apart v w x y hne hx hxlive hy hylive :=
    h.apart v w x y hne (hinherits.live v x hx hxlive) hxlive (hinherits.live w y hy hylive) hylive
  scopes s hs := by
    rw [hinherits.frameSize]
    have hmem : s.entry ∈ c'.entries := List.mem_map_of_mem hs
    rcases hentries _ hmem with hold | hnew
    · exact h.entries _ hold
    · have hframe : s.frameSize = c.frameSize := hnew
      rw [hframe]
      exact ⟨h.frame.1, le_refl _⟩

theorem start (env : CompileEnv) (t : Table) : FrameOk env (.start env.func t) where
  frame := ⟨le_refl (0 : Int), le_max _⟩
  inside v x hx hlive := (not_live_start ⟨x, hx, hlive⟩).elim
  apart v w x y _ hx hlive := (not_live_start ⟨x, hx, hlive⟩).elim
  scopes s hs := by cases hs

/-- A new local lies behind the others. -/
theorem declared {p q : BlockCall} {v body tid : Nat} {ty : Ty} (h : FrameOk env p.state)
    (hdecl : Declared env p q v body tid ty) : FrameOk env q.state := by
  have hframe := hdecl.frame h.frame.1
  have hstack : stackSize env.types tid = ty.size.toNat := by
    simp [stackSize, hdecl.type]
  have hrecord : ∀ (w : Nat) (x : VarLayout), q.state.vars[w]? = some x → x.live = true →
      (w = v ∧ x.base = p.state.frameSize ∧ x.tid = tid) ∨ (w ≠ v ∧ p.state.vars[w]? = some x) := by
    intro w x hx hlive
    rw [hdecl.state] at hx
    by_cases hw : v = w
    · subst hw
      simp only [Compiler.enterVar, Compiler.emit, List.getElem?_set] at hx
      split at hx
      · split at hx
        · cases hx
          exact .inl ⟨rfl, rfl, rfl⟩
        · cases hx
      · contradiction
    · rw [enterVar_vars hw] at hx
      exact .inr ⟨Ne.symm hw, hx⟩
  have hbelow : ∀ (w : Nat) (x : VarLayout), p.state.vars[w]? = some x → x.live = true →
      RangesApart x.base.toInt (stackSize env.types x.tid) p.state.frameSize.toInt
        (stackSize env.types tid) := fun w x hx hlive => .inl (h.inside w x hx hlive).2
  refine ⟨⟨?_, le_max _⟩, fun w x hx hlive => ?_, fun w w' x y hne hx hxlive hy hylive => ?_,
    fun s hs => ?_⟩
  · have hlow := h.frame.1
    omega
  · rcases hrecord w x hx hlive with ⟨-, hbase, htid⟩ | ⟨-, hold⟩
    · rw [hbase, htid, hstack, hframe]
      exact ⟨h.frame.1, le_refl _⟩
    · have hinside := h.inside w x hold hlive
      exact ⟨hinside.1, by omega⟩
  · rcases hrecord w x hx hxlive with ⟨hw, hbase, htid⟩ | ⟨-, hold⟩
    · rcases hrecord w' y hy hylive with ⟨hw', -, -⟩ | ⟨-, hold'⟩
      · exact absurd (hw.trans hw'.symm) hne
      · rw [hbase, htid]
        exact (hbelow w' y hold' hylive).symm
    · rcases hrecord w' y hy hylive with ⟨-, hbase', htid'⟩ | ⟨-, hold'⟩
      · rw [hbase', htid']
        exact hbelow w x hold hxlive
      · exact h.apart w w' x y hne hold hxlive hold' hylive
  · rw [hdecl.state] at hs
    rcases List.mem_cons.mp hs with rfl | hs
    · exact ⟨h.frame.1, by
        show p.state.frameSize.toInt ≤ _
        omega⟩
    · have hold := h.scopes s hs
      exact ⟨hold.1, by omega⟩

/-- One step into a block. -/
theorem descends {p q : BlockCall} (h : FrameOk env p.state) (hstep : Descends env p q)
    {b : Block} (hb : env.func.blocks[p.idx]? = some b) : FrameOk env q.state := by
  rcases hstep.locals with hinherits | ⟨v, body, tid, ty, hdecl⟩
  · refine h.of_inherits hinherits fun e he => ?_
    rw [hstep.entries b hb] at he
    rcases List.mem_append.mp he with hnew | hold
    · exact .inr (congrArg Prod.fst (Block.mem_opened hnew).2)
    · exact .inl hold
  · exact h.declared hdecl

theorem sameFrame (h : FrameOk env c) (hsame : SameFrame c c') : FrameOk env c' :=
  h.of_inherits hsame.inherits fun _ he => .inl (hsame.entries ▸ he)

end FrameOk

section Points

variable {env : CompileEnv} {start fuel i : Nat} {t : Table} {c c' : Compiler}

theorem Visits.frameOk (h : Visits env start t fuel i c) : FrameOk env c := by
  suffices hall : ∀ q, Relation.ReflTransGen (Enters env) (.root env start t) q →
      FrameOk env q.state from hall _ (visits_iff.mp h)
  intro q hq
  induction hq with
  | refl => exact .start env t
  | @tail p q hprefix hq ih =>
      have hvisit : Visits env start t p.fuel p.idx p.state := visits_iff.mpr hprefix
      obtain ⟨b, hb⟩ := hq.block
      exact ih.descends (hq.descends hvisit.typed) hb

theorem Visits.exit_frameOk {r : Reach} (h : Visits env start t fuel i c)
    (hc : compileBlock env fuel i c = .ok (r, c')) : FrameOk env c' := by
  refine h.frameOk.of_inherits (compileBlock_keeps h.typed hc).toInherits fun e he => .inl ?_
  rw [(compileBlock_rests env fuel i c r c' hc).entries] at he
  exact he

theorem Operates.frameOk {op : Op} (h : Operates env start t op c) : FrameOk env c := by
  cases h with
  | basic hvisit _ _ hbefore => exact hvisit.frameOk.sameFrame (compileOps_same hbefore)
  | test hvisit _ _ hbefore => exact hvisit.frameOk.sameFrame (compileOps_same hbefore)

theorem Passes.frameOk (h : Passes env start t c) : FrameOk env c := by
  cases h with
  | entry h => exact h.frameOk
  | exit h hc => exact h.exit_frameOk hc
  | opEntry h => exact h.frameOk
  | opExit h hc => exact h.frameOk.sameFrame (compileOp_issues hc).same

end Points

/-! ## Operands -/

/-- With the frame of `c` on top of the storage, the operand `x` addresses the local recorded as
`l`: its first byte, and all its bytes are there. -/
structure Reads (env : CompileEnv) (c : Compiler) (l : VarLayout) (x : Int16) : Prop where
  operand : x.toInt = l.base.toInt - c.frameSize.toInt
  range : -32767 ≤ x.toInt ∧ x.toInt ≤ 0
  address : ∀ (menv : Env) (a : Alloc) (s : State) (offset depth : Nat), AtFrame c offset depth s →
    exec menv a s (.pushVar x) = s.push a (s.vm.storage.data + (offset + l.base.toInt.toNat)) ∧
      offset + l.base.toInt.toNat + stackSize env.types l.tid ≤ s.vm.storage.len

theorem FrameOk.reads {env : CompileEnv} {c : Compiler} (h : FrameOk env c) {v : Nat}
    {l : VarLayout} (hl : c.vars[v]? = some l) (hlive : l.live = true) :
    Reads env c l (l.base - c.frameSize) := by
  obtain ⟨hlow, hinside⟩ := h.inside v l hl hlive
  have hmax := h.frame.2
  have hoperand : (l.base - c.frameSize).toInt = l.base.toInt - c.frameSize.toInt := by
    rw [Int16.toInt_sub, Int.bmod_eq_of_le] <;> omega
  refine ⟨hoperand, by omega, fun menv a s offset depth hat => ?_⟩
  have hlen := hat.storage
  have hgood : ¬ badOffset s (l.base - c.frameSize).toInt := by
    rw [badOffset]
    omega
  constructor
  · have haddress : fromEnd s (l.base - c.frameSize).toInt =
        s.vm.storage.data + (offset + l.base.toInt.toNat) := by
      rw [fromEnd]
      omega
    simp only [exec, if_neg hgood, haddress]
  · omega

/-- What an operation emits in a state with a well-formed frame. -/
theorem FrameOk.operation {env : CompileEnv} {c c' : Compiler} {op : Op} (h : FrameOk env c)
    (hc : compileOp env c op = .ok c') : ∃ is : List Instr, c'.code = c.code ++ is.flatMap encode ∧
      ∀ x, Instr.pushVar x ∈ is → op.kind = .pushVar ∧
        ∃ l, c.vars[op.extra.toNat]? = some l ∧ l.live = true ∧ Reads env c l x := by
  cases compileOp_step hc with
  | none => exact ⟨[], by simp, by simp⟩
  | @pushVar l hkind hl hlive =>
      refine ⟨[.pushVar (l.base - c.frameSize)], ?_, fun x hx => ?_⟩
      · rw [List.flatMap_singleton]
        rfl
      · cases List.mem_singleton.mp hx
        exact ⟨hkind, l, hl, hlive, h.reads hl hlive⟩
  | @emit i ps t hi hps =>
      refine ⟨[i], ?_, fun x hx => absurd (List.mem_singleton.mp hx).symm (hi x)⟩
      rw [List.flatMap_singleton]
      rfl

/-! ## Every point -/

/-- The frame in every state that the compiler passes, and at every change of its size. -/
structure FrameLayout (env : CompileEnv) (start : Nat) (t : Table) : Prop where
  passes : ∀ c, Passes env start t c → FrameOk env c
  enter : ∀ p q v body tid ty, Visits env start t p.fuel p.idx p.state → Enters env p q →
    Declared env p q v body tid ty →
    q.state.frameSize.toInt = p.state.frameSize.toInt + ty.size.toNat ∧
      ∀ r c', compileBlock env q.fuel q.idx q.state = .ok (r, c') →
        (c'.frameSize + -Int16.ofNat ty.size.toNat).toInt = p.state.frameSize.toInt
  keep : ∀ p q, Visits env start t p.fuel p.idx p.state → Enters env p q →
    (¬ ∃ v body, env.func.blocks[p.idx]? = some (.var v body)) →
    q.state.frameSize = p.state.frameSize
  exit : ∀ fuel i c r c', Visits env start t fuel i c → compileBlock env fuel i c = .ok (r, c') →
    c'.frameSize = c.frameSize
  leave : ∀ c, Passes env start t c → ∀ s ∈ c.scopes,
    (s.frameSize - c.frameSize).toInt = s.frameSize.toInt - c.frameSize.toInt
  operand : ∀ op c c', Operates env start t op c → compileOp env c op = .ok c' →
    ∃ is : List Instr, c'.code = c.code ++ is.flatMap encode ∧ ∀ x, Instr.pushVar x ∈ is →
      op.kind = .pushVar ∧ ∃ l, c.vars[op.extra.toNat]? = some l ∧ l.live = true ∧ Reads env c l x

/-- **Frame layout.**  Whatever the function, the frame size and the bases of the live locals are
those of a layout in integers, and the operand of each `B_PUSH_VAR` addresses its local. -/
theorem frame_layout (env : CompileEnv) (start : Nat) (t : Table) : FrameLayout env start t where
  passes c h := h.frameOk
  enter p q v body tid ty h hq hdecl := by
    have hframe := hdecl.frame h.frame_nonneg
    refine ⟨hframe, fun r c' hc => ?_⟩
    have hsize := hdecl.size
    have hsizeInt : (Int16.ofNat ty.size.toNat).toInt = ty.size.toNat :=
      Int16.toInt_ofNat_of_lt (by omega)
    have hexit : c'.frameSize = q.state.frameSize :=
      (compileBlock_follows env _ _ _ _ _ (h.enters hq).typed hc).frameSize
    have hlow := h.frame_nonneg
    have hmax := (h.enters hq).frameOk.frame.2
    rw [← Int16.sub_eq_add_neg, Int16.toInt_sub, hexit, hframe, hsizeInt, Int.bmod_eq_of_le] <;> omega
  keep p q h hq hnot := by
    rcases (hq.descends h.typed).locals with hinherits | ⟨v, body, tid, ty, hdecl⟩
    · exact hinherits.frameSize
    · exact absurd ⟨v, body, hdecl.block⟩ hnot
  exit fuel i c r c' h hc := (compileBlock_follows env fuel i c r c' h.typed hc).frameSize
  leave c h s hs := by
    have hscope := h.frameOk.scopes s hs
    have hmax := h.frameOk.frame.2
    rw [Int16.toInt_sub, Int.bmod_eq_of_le] <;> omega
  operand op c c' h hc := h.frameOk.operation hc

end TreeVM
