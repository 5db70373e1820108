import TreeVM.Compile.Entered
import TreeVM.VM.Machine

/-!
# Blocks leave the state of the compiler as they found it

* `Encloses`: what the state of a call has from any call around it;
* `Leaves`: a break leaves the scope that a call has opened;
* `Neutral`, `Establishes`: the state behind a block, and the machine behind the code of a break;
* `compileBlock_neutral`: they agree.
-/

namespace TreeVM

/-! ## Calls inside of calls -/

/-- What the state of a call has from a call around it. -/
structure Encloses (env : CompileEnv) (p q : BlockCall) : Prop where
  typed : q.state.Typed env
  entries : ∀ b, env.func.blocks[p.idx]? = some b →
    b.opened p.state ++ p.state.entries <:+ q.state.entries
  params : env.func.CountsFit → p.state.params = [] → q.state.params = []
  depth : p.state.crashDepth ≤ q.state.crashDepth
  frame : 0 ≤ p.state.frameSize.toInt → p.state.frameSize.toInt ≤ q.state.frameSize.toInt
  under : Under env.func.blocks q.idx p.idx
  kept : ∀ v, ¬ Declares env.func.blocks p.idx v → q.state.vars[v]? = p.state.vars[v]?

section Encloses

variable {env : CompileEnv}

theorem Descends.encloses {p q : BlockCall} (h : Descends env p q) : Encloses env p q where
  typed := h.typed
  entries b hb := (h.entries b hb).symm ▸ List.suffix_refl _
  params := h.params
  depth := h.depth
  frame := h.frame
  under := h.under
  kept := h.kept

/-- A block that calls `compile_block` is there. -/
theorem Enters.block {p q : BlockCall} (h : Enters env p q) :
    ∃ b, env.func.blocks[p.idx]? = some b := by
  cases h with
  | child hblock _ => exact ⟨_, hblock⟩
  | varBody hblock _ _ _ _ => exact ⟨_, hblock⟩
  | yes hblock _ => exact ⟨_, hblock⟩
  | no hblock _ _ _ => exact ⟨_, hblock⟩
  | loopBody hblock => exact ⟨_, hblock⟩
  | padBody hblock => exact ⟨_, hblock⟩
  | pad hblock _ _ => exact ⟨_, hblock⟩

/-- One more call inside. -/
theorem Encloses.tail {p q q' : BlockCall} (h : Encloses env p q) (hq : Enters env q q') :
    Encloses env p q' := by
  have hstep := hq.descends h.typed
  obtain ⟨b', hb'⟩ := hq.block
  refine ⟨hstep.typed, fun b hb => ?_, fun hcounts hempty => ?_, h.depth.trans hstep.depth,
    fun hframe => ?_, Relation.TransGen.trans hstep.under h.under, fun v hv => ?_⟩
  · rw [hstep.entries b' hb']
    exact (h.entries b hb).trans (List.suffix_append _ _)
  · exact hstep.params hcounts (h.params hcounts hempty)
  · have hlow := h.frame hframe
    exact hlow.trans (hstep.frame (hframe.trans hlow))
  · have hv' : ¬ Declares env.func.blocks q.idx v := fun hdecl => hv (hdecl.up h.under)
    exact (hstep.kept v hv').trans (h.kept v hv)

theorem encloses_of_enters {p q : BlockCall} (htyped : p.state.Typed env)
    (h : Relation.TransGen (Enters env) p q) : Encloses env p q := by
  induction h with
  | single hstep => exact (hstep.descends htyped).encloses
  | tail _ hstep ih => exact ih.tail hstep

end Encloses

/-! ## Every call -/

section Visits

variable {env : CompileEnv} {start fuel i : Nat} {t : Table} {c : Compiler}

/-- What holds at the start and is passed on to the parts of a block holds at every call. -/
theorem Visits.induct {P : BlockCall → Prop} (hroot : P (.root env start t))
    (hstep : ∀ p q, Descends env p q → P p → P q) (h : Visits env start t fuel i c) :
    P ⟨fuel, i, c⟩ := by
  suffices hall : ∀ q, Relation.ReflTransGen (Enters env) (.root env start t) q → P q from
    hall _ (visits_iff.mp h)
  intro q hq
  induction hq with
  | refl => exact hroot
  | @tail p q hprefix hq ih =>
      have hvisit : Visits env start t p.fuel p.idx p.state := visits_iff.mpr hprefix
      exact hstep p q (hq.descends hvisit.typed) ih

theorem Visits.params (h : Visits env start t fuel i c) (hcounts : env.func.CountsFit) :
    c.params = [] :=
  h.induct (P := fun p => p.state.params = []) rfl fun _ _ hstep hp => hstep.params hcounts hp

theorem Visits.frame_nonneg (h : Visits env start t fuel i c) : 0 ≤ c.frameSize.toInt :=
  h.induct (P := fun p => 0 ≤ p.state.frameSize.toInt) (le_refl (0 : Int))
    fun _ _ hstep hp => hp.trans (hstep.frame hp)

/-- A block that is compiled is in the tree at block `0`. -/
theorem Visits.under (h : Visits env start t fuel i c) : i = 0 ∨ Under env.func.blocks i 0 := by
  refine h.induct (P := fun p => p.idx = 0 ∨ Under env.func.blocks p.idx 0) (.inl rfl)
    fun p q hstep hp => .inr ?_
  have hunder := hstep.under
  rcases hp with hp | hp
  · rw [hp] at hunder
    exact hunder
  · exact Relation.TransGen.trans hunder hp

theorem not_live_start {v : Nat} : ¬ (Compiler.start env.func t).Live v := by
  rintro ⟨x, hx, hlive⟩
  simp only [Compiler.start, List.getElem?_map, Option.map_eq_some_iff] at hx
  obtain ⟨tid, -, rfl⟩ := hx
  cases hlive

/-- A live local is one of those around the block. -/
theorem Visits.live (h : Visits env start t fuel i c) {v : Nat} (hv : c.Live v) :
    ∃ j body, env.func.blocks[j]? = some (.var v body) ∧ (j = 0 ∨ Under env.func.blocks j 0) ∧
      Under env.func.blocks i j := by
  suffices hall : (i = 0 ∨ Under env.func.blocks i 0) ∧ ∀ v, c.Live v → ∃ j body,
      env.func.blocks[j]? = some (.var v body) ∧ (j = 0 ∨ Under env.func.blocks j 0) ∧
        Under env.func.blocks i j from hall.2 v hv
  refine h.induct (P := fun p => (p.idx = 0 ∨ Under env.func.blocks p.idx 0) ∧ ∀ v, p.state.Live v →
    ∃ j body, env.func.blocks[j]? = some (.var v body) ∧ (j = 0 ∨ Under env.func.blocks j 0) ∧
      Under env.func.blocks p.idx j) ⟨.inl rfl, fun v hv => (not_live_start hv).elim⟩ ?_
  rintro p q hstep ⟨hzero, hlive⟩
  constructor
  · have hunder := hstep.under
    rcases hzero with hp | hp
    · rw [hp] at hunder
      exact .inr hunder
    · exact .inr (Relation.TransGen.trans hunder hp)
  · intro v hv
    rcases hstep.live hv with hv | ⟨body, hbody⟩
    · obtain ⟨j, body, hj, hj0, hpj⟩ := hlive v hv
      exact ⟨j, body, hj, hj0, Relation.TransGen.trans hstep.under hpj⟩
    · exact ⟨p.idx, body, hbody, hzero, hstep.under⟩

end Visits

/-- No local is declared again inside of its own body. -/
def Func.VarsApart (f : Func) : Prop :=
  ∀ i j v body body', f.blocks[i]? = some (.var v body) → f.blocks[j]? = some (.var v body') →
    (i = 0 ∨ Under f.blocks i 0) → ¬ Under f.blocks j i

/-! ## The machine behind a break -/

/-- One round, whatever `realloc` answers. -/
def Proceeds (env : Env) (s s' : State) : Prop :=
  ∀ a, step env a s = .running s'

/-- The machine is where the compiler takes it to be: the frame begins at `offset`, and `depth` pads
were there before the function. -/
structure AtFrame (c : Compiler) (offset depth : Nat) (s : State) : Prop where
  storage : (s.vm.storage.len : Int) = offset + c.frameSize.toInt
  crash : s.vm.crash.length = depth + c.crashDepth

/-- The code of a break, ending in a jump, takes the machine from the state of `c` to that of
`c'`. -/
def Establishes (c c' : Compiler) (is : List Instr) : Prop :=
  ∀ (env : Env) (s : State) (offset depth : Nat) (target : UInt16), AtFrame c offset depth s →
    At env.code s.pc ((is ++ [Instr.jump target]).flatMap encode) →
    ∃ s', Relation.ReflTransGen (Proceeds env) s s' ∧ AtFrame c' offset depth s' ∧
      s'.pc = s.base + target.toNat ∧ s'.vm.params = s.vm.params ∧ s'.vm.mem = s.vm.mem ∧
      s'.vm.crash <:+ s.vm.crash

section Machine

variable {env : Env} {s s' : State}

theorem proceeds_of_exec {i : Instr} (hat : At env.code s.pc (encode i))
    (hexec : ∀ a, exec env a { s with pc := s.pc + i.size } i = .next s') : Proceeds env s s' := by
  intro a
  simp only [step, fetch_encode hat, hexec a, Exec.status]

/-- The state behind `n` times `B_POP_CRASH`. -/
def State.popped (s : State) (n : Nat) : State :=
  { s with vm := { s.vm with crash := s.vm.crash.drop n }, pc := s.pc + n }

theorem pops_proceed {n : Nat} (hn : n ≤ s.vm.crash.length)
    (hat : At env.code s.pc ((List.replicate n Instr.popCrash).flatMap encode)) :
    Relation.ReflTransGen (Proceeds env) s (s.popped n) := by
  induction n generalizing s with
  | zero => exact .refl
  | succ n ih =>
      rw [List.replicate_succ, List.flatMap_cons, At.append] at hat
      obtain ⟨pad, rest, hcrash⟩ := List.exists_cons_of_length_pos (Nat.lt_of_lt_of_le (Nat.succ_pos n) hn)
      have hfirst : Proceeds env s (s.popped 1) := by
        refine proceeds_of_exec hat.1 fun a => ?_
        simp only [exec, hcrash]
        simp [State.popped, hcrash, Instr.size, encode, Instr.operands, encodeOperands]
      have hrest := ih (s := s.popped 1) (by simp [State.popped]; omega) hat.2
      have hall : (s.popped 1).popped n = s.popped (n + 1) := by
        simp [State.popped, Nat.add_assoc, Nat.add_comm 1 n]
      rw [hall] at hrest
      exact Relation.ReflTransGen.head hfirst hrest

/-- The state behind a `B_STORAGE_ADD` that shrinks the frame. -/
def State.shrunk (s : State) (n : Nat) : State :=
  { s with
    vm := { s.vm with storage := { s.vm.storage with len := s.vm.storage.len - n } }
    pc := s.pc + 3 }

theorem shrink_proceeds {x : Int16} (hneg : x.toInt < 0) (hlen : (-x.toInt).toNat ≤ s.vm.storage.len)
    (hat : At env.code s.pc (encode (.storageAdd x))) :
    Proceeds env s (s.shrunk (-x.toInt).toNat) := by
  refine proceeds_of_exec hat fun a => ?_
  simp only [exec, VM.storageResize, if_pos hneg, if_neg (Nat.not_lt.mpr hlen)]
  rfl

theorem jump_proceeds {target : UInt16} (hat : At env.code s.pc (encode (.jump target))) :
    Proceeds env s { s with pc := s.base + target.toNat } :=
  proceeds_of_exec hat fun _ => rfl

end Machine

/-- The instructions of a break before its jump. -/
def breakInstrs (c : Compiler) (target : Scope) : List Instr :=
  List.replicate (c.crashDepth - target.crashDepth) .popCrash ++
    if target.frameSize - c.frameSize = 0 then [] else [.storageAdd (target.frameSize - c.frameSize)]

theorem code_emitPops (n : Nat) (c : Compiler) :
    (emitPops n c).code = c.code ++ (List.replicate n Instr.popCrash).flatMap encode := by
  induction n generalizing c with
  | zero => simp [emitPops]
  | succ n ih =>
      rw [emitPops, ih, List.replicate_succ, List.flatMap_cons, ← List.append_assoc]
      rfl

theorem compileBreak_code {c c' : Compiler} {level : Nat} {r : Reach} (h : compileBreak c level = .ok (r, c')) :
    ∃ outer s, level = outer + 1 ∧ c.scopes[outer]? = some s ∧
      c'.code = c.code ++ (breakInstrs c s ++ [Instr.jump 0]).flatMap encode := by
  cases level with
  | zero => cases h
  | succ outer =>
      simp only [compileBreak, Compiler.fail] at h
      split at h
      · cases h
      · rename_i s hs
        refine ⟨outer, s, rfl, hs, ?_⟩
        have hpops := code_emitPops (c.crashDepth - s.crashDepth) c
        have hframe := (emitPops_same (c.crashDepth - s.crashDepth) c).frameSize
        generalize emitPops (c.crashDepth - s.crashDepth) c = c₁ at h hpops hframe
        rw [hframe] at h
        cases h
        rw [breakInstrs]
        split
        · show c₁.code ++ encode (.jump 0) = _
          simp [hpops]
        · show c₁.code ++ encode (.storageAdd _) ++ encode (.jump 0) = _
          simp [hpops]

/-- The code of a break leads to the state of the scope that it leaves. -/
theorem breakInstrs_establish {c c' : Compiler} {s : Scope} (hframe : s.frameSize = c'.frameSize)
    (hdepth : s.crashDepth = c'.crashDepth) (hlow : 0 ≤ c'.frameSize.toInt)
    (hframes : c'.frameSize.toInt ≤ c.frameSize.toInt) (hdepths : c'.crashDepth ≤ c.crashDepth) :
    Establishes c c' (breakInstrs c s) := by
  intro env m offset depth target hat hcode
  have hdiff : (c'.frameSize - c.frameSize).toInt = c'.frameSize.toInt - c.frameSize.toInt := by
    have hhigh := c.frameSize.toInt_lt
    rw [Int16.toInt_sub, Int.bmod_eq_of_le] <;> omega
  rw [breakInstrs, hframe, hdepth, List.append_assoc, List.flatMap_append, At.append] at hcode
  obtain ⟨hpops, hcode⟩ := hcode
  have hpop := pops_proceed (s := m) (by rw [hat.crash]; omega) hpops
  have hlength : ((List.replicate (c.crashDepth - c'.crashDepth) Instr.popCrash).flatMap encode).length =
      c.crashDepth - c'.crashDepth := by
    simp [encode, Instr.operands, encodeOperands]
  rw [hlength] at hcode
  have hcrash : (m.popped (c.crashDepth - c'.crashDepth)).vm.crash.length = depth + c'.crashDepth := by
    simp only [State.popped, List.length_drop, hat.crash]
    omega
  have hsuffix : (m.popped (c.crashDepth - c'.crashDepth)).vm.crash <:+ m.vm.crash :=
    List.drop_suffix _ _
  by_cases hzero : c'.frameSize - c.frameSize = 0
  · rw [if_pos hzero, List.nil_append, List.flatMap_singleton] at hcode
    refine ⟨_, hpop.tail (jump_proceeds hcode), ⟨?_, hcrash⟩, rfl, rfl, rfl, hsuffix⟩
    rw [hzero, Int16.toInt_zero] at hdiff
    have hlen := hat.storage
    show (m.vm.storage.len : Int) = _
    omega
  · rw [if_neg hzero, List.flatMap_append, List.flatMap_singleton, List.flatMap_singleton,
      At.append] at hcode
    have hneg : (c'.frameSize - c.frameSize).toInt < 0 := by
      have hne : (c'.frameSize - c.frameSize).toInt ≠ 0 := by
        intro heq
        exact hzero (Int16.toInt_inj.mp (heq.trans Int16.toInt_zero.symm))
      omega
    have hlen := hat.storage
    have hroom : (-(c'.frameSize - c.frameSize).toInt).toNat ≤
        (m.popped (c.crashDepth - c'.crashDepth)).vm.storage.len := by
      show _ ≤ m.vm.storage.len
      omega
    have hshrink := shrink_proceeds hneg hroom hcode.1
    have hjump : At env.code ((m.popped (c.crashDepth - c'.crashDepth)).shrunk
        (-(c'.frameSize - c.frameSize).toInt).toNat).pc (encode (.jump target)) := hcode.2
    refine ⟨_, (hpop.tail hshrink).tail (jump_proceeds hjump), ⟨?_, hcrash⟩, rfl, rfl, rfl, hsuffix⟩
    show ((m.vm.storage.len - (-(c'.frameSize - c.frameSize).toInt).toNat : Nat) : Int) = _
    omega

/-! ## The state behind a block -/

/-- The state behind a block is that in front of it. -/
structure Neutral (c c' : Compiler) : Prop where
  params : c.params = [] ∧ c'.params = []
  frameSize : c'.frameSize = c.frameSize
  crashDepth : c'.crashDepth = c.crashDepth
  scopes : c'.scopes.length = c.scopes.length
  live : ∀ v, c'.Live v ↔ c.Live v

/-- The break of the call `q` leaves the scope that the call `p` has opened. -/
structure Leaves (env : CompileEnv) (p q : BlockCall) (level : Nat) : Prop where
  opens : ∃ b, env.func.blocks[p.idx]? = some b ∧ b.opened p.state ≠ []
  inside : Relation.TransGen (Enters env) p q
  block : env.func.blocks[q.idx]? = some (.brk level)
  level : q.state.scopes.length = p.state.scopes.length + level

section Neutral

variable {env : CompileEnv} {start fuel i level : Nat} {t : Table} {c c' : Compiler} {r : Reach}

/-- The scope that a break leaves is that of the block. -/
theorem Leaves.entry {p q : BlockCall} (h : Leaves env p q level) (htyped : p.state.Typed env)
    {outer : Nat} {s : Scope} (hlevel : level = outer + 1) (hs : q.state.scopes[outer]? = some s) :
    s.frameSize = p.state.frameSize ∧ s.crashDepth = p.state.crashDepth := by
  obtain ⟨b, hb, hopens⟩ := h.opens
  obtain ⟨e, he⟩ := List.exists_mem_of_ne_nil _ hopens
  have hopened := (Block.mem_opened he).1
  obtain ⟨new, hnew⟩ := (encloses_of_enters htyped h.inside).entries b hb
  rw [hopened] at hnew
  have hlength : new.length = outer := by
    have hlen := congrArg List.length hnew
    have hcount := h.level
    simp only [List.length_append, List.length_cons, List.length_nil, Compiler.entries,
      List.length_map] at hlen
    omega
  have hentry : q.state.entries[outer]? = some s.entry := by
    rw [Compiler.entries, List.getElem?_map, hs, Option.map_some]
  rw [← hnew, List.getElem?_append_right (Nat.le_of_eq hlength), hlength, Nat.sub_self] at hentry
  have heq := Option.some.inj hentry
  exact ⟨(congrArg Prod.fst heq).symm, (congrArg Prod.snd heq).symm⟩

/-- A local that is live at a block is not declared in it. -/
theorem Visits.not_declares (h : Visits env start t fuel i c) (hapart : env.func.VarsApart) {v : Nat}
    (hv : c.Live v) : ¬ Declares env.func.blocks i v := by
  rintro ⟨k, body', hk, hki⟩
  obtain ⟨j, body, hj, hzero, hij⟩ := h.live hv
  refine hapart j k v body body' hj hk hzero ?_
  rcases hki with rfl | hki
  · exact hij
  · exact Relation.TransGen.trans hki hij

theorem Visits.neutral (h : Visits env start t fuel i c) (hcounts : env.func.CountsFit)
    (hapart : env.func.VarsApart) (hc : compileBlock env fuel i c = .ok (r, c')) : Neutral c c' := by
  have hfollows := compileBlock_follows env fuel i c r c' h.typed hc
  have hkeeps := compileBlock_keeps h.typed hc
  have hparams := h.params hcounts
  refine ⟨⟨hparams, (compileBlock_rests env fuel i c r c' hc).params hcounts hparams⟩,
    hfollows.frameSize, hfollows.crashDepth, hfollows.scopes, fun v => ⟨hkeeps.isLive, fun hv => ?_⟩⟩
  obtain ⟨x, hx, hlive⟩ := hv
  exact ⟨x, (hkeeps.kept v (h.not_declares hapart ⟨x, hx, hlive⟩)).trans hx, hlive⟩

end Neutral

/-- **Blocks are neutral.**  Whether or not its end is reached, a block leaves the state it was
entered in.  Where a break leaves its scope, nothing is on the type stack, the locals that are live
behind the block are recorded as they are there, and the code of the break leads to the frame size
and the pads behind the block. -/
theorem compileBlock_neutral {env : CompileEnv} {start fuel i : Nat} {t : Table} {c c' : Compiler}
    {r : Reach} (hcounts : env.func.CountsFit) (hapart : env.func.VarsApart)
    (h : Visits env start t fuel i c) (hc : compileBlock env fuel i c = .ok (r, c')) :
    Neutral c c' ∧ ∀ q level, Leaves env ⟨fuel, i, c⟩ q level →
      q.state.params = [] ∧ (∀ v, c'.Live v → q.state.vars[v]? = c'.vars[v]?) ∧
      ∀ r' d, compileBlock env q.fuel q.idx q.state = .ok (r', d) →
        ∃ is, d.code = q.state.code ++ (is ++ [Instr.jump 0]).flatMap encode ∧
          Establishes q.state c' is := by
  have hneutral := h.neutral hcounts hapart hc
  refine ⟨hneutral, fun q level hleaves => ?_⟩
  have hencloses := encloses_of_enters h.typed hleaves.inside
  refine ⟨hencloses.params hcounts hneutral.params.1, fun v hv => ?_, fun r' d hd => ?_⟩
  · have hdecl := h.not_declares hapart ((hneutral.live v).mp hv)
    exact (hencloses.kept v hdecl).trans ((compileBlock_keeps h.typed hc).kept v hdecl).symm
  · have hbreak : compileBreak q.state level = .ok (r', d) := by
      cases hfuel : q.fuel with
      | zero =>
          rw [hfuel] at hd
          cases hd
      | succ n =>
          rw [hfuel, compileBlock, hleaves.block] at hd
          exact hd
    obtain ⟨outer, s, hlevel, hs, hcode⟩ := compileBreak_code hbreak
    obtain ⟨hframe, hdepth⟩ := hleaves.entry h.typed hlevel hs
    have hlow := h.frame_nonneg
    refine ⟨breakInstrs q.state s, hcode, breakInstrs_establish (hframe.trans hneutral.frameSize.symm)
      (hdepth.trans hneutral.crashDepth.symm) ?_ ?_ ?_⟩
    · rw [hneutral.frameSize]
      exact hlow
    · rw [hneutral.frameSize]
      exact hencloses.frame hlow
    · rw [hneutral.crashDepth]
      exact hencloses.depth

/-! ## A sample -/

/-- `f() { MANY { VAR a { BREAK 2 } } }` -/
def leavesLocal : Func where
  sig := ⟨[], []⟩
  types := [{ kind := .int }, { kind := .byte }]
  blocks := [.many (some 1) none, .var 0 2, .brk 2]
  ops := []
  vars := [0]

theorem leavesLocal_under {i j : Nat} (h : Under leavesLocal.blocks j i) : i < j := by
  have hbelow : ∀ {j i}, Below leavesLocal.blocks j i → i < j := by
    rintro j i ⟨b, hb, hnames⟩
    rcases i with _ | _ | _ | i
    · cases hb
      cases hnames
      decide
    · cases hb
      cases hnames
      decide
    · cases hb
      cases hnames
    · cases hb
  induction h with
  | single h => exact hbelow h
  | tail _ h ih => exact (hbelow h).trans ih

theorem leavesLocal_apart : leavesLocal.VarsApart := by
  have hvar : ∀ {i v body}, leavesLocal.blocks[i]? = some (.var v body) → i = 1 := by
    intro i v body hi
    rcases i with _ | _ | _ | i
    · cases hi
    · rfl
    · cases hi
    · cases hi
  intro i j v body body' hi hj _ hji
  have hlt := leavesLocal_under hji
  rw [hvar hi, hvar hj] at hlt
  exact absurd hlt (by decide)

/-- The end of the local is not reached, but the break leads behind it. -/
theorem compileBlock_neutral_leavesLocal : ∃ c' q d is,
    compileBlock leavesLocal.alone 3 0 (.start leavesLocal []) = .ok (.reachable, c') ∧
    Neutral (.start leavesLocal []) c' ∧ Leaves leavesLocal.alone ⟨3, 0, .start leavesLocal []⟩ q 2 ∧
    compileBlock leavesLocal.alone q.fuel q.idx q.state = .ok (.unreachable, d) ∧
    d.code = q.state.code ++ (is ++ [Instr.jump 0]).flatMap encode ∧ Establishes q.state c' is := by
  have hcounts : leavesLocal.alone.func.CountsFit := by
    intro r hr
    simp [Func.alone, leavesLocal] at hr
  have hroot : Visits leavesLocal.alone 3 [] 3 0 (.start leavesLocal []) := .root
  have hc : ∃ c', compileBlock leavesLocal.alone 3 0 (.start leavesLocal []) =
      .ok (.reachable, c') := ⟨_, by rfl⟩
  obtain ⟨c', hc⟩ := hc
  have hchild : Enters leavesLocal.alone ⟨3, 0, .start leavesLocal []⟩
      ⟨2, 1, (Compiler.start leavesLocal []).pushScope 0⟩ := .child (by rfl) .here
  have hbody : ∃ c₁, Enters leavesLocal.alone ⟨2, 1, (Compiler.start leavesLocal []).pushScope 0⟩
      ⟨1, 2, c₁⟩ ∧ c₁.scopes.length = 2 ∧
        ∃ d, compileBlock leavesLocal.alone 1 2 c₁ = .ok (.unreachable, d) :=
    ⟨_, .varBody (by rfl) (by rfl) (by rfl) (by decide) (by rfl), by rfl, _, by rfl⟩
  obtain ⟨c₁, hbody, hlength, d, hd⟩ := hbody
  have hleaves : Leaves leavesLocal.alone ⟨3, 0, .start leavesLocal []⟩ ⟨1, 2, c₁⟩ 2 :=
    ⟨⟨_, by rfl, by decide⟩, .tail (.single hchild) hbody, by rfl, hlength⟩
  obtain ⟨hneutral, hbreaks⟩ := compileBlock_neutral hcounts leavesLocal_apart hroot hc
  obtain ⟨-, -, hcode⟩ := hbreaks _ 2 hleaves
  obtain ⟨is, his, hestablishes⟩ := hcode .unreachable d hd
  exact ⟨c', _, d, is, hc, hneutral, hleaves, hd, his, hestablishes⟩

end TreeVM
