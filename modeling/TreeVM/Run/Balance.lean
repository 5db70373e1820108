import TreeVM.Run.Move

/-!
# The invariant of runs

* `Balanced`: the stacks of a configuration are those of its activations, and the return frames in
  use hold what their calls wrote;
* `Advance`: the ways one round can go on or end; `Balanced.round`: there are no others;
* `balanced_of_leads`: the invariant holds along every run whose stores stay away from the return
  frames.
-/

namespace TreeVM

/-- What all results about runs of a program share. -/
structure Program.Ready (P : Program) (env : Env) (strict : Prop) : Prop where
  accepted : P.Accepted
  loaded : P.Loaded env.code
  short : P.Short
  keeps : strict → P.KeepsHandlers
  natives : NativesKeep env

section Invariant

variable (P : Program) (env : Env) (strict : Prop) (vm : VM)

/-- The stacks of `c` are those of the activation `a` at `p` and of its callers. -/
structure Balanced (c : Config) (a : Act) (p : Point) (levels : List (Act × Point)) : Prop where
  world : World P env.code strict vm a p.pads levels c.calls c.pads
  stands : Stands P env strict a p c.state
  entry : c.state.vm.savedReturn vm.storage.len = ⟨0, 0, 0⟩
  frames : ∀ s ∈ c.calls, c.state.vm.savedReturn s.vm.storage.len = ⟨s.pc, s.base, s.paramBase⟩

/-- No pad is installed, no handler starts, no crash begins. -/
structure Calm (c c' : Config) : Prop where
  count : c'.count = c.count
  started : c'.started = c.started
  ans : c'.state.ans = c.state.ans

/-- One round, seen from the activations. -/
inductive Advance (al : Alloc) (c c' : Config) (a : Act) (p : Point)
    (levels : List (Act × Point)) : Act → Point → List (Act × Point) → Prop
  | op {op i temps pc} : fetch env.code c.state.pc = some (i, pc) → op ∈ a.env.func.ops →
      p.dropped = 0 → OpInstr a.env (a.image P env.code) p.slots op p.temps (some i) temps →
      exec env al (c.fetched pc) i = .next c'.state → c'.calls = c.calls → c'.pads = c.pads →
      Calm c c' →
      Advance al c c' a p levels a { p with pc := p.pc + i.size, temps := temps } levels
  | goes {q} : q.pads = p.pads → q.temps = [] →
      (q.slots <:+ p.slots ∨
        ∃ v tid, q.slots = ⟨v, frameOf a.types p.slots, tid⟩ :: p.slots) →
      (strict → q.floor = p.floor) → c'.calls = c.calls → c'.pads = c.pads → Calm c c' →
      Advance al c c' a p levels a q levels
  | guard {i pad pc} : p.temps = [] → c'.calls = c.calls → c'.pads = i :: c.pads →
      i.id = c.count → c'.count = c.count + 1 → c'.started = c.started →
      c'.state.ans = c.state.ans →
      Advance al c c' a p levels a { p with pc := pc, pads := pad :: p.pads } levels
  | unguard {i pad pads pc} : p.pads = pad :: pads → c'.calls = c.calls →
      c.pads = i :: c'.pads → Calm c c' →
      Advance al c c' a p levels a { p with pc := pc, pads := pads } levels
  | call {op s a' pc} : op ∈ a.env.func.ops → op.kind = .call →
      P.ctx.funcs[op.extra.toNat]? = some a'.env.func → s.vm = c.state.vm → Calls p.temps s a' →
      c'.calls = s :: c.calls → c'.pads = c.pads → Calm c c' →
      Advance al c c' a p levels a' { pc := 0, slots := [] }
        ((a, { p with pc := pc, temps := p.temps.drop a'.sig.ins.length }) :: levels)
  | ret {a' q levels' s} : p.pads = [] → p.floor = none → levels = (a', q) :: levels' →
      c.calls = s :: c'.calls → c'.pads = c.pads → Calm c c' →
      Advance al c c' a p levels a' q levels'
  | unwind {instr pc s cause i a' below levels'} {pad : Pad} :
      fetch env.code c.state.pc = some (instr, pc) →
      exec env al (c.fetched pc) instr = .fail s cause → c.pads = i :: c'.pads →
      c'.calls = i.calls → c'.started = i :: c.started → c'.count = c.count →
      c'.state.ans = c.state.ans.first cause → cause ≠ .ok → c'.state.vm.mem = s.vm.mem →
      (∃ q, StateAt a' { pad.point below with pc := q } i.state) →
      Advance al c c' a p levels a' (pad.point below) levels'

end Invariant

section Frames

variable {P : Program} {env : Env} {strict : Prop} {vm : VM} {c : Config} {a : Act} {p : Point}
  {levels : List (Act × Point)}

/-- A pad was installed while the calls behind it were in use. -/
theorem World.calls_suffix {pads : List Pad} {calls : List State} {installed : List Installed}
    (h : World P env.code strict vm a pads levels calls installed) :
    ∀ i ∈ installed, i.calls <:+ calls := by
  induction h with
  | main _ => exact fun i hi => by cases hi
  | pad _ _ _ ih => exact List.forall_mem_cons.mpr ⟨List.suffix_refl _, ih⟩
  | call _ _ _ _ _ _ _ ih => exact fun i hi => (ih i hi).trans (List.suffix_cons _ _)

/-- The pad that is taken off is the last one installed. -/
theorem World.unguard {pad : Pad} {pads : List Pad} {calls : List State}
    {installed : List Installed}
    (h : World P env.code strict vm a (pad :: pads) levels calls installed) :
    ∃ i, installed = i :: installed.tail ∧
      World P env.code strict vm a pads levels calls installed.tail := by
  cases h with
  | pad hworld _ _ => exact ⟨_, rfl, hworld⟩

/-- What the state behind a return and the state behind its call have in common. -/
structure BackTo (ins : Nat) (s' t : State) : Prop where
  pc : s'.pc = t.pc
  base : s'.base = t.base
  paramBase : s'.paramBase = t.paramBase
  storage : s'.vm.storage.len = t.vm.storage.len
  crash : s'.vm.crash = t.vm.crash
  params : s'.vm.params = t.vm.params.drop ins

/-- The end of a run that returns: as it began, without the inputs. -/
structure EndsBalanced (ins : Nat) (vm vm' : VM) : Prop where
  storage : vm'.storage.len = vm.storage.len
  crash : vm'.crash = vm.crash
  params : vm'.params = vm.params.drop ins

/-- A return goes out of the run or back to the caller. -/
inductive RetOutcome (P : Program) (env : Env) (strict : Prop) (vm : VM) (c : Config) (a : Act)
    (levels : List (Act × Point)) (s : State) : Exec → Prop
  | out {vm'} : levels = [] → c.calls = [] → c.pads = [] →
      EndsBalanced P.func.sig.ins.length vm vm' →
      RetOutcome P env strict vm c a levels s (.stop .ok vm')
  | back {a' q levels' t calls s'} : levels = (a', q) :: levels' → c.calls = t :: calls →
      World P env.code strict vm a' q.pads levels' calls c.pads → Stands P env strict a' q s' →
      s'.ans = s.ans → BackTo a.sig.ins.length s' t →
      RetOutcome P env strict vm c a levels s (.next s')

namespace Balanced

/-- A round keeps the return frames in use. -/
theorem keeps_frames (h : Balanced P env strict vm c a p levels) {al : Alloc}
    (hcontained : Contained env vm.storage.len al c) {i : Instr} {pc : Nat}
    (hfetch : fetch env.code c.state.pc = some (i, pc)) {s : State}
    (hs : (exec env al (c.fetched pc) i).state? = some s) :
    s.vm.savedReturn vm.storage.len = ⟨0, 0, 0⟩ ∧
      ∀ t ∈ c.calls, s.vm.savedReturn t.vm.storage.len = ⟨t.pc, t.base, t.paramBase⟩ := by
  have hkeep : ∀ offset ∈ c.frames vm.storage.len,
      s.vm.savedReturn offset = c.state.vm.savedReturn offset := by
    intro offset hoffset
    by_cases hi : i.stores
    · exact hcontained i pc s hfetch hi hs offset hoffset
    · refine exec_savedReturn hi hs ?_
      obtain ⟨hentry, hcalls⟩ := h.world.frames_le
      have hlen : c.state.vm.storage.len = a.start + frameOf a.types p.slots := h.stands.state.storage
      rcases List.mem_append.mp hoffset with hoffset | hoffset
      · obtain ⟨t, ht, rfl⟩ := List.mem_map.mp hoffset
        have := hcalls t ht
        simp only [Config.fetched_vm]
        omega
      · rw [List.mem_singleton.mp hoffset]
        simp only [Config.fetched_vm]
        omega
  constructor
  · rw [hkeep _ (List.mem_append_right _ List.mem_cons_self), h.entry]
  · intro t ht
    rw [hkeep _ (List.mem_append_left _ (List.mem_map.mpr ⟨t, ht, rfl⟩)), h.frames t ht]

/-- A crash resumes the innermost pad, if the run has installed one. -/
theorem caught (h : Balanced P env strict vm c a p levels) {s : State} {cause : VmResult}
    (hlen : s.vm.storage.len = c.state.vm.storage.len) (hcrash : s.vm.crash = c.state.vm.crash)
    (hparams : ∃ temps, s.vm.params = temps ++ a.args) :
    (c.pads = [] ∧ s.vm.crash = vm.crash) ∨ ∃ a' pad below levels' i rest s',
      World.Innermost P env.code strict vm s.vm.crash c.pads a' pad below levels' i rest ∧
        (Exec.fail s cause).status = .running s' ∧ StateAt a' (pad.point below) s' ∧
        s'.ans = s.ans.first cause ∧ s'.vm.mem = s.vm.mem ∧
        s'.vm.storage.data = s.vm.storage.data ∧
        s.vm.crash.length = s'.vm.crash.length + 1 := by
  have hpoint := h.stands.point
  have hstate := h.stands.state
  have hsize : ∀ pad ∈ p.pads, frameOf a.types pad.slots ≤ frameOf a.types p.slots :=
    fun pad hpad => frameOf_le_of_suffix hpoint.slots (hpoint.pads pad hpad)
  rcases h.world.innermost hsize with ⟨hnone, hframes⟩ |
    ⟨a', pad, below, levels', i, rest, hinner, hstart, hargs⟩
  · exact .inl ⟨hnone, by rw [hcrash, hstate.crash, hframes]⟩
  · rw [← hstate.crash, ← hcrash] at hinner
    obtain ⟨temps, hparams⟩ := hparams
    obtain ⟨before, hbefore⟩ := hargs
    have hsplit : s.vm.params = (temps ++ before) ++ a'.args := by
      rw [hparams, ← hbefore, List.append_assoc]
    have hfits : ¬ (s.vm.storage.len < a'.start + frameOf a'.types pad.slots ∨
        s.vm.params.length < a'.args.length) := by
      rw [hlen, hstate.storage, hsplit, List.length_append]
      omega
    let s' : State := {
      vm := { s.vm with
        crash := below.map a'.frame ++ a'.crash
        storage := { s.vm.storage with len := a'.start + frameOf a'.types pad.slots }
        params := s.vm.params.drop (s.vm.params.length - a'.args.length) }
      pc := a'.base + pad.handler
      base := a'.base
      paramBase := a'.paramBase
      ans := s.ans.first cause }
    have hrun : (Exec.fail s cause).status = .running s' := by
      rw [Exec.status, hinner.frames, unwind, Act.frame, if_neg hfits]
    have hargs : s'.vm.params = a'.args := by
      show s.vm.params.drop (s.vm.params.length - a'.args.length) = a'.args
      rw [hsplit, List.length_append, Nat.add_sub_cancel]
      exact List.drop_left' rfl
    exact .inr ⟨a', pad, below, levels', i, rest, s', hinner, hrun,
      ⟨rfl, rfl, rfl, rfl, ⟨[], rfl, hargs⟩, rfl⟩, rfl, rfl, rfl, by rw [hinner.frames]; rfl⟩

/-- `B_RET` without locals takes the return frame off. -/
theorem exec_ret {s : State} (al : Alloc) {offset : Nat}
    (hlen : s.vm.storage.len = offset + VM.returnSize) {r : ReturnFrame}
    (hr : s.vm.savedReturn offset = r) :
    exec env al s .ret =
      let vm' := { s.vm with storage := { s.vm.storage with len := offset } }
      if r.pc = 0 then .stop .ok vm'
      else .next { s with vm := vm', pc := r.pc, base := r.base, paramBase := r.paramBase } := by
  have hoffset : s.vm.storage.len - VM.returnSize = offset := by omega
  have hpop : s.vm.popReturn =
      some (r, { s.vm with storage := { s.vm.storage with len := offset } }) := by
    subst hr
    rw [VM.popReturn, if_neg (by omega), hoffset]
  simp only [exec, hpop]

theorem returns (hload : P.Loaded env.code) (h : Balanced P env strict vm c a p levels)
    (hpads : p.pads = []) {s : State} (hvm : s.vm = c.state.vm) (hlen : s.vm.storage.len = a.start)
    (hparams : s.vm.params = a.args.drop a.sig.ins.length) (hcrash : s.vm.crash = a.crash)
    (al : Alloc) : RetOutcome P env strict vm c a levels s (exec env al s .ret) := by
  have hworld := h.world
  have hentry := h.entry
  have hframes := h.frames
  rw [hpads] at hworld
  rw [← hvm] at hentry hframes
  generalize hcalls : c.calls = calls at hworld hframes
  generalize hinst : c.pads = installed at hworld
  cases hworld with
  | main hmain =>
      rw [exec_ret al (hlen.trans hmain.start) hentry, if_pos rfl]
      refine .out rfl hcalls hinst ⟨rfl, hcrash.trans hmain.crash, ?_⟩
      show s.vm.params = _
      rw [hparams, hmain.args, Act.sig, hmain.func]
  | @call a' q ps levels' calls _ t _ hworld hpoint hdropped hstate htemps hok hcalls' =>
      have hsaved := hframes t List.mem_cons_self
      have hpc : t.pc ≠ 0 := by
        have hbase := (hload.inside _ _ _ hworld.ok.has).1
        have htpc : t.pc = a'.base + q.pc := hstate.pc
        omega
      rw [exec_ret al (hlen.trans hcalls'.start) hsaved, if_neg hpc]
      obtain ⟨temps, htlen, htparams⟩ := hstate.temps hdropped
      have htlen : temps.length = ps.length := htlen
      have hcount := hcalls'.count
      have hins : a.sig.ins.length ≤ temps.length := by
        rw [Sig.argc] at hcount
        omega
      have hback : s.vm.params = t.vm.params.drop a.sig.ins.length := by
        rw [hparams, hcalls'.args]
      rw [← hinst] at hworld
      refine .back rfl hcalls hworld ⟨⟨hstate.pc, hstate.base, hstate.paramBase, hstate.storage, ?_,
        ?_⟩, hpoint⟩ rfl ⟨rfl, rfl, rfl, rfl, hcrash.trans hcalls'.crash, hback⟩
      · refine ⟨temps.drop a.sig.ins.length, by rw [htemps]; simp [htlen], ?_⟩
        show s.vm.params = _
        rw [hback, htparams, List.drop_append_of_le_length hins, hdropped, List.drop_zero]
      · exact (hcrash.trans hcalls'.crash).trans hstate.crash

/-- One round keeps the invariant. -/
theorem round (hR : P.Ready env strict) (h : Balanced P env strict vm c a p levels) {al : Alloc}
    (hcontained : Contained env vm.storage.len al c) {c' : Config} (hround : Round env al c c') :
    ∃ a' p' levels', Balanced P env strict vm c' a' p' levels' ∧
      Advance P env strict al c c' a p levels a' p' levels' := by
  obtain ⟨i, pc, hfetch, hmove⟩ := move_of_stateAt hR.accepted hR.loaded hR.short hR.keeps hR.natives
    h.world.ok h.stands.point h.stands.state al
  -- two case analyses meet here: how the round went, and what the code at the point can do;
  -- most pairs contradict each other
  generalize he : exec env al (c.fetched pc) i = e at hmove
  cases hround with
  | @next j pc' hfetch' hexec hcalls hpads hcount hstarted =>
      rw [hfetch] at hfetch'
      obtain ⟨rfl, rfl⟩ := Prod.mk.inj (Option.some.inj hfetch')
      have hsaved := h.keeps_frames hcontained hfetch (s := c'.state) (by rw [hexec]; rfl)
      have hquiet : i.Quiet → c'.calls = c.calls ∧ c'.pads = c.pads ∧ c'.count = c.count := by
        intro hi
        rw [hcalls, hpads, hcount]
        cases i <;> first | exact hi.elim | exact ⟨rfl, rfl, rfl⟩
      rw [he] at hexec
      cases hmove with
      -- the activation stays and the point moves inside it
      | op hop hdropped hinstr hi hstands hans =>
          cases hexec
          obtain ⟨hcalls, hpads, hcount⟩ := hquiet hi
          refine ⟨a, _, levels, ⟨?_, hstands, hsaved.1, ?_⟩,
            .op hfetch hop hdropped hinstr he hcalls hpads ⟨hcount, hstarted, hans⟩⟩
          · rw [hcalls, hpads]
            exact h.world
          · rw [hcalls]
            exact hsaved.2
      | goes hi hstores hqpads htemps hslots hfloor hstands hans =>
          cases hexec
          obtain ⟨hcalls, hpads, hcount⟩ := hquiet hi
          refine ⟨a, _, levels, ⟨?_, hstands, hsaved.1, ?_⟩,
            .goes hqpads htemps hslots hfloor hcalls hpads ⟨hcount, hstarted, hans⟩⟩
          · rw [hcalls, hpads, hqpads]
            exact h.world
          · rw [hcalls]
            exact hsaved.2
      -- a pad is installed: it remembers the point of its handler
      | guard htemps hdropped hpoint hstate hstands hans =>
          cases hexec
          have hcalls : c'.calls = c.calls := hcalls
          refine ⟨a, _, levels, ⟨?_, hstands, hsaved.1, ?_⟩,
            .guard htemps hcalls hpads rfl hcount hstarted hans⟩
          · rw [hcalls, hpads]
            refine World.pad (i := ⟨c.count, c.fetched pc, c.calls⟩) h.world hpoint
              ⟨hstate.pc, hstate.base, hstate.paramBase, hstate.storage, ⟨[], rfl, ?_⟩, hstate.crash⟩
            exact hstate.args hdropped htemps
          · rw [hcalls]
            exact hsaved.2
      | unguard hppads hstands hans =>
          cases hexec
          have hcalls : c'.calls = c.calls := hcalls
          have hpads : c'.pads = c.pads.tail := hpads
          have hworld := h.world
          rw [hppads] at hworld
          obtain ⟨first, hfirst, hworld⟩ := hworld.unguard
          refine ⟨a, _, levels, ⟨?_, hstands, hsaved.1, ?_⟩,
            .unguard (i := first) hppads hcalls ?_ ⟨hcount, hstarted, hans⟩⟩
          · rw [hcalls, hpads]
            exact hworld
          · rw [hcalls]
            exact hsaved.2
          · rw [hpads]
            exact hfirst
      -- the caller is put away at the point behind the call
      | @call op a' s' q target argc hop hdropped hkind hf hpoint hstate hok hcalls' hstands hframe
          hans =>
          cases hexec
          have hcalls : c'.calls = c.fetched pc :: c.calls := hcalls
          have hpads : c'.pads = c.pads := hpads
          refine ⟨a', _, (a, { p with pc := q, temps := p.temps.drop a'.sig.ins.length }) :: levels,
            ⟨?_, hstands, hsaved.1, ?_⟩, .call (s := c.fetched pc) hop hkind hf rfl hcalls' hcalls
              hpads ⟨hcount, hstarted, hans⟩⟩
          · rw [hcalls, hpads]
            exact .call h.world hpoint hdropped hstate rfl hok hcalls'
          · rw [hcalls]
            exact List.forall_mem_cons.mpr ⟨hframe, hsaved.2⟩
      -- the return address saved in the storage leads back to the caller
      | ret hppads hpfloor hlen hparams hcrash =>
          have hret := h.returns hR.loaded hppads (s := c.fetched pc) rfl hlen hparams hcrash al
          rw [he, hexec] at hret
          cases hret with
          | @back _ _ _ t _ _ hlevels hccalls hworld hstands hans hback =>
              have hcalls : c'.calls = c.calls.tail := hcalls
              have hpads : c'.pads = c.pads := hpads
              have hcalls' := hcalls
              rw [hccalls, List.tail_cons] at hcalls'
              refine ⟨_, _, _, ⟨?_, hstands, hsaved.1, ?_⟩,
                .ret (s := t) hppads hpfloor hlevels ?_ hpads ⟨hcount, hstarted, hans⟩⟩
              · rw [hcalls', hpads]
                exact hworld
              · intro t ht
                rw [hcalls] at ht
                exact hsaved.2 t (List.mem_of_mem_tail ht)
              · rw [hcalls', hccalls]
      | fail => cases hexec
      | hardCrash => cases hexec
      | nullGlobal => cases hexec
      | invalidArg => cases hexec
      | nullNative => cases hexec
  | @fail j pc' s cause first hfetch' hexec hrun hdrop hcalls hcount hstarted =>
      rw [hfetch] at hfetch'
      obtain ⟨rfl, rfl⟩ := Prod.mk.inj (Option.some.inj hfetch')
      have hsaved := h.keeps_frames hcontained hfetch (s := s) (by rw [hexec]; rfl)
      rw [he] at hexec
      cases hmove with
      | fail hdropped hlen hcrash hparams hans hne hinternal =>
          cases hexec
          -- the run goes on at the innermost pad; with no pad installed it would have ended
          rcases h.caught hlen hcrash hparams with ⟨hnone, -⟩ |
            ⟨a', pad, below, levels', i', rest, s', hinner, hrun', hstate, hans', hmem, hdata, hcount'⟩
          · rw [hnone, List.drop_nil] at hdrop
            cases hdrop
          · rw [hrun'] at hrun
            cases hrun
            have hzero : s.vm.crash.length - c'.state.vm.crash.length - 1 = 0 := by omega
            rw [hzero, List.drop_zero, hinner.installed] at hdrop
            obtain ⟨rfl, hrest⟩ := List.cons.inj hdrop
            -- unwinding writes no memory, so the saved return addresses stay
            have hkept : ∀ offset, c'.state.vm.savedReturn offset = s.vm.savedReturn offset :=
              fun offset => VM.savedReturn_eq hmem hdata
            refine ⟨a', _, levels', ⟨?_, ⟨hstate, hinner.point⟩, ?_, ?_⟩,
              .unwind hfetch he ?_ hcalls hstarted hcount (hans'.trans (by rw [hans]; rfl)) hne hmem
                hinner.state⟩
            · rw [hcalls, ← hrest]
              exact hinner.world
            · rw [hkept]
              exact hsaved.1
            · intro t ht
              rw [hkept]
              rw [hcalls] at ht
              refine hsaved.2 t ((h.world.calls_suffix i' ?_).subset ht)
              rw [hinner.installed]
              exact List.mem_cons_self
            · rw [hinner.installed, hrest]
      | ret hppads hpfloor hlen hparams hcrash =>
          have hret := h.returns hR.loaded hppads (s := c.fetched pc) rfl hlen hparams hcrash al
          rw [he, hexec] at hret
          cases hret
      | op => cases hexec
      | goes => cases hexec
      | guard => cases hexec
      | unguard => cases hexec
      | call => cases hexec
      | hardCrash => cases hexec
      | nullGlobal => cases hexec
      | invalidArg => cases hexec
      | nullNative => cases hexec

end Balanced

/-- The invariant at the beginning of a run. -/
theorem balanced_of_starts (hR : P.Ready env strict) {al : Alloc} {c : Config}
    (hstarts : Starts al vm P.start.toNat c) (hargs : P.func.sig.argc ≤ vm.params.length) :
    ∃ a p, Balanced P env strict vm c a p [] := by
  have henter := hstarts.enter
  rw [enter] at henter
  split at henter
  · cases henter
  · rename_i vm' hvm
    have hreturns := VM.pushReturn_returns hvm
    obtain ⟨e, hfunc, hctx, hplace, hsafe⟩ := callee_safe hR.accepted hR.loaded hR.short hR.keeps
      (Program.Has.main (P := P))
    let a : Act := {
      env := e
      bytes := P.code
      base := P.start.toNat
      start := vm.storage.len + VM.returnSize
      args := vm.params
      paramBase := 0
      crash := vm.crash }
    have hhas : P.Has a.base a.env.func a.bytes := by
      show P.Has P.start.toNat e.func P.code
      rw [hfunc]
      exact .main
    have hroom : a.sig.argc ≤ vm.params.length := by
      rw [Act.sig, hfunc]
      exact hargs
    have hmain : Main P vm a :=
      ⟨⟨hhas, hctx, hplace, by simpa [a] using hroom⟩, rfl, rfl, rfl, rfl, rfl, hfunc⟩
    have hstate := Status.running.inj henter
    have hsaved := hreturns.saved (by decide) (by decide) (by decide)
    have hsafe : Safe a.env (a.image P env.code) strict { pc := 0, slots := [] } := by
      rw [Act.image, show a.env.func = P.func from hfunc]
      exact hsafe
    refine ⟨a, { pc := 0, slots := [] }, ⟨?_, ⟨?_, ⟨trivial, by simp, by simp, hsafe⟩⟩, ?_, ?_⟩⟩
    · rw [hstarts.calls, hstarts.pads]
      exact .main hmain
    · rw [← hstate]
      exact ⟨rfl, rfl, rfl, hreturns.len, ⟨[], rfl, hreturns.params⟩, hreturns.crash⟩
    · rw [← hstate]
      exact hsaved
    · rw [hstarts.calls]
      exact fun s hs => by cases hs

/-- The invariant along a run whose stores stay away from the return frames. -/
theorem balanced_of_leads (hR : P.Ready env strict) {good : Alloc → Config → Prop}
    (hgood : ∀ al c, good al c → Contained env vm.storage.len al c) {c c' : Config}
    {a : Act} {p : Point} {levels : List (Act × Point)}
    (h : Balanced P env strict vm c a p levels) (hleads : Leads env good c c') :
    ∃ a' p' levels', Balanced P env strict vm c' a' p' levels' := by
  induction hleads with
  | refl => exact ⟨a, p, levels, h⟩
  | tail _ hstep ih =>
      obtain ⟨a', p', levels', h'⟩ := ih
      obtain ⟨al, hal, hround⟩ := hstep
      obtain ⟨a'', p'', levels'', h'', -⟩ := h'.round hR (hgood _ _ hal) hround
      exact ⟨a'', p'', levels'', h''⟩

end Frames

end TreeVM
