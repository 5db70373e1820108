import TreeVM.Run.Control

/-!
# Blocks on the machine

The code of a block does what its tree means.

* `Means`: the code between two offsets does what a function on states says;
* `Means.scope`, `chain`, `loop`, `branch`, `inLocal`, `guarded`: the constructs, from their parts;
* `block_means`: all blocks of an activation, if calls do as they mean.
-/

namespace TreeVM

section Blocks

variable (env : Env) (allocs : Nat → Alloc) (st : Status) (a : Act)

/-- The activation is behind a block, and the compiler knows that this can be. -/
def Lands (Γ : Ctx) (r : Reach) (o : Nat) (s : State) (d : Direct.State) : Prop :=
  r = .reachable ∧ Corresponds a (Γ.point o) s d

/-- The code from offset `o` to offset `o'` does what `f` says, with `k` rounds where `f` runs out of
its bound. -/
def Means (Γ : Ctx) (k o : Nat) (r : Reach) (o' : Nat) (f : Direct.State → Outcome Direct.State) : Prop :=
  ∀ n s d, Arrives env allocs st n s d → Corresponds a (Γ.point o) s d →
    Tracks env allocs st a Γ n k (Lands a Γ r o') (f d)

variable {env allocs st a} {Γ : Ctx} {n k o o₁ o' : Nat} {r : Reach} {target : Option Nat}
  {f g : Direct.State → Outcome Direct.State} {Q : State → Direct.State → Prop}
  {s : State} {d : Direct.State} {out : Outcome Direct.State}

/-! ## Sequences -/

theorem Means.chain (hf : Means env allocs st a Γ k o .reachable o₁ f)
    (hg : Means env allocs st a Γ k o₁ r o' g) :
    Means env allocs st a Γ k o r o' fun d => (f d).andThen g :=
  fun n s d harrives hc =>
    (hf n s d harrives hc).andThen fun _ harrives' hlands => hg _ _ _ harrives' hlands.2

/-- A part whose end is not reached needs no code behind it. -/
theorem Means.never (hf : Means env allocs st a Γ k o .unreachable o' f) :
    Means env allocs st a Γ k o r o' fun d => (f d).andThen g :=
  fun n s d harrives hc =>
    (hf n s d harrives hc).andThen fun _ _ hlands => nomatch hlands.1

/-- The machine goes on where nothing happens. -/
theorem Tracks.goes {Q' : State → Direct.State → Prop} (h : Tracks env allocs st a Γ n k Q out)
    (hnext : ∀ {m s d}, Arrives env allocs st m s d → Q s d → ∃ m' s', m ≤ m' ∧
      Arrives env allocs st m' s' d ∧ Q' s' d) :
    Tracks env allocs st a Γ n k Q' out := by
  have hsame : out.andThen .normal = out := by
    cases out <;> rfl
  rw [← hsame]
  refine h.andThen fun _ harrives hq => ?_
  obtain ⟨m', s', hm', harrives', hq'⟩ := hnext harrives hq
  exact .normal hm' harrives' hq'

/-! ## Scopes -/

theorem Direct.State.cut_self {len : Nat} (hlen : d.vm.storage.len = len) {slots : List Slot}
    (hslots : d.slots = slots) : d.cut len slots = d := by
  subst hlen hslots
  rfl

/-- The end of a scope: a break of one level goes on there. -/
theorem Tracks.scope (h : Tracks env allocs st a (Γ.scope target) n k Q out)
    (hnext : ∀ s d, Q s d → Lands a Γ r o' s d) (hbreaks : target.isSome → r = .reachable)
    (htarget : ∀ t, target = some t → t = o') :
    Tracks env allocs st a Γ n k (Lands a Γ r o') out.scope := by
  cases h with
  | normal hle harrives hq => exact .normal hle harrives (hnext _ _ hq)
  | @brk m s d level scope t hlt harrives hscope ht hslots hlen hc =>
      cases level with
      | zero =>
          cases hscope
          have ht : target = some t := ht
          have hself : d.cut (a.start + frameOf a.types Γ.slots) Γ.slots = d :=
            Direct.State.cut_self hlen hslots
          have hc : Corresponds a (Γ.point t) s (d.cut (a.start + frameOf a.types Γ.slots) Γ.slots) := hc
          rw [hself, htarget t ht] at hc
          exact .normal (Nat.le_of_lt hlt) harrives ⟨hbreaks (by rw [ht]; rfl), hc⟩
      | succ level => exact .brk hlt harrives hscope ht hslots hlen hc
  | crash hlt hfails => exact .crash hlt hfails
  | halt hlt hrun hvm htrouble => exact .halt hlt hrun hvm htrouble
  | overwritten htrouble => exact .overwritten htrouble
  | timeout hle hrun => exact .timeout hle hrun

theorem Reach.orBreaks_of_next (h : r = .reachable) : r.orBreaks target = .reachable :=
  if_pos (.inl h)

theorem Reach.orBreaks_of_break (h : target.isSome) : r.orBreaks target = .reachable :=
  if_pos (.inr h)

theorem Means.scope (h : Means env allocs st a (Γ.scope target) k o r o' f)
    (htarget : ∀ t, target = some t → t = o') :
    Means env allocs st a Γ k o (r.orBreaks target) o' fun d => (f d).scope :=
  fun n s d harrives hc =>
    (h n s d harrives hc).scope (fun _ _ hlands => ⟨Reach.orBreaks_of_next hlands.1, hlands.2⟩)
      Reach.orBreaks_of_break htarget

/-! ## Loops -/

/-- Each round of a loop takes at least one round of the machine, the jump back. -/
theorem iterate_tracks {P : Program} (h : Means env allocs st a Γ k o r o₁ f)
    (hback : r = .reachable → JumpAt (a.image P env.code) o₁ o) (rounds : Nat) (hle : rounds ≤ k)
    (harrives : Arrives env allocs st n s d) (hc : Corresponds a (Γ.point o) s d) :
    Tracks env allocs st a Γ n rounds (fun _ _ => False) (Machine.iterate f rounds d) := by
  induction rounds generalizing n s d with
  | zero => exact .timeout (Nat.le_refl _) harrives.run
  | succ rounds ih =>
      have hround : Machine.iterate f (rounds + 1) d = (f d).andThen (Machine.iterate f rounds) := by
        rw [Machine.iterate]
        cases f d <;> rfl
      rw [hround]
      refine ((h n s d harrives hc).earlier (Nat.le_refl n) (by omega)).andThen ?_
      intro m s₁ d₁ hm harrives₁ hlands
      obtain ⟨s₂, harrives₂, hc₂⟩ := hlands.2.jump harrives₁ (hback hlands.1)
      exact (ih (by omega) harrives₂ hc₂).earlier (Nat.le_succ m) (by omega)

theorem Means.loop {P : Program} (h : Means env allocs st a (Γ.scope target) k o r o₁ f)
    (hback : r = .reachable → JumpAt (a.image P env.code) o₁ o)
    (htarget : ∀ t, target = some t → t = o') :
    Means env allocs st a Γ k o (Reach.orBreaks .unreachable target) o' fun d =>
      (Machine.iterate f k d).scope :=
  fun _ _ _ harrives hc =>
    (iterate_tracks h hback k (Nat.le_refl k) harrives hc).scope (fun _ _ hq => hq.elim)
      Reach.orBreaks_of_break htarget

/-! ## Locals -/

theorem Fails.outer {slots slots' : List Slot} {pads : List Pad}
    (h : Fails env allocs st a slots' pads n s d) (hok : SlotsOk a.types slots')
    (hslots : slots <:+ slots') : Fails env allocs st a slots pads n s d :=
  { h with storage := Nat.le_trans (Nat.add_le_add_left (frameOf_le_of_suffix hok hslots) _) h.storage }

/-- The end of a local.  Breaks have released its storage, and a crash leaves that to the handler. -/
theorem Tracks.release {v tid : Nat} {Q' : State → Direct.State → Prop}
    (h : Tracks env allocs st a (Γ.local a.types target v tid) n k Q out)
    (hok : SlotsOk a.types (Γ.local a.types target v tid).slots)
    (hnext : ∀ {m s d}, Arrives env allocs st m s d → Q s d → ∃ m' s', m ≤ m' ∧
      Arrives env allocs st m' s' (d.cut (a.start + frameOf a.types Γ.slots) Γ.slots) ∧
        Q' s' (d.cut (a.start + frameOf a.types Γ.slots) Γ.slots)) :
    Tracks env allocs st a (Γ.scope target) n k Q'
      (out.release fun d => d.cut (a.start + frameOf a.types Γ.slots) Γ.slots) := by
  cases h with
  | normal hle harrives hq =>
      obtain ⟨m', s', hm', harrives', hq'⟩ := hnext harrives hq
      exact .normal (Nat.le_trans hle hm') harrives' hq'
  | brk hlt harrives hscope ht _ _ hc =>
      exact .brk hlt ⟨harrives.run, harrives.asks⟩ hscope ht rfl rfl hc
  | crash hlt hfails => exact .crash hlt (hfails.outer hok (List.suffix_cons _ _))
  | halt hlt hrun hvm htrouble => exact .halt hlt hrun hvm htrouble
  | overwritten htrouble => exact .overwritten htrouble
  | timeout hle hrun => exact .timeout hle hrun

theorem Means.inLocal {P : Program} {H : Direct.Host} (journey : Journey P env allocs H st)
    (htypes : layoutAll a.env.func.types = some a.env.types) {v tid : Nat} {t : Ty}
    (hvar : a.env.func.vars[v]? = some tid) (htid : a.env.types[tid]? = some t)
    (hfit : frameOf a.types Γ.slots + t.size.toNat ≤ 32767) (hok : SlotsOk a.types Γ.slots)
    (hat : AddAt (a.image P env.code) o t.size.toNat) (htarget : ∀ t, target = some t → t = o')
    (hbody : Means env allocs st a (Γ.local a.types target v tid) k (o + 3) r o₁ f)
    (hend : r = .reachable → AddAt (a.image P env.code) o₁ (-(t.size.toNat : Int)) ∧ o' = o₁ + 3) :
    Means env allocs st a Γ k o (r.orBreaks target) o' fun d =>
      (H.enter (H.typed a.env.func) a.activation v d).outcome fun d' =>
        ((f d').release fun d' => d'.cut d.vm.storage.len d.slots).scope := by
  intro n s d harrives hc
  have hsize : stackSize a.types tid = t.size.toNat := by
    rw [stackSize, Act.types, htid]
  have hinner : SlotsOk a.types (Γ.local a.types target v tid).slots :=
    ⟨rfl, by rw [hsize]; exact hfit, hok⟩
  have hlen : d.vm.storage.len = a.start + frameOf a.types Γ.slots := by
    rw [hc.storage_eq]
    exact hc.state.storage
  have hslots : d.slots = Γ.slots := hc.slots
  beta_reduce
  rw [hlen, hslots, Step.outcome_andThen]
  have hentered : Tracks env allocs st a Γ n k
      (Corresponds a ((Γ.local a.types target v tid).point (o + 3)))
      ((H.enter (H.typed a.env.func) a.activation v d).outcome .normal) :=
    enter_tracks journey htypes hvar htid hat harrives hc
  refine hentered.andThen ?_
  intro m s₁ d₁ hm harrives₁ hc₁
  refine Tracks.scope (Q := Lands a (Γ.scope target) r o') ?_ ?_ Reach.orBreaks_of_break htarget
  · refine (hbody _ _ _ harrives₁ hc₁).release hinner ?_
    intro m₂ s₂ d₂ harrives₂ hlands
    obtain ⟨hadd, rfl⟩ := hend hlands.1
    have hamount : -(t.size.toNat : Int) = (frameOf a.types Γ.slots : Int) -
        frameOf a.types (Γ.local a.types target v tid).slots := by
      simp only [Ctx.local, frameOf, hsize]
      omega
    obtain ⟨s₃, harrives₃, hc₃⟩ :=
      hlands.2.shrink harrives₂ hinner (List.suffix_cons _ _) hamount hadd
    exact ⟨m₂ + 1, s₃, Nat.le_succ m₂, harrives₃, hlands.1, hc₃⟩
  · exact fun _ _ hlands => ⟨Reach.orBreaks_of_next hlands.1, hlands.2⟩

/-! ## Breaks -/

theorem brk_means {P : Program} {level t : Nat} {scope : ScopeAt} (hΓ : Γ.Nested a.types)
    (hscope : Γ.scopes[level]? = some scope) (ht : scope.target = some t)
    (hpops : PopsAt (a.image P env.code) o (Γ.pads.length - scope.pads.length))
    (hadd : if frameOf a.types scope.slots = frameOf a.types Γ.slots then
        o₁ = o + (Γ.pads.length - scope.pads.length)
      else AddAt (a.image P env.code) (o + (Γ.pads.length - scope.pads.length))
          ((frameOf a.types scope.slots : Int) - frameOf a.types Γ.slots) ∧
        o₁ = o + (Γ.pads.length - scope.pads.length) + 3)
    (hjump : JumpAt (a.image P env.code) o₁ t) :
    Means env allocs st a Γ k o .unreachable o' (.brk (level + 1)) := by
  intro n s d harrives hc
  have hmem := List.mem_of_getElem? hscope
  obtain ⟨⟨top, htop⟩, -⟩ := hΓ.scopePads scope hmem
  have hslots := hΓ.scopeSlots scope hmem
  have hcount : Γ.pads.length - scope.pads.length = top.length := by
    rw [← htop]
    simp
  rw [hcount] at hpops hadd
  have hlen : d.vm.storage.len = a.start + frameOf a.types Γ.slots := by
    rw [hc.storage_eq]
    exact hc.state.storage
  -- the pads inside of the scope go first
  obtain ⟨s₁, harrives₁, hc₁⟩ := hc.popCrashes harrives htop.symm hpops
  by_cases hframe : frameOf a.types scope.slots = frameOf a.types Γ.slots
  · -- the locals inside of it have no bytes
    rw [if_pos hframe] at hadd
    subst hadd
    obtain ⟨s₂, harrives₂, hc₂⟩ := hc₁.jump harrives₁ hjump
    refine .brk (by omega) harrives₂ hscope ht hc.slots hlen ?_
    have hcut : d.cut (a.start + frameOf a.types scope.slots) scope.slots = { d with slots := scope.slots } := by
      rw [hframe, ← hlen]
      rfl
    rw [hcut]
    refine ⟨⟨hc₂.state.pc, hc₂.state.base, hc₂.state.paramBase, ?_, hc₂.state.params, hc₂.state.crash⟩,
      rfl, hc₂.room, hc₂.vm, hc₂.ans, rfl, hc₂.temps, hc₂.trouble⟩
    rw [hc₂.state.storage]
    exact congrArg (a.start + ·) hframe.symm
  · rw [if_neg hframe] at hadd
    obtain ⟨hadd, rfl⟩ := hadd
    obtain ⟨s₂, harrives₂, hc₂⟩ := hc₁.shrink harrives₁ hΓ.slots hslots rfl hadd
    obtain ⟨s₃, harrives₃, hc₃⟩ := hc₂.jump harrives₂ hjump
    exact .brk (by omega) ⟨harrives₃.run, harrives₃.asks⟩ hscope ht hc.slots hlen
      ⟨⟨hc₃.state.pc, hc₃.state.base, hc₃.state.paramBase, hc₃.state.storage, hc₃.state.params,
        hc₃.state.crash⟩, rfl, hc₃.room, hc₃.vm, hc₃.ans, hc₃.slots, hc₃.temps, hc₃.trouble⟩

/-! ## Pads -/

/-- What comes behind a soft crash -/
def Outcome.rescue {σ : Type} (out : Outcome σ) (handler : σ → Outcome σ) : Outcome σ :=
  match out with
  | .crash s => handler s
  | out => out

/-- The end of a handler: falling through crashes again. -/
theorem Tracks.reraise {P : Program} (h : Tracks env allocs st a Γ.handler n k (Lands a Γ.handler r o) out)
    (hend : r = .reachable → InstrAt (a.image P env.code) o [] .crash) :
    Tracks env allocs st a Γ n k Q (out.reraise fun d => { d with ans := d.ans.first .crash }) := by
  cases h with
  | normal hle harrives hlands =>
      have hraise : Tracks env allocs st a Γ.handler _ k Q _ :=
        raise_tracks (hend hlands.1) harrives hlands.2
      cases hraise with
      | crash hlt hfails => exact .crash (Nat.lt_of_le_of_lt hle hlt) hfails
  | brk hlt harrives hscope ht hslots hlen hc =>
      exact .brk hlt harrives hscope ht hslots hlen hc
  | crash hlt hfails => exact .crash hlt hfails
  | halt hlt hrun hvm htrouble => exact .halt hlt hrun hvm htrouble
  | overwritten htrouble => exact .overwritten htrouble
  | timeout hle hrun => exact .timeout hle hrun

theorem Means.guarded {P : Program} {H : Direct.Host} (journey : Journey P env allocs H st)
    (run : Direct.Activation → Direct.State → Outcome Direct.State) (b : Direct.Activation)
    {handler o₂ : Nat} {r₂ : Reach} (hsmall : handler ≤ 65535)
    (hat : InstrAt (a.image P env.code) o [] (.pushCrash (UInt16.ofNat handler)))
    (hbody : Means env allocs st a (Γ.guarded handler) k (o + 3) r o₁ f)
    (hnext : r = .reachable → InstrAt (a.image P env.code) o₁ [] .popCrash ∧
      JumpAt (a.image P env.code) (o₁ + 1) o')
    (hpad : Means env allocs st a Γ.handler k handler r₂ o₂ g)
    (hend : r₂ = .reachable → InstrAt (a.image P env.code) o₂ [] .crash) :
    Means env allocs st a Γ k o r o' fun d =>
      (f d).rescue fun d' =>
        (g ((H.machineWith run b).restore d d')).reraise fun d => { d with ans := d.ans.first .crash } := by
  intro n s d harrives hc
  obtain ⟨s₁, harrives₁, hc₁⟩ := hc.pushCrash harrives hsmall rfl (journey.crash n) hat
  have htracks := (hbody _ _ _ harrives₁ hc₁).earlier (Nat.le_succ n) (Nat.add_le_add_right (Nat.le_succ n) k)
  beta_reduce
  generalize f d = out at htracks ⊢
  cases htracks with
  | @normal m s₂ d₂ hle harrives₂ hlands =>
      obtain ⟨hpop, hjump⟩ := hnext hlands.1
      obtain ⟨s₃, harrives₃, hc₃⟩ := hlands.2.popCrash harrives₂ rfl hpop
      obtain ⟨s₄, harrives₄, hc₄⟩ := hc₃.jump harrives₃ hjump
      exact .normal (by omega) harrives₄ ⟨hlands.1, hc₄⟩
  | brk hlt harrives₂ hscope ht hslots hlen hc₂ =>
      exact .brk hlt harrives₂ hscope ht hslots hlen hc₂
  | @crash m s₂ d₂ hlt hfails =>
      -- the handler starts with what the pad has saved
      obtain ⟨s₃, harrives₃, hc₃⟩ := hfails.caught hc run b
      have hle := Nat.le_of_lt hlt
      exact ((hpad _ _ _ harrives₃ hc₃).reraise hend).earlier hle (Nat.add_le_add_right hle k)
  | halt hlt hrun hvm htrouble => exact .halt hlt hrun hvm htrouble
  | overwritten htrouble => exact .overwritten htrouble
  | timeout hle hrun => exact .timeout hle hrun

/-! ## Operations and conditions -/

section Machine

variable {P : Program} {H : Direct.Host} (journey : Journey P env allocs H st)
  (htypes : layoutAll a.env.func.types = some a.env.types) (hctx : a.env.ctx = P.ctx)
  {run : Direct.Activation → Direct.State → Outcome Direct.State}
  (hcalls : CallsTrack P env allocs H st a run k) (hok : SlotsOk a.types Γ.slots)

include journey htypes hctx hcalls hok

theorem basic_means {ops : List Op} {ps : List Nat}
    (hcode : CodeOps a.env (a.image P env.code) Γ.slots ops o [] o₁ ps) (hlt : ps.length < 2 ^ 32)
    (hdiscard : ps ≠ [] → InstrAt (a.image P env.code) o₁ ps (.dropN (UInt32.ofNat ps.length))) :
    Means env allocs st a Γ k o .reachable (if ps = [] then o₁ else o₁ + 5) fun d =>
      ((H.machineWith run a.activation).runOps ops d).outcome fun d' =>
        .normal ((H.machineWith run a.activation).discard d d') := by
  intro n s d harrives hc
  have htemps : d.temps = [] := hc.temps
  beta_reduce
  rw [Step.outcome_andThen]
  refine (ops_track journey htypes hctx hcalls hcode hok harrives hc).andThen ?_
  intro m s₁ d₁ hm harrives₁ hc₁
  have htemps₁ : d₁.temps = ps := hc₁.temps
  have hdrop : (H.machineWith run a.activation).discard d d₁ = d₁.drop ps.length := by
    show d₁.drop (d₁.temps.length - d.temps.length) = _
    rw [htemps, htemps₁]
    rfl
  rw [hdrop]
  by_cases hps : ps = []
  · subst hps
    exact .normal (Nat.le_refl m) ⟨harrives₁.run, harrives₁.asks⟩ ⟨rfl, hc₁⟩
  · rw [if_neg hps]
    obtain ⟨s₂, harrives₂, hc₂⟩ := hc₁.discard harrives₁ hlt (hdiscard hps)
    exact .normal (Nat.le_succ m) harrives₂ ⟨rfl, hc₂⟩

theorem branch_means {ops : List Op} {o₂ o₃ : Nat} {r₁ r₂ : Reach}
    (hcode : CodeOps a.env (a.image P env.code) Γ.slots ops o [] o₁ [intId])
    (hno : o₃ ≤ 65535) (hyes : o₁ + 5 ≤ 65535)
    (hat : InstrAt (a.image P env.code) o₁ [intId]
      (.branchTop (UInt16.ofNat (o₁ + 5)) (UInt16.ofNat o₃)))
    (hf : Means env allocs st a Γ k (o₁ + 5) r₁ o₂ f)
    (hjump : r₁ = .reachable → JumpAt (a.image P env.code) o₂ o')
    (hg : Means env allocs st a Γ k o₃ r₂ o' g) :
    Means env allocs st a Γ k o (if r₁ = .reachable ∨ r₂ = .reachable then .reachable else .unreachable)
      o' fun d =>
        ((H.machineWith run a.activation).runOps ops d).outcome fun d' =>
          if (Direct.Host.test d').1 then f (Direct.Host.test d').2 else g (Direct.Host.test d').2 := by
  intro n s d harrives hc
  beta_reduce
  rw [Step.outcome_andThen]
  refine (ops_track journey htypes hctx hcalls hcode hok harrives hc).andThen ?_
  intro m s₁ d₁ hm harrives₁ hc₁
  obtain ⟨s₂, harrives₂, hc₂⟩ := hc₁.branchTop harrives₁ hyes hno rfl hat
  by_cases htest : (Direct.Host.test d₁).1 = true
  · simp only [htest, if_true] at hc₂ ⊢
    have hyes := (hf _ _ _ harrives₂ hc₂).earlier (Nat.le_succ m) (Nat.add_le_add_right (Nat.le_succ m) k)
    refine hyes.goes fun harrives₃ hlands => ?_
    obtain ⟨s₄, harrives₄, hc₄⟩ := hlands.2.jump harrives₃ (hjump hlands.1)
    exact ⟨_, s₄, Nat.le_succ _, harrives₄, if_pos (.inl hlands.1), hc₄⟩
  · simp only [htest] at hc₂ ⊢
    have hno := (hg _ _ _ harrives₂ hc₂).earlier (Nat.le_succ m) (Nat.add_le_add_right (Nat.le_succ m) k)
    exact hno.goes fun harrives₃ hlands =>
      ⟨_, _, Nat.le_refl _, harrives₃, if_pos (.inr hlands.1), hlands.2⟩

end Machine

/-! ## Trees -/

section Trees

variable {P : Program} {H : Direct.Host} (journey : Journey P env allocs H st)
  (htypes : layoutAll a.env.func.types = some a.env.types) (hctx : a.env.ctx = P.ctx)
  {run : Direct.Activation → Direct.State → Outcome Direct.State}
  (hcalls : CallsTrack P env allocs H st a run k)

include journey htypes hctx hcalls

/-- The code of a block, or of the rest of a sequence, does what the tree means that it stands for:
by induction on the tree, with the code of each construct. -/
theorem block_means {S : Nat → Prop} {p : Place} {t : Tree} (hrep : Represents S a.env.func.blocks p t)
    (hcode : CodeBlock a.env (a.image P env.code) Γ p o r o') (hΓ : Γ.Nested a.types) :
    Means env allocs st a Γ k o r o' (t.eval (H.machineWith run a.activation) k) := by
  induction hrep generalizing Γ o r o' with
  | @basic i range _ hb =>
      cases hcode with
      | @basic _ _ _ ops _ o₁ ps hb' hops hcode hlt hdiscard =>
          obtain rfl : range = _ := Block.basic.inj (Option.some.inj (hb.symm.trans hb'))
          have hrange : (H.machineWith run a.activation).range range = ops := by
            rw [opsIn] at hops
            split at hops
            · exact Option.some.inj hops
            · cases hops
          have heval : (Tree.basic range).eval (H.machineWith run a.activation) k = fun d =>
              ((H.machineWith run a.activation).runOps ops d).outcome fun d' =>
                .normal ((H.machineWith run a.activation).discard d d') := by
            funext d
            rw [Tree.eval, hrange]
          rw [heval]
          exact basic_means journey htypes hctx hcalls hΓ.slots hcode hlt hdiscard
      | _ => grind
  -- the compiler refuses DEFER, so there is no code to speak about
  | defer _ hb _ _ _ _ => cases hcode <;> grind
  | @many i c l t _ hb _ ih =>
      cases hcode with
      | @many _ _ cur next target _ r₁ _ hb' htarget hcode =>
          obtain ⟨rfl, rfl⟩ := Block.many.inj (Option.some.inj (hb.symm.trans hb'))
          exact (ih hcode (hΓ.scope target)).scope htarget
      | _ => grind
  | crash _ hb =>
      cases hcode with
      | crash _ hat => exact fun n s d harrives hc => raise_tracks hat harrives hc
      | _ => grind
  | hardCrash _ hb =>
      cases hcode with
      | hardCrash _ hat => exact fun n s d harrives hc => hardCrash_tracks hat harrives hc
      | _ => grind
  | @crashPad i b p tb tp _ hb _ _ ihb ihp =>
      cases hcode with
      | @crashPad _ _ body pad handler _ r₁ o₁ r₂ o₂ _ hb' hsmall hat hbody hnext _ hpad hend _ =>
          obtain ⟨rfl, rfl⟩ := Block.crashPad.inj (Option.some.inj (hb.symm.trans hb'))
          have heval : (Tree.crashPad tb tp).eval (H.machineWith run a.activation) k = fun d =>
              (tb.eval (H.machineWith run a.activation) k d).rescue fun d' =>
                (tp.eval (H.machineWith run a.activation) k
                  ((H.machineWith run a.activation).restore d d')).reraise
                    fun d => { d with ans := d.ans.first .crash } := by
            funext d
            rw [Tree.eval]
            cases tb.eval (H.machineWith run a.activation) k d <;> rfl
          rw [heval]
          exact Means.guarded journey run a.activation hsmall hat (ihb hbody (hΓ.guarded handler))
            (fun hr => ⟨(hnext hr).1, (hnext hr).2.1⟩) (ihp hpad hΓ.handler) fun hr => (hend hr).1
      | _ => grind
  -- the condition runs as a range; the byte on top of its operands picks the arm
  | @branch i c y n ty tn _ hb _ _ ihy ihn =>
      cases hcode with
      | @branch _ _ cond yes no ops _ o₁ r₁ o₂ o₃ r₂ _ hb' hops hcode hno hyes hat hcy hjump _ hcn =>
          obtain ⟨rfl, rfl, rfl⟩ := Block.branch.inj (Option.some.inj (hb.symm.trans hb'))
          have hrange : (H.machineWith run a.activation).range c = ops := by
            rw [opsIn] at hops
            split at hops
            · exact Option.some.inj hops
            · cases hops
          have heval : (Tree.branch c ty tn).eval (H.machineWith run a.activation) k = fun d =>
              ((H.machineWith run a.activation).runOps ops d).outcome fun d' =>
                if (Direct.Host.test d').1 then
                  ty.eval (H.machineWith run a.activation) k (Direct.Host.test d').2
                else tn.eval (H.machineWith run a.activation) k (Direct.Host.test d').2 := by
            funext d
            rw [Tree.eval, hrange]
            congr 1
            funext d'
            have htest : (H.machineWith run a.activation).test d' = Direct.Host.test d' := rfl
            rw [htest]
            rcases Direct.Host.test d' with ⟨b, d''⟩
            cases b <;> rfl
          rw [heval]
          exact branch_means journey htypes hctx hcalls hΓ.slots hcode hno hyes hat (ihy hcy hΓ)
            (fun hr => (hjump hr).1) (ihn hcn hΓ)
      | _ => grind
  | @loop i b t _ hb _ ih =>
      cases hcode with
      | @loop _ _ body target _ r₁ o₁ _ hb' htarget hcode hback _ =>
          obtain rfl := Block.loop.inj (Option.some.inj (hb.symm.trans hb'))
          exact (ih hcode (hΓ.scope target)).loop (fun hr => (hback hr).1) htarget
      | _ => grind
  | brk _ hb =>
      cases hcode with
      | brk hb' hscope ht hpops hadd hjump =>
          obtain rfl := Block.brk.inj (Option.some.inj (hb.symm.trans hb'))
          exact brk_means hΓ hscope ht hpops hadd hjump
      | _ => grind
  | @var i v b t _ hb _ ih =>
      cases hcode with
      | @var _ _ w body tid ty target _ r₁ o₁ _ hb' hvar htid hfit hat htarget hcode hend _ =>
          obtain ⟨rfl, rfl⟩ := Block.var.inj (Option.some.inj (hb.symm.trans hb'))
          have hsize : stackSize a.types tid = ty.size.toNat := by
            rw [stackSize, Act.types, htid]
          have hinner : frameOf a.types Γ.slots + stackSize a.types tid ≤ 32767 := by
            rw [hsize]
            exact hfit
          exact Means.inLocal journey htypes hvar htid hfit hΓ.slots hat htarget
            (ih hcode (hΓ.inLocal hinner)) hend
      | _ => grind
  -- the machine takes no notice of marks
  | @mark i m t _ ih =>
      have hclose : ∀ out : Outcome Direct.State, out.close (fun _ d => d) m = out := by
        intro out
        cases m <;> cases out <;> rfl
      have heval : (Tree.mark m t).eval (H.machineWith run a.activation) k =
          t.eval (H.machineWith run a.activation) k := by
        funext d
        rw [Tree.eval]
        exact hclose _
      rw [heval]
      exact ih hcode hΓ
  | stop =>
      cases hcode with
      | stop => exact fun n s d harrives hc => .normal (Nat.le_refl n) harrives ⟨rfl, hc⟩
  | @last c t _ ih =>
      cases hcode with
      | last hcode =>
          have heval : (Tree.chain t .stop).eval (H.machineWith run a.activation) k =
              t.eval (H.machineWith run a.activation) k := by
            funext d
            rw [Tree.eval]
            cases t.eval (H.machineWith run a.activation) k d <;> rfl
          rw [heval]
          exact ih hcode hΓ
  | @link c l cur next t ts _ _ hb _ ih ihs =>
      have heval : (Tree.chain t ts).eval (H.machineWith run a.activation) k = fun d =>
          (t.eval (H.machineWith run a.activation) k d).andThen
            (ts.eval (H.machineWith run a.activation) k) := by
        funext d
        rw [Tree.eval]
        cases t.eval (H.machineWith run a.activation) k d <;> rfl
      rw [heval]
      cases hcode with
      | link hb' hfirst hrest =>
          obtain ⟨rfl, rfl⟩ := Block.chain.inj (Option.some.inj (hb.symm.trans hb'))
          exact (ih hfirst hΓ).chain (ihs hrest hΓ)
      -- the rest of a sequence behind an end that is never reached has no code
      | skip hfirst => exact (ih hfirst hΓ).never

end Trees

end Blocks

end TreeVM
