import TreeVM.Frontend.Growth

/-!
# What one step does to the tree and the scopes

`ScopesStand` behind every way in which the frontend moves on.

* `ScopesStand.widen`: new blocks behind the current one; then `ScopesStand.move` and `ScopesStand.push`;
* `ScopesStand.emit`: an operation is added;
* `ScopesStand.enter`, `ScopesStand.leave`: another leaf becomes the current block;
* `ScopesStand.closeCondition`, `ScopesStand.closeCleanup`: the parenthesis behind a condition or the cleanup of a prefix `Defer`.
-/

namespace TreeVM

section ScopesStand

variable {firstVar : Nat} {bs bs' : List Block} {ops vars vars' : Nat}
  {scopes rest : List FrontendScope} {scope : FrontendScope} {cur cur' depth depth' : Nat}
  {F F' N : Footprint} {R own : Region} {E E' : Path} {covered : Nat}

namespace ScopesStand

theorem leaf (h : ScopesStand firstVar bs ops vars scopes cur depth F R E covered) :
    ∃ r, bs[cur]? = some (.basic r) := by
  by_cases hreading : Reading scopes
  · obtain ⟨scope, rest, rfl, hkind, hphase⟩ := hreading
    obtain ⟨st, hst⟩ := (h.reading scope rest rfl hkind hphase).leaf
    exact ⟨_, hst⟩
  · obtain ⟨-, r, hr, -⟩ := h.writing hreading
    exact ⟨r, hr⟩

theorem lt (h : ScopesStand firstVar bs ops vars scopes cur depth F R E covered) :
    ∀ e ∈ F, e.1 < bs.length :=
  h.forms.owns.lt

/-- The leaves that are remembered are old blocks. -/
theorem known (h : ScopesStand firstVar bs ops vars scopes cur depth F R E covered) :
    ∀ i ∈ R.waiting ++ R.done, i < bs.length := by
  intro i hi
  obtain ⟨p, hp⟩ := h.opened.mem i hi
  exact h.lt _ hp

theorem cur_ne (h : ScopesStand firstVar bs ops vars scopes cur depth F R E covered) :
    ∀ i ∈ R.waiting ++ R.done, i ≠ cur := by
  rintro i hi rfl
  exact (List.nodup_cons.mp h.nodup).1 hi

end ScopesStand

/-! ## New blocks -/

/-- The tree behind a growth, before the current block changes. -/
structure Widened (firstVar : Nat) (bs bs' : List Block) (ops vars : Nat)
    (scopes : List FrontendScope) (F N F' : Footprint) (R : Region) : Prop where
  forms : Forms bs' F'
  opened : Open bs' F' scopes R
  spoiled : Spoiled bs' scopes
  tiles : Tiles bs' F' ops ops
  owned : OwnsVars bs' F' firstVar vars
  waiting : ∀ i ∈ R.waiting, ∃ st, bs'[i]? = some (.basic ⟨st, 0⟩)
  inner : KeepsInner bs bs'
  mem : ∀ e, e ∈ F' ↔ e ∈ F ∨ e ∈ N

theorem ScopesStand.widen {before : Nat} {newVar : Option (Nat × Nat)}
    (h : ScopesStand firstVar bs ops vars scopes cur depth F R E covered) (hreading : ¬ Reading scopes)
    (hg : TreeGrows bs bs' ops cur before (E ++ R.path) N newVar)
    (hvars : newVar = none ∧ vars' = vars ∨ ∃ i, newVar = some (vars, i) ∧ vars' = vars + 1) :
    ∃ F', Widened firstVar bs bs' ops vars' scopes F N F' R := by
  obtain ⟨rfl, r, hcur, -⟩ := h.writing hreading
  obtain ⟨F', hforms, hmem⟩ := h.forms.grow h.here hcur
    (fun e he hne => hg.other e.1 (h.lt e he) hne) hg.owns hg.nodup hg.fresh
  have hinner := hg.keepsInner hcur
  have hold : ∀ i ∈ R.waiting ++ R.done, bs'[i]? = bs[i]? :=
    fun i hi => hg.other i (h.known i hi) (h.cur_ne i hi)
  have hopened : Open bs' F' scopes R := by
    refine h.opened.mono (fun e he => (hmem e).mpr (.inl he)) hinner fun i hi => ?_
    rw [hold i (List.mem_append_right _ hi)]
  have hspoiled : Spoiled bs' scopes := by
    cases scopes with
    | nil => trivial
    | cons scope rest =>
        intro hcaptures
        rcases h.capturing scope rest rfl hcaptures with ⟨-, rfl⟩ | ⟨-, hspoiled⟩
        · obtain ⟨c, l, hlink⟩ := hg.link
          exact ⟨_, hlink, by simp [Block.Inner]⟩
        · exact hspoiled.mono hinner hcaptures
  refine ⟨F', hforms, hopened, hspoiled, ?_, ?_, ?_, hinner, hmem⟩
  · exact h.tiles.grow hg h.lt h.here (Nat.le_refl _) hmem
  · exact h.owned.grow hg hcur h.lt hmem h.count hvars
  · intro i hi
    rw [hold i (List.mem_append_left _ hi)]
    exact h.waiting i hi

/-- The current block becomes a new leaf of the same scope. -/
theorem ScopesStand.move (h : ScopesStand firstVar bs ops vars scopes cur depth F R E covered)
    (hreading : ¬ Reading scopes) (hw : Widened firstVar bs bs' ops vars' scopes F N F' R)
    (hle : vars ≤ vars') (hhere : (cur', E' ++ R.path) ∈ N) (hfresh : bs.length ≤ cur')
    (hleaf : bs'[cur']? = some (.basic ⟨ops, 0⟩)) (hclean : Clean E') (hne : E' ≠ [])
    (hdepth : depth' = (E' ++ R.path).length + R.excess) :
    ScopesStand firstVar bs' ops vars' scopes cur' depth' F' R E' ops where
  forms := hw.forms
  opened := hw.opened
  clean := hclean
  here := (hw.mem _).mpr (.inr hhere)
  depth := hdepth
  capturing := by
    rintro scope rest rfl -
    exact .inr ⟨hne, hw.spoiled⟩
  nodup := by
    refine List.nodup_cons.mpr ⟨fun hmem => ?_, (List.nodup_cons.mp h.nodup).2⟩
    have hlt := h.known cur' hmem
    omega
  waiting := hw.waiting
  tiles := hw.tiles
  owned := hw.owned
  count := Nat.le_trans h.count hle
  reading := by
    rintro scope rest rfl hkind hphase
    exact absurd ⟨scope, rest, rfl, hkind, hphase⟩ hreading
  writing _ := ⟨rfl, _, hleaf, by simp⟩

/-- A scope is opened. -/
theorem ScopesStand.push (h : ScopesStand firstVar bs ops vars scopes cur depth F R E covered)
    (hbody : InBody scopes) (hw : Widened firstVar bs bs' ops vars scopes F N F' R)
    (hparent : scope.parentDepth = depth)
    (hafter : (scope.after, (cur, false) :: E ++ R.path) ∈ N)
    (hblock : (scope.block, (cur, false) :: E ++ R.path) ∈ N)
    (hinside : InsideScope bs' F' scope ((cur, false) :: E ++ R.path) R.excess own)
    (hhere : (cur', own.path) ∈ N) (hdepth : depth' = own.path.length + own.excess)
    (hnodup : (cur' :: (own.waiting ++ own.done)).Nodup)
    (hfresh : ∀ i ∈ cur' :: (own.waiting ++ own.done), bs.length ≤ i)
    (hleaf : ∀ i ∈ cur' :: own.waiting, bs'[i]? = some (.basic ⟨ops, 0⟩))
    (hcaptures : scope.Captures → cur' = scope.second)
    (hcond : scope.kind = .branch → scope.phase = .waitOpen ∨ scope.phase = .condition →
      AtCondition bs' ops cur' ops scope) :
    ScopesStand firstVar bs' ops vars (scope :: scopes) cur' depth' F'
      ⟨own.path, own.excess, own.waiting ++ R.waiting, own.done ++ R.done⟩ [] ops where
  forms := hw.forms
  opened := by
    refine .cons hw.opened hbody hw.spoiled ?_ (List.cons_ne_nil _ _)
      ((hw.mem _).mpr (.inr hafter)) ((hw.mem _).mpr (.inr hblock)) ?_ hinside ?_
    · intro e he
      rcases List.mem_cons.mp he with rfl | he
      · rfl
      · exact h.clean e he
    · rw [hparent, h.depth]
      simp only [List.cons_append, List.length_cons]
      omega
    · intro hc hmem
      have hlt := h.known _ hmem
      have hle := hfresh cur' List.mem_cons_self
      rw [hcaptures hc] at hle
      omega
  clean := nofun
  here := (hw.mem _).mpr (.inr hhere)
  depth := hdepth
  capturing := by
    intro scope' rest' heq hc
    obtain ⟨rfl, -⟩ := List.cons.inj heq
    exact .inl ⟨rfl, hcaptures hc⟩
  nodup := by
    have hold := (List.nodup_cons.mp h.nodup).2
    have hperm : List.Perm
        (cur' :: ((own.waiting ++ R.waiting) ++ (own.done ++ R.done)))
        ((cur' :: (own.waiting ++ own.done)) ++ (R.waiting ++ R.done)) := by
      simp only [List.cons_append, List.append_assoc, List.perm_cons]
      refine List.Perm.append_left _ ?_
      rw [← List.append_assoc, ← List.append_assoc]
      exact List.Perm.append_right _ List.perm_append_comm
    refine hperm.nodup_iff.mpr (List.nodup_append.mpr ⟨hnodup, hold, ?_⟩)
    rintro i hi j hj rfl
    have hlt := h.known i hj
    have hle := hfresh i hi
    omega
  waiting := by
    intro i hi
    rcases List.mem_append.mp hi with hi | hi
    · exact ⟨ops, hleaf i (List.mem_cons_of_mem _ hi)⟩
    · exact hw.waiting i hi
  tiles := hw.tiles
  owned := hw.owned
  count := h.count
  reading := by
    intro scope' rest' heq hkind hphase
    obtain ⟨rfl, -⟩ := List.cons.inj heq
    exact hcond hkind hphase
  writing _ := ⟨rfl, _, hleaf cur' List.mem_cons_self, by simp⟩

/-! ## New scopes -/

end ScopesStand

/-- The scope of an `If`; `n` is the number of the first new block. -/
def newBranch (n depth : Nat) : FrontendScope where
  kind := .branch
  phase := .waitOpen
  block := n + 3
  first := n
  second := n + 1
  after := n + 5
  parentDepth := depth

/-- The scope of a `Loop` -/
def newLoop (n depth : Nat) : FrontendScope where
  kind := .loop
  phase := .body
  block := n + 3
  first := n + 1
  after := n + 5
  parentDepth := depth
  breakDepth := depth + 2
  continueDepth := depth + 3

/-- The scope of a `Start` or of a prefix `Defer` -/
def newEpilogue (n depth : Nat) (implicitEnd : Bool) : FrontendScope where
  kind := .epilogue
  phase := if implicitEnd then .cleanupWaitOpen else .body
  block := n + 3
  first := n
  second := n + 1
  after := n + 5
  parentDepth := depth
  implicitEnd := implicitEnd

section ScopesStand

variable {firstVar : Nat} {bs bs' : List Block} {ops vars vars' : Nat}
  {scopes rest : List FrontendScope} {scope : FrontendScope} {cur cur' depth depth' : Nat}
  {F F' N : Footprint} {R own : Region} {E E' : Path} {covered : Nat}

/-- The block has neither operations nor a variable. -/
def Block.Blank (ops : Nat) : Block → Prop
  | .basic r => r = ⟨ops, 0⟩
  | .branch cond _ _ => cond = ⟨ops, 0⟩
  | .var _ _ => False
  | _ => True

theorem Block.Blank.range {b : Block} {r : OpRange} {i : Nat} (h : b.Blank ops)
    (hi : bs[i]? = some b) (hr : rangeAt bs i = some r) : r = ⟨ops, 0⟩ := by
  rw [rangeAt, hi] at hr
  cases b <;> simp_all [Block.Blank]

theorem Block.Blank.varAt {b : Block} {i : Nat} (h : b.Blank ops) (hi : bs[i]? = some b) :
    TreeVM.varAt bs i = none := by
  rw [TreeVM.varAt, hi]
  cases b <;> simp_all [Block.Blank]

/-- `wrap_current` with two blocks that were made for the middle one. -/
theorem ScopesStand.wrap {b₀ b₁ middle : Block} {C : Footprint}
    (h : ScopesStand firstVar bs ops vars scopes cur depth F R E covered) (hreading : ¬ Reading scopes)
    (hbs' : bs' = wrapped (bs ++ [b₀, b₁]) cur ops middle)
    (hC : bs'[bs.length]? = some b₀ → bs'[bs.length + 1]? = some b₁ →
      bs'[bs.length + 3]? = some middle →
      Owns bs' ((cur, false) :: (E ++ R.path)) (.node (bs.length + 3)) C)
    (hindices : C.indices = [bs.length + 3, bs.length, bs.length + 1] ∨
      C.indices = [bs.length + 3, bs.length + 1, bs.length])
    (hblank : ∀ b ∈ [b₀, b₁, middle], b.Blank ops) :
    bs'[bs.length]? = some b₀ ∧ bs'[bs.length + 1]? = some b₁ ∧ bs'[bs.length + 3]? = some middle ∧
      bs'[bs.length + 5]? = some (.basic ⟨ops, 0⟩) ∧
      ∃ F', Widened firstVar bs bs' ops vars scopes F
        (wrapFootprint (bs.length + 2) cur (E ++ R.path) C) F' R := by
  obtain ⟨rfl, r, hcur, -⟩ := h.writing hreading
  have hlt : cur < bs.length := h.lt _ h.here
  have hlen : (bs ++ [b₀, b₁]).length = bs.length + 2 := by simp
  have h₀ : bs'[bs.length]? = some b₀ := by
    rw [hbs', wrapped_pre hlt (Nat.le_refl _) (by simp)]
    simp
  have h₁ : bs'[bs.length + 1]? = some b₁ := by
    rw [hbs', wrapped_pre hlt (by omega) (by simp)]
    simp
  have h₂ : bs'[bs.length + 3]? = some middle := by
    rw [hbs', wrapped_middle (by omega) (by omega)]
  refine ⟨h₀, h₁, h₂, by rw [hbs', wrapped_after (by omega) (by omega)], ?_⟩
  have hat : ∀ e ∈ C, ∃ b ∈ [b₀, b₁, middle], bs'[e.1]? = some b := by
    intro e he
    have hmem : e.1 ∈ C.indices := List.mem_map_of_mem he
    have hcases : e.1 = bs.length + 3 ∨ e.1 = bs.length ∨ e.1 = bs.length + 1 := by
      rcases hindices with hi | hi <;> rw [hi] at hmem <;> simp at hmem <;> omega
    rcases hcases with heq | heq | heq <;> rw [heq]
    · exact ⟨middle, by simp, h₂⟩
    · exact ⟨b₀, by simp, h₀⟩
    · exact ⟨b₁, by simp, h₁⟩
  have hgrows := grows_wrap (C := C) hcur
    (by rw [hlen, ← hbs']; exact hC h₀ h₁ h₂) ?_ ?_ ?_ ?_
  · rw [← hbs', hlen] at hgrows
    exact h.widen hreading hgrows (.inl ⟨rfl, rfl⟩)
  · rcases hindices with hi | hi <;> rw [hi] <;> simp
  · intro e he
    have hmem : e.1 ∈ C.indices := List.mem_map_of_mem he
    rcases hindices with hi | hi <;> rw [hi] at hmem <;> simp at hmem <;> omega
  · intro e he r' hr'
    obtain ⟨b, hb, heq⟩ := hat e he
    rw [← hbs'] at hr'
    exact (hblank b hb).range heq hr'
  · intro e he
    obtain ⟨b, hb, heq⟩ := hat e he
    rw [← hbs']
    exact (hblank b hb).varAt heq

theorem ScopesStand.openIf (h : ScopesStand firstVar bs ops vars scopes cur depth F R E covered)
    (hbody : InBody scopes)
    (hbs' : bs' = wrapped (bs ++ [.basic ⟨ops, 0⟩, .basic ⟨ops, 0⟩]) cur ops
      (.branch ⟨ops, 0⟩ bs.length (bs.length + 1))) :
    KeepsInner bs bs' ∧ ∃ F' R', (∀ e ∈ F, e ∈ F') ∧ ScopesStand firstVar bs' ops vars
      (newBranch bs.length depth :: scopes) bs.length (depth + 1) F' R' [] ops := by
  obtain ⟨hyes, hno, hbranch, hafter, F', hw⟩ := h.wrap hbody.1 hbs'
    (fun hyes hno hbranch => .branch hbranch (.basic hyes) (.basic hno)) (.inl rfl)
    (by simp [Block.Blank])
  have hmem : ∀ e, e ∈ wrapFootprint (bs.length + 2) cur (E ++ R.path) _ → e ∈ F' :=
    fun e he => (hw.mem e).mpr (.inr he)
  refine ⟨hw.inner, F', _, fun e he => (hw.mem e).mpr (.inl he), h.push hbody hw rfl ?_ ?_
    (.condition rfl (.inl rfl) rfl (hmem _ ?_) (hmem _ ?_)) ?_ ?_ ?_ ?_ ?_ ?_ ?_⟩
  · simp [wrapFootprint, newBranch]
  · simp [wrapFootprint, newBranch]
  · simp [wrapFootprint, newBranch]
  · simp [wrapFootprint, newBranch]
  · simp [wrapFootprint]
  · have hdepth := h.depth
    simp only [List.cons_append, List.length_cons]
    omega
  · simp [newBranch]
  · simp [newBranch]
  · simp [newBranch, hyes, hno, hafter]
  · exact fun hc => absurd hc.1 (by simp [newBranch])
  · exact fun _ _ => ⟨rfl, ⟨_, hyes⟩, hbranch, Nat.le_refl _, fun _ => rfl⟩

theorem ScopesStand.openLoop (h : ScopesStand firstVar bs ops vars scopes cur depth F R E covered)
    (hbody : InBody scopes)
    (hbs' : bs' = wrapped (bs ++ [.basic ⟨ops, 0⟩, .many (some bs.length) none]) cur ops
      (.loop (bs.length + 1))) :
    KeepsInner bs bs' ∧ ∃ F' R', (∀ e ∈ F, e ∈ F') ∧ ScopesStand firstVar bs' ops vars
      (newLoop bs.length depth :: scopes) bs.length (depth + 3) F' R' [] ops := by
  obtain ⟨hfirst, hmany, hloop, hafter, F', hw⟩ := h.wrap hbody.1 hbs'
    (fun hfirst hmany hloop => .loop hloop (.many hmany (.last (.basic hfirst)))) (.inr rfl)
    (by simp [Block.Blank])
  have hmem : ∀ e, e ∈ wrapFootprint (bs.length + 2) cur (E ++ R.path) _ → e ∈ F' :=
    fun e he => (hw.mem e).mpr (.inr he)
  refine ⟨hw.inner, F', _, fun e he => (hw.mem e).mpr (.inl he), h.push hbody hw rfl ?_ ?_
    (.loop rfl rfl rfl rfl rfl rfl hloop (hmem _ ?_) ⟨_, _, hmany⟩) ?_ ?_ ?_ ?_ ?_ ?_ ?_⟩
  · simp [wrapFootprint, newLoop]
  · simp [wrapFootprint, newLoop]
  · simp [wrapFootprint, newLoop]
  · simp [wrapFootprint, newLoop]
  · have hdepth := h.depth
    simp only [List.cons_append, List.length_cons]
    omega
  · simp [newLoop]
  · simp [newLoop]
  · simp [newLoop, hfirst, hafter]
  · exact fun hc => absurd hc.1 (by simp [newLoop])
  · exact fun hkind => absurd hkind (by simp [newLoop])

theorem ScopesStand.openEpilogue (h : ScopesStand firstVar bs ops vars scopes cur depth F R E covered)
    (hbody : InBody scopes) (implicitEnd : Bool)
    (hbs' : bs' = wrapped (bs ++ [.basic ⟨ops, 0⟩, .basic ⟨ops, 0⟩]) cur ops
      (.defer bs.length (bs.length + 1))) :
    KeepsInner bs bs' ∧ ∃ F' R', (∀ e ∈ F, e ∈ F') ∧ ScopesStand firstVar bs' ops vars
      (newEpilogue bs.length depth implicitEnd :: scopes)
      (if implicitEnd then bs.length + 1 else bs.length) (depth + 2) F' R' [] ops := by
  obtain ⟨hnext, hcleanup, hdefer, hafter, F', hw⟩ := h.wrap hbody.1 hbs'
    (fun hnext hcleanup hdefer => .defer hdefer (.basic hnext) (.basic hcleanup)) (.inl rfl)
    (by simp [Block.Blank])
  have hmem : ∀ e, e ∈ wrapFootprint (bs.length + 2) cur (E ++ R.path) _ → e ∈ F' :=
    fun e he => (hw.mem e).mpr (.inr he)
  have hdepth := h.depth
  refine ⟨hw.inner, F', ?_⟩
  cases implicitEnd with
  | false =>
      refine ⟨_, fun e he => (hw.mem e).mpr (.inl he), h.push hbody hw rfl ?_ ?_
        (.protect rfl rfl rfl rfl (hmem _ ?_)) ?_ ?_ ?_ ?_ ?_ ?_ ?_⟩
      · simp [wrapFootprint, newEpilogue]
      · simp [wrapFootprint, newEpilogue]
      · simp [wrapFootprint, newEpilogue]
      · simp [wrapFootprint, newEpilogue]
      · simp only [List.cons_append, List.length_cons]
        omega
      · simp [newEpilogue]
      · simp [newEpilogue]
      · simp [newEpilogue, hnext, hcleanup, hafter]
      · exact fun hc => absurd hc.1 (by simp [newEpilogue])
      · exact fun hkind => absurd hkind (by simp [newEpilogue])
  | true =>
      refine ⟨_, fun e he => (hw.mem e).mpr (.inl he), h.push hbody hw rfl ?_ ?_
        (.capture rfl (.inl rfl) rfl (hmem _ ?_) (hmem _ ?_) ?_ ?_) ?_ ?_ ?_ ?_ ?_ ?_ ?_⟩
      · simp [wrapFootprint, newEpilogue]
      · simp [wrapFootprint, newEpilogue]
      · simp [wrapFootprint, newEpilogue]
      · simp [wrapFootprint, newEpilogue]
      · simp [newEpilogue]
      · simp [newEpilogue]
      · simp [wrapFootprint, newEpilogue]
      · simp only [List.cons_append, List.length_cons]
        omega
      · simp [newEpilogue]
      · simp [newEpilogue]
      · simp [newEpilogue, hnext, hcleanup, hafter]
      · exact fun _ => rfl
      · exact fun hkind => absurd hkind (by simp [newEpilogue])

/-- `Break` and `Continue`: the jump stands in front of the current block. -/
theorem ScopesStand.exit {level : Nat} (h : ScopesStand firstVar bs ops vars scopes cur depth F R E covered)
    (hreading : ¬ Reading scopes) (hbs' : bs' = wrapped bs cur ops (.brk level)) :
    KeepsInner bs bs' ∧ bs'[bs.length + 1]? = some (.brk level) ∧ ∃ F',
      (∀ e ∈ F, e ∈ F') ∧ (bs.length + 1, (cur, false) :: (E ++ R.path)) ∈ F' ∧
      ScopesStand firstVar bs' ops vars scopes (bs.length + 3) (depth + 1) F' R ((cur, false) :: E) ops := by
  obtain ⟨rfl, r, hcur, -⟩ := h.writing hreading
  have hlt : cur < bs.length := h.lt _ h.here
  have hbrk : bs'[bs.length + 1]? = some (.brk level) := by rw [hbs', wrapped_middle hlt rfl]
  have hafter : bs'[bs.length + 3]? = some (.basic ⟨covered, 0⟩) := by
    rw [hbs', wrapped_after hlt rfl]
  have hgrows : TreeGrows bs bs' covered cur bs.length (E ++ R.path)
      (wrapFootprint bs.length cur (E ++ R.path)
        [(bs.length + 1, (cur, false) :: (E ++ R.path))]) none := by
    rw [hbs'] at hbrk ⊢
    have hgrows := @grows_wrap bs [] cur covered (E ++ R.path) (.brk level) _
      [(bs.length + 1, (cur, false) :: (E ++ R.path))] hcur
    simp only [List.append_nil] at hgrows
    refine hgrows (.brk hbrk) (by simp [Footprint.indices]) (by simp) ?_ ?_
    · simp [rangeAt, hbrk]
    · simp [varAt, hbrk]
  obtain ⟨F', hw⟩ := h.widen hreading hgrows (.inl ⟨rfl, rfl⟩)
  refine ⟨hw.inner, hbrk, F', fun e he => (hw.mem e).mpr (.inl he),
    (hw.mem _).mpr (.inr (by simp [wrapFootprint])), ?_⟩
  refine h.move hreading hw (Nat.le_refl _) (by simp [wrapFootprint]) (by omega) hafter ?_
    (List.cons_ne_nil _ _) ?_
  · intro e he
    rcases List.mem_cons.mp he with rfl | he
    · rfl
    · exact h.clean e he
  · rw [h.depth]
    simp only [List.cons_append, List.length_cons]
    omega

/-- `Var`: the rest of the scope is the body of the variable. -/
theorem ScopesStand.declare {b : Block} (h : ScopesStand firstVar bs ops vars scopes cur depth F R E covered)
    (hreading : ¬ Reading scopes) (hcur : bs[cur]? = some b)
    (hbs' : bs' = (bs ++ [b, .var vars (bs.length + 3), .chain (some (bs.length + 1)) none,
      .basic ⟨ops, 0⟩]).set cur (.many (some bs.length) (some (bs.length + 2)))) :
    KeepsInner bs bs' ∧ ∃ F' E', (∀ e ∈ F, e ∈ F') ∧
      ScopesStand firstVar bs' ops (vars + 1) scopes (bs.length + 3) (depth + 2) F' R E' ops := by
  obtain ⟨rfl, r, hbasic, -⟩ := h.writing hreading
  obtain rfl : b = .basic r := Option.some.inj (hcur.symm.trans hbasic)
  have hlt : cur < bs.length := h.lt _ h.here
  have hnth : ∀ k, bs'[bs.length + k]? = _ := fun k => hbs' ▸ grown_new hlt
  have hbefore : bs'[bs.length]? = some (.basic r) := hnth 0
  have hvar : bs'[bs.length + 1]? = some (.var vars (bs.length + 3)) := hnth 1
  have hchain : bs'[bs.length + 2]? = some (.chain (some (bs.length + 1)) none) := hnth 2
  have hbody : bs'[bs.length + 3]? = some (.basic ⟨covered, 0⟩) := hnth 3
  have hmany : bs'[cur]? = some (.many (some bs.length) (some (bs.length + 2))) := by
    rw [hbs', grown_cur hlt]
  have hgrows : TreeGrows bs bs' covered cur bs.length (E ++ R.path)
      [(bs.length, (cur, false) :: (E ++ R.path)), (bs.length + 2, (cur, false) :: (E ++ R.path)),
        (bs.length + 1, (cur, false) :: (E ++ R.path)),
        (bs.length + 3, (bs.length + 1, false) :: (cur, false) :: (E ++ R.path))]
      (some (vars, bs.length + 1)) := by
    refine ⟨?_, ⟨_, _, hmany⟩, ?_, by simp [Footprint.indices], by simp, by simp,
      hbefore.trans hcur.symm, by simp [rangeAt, hvar, hchain, hbody], ?_, ?_⟩
    · intro i hi hne
      rw [hbs', grown_old hi hne]
    · exact .many hmany (.link (.basic hbefore) hchain (.last (.var hvar (.basic hbody))))
    · simp [varAt, hbefore, hvar, hchain, hbody]
    · intro v i heq
      cases heq
      exact ⟨(cur, false) :: (E ++ R.path), by simp⟩
  obtain ⟨F', hw⟩ := h.widen hreading hgrows (.inr ⟨_, rfl, rfl⟩)
  refine ⟨hw.inner, F', (bs.length + 1, false) :: (cur, false) :: E,
    fun e he => (hw.mem e).mpr (.inl he), ?_⟩
  refine h.move hreading hw (Nat.le_succ _) (by simp) (by omega) hbody ?_ (List.cons_ne_nil _ _) ?_
  · intro e he
    rcases List.mem_cons.mp he with rfl | he
    · rfl
    rcases List.mem_cons.mp he with rfl | he
    · rfl
    · exact h.clean e he
  · rw [h.depth]
    simp only [List.cons_append, List.length_cons]
    omega

/-! ## Operations -/

theorem relabels_end {i n : Nat} {r : OpRange} (hi : bs[i]? = some (.basic r)) :
    Relabels bs (bs.modify i (Block.endBasic n)) := by
  refine relabels_modify fun b hb => ?_
  rw [hi] at hb
  cases hb
  exact ⟨_, rfl⟩

namespace ScopesStand

/-- Ranges change only. -/
theorem opened_relabel (h : ScopesStand firstVar bs ops vars scopes cur depth F R E covered)
    (hsame : Relabels bs bs') : Open bs' F scopes R :=
  h.opened.mono (fun _ he => he) hsame.keepsInner fun i hi =>
    hsame.basic_iff (h.known i (List.mem_append_right _ hi))

theorem capturing_relabel (h : ScopesStand firstVar bs ops vars scopes cur depth F R E covered)
    (hsame : Relabels bs bs') : ∀ scope rest, scopes = scope :: rest → scope.Captures →
      (E = [] ∧ cur = scope.second) ∨ (E ≠ [] ∧ Spoiled bs' scopes) := by
  intro scope rest heq hc
  rcases h.capturing scope rest heq hc with hcase | ⟨hne, hspoiled⟩
  · exact .inl hcase
  · exact .inr ⟨hne, hspoiled.mono hsame.keepsInner⟩

/-- An operation is added to the current block. -/
theorem emit (h : ScopesStand firstVar bs ops vars scopes cur depth F R E covered)
    (hreading : ¬ Reading scopes) :
    ScopesStand firstVar (bs.modify cur (Block.endBasic (ops + 1))) (ops + 1) vars scopes cur depth F R E
      (ops + 1) := by
  obtain ⟨rfl, r, hcur, hend⟩ := h.writing hreading
  have hsame : Relabels bs (bs.modify cur (Block.endBasic (covered + 1))) := relabels_end hcur
  have hnew : (bs.modify cur (Block.endBasic (covered + 1)))[cur]? =
      some (.basic ⟨r.start, covered + 1 - r.start⟩) := by
    rw [List.getElem?_modify_eq, hcur]
    rfl
  have hother : ∀ i, i ≠ cur → (bs.modify cur (Block.endBasic (covered + 1)))[i]? = bs[i]? :=
    fun i hne => List.getElem?_modify_ne _ _ hne.symm
  refine ⟨h.forms.relabel hsame, h.opened_relabel hsame, h.clean, h.here, h.depth,
    h.capturing_relabel hsame, h.nodup, fun i hi => ?_, ?_, h.owned.relabel hsame h.lt, h.count,
    ?_, fun _ => ⟨rfl, _, hnew, ?_⟩⟩
  · rw [hother i (h.cur_ne i (List.mem_append_left _ hi))]
    exact h.waiting i hi
  · refine h.tiles.extend h.here (r := r) ?_ hend ?_ ?_ (Nat.le_succ _) (Nat.le_refl _)
      (Nat.le_succ _)
    · simp [rangeAt, hcur]
    · simp [rangeAt, hnew]
    · intro e _ hne
      rw [rangeAt, hother e.1 hne, rangeAt]
  · rintro scope rest rfl hkind hphase
    exact absurd ⟨scope, rest, rfl, hkind, hphase⟩ hreading
  · simp only
    omega

/-- An operation is added to the condition that is read. -/
theorem read (h : ScopesStand firstVar bs ops vars (scope :: rest) cur depth F R E covered)
    (hkind : scope.kind = .branch) (hphase : scope.phase = .condition) :
    ScopesStand firstVar bs (ops + 1) vars (scope :: rest) cur depth F R E covered := by
  have hat := h.reading scope rest rfl hkind (.inr hphase)
  refine { h with
    tiles := h.tiles.congr (fun _ _ => .inl rfl) (Nat.le_succ _)
    reading := ?_
    writing := fun hreading => absurd ⟨scope, rest, rfl, hkind, .inr hphase⟩ hreading }
  intro scope' rest' heq _ _
  obtain ⟨rfl, -⟩ := List.cons.inj heq
  exact { hat with
    le := Nat.le_succ_of_le hat.le
    awaited := fun hawaited => by
      rw [hphase] at hawaited
      cases hawaited }

/-- Blocks are added that nothing refers to. -/
theorem append (h : ScopesStand firstVar bs ops vars scopes cur depth F R E covered)
    (ys : List Block) :
    ScopesStand firstVar (bs ++ ys) ops vars scopes cur depth F R E covered := by
  have hsame : Relabels bs (bs ++ ys) := relabels_append ys
  have hold : ∀ i, i < bs.length → (bs ++ ys)[i]? = bs[i]? := fun i hi =>
    List.getElem?_append_left hi
  have hcur : cur < bs.length := h.lt _ h.here
  refine ⟨h.forms.relabel hsame, h.opened_relabel hsame, h.clean, h.here, h.depth,
    h.capturing_relabel hsame, h.nodup, fun i hi => ?_, ?_, h.owned.relabel hsame h.lt, h.count,
    ?_, fun hreading => ?_⟩
  · rw [hold i (h.known i (List.mem_append_left _ hi))]
    exact h.waiting i hi
  · refine h.tiles.congr (fun e he => .inl ?_) (Nat.le_refl _)
    rw [rangeAt, hold e.1 (h.lt e he), rangeAt]
  · intro scope rest heq hkind hphase
    have hat := h.reading scope rest heq hkind hphase
    obtain ⟨st, hst⟩ := hat.leaf
    refine { hat with leaf := ⟨st, (hold cur hcur).trans hst⟩, cond := ?_ }
    rw [hold _ (List.getElem?_eq_some_iff.mp hat.cond).1]
    exact hat.cond
  · obtain ⟨hcovered, r, hr, hend⟩ := h.writing hreading
    exact ⟨hcovered, r, (hold cur hcur).trans hr, hend⟩

end ScopesStand

/-! ## Another leaf -/

/-- The data of a leaf that waits changes. -/
theorem startAt {i st : Nat} (hi : bs[i]? = some (.basic ⟨st, 0⟩)) :
    (bs.modify i (Block.setStart ops))[i]? = some (.basic ⟨ops, 0⟩) := by
  rw [List.getElem?_modify_eq, hi]
  rfl

theorem relabels_start {i st : Nat} (hi : bs[i]? = some (.basic ⟨st, 0⟩)) :
    Relabels bs (bs.modify i (Block.setStart ops)) := by
  refine relabels_modify fun b hb => ?_
  rw [hi] at hb
  cases hb
  exact ⟨_, rfl⟩

theorem Tiles.start {i st n : Nat} (h : Tiles bs F n ops) (hi : bs[i]? = some (.basic ⟨st, 0⟩)) :
    Tiles (bs.modify i (Block.setStart ops)) F n ops := by
  refine h.congr (fun e _ => ?_) (Nat.le_refl _)
  by_cases he : e.1 = i
  · refine .inr ⟨⟨st, 0⟩, ⟨ops, 0⟩, ?_, rfl, ?_, rfl, Nat.le_refl _⟩
    · simp [rangeAt, he, hi]
    · simp [rangeAt, he, startAt hi]
  · left
    rw [rangeAt, List.getElem?_modify_ne _ _ (Ne.symm he), rangeAt]

namespace ScopesStand

/-- A leaf that waits becomes the current block. -/
theorem enter {scopes' : List FrontendScope} {R' : Region} {i : Nat}
    (h : ScopesStand firstVar bs ops vars scopes cur depth F R E covered)
    (hreading : ¬ Reading scopes) (hi : i ∈ R.waiting) (hopened : Open bs F scopes' R')
    (hclean : Clean E') (hhere : (i, E' ++ R'.path) ∈ F)
    (hdepth : depth' = (E' ++ R'.path).length + R'.excess)
    (hcapturing : ∀ scope rest, scopes' = scope :: rest → scope.Captures →
      (E' = [] ∧ i = scope.second) ∨ (E' ≠ [] ∧ Spoiled bs scopes'))
    (hnodup : (i :: (R'.waiting ++ R'.done)).Nodup) (hwaiting : ∀ j ∈ R'.waiting, j ∈ R.waiting)
    (hreading' : ¬ Reading scopes') :
    ScopesStand firstVar (bs.modify i (Block.setStart ops)) ops vars scopes' i depth' F R' E' ops := by
  obtain ⟨rfl, -⟩ := h.writing hreading
  obtain ⟨st, hst⟩ := h.waiting i hi
  have hsame : Relabels bs (bs.modify i (Block.setStart covered)) := relabels_start hst
  refine ⟨h.forms.relabel hsame, ?_, hclean, hhere, hdepth, ?_, hnodup, fun j hj => ?_,
    h.tiles.start hst, h.owned.relabel hsame h.lt, h.count, ?_, fun _ => ⟨rfl, _, startAt hst, ?_⟩⟩
  · refine hopened.mono (fun _ he => he) hsame.keepsInner fun j hj => hsame.basic_iff ?_
    obtain ⟨p, hp⟩ := hopened.mem j (List.mem_append_right _ hj)
    exact h.lt _ hp
  · intro scope rest heq hc
    rcases hcapturing scope rest heq hc with hcase | ⟨hne, hspoiled⟩
    · exact .inl hcase
    · exact .inr ⟨hne, hspoiled.mono hsame.keepsInner⟩
  · have hne : j ≠ i := by
      rintro rfl
      exact (List.nodup_cons.mp hnodup).1 (List.mem_append_left _ hj)
    rw [List.getElem?_modify_ne _ _ hne.symm]
    exact h.waiting j (hwaiting j hj)
  · rintro scope rest rfl hkind hphase
    exact absurd ⟨scope, rest, rfl, hkind, hphase⟩ hreading'
  · simp

/-- The range of a leaf that waits is moved. -/
theorem touch {i : Nat} (h : ScopesStand firstVar bs ops vars scopes cur depth F R E covered)
    (hreading : ¬ Reading scopes) (hi : i ∈ R.waiting) :
    ScopesStand firstVar (bs.modify i (Block.setStart ops)) ops vars scopes cur depth F R E covered := by
  obtain ⟨st, hst⟩ := h.waiting i hi
  have hsame : Relabels bs (bs.modify i (Block.setStart ops)) := relabels_start hst
  have hne : cur ≠ i := (h.cur_ne i (List.mem_append_left _ hi)).symm
  refine ⟨h.forms.relabel hsame, h.opened_relabel hsame, h.clean, h.here, h.depth,
    h.capturing_relabel hsame, h.nodup, fun j hj => ?_, h.tiles.start hst,
    h.owned.relabel hsame h.lt, h.count, ?_, fun hwriting => ?_⟩
  · by_cases hji : j = i
    · subst hji
      exact ⟨ops, startAt hst⟩
    · rw [List.getElem?_modify_ne _ _ (Ne.symm hji)]
      exact h.waiting j hj
  · rintro scope rest rfl hkind hphase
    exact absurd ⟨scope, rest, rfl, hkind, hphase⟩ hreading
  · obtain ⟨hcovered, r, hr, hend⟩ := h.writing hwriting
    refine ⟨hcovered, r, ?_, hend⟩
    rw [List.getElem?_modify_ne _ _ hne.symm]
    exact hr

/-- The innermost scope is left. -/
theorem leave (h : ScopesStand firstVar bs ops vars (scope :: rest) cur depth F R E covered)
    (hreading : ¬ Reading (scope :: rest)) :
    scope.after ∈ R.waiting ∧ ∃ R' E', ScopesStand firstVar (bs.modify scope.after (Block.setStart ops)) ops vars rest scope.after
      (scope.parentDepth + 1) F R' E' ops := by
  cases h.opened with
  | @cons _ _ R₀ E₀ own hopened hrest hspoiled hclean hne hafter _ hdepth hinside _ =>
      have hwaits := hinside.after_waits
      refine ⟨List.mem_append_left _ hwaits, R₀, E₀,
        h.enter hreading (List.mem_append_left _ hwaits) hopened hclean hafter hdepth
          (fun _ _ _ _ => .inr ⟨hne, hspoiled⟩) ?_ (fun j hj => List.mem_append_right _ hj) hrest.1⟩
      refine List.Nodup.sublist ?_ (List.nodup_cons.mp h.nodup).2
      rw [← List.cons_append]
      refine List.Sublist.append ?_ (List.sublist_append_right _ _)
      exact List.Sublist.append (List.singleton_sublist.mpr hwaits) (List.Sublist.refl _)

/-- The other arm of an `If` -/
theorem turnElse (h : ScopesStand firstVar bs ops vars (scope :: rest) cur depth F R E covered)
    (hkind : scope.kind = .branch) (hphase : scope.phase = .body) :
    scope.second ∈ R.waiting ∧ ∃ R' E', ScopesStand firstVar
      (bs.modify scope.second (Block.setStart ops)) ops vars
      ({ scope with phase := .elseBody } :: rest) scope.second (scope.parentDepth + 1) F R' E' ops := by
  have hreading : ¬ Reading (scope :: rest) := by
    rintro ⟨_, _, heq, -, hphase'⟩
    cases heq
    rw [hphase] at hphase'
    rcases hphase' with h | h <;> cases h
  cases h.opened with
  | @cons _ _ R₀ E₀ own hopened hrest hspoiled hclean hne hafter hblock hdepth hinside _ =>
      cases hinside with
      | yes _ _ hdelim himplicit hsecond =>
          have hinside' : InsideScope bs F { scope with phase := .elseBody } (E₀ ++ R₀.path) R₀.excess _ :=
            .no hkind rfl hdelim himplicit
          have hopened' : Open bs F ({ scope with phase := .elseBody } :: rest) _ :=
            .cons hopened hrest hspoiled hclean hne hafter hblock hdepth hinside'
              fun hc => absurd hc.1 (by simp [himplicit])
          refine ⟨List.mem_cons_self, _, [],
            h.enter hreading List.mem_cons_self hopened' nofun hsecond hdepth ?_ ?_ ?_ ?_⟩
          · intro scope' rest' heq hc
            cases heq
            exact absurd hc.1 (by simp [himplicit])
          · exact (List.nodup_cons.mp h.nodup).2
          · exact fun j hj => List.mem_cons_of_mem _ hj
          · rintro ⟨_, _, heq, -, hphase'⟩
            cases heq
            simp at hphase'
      | _ => simp_all

/-- The cleanup of a `Start` -/
theorem turnFinally (h : ScopesStand firstVar bs ops vars (scope :: rest) cur depth F R E covered)
    (hkind : scope.kind = .epilogue) (himplicit : scope.implicitEnd = false)
    (hphase : scope.phase = .body) :
    scope.second ∈ R.waiting ∧ ∃ R' E', ScopesStand firstVar
      (bs.modify scope.second (Block.setStart ops)) ops vars
      ({ scope with phase := .cleanup } :: rest) scope.second (scope.parentDepth + 2) F R' E' ops := by
  have hreading : ¬ Reading (scope :: rest) := by
    rintro ⟨_, _, heq, hkind', -⟩
    cases heq
    rw [hkind] at hkind'
    cases hkind'
  cases h.opened with
  | @cons _ _ R₀ E₀ own hopened hrest hspoiled hclean hne hafter hblock hdepth hinside _ =>
      cases hinside with
      | protect _ _ hdelim _ hsecond =>
          have hinside' : InsideScope bs F { scope with phase := .cleanup } (E₀ ++ R₀.path) R₀.excess _ :=
            .cleanup hkind rfl hdelim himplicit
          have hopened' : Open bs F ({ scope with phase := .cleanup } :: rest) _ :=
            .cons hopened hrest hspoiled hclean hne hafter hblock hdepth hinside'
              fun hc => absurd hc.1 (by simp [himplicit])
          refine ⟨List.mem_cons_self, _, [],
            h.enter hreading List.mem_cons_self hopened' nofun hsecond ?_ ?_ ?_ ?_ ?_⟩
          · simp only [List.nil_append, List.length_cons]
            omega
          · intro scope' rest' heq hc
            cases heq
            exact absurd hc.1 (by simp [himplicit])
          · exact (List.nodup_cons.mp h.nodup).2
          · exact fun j hj => List.mem_cons_of_mem _ hj
          · rintro ⟨_, _, heq, hkind', -⟩
            cases heq
            rw [hkind] at hkind'
            cases hkind'
      | _ => simp_all

/-- A parenthesis is counted in front of or inside a condition or a cleanup. -/
theorem mark {d : Nat} {phase : ScopePhase}
    (h : ScopesStand firstVar bs ops vars (scope :: rest) cur depth F R E covered)
    (hcase : scope.kind = .branch ∧ (scope.phase = .waitOpen ∨ scope.phase = .condition) ∧
        phase = .condition ∨
      scope.implicitEnd = true ∧ (scope.phase = .cleanupWaitOpen ∨ scope.phase = .cleanup) ∧
        phase = .cleanup) :
    ScopesStand firstVar bs ops vars ({ scope with delimiterDepth := d, phase := phase } :: rest) cur
      depth F R E covered := by
  cases h.opened with
  | @cons _ _ R₀ E₀ own hopened hrest hspoiled hclean hne hafter hblock hdepth hinside hsecond =>
      have hcaptures : ({ scope with delimiterDepth := d, phase := phase } : FrontendScope).Captures ↔
          scope.Captures := by
        rcases hcase with ⟨-, hphase, rfl⟩ | ⟨himplicit, hphase, rfl⟩
        · rcases hphase with hphase | hphase <;> simp [FrontendScope.Captures, hphase]
        · rcases hphase with hphase | hphase <;> simp [FrontendScope.Captures, hphase]
      have hinside' : InsideScope bs F { scope with delimiterDepth := d, phase := phase } (E₀ ++ R₀.path)
          R₀.excess own := by
        rcases hcase with ⟨hkind, hphase, rfl⟩ | ⟨himplicit, hphase, rfl⟩
        · cases hinside with
          | condition hkind _ himplicit hfirst hsecond =>
              exact .condition hkind (.inr rfl) himplicit hfirst hsecond
          | _ => simp_all
        · cases hinside with
          | capture hkind _ himplicit hfirst hsecond hne hne' =>
              exact .capture hkind (.inr rfl) himplicit hfirst hsecond hne hne'
          | _ => simp_all
      refine { h with opened := ?_, capturing := ?_, reading := ?_, writing := ?_ }
      · exact .cons hopened hrest hspoiled hclean hne hafter hblock hdepth hinside'
          fun hc => hsecond (hcaptures.mp hc)
      · intro scope' rest' heq hc
        cases heq
        refine (h.capturing scope rest rfl (hcaptures.mp hc)).imp id fun ⟨hne, hspoiled⟩ => ⟨hne, ?_⟩
        exact fun hc => hspoiled (hcaptures.mp hc)
      · intro scope' rest' heq hkind hphase
        cases heq
        rcases hcase with ⟨-, hphase', rfl⟩ | ⟨himplicit, -, rfl⟩
        · have hat := h.reading scope rest rfl hkind hphase'
          exact { hat with awaited := nofun }
        · rcases hphase with hphase | hphase <;> cases hphase
      · intro hreading
        refine h.writing ?_
        rintro ⟨_, _, heq, hkind, hphase⟩
        cases heq
        refine hreading ⟨_, _, rfl, hkind, ?_⟩
        rcases hcase with ⟨-, -, rfl⟩ | ⟨himplicit, hphase', -⟩
        · exact .inr rfl
        · rcases hphase with hphase | hphase <;> rcases hphase' with hphase' | hphase' <;>
            rw [hphase] at hphase' <;> cases hphase'

theorem relabels_condition (h : ScopesStand firstVar bs ops vars (scope :: rest) cur depth F R E covered)
    (hkind : scope.kind = .branch) (hphase : scope.phase = .condition) :
    Relabels bs (bs.modify scope.block (Block.endCond ops)) := by
  refine relabels_modify fun b hb => ?_
  rw [(h.reading scope rest rfl hkind (.inr hphase)).cond] at hb
  cases hb
  exact ⟨_, rfl⟩

/-- The leaf that the first arm begins with -/
theorem first_leaf (h : ScopesStand firstVar bs ops vars (scope :: rest) cur depth F R E covered)
    (hkind : scope.kind = .branch) (hphase : scope.phase = .condition) :
    ∃ st, (bs.modify scope.block (Block.endCond ops))[scope.first]? = some (.basic ⟨st, 0⟩) := by
  have hat := h.reading scope rest rfl hkind (.inr hphase)
  obtain ⟨st, hleaf⟩ := hat.leaf
  rw [hat.first] at hleaf
  refine ⟨st, ?_⟩
  rw [List.getElem?_modify_ne _ _ ?_]
  · exact hleaf
  · intro heq
    rw [← heq, hat.cond] at hleaf
    cases hleaf

/-- The condition ends, and the first arm begins. -/
theorem closeCondition (h : ScopesStand firstVar bs ops vars (scope :: rest) cur depth F R E covered)
    (hkind : scope.kind = .branch) (hphase : scope.phase = .condition) :
    ScopesStand firstVar
      ((bs.modify scope.block (Block.endCond ops)).modify scope.first (Block.setStart ops)) ops vars
      ({ scope with delimiterDepth := 0, phase := .body } :: rest) scope.first depth F R [] ops := by
  have hat := h.reading scope rest rfl hkind (.inr hphase)
  obtain rfl := hat.first
  have hcond := h.relabels_condition hkind hphase
  obtain ⟨st, hleaf'⟩ := h.first_leaf hkind hphase
  have hlt : ∀ i, i < bs.length → i < (bs.modify scope.block (Block.endCond ops)).length := by
    intro i hi
    rw [List.length_modify]
    exact hi
  have htiles : Tiles (bs.modify scope.block (Block.endCond ops)) F ops ops := by
    cases h.opened with
    | cons _ _ _ _ _ _ hblock _ _ _ =>
        refine h.tiles.extend hblock (r := ⟨covered, 0⟩) ?_ rfl ?_ ?_ hat.le (Nat.le_refl _)
          (Nat.le_refl _)
        · simp [rangeAt, hat.cond]
        · simp [rangeAt, List.getElem?_modify_eq, hat.cond, Block.endCond]
        · intro e _ he
          rw [rangeAt, List.getElem?_modify_ne _ _ (Ne.symm he), rangeAt]
  cases h.opened with
  | @cons _ _ R₀ E₀ own hopened hrest hspoiled hclean hne' hafter hblock hdepth hinside hsecond =>
      cases hinside with
      | condition _ _ himplicit hfirst hsecond =>
          have hinside' : InsideScope bs F { scope with delimiterDepth := 0, phase := .body }
              (E₀ ++ R₀.path) R₀.excess _ := .yes hkind rfl rfl himplicit hsecond
          have hopened' : Open bs F ({ scope with delimiterDepth := 0, phase := .body } :: rest) _ :=
            .cons hopened hrest hspoiled hclean hne' hafter hblock hdepth hinside'
              fun hc => absurd hc.1 (by simp [himplicit])
          have hsame : Relabels (bs.modify scope.block (Block.endCond ops))
              ((bs.modify scope.block (Block.endCond ops)).modify scope.first (Block.setStart ops)) :=
            relabels_start hleaf'
          have hpath : E ++ (E₀ ++ R₀.path) = E₀ ++ R₀.path := h.forms.path_unique h.here hfirst
          refine ⟨(h.forms.relabel hcond).relabel hsame, ?_, List.forall_mem_nil _, hfirst, ?_, ?_, h.nodup, ?_,
            htiles.start hleaf', (h.owned.relabel hcond h.lt).relabel hsame ?_, h.count, ?_, ?_⟩
          · refine (hopened'.mono (fun _ he => he) hcond.keepsInner fun i hi => ?_).mono
              (fun _ he => he) hsame.keepsInner fun i hi => ?_
            · exact hcond.basic_iff (h.known i (List.mem_append_right _ hi))
            · exact hsame.basic_iff (hlt i (h.known i (List.mem_append_right _ hi)))
          · rw [h.depth]
            simp only at hpath ⊢
            rw [hpath]
            rfl
          · intro scope' rest' heq hc
            cases heq
            exact absurd hc.1 (by simp [himplicit])
          · intro i hi
            have hi' := List.mem_append_left R₀.done hi
            obtain ⟨st', hst'⟩ := h.waiting i hi
            refine ⟨st', ?_⟩
            rw [List.getElem?_modify_ne _ _ (h.cur_ne i (List.mem_append_left _ hi)).symm,
              List.getElem?_modify_ne, hst']
            rintro rfl
            rw [hat.cond] at hst'
            cases hst'
          · exact fun e he => hlt e.1 (h.lt e he)
          · intro scope' rest' heq _ hphase'
            cases heq
            rcases hphase' with hphase' | hphase' <;> cases hphase'
          · exact fun _ => ⟨rfl, _, startAt hleaf', by simp⟩
      | _ => simp_all

/-- The cleanup of a prefix `Defer` ends. -/
theorem closeCleanup (h : ScopesStand firstVar bs ops vars (scope :: rest) cur depth F R E covered)
    (himplicit : scope.implicitEnd = true) (hphase : scope.phase = .cleanup) :
    scope.first ∈ R.waiting ∧ ∃ R' E', ScopesStand firstVar
      (bs.modify scope.first (Block.setStart ops)) ops vars
      ({ scope with delimiterDepth := 0, phase := .body } :: rest) scope.first depth F R' E' ops := by
  cases h.opened with
  | @cons _ _ R₀ E₀ own hopened hrest hspoiled hclean hne hafter hblock hdepth hinside hsecond =>
      cases hinside with
      | capture hkind _ _ hfirst hsecond' hdiff hdiff' =>
          have hreading : ¬ Reading (scope :: rest) := by
            rintro ⟨_, _, heq, hkind', -⟩
            cases heq
            rw [hkind] at hkind'
            cases hkind'
          have hcaptures : scope.Captures := ⟨himplicit, by simp [hphase]⟩
          -- the blocks around the current one are those that the cleanup is the root of
          have hexcess : E.length = 0 ↔ ∃ r, bs[scope.second]? = some (.basic r) := by
            rcases h.capturing scope rest rfl hcaptures with ⟨rfl, rfl⟩ | ⟨hne, hspoiled⟩
            · exact ⟨fun _ => h.leaf, fun _ => rfl⟩
            · obtain ⟨b, hb, hinner⟩ := hspoiled hcaptures
              constructor
              · intro hlen
                exact absurd (List.eq_nil_of_length_eq_zero hlen) hne
              · rintro ⟨r, hr⟩
                rw [hr] at hb
                exact absurd (Option.some.inj hb).symm (hinner r)
          have hinside' : InsideScope bs F { scope with delimiterDepth := 0, phase := .body }
              (E₀ ++ R₀.path) R₀.excess _ := .rest hkind rfl rfl himplicit hsecond' hexcess
          have hopened' : Open bs F ({ scope with delimiterDepth := 0, phase := .body } :: rest) _ :=
            .cons hopened hrest hspoiled hclean hne hafter hblock hdepth hinside'
              fun hc => absurd rfl hc.2
          refine ⟨List.mem_cons_self, _, [],
            h.enter hreading List.mem_cons_self hopened' (List.forall_mem_nil _) hfirst ?_ ?_ ?_ ?_ ?_⟩
          · rw [h.depth]
            simp only [List.length_append, List.length_cons, List.length_nil]
            omega
          · intro scope' rest' heq hc
            cases heq
            exact absurd rfl hc.2
          · have hnodup := (List.nodup_cons.mp h.nodup).2
            have hsecond := hsecond hcaptures
            simp only [List.cons_append, List.nil_append, List.nodup_cons, List.mem_cons,
              List.mem_append, not_or] at hnodup hsecond ⊢
            refine ⟨⟨hnodup.1.1, hnodup.1.2.1, hdiff.symm, hnodup.1.2.2⟩,
              ⟨hnodup.2.1.1, hdiff'.symm, hnodup.2.1.2⟩, ?_⟩
            refine List.nodup_middle.mpr (List.nodup_cons.mpr ⟨?_, hnodup.2.2⟩)
            simpa using hsecond
          · exact fun j hj => List.mem_cons_of_mem _ hj
          · rintro ⟨_, _, heq, hkind', -⟩
            cases heq
            rw [hkind] at hkind'
            cases hkind'
      | _ => simp_all

end ScopesStand

end ScopesStand

end TreeVM
