import TreeVM.Defer.Refinement

/-!
# What a break leaves, and which cleanups the lowering runs in front of it

A break of level `n` counts scopes, while the epilogue stack has one entry for every
enclosing block and one for the break itself.  The two agree only in part.

* `leaves path n`: the enclosing blocks a break of level `n` leaves, its target included;
* `crossed path n`: the cleanups of the defers among them, what the break has to run;
* `Covered path n`: when the epilogues that the pass takes are exactly these;
* `Tree.BreaksIn P`, `ReplacesBreaks`: a property of every break, resp. of every break and the
  blocks that stand in its place in a lowered tree.
-/

namespace TreeVM

/-- The blocks a break of the given level leaves, innermost first. -/
def leaves : List Frame → Nat → List Frame
  | [], _ => []
  | _ :: _, 0 => []
  | f :: path, level + 1 => f :: leaves path (if f.counted then level else level + 1)

/-- The cleanup a break runs when it leaves this block. -/
def Frame.crossedCleanup : Frame → Option Tree
  | deferBody id c => some (.mark (.inlined id) c)
  | _ => none

def crossed (path : List Frame) (level : Nat) : List Tree :=
  (leaves path level).filterMap Frame.crossedCleanup

def Frame.isDeferBody : Frame → Bool
  | deferBody _ _ => true
  | _ => false

def Frame.isPadBody : Frame → Bool
  | padBody _ => true
  | _ => false

/-- Every defer body the break leaves is among the `level - 1` innermost enclosing blocks
(blocks of all kinds counted), and none of these blocks is the body of a crash pad. -/
def Covered (path : List Frame) (level : Nat) : Prop :=
  (∀ f ∈ path.take (level - 1), f.isPadBody = false) ∧
    ∀ f ∈ (leaves path level).drop (level - 1), f.isDeferBody = false

instance (path : List Frame) (level : Nat) : Decidable (Covered path level) :=
  inferInstanceAs (Decidable (_ ∧ _))

/-- The entries below the break's own one belong to blocks that it leaves. -/
theorem take_leaves (path : List Frame) {k level : Nat} (h : k < level) :
    (leaves path level).take k = path.take k := by
  induction path generalizing k level with
  | nil => simp [leaves]
  | cons f path ih =>
      obtain ⟨level, rfl⟩ : ∃ n, level = n + 1 := ⟨level - 1, by omega⟩
      cases k with
      | zero => simp
      | succ k =>
          have hk : k < if f.counted then level else level + 1 := by
            split <;> omega
          simp [leaves, ih hk]

theorem popped_eq (path : List Frame) {level : Nat} (h : 1 ≤ level) :
    popped path level = ((leaves path level).take (level - 1)).filterMap Frame.inlined := by
  rw [popped, take_leaves path (by omega)]

theorem inlined_eq_crossedCleanup {f : Frame} (h : f.isPadBody = false) :
    f.inlined = f.crossedCleanup := by
  cases f <;> simp_all [Frame.isPadBody, Frame.inlined, Frame.crossedCleanup]

theorem filterMap_inlined {fs : List Frame} (h : ∀ f ∈ fs, f.isPadBody = false) :
    fs.filterMap Frame.inlined = fs.filterMap Frame.crossedCleanup := by
  induction fs with
  | nil => rfl
  | cons f fs ih =>
      have hf := inlined_eq_crossedCleanup (h f (by simp))
      simp [List.filterMap_cons, hf, ih fun g hg => h g (by simp [hg])]

theorem mem_crossed {fs : List Frame} {u : Tree}
    (h : u ∈ fs.filterMap Frame.crossedCleanup) : ∃ id c, u = .mark (.inlined id) c := by
  obtain ⟨f, -, hf⟩ := List.mem_filterMap.mp h
  cases f <;> simp [Frame.crossedCleanup] at hf
  exact ⟨_, _, hf.symm⟩

/-- The epilogues the pass takes are the cleanups the break crosses exactly when the break is
covered. -/
theorem popped_eq_crossed_iff {path : List Frame} {level : Nat} (h : 1 ≤ level) :
    popped path level = crossed path level ↔ Covered path level := by
  have htake : (leaves path level).take (level - 1) = path.take (level - 1) :=
    take_leaves path (by omega)
  have hsplit : crossed path level =
      (path.take (level - 1)).filterMap Frame.crossedCleanup ++
        ((leaves path level).drop (level - 1)).filterMap Frame.crossedCleanup := by
    rw [crossed, ← htake, ← List.filterMap_append, List.take_append_drop]
  constructor
  · intro heq
    have hpad : ∀ f ∈ path.take (level - 1), f.isPadBody = false := by
      intro f hf
      cases hp : f.isPadBody with
      | false => rfl
      | true =>
          -- a handler among the popped epilogues is not the cleanup of any defer
          obtain ⟨p, rfl⟩ : ∃ p, f = .padBody p := by
            cases f <;> simp [Frame.isPadBody] at hp
            exact ⟨_, rfl⟩
          have hmem : Tree.mark .inlinedPad p ∈ crossed path level := by
            rw [← heq]
            exact List.mem_filterMap.mpr ⟨_, hf, rfl⟩
          obtain ⟨id, c, hc⟩ := mem_crossed hmem
          simp at hc
    refine ⟨hpad, fun f hf => ?_⟩
    have hrest : ((leaves path level).drop (level - 1)).filterMap Frame.crossedCleanup = [] := by
      rw [hsplit, popped, filterMap_inlined hpad] at heq
      simpa using heq
    cases f with
    | deferBody id c =>
        have := (List.filterMap_eq_nil_iff.mp hrest) _ hf
        simp [Frame.crossedCleanup] at this
    | _ => rfl
  · rintro ⟨hpad, hdefer⟩
    have hrest : ((leaves path level).drop (level - 1)).filterMap Frame.crossedCleanup = [] := by
      refine List.filterMap_eq_nil_iff.mpr fun f hf => ?_
      have := hdefer f hf
      cases f <;> simp_all [Frame.isDeferBody, Frame.crossedCleanup]
    rw [hsplit, hrest, popped, filterMap_inlined hpad, List.append_nil]

namespace Tree

/-- `P` holds of every break of the tree and the blocks around it. -/
def BreaksIn (P : List Frame → Nat → Prop) (path : List Frame) : Tree → Prop
  | defer id next cleanup =>
      next.BreaksIn P (.deferBody id (cleanup.lower (.cleanup :: path)) :: path) ∧
        cleanup.BreaksIn P (.cleanup :: path)
  | many body => body.BreaksIn P (.scope :: path)
  | chain cur next => cur.BreaksIn P path ∧ next.BreaksIn P path
  | crashPad body pad =>
      body.BreaksIn P (.padBody (pad.lower (.handler :: path)) :: path) ∧
        pad.BreaksIn P (.handler :: path)
  | branch _ yes no => yes.BreaksIn P (.arm :: path) ∧ no.BreaksIn P (.arm :: path)
  | loop body => body.BreaksIn P (.scope :: path)
  | brk level => P path level
  | var _ body => body.BreaksIn P (.scope :: path)
  | mark _ t => t.BreaksIn P path
  | _ => True

theorem BreaksIn.imp {P Q : List Frame → Nat → Prop} {path : List Frame} {t : Tree}
    (h : t.BreaksIn P path) (hPQ : ∀ q n, P q n → Q q n) : t.BreaksIn Q path := by
  induction t generalizing path with
  | defer id next cleanup ihn ihc => exact ⟨ihn h.1, ihc h.2⟩
  | many body ih => exact ih h
  | chain cur next ihc ihn => exact ⟨ihc h.1, ihn h.2⟩
  | crashPad body pad ihb ihp => exact ⟨ihb h.1, ihp h.2⟩
  | branch cond yes no ihy ihn => exact ⟨ihy h.1, ihn h.2⟩
  | loop body ih => exact ih h
  | brk level => exact hPQ _ _ h
  | var v body ih => exact ih h
  | mark m t ih => exact ih h
  | _ => trivial

/-- The scopes a break may leave: those around it, up to the innermost enclosing cleanup. -/
def scopes : List Frame → Nat
  | [] => 0
  | .cleanup :: _ => 0
  | f :: path => (if f.counted then 1 else 0) + scopes path

/-- Break levels count `BLOCK_MANY`, `BLOCK_LOOP`, `BLOCK_VAR` and `BLOCK_DEFER`, are at least
`1`, and no break leaves a cleanup. -/
def BreaksLegal (t : Tree) : Prop :=
  t.BreaksIn (fun path level => 1 ≤ level ∧ level ≤ scopes path) []

theorem scopes_le_length (path : List Frame) : scopes path ≤ path.length := by
  induction path with
  | nil => simp [scopes]
  | cons f path ih =>
      cases f <;> simp [scopes, Frame.counted] <;> omega

theorem LevelsWithin.of_breaksIn (path : List Frame) {t : Tree}
    (h : t.BreaksIn (fun path level => level ≤ path.length + 1) path) :
    t.LevelsWithin path.length := by
  induction t generalizing path with
  | defer id next cleanup ihn ihc => exact ⟨by simpa using ihn _ h.1, by simpa using ihc _ h.2⟩
  | many body ih => simpa [LevelsWithin] using ih _ h
  | chain cur next ihc ihn => exact ⟨ihc _ h.1, ihn _ h.2⟩
  | crashPad body pad ihb ihp => exact ⟨by simpa using ihb _ h.1, by simpa using ihp _ h.2⟩
  | branch cond yes no ihy ihn => exact ⟨by simpa using ihy _ h.1, by simpa using ihn _ h.2⟩
  | loop body ih => simpa [LevelsWithin] using ih _ h
  | brk level => exact h
  | var v body ih => simpa [LevelsWithin] using ih _ h
  | mark m t ih => exact ih _ h
  | _ => trivial

theorem BreaksLegal.levelsWithin {t : Tree} (h : t.BreaksLegal) : t.LevelsWithin 0 := by
  refine LevelsWithin.of_breaksIn [] (h.imp fun path level hl => ?_)
  have := scopes_le_length path
  omega

end Tree

/-- `u` has the shape of `t` lowered below `path`, and `P` relates every break of `t` (with the
blocks around it) to the blocks in its place in `u`.  The lowered cleanup of a defer stands in
two places of `u`, as handler and after the body. -/
def ReplacesBreaks (P : List Frame → Nat → Tree → Prop) (path : List Frame) :
    Tree → Tree → Prop
  | .defer id next cleanup, u =>
      ∃ next' cleanup',
        u = .deferBlocks id next' cleanup' ∧
        ReplacesBreaks P (.deferBody id cleanup' :: path) next next' ∧
        ReplacesBreaks P (.cleanup :: path) cleanup cleanup'
  | .many body, u => ∃ body', u = .many body' ∧ ReplacesBreaks P (.scope :: path) body body'
  | .chain cur next, u => ∃ cur' next', u = .chain cur' next' ∧
      ReplacesBreaks P path cur cur' ∧ ReplacesBreaks P path next next'
  | .crashPad body pad, u => ∃ body' pad', u = .crashPad body' pad' ∧
      ReplacesBreaks P (.padBody pad' :: path) body body' ∧
      ReplacesBreaks P (.handler :: path) pad pad'
  | .branch cond yes no, u => ∃ yes' no', u = .branch cond yes' no' ∧
      ReplacesBreaks P (.arm :: path) yes yes' ∧ ReplacesBreaks P (.arm :: path) no no'
  | .loop body, u => ∃ body', u = .loop body' ∧ ReplacesBreaks P (.scope :: path) body body'
  | .brk level, u => P path level u
  | .var v body, u => ∃ body', u = .var v body' ∧ ReplacesBreaks P (.scope :: path) body body'
  | .mark m t, u => ∃ t', u = .mark m t' ∧ ReplacesBreaks P path t t'
  | t, u => u = t

/-- On the output of the pass, a property of breaks and their images is a property of breaks. -/
theorem replacesBreaks_lower (P : List Frame → Nat → Tree → Prop) (path : List Frame) (t : Tree) :
    ReplacesBreaks P path t (t.lower path) ↔
      t.BreaksIn (fun q n => P q n (Tree.breakBlocks (popped q n) n)) path := by
  induction t generalizing path with
  | basic ops => simp [ReplacesBreaks, Tree.lower, Tree.BreaksIn]
  | stop => simp [ReplacesBreaks, Tree.lower, Tree.BreaksIn]
  | crash => simp [ReplacesBreaks, Tree.lower, Tree.BreaksIn]
  | hardCrash => simp [ReplacesBreaks, Tree.lower, Tree.BreaksIn]
  | defer id next cleanup ihn ihc =>
      simp only [ReplacesBreaks, Tree.lower, Tree.BreaksIn]
      constructor
      · rintro ⟨next', cleanup', heq, hn, hc⟩
        simp only [Tree.deferBlocks, Tree.many.injEq, Tree.chain.injEq, Tree.crashPad.injEq,
          Tree.mark.injEq, true_and, and_true] at heq
        obtain ⟨⟨rfl, rfl⟩, -⟩ := heq
        exact ⟨(ihn _).mp hn, (ihc _).mp hc⟩
      · rintro ⟨hn, hc⟩
        exact ⟨_, _, rfl, (ihn _).mpr hn, (ihc _).mpr hc⟩
  | many body ih => simp [ReplacesBreaks, Tree.lower, Tree.BreaksIn, ih]
  | chain cur next ihc ihn => simp [ReplacesBreaks, Tree.lower, Tree.BreaksIn, ihc, ihn]
  | crashPad body pad ihb ihp =>
      simp only [ReplacesBreaks, Tree.lower, Tree.BreaksIn]
      constructor
      · rintro ⟨body', pad', heq, hb, hp⟩
        simp only [Tree.crashPad.injEq] at heq
        obtain ⟨rfl, rfl⟩ := heq
        exact ⟨(ihb _).mp hb, (ihp _).mp hp⟩
      · rintro ⟨hb, hp⟩
        exact ⟨_, _, rfl, (ihb _).mpr hb, (ihp _).mpr hp⟩
  | branch cond yes no ihy ihn => simp [ReplacesBreaks, Tree.lower, Tree.BreaksIn, ihy, ihn]
  | loop body ih => simp [ReplacesBreaks, Tree.lower, Tree.BreaksIn, ih]
  | brk level => simp [ReplacesBreaks, Tree.lower, Tree.BreaksIn]
  | var v body ih => simp [ReplacesBreaks, Tree.lower, Tree.BreaksIn, ih]
  | mark m t ih => simp [ReplacesBreaks, Tree.lower, Tree.BreaksIn, ih]

theorem sequence_injective {ts us : List Tree} (h : Tree.sequence ts = Tree.sequence us) :
    ts = us := by
  induction ts generalizing us with
  | nil =>
      cases us with
      | nil => rfl
      | cons u us => simp [Tree.sequence] at h
  | cons t ts ih =>
      cases us with
      | nil => simp [Tree.sequence] at h
      | cons u us =>
          simp only [Tree.sequence, Tree.chain.injEq] at h
          rw [h.1, ih h.2]

theorem breakBlocks_injective {es fs : List Tree} {level : Nat}
    (h : Tree.breakBlocks es level = Tree.breakBlocks fs level) : es = fs := by
  unfold Tree.breakBlocks at h
  split at h <;> split at h
  · simp_all
  · simp at h
  · simp at h
  · simp only [Tree.many.injEq] at h
    simpa using sequence_injective h

/-- In `u`, every break of `t` has become the cleanups of exactly the defers it leaves, each
once and innermost first, and then the break. -/
def RunsCrossedCleanups (t u : Tree) : Prop :=
  ReplacesBreaks (fun path level v => v = Tree.breakBlocks (crossed path level) level) [] t u

/-- Every break of the tree is covered. -/
def BreaksCovered (t : Tree) : Prop :=
  t.BreaksIn Covered []

theorem runsCrossedCleanups_lower_iff {t : Tree} (h : t.BreaksLegal) :
    RunsCrossedCleanups t (t.lower []) ↔ BreaksCovered t := by
  unfold RunsCrossedCleanups BreaksCovered
  rw [replacesBreaks_lower]
  have key : ∀ (path : List Frame) (s : Tree),
      s.BreaksIn (fun path level => 1 ≤ level ∧ level ≤ Tree.scopes path) path →
      (s.BreaksIn (fun q n =>
          Tree.breakBlocks (popped q n) n = Tree.breakBlocks (crossed q n) n) path ↔
        s.BreaksIn Covered path) := by
    intro path s hs
    induction s generalizing path with
    | defer id next cleanup ihn ihc => exact and_congr (ihn _ hs.1) (ihc _ hs.2)
    | many body ih => exact ih _ hs
    | chain cur next ihc ihn => exact and_congr (ihc _ hs.1) (ihn _ hs.2)
    | crashPad body pad ihb ihp => exact and_congr (ihb _ hs.1) (ihp _ hs.2)
    | branch cond yes no ihy ihn => exact and_congr (ihy _ hs.1) (ihn _ hs.2)
    | loop body ih => exact ih _ hs
    | brk level =>
        simp only [Tree.BreaksIn] at hs ⊢
        rw [← popped_eq_crossed_iff hs.1]
        exact ⟨breakBlocks_injective, fun h => by rw [h]⟩
    | var v body ih => exact ih _ hs
    | mark m t ih => exact ih _ hs
    | _ => exact Iff.rfl
  exact key [] t h

/-- The lowering of a legal tree runs, for every break, exactly the cleanups the break crosses
if and only if every break is covered. -/
theorem removeDefers_break_paths {blocks : List Block} {t : Tree}
    (h : RepresentsTree blocks t) (hlegal : t.BreaksLegal) :
    ∃ out, (∀ fuel, t.size ≤ fuel → removeDefers fuel blocks = some out) ∧
      RepresentsTree out (t.lower []) ∧
      (RunsCrossedCleanups t (t.lower []) ↔ BreaksCovered t) := by
  obtain ⟨out, hrun, hout⟩ := removeDefers_represents h hlegal.levelsWithin
  exact ⟨out, hrun, hout, runsCrossedCleanups_lower_iff hlegal⟩

/-! ## A break under two conditions

`Loop Start If (..) If (..) Break Done Done Finally (..) End Again`: each `If` puts a
`BLOCK_BRANCH` between the break and the defer. -/

def twoIfs : List Block :=
  [.loop 1, .many (some 2) none, .defer 3 11, .many (some 4) none, .branch ⟨0, 1⟩ 5 9,
    .many (some 6) none, .branch ⟨1, 1⟩ 7 10, .many (some 8) none, .brk 6, .basic ⟨2, 0⟩,
    .basic ⟨2, 0⟩, .basic ⟨2, 1⟩]

def twoIfsTree : Tree :=
  .loop (.many (.chain (.defer 2
    (.many (.chain (.branch ⟨0, 1⟩
      (.many (.chain (.branch ⟨1, 1⟩ (.many (.chain (.brk 6) .stop)) (.basic ⟨2, 0⟩)) .stop))
      (.basic ⟨2, 0⟩)) .stop))
    (.basic ⟨2, 1⟩)) .stop))

theorem twoIfs_represents : RepresentsTree twoIfs twoIfsTree := by
  refine .loop trivial rfl (.many trivial rfl (.last (.defer trivial rfl ?_
    (.basic trivial rfl))))
  refine .many trivial rfl (.last (.branch trivial rfl ?_ (.basic trivial rfl)))
  refine .many trivial rfl (.last (.branch trivial rfl ?_ (.basic trivial rfl)))
  exact .many trivial rfl (.last (.brk trivial rfl))

theorem twoIfs_legal : twoIfsTree.BreaksLegal := by
  simp [Tree.BreaksLegal, twoIfsTree, Tree.BreaksIn, Tree.scopes, Frame.counted]

/-- The pass leaves this break as it is: the cleanup of the defer is skipped. -/
theorem twoIfs_skips_cleanup :
    RepresentsTree twoIfs twoIfsTree ∧ twoIfsTree.BreaksLegal ∧
      (∃ out, removeDefers twoIfsTree.size twoIfs = some out ∧
        RepresentsTree out (twoIfsTree.lower [])) ∧
      twoIfsTree.lower [] =
        .loop (.many (.chain (.deferBlocks 2
          (.many (.chain (.branch ⟨0, 1⟩
            (.many (.chain (.branch ⟨1, 1⟩ (.many (.chain (.brk 6) .stop)) (.basic ⟨2, 0⟩)) .stop))
            (.basic ⟨2, 0⟩)) .stop))
          (.basic ⟨2, 1⟩)) .stop)) ∧
      ¬ RunsCrossedCleanups twoIfsTree (twoIfsTree.lower []) := by
  refine ⟨twoIfs_represents, twoIfs_legal, ?_, rfl, ?_⟩
  · obtain ⟨out, hrun, hout⟩ := removeDefers_represents twoIfs_represents twoIfs_legal.levelsWithin
    exact ⟨out, hrun _ (Nat.le_refl _), hout⟩
  · rw [runsCrossedCleanups_lower_iff twoIfs_legal]
    simp only [BreaksCovered, twoIfsTree, Tree.BreaksIn]
    decide

theorem removeDefers_break_paths_twoIfs :
    ∃ out, (∀ fuel, twoIfsTree.size ≤ fuel → removeDefers fuel twoIfs = some out) ∧
      RepresentsTree out (twoIfsTree.lower []) ∧
      (RunsCrossedCleanups twoIfsTree (twoIfsTree.lower []) ↔ BreaksCovered twoIfsTree) :=
  removeDefers_break_paths twoIfs_represents twoIfs_legal

end TreeVM
