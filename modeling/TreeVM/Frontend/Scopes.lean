import TreeVM.Frontend.Shape
import TreeVM.Frontend.State

/-!
# The open scopes and the tree

What holds between the scope stack and the tree that is being built.

* `InsideScope`: where the words inside one scope go, and which leaves are entered later;
* `Open`: the scope stack; `excess` is by how much `scope_depth` is larger than the number of scopes;
* `ScopesStand`: the invariant of the frontend; `FootprintFits` hides what is not stored.
-/

namespace TreeVM

/-- No cleanup of a `BLOCK_DEFER` is entered. -/
def Clean (E : Path) : Prop :=
  ∀ e ∈ E, e.2 = false

/-- The inside of the innermost open scopes: the path of its first block, the excess of
`scope_depth`, the leaves that are still to be entered, and the cleanups of prefix `Defer`s. -/
structure Region where
  path : Path
  excess : Nat
  waiting : List Nat
  done : List Nat

/-- The block is not a leaf. -/
def Block.Inner (b : Block) : Prop :=
  ∀ r, b ≠ .basic r

/-- The condition of an `If` is awaited or read. -/
def Reading (scopes : List FrontendScope) : Prop :=
  ∃ scope rest, scopes = scope :: rest ∧ scope.kind = .branch ∧
    (scope.phase = .waitOpen ∨ scope.phase = .condition)

/-- The innermost scope takes words: nothing is read, and no parenthesis is expected. -/
def InBody (scopes : List FrontendScope) : Prop :=
  ¬ Reading scopes ∧ ∀ scope rest, scopes = scope :: rest → scope.phase ≠ .cleanupWaitOpen

section Invariant

variable (bs : List Block) (F : Footprint)

/-- The block of the scope has the path `P`, and the excess was `d` when the scope was opened. -/
inductive InsideScope (scope : FrontendScope) (P : Path) (d : Nat) : Region → Prop
  | loop : scope.kind = .loop → scope.phase = .body → scope.delimiterDepth = 0 →
      scope.implicitEnd = false →
      scope.breakDepth = scope.parentDepth + 2 → scope.continueDepth = scope.parentDepth + 3 →
      bs[scope.block]? = some (.loop scope.first) → (scope.first, (scope.block, false) :: P) ∈ F →
      (∃ c l, bs[scope.first]? = some (.many c l)) →
      InsideScope scope P d
        ⟨(scope.first, false) :: (scope.block, false) :: P, d, [scope.after], []⟩
  | condition : scope.kind = .branch → scope.phase = .waitOpen ∨ scope.phase = .condition →
      scope.implicitEnd = false → (scope.first, P) ∈ F → (scope.second, P) ∈ F →
      InsideScope scope P d ⟨P, d, [scope.second, scope.after], []⟩
  | yes : scope.kind = .branch → scope.phase = .body → scope.delimiterDepth = 0 →
      scope.implicitEnd = false → (scope.second, P) ∈ F →
      InsideScope scope P d ⟨P, d, [scope.second, scope.after], []⟩
  | no : scope.kind = .branch → scope.phase = .elseBody → scope.delimiterDepth = 0 →
      scope.implicitEnd = false → InsideScope scope P d ⟨P, d, [scope.after], []⟩
  | protect : scope.kind = .epilogue → scope.phase = .body → scope.delimiterDepth = 0 →
      scope.implicitEnd = false → (scope.second, (scope.block, true) :: P) ∈ F →
      InsideScope scope P d ⟨(scope.block, false) :: P, d, [scope.second, scope.after], []⟩
  | cleanup : scope.kind = .epilogue → scope.phase = .cleanup → scope.delimiterDepth = 0 →
      scope.implicitEnd = false →
      InsideScope scope P d ⟨(scope.block, true) :: P, d, [scope.after], []⟩
  | capture : scope.kind = .epilogue → scope.phase = .cleanupWaitOpen ∨ scope.phase = .cleanup →
      scope.implicitEnd = true → (scope.first, (scope.block, false) :: P) ∈ F →
      (scope.second, (scope.block, true) :: P) ∈ F →
      scope.second ≠ scope.first → scope.second ≠ scope.after →
      InsideScope scope P d ⟨(scope.block, true) :: P, d, [scope.first, scope.after], []⟩
  | rest {e : Nat} : scope.kind = .epilogue → scope.phase = .body → scope.delimiterDepth = 0 →
      scope.implicitEnd = true → (scope.second, (scope.block, true) :: P) ∈ F →
      (e = 0 ↔ ∃ r, bs[scope.second]? = some (.basic r)) →
      InsideScope scope P d ⟨(scope.block, false) :: P, d + e, [scope.after], [scope.second]⟩

/-- The scope reads the cleanup of a prefix `Defer`. -/
def FrontendScope.Captures (scope : FrontendScope) : Prop :=
  scope.implicitEnd = true ∧ scope.phase ≠ .body

/-- The cleanup that is read, if any, is no longer a leaf. -/
def Spoiled : List FrontendScope → Prop
  | [] => True
  | scope :: _ => scope.Captures → ∃ b, bs[scope.second]? = some b ∧ b.Inner

/-- The scope stack, the innermost scope first. -/
inductive Open : List FrontendScope → Region → Prop
  | nil : Open [] ⟨[], 0, [], []⟩
  | cons {scope rest R E own} : Open rest R → InBody rest → Spoiled bs rest → Clean E → E ≠ [] →
      (scope.after, E ++ R.path) ∈ F → (scope.block, E ++ R.path) ∈ F →
      scope.parentDepth + 1 = (E ++ R.path).length + R.excess →
      InsideScope bs F scope (E ++ R.path) R.excess own →
      (scope.Captures → scope.second ∉ R.waiting ++ R.done) →
      Open (scope :: rest)
        ⟨own.path, own.excess, own.waiting ++ R.waiting, own.done ++ R.done⟩

end Invariant

/-- The current block while a condition is awaited or read: the first `covered` operations are in
the tree, the others belong to the condition. -/
structure AtCondition (bs : List Block) (ops cur covered : Nat) (scope : FrontendScope) : Prop where
  first : cur = scope.first
  leaf : ∃ st, bs[cur]? = some (.basic ⟨st, 0⟩)
  cond : bs[scope.block]? = some (.branch ⟨covered, 0⟩ scope.first scope.second)
  le : covered ≤ ops
  awaited : scope.phase = .waitOpen → covered = ops

structure ScopesStand (firstVar : Nat) (bs : List Block) (ops vars : Nat) (scopes : List FrontendScope)
    (cur depth : Nat) (F : Footprint) (R : Region) (E : Path) (covered : Nat) : Prop where
  forms : Forms bs F
  opened : Open bs F scopes R
  clean : Clean E
  here : (cur, E ++ R.path) ∈ F
  depth : depth = (E ++ R.path).length + R.excess
  capturing : ∀ scope rest, scopes = scope :: rest → scope.Captures →
    (E = [] ∧ cur = scope.second) ∨ (E ≠ [] ∧ Spoiled bs scopes)
  nodup : (cur :: (R.waiting ++ R.done)).Nodup
  waiting : ∀ i ∈ R.waiting, ∃ st, bs[i]? = some (.basic ⟨st, 0⟩)
  tiles : Tiles bs F covered ops
  owned : OwnsVars bs F firstVar vars
  count : firstVar ≤ vars
  reading : ∀ scope rest, scopes = scope :: rest → scope.kind = .branch →
    scope.phase = .waitOpen ∨ scope.phase = .condition → AtCondition bs ops cur covered scope
  writing : ¬ Reading scopes →
    covered = ops ∧ ∃ r, bs[cur]? = some (.basic r) ∧ r.start + r.len = ops

/-- The function has its entry block, its tree consists of `F`, and the scopes fit it. -/
def FootprintFits {M : Type} (firstVar : Nat) (fe : Frontend M) (F : Footprint) : Prop :=
  ∃ R E covered, ScopesStand firstVar fe.func.blocks fe.func.ops.length fe.func.vars.length fe.scopes
    fe.currentBasic fe.scopeDepth F R E covered

/-! ## Frames -/

/-- Inner blocks stay, up to the condition of a branch. -/
def KeepsInner (bs bs' : List Block) : Prop :=
  ∀ (i : Nat) (b : Block), bs[i]? = some b → b.Inner → ∃ b', bs'[i]? = some b' ∧ b'.Inner ∧
    ((∀ c y n, b ≠ .branch c y n) → b' = b)

section Frames

variable {bs bs' : List Block} {F F' : Footprint} {scopes rest : List FrontendScope} {R : Region}

theorem Spoiled.mono (h : Spoiled bs scopes) (hkeeps : KeepsInner bs bs') : Spoiled bs' scopes := by
  cases scopes with
  | nil => trivial
  | cons scope rest =>
      intro hcaptures
      obtain ⟨b, hb, hinner⟩ := h hcaptures
      obtain ⟨b', hb', hinner', -⟩ := hkeeps _ _ hb hinner
      exact ⟨b', hb', hinner'⟩

theorem InsideScope.mono {scope : FrontendScope} {P : Path} {d : Nat}
    (h : InsideScope bs F scope P d R) (hF : ∀ e ∈ F, e ∈ F') (hkeeps : KeepsInner bs bs')
    (hdone : ∀ i ∈ R.done, (∃ r, bs'[i]? = some (.basic r)) ↔ ∃ r, bs[i]? = some (.basic r)) :
    InsideScope bs' F' scope P d R := by
  cases h with
  | loop hk hp hd hi hbreak hcontinue hblock hfirst hmany =>
      obtain ⟨b, hb, -, heq⟩ := hkeeps _ _ hblock (by simp [Block.Inner])
      obtain ⟨c, l, hmany⟩ := hmany
      obtain ⟨b', hb', -, heq'⟩ := hkeeps _ _ hmany (by simp [Block.Inner])
      rw [heq (by simp)] at hb
      rw [heq' (by simp)] at hb'
      exact .loop hk hp hd hi hbreak hcontinue hb (hF _ hfirst) ⟨c, l, hb'⟩
  | condition hk hp hi hfirst hsecond => exact .condition hk hp hi (hF _ hfirst) (hF _ hsecond)
  | yes hk hp hd hi hsecond => exact .yes hk hp hd hi (hF _ hsecond)
  | no hk hp hd hi => exact .no hk hp hd hi
  | protect hk hp hd hi hsecond => exact .protect hk hp hd hi (hF _ hsecond)
  | cleanup hk hp hd hi => exact .cleanup hk hp hd hi
  | capture hk hp hi hfirst hsecond hne hne' =>
      exact .capture hk hp hi (hF _ hfirst) (hF _ hsecond) hne hne'
  | rest hk hp hd hi hsecond he =>
      exact .rest hk hp hd hi (hF _ hsecond) (he.trans (hdone _ List.mem_cons_self).symm)

theorem Open.mono (h : Open bs F scopes R) (hF : ∀ e ∈ F, e ∈ F') (hkeeps : KeepsInner bs bs')
    (hdone : ∀ i ∈ R.done, (∃ r, bs'[i]? = some (.basic r)) ↔ ∃ r, bs[i]? = some (.basic r)) :
    Open bs' F' scopes R := by
  induction h with
  | nil => exact .nil
  | cons _ hbody hspoiled hclean hne hafter hblock hdepth hinside hsecond ih =>
      refine .cons (ih fun i hi => hdone i (List.mem_append_right _ hi)) hbody (hspoiled.mono hkeeps)
        hclean hne (hF _ hafter) (hF _ hblock) hdepth
        (hinside.mono hF hkeeps fun i hi => hdone i (List.mem_append_left _ hi)) hsecond

theorem InsideScope.mem {scope : FrontendScope} {P : Path} {d : Nat} (h : InsideScope bs F scope P d R)
    (hafter : (scope.after, P) ∈ F) : ∀ i ∈ R.waiting ++ R.done, ∃ p, (i, p) ∈ F := by
  intro i hi
  cases h with
  | loop _ _ _ _ _ _ _ _ _ =>
      obtain rfl := List.mem_singleton.mp hi
      exact ⟨_, hafter⟩
  | condition _ _ _ _ hsecond =>
      rcases List.mem_cons.mp hi with rfl | hi
      · exact ⟨_, hsecond⟩
      · obtain rfl := List.mem_singleton.mp hi
        exact ⟨_, hafter⟩
  | yes _ _ _ _ hsecond =>
      rcases List.mem_cons.mp hi with rfl | hi
      · exact ⟨_, hsecond⟩
      · obtain rfl := List.mem_singleton.mp hi
        exact ⟨_, hafter⟩
  | no _ _ _ _ =>
      obtain rfl := List.mem_singleton.mp hi
      exact ⟨_, hafter⟩
  | protect _ _ _ _ hsecond =>
      rcases List.mem_cons.mp hi with rfl | hi
      · exact ⟨_, hsecond⟩
      · obtain rfl := List.mem_singleton.mp hi
        exact ⟨_, hafter⟩
  | cleanup _ _ _ _ =>
      obtain rfl := List.mem_singleton.mp hi
      exact ⟨_, hafter⟩
  | capture _ _ _ hfirst _ _ _ =>
      rcases List.mem_cons.mp hi with rfl | hi
      · exact ⟨_, hfirst⟩
      · obtain rfl := List.mem_singleton.mp hi
        exact ⟨_, hafter⟩
  | rest _ _ _ _ hsecond _ =>
      rcases List.mem_cons.mp hi with rfl | hi
      · exact ⟨_, hafter⟩
      · obtain rfl := List.mem_singleton.mp hi
        exact ⟨_, hsecond⟩

/-- The leaves that are still to be entered are part of the tree. -/
theorem Open.mem (h : Open bs F scopes R) : ∀ i ∈ R.waiting ++ R.done, ∃ p, (i, p) ∈ F := by
  induction h with
  | nil => nofun
  | cons _ _ _ _ _ hafter _ _ hinside _ ih =>
      intro i hi
      simp only [List.mem_append] at hi
      rcases hi with (hi | hi) | hi | hi
      · exact hinside.mem hafter i (List.mem_append_left _ hi)
      · exact ih i (List.mem_append_left _ hi)
      · exact hinside.mem hafter i (List.mem_append_right _ hi)
      · exact ih i (List.mem_append_right _ hi)

/-- The block behind the scope waits. -/
theorem InsideScope.after_waits {scope : FrontendScope} {P : Path} {d : Nat}
    (h : InsideScope bs F scope P d R) : scope.after ∈ R.waiting := by
  cases h <;> simp

end Frames

end TreeVM
