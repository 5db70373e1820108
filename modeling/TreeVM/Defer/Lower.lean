import TreeVM.IR.Tree
import TreeVM.IR.RemoveDefers

/-!
# The lowering on trees

`Tree.lower` says on trees what `remove_defers` does on arrays, and `removeDefers_represents`
proves it: the output array represents the lowered tree, although cleanup subtrees are shared
between the pad, the normal path and the copies in front of breaks.

* `Frame`: one enclosing block of the place being lowered, as the epilogue stack sees it;
* `popped`: the epilogues a break of a given level takes from the stack;
* `Epilogues`: the relation between the epilogue stack and the path of frames.
-/

namespace TreeVM

/-- An enclosing block.  `deferBody` and `padBody` carry the lowered epilogue that the block
has put on the epilogue stack while its body is lowered; all others have an entry `0`. -/
inductive Frame
  /-- `BLOCK_MANY`, `BLOCK_LOOP`, `BLOCK_VAR` -/
  | scope
  /-- an arm of a `BLOCK_BRANCH` -/
  | arm
  /-- the cleanup of a `BLOCK_DEFER` -/
  | cleanup
  /-- the handler of a `BLOCK_CRASH_PAD` -/
  | handler
  | deferBody (id : Nat) (cleanup : Tree)
  | padBody (pad : Tree)

/-- Does a break level count this block?  A defer becomes a `BLOCK_MANY`. -/
def Frame.counted : Frame → Bool
  | scope => true
  | cleanup => true
  | deferBody _ _ => true
  | arm => false
  | handler => false
  | padBody _ => false

/-- The tree on the epilogue stack. -/
def Frame.epilogue : Frame → Option Tree
  | deferBody _ c => some c
  | padBody p => some p
  | _ => none

/-- The epilogue as it is inlined in front of a break. -/
def Frame.inlined : Frame → Option Tree
  | deferBody id c => some (.mark (.inlined id) c)
  | padBody p => some (.mark .inlinedPad p)
  | _ => none

/-- The epilogues that a break of level `level` below `path` takes: the first of the `level`
entries is its own. -/
def popped (path : List Frame) (level : Nat) : List Tree :=
  (path.take (level - 1)).filterMap Frame.inlined

namespace Tree

/-- The four blocks that replace a defer. -/
def deferBlocks (id : Nat) (next cleanup : Tree) : Tree :=
  many (chain (crashPad (mark (.enter id) next) (mark (.cleanup id) cleanup))
    (chain (mark (.cleanup id) cleanup) stop))

/-- A sequence of blocks, as a chain. -/
def sequence : List Tree → Tree
  | [] => stop
  | t :: ts => chain t (sequence ts)

/-- The blocks that replace a break: the epilogues, then the break itself, one level up
because of the `BLOCK_MANY` around them. -/
def breakBlocks (epilogues : List Tree) (level : Nat) : Tree :=
  if epilogues = [] then brk level
  else many (sequence (epilogues ++ [brk (level + 1)]))

def lower (path : List Frame) : Tree → Tree
  | basic ops => basic ops
  | defer id next cleanup =>
      let cleanup' := cleanup.lower (.cleanup :: path)
      deferBlocks id (next.lower (.deferBody id cleanup' :: path)) cleanup'
  | many body => many (body.lower (.scope :: path))
  | chain cur next => chain (cur.lower path) (next.lower path)
  | stop => stop
  | crash => crash
  | hardCrash => hardCrash
  | crashPad body pad =>
      let pad' := pad.lower (.handler :: path)
      crashPad (body.lower (.padBody pad' :: path)) pad'
  | branch cond yes no => branch cond (yes.lower (.arm :: path)) (no.lower (.arm :: path))
  | loop body => loop (body.lower (.scope :: path))
  | brk level => breakBlocks (popped path level) level
  | var v body => var v (body.lower (.scope :: path))
  | mark m t => mark m (t.lower path)

/-- Every break finds at least `level` entries on the epilogue stack, counting its own: the
assertion of the pass.  `depth` is the number of enclosing blocks. -/
def LevelsWithin (depth : Nat) : Tree → Prop
  | defer _ next cleanup => next.LevelsWithin (depth + 1) ∧ cleanup.LevelsWithin (depth + 1)
  | many body => body.LevelsWithin (depth + 1)
  | chain cur next => cur.LevelsWithin depth ∧ next.LevelsWithin depth
  | crashPad body pad => body.LevelsWithin (depth + 1) ∧ pad.LevelsWithin (depth + 1)
  | branch _ yes no => yes.LevelsWithin (depth + 1) ∧ no.LevelsWithin (depth + 1)
  | loop body => body.LevelsWithin (depth + 1)
  | brk level => level ≤ depth + 1
  | var _ body => body.LevelsWithin (depth + 1)
  | mark _ t => t.LevelsWithin depth
  | _ => True

theorem deferFree_sequence {ts : List Tree} (h : ∀ t ∈ ts, t.DeferFree) :
    (sequence ts).DeferFree := by
  induction ts with
  | nil => trivial
  | cons t ts ih =>
      exact ⟨h t (by simp), ih fun u hu => h u (by simp [hu])⟩

theorem deferFree_breakBlocks {es : List Tree} {level : Nat} (h : ∀ e ∈ es, e.DeferFree) :
    (breakBlocks es level).DeferFree := by
  unfold breakBlocks
  split
  · trivial
  · refine deferFree_sequence fun t ht => ?_
    rcases List.mem_append.mp ht with ht | ht
    · exact h t ht
    · rw [List.mem_singleton.mp ht]
      trivial

/-- Lowering leaves no defer, provided the epilogues on the path contain none. -/
theorem deferFree_lower {path : List Frame} {t : Tree}
    (hpath : ∀ f ∈ path, ∀ u, f.inlined = some u → u.DeferFree) :
    (t.lower path).DeferFree := by
  induction t generalizing path with
  | basic => trivial
  | stop => trivial
  | crash => trivial
  | hardCrash => trivial
  | defer id next cleanup ihn ihc =>
      have hc : (cleanup.lower (.cleanup :: path)).DeferFree :=
        ihc (by simpa [Frame.inlined] using hpath)
      have hn : (next.lower (.deferBody id (cleanup.lower (.cleanup :: path)) :: path)).DeferFree := by
        refine ihn ?_
        simpa [Frame.inlined, DeferFree] using ⟨hc, hpath⟩
      exact ⟨⟨hn, hc⟩, hc, trivial⟩
  | many body ih => exact ih (by simpa [Frame.inlined] using hpath)
  | chain cur next ihc ihn => exact ⟨ihc hpath, ihn hpath⟩
  | crashPad body pad ihb ihp =>
      have hp : (pad.lower (.handler :: path)).DeferFree :=
        ihp (by simpa [Frame.inlined] using hpath)
      have hb : (body.lower (.padBody (pad.lower (.handler :: path)) :: path)).DeferFree := by
        refine ihb ?_
        simpa [Frame.inlined, DeferFree] using ⟨hp, hpath⟩
      exact ⟨hb, hp⟩
  | branch cond yes no ihy ihn =>
      exact ⟨ihy (by simpa [Frame.inlined] using hpath), ihn (by simpa [Frame.inlined] using hpath)⟩
  | loop body ih => exact ih (by simpa [Frame.inlined] using hpath)
  | brk level =>
      refine deferFree_breakBlocks fun e he => ?_
      obtain ⟨f, hf, hfe⟩ := List.mem_filterMap.mp he
      exact hpath f (List.mem_of_mem_take hf) e hfe
  | var v body ih => exact ih (by simpa [Frame.inlined] using hpath)
  | mark m t ih => exact ih hpath

end Tree

end TreeVM
