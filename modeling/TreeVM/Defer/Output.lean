import Mathlib.Data.Fintype.Card
import Mathlib.Data.Set.Finite.Basic
import TreeVM.Compile.Entered
import TreeVM.Defer.Refinement

/-!
# What `remove_defers` leaves

The pass allocates cells before it fills them and copies the roots of cleanups, so that an index
of the output may point down, up or at a cell that several others point at.

* `SourceTree`: the block trees the pass is made for, as conditions on the places of the array;
* `SourceTree.represented`: such an array stands for a tree;
* `Grown`: what a call does to the array, and that every cell it allocates stands under its `dst`;
* `LoweredBlocks`: what holds of every cell of the output;
* `removeDefers_wellFormed`: the pass ends, and that is what it leaves.
-/

namespace TreeVM

/-! ## Acyclic relations -/

/-- Finitely many points have a predecessor, and no way back from `a` runs in a circle: every way
back from `a` ends. -/
theorem acc_of_acyclic {α : Type} {r : α → α → Prop} {a : α} (hfinite : Set.Finite {b | ∃ c, r c b})
    (hacyclic : ∀ b, Relation.ReflTransGen r b a → ¬ Relation.TransGen r b b) : Acc r a := by
  let s : Set α := {b | (∃ c, r c b) ∧ Relation.ReflTransGen r b a}
  have hs : Finite s := (hfinite.subset fun b hb => hb.1).to_subtype
  let before : s → s → Prop := fun x y => Relation.TransGen r x.1 y.1
  have htrans : IsTrans s before := ⟨fun _ _ _ hxy hyz => hxy.trans hyz⟩
  have hirrefl : Std.Irrefl before := ⟨fun x => hacyclic x.1 x.2.2⟩
  have hwf : WellFounded before := Finite.wellFounded_of_trans_of_irrefl before
  have hstep : ∀ b, Relation.ReflTransGen r b a →
      (∀ c (hc : c ∈ s), r c b → Acc r c) → Acc r b := by
    intro b hb ih
    refine .intro b fun c hcb => ?_
    by_cases hc : ∃ d, r d c
    · exact ih c ⟨hc, .head hcb hb⟩ hcb
    · exact .intro c fun d hd => (hc ⟨d, hd⟩).elim
  have hall : ∀ x : s, Acc r x.1 := by
    intro x
    induction x using hwf.induction with
    | h x ih => exact hstep x.1 x.2.2 fun c hc hcx => ih ⟨c, hc⟩ (.single hcx)
  exact hstep a .refl fun c hc _ => hall ⟨c, hc⟩

theorem acyclic_of_acc {α : Type} {r : α → α → Prop} {a : α} (h : Acc r a) :
    ¬ Relation.TransGen r a a := by
  have hall : Acc (Relation.TransGen r) a := h.transGen
  induction hall with
  | intro a hbefore ih => exact fun ha => ih a ha (acc_transGen_iff.mp (hbefore a ha)) ha

/-! ## The source -/

/-- Not a link of a sequence. -/
def Block.Standing : Block → Prop
  | .chain _ _ => False
  | _ => True

/-- The child indices of a block. -/
def Block.children : Block → List Nat
  | .many cur _ => cur.toList
  | .chain cur _ => cur.toList
  | .defer next cleanup => [next, cleanup]
  | .crashPad body pad => [body, pad]
  | .branch _ yes no => [yes, no]
  | .loop body => [body]
  | .var _ body => [body]
  | _ => []

/-- The chain index of a block. -/
def Block.link : Block → Option Nat
  | .many _ next => next
  | .chain _ next => next
  | _ => none

/-- The place is reached from block `0` through `n` enclosing blocks. -/
inductive Enclosed (blocks : List Block) : Nat → Place → Prop
  | root : Enclosed blocks 0 (.node 0)
  | many {n i : Nat} {cur next : Option Nat} : Enclosed blocks n (.node i) →
      blocks[i]? = some (.many cur next) → Enclosed blocks (n + 1) (.seq cur next)
  | first {n c : Nat} {next : Option Nat} : Enclosed blocks n (.seq (some c) next) →
      Enclosed blocks n (.node c)
  | rest {n c l : Nat} {cur next : Option Nat} : Enclosed blocks n (.seq (some c) (some l)) →
      blocks[l]? = some (.chain cur next) → Enclosed blocks n (.seq cur next)
  | part {n i j : Nat} {b : Block} : Enclosed blocks n (.node i) → blocks[i]? = some b →
      (∀ cur next, b ≠ .many cur next) → j ∈ b.children → Enclosed blocks (n + 1) (.node j)

/-- A block tree as `remove_defers` takes it: every child is a block and every chain index a link,
no way down runs in a circle, and a break leaves at least itself and at most all blocks around it
and the function. -/
structure SourceTree (blocks : List Block) : Prop where
  block : ∀ n i, Enclosed blocks n (.node i) → ∃ b, blocks[i]? = some b ∧ b.Standing
  link : ∀ n c l, Enclosed blocks n (.seq (some c) (some l)) →
    ∃ cur next, blocks[l]? = some (.chain cur next)
  level : ∀ n i level, Enclosed blocks n (.node i) → blocks[i]? = some (.brk level) →
    1 ≤ level ∧ level ≤ n + 1
  acyclic : ∀ i, i = 0 ∨ Under blocks i 0 → ¬ Under blocks i i

section Source

variable {blocks : List Block} {n i : Nat}

theorem below_finite (blocks : List Block) : Set.Finite {i | ∃ j, Below blocks j i} := by
  refine (Set.finite_lt_nat blocks.length).subset ?_
  rintro i ⟨j, b, hi, -⟩
  exact (List.getElem?_eq_some_iff.mp hi).1

theorem SourceTree.acc (h : SourceTree blocks) : Acc (Below blocks) 0 := by
  refine acc_of_acyclic (below_finite blocks) fun i hi => h.acyclic i ?_
  exact (Relation.reflTransGen_iff_eq_or_transGen.mp hi).imp_left Eq.symm

/-- A child outside a sequence is named by its block. -/
theorem Block.names_of_children {b : Block} {j : Nat} (hj : j ∈ b.children) : b.Names j := by
  cases b with
  | many cur next | chain cur next =>
      obtain rfl := Option.mem_toList.mp hj
      constructor
  | loop body | var v body =>
      obtain rfl := List.mem_singleton.mp hj
      constructor
  | defer next defer | crashPad body pad | branch cond yes no =>
      rcases List.mem_cons.mp hj with rfl | hj
      · constructor
      · obtain rfl := List.mem_singleton.mp hj
        constructor
  | basic _ | crash | hardCrash | brk _ => cases hj

/-- What the tree at a place is, for a place with `n` blocks around it. -/
def Unfolds (blocks : List Block) (n : Nat) (p : Place) : Prop :=
  ∃ t, Represents (fun _ => True) blocks p t ∧ t.LevelsWithin n

theorem SourceTree.unfolds_seq {cur next : Option Nat} (h : SourceTree blocks)
    (hat : Enclosed blocks n (.seq cur next))
    (hfirst : ∀ c, cur = some c → Unfolds blocks n (.node c))
    (hrest : ∀ c l cur' next', cur = some c → next = some l → blocks[l]? = some (.chain cur' next') →
      Unfolds blocks n (.seq cur' next')) : Unfolds blocks n (.seq cur next) := by
  cases cur with
  | none => exact ⟨.stop, .stop, trivial⟩
  | some c =>
      obtain ⟨t, ht, hlevels⟩ := hfirst c rfl
      cases next with
      | none => exact ⟨.chain t .stop, .last ht, hlevels, trivial⟩
      | some l =>
          obtain ⟨cur', next', hl⟩ := h.link n c l hat
          obtain ⟨ts, hts, hlevels'⟩ := hrest c l cur' next' rfl rfl hl
          exact ⟨.chain t ts, .link ht trivial hl hts, hlevels, hlevels'⟩

/-- By induction on the way down, for a block and for what a link begins. -/
theorem SourceTree.unfolds (h : SourceTree blocks) (hacc : Acc (Below blocks) i) :
    (∀ n, Enclosed blocks n (.node i) → Unfolds blocks n (.node i)) ∧
      ∀ n cur next, blocks[i]? = some (.chain cur next) → Enclosed blocks n (.seq cur next) →
        Unfolds blocks n (.seq cur next) := by
  induction hacc with
  | intro i _ ih =>
      have hseq : ∀ b n cur next, blocks[i]? = some b → b.Lists cur next →
          Enclosed blocks n (.seq cur next) → Unfolds blocks n (.seq cur next) := by
        intro b n cur next hi hlists hat
        refine h.unfolds_seq hat (fun c hc => ?_) fun c l cur' next' hc hl hchain => ?_
        · subst hc
          exact (ih c ⟨b, hi, hlists.first c rfl⟩).1 n hat.first
        · subst hc hl
          exact (ih l ⟨b, hi, hlists.rest c l rfl rfl⟩).2 n cur' next' hchain (hat.rest hchain)
      refine ⟨fun n hat => ?_, fun n cur next hi hat => hseq _ n cur next hi (Block.lists_chain cur next) hat⟩
      obtain ⟨b, hi, hstanding⟩ := h.block n i hat
      have hpart : ∀ j, (∀ cur next, b ≠ .many cur next) → j ∈ b.children →
          Unfolds blocks (n + 1) (.node j) := fun j hb hj =>
        (ih j ⟨b, hi, b.names_of_children hj⟩).1 (n + 1) (hat.part hi hb hj)
      cases b with
      | basic ops => exact ⟨.basic ops, .basic trivial hi, trivial⟩
      | crash => exact ⟨.crash, .crash trivial hi, trivial⟩
      | hardCrash => exact ⟨.hardCrash, .hardCrash trivial hi, trivial⟩
      | chain cur next => exact hstanding.elim
      | brk level => exact ⟨.brk level, .brk trivial hi, (h.level n i level hat hi).2⟩
      | many cur next =>
          obtain ⟨t, ht, hlevels⟩ :=
            hseq _ (n + 1) cur next hi (Block.lists_many cur next) (hat.many hi)
          exact ⟨.many t, .many trivial hi ht, hlevels⟩
      | defer next defer =>
          obtain ⟨tn, hn, hnext⟩ := hpart next (by simp) (by simp [Block.children])
          obtain ⟨tc, hc, hdefer⟩ := hpart defer (by simp) (by simp [Block.children])
          exact ⟨.defer 0 tn tc, .defer trivial hi hn hc, hnext, hdefer⟩
      | crashPad body pad =>
          obtain ⟨tb, hb, hbody⟩ := hpart body (by simp) (by simp [Block.children])
          obtain ⟨tp, hp, hpad⟩ := hpart pad (by simp) (by simp [Block.children])
          exact ⟨.crashPad tb tp, .crashPad trivial hi hb hp, hbody, hpad⟩
      | branch cond yes no =>
          obtain ⟨ty, hy, hyes⟩ := hpart yes (by simp) (by simp [Block.children])
          obtain ⟨tn, hn, hno⟩ := hpart no (by simp) (by simp [Block.children])
          exact ⟨.branch cond ty tn, .branch trivial hi hy hn, hyes, hno⟩
      | loop body =>
          obtain ⟨t, ht, hlevels⟩ := hpart body (by simp) (by simp [Block.children])
          exact ⟨.loop t, .loop trivial hi ht, hlevels⟩
      | var v body =>
          obtain ⟨t, ht, hlevels⟩ := hpart body (by simp) (by simp [Block.children])
          exact ⟨.var v t, .var trivial hi ht, hlevels⟩

theorem SourceTree.represented (h : SourceTree blocks) :
    ∃ t, RepresentsTree blocks t ∧ t.LevelsWithin 0 :=
  (h.unfolds h.acc).1 0 .root

end Source

/-! ## The array -/

/-- A list of children ends where its children end: no link without a child in front of it, no
empty link. -/
def Block.Closed : Block → Prop
  | .many none next => next = none
  | .chain cur _ => cur ≠ none
  | _ => True

def ClosedBlocks (blocks : List Block) : Prop :=
  ∀ (i : Nat) (b : Block), blocks[i]? = some b → b.Closed

/-- What a call that fills `dst` does to the array. -/
structure Grown (res res' : List Block) (dst : Nat) : Prop where
  grows : res.length ≤ res'.length
  frame : ∀ i, i < res.length → i ≠ dst → res'[i]? = res[i]?
  under : ∀ i, res.length ≤ i → i < res'.length → Under res' i dst
  closed : ClosedBlocks res'

/-- No index is lost. -/
def NamesKept (bs bs' : List Block) : Prop :=
  ∀ (i : Nat) (b : Block) (j : Nat), bs[i]? = some b → b.Names j →
    ∃ b', bs'[i]? = some b' ∧ b'.Names j

theorem Under.mono {bs bs' : List Block} {i j : Nat} (h : Under bs j i)
    (hnames : NamesKept bs bs') : Under bs' j i := by
  refine Relation.TransGen.mono ?_ j i h
  rintro a b ⟨block, hb, ha⟩
  exact hnames b block a hb ha

section Grown

variable {res₀ res res' : List Block} {dst slot i j n : Nat} {b : Block}

theorem not_names_unset : ¬ Block.unset.Names j := by
  rintro ⟨⟩

theorem not_names_empty : ¬ (Block.many none none).Names j := by
  rintro ⟨⟩

theorem lt_of_cell (h : res[i]? = some b) : i < res.length :=
  (List.getElem?_eq_some_iff.mp h).1

/-- A call into an unset cell loses no index. -/
theorem Grown.names (h : Grown res res' slot) (hunset : res[slot]? = some .unset) :
    NamesKept res res' := by
  intro i b j hi hj
  have hne : i ≠ slot := by
    rintro rfl
    cases hi.symm.trans hunset
    exact not_names_unset hj
  exact ⟨b, by rw [h.frame i (lt_of_cell hi) hne, hi], hj⟩

/-- A call fills a cell that the case has allocated. -/
theorem Grown.call (h : Grown res₀ res dst) (hslot : res₀.length ≤ slot)
    (hunset : res[slot]? = some .unset) (hcall : Grown res res' slot) : Grown res₀ res' dst where
  grows := Nat.le_trans h.grows hcall.grows
  frame i hi hne := by
    rw [hcall.frame i (Nat.lt_of_lt_of_le hi h.grows) (by omega), h.frame i hi hne]
  under i hi hlt := by
    by_cases hold : i < res.length
    · exact (h.under i hi hold).mono (hcall.names hunset)
    · have hslot' : Under res' slot dst :=
        (h.under slot hslot (lt_of_cell hunset)).mono (hcall.names hunset)
      exact (hcall.under i (Nat.le_of_not_lt hold) hlt).trans hslot'
  closed := hcall.closed

theorem ClosedBlocks.extend {k : Nat} (h : ClosedBlocks res) : ClosedBlocks (extend res k) := by
  intro i b hi
  rcases List.mem_append.mp (List.mem_of_getElem? hi) with hold | hnew
  · obtain ⟨i', hi'⟩ := List.mem_iff_getElem?.mp hold
    exact h i' b hi'
  · rw [(List.mem_replicate.mp hnew).2]
    trivial

theorem extend_cell {k : Nat} (hi : i < k) : (extend res k)[res.length + i]? = some .unset := by
  rw [extend, List.getElem?_append_right (Nat.le_add_right _ _)]
  simp [hi]

/-- The cells that a block names are allocated with it. -/
theorem grown_extend {k : Nat} (hclosed : ClosedBlocks res)
    (hdst : dst < res.length) (hb : b.Closed) (hnames : ∀ i, i < k → b.Names (res.length + i)) :
    Grown res ((extend res k).set dst b) dst where
  grows := by simp
  frame i hi hne := by rw [List.getElem?_set_ne (Ne.symm hne), getElem?_extend hi]
  under i hi hlt := by
    obtain ⟨d, rfl⟩ := Nat.exists_eq_add_of_le hi
    simp only [List.length_set, length_extend] at hlt
    have hcell : ((extend res k).set dst b)[dst]? = some b :=
      List.getElem?_set_self (by simp; omega)
    exact .single ⟨b, hcell, hnames d (by omega)⟩
  closed i b' hi := by
    by_cases hne : i = dst
    · subst hne
      rw [List.getElem?_set_self (by simp; omega)] at hi
      cases hi
      exact hb
    · rw [List.getElem?_set_ne (Ne.symm hne)] at hi
      exact hclosed.extend i b' hi

theorem extend_unset {k : Nat} (hdst : dst < res.length) (hi : i < k) :
    ((extend res k).set dst b)[res.length + i]? = some .unset := by
  rw [List.getElem?_set_ne (by omega), extend_cell hi]

/-- A cell is written that names nothing. -/
theorem grown_set (hclosed : ClosedBlocks res) (hdst : dst < res.length)
    (hb : b.Closed) : Grown res (res.set dst b) dst := by
  simpa [extend] using grown_extend (k := 0) hclosed hdst hb fun i hi => (Nat.not_lt_zero i hi).elim

/-- The slots of a case are extended behind the cell it has copied. -/
theorem extend_set {k : Nat} {b' : Block} (hdst : dst < res.length) :
    (extend (res.set dst b) k).set dst b' = (extend res k).set dst b' := by
  simp [extend, hdst]

/-- The cells that replace a `BLOCK_DEFER`. -/
def deferCells (res : List Block) (dst : Nat) : List Block :=
  (((extend res 4).set dst (.many (some res.length) (some (res.length + 1)))).set (res.length + 1)
    (.chain (some (res.length + 2)) none)).set res.length (.crashPad (res.length + 3) (res.length + 2))

theorem deferCells_cell (hdst : dst < res.length) (i : Nat) :
    (deferCells res dst)[i]? =
      if i = res.length then some (.crashPad (res.length + 3) (res.length + 2))
      else if i = res.length + 1 then some (.chain (some (res.length + 2)) none)
      else if i = dst then some (.many (some res.length) (some (res.length + 1)))
      else (extend res 4)[i]? := by
  simp only [deferCells, List.getElem?_set, List.length_set, length_extend]
  grind

theorem grown_defer (hclosed : ClosedBlocks res) (hdst : dst < res.length) :
    Grown res (deferCells res dst) dst := by
  have hmany : (deferCells res dst)[dst]? = some (.many (some res.length) (some (res.length + 1))) := by
    rw [deferCells_cell hdst, if_neg (by omega), if_neg (by omega), if_pos rfl]
  have hpad : (deferCells res dst)[res.length]? =
      some (.crashPad (res.length + 3) (res.length + 2)) := by
    rw [deferCells_cell hdst, if_pos rfl]
  have hfirst : Under (deferCells res dst) res.length dst := .single ⟨_, hmany, .manyCur⟩
  refine ⟨by simp [deferCells], fun i hi hne => ?_, fun i hi hlt => ?_, fun i b hi => ?_⟩
  · rw [deferCells_cell hdst, if_neg (by omega), if_neg (by omega), if_neg hne, getElem?_extend hi]
  · have hlen : (deferCells res dst).length = res.length + 4 := by simp [deferCells]
    obtain rfl | rfl | rfl | rfl : i = res.length ∨ i = res.length + 1 ∨ i = res.length + 2 ∨
        i = res.length + 3 := by omega
    · exact hfirst
    · exact .single ⟨_, hmany, .manyNext⟩
    · exact .head ⟨_, hpad, .pad⟩ hfirst
    · exact .head ⟨_, hpad, .padBody⟩ hfirst
  · rw [deferCells_cell hdst] at hi
    split at hi
    · cases hi
      trivial
    · split at hi
      · cases hi
        simp [Block.Closed]
      · split at hi
        · cases hi
          trivial
        · exact hclosed.extend i b hi

/-- Two calls, one after the other, into unset cells that the case has allocated. -/
theorem Grown.calls {f g : List Block → Option (List Block)} {res₁ : List Block} {slot' : Nat}
    (h : Grown res res₁ dst) (hslot : res.length ≤ slot) (hslot' : res.length ≤ slot')
    (hne : slot' ≠ slot) (hunset : res₁[slot]? = some .unset) (hunset' : res₁[slot']? = some .unset)
    (hf : ∀ res res', ClosedBlocks res → res[slot]? = some .unset → f res = some res' →
      Grown res res' slot)
    (hg : ∀ res res', ClosedBlocks res → res[slot']? = some .unset → g res = some res' →
      Grown res res' slot')
    (hrun : (f res₁).bind g = some res') : Grown res res' dst := by
  obtain ⟨res₂, hfirst, hsecond⟩ := Option.bind_eq_some_iff.mp hrun
  have hcall := hf res₁ res₂ h.closed hunset hfirst
  have hunset₂ : res₂[slot']? = some .unset := by
    rw [hcall.frame slot' (lt_of_cell hunset') hne, hunset']
  exact (h.call hslot hunset hcall).call hslot' hunset₂ (hg res₂ res' hcall.closed hunset₂ hsecond)

/-! ### Sequences under construction -/

/-- The sequence that a case builds at `dst`, with an open link at `h`. -/
structure Linking (res₀ res : List Block) (dst : Nat) (prev : Option Nat) (h : Nat) : Prop where
  grown : Grown res₀ res dst
  hooked : Hooked res dst prev h
  fresh : h = dst ∨ res₀.length ≤ h

/-- No child yet. -/
structure Begun (res₀ res : List Block) (dst : Nat) : Prop where
  grown : Grown res₀ res dst
  inside : dst < res₀.length
  empty : res[dst]? = some (.many none none)

theorem begun_many (hclosed : ClosedBlocks res) (hdst : dst < res.length) :
    Begun res (res.set dst (.many none none)) dst where
  grown := grown_set hclosed hdst rfl
  inside := hdst
  empty := List.getElem?_set_self hdst

/-- The first child is linked by the sequence itself. -/
theorem Begun.child (h : Begun res₀ res dst) (prev : Option Nat) (hb : b.Closed) :
    ∃ res', linkChild ((extend res 1).set res.length b) dst res.length prev = some (res', prev) ∧
      Linking res₀ res' dst prev dst ∧ res'[res.length]? = some b ∧ dst < res.length := by
  have hdst := lt_of_cell h.empty
  have hcell : ((extend res 1).set res.length b)[dst]? = some (.many none none) := by
    rw [List.getElem?_set_ne (by omega), getElem?_extend hdst, h.empty]
  have hkeep : ∀ i, i < res.length → i ≠ dst →
      (((extend res 1).set res.length b).set dst (.many (some res.length) none))[i]? = res[i]? := by
    intro i hi hne
    rw [List.getElem?_set_ne (Ne.symm hne), List.getElem?_set_ne (by omega), getElem?_extend hi]
  have hlink : (((extend res 1).set res.length b).set dst (.many (some res.length) none))[dst]? =
      some (.many (some res.length) none) := List.getElem?_set_self (by simp; omega)
  have hslot : (((extend res 1).set res.length b).set dst (.many (some res.length) none))[res.length]? =
      some b := by
    rw [List.getElem?_set_ne (by omega), List.getElem?_set_self (by simp)]
  refine ⟨_, by simp only [linkChild, hcell], ⟨⟨?_, ?_, ?_, ?_⟩, .inl ⟨rfl, _, hlink⟩, .inl rfl⟩,
    hslot, hdst⟩
  · simpa using Nat.le_succ_of_le h.grown.grows
  · intro i hi hne
    rw [hkeep i (Nat.lt_of_lt_of_le hi h.grown.grows) hne, h.grown.frame i hi hne]
  · intro i hi hlt
    simp only [List.length_set, length_extend] at hlt
    rcases Nat.lt_succ_iff_lt_or_eq.mp hlt with hold | rfl
    · -- the sequence was empty, so no cell stood under it
      obtain ⟨k, -, b', hb', hk⟩ := Relation.TransGen.tail'_iff.mp (h.grown.under i hi hold)
      cases hb'.symm.trans h.empty
      exact (not_names_empty hk).elim
    · exact .single ⟨_, hlink, .manyCur⟩
  · intro i b' hi
    by_cases hne : i = dst
    · subst hne
      cases hi.symm.trans hlink
      trivial
    · rcases Nat.lt_or_ge i res.length with hold | hnew
      · exact h.grown.closed i b' (hkeep i hold hne ▸ hi)
      · have hlt := lt_of_cell hi
        simp only [List.length_set, length_extend] at hlt
        obtain rfl : i = res.length := by omega
        cases hi.symm.trans hslot
        exact hb

/-- A further child is linked by a cell of its own behind the open link. -/
theorem Linking.child {prev : Option Nat} {h : Nat} (hlinking : Linking res₀ res dst prev h)
    (hb : b.Closed) : ∃ res', linkChild ((extend res 1).set res.length b) dst res.length prev =
        some (res', some (res.length + 1)) ∧
      Linking res₀ res' dst (some (res.length + 1)) (res.length + 1) ∧ res'[res.length]? = some b := by
  obtain ⟨hgrown, hhooked, hfresh⟩ := hlinking
  have hlt := hhooked.lt
  obtain ⟨res', hlink, hlen, hframe, hhook, hslot, hcell, hhooked'⟩ := linkChild_fresh b hhooked
  have hgrows := hgrown.grows
  -- the cell with the open link, before and after
  obtain ⟨b₀, hb₀, hlinks, hclosed₀⟩ : ∃ b₀, res[h]? = some b₀ ∧
      (∀ j, b₀.Names j ∨ j = res.length + 1 → (b₀.withNext (some (res.length + 1))).Names j) ∧
      (b₀.withNext (some (res.length + 1))).Closed := by
    rcases hhooked with ⟨rfl, c, hd⟩ | ⟨-, -, ⟨c, hc⟩, -⟩
    · refine ⟨_, hd, fun j hj => ?_, trivial⟩
      rcases hj with hj | rfl
      · cases hj
        exact .manyCur
      · exact .manyNext
    · refine ⟨_, hc, fun j hj => ?_, by simp [Block.withNext, Block.Closed]⟩
      rcases hj with hj | rfl
      · cases hj
        exact .chainCur
      · exact .chainNext
  have hhook' : res'[h]? = some (b₀.withNext (some (res.length + 1))) := by rw [hhook, hb₀]; rfl
  have hnames : NamesKept res res' := by
    intro i b' j hi hj
    by_cases hne : i = h
    · subst hne
      cases hi.symm.trans hb₀
      exact ⟨_, hhook', hlinks j (.inl hj)⟩
    · exact ⟨b', by rw [hframe i (lt_of_cell hi) hne, hi], hj⟩
  have hunder : Under res' (res.length + 1) dst := by
    have hnext : Under res' (res.length + 1) h := .single ⟨_, hhook', hlinks _ (.inr rfl)⟩
    rcases hfresh with rfl | hfresh
    · exact hnext
    · exact hnext.trans ((hgrown.under h hfresh hlt.2).mono hnames)
  refine ⟨res', hlink, ⟨⟨by omega, ?_, ?_, ?_⟩, hhooked', .inr (by omega)⟩, hslot⟩
  · intro i hi hne
    rw [hframe i (by omega) ?_, hgrown.frame i hi hne]
    rcases hfresh with rfl | hfresh
    · exact hne
    · omega
  · intro i hi hlt'
    rcases Nat.lt_or_ge i res.length with hold | hnew
    · exact (hgrown.under i hi hold).mono hnames
    · obtain rfl | rfl : i = res.length + 1 ∨ i = res.length := by omega
      · exact hunder
      · exact .head ⟨_, hcell, .chainCur⟩ hunder
  · intro i b' hi
    by_cases hne : i = h
    · subst hne
      cases hi.symm.trans hhook'
      exact hclosed₀
    · rcases Nat.lt_or_ge i res.length with hold | hnew
      · exact hgrown.closed i b' (hframe i hold hne ▸ hi)
      · have hlt' := lt_of_cell hi
        obtain rfl | rfl : i = res.length + 1 ∨ i = res.length := by omega
        · cases hi.symm.trans hcell
          simp [Block.Closed]
        · cases hi.symm.trans hslot
          exact hb

/-- The array while a sequence is built at `dst`. -/
def Building (res₀ res : List Block) (dst : Nat) (prev : Option Nat) : Prop :=
  Begun res₀ res dst ∨ ∃ h, Linking res₀ res dst prev h

theorem Building.grown {prev : Option Nat} (h : Building res₀ res dst prev) : Grown res₀ res dst := by
  rcases h with h | ⟨_, h⟩
  · exact h.grown
  · exact h.grown

/-- One more child, in a slot that the open link does not stand in. -/
theorem Building.child {prev : Option Nat} (h : Building res₀ res dst prev) (hb : b.Closed) :
    ∃ res' prev' k, linkChild ((extend res 1).set res.length b) dst res.length prev =
        some (res', prev') ∧
      Linking res₀ res' dst prev' k ∧ k ≠ res.length ∧ res'[res.length]? = some b := by
  rcases h with h | ⟨k, h⟩
  · obtain ⟨res', hlink, hlinking, hslot, hlt⟩ := h.child prev hb
    exact ⟨res', prev, dst, hlink, hlinking, Nat.ne_of_lt hlt, hslot⟩
  · obtain ⟨res', hlink, hlinking, hslot⟩ := h.child hb
    exact ⟨res', _, _, hlink, hlinking, Nat.succ_ne_self _, hslot⟩

theorem extend_one (res : List Block) : (extend res 1).set res.length .unset = extend res 1 := by
  simp [extend]

/-- The loop of `BLOCK_MANY`. -/
theorem copyChildren_grown {blocks : List Block} (hsource : SourceTree blocks)
    {recurse : Nat → Nat → List Block → Option (List Block)}
    (hrecurse : ∀ child slot res res', Enclosed blocks n (.node child) → ClosedBlocks res →
      res[slot]? = some .unset → recurse child slot res = some res' → Grown res res' slot)
    (fuel : Nat) {cur next prev : Option Nat} (hat : Enclosed blocks n (.seq cur next))
    (hbuilding : Building res₀ res dst prev) (hdst : dst < res₀.length)
    (hrun : copyChildren blocks recurse dst fuel cur next prev res = some res') :
    Grown res₀ res' dst := by
  induction fuel generalizing cur next prev res with
  | zero =>
      cases cur with
      | none =>
          cases hrun
          exact hbuilding.grown
      | some child => cases hrun
  | succ fuel ih =>
      cases cur with
      | none =>
          cases hrun
          exact hbuilding.grown
      | some child =>
          obtain ⟨res₁, prev₁, k, hlink, hlinking, hk, hslot⟩ :=
            hbuilding.child (b := .unset) trivial
          have hslot₀ : res₀.length ≤ res.length := hbuilding.grown.grows
          rw [extend_one] at hlink
          simp only [copyChildren, hlink, Option.bind_eq_bind, Option.bind_some] at hrun
          obtain ⟨res₂, hcall, hrun⟩ := Option.bind_eq_some_iff.mp hrun
          have hfill := hrecurse child res.length res₁ res₂ hat.first hlinking.grown.closed hslot hcall
          have hgrown := hlinking.grown.call hslot₀ hslot hfill
          cases next with
          | none =>
              cases hrun
              exact hgrown
          | some l =>
              obtain ⟨cur', next', hl⟩ := hsource.link n child l hat
              simp only [hl] at hrun
              have hlt := hlinking.hooked.lt
              have hhooked : Hooked res₂ dst prev₁ k := by
                refine hlinking.hooked.transport fun i hi => ?_
                rcases hi with rfl | rfl
                · exact hfill.frame i hlt.1 (by omega)
                · exact hfill.frame i hlt.2 hk
              exact ih (hat.rest hl) (.inr ⟨k, hgrown, hhooked, hlinking.fresh⟩) hrun

/-- The loop of `BLOCK_BREAK`. -/
theorem copyEpilogues_building {level : Nat} {stack : List Nat} {prev prev' : Option Nat}
    (hbuilding : Building res₀ res dst prev)
    (hrun : copyEpilogues dst level stack prev res = some (res', prev')) :
    Building res₀ res' dst prev' := by
  induction level generalizing stack prev res with
  | zero =>
      cases hrun
      exact hbuilding
  | succ level ih =>
      cases stack with
      | nil => cases hrun
      | cons d stack =>
          rw [copyEpilogues] at hrun
          split at hrun
          · exact ih hbuilding hrun
          · obtain ⟨root, hroot, hrun⟩ := Option.bind_eq_some_iff.mp hrun
            obtain ⟨res₁, prev₁, k, hlink, hlinking, -, -⟩ :=
              hbuilding.child (hbuilding.grown.closed d root hroot)
            simp only [hlink, Option.bind_eq_bind, Option.bind_some] at hrun
            exact ih (.inr ⟨k, hlinking⟩) hrun

theorem finishBreak_grown {level : Nat} {prev : Option Nat} (hbuilding : Building res₀ res dst prev)
    (hrun : finishBreak dst level res prev = some res') : Grown res₀ res' dst := by
  rcases hbuilding with hbegun | ⟨h, hlinking⟩
  · -- nothing has been allocated, and the break takes the place of the empty sequence
    simp only [finishBreak, hbegun.empty, Option.some.injEq] at hrun
    subst hrun
    have hset := grown_set hbegun.grown.closed (lt_of_cell hbegun.empty) (b := .brk level) trivial
    have hempty : ∀ i, res₀.length ≤ i → ¬ i < res.length := by
      intro i hi hlt
      obtain ⟨k, -, b', hb', hk⟩ := Relation.TransGen.tail'_iff.mp (hbegun.grown.under i hi hlt)
      cases hb'.symm.trans hbegun.empty
      exact not_names_empty hk
    refine ⟨Nat.le_trans hbegun.grown.grows hset.grows, fun i hi hne => ?_, fun i hi hlt => ?_,
      hset.closed⟩
    · rw [hset.frame i (Nat.lt_of_lt_of_le hi hbegun.grown.grows) hne, hbegun.grown.frame i hi hne]
    · exact (hempty i hi (by simpa using hlt)).elim
  · obtain ⟨res₁, hlink, hlinking₁, -⟩ := hlinking.child (b := .brk (level + 1)) trivial
    have hcell : ∀ next, res[dst]? ≠ some (.many none next) := by
      intro next hd
      rcases hlinking.hooked with ⟨rfl, c, hd'⟩ | ⟨-, -, -, c, l, hd'⟩
      · cases hd.symm.trans hd'
      · cases hd.symm.trans hd'
    -- the sequence has a first child, so the break is linked as a further one
    simp only [finishBreak, hlink] at hrun
    cases hrun
    exact hlinking₁.grown

/-- The pass, from a place of the source into an unset cell. -/
theorem removeDefersAux_grown {blocks : List Block} (hsource : SourceTree blocks) (fuel : Nat)
    {src : Nat} {epis : List Nat} (hat : Enclosed blocks n (.node src)) (hclosed : ClosedBlocks res)
    (hunset : res[dst]? = some .unset)
    (hrun : removeDefersAux blocks fuel src dst res epis = some res') : Grown res res' dst := by
  induction fuel generalizing n src dst res res' epis with
  | zero => cases hrun
  | succ fuel ih =>
      have hdst := lt_of_cell hunset
      obtain ⟨b, hb, hstanding⟩ := hsource.block n src hat
      -- a child of a block other than MANY is itself a block of the tree
      have hpart : ∀ j slot res res' epis, (∀ cur next, b ≠ .many cur next) → j ∈ b.children →
          ClosedBlocks res → res[slot]? = some .unset →
          removeDefersAux blocks fuel j slot res epis = some res' → Grown res res' slot :=
        fun j slot res res' epis hmany hj => ih (hat.part hb hmany hj)
      simp only [removeDefersAux, hb, Option.bind_eq_bind, Option.bind_some] at hrun
      cases b with
      | chain cur next => exact hstanding.elim
      | basic ops | crash | hardCrash =>
          cases hrun
          exact grown_set hclosed hdst trivial
      | brk level =>
          simp only [expandBreak, List.set_set] at hrun
          obtain ⟨⟨res₁, prev⟩, hcopy, hfinish⟩ := Option.bind_eq_some_iff.mp hrun
          exact finishBreak_grown (copyEpilogues_building (.inl (begun_many hclosed hdst)) hcopy) hfinish
      | many cur next =>
          simp only [List.set_set] at hrun
          exact copyChildren_grown hsource (fun child slot res res' hchild hcells hslot => ih hchild hcells hslot)
            fuel (hat.many hb) (.inl (begun_many hclosed hdst)) hdst hrun
      -- the cells of a construct are appended unset; the calls for its children fill them
      | defer next cleanup =>
          simp only [List.length_set, extend_set hdst] at hrun
          have hslot : ∀ i, i = 2 ∨ i = 3 → (deferCells res dst)[res.length + i]? = some .unset := by
            intro i hi
            rw [deferCells_cell hdst, if_neg (by omega), if_neg (by omega), if_neg (by omega),
              extend_cell (by omega)]
          exact (grown_defer hclosed hdst).calls (Nat.le_add_right _ _) (Nat.le_add_right _ _)
            (by omega) (hslot 2 (.inl rfl)) (hslot 3 (.inr rfl))
            (fun res res' => hpart cleanup _ res res' _ (by simp) (by simp [Block.children]))
            (fun res res' => hpart next _ res res' _ (by simp) (by simp [Block.children])) hrun
      | crashPad body pad =>
          simp only [List.length_set, extend_set hdst] at hrun
          have halloc := grown_extend (k := 2) (b := .crashPad res.length (res.length + 1)) hclosed hdst
            trivial fun i hi => by
              obtain rfl | rfl : i = 0 ∨ i = 1 := by omega
              · exact .padBody
              · exact .pad
          exact halloc.calls (Nat.le_succ _) (Nat.le_refl _) (Nat.ne_of_lt (Nat.lt_succ_self _))
            (extend_unset hdst (i := 1) (by omega)) (extend_unset hdst (i := 0) (by omega))
            (fun res res' => hpart pad _ res res' _ (by simp) (by simp [Block.children]))
            (fun res res' => hpart body _ res res' _ (by simp) (by simp [Block.children])) hrun
      | branch cond yes no =>
          simp only [List.length_set, extend_set hdst] at hrun
          have halloc := grown_extend (k := 2) (b := .branch cond res.length (res.length + 1)) hclosed hdst
            trivial fun i hi => by
              obtain rfl | rfl : i = 0 ∨ i = 1 := by omega
              · exact .yes
              · exact .no
          exact halloc.calls (Nat.le_refl _) (Nat.le_succ _) (Nat.succ_ne_self _)
            (extend_unset hdst (i := 0) (by omega)) (extend_unset hdst (i := 1) (by omega))
            (fun res res' => hpart yes _ res res' _ (by simp) (by simp [Block.children]))
            (fun res res' => hpart no _ res res' _ (by simp) (by simp [Block.children])) hrun
      | loop body =>
          simp only [List.length_set, extend_set hdst] at hrun
          have halloc := grown_extend (k := 1) (b := .loop res.length) hclosed hdst
            trivial fun i hi => by
              obtain rfl : i = 0 := by omega
              exact .loop
          have hslot := extend_unset (b := .loop res.length) hdst (i := 0) Nat.one_pos
          exact halloc.call (Nat.le_refl _) hslot
            (hpart body _ _ _ _ (by simp) (by simp [Block.children]) halloc.closed hslot hrun)
      | var v body =>
          simp only [List.length_set, extend_set hdst] at hrun
          have halloc := grown_extend (k := 1) (b := .var v res.length) hclosed hdst
            trivial fun i hi => by
              obtain rfl : i = 0 := by omega
              exact .var
          have hslot := extend_unset (b := .var v res.length) hdst (i := 0) Nat.one_pos
          exact halloc.call (Nat.le_refl _) hslot
            (hpart body _ _ _ _ (by simp) (by simp [Block.children]) halloc.closed hslot hrun)

end Grown

/-! ## The output -/

/-- Every cell of the output, also the shared ones and those that the pass has copied. -/
structure LoweredBlocks (blocks : List Block) : Prop where
  entry : blocks ≠ []
  noDefer : ∀ (i next cleanup : Nat), blocks[i]? ≠ some (.defer next cleanup)
  /-- every child index names a block, -/
  child : ∀ (i : Nat) (b : Block) (j : Nat), blocks[i]? = some b → j ∈ b.children →
    ∃ c, blocks[j]? = some c ∧ c.Standing
  /-- every chain index a link, -/
  link : ∀ (i : Nat) (b : Block) (l : Nat), blocks[i]? = some b → b.link = some l →
    ∃ cur next, blocks[l]? = some (.chain cur next)
  /-- and no link stands anywhere else -/
  linked : ∀ l cur next, blocks[l]? = some (.chain cur next) →
    ∃ (i : Nat) (b : Block), blocks[i]? = some b ∧ b.link = some l
  closed : ClosedBlocks blocks
  acyclic : ∀ i, ¬ Under blocks i i

/-- The cell holds a block, and all below it is lowered. -/
def BlockLowered (blocks : List Block) (i : Nat) : Prop :=
  ∃ t, t.DeferFree ∧ Represents (fun _ => True) blocks (.node i) t

/-- The cell holds a link, and all below it is lowered. -/
def LinkLowered (blocks : List Block) (l : Nat) : Prop :=
  ∃ cur next t, t.DeferFree ∧ blocks[l]? = some (.chain cur next) ∧
    Represents (fun _ => True) blocks (.seq cur next) t

section Output

variable {blocks : List Block} {i j : Nat} {b : Block} {cur next : Option Nat} {t : Tree}

theorem Represents.lowered (h : Represents (fun _ => True) blocks (.seq cur next) t)
    (hfree : t.DeferFree) : (∀ c, cur = some c → BlockLowered blocks c) ∧
      ∀ c l, cur = some c → next = some l → LinkLowered blocks l := by
  cases h with
  | stop => exact ⟨fun c hc => (by cases hc), fun c l hc => (by cases hc)⟩
  | @last c t hc =>
      refine ⟨fun c' hc' => ?_, fun c' l _ hl => by cases hl⟩
      cases hc'
      exact ⟨t, hfree.1, hc⟩
  | @link c l cur' next' t ts hc _ hl hts =>
      refine ⟨fun c' hc' => ?_, fun c' l' _ hl' => ?_⟩
      · cases hc'
        exact ⟨t, hfree.1, hc⟩
      · cases hl'
        exact ⟨cur', next', ts, hfree.2, hl, hts⟩

/-- A cell of the lowered tree, with what it points at. -/
structure CellLowered (blocks : List Block) (b : Block) : Prop where
  noDefer : ∀ next cleanup, b ≠ .defer next cleanup
  child : ∀ j ∈ b.children, BlockLowered blocks j
  link : ∀ l, b.Closed → b.link = some l → LinkLowered blocks l

theorem cellLowered_leaf (hdefer : ∀ next cleanup, b ≠ .defer next cleanup)
    (hchildren : b.children = []) (hlink : b.link = none) : CellLowered blocks b :=
  ⟨hdefer, fun j hj => by simp [hchildren] at hj, fun l _ hl => by simp [hlink] at hl⟩

theorem BlockLowered.cell (h : BlockLowered blocks i) :
    ∃ b, blocks[i]? = some b ∧ b.Standing ∧ CellLowered blocks b := by
  obtain ⟨t, hfree, hrep⟩ := h
  generalize hp : Place.node i = p at hrep
  induction hrep with
  | stop | last _ _ | link _ _ _ _ _ _ => cases hp
  | mark _ ih => exact ih hfree hp
  | defer _ _ _ _ => exact hfree.elim
  | basic _ hb | crash _ hb | hardCrash _ hb | brk _ hb =>
      cases hp
      exact ⟨_, hb, trivial, cellLowered_leaf (by simp) rfl rfl⟩
  | @many i cur next t _ hb ht =>
      cases hp
      obtain ⟨hfirst, hrest⟩ := ht.lowered hfree
      refine ⟨_, hb, trivial, by simp, fun j hj => hfirst j (Option.mem_toList.mp hj), fun l hclosed hl => ?_⟩
      cases cur with
      | none =>
          rw [show next = none from hclosed] at hl
          cases hl
      | some c => exact hrest c l rfl hl
  | @crashPad i body pad tb tp _ hb hbody hpad =>
      cases hp
      refine ⟨_, hb, trivial, by simp, fun j hj => ?_, fun l _ hl => by cases hl⟩
      rcases List.mem_cons.mp hj with rfl | hj
      · exact ⟨tb, hfree.1, hbody⟩
      · obtain rfl := List.mem_singleton.mp hj
        exact ⟨tp, hfree.2, hpad⟩
  | @branch i cond yes no ty tn _ hb hyes hno =>
      cases hp
      refine ⟨_, hb, trivial, by simp, fun j hj => ?_, fun l _ hl => by cases hl⟩
      rcases List.mem_cons.mp hj with rfl | hj
      · exact ⟨ty, hfree.1, hyes⟩
      · obtain rfl := List.mem_singleton.mp hj
        exact ⟨tn, hfree.2, hno⟩
  | @loop i body t _ hb ht | @var i v body t _ hb ht =>
      cases hp
      refine ⟨_, hb, trivial, by simp, fun j hj => ?_, fun l _ hl => by cases hl⟩
      obtain rfl := List.mem_singleton.mp hj
      exact ⟨t, hfree, ht⟩

theorem LinkLowered.cell (h : LinkLowered blocks i) :
    ∃ cur next, blocks[i]? = some (.chain cur next) ∧ CellLowered blocks (.chain cur next) := by
  obtain ⟨cur, next, t, hfree, hi, ht⟩ := h
  obtain ⟨hfirst, hrest⟩ := ht.lowered hfree
  refine ⟨cur, next, hi, by simp, fun j hj => hfirst j (Option.mem_toList.mp hj), fun l hclosed hl => ?_⟩
  obtain ⟨c, rfl⟩ := Option.ne_none_iff_exists'.mp hclosed
  exact hrest c l rfl hl

theorem Block.Names.child_or_link (h : b.Names j) : j ∈ b.children ∨ b.link = some j := by
  cases h with
  | manyNext | chainNext => exact .inr rfl
  | _ => exact .inl (by simp [Block.children])

theorem lowered_cell (h : BlockLowered blocks i ∨ LinkLowered blocks i) :
    ∃ b, blocks[i]? = some b ∧ CellLowered blocks b := by
  rcases h with h | h
  · obtain ⟨b, hi, -, hcell⟩ := h.cell
    exact ⟨b, hi, hcell⟩
  · obtain ⟨cur, next, hi, hcell⟩ := h.cell
    exact ⟨_, hi, hcell⟩

/-- Along every way down from block `0`. -/
theorem lowered_of_under (hclosed : ClosedBlocks blocks) (hroot : BlockLowered blocks 0)
    (hi : i = 0 ∨ Under blocks i 0) : BlockLowered blocks i ∨ LinkLowered blocks i := by
  have hstep : ∀ j k, Below blocks j k → BlockLowered blocks k ∨ LinkLowered blocks k →
      BlockLowered blocks j ∨ LinkLowered blocks j := by
    rintro j k ⟨b, hk, hj⟩ hat
    obtain ⟨b', hk', hcell⟩ := lowered_cell hat
    cases hk.symm.trans hk'
    rcases hj.child_or_link with hj | hj
    · exact .inl (hcell.child j hj)
    · exact .inr (hcell.link j (hclosed k b hk) hj)
  rcases hi with rfl | hi
  · exact .inl hroot
  · induction hi using Relation.TransGen.head_induction_on with
    | single hj => exact hstep _ _ hj (.inl hroot)
    | head hj _ ih => exact hstep _ _ hj ih

/-- All cells of an array hang on block `0`, which represents a tree without defers. -/
theorem loweredBlocks_of_represents (hrep : RepresentsTree blocks t) (hfree : t.DeferFree)
    (hunder : ∀ i, i < blocks.length → i = 0 ∨ Under blocks i 0) (hclosed : ClosedBlocks blocks) :
    LoweredBlocks blocks := by
  have hroot : BlockLowered blocks 0 := ⟨t, hfree, hrep⟩
  have hcell : ∀ (i : Nat) (b : Block), blocks[i]? = some b → CellLowered blocks b := by
    intro i b hi
    obtain ⟨b', hi', hb'⟩ := lowered_cell (lowered_of_under hclosed hroot (hunder i (lt_of_cell hi)))
    cases hi.symm.trans hi'
    exact hb'
  have hacc : Acc (Below blocks) 0 := endsBelow_of_represents hrep
  refine ⟨?_, ?_, ?_, ?_, ?_, hclosed, ?_⟩
  · rintro rfl
    obtain ⟨b, hb, -⟩ := hroot.cell
    cases hb
  · exact fun i next cleanup hi => (hcell i _ hi).noDefer next cleanup rfl
  · intro i b j hi hj
    obtain ⟨c, hc, hstanding, -⟩ := ((hcell i b hi).child j hj).cell
    exact ⟨c, hc, hstanding⟩
  · intro i b l hi hl
    obtain ⟨cur, next, hchain, -⟩ := ((hcell i b hi).link l (hclosed i b hi) hl).cell
    exact ⟨cur, next, hchain⟩
  · intro l cur next hl
    have hstands : ¬ BlockLowered blocks l := by
      intro h
      obtain ⟨b, hb, hstanding, -⟩ := h.cell
      cases hl.symm.trans hb
      exact hstanding
    rcases hunder l (lt_of_cell hl) with rfl | hl
    · exact (hstands hroot).elim
    · obtain ⟨i, ⟨b, hi, hnames⟩, -⟩ := Relation.TransGen.head'_iff.mp hl
      rcases hnames.child_or_link with hchild | hlink
      · exact (hstands ((hcell i b hi).child l hchild)).elim
      · exact ⟨i, b, hi, hlink⟩
  · intro i hcycle
    have hi : i < blocks.length := by
      obtain ⟨k, -, b, hb, -⟩ := Relation.TransGen.tail'_iff.mp hcycle
      exact lt_of_cell hb
    rcases hunder i hi with rfl | hi
    · exact acyclic_of_acc hacc hcycle
    · exact acyclic_of_acc (hacc.inv_of_transGen hi) hcycle

/-- `remove_defers` ends on every block tree and leaves a block tree without defers, which
`compile_block` comes to the end of. -/
theorem removeDefers_wellFormed (h : SourceTree blocks) :
    ∃ n out, (∀ fuel, n ≤ fuel → removeDefers fuel blocks = some out) ∧ LoweredBlocks out ∧
      ∃ m, BlockSettled out 0 m := by
  obtain ⟨t, hrep, hlevels⟩ := h.represented
  obtain ⟨out, hrun, hout⟩ := removeDefers_represents hrep hlevels
  have hgrown : Grown (extend [] 1) out 0 := by
    refine removeDefersAux_grown h t.size .root (fun i b hi => ?_) rfl (hrun t.size (Nat.le_refl _))
    rw [(List.mem_replicate.mp (List.mem_of_getElem? hi)).2]
    trivial
  have hunder : ∀ i, i < out.length → i = 0 ∨ Under out i 0 := by
    intro i hi
    rcases Nat.eq_zero_or_pos i with h0 | hpos
    · exact .inl h0
    · exact .inr (hgrown.under i hpos hi)
  have hfree : (t.lower []).DeferFree := Tree.deferFree_lower fun f hf => by cases hf
  exact ⟨t.size, out, hrun, loweredBlocks_of_represents hout hfree hunder hgrown.closed,
    (settled_of_acc (endsBelow_of_represents hout)).1⟩

end Output

/-! ## A break behind a cleanup -/

/-- `{ A break 3 }` under a defer with the cleanup `B`. -/
def breakBehindDefer : List Block :=
  [.defer 1 2, .many (some 3) (some 4), .basic ⟨0, 1⟩, .basic ⟨1, 1⟩, .chain (some 5) none, .brk 3]

/-- The root of the cleanup is copied to cell 8, in front of the break. -/
example : removeDefers 6 breakBehindDefer = some
    [.many (some 1) (some 2), .crashPad 4 3, .chain (some 3) none, .basic ⟨0, 1⟩,
      .many (some 5) (some 7), .basic ⟨1, 1⟩, .many (some 8) (some 10), .chain (some 6) none,
      .basic ⟨0, 1⟩, .brk 4, .chain (some 9) none] := by decide

/-- The places of this tree. -/
inductive BreakBehindDefer : Nat → Place → Prop
  | root : BreakBehindDefer 0 (.node 0)
  | next : BreakBehindDefer 1 (.node 1)
  | cleanup : BreakBehindDefer 1 (.node 2)
  | children : BreakBehindDefer 2 (.seq (some 3) (some 4))
  | child : BreakBehindDefer 2 (.node 3)
  | others : BreakBehindDefer 2 (.seq (some 5) none)
  | last : BreakBehindDefer 2 (.node 5)

theorem breakBehindDefer_enclosed {n : Nat} {p : Place} (h : Enclosed breakBehindDefer n p) :
    BreakBehindDefer n p := by
  induction h with
  | root => exact .root
  | many _ hb ih =>
      cases ih with
      | next =>
          cases hb
          exact .children
      | _ => cases hb
  | first _ ih =>
      cases ih with
      | children => exact .child
      | others => exact .last
  | rest _ hb ih =>
      cases ih
      cases hb
      exact .others
  | part _ hb hmany hj ih =>
      cases ih with
      | root =>
          cases hb
          rcases List.mem_cons.mp hj with rfl | hj
          · exact .next
          · obtain rfl := List.mem_singleton.mp hj
            exact .cleanup
      | next =>
          cases hb
          exact (hmany _ _ rfl).elim
      | _ =>
          cases hb
          cases hj

theorem breakBehindDefer_under {i j : Nat} (h : Under breakBehindDefer j i) : i < j := by
  have hbelow : ∀ {j i}, Below breakBehindDefer j i → i < j := by
    rintro j i ⟨b, hb, hnames⟩
    rcases i with _ | _ | _ | _ | _ | _ | i
    all_goals cases hb
    all_goals cases hnames
    all_goals decide
  induction h with
  | single h => exact hbelow h
  | tail _ h ih => exact (hbelow h).trans ih

theorem sourceTree_breakBehindDefer : SourceTree breakBehindDefer where
  block n i hat := by
    cases breakBehindDefer_enclosed hat
    all_goals exact ⟨_, rfl, trivial⟩
  link n c l hat := by
    cases breakBehindDefer_enclosed hat
    exact ⟨_, _, rfl⟩
  level n i level hat hi := by
    cases breakBehindDefer_enclosed hat
    all_goals cases hi
    decide
  acyclic i _ hcycle := Nat.lt_irrefl i (breakBehindDefer_under hcycle)

theorem removeDefers_wellFormed_breakBehindDefer :
    ∃ n out, (∀ fuel, n ≤ fuel → removeDefers fuel breakBehindDefer = some out) ∧ LoweredBlocks out ∧
      ∃ m, BlockSettled out 0 m :=
  removeDefers_wellFormed sourceTree_breakBehindDefer

end TreeVM
