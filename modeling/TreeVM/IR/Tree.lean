import TreeVM.IR.Block

/-!
# Block trees and their representation in a block array

`Tree` is the tree a block array stands for.  It keeps the source's shape: `many` owns a
sequence built from `chain` links and ended by `stop` (`BLOCK_INVALID`).

* `Represents S bs p t`: the array `bs` unfolds to `t` at `p`, visiting only indices in `S`;
* frame rules: representation only depends on the visited cells;
* `Tree.size`, a bound on the recursion any pass over the tree needs.

The numbers on `defer` nodes name them; they are not stored in the array.  `mark` nodes are
annotations (which cleanup a subtree stands for) and are not stored either.
-/

namespace TreeVM

/-- What an annotated subtree stands for in a lowered tree. -/
inductive Mark
  /-- the protected body of the defer with this name -/
  | enter (id : Nat)
  /-- the cleanup of the defer with this name, on its normal or crash path -/
  | cleanup (id : Nat)
  /-- a copy of that cleanup in front of a break -/
  | inlined (id : Nat)
  /-- a copy of the handler of a crash pad in front of a break -/
  | inlinedPad
  /-- a break with the handler of a crash pad among its epilogues -/
  | padBreak
  /-- the image of the block of the source at this position -/
  | place (position : List Nat)
  /-- the image of a break of the source that leaves up to this position -/
  | aim (target : Option (List Nat))
  deriving DecidableEq, Repr

inductive Tree
  | basic (ops : OpRange)
  | defer (id : Nat) (next cleanup : Tree)
  | many (body : Tree)
  | chain (cur next : Tree)
  | stop
  | crash
  | hardCrash
  | crashPad (body pad : Tree)
  | branch (cond : OpRange) (yes no : Tree)
  | loop (body : Tree)
  | brk (level : Nat)
  | var (var : Nat) (body : Tree)
  | mark (m : Mark) (t : Tree)
  deriving DecidableEq, Repr

namespace Tree

def size : Tree → Nat
  | basic _ => 1
  | defer _ next cleanup => next.size + cleanup.size + 1
  | many body => body.size + 1
  | chain cur next => cur.size + next.size + 1
  | stop => 1
  | crash => 1
  | hardCrash => 1
  | crashPad body pad => body.size + pad.size + 1
  | branch _ yes no => yes.size + no.size + 1
  | loop body => body.size + 1
  | brk _ => 1
  | var _ body => body.size + 1
  | mark _ t => t.size

theorem size_pos (t : Tree) : 0 < t.size := by
  induction t with
  | mark m t ih => exact ih
  | _ => simp [size]

/-- No `BLOCK_DEFER` is left in the tree. -/
def DeferFree : Tree → Prop
  | defer _ _ _ => False
  | many body => body.DeferFree
  | chain cur next => cur.DeferFree ∧ next.DeferFree
  | crashPad body pad => body.DeferFree ∧ pad.DeferFree
  | branch _ yes no => yes.DeferFree ∧ no.DeferFree
  | loop body => body.DeferFree
  | var _ body => body.DeferFree
  | mark _ t => t.DeferFree
  | _ => True

/-- The names of the defers, from left to right. -/
def names : Tree → List Nat
  | defer id next cleanup => id :: (next.names ++ cleanup.names)
  | many body => body.names
  | chain cur next => cur.names ++ next.names
  | crashPad body pad => body.names ++ pad.names
  | branch _ yes no => yes.names ++ no.names
  | loop body => body.names
  | var _ body => body.names
  | mark _ t => t.names
  | _ => []

/-- The tree carries no annotation. -/
def Unmarked : Tree → Prop
  | defer _ next cleanup => next.Unmarked ∧ cleanup.Unmarked
  | many body => body.Unmarked
  | chain cur next => cur.Unmarked ∧ next.Unmarked
  | crashPad body pad => body.Unmarked ∧ pad.Unmarked
  | branch _ yes no => yes.Unmarked ∧ no.Unmarked
  | loop body => body.Unmarked
  | var _ body => body.Unmarked
  | mark _ _ => False
  | _ => True

end Tree

/-! ## Representation -/

/-- A place in a block array: a block, or the rest of a sequence (the pair that
`BLOCK_MANY` and `BLOCK_CHAIN` share). -/
inductive Place
  | node (i : Nat)
  | seq (cur next : Option Nat)

inductive Represents (S : Nat → Prop) (bs : List Block) : Place → Tree → Prop
  | basic {i r} : S i → bs[i]? = some (.basic r) → Represents S bs (.node i) (.basic r)
  | defer {i n c id tn tc} : S i → bs[i]? = some (.defer n c) →
      Represents S bs (.node n) tn → Represents S bs (.node c) tc →
      Represents S bs (.node i) (.defer id tn tc)
  | many {i c l t} : S i → bs[i]? = some (.many c l) →
      Represents S bs (.seq c l) t → Represents S bs (.node i) (.many t)
  | crash {i} : S i → bs[i]? = some .crash → Represents S bs (.node i) .crash
  | hardCrash {i} : S i → bs[i]? = some .hardCrash → Represents S bs (.node i) .hardCrash
  | crashPad {i b p tb tp} : S i → bs[i]? = some (.crashPad b p) →
      Represents S bs (.node b) tb → Represents S bs (.node p) tp →
      Represents S bs (.node i) (.crashPad tb tp)
  | branch {i c y n ty tn} : S i → bs[i]? = some (.branch c y n) →
      Represents S bs (.node y) ty → Represents S bs (.node n) tn →
      Represents S bs (.node i) (.branch c ty tn)
  | loop {i b t} : S i → bs[i]? = some (.loop b) →
      Represents S bs (.node b) t → Represents S bs (.node i) (.loop t)
  | brk {i level} : S i → bs[i]? = some (.brk level) → Represents S bs (.node i) (.brk level)
  | var {i v b t} : S i → bs[i]? = some (.var v b) →
      Represents S bs (.node b) t → Represents S bs (.node i) (.var v t)
  | mark {i m t} : Represents S bs (.node i) t → Represents S bs (.node i) (.mark m t)
  | stop {next} : Represents S bs (.seq none next) .stop
  | last {c t} : Represents S bs (.node c) t → Represents S bs (.seq (some c) none) (.chain t .stop)
  | link {c l cur next t ts} : Represents S bs (.node c) t → S l →
      bs[l]? = some (.chain cur next) → Represents S bs (.seq cur next) ts →
      Represents S bs (.seq (some c) (some l)) (.chain t ts)

/-- The whole array represents `t` from its entry block `0`. -/
def RepresentsTree (bs : List Block) (t : Tree) : Prop :=
  Represents (fun _ => True) bs (.node 0) t

namespace Represents

variable {S S' : Nat → Prop} {bs bs' : List Block} {p : Place} {t : Tree}

/-- Representation moves to any array that agrees on the visited cells. -/
theorem transport (h : Represents S bs p t) (hS : ∀ i, S i → S' i)
    (hbs : ∀ i b, S i → bs[i]? = some b → bs'[i]? = some b) :
    Represents S' bs' p t := by
  induction h with
  | basic hi hb => exact .basic (hS _ hi) (hbs _ _ hi hb)
  | defer hi hb _ _ ihn ihc => exact .defer (hS _ hi) (hbs _ _ hi hb) ihn ihc
  | many hi hb _ ih => exact .many (hS _ hi) (hbs _ _ hi hb) ih
  | crash hi hb => exact .crash (hS _ hi) (hbs _ _ hi hb)
  | hardCrash hi hb => exact .hardCrash (hS _ hi) (hbs _ _ hi hb)
  | crashPad hi hb _ _ ihb ihp => exact .crashPad (hS _ hi) (hbs _ _ hi hb) ihb ihp
  | branch hi hb _ _ ihy ihn => exact .branch (hS _ hi) (hbs _ _ hi hb) ihy ihn
  | loop hi hb _ ih => exact .loop (hS _ hi) (hbs _ _ hi hb) ih
  | brk hi hb => exact .brk (hS _ hi) (hbs _ _ hi hb)
  | var hi hb _ ih => exact .var (hS _ hi) (hbs _ _ hi hb) ih
  | mark _ ih => exact .mark ih
  | stop => exact .stop
  | last _ ih => exact .last ih
  | link _ hl hb _ ih ihs => exact .link ih (hS _ hl) (hbs _ _ hl hb) ihs

/-- The visited cells lie inside the array. -/
theorem inside (h : Represents S bs p t) :
    Represents (fun i => S i ∧ i < bs.length) bs p t := by
  have hlt : ∀ {i b}, bs[i]? = some b → i < bs.length := by
    intro i b hb
    exact (List.getElem?_eq_some_iff.mp hb).1
  induction h with
  | basic hi hb => exact .basic ⟨hi, hlt hb⟩ hb
  | defer hi hb _ _ ihn ihc => exact .defer ⟨hi, hlt hb⟩ hb ihn ihc
  | many hi hb _ ih => exact .many ⟨hi, hlt hb⟩ hb ih
  | crash hi hb => exact .crash ⟨hi, hlt hb⟩ hb
  | hardCrash hi hb => exact .hardCrash ⟨hi, hlt hb⟩ hb
  | crashPad hi hb _ _ ihb ihp => exact .crashPad ⟨hi, hlt hb⟩ hb ihb ihp
  | branch hi hb _ _ ihy ihn => exact .branch ⟨hi, hlt hb⟩ hb ihy ihn
  | loop hi hb _ ih => exact .loop ⟨hi, hlt hb⟩ hb ih
  | brk hi hb => exact .brk ⟨hi, hlt hb⟩ hb
  | var hi hb _ ih => exact .var ⟨hi, hlt hb⟩ hb ih
  | mark _ ih => exact .mark ih
  | stop => exact .stop
  | last _ ih => exact .last ih
  | link _ hl hb _ ih ihs => exact .link ih ⟨hl, hlt hb⟩ hb ihs

/-- A cell that holds a copy of a represented root represents the same tree: only the root
is copied, the subtree below it is shared. -/
theorem copyRoot {i j : Nat} (h : Represents S bs (.node i) t)
    (hj : S j) (hcopy : bs[j]? = bs[i]?) : Represents S bs (.node j) t := by
  generalize hp : Place.node i = q at h
  induction h with
  | mark _ ih => exact .mark (ih hp)
  | stop => cases hp
  | last _ _ => cases hp
  | link _ _ _ _ _ _ => cases hp
  | basic _ hb => cases hp; exact .basic hj (hcopy.trans hb)
  | defer _ hb hn hc => cases hp; exact .defer hj (hcopy.trans hb) hn hc
  | many _ hb ht => cases hp; exact .many hj (hcopy.trans hb) ht
  | crash _ hb => cases hp; exact .crash hj (hcopy.trans hb)
  | hardCrash _ hb => cases hp; exact .hardCrash hj (hcopy.trans hb)
  | crashPad _ hb hn hc => cases hp; exact .crashPad hj (hcopy.trans hb) hn hc
  | branch _ hb hn hc => cases hp; exact .branch hj (hcopy.trans hb) hn hc
  | loop _ hb ht => cases hp; exact .loop hj (hcopy.trans hb) ht
  | brk _ hb => cases hp; exact .brk hj (hcopy.trans hb)
  | var _ hb ht => cases hp; exact .var hj (hcopy.trans hb) ht

end Represents

end TreeVM
