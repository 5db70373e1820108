import TreeVM.Verify.Lval
import Mathlib.Data.List.Induction
import Mathlib.Tactic.Ring
import Mathlib.Tactic.IntervalCases

/-!
# The hold lists of all handles

`handle_add_hold` with the 32-bit counters of the source, and the lists it keeps.

* `handleAddHold`: one call; `holdRun`: calls and new places in any order;
* `Tidy`: segments lie in the array and below the range of the counters;
* `Room`: what a call needs so that no counter wraps;
* `handleAddHold_spec`: one call under these; `addHold_eq_handleAddHold`: the model of the first
  pass is this one without wrapping;
* `holdLists_exact`: a run whose calls find room keeps every list exactly.
-/

namespace TreeVM

/-- How many values `count_t`, `par_idx` and `hold_idx` have. -/
def countRange : Nat := 4294967296

/-- The arguments of `handle_add_hold`. -/
structure HoldCall where
  owner : Nat
  held : Nat
  loc : CodeLoc
  justConst : Bool
  deriving DecidableEq, Repr

/-- What can happen to the handles while the holds are collected. -/
inductive HoldStep
  | add (call : HoldCall)
  | intern (par : Par)
  deriving DecidableEq, Repr

/-- What a hold edge says, without its place in the program. -/
def HoldChain.pair (x : HoldChain) : Nat × Bool :=
  (x.par, x.justConst)

namespace Checker

/-- The edges of a handle as the source reads them, with 32-bit indices. -/
def segment (c : Checker) (h : Handle) : List HoldChain :=
  Segments.read countRange c.holds h.holdsStart h.numHolds

/-- The segment is not the last one and has to be copied before it grows. -/
def Moves (c : Checker) (h : Handle) : Prop :=
  h.numHolds ≠ 0 ∧ (h.holdsStart + h.numHolds) % countRange ≠ c.holds.length

instance (c : Checker) (h : Handle) : Decidable (c.Moves h) :=
  inferInstanceAs (Decidable (_ ∧ _))

/-- `handle_add_hold` -/
def handleAddHold (c : Checker) (call : HoldCall) : Bool × Checker :=
  match c.handles[call.owner]? with
  | none => (false, c)
  | some h =>
      if c.handles.length ≤ call.held then (false, c)
      else if (c.segment h).any fun old =>
          old.par = call.held ∧ old.justConst = call.justConst then (true, c)
      else
        let holds := if c.Moves h then c.holds ++ c.segment h else c.holds
        let start := if h.numHolds = 0 ∨ c.Moves h then c.holds.length % countRange
          else h.holdsStart
        (true, { c with
          holds := holds ++ [⟨call.held, call.loc, call.justConst⟩]
          handles := c.handles.set call.owner
            { h with holdsStart := start, numHolds := (h.numHolds + 1) % countRange } })

def holdStep (c : Checker) : HoldStep → Checker
  | .add call => (c.handleAddHold call).2
  | .intern par => (c.intern par).2

def holdRun (c : Checker) (steps : List HoldStep) : Checker :=
  steps.foldl holdStep c

/-- The hold list of place `i`. -/
def holdsAt (c : Checker) (i : Nat) : List HoldChain :=
  match c.handles[i]? with
  | some h => c.segment h
  | none => []

/-- Both places of the call are interned. -/
def Accepts (c : Checker) (call : HoldCall) : Prop :=
  call.owner < c.handles.length ∧ call.held < c.handles.length

instance (c : Checker) (call : HoldCall) : Decidable (c.Accepts call) :=
  inferInstanceAs (Decidable (_ ∧ _))

/-- The pairs that the accepted calls of a run add to place `i`, with repetitions. -/
def addedTo (i : Nat) : Checker → List HoldStep → List (Nat × Bool)
  | _, [] => []
  | c, .add call :: steps =>
      (if c.Accepts call ∧ call.owner = i then [(call.held, call.justConst)] else []) ++
        addedTo i (c.holdStep (.add call)) steps
  | c, .intern par :: steps => addedTo i (c.holdStep (.intern par)) steps

/-- In every state of the run, each list has the distinct pairs that were added to its place, in the
order of their first addition, and a call changes the list of its owner only. -/
structure KeepsLists (c : Checker) (steps : List HoldStep) : Prop where
  lists : ∀ before after, steps = before ++ after → ∀ i,
    ((c.holdRun before).holdsAt i).map HoldChain.pair = (addedTo i c before).eraseDups
  frame : ∀ before call after, steps = before ++ .add call :: after → ∀ i, i ≠ call.owner →
    (c.holdRun (before ++ [.add call])).holdsAt i = (c.holdRun before).holdsAt i
  answers : ∀ before call after, steps = before ++ .add call :: after →
    (((c.holdRun before).handleAddHold call).1 = true ↔ (c.holdRun before).Accepts call)

/-! ## One call -/

/-- The segments are below the end of the array and of the counters. -/
def Tidy (c : Checker) : Prop :=
  ∀ h ∈ c.handles, h.holdsStart + h.numHolds ≤ c.holds.length ∧
    h.holdsStart + h.numHolds ≤ countRange

/-- A call that appends to the array finds room for it: the array does not outgrow the indices and
the owner does not have the largest number of holds. -/
def Room (c : Checker) (call : HoldCall) : Prop :=
  ∀ h, c.handles[call.owner]? = some h → c.Accepts call →
    (call.held, call.justConst) ∉ (c.segment h).map HoldChain.pair →
    c.holds.length + (if c.Moves h then h.numHolds else 0) + 1 ≤ countRange ∧
      h.numHolds + 1 < countRange

variable {c : Checker} {call : HoldCall} {h : Handle}

theorem Tidy.segment_eq (ht : c.Tidy) (hh : h ∈ c.handles) : c.segment h = c.holdsOf h :=
  Segments.read_eq (ht h hh).1 (ht h hh).2

theorem any_iff_pair (held : Nat) (justConst : Bool) (l : List HoldChain) :
    (l.any fun old => old.par = held ∧ old.justConst = justConst) = true ↔
      (held, justConst) ∈ l.map HoldChain.pair := by
  rw [List.any_eq_true, List.mem_map]
  constructor
  · rintro ⟨old, hold, heq⟩
    obtain ⟨hpar, hconst⟩ := of_decide_eq_true heq
    exact ⟨old, hold, by rw [HoldChain.pair, hpar, hconst]⟩
  · rintro ⟨old, hold, heq⟩
    refine ⟨old, hold, decide_eq_true ?_⟩
    rw [HoldChain.pair, Prod.mk.injEq] at heq
    exact heq

/-- A call with a place that is not interned changes nothing. -/
theorem handleAddHold_rejected (hno : ¬ c.Accepts call) : c.handleAddHold call = (false, c) := by
  rw [handleAddHold]
  split
  · rfl
  · rename_i h hh
    have howner : call.owner < c.handles.length := (List.getElem?_eq_some_iff.mp hh).1
    rw [if_pos (Nat.le_of_not_lt fun hheld => hno ⟨howner, hheld⟩)]

/-- A call with a pair that is there already changes nothing. -/
theorem handleAddHold_known (hh : c.handles[call.owner]? = some h) (hacc : c.Accepts call)
    (hin : (call.held, call.justConst) ∈ (c.segment h).map HoldChain.pair) :
    c.handleAddHold call = (true, c) := by
  rw [handleAddHold, hh]
  simp only
  rw [if_neg (Nat.not_le.mpr hacc.2), if_pos ((any_iff_pair _ _ _).mpr hin)]

/-- The state after a call with a new pair: `moved` is the copy of a segment that was not the last
one. -/
structure Added (c : Checker) (call : HoldCall) (h : Handle) (c' : Checker) where
  moved : List HoldChain
  start : Nat
  shape : (h.numHolds = 0 ∧ start = c.holds.length ∧ moved = []) ∨
    (start = c.holds.length ∧ moved = c.holdsOf h) ∨
    (start = h.holdsStart ∧ h.holdsStart + h.numHolds = c.holds.length ∧ moved = [])
  holds : c'.holds = (c.holds ++ moved) ++ [⟨call.held, call.loc, call.justConst⟩]
  handles : c'.handles = c.handles.set call.owner
    { h with holdsStart := start, numHolds := h.numHolds + 1 }
  pars : c'.pars = c.pars
  bound : start + (h.numHolds + 1) ≤ countRange

/-- While there is room, no counter wraps. -/
theorem handleAddHold_new (ht : c.Tidy) (hroom : c.Room call)
    (hh : c.handles[call.owner]? = some h) (hacc : c.Accepts call)
    (hnot : (call.held, call.justConst) ∉ (c.segment h).map HoldChain.pair) :
    (c.handleAddHold call).1 = true ∧ Nonempty (Added c call h (c.handleAddHold call).2) := by
  obtain ⟨hlen, hnum⟩ := hroom h hh hacc hnot
  obtain ⟨hend, hrange⟩ := ht h (List.mem_of_getElem? hh)
  have hread := ht.segment_eq (List.mem_of_getElem? hh)
  rw [handleAddHold, hh]
  simp only
  rw [if_neg (Nat.not_le.mpr hacc.2), if_neg (mt (any_iff_pair _ _ _).mp hnot)]
  refine ⟨rfl, ?_⟩
  have hnum' : (h.numHolds + 1) % countRange = h.numHolds + 1 := Nat.mod_eq_of_lt hnum
  by_cases hmoves : c.Moves h
  · rw [if_pos hmoves] at hlen
    have hstart : c.holds.length % countRange = c.holds.length := Nat.mod_eq_of_lt (by omega)
    simp only [if_pos hmoves, if_pos (show h.numHolds = 0 ∨ c.Moves h from .inr hmoves), hstart,
      hnum', hread]
    exact ⟨c.holdsOf h, c.holds.length, .inr (.inl ⟨rfl, rfl⟩), rfl, rfl, rfl, by omega⟩
  · rw [if_neg hmoves] at hlen
    by_cases hzero : h.numHolds = 0
    · have hstart : c.holds.length % countRange = c.holds.length := Nat.mod_eq_of_lt (by omega)
      simp only [if_neg hmoves, if_pos (show h.numHolds = 0 ∨ c.Moves h from .inl hzero), hstart,
        hnum']
      exact ⟨[], c.holds.length, .inl ⟨hzero, rfl, rfl⟩, by simp, rfl, rfl, by omega⟩
    · -- the segment is the last one: comparing its end in 32 bits is exact below the limit
      have hlast : (h.holdsStart + h.numHolds) % countRange = c.holds.length :=
        Decidable.byContradiction fun hne => hmoves ⟨hzero, hne⟩
      have hend' : h.holdsStart + h.numHolds = c.holds.length := by
        have hle := Nat.mod_le (h.holdsStart + h.numHolds) countRange
        omega
      have hor : ¬ (h.numHolds = 0 ∨ c.Moves h) := fun h => h.elim hzero hmoves
      simp only [if_neg hmoves, if_neg hor, hnum']
      exact ⟨[], h.holdsStart, .inr (.inr ⟨rfl, hend', rfl⟩), by simp, rfl, rfl, by omega⟩

namespace Added

variable {c' : Checker}

theorem segment_owner (a : Added c call h c') (ht : c.Tidy) (hh : h ∈ c.handles) :
    c'.segment { h with holdsStart := a.start, numHolds := h.numHolds + 1 } =
      c.segment h ++ [⟨call.held, call.loc, call.justConst⟩] ∧
    a.start + (h.numHolds + 1) ≤ c'.holds.length := by
  have hshape : (h.numHolds = 0 ∧ a.start = c.holds.length ∧ c.holds ++ a.moved = c.holds) ∨
      (a.start = c.holds.length ∧ c.holds ++ a.moved =
        c.holds ++ (c.holds.drop h.holdsStart).take h.numHolds) ∨
      (a.start = h.holdsStart ∧ h.holdsStart + h.numHolds = c.holds.length ∧
        c.holds ++ a.moved = c.holds) := by
    rcases a.shape with ⟨hzero, hstart, hmoved⟩ | ⟨hstart, hmoved⟩ | ⟨hstart, hend, hmoved⟩
    · exact .inl ⟨hzero, hstart, by rw [hmoved, List.append_nil]⟩
    · exact .inr (.inl ⟨hstart, by rw [hmoved, Checker.holdsOf]⟩)
    · exact .inr (.inr ⟨hstart, hend, by rw [hmoved, List.append_nil]⟩)
  obtain ⟨hsegment, hinside⟩ := drop_take_add c.holds h.holdsStart h.numHolds
    ⟨call.held, call.loc, call.justConst⟩ (ht h hh).1 hshape
  rw [← a.holds] at hsegment hinside
  refine ⟨?_, hinside⟩
  rw [Checker.segment, Segments.read_eq hinside a.bound, ht.segment_eq hh, Checker.holdsOf]
  exact hsegment

theorem segment_other (a : Added c call h c') (ht : c.Tidy) {h' : Handle} (hh' : h' ∈ c.handles) :
    c'.segment h' = c.segment h' ∧ h'.holdsStart + h'.numHolds ≤ c'.holds.length := by
  obtain ⟨hend, hrange⟩ := ht h' hh'
  have hle : h'.holdsStart + h'.numHolds ≤ c'.holds.length := by
    rw [a.holds, List.append_assoc, List.length_append]
    omega
  refine ⟨?_, hle⟩
  rw [Checker.segment, Checker.segment, Segments.read_eq hle hrange, Segments.read_eq hend hrange,
    a.holds, List.append_assoc, take_drop_append hend]

theorem tidy (a : Added c call h c') (ht : c.Tidy) (hh : h ∈ c.handles) : c'.Tidy := by
  intro h' hh'
  rw [a.handles] at hh'
  rcases List.mem_or_eq_of_mem_set hh' with hold | rfl
  · exact ⟨(a.segment_other ht hold).2, (ht h' hold).2⟩
  · exact ⟨(a.segment_owner ht hh).2, a.bound⟩

theorem length_eq (a : Added c call h c') : c'.handles.length = c.handles.length := by
  rw [a.handles, List.length_set]

theorem holdsAt_owner (a : Added c call h c') (ht : c.Tidy)
    (hh : c.handles[call.owner]? = some h) :
    c'.holdsAt call.owner = c.holdsAt call.owner ++ [⟨call.held, call.loc, call.justConst⟩] := by
  have howner : call.owner < c.handles.length := (List.getElem?_eq_some_iff.mp hh).1
  rw [holdsAt, holdsAt, a.handles, List.getElem?_set_self howner, hh]
  exact (a.segment_owner ht (List.mem_of_getElem? hh)).1

theorem holdsAt_other (a : Added c call h c') (ht : c.Tidy) {i : Nat} (hi : i ≠ call.owner) :
    c'.holdsAt i = c.holdsAt i := by
  rw [holdsAt, holdsAt, a.handles, List.getElem?_set_ne hi.symm]
  split
  · rename_i h' hh'
    exact (a.segment_other ht (List.mem_of_getElem? hh')).1
  · rfl

end Added

theorem holdsAt_of_handle {i : Nat} (hh : c.handles[i]? = some h) : c.holdsAt i = c.segment h := by
  rw [holdsAt, hh]

/-- One call: it answers whether both places are interned, adds the pair unless it is there, and
touches no other list. -/
structure AddsHold (c : Checker) (call : HoldCall) (answer : Bool) (c' : Checker) : Prop where
  answer : answer = true ↔ c.Accepts call
  tidy : c'.Tidy
  length : c'.handles.length = c.handles.length
  owner : (c'.holdsAt call.owner).map HoldChain.pair =
    if c.Accepts call ∧ (call.held, call.justConst) ∉ (c.holdsAt call.owner).map HoldChain.pair then
      (c.holdsAt call.owner).map HoldChain.pair ++ [(call.held, call.justConst)]
    else (c.holdsAt call.owner).map HoldChain.pair
  other : ∀ i, i ≠ call.owner → c'.holdsAt i = c.holdsAt i

theorem handleAddHold_spec (ht : c.Tidy) (hroom : c.Room call) :
    AddsHold c call (c.handleAddHold call).1 (c.handleAddHold call).2 := by
  by_cases hacc : c.Accepts call
  · obtain ⟨h, hh⟩ : ∃ h, c.handles[call.owner]? = some h :=
      ⟨_, List.getElem?_eq_getElem hacc.1⟩
    have hat : c.holdsAt call.owner = c.segment h := holdsAt_of_handle hh
    by_cases hin : (call.held, call.justConst) ∈ (c.segment h).map HoldChain.pair
    · rw [handleAddHold_known hh hacc hin]
      refine ⟨iff_of_true rfl hacc, ht, rfl, ?_, fun _ _ => rfl⟩
      rw [if_neg (fun hand => hand.2 (hat ▸ hin))]
    · obtain ⟨htrue, ⟨a⟩⟩ := handleAddHold_new ht hroom hh hacc hin
      refine ⟨iff_of_true htrue hacc, a.tidy ht (List.mem_of_getElem? hh), a.length_eq, ?_,
        fun i hi => a.holdsAt_other ht hi⟩
      rw [a.holdsAt_owner ht hh, if_pos ⟨hacc, hat ▸ hin⟩, List.map_append]
      rfl
  · rw [handleAddHold_rejected hacc]
    refine ⟨iff_of_false nofun hacc, ht, rfl, ?_, fun _ _ => rfl⟩
    rw [if_neg (fun hand => hacc hand.1)]

/-- While there is room, `addHold`, which counts in `Nat`, does the same. -/
theorem addHold_eq_handleAddHold (ht : c.Tidy) (hroom : c.Room call) :
    c.addHold call.owner call.held call.loc call.justConst =
      if (c.handleAddHold call).1 then .ok (c.handleAddHold call).2 else .error .rejected := by
  rw [addHold, handleAddHold]
  cases hh : c.handles[call.owner]? with
  | none => rfl
  | some h =>
      simp only
      have howner : call.owner < c.handles.length := (List.getElem?_eq_some_iff.mp hh).1
      rw [← ht.segment_eq (List.mem_of_getElem? hh)]
      by_cases hheld : c.handles.length ≤ call.held
      · rw [if_pos hheld, if_pos hheld]
        rfl
      · rw [if_neg hheld, if_neg hheld]
        by_cases hin : (c.segment h).any fun old =>
            old.par = call.held ∧ old.justConst = call.justConst
        · rw [if_pos hin, if_pos hin]
          rfl
        · rw [if_neg hin, if_neg hin]
          obtain ⟨hlen, hnum⟩ := hroom h hh ⟨howner, Nat.lt_of_not_le hheld⟩
            (mt (any_iff_pair _ _ _).mpr hin)
          have hend := (ht h (List.mem_of_getElem? hh)).1
          have hmoves : (h.numHolds ≠ 0 ∧ h.holdsStart + h.numHolds ≠ c.holds.length) ↔
              c.Moves h := by
            rw [Moves, Nat.mod_eq_of_lt (by omega)]
          have hstart : c.holds.length % countRange = c.holds.length := Nat.mod_eq_of_lt (by omega)
          simp only [hmoves, hstart, Nat.mod_eq_of_lt hnum, if_true]

/-! ## Runs -/

theorem tidy_clearHolds (c : Checker) : c.clearHolds.Tidy := by
  intro h hh
  obtain ⟨old, -, rfl⟩ := List.mem_map.mp hh
  exact ⟨Nat.zero_le _, Nat.zero_le _⟩

theorem holdsAt_clearHolds (c : Checker) (i : Nat) : c.clearHolds.holdsAt i = [] := by
  rw [holdsAt]
  split
  · rename_i h hh
    obtain ⟨old, -, rfl⟩ := List.mem_map.mp (List.mem_of_getElem? hh)
    rfl
  · rfl

/-- A new place has no holds and the other lists stay. -/
theorem intern_lists (ht : c.Tidy) (par : Par) :
    (c.intern par).2.Tidy ∧ ∀ i, (c.intern par).2.holdsAt i = c.holdsAt i := by
  rw [intern]
  split
  · exact ⟨ht, fun _ => rfl⟩
  · refine ⟨fun h hh => ?_, fun i => ?_⟩
    · rcases List.mem_append.mp hh with hold | hnew
      · exact ht h hold
      · rw [List.mem_singleton] at hnew
        rw [hnew]
        exact ⟨Nat.zero_le _, Nat.zero_le _⟩
    · simp only [holdsAt]
      rcases Nat.lt_trichotomy i c.handles.length with hlt | rfl | hgt
      · rw [List.getElem?_append_left hlt]
        rfl
      · rw [List.getElem?_concat_length, List.getElem?_eq_none (Nat.le_refl _)]
        rfl
      · rw [List.getElem?_eq_none (Nat.le_of_lt hgt), List.getElem?_eq_none]
        rw [List.length_append, List.length_singleton]
        omega

theorem holdRun_append (c : Checker) (xs ys : List HoldStep) :
    c.holdRun (xs ++ ys) = (c.holdRun xs).holdRun ys :=
  List.foldl_append

theorem addedTo_append (i : Nat) (c : Checker) (xs ys : List HoldStep) :
    addedTo i c (xs ++ ys) = addedTo i c xs ++ addedTo i (c.holdRun xs) ys := by
  induction xs generalizing c with
  | nil => rfl
  | cons x xs ih =>
      cases x with
      | add call =>
          rw [List.cons_append, addedTo, addedTo, ih, List.append_assoc]
          rfl
      | intern par =>
          rw [List.cons_append, addedTo, addedTo, ih]
          rfl

/-- Every call of the run finds room. -/
def HasRoom (c : Checker) (steps : List HoldStep) : Prop :=
  ∀ before call after, steps = before ++ .add call :: after → (c.holdRun before).Room call

theorem HasRoom.prefix_ {steps before after : List HoldStep} (h : c.HasRoom steps)
    (heq : steps = before ++ after) : c.HasRoom before := by
  intro xs call ys hbefore
  exact h xs call (ys ++ after) (by rw [heq, hbefore, List.append_assoc, List.cons_append])

/-- What a run that starts without holds keeps. -/
theorem holdRun_spec (ht : c.Tidy) (hempty : ∀ i, c.holdsAt i = []) {steps : List HoldStep}
    (hroom : c.HasRoom steps) : (c.holdRun steps).Tidy ∧
      ∀ i, ((c.holdRun steps).holdsAt i).map HoldChain.pair = (addedTo i c steps).eraseDups := by
  induction steps using List.reverseRecOn with
  | nil => exact ⟨ht, fun i => by rw [holdRun, List.foldl_nil, hempty i]; rfl⟩
  | append_singleton steps step ih =>
      obtain ⟨htidy, hlists⟩ := ih (hroom.prefix_ rfl)
      rw [holdRun_append]
      cases step with
      | intern par =>
          obtain ⟨htidy', hsame⟩ := intern_lists htidy par
          refine ⟨htidy', fun i => ?_⟩
          rw [addedTo_append, addedTo, addedTo, List.append_nil, ← hlists i]
          exact congrArg _ (hsame i)
      | add call =>
          have hspec := handleAddHold_spec htidy (hroom steps call [] rfl)
          refine ⟨hspec.tidy, fun i => ?_⟩
          rw [addedTo_append, addedTo, addedTo, List.append_nil]
          by_cases hi : i = call.owner
          · subst hi
            refine hspec.owner.trans ?_
            rw [hlists]
            by_cases hacc : (c.holdRun steps).Accepts call
            · simp only [hacc, true_and, if_true, Segments.eraseDups_concat, List.mem_eraseDups,
                ite_not]
            · simp only [hacc, false_and, if_false, List.append_nil]
          · rw [if_neg (fun hand => hi hand.2.symm), List.append_nil, ← hlists i]
            exact congrArg _ (hspec.other i hi)

/-- The hold lists are exact in every run from cleared holds whose calls find room. -/
theorem holdLists_exact (c : Checker) (steps : List HoldStep)
    (hroom : c.clearHolds.HasRoom steps) : c.clearHolds.KeepsLists steps := by
  have hspec : ∀ before after, steps = before ++ after → (c.clearHolds.holdRun before).Tidy ∧
      ∀ i, ((c.clearHolds.holdRun before).holdsAt i).map HoldChain.pair =
        (addedTo i c.clearHolds before).eraseDups := fun before after heq =>
    holdRun_spec (tidy_clearHolds c) (holdsAt_clearHolds c) (hroom.prefix_ heq)
  refine ⟨fun before after heq => (hspec before after heq).2, fun before call after heq i hi => ?_,
    fun before call after heq => ?_⟩
  · rw [holdRun_append]
    exact (handleAddHold_spec (hspec before _ heq).1 (hroom before call after heq)).other i hi
  · exact (handleAddHold_spec (hspec before _ heq).1 (hroom before call after heq)).answer

theorem hasRoom_cons {steps : List HoldStep} (hroom : c.Room call)
    (hrest : (c.holdStep (.add call)).HasRoom steps) : c.HasRoom (.add call :: steps) := by
  intro before call' after heq
  cases before with
  | nil =>
      cases heq
      exact hroom
  | cons step before =>
      cases heq
      exact hrest before call' after rfl

theorem holdLists_exact_two :
    (Checker.clearHolds ⟨[{ par := ⟨.localVar, 0, 0⟩ }, { par := ⟨.arg, 0, 0⟩ }], [], []⟩).KeepsLists
      [.add ⟨0, 1, ⟨0, 0⟩, false⟩, .add ⟨1, 0, ⟨0, 1⟩, false⟩, .add ⟨0, 0, ⟨0, 2⟩, true⟩] := by
  refine holdLists_exact _ _ (hasRoom_cons ?_ (hasRoom_cons ?_ (hasRoom_cons ?_ ?_)))
  · intro h hh _ _
    cases hh
    decide
  · intro h hh _ _
    cases hh
    decide
  · intro h hh _ _
    cases hh
    decide
  · intro before call after heq
    cases before <;> cases heq

/-! ## The counters wrap -/

/-- A function with `n` locals, all interned and none with holds. -/
def manyPlaces (n : Nat) : Checker :=
  { handles := (List.range n).map fun i => { par := ⟨.localVar, i, 0⟩ } }

/-- In round `j` the first two places start to hold place `j`. -/
def takeTurns (n : Nat) : List HoldStep :=
  (List.range n).flatMap fun j => [.add ⟨0, j, ⟨0, j⟩, false⟩, .add ⟨1, j, ⟨0, j⟩, false⟩]

theorem takeTurns_succ (n : Nat) : takeTurns (n + 1) =
    takeTurns n ++ [.add ⟨0, n, ⟨0, n⟩, false⟩, .add ⟨1, n, ⟨0, n⟩, false⟩] := by
  rw [takeTurns, List.range_succ, List.flatMap_append]
  rfl

/-- A list that is not the last one moves behind the others before it grows. -/
theorem handleAddHold_turn {o j : Nat} (loc : CodeLoc) (ht : c.Tidy)
    (hh : c.handles[o]? = some h) (hnum : h.numHolds = j) (hj : j < c.handles.length)
    (hlist : (c.holdsAt o).map HoldChain.pair = (List.range j).map fun k => (k, false))
    (hmoved : j = 0 ∨ h.holdsStart + j ≠ c.holds.length)
    (hroom : c.holds.length + j + 1 ≤ countRange) (hnum' : j + 1 < countRange) :
    ∃ moved, moved.length = j ∧
      (c.handleAddHold ⟨o, j, loc, false⟩).2.holds = c.holds ++ moved ++ [⟨j, loc, false⟩] ∧
      (c.handleAddHold ⟨o, j, loc, false⟩).2.handles =
        c.handles.set o { h with holdsStart := c.holds.length, numHolds := j + 1 } ∧
      (c.handleAddHold ⟨o, j, loc, false⟩).2.Tidy ∧
      ((c.handleAddHold ⟨o, j, loc, false⟩).2.holdsAt o).map HoldChain.pair =
        (List.range (j + 1)).map (fun k => (k, false)) ∧
      ∀ i, i ≠ o → (c.handleAddHold ⟨o, j, loc, false⟩).2.holdsAt i = c.holdsAt i := by
  have hat : c.holdsAt o = c.segment h := holdsAt_of_handle hh
  have hacc : c.Accepts ⟨o, j, loc, false⟩ := ⟨(List.getElem?_eq_some_iff.mp hh).1, hj⟩
  have hnot : (j, false) ∉ (c.segment h).map HoldChain.pair := by
    rw [← hat, hlist]
    simp
  have hfits : c.Room ⟨o, j, loc, false⟩ := by
    intro h' hh' _ _
    cases hh.symm.trans hh'
    refine ⟨?_, by omega⟩
    split <;> omega
  obtain ⟨-, ⟨a⟩⟩ := handleAddHold_new ht hfits hh hacc hnot
  have hend := (ht h (List.mem_of_getElem? hh)).1
  have hlen : (c.holdsOf h).length = j := by
    rw [holdsOf, List.length_take, List.length_drop]
    omega
  obtain ⟨hstart, hmoved'⟩ : a.start = c.holds.length ∧ a.moved.length = j := by
    rcases a.shape with ⟨hzero, hstart, hmoved'⟩ | ⟨hstart, hmoved'⟩ | ⟨hstart, hlast, hmoved'⟩
    · exact ⟨hstart, by rw [hmoved', ← hnum, hzero]; rfl⟩
    · exact ⟨hstart, by rw [hmoved', hlen]⟩
    · rcases hmoved with hzero | hne
      · exact ⟨by omega, by rw [hmoved', hzero]; rfl⟩
      · omega
  refine ⟨a.moved, hmoved', a.holds, ?_, a.tidy ht (List.mem_of_getElem? hh), ?_,
    fun i hi => a.holdsAt_other ht hi⟩
  · rw [a.handles, hstart, hnum]
  · rw [a.holdsAt_owner ht hh, List.map_append, hlist, List.range_succ, List.map_append]
    rfl

/-- After `j` rounds with room each of the two has moved its list behind that of the other. -/
structure TookTurns (n j : Nat) (c : Checker) : Prop where
  tidy : c.Tidy
  length : c.handles.length = n
  first : ∃ h, c.handles[0]? = some h ∧ h.holdsStart + j = j * j ∧ h.numHolds = j
  second : ∃ h, c.handles[1]? = some h ∧ h.holdsStart = j * j ∧ h.numHolds = j
  holds : c.holds.length = j * j + j
  lists : ∀ i, i < 2 → (c.holdsAt i).map HoldChain.pair = (List.range j).map fun k => (k, false)
  start : j ≠ 0 → (c.holds.take 2).map HoldChain.pair = [(0, false), (0, false)]

theorem square_succ (j : Nat) : (j + 1) * (j + 1) = j * j + j + j + 1 := by
  ring

theorem tookTurns_zero (n : Nat) (hn : 2 ≤ n) : TookTurns n 0 (manyPlaces n).clearHolds := by
  have hhandle : ∀ i, i < n → ∃ h, (manyPlaces n).clearHolds.handles[i]? = some h ∧
      h.holdsStart = 0 ∧ h.numHolds = 0 := by
    intro i hi
    simp [manyPlaces, clearHolds, List.getElem?_range hi]
  refine ⟨tidy_clearHolds _, ?_, ?_, ?_, rfl, fun i _ => ?_, fun h => absurd rfl h⟩
  · simp [manyPlaces, clearHolds]
  · obtain ⟨h, hh, hstart, hnum⟩ := hhandle 0 (by omega)
    exact ⟨h, hh, by rw [hstart], hnum⟩
  · obtain ⟨h, hh, hstart, hnum⟩ := hhandle 1 (by omega)
    exact ⟨h, hh, by rw [hstart], hnum⟩
  · rw [holdsAt_clearHolds]
    rfl

/-- The first call of a round. -/
structure HalfTurn (n j : Nat) (c : Checker) : Prop where
  tidy : c.Tidy
  length : c.handles.length = n
  first : ∃ h, c.handles[0]? = some h ∧ h.holdsStart = j * j + j ∧ h.numHolds = j + 1
  second : ∃ h, c.handles[1]? = some h ∧ h.holdsStart = j * j ∧ h.numHolds = j
  holds : c.holds.length = j * j + j + j + 1
  firstList : (c.holdsAt 0).map HoldChain.pair = (List.range (j + 1)).map fun k => (k, false)
  secondList : (c.holdsAt 1).map HoldChain.pair = (List.range j).map fun k => (k, false)
  start : j ≠ 0 → (c.holds.take 2).map HoldChain.pair = [(0, false), (0, false)]
  only : j = 0 → c.holds.map HoldChain.pair = [(0, false)]

variable {n j : Nat}

theorem TookTurns.half (h : TookTurns n j c) (hj : j < n)
    (hroom : (j + 1) * (j + 1) ≤ countRange) (hlarge : j + 1 < countRange) :
    HalfTurn n j (c.holdStep (.add ⟨0, j, ⟨0, j⟩, false⟩)) := by
  have hsquare := square_succ j
  obtain ⟨h₀, hh₀, hstart₀, hnum₀⟩ := h.first
  obtain ⟨h₁, hh₁, hstart₁, hnum₁⟩ := h.second
  have hlen := h.holds
  obtain ⟨moved, hmoved, hholds, hhandles, htidy, hlist, hother⟩ :=
    handleAddHold_turn ⟨0, j⟩ h.tidy hh₀ hnum₀ (h.length ▸ hj) (h.lists 0 (by omega))
      (by omega) (by omega) hlarge
  have hlt : 0 < c.handles.length := (List.getElem?_eq_some_iff.mp hh₀).1
  have hnew : (c.holdStep (.add ⟨0, j, ⟨0, j⟩, false⟩)).handles[0]? =
      some { h₀ with holdsStart := c.holds.length, numHolds := j + 1 } := by
    rw [holdStep, hhandles, List.getElem?_set_self hlt]
  refine ⟨htidy, ?_, ⟨_, hnew, hlen, rfl⟩, ⟨h₁, ?_, hstart₁, hnum₁⟩, ?_, hlist, ?_, fun hne => ?_,
    fun hzero => ?_⟩
  · rw [holdStep, hhandles, List.length_set, h.length]
  · rw [holdStep, hhandles, List.getElem?_set_ne (by omega), hh₁]
  · rw [holdStep, hholds, List.length_append, List.length_append, hmoved, hlen]
    rfl
  · rw [holdStep, hother 1 (by omega)]
    exact h.lists 1 (by omega)
  · have htwo : 2 ≤ c.holds.length := by
      have : 1 ≤ j * j := Nat.mul_pos (by omega) (by omega)
      omega
    rw [holdStep, hholds, List.append_assoc, List.take_append_of_le_length htwo]
    exact h.start hne
  · subst hzero
    have hnil : c.holds = [] := List.length_eq_zero_iff.mp hlen
    rw [holdStep, hholds, hnil, List.length_eq_zero_iff.mp hmoved]
    rfl

theorem HalfTurn.done (h : HalfTurn n j c) (hj : j < n)
    (hroom : (j + 1) * (j + 1) + (j + 1) ≤ countRange) (hlarge : j + 1 < countRange) :
    TookTurns n (j + 1) (c.holdStep (.add ⟨1, j, ⟨0, j⟩, false⟩)) := by
  have hsquare := square_succ j
  obtain ⟨h₀, hh₀, hstart₀, hnum₀⟩ := h.first
  obtain ⟨h₁, hh₁, hstart₁, hnum₁⟩ := h.second
  have hlen := h.holds
  obtain ⟨moved, hmoved, hholds, hhandles, htidy, hlist, hother⟩ :=
    handleAddHold_turn ⟨0, j⟩ h.tidy hh₁ hnum₁ (h.length ▸ hj) h.secondList
      (by omega) (by omega) hlarge
  have hlt : 1 < c.handles.length := (List.getElem?_eq_some_iff.mp hh₁).1
  have hnew : (c.holdStep (.add ⟨1, j, ⟨0, j⟩, false⟩)).handles[1]? =
      some { h₁ with holdsStart := c.holds.length, numHolds := j + 1 } := by
    rw [holdStep, hhandles, List.getElem?_set_self hlt]
  refine ⟨htidy, ?_, ⟨h₀, ?_, by omega, hnum₀⟩, ⟨_, hnew, hlen.trans hsquare.symm, rfl⟩, ?_,
    fun i hi => ?_, fun _ => ?_⟩
  · rw [holdStep, hhandles, List.length_set, h.length]
  · rw [holdStep, hhandles, List.getElem?_set_ne (by omega), hh₀]
  · rw [holdStep, hholds, List.length_append, List.length_append, hmoved, hlen, hsquare]
    simp only [List.length_singleton]
    omega
  · interval_cases i
    · rw [holdStep, hother 0 (by omega)]
      exact h.firstList
    · exact hlist
  · rw [holdStep, hholds]
    rcases Nat.eq_zero_or_pos j with rfl | hpos
    · rw [List.length_eq_zero_iff.mp hmoved, List.append_nil, List.take_of_length_le, List.map_append,
        h.only rfl]
      · rfl
      · rw [List.length_append, hlen]
        rfl
    · have htwo : 2 ≤ c.holds.length := by omega
      rw [List.append_assoc, List.take_append_of_le_length htwo]
      exact h.start (by omega)

/-- The rounds up to `j` find room. -/
theorem tookTurns_run (hn : 2 ≤ n) : ∀ j, j ≤ n → j * j + j ≤ countRange → j < countRange →
    TookTurns n j ((manyPlaces n).clearHolds.holdRun (takeTurns j)) := by
  intro j
  induction j with
  | zero => exact fun _ _ _ => tookTurns_zero n hn
  | succ j ih =>
      intro hle hroom hlarge
      have hsquare := square_succ j
      have hrun : (manyPlaces n).clearHolds.holdRun (takeTurns (j + 1)) =
          (((manyPlaces n).clearHolds.holdRun (takeTurns j)).holdStep
            (.add ⟨0, j, ⟨0, j⟩, false⟩)).holdStep (.add ⟨1, j, ⟨0, j⟩, false⟩) := by
        rw [takeTurns_succ, holdRun_append]
        rfl
      rw [hrun]
      have hhalf := (ih (by omega) (by omega) (by omega)).half (by omega) (by omega) hlarge
      exact hhalf.done (by omega) hroom hlarge

/-- When the array has as many edges as there are indices, the list of the second place moves to an
index that is recorded as 0. -/
theorem HalfTurn.wraps (h : HalfTurn n j c) (hn : j < n) (hj : 0 < j)
    (hfull : (j + 1) * (j + 1) = countRange) (hlarge : j + 1 < countRange) :
    ∃ rest, ((c.holdStep (.add ⟨1, j, ⟨0, j⟩, false⟩)).holdsAt 1).map HoldChain.pair =
      (0, false) :: (0, false) :: rest := by
  have hsquare := square_succ j
  obtain ⟨h₁, hh₁, hstart₁, hnum₁⟩ := h.second
  have hlen : c.holds.length = countRange := by rw [h.holds, ← hsquare, hfull]
  have hat : c.holdsAt 1 = c.segment h₁ := holdsAt_of_handle hh₁
  have hnot : (j, false) ∉ (c.segment h₁).map HoldChain.pair := by
    rw [← hat, h.secondList]
    simp
  have hmoves : c.Moves h₁ := by
    rw [Moves, hnum₁, hstart₁, Nat.mod_eq_of_lt (by omega)]
    exact ⟨by omega, by omega⟩
  have hlt : 1 < c.handles.length := (List.getElem?_eq_some_iff.mp hh₁).1
  obtain ⟨c', hc'⟩ : ∃ c', (c.handleAddHold ⟨1, j, ⟨0, j⟩, false⟩).2 = c' := ⟨_, rfl⟩
  have hnew : c'.handles[1]? = some { h₁ with holdsStart := 0, numHolds := j + 1 } ∧
      c'.holds = c.holds ++ (c.segment h₁ ++ [⟨j, ⟨0, j⟩, false⟩]) := by
    rw [← hc', handleAddHold, hh₁]
    simp only
    rw [if_neg (by rw [h.length]; omega), if_neg (mt (any_iff_pair _ _ _).mp hnot)]
    simp only [hmoves, or_true, if_true, hlen, hnum₁, Nat.mod_self, Nat.mod_eq_of_lt hlarge,
      List.append_assoc, List.getElem?_set_self hlt]
    exact ⟨trivial, trivial⟩
  obtain ⟨hh', hholds⟩ := hnew
  have hread : c'.segment { h₁ with holdsStart := 0, numHolds := j + 1 } =
      c'.holds.take (j + 1) := by
    have hle : 0 + (j + 1) ≤ c'.holds.length := by
      rw [hholds, List.length_append, hlen]
      omega
    have hrange : 0 + (j + 1) ≤ countRange := by omega
    exact Segments.read_eq hle hrange
  have htwo : c'.holds.take (j + 1) = c.holds.take 2 ++ (c'.holds.drop 2).take (j - 1) := by
    have hsum : j + 1 = 2 + (j - 1) := by omega
    rw [hsum, List.take_add, hholds, List.take_append_of_le_length (by omega)]
  refine ⟨((c'.holds.drop 2).take (j - 1)).map HoldChain.pair, ?_⟩
  rw [holdStep, hc', holdsAt_of_handle hh', hread, htwo, List.map_append, h.start (by omega)]
  rfl

theorem takeTurns_wraps (hj : 0 < j) (hfull : (j + 1) * (j + 1) = countRange)
    (hlarge : j + 1 < countRange) :
    ¬ (manyPlaces (j + 1)).clearHolds.KeepsLists (takeTurns (j + 1)) := by
  intro hkeeps
  have hsquare := square_succ j
  have hhalf := (tookTurns_run (n := j + 1) (by omega) j (by omega) (by omega) (by omega)).half
    (by omega) (Nat.le_of_eq hfull) hlarge
  obtain ⟨rest, hwrong⟩ := hhalf.wraps (by omega) hj hfull hlarge
  have hlists := hkeeps.lists (takeTurns (j + 1)) [] (List.append_nil _).symm 1
  rw [takeTurns_succ, holdRun_append] at hlists
  exact Segments.eraseDups_ne_twice (hlists.symm.trans hwrong)

/-- With 65536 places and 65536 rounds the list of the second place gets an edge twice. -/
theorem takeTurns_duplicates :
    ¬ (manyPlaces 65536).clearHolds.KeepsLists (takeTurns 65536) :=
  takeTurns_wraps (j := 65535) (by decide) (by decide) (by decide)

end Checker

end TreeVM
