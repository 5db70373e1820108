import TreeVM.Defer.Paths

/-!
# Where the breaks of a lowered tree go

The level of a break counts the `BLOCK_MANY`, `BLOCK_LOOP` and `BLOCK_VAR` around it.  The pass
puts a `BLOCK_MANY` around some breaks, replaces every defer by one, and copies the roots of
epilogues to places with other blocks around them.

* `Tree.placed`: the tree with every scope marked by its position and every break by the position
  of its target; the pass carries these marks to the images of the blocks;
* `Tree.DestinationsKept`: every break designates the image of its target, on every way down that
  reaches it;
* `Tree.HandlersStay`: no break takes the handler of a crash pad from the epilogue stack that a
  break of that handler leaves;
* `removeDefers_destinations`: the pass keeps the destinations in exactly these trees.
-/

namespace TreeVM

namespace Tree

/-- Marks on the scopes and the breaks of a tree.  `scopes` are the positions of the scopes around
it, innermost first, a defer being one for its body and for its cleanup; `here` is the position of
the tree, the last step first. -/
def placed (scopes : List (List Nat)) (here : List Nat) : Tree → Tree
  | basic ops => basic ops
  | defer id next cleanup =>
      mark (.place here) (defer id (next.placed (here :: scopes) (0 :: here))
        (cleanup.placed (here :: scopes) (1 :: here)))
  | many body => mark (.place here) (many (body.placed (here :: scopes) (0 :: here)))
  | chain cur next => chain (cur.placed scopes (0 :: here)) (next.placed scopes (1 :: here))
  | stop => stop
  | crash => crash
  | hardCrash => hardCrash
  | crashPad body pad => crashPad (body.placed scopes (0 :: here)) (pad.placed scopes (1 :: here))
  | branch cond yes no => branch cond (yes.placed scopes (0 :: here)) (no.placed scopes (1 :: here))
  | loop body => mark (.place here) (loop (body.placed (here :: scopes) (0 :: here)))
  | brk level => mark (.aim scopes[level - 1]?) (brk level)
  | var v body => mark (.place here) (var v (body.placed (here :: scopes) (0 :: here)))
  | mark _ t => t.placed scopes here

/-- Every break designates a block marked with its target.  `scopes` are the marks of the scopes
around the tree, `here` is the mark right above it, `target` that of the break it belongs to. -/
def DestinationsKept (scopes : List (Option (List Nat))) (here target : Option (List Nat)) :
    Tree → Prop
  | defer _ next cleanup =>
      next.DestinationsKept (here :: scopes) none target ∧
        cleanup.DestinationsKept (here :: scopes) none target
  | many body => body.DestinationsKept (here :: scopes) none target
  | chain cur next =>
      cur.DestinationsKept scopes none target ∧ next.DestinationsKept scopes none target
  | crashPad body pad =>
      body.DestinationsKept scopes none target ∧ pad.DestinationsKept scopes none target
  | branch _ yes no =>
      yes.DestinationsKept scopes none target ∧ no.DestinationsKept scopes none target
  | loop body => body.DestinationsKept (here :: scopes) none target
  | brk level => 1 ≤ level ∧ ∃ p, target = some p ∧ scopes[level - 1]? = some (some p)
  | var _ body => body.DestinationsKept (here :: scopes) none target
  | mark (.place p) t => t.DestinationsKept scopes (some p) target
  | mark (.aim p) t => t.DestinationsKept scopes none p
  | mark _ t => t.DestinationsKept scopes here target
  | _ => True

/-- No break leaves the tree: `depth` is the number of scopes around it that do not count. -/
def Contained (depth : Nat) : Tree → Prop
  | defer _ next cleanup => next.Contained (depth + 1) ∧ cleanup.Contained (depth + 1)
  | many body => body.Contained (depth + 1)
  | chain cur next => cur.Contained depth ∧ next.Contained depth
  | crashPad body pad => body.Contained depth ∧ pad.Contained depth
  | branch _ yes no => yes.Contained depth ∧ no.Contained depth
  | loop body => body.Contained (depth + 1)
  | brk level => level ≤ depth
  | var _ body => body.Contained (depth + 1)
  | mark _ t => t.Contained depth
  | _ => True

/-- No break of level `n` has the body of a crash pad among the `n - 1` innermost blocks around it
(blocks of all kinds counted) whose handler a break leaves.  `handlers` has an entry for every block
around the tree: the handler, where the block is the body of a crash pad. -/
def HandlersStay (handlers : List (Option Tree)) : Tree → Prop
  | defer _ next cleanup =>
      next.HandlersStay (none :: handlers) ∧ cleanup.HandlersStay (none :: handlers)
  | many body => body.HandlersStay (none :: handlers)
  | chain cur next => cur.HandlersStay handlers ∧ next.HandlersStay handlers
  | crashPad body pad =>
      body.HandlersStay (some pad :: handlers) ∧ pad.HandlersStay (none :: handlers)
  | branch _ yes no => yes.HandlersStay (none :: handlers) ∧ no.HandlersStay (none :: handlers)
  | loop body => body.HandlersStay (none :: handlers)
  | brk level => ∀ pad, some pad ∈ handlers.take (level - 1) → pad.Contained 0
  | var _ body => body.HandlersStay (none :: handlers)
  | mark _ t => t.HandlersStay handlers
  | _ => True

/-! ## Marks change nothing -/

section Placed

variable {scopes : List (List Nat)} {here : List Nat} {t : Tree}

theorem size_placed : (t.placed scopes here).size = t.size := by
  induction t generalizing scopes here <;> simp_all [placed, size]

theorem contained_placed {depth : Nat} : (t.placed scopes here).Contained depth ↔ t.Contained depth := by
  induction t generalizing scopes here depth <;> simp_all [placed, Contained]

theorem levelsWithin_placed {depth : Nat} :
    (t.placed scopes here).LevelsWithin depth ↔ t.LevelsWithin depth := by
  induction t generalizing scopes here depth <;> simp_all [placed, LevelsWithin]

end Placed

end Tree

theorem Represents.placed {S : Nat → Prop} {bs : List Block} {p : Place} {t : Tree}
    (h : Represents S bs p t) (scopes : List (List Nat)) (here : List Nat) :
    Represents S bs p (t.placed scopes here) := by
  induction h generalizing scopes here with
  | basic hi hb => exact .basic hi hb
  | defer hi hb _ _ ihn ihc => exact .mark (.defer hi hb (ihn _ _) (ihc _ _))
  | many hi hb _ ih => exact .mark (.many hi hb (ih _ _))
  | crash hi hb => exact .crash hi hb
  | hardCrash hi hb => exact .hardCrash hi hb
  | crashPad hi hb _ _ ihb ihp => exact .crashPad hi hb (ihb _ _) (ihp _ _)
  | branch hi hb _ _ ihy ihn => exact .branch hi hb (ihy _ _) (ihn _ _)
  | loop hi hb _ ih => exact .mark (.loop hi hb (ih _ _))
  | brk hi hb => exact .mark (.brk hi hb)
  | var hi hb _ ih => exact .mark (.var hi hb (ih _ _))
  | mark _ ih => exact ih scopes here
  | stop => exact .stop
  | last _ ih => exact .last (ih _ _)
  | link _ hl hb _ ih ihs => exact .link (ih _ _) hl hb (ihs _ _)

namespace Tree

/-! ## Trees that no break leaves -/

section Contained

variable {t : Tree} {depth depth' : Nat}

theorem Contained.mono (h : t.Contained depth) (hle : depth ≤ depth') : t.Contained depth' := by
  induction t generalizing depth depth' with
  | defer id next cleanup ihn ihc => exact ⟨ihn h.1 (by omega), ihc h.2 (by omega)⟩
  | many body ih | loop body ih | var v body ih => exact ih (show body.Contained (depth + 1) from h) (by omega)
  | chain cur next ihc ihn => exact ⟨ihc h.1 hle, ihn h.2 hle⟩
  | crashPad body pad ihb ihp => exact ⟨ihb h.1 hle, ihp h.2 hle⟩
  | branch cond yes no ihy ihn => exact ⟨ihy h.1 hle, ihn h.2 hle⟩
  | brk level => exact Nat.le_trans h hle
  | mark m t ih => exact ih (show t.Contained depth from h) hle
  | _ => trivial

theorem contained_sequence {ts : List Tree} (h : ∀ u ∈ ts, u.Contained depth) :
    (sequence ts).Contained depth := by
  induction ts with
  | nil => trivial
  | cons u ts ih => exact ⟨h u (by simp), ih fun v hv => h v (by simp [hv])⟩

theorem contained_breakBlocks {es : List Tree} {level : Nat} (hlevel : level ≤ depth)
    (h : ∀ e ∈ es, e.Contained depth) : (breakBlocks es level).Contained depth := by
  unfold breakBlocks
  split
  · exact hlevel
  · refine contained_sequence fun u hu => ?_
    rcases List.mem_append.mp hu with hu | hu
    · exact (h u hu).mono (Nat.le_succ depth)
    · rw [List.mem_singleton.mp hu]
      exact Nat.succ_le_succ hlevel

/-- No break leaves the epilogues of the `depth` innermost blocks, copied below as many scopes. -/
def PathContained (depth : Nat) (path : List Frame) : Prop :=
  ∀ f ∈ path.take depth, ∀ e, f.inlined = some e → e.Contained depth

theorem PathContained.cons {path : List Frame} {f : Frame} (h : PathContained depth path)
    (hle : depth ≤ depth') (hle' : depth' ≤ depth + 1)
    (hf : ∀ e, f.inlined = some e → e.Contained depth') : PathContained depth' (f :: path) := by
  intro g hg e he
  cases depth' with
  | zero => cases hg
  | succ n =>
      rcases List.mem_cons.mp hg with rfl | hg
      · exact hf e he
      · exact (h g (List.take_subset_take_left path (by omega) hg) e he).mono hle

theorem PathContained.push {path : List Frame} {f : Frame} (h : PathContained depth path)
    (hle : depth ≤ depth') (hle' : depth' ≤ depth + 1) (hf : f.inlined = none) :
    PathContained depth' (f :: path) :=
  h.cons hle hle' fun e he => by cases hf.symm.trans he

/-- Lowering lets no break out of a tree: only epilogues of blocks inside it are copied into it. -/
theorem contained_lower {path : List Frame} (h : t.Contained depth)
    (hpath : PathContained depth path) : (t.lower path).Contained depth := by
  induction t generalizing depth path with
  | defer id next cleanup ihn ihc =>
      have hcleanup := ihc h.2 (hpath.push (f := .cleanup) (Nat.le_succ _) (Nat.le_refl _) rfl)
      have hnext := ihn h.1 (hpath.cons (f := .deferBody id _) (Nat.le_succ _) (Nat.le_refl _)
        fun e he => by
          cases he
          exact hcleanup)
      exact ⟨⟨hnext, hcleanup⟩, hcleanup, trivial⟩
  | many body ih | loop body ih | var v body ih =>
      exact ih (show body.Contained (depth + 1) from h)
        (hpath.push (Nat.le_succ _) (Nat.le_refl _) rfl)
  | chain cur next ihc ihn => exact ⟨ihc h.1 hpath, ihn h.2 hpath⟩
  | crashPad body pad ihb ihp =>
      have hpad := ihp h.2 (hpath.push (f := .handler) (Nat.le_refl _) (Nat.le_succ _) rfl)
      refine ⟨ihb h.1 (hpath.cons (Nat.le_refl _) (Nat.le_succ _) fun e he => ?_), hpad⟩
      cases he
      exact hpad
  | branch cond yes no ihy ihn =>
      exact ⟨ihy h.1 (hpath.push (Nat.le_refl _) (Nat.le_succ _) rfl),
        ihn h.2 (hpath.push (Nat.le_refl _) (Nat.le_succ _) rfl)⟩
  | brk level =>
      refine contained_breakBlocks h fun e he => ?_
      obtain ⟨f, hf, hfe⟩ := List.mem_filterMap.mp he
      have hlevel : level - 1 ≤ depth := Nat.le_trans (Nat.sub_le level 1) h
      exact hpath f (List.take_subset_take_left path hlevel hf) e hfe
  | mark m t ih => exact ih h hpath
  | _ => trivial

end Contained

/-! ## What a break designates -/

section Kept

variable {t : Tree} {path : List Frame} {scopes : List (List Nat)} {here : List Nat}
  {outer outer' : List (Option (List Nat))} {above target target' : Option (List Nat)}

/-- What no break leaves does not depend on the blocks around it. -/
theorem DestinationsKept.outside {l : List (Option (List Nat))}
    (h : t.DestinationsKept (l ++ outer) above target) (hcontained : t.Contained l.length) :
    t.DestinationsKept (l ++ outer') above target := by
  induction t generalizing l above target with
  | defer id next cleanup ihn ihc =>
      exact ⟨ihn (l := above :: l) h.1 hcontained.1,
        ihc (l := above :: l) h.2 hcontained.2⟩
  | many body ih | loop body ih | var v body ih => exact ih (l := above :: l) h hcontained
  | chain cur next ihc ihn => exact ⟨ihc h.1 hcontained.1, ihn h.2 hcontained.2⟩
  | crashPad body pad ihb ihp => exact ⟨ihb h.1 hcontained.1, ihp h.2 hcontained.2⟩
  | branch cond yes no ihy ihn => exact ⟨ihy h.1 hcontained.1, ihn h.2 hcontained.2⟩
  | brk level =>
      obtain ⟨hpos, p, hp, hscope⟩ := h
      have hlevel : level - 1 < l.length := by
        have : level ≤ l.length := hcontained
        omega
      rw [List.getElem?_append_left hlevel] at hscope
      exact ⟨hpos, p, hp, by rw [List.getElem?_append_left hlevel, hscope]⟩
  | mark m t ih =>
      cases m with
      | _ => exact ih h hcontained
  | _ => trivial

/-- The breaks of a placed tree carry their own targets. -/
theorem DestinationsKept.retarget
    (h : ((t.placed scopes here).lower path).DestinationsKept outer above target) :
    ((t.placed scopes here).lower path).DestinationsKept outer above target' := by
  induction t generalizing scopes here path outer above with
  | defer id next cleanup ihn ihc =>
      obtain ⟨⟨hnext, hcleanup⟩, hagain, -⟩ := h
      exact ⟨⟨ihn hnext, ihc hcleanup⟩, ihc hagain, trivial⟩
  | many body ih | loop body ih | var v body ih => exact ih h
  | chain cur next ihc ihn => exact ⟨ihc h.1, ihn h.2⟩
  | crashPad body pad ihb ihp => exact ⟨ihb h.1, ihp h.2⟩
  | branch cond yes no ihy ihn => exact ⟨ihy h.1, ihn h.2⟩
  | brk level => exact h
  | mark m t ih => exact ih h
  | _ => trivial

theorem kept_sequence {ts : List Tree} : (sequence ts).DestinationsKept outer none target ↔
    ∀ u ∈ ts, u.DestinationsKept outer none target := by
  induction ts with
  | nil => simp [sequence, DestinationsKept]
  | cons u ts ih => simp [sequence, DestinationsKept, ih]

/-- The break behind its epilogues is one level up, because of the block around them. -/
theorem kept_breakBlocks {es : List Tree} {level : Nat} :
    (breakBlocks es level).DestinationsKept outer none target ↔
      (brk level).DestinationsKept outer none target ∧
        ∀ e ∈ es, e.DestinationsKept (none :: outer) none target := by
  by_cases hes : es = []
  · simp [breakBlocks, hes]
  · have hbrk : (brk (level + 1)).DestinationsKept (none :: outer) none target ↔
        (brk level).DestinationsKept outer none target := by
      cases level with
      | zero => simp [DestinationsKept]
      | succ n => simp [DestinationsKept]
    have hmany : (breakBlocks es level).DestinationsKept outer none target ↔
        ∀ u ∈ es ++ [brk (level + 1)], u.DestinationsKept (none :: outer) none target := by
      rw [breakBlocks, if_neg hes]
      exact kept_sequence
    rw [hmany, List.forall_mem_append, List.forall_mem_singleton, hbrk]
    exact And.comm

/-- Where the scopes around a tree are others than those around the source, a kept break does not
leave the tree. -/
theorem contained_of_kept {l : List (List Nat)}
    (hapart : ∀ (m : Nat) (p : List Nat), outer[m]? = some (some p) → scopes[m]? ≠ some p)
    (h : ((t.placed (l ++ scopes) here).lower path).DestinationsKept (l.map some ++ outer)
      above target) : t.Contained l.length := by
  induction t generalizing l here path above target with
  | defer id next cleanup ihn ihc =>
      obtain ⟨⟨hnext, hcleanup⟩, -⟩ := h
      exact ⟨ihn (l := here :: l) hnext, ihc (l := here :: l) hcleanup⟩
  | many body ih | loop body ih | var v body ih => exact ih (l := here :: l) h
  | chain cur next ihc ihn => exact ⟨ihc h.1, ihn h.2⟩
  | crashPad body pad ihb ihp => exact ⟨ihb h.1, ihp h.2⟩
  | branch cond yes no ihy ihn => exact ⟨ihy h.1, ihn h.2⟩
  | brk level =>
      obtain ⟨⟨hpos, p, hp, hscope⟩, -⟩ := kept_breakBlocks.mp h
      by_contra hleaves
      have hlevel : l.length ≤ level - 1 := by
        have : ¬ level ≤ l.length := hleaves
        omega
      rw [List.getElem?_append_right (by simpa using hlevel), List.length_map] at hscope
      rw [List.getElem?_append_right hlevel] at hp
      exact hapart _ p hscope hp
  | mark m t ih => exact ih h
  | _ => trivial

end Kept

/-! ## Legal breaks -/

/-- Every break leaves at least one and at most `depth` scopes around the tree and those inside it,
and none leaves a cleanup. -/
def LegalWithin (depth : Nat) : Tree → Prop
  | defer _ next cleanup => next.LegalWithin (depth + 1) ∧ cleanup.LegalWithin 0
  | many body => body.LegalWithin (depth + 1)
  | chain cur next => cur.LegalWithin depth ∧ next.LegalWithin depth
  | crashPad body pad => body.LegalWithin depth ∧ pad.LegalWithin depth
  | branch _ yes no => yes.LegalWithin depth ∧ no.LegalWithin depth
  | loop body => body.LegalWithin (depth + 1)
  | brk level => 1 ≤ level ∧ level ≤ depth
  | var _ body => body.LegalWithin (depth + 1)
  | mark _ t => t.LegalWithin depth
  | _ => True

section Legal

variable {t : Tree} {path : List Frame} {depth : Nat}

theorem legalWithin_of_breaksIn
    (h : t.BreaksIn (fun path level => 1 ≤ level ∧ level ≤ Tree.scopes path) path) :
    t.LegalWithin (Tree.scopes path) := by
  induction t generalizing path with
  | defer id next cleanup ihn ihc =>
      refine ⟨?_, ihc h.2⟩
      simpa [Tree.scopes, Frame.counted, Nat.add_comm] using ihn h.1
  | many body ih | loop body ih | var v body ih =>
      simpa [LegalWithin, Tree.scopes, Frame.counted, Nat.add_comm] using ih h
  | chain cur next ihc ihn => exact ⟨ihc h.1, ihn h.2⟩
  | crashPad body pad ihb ihp =>
      exact ⟨by simpa [Tree.scopes, Frame.counted] using ihb h.1,
        by simpa [Tree.scopes, Frame.counted] using ihp h.2⟩
  | branch cond yes no ihy ihn =>
      exact ⟨by simpa [Tree.scopes, Frame.counted] using ihy h.1,
        by simpa [Tree.scopes, Frame.counted] using ihn h.2⟩
  | brk level => exact h
  | mark m t ih => exact ih h
  | _ => trivial

theorem LegalWithin.contained (h : t.LegalWithin depth) : t.Contained depth := by
  induction t generalizing depth with
  | defer id next cleanup ihn ihc => exact ⟨ihn h.1, (ihc h.2).mono (Nat.zero_le _)⟩
  | many body ih | loop body ih | var v body ih =>
      exact ih (show body.LegalWithin (depth + 1) from h)
  | chain cur next ihc ihn => exact ⟨ihc h.1, ihn h.2⟩
  | crashPad body pad ihb ihp => exact ⟨ihb h.1, ihp h.2⟩
  | branch cond yes no ihy ihn => exact ⟨ihy h.1, ihn h.2⟩
  | brk level => exact h.2
  | mark m t ih => exact ih h
  | _ => trivial

end Legal

end Tree

/-! ## The pass -/

/-- The epilogue keeps its destinations wherever it is copied to. -/
def KeptAnywhere (t : Tree) : Prop :=
  ∀ outer target, t.DestinationsKept outer none target

/-- The epilogue loses a destination wherever other scopes stand around it than `scopes`. -/
def LostElsewhere (scopes : List (List Nat)) (t : Tree) : Prop :=
  ∀ (outer : List (Option (List Nat))) (target : Option (List Nat)),
    (∀ (m : Nat) (p : List Nat), outer[m]? = some (some p) → scopes[m]? ≠ some p) →
      ¬ t.DestinationsKept outer none target

/-- What is known of an enclosing block when the blocks in its body are lowered. -/
inductive FrameKept (scopes : List (List Nat)) : Frame → Option Tree → Prop
  | plain {f : Frame} : f.inlined = none → FrameKept scopes f none
  | deferBody {id : Nat} {c : Tree} : KeptAnywhere c → FrameKept scopes (.deferBody id c) none
  | padBody {p pad : Tree} {around : List (List Nat)} : around <:+ scopes →
      (pad.Contained 0 → KeptAnywhere p) → (¬ pad.Contained 0 → LostElsewhere around p) →
      FrameKept scopes (.padBody p) (some pad)

section Pass

variable {scopes : List (List Nat)} {here : List Nat} {path : List Frame}
  {handlers : List (Option Tree)} {t : Tree} {depth : Nat} {above target : Option (List Nat)}

theorem FrameKept.push {f : Frame} {handler : Option Tree} (h : FrameKept scopes f handler) :
    FrameKept (here :: scopes) f handler := by
  cases h with
  | plain hf => exact .plain hf
  | deferBody hc => exact .deferBody hc
  | padBody hsuffix hkept hlost => exact .padBody (hsuffix.trans (List.suffix_cons _ _)) hkept hlost

/-- Behind the block around a break no scope stands where it stood around an outer block. -/
theorem apart_of_suffix {around : List (List Nat)} (hnodup : scopes.Nodup)
    (hsuffix : around <:+ scopes) (m : Nat) (p : List Nat)
    (hm : (none :: scopes.map some : List (Option (List Nat)))[m]? = some (some p)) :
    around[m]? ≠ some p := by
  obtain ⟨inner, rfl⟩ := hsuffix
  intro haround
  cases m with
  | zero => cases hm
  | succ m =>
      simp only [List.getElem?_cons_succ, List.getElem?_map, Option.map_eq_some_iff,
        Option.some.injEq, exists_eq_right] at hm
      have hagain : (inner ++ around)[inner.length + (m + 1)]? = some p := by
        rw [List.getElem?_append_right (Nat.le_add_right _ _), Nat.add_sub_cancel_left, haround]
      have hsame : m = inner.length + (m + 1) :=
        (List.getElem?_inj (List.getElem?_eq_some_iff.mp hm).1 hnodup).mp (hm.trans hagain.symm)
      omega

/-- The epilogues in front of a break. -/
theorem popped_kept_iff (hnodup : scopes.Nodup)
    (hframes : List.Forall₂ (FrameKept scopes) path handlers) :
    (∀ e ∈ path.filterMap Frame.inlined, e.DestinationsKept (none :: scopes.map some) none target) ↔
      ∀ pad, some pad ∈ handlers → pad.Contained 0 := by
  induction hframes with
  | nil => simp
  | @cons f handler path handlers hf _ ih =>
      cases hf with
      | plain hf => simpa [List.filterMap_cons, hf] using ih
      | @deferBody id c hc =>
          have hkept : (Tree.mark (.inlined id) c).DestinationsKept (none :: scopes.map some) none target :=
            hc _ _
          simpa [List.filterMap_cons, Frame.inlined, hkept] using ih
      | @padBody p pad around hsuffix hkept hlost =>
          have hpad : (Tree.mark .inlinedPad p).DestinationsKept (none :: scopes.map some) none target ↔
              pad.Contained 0 := by
            constructor
            · intro h
              by_contra hleaves
              exact hlost hleaves _ _ (apart_of_suffix hnodup hsuffix) h
            · exact fun h => hkept h _ _
          simpa [List.filterMap_cons, Frame.inlined, hpad] using fun _ => ih

/-- An epilogue that no break leaves keeps its destinations everywhere if it does in one place. -/
theorem keptAnywhere_lower {outer : List (Option (List Nat))} (hcontained : t.Contained 0)
    (h : ((t.placed scopes here).lower path).DestinationsKept outer none target) :
    KeptAnywhere ((t.placed scopes here).lower path) := by
  intro outer' target'
  have hlower : ((t.placed scopes here).lower path).Contained 0 :=
    Tree.contained_lower (Tree.contained_placed.mpr hcontained) fun f hf => by cases hf
  exact Tree.DestinationsKept.retarget (Tree.DestinationsKept.outside (l := []) h hlower)

theorem lostElsewhere_lower (hleaves : ¬ t.Contained 0) :
    LostElsewhere scopes ((t.placed scopes here).lower path) :=
  fun _ _ hapart h => hleaves (Tree.contained_of_kept (l := []) hapart h)

/-- The positions around a tree: all different, and above the tree. -/
structure ScopesAround (scopes : List (List Nat)) (here : List Nat) : Prop where
  nodup : scopes.Nodup
  above : ∀ p ∈ scopes, p.length < here.length

theorem ScopesAround.part (h : ScopesAround scopes here) (n : Nat) : ScopesAround scopes (n :: here) :=
  ⟨h.nodup, fun p hp => Nat.lt_succ_of_lt (h.above p hp)⟩

theorem ScopesAround.scope (h : ScopesAround scopes here) (n : Nat) :
    ScopesAround (here :: scopes) (n :: here) := by
  refine ⟨List.nodup_cons.mpr ⟨fun hmem => Nat.lt_irrefl _ (h.above here hmem), h.nodup⟩, ?_⟩
  intro p hp
  rcases List.mem_cons.mp hp with rfl | hp
  · exact Nat.lt_succ_self _
  · exact Nat.lt_succ_of_lt (h.above p hp)

/-- By induction on the tree; the frames of the path say what is known of the epilogues that are
copied into it. -/
theorem kept_lower_iff (hlegal : t.LegalWithin depth) (hdepth : depth ≤ scopes.length)
    (haround : ScopesAround scopes here) (hframes : List.Forall₂ (FrameKept scopes) path handlers) :
    ((t.placed scopes here).lower path).DestinationsKept (scopes.map some) above target ↔
      t.HandlersStay handlers := by
  induction t generalizing depth scopes here path handlers above target with
  | basic ops | stop | crash | hardCrash => exact Iff.rfl
  | mark m t ih => exact ih hlegal hdepth haround hframes
  | chain cur next ihc ihn =>
      exact and_congr (ihc hlegal.1 hdepth (haround.part 0) hframes)
        (ihn hlegal.2 hdepth (haround.part 1) hframes)
  | branch cond yes no ihy ihn =>
      exact and_congr (ihy hlegal.1 hdepth (haround.part 0) (.cons (.plain rfl) hframes))
        (ihn hlegal.2 hdepth (haround.part 1) (.cons (.plain rfl) hframes))
  | many body ih | loop body ih | var v body ih =>
      exact ih (show body.LegalWithin (depth + 1) from hlegal) (by simpa using hdepth)
        (haround.scope 0) (.cons (.plain rfl) (hframes.imp fun _ _ => FrameKept.push))
  | brk level =>
      have hlevel : level - 1 < scopes.length := by
        have hle := hlegal.2
        have hpos := hlegal.1
        omega
      have hself : (Tree.brk level).DestinationsKept (scopes.map some) none scopes[level - 1]? :=
        ⟨hlegal.1, _, List.getElem?_eq_getElem hlevel, by simp [hlevel]⟩
      refine Tree.kept_breakBlocks.trans ((and_iff_right hself).trans ?_)
      exact popped_kept_iff haround.nodup (List.forall₂_take (level - 1) hframes)
  | defer id next cleanup ihn ihc =>
      have hframes' : List.Forall₂ (FrameKept (here :: scopes)) path handlers :=
        hframes.imp fun _ _ => FrameKept.push
      let cleanup' := (cleanup.placed (here :: scopes) (1 :: here)).lower (.cleanup :: path)
      have hcleanup : cleanup'.DestinationsKept ((here :: scopes).map some) none target ↔
          cleanup.HandlersStay (none :: handlers) :=
        ihc hlegal.2 (Nat.zero_le _) (haround.scope 1) (.cons (.plain rfl) hframes')
      -- the body is lowered with the cleanup on the path
      have hnext (hkept : KeptAnywhere cleanup') :
          ((next.placed (here :: scopes) (0 :: here)).lower (.deferBody id cleanup' :: path)).DestinationsKept
              ((here :: scopes).map some) none target ↔ next.HandlersStay (none :: handlers) :=
        ihn hlegal.1 (by simpa using hdepth) (haround.scope 0) (.cons (.deferBody hkept) hframes')
      constructor
      · rintro ⟨⟨hn, hc⟩, -⟩
        exact ⟨(hnext (keptAnywhere_lower hlegal.2.contained hc)).mp hn, hcleanup.mp hc⟩
      · rintro ⟨hn, hc⟩
        have hc' := hcleanup.mpr hc
        exact ⟨⟨(hnext (keptAnywhere_lower hlegal.2.contained hc')).mpr hn, hc'⟩, hc', trivial⟩
  | crashPad body pad ihb ihp =>
      let pad' := (pad.placed scopes (1 :: here)).lower (.handler :: path)
      have hpad : pad'.DestinationsKept (scopes.map some) none target ↔
          pad.HandlersStay (none :: handlers) :=
        ihp hlegal.2 hdepth (haround.part 1) (.cons (.plain rfl) hframes)
      have hbody (hkept : pad'.DestinationsKept (scopes.map some) none target) :
          ((body.placed scopes (0 :: here)).lower (.padBody pad' :: path)).DestinationsKept
              (scopes.map some) none target ↔ body.HandlersStay (some pad :: handlers) :=
        ihb hlegal.1 hdepth (haround.part 0)
          (.cons (.padBody (List.suffix_refl scopes) (fun h => keptAnywhere_lower h hkept)
            lostElsewhere_lower) hframes)
      constructor
      · rintro ⟨hb, hp⟩
        exact ⟨(hbody hp).mp hb, hpad.mp hp⟩
      · rintro ⟨hb, hp⟩
        have hp' := hpad.mpr hp
        exact ⟨(hbody hp').mpr hb, hp'⟩

/-- `remove_defers` keeps the destinations of all breaks if and only if no break takes a handler
from the epilogue stack that another break leaves. -/
theorem removeDefers_destinations {blocks : List Block} (h : RepresentsTree blocks t)
    (hlegal : t.BreaksLegal) :
    ∃ out, (∀ fuel, t.size ≤ fuel → removeDefers fuel blocks = some out) ∧
      RepresentsTree out ((t.placed [] []).lower []) ∧
      (((t.placed [] []).lower []).DestinationsKept [] none none ↔ t.HandlersStay []) := by
  have hlevels : (t.placed [] []).LevelsWithin 0 := Tree.levelsWithin_placed.mpr hlegal.levelsWithin
  obtain ⟨out, hrun, hrep⟩ := removeDefers_represents (h.placed [] []) hlevels
  refine ⟨out, fun fuel hfuel => hrun fuel (Tree.size_placed.symm ▸ hfuel), hrep, ?_⟩
  have haround : ScopesAround [] [] := ⟨List.nodup_nil, fun p hp => by cases hp⟩
  exact kept_lower_iff (Tree.legalWithin_of_breaksIn hlegal) (by simp [Tree.scopes]) haround .nil

end Pass

/-! ## A break inside a copied cleanup -/

/-- `{ defer { loop { break 1 } } break 2 }` -/
def crossesDefer : List Block :=
  [.many (some 1) none, .defer 2 3, .brk 2, .loop 4, .brk 1]

def crossesDeferTree : Tree := .many (.chain (.defer 0 (.brk 2) (.loop (.brk 1))) .stop)

theorem crossesDefer_represents : RepresentsTree crossesDefer crossesDeferTree :=
  .many trivial rfl (.last (.defer trivial rfl (.brk trivial rfl)
    (.loop trivial rfl (.brk trivial rfl))))

theorem crossesDefer_legal : crossesDeferTree.BreaksLegal :=
  ⟨⟨⟨by decide, by decide⟩, ⟨by decide, by decide⟩⟩, trivial⟩

theorem removeDefers_destinations_crossesDefer :
    ∃ out, (∀ fuel, crossesDeferTree.size ≤ fuel → removeDefers fuel crossesDefer = some out) ∧
      RepresentsTree out ((crossesDeferTree.placed [] []).lower []) ∧
      ((crossesDeferTree.placed [] []).lower []).DestinationsKept [] none none := by
  obtain ⟨out, hrun, hrep, hiff⟩ :=
    removeDefers_destinations crossesDefer_represents crossesDefer_legal
  refine ⟨out, hrun, hrep, hiff.mpr ⟨⟨fun pad hpad => ?_, fun pad hpad => ?_⟩, trivial⟩⟩
  · simp at hpad
  · simp at hpad

/-! ## A handler that a break leaves -/

/-- `{ { pad { break 2 } { break 1 } } }`: the handler leaves the inner block. -/
def leavingHandler : List Block :=
  [.many (some 1) none, .many (some 2) none, .crashPad 3 4, .brk 2, .brk 1]

def leavingHandlerTree : Tree :=
  .many (.chain (.many (.chain (.crashPad (.brk 2) (.brk 1)) .stop)) .stop)

theorem leavingHandler_represents : RepresentsTree leavingHandler leavingHandlerTree :=
  .many trivial rfl (.last (.many trivial rfl (.last (.crashPad trivial rfl (.brk trivial rfl)
    (.brk trivial rfl)))))

theorem leavingHandler_legal : leavingHandlerTree.BreaksLegal :=
  ⟨⟨⟨⟨by decide, by decide⟩, ⟨by decide, by decide⟩⟩, trivial⟩, trivial⟩

/-- What the pass makes of it: cell 3 is the block around the copied handler and the break. -/
def leftHandler : List Block :=
  [.many (some 1) none, .many (some 2) none, .crashPad 3 4, .many (some 5) (some 7), .brk 1,
    .brk 1, .brk 3, .chain (some 6) none]

/-- The copy of the handler in cell 5 leaves cell 3 and no more. -/
theorem leavingHandler_loses_destination :
    RepresentsTree leavingHandler leavingHandlerTree ∧ leavingHandlerTree.BreaksLegal ∧
      removeDefers 9 leavingHandler = some leftHandler ∧
      RepresentsTree leftHandler ((leavingHandlerTree.placed [] []).lower []) ∧
      ¬ ((leavingHandlerTree.placed [] []).lower []).DestinationsKept [] none none := by
  have hrun : removeDefers 9 leavingHandler = some leftHandler := by decide
  have hlevels : (leavingHandlerTree.placed [] []).LevelsWithin 0 :=
    Tree.levelsWithin_placed.mpr leavingHandler_legal.levelsWithin
  obtain ⟨out, hrun', hrep⟩ := removeDefers_represents (leavingHandler_represents.placed [] []) hlevels
  cases hrun.symm.trans (hrun' 9 (by decide))
  refine ⟨leavingHandler_represents, leavingHandler_legal, hrun, hrep, ?_⟩
  -- the target is the inner block, but the break designates the block that has no mark
  rintro ⟨⟨⟨⟨⟨-, p, hp, hscope⟩, -⟩, -⟩, -⟩, -⟩
  cases hscope

end TreeVM
