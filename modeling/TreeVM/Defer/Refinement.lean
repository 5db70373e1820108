import Mathlib.Data.List.Forall2
import TreeVM.Defer.Lower

/-!
# `remove_defers` refines the lowering on trees

The array pass allocates cells before it fills them, patches `next` links of sequences it has
already linked, and lets several places share one lowered cleanup.  The invariant that carries
the induction:

* `A` is a set of *settled* cells: no later write touches them;
* every epilogue on the stack is represented inside `A` (`Epilogues`);
* a call writes its own `dst` and fresh cells, and nothing else (`Filled`).

The induction is on the represented tree, simultaneously for a block (`NodeSpec`), for a
sequence whose first child is still missing (`FirstSpec`) and for the rest of a sequence after
the cell whose `next` link is still open (`RestSpec`).
-/

namespace TreeVM

/-- The epilogue stack matches the path: an entry `0`, or a settled epilogue. -/
def Epilogues (A : Nat → Prop) (res : List Block) (epis : List Nat)
    (path : List Frame) : Prop :=
  List.Forall₂
    (fun d f =>
      match f.epilogue with
      | none => d = 0
      | some u => d ≠ 0 ∧ Represents A res (.node d) u)
    epis path

theorem Epilogues.transport {A A' : Nat → Prop} {res res' : List Block}
    {epis : List Nat} {path : List Frame} (h : Epilogues A res epis path)
    (hA : ∀ i, A i → A' i) (hres : ∀ i b, A i → res[i]? = some b → res'[i]? = some b) :
    Epilogues A' res' epis path := by
  refine List.Forall₂.imp ?_ h
  intro d f hd
  cases hf : f.epilogue with
  | none => simpa [hf] using hd
  | some u =>
      simp only [hf] at hd ⊢
      exact ⟨hd.1, hd.2.transport hA hres⟩

/-- What a call that fills the cell `dst` with the tree `t` does to the array. -/
structure Filled (A : Nat → Prop) (res res' : List Block) (dst : Nat) (t : Tree) :
    Prop where
  grows : res.length ≤ res'.length
  frame : ∀ i, i < res.length → i ≠ dst → res'[i]? = res[i]?
  rep : Represents (fun i => A i ∨ i = dst ∨ res.length ≤ i) res' (.node dst) t

/-! ## Open links -/

def Block.withNext (link : Option Nat) : Block → Block
  | .many cur _ => .many cur link
  | .chain cur _ => .chain cur link
  | b => b

/-- `h` is the cell of the sequence at `dst` whose `next` link the next child will set. -/
def Hooked (res : List Block) (dst : Nat) (prev : Option Nat) (h : Nat) : Prop :=
  (h = dst ∧ ∃ c, res[dst]? = some (.many (some c) none)) ∨
  (h ≠ dst ∧ prev = some h ∧ (∃ c, res[h]? = some (.chain (some c) none)) ∧
    ∃ c l, res[dst]? = some (.many (some c) (some l)))

/-- The rest of a sequence after a cell whose `next` link is `l`. -/
def RepresentsNext (S : Nat → Prop) (bs : List Block) (l : Option Nat) (t : Tree) :
    Prop :=
  match l with
  | none => t = .stop
  | some j => S j ∧ ∃ cur next, bs[j]? = some (.chain cur next) ∧ Represents S bs (.seq cur next) t

theorem RepresentsNext.seq {S : Nat → Prop} {bs : List Block} {l : Option Nat}
    {c : Nat} {t ts : Tree} (hc : Represents S bs (.node c) t)
    (h : RepresentsNext S bs l ts) : Represents S bs (.seq (some c) l) (.chain t ts) := by
  cases l with
  | none =>
      have hts : ts = .stop := h
      subst hts
      exact .last hc
  | some j =>
      obtain ⟨hj, cur, next, hb, hs⟩ := h
      exact .link hc hj hb hs

theorem getElem?_extend {res : List Block} {n i : Nat} (h : i < res.length) :
    (extend res n)[i]? = res[i]? := by
  simp [extend, List.getElem?_append_left h]

@[simp] theorem length_extend (res : List Block) (n : Nat) :
    (extend res n).length = res.length + n := by
  simp [extend]

/-- Linking a further child: a fresh chain cell holds it and the open link points there. -/
theorem linkChild_hooked {res : List Block} {dst h n : Nat} {prev : Option Nat}
    (hh : Hooked res dst prev h) :
    ∃ res', linkChild res dst n prev = some (res', some res.length) ∧
      res'.length = res.length + 1 ∧
      (∀ i, i < res.length → i ≠ h → res'[i]? = res[i]?) ∧
      res'[h]? = (res[h]?).map (Block.withNext (some res.length)) ∧
      res'[res.length]? = some (.chain (some n) none) := by
  rcases hh with ⟨rfl, c, hd⟩ | ⟨hne, rfl, ⟨c, hc⟩, c', l, hd⟩
  · have hlt : h < res.length := (List.getElem?_eq_some_iff.mp hd).1
    refine ⟨(res ++ [Block.chain (some n) none]).set h (.many (some c) (some res.length)),
      ?_, ?_, ?_, ?_, ?_⟩
    · simp [linkChild, hd, setNext, List.getElem?_append_left hlt]
    · simp
    · intro i hi hne
      simp [List.getElem?_set_ne (Ne.symm hne), List.getElem?_append_left hi]
    · rw [hd, List.getElem?_set_self (by simp; omega)]
      rfl
    · rw [List.getElem?_set_ne (Nat.ne_of_lt hlt)]
      simp
  · have hlt : h < res.length := (List.getElem?_eq_some_iff.mp hc).1
    have hdlt : dst < res.length := (List.getElem?_eq_some_iff.mp hd).1
    refine ⟨(res ++ [Block.chain (some n) none]).set h (.chain (some c) (some res.length)),
      ?_, ?_, ?_, ?_, ?_⟩
    · simp [linkChild, hd, hc, setNext, List.getElem?_append_left hlt]
    · simp
    · intro i hi hne
      simp [List.getElem?_set_ne (Ne.symm hne), List.getElem?_append_left hi]
    · rw [hc, List.getElem?_set_self (by simp; omega)]
      rfl
    · rw [List.getElem?_set_ne (Nat.ne_of_lt hlt)]
      simp

/-- After linking, the fresh chain cell is the one with the open link. -/
theorem Hooked.linked {res res' : List Block} {dst h slot : Nat} {prev : Option Nat}
    (hh : Hooked res dst prev h) (hdst : dst < res.length)
    (hframe : ∀ i, i < res.length → i ≠ h → res'[i]? = res[i]?)
    (hhook : res'[h]? = (res[h]?).map (Block.withNext (some res.length)))
    (hlink : res'[res.length]? = some (.chain (some slot) none)) :
    Hooked res' dst (some res.length) res.length := by
  refine .inr ⟨Nat.ne_of_gt hdst, rfl, ⟨slot, hlink⟩, ?_⟩
  rcases hh with ⟨rfl, c, hd⟩ | ⟨hne, rfl, -, c, l, hd⟩
  · exact ⟨c, res.length, by rw [hhook, hd]; rfl⟩
  · exact ⟨c, l, by rw [hframe dst hdst (Ne.symm hne), hd]⟩

/-- An open link stays open under writes elsewhere. -/
theorem Hooked.transport {res res' : List Block} {dst h : Nat} {prev : Option Nat}
    (hh : Hooked res dst prev h) (hres : ∀ i, i = dst ∨ i = h → res'[i]? = res[i]?) :
    Hooked res' dst prev h := by
  rcases hh with ⟨rfl, c, hd⟩ | ⟨hne, rfl, ⟨c, hc⟩, c', l, hd⟩
  · exact .inl ⟨rfl, c, by rw [hres h (.inl rfl), hd]⟩
  · exact .inr ⟨hne, rfl, ⟨c, by rw [hres h (.inr rfl), hc]⟩, c', l,
      by rw [hres dst (.inl rfl), hd]⟩

theorem Hooked.lt {res : List Block} {dst h : Nat} {prev : Option Nat}
    (hh : Hooked res dst prev h) : dst < res.length ∧ h < res.length := by
  rcases hh with ⟨rfl, c, hd⟩ | ⟨-, -, ⟨c, hc⟩, c', l, hd⟩
  · have := (List.getElem?_eq_some_iff.mp hd).1
    exact ⟨this, this⟩
  · exact ⟨(List.getElem?_eq_some_iff.mp hd).1, (List.getElem?_eq_some_iff.mp hc).1⟩

/-- The open link holds `BLOCK_INVALID`. -/
theorem Hooked.withNext_none {res : List Block} {dst h : Nat} {prev : Option Nat}
    (hh : Hooked res dst prev h) : res[h]? = (res[h]?).map (Block.withNext none) := by
  rcases hh with ⟨rfl, c, hd⟩ | ⟨-, -, ⟨c, hc⟩, -⟩
  · rw [hd]; rfl
  · rw [hc]; rfl

/-! ## The three specifications -/

/-- What filling the rest of a sequence after the open link at `h` does to the array. -/
structure SeqFilled (A : Nat → Prop) (res res' : List Block) (h : Nat) (l : Option Nat)
    (t : Tree) : Prop where
  grows : res.length ≤ res'.length
  frame : ∀ i, i < res.length → i ≠ h → res'[i]? = res[i]?
  hook : res'[h]? = (res[h]?).map (Block.withNext l)
  rep : RepresentsNext (fun i => A i ∨ res.length ≤ i) res' l t

section Specs

variable (blocks : List Block)

def NodeSpec (t : Tree) : Prop :=
  ∀ src path epis res dst A,
    Represents (fun _ => True) blocks (.node src) t → t.LevelsWithin path.length →
    Epilogues A res epis path → dst < res.length → ¬ A dst → (∀ i, A i → i < res.length) →
    ∃ res', (∀ fuel, t.size ≤ fuel → removeDefersAux blocks fuel src dst res epis = some res') ∧
      Filled A res res' dst (t.lower path)

/-- `copyChildren` with the recursive call the `BLOCK_MANY` case gives it. -/
def copyInto (fuel : Nat) (epis : List Nat) :=
  copyChildren blocks fun child slot res => removeDefersAux blocks fuel child slot res epis

def FirstSpec (t : Tree) : Prop :=
  ∀ cur next path epis res dst A,
    Represents (fun _ => True) blocks (.seq cur next) t → t.LevelsWithin path.length →
    Epilogues A res epis path → res[dst]? = some (.many none none) → ¬ A dst →
    (∀ i, A i → i < res.length) →
    ∃ res', (∀ fuel k, t.size ≤ fuel → t.size ≤ k →
        copyInto blocks fuel epis dst k cur next none res = some res') ∧
      Filled A res res' dst (.many (t.lower path))

def RestSpec (t : Tree) : Prop :=
  ∀ cur next path epis res dst prev h A,
    Represents (fun _ => True) blocks (.seq cur next) t → t.LevelsWithin path.length →
    Epilogues A res epis path → Hooked res dst prev h → ¬ A dst → ¬ A h →
    (∀ i, A i → i < res.length) →
    ∃ res' l, (∀ fuel k, t.size ≤ fuel → t.size ≤ k →
        copyInto blocks fuel epis dst k cur next prev res = some res') ∧
      SeqFilled A res res' h l (t.lower path)

end Specs

/-! ## Sequences -/

section Sequences

variable {blocks : List Block} {t ts : Tree}

/-- The loop body after the child has been linked: fill the slot, then follow the link. -/
def afterLink (blocks : List Block) (fuel k : Nat) (epis : List Nat) (dst c slot : Nat)
    (link prev : Option Nat) (res : List Block) : Option (List Block) := do
  let res ← removeDefersAux blocks fuel c slot res epis
  match link with
  | none => return res
  | some l =>
      match blocks[l]? with
      | some (.chain cur next) => copyInto blocks fuel epis dst k cur next prev res
      | _ => return res

theorem afterLink_spec (ht : NodeSpec blocks t) (hts : RestSpec blocks ts)
    {c n dst h : Nat} {link prev : Option Nat} {path : List Frame} {epis : List Nat}
    {res : List Block} {A : Nat → Prop}
    (hrep : Represents (fun _ => True) blocks (.seq (some c) link) (.chain t ts))
    (hlev : (Tree.chain t ts).LevelsWithin path.length) (hepi : Epilogues A res epis path)
    (hh : Hooked res dst prev h) (hslot : n < res.length) (hsd : n ≠ dst) (hsh : n ≠ h)
    (hAs : ¬ A n) (hAd : ¬ A dst) (hAh : ¬ A h) (hA : ∀ i, A i → i < res.length) :
    ∃ res' l, (∀ fuel k, t.size ≤ fuel → ts.size ≤ fuel → ts.size ≤ k →
        afterLink blocks fuel k epis dst c n link prev res = some res') ∧
      res.length ≤ res'.length ∧
      (∀ i, i < res.length → i ≠ n → i ≠ h → res'[i]? = res[i]?) ∧
      res'[h]? = (res[h]?).map (Block.withNext l) ∧
      Represents (fun i => A i ∨ i = n ∨ res.length ≤ i) res' (.seq (some n) l)
        (.chain (t.lower path) (ts.lower path)) := by
  have hc : Represents (fun _ => True) blocks (.node c) t := by
    cases hrep with
    | last h => exact h
    | link h _ _ _ => exact h
  obtain ⟨res₁, hrun, hfill⟩ := ht c path epis res n A hc hlev.1 hepi hslot hAs hA
  have hdh := hh.lt
  -- the child is settled inside the array it left behind
  have hrep₁ := hfill.rep.inside
  cases hrep with
  | last _ =>
      refine ⟨res₁, none, ?_, hfill.grows, fun i hi hs _ => hfill.frame i hi hs, ?_, ?_⟩
      · intro fuel k hf _ _
        simp [afterLink, hrun fuel hf]
      · rw [hfill.frame h hdh.2 (Ne.symm hsh)]
        exact hh.withNext_none
      · exact .last hfill.rep
  | @link _ l cur next _ _ _ _ hl hseq =>
      have hA₁ : ∀ i, A i → i < res₁.length := fun i hi => Nat.lt_of_lt_of_le (hA i hi) hfill.grows
      have hepi₁ : Epilogues A res₁ epis path := by
        refine hepi.transport (fun i hi => hi) fun i b hi hb => ?_
        rw [hfill.frame i (hA i hi) (by rintro rfl; exact hAs hi), hb]
      have hh₁ : Hooked res₁ dst prev h := by
        refine hh.transport fun i hi => ?_
        rcases hi with rfl | rfl
        · exact hfill.frame _ hdh.1 (Ne.symm hsd)
        · exact hfill.frame _ hdh.2 (Ne.symm hsh)
      obtain ⟨res₂, l', hrun₂, hseq₂⟩ :=
        hts cur next path epis res₁ dst prev h A hseq hlev.2 hepi₁ hh₁ hAd hAh hA₁
      refine ⟨res₂, l', ?_, Nat.le_trans hfill.grows hseq₂.grows, ?_, ?_, ?_⟩
      · intro fuel k hf hf' hk
        simp [afterLink, hrun fuel hf, hl, hrun₂ fuel k hf' hk]
      · intro i hi hs hih
        rw [hseq₂.frame i (Nat.lt_of_lt_of_le hi hfill.grows) hih, hfill.frame i hi hs]
      · rw [hseq₂.hook, hfill.frame h hdh.2 (Ne.symm hsh)]
      · refine RepresentsNext.seq ?_ ?_
        · -- the later links leave the child's cells alone
          refine hrep₁.transport (fun i hi => hi.1) fun i b hi hb => ?_
          rw [hseq₂.frame i hi.2, hb]
          rintro rfl
          rcases hi.1 with hi | hi | hi
          · exact hAh hi
          · exact hsh hi.symm
          · omega
        · cases l' with
          | none => exact hseq₂.rep
          | some j =>
              obtain ⟨hj, cur', next', hb, hs⟩ := hseq₂.rep
              have hsub : ∀ i, A i ∨ res₁.length ≤ i → A i ∨ i = n ∨ res.length ≤ i := by
                intro i hi
                have := hfill.grows
                rcases hi with hi | hi
                · exact .inl hi
                · exact .inr (.inr (by omega))
              exact ⟨hsub j hj, cur', next', hb, hs.transport hsub fun _ _ _ h => h⟩

theorem copyInto_some (fuel k : Nat) (epis : List Nat) (dst c : Nat) (link prev : Option Nat)
    (res : List Block) :
    copyInto blocks fuel epis dst (k + 1) (some c) link prev res =
      (linkChild (extend res 1) dst res.length prev).bind fun p =>
        afterLink blocks fuel k epis dst c res.length link p.2 p.1 := by
  simp only [copyInto, copyChildren]
  rfl

theorem restSpec_chain (ht : NodeSpec blocks t) (hts : RestSpec blocks ts) :
    RestSpec blocks (.chain t ts) := by
  intro cur next path epis res dst prev h A hrep hlev hepi hh hAd hAh hA
  obtain ⟨c, rfl⟩ : ∃ c, cur = some c := by
    cases hrep with
    | last _ => exact ⟨_, rfl⟩
    | link _ _ _ _ => exact ⟨_, rfl⟩
  have hdh := hh.lt
  have hext : ∀ i, i < res.length → (extend res 1)[i]? = res[i]? := fun i hi => getElem?_extend hi
  have hh₁ : Hooked (extend res 1) dst prev h := by
    refine hh.transport fun i hi => hext i ?_
    rcases hi with rfl | rfl
    · exact hdh.1
    · exact hdh.2
  obtain ⟨res₁, hlink, hlen, hframe, hhook, hcell⟩ := linkChild_hooked (n := res.length) hh₁
  have hdst₁ : dst < (extend res 1).length := by simp; omega
  have hh₂ := hh₁.linked hdst₁ hframe hhook hcell
  simp only [length_extend] at hlen hhook hcell hh₂ hframe
  have hA₁ : ∀ i, A i → i < res₁.length := fun i hi => by have := hA i hi; omega
  have hkeep : ∀ i, i < res.length → i ≠ h → res₁[i]? = res[i]? := by
    intro i hi hne
    rw [hframe i (by omega) hne, hext i hi]
  have hepi₁ : Epilogues A res₁ epis path := by
    refine hepi.transport (fun i hi => hi) fun i b hi hb => ?_
    rw [hkeep i (hA i hi) (by rintro rfl; exact hAh hi), hb]
  obtain ⟨res₂, l, hrun, hgrow, hframe₂, hhook₂, hrep₂⟩ :=
    afterLink_spec ht hts hrep hlev hepi₁ hh₂ (n := res.length) (by omega) (by omega) (by omega)
      (fun hi => by have := hA _ hi; omega) hAd (fun hi => by have := hA _ hi; omega) hA₁
  refine ⟨res₂, some (res.length + 1), ?_, by omega, ?_, ?_, ?_⟩
  · intro fuel k hf hk
    simp only [Tree.size] at hf hk
    obtain ⟨k, rfl⟩ : ∃ k', k = k' + 1 := ⟨k - 1, by omega⟩
    rw [copyInto_some, hlink, length_extend]
    exact hrun fuel k (by omega) (by omega) (by omega)
  · intro i hi hne
    rw [hframe₂ i (by omega) (by omega) (by omega), hkeep i hi hne]
  · rw [hframe₂ h (by omega) (by omega) (by omega), hhook, hext h hdh.2]
  · refine ⟨.inr (by omega), some res.length, l, ?_, ?_⟩
    · rw [hhook₂, hcell]
      rfl
    · refine hrep₂.transport (fun i hi => ?_) fun _ _ _ hb => hb
      rcases hi with hi | hi | hi
      · exact .inl hi
      · exact .inr (by omega)
      · exact .inr (by omega)

theorem restSpec_stop : RestSpec blocks .stop := by
  intro cur next path epis res dst prev h A hrep hlev hepi hh hAd hAh hA
  cases hrep with
  | stop =>
      refine ⟨res, none, ?_, Nat.le_refl _, fun _ _ _ => rfl, hh.withNext_none, rfl⟩
      intro fuel k _ _
      cases k <;> rfl

theorem firstSpec_chain (ht : NodeSpec blocks t) (hts : RestSpec blocks ts) :
    FirstSpec blocks (.chain t ts) := by
  intro cur next path epis res dst A hrep hlev hepi hd hAd hA
  obtain ⟨c, rfl⟩ : ∃ c, cur = some c := by
    cases hrep with
    | last _ => exact ⟨_, rfl⟩
    | link _ _ _ _ => exact ⟨_, rfl⟩
  have hdst : dst < res.length := (List.getElem?_eq_some_iff.mp hd).1
  -- the first child goes into the block itself, no chain cell is needed
  let res₁ := (extend res 1).set dst (.many (some res.length) none)
  have hkeep : ∀ i, i < res.length → i ≠ dst → res₁[i]? = res[i]? := by
    intro i hi hne
    simp only [res₁]
    rw [List.getElem?_set_ne (Ne.symm hne), getElem?_extend hi]
  have hself : res₁[dst]? = some (.many (some res.length) none) := by
    simp only [res₁]
    rw [List.getElem?_set_self (by simp; omega)]
  have hlen : res₁.length = res.length + 1 := by simp [res₁]
  have hlink : linkChild (extend res 1) dst res.length none = some (res₁, none) := by
    simp [linkChild, getElem?_extend hdst, hd, res₁]
  have hh : Hooked res₁ dst none dst := .inl ⟨rfl, _, hself⟩
  have hA₁ : ∀ i, A i → i < res₁.length := fun i hi => by have := hA i hi; omega
  have hepi₁ : Epilogues A res₁ epis path := by
    refine hepi.transport (fun i hi => hi) fun i b hi hb => ?_
    rw [hkeep i (hA i hi) (by rintro rfl; exact hAd hi), hb]
  obtain ⟨res₂, l, hrun, hgrow, hframe₂, hhook₂, hrep₂⟩ :=
    afterLink_spec ht hts hrep hlev hepi₁ hh (n := res.length) (by omega) (by omega) (by omega)
      (fun hi => by have := hA _ hi; omega) hAd hAd hA₁
  refine ⟨res₂, ?_, by omega, ?_, ?_⟩
  · intro fuel k hf hk
    simp only [Tree.size] at hf hk
    obtain ⟨k, rfl⟩ : ∃ k', k = k' + 1 := ⟨k - 1, by omega⟩
    rw [copyInto_some, hlink]
    exact hrun fuel k (by omega) (by omega) (by omega)
  · intro i hi hne
    rw [hframe₂ i (by omega) (by omega) hne, hkeep i hi hne]
  · refine .many (.inr (.inl rfl)) (c := some res.length) (l := l) ?_ ?_
    · rw [hhook₂, hself]
      rfl
    · refine hrep₂.transport (fun i hi => ?_) fun _ _ _ hb => hb
      rcases hi with hi | hi | hi
      · exact .inl hi
      · exact .inr (.inr (by omega))
      · exact .inr (.inr (by omega))

theorem firstSpec_stop : FirstSpec blocks .stop := by
  intro cur next path epis res dst A hrep hlev hepi hd hAd hA
  cases hrep with
  | stop =>
      refine ⟨res, ?_, Nat.le_refl _, fun _ _ _ => rfl, .many (.inr (.inl rfl)) hd .stop⟩
      intro fuel k _ _
      cases k <;> rfl

end Sequences

/-! ## Breaks -/

section Breaks

variable {A : Nat → Prop}

theorem Frame.inlined_eq_map (f : Frame) :
    (f.epilogue = none ∧ f.inlined = none) ∨
      ∃ u m, f.epilogue = some u ∧ f.inlined = some (.mark m u) := by
  cases f <;> simp [Frame.epilogue, Frame.inlined]

/-- The represented root of an epilogue is a cell of the array. -/
theorem Represents.root {S : Nat → Prop} {bs : List Block} {i : Nat} {t : Tree}
    (h : Represents S bs (.node i) t) : ∃ b, bs[i]? = some b ∧ S i := by
  generalize hp : Place.node i = q at h
  induction h with
  | mark _ ih => exact ih hp
  | stop => cases hp
  | last _ _ => cases hp
  | link _ _ _ _ _ _ => cases hp
  | basic hi hb => cases hp; exact ⟨_, hb, hi⟩
  | defer hi hb _ _ => cases hp; exact ⟨_, hb, hi⟩
  | many hi hb _ => cases hp; exact ⟨_, hb, hi⟩
  | crash hi hb => cases hp; exact ⟨_, hb, hi⟩
  | hardCrash hi hb => cases hp; exact ⟨_, hb, hi⟩
  | crashPad hi hb _ _ => cases hp; exact ⟨_, hb, hi⟩
  | branch hi hb _ _ => cases hp; exact ⟨_, hb, hi⟩
  | loop hi hb _ => cases hp; exact ⟨_, hb, hi⟩
  | brk hi hb => cases hp; exact ⟨_, hb, hi⟩
  | var hi hb _ => cases hp; exact ⟨_, hb, hi⟩

/-- Linking a slot that has just been written, in a sequence with an open link. -/
theorem linkChild_fresh {res : List Block} {dst h : Nat} {prev : Option Nat} (b : Block)
    (hh : Hooked res dst prev h) :
    ∃ res', linkChild ((extend res 1).set res.length b) dst res.length prev =
        some (res', some (res.length + 1)) ∧
      res'.length = res.length + 2 ∧
      (∀ i, i < res.length → i ≠ h → res'[i]? = res[i]?) ∧
      res'[h]? = (res[h]?).map (Block.withNext (some (res.length + 1))) ∧
      res'[res.length]? = some b ∧
      res'[res.length + 1]? = some (.chain (some res.length) none) ∧
      Hooked res' dst (some (res.length + 1)) (res.length + 1) := by
  have hdh := hh.lt
  have hset : ∀ i, i < res.length → ((extend res 1).set res.length b)[i]? = res[i]? := by
    intro i hi
    rw [List.getElem?_set_ne (by omega), getElem?_extend hi]
  have hh₁ : Hooked ((extend res 1).set res.length b) dst prev h := by
    refine hh.transport fun i hi => hset i ?_
    rcases hi with rfl | rfl
    · exact hdh.1
    · exact hdh.2
  obtain ⟨res₁, hlink, hlen, hframe, hhook, hcell⟩ := linkChild_hooked (n := res.length) hh₁
  have hh₂ := hh₁.linked (by simp; omega) hframe hhook hcell
  simp only [List.length_set, length_extend] at hlink hlen hframe hhook hcell hh₂
  refine ⟨res₁, hlink, hlen, ?_, ?_, ?_, hcell, hh₂⟩
  · intro i hi hne
    rw [hframe i (by omega) hne, hset i hi]
  · rw [hhook, hset h hdh.2]
  · rw [hframe _ (by omega) (by omega), List.getElem?_set_self (by simp)]

theorem finishBreak_hooked {res : List Block} {dst h n : Nat} {prev : Option Nat}
    (hh : Hooked res dst prev h) :
    ∃ res', finishBreak dst n res prev = some res' ∧
      SeqFilled A res res' h (some (res.length + 1)) (Tree.sequence [.brk (n + 1)]) := by
  obtain ⟨res', hlink, hlen, hframe, hhook, hslot, hcell, -⟩ :=
    linkChild_fresh (.brk (n + 1)) hh
  refine ⟨res', ?_, by omega, hframe, hhook, .inr (by omega), some res.length, none, hcell, ?_⟩
  · have hcur : ∀ next, res[dst]? ≠ some (.many none next) := by
      intro next hd
      rcases hh with ⟨rfl, c, hd'⟩ | ⟨-, -, -, c, l, hd'⟩ <;> simp [hd'] at hd
    -- the sequence has a first child, so the break is linked as a further one
    simp [finishBreak, hlink]
  · exact .last (.brk (.inr (by omega)) hslot)

theorem copyEpilogues_hooked (level : Nat) {n : Nat} {epis : List Nat} {path : List Frame}
    {res : List Block} {dst h : Nat} {prev : Option Nat} (hn : n ≤ path.length)
    (hepi : Epilogues A res epis path) (hh : Hooked res dst prev h) (hAh : ¬ A h)
    (hA : ∀ i, A i → i < res.length) :
    ∃ res' l,
      ((copyEpilogues dst n epis prev res).bind fun p => finishBreak dst level p.1 p.2) =
        some res' ∧
      SeqFilled A res res' h l
        (Tree.sequence ((path.take n).filterMap Frame.inlined ++ [.brk (level + 1)])) := by
  induction n generalizing epis path res prev h with
  | zero =>
      obtain ⟨res', hrun, hfill⟩ := finishBreak_hooked (A := A) (n := level) hh
      exact ⟨res', _, by simpa [copyEpilogues] using hrun, by simpa using hfill⟩
  | succ n ih =>
      cases hepi with
      | nil => simp at hn
      | @cons d f epis path hd hrest =>
          have hn' : n ≤ path.length := by simpa using hn
          rcases f.inlined_eq_map with ⟨hf, hi⟩ | ⟨u, m, hf, hi⟩
          · simp only [hf] at hd
            subst hd
            simpa [copyEpilogues, hi] using ih hn' hrest hh hAh hA
          · simp only [hf] at hd
            obtain ⟨hd0, hu⟩ := hd
            obtain ⟨b, hb, hAb⟩ := hu.root
            obtain ⟨res₁, hlink, hlen, hframe, hhook, hslot, hcell, hh₁⟩ := linkChild_fresh b hh
            have hkeep : ∀ i, A i → res₁[i]? = res[i]? := fun i hi =>
              hframe i (hA i hi) (by rintro rfl; exact hAh hi)
            have hdh := hh.lt
            have hrest₁ : Epilogues A res₁ epis path :=
              Epilogues.transport hrest (fun _ hi => hi) fun i b hi hb => by rw [hkeep i hi, hb]
            obtain ⟨res₂, l, hrun, hfill⟩ := ih hn' hrest₁ hh₁
              (fun hi => by have := hA _ hi; omega) (fun i hi => by have := hA i hi; omega)
            refine ⟨res₂, some (res.length + 1), ?_, ?_, ?_, ?_, ?_⟩
            · simpa [copyEpilogues, hd0, hb, hlink] using hrun
            · exact Nat.le_trans (by omega) hfill.grows
            · intro i hi hne
              rw [hfill.frame i (by omega) (by omega), hframe i hi hne]
            · rw [hfill.frame h (by omega) (by omega), hhook]
            · -- the copy of the root represents the shared cleanup
              have hkeep₂ : ∀ i, A i → res₂[i]? = res[i]? := fun i hi => by
                rw [hfill.frame i (by have := hA i hi; omega) (by have := hA i hi; omega),
                  hkeep i hi]
              have hu₂ : Represents (fun i => A i ∨ res.length ≤ i) res₂ (.node res.length) u := by
                refine (hu.transport (fun i hi => .inl hi) fun i b hi hb => ?_).copyRoot
                  (.inr (Nat.le_refl _)) ?_
                · rw [hkeep₂ i hi, hb]
                · rw [hfill.frame _ (by omega) (by omega), hslot, hkeep₂ d hAb, hb]
              refine ⟨.inr (by omega), some res.length, l, ?_, ?_⟩
              · rw [hfill.hook, hcell]
                rfl
              · simp only [List.take_succ_cons, List.filterMap_cons, hi, List.cons_append,
                  Tree.sequence]
                refine RepresentsNext.seq (.mark hu₂) ?_
                cases l with
                | none => exact hfill.rep
                | some j =>
                    obtain ⟨hj, cur, next, hc, hs⟩ := hfill.rep
                    have hsub : ∀ i, A i ∨ res₁.length ≤ i → A i ∨ res.length ≤ i := by
                      intro i hi
                      rcases hi with hi | hi
                      · exact .inl hi
                      · exact .inr (by omega)
                    exact ⟨hsub j hj, cur, next, hc, hs.transport hsub fun _ _ _ h => h⟩

theorem copyEpilogues_first (level : Nat) {n : Nat} {epis : List Nat} {path : List Frame}
    {res : List Block} {dst : Nat} (hn : n ≤ path.length) (hepi : Epilogues A res epis path)
    (hd : res[dst]? = some (.many none none)) (hAd : ¬ A dst) (hA : ∀ i, A i → i < res.length) :
    ∃ res',
      ((copyEpilogues dst n epis none res).bind fun p => finishBreak dst level p.1 p.2) =
        some res' ∧
      Filled A res res' dst (Tree.breakBlocks ((path.take n).filterMap Frame.inlined) level) := by
  have hdst : dst < res.length := (List.getElem?_eq_some_iff.mp hd).1
  induction n generalizing epis path with
  | zero =>
      -- no entry is left to cross: the break stands alone
      refine ⟨res.set dst (.brk level), ?_, by simp, ?_, ?_⟩
      · simp [copyEpilogues, finishBreak, hd]
      · intro i _ hne
        rw [List.getElem?_set_ne (Ne.symm hne)]
      · exact .brk (.inr (.inl rfl)) (List.getElem?_set_self hdst)
  | succ n ih =>
      cases hepi with
      | nil => simp at hn
      | @cons d f epis path hf' hrest =>
          have hn' : n ≤ path.length := by simpa using hn
          rcases f.inlined_eq_map with ⟨hf, hi⟩ | ⟨u, m, hf, hi⟩
          -- a block without a cleanup adds nothing to the way out
          · simp only [hf] at hf'
            subst hf'
            simpa [copyEpilogues, hi] using ih hn' hrest
          · simp only [hf] at hf'
            obtain ⟨hd0, hu⟩ := hf'
            obtain ⟨b, hb, hAb⟩ := hu.root
            -- the root of the cleanup is copied into a new cell; the rest is hooked behind it
            let res₁ := ((extend res 1).set res.length b).set dst (.many (some res.length) none)
            have hlen : res₁.length = res.length + 1 := by simp [res₁]
            have hkeep : ∀ i, i < res.length → i ≠ dst → res₁[i]? = res[i]? := by
              intro i hi hne
              simp only [res₁]
              rw [List.getElem?_set_ne (Ne.symm hne), List.getElem?_set_ne (by omega),
                getElem?_extend hi]
            have hself : res₁[dst]? = some (.many (some res.length) none) := by
              simp only [res₁]
              rw [List.getElem?_set_self (by simp; omega)]
            have hslot : res₁[res.length]? = some b := by
              simp only [res₁]
              rw [List.getElem?_set_ne (by omega), List.getElem?_set_self (by simp)]
            have hlink : linkChild ((extend res 1).set res.length b) dst res.length none =
                some (res₁, none) := by
              have hd₁ : ((extend res 1).set res.length b)[dst]? = some (.many none none) := by
                rw [List.getElem?_set_ne (by omega), getElem?_extend hdst, hd]
              simp [linkChild, hd₁, res₁]
            have hAkeep : ∀ i, A i → res₁[i]? = res[i]? := fun i hi =>
              hkeep i (hA i hi) (by rintro rfl; exact hAd hi)
            have hrest₁ : Epilogues A res₁ epis path :=
              Epilogues.transport hrest (fun _ hi => hi) fun i b hi hb => by rw [hAkeep i hi, hb]
            obtain ⟨res₂, l, hrun, hfill⟩ :=
              copyEpilogues_hooked (A := A) level hn' hrest₁ (.inl ⟨rfl, _, hself⟩) hAd
                (fun i hi => by have := hA i hi; omega)
            refine ⟨res₂, ?_, ?_, ?_, ?_⟩
            · simpa [copyEpilogues, hd0, hb, hlink] using hrun
            · exact Nat.le_trans (by omega) hfill.grows
            · intro i hi hne
              rw [hfill.frame i (by omega) hne, hkeep i hi hne]
            · have hAkeep₂ : ∀ i, A i → res₂[i]? = res[i]? := fun i hi => by
                rw [hfill.frame i (by have := hA i hi; omega) (by rintro rfl; exact hAd hi),
                  hAkeep i hi]
              have hu₂ : Represents (fun i => A i ∨ i = dst ∨ res.length ≤ i) res₂
                  (.node res.length) u := by
                refine (hu.transport (fun i hi => .inl hi) fun i b hi hb => ?_).copyRoot
                  (.inr (.inr (Nat.le_refl _))) ?_
                · rw [hAkeep₂ i hi, hb]
                · rw [hfill.frame _ (by omega) (by omega), hslot, hAkeep₂ d hAb, hb]
              have hblocks : Tree.breakBlocks
                  (((f :: path).take (n + 1)).filterMap Frame.inlined) level =
                  .many (.chain (.mark m u) (Tree.sequence
                    ((path.take n).filterMap Frame.inlined ++ [.brk (level + 1)]))) := by
                simp [Tree.breakBlocks, hi, Tree.sequence]
              rw [hblocks]
              refine .many (.inr (.inl rfl)) (c := some res.length) (l := l) ?_ ?_
              · rw [hfill.hook, hself]
                rfl
              · refine RepresentsNext.seq (.mark hu₂) ?_
                cases l with
                | none => exact hfill.rep
                | some j =>
                    obtain ⟨hj, cur, next, hc, hs⟩ := hfill.rep
                    have hsub : ∀ i, A i ∨ res₁.length ≤ i → A i ∨ i = dst ∨ res.length ≤ i := by
                      intro i hi
                      rcases hi with hi | hi
                      · exact .inl hi
                      · exact .inr (.inr (by omega))
                    exact ⟨hsub j hj, cur, next, hc, hs.transport hsub fun _ _ _ h => h⟩

end Breaks

/-! ## Blocks -/

section Blocks

variable {blocks : List Block}

theorem Epilogues.push_none {A : Nat → Prop} {res : List Block} {epis : List Nat}
    {path : List Frame} {f : Frame} (h : Epilogues A res epis path) (hf : f.epilogue = none) :
    Epilogues A res (0 :: epis) (f :: path) := by
  refine .cons ?_ h
  simp [hf]

theorem Epilogues.push_some {A : Nat → Prop} {res : List Block} {epis : List Nat}
    {path : List Frame} {f : Frame} {d : Nat} {u : Tree} (h : Epilogues A res epis path)
    (hf : f.epilogue = some u) (hd : d ≠ 0) (hu : Represents A res (.node d) u) :
    Epilogues A res (d :: epis) (f :: path) := by
  refine .cons ?_ h
  simpa [hf] using ⟨hd, hu⟩

/-- Cells a block allocates before it recurses: the settled ones are kept. -/
theorem Epilogues.alloc {A : Nat → Prop} {res res' : List Block} {epis : List Nat}
    {path : List Frame} {dst : Nat} (h : Epilogues A res epis path) (hAd : ¬ A dst)
    (hA : ∀ i, A i → i < res.length)
    (hres : ∀ i, i < res.length → i ≠ dst → res'[i]? = res[i]?) : Epilogues A res' epis path := by
  refine h.transport (fun _ hi => hi) fun i b hi hb => ?_
  rw [hres i (hA i hi) (by rintro rfl; exact hAd hi), hb]

theorem filled_leaf {A : Nat → Prop} {res : List Block} {dst : Nat} {b : Block} {t : Tree}
    (ht : Represents (fun i => A i ∨ i = dst ∨ res.length ≤ i) (res.set dst b) (.node dst) t) :
    Filled A res (res.set dst b) dst t := by
  refine ⟨by simp, fun i _ hne => ?_, ht⟩
  rw [List.getElem?_set_ne (Ne.symm hne)]

/-- A block with one child: allocate its slot, point to it, fill it. -/
theorem nodeSpec_one {body t : Tree} {f : Frame} (hbody : NodeSpec blocks body)
    (hf : f.epilogue = none) {b : Nat → Block} {g : Tree → Tree}
    {path : List Frame} {epis : List Nat} {res : List Block} {src dst c : Nat} {A : Nat → Prop}
    (hsize : t.size = body.size + 1) (hlower : t.lower path = g (body.lower (f :: path)))
    (hrep : Represents (fun _ => True) blocks (.node c) body)
    (hlev : body.LevelsWithin (path.length + 1)) (hepi : Epilogues A res epis path)
    (hdst : dst < res.length) (hAd : ¬ A dst) (hA : ∀ i, A i → i < res.length)
    (hbuild : ∀ S bs i j u, S i → bs[i]? = some (b j) → Represents S bs (.node j) u →
      Represents S bs (.node i) (g u))
    (hstep : ∀ fuel, removeDefersAux blocks (fuel + 1) src dst res epis =
      removeDefersAux blocks fuel c res.length ((extend res 1).set dst (b res.length))
        (0 :: epis)) :
    ∃ res', (∀ fuel, t.size ≤ fuel → removeDefersAux blocks fuel src dst res epis = some res') ∧
      Filled A res res' dst (t.lower path) := by
  let res₁ := (extend res 1).set dst (b res.length)
  have hlen : res₁.length = res.length + 1 := by simp [res₁]
  have hkeep : ∀ i, i < res.length → i ≠ dst → res₁[i]? = res[i]? := by
    intro i hi hne
    simp only [res₁]
    rw [List.getElem?_set_ne (Ne.symm hne), getElem?_extend hi]
  have hself : res₁[dst]? = some (b res.length) := by
    simp only [res₁]
    rw [List.getElem?_set_self (by simp; omega)]
  obtain ⟨res₂, hrun, hfill⟩ := hbody c (f :: path) (0 :: epis) res₁ res.length A hrep
    (by simpa using hlev) ((hepi.alloc hAd hA hkeep).push_none hf) (by omega)
    (fun hi => by have := hA _ hi; omega) (fun i hi => by have := hA i hi; omega)
  have hgrow := hfill.grows
  refine ⟨res₂, ?_, by omega, ?_, ?_⟩
  · intro fuel hfuel
    obtain ⟨fuel, rfl⟩ : ∃ n, fuel = n + 1 := ⟨fuel - 1, by omega⟩
    rw [hstep]
    exact hrun fuel (by omega)
  · intro i hi hne
    rw [hfill.frame i (by omega) (by omega), hkeep i hi hne]
  · rw [hlower]
    refine hbuild _ _ _ res.length _ (.inr (.inl rfl)) ?_ ?_
    · rw [hfill.frame dst (by omega) (by omega), hself]
    · refine hfill.rep.transport (fun i hi => ?_) fun _ _ _ h => h
      rcases hi with hi | hi | hi
      · exact .inl hi
      · exact .inr (.inr (by omega))
      · exact .inr (.inr (by omega))

/-- A block with two children: `second` is filled after `first`, and may find `first`, which
is then settled, on the epilogue stack. -/
theorem nodeSpec_two {first second : Tree} (d₁ d₂ : Nat) (h₁ : NodeSpec blocks first)
    (h₂ : NodeSpec blocks second) {f g : Frame} {path : List Frame} {epis : List Nat}
    {res res₁ : List Block} {dst c₁ c₂ e : Nat} {A : Nat → Prop}
    (hf : f.epilogue = none)
    (hg : (g.epilogue = none ∧ e = 0) ∨ (g.epilogue = some (first.lower (f :: path)) ∧ e = d₁))
    (hrep₁ : Represents (fun _ => True) blocks (.node c₁) first)
    (hrep₂ : Represents (fun _ => True) blocks (.node c₂) second)
    (hlev₁ : first.LevelsWithin (path.length + 1)) (hlev₂ : second.LevelsWithin (path.length + 1))
    (hepi : Epilogues A res epis path) (hAd : ¬ A dst)
    (hA : ∀ i, A i → i < res.length)
    (hkeep : ∀ i, i < res.length → i ≠ dst → res₁[i]? = res[i]?)
    (hd₁ : res.length ≤ d₁ ∧ d₁ < res₁.length) (hd₂ : res.length ≤ d₂ ∧ d₂ < res₁.length)
    (hne : d₁ ≠ d₂) (hd0 : d₁ ≠ 0) :
    ∃ res₂ res₃,
      (∀ fuel, first.size ≤ fuel →
        removeDefersAux blocks fuel c₁ d₁ res₁ (0 :: epis) = some res₂) ∧
      (∀ fuel, second.size ≤ fuel →
        removeDefersAux blocks fuel c₂ d₂ res₂ (e :: epis) = some res₃) ∧
      res₁.length ≤ res₃.length ∧
      (∀ i, i < res₁.length → i ≠ d₁ → i ≠ d₂ → res₃[i]? = res₁[i]?) ∧
      Represents (fun i => A i ∨ i = dst ∨ res.length ≤ i) res₃ (.node d₁) (first.lower (f :: path)) ∧
      Represents (fun i => A i ∨ i = dst ∨ res.length ≤ i) res₃ (.node d₂)
        (second.lower (g :: path)) := by
  have hepi₁ := hepi.alloc hAd hA hkeep
  obtain ⟨res₂, hrun₁, hfill₁⟩ := h₁ c₁ (f :: path) (0 :: epis) res₁ d₁ A hrep₁
    (by simpa using hlev₁) (hepi₁.push_none hf) hd₁.2
    (fun hi => by have := hA _ hi; omega) (fun i hi => by have := hA i hi; omega)
  -- from here on the first child is settled
  let A₁ : Nat → Prop := fun i => (A i ∨ i = d₁ ∨ res₁.length ≤ i) ∧ i < res₂.length
  have hset₁ : Represents A₁ res₂ (.node d₁) (first.lower (f :: path)) := hfill₁.rep.inside
  have hAA₁ : ∀ i, A i → A₁ i := fun i hi => by
    have := hA i hi
    have := hfill₁.grows
    exact ⟨.inl hi, by omega⟩
  have hepi₂ : Epilogues A₁ res₂ epis path := by
    refine hepi₁.transport hAA₁ fun i b hi hb => ?_
    rw [hfill₁.frame i (by have := hA i hi; omega) (by have := hA i hi; omega), hb]
  have hpush : Epilogues A₁ res₂ (e :: epis) (g :: path) := by
    rcases hg with ⟨hg, rfl⟩ | ⟨hg, rfl⟩
    · exact hepi₂.push_none hg
    · exact hepi₂.push_some hg hd0 hset₁
  have hgrow₁ := hfill₁.grows
  have hAd₂ : ¬ A₁ d₂ := by
    rintro ⟨hi | hi | hi, -⟩
    · have := hA _ hi
      omega
    · exact hne hi.symm
    · omega
  obtain ⟨res₃, hrun₂, hfill₂⟩ := h₂ c₂ (g :: path) (e :: epis) res₂ d₂ A₁ hrep₂
    (by simpa using hlev₂) hpush (by omega) hAd₂ (fun i hi => hi.2)
  have hgrow₂ := hfill₂.grows
  refine ⟨res₂, res₃, hrun₁, hrun₂, by omega, ?_, ?_, ?_⟩
  · intro i hi h1 h2
    rw [hfill₂.frame i (by omega) h2, hfill₁.frame i hi h1]
  · refine hset₁.transport (fun i hi => ?_) fun i b hi hb => ?_
    · rcases hi.1 with hi | hi | hi
      · exact .inl hi
      · exact .inr (.inr (by omega))
      · exact .inr (.inr (by omega))
    · rw [hfill₂.frame i hi.2 (by rintro rfl; exact hAd₂ hi), hb]
  · refine hfill₂.rep.transport (fun i hi => ?_) fun _ _ _ h => h
    rcases hi with ⟨hi | hi | hi, -⟩ | hi | hi
    · exact .inl hi
    · exact .inr (.inr (by omega))
    · exact .inr (.inr (by omega))
    · exact .inr (.inr (by omega))
    · exact .inr (.inr (by omega))

theorem nodeSpec_branch {cond : OpRange} {yes no : Tree} (hy : NodeSpec blocks yes)
    (hn : NodeSpec blocks no) : NodeSpec blocks (.branch cond yes no) := by
  intro src path epis res dst A hrep hlev hepi hdst hAd hA
  cases hrep with
  | @branch _ _ y n _ _ _ hb hry hrn =>
      let res₁ := (extend res 2).set dst (.branch cond res.length (res.length + 1))
      have hlen : res₁.length = res.length + 2 := by simp [res₁]
      have hkeep : ∀ i, i < res.length → i ≠ dst → res₁[i]? = res[i]? := by
        intro i hi hne
        simp only [res₁]
        rw [List.getElem?_set_ne (Ne.symm hne), getElem?_extend hi]
      obtain ⟨res₂, res₃, hrun₁, hrun₂, hgrow, hframe, hrep₁, hrep₂⟩ :=
        nodeSpec_two (e := 0) (f := .arm) (g := .arm) res.length (res.length + 1)
          hy hn rfl (.inl ⟨rfl, rfl⟩) hry hrn hlev.1 hlev.2 hepi hAd hA hkeep
          (by omega) (by omega) (by omega) (by omega)
      refine ⟨res₃, ?_, by omega, ?_, ?_⟩
      · intro fuel hfuel
        simp only [Tree.size] at hfuel
        obtain ⟨fuel, rfl⟩ : ∃ k, fuel = k + 1 := ⟨fuel - 1, by omega⟩
        have hset : (extend (res.set dst (.branch cond y n)) 2).set dst
            (.branch cond res.length (res.length + 1)) = res₁ := by
          simp [res₁, extend, hdst]
        simp [removeDefersAux, hb, hset, hrun₁ fuel (by omega), hrun₂ fuel (by omega)]
      · intro i hi hne
        rw [hframe i (by omega) (by omega) (by omega), hkeep i hi hne]
      · refine .branch (.inr (.inl rfl)) ?_ hrep₁ hrep₂
        rw [hframe dst (by omega) (by omega) (by omega)]
        simp only [res₁]
        rw [List.getElem?_set_self (by simp; omega)]

theorem nodeSpec_crashPad {body pad : Tree} (hbody : NodeSpec blocks body)
    (hpad : NodeSpec blocks pad) : NodeSpec blocks (.crashPad body pad) := by
  intro src path epis res dst A hrep hlev hepi hdst hAd hA
  cases hrep with
  | @crashPad _ b p _ _ _ hb hrb hrp =>
      let res₁ := (extend res 2).set dst (.crashPad res.length (res.length + 1))
      have hlen : res₁.length = res.length + 2 := by simp [res₁]
      have hkeep : ∀ i, i < res.length → i ≠ dst → res₁[i]? = res[i]? := by
        intro i hi hne
        simp only [res₁]
        rw [List.getElem?_set_ne (Ne.symm hne), getElem?_extend hi]
      obtain ⟨res₂, res₃, hrun₁, hrun₂, hgrow, hframe, hrep₁, hrep₂⟩ :=
        nodeSpec_two (f := .handler) (g := .padBody (pad.lower (.handler :: path)))
          (res.length + 1) res.length hpad hbody rfl (.inr ⟨rfl, rfl⟩) hrp hrb
          hlev.2 hlev.1 hepi hAd hA hkeep (by omega) (by omega) (by omega) (by omega)
      refine ⟨res₃, ?_, by omega, ?_, ?_⟩
      · intro fuel hfuel
        simp only [Tree.size] at hfuel
        obtain ⟨fuel, rfl⟩ : ∃ k, fuel = k + 1 := ⟨fuel - 1, by omega⟩
        have hset : (extend (res.set dst (.crashPad b p)) 2).set dst
            (.crashPad res.length (res.length + 1)) = res₁ := by
          simp [res₁, extend, hdst]
        simp [removeDefersAux, hb, hset, hrun₁ fuel (by omega), hrun₂ fuel (by omega)]
      · intro i hi hne
        rw [hframe i (by omega) (by omega) (by omega), hkeep i hi hne]
      · refine .crashPad (.inr (.inl rfl)) ?_ hrep₂ hrep₁
        rw [hframe dst (by omega) (by omega) (by omega)]
        simp only [res₁]
        rw [List.getElem?_set_self (by simp; omega)]

theorem nodeSpec_defer {id : Nat} {next cleanup : Tree} (hnext : NodeSpec blocks next)
    (hcleanup : NodeSpec blocks cleanup) : NodeSpec blocks (.defer id next cleanup) := by
  intro src path epis res dst A hrep hlev hepi hdst hAd hA
  cases hrep with
  | @defer _ a c _ _ _ _ hb hrn hrc =>
      let n := res.length
      let res₁ := ((extend res 4).set dst (.many (some n) (some (n + 1)))).set (n + 1)
        (.chain (some (n + 2)) none) |>.set n (.crashPad (n + 3) (n + 2))
      have hlen : res₁.length = n + 4 := by simp [res₁, n]
      have hkeep : ∀ i, i < res.length → i ≠ dst → res₁[i]? = res[i]? := by
        intro i hi hne
        simp only [res₁]
        rw [List.getElem?_set_ne (by omega), List.getElem?_set_ne (by omega),
          List.getElem?_set_ne (Ne.symm hne), getElem?_extend hi]
      obtain ⟨res₂, res₃, hrun₁, hrun₂, hgrow, hframe, hrep₁, hrep₂⟩ :=
        nodeSpec_two (f := .cleanup) (g := .deferBody id (cleanup.lower (.cleanup :: path)))
          (n + 2) (n + 3) hcleanup hnext rfl (.inr ⟨rfl, rfl⟩) hrc hrn
          hlev.2 hlev.1 hepi hAd hA hkeep (by omega) (by omega) (by omega) (by omega)
      have hd : res₃[dst]? = some (.many (some n) (some (n + 1))) := by
        rw [hframe dst (by omega) (by omega) (by omega)]
        simp only [res₁]
        rw [List.getElem?_set_ne (by omega), List.getElem?_set_ne (by omega),
          List.getElem?_set_self (by simp; omega)]
      have hp : res₃[n]? = some (.crashPad (n + 3) (n + 2)) := by
        rw [hframe n (by omega) (by omega) (by omega)]
        simp only [res₁]
        rw [List.getElem?_set_self (by simp; omega)]
      have hc : res₃[n + 1]? = some (.chain (some (n + 2)) none) := by
        rw [hframe (n + 1) (by omega) (by omega) (by omega)]
        simp only [res₁]
        rw [List.getElem?_set_ne (by omega), List.getElem?_set_self (by simp; omega)]
      refine ⟨res₃, ?_, by omega, ?_, ?_⟩
      · intro fuel hfuel
        simp only [Tree.size] at hfuel
        obtain ⟨fuel, rfl⟩ : ∃ k, fuel = k + 1 := ⟨fuel - 1, by omega⟩
        have hset : (((extend (res.set dst (.defer a c)) 4).set dst
            (.many (some n) (some (n + 1)))).set (n + 1) (.chain (some (n + 2)) none)).set n
            (.crashPad (n + 3) (n + 2)) = res₁ := by
          simp [res₁, extend, hdst]
        simp only [removeDefersAux, hb]
        simpa [hset, n, hrun₁ fuel (by omega)] using hrun₂ fuel (by omega)
      · intro i hi hne
        rw [hframe i (by omega) (by omega) (by omega), hkeep i hi hne]
      · refine .many (.inr (.inl rfl)) hd ?_
        refine .link (.crashPad (.inr (.inr (Nat.le_refl _))) hp (.mark hrep₂) (.mark hrep₁))
          (.inr (.inr (by omega))) hc ?_
        exact .last (.mark hrep₁)

theorem nodeSpec_many {body : Tree} (hbody : FirstSpec blocks body) :
    NodeSpec blocks (.many body) := by
  intro src path epis res dst A hrep hlev hepi hdst hAd hA
  cases hrep with
  | @many _ cur next _ _ hb hs =>
      let res₁ := res.set dst (.many none none)
      have hkeep : ∀ i, i < res.length → i ≠ dst → res₁[i]? = res[i]? := by
        intro i _ hne
        simp only [res₁]
        rw [List.getElem?_set_ne (Ne.symm hne)]
      have hlen : res₁.length = res.length := by simp [res₁]
      obtain ⟨res₂, hrun, hfill⟩ := hbody cur next (.scope :: path) (0 :: epis) res₁ dst A hs
        (by simpa [Tree.LevelsWithin] using hlev) ((hepi.alloc hAd hA hkeep).push_none rfl)
        (List.getElem?_set_self hdst) hAd (fun i hi => by have := hA i hi; omega)
      refine ⟨res₂, ?_, by have := hfill.grows; omega, ?_, ?_⟩
      · intro fuel hfuel
        simp only [Tree.size] at hfuel
        obtain ⟨fuel, rfl⟩ : ∃ k, fuel = k + 1 := ⟨fuel - 1, by omega⟩
        simpa [removeDefersAux, hb, copyInto, res₁] using hrun fuel fuel (by omega) (by omega)
      · intro i hi hne
        rw [hfill.frame i (by omega) hne, hkeep i hi hne]
      · simpa [Tree.lower, hlen] using hfill.rep

theorem nodeSpec_brk {level : Nat} : NodeSpec blocks (.brk level) := by
  intro src path epis res dst A hrep hlev hepi hdst hAd hA
  cases hrep with
  | brk _ hb =>
      let res₁ := res.set dst (.many none none)
      have hkeep : ∀ i, i < res.length → i ≠ dst → res₁[i]? = res[i]? := by
        intro i _ hne
        simp only [res₁]
        rw [List.getElem?_set_ne (Ne.symm hne)]
      have hlen : res₁.length = res.length := by simp [res₁]
      have hlev' : level - 1 ≤ path.length := by
        simp only [Tree.LevelsWithin] at hlev
        omega
      obtain ⟨res₂, hrun, hfill⟩ := copyEpilogues_first (A := A) level hlev'
        (hepi.alloc hAd hA hkeep) (List.getElem?_set_self hdst) hAd
        (fun i hi => by have := hA i hi; omega)
      refine ⟨res₂, ?_, by have := hfill.grows; omega, ?_, ?_⟩
      · intro fuel hfuel
        obtain ⟨fuel, rfl⟩ : ∃ k, fuel = k + 1 := ⟨fuel - 1, by simp only [Tree.size] at hfuel; omega⟩
        -- the entry the break has pushed for itself is popped first, and is `0`
        have hown : copyEpilogues dst level (0 :: epis) none res₁ =
            copyEpilogues dst (level - 1) epis none res₁ := by
          cases level with
          | zero => simp [copyEpilogues]
          | succ k => simp [copyEpilogues]
        simpa [removeDefersAux, hb, expandBreak, hown, res₁] using hrun
      · intro i hi hne
        rw [hfill.frame i (by omega) hne, hkeep i hi hne]
      · simpa [Tree.lower, popped, hlen] using hfill.rep

/-- The pass fills every slot with the lowered tree. -/
theorem removeDefersAux_spec (t : Tree) :
    NodeSpec blocks t ∧ FirstSpec blocks t ∧ RestSpec blocks t := by
  -- only CHAIN and the end of a sequence stand in a sequence
  have hfirst : ∀ t : Tree, (∀ cur next, ¬ Represents (fun _ => True) blocks (.seq cur next) t) →
      FirstSpec blocks t ∧ RestSpec blocks t := fun t h =>
    ⟨fun cur next _ _ _ _ _ hrep => absurd hrep (h cur next),
      fun cur next _ _ _ _ _ _ _ hrep => absurd hrep (h cur next)⟩
  induction t with
  | basic ops =>
      refine ⟨?_, hfirst _ fun _ _ h => by cases h⟩
      intro src path epis res dst A hrep hlev hepi hdst hAd hA
      cases hrep with
      | basic _ hb =>
          refine ⟨res.set dst (.basic ops), ?_, filled_leaf
            (.basic (.inr (.inl rfl)) (List.getElem?_set_self hdst))⟩
          intro fuel hfuel
          obtain ⟨fuel, rfl⟩ : ∃ k, fuel = k + 1 := ⟨fuel - 1, by simp only [Tree.size] at hfuel; omega⟩
          simp [removeDefersAux, hb]
  | crash =>
      refine ⟨?_, hfirst _ fun _ _ h => by cases h⟩
      intro src path epis res dst A hrep hlev hepi hdst hAd hA
      cases hrep with
      | crash _ hb =>
          refine ⟨res.set dst .crash, ?_, filled_leaf
            (.crash (.inr (.inl rfl)) (List.getElem?_set_self hdst))⟩
          intro fuel hfuel
          obtain ⟨fuel, rfl⟩ : ∃ k, fuel = k + 1 := ⟨fuel - 1, by simp only [Tree.size] at hfuel; omega⟩
          simp [removeDefersAux, hb]
  | hardCrash =>
      refine ⟨?_, hfirst _ fun _ _ h => by cases h⟩
      intro src path epis res dst A hrep hlev hepi hdst hAd hA
      cases hrep with
      | hardCrash _ hb =>
          refine ⟨res.set dst .hardCrash, ?_, filled_leaf
            (.hardCrash (.inr (.inl rfl)) (List.getElem?_set_self hdst))⟩
          intro fuel hfuel
          obtain ⟨fuel, rfl⟩ : ∃ k, fuel = k + 1 := ⟨fuel - 1, by simp only [Tree.size] at hfuel; omega⟩
          simp [removeDefersAux, hb]
  | defer id next cleanup ihn ihc =>
      exact ⟨nodeSpec_defer ihn.1 ihc.1, hfirst _ fun _ _ h => by cases h⟩
  | many body ih => exact ⟨nodeSpec_many ih.2.1, hfirst _ fun _ _ h => by cases h⟩
  | chain cur next ihc ihn =>
      refine ⟨fun src _ _ _ _ _ hrep => ?_, firstSpec_chain ihc.1 ihn.2.2,
        restSpec_chain ihc.1 ihn.2.2⟩
      cases hrep
  | stop =>
      refine ⟨fun src _ _ _ _ _ hrep => ?_, firstSpec_stop, restSpec_stop⟩
      cases hrep
  | crashPad body pad ihb ihp =>
      exact ⟨nodeSpec_crashPad ihb.1 ihp.1, hfirst _ fun _ _ h => by cases h⟩
  | branch cond yes no ihy ihn =>
      exact ⟨nodeSpec_branch ihy.1 ihn.1, hfirst _ fun _ _ h => by cases h⟩
  | loop body ih =>
      refine ⟨?_, hfirst _ fun _ _ h => by cases h⟩
      intro src path epis res dst A hrep hlev hepi hdst hAd hA
      cases hrep with
      | @loop _ b _ _ hb hs =>
          refine nodeSpec_one (f := .scope) (b := .loop) (g := .loop) ih.1 rfl rfl rfl hs
            hlev hepi hdst hAd hA (fun _ _ _ _ _ hi hb h => .loop hi hb h) fun fuel => ?_
          simp [removeDefersAux, hb, extend, hdst]
  | brk level => exact ⟨nodeSpec_brk, hfirst _ fun _ _ h => by cases h⟩
  | var v body ih =>
      refine ⟨?_, hfirst _ fun _ _ h => by cases h⟩
      intro src path epis res dst A hrep hlev hepi hdst hAd hA
      cases hrep with
      | @var _ _ b _ _ hb hs =>
          refine nodeSpec_one (f := .scope) (b := .var v) (g := .var v) ih.1 rfl rfl rfl hs
            hlev hepi hdst hAd hA (fun _ _ _ _ _ hi hb h => .var hi hb h) fun fuel => ?_
          simp [removeDefersAux, hb, extend, hdst]
  -- marks belong to the tree, the blocks do not have them
  | mark m t ih =>
      refine ⟨?_, hfirst _ fun _ _ h => by cases h⟩
      intro src path epis res dst A hrep hlev hepi hdst hAd hA
      cases hrep with
      | mark hrep =>
          obtain ⟨res', hrun, hfill⟩ := ih.1 src path epis res dst A hrep hlev hepi hdst hAd hA
          exact ⟨res', hrun, hfill.grows, hfill.frame, .mark hfill.rep⟩

end Blocks

/-- `remove_defers` terminates on every represented tree whose break levels stay within the
enclosing blocks, and its output represents the lowered tree. -/
theorem removeDefers_represents {blocks : List Block} {t : Tree}
    (h : RepresentsTree blocks t) (hlev : t.LevelsWithin 0) :
    ∃ out, (∀ fuel, t.size ≤ fuel → removeDefers fuel blocks = some out) ∧
      RepresentsTree out (t.lower []) := by
  obtain ⟨out, hrun, hfill⟩ := (removeDefersAux_spec t).1 0 [] [] (extend [] 1) 0
    (fun _ => False) h hlev .nil (by simp) (fun h => h) (fun _ h => h.elim)
  exact ⟨out, hrun, hfill.rep.transport (fun _ _ => trivial) fun _ _ _ h => h⟩

end TreeVM
