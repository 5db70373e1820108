import TreeVM.IR.Tree
import Mathlib.Data.List.Nodup

/-!
# The tree in a block array

* `Owns bs path place F`: the blocks at `place` form a finite tree, `F` lists the indices that it
  consists of, links included, each with the scopes that it stands in;
* `Owns.splice`: a leaf of a tree is replaced by a tree;
* `Forms`: the blocks reachable from block 0 form a tree, no block is reached twice;
* `Tiles`, `OwnsVars`: the op ranges and the variables of a tree.

The scopes are those that the bytecode compiler sees after lowering: `BLOCK_MANY`, `BLOCK_LOOP`,
`BLOCK_VAR` and one for each `BLOCK_DEFER`.
-/

namespace TreeVM

/-- The scopes around a block, the innermost first: the number of the block that opens the scope,
and whether it is entered as the cleanup of a `BLOCK_DEFER`. -/
abbrev Path := List (Nat × Bool)

/-- The indices of a tree, each with its path. -/
abbrev Footprint := List (Nat × Path)

inductive Owns (bs : List Block) : Path → Place → Footprint → Prop
  | basic {p i r} : bs[i]? = some (.basic r) → Owns bs p (.node i) [(i, p)]
  | defer {p i n c F G} : bs[i]? = some (.defer n c) → Owns bs ((i, false) :: p) (.node n) F →
      Owns bs ((i, true) :: p) (.node c) G → Owns bs p (.node i) ((i, p) :: (F ++ G))
  | many {p i c l F} : bs[i]? = some (.many c l) → Owns bs ((i, false) :: p) (.seq c l) F →
      Owns bs p (.node i) ((i, p) :: F)
  | crash {p i} : bs[i]? = some .crash → Owns bs p (.node i) [(i, p)]
  | hardCrash {p i} : bs[i]? = some .hardCrash → Owns bs p (.node i) [(i, p)]
  | crashPad {p i b d F G} : bs[i]? = some (.crashPad b d) → Owns bs p (.node b) F →
      Owns bs p (.node d) G → Owns bs p (.node i) ((i, p) :: (F ++ G))
  | branch {p i c y n F G} : bs[i]? = some (.branch c y n) → Owns bs p (.node y) F →
      Owns bs p (.node n) G → Owns bs p (.node i) ((i, p) :: (F ++ G))
  | loop {p i b F} : bs[i]? = some (.loop b) → Owns bs ((i, false) :: p) (.node b) F →
      Owns bs p (.node i) ((i, p) :: F)
  | brk {p i level} : bs[i]? = some (.brk level) → Owns bs p (.node i) [(i, p)]
  | var {p i v b F} : bs[i]? = some (.var v b) → Owns bs ((i, false) :: p) (.node b) F →
      Owns bs p (.node i) ((i, p) :: F)
  | stop {p next} : Owns bs p (.seq none next) []
  | last {p c F} : Owns bs p (.node c) F → Owns bs p (.seq (some c) none) F
  | link {p c l cur next F G} : Owns bs p (.node c) F → bs[l]? = some (.chain cur next) →
      Owns bs p (.seq cur next) G → Owns bs p (.seq (some c) (some l)) (F ++ (l, p) :: G)

/-- The indices of a footprint. -/
def Footprint.indices (F : Footprint) : List Nat :=
  F.map Prod.fst

/-- The tree at the leaf `slot` is put in its place. -/
def splice (slot : Nat) (G : Path → Footprint) (F : Footprint) : Footprint :=
  F.flatMap fun e => if e.1 = slot then G e.2 else [e]

section Splice

variable {slot : Nat} {G : Path → Footprint} {F F' : Footprint} {e : Nat × Path}

theorem splice_append : splice slot G (F ++ F') = splice slot G F ++ splice slot G F' :=
  List.flatMap_append

theorem splice_cons (h : e.1 ≠ slot) : splice slot G (e :: F) = e :: splice slot G F := by
  rw [splice, List.flatMap_cons, if_neg h]
  rfl

theorem splice_self {q : Path} : splice slot G [(slot, q)] = G q := by
  simp [splice]

theorem splice_of_notMem (h : slot ∉ F.indices) : splice slot G F = F := by
  induction F with
  | nil => rfl
  | cons e F ih =>
      obtain ⟨hne, hF⟩ := List.mem_cons.not.mp h |> not_or.mp
      rw [splice_cons (Ne.symm hne), ih hF]

theorem splice_same : splice slot (fun q => [(slot, q)]) F = F := by
  induction F with
  | nil => rfl
  | cons e F ih =>
      by_cases h : e.1 = slot
      · have he : (slot, e.2) = e := by rw [← h]
        rw [splice, List.flatMap_cons, if_pos h, he]
        exact congrArg (e :: ·) ih
      · rw [splice_cons h, ih]

end Splice

namespace Owns

variable {bs bs' : List Block} {p : Path} {place : Place} {F : Footprint}

/-- Every index of the tree is one of a block. -/
theorem lt (h : Owns bs p place F) : ∀ e ∈ F, e.1 < bs.length := by
  have hlt : ∀ {i b}, bs[i]? = some b → i < bs.length :=
    fun h => (List.getElem?_eq_some_iff.mp h).1
  induction h with
  | basic hb => simpa using hlt hb
  | crash hb => simpa using hlt hb
  | hardCrash hb => simpa using hlt hb
  | brk hb => simpa using hlt hb
  | defer hb _ _ ihn ihc =>
      intro e he
      rcases List.mem_cons.mp he with rfl | he
      · exact hlt hb
      · exact (List.mem_append.mp he).elim (ihn e) (ihc e)
  | crashPad hb _ _ ihn ihc =>
      intro e he
      rcases List.mem_cons.mp he with rfl | he
      · exact hlt hb
      · exact (List.mem_append.mp he).elim (ihn e) (ihc e)
  | branch hb _ _ ihn ihc =>
      intro e he
      rcases List.mem_cons.mp he with rfl | he
      · exact hlt hb
      · exact (List.mem_append.mp he).elim (ihn e) (ihc e)
  | many hb _ ih =>
      intro e he
      rcases List.mem_cons.mp he with rfl | he
      · exact hlt hb
      · exact ih e he
  | loop hb _ ih =>
      intro e he
      rcases List.mem_cons.mp he with rfl | he
      · exact hlt hb
      · exact ih e he
  | var hb _ ih =>
      intro e he
      rcases List.mem_cons.mp he with rfl | he
      · exact hlt hb
      · exact ih e he
  | stop => nofun
  | last _ ih => exact ih
  | link _ hb _ ihc ihs =>
      intro e he
      rcases List.mem_append.mp he with he | he
      · exact ihc e he
      · rcases List.mem_cons.mp he with rfl | he
        · exact hlt hb
        · exact ihs e he

theorem root_mem {i : Nat} (h : Owns bs p (.node i) F) : (i, p) ∈ F := by
  cases h <;> exact List.mem_cons_self

/-- The tree at a block, read off the block -/
theorem inv {i : Nat} {b : Block} (h : Owns bs p (.node i) F) (hi : bs[i]? = some b) :
    match b with
    | .defer n c => ∃ G H, F = (i, p) :: (G ++ H) ∧ Owns bs ((i, false) :: p) (.node n) G ∧
        Owns bs ((i, true) :: p) (.node c) H
    | .many c l => ∃ G, F = (i, p) :: G ∧ Owns bs ((i, false) :: p) (.seq c l) G
    | .crashPad n c => ∃ G H, F = (i, p) :: (G ++ H) ∧ Owns bs p (.node n) G ∧ Owns bs p (.node c) H
    | .branch _ y n => ∃ G H, F = (i, p) :: (G ++ H) ∧ Owns bs p (.node y) G ∧ Owns bs p (.node n) H
    | .loop b => ∃ G, F = (i, p) :: G ∧ Owns bs ((i, false) :: p) (.node b) G
    | .var _ b => ∃ G, F = (i, p) :: G ∧ Owns bs ((i, false) :: p) (.node b) G
    | _ => F = [(i, p)] := by
  cases h with
  | defer hb hG hH =>
      cases hi.symm.trans hb
      exact ⟨_, _, rfl, hG, hH⟩
  | many hb hG =>
      cases hi.symm.trans hb
      exact ⟨_, rfl, hG⟩
  | crashPad hb hG hH =>
      cases hi.symm.trans hb
      exact ⟨_, _, rfl, hG, hH⟩
  | branch hb hG hH =>
      cases hi.symm.trans hb
      exact ⟨_, _, rfl, hG, hH⟩
  | loop hb hG =>
      cases hi.symm.trans hb
      exact ⟨_, rfl, hG⟩
  | var hb hG =>
      cases hi.symm.trans hb
      exact ⟨_, rfl, hG⟩
  | basic hb | crash hb | hardCrash hb | brk hb =>
      cases hi.symm.trans hb
      rfl

/-- The blocks determine the tree. -/
theorem det {G : Footprint} (h : Owns bs p place F) (hG : Owns bs p place G) : F = G := by
  induction h generalizing G with
  | basic hb => exact (hG.inv hb).symm
  | crash hb => exact (hG.inv hb).symm
  | hardCrash hb => exact (hG.inv hb).symm
  | brk hb => exact (hG.inv hb).symm
  | defer hb _ _ ih₁ ih₂ =>
      obtain ⟨G₁, G₂, rfl, h₁, h₂⟩ := hG.inv hb
      rw [ih₁ h₁, ih₂ h₂]
  | crashPad hb _ _ ih₁ ih₂ =>
      obtain ⟨G₁, G₂, rfl, h₁, h₂⟩ := hG.inv hb
      rw [ih₁ h₁, ih₂ h₂]
  | branch hb _ _ ih₁ ih₂ =>
      obtain ⟨G₁, G₂, rfl, h₁, h₂⟩ := hG.inv hb
      rw [ih₁ h₁, ih₂ h₂]
  | many hb _ ih =>
      obtain ⟨G₁, rfl, h₁⟩ := hG.inv hb
      rw [ih h₁]
  | loop hb _ ih =>
      obtain ⟨G₁, rfl, h₁⟩ := hG.inv hb
      rw [ih h₁]
  | var hb _ ih =>
      obtain ⟨G₁, rfl, h₁⟩ := hG.inv hb
      rw [ih h₁]
  | stop =>
      cases hG
      rfl
  | last _ ih =>
      cases hG with
      | last h₁ => exact ih h₁
  | link _ hb _ ih₁ ih₂ =>
      cases hG with
      | link h₁ hb' h₂ =>
          cases hb.symm.trans hb'
          rw [ih₁ h₁, ih₂ h₂]

/-- The path of a block goes through blocks of the tree. -/
def Rooted (F : Footprint) (p q : Path) : Prop :=
  p <:+ q ∧ ∀ b f s, (b, f) :: s <:+ q → p.length ≤ s.length → (b, s) ∈ F

theorem Rooted.mono {G : Footprint} {q : Path} (h : Rooted F p q) (hsub : ∀ e ∈ F, e ∈ G) :
    Rooted G p q :=
  ⟨h.1, fun b f s hs hle => hsub _ (h.2 b f s hs hle)⟩

theorem Rooted.self : Rooted F p p := by
  refine ⟨List.suffix_rfl, fun b f s hs hle => ?_⟩
  have hlen := hs.length_le
  simp only [List.length_cons] at hlen
  omega

/-- Below a block that opens a scope -/
theorem Rooted.scope {G : Footprint} {i : Nat} {flag : Bool} {q : Path}
    (h : Rooted F ((i, flag) :: p) q) (hsub : ∀ e ∈ F, e ∈ G) (hi : (i, p) ∈ G) : Rooted G p q := by
  refine ⟨(List.suffix_cons _ _).trans h.1, fun b f s hs hle => ?_⟩
  by_cases heq : p.length = s.length
  · have hsame : (b, f) :: s = (i, flag) :: p :=
      List.IsSuffix.eq_of_length (List.suffix_of_suffix_length_le hs h.1 (by simp [heq]))
        (by simp [heq])
    cases hsame
    exact hi
  · exact hsub _ (h.2 b f s hs (by simp only [List.length_cons]; omega))

theorem rooted (h : Owns bs p place F) : ∀ e ∈ F, Rooted F p e.2 := by
  induction h with
  | basic _ | crash _ | hardCrash _ | brk _ =>
      intro e he
      obtain rfl := List.mem_singleton.mp he
      exact .self
  | defer _ _ _ ih₁ ih₂ =>
      intro e he
      rcases List.mem_cons.mp he with rfl | he
      · exact .self
      rcases List.mem_append.mp he with he | he
      · exact (ih₁ e he).scope (fun e he => List.mem_cons_of_mem _ (List.mem_append_left _ he))
          List.mem_cons_self
      · exact (ih₂ e he).scope (fun e he => List.mem_cons_of_mem _ (List.mem_append_right _ he))
          List.mem_cons_self
  | crashPad _ _ _ ih₁ ih₂ | branch _ _ _ ih₁ ih₂ =>
      intro e he
      rcases List.mem_cons.mp he with rfl | he
      · exact .self
      rcases List.mem_append.mp he with he | he
      · exact (ih₁ e he).mono fun e he => List.mem_cons_of_mem _ (List.mem_append_left _ he)
      · exact (ih₂ e he).mono fun e he => List.mem_cons_of_mem _ (List.mem_append_right _ he)
  | many _ _ ih | loop _ _ ih | var _ _ ih =>
      intro e he
      rcases List.mem_cons.mp he with rfl | he
      · exact .self
      · exact (ih e he).scope (fun e he => List.mem_cons_of_mem _ he) List.mem_cons_self
  | stop => nofun
  | last _ ih => exact ih
  | link _ _ _ ih₁ ih₂ =>
      intro e he
      rcases List.mem_append.mp he with he | he
      · exact (ih₁ e he).mono fun e he => List.mem_append_left _ he
      rcases List.mem_cons.mp he with rfl | he
      · exact .self
      · exact (ih₂ e he).mono fun e he => List.mem_append_right _ (List.mem_cons_of_mem _ he)

/-- A leaf is replaced by a tree at the same index; the other blocks of the tree stay. -/
theorem splice {slot : Nat} {r : OpRange} {G : Path → Footprint} (h : Owns bs p place F)
    (hslot : bs[slot]? = some (.basic r))
    (hother : ∀ e ∈ F, e.1 ≠ slot → bs'[e.1]? = bs[e.1]?)
    (hG : ∀ q, (slot, q) ∈ F → Owns bs' q (.node slot) (G q)) :
    Owns bs' p place (TreeVM.splice slot G F) := by
  -- only a BASIC is replaced, so every inner node keeps its block
  have hne : ∀ {i b}, bs[i]? = some b → (∀ r, b ≠ .basic r) → i ≠ slot := by
    rintro i b hi hb rfl
    rw [hslot] at hi
    exact hb r (Option.some.inj hi).symm
  induction h with
  | @basic p i r' hb =>
      by_cases hi : i = slot
      · subst hi
        rw [splice_self]
        exact hG p List.mem_cons_self
      · rw [splice_of_notMem (by simpa [Footprint.indices] using Ne.symm hi)]
        exact .basic ((hother _ List.mem_cons_self hi).trans hb)
  | @crash p i hb =>
      have hi := hne hb (by simp)
      rw [splice_of_notMem (by simpa [Footprint.indices] using Ne.symm hi)]
      exact .crash ((hother _ List.mem_cons_self hi).trans hb)
  | @hardCrash p i hb =>
      have hi := hne hb (by simp)
      rw [splice_of_notMem (by simpa [Footprint.indices] using Ne.symm hi)]
      exact .hardCrash ((hother _ List.mem_cons_self hi).trans hb)
  | @brk p i level hb =>
      have hi := hne hb (by simp)
      rw [splice_of_notMem (by simpa [Footprint.indices] using Ne.symm hi)]
      exact .brk ((hother _ List.mem_cons_self hi).trans hb)
  | @defer p i n c F F' hb _ _ ihn ihc =>
      have hi := hne hb (by simp)
      rw [splice_cons hi, splice_append]
      refine .defer ((hother _ List.mem_cons_self hi).trans hb) (ihn ?_ ?_) (ihc ?_ ?_)
      · exact fun e he => hother e (List.mem_cons_of_mem _ (List.mem_append_left _ he))
      · exact fun q hq => hG q (List.mem_cons_of_mem _ (List.mem_append_left _ hq))
      · exact fun e he => hother e (List.mem_cons_of_mem _ (List.mem_append_right _ he))
      · exact fun q hq => hG q (List.mem_cons_of_mem _ (List.mem_append_right _ hq))
  | @crashPad p i n c F F' hb _ _ ihn ihc =>
      have hi := hne hb (by simp)
      rw [splice_cons hi, splice_append]
      refine .crashPad ((hother _ List.mem_cons_self hi).trans hb) (ihn ?_ ?_) (ihc ?_ ?_)
      · exact fun e he => hother e (List.mem_cons_of_mem _ (List.mem_append_left _ he))
      · exact fun q hq => hG q (List.mem_cons_of_mem _ (List.mem_append_left _ hq))
      · exact fun e he => hother e (List.mem_cons_of_mem _ (List.mem_append_right _ he))
      · exact fun q hq => hG q (List.mem_cons_of_mem _ (List.mem_append_right _ hq))
  | @branch p i c y n F F' hb _ _ ihn ihc =>
      have hi := hne hb (by simp)
      rw [splice_cons hi, splice_append]
      refine .branch ((hother _ List.mem_cons_self hi).trans hb) (ihn ?_ ?_) (ihc ?_ ?_)
      · exact fun e he => hother e (List.mem_cons_of_mem _ (List.mem_append_left _ he))
      · exact fun q hq => hG q (List.mem_cons_of_mem _ (List.mem_append_left _ hq))
      · exact fun e he => hother e (List.mem_cons_of_mem _ (List.mem_append_right _ he))
      · exact fun q hq => hG q (List.mem_cons_of_mem _ (List.mem_append_right _ hq))
  | @many p i c l F hb _ ih =>
      have hi := hne hb (by simp)
      rw [splice_cons hi]
      refine .many ((hother _ List.mem_cons_self hi).trans hb) (ih ?_ ?_)
      · exact fun e he => hother e (List.mem_cons_of_mem _ he)
      · exact fun q hq => hG q (List.mem_cons_of_mem _ hq)
  | @loop p i b F hb _ ih =>
      have hi := hne hb (by simp)
      rw [splice_cons hi]
      refine .loop ((hother _ List.mem_cons_self hi).trans hb) (ih ?_ ?_)
      · exact fun e he => hother e (List.mem_cons_of_mem _ he)
      · exact fun q hq => hG q (List.mem_cons_of_mem _ hq)
  | @var p i v b F hb _ ih =>
      have hi := hne hb (by simp)
      rw [splice_cons hi]
      refine .var ((hother _ List.mem_cons_self hi).trans hb) (ih ?_ ?_)
      · exact fun e he => hother e (List.mem_cons_of_mem _ he)
      · exact fun q hq => hG q (List.mem_cons_of_mem _ hq)
  | stop => exact .stop
  | last _ ih => exact .last (ih hother hG)
  | @link p c l cur next F F' _ hb _ ihc ihs =>
      have hl := hne hb (by simp)
      have hmem : (l, p) ∈ F ++ (l, p) :: F' := List.mem_append_right _ List.mem_cons_self
      rw [splice_append, splice_cons hl]
      refine .link (ihc ?_ ?_) ((hother _ hmem hl).trans hb) (ihs ?_ ?_)
      · exact fun e he => hother e (List.mem_append_left _ he)
      · exact fun q hq => hG q (List.mem_append_left _ hq)
      · exact fun e he => hother e (List.mem_append_right _ (List.mem_cons_of_mem _ he))
      · exact fun q hq => hG q (List.mem_append_right _ (List.mem_cons_of_mem _ hq))

end Owns

/-- The blocks that can be reached from block 0 form a finite tree, and none is reached twice. -/
structure Forms (bs : List Block) (F : Footprint) : Prop where
  owns : Owns bs [] (.node 0) F
  nodup : F.indices.Nodup

namespace Forms

variable {bs bs' : List Block} {F : Footprint}

theorem path_unique (h : Forms bs F) {i : Nat} {p q : Path} (hp : (i, p) ∈ F) (hq : (i, q) ∈ F) :
    p = q :=
  congrArg Prod.snd (List.inj_on_of_nodup_map h.nodup hp hq rfl)

/-- No block is entered twice on the way to a block. -/
theorem path_nodup (h : Forms bs F) {i : Nat} {q : Path} (hq : (i, q) ∈ F) :
    (q.map Prod.fst).Nodup := by
  have hrooted := (h.owns.rooted _ hq).2
  simp only at hrooted
  induction q generalizing i with
  | nil => exact List.nodup_nil
  | cons e s ih =>
      have hs : (e.1, s) ∈ F := hrooted e.1 e.2 s List.suffix_rfl (Nat.zero_le _)
      rw [List.map_cons, List.nodup_cons]
      refine ⟨fun hmem => ?_, ih hs fun b f u hu => hrooted b f u (hu.trans (List.suffix_cons _ _))⟩
      obtain ⟨e', he', heq⟩ := List.mem_map.mp hmem
      obtain ⟨u, v, rfl⟩ := List.append_of_mem he'
      have hv : (e'.1, v) ∈ F := hrooted e'.1 e'.2 v
        ((List.suffix_append u _).trans (List.suffix_cons _ _)) (Nat.zero_le _)
      rw [heq] at hv
      have hlen := congrArg List.length (h.path_unique hs hv)
      simp only [List.length_append, List.length_cons] at hlen
      omega

/-- A leaf becomes the root of a tree of new blocks. -/
theorem splice (h : Forms bs F) {slot : Nat} {r : OpRange} {q : Path} {G : Footprint}
    (hq : (slot, q) ∈ F) (hslot : bs[slot]? = some (.basic r))
    (hother : ∀ e ∈ F, e.1 ≠ slot → bs'[e.1]? = bs[e.1]?)
    (hG : Owns bs' q (.node slot) G) (hnodup : G.indices.Nodup)
    (hnew : ∀ e ∈ G, e.1 ≠ slot → bs.length ≤ e.1) :
    ∃ F', Forms bs' F' ∧ ∀ e, e ∈ F' ↔ (e ∈ F ∧ e.1 ≠ slot) ∨ e ∈ G := by
  obtain ⟨A, B, rfl⟩ := List.append_of_mem hq
  have hkeys : (Footprint.indices A ++ slot :: Footprint.indices B).Nodup := by
    simpa [Footprint.indices] using h.nodup
  obtain ⟨hA, hB, hAB⟩ := List.nodup_append.mp hkeys
  obtain ⟨hslotB, hB⟩ := List.nodup_cons.mp hB
  have hslotA : slot ∉ Footprint.indices A := fun hmem => hAB slot hmem slot List.mem_cons_self rfl
  have hspliced : TreeVM.splice slot (fun _ => G) (A ++ (slot, q) :: B) = A ++ (G ++ B) := by
    rw [splice_append, splice_of_notMem hslotA, ← List.singleton_append, splice_append,
      splice_self, splice_of_notMem hslotB]
  -- the new indices are not among the old ones
  have hfresh : ∀ e ∈ A ++ B, ∀ g ∈ G, e.1 ≠ g.1 := by
    intro e he g hg heq
    have hslot' : e.1 ≠ slot := by
      rintro rfl
      rcases List.mem_append.mp he with he | he
      · exact hslotA (List.mem_map_of_mem he)
      · exact hslotB (List.mem_map_of_mem he)
    have hlt : e.1 < bs.length := by
      refine h.owns.lt e ?_
      rcases List.mem_append.mp he with he | he
      · exact List.mem_append_left _ he
      · exact List.mem_append_right _ (List.mem_cons_of_mem _ he)
    have hle := hnew g hg (heq ▸ hslot')
    omega
  refine ⟨A ++ (G ++ B), ⟨hspliced ▸ h.owns.splice hslot hother fun p hp => ?_, ?_⟩, fun e => ?_⟩
  · rw [h.path_unique hp hq]
    exact hG
  · rw [Footprint.indices, List.map_append, List.map_append]
    refine List.nodup_append.mpr ⟨hA, List.nodup_append.mpr ⟨hnodup, hB, ?_⟩, ?_⟩
    · intro a ha b hb
      obtain ⟨g, hg, rfl⟩ := List.mem_map.mp ha
      obtain ⟨e, he, rfl⟩ := List.mem_map.mp hb
      exact (hfresh e (List.mem_append_right _ he) g hg).symm
    · intro a ha b hb
      obtain ⟨e, he, rfl⟩ := List.mem_map.mp ha
      rcases List.mem_append.mp hb with hb | hb
      · obtain ⟨g, hg, rfl⟩ := List.mem_map.mp hb
        exact hfresh e (List.mem_append_left _ he) g hg
      · exact hAB _ ha b (List.mem_cons_of_mem _ hb)
  · have hne : ∀ {L : Footprint}, slot ∉ L.indices → e ∈ L → e.1 ≠ slot := by
      rintro L hL he rfl
      exact hL (List.mem_map_of_mem he)
    simp only [List.mem_append, List.mem_cons]
    constructor
    · rintro (he | he | he)
      · exact .inl ⟨.inl he, hne hslotA he⟩
      · exact .inr he
      · exact .inl ⟨.inr (.inr he), hne hslotB he⟩
    · rintro (⟨he | rfl | he, hslot'⟩ | he)
      · exact .inl he
      · exact absurd rfl hslot'
      · exact .inr (.inr he)
      · exact .inr (.inl he)

/-- The data of a leaf, and blocks outside of the tree, may change. -/
theorem congr (h : Forms bs F) {slot : Nat} {r r' : OpRange} (hslot : bs[slot]? = some (.basic r))
    (hslot' : bs'[slot]? = some (.basic r'))
    (hother : ∀ e ∈ F, e.1 ≠ slot → bs'[e.1]? = bs[e.1]?) : Forms bs' F := by
  refine ⟨?_, h.nodup⟩
  have howns := h.owns.splice (G := fun q => [(slot, q)]) hslot hother fun _ _ => .basic hslot'
  rwa [splice_same] at howns

/-- A leaf becomes the root of a tree that consists of new blocks otherwise. -/
theorem grow (h : Forms bs F) {cur : Nat} {r : OpRange} {q : Path} {N : Footprint}
    (hq : (cur, q) ∈ F) (hcur : bs[cur]? = some (.basic r))
    (hother : ∀ e ∈ F, e.1 ≠ cur → bs'[e.1]? = bs[e.1]?)
    (howns : Owns bs' q (.node cur) ((cur, q) :: N)) (hnodup : N.indices.Nodup)
    (hnew : ∀ e ∈ N, bs.length ≤ e.1) :
    ∃ F', Forms bs' F' ∧ ∀ e, e ∈ F' ↔ e ∈ F ∨ e ∈ N := by
  have hlt := h.owns.lt _ hq
  have hcurNew : cur ∉ N.indices := by
    intro hmem
    obtain ⟨e, he, heq⟩ := List.mem_map.mp hmem
    have hle := hnew e he
    rw [heq] at hle
    exact absurd hlt (Nat.not_lt.mpr hle)
  obtain ⟨F', hF', hmem⟩ := h.splice hq hcur hother howns (List.nodup_cons.mpr ⟨hcurNew, hnodup⟩)
    fun e he hne => hnew e ((List.mem_cons.mp he).resolve_left fun heq => hne (by rw [heq]))
  refine ⟨F', hF', fun e => (hmem e).trans ?_⟩
  have hself : ∀ e ∈ F, e.1 = cur → e = (cur, q) := by
    rintro ⟨i, p⟩ he rfl
    rw [h.path_unique he hq]
  rw [List.mem_cons]
  constructor
  · rintro (⟨he, -⟩ | rfl | he)
    · exact .inl he
    · exact .inl hq
    · exact .inr he
  · rintro (he | he)
    · by_cases heq : e.1 = cur
      · exact .inr (.inl (hself e he heq))
      · exact .inl ⟨he, heq⟩
    · exact .inr (.inr he)

end Forms

/-! ## Op ranges and variables -/

/-- The op range of a basic block, or of the condition of a branch. -/
def rangeAt (bs : List Block) (i : Nat) : Option OpRange :=
  match bs[i]? with
  | some (.basic r) => some r
  | some (.branch cond _ _) => some cond
  | _ => none

def varAt (bs : List Block) (i : Nat) : Option Nat :=
  match bs[i]? with
  | some (.var v _) => some v
  | _ => none

/-- Operation `k` is in the range at block `i`. -/
def Spans (bs : List Block) (i k : Nat) : Prop :=
  ∃ r, rangeAt bs i = some r ∧ r.start ≤ k ∧ k < r.start + r.len

/-- The ranges of the tree lie inside the `len` operations; the first `n` operations are in exactly
one of them each, the others in none. -/
structure Tiles (bs : List Block) (F : Footprint) (n len : Nat) : Prop where
  inside : ∀ e ∈ F, ∀ r, rangeAt bs e.1 = some r → r.start + r.len ≤ len
  covers : ∀ k, (∃ e ∈ F, Spans bs e.1 k) ↔ k < n
  once : ∀ e ∈ F, ∀ e' ∈ F, ∀ k, Spans bs e.1 k → Spans bs e'.1 k → e.1 = e'.1

/-- The variables from `first` on, below `count`, have exactly one block each. -/
structure OwnsVars (bs : List Block) (F : Footprint) (first count : Nat) : Prop where
  bounded : ∀ e ∈ F, ∀ v, varAt bs e.1 = some v → first ≤ v ∧ v < count
  owned : ∀ v, first ≤ v → v < count → ∃ e ∈ F, varAt bs e.1 = some v
  once : ∀ e ∈ F, ∀ e' ∈ F, ∀ v, varAt bs e.1 = some v → varAt bs e'.1 = some v → e.1 = e'.1

section Ranges

variable {bs bs' : List Block} {F F' : Footprint} {n len : Nat}

theorem not_spans_of_empty {i k : Nat} {r : OpRange} (hr : rangeAt bs i = some r)
    (hlen : r.len = 0) : ¬ Spans bs i k := by
  rintro ⟨r', hr', hle, hlt⟩
  rw [hr] at hr'
  cases hr'
  omega

theorem not_spans_of_none {i k : Nat} (hr : rangeAt bs i = none) : ¬ Spans bs i k := by
  rintro ⟨r', hr', -⟩
  rw [hr] at hr'
  cases hr'

/-- The ranges of one tree move to the blocks of another one; `g` tells where. -/
theorem Tiles.transfer (h : Tiles bs F n len) {len' : Nat} (g : Nat → Nat)
    (hinside : ∀ e ∈ F', ∀ r, rangeAt bs' e.1 = some r → r.start + r.len ≤ len')
    (hto : ∀ e ∈ F, ∀ k, Spans bs e.1 k → ∃ e' ∈ F', Spans bs' e'.1 k)
    (hfrom : ∀ e' ∈ F', ∀ k, Spans bs' e'.1 k → ∃ e ∈ F, Spans bs e.1 k ∧ e'.1 = g e.1) :
    Tiles bs' F' n len' := by
  refine ⟨hinside, fun k => ⟨?_, fun hk => ?_⟩, fun e he e' he' k hspans hspans' => ?_⟩
  · rintro ⟨e', he', hspans⟩
    obtain ⟨e, he, hspans, -⟩ := hfrom e' he' k hspans
    exact (h.covers k).mp ⟨e, he, hspans⟩
  · obtain ⟨e, he, hspans⟩ := (h.covers k).mpr hk
    exact hto e he k hspans
  · obtain ⟨a, ha, hspans, heq⟩ := hfrom e he k hspans
    obtain ⟨a', ha', hspans', heq'⟩ := hfrom e' he' k hspans'
    rw [heq, heq', h.once a ha a' ha' k hspans hspans']

/-- Blocks without a variable come and go. -/
theorem OwnsVars.transfer {first count : Nat} (h : OwnsVars bs F first count)
    (hto : ∀ e ∈ F, ∀ v, varAt bs e.1 = some v → e ∈ F' ∧ varAt bs' e.1 = some v)
    (hfrom : ∀ e ∈ F', ∀ v, varAt bs' e.1 = some v → e ∈ F ∧ varAt bs e.1 = some v) :
    OwnsVars bs' F' first count := by
  refine ⟨fun e he v hv => ?_, fun v hfirst hcount => ?_, fun e he e' he' v hv hv' => ?_⟩
  · obtain ⟨he, hv⟩ := hfrom e he v hv
    exact h.bounded e he v hv
  · obtain ⟨e, he, hv⟩ := h.owned v hfirst hcount
    obtain ⟨he, hv⟩ := hto e he v hv
    exact ⟨e, he, hv⟩
  · obtain ⟨he, hv⟩ := hfrom e he v hv
    obtain ⟨he', hv'⟩ := hfrom e' he' v hv'
    exact h.once e he e' he' v hv hv'

end Ranges

end TreeVM
