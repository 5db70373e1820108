import TreeVM.Frontend.Scopes

/-!
# Changes of a block array

What the functions of the frontend do to the blocks, and what stays true of the tree.

* `Relabels`: ranges change, links stay, blocks are appended;
* `TreeGrows`: a leaf becomes the root of a tree of new blocks, its range moves to one of them;
* `Tiles.grow`, `OwnsVars.grow`: the ranges and the locals behind such a change.
-/

namespace TreeVM

/-- The blocks differ in an op range at most. -/
def Block.SameLinks : Block → Block → Prop
  | .basic _, b => ∃ r, b = .basic r
  | .branch _ yes no, b => ∃ cond, b = .branch cond yes no
  | b, b' => b' = b

theorem Block.SameLinks.refl (b : Block) : b.SameLinks b := by
  cases b <;> simp [SameLinks]

/-- Ranges change, links stay. -/
def Relabels (bs bs' : List Block) : Prop :=
  ∀ (i : Nat) (b : Block), bs[i]? = some b → ∃ b', bs'[i]? = some b' ∧ b.SameLinks b'

section Relabel

variable {bs bs' : List Block} {F : Footprint}

theorem relabels_append (ys : List Block) : Relabels bs (bs ++ ys) := by
  intro i b hb
  refine ⟨b, ?_, .refl b⟩
  rw [List.getElem?_append_left (List.getElem?_eq_some_iff.mp hb).1]
  exact hb

theorem relabels_modify {slot : Nat} {f : Block → Block}
    (h : ∀ b, bs[slot]? = some b → b.SameLinks (f b)) : Relabels bs (bs.modify slot f) := by
  intro i b hb
  rw [List.getElem?_modify, hb]
  by_cases hi : slot = i
  · subst hi
    exact ⟨f b, by simp, h b hb⟩
  · exact ⟨b, by simp [hi], .refl b⟩

theorem Relabels.keepsInner (h : Relabels bs bs') : KeepsInner bs bs' := by
  intro i b hb hinner
  obtain ⟨b', hb', hsame⟩ := h i b hb
  cases b with
  | basic r => exact absurd rfl (hinner r)
  | branch c y n =>
      obtain ⟨c', rfl⟩ := hsame
      exact ⟨_, hb', by simp [Block.Inner], fun hne => absurd rfl (hne c y n)⟩
  | _ =>
      obtain rfl : b' = _ := hsame
      exact ⟨_, hb', hinner, fun _ => rfl⟩

theorem Relabels.basic_iff (h : Relabels bs bs') {i : Nat} (hi : i < bs.length) :
    (∃ r, bs'[i]? = some (.basic r)) ↔ ∃ r, bs[i]? = some (.basic r) := by
  obtain ⟨b', hb', hsame⟩ := h i bs[i] (List.getElem?_eq_getElem hi)
  rw [hb', List.getElem?_eq_getElem hi]
  cases hb : bs[i] with
  | basic r =>
      rw [hb] at hsame
      obtain ⟨r', rfl⟩ := hsame
      simp
  | branch c y n =>
      rw [hb] at hsame
      obtain ⟨c', rfl⟩ := hsame
      simp
  | _ =>
      rw [hb] at hsame
      obtain rfl : b' = _ := hsame
      simp

theorem Owns.relabel {p : Path} {place : Place} (h : Owns bs p place F)
    (hsame : Relabels bs bs') : Owns bs' p place F := by
  induction h with
  | basic hb =>
      obtain ⟨_, hb', r, rfl⟩ := hsame _ _ hb
      exact .basic hb'
  | defer hb _ _ ihn ihc =>
      obtain ⟨_, hb', rfl⟩ := hsame _ _ hb
      exact .defer hb' ihn ihc
  | many hb _ ih =>
      obtain ⟨_, hb', rfl⟩ := hsame _ _ hb
      exact .many hb' ih
  | crash hb =>
      obtain ⟨_, hb', rfl⟩ := hsame _ _ hb
      exact .crash hb'
  | hardCrash hb =>
      obtain ⟨_, hb', rfl⟩ := hsame _ _ hb
      exact .hardCrash hb'
  | crashPad hb _ _ ihb ihd =>
      obtain ⟨_, hb', rfl⟩ := hsame _ _ hb
      exact .crashPad hb' ihb ihd
  | branch hb _ _ ihy ihn =>
      obtain ⟨_, hb', c, rfl⟩ := hsame _ _ hb
      exact .branch hb' ihy ihn
  | loop hb _ ih =>
      obtain ⟨_, hb', rfl⟩ := hsame _ _ hb
      exact .loop hb' ih
  | brk hb =>
      obtain ⟨_, hb', rfl⟩ := hsame _ _ hb
      exact .brk hb'
  | var hb _ ih =>
      obtain ⟨_, hb', rfl⟩ := hsame _ _ hb
      exact .var hb' ih
  | stop => exact .stop
  | last _ ih => exact .last ih
  | link _ hb _ ihc ihs =>
      obtain ⟨_, hb', rfl⟩ := hsame _ _ hb
      exact .link ihc hb' ihs

theorem Forms.relabel (h : Forms bs F) (hsame : Relabels bs bs') : Forms bs' F :=
  ⟨h.owns.relabel hsame, h.nodup⟩

theorem Relabels.varAt_eq (h : Relabels bs bs') {i : Nat} (hi : i < bs.length) :
    varAt bs' i = varAt bs i := by
  obtain ⟨b', hb', hsame⟩ := h i bs[i] (List.getElem?_eq_getElem hi)
  rw [varAt, varAt, hb', List.getElem?_eq_getElem hi]
  cases hb : bs[i] with
  | basic r =>
      rw [hb] at hsame
      obtain ⟨r', rfl⟩ := hsame
      rfl
  | branch c y n =>
      rw [hb] at hsame
      obtain ⟨c', rfl⟩ := hsame
      rfl
  | _ =>
      rw [hb] at hsame
      obtain rfl : b' = _ := hsame
      rfl

end Relabel

/-! ## Ranges that stay, and a range that gets longer -/

section Ranges

variable {bs bs' : List Block} {F : Footprint} {n n' len len' : Nat}

theorem Spans.congr {i j k : Nat} (h : rangeAt bs' i = rangeAt bs j) :
    Spans bs' i k ↔ Spans bs j k := by
  rw [Spans, Spans, h]

theorem spans_iff {i k : Nat} {r : OpRange} (hr : rangeAt bs i = some r) :
    Spans bs i k ↔ r.start ≤ k ∧ k < r.start + r.len := by
  rw [Spans, hr]
  constructor
  · rintro ⟨r', hr', hle⟩
    cases hr'
    exact hle
  · intro hle
    exact ⟨r, rfl, hle⟩

/-- One range, which ends with the covered operations, gets longer. -/
theorem Tiles.extend (h : Tiles bs F n len) {slot : Nat} {q : Path} {r : OpRange}
    (hslot : (slot, q) ∈ F) (hr : rangeAt bs slot = some r) (hend : r.start + r.len = n)
    (hr' : rangeAt bs' slot = some ⟨r.start, n' - r.start⟩)
    (hother : ∀ e ∈ F, e.1 ≠ slot → rangeAt bs' e.1 = rangeAt bs e.1)
    (hn : n ≤ n') (hlen : n' ≤ len') (hlens : len ≤ len') : Tiles bs' F n' len' := by
  have hself : ∀ k, Spans bs' slot k ↔ r.start ≤ k ∧ k < n' := by
    intro k
    rw [spans_iff hr']
    simp only
    omega
  have hold : ∀ k, Spans bs slot k ↔ r.start ≤ k ∧ k < n := by
    intro k
    rw [spans_iff hr, hend]
  -- an operation of another range is an old one
  have hsame : ∀ e ∈ F, e.1 ≠ slot → ∀ k, Spans bs' e.1 k ↔ Spans bs e.1 k :=
    fun e he hne k => Spans.congr (hother e he hne)
  have hbound : ∀ e ∈ F, ∀ k, Spans bs e.1 k → k < n := fun e he k hk => (h.covers k).mp ⟨e, he, hk⟩
  refine ⟨fun e he r₁ hr₁ => ?_, fun k => ⟨?_, fun hk => ?_⟩, fun e he e' he' k hk hk' => ?_⟩
  · by_cases hne : e.1 = slot
    · rw [hne, hr'] at hr₁
      cases hr₁
      simp only
      omega
    · rw [hother e he hne] at hr₁
      have hle := h.inside e he r₁ hr₁
      omega
  · rintro ⟨e, he, hk⟩
    by_cases hne : e.1 = slot
    · rw [hne] at hk
      exact ((hself k).mp hk).2
    · have hlt := hbound e he k ((hsame e he hne k).mp hk)
      omega
  · by_cases hlt : k < n
    · obtain ⟨e, he, hspans⟩ := (h.covers k).mpr hlt
      by_cases hne : e.1 = slot
      · rw [hne] at hspans
        exact ⟨(slot, q), hslot, (hself k).mpr ⟨((hold k).mp hspans).1, hk⟩⟩
      · exact ⟨e, he, (hsame e he hne k).mpr hspans⟩
    · exact ⟨(slot, q), hslot, (hself k).mpr ⟨by omega, hk⟩⟩
  · by_cases hne : e.1 = slot
    · by_cases hne' : e'.1 = slot
      · rw [hne, hne']
      · -- the two ranges meet in an old operation
        have hspans' := (hsame e' he' hne' k).mp hk'
        rw [hne] at hk
        have hspans := (hold k).mpr ⟨((hself k).mp hk).1, hbound e' he' k hspans'⟩
        rw [hne]
        exact h.once (slot, q) hslot e' he' k hspans hspans'
    · have hspans := (hsame e he hne k).mp hk
      by_cases hne' : e'.1 = slot
      · rw [hne'] at hk'
        have hspans' := (hold k).mpr ⟨((hself k).mp hk').1, hbound e he k hspans⟩
        rw [hne']
        exact h.once e he (slot, q) hslot k hspans hspans'
      · exact h.once e he e' he' k hspans ((hsame e' he' hne' k).mp hk')

/-- Ranges that hold an operation stay. -/
theorem Tiles.congr (h : Tiles bs F n len)
    (hsame : ∀ e ∈ F, rangeAt bs' e.1 = rangeAt bs e.1 ∨
      ∃ r r', rangeAt bs e.1 = some r ∧ r.len = 0 ∧ rangeAt bs' e.1 = some r' ∧ r'.len = 0 ∧
        r'.start ≤ len)
    (hlens : len ≤ len') : Tiles bs' F n len' := by
  have hspans : ∀ e ∈ F, ∀ k, Spans bs' e.1 k ↔ Spans bs e.1 k := by
    intro e he k
    rcases hsame e he with heq | ⟨r, r', hr, hlen, hr', hlen', -⟩
    · exact Spans.congr heq
    · exact ⟨fun hk => absurd hk (not_spans_of_empty hr' hlen'),
        fun hk => absurd hk (not_spans_of_empty hr hlen)⟩
  refine h.transfer id (fun e he r₁ hr₁ => ?_) (fun e he k hk => ⟨e, he, (hspans e he k).mpr hk⟩)
    fun e he k hk => ⟨e, he, (hspans e he k).mp hk, rfl⟩
  rcases hsame e he with heq | ⟨r, r', hr, hlen, hr', hlen', hstart⟩
  · have hle := h.inside e he r₁ (heq ▸ hr₁)
    omega
  · rw [hr'] at hr₁
    cases hr₁
    omega

theorem OwnsVars.relabel {first count : Nat} (h : OwnsVars bs F first count)
    (hsame : Relabels bs bs') (hlt : ∀ e ∈ F, e.1 < bs.length) : OwnsVars bs' F first count :=
  h.transfer (fun e he _ hv => ⟨he, (hsame.varAt_eq (hlt e he)).trans hv⟩)
    fun e he _ hv => ⟨he, (hsame.varAt_eq (hlt e he)).symm.trans hv⟩

end Ranges

/-! ## New blocks behind a leaf -/

/-- The leaf `cur` becomes the root of a tree, whose other indices are `N`; its range is that of
the new block `before`.  `own` is the new variable with its block. -/
structure TreeGrows (bs bs' : List Block) (ops cur before : Nat) (q : Path) (N : Footprint)
    (own : Option (Nat × Nat)) : Prop where
  other : ∀ i, i < bs.length → i ≠ cur → bs'[i]? = bs[i]?
  link : ∃ c l, bs'[cur]? = some (.many c l)
  owns : Owns bs' q (.node cur) ((cur, q) :: N)
  nodup : N.indices.Nodup
  fresh : ∀ e ∈ N, bs.length ≤ e.1
  moved : ∃ p, (before, p) ∈ N
  kept : bs'[before]? = bs[cur]?
  blank : ∀ e ∈ N, e.1 ≠ before → ∀ r, rangeAt bs' e.1 = some r → r = ⟨ops, 0⟩
  vars : ∀ e ∈ N, ∀ v, varAt bs' e.1 = some v ↔ own = some (v, e.1)
  owner : ∀ v i, own = some (v, i) → ∃ p, (i, p) ∈ N

/-- The blocks behind `wrap_current` -/
def wrapped (bs : List Block) (cur ops : Nat) (middle : Block) : List Block :=
  (bs ++ [(bs[cur]?).getD .unset, middle, .chain (some (bs.length + 1)) (some (bs.length + 4)),
    .basic ⟨ops, 0⟩, .chain (some (bs.length + 3)) none]).set cur
    (.many (some bs.length) (some (bs.length + 2)))

section Wrapped

variable {bs ys : List Block} {cur ops i k : Nat} {b middle : Block}

theorem grown_new (hcur : cur < bs.length) : ((bs ++ ys).set cur b)[bs.length + k]? = ys[k]? := by
  rw [List.getElem?_set_ne (by omega), List.getElem?_append_right (by omega), Nat.add_sub_cancel_left]

theorem grown_old (hi : i < bs.length) (hne : i ≠ cur) : ((bs ++ ys).set cur b)[i]? = bs[i]? := by
  rw [List.getElem?_set_ne hne.symm, List.getElem?_append_left hi]

theorem grown_cur (hcur : cur < bs.length) : ((bs ++ ys).set cur b)[cur]? = some b := by
  rw [List.getElem?_set_self (by simp; omega)]

theorem wrapped_pre {pre : List Block} (hcur : cur < bs.length) (hi : bs.length ≤ i)
    (hlt : i < bs.length + pre.length) :
    (wrapped (bs ++ pre) cur ops middle)[i]? = pre[i - bs.length]? := by
  rw [wrapped, grown_old (by simp; omega) (by omega), List.getElem?_append_right (by omega)]

theorem wrapped_middle (hcur : cur < bs.length) (hi : i = bs.length + 1) :
    (wrapped bs cur ops middle)[i]? = some middle := by
  rw [hi, wrapped, grown_new hcur]
  rfl

theorem wrapped_after (hcur : cur < bs.length) (hi : i = bs.length + 3) :
    (wrapped bs cur ops middle)[i]? = some (.basic ⟨ops, 0⟩) := by
  rw [hi, wrapped, grown_new hcur]
  rfl

end Wrapped

/-- The footprint behind `wrap_current`, without the root: `C` is that of the middle block. -/
def wrapFootprint (n cur : Nat) (q : Path) (C : Footprint) : Footprint :=
  (n, (cur, false) :: q) :: (n + 2, (cur, false) :: q) ::
    (C ++ [(n + 4, (cur, false) :: q), (n + 3, (cur, false) :: q)])

theorem grows_wrap {bs pre : List Block} {cur ops : Nat} {q : Path} {middle : Block} {r : OpRange}
    {C : Footprint} (hcur : bs[cur]? = some (.basic r))
    (hC : Owns (wrapped (bs ++ pre) cur ops middle) ((cur, false) :: q)
      (.node ((bs ++ pre).length + 1)) C)
    (hnodup : C.indices.Nodup)
    (hnew : ∀ e ∈ C, e.1 = (bs ++ pre).length + 1 ∨ bs.length ≤ e.1 ∧ e.1 < (bs ++ pre).length)
    (hblank : ∀ e ∈ C, ∀ r, rangeAt (wrapped (bs ++ pre) cur ops middle) e.1 = some r →
      r = ⟨ops, 0⟩)
    (hvars : ∀ e ∈ C, varAt (wrapped (bs ++ pre) cur ops middle) e.1 = none) :
    TreeGrows bs (wrapped (bs ++ pre) cur ops middle) ops cur (bs ++ pre).length q
      (wrapFootprint (bs ++ pre).length cur q C) none := by
  have hlt : cur < bs.length := (List.getElem?_eq_some_iff.mp hcur).1
  have hle : bs.length ≤ (bs ++ pre).length := by simp
  have hslot : (bs ++ pre)[cur]? = some (.basic r) := by
    rw [List.getElem?_append_left hlt]
    exact hcur
  have hnth : ∀ k, (wrapped (bs ++ pre) cur ops middle)[(bs ++ pre).length + k]? = _ :=
    fun k => grown_new (by omega)
  generalize hn : (bs ++ pre).length = n at *
  generalize hbs' : wrapped (bs ++ pre) cur ops middle = bs' at *
  -- the five new blocks, and the slot of the old one, which becomes a MANY
  have hbefore : bs'[n]? = some (.basic r) := by
    have := hnth 0
    simpa [hslot] using this
  have hchain : bs'[n + 2]? = some (.chain (some (n + 1)) (some (n + 4))) := by
    simpa using hnth 2
  have hafter : bs'[n + 3]? = some (.basic ⟨ops, 0⟩) := by simpa using hnth 3
  have hlast : bs'[n + 4]? = some (.chain (some (n + 3)) none) := by simpa using hnth 4
  have hmany : bs'[cur]? = some (.many (some n) (some (n + 2))) := by
    rw [← hbs', wrapped, grown_cur (by omega), hn]
  have hother : ∀ i, i < bs.length → i ≠ cur → bs'[i]? = bs[i]? := by
    intro i hi hne
    rw [← hbs', wrapped, grown_old (by omega) hne, List.getElem?_append_left hi]
  refine ⟨hother, ⟨_, _, hmany⟩, ?_, ?_, ?_, ⟨_, List.mem_cons_self⟩, hbefore.trans hcur.symm, ?_, ?_,
    nofun⟩
  -- the new blocks form a tree: the old range, the middle block, an empty range
  · have hrest : Owns bs' ((cur, false) :: q) (.seq (some (n + 1)) (some (n + 4)))
        (C ++ [(n + 4, (cur, false) :: q), (n + 3, (cur, false) :: q)]) :=
      .link hC hlast (.last (.basic hafter))
    exact .many hmany (.link (.basic hbefore) hchain hrest)
  -- no index occurs twice: the middle block has its own, the other four are new
  · have hindices : (wrapFootprint n cur q C).indices = n :: (n + 2) :: (C.indices ++ [n + 4, n + 3]) := by
      simp [wrapFootprint, Footprint.indices]
    have hC' : ∀ i ∈ C.indices, i = n + 1 ∨ i < n := by
      intro i hi
      obtain ⟨e, he, rfl⟩ := List.mem_map.mp hi
      rcases hnew e he with h | h
      · exact .inl h
      · exact .inr h.2
    rw [hindices, List.nodup_cons, List.nodup_cons, List.nodup_append]
    refine ⟨?_, ?_, hnodup, by simp, ?_⟩
    · intro hmem
      simp only [List.mem_cons, List.mem_append, List.not_mem_nil, or_false] at hmem
      rcases hmem with h | h | h | h
      · omega
      · have := hC' n h
        omega
      · omega
      · omega
    · intro hmem
      simp only [List.mem_cons, List.mem_append, List.not_mem_nil, or_false] at hmem
      rcases hmem with h | h | h
      · have := hC' _ h
        omega
      · omega
      · omega
    · intro i hi j hj heq
      have := hC' i hi
      simp only [List.mem_cons, List.not_mem_nil, or_false] at hj
      omega
  · intro e he
    simp only [wrapFootprint, List.mem_cons, List.mem_append, List.not_mem_nil, or_false] at he
    rcases he with rfl | rfl | he | rfl | rfl
    · exact hle
    · exact Nat.le_add_right_of_le hle
    · rcases hnew e he with h | h
      · omega
      · exact h.1
    · exact Nat.le_add_right_of_le hle
    · exact Nat.le_add_right_of_le hle
  -- every new range is empty and stands at the end of the operations
  · intro e he hne r' hr'
    simp only [wrapFootprint, List.mem_cons, List.mem_append, List.not_mem_nil, or_false] at he
    rcases he with rfl | rfl | he | rfl | rfl
    · exact absurd rfl hne
    · simp [rangeAt, hchain] at hr'
    · exact hblank e he r' hr'
    · simp [rangeAt, hlast] at hr'
    · simp only [rangeAt, hafter] at hr'
      exact (Option.some.inj hr').symm
  · intro e he v
    simp only [wrapFootprint, List.mem_cons, List.mem_append, List.not_mem_nil, or_false] at he
    rcases he with rfl | rfl | he | rfl | rfl
    · simp [varAt, hbefore]
    · simp [varAt, hchain]
    · simp [hvars e he]
    · simp [varAt, hlast]
    · simp [varAt, hafter]

section Grown

variable {bs bs' : List Block} {ops cur before : Nat} {q : Path} {F F' N : Footprint}
  {own : Option (Nat × Nat)} {r : OpRange}

theorem TreeGrows.keepsInner (hg : TreeGrows bs bs' ops cur before q N own)
    (hcur : bs[cur]? = some (.basic r)) : KeepsInner bs bs' := by
  intro i b hb hinner
  have hne : i ≠ cur := by
    rintro rfl
    rw [hcur] at hb
    exact hinner r (Option.some.inj hb).symm
  exact ⟨b, (hg.other i (List.getElem?_eq_some_iff.mp hb).1 hne).trans hb, hinner, fun _ => rfl⟩

theorem Tiles.grow {n : Nat} (h : Tiles bs F n n) (hg : TreeGrows bs bs' ops cur before q N own)
    (hlt : ∀ e ∈ F, e.1 < bs.length) (hq : (cur, q) ∈ F)
    (hops : ops ≤ n) (hF' : ∀ e, e ∈ F' ↔ e ∈ F ∨ e ∈ N) : Tiles bs' F' n n := by
  obtain ⟨c, l, hmany⟩ := hg.link
  obtain ⟨p, hbefore⟩ := hg.moved
  have hgone : rangeAt bs' cur = none := by rw [rangeAt, hmany]
  have hkept : rangeAt bs' before = rangeAt bs cur := by rw [rangeAt, hg.kept, rangeAt]
  have hold : ∀ e ∈ F, e.1 ≠ cur → rangeAt bs' e.1 = rangeAt bs e.1 := by
    intro e he hne
    rw [rangeAt, hg.other e.1 (hlt e he) hne, rangeAt]
  have hne : ∀ e ∈ F, e.1 ≠ before := by
    intro e he heq
    have := hg.fresh _ hbefore
    have := hlt e he
    omega
  refine h.transfer (fun i => if i = cur then before else i) ?_ ?_ ?_
  · intro e he r' hr'
    rcases (hF' e).mp he with he | he
    · by_cases heq : e.1 = cur
      · rw [heq, hgone] at hr'
        cases hr'
      · exact h.inside e he r' (hold e he heq ▸ hr')
    · by_cases heq : e.1 = before
      · rw [heq, hkept] at hr'
        exact h.inside _ hq r' hr'
      · obtain rfl := hg.blank e he heq r' hr'
        exact hops
  · intro e he k hk
    by_cases heq : e.1 = cur
    · refine ⟨(before, p), (hF' _).mpr (.inr hbefore), ?_⟩
      rw [heq] at hk
      exact (Spans.congr hkept).mpr hk
    · exact ⟨e, (hF' e).mpr (.inl he), (Spans.congr (hold e he heq)).mpr hk⟩
  · intro e he k hk
    rcases (hF' e).mp he with he | he
    · have heq : e.1 ≠ cur := by
        rintro heq
        rw [heq] at hk
        exact not_spans_of_none hgone hk
      exact ⟨e, he, (Spans.congr (hold e he heq)).mp hk, by rw [if_neg heq]⟩
    · by_cases heq : e.1 = before
      · rw [heq] at hk
        exact ⟨(cur, q), hq, (Spans.congr hkept).mp hk, by rw [if_pos rfl, heq]⟩
      · obtain ⟨r', hr', -⟩ := id hk
        obtain rfl := hg.blank e he heq r' hr'
        exact absurd hk (not_spans_of_empty hr' rfl)

theorem OwnsVars.grow {first count count' : Nat} (h : OwnsVars bs F first count)
    (hg : TreeGrows bs bs' ops cur before q N own) (hcur : bs[cur]? = some (.basic r))
    (hlt : ∀ e ∈ F, e.1 < bs.length) (hF' : ∀ e, e ∈ F' ↔ e ∈ F ∨ e ∈ N) (hle : first ≤ count)
    (hown : own = none ∧ count' = count ∨ ∃ i, own = some (count, i) ∧ count' = count + 1) :
    OwnsVars bs' F' first count' := by
  obtain ⟨c, l, hmany⟩ := hg.link
  have hold : ∀ e ∈ F, varAt bs' e.1 = varAt bs e.1 := by
    intro e he
    by_cases heq : e.1 = cur
    · simp [varAt, heq, hmany, hcur]
    · rw [varAt, hg.other e.1 (hlt e he) heq, varAt]
  have hnew : ∀ e ∈ N, ∀ v, varAt bs' e.1 = some v → v = count ∧ count' = count + 1 ∧
      own = some (count, e.1) := by
    intro e he v hv
    have hv := (hg.vars e he v).mp hv
    rcases hown with ⟨hnone, -⟩ | ⟨i, hsome, hcount⟩
    · rw [hnone] at hv
      cases hv
    · rw [hsome] at hv
      cases hv
      exact ⟨rfl, hcount, hsome⟩
  have hcount : count ≤ count' := by
    rcases hown with ⟨-, rfl⟩ | ⟨i, -, rfl⟩
    · exact Nat.le_refl _
    · exact Nat.le_succ _
  refine ⟨fun e he v hv => ?_, fun v hfirst hlast => ?_, fun e he e' he' v hv hv' => ?_⟩
  · rcases (hF' e).mp he with he | he
    · obtain ⟨hfirst, hlast⟩ := h.bounded e he v ((hold e he).symm.trans hv)
      exact ⟨hfirst, Nat.lt_of_lt_of_le hlast hcount⟩
    · obtain ⟨rfl, hcount, -⟩ := hnew e he v hv
      exact ⟨hle, by omega⟩
  · by_cases hv : v < count
    · obtain ⟨e, he, heq⟩ := h.owned v hfirst hv
      exact ⟨e, (hF' e).mpr (.inl he), (hold e he).trans heq⟩
    · rcases hown with ⟨-, hcount⟩ | ⟨i, hsome, hcount⟩
      · omega
      · obtain ⟨p, hp⟩ := hg.owner _ _ hsome
        obtain rfl : v = count := by omega
        exact ⟨_, (hF' _).mpr (.inr hp), (hg.vars _ hp v).mpr hsome⟩
  · rcases (hF' e).mp he with he | he
    · have hlt := (h.bounded e he v ((hold e he).symm.trans hv)).2
      rcases (hF' e').mp he' with he' | he'
      · exact h.once e he e' he' v ((hold e he).symm.trans hv) ((hold e' he').symm.trans hv')
      · have := (hnew e' he' v hv').1
        omega
    · obtain ⟨hcount, -, hsome⟩ := hnew e he v hv
      rcases (hF' e').mp he' with he' | he'
      · have hlt := (h.bounded e' he' v ((hold e' he').symm.trans hv')).2
        omega
      · obtain ⟨-, -, hsome'⟩ := hnew e' he' v hv'
        exact (Prod.mk.inj (Option.some.inj (hsome.symm.trans hsome'))).2

end Grown

end TreeVM
