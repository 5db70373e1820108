import TreeVM.Defer.Paths
import TreeVM.IR.Triple

/-!
# Lowering a tree without defers

The pass treats the handler of a crash pad as an epilogue, so it is not the identity on a tree
without defers: a break with the body of a crash pad among its `level - 1` innermost enclosing
blocks runs the handler.

* `Tree.flag`: the source tree with these breaks annotated;
* `idle_lower`: a run meets no such break and then lowering changes nothing, or it meets one and
  the lowered tree runs a handler where the source tree runs none;
* `removeDefers_again`: the same for the second lowering of any tree.
-/

namespace TreeVM

/-- Does the pass pop the handler of a crash pad for this break? -/
def popsHandler (path : List Frame) (level : Nat) : Bool :=
  (path.take (level - 1)).any Frame.isPadBody

namespace Tree

def flag (path : List Frame) : Tree → Tree
  | defer id next cleanup =>
      defer id (next.flag (.deferBody id (cleanup.lower (.cleanup :: path)) :: path))
        (cleanup.flag (.cleanup :: path))
  | many body => many (body.flag (.scope :: path))
  | chain cur next => chain (cur.flag path) (next.flag path)
  | crashPad body pad =>
      crashPad (body.flag (.padBody (pad.lower (.handler :: path)) :: path))
        (pad.flag (.handler :: path))
  | branch cond yes no => branch cond (yes.flag (.arm :: path)) (no.flag (.arm :: path))
  | loop body => loop (body.flag (.scope :: path))
  | brk level => if popsHandler path level then mark .padBreak (brk level) else brk level
  | var v body => var v (body.flag (.scope :: path))
  | mark m t => mark m (t.flag path)
  | basic ops => basic ops
  | stop => stop
  | crash => crash
  | hardCrash => hardCrash

theorem represents_flag {S : Nat → Prop} {bs : List Block} {p : Place} {t : Tree}
    (h : Represents S bs p t) (path : List Frame) : Represents S bs p (t.flag path) := by
  induction h generalizing path with
  | basic hi hb => exact .basic hi hb
  | defer hi hb _ _ ihn ihc => exact .defer hi hb (ihn _) (ihc _)
  | many hi hb _ ih => exact .many hi hb (ih _)
  | crash hi hb => exact .crash hi hb
  | hardCrash hi hb => exact .hardCrash hi hb
  | crashPad hi hb _ _ ihb ihp => exact .crashPad hi hb (ihb _) (ihp _)
  | branch hi hb _ _ ihy ihn => exact .branch hi hb (ihy _) (ihn _)
  | loop hi hb _ ih => exact .loop hi hb (ih _)
  | brk hi hb =>
      simp only [flag]
      split
      · exact .mark (.brk hi hb)
      · exact .brk hi hb
  | var hi hb _ ih => exact .var hi hb (ih _)
  | mark _ ih => exact .mark (ih _)
  | stop => exact .stop
  | last _ ih => exact .last (ih _)
  | link _ hl hb _ ih ihs => exact .link (ih _) hl hb (ihs _)

theorem deferFree_flag {t : Tree} (h : t.DeferFree) (path : List Frame) :
    (t.flag path).DeferFree := by
  induction t generalizing path with
  | defer id next cleanup _ _ => exact h.elim
  | many body ih => exact ih h _
  | chain cur next ihc ihn => exact ⟨ihc h.1 _, ihn h.2 _⟩
  | crashPad body pad ihb ihp => exact ⟨ihb h.1 _, ihp h.2 _⟩
  | branch cond yes no ihy ihn => exact ⟨ihy h.1 _, ihn h.2 _⟩
  | loop body ih => exact ih h _
  | brk level => simp only [flag]; split <;> trivial
  | var v body ih => exact ih h _
  | mark m t ih => exact ih h _
  | _ => trivial

end Tree

/-- Has the annotation been met? -/
def Machine.seen {σ : Type} (M : Machine σ) (k : Mark) : Watch M.traced Prop where
  view s := Event.mark k ∈ s.2
  next e p := p ∨ .mark k = e
  note e s := by simp [traced]
  op o s := by cases h : M.op o s.1 <;> simp [traced, h, Step.map]
  test _ := rfl
  discard _ _ := rfl
  enter v s := by cases h : M.enter v s.1 <;> simp [traced, h, Step.map]
  leave _ _ := rfl
  restore _ _ := rfl
  raise _ := rfl
  hard _ := rfl

section Eval

variable {σ : Type} {M : Machine σ} {fuel : Nat} {k : Mark} {t : Tree} {s : σ × List Event}

/-- What has been recorded stays recorded. -/
theorem seen_eval (hfree : t.DeferFree) (hs : Event.mark k ∈ s.2) :
    Event.mark k ∈ (t.eval M.traced fuel s).state.2 := by
  have h : (M.seen k).Triple fuel (fun p => p) t fun o => o.state :=
    Watch.triple_keeps hfree (.inr fun _ _ hp => .inl hp)
  simpa [Machine.seen] using h s hs

theorem not_seen_eval (hfree : t.DeferFree) (hplain : t.Unmarked) (hs : Event.mark k ∉ s.2) :
    Event.mark k ∉ (t.eval M.traced fuel s).state.2 := by
  have h : (M.seen k).Triple fuel (fun p => ¬ p) t fun o => ¬ o.state :=
    Watch.triple_keeps hfree (.inl hplain)
  simpa [Machine.seen] using h s hs

/-! ## Runs that meet no such break, and runs that do -/

/-- Three runs end alike, or the first has met a break that pops a handler and the second has
started that handler. -/
def Agree (flagged lowered source : Outcome (σ × List Event)) : Prop :=
  (flagged = source ∧ lowered = source) ∨
    (Event.mark .padBreak ∈ flagged.state.2 ∧ Event.mark .inlinedPad ∈ lowered.state.2)

/-- `g` keeps the record. -/
def Records (g : Outcome (σ × List Event) → Outcome (σ × List Event)) : Prop :=
  ∀ k o, Event.mark k ∈ o.state.2 → Event.mark k ∈ (g o).state.2

theorem Agree.bind {f l o : Outcome (σ × List Event)}
    {gf gl g : Outcome (σ × List Event) → Outcome (σ × List Event)} (h : Agree f l o)
    (hf : Records gf) (hl : Records gl) (hg : Agree (gf o) (gl o) (g o)) :
    Agree (gf f) (gl l) (g o) := by
  rcases h with ⟨rfl, rfl⟩ | ⟨hpad, hinl⟩
  · exact hg
  · exact .inr ⟨hf _ _ hpad, hl _ _ hinl⟩

theorem Agree.map {f l o : Outcome (σ × List Event)}
    {g : Outcome (σ × List Event) → Outcome (σ × List Event)} (h : Agree f l o)
    (hg : Records g) : Agree (g f) (g l) (g o) :=
  h.bind hg hg (.inl ⟨rfl, rfl⟩)

theorem records_scope : Records (σ := σ) Outcome.scope :=
  fun _ _ h => by rwa [Outcome.scope_state]

theorem records_reraise : Records (Outcome.reraise M.traced.raise) := by
  intro k o h
  cases o <;> exact h

theorem records_release (s : σ × List Event) :
    Records fun o => (o.release (M.traced.leave s)).scope := by
  intro k o h
  rw [Outcome.scope_state]
  cases o <;> exact h

/-- Continue after a normal end. -/
def after (next : σ × List Event → Outcome (σ × List Event)) :
    Outcome (σ × List Event) → Outcome (σ × List Event)
  | .normal s => next s
  | o => o

/-- Continue after a soft crash. -/
def rescue (pad : σ × List Event → Outcome (σ × List Event)) :
    Outcome (σ × List Event) → Outcome (σ × List Event)
  | .crash s => pad s
  | o => o

def RecordsFrom (g : σ × List Event → Outcome (σ × List Event)) : Prop :=
  ∀ k s, Event.mark k ∈ s.2 → Event.mark k ∈ (g s).state.2

theorem RecordsFrom.after {g : σ × List Event → Outcome (σ × List Event)} (h : RecordsFrom g) :
    Records (after g) := by
  intro k o hk
  cases o with
  | normal s => exact h k s hk
  | _ => exact hk

theorem RecordsFrom.rescue {g : σ × List Event → Outcome (σ × List Event)} (h : RecordsFrom g) :
    Records (rescue g) := by
  intro k o hk
  cases o with
  | crash s => exact h k s hk
  | _ => exact hk

theorem recordsFrom_eval (h : t.DeferFree) : RecordsFrom (t.eval M.traced fuel) :=
  fun _ _ hs => seen_eval h hs

theorem eval_chain (cur next : Tree) (s : σ × List Event) :
    (Tree.chain cur next).eval M.traced fuel s =
      after (next.eval M.traced fuel) (cur.eval M.traced fuel s) := by
  simp only [Tree.eval]
  cases cur.eval M.traced fuel s <;> rfl

theorem eval_crashPad (body pad : Tree) (s : σ × List Event) :
    (Tree.crashPad body pad).eval M.traced fuel s =
      rescue (fun s' => (pad.eval M.traced fuel (M.traced.restore s s')).reraise M.traced.raise)
        (body.eval M.traced fuel s) := by
  simp only [Tree.eval]
  cases body.eval M.traced fuel s <;> rfl

theorem iterate_succ (g : σ × List Event → Outcome (σ × List Event)) (rounds : Nat)
    (s : σ × List Event) :
    Machine.iterate g (rounds + 1) s = after (Machine.iterate g rounds) (g s) := by
  simp only [Machine.iterate]
  cases g s <;> rfl

theorem RecordsFrom.iterate {g : σ × List Event → Outcome (σ × List Event)} (h : RecordsFrom g)
    (rounds : Nat) : RecordsFrom (Machine.iterate g rounds) := by
  induction rounds with
  | zero => exact fun _ _ hs => hs
  | succ rounds ih =>
      intro k s hs
      rw [iterate_succ]
      exact ih.after k _ (h k s hs)

theorem Agree.iterate {f l o : σ × List Event → Outcome (σ × List Event)}
    (h : ∀ s, Agree (f s) (l s) (o s)) (hf : RecordsFrom f) (hl : RecordsFrom l)
    (rounds : Nat) (s : σ × List Event) :
    Agree (Machine.iterate f rounds s) (Machine.iterate l rounds s)
      (Machine.iterate o rounds s) := by
  induction rounds generalizing s with
  | zero => exact .inl ⟨rfl, rfl⟩
  | succ rounds ih =>
      simp only [iterate_succ]
      refine (h s).bind (hf.iterate rounds).after (hl.iterate rounds).after ?_
      cases o s with
      | normal s' => exact ih s'
      | _ => exact .inl ⟨rfl, rfl⟩

/-! ## The break -/

/-- No defer is around, and the epilogues on the path contain none. -/
def IdlePath (path : List Frame) : Prop :=
  ∀ f ∈ path, f.isDeferBody = false ∧ ∀ u, f.inlined = some u → u.DeferFree

theorem IdlePath.cons {path : List Frame} {f : Frame} (h : IdlePath path)
    (hf : f.inlined = none) (hd : f.isDeferBody = false) : IdlePath (f :: path) := by
  simpa [IdlePath, hf, hd] using h

theorem IdlePath.padBody {path : List Frame} {pad : Tree} (h : IdlePath path)
    (hpad : pad.DeferFree) : IdlePath (.padBody pad :: path) := by
  simpa [IdlePath, Frame.inlined, Frame.isDeferBody, Tree.DeferFree] using ⟨hpad, h⟩

theorem IdlePath.deferFree_lower {path : List Frame} (h : IdlePath path) (t : Tree) :
    (t.lower path).DeferFree :=
  Tree.deferFree_lower fun f hf u hu => (h f hf).2 u hu

/-- What the break pops: nothing, or a handler first. -/
theorem IdlePath.popped {path : List Frame} (h : IdlePath path) (level : Nat) :
    (popsHandler path level = false ∧ popped path level = []) ∨
      (popsHandler path level = true ∧
        ∃ p es, popped path level = .mark .inlinedPad p :: es ∧ p.DeferFree ∧
          ∀ e ∈ es, e.DeferFree) := by
  unfold popsHandler TreeVM.popped
  generalize level - 1 = n
  induction path generalizing n with
  | nil => simp
  | cons f path ih =>
      cases n with
      | zero => simp
      | succ n =>
          have hpath : IdlePath path := fun g hg => h g (by simp [hg])
          cases f with
          | deferBody d c =>
              exact absurd (h (.deferBody d c) (by simp)).1 (by simp [Frame.isDeferBody])
          | padBody p =>
              have hp : p.DeferFree := (h (.padBody p) (by simp)).2 (.mark .inlinedPad p) rfl
              refine .inr ⟨by simp [Frame.isPadBody], p, _, rfl, hp, fun e he => ?_⟩
              obtain ⟨g, hg, hge⟩ := List.mem_filterMap.mp he
              exact (hpath g (List.mem_of_mem_take hg)).2 e hge
          | _ =>
              simp only [List.take_succ_cons, List.any_cons, List.filterMap_cons, Frame.isPadBody,
                Frame.inlined, Bool.false_or]
              exact ih hpath n

/-- The copied handlers are started. -/
theorem seen_breakBlocks {p : Tree} {es : List Tree} {level : Nat} (hp : p.DeferFree)
    (hes : ∀ e ∈ es, e.DeferFree) (s : σ × List Event) :
    Event.mark .inlinedPad ∈ ((Tree.breakBlocks (.mark .inlinedPad p :: es) level).eval
      M.traced fuel s).state.2 := by
  have hrest : (Tree.sequence (es ++ [.brk (level + 1)])).DeferFree := by
    refine Tree.deferFree_sequence fun e he => ?_
    rcases List.mem_append.mp he with he | he
    · exact hes e he
    · rw [List.mem_singleton.mp he]
      trivial
  have h : (M.seen .inlinedPad).Triple fuel (fun _ => True)
      (Tree.breakBlocks (.mark .inlinedPad p :: es) level) fun o => o.state := by
    have keeps : ∀ {u : Tree}, u.DeferFree →
        (M.seen .inlinedPad).Triple fuel (fun q => q) u fun o => o.state :=
      fun hu => Watch.triple_keeps hu (.inr fun _ _ hq => .inl hq)
    refine Watch.triple_many (Watch.triple_chain (R := fun q => q) ?_ ((keeps hrest).post ?_))
    · refine Watch.triple_mark (R := fun q => q) (fun _ _ => .inr rfl) ((keeps hp).post ?_)
      intro o ho
      cases o with
      | brk k q =>
          simp only [Outcome.close, Outcome.leftBy, Outcome.onNormal, Outcome.scope_state]
          exact .inl ho
      | crash q => exact Or.inl ho
      | _ => exact ho
    · exact fun o ho => by rwa [Outcome.scope_state]
  simpa [Machine.seen] using h s trivial

theorem idle_lower {path : List Frame} (hfree : t.DeferFree) (hplain : t.Unmarked)
    (hpath : IdlePath path) (s : σ × List Event) :
    Agree ((t.flag path).eval M.traced fuel s) ((t.lower path).eval M.traced fuel s)
      (t.eval M.traced fuel s) := by
  induction t generalizing path s with
  | basic ops => exact .inl ⟨rfl, rfl⟩
  | stop => exact .inl ⟨rfl, rfl⟩
  | crash => exact .inl ⟨rfl, rfl⟩
  | hardCrash => exact .inl ⟨rfl, rfl⟩
  | defer id next cleanup _ _ => exact hfree.elim
  | many body ih =>
      exact (ih hfree hplain (hpath.cons (f := .scope) rfl rfl) s).map records_scope
  | chain cur next ihc ihn =>
      have hcur := ihc hfree.1 hplain.1 hpath s
      have hf : RecordsFrom ((next.flag path).eval M.traced fuel) :=
        recordsFrom_eval (Tree.deferFree_flag hfree.2 path)
      have hl : RecordsFrom ((next.lower path).eval M.traced fuel) :=
        recordsFrom_eval (hpath.deferFree_lower next)
      simp only [Tree.flag, Tree.lower, eval_chain]
      refine hcur.bind (g := after (next.eval M.traced fuel)) hf.after hl.after ?_
      cases cur.eval M.traced fuel s with
      | normal s' => exact ihn hfree.2 hplain.2 hpath s'
      | _ => exact .inl ⟨rfl, rfl⟩
  | crashPad body pad ihb ihp =>
      have hhandler := hpath.cons (f := .handler) rfl rfl
      have hpad := hhandler.deferFree_lower pad
      have hbody := ihb hfree.1 hplain.1 (hpath.padBody hpad) s
      have records : ∀ {u : Tree}, u.DeferFree → RecordsFrom fun s' =>
          (u.eval M.traced fuel (M.traced.restore s s')).reraise M.traced.raise :=
        fun hu k s' hs' => records_reraise k _ (recordsFrom_eval hu k (M.traced.restore s s') hs')
      simp only [Tree.flag, Tree.lower, eval_crashPad]
      refine hbody.bind (g := rescue _) (records (Tree.deferFree_flag hfree.2 _)).rescue
        (records hpad).rescue ?_
      cases body.eval M.traced fuel s with
      | crash s' => exact (ihp hfree.2 hplain.2 hhandler _).map records_reraise
      | _ => exact .inl ⟨rfl, rfl⟩
  | branch cond yes no ihy ihn =>
      simp only [Tree.flag, Tree.lower, Tree.eval]
      cases M.traced.runOps (M.traced.range cond) s with
      | ok s' =>
          simp only [Step.outcome]
          split
          · exact ihy hfree.1 hplain.1 (hpath.cons (f := .arm) rfl rfl) _
          · exact ihn hfree.2 hplain.2 (hpath.cons (f := .arm) rfl rfl) _
      | _ => exact .inl ⟨rfl, rfl⟩
  | loop body ih =>
      have hscope := hpath.cons (f := .scope) rfl rfl
      exact (Agree.iterate (ih hfree hplain hscope)
        (recordsFrom_eval (Tree.deferFree_flag hfree _))
        (recordsFrom_eval (hscope.deferFree_lower body)) fuel s).map records_scope
  | brk level =>
      rcases hpath.popped level with ⟨hpops, hpopped⟩ | ⟨hpops, p, es, hpopped, hp, hes⟩
      · exact .inl ⟨by simp [Tree.flag, hpops], by simp [Tree.lower, hpopped, Tree.breakBlocks]⟩
      · refine .inr ⟨by simp [Tree.flag, hpops, Tree.eval, Machine.traced, Outcome.close,
          Outcome.state], ?_⟩
        simp only [Tree.lower, hpopped]
        exact seen_breakBlocks hp hes s
  | var v body ih =>
      simp only [Tree.flag, Tree.lower, Tree.eval]
      cases M.traced.enter v s with
      | ok s' =>
          exact (ih hfree hplain (hpath.cons (f := .scope) rfl rfl) s').map (records_release s)
      | _ => exact .inl ⟨rfl, rfl⟩
  | mark k t _ => exact hplain.elim

/-- From an empty record, lowering changes a run exactly if the run meets a break that pops a
handler. -/
theorem eval_lower_idle_iff (hfree : t.DeferFree) (hplain : t.Unmarked) (s : σ) :
    (t.lower []).eval M.traced fuel (s, []) = t.eval M.traced fuel (s, []) ↔
      Event.mark .padBreak ∉ ((t.flag []).eval M.traced fuel (s, [])).state.2 := by
  have source : ∀ k, Event.mark k ∉ (t.eval M.traced fuel (s, [])).state.2 :=
    fun k => not_seen_eval hfree hplain (by simp)
  have hpath : IdlePath [] := by simp [IdlePath]
  have hagree : Agree ((t.flag []).eval M.traced fuel (s, []))
      ((t.lower []).eval M.traced fuel (s, [])) (t.eval M.traced fuel (s, [])) :=
    idle_lower hfree hplain hpath (s, [])
  rcases hagree with ⟨hflag, hlower⟩ | ⟨hpad, hinl⟩
  · rw [hflag, hlower]
    exact ⟨fun _ => source _, fun _ => rfl⟩
  · refine ⟨fun heq => ?_, fun hno => absurd hpad hno⟩
    rw [heq] at hinl
    exact absurd hinl (source _)

end Eval

/-- For every tree without defers and every run: the lowered tree ends as the source tree does,
with the same record, if and only if the run meets no break that pops the handler of a crash
pad. -/
theorem removeDefers_idle {blocks : List Block} {t : Tree} (h : RepresentsTree blocks t)
    (hfree : t.DeferFree) (hplain : t.Unmarked) (hlev : t.LevelsWithin 0) :
    ∃ out, (∀ fuel, t.size ≤ fuel → removeDefers fuel blocks = some out) ∧
      RepresentsTree out (t.lower []) ∧ RepresentsTree blocks (t.flag []) ∧
      ∀ (σ : Type) (M : Machine σ) (fuel : Nat) (s : σ),
        ((t.lower []).eval M.traced fuel (s, []) = t.eval M.traced fuel (s, []) ↔
          Event.mark .padBreak ∉ ((t.flag []).eval M.traced fuel (s, [])).state.2) := by
  obtain ⟨out, hrun, hout⟩ := removeDefers_represents h hlev
  exact ⟨out, hrun, hout, Tree.represents_flag h [],
    fun σ M fuel s => eval_lower_idle_iff hfree hplain s⟩

/-! ## Lowering twice -/

namespace Tree

/-- The tree without its annotations. -/
def erase : Tree → Tree
  | defer id next cleanup => defer id next.erase cleanup.erase
  | many body => many body.erase
  | chain cur next => chain cur.erase next.erase
  | crashPad body pad => crashPad body.erase pad.erase
  | branch cond yes no => branch cond yes.erase no.erase
  | loop body => loop body.erase
  | var v body => var v body.erase
  | mark _ t => t.erase
  | t => t

theorem represents_erase {S : Nat → Prop} {bs : List Block} {p : Place} {t : Tree}
    (h : Represents S bs p t) : Represents S bs p t.erase := by
  induction h with
  | basic hi hb => exact .basic hi hb
  | defer hi hb _ _ ihn ihc => exact .defer hi hb ihn ihc
  | many hi hb _ ih => exact .many hi hb ih
  | crash hi hb => exact .crash hi hb
  | hardCrash hi hb => exact .hardCrash hi hb
  | crashPad hi hb _ _ ihb ihp => exact .crashPad hi hb ihb ihp
  | branch hi hb _ _ ihy ihn => exact .branch hi hb ihy ihn
  | loop hi hb _ ih => exact .loop hi hb ih
  | brk hi hb => exact .brk hi hb
  | var hi hb _ ih => exact .var hi hb ih
  | mark _ ih => exact ih
  | stop => exact .stop
  | last _ ih => exact .last ih
  | link _ hl hb _ ih ihs => exact .link ih hl hb ihs

theorem unmarked_erase (t : Tree) : t.erase.Unmarked := by
  induction t <;> simp_all [erase, Unmarked]

theorem deferFree_erase {t : Tree} (h : t.DeferFree) : t.erase.DeferFree := by
  induction t <;> simp_all [erase, DeferFree]

theorem levelsWithin_erase {t : Tree} {depth : Nat} (h : t.LevelsWithin depth) :
    t.erase.LevelsWithin depth := by
  induction t generalizing depth <;> simp_all [erase, LevelsWithin]

theorem LevelsWithin.mono {t : Tree} {depth depth' : Nat} (h : t.LevelsWithin depth)
    (hle : depth ≤ depth') : t.LevelsWithin depth' := by
  induction t generalizing depth depth' with
  | defer id next cleanup ihn ihc =>
      exact ⟨ihn h.1 (Nat.succ_le_succ hle), ihc h.2 (Nat.succ_le_succ hle)⟩
  | many body ih => exact ih h (Nat.succ_le_succ hle)
  | chain cur next ihc ihn => exact ⟨ihc h.1 hle, ihn h.2 hle⟩
  | crashPad body pad ihb ihp =>
      exact ⟨ihb h.1 (Nat.succ_le_succ hle), ihp h.2 (Nat.succ_le_succ hle)⟩
  | branch cond yes no ihy ihn =>
      exact ⟨ihy h.1 (Nat.succ_le_succ hle), ihn h.2 (Nat.succ_le_succ hle)⟩
  | loop body ih => exact ih h (Nat.succ_le_succ hle)
  | brk level => exact Nat.le_trans h (Nat.succ_le_succ hle)
  | var v body ih => exact ih h (Nat.succ_le_succ hle)
  | mark k t ih => exact ih h hle
  | _ => trivial

theorem levelsWithin_sequence {ts : List Tree} {depth : Nat}
    (h : ∀ t ∈ ts, t.LevelsWithin depth) : (sequence ts).LevelsWithin depth := by
  induction ts with
  | nil => trivial
  | cons t ts ih => exact ⟨h t (by simp), ih fun u hu => h u (by simp [hu])⟩

/-- The epilogues on the path meet the assertion wherever they are copied to. -/
def EpiloguesWithin (depth : Nat) (path : List Frame) : Prop :=
  ∀ f ∈ path, ∀ u, f.inlined = some u → u.LevelsWithin depth

theorem EpiloguesWithin.cons {path : List Frame} {f : Frame} {depth depth' : Nat}
    (h : EpiloguesWithin depth path) (hle : depth ≤ depth')
    (hf : ∀ u, f.inlined = some u → u.LevelsWithin depth') :
    EpiloguesWithin depth' (f :: path) := by
  intro g hg u hu
  rcases List.mem_cons.mp hg with rfl | hg
  · exact hf u hu
  · exact (h g hg u hu).mono hle

theorem EpiloguesWithin.plain {path : List Frame} {f : Frame} {depth : Nat}
    (h : EpiloguesWithin depth path) (hf : f.inlined = none) :
    EpiloguesWithin (depth + 1) (f :: path) :=
  h.cons (Nat.le_succ _) (by simp [hf])

/-- The assertion of the pass holds of its output: each added block gives every break below it
one more entry on the stack. -/
theorem levelsWithin_lower {t : Tree} {path : List Frame} {depth depth' : Nat}
    (h : t.LevelsWithin depth) (hle : depth ≤ depth') (hpath : EpiloguesWithin depth' path) :
    (t.lower path).LevelsWithin depth' := by
  induction t generalizing path depth depth' with
  | defer id next cleanup ihn ihc =>
      have hc : (cleanup.lower (.cleanup :: path)).LevelsWithin (depth' + 1) :=
        ihc h.2 (Nat.succ_le_succ hle) (hpath.plain rfl)
      have hc' := hc.mono (Nat.le_succ _)
      have hstack : EpiloguesWithin (depth' + 2)
          (.deferBody id (cleanup.lower (.cleanup :: path)) :: path) :=
        hpath.cons (Nat.le_add_right _ 2) fun u hu => by cases hu; exact hc'
      have hn := ihn h.1 (Nat.succ_le_succ (Nat.le_succ_of_le hle)) hstack
      exact ⟨⟨hn, hc'⟩, hc, trivial⟩
  | many body ih => exact ih h (Nat.succ_le_succ hle) (hpath.plain rfl)
  | chain cur next ihc ihn => exact ⟨ihc h.1 hle hpath, ihn h.2 hle hpath⟩
  | crashPad body pad ihb ihp =>
      have hp : (pad.lower (.handler :: path)).LevelsWithin (depth' + 1) :=
        ihp h.2 (Nat.succ_le_succ hle) (hpath.plain rfl)
      have hstack : EpiloguesWithin (depth' + 1) (.padBody (pad.lower (.handler :: path)) :: path) :=
        hpath.cons (Nat.le_succ _) fun u hu => by cases hu; exact hp
      exact ⟨ihb h.1 (Nat.succ_le_succ hle) hstack, hp⟩
  | branch cond yes no ihy ihn =>
      exact ⟨ihy h.1 (Nat.succ_le_succ hle) (hpath.plain rfl),
        ihn h.2 (Nat.succ_le_succ hle) (hpath.plain rfl)⟩
  | loop body ih => exact ih h (Nat.succ_le_succ hle) (hpath.plain rfl)
  | brk level =>
      have hlevel : level ≤ depth' + 1 := Nat.le_trans h (Nat.succ_le_succ hle)
      simp only [lower, breakBlocks]
      split
      · exact hlevel
      · refine levelsWithin_sequence fun e he => ?_
        rcases List.mem_append.mp he with he | he
        · obtain ⟨f, hf, hfe⟩ := List.mem_filterMap.mp he
          exact (hpath f (List.mem_of_mem_take hf) e hfe).mono (Nat.le_succ _)
        · rw [List.mem_singleton.mp he]
          exact Nat.succ_le_succ hlevel
  | var v body ih => exact ih h (Nat.succ_le_succ hle) (hpath.plain rfl)
  | mark k t ih => exact ih h hle hpath
  | _ => trivial

end Tree

/-- Lowering the output of the pass again changes a run exactly if it meets a break that pops the
handler of a crash pad, which the first lowering may have put there for a defer. -/
theorem removeDefers_again {blocks : List Block} {t : Tree} (h : RepresentsTree blocks t)
    (hlev : t.LevelsWithin 0) :
    ∃ out again, (∀ fuel, t.size ≤ fuel → removeDefers fuel blocks = some out) ∧
      RepresentsTree out (t.lower []).erase ∧
      (∀ fuel, (t.lower []).erase.size ≤ fuel → removeDefers fuel out = some again) ∧
      RepresentsTree again ((t.lower []).erase.lower []) ∧
      ∀ (σ : Type) (M : Machine σ) (fuel : Nat) (s : σ),
        (((t.lower []).erase.lower []).eval M.traced fuel (s, []) =
            (t.lower []).erase.eval M.traced fuel (s, []) ↔
          Event.mark .padBreak ∉
            (((t.lower []).erase.flag []).eval M.traced fuel (s, [])).state.2) := by
  obtain ⟨out, hrun, hout⟩ := removeDefers_represents h hlev
  have hfree : (t.lower []).DeferFree := Tree.deferFree_lower (by simp)
  have hlower : (t.lower []).LevelsWithin 0 :=
    Tree.levelsWithin_lower hlev (Nat.le_refl 0) (by simp [Tree.EpiloguesWithin])
  obtain ⟨again, hrun', hagain⟩ := removeDefers_represents (Tree.represents_erase hout)
    (Tree.levelsWithin_erase hlower)
  exact ⟨out, again, hrun, Tree.represents_erase hout, hrun', hagain, fun σ M fuel s =>
    eval_lower_idle_iff (Tree.deferFree_erase hfree) (Tree.unmarked_erase _) s⟩

/-! ## A break out of a crash pad

The break leaves the two sequences around the crash pad; the pass runs its handler first. -/

def leftPad : List Block :=
  [.many (some 1) none, .many (some 2) none, .crashPad 3 4, .brk 2, .basic ⟨0, 1⟩]

def leftPadTree : Tree :=
  .many (.chain (.many (.chain (.crashPad (.brk 2) (.basic ⟨0, 1⟩)) .stop)) .stop)

/-- A machine with one operation. -/
def oneOpMachine : Machine Unit where
  ops := [⟨.bitNotAssign, 0⟩]
  op _ s := .ok s
  discard _ s := s
  test s := (true, s)
  enter _ s := .ok s
  leave _ s := s
  restore _ s := s
  raise s := s
  hard s := s
  note _ s := s

theorem leftPad_represents : RepresentsTree leftPad leftPadTree :=
  .many trivial rfl (.last (.many trivial rfl (.last (.crashPad trivial rfl (.brk trivial rfl)
    (.basic trivial rfl)))))

theorem leftPad_runs_handler :
    RepresentsTree leftPad leftPadTree ∧ leftPadTree.DeferFree ∧ leftPadTree.BreaksLegal ∧
      (∃ out, removeDefers leftPadTree.size leftPad = some out ∧
        RepresentsTree out (leftPadTree.lower [])) ∧
      leftPadTree.eval oneOpMachine.traced 0 ((), []) = .normal ((), []) ∧
      (leftPadTree.lower []).eval oneOpMachine.traced 0 ((), []) =
        .normal ((), [.mark .inlinedPad, .op ⟨.bitNotAssign, 0⟩]) := by
  have hlegal : leftPadTree.BreaksLegal := by
    simp [Tree.BreaksLegal, leftPadTree, Tree.BreaksIn, Tree.scopes, Frame.counted]
  refine ⟨leftPad_represents, by simp [leftPadTree, Tree.DeferFree], hlegal, ?_, by decide,
    by decide⟩
  obtain ⟨out, hrun, hout⟩ := removeDefers_represents leftPad_represents hlegal.levelsWithin
  exact ⟨out, hrun _ (Nat.le_refl _), hout⟩

theorem removeDefers_idle_leftPad :
    ∃ out, (∀ fuel, leftPadTree.size ≤ fuel → removeDefers fuel leftPad = some out) ∧
      RepresentsTree out (leftPadTree.lower []) ∧ RepresentsTree leftPad (leftPadTree.flag []) ∧
      ∀ (σ : Type) (M : Machine σ) (fuel : Nat) (s : σ),
        ((leftPadTree.lower []).eval M.traced fuel (s, []) =
            leftPadTree.eval M.traced fuel (s, []) ↔
          Event.mark .padBreak ∉ ((leftPadTree.flag []).eval M.traced fuel (s, [])).state.2) :=
  removeDefers_idle leftPad_represents (by simp [leftPadTree, Tree.DeferFree])
    (by simp [leftPadTree, Tree.Unmarked]) (by simp [leftPadTree, Tree.LevelsWithin])

end TreeVM
