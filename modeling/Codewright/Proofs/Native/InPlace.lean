import Codewright.Proofs.Native.InPlaceForm

/-!
# The in-place form stays scoped

Temporaries are new locals, so each is stored into once and no other node mentions it. What was
scoped stays so with the temporaries added to the locals that are known and that have been met
(`Widened`).
-/

namespace Codewright.Native

open Codewright.Tree (ScopedExpr Scoped StoreScoped InOrder)

/-! ## What is kept -/

/-- What becomes of the locals `ds` that trees define and of the locals `xs` that they mention,
where the first `n` of `m` locals are no temporaries. -/
structure Kept (n m : Nat) (ds xs ds' xs' : List LocalId) : Prop where
  defines : ∀ x ∈ ds, x ∈ ds'
  mentions : ∀ x ∈ xs', x < n → x ∈ xs
  below : ∀ x ∈ xs', x < m

/-- Locals that are known and have been met, without and with the temporaries among `m` locals. -/
structure Widened (n m : Nat) (Γ U Γ' U' : Set LocalId) : Prop where
  known : Γ ⊆ Γ'
  met : ∀ x ∈ U', x < n → x ∈ U
  below : ∀ x ∈ U', x < m

section

variable {n m m' : Nat} {s s' : Temporaries} {t t' : Tree} {ts ts' : List Tree}
  {ds xs ds' xs' : List LocalId} {Γ U Γ' U' : Set LocalId} {again : Bool}

/-- A tree with stores added mentions what it has mentioned and the new locals. -/
theorem Keeps.kept (h : Keeps ts' (s.since s') ts) (hg : s.Grown s')
    (hts : ∀ x ∈ Tree.mentionsAll ts, x < n) (hn : n ≤ s.locals.size) :
    Kept n s'.locals.size (Tree.definesAll ts) (Tree.mentionsAll ts) (Tree.definesAll ts')
      (Tree.mentionsAll ts') := by
  have hle := hg.size_le
  have hmentions : ∀ x ∈ Tree.mentionsAll ts',
      x ∈ Tree.mentionsAll ts ∨ s.locals.size ≤ x ∧ x < s'.locals.size := by
    intro x hx
    rw [Tree.mem_mentionsAll, h.loads, ← List.count_pos_iff (l := Tree.storesAll ts'),
      h.stores] at hx
    rw [Tree.mem_mentionsAll]
    by_cases hold : x ∈ Tree.loadsAll ts ∨ x ∈ Tree.storesAll ts
    · exact .inl hold
    · obtain ⟨hload, hstore⟩ := not_or.mp hold
      have hx := hx.resolve_left hload
      rw [List.count_eq_zero.mpr hstore, Nat.zero_add, List.count_pos_iff, Temporaries.since,
        List.mem_range'_1, Nat.add_sub_cancel' hle] at hx
      exact .inr hx
  refine ⟨h.defines, fun x hx hlt => (hmentions x hx).resolve_right ?_, fun x hx => ?_⟩
  · exact fun hnew => Nat.not_lt.mpr (Nat.le_trans hn hnew.1) hlt
  · rcases hmentions x hx with hx | hx
    · exact Nat.lt_of_lt_of_le (hts x hx) (Nat.le_trans hn hle)
    · exact hx.2

/-- A tree in place mentions no other locals than before, temporaries apart. -/
theorem Dressed.kept (h : Dressed s t t' s') (ht : ∀ x ∈ t.mentions, x < n)
    (hn : n ≤ s.locals.size) :
    Kept n s'.locals.size t.defines t.mentions t'.defines t'.mentions := by
  simpa [Tree.definesAll] using h.erases.keeps.kept h.grown (by simpa using ht) hn

theorem Dressed.extended (h : Dressed s t t' s') : Extended s.locals s'.locals where
  size_le := h.grown.size_le
  kept := fun x hx => by rw [declared, declared, h.grown.kept x hx]
  new := by
    intro x ty p hx hd
    have hlt : x < s'.locals.size := by
      by_contra hge
      rw [declared_eq_none.mpr (Nat.le_of_not_lt hge)] at hd
      cases hd
    obtain ⟨u, -, -, hentry⟩ := h.enrolled x hx hlt
    rw [declared, hentry] at hd
    cases hd
    rfl

/-- More locals in scope stay more after a part. -/
theorem Widened.after (h : Widened n m Γ U Γ' U') (hm : m ≤ m') (hk : Kept n m' ds xs ds' xs') :
    Widened n m' (withLocals Γ ds) (withLocals U xs) (withLocals Γ' ds') (withLocals U' xs') where
  known := fun x hx => hx.imp (fun hx => h.known hx) (hk.defines x)
  met := fun x hx hn => hx.imp (h.met x · hn) (hk.mentions x · hn)
  below := fun x hx => hx.elim (fun hx => Nat.lt_of_lt_of_le (h.below x hx) hm) (hk.below x)

/-- A condition leaves what it mentions behind; what it defines is not relied on. -/
theorem Widened.met_after (h : Widened n m Γ U Γ' U') (hm : m ≤ m') (hk : Kept n m' ds xs ds' xs') :
    Widened n m' Γ (withLocals U xs) Γ' (withLocals U' xs') where
  known := h.known
  met := (h.after hm hk).met
  below := (h.after hm hk).below

theorem Widened.store (h : Widened n m Γ U Γ' U') {store : Option LocalId}
    (hs : ∀ x, store = some x → x < n) (hst : StoreScoped again Γ U store) :
    StoreScoped again Γ' U' store :=
  hst.mono (fun _ _ hx => h.known hx) fun x hx hx' => h.met x hx' (hs x hx)

/-! ## Stores into temporaries -/

/-- An expression may store into a local that is new. -/
theorem scopedExpr_withStore (h : ScopedExpr again Γ U t) {y : LocalId}
    (hy : y ∉ withLocals U t.mentions) : ScopedExpr again Γ U (t.withStore (some y)) := by
  induction t using Tree.induction with
  | const | failFast =>
    intro z hz
    cases hz
    exact .inl fun hz => hy (.inl hz)
  | load tag x =>
    refine ⟨h.1, fun z hz => ?_⟩
    cases hz
    refine .inl fun hz => hy (hz.imp_right fun hz => ?_)
    rw [List.mem_singleton.mp hz]
    simp [Tree.mentions, Tree.loads]
  | operator t f hf _ =>
    rw [Tree.scopedExpr_operator (by rw [Tree.operator?_withStore, hf]), Tree.store_withStore]
    refine ⟨((Tree.scopedExpr_operator hf).mp h).1, fun z hz => ?_⟩
    cases hz
    exact .inl fun hz => hy (hz.imp_right fun hz => (Tree.mem_mentions_operator hf).mpr (.inl hz))
  | seq | ifThen | ifElse | loop | ret | retValue => exact h.elim

/-- A kept operand is in scope. -/
theorem scoped_keep (hU : ∀ x ∈ U, x < s.locals.size) (hb : ∀ x ∈ t.mentions, x < s.locals.size)
    (h : ScopedExpr again Γ U t) : ScopedExpr again Γ U (s.keep t).1 := by
  unfold Temporaries.keep
  cases hs : t.store with
  | some x => exact h
  | none =>
    refine scopedExpr_withStore h ?_
    rintro (hx | hx)
    · exact absurd (hU _ hx) (Nat.lt_irrefl _)
    · exact absurd (hb _ hx) (Nat.lt_irrefl _)

theorem scoped_keepAs (hd : Dressed s t t' s') (ht : ∀ x ∈ t.mentions, x < n)
    (hn : n ≤ s.locals.size)
    (hU : ∀ x ∈ U, x < s.locals.size) (h : ScopedExpr false Γ U t') (real : Bool) :
    ScopedExpr false Γ U (s'.keepAs real t').1 := by
  have hs := scoped_keep (fun x hx => Nat.lt_of_lt_of_le (hU x hx) hd.grown.size_le)
    (hd.kept ht hn).below h
  unfold Temporaries.keepAs
  dsimp only
  split
  · refine scoped_keep (fun x hx => Nat.lt_of_lt_of_le (hU x hx) hd.keep.grown.size_le) ?_
      ⟨hs, fun _ hstore => by cases hstore⟩
    simpa [Tree.mem_mentions, Tree.loads, Tree.stores] using (hd.keep.kept ht hn).below
  · exact hs

/-! ## Whole trees -/

/-- One after the other, rewritten trees stay scoped if each of them does. -/
theorem scoped_partAll {P : Set LocalId → Set LocalId → Tree → Prop} (kept : Option Bool)
    (ih : ∀ t ∈ ts, ∀ (s : Temporaries) (Γ U Γ' U' : Set LocalId), (∀ x ∈ t.mentions, x < n) →
      n ≤ s.locals.size → Widened n s.locals.size Γ U Γ' U' → P Γ U t → P Γ' U' (s.part kept t).1)
    (hts : ∀ x ∈ Tree.mentionsAll ts, x < n) (hn : n ≤ s.locals.size)
    (hw : Widened n s.locals.size Γ U Γ' U') (h : InOrder P Γ U ts) :
    InOrder P Γ' U' (s.partAll kept ts).1 := by
  induction ts generalizing s Γ U Γ' U' with
  | nil => trivial
  | cons t rest ihrest =>
    simp only [Tree.mentionsAll_cons, List.mem_append] at hts
    have ht : ∀ x ∈ t.mentions, x < n := fun x hx => hts x (.inl hx)
    have hd := (dressed_node t s).part kept
    refine ⟨ih t List.mem_cons_self s Γ U Γ' U' ht hn hw h.1, ?_⟩
    exact ihrest (fun t ht => ih t (List.mem_cons_of_mem _ ht)) (fun x hx => hts x (.inr hx))
      (Nat.le_trans hn hd.grown.size_le) (hw.after hd.grown.size_le (hd.kept ht hn)) h.2

/-- The in-place form of an expression is scoped. -/
theorem scopedExpr_node (t : Tree) (s : Temporaries) (ht : ∀ x ∈ t.mentions, x < n)
    (hn : n ≤ s.locals.size) (hw : Widened n s.locals.size Γ U Γ' U') (h : ScopedExpr again Γ U t) :
    ScopedExpr again Γ' U' (s.node t).1 := by
  induction t using Tree.induction generalizing s again Γ U Γ' U' with
  | const tag value | failFast tag =>
    exact hw.store (fun x hx => ht x (by simpa [Tree.mentions, Tree.loads, Tree.stores] using hx)) h
  | load tag x =>
    refine ⟨hw.known h.1, StoreScoped.mono (fun _ _ hx => hw.known hx) (fun y hy hy' => ?_) h.2⟩
    have hlt := ht y (by simp [Tree.mentions, Tree.stores, hy])
    exact hy'.imp_left (hw.met y · hlt)
  | operator t f hf ih =>
    have hm : ∀ x, x ∈ Tree.mentionsAll f.operands ∨ t.store = some x → x < n := fun x hx =>
      ht x ((Tree.mem_mentions_operator hf).mpr hx)
    obtain ⟨hf', htag, -⟩ := Temporaries.node_operator hf s
    have hstore : (s.node t).1.store = t.store := by rw [Tree.store, htag, Tree.store]
    obtain ⟨hops, hst⟩ := (Tree.scopedExpr_operator hf).mp h
    have hd : DressedAll s f.operands _ _ :=
      dressedAll_partAll (fun a _ => dressed_node a) s (some (promotes t))
    have hk := hd.erases.keeps.kept hd.grown (fun x hx => hm x (.inl hx)) hn
    rw [Tree.scopedExpr_operator hf', hstore]
    refine ⟨scoped_partAll _ (fun a ha s _ _ _ _ h hn hw hs =>
      scoped_keepAs (dressed_node a s) h hn hw.below (ih a ha s h hn hw hs) _)
      (fun x hx => hm x (.inl hx)) hn hw hops, ?_⟩
    exact (hw.after hd.grown.size_le hk).store (fun x hx => hm x (.inr hx)) hst
  | seq | ifThen | ifElse | loop | ret | retValue => exact h.elim

/-- The in-place form of a statement is scoped. -/
theorem scoped_node (t : Tree) (s : Temporaries) (ht : ∀ x ∈ t.mentions, x < n)
    (hn : n ≤ s.locals.size) (hw : Widened n s.locals.size Γ U Γ' U') (h : Scoped Γ U t) :
    Scoped Γ' U' (s.node t).1 := by
  induction t using Tree.induction generalizing s Γ U Γ' U' with
  | const | load | failFast => exact scopedExpr_node _ s ht hn hw (h : ScopedExpr true Γ U _)
  | operator t f hf _ =>
    rw [Tree.scoped_operator hf] at h
    rw [Tree.scoped_operator (Temporaries.node_operator hf s).1]
    exact scopedExpr_node t s ht hn hw h
  | seq tag body ih =>
    obtain ⟨hs, hbody⟩ := Tree.scoped_seq.mp h
    rw [Temporaries.node_seq]
    refine Tree.scoped_seq.mpr ⟨hs, scoped_partAll none (fun a ha s _ _ _ _ h hn hw h' =>
      ih a ha s h hn hw h') (fun x hx => ht x (Tree.mem_mentions_seq.mpr (.inl hx))) hn hw hbody⟩
  | ifThen tag c y _ ihy =>
    obtain ⟨hs, hc, hy⟩ := h
    have hmc : ∀ x ∈ c.mentions, x < n := fun x hx => ht x (Tree.mem_mentions_ifThen.mpr (.inl hx))
    have hd := dressed_node c s
    have hw' := hw.met_after hd.grown.size_le (hd.kept hmc hn)
    exact ⟨hs, scopedExpr_node c s hmc hn hw hc,
      ihy (s.node c).2 (fun x hx => ht x (Tree.mem_mentions_ifThen.mpr (.inr (.inl hx))))
        (Nat.le_trans hn hd.grown.size_le) hw' hy⟩
  | ifElse tag c y e _ ihy ihe =>
    obtain ⟨hs, hc, hy, he⟩ := h
    have hmc : ∀ x ∈ c.mentions, x < n := fun x hx => ht x (Tree.mem_mentions_ifElse.mpr (.inl hx))
    have hmy : ∀ x ∈ y.mentions, x < n := fun x hx =>
      ht x (Tree.mem_mentions_ifElse.mpr (.inr (.inl hx)))
    have hd := dressed_node c s
    have hn₁ := Nat.le_trans hn hd.grown.size_le
    have hw' := hw.met_after hd.grown.size_le (hd.kept hmc hn)
    have hdy := dressed_node y (s.node c).2
    refine ⟨hs, scopedExpr_node c s hmc hn hw hc, ihy (s.node c).2 hmy hn₁ hw' hy, ?_⟩
    rw [withLocals_append] at he ⊢
    exact ihe ((s.node c).2.node y).2
      (fun x hx => ht x (Tree.mem_mentions_ifElse.mpr (.inr (.inr (.inl hx)))))
      (Nat.le_trans hn₁ hdy.grown.size_le) (hw'.met_after hdy.grown.size_le (hdy.kept hmy hn₁)) he
  | loop tag c b _ ihb =>
    obtain ⟨hs, hc, hb⟩ := h
    have hmc : ∀ x ∈ c.mentions, x < n := fun x hx => ht x (Tree.mem_mentions_loop.mpr (.inl hx))
    have hd := dressed_node c s
    have hw' := hw.met_after hd.grown.size_le (hd.kept hmc hn)
    exact ⟨hs, scopedExpr_node c s hmc hn hw hc,
      ihb (s.node c).2 (fun x hx => ht x (Tree.mem_mentions_loop.mpr (.inr (.inl hx))))
        (Nat.le_trans hn hd.grown.size_le) hw' hb⟩
  | ret tag => exact h
  | retValue tag v _ =>
    have hmv : ∀ x ∈ v.mentions, x < n :=
      fun x hx => ht x (Tree.mem_mentions_retValue.mpr (.inl hx))
    exact ⟨h.1, scopedExpr_node v s hmv hn hw h.2⟩

end

end Codewright.Native

namespace Codewright.Routine

open Native

variable {r : Routine}

theorem extended_toInPlace (r : Routine) : Extended r.locals r.toInPlace.1.locals :=
  r.dressed_toInPlace.extended

theorem parameters_toInPlace (r : Routine) : r.toInPlace.1.parameters = r.parameters := by
  have hext := r.extended_toInPlace
  ext x
  rw [mem_parameters, mem_parameters]
  by_cases hx : x < r.locals.size
  · rw [hext.kept x hx]
  · have hx := Nat.le_of_not_lt hx
    rw [declared_eq_none.mpr hx]
    constructor
    · rintro ⟨ty, h⟩
      exact absurd (hext.new x ty true hx h) (by simp)
    · rintro ⟨ty, h⟩
      cases h

/-- The in-place form of a routine is well scoped. -/
theorem WellScoped.toInPlace (h : r.WellScoped) : r.toInPlace.1.WellScoped where
  params := by rw [parameters_toInPlace]; exact h.params
  paramCount_lt := Nat.lt_of_lt_of_le h.paramCount_lt r.extended_toInPlace.size_le
  inScope := by
    rw [parameters_toInPlace]
    refine scoped_node r.body { locals := r.locals } h.inTable (le_refl _) ?_ h.inScope
    refine ⟨fun _ hx => hx, fun _ hx _ => hx, fun x hx => ?_⟩
    obtain ⟨l, hl, -⟩ := hx
    exact (Array.getElem?_eq_some_iff.mp hl).1
  inTable := (r.dressed_toInPlace.kept h.inTable (le_refl _)).below

end Codewright.Routine
