import Codewright.Proofs.Allocation

/-!
# Evaluation over shared places

A tree is evaluated twice side by side: over separate locals, and over a memory of places that
several locals share. If the intervals chart the tree and the places keep live locals apart, the two
runs agree: they have the same events, loads give the same values, and they end alike.

At a point of the evaluation the memories agree on the locals that are `live` there: those known
that are read at that point or later, and those that an enclosing loop may read in its next round.
The latter are `pinned`. One lemma carries the argument, `Agree.store`: a store into a local at a
point of its interval destroys no other local that is live after it.
-/

namespace Codewright

open Evaluation Steps

namespace Evaluation

variable {V E : Type}

/-- The locals kept at their places: a store to a local without a place is dropped, and an operand
that was stored is read back. -/
def placed (place : LocalId → Storage) : Keeping V (Storage → V) where
  read m x := m (place x)
  write m x v := if place x = .unassigned then m else Function.update m (place x) v
  fetch m x _ := m (place x)

/-- The known locals that are needed at a point or later, or in another round of a loop. -/
def live (iv : LocalId → Option Interval) (Γ Δ : Set LocalId) (p : Nat) : Set LocalId :=
  {x | x ∈ Γ ∧ (x ∈ Δ ∨ ∃ i, iv x = some i ∧ p ≤ i.last)}

/-- Two runs have had the same events and loads. -/
structure SameTrace {M₁ M₂ : Type} (r₁ : Run V E M₁) (r₂ : Run V E M₂) : Prop where
  events : r₁.events = r₂.events
  reads : r₁.reads = r₂.reads

/-- Two runs agree on some locals, and on what has happened. -/
structure Agree (place : LocalId → Storage) (L : Set LocalId) (r₁ : Run V E (LocalId → V))
    (r₂ : Run V E (Storage → V)) : Prop extends SameTrace r₁ r₂ where
  memory : ∀ x ∈ L, r₂.memory (place x) = r₁.memory x

/-- What is known of a piece of the evaluation from the point `p` on and before `e`: the known
locals began before it, and a pinned local lives through a loop around it, in which all ends that
begins in it. -/
structure Standing (iv : LocalId → Option Interval) (Γ Δ : Set LocalId) (p e : Nat) : Prop where
  begun : ∀ x ∈ Γ, ∃ i, iv x = some i ∧ i.first < p
  pinned : ∀ x ∈ Δ, ∃ s f : Nat, ∃ i, iv x = some i ∧ i.first < s ∧ s ≤ p ∧ e ≤ f ∧
    f ≤ i.last + 1 ∧ ∀ z j, iv z = some j → s ≤ j.first → j.first < f → j.last < f

section

variable {place : LocalId → Storage} {L L' Γ Γ' Δ : Set LocalId} {iv : LocalId → Option Interval}
  {decl : LocalId → Option (Ty × Bool)} {p e : Nat} {r₁ : Run V E (LocalId → V)}
  {r₂ : Run V E (Storage → V)}

theorem Agree.mono (h : Agree place L r₁ r₂) (hL : L' ⊆ L) : Agree place L' r₁ r₂ :=
  { h with memory := fun x hx => h.memory x (hL hx) }

variable {p' : Nat} {t : Tree} {ts : List Tree} {U : Set LocalId}

theorem live_mono (hΓ : Γ' ⊆ Γ) (hp : p ≤ p') : live iv Γ' Δ p' ⊆ live iv Γ Δ p := by
  rintro x ⟨hx, hlive⟩
  refine ⟨hΓ hx, hlive.imp_right ?_⟩
  rintro ⟨i, hi, hle⟩
  exact ⟨i, hi, by omega⟩

/-- Places that are shared soundly, with parameters that begin before all points. -/
structure Layout (decl : LocalId → Option (Ty × Bool)) (iv : LocalId → Option Interval)
    (place : LocalId → Storage) : Prop extends Sharing decl iv place where
  early : ∀ x i, Allocator.IsParameter decl x → iv x = some i → i.first < 0

/-- A store destroys no other local that is live after it. -/
theorem Agree.store (hs : Layout decl iv place) (h : Agree place (live iv Γ Δ p) r₁ r₂)
    (hst : Standing iv Γ Δ p e) (hpe : p < e) {z : LocalId} {k : Interval} (hz : iv z = some k)
    (hf : k.first ≤ p) (hl : p ≤ k.last) (v : V) :
    Agree place (live iv (withLocals Γ [z]) Δ (p + 1))
      { r₁ with memory := separate.write r₁.memory z v }
      { r₂ with memory := (placed place).write r₂.memory z v } where
  events := h.events
  reads := h.reads
  memory := by
    rintro y ⟨hy, hlive⟩
    simp only [separate, placed]
    by_cases hyz : y = z
    · subst hyz
      -- It is needed after the point, so its interval is longer than a point and it has a place.
      have hne : k.first ≠ k.last := by
        rcases hlive with hpin | ⟨i, hi, hle⟩
        · obtain ⟨s, f, i, hi, hfirst, hsp, -⟩ := hst.pinned y hpin
          rw [hz, Option.some.injEq] at hi
          subst hi
          omega
        · rw [hz, Option.some.injEq] at hi
          subst hi
          omega
      have hplace : place y ≠ .unassigned := (hs.placed y k hz).mpr (.inl hne)
      rw [if_neg hplace, Function.update_self, Function.update_self]
    · have hyΓ : y ∈ Γ := hy.resolve_right (by simpa using hyz)
      obtain ⟨i, hi, hbegun⟩ := hst.begun y hyΓ
      have hold : r₂.memory (place y) = r₁.memory y := by
        refine h.memory y ⟨hyΓ, hlive.imp_right ?_⟩
        rintro ⟨j, hj, hle⟩
        exact ⟨j, hj, by omega⟩
      rw [Function.update_of_ne hyz]
      split
      · exact hold
      · next hplace =>
        rw [Function.update_of_ne, hold]
        intro hsame
        -- The two intervals would share no more than an end point.
        rcases hs.apart z y k i (fun h => hyz h.symm) hsame.symm hplace hz hi with hki | hik
        · omega
        · rcases hlive with hpin | ⟨j, hj, hle⟩
          · obtain ⟨s, f, j, hj, hfirst, hsp, hef, hfl, hin⟩ := hst.pinned y hpin
            rw [hi, Option.some.injEq] at hj
            subst hj
            -- Then `y` ends with the loop at this point, where `z` begins and must end too.
            have hkl := hin z k hz (by omega) (by omega)
            rcases (hs.placed z k hz).mp hplace with hne | hpar
            · omega
            · have := hs.early z k hpar hz
              omega
          · rw [hi, Option.some.injEq] at hj
            subst hj
            omega

/-- The value of a node is in the local that it stores into. -/
def Stored (m : LocalId → V) (t : Tree) (a : Option V) : Prop :=
  ∀ x v, t.store = some x → a = some v → m x = v ∧ x ∈ t.defines

/-- The locals that a node with a value defines by its own store. -/
def ownStore (t : Tree) (a : Option V) : List LocalId := if a.isSome then t.store.toList else []

theorem simulates_settle (hs : Layout decl iv place) (hst : Standing iv Γ Δ p e) (hpe : p < e)
    (t : Tree) (ht : Tree.Touched iv p t.store.toList) (a : Option V) :
    Simulates (Agree (E := E) place (live iv Γ Δ p)) (settle separate t.store a)
      (settle (placed place) t.store a)
      (fun a' r₁ r₂ => a' = a ∧
        Agree place (live iv (withLocals Γ (ownStore t a)) Δ (p + 1)) r₁ r₂ ∧
        ∀ x v, t.store = some x → a = some v → r₁.memory x = v) SameTrace := by
  intro r₁ r₂ h
  cases hx : t.store with
  | none =>
    refine .ok ⟨rfl, h.mono ?_, by simp⟩
    simpa [ownStore, hx] using live_mono (le_refl _) (Nat.le_succ p)
  | some x =>
    cases a with
    | none =>
      refine .ok ⟨rfl, h.mono ?_, by simp⟩
      simpa [ownStore] using live_mono (le_refl _) (Nat.le_succ p)
    | some v =>
      obtain ⟨k, hk, hf, hl⟩ := ht x (by simp [hx])
      refine .ok ⟨rfl, ?_, ?_⟩
      · simpa [ownStore, hx] using h.store hs hst hpe hk hf hl v
      · rintro y w hy hw
        cases hy
        cases hw
        simp [separate]

/-! ## Expressions -/

theorem Standing.mono {e' : Nat} (h : Standing iv Γ Δ p e) (hΓ : Γ' ⊆ Γ) (hp : p ≤ p')
    (he : e' ≤ e) : Standing iv Γ' Δ p' e' where
  begun := fun x hx => by
    obtain ⟨i, hi, hf⟩ := h.begun x (hΓ hx)
    exact ⟨i, hi, by omega⟩
  pinned := fun x hx => by
    obtain ⟨s, f, i, hi, hf, hsp, hef, hfl, hin⟩ := h.pinned x hx
    exact ⟨s, f, i, hi, hf, by omega, by omega, hfl, hin⟩

theorem Standing.define {xs : List LocalId} (h : Standing iv Γ Δ p e) (hp : p ≤ p')
    (hx : ∀ x ∈ xs, ∃ i, iv x = some i ∧ i.first < p') : Standing iv (withLocals Γ xs) Δ p' e where
  begun := by
    rintro x (hx' | hx')
    · obtain ⟨i, hi, hf⟩ := h.begun x hx'
      exact ⟨i, hi, by omega⟩
    · exact hx x hx'
  pinned := (h.mono (le_refl _) hp (le_refl _)).pinned

theorem Standing.after (h : Standing iv Γ Δ p e) (ht : t.Charted iv p) :
    Standing iv (withLocals Γ t.defines) Δ (p + t.points) e :=
  h.define (Nat.le_add_right _ _) fun _ hx => by
    obtain ⟨i, hi, hf⟩ := ht.defined hx
    exact ⟨i, hi, by push_cast; exact hf⟩

theorem Standing.afterAll (h : Standing iv Γ Δ p e) (ht : Tree.ChartedAll iv p ts) :
    Standing iv (withLocals Γ (Tree.definesAll ts)) Δ (p + Tree.pointsAll ts) e :=
  h.define (Nat.le_add_right _ _) fun _ hx => by
    obtain ⟨i, hi, hf⟩ := ht.defined hx
    exact ⟨i, hi, by push_cast; exact hf⟩

variable {I : Interpretation V E} {fuel : Nat}

theorem keeps_stored {a : Option V} (h : ∀ x, t.store = some x → x ∉ Tree.storesAll ts) :
    Keeps (fun run : Run V E (LocalId → V) => Stored run.memory t a)
      (computeAll I separate fuel ts) := by
  refine keeps_computeAll (P := fun m => Stored m t a) fun m x hx v hm y w hy hw => ?_
  have hne : y ≠ x := fun hyx => h y hy (hyx ▸ hx)
  rw [Function.update_of_ne hne]
  exact hm y w hy hw

/-- The two ways of keeping locals give an operator the same values. -/
theorem given_eq {as : List (Option V)} (h : Agree place L r₁ r₂)
    (hst : List.Forall₂ (Stored r₁.memory) ts as)
    (hL : ∀ t ∈ ts, ∀ x, t.store = some x → x ∈ t.defines → x ∈ L) :
    (((ts.map Tree.store).zip as).filterMap fun (store, value) =>
        value.map (fetched separate r₁.memory store)) =
      ((ts.map Tree.store).zip as).filterMap fun (store, value) =>
        value.map (fetched (placed place) r₂.memory store) := by
  induction hst with
  | nil => rfl
  | @cons t a ts as hst hrest ih =>
    have ih := ih fun t ht => hL t (List.mem_cons_of_mem _ ht)
    simp only [List.map_cons, List.zip_cons_cons, List.filterMap_cons]
    cases a with
    | none => simpa using ih
    | some v =>
      have hv : fetched separate r₁.memory t.store v = fetched (placed place) r₂.memory
          t.store v := by
        cases hx : t.store with
        | none => rfl
        | some x =>
          obtain ⟨hm, hd⟩ := hst x v hx rfl
          show v = r₂.memory (place x)
          rw [h.memory x (hL t (by simp) x hx hd), hm]
      simp only [Option.map_some, hv, ih]

theorem simulates_perform {o : Operation} {args : List V} :
    Simulates (Agree place L) (perform I o args) (perform I o args)
      (fun _ r₁ r₂ => Agree place L r₁ r₂) SameTrace := by
  refine .perform (fun _ _ h => h.events) ?_ ?_
  · intro r₁ r₂ more v h
    exact { h with events := by simp [h.events] }
  · intro r₁ r₂ more h
    exact { h.toSameTrace with events := by simp [h.events] }

theorem simulates_decided (I : Interpretation V E) {L : Set LocalId} (a : Option V) :
    Simulates (Agree place L) (decided I a) (decided I a) (fun _ => Agree place L) SameTrace := by
  refine .decided I a (fun _ _ h => h.events) (fun r₁ r₂ more b h => ?_) fun _ _ h => h.toSameTrace
  exact { h with events := by simp [h.events] }

/-- An expression does the same over places as over separate locals. -/
def ExprAgrees (place : LocalId → Storage) (iv : LocalId → Option Interval) (Δ : Set LocalId)
    (e : Nat) (I : Interpretation V E) (fuel : Nat) (t : Tree) : Prop :=
  ∀ again Γ U p, t.ScopedExpr again Γ U → t.Charted iv p → Standing iv Γ Δ p e → p + t.points ≤ e →
    Simulates (Agree place (live iv Γ Δ p)) (eval I separate fuel t) (eval I (placed place) fuel t)
      (fun a r₁ r₂ => Agree place (live iv (withLocals Γ t.defines) Δ (p + t.points)) r₁ r₂ ∧
        Stored r₁.memory t a) SameTrace

theorem simulates_operands
    (ih : ∀ t ∈ ts, ExprAgrees place iv Δ e I fuel t)
    (h : Tree.InOrder (Tree.ScopedExpr false) Γ U ts)
    (hc : Tree.ChartedAll iv p ts) (hst : Standing iv Γ Δ p e) (he : p + Tree.pointsAll ts ≤ e) :
    Simulates (Agree place (live iv Γ Δ p)) (computeAll I separate fuel ts)
      (computeAll I (placed place) fuel ts)
      (fun as r₁ r₂ => Agree place
        (live iv (withLocals Γ (Tree.definesAll ts)) Δ (p + Tree.pointsAll ts)) r₁ r₂ ∧
        List.Forall₂ (Stored r₁.memory) ts as) SameTrace := by
  induction ts generalizing Γ U p with
  | nil =>
    refine .pure fun r₁ r₂ h => ⟨?_, .nil⟩
    simpa [Tree.definesAll, Tree.pointsAll] using h
  | cons t rest ihrest =>
    rw [computeAll_cons, computeAll_cons]
    rw [Tree.pointsAll] at he ⊢
    rw [Tree.definesAll, withLocals_append, ← Nat.add_assoc]
    refine (ih t (by simp) false Γ U p h.1 hc.1 hst (by omega)).bind fun a => ?_
    have hrest := ihrest (fun t ht => ih t (List.mem_cons_of_mem _ ht)) h.2 hc.2 (hst.after hc.1)
      (by omega)
    -- The first operand stays in its local, into which no other one stores.
    have hkept : Keeps (fun run : Run V E (LocalId → V) => Stored run.memory t a)
        (computeAll I separate fuel rest) :=
      keeps_stored fun x hx => h.2.not_stored
        (.inr (Tree.mem_mentions.mpr (.inr (Tree.mem_stores_of_store hx))))
    refine (hrest.and_keeps hkept).bind fun as => .pure fun r₁ r₂ h => ?_
    exact ⟨h.1.1, .cons h.2 h.1.2⟩

theorem simulates_operate {f : Operator} {xs : List LocalId}
    (ih : ∀ t ∈ f.operands, ExprAgrees place iv Δ e I fuel t)
    (h : Tree.InOrder (Tree.ScopedExpr false) Γ U f.operands)
    (hc : Tree.ChartedAll iv p f.operands) (hst : Standing iv Γ Δ p e)
    (he : p + Tree.pointsAll f.operands ≤ e)
    (ht : Tree.Touched iv (p + Tree.pointsAll f.operands)
      (f.operands.filterMap Tree.store ++ xs)) :
    Simulates (Agree place (live iv Γ Δ p)) (operate I separate fuel f)
      (operate I (placed place) fuel f)
      (fun a r₁ r₂ => a.isSome = f.yields ∧ Agree place
        (live iv (withLocals Γ (Tree.definesAll f.operands)) Δ (p + Tree.pointsAll f.operands))
        r₁ r₂) SameTrace := by
  refine (simulates_operands ih h hc hst he).bind fun as => ?_
  refine Simulates.bind (Q := fun _ r₁ r₂ => Agree place
    (live iv (withLocals Γ (Tree.definesAll f.operands)) Δ (p + Tree.pointsAll f.operands)) r₁ r₂)
    ?_ fun vs => ?_
  · rintro r₁ r₂ ⟨hagree, hstored⟩
    unfold given
    rw [given_eq hagree hstored]
    · exact .ok hagree
    · intro t hmem x hx hd
      obtain ⟨i, hi, -, hl⟩ := ht x (List.mem_append_left _ (List.mem_filterMap.mpr ⟨t, hmem, hx⟩))
      refine ⟨.inr ?_, .inr ⟨i, hi, hl⟩⟩
      rw [Tree.definesAll_eq]
      exact List.mem_flatMap.mpr ⟨t, hmem, hd⟩
  · refine simulates_perform.bind fun v => .pure fun r₁ r₂ h => ⟨?_, h⟩
    cases f.yields <;> rfl

theorem simulates_stored (hs : Layout decl iv place) (yields : Bool)
    {x : Evaluation V E (LocalId → V) (Option V)} {y : Evaluation V E (Storage → V) (Option V)}
    {P : Run V E (LocalId → V) → Run V E (Storage → V) → Prop}
    (h : Simulates P x y (fun a r₁ r₂ => a.isSome = yields ∧ Agree place (live iv Γ Δ p) r₁ r₂)
      SameTrace)
    (hst : Standing iv Γ Δ p e) (hpe : p < e) (ht : Tree.Touched iv p t.store.toList)
    (hd : (if yields then t.store.toList else []) ⊆ t.defines) :
    Simulates P (x >>= settle separate t.store) (y >>= settle (placed place) t.store)
      (fun a r₁ r₂ => Agree place
        (live iv (withLocals Γ (if yields then t.store.toList else [])) Δ (p + 1)) r₁ r₂ ∧
        Stored r₁.memory t a) SameTrace := by
  refine h.bind fun a r₁ r₂ ⟨ha, hagree⟩ => ?_
  refine (simulates_settle hs hst hpe t ht a r₁ r₂ hagree).mono ?_ fun _ _ h => h
  rintro a' r₁ r₂ ⟨rfl, hagree, hstored⟩
  refine ⟨by simpa [ownStore, ha] using hagree, fun x v hx hv => ⟨hstored x v hx hv, hd ?_⟩⟩
  rw [← ha, hv]
  simp [hx]

theorem exprAgrees (hs : Layout decl iv place) (I : Interpretation V E) (fuel : Nat) (t : Tree) :
    ExprAgrees place iv Δ e I fuel t := by
  induction t using Tree.induction with
  | const tag value =>
    intro again Γ U p h hc hst he
    refine simulates_stored hs true (.pure fun _ _ h => ⟨rfl, h⟩) hst ?_ hc
      (fun _ h => h)
    simp only [Tree.points] at he
    omega
  | load tag x =>
    intro again Γ U p h hc hst he
    refine simulates_stored hs true (fun r₁ r₂ hagree => ?_) hst ?_
      (hc.mono (List.subset_cons_self _ _)) (fun _ h => h)
    · obtain ⟨i, hi, -, hl⟩ := hc x (by simp)
      have hx := hagree.memory x ⟨h.1, .inr ⟨i, hi, hl⟩⟩
      have heq : (placed place).read r₂.memory x = separate.read r₁.memory x := hx
      simp only [compute, Evaluation.read, bind_apply, heq]
      exact .ok ⟨rfl, { hagree with reads := by simp [hagree.reads] }⟩
    · simp only [Tree.points] at he
      omega
  | failFast tag =>
    intro again Γ U p h hc hst he
    rw [eval_failFast, eval_failFast]
    refine simulates_perform.bind fun v => .pure fun _ _ h => ⟨?_, by simp [Stored]⟩
    simpa [Tree.defines, Tree.points] using h
  | operator t f hf ih =>
    intro again Γ U p h hc hst he
    obtain ⟨hops, -⟩ := (Tree.scopedExpr_operator hf).mp h
    obtain ⟨hcops, htouched⟩ := (Tree.charted_operator hf).mp hc
    rw [Tree.points_operator hf] at he ⊢
    have hop := simulates_operate ih hops hcops hst (by omega) htouched
    rw [eval, eval, compute_operator hf, compute_operator hf, Tree.defines_operator hf,
      withLocals_append, ← Nat.add_assoc]
    refine simulates_stored hs f.yields hop (hst.afterAll hcops) (by omega)
      (htouched.mono (List.subset_append_right _ _)) ?_
    rw [Tree.defines_operator hf]
    exact List.subset_append_right _ _
  | seq | ifThen | ifElse | loop | ret | retValue => exact fun _ _ _ _ h => h.elim

/-! ## Statements -/

theorem Standing.loop {n : Nat} (hst : Standing iv Γ Δ p e) (hn : p + n ≤ e)
    (hc : Tree.Circled iv p (p + n)) : Standing iv Γ (live iv Γ Δ p) p (p + n) where
  begun := hst.begun
  pinned := by
    rintro x ⟨hx, hlive⟩
    by_cases hpin : x ∈ Δ
    · exact (hst.mono (le_refl _) (le_refl _) hn).pinned x hpin
    · obtain ⟨i, hi, hl⟩ := hlive.resolve_left hpin
      obtain ⟨j, hj, hf⟩ := hst.begun x hx
      rw [hi, Option.some.injEq] at hj
      subst hj
      refine ⟨p, p + n, i, hi, hf, le_refl _, le_refl _, ?_, ?_⟩
      · have := hc.carried x i hi hf hl
        push_cast at this ⊢
        omega
      · intro z j hj hjf hjn
        exact hc.enclosed z j hj hjf (by push_cast at hjn ⊢; omega)

theorem live_pinned : live iv Γ (live iv Γ Δ p) p = live iv Γ Δ p := by
  ext x
  constructor
  · rintro ⟨hx, hlive | hlast⟩
    · exact hlive
    · exact ⟨hx, .inr hlast⟩
  · exact fun h => ⟨h.1, .inl h⟩

theorem pinned_subset : live iv Γ Δ p ⊆ live iv Γ (live iv Γ Δ p) p' :=
  fun _ h => ⟨h.1, .inl h⟩

/-- A statement does the same over places as over separate locals. -/
def StmtAgrees (place : LocalId → Storage) (iv : LocalId → Option Interval)
    (I : Interpretation V E) (fuel : Nat) (t : Tree) : Prop :=
  ∀ Γ U Δ p e, t.Scoped Γ U → t.Charted iv p → Standing iv Γ Δ p e → p + t.points ≤ e →
    Simulates (Agree place (live iv Γ Δ p)) (eval I separate fuel t) (eval I (placed place) fuel t)
      (fun _ r₁ r₂ => Agree place (live iv (withLocals Γ t.defines) Δ (p + t.points)) r₁ r₂)
        SameTrace

theorem simulates_statements
    (ih : ∀ t ∈ ts, StmtAgrees place iv I fuel t) (h : Tree.InOrder Tree.Scoped Γ U ts)
    (hc : Tree.ChartedAll iv p ts) (hst : Standing iv Γ Δ p e) (he : p + Tree.pointsAll ts ≤ e) :
    Simulates (Agree place (live iv Γ Δ p)) (runAll I separate fuel ts)
      (runAll I (placed place) fuel ts)
      (fun _ r₁ r₂ => Agree place
        (live iv (withLocals Γ (Tree.definesAll ts)) Δ (p + Tree.pointsAll ts)) r₁ r₂)
          SameTrace := by
  induction ts generalizing Γ U p with
  | nil =>
    intro r₁ r₂ h
    rw [runAll_nil, runAll_nil]
    exact .ok (by simpa [Tree.definesAll, Tree.pointsAll] using h)
  | cons t rest ihrest =>
    rw [runAll_cons, runAll_cons]
    rw [Tree.pointsAll] at he ⊢
    rw [Tree.definesAll, withLocals_append, ← Nat.add_assoc]
    refine (ih t (by simp) Γ U Δ p e h.1 hc.1 hst (by omega)).bind fun _ => ?_
    exact ihrest (fun t ht => ih t (List.mem_cons_of_mem _ ht)) h.2 hc.2 (hst.after hc.1) (by omega)

/-- What a branch defines is not known behind it. -/
theorem StmtAgrees.branch {q q' : Nat} {xs : List LocalId} (ih : StmtAgrees place iv I fuel t)
    (h : t.Scoped Γ U) (hc : t.Charted iv q) (hst : Standing iv Γ Δ p e) (hp : p ≤ p') (hq : p' ≤ q)
    (hend : q + t.points ≤ q') (he : q' ≤ e) :
    Simulates (α := Option V) (Agree place (live iv (withLocals Γ xs) Δ p')) (do
      let _ ← eval I separate fuel t
      pure none) (do
      let _ ← eval I (placed place) fuel t
      pure none) (fun _ => Agree place (live iv (withLocals Γ []) Δ q')) SameTrace := by
  have hst' := hst.mono (le_refl Γ) (hp.trans hq) (le_refl e)
  refine ((ih Γ U Δ q e h hc hst' (hend.trans he)).mono (fun _ _ h => ?_)
    fun _ _ _ h => h).bind fun _ => .pure fun _ _ h => ?_
  · exact h.mono (live_mono (subset_withLocals _ _) hq)
  · rw [withLocals_nil]
    exact h.mono (live_mono (subset_withLocals _ _) hend)

theorem stmtAgrees (hs : Layout decl iv place) (I : Interpretation V E) (fuel : Nat) (t : Tree) :
    StmtAgrees place iv I fuel t := by
  induction t using Tree.induction with
  | const | load | failFast =>
    intro Γ U Δ p e h hc hst he
    exact (exprAgrees hs I fuel _ true Γ U p h hc hst he).mono (fun _ _ h => h) fun _ _ _ h => h.1
  | operator t f hf _ =>
    intro Γ U Δ p e h hc hst he
    exact (exprAgrees hs I fuel t true Γ U p ((Tree.scoped_operator hf).mp h) hc hst he).mono
      (fun _ _ h => h) fun _ _ _ h => h.1
  | seq tag body ih =>
    intro Γ U Δ p e h hc hst he
    obtain ⟨-, hbody⟩ := Tree.scoped_seq.mp h
    rw [eval_seq, eval_seq]
    refine (simulates_statements ih hbody hc hst he).bind fun _ => .pure fun r₁ r₂ h => ?_
    exact h.mono (live_mono (by simpa [Tree.defines] using subset_withLocals _ _) (le_refl _))
  | ret tag =>
    intro Γ U Δ p e h hc hst he
    have hstore : (Tree.ret tag).store = none := h
    rw [eval_eq_compute hstore, eval_eq_compute hstore]
    exact .throw fun _ _ h => h.toSameTrace
  | retValue tag v _ =>
    intro Γ U Δ p e h hc hst he
    rw [eval_retValue, eval_retValue]
    refine (exprAgrees hs I fuel v false Γ U p h.2 hc hst he).bind fun a => ?_
    exact .throw fun _ _ h => h.1.toSameTrace
  | ifThen tag c y _ ihy =>
    rintro Γ U Δ p e ⟨-, hc, hy⟩ ⟨hcc, hcy⟩ hst he
    simp only [Tree.points] at he
    rw [eval_ifThen, eval_ifThen]
    have htest := (exprAgrees hs I fuel c false Γ U p hc hcc hst (by omega)).mono (fun _ _ h => h)
      fun _ _ _ h => h.1
    refine htest.bind fun a => (simulates_decided I a).bind fun b => ?_
    cases b with
    | true =>
      exact ihy.branch hy hcy hst (Nat.le_add_right ..) (le_refl _)
        (by simp only [Tree.points]; omega) he
    | false =>
      refine .pure fun _ _ h => h.mono (live_mono ?_ ?_)
      · simpa [Tree.defines] using subset_withLocals Γ c.defines
      · simp only [Tree.points]
        omega
  | ifElse tag c y n _ ihy ihn =>
    rintro Γ U Δ p e ⟨-, hc, hy, hn⟩ ⟨hcc, hcy, hcn⟩ hst he
    simp only [Tree.points] at he
    rw [eval_ifElse, eval_ifElse]
    have htest := (exprAgrees hs I fuel c false Γ U p hc hcc hst (by omega)).mono (fun _ _ h => h)
      fun _ _ _ h => h.1
    refine htest.bind fun a => (simulates_decided I a).bind fun b => ?_
    cases b with
    | true =>
      exact ihy.branch hy hcy hst (Nat.le_add_right ..) (le_refl _)
        (by simp only [Tree.points]; omega) he
    | false =>
      exact ihn.branch hn hcn hst (Nat.le_add_right ..) (Nat.le_add_right ..)
        (by simp only [Tree.points]; omega) he
  | loop tag c b _ ihb =>
    rintro Γ U Δ p e ⟨-, hc, hb⟩ ⟨hcc, hcb, hcircled⟩ hst he
    simp only [Tree.points] at he
    rw [eval_loop, eval_loop]
    -- In every round the memories agree on what is live at the loop's beginning.
    have hst' : Standing iv Γ (live iv Γ Δ p) p (p + c.points + b.points) := by
      rw [Nat.add_assoc] at hcircled ⊢
      exact hst.loop he hcircled
    have htest := (exprAgrees hs I fuel c false Γ U p hc hcc hst' (by omega)).mono (fun _ _ h => h)
      fun _ _ _ h => h.1
    have hbody := ihb Γ _ (live iv Γ Δ p) _ _ hb hcb
      (hst'.mono (le_refl Γ) (Nat.le_add_right p c.points) (le_refl _)) (le_refl _)
    rw [live_pinned] at htest
    have hrounds := Simulates.rounds (fun _ _ h => h.toSameTrace)
      (htest.bind fun a => simulates_decided I a)
      (hbody.mono (fun _ _ h => h.mono (live_mono (subset_withLocals _ _) (le_refl _)))
        fun _ _ _ h => h.mono (pinned_subset.trans (live_mono (subset_withLocals _ _) (le_refl _))))
      fuel
    refine hrounds.bind fun _ => .pure fun _ _ h => h.mono ?_
    have hstart : live iv (withLocals Γ (Tree.loop tag c b).defines) Δ
        (p + (Tree.loop tag c b).points) ⊆ live iv Γ Δ p :=
      live_mono (by simp [Tree.defines]) (Nat.le_add_right _ _)
    exact hstart.trans (pinned_subset.trans (live_mono (subset_withLocals _ _) (le_refl _)))

end

end Evaluation

end Codewright
