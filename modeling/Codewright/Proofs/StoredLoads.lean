import Codewright.Proofs.Typing

/-!
# Loads after stores

A local should have been stored into before it is loaded, on every path that control can take.
`storesSurely` follows the paths through a tree: a branch or the body of a loop may be left out, and
a path that returns does not come to the end, so nothing is asked of it. `loadsStored` asks that
each load stands behind such a store.

Only a node with a value stores something. What the two say about runs is `not_storesSurely_of_ok`:
a tree that comes to its end and has no node that stores into a local does not store into it for
sure.
-/

namespace Codewright

namespace Tree

/-- Whether a node that comes to its end has a value. -/
def yields : Tree → Bool
  | .const _ _ | .load _ _ | .binary _ _ _ _ | .unary _ _ _ | .toReal _ _ => true
  | .call tag _ _ => tag.ty.isValue
  | .print _ _ | .failFast _ | .seq _ _ | .ifThen _ _ _ | .ifElse _ _ _ _ | .loop _ _ _ | .ret _
  | .retValue _ _ => false

mutual

/-- Whether a local has been stored into whenever a node comes to its end. -/
def storesSurely (x : LocalId) : Tree → Bool
  | .const tag _ | .load tag _ => tag.store == some x
  | .call tag _ args => storesSurelyAll x args || (tag.ty.isValue && tag.store == some x)
  | .print _ args | .seq _ args => storesSurelyAll x args
  | .binary tag _ left right => storesSurely x left || storesSurely x right || tag.store == some x
  | .unary tag _ operand | .toReal tag operand => storesSurely x operand || tag.store == some x
  | .ifThen _ condition _ | .loop _ condition _ => storesSurely x condition
  | .ifElse _ condition yes no =>
    storesSurely x condition || (storesSurely x yes && storesSurely x no)
  | .failFast _ => false
  | .ret _ | .retValue _ _ => true

/-- The same for nodes that are evaluated in order. -/
def storesSurelyAll (x : LocalId) : List Tree → Bool
  | [] => false
  | t :: rest => storesSurely x t || storesSurelyAll x rest

end

mutual

/-- Whether every load of a local comes after a store into it. `stored` is for a store before the
node. -/
def loadsStored (x : LocalId) (stored : Bool) : Tree → Bool
  | .const _ _ | .failFast _ | .ret _ => true
  | .load _ y => y != x || stored
  | .call _ _ args | .print _ args | .seq _ args => loadsStoredAll x stored args
  | .binary _ _ left right =>
    loadsStored x stored left && loadsStored x (stored || storesSurely x left) right
  | .unary _ _ operand | .toReal _ operand | .retValue _ operand => loadsStored x stored operand
  | .ifThen _ condition body | .loop _ condition body =>
    loadsStored x stored condition && loadsStored x (stored || storesSurely x condition) body
  | .ifElse _ condition yes no =>
    loadsStored x stored condition && (loadsStored x (stored || storesSurely x condition) yes &&
      loadsStored x (stored || storesSurely x condition) no)

/-- The same for nodes that are evaluated in order. -/
def loadsStoredAll (x : LocalId) (stored : Bool) : List Tree → Bool
  | [] => true
  | t :: rest => loadsStored x stored t && loadsStoredAll x (stored || storesSurely x t) rest

end

section

variable {t : Tree} {f : Operator} {ts us : List Tree} {x z : LocalId} {stored : Bool}

theorem yields_operator (h : t.operator? = some f) : t.yields = f.yields := by
  cases t <;> cases h <;> rfl

theorem storesSurely_operator (h : t.operator? = some f) : t.storesSurely x =
    (storesSurelyAll x f.operands || (f.yields && t.store == some x)) := by
  cases t <;> cases h <;> simp [storesSurely, storesSurelyAll, store, tag]

theorem loadsStored_operator (h : t.operator? = some f) :
    t.loadsStored x stored = loadsStoredAll x stored f.operands := by
  cases t <;> cases h <;> simp [loadsStored, loadsStoredAll]

theorem storesSurelyAll_eq_true : storesSurelyAll x ts = true ↔
    ∃ t ∈ ts, t.storesSurely x = true := by
  induction ts with
  | nil => simp [storesSurelyAll]
  | cons t rest ih => simp [storesSurelyAll, ih]

theorem storesSurelyAll_append :
    storesSurelyAll x (ts ++ us) = (storesSurelyAll x ts || storesSurelyAll x us) := by
  induction ts with
  | nil => simp [storesSurelyAll]
  | cons t rest ih => simp [storesSurelyAll, ih, Bool.or_assoc]

theorem loadsStoredAll_append : loadsStoredAll x stored (ts ++ us) =
    (loadsStoredAll x stored ts && loadsStoredAll x (stored || storesSurelyAll x ts) us) := by
  induction ts generalizing stored with
  | nil => simp [loadsStoredAll, storesSurelyAll]
  | cons t rest ih =>
    simp only [List.cons_append, loadsStoredAll, storesSurelyAll, ih, Bool.and_assoc, Bool.or_assoc]

theorem yields_withStore (t : Tree) (store : Option LocalId) :
    (t.withStore store).yields = t.yields := by
  cases t <;> rfl

/-- What a node stores into for sure, apart from its own store. -/
theorem storesSurely_withStore (t : Tree) (store : Option LocalId) :
    (t.withStore store).storesSurely x =
    ((t.withStore none).storesSurely x || (t.yields && store == some x)) := by
  cases t <;> simp [withStore, withTag, Tree.tag, storesSurely, yields, Bool.or_assoc]

theorem loadsStored_withStore (t : Tree) (store : Option LocalId) :
    (t.withStore store).loadsStored x stored = t.loadsStored x stored := by
  cases t <;> rfl

/-! ## Where nothing is asked -/

theorem loadsStoredAll_of_forall (h : ∀ t ∈ ts, ∀ later, (stored = true → later = true) →
    t.loadsStored x later = true) : loadsStoredAll x stored ts = true := by
  induction ts generalizing stored with
  | nil => rfl
  | cons t rest ih =>
    rw [loadsStoredAll, h t (by simp) stored id, Bool.true_and]
    refine ih fun a ha later hlater => h a (List.mem_cons_of_mem _ ha) later fun hs => hlater ?_
    rw [hs, Bool.true_or]

/-- A local that is not loaded need not be stored into, and after a store nothing is left to ask. -/
theorem loadsStored_of_imp (h : x ∈ t.loads → stored = true) : t.loadsStored x stored = true := by
  have hor : ∀ {stored : Bool} (more : Bool), stored = true → (stored || more) = true := by
    rintro _ more rfl
    rfl
  induction t using Tree.induction generalizing stored with
  | const | failFast | ret => rfl
  | load tag y =>
    by_cases hyx : y = x
    · simp [loadsStored, h (by simp [loads, hyx])]
    · simp [loadsStored, hyx]
  | operator t f hf ih =>
    rw [loads_operator hf, loadsAll_eq] at h
    rw [loadsStored_operator hf]
    exact loadsStoredAll_of_forall fun a ha later hlater => ih a ha fun hx =>
      hlater (h (List.mem_flatMap.mpr ⟨a, ha, hx⟩))
  | seq tag body ih =>
    rw [loads, loadsAll_eq] at h
    rw [loadsStored]
    exact loadsStoredAll_of_forall fun a ha later hlater => ih a ha fun hx =>
      hlater (h (List.mem_flatMap.mpr ⟨a, ha, hx⟩))
  | ifThen tag c y ihc ihy | loop tag c y ihc ihy =>
    simp only [loads, List.mem_append] at h
    rw [loadsStored, ihc fun hx => h (.inl hx), ihy fun hx => hor _ (h (.inr hx)), Bool.and_self]
  | ifElse tag c y n ihc ihy ihn =>
    simp only [loads, List.mem_append] at h
    rw [loadsStored, ihc fun hx => h (.inl (.inl hx)), ihy fun hx => hor _ (h (.inl (.inr hx))),
      ihn fun hx => hor _ (h (.inr hx)), Bool.and_self, Bool.and_self]
  | retValue tag v ih =>
    rw [loadsStored]
    exact ih h

theorem loadsStoredAll_after (ts : List Tree) (x : LocalId) : loadsStoredAll x true ts = true :=
  loadsStoredAll_of_forall fun _ _ _ hlater => loadsStored_of_imp fun _ => hlater rfl

/-! ## Trees that do not come to their end -/

/-- Where no node stores into a local that is stored into for sure, every path returns. -/
theorem storesSurely_of_not_stored (h : t.storesSurely x = true) (hx : x ∉ t.stores) (z : LocalId) :
    t.storesSurely z = true := by
  induction t using Tree.induction with
  | const tag value | load tag y => exact absurd (by simpa [storesSurely, stores] using h) hx
  | failFast tag => cases h
  | operator t f hf ih =>
    rw [stores_operator hf, List.mem_append, not_or, storesAll_eq, Option.mem_toList] at hx
    rw [storesSurely_operator hf, Bool.or_eq_true] at h ⊢
    rcases h with h | h
    · obtain ⟨a, ha, h⟩ := storesSurelyAll_eq_true.mp h
      exact .inl (storesSurelyAll_eq_true.mpr
        ⟨a, ha, ih a ha h fun hxa => hx.1 (List.mem_flatMap.mpr ⟨a, ha, hxa⟩)⟩)
    · exact absurd (by simpa using (Bool.and_eq_true_iff.mp h).2) hx.2
  | seq tag body ih =>
    rw [stores, List.mem_append, not_or, storesAll_eq] at hx
    rw [storesSurely] at h ⊢
    obtain ⟨a, ha, h⟩ := storesSurelyAll_eq_true.mp h
    exact storesSurelyAll_eq_true.mpr
      ⟨a, ha, ih a ha h fun hxa => hx.1 (List.mem_flatMap.mpr ⟨a, ha, hxa⟩)⟩
  | ifThen tag c y ihc _ | loop tag c y ihc _ =>
    simp only [stores, List.mem_append, not_or] at hx
    exact ihc h hx.1.1
  | ifElse tag c y n ihc ihy ihn =>
    simp only [stores, List.mem_append, not_or] at hx
    rw [storesSurely, Bool.or_eq_true, Bool.and_eq_true] at h ⊢
    exact h.imp (fun h => ihc h hx.1.1.1) fun h => ⟨ihy h.1 hx.1.1.2, ihn h.2 hx.1.2⟩
  | ret | retValue => rfl

theorem storesSurelyAll_of_not_stored (h : storesSurelyAll x ts = true) (hx : x ∉ storesAll ts)
    (z : LocalId) : storesSurelyAll z ts = true := by
  obtain ⟨t, ht, h⟩ := storesSurelyAll_eq_true.mp h
  rw [storesAll_eq] at hx
  exact storesSurelyAll_eq_true.mpr ⟨t, ht,
    storesSurely_of_not_stored h (fun hxt => hx (List.mem_flatMap.mpr ⟨t, ht, hxt⟩)) z⟩

end

end Tree

namespace Evaluation

open Steps

variable {V E M : Type} {I : Interpretation V E} {K : Keeping V M} {fuel : Nat} {t : Tree}
  {x : LocalId}

theorem isSome_of_yields (hy : t.yields = true) {run run' : Run V E M} {a : Option V}
    (h : compute I K fuel t run = .ok a run') : a.isSome = true := by
  cases hf : t.operator? with
  | none =>
    cases t with
    | const | load =>
      cases h
      rfl
    | call | binary | unary | toReal | print => cases hf
    | failFast | seq | ifThen | ifElse | loop | ret | retValue => cases hy
  | some f =>
    rw [Tree.yields_operator hf] at hy
    rw [compute_operator hf, operate, hy] at h
    obtain ⟨values, run₁, -, h⟩ := bind_eq_ok.mp h
    obtain ⟨vs, run₂, -, h⟩ := bind_eq_ok.mp h
    obtain ⟨v, run₃, -, h⟩ := bind_eq_ok.mp h
    cases h
    rfl

/-- When trees have been evaluated in order, each has come to its end. -/
theorem ok_of_computeAll {ts : List Tree} {run run' : Run V E M} {values : List (Option V)}
    (h : computeAll I K fuel ts run = .ok values run') (ht : t ∈ ts) :
    ∃ r a r', eval I K fuel t r = .ok a r' := by
  induction ts generalizing run run' values with
  | nil => cases ht
  | cons u rest ih =>
    rw [computeAll_cons] at h
    obtain ⟨a, run₁, hu, h⟩ := bind_eq_ok.mp h
    obtain ⟨as, run₂, hrest, -⟩ := bind_eq_ok.mp h
    rcases List.mem_cons.mp ht with rfl | ht
    · exact ⟨run, a, run₁, hu⟩
    · exact ih hrest ht

theorem not_storesSurelyAll_of_ok {ts : List Tree} {run run' : Run V E M} {values : List (Option V)}
    (ih : ∀ t ∈ ts, ∀ {run run' : Run V E M} {a : Option V}, eval I K fuel t run = .ok a run' →
      x ∉ t.stores → t.storesSurely x = false)
    (h : computeAll I K fuel ts run = .ok values run') (hx : x ∉ Tree.storesAll ts) :
    Tree.storesSurelyAll x ts = false := by
  rw [Tree.storesAll_eq] at hx
  rw [Bool.eq_false_iff, ne_eq, Tree.storesSurelyAll_eq_true]
  rintro ⟨t, ht, hs⟩
  obtain ⟨r, a, r', hok⟩ := ok_of_computeAll h ht
  rw [ih t ht hok fun hxt => hx (List.mem_flatMap.mpr ⟨t, ht, hxt⟩)] at hs
  cases hs

/-- A tree that comes to its end and has no node that stores into a local does not store into it for
sure. -/
theorem not_storesSurely_of_ok {run run' : Run V E M} {a : Option V}
    (h : eval I K fuel t run = .ok a run') (hx : x ∉ t.stores) : t.storesSurely x = false := by
  induction t using Tree.induction generalizing run run' a with
  | const tag value | load tag y => simpa [Tree.storesSurely, Tree.stores] using hx
  | failFast tag => rfl
  | operator t f hf ih =>
    rw [Tree.stores_operator hf, List.mem_append, not_or, Option.mem_toList] at hx
    rw [eval, compute_operator hf, operate] at h
    obtain ⟨v, run₁, h, -⟩ := bind_eq_ok.mp h
    obtain ⟨values, run₂, h, -⟩ := bind_eq_ok.mp h
    rw [Tree.storesSurely_operator hf, not_storesSurelyAll_of_ok ih h hx.1]
    simpa using fun _ => hx.2
  | seq tag body ih =>
    rw [Tree.stores, List.mem_append, not_or] at hx
    rw [eval_seq, runAll] at h
    obtain ⟨u, run₁, h, -⟩ := bind_eq_ok.mp h
    obtain ⟨values, run₂, h, -⟩ := bind_eq_ok.mp h
    rw [Tree.storesSurely]
    exact not_storesSurelyAll_of_ok ih h hx.1
  | ifThen tag c y ihc _ =>
    simp only [Tree.stores, List.mem_append, not_or] at hx
    rw [eval_ifThen] at h
    obtain ⟨v, run₁, hc, -⟩ := bind_eq_ok.mp h
    exact ihc hc hx.1.1
  | ifElse tag c y n ihc ihy ihn =>
    simp only [Tree.stores, List.mem_append, not_or] at hx
    rw [eval_ifElse] at h
    obtain ⟨v, run₁, hc, h⟩ := bind_eq_ok.mp h
    obtain ⟨b, run₂, -, h⟩ := bind_eq_ok.mp h
    rw [Tree.storesSurely, ihc hc hx.1.1.1, Bool.false_or, Bool.and_eq_false_iff]
    cases b with
    | true =>
      obtain ⟨w, run₃, hy, -⟩ := bind_eq_ok.mp h
      exact .inl (ihy hy hx.1.1.2)
    | false =>
      obtain ⟨w, run₃, hn, -⟩ := bind_eq_ok.mp h
      exact .inr (ihn hn hx.1.2)
  | loop tag c b ihc _ =>
    simp only [Tree.stores, List.mem_append, not_or] at hx
    rw [eval_loop] at h
    obtain ⟨u, run₁, h, -⟩ := bind_eq_ok.mp h
    -- The test has been made at least once.
    cases fuel with
    | zero => cases h
    | succ n =>
      obtain ⟨holds, run₂, h, -⟩ := bind_eq_ok.mp h
      obtain ⟨v, run₃, hc, -⟩ := bind_eq_ok.mp h
      exact ihc hc hx.1.1
  | ret tag => cases h
  | retValue tag v _ =>
    rw [eval_retValue] at h
    obtain ⟨w, run₁, -, h⟩ := bind_eq_ok.mp h
    cases h

end Evaluation

namespace Tree

/-! ## Scoped trees -/

variable {t : Tree} {x : LocalId} {Γ U : Set LocalId}

theorem storesSurely_of_defines (h : x ∈ t.defines) : t.storesSurely x = true := by
  induction t using Tree.induction with
  | const | load => simpa [defines, storesSurely] using h
  | operator t f hf ih =>
    rw [defines_operator hf, List.mem_append, definesAll_eq, List.mem_flatMap] at h
    rw [storesSurely_operator hf, Bool.or_eq_true]
    rcases h with ⟨a, ha, h⟩ | h
    · exact .inl (storesSurelyAll_eq_true.mpr ⟨a, ha, ih a ha h⟩)
    · right
      split at h
      · next hy => simpa [hy] using h
      · cases h
  | failFast | seq | ifThen | ifElse | loop | ret | retValue => cases h

theorem InOrder.loadsStored {S : Set LocalId → Set LocalId → Tree → Prop} {ts : List Tree}
    {stored : Bool}
    (hS : ∀ t ∈ ts, ∀ Γ U stored, S Γ U t → (x ∈ Γ → stored = true) → t.loadsStored x stored = true)
    (h : InOrder S Γ U ts) (hΓ : x ∈ Γ → stored = true) : loadsStoredAll x stored ts = true := by
  induction ts generalizing Γ U stored with
  | nil => rfl
  | cons t rest ih =>
    rw [loadsStoredAll, hS t (by simp) Γ U stored h.1 hΓ, Bool.true_and]
    refine ih (fun a ha => hS a (List.mem_cons_of_mem _ ha)) h.2 ?_
    rintro (hx | hx)
    · rw [hΓ hx, Bool.true_or]
    · rw [storesSurely_of_defines hx, Bool.or_true]

/-- A scoped tree loads what is known or has been stored into. -/
theorem Scoped.loadsStored {stored : Bool} (h : Scoped Γ U t) (hΓ : x ∈ Γ → stored = true) :
    t.loadsStored x stored = true := by
  have hor : ∀ {Γ : Set LocalId} {stored : Bool} (more : Bool), (x ∈ Γ → stored = true) → x ∈ Γ →
      (stored || more) = true := fun more h hx => by rw [h hx, Bool.true_or]
  induction t using Tree.induction generalizing Γ U stored with
  | const | failFast | ret => rfl
  | load tag y =>
    refine loadsStored_of_imp fun hx => hΓ ?_
    rw [List.mem_singleton.mp hx]
    exact h.1
  | operator t f hf ih =>
    rw [loadsStored_operator hf]
    have hops := ((scopedExpr_operator hf).mp ((scoped_operator hf).mp h)).1
    exact hops.loadsStored (fun a ha _ _ _ h hΓ => ih a ha h.scoped hΓ) hΓ
  | seq tag body ih =>
    rw [Tree.loadsStored]
    exact (scoped_seq.mp h).2.loadsStored (fun a ha _ _ _ h hΓ => ih a ha h hΓ) hΓ
  | ifThen tag c y ihc ihy | loop tag c y ihc ihy =>
    obtain ⟨-, hc, hy⟩ := h
    rw [Tree.loadsStored, ihc hc.scoped hΓ, ihy hy (hor _ hΓ), Bool.and_self]
  | ifElse tag c y n ihc ihy ihn =>
    obtain ⟨-, hc, hy, hn⟩ := h
    rw [Tree.loadsStored, ihc hc.scoped hΓ, ihy hy (hor _ hΓ), ihn hn (hor _ hΓ),
      Bool.and_self, Bool.and_self]
  | retValue tag v ih =>
    rw [Tree.loadsStored]
    exact ih h.2.scoped hΓ

theorem IsExpr.yields {Θ : Typing} (he : t.IsExpr) (ht : t.Typed Θ) (hv : t.ty.isValue = true) :
    t.yields = true := by
  cases hf : t.operator? with
  | some f => rw [yields_operator hf, (ht.operator hf).2.1, hv]
  | none =>
    cases t with
    | const | load => rfl
    | failFast tag => simp [ty, Tree.tag, ht.2, Ty.isValue] at hv
    | call | binary | unary | toReal | print => cases hf
    | seq | ifThen | ifElse | loop | ret | retValue => exact he.elim

end Tree

/-- All loads of a routine come after stores; the parameters are there from the beginning. -/
def Routine.LoadsStored (r : Routine) : Prop := ∀ x, x ∉ r.parameters →
    r.body.loadsStored x false = true

theorem Routine.loadsStored_iff {r : Routine} : r.LoadsStored ↔ ∀ x ∈ r.body.loads,
    (r.locals[x]?.any (·.isParameter)) = true ∨ r.body.loadsStored x false = true := by
  have hparam : ∀ x, x ∈ r.parameters ↔ (r.locals[x]?.any (·.isParameter)) = true := fun x => by
    simp [Routine.parameters, Option.any_eq_true]
  constructor
  · intro h x _
    rw [← hparam, or_iff_not_imp_left]
    exact h x
  · intro h x hx
    by_cases hl : x ∈ r.body.loads
    · exact (h x hl).resolve_left fun hp => hx ((hparam x).mpr hp)
    · exact Tree.loadsStored_of_imp fun hl' => absurd hl' hl

instance (r : Routine) : Decidable r.LoadsStored := decidable_of_iff _ Routine.loadsStored_iff.symm

theorem Routine.WellScoped.loadsStored {r : Routine} (h : r.WellScoped) : r.LoadsStored :=
  fun _ hx => h.inScope.loadsStored fun hx' => absurd hx' hx

end Codewright
