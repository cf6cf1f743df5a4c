import Codewright.Proofs.Parts

/-!
# Scoping

A tree is scoped with respect to the locals `Γ` that are known and have a value, and the locals `U`
that have been met before. It loads only locals of `Γ`, and an expression that is an operand stores
only into a local that has not been met. A statement may also store into a local of `Γ` again. What
a branch or a loop introduces is not known after it, but it has been met: it is never mentioned
again.

This is the discipline that makes one linear numbering of the evaluation enough for liveness.
-/

namespace Codewright

/-- A set of locals with some more. -/
def withLocals (s : Set LocalId) (xs : List LocalId) : Set LocalId := {x | x ∈ s ∨ x ∈ xs}

@[simp] theorem mem_withLocals {s : Set LocalId} {xs : List LocalId} {x : LocalId} :
    x ∈ withLocals s xs ↔ x ∈ s ∨ x ∈ xs := Iff.rfl

@[simp] theorem withLocals_nil (s : Set LocalId) : withLocals s [] = s := by
  ext x
  simp

theorem withLocals_append (s : Set LocalId) (xs ys : List LocalId) :
    withLocals s (xs ++ ys) = withLocals (withLocals s xs) ys := by
  ext x
  simp [or_assoc]

theorem subset_withLocals (s : Set LocalId) (xs : List LocalId) : s ⊆ withLocals s xs :=
  fun _ h => .inl h

namespace Tree

/-- A store is allowed: into a local that has not been met, or `again` into a known one. -/
def StoreScoped (again : Bool) (Γ U : Set LocalId) (store : Option LocalId) : Prop :=
  ∀ x, store = some x → x ∉ U ∨ (again = true ∧ x ∈ Γ)

mutual

/-- An expression is scoped. `again` is for one that stands as a statement. -/
def ScopedExpr (again : Bool) (Γ U : Set LocalId) : Tree → Prop
  | .const tag _ | .failFast tag => StoreScoped again Γ U tag.store
  | .load tag x => x ∈ Γ ∧ StoreScoped again Γ (withLocals U [x]) tag.store
  | .call tag _ args | .print tag args => ScopedOperands Γ U args ∧
    StoreScoped again (withLocals Γ (definesAll args)) (withLocals U (mentionsAll args)) tag.store
  | .binary tag _ left right => ScopedExpr false Γ U left ∧
    ScopedExpr false (withLocals Γ left.defines) (withLocals U left.mentions) right ∧
    StoreScoped again (withLocals Γ (definesAll [left, right]))
      (withLocals U (mentionsAll [left, right])) tag.store
  | .unary tag _ operand | .toReal tag operand => ScopedExpr false Γ U operand ∧
    StoreScoped again (withLocals Γ (definesAll [operand]))
      (withLocals U (mentionsAll [operand])) tag.store
  | .seq _ _ | .ifThen _ _ _ | .ifElse _ _ _ _ | .loop _ _ _ | .ret _ | .retValue _ _ => False

/-- Operands are scoped in the order of their evaluation. -/
def ScopedOperands (Γ U : Set LocalId) : List Tree → Prop
  | [] => True
  | t :: rest => ScopedExpr false Γ U t ∧
    ScopedOperands (withLocals Γ t.defines) (withLocals U t.mentions) rest

end

mutual

/-- A statement is scoped. -/
def Scoped (Γ U : Set LocalId) : Tree → Prop
  | .seq tag body => tag.store = none ∧ ScopedSeq Γ U body
  | .ifThen tag condition yes => tag.store = none ∧ ScopedExpr false Γ U condition ∧
    Scoped Γ (withLocals U condition.mentions) yes
  | .ifElse tag condition yes no => tag.store = none ∧ ScopedExpr false Γ U condition ∧
    Scoped Γ (withLocals U condition.mentions) yes ∧
    Scoped Γ (withLocals U (condition.mentions ++ yes.mentions)) no
  | .loop tag condition body => tag.store = none ∧ ScopedExpr false Γ U condition ∧
    Scoped Γ (withLocals U condition.mentions) body
  | .ret tag => tag.store = none
  | .retValue tag value => tag.store = none ∧ ScopedExpr false Γ U value
  | .const tag value => ScopedExpr true Γ U (.const tag value)
  | .load tag x => ScopedExpr true Γ U (.load tag x)
  | .call tag callee args => ScopedExpr true Γ U (.call tag callee args)
  | .binary tag op left right => ScopedExpr true Γ U (.binary tag op left right)
  | .unary tag op operand => ScopedExpr true Γ U (.unary tag op operand)
  | .print tag args => ScopedExpr true Γ U (.print tag args)
  | .failFast tag => ScopedExpr true Γ U (.failFast tag)
  | .toReal tag operand => ScopedExpr true Γ U (.toReal tag operand)

def ScopedSeq (Γ U : Set LocalId) : List Tree → Prop
  | [] => True
  | t :: rest => Scoped Γ U t ∧ ScopedSeq (withLocals Γ t.defines) (withLocals U t.mentions) rest

end

/-- Trees are scoped one after the other, each by `S`. -/
def InOrder (S : Set LocalId → Set LocalId → Tree → Prop) (Γ U : Set LocalId) : List Tree → Prop
  | [] => True
  | t :: rest => S Γ U t ∧ InOrder S (withLocals Γ t.defines) (withLocals U t.mentions) rest

section

variable {t : Tree} {f : Operator} {ts : List Tree} {again : Bool} {Γ Γ' U U' : Set LocalId}
  {S S' : Set LocalId → Set LocalId → Tree → Prop}

theorem scopedOperands_iff : ScopedOperands Γ U ts ↔ InOrder (ScopedExpr false) Γ U ts := by
  induction ts generalizing Γ U with
  | nil => exact Iff.rfl
  | cons t rest ih => rw [ScopedOperands, InOrder, ih]

theorem scopedSeq_iff : ScopedSeq Γ U ts ↔ InOrder Scoped Γ U ts := by
  induction ts generalizing Γ U with
  | nil => exact Iff.rfl
  | cons t rest ih => rw [ScopedSeq, InOrder, ih]

/-- A node that computes: its operands in order, and then its store. -/
theorem scopedExpr_operator (h : t.operator? = some f) :
    ScopedExpr again Γ U t ↔ InOrder (ScopedExpr false) Γ U f.operands ∧
      StoreScoped again (withLocals Γ (definesAll f.operands))
        (withLocals U (mentionsAll f.operands)) t.store := by
  rw [← scopedOperands_iff]
  cases t <;> cases h <;> simp [ScopedExpr, ScopedOperands, store, tag, and_assoc]

theorem scoped_operator (h : t.operator? = some f) : Scoped Γ U t ↔ ScopedExpr true Γ U t := by
  cases t <;> simp only [operator?, reduceCtorEq] at h <;> simp only [Scoped]

theorem scoped_seq {tag : Tag} :
    Scoped Γ U (.seq tag ts) ↔ tag.store = none ∧ InOrder Scoped Γ U ts := by
  rw [Scoped, scopedSeq_iff]

/-- Trees of two lists are scoped in order if those of each are, from where the first ends. -/
theorem inOrder_append {us : List Tree} : InOrder S Γ U (ts ++ us) ↔
    InOrder S Γ U ts ∧
      InOrder S (withLocals Γ (definesAll ts)) (withLocals U (mentionsAll ts)) us := by
  induction ts generalizing Γ U with
  | nil => simp [InOrder, definesAll, mentionsAll]
  | cons t rest ih =>
    rw [List.cons_append, InOrder, InOrder, ih, and_assoc, definesAll, mentionsAll_cons,
      withLocals_append, withLocals_append]

/-- Each of several trees is scoped, by more that has been met. -/
theorem InOrder.of_mem (h : InOrder S Γ U ts) (ht : t ∈ ts) : ∃ Γ' U', U ⊆ U' ∧ S Γ' U' t := by
  induction ts generalizing Γ U with
  | nil => cases ht
  | cons u rest ih =>
    rcases List.mem_cons.mp ht with rfl | ht
    · exact ⟨Γ, U, le_refl _, h.1⟩
    · obtain ⟨Γ', U', hU, h⟩ := ih h.2 ht
      exact ⟨Γ', U', (subset_withLocals _ _).trans hU, h⟩

/-! ## More known, less met

Only the locals that a tree mentions matter.
-/

theorem withLocals_imp {s s' : Set LocalId} {xs : List LocalId} {x : LocalId}
    (h : x ∈ s → x ∈ s') : x ∈ withLocals s xs → x ∈ withLocals s' xs :=
  Or.imp_left h

/-- A store stays allowed. -/
theorem StoreScoped.mono {store : Option LocalId} (hΓ : ∀ x, store = some x → x ∈ Γ → x ∈ Γ')
    (hU : ∀ x, store = some x → x ∈ U' → x ∈ U) (h : StoreScoped again Γ U store) :
    StoreScoped again Γ' U' store :=
  fun x hx => (h x hx).imp (fun h' hx' => h' (hU x hx hx')) (fun h' => ⟨h'.1, hΓ x hx h'.2⟩)

/-- Trees stay scoped where more of what they mention is known and less of it has been met. -/
theorem InOrder.mono (hS : ∀ t ∈ ts, ∀ Γ Γ' U U', (∀ x ∈ t.mentions, x ∈ Γ → x ∈ Γ') →
      (∀ x ∈ t.mentions, x ∈ U' → x ∈ U) → S Γ U t → S Γ' U' t)
    (hΓ : ∀ x ∈ mentionsAll ts, x ∈ Γ → x ∈ Γ') (hU : ∀ x ∈ mentionsAll ts, x ∈ U' → x ∈ U)
    (h : InOrder S Γ U ts) : InOrder S Γ' U' ts := by
  induction ts generalizing Γ Γ' U U' with
  | nil => trivial
  | cons t rest ih =>
    obtain ⟨ht, hrest⟩ := h
    have hm : ∀ x, x ∈ t.mentions ∨ x ∈ mentionsAll rest → x ∈ mentionsAll (t :: rest) :=
      fun x hx => by simpa [mentionsAll] using hx
    refine ⟨hS t (by simp) Γ Γ' U U' (fun x hx => hΓ x (hm x (.inl hx)))
      (fun x hx => hU x (hm x (.inl hx))) ht, ?_⟩
    exact ih (fun t ht => hS t (List.mem_cons_of_mem _ ht))
      (fun x hx => withLocals_imp (hΓ x (hm x (.inr hx))))
      (fun x hx => withLocals_imp (hU x (hm x (.inr hx)))) hrest

/-- An expression stays scoped. -/
theorem ScopedExpr.mono (hΓ : ∀ x ∈ t.mentions, x ∈ Γ → x ∈ Γ')
    (hU : ∀ x ∈ t.mentions, x ∈ U' → x ∈ U) (h : ScopedExpr again Γ U t) :
    ScopedExpr again Γ' U' t := by
  induction t using Tree.induction generalizing again Γ Γ' U U' with
  | const tag value | failFast tag =>
    exact StoreScoped.mono (fun x hx => hΓ x (by simpa [mentions, loads, stores] using hx))
      (fun x hx => hU x (by simpa [mentions, loads, stores] using hx)) h
  | load tag x =>
    have hm : ∀ y, tag.store = some y → y ∈ (Tree.load tag x).mentions := fun y hy => by
      simp [mentions, loads, stores, hy]
    refine ⟨hΓ x (by simp [mentions, loads]) h.1, ?_⟩
    exact h.2.mono (fun y hy => hΓ y (hm y hy)) (fun y hy => withLocals_imp (hU y (hm y hy)))
  | operator t f hf ih =>
    have hm : ∀ x, x ∈ mentionsAll f.operands ∨ t.store = some x → x ∈ t.mentions :=
      fun x => (mem_mentions_operator hf).mpr
    rw [scopedExpr_operator hf] at h ⊢
    refine ⟨h.1.mono (fun a ha _ _ _ _ h₁ h₂ h₃ => ih a ha h₁ h₂ h₃)
      (fun x hx => hΓ x (hm x (.inl hx))) (fun x hx => hU x (hm x (.inl hx))), ?_⟩
    exact h.2.mono (fun x hx => withLocals_imp (hΓ x (hm x (.inr hx))))
      (fun x hx => withLocals_imp (hU x (hm x (.inr hx))))
  | seq | ifThen | ifElse | loop | ret | retValue => exact h.elim

/-- A statement stays scoped. -/
theorem Scoped.mono (hΓ : ∀ x ∈ t.mentions, x ∈ Γ → x ∈ Γ')
    (hU : ∀ x ∈ t.mentions, x ∈ U' → x ∈ U) (h : Scoped Γ U t) : Scoped Γ' U' t := by
  induction t using induction_parts generalizing Γ Γ' U U' with
  | h t ih =>
    have hΓp : ∀ p ∈ t.parts, ∀ x ∈ p.mentions, x ∈ Γ → x ∈ Γ' :=
      fun p hp x hx => hΓ x (mentions_of_parts hp hx)
    have hUp : ∀ p ∈ t.parts, ∀ x ∈ p.mentions, x ∈ U' → x ∈ U :=
      fun p hp x hx => hU x (mentions_of_parts hp hx)
    cases t with
    | seq tag body =>
      rw [scoped_seq] at h ⊢
      exact ⟨h.1, h.2.mono (fun a ha _ _ _ _ h₁ h₂ h₃ => ih a ha h₁ h₂ h₃)
        (fun x hx => hΓ x (mem_mentions_seq.mpr (.inl hx)))
        (fun x hx => hU x (mem_mentions_seq.mpr (.inl hx)))⟩
    | ifThen tag c y =>
      obtain ⟨hs, hc, hy⟩ := h
      simp only [parts, List.forall_mem_cons] at ih hΓp hUp
      exact ⟨hs, hc.mono hΓp.1 hUp.1, ih.2.1 hΓp.2.1 (fun x hx => withLocals_imp (hUp.2.1 x hx)) hy⟩
    | ifElse tag c y n =>
      obtain ⟨hs, hc, hy, hn⟩ := h
      simp only [parts, List.forall_mem_cons] at ih hΓp hUp
      exact ⟨hs, hc.mono hΓp.1 hUp.1, ih.2.1 hΓp.2.1 (fun x hx => withLocals_imp (hUp.2.1 x hx)) hy,
        ih.2.2.1 hΓp.2.2.1 (fun x hx => withLocals_imp (hUp.2.2.1 x hx)) hn⟩
    | loop tag c b =>
      obtain ⟨hs, hc, hb⟩ := h
      simp only [parts, List.forall_mem_cons] at ih hΓp hUp
      exact ⟨hs, hc.mono hΓp.1 hUp.1, ih.2.1 hΓp.2.1 (fun x hx => withLocals_imp (hUp.2.1 x hx)) hb⟩
    | ret => exact h
    | retValue tag v =>
      exact ⟨h.1, h.2.mono (hΓp v List.mem_cons_self) (hUp v List.mem_cons_self)⟩
    | _ => exact ScopedExpr.mono hΓ hU h

/-! ## Scoped parts

An operand is scoped as a statement too, so that the parts of every node are scoped statements, one
after the other.
-/

/-- An operand is scoped as a statement. -/
theorem ScopedExpr.scoped (h : ScopedExpr again Γ U t) : Scoped Γ U t := by
  have hstore : ∀ {Γ U store}, StoreScoped again Γ U store → StoreScoped true Γ U store :=
    fun h x hx => (h x hx).imp_right fun h' => ⟨rfl, h'.2⟩
  cases t with
  | const | failFast => exact hstore h
  | load | call | print | unary | toReal => exact ⟨h.1, hstore h.2⟩
  | binary => exact ⟨h.1, h.2.1, hstore h.2.2⟩
  | seq | ifThen | ifElse | loop | ret | retValue => exact h.elim

theorem InOrder.imp (hS : ∀ Γ U t, S Γ U t → S' Γ U t) (h : InOrder S Γ U ts) :
    InOrder S' Γ U ts := by
  induction ts generalizing Γ U with
  | nil => trivial
  | cons t rest ih => exact ⟨hS Γ U t h.1, ih h.2⟩

/-- The parts of a scoped node are scoped in the order of evaluation. -/
theorem Scoped.parts (h : Scoped Γ U t) : InOrder Scoped Γ U t.parts := by
  -- What a branch may load is known in the order of evaluation as well.
  have hknown : ∀ {Γ' U y}, Γ ⊆ Γ' → Scoped Γ U y → Scoped Γ' U y := fun hΓ h =>
    h.mono (fun _ _ hx => hΓ hx) fun _ _ hx => hx
  cases t with
  | const | load | failFast | ret => trivial
  | call | print | binary | unary | toReal =>
    exact ((scopedExpr_operator rfl).mp h).1.imp fun _ _ _ h => h.scoped
  | seq => exact (scoped_seq.mp h).2
  | ifThen | loop => exact ⟨h.2.1.scoped, hknown (subset_withLocals _ _) h.2.2, trivial⟩
  | ifElse tag c y n =>
    obtain ⟨-, hc, hy, hn⟩ := h
    rw [withLocals_append] at hn
    refine ⟨hc.scoped, hknown (subset_withLocals _ _) hy, hknown ?_ hn, trivial⟩
    exact (subset_withLocals _ _).trans (subset_withLocals _ _)
  | retValue => exact ⟨h.2.scoped, trivial⟩

/-- The store of a scoped node is allowed after its parts. -/
theorem Scoped.stored (h : Scoped Γ U t) : StoreScoped true (withLocals Γ (definesAll t.parts))
    (withLocals U (mentionsAll t.parts)) t.store := by
  cases t with
  | const | failFast => simpa [Tree.parts, definesAll, Scoped, ScopedExpr, store, tag] using h
  | load =>
    exact h.2.mono (fun _ _ hx => .inl hx) fun _ _ hx => by simpa [Tree.parts] using Or.inl hx
  | call | print | binary | unary | toReal => exact ((scopedExpr_operator rfl).mp h).2
  | seq | ifThen | ifElse | loop | retValue => exact fun x hx => by cases h.1.symm.trans hx
  | ret => exact fun x hx => by cases Eq.trans (Eq.symm h) hx

/-! ## What is met and not known

Such a local is out of reach: it is not mentioned, and it stays so.
-/

section

variable {x : LocalId}

theorem not_mem_withLocals_definesAll (h : x ∉ Γ) (hx : x ∉ mentionsAll ts) :
    x ∉ withLocals Γ (definesAll ts) := by
  rintro (h' | h')
  · exact h h'
  · rw [definesAll_eq] at h'
    obtain ⟨t, ht, h'⟩ := List.mem_flatMap.mp h'
    exact hx (List.mem_flatMap.mpr ⟨t, ht, mentions_of_defines h'⟩)

theorem InOrder.not_mentioned
    (hS : ∀ t ∈ ts, ∀ Γ U, S Γ U t → x ∈ U → x ∉ Γ → x ∉ t.mentions)
    (h : InOrder S Γ U ts) (hU : x ∈ U) (hΓ : x ∉ Γ) : x ∉ mentionsAll ts := by
  induction ts generalizing Γ U with
  | nil => simp
  | cons t rest ih =>
    have ht := hS t (by simp) Γ U h.1 hU hΓ
    have hrest := ih (fun t ht => hS t (List.mem_cons_of_mem _ ht)) h.2 (.inl hU)
      fun h' => h'.elim hΓ fun h' => ht (mentions_of_defines h')
    rw [mentionsAll_cons, List.mem_append]
    exact fun h => h.elim ht hrest

/-- What has been met and is not known is not mentioned. -/
theorem Scoped.not_mentioned (h : Scoped Γ U t) (hU : x ∈ U) (hΓ : x ∉ Γ) : x ∉ t.mentions := by
  induction t using induction_parts generalizing Γ U with
  | h t ih =>
    have hparts := h.parts.not_mentioned (fun a ha _ _ h₁ h₂ h₃ => ih a ha h₁ h₂ h₃) hU hΓ
    rw [mem_mentions_iff]
    rintro (hx | ⟨tag, rfl⟩ | hx)
    · exact hparts hx
    · exact hΓ h.1
    · exact (h.stored x hx).elim (fun h' => h' (.inl hU))
        (fun h' => not_mem_withLocals_definesAll hΓ hparts h'.2)

/-- An operand does not store into what has been met. -/
theorem ScopedExpr.not_stored (h : ScopedExpr false Γ U t) (hU : x ∈ U) : x ∉ t.stores := by
  induction t using Tree.induction generalizing Γ U with
  | const tag value | failFast tag =>
    intro hx
    exact (h x (by simpa [stores] using hx)).elim (fun h' => h' hU) (fun h' => by simp at h')
  | load tag y =>
    intro hx
    exact (h.2 x (by simpa [stores] using hx)).elim (fun h' => h' (.inl hU))
      (fun h' => by simp at h')
  | operator t f hf ih =>
    obtain ⟨hops, hs⟩ := (scopedExpr_operator hf).mp h
    rw [stores_operator hf, storesAll_eq, List.mem_append, List.mem_flatMap, Option.mem_toList]
    rintro (⟨a, ha, hx⟩ | hx)
    · obtain ⟨Γ', U', hU', ha'⟩ := hops.of_mem ha
      exact ih a ha ha' (hU' hU) hx
    · exact (hs x hx).elim (fun h' => h' (.inl hU)) (fun h' => by simp at h')
  | seq | ifThen | ifElse | loop | ret | retValue => exact h.elim

theorem InOrder.not_stored (h : InOrder (ScopedExpr false) Γ U ts) (hU : x ∈ U) :
    x ∉ storesAll ts := by
  rw [storesAll_eq, List.mem_flatMap]
  rintro ⟨t, ht, hx⟩
  obtain ⟨Γ', U', hU', ht'⟩ := h.of_mem ht
  exact ht'.not_stored (hU' hU) hx

end

end

end Tree

/-! ## Routines -/

namespace Routine

/-- The locals that are parameters. -/
def parameters (r : Routine) : Set LocalId :=
  {x | ∃ l, r.locals[x]? = some l ∧ l.isParameter = true}

/-- The parameters follow the result in the table, and the body is scoped from them on and keeps to
the table. -/
structure WellScoped (r : Routine) : Prop where
  params : ∀ x, x ∈ r.parameters ↔ 1 ≤ x ∧ x ≤ r.paramCount
  paramCount_lt : r.paramCount < r.locals.size
  inScope : r.body.Scoped r.parameters r.parameters
  inTable : ∀ x ∈ r.body.mentions, x < r.locals.size

/-- The result stands first in the table and the parameters follow it; the body may be anything. -/
structure Arranged (r : Routine) : Prop where
  params : ∀ x, x ∈ r.parameters ↔ 1 ≤ x ∧ x ≤ r.paramCount
  paramCount_lt : r.paramCount < r.locals.size

theorem WellScoped.arranged {r : Routine} (h : r.WellScoped) : r.Arranged :=
  ⟨h.params, h.paramCount_lt⟩

/-- The arrangement as a check of the table. -/
theorem arranged_iff {r : Routine} : r.Arranged ↔ r.paramCount < r.locals.size ∧
    ∀ x : Fin r.locals.size, r.locals[x].isParameter = true ↔ 1 ≤ x.val ∧ x.val ≤ r.paramCount := by
  have hmem : ∀ x : Fin r.locals.size, x.val ∈ r.parameters ↔ r.locals[x].isParameter = true := by
    intro x
    simp [parameters]
  constructor
  · intro h
    exact ⟨h.paramCount_lt, fun x => (hmem x).symm.trans (h.params x)⟩
  · rintro ⟨hlt, h⟩
    refine ⟨fun x => ?_, hlt⟩
    by_cases hx : x < r.locals.size
    · exact (hmem ⟨x, hx⟩).trans (h ⟨x, hx⟩)
    · constructor
      · rintro ⟨l, hl, -⟩
        exact absurd (Array.getElem?_eq_some_iff.mp hl).1 hx
      · intro hle
        exact absurd (Nat.lt_of_le_of_lt hle.2 hlt) hx

instance (r : Routine) : Decidable r.Arranged := decidable_of_iff _ arranged_iff.symm

end Routine

end Codewright
