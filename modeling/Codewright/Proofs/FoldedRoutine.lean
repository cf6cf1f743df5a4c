import Codewright.Proofs.Building
import Codewright.Proofs.ConstantFolding

/-!
# What folding keeps of a routine

A folded tree mentions the same locals in the same order: what disappears are constants without a
store. So a routine that has been built still is what the passes rely on after its constants have
been folded.
-/

namespace Codewright

namespace Tree

variable {t : Tree} {f : Operator} {Γ U : Set LocalId} {Θ : Typing}

/-- A node stays the same node on the folded parts, or it is an operator and becomes a constant
since its operands do. -/
theorem folded_cases (t : Tree) : t.folded = t.withParts (t.parts.map folded) ∨
    ∃ f, t.operator? = some f ∧ f.yields = true ∧
      (∀ a ∈ f.operands, ∃ tag v, a.folded = .const tag v) ∧
      ∃ ty v, t.folded = .const { t.tag with ty } v := by
  rw [folded_eq, foldNode]
  cases hc : (t.withParts (t.parts.map folded)).foldValue? with
  | none => exact .inl rfl
  | some c =>
    rw [tag_withParts]
    rcases foldValue?_eq_some hc with ⟨tag, op, tl, a, tr, b, heq, -⟩ | ⟨tag, op, tt, a, heq, -⟩ <;>
      cases t <;> simp only [parts, withParts, List.map_cons, List.map_nil, reduceCtorEq,
        binary.injEq, unary.injEq] at heq
    · exact .inr ⟨_, rfl, rfl, by simp [heq], c.ty, c, rfl⟩
    · exact .inr ⟨_, rfl, rfl, by simp [heq], c.ty, c, rfl⟩

/-- An operator stays one on the folded operands, or becomes a constant if these are constants. -/
theorem folded_operator (h : t.operator? = some f) :
    (t.folded.operator? = some { f with operands := f.operands.map folded } ∧
      t.folded.tag = t.tag) ∨
    (f.yields = true ∧ (∀ a ∈ f.operands, ∃ tag v, a.folded = .const tag v) ∧
      ∃ ty v, t.folded = .const { t.tag with ty } v) := by
  rcases folded_cases t with heq | ⟨f', hf', hconst⟩
  · rw [heq, tag_withParts]
    refine .inl ⟨?_, rfl⟩
    cases t <;> cases h <;> rfl
  · obtain rfl := Option.some.inj (h.symm.trans hf')
    exact .inr hconst

/-- The same locals are loaded, stored into and defined. -/
def SameLocals (t t' : Tree) : Prop :=
  t'.loads = t.loads ∧ t'.stores = t.stores ∧ t'.defines = t.defines

theorem SameLocals.mentions {t' : Tree} (h : SameLocals t t') : t'.mentions = t.mentions := by
  rw [Tree.mentions, h.1, h.2.1, Tree.mentions]

section

variable {g : Tree → Tree} {ts : List Tree} (h : ∀ a ∈ ts, SameLocals a (g a))

include h

theorem definesAll_map : definesAll (ts.map g) = definesAll ts := by
  rw [definesAll_eq, definesAll_eq, List.flatMap_map]
  exact List.flatMap_congr fun a ha => (h a ha).2.2

theorem mentionsAll_map : mentionsAll (ts.map g) = mentionsAll ts := by
  rw [mentionsAll, mentionsAll, List.flatMap_map]
  exact List.flatMap_congr fun a ha => (h a ha).mentions

theorem InOrder.map {S : Set LocalId → Set LocalId → Tree → Prop}
    (hS : ∀ a ∈ ts, ∀ Γ U, S Γ U a → S Γ U (g a)) (ho : InOrder S Γ U ts) :
    InOrder S Γ U (ts.map g) := by
  induction ts generalizing Γ U with
  | nil => trivial
  | cons a rest ih =>
    have ha := h a (by simp)
    refine ⟨hS a (by simp) Γ U ho.1, ?_⟩
    rw [ha.2.2, ha.mentions]
    exact ih (fun b hb => h b (List.mem_cons_of_mem _ hb))
      (fun b hb => hS b (List.mem_cons_of_mem _ hb)) ho.2

end

theorem mentions_of_constant {a : Tree} (h : SameLocals a a.folded) (hs : a.store = none)
    (hc : ∃ tag v, a.folded = .const tag v) : a.loads = [] ∧ a.stores = [] ∧ a.defines = [] := by
  obtain ⟨tag, v, hc⟩ := hc
  have hstore : tag.store = none := by
    rw [← hs, ← store_folded a, hc]
    rfl
  rw [← h.1, ← h.2.1, ← h.2.2, hc]
  simp [loads, stores, defines, hstore]

theorem sameLocals_folded (h : t.Bare) : SameLocals t t.folded := by
  induction t using induction_parts with
  | h t ih =>
    have ih : ∀ p ∈ t.parts, SameLocals p p.folded := fun p hp => ih p hp (h.parts p hp)
    rcases folded_cases t with heq | ⟨f, hf, hy, hconst, ty, v, heq⟩
    · rw [heq]
      refine ⟨loads_withParts ?_, stores_withParts ?_, defines_withParts ?_⟩ <;>
        rw [List.flatMap_map] <;>
        refine List.flatMap_congr fun p hp => ?_
      · exact (ih p hp).1
      · exact (ih p hp).2.1
      · exact (ih p hp).2.2
    · rw [bare_operator hf] at h
      rw [parts_operator hf] at ih
      have hnone := fun a ha => mentions_of_constant (ih a ha) (h a ha).1 (hconst a ha)
      rw [heq]
      refine ⟨?_, ?_, ?_⟩
      · rw [loads_operator hf, loadsAll_eq, List.flatMap_eq_nil_iff.mpr fun a ha => (hnone a ha).1]
        rfl
      · rw [stores_operator hf, storesAll_eq,
          List.flatMap_eq_nil_iff.mpr fun a ha => (hnone a ha).2.1]
        rfl
      · rw [defines_operator hf, definesAll_eq,
          List.flatMap_eq_nil_iff.mpr fun a ha => (hnone a ha).2.2, hy]
        rfl

theorem scopedExpr_folded {again : Bool} (hb : t.Bare) (h : t.ScopedExpr again Γ U) :
    t.folded.ScopedExpr again Γ U := by
  induction t using Tree.induction generalizing again Γ U with
  | const | load | failFast => exact h
  | operator t f hf ih =>
    rw [bare_operator hf] at hb
    have hsame : ∀ a ∈ f.operands, SameLocals a a.folded :=
      fun a ha => sameLocals_folded (hb a ha).2
    obtain ⟨hops, hs⟩ := (scopedExpr_operator hf).mp h
    rcases folded_operator hf with ⟨hf', htag⟩ | ⟨-, hconst, ty, v, heq⟩
    · rw [scopedExpr_operator hf', definesAll_map hsame, mentionsAll_map hsame, store_folded]
      exact ⟨hops.map hsame fun a ha Γ U h => ih a ha (hb a ha).2 h, hs⟩
    · have hnone := fun a ha => mentions_of_constant (hsame a ha) (hb a ha).1 (hconst a ha)
      have hd : definesAll f.operands = [] := by
        rw [definesAll_eq, List.flatMap_eq_nil_iff.mpr fun a ha => (hnone a ha).2.2]
      have hm : mentionsAll f.operands = [] := List.flatMap_eq_nil_iff.mpr fun a ha => by
        rw [Tree.mentions, (hnone a ha).1, (hnone a ha).2.1, List.append_nil]
      rw [hd, hm, withLocals_nil, withLocals_nil] at hs
      rw [heq]
      exact hs
  | seq | ifThen | ifElse | loop | ret | retValue => exact h.elim

theorem scoped_folded (hb : t.Bare) (h : t.Scoped Γ U) : t.folded.Scoped Γ U := by
  induction t using Tree.induction generalizing Γ U with
  | const | load | failFast | ret => exact h
  | operator t f hf _ =>
    have h := scopedExpr_folded hb ((scoped_operator hf).mp h)
    rcases folded_operator hf with ⟨hf', -⟩ | ⟨-, -, ty, v, heq⟩
    · exact (scoped_operator hf').mpr h
    · rw [heq] at h ⊢
      exact h
  | seq tag body ih =>
    have hb := allBare_iff.mp hb
    obtain ⟨hs, h⟩ := scoped_seq.mp h
    rw [folded, allFolded_eq_map]
    exact scoped_seq.mpr ⟨hs, h.map (fun a ha => sameLocals_folded (hb a ha))
      fun a ha Γ U h => ih a ha (hb a ha) h⟩
  | ifThen tag c y _ ihy =>
    obtain ⟨hs, hc, hy⟩ := h
    refine ⟨hs, scopedExpr_folded hb.1.2 hc, ?_⟩
    rw [(sameLocals_folded hb.1.2).mentions]
    exact ihy hb.2 hy
  | ifElse tag c y n _ ihy ihn =>
    obtain ⟨hs, hc, hy, hn⟩ := h
    refine ⟨hs, scopedExpr_folded hb.1.2 hc, ?_, ?_⟩
    · rw [(sameLocals_folded hb.1.2).mentions]
      exact ihy hb.2.1 hy
    · rw [(sameLocals_folded hb.1.2).mentions, (sameLocals_folded hb.2.1).mentions]
      exact ihn hb.2.2 hn
  | loop tag c b _ ihb =>
    obtain ⟨hs, hc, hbody⟩ := h
    refine ⟨hs, scopedExpr_folded hb.1.2 hc, ?_⟩
    rw [(sameLocals_folded hb.1.2).mentions]
    exact ihb hb.2 hbody
  | retValue tag v _ => exact ⟨h.1, scopedExpr_folded hb.2 h.2⟩

theorem bare_folded (h : t.Bare) : t.folded.Bare := by
  induction t using induction_parts with
  | h t ih =>
    rcases folded_cases t with heq | ⟨f, -, -, -, ty, v, heq⟩
    · rw [heq]
      refine h.withParts (by simp) fun p hp => ?_
      obtain ⟨q, hq, rfl⟩ := List.mem_map.mp hp
      exact ih q hq (h.parts q hq)
    · rw [heq]
      trivial

theorem Typed.operatorsTyped (h : t.Typed Θ) : t.OperatorsTyped := by
  induction t using induction_parts with
  | h t ih =>
    have ih := fun p hp => ih p hp (h.parts p hp)
    cases t <;> simp_all [Typed, OperatorsTyped, Tree.parts, allOperatorsTyped_iff] <;> rfl

/-- Folding keeps the types, at the root and everywhere. -/
theorem Typed.folded (h : t.Typed Θ) : t.folded.ty = t.ty ∧ t.folded.Typed Θ := by
  refine ⟨(typed_folded t h.operatorsTyped).1, ?_⟩
  induction t using induction_parts with
  | h t ih =>
    have hparts : (t.withParts (t.parts.map Tree.folded)).Typed Θ := by
      refine h.withParts ?_ (List.forall_mem_map.mpr fun p hp => ih p hp (h.parts p hp))
      rw [List.map_map]
      exact List.map_congr_left fun p hp => (typed_folded p (h.parts p hp).operatorsTyped).1
    rw [folded_eq, foldNode]
    cases hc : (t.withParts (t.parts.map Tree.folded)).foldValue? with
    | none => exact hparts
    | some c =>
      have hstores : Θ.Stores (t.withParts (t.parts.map Tree.folded)).tag := by
        rcases foldValue?_eq_some hc with ⟨_, _, _, _, _, _, heq, -⟩ | ⟨_, _, _, _, heq, -⟩ <;>
          rw [heq] at hparts ⊢ <;> exact hparts.1
      have hty : c.ty = _ := hparts.operatorsTyped.ty_foldValue? hc
      exact ⟨by simp only [hty]; exact hstores, rfl⟩

theorem returns_folded (t : Tree) : t.folded.returns = t.returns := by
  induction t using induction_parts with
  | h t ih =>
    rcases folded_cases t with heq | ⟨f, hf, -, -, ty, v, heq⟩
    · rw [heq, returns_withParts]
      rw [List.map_map]
      exact List.map_congr_left ih
    · rw [heq, returns_operator hf]
      rfl

end Tree

/-- A built routine stays one when its constants are folded. -/
theorem Routine.Built.foldConstants {symbols : Symbols} {r : Routine} (h : r.Built symbols) :
    r.foldConstants.1.Built symbols := by
  have hbody : r.foldConstants.1.body = r.body.folded := Tree.fold_fst 0 r.body
  have hsame := Tree.sameLocals_folded h.bare
  exact
    { inScope := by rw [hbody]; exact Tree.scoped_folded h.bare h.inScope
      inTable := by rw [hbody, hsame.mentions]; exact h.inTable
      result := h.result
      params := h.params
      paramCount_lt := h.paramCount_lt
      uses := by rw [hbody, hsame.1]; exact h.uses
      assignments := by rw [hbody, hsame.2.1]; exact h.assignments
      bare := by rw [hbody]; exact Tree.bare_folded h.bare
      returns := by rw [hbody, Tree.returns_folded]; exact h.returns
      typed := fun Θ hΘ hres => by rw [hbody]; exact (h.typed Θ hΘ hres).folded.2 }

end Codewright
