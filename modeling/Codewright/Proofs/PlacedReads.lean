import Codewright.Proofs.StorageSharing
import Codewright.Proofs.WellTyped

/-!
# What is read has a place

A local that is touched at one point only gets no place, so that a store into it is dropped. Such a
local is never read: a load comes after the store that made the local known, and an operand is
stored at an earlier point than the one at which its operator reads it.
-/

namespace Codewright

open Evaluation

namespace Tree

/-- A local lives longer than a point. -/
def Wide (iv : LocalId → Option Interval) (x : LocalId) : Prop :=
  ∃ i, iv x = some i ∧ i.first < i.last

/-- What a node reads lives longer than a point: the local of a load, and the locals that operands
are stored into, unless an operand takes no point at all. -/
def ReadsWide (iv : LocalId → Option Interval) (t : Tree) : Prop :=
  (∀ tag x, t = .load tag x → Wide iv x) ∧
  ∀ f, t.operator? = some f → ∀ a ∈ f.operands, 0 < a.points → ∀ x, a.store = some x → Wide iv x

section

variable {iv : LocalId → Option Interval} {t a : Tree} {f : Operator} {ts : List Tree}
  {Γ U : Set LocalId} {p e : Nat} {x : LocalId}

/-- An expression that takes a point touches what it is stored in. -/
theorem ChartedAll.stored (h : ChartedAll iv p ts) (ha : a ∈ ts) (he : a.IsExpr)
    (hp : 0 < a.points) (hx : a.store = some x) :
    ∃ i, iv x = some i ∧ i.first < p + pointsAll ts := by
  have hpoint : a.hasPoint := by
    cases a with
    | failFast => exact absurd hp (Nat.lt_irrefl 0)
    | seq | ifThen | ifElse | loop | ret | retValue => exact he.elim
    | _ => rfl
  obtain ⟨b, hb⟩ := Occurs.of_mem ha p
  obtain ⟨i, hi, hfirst, -⟩ := h.touched ⟨a, b, hb, hpoint, .inr (.inl hx), rfl⟩
  have hle := hb.le.2
  rw [points_eq, if_pos hpoint] at hle
  exact ⟨i, hi, by omega⟩

/-- An operator reads its operands after they have been stored. -/
theorem readsWide_operator (h : t.Charted iv p) (hs : t.ScopedExpr again Γ U)
    (hf : t.operator? = some f) : t.ReadsWide iv := by
  obtain ⟨hops, htouched⟩ := (charted_operator hf).mp h
  refine ⟨fun tag x heq => ?_, fun f' hf' a ha hp x hx => ?_⟩
  · subst heq
    cases hf
  · obtain rfl := Option.some.inj (hf.symm.trans hf')
    obtain ⟨Γ', U', -, ha'⟩ := ((scopedExpr_operator hf).mp hs).1.of_mem ha
    obtain ⟨i, hi, hfirst⟩ := hops.stored ha ha'.isExpr hp hx
    obtain ⟨j, hj, -, hlast⟩ := htouched x
      (List.mem_append_left _ (List.mem_filterMap.mpr ⟨a, ha, hx⟩))
    obtain rfl := Option.some.inj (hi.symm.trans hj)
    exact ⟨i, hi, by push_cast at hlast; omega⟩

theorem readsWide_inOrder {S : Set LocalId → Set LocalId → Tree → Prop}
    (ih : ∀ t ∈ ts, ∀ Γ U p, S Γ U t → t.Charted iv p → Standing iv Γ ∅ p e →
      ∀ u ∈ t.nodes, u.ReadsWide iv)
    (h : InOrder S Γ U ts) (hc : ChartedAll iv p ts) (hst : Standing iv Γ ∅ p e) :
    ∀ u ∈ ts.flatMap nodes, u.ReadsWide iv := by
  induction ts generalizing Γ U p with
  | nil => simp
  | cons t rest ihrest =>
    have ht := ih t List.mem_cons_self Γ U p h.1 hc.1 hst
    have hrest := ihrest (fun t ht => ih t (List.mem_cons_of_mem _ ht)) h.2 hc.2 (hst.after hc.1)
    intro u hu
    rw [List.flatMap_cons] at hu
    exact (List.mem_append.mp hu).elim (ht u) (hrest u)

/-- What the nodes of a scoped tree read lives longer than a point. -/
theorem Scoped.readsWide (h : t.Scoped Γ U) (hc : t.Charted iv p) (hst : Standing iv Γ ∅ p e) :
    ∀ u ∈ t.nodes, u.ReadsWide iv := by
  induction t using induction_parts generalizing Γ U p with
  | h t ih =>
    have hparts := readsWide_inOrder (fun a ha _ _ _ h hc hst => ih a ha h hc hst) h.parts
      hc.parts hst
    refine forall_nodes_iff.mpr ⟨?_, fun a ha u hu => hparts u (List.mem_flatMap.mpr ⟨a, ha, hu⟩)⟩
    cases hf : t.operator? with
    | some f => exact readsWide_operator hc ((scoped_operator hf).mp h) hf
    | none =>
      refine ⟨fun tag y heq => ?_, fun f hf' => by cases hf.symm.trans hf'⟩
      subst heq
      obtain ⟨i, hi, hfirst⟩ := hst.begun y h.1
      obtain ⟨j, hj, -, hlast⟩ := hc y List.mem_cons_self
      obtain rfl := Option.some.inj (hi.symm.trans hj)
      exact ⟨i, hi, by omega⟩

end

end Tree

/-- What the nodes of a scoped routine read has a place. -/
theorem Routine.WellScoped.reads_placed {r : Routine} {place : LocalId → Storage} (h : r.WellScoped)
    (hl : Layout (declared r.locals) r.computedInterval place) :
    ∀ t ∈ r.body.nodes, (∀ tag x, t = .load tag x → place x ≠ .unassigned) ∧
      ∀ f, t.operator? = some f → ∀ a ∈ f.operands, 0 < a.points → ∀ x, a.store = some x →
        place x ≠ .unassigned := by
  have hplaced : ∀ x, Tree.Wide r.computedInterval x → place x ≠ .unassigned := by
    rintro x ⟨i, hi, hlt⟩
    exact (hl.placed x i hi).mpr (.inl (ne_of_lt hlt))
  intro t ht
  obtain ⟨hload, hoperand⟩ := h.inScope.readsWide (charted h) r.standing t ht
  exact ⟨fun tag x heq => hplaced x (hload tag x heq),
    fun f hf a ha hp x hx => hplaced x (hoperand f hf a ha hp x hx)⟩

end Codewright
