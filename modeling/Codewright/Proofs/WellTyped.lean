import Codewright.Proofs.Collected

/-!
# Types node by node

`Tree.Typed` follows the tree from the root. Here the same is said of each node by itself, against
the table of the routine and the entries of the program: what a node of each kind must look like,
and what it may store into. A built routine satisfies this at every node.
-/

namespace Codewright

/-- The same types, of which only those callees are left that take values. -/
def Typing.strict (Θ : Typing) : Typing :=
  { Θ with
    callee := fun n params result =>
      Θ.callee n params result ∧ ∀ ty ∈ params, ty.isValue = true }

namespace Tree

/-- What is asked of one node: it stores a value, into a local of its type other than the result,
and it has the type that its operands, the table and the entries of the program give. -/
def WellTyped (symbols : Symbols) (r : Routine) (t : Tree) : Prop :=
  (∀ x, t.store = some x →
    x ≠ 0 ∧ t.ty.isValue = true ∧ ∃ l, r.locals[x]? = some l ∧ l.ty = t.ty) ∧
  match t with
  | .const tag value => tag.ty = value.ty
  | .load tag x => ∃ l, r.locals[x]? = some l ∧ tag.ty = l.ty
  | .call tag callee args => ∃ f, symbols.functions[callee]? = some f ∧ f.id = callee ∧
    args.map ty = f.params ∧ tag.ty = f.result
  | .binary tag op left right => op.check [left.ty, right.ty] = .ok tag.ty
  | .unary tag op operand => op.check [operand.ty] = .ok tag.ty
  | .print tag args => Intrinsic.print.check (args.map ty) = .ok tag.ty
  | .failFast tag => Intrinsic.failFast.check [] = .ok tag.ty
  | .toReal tag operand => tag.ty = .real ∧ operand.ty = .int
  | .ifThen _ condition _ | .ifElse _ condition _ _ | .loop _ condition _ => condition.ty = .bool
  | .retValue _ value => r.result ≠ .void ∧ value.ty = r.result
  | .ret _ => r.result = .void
  | .seq _ _ => True

section

variable {t u : Tree} {f : Operator} {Θ : Typing}

theorem Typed.nodes (h : t.Typed Θ) : ∀ u ∈ t.nodes, u.Typed Θ :=
  forall_nodes_of_parts (fun _ h => h.parts) h

/-- A tree whose calls hand on values has its types among the callees that take values. -/
theorem Typed.strict (h : t.Typed Θ) (hcalls : ∀ tag callee args, .call tag callee args ∈ t.nodes →
    ∀ a ∈ args, a.ty.isValue = true) : t.Typed Θ.strict := by
  induction t using induction_parts with
  | h t ih =>
    have hparts : ∀ p ∈ t.parts, p.Typed Θ.strict := fun p hp =>
      ih p hp (h.parts p hp) fun tag callee args hmem =>
        hcalls tag callee args (mem_nodes_of_parts hp hmem)
    cases t with
    | call tag callee args =>
      have hargs := hcalls tag callee args (self_mem_nodes _)
      exact ⟨h.1, ⟨h.2.1, List.forall_mem_map.mpr hargs⟩, allTyped_iff.mpr hparts⟩
    | print => exact ⟨h.1, h.2.1, allTyped_iff.mpr hparts⟩
    | seq => exact ⟨h.1, allTyped_iff.mpr hparts⟩
    | const | load | failFast | ret => exact h
    | unary | toReal | retValue =>
      simp only [Tree.parts, List.forall_mem_cons] at hparts
      exact ⟨h.1, h.2.1, h.2.2.1, hparts.1⟩
    | binary =>
      simp only [Tree.parts, List.forall_mem_cons] at hparts
      exact ⟨h.1, h.2.1, h.2.2.1, hparts.1, hparts.2.1⟩
    | ifThen | loop =>
      simp only [Tree.parts, List.forall_mem_cons] at hparts
      exact ⟨h.1, h.2.1, hparts.1, hparts.2.1⟩
    | ifElse =>
      simp only [Tree.parts, List.forall_mem_cons] at hparts
      exact ⟨h.1, h.2.1, hparts.1, hparts.2.1, hparts.2.2.1⟩
theorem Bare.nodes (h : t.Bare) : ∀ u ∈ t.nodes, u.Bare :=
  forall_nodes_of_parts (fun _ h => h.parts) h

/-- The nodes of a scoped tree are scoped. -/
theorem Scoped.nodes {Γ U : Set LocalId} (h : t.Scoped Γ U) :
    ∀ u ∈ t.nodes, ∃ Γ U, u.Scoped Γ U := by
  refine forall_nodes_of_parts (P := fun u => ∃ Γ U, u.Scoped Γ U) ?_ ⟨Γ, U, h⟩
  rintro t ⟨Γ, U, h⟩ p hp
  obtain ⟨Γ', U', -, h'⟩ := h.parts.of_mem hp
  exact ⟨Γ', U', h'⟩

/-- An expression that is typed stores a value into a local of its type. -/
theorem IsExpr.stores_typed (he : t.IsExpr) (h : t.Typed Θ) : Θ.Stores t.tag := by
  cases t <;> first | exact h.1 | exact he.elim

/-! ## What holds of all locals

What holds of the known locals and of all whose type has values holds of every local that a tree
mentions, since it stores values only.
-/

section

variable {P : LocalId → Prop} {Γ U : Set LocalId}

theorem InOrder.forall_mentions {S : Set LocalId → Set LocalId → Tree → Prop} {ts : List Tree}
    (hS : ∀ t ∈ ts, ∀ Γ U, S Γ U t → (∀ x ∈ Γ, P x) → ∀ x ∈ t.mentions, P x)
    (h : InOrder S Γ U ts) (hΓ : ∀ x ∈ Γ, P x) : ∀ x ∈ mentionsAll ts, P x := by
  induction ts generalizing Γ U with
  | nil => simp
  | cons t rest ih =>
    have ht := hS t List.mem_cons_self Γ U h.1 hΓ
    have hrest := ih (fun t ht => hS t (List.mem_cons_of_mem _ ht)) h.2 fun x hx =>
      hx.elim (hΓ x) fun hx => ht x (mentions_of_defines hx)
    intro x hx
    rw [mentionsAll_cons] at hx
    exact (List.mem_append.mp hx).elim (ht x) (hrest x)

theorem Scoped.forall_mentions (hP : ∀ x, (Θ.ofLocal x).isValue = true → P x) (h : t.Scoped Γ U)
    (ht : t.Typed Θ) (hΓ : ∀ x ∈ Γ, P x) : ∀ x ∈ t.mentions, P x := by
  induction t using induction_parts generalizing Γ U with
  | h t ih =>
    intro x hx
    rcases mem_mentions_iff.mp hx with hx | ⟨tag, rfl⟩ | hx
    · exact h.parts.forall_mentions (fun a ha _ _ h hΓ => ih a ha h (ht.parts a ha) hΓ) hΓ x hx
    · exact hΓ x h.1
    · obtain ⟨hty, hv⟩ := (h.isExpr_of_store hx).stores_typed ht x hx
      exact hP x (by rwa [hty])

end

end

end Tree

theorem Routine.Built.forall_mentions {symbols : Symbols} {r : Routine} {P : LocalId → Prop}
    (hb : r.Built symbols) (hP : ∀ x, (r.localType x).isValue = true → P x)
    (hparams : ∀ x ∈ r.parameters, P x) : ∀ x ∈ r.body.mentions, P x :=
  hb.inScope.forall_mentions hP (hb.typed _ (r.fits_typing symbols) rfl) hparams

/-- The parameters of a routine are values if those of its function are. -/
theorem Routine.Of.isValue_parameters {symbol : FunctionSymbol} {f : Surface.Function} {r : Routine}
    (h : r.Of symbol f) (hr : r.WellScoped) (hf : ∀ p ∈ f.params, p.type ≠ .void) :
    ∀ x ∈ r.parameters, (r.localType x).isValue = true := by
  intro x hx
  obtain ⟨hpos, hle⟩ := (hr.params x).mp hx
  obtain ⟨n, rfl⟩ := Nat.exists_eq_add_of_le' hpos
  have hlt : n < f.params.length := h.paramCount ▸ hle
  have hdecl := h.params n _ (List.getElem?_eq_getElem hlt)
  rw [localType_eq_of_declared hdecl]
  have hne := hf _ (List.getElem_mem hlt)
  cases hty : f.params[n].type <;> first | rfl | exact absurd hty hne

/-- The parameters of an entry are values if those of all functions are. -/
theorem Symbols.Lists.isValue_params {symbols : Symbols} {modules : List Surface.Module}
    {g : FunctionSymbol} {n : Nat} (hs : symbols.Lists (functionsOf modules))
    (hvoid : ∀ q ∈ functionsOf modules, ∀ a ∈ q.2.params, a.type ≠ .void)
    (hg : symbols.functions[n]? = some g) : ∀ ty ∈ g.params, ty.isValue = true := by
  obtain ⟨hlt, -⟩ := Array.getElem?_eq_some_iff.mp hg
  rw [hs.size] at hlt
  have hd : (functionsOf modules)[n]? = some (_, _) := List.getElem?_eq_getElem hlt
  rw [Option.some.inj (hg.symm.trans (hs.entry hd))]
  intro ty hty
  obtain ⟨a, ha, rfl⟩ := List.mem_map.mp hty
  have hne := hvoid _ (List.mem_of_getElem? hd) a ha
  cases hty : a.type <;> first | rfl | exact absurd hty hne

theorem forall_functionsOf {modules : List Surface.Module} {P : Surface.Function → Prop} :
    (∀ q ∈ functionsOf modules, P q.2) ↔ ∀ m ∈ modules, ∀ f ∈ m.functions, P f := by
  constructor
  · intro h m hm f hf
    exact h (m.name, f) (List.mem_flatMap.mpr ⟨m, hm, List.mem_map_of_mem hf⟩)
  · intro h q hq
    obtain ⟨m, hm, hmem⟩ := List.mem_flatMap.mp hq
    obtain ⟨f, hf, rfl⟩ := List.mem_map.mp hmem
    exact h m hm f hf

/-- A built routine in a collected program is well typed at every node. -/
theorem Routine.Built.wellTyped {symbols : Symbols} {fs : List (String × Surface.Function)}
    {r : Routine} (hb : r.Built symbols) (hs : symbols.Lists fs) (h0 : 0 ∉ r.body.mentions) :
    ∀ t ∈ r.body.nodes, t.WellTyped symbols r := by
  intro t ht
  have htyped := (hb.typed _ (r.fits_typing symbols) rfl).nodes t ht
  have hmentions := Tree.mentions_nodes r.body t ht
  -- a mentioned local stands in the table, with the type that the typing gives it
  have hlocal : ∀ x ∈ t.mentions, x ≠ 0 ∧ ∃ l, r.locals[x]? = some l ∧ l.ty = r.localType x := by
    intro x hx
    have hlt := hb.inTable x (hmentions hx)
    refine ⟨fun h => h0 (h ▸ hmentions hx), r.locals[x], Array.getElem?_eq_getElem hlt, ?_⟩
    simp [Routine.localType, hlt]
  refine ⟨fun x hx => ?_, ?_⟩
  · obtain ⟨Γ, U, h⟩ := hb.inScope.nodes t ht
    obtain ⟨hty, hv⟩ := (h.isExpr_of_store hx).stores_typed htyped x hx
    obtain ⟨hne, l, hl, heq⟩ :=
      hlocal x (Tree.mem_mentions.mpr (.inr (Tree.mem_stores_of_store hx)))
    exact ⟨hne, hv, l, hl, heq.trans hty⟩
  · cases t with
    | const tag value => exact htyped.2
    | load tag x =>
      obtain ⟨-, l, hl, heq⟩ := hlocal x (by simp [Tree.mentions, Tree.loads])
      exact ⟨l, hl, htyped.2.trans heq.symm⟩
    | call tag callee args =>
      obtain ⟨-, ⟨full, f, hf, rfl, hparams, hresult⟩, -⟩ := htyped
      exact ⟨f, hs.place_of_function? hf, rfl, hparams.symm, hresult.symm⟩
    | binary | unary => exact htyped.2.2.1
    | print | ifThen | ifElse | loop => exact htyped.2.1
    | failFast tag =>
      show Intrinsic.failFast.check [] = .ok tag.ty
      rw [htyped.2]
      rfl
    | ret tag => exact htyped.2
    | toReal | retValue => exact ⟨htyped.2.1, htyped.2.2.1⟩
    | seq tag body => trivial

end Codewright
