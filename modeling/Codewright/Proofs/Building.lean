import Codewright.Proofs.Locals
import Codewright.Proofs.SymbolTable
import Codewright.Proofs.Typing

/-!
# What building a tree comes to

Every step of the work on a function is described by what it returns and how it changes the table of
locals: names stand for locals of the table, an expression loads only locals that a name stands for,
an assignment stores into such a local or a new one, and every load and store is counted.
-/

namespace Codewright

/-- The locals that names stand for. -/
def Scope.visible (s : Scope) : Set LocalId := {x | ∃ name, s.lookup? name = some x}

namespace Scope

/-- A new block hides nothing. -/
theorem visible_push (s : Scope) : s.push.visible = s.visible := by
  simp [visible, lookup?, push]

/-- A new name stands for its local, and the others for what they did. -/
theorem lookup?_insert (s : Scope) (name : String) (x : LocalId) (other : String) :
    (s.insert name x).lookup? other = if other = name then some x else s.lookup? other := by
  simp only [lookup?, insert, List.findSome?_cons, Std.HashMap.getElem?_insert]
  by_cases h : name = other
  · simp [h]
  · have h' : ¬ other = name := fun h' => h h'.symm
    simp [h, h']

/-- A new name makes its local visible and hides none. -/
theorem visible_insert {s : Scope} {name : String} (h : s.lookup? name = none) (x : LocalId) :
    (s.insert name x).visible = withLocals s.visible [x] := by
  ext y
  simp only [visible, lookup?_insert, mem_withLocals, List.mem_singleton]
  constructor
  · rintro ⟨other, hother⟩
    split at hother
    · exact .inr (Option.some.inj hother).symm
    · exact .inl ⟨other, hother⟩
  · rintro (⟨other, hother⟩ | rfl)
    · refine ⟨other, ?_⟩
      rw [if_neg, hother]
      rintro rfl
      rw [h] at hother
      cases hother
    · exact ⟨name, if_pos rfl⟩

end Scope

/-- What a name resolves to is found under a full name. -/
theorem Symbols.resolve?_eq_some {α : Type} {s : Symbols} {find : String → Option α}
    {isPublic : α → Bool} {home name : String} {a : α}
    (h : s.resolve? find isPublic home name = some a) : ∃ full, find full = some a := by
  unfold resolve? at h
  split at h
  · cases h
  · split at h
    · split at h
      · exact ⟨_, h⟩
      · split at h
        · exact ⟨_, (Option.filter_eq_some_iff.mp h).1⟩
        · cases h
    · split at h
      · next hfound => exact ⟨_, h ▸ hfound⟩
      · obtain ⟨m, -, hm⟩ := List.exists_of_findSome?_eq_some h
        exact ⟨_, (Option.filter_eq_some_iff.mp hm).1⟩

/-- A program without constants resolves no name to one. -/
theorem Symbols.resolveConstant?_of_no_constants {s : Symbols} (h : s.constants = ∅)
    (home name : String) : s.resolveConstant? home name = none := by
  refine Option.eq_none_iff_forall_ne_some.mpr ?_
  intro c hc
  obtain ⟨full, hfull⟩ := Symbols.resolve?_eq_some hc
  rw [Symbols.constant?, h, Std.HashMap.getElem?_empty] at hfull
  cases hfull

/-- The types agree with a table of locals and with the symbols of a program. -/
structure Typing.Fits (Θ : Typing) (symbols : Symbols) (locals : Locals) : Prop where
  ofLocal : ∀ x l, locals[x]? = some l → Θ.ofLocal x = l.ty
  callee : ∀ full f, symbols.function? full = some f → Θ.callee f.id f.params f.result

variable {symbols : Symbols} {r : Routine} {f : Surface.Function}

/-- Types that fit a table fit a table with the same declarations, as far as that goes. -/
theorem Typing.Fits.of_declared {Θ : Typing} {before after : Locals} (h : Θ.Fits symbols after)
    (hd : ∀ x, x < before.size → declared after x = declared before x) : Θ.Fits symbols before where
  callee := h.callee
  ofLocal := by
    intro x l hl
    have hlt := (Array.getElem?_eq_some_iff.mp hl).1
    have hd := hd x hlt
    simp only [declared, hl, Option.map_some] at hd
    obtain ⟨l', hl', heq⟩ := Option.map_eq_some_iff.mp hd
    rw [h.ofLocal x l' hl', (Prod.mk.inj heq).1]

namespace Build

open Steps

/-- The table has the result, and names stand for locals of the table. -/
structure Ready (s : State) : Prop where
  result : 0 < s.locals.size
  visible : ∀ x ∈ s.scope.visible, x < s.locals.size

/-! ## Expressions -/

/-- What is known of operands that have been built. -/
structure OperandsBuilt (ctx : Context) (s : State) (ts : List Tree) (s' : State) : Prop where
  scope : s'.scope = s.scope
  size : s'.locals.size = s.locals.size
  grown : Grown s.locals s'.locals (Tree.loadsAll ts) []
  isExpr : ∀ t ∈ ts, t.IsExpr
  stores : ∀ t ∈ ts, t.stores = []
  loads : ∀ x ∈ Tree.loadsAll ts, x ∈ s.scope.visible
  typed : ∀ Θ : Typing, Θ.Fits ctx.symbols s'.locals → ∀ t ∈ ts, t.Typed Θ

/-- What is known of an expression that has been built. -/
structure ExprBuilt (ctx : Context) (s : State) (t : Tree) (s' : State) : Prop where
  scope : s'.scope = s.scope
  size : s'.locals.size = s.locals.size
  grown : Grown s.locals s'.locals t.loads []
  isExpr : t.IsExpr
  stores : t.stores = []
  loads : ∀ x ∈ t.loads, x ∈ s.scope.visible
  defines : t.ty.isValue = true → ∀ x, (t.withStore (some x)).defines = [x]
  typed : ∀ Θ : Typing, Θ.Fits ctx.symbols s'.locals → t.Typed Θ

section

variable {ctx : Context} {s s' s₁ : State} {t : Tree} {ts : List Tree}

/-- The names and the number of locals are all that counts. -/
theorem Ready.of_eq (h : Ready s) (hs : s'.scope = s.scope) (hl : s'.locals.size = s.locals.size) :
    Ready s' where
  result := hl ▸ h.result
  visible := fun x hx => hl ▸ h.visible x (hs ▸ hx)

theorem fits_of_grown {Θ : Typing} {before after : Locals} {loads stores : List LocalId}
    (h : Θ.Fits ctx.symbols after) (hg : Grown before after loads stores) :
    Θ.Fits ctx.symbols before :=
  h.of_declared hg.kept

theorem OperandsBuilt.nil (ctx : Context) (s : State) : OperandsBuilt ctx s [] s where
  scope := rfl
  size := rfl
  grown := .refl _
  isExpr := by simp
  stores := by simp
  loads := by simp [Tree.loadsAll]
  typed := by simp

/-- One more operand in front. -/
theorem OperandsBuilt.cons (ht : ExprBuilt ctx s t s₁) (hts : OperandsBuilt ctx s₁ ts s') :
    OperandsBuilt ctx s (t :: ts) s' where
  scope := hts.scope.trans ht.scope
  size := hts.size.trans ht.size
  grown := ht.grown.trans hts.grown
  isExpr := by simpa using ⟨ht.isExpr, hts.isExpr⟩
  stores := by simpa using ⟨ht.stores, hts.stores⟩
  loads := by
    intro x hx
    rcases List.mem_append.mp hx with hx | hx
    · exact ht.loads x hx
    · exact ht.scope ▸ hts.loads x hx
  typed := by
    intro Θ hΘ
    simpa using ⟨ht.typed Θ (fits_of_grown hΘ hts.grown), hts.typed Θ hΘ⟩

/-- A node that computes on operands that have been built. -/
theorem OperandsBuilt.operator {f : Operator} (h : OperandsBuilt ctx s f.operands s')
    (hf : t.operator? = some f) (hstore : t.store = none)
    (hy : t.ty.isValue = true → f.yields = true)
    (hty : ∀ Θ : Typing, Θ.Fits ctx.symbols s'.locals → (∀ a ∈ f.operands, a.Typed Θ) →
      t.Typed Θ) : ExprBuilt ctx s t s' where
  scope := h.scope
  size := h.size
  grown := by rw [Tree.loads_operator hf]; exact h.grown
  isExpr := (Tree.isExpr_operator hf).mpr h.isExpr
  stores := (Tree.stores_operator_eq_nil hf).mpr ⟨hstore, h.stores⟩
  loads := by rw [Tree.loads_operator hf]; exact h.loads
  defines := by
    intro hv x
    rw [Tree.defines_operator (by rw [Tree.operator?_withStore, hf]), Tree.store_withStore, hy hv,
      Tree.definesAll_eq_nil h.stores]
    rfl
  typed := fun Θ hΘ => hty Θ hΘ (h.typed Θ hΘ)

/-- A node without operands that loads nothing. -/
theorem ExprBuilt.leaf (hl : t.loads = []) (he : t.IsExpr) (hs : t.stores = [])
    (hd : t.ty.isValue = true → ∀ x, (t.withStore (some x)).defines = [x])
    (hty : ∀ Θ : Typing, t.Typed Θ) : ExprBuilt ctx s t s where
  scope := rfl
  size := rfl
  grown := by rw [hl]; exact .refl _
  isExpr := he
  stores := hs
  loads := by simp [hl]
  defines := hd
  typed := fun Θ _ => hty Θ

theorem stores_none (Θ : Typing) (ty : Ty) : Θ.Stores { ty } := by
  simp [Typing.Stores]

theorem built_value (value : Value) : ExprBuilt ctx s (.ofValue value) s :=
  .leaf rfl trivial rfl (fun _ _ => rfl) fun Θ => ⟨stores_none Θ _, rfl⟩

theorem load_apply (x : LocalId) (s : State) :
    load x s = .ok (.load { ty := (s.locals[x]?.map (·.ty)).getD .noType } x)
      { s with locals := s.locals.modify x fun l => { l with uses := l.uses + 1 } } := rfl

/-- A load of a local that a name stands for. -/
theorem built_load {x : LocalId} (h : load x s = .ok t s') (hs : Ready s)
    (hx : x ∈ s.scope.visible) : ExprBuilt ctx s t s' := by
  have hlt := hs.visible x hx
  rw [load_apply] at h
  cases h
  refine
    { scope := rfl
      size := by simp
      grown := .load hlt
      isExpr := trivial
      stores := rfl
      loads := by simpa [Tree.loads] using hx
      defines := fun _ _ => rfl
      typed := fun Θ hΘ => ⟨stores_none Θ _, ?_⟩ }
  have hΘ := (fits_of_grown hΘ (Grown.load hlt)).ofLocal x _ (Array.getElem?_eq_getElem hlt)
  simp [hlt, hΘ]

/-- A name is a constant or a local that is visible. -/
theorem built_name {written : String} {span : Source.Span}
    (h : name ctx written span s = .ok t s') (hs : Ready s) : ExprBuilt ctx s t s' := by
  unfold name at h
  cases hc : ctx.symbols.resolveConstant? ctx.home (foldName written) with
  | some c =>
    simp only [hc] at h
    obtain ⟨rfl, rfl⟩ := pure_eq_ok.mp h
    exact built_value _
  | none =>
    simp only [hc] at h
    obtain ⟨s₀, s₁, hget, h⟩ := bind_eq_ok.mp h
    obtain ⟨rfl, rfl⟩ := get_eq_ok.mp hget
    cases hx : (if (foldName written).contains '.' then none
        else s.scope.lookup? (foldName written)) with
    | some x =>
      simp only [hx] at h
      refine built_load h hs ⟨foldName written, ?_⟩
      split at hx
      · cases hx
      · exact hx
    | none =>
      simp only [hx] at h
      split at h
      · exact absurd h throw_ne_ok
      · exact absurd h throw_ne_ok

/-- What the node of an intrinsic may be. -/
theorem apply_cases {op : Intrinsic} {spans : List Source.Span} {span : Source.Span}
    (h : apply op ts spans span s = .ok t s') : s' = s ∧ ∃ ty, op.check (ts.map (·.ty)) = .ok ty ∧
      (op = .print ∧ t = .print { ty } ts ∨
       op = .failFast ∧ t = .failFast { ty } ∨
       op ≠ .print ∧ op ≠ .failFast ∧ (∃ left right rest, ts = left :: right :: rest ∧
         t = .binary { ty } op left right) ∨
       op ≠ .print ∧ op ≠ .failFast ∧ ∃ operand, ts = [operand] ∧
           t = .unary { ty } op operand) := by
  unfold apply at h
  cases hc : op.check (ts.map (·.ty)) with
  | error fault =>
    simp only [hc] at h
    cases fault <;> exact absurd h throw_ne_ok
  | ok ty =>
    simp only [hc] at h
    by_cases hp : op = .print
    · subst hp
      obtain ⟨rfl, rfl⟩ := pure_eq_ok.mp h
      exact ⟨rfl, ty, rfl, .inl ⟨rfl, rfl⟩⟩
    · by_cases hf : op = .failFast
      · subst hf
        obtain ⟨rfl, rfl⟩ := pure_eq_ok.mp h
        exact ⟨rfl, ty, rfl, .inr (.inl ⟨rfl, rfl⟩)⟩
      · match ts, h with
        | [], h => cases op <;> contradiction
        | [operand], h =>
          have h : (pure (.unary { ty } op operand) : Step Tree) s = .ok t s' := by
            cases op <;> first | contradiction | exact h
          obtain ⟨rfl, rfl⟩ := pure_eq_ok.mp h
          exact ⟨rfl, ty, rfl, .inr (.inr (.inr ⟨hp, hf, operand, rfl, rfl⟩))⟩
        | left :: right :: rest, h =>
          have h : (pure (.binary { ty } op left right) : Step Tree) s = .ok t s' := by
            cases op <;> first | contradiction | exact h
          obtain ⟨rfl, rfl⟩ := pure_eq_ok.mp h
          exact ⟨rfl, ty, rfl, .inr (.inr (.inl ⟨hp, hf, left, right, rest, rfl, rfl⟩))⟩

/-- An intrinsic on operands that have been built. -/
theorem built_apply {op : Intrinsic} {spans : List Source.Span} {span : Source.Span}
    (hts : OperandsBuilt ctx s ts s₁) (h : apply op ts spans span s₁ = .ok t s') :
    ExprBuilt ctx s t s' := by
  obtain ⟨rfl, ty, hcheck, hcases⟩ := apply_cases h
  obtain ⟨-, hmost, -⟩ := Signature.check_eq_ok.mp hcheck
  rw [List.length_map] at hmost
  rcases hcases with ⟨rfl, rfl⟩ | ⟨rfl, rfl⟩ | ⟨hp, hf, left, right, rest, rfl, rfl⟩ |
    ⟨hp, hf, operand, rfl, rfl⟩
  · have hvoid : ty = .void := Intrinsic.resultType_of_check hcheck
    exact hts.operator rfl rfl (by simp [Tree.ty, Tree.tag, hvoid, Ty.isValue])
      fun Θ _ h => ⟨stores_none Θ _, hcheck, Tree.allTyped_iff.mpr h⟩
  · have hnil : ts = [] := List.eq_nil_of_length_eq_zero (Nat.le_zero.mp hmost)
    subst hnil
    have hvoid : ty = .void := Intrinsic.resultType_of_check hcheck
    exact
      { scope := hts.scope
        size := hts.size
        grown := hts.grown
        isExpr := trivial
        stores := rfl
        loads := by simp [Tree.loads]
        defines := by simp [Tree.ty, Tree.tag, hvoid, Ty.isValue]
        typed := fun Θ _ => ⟨stores_none Θ _, hvoid⟩ }
  · have hnil : rest = [] := by
      have : op.signature.most ≤ 2 := by cases op <;> first | contradiction | decide
      exact List.eq_nil_of_length_eq_zero (by simp at hmost; omega)
    subst hnil
    refine hts.operator rfl rfl (fun _ => rfl) fun Θ _ h => ⟨stores_none Θ _, ?_, hcheck, ?_⟩
    · exact Intrinsic.isValue_of_check hcheck hp hf
    · simpa using h
  · refine hts.operator rfl rfl (fun _ => rfl) fun Θ _ h => ⟨stores_none Θ _, ?_, hcheck, ?_⟩
    · exact Intrinsic.isValue_of_check hcheck hp hf
    · simpa using h

/-- The name that an operator is looked up by is that of an intrinsic. -/
theorem operator_binary (op : Surface.BinaryOp) (span : Source.Span) :
    operator op.intrinsicName span = pure op.intrinsic := by
  rw [operator, op.ofName?_intrinsicName]

theorem operator_unary (op : Surface.UnaryOp) (span : Source.Span) :
    operator op.intrinsicName span = pure op.intrinsic := by
  rw [operator, op.ofName?_intrinsicName]

mutual

/-- What becomes of an expression. -/
theorem built_expr : ∀ (e : Surface.Expr) {s s' : State} {t : Tree}, Ready s →
    expr ctx e s = .ok t s' → ExprBuilt ctx s t s'
  | .literal value span, s, s', t, _, h => by
    rw [expr] at h
    obtain ⟨rfl, rfl⟩ := pure_eq_ok.mp h
    exact built_value value
  | .name written span, s, s', t, hs, h => by
    rw [expr] at h
    exact built_name h hs
  | .binary op left right span, s, s', t, hs, h => by
    rw [expr, operator_binary, pure_bind] at h
    obtain ⟨l, s₁, hl, h⟩ := bind_eq_ok.mp h
    obtain ⟨r, s₂, hr, h⟩ := bind_eq_ok.mp h
    have hl := built_expr left hs hl
    have hr := built_expr right (hs.of_eq hl.scope hl.size) hr
    exact built_apply (.cons hl (.cons hr (.nil ctx s₂))) h
  | .unary op operand span, s, s', t, hs, h => by
    rw [expr, operator_unary, pure_bind] at h
    obtain ⟨e, s₁, he, h⟩ := bind_eq_ok.mp h
    exact built_apply (.cons (built_expr operand hs he) (.nil ctx s₁)) h
  | .call callee args span, s, s', t, hs, h => by
    rw [expr] at h
    cases ho : Intrinsic.ofName? (foldName callee) with
    | some op =>
      simp only [ho] at h
      obtain ⟨es, s₁, hes, h⟩ := bind_eq_ok.mp h
      exact built_apply (built_operands args hs hes) h
    | none =>
      simp only [ho] at h
      cases hf : ctx.symbols.resolveFunction? ctx.home (foldName callee) with
      | none =>
        simp only [hf] at h
        exact absurd h throw_ne_ok
      | some f =>
        simp only [hf] at h
        obtain ⟨hfew, h⟩ := guard_eq_ok.mp h
        cases hmany : args[f.params.length]? with
        | some extra =>
          simp only [hmany] at h
          exact absurd h throw_ne_ok
        | none =>
          simp only [hmany] at h
          have hlen : args.length = f.params.length := by
            have := List.getElem?_eq_none_iff.mp hmany
            omega
          obtain ⟨es, s₁, hes, h⟩ := bind_eq_ok.mp h
          obtain ⟨rfl, rfl⟩ := pure_eq_ok.mp h
          obtain ⟨hes, htypes⟩ := built_arguments args f.params hs hlen hes
          obtain ⟨full, hfull⟩ := Symbols.resolve?_eq_some hf
          refine hes.operator rfl rfl id fun Θ hΘ h =>
            ⟨stores_none Θ _, ?_, Tree.allTyped_iff.mpr h⟩
          rw [htypes]
          exact hΘ.callee full f hfull

theorem built_operands : ∀ (args : List Surface.Expr) {s s' : State} {ts : List Tree}, Ready s →
    operands ctx args s = .ok ts s' → OperandsBuilt ctx s ts s'
  | [], s, s', ts, _, h => by
    rw [operands] at h
    obtain ⟨rfl, rfl⟩ := pure_eq_ok.mp h
    exact .nil ctx s
  | arg :: rest, s, s', ts, hs, h => by
    rw [operands] at h
    obtain ⟨e, s₁, he, h⟩ := bind_eq_ok.mp h
    obtain ⟨es, s₂, hes, h⟩ := bind_eq_ok.mp h
    obtain ⟨rfl, rfl⟩ := pure_eq_ok.mp h
    have he := built_expr arg hs he
    exact .cons he (built_operands rest (hs.of_eq he.scope he.size) hes)

theorem built_arguments : ∀ (args : List Surface.Expr) (types : List Ty) {s s' : State}
    {ts : List Tree}, Ready s → args.length = types.length →
    arguments ctx args types s = .ok ts s' → OperandsBuilt ctx s ts s' ∧ ts.map Tree.ty = types
  | [], [], s, s', ts, _, _, h => by
    rw [arguments] at h
    · obtain ⟨rfl, rfl⟩ := pure_eq_ok.mp h
      exact ⟨.nil ctx s, rfl⟩
    · simp
  | arg :: rest, expected :: types, s, s', ts, hs, hlen, h => by
    rw [arguments] at h
    obtain ⟨e, s₁, he, h⟩ := bind_eq_ok.mp h
    obtain ⟨hty, h⟩ := guard_eq_ok.mp h
    obtain ⟨es, s₂, hes, h⟩ := bind_eq_ok.mp h
    obtain ⟨rfl, rfl⟩ := pure_eq_ok.mp h
    have he := built_expr arg hs he
    obtain ⟨hes, htypes⟩ := built_arguments rest types (hs.of_eq he.scope he.size)
      (Nat.succ.inj hlen) hes
    refine ⟨.cons he hes, ?_⟩
    rw [List.map_cons, htypes, Decidable.not_not.mp hty]

end

end

/-! ## Statements -/

/-- What is known of statements that have been built one after the other. -/
structure SeqBuilt (ctx : Context) (s : State) (ts : List Tree) (s' : State) : Prop where
  outer : s'.scope.outer = s.scope.outer
  visible : s'.scope.visible = withLocals s.scope.visible (Tree.definesAll ts)
  grown : Grown s.locals s'.locals (Tree.loadsAll ts) (Tree.storesAll ts)
  inOrder : Tree.InOrder Tree.Scoped s.scope.visible {x | x < s.locals.size} ts
  inTable : ∀ x ∈ Tree.mentionsAll ts, x < s'.locals.size
  bare : ∀ t ∈ ts, t.Bare
  typed : ∀ Θ : Typing, Θ.Fits ctx.symbols s'.locals → Θ.ofLocal 0 = Θ.result → ∀ t ∈ ts, t.Typed Θ

/-- What is known of a statement that has been built, apart from the names in force after it. -/
structure BodyBuilt (ctx : Context) (s : State) (t : Tree) (s' : State) : Prop where
  grown : Grown s.locals s'.locals t.loads t.stores
  inScope : t.Scoped s.scope.visible {x | x < s.locals.size}
  inTable : ∀ x ∈ t.mentions, x < s'.locals.size
  bare : t.Bare
  typed : ∀ Θ : Typing, Θ.Fits ctx.symbols s'.locals → Θ.ofLocal 0 = Θ.result → t.Typed Θ

/-- A statement after which the names that it declares are in force. -/
structure StmtBuilt (ctx : Context) (s : State) (t : Tree) (s' : State) : Prop
    extends BodyBuilt ctx s t s' where
  outer : s'.scope.outer = s.scope.outer
  visible : s'.scope.visible = withLocals s.scope.visible t.defines

/-- A statement after which the same names are in force as before. -/
structure InnerBuilt (ctx : Context) (s : State) (t : Tree) (s' : State) : Prop
    extends BodyBuilt ctx s t s' where
  scope : s'.scope = s.scope

section

variable {ctx : Context} {s s' s₁ s₂ : State} {t c y n : Tree} {ts : List Tree}

theorem StmtBuilt.ready (h : StmtBuilt ctx s t s') (hs : Ready s) : Ready s' where
  result := Nat.lt_of_lt_of_le hs.result h.grown.size_le
  visible := by
    intro x hx
    rw [h.visible] at hx
    rcases hx with hx | hx
    · exact Nat.lt_of_lt_of_le (hs.visible x hx) h.grown.size_le
    · exact h.inTable x (Tree.mentions_of_defines hx)

theorem SeqBuilt.nil (ctx : Context) (s : State) : SeqBuilt ctx s [] s where
  outer := rfl
  visible := by simp [Tree.definesAll]
  grown := .refl _
  inOrder := trivial
  inTable := by simp
  bare := by simp
  typed := by simp

/-- One more statement in front. -/
theorem SeqBuilt.cons (ht : StmtBuilt ctx s t s₁) (hts : SeqBuilt ctx s₁ ts s') :
    SeqBuilt ctx s (t :: ts) s' where
  outer := hts.outer.trans ht.outer
  visible := by rw [hts.visible, ht.visible, Tree.definesAll, withLocals_append]
  grown := ht.grown.trans hts.grown
  inOrder := by
    refine ⟨ht.inScope, ?_⟩
    rw [← ht.visible]
    refine hts.inOrder.mono (fun a _ _ _ _ _ h₁ h₂ h₃ => h₃.mono h₁ h₂) (fun _ _ hx => hx) ?_
    rintro x - (hx | hx)
    · exact Nat.lt_of_lt_of_le hx ht.grown.size_le
    · exact ht.inTable x hx
  inTable := by
    intro x hx
    rw [Tree.mentionsAll_cons, List.mem_append] at hx
    rcases hx with hx | hx
    · exact Nat.lt_of_lt_of_le (ht.inTable x hx) hts.grown.size_le
    · exact hts.inTable x hx
  bare := by simpa using ⟨ht.bare, hts.bare⟩
  typed := by
    intro Θ hΘ hres
    simpa using ⟨ht.typed Θ (fits_of_grown hΘ hts.grown) hres, hts.typed Θ hΘ hres⟩

/-- An expression mentions visible locals only. -/
theorem ExprBuilt.mentions (h : ExprBuilt ctx s t s') (hs : Ready s) :
    ∀ x ∈ t.mentions, x ∈ s.scope.visible ∧ x < s.locals.size := by
  intro x hx
  rw [Tree.mem_mentions, h.stores] at hx
  have hx := h.loads x (hx.resolve_right (by simp))
  exact ⟨hx, hs.visible x hx⟩

theorem ExprBuilt.store_eq_none (h : ExprBuilt ctx s t s') : t.store = none :=
  Tree.store_eq_none_of_stores h.stores

theorem ExprBuilt.scoped (h : ExprBuilt ctx s t s') (again : Bool) (U : Set LocalId) :
    t.ScopedExpr again s.scope.visible U :=
  h.isExpr.scoped h.stores h.loads again U

/-- An expression as a statement. -/
theorem ExprBuilt.stmt (h : ExprBuilt ctx s t s') (hs : Ready s) : StmtBuilt ctx s t s' where
  outer := by rw [h.scope]
  visible := by
    have hd : t.defines = [] := List.subset_nil.mp (h.stores ▸ Tree.stores_of_defines t)
    rw [h.scope, hd, withLocals_nil]
  grown := by rw [h.stores]; exact h.grown
  inScope := h.isExpr.scoped_stmt (h.scoped true _)
  inTable := fun x hx => h.size ▸ (h.mentions hs x hx).2
  bare := h.isExpr.bare h.stores
  typed := fun Θ hΘ _ => h.typed Θ hΘ

/-- A step in a block sees a new block of names, which is left at the end. -/
theorem inBlock_eq_ok {α : Type} {step : Step α} {a : α} : inBlock step s = .ok a s' ↔
    ∃ s₁, step { s with scope := s.scope.push } = .ok a s₁ ∧
      s' = { s₁ with scope := s₁.scope.pop } := by
  unfold inBlock
  rw [bind_eq_ok]
  constructor
  · rintro ⟨u, s₀, hpush, h⟩
    obtain rfl := modify_eq_ok.mp hpush
    obtain ⟨r, s₁, hstep, h⟩ := bind_eq_ok.mp h
    obtain ⟨v, s₂, hpop, h⟩ := bind_eq_ok.mp h
    obtain rfl := modify_eq_ok.mp hpop
    obtain ⟨rfl, rfl⟩ := pure_eq_ok.mp h
    exact ⟨s₁, hstep, rfl⟩
  · rintro ⟨s₁, hstep, rfl⟩
    refine ⟨(), _, modify_eq_ok.mpr rfl, bind_eq_ok.mpr ⟨a, s₁, hstep, ?_⟩⟩
    exact bind_eq_ok.mpr ⟨(), _, modify_eq_ok.mpr rfl, pure_eq_ok.mpr ⟨rfl, rfl⟩⟩

/-- At the end of a block the names from before it are in force. -/
theorem StmtBuilt.inner (h : StmtBuilt ctx { s with scope := s.scope.push } t s₁) :
    InnerBuilt ctx s t { s₁ with scope := s₁.scope.pop } where
  scope := by simp [Scope.pop, h.outer, Scope.push]
  grown := h.grown
  inScope := by simpa only [Scope.visible_push] using h.inScope
  inTable := h.inTable
  bare := h.bare
  typed := h.typed

theorem InnerBuilt.stmt (h : InnerBuilt ctx s t s') (hd : t.defines = []) :
    StmtBuilt ctx s t s' where
  toBodyBuilt := h.toBodyBuilt
  outer := by rw [h.scope]
  visible := by rw [h.scope, hd, withLocals_nil]

theorem InnerBuilt.ready (h : InnerBuilt ctx s t s') (hs : Ready s) : Ready s' where
  result := Nat.lt_of_lt_of_le hs.result h.grown.size_le
  visible := fun x hx => Nat.lt_of_lt_of_le (hs.visible x (h.scope ▸ hx)) h.grown.size_le

theorem InnerBuilt.scoped_after (hy : InnerBuilt ctx s₁ y s') {U : Set LocalId}
    (hscope : s₁.scope = s.scope) (hU : U ⊆ {x | x < s₁.locals.size}) :
    y.Scoped s.scope.visible U :=
  hy.inScope.mono (fun _ _ hx => hscope ▸ hx) fun _ _ hx => hU hx

/-- Together with the locals of an expression, the locals of the table are still those. -/
theorem ExprBuilt.met_subset (hc : ExprBuilt ctx s c s₁) (hs : Ready s) :
    withLocals {x | x < s.locals.size} c.mentions ⊆ {x | x < s₁.locals.size} := by
  rintro x (hx | hx)
  · exact hc.size ▸ hx
  · exact hc.size ▸ (hc.mentions hs x hx).2

/-- A condition and the statement that depends on it. -/
theorem ExprBuilt.ifThen (hc : ExprBuilt ctx s c s₁) (hty : c.ty = .bool) (hs : Ready s)
    (hy : InnerBuilt ctx s₁ y s') : InnerBuilt ctx s (.ifThen { ty := .void } c y) s' where
  scope := hy.scope.trans hc.scope
  grown := by simpa [Tree.loads, Tree.stores, hc.stores] using hc.grown.trans hy.grown
  inScope := ⟨rfl, hc.scoped false _, hy.scoped_after hc.scope (hc.met_subset hs)⟩
  inTable := by
    intro x hx
    rcases Tree.mem_mentions_ifThen.mp hx with hx | hx | hx
    · exact Nat.lt_of_lt_of_le (hc.mentions hs x hx).2 (hc.grown.trans hy.grown).size_le
    · exact hy.inTable x hx
    · cases hx
  bare := ⟨⟨hc.store_eq_none, hc.isExpr.bare hc.stores⟩, hy.bare⟩
  typed := fun Θ hΘ hres => ⟨rfl, hty, hc.typed Θ (fits_of_grown hΘ hy.grown), hy.typed Θ hΘ hres⟩

theorem ExprBuilt.loop (hc : ExprBuilt ctx s c s₁) (hty : c.ty = .bool) (hs : Ready s)
    (hy : InnerBuilt ctx s₁ y s') : InnerBuilt ctx s (.loop { ty := .void } c y) s' :=
  have h := hc.ifThen hty hs hy
  ⟨⟨h.grown, h.inScope, h.inTable, h.bare, h.typed⟩, h.scope⟩

theorem ExprBuilt.ifElse (hc : ExprBuilt ctx s c s₁) (hty : c.ty = .bool) (hs : Ready s)
    (hy : InnerBuilt ctx s₁ y s₂) (hn : InnerBuilt ctx s₂ n s') :
    InnerBuilt ctx s (.ifElse { ty := .void } c y n) s' where
  scope := (hn.scope.trans hy.scope).trans hc.scope
  grown := by
    simpa [Tree.loads, Tree.stores, hc.stores] using (hc.grown.trans hy.grown).trans hn.grown
  inScope := by
    refine ⟨rfl, hc.scoped false _, hy.scoped_after hc.scope (hc.met_subset hs), ?_⟩
    refine hn.scoped_after (hy.scope.trans hc.scope) ?_
    rw [withLocals_append]
    rintro x (hx | hx)
    · exact Nat.lt_of_lt_of_le (hc.met_subset hs hx) hy.grown.size_le
    · exact hy.inTable x hx
  inTable := by
    intro x hx
    rcases Tree.mem_mentions_ifElse.mp hx with hx | hx | hx | hx
    · exact Nat.lt_of_lt_of_le (hc.mentions hs x hx).2
        ((hc.grown.trans hy.grown).trans hn.grown).size_le
    · exact Nat.lt_of_lt_of_le (hy.inTable x hx) hn.grown.size_le
    · exact hn.inTable x hx
    · cases hx
  bare := ⟨⟨hc.store_eq_none, hc.isExpr.bare hc.stores⟩, hy.bare, hn.bare⟩
  typed := fun Θ hΘ hres => by
    have hΘ' := fits_of_grown hΘ hn.grown
    exact ⟨rfl, hty, hc.typed Θ (fits_of_grown hΘ' hy.grown), hy.typed Θ hΘ' hres,
      hn.typed Θ hΘ hres⟩

theorem localType_eq_ok {x : LocalId} {ty : Ty} :
    localType x s = .ok ty s' ↔ (s.locals[x]?.map (·.ty)).getD .noType = ty ∧ s = s' := by
  show EStateM.Result.ok _ s = _ ↔ _
  simp

/-- What becomes of a condition. -/
theorem built_condition {e : Surface.Expr} (hs : Ready s) (h : condition ctx e s = .ok t s') :
    ExprBuilt ctx s t s' ∧ t.ty = .bool := by
  unfold condition at h
  obtain ⟨t, s₁, ht, h⟩ := bind_eq_ok.mp h
  obtain ⟨hty, h⟩ := guard_eq_ok.mp h
  obtain ⟨rfl, rfl⟩ := pure_eq_ok.mp h
  exact ⟨built_expr e hs ht, Decidable.not_not.mp hty⟩

/-- What the target of an assignment may be: a new local, or a known one of the same type. -/
theorem target_cases {written name : String} {ty : Ty} {span : Source.Span} {x : LocalId}
    (h : target written name ty span s = .ok x s') :
    (s.scope.lookup? name = none ∧ x = s.locals.size ∧
      s' = { s with
        locals := s.locals.push { name := written, ty }
        scope := s.scope.insert name x }) ∨
    (x ∈ s.scope.visible ∧ s' = s ∧ (s.locals[x]?.map (·.ty)).getD .noType = ty) := by
  unfold target at h
  obtain ⟨s₀, s₁, hget, h⟩ := bind_eq_ok.mp h
  obtain ⟨rfl, rfl⟩ := get_eq_ok.mp hget
  cases hx : s.scope.lookup? name with
  | none =>
    simp only [hx, declareLocal] at h
    obtain ⟨rfl, rfl⟩ := modifyGet_eq_ok.mp h
    exact .inl ⟨rfl, rfl, rfl⟩
  | some y =>
    simp only [hx] at h
    obtain ⟨expected, s₁, hty, h⟩ := bind_eq_ok.mp h
    obtain ⟨rfl, rfl⟩ := localType_eq_ok.mp hty
    obtain ⟨hsame, h⟩ := guard_eq_ok.mp h
    obtain ⟨rfl, rfl⟩ := pure_eq_ok.mp h
    exact .inr ⟨⟨name, hx⟩, rfl, Decidable.not_not.mp hsame⟩

/-- A store into a local of the table that the expression may store into. -/
theorem ExprBuilt.assign {x : LocalId} (h : ExprBuilt ctx s t s₁) (hs : Ready s)
    (hv : t.ty.isValue = true) (hx : x < s'.locals.size)
    (hnew : x ∉ {x | x < s.locals.size} ∨ x ∈ s.scope.visible)
    (hty : ∀ Θ : Typing, Θ.Fits ctx.symbols s'.locals → Θ.ofLocal x = t.ty)
    (houter : s'.scope.outer = s.scope.outer)
    (hvisible : s'.scope.visible = withLocals s.scope.visible [x])
    (hgrown : Grown s₁.locals s'.locals [] [x]) : StmtBuilt ctx s (t.withStore (some x)) s' where
  outer := houter
  visible := by rw [hvisible, h.defines hv]
  grown := by
    rw [Tree.loads_withStore, Tree.stores_withStore h.stores]
    simpa using h.grown.trans hgrown
  inScope := by
    refine ((Tree.isExpr_withStore t _).mpr h.isExpr).scoped_stmt ?_
    refine h.isExpr.scoped_withStore h.stores h.loads ?_
    intro y hy
    obtain rfl := Option.some.inj hy
    rcases hnew with hnew | hnew
    · refine .inl ?_
      rintro (hx | hx)
      · exact hnew hx
      · exact hnew (hs.visible _ (h.loads _ hx))
    · exact .inr ⟨rfl, hnew⟩
  inTable := by
    intro y hy
    rw [Tree.mem_mentions, Tree.loads_withStore, Tree.stores_withStore h.stores] at hy
    rcases hy with hy | hy
    · exact Nat.lt_of_lt_of_le (hs.visible y (h.loads y hy)) (h.grown.trans hgrown).size_le
    · obtain rfl : y = x := by simpa using hy
      exact hx
  bare := (Tree.bare_withStore t _).mpr (h.isExpr.bare h.stores)
  typed := by
    intro Θ hΘ _
    refine h.isExpr.typed_withStore (h.typed Θ (fits_of_grown hΘ hgrown)) ?_
    intro y hy
    obtain rfl := Option.some.inj hy
    exact ⟨hty Θ hΘ, hv⟩

/-- An assignment declares its local or stores into a known one. -/
theorem built_assignment {written : String} {value : Surface.Expr} {span : Source.Span}
    (hs : Ready s) (h : assignment ctx written value span s = .ok t s') : StmtBuilt ctx s t s' := by
  unfold assignment at h
  obtain ⟨-, h⟩ := guard_eq_ok.mp h
  obtain ⟨-, h⟩ := guard_eq_ok.mp h
  obtain ⟨e, s₁, he, h⟩ := bind_eq_ok.mp h
  have he := built_expr value hs he
  obtain ⟨hv, h⟩ := unless_eq_ok.mp h
  obtain ⟨x, s₂, hx, h⟩ := bind_eq_ok.mp h
  obtain ⟨rfl, rfl⟩ := modifyGet_eq_ok.mp h
  show StmtBuilt ctx s (e.setStore (some x) s₂.locals).1
    { s₂ with locals := (e.setStore (some x) s₂.locals).2 }
  rw [Tree.setStore_of_none he.store_eq_none]
  rcases target_cases hx with ⟨hfree, rfl, rfl⟩ | ⟨hknown, rfl, hty⟩
  · refine he.assign hs hv ?_ (.inl ?_) ?_ ?_ ?_ ?_
    · simp
    · simp [he.size]
    · intro Θ hΘ
      exact (fits_of_grown hΘ (Grown.store (by simp))).ofLocal _ _ Array.getElem?_push_size
    · simp [Scope.insert, he.scope]
    · show (s₁.scope.insert _ _).visible = _
      rw [Scope.visible_insert hfree, he.scope]
    · exact (Grown.push rfl hv rfl rfl).trans (.store (by simp))
  · rw [he.scope] at hknown
    have hlt := he.size ▸ hs.visible x hknown
    refine he.assign hs hv ?_ (.inr hknown) ?_ ?_ ?_ ?_
    · simpa using hlt
    · intro Θ hΘ
      have hΘ := (fits_of_grown hΘ (Grown.store hlt)).ofLocal x _ (Array.getElem?_eq_getElem hlt)
      rw [hΘ, ← hty]
      simp [hlt]
    · rw [he.scope]
    · rw [he.scope]
      ext y
      simp only [mem_withLocals, List.mem_singleton]
      exact ⟨.inl, fun h => h.elim id fun h => h ▸ hknown⟩
    · exact .store hlt

/-- The first local has the type of the result. -/
theorem Typing.Fits.result_eq {Θ : Typing} (h : Θ.Fits ctx.symbols s.locals) (hs : Ready s)
    (hres : Θ.ofLocal 0 = Θ.result) : (s.locals[0]?.map (·.ty)).getD .noType = Θ.result := by
  have hlt := hs.result
  rw [← hres, h.ofLocal 0 _ (Array.getElem?_eq_getElem hlt)]
  simp [hlt]

/-- A return without a value, where there is no result. -/
theorem built_void_ret (h : ∀ Θ : Typing, Θ.Fits ctx.symbols s.locals → Θ.ofLocal 0 = Θ.result →
    Θ.result = .void) : InnerBuilt ctx s (.ret { ty := .void }) s where
  scope := rfl
  grown := .refl _
  inScope := rfl
  inTable := by simp [Tree.mentions, Tree.loads, Tree.stores]
  bare := trivial
  typed := fun Θ hΘ hres => ⟨rfl, h Θ hΘ hres⟩

/-- What becomes of a return. -/
theorem built_ret {value : Option Surface.Expr} {span : Source.Span}
    (h : ret ctx value span s = .ok t s') :
    (Ready s → StmtBuilt ctx s t s') ∧ t.returns = true := by
  unfold ret at h
  obtain ⟨expected, s₁, hty, h⟩ := bind_eq_ok.mp h
  obtain ⟨rfl, rfl⟩ := localType_eq_ok.mp hty
  cases value with
  | none =>
    obtain ⟨hvoid, h⟩ := guard_eq_ok.mp h
    obtain ⟨rfl, rfl⟩ := pure_eq_ok.mp h
    refine ⟨fun hs => (built_void_ret fun Θ hΘ hres => ?_).stmt rfl, rfl⟩
    rw [← Typing.Fits.result_eq hΘ hs hres, Decidable.not_not.mp hvoid]
  | some e =>
    obtain ⟨v, s₁, hv, h⟩ := bind_eq_ok.mp h
    obtain ⟨hvoid, h⟩ := guard_eq_ok.mp h
    obtain ⟨hty, h⟩ := guard_eq_ok.mp h
    obtain ⟨rfl, rfl⟩ := pure_eq_ok.mp h
    refine ⟨fun hs => ?_, rfl⟩
    have hv := built_expr e hs hv
    have hret : InnerBuilt ctx s (.retValue { ty := .void } v) s₁ :=
      { scope := hv.scope
        grown := by simpa [Tree.loads, Tree.stores, hv.stores] using hv.grown
        inScope := ⟨rfl, hv.scoped false _⟩
        inTable := by
          intro x hx
          rcases Tree.mem_mentions_retValue.mp hx with hx | hx
          · exact hv.size ▸ (hv.mentions hs x hx).2
          · cases hx
        bare := ⟨hv.store_eq_none, hv.isExpr.bare hv.stores⟩
        typed := fun Θ hΘ hres => by
          have hres := Typing.Fits.result_eq (fits_of_grown hΘ hv.grown) hs hres
          exact ⟨rfl, hres ▸ hvoid, by rw [← hres, Decidable.not_not.mp hty], hv.typed Θ hΘ⟩ }
    exact hret.stmt rfl

/-- The statements of a block. -/
theorem SeqBuilt.block (h : SeqBuilt ctx { s with scope := s.scope.push } ts s₁) :
    InnerBuilt ctx s (.ofStatements ts) { s₁ with scope := s₁.scope.pop } where
  scope := by simp [Scope.pop, h.outer, Scope.push]
  grown := by simpa [Tree.ofStatements, Tree.loads, Tree.stores] using h.grown
  inScope := Tree.scoped_seq.mpr ⟨rfl, by simpa only [Scope.visible_push] using h.inOrder⟩
  inTable := by
    intro x hx
    rcases Tree.mem_mentions_seq.mp hx with hx | hx
    · exact h.inTable x hx
    · cases hx
  bare := Tree.allBare_iff.mpr h.bare
  typed := fun Θ hΘ hres => ⟨rfl, Tree.allTyped_iff.mpr (h.typed Θ hΘ hres)⟩

theorem Ready.push (h : Ready s) : Ready { s with scope := s.scope.push } :=
  ⟨h.result, fun x hx => h.visible x (by simpa only [Scope.visible_push] using hx)⟩

/-- A note is taken before a statement or not; the rest of the work is the same. -/
theorem statements_cons_ok {stmt : Surface.Stmt} {rest : List Surface.Stmt} {done : List Tree}
    {returns noted : Bool} {r : Tree × Bool}
    (h : statements ctx done returns noted (stmt :: rest) s = .ok r s') : ∃ u a flag s₁,
      statement ctx stmt { s with unreachable := u } = .ok (a, flag) s₁ ∧
      statements ctx (a :: done) (returns || flag) (noted || returns) rest s₁ = .ok r s' := by
  rw [statements] at h
  by_cases hnote : (returns && !noted) = true
  · rw [if_pos hnote] at h
    obtain ⟨v, s₀, hv, h⟩ := bind_eq_ok.mp h
    obtain rfl := modify_eq_ok.mp hv
    obtain ⟨⟨a, flag⟩, s₁, ha, h⟩ := bind_eq_ok.mp h
    exact ⟨_, a, flag, s₁, ha, h⟩
  · rw [if_neg hnote] at h
    obtain ⟨⟨a, flag⟩, s₁, ha, h⟩ := bind_eq_ok.mp h
    exact ⟨s.unreachable, a, flag, s₁, ha, h⟩

mutual

/-- What becomes of a statement, and a flagged one has a tree that returns. -/
theorem built_statement : ∀ (stmt : Surface.Stmt) {s s' : State} {t : Tree} {flag : Bool},
    statement ctx stmt s = .ok (t, flag) s' →
    (Ready s → StmtBuilt ctx s t s') ∧ (flag = true → t.returns = true)
  | .block body _, s, s', t, flag, h => by
    rw [statement] at h
    obtain ⟨s₁, hbody, rfl⟩ := inBlock_eq_ok.mp h
    obtain ⟨ts, rfl, hts, hreturns⟩ := built_statements body hbody
    exact ⟨fun hs => (List.append_nil ts ▸ hts hs.push (.nil ctx s₁)).block.stmt rfl,
      hreturns (by simp)⟩
  | .assign written value span, s, s', t, flag, h => by
    rw [statement] at h
    obtain ⟨t, s₁, ht, h⟩ := bind_eq_ok.mp h
    obtain ⟨heq, rfl⟩ := pure_eq_ok.mp h
    cases heq
    exact ⟨fun hs => built_assignment hs ht, by simp⟩
  | .ifThen c y _, s, s', t, flag, h => by
    rw [statement] at h
    obtain ⟨c, s₁, hc, h⟩ := bind_eq_ok.mp h
    obtain ⟨⟨y', f⟩, s₂, hy, h⟩ := bind_eq_ok.mp h
    obtain ⟨heq, rfl⟩ := pure_eq_ok.mp h
    cases heq
    obtain ⟨s₃, hinner, rfl⟩ := inBlock_eq_ok.mp hy
    refine ⟨fun hs => ?_, by simp⟩
    obtain ⟨hc, hty⟩ := built_condition hs hc
    have hy := (built_statement y hinner).1 (hs.of_eq hc.scope hc.size).push
    exact (hc.ifThen hty hs hy.inner).stmt rfl
  | .ifElse c y n _, s, s', t, flag, h => by
    rw [statement] at h
    obtain ⟨c, s₁, hc, h⟩ := bind_eq_ok.mp h
    obtain ⟨⟨y', f⟩, s₂, hy, h⟩ := bind_eq_ok.mp h
    obtain ⟨⟨n', g⟩, s₃, hn, h⟩ := bind_eq_ok.mp h
    obtain ⟨heq, rfl⟩ := pure_eq_ok.mp h
    cases heq
    obtain ⟨s₄, hinner, rfl⟩ := inBlock_eq_ok.mp hy
    obtain ⟨s₅, hinner', rfl⟩ := inBlock_eq_ok.mp hn
    obtain ⟨hy, hyes⟩ := built_statement y hinner
    obtain ⟨hn, hno⟩ := built_statement n hinner'
    refine ⟨fun hs => ?_, fun hflag => ?_⟩
    · obtain ⟨hc, hty⟩ := built_condition hs hc
      have hs₁ := hs.of_eq hc.scope hc.size
      have hy := (hy hs₁.push).inner
      exact (hc.ifElse hty hs hy (hn (hy.ready hs₁).push).inner).stmt rfl
    · obtain ⟨hf, hg⟩ := Bool.and_eq_true_iff.mp hflag
      rw [Tree.returns, hyes hf, hno hg, Bool.and_true]
  | .loop c b _, s, s', t, flag, h => by
    rw [statement] at h
    obtain ⟨c, s₁, hc, h⟩ := bind_eq_ok.mp h
    obtain ⟨⟨b', f⟩, s₂, hb, h⟩ := bind_eq_ok.mp h
    obtain ⟨heq, rfl⟩ := pure_eq_ok.mp h
    cases heq
    obtain ⟨s₃, hinner, rfl⟩ := inBlock_eq_ok.mp hb
    refine ⟨fun hs => ?_, by simp⟩
    obtain ⟨hc, hty⟩ := built_condition hs hc
    have hb := (built_statement b hinner).1 (hs.of_eq hc.scope hc.size).push
    exact (hc.loop hty hs hb.inner).stmt rfl
  | .ret value span, s, s', t, flag, h => by
    rw [statement] at h
    obtain ⟨t, s₁, ht, h⟩ := bind_eq_ok.mp h
    obtain ⟨heq, rfl⟩ := pure_eq_ok.mp h
    cases heq
    exact ⟨(built_ret ht).1, fun _ => (built_ret ht).2⟩
  | .expr e, s, s', t, flag, h => by
    rw [statement] at h
    obtain ⟨t, s₁, ht, h⟩ := bind_eq_ok.mp h
    obtain ⟨heq, rfl⟩ := pure_eq_ok.mp h
    cases heq
    exact ⟨fun hs => (built_expr e hs ht).stmt hs, by simp⟩

theorem built_statements : ∀ (rest : List Surface.Stmt) {done : List Tree} {returns noted : Bool}
    {s s' : State} {t : Tree} {flag : Bool},
    statements ctx done returns noted rest s = .ok (t, flag) s' →
    ∃ ts, t = .ofStatements (done.reverse ++ ts) ∧
      (Ready s → ∀ {more s₁}, SeqBuilt ctx s' more s₁ → SeqBuilt ctx s (ts ++ more) s₁) ∧
      ((returns = true → ∃ u ∈ done, u.returns = true) → flag = true → t.returns = true)
  | [], done, returns, noted, s, s', t, flag, h => by
    rw [statements] at h
    obtain ⟨heq, rfl⟩ := pure_eq_ok.mp h
    cases heq
    refine ⟨[], by simp, fun _ _ _ hmore => hmore, fun hdone hflag => ?_⟩
    obtain ⟨u, hu, hreturns⟩ := hdone hflag
    exact Tree.anyReturns_iff.mpr ⟨u, List.mem_reverse.mpr hu, hreturns⟩
  | stmt :: rest, done, returns, noted, s, s', t, flag, h => by
    obtain ⟨u, a, f, s₁, ha, h⟩ := statements_cons_ok h
    obtain ⟨ha, hflagged⟩ := built_statement stmt ha
    obtain ⟨ts, rfl, hts, hreturns⟩ := built_statements rest h
    refine ⟨a :: ts, by simp, fun hs _ _ hmore => ?_, fun hdone => hreturns fun hflag => ?_⟩
    · obtain ⟨⟨hgrown, hscope, htable, hbare, htyped⟩, houter, hvisible⟩ := ha (hs.of_eq rfl rfl)
      have ha : StmtBuilt ctx s a s₁ :=
        ⟨⟨hgrown, hscope, htable, hbare, htyped⟩, houter, hvisible⟩
      exact .cons ha (hts (ha.ready hs) hmore)
    · rcases Bool.or_eq_true_iff.mp hflag with hflag | hflag
      · obtain ⟨u, hu, hu'⟩ := hdone hflag
        exact ⟨u, List.mem_cons_of_mem a hu, hu'⟩
      · exact ⟨a, List.mem_cons_self, hflagged hflag⟩

end

/-! ## Parameters -/

/-- The local of a parameter. -/
def parameterLocal (p : Surface.Param) : Local :=
  { name := p.name, ty := .ofName p.type, isParameter := true }

/-- A parameter is the next local, and visible. -/
theorem declareParameter_ok {p : Surface.Param} {u : Unit}
    (h : declareParameter ctx p s = .ok u s') : s'.locals = s.locals.push (parameterLocal p) ∧
      ∀ x ∈ s'.scope.visible, x ∈ s.scope.visible ∨ x = s.locals.size := by
  unfold declareParameter at h
  obtain ⟨-, h⟩ := guard_eq_ok.mp h
  obtain ⟨s₀, s₁, hget, h⟩ := bind_eq_ok.mp h
  obtain ⟨rfl, rfl⟩ := get_eq_ok.mp hget
  obtain ⟨-, h⟩ := guard_eq_ok.mp h
  obtain ⟨x, s₁, hx, h⟩ := bind_eq_ok.mp h
  obtain ⟨-, rfl⟩ := pure_eq_ok.mp h
  obtain ⟨rfl, rfl⟩ := modifyGet_eq_ok.mp hx
  refine ⟨rfl, ?_⟩
  rintro x ⟨name, hx⟩
  rw [Scope.lookup?_insert] at hx
  split at hx
  · exact .inr (Option.some.inj hx).symm
  · exact .inl ⟨name, hx⟩

/-- The parameters are the next locals in order, and they alone are visible in addition. -/
theorem declareParameters_ok {ps : List Surface.Param} {u : Unit}
    (h : ps.forM (declareParameter ctx) s = .ok u s') :
    s'.locals.toList = s.locals.toList ++ ps.map parameterLocal ∧
      ∀ x ∈ s'.scope.visible,
        x ∈ s.scope.visible ∨ s.locals.size ≤ x ∧ x < s.locals.size + ps.length := by
  induction ps generalizing s with
  | nil =>
    obtain ⟨-, rfl⟩ := pure_eq_ok.mp h
    exact ⟨by simp, fun x hx => .inl hx⟩
  | cons p rest ih =>
    obtain ⟨v, s₁, hp, h⟩ := bind_eq_ok.mp h
    obtain ⟨hlocals, hvisible⟩ := declareParameter_ok hp
    obtain ⟨ihlocals, ihvisible⟩ := ih h
    refine ⟨by simp [ihlocals, hlocals], fun x hx => ?_⟩
    rw [hlocals, Array.size_push] at ihvisible
    rw [List.length_cons]
    rcases ihvisible x hx with hx | ⟨hge, hlt⟩
    · rcases hvisible x hx with hx | rfl
      · exact .inl hx
      · exact .inr ⟨Nat.le_refl _, Nat.lt_add_of_pos_right (Nat.succ_pos _)⟩
    · refine .inr ⟨Nat.le_of_succ_le hge, ?_⟩
      rwa [Nat.add_assoc, Nat.add_comm 1] at hlt

end

end Build

/-! ## Routines -/

/-- What is known of a routine that has been built. The result comes first in its table, then the
parameters, then the other locals, and all loads and stores are counted. -/
structure Routine.Built (symbols : Symbols) (r : Routine) : Prop extends r.WellScoped where
  result : declared r.locals 0 = some (r.result, false)
  uses : ∀ x, usesOf r.locals x = r.body.loads.count x
  assignments : ∀ x, assignmentsOf r.locals x = r.body.stores.count x
  bare : r.body.Bare
  returns : r.body.returns = true
  typed : ∀ Θ : Typing, Θ.Fits symbols r.locals → Θ.result = r.result → r.body.Typed Θ

/-- The types that the table of a routine and the symbols of its program give. -/
def Routine.typing (symbols : Symbols) (r : Routine) : Typing where
  ofLocal := r.localType
  callee id params result := ∃ full f, symbols.function? full = some f ∧
    f.id = id ∧ f.params = params ∧ f.result = result
  result := r.result

theorem Routine.fits_typing (symbols : Symbols) (r : Routine) :
    (r.typing symbols).Fits symbols r.locals where
  ofLocal := fun x l hl => by simp [typing, localType, hl]
  callee := fun full f hf => ⟨full, f, hf, rfl, rfl, rfl⟩

namespace Build

open Steps

variable {ctx : Context} {s s' : State}

/-- The body of a routine, built between the parameters and the check for a sure return. -/
theorem built_body {stmts : List Surface.Stmt} {t : Tree} {flag : Bool} (hs : Ready s)
    (h : inBlock (statements ctx [] false false stmts) s = .ok (t, flag) s')
    (hvoid : flag = false → ∀ Θ : Typing, Θ.Fits ctx.symbols s.locals → Θ.ofLocal 0 = Θ.result →
      Θ.result = .void) :
    BodyBuilt ctx s (if flag then t else closed t) s' ∧
      (if flag then t else closed t).returns = true := by
  obtain ⟨s₁, hstmts, rfl⟩ := inBlock_eq_ok.mp h
  obtain ⟨ts, rfl, hts, hreturns⟩ := built_statements stmts hstmts
  have hbody : SeqBuilt ctx _ ts s₁ := List.append_nil ts ▸ hts hs.push (.nil ctx s₁)
  cases flag with
  | true => exact ⟨hbody.block.toBodyBuilt, hreturns (by simp) rfl⟩
  | false =>
    -- the return that is added is one statement more
    have hret : InnerBuilt ctx s₁ (.ret { ty := .void }) s₁ :=
      built_void_ret fun Θ hΘ => hvoid rfl Θ (fits_of_grown hΘ hbody.grown)
    refine ⟨(hts hs.push (.cons (hret.stmt rfl) (.nil ctx s₁))).block.toBodyBuilt, ?_⟩
    simp [closed, Tree.ofStatements, Tree.returns, Tree.anyReturns_iff]

/-- The table after the parameters have been declared. -/
theorem declared_parameters {locals : Locals} {result : Local} {ps : List Surface.Param}
    (h : locals.toList = result :: ps.map parameterLocal) (x : LocalId) : declared locals x =
      if x = 0 then some (result.ty, result.isParameter)
      else ps[x - 1]?.map fun p => (.ofName p.type, true) := by
  rw [declared, ← Array.getElem?_toList, h]
  cases x with
  | zero => rfl
  | succ x =>
    rw [List.getElem?_cons_succ, List.getElem?_map, Option.map_map]
    rfl

/-- Nothing has been counted when the parameters have been declared. -/
theorem uncounted_parameters {locals : Locals} {result : Local} {ps : List Surface.Param}
    (h : locals.toList = result :: ps.map parameterLocal) (hu : result.uses = 0)
    (ha : result.assignments = 0) (x : LocalId) :
    usesOf locals x = 0 ∧ assignmentsOf locals x = 0 := by
  rw [usesOf, assignmentsOf, ← Array.getElem?_toList, h]
  cases x with
  | zero => exact ⟨hu, ha⟩
  | succ x =>
    rw [List.getElem?_cons_succ, List.getElem?_map]
    cases ps[x]? with
    | none => exact ⟨rfl, rfl⟩
    | some p => exact ⟨rfl, rfl⟩

end Build

/-- The parameters are the locals that are declared so. -/
theorem Routine.mem_parameters {x : LocalId} :
    x ∈ r.parameters ↔ ∃ ty, declared r.locals x = some (ty, true) := by
  simp only [Routine.parameters, declared, Option.map_eq_some_iff, Prod.mk.injEq]
  constructor
  · rintro ⟨l, hl, hp⟩
    exact ⟨l.ty, l, hl, rfl, hp⟩
  · rintro ⟨ty, l, hl, -, hp⟩
    exact ⟨l, hl, hp⟩

theorem Routine.localType_eq_of_declared {x : LocalId} {ty : Ty} {p : Bool}
    (h : declared r.locals x = some (ty, p)) : r.localType x = ty := by
  obtain ⟨l, hl, heq⟩ := Option.map_eq_some_iff.mp h
  simp [Routine.localType, hl, (Prod.mk.inj heq).1]

theorem Routine.result_eq_of_declared {ty : Ty} {p : Bool}
    (h : declared r.locals 0 = some (ty, p)) : r.result = ty :=
  localType_eq_of_declared h

namespace Build

open Steps

variable {ctx : Context} {s s' : State}

/-- A body built after the parameters makes a routine. -/
theorem BodyBuilt.routine {result : Local} {ps : List Surface.Param} {body : Tree}
    (hb : BodyBuilt ctx s body s') (htable : s.locals.toList = result :: ps.map parameterLocal)
    (hvisible : ∀ x ∈ s.scope.visible, 1 ≤ x ∧ x < ps.length + 1)
    (hp : result.isParameter = false) (hu : result.uses = 0) (ha : result.assignments = 0)
    (hreturns : body.returns = true) (id : RoutineId) (name : String) :
    Routine.Built ctx.symbols
      { id, fullName := name, locals := s'.locals, paramCount := ps.length, body } := by
  have hdecl := declared_parameters htable
  have hsize : s.locals.size = ps.length + 1 := by simp [← Array.length_toList, htable]
  have hzero : declared s'.locals 0 = some (result.ty, false) := by
    rw [hb.grown.kept 0 (by omega), hdecl 0, if_pos rfl, hp]
  -- locals the body has added are no parameters
  have hparams : ∀ x, (∃ ty, declared s'.locals x = some (ty, true)) ↔ 1 ≤ x ∧ x ≤ ps.length := by
    intro x
    by_cases hx : x < s.locals.size
    · rw [hb.grown.kept x hx, hdecl x]
      rw [hsize] at hx
      split
      · next h => simp [h, hp]
      · next h =>
        have hle : 1 ≤ x ∧ x ≤ ps.length := ⟨Nat.one_le_iff_ne_zero.mpr h, Nat.lt_succ_iff.mp hx⟩
        have hlt : x - 1 < ps.length := Nat.sub_one_lt_of_le hle.1 hle.2
        simp [hlt, hle]
    · constructor
      · rintro ⟨ty, h⟩
        exact absurd (hb.grown.new x ty true (Nat.le_of_not_lt hx) h) (by simp)
      · rintro ⟨-, h⟩
        exact absurd (hsize ▸ Nat.lt_succ_of_le h) hx
  have hset : ∀ x, 1 ≤ x ∧ x < ps.length + 1 ↔ ∃ ty, declared s'.locals x = some (ty, true) :=
    fun x => by rw [hparams x, Nat.lt_succ_iff]
  refine
    { params := fun x => by rw [Routine.mem_parameters]; exact hparams x
      paramCount_lt := ?_
      inScope := hb.inScope.mono ?_ ?_
      inTable := hb.inTable
      result := by rw [Routine.result_eq_of_declared hzero]; exact hzero
      uses := fun x => ?_
      assignments := fun x => ?_
      bare := hb.bare
      returns := hreturns
      typed := fun Θ hΘ hres => hb.typed Θ hΘ ?_ }
  · have := hb.grown.size_le
    show ps.length < s'.locals.size
    omega
  · intro x _ hx
    exact Routine.mem_parameters.mpr ((hset x).mp (hvisible x hx))
  · intro x _ hx
    exact hsize ▸ ((hset x).mpr (Routine.mem_parameters.mp hx)).2
  · rw [hb.grown.uses x, (uncounted_parameters htable hu ha x).1, Nat.zero_add]
  · rw [hb.grown.assignments x, (uncounted_parameters htable hu ha x).2, Nat.zero_add]
  · obtain ⟨l, hl, heq⟩ := Option.map_eq_some_iff.mp hzero
    rw [hΘ.ofLocal 0 l hl, hres, Routine.result_eq_of_declared hzero, (Prod.mk.inj heq).1]

/-- How a routine comes about: the parameters are declared, and the body is built after them. -/
theorem routine_eq_ok {symbol : FunctionSymbol} {result : Local}
    (hlocals : s.locals = #[result]) (hscope : s.scope = .empty) (hty : result.ty = symbol.result)
    (h : routine ctx symbol f s = .ok r s') :
    ∃ s₁, s₁.locals.toList = result :: f.params.map parameterLocal ∧
      (∀ x ∈ s₁.scope.visible, 1 ≤ x ∧ x < f.params.length + 1) ∧
      BodyBuilt ctx s₁ r.body s' ∧ r.body.returns = true ∧
      r = { id := symbol.id, fullName := symbol.fullName, locals := s'.locals,
            paramCount := f.params.length, body := r.body } := by
  unfold routine at h
  obtain ⟨u, s₁, hparams, h⟩ := bind_eq_ok.mp h
  obtain ⟨⟨t, flag⟩, s₂, hbody, h⟩ := bind_eq_ok.mp h
  obtain ⟨hret, h⟩ := guard_eq_ok.mp h
  obtain ⟨s₃, s₄, hget, h⟩ := bind_eq_ok.mp h
  obtain ⟨rfl, rfl⟩ := get_eq_ok.mp hget
  obtain ⟨rfl, rfl⟩ := pure_eq_ok.mp h
  -- The table and the names after the parameters.
  obtain ⟨htable, hvisible⟩ := declareParameters_ok hparams
  rw [hlocals] at htable hvisible
  replace htable : s₁.locals.toList = result :: f.params.map parameterLocal := htable
  have hsize : s₁.locals.size = f.params.length + 1 := by simp [← Array.length_toList, htable]
  have hvisible : ∀ x ∈ s₁.scope.visible, 1 ≤ x ∧ x < f.params.length + 1 := by
    intro x hx
    rcases hvisible x hx with ⟨name, hx⟩ | hx
    · simp [hscope, Scope.lookup?, Scope.empty] at hx
    · rwa [List.size_toArray, List.length_singleton, Nat.add_comm] at hx
  have hready : Ready s₁ := ⟨by omega, fun x hx => hsize ▸ (hvisible x hx).2⟩
  have hvoid : flag = false → ∀ Θ : Typing, Θ.Fits ctx.symbols s₁.locals → Θ.ofLocal 0 = Θ.result →
      Θ.result = .void := by
    intro hflag Θ hΘ hres
    have hzero : s₁.locals[0]? = some result := by rw [← Array.getElem?_toList, htable]; rfl
    have hv : symbol.result = .void := by simpa [hflag] using hret
    rw [← hres, hΘ.ofLocal 0 result hzero, hty, hv]
  obtain ⟨hb, hreturns⟩ := built_body hready hbody hvoid
  exact ⟨s₁, htable, hvisible, hb, hreturns, rfl⟩

end Build

/-- A routine is the one of a function with an entry: it has the number, the name and the signature
of the entry, its locals beyond the parameters are for values, and its body leaves the local of the
result alone. -/
structure Routine.Of (r : Routine) (symbol : FunctionSymbol) (f : Surface.Function) : Prop where
  id : r.id = symbol.id
  fullName : r.fullName = symbol.fullName
  result : r.result = symbol.result
  paramCount : r.paramCount = f.params.length
  params : ∀ n p, f.params[n]? = some p → declared r.locals (n + 1) = some (.ofName p.type, true)
  values : ∀ x ty p, r.paramCount < x → declared r.locals x = some (ty, p) → ty.isValue = true
  unmentioned : 0 ∉ r.body.mentions

theorem Build.built_routine {ctx : Context} {s s' : State} {symbol : FunctionSymbol}
    {result : Local} (hlocals : s.locals = #[result]) (hscope : s.scope = .empty)
    (hty : result.ty = symbol.result) (hp : result.isParameter = false) (hu : result.uses = 0)
    (ha : result.assignments = 0) (h : routine ctx symbol f s = .ok r s') :
    r.Built ctx.symbols ∧ r.Of symbol f := by
  obtain ⟨s₁, htable, hvisible, hb, hreturns, hr⟩ := routine_eq_ok hlocals hscope hty h
  have hsize : s₁.locals.size = f.params.length + 1 := by simp [← Array.length_toList, htable]
  have hkept := hb.grown.kept
  rw [hr]
  refine ⟨hb.routine htable hvisible hp hu ha hreturns _ _, rfl, rfl, ?_, rfl, fun n p hp => ?_,
    fun x ty p hx => hb.grown.values x ty p (hsize ▸ hx), ?_⟩
  · have hzero : declared s'.locals 0 = some (result.ty, result.isParameter) := by
      rw [hkept 0 (hsize ▸ Nat.succ_pos _), declared_parameters htable, if_pos rfl]
    exact (Routine.result_eq_of_declared hzero).trans hty
  · have hn : n < f.params.length := (List.getElem?_eq_some_iff.mp hp).1
    rw [hkept (n + 1) (hsize ▸ Nat.succ_lt_succ hn), declared_parameters htable,
      if_neg (Nat.succ_ne_zero n), Nat.add_sub_cancel, hp]
    rfl
  · refine hb.inScope.not_mentioned (show 0 < s₁.locals.size by omega) fun hx => ?_
    exact absurd (hvisible 0 hx).1 (by omega)

/-- A finished routine is that of the entry of its function. -/
theorem buildRoutine_eq_ok {moduleName : String} {spans : List Source.Span}
    (h : buildRoutine symbols moduleName f = (.ok r, spans)) :
    ∃ symbol, symbols.function? (fullName moduleName f.name) = some symbol ∧ r.Built symbols ∧
      r.Of symbol f := by
  unfold buildRoutine at h
  cases hf : symbols.function? (fullName moduleName f.name) with
  | none => simp [hf] at h
  | some symbol =>
    simp only [hf] at h
    generalize hrun : (Build.routine _ symbol f).run _ = outcome at h
    cases outcome with
    | error e s => simp at h
    | ok r' s =>
      simp only [Prod.mk.injEq, Except.ok.injEq] at h
      obtain ⟨rfl, -⟩ := h
      exact ⟨symbol, rfl, Build.built_routine rfl rfl rfl rfl rfl rfl hrun⟩

/-- A routine that comes out of building has all that the passes rely on. -/
theorem built_of_buildRoutine {moduleName : String} {spans : List Source.Span}
    (h : buildRoutine symbols moduleName f = (.ok r, spans)) : r.Built symbols := by
  obtain ⟨symbol, -, hb, -⟩ := buildRoutine_eq_ok h
  exact hb

/-! ## Building by evaluation -/

namespace Build.Evaluated

-- What the work on a given function goes through, for `simp`.
attribute [scoped simp] routine declareParameter declareLocal inBlock statements statement closed
  assignment target condition expr operator_binary operator_unary name load localType operands
  arguments apply ret Surface.BinaryOp.intrinsic Surface.UnaryOp.intrinsic Scope.empty
  Scope.declares Scope.lookup? Scope.push Scope.insert Scope.pop Tree.ofValue Tree.ofStatements
  Tree.ty Tree.tag Tree.store Tree.setStore Tree.withStore Tree.withTag Value.ty Ty.ofName
  Ty.isValue EStateM.run bind EStateM.bind pure EStateM.pure modify modifyGet
  MonadStateOf.modifyGet EStateM.modifyGet get getThe MonadStateOf.get EStateM.get throw throwThe

end Build.Evaluated

/-! ## Programs of one module -/

/-- The module `main` with these functions and nothing else. -/
@[simp] def Surface.Module.ofFunctions (functions : List Surface.Function) : Surface.Module where
  name := "main"
  imports := []
  constants := []
  functions
  span := default

namespace Symbols

/-- The symbols of a program that is this function of the module `main` alone. -/
def alone (f : Surface.Function) : Symbols where
  modules := #[{ name := "main", imports := [], span := default }]
  functions := #[functionSymbol 0 "main" f]
  index := (∅ : Std.HashMap String Nat).insert (fullName "main" f.name) 0

theorem function?_alone (f : Surface.Function) :
    (alone f).function? (fullName "main" f.name) = some (functionSymbol 0 "main" f) := by
  simp [function?, alone]

theorem resolveConstant?_alone (f : Surface.Function) (name : String) :
    (alone f).resolveConstant? "main" name = none :=
  resolveConstant?_of_no_constants rfl "main" name

end Symbols

theorem foldName_main : foldName "main" = "main" := by decide +kernel

end Codewright
