import Codewright.Proofs.Parts
import Codewright.Proofs.Scoping

/-!
# Types of trees

What holds of the trees that come out of building, apart from their scoping: expressions and
statements are kept apart, operands carry no store, every node has the type that its parts ask for,
and a body returns on every path.
-/

namespace Codewright

/-- The types that a tree is checked against: of the locals, of the parameters and the result of the
routines that it may call, and of its own result. -/
structure Typing where
  ofLocal : LocalId → Ty
  callee : RoutineId → List Ty → Ty → Prop
  result : Ty

/-- A node stores a value, into a local of its own type. -/
def Typing.Stores (Θ : Typing) (tag : Tag) : Prop :=
  ∀ x, tag.store = some x → Θ.ofLocal x = tag.ty ∧ tag.ty.isValue = true

/-- No operand is unsuited just when the constraint admits all. -/
theorem Signature.firstUnsuited?_eq_none {s : Signature} {n : Nat} {types : List Ty} :
    s.firstUnsuited? n types = none ↔ ∀ ty ∈ types, s.constraint.admits ty = true := by
  induction types generalizing n with
  | nil => simp [firstUnsuited?]
  | cons ty rest ih =>
    rw [firstUnsuited?]
    split
    · next h => simp [ih, h]
    · next h => simp [h]

/-- A check succeeds on the right number of admitted types, alike where that is asked. -/
theorem Signature.check_eq_ok {s : Signature} {types : List Ty} {ty : Ty} :
    s.check types = .ok ty ↔ s.least ≤ types.length ∧ types.length ≤ s.most ∧
      (∀ ty ∈ types, s.constraint.admits ty = true) ∧
      (s.constraint.wantsOneType = true → firstDifferent? types = none) ∧
      ty = s.resultType types := by
  unfold Signature.check
  split
  · next h => simp; omega
  · next hleast =>
    split
    · next h => simp; omega
    · next hmost =>
      have hleast : s.least ≤ types.length := by omega
      have hmost : types.length ≤ s.most := by omega
      rw [← firstUnsuited?_eq_none (n := 0)]
      cases s.firstUnsuited? 0 types with
      | some e => simp
      | none =>
        cases h : s.constraint.wantsOneType with
        | false => simp [eq_comm, hleast, hmost]
        | true =>
          cases firstDifferent? types with
          | some e => simp
          | none => simp [eq_comm, hleast, hmost]

namespace Intrinsic

variable {op : Intrinsic} {types : List Ty} {ty : Ty}

/-- The type that a check gives is the signature's. -/
theorem resultType_of_check
    (h : op.check types = .ok ty) : ty = op.signature.resultType types :=
  (Signature.check_eq_ok.mp h).2.2.2.2

/-- Every intrinsic takes values. -/
theorem isValue_of_check_operands
    (h : op.check types = .ok ty) : ∀ ty' ∈ types, ty'.isValue = true := by
  obtain ⟨-, -, hadmits, -⟩ := Signature.check_eq_ok.mp h
  intro ty' hty'
  have hadmit := hadmits ty' hty'
  generalize op.signature.constraint = c at hadmit
  cases c <;> cases ty' <;> first | rfl | exact absurd hadmit (by decide)

/-- Every intrinsic but these two gives a value. -/
theorem isValue_of_check
    (h : op.check types = .ok ty) (hp : op ≠ .print) (hf : op ≠ .failFast) : ty.isValue = true := by
  obtain ⟨hleast, -, hadmits, -, rfl⟩ := Signature.check_eq_ok.mp h
  cases types with
  | nil => cases op <;> contradiction
  | cons a rest =>
    have ha := hadmits a (by simp)
    cases op <;> first
      | contradiction
      | rfl
      | (simp only [signature, Signature.resultType]; split <;> rfl)
      | (cases a <;> first | rfl | exact absurd ha (by decide))

end Intrinsic

namespace Tree

mutual

/-- Every node has the type that its parts ask for. -/
def Typed (Θ : Typing) : Tree → Prop
  | .const tag value => Θ.Stores tag ∧ tag.ty = value.ty
  | .load tag x => Θ.Stores tag ∧ tag.ty = Θ.ofLocal x
  | .failFast tag => Θ.Stores tag ∧ tag.ty = .void
  | .call tag callee args =>
    Θ.Stores tag ∧ Θ.callee callee (args.map ty) tag.ty ∧ AllTyped Θ args
  | .binary tag op left right => Θ.Stores tag ∧ tag.ty.isValue = true ∧
    op.check [left.ty, right.ty] = .ok tag.ty ∧ Typed Θ left ∧ Typed Θ right
  | .unary tag op operand => Θ.Stores tag ∧ tag.ty.isValue = true ∧
    op.check [operand.ty] = .ok tag.ty ∧ Typed Θ operand
  | .toReal tag operand => Θ.Stores tag ∧ tag.ty = .real ∧ operand.ty = .int ∧ Typed Θ operand
  | .print tag args => Θ.Stores tag ∧ Intrinsic.print.check (args.map ty) = .ok tag.ty ∧
    AllTyped Θ args
  | .seq tag body => tag.ty = .void ∧ AllTyped Θ body
  | .ifThen tag condition yes =>
    tag.ty = .void ∧ condition.ty = .bool ∧ Typed Θ condition ∧ Typed Θ yes
  | .ifElse tag condition yes no =>
    tag.ty = .void ∧ condition.ty = .bool ∧ Typed Θ condition ∧ Typed Θ yes ∧ Typed Θ no
  | .loop tag condition body =>
    tag.ty = .void ∧ condition.ty = .bool ∧ Typed Θ condition ∧ Typed Θ body
  | .ret tag => tag.ty = .void ∧ Θ.result = .void
  | .retValue tag value =>
    tag.ty = .void ∧ Θ.result ≠ .void ∧ value.ty = Θ.result ∧ Typed Θ value

def AllTyped (Θ : Typing) : List Tree → Prop
  | [] => True
  | t :: rest => Typed Θ t ∧ AllTyped Θ rest

end

mutual

/-- No statement stands in the tree. -/
def IsExpr : Tree → Prop
  | .const _ _ | .load _ _ | .failFast _ => True
  | .call _ _ args | .print _ args => AllExpr args
  | .binary _ _ left right => IsExpr left ∧ IsExpr right
  | .unary _ _ operand | .toReal _ operand => IsExpr operand
  | .seq _ _ | .ifThen _ _ _ | .ifElse _ _ _ _ | .loop _ _ _ | .ret _ | .retValue _ _ => False

def AllExpr : List Tree → Prop
  | [] => True
  | t :: rest => IsExpr t ∧ AllExpr rest

end

mutual

/-- Only statements carry a store. -/
def Bare : Tree → Prop
  | .const _ _ | .load _ _ | .failFast _ | .ret _ => True
  | .call _ _ args | .print _ args => BareOperandsIn args
  | .binary _ _ left right =>
    (left.store = none ∧ Bare left) ∧ right.store = none ∧ Bare right
  | .unary _ _ operand | .toReal _ operand | .retValue _ operand =>
    operand.store = none ∧ Bare operand
  | .seq _ body => AllBare body
  | .ifThen _ condition yes => (condition.store = none ∧ Bare condition) ∧ Bare yes
  | .ifElse _ condition yes no => (condition.store = none ∧ Bare condition) ∧ Bare yes ∧ Bare no
  | .loop _ condition body => (condition.store = none ∧ Bare condition) ∧ Bare body

def BareOperandsIn : List Tree → Prop
  | [] => True
  | t :: rest => (t.store = none ∧ Bare t) ∧ BareOperandsIn rest

def AllBare : List Tree → Prop
  | [] => True
  | t :: rest => Bare t ∧ AllBare rest

end

mutual

/-- Whether a statement returns on every path through it. -/
def returns : Tree → Bool
  | .ret _ | .retValue _ _ => true
  | .seq _ body => anyReturns body
  | .ifElse _ _ yes no => returns yes && returns no
  | .const _ _ | .load _ _ | .call _ _ _ | .binary _ _ _ _ | .unary _ _ _ | .ifThen _ _ _
  | .loop _ _ _ | .print _ _ | .failFast _ | .toReal _ _ => false

def anyReturns : List Tree → Bool
  | [] => false
  | t :: rest => returns t || anyReturns rest

end

section

variable {t : Tree} {f : Operator} {Θ : Typing} {ts : List Tree}

theorem allTyped_iff : AllTyped Θ ts ↔ ∀ t ∈ ts, Typed Θ t := by
  induction ts with
  | nil => simp [AllTyped]
  | cons t rest ih => simp [AllTyped, ih]

theorem allExpr_iff : AllExpr ts ↔ ∀ t ∈ ts, IsExpr t := by
  induction ts with
  | nil => simp [AllExpr]
  | cons t rest ih => simp [AllExpr, ih]

theorem allBare_iff : AllBare ts ↔ ∀ t ∈ ts, Bare t := by
  induction ts with
  | nil => simp [AllBare]
  | cons t rest ih => simp [AllBare, ih]

theorem bareOperandsIn_iff : BareOperandsIn ts ↔ ∀ t ∈ ts, t.store = none ∧ Bare t := by
  induction ts with
  | nil => simp [BareOperandsIn]
  | cons t rest ih => simp [BareOperandsIn, ih]

theorem anyReturns_iff : anyReturns ts = true ↔ ∃ t ∈ ts, t.returns = true := by
  induction ts with
  | nil => simp [anyReturns]
  | cons t rest ih => simp [anyReturns, ih]

/-- A node that computes is an expression if its operands are. -/
theorem isExpr_operator (h : t.operator? = some f) : IsExpr t ↔ ∀ a ∈ f.operands, IsExpr a := by
  rw [← allExpr_iff]
  cases t <;> cases h <;> simp [IsExpr, AllExpr]

/-- A node that computes is bare if its operands are, and carry no store. -/
theorem bare_operator (h : t.operator? = some f) :
    Bare t ↔ ∀ a ∈ f.operands, a.store = none ∧ Bare a := by
  rw [← bareOperandsIn_iff]
  cases t <;> cases h <;> simp [Bare, BareOperandsIn]

/-- What is known of a typed node that computes. -/
theorem Typed.operator (h : t.operator? = some f) (ht : Typed Θ t) :
    Θ.Stores t.tag ∧ f.yields = t.ty.isValue ∧ ∀ a ∈ f.operands, Typed Θ a := by
  cases t <;> cases h <;> simp only [Typed, allTyped_iff] at ht
  case call => exact ⟨ht.1, rfl, ht.2.2⟩
  case binary => exact ⟨ht.1, ht.2.1.symm, by simp [ht.2.2.2]⟩
  case unary => exact ⟨ht.1, ht.2.1.symm, by simp [ht.2.2.2]⟩
  case toReal tag x => exact ⟨ht.1, by simp [ty, Tree.tag, ht.2.1, Ty.isValue], by simp [ht.2.2.2]⟩
  case print tag args =>
    have hvoid : tag.ty = .void := Intrinsic.resultType_of_check ht.2.1
    exact ⟨ht.1, by simp [ty, Tree.tag, hvoid, Ty.isValue], ht.2.2⟩

/-- The operands of an intrinsic are values. -/
theorem Typed.isValue_operands (h : t.operator? = some f) (ht : Typed Θ t)
    (hcall : ∀ callee, f.operation ≠ .routine callee) : ∀ a ∈ f.operands, a.ty.isValue = true := by
  have hcheck : ∀ {op : Intrinsic} {ts : List Tree} {ty : Ty}, op.check (ts.map Tree.ty) = .ok ty →
      ∀ a ∈ ts, a.ty.isValue = true :=
    fun h a ha => Intrinsic.isValue_of_check_operands h a.ty (List.mem_map_of_mem ha)
  cases t <;> cases h
  case call => exact absurd rfl (hcall _)
  case binary tag op l r =>
    have hop : op.check ([l, r].map Tree.ty) = .ok tag.ty := ht.2.2.1
    exact hcheck hop
  case unary tag op a =>
    have hop : op.check ([a].map Tree.ty) = .ok tag.ty := ht.2.2.1
    exact hcheck hop
  case print tag args => exact hcheck ht.2.1
  case toReal tag a =>
    intro b hb
    rw [List.mem_singleton.mp hb, ht.2.2.1]
    rfl

theorem returns_operator (h : t.operator? = some f) : t.returns = false := by
  cases t <;> first | rfl | cases h

/-! ## Parts -/

/-- The parts of a typed node are typed. -/
theorem Typed.parts (h : Typed Θ t) : ∀ p ∈ t.parts, Typed Θ p := by
  cases t <;> simp_all [Typed, Tree.parts, allTyped_iff]

/-- The parts of a bare node are bare. -/
theorem Bare.parts (h : Bare t) : ∀ p ∈ t.parts, Bare p := by
  cases t <;> simp_all [Bare, Tree.parts, allBare_iff, bareOperandsIn_iff]

/-- Typed parts of the same types keep a node typed. -/
theorem Typed.withParts (h : Typed Θ t) (hty : ts.map ty = t.parts.map ty)
    (hts : ∀ p ∈ ts, Typed Θ p) : Typed Θ (t.withParts ts) := by
  fun_cases Tree.withParts t ts <;> simp_all [Typed, Tree.parts, allTyped_iff]

/-- Bare parts with the same stores keep a node bare. -/
theorem Bare.withParts (h : Bare t) (hs : ts.map store = t.parts.map store)
    (hts : ∀ p ∈ ts, Bare p) : Bare (t.withParts ts) := by
  have hnone : (∀ p ∈ t.parts, p.store = none) → ∀ p ∈ ts, p.store = none := by
    intro hparts p hp
    have hmem : p.store ∈ ts.map store := List.mem_map_of_mem hp
    rw [hs] at hmem
    obtain ⟨q, hq, heq⟩ := List.mem_map.mp hmem
    rw [← heq, hparts q hq]
  fun_cases Tree.withParts t ts <;> simp_all [Bare, Tree.parts, allBare_iff, bareOperandsIn_iff]

theorem anyReturns_eq (ts : List Tree) : anyReturns ts = (ts.map returns).any id := by
  induction ts with
  | nil => rfl
  | cons t rest ih => simp [anyReturns, ih]

/-- A node returns as its parts do. -/
theorem returns_withParts (h : ts.map returns = t.parts.map returns) :
    (t.withParts ts).returns = t.returns := by
  fun_cases Tree.withParts t ts <;> simp_all [returns, Tree.parts, anyReturns_eq]

/-! ## Expressions without a store -/

theorem storesAll_eq_nil : storesAll ts = [] ↔ ∀ t ∈ ts, t.stores = [] := by
  rw [storesAll_eq, List.flatMap_eq_nil_iff]

/-- A node that computes stores nothing if neither it nor an operand does. -/
theorem stores_operator_eq_nil (h : t.operator? = some f) :
    t.stores = [] ↔ t.store = none ∧ ∀ a ∈ f.operands, a.stores = [] := by
  rw [stores_operator h, List.append_eq_nil_iff, storesAll_eq_nil, and_comm,
    Option.toList_eq_nil_iff]

theorem store_eq_none_of_stores (h : t.stores = []) : t.store = none := by
  cases hs : t.store with
  | none => rfl
  | some x => simpa [h] using mem_stores_of_store hs

theorem definesAll_eq_nil (h : ∀ t ∈ ts, t.stores = []) : definesAll ts = [] := by
  rw [definesAll_eq, List.flatMap_eq_nil_iff]
  exact fun t ht => List.subset_nil.mp (h t ht ▸ stores_of_defines t)

variable {Γ U : Set LocalId} {again : Bool} {store : Option LocalId}

/-- An expression that loads known locals only is scoped, whatever has been met. -/
theorem IsExpr.scoped (h : IsExpr t) (hs : t.stores = [])
    (hl : ∀ x ∈ t.loads, x ∈ Γ) (again : Bool) (U : Set LocalId) : ScopedExpr again Γ U t := by
  induction t using Tree.induction generalizing again U with
  | const tag value | failFast tag =>
    have hn : tag.store = none := store_eq_none_of_stores hs
    intro x hx
    rw [hn] at hx
    cases hx
  | load tag x =>
    have hn : tag.store = none := store_eq_none_of_stores hs
    refine ⟨hl x (by simp [loads]), fun y hy => ?_⟩
    rw [hn] at hy
    cases hy
  | operator t f hf ih =>
    rw [isExpr_operator hf] at h
    rw [stores_operator_eq_nil hf] at hs
    rw [loads_operator hf, loadsAll_eq] at hl
    rw [scopedExpr_operator hf]
    refine ⟨?_, fun x hx => by rw [hs.1] at hx; cases hx⟩
    have hops : ∀ a ∈ f.operands, ∀ U, ScopedExpr false Γ U a := fun a ha U =>
      ih a ha (h a ha) (hs.2 a ha) (fun x hx => hl x (List.mem_flatMap.mpr ⟨a, ha, hx⟩)) false U
    have hdef : ∀ a ∈ f.operands, a.defines = [] := fun a ha =>
      List.subset_nil.mp (hs.2 a ha ▸ stores_of_defines a)
    clear h hs hl ih hf
    -- No operand defines anything, so all are scoped by the same locals.
    generalize f.operands = ts at hops hdef
    induction ts generalizing U with
    | nil => trivial
    | cons a rest ih =>
      refine ⟨hops a (by simp) U, ?_⟩
      rw [hdef a (by simp), withLocals_nil]
      exact ih _ (fun b hb => hops b (List.mem_cons_of_mem _ hb))
        (fun b hb => hdef b (List.mem_cons_of_mem _ hb))
  | seq | ifThen | ifElse | loop | ret | retValue => exact h.elim

theorem IsExpr.scoped_stmt (h : IsExpr t) (hs : ScopedExpr true Γ U t) : Scoped Γ U t := by
  cases t <;> first | exact hs | exact h.elim

/-- What is scoped as an expression is one. -/
theorem ScopedExpr.isExpr (h : ScopedExpr again Γ U t) : IsExpr t := by
  induction t using Tree.induction generalizing again Γ U with
  | const | load | failFast => trivial
  | operator t f hf ih =>
    rw [isExpr_operator hf]
    intro a ha
    obtain ⟨Γ', U', -, ha'⟩ := ((scopedExpr_operator hf).mp h).1.of_mem ha
    exact ih a ha ha'
  | seq | ifThen | ifElse | loop | ret | retValue => exact h.elim

/-- Only an expression carries a store. -/
theorem Scoped.isExpr_of_store {x : LocalId} (h : Scoped Γ U t)
    (hx : t.store = some x) : IsExpr t := by
  cases t
  case seq | ifThen | ifElse | loop | retValue => exact absurd (h.1.symm.trans hx) nofun
  case ret => exact absurd (Eq.trans (Eq.symm h) hx) nofun
  all_goals exact ScopedExpr.isExpr h

/-- The only store of a bare expression is its own. -/
theorem IsExpr.stores_of_bare (h : IsExpr t) (hb : Bare t) : t.stores = t.store.toList := by
  induction t using Tree.induction with
  | const | load | failFast => rfl
  | operator t f hf ih =>
    rw [isExpr_operator hf] at h
    rw [bare_operator hf] at hb
    have hnil : storesAll f.operands = [] := storesAll_eq_nil.mpr fun a ha => by
      rw [ih a ha (h a ha) (hb a ha).2, (hb a ha).1]
      rfl
    rw [stores_operator hf, hnil, List.nil_append]
  | seq | ifThen | ifElse | loop | ret | retValue => exact h.elim

theorem IsExpr.defines_of_bare (h : IsExpr t) (hb : Bare t) (hs : t.store = none) :
    t.defines = [] :=
  List.subset_nil.mp (by simpa [h.stores_of_bare hb, hs] using stores_of_defines t)

theorem InOrder.of_mem_undefined {S : Set LocalId → Set LocalId → Tree → Prop}
    (h : InOrder S Γ U ts) (hd : ∀ a ∈ ts, a.defines = []) (ht : t ∈ ts) : ∃ U', S Γ U' t := by
  induction ts generalizing U with
  | nil => cases ht
  | cons a rest ih =>
    rcases List.mem_cons.mp ht with rfl | ht
    · exact ⟨U, h.1⟩
    · have hrest := h.2
      rw [hd a (by simp), withLocals_nil] at hrest
      exact ih hrest (fun b hb => hd b (List.mem_cons_of_mem _ hb)) ht

/-- A bare scoped expression loads known locals only. -/
theorem ScopedExpr.loads_of_bare (h : ScopedExpr again Γ U t)
    (hb : Bare t) : ∀ z ∈ t.loads, z ∈ Γ := by
  induction t using Tree.induction generalizing again U with
  | const | failFast => simp [loads]
  | load tag x => simpa [loads] using h.1
  | operator t f hf ih =>
    rw [bare_operator hf] at hb
    have he := (isExpr_operator hf).mp h.isExpr
    have hd : ∀ a ∈ f.operands, a.defines = [] := fun a ha =>
      (he a ha).defines_of_bare (hb a ha).2 (hb a ha).1
    intro z hz
    rw [loads_operator hf, loadsAll_eq, List.mem_flatMap] at hz
    obtain ⟨a, ha, hz⟩ := hz
    obtain ⟨U', ha'⟩ := ((scopedExpr_operator hf).mp h).1.of_mem_undefined hd ha
    exact ih a ha ha' (hb a ha).2 z hz
  | seq | ifThen | ifElse | loop | ret | retValue => exact h.elim

theorem IsExpr.scopedExpr (h : IsExpr t) (hs : Scoped Γ U t) : ScopedExpr true Γ U t := by
  cases t <;> first | exact hs | exact h.elim

/-- An expression without a store is bare. -/
theorem IsExpr.bare (h : IsExpr t) (hs : t.stores = []) : Bare t := by
  induction t using Tree.induction with
  | const | load | failFast => trivial
  | operator t f hf ih =>
    rw [isExpr_operator hf] at h
    rw [stores_operator_eq_nil hf] at hs
    rw [bare_operator hf]
    exact fun a ha => ⟨store_eq_none_of_stores (hs.2 a ha), ih a ha (h a ha) (hs.2 a ha)⟩
  | seq | ifThen | ifElse | loop | ret | retValue => exact h.elim

/-! ## Another store at the root -/

section

variable (t : Tree) (store : Option LocalId)

@[simp] theorem tag_withStore : (t.withStore store).tag = { t.tag with store } := by
  cases t <;> rfl

@[simp] theorem store_withStore : (t.withStore store).store = store := by
  cases t <;> rfl

@[simp] theorem ty_withStore : (t.withStore store).ty = t.ty := by
  cases t <;> rfl

@[simp] theorem operator?_withStore : (t.withStore store).operator? = t.operator? := by
  cases t <;> rfl

@[simp] theorem loads_withStore : (t.withStore store).loads = t.loads := by
  cases t <;> simp [withStore, withTag, loads]

@[simp] theorem isExpr_withStore : (t.withStore store).IsExpr ↔ t.IsExpr := by
  cases t <;> simp [withStore, withTag, IsExpr]

@[simp] theorem bare_withStore : (t.withStore store).Bare ↔ t.Bare := by
  cases t <;> simp [withStore, withTag, Bare]

@[simp] theorem returns_withStore : (t.withStore store).returns = t.returns := by
  cases t <;> simp [withStore, withTag, returns]

@[simp] theorem withStore_withStore (store' : Option LocalId) :
    (t.withStore store).withStore store' = t.withStore store' := by
  cases t <;> rfl

end

/-- A node with its own store is the node. -/
theorem withStore_store (h : t.store = store) : t.withStore store = t := by
  subst h
  cases t <;> rfl

theorem stores_withStore (h : t.stores = []) (store : Option LocalId) :
    (t.withStore store).stores = store.toList := by
  cases t <;> simp_all [withStore, withTag, stores]

theorem setStore_of_none (h : t.store = none) (x : LocalId) (locals : Locals) :
    t.setStore (some x) locals = (t.withStore (some x),
      locals.modify x fun l => { l with assignments := l.assignments + 1 }) := by
  simp [setStore, h]

/-- A typed expression may store into a local of its type. -/
theorem IsExpr.typed_withStore (h : IsExpr t) (ht : Typed Θ t)
    (hs : ∀ x, store = some x → Θ.ofLocal x = t.ty ∧ t.ty.isValue = true) :
    Typed Θ (t.withStore store) := by
  cases t <;> first | exact h.elim | exact ⟨hs, ht.2⟩

/-- An expression of a value type defines the local that it stores into. -/
theorem IsExpr.defines_withStore (h : IsExpr t) (hs : t.stores = []) (ht : Typed Θ t)
    (hv : t.ty.isValue = true) (store : Option LocalId) :
    (t.withStore store).defines = store.toList := by
  induction t using Tree.induction with
  | const | load => rfl
  | failFast tag => simp [ty, Tree.tag, ht.2, Ty.isValue] at hv
  | operator t f hf _ =>
    rw [defines_operator (by rw [operator?_withStore, hf]), store_withStore,
      (ht.operator hf).2.1, hv, definesAll_eq_nil ((stores_operator_eq_nil hf).mp hs).2]
    rfl
  | seq | ifThen | ifElse | loop | ret | retValue => exact h.elim

/-- An expression may store into a local that the scope allows. -/
theorem IsExpr.scoped_withStore (h : IsExpr t) (hs : t.stores = []) (hl : ∀ x ∈ t.loads, x ∈ Γ)
    (hst : StoreScoped again Γ (withLocals U t.loads) store) :
    ScopedExpr again Γ U (t.withStore store) := by
  induction t using Tree.induction with
  | const tag value | failFast tag => simpa [withStore, withTag, ScopedExpr, loads] using hst
  | load tag x => exact ⟨hl x (by simp [loads]), by simpa [loads] using hst⟩
  | operator t f hf _ =>
    have hsc := (scopedExpr_operator hf).mp (h.scoped hs hl again U)
    have hs' := ((stores_operator_eq_nil hf).mp hs).2
    rw [scopedExpr_operator (by rw [operator?_withStore, hf]), store_withStore,
      definesAll_eq_nil hs', withLocals_nil]
    refine ⟨hsc.1, hst.mono (fun _ _ h => h) fun x _ hx => hx.imp_right fun hx => ?_⟩
    rw [mem_mentionsAll, storesAll_eq_nil.mpr hs'] at hx
    rw [loads_operator hf]
    exact hx.resolve_right (by simp)
  | seq | ifThen | ifElse | loop | ret | retValue => exact h.elim

end

end Tree

end Codewright
