import Codewright.Proofs.Building
import Codewright.Tree.SingleUse

/-!
# Removing single uses

The removal is a chain of merges: a statement that stores into a local is taken into the next one,
in the place of a load that the search finds first there (`LoadsFirst`). `Merge` is one such step
anywhere in a tree, and `removals_removeSingleUses` is the chain, with its length. A merge takes one
load and one store of its local, so the counts in the table stay right (`Counted.merge`), and what a
routine needs for the passes survives each merge of a local that is stored and loaded once.
-/

namespace Codewright

namespace Tree

/-! ## The first load -/

/-- The search for what comes first finds a load of the local. It goes down first operands, the
conditions of conditionals, returned values and the first statements of sequences, and not into
loops. -/
inductive LoadsFirst (x : LocalId) : Tree → Prop
  | load {tag : Tag} : LoadsFirst x (.load tag x)
  | operator {t : Tree} {f : Operator} {a : Tree} {rest : List Tree} (hf : t.operator? = some f)
    (hops : f.operands = a :: rest) (ha : LoadsFirst x a) : LoadsFirst x t
  | seq {tag : Tag} {a : Tree} {rest : List Tree} (ha : LoadsFirst x a) :
    LoadsFirst x (.seq tag (a :: rest))
  | ifThen {tag : Tag} {c y : Tree} (hc : LoadsFirst x c) : LoadsFirst x (.ifThen tag c y)
  | ifElse {tag : Tag} {c y n : Tree} (hc : LoadsFirst x c) : LoadsFirst x (.ifElse tag c y n)
  | retValue {tag : Tag} {v : Tree} (hv : LoadsFirst x v) : LoadsFirst x (.retValue tag v)

section

variable {t value : Tree} {f : Operator} {x : LocalId} {Γ U : Set LocalId} {Θ : Typing}

theorem firstLoad?_operator (h : t.operator? = some f) :
    t.firstLoad? = firstLoadOf? f.operands := by
  cases t <;> cases h <;> simp [firstLoad?, firstLoadOf?]

theorem loadsFirst_of_firstLoad? (h : t.firstLoad? = some x) : LoadsFirst x t := by
  induction t using Tree.induction with
  | const | failFast | loop | ret => cases h
  | load tag y =>
    cases h
    exact .load
  | operator t f hf ih =>
    rw [firstLoad?_operator hf] at h
    cases hops : f.operands with
    | nil =>
      rw [hops] at h
      cases h
    | cons a rest =>
      rw [hops] at h
      exact .operator hf hops (ih a (by simp [hops]) h)
  | seq tag body ih =>
    cases body with
    | nil => cases h
    | cons a rest => exact .seq (ih a (by simp) h)
  | ifThen tag c y ihc _ => exact .ifThen (ihc h)
  | ifElse tag c y n ihc _ _ => exact .ifElse (ihc h)
  | retValue tag v ih => exact .retValue (ih h)

theorem LoadsFirst.firstLoad? (h : LoadsFirst x t) : t.firstLoad? = some x := by
  induction h with
  | load => rfl
  | operator hf hops _ ih =>
    rw [firstLoad?_operator hf, hops]
    exact ih
  | seq _ ih | ifThen _ ih | ifElse _ ih | retValue _ ih => exact ih

theorem replaceFirstLoad_operator {a : Tree} {rest : List Tree} (h : t.operator? = some f)
    (hops : f.operands = a :: rest) : (replaceFirstLoad value t).operator? =
      some { f with operands := replaceFirstLoad value a :: rest } := by
  cases t <;> cases h <;> simp_all [replaceFirstLoad, replaceFirstLoadOf, operator?]

@[simp] theorem store_replaceFirstLoad (value t : Tree) :
    (replaceFirstLoad value t).store = t.store := by
  cases t with
  | load tag x => exact store_withStore _ _
  | _ => rfl

theorem LoadsFirst.replaceFirstLoad_withParts (h : LoadsFirst x t) {a b : Tree}
    {rest more : List Tree}
    (hparts : t.parts = a :: rest) (hmore : more.length = rest.length) (value : Tree) :
    replaceFirstLoad value (t.withParts (b :: more)) =
        t.withParts (replaceFirstLoad value b :: more) := by
  have hlength : more.length + 1 = t.parts.length := by rw [hparts, hmore, List.length_cons]
  cases t with
  | const | load | failFast | ret => cases hparts
  | call | print | seq => rfl
  | unary | toReal | retValue =>
    obtain rfl := List.length_eq_zero_iff.mp (Nat.succ.inj hlength)
    rfl
  | binary | ifThen =>
    obtain ⟨p, rfl⟩ := List.length_eq_one_iff.mp (Nat.succ.inj hlength)
    rfl
  | ifElse =>
    obtain ⟨p, q, rfl⟩ := List.length_eq_two.mp (Nat.succ.inj hlength)
    rfl
  | loop =>
    cases h with
    | operator hf => cases hf

theorem LoadsFirst.replaceFirstLoad_eq (h : LoadsFirst x t) {a : Tree} {rest : List Tree}
    (hparts : t.parts = a :: rest) (value : Tree) :
    replaceFirstLoad value t = t.withParts (replaceFirstLoad value a :: rest) := by
  have hsame := h.replaceFirstLoad_withParts (b := a) hparts rfl value
  rwa [← hparts, withParts_parts] at hsame

/-- The load is the node itself or it is in its first part. -/
theorem LoadsFirst.induction_parts {P : ∀ t, LoadsFirst x t → Prop}
    (load : ∀ tag, P (.load tag x) .load)
    (first : ∀ (t a : Tree) (rest : List Tree) (h : LoadsFirst x t) (ha : LoadsFirst x a),
      t.parts = a :: rest → P a ha → P t h) {t : Tree} (h : LoadsFirst x t) : P t h := by
  induction h with
  | load => exact load _
  | operator hf hops ha ih =>
    exact first _ _ _ (.operator hf hops ha) ha (by rw [parts_operator hf, hops]) ih
  | seq ha ih => exact first _ _ _ (.seq ha) ha rfl ih
  | ifThen ha ih => exact first _ _ _ (.ifThen ha) ha rfl ih
  | ifElse ha ih => exact first _ _ _ (.ifElse ha) ha rfl ih
  | retValue ha ih => exact first _ _ _ (.retValue ha) ha rfl ih

/-- The first load goes and the loads of the value come in its place. -/
theorem LoadsFirst.loads (h : LoadsFirst x t) (value : Tree) : ∃ rest, t.loads = x :: rest ∧
    (replaceFirstLoad value t).loads = value.loads ++ rest := by
  induction h using LoadsFirst.induction_parts with
  | load => exact ⟨[], rfl, by simp [replaceFirstLoad]⟩
  | first t a rest h _ hparts ih =>
    obtain ⟨more, hl, hl'⟩ := ih
    have hloads : ∀ {t a : Tree}, t.parts = a :: rest →
        t.loads = a.loads ++ rest.flatMap Tree.loads :=
      fun h => by rw [loads_eq (by simp [h]), h, List.flatMap_cons]
    rw [h.replaceFirstLoad_eq hparts, hloads hparts, hloads (parts_withParts (by rw [hparts]; rfl)),
      hl, hl', List.append_assoc]
    exact ⟨_, rfl, rfl⟩

theorem LoadsFirst.tail_loads_append (h : LoadsFirst x t) (more : List LocalId) :
    (t.loads ++ more).tail = t.loads.tail ++ more := by
  obtain ⟨rest, hl, -⟩ := h.loads t
  rw [hl]
  rfl

theorem stores_withStore_eq (t : Tree) (store : Option LocalId) :
    (t.withStore store).stores = (t.withStore none).stores ++ store.toList := by
  cases t <;> simp [withStore, withTag, Tree.stores, Tree.tag]

/-- The stores inside the value come first, and the value stores where the load did. -/
theorem LoadsFirst.stores (h : LoadsFirst x t) (value : Tree) :
    (replaceFirstLoad value t).stores = (value.withStore none).stores ++ t.stores := by
  induction h using LoadsFirst.induction_parts with
  | load => rw [replaceFirstLoad, stores_withStore_eq, Tree.stores]
  | first t a rest h _ hparts ih =>
    rw [h.replaceFirstLoad_eq hparts, stores_eq, stores_eq t, store_withParts,
      parts_withParts (by rw [hparts]; rfl), hparts, List.flatMap_cons, List.flatMap_cons, ih]
    simp only [List.append_assoc]

theorem LoadsFirst.mentions (h : LoadsFirst x t) (hv : value.stores = []) {z : LocalId}
    (hz : z ∈ (replaceFirstLoad value t).mentions) : z ∈ value.loads ∨ z ∈ t.mentions := by
  obtain ⟨rest, hl, hl'⟩ := h.loads value
  rw [mem_mentions, hl', h.stores value, stores_withStore hv, List.mem_append] at hz
  rw [mem_mentions, hl, List.mem_cons]
  tauto

theorem loadsAll_append (ts us : List Tree) : loadsAll (ts ++ us) = loadsAll ts ++ loadsAll us := by
  simp only [loadsAll_eq, List.flatMap_append]

theorem storesAll_append (ts us : List Tree) : storesAll (ts ++ us) = storesAll ts ++
    storesAll us := by
  simp only [storesAll_eq, List.flatMap_append]

/-- An expression that may stand in the place of a load of a local. -/
structure StandsFor (Θ : Typing) (x : LocalId) (value : Tree) : Prop where
  isExpr : value.IsExpr
  stores : value.stores = []
  typed : value.Typed Θ
  ty : value.ty = Θ.ofLocal x
  isValue : value.ty.isValue = true

theorem Scoped.standsFor {previous : Tree} (hs : Scoped Γ U previous) (hb : previous.Bare)
    (ht : previous.Typed Θ) (hx : previous.store = some x) :
    StandsFor Θ x (previous.withStore none) := by
  have he := hs.isExpr_of_store hx
  have hty : Θ.ofLocal x = previous.ty ∧ previous.ty.isValue = true := by
    cases previous <;> first | exact ht.1 x hx | exact he.elim
  exact
    { isExpr := (isExpr_withStore _ _).mpr he
      stores := by
        rw [((isExpr_withStore _ none).mpr he).stores_of_bare ((bare_withStore _ _).mpr hb),
          store_withStore]
        rfl
      typed := he.typed_withStore ht nofun
      ty := by rw [ty_withStore, hty.1]
      isValue := by rw [ty_withStore, hty.2] }

theorem LoadsFirst.defines (h : LoadsFirst x t) (hv : StandsFor Θ x value) :
    (replaceFirstLoad value t).defines = t.defines := by
  induction h with
  | load =>
    rw [replaceFirstLoad, hv.isExpr.defines_withStore hv.stores hv.typed hv.isValue, Tree.defines]
  | operator hf hops _ ih =>
    rw [defines_operator hf, defines_operator (replaceFirstLoad_operator hf hops), hops, definesAll,
      definesAll, ih, store_replaceFirstLoad]
  | seq | ifThen | ifElse | retValue => rfl

/-- The value has the type of the load, so nothing changes around it. -/
theorem LoadsFirst.typed (h : LoadsFirst x t) (hv : StandsFor Θ x value) (ht : t.Typed Θ) :
    (replaceFirstLoad value t).ty = t.ty ∧ (replaceFirstLoad value t).Typed Θ := by
  induction h using LoadsFirst.induction_parts with
  | load tag =>
    have hty : value.ty = tag.ty := hv.ty.trans ht.2.symm
    refine ⟨by rw [replaceFirstLoad, ty_withStore]; exact hty, ?_⟩
    refine hv.isExpr.typed_withStore hv.typed fun y hy => ?_
    rw [hty]
    exact ht.1 y hy
  | first t a rest h _ hparts ih =>
    have hall := ht.parts
    rw [hparts, List.forall_mem_cons] at hall
    obtain ⟨hty, ha⟩ := ih hall.1
    rw [h.replaceFirstLoad_eq hparts]
    refine ⟨by rw [ty, tag_withParts, ty], ht.withParts ?_ (List.forall_mem_cons.mpr ⟨ha, hall.2⟩)⟩
    rw [hparts, List.map_cons, List.map_cons, hty]

theorem LoadsFirst.bare (h : LoadsFirst x t) (hv : value.Bare) (hb : t.Bare) :
    (replaceFirstLoad value t).Bare := by
  induction h using LoadsFirst.induction_parts with
  | load => exact (bare_withStore _ _).mpr hv
  | first t a rest h _ hparts ih =>
    have hall := hb.parts
    rw [hparts, List.forall_mem_cons] at hall
    rw [h.replaceFirstLoad_eq hparts]
    refine hb.withParts ?_ (List.forall_mem_cons.mpr ⟨ih hall.1, hall.2⟩)
    rw [hparts, List.map_cons, List.map_cons, store_replaceFirstLoad]

theorem LoadsFirst.returns (h : LoadsFirst x t) (hv : value.IsExpr) :
    (replaceFirstLoad value t).returns = t.returns := by
  induction h using LoadsFirst.induction_parts with
  | load =>
    rw [replaceFirstLoad, returns_withStore]
    cases value <;> first | rfl | exact hv.elim
  | first t a rest h _ hparts ih =>
    rw [h.replaceFirstLoad_eq hparts, returns_withParts]
    rw [hparts, List.map_cons, List.map_cons, ih]

/-! ### Scoping

The locals that the value loads have been met before, so the value changes nothing for what follows
it.
-/

theorem LoadsFirst.met_subset (h : LoadsFirst x t) (hv : StandsFor Θ x value)
    (hU : ∀ z ∈ value.loads, z ∈ U) :
    withLocals U (replaceFirstLoad value t).mentions ⊆ withLocals U t.mentions := by
  rintro z (hz | hz)
  · exact .inl hz
  · exact (h.mentions hv.stores hz).imp_left (hU z)

theorem LoadsFirst.inOrder_after (h : LoadsFirst x t) (hv : StandsFor Θ x value)
    (hU : ∀ z ∈ value.loads, z ∈ U) {S : Set LocalId → Set LocalId → Tree → Prop} {rest : List Tree}
    (hS : ∀ a ∈ rest, ∀ Γ Γ' U U', (∀ x ∈ a.mentions, x ∈ Γ → x ∈ Γ') →
      (∀ x ∈ a.mentions, x ∈ U' → x ∈ U) → S Γ U a → S Γ' U' a)
    (hrest : InOrder S (withLocals Γ t.defines) (withLocals U t.mentions) rest) :
    InOrder S (withLocals Γ (replaceFirstLoad value t).defines)
      (withLocals U (replaceFirstLoad value t).mentions) rest := by
  rw [h.defines hv]
  exact hrest.mono hS (fun _ _ hz => hz) fun _ _ hz => h.met_subset hv hU hz

theorem LoadsFirst.scopedExpr (h : LoadsFirst x t) (hv : StandsFor Θ x value)
    (hΓ : ∀ z ∈ value.loads, z ∈ Γ) (hU : ∀ z ∈ value.loads, z ∈ U) {again : Bool}
    (ht : t.ScopedExpr again Γ U) : (replaceFirstLoad value t).ScopedExpr again Γ U := by
  induction h generalizing again with
  | load =>
    refine hv.isExpr.scoped_withStore hv.stores hΓ (ht.2.mono (fun _ _ hz => hz) fun z _ hz => ?_)
    exact .inl (hz.elim id (hU z))
  | @operator t f a rest hf hops ha ih =>
    obtain ⟨hin, hst⟩ := (scopedExpr_operator hf).mp ht
    rw [hops] at hin hst
    rw [scopedExpr_operator (replaceFirstLoad_operator hf hops), store_replaceFirstLoad]
    refine ⟨⟨ih hin.1, ?_⟩, hst.mono ?_ ?_⟩
    · exact ha.inOrder_after hv hU (fun a _ _ _ _ _ h₁ h₂ h₃ => h₃.mono h₁ h₂) hin.2
    · rw [definesAll, definesAll, ha.defines hv]
      exact fun _ _ hz => hz
    · rw [mentionsAll_cons, mentionsAll_cons, withLocals_append, withLocals_append]
      exact fun z _ hz => hz.imp_left fun hz => ha.met_subset hv hU hz
  | seq | ifThen | ifElse | retValue => exact ht.elim

theorem LoadsFirst.inScope (h : LoadsFirst x t) (hv : StandsFor Θ x value)
    (hΓ : ∀ z ∈ value.loads, z ∈ Γ) (hU : ∀ z ∈ value.loads, z ∈ U) (ht : t.Scoped Γ U) :
    (replaceFirstLoad value t).Scoped Γ U := by
  induction h with
  | @load tag =>
    exact ((isExpr_withStore _ _).mpr hv.isExpr).scoped_stmt
      (LoadsFirst.scopedExpr (t := .load tag x) .load hv hΓ hU ht)
  | operator hf hops ha _ =>
    rw [scoped_operator hf] at ht
    rw [scoped_operator (replaceFirstLoad_operator hf hops)]
    exact (LoadsFirst.operator hf hops ha).scopedExpr hv hΓ hU ht
  | seq ha ih =>
    obtain ⟨hs, hbody⟩ := scoped_seq.mp ht
    refine scoped_seq.mpr ⟨hs, ih hbody.1, ?_⟩
    exact ha.inOrder_after hv hU (fun a _ _ _ _ _ h₁ h₂ h₃ => h₃.mono h₁ h₂) hbody.2
  | ifThen hc _ =>
    obtain ⟨hs, hc', hy⟩ := ht
    exact ⟨hs, hc.scopedExpr hv hΓ hU hc',
      hy.mono (fun _ _ hz => hz) fun z _ hz => hc.met_subset hv hU hz⟩
  | ifElse hc _ =>
    obtain ⟨hs, hc', hy, hn⟩ := ht
    refine ⟨hs, hc.scopedExpr hv hΓ hU hc',
      hy.mono (fun _ _ hz => hz) fun z _ hz => hc.met_subset hv hU hz,
      hn.mono (fun _ _ hz => hz) fun z _ hz => ?_⟩
    rw [withLocals_append] at hz ⊢
    exact hz.imp_left fun hz => hc.met_subset hv hU hz
  | retValue hv' _ => exact ⟨ht.1, hv'.scopedExpr hv hΓ hU ht.2⟩

end

/-! ## Merges -/

/-- A statement that stores into a local is taken into the next one, where that loads it first. -/
inductive Merge (x : LocalId) : Tree → Tree → Prop
  | here {tag : Tag} {before after : List Tree} {previous statement : Tree}
    (hs : previous.store = some x) (hl : LoadsFirst x statement) :
    Merge x (.seq tag (before ++ previous :: statement :: after))
      (.seq tag (before ++ replaceFirstLoad (previous.withStore none) statement :: after))
  | inside {tag : Tag} {before after : List Tree} {t t' : Tree} (h : Merge x t t') :
    Merge x (.seq tag (before ++ t :: after)) (.seq tag (before ++ t' :: after))
  | thenBranch {tag : Tag} {c y y' : Tree} (h : Merge x y y') :
    Merge x (.ifThen tag c y) (.ifThen tag c y')
  | yesBranch {tag : Tag} {c y y' n : Tree} (h : Merge x y y') :
    Merge x (.ifElse tag c y n) (.ifElse tag c y' n)
  | noBranch {tag : Tag} {c y n n' : Tree} (h : Merge x n n') :
    Merge x (.ifElse tag c y n) (.ifElse tag c y n')
  | body {tag : Tag} {c b b' : Tree} (h : Merge x b b') : Merge x (.loop tag c b) (.loop tag c b')

namespace Merge

variable {t t' : Tree} {x : LocalId} {Γ U : Set LocalId} {Θ : Typing}

/-- Merges happen in statements, which define nothing. -/
theorem defines (h : Merge x t t') : t.defines = [] ∧ t'.defines = [] := by
  cases h <;> exact ⟨rfl, rfl⟩

theorem loads_perm (h : Merge x t t') : t.loads.Perm (x :: t'.loads) := by
  induction h with
  | @here tag before after previous statement hs hl =>
    obtain ⟨rest, hl, hl'⟩ := hl.loads (previous.withStore none)
    simp only [Tree.loads, loadsAll_append, loadsAll, hl, hl', loads_withStore]
    grind
  | inside _ ih =>
    simp only [Tree.loads, loadsAll_append, loadsAll]
    grind
  | thenBranch _ ih | yesBranch _ ih | noBranch _ ih | body _ ih => simp only [Tree.loads]; grind

theorem scoped_of_mem {tag : Tag} {body : List Tree} (h : (Tree.seq tag body).Scoped Γ U)
    (ht : t ∈ body) : ∃ Γ' U', t.Scoped Γ' U' := by
  obtain ⟨Γ', U', -, h⟩ := (scoped_seq.mp h).2.of_mem ht
  exact ⟨Γ', U', h⟩

theorem stores_perm (h : Merge x t t') : t.stores.Perm (x :: t'.stores) := by
  induction h with
  | @here tag before after previous statement hs hl =>
    have hprevious : previous.stores = (previous.withStore none).stores ++ [x] := by
      conv_lhs => rw [← withStore_store hs, stores_withStore_eq]
      rfl
    simp only [Tree.stores, storesAll_append, storesAll, hprevious, hl.stores, withStore_withStore]
    grind
  | inside _ ih =>
    simp only [Tree.stores, storesAll_append, storesAll]
    grind
  | thenBranch _ ih | yesBranch _ ih | noBranch _ ih | body _ ih => simp only [Tree.stores]; grind

theorem mentions_subset (h : Merge x t t') : ∀ z ∈ t'.mentions, z ∈ t.mentions := by
  intro z hz
  rw [mem_mentions] at hz ⊢
  rw [h.loads_perm.mem_iff, h.stores_perm.mem_iff]
  exact hz.imp (List.mem_cons_of_mem _) (List.mem_cons_of_mem _)

theorem bare (h : Merge x t t') (hb : t.Bare) : t'.Bare := by
  induction h with
  | @here tag before after previous statement _ hl =>
    simp only [Bare, allBare_iff, List.forall_mem_append, List.forall_mem_cons] at hb ⊢
    obtain ⟨hbefore, hprevious, hstatement, hafter⟩ := hb
    exact ⟨hbefore, hl.bare ((bare_withStore _ none).mpr hprevious) hstatement, hafter⟩
  | inside _ ih =>
    simp only [Bare, allBare_iff, List.forall_mem_append, List.forall_mem_cons] at hb ⊢
    exact ⟨hb.1, ih hb.2.1, hb.2.2⟩
  | thenBranch _ ih | body _ ih => exact ⟨hb.1, ih hb.2⟩
  | yesBranch _ ih => exact ⟨hb.1, ih hb.2.1, hb.2.2⟩
  | noBranch _ ih => exact ⟨hb.1, hb.2.1, ih hb.2.2⟩

theorem typed (h : Merge x t t') (hs : t.Scoped Γ U) (hb : t.Bare) (ht : t.Typed Θ) :
    t'.Typed Θ := by
  induction h generalizing Γ U with
  | @here tag before after previous statement hstore hl =>
    obtain ⟨Γ', U', hp⟩ := scoped_of_mem hs (t := previous) (by simp)
    have hb := allBare_iff.mp hb previous (by simp)
    simp only [Typed, allTyped_iff, List.forall_mem_append, List.forall_mem_cons] at ht ⊢
    obtain ⟨htag, hbefore, hprevious, hstatement, hafter⟩ := ht
    exact ⟨htag, hbefore, (hl.typed (hp.standsFor hb hprevious hstore) hstatement).2, hafter⟩
  | @inside tag before after t t' _ ih =>
    obtain ⟨Γ', U', ht'⟩ := scoped_of_mem hs (t := t) (by simp)
    have hb := allBare_iff.mp hb t (by simp)
    simp only [Typed, allTyped_iff, List.forall_mem_append, List.forall_mem_cons] at ht ⊢
    exact ⟨ht.1, ht.2.1, ih ht' hb ht.2.2.1, ht.2.2.2⟩
  | thenBranch _ ih | body _ ih => exact ⟨ht.1, ht.2.1, ht.2.2.1, ih hs.2.2 hb.2 ht.2.2.2⟩
  | yesBranch _ ih => exact ⟨ht.1, ht.2.1, ht.2.2.1, ih hs.2.2.1 hb.2.1 ht.2.2.2.1, ht.2.2.2.2⟩
  | noBranch _ ih => exact ⟨ht.1, ht.2.1, ht.2.2.1, ht.2.2.2.1, ih hs.2.2.2 hb.2.2 ht.2.2.2.2⟩

theorem returns (h : Merge x t t') (hs : t.Scoped Γ U) : t'.returns = t.returns := by
  induction h generalizing Γ U with
  | @here tag before after previous statement hstore hl =>
    obtain ⟨Γ', U', hp⟩ := scoped_of_mem hs (t := previous) (by simp)
    have he := hp.isExpr_of_store hstore
    have hprev : previous.returns = false := by cases previous <;> first | rfl | exact he.elim
    rw [Tree.returns, Tree.returns, Bool.eq_iff_iff, anyReturns_iff, anyReturns_iff]
    simp [hprev, hl.returns ((isExpr_withStore _ _).mpr he), or_and_right, exists_or]
  | @inside tag before after t t' _ ih =>
    obtain ⟨Γ', U', ht⟩ := scoped_of_mem hs (t := t) (by simp)
    rw [Tree.returns, Tree.returns, Bool.eq_iff_iff, anyReturns_iff, anyReturns_iff]
    simp [ih ht, or_and_right, exists_or]
  | thenBranch | body => rfl
  | yesBranch _ ih => simp only [Tree.returns, ih hs.2.2.1]
  | noBranch _ ih => simp only [Tree.returns, ih hs.2.2.2]

/-- The local is out of sight after the merge, so it need not be known any more. -/
theorem inScope (h : Merge x t t') (hs : t.Scoped Γ U) (hb : t.Bare) (ht : t.Typed Θ)
    (hx : x ∉ t'.mentions) : t'.Scoped Γ U := by
  induction h generalizing Γ U with
  | @here tag before after previous statement hstore hl =>
    obtain ⟨htag, hs⟩ := scoped_seq.mp hs
    obtain ⟨hbefore, hprevious, hstatement, hafter⟩ := inOrder_append.mp hs
    have hb := allBare_iff.mp hb previous (by simp)
    have ht := allTyped_iff.mp ht.2 previous (by simp)
    have he := hprevious.isExpr_of_store hstore
    have hv := hprevious.standsFor hb ht hstore
    have hprev : previous.stores = [x] := by rw [he.stores_of_bare hb, hstore]; rfl
    simp only [mem_mentions_seq, mentionsAll_append, mentionsAll_cons, List.mem_append,
      not_or] at hx
    obtain ⟨⟨-, hxstatement, hxafter⟩, -⟩ := hx
    have hdef : ∀ z ∈ previous.defines, z = x := fun z hz => by
      simpa [hprev] using stores_of_defines previous hz
    have hloads : ∀ z ∈ (previous.withStore none).loads, z ∈ previous.loads := by simp
    have hΓ := (he.scopedExpr hprevious).loads_of_bare hb
    refine scoped_seq.mpr ⟨htag, inOrder_append.mpr ⟨hbefore, ?_, ?_⟩⟩
    · have hnew := hl.inScope hv (fun z hz => .inl (hΓ z (hloads z hz)))
        (fun z hz => .inr (mem_mentions.mpr (.inl (hloads z hz)))) hstatement
      -- only the merged local is known less than before, and it is not mentioned any more
      refine hnew.mono (fun z hz hknown => hknown.elim id fun hd => ?_) fun z _ hz => .inl hz
      exact absurd (hdef z hd ▸ hz) hxstatement
    · refine hafter.mono (fun a _ _ _ _ _ h₁ h₂ h₃ => h₃.mono h₁ h₂) ?_ ?_
      · rintro z hz ((hknown | hd) | hd)
        · exact .inl hknown
        · exact absurd (hdef z hd ▸ hz) hxafter
        · exact .inr (by rw [hl.defines hv]; exact hd)
      · rintro z hz (hmet | hz')
        · exact .inl (.inl hmet)
        · rcases hl.mentions hv.stores hz' with hz' | hz'
          · exact .inl (.inr (mem_mentions.mpr (.inl (hloads z hz'))))
          · exact .inr hz'
  | @inside tag before after t t' hm ih =>
    obtain ⟨htag, hs⟩ := scoped_seq.mp hs
    obtain ⟨hbefore, hinner, hafter⟩ := inOrder_append.mp hs
    have hb := allBare_iff.mp hb t (by simp)
    have ht := allTyped_iff.mp ht.2 t (by simp)
    simp only [mem_mentions_seq, mentionsAll_append, mentionsAll_cons, List.mem_append,
      not_or] at hx
    refine scoped_seq.mpr ⟨htag, inOrder_append.mpr ⟨hbefore, ih hinner hb ht hx.1.2.1, ?_⟩⟩
    refine hafter.mono (fun a _ _ _ _ _ h₁ h₂ h₃ => h₃.mono h₁ h₂) ?_ ?_
    · rw [hm.defines.1, hm.defines.2]
      exact fun _ _ hz => hz
    · exact fun z _ hz => hz.imp_right (hm.mentions_subset z)
  | thenBranch hm ih =>
    obtain ⟨htag, hc, hy⟩ := hs
    rw [mem_mentions_ifThen, not_or, not_or] at hx
    exact ⟨htag, hc, ih hy hb.2 ht.2.2.2 hx.2.1⟩
  | yesBranch hm ih =>
    obtain ⟨htag, hc, hy, hn⟩ := hs
    rw [mem_mentions_ifElse, not_or, not_or, not_or] at hx
    refine ⟨htag, hc, ih hy hb.2.1 ht.2.2.2.1 hx.2.1, hn.mono (fun _ _ hz => hz) fun z _ hz => ?_⟩
    rw [withLocals_append] at hz ⊢
    exact hz.imp_right (hm.mentions_subset z)
  | noBranch hm ih =>
    obtain ⟨htag, hc, hy, hn⟩ := hs
    rw [mem_mentions_ifElse, not_or, not_or, not_or] at hx
    exact ⟨htag, hc, hy, ih hn hb.2.2 ht.2.2.2.2 hx.2.2.1⟩
  | body hm ih =>
    obtain ⟨htag, hc, hbody⟩ := hs
    rw [mem_mentions_loop, not_or, not_or] at hx
    exact ⟨htag, hc, ih hbody hb.2 ht.2.2.2 hx.2.1⟩

end Merge

/-! ## The removal as a chain of merges -/

/-- A merge of a local that is stored and loaded once according to the table. -/
def MergeStep (p q : Locals × Tree) : Prop :=
  ∃ x l, p.1[x]? = some l ∧ l.isParameter = false ∧ l.assignments = 1 ∧ l.uses = 1 ∧
    Merge x p.2 q.2 ∧ q.1 = forget p.1 x

/-- A merge that is counted. -/
def RemovalStep (p q : Removal × Tree) : Prop :=
  MergeStep (p.1.locals, p.2) (q.1.locals, q.2) ∧ q.1.removed = p.1.removed + 1

open Relation (ReflTransGen)

theorem removals_lift {context : Tree → Tree}
    (hc : ∀ x t t', Merge x t t' → Merge x (context t) (context t')) {p q : Removal × Tree}
    (h : ReflTransGen RemovalStep p q) :
    ReflTransGen RemovalStep (p.1, context p.2) (q.1, context q.2) := by
  refine h.lift (fun p => (p.1, context p.2)) fun a b hab => ?_
  obtain ⟨⟨x, l, hl, hp, ha, hu, hm, heq⟩, hcount⟩ := hab
  exact ⟨⟨x, l, hl, hp, ha, hu, hc x _ _ hm, heq⟩, hcount⟩

theorem singleUse?_eq_some {locals : Locals} {t : Tree} {x : LocalId} :
    singleUse? locals t = some x ↔ t.store = some x ∧
      ∃ l, locals[x]? = some l ∧ l.isParameter = false ∧ l.assignments = 1 ∧ l.uses = 1 := by
  rw [singleUse?, Option.filter_eq_some_iff]
  cases locals[x]? <;> simp [and_assoc]

theorem removals_absorb (tag : Tag) (after before : List Tree) (state : Removal)
    (statement : Tree) :
    ReflTransGen RemovalStep (state, .seq tag ((statement :: before).reverse ++ after))
      ((absorb state statement before).2,
        .seq tag ((absorb state statement before).1.reverse ++ after)) := by
  induction before generalizing state statement with
  | nil => exact .refl
  | cons previous earlier ih =>
    rw [absorb]
    cases hx : singleUse? state.locals previous with
    | none => exact .refl
    | some x =>
      dsimp only
      split
      · next hfirst =>
        obtain ⟨hs, l, hl, hp, ha, hu⟩ := singleUse?_eq_some.mp hx
        refine .head ⟨⟨x, l, hl, hp, ha, hu, ?_, rfl⟩, rfl⟩ (ih _ _)
        have hm := @Merge.here x tag earlier.reverse after _ _ hs (loadsFirst_of_firstLoad? hfirst)
        simpa using hm
      · exact .refl

mutual

theorem removals_removeSingleUses : ∀ (t : Tree) (state : Removal),
    ReflTransGen RemovalStep (state, t) ((removeSingleUses state t).2, (removeSingleUses state t).1)
  | .seq tag body, state => by
    rw [removeSingleUses]
    exact removals_removeInSequence tag body state []
  | .ifThen tag c y, state => by
    rw [removeSingleUses]
    exact removals_lift (fun _ _ _ => .thenBranch) (removals_removeSingleUses y state)
  | .ifElse tag c y n, state => by
    rw [removeSingleUses]
    exact (removals_lift (fun _ _ _ => .yesBranch) (removals_removeSingleUses y state)).trans
      (removals_lift (fun _ _ _ => .noBranch) (removals_removeSingleUses n _))
  | .loop tag c b, state => by
    rw [removeSingleUses]
    exact removals_lift (fun _ _ _ => .body) (removals_removeSingleUses b state)
  | .const _ _, _ | .load _ _, _ | .call _ _ _, _ | .binary _ _ _ _, _ | .unary _ _ _, _
  | .ret _, _ | .retValue _ _, _ | .print _ _, _ | .failFast _, _ | .toReal _ _, _ => by
    rw [removeSingleUses]

theorem removals_removeInSequence (tag : Tag) : ∀ (rest : List Tree) (state : Removal)
    (done : List Tree), ReflTransGen RemovalStep (state, .seq tag (done.reverse ++ rest))
      ((removeInSequence state done rest).2, .seq tag (removeInSequence state done rest).1)
  | [], state, done => by
    rw [removeInSequence, List.append_nil]
  | t :: rest, state, done => by
    rw [removeInSequence]
    refine (removals_lift (fun _ _ _ => .inside) (removals_removeSingleUses t state)).trans ?_
    have h :=
      removals_absorb tag rest done (removeSingleUses state t).2 (removeSingleUses state t).1
    rw [List.reverse_cons, List.append_assoc] at h
    exact h.trans (removals_removeInSequence tag rest _ _)

end

theorem merges_removeSingleUses (t : Tree) (state : Removal) :
    ReflTransGen MergeStep (state.locals, t)
    ((removeSingleUses state t).2.locals, (removeSingleUses state t).1) :=
  (removals_removeSingleUses t state).lift (fun p => (p.1.locals, p.2)) fun _ _ h => h.1

/-! ## Counts -/

/-- The table counts the nodes that load a local and the nodes that have it as their store. -/
structure Counted (t : Tree) (locals : Locals) : Prop where
  uses : ∀ x l, locals[x]? = some l → l.uses = t.loads.count x
  assignments : ∀ x l, locals[x]? = some l → l.assignments = t.stores.count x

section

variable {t t' : Tree} {locals : Locals} {x : LocalId} {l : Local}

theorem counted_iff : t.Counted locals ↔ ∀ x : Fin locals.size,
    locals[x].uses = t.loads.count x.val ∧ locals[x].assignments = t.stores.count x.val := by
  constructor
  · intro h x
    have hx : locals[x.val]? = some locals[x] := Array.getElem?_eq_getElem x.isLt
    exact ⟨h.uses x _ hx, h.assignments x _ hx⟩
  · intro h
    refine ⟨fun x l hl => ?_, fun x l hl => ?_⟩ <;>
      obtain ⟨hx, rfl⟩ := Array.getElem?_eq_some_iff.mp hl
    · exact (h ⟨x, hx⟩).1
    · exact (h ⟨x, hx⟩).2

instance : Decidable (t.Counted locals) := decidable_of_iff _ counted_iff.symm

/-- The counts of the table are those of the tree, also for locals that are not in it. -/
theorem Counted.counts_eq (h : t.Counted locals) (hin : ∀ x ∈ t.mentions, x < locals.size)
    (x : LocalId) :
    usesOf locals x = t.loads.count x ∧ assignmentsOf locals x = t.stores.count x := by
  unfold usesOf assignmentsOf
  cases hl : locals[x]? with
  | some l => exact ⟨h.uses x l hl, h.assignments x l hl⟩
  | none =>
    have hx : x ∉ t.mentions := fun hx =>
      absurd (hin x hx) (Array.getElem?_eq_none_iff.mp hl).not_gt
    rw [mem_mentions, not_or] at hx
    exact ⟨(List.count_eq_zero.mpr hx.1).symm, (List.count_eq_zero.mpr hx.2).symm⟩

theorem Counted.not_mentioned (h : t.Counted locals) (hm : Merge x t t') (hl : locals[x]? = some l)
    (ha : l.assignments = 1) (hu : l.uses = 1) : x ∉ t'.mentions := by
  have huses := h.uses x l hl
  have hassign := h.assignments x l hl
  rw [hu, hm.loads_perm.count_eq, List.count_cons_self] at huses
  rw [ha, hm.stores_perm.count_eq, List.count_cons_self] at hassign
  rw [mem_mentions, ← List.count_pos_iff, ← List.count_pos_iff]
  omega

theorem Counted.not_mentioned_of_isDead (h : t.Counted locals) (hl : locals[x]? = some l)
    (hd : l.isDead = true) : x ∉ t.mentions := by
  obtain ⟨ha, hu⟩ : l.assignments = 0 ∧ l.uses = 0 := by simpa [Local.isDead] using hd
  have huses := h.uses x l hl
  have hassign := h.assignments x l hl
  rw [mem_mentions, ← List.count_pos_iff, ← List.count_pos_iff]
  omega

theorem getElem?_forget (locals : Locals) (x y : LocalId) : (forget locals x)[y]? =
    if x = y then locals[y]?.map fun l =>
      { l with assignments := l.assignments - 1, uses := l.uses - 1 } else locals[y]? := by
  rw [forget, Array.getElem?_modify]

theorem declared_forget (locals : Locals) (x y : LocalId) :
    declared (forget locals x) y = declared locals y :=
  declared_modify fun _ => rfl

/-- A merge takes one load and one store, and the table forgets one of each. -/
theorem Counted.merge (h : t.Counted locals) (hm : Merge x t t') :
    t'.Counted (forget locals x) := by
  have hentry : ∀ y l, (forget locals x)[y]? = some l →
      ∃ l₀, locals[y]? = some l₀ ∧ l.uses = l₀.uses - (if x = y then 1 else 0) ∧
        l.assignments = l₀.assignments - (if x = y then 1 else 0) := by
    intro y l hl
    rw [getElem?_forget] at hl
    by_cases hxy : x = y
    · rw [if_pos hxy, Option.map_eq_some_iff] at hl
      obtain ⟨l₀, hl₀, rfl⟩ := hl
      simp [hl₀, hxy]
    · rw [if_neg hxy] at hl
      exact ⟨l, hl, by simp [hxy], by simp [hxy]⟩
  constructor
  · intro y l hl
    obtain ⟨l₀, hl₀, huses, -⟩ := hentry y l hl
    rw [huses, h.uses y l₀ hl₀, hm.loads_perm.count_eq, List.count_cons]
    simp
  · intro y l hl
    obtain ⟨l₀, hl₀, -, hassign⟩ := hentry y l hl
    rw [hassign, h.assignments y l₀ hl₀, hm.stores_perm.count_eq, List.count_cons]
    simp

end

end Tree

/-! ## Routines -/

namespace Routine

variable {symbols : Symbols} {r : Routine} {locals : Locals} {body : Tree}

theorem Built.counted (h : r.Built symbols) : r.body.Counted r.locals where
  uses := fun x l hl => by simpa [usesOf, hl] using h.uses x
  assignments := fun x l hl => by simpa [assignmentsOf, hl] using h.assignments x

/-- A built routine stays one when a local that is stored and loaded once is merged away. -/
theorem Built.merge (h : r.Built symbols) (hm : Tree.MergeStep (r.locals, r.body) (locals, body)) :
    Built symbols { r with locals, body } := by
  obtain ⟨x, l, hl, -, ha, hu, hm, rfl⟩ := hm
  dsimp only at hl hm
  have hdecl := Tree.declared_forget r.locals x
  have hx := h.counted.not_mentioned hm hl ha hu
  have hcounted := h.counted.merge hm
  have hsize : (Tree.forget r.locals x).size = r.locals.size := by simp [Tree.forget]
  have hresult : Routine.result { r with locals := Tree.forget r.locals x, body } = r.result :=
    result_eq_of_declared (p := false) (by rw [hdecl]; exact h.result)
  have hparams : Routine.parameters { r with locals := Tree.forget r.locals x, body } =
      r.parameters := by
    ext z
    rw [mem_parameters, mem_parameters]
    simp only [hdecl]
  have ht := h.typed _ (r.fits_typing symbols) rfl
  have hin : ∀ z ∈ body.mentions, z < (Tree.forget r.locals x).size := fun z hz => by
    rw [hsize]
    exact h.inTable z (hm.mentions_subset z hz)
  refine
    { inScope := by rw [hparams]; exact hm.inScope h.inScope h.bare ht hx
      inTable := hin
      result := by rw [hresult, hdecl]; exact h.result
      params := by rw [hparams]; exact h.params
      paramCount_lt := by rw [hsize]; exact h.paramCount_lt
      uses := fun x => (hcounted.counts_eq hin x).1
      assignments := fun x => (hcounted.counts_eq hin x).2
      bare := hm.bare h.bare
      returns := by rw [hm.returns h.inScope]; exact h.returns
      typed := fun Θ hΘ hres => ?_ }
  · refine hm.typed h.inScope h.bare (h.typed Θ (hΘ.of_declared fun z _ => hdecl z) ?_)
    rw [hres, hresult]

open Relation (ReflTransGen) in
theorem Built.merges (h : r.Built symbols) {p : Locals × Tree}
    (hm : ReflTransGen Tree.MergeStep (r.locals, r.body) p) :
    Built symbols { r with locals := p.1, body := p.2 } := by
  induction hm with
  | refl => exact h
  | tail _ hstep ih => exact ih.merge hstep

/-- A built routine stays one when its single uses are removed. -/
theorem Built.removeSingleUses (h : r.Built symbols) : r.removeSingleUses.1.Built symbols :=
  h.merges (Tree.merges_removeSingleUses r.body { locals := r.locals })

/-- What types the tree of a built routine types it without its single uses. -/
theorem Built.typed_removeSingleUses {Θ : Typing} (h : r.Built symbols) (ht : r.body.Typed Θ) :
    r.removeSingleUses.1.body.Typed Θ := by
  have hmerges := Tree.merges_removeSingleUses r.body { locals := r.locals }
  have hkept : ∀ {p : Locals × Tree}, Relation.ReflTransGen Tree.MergeStep (r.locals, r.body) p →
      p.2.Typed Θ := by
    intro p hm
    induction hm with
    | refl => exact ht
    | tail hchain hstep ih =>
      obtain ⟨x, l, -, -, -, -, hm, -⟩ := hstep
      exact hm.typed (h.merges hchain).inScope (h.merges hchain).bare ih
  exact hkept hmerges

end Routine

end Codewright
