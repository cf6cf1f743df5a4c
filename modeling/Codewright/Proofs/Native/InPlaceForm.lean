import Codewright.Native.InPlace
import Codewright.Proofs.Parts
import Codewright.Proofs.SingleUse

/-!
# What the in-place form is

After the rewriting every operand is stored and no operator on reals has an integer operand,
whatever the tree was (`inPlaceForm_node`); such a tree is left as it is. The rewriting adds a store
into each new local, in the order of their numbers, and puts conversions above some operands;
without these the tree is the one from before (`Erases`). So it loads what it has loaded, and each
temporary is the store of one more node (`Keeps`).
-/

namespace Codewright.Native

/-- Whether the operands of a node are made reals. -/
def promotes : Tree → Bool
  | .binary tag _ _ _ => tag.ty == .real
  | _ => false

/-- If the node is an operator its operands are stored, and if it is one on reals none of them is an
integer. -/
def Ready (u : Tree) : Prop :=
  u.operator?.isSome = true →
    ∀ a ∈ u.parts, a.store.isSome = true ∧ (promotes u = true → a.ty ≠ .int)

/-- Every node of a tree has its operands in place. -/
def InPlaceForm (t : Tree) : Prop := ∀ u ∈ t.nodes, Ready u

namespace Temporaries

variable {s : Temporaries} {t : Tree} {ts : List Tree} {real : Bool}

/-! ## Nodes -/

/-- How the parts of a node are kept: those of an operator are stored, and made reals where the
operator is one on reals. -/
def keeping (t : Tree) : Option Bool := if t.operator?.isSome then some (promotes t) else none

/-- The in-place form of a part of a node. -/
def part (kept : Option Bool) (s : Temporaries) (t : Tree) : Tree × Temporaries :=
  match kept with
  | none => s.node t
  | some real => (s.node t).2.keepAs real (s.node t).1

def partAll (kept : Option Bool) (s : Temporaries) : List Tree → List Tree × Temporaries
  | [] => ([], s)
  | t :: rest =>
    let (t, s) := s.part kept t
    let (ts, s) := partAll kept s rest
    (t :: ts, s)

section

variable (s t)

theorem keepAs_false : s.keepAs false t = s.keep t := by
  simp [keepAs]

theorem operands_eq (done ts : List Tree) : s.operands done ts =
    (done.reverse ++ (partAll (some false) s ts).1, (partAll (some false) s ts).2) := by
  induction ts generalizing s done with
  | nil => simp [operands, partAll]
  | cons t rest ih =>
    simp only [operands, partAll, part, keepAs_false]
    rw [ih]
    simp

theorem nodes_eq (done ts : List Tree) :
    s.nodes done ts = (done.reverse ++ (partAll none s ts).1, (partAll none s ts).2) := by
  induction ts generalizing s done with
  | nil => simp [nodes, partAll]
  | cons t rest ih =>
    simp only [nodes, partAll, part]
    rw [ih]
    simp

theorem node_operator {t : Tree} {f : Operator} (h : t.operator? = some f) (s : Temporaries) :
    (s.node t).1.operator? =
        some { f with operands := (partAll (some (promotes t)) s f.operands).1 } ∧
      (s.node t).1.tag = t.tag ∧ (s.node t).2 = (partAll (some (promotes t)) s f.operands).2 := by
  cases t <;> cases h <;>
    simp [node, promotes, partAll, part, operands_eq, keepAs_false, Tree.operator?, Tree.tag]

theorem node_seq (tag : Tag) (body : List Tree) :
    s.node (.seq tag body) = (.seq tag (partAll none s body).1, (partAll none s body).2) := by
  simp [node, nodes_eq]

/-- The in-place form of a node is the same node on its parts in the in-place form. -/
theorem node_eq : s.node t =
    (t.withParts (s.partAll (keeping t) t.parts).1, (s.partAll (keeping t) t.parts).2) := by
  cases t <;> simp [node, keeping, promotes, partAll, part, operands_eq, nodes_eq, keepAs_false,
    Tree.operator?, Tree.parts, Tree.withParts]

theorem parts_node :
    (s.node t).1.parts = (s.partAll (keeping t) t.parts).1 ∧ keeping (s.node t).1 = keeping t := by
  cases t <;> simp [node, keeping, promotes, partAll, part, operands_eq, nodes_eq, keepAs_false,
    Tree.operator?, Tree.parts]

theorem tag_node : (s.node t).1.tag = t.tag := by
  cases t <;> simp [node, Tree.tag]

theorem ty_node : (s.node t).1.ty = t.ty := by
  rw [Tree.ty, tag_node, Tree.ty]

/-! ## Operands -/

theorem store_keep : (s.keep t).1.store.isSome = true := by
  unfold keep
  cases hs : t.store with
  | some x => simp [hs]
  | none => rw [Tree.store_withStore]; rfl

theorem ty_keep : (s.keep t).1.ty = t.ty := by
  unfold keep
  cases t.store with
  | some x => rfl
  | none => exact Tree.ty_withStore ..

/-- A kept operand is stored, and it is no integer if it was to be made a real. -/
theorem ready_keepAs (real : Bool) :
    (s.keepAs real t).1.store.isSome = true ∧ (real = true → (s.keepAs real t).1.ty ≠ .int) := by
  unfold keepAs
  dsimp only
  split
  · refine ⟨store_keep _ _, fun _ => ?_⟩
    rw [ty_keep]
    exact Ty.noConfusion
  · next hreal =>
    refine ⟨store_keep _ _, fun h hint => hreal ?_⟩
    rw [ty_keep] at hint
    simp [h, hint]

end

theorem keepAs_of_ready (h : t.store.isSome = true) (hint : real = true → t.ty ≠ .int)
    (s : Temporaries) : s.keepAs real t = (t, s) := by
  obtain ⟨x, hx⟩ := Option.isSome_iff_exists.mp h
  simp only [keepAs, keep, hx]
  rw [if_neg]
  rw [Bool.and_eq_true, beq_iff_eq]
  exact fun hreal => hint hreal.1 hreal.2

theorem forall_partAll {kept : Option Bool} {P : Tree → Prop}
    (h : ∀ t ∈ ts, ∀ s : Temporaries, P (s.part kept t).1) (s : Temporaries) :
    ∀ a ∈ (s.partAll kept ts).1, P a := by
  induction ts generalizing s with
  | nil => simp [partAll]
  | cons t rest ih =>
    refine List.forall_mem_cons.mpr ⟨h t List.mem_cons_self s, ?_⟩
    exact ih (fun t ht => h t (List.mem_cons_of_mem _ ht)) _

/-! ## Every node -/

section

variable {Q : Tree → Prop} (stored : ∀ u x, Q u → Q (u.withStore (some x)))

include stored

theorem forall_nodes_keep (h : ∀ u ∈ t.nodes, Q u) (s : Temporaries) :
    ∀ u ∈ (s.keep t).1.nodes, Q u := by
  unfold keep
  cases t.store with
  | some x => exact h
  | none =>
    obtain ⟨hroot, hparts⟩ := Tree.forall_nodes_iff.mp h
    rw [Tree.forall_nodes_iff, Tree.parts_withStore]
    exact ⟨stored _ _ hroot, hparts⟩

/-- What holds of the rewritten nodes of a tree and of the conversions, and does not depend on where
they store, holds of every node of the in-place form. -/
theorem forall_nodes_node (rewritten : ∀ u ∈ t.nodes, ∀ s : Temporaries, Q (s.node u).1)
    (conversion : ∀ u ∈ t.nodes, u.ty = .int → ∀ s : Temporaries,
      Q (.toReal { ty := .real } ((s.node u).2.keep (s.node u).1).1)) (s : Temporaries) :
    ∀ u ∈ (s.node t).1.nodes, Q u := by
  induction t using Tree.induction_parts generalizing s with
  | h t ih =>
    have hparts : ∀ p ∈ t.parts, ∀ s : Temporaries, ∀ u ∈ (s.node p).1.nodes, Q u := fun p hp =>
      ih p hp (fun u hu => rewritten u (Tree.mem_nodes_of_parts hp hu))
        fun u hu => conversion u (Tree.mem_nodes_of_parts hp hu)
    rw [Tree.forall_nodes_iff, (s.parts_node t).1]
    refine ⟨rewritten t t.self_mem_nodes s, forall_partAll (fun p hp s => ?_) s⟩
    -- an operator keeps its operands in locals, a statement is rewritten in its parts only
    cases keeping t with
    | none => exact hparts p hp s
    | some real =>
      have hkept := forall_nodes_keep stored (hparts p hp s) (s.node p).2
      unfold part keepAs
      dsimp only
      split
      · next hreal =>
        refine forall_nodes_keep stored (Tree.forall_nodes_iff.mpr ⟨?_, ?_⟩) _
        · rw [ty_node, Bool.and_eq_true, beq_iff_eq] at hreal
          exact conversion p (Tree.mem_nodes_of_parts hp p.self_mem_nodes) hreal.2 s
        · exact List.forall_mem_singleton.mpr hkept
      · exact hkept

end

end Temporaries

section

variable {t : Tree} {ts : List Tree} {s : Temporaries}

theorem ready_withStore (store : Option LocalId) : Ready (t.withStore store) ↔ Ready t := by
  unfold Ready
  rw [Tree.operator?_withStore, Tree.parts_withStore]
  cases t <;> exact Iff.rfl

theorem ready_node (t : Tree) (s : Temporaries) : Ready (s.node t).1 := by
  obtain ⟨hparts, hkeeping⟩ := s.parts_node t
  intro hop
  rw [hparts, ← hkeeping, Temporaries.keeping, if_pos hop]
  exact Temporaries.forall_partAll (fun _ _ _ => Temporaries.ready_keepAs ..) s

theorem inPlaceForm_node (t : Tree) (s : Temporaries) : InPlaceForm (s.node t).1 := by
  refine Temporaries.forall_nodes_node (fun _ _ => (ready_withStore _).mpr)
    (fun u _ => ready_node u) (fun u _ _ s _ a ha => ?_) s
  rw [List.mem_singleton.mp ha]
  exact ⟨Temporaries.store_keep _ _, fun h => absurd h Bool.false_ne_true⟩

/-! ## What is in place stays -/

theorem partAll_of_same {kept : Option Bool}
    (h : ∀ t ∈ ts, ∀ s : Temporaries, s.part kept t = (t, s)) (s : Temporaries) :
    s.partAll kept ts = (ts, s) := by
  induction ts with
  | nil => rfl
  | cons t rest ih =>
    have hrest := ih fun t ht => h t (List.mem_cons_of_mem _ ht)
    simp only [Temporaries.partAll, h t List.mem_cons_self, hrest]

theorem InPlaceForm.node_eq (h : InPlaceForm t) (s : Temporaries) : s.node t = (t, s) := by
  induction t using Tree.induction_parts generalizing s with
  | h t ih =>
    obtain ⟨hready, hparts⟩ := Tree.forall_nodes_iff.mp h
    rw [s.node_eq, partAll_of_same fun p hp s => ?_, Tree.withParts_parts]
    unfold Temporaries.keeping
    split
    · next hop =>
      obtain ⟨hstored, hint⟩ := hready hop p hp
      rw [Temporaries.part, ih p hp (hparts p hp), Temporaries.keepAs_of_ready hstored hint]
    · exact ih p hp (hparts p hp) s

end

/-! ## What is added -/

mutual

/-- The first tree, without its stores into the locals of the list and without conversions that
store into them, is the second one. The list has the locals in the order of the evaluation. -/
inductive Erases : Tree → List LocalId → Tree → Prop
  | node {t : Tree} {us : List Tree} {added : List LocalId} (parts : ErasesAll us added t.parts) :
    Erases (t.withParts us) added t
  | store {t u : Tree} {added : List LocalId} {x : LocalId} (value : Erases u added t)
    (bare : u.store = none) : Erases (u.withStore (some x)) (added ++ [x]) t
  | conversion {t u : Tree} {added : List LocalId} {x : LocalId} (operand : Erases u added t) :
    Erases (.toReal { ty := .real, store := some x } u) (added ++ [x]) t

inductive ErasesAll : List Tree → List LocalId → List Tree → Prop
  | nil : ErasesAll [] [] []
  | cons {t u : Tree} {ts us : List Tree} {added more : List LocalId} (first : Erases u added t)
    (rest : ErasesAll us more ts) : ErasesAll (u :: us) (added ++ more) (t :: ts)

end

/-- Trees with stores added to them: the same loads, and one more store for each local that is
added. -/
structure Keeps (us : List Tree) (added : List LocalId) (ts : List Tree) : Prop where
  length : us.length = ts.length
  loads : Tree.loadsAll us = Tree.loadsAll ts
  stores : ∀ x, (Tree.storesAll us).count x = (Tree.storesAll ts).count x + added.count x
  defines : ∀ x ∈ Tree.definesAll ts, x ∈ Tree.definesAll us

/-- More temporaries: what the table had stays. -/
structure Temporaries.Grown (s s' : Temporaries) : Prop where
  count_le : s.count ≤ s'.count
  size : s'.locals.size + s.count = s.locals.size + s'.count
  kept : ∀ x : Nat, x < s.locals.size → s'.locals[x]? = s.locals[x]?

/-- The locals that are new. -/
def Temporaries.since (s s' : Temporaries) : List LocalId :=
  List.range' s.locals.size (s'.locals.size - s.locals.size)

def temporary (n : Nat) (ty : Ty) : Local :=
  { name := "$t" ++ toString n, ty, assignments := 1, uses := 1 }

/-- Each new local is a temporary, of the type of a node among these that stores into it. -/
def Enrolled (s s' : Temporaries) (nodes : List Tree) : Prop :=
  ∀ x : Nat, s.locals.size ≤ x → x < s'.locals.size → ∃ u ∈ nodes, u.store = some x ∧
    s'.locals[x]? = some (temporary (s.count + (x - s.locals.size)) u.ty)

/-- A tree and what has become of it: more temporaries, a store into each of them, and else the
same. -/
structure Dressed (s : Temporaries) (t u : Tree) (s' : Temporaries) : Prop where
  grown : s.Grown s'
  erases : Erases u (s.since s') t
  enrolled : Enrolled s s' u.nodes

structure DressedAll (s : Temporaries) (ts us : List Tree) (s' : Temporaries) : Prop where
  grown : s.Grown s'
  erases : ErasesAll us (s.since s') ts
  enrolled : Enrolled s s' (us.flatMap Tree.nodes)

section

variable {s s' s₁ : Temporaries} {t u u' : Tree} {ts us vs ws : List Tree}

theorem Keeps.cons {added more : List LocalId} (h : Keeps [u] added [t]) (hs : Keeps us more ts) :
    Keeps (u :: us) (added ++ more) (t :: ts) where
  length := congrArg (· + 1) hs.length
  loads := by
    have := h.loads
    simp only [Tree.loadsAll, List.append_nil] at this ⊢
    rw [this, hs.loads]
  stores := by
    intro x
    have := h.stores x
    simp only [Tree.storesAll, List.append_nil, List.count_append] at this ⊢
    rw [this, hs.stores]
    omega
  defines := by
    intro x hx
    have := h.defines x
    simp only [Tree.definesAll, List.append_nil, List.mem_append] at this hx ⊢
    exact hx.imp this (hs.defines x)

theorem Keeps.node {added : List LocalId} (h : Keeps us added t.parts) :
    Keeps [t.withParts us] added [t] where
  length := rfl
  loads := by
    have := h.loads
    fun_cases Tree.withParts t us <;> simp_all [Tree.loads, Tree.loadsAll, Tree.parts]
  stores := by
    intro x
    have := h.stores x
    simp only [Tree.storesAll, List.append_nil, (t.withParts us).stores_eq, t.stores_eq,
      Tree.parts_withParts h.length, Tree.store_withParts, ← Tree.storesAll_eq, List.count_append]
    omega
  defines := by
    intro x hx
    have := h.defines x
    fun_cases Tree.withParts t us <;> simp_all [Tree.defines, Tree.definesAll, Tree.parts] <;> tauto

theorem mem_defines_withStore (h : t.store = none) (store : Option LocalId) {x : LocalId}
    (hx : x ∈ t.defines) : x ∈ (t.withStore store).defines := by
  cases t <;> simp_all [Tree.withStore, Tree.withTag, Tree.defines, Tree.store, Tree.tag]
  tauto

theorem Keeps.store {added : List LocalId} (h : Keeps [u] added [t]) (bare : u.store = none)
    (x : LocalId) : Keeps [u.withStore (some x)] (added ++ [x]) [t] where
  length := rfl
  loads := by simpa [Tree.loadsAll] using h.loads
  stores := by
    intro y
    have hy := h.stores y
    simp only [Tree.storesAll, List.append_nil, u.stores_withStore_eq (some x),
      Tree.withStore_store bare, List.count_append, Option.toList_some] at hy ⊢
    omega
  defines := by
    intro y hy
    have hu := h.defines y hy
    rw [Tree.definesAll, Tree.definesAll, List.append_nil] at hu ⊢
    exact mem_defines_withStore bare _ hu

theorem Keeps.toReal {added : List LocalId} (h : Keeps [u] added [t]) :
    Keeps [.toReal { ty := .real } u] added [t] where
  length := rfl
  loads := by simpa [Tree.loadsAll, Tree.loads] using h.loads
  stores := by simpa [Tree.storesAll, Tree.stores] using h.stores
  defines := by simpa [Tree.definesAll, Tree.defines] using h.defines

mutual

theorem Erases.keeps {u t : Tree} {added : List LocalId} : Erases u added t → Keeps [u] added [t]
  | .node parts => parts.keeps.node
  | .store value bare => value.keeps.store bare _
  | .conversion operand => Keeps.store (u := .toReal { ty := .real } _) operand.keeps.toReal rfl _

theorem ErasesAll.keeps {us ts : List Tree} {added : List LocalId} :
    ErasesAll us added ts → Keeps us added ts
  | .nil => ⟨rfl, rfl, by simp, by simp⟩
  | .cons first rest => first.keeps.cons rest.keeps

end

theorem Temporaries.Grown.refl (s : Temporaries) : s.Grown s where
  count_le := le_refl _
  size := rfl
  kept := fun _ _ => rfl

theorem Temporaries.Grown.size_le (h : s.Grown s') : s.locals.size ≤ s'.locals.size := by
  have := h.size
  have := h.count_le
  omega

theorem Temporaries.Grown.trans (h : s.Grown s₁) (h' : s₁.Grown s') : s.Grown s' where
  count_le := Nat.le_trans h.count_le h'.count_le
  size := by
    have := h.size
    have := h'.size
    omega
  kept := fun x hx => by rw [h'.kept x (Nat.lt_of_lt_of_le hx h.size_le), h.kept x hx]

theorem Temporaries.Grown.push (s : Temporaries) (l : Local) :
    s.Grown { locals := s.locals.push l, count := s.count + 1 } where
  count_le := Nat.le_succ _
  size := by simp only [Array.size_push]; omega
  kept := fun x hx => by rw [Array.getElem?_push_lt hx, Array.getElem?_eq_getElem hx]

theorem Temporaries.since_append (h : s.Grown s₁) (h' : s₁.Grown s') :
    s.since s₁ ++ s₁.since s' = s.since s' := by
  have hle := h.size_le
  have hle' := h'.size_le
  unfold since
  rw [show s'.locals.size - s.locals.size =
    (s₁.locals.size - s.locals.size) + (s'.locals.size - s₁.locals.size) by
      omega, ← List.range'_append_1]
  congr 2
  omega

theorem Enrolled.same (s : Temporaries) (vs : List Tree) : Enrolled s s vs :=
  fun _ hle hlt => absurd hle (Nat.not_le.mpr hlt)

theorem Enrolled.trans (h : Enrolled s s₁ vs) (h' : Enrolled s₁ s' ws) (hg : s.Grown s₁)
    (hg' : s₁.Grown s') (hvs : ∀ v ∈ vs, v.store.isSome = true → v ∈ ws) : Enrolled s s' ws := by
  intro x hle hlt
  have hsize := hg.size
  have hcount := hg.count_le
  -- the numbers of temporaries go up with the size of the table, so they do not depend on where one
  -- starts
  by_cases hx : x < s₁.locals.size
  · obtain ⟨u, hu, hstore, hentry⟩ := h x hle hx
    refine ⟨u, hvs u hu (by rw [hstore]; rfl), hstore, ?_⟩
    rw [hg'.kept x hx, hentry]
  · obtain ⟨u, hu, hstore, hentry⟩ := h' x (Nat.le_of_not_lt hx) hlt
    refine ⟨u, hu, hstore, ?_⟩
    rw [hentry, show s₁.count + (x - s₁.locals.size) = s.count + (x - s.locals.size) by omega]

theorem Dressed.push (h : Dressed s t u s₁) (herases : Erases u' (s.since s₁ ++ [s₁.locals.size]) t)
    (hstore : u'.store = some s₁.locals.size)
    (hnodes : ∀ v ∈ u.nodes, v.store.isSome = true → v ∈ u'.nodes) :
    Dressed s t u'
      { locals := s₁.locals.push (temporary s₁.count u'.ty), count := s₁.count + 1 } := by
  have hgrown := Temporaries.Grown.push s₁ (temporary s₁.count u'.ty)
  refine ⟨h.grown.trans hgrown, ?_, h.enrolled.trans ?_ h.grown hgrown hnodes⟩
  · rw [← Temporaries.since_append h.grown hgrown]
    simpa [Temporaries.since] using herases
  · intro x hle hlt
    obtain rfl : x = s₁.locals.size := by
      rw [Array.size_push] at hlt
      omega
    refine ⟨u', ?_, hstore, by simp⟩
    rw [Tree.nodes_eq]
    exact List.mem_cons_self

theorem Dressed.keep (h : Dressed s t u s₁) : Dressed s t (s₁.keep u).1 (s₁.keep u).2 := by
  unfold Temporaries.keep
  cases hs : u.store with
  | some x => exact h
  | none =>
    dsimp only
    rw [← u.ty_withStore (some s₁.locals.size)]
    refine h.push (h.erases.store hs) (Tree.store_withStore ..) fun v hv hstored => ?_
    -- only the node itself changes, and it had no store that could get lost
    rw [Tree.nodes_eq, List.mem_cons] at hv
    rcases hv with rfl | hv
    · rw [hs] at hstored
      cases hstored
    · rw [Tree.nodes_eq, Tree.parts_withStore]
      exact List.mem_cons_of_mem _ hv

theorem Dressed.keepAs (h : Dressed s t u s₁) (real : Bool) :
    Dressed s t (s₁.keepAs real u).1 (s₁.keepAs real u).2 := by
  have hkept := h.keep
  unfold Temporaries.keepAs
  dsimp only
  split
  · exact hkept.push hkept.erases.conversion rfl fun v hv _ => List.mem_cons_of_mem _ hv
  · exact hkept

theorem DressedAll.nil (s : Temporaries) : DressedAll s [] [] s where
  grown := .refl s
  erases := by
    rw [Temporaries.since, Nat.sub_self]
    exact .nil
  enrolled := .same s _

theorem DressedAll.cons (h : Dressed s t u s₁) (hs : DressedAll s₁ ts us s') :
    DressedAll s (t :: ts) (u :: us) s' where
  grown := h.grown.trans hs.grown
  erases := by
    rw [← Temporaries.since_append h.grown hs.grown]
    exact .cons h.erases hs.erases
  enrolled := by
    rw [List.flatMap_cons]
    refine h.enrolled.trans (fun x hle hlt => ?_) h.grown hs.grown fun v hv _ =>
      List.mem_append_left _ hv
    obtain ⟨v, hv, hentry⟩ := hs.enrolled x hle hlt
    exact ⟨v, List.mem_append_right _ hv, hentry⟩

theorem Dressed.part (h : Dressed s t (s.node t).1 (s.node t).2) (kept : Option Bool) :
    Dressed s t (s.part kept t).1 (s.part kept t).2 := by
  cases kept with
  | none => exact h
  | some real => exact h.keepAs real

theorem dressedAll_partAll (ih : ∀ t ∈ ts, ∀ s : Temporaries, Dressed s t (s.node t).1 (s.node t).2)
    (s : Temporaries) (kept : Option Bool) :
    DressedAll s ts (s.partAll kept ts).1 (s.partAll kept ts).2 := by
  induction ts generalizing s with
  | nil => exact .nil s
  | cons t rest ihrest =>
    exact .cons ((ih t List.mem_cons_self s).part kept)
      (ihrest (fun t ht => ih t (List.mem_cons_of_mem _ ht)) _)

theorem DressedAll.node (h : DressedAll s t.parts us s') : Dressed s t (t.withParts us) s' where
  grown := h.grown
  erases := .node h.erases
  enrolled := by
    intro x hle hlt
    obtain ⟨v, hv, hentry⟩ := h.enrolled x hle hlt
    refine ⟨v, ?_, hentry⟩
    rw [Tree.nodes_eq, Tree.parts_withParts h.erases.keeps.length]
    exact List.mem_cons_of_mem _ hv

theorem dressed_node (t : Tree) (s : Temporaries) : Dressed s t (s.node t).1 (s.node t).2 := by
  induction t using Tree.induction_parts generalizing s with
  | h t ih =>
    rw [s.node_eq]
    exact (dressedAll_partAll ih s _).node

end

end Codewright.Native

namespace Codewright.Routine

open Native

variable (r : Routine)

theorem dressed_toInPlace : Dressed { locals := r.locals } r.body r.toInPlace.1.body
    { locals := r.toInPlace.1.locals, count := r.toInPlace.2 } :=
  dressed_node r.body { locals := r.locals }

theorem size_toInPlace : r.toInPlace.1.locals.size = r.locals.size + r.toInPlace.2 :=
  r.dressed_toInPlace.grown.size

theorem erases_toInPlace :
    Erases r.toInPlace.1.body (List.range' r.locals.size r.toInPlace.2) r.body := by
  have herases := r.dressed_toInPlace.erases
  rwa [Temporaries.since, size_toInPlace, Nat.add_sub_cancel_left] at herases

theorem loads_toInPlace : r.toInPlace.1.body.loads = r.body.loads := by
  simpa only [Tree.loadsAll, List.append_nil] using r.erases_toInPlace.keeps.loads

/-- The temporaries are the locals that are new in the table. -/
theorem count_stores_toInPlace (x : Nat) : r.toInPlace.1.body.stores.count x =
    r.body.stores.count x + if r.locals.size ≤ x ∧
        x < r.locals.size + r.toInPlace.2 then 1 else 0 := by
  have hcount := r.erases_toInPlace.keeps.stores x
  rw [List.Nodup.count List.nodup_range'] at hcount
  simpa only [Tree.storesAll, List.append_nil, List.mem_range'_1] using hcount

/-- The one node that stores into a local, if the local is stored into once. -/
theorem filter_store_eq {t u : Tree} {x : LocalId} (hu : u ∈ t.nodes) (hstore : u.store = some x)
    (hcount : t.stores.count x = 1) : t.nodes.filter (fun v => v.store = some x) = [u] := by
  rw [← Tree.countP_store, List.countP_eq_length_filter] at hcount
  obtain ⟨v, hv⟩ := List.length_eq_one_iff.mp hcount
  have hmem : u ∈ t.nodes.filter (fun v => v.store = some x) := by simp [hu, hstore]
  rw [hv, List.mem_singleton] at hmem
  rw [hv, hmem]

/-- The in-place form of a routine has every operand stored and no integer operand of an operator on
reals. It has the locals of the routine and temporaries after them, as many as it says: each of them
is new in the body as the store of one node and has its type. Without these stores, and without the
conversions that store into temporaries, the body is that of the routine. The in-place form of the
in-place form is the same again. -/
theorem toInPlace_in_place (r : Routine) : let p := r.toInPlace.1
    let n := r.locals.size
    InPlaceForm p.body ∧
    p = { r with body := p.body, locals := p.locals } ∧
    p.locals.size = n + r.toInPlace.2 ∧
    (∀ x < n, p.locals[x]? = r.locals[x]?) ∧
    (∀ k < r.toInPlace.2, p.body.stores.count (n + k) = r.body.stores.count (n + k) + 1 ∧
      ∃ u ∈ p.body.nodes, u.store = some (n + k) ∧ p.locals[n + k]? = some (temporary k u.ty) ∧
        (n + k ∉ r.body.stores → p.body.nodes.filter (fun v => v.store = some (n + k)) = [u])) ∧
    Erases p.body (List.range' n r.toInPlace.2) r.body ∧
    p.toInPlace = (p, 0) := by
  intro p n
  have hdressed := r.dressed_toInPlace
  have hform : InPlaceForm p.body := inPlaceForm_node r.body { locals := r.locals }
  have hsize : p.locals.size = n + r.toInPlace.2 := r.size_toInPlace
  refine ⟨hform, rfl, hsize, fun x hx => hdressed.grown.kept x hx, fun k hk =>
    ?_, r.erases_toInPlace, ?_⟩
  · have hcount : p.body.stores.count (n + k) = r.body.stores.count (n + k) + 1 := by
      rw [r.count_stores_toInPlace, if_pos ⟨Nat.le_add_right n k, Nat.add_lt_add_left hk n⟩]
    obtain ⟨u, hu, hstore, hentry⟩ := hdressed.enrolled (n + k) (Nat.le_add_right n k)
      (by rw [hsize]; omega)
    refine ⟨hcount, u, hu, hstore, ?_, fun hnew => ?_⟩
    · simpa [n] using hentry
    · exact filter_store_eq hu hstore (by rw [hcount, List.count_eq_zero.mpr hnew])
  · simp only [toInPlace, hform.node_eq]

end Codewright.Routine
