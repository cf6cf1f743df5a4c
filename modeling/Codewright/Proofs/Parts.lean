import Codewright.Proofs.Traversal

/-!
# Nodes and their parts

Where the kind of a node does not matter, a tree is a node with its parts below it. The nodes of a
tree and its stores are those of the root and of the parts, and `induction_parts` has one case.
-/

namespace Codewright.Tree

mutual

/-- The tree and all trees below it, in the order in which they are written. -/
def nodes : Tree → List Tree
  | t@(.const _ _) | t@(.load _ _) | t@(.failFast _) | t@(.ret _) => [t]
  | t@(.call _ _ args) | t@(.print _ args) | t@(.seq _ args) => t :: nodesAll args
  | t@(.binary _ _ left right) => t :: (nodes left ++ nodes right)
  | t@(.unary _ _ operand) | t@(.toReal _ operand) | t@(.retValue _ operand) => t :: nodes operand
  | t@(.ifThen _ condition yes) => t :: (nodes condition ++ nodes yes)
  | t@(.ifElse _ condition yes no) => t :: (nodes condition ++ nodes yes ++ nodes no)
  | t@(.loop _ condition body) => t :: (nodes condition ++ nodes body)

def nodesAll : List Tree → List Tree
  | [] => []
  | t :: rest => nodes t ++ nodesAll rest

end

/-- The trees right below the root. -/
def parts : Tree → List Tree
  | .const _ _ | .load _ _ | .failFast _ | .ret _ => []
  | .call _ _ args | .print _ args | .seq _ args => args
  | .binary _ _ left right => [left, right]
  | .unary _ _ operand | .toReal _ operand | .retValue _ operand => [operand]
  | .ifThen _ condition yes => [condition, yes]
  | .ifElse _ condition yes no => [condition, yes, no]
  | .loop _ condition body => [condition, body]

/-- The same node with other parts, as many as it has. -/
def withParts : Tree → List Tree → Tree
  | .call tag callee _, args => .call tag callee args
  | .print tag _, args => .print tag args
  | .seq tag _, body => .seq tag body
  | .binary tag op _ _, [left, right] => .binary tag op left right
  | .unary tag op _, [operand] => .unary tag op operand
  | .toReal tag _, [operand] => .toReal tag operand
  | .retValue tag _, [value] => .retValue tag value
  | .ifThen tag _ _, [condition, yes] => .ifThen tag condition yes
  | .ifElse tag _ _ _, [condition, yes, no] => .ifElse tag condition yes no
  | .loop tag _ _, [condition, body] => .loop tag condition body
  | t, _ => t

/-- A node with its own parts is the node. -/
theorem withParts_parts (t : Tree) : t.withParts t.parts = t := by
  cases t <;> rfl

/-- A node with other parts has those. -/
theorem parts_withParts {t : Tree} {ts : List Tree} (h : ts.length = t.parts.length) :
    (t.withParts ts).parts = ts := by
  cases t with
  | const | load | failFast | ret => exact (List.length_eq_zero_iff.mp h).symm
  | call | print | seq => rfl
  | unary | toReal | retValue =>
    obtain ⟨p, rfl⟩ := List.length_eq_one_iff.mp h
    rfl
  | binary | ifThen | loop =>
    obtain ⟨p, q, rfl⟩ := List.length_eq_two.mp h
    rfl
  | ifElse =>
    obtain ⟨p, q, r, rfl⟩ := List.length_eq_three.mp h
    rfl

@[simp] theorem tag_withParts (t : Tree) (ts : List Tree) : (t.withParts ts).tag = t.tag := by
  fun_cases withParts t ts <;> rfl

theorem store_withParts (t : Tree) (ts : List Tree) : (t.withParts ts).store = t.store := by
  rw [store, tag_withParts, store]

@[simp] theorem parts_withStore (t : Tree) (store : Option LocalId) :
    (t.withStore store).parts = t.parts := by
  cases t <;> rfl

/-- The parts of a node that computes are its operands. -/
theorem parts_operator {t : Tree} {f : Operator} (h : t.operator? = some f) :
    t.parts = f.operands := by
  cases t <;> cases h <;> rfl

/-- Induction over trees with one case: a node whose parts are done. -/
theorem induction_parts {P : Tree → Prop} (h : ∀ t, (∀ p ∈ t.parts, P p) → P t)
    (t : Tree) : P t := by
  induction t using Tree.induction with
  | const | load | failFast | ret => exact h _ (by simp [parts])
  | operator t f hf ih => exact h t (by rwa [parts_operator hf])
  | seq tag body ih => exact h _ ih
  | ifThen tag c y ihc ihy | loop tag c y ihc ihy => exact h _ (by simp [parts, ihc, ihy])
  | ifElse tag c y n ihc ihy ihn => exact h _ (by simp [parts, ihc, ihy, ihn])
  | retValue tag v ih => exact h _ (by simp [parts, ih])

theorem nodesAll_eq (ts : List Tree) : nodesAll ts = ts.flatMap nodes := by
  induction ts with
  | nil => rfl
  | cons t rest ih => rw [nodesAll, ih, List.flatMap_cons]

theorem nodes_operator {t : Tree} {f : Operator} (h : t.operator? = some f) :
    t.nodes = t :: f.operands.flatMap nodes := by
  cases t <;> cases h <;> simp [nodes, nodesAll_eq]

/-- The nodes are the root and the nodes of its parts. -/
theorem nodes_eq (t : Tree) : t.nodes = t :: t.parts.flatMap nodes := by
  cases t <;> simp [nodes, parts, nodesAll_eq]

theorem self_mem_nodes (t : Tree) : t ∈ t.nodes := by
  rw [nodes_eq]
  exact List.mem_cons_self

theorem mem_nodes_of_parts {t p u : Tree} (hp : p ∈ t.parts) (hu : u ∈ p.nodes) : u ∈ t.nodes := by
  rw [nodes_eq]
  exact List.mem_cons_of_mem _ (List.mem_flatMap.mpr ⟨p, hp, hu⟩)

/-- What holds of all nodes holds of the root and in each part. -/
theorem forall_nodes_iff {P : Tree → Prop} {t : Tree} :
    (∀ u ∈ t.nodes, P u) ↔ P t ∧ ∀ p ∈ t.parts, ∀ u ∈ p.nodes, P u := by
  rw [nodes_eq t, List.forall_mem_cons, List.forall_mem_flatMap]

/-- A tree stores what its parts store, and then what the root does. -/
theorem stores_eq (t : Tree) : t.stores = t.parts.flatMap stores ++ t.store.toList := by
  cases t <;> simp [stores, parts, storesAll_eq, store, tag]

/-- A tree with parts loads what they load. -/
theorem loads_eq {t : Tree} (h : t.parts ≠ []) : t.loads = t.parts.flatMap loads := by
  cases t <;> simp_all [loads, parts, loadsAll_eq]

theorem loads_of_parts {t p : Tree} (hp : p ∈ t.parts) : p.loads ⊆ t.loads := by
  rw [loads_eq (List.ne_nil_of_mem hp)]
  exact fun x hx => List.mem_flatMap.mpr ⟨p, hp, hx⟩

theorem mentions_of_parts {t p : Tree} (hp : p ∈ t.parts) : p.mentions ⊆ t.mentions := by
  intro x hx
  rw [mem_mentions, stores_eq, List.mem_append, List.mem_flatMap]
  exact (mem_mentions.mp hx).imp (fun hx => loads_of_parts hp hx) fun hx => .inl ⟨p, hp, hx⟩

/-- A tree mentions what its parts mention, what it loads itself and what it stores into. -/
theorem mem_mentions_iff {t : Tree} {x : LocalId} :
    x ∈ t.mentions ↔ x ∈ mentionsAll t.parts ∨ (∃ tag, t = .load tag x) ∨ t.store = some x := by
  rw [mem_mentions, mem_mentionsAll, loadsAll_eq, stores_eq, storesAll_eq, List.mem_append,
    Option.mem_toList]
  by_cases h : t.parts = []
  · cases t <;> simp_all [loads, loadsAll, parts, @eq_comm _ x]
  · have hload : ∀ tag, t ≠ .load tag x := fun tag hl => h (by rw [hl, parts])
    simp only [loads_eq h, hload, exists_false, false_or, or_assoc]

/-! ## Other parts

A node on other parts loads what it did if the parts do, and so on.
-/

section

variable {t : Tree} {ts : List Tree}

/-- Other parts that load the same. -/
theorem loads_withParts (h : ts.flatMap loads = t.parts.flatMap loads) :
    (t.withParts ts).loads = t.loads := by
  fun_cases withParts t ts <;> simp_all [loads, parts, loadsAll_eq]

theorem stores_withParts (h : ts.flatMap stores = t.parts.flatMap stores) :
    (t.withParts ts).stores = t.stores := by
  fun_cases withParts t ts <;> simp_all [stores, parts, storesAll_eq]

theorem defines_withParts (h : ts.flatMap defines = t.parts.flatMap defines) :
    (t.withParts ts).defines = t.defines := by
  fun_cases withParts t ts <;> simp_all [defines, parts, definesAll_eq]

end

/-! ## All nodes -/

/-- What holds of a tree and passes to the parts of every node holds of all its nodes. -/
theorem forall_nodes_of_parts {P : Tree → Prop} (step : ∀ t, P t → ∀ p ∈ t.parts, P p)
    {t : Tree} (h : P t) : ∀ u ∈ t.nodes, P u := by
  induction t using induction_parts with
  | h t ih => exact forall_nodes_iff.mpr ⟨h, fun p hp => ih p hp (step t h p hp)⟩

/-- A node loads nothing that the tree does not. -/
theorem loads_nodes (t : Tree) : ∀ u ∈ t.nodes, u.loads ⊆ t.loads :=
  forall_nodes_of_parts (fun _ h _ hp => List.Subset.trans (loads_of_parts hp) h)
    (List.Subset.refl _)

theorem mentions_nodes (t : Tree) : ∀ u ∈ t.nodes, u.mentions ⊆ t.mentions :=
  forall_nodes_of_parts (fun _ h _ hp => List.Subset.trans (mentions_of_parts hp) h)
    (List.Subset.refl _)

/-- As many nodes have a local as their store as the tree stores into it. -/
theorem countP_store (t : Tree) (x : LocalId) :
    t.nodes.countP (fun u => u.store = some x) = t.stores.count x := by
  induction t using induction_parts with
  | h t ih =>
    have hroot : (if decide (t.store = some x) = true then 1 else 0) = t.store.toList.count x := by
      cases t.store with
      | none => simp
      | some y => simp [List.count_singleton]
    rw [nodes_eq, stores_eq, List.countP_cons, List.count_append, List.countP_flatMap,
      List.count_flatMap, hroot]
    exact congrArg (List.sum · + _) (List.map_congr_left ih)

end Codewright.Tree
