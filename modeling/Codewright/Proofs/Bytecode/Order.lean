import Codewright.Proofs.Bytecode.Correctness
import Codewright.Proofs.Bytecode.Pool

/-!
# The order in which routines are added

Routines may be added to a program in any order. What matters of the pool is which names it has: the
code of a tree depends on it only in the numbers of the constants, and there is code exactly if
there are numbers for all names together. So the work on a routine that succeeded once is repeated
beside any other pool that has room, and the functions end up at the places of their numbers
whatever came first.
-/

namespace Codewright.Bytecode

open Steps

/-! ## Two runs -/

/-- Instructions of programs with constants `cs` and `ds` that do the same: where a constant is
pushed both numbers select alike constants, and else they are equal. -/
inductive Instruction.Alike (cs ds : Array Constant) : Instruction → Instruction → Prop
  | same {i : Instruction} (h : i.opcode ≠ .pushConst) : Alike cs ds i i
  | pushConst {i j : Instruction} {c d : Constant} (hi : i.opcode = .pushConst)
    (hj : j.opcode = .pushConst) (hc : i.number?.bind (cs[·]?) = some c)
    (hd : j.number?.bind (ds[·]?) = some d) (h : c.Alike d) : Alike cs ds i j

/-- Pieces of code that do the same. -/
def CodeAlike (cs ds : Array Constant) (code code' : Code) : Prop :=
  List.Forall₂ (Instruction.Alike cs ds) code.toList code'.toList

section

variable {cs ds : Array Constant} {code code' more more' : Code} {i j : Instruction}

/-- An instruction that pushes no constant is its own counterpart. -/
theorem Instruction.Alike.plain (op : Opcode) (n : Int16) (h : op ≠ .pushConst := by decide) :
    Instruction.Alike cs ds ⟨op, n⟩ ⟨op, n⟩ := .same h

theorem CodeAlike.size_eq (h : CodeAlike cs ds code code') : code.size = code'.size := h.length_eq

theorem CodeAlike.append (h : CodeAlike cs ds code code') (h' : CodeAlike cs ds more more') :
    CodeAlike cs ds (code ++ more) (code' ++ more') := by
  rw [CodeAlike, Array.toList_append, Array.toList_append]
  exact List.rel_append h h'

theorem CodeAlike.push (h : CodeAlike cs ds code code') (hi : Instruction.Alike cs ds i j) :
    CodeAlike cs ds (code.push i) (code'.push j) := by
  rw [CodeAlike, Array.toList_push, Array.toList_push]
  exact List.rel_append h (.cons hi .nil)

theorem CodeAlike.single (hi : Instruction.Alike cs ds i j) : CodeAlike cs ds #[i] #[j] :=
  .cons hi .nil

end

/-- Where the first step succeeds it adds constants with just these names, and wherever there is
room for them the second step succeeds too, adds the same names and has a related result. -/
def Repeats {α β : Type} (x : Emit α) (y : Emit β) (ns : Finset String)
    (R : Array Constant → Array Constant → α → β → Prop) : Prop :=
  ∀ p p' a, p.Sound → x p = .ok a p' → p.Takes ns p' ∧
    ∀ q : ConstantPool, q.Sound → q.Room ns → ∃ b q', y q = .ok b q' ∧ q.Takes ns q' ∧
      ∀ cs ds : Array Constant, p'.entries.toList <+: cs.toList → q'.entries.toList <+: ds.toList →
        R cs ds a b

namespace Repeats

variable {α β γ δ : Type} {x : Emit α} {y : Emit β} {f : α → Emit γ} {g : β → Emit δ}
  {ms ns : Finset String} {R : Array Constant → Array Constant → α → β → Prop}
  {Q : Array Constant → Array Constant → γ → δ → Prop}

theorem pure {a : α} {b : β} (h : ∀ cs ds, R cs ds a b) :
    Repeats (Pure.pure a) (Pure.pure b) ∅ R := by
  intro p p' a' hp ha
  obtain ⟨rfl, rfl⟩ := pure_eq_ok.mp ha
  exact ⟨.refl hp, fun q hq _ => ⟨b, q, rfl, .refl hq, fun cs ds _ _ => h cs ds⟩⟩

theorem throw {e : GenerationError} : Repeats (MonadExcept.throw e) y ns R :=
  fun _ _ _ _ h => absurd h throw_ne_ok

theorem bind (hx : Repeats x y ms R)
    (hf : ∀ a b, (∃ cs ds, R cs ds a b) → Repeats (f a) (g b) ns fun cs ds c d => R cs ds a b →
      Q cs ds c d) :
    Repeats (x >>= f) (y >>= g) (ms ∪ ns) Q := by
  intro p p'' c hp hc
  obtain ⟨a, p', ha, hc⟩ := bind_eq_ok.mp hc
  obtain ⟨htakes, hrepeat⟩ := hx p p' a hp ha
  -- whatever the other pool is, the second half succeeds on this one
  obtain ⟨b₀, q₀, -, -, hR₀⟩ := hrepeat p hp htakes.room
  have htakes' :=
    (hf a b₀ ⟨_, _, hR₀ _ _ List.prefix_rfl List.prefix_rfl⟩ p' p'' c htakes.grows.sound hc).1
  refine ⟨htakes.trans htakes', fun q hq hroom => ?_⟩
  obtain ⟨b, q', hb, hq', hR⟩ := hrepeat q hq hroom.left
  have hab := hR _ _ List.prefix_rfl List.prefix_rfl
  obtain ⟨-, hrepeat'⟩ := hf a b ⟨_, _, hab⟩ p' p'' c htakes.grows.sound hc
  obtain ⟨d, q'', hd, hq'', hQ⟩ := hrepeat' q' hq'.grows.sound (hroom.right hq')
  refine ⟨d, q'', bind_eq_ok.mpr ⟨b, q', hb, hd⟩, hq'.trans hq'', fun cs ds hcs hds => ?_⟩
  exact hQ cs ds hcs hds
    (hR cs ds (htakes'.grows.kept.trans hcs) (hq''.grows.kept.trans hds))

theorem mono {R' : Array Constant → Array Constant → α → β → Prop} (h : Repeats x y ns R)
    (hR : ∀ cs ds a b, R cs ds a b → R' cs ds a b) : Repeats x y ns R' := by
  intro p p' a hp ha
  obtain ⟨htakes, hrepeat⟩ := h p p' a hp ha
  refine ⟨htakes, fun q hq hroom => ?_⟩
  obtain ⟨b, q', hb, hq', hab⟩ := hrepeat q hq hroom
  exact ⟨b, q', hb, hq', fun cs ds hcs hds => hR cs ds a b (hab cs ds hcs hds)⟩

theorem of_names (h : Repeats x y ms R) (hnames : ms = ns) : Repeats x y ns R := hnames ▸ h

theorem before (hx : Repeats x y ns R)
    (hf : ∀ a b, (∃ cs ds, R cs ds a b) → Repeats (f a) (g b) ∅ fun cs ds c d => R cs ds a b →
      Q cs ds c d) :
    Repeats (x >>= f) (y >>= g) ns Q :=
  (hx.bind hf).of_names (Finset.union_empty ns)

/-- After a step that needs no constants and has the same result both times. -/
theorem andThen {y : Emit α} {g : α → Emit δ} (hx : Repeats x y ∅ fun _ _ a b => a = b)
    (hf : ∀ a, Repeats (f a) (g a) ns Q) : Repeats (x >>= f) (y >>= g) ns Q := by
  refine Repeats.of_names (hx.bind fun a b hab => ?_) (Finset.empty_union ns)
  obtain ⟨-, -, rfl⟩ := hab
  exact (hf a).mono fun _ _ _ _ h _ => h

theorem operandOf (kind : OperandKind) (value : Int) :
    Repeats (Emit.operandOf kind value) (Emit.operandOf kind value) ∅ fun _ _ m n => m = n := by
  unfold Emit.operandOf
  cases operand kind value with
  | ok n => exact pure fun _ _ => rfl
  | error e => exact throw

theorem slot? (locals : Locals) (v : LocalId) :
    Repeats (Emit.slot? locals v) (Emit.slot? locals v) ∅ fun _ _ m n => m = n := by
  unfold Emit.slot?
  cases storageOf locals v with
  | unassigned => exact pure fun _ _ => rfl
  | register r => exact throw
  | stack slot =>
    exact (operandOf .localSlot slot).andThen fun m => pure fun _ _ => rfl

theorem performing (o : Operation) (count : Nat) :
    Repeats (Emit.performing o count) (Emit.performing o count) ∅
      fun cs ds i j => Instruction.Alike cs ds i j := by
  cases o with
  | intrinsic op =>
    unfold Emit.performing Emit.intrinsic Opcode.callIntrinsic?
    by_cases h : count < 8
    · simp only [dif_pos h]
      exact pure fun _ _ => .same nofun
    · simp only [dif_neg h]
      exact throw
  | routine callee =>
    exact (operandOf _ _).andThen fun n => pure fun _ _ => .same nofun

theorem constant (value : Value) :
    Repeats (Emit.constant value) (Emit.constant value) {value.poolName}
      fun cs ds m n => Instruction.Alike cs ds ⟨.pushConst, m⟩ ⟨.pushConst, n⟩ := by
  intro p p' m hp hm
  obtain ⟨htakes, k, c, hk, hc, hname⟩ := hp.takes (ConstantPool.constant_eq_ok.mp hm)
  refine ⟨htakes, fun q hq hroom => ?_⟩
  obtain ⟨n, q', hn⟩ := hq.exists_intern hroom
  obtain ⟨htakes', l, d, hl, hd, hname'⟩ := hq.takes hn
  refine ⟨n, q', ConstantPool.constant_eq_ok.mpr hn, htakes', fun cs ds hcs hds => ?_⟩
  refine .pushConst rfl rfl (c := c) (d := d) ?_ ?_ ?_
  · rw [Instruction.number?_eq hk]
    exact ConstantPool.getElem?_of_kept hcs hc
  · rw [Instruction.number?_eq hl]
    exact ConstantPool.getElem?_of_kept hds hd
  · exact htakes.grows.sound.alike htakes'.grows.sound hc hd (hname.trans hname'.symm)

end Repeats

/-! ## Trees -/

/-- The name that a node has in the pool. -/
def nodeName? : Tree → Option String
  | .const _ value => some value.poolName
  | _ => none

def namesIn (nodes : List Tree) : Finset String := (nodes.filterMap nodeName?).toFinset

theorem namesIn_append (ts us : List Tree) : namesIn (ts ++ us) = namesIn ts ∪ namesIn us := by
  rw [namesIn, List.filterMap_append, List.toFinset_append]
  rfl

theorem namesIn_cons {t : Tree} (h : nodeName? t = none) (ts : List Tree) :
    namesIn (t :: ts) = namesIn ts := by
  rw [namesIn, List.filterMap_cons_none h]
  rfl

theorem nodeName?_operator {t : Tree} {f : Operator} (h : t.operator? = some f) :
    nodeName? t = none := by
  cases t <;> first | rfl | cases h

section

variable {locals : Locals} {t : Tree}

/-- The code of a node is repeated beside any pool with room for its constants. -/
def RepeatsNode (locals : Locals) (t : Tree) : Prop :=
  Repeats (Emit.node locals t) (Emit.node locals t) (namesIn t.nodes) CodeAlike

/-- What follows the code of a node needs no constants. -/
theorem RepeatsNode.inRole (h : RepeatsNode locals t) (role : Role) :
    Repeats (Emit.node locals t >>= Emit.inRole locals role t)
      (Emit.node locals t >>= Emit.inRole locals role t) (namesIn t.nodes) CodeAlike := by
  refine Repeats.before h fun code code' _ => ?_
  cases role with
  | value =>
    simp only [Emit.inRole, Emit.asValue]
    cases t.store with
    | none => exact .pure fun _ _ h => h
    | some x =>
      refine (Repeats.slot? locals x).andThen fun slot => ?_
      cases slot with
      | none => exact .pure fun _ _ h => h
      | some n =>
        exact .pure fun _ _ h => (h.push (.plain .popLocal n)).push (.plain .pushLocal n)
  | statement =>
    simp only [Emit.inRole, Emit.asStatement]
    cases t.store with
    | none =>
      refine .pure fun _ _ h => ?_
      split
      · exact h.push (.plain .popDiscard 0)
      · exact h
    | some x =>
      refine (Repeats.slot? locals x).andThen fun slot => ?_
      cases slot with
      | none => exact .pure fun _ _ h => h.push (.plain .popDiscard 0)
      | some n => exact .pure fun _ _ h => h.push (.plain .popLocal n)

theorem repeats_all (role : Role) {ts : List Tree} (h : ∀ t ∈ ts, RepeatsNode locals t)
    (code code' : Code) :
    Repeats (Emit.allInRole locals role code ts) (Emit.allInRole locals role code' ts)
      (namesIn (ts.flatMap Tree.nodes))
      fun cs ds c c' => CodeAlike cs ds code code' → CodeAlike cs ds c c' := by
  induction ts generalizing code code' with
  | nil =>
    rw [Emit.allInRole_nil, Emit.allInRole_nil]
    exact .pure fun _ _ h => h
  | cons t rest ih =>
    rw [Emit.allInRole_cons, Emit.allInRole_cons, List.flatMap_cons, namesIn_append]
    rw [List.forall_mem_cons] at h
    refine (h.1.inRole role).bind fun c c' _ => (ih h.2 (code ++ c) (code' ++ c')).mono ?_
    exact fun cs ds d d' hd hc hcode => hd (hcode.append hc)

/-- The code of a tree: the numbers of constants apart it does not depend on the pool, only whether
there is room. -/
theorem repeats_node (locals : Locals) (t : Tree) : RepeatsNode locals t := by
  induction t using Tree.induction with
  | const tag value =>
    rw [RepeatsNode, Emit.node]
    exact (Repeats.constant value).before fun m n _ => .pure fun _ _ h => .single h
  | load tag x =>
    rw [RepeatsNode, Emit.node]
    refine (Repeats.slot? locals x).andThen fun slot => ?_
    cases slot with
    | some n => exact .pure fun _ _ => .single (.plain .pushLocal n)
    | none => exact .throw
  | failFast tag =>
    rw [RepeatsNode, Emit.node]
    exact (Repeats.performing (.intrinsic .failFast) 0).before fun i j _ =>
      .pure fun _ _ h => .single h
  | operator t f hf ih =>
    rw [RepeatsNode, Emit.node_operator hf, Tree.nodes_operator hf,
      namesIn_cons (nodeName?_operator hf)]
    refine (repeats_all .value ih #[] #[]).before fun code code' _ => ?_
    refine (Repeats.performing f.operation f.operands.length).before fun i j _ => ?_
    exact .pure fun _ _ hi hcode => (hcode .nil).push hi
  | seq tag body ih =>
    rw [RepeatsNode, Emit.node, Tree.nodes, Tree.nodesAll_eq, namesIn_cons rfl]
    exact (repeats_all .statement ih #[] #[]).mono fun _ _ _ _ h => h .nil
  | ifThen tag c y ihc ihy =>
    rw [RepeatsNode, Emit.node, ← bind_assoc, Tree.nodes, namesIn_cons rfl, namesIn_append]
    refine (ihc.inRole .value).bind fun test test' _ => ?_
    rw [← bind_assoc, ← bind_assoc]
    refine (ihy.inRole .statement).before fun yes yes' hyes => ?_
    -- the jump depends on the length of the code only, which is the same in both runs
    obtain ⟨_, _, hsize⟩ := hyes
    rw [hsize.size_eq]
    refine (Repeats.operandOf _ _).andThen fun skip => ?_
    exact .pure fun _ _ hy hc => (hc.push (.plain .jumpFalse skip)).append hy
  | ifElse tag c y n ihc ihy ihn =>
    rw [RepeatsNode, Emit.node, ← bind_assoc, Tree.nodes, namesIn_cons rfl, namesIn_append,
      namesIn_append, Finset.union_assoc]
    refine (ihc.inRole .value).bind fun test test' _ => ?_
    rw [← bind_assoc, ← bind_assoc]
    refine (ihy.inRole .statement).bind fun yes yes' hyes => ?_
    obtain ⟨_, _, hsize⟩ := hyes
    rw [hsize.size_eq]
    refine (Repeats.operandOf _ _).andThen fun skipYes => ?_
    rw [← bind_assoc, ← bind_assoc]
    refine (ihn.inRole .statement).before fun no no' hno => ?_
    obtain ⟨_, _, hsize⟩ := hno
    rw [hsize.size_eq]
    refine (Repeats.operandOf _ _).andThen fun skipNo => .pure fun cs ds hn hy hc => ?_
    have hfront := (hc.push (.plain .jumpFalse skipYes)).append hy
    exact (hfront.push (.plain .jump skipNo)).append hn
  | loop tag c b ihc ihb =>
    rw [RepeatsNode, Emit.node, ← bind_assoc, Tree.nodes, namesIn_cons rfl, namesIn_append]
    refine (ihc.inRole .value).bind fun test test' htest => ?_
    obtain ⟨_, _, hsize⟩ := htest
    rw [← bind_assoc, ← bind_assoc, hsize.size_eq]
    refine (ihb.inRole .statement).before fun body body' hbody => ?_
    obtain ⟨_, _, hsize⟩ := hbody
    rw [hsize.size_eq]
    refine (Repeats.operandOf _ _).andThen fun back => ?_
    refine (Repeats.operandOf _ _).andThen fun leave => .pure fun cs ds hb hc => ?_
    exact ((hc.push (.plain .jumpFalse leave)).append hb).push (.plain .jump back)
  | ret tag => exact .pure fun _ _ => .single (.plain .ret 0)
  | retValue tag v ih =>
    rw [RepeatsNode, Emit.node, ← bind_assoc, Tree.nodes, namesIn_cons rfl]
    exact (ih.inRole .value).before fun code code' _ => .pure fun _ _ h => h.push (.plain .ret 0)

end

/-! ## Routines -/

/-- Functions that do the same: they differ at most in the numbers of the constants they push. -/
structure Function.Alike (cs ds : Array Constant) (f g : Function) : Prop where
  name : f.name = g.name
  result : f.result = g.result
  paramCount : f.paramCount = g.paramCount
  slots : f.slots = g.slots
  code : CodeAlike cs ds f.code g.code

/-- The names of the constants that routines push. -/
def routineNames (rs : List Routine) : Finset String :=
  namesIn (rs.flatMap fun r => (slotForm r).1.body.nodes)

theorem routineNames_cons (r : Routine) (rs : List Routine) :
    routineNames (r :: rs) = routineNames [r] ∪ routineNames rs := by
  rw [routineNames, List.flatMap_cons, namesIn_append, routineNames, List.flatMap_singleton,
    routineNames]

theorem routineNames_perm {rs rs' : List Routine} (h : rs.Perm rs') :
    routineNames rs = routineNames rs' :=
  List.toFinset_eq_of_perm _ _ ((h.flatMap_right _).filterMap _)

namespace Assembler

/-- A table of functions with one more at the place of its number. -/
def put (table : Array (Option Function)) (n : Nat) (f : Function) : Array (Option Function) :=
  (table ++ Array.replicate (n + 1 - table.size) none).setIfInBounds n (some f)

def addAll (a : Assembler) : List Routine → Except GenerationError Assembler
  | [] => .ok a
  | r :: rest =>
    match a.add r with
    | (.error e, _) => .error e
    | (.ok (), a) => addAll a rest

/-- The routine can be added wherever there is room for its constants, and gives a function that
does the same as `f` does with the constants `cs`. -/
def Reproduces (cs : Array Constant) (r : Routine) (f : Function) : Prop :=
  ∀ b : Assembler, b.constants.Sound → b.constants.Room (routineNames [r]) → ∃ g b',
    b.add r = (.ok (), b') ∧ b.constants.Takes (routineNames [r]) b'.constants ∧
      b'.functions = put b.functions r.id g ∧
      ∀ ds : Array Constant, b'.constants.entries.toList <+: ds.toList → f.Alike cs ds g

variable {a a' b : Assembler} {r : Routine} {cs ds : Array Constant}

theorem reproduces_of_add (ha : a.constants.Sound) (h : a.add r = (.ok (), a')) :
    a.constants.Takes (routineNames [r]) a'.constants ∧ ∃ f, a'.functions = put a.functions r.id f ∧
      ∀ cs : Array Constant, a'.constants.entries.toList <+: cs.toList → Reproduces cs r f := by
  have hbody : Repeats (Emit.body (slotForm r).1.locals (slotForm r).1.body)
      (Emit.body (slotForm r).1.locals (slotForm r).1.body) (routineNames [r]) CodeAlike := by
    rw [routineNames, List.flatMap_singleton]
    exact (repeats_node (slotForm r).1.locals (slotForm r).1.body).inRole .statement
  unfold add EStateM.run at h
  dsimp only at h
  cases hrun : Emit.body (slotForm r).1.locals (slotForm r).1.body a.constants with
  | error e constants =>
    rw [hrun] at h
    cases h
  | ok code constants =>
    rw [hrun] at h
    cases h
    obtain ⟨htakes, hrepeat⟩ := hbody _ _ _ ha hrun
    refine ⟨htakes, _, rfl, fun cs hcs b hb hroom => ?_⟩
    obtain ⟨code', constants', hrun', htakes', hcode⟩ := hrepeat b.constants hb hroom
    unfold add EStateM.run
    dsimp only
    rw [hrun']
    refine ⟨_, _, rfl, htakes', rfl, fun ds hds => ?_⟩
    exact ⟨rfl, rfl, rfl, rfl, hcode cs ds hcs hds⟩

/-- What is there after routines have been added: a function for each. -/
theorem reproduces_of_addAll {rs : List Routine} (ha : a.constants.Sound)
    (h : a.addAll rs = .ok a') :
    a.constants.Takes (routineNames rs) a'.constants ∧ ∃ ps : List (Routine × Function),
      ps.map Prod.fst = rs ∧ a'.functions = ps.foldl (fun table p => put table p.1.id p.2)
        a.functions ∧
      ∀ p ∈ ps, Reproduces a'.constants.entries p.1 p.2 := by
  induction rs generalizing a with
  | nil =>
    obtain rfl := Except.ok.inj h
    exact ⟨.refl ha, [], rfl, rfl, nofun⟩
  | cons r rest ih =>
    rw [addAll] at h
    generalize hadd : a.add r = outcome at h
    obtain ⟨answer, a₁⟩ := outcome
    cases answer with
    | error e => cases h
    | ok =>
      obtain ⟨htakes, f, hf, hrepro⟩ := reproduces_of_add ha hadd
      obtain ⟨htakes', ps, rfl, hps, hall⟩ := ih htakes.grows.sound h
      refine ⟨routineNames_cons r _ ▸ htakes.trans htakes', (r, f) :: ps, rfl, ?_, ?_⟩
      · rw [hps, hf]
        rfl
      · exact List.forall_mem_cons.mpr ⟨hrepro _ htakes'.grows.kept, hall⟩

/-! ## Tables -/

/-- Tables with the same gaps and functions that do the same. -/
def TableAlike (cs ds : Array Constant) (table table' : Array (Option Function)) : Prop :=
  List.Forall₂ (Option.Rel (Function.Alike cs ds)) table.toList table'.toList

theorem forall₂_set {α β : Type} {R : α → β → Prop} {xs : List α} {ys : List β}
    (h : List.Forall₂ R xs ys) {x : α} {y : β} (hxy : R x y) (n : Nat) :
    List.Forall₂ R (xs.set n x) (ys.set n y) := by
  induction h generalizing n with
  | nil => exact .nil
  | cons hhead htail ih =>
    cases n with
    | zero => exact .cons hxy htail
    | succ n => exact .cons hhead (ih n)

theorem TableAlike.put {table table' : Array (Option Function)} {f g : Function}
    (h : TableAlike cs ds table table') (hfg : f.Alike cs ds g) (n : Nat) :
    TableAlike cs ds (put table n f) (put table' n g) := by
  have hsize : table.size = table'.size := h.length_eq
  unfold TableAlike Assembler.put
  rw [hsize, Array.toList_setIfInBounds, Array.toList_setIfInBounds, Array.toList_append,
    Array.toList_append]
  refine forall₂_set (List.rel_append h ?_) (.some hfg) n
  exact List.forall₂_same.mpr fun gap hgap => by
    rw [Array.toList_replicate, List.mem_replicate] at hgap
    rw [hgap.2]
    exact .none

theorem getElem?_put (table : Array (Option Function)) (n : Nat) (f : Function) (k : Nat) :
    (put table n f)[k]? =
      if k = n then some (some f) else table[k]?.or (if k < n then some none else none) := by
  have hsize : n < (table ++ Array.replicate (n + 1 - table.size) none).size := by
    rw [Array.size_append, Array.size_replicate]
    omega
  rw [put, Array.getElem?_setIfInBounds, if_pos hsize, Array.getElem?_append,
    Array.getElem?_replicate]
  by_cases hk : n = k
  · rw [if_pos hk, if_pos hk.symm]
  rw [if_neg hk, if_neg (Ne.symm hk)]
  by_cases hlt : k < table.size
  · rw [if_pos hlt, Array.getElem?_eq_getElem hlt, Option.some_or]
  · have hgap : k - table.size < n + 1 - table.size ↔ k < n := by omega
    rw [if_neg hlt, Array.getElem?_eq_none (Nat.le_of_not_lt hlt), Option.none_or]
    simp only [hgap]

theorem put_comm {m n : Nat} (h : m ≠ n) (table : Array (Option Function)) (f g : Function) :
    put (put table m f) n g = put (put table n g) m f := by
  apply Array.ext_getElem?
  intro k
  rw [getElem?_put, getElem?_put, getElem?_put, getElem?_put]
  by_cases hm : k = m
  · have hn : k ≠ n := fun hn => h (hm.symm.trans hn)
    rw [if_neg hn, if_pos hm, if_pos hm, Option.some_or]
  · by_cases hn : k = n
    · rw [if_pos hn, if_neg hm, if_pos hn, Option.some_or]
    · -- a place that is filled by neither: a gap comes into being if it is below one of the numbers
      rw [if_neg hn, if_neg hm, if_neg hm, if_neg hn, Option.or_assoc, Option.or_assoc]
      congr 1
      split_ifs <;> rfl

/-- Routines that can be added one by one can be added all, where there is room for all
constants. -/
theorem addAll_of_reproduces {ps : List (Routine × Function)} (h : ∀ p ∈ ps, Reproduces cs p.1 p.2)
    (hb : b.constants.Sound) (hroom : b.constants.Room (routineNames (ps.map Prod.fst)))
    (table : Array (Option Function))
    (htable : ∀ ds : Array Constant, b.constants.entries.toList <+: ds.toList →
      TableAlike cs ds table b.functions) :
    ∃ b', b.addAll (ps.map Prod.fst) = .ok b' ∧
      b.constants.Takes (routineNames (ps.map Prod.fst)) b'.constants ∧
      TableAlike cs b'.constants.entries (ps.foldl (fun table p => put table p.1.id p.2) table)
        b'.functions := by
  induction ps generalizing b table with
  | nil => exact ⟨b, rfl, .refl hb, htable _ List.prefix_rfl⟩
  | cons p rest ih =>
    obtain ⟨r, f⟩ := p
    rw [List.map_cons, routineNames_cons] at hroom ⊢
    obtain ⟨hfirst, hrest⟩ := List.forall_mem_cons.mp h
    obtain ⟨g, b₁, hadd, htakes, hg, halike⟩ := hfirst b hb hroom.left
    have htable₁ : ∀ ds : Array Constant, b₁.constants.entries.toList <+: ds.toList →
        TableAlike cs ds (put table r.id f) b₁.functions := by
      intro ds hds
      rw [hg]
      exact (htable ds (htakes.grows.kept.trans hds)).put (halike ds hds) r.id
    obtain ⟨b', hall, htakes', htable'⟩ :=
      ih hrest htakes.grows.sound (hroom.right htakes) _ htable₁
    refine ⟨b', ?_, htakes.trans htakes', htable'⟩
    rw [addAll, hadd]
    exact hall

theorem foldl_put_perm {ps ps' : List (Routine × Function)} (h : ps.Perm ps')
    (hids : (ps.map (·.1.id)).Nodup) (table : Array (Option Function)) :
    ps.foldl (fun table p => put table p.1.id p.2) table =
      ps'.foldl (fun table p => put table p.1.id p.2) table := by
  refine h.foldl_eq' (fun p hp q hq table => ?_) table
  by_cases hid : p.1.id = q.1.id
  · rw [List.inj_on_of_nodup_map hids hp hq hid]
  · exact put_comm hid table p.2 q.2

end Assembler

/-! ## Programs -/

/-- Programs that do the same: they have the same functions, apart from the numbers of constants,
and the constants of one are those of the other in some order. -/
structure Program.Alike (p q : Program) : Prop where
  main : p.main = q.main
  functions : List.Forall₂ (Function.Alike p.constants q.constants) p.functions.toList
    q.functions.toList
  constants : ∃ cs, cs.Perm q.constants.toList ∧ List.Forall₂ Constant.Alike p.constants.toList cs

/-- Pools with the same names have the same constants in some order. -/
theorem ConstantPool.Sound.perm {p q : ConstantPool} (hp : p.Sound) (hq : q.Sound)
    (h : p.names = q.names) :
    ∃ cs, cs.Perm q.entries.toList ∧ List.Forall₂ Constant.Alike p.entries.toList cs := by
  have hperm : (p.entries.toList.map (·.name)).Perm (q.entries.toList.map (·.name)) :=
    List.perm_of_nodup_nodup_toFinset_eq hp.nodup hq.nodup h
  have hself : List.Forall₂ (fun name (d : Constant) => d.name = d.value.poolName ∧ name = d.name)
      (q.entries.toList.map (·.name)) q.entries.toList :=
    List.forall₂_map_left_iff.mpr (List.forall₂_same.mpr fun d hd => ⟨hq.named d hd, rfl⟩)
  -- the entries of the second pool in the order that the names have in the first
  obtain ⟨cs, hcs, hperm⟩ := List.perm_comp_forall₂ hperm hself
  refine ⟨cs, hperm, ?_⟩
  have hnamed := (List.forall₂_and_left _ _).mpr ⟨hp.named, List.forall₂_map_left_iff.mp hcs⟩
  refine hnamed.imp fun c d hcd => ⟨hcd.2.2, Value.eq_of_poolName ?_⟩
  rw [← hcd.1, hcd.2.2, hcd.2.1]

namespace Assembler

variable {a b : Assembler} {cs ds : Array Constant}

theorem allFunctions_alike {table table' : List (Option Function)}
    (h : List.Forall₂ (Option.Rel (Function.Alike cs ds)) table table')
    (done done' : Array Function)
    (hdone : List.Forall₂ (Function.Alike cs ds) done.toList done'.toList) :
    Matched Eq (fun fs gs : Array Function =>
      List.Forall₂ (Function.Alike cs ds) fs.toList gs.toList)
      (allFunctions done table) (allFunctions done' table') := by
  induction h generalizing done done' with
  | nil => exact .ok hdone
  | cons hhead _ ih =>
    cases hhead with
    | none =>
      have hsize : done.size = done'.size := hdone.length_eq
      rw [allFunctions, allFunctions, hsize]
      exact .error rfl
    | some hfg =>
      rw [allFunctions, allFunctions]
      refine ih _ _ ?_
      rw [Array.toList_push, Array.toList_push]
      exact List.rel_append hdone (.cons hfg .nil)

theorem finish_alike (ha : a.constants.Sound) (hb : b.constants.Sound)
    (hnames : a.constants.names = b.constants.names)
    (h : TableAlike a.constants.entries b.constants.entries a.functions b.functions)
    (main : RoutineId) : Matched Eq Program.Alike (a.finish main) (b.finish main) := by
  have hall := allFunctions_alike h #[] #[] .nil
  unfold finish
  generalize allFunctions #[] a.functions.toList = fs at hall ⊢
  generalize allFunctions #[] b.functions.toList = gs at hall ⊢
  cases hall with
  | error he => exact .error he
  | @ok fs gs hfs =>
    have hsize : fs.size = gs.size := hfs.length_eq
    show Matched Eq Program.Alike (if fs.size ≤ main then _ else _)
      (if gs.size ≤ main then _ else _)
    rw [hsize]
    by_cases hmain : gs.size ≤ main
    · rw [if_pos hmain, if_pos hmain]
      exact .error rfl
    · rw [if_neg hmain, if_neg hmain]
      exact .ok ⟨rfl, hfs, ha.perm hb hnames⟩

end Assembler

theorem assemble_of_addAll {rs : List Routine} {a : Assembler} (h : Assembler.addAll {} rs = .ok a)
    (main : RoutineId) : assemble rs main = a.finish main := by
  unfold assemble
  generalize ({} : Assembler) = start at h ⊢
  induction rs generalizing start with
  | nil =>
    obtain rfl := Except.ok.inj h
    rfl
  | cons r rest ih =>
    rw [Assembler.addAll] at h
    rw [assemble.go]
    generalize start.add r = outcome at h ⊢
    obtain ⟨answer, next⟩ := outcome
    cases answer with
    | error e => cases h
    | ok => exact ih next h

/-- The order in which routines are added does not matter. If routines with different numbers can
all be added in one order, they can in any other, and the two programs do the same, or neither is
finished for the same reason. -/
theorem assembly_order_irrelevant (rs rs' : List Routine) (hids : (rs.map (·.id)).Nodup)
    (hperm : rs.Perm rs') (h : (Assembler.addAll {} rs).isOk = true) :
    (Assembler.addAll {} rs').isOk = true ∧
      ∀ main, Matched Eq Program.Alike (assemble rs main) (assemble rs' main) := by
  cases ha : Assembler.addAll {} rs with
  | error e =>
    rw [ha] at h
    cases h
  | ok a =>
    obtain ⟨htakes, ps, rfl, hfunctions, hall⟩ :=
      Assembler.reproduces_of_addAll ConstantPool.sound_empty ha
    -- the pairs in the other order: the second run reproduces the function of each
    have hpairs : List.Forall₂ (fun r (p : Routine × Function) => r = p.1) (ps.map Prod.fst) ps :=
      List.forall₂_map_left_iff.mpr (List.forall₂_same.mpr fun _ _ => rfl)
    obtain ⟨ps', hps', hperm'⟩ := List.perm_comp_forall₂ hperm.symm hpairs
    obtain rfl : rs' = ps'.map Prod.fst := by
      rw [← List.forall₂_eq_eq_eq, List.forall₂_map_right_iff]
      exact hps'
    have hnames := routineNames_perm hperm
    obtain ⟨b, hb, htakes', htable⟩ := Assembler.addAll_of_reproduces (b := {})
      (fun p hp => hall p (hperm'.subset hp)) ConstantPool.sound_empty (hnames ▸ htakes.room) #[]
      fun _ _ => .nil
    refine ⟨by rw [hb]; rfl, fun main => ?_⟩
    rw [assemble_of_addAll ha, assemble_of_addAll hb]
    refine Assembler.finish_alike htakes.grows.sound htakes'.grows.sound ?_ ?_ main
    · rw [htakes.names_eq, htakes'.names_eq, hnames]
    · have hids' : (ps.map (·.1.id)).Nodup := by
        simpa only [List.map_map, Function.comp_def] using hids
      rw [hfunctions, Assembler.foldl_put_perm hperm'.symm hids']
      exact htable

/-- A routine that returns a number. -/
def returning (id : RoutineId) (n : Int64) : Routine where
  id := id
  fullName := "main.f"
  locals := #[{ name := "$result", ty := .int }]
  paramCount := 0
  body := .seq { ty := .void } [.retValue { ty := .void } (.const { ty := .int } (.int n))]

/-- The second routine may be added before the first. The constants then come in the other order. -/
theorem assembly_order_irrelevant_returning :
    ∃ p q, assemble [returning 0 5, returning 1 7] 1 = .ok p ∧
      assemble [returning 1 7, returning 0 5] 1 = .ok q ∧ p.Alike q ∧
      p.constants.toList.map (·.value) = [.int 5, .int 7] ∧
      q.constants.toList.map (·.value) = [.int 7, .int 5] := by
  have hadd : (Assembler.addAll {} [returning 0 5, returning 1 7]).isOk = true := by cbv
  obtain ⟨-, hmatched⟩ := assembly_order_irrelevant [returning 0 5, returning 1 7]
    [returning 1 7, returning 0 5] (by decide) (List.Perm.swap _ _ _) hadd
  specialize hmatched 1
  have hp : (assemble [returning 0 5, returning 1 7] 1).map (·.constants.toList.map (·.value)) =
      .ok [.int 5, .int 7] := by cbv
  have hq : (assemble [returning 1 7, returning 0 5] 1).map (·.constants.toList.map (·.value)) =
      .ok [.int 7, .int 5] := by cbv
  generalize assemble [returning 0 5, returning 1 7] 1 = outcome at hmatched hp ⊢
  generalize assemble [returning 1 7, returning 0 5] 1 = outcome' at hmatched hq ⊢
  cases hmatched with
  | error _ => cases hp
  | @ok p q h => exact ⟨p, q, rfl, rfl, h, Except.ok.inj hp, Except.ok.inj hq⟩

end Codewright.Bytecode
