import Codewright.Proofs.Bytecode.Assembly
import Codewright.Proofs.FoldedRemoval
import Codewright.Proofs.SureReturns

/-!
# Folding and the size of code

Code has an instruction for each node but for the sequences, besides what jumps and takes values off
the stack, and folding makes one node of an operator and its operands. Since the same single uses
are removed from a folded tree, that is the whole difference between the code of a routine with
constants folded and without.
-/

namespace Codewright

namespace Tree

/-! ## What folding saves -/

def isBinary : Tree → Bool
  | .binary _ _ _ _ => true
  | _ => false

def isUnary : Tree → Bool
  | .unary _ _ _ => true
  | _ => false

/-- The number of nodes of a kind that become constants when the tree is folded. -/
def foldedCount (kind : Tree → Bool) (t : Tree) : Nat :=
  t.nodes.countP fun u => kind u && u.folded.constant?.isSome

/-- The operands of the nodes that become constants. -/
def saving (t : Tree) : Nat := 2 * t.foldedCount isBinary + t.foldedCount isUnary

section

variable {n : Nat} {t t' : Tree} {ts ts' : List Tree} {Θ : Typing}

theorem saving_eq (t : Tree) : t.saving = (t.parts.map saving).sum +
    if t.folded.constant?.isSome = true then
      (if t.isBinary = true then 2 else 0) + (if t.isUnary = true then 1 else 0) else 0 := by
  have hcount : ∀ kind, t.foldedCount kind = (t.parts.map (foldedCount kind)).sum +
      if (kind t && t.folded.constant?.isSome) = true then 1 else 0 := by
    intro kind
    rw [foldedCount, nodes_eq, List.countP_cons, List.countP_flatMap]
    rfl
  have hparts : (t.parts.map saving).sum = 2 * (t.parts.map (foldedCount isBinary)).sum +
      (t.parts.map (foldedCount isUnary)).sum := by
    rw [← List.sum_map_mul_left, ← List.sum_map_add]
    rfl
  rw [hparts, saving, hcount isBinary, hcount isUnary]
  cases t.folded.constant?.isSome <;> cases t.isBinary <;> cases t.isUnary <;> simp <;> omega

theorem shortenedAll_folded (h : ∀ t ∈ ts, Shortened t.saving t t.folded) :
    ShortenedAll (ts.map saving).sum ts (ts.map folded) := by
  induction ts with
  | nil => exact .nil
  | cons t rest ih =>
    rw [List.forall_mem_cons] at h
    exact .cons h.1 (ih h.2)

theorem Typed.shortened (h : t.Typed Θ) : Shortened t.saving t t.folded := by
  induction t using induction_parts with
  | h t ih =>
    have hparts := shortenedAll_folded fun a ha => ih a ha (h.parts a ha)
    rw [saving_eq]
    rcases folded_cases t with heq | ⟨f, hf, -, hconst, ty, v, heq⟩
    · rw [heq]
      convert Shortened.node hparts using 1
      cases t <;> simp [isBinary, isUnary, Tree.parts, Tree.withParts, constant?]
    · have hty : ty = t.ty := by
        have := h.folded.1
        rwa [heq] at this
      rw [heq, hty]
      convert Shortened.folded (by rw [hf]; rfl) hparts (by simpa [parts_operator hf] using hconst)
        v using 1
      · cases t with
        | binary | unary => rfl
        | call | print | toReal => cases heq
        | _ => cases hf
      · rfl

/-! ## Lengths of code -/

/-- The instructions that take the value of a statement off the stack. -/
def tailSize (t : Tree) : Nat := if t.store.isSome || t.ty.isValue then 1 else 0

/-- The instructions of a node besides the code that computes its parts. -/
def ownSize : Tree → Nat
  | .seq _ body => (body.map tailSize).sum
  | .ifThen _ _ yes => 1 + yes.tailSize
  | .ifElse _ _ yes no => 2 + (yes.tailSize + no.tailSize)
  | .loop _ _ body => 2 + body.tailSize
  | _ => 1

/-- The number of instructions of a tree whose operands do not store. -/
def codeSize (t : Tree) : Nat := (t.nodes.map ownSize).sum

theorem codeSize_eq (t : Tree) : t.codeSize = t.ownSize + (t.parts.map codeSize).sum := by
  rw [codeSize, nodes_eq, List.map_cons, List.sum_cons, List.map_flatMap, List.flatMap,
    List.sum_flatten, List.map_map]
  rfl

theorem ownSize_withParts (h : ts.map tag = t.parts.map tag) :
    (t.withParts ts).ownSize = t.ownSize := by
  have htail : ts.map tailSize = t.parts.map tailSize := by
    have := congrArg (List.map fun tag => if tag.store.isSome || tag.ty.isValue then 1 else 0) h
    rwa [List.map_map, List.map_map] at this
  fun_cases withParts t ts <;> simp_all [ownSize, parts]

theorem ownSize_operator (h : t.operator?.isSome = true) : t.ownSize = 1 := by
  cases t <;> first | rfl | cases h

theorem ShortenedAll.codeSize (h : ShortenedAll n ts ts')
    (ih : ∀ a ∈ ts, ∀ {n a'}, Shortened n a a' → a.codeSize = a'.codeSize + n) :
    (ts.map codeSize).sum = (ts'.map Tree.codeSize).sum + n := by
  induction ts generalizing n ts' with
  | nil =>
    cases h
    rfl
  | cons t rest ihrest =>
    cases h with
    | cons h hrest =>
      rw [List.forall_mem_cons] at ih
      simp only [List.map_cons, List.sum_cons]
      rw [ih.1 h, ihrest hrest ih.2]
      omega

theorem Shortened.codeSize (h : Shortened n t t') : t.codeSize = t'.codeSize + n := by
  induction t using induction_parts generalizing n t' with
  | h t ih =>
    rw [codeSize_eq]
    cases h with
    | node h =>
      rw [h.codeSize ih, codeSize_eq, ownSize_withParts h.tags, parts_withParts h.length,
        Nat.add_assoc]
    | @folded _ _ ts hop h hts =>
      have hone : ∀ k ∈ ts.map Tree.codeSize, k = 1 := by
        rw [List.forall_mem_map]
        intro a ha
        obtain ⟨tag, v, rfl⟩ := hts a ha
        rfl
      rw [h.codeSize ih, ownSize_operator hop, List.sum_eq_card_nsmul _ 1 hone, List.length_map]
      simp [Tree.codeSize, nodes, ownSize]
      omega

end

end Tree

namespace Bytecode

section

variable {C : Coding} {t : Tree} {ts : List Tree} {code : List Instruction}

theorem EmittedAllIn.length {r : Role} {size : Tree → Nat} (h : EmittedAllIn C r ts code)
    (ih : ∀ t ∈ ts, ∀ {code}, EmittedIn C r t code → code.length = size t) :
    code.length = (ts.map size).sum := by
  induction ts generalizing code with
  | nil => cases r <;> cases h <;> rfl
  | cons t rest ihrest =>
    rw [List.forall_mem_cons] at ih
    cases r <;> cases h
    all_goals
      next h hmore =>
        rw [List.length_append, ih.1 h, ihrest hmore ih.2, List.map_cons, List.sum_cons]

theorem EmittedStatement.length (h : EmittedStatement C t code)
    (ih : ∀ {code}, Emitted C t code → code.length = t.codeSize) :
    code.length = t.codeSize + t.tailSize := by
  cases h with
  | intro h htail =>
    rw [List.length_append, ih h]
    cases htail <;> simp_all [Tree.tailSize]

theorem Emitted.length (h : Emitted C t code) (hb : t.Bare) : code.length = t.codeSize := by
  induction t using Tree.induction_parts generalizing code with
  | h t ih =>
    replace ih : ∀ a ∈ t.parts, ∀ {code}, Emitted C a code → code.length = a.codeSize :=
      fun a ha _ h => ih a ha h (hb.parts a ha)
    rw [Tree.codeSize_eq]
    cases h with
    | const | load | failFast | ret => rfl
    | operator hf h =>
      rw [Tree.parts_operator hf] at ih ⊢
      rw [Tree.bare_operator hf] at hb
      rw [List.length_append, EmittedAllIn.length (r := .value) h fun a ha _ h =>
        ih a ha (h.of_store (hb a ha).1), Tree.ownSize_operator (by rw [hf]; rfl)]
      exact Nat.add_comm _ _
    | seq h =>
      rw [EmittedAllIn.length (r := .statement) h fun a ha _ h => h.length (ih a ha),
        List.sum_map_add, Nat.add_comm]
      rfl
    | ifThen hc hy | loop hc hy =>
      simp only [Tree.parts, List.forall_mem_cons] at ih
      have := ih.1 (hc.of_store hb.1.1)
      have := hy.length ih.2.1
      simp [Tree.parts, Tree.ownSize]
      omega
    | ifElse hc hy hn =>
      simp only [Tree.parts, List.forall_mem_cons] at ih
      have := ih.1 (hc.of_store hb.1.1)
      have := hy.length ih.2.1
      have := hn.length ih.2.2.1
      simp [Tree.parts, Tree.ownSize]
      omega
    | retValue h =>
      rw [List.length_append, ih _ List.mem_cons_self (h.of_store hb.1)]
      exact Nat.add_comm _ _

theorem EmittedStatement.length_shortened {C' : Coding} {n : Nat} {t' : Tree}
    {code' : List Instruction}
    (h : EmittedStatement C t code) (h' : EmittedStatement C' t' code') (hs : Tree.Shortened n t t')
    (hb : t.Bare) (hb' : t'.Bare) : code.length = code'.length + n := by
  rw [h.length fun h => h.length hb, h'.length fun h => h.length hb', hs.codeSize, Tree.tailSize,
    Tree.tailSize, Tree.store, Tree.store, Tree.ty, Tree.ty, hs.tag, Nat.add_right_comm]

end

/-! ## Programs -/

section

variable {r : Routine} {f g : Function} {symbols : Symbols} {modules : List Surface.Module}
  {trees folded : TreeProgram} {warnings warnings' : List Diagnostic}

/-- The same locals are removed from the tree of a routine and from the folded one. -/
theorem removed_folded (h : r.Built symbols) :
    r.foldConstants.1.removeSingleUses.2 = r.removeSingleUses.2 ∧
      r.foldConstants.1.removeSingleUses.1.locals = r.removeSingleUses.1.locals ∧
      Tree.Shortened r.body.saving r.removeSingleUses.1.body
        r.foldConstants.1.removeSingleUses.1.body := by
  have hs := (h.typed _ (r.fits_typing symbols) rfl).shortened.removedAlike { locals := r.locals }
  rw [← Tree.fold_fst 0 r.body] at hs
  exact ⟨congrArg Tree.Removal.removed hs.1, congrArg Tree.Removal.locals hs.1, hs.2⟩

/-- With folding asked for, the same routines are built and then folded. -/
theorem routines_of_buildTrees (h : buildTrees false modules = (.ok trees, warnings))
    (h' : buildTrees true modules = (.ok folded, warnings')) :
    folded.routines = trees.routines.map fun r => r.foldConstants.1 := by
  unfold buildTrees at h h'
  split at h
  · cases h
  · next hs =>
    split at h
    · cases h
    · next hr =>
      simp only [hs, hr] at h'
      cases h
      cases h'
      rfl

/-- Folding shortens code by exactly what it folds. When trees are built from modules with constants
folded and without, the same locals of every routine are removed as single uses and what is left
mentions the same locals; and wherever bytecode is generated from both, the function without folding
has two instructions more for each binary operator that becomes a constant, and one more for each
unary one. -/
theorem folding_shortens_code {modules : List Surface.Module} {trees folded : TreeProgram}
    {warnings warnings' : List Diagnostic} (h : buildTrees false modules = (.ok trees, warnings))
    (h' : buildTrees true modules = (.ok folded, warnings')) :
    folded.routines.length = trees.routines.length ∧
    ∀ (n : Nat) (r r' : Routine), trees.routines[n]? = some r → folded.routines[n]? = some r' →
      (r'.removeSingleUses.2 = r.removeSingleUses.2 ∧
        r'.removeSingleUses.1.locals = r.removeSingleUses.1.locals ∧
        ∀ x, x ∈ r'.removeSingleUses.1.body.mentions ↔ x ∈ r.removeSingleUses.1.body.mentions) ∧
      ∀ (options : Options) (p q : Program), compileTrees options modules trees =
        .ok (.bytecode p) →
        compileTrees options modules folded = .ok (.bytecode q) →
        ∃ f g, p.functions[n]? = some f ∧ q.functions[n]? = some g ∧ f.code.size = g.code.size +
          (2 * r.body.foldedCount Tree.isBinary + r.body.foldedCount Tree.isUnary) := by
  have hrs := builtProgram_of_buildTrees h
  have hrs' := builtProgram_of_buildTrees h'
  have hmap := routines_of_buildTrees h h'
  refine ⟨by rw [hmap, List.length_map], fun n r r' hr hr' => ?_⟩
  obtain ⟨-, -, -, hb, -⟩ := hrs.routine n r hr
  obtain rfl : r.foldConstants.1 = r' := by simpa [hmap, hr] using hr'
  refine ⟨?_, fun options p q hp hq => ?_⟩
  · obtain ⟨hremoved, hlocals, -⟩ := removed_folded hb
    refine ⟨hremoved, hlocals, fun x => ?_⟩
    have hl := hb.removeSingleUses
    have hl' := hb.foldConstants.removeSingleUses
    rw [Tree.mem_mentions, Tree.mem_mentions, ← List.count_pos_iff, ← List.count_pos_iff,
      ← List.count_pos_iff, ← List.count_pos_iff, ← hl.uses, ← hl'.uses, ← hl.assignments,
      ← hl'.assignments, hlocals]
  · have hfs := generated_of_compileTrees hrs hp
    have hgs := generated_of_compileTrees hrs' hq
    rw [hmap, List.forall₂_map_left_iff] at hgs
    obtain ⟨hn, rfl⟩ := List.getElem?_eq_some_iff.mp hr
    have hf : n < p.functions.size := lt_of_lt_of_eq hn hfs.length_eq
    have hg : n < q.functions.size := lt_of_lt_of_eq hn hgs.length_eq
    refine ⟨_, _, Array.getElem?_eq_getElem hf, Array.getElem?_eq_getElem hg, ?_⟩
    have hs := (removed_folded hb).2.2
    exact (hfs.get hn hf).code.length_shortened (hgs.get hn hg).code hs hb.removeSingleUses.bare
      hb.foldConstants.removeSingleUses.bare

end

end Bytecode

/-! ## A local that is used once -/

namespace Mixed

/-- `a := 2 * 3 return -a + -1` -/
def body : List Surface.Stmt := [
  .assign "a" (.binary .mul (.literal (.int 2) default) (.literal (.int 3) default) default)
    default,
  .ret (some (.binary .add (.unary .neg (.name "a" default) default)
    (.unary .neg (.literal (.int 1) default) default) default)) default]

def program : Surface.Module := .ofFunctions [Branching.functionOf body]

def routine : Routine where
  id := 0
  fullName := "main.main"
  locals := #[
    { name := "$result", ty := .int },
    { name := "a", ty := .int, assignments := 1, uses := 1 }]
  paramCount := 0
  body := .seq { ty := .void } [
    .binary { ty := .int, store := some 1 } .mul (.const { ty := .int } (.int 2))
      (.const { ty := .int } (.int 3)),
    .retValue { ty := .void } (.binary { ty := .int } .add
      (.unary { ty := .int } .neg (.load { ty := .int } 1))
      (.unary { ty := .int } .neg (.const { ty := .int } (.int 1))))]

open Build.Evaluated in
theorem buildRoutine_body :
    buildRoutine (Branching.symbolsOf body) "main" (Branching.functionOf body) =
        (.ok routine, []) := by
  have ha : foldName "a" = "a" ∧ "a".contains '.' = false := ⟨by decide +kernel, by cbv⟩
  have hadd : Intrinsic.add.check [.int, .int] = .ok .int := rfl
  have hmul : Intrinsic.mul.check [.int, .int] = .ok .int := rfl
  have hneg : Intrinsic.neg.check [.int] = .ok .int := rfl
  have hfull : fullName "main" "main" = "main.main" := by decide +kernel
  unfold buildRoutine
  simp only [Symbols.function?_alone]
  simp [body, routine, Branching.functionOf, functionSymbol, hfull, foldName_main, ha, hadd, hmul,
    hneg, Symbols.resolveConstant?_alone]

def trees (optimize : Bool) : TreeProgram where
  symbols := Branching.symbolsOf body
  routines := [if optimize then routine.foldConstants.1 else routine]

theorem buildTrees_program (optimize : Bool) :
    buildTrees optimize [program] = (.ok (trees optimize), []) := by
  have hcollect : Symbols.collect [program] = .ok (Branching.symbolsOf body) := by cbv
  have hroutines : buildRoutines (Branching.symbolsOf body) [program] = (.ok [routine], []) := by
    simp [buildRoutines, functionsOf, program, buildRoutines.go, buildRoutine_body]
  cases optimize <;> simp [buildTrees, trees, hcollect, hroutines]

/-- The number of instructions of the first function. -/
def firstSize : Except CompileError Artifact → Option Nat
  | .ok (.bytecode p) => p.functions[0]?.map (·.code.size)
  | _ => none

theorem compileTrees_program (optimize : Bool) :
    ∃ p, compileTrees {} [program] (trees optimize) = .ok (.bytecode p) ∧
      p.functions[0]?.map (·.code.size) = some (if optimize then 5 else 8) := by
  have h : firstSize (compileTrees {} [program] (trees optimize)) =
      some (if optimize then 5 else 8) := by
    cases optimize <;> cbv
  unfold firstSize at h
  split at h
  · next p hp => exact ⟨p, hp, h⟩
  · cases h

end Mixed

namespace Bytecode

/-- A product folds and a negated number does, and the local of the product is removed in both
programs: eight instructions become five. -/
theorem folding_shortens_code_mixed :
    ∃ p q f g, compileTrees {} [Mixed.program] (Mixed.trees false) = .ok (.bytecode p) ∧
      compileTrees {} [Mixed.program] (Mixed.trees true) = .ok (.bytecode q) ∧
      p.functions[0]? = some f ∧ q.functions[0]? = some g ∧ f.code.size = 8 ∧ g.code.size = 5 ∧
      Mixed.routine.foldConstants.1.removeSingleUses.2 = 1 := by
  obtain ⟨p, hp, hsize⟩ := Mixed.compileTrees_program false
  obtain ⟨q, hq, -⟩ := Mixed.compileTrees_program true
  have hbinary : Mixed.routine.body.foldedCount Tree.isBinary = 1 := by cbv
  have hunary : Mixed.routine.body.foldedCount Tree.isUnary = 1 := by cbv
  have hremoved : Mixed.routine.removeSingleUses.2 = 1 := by cbv
  obtain ⟨hsame, hsizes⟩ := (folding_shortens_code (Mixed.buildTrees_program false)
    (Mixed.buildTrees_program true)).2 0 Mixed.routine _ rfl rfl
  obtain ⟨f, g, hf, hg, hshorter⟩ := hsizes {} p q hp hq
  rw [hf] at hsize
  have hlong : f.code.size = 8 := Option.some.inj hsize
  exact ⟨p, q, f, g, hp, hq, hf, hg, hlong, by omega, hsame.1.trans hremoved⟩

end Bytecode

end Codewright
