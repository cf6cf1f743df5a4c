import Codewright.Proofs.Bytecode.Assembly
import Codewright.Proofs.Bytecode.Simulation
import Codewright.Proofs.ShortestDecimals
import Codewright.Proofs.SingleUseRuns

/-!
# Emitted code means what its tree means

The machine follows the evaluation of a tree over places; that is like the evaluation over separate
locals, and single uses can be removed without a difference. So the machine does what the tree of
the function says: it comes to the same end after the same events, or goes on for ever as the tree
does (`Mirrors`).

A constant is found through the pool under its name. Since different numbers have different names,
it is the constant itself, or one that is not a number stands for another that is not a number
either.
-/

namespace Codewright

namespace Evaluation

open Steps

section

variable {V E M : Type} {I : Interpretation V E} {K : Keeping V M} {fuel : Nat}

theorem runAll_ne_ok {ts : List Tree} {t : Tree} (ht : t ∈ ts)
    (h : ∀ run a run', eval I K fuel t run ≠ .ok a run') {run run' : Run V E M} :
    runAll I K fuel ts run ≠ .ok () run' := by
  induction ts generalizing run with
  | nil => cases ht
  | cons u rest ih =>
    rw [runAll_cons]
    intro heq
    obtain ⟨a, run₁, hu, hrest⟩ := bind_eq_ok.mp heq
    rcases List.mem_cons.mp ht with rfl | ht
    · exact h run a run₁ hu
    · exact ih ht hrest

theorem eval_ne_ok {t : Tree} (h : t.returns = true) (run : Run V E M) (a : Option V)
    (run' : Run V E M) : eval I K fuel t run ≠ .ok a run' := by
  induction t using Tree.induction generalizing run a run' with
  | const | load | failFast | ifThen | loop => cases h
  | operator t f hf _ =>
    rw [Tree.returns_operator hf] at h
    cases h
  | seq tag body ih =>
    obtain ⟨t, ht, hreturns⟩ := Tree.anyReturns_iff.mp h
    rw [eval_seq]
    intro heq
    obtain ⟨_, run₁, hbody, -⟩ := bind_eq_ok.mp heq
    exact runAll_ne_ok ht (ih t ht hreturns) hbody
  | ifElse tag c y n _ ihy ihn =>
    have h : y.returns = true ∧ n.returns = true := Bool.and_eq_true_iff.mp h
    rw [eval_ifElse]
    intro heq
    obtain ⟨v, run₁, -, heq⟩ := bind_eq_ok.mp heq
    obtain ⟨b, run₂, -, heq⟩ := bind_eq_ok.mp heq
    cases b with
    | true =>
      obtain ⟨_, run₃, hy, -⟩ := bind_eq_ok.mp heq
      exact ihy h.1 _ _ _ hy
    | false =>
      obtain ⟨_, run₃, hn, -⟩ := bind_eq_ok.mp heq
      exact ihn h.2 _ _ _ hn
  | ret tag =>
    intro heq
    obtain ⟨_, _, hret, -⟩ := bind_eq_ok.mp heq
    cases hret
  | retValue tag v _ =>
    rw [eval_retValue]
    intro heq
    obtain ⟨_, _, -, hret⟩ := bind_eq_ok.mp heq
    cases hret

end

end Evaluation

namespace Bytecode

open Evaluation Steps

/-! ## Runs that mirror each other -/

/-- What can be seen of an evaluation: how it ended, and the events. One that is cut off would go
on, and one that comes to the end of its tree has not returned. -/
def observed {V E M α : Type} : EStateM.Result (Stop V) (Run V E M) α → Outcome V × List E
  | .ok _ run => (.stuck, run.events)
  | .error (.returned value) run => (.returned value, run.events)
  | .error .failed run => (.failed, run.events)
  | .error .exhausted run => (.running, run.events)

/-- Two ways to run, each with a bound, come to the same: they end the same way after the same
events, or neither ends and the events are the same as far as one looks. -/
structure Mirrors {V E : Type} (x y : Nat → Outcome V × List E) : Prop where
  ends : ∀ outcome events, outcome ≠ .running →
    ((∃ n, x n = (outcome, events)) ↔ ∃ n, y n = (outcome, events))
  forward : ∀ n, ∃ m, (x n).2 <+: (y m).2
  backward : ∀ n, ∃ m, (y n).2 <+: (x m).2
  /-- Neither gets stuck. -/
  safe : ∀ n, (x n).1 ≠ .stuck ∧ (y n).1 ≠ .stuck

section

variable {V E : Type} {S : Surroundings V E} {f : Function} {s : State V E}

/-- What a run that has been followed shows is shown by the machine: at its end, or, if it was cut
off, after as many steps at least. -/
theorem observed_of_follows {α : Type} {least : Nat} {land : α → Run V E (Storage → V) → State V E}
    {result : EStateM.Result (Stop V) (Run V E (Storage → V)) α}
    (h : Follows S f least s land result) (hends : ∀ a r, result ≠ .ok a r) :
    (observed result).1 ≠ .stuck ∧ ∃ k,
      (observed result).1 = .running ∧ least ≤ k ∧ run S f k s = observed result ∨
      (observed result).1 ≠ .running ∧ Ends S f k s (observed result).1 (observed result).2 := by
  cases h with
  | ok k h => exact absurd rfl (hends _ _)
  | returned k h | failed k h => exact ⟨nofun, k, .inr ⟨nofun, h⟩⟩
  | @exhausted r s' k hk h he =>
    refine ⟨nofun, k, .inl ⟨rfl, hk, ?_⟩⟩
    rw [← Nat.add_zero k, h 0]
    exact congrArg (Prod.mk _) he

theorem mirrors_of_follows {α : Type} {land : α → Run V E (Storage → V) → State V E}
    {results : Nat → EStateM.Result (Stop V) (Run V E (Storage → V)) α}
    (h : ∀ fuel, Follows S f fuel s land (results fuel))
    (hends : ∀ fuel a r, results fuel ≠ .ok a r) :
    Mirrors (fun fuel => observed (results fuel)) fun n => run S f n s := by
  have hshown := fun fuel => observed_of_follows (h fuel) (hends fuel)
  -- an evaluation with a bound beyond `n` has ended if the machine has within `n` steps
  have hended : ∀ n, (run S f n s).1 ≠ .running → run S f n s = observed (results (n + 1)) := by
    intro n hn
    obtain ⟨-, k, ⟨hrunning, hle, hk⟩ | ⟨-, hk⟩⟩ := hshown (n + 1)
    · obtain ⟨m, rfl⟩ := Nat.exists_eq_add_of_le (Nat.le_of_succ_le hle)
      rw [(run_add n m s).2 hn] at hk
      rw [hk] at hn
      exact absurd hrunning hn
    · have hrun := hk n
      rw [Nat.add_comm, (run_add n k s).2 hn] at hrun
      exact hrun
  refine ⟨fun outcome events hne => ⟨?_, ?_⟩, fun n => ?_, fun n => ?_, fun n => ⟨(hshown n).1, ?_⟩⟩
  · rintro ⟨fuel, hfuel⟩
    obtain ⟨-, k, ⟨hrunning, -⟩ | ⟨-, hk⟩⟩ := hshown fuel
    · rw [hfuel] at hrunning
      exact absurd hrunning hne
    · exact ⟨k, (hk 0).trans hfuel⟩
  · rintro ⟨n, hn⟩
    refine ⟨n + 1, ?_⟩
    rw [← hended n (by rw [hn]; exact hne), hn]
  · obtain ⟨-, k, ⟨-, -, hk⟩ | ⟨-, hk⟩⟩ := hshown n
    · exact ⟨k, by rw [hk]⟩
    · exact ⟨k + 0, by rw [hk 0]⟩
  · refine ⟨n, ?_⟩
    obtain ⟨-, k, ⟨-, hle, hk⟩ | ⟨-, hk⟩⟩ := hshown n
    · obtain ⟨m, rfl⟩ := Nat.exists_eq_add_of_le hle
      rw [← hk]
      exact (run_add n m s).1
    · have hlast := (run_add (S := S) (f := f) n k s).1
      rwa [Nat.add_comm, hk n] at hlast
  · intro hstuck
    refine (hshown (n + 1)).1 ?_
    rw [← hended n (by rw [hstuck]; exact nofun), hstuck]

end

/-! ## Constants -/

/-- The constant that a pool has for a value. -/
def ConstantPool.standIn (pool : ConstantPool) (v : Value) : Value :=
  ((pool.entries.find? fun c => c.value.poolName == v.poolName).map (·.value)).getD v

namespace ConstantPool

variable {pool : ConstantPool}

theorem Sound.eq_of_poolName (h : pool.Sound) {k k' : Nat} {c c' : Constant}
    (hc : pool.entries[k]? = some c) (hc' : pool.entries[k']? = some c')
    (hname : c.value.poolName = c'.value.poolName) : c = c' := by
  have hnamed : ∀ {k : Nat} {c : Constant}, pool.entries[k]? = some c → c.name = c.value.poolName :=
    fun hc => h.named _ (Array.mem_toList_iff.mpr (Array.mem_of_getElem? hc))
  obtain ⟨n, hn, hk⟩ := h.listed k c hc
  obtain ⟨n', hn', hk'⟩ := h.listed k' c' hc'
  rw [hnamed hc, hname, ← hnamed hc', hn'] at hn
  obtain rfl := Option.some.inj hn
  obtain rfl : k = k' := by exact_mod_cast hk.symm.trans hk'
  exact Option.some.inj (hc.symm.trans hc')

theorem Sound.standIn_eq (h : pool.Sound) {k : Nat} {c : Constant} {v : Value}
    (hc : pool.entries[k]? = some c) (hname : c.value.poolName = v.poolName) :
    pool.standIn v = c.value := by
  unfold standIn
  cases hfind : pool.entries.find? fun c => c.value.poolName == v.poolName with
  | none =>
    have := Array.find?_eq_none.mp hfind c (Array.mem_of_getElem? hc)
    simp [hname] at this
  | some c' =>
    obtain ⟨k', hk'⟩ := Array.getElem?_of_mem (Array.mem_of_find?_eq_some hfind)
    have hname' : c'.value.poolName = v.poolName := by simpa using Array.find?_some hfind
    rw [h.eq_of_poolName hc hk' (hname.trans hname'.symm)]
    rfl

/-- A constant stands for itself, or for another that is not a number either. -/
theorem standIn_spec (pool : ConstantPool) (v : Value) :
    pool.standIn v = v ∨ v.IsNaN ∧ (pool.standIn v).IsNaN := by
  unfold standIn
  cases hfind : pool.entries.find? fun c => c.value.poolName == v.poolName with
  | none => exact .inl rfl
  | some c =>
    have hname : c.value.poolName = v.poolName := by simpa using Array.find?_some hfind
    exact (Value.eq_of_poolName hname).imp_right And.symm

end ConstantPool

/-! ## Functions of a program in the making -/

/-- An assembler to which routines have been added, some of them perhaps without success. -/
def Assembler.Later : Assembler → Assembler → Prop :=
  Relation.ReflTransGen fun a a' => ∃ r, a' = (a.add r).2

namespace Assembler

theorem grows_add (a : Assembler) (r : Routine) (ha : a.constants.Sound) :
    a.constants.Grows (a.add r).2.constants := by
  have hspec := a.add_spec r ha
  generalize a.add r = outcome at hspec
  obtain ⟨answer, a'⟩ := outcome
  cases answer with
  | ok _ => exact hspec.1
  | error e => exact hspec.1

theorem Later.grows {a a' : Assembler} (h : Later a a') (ha : a.constants.Sound) :
    a.constants.Grows a'.constants := by
  induction h with
  | refl => exact .refl ha
  | tail _ hadd ih =>
    obtain ⟨r, rfl⟩ := hadd
    exact ih.trans (grows_add _ r ih.sound)

theorem getElem?_setFunction (a : Assembler) (n : Nat) (f : Function) :
    (a.setFunction n f).functions[n]? = some (some f) := by
  unfold setFunction
  dsimp only
  rw [Array.getElem?_setIfInBounds_self_of_lt]
  rw [Array.size_append, Array.size_replicate]
  omega

end Assembler

/-! ## The whole function -/

section

variable {V E : Type} {symbols : Symbols} {fs : List (String × Surface.Function)} {r : Routine}
  {f : Function} {pool : ConstantPool}

/-- The function of a built routine finds all that its code takes for granted. -/
theorem serves_of_generated (hlists : symbols.Lists fs) (hpool : pool.Sound)
    (hf : Generated pool.entries r f) (I : Interpretation V E) :
    Serves ⟨I, pool.entries, symbols.functions⟩ pool.standIn f
      ⟨Target.bytecode.place r.removeSingleUses.1, pool.entries⟩
      (r.removeSingleUses.1.typing symbols).strict where
  constant := by
    rintro value n ⟨k, hk, c, hc, hname⟩
    exact ⟨k, hk, c, hc, (hpool.standIn_eq hc hname).symm⟩
  slot := fun hplace => hf.slot_lt hplace
  callees := by
    rintro n params result ⟨⟨full, g, hg, rfl, rfl, rfl⟩, -⟩
    simp only [Surroundings.callee?, hlists.place_of_function? hg, Option.map_some]
  result := hf.result.trans (Routine.localType_congr (r.declared_removeSingleUses 0)).symm

/-- The tree of a routine asks only for callees that take values. -/
theorem plainStmt_of_calls (hb : r.Built symbols) (hparams : ∀ ty ∈ r.paramTypes, ty.isValue = true)
    (hcalls : ∀ tag callee args, .call tag callee args ∈ r.body.nodes →
      ∀ a ∈ args, a.ty.isValue = true) :
    PlainStmt (r.removeSingleUses.1.typing symbols).strict r.removeSingleUses.1.body := by
  have hlocals : r.removeSingleUses.1.typing symbols = r.typing symbols := by
    simp only [Routine.typing, Routine.result, funext fun x =>
      Routine.localType_congr (r.declared_removeSingleUses x)]
  refine plainStmt_removeSingleUses hb (fun x hx =>
    hparams _ (hb.arranged.localType_mem_paramTypes hx))
    (hb.typed_removeSingleUses ?_) rfl fun n params result h => h.2
  rw [hlocals]
  exact (hb.typed _ (r.fits_typing symbols) rfl).strict hcalls

theorem observed_of_alike {M₁ M₂ α : Type} {Q : α → Run V E M₁ → Run V E M₂ → Prop}
    {F : Run V E M₁ → Run V E M₂ → Prop} {a b} (h : Alike Q F a b)
    (hQ : ∀ v r₁ r₂, Q v r₁ r₂ → r₁.events = r₂.events)
    (hF : ∀ r₁ r₂, F r₁ r₂ → r₁.events = r₂.events) : observed a = observed b := by
  cases h with
  | ok h => exact congrArg (Prod.mk _) (hQ _ _ _ h)
  | @error e r₁ r₂ h => cases e <;> exact congrArg (Prod.mk _) (hF _ _ h)

/-- The memory of places that holds the slots; there are no other places. -/
def cellsOf (slots : Nat → V) : Storage → V
  | .stack n => slots n
  | _ => slots 0

/-- The machine mirrors the tree of a routine, from all memories in which the slots hold the
arguments. -/
theorem mirrors_of_generated (hlists : symbols.Lists fs) (hb : r.Built symbols)
    (hparams : ∀ ty ∈ r.paramTypes, ty.isValue = true)
    (hcalls : ∀ tag callee args, .call tag callee args ∈ r.body.nodes →
      ∀ a ∈ args, a.ty.isValue = true)
    (hpool : pool.Sound) (hf : Generated pool.entries r f) (I : Interpretation V E)
    {slots : Nat → V}
    {values : LocalId → V} (hargs : ∀ k < r.paramCount, slots k = values (k + 1)) :
    Mirrors
      (fun fuel =>
        observed (eval (I.replaced pool.standIn) separate fuel r.body { memory := values }))
      fun n => run ⟨I, pool.entries, symbols.functions⟩ f n { slots } := by
  have hb' := hb.removeSingleUses
  let place := Target.bytecode.place r.removeSingleUses.1
  let cells := cellsOf slots
  have hcells : ∀ x ∈ r.removeSingleUses.1.parameters, cells (place x) = values x := by
    intro x hx
    obtain ⟨k, hk, rfl⟩ := hb'.arranged.mem_parameters_iff.mp hx
    rw [show place (k + 1) = .stack k from place_parameter_eq_slot hb'.arranged hk]
    exact hargs k hk
  have hsame : ∀ fuel,
      observed (eval (I.replaced pool.standIn) separate fuel r.body { memory := values }) =
        observed (eval (I.replaced pool.standIn) (placed place) fuel r.removeSingleUses.1.body
          { memory := cells }) := by
    intro fuel
    refine (observed_of_alike (hb.eval_removeSingleUses fuel _) (fun _ _ _ h => h) fun _ _ h =>
      h).trans ?_
    exact observed_of_alike
      (hb'.toWellScoped.alike_on_places (Target.bytecode.layout hb'.toWellScoped) _ fuel hcells)
      (fun _ _ _ h => h.events) fun _ _ h => h.events
  have hstands : Stands f 0 f.code.toList := by
    intro k i hi
    rwa [Nat.zero_add, ← Array.getElem?_toList]
  have hfollows : ∀ fuel, Follows _ f fuel (stateAt 0 [] { memory := cells })
      (fun _ r' => stateAt (0 + f.code.toList.length) [] r')
      (eval (I.replaced pool.standIn) (placed place) fuel r.removeSingleUses.1.body
        { memory := cells }) := fun fuel =>
    follows_statement (serves_of_generated hlists hpool hf I) (plainStmt_of_calls hb hparams hcalls)
      hf.code hstands
  simp only [hsame]
  exact mirrors_of_follows hfollows fun fuel a r => eval_ne_ok hb'.returns _ a r

end

/-- Code means what its tree means. Take a function that has been built and perhaps folded, with
parameters that are all values and calls that hand on values only, and add it to a program in the
making. However the program is gone on with, whatever operations mean and with whatever arguments in
the first slots and anything in the others, the machine mirrors the evaluation of the function's
tree. The constants are those of the tree, except that one that is not a number may stand for
another. -/
theorem code_mirrors_tree {modules : List Surface.Module} {symbols : Symbols} {moduleName : String}
    {d : Surface.Function} {r₀ r : Routine} {spans : List Source.Span} {a a' last : Assembler}
    (hs : Symbols.collect modules = .ok symbols)
    (hbuild : buildRoutine symbols moduleName d = (.ok r₀, spans))
    (hfold : r = r₀ ∨ r = r₀.foldConstants.1) (hparams : ∀ ty ∈ r.paramTypes, ty.isValue = true)
    (hcalls : ∀ tag callee args, .call tag callee args ∈ r.body.nodes →
      ∀ a ∈ args, a.ty.isValue = true)
    (ha : Assembler.Later {} a) (hadd : a.add r = (.ok (), a')) (hlast : a'.Later last) :
    ∃ f, a'.functions[r.id]? = some (some f) ∧
      ∃ standIn : Value → Value, (∀ v, standIn v = v ∨ v.IsNaN ∧ (standIn v).IsNaN) ∧
        ∀ (V E : Type) (I : Interpretation V E) (slots : Nat → V) (values : LocalId → V),
          (∀ k < r.paramCount, slots k = values (k + 1)) →
          Mirrors
            (fun fuel =>
              observed (eval (I.replaced standIn) separate fuel r.body { memory := values }))
            fun n => run ⟨I, last.constants.entries, symbols.functions⟩ f n { slots } := by
  have hb : r.Built symbols := by
    have hb₀ := built_of_buildRoutine hbuild
    rcases hfold with rfl | rfl
    · exact hb₀
    · exact hb₀.foldConstants
  have hsound := (ha.grows ConstantPool.sound_empty).sound
  have hspec := a.add_spec r hsound
  rw [hadd] at hspec
  obtain ⟨hgrows, f, hfunctions, hgenerated⟩ := hspec
  have hlater := hlast.grows hgrows.sound
  refine ⟨f, ?_, last.constants.standIn, last.constants.standIn_spec,
    fun V E I slots values hargs => ?_⟩
  · rw [hfunctions, Assembler.getElem?_setFunction]
  · exact mirrors_of_generated (Symbols.lists_of_collect hs) hb hparams hcalls hlater.sound
      (hgenerated _ hlater.kept) I hargs

/-- The code of a function that adds up the numbers below its argument does so. -/
theorem code_mirrors_tree_descending :
    (({} : Assembler).add Descending.routine).1 = .ok () ∧
      ∃ f, (({} : Assembler).add Descending.routine).2.functions[0]? = some (some f) ∧
        ∃ standIn : Value → Value, (∀ v, standIn v = v ∨ v.IsNaN ∧ (standIn v).IsNaN) ∧
          ∀ (V E : Type) (I : Interpretation V E) (slots : Nat → V) (values : LocalId → V),
            (∀ k < 1, slots k = values (k + 1)) →
            Mirrors
              (fun fuel => observed (eval (I.replaced standIn) separate fuel Descending.routine.body
                { memory := values }))
              fun n => run ⟨I, (({} : Assembler).add Descending.routine).2.constants.entries,
                Descending.programSymbols.functions⟩ f n { slots } := by
  have hadd : (({} : Assembler).add Descending.routine).1 = .ok () := by cbv
  refine ⟨hadd, ?_⟩
  exact code_mirrors_tree Descending.collect_program
    (Descending.buildRoutine_function_of Descending.function?_programSymbols
      Descending.resolveConstant?_programSymbols)
    (.inl rfl) (by decide) (by simp [Descending.routine, Tree.nodes, Tree.nodesAll]) .refl
    (Prod.ext hadd rfl) .refl

end Bytecode

/-! ## A call for which nothing is on the stack -/

namespace Starved

/-- `void g(void x) begin end`. -/
def callee : Surface.Function where
  name := "g"
  isPublic := false
  result := .void
  params := [⟨"x", .void, default⟩]
  body := { body := [], span := default }
  span := default

/-- `int main() begin g(print(1)); return 1 end`. -/
def function : Surface.Function where
  name := "main"
  isPublic := false
  result := .int
  params := []
  body := {
    body := [
      .expr (.call "g" [.call "print" [.literal (.int 1) default] default] default),
      .ret (some (.literal (.int 1) default)) default]
    span := default }
  span := default

def program : Surface.Module := .ofFunctions [callee, function]

def symbols : Symbols where
  modules := #[{ name := "main", imports := [], span := default }]
  functions := #[functionSymbol 0 "main" callee, functionSymbol 1 "main" function]
  index := ((∅ : Std.HashMap String Nat).insert "main.g" 0).insert "main.main" 1

def routine : Routine where
  id := 1
  fullName := "main.main"
  locals := #[{ name := "$result", ty := .int }]
  paramCount := 0
  body := .seq { ty := .void } [
    .call { ty := .void } 0 [.print { ty := .void } [.const { ty := .int } (.int 1)]],
    .retValue { ty := .void } (.const { ty := .int } (.int 1))]

theorem collect_program : Symbols.collect [program] = .ok symbols := by cbv

open Build.Evaluated in
theorem buildRoutine_function : buildRoutine symbols "main" function = (.ok routine, []) := by
  have hfold : foldName "g" = "g" ∧ foldName "print" = "print" :=
    ⟨by decide +kernel, by decide +kernel⟩
  have hname : Intrinsic.ofName? "g" = none ∧ Intrinsic.ofName? "print" = some .print :=
    ⟨by decide +kernel, by decide +kernel⟩
  have hfull : fullName "main" "main" = "main.main" := by decide +kernel
  have hcheck : Intrinsic.print.check [.int] = .ok .void := rfl
  have hlists := Symbols.lists_of_collect collect_program
  have hcallee := hlists.function?_eq (n := 0) (m := "main") (f := callee) rfl
  have hmain := hlists.function?_eq (n := 1) (m := "main") (f := function) rfl
  have hg : symbols.resolveFunction? "main" "g" = some (functionSymbol 0 "main" callee) := by
    have hsplit : Symbols.splitQualifier? "g" = none := by cbv
    have hmodule : symbols.module? "main" = some symbols.modules[0] := rfl
    simp only [Symbols.resolveFunction?, Symbols.resolve?, hmodule, hsplit]
    rw [show "main" ++ "." ++ "g" = fullName "main" callee.name by decide +kernel, hcallee]
  unfold buildRoutine
  simp only [hmain]
  simp [function, routine, functionSymbol, hfull, hg, callee, foldName_main, hfold, hname,
    hcheck]

open Bytecode Evaluation

/-- All operations succeed and are told as events. -/
def told : Interpretation Unit Operation where
  constant _ := ()
  perform _ o _ := ([o], some ())
  truth _ _ := ([], true)

/-- The call is to take a value where the print before it has left none: the tree returns, and the
machine is stuck when it has printed. -/
theorem void_argument_not_mirrored : Symbols.collect [program] = .ok symbols ∧
    buildRoutine symbols "main" function = (.ok routine, []) ∧
      (∀ ty ∈ routine.paramTypes, ty.isValue = true) ∧
    ∃ a f, ({} : Assembler).add routine = (.ok (), a) ∧ a.functions[1]? = some (some f) ∧
      (∀ standIn,
        observed (eval (told.replaced standIn) separate 0 routine.body { memory := fun _ => () }) =
        (.returned (some ()), [.intrinsic .print, .routine 0])) ∧
      run ⟨told, a.constants.entries, symbols.functions⟩ f 3 { slots := fun _ => () } =
        (.stuck, [.intrinsic .print]) := by
  have hadd : (({} : Assembler).add routine).1 = .ok () := by cbv
  refine ⟨collect_program, buildRoutine_function, by decide, _,
    ⟨"main.main", .int, 0, #[], #[⟨.pushConst, 0⟩, ⟨.intrinsic 1, 24⟩, ⟨.call, 0⟩, ⟨.pushConst, 0⟩,
      ⟨.ret, 0⟩]⟩,
    Prod.ext hadd rfl, ?_, ?_, ?_⟩
  · cbv
  · intro standIn
    rfl
  · cbv

end Starved

end Codewright
