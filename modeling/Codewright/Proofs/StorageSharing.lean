import Codewright.Compile
import Codewright.Proofs.Bytecode.Slots
import Codewright.Proofs.FoldedRoutine
import Codewright.Proofs.Native.InPlace
import Codewright.Proofs.Native.Registers
import Codewright.Proofs.SharedPlaces

/-!
# Storage is shared soundly

The allocator knows of a tree only the intervals of its locals. That these are enough is the work of
three parts: built routines are scoped, and the passes before the allocation keep them so; the
intervals of a scoped routine chart its body; and the allocator gives locals with overlapping
intervals different places. Together, a run over the places is like a run over separate locals
(`runs_alike_on_places`).
-/

namespace Codewright

open Evaluation Bytecode Native

/-! ## Places for a scoped routine -/

namespace Routine

variable {r : Routine}

theorem declared_computeIntervals (r : Routine) (x : LocalId) :
    declared r.computeIntervals.locals x = declared r.locals x := by
  rw [declared, getElem?_computeIntervals, Option.map_map]
  rfl

theorem storageOf_computeIntervals (r : Routine) (x : LocalId) :
    storageOf r.computeIntervals.locals x = .unassigned := by
  rw [storageOf, getElem?_computeIntervals]
  cases r.locals[x]? <;> rfl

theorem size_computeIntervals (r : Routine) : r.computeIntervals.locals.size = r.locals.size :=
  le_antisymm (Extended.of_declared fun x => (r.declared_computeIntervals x).symm).size_le
    (Extended.of_declared fun x => r.declared_computeIntervals x).size_le

theorem length_paramTypes (h : r.paramCount < r.locals.size) :
    r.paramTypes.length = r.paramCount := by
  simp [paramTypes, params]
  omega

theorem getElem?_paramTypes (r : Routine) (k : Nat) : r.paramTypes[k]? =
    if k < r.paramCount then (declared r.locals (k + 1)).map Prod.fst else none := by
  rw [paramTypes, params, List.getElem?_map, List.getElem?_take, List.getElem?_drop, declared,
    Array.getElem?_toList, Nat.add_comm 1 k, Option.map_map]
  split <;> rfl

theorem paramTypes_computeIntervals (r : Routine) :
    r.computeIntervals.paramTypes = r.paramTypes := by
  refine List.ext_getElem? fun k => ?_
  rw [getElem?_paramTypes, getElem?_paramTypes, declared_computeIntervals]
  rfl

theorem Arranged.countP_parameters_le (h : r.Arranged) :
    ((allocationOrder r.computeIntervals.locals).countP
      fun e => (declared r.computeIntervals.locals e.1).any (·.2)) ≤ r.paramCount := by
  set order := allocationOrder r.computeIntervals.locals
  set isParam := fun e : LocalId × Interval => (declared r.computeIntervals.locals e.1).any (·.2)
  have hnodup : ((order.filter isParam).map Prod.fst).Nodup :=
    (allocationOrder_nodup _).sublist (List.filter_sublist.map _)
  have hsub : (order.filter isParam).map Prod.fst ⊆ List.range' 1 r.paramCount := by
    intro x hx
    obtain ⟨e, he, rfl⟩ := List.mem_map.mp hx
    have hany : (declared r.computeIntervals.locals e.1).any (·.2) = true :=
      (List.mem_filter.mp he).2
    rw [declared_computeIntervals, Option.any_eq_true] at hany
    obtain ⟨⟨ty, p⟩, hd, rfl⟩ := hany
    have hparam := (h.params e.1).mp (mem_parameters.mpr ⟨ty, hd⟩)
    exact List.mem_range'_1.mpr ⟨hparam.1, by rw [Nat.add_comm]; exact Nat.lt_succ_of_le hparam.2⟩
  have hle := (List.subperm_of_subset hnodup hsub).length_le
  rwa [List.length_map, List.length_range', ← List.countP_eq_length_filter] at hle

/-- Where the locals of a routine may live, once a target has placed them. -/
theorem Arranged.layout (h : r.Arranged) {σ : Type} {src : LocationSource σ} {start : σ}
    {Fit : σ → Set Storage → Set Storage → Nat → Prop} (hsrc : src.Lawful Fit)
    (hstart : ∀ n ≤ r.paramCount, Fit start ∅ ∅ n) :
    Layout (declared r.locals) r.computedInterval
      (storageOf (r.computeIntervals.allocate src start).1.locals) where
  toSharing := by
    have hsharing := allocate_sharing hsrc r.storageOf_computeIntervals
      (hstart _ h.countP_parameters_le)
    rwa [show declared r.computeIntervals.locals = declared r.locals from
      funext r.declared_computeIntervals] at hsharing
  early := by
    rintro x i ⟨ty, hd⟩ hi
    obtain ⟨j, hj, hfirst⟩ := computedInterval_parameter (mem_parameters.mpr ⟨ty, hd⟩)
    obtain rfl := Option.some.inj (hi.symm.trans hj)
    omega

theorem standing (r : Routine) : Standing r.computedInterval r.parameters ∅ 0 r.body.points := by
  refine ⟨fun x hx => ?_, fun x hx => hx.elim⟩
  obtain ⟨i, hi, hfirst⟩ := computedInterval_parameter hx
  exact ⟨i, hi, by omega⟩

/-- A run over the places of a scoped routine is like a run over separate locals. -/
theorem WellScoped.alike_on_places {V E : Type} (h : r.WellScoped) {place : LocalId → Storage}
    (hl : Layout (declared r.locals) r.computedInterval place) (I : Interpretation V E) (fuel : Nat)
    {values : LocalId → V} {cells : Storage → V}
    (hcells : ∀ x ∈ r.parameters, cells (place x) = values x) :
    Alike (fun _ => SameTrace) SameTrace (eval I separate fuel r.body { memory := values })
      (eval I (placed place) fuel r.body { memory := cells }) := by
  have hsim := stmtAgrees hl I fuel r.body r.parameters r.parameters ∅ 0 r.body.points h.inScope
    (charted h) r.standing (by omega)
  refine (hsim { memory := values } { memory := cells } ⟨⟨rfl, rfl⟩, fun x hx => ?_⟩).mono
    (fun _ _ _ h => h.toSameTrace) fun _ _ h => h
  exact hcells x hx.1

theorem place_parameter {place : LocalId → Storage}
    (hl : Layout (declared r.locals) r.computedInterval place) {x : LocalId}
    (hx : x ∈ r.parameters) : place x ≠ .unassigned := by
  obtain ⟨i, hi, -⟩ := computedInterval_parameter hx
  exact (hl.placed x i hi).mpr (.inr (mem_parameters.mp hx))

theorem parameters_apart {place : LocalId → Storage}
    (hl : Layout (declared r.locals) r.computedInterval place) {x y : LocalId}
    (hx : x ∈ r.parameters) (hy : y ∈ r.parameters) (hxy : x ≠ y) : place x ≠ place y := by
  obtain ⟨i, hi, -⟩ := computedInterval_parameter hx
  obtain ⟨j, hj, -⟩ := computedInterval_parameter hy
  exact hl.parameters x y hxy (by simp [hi]) (by simp [hj]) (mem_parameters.mp hx)
    (mem_parameters.mp hy)

end Routine

/-! ## Passes and targets -/

/-- The passes that may come before the allocation, each of which may be left out. -/
structure Passes where
  foldConstants : Bool
  removeSingleUses : Bool
  toInPlace : Bool

/-- The routine after the passes, which come in this order. -/
def Passes.run (p : Passes) (r : Routine) : Routine :=
  let r := if p.foldConstants then r.foldConstants.1 else r
  let r := if p.removeSingleUses then r.removeSingleUses.1 else r
  if p.toInPlace then r.toInPlace.1 else r

theorem Passes.wellScoped_run (p : Passes) {symbols : Symbols} {r : Routine}
    (h : r.Built symbols) : (p.run r).WellScoped := by
  have hfold : (if p.foldConstants then r.foldConstants.1 else r).Built symbols := by
    split
    · exact h.foldConstants
    · exact h
  generalize hr₁ : (if p.foldConstants then r.foldConstants.1 else r) = r₁ at hfold
  have hsingle : (if p.removeSingleUses then r₁.removeSingleUses.1 else r₁).Built symbols := by
    split
    · exact hfold.removeSingleUses
    · exact hfold
  simp only [Passes.run, hr₁]
  split
  · exact hsingle.toWellScoped.toInPlace
  · exact hsingle.toWellScoped

/-- Where the locals of a routine live after an allocation that begins afresh. -/
def Target.place (target : Target) (r : Routine) : LocalId → Storage :=
  match target with
  | .bytecode => storageOf (r.computeIntervals.allocate SlotPool.source {}).1.locals
  | .x64 =>
    storageOf (r.computeIntervals.allocate RegisterFile.source (.ofParams r.paramTypes)).1.locals

/-- The registers at the start fit the parameters of a routine. -/
theorem Routine.Arranged.fits_ofParams {r : Routine} {n : Nat} (h : r.Arranged)
    (hn : n ≤ r.paramCount) : RegisterFile.Fits (.ofParams r.paramTypes) ∅ ∅ n :=
  .ofParams (hn.trans (Routine.length_paramTypes h.paramCount_lt).ge)

theorem Target.layout_of_arranged (target : Target) {r : Routine} (h : r.Arranged) :
    Layout (declared r.locals) r.computedInterval (target.place r) := by
  cases target with
  | bytecode => exact h.layout SlotPool.lawful fun n _ => .empty n
  | x64 => exact h.layout RegisterFile.lawful fun _ => h.fits_ofParams

theorem Target.layout (target : Target) {r : Routine} (h : r.WellScoped) :
    Layout (declared r.locals) r.computedInterval (target.place r) :=
  target.layout_of_arranged h.arranged

/-- Storage is shared soundly. Whatever passes come before the allocation and whichever target it is
for, the parameters of a built routine get places of their own; and once they hold the arguments, a
run over the places meets the events of a run over separate locals, gets the same values from its
loads and ends the same way. -/
theorem runs_alike_on_places {symbols : Symbols} {moduleName : String}
    {f : Surface.Function} {r : Routine} {spans : List Source.Span}
    (h : buildRoutine symbols moduleName f = (.ok r, spans)) (passes : Passes) (target : Target) :
    let r' := passes.run r
    let place := target.place r'
    (∀ x ∈ r'.parameters, place x ≠ .unassigned ∧ ∀ y ∈ r'.parameters, x ≠ y → place x ≠ place y) ∧
    ∀ (V E : Type) (I : Interpretation V E) (fuel : Nat) (values : LocalId → V)
      (cells : Storage → V), (∀ x ∈ r'.parameters, cells (place x) = values x) →
      Alike (fun _ => SameTrace) SameTrace (eval I separate fuel r'.body { memory := values })
        (eval I (placed place) fuel r'.body { memory := cells }) := by
  intro r' place
  have hr' : r'.WellScoped := passes.wellScoped_run (built_of_buildRoutine h)
  have hl := target.layout hr'
  refine ⟨fun x hx => ⟨Routine.place_parameter hl hx, fun y hy => ?_⟩, ?_⟩
  · exact Routine.parameters_apart hl hx hy
  · intro V E I fuel values cells hcells
    exact hr'.alike_on_places hl I fuel hcells

/-! ## A loop with a parameter and a local -/

namespace Descending

open Surface in
/-- Adds up the numbers from `n` downwards. -/
def function : Surface.Function where
  name := "sum"
  isPublic := true
  result := .int
  params := [⟨"n", .int, default⟩]
  body := {
    body := [
      .assign "s" (.literal (.int 0) default) default,
      .loop (.binary .lt (.literal (.int 0) default) (.name "n" default) default)
        (.block [
          .assign "s" (.binary .add (.name "s" default) (.name "n" default) default) default,
          .assign "n" (.binary .sub (.name "n" default) (.literal (.int 1) default) default)
            default]
          default)
        default,
      .ret (some (.name "s" default)) default]
    span := default }
  span := default

abbrev symbols : Symbols := .alone function

def routine : Routine where
  id := 0
  fullName := "main.sum"
  locals := #[
    { name := "$result", ty := .int },
    { name := "n", ty := .int, assignments := 1, uses := 3, isParameter := true },
    { name := "s", ty := .int, assignments := 2, uses := 2 }]
  paramCount := 1
  body := .seq { ty := .void } [
    .const { ty := .int, store := some 2 } (.int 0),
    .loop { ty := .void }
      (.binary { ty := .bool } .lt (.const { ty := .int } (.int 0)) (.load { ty := .int } 1))
      (.seq { ty := .void } [
        .binary { ty := .int, store := some 2 } .add (.load { ty := .int } 2)
          (.load { ty := .int } 1),
        .binary { ty := .int, store := some 1 } .sub (.load { ty := .int } 1)
          (.const { ty := .int } (.int 1))]),
    .retValue { ty := .void } (.load { ty := .int } 2)]

open Build.Evaluated in
theorem buildRoutine_function_of {symbols : Symbols}
    (hf : symbols.function? (fullName "main" function.name) =
      some (functionSymbol 0 "main" function))
    (hconstants : ∀ name, symbols.resolveConstant? "main" name = none) :
    buildRoutine symbols "main" function = (.ok routine, []) := by
  have hfull : fullName "main" "sum" = "main.sum" := by decide +kernel
  have hn : foldName "n" = "n" ∧ "n".contains '.' = false := ⟨by decide +kernel, by cbv⟩
  have hs : foldName "s" = "s" ∧ "s".contains '.' = false := ⟨by decide +kernel, by cbv⟩
  have hlt : Intrinsic.lt.check [.int, .int] = .ok .bool := rfl
  have hadd : Intrinsic.add.check [.int, .int] = .ok .int := rfl
  have hsub : Intrinsic.sub.check [.int, .int] = .ok .int := rfl
  unfold buildRoutine
  simp only [hf]
  simp [function, routine, functionSymbol, hfull, hconstants, foldName_main, hn, hs, hlt, hadd,
    hsub]

theorem buildRoutine_function : buildRoutine symbols "main" function = (.ok routine, []) :=
  buildRoutine_function_of (Symbols.function?_alone _) (Symbols.resolveConstant?_alone _)

end Descending

/-- The parameter may hold anything, and so may all other slots. -/
theorem runs_alike_on_places_descending :
    buildRoutine Descending.symbols "main" Descending.function = (.ok Descending.routine, []) ∧
    ∀ (I : Interpretation Int Unit) (fuel : Nat) (n : Int),
      let place := Target.bytecode.place Descending.routine
      Alike (fun _ => SameTrace) SameTrace
        (eval I separate fuel Descending.routine.body { memory := fun x => if x = 1 then n else 0 })
        (eval I (placed place) fuel Descending.routine.body { memory := fun _ => n }) := by
  refine ⟨Descending.buildRoutine_function, fun I fuel n => ?_⟩
  refine (runs_alike_on_places Descending.buildRoutine_function ⟨false, false, false⟩
    .bytecode).2 Int Unit I fuel _ _ fun x hx => ?_
  have hx : 1 ≤ x ∧ x ≤ 1 :=
    ((built_of_buildRoutine Descending.buildRoutine_function).params x).mp hx
  rw [if_pos (Nat.le_antisymm hx.2 hx.1)]

end Codewright
