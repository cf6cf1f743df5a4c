import Codewright.Proofs.FoldedRoutine
import Codewright.Proofs.Native.InPlaceForm

/-!
# Counts stay exact

The table of a routine says how many nodes load a local and how many have it as their store. A built
routine comes with exact counts, and both rewritings keep them, whatever their order and however
often they are run. The in-place form loads what the tree loads, and each temporary is the store of
one node; so the counts of the locals that were there before stay exact.
-/

namespace Codewright

/-! ## Rewritings -/

/-- The passes that rewrite a tree and keep its routine a built one. -/
inductive Rewriting where
  | foldConstants
  | removeSingleUses

def Rewriting.run : Rewriting → Routine → Routine
  | .foldConstants, r => r.foldConstants.1
  | .removeSingleUses, r => r.removeSingleUses.1

/-- The routine after the rewritings, from the left. -/
def Routine.rewritten (r : Routine) (rewritings : List Rewriting) : Routine :=
  rewritings.foldl (fun r rewriting => rewriting.run r) r

theorem Routine.Built.run {symbols : Symbols} {r : Routine} (h : r.Built symbols)
    (rewriting : Rewriting) : (rewriting.run r).Built symbols := by
  cases rewriting with
  | foldConstants => exact h.foldConstants
  | removeSingleUses => exact h.removeSingleUses

theorem Routine.Built.rewritten {symbols : Symbols} {r : Routine} (h : r.Built symbols)
    (rewritings : List Rewriting) : (r.rewritten rewritings).Built symbols := by
  induction rewritings generalizing r with
  | nil => exact h
  | cons rewriting rest ih => exact ih (h.run rewriting)

/-! ## Temporaries -/

namespace Routine

open Native

variable {r : Routine}

theorem counts_toInPlace (h : r.body.Counted r.locals) {x : LocalId} {l : Local}
    (hl : r.locals[x]? = some l) : r.toInPlace.1.locals[x]? = some l ∧
      l.uses = r.toInPlace.1.body.loads.count x ∧
      l.assignments = r.toInPlace.1.body.stores.count x := by
  have hx := (Array.getElem?_eq_some_iff.mp hl).1
  refine ⟨(r.dressed_toInPlace.grown.kept x hx).trans hl, ?_, ?_⟩
  · rw [loads_toInPlace]
    exact h.uses x l hl
  · rw [count_stores_toInPlace, if_neg fun hle => Nat.not_le.mpr hx hle.1]
    exact h.assignments x l hl

/-- A temporary is named after its number and is the store of one node. -/
theorem temporary_toInPlace (h : r.WellScoped) {n : Nat} (hn : n < r.toInPlace.2) :
    (∃ l, r.toInPlace.1.locals[r.locals.size + n]? = some l ∧ l.name = "$t" ++ toString n) ∧
      r.toInPlace.1.body.stores.count (r.locals.size + n) = 1 := by
  constructor
  · obtain ⟨u, -, -, hentry⟩ := r.dressed_toInPlace.enrolled (r.locals.size + n)
      (Nat.le_add_right _ n) (by rw [size_toInPlace]; exact Nat.add_lt_add_left hn _)
    exact ⟨_, hentry, by simp [temporary]⟩
  · have hnone : r.body.stores.count (r.locals.size + n) = 0 := by
      refine List.count_eq_zero.mpr fun hx => ?_
      exact absurd (h.inTable _ (Tree.mem_mentions.mpr (.inr hx))) (by simp)
    rw [count_stores_toInPlace, hnone, if_pos ⟨Nat.le_add_right _ n, Nat.add_lt_add_left hn _⟩]

end Routine

/-- Counts stay exact. Whatever rewritings a built routine goes through, its table says of each
local how many nodes load it and how many have it as their store. The in-place form keeps the
entries of the table and keeps them exact, and each temporary that it adds is the store of one
node. -/
theorem counts_stay_exact {symbols : Symbols} {moduleName : String} {f : Surface.Function}
    {r : Routine} {spans : List Source.Span}
    (h : buildRoutine symbols moduleName f = (.ok r, spans)) (rewritings : List Rewriting) :
    let r' := r.rewritten rewritings
    let p := r'.toInPlace.1
    r'.body.Counted r'.locals ∧
    (∀ x l, r'.locals[x]? = some l → p.locals[x]? = some l ∧
      l.uses = p.body.loads.count x ∧ l.assignments = p.body.stores.count x) ∧
    p.locals.size = r'.locals.size + r'.toInPlace.2 ∧
    ∀ n, n < r'.toInPlace.2 →
      (∃ l, p.locals[r'.locals.size + n]? = some l ∧ l.name = "$t" ++ toString n) ∧
      p.body.stores.count (r'.locals.size + n) = 1 := by
  intro r' p
  have hb : r'.Built symbols := (built_of_buildRoutine h).rewritten rewritings
  refine ⟨hb.counted, fun x l hl => ?_, r'.size_toInPlace, fun n hn => ?_⟩
  · exact Routine.counts_toInPlace hb.counted hl
  · exact Routine.temporary_toInPlace hb.toWellScoped hn

/-! ## A local that is folded and removed -/

namespace Shifting

open Surface in
/-- Adds a sum of constants, by way of a local. -/
def function : Surface.Function where
  name := "shift"
  isPublic := true
  result := .int
  params := [⟨"n", .int, default⟩]
  body := {
    body := [
      .assign "s" (.binary .add (.literal (.int 1) default) (.literal (.int 2) default) default)
        default,
      .ret (some (.binary .add (.name "s" default) (.name "n" default) default)) default]
    span := default }
  span := default

abbrev symbols : Symbols := .alone function

def routine : Routine where
  id := 0
  fullName := "main.shift"
  locals := #[
    { name := "$result", ty := .int },
    { name := "n", ty := .int, uses := 1, isParameter := true },
    { name := "s", ty := .int, assignments := 1, uses := 1 }]
  paramCount := 1
  body := .seq { ty := .void } [
    .binary { ty := .int, store := some 2 } .add (.const { ty := .int } (.int 1))
      (.const { ty := .int } (.int 2)),
    .retValue { ty := .void } (.binary { ty := .int } .add (.load { ty := .int } 2)
      (.load { ty := .int } 1))]

open Build.Evaluated in
theorem buildRoutine_function : buildRoutine symbols "main" function = (.ok routine, []) := by
  have hfull : fullName "main" "shift" = "main.shift" := by decide +kernel
  have hn : foldName "n" = "n" ∧ "n".contains '.' = false := ⟨by decide +kernel, by cbv⟩
  have hs : foldName "s" = "s" ∧ "s".contains '.' = false := ⟨by decide +kernel, by cbv⟩
  have hadd : Intrinsic.add.check [.int, .int] = .ok .int := rfl
  unfold buildRoutine
  simp only [Symbols.function?_alone]
  simp [function, routine, functionSymbol, hfull, foldName_main, hn, hs, hadd,
    Symbols.resolveConstant?_alone]

end Shifting

/-- The sum is folded, its local is removed, and the operands of the other sum get temporaries. -/
theorem counts_stay_exact_shifting :
    buildRoutine Shifting.symbols "main" Shifting.function = (.ok Shifting.routine, []) ∧
    let r := Shifting.routine.rewritten [.foldConstants, .removeSingleUses, .foldConstants]
    r.body.Counted r.locals ∧ r.body.mentions = [1] ∧ r.toInPlace.2 = 2 ∧
      r.toInPlace.1.body.stores.count 3 = 1 ∧ r.toInPlace.1.body.stores.count 4 = 1 := by
  have hbuild := Shifting.buildRoutine_function
  obtain ⟨hcounted, -, -, htemporaries⟩ :=
    counts_stay_exact hbuild [.foldConstants, .removeSingleUses, .foldConstants]
  have htwo : (Shifting.routine.rewritten
      [.foldConstants, .removeSingleUses, .foldConstants]).toInPlace.2 = 2 := by decide +kernel
  refine ⟨hbuild, hcounted, by decide +kernel, htwo, ?_, ?_⟩
  · exact (htemporaries 0 (by rw [htwo]; decide)).2
  · exact (htemporaries 1 (by rw [htwo]; decide)).2

end Codewright
