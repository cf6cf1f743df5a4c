import Mathlib
import Codewright.Local

/-!
# Tables of locals

What the passes look up in a table of locals, as functions of the place, and how tables grow while a
body is built: locals are added, and loads and stores are counted.
-/

namespace Codewright

/-- The interval of a local, if it has one. -/
def intervalOf (locals : Locals) (x : LocalId) : Option Interval := locals[x]?.bind (·.interval)

/-- The declaration of a local, which no pass changes: its type and whether it is a parameter. -/
def declared (locals : Locals) (x : LocalId) : Option (Ty × Bool) :=
  locals[x]?.map fun l => (l.ty, l.isParameter)

/-- How often a local is loaded, by the table. -/
def usesOf (locals : Locals) (x : LocalId) : Nat := (locals[x]?.map (·.uses)).getD 0

/-- How often a local is stored into, by the table. -/
def assignmentsOf (locals : Locals) (x : LocalId) : Nat := (locals[x]?.map (·.assignments)).getD 0

section

variable {locals : Locals} {x y : LocalId} {f : Local → Local}

/-- A change that keeps types and parameters keeps all declarations. -/
theorem declared_modify (hf : ∀ l, ((f l).ty, (f l).isParameter) = (l.ty, l.isParameter)) :
    declared (locals.modify x f) y = declared locals y := by
  simp only [declared, Array.getElem?_modify]
  split
  · rw [Option.map_map]
    congr 1
    funext l
    exact hf l
  · rfl

theorem usesOf_modify : usesOf (locals.modify x f) y =
    if x = y then (locals[y]?.map fun l => (f l).uses).getD 0 else usesOf locals y := by
  simp only [usesOf, Array.getElem?_modify]
  split
  · rw [Option.map_map]
    rfl
  · rfl

theorem assignmentsOf_modify : assignmentsOf (locals.modify x f) y =
    if x = y then (locals[y]?.map fun l => (f l).assignments).getD 0
    else assignmentsOf locals y := by
  simp only [assignmentsOf, Array.getElem?_modify]
  split
  · rw [Option.map_map]
    rfl
  · rfl

/-- The locals that are not declared are those past the end. -/
theorem declared_eq_none : declared locals x = none ↔ locals.size ≤ x := by
  simp [declared]

end

/-- A table with more locals: what was declared stays, and new locals are no parameters. -/
structure Extended (before after : Locals) : Prop where
  size_le : before.size ≤ after.size
  kept : ∀ x, x < before.size → declared after x = declared before x
  new : ∀ x ty p, before.size ≤ x → declared after x = some (ty, p) → p = false

namespace Extended

variable {a b c : Locals}

/-- The same declarations in another table. -/
theorem of_declared (h : ∀ x, declared b x = declared a x) : Extended a b where
  size_le := by
    by_contra hlt
    have hnone := h b.size
    rw [declared_eq_none.mpr (le_refl _), eq_comm, declared_eq_none] at hnone
    omega
  kept := fun x _ => h x
  new := fun x ty p hx hd => by
    rw [h, declared_eq_none.mpr hx] at hd
    cases hd

theorem refl (a : Locals) : Extended a a := of_declared fun _ => rfl

/-- One extension after the other. -/
theorem trans (h : Extended a b) (h' : Extended b c) : Extended a c where
  size_le := h.size_le.trans h'.size_le
  kept := fun x hx => by rw [h'.kept x (by have := h.size_le; omega), h.kept x hx]
  new := fun x ty p hx hd => by
    by_cases hb : x < b.size
    · exact h.new x ty p hx (by rw [← h'.kept x hb]; exact hd)
    · exact h'.new x ty p (by omega) hd

/-- A new local that is no parameter. -/
theorem push {l : Local} (hp : l.isParameter = false) : Extended a (a.push l) where
  size_le := by simp
  kept := fun x hx => by simp [declared, Array.getElem?_push, Nat.ne_of_lt hx]
  new := fun x ty p hx h => by
    simp only [declared, Array.getElem?_push] at h
    split at h
    · simp only [Option.map_some, Option.some.injEq, Prod.mk.injEq] at h
      rw [← h.2, hp]
    · rw [Array.getElem?_eq_none_iff.mpr hx] at h
      cases h

end Extended

/-- How a table grows while a body is built: new locals are for values, and the loads and stores are
counted. -/
structure Grown (before after : Locals) (loads stores : List LocalId) : Prop
    extends Extended before after where
  values : ∀ x ty p, before.size ≤ x → declared after x = some (ty, p) → ty.isValue = true
  uses : ∀ x, usesOf after x = usesOf before x + loads.count x
  assignments : ∀ x, assignmentsOf after x = assignmentsOf before x + stores.count x

namespace Grown

variable {a b c : Locals} {loads loads' stores stores' : List LocalId}

theorem values_of_declared (h : ∀ x, declared b x = declared a x) (x : LocalId) (ty : Ty) (p : Bool)
    (hx : a.size ≤ x) (hd : declared b x = some (ty, p)) : ty.isValue = true := by
  rw [h, declared_eq_none.mpr hx] at hd
  cases hd

theorem refl (a : Locals) : Grown a a [] [] where
  toExtended := .refl a
  values := values_of_declared fun _ => rfl
  uses := by simp
  assignments := by simp

/-- The loads and stores of one stretch come after those of the other. -/
theorem trans (h : Grown a b loads stores) (h' : Grown b c loads' stores') :
    Grown a c (loads ++ loads') (stores ++ stores') where
  toExtended := h.toExtended.trans h'.toExtended
  values := fun x ty p hx hd => by
    by_cases hb : x < b.size
    · exact h.values x ty p hx (by rw [← h'.kept x hb]; exact hd)
    · exact h'.values x ty p (Nat.le_of_not_lt hb) hd
  uses := fun x => by rw [h'.uses, h.uses, List.count_append, Nat.add_assoc]
  assignments := fun x => by rw [h'.assignments, h.assignments, List.count_append, Nat.add_assoc]

/-- A load is counted. -/
theorem load {x : LocalId} (hx : x < a.size) :
    Grown a (a.modify x fun l => { l with uses := l.uses + 1 }) [x] [] where
  toExtended := .of_declared fun _ => declared_modify fun _ => rfl
  values := values_of_declared fun _ => declared_modify fun _ => rfl
  uses := fun y => by
    rw [usesOf_modify, List.count_singleton]
    split
    · next h => subst h; simp [usesOf, hx]
    · next h => simp [h]
  assignments := fun y => by
    rw [assignmentsOf_modify]
    split
    · rfl
    · rfl

/-- A store is counted. -/
theorem store {x : LocalId} (hx : x < a.size) :
    Grown a (a.modify x fun l => { l with assignments := l.assignments + 1 }) [] [x] where
  toExtended := .of_declared fun _ => declared_modify fun _ => rfl
  values := values_of_declared fun _ => declared_modify fun _ => rfl
  uses := fun y => by
    rw [usesOf_modify]
    split
    · rfl
    · rfl
  assignments := fun y => by
    rw [assignmentsOf_modify, List.count_singleton]
    split
    · next h => subst h; simp [assignmentsOf, hx]
    · next h => simp [h]

/-- A new local of a value type, not used so far. -/
theorem push {l : Local} (hp : l.isParameter = false) (hv : l.ty.isValue = true) (hu : l.uses = 0)
    (ha : l.assignments = 0) : Grown a (a.push l) [] [] where
  toExtended := .push hp
  values := fun x ty p hx h => by
    simp only [declared, Array.getElem?_push] at h
    split at h
    · simp only [Option.map_some, Option.some.injEq, Prod.mk.injEq] at h
      rw [← h.1, hv]
    · rw [Array.getElem?_eq_none_iff.mpr hx] at h
      cases h
  uses := fun x => by
    simp only [usesOf, Array.getElem?_push]
    split
    · next h => simp [h, hu]
    · simp
  assignments := fun x => by
    simp only [assignmentsOf, Array.getElem?_push]
    split
    · next h => simp [h, ha]
    · simp

end Grown

end Codewright
