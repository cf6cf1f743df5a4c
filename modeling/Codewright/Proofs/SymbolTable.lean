import Codewright.Proofs.Steps
import Codewright.Tree.Build

/-!
# The table of symbols

A declaration either fits, and then the table has its entry more, or it is refused, and then the
table is what it was (`Declaration.perform_apply`). So after any calls, whatever came of them, the
table is the record of the accepted ones (`Symbols.Records`): the entries of the modules, of the
functions in the order of their numbers, and of the constants, each full name standing for one thing
only. Collecting a program is such a run in which every call is accepted.
-/

namespace Codewright

open Steps

/-! ## Entries -/

def moduleSymbol (m : Surface.Module) : ModuleSymbol :=
  { name := foldName m.name, imports := m.imports.map (foldName ·.name), span := m.span }

/-- The entry of a constant that is declared in a module. -/
def constantSymbol (moduleName : String) (c : Surface.Constant) : ConstantSymbol :=
  { fullName := fullName moduleName c.name, isPublic := c.isPublic, value := c.value,
    span := c.span }

/-- The entry of a function that is declared in a module, at a place. -/
def functionSymbol (id : Nat) (moduleName : String) (f : Surface.Function) : FunctionSymbol :=
  { id, fullName := fullName moduleName f.name, moduleName := foldName moduleName,
    isPublic := f.isPublic, result := .ofName f.result, params := f.params.map (.ofName ·.type),
    span := f.span }

/-- All constants of a program with the names of their modules, in the order of declaration. -/
def constantsOf (modules : List Surface.Module) : List (String × Surface.Constant) :=
  modules.flatMap fun m => m.constants.map fun c => (m.name, c)

namespace Symbols

/-! ## Calls -/

/-- A call on the table. -/
inductive Declaration where
  | module (m : Surface.Module)
  | constant (moduleName : String) (c : Surface.Constant)
  | function (moduleName : String) (f : Surface.Function)

namespace Declaration

def perform : Declaration → Change Unit
  | .module m => addModule m
  | .constant m c => declareConstant m c
  | .function m f => do
    let _ ← declareFunction m f

def module? : Declaration → Option Surface.Module
  | .module m => some m
  | _ => none

def constant? : Declaration → Option (String × Surface.Constant)
  | .constant m c => some (m, c)
  | _ => none

def function? : Declaration → Option (String × Surface.Function)
  | .function m f => some (m, f)
  | _ => none

end Declaration

/-- Nothing has the full name. -/
def Free (s : Symbols) (full : String) : Prop := s.index[full]? = none ∧ s.constants[full]? = none

/-- What a call asks for: a name that is free and, for a constant, a value of the declared type. -/
def Declaration.Fits (s : Symbols) : Declaration → Prop
  | .module m => ∀ x ∈ s.modules, x.name ≠ foldName m.name
  | .constant m c => s.Free (fullName m c.name) ∧ c.value.ty = .ofName c.type
  | .function m f => s.Free (fullName m f.name)

/-- The table with the entry of one more declaration. -/
def Declaration.added (s : Symbols) : Declaration → Symbols
  | .module m => { s with modules := s.modules.push (moduleSymbol m) }
  | .constant m c =>
    { s with constants := s.constants.insert (fullName m c.name) (constantSymbol m c) }
  | .function m f =>
    { s with
      functions := s.functions.push (functionSymbol s.functions.size m f)
      index := s.index.insert (fullName m f.name) s.functions.size }

/-- Why a call is refused, if it is. -/
def Declaration.fault? (s : Symbols) : Declaration → Option SymbolError
  | .module m => (s.module? (foldName m.name)).map fun first =>
    .moduleTwice m.name m.span first.span
  | .constant m c =>
    match s.declaredAt? (fullName m c.name) with
    | some first => some (.nameTwice c.name c.span first)
    | none =>
      if c.value.ty = .ofName c.type then none
      else some (.constantType c.name (.ofName c.type) c.value.ty c.span)
  | .function m f => (s.declaredAt? (fullName m f.name)).map fun first =>
    .nameTwice f.name f.span first

/-- Makes one call after the other, whatever comes of them: the accepted ones, and the table in the
end. -/
def performAll (s : Symbols) : List Declaration → List Declaration × Symbols
  | [] => ([], s)
  | d :: rest =>
    match d.perform s with
    | .ok _ s' => (d :: (performAll s' rest).1, (performAll s' rest).2)
    | .error _ s' => performAll s' rest

variable {s s' : Symbols} {m full : String} {d : Declaration} {ds : List Declaration}

/-! ## One call -/

theorem checkFree_apply (full written : String) (span : Source.Span) (s : Symbols) :
    checkFree full written span s = match s.declaredAt? full with
      | some first => .error (.nameTwice written span first) s
      | none => .ok () s := by
  unfold checkFree
  rw [bind_of_ok (get_eq_ok.mpr ⟨rfl, rfl⟩)]
  cases s.declaredAt? full <;> rfl

theorem declareFunction_apply (m : String) (f : Surface.Function) (s : Symbols) :
    declareFunction m f s = match s.declaredAt? (fullName m f.name) with
      | some first => .error (.nameTwice f.name f.span first) s
      | none => .ok s.functions.size (Declaration.added s (.function m f)) := by
  unfold declareFunction
  rw [bind_apply, checkFree_apply]
  cases s.declaredAt? (fullName m f.name) <;> rfl

/-- A call is refused and changes nothing, or it adds its entry. -/
theorem Declaration.perform_apply (d : Declaration) (s : Symbols) :
    d.perform s = match d.fault? s with
      | some e => .error e s
      | none => .ok () (d.added s) := by
  cases d with
  | module m =>
    rw [perform, fault?, addModule]
    rw [bind_of_ok (get_eq_ok.mpr ⟨rfl, rfl⟩)]
    cases s.module? (foldName m.name) <;> rfl
  | constant m c =>
    rw [perform, fault?, declareConstant, bind_apply, checkFree_apply]
    cases s.declaredAt? (fullName m c.name) with
    | some first => rfl
    | none =>
      by_cases hty : c.value.ty = .ofName c.type
      · simp only [hty, ne_eq, not_true_eq_false, if_false, if_true]
        rfl
      · simp only [hty, ne_eq, not_false_eq_true, if_true, if_false]
        rfl
  | function m f =>
    rw [perform, fault?, bind_apply, declareFunction_apply]
    cases s.declaredAt? (fullName m f.name) <;> rfl

theorem Declaration.eq_of_perform_error {e : SymbolError} (h : d.perform s = .error e s') :
    s' = s := by
  rw [perform_apply] at h
  split at h <;> cases h
  rfl

theorem Declaration.of_perform_ok {u : Unit} (h : d.perform s = .ok u s') :
    d.fault? s = none ∧ s' = d.added s := by
  rw [perform_apply] at h
  split at h <;> cases h
  exact ⟨‹_›, rfl⟩

/-! ## What the table records -/

/-- The table is the record of these declarations: it has their entries in order and no others, the
index leads from the full name of every function to its place, and a full name stands for one thing
only. -/
structure Records (s : Symbols) (ds : List Declaration) : Prop where
  modules : s.modules.toList = (ds.filterMap Declaration.module?).map moduleSymbol
  distinct : (s.modules.toList.map (·.name)).Nodup
  functions : s.functions.toList =
    (ds.filterMap Declaration.function?).mapIdx fun n p => functionSymbol n p.1 p.2
  indexed : ∀ (full : String) (n : Nat), s.index[full]? = some n ↔
    ∃ g, s.functions[n]? = some g ∧ g.fullName = full
  constants : ∀ (full : String) (k : ConstantSymbol), s.constants[full]? = some k ↔
    ∃ p ∈ ds.filterMap Declaration.constant?, constantSymbol p.1 p.2 = k ∧ k.fullName = full
  typed : ∀ p ∈ ds.filterMap Declaration.constant?, p.2.value.ty = .ofName p.2.type
  apart : ∀ full : String, s.index[full]? = none ∨ s.constants[full]? = none

theorem records_empty : empty.Records [] where
  modules := rfl
  distinct := List.nodup_nil
  functions := rfl
  indexed := by simp [empty]
  constants := by simp [empty]
  typed := by simp
  apart := by simp [empty]

theorem module?_eq_none_iff {name : String} :
    s.module? name = none ↔ ∀ x ∈ s.modules, x.name ≠ name := by
  simp [module?]

theorem filterMap_concat_none {α : Type} {f : Declaration → Option α} (h : f d = none) :
    (ds ++ [d]).filterMap f = ds.filterMap f := by
  simp [h]

theorem filterMap_concat_some {α : Type} {f : Declaration → Option α} {a : α} (h : f d = some a) :
    (ds ++ [d]).filterMap f = ds.filterMap f ++ [a] := by
  simp [h]

namespace Records

theorem declaredAt?_eq_none_iff (h : s.Records ds) : s.declaredAt? full = none ↔ s.Free full := by
  have hfunction : s.function? full = none ↔ s.index[full]? = none := by
    unfold Symbols.function?
    cases hn : s.index[full]? with
    | none => simp
    | some n =>
      obtain ⟨g, hg, -⟩ := (h.indexed full n).mp hn
      simp [hg]
  unfold declaredAt? constant? Free
  cases hk : s.constants[full]? with
  | some k => simp
  | none => simp [hfunction]

theorem fault?_eq_none_iff (h : s.Records ds) : d.fault? s = none ↔ d.Fits s := by
  cases d with
  | module m =>
    rw [Declaration.fault?, Option.map_eq_none_iff, module?_eq_none_iff]
    rfl
  | constant m c =>
    rw [Declaration.fault?, Declaration.Fits, ← h.declaredAt?_eq_none_iff]
    cases s.declaredAt? (fullName m c.name) with
    | some first => simp
    | none => simp
  | function m f =>
    rw [Declaration.fault?, Option.map_eq_none_iff, h.declaredAt?_eq_none_iff]
    rfl

theorem addModule (h : s.Records ds) {x : Surface.Module} (hfits : Declaration.Fits s (.module x)) :
    (Declaration.added s (.module x)).Records (ds ++ [.module x]) where
  modules := by
    rw [Declaration.added, Array.toList_push, h.modules, filterMap_concat_some (a := x) rfl,
      List.map_append, List.map_singleton]
  distinct := by
    rw [Declaration.added, Array.toList_push, List.map_append, List.nodup_append]
    refine ⟨h.distinct, List.nodup_singleton _, ?_⟩
    intro a ha b hb
    obtain ⟨y, hy, rfl⟩ := List.mem_map.mp ha
    rw [List.map_singleton, List.mem_singleton] at hb
    rw [hb]
    exact hfits y (Array.mem_toList_iff.mp hy)
  functions := by
    rw [filterMap_concat_none rfl]
    exact h.functions
  indexed := h.indexed
  constants := by
    rw [filterMap_concat_none rfl]
    exact h.constants
  typed := by
    rw [filterMap_concat_none rfl]
    exact h.typed
  apart := h.apart

theorem declareConstant (h : s.Records ds) {c : Surface.Constant}
    (hfits : Declaration.Fits s (.constant m c)) :
    (Declaration.added s (.constant m c)).Records (ds ++ [.constant m c]) where
  modules := by
    rw [filterMap_concat_none rfl]
    exact h.modules
  distinct := h.distinct
  functions := by
    rw [filterMap_concat_none rfl]
    exact h.functions
  indexed := h.indexed
  constants := by
    intro full k
    rw [filterMap_concat_some (a := (m, c)) rfl, Declaration.added, Std.HashMap.getElem?_insert]
    simp only [List.mem_append, List.mem_singleton]
    by_cases hfull : fullName m c.name = full
    · subst hfull
      rw [if_pos (by simp)]
      constructor
      · intro hk
        obtain rfl := Option.some.inj hk
        exact ⟨(m, c), .inr rfl, rfl, rfl⟩
      · -- An older constant of this name would be in the table, but the name is free.
        rintro ⟨p, hp | rfl, rfl, hname⟩
        · have := (h.constants _ _).mpr ⟨p, hp, rfl, hname⟩
          cases this.symm.trans hfits.1.2
        · rfl
    · rw [if_neg (by simpa using hfull), h.constants]
      constructor
      · rintro ⟨p, hp, hk⟩
        exact ⟨p, .inl hp, hk⟩
      · rintro ⟨p, hp | rfl, rfl, hname⟩
        · exact ⟨p, hp, rfl, hname⟩
        · exact absurd hname hfull
  typed := by
    intro p hp
    rw [filterMap_concat_some (a := (m, c)) rfl, List.mem_append, List.mem_singleton] at hp
    rcases hp with hp | rfl
    · exact h.typed p hp
    · exact hfits.2
  apart := by
    intro full
    rw [Declaration.added, Std.HashMap.getElem?_insert]
    by_cases hfull : fullName m c.name = full
    · exact .inl (hfull ▸ hfits.1.1)
    · rw [if_neg (by simpa using hfull)]
      exact h.apart full

theorem length_functions (h : s.Records ds) :
    (ds.filterMap Declaration.function?).length = s.functions.size := by
  rw [← Array.length_toList, h.functions, List.length_mapIdx]

theorem declareFunction (h : s.Records ds) {f : Surface.Function}
    (hfits : Declaration.Fits s (.function m f)) :
    (Declaration.added s (.function m f)).Records (ds ++ [.function m f]) where
  modules := by
    rw [filterMap_concat_none rfl]
    exact h.modules
  distinct := h.distinct
  functions := by
    rw [Declaration.added, Array.toList_push, h.functions, filterMap_concat_some (a := (m, f)) rfl,
      List.mapIdx_concat, h.length_functions]
  indexed := by
    intro full n
    rw [Declaration.added, Std.HashMap.getElem?_insert]
    simp only [Array.getElem?_push]
    by_cases hfull : fullName m f.name = full
    · subst hfull
      rw [if_pos (by simp)]
      constructor
      · intro hn
        obtain rfl := Option.some.inj hn
        exact ⟨_, if_pos rfl, rfl⟩
      · rintro ⟨g, hg, hname⟩
        split at hg
        · next hn => rw [hn]
        · -- An older function of this name would be in the index, but the name is free.
          have := (h.indexed _ n).mpr ⟨g, hg, hname⟩
          cases this.symm.trans hfits.1
    · rw [if_neg (by simpa using hfull), h.indexed]
      constructor
      · rintro ⟨g, hg, hname⟩
        have hlt := (Array.getElem?_eq_some_iff.mp hg).1
        exact ⟨g, by rw [if_neg hlt.ne, hg], hname⟩
      · rintro ⟨g, hg, hname⟩
        split at hg
        · obtain rfl := Option.some.inj hg
          exact absurd hname hfull
        · exact ⟨g, hg, hname⟩
  constants := by
    rw [filterMap_concat_none rfl]
    exact h.constants
  typed := by
    rw [filterMap_concat_none rfl]
    exact h.typed
  apart := by
    intro full
    rw [Declaration.added, Std.HashMap.getElem?_insert]
    by_cases hfull : fullName m f.name = full
    · exact .inr (hfull ▸ hfits.2)
    · rw [if_neg (by simpa using hfull)]
      exact h.apart full

theorem added (h : s.Records ds) (hfits : d.Fits s) : (d.added s).Records (ds ++ [d]) := by
  cases d with
  | module x => exact h.addModule hfits
  | constant m c => exact h.declareConstant hfits
  | function m f => exact h.declareFunction hfits

end Records

/-! ## Any number of calls -/

theorem Records.performAll (h : s.Records ds) (calls : List Declaration) :
    (s.performAll calls).2.Records (ds ++ (s.performAll calls).1) := by
  induction calls generalizing s ds with
  | nil => rwa [Symbols.performAll, List.append_nil]
  | cons d rest ih =>
    rw [Symbols.performAll, d.perform_apply]
    cases hd : d.fault? s with
    | some e => exact ih h
    | none =>
      have := ih (h.added (h.fault?_eq_none_iff.mp hd))
      rwa [List.append_assoc] at this

theorem performAll_of_forM {calls : List Declaration} {u : Unit}
    (h : calls.forM Declaration.perform s = .ok u s') : s.performAll calls = (calls, s') := by
  induction calls generalizing s with
  | nil =>
    cases h
    rfl
  | cons d rest ih =>
    obtain ⟨u₁, s₁, hd, hrest⟩ := bind_eq_ok.mp h
    rw [performAll, hd]
    simp only [ih hrest]

/-! ## Collected programs -/

/-- The calls that collecting a program makes. -/
def declarationsOf (modules : List Surface.Module) : List Declaration :=
  modules.map .module ++ ((constantsOf modules).map (fun p => .constant p.1 p.2) ++
    (functionsOf modules).map fun p => .function p.1 p.2)

/-- Declaring module by module is declaring in the order of the whole program. -/
theorem forM_flatMap {α β : Type} (xs : List α) (g : α → List β) (f : β → Change Unit) :
    (xs.flatMap g).forM f = xs.forM fun x => (g x).forM f := by
  induction xs with
  | nil => rfl
  | cons x xs ih =>
    rw [List.flatMap_cons, List.forM_eq_forM, List.forM_append, ← List.forM_eq_forM, ih]
    rfl

theorem declareAll_eq (modules : List Surface.Module) :
    declareAll modules = (declarationsOf modules).forM Declaration.perform := by
  unfold declarationsOf constantsOf functionsOf
  simp only [List.forM_eq_forM, List.forM_append, List.forM_map]
  simp only [← List.forM_eq_forM, forM_flatMap]
  simp only [List.forM_eq_forM, List.forM_map]
  rfl

/-- The table of a collected program records all its declarations. -/
theorem records_of_collect {modules : List Surface.Module} (h : collect modules = .ok s) :
    s.Records (declarationsOf modules) := by
  unfold collect EStateM.run at h
  split at h
  · cases h
  · next u s₁ hrun =>
    obtain ⟨-, -, h⟩ := except_bind_eq_ok.mp h
    obtain rfl := Except.ok.inj h
    rw [declareAll_eq] at hrun
    have hrecords := records_empty.performAll (declarationsOf modules)
    rwa [performAll_of_forM hrun, List.nil_append] at hrecords

theorem modules_declarationsOf (modules : List Surface.Module) :
    (declarationsOf modules).filterMap Declaration.module? = modules := by
  simp [declarationsOf, List.filterMap_append, List.filterMap_map, Function.comp_def,
    Declaration.module?]

theorem constants_declarationsOf (modules : List Surface.Module) :
    (declarationsOf modules).filterMap Declaration.constant? = constantsOf modules := by
  simp [declarationsOf, List.filterMap_append, List.filterMap_map, Function.comp_def,
    Declaration.constant?]

theorem functions_declarationsOf (modules : List Surface.Module) :
    (declarationsOf modules).filterMap Declaration.function? = functionsOf modules := by
  simp [declarationsOf, List.filterMap_append, List.filterMap_map, Function.comp_def,
    Declaration.function?]

end Symbols

end Codewright
