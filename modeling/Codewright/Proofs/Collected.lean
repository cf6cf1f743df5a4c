import Codewright.Proofs.Building
import Codewright.Proofs.SymbolTable

/-!
# Collected symbols

The table of functions that collecting gives is the list of the declared functions in order: a
function's number is its place, and its full name leads back to it. So building a collected program
meets no function without an entry, and gives one routine for each function, in order and numbered
by its place.
-/

namespace Codewright

open Steps

namespace Symbols

/-- The table has these functions in order, and each is found under its full name. -/
structure Lists (s : Symbols) (fs : List (String × Surface.Function)) : Prop where
  functions : s.functions.toList = fs.mapIdx fun n p => functionSymbol n p.1 p.2
  found : ∀ n m f, fs[n]? = some (m, f) → s.index[fullName m f.name]? = some n
  index : ∀ full n, s.index[full]? = some n → ∃ m f, fs[n]? = some (m, f) ∧ fullName m f.name = full

namespace Lists

variable {s s' : Symbols} {fs : List (String × Surface.Function)} {m full : String} {n : Nat}
  {f : Surface.Function} {g : FunctionSymbol}

theorem entry (h : s.Lists fs) (hf : fs[n]? = some (m, f)) :
    s.functions[n]? = some (functionSymbol n m f) := by
  rw [← Array.getElem?_toList, h.functions, List.getElem?_mapIdx, hf]
  rfl

theorem size (h : s.Lists fs) : s.functions.size = fs.length := by
  rw [← Array.length_toList, h.functions, List.length_mapIdx]

theorem function?_eq (h : s.Lists fs) (hf : fs[n]? = some (m, f)) :
    s.function? (fullName m f.name) = some (functionSymbol n m f) := by
  rw [function?, h.found n m f hf, Option.bind_some, h.entry hf]

/-- What is found under a full name stands at the place of its number. -/
theorem place_of_function? (h : s.Lists fs) (hg : s.function? full = some g) :
    s.functions[g.id]? = some g := by
  obtain ⟨n, hn, hg⟩ := Option.bind_eq_some_iff.mp hg
  obtain ⟨m, f, hf, -⟩ := h.index full n hn
  rw [h.entry hf] at hg
  obtain rfl := Option.some.inj hg
  exact h.entry hf

end Lists

theorem Records.lists {s : Symbols} {ds : List Declaration} (h : s.Records ds) :
    s.Lists (ds.filterMap Declaration.function?) where
  functions := h.functions
  found := by
    intro n m f hf
    refine (h.indexed _ n).mpr ⟨functionSymbol n m f, ?_, rfl⟩
    rw [← Array.getElem?_toList, h.functions, List.getElem?_mapIdx, hf]
    rfl
  index := by
    intro full n hn
    obtain ⟨g, hg, rfl⟩ := (h.indexed full n).mp hn
    rw [← Array.getElem?_toList, h.functions, List.getElem?_mapIdx] at hg
    obtain ⟨⟨m, f⟩, hf, rfl⟩ := Option.map_eq_some_iff.mp hg
    exact ⟨m, f, hf, rfl⟩

/-- Collecting lists the functions of all modules in the order of declaration. -/
theorem lists_of_collect {modules : List Surface.Module} {s : Symbols}
    (h : Symbols.collect modules = .ok s) : s.Lists (functionsOf modules) := by
  have hlists := (records_of_collect h).lists
  rwa [functions_declarationsOf] at hlists

end Symbols

/-! ## Routines -/

variable {symbols : Symbols} {modules : List Surface.Module}

/-- Either all functions are built, one routine each, or one of them is refused. -/
theorem buildRoutines_go_spec (symbols : Symbols) (rest : List (String × Surface.Function))
    (done : List Routine) (noted : List Source.Span) :
    match (buildRoutines.go symbols done noted rest).1 with
    | .ok rs => ∃ new, rs = done.reverse ++ new ∧ List.Forall₂
        (fun p r => ∃ spans, buildRoutine symbols p.1 p.2 = (.ok r, spans)) rest new
    | .error e => ∃ p ∈ rest, ∃ spans, buildRoutine symbols p.1 p.2 = (.error e, spans) := by
  induction rest generalizing done noted with
  | nil => exact ⟨[], (List.append_nil _).symm, .nil⟩
  | cons p rest ih =>
    obtain ⟨m, f⟩ := p
    rw [buildRoutines.go]
    generalize hr : buildRoutine symbols m f = outcome
    obtain ⟨answer, spans⟩ := outcome
    cases answer with
    | error e => exact ⟨(m, f), List.mem_cons_self, spans, hr⟩
    | ok r =>
      have ih := ih (r :: done) (spans.reverse ++ noted)
      dsimp only
      generalize (buildRoutines.go symbols (r :: done) _ rest).1 = answer at ih ⊢
      cases answer with
      | ok rs =>
        obtain ⟨new, rfl, hnew⟩ := ih
        exact ⟨r :: new, by simp, .cons ⟨spans, hr⟩ hnew⟩
      | error e =>
        obtain ⟨p, hp, hspans⟩ := ih
        exact ⟨p, List.mem_cons_of_mem _ hp, hspans⟩

/-- The routines of a collected program are those of its functions, one each and in order. -/
structure BuiltProgram (modules : List Surface.Module) (symbols : Symbols) (rs : List Routine) :
    Prop where
  lists : symbols.Lists (functionsOf modules)
  length : rs.length = (functionsOf modules).length
  routine : ∀ (n : Nat) (r : Routine), rs[n]? = some r → ∃ m f, (functionsOf modules)[n]? =
    some (m, f) ∧
    r.Built symbols ∧ r.Of (functionSymbol n m f) f

theorem builtProgram {rs : List Routine} {spans : List Source.Span}
    (hs : Symbols.collect modules = .ok symbols)
    (h : buildRoutines symbols modules = (.ok rs, spans)) : BuiltProgram modules symbols rs := by
  have hlists := Symbols.lists_of_collect hs
  have hgo := buildRoutines_go_spec symbols (functionsOf modules) [] []
  rw [← buildRoutines, h] at hgo
  obtain ⟨new, rfl, hnew⟩ := hgo
  refine ⟨hlists, hnew.length_eq.symm, fun n r hr => ?_⟩
  obtain ⟨hlt, rfl⟩ := List.getElem?_eq_some_iff.mp hr
  have hlt' : n < (functionsOf modules).length := hnew.length_eq ▸ hlt
  obtain ⟨spans', hbuilt⟩ := hnew.get hlt' hlt
  have hf :
      (functionsOf modules)[n]? = some ((functionsOf modules)[n].1, (functionsOf modules)[n].2) :=
    List.getElem?_eq_getElem hlt'
  obtain ⟨symbol, hsymbol, hb, hof⟩ := buildRoutine_eq_ok hbuilt
  have hsame := (hlists.function?_eq hf).symm.trans hsymbol
  obtain rfl := Option.some.inj hsame
  exact ⟨_, _, hf, hb, hof⟩

namespace BuiltProgram

variable {rs : List Routine} {n : Nat} {r : Routine}

theorem id_eq (h : BuiltProgram modules symbols rs) (hr : rs[n]? = some r) : r.id = n := by
  obtain ⟨m, f, -, -, hof⟩ := h.routine n r hr
  exact hof.id

end BuiltProgram

/-! ## Consistency -/

/-- The routines of a collected program stand in the order of the table of functions. -/
theorem routine_of_collect {s : Symbols} {rs : List Routine} {spans : List Source.Span}
    (hs : Symbols.collect modules = .ok s) (h : buildRoutines s modules = (.ok rs, spans)) {k : Nat}
    {r : Routine} (hr : rs[k]? = some r) :
    ∃ g, s.functions[k]? = some g ∧ r.id = k ∧ r.fullName = g.fullName := by
  have hbuilt := builtProgram hs h
  obtain ⟨m, f, hf, -, hof⟩ := hbuilt.routine k r hr
  exact ⟨_, hbuilt.lists.entry hf, hof.id, hof.fullName⟩

/-- The table of symbols stays consistent. After any calls on the empty table, whatever came of
them, module names are distinct, a function's number is its place, the index leads from the full
names of the functions to their numbers and knows no others, no full name is both a function's and a
constant's, and a constant has been declared with its name, its value and the type of its value. A
further call that is refused changes nothing, and one is accepted and adds its entry exactly if its
name is free and its type is right. In a collected program the routines stand in the order of the
table and have the names in it. -/
theorem symbol_table_consistent (calls : List Symbols.Declaration)
    (accepted : List Symbols.Declaration)
    (s : Symbols) (hs : Symbols.empty.performAll calls = (accepted, s)) :
    (s.modules.toList.map (·.name)).Nodup ∧
    (∀ (i : Nat) (g : FunctionSymbol), s.functions[i]? = some g → g.id = i) ∧
    (∀ (full : String) (n : Nat), s.index[full]? = some n ↔
      ∃ g, s.functions[n]? = some g ∧ g.fullName = full) ∧
    (∀ full : String, ¬ (s.index.contains full = true ∧ s.constants.contains full = true)) ∧
    (∀ (full : String) (k : ConstantSymbol), s.constants[full]? = some k ↔
      ∃ m c, .constant m c ∈ accepted ∧ fullName m c.name = full ∧ k = constantSymbol m c ∧
        k.value.ty = .ofName c.type) ∧
    (∀ (d : Symbols.Declaration) (e : SymbolError) (s' : Symbols),
      d.perform s = .error e s' → s' = s) ∧
    (∀ (d : Symbols.Declaration) (s' : Symbols),
      d.perform s = .ok () s' ↔ d.Fits s ∧ s' = d.added s) ∧
    ∀ modules symbols rs spans, Symbols.collect modules = .ok symbols →
      buildRoutines symbols modules = (.ok rs, spans) → rs.length = symbols.functions.size ∧
        ∀ (k : Nat) (r : Routine), rs[k]? = some r →
          ∃ g, symbols.functions[k]? = some g ∧ r.id = k ∧ r.fullName = g.fullName := by
  have hrecords : s.Records accepted := by
    have h := Symbols.records_empty.performAll calls
    rwa [hs, List.nil_append] at h
  refine ⟨hrecords.distinct, fun i g hg => ?_, hrecords.indexed, fun full => ?_, fun full k => ?_,
    fun d e s' h => Symbols.Declaration.eq_of_perform_error h, fun d s' => ?_,
    fun modules symbols rs spans hcollect hbuild => ⟨?_, fun k r hr => ?_⟩⟩
  · rw [← Array.getElem?_toList, hrecords.functions, List.getElem?_mapIdx] at hg
    obtain ⟨p, -, rfl⟩ := Option.map_eq_some_iff.mp hg
    rfl
  · rintro ⟨hindex, hconstant⟩
    rw [Std.HashMap.contains_eq_isSome_getElem?] at hindex hconstant
    rcases hrecords.apart full with h | h
    · rw [h] at hindex
      cases hindex
    · rw [h] at hconstant
      cases hconstant
  · rw [hrecords.constants]
    constructor
    · rintro ⟨⟨m, c⟩, hp, rfl, hname⟩
      obtain ⟨d, hd, hc⟩ := List.mem_filterMap.mp hp
      cases d with
      | constant m' c' =>
        cases hc
        exact ⟨m, c, hd, hname, rfl, hrecords.typed _ hp⟩
      | module | function => cases hc
    · rintro ⟨m, c, hd, hname, rfl, -⟩
      exact ⟨(m, c), List.mem_filterMap.mpr ⟨_, hd, rfl⟩, rfl, hname⟩
  · rw [← hrecords.fault?_eq_none_iff]
    constructor
    · exact Symbols.Declaration.of_perform_ok
    · rintro ⟨hfree, rfl⟩
      rw [d.perform_apply, hfree]
  · rw [(builtProgram hcollect hbuild).length, (Symbols.lists_of_collect hcollect).size]
  · exact routine_of_collect hcollect hbuild hr

/-! ## A table after refusals -/

namespace Refusals

def function (name : String) : Surface.Function where
  name := name
  isPublic := true
  result := .void
  params := []
  body := ⟨[], default⟩
  span := default

/-- A constant that is declared with a type. -/
def constant (name : String) (type : TypeName) : Surface.Constant where
  name := name
  isPublic := true
  type := type
  value := .int 1
  span := default

/-- A module with a constant and two functions. -/
def program (name : String) : Surface.Module where
  name := name
  imports := []
  constants := [constant "k" .int]
  functions := [function "f", function "g"]
  span := default

/-- The module and its declarations, and between them a module, a constant and a function that are
refused: the name of the module is taken, the constant has another type than its value, and the
function has the name of the constant. -/
def calls : List Symbols.Declaration :=
  [.module (program "App"), .module (program "APP"), .constant "App" (constant "k" .int),
    .constant "App" (constant "r" .real), .function "App" (function "K"),
      .function "App" (function "f"),
    .function "App" (function "g")]

def table : Symbols where
  modules := #[{ name := "app", imports := [], span := default }]
  functions := #[functionSymbol 0 "App" (function "f"), functionSymbol 1 "App" (function "g")]
  index := ((∅ : Std.HashMap String Nat).insert "app.f" 0).insert "app.g" 1
  constants := (∅ : Std.HashMap String ConstantSymbol).insert "app.k"
    (constantSymbol "App" (constant "k" .int))

def routine (id : Nat) (name : String) : Routine where
  id := id
  fullName := name
  locals := #[{ name := "$result", ty := .void }]
  paramCount := 0
  body := .seq { ty := .void } [.ret { ty := .void }]

theorem performAll_calls : Symbols.empty.performAll calls =
    (Symbols.declarationsOf [program "App"], table) := by
  cbv

theorem collect_program : Symbols.collect [program "App"] = .ok table := by cbv

theorem buildRoutines_program : buildRoutines table [program "App"] =
    (.ok [routine 0 "app.f", routine 1 "app.g"], []) := by
  cbv

end Refusals

/-- The three calls that are refused leave no trace, and the routines are numbered like the
functions. -/
theorem symbol_table_consistent_refusals :
    Symbols.empty.performAll Refusals.calls =
      (Symbols.declarationsOf [Refusals.program "App"], Refusals.table) ∧
    (Refusals.table.modules.toList.map (·.name)).Nodup ∧
    ¬ Symbols.Declaration.Fits Refusals.table (.function "app" (Refusals.function "K")) ∧
    Symbols.collect [Refusals.program "App"] = .ok Refusals.table ∧
    buildRoutines Refusals.table [Refusals.program "App"] =
      (.ok [Refusals.routine 0 "app.f", Refusals.routine 1 "app.g"], []) ∧
    (∃ g, Refusals.table.functions[1]? = some g ∧ (Refusals.routine 1 "app.g").id = 1 ∧
      (Refusals.routine 1 "app.g").fullName = g.fullName) := by
  obtain ⟨hdistinct, -, -, -, -, -, -, hroutines⟩ :=
    symbol_table_consistent _ _ _ Refusals.performAll_calls
  obtain ⟨-, hroutine⟩ :=
    hroutines _ _ _ _ Refusals.collect_program Refusals.buildRoutines_program
  refine ⟨Refusals.performAll_calls, hdistinct, ?_, Refusals.collect_program,
    Refusals.buildRoutines_program, hroutine 1 _ rfl⟩
  have hname : fullName "app" "K" = "app.k" := by decide +kernel
  simp [Symbols.Declaration.Fits, Symbols.Free, Refusals.function, hname, Refusals.table]

end Codewright
