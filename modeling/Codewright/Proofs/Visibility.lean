import Codewright.Proofs.QualifiedNames

/-!
# Visible symbols

The table holds all symbols under one kind of name, module and symbol joined by a dot, and a
module's name may have dots of its own. As the name of a symbol has none, the full name tells both,
and looking it up finds what the module has declared (`Holds`). So a name means from a module what
the declarations say (`Sees`): its own symbol, or a public one of the first import that has one.
What a module does not see does not matter to it.
-/

namespace Codewright

open Steps

namespace Symbols

/-! ## What modules have -/

/-- The declared name has no dot. -/
def Declaration.IsSimple : Declaration → Prop
  | .module _ => True
  | .constant _ c => '.' ∉ c.name.toList
  | .function _ f => '.' ∉ f.name.toList

/-- A module has a constant under a name, by these declarations. -/
def HasConstant (ds : List Declaration) (m n : String) (k : ConstantSymbol) : Prop :=
  ∃ x c, .constant x c ∈ ds ∧ foldName x = m ∧ foldName c.name = n ∧ k = constantSymbol x c

/-- A module has a function under a name, by these declarations. -/
def HasFunction (ds : List Declaration) (m n : String) (g : FunctionSymbol) : Prop :=
  ∃ i x f, (ds.filterMap Declaration.function?)[i]? = some (x, f) ∧ foldName x = m ∧
    foldName f.name = n ∧
    g = functionSymbol i x f

/-- Looking up full names finds what modules have under names without a dot. -/
structure Holds {α : Type} (find : String → Option α) (nameOf : α → String)
    (has : String → String → α → Prop) : Prop where
  simple : ∀ {m n a}, has m n a → '.' ∉ n.toList
  named : ∀ {m n a}, has m n a → nameOf a = m ++ "." ++ n
  found : ∀ {m n a}, '.' ∉ n.toList → (find (m ++ "." ++ n) = some a ↔ has m n a)

theorem join_inj {m m' n n' : String} (hn : '.' ∉ n.toList) (hn' : '.' ∉ n'.toList)
    (h : m ++ "." ++ n = m' ++ "." ++ n') : m = m' ∧ n = n' := by
  have hsplit := splitQualifier?_join m hn
  rw [h, splitQualifier?_join m' hn'] at hsplit
  obtain ⟨rfl, rfl⟩ := Prod.mk.inj (Option.some.inj hsplit)
  exact ⟨rfl, rfl⟩

theorem dot_notMem_simple {name q n : String} (h : splitQualifier? name = some (q, n)) :
    '.' ∉ n.toList := by
  unfold splitQualifier? at h
  dsimp only at h
  split at h
  · cases h
  · obtain ⟨-, rfl⟩ := Prod.mk.inj (Option.some.inj h)
    rw [String.toList_ofList, List.mem_reverse]
    intro hmem
    exact absurd (List.mem_takeWhile_imp hmem) (by decide)

section

variable {s : Symbols} {ds : List Declaration}

theorem Records.holds_constants (h : s.Records ds) (hds : ∀ d ∈ ds, d.IsSimple) :
    Holds s.constant? (·.fullName) (HasConstant ds) := by
  have hsimple : ∀ {x c}, .constant x c ∈ ds → '.' ∉ (foldName c.name).toList := fun hc =>
    dot_notMem_foldName (hds _ hc)
  refine ⟨?_, ?_, fun {m n k} hn => ?_⟩
  · rintro m n k ⟨x, c, hc, rfl, rfl, rfl⟩
    exact hsimple hc
  · rintro m n k ⟨x, c, hc, rfl, rfl, rfl⟩
    rfl
  · rw [Symbols.constant?, h.constants]
    constructor
    · rintro ⟨⟨x, c⟩, hp, rfl, hname⟩
      obtain ⟨d, hd, hc⟩ := List.mem_filterMap.mp hp
      cases d with
      | constant x' c' =>
        cases hc
        obtain ⟨rfl, rfl⟩ := join_inj (hsimple hd) hn hname
        exact ⟨x, c, hd, rfl, rfl, rfl⟩
      | module | function => cases hc
    · rintro ⟨x, c, hc, rfl, rfl, rfl⟩
      exact ⟨(x, c), List.mem_filterMap.mpr ⟨_, hc, rfl⟩, rfl, rfl⟩

theorem Records.holds_functions (h : s.Records ds) (hds : ∀ d ∈ ds, d.IsSimple) :
    Holds s.function? (·.fullName) (HasFunction ds) := by
  have hsimple : ∀ {i : Nat} {x f}, (ds.filterMap Declaration.function?)[i]? = some (x, f) →
      '.' ∉ (foldName f.name).toList := by
    intro i x f hf
    obtain ⟨d, hd, hf⟩ := List.mem_filterMap.mp (List.mem_of_getElem? hf)
    cases d with
    | function x' f' =>
      cases hf
      exact dot_notMem_foldName (hds _ hd)
    | module | constant => cases hf
  have hlists := h.lists
  refine ⟨?_, ?_, fun {m n g} hn => ?_⟩
  · rintro m n g ⟨i, x, f, hf, rfl, rfl, rfl⟩
    exact hsimple hf
  · rintro m n g ⟨i, x, f, hf, rfl, rfl, rfl⟩
    rfl
  · constructor
    · intro hg
      obtain ⟨i, hi, hentry⟩ := Option.bind_eq_some_iff.mp hg
      obtain ⟨x, f, hf, hname⟩ := hlists.index _ i hi
      rw [hlists.entry hf] at hentry
      obtain ⟨rfl, rfl⟩ := join_inj (hsimple hf) hn hname
      exact ⟨i, x, f, hf, rfl, rfl, (Option.some.inj hentry).symm⟩
    · rintro ⟨i, x, f, hf, rfl, rfl, rfl⟩
      exact hlists.function?_eq hf

end

/-! ## What a module sees -/

/-- What a name means from a module, where `has` says what modules have under names. -/
inductive Sees {α : Type} (has : String → String → α → Prop) (isPublic : α → Bool)
    (home : ModuleSymbol) :
    String → α → Prop
  /-- The module's own symbol. -/
  | own {n : String} {a : α} (simple : '.' ∉ n.toList) (found : has home.name n a) :
    Sees has isPublic home n a
  /-- Where it has none, the public symbol of the first import that has one. -/
  | imported {n i : String} {a : α} {before after : List String} (simple : '.' ∉ n.toList)
    (missing : ∀ b, ¬ has home.name n b) (imports : home.imports = before ++ i :: after)
    (first : ∀ j ∈ before, ∀ b, has j n b → isPublic b = false) (found : has i n a)
    (visible : isPublic a = true) : Sees has isPublic home n a
  /-- The module's own symbol by its full name. -/
  | qualifiedOwn {n : String} {a : α} (found : has home.name n a) :
    Sees has isPublic home (home.name ++ "." ++ n) a
  /-- The public symbol of an import by its full name. -/
  | qualified {q n : String} {a : α} (other : q ≠ home.name) (imported : q ∈ home.imports)
    (found : has q n a) (visible : isPublic a = true) : Sees has isPublic home (q ++ "." ++ n) a

section

variable {α : Type} {find : String → Option α} {nameOf : α → String} {isPublic : α → Bool}
  {has has' : String → String → α → Prop} {home : ModuleSymbol} {name q n : String} {a : α}

theorem dot_mem_join (q n : String) : '.' ∈ (q ++ "." ++ n).toList := by
  rw [toList_join]
  exact List.mem_append_right _ List.mem_cons_self

theorem sees_simple (hn : '.' ∉ n.toList) : Sees has isPublic home n a ↔
    has home.name n a ∨ (∀ b, ¬ has home.name n b) ∧ ∃ before i after,
      home.imports = before ++ i :: after ∧ (has i n a ∧ isPublic a = true) ∧
        ∀ j ∈ before, ∀ b, has j n b → isPublic b = false := by
  constructor
  · intro h
    cases h with
    | own _ found => exact .inl found
    | imported _ missing imports first found visible =>
      exact .inr ⟨missing, _, _, _, imports, ⟨found, visible⟩, first⟩
    | qualifiedOwn | qualified => exact absurd (dot_mem_join _ _) hn
  · rintro (found | ⟨missing, before, i, after, imports, ⟨found, visible⟩, first⟩)
    · exact .own hn found
    · exact .imported hn missing imports first found visible

theorem Holds.sees_join (h : Holds find nameOf has) (hn : '.' ∉ n.toList) :
    Sees has isPublic home (q ++ "." ++ n) a ↔
      (q = home.name ∧ has q n a) ∨ (q ≠ home.name ∧ q ∈ home.imports ∧ has q n a ∧
        isPublic a = true) := by
  constructor
  · generalize hname : q ++ "." ++ n = name
    intro hsees
    cases hsees with
    | own simple | imported simple => exact absurd (hname ▸ dot_mem_join q n) simple
    | qualifiedOwn found =>
      obtain ⟨rfl, rfl⟩ := join_inj hn (h.simple found) hname
      exact .inl ⟨rfl, found⟩
    | qualified other imported found visible =>
      obtain ⟨rfl, rfl⟩ := join_inj hn (h.simple found) hname
      exact .inr ⟨other, imported, found, visible⟩
  · rintro (⟨rfl, found⟩ | ⟨other, imported, found, visible⟩)
    · exact .qualifiedOwn found
    · exact .qualified other imported found visible

/-- Resolving a name gives what the module sees under it. -/
theorem Holds.resolve?_iff {s : Symbols} (h : Holds find nameOf has)
    (hhome : s.module? home.name = some home) :
    s.resolve? find isPublic home.name name = some a ↔ Sees has isPublic home name a := by
  unfold resolve?
  simp only [hhome]
  cases hsplit : splitQualifier? name with
  | some p =>
    obtain ⟨q, n⟩ := p
    have hn := dot_notMem_simple hsplit
    rw [← join_of_splitQualifier? hsplit, h.sees_join hn]
    dsimp only
    by_cases hq : q = home.name
    · simp [hq, h.found hn]
    · by_cases himport : q ∈ home.imports
      · simp [hq, himport, Option.filter_eq_some_iff, h.found hn]
      · simp [hq, himport]
  | none =>
    have hn := dot_notMem_of_splitQualifier? hsplit
    rw [sees_simple hn]
    dsimp only
    cases hown : find (home.name ++ "." ++ name) with
    | some b =>
      have hb := (h.found hn).mp hown
      have hunique : ∀ {c}, has home.name name c → b = c := fun hc =>
        Option.some.inj (hown.symm.trans ((h.found hn).mpr hc))
      constructor
      · rintro hsame
        obtain rfl := Option.some.inj hsame
        exact .inl hb
      · rintro (hc | ⟨hnone, -⟩)
        · rw [hunique hc]
        · exact absurd hb (hnone b)
    | none =>
      have hnone : ∀ b, ¬ has home.name name b := fun b hb => by
        rw [(h.found hn).mpr hb] at hown
        cases hown
      simp only [List.findSome?_eq_some_iff, Option.filter_eq_some_iff,
        Option.filter_eq_none_iff, h.found hn, Bool.not_eq_true]
      simp [hnone]

/-- A private symbol that a module sees is its own. -/
theorem Holds.own_of_private (h : Holds find nameOf has) (hsees : Sees has isPublic home name a)
    (hprivate : isPublic a = false) {m n : String} (ha : has m n a) : m = home.name := by
  have hown : ∃ n', has home.name n' a := by
    cases hsees with
    | own simple found => exact ⟨_, found⟩
    | qualifiedOwn found => exact ⟨_, found⟩
    | imported _ _ _ _ _ visible => cases hprivate.symm.trans visible
    | qualified _ _ _ visible => cases hprivate.symm.trans visible
  obtain ⟨n', hn'⟩ := hown
  exact (join_inj (h.simple ha) (h.simple hn') ((h.named ha).symm.trans (h.named hn'))).1

/-- A module sees the same if it has the same itself and its imports have the same public
symbols. -/
theorem Sees.of_same (hown : ∀ n a, has' home.name n a ↔ has home.name n a)
    (himports : ∀ i ∈ home.imports, i ≠ home.name → ∀ n a, isPublic a = true →
      (has' i n a ↔ has i n a))
    (h : Sees has isPublic home name a) : Sees has' isPublic home name a := by
  have hpublic : ∀ i ∈ home.imports, ∀ n a, isPublic a = true → (has' i n a ↔ has i n a) := by
    intro i hi n a ha
    by_cases hhome : i = home.name
    · rw [hhome]
      exact hown n a
    · exact himports i hi hhome n a ha
  cases h with
  | own simple found => exact .own simple ((hown _ _).mpr found)
  | @imported _ i _ before after simple missing imports first found visible =>
    refine .imported simple (fun b hb => missing b ((hown _ _).mp hb)) imports (fun j hj b hb => ?_)
      ((hpublic i (by simp [imports]) _ a visible).mpr found) visible
    -- a public symbol of an import before would have been there already
    by_contra hvisible
    rw [Bool.not_eq_false] at hvisible
    have hb' := (hpublic j (by simp [imports, hj]) _ b hvisible).mp hb
    rw [first j hj b hb'] at hvisible
    cases hvisible
  | qualifiedOwn found => exact .qualifiedOwn ((hown _ _).mpr found)
  | qualified other imported found visible =>
    exact .qualified other imported ((hpublic _ imported _ _ visible).mpr found) visible

theorem sees_congr (hown : ∀ n a, has' home.name n a ↔ has home.name n a)
    (himports : ∀ i ∈ home.imports, i ≠ home.name → ∀ n a, isPublic a = true →
      (has' i n a ↔ has i n a)) :
    Sees has' isPublic home name a ↔ Sees has isPublic home name a :=
  ⟨.of_same (fun n a => (hown n a).symm) fun i hi hhome n a ha => (himports i hi hhome n a ha).symm,
    .of_same hown himports⟩

end

/-! ## What a module does not see -/

/-- A declaration that cannot matter to a module: of a module, or of a symbol in another module that
is private or that is not imported. -/
def Declaration.Hidden (home : ModuleSymbol) : Declaration → Prop
  | .module _ => True
  | .constant m c => foldName m ≠ home.name ∧ (c.isPublic = false ∨ foldName m ∉ home.imports)
  | .function m f => foldName m ≠ home.name ∧ (f.isPublic = false ∨ foldName m ∉ home.imports)

section

variable {ds : List Declaration} {d : Declaration} {home : ModuleSymbol} {m n : String}

theorem hasConstant_concat {k : ConstantSymbol} : HasConstant (ds ++ [d]) m n k ↔
    HasConstant ds m n k ∨
      ∃ x c, d = .constant x c ∧ foldName x = m ∧ foldName c.name = n ∧ k = constantSymbol x c := by
  simp only [HasConstant, List.mem_append, List.mem_singleton]
  constructor
  · rintro ⟨x, c, hc | hc, h⟩
    · exact .inl ⟨x, c, hc, h⟩
    · exact .inr ⟨x, c, hc.symm, h⟩
  · rintro (⟨x, c, hc, h⟩ | ⟨x, c, hc, h⟩)
    · exact ⟨x, c, .inl hc, h⟩
    · exact ⟨x, c, .inr hc.symm, h⟩

theorem hasFunction_concat {g : FunctionSymbol} (h : HasFunction (ds ++ [d]) m n g) :
    HasFunction ds m n g ∨
      ∃ i x f, d = .function x f ∧ foldName x = m ∧ foldName f.name = n ∧
          g = functionSymbol i x f := by
  obtain ⟨i, x, f, hf, h⟩ := h
  rw [List.filterMap_append, List.getElem?_append] at hf
  split at hf
  · exact .inl ⟨i, x, f, hf, h⟩
  · have hmem := List.mem_of_getElem? hf
    simp only [List.mem_filterMap, List.mem_singleton] at hmem
    obtain ⟨d', rfl, hd⟩ := hmem
    cases d' with
    | function x' f' =>
      cases hd
      exact .inr ⟨i, x, f, rfl, h⟩
    | module | constant => cases hd

theorem HasFunction.concat {g : FunctionSymbol} (h : HasFunction ds m n g) (d : Declaration) :
    HasFunction (ds ++ [d]) m n g := by
  obtain ⟨i, x, f, hf, h⟩ := h
  refine ⟨i, x, f, ?_, h⟩
  rw [List.filterMap_append, List.getElem?_append_left (List.getElem?_eq_some_iff.mp hf).1, hf]

theorem Declaration.Hidden.sees_constants (h : d.Hidden home) {name : String} {k : ConstantSymbol} :
    Sees (HasConstant (ds ++ [d])) (·.isPublic) home name k ↔
      Sees (HasConstant ds) (·.isPublic) home name k := by
  refine sees_congr (fun n k => ?_) fun i hi _ n k hpublic => ?_
  · rw [hasConstant_concat, or_iff_left]
    rintro ⟨x, c, rfl, hx, -⟩
    exact h.1 hx
  · rw [hasConstant_concat, or_iff_left]
    rintro ⟨x, c, rfl, rfl, -, rfl⟩
    rcases h.2 with hprivate | himports
    · cases hprivate.symm.trans hpublic
    · exact himports hi

theorem Declaration.Hidden.sees_functions (h : d.Hidden home) {name : String} {g : FunctionSymbol} :
    Sees (HasFunction (ds ++ [d])) (·.isPublic) home name g ↔
      Sees (HasFunction ds) (·.isPublic) home name g := by
  refine sees_congr (fun n g => ?_) fun i hi _ n g hpublic => ?_
  · refine ⟨fun hg => (hasFunction_concat hg).resolve_right ?_, (·.concat d)⟩
    rintro ⟨_, x, f, rfl, hx, -⟩
    exact h.1 hx
  · refine ⟨fun hg => (hasFunction_concat hg).resolve_right ?_, (·.concat d)⟩
    rintro ⟨_, x, f, rfl, rfl, -, rfl⟩
    rcases h.2 with hprivate | himports
    · cases hprivate.symm.trans hpublic
    · exact himports hi

end

section

variable {s : Symbols} {ds : List Declaration} {home : ModuleSymbol} {name : String}

theorem Records.resolveConstant?_iff (h : s.Records ds) (hds : ∀ d ∈ ds, d.IsSimple)
    (hhome : home ∈ s.modules) {k : ConstantSymbol} :
    s.resolveConstant? home.name name = some k ↔ Sees (HasConstant ds) (·.isPublic) home name k :=
  (h.holds_constants hds).resolve?_iff (module?_of_mem h.distinct hhome)

theorem Records.resolveFunction?_iff (h : s.Records ds) (hds : ∀ d ∈ ds, d.IsSimple)
    (hhome : home ∈ s.modules) {g : FunctionSymbol} :
    s.resolveFunction? home.name name = some g ↔ Sees (HasFunction ds) (·.isPublic) home name g :=
  (h.holds_functions hds).resolve?_iff (module?_of_mem h.distinct hhome)

theorem Declaration.mem_modules_added (d : Declaration) (h : home ∈ s.modules) :
    home ∈ (d.added s).modules := by
  cases d with
  | module m => exact Array.mem_push.mpr (.inl h)
  | constant | function => exact h

theorem performAll_sublist (s : Symbols) (calls : List Declaration) :
    (s.performAll calls).1.Sublist calls := by
  induction calls generalizing s with
  | nil => exact List.Sublist.refl _
  | cons d rest ih =>
    rw [performAll]
    split
    · exact (ih _).cons_cons d
    · exact (ih _).cons d

end

end Symbols

section

open Symbols

/-- Names mean what is visible. In a table that any calls have built, where declared names have no
dot, a name resolves from a module to what the module sees by the accepted declarations, and to
nothing if it sees nothing. A private symbol is found from its own module only. A further
declaration that is hidden from the module changes the meaning of no name there. -/
theorem resolution_sees_visible_symbols (calls accepted : List Declaration) (s : Symbols)
    (hs : Symbols.empty.performAll calls = (accepted, s)) (hsimple : ∀ d ∈ calls, d.IsSimple)
    (home : ModuleSymbol) (hhome : home ∈ s.modules) :
    (∀ name k, s.resolveConstant? home.name name = some k ↔
      Sees (HasConstant accepted) (·.isPublic) home name k) ∧
    (∀ name g, s.resolveFunction? home.name name = some g ↔
      Sees (HasFunction accepted) (·.isPublic) home name g) ∧
    (∀ name k, s.resolveConstant? home.name name = some k → k.isPublic = false →
      ∀ m n, HasConstant accepted m n k → m = home.name) ∧
    (∀ name g, s.resolveFunction? home.name name = some g → g.isPublic = false →
      ∀ m n, HasFunction accepted m n g → m = home.name) ∧
    ∀ (d : Declaration) (s' : Symbols), d.IsSimple → d.Hidden home →
      d.perform s = .ok () s' → ∀ name,
      s'.resolveConstant? home.name name = s.resolveConstant? home.name name ∧
        s'.resolveFunction? home.name name = s.resolveFunction? home.name name := by
  have hrecords : s.Records accepted := by
    have h := records_empty.performAll calls
    rwa [hs, List.nil_append] at h
  have hds : ∀ d ∈ accepted, d.IsSimple := by
    have hsublist := performAll_sublist empty calls
    rw [hs] at hsublist
    exact fun d hd => hsimple d (hsublist.subset hd)
  have hconstants : ∀ name k, s.resolveConstant? home.name name = some k ↔
      Sees (HasConstant accepted) (·.isPublic) home name k := fun name k =>
    hrecords.resolveConstant?_iff hds hhome
  have hfunctions : ∀ name g, s.resolveFunction? home.name name = some g ↔
      Sees (HasFunction accepted) (·.isPublic) home name g := fun name g =>
    hrecords.resolveFunction?_iff hds hhome
  refine ⟨hconstants, hfunctions, ?_, ?_, ?_⟩
  · intro name k hk hprivate m n hm
    exact (hrecords.holds_constants hds).own_of_private ((hconstants name k).mp hk) hprivate hm
  · intro name g hg hprivate m n hm
    exact (hrecords.holds_functions hds).own_of_private ((hfunctions name g).mp hg) hprivate hm
  · intro d s' hd hhidden hperform name
    obtain ⟨hfits, rfl⟩ := Declaration.of_perform_ok hperform
    have hrecords' := hrecords.added (hrecords.fault?_eq_none_iff.mp hfits)
    have hds' : ∀ d' ∈ accepted ++ [d], d'.IsSimple :=
      List.forall_mem_append.mpr ⟨hds, List.forall_mem_singleton.mpr hd⟩
    have hhome' := d.mem_modules_added hhome
    constructor
    · refine Option.ext fun k => ?_
      rw [hrecords'.resolveConstant?_iff hds' hhome', hhidden.sees_constants, hconstants]
    · refine Option.ext fun g => ?_
      rw [hrecords'.resolveFunction?_iff hds' hhome', hhidden.sees_functions, hfunctions]

end

/-! ## A private constant before a public one -/

namespace Overlaid

def constant (name : String) (isPublic : Bool) (value : Int64) : Surface.Constant where
  name := name
  isPublic := isPublic
  type := .int
  value := .int value
  span := default

def module (name : String) (imports : List String) : Surface.Module where
  name := name
  imports := imports.map fun i => ⟨i, default⟩
  constants := []
  functions := []
  span := default

/-- The module `app` imports `lib` and then `lib.sub`. -/
def calls : List Symbols.Declaration :=
  [.module (module "app" ["Lib", "Lib.Sub"]), .module (module "lib" []),
    .module (module "lib.sub" []),
    .constant "lib" (constant "k" false 1), .constant "Lib.Sub" (constant "K" true 2)]

def app : ModuleSymbol := ⟨"app", ["lib", "lib.sub"], default⟩

def table : Symbols where
  modules := #[app, ⟨"lib", [], default⟩, ⟨"lib.sub", [], default⟩]
  constants := ((∅ : Std.HashMap String ConstantSymbol).insert "lib.k"
    (constantSymbol "lib" (constant "k" false 1))).insert "lib.sub.k"
      (constantSymbol "Lib.Sub" (constant "K" true 2))

theorem names : foldName "app" = "app" ∧ foldName "lib" = "lib" ∧ foldName "Lib" = "lib" ∧
    foldName "lib.sub" = "lib.sub" ∧ foldName "Lib.Sub" = "lib.sub" ∧ foldName "K" = "k" ∧
    fullName "lib" "k" = "lib.k" ∧ fullName "Lib.Sub" "K" = "lib.sub.k" ∧
    fullName "lib" "j" = "lib.j" := by decide +kernel

theorem performAll_calls : Symbols.empty.performAll calls = (calls, table) := by cbv

theorem isSimple_calls : ∀ d ∈ calls, d.IsSimple := by
  simp [calls, Symbols.Declaration.IsSimple, constant]

/-- The constant of `lib`, which comes first, is private. -/
theorem first_visible : ∀ j ∈ ["lib"], ∀ b, Symbols.HasConstant calls j "k" b →
    b.isPublic = false := by
  obtain ⟨-, -, -, -, hsub, -⟩ := names
  rintro j hj b ⟨x, c, hc, rfl, -, rfl⟩
  rw [List.mem_singleton] at hj
  simp only [calls, List.mem_cons, reduceCtorEq, List.not_mem_nil, false_or, or_false,
    Symbols.Declaration.constant.injEq] at hc
  rcases hc with ⟨rfl, rfl⟩ | ⟨rfl, rfl⟩
  · rfl
  · rw [hsub] at hj
    exact absurd hj (by decide)

theorem missing (b : ConstantSymbol) : ¬ Symbols.HasConstant calls "app" "k" b := by
  obtain ⟨-, hlib, -, -, hsub, -⟩ := names
  rintro ⟨x, c, hc, hx, -, -⟩
  simp only [calls, List.mem_cons, reduceCtorEq, List.not_mem_nil, false_or, or_false,
    Symbols.Declaration.constant.injEq] at hc
  rcases hc with ⟨rfl, rfl⟩ | ⟨rfl, rfl⟩
  · rw [hlib] at hx
    exact absurd hx (by decide)
  · rw [hsub] at hx
    exact absurd hx (by decide)

end Overlaid

section

open Overlaid

/-- From `app` the name `k` means the constant of `lib.sub`, as that of `lib` is private, and it
still does when `lib` gets another private constant. -/
theorem resolution_sees_visible_symbols_overlaid :
    Symbols.empty.performAll calls = (calls, table) ∧ (∀ d ∈ calls, d.IsSimple) ∧
      app ∈ table.modules ∧
    table.resolveConstant? "app" "k" = some (constantSymbol "Lib.Sub" (constant "K" true 2)) ∧
    ∃ s', (Symbols.Declaration.constant "lib" (constant "j" false 3)).perform table = .ok () s' ∧
      s'.resolveConstant? "app" "k" = some (constantSymbol "Lib.Sub" (constant "K" true 2)) := by
  have hhome : app ∈ table.modules := by simp [table]
  obtain ⟨hconstants, -, -, -, hhidden⟩ :=
    resolution_sees_visible_symbols calls calls table performAll_calls isSimple_calls app hhome
  obtain ⟨-, hlib, -, -, hsub, hk, -, -, hj⟩ := names
  have hfound :
      Symbols.HasConstant calls "lib.sub" "k" (constantSymbol "Lib.Sub" (constant "K" true 2)) :=
    ⟨"Lib.Sub", constant "K" true 2, by simp [calls], hsub, hk, rfl⟩
  have himports : app.imports = ["lib"] ++ "lib.sub" :: [] := rfl
  have hresolve : table.resolveConstant? "app" "k" =
      some (constantSymbol "Lib.Sub" (constant "K" true 2)) :=
    (hconstants "k" _).mpr (.imported (by decide) missing himports first_visible hfound rfl)
  have hperform : (Symbols.Declaration.constant "lib" (constant "j" false 3)).perform table =
      .ok () (Symbols.Declaration.added table (.constant "lib" (constant "j" false 3))) := by
    simp [Symbols.Declaration.perform_apply, Symbols.Declaration.fault?, Symbols.declaredAt?,
      Symbols.constant?, Symbols.function?, table, constant, hj, Value.ty, Ty.ofName]
  have hsimple : Symbols.Declaration.IsSimple (.constant "lib" (constant "j" false 3)) := by
    simp [Symbols.Declaration.IsSimple, constant]
  have hother : Symbols.Declaration.Hidden app (.constant "lib" (constant "j" false 3)) :=
    ⟨by rw [hlib]; decide, .inl rfl⟩
  refine ⟨performAll_calls, isSimple_calls, hhome, hresolve, _, hperform, ?_⟩
  exact (hhidden _ _ hsimple hother hperform "k").1.trans hresolve

end

end Codewright
