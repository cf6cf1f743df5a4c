import Codewright.Proofs.Surface.Declarations

/-!
# Modules are read as they are written

A module that is read without a report is derived by the grammar of modules, with the imports,
constants and functions of the result in the order of the source; also where something was passed
over after a failure, their regions are laid on the tokens (`laid_parseModule`). The rendering of a
module is read back without a report (`declarations_of_rendering`). Constants and functions are
treated alike, as declarations: reading them is one loop, and what it has collected is a fold over
the declarations.
-/

namespace Codewright.Surface

open Source (Span)
open Read (Declaration Draft)

/-! ## The grammar of modules -/

/-- The semicolon that may stand behind a part of a module. -/
def closing (closed : Bool) : List Kind := if closed then [.semicolon] else []

/-- The tokens that spell the header of a module with this name. -/
inductive Heads : String → List Kind → Prop
  | missing : Heads "main" []
  | named (part : String) (parts : List String) (closed : Bool) :
    Heads (joinName part parts) (.kwModule :: (partKinds part parts ++ closing closed))

/-- The tokens that spell imports. -/
inductive Imports : List Import → List Kind → Prop
  | nil : Imports [] []
  | cons {i : Import} {is : List Import} {ks : List Kind} (part : String) (parts : List String)
    (closed : Bool) (hname : i.name = joinName part parts) (h : Imports is ks) :
    Imports (i :: is) (.kwImport :: (partKinds part parts ++ (closing closed ++ ks)))

/-- The tokens that spell declarations. Semicolons may stand before, between and after them. -/
inductive DeclaresAll : List Declaration → List Kind → Prop
  | nil : DeclaresAll [] []
  | semicolon {ds : List Declaration} {ks : List Kind} (h : DeclaresAll ds ks) :
    DeclaresAll ds (.semicolon :: ks)
  | cons {d : Declaration} {ds : List Declaration} {ks ks' : List Kind} (h : Declares d ks)
    (hmore : DeclaresAll ds ks') : DeclaresAll (d :: ds) (ks ++ ks')

def Read.Declaration.constant? : Declaration → Option Constant
  | .constant c => some c
  | .function _ => none

def Read.Declaration.function? : Declaration → Option Function
  | .constant _ => none
  | .function f => some f

/-- The tokens are a header, imports and declarations, and the module lists what they spell in
order. -/
def Module.Derives (m : Module) (ks : List Kind) : Prop :=
  ∃ head imports declarations ds, ks = head ++ (imports ++ declarations) ∧ Heads m.name head ∧
    Imports m.imports imports ∧ DeclaresAll ds declarations ∧
    m.constants = ds.filterMap Declaration.constant? ∧
      m.functions = ds.filterMap Declaration.function?

/-! ## Trees without places -/

def Import.unplaced (i : Import) : Import := { i with span := default }

/-- The module with all places dropped. -/
def Module.unplaced (m : Module) : Module :=
  { m with
    imports := m.imports.map Import.unplaced
    constants := m.constants.map Constant.unplaced
    functions := m.functions.map Function.unplaced
    span := default }

/-! ## The loops over imports and declarations -/

section Loops

open Read Reading

variable {eof : Span} {d : Draft} {ts rest : List Token}

theorem laid_skipSemicolon (ts : List Token) : ∃ closed, Laid (closing closed)
    [] ts (skipSemicolon ts) := by
  unfold skipSemicolon
  rcases after?_cases .semicolon ts with ⟨-, hnone⟩ | ⟨t, rest, rfl, hk, h, hsome⟩
  · simp only [hnone]
    exact ⟨false, laid_refl ts⟩
  · simp only [hsome]
    exact ⟨true, laid_mark hk⟩

theorem skipSemicolon_suffix (ts : List Token) : skipSemicolon ts <:+ ts := by
  obtain ⟨_, hlaid⟩ := laid_skipSemicolon ts
  exact hlaid.suffix

theorem toDeclaration_suffix (ts : List Token) : toDeclaration ts <:+ ts := by
  induction ts with
  | nil => exact List.suffix_rfl
  | cons t ts ih =>
    rw [toDeclaration]
    split
    · exact List.suffix_rfl
    · exact ih.trans (List.suffix_cons t ts)

theorem resume_suffix (ts : List Token) : resume ts <:+ ts :=
  (toDeclaration_suffix ts.tail).trans (List.tail_suffix ts)

theorem skipSemicolon_closing {closed : Bool} (hts : ts.map (·.kind) = closing closed)
    (hrest : front rest ≠ some .semicolon) : skipSemicolon (ts ++ rest) = rest := by
  unfold skipSemicolon
  cases closed with
  | true =>
    obtain ⟨t, rfl, hk⟩ := List.map_eq_singleton_iff.mp hts
    simp only [List.singleton_append, after?_of_kind hk]
  | false =>
    obtain rfl := List.map_eq_nil_iff.mp hts
    simp only [List.nil_append, after?_eq_none hrest]

theorem foldl_declare (ds : List Declaration) (d : Draft) : ds.foldl Draft.declare d =
    { d with
      constants := (ds.filterMap Declaration.constant?).reverse ++ d.constants
      functions := (ds.filterMap Declaration.function?).reverse ++ d.functions } := by
  induction ds generalizing d with
  | nil => rfl
  | cons x ds ih =>
    rw [List.foldl_cons, ih]
    cases x <;> simp [Draft.declare, List.filterMap_cons, Declaration.constant?,
      Declaration.function?]

/-- Declarations are laid on the tokens. If there is no report, they are spelled by all of them. -/
theorem laid_declarations (eof : Span) (d : Draft) (ts : List Token) :
    ∃ (ds : List Declaration) (reports : List Diagnostic) (ks : List Kind),
      declarations eof d ts = { ds.foldl Draft.declare d with reports } ∧
      Laid ks (ds.map Declaration.nest) ts [] ∧
          (reports = [] → d.reports = [] ∧ DeclaresAll ds ks) := by
  fun_induction declarations eof d ts with
  | case1 d => exact ⟨[], d.reports, [], rfl, laid_refl [], fun h => ⟨h, .nil⟩⟩
  | case2 d t rest hk hrest ih =>
    obtain ⟨ds, reports, ks, heq, hlaid, hall⟩ := ih
    exact ⟨ds, reports, _, heq, (laid_mark hk).append hlaid, fun h =>
      ⟨(hall h).1, .semicolon (hall h).2⟩⟩
  | case3 d t rest hk x rest₁ hrest hx ih =>
    obtain ⟨ks, hdeclares, hlaid⟩ := (takes_declaration t rest).of_gives ⟨hrest, hx⟩
    obtain ⟨ds, reports, ks', heq, hlaid', hall⟩ := ih
    refine ⟨x :: ds, reports, _, heq, hlaid.append hlaid', fun h =>
      ⟨?_, .cons hdeclares (hall h).2⟩⟩
    cases x <;> exact (hall h).1
  | case4 d t rest hk e rest₁ h₁ hx hrest ih =>
    have hx' := takes_declaration t rest
    rw [hx] at hx'
    obtain ⟨ks, hlaid⟩ := laid_skip ((resume_suffix rest₁).trans hx')
    obtain ⟨ds, reports, ks', heq, hlaid', hall⟩ := ih
    refine ⟨ds, reports, _, ?_, hlaid.append hlaid', fun h => ?_⟩
    · rw [heq, foldl_declare, foldl_declare]
      rfl
    · -- A failure leaves a report, and no report is taken back.
      cases (hall h).1

/-- Imports are laid on the tokens in front. If there is no report, they are spelled by them. -/
theorem laid_imports {d' : Draft} (h : imports eof d ts = (d', rest)) :
    ∃ (is : List Import) (reports : List Diagnostic) (ks : List Kind),
      d' = { d with imports := is.reverse ++ d.imports, reports } ∧
      Laid ks (is.map Import.nest) ts rest ∧ (reports = [] → d.reports = [] ∧ Imports is ks) := by
  fun_induction imports eof d ts with
  | case1 d =>
    obtain ⟨rfl, rfl⟩ := Prod.mk.inj h
    exact ⟨[], d.reports, [], rfl, laid_refl [], fun h => ⟨h, .nil⟩⟩
  | case2 d t ts hk name span rest₁ h₁ hname hrest ih =>
    obtain ⟨part, parts, hjoin, hlaid⟩ := (takes_qualifiedName .importName ts).of_gives ⟨h₁, hname⟩
    obtain ⟨closed, hclosed⟩ := laid_skipSemicolon rest₁
    obtain ⟨is, reports, ks, rfl, hmore, hall⟩ := ih h
    have himport := ((laid_token hk).append hlaid).node rfl rfl (List.nil_sublist _)
    refine ⟨⟨name, t.span.join span⟩ :: is, reports,
      _, by simp, himport.append (hclosed.append hmore),
      fun h => ⟨(hall h).1, ?_⟩⟩
    simpa using Imports.cons part parts closed hjoin (hall h).2
  | case3 d t ts hk e rest₁ h₁ hname hrest ih =>
    have hname' := takes_qualifiedName .importName ts
    rw [hname] at hname'
    obtain ⟨ks, hlaid⟩ := laid_skip ((((skipSemicolon_suffix _).trans (resume_suffix rest₁)).trans
      hname').trans (List.suffix_cons t ts))
    obtain ⟨is, reports, ks', rfl, hmore, hall⟩ := ih h
    refine ⟨is, reports, _, rfl, hlaid.append hmore, fun h => ?_⟩
    cases (hall h).1
  | case4 d t ts hk =>
    obtain ⟨rfl, rfl⟩ := Prod.mk.inj h
    exact ⟨[], d.reports, [], rfl, laid_refl _, fun h => ⟨h, .nil⟩⟩

/-- A header that is read without a report is spelled by the tokens in front. -/
theorem laid_header (h : header eof ts = (d, rest)) :
    ∃ name reports ks, d = { name, reports } ∧ Laid ks [] ts rest ∧
        (reports = [] → Heads name ks) := by
  unfold header at h
  rcases after?_cases .kwModule ts with ⟨-, hnone⟩ | ⟨t, ts', rfl, hk, hlt, hsome⟩
  · simp only [hnone] at h
    obtain ⟨rfl, rfl⟩ := Prod.mk.inj h
    exact ⟨"main", [], [], rfl, laid_refl ts, fun _ => .missing⟩
  · simp only [hsome] at h
    have hname' := takes_qualifiedName .moduleName ts'
    cases hname : qualifiedName .moduleName ts' with
    | failed e rest₁ h₁ =>
      simp only [hname] at h
      obtain ⟨rfl, rfl⟩ := Prod.mk.inj h
      rw [hname] at hname'
      obtain ⟨ks, hlaid⟩ := laid_skip ((((skipSemicolon_suffix _).trans (resume_suffix rest₁)).trans
        hname').trans (List.suffix_cons t ts'))
      exact ⟨_, _, ks, rfl, hlaid, fun h => by cases h⟩
    | ok result rest₁ h₁ =>
      simp only [hname] at h
      obtain ⟨rfl, rfl⟩ := Prod.mk.inj h
      rw [hname] at hname'
      obtain ⟨part, parts, hjoin, hlaid⟩ := hname'
      obtain ⟨closed, hclosed⟩ := laid_skipSemicolon rest₁
      have hhead := (laid_mark hk).append (hlaid.append hclosed)
      exact ⟨_, _, _, rfl, hhead.sublist (List.nil_sublist _), fun _ =>
        hjoin ▸ .named part parts closed⟩

theorem declarations_semicolon {t : Token} (hk : t.kind = .semicolon) :
    declarations eof d (t :: ts) = declarations eof d ts := by
  rw [declarations, if_pos hk]

theorem declarations_declaration {t : Token} {x : Declaration} (hk : opensDeclaration t.kind = true)
    (h : (declaration t ts).Gives x rest) :
    declarations eof d (t :: ts) = declarations eof (d.declare x) rest := by
  obtain ⟨hshort, h⟩ := h
  have hsemi : t.kind ≠ .semicolon := by
    intro hsemi
    rw [hsemi] at hk
    cases hk
  rw [declarations, if_neg hsemi]
  simp only [h]

theorem declarations_closing {closed : Bool} (hts : ts.map (·.kind) = closing closed) :
    declarations eof d (ts ++ rest) = declarations eof d rest := by
  cases closed with
  | true =>
    obtain ⟨t, rfl, hk⟩ := List.map_eq_singleton_iff.mp hts
    exact declarations_semicolon hk
  | false =>
    obtain rfl := List.map_eq_nil_iff.mp hts
    rfl

/-- Renderings of declarations are read back, with a semicolon behind each of them or without. -/
theorem declarations_of_rendering (closed : Bool) {ds : List Declaration} (d : Draft)
    (hsettled : ∀ x ∈ ds, x.settled = true)
    (hkinds : ts.map (·.kind) = ds.flatMap fun x => x.rendering ++ closing closed) :
    ∃ ds' : List Declaration, ds'.map Declaration.unplaced = ds.map Declaration.unplaced ∧
      declarations eof d ts = ds'.foldl Draft.declare d := by
  induction ds generalizing d ts with
  | nil =>
    obtain rfl := List.map_eq_nil_iff.mp hkinds
    exact ⟨[], rfl, by rw [declarations]; rfl⟩
  | cons x ds ih =>
    rw [List.flatMap_cons, List.append_assoc] at hkinds
    obtain ⟨ts₁, ts', rfl, hts₁, hts'⟩ := List.map_eq_append_iff.mp hkinds
    obtain ⟨semi, ts₂, rfl, hsemi, hts₂⟩ := List.map_eq_append_iff.mp hts'
    obtain ⟨t, ts₀, rfl, hopens, x', hsame, hread⟩ :=
      declaration_of_rendering (hsettled x List.mem_cons_self) (semi ++ ts₂) hts₁
    obtain ⟨ds', hsames, hmore⟩ :=
      ih (d.declare x') (fun y hy => hsettled y (List.mem_cons_of_mem _ hy)) hts₂
    refine ⟨x' :: ds', by rw [List.map_cons, hsame, hsames, List.map_cons], ?_⟩
    calc declarations eof d (t :: ts₀ ++ (semi ++ ts₂))
        = declarations eof (d.declare x') (semi ++ ts₂) := declarations_declaration hopens hread
      _ = declarations eof (d.declare x') ts₂ := declarations_closing hsemi
      _ = (x' :: ds').foldl Draft.declare d := hmore

/-- The tokens of an import. -/
def Import.rendering (closed : Bool) (i : Import) : List Kind :=
  .kwImport :: (nameKinds i.name ++ closing closed)

/-- Here a part of a module starts, or the file ends. -/
def AtPart (ts : List Token) : Prop :=
  ∀ k, front ts = some k → k = .kwImport ∨ opensDeclaration k = true

theorem AtPart.ne {k : Kind} (h : AtPart ts) (hk : k ≠ .kwImport)
    (hopens : opensDeclaration k = false) : front ts ≠ some k := by
  intro hfront
  rcases h k hfront with rfl | hk'
  · exact hk rfl
  · rw [hopens] at hk'
    cases hk'

theorem qualifiedName_of_rendering (e : Expectation) {name : String} {closed : Bool}
    (hkinds : ts.map (·.kind) = nameKinds name ++ closing closed) (hrest : AtPart rest) :
    ∃ span rest₁, (qualifiedName e (ts ++ rest)).Gives (name, span) rest₁ ∧
      skipSemicolon rest₁ = rest := by
  obtain ⟨part, parts, hparts, rfl⟩ := nameKinds_spec name
  rw [hparts] at hkinds
  obtain ⟨used, semi, rfl, hused, hsemi⟩ := List.map_eq_append_iff.mp hkinds
  have hdot : front (semi ++ rest) ≠ some .dot := by
    cases closed with
    | true =>
      obtain ⟨t, ts', rfl, hk, -⟩ := List.map_eq_cons_iff.mp hsemi
      simp [hk]
    | false =>
      obtain rfl := List.map_eq_nil_iff.mp hsemi
      exact hrest.ne nofun rfl
  obtain ⟨span, hname⟩ := qualifiedName_complete e hused hdot
  rw [List.append_assoc]
  exact ⟨span, semi ++ rest, hname, skipSemicolon_closing hsemi (hrest.ne nofun rfl)⟩

theorem atPart_of_imports {closed : Bool} {is : List Import} (hrest : AtPart rest)
    (hkinds : ts.map (·.kind) = is.flatMap (Import.rendering closed)) : AtPart (ts ++ rest) := by
  cases is with
  | nil =>
    obtain rfl := List.map_eq_nil_iff.mp hkinds
    exact hrest
  | cons i is =>
    obtain ⟨t, ts', rfl, hk, -⟩ := List.map_eq_cons_iff.mp hkinds
    intro k hfront
    exact .inl (Option.some.inj hfront ▸ hk)

theorem imports_of_rendering (closed : Bool) {is : List Import} (d : Draft) (hrest : AtPart rest)
    (himport : front rest ≠ some .kwImport)
    (hkinds : ts.map (·.kind) = is.flatMap (Import.rendering closed)) :
    ∃ is' : List Import, is'.map Import.unplaced = is.map Import.unplaced ∧
      imports eof d (ts ++ rest) = ({ d with imports := is'.reverse ++ d.imports }, rest) := by
  induction is generalizing d ts with
  | nil =>
    obtain rfl := List.map_eq_nil_iff.mp hkinds
    refine ⟨[], rfl, ?_⟩
    cases rest with
    | nil => rw [List.nil_append, imports]; rfl
    | cons t rest => rw [List.nil_append, imports, if_neg fun hk => himport (congrArg some hk)]; rfl
  | cons i is ih =>
    rw [List.flatMap_cons] at hkinds
    obtain ⟨ts₁, ts₂, rfl, hts₁, hts₂⟩ := List.map_eq_append_iff.mp hkinds
    obtain ⟨t, ts₀, rfl, hk, hts₀⟩ := List.map_eq_cons_iff.mp hts₁
    obtain ⟨span, rest₁, ⟨hshort, hname⟩, hskip⟩ :=
      qualifiedName_of_rendering .importName hts₀ (atPart_of_imports hrest hts₂)
    obtain ⟨is', hsames, hmore⟩ :=
      ih { d with imports := ⟨i.name, t.span.join span⟩ :: d.imports } hts₂
    refine ⟨⟨i.name, t.span.join span⟩ :: is', by
      rw [List.map_cons, hsames, List.map_cons]; rfl, ?_⟩
    rw [List.append_assoc, List.cons_append, imports, if_pos hk]
    simp only [hname, hskip, hmore]
    simp

end Loops

/-! ## Reading modules from a file -/

/-- What a module declares, its constants in one group before its functions. -/
def Module.declarations (m : Module) : List Declaration :=
  m.constants.map .constant ++ m.functions.map .function

/-- The tokens of a module, with a semicolon behind every part or without. -/
def Module.rendering (closed : Bool) (m : Module) : List Kind :=
  .kwModule :: (nameKinds m.name ++ closing closed) ++
    (m.imports.flatMap (Import.rendering closed) ++
    m.declarations.flatMap fun x => x.rendering ++ closing closed)

/-- Whether a rendering shows which `if` every `else` belongs to. -/
def Module.settled (m : Module) : Bool := m.functions.all fun f => Stmt.allSettled f.body.body

section Files

open Read

variable {tokens : List Token} {m : Module}

theorem settled_declarations (h : m.settled = true) : ∀ x ∈ m.declarations, x.settled = true := by
  intro x hx
  rcases List.mem_append.mp hx with hx | hx
  · obtain ⟨c, -, rfl⟩ := List.mem_map.mp hx
    rfl
  · obtain ⟨f, hf, rfl⟩ := List.mem_map.mp hx
    exact List.all_eq_true.mp h f hf

theorem filterMap_constant?_unplaced (ds : List Declaration) :
    (ds.filterMap Declaration.constant?).map Constant.unplaced
      = (ds.map Declaration.unplaced).filterMap Declaration.constant? := by
  rw [List.map_filterMap, List.filterMap_map]
  refine List.filterMap_congr fun d _ => ?_
  cases d <;> rfl

theorem filterMap_function?_unplaced (ds : List Declaration) :
    (ds.filterMap Declaration.function?).map Function.unplaced
      = (ds.map Declaration.unplaced).filterMap Declaration.function? := by
  rw [List.map_filterMap, List.filterMap_map]
  refine List.filterMap_congr fun d _ => ?_
  cases d <;> rfl

theorem constants_of_declarations (m : Module) :
    m.declarations.filterMap Declaration.constant? = m.constants := by
  unfold Module.declarations
  rw [List.filterMap_append, List.filterMap_map, List.filterMap_map]
  simp [Function.comp_def, Declaration.constant?]

theorem functions_of_declarations (m : Module) :
    m.declarations.filterMap Declaration.function? = m.functions := by
  unfold Module.declarations
  rw [List.filterMap_append, List.filterMap_map, List.filterMap_map]
  simp [Function.comp_def, Declaration.function?]

/-- The module that is put together from its header, imports and declarations. -/
theorem parseModule_eq (tokens : List Token) {d₀ d₁ : Draft} {rest₀ rest₁ : List Token}
    (hheader : header (Stream.ofTokens tokens).eof (Stream.ofTokens tokens).ahead = (d₀, rest₀))
    (himports : imports (Stream.ofTokens tokens).eof d₀ rest₀ = (d₁, rest₁)) :
    ∃ span, parseModule tokens =
      let d := declarations (Stream.ofTokens tokens).eof d₁ rest₁
      ({ name := d.name, imports := d.imports.reverse, constants := d.constants.reverse,
         functions := d.functions.reverse, span }, d.reports.reverse) := by
  unfold parseModule
  simp only [hheader, himports]
  exact ⟨_, rfl⟩

theorem atPart_of_declarations {closed : Bool} {ds : List Declaration} {ts : List Token}
    (hsettled : ∀ x ∈ ds, x.settled = true)
    (hkinds : ts.map (·.kind) = ds.flatMap fun x => x.rendering ++ closing closed) :
    ∀ k, front ts = some k → opensDeclaration k = true := by
  cases ds with
  | nil =>
    obtain rfl := List.map_eq_nil_iff.mp hkinds
    exact nofun
  | cons x ds =>
    rw [List.flatMap_cons, List.append_assoc] at hkinds
    obtain ⟨ts₁, ts', rfl, hts₁, -⟩ := List.map_eq_append_iff.mp hkinds
    obtain ⟨t, ts₀, rfl, hopens, -⟩ :=
      declaration_of_rendering (hsettled x List.mem_cons_self) ts' hts₁
    intro k hfront
    exact Option.some.inj hfront ▸ hopens

theorem parseModule_of_rendering (closed : Bool) (hsettled : m.settled = true)
    (hkinds : (Stream.ofTokens tokens).ahead.map (·.kind) = m.rendering closed) :
    ∃ m', parseModule tokens = (m', []) ∧ m'.unplaced = m.unplaced := by
  obtain ⟨ts₀, ts', hahead, hts₀, hts'⟩ := List.map_eq_append_iff.mp hkinds
  obtain ⟨t, ts₁, rfl, hk, hts₁⟩ := List.map_eq_cons_iff.mp hts₀
  obtain ⟨ts₂, ts₃, rfl, hts₂, hts₃⟩ := List.map_eq_append_iff.mp hts'
  -- Names of the header and of imports end where the next part starts.
  have hopens := atPart_of_declarations (settled_declarations hsettled) hts₃
  have hpart : AtPart ts₃ := fun k hfront => .inr (hopens k hfront)
  have himport : front ts₃ ≠ some .kwImport := fun hfront => nomatch hopens _ hfront
  obtain ⟨span, rest₁, ⟨hshort, hname⟩, hskip⟩ :=
    qualifiedName_of_rendering .moduleName hts₁ (atPart_of_imports hpart hts₂)
  have hheader : header (Stream.ofTokens tokens).eof (Stream.ofTokens tokens).ahead
      = ({ name := m.name }, ts₂ ++ ts₃) := by
    rw [hahead, List.cons_append, header, after?_of_kind hk]
    simp only [hname, hskip]
  obtain ⟨is, his, himports⟩ := imports_of_rendering closed { name := m.name } hpart himport hts₂
  obtain ⟨ds, hds, hdeclarations⟩ := declarations_of_rendering closed _
    (settled_declarations hsettled) hts₃
  obtain ⟨span', hparse⟩ := parseModule_eq tokens hheader himports
  rw [hdeclarations, foldl_declare] at hparse
  refine ⟨_, hparse, ?_⟩
  -- Dropping the places commutes with telling constants and functions apart.
  simp only [Module.unplaced, List.append_nil, List.reverse_reverse, his,
    filterMap_constant?_unplaced, filterMap_function?_unplaced, hds]
  rw [← filterMap_constant?_unplaced, ← filterMap_function?_unplaced, constants_of_declarations,
    functions_of_declarations]

/-- What is read of a module is laid on its tokens, and derived by the grammar if there is no
report. -/
theorem laid_parseModule (tokens : List Token) :
    ∃ (ds : List Declaration) (ks : List Kind),
      (parseModule tokens).1.constants = ds.filterMap Declaration.constant? ∧
      (parseModule tokens).1.functions = ds.filterMap Declaration.function? ∧
      Laid ks ((parseModule tokens).1.imports.map Import.nest ++ ds.map Declaration.nest)
        (Stream.ofTokens tokens).ahead [] ∧
      ((parseModule tokens).2 = [] → (parseModule tokens).1.Derives ks) := by
  rcases hheader : header (Stream.ofTokens tokens).eof (Stream.ofTokens tokens).ahead
    with ⟨d₀, rest₀⟩
  rcases himports : imports (Stream.ofTokens tokens).eof d₀ rest₀ with ⟨d₁, rest₁⟩
  obtain ⟨span, hparse⟩ := parseModule_eq tokens hheader himports
  obtain ⟨name, reports₀, head, rfl, hhead, hheads⟩ := laid_header hheader
  obtain ⟨is, reports₁, imports, rfl, his, hderives⟩ := laid_imports himports
  obtain ⟨ds, reports, declarations, hd, hds, hall⟩ :=
    laid_declarations (Stream.ofTokens tokens).eof _ rest₁
  rw [foldl_declare] at hd
  rw [hparse, hd]
  refine ⟨ds, _, by simp, by simp, by simpa using hhead.append (his.append hds), fun h => ?_⟩
  obtain ⟨hreports₁, hdeclares⟩ := hall (List.reverse_eq_nil_iff.mp h)
  obtain ⟨hreports₀, himports⟩ := hderives hreports₁
  exact ⟨head, imports, declarations, ds, rfl, hheads hreports₀, by
    simpa using himports, hdeclares, by simp,
    by simp⟩

end Files

/-- Modules are read as they are written. The rendering of a module, in which every `else` belongs
to the `if` that it has in the tree, is read as this module up to places, and nothing is reported.
Conversely, what is read without a report is derived by the grammar from the tokens up to the end of
the file. -/
theorem module_reading_exact (tokens : List Token) :
    (∀ (m : Module) (closed : Bool), m.settled = true →
      (tokens.takeWhile (·.kind != .eof)).map (·.kind) = m.rendering closed →
      ∃ m', parseModule tokens = (m', []) ∧ m'.unplaced = m.unplaced) ∧
    ((parseModule tokens).2 = [] →
      (parseModule tokens).1.Derives ((tokens.takeWhile (·.kind != .eof)).map (·.kind))) := by
  constructor
  · intro m closed hsettled hkinds
    exact parseModule_of_rendering closed hsettled hkinds
  · intro hreports
    obtain ⟨ds, ks, -, -, ⟨used, hused, rfl, -⟩, hderives⟩ := laid_parseModule tokens
    rw [← List.append_nil used, ← hused] at hderives
    exact hderives hreports

end Codewright.Surface
