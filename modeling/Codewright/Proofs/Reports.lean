import Codewright.Proofs.Respelling

/-!
# What a compilation reports

A compilation gives a program exactly if it reports no error. If there is no program, the error is
the last report and the only one. All other reports are warnings about statements that control
cannot reach. Which statements these are can be read off the syntax: in every block the one after
the first sure return. They are reported in the order of the text, up to the function with the
error.
-/

namespace Codewright

open Source (Span)
open Steps

/-! ## Levels -/

theorem Diagnostic.isError_of_gist {d : Diagnostic} (h : d.gist.1 = .error) : d.isError = true := by
  rw [isError, show d.level = .error from h]
  rfl

theorem SymbolError.isError_report (e : SymbolError) : e.report.isError = true :=
  Diagnostic.isError_of_gist (by rw [gist_report])

theorem SemanticError.isError_report (e : SemanticError) : e.report.isError = true :=
  Diagnostic.isError_of_gist (by rw [gist_report])

theorem MainError.isError_report (entry : Option Span) (e : MainError) :
    (e.report entry).isError = true :=
  Diagnostic.isError_of_gist (by rw [gist_report])

theorem CompileError.isError_report (e : CompileError) : e.report.isError = true := by
  cases e with
  | symbols e => exact e.isError_report
  | semantic e => exact e.isError_report
  | main e entry => exact e.isError_report entry
  | generation e => rfl

/-! ## Statements that control cannot reach -/

namespace Surface

mutual

/-- The statements in a statement, in the order of the text. -/
def Stmt.inner : Stmt → List Stmt
  | .block body _ => Stmt.inOrder body
  | .ifThen _ yes _ => yes :: yes.inner
  | .ifElse _ yes no _ => yes :: (yes.inner ++ no :: no.inner)
  | .loop _ body _ => body :: body.inner
  | .assign .. | .ret .. | .expr .. => []

/-- Statements and the statements in them, in the order of the text. -/
def Stmt.inOrder : List Stmt → List Stmt
  | [] => []
  | s :: rest => s :: (s.inner ++ Stmt.inOrder rest)

end

mutual

/-- Whether a statement returns on all paths. -/
def Stmt.returns : Stmt → Bool
  | .block body _ => Stmt.anyReturns body
  | .ifElse _ yes no _ => yes.returns && no.returns
  | .ret .. => true
  | .ifThen .. | .loop .. | .assign .. | .expr .. => false

def Stmt.anyReturns : List Stmt → Bool
  | [] => false
  | s :: rest => s.returns || Stmt.anyReturns rest

end

mutual

/-- The statements in a statement that follow right after the first sure return of their block. -/
def Stmt.unreachable : Stmt → List Stmt
  | .block body _ => Stmt.unreachableOf body
  | .ifThen _ yes _ => yes.unreachable
  | .ifElse _ yes no _ => yes.unreachable ++ no.unreachable
  | .loop _ body _ => body.unreachable
  | .assign .. | .ret .. | .expr .. => []

/-- Those of the statements of a block. -/
def Stmt.unreachableOf : List Stmt → List Stmt
  | [] => []
  | s :: rest =>
    s.unreachable ++
      if s.returns then rest.head?.toList ++ Stmt.unreachableWithin rest else
        Stmt.unreachableOf rest

/-- Those inside statements that are not the first after a return. -/
def Stmt.unreachableWithin : List Stmt → List Stmt
  | [] => []
  | s :: rest => s.unreachable ++ Stmt.unreachableWithin rest

end

def Function.unreachable (f : Function) : List Stmt := Stmt.unreachableOf f.body.body

mutual

theorem Stmt.unreachable_sublist_inner : (s : Stmt) → s.unreachable.Sublist s.inner
  | .block body _ => by
    rw [unreachable, inner]
    exact unreachableOf_sublist_inOrder body
  | .ifThen _ yes _ | .loop _ yes _ => by
    rw [unreachable, inner]
    exact (unreachable_sublist_inner yes).cons _
  | .ifElse _ yes no _ => by
    rw [unreachable, inner]
    exact ((unreachable_sublist_inner yes).append ((unreachable_sublist_inner no).cons _)).cons _
  | .assign .. | .ret .. | .expr .. => by
    rw [unreachable]
    exact List.nil_sublist _

theorem Stmt.unreachableOf_sublist_inOrder : (body : List Stmt) →
    (Stmt.unreachableOf body).Sublist (Stmt.inOrder body)
  | [] => by
    rw [unreachableOf]
    exact List.nil_sublist _
  | s :: rest => by
    rw [unreachableOf, inOrder]
    refine ((unreachable_sublist_inner s).append ?_).cons _
    by_cases hs : s.returns = true
    · rw [if_pos hs]
      exact first_unreachableWithin_sublist rest
    · rw [if_neg hs]
      exact unreachableOf_sublist_inOrder rest

theorem Stmt.first_unreachableWithin_sublist : (rest : List Stmt) →
    (rest.head?.toList ++ Stmt.unreachableWithin rest).Sublist (Stmt.inOrder rest)
  | [] => by
    rw [unreachableWithin]
    exact List.nil_sublist _
  | s :: rest => by
    rw [unreachableWithin, inOrder]
    refine List.Sublist.cons_cons s ((unreachable_sublist_inner s).append ?_)
    exact (List.sublist_append_right _ _).trans (first_unreachableWithin_sublist rest)

end

end Surface

/-! ## What is noted while a function is built -/

namespace Build

open Surface (Expr Stmt)

/-- If the step succeeds, exactly the places are noted in this order and its value is as told. If it
fails, the first few of the places are. -/
structure Notes {α : Type} (x : Step α) (places : List Span) (Q : α → Prop) : Prop where
  ok : ∀ {s a s'}, x s = .ok a s' → Q a ∧ s'.unreachable = places.reverse ++ s.unreachable
  error : ∀ {s e s'}, x s = .error e s' →
    ∃ part, part <+: places ∧ s'.unreachable = part.reverse ++ s.unreachable

/-- Nothing is noted. -/
abbrev Silent {α : Type} (x : Step α) : Prop := Notes x [] fun _ => True

namespace Notes

variable {α β : Type} {x : Step α} {f : α → Step β} {P : α → Prop} {Q : β → Prop}
  {us vs : List Span}

theorem pure {b : β} (h : Q b) : Notes (Pure.pure b) [] Q where
  ok hb := by
    obtain ⟨rfl, rfl⟩ := pure_eq_ok.mp hb
    exact ⟨h, rfl⟩
  error hb := nomatch hb

theorem bind (hx : Notes x us P) (hf : ∀ a, P a → Notes (f a) vs Q) :
    Notes (x >>= f) (us ++ vs) Q where
  ok h := by
    obtain ⟨a, s₁, ha, hb⟩ := bind_eq_ok.mp h
    obtain ⟨hP, hus⟩ := hx.ok ha
    obtain ⟨hQ, hvs⟩ := (hf a hP).ok hb
    exact ⟨hQ, by rw [hvs, hus, List.reverse_append, List.append_assoc]⟩
  error h := by
    rcases bind_eq_error.mp h with ha | ⟨a, s₁, ha, hb⟩
    · obtain ⟨part, hpart, hnoted⟩ := hx.error ha
      exact ⟨part, hpart.trans (List.prefix_append us vs), hnoted⟩
    · obtain ⟨hP, hus⟩ := hx.ok ha
      obtain ⟨part, hpart, hnoted⟩ := (hf a hP).error hb
      refine ⟨us ++ part, (List.prefix_append_right_inj us).mpr hpart, ?_⟩
      rw [hnoted, hus, List.reverse_append, List.append_assoc]

/-- What comes after a silent step is all there is to note. -/
theorem after (hx : Silent x) (hf : ∀ a, Notes (f a) vs Q) : Notes (x >>= f) vs Q :=
  hx.bind fun a _ => hf a

/-- Before a silent step all has been noted. -/
theorem before (hx : Notes x us P) (hf : ∀ a, P a → Notes (f a) [] Q) : Notes (x >>= f) us Q :=
  us.append_nil ▸ hx.bind hf

theorem noteUnreachable (span : Span) : Notes (noteUnreachable span) [span] fun _ => True where
  ok h := ⟨trivial, by rw [← modify_eq_ok.mp h, List.reverse_singleton, List.singleton_append]⟩
  error h := nomatch h

theorem get : Silent (MonadState.get : Step State) where
  ok h := ⟨trivial, by rw [(get_eq_ok.mp h).2, List.reverse_nil, List.nil_append]⟩
  error h := nomatch h

theorem guard {γ : Type} {c : Prop} [Decidable c] {e : SemanticError} {k : γ → Step β} {y : Step β}
    (h : Notes y vs Q) : Notes (if c then throw e >>= k else y) vs Q := by
  by_cases hc : c
  · rw [if_pos hc]
    refine ⟨fun hok => ?_, fun herror => ⟨[], List.nil_prefix, ?_⟩⟩
    · cases hok
    · cases herror
      rfl
  · rw [if_neg hc]
    exact h

/-- A step that agrees with another one whatever has been noted notes nothing. -/
theorem of_agrees {y : Step α} (h : ∀ K, Agrees K Eq x y) : Silent x := by
  -- `K` is chosen to pin down what has been noted so far, and the step has to keep it
  constructor
  · intro s a s' hs
    obtain ⟨_, _, -, hs'⟩ := (h fun u _ => u = s.unreachable).of_ok (t := s) ⟨rfl, rfl, rfl⟩ hs
    exact ⟨trivial, hs'.noted⟩
  · intro s e s' hs
    obtain ⟨_, _, -, hs'⟩ := (h fun u _ => u = s.unreachable).of_error (t := s) ⟨rfl, rfl, rfl⟩ hs
    exact ⟨[], List.nil_prefix, hs'.noted⟩

theorem inBlock (h : Notes x us P) : Notes (inBlock x) us P := by
  have hscope : ∀ g : State → State, (∀ s, (g s).unreachable = s.unreachable) →
      Silent (modify g : Step Unit) := fun g hg =>
    ⟨fun hs => ⟨trivial, by rw [← modify_eq_ok.mp hs, hg]; rfl⟩, nofun⟩
  refine after (hscope _ fun _ => rfl) fun _ => ?_
  refine h.before fun a ha => ?_
  exact after (hscope _ fun _ => rfl) fun _ => pure ha

theorem forM {as : List β} {g : β → Step Unit} (h : ∀ b, Silent (g b)) : Silent (as.forM g) := by
  induction as with
  | nil => exact pure trivial
  | cons b as ih => exact after (h b) fun _ => ih

end Notes

variable (ctx : Context)

/-- What is noted in the rest of a block. A statement is noted only once, so what stands before
matters by whether it returns and whether the note has been made. -/
def pending (returns noted : Bool) (rest : List Surface.Stmt) : List Surface.Stmt :=
  if noted then Surface.Stmt.unreachableWithin rest
  else if returns then rest.head?.toList ++ Surface.Stmt.unreachableWithin rest
  else Surface.Stmt.unreachableOf rest

theorem pending_nil (returns noted : Bool) : pending returns noted [] = [] := by
  cases returns <;> cases noted <;> simp [pending, Stmt.unreachableWithin,
    Stmt.unreachableOf]

theorem pending_cons {returns noted : Bool} (h : noted = true → returns = true) (s : Stmt)
    (rest : List Stmt) :
    pending returns noted (s :: rest) = (if (returns && !noted) = true then [s] else []) ++
      (s.unreachable ++ pending (returns || s.returns) (noted || returns) rest) := by
  cases noted with
  | true =>
    obtain rfl : returns = true := h rfl
    simp [pending, Stmt.unreachableWithin]
  | false => cases returns <;> simp [pending, Stmt.unreachableWithin, Stmt.unreachableOf]

mutual

theorem notes_statement : (s : Stmt) →
    Notes (statement ctx s) (s.unreachable.map (·.span)) fun r => r.2 = s.returns
  | .block body span => by
    simp only [statement, Stmt.unreachable, Stmt.returns]
    simpa [pending] using (notes_statements body [] false false nofun).inBlock
  | .assign written value span => by
    simp only [statement, Stmt.unreachable, Stmt.returns]
    exact .after (.of_agrees fun _ => agree_assignment ctx written value span) fun _ => .pure rfl
  | .ifThen c yes span | .loop c yes span => by
    simp only [statement, Stmt.unreachable, Stmt.returns]
    refine .after (.of_agrees fun _ => agree_condition ctx c) fun _ => ?_
    exact (notes_statement yes).inBlock.before fun _ _ => .pure rfl
  | .ifElse c yes no span => by
    simp only [statement, Stmt.unreachable, Stmt.returns, List.map_append]
    refine .after (.of_agrees fun _ => agree_condition ctx c) fun _ => ?_
    refine (notes_statement yes).inBlock.bind fun y hy => ?_
    refine (notes_statement no).inBlock.before fun n hn => .pure ?_
    rw [hy, hn]
  | .ret value span => by
    simp only [statement, Stmt.unreachable, Stmt.returns]
    exact .after (.of_agrees fun _ => agree_ret ctx value span) fun _ => .pure rfl
  | .expr e => by
    simp only [statement, Stmt.unreachable, Stmt.returns]
    exact .after (.of_agrees fun _ => agree_expr ctx e) fun _ => .pure rfl

theorem notes_statements : (rest : List Stmt) → (done : List Tree) → (returns noted : Bool) →
    (noted = true → returns = true) →
    Notes (statements ctx done returns noted rest) ((pending returns noted rest).map (·.span))
      fun r => r.2 = (returns || Stmt.anyReturns rest)
  | [], done, returns, noted, h => by
    rw [statements, pending_nil, Stmt.anyReturns, Bool.or_false]
    exact .pure rfl
  | s :: rest, done, returns, noted, h => by
    have hgo : Notes
        (statement ctx s >>= fun (t, returns') =>
          statements ctx (t :: done) (returns || returns') (noted || returns) rest)
        (s.unreachable.map (·.span) ++
          (pending (returns || s.returns) (noted || returns) rest).map (·.span))
        fun r => r.2 = (returns || Stmt.anyReturns (s :: rest)) := by
      refine (notes_statement s).bind fun (t, returns') hr => ?_
      obtain rfl : returns' = s.returns := hr
      rw [Stmt.anyReturns, ← Bool.or_assoc]
      -- the note has been made only if something before returns, and that stays so
      refine notes_statements rest _ _ _ fun hnoted => ?_
      rcases (Bool.or_eq_true _ _).mp hnoted with hnoted | hreturns
      · rw [h hnoted, Bool.true_or]
      · rw [hreturns, Bool.true_or]
    rw [statements, pending_cons h, List.map_append, List.map_append]
    by_cases hnote : (returns && !noted) = true
    · rw [if_pos hnote, if_pos hnote]
      exact (Notes.noteUnreachable s.span).bind fun _ _ => hgo
    · rw [if_neg hnote, if_neg hnote]
      exact hgo

end

theorem notes_routine (symbol : FunctionSymbol) (f : Surface.Function) :
    Notes (routine ctx symbol f) (f.unreachable.map (·.span)) fun _ => True := by
  unfold routine
  refine .after (.forM fun p => .of_agrees fun _ => agree_declareParameter ctx p) fun _ => ?_
  have hbody := notes_statements ctx f.body.body [] false false nofun
  refine hbody.inBlock.before fun _ _ => .guard ?_
  exact .after .get fun _ => .pure trivial

end Build

/-! ## What is noted while a program is built -/

theorem prefix_map {α β : Type} {f : α → β} {part : List β} {l : List α} (h : part <+: l.map f) :
    ∃ k, k <+: l ∧ part = k.map f :=
  ⟨l.take part.length, List.take_prefix _ _, by rw [List.map_take, ← List.prefix_iff_eq_take.mp h]⟩

section

variable {symbols : Symbols} {spans : List Span} {e : SemanticError}

/-- What is noted of a function: its unreachable statements, or the first few of them if it is
refused. -/
theorem noted_of_buildRoutine (symbols : Symbols) (m : String) (f : Surface.Function) :
    ∃ part, part <+: f.unreachable ∧ (buildRoutine symbols m f).2 = part.map (·.span) ∧
      ∀ r, (buildRoutine symbols m f).1 = .ok r → part = f.unreachable := by
  unfold buildRoutine EStateM.run
  dsimp only
  cases symbols.function? (fullName m f.name) with
  | none => exact ⟨[], List.nil_prefix, rfl, nofun⟩
  | some symbol =>
    have hnotes := Build.notes_routine ⟨symbols, foldName m⟩ symbol f
    dsimp only
    split
    · next hrun =>
      refine ⟨f.unreachable, List.prefix_rfl, ?_, fun _ _ => rfl⟩
      rw [(hnotes.ok hrun).2, List.append_nil, List.reverse_reverse]
    · next hrun =>
      obtain ⟨places, hplaces, hnoted⟩ := hnotes.error hrun
      obtain ⟨part, hpart, rfl⟩ := prefix_map hplaces
      refine ⟨part, hpart, ?_, nofun⟩
      rw [hnoted, List.append_nil, List.reverse_reverse]

theorem noted_of_buildRoutine_ok {m : String} {f : Surface.Function} {r : Routine}
    (h : buildRoutine symbols m f = (.ok r, spans)) : spans = f.unreachable.map (·.span) := by
  obtain ⟨part, -, hspans, hall⟩ := noted_of_buildRoutine symbols m f
  rw [h] at hspans hall
  rw [← hall r rfl]
  exact hspans

def unreachableIn (functions : List (String × Surface.Function)) : List Surface.Stmt :=
  functions.flatMap fun p => p.2.unreachable

/-- All statements of functions, in the order of the text. -/
def statementsIn (functions : List (String × Surface.Function)) : List Surface.Stmt :=
  functions.flatMap fun p => Surface.Stmt.inOrder p.2.body.body

theorem unreachableIn_sublist (functions : List (String × Surface.Function)) :
    (unreachableIn functions).Sublist (statementsIn functions) := by
  induction functions with
  | nil => exact List.Sublist.refl _
  | cons p rest ih => exact (Surface.Stmt.unreachableOf_sublist_inOrder _).append ih

/-- Where the work on functions stops: at the first one that is refused, and the statements noted
are those of the functions before it and the first few of its own. -/
structure StopsAt (symbols : Symbols) (functions : List (String × Surface.Function))
    (e : SemanticError)
    (noted : List Surface.Stmt) (before : List (String × Surface.Function)) (m : String)
    (f : Surface.Function) : Prop where
  first : before ++ [(m, f)] <+: functions
  built : ∀ p ∈ before, ∃ r spans, buildRoutine symbols p.1 p.2 = (.ok r, spans)
  refused : ∃ part, part <+: f.unreachable ∧ noted = unreachableIn before ++ part ∧
    buildRoutine symbols m f = (.error e, part.map (·.span))

theorem StopsAt.cons {rest before : List (String × Surface.Function)} {noted : List Surface.Stmt}
    {m m₁ : String} {f f₁ : Surface.Function} {r : Routine}
    (h : StopsAt symbols rest e noted before m f)
    (hr : buildRoutine symbols m₁ f₁ = (.ok r, spans)) :
    StopsAt symbols ((m₁, f₁) :: rest) e (f₁.unreachable ++ noted) ((m₁, f₁) :: before) m f where
  first := List.cons_prefix_cons.mpr ⟨rfl, h.first⟩
  built := List.forall_mem_cons.mpr ⟨⟨r, spans, hr⟩, h.built⟩
  refused := by
    obtain ⟨part, hpart, rfl, hrefused⟩ := h.refused
    exact ⟨part, hpart, (List.append_assoc _ _ _).symm, hrefused⟩

/-- What is noted up to the place where the work stops stands at the front. -/
theorem StopsAt.noted_prefix {functions before : List (String × Surface.Function)}
    {noted : List Surface.Stmt} {m : String} {f : Surface.Function}
    (h : StopsAt symbols functions e noted before m f) : noted <+: unreachableIn functions := by
  obtain ⟨part, hpart, rfl, -⟩ := h.refused
  obtain ⟨after, rfl⟩ := h.first
  unfold unreachableIn
  rw [List.flatMap_append, List.flatMap_append, List.append_assoc, List.flatMap_singleton]
  exact (List.prefix_append_right_inj _).mpr (hpart.trans (List.prefix_append _ _))

theorem noted_of_go (symbols : Symbols) (rest : List (String × Surface.Function))
    (done : List Routine) (noted : List Span) : ∃ noted' : List Surface.Stmt,
      (buildRoutines.go symbols done noted rest).2 = noted.reverse ++ noted'.map (·.span) ∧
      (∀ rs, (buildRoutines.go symbols done noted rest).1 = .ok rs → noted' = unreachableIn rest) ∧
      ∀ e, (buildRoutines.go symbols done noted rest).1 = .error e →
        ∃ before m f, StopsAt symbols rest e noted' before m f := by
  induction rest generalizing done noted with
  | nil => exact ⟨[], (List.append_nil _).symm, fun _ _ => rfl, fun _ h => by cases h⟩
  | cons p rest ih =>
    obtain ⟨m, f⟩ := p
    obtain ⟨part, hpart, hspans, hall⟩ := noted_of_buildRoutine symbols m f
    rw [buildRoutines.go]
    generalize hr : buildRoutine symbols m f = outcome at hspans hall ⊢
    obtain ⟨answer, spans⟩ := outcome
    obtain rfl : spans = part.map (·.span) := hspans
    cases answer with
    | error e =>
      refine ⟨part, rfl, fun _ h => (by cases h), fun e' he =>
        ⟨[], m, f, ?_, List.forall_mem_nil _, part, hpart, rfl, ?_⟩⟩
      · exact List.cons_prefix_cons.mpr ⟨rfl, List.nil_prefix⟩
      · obtain rfl : e = e' := Except.error.inj he
        exact hr
    | ok r =>
      -- this function is noted in full and the work goes on
      obtain rfl := hall r rfl
      obtain ⟨noted', hnoted, hok, herror⟩ :=
        ih (r :: done) ((f.unreachable.map (·.span)).reverse ++ noted)
      refine ⟨f.unreachable ++ noted', ?_, fun rs hrs => ?_, fun e he => ?_⟩
      · rw [hnoted, List.reverse_append, List.reverse_reverse, List.append_assoc, ← List.map_append]
      · rw [hok rs hrs]
        rfl
      · obtain ⟨before, m', f', hstop⟩ := herror e he
        exact ⟨(m, f) :: before, m', f', hstop.cons hr⟩

end

/-! ## Compilations -/

/-- The warnings up to the trees: about all unreachable statements if the trees are there, about
none if the symbols cannot be collected, else about those up to the refused function. -/
theorem warnings_of_buildTrees (optimize : Bool) (modules : List Surface.Module) :
    ∃ noted : List Surface.Stmt,
      (buildTrees optimize modules).2 = noted.map (fun s => unreachableReport s.span) ∧
      noted <+: unreachableIn (functionsOf modules) ∧
      (∀ trees, (buildTrees optimize modules).1 = .ok trees →
        noted = unreachableIn (functionsOf modules)) ∧
      (∀ e, (buildTrees optimize modules).1 = .error (.symbols e) → noted = []) ∧
      ∀ e, (buildTrees optimize modules).1 = .error (.semantic e) →
        ∃ symbols before m f, Symbols.collect modules = .ok symbols ∧
          StopsAt symbols (functionsOf modules) e noted before m f := by
  unfold buildTrees
  cases hcollect : Symbols.collect modules with
  | error e =>
    refine ⟨[], rfl, List.nil_prefix, fun trees h => ?_, fun _ _ => rfl, fun e' h => ?_⟩
    · cases h
    · cases h
  | ok symbols =>
    obtain ⟨noted, hnoted, hok, herror⟩ := noted_of_go symbols (functionsOf modules) [] []
    unfold buildRoutines
    dsimp only
    generalize buildRoutines.go symbols [] [] (functionsOf modules) = outcome at hnoted hok herror ⊢
    obtain ⟨answer, spans⟩ := outcome
    obtain rfl : spans = noted.map (·.span) := hnoted
    cases answer with
    | ok routines =>
      obtain rfl := hok routines rfl
      refine ⟨_, List.map_map, List.prefix_rfl, fun _ _ => rfl, fun e h => ?_, fun e h => ?_⟩
      · cases h
      · cases h
    | error e =>
      obtain ⟨before, m, f, hstop⟩ := herror e rfl
      refine ⟨noted, List.map_map, hstop.noted_prefix, fun trees h => ?_, fun e' h =>
        ?_, fun e' h => ?_⟩
      · cases h
      · cases h
      · obtain rfl := CompileError.semantic.inj (Except.error.inj h)
        exact ⟨symbols, before, m, f, rfl, hstop⟩

/-- A compilation gives its warnings, and then a program or an error. -/
theorem compile_cases (options : Options) (modules : List Surface.Module) :
    (∃ artifact, compile options modules =
      ⟨some artifact, (buildTrees options.optimize modules).2⟩) ∨
      ∃ e : CompileError,
        compile options modules = ⟨none, (buildTrees options.optimize modules).2 ++
            [e.report]⟩ := by
  unfold compile
  generalize buildTrees options.optimize modules = outcome
  obtain ⟨trees, warnings⟩ := outcome
  dsimp only
  cases trees >>= compileTrees options modules with
  | ok artifact => exact .inl ⟨artifact, rfl⟩
  | error e => exact .inr ⟨e, rfl⟩

/-- There is a program exactly if no error is reported. If there is none, the last report is an
error and the only one. The other reports are warnings about unreachable statements, in the order of
the text: about all of them if the trees are built, else about those that were met before the
error. -/
theorem compile_reports (options : Options) (modules : List Surface.Module) :
    ((compile options modules).artifact.isSome ↔
      hasErrors (compile options modules).diagnostics = false) ∧
    ((compile options modules).artifact = none → ∃ fatal,
      (compile options modules).diagnostics.getLast? = some fatal ∧
      (compile options modules).diagnostics.filter Diagnostic.isError = [fatal]) ∧
    (unreachableIn (functionsOf modules)).Sublist (statementsIn (functionsOf modules)) ∧
    ∃ noted : List Surface.Stmt,
      (compile options modules).diagnostics.filter (!·.isError) =
        noted.map (fun s => unreachableReport s.span) ∧
      noted <+: unreachableIn (functionsOf modules) ∧
      (∀ trees, (buildTrees options.optimize modules).1 = .ok trees →
        noted = unreachableIn (functionsOf modules)) ∧
      (∀ e, (buildTrees options.optimize modules).1 = .error (.symbols e) → noted = []) ∧
      ∀ e, (buildTrees options.optimize modules).1 = .error (.semantic e) →
        ∃ symbols before m f, Symbols.collect modules = .ok symbols ∧
          StopsAt symbols (functionsOf modules) e noted before m f := by
  obtain ⟨noted, hwarnings, hnoted⟩ := warnings_of_buildTrees options.optimize modules
  have hall : ∀ d ∈ (buildTrees options.optimize modules).2, d.isError = false := by
    rw [hwarnings]
    intro d hd
    obtain ⟨s, -, rfl⟩ := List.mem_map.mp hd
    rfl
  have herrors : (buildTrees options.optimize modules).2.filter Diagnostic.isError = [] :=
    List.filter_eq_nil_iff.mpr fun d hd => by rw [hall d hd]; exact Bool.false_ne_true
  have hothers : (buildTrees options.optimize modules).2.filter (!·.isError) =
      (buildTrees options.optimize modules).2 :=
    List.filter_eq_self.mpr fun d hd => by rw [hall d hd]; rfl
  have hnone : hasErrors (buildTrees options.optimize modules).2 = false :=
    List.any_eq_false.mpr fun d hd => by rw [hall d hd]; exact Bool.false_ne_true
  rcases compile_cases options modules with ⟨artifact, h⟩ | ⟨e, h⟩
  · rw [h]
    refine ⟨⟨fun _ => hnone, fun _ => rfl⟩, nofun, unreachableIn_sublist _, noted, ?_, hnoted⟩
    exact hothers.trans hwarnings
  · have herror := e.isError_report
    rw [h]
    refine ⟨⟨nofun, fun hfalse => ?_⟩, fun _ => ⟨e.report, ?_, ?_⟩,
      unreachableIn_sublist _, noted, ?_, hnoted⟩
    · rw [hasErrors, List.any_append, List.any_cons, herror, Bool.true_or, Bool.or_true] at hfalse
      cases hfalse
    · exact List.getLast?_concat
    · rw [List.filter_append, herrors, List.nil_append, List.filter_cons_of_pos herror,
        List.filter_nil]
    · rw [List.filter_append, hothers, hwarnings]
      simp [herror]

namespace Returning

/-- The place of a statement on a line. -/
def place (line : Nat) : Span := .point ⟨0, line, 1⟩ 0

/-- `void main() begin return return return 1 end`, a statement on each line. -/
def function : Surface.Function where
  name := "main"
  isPublic := true
  result := .void
  params := []
  body := {
    body := [.ret none (place 1), .ret none (place 2),
      .ret (some (.literal (.int 1) (place 3))) (place 3)]
    span := default }
  span := default

def program : Surface.Module := .ofFunctions [function]

abbrev symbols : Symbols := .alone function

theorem collect_program : Symbols.collect [program] = .ok symbols := by cbv

/-- The second `return` is noted before the third is refused. -/
theorem buildRoutine_function :
    buildRoutine symbols "main" function = (.error (.valueFromVoid (place 3)), [place 2]) := by
  cbv

theorem buildTrees_program : buildTrees true [program] =
    (.error (.semantic (.valueFromVoid (place 3))), [unreachableReport (place 2)]) := by
  cbv

end Returning

/-- A `return` behind a `return` is warned about, and the value of the third one, in a `Void`
function, is the end. -/
theorem compile_reports_returning :
    (compile {} [Returning.program]).artifact = none ∧
    (∃ fatal, (compile {} [Returning.program]).diagnostics.getLast? = some fatal ∧
      (compile {} [Returning.program]).diagnostics.filter Diagnostic.isError = [fatal]) ∧
    (compile {} [Returning.program]).diagnostics.filter (!·.isError) =
      [unreachableReport (Returning.place 2)] := by
  have hcompile : compile {} [Returning.program] =
      ⟨none, [unreachableReport (Returning.place 2),
        (SemanticError.valueFromVoid (Returning.place 3)).report]⟩ := by
    simp [compile, Returning.buildTrees_program, bind, Except.bind, CompileError.report]
  obtain ⟨-, hfatal, -, noted, hothers, -, -, -, hsemantic⟩ :=
    compile_reports {} [Returning.program]
  have hnone : (compile {} [Returning.program]).artifact = none := by rw [hcompile]
  refine ⟨hnone, hfatal hnone, ?_⟩
  obtain ⟨symbols, before, m, f, hsymbols, hfirst, -, part, -, rfl, hrefused⟩ :=
    hsemantic (.valueFromVoid (Returning.place 3)) (by rw [Returning.buildTrees_program])
  obtain rfl := Except.ok.inj (Returning.collect_program.symm.trans hsymbols)
  cases before with
  | cons p before => simpa [functionsOf, Returning.program] using hfirst.length_le
  | nil =>
    obtain ⟨rfl, rfl⟩ : m = "main" ∧ f = Returning.function := by
      simpa [functionsOf, Returning.program] using hfirst
    rw [Returning.buildRoutine_function] at hrefused
    have hplaces : [Returning.place 2] = part.map (·.span) := (Prod.mk.inj hrefused).2
    rw [hothers, unreachableIn, List.flatMap_nil, List.nil_append]
    simpa only [List.map_map, List.map_cons, List.map_nil, Function.comp_def] using
      (congrArg (List.map unreachableReport) hplaces).symm

end Codewright
