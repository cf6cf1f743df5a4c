import Codewright.Proofs.Surface.Expressions

/-!
# Statements are read as they are written

Statements need no separators, so that a statement ends where it cannot go on. Two places need care:
an `else` belongs to the nearest `if` that has none, and a name at the front is the target of an
assignment or the start of an expression.

1. What is read is spelled (`Read.takes_statement`), by the recursion of the readers. The grammar
   (`Passage.Derives`) has no rule for an `else` behind a branch that could take it itself, so the
   tree that is read shows which `if` has the `else`.
2. A rendering with semicolons and parentheses is read back (`statement_of_rendering`), by induction
   on the tree. The only condition is that the tree has no `else` that the rendering would give to
   another `if`.
-/

namespace Codewright.Surface

open Source (Span)

/-! ## Trees -/

mutual

/-- The statement with all places dropped. -/
def Stmt.unplaced : Stmt → Stmt
  | .block body _ => .block (unplacedAll body) default
  | .assign target value _ => .assign target value.unplaced default
  | .ifThen c yes _ => .ifThen c.unplaced yes.unplaced default
  | .ifElse c yes no _ => .ifElse c.unplaced yes.unplaced no.unplaced default
  | .loop c body _ => .loop c.unplaced body.unplaced default
  | .ret value _ => .ret (value.map Expr.unplaced) default
  | .expr e => .expr e.unplaced

def Stmt.unplacedAll : List Stmt → List Stmt
  | [] => []
  | s :: ss => s.unplaced :: unplacedAll ss

end

/-- Whether an `else` after the statement would belong to an `if` at its end. -/
def Stmt.endsOpen : Stmt → Bool
  | .ifThen _ _ _ => true
  | .ifElse _ _ no _ => no.endsOpen
  | .loop _ body _ => body.endsOpen
  | _ => false

mutual

/-- Whether every `else` stands behind a branch that cannot take it. -/
def Stmt.settled : Stmt → Bool
  | .block body _ => allSettled body
  | .ifThen _ yes _ => yes.settled
  | .ifElse _ yes no _ => !yes.endsOpen && yes.settled && no.settled
  | .loop _ body _ => body.settled
  | _ => true

def Stmt.allSettled : List Stmt → Bool
  | [] => true
  | s :: ss => s.settled && allSettled ss

end

/-- Induction over a statement and all statements of its blocks. -/
@[elab_as_elim]
theorem Stmt.induction {P : Stmt → Prop} (s : Stmt)
    (block : ∀ body span, (∀ x ∈ body, P x) → P (.block body span))
    (assign : ∀ target value span, P (.assign target value span))
    (ifThen : ∀ c yes span, P yes → P (.ifThen c yes span))
    (ifElse : ∀ c yes no span, P yes → P no → P (.ifElse c yes no span))
    (loop : ∀ c body span, P body → P (.loop c body span))
    (ret : ∀ value span, P (.ret value span)) (expr : ∀ e, P (.expr e)) : P s :=
  @Stmt.rec P (fun body => ∀ x ∈ body, P x) (fun body span => block body span) assign
    (fun c yes span => ifThen c yes span) (fun c yes no span => ifElse c yes no span)
    (fun c body span => loop c body span) ret expr
    (fun _ h => absurd h List.not_mem_nil)
    (fun _ _ hhead htail => List.forall_mem_cons.mpr ⟨hhead, htail⟩) s

/-! ## The grammar of statements -/

/-- What tokens of a function body can be: one statement, or the statements of a block. -/
inductive Passage where
  | one (s : Stmt)
  | many (ss : List Stmt)

/-- The tokens that spell a passage. Semicolons may stand before, between and after statements. -/
inductive Passage.Derives : Passage → List Kind → Prop
  | block {body : List Stmt} {s : Span} {ks : List Kind} (h : Derives (.many body) ks) :
    Derives (.one (.block body s)) (.kwBegin :: (ks ++ [.kwEnd]))
  | assign {value : Expr} {s : Span} {ks : List Kind} (part : String) (parts : List String)
    (h : Phrase.Derives (.expr 0 value) ks) :
    Derives (.one (.assign (joinName part parts) value s)) (partKinds part parts ++ .assign :: ks)
  | ifThen {c : Expr} {yes : Stmt} {s : Span} {ks ks' : List Kind}
    (hc : Phrase.Derives (.expr 0 c) ks)
    (hyes : Derives (.one yes) ks') : Derives (.one (.ifThen c yes s)) (.kwIf :: (ks ++ ks'))
  | ifElse {c : Expr} {yes no : Stmt} {s : Span} {ks ks' ks'' : List Kind}
    (hc : Phrase.Derives (.expr 0 c) ks) (hyes : Derives (.one yes) ks')
    (hopen : yes.endsOpen = false) (hno : Derives (.one no) ks'') :
    Derives (.one (.ifElse c yes no s)) (.kwIf :: (ks ++ (ks' ++ .kwElse :: ks'')))
  | loop {c : Expr} {body : Stmt} {s : Span} {ks ks' : List Kind}
    (hc : Phrase.Derives (.expr 0 c) ks)
    (hbody : Derives (.one body) ks') : Derives (.one (.loop c body s)) (.kwWhile :: (ks ++ ks'))
  | ret {s : Span} : Derives (.one (.ret none s)) [.kwReturn]
  | retValue {value : Expr} {s : Span} {ks : List Kind} (h : Phrase.Derives (.expr 0 value) ks) :
    Derives (.one (.ret (some value) s)) (.kwReturn :: ks)
  | expr {e : Expr} {ks : List Kind} (h : Phrase.Derives (.expr 0 e) ks) :
    Derives (.one (.expr e)) ks
  | nil : Derives (.many []) []
  | semicolon {ss : List Stmt} {ks : List Kind} (h : Derives (.many ss) ks) :
    Derives (.many ss) (.semicolon :: ks)
  | cons {s : Stmt} {ss : List Stmt} {ks ks' : List Kind} (h : Derives (.one s) ks)
    (hmore : Derives (.many ss) ks') : Derives (.many (s :: ss)) (ks ++ ks')

/-! ## What is read is spelled -/

/-- The tokens from `ts` down to `rest` spell the statement and have its regions, and no `else` that
it could take is left. -/
def StmtTaken (ts : List Token) (s : Stmt) (rest : List Token) : Prop :=
  (∃ ks, Passage.Derives (.one s) ks ∧ Laid ks [s.nest] ts rest) ∧
  (s.endsOpen = true → front rest ≠ some .kwElse)

namespace Read

open Reading

theorem takes_expressionStatement (ts : List Token) :
    (expressionStatement ts).Takes ts (StmtTaken ts) := by
  refine takes_map.mpr ((takes_expression ts).imp List.suffix_rfl ?_)
  rintro e rest ⟨ks, hderives, hlaid⟩
  exact ⟨⟨ks, .expr hderives, hlaid⟩, Bool.noConfusion⟩

mutual

theorem takes_statement (ts : List Token) : (statement ts).Takes ts (StmtTaken ts) := by
  match ts with
  | [] =>
    unfold statement
    exact takes_stuck .statement []
  | t :: rest =>
    unfold statement
    dsimp only
    split
    · next hk =>
      refine takes_behind.mpr (takes_map.mpr
        ((takes_statements rest [] rest (le_self rest)).imp (List.suffix_cons t rest) ?_))
      rintro ⟨body, close⟩ rest' ⟨ss, rfl, ks, hderives, hlaid⟩
      refine ⟨⟨_, .block hderives, ((laid_token hk).append hlaid).node rfl (by simp) ?_⟩,
        Bool.noConfusion⟩
      rw [Stmt.nests_eq_map]
      exact (List.sublist_append_left _ _).trans (List.sublist_cons_self _ _)
    · next hk =>
      refine takes_behind.mpr (((takes_expression rest).imp (List.suffix_cons t rest) fun _ _ h =>
        h).andThen ?_)
      rintro c rest₁ hlt ⟨ks, hc, hcond⟩
      have hif := (laid_token hk).append hcond
      refine ((takes_statement rest₁).imp hif.suffix fun _ _ h => h).orAfter ?_ ?_
      · rintro yes rest₂ - ⟨⟨ks', hyes, hlaid⟩, -⟩ hfront
        exact ⟨⟨_, .ifThen hc hyes, (hif.append hlaid).node rfl yes.span_nest
          (List.sublist_cons_self _ _)⟩,
          fun _ => hfront⟩
      · rintro yes els rest₂ hlt' ⟨⟨ks', hyes, hlaid⟩, hopen⟩ hels
        have hthen := hif.append (hlaid.append (laid_mark hels))
        refine takes_map.mpr ((takes_statement rest₂).imp hthen.suffix ?_)
        rintro no rest₃ ⟨⟨ks'', hno, hlaid'⟩, hopen'⟩
        have hclosed : yes.endsOpen = false := by
          -- The branch would have taken the `else` itself.
          rw [← Bool.not_eq_true]
          exact fun h => hopen h (congrArg some hels)
        refine ⟨⟨_, .ifElse hc hyes hclosed hno, ?_⟩, hopen'⟩
        simpa [Stmt.nest] using (hthen.append hlaid').node rfl no.span_nest
          (List.sublist_cons_self _ _)
    · next hk =>
      refine takes_behind.mpr (((takes_expression rest).imp (List.suffix_cons t rest) fun _ _ h =>
        h).andThen ?_)
      rintro c rest₁ hlt ⟨ks, hc, hcond⟩
      have hwhile := (laid_token hk).append hcond
      refine takes_map.mpr ((takes_statement rest₁).imp hwhile.suffix ?_)
      rintro body rest₂ ⟨⟨ks', hbody, hlaid⟩, hopen⟩
      exact ⟨⟨_, .loop hc hbody, (hwhile.append hlaid).node rfl body.span_nest
        (List.sublist_cons_self _ _)⟩,
        hopen⟩
    · next hk =>
      have hret : StmtTaken (t :: rest) (.ret none t.span) rest :=
        ⟨⟨_, .ret, laid_token hk⟩, Bool.noConfusion⟩
      split
      · exact hret
      · split
        · refine takes_behind.mpr
            (takes_map.mpr ((takes_expression _).imp (List.suffix_cons t _) ?_))
          rintro value rest' ⟨ks, hvalue, hlaid⟩
          exact ⟨⟨_, .retValue hvalue, ((laid_token hk).append hlaid).node rfl value.span_nest
            (List.sublist_cons_self _ _)⟩, Bool.noConfusion⟩
        · exact hret
    · refine (takes_qualifiedName .statement (t :: rest)).orAfter
        (fun _ _ _ _ _ => takes_expressionStatement (t :: rest)) ?_
      rintro ⟨target, span⟩ sign rest₁ hlt ⟨part, parts, rfl, hname⟩ hk
      have hassign := hname.first.append (laid_mark hk)
      refine takes_map.mpr ((takes_expression rest₁).imp hassign.suffix ?_)
      rintro value rest₂ ⟨ks, hvalue, hlaid⟩
      refine ⟨⟨_, .assign part parts hvalue, ?_⟩, Bool.noConfusion⟩
      -- The region starts with the first token of the name.
      simpa [partKinds, Stmt.nest] using (hassign.append hlaid).node rfl value.span_nest
        (List.sublist_cons_self _ _)
    · split
      · exact takes_expressionStatement (t :: rest)
      · exact takes_stuck .statement (t :: rest)
termination_by (ts.length, 0)

theorem takes_statements (start : List Token) (done : List Stmt) (ts : List Token)
    (hts : ts.length ≤ start.length) : (statements start done ts hts).Takes ts fun v rest =>
      ∃ ss, v.1 = done.reverse ++ ss ∧ ∃ ks, Passage.Derives (.many ss) ks ∧
        Laid (ks ++ [.kwEnd]) (ss.map Stmt.nest ++ [.node v.2 []]) ts rest := by
  match ts with
  | [] =>
    unfold statements
    exact List.suffix_rfl
  | t :: rest =>
    unfold statements
    split
    · next hk => exact ⟨[], (List.append_nil _).symm, [], .nil, laid_token hk⟩
    · split
      · next hk =>
        refine (takes_statements start done rest (le_of_cons_le hts)).imp
          (List.suffix_cons t rest) ?_
        rintro v rest' ⟨ss, hss, ks, hderives, hlaid⟩
        exact ⟨ss, hss, _, .semicolon hderives, (laid_mark hk).append hlaid⟩
      · have hs := takes_statement (t :: rest)
        split
        · next e rest₁ h₁ h =>
          rw [h] at hs
          exact hs
        · next s rest₁ h₁ h =>
          rw [h] at hs
          obtain ⟨⟨ks, hderives, hlaid⟩, -⟩ := hs
          refine (takes_statements start (s :: done) rest₁ (le_of_lt_of_le h₁ hts)).imp
            hlaid.suffix ?_
          rintro v rest' ⟨ss, hss, ks', hderives', hlaid'⟩
          refine ⟨s :: ss, by simp [hss], _, .cons hderives hderives', ?_⟩
          simpa using hlaid.append hlaid'
termination_by (ts.length, 1)

end

theorem takes_block (ts : List Token) : (block ts).Takes ts fun body rest =>
    ∃ ks, Passage.Derives (.many body.body) ks ∧ Laid (.kwBegin :: (ks ++ [.kwEnd]))
        [body.nest] ts rest := by
  refine (takes_token .kwBegin .blockBegin ts).andThen fun _ rest _ h => ?_
  refine takes_map.mpr ((takes_statements rest [] rest (le_self rest)).imp h.suffix ?_)
  rintro ⟨body, close⟩ rest' ⟨ss, rfl, ks, hderives, hlaid⟩
  refine ⟨ks, hderives, (h.append hlaid).node rfl (by simp) ?_⟩
  rw [Stmt.nests_eq_map]
  exact (List.sublist_append_left _ _).trans (List.sublist_cons_self _ _)

/-! ## What each reader gives -/

variable {start ts rest rest₁ : List Token} {t : Token} {c value : Expr} {s yes no : Stmt}

theorem statement_block {body : List Stmt} {close : Span} (hk : t.kind = .kwBegin)
    (h : (statements ts [] ts (le_self ts)).Gives (body, close) rest) :
    (statement (t :: ts)).Gives (.block body (t.span.join close)) rest := by
  rw [statement.eq_def]
  simp only [hk, gives_behind, gives_map]
  exact ⟨(body, close), h, rfl⟩

theorem statement_ifThen (hk : t.kind = .kwIf) (hc : (expression ts).Gives c rest₁)
    (hyes : (statement rest₁).Gives yes rest) (hfront : front rest ≠ some .kwElse) :
    (statement (t :: ts)).Gives (.ifThen c yes (t.span.join yes.span)) rest := by
  obtain ⟨hlt, hyes⟩ := hyes
  rw [statement.eq_def]
  simp only [hk, gives_behind, gives_andThen]
  exact ⟨c, rest₁, hc, gives_orAfter_plain hyes hfront (gives_ok.mpr ⟨rfl, rfl⟩)⟩

theorem statement_ifElse {els : Token} {rest₂ : List Token} (hk : t.kind = .kwIf)
    (hc : (expression ts).Gives c rest₁) (hyes : (statement rest₁).Gives yes (els :: rest₂))
    (hels : els.kind = .kwElse) (hno : (statement rest₂).Gives no rest) :
    (statement (t :: ts)).Gives (.ifElse c yes no (t.span.join no.span)) rest := by
  rw [statement.eq_def]
  simp only [hk, gives_behind, gives_andThen]
  exact ⟨c, rest₁, hc, gives_orAfter_next hyes hels (gives_map.mpr ⟨no, hno, rfl⟩)⟩

theorem statement_while (hk : t.kind = .kwWhile) (hc : (expression ts).Gives c rest₁)
    (hbody : (statement rest₁).Gives s rest) :
    (statement (t :: ts)).Gives (.loop c s (t.span.join s.span)) rest := by
  rw [statement.eq_def]
  simp only [hk, gives_behind, gives_andThen, gives_map]
  exact ⟨c, rest₁, hc, s, hbody, rfl⟩

theorem statement_return (hk : t.kind = .kwReturn)
    (hstop : ∀ k, front rest = some k → startsExpression k = false) :
    (statement (t :: rest)).Gives (.ret none t.span) rest := by
  rw [statement.eq_def]
  simp only [hk]
  cases rest with
  | nil => exact gives_single.mpr ⟨rfl, rfl⟩
  | cons t' rest =>
    simp only [hstop _ rfl]
    exact gives_single.mpr ⟨rfl, rfl⟩

theorem statement_returnValue {t' : Token} (hk : t.kind = .kwReturn)
    (hstarts : startsExpression t'.kind = true) (h : (expression (t' :: ts)).Gives value rest) :
    (statement (t :: t' :: ts)).Gives (.ret (some value) (t.span.join value.span)) rest := by
  rw [statement.eq_def]
  simp only [hk, hstarts, if_true, gives_behind, gives_map]
  exact ⟨value, h, rfl⟩

theorem statement_assign {n target : String} {span : Span} {sign : Token} (hk : t.kind = .ident n)
    (hname : (qualifiedName .statement (t :: ts)).Gives (target, span) (sign :: rest₁))
    (hsign : sign.kind = .assign) (h : (expression rest₁).Gives value rest) :
    (statement (t :: ts)).Gives (.assign target value (t.span.join value.span)) rest := by
  rw [statement.eq_def]
  simp only [hk]
  exact gives_orAfter_next hname hsign (gives_map.mpr ⟨value, h, rfl⟩)

theorem statement_group (hk : t.kind = .lparen) (h : (expression (t :: ts)).Gives value rest) :
    (statement (t :: ts)).Gives (.expr value) rest := by
  rw [statement.eq_def]
  simp only [hk]
  rw [if_pos (show startsExpression .lparen = true from rfl)]
  exact gives_map.mpr ⟨value, h, rfl⟩

section Statements

variable {done : List Stmt} {result : List Stmt × Span} {hts : (t :: ts).length ≤ start.length}

theorem statements_end (hk : t.kind = .kwEnd) :
    (statements start done (t :: ts) hts).Gives (done.reverse, t.span) ts := by
  rw [statements, if_pos hk]
  exact gives_ok.mpr ⟨rfl, rfl⟩

theorem statements_semicolon (hk : t.kind = .semicolon)
    (h : (statements start done ts (le_of_cons_le hts)).Gives result rest) :
    (statements start done (t :: ts) hts).Gives result rest := by
  have hend : t.kind ≠ .kwEnd := by simp [hk]
  rwa [statements, if_neg hend, if_pos hk]

theorem statements_cons (hend : t.kind ≠ .kwEnd) (hsemi : t.kind ≠ .semicolon)
    {h₁ : rest₁.length ≤ start.length} (hs : (statement (t :: ts)).Gives s rest₁)
    (h : (statements start (s :: done) rest₁ h₁).Gives result rest) :
    (statements start done (t :: ts) hts).Gives result rest := by
  obtain ⟨hlt, hs⟩ := hs
  rw [statements, if_neg hend, if_neg hsemi]
  simpa only [hs] using h

end Statements

end Read

/-! ## Renderings are read back -/

mutual

/-- The tokens of a statement: semicolons between the statements of a block, and parentheses around
conditions and around expressions that are statements. -/
def Stmt.rendering : Stmt → List Kind
  | .block [] _ => [.kwBegin, .kwEnd]
  | .block (s :: ss) _ => .kwBegin :: ((s.rendering ++ tailRendering ss) ++ [.kwEnd])
  | .assign target value _ => nameKinds target ++ .assign :: value.rendering
  | .ifThen c yes _ => .kwIf :: (grouped true c.rendering ++ yes.rendering)
  | .ifElse c yes no _ =>
    .kwIf :: (grouped true c.rendering ++ (yes.rendering ++ .kwElse :: no.rendering))
  | .loop c body _ => .kwWhile :: (grouped true c.rendering ++ body.rendering)
  | .ret none _ => [.kwReturn]
  | .ret (some value) _ => .kwReturn :: value.rendering
  | .expr e => grouped true e.rendering

def Stmt.tailRendering : List Stmt → List Kind
  | [] => []
  | s :: ss => .semicolon :: (s.rendering ++ tailRendering ss)

end

/-- The tokens of the statements of a block. -/
def Stmt.sequence : List Stmt → List Kind
  | [] => []
  | s :: ss => s.rendering ++ tailRendering ss

theorem Stmt.rendering_block (body : List Stmt) (s : Span) :
    (Stmt.block body s).rendering = .kwBegin :: (sequence body ++ [.kwEnd]) := by
  cases body with
  | nil => rw [Stmt.rendering, Stmt.sequence, List.nil_append]
  | cons s ss => rw [Stmt.rendering, Stmt.sequence]

/-- A statement starts with no token that ends another one or goes on with an expression. -/
theorem Stmt.rendering_starts (s : Stmt) : ∃ k tail, s.rendering = k :: tail ∧
    k ≠ .kwEnd ∧ k ≠ .semicolon ∧ binaryOp? k = none := by
  cases s with
  | block body span => exact ⟨_, _, Stmt.rendering_block body span, nofun, nofun, rfl⟩
  | assign target value span =>
    obtain ⟨part, parts, hkinds, -⟩ := nameKinds_spec target
    rw [Stmt.rendering, hkinds]
    exact ⟨_, _, rfl, nofun, nofun, rfl⟩
  | ret value span => cases value <;> exact ⟨_, _, rfl, nofun, nofun, rfl⟩
  | ifThen | ifElse | loop | expr => exact ⟨_, _, rfl, nofun, nofun, rfl⟩

theorem Stmt.front_of_rendering {s : Stmt} {ts : List Token} (rest : List Token)
    (hts : ts.map (·.kind) = s.rendering) :
    front (ts ++ rest) ≠ some .kwEnd ∧ front (ts ++ rest) ≠ some .semicolon ∧
      OnlyLooser 0 (ts ++ rest) := by
  obtain ⟨k, tail, hkinds, hend, hsemi, hop⟩ := s.rendering_starts
  rw [hkinds] at hts
  obtain ⟨t, ts', rfl, rfl, -⟩ := List.map_eq_cons_iff.mp hts
  refine ⟨fun h => hend (Option.some.inj h), fun h => hsemi (Option.some.inj h), fun op h => ?_⟩
  rw [binaryOp?_eq_some.mpr ⟨Option.some.inj h, rfl⟩] at hop
  cases hop

/-- A rendered statement ends here: another one is separated from it, or its block ends, or an
`else` follows that it cannot take. -/
def Stmt.Ends (s : Stmt) (rest : List Token) : Prop :=
  front rest = some .semicolon ∨ front rest = some .kwEnd ∨
    (front rest = some .kwElse ∧ s.endsOpen = false)

theorem Stmt.Ends.expression {s : Stmt} {rest : List Token} (h : s.Ends rest) :
    Surface.Ends 0 rest := by
  rcases h with h | h | ⟨h, -⟩
  all_goals exact ends_of_front 0 h nofun nofun fun op => by cases op <;> exact nofun

/-- The tokens of the statement are read as the statement, whatever their places are. -/
def Stmt.Understood (s : Stmt) : Prop :=
  ∀ ts rest : List Token, ts.map (·.kind) = s.rendering → s.Ends rest →
    ∃ s', s'.unplaced = s.unplaced ∧ (Read.statement (ts ++ rest)).Gives s' rest

theorem Stmt.ends_of_tail (s : Stmt) {ss : List Stmt} {ts rest : List Token} {close : Token}
    (hts : ts.map (·.kind) = tailRendering ss) (hclose : close.kind = .kwEnd) :
    s.Ends (ts ++ close :: rest) := by
  cases ss with
  | nil =>
    obtain rfl := List.map_eq_nil_iff.mp hts
    exact .inr (.inl (congrArg some hclose))
  | cons s' ss =>
    obtain ⟨semi, ts', rfl, hsemi, -⟩ := List.map_eq_cons_iff.mp hts
    exact .inl (congrArg some hsemi)

section Completeness

open Read Reading

variable {start rest : List Token} {c e value : Expr} {s yes no : Stmt} {ss : List Stmt}
  {span : Span}

/-- One more statement of a block, if the others are read after it. -/
theorem statements_of_next {s' : Stmt} {done ss' : List Stmt} {ts rest₁ : List Token} {close : Span}
    (hkinds : ts.map (·.kind) = s.rendering) (hs : (statement (ts ++ rest₁)).Gives s' rest₁)
    (hts : (ts ++ rest₁).length ≤ start.length) (hts' : rest₁.length ≤ start.length)
    (hmore : (statements start (s' :: done) rest₁ hts').Gives ((s' :: done).reverse ++ ss',
      close) rest) :
    (statements start done (ts ++ rest₁) hts).Gives (done.reverse ++ s' :: ss', close) rest := by
  obtain ⟨k, tail, hrendering, hend, hsemi, -⟩ := s.rendering_starts
  rw [hrendering] at hkinds
  obtain ⟨t, ts', rfl, rfl, -⟩ := List.map_eq_cons_iff.mp hkinds
  rw [List.reverse_cons, List.append_assoc, List.singleton_append] at hmore
  exact statements_cons hend hsemi hs hmore

/-- The statements of a block are read to its end, behind the ones that are read already. -/
theorem statements_of_sequence {ts : List Token} {close : Token} (done : List Stmt)
    (hss : ∀ s ∈ ss, s.Understood) (hts : (ts ++ close :: rest).length ≤ start.length)
    (hkinds : ts.map (·.kind) = Stmt.sequence ss) (hclose : close.kind = .kwEnd) :
    ∃ ss', Stmt.unplacedAll ss' = Stmt.unplacedAll ss ∧
      (statements start done (ts ++ close :: rest) hts).Gives (done.reverse ++ ss',
        close.span) rest := by
  induction ss generalizing done ts with
  | nil =>
    obtain rfl := List.map_eq_nil_iff.mp hkinds
    refine ⟨[], rfl, ?_⟩
    rw [List.append_nil]
    exact statements_end hclose
  | cons s ss ih =>
    obtain ⟨ts₁, ts₂, rfl, hts₁, hts₂⟩ := List.map_eq_append_iff.mp hkinds
    rw [List.forall_mem_cons] at hss
    simp only [List.append_assoc] at hts ⊢
    have hlen : (ts₂ ++ close :: rest).length ≤ start.length := Nat.le_trans (by simp) hts
    obtain ⟨s', hsame, hs⟩ := hss.1 ts₁ _ hts₁ (s.ends_of_tail hts₂ hclose)
    obtain ⟨ss', hsames, hmore⟩ : ∃ ss', Stmt.unplacedAll ss' = Stmt.unplacedAll ss ∧
        (statements start (s' :: done) (ts₂ ++ close :: rest) hlen).Gives
          ((s' :: done).reverse ++ ss', close.span) rest := by
      -- a semicolon comes first if there is another statement
      cases ss with
      | nil => exact ih (s' :: done) hss.2 hlen hts₂
      | cons s₂ ss =>
        obtain ⟨semi, ts₃, rfl, hsemi, hts₃⟩ := List.map_eq_cons_iff.mp hts₂
        obtain ⟨ss', hsames, hmore⟩ := ih (s' :: done) hss.2 (le_of_cons_le hlen) hts₃
        exact ⟨ss', hsames, statements_semicolon hsemi hmore⟩
    refine ⟨s' :: ss', by simp only [Stmt.unplacedAll, hsame, hsames], ?_⟩
    exact statements_of_next hts₁ hs hts hlen hmore

theorem understood_block (hss : ∀ s ∈ ss, s.Understood) : (Stmt.block ss span).Understood := by
  intro ts rest hts _
  rw [Stmt.rendering_block] at hts
  obtain ⟨t, inner, close, rfl, hk, hinner, hclose⟩ := exists_of_bracketed hts
  obtain ⟨ss', hsame, hbody⟩ := statements_of_sequence [] hss (le_self _) hinner hclose
  rw [bracketed_append]
  exact ⟨.block ss' _, by simp only [Stmt.unplaced, hsame], statement_block hk hbody⟩

theorem understood_assign (target : String) : (Stmt.assign target value span).Understood := by
  intro ts rest hts hends
  obtain ⟨part, parts, hkinds, rfl⟩ := nameKinds_spec target
  rw [Stmt.rendering, hkinds] at hts
  obtain ⟨used, ts', rfl, hused, hts'⟩ := List.map_eq_append_iff.mp hts
  obtain ⟨sign, ts₁, rfl, hsign, hts₁⟩ := List.map_eq_cons_iff.mp hts'
  have hdot : front (sign :: (ts₁ ++ rest)) ≠ some .dot := by simp [hsign]
  obtain ⟨s, hname⟩ := qualifiedName_complete .statement hused hdot
  obtain ⟨value', hsame, hvalue⟩ := expression_of_rendering hts₁ hends.expression
  obtain ⟨t, used', rfl, hk, -⟩ := List.map_eq_cons_iff.mp hused
  rw [List.append_assoc, List.cons_append, List.cons_append]
  refine ⟨_, ?_, statement_assign hk hname hsign hvalue⟩
  simp only [Stmt.unplaced, hsame]

/-- A condition in its parentheses, before the rendering of a statement. -/
theorem expression_of_condition {ts₁ ts₂ : List Token} (rest : List Token)
    (hts₁ : ts₁.map (·.kind) = grouped true c.rendering) (hts₂ : ts₂.map (·.kind) = s.rendering) :
    ∃ c', c'.unplaced = c.unplaced ∧
      (expression (ts₁ ++ (ts₂ ++ rest))).Gives c' (ts₂ ++ rest) :=
  expression_of_group hts₁ (Stmt.front_of_rendering rest hts₂).2.2

theorem understood_ifThen (hyes : yes.Understood) : (Stmt.ifThen c yes span).Understood := by
  intro ts rest hts hends
  rw [Stmt.rendering] at hts
  obtain ⟨t, ts', rfl, hk, hts'⟩ := List.map_eq_cons_iff.mp hts
  obtain ⟨ts₁, ts₂, rfl, hts₁, hts₂⟩ := List.map_eq_append_iff.mp hts'
  obtain ⟨c', hc, hcond⟩ := expression_of_condition rest hts₁ hts₂
  -- This statement could take an `else` itself, so none follows.
  have helse : front rest ≠ some .kwElse ∧ yes.Ends rest := by
    rcases hends with h | h | ⟨-, hopen⟩
    · exact ⟨by rw [h]; exact nofun, .inl h⟩
    · exact ⟨by rw [h]; exact nofun, .inr (.inl h)⟩
    · cases hopen
  obtain ⟨yes', hsame, hread⟩ := hyes ts₂ rest hts₂ helse.2
  rw [List.cons_append, List.append_assoc]
  refine ⟨_, ?_, statement_ifThen hk hcond hread helse.1⟩
  simp only [Stmt.unplaced, hc, hsame]

theorem understood_ifElse (hyes : yes.Understood) (hopen : yes.endsOpen = false)
    (hno : no.Understood) : (Stmt.ifElse c yes no span).Understood := by
  intro ts rest hts hends
  rw [Stmt.rendering] at hts
  obtain ⟨t, ts', rfl, hk, hts'⟩ := List.map_eq_cons_iff.mp hts
  obtain ⟨ts₁, ts₂', rfl, hts₁, hts₂'⟩ := List.map_eq_append_iff.mp hts'
  obtain ⟨ts₂, ts₃', rfl, hts₂, hts₃'⟩ := List.map_eq_append_iff.mp hts₂'
  obtain ⟨els, ts₃, rfl, hels, hts₃⟩ := List.map_eq_cons_iff.mp hts₃'
  obtain ⟨c', hc, hcond⟩ := expression_of_condition (els :: (ts₃ ++ rest)) hts₁ hts₂
  obtain ⟨yes', hsame, hread⟩ :=
    hyes ts₂ (els :: (ts₃ ++ rest)) hts₂ (.inr (.inr ⟨congrArg some hels, hopen⟩))
  obtain ⟨no', hsame', hread'⟩ := hno ts₃ rest hts₃ hends
  have happend : t :: (ts₁ ++ (ts₂ ++ els :: ts₃)) ++ rest
      = t :: (ts₁ ++ (ts₂ ++ els :: (ts₃ ++ rest))) := by simp
  rw [happend]
  refine ⟨_, ?_, statement_ifElse hk hcond hread hels hread'⟩
  simp only [Stmt.unplaced, hc, hsame, hsame']

theorem understood_loop (hbody : s.Understood) : (Stmt.loop c s span).Understood := by
  intro ts rest hts hends
  rw [Stmt.rendering] at hts
  obtain ⟨t, ts', rfl, hk, hts'⟩ := List.map_eq_cons_iff.mp hts
  obtain ⟨ts₁, ts₂, rfl, hts₁, hts₂⟩ := List.map_eq_append_iff.mp hts'
  obtain ⟨c', hc, hcond⟩ := expression_of_condition rest hts₁ hts₂
  obtain ⟨body', hsame, hread⟩ := hbody ts₂ rest hts₂ hends
  rw [List.cons_append, List.append_assoc]
  refine ⟨_, ?_, statement_while hk hcond hread⟩
  simp only [Stmt.unplaced, hc, hsame]

theorem understood_return (value : Option Expr) : (Stmt.ret value span).Understood := by
  intro ts rest hts hends
  cases value with
  | none =>
    rw [Stmt.rendering] at hts
    obtain ⟨t, rfl, hk⟩ := List.map_eq_singleton_iff.mp hts
    have hstop : ∀ k, front rest = some k → startsExpression k = false := by
      intro k hfront
      rcases hends with h | h | ⟨h, -⟩
      all_goals
        rw [h] at hfront
        rw [← Option.some.inj hfront]
        rfl
    exact ⟨.ret none t.span, rfl, statement_return hk hstop⟩
  | some value =>
    rw [Stmt.rendering] at hts
    obtain ⟨t, ts', rfl, hk, hts'⟩ := List.map_eq_cons_iff.mp hts
    obtain ⟨value', hsame, hvalue⟩ := expression_of_rendering hts' hends.expression
    obtain ⟨k, tail, hkinds, hstarts⟩ := (derives_rendering value 0 (Nat.zero_le _)).starts
    rw [hkinds] at hts'
    obtain ⟨t', ts'', rfl, rfl, -⟩ := List.map_eq_cons_iff.mp hts'
    refine ⟨_, ?_, statement_returnValue hk hstarts hvalue⟩
    simp only [Stmt.unplaced, Option.map_some, hsame]

theorem understood_expr (e : Expr) : (Stmt.expr e).Understood := by
  intro ts rest hts hends
  rw [Stmt.rendering] at hts
  obtain ⟨e', hsame, hread⟩ := expression_of_group hts hends.expression.2.2
  -- The parenthesis at the front keeps a name from being taken as the target of an assignment.
  obtain ⟨t, ts', rfl, hk, -⟩ := List.map_eq_cons_iff.mp hts
  exact ⟨.expr e', by simp only [Stmt.unplaced, hsame], statement_group hk hread⟩

theorem settled_of_mem {x : Stmt} (h : Stmt.allSettled ss = true) (hx : x ∈ ss) :
    x.settled = true := by
  induction ss with
  | nil => cases hx
  | cons s ss ih =>
    rw [Stmt.allSettled, Bool.and_eq_true] at h
    rcases List.mem_cons.mp hx with rfl | hx
    · exact h.1
    · exact ih h.2 hx

/-- A rendering is read back, unless one of its `else`s belongs to another `if` than in the tree. -/
theorem statement_of_rendering (s : Stmt) (h : s.settled = true) : s.Understood := by
  induction s using Stmt.induction with
  | block body span ih =>
    rw [Stmt.settled] at h
    exact understood_block fun s hs => ih s hs (settled_of_mem h hs)
  | assign target value span => exact understood_assign target
  | ifThen c yes span ih =>
    rw [Stmt.settled] at h
    exact understood_ifThen (ih h)
  | ifElse c yes no span ihyes ihno =>
    rw [Stmt.settled, Bool.and_eq_true, Bool.and_eq_true, Bool.not_eq_true'] at h
    exact understood_ifElse (ihyes h.1.2) h.1.1 (ihno h.2)
  | loop c body span ih =>
    rw [Stmt.settled] at h
    exact understood_loop (ih h)
  | ret value span => exact understood_return value
  | expr e => exact understood_expr e

end Completeness

end Codewright.Surface
