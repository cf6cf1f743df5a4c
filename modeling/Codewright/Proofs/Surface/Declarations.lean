import Codewright.Proofs.Surface.Statements

/-!
# Declarations are read as they are written

A constant or a function is what its tokens spell (`Read.takes_declaration`), and its rendering is
read back (`declaration_of_rendering`). Its region starts with its mark, if it is public, and else
with its first token (`Starts`).
-/

namespace Codewright.Surface

open Source (Span)
open Read (Declaration)

/-! ## The grammar of declarations -/

/-- The tokens of the value of a constant: a literal, or a number behind a minus. -/
inductive Initial : Value → List Kind → Prop
  | literal (v : Value) : Initial v [v.literalKind]
  | negInt (n : Int64) : Initial (.int (-n)) [.minus, .int n]
  | negReal (x : Double) : Initial (.real x.neg) [.minus, .real x]

/-- The mark of a public declaration. -/
def marker (isPublic : Bool) : List Kind := if isPublic then [.kwPublic] else []

def Param.kinds (p : Param) : List Kind := [.typeName p.type, .ident p.name]

def paramTail (ps : List Param) : List Kind := ps.flatMap fun p => .comma :: p.kinds

/-- The tokens of parameters, with commas between them. -/
def paramKinds : List Param → List Kind
  | [] => []
  | p :: ps => p.kinds ++ paramTail ps

/-- The tokens that spell a declaration. -/
inductive Declares : Declaration → List Kind → Prop
  | constant {c : Constant} {ks : List Kind} (h : Initial c.value ks) :
    Declares (.constant c)
      (marker c.isPublic ++ .kwConst :: .typeName c.type :: .ident c.name :: .equals :: ks)
  | function {f : Function} {ks : List Kind} (h : Passage.Derives (.many f.body.body) ks) :
    Declares (.function f) (marker f.isPublic ++ .typeName f.result :: .ident f.name :: .lparen ::
      (paramKinds f.params ++ .rparen :: .kwBegin :: (ks ++ [.kwEnd])))

/-! ## Trees without places -/

def Param.unplaced (p : Param) : Param := { p with span := default }

def Constant.unplaced (c : Constant) : Constant := { c with span := default }

def Function.unplaced (f : Function) : Function :=
  { f with
    params := f.params.map Param.unplaced
    body := ⟨Stmt.unplacedAll f.body.body, default⟩
    span := default }

def Read.Declaration.unplaced : Declaration → Declaration
  | .constant c => .constant c.unplaced
  | .function f => .function f.unplaced

/-! ## What is read is spelled -/

/-- Behind tokens of the kinds `ks` and the first of `ts`, the region `first` is laid. -/
def Starts (ks : List Kind) (first : Span) (whole ts : List Token) : Prop :=
  ts <:+ whole ∧ ∀ t rest, ts = t :: rest → Laid (ks ++ [t.kind]) [.node first []] whole rest

/-- The tokens from `ts` down to `rest` spell the declaration, and have its regions. -/
def DeclarationTaken (ts : List Token) (d : Declaration) (rest : List Token) : Prop :=
  ∃ ks, Declares d ks ∧ Laid ks [d.nest] ts rest

theorem initial_of_negated? {k : Kind} {v : Value} (h : Read.negated? k = some v) :
    Initial v [.minus, k] := by
  unfold Read.negated? at h
  split at h
  · cases h
    exact .negInt _
  · cases h
    exact .negReal _
  · cases h

namespace Read

open Reading

variable {ks : List Kind} {first : Span} {whole start ts rest : List Token}

theorem starts_behind {t : Token} {k : Kind} (hk : t.kind = k) (ts : List Token) :
    Starts [k] t.span (t :: ts) ts := by
  refine ⟨List.suffix_cons t ts, ?_⟩
  rintro t' rest rfl
  exact (laid_token hk).append (laid_mark rfl)

theorem takes_typeName (h : Starts ks first whole ts) : (typeName ts).Takes whole fun type rest =>
    Laid (ks ++ [.typeName type]) [.node first []] whole rest := by
  unfold typeName
  split
  · exact h.2 _ _ rfl
  · exact h.1

theorem takes_simpleName (e : Expectation) (ts : List Token) :
    (simpleName e ts).Takes ts fun v rest =>
    Laid [.ident v.1] [.node v.2 []] ts rest := by
  unfold simpleName
  split
  · exact laid_token rfl
  · exact takes_stuck e _

theorem takes_literalToken (valueOf? : Kind → Option Value) (ts : List Token) :
    (literalToken valueOf? ts).Takes ts fun v rest =>
      ∃ k, valueOf? k = some v.1 ∧ Laid [k] [.node v.2 []] ts rest := by
  unfold literalToken
  split
  · exact takes_stuck .literal []
  · next t rest =>
    split
    · next v hv => exact ⟨t.kind, hv, laid_token rfl⟩
    · exact takes_stuck .literal (t :: rest)

theorem takes_constantValue (ts : List Token) : (constantValue ts).Takes ts fun v rest =>
    ∃ ks, Initial v.1 ks ∧ Laid ks [.node v.2 []] ts rest := by
  unfold constantValue
  split
  · exact takes_stuck .literal []
  · next t rest =>
    split
    · next hk =>
      refine takes_behind.mpr ((takes_literalToken negated? rest).imp (List.suffix_cons t rest) ?_)
      rintro v rest' ⟨k, hv, hlaid⟩
      exact ⟨_, initial_of_negated? hv, (laid_mark hk).append hlaid⟩
    · refine (takes_literalToken literal? (t :: rest)).imp List.suffix_rfl ?_
      rintro v rest' ⟨k, hv, hlaid⟩
      exact ⟨_, .literal v.1, literal?_eq_some.mp hv ▸ hlaid⟩

theorem takes_constant (isPublic : Bool) (h : Starts ks first whole ts) :
    (constant isPublic first ts).Takes whole fun c rest => c.isPublic = isPublic ∧
      ∃ ks', Initial c.value ks' ∧
      Laid (ks ++ .typeName c.type :: .ident c.name :: .equals :: ks')
          [.node c.span []] whole rest := by
  refine (takes_typeName h).andThen fun _ rest _ h => ?_
  refine ((takes_simpleName .constantName rest).imp h.suffix fun _ _ h' => h.append h').andThen
    fun _ rest _ h => ?_
  refine ((takes_token .equals .constantEquals rest).imp h.suffix fun _ _ h' => h.append h').andThen
    fun _ rest _ h => ?_
  refine takes_map.mpr ((takes_constantValue rest).imp h.suffix ?_)
  rintro v rest' ⟨ks', hinitial, hlaid⟩
  refine ⟨rfl, ks', hinitial, ?_⟩
  simpa using (h.append hlaid).node rfl (by simp) (List.nil_sublist _)

theorem takes_param (ts : List Token) : (param ts).Takes ts fun p rest =>
    Laid p.kinds [p.nest] ts rest := by
  unfold param
  split
  · next type span rest =>
    refine takes_behind.mpr
      (takes_map.mpr ((takes_simpleName _ rest).imp (List.suffix_cons _ _) ?_))
    exact fun v _ h => ((laid_token rfl).append h).node rfl rfl (List.nil_sublist _)
  · exact takes_stuck .type _

theorem takes_paramList (start : List Token) (done : List Param) (ts : List Token)
    (hts : ts.length ≤ start.length) : (paramList start done ts hts).Takes ts fun ps rest =>
      ∃ p ps', ps = done.reverse ++ p :: ps' ∧
        Laid (p.kinds ++ paramTail ps') ((p :: ps').map Param.nest) ts rest := by
  unfold paramList
  have hp := takes_param ts
  split
  · next e rest hr h =>
    rw [h] at hp
    exact hp
  · next p rest hr h =>
    rw [h] at hp
    split
    · exact ⟨p, [], List.reverse_cons, hp⟩
    · next rest₁ hlt hafter =>
      obtain ⟨comma, rfl, hk⟩ := after?_eq_some hafter
      have hcomma := Laid.append hp (laid_mark hk)
      refine (takes_paramList start (p :: done) rest₁ (le_of_lt_of_lt_of_le hlt hr hts)).imp
        hcomma.suffix ?_
      rintro ps rest₂ ⟨p', ps', rfl, hlaid⟩
      exact ⟨p, p' :: ps', by simp, hcomma.append hlaid⟩
termination_by ts.length

theorem takes_params (ts : List Token) : (params ts).Takes ts fun ps rest =>
    Laid (paramKinds ps ++ [.rparen]) (ps.map Param.nest) ts rest := by
  unfold params
  split
  · next rest hlt hafter =>
    obtain ⟨close, rfl, hk⟩ := after?_eq_some hafter
    exact laid_mark hk
  · refine (takes_paramList ts [] ts (le_self ts)).andThen ?_
    rintro ps rest - ⟨p, ps', rfl, hlaid⟩
    refine takes_map.mpr ((takes_token .rparen .parametersClose rest).imp hlaid.suffix fun _ _ h =>
      ?_)
    exact (hlaid.append h).sublist (List.sublist_append_left _ _)

theorem takes_function (isPublic : Bool) (h : Starts ks first whole ts) :
    (function isPublic first ts).Takes whole fun f rest =>
      f.isPublic = isPublic ∧ ∃ ks', Passage.Derives (.many f.body.body) ks' ∧
        Laid (ks ++ .typeName f.result :: .ident f.name :: .lparen ::
            (paramKinds f.params ++ .rparen :: .kwBegin :: (ks' ++ [.kwEnd])))
          [(Declaration.function f).nest] whole rest := by
  refine (takes_typeName h).andThen fun _ rest _ h => ?_
  refine ((takes_simpleName .functionName rest).imp h.suffix fun _ _ h' => h.append h').andThen
    fun _ rest _ h => ?_
  refine ((takes_token .lparen .parametersOpen rest).imp h.suffix fun _ _ h' => h.append h').andThen
    fun _ rest _ h => ?_
  refine ((takes_params rest).imp h.suffix fun _ _ h' => h.append h').andThen fun ps rest _ h => ?_
  refine takes_map.mpr ((takes_block rest).imp h.suffix ?_)
  rintro body rest' ⟨ks', hderives, hlaid⟩
  refine ⟨rfl, ks', hderives, ?_⟩
  simpa [Declaration.nest] using
    (h.append hlaid).node rfl (by simp) (List.sublist_append_right [_, _, _] _)

theorem takes_unmarkedDeclaration (isPublic : Bool) (h : Starts (marker isPublic) first whole ts) :
    (unmarkedDeclaration isPublic first ts).Takes whole (DeclarationTaken whole) := by
  have hfunction : ((function isPublic first ts).map Declaration.function).Takes whole
      (DeclarationTaken whole) := by
    refine takes_map.mpr ((takes_function isPublic h).imp List.suffix_rfl ?_)
    rintro f rest ⟨rfl, ks, hderives, hlaid⟩
    exact ⟨_, .function hderives, hlaid⟩
  unfold unmarkedDeclaration
  split
  · exact hfunction
  · next t rest =>
    split
    · next hk =>
      have hconst := h.2 t rest rfl
      have hstarts : Starts (marker isPublic ++ [t.kind]) first whole rest := by
        refine ⟨hconst.suffix, ?_⟩
        rintro t' rest' rfl
        exact hconst.append (laid_mark rfl)
      refine takes_behind.mpr
        (takes_map.mpr ((takes_constant isPublic hstarts).imp List.suffix_rfl ?_))
      rintro c rest' ⟨rfl, ks, hinitial, hlaid⟩
      refine ⟨_, .constant hinitial, ?_⟩
      simpa [hk, Declaration.nest] using hlaid
    · exact hfunction

theorem takes_declaration (t : Token) (rest : List Token) :
    (declaration t rest).Takes (t :: rest) (DeclarationTaken (t :: rest)) := by
  unfold declaration
  split
  · next hk => exact takes_behind.mpr (takes_unmarkedDeclaration true (starts_behind hk rest))
  · refine takes_unmarkedDeclaration false ⟨List.suffix_rfl, ?_⟩
    rintro t' rest' ⟨⟩
    exact laid_token rfl

/-! ## What each reader gives -/

theorem gives_typeName {t : Token} {type : TypeName} (hk : t.kind = .typeName type)
    (rest : List Token) : (typeName (t :: rest)).Gives type rest := by
  obtain ⟨k, span⟩ := t
  cases hk
  exact gives_single.mpr ⟨rfl, rfl⟩

theorem gives_simpleName {t : Token} {name : String} (hk : t.kind = .ident name) (e : Expectation)
    (rest : List Token) : (simpleName e (t :: rest)).Gives (name, t.span) rest := by
  obtain ⟨k, span⟩ := t
  cases hk
  exact gives_single.mpr ⟨rfl, rfl⟩

theorem gives_literalToken {valueOf? : Kind → Option Value} {t : Token} {v : Value}
    (h : valueOf? t.kind = some v) (rest : List Token) :
    (literalToken valueOf? (t :: rest)).Gives (v, t.span) rest := by
  simp [literalToken, h]

theorem gives_param {t₁ t₂ : Token} {p : Param} (h₁ : t₁.kind = .typeName p.type)
    (h₂ : t₂.kind = .ident p.name) (rest : List Token) :
    (param (t₁ :: t₂ :: rest)).Gives { p with span := t₁.span.join t₂.span } rest := by
  obtain ⟨k, span⟩ := t₁
  cases h₁
  exact gives_behind.mpr (gives_map.mpr ⟨_, gives_simpleName h₂ _ rest, rfl⟩)

section Lists

variable {p : Param} {done ps : List Param} {hts : ts.length ≤ start.length}

theorem paramList_last (h : (param ts).Gives p rest) (hfront : front rest ≠ some .comma) :
    (paramList start done ts hts).Gives (p :: done).reverse rest := by
  obtain ⟨hlt, h⟩ := h
  rw [paramList]
  simp only [h, after?_eq_none hfront, gives_ok, and_self]

theorem paramList_more {comma : Token} {rest₁ : List Token} {hts₁ : rest₁.length ≤ start.length}
    (h : (param ts).Gives p (comma :: rest₁)) (hk : comma.kind = .comma)
    (hmore : (paramList start (p :: done) rest₁ hts₁).Gives ps rest) :
    (paramList start done ts hts).Gives ps rest := by
  obtain ⟨hlt, h⟩ := h
  rw [paramList]
  simpa only [h, after?_of_kind hk] using hmore

end Lists

end Read

/-! ## Single declarations -/

section Declarations

open Read Reading

variable {ts rest : List Token} {first : Span}

variable {v : Value} {ps : List Param} {d : Declaration}

theorem constantValue_of_minus {k : Kind} (hts : ts.map (·.kind) = [.minus, k])
    (hv : negated? k = some v) : ∃ last, (constantValue (ts ++ rest)).Gives (v, last) rest := by
  obtain ⟨t, ts', rfl, hk, hts'⟩ := List.map_eq_cons_iff.mp hts
  obtain ⟨t', rfl, rfl⟩ := List.map_eq_singleton_iff.mp hts'
  refine ⟨t'.span, ?_⟩
  simp only [List.cons_append, List.nil_append, constantValue, if_pos hk, gives_behind]
  exact gives_literalToken hv rest

theorem constantValue_of_initial {ks : List Kind} (h : Initial v ks)
    (hts : ts.map (·.kind) = ks) : ∃ last, (constantValue (ts ++ rest)).Gives (v, last) rest := by
  cases h with
  | literal =>
    obtain ⟨t, rfl, hk⟩ := List.map_eq_singleton_iff.mp hts
    have hminus : t.kind ≠ .minus := by
      rintro hminus
      have hv := literal?_eq_some.mpr hk
      rw [hminus] at hv
      cases hv
    refine ⟨t.span, ?_⟩
    simp only [List.singleton_append, constantValue, if_neg hminus]
    exact gives_literalToken (literal?_eq_some.mpr hk) rest
  | negInt | negReal => exact constantValue_of_minus hts rfl

theorem paramList_complete {start : List Token} {p : Param} (done : List Param)
    (hts : (ts ++ rest).length ≤ start.length) (hkinds : ts.map (·.kind) = p.kinds ++ paramTail ps)
    (hrest : front rest ≠ some .comma) :
    ∃ ps', ps'.map Param.unplaced = (p :: ps).map Param.unplaced ∧
      (paramList start done (ts ++ rest) hts).Gives (done.reverse ++ ps') rest := by
  induction ps generalizing p done ts with
  | nil =>
    obtain ⟨t₁, ts₁, rfl, h₁, hts₁⟩ := List.map_eq_cons_iff.mp hkinds
    obtain ⟨t₂, rfl, h₂⟩ := List.map_eq_singleton_iff.mp hts₁
    refine ⟨[{ p with span := t₁.span.join t₂.span }], rfl, ?_⟩
    rw [← List.reverse_cons]
    exact paramList_last (gives_param h₁ h₂ rest) hrest
  | cons q ps ih =>
    obtain ⟨t₁, ts₁, rfl, h₁, hts₁⟩ := List.map_eq_cons_iff.mp hkinds
    obtain ⟨t₂, ts₂, rfl, h₂, hts₂⟩ := List.map_eq_cons_iff.mp hts₁
    obtain ⟨comma, ts₃, rfl, hk, hts₃⟩ := List.map_eq_cons_iff.mp hts₂
    have hlen : (ts₃ ++ rest).length ≤ start.length := by
      simp only [List.cons_append, List.length_cons, List.length_append] at hts ⊢
      omega
    obtain ⟨ps', hsame, hmore⟩ := ih ({ p with span := t₁.span.join t₂.span } :: done) hlen hts₃
    rw [List.reverse_cons, List.append_assoc, List.singleton_append] at hmore
    refine ⟨{ p with span := t₁.span.join t₂.span } :: ps', ?_,
      paramList_more (gives_param h₁ h₂ _) hk hmore⟩
    rw [List.map_cons, hsame]
    rfl

theorem params_complete (rest : List Token)
    (hkinds : ts.map (·.kind) = paramKinds ps ++ [.rparen]) :
    ∃ ps', ps'.map Param.unplaced = ps.map Param.unplaced ∧
        (params (ts ++ rest)).Gives ps' rest := by
  cases ps with
  | nil =>
    obtain ⟨t, rfl, hk⟩ := List.map_eq_singleton_iff.mp hkinds
    refine ⟨[], rfl, ?_⟩
    simp [params, after?_of_kind hk]
  | cons p ps =>
    obtain ⟨used, ts', rfl, hused, hts'⟩ := List.map_eq_append_iff.mp hkinds
    obtain ⟨t, rfl, hk⟩ := List.map_eq_singleton_iff.mp hts'
    rw [List.append_assoc, List.singleton_append]
    have hcomma : front (t :: rest) ≠ some .comma := by simp [hk]
    obtain ⟨ps', hsame, hread⟩ := paramList_complete [] (le_self _) hused hcomma
    have hfront : front (used ++ t :: rest) ≠ some .rparen := by
      obtain ⟨t₁, used', rfl, h₁, -⟩ := List.map_eq_cons_iff.mp hused
      simp [h₁]
    refine ⟨ps', hsame, ?_⟩
    simp only [params, after?_eq_none hfront, gives_andThen, gives_map]
    exact ⟨ps', _, hread, _, gives_token hk .parametersClose rest, rfl⟩

theorem block_complete {ss : List Stmt} (rest : List Token) (hsettled : Stmt.allSettled ss = true)
    (hkinds : ts.map (·.kind) = .kwBegin :: (Stmt.sequence ss ++ [.kwEnd])) :
    ∃ body, Stmt.unplacedAll body.body = Stmt.unplacedAll ss ∧
        (block (ts ++ rest)).Gives body rest := by
  obtain ⟨t, inner, close, rfl, hk, hinner, hclose⟩ := exists_of_bracketed hkinds
  obtain ⟨ss', hsame, hread⟩ := statements_of_sequence []
    (fun s hs => statement_of_rendering s (settled_of_mem hsettled hs)) (le_self _) hinner hclose
  rw [bracketed_append]
  refine ⟨⟨ss', t.span.join close.span⟩, hsame, ?_⟩
  simp only [block, gives_andThen, gives_map]
  exact ⟨t.span, _, gives_token hk .blockBegin _, (ss', close.span), hread, rfl⟩

/-! ## Renderings of declarations -/

/-- The tokens of a constant's value, with a minus before a negative number. -/
def initialKinds : Value → List Kind
  | .int n => if n < 0 then [.minus, .int (-n)] else [.int n]
  | .real x => if x.isNegative then [.minus, .real x.neg] else [.real x]
  | .bool b => [Value.literalKind (.bool b)]

theorem initial_initialKinds (v : Value) : Initial v (initialKinds v) := by
  cases v with
  | int n =>
    rw [initialKinds]
    split
    · have hneg := Initial.negInt (-n)
      rwa [Int64.neg_neg] at hneg
    · exact .literal (.int n)
  | real x =>
    rw [initialKinds]
    split
    · have hneg := Initial.negReal x.neg
      rwa [show x.neg.neg = x from by simp [Double.neg]] at hneg
    · exact .literal (.real x)
  | bool b => exact .literal (.bool b)

/-- The tokens of a declaration without a closing semicolon. -/
def Read.Declaration.rendering : Declaration → List Kind
  | .constant c => marker c.isPublic ++ .kwConst :: .typeName c.type :: .ident c.name :: .equals ::
      initialKinds c.value
  | .function f => marker f.isPublic ++ .typeName f.result :: .ident f.name :: .lparen ::
      (paramKinds f.params ++ .rparen :: .kwBegin :: (Stmt.sequence f.body.body ++ [.kwEnd]))

/-- Whether a declaration can start with this token. -/
def opensDeclaration : Kind → Bool
  | .kwPublic | .kwConst | .typeName _ => true
  | _ => false

/-- Whether a rendering shows which `if` every `else` belongs to. -/
def Read.Declaration.settled : Declaration → Bool
  | .constant _ => true
  | .function f => Stmt.allSettled f.body.body

theorem constant_of_rendering {c : Constant} (hkinds : ts.map (·.kind) =
      .typeName c.type :: .ident c.name :: .equals :: initialKinds c.value) :
    ∃ c', c'.unplaced = c.unplaced ∧ (constant c.isPublic first (ts ++ rest)).Gives c' rest := by
  obtain ⟨t₁, ts₁, rfl, h₁, hts₁⟩ := List.map_eq_cons_iff.mp hkinds
  obtain ⟨t₂, ts₂, rfl, h₂, hts₂⟩ := List.map_eq_cons_iff.mp hts₁
  obtain ⟨t₃, ts₃, rfl, h₃, hts₃⟩ := List.map_eq_cons_iff.mp hts₂
  obtain ⟨last, hv⟩ := constantValue_of_initial (initial_initialKinds c.value) hts₃
  refine ⟨{ c with span := first.join last }, rfl, ?_⟩
  simp only [constant, List.cons_append, gives_andThen, gives_map]
  exact ⟨c.type, _, gives_typeName h₁ _, _, _, gives_simpleName h₂ .constantName _, _, _,
    gives_token h₃ .constantEquals _, (c.value, last), hv, rfl⟩

theorem function_of_rendering {f : Function} (hsettled : Stmt.allSettled f.body.body = true)
    (hkinds : ts.map (·.kind) = .typeName f.result :: .ident f.name :: .lparen ::
      (paramKinds f.params ++ .rparen :: .kwBegin :: (Stmt.sequence f.body.body ++ [.kwEnd]))) :
    ∃ f', f'.unplaced = f.unplaced ∧ (function f.isPublic first (ts ++ rest)).Gives f' rest := by
  obtain ⟨t₁, ts₁, rfl, h₁, hts₁⟩ := List.map_eq_cons_iff.mp hkinds
  obtain ⟨t₂, ts₂, rfl, h₂, hts₂⟩ := List.map_eq_cons_iff.mp hts₁
  obtain ⟨t₃, ts₃, rfl, h₃, hts₃⟩ := List.map_eq_cons_iff.mp hts₂
  rw [List.append_cons] at hts₃
  obtain ⟨ts₄, ts₅, rfl, hts₄, hts₅⟩ := List.map_eq_append_iff.mp hts₃
  obtain ⟨ps, hps, hparams⟩ := params_complete (ts₅ ++ rest) hts₄
  obtain ⟨body, hbody, hblock⟩ := block_complete rest hsettled hts₅
  refine ⟨{ f with params := ps, body, span := first.join body.span }, ?_, ?_⟩
  · simp only [Function.unplaced, hps, hbody]
  · rw [List.cons_append, List.cons_append, List.cons_append, List.append_assoc]
    simp only [function, gives_andThen, gives_map]
    exact ⟨f.result, _, gives_typeName h₁ _, _, _, gives_simpleName h₂ .functionName _, _, _,
      gives_token h₃ .parametersOpen _, ps, _, hparams, body, hblock, rfl⟩

/-- A rendering behind its possible mark, which starts with neither a mark nor a semicolon, is read
back. -/
theorem unmarked_of_rendering (hsettled : d.settled = true) :
    ∃ isPublic k ks, d.rendering = marker isPublic ++ k :: ks ∧ k ≠ .kwPublic ∧
      opensDeclaration k = true ∧
      ∀ (first : Span) (ts rest : List Token), ts.map (·.kind) = k :: ks →
        ∃ d', d'.unplaced = d.unplaced ∧
          (unmarkedDeclaration isPublic first (ts ++ rest)).Gives d' rest := by
  cases d with
  | constant c =>
    refine ⟨c.isPublic, _, _, rfl, by simp, rfl, fun first ts rest hts => ?_⟩
    obtain ⟨t, ts', rfl, hk, hts'⟩ := List.map_eq_cons_iff.mp hts
    obtain ⟨c', hsame, hread⟩ := constant_of_rendering hts'
    refine ⟨.constant c', congrArg Declaration.constant hsame, ?_⟩
    simp only [List.cons_append, unmarkedDeclaration, if_pos hk, gives_behind, gives_map]
    exact ⟨c', hread, rfl⟩
  | function f =>
    refine ⟨f.isPublic, _, _, rfl, by simp, rfl, fun first ts rest hts => ?_⟩
    obtain ⟨f', hsame, hread⟩ := function_of_rendering hsettled hts
    refine ⟨.function f', congrArg Declaration.function hsame, ?_⟩
    obtain ⟨t, ts', rfl, hk, -⟩ := List.map_eq_cons_iff.mp hts
    have hconst : t.kind ≠ .kwConst := by simp [hk]
    simp only [List.cons_append, unmarkedDeclaration, if_neg hconst, gives_map]
    exact ⟨f', hread, rfl⟩

theorem declaration_of_rendering (hsettled : d.settled = true) (rest : List Token)
    (hkinds : ts.map (·.kind) = d.rendering) :
    ∃ t ts', ts = t :: ts' ∧ opensDeclaration t.kind = true ∧
      ∃ d', d'.unplaced = d.unplaced ∧ (declaration t (ts' ++ rest)).Gives d' rest := by
  obtain ⟨isPublic, k, ks, hrendering, hk, hopens, hread⟩ := unmarked_of_rendering hsettled
  rw [hrendering] at hkinds
  cases isPublic with
  | true =>
    obtain ⟨t, ts', rfl, hpublic, hts'⟩ := List.map_eq_cons_iff.mp hkinds
    obtain ⟨d', hsame, hgives⟩ := hread t.span ts' rest hts'
    refine ⟨t, ts', rfl, by rw [hpublic]; rfl, d', hsame, ?_⟩
    rw [declaration, if_pos hpublic, gives_behind]
    exact hgives
  | false =>
    obtain ⟨t, ts', rfl, rfl, hts'⟩ := List.map_eq_cons_iff.mp hkinds
    obtain ⟨d', hsame, hgives⟩ := hread t.span (t :: ts') rest hkinds
    refine ⟨t, ts', rfl, hopens, d', hsame, ?_⟩
    rw [declaration, if_neg hk]
    exact hgives

end Declarations

end Codewright.Surface
