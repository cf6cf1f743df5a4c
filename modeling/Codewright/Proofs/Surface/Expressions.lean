import Codewright.Proofs.Surface.Progress

/-!
# Expressions are read exactly

What is read is spelled, as for all readers (`Read.takes_expression`). What is spelled is read
(`understood`): by induction on the derivation. A tree of a level is read by the reader of that
level up to the point where only operators of this very level can go on, so that a left operand and
the whole expression are one statement.
-/

namespace Codewright.Surface

open Source (Span)
open Phrase

/-! ## What each reader gives -/

namespace Read

open Reading

variable {start ts rest : List Token} {l : Nat} {e e' : Expr}

theorem operatorAt?_front {t : Token} :
    operatorAt? l t.kind = none ↔ ∀ op : BinaryOp, front (t :: ts) = some op.sign →
        op.level ≠ l := by
  rw [Option.eq_none_iff_forall_ne_some]
  constructor
  · intro h op hop hl
    exact h op (operatorAt?_eq_some.mpr ⟨Option.some.inj hop, hl.symm⟩)
  · intro h op hsome
    obtain ⟨hk, hl⟩ := operatorAt?_eq_some.mp hsome
    exact h op (congrArg some hk) hl.symm

/-- A chain stops where no operator of its level follows. -/
theorem chain_eq_ok {h : ts.length < start.length}
    (hop : ∀ op : BinaryOp, front ts = some op.sign → op.level ≠ l) :
    chain start l e ts h = .ok e ts h := by
  cases ts with
  | nil => rw [chain]
  | cons t ts =>
    rw [chain]
    simp only [operatorAt?_front.mpr hop]

/-- A chain goes on with an operator of its level and a right operand of the tighter levels. -/
theorem chain_eq_chain {t : Token} {op : BinaryOp} {right : Expr} {rest : List Token}
    {h : (t :: ts).length < start.length} (hk : t.kind = op.sign) (hl : op.level = l)
    (hright : (climb (l + 1) ts).Gives right rest) :
    ∃ h', chain start l e (t :: ts) h = chain start l (joined op e right) rest h' := by
  obtain ⟨hshort, hright⟩ := hright
  refine ⟨Nat.lt_trans hshort (Nat.lt_trans (Nat.lt_succ_self _) h), ?_⟩
  rw [chain]
  simp only [operatorAt?_eq_some.mpr ⟨hk, hl.symm⟩, hright]

theorem climb_levels (ts : List Token) : climb levels ts = unary ts := by
  rw [climb, dif_neg (Nat.lt_irrefl _)]

theorem unary_operand {t : Token} {op : UnaryOp} (hk : t.kind = op.sign)
    (h : (unary ts).Gives e rest) :
    (unary (t :: ts)).Gives (.unary op e (t.span.join e.span)) rest := by
  rw [unary]
  simp only [unaryOp?_eq_some.mpr hk, gives_behind, gives_map]
  exact ⟨e, h, rfl⟩

theorem unary_primary {t : Token} (hk : unaryOp? t.kind = none)
    (h : (primary (t :: ts)).Gives e rest) : (unary (t :: ts)).Gives e rest := by
  rw [unary]
  simpa only [hk] using h

theorem primary_literal {t : Token} {v : Value} (h : t.kind = v.literalKind) :
    (primary (t :: rest)).Gives (.literal v t.span) rest := by
  rw [primary]
  simp only [literal?_eq_some.mpr h, gives_single, and_self]

theorem primary_group {t close : Token} (hk : t.kind = .lparen)
    (h : (climb 0 ts).Gives e (close :: rest))
    (hclose : close.kind = .rparen) : (primary (t :: ts)).Gives e rest := by
  have hliteral : literal? t.kind = none := by rw [hk]; rfl
  rw [primary]
  simp only [hliteral, if_pos hk, gives_behind, gives_andThen, gives_map]
  exact ⟨e, close :: rest, h, close.span, gives_token hclose .groupClose rest, rfl⟩

section Names

variable {t : Token} {n part : String} {span : Span} (hk : t.kind = .ident part)

include hk

/-- A name is a reference, or with an opening parenthesis after it a call. -/
theorem primary_name (hname : (qualifiedName .expression (t :: ts)).Gives (n, span) rest)
    (hfront : front rest ≠ some .lparen) : (primary (t :: ts)).Gives (.name n span) rest := by
  obtain ⟨hlt, hname⟩ := hname
  have hliteral : literal? t.kind = none := by rw [hk]; rfl
  have hparen : t.kind ≠ .lparen := by simp [hk]
  rw [primary]
  simp only [hliteral, if_neg hparen]
  exact gives_orAfter_plain hname hfront (gives_ok.mpr ⟨rfl, rfl⟩)

theorem primary_call {paren : Token} {args : List Expr} {close : Span} {rest₁ : List Token}
    (hname : (qualifiedName .expression (t :: ts)).Gives (n, span) (paren :: rest₁))
    (hopen : paren.kind = .lparen) (hargs : (arguments rest₁).Gives (args, close) rest) :
    (primary (t :: ts)).Gives (.call n args (span.join close)) rest := by
  have hliteral : literal? t.kind = none := by rw [hk]; rfl
  have hparen : t.kind ≠ .lparen := by simp [hk]
  rw [primary]
  simp only [hliteral, if_neg hparen]
  exact gives_orAfter_next hname hopen (gives_map.mpr ⟨(args, close), hargs, rfl⟩)

end Names

theorem arguments_none {t : Token} (hk : t.kind = .rparen) :
    (arguments (t :: rest)).Gives ([], t.span) rest := by
  obtain ⟨hlt, htoken⟩ := gives_token hk .argumentsClose rest
  rw [arguments]
  simp only [htoken, gives_ok, and_self]

theorem arguments_some {t : Token} {es : List Expr} (hfront : front ts ≠ some .rparen)
    (h : (argumentList ts [] ts (le_self ts)).Gives es (t :: rest)) (hk : t.kind = .rparen) :
    (arguments ts).Gives (es, t.span) rest := by
  rw [arguments]
  split
  · next close => exact absurd (front_of_token ⟨_, close⟩) hfront
  · simp only [gives_andThen, gives_map]
    exact ⟨es, t :: rest, h, t.span, gives_token hk .argumentsClose rest, rfl⟩

section Lists

variable {arg : Expr} {done es : List Expr} {hts : ts.length ≤ start.length}

theorem argumentList_last (h : (climb 0 ts).Gives arg rest) (hfront : front rest ≠ some .comma) :
    (argumentList start done ts hts).Gives (arg :: done).reverse rest := by
  obtain ⟨hlt, h⟩ := h
  rw [argumentList]
  simp only [h, after?_eq_none hfront, gives_ok, and_self]

theorem argumentList_more {comma : Token} {rest₁ : List Token} {hts₁ : rest₁.length ≤ start.length}
    (h : (climb 0 ts).Gives arg (comma :: rest₁)) (hk : comma.kind = .comma)
    (hmore : (argumentList start (arg :: done) rest₁ hts₁).Gives es rest) :
    (argumentList start done ts hts).Gives es rest := by
  obtain ⟨hlt, h⟩ := h
  rw [argumentList]
  simpa only [h, after?_of_kind hk] using hmore

end Lists

end Read

/-! ## What is spelled is read -/

/-- No operator comes first but one looser than `level`. -/
def OnlyLooser (level : Nat) (rest : List Token) : Prop :=
  ∀ op : BinaryOp, front rest = some op.sign → op.level < level

variable {l m : Nat} {rest ts : List Token} {k : Kind} {e : Expr}

theorem OnlyLooser.mono (h : OnlyLooser l rest) (hlm : l ≤ m) : OnlyLooser m rest :=
  fun op hop => lt_of_lt_of_le (h op hop) hlm

/-- An expression of operators of `level` and tighter ones ends before these tokens, whatever its
last token is: neither a dot nor an opening parenthesis comes first, which would go on with a
name. -/
def Ends (level : Nat) (rest : List Token) : Prop :=
  front rest ≠ some .dot ∧ front rest ≠ some .lparen ∧ OnlyLooser level rest

theorem Ends.mono (h : Ends l rest) (hlm : l ≤ m) : Ends m rest :=
  ⟨h.1, h.2.1, h.2.2.mono hlm⟩

theorem ends_of_front (l : Nat) (h : front rest = some k)
    (hdot : k ≠ .dot) (hparen : k ≠ .lparen) (hop : ∀ op : BinaryOp, k ≠ op.sign) :
    Ends l rest := by
  refine ⟨?_, ?_, fun op hfront => ?_⟩
  · rw [h]
    exact fun heq => hdot (Option.some.inj heq)
  · rw [h]
    exact fun heq => hparen (Option.some.inj heq)
  · rw [h] at hfront
    exact absurd (Option.some.inj hfront) (hop op)

namespace Read

open Reading

variable {start ts rest : List Token} {l m : Nat} {e : Expr}

theorem chain_of_looser {h : rest.length < start.length} (hlooser : OnlyLooser l rest) :
    chain start l e rest h = .ok e rest h :=
  chain_eq_ok fun op hop => Nat.ne_of_lt (hlooser op hop)

/-- What a tighter level has read, a looser level goes on with. -/
theorem climb_of_tighter {h : rest.length < ts.length} (hlm : l ≤ m) (hm : m ≤ levels)
    (hlooser : OnlyLooser (l + 1) rest) (htight : climb m ts = chain ts m e rest h) :
    climb l ts = chain ts l e rest h := by
  induction m, hlm using Nat.le_induction with
  | base => exact htight
  | succ m hlm ih =>
    refine ih (Nat.le_of_succ_le hm) ?_
    have hlooser' : OnlyLooser (m + 1) rest := hlooser.mono (Nat.succ_le_succ hlm)
    rw [climb, dif_pos (Nat.lt_of_succ_le hm), htight, chain_of_looser hlooser']

/-- Above the tightest operators stands what a unary reader gives. -/
theorem climb_of_unary (hl : l ≤ levels) (hlooser : OnlyLooser (l + 1) rest)
    (h : (unary ts).Gives e rest) : ∃ h, climb l ts = chain ts l e rest h := by
  obtain ⟨hshort, heq⟩ := h
  refine ⟨hshort, climb_of_tighter hl (Nat.le_refl _) hlooser ?_⟩
  rw [climb_levels, heq, chain_eq_ok fun op _ => Nat.ne_of_lt op.level_lt]

end Read

/-- Tokens that spell a phrase are read as the phrase, whatever their places are. An expression of a
level is left at a point where only operators of this level can go on; arguments are left at their
closing parenthesis. -/
def Phrase.Understood : Phrase → List Kind → Prop
  | .expr l e, ks => l ≤ levels → ∀ ts rest : List Token, ts.map (·.kind) = ks → Ends (l + 1) rest →
    ∃ e' h, e'.unplaced = e.unplaced ∧
      Read.climb l (ts ++ rest) = Read.chain (ts ++ rest) l e' rest h
  | .args es, ks => ∀ (start : List Token) (done : List Expr) (ts rest : List Token) hts,
    ts.map (·.kind) = ks → front rest = some .rparen →
    ∃ es', Expr.unplacedAll es' = Expr.unplacedAll es ∧
      (Read.argumentList start done (ts ++ rest) hts).Gives (done.reverse ++ es') rest

theorem BinaryOp.sign_injective {op op' : BinaryOp} (h : op.sign = op'.sign) : op = op' := by
  have hop : binaryOp? op.sign = some (op, op.level) := binaryOp?_eq_some.mpr ⟨rfl, rfl⟩
  rw [binaryOp?_eq_some.mpr ⟨h, rfl⟩] at hop
  exact (Prod.mk.inj (Option.some.inj hop)).1.symm

theorem ends_of_sign {op : BinaryOp} (h : front rest = some op.sign) :
    Ends (op.level + 1) rest := by
  refine ⟨?_, ?_, fun op' hop' => ?_⟩
  · rw [h]
    cases op <;> exact nofun
  · rw [h]
    cases op <;> exact nofun
  · rw [h] at hop'
    rw [BinaryOp.sign_injective (Option.some.inj hop')]
    exact Nat.lt_succ_self _

theorem ends_of_rparen (l : Nat) (h : front rest = some .rparen) : Ends l rest :=
  ends_of_front l h nofun nofun fun op => by cases op <;> exact nofun

theorem ends_of_comma (l : Nat) (h : front rest = some .comma) : Ends l rest :=
  ends_of_front l h nofun nofun fun op => by cases op <;> exact nofun

namespace Phrase.Understood

open Read Reading

variable {l : Nat} {e left right : Expr} {es : List Expr} {s : Span} {ks ks' : List Kind}

theorem gives {ts rest : List Token} (h : Understood (.expr l e) ks) (hl : l ≤ levels)
    (hts : ts.map (·.kind) = ks) (hends : Ends l rest) :
    ∃ e', e'.unplaced = e.unplaced ∧ (climb l (ts ++ rest)).Gives e' rest := by
  obtain ⟨e', hshort, heq, hclimb⟩ := h hl ts rest hts (hends.mono (Nat.le_succ l))
  exact ⟨e', heq, hshort, hclimb.trans (chain_of_looser hends.2.2)⟩

theorem literal {v : Value} : Understood (.expr l (.literal v s)) [v.literalKind] := by
  intro hl ts rest hts hends
  obtain ⟨t, rfl, hk⟩ := List.map_eq_singleton_iff.mp hts
  have hunary : unaryOp? v.literalKind = none := by
    cases v with
    | int n => rfl
    | real x => rfl
    | bool b => cases b <;> rfl
  have hgives : (unary (t :: rest)).Gives (.literal v t.span) rest :=
    unary_primary (hk ▸ hunary) (primary_literal hk)
  obtain ⟨hshort, hclimb⟩ := climb_of_unary hl hends.2.2 hgives
  exact ⟨.literal v t.span, hshort, rfl, hclimb⟩

theorem of_name {e' : Expr} {part : String} {parts : List String} {used rest₁ rest : List Token}
    (hl : l ≤ levels) (hends : Ends (l + 1) rest) (hused : used.map (·.kind) = partKinds part parts)
    (h : ∀ t used', t.kind = .ident part → used = t :: used' →
      (primary (t :: (used' ++ rest₁))).Gives e' rest) :
    ∃ h, climb l (used ++ rest₁) = chain (used ++ rest₁) l e' rest h := by
  obtain ⟨t, used', rfl, hk, -⟩ := List.map_eq_cons_iff.mp hused
  exact climb_of_unary hl hends.2.2 (unary_primary (hk ▸ rfl) (h t used' hk rfl))

theorem name (part : String) (parts : List String) :
    Understood (.expr l (.name (joinName part parts) s)) (partKinds part parts) := by
  intro hl ts rest hts hends
  obtain ⟨span, hname⟩ := qualifiedName_complete .expression hts hends.1
  obtain ⟨hshort, hclimb⟩ := of_name hl hends hts fun t used' hk hused =>
    primary_name hk (hused ▸ hname) hends.2.1
  exact ⟨.name (joinName part parts) span, hshort, rfl, hclimb⟩

theorem callNone (part : String) (parts : List String) :
    Understood (.expr l (.call (joinName part parts) [] s))
        (partKinds part parts ++ [.lparen, .rparen]) := by
  intro hl ts rest hts hends
  obtain ⟨used, ts₁, rfl, hused, hts₁⟩ := List.map_eq_append_iff.mp hts
  obtain ⟨paren, ts₂, rfl, hparen, hts₂⟩ := List.map_eq_cons_iff.mp hts₁
  obtain ⟨close, rfl, hclose⟩ := List.map_eq_singleton_iff.mp hts₂
  rw [List.append_assoc]
  have hdot : front (paren :: close :: rest) ≠ some .dot := by simp [hparen]
  obtain ⟨span, hname⟩ := qualifiedName_complete .expression hused hdot
  obtain ⟨hshort, hclimb⟩ := of_name hl hends hused fun t used' hk hused =>
    primary_call hk (hused ▸ hname) hparen (arguments_none hclose)
  exact ⟨.call (joinName part parts) [] (span.join close.span), hshort, rfl, hclimb⟩

theorem call (part : String) (parts : List String) (h : Derives (.args es) ks)
    (ih : Understood (.args es) ks) :
    Understood (.expr l (.call (joinName part parts) es s))
      (partKinds part parts ++ .lparen :: (ks ++ [.rparen])) := by
  intro hl ts rest hts hends
  obtain ⟨used, ts₁, rfl, hused, hts₁⟩ := List.map_eq_append_iff.mp hts
  obtain ⟨paren, tsArgs, close, rfl, hparen, hargs, hclose⟩ := exists_of_bracketed hts₁
  have hdot : front (paren :: (tsArgs ++ close :: rest)) ≠ some .dot := by simp [hparen]
  obtain ⟨span, hname⟩ := qualifiedName_complete .expression hused hdot
  obtain ⟨args, hsame, hgives⟩ := ih (tsArgs ++ close :: rest) [] tsArgs (close :: rest)
    (le_self _) hargs (congrArg some hclose)
  have hfront : front (tsArgs ++ close :: rest) ≠ some .rparen := by
    -- Arguments start like an expression, and no expression starts with a closing parenthesis.
    obtain ⟨k, tail, rfl, hk⟩ := h.starts
    obtain ⟨t, tsTail, rfl, rfl, -⟩ := List.map_eq_cons_iff.mp hargs
    intro hfront
    rw [List.cons_append, front_cons] at hfront
    rw [Option.some.inj hfront] at hk
    cases hk
  rw [List.append_assoc, bracketed_append]
  obtain ⟨hshort, hclimb⟩ := of_name hl hends hused fun t used' hk hused =>
    primary_call hk (hused ▸ hname) hparen (arguments_some hfront hgives hclose)
  exact ⟨.call (joinName part parts) args _, hshort, by simp only [Expr.unplaced, hsame], hclimb⟩

theorem binary {op : BinaryOp} (hl : l ≤ op.level) (ihleft : Understood (.expr op.level left) ks)
    (ihright : Understood (.expr (op.level + 1) right) ks') :
    Understood (.expr l (.binary op left right s)) (ks ++ op.sign :: ks') := by
  intro _ ts rest hts hends
  obtain ⟨ts₁, ts', rfl, hts₁, hts'⟩ := List.map_eq_append_iff.mp hts
  obtain ⟨t, ts₂, rfl, hk, hts₂⟩ := List.map_eq_cons_iff.mp hts'
  have hlevel : op.level ≤ levels := Nat.le_of_lt op.level_lt
  rw [List.append_assoc, List.cons_append]
  -- The left operand is left before the operator, where the chain of this level goes on.
  obtain ⟨left', hshort, hleft, hclimb⟩ := ihleft hlevel ts₁ (t :: (ts₂ ++ rest)) hts₁
    (ends_of_sign (congrArg some hk))
  obtain ⟨right', hright, hgives⟩ :=
    ihright.gives op.level_lt hts₂ (hends.mono (Nat.succ_le_succ hl))
  obtain ⟨hshort', hchain⟩ := chain_eq_chain (e := left') (h := hshort) hk rfl hgives
  refine ⟨joined op left' right', hshort', ?_, ?_⟩
  · simp only [joined, Expr.unplaced, hleft, hright]
  · exact climb_of_tighter hl hlevel hends.2.2 (hclimb.trans hchain)

theorem unary {op : UnaryOp} (ih : Understood (.expr levels e) ks) :
    Understood (.expr l (.unary op e s)) (op.sign :: ks) := by
  intro hl ts rest hts hends
  obtain ⟨t, ts', rfl, hk, hts'⟩ := List.map_eq_cons_iff.mp hts
  have hends' : Ends levels rest :=
    ⟨hends.1, hends.2.1, fun op _ => op.level_lt⟩
  obtain ⟨operand, hoperand, hgives⟩ := ih.gives (Nat.le_refl _) hts' hends'
  rw [climb_levels] at hgives
  obtain ⟨hshort, hclimb⟩ := climb_of_unary hl hends.2.2 (unary_operand hk hgives)
  exact ⟨_, hshort, by simp only [Expr.unplaced, hoperand], hclimb⟩

theorem unary_group {ts : List Token} (ih : Understood (.expr 0 e) ks)
    (hts : ts.map (·.kind) = .lparen :: (ks ++ [.rparen])) (rest : List Token) :
    ∃ e', e'.unplaced = e.unplaced ∧ (Read.unary (ts ++ rest)).Gives e' rest := by
  obtain ⟨t, inner, close, rfl, hk, hinner, hclose⟩ := exists_of_bracketed hts
  have hends : Ends 0 (close :: rest) := ends_of_rparen 0 (congrArg some hclose)
  obtain ⟨e', hsame, hgives⟩ := ih.gives (Nat.zero_le _) hinner hends
  rw [bracketed_append]
  exact ⟨e', hsame, unary_primary (hk ▸ rfl) (primary_group hk hgives hclose)⟩

theorem parens (ih : Understood (.expr 0 e) ks) :
    Understood (.expr l e) (.lparen :: (ks ++ [.rparen])) := by
  intro hl ts rest hts hends
  obtain ⟨e', hsame, hunary⟩ := ih.unary_group hts rest
  obtain ⟨hshort, hclimb⟩ := climb_of_unary hl hends.2.2 hunary
  exact ⟨e', hshort, hsame, hclimb⟩

theorem arg (ih : Understood (.expr 0 e) ks) : Understood (.args [e]) ks := by
  intro start done ts rest hlen hts hfront
  obtain ⟨e', hsame, hgives⟩ := ih.gives (Nat.zero_le _) hts (ends_of_rparen 0 hfront)
  refine ⟨[e'], by simp only [Expr.unplacedAll, hsame], ?_⟩
  rw [← List.reverse_cons]
  exact argumentList_last hgives (by simp [hfront])

theorem moreArgs (ih : Understood (.expr 0 e) ks) (ihmore : Understood (.args es) ks') :
    Understood (.args (e :: es)) (ks ++ .comma :: ks') := by
  intro start done ts rest hlen hts hfront
  obtain ⟨ts₁, ts', rfl, hts₁, hts'⟩ := List.map_eq_append_iff.mp hts
  obtain ⟨comma, ts₂, rfl, hcomma, hts₂⟩ := List.map_eq_cons_iff.mp hts'
  have hends : Ends 0 (comma :: (ts₂ ++ rest)) := ends_of_comma 0 (congrArg some hcomma)
  obtain ⟨e', hsame, hgives⟩ := ih.gives (Nat.zero_le _) hts₁ hends
  have happend : ts₁ ++ comma :: ts₂ ++ rest = ts₁ ++ comma :: (ts₂ ++ rest) := by simp
  have hlen' : (ts₂ ++ rest).length ≤ start.length := by
    simp only [List.length_append, List.length_cons] at hlen ⊢
    omega
  obtain ⟨es', hsames, hmore⟩ := ihmore start (e' :: done) ts₂ rest hlen' hts₂ hfront
  refine ⟨e' :: es', by simp only [Expr.unplacedAll, hsame, hsames], ?_⟩
  rw [List.reverse_cons, List.append_assoc, List.singleton_append] at hmore
  exact argumentList_more (happend ▸ hgives) hcomma hmore

end Phrase.Understood

theorem understood {p : Phrase} {ks : List Kind} (h : p.Derives ks) : p.Understood ks := by
  induction h with
  | literal => exact .literal
  | name part parts => exact .name part parts
  | callNone part parts => exact .callNone part parts
  | call part parts h ih => exact .call part parts h ih
  | binary hl _ _ ihleft ihright => exact .binary hl ihleft ihright
  | unary _ _ ih => exact .unary ih
  | parens _ ih => exact .parens ih
  | arg _ ih => exact .arg ih
  | moreArgs _ _ ih ihmore => exact .moreArgs ih ihmore

/-! ## Expressions in their surroundings -/

/-- A rendering is read where nothing can go on with it. -/
theorem expression_of_rendering (hts : ts.map (·.kind) = e.rendering) (hends : Ends 0 rest) :
    ∃ e', e'.unplaced = e.unplaced ∧ (Read.expression (ts ++ rest)).Gives e' rest :=
  (understood (derives_rendering e 0 (Nat.zero_le _))).gives (Nat.zero_le _) hts hends

/-- A rendering in parentheses is read where no operator can go on with it. -/
theorem expression_of_group
    (hts : ts.map (·.kind) = grouped true e.rendering) (hlooser : OnlyLooser 0 rest) :
    ∃ e', e'.unplaced = e.unplaced ∧ (Read.expression (ts ++ rest)).Gives e' rest := by
  obtain ⟨e', hsame, hunary⟩ :=
    (understood (derives_rendering e 0 (Nat.zero_le _))).unary_group hts rest
  obtain ⟨hshort, hclimb⟩ :=
    Read.climb_of_unary (Nat.zero_le _) (hlooser.mono (Nat.zero_le 1)) hunary
  exact ⟨e', hsame, hshort, hclimb.trans (Read.chain_of_looser hlooser)⟩

/-! ## Reading expressions from a file -/

/-- The tokens ahead of a stream, behind some that do not end the file. -/
theorem ahead_append (h : Kind.eof ∉ ts.map (·.kind)) :
    (Stream.ofTokens (ts ++ rest)).ahead = ts ++ (Stream.ofTokens rest).ahead := by
  unfold Stream.ofTokens
  refine List.takeWhile_append_of_pos fun t ht => ?_
  rw [bne_iff_ne]
  intro hk
  exact h (hk ▸ List.mem_map_of_mem ht)

theorem ends_of_follow
    (h : ∀ k, front rest = some k → k ≠ .dot ∧ k ≠ .lparen ∧ binaryOp? k = none) : Ends 0 rest := by
  refine ⟨fun hdot => (h _ hdot).1 rfl, fun hparen => (h _ hparen).2.1 rfl, fun op hop => ?_⟩
  have hnone := (h _ hop).2.2
  rw [binaryOp?_eq_some.mpr ⟨rfl, rfl⟩] at hnone
  cases hnone

theorem front_ahead
    (h : front (Stream.ofTokens rest).ahead = some k) : front rest = some k := by
  cases rest with
  | nil => exact h
  | cons t rest =>
    unfold Stream.ofTokens at h
    rw [List.takeWhile_cons] at h
    split at h
    · exact h
    · cases h

theorem parseExpressions_one {tokens : List Token}
    (h : (Read.expression (Stream.ofTokens tokens).ahead).Gives e rest) :
    parseExpressions tokens 1 = ([some e], []) := by
  obtain ⟨hshort, hread⟩ := h
  unfold parseExpressions
  simp only [parseExpressions.go, hread]

/-- Expressions are read exactly. A spelling of a tree, with whatever parentheses, that is followed
by no binary operator, dot or opening parenthesis is read as this tree up to places, to its end and
without a report. Conversely, what a tree was read from is a spelling of the tree. Among its
spellings, the rendering is one with the fewest parentheses. -/
theorem expression_reading_exact (e : Expr) :
    (∀ ts rest : List Token, Derives (.expr 0 e) (ts.map (·.kind)) →
      (∀ k, front rest = some k → k ≠ .dot ∧ k ≠ .lparen ∧ binaryOp? k = none) →
      (∃ e', e'.unplaced = e.unplaced ∧ (Read.expression (ts ++ rest)).Gives e' rest) ∧
      ∃ e', e'.unplaced = e.unplaced ∧ parseExpressions (ts ++ rest) 1 = ([some e'], [])) ∧
    (∀ ts rest : List Token, (Read.expression ts).Gives e rest →
      ∃ used, ts = used ++ rest ∧ Derives (.expr 0 e) (used.map (·.kind))) ∧
    Derives (.expr 0 e) e.rendering ∧
    (∀ ks, Derives (.expr 0 e) ks → e.rendering.count .lparen ≤ ks.count .lparen) := by
  refine ⟨fun ts rest hderives hfollow => ⟨?_, ?_⟩, fun ts rest hgives => ?_,
    derives_rendering e 0 (Nat.zero_le _), fun ks hks => ?_⟩
  · exact (understood hderives).gives (Nat.zero_le _) rfl (ends_of_follow hfollow)
  · have hends : Ends 0 (Stream.ofTokens rest).ahead :=
      ends_of_follow fun k hk => hfollow k (front_ahead hk)
    obtain ⟨e', hsame, hread⟩ := (understood hderives).gives (Nat.zero_le _) rfl hends
    rw [← ahead_append hderives.eof_notMem] at hread
    exact ⟨e', hsame, parseExpressions_one hread⟩
  · obtain ⟨ks, hderives, used, hts, rfl, -⟩ := (Read.takes_expression ts).of_gives hgives
    exact ⟨used, hts, hderives⟩
  · have hcount := count_rendering_le hks fun l e' heq => by
      cases heq
      exact Nat.zero_le _
    rwa [Phrase.rendering, grouped_of_le (Nat.zero_le _)] at hcount

end Codewright.Surface
