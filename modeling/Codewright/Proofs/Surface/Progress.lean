import Codewright.Proofs.Surface.Grammar
import Codewright.Proofs.Surface.Regions

/-!
# What readers take

Whether a reader succeeds or fails, what it leaves stands at the end of the tokens that it was given
(`Reading.Within`): it takes tokens from the front, one after the other, and gives none of them
back. If it succeeds, the tokens that it takes spell what it gives, and they have its regions
(`Laid`). Both are one property of the reader (`Reading.Takes`). There is one lemma for every way to
put readers together; the readers of the language follow by the recursion that defines them.
-/

namespace Codewright.Surface

open Source (Span)

/-! ## Readings in general -/

namespace Reading

variable {α β : Type} {m n : Nat} {ts rest : List Token} {P Q : α → List Token → Prop}

/-- The reader fails at the tokens `rest`, where it expected something else. -/
def Fails (r : Reading α n) (expected : Expectation) (rest : List Token) : Prop :=
  ∃ within, r = .failed expected rest within

/-- What the reader leaves stands at the end of `ts`. -/
def Within (r : Reading α n) (ts : List Token) : Prop := r.rest <:+ ts

theorem within_map {r : Reading α n} {f : α → β} : (r.map f).Within ts ↔ r.Within ts := by
  cases r <;> rfl

theorem Within.behind {r : Reading α ts.length} (h : r.Within ts) (t : Token) :
    (r.behind t).Within (t :: ts) := by
  cases r <;> exact List.IsSuffix.trans h (List.suffix_cons t ts)

/-- What the reader gives is taken from `ts` so that `P` holds of it and of what is left; where it
fails, what is left stands at the end of `ts`. -/
def Takes (r : Reading α n) (ts : List Token) (P : α → List Token → Prop) : Prop :=
  match r with
  | .ok v rest _ => P v rest
  | .failed _ rest _ => rest <:+ ts

theorem Takes.within {r : Reading α n} (h : r.Takes ts P) (hP : ∀ v rest, P v rest → rest <:+ ts) :
    r.Within ts := by
  cases r with
  | ok v rest hr => exact hP v rest h
  | failed e rest hr => exact h

theorem Takes.of_gives {r : Reading α n} {v : α} (h : r.Takes ts P) (hgives : r.Gives v rest) :
    P v rest := by
  obtain ⟨hlt, rfl⟩ := hgives
  exact h

theorem takes_stuck (e : Expectation) (ts : List Token) :
    (Reading.stuck e ts : Reading α ts.length).Takes ts P :=
  List.suffix_rfl

theorem takes_widen {r : Reading α m} {h : m ≤ n} : (r.widen h).Takes ts P ↔ r.Takes ts P := by
  cases r <;> rfl

theorem takes_behind {t : Token} {r : Reading α rest.length} :
    (r.behind t).Takes ts P ↔ r.Takes ts P :=
  takes_widen

theorem takes_map {r : Reading α n} {f : α → β} {P : β → List Token → Prop} :
    (r.map f).Takes ts P ↔ r.Takes ts fun v => P (f v) := by
  cases r <;> rfl

theorem Takes.imp {r : Reading α n} (h : r.Takes rest P) (hts : rest <:+ ts)
    (himp : ∀ v rest', P v rest' → Q v rest') : r.Takes ts Q := by
  cases r with
  | ok v rest' hr => exact himp v rest' h
  | failed e rest' hr => exact List.IsSuffix.trans h hts

theorem Takes.andThen {r : Reading α n} {Q : β → List Token → Prop}
    {next : (value : α) → (rest : List Token) → rest.length < n → Reading β rest.length}
    (h : r.Takes ts P) (hnext : ∀ v rest hlt, P v rest → (next v rest hlt).Takes ts Q) :
    (r.andThen next).Takes ts Q := by
  cases r with
  | failed e rest hr => exact h
  | ok v rest hr =>
    unfold Reading.andThen
    exact takes_widen.mpr (hnext v rest hr h)

end Reading

theorem Read.after?_eq_some {k : Kind} {ts rest : List Token} {hlt : rest.length < ts.length}
    (h : Read.after? k ts = some ⟨rest, hlt⟩) : ∃ t, ts = t :: rest ∧ t.kind = k := by
  rcases Read.after?_cases k ts with ⟨-, hnone⟩ | ⟨t, rest', rfl, hk, hlt', hsome⟩
  · rw [hnone] at h
    cases h
  · rw [hsome] at h
    obtain rfl := congrArg Subtype.val (Option.some.inj h)
    exact ⟨t, rfl, hk⟩

theorem Reading.Takes.orAfter {α β : Type} {n : Nat} {ts : List Token} {r : Reading α n} {k : Kind}
    {P : α → List Token → Prop} {Q : β → List Token → Prop}
    {plain : (value : α) → (rest : List Token) → rest.length < n → Reading β n}
    {next : (value : α) → (rest : List Token) → rest.length < n → Reading β rest.length}
    (h : r.Takes ts P)
    (hplain : ∀ v rest hlt, P v rest → front rest ≠ some k → (plain v rest hlt).Takes ts Q)
    (hnext : ∀ v t rest hlt, P v (t :: rest) → t.kind = k → (next v rest hlt).Takes ts Q) :
    (r.orAfter k plain next).Takes ts Q := by
  cases r with
  | failed e rest hr => exact h
  | ok v rest hr =>
    unfold Reading.orAfter
    dsimp only
    split
    · next hnone =>
      refine hplain v rest hr h fun hfront => ?_
      obtain ⟨t, rest', rfl, hk⟩ := front_eq_some hfront
      rw [Read.after?_of_kind hk] at hnone
      cases hnone
    · next rest' hlt hafter =>
      obtain ⟨t, rfl, hk⟩ := Read.after?_eq_some hafter
      exact takes_widen.mpr (hnext v t rest' _ h hk)

/-! ## Names -/

namespace Read

open Reading

theorem takes_token (k : Kind) (e : Expectation) (ts : List Token) :
    (token k e ts).Takes ts fun span rest => Laid [k] [.node span []] ts rest := by
  cases ts with
  | nil => exact takes_stuck e []
  | cons t rest =>
    unfold token
    dsimp only
    split
    · next hk => exact laid_token hk
    · exact takes_stuck e (t :: rest)

theorem front_of_token {k : Kind} {e : Expectation} {span : Span} {ts rest : List Token}
    (h : (token k e ts).Gives span rest) : front ts = some k := by
  obtain ⟨_ | ⟨t, used⟩, rfl, hk, -⟩ := (takes_token k e ts).of_gives h
  · cases hk
  · exact congrArg some (List.cons.inj hk).1

/-- The name is spelled by the tokens, and its region is theirs. -/
def NameTaken (ts : List Token) (v : String × Span) (rest : List Token) : Prop :=
  ∃ part parts, v.1 = joinName part parts ∧ Laid (partKinds part parts) [.node v.2 []] ts rest

theorem takes_dotted {start : List Token} {name : String} {span : Span} {ts : List Token}
    (h : NameTaken start (name, span) ts) :
    (dotted name span ts).Takes start (NameTaken start) := by
  fun_induction dotted name span ts with
  | case1 name span dot p partSpan rest ih =>
    obtain ⟨part, parts, hname, hlaid⟩ := h
    refine takes_widen.mpr (ih ⟨part, parts ++ [p], ?_, ?_⟩)
    · simpa [joinName] using hname
    · have hrow := hlaid.append ((laid_mark rfl).append (laid_token rfl))
      simpa [partKinds, dotKinds] using hrow.node rfl rfl (List.nil_sublist _)
  | case2 name span dot rest =>
    obtain ⟨part, parts, -, hlaid⟩ := h
    exact (List.suffix_cons _ rest).trans hlaid.suffix
  | case3 => exact h

theorem takes_qualifiedName (e : Expectation) (ts : List Token) :
    (qualifiedName e ts).Takes ts (NameTaken ts) := by
  unfold qualifiedName
  split
  · next name span rest => exact takes_dotted ⟨name, [], rfl, laid_token rfl⟩
  · exact takes_stuck e _

end Read

/-! ## Expressions -/

/-- What is an expression of a tight level is one of the looser levels too. -/
theorem Phrase.Derives.loosen {l m : Nat} {e : Expr} {ks : List Kind} (hlm : l ≤ m)
    (h : Derives (.expr m e) ks) : Derives (.expr l e) ks := by
  cases h with
  | literal => exact .literal
  | name part parts => exact .name part parts
  | callNone part parts => exact .callNone part parts
  | call part parts h => exact .call part parts h
  | binary hm hleft hright => exact .binary (hlm.trans hm) hleft hright
  | unary hm h => exact .unary (hlm.trans hm) h
  | parens h => exact .parens h

/-- The tokens from `ts` down to `rest` spell an expression of the level, and have its regions. -/
def ExprTaken (l : Nat) (ts : List Token) (e : Expr) (rest : List Token) : Prop :=
  ∃ ks, Phrase.Derives (.expr l e) ks ∧ Laid ks [e.nest] ts rest

namespace Read

open Reading

mutual

theorem takes_climb (level : Nat) (ts : List Token) :
    (climb level ts).Takes ts (ExprTaken (min level levels) ts) := by
  unfold climb
  split
  · next hlevel =>
    have hleft := takes_climb (level + 1) ts
    rw [Nat.min_eq_left hlevel] at hleft
    rw [Nat.min_eq_left (Nat.le_of_lt hlevel)]
    split
    · next e rest hr h =>
      rw [h] at hleft
      exact hleft
    · next left rest hr h =>
      rw [h] at hleft
      obtain ⟨ks, hderives, hlaid⟩ := hleft
      exact takes_chain ts hlevel rest hr ⟨ks, hderives.loosen (Nat.le_succ level), hlaid⟩
  · next hlevel =>
    rw [Nat.min_eq_right (Nat.le_of_not_lt hlevel)]
    exact takes_unary ts
termination_by (ts.length, levels - level + 2)

theorem takes_chain (start : List Token) {level : Nat} (hlevel : level < levels) {left : Expr}
    (ts : List Token) (hts : ts.length < start.length) {whole : List Token}
    (hleft : ExprTaken level whole left ts) :
    (chain start level left ts hts).Takes whole (ExprTaken level whole) := by
  match ts with
  | [] =>
    unfold chain
    exact hleft
  | t :: rest =>
    rw [List.length_cons] at hts
    unfold chain
    dsimp only
    split
    · exact hleft
    · next op hop =>
      obtain ⟨hk, rfl⟩ := operatorAt?_eq_some.mp hop
      obtain ⟨ks, hderives, hlaid⟩ := hleft
      have hright := takes_climb (op.level + 1) rest
      rw [Nat.min_eq_left hlevel] at hright
      split
      · next e rest₁ h₁ h =>
        rw [h] at hright
        exact List.IsSuffix.trans hright ((List.suffix_cons t rest).trans hlaid.suffix)
      · next right rest₁ h₁ h =>
        rw [h] at hright
        obtain ⟨ks', hderives', hlaid'⟩ := hright
        refine takes_chain start hlevel rest₁ (by omega)
          ⟨_, .binary (Nat.le_refl _) hderives hderives', ?_⟩
        exact (hlaid.append ((laid_mark hk).append hlaid')).node left.span_nest right.span_nest
          (List.Sublist.refl _)
termination_by (ts.length, levels + 3)

theorem takes_unary (ts : List Token) : (unary ts).Takes ts (ExprTaken levels ts) := by
  match ts with
  | [] =>
    unfold unary
    exact takes_primary levels []
  | t :: rest =>
    unfold unary
    split
    · exact takes_primary levels (t :: rest)
    · next op hop =>
      refine takes_behind.mpr (takes_map.mpr ((takes_unary rest).imp (List.suffix_cons t rest) ?_))
      rintro operand rest' ⟨ks, hderives, hlaid⟩
      exact ⟨_, .unary (Nat.le_refl _) hderives,
        ((laid_token (unaryOp?_eq_some.mp hop)).append hlaid).node rfl operand.span_nest
          (List.sublist_cons_self _ _)⟩
termination_by (ts.length, 1)

theorem takes_primary (l : Nat) (ts : List Token) : (primary ts).Takes ts (ExprTaken l ts) := by
  match ts with
  | [] =>
    unfold primary
    exact takes_stuck .expression []
  | t :: rest =>
    unfold primary
    dsimp only
    split
    · next v hv => exact ⟨_, .literal, laid_token (literal?_eq_some.mp hv)⟩
    split
    · next hk =>
      refine takes_behind.mpr (((takes_climb 0 rest).imp (List.suffix_cons t rest) fun _ _ h =>
        h).andThen ?_)
      rintro e rest₁ - ⟨ks, hderives, hlaid⟩
      have hopen := (laid_mark hk).append hlaid
      refine takes_map.mpr ((takes_token .rparen .groupClose rest₁).imp hopen.suffix fun _ _
        hclose => ?_)
      exact ⟨_, .parens hderives, hopen.append (hclose.sublist (List.nil_sublist _))⟩
    · refine (takes_qualifiedName .expression (t :: rest)).orAfter (fun v rest₁ _ h _ => ?_)
        fun v paren rest₁ hlt h hk => ?_
      · obtain ⟨part, parts, hname, hlaid⟩ := h
        exact ⟨_, hname ▸ .name part parts, hlaid⟩
      · obtain ⟨part, parts, hname, hlaid⟩ := h
        refine takes_map.mpr
          ((takes_arguments rest₁).imp ((List.suffix_cons _ _).trans hlaid.suffix) ?_)
        rintro ⟨args, close⟩ rest₂ ⟨ks, hderives, hargs⟩
        refine ⟨_, hname ▸ hderives l _ part parts, ?_⟩
        refine (hlaid.append ((laid_mark hk).append hargs)).node rfl (by simp) ?_
        rw [Expr.nests_eq_map]
        exact (List.sublist_append_left _ _).trans (List.sublist_cons_self _ _)
termination_by (ts.length, 0)

/-- Behind a name and an opening parenthesis, arguments spell a call. -/
theorem takes_arguments (ts : List Token) : (arguments ts).Takes ts fun v rest =>
    ∃ ks, (∀ l s part parts, Phrase.Derives (.expr l (.call (joinName part parts) v.1 s))
      (partKinds part parts ++ .lparen :: ks)) ∧
        Laid ks (v.1.map Expr.nest ++ [.node v.2 []]) ts rest := by
  unfold arguments
  have hclose := takes_token .rparen .argumentsClose ts
  split
  · next close rest hr h =>
    rw [h] at hclose
    exact ⟨_, fun _ _ part parts => .callNone part parts, hclose⟩
  · refine (takes_argumentList ts [] ts (le_self ts)).andThen ?_
    rintro args rest₁ - ⟨es, rfl, ks, hderives, hlaid⟩
    refine takes_map.mpr ((takes_token .rparen .argumentsClose rest₁).imp hlaid.suffix fun _ _
      hclose => ?_)
    exact ⟨_, fun _ _ part parts => .call part parts hderives, hlaid.append hclose⟩
termination_by (ts.length, levels + 4)

theorem takes_argumentList (start : List Token) (done : List Expr) (ts : List Token)
    (hts : ts.length ≤ start.length) : (argumentList start done ts hts).Takes ts fun es rest =>
      ∃ es', es = done.reverse ++ es' ∧
        ∃ ks, Phrase.Derives (.args es') ks ∧ Laid ks (es'.map Expr.nest) ts rest := by
  unfold argumentList
  have harg := takes_climb 0 ts
  split
  · next e rest hr h =>
    rw [h] at harg
    exact harg
  · next arg rest hr h =>
    rw [h] at harg
    obtain ⟨ks, hderives, hlaid⟩ := harg
    split
    · exact ⟨[arg], List.reverse_cons, ks, .arg hderives, hlaid⟩
    · next rest₁ hlt hafter =>
      obtain ⟨comma, rfl, hk⟩ := after?_eq_some hafter
      refine (takes_argumentList start (arg :: done) rest₁ (le_of_lt_of_lt_of_le hlt hr hts)).imp
        ((List.suffix_cons _ _).trans hlaid.suffix) ?_
      rintro es rest₂ ⟨es', rfl, ks', hderives', hlaid'⟩
      exact ⟨arg :: es', by simp, _, .moreArgs hderives hderives',
        hlaid.append ((laid_mark hk).append hlaid')⟩
termination_by (ts.length, levels + 3)

end

theorem takes_expression (ts : List Token) : (expression ts).Takes ts (ExprTaken 0 ts) :=
  takes_climb 0 ts

end Read

end Codewright.Surface
