import Codewright.Surface.Module
import Codewright.Proofs.Surface.Readings

/-!
# The grammar of expressions

Which tokens spell which tree, with any number of parentheses around any part (`Phrase.Derives`). An
operator's level says how tightly it binds; operators of one level group to the left. The rendering
of a tree (`Expr.rendering`) has parentheses only where the tree would else be another one: it is a
spelling (`derives_rendering`), and none has fewer (`count_rendering_le`).
-/

namespace Codewright

open Source (Span)

/-- The token of a literal. -/
def Value.literalKind : Value → Kind
  | .int n => .int n
  | .real x => .real x
  | .bool b => if b then .kwTrue else .kwFalse

namespace Surface

/-! ## Operators and their levels -/

/-- The token of a binary operator. -/
def BinaryOp.sign : BinaryOp → Kind
  | .add => .plus
  | .sub => .minus
  | .mul => .star
  | .div => .slash
  | .intDiv => .slashSlash
  | .mod => .percent
  | .eq => .eqEq
  | .ne => .notEq
  | .lt => .lt
  | .le => .ltEq
  | .gt => .gt
  | .ge => .gtEq
  | .and => .kwAnd
  | .or => .kwOr
  | .xor => .kwXor

/-- How tightly a binary operator binds: `or` and `xor`, then `and`, comparisons, sums, products. -/
def BinaryOp.level : BinaryOp → Nat
  | .or | .xor => 0
  | .and => 1
  | .eq | .ne | .lt | .le | .gt | .ge => 2
  | .add | .sub => 3
  | .mul | .div | .intDiv | .mod => 4

/-- The token of a unary operator. -/
def UnaryOp.sign : UnaryOp → Kind
  | .neg => .minus
  | .not => .kwNot

theorem BinaryOp.level_lt (op : BinaryOp) : op.level < levels := by cases op <;> decide

variable {k : Kind} {l : Nat} {e : Expr} {ks : List Kind}

theorem binaryOp?_eq_some {op : BinaryOp} :
    binaryOp? k = some (op, l) ↔ k = op.sign ∧ l = op.level := by
  constructor
  · intro h
    unfold binaryOp? at h
    split at h <;> cases h
    all_goals exact ⟨rfl, rfl⟩
  · rintro ⟨rfl, rfl⟩
    cases op <;> rfl

theorem operatorAt?_eq_some {op : BinaryOp} :
    operatorAt? l k = some op ↔ k = op.sign ∧ l = op.level := by
  unfold operatorAt?
  constructor
  · intro h
    split at h
    · next op' l' hop =>
      split at h
      · next hl =>
        obtain rfl := Option.some.inj h
        exact hl ▸ binaryOp?_eq_some.mp hop
      · cases h
    · cases h
  · rintro ⟨rfl, rfl⟩
    simp only [binaryOp?_eq_some.mpr ⟨rfl, rfl⟩, if_true]

theorem unaryOp?_eq_some {op : UnaryOp} : unaryOp? k = some op ↔ k = op.sign := by
  constructor
  · intro h
    unfold unaryOp? at h
    split at h <;> cases h
    all_goals rfl
  · rintro rfl
    cases op <;> rfl

theorem literal?_eq_some {v : Value} : literal? k = some v ↔ k = v.literalKind := by
  constructor
  · intro h
    cases k with
    | int | real | kwTrue | kwFalse => rw [← Option.some.inj h]; rfl
    | _ => exact absurd h nofun
  · rintro rfl
    cases v with
    | int n => rfl
    | real x => rfl
    | bool b => cases b <;> rfl

/-! ## Trees without places -/

mutual

/-- The expression with all places dropped. -/
def Expr.unplaced : Expr → Expr
  | .literal v _ => .literal v default
  | .name n _ => .name n default
  | .call f args _ => .call f (unplacedAll args) default
  | .binary op l r _ => .binary op l.unplaced r.unplaced default
  | .unary op e _ => .unary op e.unplaced default

def Expr.unplacedAll : List Expr → List Expr
  | [] => []
  | e :: es => e.unplaced :: unplacedAll es

end

/-- Induction over an expression and all arguments of its calls. -/
@[elab_as_elim]
theorem Expr.induction {P : Expr → Prop} (e : Expr) (literal : ∀ v s, P (.literal v s))
    (name : ∀ n s, P (.name n s)) (call : ∀ f args s, (∀ a ∈ args, P a) → P (.call f args s))
    (binary : ∀ op l r s, P l → P r → P (.binary op l r s))
    (unary : ∀ op e s, P e → P (.unary op e s)) : P e :=
  @Expr.rec P (fun args => ∀ a ∈ args, P a) literal name (fun f args s => call f args s)
    (fun op l r s => binary op l r s) (fun op e s => unary op e s)
    (fun _ h => absurd h List.not_mem_nil)
    (fun _ _ hhead htail => List.forall_mem_cons.mpr ⟨hhead, htail⟩) e

/-! ## Spellings -/

/-- What tokens of an expression can be: an expression of operators of a level and the tighter
levels, or the arguments of a call. -/
inductive Phrase where
  | expr (level : Nat) (e : Expr)
  | args (es : List Expr)

/-- The tokens that spell a phrase. Parentheses may stand around every expression. -/
inductive Phrase.Derives : Phrase → List Kind → Prop
  | literal {l : Nat} {v : Value} {s : Span} : Derives (.expr l (.literal v s)) [v.literalKind]
  | name {l : Nat} {s : Span} (part : String) (parts : List String) :
    Derives (.expr l (.name (joinName part parts) s)) (partKinds part parts)
  | callNone {l : Nat} {s : Span} (part : String) (parts : List String) :
    Derives (.expr l (.call (joinName part parts) [] s))
      (partKinds part parts ++ [.lparen, .rparen])
  | call {l : Nat} {es : List Expr} {s : Span} {ks : List Kind} (part : String)
    (parts : List String) (h : Derives (.args es) ks) :
    Derives (.expr l (.call (joinName part parts) es s))
      (partKinds part parts ++ .lparen :: (ks ++ [.rparen]))
  | binary {l : Nat} {op : BinaryOp} {left right : Expr} {s : Span} {ks ks' : List Kind}
    (hl : l ≤ op.level) (hleft : Derives (.expr op.level left) ks)
    (hright : Derives (.expr (op.level + 1) right) ks') :
    Derives (.expr l (.binary op left right s)) (ks ++ op.sign :: ks')
  | unary {l : Nat} {op : UnaryOp} {e : Expr} {s : Span} {ks : List Kind} (hl : l ≤ levels)
    (h : Derives (.expr levels e) ks) : Derives (.expr l (.unary op e s)) (op.sign :: ks)
  | parens {l : Nat} {e : Expr} {ks : List Kind} (h : Derives (.expr 0 e) ks) :
    Derives (.expr l e) (.lparen :: (ks ++ [.rparen]))
  | arg {e : Expr} {ks : List Kind} (h : Derives (.expr 0 e) ks) : Derives (.args [e]) ks
  | moreArgs {e : Expr} {es : List Expr} {ks ks' : List Kind} (h : Derives (.expr 0 e) ks)
    (hmore : Derives (.args es) ks') : Derives (.args (e :: es)) (ks ++ .comma :: ks')

/-- Every phrase starts with a token that can start an expression. -/
theorem Phrase.Derives.starts {p : Phrase} (h : p.Derives ks) :
    ∃ k tail, ks = k :: tail ∧ startsExpression k = true := by
  induction h with
  | @literal l v s =>
    refine ⟨_, [], rfl, ?_⟩
    cases v with
    | int n => rfl
    | real x => rfl
    | bool b => cases b <;> rfl
  | name part parts => exact ⟨_, _, rfl, rfl⟩
  | callNone part parts => exact ⟨_, _, rfl, rfl⟩
  | call part parts h ih => exact ⟨_, _, rfl, rfl⟩
  | binary hl hleft hright ihleft ihright =>
    obtain ⟨k, tail, rfl, hk⟩ := ihleft
    exact ⟨k, _, rfl, hk⟩
  | @unary l op e s ks hl h ih => exact ⟨_, _, rfl, by cases op <;> rfl⟩
  | parens h ih => exact ⟨_, _, rfl, rfl⟩
  | arg h ih => exact ih
  | moreArgs h hmore ih ihmore =>
    obtain ⟨k, tail, rfl, hk⟩ := ih
    exact ⟨k, _, rfl, hk⟩

theorem Phrase.Derives.eof_notMem {p : Phrase} (h : p.Derives ks) : .eof ∉ ks := by
  have hparts : ∀ part parts, Kind.eof ∉ partKinds part parts := by
    intro part parts
    simp [partKinds, dotKinds]
  induction h with
  | @literal l v s =>
    cases v with
    | int n => simp [Value.literalKind]
    | real x => simp [Value.literalKind]
    | bool b => cases b <;> simp [Value.literalKind]
  | name part parts => exact hparts part parts
  | callNone part parts => simp [hparts]
  | call part parts h ih => simp [hparts, ih]
  | @binary l op left right s ks ks' hl hleft hright ihleft ihright =>
    cases op <;> simp [ihleft, ihright, BinaryOp.sign]
  | @unary l op e s ks hl h ih => cases op <;> simp [ih, UnaryOp.sign]
  | parens h ih => simp [ih]
  | arg h ih => exact ih
  | moreArgs h hmore ih ihmore => simp [ih, ihmore]

/-! ## The rendering with the fewest parentheses -/

/-- Tokens in parentheses, where they are needed. -/
def grouped (needed : Bool) (ks : List Kind) : List Kind :=
  if needed then .lparen :: (ks ++ [.rparen]) else ks

/-- How tightly an expression holds together: its operator's level, or more than any level has. -/
def Expr.strength : Expr → Nat
  | .binary op _ _ _ => op.level
  | .unary _ _ _ => levels
  | _ => levels + 1

mutual

/-- The tokens of an expression, with parentheses only around operands that would else be read
apart: a left operand looser than its operator, a right one not tighter, and an operand of a unary
operator that is a binary expression. -/
def Expr.rendering : Expr → List Kind
  | .literal v _ => [v.literalKind]
  | .name n _ => nameKinds n
  | .call f [] _ => nameKinds f ++ [.lparen, .rparen]
  | .call f (e :: es) _ => nameKinds f ++ .lparen :: ((e.rendering ++ argTail es) ++ [.rparen])
  | .binary op l r _ =>
    grouped (l.strength < op.level) l.rendering ++
      op.sign :: grouped (r.strength ≤ op.level) r.rendering
  | .unary op e _ => op.sign :: grouped (e.strength < levels) e.rendering

def Expr.argTail : List Expr → List Kind
  | [] => []
  | e :: es => .comma :: (e.rendering ++ argTail es)

end

open Phrase

/-- The rendering of one expression is a phrase of every level, once it is grouped where its
strength falls short of the level. -/
theorem derives_grouped
    (h : ∀ l ≤ e.strength, Derives (.expr l e) ks) :
    Derives (.expr l e) (grouped (e.strength < l) ks) := by
  unfold grouped
  split
  · exact .parens (h 0 (Nat.zero_le _))
  · next hlt => exact h l (by simpa using hlt)

theorem derives_argTail {es : List Expr} (he : Derives (.expr 0 e) ks)
    (hes : ∀ a ∈ es, Derives (.expr 0 a) a.rendering) :
    Derives (.args (e :: es)) (ks ++ Expr.argTail es) := by
  induction es generalizing e ks with
  | nil =>
    rw [Expr.argTail, List.append_nil]
    exact .arg he
  | cons a es ih =>
    rw [Expr.argTail]
    exact .moreArgs he (ih (hes a List.mem_cons_self) fun b hb => hes b (List.mem_cons_of_mem _ hb))

/-- The rendering spells its expression, on every level up to the expression's strength. -/
theorem derives_rendering (e : Expr) : ∀ l ≤ e.strength, Derives (.expr l e) e.rendering := by
  induction e using Expr.induction with
  | literal v s =>
    intro l _
    rw [Expr.rendering]
    exact .literal
  | name n s =>
    intro l _
    obtain ⟨part, parts, hkinds, rfl⟩ := nameKinds_spec n
    rw [Expr.rendering, hkinds]
    exact .name part parts
  | call f args s ih =>
    intro l _
    obtain ⟨part, parts, hkinds, rfl⟩ := nameKinds_spec f
    cases args with
    | nil =>
      rw [Expr.rendering, hkinds]
      exact .callNone part parts
    | cons e es =>
      rw [Expr.rendering, hkinds]
      refine .call part parts (derives_argTail (ih e List.mem_cons_self 0 (Nat.zero_le _)) ?_)
      intro a ha
      exact ih a (List.mem_cons_of_mem _ ha) 0 (Nat.zero_le _)
  | binary op left right s ihleft ihright =>
    intro l hl
    rw [Expr.rendering]
    have hright := derives_grouped (l := op.level + 1) ihright
    simp only [Nat.lt_succ_iff] at hright
    exact .binary hl (derives_grouped ihleft) hright
  | unary op e s ih =>
    intro l hl
    rw [Expr.rendering]
    exact .unary hl (derives_grouped ih)

theorem count_partKinds (part : String) (parts : List String) :
    (partKinds part parts).count .lparen = 0 :=
  List.count_eq_zero.mpr (by simp [partKinds, dotKinds])

theorem count_nameKinds (name : String) : (nameKinds name).count .lparen = 0 := by
  obtain ⟨part, parts, hkinds, -⟩ := nameKinds_spec name
  rw [hkinds, count_partKinds]

theorem count_grouped_le (needed : Bool) (ks : List Kind) :
    (grouped needed ks).count .lparen ≤ ks.count .lparen + 1 := by
  cases needed <;> simp [grouped]

/-- The tokens of a phrase with the fewest parentheses. -/
def Phrase.rendering : Phrase → List Kind
  | .expr l e => grouped (e.strength < l) e.rendering
  | .args [] => []
  | .args (e :: es) => e.rendering ++ Expr.argTail es

theorem grouped_of_le (h : l ≤ e.strength) : grouped (e.strength < l) ks = ks := by
  simp [grouped, h]

/-- No way to spell an expression has fewer parentheses than the rendering. -/
theorem count_rendering_le {p : Phrase} (h : p.Derives ks)
    (hp : ∀ l e, p = .expr l e → l ≤ levels) : p.rendering.count .lparen ≤ ks.count .lparen := by
  have hargs : ∀ {es : List Expr} l e, Phrase.args es = .expr l e → l ≤ levels := nofun
  have hexpr : ∀ {m : Nat} {e : Expr}, m ≤ levels → ∀ l e', Phrase.expr m e = .expr l e' →
      l ≤ levels := by
    rintro m e hm l e' heq
    cases heq
    exact hm
  have hloose : ∀ e : Expr, (Phrase.expr 0 e).rendering = e.rendering := fun e =>
    grouped_of_le (Nat.zero_le _)
  induction h with
  | @literal l v s =>
    have hl : l ≤ levels + 1 := Nat.le_succ_of_le (hp l _ rfl)
    rw [Phrase.rendering, grouped_of_le hl, Expr.rendering]
  | @name l s part parts =>
    have hl : l ≤ levels + 1 := Nat.le_succ_of_le (hp l _ rfl)
    rw [Phrase.rendering, grouped_of_le hl, Expr.rendering, count_nameKinds]
    exact Nat.zero_le _
  | @callNone l s part parts =>
    have hl : l ≤ levels + 1 := Nat.le_succ_of_le (hp l _ rfl)
    rw [Phrase.rendering, grouped_of_le hl, Expr.rendering]
    simp [count_nameKinds]
  | @call l es s ks part parts h ih =>
    have hl : l ≤ levels + 1 := Nat.le_succ_of_le (hp l _ rfl)
    rw [Phrase.rendering, grouped_of_le hl]
    have ih := ih hargs
    cases es with
    | nil => cases h
    | cons e es =>
      rw [Expr.rendering]
      simp only [Phrase.rendering] at ih
      simpa [List.count_append, count_nameKinds, count_partKinds] using ih
  | @binary l op left right s ks ks' hl hleft hright ihleft ihright =>
    rw [Phrase.rendering, grouped_of_le hl, Expr.rendering]
    have ihleft := ihleft (hexpr (Nat.le_of_lt op.level_lt))
    have ihright := ihright (hexpr op.level_lt)
    simp only [Phrase.rendering, Nat.lt_succ_iff] at ihleft ihright
    simp only [List.count_append, List.count_cons]
    omega
  | @unary l op e s ks hl h ih =>
    rw [Phrase.rendering, grouped_of_le hl, Expr.rendering]
    have ih := ih (hexpr (Nat.le_refl _))
    simp only [Phrase.rendering] at ih
    simp only [List.count_cons]
    omega
  | @parens l e ks h ih =>
    -- These parentheses pay for the ones that the rendering may need here.
    have ih := ih (hexpr (Nat.zero_le _))
    rw [hloose] at ih
    have hgroup := count_grouped_le (e.strength < l) e.rendering
    simp only [Phrase.rendering, List.count_cons, List.count_append, beq_self_eq_true, if_true]
    omega
  | @arg e ks h ih =>
    have ih := ih (hexpr (Nat.zero_le _))
    rw [hloose] at ih
    rwa [Phrase.rendering, Expr.argTail, List.append_nil]
  | @moreArgs e es ks ks' h hmore ih ihmore =>
    have ih := ih (hexpr (Nat.zero_le _))
    have ihmore := ihmore hargs
    rw [hloose] at ih
    cases es with
    | nil => cases hmore
    | cons e' es =>
      simp only [Phrase.rendering, Expr.argTail, List.count_append, List.count_cons] at ihmore ⊢
      omega

end Surface

end Codewright
