import Mathlib.Data.List.Pairwise
import Codewright.Surface.Module

/-!
# Regions of syntax trees

A syntax tree keeps a region of the text in every node. The regions fit the tree (`Placed`) if every
node starts and stops with tokens that it was read from and holds the nodes below it, and these
stand one after the other.

All regions but those of single tokens are joined from a first and a last one. So what is read is
seen as a row of regions, each on tokens of its own (`Laid`), and a row is joined to a node
(`Laid.node`).
-/

namespace Codewright

namespace Source.Span

/-- The region holds the other one. -/
def Covers (a b : Span) : Prop := a.start.offset ≤ b.start.offset ∧ b.stop.offset ≤ a.stop.offset

/-- The region stops before the other one starts. -/
structure Before (a b : Span) : Prop where
  apart : a.stop.offset ≤ b.start.offset
  starts : a.start.offset ≤ b.start.offset
  stops : a.stop.offset ≤ b.stop.offset

theorem start_join (a b : Span) : (a.join b).start = a.start ∨ (a.join b).start = b.start :=
  ite_eq_or_eq _ _ _

theorem stop_join (a b : Span) : (a.join b).stop = a.stop ∨ (a.join b).stop = b.stop :=
  ite_eq_or_eq _ _ _

theorem offset_join (a b : Span) : (a.join b).start.offset = min a.start.offset b.start.offset ∧
    (a.join b).stop.offset = max a.stop.offset b.stop.offset := by
  unfold join
  constructor
  · dsimp only
    split <;> omega
  · dsimp only
    split <;> omega

end Source.Span

namespace Surface

open Source (Span)
open Read (Declaration)

/-! ## Trees of regions -/

/-- The region of a node, and the nodes below it in the order of the text. -/
inductive Nest where
  | node (span : Span) (children : List Nest)

def Nest.span : Nest → Span
  | .node span _ => span

mutual

/-- The regions of an expression. -/
def Expr.nest : Expr → Nest
  | .literal _ span | .name _ span => .node span []
  | .call _ args span => .node span (nests args)
  | .binary _ left right span => .node span [left.nest, right.nest]
  | .unary _ operand span => .node span [operand.nest]

def Expr.nests : List Expr → List Nest
  | [] => []
  | e :: es => e.nest :: nests es

end

mutual

/-- The regions of a statement. -/
def Stmt.nest : Stmt → Nest
  | .block body span => .node span (nests body)
  | .assign _ value span => .node span [value.nest]
  | .ifThen c yes span => .node span [c.nest, yes.nest]
  | .ifElse c yes no span => .node span [c.nest, yes.nest, no.nest]
  | .loop c body span => .node span [c.nest, body.nest]
  | .ret value span => .node span (value.toList.map Expr.nest)
  | .expr e => e.nest

def Stmt.nests : List Stmt → List Nest
  | [] => []
  | s :: ss => s.nest :: nests ss

end

def Param.nest (p : Param) : Nest := .node p.span []

def Import.nest (i : Import) : Nest := .node i.span []

def Block.nest (b : Block) : Nest := .node b.span (Stmt.nests b.body)

def Read.Declaration.nest : Declaration → Nest
  | .constant c => .node c.span []
  | .function f => .node f.span (f.params.map Param.nest ++ [f.body.nest])

@[simp] theorem Nest.span_node (span : Span) (ns : List Nest) : (Nest.node span ns).span = span :=
  rfl

@[simp] theorem Expr.span_nest (e : Expr) : e.nest.span = e.span := by
  cases e <;> simp only [nest, span, Nest.span_node]

@[simp] theorem Stmt.span_nest (s : Stmt) : s.nest.span = s.span := by
  cases s with
  | expr e => simp only [nest, span, Expr.span_nest]
  | _ => simp only [nest, span, Nest.span_node]

@[simp] theorem Block.span_nest (b : Block) : b.nest.span = b.span := rfl

theorem Expr.nests_eq_map (es : List Expr) : nests es = es.map nest := by
  induction es with
  | nil => rfl
  | cons e es ih => simp only [nests, ih, List.map_cons]

theorem Stmt.nests_eq_map (ss : List Stmt) : nests ss = ss.map nest := by
  induction ss with
  | nil => rfl
  | cons s ss ih => simp only [nests, ih, List.map_cons]

mutual

/-- The tree stands on these tokens: its region starts where one of them starts and stops where one
of them stops, and the trees below it are a row on the tokens, inside the region and one after the
other. -/
inductive Placed : List Token → Nest → Prop
  | node {ts : List Token} {span : Span} {children : List Nest}
    (starts : ∃ t ∈ ts, span.start = t.span.start)
    (stops : ∃ t ∈ ts, span.stop = t.span.stop) (forward : span.start.offset ≤ span.stop.offset)
    (row : Row ts children) (inside : ∀ n ∈ children, span.Covers n.span)
    (apart : children.Pairwise fun a b => a.span.Before b.span) : Placed ts (.node span children)

/-- Trees in a row, each on tokens of its own. -/
inductive Row : List Token → List Nest → Prop
  | nil {ts : List Token} : Row ts []
  | cons {ts used rest : List Token} {n : Nest} {ns : List Nest}
    (within : (used ++ rest).Sublist ts)
    (placed : Placed used n) (more : Row rest ns) : Row ts (n :: ns)

end

/-- Tokens in the order of the text. -/
structure Rising (ts : List Token) : Prop where
  forward : ∀ t ∈ ts, t.span.start.offset ≤ t.span.stop.offset
  before : ts.Pairwise fun a b => a.span.Before b.span

/-! ## Rows -/

variable {t : Token} {ts ts' rest rest' : List Token} {n n' : Nest} {ns ns' : List Nest}
  {a b : Span}

theorem Rising.sublist (h : Rising ts) (hts : ts'.Sublist ts) : Rising ts' :=
  ⟨fun t ht => h.forward t (hts.subset ht), h.before.sublist hts⟩

/-- A row on some tokens is a row on more. -/
theorem Row.mono (h : Row ts ns) (hts : ts.Sublist ts') : Row ts' ns := by
  cases h with
  | nil => exact .nil
  | cons within placed more => exact .cons (within.trans hts) placed more

/-- A row of one tree is that tree. -/
theorem row_singleton : Row ts [n] ↔ Placed ts n := by
  constructor
  · rintro (_ | ⟨within, ⟨⟨t, ht, hstart⟩, ⟨u, hu, hstop⟩, forward, row, inside, apart⟩, -⟩)
    have hts := (List.sublist_append_left _ _).trans within
    exact .node ⟨t, hts.subset ht, hstart⟩ ⟨u, hts.subset hu, hstop⟩ forward (row.mono hts)
      inside apart
  · intro h
    have hts : (ts ++ []).Sublist ts := by simp
    exact .cons hts h .nil

/-- Two rows make one on the tokens of both. -/
theorem Row.append (h : Row ts ns) (h' : Row ts' ns') : Row (ts ++ ts') (ns ++ ns') := by
  induction ns generalizing ts with
  | nil => exact h'.mono (List.sublist_append_right ts ts')
  | cons n ns ih =>
    obtain ⟨⟩ | ⟨within, placed, more⟩ := h
    refine .cons ?_ placed (ih more)
    rw [← List.append_assoc]
    exact within.append_right ts'

/-- Trees may be left out of a row. -/
theorem Row.sublist (h : Row ts ns) (hns : ns'.Sublist ns) : Row ts ns' := by
  induction hns generalizing ts with
  | slnil => exact .nil
  | cons n _ ih =>
    obtain ⟨⟩ | ⟨within, placed, more⟩ := h
    exact (ih more).mono ((List.sublist_append_right _ _).trans within)
  | cons_cons n _ ih =>
    obtain ⟨⟩ | ⟨within, placed, more⟩ := h
    exact .cons within placed (ih more)

theorem Row.placed (h : Row ts ns) (hn : n ∈ ns) : Placed ts n :=
  row_singleton.mp (h.sublist (List.singleton_sublist.mpr hn))

/-- Trees on tokens in order are in order. -/
theorem Placed.before (h : Placed ts n) (h' : Placed ts' n')
    (hbefore : ∀ t ∈ ts, ∀ u ∈ ts', t.span.Before u.span) : n.span.Before n'.span := by
  obtain ⟨⟨t, ht, hstart⟩, ⟨u, hu, hstop⟩, -, -, -, -⟩ := h
  obtain ⟨⟨t', ht', hstart'⟩, ⟨u', hu', hstop'⟩, -, -, -, -⟩ := h'
  constructor
  · rw [Nest.span_node, Nest.span_node, hstop, hstart']
    exact (hbefore u hu t' ht').apart
  · rw [Nest.span_node, Nest.span_node, hstart, hstart']
    exact (hbefore t ht t' ht').starts
  · rw [Nest.span_node, Nest.span_node, hstop, hstop']
    exact (hbefore u hu u' hu').stops

/-- The trees of a row are in order. -/
theorem Row.pairwise (h : Row ts ns) (hts : Rising ts) :
    ns.Pairwise fun a b => a.span.Before b.span := by
  induction ns generalizing ts with
  | nil => exact .nil
  | cons n ns ih =>
    obtain ⟨⟩ | ⟨within, placed, more⟩ := h
    have hts := hts.sublist within
    obtain ⟨-, -, hbefore⟩ := List.pairwise_append.mp hts.before
    exact .cons (fun n' hn' => placed.before (more.placed hn') hbefore)
      (ih more (hts.sublist (List.sublist_append_right _ _)))

theorem placed_token (hts : Rising ts) (ht : t ∈ ts) : Placed ts (.node t.span []) :=
  .node ⟨t, ht, rfl⟩ ⟨t, ht, rfl⟩ (hts.forward t ht) .nil (fun _ hn =>
    absurd hn List.not_mem_nil) .nil

/-- A node whose region is joined from the regions of two trees on its tokens. -/
theorem Row.node {first last : Nest} (h : Row ts ns) (hts : Rising ts) (hfirst : Placed ts first)
    (hlast : Placed ts last) (hns : ∀ n ∈ ns, first.span.start.offset ≤ n.span.start.offset ∧
      n.span.stop.offset ≤ last.span.stop.offset) :
    Placed ts (.node (first.span.join last.span) ns) := by
  obtain @⟨_, a, _, hstart, hstop, forward, -, -, -⟩ := hfirst
  obtain @⟨_, b, _, hstart', hstop', -, -, -, -⟩ := hlast
  obtain ⟨hmin, hmax⟩ := Span.offset_join a b
  simp only [Nest.span_node] at hns ⊢
  refine .node ?_ ?_ (by omega) h (fun n hn => ?_) (h.pairwise hts)
  · rcases Span.start_join a b with h | h
    · exact h ▸ hstart
    · exact h ▸ hstart'
  · rcases Span.stop_join a b with h | h
    · exact h ▸ hstop
    · exact h ▸ hstop'
  · have hn := hns n hn
    constructor <;> omega

/-- The tokens from `ts` down to `rest` are of these kinds, and if they rise they have these trees
in a row. -/
def Laid (ks : List Kind) (ns : List Nest) (ts rest : List Token) : Prop :=
  ∃ used, ts = used ++ rest ∧ used.map (·.kind) = ks ∧ (Rising used → Row used ns)

variable {k : Kind} {ks ks' : List Kind}

theorem Laid.suffix (h : Laid ks ns ts rest) : rest <:+ ts := by
  obtain ⟨used, rfl, -⟩ := h
  exact List.suffix_append used rest

theorem Laid.sublist (h : Laid ks ns ts rest) (hns : ns'.Sublist ns) : Laid ks ns' ts rest := by
  obtain ⟨used, rfl, hks, hrow⟩ := h
  exact ⟨used, rfl, hks, fun hts => (hrow hts).sublist hns⟩

/-- Two pieces that follow each other are one piece. -/
theorem Laid.append (h : Laid ks ns ts rest) (h' : Laid ks' ns' rest rest') :
    Laid (ks ++ ks') (ns ++ ns') ts rest' := by
  obtain ⟨used, rfl, rfl, hrow⟩ := h
  obtain ⟨used', rfl, rfl, hrow'⟩ := h'
  refine ⟨used ++ used', (List.append_assoc ..).symm, List.map_append, fun hts => ?_⟩
  exact (hrow (hts.sublist (List.sublist_append_left ..))).append
    (hrow' (hts.sublist (List.sublist_append_right ..)))

theorem laid_refl (ts : List Token) : Laid [] [] ts ts :=
  ⟨[], rfl, rfl, fun _ => .nil⟩

theorem laid_token (hk : t.kind = k) : Laid [k] [.node t.span []] (t :: rest) rest :=
  ⟨[t], rfl, congrArg (· :: []) hk, fun hts =>
    row_singleton.mpr (placed_token hts (List.mem_singleton_self t))⟩

theorem laid_mark (hk : t.kind = k) : Laid [k] [] (t :: rest) rest :=
  (laid_token hk).sublist (List.nil_sublist _)

/-- Tokens may be passed over. -/
theorem laid_skip (h : rest <:+ ts) : ∃ ks, Laid ks [] ts rest := by
  obtain ⟨used, rfl⟩ := h
  exact ⟨_, used, rfl, rfl, fun _ => .nil⟩

theorem Laid.first (h : Laid (k :: ks) ns (t :: rest) rest') :
    Laid (k :: ks) [.node t.span []] (t :: rest) rest' := by
  obtain ⟨_ | ⟨u, used⟩, hused, hks, -⟩ := h
  · cases hks
  · obtain ⟨rfl, rfl⟩ := List.cons.inj hused
    exact ⟨t :: used, rfl, hks, fun hts => row_singleton.mpr (placed_token hts List.mem_cons_self)⟩

/-- The first region of a row and the last one are joined to one that holds all of the row. -/
theorem Laid.node {first : Nest} (h : Laid ks (first :: ns) ts rest) (hfirst : first.span = a)
    (hlast : ((first :: ns).getLast (List.cons_ne_nil _ _)).span = b)
    (hns : ns'.Sublist (first :: ns)) : Laid ks [.node (a.join b) ns'] ts rest := by
  obtain ⟨used, rfl, hks, hrow⟩ := h
  refine ⟨used, rfl, hks, fun hts => row_singleton.mpr ?_⟩
  replace hrow := hrow hts
  have hbefore := hrow.pairwise hts
  rw [← hfirst, ← hlast]
  refine (hrow.sublist hns).node hts (hrow.placed List.mem_cons_self)
    (hrow.placed (List.getLast_mem _))
    fun n hn => ⟨?_, ?_⟩
  · exact (hbefore.imp Span.Before.starts).rel_head_of_rel_head_head (hns.subset hn) (Nat.le_refl _)
  · exact (hbefore.imp Span.Before.stops).rel_getLast_of_rel_getLast_getLast (hns.subset hn)
      (Nat.le_refl _)

end Surface

end Codewright
