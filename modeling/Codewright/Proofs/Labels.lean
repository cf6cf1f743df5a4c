import Codewright.Proofs.Reports

/-!
# Statements behind sure returns

Each statement in a function body has a place: the numbers that lead to it from the outside. A
statement is labelled if it is the first one of its block that follows a sure return, so a block has
one label or none. The statements that are noted while a function is built are the labelled ones,
each once and in the order of the text (`Stmt.lists_unreachable`).
-/

namespace Codewright.Surface

open Source (Span)

/-! ## Places of statements -/

/-- The statement with a number in another one. The statements of a block are counted from zero, and
so are the branches of an `if`. -/
def Stmt.child? : Stmt → Nat → Option Stmt
  | .block body _, i => body[i]?
  | .ifThen _ yes _, 0 => some yes
  | .ifElse _ yes _ _, 0 => some yes
  | .ifElse _ _ no _, 1 => some no
  | .loop _ body _, 0 => some body
  | _, _ => none

/-- The statement at a place in another one; the numbers lead to it from the outside. -/
def Stmt.at? : Stmt → List Nat → Option Stmt
  | s, [] => some s
  | s, i :: place => (s.child? i).bind fun c => c.at? place

/-- A statement before the one with this number returns for sure. -/
def Stmt.Follows (body : List Stmt) (i : Nat) : Prop :=
  ∃ j < i, ∃ s, body[j]? = some s ∧ s.returns = true

/-- The statement with this number is the first one to follow a sure return. -/
def Stmt.FollowsFirst (body : List Stmt) (i : Nat) : Prop :=
  Stmt.Follows body i ∧ ∀ k < i, ¬ Stmt.Follows body k

/-- The statement at a place is the first one of its block that follows a sure return. -/
inductive Stmt.Labelled : Stmt → List Nat → Stmt → Prop
  | here {body : List Stmt} {span : Span} {i : Nat} {s : Stmt} (hi : body[i]? = some s)
    (hfirst : Stmt.FollowsFirst body i) : Labelled (.block body span) [i] s
  | inside {root c s : Stmt} {i : Nat} {place : List Nat} (hc : root.child? i = some c)
    (h : Labelled c place s) : Labelled root (i :: place) s

/-- The body of a function as a statement. -/
def Function.whole (f : Function) : Stmt := .block f.body.body f.body.span

namespace Stmt

variable {body rest : List Stmt} {s s' c : Stmt} {i k : Nat} {place : List Nat} {span : Span}

theorem labelled_iff_block : Labelled s place s' ↔ ∃ outer body span i, place = outer ++ [i] ∧
    s.at? outer = some (.block body span) ∧ body[i]? = some s' ∧ FollowsFirst body i := by
  constructor
  · intro h
    induction h with
    | @here body span i _ hi hfirst => exact ⟨[], body, span, i, rfl, rfl, hi, hfirst⟩
    | @inside root c _ i _ hc _ ih =>
      obtain ⟨outer, body, span, k, rfl, hat, hk⟩ := ih
      exact ⟨i :: outer, body, span, k, rfl, by rw [at?, hc, Option.bind_some, hat], hk⟩
  · rintro ⟨outer, body, span, i, rfl, hat, hi, hfirst⟩
    induction outer generalizing s with
    | nil =>
      obtain rfl := Option.some.inj hat
      exact .here hi hfirst
    | cons k outer ih =>
      obtain ⟨c, hc, hat⟩ := Option.bind_eq_some_iff.mp hat
      exact .inside hc (ih hat)

theorem FollowsFirst.eq (h : FollowsFirst body i) (h' : FollowsFirst body k) : i = k := by
  rcases Nat.lt_trichotomy i k with hlt | heq | hlt
  · exact absurd h.1 (h'.2 i hlt)
  · exact heq
  · exact absurd h'.1 (h.2 k hlt)

theorem Follows.exists_first (h : Follows body i) : ∃ k ≤ i, FollowsFirst body k := by
  classical
  have hex : ∃ k, Follows body k := ⟨i, h⟩
  exact ⟨Nat.find hex, Nat.find_min' hex h, Nat.find_spec hex, fun k hk => Nat.find_min hex hk⟩

/-- A block with a statement that follows a sure return has one label. -/
theorem existsUnique_label {labels : List (List Nat × Stmt)} {outer : List Nat}
    (hmem : ∀ place s', (place, s') ∈ labels ↔ Labelled s place s')
    (hat : s.at? outer = some (.block body span)) (hi : i < body.length) (h : Follows body i) :
    ∃! l, l ∈ labels ∧ ∃ k, l.1 = outer ++ [k] := by
  obtain ⟨k, hk, hfirst⟩ := h.exists_first
  have hget : body[k]? = some body[k] := List.getElem?_eq_getElem (hk.trans_lt hi)
  refine ⟨(outer ++ [k], body[k]), ⟨(hmem _ _).mpr ?_, k, rfl⟩, ?_⟩
  · exact labelled_iff_block.mpr ⟨outer, body, span, k, rfl, hat, hget, hfirst⟩
  · rintro ⟨place, s'⟩ ⟨hl, k', rfl⟩
    obtain ⟨outer', body', span', i', hplace, hat', hget', hfirst'⟩ :=
      labelled_iff_block.mp ((hmem _ _).mp hl)
    -- the same place is that of the same block, and its first number is the only one
    obtain ⟨rfl, hlast⟩ := List.append_inj' hplace rfl
    obtain rfl := List.singleton_inj.mp hlast
    cases Option.some.inj (hat.symm.trans hat')
    obtain rfl := hfirst.eq hfirst'
    obtain rfl := Option.some.inj (hget.symm.trans hget')
    rfl

theorem Labelled.ne_nil (h : Labelled s place s') : place ≠ [] := by
  cases h with
  | here | inside => exact List.cons_ne_nil _ _

theorem anyReturns_iff : anyReturns body = true ↔ ∃ s ∈ body, s.returns = true := by
  induction body with
  | nil => simp [anyReturns]
  | cons s rest ih => simp [anyReturns, ih]

theorem not_follows_zero : ¬ Follows body 0 := fun ⟨_, hj, _⟩ => absurd hj (Nat.not_lt_zero _)

theorem follows_cons_succ : Follows (s :: rest) (k + 1) ↔ s.returns = true ∨ Follows rest k := by
  constructor
  · rintro ⟨j, hj, r, hr, hreturns⟩
    cases j with
    | zero =>
      obtain rfl : s = r := Option.some.inj hr
      exact .inl hreturns
    | succ j => exact .inr ⟨j, Nat.lt_of_succ_lt_succ hj, r, hr, hreturns⟩
  · rintro (hs | ⟨j, hj, r, hr, hreturns⟩)
    · exact ⟨0, Nat.succ_pos k, s, rfl, hs⟩
    · exact ⟨j + 1, Nat.succ_lt_succ hj, r, hr, hreturns⟩

theorem followsFirst_cons_of_returns (h : s.returns = true) :
    FollowsFirst (s :: rest) k ↔ k = 1 := by
  constructor
  · rintro ⟨hk, hfirst⟩
    cases k with
    | zero => exact absurd hk not_follows_zero
    | succ k =>
      by_contra hne
      exact hfirst 1 (by omega) (follows_cons_succ.mpr (.inl h))
  · rintro rfl
    refine ⟨follows_cons_succ.mpr (.inl h), fun l hl => ?_⟩
    rw [Nat.lt_one_iff.mp hl]
    exact not_follows_zero

theorem followsFirst_cons (h : s.returns = false) :
    FollowsFirst (s :: rest) k ↔ ∃ l, k = l + 1 ∧ FollowsFirst rest l := by
  have hcons : ∀ l, Follows (s :: rest) (l + 1) ↔ Follows rest l := fun l => by
    rw [follows_cons_succ, h, or_iff_right Bool.false_ne_true]
  cases k with
  | zero =>
    exact ⟨fun hk => absurd hk.1 not_follows_zero, fun ⟨l, hl, _⟩ =>
      absurd hl (Nat.succ_ne_zero l).symm⟩
  | succ k =>
    constructor
    · rintro ⟨hk, hfirst⟩
      exact ⟨k, rfl, (hcons k).mp hk, fun l hl hfollows =>
        hfirst (l + 1) (Nat.succ_lt_succ hl) ((hcons l).mpr hfollows)⟩
    · rintro ⟨l, hl, hk, hfirst⟩
      obtain rfl := Nat.succ.inj hl
      refine ⟨(hcons k).mpr hk, fun l hl => ?_⟩
      cases l with
      | zero => exact not_follows_zero
      | succ l => exact fun hfollows => hfirst l (Nat.lt_of_succ_lt_succ hl) ((hcons l).mp hfollows)

/-- A statement found in one of the statements of a block, which are counted from `i`. -/
def LabelledWithin (i : Nat) (body : List Stmt) (place : List Nat) (s : Stmt) : Prop :=
  ∃ (k : Nat) (c : Stmt) (inner : List Nat),
    body[k]? = some c ∧ place = (i + k) :: inner ∧ Labelled c inner s

/-- The first of the statements that follows a sure return. -/
def LabelledAmong (i : Nat) (body : List Stmt) (place : List Nat) (s : Stmt) : Prop :=
  ∃ k, place = [i + k] ∧ body[k]? = some s ∧ FollowsFirst body k

theorem labelled_block : Labelled (.block body span) place s ↔
    LabelledWithin 0 body place s ∨ LabelledAmong 0 body place s := by
  constructor
  · intro h
    cases h with
    | @here _ _ i _ hi hfirst => exact .inr ⟨i, by rw [Nat.zero_add], hi, hfirst⟩
    | @inside _ c _ i place hc h => exact .inl ⟨i, c, place, hc, by rw [Nat.zero_add], h⟩
  · rintro (⟨k, c, inner, hc, rfl, h⟩ | ⟨k, rfl, hk, hfirst⟩)
    · rw [Nat.zero_add]
      exact .inside hc h
    · rw [Nat.zero_add]
      exact .here hk hfirst

theorem labelled_iff (h : ∀ body span, s ≠ .block body span) : Labelled s place s' ↔
    ∃ i c inner, s.child? i = some c ∧ place = i :: inner ∧ Labelled c inner s' := by
  constructor
  · intro hlabelled
    cases hlabelled with
    | here => exact absurd rfl (h _ _)
    | inside hc hinner => exact ⟨_, _, _, hc, rfl, hinner⟩
  · rintro ⟨i, c, inner, hc, rfl, hinner⟩
    exact .inside hc hinner

theorem labelled_of_one (h : ∀ body span, s ≠ .block body span)
    (hone : ∀ i c', s.child? i = some c' ↔ i = 0 ∧ c' = c) :
    Labelled s place s' ↔ ∃ inner, place = 0 :: inner ∧ Labelled c inner s' := by
  simp only [labelled_iff h, hone, and_assoc, exists_and_left, exists_eq_left]

theorem labelled_ifElse {condition : Expr} {yes no : Stmt} :
    Labelled (.ifElse condition yes no span) place s ↔
      (∃ inner, place = 0 :: inner ∧ Labelled yes inner s) ∨
        ∃ inner, place = 1 :: inner ∧ Labelled no inner s := by
  have hchild : ∀ i c, (Stmt.ifElse condition yes no span).child? i = some c ↔
      i = 0 ∧ c = yes ∨ i = 1 ∧ c = no := by
    intro i c
    match i with
    | 0 | 1 | i + 2 => simp [child?, eq_comm]
  have hblock : ∀ body span', Stmt.ifElse condition yes no span ≠ .block body span' := by
    intro body span' h
    cases h
  simp only [labelled_iff hblock, hchild, or_and_right, exists_or, and_assoc, exists_and_left,
    exists_eq_left]

theorem not_labelledWithin_nil : ¬ LabelledWithin i [] place s :=
  fun ⟨_, _, _, hc, _⟩ => by cases hc

theorem labelledWithin_cons : LabelledWithin i (c :: rest) place s ↔
    (∃ inner, place = i :: inner ∧ Labelled c inner s) ∨ LabelledWithin (i + 1) rest place s := by
  constructor
  · rintro ⟨k, c', inner, hc, rfl, h⟩
    cases k with
    | zero =>
      obtain rfl : c = c' := Option.some.inj hc
      exact .inl ⟨inner, rfl, h⟩
    | succ k => exact .inr ⟨k, c', inner, hc, by rw [Nat.add_right_comm, Nat.add_assoc], h⟩
  · rintro (⟨inner, rfl, h⟩ | ⟨k, c', inner, hc, rfl, h⟩)
    · exact ⟨0, c, inner, rfl, rfl, h⟩
    · exact ⟨k + 1, c', inner, hc, by rw [Nat.add_right_comm, Nat.add_assoc], h⟩

theorem labelledAmong_cons_of_returns (h : c.returns = true) :
    LabelledAmong i (c :: rest) place s ↔ place = [i + 1] ∧ rest.head? = some s := by
  unfold LabelledAmong
  simp only [followsFirst_cons_of_returns h]
  constructor
  · rintro ⟨k, rfl, hk, rfl⟩
    exact ⟨rfl, by rw [List.head?_eq_getElem?]; exact hk⟩
  · rintro ⟨rfl, hs⟩
    exact ⟨1, rfl, by rw [List.head?_eq_getElem?] at hs; exact hs, rfl⟩

theorem labelledAmong_cons (h : c.returns = false) :
    LabelledAmong i (c :: rest) place s ↔ LabelledAmong (i + 1) rest place s := by
  unfold LabelledAmong
  simp only [followsFirst_cons h]
  constructor
  · rintro ⟨k, rfl, hk, l, rfl, hfirst⟩
    exact ⟨l, by rw [Nat.add_right_comm, Nat.add_assoc], hk, hfirst⟩
  · rintro ⟨l, rfl, hl, hfirst⟩
    exact ⟨l + 1, by rw [Nat.add_right_comm, Nat.add_assoc], hl, l, rfl, hfirst⟩

end Stmt

/-! ## Labelled statements in the order of the text -/

/-- The statements are those that a relation finds, each at one place, in the order of the text. -/
def Lists (R : List Nat → Stmt → Prop) (stmts : List Stmt) : Prop :=
  ∃ labels : List (List Nat × Stmt), labels.map Prod.snd = stmts ∧
    labels.Pairwise (fun l l' => l.1 < l'.1) ∧ ∀ place s, (place, s) ∈ labels ↔ R place s

namespace Lists

variable {R R' : List Nat → Stmt → Prop} {stmts stmts' : List Stmt}

theorem congr (h : Lists R stmts) (hiff : ∀ place s, R' place s ↔ R place s) : Lists R' stmts := by
  obtain ⟨labels, hstmts, horder, hmem⟩ := h
  exact ⟨labels, hstmts, horder, fun place s => (hmem place s).trans (hiff place s).symm⟩

theorem nil (h : ∀ place s, ¬ R place s) : Lists R [] :=
  ⟨[], rfl, .nil, fun place s => ⟨fun hs => absurd hs List.not_mem_nil, fun hs =>
    absurd hs (h place s)⟩⟩

theorem head? (place : List Nat) (rest : List Stmt) :
    Lists (fun p s => p = place ∧ rest.head? = some s) rest.head?.toList := by
  cases rest with
  | nil => exact nil fun _ _ ⟨_, h⟩ => by cases h
  | cons s rest =>
    refine ⟨[(place, s)], rfl, List.pairwise_singleton _ _, fun p s' => ?_⟩
    simp only [List.mem_singleton, Prod.mk.injEq, List.head?_cons, Option.some_inj, eq_comm]

theorem append (h : Lists R stmts) (h' : Lists R' stmts')
    (hlt : ∀ {place s place' s'}, R place s → R' place' s' → place < place') :
    Lists (fun place s => R place s ∨ R' place s) (stmts ++ stmts') := by
  obtain ⟨labels, rfl, horder, hmem⟩ := h
  obtain ⟨labels', rfl, horder', hmem'⟩ := h'
  refine ⟨labels ++ labels', List.map_append, ?_, fun place s => ?_⟩
  · exact List.pairwise_append.mpr ⟨horder, horder', fun l hl l' hl' =>
      hlt ((hmem l.1 l.2).mp hl) ((hmem' l'.1 l'.2).mp hl')⟩
  · rw [List.mem_append, hmem, hmem']

/-- The same statements, seen from one further out. -/
theorem under (i : Nat) (h : Lists R stmts) :
    Lists (fun place s => ∃ inner, place = i :: inner ∧ R inner s) stmts := by
  obtain ⟨labels, rfl, horder, hmem⟩ := h
  refine ⟨labels.map fun l => (i :: l.1, l.2), ?_, ?_, fun place s => ?_⟩
  · rw [List.map_map]
    rfl
  · rw [List.pairwise_map]
    exact horder.imp fun hlt => List.cons_lt_cons_iff.mpr (.inr ⟨rfl, hlt⟩)
  · rw [List.mem_map]
    constructor
    · rintro ⟨l, hl, heq⟩
      obtain ⟨rfl, rfl⟩ := Prod.mk.inj heq
      exact ⟨l.1, rfl, (hmem l.1 l.2).mp hl⟩
    · rintro ⟨inner, rfl, hs⟩
      exact ⟨(inner, s), (hmem inner s).mpr hs, rfl⟩

end Lists

theorem place_lt {i j : Nat} (h : i < j) (inner inner' : List Nat) : i :: inner < j :: inner' :=
  List.cons_lt_cons_iff.mpr (.inl h)

namespace Stmt

mutual

/-- The statements noted in a statement are the labelled ones. -/
theorem lists_unreachable : (s : Stmt) → Lists (Labelled s) s.unreachable
  | .block body span => by
    rw [unreachable]
    exact (lists_unreachableOf 0 body).congr fun _ _ => labelled_block
  | .ifThen c yes span | .loop c yes span => by
    rw [unreachable]
    refine ((lists_unreachable yes).under 0).congr fun _ _ =>
      labelled_of_one (fun _ _ h => by cases h) fun i c' => ?_
    cases i <;> simp [child?, eq_comm]
  | .ifElse c yes no span => by
    rw [unreachable]
    refine (((lists_unreachable yes).under 0).append ((lists_unreachable no).under 1) ?_).congr
      fun _ _ => labelled_ifElse
    rintro _ _ _ _ ⟨inner, rfl, -⟩ ⟨inner', rfl, -⟩
    exact place_lt Nat.zero_lt_one inner inner'
  | .assign .. | .ret .. | .expr .. => by
    rw [unreachable]
    refine .nil fun _ _ => ?_
    simp [labelled_iff, child?]

/-- Those of a block are counted from `i`. -/
theorem lists_unreachableOf (i : Nat) : (body : List Stmt) →
    Lists (fun place s => LabelledWithin i body place s ∨ LabelledAmong i body place s)
      (unreachableOf body)
  | [] => by
    rw [unreachableOf]
    refine .nil fun _ _ h => ?_
    rcases h with h | ⟨k, -, hk, -⟩
    · exact not_labelledWithin_nil h
    · cases hk
  | s :: rest => by
    rw [unreachableOf]
    have hs := (lists_unreachable s).under i
    -- after a sure return the next statement is labelled and the others only inside
    by_cases hreturns : s.returns = true
    · rw [if_pos hreturns]
      have hrest := (Lists.head? [i + 1] rest).append (lists_unreachableWithin (i + 1) rest) ?_
      · refine (hs.append hrest ?_).congr fun place s' => ?_
        · rintro _ _ _ _ ⟨inner, rfl, -⟩ (⟨rfl, -⟩ | ⟨k, _, inner', -, rfl, -⟩)
          · exact place_lt (Nat.lt_succ_self i) inner []
          · exact place_lt (by omega) inner inner'
        · rw [labelledWithin_cons, labelledAmong_cons_of_returns hreturns, or_assoc,
            or_comm (a := LabelledWithin (i + 1) rest place s')]
      · -- the label of a statement comes before those inside it
        rintro _ _ _ _ ⟨rfl, -⟩ ⟨k, _, inner, -, rfl, hinner⟩
        cases k with
        | zero =>
          obtain ⟨j, place, rfl⟩ := List.exists_cons_of_ne_nil hinner.ne_nil
          exact List.cons_lt_cons_iff.mpr (.inr ⟨rfl, List.nil_lt_cons j place⟩)
        | succ k => exact place_lt (by omega) [] inner
    · rw [if_neg hreturns]
      refine (hs.append (lists_unreachableOf (i + 1) rest) ?_).congr fun place s' => ?_
      · rintro _ _ _ _ ⟨inner, rfl, -⟩ (⟨k, _, inner', -, rfl, -⟩ | ⟨k, rfl, -⟩)
        · exact place_lt (by omega) inner inner'
        · exact place_lt (by omega) inner []
      · rw [labelledWithin_cons, labelledAmong_cons (Bool.not_eq_true _ ▸ hreturns), or_assoc]

theorem lists_unreachableWithin (i : Nat) : (body : List Stmt) →
    Lists (LabelledWithin i body) (unreachableWithin body)
  | [] => by
    rw [unreachableWithin]
    exact .nil fun _ _ => not_labelledWithin_nil
  | s :: rest => by
    rw [unreachableWithin]
    refine (((lists_unreachable s).under i).append (lists_unreachableWithin (i + 1) rest) ?_).congr
      fun _ _ => labelledWithin_cons
    rintro _ _ _ _ ⟨inner, rfl, -⟩ ⟨k, _, inner', -, rfl, -⟩
    exact place_lt (by omega) inner inner'

end

end Stmt

end Codewright.Surface
