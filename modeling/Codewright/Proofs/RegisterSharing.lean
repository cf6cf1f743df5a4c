import Codewright.Proofs.Allocation

/-!
# Registers under any target

The least that a target can promise about its places is that it always has one and that it hands out
none that is out already (`LocationSource.Conforming`). Which places it prefers, whether it uses
registers and slots again, and what it keeps in mind for that is left open.

That is enough for registers: two locals whose intervals overlap never end up in the same register.
It is enough for the target's bookkeeping as well (`Allocator.Accounted`): all along, the places
that are out are those of the active locals, one each, so that none is returned twice or while
somebody uses it.

It is not enough for stack slots. A local that gives up its register takes over a slot, and if the
slot was used before, somebody may have lived there while the local was in its register.
-/

namespace Codewright

/-! ## Conforming targets -/

/-- A call of a target, with the place that it is about. -/
inductive Call where
  | taken (place : Storage)
  | returned (place : Storage)

/-- The places that are out after calls, the latest of which stands first. -/
def outstanding : List Call → Set Storage
  | [] => ∅
  | .taken place :: calls => insert place (outstanding calls)
  | .returned place :: calls => outstanding calls \ {place}

namespace LocationSource

variable {σ : Type}

/-- What can have happened to a target since its start: places were taken in any way, and places
that were out were returned. -/
inductive History (src : LocationSource σ) (start : σ) : σ → List Call → Prop
  | start : History src start start []
  | take {st : σ} {calls : List Call} (h : History src start st calls) (ty : Ty)
    (isParameter : Bool) :
    History src start (src.take st ty isParameter).2
      (.taken (src.take st ty isParameter).1 :: calls)
  | giveBack {st : σ} {calls : List Call} {place : Storage} (h : History src start st calls)
    (hplace : place ∈ outstanding calls) :
    History src start (src.giveBack st place) (.returned place :: calls)

/-- Whatever has happened, the target has a place, and one that is not out. -/
def Conforming (src : LocationSource σ) (start : σ) : Prop :=
  ∀ ⦃st calls⦄, src.History start st calls → ∀ ty isParameter,
    (src.take st ty isParameter).1 ≠ .unassigned ∧
      (src.take st ty isParameter).1 ∉ outstanding calls

/-- The target, with a record of its calls. -/
def recorded (src : LocationSource σ) : LocationSource (σ × List Call) where
  take st ty isParameter :=
    ((src.take st.1 ty isParameter).1, (src.take st.1 ty isParameter).2,
      .taken (src.take st.1 ty isParameter).1 :: st.2)
  giveBack st place := (src.giveBack st.1 place, .returned place :: st.2)

end LocationSource

theorem Storage.isRegister_of_isStack {place : Storage} (h : place.isStack = true) :
    place.isRegister = false := by
  cases place with
  | unassigned => rfl
  | register n => exact absurd h Bool.false_ne_true
  | stack slot => rfl

namespace Allocator

variable {σ : Type} {src : LocationSource σ} {start : σ}

def forget (s : Allocator (σ × List Call)) : Allocator σ := ⟨s.locals, s.active, s.source.1⟩

def visits (src : LocationSource σ) (order : List (LocalId × Interval)) (s : Allocator σ) :
    Allocator σ :=
  order.foldl (fun s e => s.visit src e.1 e.2) s

theorem forget_expire (src : LocationSource σ) (s : Allocator (σ × List Call)) (first : Int) :
    (s.expire src.recorded first).forget = s.forget.expire src first := by
  have hfold : ∀ (ended : List Active) (st : σ × List Call),
      (ended.foldl (fun st a => src.recorded.giveBack st (storageOf s.locals a.id)) st).1 =
        ended.foldl (fun st a => src.giveBack st (storageOf s.locals a.id)) st.1 := by
    intro ended
    induction ended with
    | nil => exact fun st => rfl
    | cons a rest ih => exact fun st => ih _
  simp only [forget, expire, hfold]

/-- The record changes nothing. -/
theorem forget_visit (src : LocationSource σ) (s : Allocator (σ × List Call)) (x : LocalId)
    (i : Interval) : (s.visit src.recorded x i).forget = s.forget.visit src x i := by
  have hexpire := forget_expire src s i.first
  have hlocals : (s.expire src.recorded i.first).locals = (s.forget.expire src i.first).locals :=
    rfl
  unfold visit
  dsimp only
  rw [hlocals]
  cases (s.forget.expire src i.first).locals[x]?.map fun l => (l.ty, l.isParameter) with
  | none => exact hexpire
  | some d =>
    dsimp only
    split_ifs
    · exact hexpire
    · rw [← hexpire]
      rfl

theorem forget_visits (src : LocationSource σ) (order : List (LocalId × Interval))
    (s : Allocator (σ × List Call)) :
    (s.visits src.recorded order).forget = s.forget.visits src order := by
  induction order generalizing s with
  | nil => rfl
  | cons e rest ih =>
    show ((s.visit src.recorded e.1 e.2).visits src.recorded rest).forget = _
    rw [ih, forget_visit]
    rfl

/-! ## The bookkeeping -/

/-- The target has only been asked for places and given places that were out, and those that are out
are held by the active locals, each by one of them. -/
structure Accounted (src : LocationSource σ) (start : σ) (s : Allocator (σ × List Call)) :
    Prop where
  history : src.History start s.source.1 s.source.2
  held : outstanding s.source.2 = s.held
  distinct : s.active.Pairwise fun a b => s.placeOf a.id ≠ s.placeOf b.id

/-- What holds between two visits: the locals are seated, the target's bookkeeping is in order, and
in one register one interval has ended when the other begins. -/
structure Visited (src : LocationSource σ) (start : σ) (decl : LocalId → Option (Ty × Bool))
    (iv : LocalId → Option Interval) (s : Allocator (σ × List Call)) (now : Int)
    (done : Set LocalId) : Prop extends Seating decl iv s now done where
  history : src.History start s.source.1 s.source.2
  held : outstanding s.source.2 = s.held
  apart : ∀ x ∈ done, ∀ y ∈ done, x ≠ y → s.placeOf x = s.placeOf y →
    (s.placeOf x).isRegister = true → ∀ i j, iv x = some i → iv y = some j →
      i.last ≤ j.first ∨ j.last ≤ i.first

section

variable {decl : LocalId → Option (Ty × Bool)} {iv : LocalId → Option Interval}
  {s : Allocator (σ × List Call)} {now : Int} {done : Set LocalId} {x : LocalId}

theorem Visited.accounted (h : Visited src start decl iv s now done) : Accounted src start s :=
  ⟨h.history, h.held, h.distinct⟩

theorem Visited.expire (h : Visited src start decl iv s now done) {first : Int}
    (hnow : now ≤ first) : Visited src start decl iv (s.expire src.recorded first) first done := by
  obtain ⟨⟨hhistory, hheld⟩, -⟩ := h.toSeating.giveBack src.recorded
    (Q := fun st held => src.History start st.1 st.2 ∧ outstanding st.2 = held)
    (fun hst hplace => ⟨hst.1.giveBack (hst.2 ▸ hplace), congrArg (· \ {_}) hst.2⟩)
    ⟨h.history, h.held⟩ first
  exact { h.toSeating.expire hnow with history := hhistory, held := hheld, apart := h.apart }

/-- A local gets a place of its own, and the target's record says so. -/
theorem Visited.place (hsrc : src.Conforming start) {i : Interval} {ty : Ty} {p : Bool}
    (h : Visited src start decl iv s i.first done) (hx : x ∉ done) (hi : iv x = some i)
    (hd : decl x = some (ty, p)) (hneeds : i.first ≠ i.last ∨ p = true) :
    Visited src start decl iv (s.place src.recorded x ty p i.last) i.first (insert x done) := by
  have hax : ∀ a ∈ s.active, a.id ≠ x := fun a ha hax => hx (hax ▸ (h.active a ha).1)
  have hdecl := fun y => (declared_place src.recorded s x ty p i.last y).trans (h.decls y)
  obtain ⟨hπ, hfresh⟩ := hsrc h.history ty p
  rw [h.held] at hfresh
  have hneeds' : i.first ≠ i.last ∨ IsParameter decl x := by
    refine hneeds.imp_right ?_
    rintro rfl
    exact ⟨ty, hd⟩
  -- A local that changes its place comes to a slot, so who is in a register has been there before.
  obtain ⟨hplacing, hkept⟩ : Placing decl ∅ s (s.place src.recorded x ty p i.last) x
        (src.take s.source.1 ty p).1 ∧
      ∀ y, y ≠ x → ((s.place src.recorded x ty p i.last).placeOf y).isRegister = true →
        (s.place src.recorded x ty p i.last).placeOf y = s.placeOf y := by
    rcases place_cases src.recorded ty p i.last (h.lt_size hd) hax
      with hplain | ⟨rfl, hstack, v, hv, -, hvd, -, hswap⟩
    · exact ⟨.plain hplain, fun y hy _ => by rw [hplain, if_neg hy]⟩
    · refine ⟨.swap v hv (Set.notMem_empty _) (not_isParameter_of_declared hd)
        (not_isParameter_of_declared ((h.decls v.id).symm.trans hvd)) hswap, fun y hy hreg => ?_⟩
      rw [hswap, if_neg hy] at hreg ⊢
      split_ifs with hyv
      · rw [if_pos hyv] at hreg
        exact absurd hreg (Bool.eq_false_iff.1 (Storage.isRegister_of_isStack hstack))
      · rfl
  have hended : ∀ y ∈ done, (s.place src.recorded x ty p i.last).placeOf x =
      (s.place src.recorded x ty p i.last).placeOf y → ∀ j, iv y = some j → j.last ≤ i.first := by
    intro y hy hsame j hj
    refine h.toSeating.ended_of_same hx hπ hfresh hplacing hy hsame ?_ hj
    exact (hplacing.assigned_iff (fun a ha => (h.active a ha).2.1) hπ x).2 (.inl rfl)
  refine
    { h.toSeating.placing hx hi hπ hfresh hplacing hneeds' hdecl rfl with
      history := h.history.take ty p
      held := ?_
      apart := ?_ }
  · rw [hplacing.held_eq hax rfl, ← h.held]
    rfl
  · intro y hy z hz hyz hsame hreg j k hj hk
    rcases hy with rfl | hy
    · rcases hz with rfl | hz
      · exact absurd rfl hyz
      · obtain rfl : i = j := Option.some.inj (hi.symm.trans hj)
        exact .inr (hended z hz hsame k hk)
    · rcases hz with rfl | hz
      · obtain rfl : i = k := Option.some.inj (hi.symm.trans hk)
        exact .inl (hended y hy hsame.symm j hj)
      · have hyx : y ≠ x := fun hyx => hx (hyx ▸ hy)
        have hzx : z ≠ x := fun hzx => hx (hzx ▸ hz)
        have hy' := hkept y hyx hreg
        have hz' := hkept z hzx (hsame ▸ hreg)
        exact h.apart y hy z hz hyz (hy'.symm.trans (hsame.trans hz')) (hy' ▸ hreg) j k hj hk

theorem Visited.visit (hsrc : src.Conforming start) {i : Interval} {d : Ty × Bool}
    (h : Visited src start decl iv s now done) (hnow : now ≤ i.first) (hx : x ∉ done)
    (hi : iv x = some i) (hd : decl x = some d) :
    Visited src start decl iv (s.visit src.recorded x i) i.first (insert x done) := by
  have h' := h.expire hnow
  obtain ⟨ty, p⟩ := d
  rcases visit_cases src.recorded i ((h.decls x).trans hd) with ⟨hpoint, rfl, hvisit⟩
    | ⟨hneeds, hvisit⟩
  · rw [hvisit]
    refine { h'.toSeating.skip hx hi hpoint (not_isParameter_of_declared hd) with
      history := h'.history, held := h'.held, apart := ?_ }
    -- The local that goes by has no place.
    have hne : ∀ y, ((s.expire src.recorded i.first).placeOf y).isRegister = true → y ≠ x := by
      rintro y hreg rfl
      rw [h'.outside y hx] at hreg
      exact Bool.false_ne_true hreg
    intro y hy z hz hyz hsame hreg
    exact h'.apart y (hy.resolve_left (hne y hreg)) z (hz.resolve_left (hne z (hsame ▸ hreg))) hyz
      hsame hreg
  · rw [hvisit]
    exact h'.place hsrc hx hi hd hneeds

end

end Allocator

/-! ## Allocation of a routine -/

section

variable {σ : Type} {src : LocationSource σ} {start : σ} {r : Routine}

theorem Routine.locals_allocate (src : LocationSource σ) (start : σ) (r : Routine) :
    (r.allocate src start).1.locals =
      (Allocator.visits src (allocationOrder r.locals)
        { locals := r.locals, source := start }).locals :=
  rfl

/-- All along an allocation, what has been visited is as it should be. -/
theorem Routine.visited (hsrc : src.Conforming start)
    (hclear : ∀ x, storageOf r.locals x = .unassigned) {done rest : List (LocalId × Interval)}
    (horder : allocationOrder r.locals = done ++ rest) :
    ∃ now, (∀ e ∈ rest, now ≤ e.2.first) ∧
      Allocator.Visited src start (declared r.locals) (intervalOf r.locals)
        (Allocator.visits src.recorded done { locals := r.locals, source := (start, []) }) now
        (Allocator.visited done) := by
  -- on the visits so far, of which the latest is the last
  induction done using List.reverseRecOn generalizing rest with
  | nil =>
    obtain ⟨now, hnow⟩ := exists_le_first r.locals
    refine ⟨now, fun e he => hnow e (horder ▸ he), ?_⟩
    rw [show Allocator.visited [] = ∅ by ext; simp [Allocator.visited]]
    exact { Allocator.Seating.start hclear (start, []) (intervalOf r.locals) now with
      history := .start
      held := by simp [outstanding, Allocator.held, Allocator.visits]
      apart := by simp }
  | append_singleton done e ih =>
    rw [List.append_assoc, List.singleton_append] at horder
    obtain ⟨now, hnow, h⟩ := ih horder
    have hmem : e ∈ allocationOrder r.locals := horder ▸ List.mem_append_right _ List.mem_cons_self
    obtain ⟨ty, p, hd⟩ := declared_of_mem_allocationOrder hmem
    have hnodup := allocationOrder_nodup r.locals
    have hsorted := allocationOrder_sorted r.locals
    rw [horder] at hsorted hnodup
    rw [List.map_append, List.map_cons] at hnodup
    have hout : e.1 ∉ Allocator.visited done := fun hx =>
      (List.nodup_append.mp hnodup).2.2 e.1 hx e.1 List.mem_cons_self rfl
    refine ⟨e.2.first, (List.pairwise_cons.1 (List.pairwise_append.1 hsorted).2.1).1, ?_⟩
    have hstep := h.visit hsrc (hnow e List.mem_cons_self) hout (mem_allocationOrder.1 hmem) hd
    rw [← Allocator.visited_append_singleton] at hstep
    rwa [Allocator.visits, List.foldl_append]

/-- Under any conforming target, no two locals whose intervals overlap end up in one register; a
local has a place just if it is live and is a parameter or its interval is longer than a point; and
all along, the places that are out are held by the active locals, each by one. -/
theorem registers_apart (src : LocationSource σ) (start : σ) (hsrc : src.Conforming start)
    (r : Routine) (hclear : ∀ x, storageOf r.locals x = .unassigned) :
    (∀ x y i j n, x ≠ y → intervalOf r.locals x = some i → intervalOf r.locals y = some j →
      i.overlaps j = true → storageOf (r.allocate src start).1.locals x = .register n →
      storageOf (r.allocate src start).1.locals y ≠ .register n) ∧
    (∀ x, storageOf (r.allocate src start).1.locals x ≠ .unassigned ↔
      ∃ i, intervalOf r.locals x = some i ∧
        (Allocator.IsParameter (declared r.locals) x ∨ i.first ≠ i.last)) ∧
    ∀ done rest, allocationOrder r.locals = done ++ rest →
      (Allocator.visits src.recorded done { locals := r.locals, source := (start, []) }).forget =
          Allocator.visits src done { locals := r.locals, source := start } ∧
        Allocator.Accounted src start
          (Allocator.visits src.recorded done { locals := r.locals, source := (start, []) }) ∧
        ∀ e ∈ rest.head?, Allocator.Accounted src start
          ((Allocator.visits src.recorded done
            { locals := r.locals, source := (start, []) }).expire src.recorded e.2.first) := by
  obtain ⟨now, -, hrun⟩ := r.visited hsrc hclear (List.append_nil _).symm
  have hforget := Allocator.forget_visits src (allocationOrder r.locals)
    { locals := r.locals, source := (start, []) }
  have hplace : ∀ x, (Allocator.visits src.recorded (allocationOrder r.locals)
      { locals := r.locals, source := (start, []) }).placeOf x =
        storageOf (r.allocate src start).1.locals x := fun x =>
    congrArg (fun s => Allocator.placeOf s x) hforget
  rw [Allocator.visited, setOf_mem_allocationOrder] at hrun
  have hlive : ∀ {x i}, intervalOf r.locals x = some i → x ∈ {x | intervalOf r.locals x ≠ none} :=
    fun hi => by simp [hi]
  refine ⟨?_, ?_, ?_⟩
  · intro x y i j n hxy hi hj hoverlaps hx hy
    rw [← hplace] at hx hy
    have hreg : ((Allocator.visits src.recorded (allocationOrder r.locals)
        { locals := r.locals, source := (start, []) }).placeOf x).isRegister = true := by
      rw [hx]
      rfl
    have hapart := hrun.apart x (hlive hi) y (hlive hj) hxy (hx.trans hy.symm) hreg i j hi hj
    simp only [Interval.overlaps, Bool.and_eq_true, decide_eq_true_eq] at hoverlaps
    omega
  · intro x
    rw [← hplace]
    cases hi : intervalOf r.locals x with
    | none => simp [hrun.outside x (by simp [hi])]
    | some i =>
      rw [hrun.placed x (hlive hi) i hi, or_comm]
      simp
  · intro done rest horder
    obtain ⟨now, hnow, hdone⟩ := r.visited hsrc hclear horder
    refine ⟨Allocator.forget_visits _ _ _, hdone.accounted, fun e he => ?_⟩
    exact (hdone.expire (hnow e (List.mem_of_mem_head? he))).accounted

end

/-! ## A target that uses slots again -/

/-- The number of slots up to a place. -/
def Storage.slotEnd : Storage → Nat
  | .stack slot => slot + 1
  | _ => 0

/-- The slot above all that are out. -/
def slotAbove (out : List Storage) : Nat := out.foldr (fun place n => max place.slotEnd n) 0

/-- Hands out the first free one of some registers, or else the slot above all that are out. It
keeps in mind what is out and no more, so that registers and slots are used again. -/
def recycling (registers : List UInt8) : LocationSource (List Storage) where
  take out _ _ :=
    let place := ((registers.map Storage.register).find? (· ∉ out)).getD (.stack (slotAbove out))
    (place, place :: out)
  giveBack out place := out.filter (· ≠ place)

theorem slotEnd_le_slotAbove {out : List Storage} {place : Storage} (h : place ∈ out) :
    place.slotEnd ≤ slotAbove out := by
  induction out with
  | nil => exact absurd h List.not_mem_nil
  | cons first rest ih =>
    rw [slotAbove, List.foldr_cons]
    rcases List.mem_cons.1 h with rfl | h
    · exact le_max_left _ _
    · exact (ih h).trans (le_max_right _ _)

theorem recycling_take (registers : List UInt8) (out : List Storage) (ty : Ty)
    (isParameter : Bool) :
    ((recycling registers).take out ty isParameter).1 ≠ .unassigned ∧
      ((recycling registers).take out ty isParameter).1 ∉ out := by
  show Option.getD (List.find? _ _) _ ≠ _ ∧ Option.getD (List.find? _ _) _ ∉ out
  cases h : (registers.map Storage.register).find? (· ∉ out) with
  | some place =>
    obtain ⟨n, -, rfl⟩ := List.mem_map.1 (List.mem_of_find?_eq_some h)
    have hfree := List.find?_some h
    exact ⟨Storage.noConfusion, of_decide_eq_true hfree⟩
  | none =>
    refine ⟨Storage.noConfusion, fun hmem => ?_⟩
    exact absurd (slotEnd_le_slotAbove hmem) (Nat.not_succ_le_self _)

theorem recycling_conforming (registers : List UInt8) : (recycling registers).Conforming [] := by
  -- What the target keeps in mind is what is out.
  have hout : ∀ st calls, (recycling registers).History [] st calls →
      ∀ place, place ∈ st ↔ place ∈ outstanding calls := by
    intro st calls h
    induction h with
    | start => simp [outstanding]
    | take h ty isParameter ih =>
      intro place
      show place ∈ _ :: _ ↔ place ∈ insert _ _
      rw [List.mem_cons, Set.mem_insert_iff, ih]
      rfl
    | giveBack h hplace ih =>
      intro place
      show place ∈ List.filter _ _ ↔ place ∈ _ \ _
      rw [List.mem_filter, Set.mem_sdiff, Set.mem_singleton_iff, ih, decide_eq_true_eq]
  intro st calls h ty isParameter
  obtain ⟨hassigned, hfresh⟩ := recycling_take registers st ty isParameter
  exact ⟨hassigned, fun hmem => hfresh ((hout st calls h _).2 hmem)⟩

/-- Four locals for one register. The second lives on the stack while the third is in the register,
and when the second has ended, the fourth takes its slot and changes places with the third. -/
def crowded : Routine where
  id := 0
  fullName := "main.crowded"
  locals := #[
    { name := "$result", ty := .int },
    { name := "a", ty := .int, interval := some ⟨0, 2⟩ },
    { name := "b", ty := .int, interval := some ⟨0, 6⟩ },
    { name := "c", ty := .int, interval := some ⟨2, 10⟩ },
    { name := "d", ty := .int, interval := some ⟨6, 8⟩ }]
  paramCount := 0
  body := .seq { ty := .void } []

theorem allocationOrder_crowded :
    allocationOrder crowded.locals = [(1, ⟨0, 2⟩), (2, ⟨0, 6⟩), (3, ⟨2, 10⟩), (4, ⟨6, 8⟩)] :=
  List.mergeSort_of_pairwise (by decide)

theorem storageOf_crowded (x : LocalId) : storageOf crowded.locals x = .unassigned := by
  have hall : ∀ l ∈ crowded.locals, l.storage = .unassigned := by decide
  unfold storageOf
  cases h : crowded.locals[x]? with
  | none => rfl
  | some l => exact hall l (Array.mem_of_getElem? h)

theorem allocate_crowded :
    storageOf (crowded.allocate (recycling [0]) []).1.locals 2 = .stack 0 ∧
      storageOf (crowded.allocate (recycling [0]) []).1.locals 3 = .stack 0 ∧
      storageOf (crowded.allocate (recycling [0]) []).1.locals 4 = .register 0 := by
  rw [Routine.locals_allocate, allocationOrder_crowded]
  decide

theorem registers_apart_crowded :
    (recycling [0]).Conforming [] ∧ (∀ x, storageOf crowded.locals x = .unassigned) ∧
      Interval.overlaps ⟨6, 8⟩ ⟨2, 10⟩ = true ∧
      storageOf (crowded.allocate (recycling [0]) []).1.locals 4 = .register 0 ∧
      storageOf (crowded.allocate (recycling [0]) []).1.locals 3 ≠ .register 0 :=
  ⟨recycling_conforming [0], storageOf_crowded, by decide, allocate_crowded.2.2,
    (registers_apart (recycling [0]) [] (recycling_conforming [0]) crowded storageOf_crowded).1 4 3
      ⟨6, 8⟩ ⟨2, 10⟩ 0 (by decide) rfl rfl (by decide) allocate_crowded.2.2⟩

/-- What holds of registers fails for slots: the second and the third local overlap and share a
slot. -/
theorem slot_shared_crowded :
    (recycling [0]).Conforming [] ∧ (∀ x, storageOf crowded.locals x = .unassigned) ∧
      (∀ x i, intervalOf crowded.locals x = some i → i.first ≤ i.last) ∧
      ∃ i j, intervalOf crowded.locals 2 = some i ∧ intervalOf crowded.locals 3 = some j ∧
        i.overlaps j = true ∧
        storageOf (crowded.allocate (recycling [0]) []).1.locals 2 = .stack 0 ∧
        storageOf (crowded.allocate (recycling [0]) []).1.locals 3 = .stack 0 := by
  refine ⟨recycling_conforming [0], storageOf_crowded, ?_, ⟨0, 6⟩, ⟨2, 10⟩, rfl, rfl, by decide,
    allocate_crowded.1, allocate_crowded.2.1⟩
  have hall : ∀ l ∈ crowded.locals, ∀ i ∈ l.interval, i.first ≤ i.last := by decide
  intro x i hi
  obtain ⟨l, hl, hi⟩ := Option.bind_eq_some_iff.1 hi
  exact hall l (Array.mem_of_getElem? hl) i hi

end Codewright
