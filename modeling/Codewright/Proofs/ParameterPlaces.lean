import Codewright.Proofs.StorageSharing

/-!
# Where the parameters live

Parameters are live from before the first point, so the allocator visits them before all other
locals and in the order of the table. Their places are handed out one after the other, and no local
that is visited later moves them: only locals that are no parameters change places. So a caller
knows where arguments go: on the stack machine into the first slots, and natively into the registers
of their positions.
-/

namespace Codewright

/-! ## Visits leave parameters where they are -/

/-- A target that hands out the places of parameters one after the other: `At st k` says that `k` of
them are out. -/
structure LocationSource.Counts {σ : Type} (src : LocationSource σ) (At : σ → Nat → Prop) :
    Prop where
  takeParameter : ∀ {st k} (ty : Ty), At st k → At (src.take st ty true).2 (k + 1)
  giveBack : ∀ {st k} (place : Storage), At st k → At (src.giveBack st place) k

namespace Allocator

variable {σ : Type} {src : LocationSource σ} {s : Allocator σ} {x z : LocalId} {i : Interval}

theorem declared_visit (s : Allocator σ) (x : LocalId) (i : Interval) (y : LocalId) :
    declared (s.visit src x i).locals y = declared s.locals y := by
  unfold visit
  dsimp only
  split
  · rfl
  · split
    · rfl
    · exact declared_place src (s.expire src i.first) x _ _ _ y

theorem declared_visits (order : List (LocalId × Interval)) (s : Allocator σ) (y : LocalId) :
    declared (order.foldl (fun s (x, i) => s.visit src x i) s).locals y = declared s.locals y := by
  induction order generalizing s with
  | nil => rfl
  | cons e rest ih => rw [List.foldl_cons, ih, declared_visit]

/-- Only a local that is no parameter lends its register to another. -/
theorem placeOf_place_parameter (hx : x < s.locals.size) (hz : IsParameter (declared s.locals) z)
    (hzx : z ≠ x) (ty : Ty) (isParameter : Bool) (last : Int) :
    (s.place src x ty isParameter last).placeOf z = s.placeOf z := by
  simp only [placeOf, locals_place]
  have hset : storageOf (setStorage s.locals x (src.take s.source ty isParameter).1) z =
      storageOf s.locals z := by
    rw [storageOf_setStorage hx, if_neg hzx]
  split
  · have hx' : x < (setStorage s.locals x (src.take s.source ty isParameter).1).size := by simpa
    rcases exchange_cases hx' s.active ty last (src.take s.source ty isParameter).1
      with he | ⟨v, -, -, hdecl, -, he⟩
    · rw [he, hset]
    · have hzv : z ≠ v.id := by
        rintro rfl
        obtain ⟨ty', hz⟩ := hz
        rw [declared_setStorage, hz] at hdecl
        cases hdecl
      rw [he, if_neg hzx, if_neg hzv, hset]
  · exact hset

theorem placeOf_visit_parameter (hz : IsParameter (declared s.locals) z) (hzx : z ≠ x) :
    (s.visit src x i).placeOf z = s.placeOf z := by
  unfold visit
  dsimp only
  cases hx : (s.expire src i.first).locals[x]?.map fun l => (l.ty, l.isParameter) with
  | none => rfl
  | some d =>
    obtain ⟨l, hl, -⟩ := Option.map_eq_some_iff.mp hx
    dsimp only
    split
    · rfl
    · exact placeOf_place_parameter (Array.getElem?_eq_some_iff.mp hl).1 hz hzx _ _ _

theorem placeOf_visits_parameter {order : List (LocalId × Interval)}
    (hz : IsParameter (declared s.locals) z) (hne : ∀ e ∈ order, e.1 ≠ z) :
    (order.foldl (fun s (x, i) => s.visit src x i) s).placeOf z = s.placeOf z := by
  induction order generalizing s with
  | nil => rfl
  | cons e rest ih =>
    have hz' : IsParameter (declared (s.visit src e.1 e.2).locals) z := by
      obtain ⟨ty, hz⟩ := hz
      exact ⟨ty, (declared_visit s e.1 e.2 z).trans hz⟩
    rw [List.foldl_cons, ih hz' fun e' he' => hne e' (List.mem_cons_of_mem _ he')]
    exact placeOf_visit_parameter hz (hne e List.mem_cons_self).symm

theorem visit_of_parameter {ty : Ty} (hd : declared s.locals x = some (ty, true)) :
    s.visit src x i = (s.expire src i.first).place src x ty true i.last := by
  have hd' : (s.expire src i.first).locals[x]?.map (fun l => (l.ty, l.isParameter))
      = some (ty, true) := hd
  unfold visit
  simp only [hd', Bool.not_true, Bool.and_false, Bool.false_eq_true, ↓reduceIte]

theorem placeOf_visit_self {ty : Ty} (hd : declared s.locals x = some (ty, true)) :
    (s.visit src x i).placeOf x = (src.take (s.expire src i.first).source ty true).1 := by
  obtain ⟨l, hl, -⟩ := Option.map_eq_some_iff.mp hd
  have hx : x < s.locals.size := (Array.getElem?_eq_some_iff.mp hl).1
  rw [visit_of_parameter hd, placeOf, locals_place, Bool.not_true, Bool.and_false]
  exact (storageOf_setStorage hx _ x).trans (if_pos rfl)

/-! ## Counting the parameters -/

section

variable {At : σ → Nat → Prop} {k : Nat}

theorem at_expire (hsrc : src.Counts At) (h : At s.source k) (first : Int) :
    At (s.expire src first).source k :=
  source_expire_of_giveBack (Q := fun st => At st k) (fun _ place => hsrc.giveBack place) h first

theorem at_visits (hsrc : src.Counts At) {order : List (LocalId × Interval)}
    (hparams : ∀ e ∈ order, IsParameter (declared s.locals) e.1) (h : At s.source k) :
    At (order.foldl (fun s (x, i) => s.visit src x i) s).source (k + order.length) := by
  induction order generalizing s k with
  | nil => exact h
  | cons e rest ih =>
    obtain ⟨ty, hd⟩ := hparams e List.mem_cons_self
    have hvisit : At (s.visit src e.1 e.2).source (k + 1) := by
      rw [visit_of_parameter hd, source_place]
      exact hsrc.takeParameter ty (at_expire hsrc h e.2.first)
    rw [List.foldl_cons, List.length_cons, Nat.add_comm rest.length, ← Nat.add_assoc]
    refine ih (fun e' he' => ?_) hvisit
    obtain ⟨ty', hd'⟩ := hparams e' (List.mem_cons_of_mem _ he')
    exact ⟨ty', (declared_visit s e.1 e.2 e'.1).trans hd'⟩

end

end Allocator

/-! ## The parameters come first -/

theorem sorted_allocationOrder_filter (locals : Locals) {p : LocalId × Interval → Bool}
    (hp : ∀ a b, p a → p b → a.2.first = b.2.first) :
    (((allocationOrder locals).filter p).map Prod.fst).Pairwise (· < ·) := by
  -- The sort is stable, so what begins at the same time stays in the order of the table.
  set live := locals.toList.zipIdx.filterMap fun e => e.1.interval.map (e.2, ·) with hlive
  have hle : (live.filter p).Pairwise fun a b : LocalId × Interval =>
      decide (a.2.first ≤ b.2.first) = true := by
    refine List.pairwise_of_forall_mem_list fun a ha b hb => ?_
    simpa using (hp a b (List.mem_filter.mp ha).2 (List.mem_filter.mp hb).2).le
  have hsub : (live.filter p).Sublist (allocationOrder locals) :=
    List.sublist_mergeSort (by simp only [decide_eq_true_eq]; omega)
      (by simp only [Bool.or_eq_true, decide_eq_true_eq]; omega) hle List.filter_sublist
  have hsub' : (live.filter p).Sublist ((allocationOrder locals).filter p) := by
    have := hsub.filter p
    simp only [List.filter_filter, Bool.and_self] at this
    exact this
  have hlen : (live.filter p).length = ((allocationOrder locals).filter p).length :=
    ((List.mergeSort_perm live _).filter p).length_eq.symm
  rw [← hsub'.eq_of_length hlen]
  exact (live_sorted locals.toList 0).1.sublist (List.filter_sublist.map _)

/-- Locals are visited in the order of their beginnings, and else of the table. -/
theorem allocationOrder_lex (locals : Locals) : (allocationOrder locals).Pairwise fun a b =>
    a.2.first < b.2.first ∨ a.2.first = b.2.first ∧ a.1 < b.1 := by
  rw [List.pairwise_iff_forall_sublist]
  intro a b hab
  have hle := List.pairwise_iff_forall_sublist.mp (allocationOrder_sorted locals) hab
  rcases lt_or_eq_of_le hle with hlt | heq
  · exact .inl hlt
  · have hsorted := sorted_allocationOrder_filter locals (p := fun e => e.2.first == b.2.first)
      fun c d hc hd => (beq_iff_eq.mp hc).trans (beq_iff_eq.mp hd).symm
    have hpair := (hab.filter fun e => e.2.first == b.2.first).map Prod.fst
    rw [List.filter_cons_of_pos (by simpa using heq), List.filter_cons_of_pos (by simp)] at hpair
    exact .inr ⟨heq, List.pairwise_iff_forall_sublist.mp hsorted hpair⟩

/-- What is sorted by a number begins with all that has a small one. -/
theorem filter_append_of_sorted {α : Type} {key : α → Int} {l : List α}
    (h : l.Pairwise fun a b => key a ≤ key b) (bound : Int) :
    l = l.filter (key · < bound) ++ l.filter (bound ≤ key ·) := by
  induction l with
  | nil => rfl
  | cons a rest ih =>
    obtain ⟨ha, hrest⟩ := List.pairwise_cons.mp h
    by_cases hlt : key a < bound
    · rw [List.filter_cons_of_pos (by simpa using hlt),
        List.filter_cons_of_neg (by simpa using hlt), List.cons_append, ← ih hrest]
    · have hnone : rest.filter (key · < bound) = [] := by
        refine List.filter_eq_nil_iff.mpr fun b hb => ?_
        have := ha b hb
        simp only [decide_eq_true_eq]
        omega
      have hall : rest.filter (bound ≤ key ·) = rest := by
        refine List.filter_eq_self.mpr fun b hb => ?_
        have := ha b hb
        simp only [decide_eq_true_eq]
        omega
      rw [List.filter_cons_of_neg (by simpa using hlt),
        List.filter_cons_of_pos (by simpa using hlt), hnone, hall, List.nil_append]

namespace Routine

variable {r : Routine} {σ : Type} {src : LocationSource σ} {At : σ → Nat → Prop}

theorem Arranged.mem_parameters_iff (h : r.Arranged) {x : LocalId} :
    x ∈ r.parameters ↔ ∃ k < r.paramCount, x = k + 1 := by
  rw [h.params]
  constructor
  · rintro ⟨h1, hle⟩
    exact ⟨x - 1, Nat.sub_one_lt_of_le h1 hle, (Nat.sub_add_cancel h1).symm⟩
  · rintro ⟨k, hk, rfl⟩
    exact ⟨Nat.le_add_left 1 k, hk⟩

/-- A parameter has the type that the routine gives at its position. -/
theorem Arranged.paramTypes_eq_localType (h : r.Arranged) {k : Nat} (hk : k < r.paramCount) :
    r.paramTypes[k]? = some (r.localType (k + 1)) := by
  obtain ⟨ty, hty⟩ := mem_parameters.mp (h.mem_parameters_iff.mpr ⟨k, hk, rfl⟩)
  rw [getElem?_paramTypes, if_pos hk, hty, localType_eq_of_declared hty]
  rfl

theorem Arranged.paramTypes_eq (h : r.Arranged) :
    r.paramTypes = (List.range' 1 r.paramCount).map r.localType := by
  refine List.ext_getElem? fun k => ?_
  by_cases hk : k < r.paramCount
  · rw [h.paramTypes_eq_localType hk, List.getElem?_map, List.getElem?_range' hk, Nat.one_mul,
      Nat.add_comm, Option.map_some]
  · rw [getElem?_paramTypes, if_neg hk, List.getElem?_eq_none]
    simpa using hk

/-- The parameters have the types that the routine gives for them. -/
theorem Arranged.localType_mem_paramTypes (h : r.Arranged) {x : LocalId} (hx : x ∈ r.parameters) :
    r.localType x ∈ r.paramTypes := by
  obtain ⟨k, hk, rfl⟩ := h.mem_parameters_iff.mp hx
  exact List.mem_of_getElem? (h.paramTypes_eq_localType hk)

/-- The parameters stand first in the order of allocation, one after the other. -/
theorem Arranged.allocationOrder_eq (h : r.Arranged) :
    ∃ ps rest, allocationOrder r.computeIntervals.locals = ps ++ rest ∧
      ps.map Prod.fst = List.range' 1 r.paramCount := by
  set order := allocationOrder r.computeIntervals.locals with horder
  have hmem : ∀ e, e ∈ order → e.2.first < 0 → e.1 ∈ r.parameters := by
    intro e he hneg
    by_contra hother
    have := computedInterval_other hother (mem_allocationOrder.mp he)
    omega
  have hfirst : ∀ e ∈ order, e.2.first < 0 → e.2.first = -1 := by
    intro e he hneg
    obtain ⟨i, hi, hfirst⟩ := computedInterval_parameter (hmem e he hneg)
    rw [Option.some.inj ((mem_allocationOrder.mp he).symm.trans hi)]
    exact hfirst
  refine ⟨order.filter (·.2.first < 0), order.filter (0 ≤ ·.2.first),
    filter_append_of_sorted (allocationOrder_sorted _) 0, ?_⟩
  have hsorted : ((order.filter (·.2.first < 0)).map Prod.fst).Pairwise (· < ·) := by
    have hsame : order.filter (·.2.first < 0) = order.filter (·.2.first == -1) :=
      List.filter_congr fun e he => by
        have := hfirst e he
        rw [Bool.eq_iff_iff, decide_eq_true_eq, beq_iff_eq]
        omega
    rw [hsame]
    refine sorted_allocationOrder_filter _ fun a b ha hb => ?_
    rw [beq_iff_eq] at ha hb
    rw [ha, hb]
  refine List.Pairwise.eq_of_mem_iff hsorted (List.pairwise_lt_range' 1) fun x => ?_
  have hrange : x ∈ List.range' 1 r.paramCount ↔ x ∈ r.parameters := by
    rw [List.mem_range'_1, h.params, Nat.add_comm, Nat.lt_succ_iff]
  rw [hrange, List.mem_map]
  constructor
  · rintro ⟨e, he, rfl⟩
    obtain ⟨he, hneg⟩ := List.mem_filter.mp he
    exact hmem e he (by simpa using hneg)
  · intro hx
    obtain ⟨i, hi, hneg⟩ := computedInterval_parameter hx
    exact ⟨(x, i), List.mem_filter.mpr ⟨mem_allocationOrder.mpr hi, by simp [hneg]⟩, rfl⟩

/-- When a parameter is visited, just the parameters before it have been. -/
theorem Arranged.allocationOrder_cut (h : r.Arranged) {k : Nat} (hk : k < r.paramCount) :
    ∃ before i after,
      allocationOrder r.computeIntervals.locals = before ++ (k + 1, i) :: after ∧
      before.map Prod.fst = List.range' 1 k := by
  obtain ⟨ps, rest, horder, hps⟩ := h.allocationOrder_eq
  have hrange : List.range' 1 r.paramCount =
      List.range' 1 k ++ (1 + k) :: List.range' (1 + k + 1) (r.paramCount - k - 1) := by
    rw [← List.range'_succ, List.range'_append_1]
    congr 1
    omega
  rw [hrange, List.map_eq_append_iff] at hps
  obtain ⟨before, tail, rfl, hbefore, htail⟩ := hps
  obtain ⟨⟨x, i⟩, after, rfl, rfl, -⟩ := List.map_eq_cons_iff.mp htail
  refine ⟨before, i, after ++ rest, ?_, hbefore⟩
  rw [horder, List.append_assoc, List.cons_append, Nat.add_comm k 1]

/-- The place of a parameter is what the target hands out when all parameters before it have
theirs. -/
theorem Arranged.place_parameter_eq (h : r.Arranged) (hsrc : src.Counts At) (start : σ)
    (hstart : At start 0) {k : Nat} (hk : k < r.paramCount) :
    ∃ st ty, At st k ∧ declared r.locals (k + 1) = some (ty, true) ∧
      storageOf (r.computeIntervals.allocate src start).1.locals (k + 1) =
        (src.take st ty true).1 := by
  obtain ⟨before, i, after, hcut, hbefore⟩ := h.allocationOrder_cut hk
  have hparam : ∀ n < r.paramCount,
      Allocator.IsParameter (declared r.computeIntervals.locals) (n + 1) := by
    intro n hn
    obtain ⟨ty, hd⟩ := mem_parameters.mp (h.mem_parameters_iff.mpr ⟨n, hn, rfl⟩)
    exact ⟨ty, (declared_computeIntervals r (n + 1)).trans hd⟩
  obtain ⟨ty, hd⟩ := hparam k hk
  set begun : Allocator σ := { locals := r.computeIntervals.locals, source := start }
  set s := before.foldl (fun s (x, i) => s.visit src x i) begun with hs
  have hdecl : declared s.locals (k + 1) = some (ty, true) := by
    rw [hs, Allocator.declared_visits]
    exact hd
  have hvisited : ∀ e ∈ before, Allocator.IsParameter (declared begun.locals) e.1 := by
    intro e he
    have hmem : e.1 ∈ List.range' 1 k := hbefore ▸ List.mem_map_of_mem he
    obtain ⟨n, hn, hen⟩ := List.mem_range'.mp hmem
    rw [hen, Nat.one_mul, Nat.add_comm]
    exact hparam n (hn.trans hk)
  have hat : At s.source k := by
    have hlen : before.length = k := by
      rw [← List.length_map (f := Prod.fst), hbefore, List.length_range']
    have hvisits := Allocator.at_visits hsrc hvisited hstart
    rwa [Nat.zero_add, hlen] at hvisits
  refine ⟨(s.expire src i.first).source, ty, Allocator.at_expire hsrc hat _, ?_, ?_⟩
  · rw [← declared_computeIntervals]
    exact hd
  have hafter : ∀ e ∈ after, e.1 ≠ k + 1 := by
    intro e he heq
    have hnodup := allocationOrder_nodup r.computeIntervals.locals
    rw [hcut, List.map_append, List.map_cons] at hnodup
    exact (List.nodup_cons.mp hnodup.of_append_right).1 (List.mem_map.mpr ⟨e, he, heq⟩)
  have hallocate : (r.computeIntervals.allocate src start).1.locals =
      (after.foldl (fun s (x, i) => s.visit src x i) (s.visit src (k + 1) i)).locals := by
    have hfold : (r.computeIntervals.allocate src start).1.locals =
        ((allocationOrder r.computeIntervals.locals).foldl (fun s (x, i) => s.visit src x i)
          begun).locals := rfl
    rw [hfold, hcut, List.foldl_append, List.foldl_cons]
  calc storageOf (r.computeIntervals.allocate src start).1.locals (k + 1)
      = (after.foldl (fun s (x, i) => s.visit src x i) (s.visit src (k + 1) i)).placeOf
          (k + 1) := by
        rw [hallocate, Allocator.placeOf]
    _ = (s.visit src (k + 1) i).placeOf (k + 1) :=
        Allocator.placeOf_visits_parameter ⟨ty, (Allocator.declared_visit s _ _ _).trans hdecl⟩
          hafter
    _ = (src.take (s.expire src i.first).source ty true).1 := Allocator.placeOf_visit_self hdecl

end Routine

/-! ## The two targets -/

namespace Bytecode

theorem SlotPool.counts : source.Counts fun pool k => pool.types.size = k where
  takeParameter := by
    rintro pool k ty rfl
    exact Array.size_push ty
  giveBack := by
    rintro pool k place rfl
    exact congrArg Array.size (types_giveBack pool place)

theorem place_parameter_eq_slot {r : Routine} (h : r.Arranged) {k : Nat} (hk : k < r.paramCount) :
    Target.bytecode.place r (k + 1) = .stack k := by
  obtain ⟨pool, ty, rfl, -, hplace⟩ := h.place_parameter_eq SlotPool.counts {} rfl hk
  exact hplace

end Bytecode

namespace Native

theorem RegisterFile.counts (params : List Ty) :
    source.Counts fun file k => file.nextParam = k ∧ file.params = params where
  takeParameter := by
    rintro file k ty ⟨rfl, rfl⟩
    show (file.take ty true).2.nextParam = _ ∧ (file.take ty true).2.params = _
    unfold take takeParameter
    rw [if_pos rfl]
    dsimp only
    split <;> exact ⟨rfl, rfl⟩
  giveBack := by
    rintro file k place ⟨rfl, rfl⟩
    show (file.giveBack place).nextParam = _ ∧ (file.giveBack place).params = _
    unfold giveBack
    split
    · split
      · exact ⟨rfl, rfl⟩
      · split <;> exact ⟨rfl, rfl⟩
    · exact ⟨rfl, rfl⟩

theorem place_parameter_eq_register {r : Routine} (h : r.Arranged) {k : Nat}
    (hk : k < r.paramCount) {ty : Ty} (hty : r.paramTypes[k]? = some ty) {register : Register}
    (hregister : parameterRegister? k ty = some register) :
    Target.x64.place r (k + 1) = .register register := by
  obtain ⟨file, ty', ⟨hnext, hparams⟩, -, hplace⟩ :=
    h.place_parameter_eq (RegisterFile.counts r.paramTypes) (.ofParams r.paramTypes) ⟨rfl, rfl⟩ hk
  refine hplace.trans ?_
  show (file.take ty' true).1 = _
  unfold RegisterFile.take RegisterFile.takeParameter
  rw [if_pos rfl]
  simp only [hnext, hparams, hty, Option.getD_some, hregister]

end Native

end Codewright
