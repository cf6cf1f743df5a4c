import Codewright.Proofs.Native.Assembly
import Codewright.Proofs.Native.Simulation

/-!
# Frames of assembled functions

A function that has been assembled has a small frame. Every local with a place is a parameter or is
mentioned in the body; parameters are in registers; and the emission has refused all slots that are
out of the reach of a signed byte. Locals are in registers for arguments or in slots of the frame,
so all places are homes, and the code names registers that exist.
-/

namespace Codewright

namespace Native

/-! ## Registers that exist -/

/-- A location is no register, or one that exists. -/
def Location.Exists (l : Location) : Prop := ∀ r, l = .register r → r < 32

section

variable {size : Nat} {dst src : Location} {i : Instruction}

/-- A number below 32 names a register. -/
theorem exists_register {r : Register} (h : r < 32) : Location.Exists (.register r) := by
  rintro r' hr'
  cases hr'
  exact h

/-- An instruction with two operands names registers that exist if both are. -/
theorem inRange_two {o o' : Bool × Register} (hi : i.operands = [o, o']) (h : o.2 < 32)
    (h' : o'.2 < 32) : i.InRange := by
  simpa [Instruction.InRange, hi] using ⟨h, h'⟩

attribute [local simp] Instruction.InRange Instruction.operands

/-- A move between places that exist uses registers that exist. -/
theorem inRange_move (hd : dst.Exists) (hs : src.Exists) : ∀ i ∈ moveCode dst src, i.InRange := by
  unfold moveCode
  split
  · simp
  cases dst with
  | register d =>
    have hd := hd d rfl
    cases src with
    | register s =>
      have hs := hs s rfl
      dsimp only
      split <;> simp [hd, hs]
    | stack k =>
      dsimp only
      split <;> simp [hd]
  | stack d =>
    cases src with
    | register s =>
      have hs := hs s rfl
      dsimp only
      split <;> simp [hs]
    | stack k =>
      have hr : Register.r11 < 32 := by decide
      simp [hr]

/-- Constants are written with registers that exist. -/
theorem inRange_constant (hd : dst.Exists) (v : Value) : ∀ i ∈ constantCode dst v, i.InRange := by
  have hr : Register.r11 < 32 := by decide
  unfold constantCode
  cases dst with
  | register d =>
    have hd := hd d rfl
    dsimp only
    split <;> simp [hd, hr]
  | stack d => simp [hr]

/-- A value is taken to its store with registers that exist. -/
theorem inRange_settle {store : Option Location} (hd : ∀ dst, store = some dst → dst.Exists)
    (hs : src.Exists) : ∀ i ∈ settleCode store src, i.InRange := by
  cases store with
  | none => simp [settleCode]
  | some dst => exact inRange_move (hd dst rfl) hs

theorem inRange_epilogue (size : Nat) : ∀ i ∈ epilogueCode size, i.InRange := by
  unfold epilogueCode
  split <;> simp

theorem inRange_prologue (size : Nat) : ∀ i ∈ prologueCode size, i.InRange := by
  unfold prologueCode
  split <;> simp

/-- Results are in a register that exists. -/
theorem exists_resultLocation (ty : Ty) : (Emit.resultLocation ty).Exists := by
  unfold Emit.resultLocation
  cases usesVector ty <;> exact exists_register (by decide)

/-- The code of an operator names registers that exist. -/
theorem Operated.inRange {op : Intrinsic} {lhs rhs computed : Location} {ty left right : Ty}
    {code : List Instruction} (h : Operated op lhs rhs ty left right code computed)
    (hl : lhs.Exists) (hr : rhs.Exists) : (∀ i ∈ code, i.InRange) ∧ computed.Exists := by
  cases h with
  | real | int =>
    refine ⟨List.forall_mem_append.mpr ⟨List.forall_mem_append.mpr ⟨?_, ?_⟩, ?_⟩,
      exists_register (by decide)⟩
    · exact inRange_move (exists_register (by decide)) hl
    · exact inRange_move (exists_register (by decide)) hr
    · simpa only [List.forall_mem_singleton] using inRange_two rfl (by decide) (by decide)

end

/-- Every place of a frame exists. -/
def Frame.PlacesExist (frame : Frame) : Prop :=
  ∀ x l, Located (storageOf frame.locals x) (some l) → l.Exists

section

variable {frame : Frame}

variable {l : Option Location} {t : Tree} {code : List Instruction}

/-- The location of a store exists. -/
theorem StoredAt.exists (hF : frame.PlacesExist) {store : Option LocalId}
    (h : StoredAt frame store l) : ∀ dst, l = some dst → dst.Exists := by
  rintro dst rfl
  cases h with
  | placed h => exact hF _ _ h

/-- The location of a value is its store or where it was computed. -/
theorem exists_getD {store : Option Location} {computed : Location}
    (hd : ∀ dst, store = some dst → dst.Exists) (hs : computed.Exists) :
    ∀ dst, some (store.getD computed) = some dst → dst.Exists := by
  rintro dst hdst
  cases hdst
  cases store with
  | none => exact hs
  | some dst => exact hd dst rfl

mutual

/-- The code of a tree names registers that exist, and so does the location of its value. -/
theorem Computed.inRange (hF : frame.PlacesExist) :
    ∀ {t : Tree} {code : List Instruction} {l : Option Location}, Computed frame t code l →
      (∀ i ∈ code, i.InRange) ∧ ∀ dst, l = some dst → dst.Exists
  | _, _, _, .const hs => by
    have hd := hs.exists hF
    exact ⟨inRange_constant (hd _ rfl) _, hd⟩
  | _, _, _, .dropped _ => by simp
  | _, _, _, .load hs hx => by
    have hd := hs.exists hF
    exact ⟨inRange_settle hd (hF _ _ hx), exists_getD hd (hF _ _ hx)⟩
  | _, _, _, .binary hs hl hlhs hr hrhs ho => by
    have hd := hs.exists hF
    obtain ⟨hcode, hcomputed⟩ := ho.inRange (hlhs.exists hF _ rfl) (hrhs.exists hF _ rfl)
    refine ⟨?_, exists_getD hd hcomputed⟩
    simp only [List.forall_mem_append]
    exact ⟨(hl.inRange hF).1, (hr.inRange hF).1, hcode, inRange_settle hd hcomputed⟩
  | _, _, _, .toReal hs ho hsource => by
    have hd := hs.exists hF
    have hcomputed : Location.Exists (.register .xmm4) := exists_register (by decide)
    refine ⟨?_, exists_getD hd hcomputed⟩
    simp only [List.forall_mem_append, List.forall_mem_cons]
    refine ⟨(ho.inRange hF).1, inRange_move (exists_register (by decide))
      (hsource.exists hF _ rfl), ?_,
      inRange_settle hd hcomputed⟩
    exact inRange_two rfl (by decide) (by decide)
  | _, _, _, .ret => ⟨inRange_epilogue _, by simp⟩
  | _, _, _, .retConst _ =>
    ⟨List.forall_mem_append.mpr ⟨inRange_constant (exists_resultLocation _) _,
      inRange_epilogue _⟩, by simp⟩
  | _, _, _, .retValue _ hv => by
    obtain ⟨hcode, hsource⟩ := hv.inRange hF
    refine ⟨List.forall_mem_append.mpr ⟨hcode, List.forall_mem_append.mpr ⟨?_, inRange_epilogue _⟩⟩,
      by simp⟩
    exact inRange_move (exists_resultLocation _) (hsource _ rfl)
  | _, _, _, .seq h => ⟨h.inRange hF, by simp⟩

theorem ComputedAll.inRange (hF : frame.PlacesExist) : ∀ {ts : List Tree} {code : List Instruction},
    ComputedAll frame ts code → ∀ i ∈ code, i.InRange
  | _, _, .nil => by simp
  | _, _, .cons ht hts => List.forall_mem_append.mpr ⟨(ht.inRange hF).1, hts.inRange hF⟩

end

/-! ## What is mentioned is in reach -/

/-- A local that is stored is in reach. -/
theorem StoredAt.reach {x : LocalId} (h : StoredAt frame (some x) l) :
    ∃ l, Located (storageOf frame.locals x) l := by
  cases h with
  | placed h => exact ⟨_, h⟩

/-- What an expression mentions is in reach. -/
theorem reach_expr (he : t.IsExpr) (h : Computed frame t code l) :
    ∀ x ∈ t.mentions, ∃ l, Located (storageOf frame.locals x) l := by
  induction t using Tree.induction generalizing code l with
  | const tag value =>
    intro x hx
    have hstore : tag.store = some x := by simpa [Tree.mentions, Tree.loads, Tree.stores] using hx
    cases h with
    | const hs | dropped hs =>
      rw [hstore] at hs
      exact hs.reach
  | load tag y =>
    intro x hx
    have hx : x = y ∨ tag.store = some x := by
      simpa [Tree.mentions, Tree.loads, Tree.stores] using hx
    cases h with
    | load hs hy =>
      rcases hx with rfl | hstore
      · exact ⟨_, hy⟩
      · rw [hstore] at hs
        exact hs.reach
  | failFast => cases h
  | operator t f hf ih =>
    intro x hx
    rw [Tree.isExpr_operator hf] at he
    rw [Tree.mem_mentions_operator hf] at hx
    cases h <;> cases hf
    case binary.refl tag _ left right _ _ _ _ _ _ _ _ _ hs hl _ hr _ _ =>
      simp only [Tree.mentionsAll_cons, Tree.mentionsAll_nil, List.append_nil,
        List.mem_append] at hx
      rcases hx with (hx | hx) | hx
      · exact ih left (by simp) (he left (by simp)) hl x hx
      · exact ih right (by simp) (he right (by simp)) hr x hx
      · rw [show tag.store = some x from hx] at hs
        exact hs.reach
    case toReal.refl tag operand _ _ _ _ hs ho _ =>
      simp only [Tree.mentionsAll_cons, Tree.mentionsAll_nil, List.append_nil] at hx
      rcases hx with hx | hx
      · exact ih operand (by simp) (he operand (by simp)) ho x hx
      · rw [show tag.store = some x from hx] at hs
        exact hs.reach
  | seq | ifThen | ifElse | loop | ret | retValue => exact he.elim

/-- The code of a sequence holds code for each of its trees. -/
theorem ComputedAll.of_mem {ts : List Tree} (h : ComputedAll frame ts code) (ht : t ∈ ts) :
    ∃ code l, Computed frame t code l := by
  induction ts generalizing code with
  | nil => cases ht
  | cons u rest ih =>
    cases h with
    | cons hu hrest =>
      rcases List.mem_cons.mp ht with rfl | ht
      · exact ⟨_, _, hu⟩
      · exact ih hrest ht

/-- What a statement mentions is in reach. -/
theorem reach_stmt {Γ U : Set LocalId} (hs : t.Scoped Γ U) (h : Computed frame t code l) :
    ∀ x ∈ t.mentions, ∃ l, Located (storageOf frame.locals x) l := by
  induction t using Tree.induction generalizing Γ U code l with
  | const | load => exact reach_expr (by trivial) h
  | operator t f hf _ => exact reach_expr ((Tree.scoped_operator hf).mp hs).isExpr h
  | failFast | ifThen | ifElse | loop => cases h
  | seq tag body ih =>
    intro x hx
    obtain ⟨hstore, hbody⟩ := Tree.scoped_seq.mp hs
    rcases Tree.mem_mentions_seq.mp hx with hx | hx
    · obtain ⟨a, ha, hx⟩ := List.mem_flatMap.mp hx
      obtain ⟨Γ', U', -, hscoped⟩ := hbody.of_mem ha
      cases h with
      | seq h =>
        obtain ⟨code, l, hcode⟩ := h.of_mem ha
        exact ih a ha hscoped hcode x hx
    · rw [show tag.store = some x from hx] at hstore
      cases hstore
  | ret tag =>
    intro x hx
    have hnone : tag.store = none := hs
    have hstore : tag.store = some x := by simpa [Tree.mentions, Tree.loads, Tree.stores] using hx
    cases hnone.symm.trans hstore
  | retValue tag value _ =>
    intro x hx
    rcases Tree.mem_mentions_retValue.mp hx with hx | hx
    · cases h with
      | retConst hc =>
        -- a constant without a store mentions nothing
        cases value <;>
          simp_all [Emit.unstoredConstant?, Tree.constant?, Tree.mentions, Tree.loads, Tree.stores,
            Tree.store, Tree.tag]
      | retValue _ hv => exact reach_expr hs.2.isExpr hv x hx
    · have hnone : tag.store = none := hs.1
      cases hnone.symm.trans hx

end

/-! ## Places of a routine -/

section

variable {r : Routine} {x : LocalId}

/-- A local with a place is a parameter or is mentioned. -/
theorem mentioned_of_place (h : r.WellScoped) (hx : Target.x64.place r x ≠ .unassigned) :
    x ∈ r.parameters ∨ x ∈ r.body.mentions := by
  obtain ⟨now, active, hinvariant⟩ := Routine.allocate_invariant RegisterFile.lawful
    r.storageOf_computeIntervals (h.arranged.fits_ofParams h.arranged.countP_parameters_le)
  by_contra hne
  obtain ⟨hparam, hmention⟩ := not_or.mp hne
  refine hx (hinvariant.outside x fun hsome => hsome ?_)
  exact Routine.computedInterval_eq_none hparam hmention

/-- Registers of locals are those meant for them. -/
theorem place_register_known (h : r.WellScoped) {register : Register}
    (hx : Target.x64.place r x = .register register) : register ∈ localRegisters := by
  obtain ⟨held, used, hfit, hused⟩ := Routine.allocate_used RegisterFile.lawful
    r.storageOf_computeIntervals (h.arranged.fits_ofParams h.arranged.countP_parameters_le)
  have hplace : Target.x64.place r x ∈ used := hused x (by
    show Target.x64.place r x ≠ _
    rw [hx]
    simp)
  rw [hx] at hplace
  exact hfit.known register (.inl hplace)

theorem exists_parameterRegister {k : Nat} (hk : k < argumentRegisters.length) (ty : Ty) :
    ∃ register, parameterRegister? k ty = some register := by
  rw [parameterRegister?, List.getElem?_eq_getElem hk]
  exact ⟨_, rfl⟩

/-- Parameters are not on the stack, if there are no more than there are registers for them. -/
theorem place_parameter_register (h : r.WellScoped)
    (hcount : r.paramCount ≤ argumentRegisters.length)
    (hx : x ∈ r.parameters) : ∃ register, Target.x64.place r x = .register register := by
  obtain ⟨k, hk, rfl⟩ := h.arranged.mem_parameters_iff.mp hx
  obtain ⟨register, hregister⟩ := exists_parameterRegister (Nat.lt_of_lt_of_le hk hcount)
    (r.localType (k + 1))
  exact ⟨register, place_parameter_eq_register h.arranged hk (h.arranged.paramTypes_eq_localType hk)
    hregister⟩

/-- The frame of an assembled function is small and houses all its locals. -/
theorem housed_frameOf (h : r.WellScoped) (hcount : r.paramCount ≤ argumentRegisters.length)
    {code : List Instruction} {l : Option Location}
    (hcode : Computed (frameOf r) (placedForm r).1.body code l) : Housed (frameOf r) := by
  have hscoped := h.toInPlace
  have hslot : ∀ x k, storageOf (frameOf r).locals x = .stack k → k < 16 := by
    intro x k hx
    have hplace : Target.x64.place r.toInPlace.1 x = .stack k := by rw [← storageOf_frameOf, hx]
    rcases mentioned_of_place hscoped (by rw [hplace]; simp) with hparam | hmention
    · obtain ⟨register, hregister⟩ := place_parameter_register hscoped hcount hparam
      cases hregister.symm.trans hplace
    · obtain ⟨l, hl⟩ := reach_stmt hscoped.inScope hcode x hmention
      rw [hx] at hl
      cases hl with
      | stack hlt =>
        rw [slotSize] at hlt
        omega
  have hslots : (frameOf r).size = (Allocation.ofLocals (frameOf r).locals).stackSlots * slotSize :=
    rfl
  refine ⟨?_, fun x hx => ?_⟩
  · rw [hslots, slotSize]
    have := Allocation.stackSlots_ofLocals_le.mpr hslot
    omega
  cases hplace : storageOf (frameOf r).locals x with
  | unassigned => exact absurd hplace hx
  | register register =>
    rw [storageOf_frameOf] at hplace
    have hknown := place_register_known hscoped hplace
    have hall : localRegisters.all (· ∉ .rsp :: scratch) = true := by decide
    have hfree : register ∉ .rsp :: scratch :=
      of_decide_eq_true (List.all_eq_true.mp hall register hknown)
    rw [List.mem_cons, not_or] at hfree
    refine ⟨_, .register register, .register hfree.1, fun r hr heq => hfree.2 ?_⟩
    rwa [Location.register.inj heq]
  | stack k =>
    have hk := hslot x k hplace
    have hlt := Allocation.stackSlots_ofLocals_le.mp (le_refl _) x k hplace
    have hreach : k * slotSize < 0x80 := by
      rw [slotSize]
      omega
    refine ⟨_, .stack hreach, .slot ?_, fun r _ heq => by cases heq⟩
    rw [hslots, slotSize]
    omega

/-- The places in the frame of a routine exist. -/
theorem placesExist_frameOf (h : r.WellScoped) : (frameOf r).PlacesExist := by
  intro x l hl register hregister
  rw [hregister, storageOf_frameOf] at hl
  have hplace : Target.x64.place r.toInPlace.1 x = .register register := by
    generalize Target.x64.place r.toInPlace.1 x = place at hl
    cases hl
    rfl
  have hlt : localRegisters.all (· < 32) = true := by decide
  exact of_decide_eq_true
    (List.all_eq_true.mp hlt register (place_register_known h.toInPlace hplace))

end

end Native

end Codewright
