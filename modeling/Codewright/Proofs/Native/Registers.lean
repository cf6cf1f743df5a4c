import Codewright.Native.Register
import Codewright.Proofs.Allocation

/-!
# The registers keep their promises

A register that is free is not held and stands once among the free ones. The registers of parameters
that are still to come are neither free nor used. Stack slots are always new. No register is handed
out that is not one for arguments.
-/

namespace Codewright.Native

/-- The register of the parameter at a position of a list of types. -/
def registerAt? (params : List Ty) (position : Nat) : Option Register :=
  params[position]?.bind (parameterRegister? position)

/-- Different positions have different registers. -/
theorem argumentRegister_inj : ∀ j k : Fin 4, ∀ b b' : Bool,
    (if b then Register.firstVector + j.val.toUInt8 else argumentRegisters[j.val]?.getD 0) =
      (if b' then Register.firstVector + k.val.toUInt8 else argumentRegisters[k.val]?.getD 0) →
    j = k := by
  decide

theorem parameterRegister?_eq {j : Nat} {ty : Ty} {r : Register}
    (h : parameterRegister? j ty = some r) : j < 4 ∧ r =
      if usesVector ty then Register.firstVector + j.toUInt8 else argumentRegisters[j]?.getD 0 := by
  unfold parameterRegister? at h
  obtain ⟨general, hg, rfl⟩ := Option.map_eq_some_iff.mp h
  refine ⟨(List.getElem?_eq_some_iff.mp hg).1, ?_⟩
  rw [hg]
  rfl

/-- Parameters at different positions arrive in different registers, whatever their types. -/
theorem parameterRegister?_inj {j k : Nat} {ty ty' : Ty} {r : Register}
    (h : parameterRegister? j ty = some r) (h' : parameterRegister? k ty' = some r) : j = k := by
  obtain ⟨hj, rfl⟩ := parameterRegister?_eq h
  obtain ⟨hk, heq⟩ := parameterRegister?_eq h'
  exact congrArg Fin.val (argumentRegister_inj ⟨j, hj⟩ ⟨k, hk⟩ _ _ heq)

/-- The registers for arguments, and so for all locals. -/
def localRegisters : List Register := argumentRegisters ++ [.xmm0, .xmm1, .xmm2, .xmm3]

theorem mem_localRegisters_of_parameter {position : Nat} {ty : Ty} {r : Register}
    (h : parameterRegister? position ty = some r) : r ∈ localRegisters := by
  have hall : ∀ j : Fin 4, ∀ b : Bool,
      (if b then Register.firstVector + j.val.toUInt8 else argumentRegisters[j.val]?.getD 0) ∈
        localRegisters := by
    decide
  obtain ⟨hlt, rfl⟩ := parameterRegister?_eq h
  exact hall ⟨position, hlt⟩ (usesVector ty)

namespace RegisterFile

/-- The registers fit what is out, with at most `n` parameters to come. -/
structure Fits (f : RegisterFile) (held used : Set Storage) (n : Nat) : Prop where
  held_used : held ⊆ used
  coming : f.nextParam + n ≤ f.params.length
  slot_lt : ∀ slot, .stack slot ∈ used → slot < f.slots
  nodup : (f.general ++ f.vector).Nodup
  free : ∀ r ∈ f.general ++ f.vector, .register r ∉ held
  reserved : ∀ j r, f.nextParam ≤ j → registerAt? f.params j = some r →
    .register r ∉ used ∧ r ∉ f.general ++ f.vector
  known : ∀ r, .register r ∈ used ∨ r ∈ f.general ++ f.vector → r ∈ localRegisters

variable {f : RegisterFile} {held used : Set Storage} {n : Nat}

/-- At the start nothing is out and the registers of parameters are kept back. -/
theorem Fits.ofParams {params : List Ty} (hn : n ≤ params.length) :
    Fits (.ofParams params) ∅ ∅ n where
  held_used := fun _ h => h
  coming := by simpa [RegisterFile.ofParams] using hn
  slot_lt := by simp
  nodup := by
    have hpools : (generalPool ++ vectorPool).Nodup := by decide
    exact hpools.sublist (List.filter_sublist.append List.filter_sublist)
  free := by simp
  reserved := by
    intro j r _ hr
    obtain ⟨ty, hty, hr⟩ := Option.bind_eq_some_iff.mp hr
    obtain ⟨hj, rfl⟩ := List.getElem?_eq_some_iff.mp hty
    have htaken : ∃ k, ∃ h : k < params.length, parameterRegister? k params[k] = some r :=
      ⟨j, hj, hr⟩
    simp [RegisterFile.ofParams, htaken]
  known := by
    rintro r (hused | hfree)
    · exact absurd hused (Set.notMem_empty _)
    · have hpools : generalPool ++ vectorPool ⊆ localRegisters := by decide
      have hsub :
        ((RegisterFile.ofParams params).general ++ (RegisterFile.ofParams params).vector).Sublist
          (generalPool ++ vectorPool) := List.filter_sublist.append List.filter_sublist
      exact hpools (hsub.subset hfree)

theorem Fits.slot_not_used (h : Fits f held used n) : .stack f.slots ∉ used :=
  fun hmem => Nat.lt_irrefl _ (h.slot_lt _ hmem)

/-- A fresh slot goes out. -/
theorem Fits.freshSlot (h : Fits f held used n) :
    Fits f.freshSlot.2 (insert (.stack f.slots) held) (insert (.stack f.slots) used) n where
  held_used := Set.insert_subset_insert h.held_used
  coming := h.coming
  slot_lt := by
    rintro slot (heq | hmem)
    · cases heq
      exact Nat.lt_succ_self _
    · exact Nat.lt_succ_of_lt (h.slot_lt slot hmem)
  nodup := h.nodup
  free := by
    rintro r hr (heq | hmem)
    · cases heq
    · exact h.free r hr hmem
  reserved := by
    intro j r hj hr
    obtain ⟨hu, hf⟩ := h.reserved j r hj hr
    refine ⟨?_, hf⟩
    rintro (heq | hmem)
    · cases heq
    · exact hu hmem
  known := by
    rintro r ((heq | hused) | hfree)
    · cases heq
    · exact h.known r (.inl hused)
    · exact h.known r (.inr hfree)

/-- A free register goes out. -/
theorem Fits.take_free (h : Fits f held used n) {r : Register} {general vector : List Register}
    (hperm : (f.general ++ f.vector).Perm (r :: (general ++ vector))) :
    Fits { f with general, vector } (insert (.register r) held) (insert (.register r) used) n := by
  have hnodup := hperm.nodup_iff.mp h.nodup
  rw [List.nodup_cons] at hnodup
  have hsub : ∀ r' ∈ general ++ vector, r' ∈ f.general ++ f.vector :=
    fun r' hr' => hperm.mem_iff.mpr (List.mem_cons_of_mem _ hr')
  refine
    { held_used := Set.insert_subset_insert h.held_used
      coming := h.coming
      slot_lt := ?_
      nodup := hnodup.2
      free := ?_
      reserved := ?_
      known := ?_ }
  · rintro slot (heq | hmem)
    · cases heq
    · exact h.slot_lt slot hmem
  · rintro r' hr' (heq | hmem)
    · cases heq
      exact hnodup.1 hr'
    · exact h.free r' (hsub r' hr') hmem
  · intro j r' hj hr'
    obtain ⟨hu, hf⟩ := h.reserved j r' hj hr'
    refine ⟨?_, fun hmem => hf (hsub r' hmem)⟩
    rintro (heq | hmem)
    · cases heq
      exact hf (hperm.mem_iff.mpr (by simp))
    · exact hu hmem
  · rintro r' ((heq | hused) | hfree)
    · cases heq
      exact h.known r (.inr (hperm.mem_iff.mpr (by simp)))
    · exact h.known r' (.inl hused)
    · exact h.known r' (.inr (hsub r' hfree))

/-- A register that comes back is free. -/
theorem Fits.give_free (h : Fits f held used n) {r : Register} (hr : .register r ∈ held)
    {general vector : List Register}
    (hperm : (general ++ vector).Perm (r :: (f.general ++ f.vector))) :
    Fits { f with general, vector } (held \ {.register r}) used n := by
  have hnot : r ∉ f.general ++ f.vector := fun hmem => h.free r hmem hr
  refine
    { held_used := fun _ hmem => h.held_used hmem.1
      coming := h.coming
      slot_lt := h.slot_lt
      nodup := hperm.nodup_iff.mpr (List.nodup_cons.mpr ⟨hnot, h.nodup⟩)
      free := ?_
      reserved := ?_
      known := ?_ }
  · rintro r' hr' ⟨hmem, hne⟩
    rcases List.mem_cons.mp (hperm.mem_iff.mp hr') with rfl | hr'
    · exact hne rfl
    · exact h.free r' hr' hmem
  · intro j r' hj hr'
    obtain ⟨hu, hf⟩ := h.reserved j r' hj hr'
    refine ⟨hu, fun hmem => ?_⟩
    rcases List.mem_cons.mp (hperm.mem_iff.mp hmem) with rfl | hmem
    · exact hu (h.held_used hr)
    · exact hf hmem
  · rintro r' (hused | hfree)
    · exact h.known r' (.inl hused)
    · rcases List.mem_cons.mp (hperm.mem_iff.mp hfree) with rfl | hfree
      · exact h.known r' (.inl (h.held_used hr))
      · exact h.known r' (.inr hfree)

theorem Fits.giveBack (h : Fits f held used n) {place : Storage} (hplace : place ∈ held) :
    Fits (f.giveBack place) (held \ {place}) used n := by
  -- A place that is not taken back is only held no more.
  have hforget : Fits f (held \ {place}) used n :=
    { h with
      held_used := fun _ hmem => h.held_used hmem.1
      free := fun r hr hmem => h.free r hr hmem.1 }
  cases place with
  | unassigned => exact hforget
  | stack slot => exact hforget
  | register r =>
    simp only [RegisterFile.giveBack]
    split
    · exact h.give_free hplace (.refl _)
    · split
      · exact h.give_free hplace List.perm_middle
      · exact hforget

theorem Fits.next (h : Fits f held used (n + 1)) :
    Fits { f with nextParam := f.nextParam + 1 } held used n :=
  { h with
    coming := by have := h.coming; simp only; omega
    reserved := fun j r hj => h.reserved j r (by simp only at hj; omega) }

/-- A parameter takes its own register, or a slot. -/
theorem Fits.takeParameter (h : Fits f held used (n + 1)) (ty : Ty) :
    (f.takeParameter ty).1 ≠ .unassigned ∧ (f.takeParameter ty).1 ∉ used ∧
    Fits (f.takeParameter ty).2 (insert (f.takeParameter ty).1 held)
      (insert (f.takeParameter ty).1 used) n := by
  have hlt : f.nextParam < f.params.length := by have := h.coming; omega
  unfold RegisterFile.takeParameter
  simp only [List.getElem?_eq_getElem hlt, Option.getD_some]
  cases hr : parameterRegister? f.nextParam f.params[f.nextParam] with
  | none => exact ⟨by simp [RegisterFile.freshSlot], h.next.slot_not_used, h.next.freshSlot⟩
  | some r =>
    have hat : registerAt? f.params f.nextParam = some r := by
      rw [registerAt?, List.getElem?_eq_getElem hlt]
      exact hr
    obtain ⟨hu, hf⟩ := h.reserved f.nextParam r (le_refl _) hat
    have h' := h.next
    refine ⟨by simp, hu, ?_⟩
    exact
      { held_used := Set.insert_subset_insert h'.held_used
        coming := h'.coming
        slot_lt := by
          rintro slot (heq | hmem)
          · cases heq
          · exact h'.slot_lt slot hmem
        nodup := h'.nodup
        free := by
          rintro r' hr' (heq | hmem)
          · cases heq
            exact hf hr'
          · exact h'.free r' hr' hmem
        reserved := by
          intro j r' hj hr'
          obtain ⟨hu', hf'⟩ := h'.reserved j r' hj hr'
          refine ⟨?_, hf'⟩
          rintro (heq | hmem)
          · cases heq
            obtain ⟨_, -, hk⟩ := Option.bind_eq_some_iff.mp hat
            obtain ⟨_, -, hj'⟩ := Option.bind_eq_some_iff.mp hr'
            have := parameterRegister?_inj hk hj'
            simp only at hj
            omega
          · exact hu' hmem
        known := by
          rintro r' ((heq | hused) | hfree)
          · cases heq
            exact mem_localRegisters_of_parameter hr
          · exact h.known r' (.inl hused)
          · exact h.known r' (.inr hfree) }

/-- The file gives out each register and slot to one holder at a time. -/
theorem lawful : source.Lawful Fits where
  take := by
    intro f held used n ty h
    have hslot : .stack f.slots ∉ held ∧ Fits f.freshSlot.2 (insert (.stack f.slots) held)
        (insert (.stack f.slots) used) n :=
      ⟨fun hmem => h.slot_not_used (h.held_used hmem), h.freshSlot⟩
    simp only [source, RegisterFile.take, Bool.false_eq_true, if_false]
    split
    · cases hv : f.vector with
      | nil =>
        exact ⟨by simp [RegisterFile.freshSlot], hslot.1, fun _ => .inl h.slot_not_used, hslot.2⟩
      | cons r rest =>
        refine ⟨by simp, h.free r (by simp [hv]), by simp [Storage.isStack], h.take_free ?_⟩
        rw [hv]
        exact List.perm_middle
    · cases hg : f.general with
      | nil =>
        exact ⟨by simp [RegisterFile.freshSlot], hslot.1, fun _ => .inl h.slot_not_used, hslot.2⟩
      | cons r rest =>
        refine ⟨by simp, h.free r (by simp [hg]), by simp [Storage.isStack], h.take_free ?_⟩
        rw [hg]
        exact .refl _
  takeParameter := by
    intro f held used n ty h
    exact h.takeParameter ty
  giveBack := fun h hplace => h.giveBack hplace
  held_used := fun h => h.held_used

end RegisterFile

end Codewright.Native
