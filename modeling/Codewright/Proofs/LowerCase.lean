import Mathlib
import Codewright.Symbols

/-!
# Lower case of joined names

A sigma looks at its surroundings, so the lower-case form of a text is not put together from those
of its parts. Here is exactly when it is, for two names with a dot between them (`foldName_join`):
unless a sigma that ends or starts a name next to the dot sees a letter behind the dot
(`SigmaAtDot`). All other characters are mapped on their own, and a dot comes from a dot only.
-/

namespace Codewright.Text

open List (append_inj)

/-! ## Characters in their surroundings -/

variable {before before' after after' xs ys cs : List Char} {c : Char}

/-- The number of characters that one becomes does not depend on its surroundings. -/
theorem length_lowerChar (before before' : List Char) (c : Char) (after after' : List Char) :
    (lowerChar before c after).length = (lowerChar before' c after').length := by
  unfold lowerChar
  split
  · rfl
  · split <;> rfl

/-- Only a sigma depends on its surroundings. -/
theorem lowerChar_eq_iff : lowerChar before c after = lowerChar before' c after' ↔
    (c = 'Σ' → endsWord before after = endsWord before' after') := by
  by_cases hc : c = 'Σ'
  · subst hc
    simp only [lowerChar, beq_self_eq_true, if_true, forall_true_left]
    cases endsWord before after <;> cases endsWord before' after' <;> decide
  · simp [lowerChar, hc]

/-- The lower-case form of `cs` between the reversed text `before` and the text `after`. -/
def lowerAmid (before : List Char) : List Char → List Char → List Char
  | [], _ => []
  | c :: cs, after => lowerChar before c (cs ++ after) ++ lowerAmid (c :: before) cs after

theorem lowerAmid_nil_right (before cs : List Char) :
    lowerAmid before cs [] = lowerFrom before cs := by
  induction cs generalizing before with
  | nil => rfl
  | cons c cs ih => rw [lowerAmid, lowerFrom, List.append_nil, ih]

theorem lowerFrom_append (before cs after : List Char) :
    lowerFrom before (cs ++ after) = lowerAmid before cs after ++
        lowerFrom (cs.reverse ++ before) after := by
  induction cs generalizing before with
  | nil => rfl
  | cons c cs ih =>
    rw [List.cons_append, lowerFrom, ih, lowerAmid, List.append_assoc, List.reverse_cons,
      List.append_assoc, List.singleton_append]

theorem length_lowerAmid (before before' cs after after' : List Char) :
    (lowerAmid before cs after).length = (lowerAmid before' cs after').length := by
  induction cs generalizing before before' with
  | nil => rfl
  | cons c cs ih =>
    rw [lowerAmid, lowerAmid, List.length_append, List.length_append, ih _ (c :: before'),
      length_lowerChar]

/-- Other surroundings make no difference to a text if they make none to its sigmas. -/
theorem lowerAmid_eq_iff : lowerAmid before cs after = lowerAmid before' cs after' ↔
    ∀ pre rest, cs = pre ++ 'Σ' :: rest →
      endsWord (pre.reverse ++ before) (rest ++ after)
        = endsWord (pre.reverse ++ before') (rest ++ after') := by
  induction cs generalizing before before' with
  | nil =>
    refine iff_of_true rfl fun pre rest h => ?_
    simp at h
  | cons c cs ih =>
    rw [lowerAmid, lowerAmid]
    constructor
    · intro h pre rest hcs
      obtain ⟨hchar, hmore⟩ := append_inj h (length_lowerChar _ _ _ _ _)
      cases pre with
      | nil =>
        obtain ⟨rfl, rfl⟩ := List.cons.inj hcs
        exact lowerChar_eq_iff.mp hchar rfl
      | cons c' pre =>
        obtain ⟨rfl, rfl⟩ := List.cons.inj hcs
        have hsigma := ih.mp hmore pre rest rfl
        rwa [List.reverse_cons, List.append_assoc, List.append_assoc]
    · intro h
      have hchar : lowerChar before c (cs ++ after) = lowerChar before' c (cs ++ after') :=
        lowerChar_eq_iff.mpr fun hc => h [] cs (by rw [hc]; rfl)
      have hmore : lowerAmid (c :: before) cs after = lowerAmid (c :: before') cs after' := by
        refine ih.mpr fun pre rest hcs => ?_
        have hsigma := h (c :: pre) rest (by rw [hcs]; rfl)
        rwa [List.reverse_cons, List.append_assoc, List.append_assoc] at hsigma
      rw [hchar, hmore]

/-! ## Ends of words -/

/-- Whether only case-ignorable characters stand in the text. -/
def allIgnorable (cs : List Char) : Bool := cs.all caseIgnorableRanges.holds

theorem leadsToCased_append : leadsToCased (xs ++ ys) =
    if allIgnorable xs then leadsToCased ys else leadsToCased xs := by
  induction xs with
  | nil => rfl
  | cons x xs ih =>
    by_cases hx : caseIgnorableRanges.holds x = true
    · simp only [leadsToCased, allIgnorable, List.cons_append, List.all_cons,
        List.dropWhile_cons, hx, if_true, Bool.true_and] at ih ⊢
      exact ih
    · simp only [leadsToCased, allIgnorable, List.cons_append, List.all_cons,
        List.dropWhile_cons, hx]
      simp

theorem leadsToCased_of_ignorable (h : allIgnorable xs = true) : leadsToCased xs = false := by
  have happend := @leadsToCased_append xs []
  rwa [h, if_pos rfl, List.append_nil] at happend

theorem leadsToCased_dot (ys : List Char) : leadsToCased ('.' :: ys) = leadsToCased ys := by
  have hdot : allIgnorable ['.'] = true := by decide
  rw [← List.singleton_append, leadsToCased_append, if_pos hdot]

/-- What stands behind the dot changes a sigma of the first name that comes last in it, if a letter
follows. -/
theorem endsWord_before_dot {n : List Char} :
    endsWord before (xs ++ '.' :: n) = endsWord before xs ↔
      ¬ (leadsToCased before = true ∧ allIgnorable xs = true ∧ leadsToCased n = true) := by
  unfold endsWord
  rw [leadsToCased_append, leadsToCased_dot]
  by_cases hxs : allIgnorable xs = true
  · rw [if_pos hxs, leadsToCased_of_ignorable hxs]
    cases leadsToCased before <;> cases leadsToCased n <;> simp [hxs]
  · simp [hxs]

/-- What stands before the dot changes a sigma of the second name that comes first in it and ends
it, if a letter stands there. -/
theorem endsWord_behind_dot {m : List Char} :
    endsWord (xs ++ '.' :: m) after = endsWord xs after ↔
      ¬ (allIgnorable xs = true ∧ leadsToCased m = true ∧ leadsToCased after = false) := by
  unfold endsWord
  rw [leadsToCased_append, leadsToCased_dot]
  by_cases hxs : allIgnorable xs = true
  · rw [if_pos hxs, leadsToCased_of_ignorable hxs]
    cases leadsToCased m <;> cases leadsToCased after <;> simp [hxs]
  · simp [hxs]

/-! ## Two names with a dot between them -/

/-- A capital sigma next to the dot between two names, with only case-ignorable characters between
it and the dot, that ends a word or not depending on what stands on the other side of the dot. -/
def SigmaAtDot (m n : List Char) : Prop :=
  (∃ pre rest, m = pre ++ 'Σ' :: rest ∧ leadsToCased pre.reverse = true ∧ allIgnorable rest = true ∧
    leadsToCased n = true) ∨
  ∃ pre rest, n = pre ++ 'Σ' :: rest ∧ allIgnorable pre = true ∧ leadsToCased m.reverse = true ∧
    leadsToCased rest = false

theorem not_sigmaAtDot {m n : List Char} (hm : 'Σ' ∉ m) (hn : 'Σ' ∉ n) : ¬ SigmaAtDot m n := by
  rintro (⟨pre, rest, rfl, -⟩ | ⟨pre, rest, rfl, -⟩)
  · exact hm (List.mem_append_right _ List.mem_cons_self)
  · exact hn (List.mem_append_right _ List.mem_cons_self)

theorem lowerFrom_dot (before cs : List Char) :
    lowerFrom before ('.' :: cs) = '.' :: lowerFrom ('.' :: before) cs := by
  have hdot : lowerChar before '.' cs = ['.'] := by
    unfold lowerChar
    rw [if_neg (by decide), if_neg (by decide)]
    decide
  rw [lowerFrom, hdot, List.singleton_append]

/-- The joined names are lowered like the names apart, unless a sigma stands at the dot. -/
theorem lowerFrom_join (m n : List Char) :
    lowerFrom [] (m ++ '.' :: n) = lowerFrom [] m ++ '.' :: lowerFrom [] n ↔ ¬ SigmaAtDot m n := by
  have hbefore : lowerAmid [] m ('.' :: n) = lowerFrom [] m ↔
      ¬ ∃ pre rest, m = pre ++ 'Σ' :: rest ∧ leadsToCased pre.reverse = true ∧
        allIgnorable rest = true ∧ leadsToCased n = true := by
    rw [← lowerAmid_nil_right, lowerAmid_eq_iff]
    simp only [List.append_nil, endsWord_before_dot, not_exists, not_and]
  have hbehind : lowerFrom ('.' :: m.reverse) n = lowerFrom [] n ↔
      ¬ ∃ pre rest, n = pre ++ 'Σ' :: rest ∧ allIgnorable pre = true ∧
        leadsToCased m.reverse = true ∧ leadsToCased rest = false := by
    rw [← lowerAmid_nil_right, ← lowerAmid_nil_right, lowerAmid_eq_iff]
    simp only [List.append_nil, endsWord_behind_dot, allIgnorable, List.all_reverse, not_exists,
      not_and]
  rw [lowerFrom_append, List.append_nil, lowerFrom_dot, SigmaAtDot, not_or, ← hbefore, ← hbehind]
  constructor
  · intro h
    -- The parts before the dot are of one length, so the texts are equal part by part.
    have hlength : (lowerAmid [] m ('.' :: n)).length = (lowerFrom [] m).length := by
      rw [← lowerAmid_nil_right]
      exact length_lowerAmid _ _ _ _ _
    obtain ⟨hm, hn⟩ := append_inj h hlength
    exact ⟨hm, (List.cons.inj hn).2⟩
  · rintro ⟨hm, hn⟩
    rw [hm, hn]

/-! ## Dots -/

theorem lowerIn_eq_dot {n : Nat} {runs : List LowerRun}
    (hruns : ∀ run ∈ runs, '.'.toNat < run.image)
    (h : lowerIn n runs = '.'.toNat) : n = '.'.toNat := by
  induction runs with
  | nil => exact h
  | cons run runs ih =>
    rw [lowerIn] at h
    split at h
    · exact h
    · split at h
      · have hrun := hruns run List.mem_cons_self
        omega
      · exact ih (fun run hrun => hruns run (List.mem_cons_of_mem _ hrun)) h

theorem ofNat_eq_dot {n : Nat} (h : Char.ofNat n = '.') : n = '.'.toNat := by
  rw [← h]
  unfold Char.ofNat at h ⊢
  split
  · rfl
  · next hvalid =>
    rw [dif_neg hvalid] at h
    exact absurd h (by decide)

theorem dot_mem_lowerChar (h : '.' ∈ lowerChar before c after) : c = '.' := by
  unfold lowerChar at h
  split at h
  · split at h <;> simp at h
  · split at h
    · simp at h
    · have hdot : lowerIn c.toNat lowerRuns = '.'.toNat :=
        ofNat_eq_dot (List.mem_singleton.mp h).symm
      have hc := lowerIn_eq_dot (by decide +kernel) hdot
      rw [← Char.ofNat_toNat c, hc]
      rfl

theorem dot_mem_of_lowerFrom (h : '.' ∈ lowerFrom before cs) : '.' ∈ cs := by
  induction cs generalizing before with
  | nil => exact h
  | cons c cs ih =>
    rw [lowerFrom] at h
    rcases List.mem_append.mp h with h | h
    · rw [dot_mem_lowerChar h]
      exact List.mem_cons_self
    · exact List.mem_cons_of_mem _ (ih h)

end Codewright.Text

namespace Codewright

open Text

theorem toList_foldName (name : String) : (foldName name).toList = lowerFrom [] name.toList :=
  String.toList_ofList

theorem toList_join (m n : String) : (m ++ "." ++ n).toList = m.toList ++ '.' :: n.toList := by
  rw [String.toList_append, String.toList_append, List.append_assoc]
  rfl

/-- A name folded as a whole is the full name of its parts, unless a sigma stands at the dot. -/
theorem foldName_join (m n : String) :
    foldName (m ++ "." ++ n) = fullName m n ↔ ¬ SigmaAtDot m.toList n.toList := by
  rw [← lowerFrom_join, ← String.toList_inj, toList_foldName, fullName, toList_join, toList_join,
    toList_foldName, toList_foldName]

theorem dot_notMem_foldName {n : String} (h : '.' ∉ n.toList) : '.' ∉ (foldName n).toList := by
  rw [toList_foldName]
  exact fun hmem => h (dot_mem_of_lowerFrom hmem)

theorem dot_mem_foldName_join (m n : String) : '.' ∈ (foldName (m ++ "." ++ n)).toList := by
  rw [toList_foldName, toList_join, lowerFrom_append, List.append_nil, lowerFrom_dot]
  exact List.mem_append_right _ List.mem_cons_self

end Codewright
