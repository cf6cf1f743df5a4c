import Codewright.Proofs.SingleUse

/-!
# Single uses in folded trees

A folded tree has constants in the place of some operators and of their operands (`Shortened`).
Whether a statement is taken into the next one depends on where the one stores and on what the other
loads first, and both are the same with constants folded and without. So the same locals are
removed, and what is left differs as before.
-/

namespace Codewright

namespace Tree

mutual

/-- The second tree has constants in the place of operators on constants, and `n` nodes less. -/
inductive Shortened : Nat → Tree → Tree → Prop
  | node {n : Nat} {t : Tree} {ts : List Tree} (parts : ShortenedAll n t.parts ts) :
    Shortened n t (t.withParts ts)
  | folded {n : Nat} {t : Tree} {ts : List Tree} (operator : t.operator?.isSome = true)
    (parts : ShortenedAll n t.parts ts) (constants : ∀ a ∈ ts, ∃ tag v, a = .const tag v)
    (c : Value) :
    Shortened (n + ts.length) t (.const t.tag c)

inductive ShortenedAll : Nat → List Tree → List Tree → Prop
  | nil : ShortenedAll 0 [] []
  | cons {n m : Nat} {t t' : Tree} {ts ts' : List Tree} (first : Shortened n t t')
    (rest : ShortenedAll m ts ts') : ShortenedAll (n + m) (t :: ts) (t' :: ts')

end

section

variable {n m : Nat} {t t' value value' : Tree} {ts ts' us us' : List Tree} {x : LocalId}

theorem Shortened.tag (h : Shortened n t t') : t'.tag = t.tag := by
  cases h with
  | node => exact tag_withParts ..
  | folded => rfl

theorem ShortenedAll.tags (h : ShortenedAll n ts ts') : ts'.map Tree.tag = ts.map Tree.tag := by
  induction ts generalizing n ts' with
  | nil =>
    cases h
    rfl
  | cons t rest ih =>
    cases h with
    | cons h hrest => rw [List.map_cons, List.map_cons, h.tag, ih hrest]

theorem ShortenedAll.length (h : ShortenedAll n ts ts') : ts'.length = ts.length := by
  simpa using congrArg List.length h.tags

theorem ShortenedAll.firstLoadOf? (h : ShortenedAll n ts ts')
    (ih : ∀ a ∈ ts, ∀ {n a'}, Shortened n a a' → a'.firstLoad? = a.firstLoad?) :
    firstLoadOf? ts' = firstLoadOf? ts := by
  cases h with
  | nil => rfl
  | cons h _ => exact ih _ List.mem_cons_self h

theorem firstLoad?_withParts (h : firstLoadOf? ts = firstLoadOf? t.parts) :
    (t.withParts ts).firstLoad? = t.firstLoad? := by
  fun_cases withParts t ts <;> simp_all [firstLoad?, firstLoadOf?, parts]

/-- Operators on constants load nothing. -/
theorem Shortened.firstLoad? (h : Shortened n t t') : t'.firstLoad? = t.firstLoad? := by
  induction t using induction_parts generalizing n t' with
  | h t ih =>
    cases h with
    | node h => exact firstLoad?_withParts (h.firstLoadOf? ih)
    | @folded _ _ ts hop h hts =>
      obtain ⟨f, hf⟩ := Option.isSome_iff_exists.mp hop
      rw [firstLoad?_operator hf, ← parts_operator hf, ← h.firstLoadOf? ih]
      cases ts with
      | nil => rfl
      | cons a rest =>
        obtain ⟨tag, v, rfl⟩ := hts a List.mem_cons_self
        rfl

theorem withStore_withParts (store : Option LocalId) :
    (t.withParts ts).withStore store = (t.withStore store).withParts ts := by
  fun_cases withParts t ts <;> first | rfl | (cases t <;> simp_all [withStore, withTag, withParts])

theorem Shortened.withStore (h : Shortened n t t') (store : Option LocalId) :
    Shortened n (t.withStore store) (t'.withStore store) := by
  cases h with
  | node h =>
    rw [withStore_withParts]
    exact .node (by rwa [parts_withStore])
  | folded hop h hts c =>
    have hconst := Shortened.folded (t := t.withStore store) (by rwa [operator?_withStore])
      (by rwa [parts_withStore]) hts c
    rwa [tag_withStore] at hconst

theorem withParts_withParts (ts : List Tree) (h : us.length = t.parts.length) :
    (t.withParts ts).withParts us = t.withParts us := by
  fun_cases withParts t ts with
  | case1 | case2 | case3 | case11 => rfl
  | case5 | case6 | case7 =>
    obtain ⟨p, rfl⟩ := List.length_eq_one_iff.mp h
    rfl
  | case4 | case8 | case10 =>
    obtain ⟨p, q, rfl⟩ := List.length_eq_two.mp h
    rfl
  | case9 =>
    obtain ⟨p, q, r, rfl⟩ := List.length_eq_three.mp h
    rfl

/-- A value is put in the place of the same load. -/
theorem Shortened.replaceFirstLoad (h : Shortened n t t') (hv : Shortened m value value')
    (hx : LoadsFirst x t) :
    Shortened (n + m) (replaceFirstLoad value t) (Tree.replaceFirstLoad value' t') := by
  induction hx using LoadsFirst.induction_parts generalizing n t' with
  | load tag =>
    cases h with
    | node h =>
      cases h
      rw [Nat.zero_add]
      exact hv.withStore _
    | folded hop => cases hop
  | first t a rest hx ha hparts ih =>
    cases h with
    | node h =>
      rw [hparts] at h
      cases h with
      | @cons n k _ b _ more h hrest =>
        have hold : (Tree.replaceFirstLoad value a :: rest).length = t.parts.length := by
          rw [hparts]; rfl
        have hnew : (Tree.replaceFirstLoad value' b :: more).length = t.parts.length := by
          rw [hparts, List.length_cons, hrest.length, List.length_cons]
        rw [hx.replaceFirstLoad_eq hparts, hx.replaceFirstLoad_withParts hparts hrest.length,
          ← withParts_withParts (Tree.replaceFirstLoad value a :: rest) hnew, Nat.add_right_comm]
        refine .node ?_
        rw [parts_withParts hold]
        exact .cons (ih h) hrest
    | folded hop h hts =>
      -- The operator stays, since its first operand loads.
      rw [hparts] at h
      cases h with
      | cons h =>
        obtain ⟨tag, v, rfl⟩ := hts _ List.mem_cons_self
        cases h.firstLoad?.trans ha.firstLoad?

/-! ## Removal -/

theorem ShortenedAll.append (h : ShortenedAll n ts ts') (h' : ShortenedAll m us us') :
    ShortenedAll (n + m) (ts ++ us) (ts' ++ us') := by
  induction ts generalizing n ts' with
  | nil =>
    cases h
    rwa [Nat.zero_add]
  | cons t rest ih =>
    cases h with
    | cons h hrest =>
      rw [Nat.add_assoc]
      exact .cons h (ih hrest)

theorem ShortenedAll.reverse (h : ShortenedAll n ts ts') :
    ShortenedAll n ts.reverse ts'.reverse := by
  induction ts generalizing n ts' with
  | nil =>
    cases h
    exact .nil
  | cons t rest ih =>
    cases h with
    | cons h hrest =>
      rw [List.reverse_cons, List.reverse_cons, Nat.add_comm]
      exact (ih hrest).append (.cons h .nil)

/-- The same statements are taken into a statement. -/
theorem Shortened.absorb {before before' : List Tree} (h : Shortened n t t')
    (hb : ShortenedAll m before before') (state : Removal) :
    (absorb state t' before').2 = (Tree.absorb state t before).2 ∧
      ShortenedAll (n + m) (Tree.absorb state t before).1 (Tree.absorb state t' before').1 := by
  induction before generalizing n m t t' before' state with
  | nil =>
    cases hb
    exact ⟨rfl, .cons h .nil⟩
  | cons previous earlier ih =>
    cases hb with
    | @cons _ _ _ previous' _ _ hp hb =>
      have hsingle : singleUse? state.locals previous' = singleUse? state.locals previous := by
        rw [singleUse?, singleUse?, store, hp.tag, store]
      rw [Tree.absorb, Tree.absorb, hsingle]
      cases singleUse? state.locals previous with
      | none => exact ⟨rfl, .cons h (.cons hp hb)⟩
      | some x =>
        dsimp only
        rw [h.firstLoad?]
        split
        · next hfirst =>
          rw [← Nat.add_assoc]
          exact ih (h.replaceFirstLoad (hp.withStore none) (loadsFirst_of_firstLoad? hfirst)) hb _
        · exact ⟨rfl, .cons h (.cons hp hb)⟩

/-- The removal in both trees goes through the same states. -/
def RemovedAlike (n : Nat) (t t' : Tree) : Prop :=
  ∀ state, (removeSingleUses state t').2 = (removeSingleUses state t).2 ∧
    Shortened n (removeSingleUses state t).1 (removeSingleUses state t').1

theorem ShortenedAll.removeInSequence {done done' : List Tree} (h : ShortenedAll n ts ts')
    (ih : ∀ a ∈ ts, ∀ {n a'}, Shortened n a a' → RemovedAlike n a a')
    (hd : ShortenedAll m done done') (state : Removal) :
    (removeInSequence state done' ts').2 = (Tree.removeInSequence state done ts).2 ∧
      ShortenedAll (n + m) (Tree.removeInSequence state done ts).1
        (Tree.removeInSequence state done' ts').1 := by
  induction ts generalizing n m ts' done done' state with
  | nil =>
    cases h
    rw [Nat.zero_add]
    exact ⟨rfl, hd.reverse⟩
  | cons t rest ihrest =>
    cases h with
    | @cons k _ _ _ _ _ h hrest =>
      obtain ⟨hstate, ht⟩ := ih t List.mem_cons_self h state
      obtain ⟨hstate', hd'⟩ := ht.absorb hd (Tree.removeSingleUses state t).2
      simp only [Tree.removeInSequence]
      rw [hstate, hstate', Nat.add_comm k, Nat.add_assoc]
      exact ihrest hrest (fun a ha => ih a (List.mem_cons_of_mem _ ha)) hd' _

/-- Whether a node has statements below it. -/
def isCompound : Tree → Bool
  | .seq _ _ | .ifThen _ _ _ | .ifElse _ _ _ _ | .loop _ _ _ => true
  | _ => false

theorem removeSingleUses_of_simple (h : t.isCompound = false) (state : Removal) :
    removeSingleUses state t = (t, state) := by
  cases t <;> first | (cases h; done) | rw [removeSingleUses]

theorem isCompound_withParts (t : Tree) (ts : List Tree) :
    (t.withParts ts).isCompound = t.isCompound := by
  fun_cases withParts t ts <;> rfl

theorem Shortened.removedAlike (h : Shortened n t t') : RemovedAlike n t t' := by
  intro state
  induction t using induction_parts generalizing n t' state with
  | h t ih =>
    cases hcompound : t.isCompound with
    | false =>
      have hcompound' : t'.isCompound = false := by
        cases h with
        | node => rw [isCompound_withParts, hcompound]
        | folded => rfl
      rw [removeSingleUses_of_simple hcompound, removeSingleUses_of_simple hcompound']
      exact ⟨rfl, h⟩
    | true =>
      cases h with
      | folded hop => cases t <;> first | cases hop; done | cases hcompound
      | node h =>
        cases t with
        | seq tag body =>
          obtain ⟨hstate, hbody⟩ :=
            h.removeInSequence (fun a ha _ _ h state => ih a ha h state) .nil state
          exact ⟨hstate, .node (t := .seq tag _) hbody⟩
        | ifThen tag c y =>
          obtain _ | ⟨hc, _ | ⟨hy, _ | _⟩⟩ := h
          obtain ⟨hstate, hy⟩ := ih y (by simp [parts]) hy state
          exact ⟨hstate, .node (t := .ifThen tag c _) (.cons hc (.cons hy .nil))⟩
        | ifElse tag c y e =>
          obtain _ | ⟨hc, _ | ⟨hy, _ | ⟨he, _ | _⟩⟩⟩ := h
          obtain ⟨hstate, hy⟩ := ih y (by simp [parts]) hy state
          obtain ⟨hstate', he⟩ := ih e (by simp [parts]) he (removeSingleUses state y).2
          simp only [withParts, removeSingleUses]
          rw [hstate]
          exact ⟨hstate', .node (t := .ifElse tag c _ _) (.cons hc (.cons hy (.cons he .nil)))⟩
        | loop tag c b =>
          obtain _ | ⟨hc, _ | ⟨hb, _ | _⟩⟩ := h
          obtain ⟨hstate, hb⟩ := ih b (by simp [parts]) hb state
          exact ⟨hstate, .node (t := .loop tag c _) (.cons hc (.cons hb .nil))⟩
        | _ => cases hcompound

end

end Tree

end Codewright
