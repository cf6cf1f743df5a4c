import Codewright.Proofs.Allocation

/-!
# Places that suit the locals in them

A target may promise that a place suits the declaration of the local that it is handed out for
(`LocationSource.Suited`): a slot has the local's type, say, or a register is of the class for it.
Then all locals live in places that suit them. An exchange does no harm, since only locals of the
same declaration change places.
-/

namespace Codewright

/-- A target whose places suit those that they are handed out for, as long as its state is
`Good`. -/
structure LocationSource.Suited {σ : Type} (src : LocationSource σ) (Good : σ → Prop)
    (Suits : σ → Ty × Bool → Storage → Prop) : Prop where
  take : ∀ {st} (ty : Ty) (p : Bool), Good st → Good (src.take st ty p).2 ∧
    Suits (src.take st ty p).2 (ty, p) (src.take st ty p).1
  giveBack : ∀ {st} (place : Storage), Good st → Good (src.giveBack st place)
  suits_take : ∀ {st d place} (ty : Ty) (p : Bool), Suits st d place →
    Suits (src.take st ty p).2 d place
  suits_giveBack : ∀ {st d place} (place' : Storage), Suits st d place →
    Suits (src.giveBack st place') d place

namespace Allocator

variable {σ : Type} {src : LocationSource σ} {s : Allocator σ}

/-- All locals with a place live in one that suits them. -/
structure Suitable (Good : σ → Prop) (Suits : σ → Ty × Bool → Storage → Prop)
    (decl : LocalId → Option (Ty × Bool)) (s : Allocator σ) : Prop where
  good : Good s.source
  suits : ∀ x d, decl x = some d → s.placeOf x ≠ .unassigned → Suits s.source d (s.placeOf x)

variable {Good : σ → Prop} {Suits : σ → Ty × Bool → Storage → Prop}
  {Fit : σ → Set Storage → Set Storage → Nat → Prop} {decl : LocalId → Option (Ty × Bool)}
  {iv : LocalId → Option Interval} {order : List (LocalId × Interval)}

theorem Suitable.expire (hsrc : src.Suited Good Suits) (h : Suitable Good Suits decl s)
    (first : Int) : Suitable Good Suits decl (s.expire src first) where
  good := source_expire_of_giveBack (fun _ place => hsrc.giveBack place) h.good first
  suits := fun x d hd hx => source_expire_of_giveBack (Q := fun st => Suits st d (s.placeOf x))
    (fun _ place => hsrc.suits_giveBack place) (h.suits x d hd hx) first

theorem Suitable.place (hsrc : src.Suited Good Suits) (h : Suitable Good Suits decl s) {x : LocalId}
    {ty : Ty} {p : Bool} (hx : x < s.locals.size) (hactive : ∀ a ∈ s.active, a.id ≠ x)
    (hplaced : ∀ a ∈ s.active, s.placeOf a.id ≠ .unassigned)
    (hdecls : ∀ y, declared s.locals y = decl y) (hd : decl x = some (ty, p)) (last : Int) :
    Suitable Good Suits decl (s.place src x ty p last) := by
  obtain ⟨hgood, hnew⟩ := hsrc.take ty p h.good
  have hold : ∀ y d, decl y = some d → s.placeOf y ≠ .unassigned →
      Suits (src.take s.source ty p).2 d (s.placeOf y) := fun y d hy hne =>
    hsrc.suits_take ty p (h.suits y d hy hne)
  refine ⟨hgood, fun y d hy hne => ?_⟩
  rw [source_place]
  rcases place_cases src ty p last hx hactive with hplain | ⟨rfl, -, v, hv, -, hvd, -, hswap⟩
  · rw [hplain] at hne ⊢
    split at hne
    · next hyx =>
      subst hyx
      obtain rfl := Option.some.inj (hd.symm.trans hy)
      rwa [if_pos rfl]
    · next hyx =>
      rw [if_neg hyx]
      exact hold y d hy hne
  · -- The two that change places have the same type and are both no parameters.
    have hvd : decl v.id = some (ty, false) := (hdecls v.id).symm.trans hvd
    rw [hswap] at hne ⊢
    split_ifs with hyx hyv
    · subst hyx
      obtain rfl := Option.some.inj (hd.symm.trans hy)
      exact hold v.id _ hvd (hplaced v hv)
    · subst hyv
      obtain rfl := Option.some.inj (hvd.symm.trans hy)
      exact hnew
    · rw [if_neg hyx, if_neg hyv] at hne
      exact hold y d hy hne

theorem carried_suitable (hsrc : src.Suited Good Suits) :
    Carried src Fit decl iv order fun _ s => Suitable Good Suits decl s where
  expire := fun _ _ h => h.expire hsrc _
  skip := fun _ _ _ _ _ _ h => h
  place := by
    intro before x i after s n ty p _ hx _ hI _ hd _ h
    exact h.place hsrc (hI.seating.lt_size hd) (fun a ha hax => hx (hax ▸ (hI.active a ha).1))
      (fun a ha => (hI.active a ha).2.1) hI.decls hd i.last

end Allocator

end Codewright
