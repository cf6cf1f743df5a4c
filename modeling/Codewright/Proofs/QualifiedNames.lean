import Codewright.Proofs.Collected
import Codewright.Proofs.LowerCase

/-!
# Qualified references

A symbol is declared under the folded name of its module, a dot and its own folded name. A qualified
reference is folded as a whole and cut at its last dot. The two agree unless a sigma stands at the
dot, and exactly then a reference spelled like the declaration finds the symbol
(`Symbols.resolve?_join_iff`): in a collected program the table holds every declaration under its
full name, and nothing is found under another name than its own.
-/

namespace Codewright

open Source (Span)
open Steps Text

namespace Symbols

variable {s s' : Symbols} {modules : List Surface.Module} {m : String}

/-! ## The tables of a collected program -/

/-- Every constant stands under the name in its entry. -/
def Keyed (s : Symbols) : Prop := ∀ full c, s.constant? full = some c → c.fullName = full

theorem module?_of_mem {x : ModuleSymbol} (hdistinct : (s.modules.toList.map (·.name)).Nodup)
    (hx : x ∈ s.modules) : s.module? x.name = some x := by
  have hinj := List.inj_on_of_nodup_map hdistinct
  cases hfound : s.module? x.name with
  | none => exact absurd rfl (module?_eq_none_iff.mp hfound x hx)
  | some y =>
    have hname : y.name = x.name := by simpa using Array.find?_some hfound
    have hy := Array.mem_of_find?_eq_some hfound
    rw [hinj (Array.mem_toList_iff.mpr hy) (Array.mem_toList_iff.mpr hx) hname]

/-- The tables of a collected program hold every module and every constant, under their own
names. -/
theorem tables_of_collect (h : Symbols.collect modules = .ok s) :
    (∀ x ∈ modules, s.module? (foldName x.name) = some (moduleSymbol x)) ∧
    (∀ p ∈ constantsOf modules, s.constant? (fullName p.1 p.2.name) =
      some (constantSymbol p.1 p.2)) ∧
    s.Keyed := by
  have hrecords := records_of_collect h
  refine ⟨fun x hx => ?_, fun p hp => ?_, fun full c hc => ?_⟩
  · have hmem : moduleSymbol x ∈ s.modules.toList := by
      rw [hrecords.modules, modules_declarationsOf]
      exact List.mem_map.mpr ⟨x, hx, rfl⟩
    have hname : foldName x.name = (moduleSymbol x).name := rfl
    rw [hname]
    exact module?_of_mem hrecords.distinct (Array.mem_toList_iff.mp hmem)
  · rw [← constants_declarationsOf] at hp
    exact (hrecords.constants _ _).mpr ⟨p, hp, rfl, rfl⟩
  · obtain ⟨p, -, -, hname⟩ := (hrecords.constants full c).mp hc
    exact hname

theorem Lists.fullName_of_function? {fs : List (String × Surface.Function)} (h : s.Lists fs)
    {full : String} {g : FunctionSymbol} (hg : s.function? full = some g) : g.fullName = full := by
  obtain ⟨n, hn, hentry⟩ := Option.bind_eq_some_iff.mp hg
  obtain ⟨m, f, hf, rfl⟩ := h.index full n hn
  rw [h.entry hf] at hentry
  obtain rfl := Option.some.inj hentry
  rfl

/-! ## Names cut at their last dot -/

theorem dropWhile_dot {xs ys : List Char} (h : '.' ∉ xs) :
    (xs ++ '.' :: ys).takeWhile (· != '.') = xs ∧ (xs ++ '.' :: ys).dropWhile (· != '.') =
      '.' :: ys := by
  have hxs : ∀ c ∈ xs, (c != '.') = true := by
    intro c hc
    rw [bne_iff_ne]
    rintro rfl
    exact h hc
  rw [List.takeWhile_append_of_pos hxs, List.dropWhile_append_of_pos hxs]
  simp

theorem splitQualifier?_join (q : String) {n : String} (h : '.' ∉ n.toList) :
    splitQualifier? (q ++ "." ++ n) = some (q, n) := by
  have hreversed : (q ++ "." ++ n).toList.reverse = n.toList.reverse ++ '.' ::
      q.toList.reverse := by
    rw [toList_join]
    simp
  obtain ⟨htake, hdrop⟩ := @dropWhile_dot n.toList.reverse q.toList.reverse
    fun hmem => h (List.mem_reverse.mp hmem)
  unfold splitQualifier?
  simp only [hreversed, htake, hdrop, List.reverse_reverse, String.ofList_toList]

theorem join_of_splitQualifier? {name q n : String} (h : splitQualifier? name = some (q, n)) :
    q ++ "." ++ n = name := by
  unfold splitQualifier? at h
  simp only at h
  split at h
  · cases h
  · next c cs hdrop =>
    obtain ⟨rfl, rfl⟩ := Prod.mk.inj (Option.some.inj h)
    have hc : c = '.' := by
      have hhead := List.head?_dropWhile_not (· != '.') name.toList.reverse
      rw [hdrop] at hhead
      simpa using hhead
    have hname := List.takeWhile_append_dropWhile (p := (· != '.')) (l := name.toList.reverse)
    rw [hdrop, hc] at hname
    rw [← String.toList_inj, toList_join, String.toList_ofList, String.toList_ofList,
      ← List.reverse_inj, List.reverse_append, List.reverse_cons, List.reverse_reverse,
      List.reverse_reverse, List.append_assoc, List.singleton_append]
    exact hname

theorem dot_notMem_of_splitQualifier? {name : String} (h : splitQualifier? name = none) :
    '.' ∉ name.toList := by
  unfold splitQualifier? at h
  simp only at h
  split at h
  · next hdrop =>
    rw [List.dropWhile_eq_nil_iff] at hdrop
    intro hmem
    exact absurd (hdrop '.' (List.mem_reverse.mpr hmem)) (by decide)
  · cases h

/-! ## Resolution -/

section Resolution

variable {α : Type} {find : String → Option α} {isPublic : α → Bool}
  {home name q n : String} {a : α}

/-- A qualified name of an imported module leads to its public symbol. -/
theorem resolve?_qualified {current : ModuleSymbol} (hhome : s.module? home = some current)
    (himport : q ∈ current.imports) (hn : '.' ∉ n.toList) (hfind : find (q ++ "." ++ n) = some a)
    (hpublic : isPublic a = true) : s.resolve? find isPublic home (q ++ "." ++ n) = some a := by
  unfold resolve?
  simp only [hhome, splitQualifier?_join q hn]
  by_cases hq : q = home
  · rw [if_pos hq, hfind]
  · rw [if_neg hq, if_pos (List.contains_iff_mem.mpr himport), hfind, Option.filter_some,
      if_pos hpublic]

theorem find_of_resolve? (hdot : '.' ∈ name.toList)
    (h : s.resolve? find isPublic home name = some a) : find name = some a := by
  unfold resolve? at h
  split at h
  · cases h
  · simp only at h
    split at h
    · next qualifier simple hsplit =>
      rw [← join_of_splitQualifier? hsplit]
      split at h
      · exact h
      · split at h
        · exact (Option.filter_eq_some_iff.mp h).1
        · cases h
    · next hnone => exact absurd hdot (dot_notMem_of_splitQualifier? hnone)

/-- A reference that is spelled like the declaration finds the symbol, unless a sigma stands at the
dot. -/
theorem resolve?_join_iff {current : ModuleSymbol} {nameOf : α → String}
    (hkey : ∀ full a, find full = some a → nameOf a = full) (hhome : s.module? home = some current)
    (himport : foldName m ∈ current.imports) (hn : '.' ∉ n.toList)
    (hfind : find (fullName m n) = some a) (hpublic : isPublic a = true) :
    s.resolve? find isPublic home (foldName (m ++ "." ++ n)) = some a ↔
      ¬ SigmaAtDot m.toList n.toList := by
  rw [← foldName_join]
  constructor
  · intro h
    have hfound := find_of_resolve? (dot_mem_foldName_join m n) h
    rw [← hkey _ a hfound, hkey _ a hfind]
  · intro h
    rw [h]
    exact resolve?_qualified hhome himport (dot_notMem_foldName hn) hfind hpublic

end Resolution

end Symbols

/-- Folding a qualified name as a whole gives the full name, and in a collected program a reference
spelled like the declaration of a public function or constant finds it in every module that imports
its module, unless a capital sigma stands at the dot: exactly then it is missed. -/
theorem qualified_reference_found_iff (modules : List Surface.Module) (s : Symbols)
    (hs : Symbols.collect modules = .ok s) (x : Surface.Module) (hx : x ∈ modules) :
    (∀ m n : String, foldName (m ++ "." ++ n) = fullName m n ↔ ¬ SigmaAtDot m.toList n.toList) ∧
    (∀ m n : String, 'Σ' ∉ m.toList → 'Σ' ∉ n.toList → ¬ SigmaAtDot m.toList n.toList) ∧
    (∀ k m f, (functionsOf modules)[k]? = some (m, f) → f.isPublic = true → '.' ∉ f.name.toList →
      (∃ i ∈ x.imports, foldName i.name = foldName m) →
      (s.resolveFunction? (foldName x.name) (foldName (m ++ "." ++ f.name)) =
        some (functionSymbol k m f) ↔
        ¬ SigmaAtDot m.toList f.name.toList)) ∧
    (∀ m c, (m, c) ∈ constantsOf modules → c.isPublic = true → '.' ∉ c.name.toList →
      (∃ i ∈ x.imports, foldName i.name = foldName m) →
      (s.resolveConstant? (foldName x.name) (foldName (m ++ "." ++ c.name)) =
        some (constantSymbol m c) ↔
        ¬ SigmaAtDot m.toList c.name.toList)) := by
  obtain ⟨hmodules, hconstants, hkeyed⟩ := Symbols.tables_of_collect hs
  have hlists := Symbols.lists_of_collect hs
  have himports : ∀ m, (∃ i ∈ x.imports, foldName i.name = foldName m) →
      foldName m ∈ (moduleSymbol x).imports := fun m hm => List.mem_map.mpr hm
  refine ⟨foldName_join, fun m n hm hn => not_sigmaAtDot hm hn, ?_, ?_⟩
  · intro k m f hf hpublic hdot himport
    exact Symbols.resolve?_join_iff (fun full g hg => hlists.fullName_of_function? hg)
      (hmodules x hx) (himports m himport) hdot (hlists.function?_eq hf) hpublic
  · intro m c hc hpublic hdot himport
    exact Symbols.resolve?_join_iff hkeyed (hmodules x hx) (himports m himport) hdot
      (hconstants (m, c) hc) hpublic

/-! ## A reference that is missed -/

namespace FinalSigma

def function (name : String) : Surface.Function where
  name := name
  isPublic := true
  result := .int
  params := []
  body := ⟨[.ret (some (.literal (.int 1) default)) default], default⟩
  span := default

/-- `module ΑΣ public int b() … public int _b() …` -/
def library : Surface.Module where
  name := "ΑΣ"
  imports := []
  constants := []
  functions := [function "b", function "_b"]
  span := default

/-- `module app import ΑΣ` -/
def app : Surface.Module where
  name := "app"
  imports := [⟨"ΑΣ", default⟩]
  constants := []
  functions := []
  span := default

def symbols : Symbols where
  modules := #[⟨"app", ["ας"], default⟩, ⟨"ας", [], default⟩]
  functions := #[functionSymbol 0 "ΑΣ" (function "b"), functionSymbol 1 "ΑΣ" (function "_b")]
  index := ((∅ : Std.HashMap String Nat).insert "ας.b" 0).insert "ας._b" 1

theorem foldName_names : foldName "app" = "app" ∧ foldName "ΑΣ" = "ας" := by decide +kernel

theorem collect_program : Symbols.collect [app, library] = .ok symbols := by cbv

/-- Behind a low line no letter follows the sigma: the reference is found. -/
theorem reference_found :
    symbols.resolveFunction? (foldName "app") (foldName ("ΑΣ" ++ "." ++ "_b")) =
      some (functionSymbol 1 "ΑΣ" (function "_b")) := by
  have hsigma : ¬ SigmaAtDot "ΑΣ".toList "_b".toList := (foldName_join _ _).mp (by decide +kernel)
  have hdot : '.' ∉ (function "_b").name.toList := by decide +kernel
  have hfound := (qualified_reference_found_iff [app, library] symbols collect_program app
    List.mem_cons_self).2.2.1
  exact (hfound 1 "ΑΣ" (function "_b") rfl rfl hdot ⟨_, List.mem_cons_self, rfl⟩).mpr hsigma

/-- The function `b` of the module `ΑΣ` is public and the module is imported, but `ΑΣ.b` is not
found: in the reference the sigma does not end a word, as the letter behind the dot counts. -/
theorem reference_missed : Symbols.collect [app, library] = .ok symbols ∧
    (functionsOf [app, library])[0]? = some ("ΑΣ", function "b") ∧ (function "b").isPublic = true ∧
    (∃ i ∈ app.imports, i.name = "ΑΣ") ∧ foldName ("ΑΣ" ++ "." ++ "b") ≠ fullName "ΑΣ" "b" ∧
    symbols.resolveFunction? (foldName "app") (foldName ("ΑΣ" ++ "." ++ "b")) = none := by
  have hfold : foldName ("ΑΣ" ++ "." ++ "b") = "ασ" ++ "." ++ "b" := by decide +kernel
  have hsplit := Symbols.splitQualifier?_join "ασ" (n := "b") (by decide +kernel)
  have happ : symbols.module? "app" = some ⟨"app", ["ας"], default⟩ := rfl
  refine ⟨collect_program, rfl, rfl, ⟨_, List.mem_cons_self, rfl⟩, by decide +kernel, ?_⟩
  rw [foldName_names.1, hfold]
  simp only [Symbols.resolveFunction?, Symbols.resolve?, happ, hsplit]
  decide +kernel

end FinalSigma

end Codewright
