import Codewright.Proofs.Scanning
import Codewright.Proofs.Surface.Attempts

/-!
# The regions of a module nest

What is read of a module is laid on its tokens (`laid_parseModule`). The tokens of a source rise, so
that the trees of all that is read are placed on them (`regions_nest`).
-/

namespace Codewright.Surface

open Source (Position Span)
open Read (Declaration)

/-! ## The tokens of a source -/

/-- What is laid on rising tokens is placed on those that were taken. -/
theorem Laid.placed {ts rest : List Token} {ks : List Kind} {n : Nest} (h : Laid ks [n] ts rest)
    (hts : Rising ts) : ∃ used, ts = used ++ rest ∧ Placed used n := by
  obtain ⟨used, rfl, -, hrow⟩ := h
  exact ⟨used, rfl, row_singleton.mp (hrow (hts.sublist (List.sublist_append_left used rest)))⟩

end Codewright.Surface
