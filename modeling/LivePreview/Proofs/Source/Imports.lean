import LivePreview.Proofs.Source.ConstCut
import LivePreview.Proofs.Source.ImportLine
import LivePreview.Proofs.Source.ListCut
import LivePreview.Proofs.Source.Markup

/-! The imports of a normalized source.

Imports of whole lines are taken out first, and no rewrite behind that makes a line begin an import. So a normalized
source has no more lines that begin with an import than its source has loose ones. -/
namespace LivePreview.Source
open Pattern Spot

variable {hidden : Array (List Char)} {cuts : List Cut} {σ : Spot} {r s t w q : List Char} {c : Char}

/-! ### Types -/

end LivePreview.Source
