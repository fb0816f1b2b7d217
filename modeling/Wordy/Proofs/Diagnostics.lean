import Mathlib
import Wordy.Proofs.ByteOrder
import Wordy.Proofs.Incomplete
import Wordy.Proofs.Progress

/-! Diagnostics, under any phrasebook without an empty phrase. Each is placed at the start of a word
or at the end of the source, says something that is true there, and counts as incomplete exactly
where something is missing at the end. -/

namespace Wordy

open Text

namespace Failure.Placed

variable {book : Phrasebook} {source : String} {text : List Char} {e : Failure}

theorem increasing (h : e.Placed book text) :
    e.fault.expected.Pairwise fun a b => utf8 a < utf8 b := by
  obtain ⟨fault, rest⟩ := e
  have hfits := h.fits
  cases fault with
  | unexpected forms =>
    obtain ⟨tokens, -, rfl⟩ := hfits
    exact book.pairwise_forms tokens
  | _ => exact .nil

theorem reserved (h : e.Placed book text) {w : String} (hw : e.fault = .reserved w) :
    book.isReserved (word e.rest) = true := by
  have hfits := h.fits
  rw [hw] at hfits
  exact hfits.2.1

end Failure.Placed

end Wordy
