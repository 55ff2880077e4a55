import Highlight.Proofs.Positions

/-!
# A range is read as a text of its own

A range of a text is read in place, by offsets into everything up to its end, so a scanner could
tell what is in front of it: it could ask for a byte there, or take the start of the text for that
of the range. And the locator is given the same text and counts lines in it.

None of it shows. In each language the scanner in place follows the lexer that is given the text of
the range and nothing else, state by state, wherever in a buffer that text begins; two runs of the
scanner over the same text at different offsets therefore tell the same kinds and sizes. What is cut
out by them, and where white space is split, is then the same too, and the positions are those that
counting from the start of the range gives.

What is left is that a range covers the text of its bytes, and that a text is known by its bytes.
-/

namespace Highlight

namespace Language

/-- What is in front of a range makes no difference to a scanner. -/
theorem scan_slice (language : Language) (text : List Char) (range : ByteRange) :
    language.scan (.ofText (range.upTo text)) (range.clamp text).start =
      language.scan (.ofText (range.slice text)) 0 := by
  rw [language.scan_eq (range.at_clamp text), language.scan_eq (Buffer.at_zero _)]

theorem lexRange_slice (language : Language) (text : List Char) (range : ByteRange) :
    language.lexRange (range.slice text) (.whole (range.slice text)) =
      language.lexRange text range := by
  rw [lexRange_eq_lex, lexRange_eq_lex, ByteRange.slice_whole]

theorem tokenizeRange_slice (language : Language) (text : List Char) (range : ByteRange)
    (config : TokenConfig) :
    language.tokenizeRange (range.slice text) (.whole (range.slice text)) config =
      language.tokenizeRange text range config := by
  rw [tokenizeRange_eq_placed, tokenizeRange_eq_placed, lexRange_slice, ByteRange.slice_whole]

/-- A range stands for the bytes between two boundaries, and its tokens and lexemes are those of the
text of these bytes: the scanner goes through the whole buffer in front of the end of the range,
from where the range starts, as it goes through that text from its beginning. Whatever two texts
have around the same bytes, they have the same tokens there. -/
theorem tokenizeRange_local (language : Language) (text : List Char) (range : ByteRange)
    (config : TokenConfig) :
    let bytes (text : List Char) (range : ByteRange) :=
      ((utf8 text).take (range.clamp text).stop).drop (range.clamp text).start
    let clamped := range.clamp text
    let slice := range.slice text
    IsGreatest {offset | IsBoundary text offset ∧ offset ≤ min range.stop (byteSize text)}
        clamped.stop ∧
      IsGreatest {offset | IsBoundary text offset ∧ offset ≤ min range.start clamped.stop}
        clamped.start ∧
      utf8 slice = bytes text range ∧
      language.scan (.ofText (range.upTo text)) clamped.start = language.scan (.ofText slice) 0 ∧
      language.tokenizeRange text range config =
        language.tokenizeRange slice (.whole slice) config ∧
      language.lexRange text range = language.lexRange slice (.whole slice) ∧
      ∀ text' range', bytes text' range' = bytes text range →
        language.tokenizeRange text' range' config = language.tokenizeRange text range config ∧
          language.lexRange text' range' = language.lexRange text range := by
  intro bytes clamped slice
  refine ⟨range.isGreatest_clamp_stop text, range.isGreatest_clamp_start text,
    range.utf8_slice text, language.scan_slice text range,
    (language.tokenizeRange_slice text range config).symm,
    (language.lexRange_slice text range).symm, ?_⟩
  intro text' range' hbytes
  have hslice : range'.slice text' = slice :=
    utf8_injective ((range'.utf8_slice text').trans (hbytes.trans (range.utf8_slice text).symm))
  constructor
  · rw [← tokenizeRange_slice, hslice, tokenizeRange_slice]
  · rw [← lexRange_slice, hslice, lexRange_slice]

end Language

end Highlight
