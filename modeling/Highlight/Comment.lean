import Highlight.Jump
import Highlight.Reader
import Highlight.Rule

/-!
# Comments

A language has line comments, which run up to the newline, and at most one form of block comment,
which runs past its closing marker. Where block comments nest, an opening marker inside one has to
be closed too. A block comment that is never closed runs to the end of the text.
-/

namespace Highlight

/-- The comments of a language. -/
structure CommentSyntax where
  /-- Markers of comments that run to the end of the line. -/
  line : List String
  /-- Opening and closing marker of block comments. -/
  block : Option (String × String) := none
  /-- Block comments nest. -/
  nested : Bool := false
  deriving DecidableEq, Repr

namespace CommentSyntax

/-- Line comments with two slashes, block comments with slash and star. -/
def slashes : CommentSyntax where
  line := ["//"]
  block := some ("/*", "*/")

/-- The same comments, where block comments nest. -/
def nestedSlashes : CommentSyntax := { slashes with nested := true }

/-- Line comments with a hash. -/
def hash : CommentSyntax where
  line := ["#"]

/-- The scan of comments that are open `depth` levels deep, where neither marker is empty. The
markers are given by their first character and what follows it. The scan runs from one character
that could start a marker to the next, and a closing marker wins over an opening one. -/
def nestedScan (o : Char) (os : List Char) (c : Char) (cs : List Char) :
    JumpScan Nat (List Char) where
  looksAt x := x == o || x == c
  look depth x s :=
    if x = c ∧ cs.isPrefixOf s then
      match depth with
      | 0 | 1 => .inl (s.drop cs.length)
      | depth + 2 => .inr (depth + 1, s.drop cs.length)
    else if x = o ∧ os.isPrefixOf s then .inr (depth + 1, s.drop os.length)
    else .inr (depth, s)
  exhausted := []
  look_suffix depth x s next h := by
    repeat' split at h
    all_goals cases h
    all_goals first | exact List.suffix_rfl | exact List.drop_suffix ..

/-- The rest behind the comment that is open `depth` levels deep. -/
def nestedLoop (o : Char) (os : List Char) (c : Char) (cs : List Char) (depth : Nat)
    (s : List Char) : List Char :=
  (nestedScan o os c cs).run depth s

theorem nestedLoop_suffix (o : Char) (os : List Char) (c : Char) (cs : List Char) (depth : Nat)
    (s : List Char) : nestedLoop o os c cs depth s <:+ s := by
  refine JumpScan.run_suffix id rfl (fun depth x s answer h => ?_) depth s
  simp only [nestedScan] at h
  repeat' split at h
  all_goals cases h
  all_goals exact (List.drop_suffix cs.length s).trans (List.suffix_cons x s)

/-- The rest behind a block comment that nests, from just behind its opening marker. Without
markers to look for, the comment runs to the end of the text. -/
def nestedRest (opening closing s : List Char) : List Char :=
  match opening, closing with
  | o :: os, c :: cs => nestedLoop o os c cs 1 s
  | _, _ => []

theorem nestedRest_suffix (opening closing s : List Char) :
    nestedRest opening closing s <:+ s := by
  unfold nestedRest
  split
  · exact nestedLoop_suffix ..
  · exact List.nil_suffix

/-- The rest behind a block comment, from just behind its opening marker. -/
def blockRest (syn : CommentSyntax) (opening closing s : List Char) : List Char :=
  if syn.nested then nestedRest opening closing s else behind closing s

theorem blockRest_suffix (syn : CommentSyntax) (opening closing s : List Char) :
    syn.blockRest opening closing s <:+ s := by
  unfold blockRest
  split
  · exact nestedRest_suffix ..
  · exact behind_suffix ..

/-- A block comment. -/
def scanBlock (syn : CommentSyntax) : Rule := fun s =>
  match syn.block with
  | none => none
  | some (opening, closing) =>
    match opening.toList.isPrefixOf? s with
    | none => none
    | some body => some ⟨.commentMultiline, syn.blockRest opening.toList closing.toList body⟩

/-- A line comment. -/
def scanLine (syn : CommentSyntax) : Rule := fun s =>
  if syn.line.any fun marker => marker.toList.isPrefixOf s then
    some ⟨.commentSingle, fromNewline s⟩
  else none

/-- A comment. Block comments are tried first, since their marker may begin with that of a line
comment. -/
def scan (syn : CommentSyntax) : Rule :=
  Rule.firstOf [syn.scanBlock, syn.scanLine]

/-- A block comment in place. -/
def readBlock (syn : CommentSyntax) : Reader := fun buffer start =>
  match syn.block with
  | none => none
  | some (opening, closing) =>
    if buffer.startsWith start opening.toList then
      let body := start + byteSize opening.toList
      some ⟨.commentMultiline,
        if syn.nested then
          buffer.seek (ByteScan.nested (utf8 opening.toList) (utf8 closing.toList)) body
        else buffer.behind closing.toList body⟩
    else none

/-- A line comment in place. -/
def readLine (syn : CommentSyntax) : Reader := fun buffer start =>
  if syn.line.any fun marker => buffer.startsWith start marker.toList then
    some ⟨.commentSingle, buffer.line start⟩
  else none

/-- A comment in place. -/
def read (syn : CommentSyntax) : Reader :=
  Reader.firstOf [syn.readBlock, syn.readLine]

/-- Markers that take something: no marker is empty, and no line marker begins with a newline. -/
structure Sound (syn : CommentSyntax) : Prop where
  line : ∀ marker ∈ syn.line, ∃ c cs, marker.toList = c :: cs ∧ c ≠ '\n'
  block : ∀ opening closing, syn.block = some (opening, closing) → opening.toList ≠ []

theorem consumes_scanBlock {syn : CommentSyntax} (h : syn.Sound) : Rule.Consumes syn.scanBlock := by
  intro c s r hr
  simp only [scanBlock] at hr
  split at hr
  · cases hr
  · next opening closing hb =>
      split at hr
      · cases hr
      · next body hbody =>
          cases hr
          exact (blockRest_suffix ..).trans
            (suffix_tail_of_isPrefixOf? (h.block opening closing hb) hbody)

theorem consumes_scanLine {syn : CommentSyntax} (h : syn.Sound) : Rule.Consumes syn.scanLine := by
  intro c s r hr
  simp only [scanLine] at hr
  split at hr
  · next hany =>
      cases hr
      obtain ⟨marker, hmem, hpre⟩ := List.any_eq_true.1 hany
      obtain ⟨m, ms, hm, hne⟩ := h.line marker hmem
      rw [hm] at hpre
      have hc : m = c := by
        simp only [List.isPrefixOf, Bool.and_eq_true, beq_iff_eq] at hpre
        exact hpre.1
      subst hc
      have : fromNewline (m :: s) = fromNewline s := by simp [fromNewline, hne]
      rw [this]
      exact fromNewline_suffix s
  · cases hr

theorem consumes_scan {syn : CommentSyntax} (h : syn.Sound) : Rule.Consumes syn.scan := by
  apply Rule.consumes_firstOf
  intro rule hrule
  simp only [List.mem_cons, List.not_mem_nil, or_false] at hrule
  rcases hrule with rfl | rfl
  · exact consumes_scanBlock h
  · exact consumes_scanLine h

theorem sound_slashes : slashes.Sound where
  line marker h := by
    simp only [slashes, List.mem_singleton] at h
    exact ⟨'/', ['/'], by rw [h]; rfl, by decide⟩
  block opening closing h := by
    simp only [slashes, Option.some.injEq, Prod.mk.injEq] at h
    rw [← h.1]
    decide

theorem sound_nestedSlashes : nestedSlashes.Sound where
  line := sound_slashes.line
  block := sound_slashes.block

theorem sound_hash : hash.Sound where
  line marker h := by
    simp only [hash, List.mem_singleton] at h
    exact ⟨'#', [], by rw [h]; rfl, by decide⟩
  block opening closing h := by simp [hash] at h

end CommentSyntax

/-- A line that names an interpreter, which only the very front of a text may hold. -/
def scanHashbang (fresh : Bool) : Rule := fun s =>
  if fresh ∧ ['#', '!'].isPrefixOf s then some ⟨.commentHashbang, fromNewline s⟩ else none

/-- The line that names an interpreter in place, which only the start of a range may hold. -/
def readHashbang (rangeStart : Nat) : Reader := fun buffer start =>
  if start = rangeStart ∧ buffer.startsWith start ['#', '!'] then
    some ⟨.commentHashbang, buffer.line start⟩
  else none

theorem consumes_scanHashbang (fresh : Bool) : Rule.Consumes (scanHashbang fresh) := by
  intro c s r hr
  simp only [scanHashbang] at hr
  split at hr
  · next h =>
      cases hr
      have hc : '#' = c := by
        have := h.2
        simp only [List.isPrefixOf, Bool.and_eq_true, beq_iff_eq] at this
        exact this.1
      subst hc
      have : fromNewline ('#' :: s) = fromNewline s := by simp [fromNewline]
      rw [this]
      exact fromNewline_suffix s
  · cases hr

end Highlight
