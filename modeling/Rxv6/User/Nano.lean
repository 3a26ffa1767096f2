import Rxv6.Lib.Runs
import Mathlib.Tactic

namespace Rxv6.User.Nano

open Rxv6.Lib.Runs List Option

abbrev Line := List UInt8

def newline : UInt8 := 10

def screenRows : Nat := 22

/-- The lines without their newlines, the cursor, the cut lines and the last text searched for. -/
structure Buffer where
  lines : List Line
  cx : Nat
  cy : Nat
  cutBuf : List Line
  lastSearch : Line

def Buffer.new : Buffer := ⟨[[]], 0, 0, [], []⟩

-- An index outside the lines panics, and the operation has no result.
section Operations

variable (b : Buffer)

def insertChar (c : UInt8) : Option Buffer :=
  let lines := if b.cy ≥ b.lines.length then b.lines ++ [[]] else b.lines
  lines[b.cy]?.map fun line ↦
    let cx := if b.cx > line.length then line.length else b.cx
    { b with lines := lines.set b.cy (line.insertIdx cx c), cx := cx + 1 }

def insertNewline : Option Buffer :=
  b.lines[b.cy]?.map fun line ↦
    { b with
      lines := (b.lines.set b.cy (line.take b.cx)).insertIdx (b.cy + 1) (line.drop b.cx)
      cy := b.cy + 1
      cx := 0 }

def deleteChar : Option Buffer :=
  if b.cy ≥ b.lines.length ∨ b.cx = 0 ∧ b.cy = 0 then some b
  else if b.cx > 0 then
    b.lines[b.cy]?.map fun line ↦
      if b.cx ≤ line.length then
        { b with lines := b.lines.set b.cy (line.eraseIdx (b.cx - 1)), cx := b.cx - 1 }
      else b
  else do
    let current ← b.lines[b.cy]?
    let lines := b.lines.eraseIdx b.cy
    let prev ← lines[b.cy - 1]?
    some { b with lines := lines.set (b.cy - 1) (prev ++ current), cy := b.cy - 1, cx := prev.length }

def deleteForward : Option Buffer :=
  match b.lines[b.cy]? with
  | none => some b
  | some line =>
    if b.cx < line.length then some { b with lines := b.lines.set b.cy (line.eraseIdx b.cx) }
    else if b.cy + 1 < b.lines.length then
      b.lines[b.cy + 1]?.map fun next ↦
        { b with lines := (b.lines.eraseIdx (b.cy + 1)).set b.cy (line ++ next) }
    else some b

inductive Key
  | left | right | up | down | home | endKey | pageUp | pageDown

/-- The end of `move_cursor`: `cx` is snapped to the line. -/
def snap : Buffer :=
  match b.lines[b.cy]? with
  | some line => if b.cx > line.length then { b with cx := line.length } else b
  | none => b

def moveCursor (key : Key) : Option Buffer :=
  Option.map snap <| match key with
  | .left =>
    if b.cx > 0 then some { b with cx := b.cx - 1 }
    else if b.cy > 0 then b.lines[b.cy - 1]?.map fun line ↦ { b with cy := b.cy - 1, cx := line.length }
    else some b
  | .right =>
    match b.lines[b.cy]? with
    | none => some b
    | some line =>
      if b.cx < line.length then some { b with cx := b.cx + 1 }
      else if b.cy + 1 < b.lines.length then some { b with cy := b.cy + 1, cx := 0 }
      else some b
  | .up => some (if b.cy > 0 then { b with cy := b.cy - 1 } else b)
  | .down => some (if b.cy + 1 < b.lines.length then { b with cy := b.cy + 1 } else b)
  | .home => some { b with cx := 0 }
  | .endKey => b.lines[b.cy]?.map fun line ↦ { b with cx := line.length }
  | .pageUp => some { b with cy := b.cy - screenRows }
  | .pageDown => some { b with cy := min (b.cy + screenRows) (b.lines.length - 1) }

end Operations

section Text

theorem insertIdx_length_append {α : Type} (k l : List α) (x : α) :
    (k ++ l).insertIdx k.length x = k ++ x :: l := by
  induction k with
  | nil => rfl
  | cons a k ih => simp [ih]

def before (lines : List Line) : Line := lines.flatMap (· ++ [newline])

def after (lines : List Line) : Line := lines.flatMap (newline :: ·)

def text (lines : List Line) : Line := [newline].intercalate lines

theorem text_split (A : List Line) (l : Line) (B : List Line) : text (A ++ l :: B) = before A ++ (l ++ after B) := by
  induction A generalizing l with
  | nil =>
    induction B generalizing l with
    | nil => simp [text, before, after]
    | cons m B ih => simpa [text, before, after] using ih m
  | cons a A ih =>
    cases A with
    | nil => simpa [text, before] using ih l
    | cons a' A => simpa [text, before] using ih l

end Text

section Files

def feed (r : List Line × Line) (c : UInt8) : List Line × Line :=
  if c = newline then (r.1 ++ [r.2], []) else (r.1, r.2 ++ [c])

/-- `load_file`, given what the calls of `read` return. -/
def loadFile (b : Buffer) (reads : List Line) : Buffer :=
  let r := reads.foldl (fun r chunk ↦ chunk.foldl feed r) ([], [])
  { b with lines := r.1 ++ [r.2], cy := 0, cx := 0 }

/-- What `save_file` writes, call by call, to the truncated file. -/
def saveFile : List Line → List Line
  | [] => []
  | [line] => [line]
  | line :: lines => line :: [newline] :: saveFile lines

theorem text_feed (bytes : Line) : ∀ r, text ((bytes.foldl feed r).1 ++ [(bytes.foldl feed r).2]) =
    text (r.1 ++ [r.2]) ++ bytes := by
  induction bytes with
  | nil => simp
  | cons c bytes ih =>
    intro r
    rw [foldl_cons, ih, feed]
    split
    · next h => simp [text_split, after, h]
    · simp [text_split, after]

theorem newline_feed (bytes : Line) : ∀ r, (∀ l ∈ r.1 ++ [r.2], newline ∉ l) →
    ∀ l ∈ (bytes.foldl feed r).1 ++ [(bytes.foldl feed r).2], newline ∉ l := by
  induction bytes with
  | nil => exact fun _ h ↦ h
  | cons c bytes ih =>
    intro r h
    refine ih _ ?_
    unfold feed
    split
    · simpa [or_imp, forall_and] using h
    · next hc => simpa [or_imp, forall_and, Ne.symm hc] using h

theorem foldl_feed (reads : List Line) (r : List Line × Line) :
    reads.foldl (fun r chunk ↦ chunk.foldl feed r) r = reads.flatten.foldl feed r := by
  rw [foldl_flatten]

theorem flatten_saveFile (lines : List Line) : (saveFile lines).flatten = text lines := by
  fun_induction saveFile lines with
  | case1 => rfl
  | case2 line => simp [text]
  | case3 line lines hne ih =>
    cases lines with
    | nil => exact absurd rfl hne
    | cons m lines => simp [ih, text]

theorem text_loadFile (b : Buffer) (reads : List Line) : text (loadFile b reads).lines = reads.flatten := by
  simp only [loadFile, foldl_feed, text_feed]
  rfl

/-- Saving what was loaded writes the bytes of the file again, and loading what was saved gives the same
lines, for every way in which the reads cut the file. -/
theorem nano_preserves_files (b b' : Buffer) :
    (∀ reads, (saveFile (loadFile b reads).lines).flatten = reads.flatten) ∧
      ∀ reads, b.lines ≠ [] → (∀ l ∈ b.lines, newline ∉ l) → reads.flatten = (saveFile b.lines).flatten →
        (loadFile b' reads).lines = b.lines := by
  refine ⟨fun reads ↦ (flatten_saveFile _).trans (text_loadFile b reads), fun reads hne hnl heq ↦ ?_⟩
  have hsame : text (loadFile b' reads).lines = text b.lines := by
    rw [text_loadFile, heq, flatten_saveFile]
  have hload : ∀ l ∈ (loadFile b' reads).lines, newline ∉ l := by
    simp only [loadFile, foldl_feed]
    exact newline_feed _ _ (by simp)
  rw [← splitOn_intercalate newline hnl hne, ← splitOn_intercalate newline hload (by simp [loadFile])]
  exact congrArg _ hsame

theorem nano_preserves_files_split : (loadFile .new [[97], [newline, newline], [98]]).lines = [[97], [], [98]] :=
  (nano_preserves_files ⟨[[97], [], [98]], 0, 0, [], []⟩ .new).2 _ (by decide) (by decide) (by decide)

end Files

section Cursor

variable {b : Buffer} {pre post : Line}

def Valid (b : Buffer) : Prop := ∃ l, b.lines[b.cy]? = some l ∧ b.cx ≤ l.length

/-- The position of the cursor in the text. -/
def pos (b : Buffer) : Nat := (before (b.lines.take b.cy)).length + b.cx

/-- The text before the cursor and the text after it. -/
def At (b : Buffer) (pre post : Line) : Prop :=
  ∃ A u v B, b.lines = A ++ (u ++ v) :: B ∧ b.cy = A.length ∧ b.cx = u.length ∧
    pre = before A ++ u ∧ post = v ++ after B

def Becomes (r : Option Buffer) (t : Line) (p : Nat) : Prop :=
  ∃ b', r = some b' ∧ Valid b' ∧ text b'.lines = t ∧ pos b' = p

theorem Valid.at (h : Valid b) : ∃ pre post, At b pre post := by
  obtain ⟨l, hl, hx⟩ := h
  obtain ⟨hlt, rfl⟩ := List.getElem?_eq_some_iff.mp hl
  refine ⟨_, _, b.lines.take b.cy, b.lines[b.cy].take b.cx, b.lines[b.cy].drop b.cx,
    b.lines.drop (b.cy + 1), ?_, ?_, ?_, rfl, rfl⟩
  · rw [take_append_drop, ← drop_eq_getElem_cons hlt, take_append_drop]
  · simp [hlt.le]
  · simp [hx]

section

variable (h : At b pre post)
include h

theorem At.spec : Valid b ∧ text b.lines = pre ++ post ∧ pos b = pre.length := by
  obtain ⟨A, u, v, B, hl, hy, hx, rfl, rfl⟩ := h
  refine ⟨⟨u ++ v, by simp [hl, hy], by simp [hx]⟩, ?_, ?_⟩
  · rw [hl, text_split]
    simp
  · simp [pos, hl, hy, hx]

theorem At.insertChar (c : UInt8) :
    ∃ b', Nano.insertChar b c = some b' ∧ At b' (pre ++ [c]) post := by
  obtain ⟨A, u, v, B, hl, hy, hx, rfl, rfl⟩ := h
  refine ⟨{ b with lines := A ++ (u ++ [c] ++ v) :: B, cx := u.length + 1 }, ?_,
    A, u ++ [c], v, B, rfl, hy, by simp, by simp, rfl⟩
  simp [Nano.insertChar, hl, hy, hx, insertIdx_length_append]

theorem At.insertNewline :
    ∃ b', Nano.insertNewline b = some b' ∧ At b' (pre ++ [newline]) post := by
  obtain ⟨A, u, v, B, hl, hy, hx, rfl, rfl⟩ := h
  refine ⟨{ b with lines := A ++ u :: v :: B, cy := A.length + 1, cx := 0 }, ?_,
    A ++ [u], [], v, B, by simp, by simp, rfl, by simp [before], rfl⟩
  simpa [Nano.insertNewline, hl, hy, hx] using insertIdx_length_append (A ++ [u]) B v

theorem At.deleteChar : ∃ b', Nano.deleteChar b = some b' ∧ At b' pre.dropLast post := by
  obtain ⟨A, u, v, B, hl, hy, hx, rfl, rfl⟩ := h
  rcases u.eq_nil_or_concat with rfl | ⟨u, x, rfl⟩
  · rcases A.eq_nil_or_concat with rfl | ⟨A, a, rfl⟩
    · exact ⟨b, by simp [Nano.deleteChar, hy, hx], [], [], v, B, hl, hy, hx, rfl, rfl⟩
    · refine ⟨{ b with lines := A ++ (a ++ v) :: B, cy := A.length, cx := a.length }, ?_,
        A, a, v, B, rfl, rfl, rfl, by simp [before], rfl⟩
      simp [Nano.deleteChar, hl, hy, hx, eraseIdx_append_of_length_le]
  · refine ⟨{ b with lines := A ++ (u ++ v) :: B, cx := u.length }, ?_,
      A, u, v, B, rfl, hy, rfl, by simp, rfl⟩
    simp [Nano.deleteChar, hl, hy, hx, eraseIdx_append_of_length_le]

theorem At.deleteForward :
    ∃ b', Nano.deleteForward b = some b' ∧ At b' pre post.tail := by
  obtain ⟨A, u, v, B, hl, hy, hx, rfl, rfl⟩ := h
  cases v with
  | nil =>
    cases B with
    | nil => exact ⟨b, by simp [Nano.deleteForward, hl, hy, hx], A, u, [], [], hl, hy, hx, rfl, rfl⟩
    | cons m B =>
      refine ⟨{ b with lines := A ++ (u ++ m) :: B }, ?_, A, u, m, B, rfl, hy, hx, rfl, by simp [after]⟩
      simp [Nano.deleteForward, hl, hy, hx, eraseIdx_append_of_length_le]
  | cons c v =>
    refine ⟨{ b with lines := A ++ (u ++ v) :: B }, ?_, A, u, v, B, rfl, hy, hx, rfl, by simp⟩
    simp [Nano.deleteForward, hl, hy, hx, eraseIdx_append_of_length_le]

theorem At.left :
    ∃ b', moveCursor b .left = some b' ∧ At b' pre.dropLast (pre.getLast?.toList ++ post) := by
  obtain ⟨A, u, v, B, hl, hy, hx, rfl, rfl⟩ := h
  rcases u.eq_nil_or_concat with rfl | ⟨u, x, rfl⟩
  · rcases A.eq_nil_or_concat with rfl | ⟨A, a, rfl⟩
    · exact ⟨b, by simp [moveCursor, snap, hl, hy, hx], [], [], v, B, hl, hy, hx, rfl, rfl⟩
    · refine ⟨{ b with cy := A.length, cx := a.length }, ?_,
        A, a, [], v :: B, by simp [hl], rfl, rfl, by simp [before], by simp [before, after]⟩
      simp [moveCursor, snap, hl, hy, hx]
  · refine ⟨{ b with cx := u.length }, ?_, A, u, x :: v, B, by simp [hl], hy, rfl, by simp, by simp⟩
    simp [moveCursor, snap, hl, hy, hx]

theorem At.right :
    ∃ b', moveCursor b .right = some b' ∧ At b' (pre ++ post.head?.toList) post.tail := by
  obtain ⟨A, u, v, B, hl, hy, hx, rfl, rfl⟩ := h
  cases v with
  | nil =>
    cases B with
    | nil => exact ⟨b, by simp [moveCursor, snap, hl, hy, hx], A, u, [], [], hl, hy, hx, by simp [after], rfl⟩
    | cons m B =>
      refine ⟨{ b with cy := A.length + 1, cx := 0 }, ?_,
        A ++ [u], [], m, B, by simp [hl], by simp, rfl, by simp [before, after], by simp [after]⟩
      simp [moveCursor, snap, hl, hy, hx]
  | cons c v =>
    refine ⟨{ b with cx := u.length + 1 }, ?_, A, u ++ [c], v, B, by simp [hl], hy, by simp, by simp, by simp⟩
    simp [moveCursor, snap, hl, hy, hx]

end

theorem Becomes.of_at {r : Option Buffer} (h : ∃ b', r = some b' ∧ At b' pre post) :
    Becomes r (pre ++ post) pre.length := by
  obtain ⟨b', hr, h⟩ := h
  exact ⟨b', hr, h.spec⟩

theorem Valid.backspace (h : Valid b) : Becomes (deleteChar b)
    (if pos b = 0 then text b.lines else (text b.lines).eraseIdx (pos b - 1)) (pos b - 1) := by
  obtain ⟨pre, post, h⟩ := h.at
  obtain ⟨-, ht, hp⟩ := h.spec
  have hdel := Becomes.of_at h.deleteChar
  rcases pre.eq_nil_or_concat with rfl | ⟨pre, c, rfl⟩
  · simpa [ht, hp] using hdel
  · simpa [ht, hp, eraseIdx_append_of_length_le] using hdel

/-- On a buffer whose cursor is in range, the editing operations edit the joined text at the position of the
cursor, one byte at a time. -/
theorem edits_flat_text (h : Valid b) :
    (∀ c, c ≠ newline → Becomes (insertChar b c) ((text b.lines).insertIdx (pos b) c) (pos b + 1)) ∧
    Becomes (insertNewline b) ((text b.lines).insertIdx (pos b) newline) (pos b + 1) ∧
    Becomes (deleteChar b)
      (if pos b = 0 then text b.lines else (text b.lines).eraseIdx (pos b - 1)) (pos b - 1) ∧
    Becomes (deleteForward b) ((text b.lines).eraseIdx (pos b)) (pos b) ∧
    Becomes (moveCursor b .left) (text b.lines) (pos b - 1) ∧
    Becomes (moveCursor b .right) (text b.lines) (min (pos b + 1) (text b.lines).length) := by
  have hback := h.backspace
  obtain ⟨pre, post, h⟩ := h.at
  obtain ⟨-, ht, hp⟩ := h.spec
  have hins (c : UInt8) := insertIdx_length_append pre post c
  refine ⟨fun c _ ↦ ?_, ?_, hback, ?_, ?_, ?_⟩
  · simpa [ht, hp, hins] using Becomes.of_at (h.insertChar c)
  · simpa [ht, hp, hins] using Becomes.of_at h.insertNewline
  · simpa [ht, hp, eraseIdx_append_of_length_le] using Becomes.of_at h.deleteForward
  · have hleft := Becomes.of_at h.left
    rcases pre.eq_nil_or_concat with rfl | ⟨pre, c, rfl⟩ <;> simpa [ht, hp] using hleft
  · have hright := Becomes.of_at h.right
    cases post <;> simpa [ht, hp] using hright

theorem edits_flat_text_join : Becomes (deleteChar ⟨[[97], [98]], 0, 1, [], []⟩) [97, 98] 1 :=
  (edits_flat_text ⟨[98], rfl, by decide⟩).2.2.1

end Cursor

section Commands

variable (b : Buffer)

def cutLine : Buffer :=
  match b.lines[b.cy]? with
  | none => b
  | some line =>
    let rest := b.lines.eraseIdx b.cy
    let lines := if rest = [] then [[]] else rest
    { b with
      lines := lines
      cutBuf := b.cutBuf ++ [line]
      cy := if b.cy ≥ lines.length then lines.length - 1 else b.cy
      cx := 0 }

def insertLines : List Line → Nat → List Line → Option (List Line)
  | lines, _, [] => some lines
  | lines, i, line :: rest =>
    if i ≤ lines.length then insertLines (lines.insertIdx i line) (i + 1) rest else none

def pasteLines : Option Buffer :=
  if b.cutBuf = [] then some b
  else (insertLines b.lines (b.cy + 1) b.cutBuf).map fun lines ↦
    { b with lines := lines, cy := b.cy + b.cutBuf.length, cx := 0 }

def findInLine (line query : Line) (start : Nat) : Option Nat :=
  if query = [] ∨ query.length > line.length then none
  else (List.range' start (line.length - query.length + 1 - start)).find? fun i ↦
    (line.drop i).take query.length = query

/-- The loop of `search_forward` over the rows from the cursor on; `row` is always a line. -/
def searchForward (query : Line) (startRow startCol : Nat) : Buffer :=
  let found := (List.range b.lines.length).findSome? fun offset ↦
    let row := (startRow + offset) % b.lines.length
    (findInLine (b.lines.getD row []) query (if offset = 0 then startCol else 0)).map fun col ↦ (row, col)
  match found with
  | some (row, col) => { b with cy := row, cx := col }
  | none => b

/-- `search`, given the answer to its prompt. -/
def search : Option Line → Buffer
  | none => b
  | some q =>
    let query := if q = [] then b.lastSearch else q
    if query = [] then b else searchForward { b with lastSearch := query } query b.cy (b.cx + 1)

theorem findInLine_some {line query : Line} {start p : Nat} (h : findInLine line query start = some p) :
    start ≤ p ∧ 0 < query.length ∧ p + query.length ≤ line.length := by
  unfold findInLine at h
  split at h
  · cases h
  · next hq =>
    have hmem := mem_range'_1.mp (mem_of_find?_eq_some h)
    have hpos : 0 < query.length := length_pos_iff.mpr (fun e ↦ hq (.inl e))
    omega

/-- The inner loop of `replace`. -/
def replaceLine (searchQ replaceWith line : Line) (col : Nat) : Line :=
  match _h : findInLine line searchQ col with
  | none => line
  | some p => replaceLine searchQ replaceWith
      (line.take p ++ replaceWith ++ line.drop (p + searchQ.length)) (p + replaceWith.length)
termination_by line.length - col
decreasing_by
  have := findInLine_some _h
  simp only [List.length_append, List.length_take, List.length_drop]
  omega

/-- What the inner loop of `replace` adds to `count`. -/
def countLine (searchQ replaceWith line : Line) (col : Nat) : Nat :=
  match h : findInLine line searchQ col with
  | none => 0
  | some p => countLine searchQ replaceWith
      (line.take p ++ replaceWith ++ line.drop (p + searchQ.length)) (p + replaceWith.length) + 1
termination_by line.length - col
decreasing_by
  have := findInLine_some h
  simp only [List.length_append, List.length_take, List.length_drop]
  omega

def replaceCount (searchQ replaceWith : Line) : Nat :=
  (b.lines.map fun line ↦ countLine searchQ replaceWith line 0).sum

/-- `replace`, given the answers to its prompts. -/
def replace : Option Line → Option Line → Buffer
  | some searchQ, some replaceWith =>
    if searchQ = [] then b else { b with lines := b.lines.map fun line ↦ replaceLine searchQ replaceWith line 0 }
  | _, _ => b

/-- The arithmetic of `usize` wraps in a user program. -/
def parseNum (s : Line) : Nat :=
  s.foldl (fun n c ↦ if 48 ≤ c ∧ c ≤ 57 then (n * 10 + (c - 48).toNat) % 2 ^ 32 else n) 0

def gotoLine : Option Line → Buffer
  | none => b
  | some input =>
    let n := parseNum input
    if n > 0 ∧ n ≤ b.lines.length then { b with cy := n - 1, cx := 0 } else b

/-- An operation of the editor, with the answers to its prompts and the result of the file system. -/
inductive Act
  | insert (c : UInt8) | tab | enter | backspace | delete | cut | paste
  | search (q : Option Line)
  | replace (searchQ replaceWith : Option Line)
  | goto (input : Option Line)
  | key (k : Key)
  | load (reads : Option (List Line))
  | save

def load : Option (List Line) → Buffer
  | none => b
  | some reads => loadFile b reads

def step : Act → Option Buffer
  | .insert c => insertChar b c
  | .tab => insertChar b 9
  | .enter => insertNewline b
  | .backspace => deleteChar b
  | .delete => deleteForward b
  | .cut => some (cutLine b)
  | .paste => pasteLines b
  | .search q => some (search b q)
  | .replace q r => some (replace b q r)
  | .goto input => some (gotoLine b input)
  | .key k => moveCursor b k
  | .load reads => some (load b reads)
  | .save => some b

/-- The number of occurrences of `q` from the left that do not overlap, behind the first `skip` bytes. -/
def occurrences (q : Line) : Nat → Line → Nat
  | _, [] => 0
  | skip + 1, _ :: line => occurrences q skip line
  | 0, c :: line =>
    if q <+: c :: line then occurrences q (q.length - 1) line + 1 else occurrences q 0 line

/-- A replacement does not make the line of the cursor end before the cursor. -/
def Fits : Act → Prop
  | .replace (some q) (some r) => ∀ line ∈ b.lines[b.cy]?,
    b.cx + occurrences q 0 line * q.length ≤ line.length + occurrences q 0 line * r.length
  | _ => True

end Commands

/-- The occurrences of `q` are replaced from the left, and the search goes on behind each of them. -/
inductive Replaced (q r : Line) : Line → Line → Nat → Prop
  | none {line : Line} : ¬ q <:+: line → Replaced q r line line 0
  | next {pre rest line : Line} {n : Nat} : (∀ i < pre.length, ¬ q <+: (pre ++ (q ++ rest)).drop i) →
      Replaced q r rest line n → Replaced q r (pre ++ (q ++ rest)) (pre ++ (r ++ line)) (n + 1)

section Replace

variable {q r line rest : Line} {p n : Nat}

theorem Replaced.count_le (hq : q ≠ []) (h : Replaced q r rest line n) : n ≤ rest.length := by
  induction h with
  | none => exact Nat.zero_le _
  | next _ _ ih =>
    have := length_pos_iff.mpr hq
    simp only [length_append]
    omega

theorem Replaced.length (h : Replaced q r rest line n) :
    line.length + n * q.length = rest.length + n * r.length := by
  induction h with
  | none => rw [Nat.zero_mul, Nat.zero_mul]
  | next _ _ ih =>
    simp only [length_append, Nat.add_mul]
    omega

theorem occurrences_skip (l : Line) : occurrences q l.length (l ++ rest) = occurrences q 0 rest := by
  induction l with
  | nil => rfl
  | cons c l ih => exact ih

theorem Replaced.count_eq (hq : q ≠ []) (h : Replaced q r rest line n) : n = occurrences q 0 rest := by
  induction h with
  | @none line hnot =>
    induction line with
    | nil => rfl
    | cons c line ih =>
      rw [occurrences, if_neg fun h ↦ hnot h.isInfix]
      exact ih fun h ↦ hnot (h.trans (suffix_cons c line).isInfix)
  | @next pre rest line n hfirst _ ih =>
    rw [ih]
    clear ih
    induction pre with
    | nil =>
      obtain ⟨c, q', rfl⟩ := exists_cons_of_ne_nil hq
      rw [nil_append, cons_append, occurrences, if_pos (show c :: q' <+: c :: (q' ++ rest) from prefix_append (c :: q') rest), length_cons, Nat.add_sub_cancel,
        occurrences_skip]
    | cons c pre ih =>
      have hnot : ¬ q <+: c :: (pre ++ (q ++ rest)) := hfirst 0 (by simp)
      rw [cons_append, occurrences, if_neg hnot]
      exact ih fun i hi ↦ hfirst (i + 1) (by simpa using hi)

theorem prefix_drop_iff : decide (((line ++ rest).drop (line.length + p)).take q.length = q) = true ↔
    q <+: rest.drop p := by
  rw [drop_length_add_append, decide_eq_true_eq, prefix_iff_eq_take, eq_comm]

theorem findInLine_none (hq : q ≠ []) (h : findInLine (line ++ rest) q line.length = none) : ¬ q <:+: rest := by
  rintro ⟨s, t, rfl⟩
  unfold findInLine at h
  rw [if_neg (by simp [hq]; omega), find?_range'_eq_none] at h
  have hs := h (line.length + s.length) (Nat.le_add_right _ _) (by simp; omega)
  rw [Bool.not_eq_eq_eq_not, Bool.not_true, ← Bool.not_eq_true] at hs
  exact hs (by simp)

theorem findInLine_next (h : findInLine (line ++ rest) q line.length = some p) : ∃ pre tl,
    rest = pre ++ (q ++ tl) ∧ p = line.length + pre.length ∧ ∀ i < pre.length, ¬ q <+: rest.drop i := by
  obtain ⟨hle, -, hfit⟩ := findInLine_some h
  obtain ⟨k, rfl⟩ := Nat.exists_eq_add_of_le hle
  obtain ⟨-, h⟩ := ite_none_left_eq_some.mp h
  obtain ⟨hk, -, hfirst⟩ := find?_range'_eq_some.mp h
  obtain ⟨tl, htl⟩ := prefix_drop_iff.mp hk
  rw [length_append] at hfit
  have hlen : (rest.take k).length = k := length_take_of_le (by omega)
  refine ⟨rest.take k, tl, ?_, by rw [hlen], fun i hi hpre ↦ ?_⟩
  · rw [htl, take_append_drop]
  · have hnot := hfirst (line.length + i) (Nat.le_add_right _ _) (by omega)
    rw [prefix_drop_iff.mpr hpre] at hnot
    cases hnot

theorem replaced_line (hq : q ≠ []) (r rest line : Line) :
    ∃ l, replaceLine q r (line ++ rest) line.length = line ++ l ∧
      Replaced q r rest l (countLine q r (line ++ rest) line.length) := by
  induction hn : rest.length using Nat.strong_induction_on generalizing rest line with
  | _ n ih =>
    rw [replaceLine, countLine]
    cases hfind : findInLine _ q line.length with
    | none => exact ⟨rest, rfl, .none (findInLine_none hq hfind)⟩
    | some p =>
      obtain ⟨pre, tl, rfl, rfl, hfirst⟩ := findInLine_next hfind
      have hpos := length_pos_iff.mpr hq
      have hline : (line ++ (pre ++ (q ++ tl))).take (line.length + pre.length) ++ r ++
          (line ++ (pre ++ (q ++ tl))).drop (line.length + pre.length + q.length) = line ++ pre ++ r ++ tl := by
        rw [← append_assoc line, ← length_append, take_left, drop_length_add_append, drop_left]
      obtain ⟨l, hl, hrep⟩ := ih tl.length (by simp at hn; omega) tl (line ++ pre ++ r) rfl
      rw [length_append, length_append] at hl hrep
      simp only [hline]
      exact ⟨pre ++ (r ++ l), by simpa using hl, .next hfirst hrep⟩

theorem Valid.replace {b : Buffer} (h : Valid b) (q r : Line) :
    Valid (Nano.replace b (some q) (some r)) ↔ Fits b (.replace (some q) (some r)) := by
  obtain ⟨line, hline, hx⟩ := h
  simp only [Fits, hline, Option.mem_def, Option.some.injEq, forall_eq']
  by_cases hq : q = []
  · subst hq
    refine iff_of_true ⟨line, hline, hx⟩ ?_
    simp only [length_nil, Nat.mul_zero, Nat.add_zero]
    exact hx.trans (Nat.le_add_right _ _)
  · obtain ⟨l, hl, hrep⟩ := replaced_line hq r line []
    have hnew : (Nano.replace b (some q) (some r)).lines[b.cy]? = some l := by
      rw [Nano.replace, if_neg hq]
      simpa [hline] using hl
    have hlen := hrep.length
    rw [← hrep.count_eq hq]
    refine ⟨fun ⟨l', hl', hx'⟩ ↦ ?_, fun hfit ↦ ⟨l, ?_, ?_⟩⟩
    · cases hnew.symm.trans (show _ = some l' by rw [← hl', Nano.replace, if_neg hq])
      rw [Nano.replace, if_neg hq] at hx'
      simp only at hx'
      omega
    · rw [← hnew, Nano.replace, if_neg hq]
    · rw [Nano.replace, if_neg hq]
      simp only
      omega

end Replace

section Runs

variable {b b' : Buffer} {a : Act}

theorem Valid.lt (h : Valid b) : b.cy < b.lines.length := by
  obtain ⟨l, hl, -⟩ := h
  exact (List.getElem?_eq_some_iff.mp hl).1

end Runs

section Rewriting

variable {q : Line}

/-- Every line is rewritten from the left to the right, what a replacement has put in is not searched, and
`count` is the number of the replacements, at most the number of bytes of the text. -/
theorem replace_rewrites (b : Buffer) (hq : q ≠ []) (r : Line) : ∃ res : List (Line × Nat),
    Forall₂ (fun line p ↦ Replaced q r line p.1 p.2) b.lines res ∧
      (replace b (some q) (some r)).lines = res.map Prod.fst ∧
      replaceCount b q r = (res.map Prod.snd).sum ∧ replaceCount b q r ≤ (b.lines.map length).sum := by
  have hline (line : Line) : Replaced q r line (replaceLine q r line 0) (countLine q r line 0) := by
    obtain ⟨l, hl, hrep⟩ := replaced_line hq r line []
    exact (show replaceLine q r line 0 = l from hl) ▸ hrep
  refine ⟨b.lines.map fun line ↦ (replaceLine q r line 0, countLine q r line 0), ?_, ?_, ?_, ?_⟩
  · exact forall₂_map_right_iff.mpr (forall₂_same.mpr fun line _ ↦ hline line)
  · rw [replace, if_neg hq, List.map_map]
    rfl
  · rw [List.map_map]
    rfl
  · exact sum_le_sum fun line _ ↦ (hline line).count_le hq

theorem replace_rewrites_overlapping : [97, 97] ≠ ([] : Line) ∧ ∃ res : List (Line × Nat),
    Forall₂ (fun line p ↦ Replaced [97, 97] [97] line p.1 p.2) [[97, 97, 97, 98]] res ∧
      (replace ⟨[[97, 97, 97, 98]], 0, 0, [], []⟩ (some [97, 97]) (some [97])).lines = res.map Prod.fst := by
  obtain ⟨res, hrep, hlines, -⟩ :=
    replace_rewrites ⟨[[97, 97, 97, 98]], 0, 0, [], []⟩ (q := [97, 97]) (by simp) [97]
  exact ⟨by simp, res, hrep, hlines⟩

end Rewriting

end Rxv6.User.Nano
