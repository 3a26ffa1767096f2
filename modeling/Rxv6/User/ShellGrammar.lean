import Rxv6.User.Shell

namespace Rxv6.User.Shell

open List Option

section Tokens

def Token.inSimple : Token → Bool
  | .word _ | .less | .greater | .greaterGreater => true
  | _ => false

/-- The tokens that go on with a pipeline, and with a list of pipelines between `&&` and `||`. -/
def Token.inPipeline (t : Token) : Bool := t.inSimple || t = .pipe

def Token.inChain (t : Token) : Bool := t.inPipeline || t = .andAnd || t = .orOr

def Token.closes : Token → Bool
  | .kThen | .kElif | .kElse | .kFi | .kDo | .kDone | .rParen => true
  | _ => false

def Follows (more : Token → Bool) (rest : List Token) : Prop := ∀ t ∈ rest.head?, more t = false

def Ended (rest : List Token) : Prop := ∀ t ∈ rest.head?, t.closes = true

def newlines (n : Nat) : List Token := List.replicate n .newline

variable {rest ts : List Token} {t : Token}

theorem skipNewlines_cons (h : t ≠ .newline) : skipNewlines (t :: ts) = t :: ts := by
  unfold skipNewlines
  split
  · next he => exact absurd (cons.inj he).1 h
  · rfl

theorem skipNewlines_newlines (n : Nat) (ts : List Token) : skipNewlines (newlines n ++ ts) = skipNewlines ts := by
  induction n with
  | zero => rfl
  | succ n ih => exact ih

theorem skipNewlines_skipNewlines (ts : List Token) : skipNewlines (skipNewlines ts) = skipNewlines ts := by
  fun_induction skipNewlines with
  | case1 ts ih => exact ih
  | case2 ts h => rw [skipNewlines.eq_def]; split <;> simp_all

theorem Ended.skipNewlines (h : Ended rest) : skipNewlines rest = rest := by
  cases rest with
  | nil => rfl
  | cons t rest =>
    refine skipNewlines_cons ?_
    rintro rfl
    cases h _ rfl

theorem expect_self : expect t (t :: ts) = (true, ts) := if_pos rfl

theorem expect_of_ne (h : ts.head? ≠ some t) : expect t ts = (false, ts) := if_neg h

end Tokens

inductive Mark
  | newline | semi
  deriving DecidableEq

def Mark.token : Mark → Token
  | .newline => .newline
  | .semi => .semi

def marks (l : List Mark) : List Token := l.map Mark.token

variable {l : List Mark} {rest : List Token} {n : Nat}

theorem marks_of_count_zero (h : l.count .semi = 0) : marks l = newlines l.length := by
  refine eq_replicate_iff.mpr ⟨by simp [marks], fun t ht ↦ ?_⟩
  obtain ⟨k, hk, rfl⟩ := mem_map.mp ht
  cases k with
  | newline => rfl
  | semi => exact absurd hk (count_eq_zero.mp h)

theorem marks_of_count_one (h : l.count .semi = 1) :
    ∃ a b, marks l = newlines a ++ .semi :: newlines b := by
  induction l with
  | nil => cases h
  | cons k l ih =>
    cases k with
    | newline =>
      obtain ⟨a, b, hl⟩ := ih (by simpa using h)
      exact ⟨a + 1, b, by rw [marks, map_cons, ← marks, hl]; rfl⟩
    | semi =>
      have hl : l.count .semi = 0 := by simpa using h
      exact ⟨0, l.length, by rw [marks, map_cons, ← marks, marks_of_count_zero hl]; rfl⟩

/-- How the phrases of one kind are written, what they are parsed to, and which of them are in order. -/
structure Lang (α : Type) where
  tokens : α → List Token
  cmd : α → Cmd
  Orderly : α → Prop
  head : ∀ a, Orderly a → ∃ t ts, tokens a = t :: ts ∧ t ≠ .newline
  full : ∀ a, Orderly a → (cmd a).isEmpty = false

/-- The parser takes the tokens of a phrase of fewer than `m` tokens, and nothing more. -/
def Parses {α : Type} (p : Parser) (L : Lang α) (stop : List Token → Prop) (m : Nat) : Prop :=
  ∀ a, L.Orderly a → (L.tokens a).length < m → ∀ rest, stop rest →
    p (L.tokens a ++ rest) = some (L.cmd a, rest)

theorem Lang.skipNewlines_tokens {α : Type} (L : Lang α) {a : α} (h : L.Orderly a) (n : Nat)
    (rest : List Token) : skipNewlines (newlines n ++ (L.tokens a ++ rest)) = L.tokens a ++ rest := by
  obtain ⟨t, ts, he, ht⟩ := L.head a h
  rw [skipNewlines_newlines, he, cons_append, skipNewlines_cons ht]

section Pipelines

/-- Commands between `|`, each with the newlines before it. -/
structure Pipeline (α : Type) where
  negate : Bool
  first : α
  rest : List (Nat × α)

variable {α : Type} (L : Lang α)

def stages (l : List (Nat × α)) : List Token := l.flatMap fun s ↦ .pipe :: (newlines s.1 ++ L.tokens s.2)

def Lang.pipeline : Lang (Pipeline α) where
  tokens p := (if p.negate then [.bang] else []) ++ (L.tokens p.first ++ stages L p.rest)
  cmd p :=
    let c := pipelineOf (L.cmd p.first :: p.rest.map fun s ↦ L.cmd s.2)
    if p.negate then .not c else c
  Orderly p := L.Orderly p.first ∧ ∀ s ∈ p.rest, L.Orderly s.2
  head p h := by
    obtain ⟨t, ts, he, ht⟩ := L.head p.first h.1
    cases p.negate
    · exact ⟨t, ts ++ stages L p.rest, by simp [he], ht⟩
    · exact ⟨.bang, _, rfl, by simp⟩
  full p h := by
    have := L.full p.first h.1
    cases hp : p.negate with
    | true => simp [Cmd.isEmpty]
    | false =>
      cases p.rest with
      | nil => simpa [pipelineOf] using this
      | cons s l => simp [pipelineOf, Cmd.isEmpty]

variable {L} {command : Parser} {m : Nat} {rest : List Token}

theorem stages_cons (s : Nat × α) (l : List (Nat × α)) (rest : List Token) : stages L (s :: l) ++ rest =
    .pipe :: (newlines s.1 ++ (L.tokens s.2 ++ (stages L l ++ rest))) := by
  simp [stages]

theorem length_le_stages (L : Lang α) (l : List (Nat × α)) : l.length ≤ (stages L l).length := by
  induction l with
  | nil => exact le_rfl
  | cons s l ih =>
    rw [← append_nil (stages L (s :: l)), stages_cons]
    simp only [length_cons, length_append]
    omega

theorem follows_stages (L : Lang α) (l : List (Nat × α)) (h : Follows Token.inPipeline rest) :
    Follows Token.inSimple (stages L l ++ rest) := by
  cases l with
  | nil => exact fun t ht ↦ (Bool.or_eq_false_iff.mp (h t ht)).1
  | cons s l =>
    rintro t ⟨⟩
    rfl

theorem pipeLoop_stop (h : Follows Token.inPipeline rest) (turns : Nat) (cmds : List Cmd) :
    pipeLoop command (turns + 1) cmds rest = some (cmds, rest) := by
  rw [pipeLoop.eq_def]
  simp only
  split
  · cases h _ rfl
  · rfl

theorem Parses.pipeLoop (h : Parses command L (Follows Token.inSimple) m) (l : List (Nat × α)) :
    ∀ turns cmds rest, (∀ s ∈ l, L.Orderly s.2) → (stages L l).length ≤ m → l.length < turns →
      Follows Token.inPipeline rest →
      pipeLoop command turns cmds (stages L l ++ rest) = some (cmds ++ l.map fun s ↦ L.cmd s.2, rest) := by
  induction l with
  | nil =>
    intro turns cmds rest _ _ hturns hrest
    obtain ⟨turns, rfl⟩ : ∃ k, turns = k + 1 := ⟨turns - 1, by omega⟩
    rw [map_nil, append_nil]
    exact pipeLoop_stop hrest turns cmds
  | cons s l ih =>
    intro turns cmds rest hok hm hturns hrest
    obtain ⟨turns, rfl⟩ : ∃ k, turns = k + 1 := ⟨turns - 1, by omega⟩
    have hs := hok s mem_cons_self
    rw [← append_nil (stages L (s :: l)), stages_cons] at hm
    simp only [length_cons, length_append] at hm
    have hc := h s.2 hs (by omega) _ (follows_stages L l hrest)
    have hrec := ih turns (cmds ++ [L.cmd s.2]) rest (fun s' hs' ↦ hok s' (mem_cons_of_mem _ hs')) (by omega)
      (by simpa using hturns) hrest
    rw [stages_cons, pipeLoop.eq_def]
    simp only [L.skipNewlines_tokens hs, hc, bind_eq_bind, bind_some, hrec]
    simp

theorem Parses.parsePipeline (h : Parses command L (Follows Token.inSimple) m)
    (hbang : ∀ a, L.Orderly a → (L.tokens a).head? ≠ some .bang) :
    Parses (parsePipeline command) L.pipeline (Follows Token.inPipeline) m := by
  rintro ⟨negate, first, l⟩ ⟨hfirst, hl⟩ hm rest hrest
  simp only [Lang.pipeline, length_append] at hm
  have hexpect : expect .bang ((if negate then [.bang] else []) ++ (L.tokens first ++ (stages L l ++ rest))) =
      (negate, L.tokens first ++ (stages L l ++ rest)) := by
    cases negate with
    | true => exact expect_self
    | false =>
      obtain ⟨t, ts, he, -⟩ := L.head first hfirst
      have := hbang first hfirst
      refine expect_of_ne ?_
      simpa [he] using this
  have hc := h first hfirst (by omega) _ (follows_stages L l hrest)
  have hloop := h.pipeLoop l ((stages L l ++ rest).length + 1) [L.cmd first] rest hl (by omega)
    (by have := length_le_stages L l; rw [length_append]; omega) hrest
  simp only [Lang.pipeline, append_assoc, Shell.parsePipeline, hexpect, hc, hloop, bind_eq_bind,
    bind_some, singleton_append]

end Pipelines

section Chains

/-- Pipelines between `&&` (`true`) and `||`, each with the newlines before it. -/
structure Chain (α : Type) where
  first : α
  rest : List (Bool × Nat × α)

variable {α : Type} (L : Lang α)

def links (l : List (Bool × Nat × α)) : List Token :=
  l.flatMap fun s ↦ (if s.1 then .andAnd else .orOr) :: (newlines s.2.1 ++ L.tokens s.2.2)

def joined (left : Cmd) (l : List (Bool × Nat × α)) : Cmd :=
  l.foldl (fun left s ↦ if s.1 then .and left (L.cmd s.2.2) else .or left (L.cmd s.2.2)) left

theorem joined_full {left : Cmd} (h : left.isEmpty = false) (l : List (Bool × Nat × α)) :
    (joined L left l).isEmpty = false := by
  induction l generalizing left with
  | nil => exact h
  | cons s l ih =>
    refine ih (show Cmd.isEmpty (if s.1 then _ else _) = false from ?_)
    split <;> rfl

def Lang.chain : Lang (Chain α) where
  tokens c := L.tokens c.first ++ links L c.rest
  cmd c := joined L (L.cmd c.first) c.rest
  Orderly c := L.Orderly c.first ∧ ∀ s ∈ c.rest, L.Orderly s.2.2
  head c h := by
    obtain ⟨t, ts, he, ht⟩ := L.head c.first h.1
    exact ⟨t, ts ++ links L c.rest, by simp [he], ht⟩
  full c h := joined_full L (L.full c.first h.1) c.rest

variable {L} {pipeline : Parser} {m : Nat} {rest : List Token}

theorem links_cons (s : Bool × Nat × α) (l : List (Bool × Nat × α)) (rest : List Token) :
    links L (s :: l) ++ rest = (if s.1 then .andAnd else .orOr) ::
      (newlines s.2.1 ++ (L.tokens s.2.2 ++ (links L l ++ rest))) := by
  simp [links]

theorem length_le_links (L : Lang α) (l : List (Bool × Nat × α)) : l.length ≤ (links L l).length := by
  induction l with
  | nil => exact le_rfl
  | cons s l ih =>
    rw [← append_nil (links L (s :: l)), links_cons]
    simp only [length_cons, length_append]
    omega

theorem follows_links (L : Lang α) (l : List (Bool × Nat × α)) (h : Follows Token.inChain rest) :
    Follows Token.inPipeline (links L l ++ rest) := by
  cases l with
  | nil => exact fun t ht ↦ (Bool.or_eq_false_iff.mp (Bool.or_eq_false_iff.mp (h t ht)).1).1
  | cons s l =>
    rintro t ⟨⟩
    cases s.1 <;> rfl

theorem andOrLoop_stop (h : Follows Token.inChain rest) (turns : Nat) (left : Cmd) :
    andOrLoop pipeline (turns + 1) left rest = some (left, rest) := by
  rw [andOrLoop.eq_def]
  simp only
  split
  · cases h _ rfl
  · cases h _ rfl
  · rfl

section

variable (h : Parses pipeline L (Follows Token.inPipeline) m)
include h

theorem Parses.andOrLoop (l : List (Bool × Nat × α)) :
    ∀ turns left rest, (∀ s ∈ l, L.Orderly s.2.2) → (links L l).length ≤ m → l.length < turns →
      Follows Token.inChain rest →
      andOrLoop pipeline turns left (links L l ++ rest) = some (joined L left l, rest) := by
  induction l with
  | nil =>
    intro turns left rest _ _ hturns hrest
    obtain ⟨turns, rfl⟩ : ∃ k, turns = k + 1 := ⟨turns - 1, by omega⟩
    exact andOrLoop_stop hrest turns left
  | cons s l ih =>
    intro turns left rest hok hm hturns hrest
    obtain ⟨turns, rfl⟩ : ∃ k, turns = k + 1 := ⟨turns - 1, by omega⟩
    have hs := hok s mem_cons_self
    rw [← append_nil (links L (s :: l)), links_cons] at hm
    simp only [length_cons, length_append] at hm
    have hc := h s.2.2 hs (by omega) _ (follows_links L l hrest)
    have hrec := fun left' ↦ ih turns left' rest (fun s' hs' ↦ hok s' (mem_cons_of_mem _ hs')) (by omega)
      (by simpa using hturns) hrest
    rw [links_cons, andOrLoop.eq_def, joined, foldl_cons]
    cases s.1 <;>
      simp only [if_true, Bool.false_eq_true, if_false, L.skipNewlines_tokens hs, hc, bind_eq_bind,
        bind_some, hrec] <;> rfl

theorem Parses.parseAndOr :
    Parses (parseAndOr pipeline) L.chain (Follows Token.inChain) m := by
  rintro ⟨first, l⟩ ⟨hfirst, hl⟩ hm rest hrest
  simp only [Lang.chain, length_append] at hm
  have hc := h first hfirst (by omega) _ (follows_links L l hrest)
  have hloop := h.andOrLoop l ((links L l ++ rest).length + 1) (L.cmd first) rest hl (by omega)
    (by have := length_le_links L l; rw [length_append]; omega) hrest
  simp only [Lang.chain, append_assoc, Shell.parseAndOr, hc, bind_eq_bind, bind_some, hloop]

end

end Chains

section Blocks

/-- A list of commands: each one after the first has the separator before it, and there may be marks after
the last one. -/
structure Block (α : Type) where
  first : α
  rest : List (List Mark × α)
  trail : List Mark

def Block.commands {α : Type} (b : Block α) : List α := b.first :: b.rest.map Prod.snd

variable {α : Type} (L : Lang α)

def items (l : List (List Mark × α)) : List Token := l.flatMap fun s ↦ marks s.1 ++ L.tokens s.2

theorem sequenceOf_full {c : Cmd} (h : c.isEmpty = false) (cmds : List Cmd) :
    (sequenceOf (c :: cmds)).isEmpty = false := by
  cases cmds with
  | nil => exact h
  | cons _ _ => rfl

/-- A block is in order if every separator has exactly one semicolon, and there is at most one after the
last command. -/
def Lang.block : Lang (Block α) where
  tokens b := L.tokens b.first ++ (items L b.rest ++ marks b.trail)
  cmd b := sequenceOf (b.commands.map L.cmd)
  Orderly b := L.Orderly b.first ∧ (∀ s ∈ b.rest, s.1.count .semi = 1 ∧ L.Orderly s.2) ∧
    b.trail.count .semi ≤ 1
  head b h := by
    obtain ⟨t, ts, he, ht⟩ := L.head b.first h.1
    exact ⟨t, ts ++ (items L b.rest ++ marks b.trail), by simp [he], ht⟩
  full b h := sequenceOf_full (L.full b.first h.1) _

variable {L} {andOr : Parser} {m : Nat} {rest : List Token}

theorem items_cons (s : List Mark × α) (l : List (List Mark × α)) (rest : List Token) :
    items L (s :: l) ++ rest = marks s.1 ++ (L.tokens s.2 ++ (items L l ++ rest)) := by
  simp [items]

theorem follows_marks (l : List Mark) (h : Ended rest) : Follows Token.inChain (marks l ++ rest) := by
  cases l with
  | nil =>
    intro t ht
    have hc := h t ht
    cases t <;> first | rfl | cases hc
  | cons k l =>
    rintro t ⟨⟩
    cases k <;> rfl

theorem follows_items (L : Lang α) (l : List (List Mark × α)) (hl : ∀ s ∈ l, s.1.count .semi = 1)
    (trail : List Mark) (h : Ended rest) : Follows Token.inChain (items L l ++ (marks trail ++ rest)) := by
  cases l with
  | nil => exact follows_marks trail h
  | cons s l =>
    rw [items_cons]
    cases hs : s.1 with
    | nil =>
      have := hl s mem_cons_self
      rw [hs] at this
      cases this
    | cons k l =>
      rintro t ⟨⟩
      cases k <;> rfl

theorem listLoop_ended (h : Ended rest) (turns n : Nat) (cmds : List Cmd) :
    listLoop andOr (turns + 1) cmds (newlines n ++ rest) = some (cmds, rest) := by
  rw [listLoop, skipNewlines_newlines, h.skipNewlines]
  split
  · cases h _ rfl
  · cases h _ rfl
  · cases h _ rfl
  · rfl

theorem listLoop_semi (turns n : Nat) (cmds : List Cmd) (ts : List Token) :
    listLoop andOr (turns + 1) cmds (newlines n ++ .semi :: ts) =
      nextCommand andOr (listLoop andOr turns) cmds ts := by
  rw [listLoop, skipNewlines_newlines, skipNewlines_cons (by decide)]

theorem listLoop_trail (hempty : ∀ rest, Ended rest → andOr rest = some (.empty, rest)) {trail : List Mark}
    (htrail : trail.count .semi ≤ 1) (h : Ended rest) (turns : Nat) (cmds : List Cmd) :
    listLoop andOr (turns + 1) cmds (marks trail ++ rest) = some (cmds, rest) := by
  rcases Nat.le_one_iff_eq_zero_or_eq_one.mp htrail with h0 | h1
  · rw [marks_of_count_zero h0]
    exact listLoop_ended h turns _ cmds
  · obtain ⟨a, b, he⟩ := marks_of_count_one h1
    rw [he, append_assoc, cons_append, listLoop_semi, nextCommand, skipNewlines_newlines,
      h.skipNewlines, hempty rest h]
    rfl

theorem Parses.listLoop (h : Parses andOr L (Follows Token.inChain) m)
    (hempty : ∀ rest, Ended rest → andOr rest = some (.empty, rest)) (l : List (List Mark × α)) :
    ∀ turns cmds trail rest, (∀ s ∈ l, s.1.count .semi = 1 ∧ L.Orderly s.2) → trail.count .semi ≤ 1 →
      (items L l).length ≤ m → l.length < turns → Ended rest →
      listLoop andOr turns cmds (items L l ++ (marks trail ++ rest)) =
        some (cmds ++ l.map fun s ↦ L.cmd s.2, rest) := by
  induction l with
  | nil =>
    intro turns cmds trail rest _ htrail _ hturns hrest
    obtain ⟨turns, rfl⟩ : ∃ k, turns = k + 1 := ⟨turns - 1, by omega⟩
    rw [map_nil, append_nil]
    exact listLoop_trail hempty htrail hrest turns cmds
  | cons s l ih =>
    intro turns cmds trail rest hok htrail hm hturns hrest
    obtain ⟨turns, rfl⟩ : ∃ k, turns = k + 1 := ⟨turns - 1, by omega⟩
    obtain ⟨hsep, hs⟩ := hok s mem_cons_self
    have hl : ∀ s' ∈ l, s'.1.count .semi = 1 ∧ L.Orderly s'.2 := fun s' hs' ↦ hok s' (mem_cons_of_mem _ hs')
    obtain ⟨a, b, he⟩ := marks_of_count_one hsep
    rw [← append_nil (items L (s :: l)), items_cons, he] at hm
    simp only [length_cons, length_append] at hm
    have hc := h s.2 hs (by omega) _ (follows_items L l (fun s' hs' ↦ (hl s' hs').1) trail hrest)
    have hrec := ih turns (cmds ++ [L.cmd s.2]) trail rest hl htrail (by omega) (by simpa using hturns) hrest
    rw [items_cons, he, append_assoc, cons_append, listLoop_semi, nextCommand, L.skipNewlines_tokens hs, hc]
    simp only [bind_eq_bind, bind_some, L.full s.2 hs, hrec]
    simp

theorem length_le_items (L : Lang α) (l : List (List Mark × α)) (hl : ∀ s ∈ l, s.1.count .semi = 1) :
    l.length ≤ (items L l).length := by
  induction l with
  | nil => exact le_rfl
  | cons s l ih =>
    obtain ⟨a, b, he⟩ := marks_of_count_one (hl s mem_cons_self)
    have := ih fun s' hs' ↦ hl s' (mem_cons_of_mem _ hs')
    rw [← append_nil (items L (s :: l)), items_cons, he]
    simp only [length_cons, length_append]
    omega

theorem Parses.parseListOf (h : Parses andOr L (Follows Token.inChain) m)
    (hempty : ∀ rest, Ended rest → andOr rest = some (.empty, rest)) :
    Parses (parseListOf andOr) L.block Ended m := by
  rintro ⟨first, l, trail⟩ ⟨hfirst, hl, htrail⟩ hm rest hrest
  simp only [Lang.block, length_append] at hm
  have hc := h first hfirst (by omega) _ (follows_items L l (fun s hs ↦ (hl s hs).1) trail hrest)
  have hloop := h.listLoop hempty l ((items L l ++ (marks trail ++ rest)).length + 1) [L.cmd first] trail rest hl
    htrail (by omega) (by
      have := length_le_items L l fun s hs ↦ (hl s hs).1
      rw [length_append]
      omega) hrest
  have hskip := L.skipNewlines_tokens hfirst 0 (items L l ++ (marks trail ++ rest))
  rw [newlines, replicate_zero, nil_append] at hskip
  simp only [Lang.block, append_assoc, Shell.parseListOf, hskip, hc, bind_eq_bind, bind_some,
    L.full first hfirst, hloop]
  simp [Block.commands, Function.comp_def]

end Blocks

section Nodes

inductive Piece
  | word (w : Text)
  | stdin (file : Text)
  | stdout (append : Bool) (file : Text)
  | stderr (append : Bool) (file : Text)

namespace Piece

def tokens : Piece → List Token
  | .word w => [.ofWord w]
  | .stdin file => [.less, .ofWord file]
  | .stdout append file => [if append then .greaterGreater else .greater, .ofWord file]
  | .stderr append file => [.word (if append then ['2', '>', '>'] else ['2', '>']), .ofWord file]

/-- A file that is spelled like a keyword is taken and forgotten. -/
def add (s : Simple) : Piece → Simple
  | .word w => s.addWord w
  | .stdin file => s.redirect Simple.setStdin (.ofWord file)
  | .stdout append file => s.redirect (Simple.setStdout append) (.ofWord file)
  | .stderr _ file => s.redirect Simple.setStderr (.ofWord file)

/-- No word is spelled like a keyword, and a word `2>` or `2>>` has a file after it. -/
def Plain : Piece → Prop
  | .word w => isKeyword w = none ∧ awaitsFile w = false
  | _ => True

end Piece

variable {w : Text} {t : Token}

theorem ofWord_plain (h : isKeyword w = none) : Token.ofWord w = .word w := by
  rw [Token.ofWord, h]
  rfl

variable {rest : List Token}

theorem simpleLoop_stop (h : Follows Token.inSimple rest) (s : Simple) : simpleLoop rest s = (s, rest) := by
  cases rest with
  | nil => rfl
  | cons t rest =>
    have := h t rfl
    cases t <;> first | rfl | cases this

theorem simpleLoop_word (h : awaitsFile w = false) (ts : List Token) (s : Simple) :
    simpleLoop (.word w :: ts) s = simpleLoop ts (s.addWord w) := by
  rw [simpleLoop.eq_def]
  simp [h]

theorem simpleLoop_pieces (h : Follows Token.inSimple rest) (l : List Piece) (hl : ∀ p ∈ l, p.Plain) :
    ∀ s, simpleLoop (l.flatMap Piece.tokens ++ rest) s = (l.foldl Piece.add s, rest) := by
  induction l with
  | nil => exact simpleLoop_stop h
  | cons p l ih =>
    intro s
    have ih := ih fun p' hp ↦ hl p' (mem_cons_of_mem _ hp)
    have hp := hl p mem_cons_self
    rw [flatMap_cons, append_assoc]
    cases p with
    | word w =>
      rw [Piece.tokens, ofWord_plain hp.1, singleton_append, simpleLoop_word hp.2]
      exact ih _
    | stdin file => exact ih _
    | stdout append file => cases append <;> exact ih _
    | stderr append file => cases append <;> exact ih _

structure Body (α : Type) where
  lead : Nat
  block : α

/-- The commands: a simple one or a compound one over lists from `α`. -/
inductive Node (α : Type)
  | simple (pieces : List Piece)
  | ifThen (cond thenBody : Body α) (elifs : List (Body α × Body α)) (elseBody : Option (Body α))
  | whileDo (cond body : Body α)
  | untilDo (cond body : Body α)
  | forIn (var : Text) (words : Option (Nat × List Text)) (sep : List Mark) (body : Body α)
  | subshell (body : Body α)

variable {α : Type} (L : Lang α)

def Body.tokens (b : Body α) : List Token := newlines b.lead ++ L.tokens b.block

def Body.upTo (b : Body α) (t : Token) : List Token := b.tokens L ++ [t]

def elifTokens (l : List (Body α × Body α)) : List Token :=
  l.flatMap fun e ↦ .kElif :: (e.1.upTo L .kThen ++ e.2.tokens L)

def elseTokens (e : Option (Body α)) : List Token := e.elim [] fun b ↦ .kElse :: b.tokens L

def inTokens (words : Option (Nat × List Text)) : List Token :=
  words.elim [] fun w ↦ newlines w.1 ++ .kIn :: w.2.map .ofWord

namespace Node

def tokens : Node α → List Token
  | .simple pieces => pieces.flatMap Piece.tokens
  | .ifThen cond thenBody elifs elseBody =>
    .kIf :: (cond.upTo L .kThen ++ (thenBody.tokens L ++ (elifTokens L elifs ++ (elseTokens L elseBody ++ [.kFi]))))
  | .whileDo cond body => .kWhile :: (cond.upTo L .kDo ++ body.upTo L .kDone)
  | .untilDo cond body => .kUntil :: (cond.upTo L .kDo ++ body.upTo L .kDone)
  | .forIn var words sep body =>
    .kFor :: .ofWord var :: (inTokens words ++ (marks sep ++ .kDo :: body.upTo L .kDone))
  | .subshell body => .lParen :: body.upTo L .rParen

def cmd : Node α → Cmd
  | .simple pieces => (pieces.foldl Piece.add {}).cmd
  | .ifThen cond thenBody elifs elseBody =>
    .ifThen (L.cmd cond.block) (L.cmd thenBody.block)
      (elifs.map fun e ↦ (L.cmd e.1.block, L.cmd e.2.block)) (elseBody.map fun b ↦ L.cmd b.block)
  | .whileDo cond body => .whileDo (L.cmd cond.block) (L.cmd body.block)
  | .untilDo cond body => .untilDo (L.cmd cond.block) (L.cmd body.block)
  | .forIn var words _ body => .forIn var ((words.map Prod.snd).getD []) (L.cmd body.block)
  | .subshell body => .subshell (L.cmd body.block)

def Orderly : Node α → Prop
  | .simple pieces => (∀ p ∈ pieces, p.Plain) ∧ (pieces.foldl Piece.add {}).cmd.isEmpty = false
  | .ifThen cond thenBody elifs elseBody => L.Orderly cond.block ∧ L.Orderly thenBody.block ∧
      (∀ e ∈ elifs, L.Orderly e.1.block ∧ L.Orderly e.2.block) ∧ ∀ b ∈ elseBody, L.Orderly b.block
  | .whileDo cond body => L.Orderly cond.block ∧ L.Orderly body.block
  | .untilDo cond body => L.Orderly cond.block ∧ L.Orderly body.block
  | .forIn var words sep body => isKeyword var = none ∧ (∀ l ∈ words, ∀ w ∈ l.2, isKeyword w = none) ∧
      sep.count .semi ≤ 1 ∧ L.Orderly body.block
  | .subshell body => L.Orderly body.block

variable {L} in
theorem head_tokens {c : Node α} (h : c.Orderly L) :
    ∃ t ts, c.tokens L = t :: ts ∧ t ≠ .newline ∧ t ≠ .bang ∧
      ((∃ pieces, c = .simple pieces) → t.inSimple = true) := by
  cases c with
  | simple pieces =>
    obtain ⟨hplain, hfull⟩ := h
    cases pieces with
    | nil => cases hfull
    | cons p l =>
      have hp := hplain p mem_cons_self
      cases p with
      | word w =>
        refine ⟨.word w, l.flatMap Piece.tokens, ?_, by simp, by simp, fun _ ↦ rfl⟩
        rw [tokens, flatMap_cons, Piece.tokens, ofWord_plain hp.1, singleton_append]
      | stdin file => exact ⟨.less, _, rfl, by simp, by simp, fun _ ↦ rfl⟩
      | stdout append file =>
        cases append
        · exact ⟨.greater, _, rfl, by simp, by simp, fun _ ↦ rfl⟩
        · exact ⟨.greaterGreater, _, rfl, by simp, by simp, fun _ ↦ rfl⟩
      | stderr append file => exact ⟨.word _, _, rfl, by simp, by simp, fun _ ↦ rfl⟩
  | ifThen => exact ⟨.kIf, _, rfl, by simp, by simp, by simp⟩
  | whileDo => exact ⟨.kWhile, _, rfl, by simp, by simp, by simp⟩
  | untilDo => exact ⟨.kUntil, _, rfl, by simp, by simp, by simp⟩
  | forIn => exact ⟨.kFor, _, rfl, by simp, by simp, by simp⟩
  | subshell => exact ⟨.lParen, _, rfl, by simp, by simp, by simp⟩

end Node

def Lang.node : Lang (Node α) where
  tokens := Node.tokens L
  cmd := Node.cmd L
  Orderly := Node.Orderly L
  head c h := by
    obtain ⟨t, ts, he, ht, -⟩ := Node.head_tokens h
    exact ⟨t, ts, he, ht⟩
  full c h := by
    cases c with
    | simple pieces => exact h.2
    | _ => rfl

variable {L} {list : Parser} {m : Nat} {b : Body α}

theorem Parses.body (h : Parses list L Ended m) (hb : L.Orderly b.block)
    (hm : (b.tokens L).length < m) (hrest : Ended rest) :
    list (skipNewlines (b.tokens L ++ rest)) = some (L.cmd b.block, rest) := by
  rw [Body.tokens, length_append] at hm
  rw [Body.tokens, append_assoc, L.skipNewlines_tokens hb]
  exact h b.block hb (by omega) rest hrest

theorem ended_cons (ht : t.closes = true) (rest : List Token) : Ended (t :: rest) := by
  rintro _ ⟨⟩
  exact ht

theorem Parses.upTo (h : Parses list L Ended m) (hb : L.Orderly b.block)
    (hm : (b.tokens L).length < m) (t : Token) (ht : t.closes = true) (rest : List Token) :
    listUpTo list t (b.upTo L t ++ rest) = some (L.cmd b.block, rest) := by
  have hend := ended_cons ht rest
  rw [listUpTo, Body.upTo, append_assoc, singleton_append, h.body hb hm hend]
  simp only [bind_eq_bind, bind_some, hend.skipNewlines, expect_self]

theorem elifTokens_cons (p : Body α × Body α) (l : List (Body α × Body α)) (rest : List Token) :
    elifTokens L (p :: l) ++ rest = .kElif :: (p.1.upTo L .kThen ++ (p.2.tokens L ++ (elifTokens L l ++ rest))) := by
  simp [elifTokens]

theorem ended_elifs (l : List (Body α × Body α)) (e : Option (Body α)) (rest : List Token) :
    Ended (elifTokens L l ++ (elseTokens L e ++ .kFi :: rest)) := by
  cases l with
  | nil =>
    cases e with
    | none => exact ended_cons rfl rest
    | some b => exact ended_cons rfl _
  | cons p l =>
    exact ended_cons rfl _

theorem length_le_elifs (L : Lang α) (l : List (Body α × Body α)) : l.length ≤ (elifTokens L l).length := by
  induction l with
  | nil => exact le_rfl
  | cons p l ih =>
    rw [← append_nil (elifTokens L (p :: l)), elifTokens_cons]
    simp only [length_cons, length_append]
    omega

theorem Parses.ifLoop (h : Parses list L Ended m) (l : List (Body α × Body α)) :
    ∀ turns elifs (e : Option (Body α)) rest, (∀ p ∈ l, L.Orderly p.1.block ∧ L.Orderly p.2.block) →
      (∀ b ∈ e, L.Orderly b.block) → (elifTokens L l ++ elseTokens L e).length ≤ m → l.length < turns →
      ifLoop list turns elifs (elifTokens L l ++ (elseTokens L e ++ .kFi :: rest)) =
        some ((elifs ++ l.map fun p ↦ (L.cmd p.1.block, L.cmd p.2.block), e.map fun b ↦ L.cmd b.block),
          .kFi :: rest) := by
  induction l with
  | nil =>
    intro turns elifs e rest _ he hm hturns
    obtain ⟨turns, rfl⟩ : ∃ k, turns = k + 1 := ⟨turns - 1, by omega⟩
    rw [Shell.ifLoop]
    cases e with
    | none => simp [elifTokens, elseTokens, skipNewlines_cons]
    | some b =>
      simp only [elifTokens, elseTokens, Option.elim, flatMap_nil, nil_append, length_cons] at hm
      have hbody := h.body (he b rfl) (by omega) (ended_cons (t := .kFi) rfl rest)
      simp [elifTokens, elseTokens, skipNewlines_cons, hbody]
  | cons p l ih =>
    intro turns elifs e rest hl he hm hturns
    obtain ⟨turns, rfl⟩ : ∃ k, turns = k + 1 := ⟨turns - 1, by omega⟩
    obtain ⟨hcond, hthen⟩ := hl p mem_cons_self
    rw [elifTokens_cons] at hm
    simp only [length_cons, length_append, Body.upTo] at hm
    have hrec := ih turns (elifs ++ [(L.cmd p.1.block, L.cmd p.2.block)]) e rest
      (fun p' hp ↦ hl p' (mem_cons_of_mem _ hp)) he (by rw [length_append]; omega) (by simpa using hturns)
    rw [elifTokens_cons, Shell.ifLoop, skipNewlines_cons (by decide)]
    simp only [h.upTo hcond (by omega) .kThen rfl, h.body hthen (by omega) (ended_elifs l e rest),
      bind_eq_bind, bind_some, hrec]
    simp

theorem skipNewlines_sep {sep : List Mark} (hsep : sep.count .semi ≤ 1) (hnl : t ≠ .newline)
    (hsemi : t ≠ .semi) (ts : List Token) :
    skipNewlines (expect .semi (skipNewlines (marks sep ++ t :: ts))).2 = t :: ts := by
  rcases Nat.le_one_iff_eq_zero_or_eq_one.mp hsep with h0 | h1
  · rw [marks_of_count_zero h0, skipNewlines_newlines, skipNewlines_cons hnl, expect_of_ne (by simpa using hsemi),
      skipNewlines_cons hnl]
  · obtain ⟨a, b, he⟩ := marks_of_count_one h1
    rw [he, append_assoc, skipNewlines_newlines, cons_append, skipNewlines_cons (by decide), expect_self,
      skipNewlines_newlines, skipNewlines_cons hnl]

theorem forWords_map {ws : List Text} (hws : ∀ w ∈ ws, isKeyword w = none) (h : Follows Token.inSimple rest) :
    forWords (ws.map .ofWord ++ rest) = (ws, rest) := by
  induction ws with
  | nil =>
    cases rest with
    | nil => rfl
    | cons t rest =>
      have := h t rfl
      cases t <;> first | rfl | cases this
  | cons w ws ih =>
    rw [map_cons, cons_append, ofWord_plain (hws w mem_cons_self), forWords,
      ih fun w' hw ↦ hws w' (mem_cons_of_mem _ hw)]

theorem inWords_tokens {words : Option (Nat × List Text)} (hwords : ∀ l ∈ words, ∀ w ∈ l.2, isKeyword w = none)
    (sep : List Mark) (rest : List Token) :
    ∃ ts, inWords (skipNewlines (inTokens words ++ (marks sep ++ .kDo :: rest))) =
        ((words.map Prod.snd).getD [], ts) ∧
      skipNewlines ts = skipNewlines (marks sep ++ .kDo :: rest) := by
  have hhead : ∀ t ∈ (skipNewlines (marks sep ++ .kDo :: rest)).head?, t = .semi ∨ t = .kDo := by
    induction sep with
    | nil =>
      rintro _ ⟨⟩
      exact .inr rfl
    | cons k sep ih =>
      cases k with
      | newline => exact ih
      | semi =>
        rintro _ ⟨⟩
        exact .inl rfl
  cases words with
  | none =>
    refine ⟨skipNewlines _, ?_, skipNewlines_skipNewlines _⟩
    have hne : (skipNewlines (marks sep ++ .kDo :: rest)).head? ≠ some .kIn := fun he ↦ by
      rcases hhead _ he with h | h <;> cases h
    simp [inTokens, inWords, expect_of_ne hne]
  | some l =>
    have hfollow : Follows Token.inSimple (marks sep ++ .kDo :: rest) := by
      cases sep with
      | nil =>
        rintro _ ⟨⟩
        rfl
      | cons k sep =>
        rintro _ ⟨⟩
        cases k <;> rfl
    refine ⟨marks sep ++ .kDo :: rest, ?_, rfl⟩
    rw [inTokens, Option.elim, append_assoc, skipNewlines_newlines, cons_append, skipNewlines_cons (by decide), inWords, expect_self, forWords_map (hwords l rfl) hfollow]
    rfl

theorem Parses.parseCommand (h : Parses list L Ended m) (hskip : ∀ ts, list (skipNewlines ts) = list ts) :
    Parses (parseCommand list) L.node (Follows Token.inSimple) (m + 1) := by
  intro c hc hm rest hrest
  change (c.tokens L).length < m + 1 at hm
  change c.Orderly L at hc
  change Shell.parseCommand list (c.tokens L ++ rest) = some (c.cmd L, rest)
  cases c with
  | simple pieces =>
    obtain ⟨t, ts, he, hnl, -, hsimple⟩ := Node.head_tokens hc
    have hin := hsimple ⟨pieces, rfl⟩
    have hloop := simpleLoop_pieces hrest pieces hc.1 {}
    have hparse : Shell.parseCommand list (t :: (ts ++ rest)) = parseSimple (t :: (ts ++ rest)) := by
      cases t <;> first | rfl | cases hin
    rw [he, cons_append, hparse, ← cons_append, ← he, parseSimple]
    rw [Node.tokens, hloop]
    rfl
  | ifThen cond thenBody elifs elseBody =>
    obtain ⟨hcond, hthen, helifs, helse⟩ := hc
    have hlen := length_le_elifs L elifs
    simp only [Node.tokens, Body.upTo, length_cons, length_append] at hm
    have hloop := h.ifLoop elifs ((elifTokens L elifs ++ (elseTokens L elseBody ++ .kFi :: rest)).length + 1) []
      elseBody rest helifs helse (by rw [length_append]; omega) (by rw [length_append]; omega)
    rw [Node.tokens, cons_append, Shell.parseCommand, skipNewlines_cons (by decide)]
    simp only [parseIf, append_assoc, singleton_append, h.upTo hcond (by omega) .kThen rfl,
      h.body hthen (by omega) (ended_elifs elifs elseBody rest), bind_eq_bind, bind_some,
      hloop]
    rfl
  | whileDo cond body =>
    simp only [Node.tokens, Body.upTo, length_cons, length_append] at hm
    rw [Node.tokens, cons_append, append_assoc, Shell.parseCommand, skipNewlines_cons (by decide)]
    simp only [parseWhile, h.upTo hc.1 (by omega) .kDo rfl,
      h.upTo hc.2 (by omega) .kDone rfl, bind_eq_bind, bind_some]
    rfl
  | untilDo cond body =>
    simp only [Node.tokens, Body.upTo, length_cons, length_append] at hm
    rw [Node.tokens, cons_append, append_assoc, Shell.parseCommand, skipNewlines_cons (by decide)]
    simp only [parseUntil, h.upTo hc.1 (by omega) .kDo rfl,
      h.upTo hc.2 (by omega) .kDone rfl, bind_eq_bind, bind_some]
    rfl
  | forIn var words sep body =>
    obtain ⟨hvar, hwords, hsep, hbody⟩ := hc
    simp only [Node.tokens, Body.upTo, length_cons, length_append] at hm
    rw [Node.tokens, cons_append, ofWord_plain hvar, Shell.parseCommand, skipNewlines_cons (by decide)]
    obtain ⟨ts, hin, hts⟩ := inWords_tokens hwords sep (body.upTo L .kDone ++ rest)
    simp only [parseFor, append_assoc, cons_append, tail_cons, hin, hts,
      skipNewlines_sep hsep (show Token.kDo ≠ .newline by decide) (by decide), expect_self,
      h.upTo hbody (by omega) .kDone rfl]
    rfl
  | subshell body =>
    simp only [Node.tokens, Body.upTo, length_cons, length_append] at hm
    have hbody := h.body hc (by omega) (ended_cons (t := .rParen) rfl rest)
    rw [hskip] at hbody
    rw [Node.tokens, cons_append, Body.upTo, append_assoc, singleton_append, Shell.parseCommand,
      skipNewlines_cons (by decide)]
    simp only [hbody]
    rfl

end Nodes

def Level : Nat → Type
  | 0 => Empty
  | n + 1 => Node (Block (Chain (Pipeline (Level n))))

def level : (n : Nat) → Lang (Level n)
  | 0 => ⟨Empty.elim, Empty.elim, Empty.elim, fun a ↦ a.elim, fun a ↦ a.elim⟩
  | n + 1 => (level n).pipeline.chain.block.node

/-- The members of a list: commands and pipelines with `&&` and `||` between them. -/
abbrev Command (n : Nat) : Type := Chain (Pipeline (Level n))

abbrev Script (n : Nat) : Type := Block (Command n)

def command (n : Nat) : Lang (Command n) := (level n).pipeline.chain

def script (n : Nat) : Lang (Script n) := (command n).block

/-- The tokens of a well-formed command: they do not start with a newline, and `parse_and_or` takes them for
`c` and stops there, whatever follows that does not go on with a command. -/
structure WellFormed (ts : List Token) (c : Cmd) : Prop where
  head : ∃ t l, ts = t :: l ∧ t ≠ .newline
  full : c.isEmpty = false
  parse : ∀ m, ts.length ≤ m → ∀ rest, Follows Token.inChain rest →
    parseAndOr (parsePipeline (parseCommand (parseListAt m))) (ts ++ rest) = some (c, rest)

/-- The well-formed commands, each with its parse. -/
def wellFormed : Lang (List Token × Cmd) where
  tokens := Prod.fst
  cmd := Prod.snd
  Orderly p := WellFormed p.1 p.2
  head _ h := h.head
  full _ h := h.full

section Exact

variable {andOr : Parser} {m : Nat}

end Exact

end Rxv6.User.Shell
