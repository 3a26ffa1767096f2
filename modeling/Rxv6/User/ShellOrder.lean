import Rxv6.User.ShellText
import Rxv6.User.ShellGrammar

namespace Rxv6.User.Shell

open List

section Joined

variable {α β : Type}

def Lang.sum (L : Lang α) (M : Lang β) : Lang (α ⊕ β) where
  tokens := Sum.elim L.tokens M.tokens
  cmd := Sum.elim L.cmd M.cmd
  Orderly := Sum.elim L.Orderly M.Orderly
  head a h := by
    cases a with
    | inl a => exact L.head a h
    | inr a => exact M.head a h
  full a h := by
    cases a with
    | inl a => exact L.full a h
    | inr a => exact M.full a h

def Block.join (b : Block α) (lead : Nat) (c : Block β) : Block (α ⊕ β) where
  first := .inl b.first
  rest := b.rest.map (fun s ↦ (s.1, .inl s.2)) ++
    (b.trail ++ .semi :: List.replicate lead .newline, .inr c.first) :: c.rest.map fun s ↦ (s.1, .inr s.2)
  trail := c.trail

variable {L : Lang α} {M : Lang β} {p : Parser} {stop : List Token → Prop} {m : Nat} {b : Block α}

theorem Parses.sum (h : Parses p L stop m) (h' : Parses p M stop m) : Parses p (L.sum M) stop m := by
  intro a ha
  cases a with
  | inl a => exact h a ha
  | inr a => exact h' a ha

def Block.closed (b : Block α) : Block α := { b with trail := b.trail ++ [.semi] }

theorem closed_tokens (L : Lang α) (b : Block α) : L.block.tokens b.closed = L.block.tokens b ++ [.semi] := by
  simp [Lang.block, Block.closed, marks, Mark.token]

theorem closed_orderly (h : L.block.Orderly b) (htrail : b.trail.count .semi = 0) :
    L.block.Orderly b.closed :=
  ⟨h.1, h.2.1, by simp [Block.closed, htrail]⟩

end Joined

variable {W : Type} {words : List Text}

section Fuel

def Extends (r r' : Option (Outcome W)) : Prop := ∀ o, r = some o → r' = some o

def Agrees (f f' : Runner W) : Prop := ∀ c st, Extends (f c st) (f' c st)

variable {r r' : Option (Outcome W)} {os : Os W} {f f' : Runner W}

theorem Extends.refl (r : Option (Outcome W)) : Extends r r := fun _ h ↦ h

theorem Extends.ite {p : Prop} [Decidable p] {a a' b b' : Option (Outcome W)} (ha : Extends a a')
    (hb : Extends b b') : Extends (if p then a else b) (if p then a' else b') := by
  split
  · exact ha
  · exact hb

theorem Extends.andThen {k k' : Int → Session W → Option (Outcome W)} (hr : Extends r r')
    (hk : ∀ status st, Extends (k status st) (k' status st)) : Extends (andThen r k) (andThen r' k') := by
  intro o h
  cases r with
  | none => cases h
  | some o₁ =>
    rw [hr o₁ rfl]
    cases o₁ with
    | exited code st => exact h
    | done status st => exact hk status st o h

section

variable (h : Agrees f f')

include h

theorem Agrees.execAll (cmds : List Cmd) : ∀ status st,
    Extends (execAll f cmds status st) (execAll f' cmds status st) := by
  induction cmds with
  | nil => exact fun _ _ ↦ .refl _
  | cons c cmds ih => exact fun _ st ↦ (h c st).andThen fun _ _ ↦ ih _ _

theorem Agrees.execElifs (e : Option Cmd) (elifs : List (Cmd × Cmd)) : ∀ st,
    Extends (execElifs f e elifs st) (execElifs f' e elifs st) := by
  induction elifs with
  | nil =>
    intro st
    cases e with
    | none => exact .refl _
    | some body => exact h body st
  | cons p elifs ih => exact fun st ↦ (h p.1 st).andThen fun _ _ ↦ .ite (h _ _) (ih _)

theorem Agrees.execFor (var : Text) (body : Cmd) (words : List Text) : ∀ status st,
    Extends (execFor f var body words status st) (execFor f' var body words status st) := by
  induction words with
  | nil => exact fun _ _ ↦ .refl _
  | cons w words ih => exact fun _ st ↦ (h body _).andThen fun _ _ ↦ ih _ _

theorem Agrees.execWhile (goesOn : Int → Bool) (cond body : Cmd) (t : Nat) :
    ∀ t' ≥ t, ∀ status st,
      Extends (execWhile f goesOn cond body t status st) (execWhile f' goesOn cond body t' status st) := by
  induction t with
  | zero =>
    rintro _ _ _ _ _ ⟨⟩
  | succ t ih =>
    intro t' ht' status st
    obtain ⟨t', rfl⟩ : ∃ k, t' = k + 1 := ⟨t' - 1, by omega⟩
    refine (h cond st).andThen fun s st₁ ↦ .ite ((h body _).andThen fun s' st₂ ↦ ?_) (.refl _)
    exact ih t' (by omega) _ _

theorem Agrees.runString (input : Text) (st : Session W) :
    Extends (runString os f input st) (runString os f' input st) := by
  unfold Shell.runString
  simp only
  split
  · exact .refl _
  · exact (h _ _).andThen fun _ _ ↦ .refl _

theorem Agrees.runScript (path : Text) (args : List Text) (st : Session W) :
    Extends (runScript os f path args st) (runScript os f' path args st) := by
  unfold Shell.runScript
  simp only
  split
  · exact .refl _
  · exact (h.runString _ _).andThen fun _ _ ↦ .refl _

theorem Agrees.execSimple (s : Simple) (name : Text) (args : List Text) (st : Session W) :
    Extends (execSimple os f s name args st) (execSimple os f' s name args st) := by
  refine .ite (.refl _) <| .ite (.refl _) <| .ite (.refl _) <| .ite (.refl _) <| .ite (.refl _) <|
    .ite (.refl _) <| .ite (.refl _) <| .ite (.refl _) <| .ite (.refl _) <| .ite (.refl _) <| .ite ?_ (.refl _)
  cases args with
  | nil => exact .refl _
  | cons path args => exact h.runScript path _ st

theorem Agrees.execCmd {t t' : Nat} (ht : t ≤ t') (cmd : Cmd) (st : Session W) :
    Extends (execCmd os f t cmd st) (execCmd os f' t' cmd st) := by
  cases cmd with
  | empty => exact .refl _
  | simple s =>
    unfold Shell.execCmd
    simp only
    split
    · exact .refl _
    · exact h.execSimple _ _ _ _
  | pipeline cmds =>
    rcases cmds with _ | ⟨c, _ | ⟨d, cmds⟩⟩
    · exact .refl _
    · exact h c st
    · exact .refl _
  | and left right | or left right => exact (h left st).andThen fun _ _ ↦ .ite (h _ _) (.refl _)
  | not inner => exact (h inner st).andThen fun _ _ ↦ .refl _
  | sequence cmds => exact h.execAll cmds 0 st
  | background inner => exact .refl _
  | ifThen cond thenBody elifs elseBody =>
    exact (h cond st).andThen fun _ _ ↦ .ite (h _ _) (h.execElifs _ _ _)
  | whileDo cond body => exact h.execWhile _ cond body t t' ht 0 st
  | untilDo cond body => exact h.execWhile _ cond body t t' ht 0 st
  | forIn var words body => exact h.execFor var body words 0 st
  | subshell inner =>
    intro o ho
    obtain ⟨o₁, ho₁, rfl⟩ := Option.map_eq_some_iff.mp ho
    exact Option.map_eq_some_iff.mpr ⟨o₁, h inner st o₁ ho₁, rfl⟩

end

end Fuel

section Outcomes

def Growing (r : Nat → Option (Outcome W)) : Prop := ∀ n m, n ≤ m → Extends (r n) (r m)

variable {r : Nat → Option (Outcome W)} {input : Text} {st st' : Session W} {ts rest : List Token}

theorem Growing.unique (h : Growing r) {o o' : Outcome W} (ho : ∃ n, r n = some o)
    (ho' : ∃ n, r n = some o') : o = o' := by
  obtain ⟨n, hn⟩ := ho
  obtain ⟨m, hm⟩ := ho'
  have hmax := h n (max n m) (le_max_left n m) o hn
  rw [h m (max n m) (le_max_right n m) o' hm] at hmax
  exact (Option.some.inj hmax).symm

def finish (status : Int) (st : Session W) : Option (Outcome W) := some (.done status (st.setStatus status))

variable (os : Os W)

variable {os}

end Outcomes

section Laws

variable (os : Os W)

structure Reads (s : Text) (st : Session W) {n : Nat} (b : Script n) (st' : Session W) : Prop where
  tokens : ∃ lead, tokenize os s st = (newlines lead ++ (script n).tokens b, st')
  orderly : (script n).Orderly b

structure Lists (s : Text) (st : Session W) {n : Nat} (b : Script n) (st' : Session W) : Prop
    extends Reads os s st b st' where
  complete : Complete s
  noSemi : b.trail.count .semi = 0

variable {os} {s₁ s₂ : Text} {st st₁ : Session W} {n k : Nat} {b₁ : Script n} {b₂ : Script k}

variable {var body text cond : Text}

variable (os) in
/-- A text with the tokens of `for var in words; do body; done`, where `st₁` is the state after the words have
been expanded, and a text of the body by itself. -/
inductive ForText (st : Session W) : Text → Text → List Text → Text → Session W → Prop
  | mk {text var body : Text} {words : Option (Nat × List Text)} {sep : List Mark} {n lead k : Nat}
      {b b' : Script n} {st₁ : Session W}
      (htext : tokenize os text st =
        ((script n).node.tokens (.forIn var words sep ⟨lead, b'⟩) ++ newlines k, st₁))
      (horderly : (script n).node.Orderly (.forIn var words sep ⟨lead, b'⟩))
      (hsame : b'.commands = b.commands) (hbody : Reads os body st₁ b st₁) :
      ForText st text var ((words.map Prod.snd).getD []) body st₁

/-- The loop on one line. -/
theorem ForText.line {pre post : Text} {words : Option (Nat × List Text)} {sep : List Mark} {b : Script n}
    (hpre : tokenize os pre st = (.kFor :: .ofWord var :: (inTokens words ++ (marks sep ++ [.kDo])), st₁))
    (hcomplete : Complete pre) (hvar : isKeyword var = none)
    (hwords : ∀ l ∈ words, ∀ w ∈ l.2, isKeyword w = none) (hsep : sep.count .semi ≤ 1)
    (hbody : Lists os body st₁ b st₁) (hpost : tokenize os post st₁ = (.kDone :: newlines k, st₁)) :
    ForText os st (pre ++ ' ' :: (body ++ ';' :: post)) var ((words.map Prod.snd).getD []) body st₁ := by
  obtain ⟨lead, hlead⟩ := hbody.tokens
  have htokens : tokenize os (pre ++ ' ' :: (body ++ ';' :: post)) st =
      ((script n).node.tokens (.forIn var words sep ⟨lead, b.closed⟩) ++ newlines k, st₁) := by
    rw [hcomplete.tokenize_append os st (gap_blank _), hpre, tokenize_blank,
      hbody.complete.tokenize_append os st₁ (gap_semi post), hlead, tokenize_semi, hpost]
    have hclosed := closed_tokens (command n) b
    simp [Lang.node, Node.tokens, Body.upTo, Body.tokens, script, hclosed]
  exact .mk (b := b) htokens ⟨hvar, hwords, hsep, closed_orderly hbody.orderly hbody.noSemi⟩ rfl hbody.toReads

variable (os) in
/-- A text with the tokens of `while cond; do body; done`, and texts of the condition and the body by
themselves. -/
inductive WhileText (st : Session W) : Text → Text → Text → Prop
  | mk {text cond body : Text} {k n j lead lead' : Nat} {c c' : Script k} {b b' : Script n}
      (htext : tokenize os text st = (((script k).sum (script n)).node.tokens
        (.whileDo ⟨lead, .inl c'⟩ ⟨lead', .inr b'⟩) ++ newlines j, st))
      (horderly : ((script k).sum (script n)).node.Orderly (.whileDo ⟨lead, .inl c'⟩ ⟨lead', .inr b'⟩))
      (hsame : c'.commands = c.commands ∧ b'.commands = b.commands)
      (hcond : Reads os cond st c st) (hbody : Reads os body st b st) :
      WhileText st text cond body

theorem WhileText.line {pre mid post : Text} {j : Nat} {c : Script k} {b : Script n}
    (hpre : tokenize os pre st = ([.kWhile], st)) (hcomplete : Complete pre) (hcond : Lists os cond st c st)
    (hmid : tokenize os mid st = ([.kDo], st)) (hcomplete' : Complete mid) (hbody : Lists os body st b st)
    (hpost : tokenize os post st = (.kDone :: newlines j, st)) :
    WhileText os st (pre ++ ' ' :: (cond ++ ';' :: (mid ++ ' ' :: (body ++ ';' :: post)))) cond body := by
  obtain ⟨lead, hlead⟩ := hcond.tokens
  obtain ⟨lead', hlead'⟩ := hbody.tokens
  have htokens : tokenize os (pre ++ ' ' :: (cond ++ ';' :: (mid ++ ' ' :: (body ++ ';' :: post)))) st =
      (((script k).sum (script n)).node.tokens
        (.whileDo ⟨lead, .inl c.closed⟩ ⟨lead', .inr b.closed⟩) ++ newlines j, st) := by
    rw [hcomplete.tokenize_append os st (gap_blank _), hpre, tokenize_blank,
      hcond.complete.tokenize_append os st (gap_semi _), hlead, tokenize_semi,
      hcomplete'.tokenize_append os st (gap_blank _), hmid, tokenize_blank,
      hbody.complete.tokenize_append os st (gap_semi post), hlead', tokenize_semi, hpost]
    have hc := closed_tokens (command k) c
    have hb := closed_tokens (command n) b
    simp [Lang.node, Node.tokens, Body.upTo, Body.tokens, Lang.sum, script, hc, hb]
  exact .mk (c := c) (b := b) htokens ⟨closed_orderly hcond.orderly hcond.noSemi, closed_orderly hbody.orderly hbody.noSemi⟩
    ⟨rfl, rfl⟩ hcond.toReads hbody.toReads

end Laws

section Runs

def idle : Os Unit where
  pid := 1
  subst _ w := ([], w)
  chdir _ w := (true, w)
  read w := (none, w)
  opens _ w := (true, w)
  isDir _ w := (true, w)
  readFile _ w := (none, w)
  write _ w := w
  spawn _ _ w := (0, w)
  pipeline _ _ w := (0, w)
  background _ _ w := w

def session (entries : List (Text × Text)) (trace : List (List Text)) : Session Unit :=
  ⟨⟨entries, [], 0, []⟩, trace, ()⟩

end Runs

end Rxv6.User.Shell
