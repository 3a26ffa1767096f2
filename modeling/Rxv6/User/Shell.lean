import Mathlib.Data.List.Basic
import Mathlib.Data.Nat.Basic
import Mathlib.Order.Basic

namespace Rxv6.User.Shell

abbrev Text := List Char

inductive Token
  | word (w : Text)
  | pipe | semi | amp | andAnd | orOr | less | greater | greaterGreater | newline | lParen | rParen
  | kIf | kThen | kElif | kElse | kFi | kWhile | kUntil | kDo | kDone | kFor | kIn | kCase | kEsac | bang
  deriving DecidableEq

def isKeyword (w : Text) : Option Token :=
  if w = ['i', 'f'] then some .kIf
  else if w = ['t', 'h', 'e', 'n'] then some .kThen
  else if w = ['e', 'l', 'i', 'f'] then some .kElif
  else if w = ['e', 'l', 's', 'e'] then some .kElse
  else if w = ['f', 'i'] then some .kFi
  else if w = ['w', 'h', 'i', 'l', 'e'] then some .kWhile
  else if w = ['u', 'n', 't', 'i', 'l'] then some .kUntil
  else if w = ['d', 'o'] then some .kDo
  else if w = ['d', 'o', 'n', 'e'] then some .kDone
  else if w = ['f', 'o', 'r'] then some .kFor
  else if w = ['i', 'n'] then some .kIn
  else if w = ['c', 'a', 's', 'e'] then some .kCase
  else if w = ['e', 's', 'a', 'c'] then some .kEsac
  else if w = ['!'] then some .bang
  else none

def Token.ofWord (w : Text) : Token := (isKeyword w).getD (.word w)

/-- The fields of `Cmd::Simple`. -/
structure Simple where
  argv : List Text := []
  stdinFile : Option Text := none
  stdoutFile : Option Text := none
  append : Bool := false
  stderrFile : Option Text := none
  stderrToStdout : Bool := false
  assignments : List (Text × Text) := []
  deriving DecidableEq

inductive Cmd
  | simple (s : Simple)
  | pipeline (cmds : List Cmd)
  | and (left right : Cmd)
  | or (left right : Cmd)
  | not (inner : Cmd)
  | sequence (cmds : List Cmd)
  | background (inner : Cmd)
  | ifThen (cond thenBody : Cmd) (elifs : List (Cmd × Cmd)) (elseBody : Option Cmd)
  | whileDo (cond body : Cmd)
  | untilDo (cond body : Cmd)
  | forIn (var : Text) (words : List Text) (body : Cmd)
  | subshell (inner : Cmd)
  | empty

/-- A method of `Parser`: the command that it returns and the tokens that it leaves, or `none` when the
model has run out of turns. -/
abbrev Parser := List Token → Option (Cmd × List Token)

def skipNewlines : List Token → List Token
  | .newline :: ts => skipNewlines ts
  | ts => ts

def expect (t : Token) (ts : List Token) : Bool × List Token :=
  if ts.head? = some t then (true, ts.tail) else (false, ts)

section Simple

def isNameChar (c : Char) : Bool := c.isAlphanum || c = '_'

/-- The name and the value of `VAR=value`. -/
def assignment (w : Text) : Option (Text × Text) :=
  match w.findIdx? (· = '=') with
  | none => none
  | some i => if w.take i ≠ [] ∧ (w.take i).all isNameChar then some (w.take i, w.drop (i + 1)) else none

/-- The words after which `parse_simple` takes the next token for the name of a file. -/
def awaitsFile (w : Text) : Bool := w = ['2', '>'] ∨ w = ['2', '>', '>']

namespace Simple

/-- What the other words do: `2>&1`, `2>file` and `2>>file`, an assignment before any argument, or an
argument. -/
def addWord (s : Simple) (w : Text) : Simple :=
  match w with
  | ['2', '>', '&', '1'] => { s with stderrToStdout := true }
  | '2' :: '>' :: '>' :: file => { s with stderrFile := some file }
  | '2' :: '>' :: file => { s with stderrFile := some file }
  | _ =>
    if s.argv = [] then
      match assignment w with
      | some a => { s with assignments := s.assignments ++ [a] }
      | none => { s with argv := s.argv ++ [w] }
    else { s with argv := s.argv ++ [w] }

def redirect (s : Simple) (set : Simple → Text → Simple) : Token → Simple
  | .word file => set s file
  | _ => s

def setStdin (s : Simple) (file : Text) : Simple := { s with stdinFile := some file }

def setStdout (append : Bool) (s : Simple) (file : Text) : Simple :=
  { s with stdoutFile := some file, append := append }

def setStderr (s : Simple) (file : Text) : Simple := { s with stderrFile := some file }

end Simple

def simpleLoop : List Token → Simple → Simple × List Token
  | .word w :: ts, s =>
    if awaitsFile w then
      match ts with
      | [] => (s, [])
      | t :: ts => simpleLoop ts (s.redirect Simple.setStderr t)
    else simpleLoop ts (s.addWord w)
  | [.less], s => (s, [])
  | .less :: t :: ts, s => simpleLoop ts (s.redirect Simple.setStdin t)
  | [.greater], s => (s, [])
  | .greater :: t :: ts, s => simpleLoop ts (s.redirect (Simple.setStdout false) t)
  | [.greaterGreater], s => (s, [])
  | .greaterGreater :: t :: ts, s => simpleLoop ts (s.redirect (Simple.setStdout true) t)
  | ts, s => (s, ts)

def Simple.cmd (s : Simple) : Cmd := if s.argv = [] ∧ s.assignments = [] then .empty else .simple s

def parseSimple : Parser := fun ts ↦ some ((simpleLoop ts {}).1.cmd, (simpleLoop ts {}).2)

end Simple

section Compound

variable (list : Parser)

/-- A list between two keywords: the first one has been taken, and the second one is taken if it is
there. -/
def listUpTo (close : Token) : Parser := fun ts ↦ do
  let (c, ts) ← list (skipNewlines ts)
  some (c, (expect close (skipNewlines ts)).2)

def ifLoop : Nat → List (Cmd × Cmd) → List Token → Option ((List (Cmd × Cmd) × Option Cmd) × List Token)
  | 0, _, _ => none
  | turns + 1, elifs, ts =>
    match skipNewlines ts with
    | .kElif :: ts => do
      let (elifCond, ts) ← listUpTo list .kThen ts
      let (elifBody, ts) ← list (skipNewlines ts)
      ifLoop turns (elifs ++ [(elifCond, elifBody)]) ts
    | .kElse :: ts => do
      let (elseBody, ts) ← list (skipNewlines ts)
      some ((elifs, some elseBody), ts)
    | ts => some ((elifs, none), ts)

def parseIf : Parser := fun ts ↦ do
  let (cond, ts) ← listUpTo list .kThen ts
  let (thenBody, ts) ← list (skipNewlines ts)
  let ((elifs, elseBody), ts) ← ifLoop list (ts.length + 1) [] ts
  some (.ifThen cond thenBody elifs elseBody, (expect .kFi (skipNewlines ts)).2)

def parseWhile : Parser := fun ts ↦ do
  let (cond, ts) ← listUpTo list .kDo ts
  let (body, ts) ← listUpTo list .kDone ts
  some (.whileDo cond body, ts)

def parseUntil : Parser := fun ts ↦ do
  let (cond, ts) ← listUpTo list .kDo ts
  let (body, ts) ← listUpTo list .kDone ts
  some (.untilDo cond body, ts)

def forWords : List Token → List Text × List Token
  | .word w :: ts => (w :: (forWords ts).1, (forWords ts).2)
  | ts => ([], ts)

def inWords (ts : List Token) : List Text × List Token :=
  if (expect .kIn ts).1 then forWords (expect .kIn ts).2 else ([], ts)

def forVar : List Token → Text
  | .word w :: _ => w
  | _ => ['_']

def parseFor : Parser := fun ts ↦ do
  let var := forVar ts
  let (words, ts) := inWords (skipNewlines ts.tail)
  let ts := (expect .semi (skipNewlines ts)).2
  let ts := (expect .kDo (skipNewlines ts)).2
  let (body, ts) ← listUpTo list .kDone ts
  some (.forIn var words body, ts)

def parseCommand : Parser := fun ts ↦
  match skipNewlines ts with
  | .kIf :: ts => parseIf list ts
  | .kWhile :: ts => parseWhile list ts
  | .kUntil :: ts => parseUntil list ts
  | .kFor :: ts => parseFor list ts
  | .lParen :: ts => do
    let (c, ts) ← list ts
    some (.subshell c, (expect .rParen ts).2)
  | ts => parseSimple ts

end Compound

section Lists

def pipeLoop (command : Parser) : Nat → List Cmd → List Token → Option (List Cmd × List Token)
  | 0, _, _ => none
  | turns + 1, cmds, ts =>
    match ts with
    | .pipe :: ts => do
      let (c, ts) ← command (skipNewlines ts)
      pipeLoop command turns (cmds ++ [c]) ts
    | ts => some (cmds, ts)

def pipelineOf : List Cmd → Cmd
  | [c] => c
  | cmds => .pipeline cmds

def parsePipeline (command : Parser) : Parser := fun ts ↦ do
  let (negate, ts) := expect .bang ts
  let (first, ts) ← command ts
  let (cmds, ts) ← pipeLoop command (ts.length + 1) [first] ts
  let cmd := pipelineOf cmds
  some (if negate then .not cmd else cmd, ts)

def andOrLoop (pipeline : Parser) : Nat → Cmd → Parser
  | 0, _, _ => none
  | turns + 1, left, ts =>
    match ts with
    | .andAnd :: ts => do
      let (right, ts) ← pipeline (skipNewlines ts)
      andOrLoop pipeline turns (.and left right) ts
    | .orOr :: ts => do
      let (right, ts) ← pipeline (skipNewlines ts)
      andOrLoop pipeline turns (.or left right) ts
    | ts => some (left, ts)

def parseAndOr (pipeline : Parser) : Parser := fun ts ↦ do
  let (left, ts) ← pipeline ts
  andOrLoop pipeline (ts.length + 1) left ts

def Cmd.isEmpty : Cmd → Bool
  | .empty => true
  | _ => false

def inBackground (cmds : List Cmd) : List Cmd := cmds.dropLast ++ (cmds.getLast?.map .background).toList

/-- What follows a separator: the next command, and then `more`. -/
def nextCommand (andOr : Parser) (more : List Cmd → List Token → Option (List Cmd × List Token))
    (cmds : List Cmd) (ts : List Token) : Option (List Cmd × List Token) := do
  let (c, ts) ← andOr (skipNewlines ts)
  if c.isEmpty then some (cmds, ts) else more (cmds ++ [c]) ts

/-- The loop of `parse_list`. The newlines are skipped before the next token is looked at, so that it is
never a newline. -/
def listLoop (andOr : Parser) : Nat → List Cmd → List Token → Option (List Cmd × List Token)
  | 0, _, _ => none
  | turns + 1, cmds, ts =>
    match skipNewlines ts with
    | .semi :: ts => nextCommand andOr (listLoop andOr turns) cmds ts
    | .amp :: ts => nextCommand andOr (listLoop andOr turns) (inBackground cmds) ts
    | .newline :: ts => nextCommand andOr (listLoop andOr turns) cmds ts
    | ts => some (cmds, ts)

def sequenceOf : List Cmd → Cmd
  | [] => .empty
  | [c] => c
  | cmds => .sequence cmds

/-- One round of `parse_list` over a parser for its commands. -/
def parseListOf (andOr : Parser) : Parser := fun ts ↦ do
  let (first, ts) ← andOr (skipNewlines ts)
  if first.isEmpty then some (.empty, ts)
  else do
    let (cmds, ts) ← listLoop andOr (ts.length + 1) [first] ts
    some (sequenceOf cmds, ts)

/-- `parse_list` where compound commands nest less than `depth` deep. -/
def parseListAt : Nat → Parser
  | 0 => fun _ ↦ none
  | depth + 1 => parseListOf (parseAndOr (parsePipeline (parseCommand (parseListAt depth))))

def parseList : Parser := fun ts ↦ parseListAt (ts.length + 1) ts

end Lists

end Rxv6.User.Shell
