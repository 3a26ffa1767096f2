import Rxv6.User.Shell

namespace Rxv6.User.Shell

section Variables

structure Vars where
  entries : List (Text × Text)
  exports : List Text
  lastStatus : Int
  scriptArgs : List Text
  deriving DecidableEq

/-- `format_i32`. -/
def formatInt (n : Int) : Text :=
  if n < 0 then '-' :: Nat.toDigits 10 n.natAbs else Nat.toDigits 10 n.natAbs

namespace Vars

variable (v : Vars)

def get (name : Text) : Option Text := (v.entries.reverse.find? (·.1 = name)).map Prod.snd

def set (name value : Text) : Vars :=
  match v.entries.findIdx? (·.1 = name) with
  | some i => { v with entries := v.entries.set i (name, value) }
  | none => { v with entries := v.entries ++ [(name, value)] }

def unset (name : Text) : Vars :=
  { v with entries := v.entries.filter (·.1 ≠ name), exports := v.exports.filter (· ≠ name) }

def exported (name : Text) : Vars :=
  if name ∈ v.exports then v else { v with exports := v.exports ++ [name] }

def expand (pid : Int) (name : Text) : Text :=
  match name with
  | ['?'] => formatInt v.lastStatus
  | ['$'] => formatInt pid
  | ['#'] => formatInt (v.scriptArgs.length - 1 : Nat)
  | ['0'] => v.scriptArgs.head?.getD ['s', 'h']
  | [c] =>
    if '1' ≤ c ∧ c ≤ '9' then (v.scriptArgs[c.toNat - '0'.toNat]?).getD []
    else (v.get name).getD []
  | _ => (v.get name).getD []

end Vars

end Variables

/-- What the shell asks of the system, over a state `W` of the rest of the world. Commands in pipelines
and in the background run at the same time, and what they do is the system's. -/
structure Os (W : Type) where
  pid : Int
  /-- The output of `sh -c cmd`. -/
  subst : Text → W → Text × W
  chdir : Text → W → Bool × W
  /-- `read(0)` into a buffer of 256 bytes, `none` at the end or for an error. -/
  read : W → Option Text × W
  opens : Text → W → Bool × W
  isDir : Text → W → Bool × W
  readFile : Text → W → Option Text × W
  write : Text → W → W
  /-- `fork`, `exec` and `wait` for an external command: its status. -/
  spawn : Vars → Simple → W → Int × W
  pipeline : List Cmd → Vars → W → Int × W
  background : Cmd → Vars → W → W

structure Session (W : Type) where
  vars : Vars
  trace : List (List Text)
  world : W

variable {W : Type}

namespace Session

def setVar (st : Session W) (name value : Text) : Session W := { st with vars := st.vars.set name value }

def setStatus (st : Session W) (status : Int) : Session W := { st with vars := { st.vars with lastStatus := status } }

def executed (st : Session W) (argv : List Text) : Session W := { st with trace := st.trace ++ [argv] }

end Session

section Tokenizer

variable (os : Os W)

/-- The first `n` bytes of a text. What is left of a character that does not fit is read byte by byte, as
the shell that is started reads it. -/
def takeBytes : Nat → Text → Text
  | _, [] => []
  | n, c :: cs =>
    if c.utf8Size ≤ n then c :: takeBytes (n - c.utf8Size) cs
    else ((String.utf8EncodeChar c).take n).map fun b ↦ Char.ofNat b.toNat

def commandSubst (cmd : Text) (st : Session W) : Text × Session W :=
  let cmd := takeBytes 255 cmd
  let (output, world) := os.subst cmd st.world
  ((output.reverse.dropWhile (· = '\n')).reverse, { st.executed [['s', 'h'], ['-', 'c'], cmd] with world := world })

/-- The text up to the parenthesis that closes `$(`. -/
def parenBody : Nat → Text → Text × Text
  | _, [] => ([], [])
  | depth, c :: cs =>
    if c = ')' ∧ depth ≤ 1 then ([], cs)
    else
      let depth := if c = '(' then depth + 1 else if c = ')' then depth - 1 else depth
      (c :: (parenBody depth cs).1, (parenBody depth cs).2)

/-- `expand_var` after the `$`: what is added to the word, and the text that is left. -/
def expandVar (cs : Text) (st : Session W) : Text × Text × Session W :=
  match cs with
  | [] => (['$'], [], st)
  | '(' :: cs =>
    let (cmd, rest) := parenBody 1 cs
    let (output, st) := commandSubst os cmd st
    (output, rest, st)
  | '\x7b' :: cs => (st.vars.expand os.pid (cs.takeWhile (· ≠ '\x7d')), (cs.dropWhile (· ≠ '\x7d')).tail, st)
  | c :: cs =>
    if c = '?' ∨ c = '$' ∨ c = '#' ∨ c.isDigit then (st.vars.expand os.pid [c], cs, st)
    else if isNameChar c then
      (st.vars.expand os.pid ((c :: cs).takeWhile isNameChar), (c :: cs).dropWhile isNameChar, st)
    else (['$'], c :: cs, st)

def readDouble : Nat → Text → Text → Session W → Text × Text × Session W
  | 0, word, cs, st => (word, cs, st)
  | turns + 1, word, cs, st =>
    match cs with
    | [] => (word, [], st)
    | '\x22' :: cs => (word, cs, st)
    | '\x5c' :: c :: cs => readDouble turns (word ++ [c]) cs st
    | '$' :: cs =>
      let (text, cs, st) := expandVar os cs st
      readDouble turns (word ++ text) cs st
    | c :: cs => readDouble turns (word ++ [c]) cs st

def isBreak (c : Char) : Bool :=
  c = ' ' || c = '\t' || c = '\n' || c = ';' || c = '|' || c = '&' || c = '(' || c = ')' || c = '<' || c = '>'

def backquote : Char := Char.ofNat 96

def readWord : Nat → Text → Text → Session W → Text × Text × Session W
  | 0, word, cs, st => (word, cs, st)
  | turns + 1, word, cs, st =>
    match cs with
    | [] => (word, [], st)
    | '\x27' :: cs => readWord turns (word ++ cs.takeWhile (· ≠ '\x27')) (cs.dropWhile (· ≠ '\x27')).tail st
    | '\x22' :: cs =>
      let (word, cs, st) := readDouble os turns word cs st
      readWord turns word cs st
    | ['\x5c'] => (word, [], st)
    | '\x5c' :: c :: cs => readWord turns (word ++ [c]) cs st
    | '$' :: cs =>
      let (text, cs, st) := expandVar os cs st
      readWord turns (word ++ text) cs st
    | c :: cs =>
      if c = backquote then
        let (output, st) := commandSubst os (cs.takeWhile (· ≠ backquote)) st
        readWord turns (word ++ output) (cs.dropWhile (· ≠ backquote)).tail st
      else if isBreak c then (word, c :: cs, st)
      else readWord turns (word ++ [c]) cs st

/-- One turn of the loop of `tokenize`: the token that is pushed, if any, and the text that is left. -/
def nextToken (cs : Text) (st : Session W) : Option Token × Text × Session W :=
  match cs with
  | [] => (none, [], st)
  | ' ' :: cs => (none, cs, st)
  | '\t' :: cs => (none, cs, st)
  | '\n' :: cs => (some .newline, cs, st)
  | '#' :: cs => (none, cs.dropWhile (· ≠ '\n'), st)
  | ';' :: cs => (some .semi, cs, st)
  | '(' :: cs => (some .lParen, cs, st)
  | ')' :: cs => (some .rParen, cs, st)
  | '|' :: '|' :: cs => (some .orOr, cs, st)
  | '|' :: cs => (some .pipe, cs, st)
  | '&' :: '&' :: cs => (some .andAnd, cs, st)
  | '&' :: cs => (some .amp, cs, st)
  | '<' :: cs => (some .less, cs, st)
  | '>' :: '>' :: cs => (some .greaterGreater, cs, st)
  | '>' :: cs => (some .greater, cs, st)
  | cs =>
    let (word, rest, st) := readWord os (cs.length + 1) [] cs st
    (some (.ofWord word), rest, st)

def tokenizeLoop : Nat → Text → Session W → List Token × Session W
  | 0, _, st => ([], st)
  | _ + 1, [], st => ([], st)
  | turns + 1, c :: cs, st =>
    let (token, rest, st) := nextToken os (c :: cs) st
    let (tokens, st) := tokenizeLoop turns rest st
    (token.toList ++ tokens, st)

def tokenize (input : Text) (st : Session W) : List Token × Session W := tokenizeLoop os (input.length + 1) input st

end Tokenizer

inductive Outcome (W : Type)
  | done (status : Int) (st : Session W)
  | exited (code : Int) (st : Session W)

/-- What can run a command, `none` when the turns do not suffice. -/
abbrev Runner (W : Type) := Cmd → Session W → Option (Outcome W)

def andThen (r : Option (Outcome W)) (k : Int → Session W → Option (Outcome W)) : Option (Outcome W) :=
  match r with
  | none => none
  | some (.exited code st) => some (.exited code st)
  | some (.done status st) => k status st

section Builtins

variable (os : Os W)

/-- `parse_int`, in 32 bits. -/
def parseInt (s : Text) : Int :=
  let neg := s.head? = some '-'
  let digits := (if neg then s.tail else s).takeWhile Char.isDigit
  let n := digits.foldl (fun n c ↦ Int.bmod (n * 10 + (c.toNat - '0'.toNat : Nat)) 4294967296) 0
  if neg then Int.bmod (-n) 4294967296 else n

/-- `eval_test` for up to two arguments. -/
def evalUnary (op arg : Text) (w : W) : Bool × W :=
  if op = ['-', 'n'] then (arg ≠ [], w)
  else if op = ['-', 'z'] then (arg = [], w)
  else if op = ['!'] then (arg = [], w)
  else if op = ['-', 'f'] ∨ op = ['-', 'e'] then os.opens (arg.take 127) w
  else if op = ['-', 'd'] then os.isDir (arg.take 127) w
  else (op ≠ [], w)

def evalBinary (a op b : Text) : Bool :=
  if op = ['='] ∨ op = ['=', '='] then a = b
  else if op = ['!', '='] then a ≠ b
  else if op = ['-', 'e', 'q'] then parseInt a = parseInt b
  else if op = ['-', 'n', 'e'] then parseInt a ≠ parseInt b
  else if op = ['-', 'l', 't'] then parseInt a < parseInt b
  else if op = ['-', 'l', 'e'] then parseInt a ≤ parseInt b
  else if op = ['-', 'g', 't'] then parseInt a > parseInt b
  else if op = ['-', 'g', 'e'] then parseInt a ≥ parseInt b
  else false

def evalTest (args : List Text) (w : W) : Bool × W :=
  match args with
  | [] => (false, w)
  | [a] => (a ≠ [], w)
  | [op, a] => evalUnary os op a w
  | a :: op :: b :: _ => (evalBinary a op b, w)

/-- `builtin_test` without the name of the command: `]` at the end belongs to `[`. -/
def builtinTest (name : Text) (args : List Text) (st : Session W) : Int × Session W :=
  let args := if name = ['['] ∧ (name :: args).getLast? = some [']'] then args.dropLast else args
  let (ok, world) := evalTest os args st.world
  (if ok then 0 else 1, { st with world := world })

def exportArg (v : Vars) (arg : Text) : Vars :=
  match arg.findIdx? (· = '=') with
  | some i => (v.set (arg.take i) (arg.drop (i + 1))).exported (arg.take i)
  | none => v.exported arg

def print (text : Text) (st : Session W) : Session W := { st with world := os.write text st.world }

def showVars (v : Vars) : Text := v.entries.flatMap fun e ↦ e.1 ++ '=' :: e.2 ++ ['\n']

def runString (f : Runner W) (input : Text) (st : Session W) : Option (Outcome W) :=
  let (tokens, st) := tokenize os input st
  match parseList tokens with
  | none => none
  | some (cmd, _) => andThen (f cmd st) fun status st ↦ some (.done status (st.setStatus status))

def runScript (f : Runner W) (path : Text) (args : List Text) (st : Session W) : Option (Outcome W) :=
  let (content, world) := os.readFile (path.take 127) st.world
  let st := { st with world := world }
  match content with
  | none => some (.done 1 (print os ("sh: cannot open ".toList ++ path ++ ['\n']) st))
  | some content =>
    let oldArgs := st.vars.scriptArgs
    andThen (runString os f content { st with vars := { st.vars with scriptArgs := args } }) fun status st ↦
      some (.done status { st with vars := { st.vars with scriptArgs := oldArgs } })

def execSimple (f : Runner W) (s : Simple) (name : Text) (args : List Text) (st : Session W) :
    Option (Outcome W) :=
  if name = ['c', 'd'] then
    let dir := args.head?.getD ['/']
    let (ok, world) := os.chdir (dir.take 127) st.world
    let st := { st with world := world }
    if ok then some (.done 0 st)
    else some (.done 1 (print os ("cd: cannot cd ".toList ++ dir ++ ['\n']) st))
  else if name = ['e', 'x', 'i', 't'] then
    some (.exited ((args.head?.map parseInt).getD st.vars.lastStatus) st)
  else if name = ['e', 'x', 'p', 'o', 'r', 't'] then
    some (.done 0 { st with vars := args.foldl exportArg st.vars })
  else if name = ['u', 'n', 's', 'e', 't'] then
    some (.done 0 { st with vars := args.foldl Vars.unset st.vars })
  else if name = ['s', 'e', 't'] ∧ args = [] then some (.done 0 (print os (showVars st.vars) st))
  else if name = ['r', 'e', 'a', 'd'] then
    match os.read st.world with
    | (none, world) => some (.done 1 { st with world := world })
    | (some line, world) =>
      let line := if line.getLast? = some '\n' then line.dropLast else line
      some (.done 0 ({ st with world := world }.setVar (args.head?.getD ['R', 'E', 'P', 'L', 'Y']) line))
  else if name = ['t', 'r', 'u', 'e'] then some (.done 0 st)
  else if name = ['f', 'a', 'l', 's', 'e'] then some (.done 1 st)
  else if name = ['c', 'l', 'e', 'a', 'r'] then some (.done 0 (print os "\x1b[2J\x1b[H".toList st))
  else if name = ['t', 'e', 's', 't'] ∨ name = ['['] then
    let (status, st) := builtinTest os name args st
    some (.done status st)
  else if name = ['.'] ∨ name = ['s', 'o', 'u', 'r', 'c', 'e'] then
    match args with
    | path :: _ => runScript os f path args st
    | [] => some (.done 2 (print os ".: filename argument required\n".toList st))
  else
    let (status, world) := os.spawn st.vars s st.world
    some (.done status { st with world := world })

end Builtins

section Exec

variable (os : Os W) (f : Runner W)

/-- The commands of a `Sequence` from the status of the one before. -/
def execAll : List Cmd → Int → Session W → Option (Outcome W)
  | [], status, st => some (.done status st)
  | c :: cmds, _, st => andThen (f c st) fun status st ↦ execAll cmds status (st.setStatus status)

def execElifs (elseBody : Option Cmd) : List (Cmd × Cmd) → Session W → Option (Outcome W)
  | [], st => elseBody.elim (some (.done 0 st)) fun body ↦ f body st
  | (cond, body) :: elifs, st => andThen (f cond st) fun status st ↦
    if status = 0 then f body (st.setStatus status) else execElifs elseBody elifs (st.setStatus status)

/-- The loop of `while`, and of `until`, which goes on as long as the condition fails. -/
def execWhile (goesOn : Int → Bool) (cond body : Cmd) : Nat → Int → Session W → Option (Outcome W)
  | 0, _, _ => none
  | turns + 1, status, st => andThen (f cond st) fun s st ↦
    if goesOn s then
      andThen (f body (st.setStatus s)) fun status st ↦
        execWhile goesOn cond body turns status (st.setStatus status)
    else some (.done status (st.setStatus s))

def execFor (var : Text) (body : Cmd) : List Text → Int → Session W → Option (Outcome W)
  | [], status, st => some (.done status st)
  | w :: words, _, st => andThen (f body (st.setVar var w)) fun status st ↦
    execFor var body words status (st.setStatus status)

def asChild (st : Session W) : Outcome W → Outcome W
  | .done status st' => .done status { st' with vars := st.vars }
  | .exited code st' => .done code { st' with vars := st.vars }

def execCmd (turns : Nat) (cmd : Cmd) (st : Session W) : Option (Outcome W) :=
  match cmd with
  | .empty => some (.done 0 st)
  | .simple s =>
    match s.argv with
    | [] => some (.done 0 { st with vars := s.assignments.foldl (fun v a ↦ v.set a.1 a.2) st.vars })
    | name :: args => execSimple os f s name args (st.executed s.argv)
  | .pipeline [c] => f c st
  | .pipeline cmds =>
    let (status, world) := os.pipeline cmds st.vars st.world
    some (.done status { st with world := world })
  | .and left right => andThen (f left st) fun status st ↦
    if status = 0 then f right (st.setStatus status) else some (.done status (st.setStatus status))
  | .or left right => andThen (f left st) fun status st ↦
    if status ≠ 0 then f right (st.setStatus status) else some (.done status (st.setStatus status))
  | .not inner => andThen (f inner st) fun status st ↦ some (.done (if status = 0 then 1 else 0) st)
  | .sequence cmds => execAll f cmds 0 st
  | .background inner => some (.done 0 { st with world := os.background inner st.vars st.world })
  | .ifThen cond thenBody elifs elseBody => andThen (f cond st) fun status st ↦
    if status = 0 then f thenBody (st.setStatus status) else execElifs f elseBody elifs (st.setStatus status)
  | .whileDo cond body => execWhile f (· = 0) cond body turns 0 st
  | .untilDo cond body => execWhile f (· ≠ 0) cond body turns 0 st
  | .forIn var words body => execFor f var body words 0 st
  | .subshell inner => (f inner st).map (asChild st)

/-- `exec_cmd` where calls nest less than `n` deep and loops have fewer than `n` turns. -/
def exec : Nat → Runner W
  | 0 => fun _ _ ↦ none
  | n + 1 => execCmd os (exec n) n

end Exec

end Rxv6.User.Shell
