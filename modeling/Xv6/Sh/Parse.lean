import Mathlib.Logic.Function.Basic
import Xv6.Params

/-! The parser of the shell (`sh.c`). A pointer into the line is kept as what is left of the line from there on, so that
    `*s` at the end is the NUL and `s < es` holds as long as something is left; where a pointer is stored in a command,
    it is the offset in the line. The calls of `malloc` succeed. -/

namespace Xv6.Sh

abbrev maxargs : Nat := 10

abbrev oRdonly : Nat := 0x000
abbrev oWronly : Nat := 0x001
abbrev oCreate : Nat := 0x200

/-! ### Commands -/

/-- The fields of a `struct redircmd` but the command. -/
structure Redir where
  file : Nat
  efile : Nat
  mode : Nat
  fd : Nat
  deriving DecidableEq, Repr

/-- `struct cmd`. The arguments of an `execcmd` are pairs of `argv[i]` and `eargv[i]`, up to the null pointer. -/
inductive Cmd
  | exec (argv : List (Nat × Nat))
  | redir (cmd : Cmd) (r : Redir)
  | pipe (left right : Cmd)
  | list (left right : Cmd)
  | back (cmd : Cmd)
  deriving DecidableEq, Repr

/-! ### Tokens -/

def whitespace : List Byte := [ascii ' ', ascii '\t', ascii '\r', ascii '\n', 0x0B]

def symbols : List Byte := [ascii '<', ascii '|', ascii '>', ascii '&', ascii ';', ascii '(', ascii ')']

def isSpace (c : Byte) : Bool := whitespace.contains c

/-- The characters that a word goes on with. -/
def isWord (c : Byte) : Bool := !whitespace.contains c && !symbols.contains c

/-- What `gettoken` returns, and what it stores in `q`, `eq` and `ps`. -/
structure Token where
  ret : Byte
  q : Nat
  eq : Nat
  rest : List Byte

/-- `gettoken`; `es` is the length of the line. -/
def gettoken (es : Nat) (s : List Byte) : Token :=
  let s := s.dropWhile isSpace
  let q := es - s.length
  let (ret, s) :=
    match s with
    | [] => (0, [])
    | c :: t =>
      if [ascii '|', ascii '(', ascii ')', ascii ';', ascii '&', ascii '<'].contains c then (c, t)
      else if c = ascii '>' then
        match t with
        | [] => (c, t)
        | d :: u => if d = ascii '>' then (ascii '+', u) else (c, t)
      else (ascii 'a', s.dropWhile isWord)
  ⟨ret, q, es - s.length, s.dropWhile isSpace⟩

/-- `peek`, and what it leaves in `ps`. -/
def peek (s toks : List Byte) : Bool × List Byte :=
  let s := s.dropWhile isSpace
  (match s with
    | [] => false
    | c :: _ => toks.contains c, s)

/-! ### The parser -/

/-- The calls of `panic`. -/
inductive Panic
  | syntaxError
  | missingFile
  | missingParen
  | parseblock
  | tooManyArgs
  deriving DecidableEq, Repr

/-- How a call ends that does not return: in a panic, or not at all within the given number of calls and iterations. -/
inductive Stop
  | panics (why : Panic)
  | spins
  deriving DecidableEq, Repr

/-- The command that a redirection token is for. -/
def redirOf (tok : Byte) (q eq : Nat) : Redir :=
  if tok = ascii '<' then ⟨q, eq, oRdonly, 0⟩ else ⟨q, eq, oWronly ||| oCreate, 1⟩

/-- `parseredirs`: the redirections that it puts around the command, the inner ones first. -/
def parseredirs (es : Nat) : Nat → List Byte → Except Stop (List Redir × List Byte)
  | 0, _ => .error .spins
  | n + 1, s =>
    let (found, s) := peek s [ascii '<', ascii '>']
    if found then
      let tok := gettoken es s
      let file := gettoken es tok.rest
      if file.ret ≠ ascii 'a' then .error (.panics .missingFile)
      else do
        let (rs, s) ← parseredirs es n file.rest
        .ok (redirOf tok.ret file.q file.eq :: rs, s)
    else .ok ([], s)

/-- The loop of `parseexec`. The `execcmd` that it fills in is already inside the redirections that were found, which is
    why these are kept apart until the end. -/
def parseargs (es : Nat) : Nat → List (Nat × Nat) → List Redir → List Byte →
    Except Stop ((List (Nat × Nat) × List Redir) × List Byte)
  | 0, _, _, _ => .error .spins
  | n + 1, argv, rs, s =>
    let (found, s) := peek s [ascii '|', ascii ')', ascii '&', ascii ';']
    if found then .ok ((argv, rs), s)
    else
      let tok := gettoken es s
      if tok.ret = 0 then .ok ((argv, rs), tok.rest)
      else if tok.ret ≠ ascii 'a' then .error (.panics .syntaxError)
      else
        let argv := argv ++ [(tok.q, tok.eq)]
        if argv.length ≥ maxargs then .error (.panics .tooManyArgs)
        else do
          let (rs', s) ← parseredirs es n tok.rest
          parseargs es n argv (rs ++ rs') s

/-- The first loop of `parseline`. -/
def parsebacks (es : Nat) : Nat → Cmd → List Byte → Except Stop (Cmd × List Byte)
  | 0, _, _ => .error .spins
  | n + 1, cmd, s =>
    let (found, s) := peek s [ascii '&']
    if found then parsebacks es n (.back cmd) (gettoken es s).rest else .ok (cmd, s)

mutual

def parseline (es : Nat) : Nat → List Byte → Except Stop (Cmd × List Byte)
  | 0, _ => .error .spins
  | n + 1, s => do
    let (cmd, s) ← parsepipe es n s
    let (cmd, s) ← parsebacks es n cmd s
    let (found, s) := peek s [ascii ';']
    if found then do
      let (right, s) ← parseline es n (gettoken es s).rest
      .ok (.list cmd right, s)
    else .ok (cmd, s)

def parsepipe (es : Nat) : Nat → List Byte → Except Stop (Cmd × List Byte)
  | 0, _ => .error .spins
  | n + 1, s => do
    let (cmd, s) ← parseexec es n s
    let (found, s) := peek s [ascii '|']
    if found then do
      let (right, s) ← parsepipe es n (gettoken es s).rest
      .ok (.pipe cmd right, s)
    else .ok (cmd, s)

def parseblock (es : Nat) : Nat → List Byte → Except Stop (Cmd × List Byte)
  | 0, _ => .error .spins
  | n + 1, s =>
    let (found, s) := peek s [ascii '(']
    if ¬found then .error (.panics .parseblock)
    else do
      let (cmd, s) ← parseline es n (gettoken es s).rest
      let (found, s) := peek s [ascii ')']
      if ¬found then .error (.panics .missingParen)
      else do
        let (rs, s) ← parseredirs es n (gettoken es s).rest
        .ok (rs.foldl .redir cmd, s)

def parseexec (es : Nat) : Nat → List Byte → Except Stop (Cmd × List Byte)
  | 0, _ => .error .spins
  | n + 1, s =>
    let (found, s) := peek s [ascii '(']
    if found then parseblock es n s
    else do
      let (rs, s) ← parseredirs es n s
      let ((argv, rs), s) ← parseargs es n [] rs s
      .ok (rs.foldl .redir (.exec argv), s)

end

/-- `nulterminate`, on the memory of the line. -/
def nulterminate : Cmd → (Nat → Byte) → Nat → Byte
  | .exec argv, buf => argv.foldl (fun buf arg => Function.update buf arg.2 0) buf
  | .redir cmd r, buf => Function.update (nulterminate cmd buf) r.efile 0
  | .pipe left right, buf => nulterminate right (nulterminate left buf)
  | .list left right, buf => nulterminate right (nulterminate left buf)
  | .back cmd, buf => nulterminate cmd buf

/-- The memory from the start of a line on. -/
def memOf (line : List Byte) (i : Nat) : Byte := line.getD i 0

/-- `parsecmd` on a line that ends with the NUL: the command, and the memory of the line after it. -/
def parsecmd (line : List Byte) : Except Stop (Cmd × (Nat → Byte)) := do
  let (cmd, s) ← parseline line.length (4 * line.length + 4) line
  let (_, s) := peek s []
  if s ≠ [] then .error (.panics .syntaxError)
  else .ok (cmd, nulterminate cmd (memOf line))

end Xv6.Sh
