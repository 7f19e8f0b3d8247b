import Testwright.Tool.Process

/-!
# Standard utilities

The small programs that scripts are made of. Each takes arguments, a stream to read and a disk, and
leaves output and a disk behind. Inside a script `echo` interprets escapes, outside it does not.
-/

namespace Testwright.Utility

/-- What a utility does with arguments, a stream to read and a disk. -/
abbrev Action := List String → Bytes → Disk → Output × Disk

/-- Output on the first stream. -/
def printed (out : Bytes) : Output := { stdout := out }

def failed (message : String) : Output :=
  { status := .exited 1, stderr := Utf8.encode (message ++ "\n") }

def status (ok : Bool) : Output := { status := .exited (if ok then 0 else 1) }

/-- An error as utilities report it. -/
def reason : DiskError → String
  | .missing => "No such file or directory"
  | .denied => "Permission denied"
  | .occupied => "File exists"
  | .notDirectory => "Not a directory"
  | .isDirectory => "Is a directory"
  | .notText => "Invalid argument"
  | .notProgram => "Exec format error"

/-! ## Escapes -/

/-- The digits of a base at the beginning of a text, at most `count`, as a number; and the text
after them. -/
def digitsOf (base : Nat) : Nat → List Char → Nat → Bool → Option (Nat × List Char)
  | 0, s, value, _ => some (value, s)
  | n + 1, s, value, any =>
    let done : Option (Nat × List Char) := if any then some (value, s) else none
    match s with
    | [] => done
    | c :: rest =>
      let digit :=
        if c.isDigit then c.toNat - 48
        else if 'a' ≤ c ∧ c ≤ 'f' then c.toNat - 87
        else if 'A' ≤ c ∧ c ≤ 'F' then c.toNat - 55
        else 99
      if digit < base then digitsOf base n rest (value * base + digit) true else done

def simpleEscape? (c : Char) : Option UInt8 :=
  match c with
  | 'a' => some 7
  | 'b' => some 8
  | 't' => some 9
  | 'n' => some 10
  | 'v' => some 11
  | 'f' => some 12
  | 'r' => some 13
  | '\\' => some 92
  | _ => none

/-- How octal escapes are written: up to three digits, or a zero and up to three digits. -/
inductive OctalStyle where
  | digits
  | zero
  deriving DecidableEq, Repr, Inhabited

/-- An escape after its backslash: its bytes, and the text after it. -/
def escape (style : OctalStyle) (s : List Char) : Bytes × List Char :=
  let backslash : Bytes := [92]
  match s with
  | [] => (backslash, [])
  | c :: rest =>
    match simpleEscape? c with
    | some b => ([b], rest)
    | none =>
      match style, c with
      | .zero, '0' =>
        match digitsOf 8 3 rest 0 true with
        | some (value, rest) => ([UInt8.ofNat value], rest)
        | none => ([0], rest)
      | .digits, _ =>
        match digitsOf 8 3 (c :: rest) 0 false with
        | some (value, rest) => ([UInt8.ofNat value], rest)
        | none => (backslash ++ String.utf8EncodeChar c, rest)
      | _, _ => (backslash ++ String.utf8EncodeChar c, rest)

/-- A text with its escapes replaced, up to `\c`; also whether `\c` occurred. -/
def unescape (style : OctalStyle) : Nat → List Char → Bytes × Bool
  | 0, _ => ([], false)
  | _ + 1, [] => ([], false)
  | _ + 1, '\\' :: 'c' :: _ => ([], true)
  | n + 1, '\\' :: rest =>
    let (front, rest) := escape style rest
    let (back, stop) := unescape style n rest
    (front ++ back, stop)
  | n + 1, c :: rest =>
    let (back, stop) := unescape style n rest
    (String.utf8EncodeChar c ++ back, stop)

/-! ## Printing -/

/-- Print the arguments with blanks between them. -/
def echo (escapes : Bool) : Action := fun args _ d =>
  let (silent, args) := match args with
    | "-n" :: rest => (true, rest)
    | rest => (false, rest)
  let text := " ".intercalate args
  let (out, stop) :=
    if escapes then unescape .zero (text.length + 1) text.toList else (Utf8.encode text, false)
  (printed (if silent || stop then out else out ++ [10]), d)

/-- The number that an argument of `printf` stands for. -/
def argumentNumber (arg : String) : Int :=
  match arg.toList with
  | '-' :: rest => -((digitsOf 10 rest.length rest 0 true).elim 0 fun r => (r.1 : Int))
  | '+' :: rest => (digitsOf 10 rest.length rest 0 true).elim 0 fun r => (r.1 : Int)
  | all => (digitsOf 10 all.length all 0 true).elim 0 fun r => (r.1 : Int)

/-- An argument in the form of a conversion; also whether printing stops. -/
def conversion? (c : Char) (arg : String) : Option (Bytes × Bool) :=
  match c with
  | 's' => some (Utf8.encode arg, false)
  | 'b' => some (unescape .zero (arg.length + 1) arg.toList)
  | 'c' => some (Utf8.encode (.ofList (arg.toList.take 1)), false)
  | 'd' => some (Utf8.encode (toString (argumentNumber arg)), false)
  | 'i' => some (Utf8.encode (toString (argumentNumber arg)), false)
  | _ => none

/-- One pass of `printf` over its format: what is printed, the arguments left, whether printing
stops, and whether a conversion was met. -/
def formatOnce : Nat → List Char → List String → Bytes × List String × Bool × Bool
  | 0, _, args => ([], args, true, false)
  | _ + 1, [], args => ([], args, false, false)
  | n + 1, '%' :: '%' :: rest, args =>
    let (out, args, stop, met) := formatOnce n rest args
    (37 :: out, args, stop, met)
  | n + 1, '%' :: c :: rest, args =>
    match conversion? c (args.head?.getD "") with
    | none => ([], args, true, true)
    | some (front, true) => (front, args.tail, true, true)
    | some (front, false) =>
      let (out, args, stop, _) := formatOnce n rest args.tail
      (front ++ out, args, stop, true)
  | _ + 1, '\\' :: 'c' :: _, args => ([], args, true, false)
  | n + 1, '\\' :: rest, args =>
    let (front, rest) := escape .digits rest
    let (out, args, stop, met) := formatOnce n rest args
    (front ++ out, args, stop, met)
  | n + 1, c :: rest, args =>
    let (out, args, stop, met) := formatOnce n rest args
    (String.utf8EncodeChar c ++ out, args, stop, met)

/-- Repeat a format until there are no arguments left. -/
def formatAll (format : List Char) : Nat → List String → Bytes
  | 0, _ => []
  | n + 1, args =>
    let (out, left, stop, met) := formatOnce (format.length + 1) format args
    if stop || !met || left.isEmpty then out else out ++ formatAll format n left

/-- Print arguments by a format. -/
def printf : Action := fun args _ d =>
  match args with
  | [] => ({ status := .exited 2, stderr := Utf8.encode "printf: usage: printf format [arg ...]\n" }, d)
  | format :: rest => (printed (formatAll format.toList (rest.length + 1) rest), d)

/-! ## Files -/

/-- Print files one after another, or the stream without any. -/
def cat : Action := fun args input d =>
  let one (o : Output) (path : String) : Output :=
    if path == "-" then { o with stdout := o.stdout ++ input }
    else
      match d.read path with
      | .ok (.bytes data) => { o with stdout := o.stdout ++ data }
      | .ok (.archive _) => o
      | .error e =>
        let e := failed ("cat: " ++ path ++ ": " ++ reason e)
        { o with status := e.status, stderr := o.stderr ++ e.stderr }
  (if args.isEmpty then printed input else args.foldl one {}, d)

/-- Print the names in a directory. -/
def ls : Action := fun args _ d =>
  let path := (args.filter fun a => a.toList.head? != some '-').head?.getD "."
  let all := args.any fun a => a.toList.head? == some '-' && a.toList.contains 'a'
  let shown (n : String) : Bool := all || n.toList.head? != some '.'
  match d.list path with
  | .ok names => (printed (Utf8.encode (String.join ((names.filter shown).map (· ++ "\n")))), d)
  | .error .notDirectory => (printed (Utf8.encode (path ++ "\n")), d)
  | .error e => ({ failed ("ls: cannot access '" ++ path ++ "': " ++ reason e) with
      status := .exited 2 }, d)

def change (name : String) (f : String → Disk → Except DiskError Disk) : Action := fun args _ d =>
  let one (st : Output × Disk) (path : String) : Output × Disk :=
    match f path st.2 with
    | .ok d => (st.1, d)
    | .error e =>
      let e := failed (name ++ ": cannot access '" ++ path ++ "': " ++ reason e)
      ({ st.1 with status := e.status, stderr := st.1.stderr ++ e.stderr }, st.2)
  (args.filter fun a => a.toList.head? != some '-').foldl one ({}, d)

/-- Make an empty file unless there is something. -/
def touch (path : String) (d : Disk) : Except DiskError Disk :=
  if d.isPresent path then .ok d else d.write path (.bytes [])

/-! ## Names -/

/-- Print the last name of a path, without an ending. -/
def basename : Action := fun args _ d =>
  match args with
  | [] => (failed "basename: missing operand", d)
  | path :: rest =>
    let body := Text.dropEndWhile (· == '/') path.toList
    let name := if body.isEmpty && !path.isEmpty then ['/'] else Text.afterLast '/' body
    let name := match rest with
      | ending :: _ =>
        match Text.dropSuffix? ending.toList name with
        | some front => if front.isEmpty then name else front
        | none => name
      | [] => name
    (printed (Utf8.encode (.ofList name ++ "\n")), d)

/-- Print a path without its last name. -/
def dirname : Action := fun args _ d =>
  match args with
  | [] => (failed "dirname: missing operand", d)
  | path :: _ =>
    let body := Text.dropEndWhile (· == '/') path.toList
    let front := match Text.cutAtLast? '/' body with
      | some (front, _) =>
        let front := Text.dropEndWhile (· == '/') front
        if front.isEmpty then ['/'] else front
      | none => if path.toList.head? == some '/' then ['/'] else ['.']
    (printed (Utf8.encode (.ofList front ++ "\n")), d)

/-! ## Tests -/

/-- Whether a condition on arguments holds; `none` if it is not well formed. -/
def holds? (d : Disk) : List String → Option Bool
  | [] => some false
  | "!" :: rest => (holds? d rest).map not
  | ["-n", s] => some (!s.isEmpty)
  | ["-z", s] => some s.isEmpty
  | ["-e", path] => some (d.isPresent path)
  | ["-f", path] => some (d.isFile path)
  | ["-d", path] => some (d.isDirectory path)
  | ["-r", path] => some (d.isPresent path)
  | ["-s", path] =>
    match d.read path with
    | .ok (.bytes data) => some (!data.isEmpty)
    | .ok (.archive _) => some true
    | .error _ => some (d.isDirectory path)
  | ["-x", path] =>
    match d.find path with
    | .ok (.file _ executable) => some executable
    | .ok .directory => some true
    | .error _ => some false
  | [s] => some (!s.isEmpty)
  | [a, "=", b] => some (a == b)
  | [a, "!=", b] => some (a != b)
  | [a, "-eq", b] => some (argumentNumber a == argumentNumber b)
  | [a, "-ne", b] => some (argumentNumber a != argumentNumber b)
  | [a, "-lt", b] => some (argumentNumber a < argumentNumber b)
  | [a, "-le", b] => some (argumentNumber a ≤ argumentNumber b)
  | [a, "-gt", b] => some (argumentNumber b < argumentNumber a)
  | [a, "-ge", b] => some (argumentNumber b ≤ argumentNumber a)
  | _ => none

/-- Test a condition. -/
def test : Action := fun args _ d =>
  match holds? d args with
  | some b => (status b, d)
  | none => ({ status := .exited 2 }, d)

/-- Test a condition in brackets. -/
def bracket : Action := fun args input d =>
  match args.reverse with
  | "]" :: rest => test rest.reverse input d
  | _ => ({ status := .exited 2, stderr := Utf8.encode "[: missing ]\n" }, d)

/-- The utility of a name, inside or outside of a script. -/
def find? (inScript : Bool) (name : String) : Option Action :=
  match name with
  | "true" => some fun _ _ d => (status true, d)
  | "false" => some fun _ _ d => (status false, d)
  | "echo" => some (echo inScript)
  | "printf" => some printf
  | "cat" => some cat
  | "ls" => some ls
  | "pwd" => some fun _ _ d => (printed (Utf8.encode (d.current ++ "\n")), d)
  | "sleep" => some fun _ _ d => (status true, d)
  | "mkdir" => some (change "mkdir" fun path d => d.makeDirectories path)
  | "touch" => some (change "touch" touch)
  | "rm" => some (change "rm" fun path d => .ok (d.remove path))
  | "basename" => some basename
  | "dirname" => some dirname
  | "test" => some test
  | "[" => some bracket
  | _ => none

end Testwright.Utility
