import AchProofs.Foundation.Text

namespace AchProofs.Cli.Frontmatter

open Foundation.Percent Foundation.Text

def lf : UInt8 := 0x0a

def cr : UInt8 := 0x0d

def colon : UInt8 := 0x3a

def ascii (s : String) : Bytes := s.toList.map fun c => UInt8.ofNat c.toNat

def dashes : Bytes := ascii "---"

def isFence (line : Bytes) : Bool := line = dashes || line = dashes ++ [cr]

/-- What follows the opening fence and its line break, and whether that is a CR LF. -/
def opened (raw : Bytes) : Option (Bytes × Bool) :=
  if (dashes ++ [lf]).isPrefixOf raw then some (raw.drop 4, false)
  else if (dashes ++ [cr, lf]).isPrefixOf raw then some (raw.drop 5, true)
  else none

/-- The front matter and the body of a document, and whether its lines end in CR LF. -/
def splitFrontmatter (raw : Bytes) : Option (Bytes × Bytes × Bool) :=
  match opened raw with
  | none => none
  | some (rest, crlf) =>
    match (rest.splitOn lf).span fun line => !isFence line with
    | (_, []) => none
    | (front, _ :: body) => some (front.flatMap (· ++ [lf]), [lf].intercalate body, crlf)

def newline (crlf : Bool) : Bytes := if crlf then [cr, lf] else [lf]

def splitCRLF : Bytes → List Bytes
  | [] => [[]]
  | 0x0d :: 0x0a :: rest => [] :: splitCRLF rest
  | b :: rest => (splitCRLF rest).modifyHead (b :: ·)

def splitLines (crlf : Bool) (s : Bytes) : List Bytes := if crlf then splitCRLF s else s.splitOn lf

/-- The key of a line `key: value` that is not indented. -/
def topLevelKey (line : Bytes) : Bytes :=
  if line.head?.any (fun b => b ∈ ascii " \t#") || colon ∉ line then []
  else trimSpace (line.takeWhile (· ≠ colon))

def unquote (v : Bytes) : Bytes :=
  if 2 ≤ v.length ∧ v.head? = v.getLast? ∧ v.head?.any (fun b => b ∈ ascii "\"'") then
    v.tail.dropLast
  else v

def scalarValue (line : Bytes) : Bytes :=
  unquote (trimSpace ((line.dropWhile (· ≠ colon)).drop 1))

def nameLine (name : Bytes) : Bytes := ascii "name: " ++ name

/-- Puts the line in place of the first one with the key, or before all others. -/
def setName (name : Bytes) (lines : List Bytes) : List Bytes :=
  match lines.span fun line => topLevelKey line ≠ ascii "name" with
  | (_, []) => nameLine name :: lines
  | (before, _ :: after) => before ++ nameLine name :: after

def renameFrontmatterName (raw name : Bytes) : Bytes :=
  match splitFrontmatter raw with
  | none => dashes ++ [lf] ++ nameLine name ++ [lf] ++ dashes ++ [lf] ++ raw
  | some (front, body, crlf) =>
    let nl := newline crlf
    let kept := if nl.isSuffixOf front then front.take (front.length - nl.length) else front
    dashes ++ nl ++ nl.intercalate (setName name (splitLines crlf kept)) ++ nl ++ dashes ++ nl ++
      body

def userOnly (raw : Bytes) : Bool :=
  match splitFrontmatter raw with
  | none => false
  | some (front, _, crlf) =>
    ((splitLines crlf front).find? fun line =>
      topLevelKey line = ascii "disable-model-invocation").any
      fun line => lowerAscii (scalarValue line) = ascii "true"

def isDescription (line : Bytes) : Bool :=
  topLevelKey line = ascii "description" && scalarValue line ∉ ["", ">-", ">", "|", "|-"].map ascii

/-- The description, if it is on one line, and the body. -/
def skillAsCommand (raw : Bytes) : Bytes :=
  match splitFrontmatter raw with
  | none => raw
  | some (front, body, crlf) =>
    let nl := newline crlf
    match (splitLines crlf front).find? isDescription with
    | none => body
    | some line =>
      dashes ++ nl ++ ascii "description: " ++ scalarValue line ++ nl ++ dashes ++ nl ++ body

end AchProofs.Cli.Frontmatter
