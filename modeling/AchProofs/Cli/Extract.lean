import AchProofs.Foundation.Links

namespace AchProofs.Cli.Extract

open Foundation.Links

abbrev Name := List Char

def part (text : List Char) : Option (Part Name) :=
  if text = [] ∨ text = ['.'] then none
  else if text = ['.', '.'] then some .up
  else some (.name text)

def parse (text : List Char) : Written Name where
  absolute := text.head? == some '/'
  parts := (text.splitOn '/').filterMap part

theorem splitOn_append_slash (a b : List Char) :
    (a ++ '/' :: b).splitOn '/' = a.splitOn '/' ++ b.splitOn '/' := by
  rw [List.splitOn, List.splitOnP_append_cons _ _ (by simp)]
  rfl

theorem parts_append (a b : List Char) :
    (parse (a ++ '/' :: b)).parts = (parse a).parts ++ (parse b).parts := by
  simp only [parse]
  rw [splitOn_append_slash, List.filterMap_append]

def kernelHops : ℕ := 40

inductive Reason
  | emptyName
  | absolutePath
  | dotdot
  | escapesDst
  | symlinksRejected
  | emptyLinkname
  | absoluteTarget
  | targetEscapesDst
  | hardlink
  | device
  | fifo
  | unsupported
  deriving DecidableEq, Repr

inductive ExtractError
  | tooManyEntries
  | unsafePaxPath (r : Reason)
  | unsafeTarEntry (r : Reason)
  | mkdir
  | create
  | body
  | bombCapExceeded
  | symlink
  deriving DecidableEq, Repr

/-- What a tar header's `Typeflag` makes of an entry. A regular file has so many bytes; `broken`
stands for a failure to read, close or hash it. -/
inductive Kind
  | dir
  | reg (size : ℕ) (broken : Bool)
  | symlink (linkname : List Char)
  | paxHeader
  | hardlink
  | device
  | fifo
  | unsupported
  deriving DecidableEq, Repr

structure Entry where
  name : List Char
  paxPath : Option (List Char)
  kind : Kind
  deriving DecidableEq, Repr

/-- `dst` is the place of the destination. A byte cap of 0 is none. -/
structure Config where
  dst : List Name
  maxEntries : ℕ
  maxBytes : ℕ
  allowSymlinks : Bool

/-- The tree, and every place at which something was made, also if it was removed again. -/
structure Disk where
  tree : Tree Name
  made : List (List Name)

structure State where
  disk : Disk
  entriesSeen : ℕ
  bytesWritten : ℕ

def Disk.put (d : Disk) (place : List Name) (node : Node Name) : Disk where
  tree := Function.update d.tree place (some node)
  made := place :: d.made

def Disk.remove (d : Disk) (place : List Name) : Disk :=
  { d with tree := Function.update d.tree place none }

/-- The place at which a directory, a link or an `O_EXCL` file can be made under a path: the path
without its last name leads to a directory that has nothing of that name. -/
def freePlace (dst : List Name) (tree : Tree Name) (rel : List Name) : Option (List Name) :=
  match rel.getLast? with
  | none => none
  | some n =>
    match walk tree dirEnter kernelHops dst (names rel.dropLast) with
    | .error _ => none
    | .ok parent => if tree (parent ++ [n]) = none then some (parent ++ [n]) else none

/-- `os.MkdirAll` of a path below the destination, its names last first. -/
def mkdirAll (dst : List Name) (d : Disk) : List Name → Disk × Bool
  | [] => (d, true)
  | n :: up =>
    match walk d.tree dirEnter kernelHops dst (names (n :: up).reverse) with
    | .ok _ => (d, true)
    | .error _ =>
      match mkdirAll dst d up with
      | (d', false) => (d', false)
      | (d', true) =>
        match freePlace dst d'.tree (n :: up).reverse with
        | none => (d', false)
        | some place => (d'.put place .dir, true)

def startsWithDst (dst path : List Name) : Bool := decide (path = dst ∨ dst ≠ [] ∧ dst <+: path)

def checkSafeRel (dst : List Name) (name : List Char) : Option Reason :=
  if name = [] then some .emptyName
  else if (parse name).absolute then some .absolutePath
  else if (normal (parse name).parts).1 ≠ 0 then some .dotdot
  else if !startsWithDst dst (lexical dst (parse name).parts) then some .escapesDst
  else none

def writeRegular (cfg : Config) (s : State) (rel : List Name) (size : ℕ) (broken : Bool) :
    State × Option ExtractError :=
  match mkdirAll cfg.dst s.disk rel.dropLast.reverse with
  | (d, false) => ({ s with disk := d }, some .mkdir)
  | (d, true) =>
    match freePlace cfg.dst d.tree rel with
    | none => ({ s with disk := d }, some .create)
    | some place =>
      if broken then
        ({ s with disk := (d.put place .file).remove place }, some .body)
      else if 0 < cfg.maxBytes ∧ cfg.maxBytes - s.bytesWritten < size then
        ({ s with disk := (d.put place .file).remove place }, some .bombCapExceeded)
      else
        ({ s with disk := d.put place .file, bytesWritten := s.bytesWritten + size }, none)

def writeSymlink (cfg : Config) (s : State) (rel : List Name) (linkname : List Char) :
    State × Option ExtractError :=
  if linkname = [] then (s, some (.unsafeTarEntry .emptyLinkname))
  else if (parse linkname).absolute then (s, some (.unsafeTarEntry .absoluteTarget))
  else if !startsWithDst cfg.dst
      (lexical (cfg.dst ++ rel).dropLast (parse linkname).parts) then
    (s, some (.unsafeTarEntry .targetEscapesDst))
  else
    match mkdirAll cfg.dst s.disk rel.dropLast.reverse with
    | (d, false) => ({ s with disk := d }, some .mkdir)
    | (d, true) =>
      match freePlace cfg.dst d.tree rel with
      | none => ({ s with disk := d }, some .symlink)
      | some place => ({ s with disk := d.put place (.link (parse linkname)) }, none)

def writeEntry (cfg : Config) (s : State) (rel : List Name) : Kind → State × Option ExtractError
  | .dir =>
    match mkdirAll cfg.dst s.disk rel.reverse with
    | (d, false) => ({ s with disk := d }, some .mkdir)
    | (d, true) => ({ s with disk := d }, none)
  | .reg size broken => writeRegular cfg s rel size broken
  | .symlink linkname =>
    if !cfg.allowSymlinks then (s, some (.unsafeTarEntry .symlinksRejected))
    else writeSymlink cfg s rel linkname
  | .paxHeader => (s, none)
  | .hardlink => (s, some (.unsafeTarEntry .hardlink))
  | .device => (s, some (.unsafeTarEntry .device))
  | .fifo => (s, some (.unsafeTarEntry .fifo))
  | .unsupported => (s, some (.unsafeTarEntry .unsupported))

/-- One turn of the loop of `Extract`. -/
def extractEntry (cfg : Config) (s : State) (e : Entry) : State × Option ExtractError :=
  let s := { s with entriesSeen := s.entriesSeen + 1 }
  if s.entriesSeen > cfg.maxEntries then (s, some .tooManyEntries)
  else
    match e.paxPath.bind (checkSafeRel cfg.dst) with
    | some r => (s, some (.unsafePaxPath r))
    | none =>
      match checkSafeRel cfg.dst e.name with
      | some r => (s, some (.unsafeTarEntry r))
      | none => writeEntry cfg s (normal (parse e.name).parts).2 e.kind

/-- `Extract` on the entries of an archive, up to its end or the first error. -/
def extract (cfg : Config) : State → List Entry → State × Option ExtractError
  | s, [] => (s, none)
  | s, e :: es =>
    match extractEntry cfg s e with
    | (s', some err) => (s', some err)
    | (s', none) => extract cfg s' es

end AchProofs.Cli.Extract
