import AchProofs.Cli.Contain
import AchProofs.Contentkit.Verify
import AchProofs.Foundation.Percent

namespace AchProofs.Gitfetch

open Foundation.Links Foundation.Percent Cli.Extract
  Cli.Contain Contentkit

abbrev Text := List Char

inductive Item
  | dir
  | file (body : Bytes) (exec : Bool)
  | link (target : Text)
  deriving DecidableEq, Repr

/-- One element of a path that git can check out. It has no `.git` in its trees. -/
def proper (n : Name) : Bool :=
  n ∉ [[], ['.'], ['.', '.'], ".git".toList] && '/' ∉ n

/-- The tree of a commit, in the order in which `filepath.WalkDir` comes through it. -/
structure Worktree where
  items : List (List Name × Item)
  distinct : (items.map Prod.fst).Nodup
  named : ∀ x ∈ items, x.1 ≠ [] ∧ ∀ n ∈ x.1, proper n
  parents : ∀ x ∈ items, x.1.dropLast = [] ∨ (x.1.dropLast, Item.dir) ∈ items

def Worktree.find (t : Worktree) (p : List Name) : Option Item :=
  if p = [] then some .dir else (t.items.find? fun x => x.1 = p).map Prod.snd

def Worktree.below (t : Worktree) (p : List Name) : List (List Name × Item) :=
  t.items.filterMap fun x =>
    if p <+: x.1 ∧ x.1 ≠ p then some (x.1.drop p.length, x.2) else none

def Item.node : Item → Node Name
  | .dir => .dir
  | .file _ _ => .file
  | .link target => .link (parse target)

/-- The file system of the caller, with the fresh directories for a clone and for what an archive
is extracted to. -/
structure Host where
  tree : Tree Name
  root : List Name
  above : ∀ m, m ≠ [] → m <+: root → tree m = some .dir
  stage : List Name
  stage_ne : stage ≠ []
  staging : tree stage = some .dir
  empty : ∀ n p, tree (stage ++ n :: p) = none
  privileged : Bool

def Host.cloned (h : Host) (t : Worktree) : Tree Name := fun p =>
  if h.root <+: p then (t.find (p.drop h.root.length)).map Item.node else h.tree p

/-- A tar header with the bytes that follow it. -/
structure Member where
  name : Text
  paxPath : Option Text
  typeflag : Typeflag
  linkname : Text
  mode : ℕ
  body : Bytes
  deriving DecidableEq, Repr

/-- What the gzip and tar readers make of the bytes of a file, and the names that the tar writer
spells in a PAX record. -/
structure Tar where
  untar : Bytes → Option (List Member)
  needsPax : Text → Bool

def Tar.member (c : Tar) (name : Text) (typeflag : Typeflag) (mode : ℕ) (body : Bytes) :
    Member where
  name := name
  paxPath := if c.needsPax name then some name else none
  typeflag := typeflag
  linkname := []
  mode := mode
  body := body

def render (ns : List Name) : Text := ['/'].intercalate ns

def Tar.pack (c : Tar) (slash : Text) : List Name × Item → Option Member
  | (p, .dir) => some (c.member (render p ++ slash) .dir 0o755 [])
  | (p, .file body exec) => some (c.member (render p) .reg (if exec then 0o755 else 0o644) body)
  | (_, .link _) => none

/-- What a fetch returns: an archive, or the bytes of a single file. -/
inductive Body
  | tar (ms : List Member)
  | raw (body : Bytes)
  deriving DecidableEq, Repr

def Tar.read (c : Tar) : Body → Option (List Member)
  | .tar ms => some ms
  | .raw body => c.untar body

/-- A path after `path.Clean`. -/
structure Cleaned where
  absolute : Bool
  segs : List Name
  deriving DecidableEq, Repr

def clean (text : Text) : Cleaned where
  absolute := (parse text).absolute
  segs := (if (parse text).absolute then []
    else List.replicate (normal (parse text).parts).1 ['.', '.']) ++ (normal (parse text).parts).2

/-- The cleaned text starts with `/` or with two dots. -/
def Cleaned.escapes (p : Cleaned) : Bool :=
  p.absolute || p.segs.head?.any fun n => ['.', '.'].isPrefixOf n

inductive FetchError
  | urlRequired
  | urlOption
  | refRequired
  | shaShape
  | clone
  | fetchCommit
  | cloneTooLarge
  | escapesRoot
  | resolveRoot (e : Failure)
  | subtree (e : Failure)
  | escapesCloneRoot
  | notRegular
  deriving DecidableEq, Repr

def Tar.archive (c : Tar) (t : Worktree) (p : List Name) : Body :=
  .tar ((t.below p).filterMap (c.pack ['/']))

def tarSubtree (c : Tar) (h : Host) (t : Worktree) (subtree : Text) : Except FetchError Body :=
  if subtree = [] then .ok (c.archive t [])
  else if (clean subtree).escapes then .error .escapesRoot
  else
    match evalSymlinks (h.cloned t) h.root with
    | .error e => .error (.resolveRoot e)
    | .ok realRoot =>
      match evalSymlinks (h.cloned t) (h.root ++ (clean subtree).segs) with
      | .error e => .error (.subtree e)
      | .ok realStart =>
        if ¬ realRoot <+: realStart then .error .escapesCloneRoot
        else
          match t.find (realStart.drop realRoot.length) with
          | some .dir => .ok (c.archive t (realStart.drop realRoot.length))
          | some (.file body _) => .ok (.raw body)
          | _ => .error .notRegular

/-- What the git servers show: the object a full ref name stands for, the tree an object leads to,
and the size on disk of a clone. -/
structure Remote where
  refs : Text → Text → Option Text
  tree : Text → Text → Option Worktree
  cloneBytes : Text → Text → Text → ℕ

def isSpace (c : Char) : Bool :=
  c.toNat ∈ [0x09, 0x0a, 0x0b, 0x0c, 0x0d, 0x20, 0x85, 0xa0, 0x1680, 0x2028, 0x2029, 0x202f,
    0x205f, 0x3000] || (0x2000 ≤ c.toNat && c.toNat ≤ 0x200a)

def looksLikeOption (url : Text) : Bool := (url.dropWhile isSpace).head? = some '-'

def branchRef (ref : Text) : Text := "refs/heads/".toList ++ ref

def tagRef (ref : Text) : Text := "refs/tags/".toList ++ ref

def lsRemote (r : Remote) (url ref : Text) : Option Text :=
  if looksLikeOption url then none
  else if "refs/".toList.isPrefixOf ref then r.refs url ref
  else (r.refs url (branchRef ref)).orElse fun _ => r.refs url (tagRef ref)

def isSha40 (sha : Text) : Bool :=
  sha.length = 40 && sha.all fun c => ('0' ≤ c && c ≤ '9') || ('a' ≤ c && c ≤ 'f')

def gitDefaultMaxCloneBytes : ℕ := 512 * 1048576

inductive AuthScheme
  | bearer
  | basicOAuth2
  deriving DecidableEq, Repr

/-- What is fetched. The token is left out: a remote answers as it does under the token at hand. -/
structure Spec where
  url : Text
  ref : Text
  sha : Text
  subtree : Text
  scheme : AuthScheme
  deriving DecidableEq, Repr

/-- `Fetch` up to the worktree. -/
def checkout (r : Remote) (spec : Spec) : Except FetchError Worktree :=
  if spec.url = [] then .error .urlRequired
  else if looksLikeOption spec.url then .error .urlOption
  else if spec.ref = [] then .error .refRequired
  else if !isSha40 spec.sha then .error .shaShape
  -- `git clone --branch` takes the name of a branch or a tag
  else if r.refs spec.url (branchRef spec.ref) = none ∧ r.refs spec.url (tagRef spec.ref) =
    none then
    .error .clone
  else
    match r.tree spec.url spec.sha with
    | none => .error .fetchCommit
    | some t =>
      if r.cloneBytes spec.url spec.ref spec.sha > gitDefaultMaxCloneBytes then
        .error .cloneTooLarge
      else .ok t

def fetch (c : Tar) (h : Host) (r : Remote) (spec : Spec) : Except FetchError Body :=
  match checkout r spec with
  | .error e => .error e
  | .ok t => tarSubtree c h t spec.subtree

end AchProofs.Gitfetch
