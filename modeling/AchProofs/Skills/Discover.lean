import AchProofs.Localpkg.SlicedTree

namespace AchProofs.Skills

open Foundation.Links Foundation.Percent Cli.Extract
  Contentkit Gitfetch Localpkg

structure DiscoveredSkill where
  name : Text
  dir : Text
  description : Text
  deriving DecidableEq, Repr

abbrev Frontmatter := Bytes → Option (Text × Text)

def skillMarketplaceMaxSkills : ℕ := 2000

def skillMarketplaceMaxFileBytes : ℕ := 64 * 1048576

def skillMaxManifestBytes : ℕ := 1048576

def skillFile : Name := "SKILL.md".toList

def cleanName (name : Text) : Cleaned := clean (trimDotSlash name)

def normRel (name : Text) (root : Name) : Cleaned :=
  let p := cleanName name
  if root ≠ [] ∧ p.absolute = false ∧ p.segs.head? = some root ∧ p.segs.tail ≠ [] then
    ⟨false, p.segs.tail⟩
  else p

def trimSlash (p : Text) : Text :=
  ((p.dropWhile (· = '/')).reverse.dropWhile (· = '/')).reverse

def trimText (p : Text) : Text := ((p.dropWhile isSpace).reverse.dropWhile isSpace).reverse

def normSubPath (p : Text) : List Name := (clean (trimSlash (trimText p))).segs

def relUnderSubPath (rel : Cleaned) (sub : List Name) : Option Cleaned :=
  if sub = [] then some rel
  else if rel.absolute = false ∧ sub <+: rel.segs ∧ rel.segs ≠ sub then
    some ⟨false, rel.segs.drop sub.length⟩
  else none

/-- What stands before the first slash of a cleaned name, if there is one. -/
def firstSegment (p : Cleaned) : Option Name :=
  if p.absolute then some []
  else
    match p.segs with
    | first :: _ :: _ => some first
    | _ => none

def detectLoop : Name → List Text → Name
  | root, [] => root
  | root, n :: ns =>
    match firstSegment (cleanName n) with
    | none => []
    | some first =>
      if root = [] then detectLoop first ns
      else if root ≠ first then []
      else detectLoop root ns

def detectArchiveRoot (names : List Text) : Name := detectLoop [] names

def tarRegularNames (ms : List Member) : List Text :=
  (ms.filter fun m => m.typeflag = .reg).map Member.name

/-- The directory of a path `dir/SKILL.md`. -/
def manifestDir (rel : Cleaned) : Option Text :=
  match rel.absolute, rel.segs with
  | false, [dir, file] => if file = skillFile then some dir else none
  | true, [file] => if file = skillFile then some ['/'] else none
  | _, _ => none

def validDescription (d : Text) : Bool := d ≠ [] && (String.ofList d).utf8ByteSize ≤ 1024

def skillIn (fm : Frontmatter) (dir : Text) (body : Bytes) : Option DiscoveredSkill :=
  match fm (body.take skillMaxManifestBytes) with
  | none => none
  | some (name, description) =>
    if validSkillName name ∧ name = dir ∧ validDescription description then
      some ⟨name, dir, description⟩
    else none

def skillOf (fm : Frontmatter) (root : Name) (sub : List Name) (m : Member) :
    Option DiscoveredSkill :=
  if m.typeflag = .reg then
    ((relUnderSubPath (normRel m.name root) sub).bind manifestDir).bind fun dir =>
      skillIn fm dir m.body
  else none

def putSkill (found : List DiscoveredSkill) (s : DiscoveredSkill) : List DiscoveredSkill :=
  s :: found.filter fun x => x.dir ≠ s.dir

def discoverLoop (fm : Frontmatter) (root : Name) (sub : List Name) :
    List DiscoveredSkill → List Member → Option (List DiscoveredSkill)
  | found, [] => some found
  | found, m :: ms =>
    match skillOf fm root sub m with
    | none => discoverLoop fm root sub found ms
    | some s =>
      if (putSkill found s).length > skillMarketplaceMaxSkills then none
      else discoverLoop fm root sub (putSkill found s) ms

def nameLE (a b : DiscoveredSkill) : Bool := decide (a.name ≤ b.name)

def discoverSkillsInTree (fm : Frontmatter) (ms : List Member) (subPath : Text) :
    Option (Name × List DiscoveredSkill) :=
  let root := detectArchiveRoot (tarRegularNames ms)
  (discoverLoop fm root (normSubPath subPath) [] ms).map fun found => (root, found.mergeSort nameLE)

/-- An entry at or below the path, with its last name in place of it. A link loses its target. -/
def rerootLeaf (c : Tar) (root : Name) (path : Cleaned) (m : Member) : Option Member :=
  let rel := normRel m.name root
  if rel.absolute = path.absolute ∧ path.segs <+: rel.segs then
    some (c.member (render (path.segs.getLast?.toList ++ rel.segs.drop path.segs.length)) m.typeflag
      m.mode m.body)
  else none

def sliceSkillSubtree (c : Tar) (ms : List Member) (root : Name) (path : Cleaned) :
    Option (List Member) :=
  let out := ms.filterMap (rerootLeaf c root path)
  if out.any (tooLong skillMarketplaceMaxFileBytes) ∨ out = [] then none else some out

/-- The path that `materializeMarketplaceSkill` slices at. The sub-path stands in it as it is
written, while discovery has taken the space and the slashes around it away. -/
def subtreePath (subPath dir : Text) : Cleaned :=
  if subPath = [] then clean dir else clean (subPath ++ '/' :: dir)

/-- The headers as `VerifySkillContents` reads them. -/
def skillHeaders (fm : Frontmatter) : ℕ → List Member → List Header
  | _, [] => []
  | at₁, m :: ms =>
    { header m (at₁ + 512) with frontmatter := fm (m.body.take skillMaxManifestBytes) } ::
      skillHeaders fm (at₁ + 512 + (m.body.length + 511) / 512 * 512) ms

section Packing

def gitArchive (c : Tar) (t : Worktree) : List Member := t.items.filterMap (c.pack ['/'])

def packWrapped (c : Tar) (wrapper : Name) : List Name × Item → Member
  | (p, .dir) => c.member (render (wrapper :: p) ++ ['/']) .dir 0o755 []
  | (p, .file body exec) => c.member (render (wrapper :: p)) .reg (if exec then 0o755
      else 0o644) body
  | (p, .link target) =>
      { c.member (render (wrapper :: p)) .symlink 0o777 [] with linkname := target }

def restArchive (c : Tar) (wrapper : Name) (t : Worktree) : List Member :=
  c.member (wrapper ++ ['/']) .dir 0o755 [] :: t.items.map (packWrapped c wrapper)

end Packing

section Exact

variable (fm : Frontmatter)

/-- The skill that a file of the tree makes its directory, directly under the skills root. -/
def itemSkill (sub : List Name) : List Name × Item → Option DiscoveredSkill
  | (p, .file body _) =>
    if sub <+: p then
      match p.drop sub.length with
      | [dir, file] => if file = skillFile then skillIn fm dir body else none
      | _ => none
    else none
  | _ => none

def skillDirs (xs : List (List Name × Item)) (sub : List Name) : List Text :=
  (xs.filterMap (itemSkill fm sub)).map DiscoveredSkill.dir

def FileBelow (xs : List (List Name × Item)) (p q : List Name) (body : Bytes) : Prop :=
  ∃ exec, (p ++ q, Item.file body exec) ∈ xs

def regularFiles (ms : List Member) : List (List Name × Bytes) :=
  (ms.filter fun m => m.typeflag = .reg).map fun m => ((cleanName m.name).segs, m.body)

/-- Discovery in an archive of the tree finds the skills, and a slice of it is a verified archive of
the files of one. -/
def DiscoversExactly (c : Tar) (t : Worktree) (subPath : Text) (ms : List Member) : Prop :=
  ∃ root skills, discoverSkillsInTree fm ms subPath = some (root, skills) ∧
    (∀ d, d ∈ skills.map DiscoveredSkill.dir ↔ d ∈ skillDirs fm t.items (normSubPath subPath)) ∧
    ∀ d ∈ skills.map DiscoveredSkill.dir, ∃ out,
      sliceSkillSubtree c ms root (subtreePath subPath d) = some out ∧
      verifySkillContents (skillHeaders fm 0 out) = .ok () ∧
      ∀ x, x ∈ regularFiles out ↔
        ∃ q, x.1 = d :: q ∧ FileBelow t.items (normSubPath subPath ++ [d]) q x.2

end Exact

end AchProofs.Skills
