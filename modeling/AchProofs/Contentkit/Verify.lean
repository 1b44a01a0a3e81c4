import AchProofs.Cli.Extract

namespace AchProofs.Contentkit

open Foundation.Links Cli.Extract

inductive Typeflag
  | reg
  | dir
  | symlink
  | xHeader
  | xGlobalHeader
  | link
  | char
  | block
  | fifo
  | other
  deriving DecidableEq, Repr

/-- A tar header, with the number of unpacked bytes the reader has gone through when it is read, and
what `parseSkillFrontmatter` makes of the entry's body: a name and a description, or an error. -/
structure Header where
  name : List Char
  paxPath : Option (List Char)
  typeflag : Typeflag
  linkname : List Char
  mode : ℕ
  size : ℕ
  offset : ℕ
  frontmatter : Option (List Char × List Char)
  deriving DecidableEq, Repr

inductive Unsafe
  | emptyName
  | backslash
  | windowsVolume
  | absolutePath
  | dotdot
  | paxPath
  | extractionRoot
  | emptyTarget
  | absoluteTarget
  | targetEscapesRoot
  | hardlink
  | device
  | fifo
  | unsupported
  deriving DecidableEq, Repr

inductive VerifyError
  | tooManyEntries
  | pastByteCap
  | unsafeEntry (r : Unsafe)
  | frontmatter
  | skillName
  | description
  | nothingRecognized
  deriving DecidableEq, Repr

def maxVerifyEntries : ℕ := 100000

def maxVerifyDecompressedBytes : ℕ := 1073741824

def hasWindowsVolume : List Char → Bool
  | c :: ':' :: _ => c.isAlpha
  | _ => false

def safeRelLexical (name : List Char) : Option Unsafe :=
  if name = [] then some .emptyName
  else if '\\' ∈ name then some .backslash
  else if hasWindowsVolume name then some .windowsVolume
  else if (parse name).absolute then some .absolutePath
  else if (normal (parse name).parts).1 ≠ 0 then some .dotdot
  else none

def Header.rel (h : Header) : List Name := (normal (parse h.name).parts).2

def symlinkTargetSafe (h : Header) : Option Unsafe :=
  if h.linkname = [] then some .emptyTarget
  else if (parse h.linkname).absolute ∨ '\\' ∈ h.linkname ∨ hasWindowsVolume h.linkname then
    some .absoluteTarget
  else if (normal (names h.rel.dropLast ++ (parse h.linkname).parts)).1 ≠ 0 then
    some .targetEscapesRoot
  else none

def typeflagSafe (h : Header) : Option Unsafe :=
  match h.typeflag with
  | .reg => if h.rel = [] then some .extractionRoot else none
  | .symlink => if h.rel = [] then some .extractionRoot else symlinkTargetSafe h
  | .dir | .xHeader | .xGlobalHeader => none
  | .link => some .hardlink
  | .char | .block => some .device
  | .fifo => some .fifo
  | .other => some .unsupported

def tarEntrySafe (h : Header) : Option Unsafe :=
  match safeRelLexical h.name with
  | some r => some r
  | none => if (h.paxPath.bind safeRelLexical).isSome then some .paxPath else typeflagSafe h

def trimDotSlash : List Char → List Char
  | '.' :: '/' :: rest => rest
  | name => name

def recognizedComponentDirs : List Name :=
  ["commands", "agents", "skills", "hooks", "output-styles", "themes", "monitors"].map String.toList

def recognizedRootFiles : List Name := ["SKILL.md", ".mcp.json", ".lsp.json"].map String.toList

instance lawfulBEq_chars : LawfulBEq (List Char) := inferInstance

def manifestRelPath : List Name := [".claude-plugin", "plugin.json"].map String.toList

/-- A sign of a plugin: its manifest, a root file or a component directory. -/
def pluginSign (h : Header) : Bool :=
  let path := parse (trimDotSlash h.name)
  !path.absolute && (normal path.parts).1 = 0 &&
    ((normal path.parts).2 = manifestRelPath ||
      (normal path.parts).2.length =
        1 && (normal path.parts).2.all (fun n => n ∈ recognizedRootFiles) ||
      (normal path.parts).2.head?.any (fun n => n ∈ recognizedComponentDirs))

/-- A file `SKILL.md` at the root or one directory deep. -/
def skillManifest (h : Header) : Bool :=
  let path := parse (trimDotSlash h.name)
  let slashes := if path.absolute then (normal path.parts).2.length
    else (normal path.parts).1 + (normal path.parts).2.length - 1
  (normal path.parts).2.getLast? = some "SKILL.md".toList && slashes ≤ 1

def lowerAlnum (c : Char) : Bool := ('a' ≤ c && c ≤ 'z') || ('0' ≤ c && c ≤ '9')

def validSkillName (name : List Char) : Bool :=
  name.length ≤ 64 && (name.splitOn '-').all (fun p => p ≠ [] && p.all lowerAlnum)

def markPlugin (h : Header) (found : Bool) : Except VerifyError Bool := .ok (found || pluginSign h)

def markSkill (h : Header) (found : Bool) : Except VerifyError Bool :=
  if found ∨ h.typeflag ≠ .reg ∨ ¬ skillManifest h then .ok found
  else
    match h.frontmatter with
    | none => .error .frontmatter
    | some (name, description) =>
      if ¬ validSkillName name then .error .skillName
      else if description = [] ∨ 1024 < (String.ofList description).utf8ByteSize then
        .error .description
      else .ok true

/-- The walk over all entries that both verifiers make, after so many of them. -/
def verifyWalk (mark : Header → Bool → Except VerifyError Bool) :
    ℕ → Bool → List Header → Except VerifyError Bool
  | _, found, [] => .ok found
  | seen, found, h :: hs =>
    if seen + 1 > maxVerifyEntries then .error .tooManyEntries
    else if h.offset > maxVerifyDecompressedBytes then .error .pastByteCap
    else
      match tarEntrySafe h with
      | some r => .error (.unsafeEntry r)
      | none =>
        match mark h found with
        | .error e => .error e
        | .ok found' => verifyWalk mark (seen + 1) found' hs

def verify (mark : Header → Bool → Except VerifyError Bool) (hs : List Header) :
    Except VerifyError Unit :=
  match verifyWalk mark 0 false hs with
  | .error e => .error e
  | .ok found => if found then .ok () else .error .nothingRecognized

def verifyPluginContents : List Header → Except VerifyError Unit := verify markPlugin

def verifySkillContents : List Header → Except VerifyError Unit := verify markSkill

theorem verifyWalk_safe {mark : Header → Bool → Except VerifyError Bool} {seen : ℕ} {found r : Bool}
    {hs : List Header} (h : verifyWalk mark seen found hs = .ok r) :
    ∀ x ∈ hs, tarEntrySafe x = none := by
  induction hs generalizing seen found with
  | nil => simp
  | cons x hs ih =>
    rw [verifyWalk] at h
    split_ifs at h
    split at h
    · cases h
    · rename_i hsafe
      split at h
      · cases h
      · exact List.forall_mem_cons.mpr ⟨hsafe, ih h⟩

theorem verify_safe {mark : Header → Bool → Except VerifyError Bool} {hs : List Header}
    (h : verify mark hs = .ok ()) : ∀ x ∈ hs, tarEntrySafe x = none := by
  unfold verify at h
  split at h
  · cases h
  · rename_i hwalk
    exact verifyWalk_safe hwalk

def maskMode (mode : ℕ) : ℕ := mode &&& 0o755

/-- Whether a file just written can be opened again to be hashed: by its owner's read bit, or by a
user whom no mode stops. -/
def reopens (privileged : Bool) (mode : ℕ) : Bool := privileged || (maskMode mode).testBit 8

def Header.entry (privileged : Bool) (h : Header) : Entry where
  name := h.name
  paxPath := h.paxPath
  kind :=
    match h.typeflag with
    | .reg => .reg h.size !(reopens privileged h.mode)
    | .dir => .dir
    | .symlink => .symlink h.linkname
    | .xHeader | .xGlobalHeader => .paxHeader
    | .link => .hardlink
    | .char | .block => .device
    | .fifo => .fifo
    | .other => .unsupported

theorem checkSafeRel_of_safe {dst : List Name} (hdst : dst ≠ []) {name : List Char}
    (h : safeRelLexical name = none) : checkSafeRel dst name = none := by
  unfold safeRelLexical at h
  split_ifs at h with hne _ _ habs hup
  have hzero : (normal (parse name).parts).1 = 0 := not_not.mp hup
  have hlex : dst <+: lexical dst (parse name).parts := by
    rw [lexical_eq_normal, hzero, Nat.sub_zero, List.take_length]
    exact List.prefix_append _ _
  unfold checkSafeRel
  rw [if_neg hne, if_neg habs, if_neg hup]
  simp [startsWithDst, hdst, hlex]

/-- What holds of a safe entry. -/
structure Header.Safe (h : Header) : Prop where
  name : safeRelLexical h.name = none
  pax : h.paxPath.bind safeRelLexical = none
  rel : h.typeflag = .reg ∨ h.typeflag = .symlink → h.rel ≠ []
  target : h.typeflag = .symlink → symlinkTargetSafe h = none
  typeflag : h.typeflag = .reg ∨ h.typeflag = .dir ∨ h.typeflag = .symlink ∨
    h.typeflag = .xHeader ∨ h.typeflag = .xGlobalHeader

theorem safe_of_tarEntrySafe {h : Header} (hs : tarEntrySafe h = none) : h.Safe := by
  unfold tarEntrySafe at hs
  split at hs
  · cases hs
  · rename_i hname
    split_ifs at hs with hpax
    have hpax' : h.paxPath.bind safeRelLexical = none := by simpa using hpax
    unfold typeflagSafe at hs
    cases hflag : h.typeflag <;> rw [hflag] at hs <;> dsimp only at hs
    case reg =>
      have hrel : h.rel ≠ [] := fun hrel => by simp [hrel] at hs
      exact ⟨hname, hpax', fun _ => hrel, by simp [hflag], by simp [hflag]⟩
    case symlink =>
      have hrel : h.rel ≠ [] := fun hrel => by simp [hrel] at hs
      rw [if_neg hrel] at hs
      exact ⟨hname, hpax', fun _ => hrel, fun _ => hs, by simp [hflag]⟩
    case dir => exact ⟨hname, hpax', by simp [hflag], by simp [hflag], by simp [hflag]⟩
    case xHeader => exact ⟨hname, hpax', by simp [hflag], by simp [hflag], by simp [hflag]⟩
    case xGlobalHeader => exact ⟨hname, hpax', by simp [hflag], by simp [hflag], by simp [hflag]⟩
    all_goals cases hs

end AchProofs.Contentkit
