import AchProofs.Hydrate.Passes
import AchProofs.Hydrate.RuntimeOwned

namespace AchProofs.Hydrate

variable {α : Type}

/-- A state file: the rows below the tool root, and those below the directory of the environment. -/
structure StateFile (α : Type) extends State α where
  environment : String
  prompts : List (FileEntry α)
  artifacts : List (FileEntry α)
  runtimeFiles : List (FileEntry α)

inductive ItemKind where
  | mcp
  | a2a
  | plugin
  | skill
  | prompt
  | artifact
deriving DecidableEq, Repr

def kindRank : ItemKind → ℕ
  | .mcp => 0
  | .a2a => 1
  | .plugin => 2
  | .skill => 3
  | .prompt => 4
  | .artifact => 5

def isRuntimeKind : ItemKind → Bool
  | .mcp | .a2a => true
  | _ => false

/-- A user-facing item of a state, with the hashes of its files by target. -/
structure StateItem (α : Type) where
  kind : ItemKind
  name : String
  files : List (String × Option (Digest α))

def a2aContainers : List String := ["a2aAgents", "a2a_agents"]

def runtimeKindForKey (k : String) : Option ItemKind :=
  if (containerOfKey k).isSome then some .mcp
  else if a2aContainers.any fun c => hasPrefixText (c ++ ".") k then some .a2a
  else none

/-- `filepath.Base`. -/
def baseName (target : String) : String :=
  match (target.toList.splitOn '/').filter (· ≠ []) with
  | [] => if target = "" then "." else "/"
  | parts => String.ofList (parts.getLastD [])

def StateItem.hasKey (kind : ItemKind) (name : String) (it : StateItem α) : Bool :=
  it.kind = kind && it.name = name

def addFile (files : List (String × Option (Digest α))) (target : String)
    (hash : Option (Digest α)) : List (String × Option (Digest α)) :=
  if files.any (·.1 = target) then files.map fun f => if f.1 = target then (target, hash) else f
  else files ++ [(target, hash)]

def addItem (items : List (StateItem α)) (kind : ItemKind) (name target : String)
    (hash : Option (Digest α)) : List (StateItem α) :=
  if items.any (·.hasKey kind name) then
    items.map fun it =>
      if it.hasKey kind name then { it with files := addFile it.files target hash } else it
  else items ++ [⟨kind, name, [(target, hash)]⟩]

def addRow (kind : ItemKind) (items : List (StateItem α)) (e : FileEntry α) : List (StateItem α) :=
  addItem items kind (if e.source = "" then baseName e.target else e.source) e.target (some e.hash)

def addRuntimeRow (items : List (StateItem α)) (e : FileEntry α) : List (StateItem α) :=
  e.keys.foldl (fun items k =>
    match runtimeKindForKey k with
    | some kind =>
      addItem items kind (String.ofList ((k.toList.dropWhile (· ≠ '.')).drop 1)) k none
    | none => items) items

def itemBefore (a b : ItemKind × String) : Bool :=
  kindRank a.1 < kindRank b.1 || a.1 = b.1 && a.2 ≤ b.2

def itemsOf (f : Option (StateFile α)) : List (StateItem α) :=
  match f with
  | none => []
  | some f =>
    let items := f.plugins.foldl (addRow .plugin) []
    let items := f.skills.foldl (addRow .skill) items
    let items := f.prompts.foldl (addRow .prompt) items
    let items := f.artifacts.foldl (addRow .artifact) items
    let items := f.adapter.foldl addRuntimeRow items
    items.insertionSort fun a b => itemBefore (a.kind, a.name) (b.kind, b.name)

inductive Op where
  | add
  | update
  | remove
deriving DecidableEq, Repr

structure ItemChange where
  op : Op
  kind : ItemKind
  name : String
  files : ℕ
deriving DecidableEq, Repr

def fileCount (it : StateItem α) : ℕ := if isRuntimeKind it.kind then 0 else it.files.length

def removal (it : StateItem α) : ItemChange := ⟨.remove, it.kind, it.name, fileCount it⟩

variable [DecidableEq α]

def sameFiles (a b : List (String × Option (Digest α))) : Bool :=
  a.length = b.length && a.all (· ∈ b)

def changeOf (before : List (StateItem α)) (it : StateItem α) : Option ItemChange :=
  match before.find? (·.hasKey it.kind it.name) with
  | none => some ⟨.add, it.kind, it.name, fileCount it⟩
  | some old =>
    if sameFiles old.files it.files then none else some ⟨.update, it.kind, it.name, fileCount it⟩

/-- `DiffItems`: what changes, and how many items do not. -/
def diffItems (prev next : Option (StateFile α)) : List ItemChange × ℕ :=
  let before := itemsOf prev
  let now := itemsOf next
  let gone := before.filter fun it => !now.any (·.hasKey it.kind it.name)
  ((now.filterMap (changeOf before) ++
      gone.map removal).insertionSort
      fun a b => itemBefore (a.kind, a.name) (b.kind, b.name),
    (now.filter fun it => (changeOf before it).isNone).length)

end AchProofs.Hydrate
