import AchProofs.Hydrate.Publish

namespace AchProofs.Hydrate

open Foundation Cli.Merge

variable {α : Type}

def hasPrefixText (p s : String) : Bool := p.toList.isPrefixOf s.toList

/-- The containers of MCP servers: of codex, of claude, gemini and pi, and of opencode. -/
def mcpContainers : List String := ["mcp_servers", "mcpServers", "mcp"]

def containerOfKey (k : String) : Option String :=
  mcpContainers.find? fun c => hasPrefixText (c ++ ".") k

/-- `mcpServersPrefixFor` without its dot. -/
def mcpContainerFor (keys : List String) : String :=
  (keys.findSome? containerOfKey).getD "mcpServers"

def ownedKeys (runtime : List (FileEntry α)) (path : String) : List String :=
  (runtime.filter fun e => e.target = path).flatMap FileEntry.keys

/-- The document without the keys, and without the container of servers if that came out empty. -/
def withoutOwned (doc : KeyTree String α) (container : String) (keys : List String) :
    KeyTree String α :=
  let rest := keys.foldl removeDottedKey doc
  match rest.find container with
  | some (.inr .nil) => rest.erase container
  | _ => rest

theorem ordered_removeAll {doc : KeyTree String α} (hd : doc.Ordered) (keys : List String) :
    (keys.foldl removeDottedKey doc).Ordered := by
  induction keys generalizing doc with
  | nil => exact hd
  | cons k keys ih => exact ih (KeyTree.ordered_remove hd)

theorem ordered_withoutOwned {doc : KeyTree String α} (hd : doc.Ordered) (container : String)
    (keys : List String) : (withoutOwned doc container keys).Ordered := by
  unfold withoutOwned
  dsimp only
  split
  · exact KeyTree.ordered_erase (ordered_removeAll hd keys)
  · exact ordered_removeAll hd keys

/-- `dropRuntimeOwnedMCP`: whether to publish, and the write without what the runtime rows own. A
content that cannot be parsed is an error. -/
def dropRuntimeOwnedMCP (w : FileWrite α) (runtime : List (FileEntry α)) :
    Option (Bool × FileWrite α) :=
  if w.merge ≠ .deep then some (true, w)
  else
    let collide := w.keys.filter (· ∈ ownedKeys runtime w.path)
    let survivors := w.keys.filter (· ∉ ownedKeys runtime w.path)
    if collide = [] then some (true, w)
    else
      match w.content with
      | .text _ => none
      | .doc d =>
        let container := mcpContainerFor w.keys
        if withoutOwned d.tree container collide = .nil then
          some (false, { w with keys := survivors })
        else
          some (survivors ≠ [],
            { w with keys := survivors
                     content := .doc ⟨withoutOwned d.tree container collide,
                       ordered_withoutOwned d.ordered container collide⟩ })

end AchProofs.Hydrate
