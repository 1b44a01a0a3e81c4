import AchProofs.Hydrate.Passes

namespace AchProofs.Hydrate

variable {α : Type}

/-- A write with the plugin it comes from. A phantom stands for the installed file of a plugin that
is not part of the run. -/
structure ProjectedWrite (α : Type) where
  plugin : String
  fw : FileWrite α
  skipped : Bool
  phantom : Bool

inductive Policy where
  | refuse
  | namespaced
  | skip
  | overwrite
deriving DecidableEq

abbrev LeafAt := String → String → String

def ProjectedWrite.claims (t : String) (w : ProjectedWrite α) : Bool :=
  w.fw.merge = .replace && w.fw.path = t

def installedBy (leafAt : LeafAt) (all : List (ProjectedWrite α)) (rows : List (FileEntry α))
    (path : String) : List String :=
  (rows.filter fun r => !all.any (·.plugin = r.source) && r.merge = .replace &&
    (r.target = path || r.target = leafAt path r.source)).map FileEntry.source

/-- The installed files of other plugins that a staged write would collide with, each once. -/
def installedClaims (leafAt : LeafAt) (all : List (ProjectedWrite α)) (rows : List (FileEntry α)) :
    List (ProjectedWrite α) :=
  ((all.filter fun w => w.fw.merge = .replace).flatMap fun w =>
      (installedBy leafAt all rows w.fw.path).map fun owner => (w.fw.path, owner)).eraseDups.map
    fun claim => ⟨claim.2, ⟨claim.1, .replace, .text [], [], none⟩, false, true⟩

def contested (all : List (ProjectedWrite α)) (t : String) : Bool :=
  all.any fun a => a.claims t && all.any fun b => b.claims t && b.plugin ≠ a.plugin

def hasPhantom (all : List (ProjectedWrite α)) (t : String) : Bool :=
  all.any fun a => a.claims t && a.phantom

def settle (policy : Policy) (leafAt : LeafAt) (before : List (ProjectedWrite α))
    (w : ProjectedWrite α) (after : List (ProjectedWrite α)) : ProjectedWrite α :=
  let t := w.fw.path
  match policy with
  | .refuse => w
  | .namespaced => { w with fw := { w.fw with path := leafAt t w.plugin } }
  | .skip =>
    if hasPhantom (before ++ w :: after) t || before.any (·.claims t) then
      { w with skipped := true }
    else w
  | .overwrite => if after.any (·.claims t) then { w with skipped := true } else w

def settleAll (policy : Policy) (leafAt : LeafAt) (before : List (ProjectedWrite α)) :
    List (ProjectedWrite α) → List (ProjectedWrite α)
  | [] => []
  | w :: after =>
    (if w.claims w.fw.path && contested (before ++ w :: after) w.fw.path
      then settle policy leafAt before w after else w) ::
      settleAll policy leafAt (before ++ [w]) after

/-- `resolvePluginCollisions`. A collision is an error if the policy says so, or if it asks to
overwrite an installed file. -/
def resolvePluginCollisions (policy : Policy) (leafAt : LeafAt) (all : List (ProjectedWrite α)) :
    Option (List (ProjectedWrite α)) :=
  if all.any fun w => contested all w.fw.path &&
      (policy = .refuse || policy = .overwrite && hasPhantom all w.fw.path) then none
  else some (settleAll policy leafAt [] all)

end AchProofs.Hydrate
